import StackTrace.Base.Machine
import StackTrace.Symbols.NmSymbols

/-!
# The table of symbols that is kept

`StackTrace.cpp`, lines 604–670 and 856–861. `getSymbols` and `getDataFromGlobalSymbols`
run `nm` if no table is there, and `clearSymbols` drops it. The calls come one after the
other here: `StackTrace_mutex` sees to that for `getSymbols` and `clearSymbols`, but
`getDataFromGlobalSymbols` does not lock it, and its callers have to keep others away.

* `run_spans`: between two calls of `clearSymbols` the symbols are read once.
-/

namespace StackTrace

/-- `global_symbols_loaded` and `global_symbols_data` (lines 604–605). -/
structure SymbolCache where
  global_symbols_loaded : Bool
  global_symbols_data : List NmSymbol

namespace SymbolCache

def init : SymbolCache := ⟨false, []⟩

/-- Lines 654–657 and 858–861, where `nm` would print `output`. -/
def load (c : SymbolCache) (output : Bytes) : SymbolCache :=
  if !c.global_symbols_loaded then ⟨true, getSymbolData output⟩ else c

/-- `clearSymbols` (lines 662–670). -/
def clearSymbols (c : SymbolCache) : SymbolCache :=
  if c.global_symbols_loaded then ⟨false, []⟩ else c

/-- What happens to the table. -/
inductive Event
  /-- `getSymbols` or `getDataFromGlobalSymbols`, at a time when `nm` prints `output` -/
  | use (output : Bytes)
  | clearSymbols

/-- The table, those that the calls have seen, and what `nm` has printed, the last first. -/
structure State where
  cache : SymbolCache
  seen : List (List NmSymbol)
  printed : List Bytes

/-- One call. -/
def step (s : State) : Event → Option State
  | .use output =>
    let cache := s.cache.load output
    some {
      cache := cache
      seen := cache.global_symbols_data :: s.seen
      printed := if s.cache.global_symbols_loaded then s.printed else output :: s.printed }
  | .clearSymbols => some { s with cache := s.cache.clearSymbols }

/-- What `nm` would print for the calls before the first `clearSymbols`, between this and the
    next one, and so on. -/
def spans : List Event → List Bytes × List (List Bytes)
  | [] => ([], [])
  | .use output :: es => (output :: (spans es).1, (spans es).2)
  | .clearSymbols :: es => ([], (spans es).1 :: (spans es).2)

/-- The table of a span is that of its first call. -/
def tables (outputs : List Bytes) : List (List NmSymbol) :=
  outputs.map fun _ => getSymbolData (outputs.headD [])

/-- What the calls of the first span see, and what `nm` prints for them, if the run begins
    with the table `c`. -/
def tablesFrom (c : SymbolCache) (outputs : List Bytes) : List (List NmSymbol) :=
  if c.global_symbols_loaded then outputs.map fun _ => c.global_symbols_data else tables outputs

def printedFrom (c : SymbolCache) (outputs : List Bytes) : List Bytes :=
  if c.global_symbols_loaded then [] else outputs.head?.toList

theorem tablesFrom_cons (c : SymbolCache) (output : Bytes) (outputs : List Bytes) :
    tablesFrom c (output :: outputs) =
      (c.load output).global_symbols_data :: tablesFrom (c.load output) outputs := by
  obtain ⟨loaded, data⟩ := c
  cases loaded <;> rfl

theorem printedFrom_cons (c : SymbolCache) (output : Bytes) (outputs : List Bytes) :
    printedFrom c (output :: outputs) = (if c.global_symbols_loaded then [] else [output]) ++
      printedFrom (c.load output) outputs := by
  obtain ⟨loaded, data⟩ := c
  cases loaded <;> rfl

theorem from_clearSymbols (c : SymbolCache) (outputs : List Bytes) :
    tablesFrom c.clearSymbols outputs = tables outputs ∧
      printedFrom c.clearSymbols outputs = outputs.head?.toList := by
  obtain ⟨loaded, data⟩ := c
  cases loaded <;> exact ⟨rfl, rfl⟩

theorem filterMap_head?_cons (outputs : List Bytes) (rest : List (List Bytes)) :
    (outputs :: rest).filterMap List.head? =
      outputs.head?.toList ++ rest.filterMap List.head? := by
  cases outputs <;> rfl

theorem run_eq {es : List Event} {s t : State} (hrun : Machine.run step s es = some t) :
    t.seen.reverse = s.seen.reverse ++ tablesFrom s.cache (spans es).1 ++
        (spans es).2.flatMap tables ∧
      t.printed.reverse = s.printed.reverse ++ printedFrom s.cache (spans es).1 ++
        (spans es).2.filterMap List.head? := by
  induction es generalizing s with
  | nil =>
    obtain rfl := Option.some.inj hrun
    obtain ⟨⟨loaded, data⟩, seen, printed⟩ := s
    cases loaded <;> simp [spans, tablesFrom, printedFrom, tables]
  | cons e es ih =>
    obtain ⟨u, hstep, hrun⟩ := Machine.run_cons.mp hrun
    obtain ⟨hseen, hprinted⟩ := ih hrun
    cases e with
    | use output =>
      obtain rfl := Option.some.inj hstep
      rw [hseen, hprinted]
      simp only [spans, tablesFrom_cons, printedFrom_cons]
      refine ⟨by simp, ?_⟩
      cases s.cache.global_symbols_loaded <;> simp
    | clearSymbols =>
      obtain rfl := Option.some.inj hstep
      obtain ⟨htables, hhead⟩ := from_clearSymbols s.cache (spans es).1
      rw [hseen, hprinted, htables, hhead]
      simp only [spans, filterMap_head?_cons, List.flatMap_cons]
      obtain ⟨⟨loaded, data⟩, seen, printed⟩ := s
      cases loaded <;> simp [tablesFrom, printedFrom, tables]

/-- No call fails. -/
theorem exists_run (s : State) (es : List Event) : ∃ t, Machine.run step s es = some t := by
  induction es generalizing s with
  | nil => exact ⟨s, rfl⟩
  | cons e es ih =>
    cases e with
    | use output => exact ih _
    | clearSymbols => exact ih _

/-- Between two calls of `clearSymbols` the symbols are read once, for the first call that
    needs them, and all calls see what was read then. -/
theorem run_spans (es : List Event) :
    ∃ t, Machine.run step ⟨init, [], []⟩ es = some t ∧
      t.seen.reverse = ((spans es).1 :: (spans es).2).flatMap tables ∧
      t.printed.reverse = ((spans es).1 :: (spans es).2).filterMap List.head? := by
  obtain ⟨t, hrun⟩ := exists_run ⟨init, [], []⟩ es
  obtain ⟨hseen, hprinted⟩ := run_eq hrun
  refine ⟨t, hrun, ?_⟩
  rw [hseen, hprinted, filterMap_head?_cons]
  exact ⟨rfl, rfl⟩

end SymbolCache

end StackTrace
