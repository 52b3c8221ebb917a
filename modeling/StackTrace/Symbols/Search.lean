import StackTrace.Symbols.GetStackInfo

/-!
# The search in the global symbols

`StackTrace.cpp`, lines 866–874. The bounds of the search are neighbours when it ends.
They start at the first and the last symbol, and a round leaves one of them where it is
and moves the other one to the middle.

* `closest_lt`: from bounds that are apart the search ends, in as many rounds as they are
  apart.
* `closest_same`: from equal bounds it never ends.
* `closest_ends_iff`: it ends for every table but those of one symbol.
* `closest_between`: in a sorted table all symbols between the first one and the lower
  bound are below the address, and none from the upper bound to the last but one.
* `nearest_iff`: the symbol that is found is the last one below the address, if the first
  symbol is below it and the last one is not.
-/

namespace StackTrace

variable {data : List Symbol} {address : UInt64} {lower upper : ℕ}

/-- One round between bounds that are not neighbours. -/
theorem closest_round {fuel : ℕ} (h : upper - lower ≠ 1)
    (hvalue : (upper + lower) / 2 < data.length) :
    closest data address (fuel + 1) lower upper =
      if data[(upper + lower) / 2].address ≥ address then
        closest data address fuel lower ((upper + lower) / 2)
      else closest data address fuel ((upper + lower) / 2) upper := by
  rw [closest, if_neg h]
  simp only [List.getElem?_eq_getElem hvalue]
  rfl

theorem closest_neighbours {fuel : ℕ} (h : upper - lower = 1) :
    closest data address (fuel + 1) lower upper = some (lower, upper) := by
  rw [closest, if_pos h]

/-- Bounds that are apart come closer, and never meet. -/
theorem closest_lt {fuel : ℕ} (hlt : lower < upper) (hupper : upper < data.length)
    (hfuel : upper - lower ≤ fuel) :
    ∃ l, lower ≤ l ∧ l + 1 ≤ upper ∧ closest data address fuel lower upper = some (l, l + 1) := by
  induction fuel generalizing lower upper with
  | zero => omega
  | succ fuel ih =>
    by_cases h : upper - lower = 1
    · obtain rfl : upper = lower + 1 := by omega
      exact ⟨lower, le_rfl, le_rfl, closest_neighbours h⟩
    · have hlow : lower < (upper + lower) / 2 := by omega
      have hup : (upper + lower) / 2 < upper := by omega
      rw [closest_round h (hup.trans hupper)]
      split_ifs
      · obtain ⟨l, hl, hl', hclosest⟩ := ih hlow (hup.trans hupper) (by omega)
        exact ⟨l, hl, by omega, hclosest⟩
      · obtain ⟨l, hl, hl', hclosest⟩ := ih hup hupper (by omega)
        exact ⟨l, by omega, hl', hclosest⟩

/-- More rounds do not change the result. -/
theorem closest_mono {fuel fuel' : ℕ} {r : ℕ × ℕ} (hle : fuel ≤ fuel')
    (h : closest data address fuel lower upper = some r) :
    closest data address fuel' lower upper = some r := by
  induction fuel generalizing fuel' lower upper with
  | zero => cases h
  | succ fuel ih =>
    obtain ⟨fuel', rfl⟩ : ∃ k, fuel' = k + 1 := ⟨fuel' - 1, by omega⟩
    rw [closest] at h ⊢
    split_ifs at h ⊢ with hone
    · exact h
    · obtain ⟨symbol, hsymbol, h⟩ := Option.bind_eq_some_iff.mp h
      dsimp only
      rw [hsymbol, Option.bind_eq_bind, Option.bind_some]
      split_ifs at h ⊢
      · exact ih (by omega) h
      · exact ih (by omega) h

/-- Equal bounds stay as they are. -/
theorem closest_same (fuel : ℕ) : closest data address fuel lower lower = none := by
  induction fuel with
  | zero => rfl
  | succ fuel ih =>
    have hvalue : (lower + lower) / 2 = lower := by omega
    rw [closest, if_neg (by omega)]
    simp only [hvalue, ih, ite_self]
    cases data[lower]? with
    | none => rfl
    | some symbol => rfl

/-- The loop ends for a table that is not empty if and only if the table does not have
    exactly one symbol. -/
theorem closest_ends_iff (data : List Symbol) (hdata : data ≠ []) (address : UInt64) :
    (∃ fuel, (closest data address fuel 0 (data.length - 1)).isSome) ↔ data.length ≠ 1 := by
  have hpos := List.length_pos_iff.mpr hdata
  constructor
  · rintro ⟨fuel, h⟩ hone
    rw [hone, closest_same] at h
    cases h
  · intro hone
    have hends : ∃ l, 0 ≤ l ∧ l + 1 ≤ data.length - 1 ∧
        closest data address (data.length - 1) 0 (data.length - 1) = some (l, l + 1) :=
      closest_lt (by omega) (by omega) le_rfl
    obtain ⟨l, -, -, hclosest⟩ := hends
    exact ⟨data.length - 1, by rw [hclosest]; rfl⟩

/-- The symbol of `main`, say. -/
def oneSymbol : Symbol := ⟨4198400, .zero 56, .zero 56⟩

/-- A table of four symbols, two of them at one address. -/
theorem closest_ends_four :
    ∃ fuel, (closest [oneSymbol, oneSymbol, { oneSymbol with address := 4198694 },
      { oneSymbol with address := 4202528 }] 4198710 fuel 0 3).isSome :=
  (closest_ends_iff [oneSymbol, oneSymbol, { oneSymbol with address := 4198694 },
    { oneSymbol with address := 4202528 }] (by simp) 4198710).mpr (by decide)

/-- A table of one symbol, for which the search never ends. -/
theorem closest_one_symbol :
    ¬ ∀ data : List Symbol, data ≠ [] → ∀ address : UInt64,
      ∃ fuel, (closest data address fuel 0 (data.length - 1)).isSome := by
  intro h
  obtain ⟨fuel, hfuel⟩ := h [oneSymbol] (by simp) 4198410
  have hnone : closest [oneSymbol] 4198410 fuel 0 0 = none := closest_same fuel
  rw [List.length_singleton, hnone] at hfuel
  cases hfuel

/-! ## What is found -/

/-- The names that `info` takes from a symbol. -/
def Symbol.names (symbol : Symbol) : CharArray 56 × CharArray 48 :=
  (copyArray 56 symbol.obj, copyArray 48 symbol.objPath)

/-- Lines 876–877 and 879. -/
def StackInfo.setObject (info : StackInfo) (names : CharArray 56 × CharArray 48) : StackInfo :=
  { info with object := names.1, objectPath := names.2 }

namespace Process

/-- The names of the last symbol below the address, and those of the executable where there
    is none. -/
def nearestNames (p : Process) (address : UInt64) : CharArray 56 × CharArray 48 :=
  ((p.symbols.filter fun symbol => symbol.address < address).getLast?.map Symbol.names).getD
    (copyPath 56 48 p.executable)

end Process

theorem StackInfo.setObject_inj {info : StackInfo} {names names' : CharArray 56 × CharArray 48} :
    info.setObject names = info.setObject names' ↔ names = names' := by
  constructor
  · intro h
    exact Prod.ext (congrArg StackInfo.object h) (congrArg StackInfo.objectPath h)
  · rintro rfl
    rfl

/-- The table is sorted by address. -/
def Sorted (data : List Symbol) : Prop :=
  data.Pairwise fun a b => a.address ≤ b.address

instance (data : List Symbol) : Decidable (Sorted data) :=
  inferInstanceAs (Decidable (data.Pairwise _))

theorem Sorted.le (h : Sorted data) {i j : ℕ} (hij : i ≤ j) (hj : j < data.length) :
    data[i].address ≤ data[j].address := by
  rcases hij.eq_or_lt with rfl | hlt
  · exact UInt64.le_refl _
  · exact List.pairwise_iff_getElem.mp h i j (by omega) hj hlt

/-- What the bounds have been compared with: neither the first symbol nor the last one. -/
def Brackets (data : List Symbol) (address : UInt64) (lower upper : ℕ) : Prop :=
  (∀ i (_ : i < data.length), 0 < i → i ≤ lower → data[i].address < address) ∧
    ∀ i (_ : i < data.length), upper ≤ i → i + 1 < data.length → address ≤ data[i].address

theorem closest_between (hsorted : Sorted data) {fuel l u : ℕ} (hlt : lower < upper)
    (hupper : upper < data.length) (hbrackets : Brackets data address lower upper)
    (h : closest data address fuel lower upper = some (l, u)) :
    u = l + 1 ∧ u < data.length ∧ Brackets data address l u := by
  induction fuel generalizing lower upper with
  | zero => cases h
  | succ fuel ih =>
    by_cases hone : upper - lower = 1
    · rw [closest_neighbours hone] at h
      obtain ⟨rfl, rfl⟩ := Prod.ext_iff.mp (Option.some.inj h)
      exact ⟨by omega, hupper, hbrackets⟩
    · have hlow : lower < (upper + lower) / 2 := by omega
      have hup : (upper + lower) / 2 < upper := by omega
      rw [closest_round hone (hup.trans hupper)] at h
      split_ifs at h with hvalue
      · refine ih hlow (hup.trans hupper) ⟨hbrackets.1, fun i hi hge _ => ?_⟩ h
        exact UInt64.le_trans hvalue (hsorted.le hge hi)
      · refine ih hup hupper ⟨fun i _ _ hle => ?_, hbrackets.2⟩ h
        exact UInt64.lt_of_le_of_lt (hsorted.le hle (hup.trans hupper)) (UInt64.not_le.mp hvalue)

/-- The symbols up to `l` are those below the address. -/
theorem getLast?_filter {l : ℕ} (hl : l < data.length)
    (hbelow : ∀ i (_ : i < data.length), i ≤ l → data[i].address < address)
    (habove : ∀ i (_ : i < data.length), l < i → address ≤ data[i].address) :
    (data.filter fun symbol => symbol.address < address).getLast? = some data[l] := by
  have hfilter : (data.filter fun symbol => symbol.address < address) = data.take (l + 1) := by
    conv_lhs => rw [← List.take_append_drop (l + 1) data]
    rw [List.filter_append, List.filter_eq_self.mpr, List.filter_eq_nil_iff.mpr, List.append_nil]
    · intro symbol hmem
      obtain ⟨i, hi, rfl⟩ := List.mem_iff_getElem.mp hmem
      rw [List.length_drop] at hi
      rw [List.getElem_drop]
      simpa using habove (l + 1 + i) (by omega) (by omega)
    · intro symbol hmem
      obtain ⟨i, hi, rfl⟩ := List.mem_iff_getElem.mp hmem
      rw [List.length_take] at hi
      rw [List.getElem_take]
      simpa using hbelow i (by omega) (by omega)
  rw [hfilter, List.getLast?_take]
  simp [hl]

/-- What the function takes, for the bounds with which the search ends. -/
theorem getDataFromGlobalSymbols_eq {p : Process} {info : StackInfo} {fuel l : ℕ}
    (hl : l < p.symbols.length)
    (hclosest : closest p.symbols info.address fuel 0 (p.symbols.length - 1) = some (l, l + 1)) :
    p.getDataFromGlobalSymbols fuel info = some (info.setObject p.symbols[l].names) := by
  have hne : p.symbols.isEmpty = false := by
    rw [List.isEmpty_eq_false_iff]
    rintro hnil
    rw [hnil] at hl
    simp at hl
  unfold Process.getDataFromGlobalSymbols
  simp only [hne, hclosest, Bool.false_eq_true, if_false, Option.bind_eq_bind, Option.bind_some,
    List.getElem?_eq_getElem hl]
  rw [if_pos (Nat.succ_pos l)]
  rfl

theorem getDataFromGlobalSymbols_iff {p : Process} {info : StackInfo} {fuel l : ℕ}
    (hl : l < p.symbols.length)
    (hclosest : closest p.symbols info.address fuel 0 (p.symbols.length - 1) = some (l, l + 1))
    (names : CharArray 56 × CharArray 48) :
    (∃ fuel, p.getDataFromGlobalSymbols fuel info = some (info.setObject names)) ↔
      p.symbols[l].names = names := by
  constructor
  · rintro ⟨fuel', h⟩
    have hne : p.symbols.isEmpty = false := by
      rw [List.isEmpty_eq_false_iff, ← List.length_pos_iff]
      omega
    have hsame : closest p.symbols info.address fuel' 0 (p.symbols.length - 1) =
        some (l, l + 1) := by
      have h' := h
      unfold Process.getDataFromGlobalSymbols at h'
      rw [hne, if_neg Bool.false_ne_true] at h'
      obtain ⟨r, hr, -⟩ := Option.bind_eq_some_iff.mp h'
      have hmax := closest_mono (Nat.le_max_left fuel' fuel) hr
      have hmax' := closest_mono (Nat.le_max_right fuel' fuel) hclosest
      rw [hr, ← hmax, hmax']
    rw [getDataFromGlobalSymbols_eq hl hsame] at h
    exact StackInfo.setObject_inj.mp (Option.some.inj h)
  · intro h
    exact ⟨fuel, (getDataFromGlobalSymbols_eq hl hclosest).trans (by rw [h])⟩

/-- Where the bounds are when the search in a sorted table has ended, and what the last symbol
    below the address is. -/
theorem nearestNames_cases {p : Process} (hsorted : Sorted p.symbols)
    (hlen : 2 ≤ p.symbols.length) {l : ℕ} (hl : l + 1 < p.symbols.length)
    (hbrackets : Brackets p.symbols address l (l + 1)) :
    (address ≤ p.symbols[0].address ∧ l = 0 ∧
        p.nearestNames address = copyPath 56 48 p.executable) ∨
      (p.symbols[p.symbols.length - 1].address < address ∧ l = p.symbols.length - 2 ∧
        p.nearestNames address = p.symbols[p.symbols.length - 1].names) ∨
      (p.symbols[0].address < address ∧ address ≤ p.symbols[p.symbols.length - 1].address ∧
        p.nearestNames address = p.symbols[l].names) := by
  obtain ⟨hbelow, habove⟩ := hbrackets
  unfold Process.nearestNames
  by_cases hfirst : address ≤ p.symbols[0].address
  · refine .inl ⟨hfirst, ?_, ?_⟩
    · by_contra hne
      have hlt := hbelow l (by omega) (by omega) le_rfl
      have hle := hsorted.le (Nat.zero_le l) (by omega)
      exact absurd (UInt64.lt_of_lt_of_le hlt (UInt64.le_trans hfirst hle)) (UInt64.lt_irrefl _)
    · have hnone : (p.symbols.filter fun symbol => symbol.address < address) = [] := by
        rw [List.filter_eq_nil_iff]
        intro symbol hmem
        obtain ⟨i, hi, rfl⟩ := List.mem_iff_getElem.mp hmem
        simpa using UInt64.le_trans hfirst (hsorted.le (Nat.zero_le i) hi)
      rw [hnone]
      rfl
  · have hfirst' := UInt64.not_le.mp hfirst
    by_cases hlast : p.symbols[p.symbols.length - 1].address < address
    · refine .inr (.inl ⟨hlast, ?_, ?_⟩)
      · by_contra hne
        have hge := habove (l + 1) hl le_rfl (by omega)
        have hle : p.symbols[l + 1].address ≤ p.symbols[p.symbols.length - 1].address :=
          hsorted.le (by omega) (by omega)
        exact absurd (UInt64.lt_of_le_of_lt (UInt64.le_trans hge hle) hlast) (UInt64.lt_irrefl _)
      · rw [getLast?_filter (l := p.symbols.length - 1) (by omega)]
        · rfl
        · intro i hi hile
          exact UInt64.lt_of_le_of_lt (hsorted.le hile (by omega)) hlast
        · intro i hi hlt
          omega
    · have hlast' := UInt64.not_lt.mp hlast
      refine .inr (.inr ⟨hfirst', hlast', ?_⟩)
      rw [getLast?_filter (l := l) (by omega)]
      · rfl
      · intro i hi hile
        rcases Nat.eq_zero_or_pos i with rfl | hpos
        · exact hfirst'
        · exact hbelow i hi hpos hile
      · intro i hi hlt
        by_cases hend : i + 1 < p.symbols.length
        · exact habove i hi hlt hend
        · obtain rfl : i = p.symbols.length - 1 := by omega
          exact hlast'

/-- In a sorted table of two symbols or more, `info` gets the names of the last symbol below
    its address if the first symbol is below it and the last one is not. Beyond the ends it
    gets those of the first and of the last but one, which may be the right ones by chance. -/
theorem nearest_iff (p : Process) (info : StackInfo) (hsorted : Sorted p.symbols)
    (hlen : 2 ≤ p.symbols.length) :
    (∃ fuel, p.getDataFromGlobalSymbols fuel info =
        some (info.setObject (p.nearestNames info.address))) ↔
      (p.symbols[0].address < info.address ∧
          info.address ≤ p.symbols[p.symbols.length - 1].address) ∨
        (info.address ≤ p.symbols[0].address ∧
          p.symbols[0].names = copyPath 56 48 p.executable) ∨
        (p.symbols[p.symbols.length - 1].address < info.address ∧
          p.symbols[p.symbols.length - 2].names = p.symbols[p.symbols.length - 1].names) := by
  have hends : ∃ l, 0 ≤ l ∧ l + 1 ≤ p.symbols.length - 1 ∧ closest p.symbols info.address
      (p.symbols.length - 1) 0 (p.symbols.length - 1) = some (l, l + 1) :=
    closest_lt (by omega) (by omega) le_rfl
  obtain ⟨l, -, hl, hclosest⟩ := hends
  have hbrackets : Brackets p.symbols info.address 0 (p.symbols.length - 1) :=
    ⟨fun i _ hpos hle => by omega, fun i _ hge hlt => by omega⟩
  have hbounds := (closest_between hsorted (by omega) (by omega) hbrackets hclosest).2.2
  rw [getDataFromGlobalSymbols_iff (by omega) hclosest]
  rcases nearestNames_cases hsorted hlen (by omega) hbounds with
    ⟨hfirst, rfl, hnearest⟩ | ⟨hlast, rfl, hnearest⟩ | ⟨hfirst, hlast, hnearest⟩
  · have hlast : info.address ≤ p.symbols[p.symbols.length - 1].address :=
      UInt64.le_trans hfirst (hsorted.le (Nat.zero_le _) (by omega))
    simp [hnearest, hfirst, UInt64.not_lt.mpr hfirst, UInt64.not_lt.mpr hlast]
  · have hfirst : p.symbols[0].address < info.address :=
      UInt64.lt_of_le_of_lt (hsorted.le (Nat.zero_le _) (by omega)) hlast
    simp [hnearest, hlast, UInt64.not_le.mpr hfirst, UInt64.not_le.mpr hlast]
  · simp [hnearest, hfirst, hlast]

/-- A process with two symbols, in which `dladdr` knows nothing. -/
def twoSymbols : Process where
  dladdr _ := none
  demangle _ := none
  executable := ascii "/bin/a.out"
  symbols := [⟨4198400, .ofText 56 (ascii "start"), .zero 56⟩,
    ⟨4202496, .ofText 56 (ascii "main"), .zero 56⟩]
  addr2line := ⟨ascii "addr2line", fun _ _ => [], fun _ _ => []⟩

theorem nearest_iff_between :
    (∃ fuel, twoSymbols.getDataFromGlobalSymbols fuel (.ofFields 4198410 0 [] [] []) =
        some ((StackInfo.ofFields 4198410 0 [] [] []).setObject
          (twoSymbols.nearestNames 4198410))) :=
  (nearest_iff twoSymbols (.ofFields 4198410 0 [] [] []) (by decide) (by decide)).mpr
    (.inl (by decide))

/-- Behind the last symbol the one before it is taken. -/
theorem nearest_beyond_last :
    Sorted twoSymbols.symbols ∧ 2 ≤ twoSymbols.symbols.length ∧
      ¬ ∃ fuel, twoSymbols.getDataFromGlobalSymbols fuel (.ofFields 4202506 0 [] [] []) =
        some ((StackInfo.ofFields 4202506 0 [] [] []).setObject
          (twoSymbols.nearestNames 4202506)) := by
  refine ⟨by decide, by decide, ?_⟩
  have hclosest : closest twoSymbols.symbols 4202506 1 0 (twoSymbols.symbols.length - 1) =
      some (0, 1) := by decide
  rw [getDataFromGlobalSymbols_iff (by decide) hclosest]
  decide +kernel

end StackTrace
