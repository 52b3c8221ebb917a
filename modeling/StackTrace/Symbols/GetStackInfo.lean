import StackTrace.Base.Fallible
import StackTrace.Symbols.Batches
import StackTrace.Symbols.FunctionName

/-!
# `getStackInfo`: frames for addresses

`StackTrace.cpp`, lines 149–154 and 856–997, on Linux. What the dynamic linker, the
demangler and `nm` say is a parameter. A model function fails where the code would not
return or would look outside an object; nothing that it calls throws.

* `terminated_getStackInfo`: each of the five texts of a frame ends in a NUL, whatever the
  names of objects, symbols and files are.
* `address_getStackInfo`: a frame for each address.
-/

namespace StackTrace

/-! ## What is known about the process -/

/-- `Dl_info`. A symbol may have no name. -/
structure DlInfo where
  dli_fname : Bytes
  dli_fbase : UInt64
  dli_sname : Option Bytes

/-- `struct symbols_struct` (`StackTrace.h`, lines 121–126). -/
structure Symbol where
  address : UInt64
  obj : CharArray 56
  objPath : CharArray 56

/-- `dladdr`, `abi::__cxa_demangle` where it succeeds, the name of the executable,
    `global_symbols_data` and the external program. -/
structure Process where
  dladdr : (address : UInt64) → Option DlInfo
  demangle : (name : Option Bytes) → Option Bytes
  executable : Bytes
  symbols : List Symbol
  addr2line : Addr2line

/-! ## Model -/

/-- `subtractAddress` (lines 150–154): the absolute value of the difference in `int64_t`. -/
def subtractAddress (a b : UInt64) : UInt64 :=
  (((a.toNat : ℤ) - b.toNat).bmod 18446744073709551616).natAbs.toUInt64

/-- The binary search of lines 868–874. It ends where the bounds are neighbours. -/
def closest (data : List Symbol) (address : UInt64) :
    (fuel : ℕ) → (lower upper : ℕ) → Option (ℕ × ℕ)
  | 0, _, _ => none
  | fuel + 1, lower, upper =>
    if upper - lower = 1 then some (lower, upper)
    else do
      let value := (upper + lower) / 2
      let symbol ← data[value]?
      if symbol.address ≥ address then closest data address fuel lower value
      else closest data address fuel value upper

namespace Process

variable (p : Process) (fuel : ℕ)

/-- `getDataFromGlobalSymbols` (lines 857–882). -/
def getDataFromGlobalSymbols (info : StackInfo) : Option StackInfo :=
  if p.symbols.isEmpty then some info
  else do
    let (lower, upper) ← closest p.symbols info.address fuel 0 (p.symbols.length - 1)
    if upper > 0 then do
      let symbol ← p.symbols[lower]?
      some { info with
        object := copyArray 56 symbol.obj
        objectPath := copyArray 48 symbol.objPath }
    else
      some { info with
        object := (copyPath 56 48 p.executable).1
        objectPath := (copyPath 56 48 p.executable).2 }

/-- Lines 945–955: the demangled name, or else the name itself. -/
def demangledFunction (dlinfo : DlInfo) (info : StackInfo) : Option StackInfo :=
  match p.demangle dlinfo.dli_sname, dlinfo.dli_sname with
  | some demangled, _ => do
    let name ← cleanupFunctionName fuel demangled
    some { info with function := copy 256 name }
  | none, some name => some { info with function := copy 256 name }
  | none, none => some info

/-- Lines 957–962, for a function that is still empty. `tmp` has 4096 characters. -/
def functionName (dlinfo : DlInfo) (info : StackInfo) : Option StackInfo :=
  match dlinfo.dli_sname with
  | some sname =>
    if info.function.toList.head? = some 0 then do
      let tmp ← cleanupFunctionName fuel (copy 4096 sname).str
      some { info with function := copy 256 tmp }
    else some info
  | none => some info

/-- `getStackInfo( stack_info & )` (lines 935–963). -/
def getStackInfo (info : StackInfo) : Option StackInfo :=
  match p.dladdr info.address with
  | none => p.getDataFromGlobalSymbols fuel info
  | some dlinfo => do
    let info := { info with
      address2 := subtractAddress info.address dlinfo.dli_fbase
      object := (copyPath 56 48 dlinfo.dli_fname).1
      objectPath := (copyPath 56 48 dlinfo.dli_fname).2 }
    let info ← p.demangledFunction fuel dlinfo info
    functionName fuel dlinfo info

/-- `getStackInfo2` (lines 969–985) for as many frames as addresses. -/
def getStackInfo2 (address : List UInt64) (info : List StackInfo) : Option (List StackInfo) := do
  let info ← (address.zip info).mapM fun (x, s) => p.getStackInfo fuel { s.clear with address := x }
  getFileAndLine p.addr2line info

end Process

/-- `getStackInfo( const std::vector<void *> & )` (lines 992–997). -/
def getStackInfo (p : Process) (fuel : ℕ) (address : List UInt64) : Option (List StackInfo) :=
  p.getStackInfo2 fuel address (List.replicate address.length .init)

/-- `getStackInfo( void * )` (lines 986–991). -/
def getStackInfoAt (p : Process) (fuel : ℕ) (address : UInt64) : Option StackInfo := do
  let info ← p.getStackInfo2 fuel [address] [.init]
  info.head?

/-! ## What a look-up changes -/

namespace StackInfo.Terminated

variable {s t : StackInfo}

theorem withObject (h : s.Terminated) {object : CharArray 56} {objectPath : CharArray 48}
    (hobject : object.Terminated) (hobjectPath : objectPath.Terminated) :
    { s with object := object, objectPath := objectPath }.Terminated :=
  ⟨hobject, hobjectPath, h.filename, h.filenamePath, h.function⟩

theorem withFunction (h : s.Terminated) (name : Bytes) :
    { s with function := copy 256 name }.Terminated :=
  ⟨h.object, h.objectPath, h.filename, h.filenamePath, terminated_copy (by omega) name⟩

end StackInfo.Terminated

/-- The second frame is about the same address, and its texts end in a NUL if those of the
    first one do. -/
structure Resolved (s t : StackInfo) : Prop where
  address : t.address = s.address
  terminated : s.Terminated → t.Terminated

namespace Resolved

variable {p : Process} {fuel : ℕ} {s t u : StackInfo}

theorem refl (s : StackInfo) : Resolved s s := ⟨rfl, id⟩

theorem trans (hst : Resolved s t) (htu : Resolved t u) : Resolved s u :=
  ⟨htu.address.trans hst.address, htu.terminated ∘ hst.terminated⟩

theorem function (s : StackInfo) (name : Bytes) :
    Resolved s { s with function := copy 256 name } :=
  ⟨rfl, fun h => h.withFunction name⟩

theorem located (h : Located s t) : Resolved s t := by
  cases h with
  | same => exact refl s
  | found name line =>
    obtain ⟨hname, hpath⟩ := terminated_copyPath (N := 64) (M := 64) (by omega) (by omega) name
    exact ⟨rfl, fun h => ⟨h.object, h.objectPath, hname, hpath, h.function⟩⟩

theorem getDataFromGlobalSymbols (h : p.getDataFromGlobalSymbols fuel s = some t) :
    Resolved s t := by
  unfold Process.getDataFromGlobalSymbols at h
  split_ifs at h
  · obtain rfl := Option.some.inj h
    exact refl s
  · obtain ⟨⟨lower, upper⟩, -, h⟩ := Option.bind_eq_some_iff.mp h
    dsimp only at h
    split_ifs at h
    · obtain ⟨symbol, -, h⟩ := Option.bind_eq_some_iff.mp h
      obtain rfl := Option.some.inj h
      exact ⟨rfl, fun h =>
        h.withObject (terminated_copy (by omega) _) (terminated_copy (by omega) _)⟩
    · obtain rfl := Option.some.inj h
      obtain ⟨hname, hpath⟩ :=
        terminated_copyPath (N := 56) (M := 48) (by omega) (by omega) p.executable
      exact ⟨rfl, fun h => h.withObject hname hpath⟩

theorem demangledFunction {dlinfo : DlInfo} (h : p.demangledFunction fuel dlinfo s = some t) :
    Resolved s t := by
  unfold Process.demangledFunction at h
  split at h
  · obtain ⟨name, -, h⟩ := Option.bind_eq_some_iff.mp h
    obtain rfl := Option.some.inj h
    exact function s name
  · obtain rfl := Option.some.inj h
    exact function s _
  · obtain rfl := Option.some.inj h
    exact refl s

theorem functionName {dlinfo : DlInfo} (h : Process.functionName fuel dlinfo s = some t) :
    Resolved s t := by
  unfold Process.functionName at h
  split at h
  · split_ifs at h
    · obtain ⟨tmp, -, h⟩ := Option.bind_eq_some_iff.mp h
      obtain rfl := Option.some.inj h
      exact function s tmp
    · obtain rfl := Option.some.inj h
      exact refl s
  · obtain rfl := Option.some.inj h
    exact refl s

theorem getStackInfo (h : p.getStackInfo fuel s = some t) : Resolved s t := by
  unfold Process.getStackInfo at h
  split at h
  · exact getDataFromGlobalSymbols h
  · rename_i dlinfo _
    obtain ⟨info, hinfo, h⟩ := Option.bind_eq_some_iff.mp h
    obtain ⟨hname, hpath⟩ :=
      terminated_copyPath (N := 56) (M := 48) (by omega) (by omega) dlinfo.dli_fname
    have hobject : Resolved s { s with
        address2 := subtractAddress s.address dlinfo.dli_fbase
        object := (copyPath 56 48 dlinfo.dli_fname).1
        objectPath := (copyPath 56 48 dlinfo.dli_fname).2 } :=
      ⟨rfl, fun h => (h.withAddresses s.address
        (subtractAddress s.address dlinfo.dli_fbase)).withObject hname hpath⟩
    exact hobject.trans ((demangledFunction hinfo).trans (functionName h))

/-- One frame for each address, whatever the names of objects, symbols and files are. -/
theorem getStackInfo2 {address : List UInt64} {info out : List StackInfo}
    (h : p.getStackInfo2 fuel address info = some out) :
    out.map (·.address) = (address.zip info).map Prod.fst ∧ ∀ t ∈ out, t.Terminated := by
  obtain ⟨frames, hframes, hout⟩ := Option.bind_eq_some_iff.mp h
  rw [getFileAndLine_eq] at hout
  have hlocated := located_foldlM hout
  have hpairs := forall₂_of_mapM hframes
  clear hframes hout h
  generalize address.zip info = pairs at hpairs
  induction hpairs generalizing out with
  | nil =>
    cases hlocated
    exact ⟨rfl, by simp⟩
  | cons ht _ ih =>
    cases hlocated with
    | cons hst hlocated =>
      obtain ⟨haddress, hterminated⟩ := ih hlocated
      have hresolved := (getStackInfo ht).trans (located hst)
      refine ⟨?_, List.forall_mem_cons.mpr ⟨?_, hterminated⟩⟩
      · rw [List.map_cons, List.map_cons, haddress, hresolved.address]
      · exact hresolved.terminated ((StackInfo.Terminated.clear _).withAddresses _ 0)

end Resolved

/-- `getStackInfo` leaves a NUL in every text. -/
theorem terminated_getStackInfo {p : Process} {fuel : ℕ} {address : List UInt64}
    {out : List StackInfo} (h : getStackInfo p fuel address = some out) :
    ∀ s ∈ out, s.Terminated :=
  (Resolved.getStackInfo2 h).2

/-- `getStackInfo` has a frame for each address. -/
theorem address_getStackInfo {p : Process} {fuel : ℕ} {address : List UInt64}
    {out : List StackInfo} (h : getStackInfo p fuel address = some out) :
    out.map (·.address) = address := by
  rw [(Resolved.getStackInfo2 h).1, List.map_fst_zip (by simp)]

theorem terminated_getStackInfoAt {p : Process} {fuel : ℕ} {address : UInt64} {s : StackInfo}
    (h : getStackInfoAt p fuel address = some s) : s.Terminated := by
  obtain ⟨info, hinfo, hs⟩ := Option.bind_eq_some_iff.mp h
  exact (Resolved.getStackInfo2 hinfo).2 s (List.mem_of_mem_head? hs)

end StackTrace
