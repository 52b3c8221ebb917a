import StackTrace.Base.Distinct
import StackTrace.Symbols.GetStackInfo
import StackTrace.Tree.Add

/-!
# `generateStacks`: frames for many call stacks

`StackTrace.cpp`, lines 1177–1221. Every address is looked up once: the distinct addresses
of all call stacks make a table, and each entry of a call stack is read from the frames of
the table at the position of its address. A position is an `int`.

* `addressTable_eq`: the table holds the distinct addresses, in the order of their first
  occurrences.
* `generateStacks_faithful`: each entry is the frame of its address.
-/

namespace StackTrace

/-! ## Model -/

/-- The loop of `find` (lines 1182–1185); the cast to `int` wraps. -/
def findLoop (x : UInt64) : (i : ℕ) → (data : List UInt64) → ℤ
  | _, [] => -1
  | i, y :: data => if y = x then (i : ℤ).bmod 4294967296 else findLoop x (i + 1) data

/-- `find` (lines 1181–1187). -/
def findAddress (data : List UInt64) (x : UInt64) : ℤ := findLoop x 0 data

/-- Lines 1193–1194. -/
def addAddress (addresses : List UInt64) (ptr : UInt64) : List UInt64 :=
  if findAddress addresses ptr = -1 then addresses ++ [ptr] else addresses

/-- `addresses` after the loops of lines 1191–1196. -/
def addressTable (trace : List (List UInt64)) : List UInt64 :=
  trace.foldl (fun addresses tmp => tmp.foldl addAddress addresses) []

/-- `stack_data[k]`, for which `k` becomes a `size_t`; there is nothing outside the array. -/
def stackAt (stack_data : List StackInfo) (k : ℤ) : Option StackInfo :=
  stack_data[(k % 18446744073709551616).toNat]?

/-- `generateStacks` (lines 1177–1209) with any `getStackInfo`. -/
def generateStacksWith (getStackInfo : List UInt64 → Option (List StackInfo))
    (trace : List (List UInt64)) : Option (List (List StackInfo)) := do
  let addresses := addressTable trace
  let stack_data ← getStackInfo addresses
  trace.mapM fun tmp => tmp.mapM fun ptr => stackAt stack_data (findAddress addresses ptr)

/-- `generateStacks` (lines 1177–1209). -/
def generateStacks (p : Process) (fuel : ℕ) (trace : List (List UInt64)) :
    Option (List (List StackInfo)) :=
  generateStacksWith (getStackInfo p fuel) trace

/-- `generateMultiStack` (lines 1210–1221). -/
def generateMultiStack (p : Process) (fuel : ℕ) (trace : List (List UInt64)) :
    Option MultiStackInfo := do
  let stack ← generateStacks p fuel trace
  some (MultiStackInfo.multiStackOf stack)

/-! ## The search -/

variable {data : List UInt64} {x : UInt64}

theorem findLoop_eq (x : UInt64) (i : ℕ) (data : List UInt64) :
    findLoop x i data =
      if x ∈ data then ((i + data.idxOf x : ℕ) : ℤ).bmod 4294967296 else -1 := by
  induction data generalizing i with
  | nil => rfl
  | cons y data ih =>
    rw [findLoop]
    by_cases hy : y = x
    · subst hy
      simp
    · have hx : x ∈ y :: data ↔ x ∈ data := by simp [Ne.symm hy]
      rw [if_neg hy, ih, List.idxOf_cons_ne _ hy]
      simp only [hx, Nat.succ_eq_add_one, Nat.add_assoc, Nat.add_comm 1]

theorem findAddress_eq (data : List UInt64) (x : UInt64) :
    findAddress data x = if x ∈ data then (data.idxOf x : ℤ).bmod 4294967296 else -1 := by
  rw [findAddress, findLoop_eq, Nat.zero_add]

/-- The last position that is not taken for a failure is 4294967294. -/
theorem findAddress_eq_neg_one_iff (hsize : data.length ≤ 4294967295) :
    findAddress data x = -1 ↔ x ∉ data := by
  rw [findAddress_eq]
  split_ifs with hx
  · have hlt := List.idxOf_lt_length_of_mem hx
    have hne : (data.idxOf x : ℤ).bmod 4294967296 ≠ -1 := by
      rw [Int.bmod_def]
      split_ifs <;> omega
    exact iff_of_false hne (not_not.mpr hx)
  · exact iff_of_true rfl hx

theorem findAddress_of_mem (hsize : data.length ≤ 2147483648) (hx : x ∈ data) :
    findAddress data x = data.idxOf x := by
  have hlt := List.idxOf_lt_length_of_mem hx
  rw [findAddress_eq, if_pos hx, Int.bmod_def]
  split_ifs <;> omega

/-! ## The table -/

theorem addAddress_eq (hsize : data.length ≤ 4294967295) (x : UInt64) :
    addAddress data x = if x ∈ data then data else data ++ [x] := by
  rw [addAddress]
  simp only [findAddress_eq_neg_one_iff hsize]
  split_ifs <;> rfl

/-- The table holds what has been seen so far. -/
theorem foldl_addAddress (xs : List UInt64) (hsize : xs.eraseDups.length ≤ 4294967295) :
    xs.foldl addAddress [] = xs.eraseDups := by
  induction xs using List.reverseRecOn with
  | nil => rfl
  | append_singleton xs x ih =>
    have hlength : xs.eraseDups.length ≤ (xs ++ [x]).eraseDups.length :=
      (eraseDups_of_isPrefix (List.prefix_append xs [x])).length_le
    have hxs : xs.eraseDups.length ≤ 4294967295 := hlength.trans hsize
    rw [List.foldl_concat, ih hxs, addAddress_eq hxs, eraseDups_concat]
    simp only [List.mem_eraseDups]

theorem addressTable_eq {trace : List (List UInt64)}
    (hsize : trace.flatten.eraseDups.length ≤ 4294967295) :
    addressTable trace = trace.flatten.eraseDups := by
  rw [← foldl_addAddress _ hsize, List.foldl_flatten]
  rfl

/-! ## The frames -/

variable {lookUp : List UInt64 → Option (List StackInfo)} {trace : List (List UInt64)}
  {stack_data : List StackInfo}

theorem generateStacksWith_of_data (hdata : lookUp (addressTable trace) = some stack_data) :
    generateStacksWith lookUp trace =
      trace.mapM fun tmp => tmp.mapM fun ptr =>
        stackAt stack_data (findAddress (addressTable trace) ptr) := by
  unfold generateStacksWith
  dsimp only
  rw [hdata, Option.bind_eq_bind, Option.bind_some]

/-- With a position for every address, the entries are read from the frames of the table. -/
theorem generateStacksWith_eq (hsize : trace.flatten.eraseDups.length ≤ 2147483648)
    (hdata : lookUp (addressTable trace) = some stack_data)
    (hlength : stack_data.length = (addressTable trace).length) :
    generateStacksWith lookUp trace =
      some (trace.map fun tmp =>
        tmp.map fun ptr => stack_data.getD ((addressTable trace).idxOf ptr) .init) := by
  have htable := addressTable_eq (hsize.trans (by decide))
  rw [generateStacksWith_of_data hdata]
  refine mapM_eq_some fun tmp htmp => mapM_eq_some fun ptr hptr => ?_
  have hmem : ptr ∈ addressTable trace := by
    rw [htable, List.mem_eraseDups]
    exact List.mem_flatten_of_mem htmp hptr
  have hlt := List.idxOf_lt_length_of_mem hmem
  have hfits : (addressTable trace).length ≤ 2147483648 := htable ▸ hsize
  have hindex : (((addressTable trace).idxOf ptr : ℤ) % 18446744073709551616).toNat =
      (addressTable trace).idxOf ptr := by
    omega
  rw [findAddress_of_mem hfits hmem, stackAt, hindex,
    List.getElem?_eq_getElem (by omega), List.getD_eq_getElem _ _ (by omega)]

/-- The list that is looked up has every address once, each address has a position in it, and
    each entry is the frame at the position of its address: what looks up every address alone
    gives what it would give without the table. -/
theorem generateStacks_faithful (p : Process) (fuel : ℕ) {trace : List (List UInt64)}
    (hsize : trace.flatten.eraseDups.length ≤ 2147483648) :
    ((addressTable trace).Nodup ∧ ∀ x, x ∈ addressTable trace ↔ ∃ tmp ∈ trace, x ∈ tmp) ∧
      (∀ tmp ∈ trace, ∀ ptr ∈ tmp, findAddress (addressTable trace) ptr ≠ -1 ∧
        (addressTable trace)[(findAddress (addressTable trace) ptr).toNat]? = some ptr) ∧
      (∀ stack_data, getStackInfo p fuel (addressTable trace) = some stack_data →
        stack_data.map (·.address) = addressTable trace ∧
          generateStacks p fuel trace =
            some (trace.map fun tmp =>
              tmp.map fun ptr => stack_data.getD ((addressTable trace).idxOf ptr) .init)) ∧
      ∀ resolve : UInt64 → StackInfo,
        generateStacksWith (fun address => some (address.map resolve)) trace =
          some (trace.map fun tmp => tmp.map resolve) := by
  have htable := addressTable_eq (hsize.trans (by decide))
  have hfits : (addressTable trace).length ≤ 2147483648 := htable ▸ hsize
  have hmem : ∀ x, x ∈ addressTable trace ↔ ∃ tmp ∈ trace, x ∈ tmp := by
    intro x
    rw [htable, List.mem_eraseDups, List.mem_flatten]
  have hposition : ∀ tmp ∈ trace, ∀ ptr ∈ tmp,
      (addressTable trace)[(addressTable trace).idxOf ptr]? = some ptr := by
    intro tmp htmp ptr hptr
    exact List.getElem?_idxOf ((hmem ptr).mpr ⟨tmp, htmp, hptr⟩)
  refine ⟨⟨htable ▸ nodup_eraseDups _, hmem⟩, fun tmp htmp ptr hptr => ?_,
    fun stack_data hdata => ?_, fun resolve => ?_⟩
  · rw [findAddress_of_mem hfits ((hmem ptr).mpr ⟨tmp, htmp, hptr⟩)]
    exact ⟨by omega, hposition tmp htmp ptr hptr⟩
  · have haddress := address_getStackInfo hdata
    have hlength : stack_data.length = (addressTable trace).length := by
      rw [← haddress, List.length_map]
    exact ⟨haddress, generateStacksWith_eq hsize hdata hlength⟩
  · rw [generateStacksWith_eq hsize rfl (by simp)]
    refine congrArg some (List.map_congr_left fun tmp htmp => ?_)
    refine List.map_congr_left fun ptr hptr => ?_
    rw [List.getD_eq_getElem?_getD, List.getElem?_map, hposition tmp htmp ptr hptr]
    rfl

/-- A process in which no address is known. -/
def stripped : Process where
  dladdr _ := none
  demangle _ := none
  executable := ascii "/bin/a.out"
  symbols := []
  addr2line := ⟨ascii "addr2line", fun _ _ => ascii "??", fun _ _ => ascii "??:0"⟩

/-- Two threads that have two addresses in common. -/
theorem generateStacks_faithful_two_threads :
    addressTable [[1, 2], [2, 3, 1]] = [1, 2, 3] ∧
      ∃ stack_data, getStackInfo stripped 0 (addressTable [[1, 2], [2, 3, 1]]) = some stack_data ∧
        generateStacks stripped 0 [[1, 2], [2, 3, 1]] =
          some ([[1, 2], [2, 3, 1]].map fun tmp => tmp.map fun ptr =>
            stack_data.getD ((addressTable [[1, 2], [2, 3, 1]]).idxOf ptr) .init) := by
  obtain ⟨stack_data, hdata⟩ : ∃ stack_data,
      getStackInfo stripped 0 (addressTable [[1, 2], [2, 3, 1]]) = some stack_data :=
    Option.isSome_iff_exists.mp (by decide +kernel)
  have hfaithful := @generateStacks_faithful stripped 0 [[1, 2], [2, 3, 1]] (by decide)
  exact ⟨by decide, stack_data, hdata, (hfaithful.2.2.1 stack_data hdata).2⟩

/-- A position beyond the range of `int` is negative, and what it selects is outside the
    array. -/
theorem generateStacksWith_overflow (hlow : 2147483648 < trace.flatten.eraseDups.length)
    (hhigh : trace.flatten.eraseDups.length ≤ 4294967295)
    (hdata : lookUp (addressTable trace) = some stack_data)
    (hlength : stack_data.length = (addressTable trace).length) :
    generateStacksWith lookUp trace = none := by
  have htable := addressTable_eq hhigh
  have hlt : 2147483648 < (addressTable trace).length := htable ▸ hlow
  have hx := List.getElem_mem hlt
  have hidx : (addressTable trace).idxOf (addressTable trace)[2147483648] = 2147483648 :=
    (htable ▸ nodup_eraseDups _ : (addressTable trace).Nodup).idxOf_getElem _ hlt
  have hfind : findAddress (addressTable trace) (addressTable trace)[2147483648] = -2147483648 := by
    rw [findAddress_eq, if_pos hx, hidx]
    rfl
  have hnone : stackAt stack_data (-2147483648) = none := by
    rw [stackAt, List.getElem?_eq_none]
    have hfits : (addressTable trace).length ≤ 4294967295 := htable ▸ hhigh
    rw [hlength]
    exact hfits.trans (by decide)
  obtain ⟨tmp, htmp, hptr⟩ : ∃ tmp ∈ trace, (addressTable trace)[2147483648] ∈ tmp := by
    rw [← List.mem_flatten, ← List.mem_eraseDups, ← htable]
    exact hx
  rw [generateStacksWith_of_data hdata]
  exact mapM_eq_none htmp (mapM_eq_none hptr (by rw [hfind, hnone]))

/-- One call stack of too many different addresses. -/
theorem generateStacks_overflow :
    generateStacksWith (fun address => some (address.map fun _ => .init))
      [(List.range 2147483649).map Nat.toUInt64] = none := by
  obtain ⟨n, hn⟩ : ∃ n, n = 2147483649 := ⟨_, rfl⟩
  rw [← hn]
  have hnodup : ((List.range n).map Nat.toUInt64).Nodup := by
    refine List.Nodup.map_on (fun i hi j hj hij => ?_) List.nodup_range
    have hi := List.mem_range.mp hi
    have hj := List.mem_range.mp hj
    have hij := congrArg UInt64.toNat hij
    rw [Nat.toUInt64, UInt64.toNat_ofNat', UInt64.toNat_ofNat'] at hij
    omega
  have hlength : [(List.range n).map Nat.toUInt64].flatten.eraseDups.length = n := by
    rw [List.flatten_singleton, eraseDups_of_nodup hnodup, List.length_map, List.length_range]
  exact generateStacksWith_overflow (by omega) (by omega) rfl (by simp)

end StackTrace
