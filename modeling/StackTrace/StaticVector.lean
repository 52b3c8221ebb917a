import StackTrace.Base.Distinct

/-!
# `staticVector`: a vector of fixed capacity

`StaticVector.h`. The elements stand at the front of an array of `CAPACITY`
cells, `d_size` says how many there are, and the cells behind them keep what
they held. `toList` is what `begin()` to `end()` runs over; each operation has
one lemma that says what it does to it.

* `insert_distinct`: the elements that are inserted first, in order, up to the capacity.
-/

namespace StackTrace

/-- `class staticVector<TYPE, CAPACITY>`. -/
structure StaticVector (α : Type*) (CAPACITY : ℕ) where
  d_size : ℕ
  d_data : Vector α CAPACITY
  size_le : d_size ≤ CAPACITY

namespace StaticVector

variable {α : Type*} {CAPACITY : ℕ}

/-- `staticVector()`. -/
def init [Inhabited α] : StaticVector α CAPACITY :=
  ⟨0, Vector.replicate CAPACITY default, Nat.zero_le _⟩

/-- The elements from `begin()` to `end()`. -/
def toList (v : StaticVector α CAPACITY) : List α := v.d_data.toList.take v.d_size

@[simp] theorem length_toList (v : StaticVector α CAPACITY) : v.toList.length = v.d_size := by
  simp [toList, v.size_le]

@[simp] theorem toList_init [Inhabited α] : (init : StaticVector α CAPACITY).toList = [] := by
  simp [toList, init]

theorem getElem?_toList {v : StaticVector α CAPACITY} {i : ℕ} (hi : i < v.d_size) :
    v.toList[i]? = v.d_data[i]? := by
  simp [toList, hi]

/-- `push_back`: a full vector drops the element. -/
def push_back (v : StaticVector α CAPACITY) (x : α) : StaticVector α CAPACITY :=
  if h : v.d_size < CAPACITY then ⟨v.d_size + 1, v.d_data.set v.d_size x h, h⟩ else v

theorem toList_push_back (v : StaticVector α CAPACITY) (x : α) :
    (v.push_back x).toList = if v.d_size < CAPACITY then v.toList ++ [x] else v.toList := by
  unfold push_back
  split_ifs with h
  · show (v.d_data.set v.d_size x h).toList.take (v.d_size + 1) =
      v.d_data.toList.take v.d_size ++ [x]
    rw [Vector.toList_set, List.take_set, List.take_add_one]
    simp [h, min_eq_left h.le]
  · rfl

/-- `find`: the index of the first `x`, the size where there is none. -/
def find [DecidableEq α] (v : StaticVector α CAPACITY) (x : α) : ℕ := v.toList.idxOf x

theorem find_le [DecidableEq α] (v : StaticVector α CAPACITY) (x : α) : v.find x ≤ v.d_size := by
  rw [← length_toList]
  exact List.idxOf_le_length

theorem find_eq_size_iff [DecidableEq α] {v : StaticVector α CAPACITY} {x : α} :
    v.find x = v.d_size ↔ x ∉ v.toList := by
  rw [← length_toList]
  exact List.idxOf_eq_length_iff

/-- `clear`. -/
def clear (v : StaticVector α CAPACITY) : StaticVector α CAPACITY :=
  { v with d_size := 0, size_le := Nat.zero_le _ }

@[simp] theorem toList_clear (v : StaticVector α CAPACITY) : v.clear.toList = [] := by
  simp [toList, clear]

/-- The loop of `resize` over the cells from `d_size` on. -/
def fill (d_data : Vector α CAPACITY) (x : α) (i N : ℕ) : Vector α CAPACITY :=
  Vector.ofFn fun k => if i ≤ k ∧ k < N then x else d_data[k]

/-- `resize`; `none` is the exception. -/
def resize (v : StaticVector α CAPACITY) (N : ℕ) (x : α) : Option (StaticVector α CAPACITY) :=
  if h : CAPACITY < N then none
  else some ⟨N, fill v.d_data x v.d_size N, Nat.le_of_not_lt h⟩

/-- Shrinking never throws and keeps the elements in front. -/
theorem resize_of_le {v : StaticVector α CAPACITY} {N : ℕ} (h : N ≤ v.d_size) (x : α) :
    ∃ w, v.resize N x = some w ∧ w.toList = v.toList.take N := by
  have hsize := v.size_le
  refine ⟨⟨N, fill v.d_data x v.d_size N, by omega⟩, dif_neg (by omega), ?_⟩
  refine List.ext_getElem? fun i => ?_
  by_cases hi : i < N
  · have hcell : ¬ (v.d_size ≤ i ∧ i < N) := by omega
    have hcap : i < CAPACITY := by omega
    rw [getElem?_toList hi, List.getElem?_take, if_pos hi, getElem?_toList (by omega)]
    simp [fill, hcell, hcap]
  · rw [List.getElem?_eq_none (by rw [length_toList]; exact Nat.le_of_not_lt hi),
      List.getElem?_eq_none (by simp [h]; omega)]

/-- `std::swap( v[i], v.back() )` for an index below the size. -/
def swapBack (v : StaticVector α CAPACITY) (i : ℕ) (h : i < v.d_size) : StaticVector α CAPACITY :=
  have hsize := v.size_le
  { v with d_data := v.d_data.swap i (v.d_size - 1) (by omega) (by omega) }

theorem toList_swapBack {v : StaticVector α CAPACITY} {i : ℕ} (h : i < v.d_size)
    (hi : i < v.toList.length) (hlast : v.d_size - 1 < v.toList.length) :
    (v.swapBack i h).toList =
      (v.toList.set i v.toList[v.d_size - 1]).set (v.d_size - 1) v.toList[i] := by
  have hsize := v.size_le
  refine List.ext_getElem (by simp [length_toList, swapBack]) fun j h1 h2 => ?_
  have hj : j < v.d_size := by simpa [length_toList, swapBack] using h1
  rw [List.getElem_set, List.getElem_set]
  simp only [swapBack, toList, List.getElem_take, Vector.getElem_toList, Vector.getElem_swap]
  grind

/-- Swapping an element with the last and shrinking by one takes out this element. -/
theorem resize_swapBack {v : StaticVector α CAPACITY} {i : ℕ} (h : i < v.d_size)
    (hi : i < v.toList.length) (x : α) :
    ∃ w, (v.swapBack i h).resize (v.d_size - 1) x = some w ∧
      (v.toList[i] :: w.toList).Perm v.toList := by
  have hlen : v.toList.length = v.d_size := v.length_toList
  have hback : v.d_size - 1 < v.toList.length := by omega
  obtain ⟨w, hw, hlist⟩ := resize_of_le (Nat.sub_le (v.swapBack i h).d_size 1) x
  refine ⟨w, hw, ?_⟩
  have hperm := List.set_set_perm hi hback
  rw [← toList_swapBack h hi hback] at hperm
  refine List.Perm.trans ?_ hperm
  -- the swapped element now stands last
  have hlast : (v.swapBack i h).toList = w.toList ++ [v.toList[i]] := by
    have hswap := toList_swapBack h hi hback
    have hlt : v.d_size - 1 < (v.swapBack i h).toList.length := by
      rw [hswap]
      simpa using hback
    have hget : (v.swapBack i h).toList[v.d_size - 1] = v.toList[i] := by
      simp only [hswap, List.getElem_set_self]
    show (v.swapBack i h).toList = w.toList ++ [v.toList[i]]
    rw [hlist, ← hget]
    show _ = (v.swapBack i h).toList.take (v.d_size - 1) ++ _
    rw [List.take_append_getElem, List.take_of_length_le]
    rw [length_toList]
    show v.d_size ≤ _
    omega
  rw [hlast]
  exact (List.perm_append_singleton _ _).symm

/-! ## `insert` -/

/-- `std::sort( begin(), end() )`. -/
def sort [LE α] [DecidableLE α] (v : StaticVector α CAPACITY) : StaticVector α CAPACITY :=
  { v with d_data := Vector.ofFn fun k => (v.toList.mergeSort (· ≤ ·)).getD k v.d_data[k] }

/-- `insert`. -/
def insert [DecidableEq α] [LE α] [DecidableLE α] (v : StaticVector α CAPACITY) (x : α) :
    StaticVector α CAPACITY :=
  if x ∈ v.toList then v else (v.push_back x).sort

theorem toList_sort [LE α] [DecidableLE α] (v : StaticVector α CAPACITY) :
    v.sort.toList = v.toList.mergeSort (· ≤ ·) := by
  have hlen : (v.toList.mergeSort (· ≤ ·)).length = v.d_size := by simp
  refine List.ext_getElem? fun i => ?_
  by_cases hi : i < v.d_size
  · have hcap : i < CAPACITY := hi.trans_le v.size_le
    rw [getElem?_toList (v := v.sort) hi]
    simp [sort, hcap, hi]
  · rw [List.getElem?_eq_none (by rw [length_toList]; exact Nat.le_of_not_lt hi),
      List.getElem?_eq_none (by rw [hlen]; exact Nat.le_of_not_lt hi)]

/-- While there is room, `insert` adds what is not there yet. -/
theorem toList_insert_perm [DecidableEq α] [LE α] [DecidableLE α] {v : StaticVector α CAPACITY}
    (hroom : v.d_size < CAPACITY) (x : α) :
    (v.insert x).toList.Perm (if x ∈ v.toList then v.toList else v.toList ++ [x]) := by
  unfold insert
  split_ifs with hx
  · exact List.Perm.refl _
  · rw [toList_sort, toList_push_back, if_pos hroom]
    exact List.mergeSort_perm _ _

theorem mem_insert [DecidableEq α] [LE α] [DecidableLE α] {v : StaticVector α CAPACITY}
    (hroom : v.d_size < CAPACITY) (x y : α) : y ∈ (v.insert x).toList ↔ y ∈ v.toList ∨ y = x := by
  rw [(toList_insert_perm hroom x).mem_iff]
  split_ifs with hx
  · exact ⟨.inl, fun h => h.elim id fun heq => heq ▸ hx⟩
  · simp

theorem nodup_insert [DecidableEq α] [LE α] [DecidableLE α] {v : StaticVector α CAPACITY}
    (hroom : v.d_size < CAPACITY) (hv : v.toList.Nodup) (x : α) : (v.insert x).toList.Nodup := by
  rw [(toList_insert_perm hroom x).nodup_iff]
  split_ifs with hx
  · exact hv
  · exact List.nodup_append.mpr ⟨hv, by simp, fun a ha b hb heq => hx (by simp_all)⟩

/-! ## Sequences of `insert` -/

section LinearOrder

variable [LinearOrder α]

theorem sort_of_pairwise {l : List α} (h : l.Pairwise (· ≤ ·)) : l.mergeSort (· ≤ ·) = l :=
  List.mergeSort_of_pairwise (by simpa using h)

theorem pairwise_le_mergeSort (l : List α) : (l.mergeSort (· ≤ ·)).Pairwise (· ≤ ·) :=
  List.pairwise_mergeSort' (· ≤ ·) l

/-- Sorting depends on the elements and not on their order. -/
theorem mergeSort_congr {l m : List α} (h : l.Perm m) :
    l.mergeSort (· ≤ ·) = m.mergeSort (· ≤ ·) := by
  have hperm : (l.mergeSort (· ≤ ·)).Perm (m.mergeSort (· ≤ ·)) :=
    ((List.mergeSort_perm l _).trans h).trans (List.mergeSort_perm m _).symm
  exact hperm.eq_of_pairwise' (pairwise_le_mergeSort l) (pairwise_le_mergeSort m)

/-- `empty()`. -/
def empty (v : StaticVector α CAPACITY) : Bool := v.d_size = 0

/-- One more `insert` behind those of `xs`. -/
theorem toList_insert_concat {v : StaticVector α CAPACITY} {xs : List α}
    (hv : v.toList = (xs.eraseDups.take CAPACITY).mergeSort (· ≤ ·)) (x : α) :
    (v.insert x).toList = ((xs ++ [x]).eraseDups.take CAPACITY).mergeSort (· ≤ ·) := by
  have hmem : x ∈ v.toList ↔ x ∈ xs.eraseDups.take CAPACITY := by
    rw [hv, List.mem_mergeSort]
  have hsize : v.d_size = min CAPACITY xs.eraseDups.length := by
    rw [← v.length_toList, hv, List.length_mergeSort, List.length_take]
  unfold insert
  rw [eraseDups_concat]
  by_cases hx : x ∈ v.toList
  · have hxs : x ∈ xs := List.mem_eraseDups.mp (List.mem_of_mem_take (hmem.mp hx))
    rw [if_pos hx, if_pos hxs, hv]
  · rw [if_neg hx, toList_sort, toList_push_back]
    by_cases hroom : xs.eraseDups.length < CAPACITY
    · -- all distinct elements are there, and `x` is none of them
      have htake : xs.eraseDups.take CAPACITY = xs.eraseDups := List.take_of_length_le hroom.le
      have hxs : x ∉ xs := by
        intro h
        rw [hmem, htake] at hx
        exact hx (List.mem_eraseDups.mpr h)
      have hfits : (xs.eraseDups ++ [x]).length ≤ CAPACITY := by
        rw [List.length_append, List.length_singleton]
        exact hroom
      rw [if_neg hxs, if_pos (by omega), List.take_of_length_le hfits, hv, htake]
      exact mergeSort_congr ((List.mergeSort_perm _ _).append_right [x])
    · -- `x` is dropped, and it is behind the first distinct elements
      have hfull : ¬ v.d_size < CAPACITY := by omega
      have htake : (if x ∈ xs then xs.eraseDups else xs.eraseDups ++ [x]).take CAPACITY =
          xs.eraseDups.take CAPACITY := by
        split_ifs
        · rfl
        · exact List.take_append_of_le_length (Nat.le_of_not_lt hroom)
      rw [if_neg hfull, htake, hv]
      exact sort_of_pairwise (pairwise_le_mergeSort _)

theorem toList_foldl_insert {v : StaticVector α CAPACITY} (hv : v.toList = []) (xs : List α) :
    (xs.foldl insert v).toList = (xs.eraseDups.take CAPACITY).mergeSort (· ≤ ·) := by
  induction xs using List.reverseRecOn with
  | nil => simpa using hv
  | append_singleton xs x ih =>
    rw [List.foldl_append]
    exact toList_insert_concat ih x

/-- From an empty vector, any sequence of `insert` leaves the distinct elements that came
    first, as many as there is room for, in increasing order. -/
theorem insert_distinct (v : StaticVector α CAPACITY) (hv : v.empty) (xs : List α) :
    (xs.foldl insert v).toList.Pairwise (· < ·) ∧
      (xs.foldl insert v).toList.Perm (xs.eraseDups.take CAPACITY) ∧
      (xs.foldl insert v).d_size ≤ CAPACITY := by
  have hnil : v.toList = [] := by
    rw [← List.length_eq_zero_iff, length_toList]
    simpa [empty] using hv
  have hlist := toList_foldl_insert hnil xs
  have hperm : (xs.foldl insert v).toList.Perm (xs.eraseDups.take CAPACITY) := by
    rw [hlist]
    exact List.mergeSort_perm _ _
  have hle : (xs.foldl insert v).toList.Pairwise (· ≤ ·) := by
    rw [hlist]
    exact pairwise_le_mergeSort _
  have hnodup : (xs.foldl insert v).toList.Nodup := by
    rw [hperm.nodup_iff]
    exact (nodup_eraseDups xs).sublist (List.take_sublist _ _)
  refine ⟨?_, hperm, (xs.foldl insert v).size_le⟩
  exact (hle.and hnodup).imp fun h => lt_of_le_of_ne h.1 h.2

/-- A vector for two hashes. -/
theorem insert_distinct_full :
    ([7, 3, 7, 9].foldl insert (init : StaticVector ℕ 2)).toList.Pairwise (· < ·) ∧
      ([7, 3, 7, 9].foldl insert (init : StaticVector ℕ 2)).toList.Perm
        ([7, 3, 7, 9].eraseDups.take 2) ∧
      ([7, 3, 7, 9].foldl insert (init : StaticVector ℕ 2)).d_size ≤ 2 :=
  insert_distinct (init : StaticVector ℕ 2) rfl [7, 3, 7, 9]

end LinearOrder

end StaticVector

end StackTrace
