import StackTrace.Base.Limited
import StackTrace.Tree.Basic

/-!
# Trees as they lie in memory

`cleanupStackTrace` replaces an entry by its only child with `*it = it->children[0]`
(`StackTrace.cpp`, line 2138). The vector `it->children` is assigned from inside one of
its own elements, and what comes out depends on how many places it has. `Stored` is a
`multi_stack_info` with the free places of its vector; the vectors are those of
libstdc++.

* `promote_of_replaceable`: when the entry becomes a copy of its child.
* `framesIn_promote`: whatever comes out has frames of the entry only.
-/

namespace StackTrace

/-- A `multi_stack_info` in memory: behind the `children` there is `room` for more. -/
structure Stored where
  N : ℤ
  stack : StackInfo
  room : ℕ
  children : List Stored

namespace Stored

/-! ## Model -/

/-- `children.capacity()`. -/
def capacity (it : Stored) : ℕ := it.children.length + it.room

mutual

/-- The tree. -/
def value : Stored → MultiStackInfo
  | ⟨N, stack, _, children⟩ => ⟨N, stack, values children⟩

/-- The forest. -/
def values : List Stored → List MultiStackInfo
  | [] => []
  | c :: cs => c.value :: values cs

end

mutual

/-- A tree in memory: `room` is the room of the vectors, by the ways down to them. -/
def store : (room : List ℕ → ℕ) → MultiStackInfo → Stored
  | room, ⟨N, stack, children⟩ => ⟨N, stack, room [], stores room 0 children⟩

/-- The children from number `i` on. -/
def stores : (room : List ℕ → ℕ) → (i : ℕ) → List MultiStackInfo → List Stored
  | _, _, [] => []
  | room, i, c :: cs => store (fun way => room (i :: way)) c :: stores room (i + 1) cs

end

mutual

/-- The copy constructor: the new vectors have no room. -/
def copy : Stored → Stored
  | ⟨N, stack, _, children⟩ => ⟨N, stack, 0, copies children⟩

/-- The elements of a copied vector. -/
def copies : List Stored → List Stored
  | [] => []
  | c :: cs => c.copy :: copies cs

end

mutual

/-- `dst = src` for two objects apart: a vector that is large enough keeps its places, and
    the elements in them are assigned. -/
def assign : (dst src : Stored) → Stored
  | dst, ⟨N, stack, _, children⟩ =>
    if children.length ≤ dst.capacity then
      ⟨N, stack, dst.capacity - children.length, assigns dst.children children⟩
    else ⟨N, stack, 0, copies children⟩

/-- The elements of an assigned vector: those that there are are assigned, the others
    constructed. -/
def assigns : (dst src : List Stored) → List Stored
  | _, [] => []
  | [], s :: src => s.copy :: copies src
  | d :: dst, s :: src => assign d s :: assigns dst src

end

/-- `children.push_back( tmp )`: a full vector is moved to one of twice the size. -/
def pushBack (it tmp : Stored) : Stored :=
  { it with
    room := if it.room = 0 then max it.children.length 1 - 1 else it.room - 1
    children := it.children ++ [tmp.copy] }

/-- `children.clear()`. -/
def clearChildren (it : Stored) : Stored := { it with room := it.capacity, children := [] }

/-- `*it = it->children[0]`. `N` and `stack` are those of the child `c`. Its vector is then
    assigned to the vector of the entry, which `c` is the first element of. If there is no
    room for the callees of `c`, they are copied to new places. Otherwise `c` is assigned the
    first of them, and the others are read from the vector that `c` has afterwards. -/
def promote : Stored → Limited Stored
  | ⟨_, _, _, []⟩ => .error .undefined
  | ⟨_, _, room, c :: cs⟩ =>
    let capacity := cs.length + 1 + room
    let size := c.children.length
    if size = 0 then .ok ⟨c.N, c.stack, capacity, []⟩
    else if capacity < size then .ok ⟨c.N, c.stack, 0, copies c.children⟩
    else do
      let first ← promote c
      if size = 1 then .ok ⟨c.N, c.stack, capacity - 1, [first]⟩
      -- the places that are read have been given back
      else if cs ≠ [] ∧ c.children.head?.any (fun d => c.capacity < d.children.length) then
        .error .undefined
      -- or their objects have been destroyed
      else if first.children.length < size then .error .undefined
      -- or objects are made behind the last place
      else if cs.length + 1 < size ∧ capacity < first.children.length then .error .undefined
      else
        .ok ⟨c.N, c.stack, capacity - size,
          first :: assigns cs ((first.children.drop 1).take (size - 1))⟩

/-- The child is not changed before it has been copied: it has no callees, or more than the
    vector of the entry has places, or one for which the same holds. -/
def replaceable : Stored → Bool
  | ⟨_, _, room, [c]⟩ =>
    c.children = [] || room + 1 < c.children.length || c.children.length = 1 && replaceable c
  | _ => false

/-! ## Values -/

/-- Structural induction: a property passes from the children to the node. -/
@[elab_as_elim]
theorem induction {P : Stored → Prop} (node : ∀ t : Stored, (∀ c ∈ t.children, P c) → P t)
    (t : Stored) : P t := by
  refine @Stored.rec P (fun cs => ∀ c ∈ cs, P c) ?_ ?_ ?_ t
  · intro N stack room children ih
    exact node ⟨N, stack, room, children⟩ ih
  · simp
  · intro c cs hc hcs
    simpa using ⟨hc, hcs⟩

theorem values_eq_map (cs : List Stored) : values cs = cs.map value := by
  induction cs with
  | nil => rfl
  | cons c cs ih => rw [values, ih, List.map_cons]

theorem copies_eq_map (cs : List Stored) : copies cs = cs.map copy := by
  induction cs with
  | nil => rfl
  | cons c cs ih => rw [copies, ih, List.map_cons]

@[simp] theorem value_N (t : Stored) : t.value.N = t.N := by cases t; rfl

@[simp] theorem value_stack (t : Stored) : t.value.stack = t.stack := by cases t; rfl

@[simp] theorem value_children (t : Stored) : t.value.children = values t.children := by
  cases t; rfl

theorem value_eq (t : Stored) : t.value = ⟨t.N, t.stack, values t.children⟩ := by cases t; rfl

@[simp] theorem values_nil : values [] = [] := rfl

@[simp] theorem values_cons (c : Stored) (cs : List Stored) :
    values (c :: cs) = c.value :: values cs := rfl

@[simp] theorem values_append (cs ds : List Stored) :
    values (cs ++ ds) = values cs ++ values ds := by
  simp only [values_eq_map, List.map_append]

@[simp] theorem length_values (cs : List Stored) : (values cs).length = cs.length := by
  rw [values_eq_map, List.length_map]

theorem value_store (room : List ℕ → ℕ) (t : MultiStackInfo) : (store room t).value = t := by
  induction t using MultiStackInfo.induction generalizing room with
  | node t ih =>
    have hchildren : ∀ i cs, (∀ c ∈ cs, c ∈ t.children) → values (stores room i cs) = cs := by
      intro i cs hcs
      induction cs generalizing i with
      | nil => rfl
      | cons c cs ih' =>
        obtain ⟨hc, hcs⟩ := List.forall_mem_cons.mp hcs
        rw [stores, values_cons, ih c hc, ih' (i + 1) hcs]
    obtain ⟨N, stack, children⟩ := t
    rw [store, value, hchildren 0 children fun _ h => h]

@[simp] theorem value_copy (t : Stored) : t.copy.value = t.value := by
  induction t using Stored.induction with
  | node t ih =>
    obtain ⟨N, stack, room, children⟩ := t
    rw [copy, value, value, copies_eq_map, values_eq_map, values_eq_map, List.map_map]
    exact congrArg (MultiStackInfo.mk N stack) (List.map_congr_left ih)

@[simp] theorem values_copies (cs : List Stored) : values (copies cs) = values cs := by
  rw [copies_eq_map, values_eq_map, values_eq_map, List.map_map]
  exact List.map_congr_left fun c _ => value_copy c

theorem values_assigns_of {src : List Stored} (h : ∀ s ∈ src, ∀ d, (assign d s).value = s.value)
    (dst : List Stored) : values (assigns dst src) = values src := by
  induction src generalizing dst with
  | nil => cases dst <;> rfl
  | cons s src ih =>
    obtain ⟨hs, hsrc⟩ := List.forall_mem_cons.mp h
    cases dst with
    | nil => rw [assigns, values_cons, values_cons, value_copy, values_copies]
    | cons d dst => rw [assigns, values_cons, values_cons, hs, ih hsrc]

/-- An assigned object is equal to what it has been assigned. -/
@[simp] theorem value_assign (dst src : Stored) : (assign dst src).value = src.value := by
  induction src using Stored.induction generalizing dst with
  | node src ih =>
    obtain ⟨N, stack, room, children⟩ := src
    rw [assign]
    split_ifs
    · rw [value, value, values_assigns_of ih]
    · rw [value, value, values_copies]

@[simp] theorem values_assigns (dst src : List Stored) : values (assigns dst src) = values src :=
  values_assigns_of (fun s _ d => value_assign d s) dst

@[simp] theorem value_pushBack (it tmp : Stored) : (it.pushBack tmp).value =
    { it.value with children := it.value.children ++ [tmp.value] } := by
  rw [value_eq, value_eq it]
  simp [pushBack]

@[simp] theorem value_clearChildren (it : Stored) :
    it.clearChildren.value = { it.value with children := [] } := by
  rw [value_eq, value_eq it]
  simp [clearChildren]

/-! ## The assignment of line 2138 -/

theorem replaceable_iff {it : Stored} : it.replaceable = true ↔
    ∃ c, it.children = [c] ∧ (c.children = [] ∨ it.capacity < c.children.length ∨
      c.children.length = 1 ∧ c.replaceable = true) := by
  obtain ⟨N, stack, room, _ | ⟨c, _ | ⟨d, cs⟩⟩⟩ := it
  · simp [replaceable]
  · simp [replaceable, capacity, or_assoc, Nat.add_comm]
  · simp [replaceable]

/-- The entry becomes a copy of its child, if the child is not changed before that. -/
theorem promote_of_replaceable {it : Stored} (h : it.replaceable = true) :
    ∃ c it', it.children = [c] ∧ promote it = .ok it' ∧ it'.value = c.value := by
  induction it using Stored.induction with
  | node it ih =>
    obtain ⟨c, hc, hcase⟩ := replaceable_iff.mp h
    obtain ⟨N, stack, room, children⟩ := it
    obtain rfl : children = [c] := hc
    rw [promote]
    rcases hcase with hnil | hmore | ⟨hone, hrep⟩
    · refine ⟨c, _, rfl, if_pos (by rw [hnil]; rfl), ?_⟩
      rw [value_eq, value_eq c, hnil]
    · have hpos : c.children.length ≠ 0 := by omega
      have hroom : ([] : List Stored).length + 1 + room < c.children.length := by
        rw [List.length_nil, Nat.zero_add]
        exact hmore
      refine ⟨c, ⟨c.N, c.stack, 0, copies c.children⟩, rfl, ?_, ?_⟩
      · rw [if_neg hpos, if_pos hroom]
      · rw [value_eq, value_eq c, values_copies]
    · obtain ⟨d, first, hd, hfirst, hvalue⟩ := ih c (by simp) hrep
      have hpos : c.children.length ≠ 0 := by omega
      have hroom : ¬ ([] : List Stored).length + 1 + room < c.children.length := by
        rw [hone, List.length_nil]
        omega
      refine ⟨c, ⟨c.N, c.stack, ([] : List Stored).length + 1 + room - 1, [first]⟩, rfl, ?_, ?_⟩
      · rw [if_neg hpos, if_neg hroom, hfirst]
        exact if_pos hone
      · rw [value_eq, value_eq c, hd, values_cons, values_cons, hvalue]

/-- What the assignment leaves: the callees of the child, or its first one after an
    assignment of its own, and behind it some that this one has then. -/
theorem promote_eq_ok {it it' : Stored} (h : promote it = .ok it') :
    ∃ c cs, it.children = c :: cs ∧ it'.N = c.N ∧ it'.stack = c.stack ∧
      (values it'.children = values c.children ∨
        ∃ first rest, promote c = .ok first ∧ values it'.children = first.value :: rest ∧
          rest ⊆ values first.children) := by
  obtain ⟨N, stack, room, _ | ⟨c, cs⟩⟩ := it
  · rw [promote] at h
    cases h
  · refine ⟨c, cs, rfl, ?_⟩
    rw [promote] at h
    by_cases h0 : c.children.length = 0
    · rw [if_pos h0] at h
      obtain rfl := Except.ok.inj h
      exact ⟨rfl, rfl, .inl (by rw [List.length_eq_zero_iff.mp h0])⟩
    rw [if_neg h0] at h
    by_cases hroom : cs.length + 1 + room < c.children.length
    · rw [if_pos hroom] at h
      obtain rfl := Except.ok.inj h
      exact ⟨rfl, rfl, .inl (values_copies _)⟩
    rw [if_neg hroom] at h
    obtain ⟨first, hfirst, h⟩ := Limited.ok_of_bind h
    split_ifs at h
    · obtain rfl := Except.ok.inj h
      exact ⟨rfl, rfl, .inr ⟨first, [], hfirst, rfl, List.nil_subset _⟩⟩
    · obtain rfl := Except.ok.inj h
      refine ⟨rfl, rfl, .inr ⟨first, _, hfirst, rfl, ?_⟩⟩
      rw [values_assigns, values_eq_map, values_eq_map]
      exact List.map_subset value fun d hd => List.mem_of_mem_drop (List.mem_of_mem_take hd)

/-- Its frames are frames of the entry. -/
theorem framesIn_promote {F : Set StackInfo} {it it' : Stored} (h : promote it = .ok it')
    (hit : MultiStackInfo.FramesIn F (values it.children)) :
    it'.stack ∈ F ∧ MultiStackInfo.FramesIn F (values it'.children) := by
  induction it using Stored.induction generalizing it' with
  | node it ih =>
    obtain ⟨c, cs, hchildren, -, hstack, hcase⟩ := promote_eq_ok h
    rw [hchildren, values_cons, MultiStackInfo.framesIn_iff] at hit
    have hc : c.stack ∈ F ∧ MultiStackInfo.FramesIn F (values c.children) := by
      simpa using hit c.value (by simp)
    refine ⟨hstack ▸ hc.1, ?_⟩
    rcases hcase with hsame | ⟨first, rest, hfirst, hvalues, hrest⟩
    · rw [hsame]
      exact hc.2
    · have hsub := ih c (by rw [hchildren]; simp) hfirst hc.2
      rw [hvalues, MultiStackInfo.framesIn_iff, List.forall_mem_cons]
      exact ⟨by simpa using hsub, fun d hd => MultiStackInfo.framesIn_iff.mp hsub.2 d (hrest hd)⟩

/-- It is lower than the entry was. -/
theorem height_promote {it it' : Stored} (h : promote it = .ok it') :
    it'.value.height < it.value.height := by
  induction it using Stored.induction generalizing it' with
  | node it ih =>
    obtain ⟨c, cs, hchildren, -, -, hcase⟩ := promote_eq_ok h
    have hc : c.value.height < it.value.height :=
      MultiStackInfo.height_lt_of_mem (by rw [value_children, hchildren]; simp)
    refine lt_of_le_of_lt (MultiStackInfo.height_le.mpr fun d hd => ?_) hc
    rw [value_children] at hd
    rcases hcase with hsame | ⟨first, rest, hfirst, hvalues, hrest⟩
    · rw [hsame] at hd
      exact MultiStackInfo.height_lt_of_mem (by rwa [value_children])
    · have hlower := ih c (by rw [hchildren]; simp) hfirst
      rw [hvalues] at hd
      rcases List.mem_cons.mp hd with rfl | hd
      · exact hlower
      · have hmem : d ∈ first.value.children := by
          rw [value_children]
          exact hrest hd
        exact (MultiStackInfo.height_lt_of_mem hmem).trans hlower

theorem promote_ne_steps (it : Stored) : promote it ≠ .error .steps := by
  induction it using Stored.induction with
  | node it ih =>
    obtain ⟨N, stack, room, _ | ⟨c, cs⟩⟩ := it
    · rw [promote]
      nofun
    · have hc := ih c (by simp)
      rw [promote]
      by_cases h0 : c.children.length = 0
      · rw [if_pos h0]
        nofun
      rw [if_neg h0]
      by_cases hroom : cs.length + 1 + room < c.children.length
      · rw [if_pos hroom]
        nofun
      rw [if_neg hroom]
      refine Limited.bind_ne hc fun first => ?_
      split_ifs <;> nofun

end Stored

end StackTrace
