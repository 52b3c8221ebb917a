import StackTrace.Cleanup.Shape

/-!
# Which unwanted entries are left

An unwanted entry is to survive only where the tree branches. The loop counts
the children of an entry (lines 2132–2140) before it cleans them, though, and
does not look again when some of them have been erased or united: the entry
then stays with one child or none, and a second run removes it.

* `removes_iff_branching`: all is well if every unwanted entry that survives has
  two surviving children in different frames (`Branching`), and every entry that
  is replaced is replaceable; and where no entries are united the first of these
  is necessary as well.
* `wellReplaced_of_apart`: where no entries are united, and no vector has room
  behind an only child, the second one holds.
* `leaves_unwanted`: an unwanted entry with two unwanted children and nothing
  below them.
-/

namespace StackTrace

namespace MultiStackInfo

open Keyed

/-! ## Statement -/

/-- Every unwanted entry below the root has two children. -/
def Branches (t : MultiStackInfo) : Prop :=
  ∀ n ∈ preorder t.children, n.stack.keep = false → 2 ≤ n.children.length

/-- There is an entry in another frame than the first. -/
def Forks : List MultiStackInfo → Prop
  | [] => False
  | a :: rest => ∃ b ∈ rest, a.stack.opEq b.stack = false

/-- Every unwanted entry that survives has surviving children in two frames. -/
inductive Branching : List MultiStackInfo → Prop
  | intro {cs : List MultiStackInfo}
      (forks : ∀ s ∈ cs.filterMap survivor,
        s.stack.keep = false → Forks (s.children.filterMap survivor))
      (sub : ∀ s ∈ cs.filterMap survivor, Branching s.children) : Branching cs

/-- No surviving siblings are in equal frames, so none are united. -/
inductive Apart : List MultiStackInfo → Prop
  | intro {cs : List MultiStackInfo} (noTwins : NoTwins (cs.filterMap survivor))
      (sub : ∀ s ∈ cs.filterMap survivor, Apart s.children) : Apart cs

variable {F : Set StackInfo} {cs ss : List MultiStackInfo}

/-! ## Forks -/

theorem forks_append {ds : List MultiStackInfo} (h : Forks cs) : Forks (cs ++ ds) := by
  obtain _ | ⟨a, rest⟩ := cs
  · exact h.elim
  · obtain ⟨b, hb, hab⟩ := h
    exact ⟨b, List.mem_append_left ds hb, hab⟩

theorem forks_of_noTwins (h : NoTwins cs) (hlen : 2 ≤ cs.length) : Forks cs := by
  obtain _ | ⟨a, _ | ⟨b, rest⟩⟩ := cs
  · simp at hlen
  · simp at hlen
  · exact ⟨b, by simp, (List.pairwise_cons.mp h).1 b (by simp)⟩

/-- With a fork two entries are left. -/
theorem two_le_length_pass {rec : MultiStackInfo → MultiStackInfo}
    (hrec : ∀ t, (rec t).stack = t.stack) (h : Forks ss) : 2 ≤ (pass rec ss).length := by
  obtain _ | ⟨a, rest⟩ := ss
  · exact h.elim
  · have hframes : ∃ new, frames (pass rec (a :: rest)) = a.stack :: new ∧
        ((∃ b ∈ rest, a.stack.opEq b.stack = false) → new ≠ []) := by
      clear h
      induction rest using List.reverseRecOn with
      | nil => exact ⟨[], by simp [pass, place, absorb, frames, hrec], by simp⟩
      | append_singleton rest s ih =>
        obtain ⟨new, hnew, hfork⟩ := ih
        rw [← List.cons_append, pass_snoc, frames_place hrec, hnew, hrec]
        split_ifs with hany
        · refine ⟨new, rfl, ?_⟩
          rintro ⟨b, hb, hab⟩
          rcases List.mem_append.mp hb with hb | hb
          · exact hfork ⟨b, hb, hab⟩
          · -- `s` has been united with an entry, and not with the first
            obtain rfl := List.mem_singleton.mp hb
            rintro rfl
            have hmem : (frames (pass rec (a :: rest))).any (fun f => b.stack.opEq f) = true := by
              rw [frames, List.any_map]
              exact hany
            rw [hnew, List.any_cons, List.any_nil, Bool.or_false, StackInfo.opEq_comm, hab] at hmem
            exact absurd hmem (by simp)
        · exact ⟨new ++ [s.stack], rfl, by simp⟩
    obtain ⟨new, hnew, hfork⟩ := hframes
    have hlen := congrArg List.length hnew
    have hpos := List.length_pos_iff.mpr (hfork h)
    rw [frames, List.length_map, List.length_cons] at hlen
    omega

/-- Entries in different frames are placed as they are. -/
theorem pass_of_noTwins {rec : MultiStackInfo → MultiStackInfo}
    (hrec : ∀ t, (rec t).stack = t.stack) (h : NoTwins ss) : pass rec ss = ss.map rec := by
  induction ss using List.reverseRecOn with
  | nil => rfl
  | append_singleton ss s ih =>
    obtain ⟨hss, -, hs⟩ := List.pairwise_append.mp h
    rw [pass_snoc, ih hss, place, absorb_of_none, List.map_append]
    · rfl
    · intro d hd
      obtain ⟨e, he, rfl⟩ := List.mem_map.mp hd
      rw [hrec, hrec, StackInfo.opEq_comm]
      exact hs e he s (by simp)

/-! ## Trimmed entries -/

/-- The entry is not erased and not replaced by a child. -/
def Trimmed (d : MultiStackInfo) : Prop :=
  d.stack.selfTrace = false ∧
    (d.stack.keep = false → d.stack.libcFgets = false ∧ 2 ≤ d.children.length)

/-- What the loop does with such an entry: `fgets` loses its callees. -/
def dropCallees (d : MultiStackInfo) : MultiStackInfo :=
  { d with children := if d.stack.libcFgets then [] else d.children }

theorem survivor_of_trimmed {d : MultiStackInfo} (h : Trimmed d) :
    survivor d = some (dropCallees d) := by
  obtain ⟨hself, hkeep⟩ := h
  obtain ⟨N, stack, _ | ⟨c, _ | ⟨e, cs⟩⟩⟩ := d <;> unfold dropCallees <;> rw [survivor] <;>
    by_cases h2 : stack.libcFgets = true <;> by_cases h3 : stack.keep = true <;>
      simp_all

theorem filterMap_of_trimmed (h : ∀ c ∈ cs, Trimmed c) :
    cs.filterMap survivor = cs.map dropCallees := by
  induction cs with
  | nil => rfl
  | cons c cs ih =>
    rw [List.filterMap_cons_some (survivor_of_trimmed (h c (by simp))),
      ih fun d hd => h d (by simp [hd])]
    rfl

theorem dropCallees_of_leaf {d : MultiStackInfo} (h : FgetsLeaf d) : dropCallees d = d := by
  refine eq_of_fields rfl rfl ?_
  show (if d.stack.libcFgets then [] else d.children) = d.children
  split_ifs with hfgets
  · exact (h hfgets).symm
  · rfl

theorem survivor_eq_self {d : MultiStackInfo} (h : Trimmed d) (hleaf : FgetsLeaf d) :
    survivor d = some d := by
  rw [survivor_of_trimmed h, dropCallees_of_leaf hleaf]

theorem forks_of_trimmed (h : ∀ c ∈ cs, Trimmed c) (htwins : NoTwins cs)
    (hlen : 2 ≤ cs.length) : Forks (cs.filterMap survivor) := by
  rw [filterMap_of_trimmed h]
  refine forks_of_noTwins ?_ (by rwa [List.length_map])
  exact List.pairwise_map.mpr htwins

/-- A tree of trimmed entries without twins branches. -/
theorem branching_of_trimmed {t : MultiStackInfo} (h : ∀ n ∈ preorder t.children, Trimmed n)
    (htwins : ∀ n ∈ preorder t.children, NoTwins n.children) : Branching t.children := by
  induction t using MultiStackInfo.induction with
  | node t ih =>
    rw [forall_preorder] at h htwins
    have hmap := filterMap_of_trimmed fun c hc => (h c hc).1
    have hchildren : ∀ c : MultiStackInfo, (dropCallees c).children =
        if c.stack.libcFgets then [] else c.children := fun _ => rfl
    refine .intro ?_ ?_ <;> rw [hmap] <;> intro s hs <;> obtain ⟨c, hc, rfl⟩ := List.mem_map.mp hs
    · intro hkeep
      obtain ⟨hfgets, hlen⟩ := (h c hc).1.2 hkeep
      rw [hchildren, if_neg (by simp [hfgets])]
      exact forks_of_trimmed (fun b hb => (forall_preorder.mp (h c hc).2 b hb).1)
        (htwins c hc).1 hlen
    · rw [hchildren]
      split_ifs
      · exact .intro (by simp) (by simp)
      · exact ih c hc (h c hc).2 (htwins c hc).2

/-- There is nothing to clean. -/
theorem cleanupStackTrace_of_trimmed {t : MultiStackInfo}
    (h : ∀ n ∈ preorder t.children, Trimmed n ∧ FgetsLeaf n)
    (htwins : Hereditarily NoTwins t.children) : cleanupStackTrace t = t := by
  induction t using MultiStackInfo.induction with
  | node t ih =>
    obtain ⟨hroot, hsub⟩ := hereditarily_iff.mp htwins
    rw [forall_preorder] at h
    have hsame : t.children.filterMap survivor = t.children := by
      rw [filterMap_of_trimmed fun c hc => (h c hc).1.1]
      conv_rhs => rw [← List.map_id t.children]
      exact List.map_congr_left fun c hc => dropCallees_of_leaf (h c hc).1.2
    have hmap : t.children.map cleanupStackTrace = t.children := by
      conv_rhs => rw [← List.map_id t.children]
      exact List.map_congr_left fun c hc => ih c hc (h c hc).2 (hsub c hc)
    have hchildren : (cleanupStackTrace t).children = t.children := by
      rw [cleanupStackTrace_children, hsame, pass_of_noTwins cleanupStackTrace_stack hroot, hmap]
    exact eq_of_fields (cleanupStackTrace_N t) (cleanupStackTrace_stack t) hchildren

/-! ## The condition is enough -/

theorem Branching.forks (h : Branching cs) {s : MultiStackInfo} (hs : s ∈ cs.filterMap survivor)
    (hkeep : s.stack.keep = false) : Forks (s.children.filterMap survivor) := by
  cases h with
  | intro forks _ => exact forks s hs hkeep

theorem Branching.sub (h : Branching cs) {s : MultiStackInfo} (hs : s ∈ cs.filterMap survivor) :
    Branching s.children := by
  cases h with
  | intro _ sub => exact sub s hs

/-- An entry that is trimmed when it has been cleaned. -/
structure Ready (t : MultiStackInfo) : Prop where
  selfTrace : t.stack.selfTrace = false
  unwanted : t.stack.keep = false →
    t.stack.libcFgets = false ∧ Forks (t.children.filterMap survivor)
  branching : Branching t.children

/-- An entry that is trimmed with all that is below it. -/
structure AllTrimmed (t : MultiStackInfo) : Prop where
  trimmed : Trimmed t
  below : ∀ n ∈ preorder t.children, Trimmed n
  noTwins : Hereditarily NoTwins t.children

theorem ready_unite {it it2 : MultiStackInfo} (h : AllTrimmed it) (h2 : AllTrimmed it2) :
    Ready (unite it it2) := by
  have hbelow : ∀ n ∈ preorder (unite it it2).children, Trimmed n := by
    refine forall_preorder.mpr fun c hc => ?_
    rcases List.mem_append.mp hc with hc | hc
    · exact forall_preorder.mp h2.below c hc
    · exact forall_preorder.mp h.below c hc
  have htwins : ∀ n ∈ preorder (unite it it2).children, NoTwins n.children := by
    refine forall_preorder.mpr fun c hc => ?_
    rcases List.mem_append.mp hc with hc | hc
    · exact forall_preorder.mp h2.noTwins.2 c hc
    · exact forall_preorder.mp h.noTwins.2 c hc
  refine ⟨h2.trimmed.1, fun hkeep => ?_, branching_of_trimmed hbelow htwins⟩
  obtain ⟨hfgets, hlen⟩ := h2.trimmed.2 hkeep
  refine ⟨hfgets, ?_⟩
  show Forks ((it2.children ++ it.children).filterMap survivor)
  rw [List.filterMap_append]
  exact forks_append (forks_of_trimmed (fun c hc => (forall_preorder.mp h2.below c hc).1)
    h2.noTwins.1 hlen)

theorem trimmed_cleanupStackTrace {t : MultiStackInfo} (h : Branching t.children) :
    ∀ n ∈ preorder (cleanupStackTrace t).children, Trimmed n := by
  induction t using height_induction with
  | step t ih =>
    have hall := forall_cleanupStackTrace_children (A := Ready) (B := AllTrimmed) (t := t)
      ?_ ?_ fun it it2 hit hit2 _ => ready_unite hit hit2
    · exact forall_preorder.mpr fun d hd => ⟨(hall d hd).trimmed, (hall d hd).below⟩
    · intro t' ht' hready
      refine ⟨⟨?_, fun hkeep => ?_⟩, ih t' ht' hready.branching,
        hereditarily_noTwins_cleanupStackTrace t'⟩
      · rw [cleanupStackTrace_stack]
        exact hready.selfTrace
      · rw [cleanupStackTrace_stack] at hkeep ⊢
        obtain ⟨hfgets, hforks⟩ := hready.unwanted hkeep
        rw [cleanupStackTrace_children]
        exact ⟨hfgets, two_le_length_pass cleanupStackTrace_stack hforks⟩
    · intro s hs
      obtain ⟨c, -, hcs⟩ := List.mem_filterMap.mp hs
      refine ⟨survivor_selfTrace hcs, fun hkeep => ⟨?_, h.forks hs hkeep⟩, h.sub hs⟩
      -- `fgets` without callees has no fork
      rw [← Bool.not_eq_true]
      intro hfgets
      have hforks := h.forks hs hkeep
      rw [survivor_libcFgets hcs hfgets] at hforks
      exact hforks

theorem branches_of_branching {t : MultiStackInfo} (h : Branching t.children) :
    Branches (cleanupStackTrace t) :=
  fun n hn hkeep => ((trimmed_cleanupStackTrace h n hn).2 hkeep).2

/-! ## Where nothing is united it is necessary -/

theorem Apart.sub (h : Apart cs) {s : MultiStackInfo} (hs : s ∈ cs.filterMap survivor) :
    Apart s.children := by
  cases h with
  | intro _ sub => exact sub s hs

/-- The surviving entries are cleaned one by one. -/
theorem cleanupStackTrace_children_of_apart {t : MultiStackInfo} (h : Apart t.children) :
    (cleanupStackTrace t).children = (t.children.filterMap survivor).map cleanupStackTrace := by
  obtain ⟨htwins, -⟩ := h
  rw [cleanupStackTrace_children, pass_of_noTwins cleanupStackTrace_stack htwins]

theorem fgetsLeaf_of_apart {t : MultiStackInfo} (h : Apart t.children) :
    ∀ n ∈ preorder (cleanupStackTrace t).children, FgetsLeaf n := by
  induction t using height_induction with
  | step t ih =>
    rw [cleanupStackTrace_children_of_apart h]
    refine forall_preorder.mpr fun d hd => ?_
    obtain ⟨s, hs, rfl⟩ := List.mem_map.mp hd
    refine ⟨fun hfgets => ?_, ih s (height_of_mem_survivors hs) (h.sub hs)⟩
    obtain ⟨c, -, hcs⟩ := List.mem_filterMap.mp hs
    rw [cleanupStackTrace_stack] at hfgets
    rw [cleanupStackTrace_children, survivor_libcFgets hcs hfgets]
    rfl

theorem branching_of_branches {t : MultiStackInfo} (hapart : Apart t.children)
    (h : Branches (cleanupStackTrace t)) : Branching t.children := by
  induction t using height_induction with
  | step t ih =>
    unfold Branches at h
    rw [cleanupStackTrace_children_of_apart hapart, forall_preorder] at h
    have hs : ∀ s ∈ t.children.filterMap survivor, (s.stack.keep = false →
        2 ≤ (cleanupStackTrace s).children.length) ∧ Branches (cleanupStackTrace s) := by
      intro s hs
      have hclean := h (cleanupStackTrace s) (List.mem_map_of_mem hs)
      rwa [cleanupStackTrace_stack] at hclean
    refine .intro (fun s hmem hkeep => ?_) fun s hmem => ?_
    · have hlen := (hs s hmem).1 hkeep
      rw [cleanupStackTrace_children_of_apart (hapart.sub hmem), List.length_map] at hlen
      obtain ⟨htwins, -⟩ := hapart.sub hmem
      exact forks_of_noTwins htwins hlen
    · exact ih s (height_of_mem_survivors hmem) (hapart.sub hmem) (hs s hmem).2

end MultiStackInfo

/-! ## Runs -/

namespace Stored

open MultiStackInfo (Trimmed FgetsLeaf Branching NoTwins Hereditarily preorder survivor)

variable {assign rec : Stored → Limited Stored}

/-- The loop is not given up where no two of the surviving entries are united: it cleans them
    one by one, and `hassign` is about those that are replaced before that. -/
theorem cleanupLoop_ne_undefined {P : Stored → Prop}
    (hroot : ∀ t t', rec t = .ok t' → t'.stack = t.stack)
    (hassign : ∀ it, P it → examine it = .replace it →
      ∃ it', assign it = .ok it' ∧ P it' ∧ survivor it'.value = survivor it.value)
    (hrec : ∀ it it', P it → examine it = .clean it' → rec it' ≠ .error .undefined)
    {rounds : ℕ} {done todo : List Stored} (htodo : ∀ it ∈ todo, P it)
    (htwins : NoTwins (values done ++ (values todo).filterMap survivor)) :
    cleanupLoop assign rec rounds done todo ≠ .error .undefined := by
  induction rounds generalizing done todo with
  | zero => nofun
  | succ rounds ih =>
    cases todo with
    | nil => nofun
    | cons it todo =>
      obtain ⟨hit, hrest⟩ := List.forall_mem_cons.mp htodo
      rw [cleanupLoop]
      rw [values_cons] at htwins
      cases hr : examine it with
      | erase =>
        have hnone : survivor it.value = none := by
          rw [MultiStackInfo.survivor_eq, examine_eq_erase hr]
        rw [List.filterMap_cons_none hnone] at htwins
        exact ih hrest htwins
      | replace it' =>
        obtain ⟨rfl, -⟩ := examine_eq_replace hr
        obtain ⟨x, hx, hxP, hsame⟩ := hassign it' hit hr
        rw [List.filterMap_cons, ← hsame, ← List.filterMap_cons, ← values_cons] at htwins
        simp only [hx]
        exact ih (List.forall_mem_cons.mpr ⟨hxP, hrest⟩) htwins
      | clean it' =>
        have hsurvive := survivor_of_clean hr
        rw [List.filterMap_cons_some hsurvive] at htwins
        cases hx : rec it' with
        | error e =>
          intro h
          simp only [hx] at h
          obtain rfl : e = .undefined := Except.error.inj h
          exact hrec it it' hit hr hx
        | ok x =>
          have hstack := hroot it' x hx
          obtain ⟨hdone, -, hapart⟩ := List.pairwise_append.mp htwins
          have hnone : ¬ (done.any fun it2 => x.stack.opEq it2.stack) = true := by
            rw [← any_values, Bool.not_eq_true, List.any_eq_false]
            intro d hd
            rw [StackInfo.opEq_comm, hstack, ← value_stack it', hapart d hd it'.value (by simp)]
            simp
          simp only [hx]
          show (if done.any fun it2 => x.stack.opEq it2.stack then _ else _) ≠ _
          rw [if_neg hnone]
          refine ih hrest ?_
          rw [MultiStackInfo.noTwins_iff_frames] at htwins ⊢
          simpa [MultiStackInfo.frames, hstack] using htwins

theorem root_cleanupWith {fuel : ℕ} {s s' : Stored} (h : cleanupWith assign fuel s = .ok s') :
    s'.stack = s.stack := by
  obtain ⟨n, children, -, -, rfl⟩ := cleanupWith_eq_ok h
  rfl

theorem cleanupWith_ne_undefined {s : Stored}
    (h : ∀ fuel, cleanupLoop assign (cleanupWith assign fuel) fuel [] s.children ≠
      .error .undefined) (fuel : ℕ) : cleanupWith assign fuel s ≠ .error .undefined := by
  cases fuel with
  | zero => nofun
  | succ fuel => exact Limited.bind_ne (h fuel) fun _ => nofun

theorem height_of_examine_replace {it child : MultiStackInfo}
    (h : MultiStackInfo.examine it = .replace child) : child.height < it.height :=
  MultiStackInfo.height_lt_of_mem (by simp [(MultiStackInfo.examine_eq_replace h).2.2.2])

/-- Nothing is replaced where there is nothing to clean. -/
theorem wellReplaced_of_trimmed {s : Stored}
    (h : ∀ n ∈ preorder s.value.children, Trimmed n ∧ FgetsLeaf n)
    (htwins : Hereditarily NoTwins s.value.children) : s.WellReplaced := by
  induction hv : s.value using MultiStackInfo.induction generalizing s with
  | node t ih =>
    subst hv
    obtain ⟨hroot, hsub⟩ := MultiStackInfo.hereditarily_iff.mp htwins
    rw [MultiStackInfo.forall_preorder] at h
    have hself : ∀ c ∈ s.value.children, survivor c = some c := fun c hc =>
      MultiStackInfo.survivor_eq_self (h c hc).1.1 (h c hc).1.2
    refine cleanupWith_ne_undefined fun fuel => cleanupLoop_ne_undefined
      (P := fun it => it.value ∈ s.value.children) (fun _ _ => root_cleanupWith) ?_ ?_ ?_ ?_
    · intro it hit hr
      obtain ⟨-, c, hc, hv⟩ := examine_eq_replace hr
      have hchild : survivor it.value = survivor c.value := by
        rw [MultiStackInfo.survivor_eq it.value, hv]
      -- the entry survives, and would be lower than it is
      have hle := MultiStackInfo.height_survivor (hchild.symm.trans (hself it.value hit))
      have hlt := height_of_examine_replace hv
      omega
    · intro it it' hit hr
      have hsame : it'.value = it.value :=
        Option.some.inj ((survivor_of_clean hr).symm.trans (hself it.value hit))
      rw [← hsame] at hit
      exact ih it'.value hit (h _ hit).2 (hsub _ hit) rfl fuel
    · intro it hit
      rw [value_children, values_eq_map]
      exact List.mem_map_of_mem hit
    · rw [values_nil, List.nil_append, ← value_children]
      have hsame : s.value.children.filterMap survivor = s.value.children := by
        conv_rhs => rw [← List.filterMap_some (l := s.value.children)]
        exact List.filterMap_congr hself
      rwa [hsame]

/-- No vector has room behind an only child. Trees are so when `add` or `unpack` has made
    them, and copies are. -/
inductive Snug : Stored → Prop
  | intro {it : Stored} (only : it.children.length = 1 → it.room = 0)
      (sub : ∀ c ∈ it.children, Snug c) : Snug it

theorem Snug.sub {it c : Stored} (h : Snug it) (hc : c ∈ it.children) : Snug c := by
  cases h with
  | intro _ sub => exact sub c hc

theorem snug_copy (t : Stored) : Snug t.copy := by
  induction t using Stored.induction with
  | node t ih =>
    obtain ⟨N, stack, room, children⟩ := t
    refine .intro (fun _ => rfl) fun c hc => ?_
    have hc : c ∈ copies children := hc
    rw [copies_eq_map] at hc
    obtain ⟨d, hd, rfl⟩ := List.mem_map.mp hc
    exact ih d hd

/-- An only child is replaceable, and the entry is snug again. -/
theorem Snug.promote {it c : Stored} (h : Snug it) (hc : it.children = [c]) :
    it.replaceable = true ∧ ∀ it', promote it = .ok it' → Snug it' := by
  induction it using Stored.induction generalizing c with
  | node it ih =>
    obtain ⟨N, stack, room, children⟩ := it
    obtain rfl : children = [c] := hc
    obtain ⟨only, sub⟩ := h
    obtain rfl : room = 0 := only rfl
    have hcs : Snug c := sub c (by simp)
    rw [replaceable_iff, Stored.promote]
    rcases hsize : c.children with _ | ⟨d, _ | ⟨e, ds⟩⟩
    · refine ⟨⟨c, rfl, .inl hsize⟩, fun it' hit' => ?_⟩
      obtain rfl := Except.ok.inj hit'
      exact .intro (fun hone => absurd hone (by simp)) (by simp)
    · obtain ⟨hrep, hpromote⟩ := ih c (by simp) hcs hsize
      refine ⟨⟨c, rfl, .inr (.inr ⟨by rw [hsize]; rfl, hrep⟩)⟩, fun it' hit' => ?_⟩
      rw [if_neg (by simp), if_neg (by simp)] at hit'
      obtain ⟨first, hfirst, hit'⟩ := Limited.ok_of_bind hit'
      rw [if_pos List.length_singleton] at hit'
      obtain rfl := Except.ok.inj hit'
      exact .intro (fun _ => rfl) (List.forall_mem_singleton.mpr (hpromote first hfirst))
    · refine ⟨⟨c, rfl, .inr (.inl (by rw [hsize]; simp [capacity]))⟩, fun it' hit' => ?_⟩
      rw [if_neg (by simp), if_pos (by simp)] at hit'
      obtain rfl := Except.ok.inj hit'
      refine .intro (fun _ => rfl) fun b hb => ?_
      have hb : b ∈ copies (d :: e :: ds) := hb
      rw [copies_eq_map] at hb
      obtain ⟨b, -, rfl⟩ := List.mem_map.mp hb
      exact snug_copy b

/-- An entry that is cleaned is as it was, or has no children. -/
theorem Snug.of_clean {it it' : Stored} (h : Snug it) (hr : examine it = .clean it') :
    Snug it' := by
  have hcase : it' = it ∨ it'.children = [] := by
    obtain ⟨N, stack, room, _ | ⟨c, _ | ⟨d, cs⟩⟩⟩ := it <;> unfold examine at hr <;>
      by_cases h1 : stack.selfTrace = true <;> by_cases h2 : stack.libcFgets = true <;>
        by_cases h3 : stack.keep = true <;> simp_all [clearChildren] <;> subst hr <;> simp
  rcases hcase with rfl | hnil
  · exact h
  · exact .intro (by simp [hnil]) (by simp [hnil])

/-- Where no entries are united, only those are replaced that have come from the tree so. -/
theorem wellReplaced_of_apart {s : Stored} (h : Snug s)
    (hapart : MultiStackInfo.Apart s.value.children) : s.WellReplaced := by
  induction hv : s.value using MultiStackInfo.height_induction generalizing s with
  | step t ih =>
    subst hv
    have hroot := hapart
    obtain ⟨htwins, -⟩ := hroot
    refine cleanupWith_ne_undefined fun fuel => cleanupLoop_ne_undefined
      (P := fun it => Snug it ∧ ∀ x, survivor it.value = some x →
        x.height < s.value.height ∧ MultiStackInfo.Apart x.children)
      (fun _ _ => root_cleanupWith) ?_ ?_ ?_ ?_
    · rintro it ⟨hsnug, hsurvivor⟩ hr
      obtain ⟨-, c, hc, hv⟩ := examine_eq_replace hr
      obtain ⟨hrep, hpromote⟩ := hsnug.promote hc
      obtain ⟨c', it', hc', hit', hvalue⟩ := promote_of_replaceable hrep
      obtain rfl : c' = c := by simpa [hc] using hc'.symm
      have hsame : survivor it'.value = survivor it.value := by
        rw [hvalue, MultiStackInfo.survivor_eq it.value, hv]
      exact ⟨it', (if_pos hrep).trans hit', ⟨hpromote it' hit', hsame ▸ hsurvivor⟩, hsame⟩
    · rintro it it' ⟨hsnug, hsurvivor⟩ hr
      obtain ⟨hlt, hsub⟩ := hsurvivor it'.value (survivor_of_clean hr)
      exact ih it'.value hlt (hsnug.of_clean hr) hsub rfl fuel
    · intro c hc
      have hmem : c.value ∈ s.value.children := by
        rw [value_children, values_eq_map]
        exact List.mem_map_of_mem hc
      refine ⟨h.sub hc, fun x hx => ?_⟩
      have hx := List.mem_filterMap.mpr ⟨c.value, hmem, hx⟩
      exact ⟨MultiStackInfo.height_of_mem_survivors hx, hapart.sub hx⟩
    · rw [values_nil, List.nil_append, ← value_children]
      exact htwins

/-! ## Main result -/

open MultiStackInfo (Branches)

/-- What the call is to achieve: every unwanted entry that is left has two children, and a
    second call changes nothing. -/
def Removes (s : Stored) : Prop :=
  ∃ s', s.Returns s' ∧ Branches s'.value ∧ ∃ s'', s'.Returns s'' ∧ s''.value = s'.value

theorem removes_of_branching {s : Stored} (h : s.WellReplaced) (hb : Branching s.value.children)
    (hfgets : ∀ n ∈ preorder s.value.cleanupStackTrace.children, FgetsLeaf n) : s.Removes := by
  obtain ⟨s', hs', hvalue⟩ := returns_of_wellReplaced h
  have htrimmed : ∀ n ∈ preorder s'.value.children, Trimmed n ∧ FgetsLeaf n := by
    rw [hvalue]
    exact fun n hn => ⟨MultiStackInfo.trimmed_cleanupStackTrace hb n hn, hfgets n hn⟩
  have htwins : Hereditarily NoTwins s'.value.children := by
    rw [hvalue]
    exact MultiStackInfo.hereditarily_noTwins_cleanupStackTrace s.value
  refine ⟨s', hs', hvalue ▸ MultiStackInfo.branches_of_branching hb, ?_⟩
  obtain ⟨s'', hs'', hagain⟩ := returns_of_wellReplaced (wellReplaced_of_trimmed htrimmed htwins)
  exact ⟨s'', hs'', hagain.trans (MultiStackInfo.cleanupStackTrace_of_trimmed htrimmed htwins)⟩

/-- If every unwanted entry that survives has surviving children in two frames, every unwanted
    entry that is left has two children; and a second call changes nothing, if `fgets` is not
    taken for another function. Where no entries are united the condition is exact. Throughout,
    every entry that is replaced is to be replaceable at that time. -/
theorem removes_iff_branching {s : Stored} (h : s.WellReplaced) :
    (Branching s.value.children → (∃ s', s.Returns s' ∧ Branches s'.value) ∧
      (StackInfo.FgetsAgree {f | ∃ n ∈ preorder s.value.children, n.stack = f} → s.Removes)) ∧
    (MultiStackInfo.Apart s.value.children → (s.Removes ↔ Branching s.value.children)) := by
  obtain ⟨s', hs', hvalue⟩ := returns_of_wellReplaced h
  refine ⟨fun hb => ⟨⟨s', hs', hvalue ▸ MultiStackInfo.branches_of_branching hb⟩, fun hF => ?_⟩,
    fun hapart => ⟨fun hremoves => ?_, fun hb => ?_⟩⟩
  · exact removes_of_branching h hb
      (MultiStackInfo.fgetsLeaf_cleanupStackTrace hF fun n hn => ⟨n, hn, rfl⟩)
  · obtain ⟨t, ht, hbranches, -⟩ := hremoves
    obtain ⟨n, hn⟩ := ht
    obtain rfl := hs'.eq_of_run (hn n le_rfl)
    rw [hvalue] at hbranches
    exact MultiStackInfo.branching_of_branches hapart hbranches
  · exact removes_of_branching h hb (MultiStackInfo.fgetsLeaf_of_apart hapart)

/-- An unwanted entry with two wanted children stays, and one with a single child is
    replaced. -/
theorem removes_iff_branching_two :
    let start :=
      StackInfo.ofFields 0x7f1000 0x1000 (ascii "libc.so.6") (ascii "__libc_start_main") []
    let main := StackInfo.ofFields 0x401000 0x1000 (ascii "a.out") (ascii "main") []
    let poll := StackInfo.ofFields 0x402000 0x2000 (ascii "a.out") (ascii "poll") []
    let read := StackInfo.ofFields 0x403000 0x3000 (ascii "a.out") (ascii "read") []
    Removes ⟨3, .init, 0, [⟨2, start, 0, [⟨1, main, 0, []⟩, ⟨1, poll, 0, []⟩]⟩,
      ⟨1, start, 0, [⟨1, read, 0, []⟩]⟩]⟩ := by
  intro start main poll read
  have hunwanted : start.keep = false ∧ start.selfTrace = false ∧ start.libcFgets = false := by
    decide
  have hwanted : ∀ f ∈ [main, poll, read],
      f.keep = true ∧ f.selfTrace = false ∧ f.libcFgets = false := by decide
  have hleaf : ∀ N, ∀ f ∈ [main, poll, read], survivor ⟨N, f, []⟩ = some ⟨N, f, []⟩ := by
    intro N f hf
    obtain ⟨hkeep, hself, -⟩ := hwanted f hf
    simp [survivor, hkeep, hself]
  have htwo : survivor ⟨2, start, [⟨1, main, []⟩, ⟨1, poll, []⟩]⟩ =
      some ⟨2, start, [⟨1, main, []⟩, ⟨1, poll, []⟩]⟩ := by
    simp [survivor, hunwanted]
  have hone : survivor ⟨1, start, [⟨1, read, []⟩]⟩ = some ⟨1, read, []⟩ := by
    rw [survivor]
    simp [hunwanted, hleaf]
  have hnil : Branching [] := .intro (by simp) (by simp)
  have hbelow : Branching [⟨1, main, []⟩, ⟨1, poll, []⟩] := by
    refine .intro ?_ ?_ <;> simp only [List.filterMap_cons_some (hleaf 1 main (by simp)),
      List.filterMap_cons_some (hleaf 1 poll (by simp)), List.filterMap_nil, List.forall_mem_cons]
    · simp [(hwanted main (by simp)).1, (hwanted poll (by simp)).1]
    · exact ⟨hnil, hnil, by simp⟩
  have hbranching : Branching [⟨2, start, [⟨1, main, []⟩, ⟨1, poll, []⟩]⟩,
      ⟨1, start, [⟨1, read, []⟩]⟩] := by
    refine .intro ?_ ?_ <;> simp only [List.filterMap_cons_some htwo,
      List.filterMap_cons_some hone, List.filterMap_nil, List.forall_mem_cons]
    · refine ⟨fun _ => ?_, by simp [(hwanted read (by simp)).1], by simp⟩
      rw [List.filterMap_cons_some (hleaf 1 main (by simp)),
        List.filterMap_cons_some (hleaf 1 poll (by simp))]
      exact ⟨⟨1, poll, []⟩, by simp, by decide⟩
    · exact ⟨hbelow, hnil, by simp⟩
  let s : Stored := ⟨3, .init, 0, [⟨2, start, 0, [⟨1, main, 0, []⟩, ⟨1, poll, 0, []⟩]⟩,
    ⟨1, start, 0, [⟨1, read, 0, []⟩]⟩]⟩
  obtain ⟨s', hrun⟩ := Limited.isOk_iff.mp
    (show (cleanupWith promoteReplaceable 6 s).isOk = true by decide +kernel)
  have hagree : ∀ a ∈ preorder s.value.children, ∀ b ∈ preorder s.value.children,
      a.stack.opEq b.stack = true → a.stack.libcFgets = b.stack.libcFgets := by decide +kernel
  refine ((removes_iff_branching (wellReplaced_of_run hrun)).1 hbranching).2 ?_
  rintro f ⟨a, ha, rfl⟩ g ⟨b, hb, rfl⟩
  exact hagree a ha b hb

/-- Two unwanted leaves below an unwanted entry are erased after their number has been looked
    at. -/
theorem leaves_unwanted : ¬ ∀ s : Stored, s.Removes := by
  intro h
  let start := StackInfo.ofFields 0x7f1000 0x1000 (ascii "libc.so.6") (ascii "__libc_start_main") []
  let x := StackInfo.ofFields 0x7f2000 0x2000 (ascii "libc.so.6") [] []
  let y := StackInfo.ofFields 0x7f3000 0x3000 (ascii "libc.so.6") [] []
  let s : Stored := ⟨2, .init, 0, [⟨2, start, 0, [⟨1, x, 0, []⟩, ⟨1, y, 0, []⟩]⟩]⟩
  obtain ⟨t, hrun, ht⟩ := Limited.exists_of_any
    (show ((s.cleanupStackTrace 6).toOption.any fun t : Stored => decide (¬ ∀ n ∈
      preorder t.value.children, n.stack.keep = false → 2 ≤ n.children.length)) = true by
        decide +kernel)
  obtain ⟨s', hs', hbranches, -⟩ := h s
  rw [hs'.eq_of_run hrun] at ht
  exact of_decide_eq_true ht hbranches

end Stored

end StackTrace
