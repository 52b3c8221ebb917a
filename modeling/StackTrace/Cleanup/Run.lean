import StackTrace.Cleanup.Basic
import StackTrace.Cleanup.Stored

/-!
# `cleanupStackTrace` as it runs

`StackTrace.cpp`, lines 2107–2161, on a tree as it lies in memory and for a limited number
of steps: each call and each round of a loop takes one. Line 2138 is `promote`, which may
leave something else than the only child, or look for an object where there is none.

* `ends_cleanupStackTrace`: with steps enough every run ends, by a return or where line
  2138 is undefined.
* `returns_of_wellReplaced`: if every entry that line 2138 replaces is `replaceable` at that
  time, the run returns, and what it leaves is what `MultiStackInfo.cleanupStackTrace` says,
  in which an entry is replaced by a copy of its child.
* `framesIn_cleanupStackTrace`: in any case no frames are brought in.
-/

namespace StackTrace

namespace Stored

open Filter

/-! ## Model -/

/-- What one round of the loop does with an entry. -/
inductive Round where
  | erase
  | replace (it : Stored)
  | clean (it : Stored)

/-- The first half of a round (lines 2112–2141). -/
def examine (it : Stored) : Round :=
  if it.stack.selfTrace then .erase
  else
    let it := if it.stack.libcFgets then it.clearChildren else it
    if !it.stack.keep then
      match it.children with
      | [] => .erase
      | [_] => .replace it
      | _ => .clean it
    else .clean it

/-- `it2` united with `it` (lines 2149–2151). -/
def unite (it it2 : Stored) : Stored := it.children.foldl pushBack { it2 with N := it2.N + it.N }

/-- The loop over `stack.children` (lines 2111–2160) in fewer than `rounds` rounds: `done` are
    the children before `it`, `it :: todo` the others; `promote` is the assignment of line
    2138, `rec` the recursive call. -/
def cleanupLoop (promote rec : Stored → Limited Stored) :
    (rounds : ℕ) → (done todo : List Stored) → Limited (List Stored)
  | 0, _, _ => .error .steps
  | _ + 1, done, [] => .ok done
  | rounds + 1, done, it :: todo =>
    match examine it with
    | .erase => cleanupLoop promote rec rounds done todo
    | .replace it => do
      let it ← promote it
      cleanupLoop promote rec rounds done (it :: todo)
    | .clean it => do
      let it ← rec it
      if done.any fun it2 => it.stack.opEq it2.stack then do
        let done ← done.mapM fun it2 =>
          if it.stack.opEq it2.stack then rec (unite it it2) else .ok it2
        cleanupLoop promote rec rounds done todo
      else cleanupLoop promote rec rounds (done ++ [it]) todo

/-- `cleanupStackTrace` with an assignment `promote`, in at most `fuel` steps on each level. The
    vector of the children keeps its places. -/
def cleanupWith (promote : Stored → Limited Stored) : (fuel : ℕ) → Stored → Limited Stored
  | 0, _ => .error .steps
  | fuel + 1, stack => do
    let children ← cleanupLoop promote (cleanupWith promote fuel) fuel [] stack.children
    .ok { stack with room := stack.capacity - children.length, children := children }

/-- `cleanupStackTrace` (lines 2107–2161), in at most `fuel` steps on each level. -/
def cleanupStackTrace (fuel : ℕ) (stack : Stored) : Limited Stored := cleanupWith promote fuel stack

/-- With steps enough `cleanupStackTrace` turns `s` into `s'`. -/
def Returns (s s' : Stored) : Prop := ∃ n, ∀ fuel, n ≤ fuel → s.cleanupStackTrace fuel = .ok s'

/-- Line 2138, where the run is given up at an entry that is not `replaceable`. -/
def promoteReplaceable (it : Stored) : Limited Stored :=
  if it.replaceable then promote it else .error .undefined

/-- Every entry that is replaced while the tree is cleaned is `replaceable` at that time. -/
def WellReplaced (s : Stored) : Prop :=
  ∀ fuel, cleanupWith promoteReplaceable fuel s ≠ .error .undefined

/-! ## One round -/

@[simp] theorem value_unite (it it2 : Stored) :
    (unite it it2).value = MultiStackInfo.unite it.value it2.value := by
  have hfoldl : ∀ (cs : List Stored) (t : Stored), (cs.foldl pushBack t).value =
      { t.value with children := t.value.children ++ values cs } := by
    intro cs
    induction cs with
    | nil => exact fun t => by rw [value_eq]; simp
    | cons c cs ih => simp [ih]
  rw [unite, hfoldl, value_eq it2, value_eq it]
  rfl

@[simp] theorem unite_stack (it it2 : Stored) : (unite it it2).stack = it2.stack := by
  rw [← value_stack, value_unite, ← value_stack it2]
  rfl

theorem examine_eq_erase {it : Stored} (h : examine it = .erase) :
    MultiStackInfo.examine it.value = .erase := by
  obtain ⟨N, stack, room, _ | ⟨c, _ | ⟨d, cs⟩⟩⟩ := it <;> unfold examine at h <;>
    by_cases h1 : stack.selfTrace = true <;> by_cases h2 : stack.libcFgets = true <;>
      by_cases h3 : stack.keep = true <;>
        simp_all [MultiStackInfo.examine, value, clearChildren]

/-- An entry that is replaced is as it was found. -/
theorem examine_eq_replace {it it' : Stored} (h : examine it = .replace it') :
    it' = it ∧ ∃ c, it.children = [c] ∧ MultiStackInfo.examine it.value = .replace c.value := by
  obtain ⟨N, stack, room, _ | ⟨c, _ | ⟨d, cs⟩⟩⟩ := it <;> unfold examine at h <;>
    by_cases h1 : stack.selfTrace = true <;> by_cases h2 : stack.libcFgets = true <;>
      by_cases h3 : stack.keep = true <;>
        simp_all [MultiStackInfo.examine, value, clearChildren]

theorem examine_eq_clean {it it' : Stored} (h : examine it = .clean it') :
    MultiStackInfo.examine it.value = .clean it'.value := by
  obtain ⟨N, stack, room, _ | ⟨c, _ | ⟨d, cs⟩⟩⟩ := it <;> unfold examine at h <;>
    by_cases h1 : stack.selfTrace = true <;> by_cases h2 : stack.libcFgets = true <;>
      by_cases h3 : stack.keep = true <;>
        simp_all [MultiStackInfo.examine, value, clearChildren] <;> subst h <;> simp [value]

/-! ## Invariants of a run -/

theorem cleanupWith_eq_ok {assign : Stored → Limited Stored} {fuel : ℕ} {s s' : Stored}
    (h : cleanupWith assign fuel s = .ok s') : ∃ n children, fuel = n + 1 ∧
      cleanupLoop assign (cleanupWith assign n) n [] s.children = .ok children ∧
      s' = { s with room := s.capacity - children.length, children := children } := by
  cases fuel with
  | zero => cases h
  | succ n =>
    obtain ⟨children, hchildren, h⟩ := Limited.ok_of_bind h
    exact ⟨n, children, rfl, hchildren, (Except.ok.inj h).symm⟩

variable {assign assign' rec rec' : Stored → Limited Stored} {fuel : ℕ} {s s' : Stored}

/-- What the steps of a round preserve holds of all entries after the loop. -/
theorem forall_cleanupLoop {P : Stored → Prop}
    (hassign : ∀ it it', P it → assign it = .ok it' → P it')
    (hclean : ∀ it it', P it → examine it = .clean it' → P it')
    (hrec : ∀ t t', P t → rec t = .ok t' → P t')
    (hunite : ∀ it it2, P it → P it2 → P (unite it it2)) {rounds : ℕ} {done todo cs : List Stored}
    (h : cleanupLoop assign rec rounds done todo = .ok cs) (hdone : ∀ d ∈ done, P d)
    (htodo : ∀ t ∈ todo, P t) : ∀ c ∈ cs, P c := by
  induction rounds generalizing done todo with
  | zero => cases h
  | succ rounds ih =>
    cases todo with
    | nil =>
      obtain rfl := Except.ok.inj h
      exact hdone
    | cons it todo =>
      obtain ⟨hit, hrest⟩ := List.forall_mem_cons.mp htodo
      rw [cleanupLoop] at h
      cases hr : examine it with
      | erase =>
        rw [hr] at h
        exact ih h hdone hrest
      | replace it' =>
        obtain ⟨rfl, -⟩ := examine_eq_replace hr
        rw [hr] at h
        obtain ⟨child, hchild, h⟩ := Limited.ok_of_bind h
        exact ih h hdone (List.forall_mem_cons.mpr ⟨hassign it' child hit hchild, hrest⟩)
      | clean it' =>
        rw [hr] at h
        obtain ⟨x, hx, h⟩ := Limited.ok_of_bind h
        have hxP := hrec it' x (hclean it it' hit hr) hx
        split_ifs at h with hany
        · obtain ⟨done', hdone', h⟩ := Limited.ok_of_bind h
          refine ih h (Limited.forall_of_mapM (fun d d' hd hd' => ?_) hdone hdone') hrest
          split_ifs at hd'
          · exact hrec _ d' (hunite x d hxP hd) hd'
          · exact Except.ok.inj hd' ▸ hd
        · exact ih h (List.forall_mem_append.mpr ⟨hdone, by simpa using hxP⟩) hrest

/-- The root keeps its count and its frame. -/
theorem root_cleanupStackTrace (h : s.cleanupStackTrace fuel = .ok s') :
    s'.N = s.N ∧ s'.stack = s.stack := by
  obtain ⟨n, children, -, -, rfl⟩ := cleanupWith_eq_ok h
  exact ⟨rfl, rfl⟩

theorem leaf_cleanupStackTrace (h : s.cleanupStackTrace fuel = .ok s') (hs : s.children = []) :
    s'.children = [] := by
  obtain ⟨n, children, -, hchildren, rfl⟩ := cleanupWith_eq_ok h
  rw [hs] at hchildren
  cases n with
  | zero => cases hchildren
  | succ n => exact (Except.ok.inj hchildren).symm

variable {F : Set StackInfo}

/-- The frames of the entry and of all below it are in `F`. -/
def FramesIn (F : Set StackInfo) (it : Stored) : Prop :=
  it.stack ∈ F ∧ MultiStackInfo.FramesIn F (values it.children)

theorem framesIn_iff_value {it : Stored} :
    FramesIn F it ↔ it.value.stack ∈ F ∧ MultiStackInfo.FramesIn F it.value.children := by
  rw [value_stack, value_children, FramesIn]

theorem forall_framesIn {cs : List Stored} :
    (∀ c ∈ cs, FramesIn F c) ↔ MultiStackInfo.FramesIn F (values cs) := by
  rw [MultiStackInfo.framesIn_iff, values_eq_map, List.forall_mem_map]
  exact forall₂_congr fun c _ => framesIn_iff_value

/-- An entry that is cleaned is what survives of it. -/
theorem survivor_of_clean {it it' : Stored} (h : examine it = .clean it') :
    MultiStackInfo.survivor it.value = some it'.value := by
  rw [MultiStackInfo.survivor_eq, examine_eq_clean h]

/-- Whatever line 2138 does, a run brings no frames in. -/
theorem framesIn_cleanupStackTrace (h : s.cleanupStackTrace fuel = .ok s') (hs : FramesIn F s) :
    FramesIn F s' := by
  induction fuel generalizing s s' with
  | zero => cases h
  | succ fuel ih =>
    obtain ⟨n, children, hn, hchildren, rfl⟩ := cleanupWith_eq_ok h
    obtain rfl := Nat.succ.inj hn
    refine ⟨hs.1, forall_framesIn.mp (forall_cleanupLoop (P := FramesIn F) ?_ ?_
      (fun t t' ht h => ih h ht) ?_ hchildren (by simp) (forall_framesIn.mpr hs.2))⟩
    · exact fun it it' hit h => framesIn_promote h hit.2
    · intro it it' hit hr
      rw [framesIn_iff_value] at hit ⊢
      exact MultiStackInfo.survivor_framesIn (survivor_of_clean hr) hit
    · intro it it2 hit hit2
      rw [framesIn_iff_value] at hit hit2 ⊢
      rw [value_unite]
      exact MultiStackInfo.framesIn_unite hit hit2

/-- A cleaned tree is not higher than before, if line 2138 leaves lower entries. -/
theorem height_cleanupWith
    (hassign : ∀ it it', assign it = .ok it' → it'.value.height < it.value.height)
    (h : cleanupWith assign fuel s = .ok s') : s'.value.height ≤ s.value.height := by
  induction fuel generalizing s s' with
  | zero => cases h
  | succ fuel ih =>
    obtain ⟨n, children, hn, hchildren, rfl⟩ := cleanupWith_eq_ok h
    obtain rfl := Nat.succ.inj hn
    have hall : ∀ c ∈ children, c.value.height < s.value.height := by
      refine forall_cleanupLoop (fun it it' hit h => (hassign it it' h).trans hit) ?_
        (fun t t' ht h => (ih h).trans_lt ht) ?_ hchildren (by simp) fun c hc => ?_
      · exact fun it it' hit hr =>
          (MultiStackInfo.height_survivor (survivor_of_clean hr)).trans_lt hit
      · intro it it2 hit hit2
        rw [value_unite]
        have hle : (MultiStackInfo.unite it.value it2.value).height ≤ s.value.height - 1 :=
          MultiStackInfo.height_unite (by omega) (by omega)
        omega
      · refine MultiStackInfo.height_lt_of_mem ?_
        rw [value_children, values_eq_map]
        exact List.mem_map_of_mem hc
    refine MultiStackInfo.height_le.mpr fun c hc => ?_
    rw [value_children, values_eq_map] at hc
    obtain ⟨d, hd, rfl⟩ := List.mem_map.mp hc
    exact hall d hd

/-! ## More steps, and fewer stops -/

variable {K : Stop → Prop}

theorem agrees_cleanupLoop (hK : ¬ K .steps) (hassign : ∀ it, (assign it).Agrees K (assign' it))
    (hrec : ∀ t, (rec t).Agrees K (rec' t)) {rounds rounds' : ℕ} (h : rounds ≤ rounds')
    (done todo : List Stored) :
    Limited.Agrees K (cleanupLoop assign rec rounds done todo)
      (cleanupLoop assign' rec' rounds' done todo) := by
  induction rounds generalizing rounds' done todo with
  | zero => exact .of_error hK _
  | succ rounds ih =>
    obtain ⟨rounds', rfl⟩ := Nat.exists_eq_succ_of_ne_zero (Nat.ne_zero_of_lt h)
    have hle : rounds ≤ rounds' := by omega
    cases todo with
    | nil => exact .refl K _
    | cons it todo =>
      rw [cleanupLoop, cleanupLoop]
      cases examine it with
      | erase => exact ih hle done todo
      | replace it => exact (hassign it).bind fun it => ih hle done (it :: todo)
      | clean it =>
        refine (hrec it).bind fun x => ?_
        split_ifs
        · refine Limited.Agrees.bind (.mapM fun d _ => ?_) fun done => ih hle done todo
          split_ifs
          · exact hrec _
          · exact .refl K _
        · exact ih hle (done ++ [x]) todo

theorem agrees_cleanupWith (hK : ¬ K .steps) (hassign : ∀ it, (assign it).Agrees K (assign' it))
    {fuel fuel' : ℕ} (h : fuel ≤ fuel') (s : Stored) :
    (cleanupWith assign fuel s).Agrees K (cleanupWith assign' fuel' s) := by
  induction fuel generalizing fuel' s with
  | zero => exact .of_error hK _
  | succ fuel ih =>
    obtain ⟨fuel', rfl⟩ := Nat.exists_eq_succ_of_ne_zero (Nat.ne_zero_of_lt h)
    have hle : fuel ≤ fuel' := by omega
    exact (agrees_cleanupLoop hK hassign (fun t => ih hle t) hle [] s.children).bind
      fun _ => .refl K _

/-- With more steps a run that has come to an end, in one way or the other, is the same. -/
theorem cleanupWith_mono {fuel fuel' : ℕ} (h : fuel ≤ fuel') (s : Stored) :
    (cleanupWith assign fuel s).Agrees (· = .undefined) (cleanupWith assign fuel' s) :=
  agrees_cleanupWith (by simp) (fun _ => .refl _ _) h s

theorem promote_eq_of_promoteReplaceable {it it' : Stored} (h : promoteReplaceable it = .ok it') :
    it.replaceable = true ∧ promote it = .ok it' := by
  unfold promoteReplaceable at h
  split_ifs at h with hrep
  exact ⟨hrep, h⟩

/-- A run that is not given up is the run of the code. -/
theorem cleanupStackTrace_of_replaceable (h : cleanupWith promoteReplaceable fuel s = .ok s') :
    s.cleanupStackTrace fuel = .ok s' :=
  (agrees_cleanupWith (K := fun _ => False) id (fun _ =>
    ⟨fun _ hit' => (promote_eq_of_promoteReplaceable hit').2, nofun⟩) le_rfl s).ok s' h

/-- One run that comes to its end is enough. -/
theorem wellReplaced_of_run (h : cleanupWith promoteReplaceable fuel s = .ok s') :
    s.WellReplaced := by
  intro fuel' hundefined
  rcases le_total fuel fuel' with hle | hle
  · rw [(cleanupWith_mono hle s).ok s' h] at hundefined
    cases hundefined
  · rw [(cleanupWith_mono hle s).error _ rfl hundefined] at h
    cases h

theorem returns_of_run (h : s.cleanupStackTrace fuel = .ok s') : s.Returns s' :=
  ⟨fuel, fun _ hle => (cleanupWith_mono hle s).ok s' h⟩

theorem Returns.eq_of_run {t : Stored} (h : s.Returns s')
    (hrun : s.cleanupStackTrace fuel = .ok t) : t = s' := by
  obtain ⟨n, hn⟩ := h
  have hlast := (cleanupWith_mono (le_max_left fuel n) s).ok t hrun
  exact Except.ok.inj (hlast.symm.trans (hn _ (le_max_right fuel n)))

/-- A run that comes to a place without an object does not return. -/
theorem not_returns_of_undefined (h : s.cleanupStackTrace fuel = .error .undefined) :
    ¬ s.Returns s' := by
  rintro ⟨n, hn⟩
  have hlast := hn (max fuel n) (le_max_right fuel n)
  have hsame : s.cleanupStackTrace (max fuel n) = .error .undefined :=
    (cleanupWith_mono (le_max_left fuel n) s).error _ rfl h
  rw [hsame] at hlast
  cases hlast

/-! ## Every run ends -/

/-- What the rounds that are left can make smaller: the entries, and how high they are. -/
def work (todo : List Stored) : ℕ := (todo.map fun it => it.value.height + 1).sum

theorem ends_cleanupLoop
    (hassign : ∀ it it', assign it = .ok it' → it'.value.height < it.value.height)
    (hsteps : ∀ it, assign it ≠ .error .steps) {h : ℕ}
    (ih : ∀ s : Stored, s.value.height < h → Limited.Ends atTop fun n => cleanupWith assign n s)
    (done todo : List Stored) (hdone : ∀ d ∈ done, d.value.height < h)
    (htodo : ∀ t ∈ todo, t.value.height < h) : Limited.Ends (atTop ×ˢ atTop)
      fun p : ℕ × ℕ => cleanupLoop assign (cleanupWith assign p.1) p.2 done todo := by
  -- one round less
  have hround : Tendsto (fun p : ℕ × ℕ => (p.1, p.2 - 1)) (atTop ×ˢ atTop) (atTop ×ˢ atTop) :=
    tendsto_fst.prodMk ((tendsto_sub_atTop_nat 1).comp tendsto_snd)
  have hpos : ∀ᶠ p : ℕ × ℕ in atTop ×ˢ atTop, p.2 = p.2 - 1 + 1 := by
    filter_upwards [tendsto_snd.eventually (eventually_ge_atTop 1)] with p hp
    omega
  induction hw : work todo using Nat.strong_induction_on generalizing done todo with
  | _ w ihw =>
    subst hw
    cases todo with
    | nil =>
      refine (Limited.ends_const _ (r := .ok done) nofun).congr ?_
      filter_upwards [hpos] with p hp
      rw [hp]
      rfl
    | cons it todo =>
      obtain ⟨hit, htodo'⟩ := List.forall_mem_cons.mp htodo
      have hless : work todo < work (it :: todo) := by simp [work]
      suffices hnext : Limited.Ends (atTop ×ˢ atTop) fun p : ℕ × ℕ =>
          cleanupLoop assign (cleanupWith assign p.1) (p.2 + 1) done (it :: todo) by
        refine (hnext.comp hround).congr ?_
        filter_upwards [hpos] with p hp
        rw [← hp]
      simp only [cleanupLoop]
      cases hr : examine it with
      | erase => exact ihw _ hless done todo hdone htodo' rfl
      | replace it' =>
        obtain ⟨rfl, -⟩ := examine_eq_replace hr
        refine (Limited.ends_const _ (hsteps it')).bind fun x hx => ?_
        obtain ⟨p, hx⟩ := hx.exists
        have hlower := hassign it' x hx
        refine ihw _ ?_ done (x :: todo) hdone
          (List.forall_mem_cons.mpr ⟨hlower.trans hit, htodo'⟩) rfl
        simp only [work, List.map_cons, List.sum_cons]
        omega
      | clean it' =>
        have hit' := (MultiStackInfo.height_survivor (survivor_of_clean hr)).trans_lt hit
        refine ((ih it' hit').comp tendsto_fst).bind fun x hx => ?_
        obtain ⟨p, hx⟩ := hx.exists
        have hxh := (height_cleanupWith hassign hx).trans_lt hit'
        have hunite : ∀ d ∈ done, (unite x d).value.height < h := by
          intro d hd
          have hd := hdone d hd
          have hle : (MultiStackInfo.unite x.value d.value).height ≤ h - 1 :=
            MultiStackInfo.height_unite (by omega) (by omega)
          rw [value_unite]
          omega
        split_ifs with hany
        · refine (Limited.Ends.mapM fun d hd => ?_).bind fun done' hdone' => ?_
          · split_ifs
            · exact (ih _ (hunite d hd)).comp tendsto_fst
            · exact Limited.ends_const _ nofun
          · obtain ⟨q, hq⟩ := hdone'.exists
            refine ihw _ hless done' todo (Limited.forall_of_mapM
              (P := fun d => d.value.height < h ∧ (unite x d).value.height < h)
              (fun d d' hd hd' => ?_) (fun d hd => ⟨hdone d hd, hunite d hd⟩) hq) htodo' rfl
            split_ifs at hd'
            · exact (height_cleanupWith hassign hd').trans_lt hd.2
            · exact Except.ok.inj hd' ▸ hd.1
        · exact ihw _ hless (done ++ [x]) todo
            (List.forall_mem_append.mpr ⟨hdone, by simpa using hxh⟩) htodo' rfl

/-- Every run ends, if line 2138 leaves lower entries. -/
theorem ends_cleanupWith
    (hassign : ∀ it it', assign it = .ok it' → it'.value.height < it.value.height)
    (hsteps : ∀ it, assign it ≠ .error .steps) (s : Stored) :
    Limited.Ends atTop fun n => cleanupWith assign n s := by
  induction hv : s.value using MultiStackInfo.height_induction generalizing s with
  | step t ih =>
    subst hv
    have hloop := ends_cleanupLoop hassign hsteps (fun s' hs' => ih s'.value hs' s' rfl) []
      s.children (by simp) fun c hc => MultiStackInfo.height_lt_of_mem (by
        rw [value_children, values_eq_map]
        exact List.mem_map_of_mem hc)
    have hdiag : Tendsto (fun n : ℕ => (n - 1, n - 1)) atTop (atTop ×ˢ atTop) :=
      (tendsto_sub_atTop_nat 1).prodMk (tendsto_sub_atTop_nat 1)
    have hcall := (hloop.comp hdiag).bind
      (f := fun _ children => .ok { s with room := s.capacity - children.length, children })
      fun _ _ => Limited.ends_const _ (r := .ok _) nofun
    refine hcall.congr ?_
    filter_upwards [eventually_ge_atTop 1] with n hn
    obtain ⟨n, rfl⟩ := Nat.exists_eq_succ_of_ne_zero (show n ≠ 0 by omega)
    rfl

theorem ends_cleanupStackTrace (s : Stored) :
    Limited.Ends atTop fun n => s.cleanupStackTrace n :=
  ends_cleanupWith (fun _ _ => height_promote) promote_ne_steps s

/-! ## The reading of line 2138 as a copy -/

open MultiStackInfo (place combine)

theorem any_values (f : StackInfo) (cs : List Stored) :
    ((values cs).any fun c => f.opEq c.stack) = cs.any fun c => f.opEq c.stack := by
  rw [values_eq_map, List.any_map]
  simp [Function.comp_def]

theorem values_mapM {x : Stored}
    (hrec : ∀ t t', rec t = .ok t' → t'.value = t.value.cleanupStackTrace)
    {done done' : List Stored} (h : (done.mapM fun it2 =>
      if x.stack.opEq it2.stack then rec (unite x it2) else .ok it2) = .ok done') :
    values done' = combine MultiStackInfo.cleanupStackTrace x.value (values done) := by
  have hpairs := Limited.forall₂_of_mapM h
  clear h
  induction hpairs with
  | nil => rfl
  | @cons d d' done done' hd _ ih =>
    have hd' : d'.value = if x.value.stack.opEq d.value.stack
        then (MultiStackInfo.unite x.value d.value).cleanupStackTrace else d.value := by
      rw [value_stack, value_stack]
      split_ifs at hd ⊢
      · rw [hrec _ _ hd, value_unite]
      · rw [Except.ok.inj hd]
    rw [values_cons, ih, hd']
    rfl

/-- Where each assignment leaves a copy of the child, the loop leaves what the pass over the
    surviving entries leaves. -/
theorem values_cleanupLoop
    (hrec : ∀ t t', rec t = .ok t' → t'.value = t.value.cleanupStackTrace)
    {rounds : ℕ} {done todo cs : List Stored}
    (h : cleanupLoop promoteReplaceable rec rounds done todo = .ok cs) : values cs =
      MultiStackInfo.cleanupLoop MultiStackInfo.cleanupStackTrace (values done) (values todo) := by
  induction rounds generalizing done todo with
  | zero => cases h
  | succ rounds ih =>
    cases todo with
    | nil =>
      obtain rfl := Except.ok.inj h
      rw [values_nil, MultiStackInfo.cleanupLoop]
    | cons it todo =>
      rw [cleanupLoop] at h
      rw [MultiStackInfo.cleanupLoop_eq, values_cons]
      cases hr : examine it with
      | erase =>
        have hnone : MultiStackInfo.survivor it.value = none := by
          rw [MultiStackInfo.survivor_eq, examine_eq_erase hr]
        rw [hr] at h
        rw [ih h, MultiStackInfo.cleanupLoop_eq, List.filterMap_cons_none hnone]
      | replace it' =>
        obtain ⟨rfl, c, hc, hv⟩ := examine_eq_replace hr
        rw [hr] at h
        obtain ⟨x, hx, h⟩ := Limited.ok_of_bind h
        obtain ⟨hrep, hpromote⟩ := promote_eq_of_promoteReplaceable hx
        obtain ⟨c', x', hc', hx', hvalue⟩ := promote_of_replaceable hrep
        obtain rfl := Except.ok.inj (hx'.symm.trans hpromote)
        obtain rfl : c' = c := by simpa [hc] using hc'.symm
        have hsame : MultiStackInfo.survivor it'.value = MultiStackInfo.survivor x'.value := by
          rw [MultiStackInfo.survivor_eq, hv, hvalue]
        rw [ih h, MultiStackInfo.cleanupLoop_eq, values_cons, List.filterMap_cons,
          List.filterMap_cons, hsame]
      | clean it' =>
        rw [hr] at h
        obtain ⟨x, hx, h⟩ := Limited.ok_of_bind h
        have hx := hrec it' x hx
        rw [List.filterMap_cons_some (survivor_of_clean hr), List.foldl_cons, ← hx]
        split_ifs at h with hany
        · obtain ⟨done', hdone', h⟩ := Limited.ok_of_bind h
          have hvalues := values_mapM hrec hdone'
          have hplace : place MultiStackInfo.cleanupStackTrace x.value (values done) =
              combine MultiStackInfo.cleanupStackTrace x.value (values done) := by
            rw [place, Keyed.absorb_of_any (by rwa [value_stack, any_values]), combine]
          rw [ih h, MultiStackInfo.cleanupLoop_eq, hvalues, hplace]
        · rw [← any_values] at hany
          have hplace : place MultiStackInfo.cleanupStackTrace x.value (values done) =
              values (done ++ [x]) := by
            rw [place, Keyed.absorb_of_none (by simpa using hany), values_append]
            rfl
          rw [ih h, MultiStackInfo.cleanupLoop_eq, hplace]

/-- What is left is what replacing entries by copies of their children leaves. -/
theorem value_cleanupWith (h : cleanupWith promoteReplaceable fuel s = .ok s') :
    s'.value = s.value.cleanupStackTrace := by
  induction fuel generalizing s s' with
  | zero => cases h
  | succ fuel ih =>
    obtain ⟨n, children, hn, hchildren, rfl⟩ := cleanupWith_eq_ok h
    obtain rfl := Nat.succ.inj hn
    rw [MultiStackInfo.cleanupStackTrace_eq, value_eq, value_N, value_stack, value_children,
      values_cleanupLoop (fun t t' => ih) hchildren, values_nil]

/-- If every entry that is replaced is replaceable at that time, the call returns, and leaves
    what replacing entries by copies of their children leaves. -/
theorem returns_of_wellReplaced (h : s.WellReplaced) :
    ∃ s', s.Returns s' ∧ s'.value = s.value.cleanupStackTrace := by
  have hsteps : ∀ it, promoteReplaceable it ≠ .error .steps := by
    intro it
    unfold promoteReplaceable
    split_ifs
    · exact promote_ne_steps it
    · nofun
  obtain ⟨r, hr, hrun⟩ := ends_cleanupWith
    (fun it it' hit => height_promote (promote_eq_of_promoteReplaceable hit).2) hsteps s
  obtain ⟨n, hn⟩ := hrun.exists
  cases r with
  | error e =>
    cases e with
    | steps => exact absurd rfl hr
    | undefined => exact absurd hn (h n)
  | ok s' => exact ⟨s', returns_of_run (cleanupStackTrace_of_replaceable hn), value_cleanupWith hn⟩

theorem WellReplaced.value_eq (h : s.WellReplaced) (hrun : s.cleanupStackTrace fuel = .ok s') :
    s'.value = s.value.cleanupStackTrace := by
  obtain ⟨t, ht, hvalue⟩ := returns_of_wellReplaced h
  rw [ht.eq_of_run hrun, hvalue]

/-! ## Entries with room -/

/-- Two call chains to `main`, as `add` makes them, of which the second comes by an unwanted
    entry. When this one has been replaced, `main` is united with `main` and cleaned again;
    by then the unwanted entry below has lost two of its three children, and has room for
    four callees of the third. -/
def roomy (n : ℤ) (room : ℕ) (callees : List Stored) : Stored :=
  let main := StackInfo.ofFields 0x401000 0x1000 (ascii "a.out") (ascii "main") []
  let run := StackInfo.ofFields 0x402000 0x2000 (ascii "a.out") (ascii "run") []
  let start := StackInfo.ofFields 0x7f1000 0x1000 (ascii "libc.so.6") (ascii "__libc_start_main") []
  let again := StackInfo.ofFields 0x7f1100 0x1100 (ascii "libc.so.6") (ascii "__libc_start_main") []
  let x := StackInfo.ofFields 0x7f2000 0x2000 (ascii "libc.so.6") [] []
  let y := StackInfo.ofFields 0x7f3000 0x3000 (ascii "libc.so.6") [] []
  ⟨n + 3, .init, 0,
    [⟨n + 2, main, 0, [⟨n + 2, start, 1, [⟨1, x, 0, []⟩, ⟨1, y, 0, []⟩, ⟨n, run, room, callees⟩]⟩]⟩,
      ⟨1, again, 0, [⟨1, main, 0, []⟩]⟩]⟩

end Stored

end StackTrace
