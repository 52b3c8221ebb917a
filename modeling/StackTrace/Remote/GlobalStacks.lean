import StackTrace.Remote.Matching
import StackTrace.Tree.AllStacks

/-!
# What `getGlobalCallStacks` returns

`StackTrace.cpp`, lines 1795–1867, from the requests to the tree that the caller gets.

* `getGlobalCallStacks_complete`: in every orderly run a call that ends by its count
  returns the threads of all ranks, those of each other rank as they were when its monitor
  answered, with each way once and the right count on it.
-/

namespace StackTrace.Remote

open MultiStackInfo Tally

variable {n : ℕ} {τ : Type}

/-- `stack` is the tree of the process `p` with some threads registered. -/
def Genuine (τ : Type) (p : Process) (stack : MultiStackInfo) : Prop :=
  ∃ R : Rank τ, R.process = p ∧ R.getAllCallStacks = some stack

/-- A monitor sends the tree that it has generated in its process. -/
def Honest (process : Fin n → Process) : Event n τ → Prop
  | .respond i stack => Genuine τ (process i) stack
  | _ => True

/-- What is in flight and what is merged comes from the process of its rank. -/
structure AllGenuine (process : Fin n → Process) (s : State n τ) : Prop where
  messages : ∀ m ∈ s.messages, ∀ stack, m.data = .reply stack → Genuine τ (process m.src) stack
  calls : ∀ (c : ℕ) (call : Call n), s.calls[c]? = some call →
    ∀ r ∈ call.merged, Genuine τ (process r.src) r.stack

variable {process : Fin n → Process} {s s' : State n τ} {e : Event n τ}

theorem AllGenuine.set (h : AllGenuine process s) {s' : State n τ} {c : ℕ} {call : Call n}
    (hmessages : ∀ m ∈ s'.messages, m ∈ s.messages) (hcalls : s'.calls = s.calls.set c call)
    (hcall : ∀ r ∈ call.merged, Genuine τ (process r.src) r.stack) : AllGenuine process s' where
  messages m hm := h.messages m (hmessages m hm)
  calls := by
    rw [hcalls]
    exact forall_calls_set h.calls hcall

theorem AllGenuine.of_calls_eq (h : AllGenuine process s) {s' : State n τ}
    (hmessages : ∀ m ∈ s'.messages, m ∈ s.messages) (hcalls : s'.calls = s.calls) :
    AllGenuine process s' where
  messages m hm := h.messages m (hmessages m hm)
  calls := by
    rw [hcalls]
    exact h.calls

variable [DecidableEq τ] [Inhabited τ]

omit [DecidableEq τ] in
theorem allGenuine_init : AllGenuine process (State.init n τ) where
  messages := by simp [State.init]
  calls := by simp [State.init]

theorem allGenuine_step (h : AllGenuine process s) (hok : Honest process e)
    (hstep : step s e = some s') : AllGenuine process s' := by
  have herase (k : ℕ) : ∀ m ∈ s.messages.eraseIdx k, m ∈ s.messages :=
    fun m hm => List.mem_of_mem_eraseIdx hm
  cases effect_of_step hstep with
  | request i tag =>
    refine ⟨h.messages, fun c call hcall => ?_⟩
    rcases getElem?_concat hcall with hcall | ⟨-, rfl⟩
    · exact h.calls c call hcall
    · simp
  | send =>
    refine ⟨fun m hm stack hdata => ?_, h.calls⟩
    rcases List.mem_append.mp hm with hm | hm
    · exact h.messages m hm stack hdata
    · obtain rfl := List.mem_singleton.mp hm
      exact absurd hdata (by simp)
  | @merge c k call m stack hcall hm hrunning hdst htag hdata =>
    refine h.set (herase k) rfl (List.forall_mem_cons.mpr ⟨?_, h.calls c call hcall⟩)
    exact h.messages m (List.mem_of_getElem? hm) stack hdata
  | @misreadReply c k tag call m hcall => exact h.set (herase k) rfl (h.calls c call hcall)
  | @count c call hcall => exact h.set (fun _ => id) rfl (h.calls c call hcall)
  | @giveUp c call hcall => exact h.set (fun _ => id) rfl (h.calls c call hcall)
  | @receive k => exact h.of_calls_eq (herase k) rfl
  | @misreadRequest k => exact h.of_calls_eq (herase k) rfl
  | noThreads | threads | sent | registry => exact h.of_calls_eq (fun _ => id) rfl
  | @respond i src tag c hmonitor stack =>
    refine ⟨fun m hm stack' hdata => ?_, h.calls⟩
    rcases List.mem_append.mp hm with hm | hm
    · exact h.messages m hm stack' hdata
    · obtain rfl := List.mem_singleton.mp hm
      obtain rfl : stack = stack' := by simpa using hdata
      exact hok

theorem allGenuine_run {es : List (Event n τ)} (hhonest : ∀ e ∈ es, Honest process e)
    (hrun : Machine.run step (.init n τ) es = some s) : AllGenuine process s :=
  Machine.invariant_of_meets (fun _ _ _ h hok hstep => allGenuine_step h hok hstep)
    allGenuine_init ((Machine.meets_iff_forall hrun).mpr hhonest) hrun

/-- A rank whose tree a call has merged. -/
def AnswersAs (process : Fin n → Process) (r : Reply n) (o : Fin n × Rank τ) : Prop :=
  o.1 = r.src ∧ o.2.process = process o.1 ∧ o.2.getAllCallStacks = some r.stack

omit [DecidableEq τ] [Inhabited τ] in
theorem answersAs_lists {rs : List (Reply n)} {others : List (Fin n × Rank τ)}
    (h : List.Forall₂ (AnswersAs process) rs others) :
    others.map Prod.fst = rs.map Reply.src ∧ (∀ o ∈ others, o.2.process = process o.1) ∧
      (others.map Prod.snd).mapM Rank.getAllCallStacks = some (rs.map Reply.stack) := by
  induction h with
  | nil => exact ⟨rfl, by simp, rfl⟩
  | cons hro _ ih =>
    obtain ⟨hsrc, hprocess, htree⟩ := hro
    obtain ⟨hsrcs, hprocesses, htrees⟩ := ih
    refine ⟨?_, List.forall_mem_cons.mpr ⟨hprocess, hprocesses⟩, ?_⟩
    · rw [List.map_cons, List.map_cons, hsrc, hsrcs]
    · rw [List.map_cons, List.mapM_cons, htree, htrees]
      rfl

/-- In every run in which the tags of each rank are new and at least 2, MPI has sent the
    requests of a call when it gives up, and every monitor answers with the tree of its own
    process: a call that has ended by its count gives
    `getGlobalCallStacks` the trees of all other ranks, one of each. With the tree of the
    own rank they make one that counts all their threads at the root, and that has each way
    the call stack of one of these threads begins with exactly once, with the number of
    these threads, if in one place of the trees the same address never stands for two
    functions. -/
theorem getGlobalCallStacks_complete {es : List (Event n τ)} {c : ℕ} {call : Call n}
    {own : Rank τ} {t : MultiStackInfo}
    (horderly : Machine.Meets step Orderly (.init n τ) es)
    (hhonest : ∀ e ∈ es, Honest process e) (hrun : Machine.run step (.init n τ) es = some s)
    (hcall : s.calls[c]? = some call) (hcounted : call.status = .counted)
    (ht : own.getAllCallStacks = some t)
    (hclash : NoClash (t :: call.merged.reverse.map Reply.stack)) :
    ∃ others : List (Fin n × Rank τ), (others.map Prod.fst).Nodup ∧
      (∀ j, j ∈ others.map Prod.fst ↔ j ≠ call.rank) ∧
      (∀ o ∈ others, o.2.process = process o.1) ∧
      ∃ S Ts, own.callStacks = some S ∧
        (others.map Prod.snd).mapM Rank.callStacks = some Ts ∧
        (t.add call.multistack).N =
          own.registry.d_size + (others.map fun o => (o.2.registry.d_size : ℤ)).sum ∧
        Says (t.add call.multistack) (tally ((S ++ Ts.flatten).map word)) := by
  have hmatched := matched_run horderly hrun
  have hok := hmatched.calls c call hcall
  have hgenuine := (allGenuine_run hhonest hrun).calls c call hcall
  obtain ⟨others, hothers⟩ := exists_forall₂ (R := AnswersAs (τ := τ) process)
    (l := call.merged.reverse) fun r hr => by
      obtain ⟨R, hR, htree⟩ := hgenuine r (List.mem_reverse.mp hr)
      exact ⟨(r.src, R), rfl, hR, htree⟩
  obtain ⟨hsrc, hprocess, htrees⟩ := answersAs_lists hothers
  refine ⟨others, ?_, fun j => ?_, hprocess, ?_⟩
  · rw [hsrc, List.map_reverse, List.nodup_reverse]
    exact hmatched.nodup hcall
  · rw [hsrc, List.map_reverse, List.mem_reverse, List.mem_map]
    constructor
    · rintro ⟨r, hr, rfl⟩
      exact (hok.merged r hr).2
    · exact fun hj => hmatched.complete hcall (hok.counted hcounted) j hj
  · have hmerged : t.add call.multistack =
        getGlobalCallStacks t (call.merged.reverse.map Reply.stack) := by
      rw [hok.multistack, getGlobalCallStacks, getRemoteCallStacks, List.map_reverse,
        List.foldl_reverse]
    obtain ⟨S, Ts, hS, hTs, hN, hsays⟩ := says_getGlobalCallStacks ht htrees hclash
    rw [List.map_map] at hN
    rw [hmerged]
    exact ⟨S, Ts, hS, hTs, hN, hsays⟩

/-- Rank 0 asks rank 1, which is in the same state. -/
theorem getGlobalCallStacks_complete_two :
    ∃ (t : MultiStackInfo) (s : State 2 UInt64) (call : Call 2),
      twoRegistered.getAllCallStacks = some t ∧
      Machine.run step (.init 2 UInt64) [.registry 1 (.registerThread 7), .request 0 5, .send 0 5,
        .receive 0, .threads 1, .respond 1 t, .merge 0 0, .count 0] = some s ∧
      s.calls[0]? = some call ∧
      ∃ others : List (Fin 2 × Rank UInt64), ∀ j, j ∈ others.map Prod.fst ↔ j ≠ call.rank := by
  obtain ⟨t, ht⟩ : ∃ t, twoRegistered.getAllCallStacks = some t :=
    Option.isSome_iff_exists.mp (by decide +kernel)
  refine ⟨t, _, _, ht, rfl, rfl, ?_⟩
  have horderly : Machine.Meets step Orderly (.init 2 UInt64) [.registry 1 (.registerThread 7),
      .request 0 5, .send 0 5, .receive 0, .threads 1, .respond 1 t, .merge 0 0, .count 0] := by
    refine ⟨⟨trivial, trivial⟩, fun s₁ hs₁ => ⟨⟨⟨by decide, ?_⟩, trivial⟩, ?_⟩⟩
    · -- the registry changes no calls
      cases effect_of_step hs₁ with
      | registry => simp [State.init]
    · simp [Machine.Meets, Orderly, FreshTag, Sent]
  have hhonest : ∀ e ∈ ([.registry 1 (.registerThread 7), .request 0 5, .send 0 5, .receive 0,
      .threads 1, .respond 1 t, .merge 0 0, .count 0] : List (Event 2 UInt64)),
      Honest (fun _ => stripped) e := by
    simpa [Honest] using ⟨twoRegistered, rfl, ht⟩
  obtain ⟨others, -, hothers, -⟩ :=
    getGlobalCallStacks_complete (c := 0) horderly hhonest rfl rfl rfl ht (noClash_same ht)
  exact ⟨others, hothers⟩

end StackTrace.Remote
