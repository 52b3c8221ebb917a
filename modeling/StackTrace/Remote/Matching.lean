import StackTrace.Remote.Protocol

/-!
# Which reply belongs to which call

A call of `getRemoteCallStacks` takes what comes with its tag, from any source, and a
monitor takes what comes with tag 1. Replies to a call that has given up stay in
flight while later calls of the same rank run. A request that is still posted when its
call gives up may be sent with the tag of such a later call.

* `replies_matched`: if each rank draws a new tag, at least 2, for every call, and no call
  gives up while a request of it is posted, then a call merges replies to its own request
  only, at most one of each other rank, and none of its own; nobody reads a message of
  the wrong kind; and a call that ends by its count has merged a reply of every other rank.
* `replies_confused`: with new tags alone this does not hold.
-/

namespace StackTrace.Remote

variable {n : ℕ} {τ : Type}

/-- A call draws a tag that is at least 2 and that its rank has not drawn before. -/
def FreshTag (s : State n τ) : Event n τ → Prop
  | .request i tag => 2 ≤ tag ∧ ∀ call ∈ s.calls, call.rank = i → call.tag ≠ tag
  | _ => True

instance (s : State n τ) : ∀ e : Event n τ, Decidable (FreshTag s e)
  | .request i tag =>
    inferInstanceAs (Decidable (2 ≤ tag ∧ ∀ call ∈ s.calls, call.rank = i → call.tag ≠ tag))
  | .send .. | .merge .. | .count _ | .giveUp _ | .receive _ | .threads _ | .respond ..
  | .sent _ | .registry .. => inferInstanceAs (Decidable True)

/-- MPI has sent the requests of a call when it gives up. -/
def Sent (s : State n τ) : Event n τ → Prop
  | .giveUp c => ∀ r ∈ s.posted, r.call ≠ c
  | _ => True

instance (s : State n τ) : ∀ e : Event n τ, Decidable (Sent s e)
  | .giveUp c => inferInstanceAs (Decidable (∀ r ∈ s.posted, r.call ≠ c))
  | .request .. | .send .. | .merge .. | .count _ | .receive _ | .threads _ | .respond ..
  | .sent _ | .registry .. => inferInstanceAs (Decidable True)

/-- Both. -/
def Orderly (s : State n τ) (e : Event n τ) : Prop := FreshTag s e ∧ Sent s e

instance (s : State n τ) (e : Event n τ) : Decidable (Orderly s e) :=
  inferInstanceAs (Decidable (FreshTag s e ∧ Sent s e))

/-! ## The invariant -/

/-- The rank and the tag of a call. -/
def State.caller (s : State n τ) (c : ℕ) : Option (Fin n × ℕ) :=
  (s.calls[c]?).map fun call => (call.rank, call.tag)

/-- The rank that is asked, or has been. -/
def Message.asked (m : Message n) : Fin n :=
  match m.data with
  | .request _ => m.dst
  | .reply _ => m.src

/-- The call whose request a monitor is at. -/
def Monitor.handles : Monitor n → Option ℕ
  | .received _ _ c | .generating _ _ c => some c
  | _ => none

/-- A request comes from its caller with tag 1 and holds the tag of the call, a reply goes
    to the caller with this tag. -/
def Message.Ok (who : ℕ → Option (Fin n × ℕ)) (m : Message n) : Prop :=
  ∃ i t, who m.call = some (i, t) ∧ m.asked ≠ i ∧
    match m.data with
    | .request tag => m.tag = 1 ∧ m.src = i ∧ tag = t
    | .reply _ => m.dst = i ∧ m.tag = t

/-- A monitor knows the caller and the tag of the request it has read. -/
def Monitor.Ok (who : ℕ → Option (Fin n × ℕ)) (j : Fin n) : Monitor n → Prop
  | .waiting => True
  | .received src tag c | .generating src tag c | .sending src tag c =>
    who c = some (src, tag) ∧ j ≠ src
  | .misread => False

/-- What a call has merged are replies to its request, one for each count. -/
structure Call.Ok (c : ℕ) (call : Call n) : Prop where
  status : call.status ≠ .misread
  N_finished : call.N_finished = call.merged.length + 1
  merged : ∀ r ∈ call.merged, r.call = c ∧ r.src ≠ call.rank
  multistack : call.multistack = (call.merged.map Reply.stack).foldr (fun x t => t.add x) .init
  counted : call.status = .counted → n ≤ call.N_finished

/-- A posted request belongs to a call that runs. -/
def Posted.Ok (calls : List (Call n)) (r : Posted n) : Prop :=
  r.dst ≠ r.src ∧ ∃ call, calls[r.call]? = some call ∧ call.rank = r.src ∧ call.status = .running

/-- A request of call `c` to rank `j`. -/
def Posted.concerns (c : ℕ) (j : Fin n) (r : Posted n) : Bool := r.call = c ∧ r.dst = j

/-- A message of call `c` from or to rank `j`. -/
def Message.concerns (c : ℕ) (j : Fin n) (m : Message n) : Bool := m.call = c ∧ m.asked = j

/-- One for a monitor at work on call `c`. -/
def Monitor.works (mon : Monitor n) (c : ℕ) : ℕ := if mon.handles = some c then 1 else 0

/-- The merged replies from rank `j`. -/
def mergedFrom (call : Option (Call n)) (j : Fin n) : ℕ :=
  call.elim 0 fun call => call.merged.countP (·.src = j)

/-- How often rank `j` figures in call `c`: as the receiver of a request that is posted or
    in flight or the sender of a reply in flight, as a monitor at work, as the source of a
    merged reply. -/
def tokens (s : State n τ) (c : ℕ) (j : Fin n) : ℕ :=
  s.posted.countP (Posted.concerns c j) + s.messages.countP (Message.concerns c j) +
    (s.monitor j).works c + mergedFrom s.calls[c]? j

structure Matched (s : State n τ) : Prop where
  posted : ∀ r ∈ s.posted, r.Ok s.calls
  messages : ∀ m ∈ s.messages, m.Ok s.caller
  monitors : ∀ j, (s.monitor j).Ok s.caller j
  tags : ∀ c i t, s.caller c = some (i, t) → 2 ≤ t
  distinct : ∀ c d x, s.caller c = some x → s.caller d = some x → c = d
  calls : ∀ (c : ℕ) (call : Call n), s.calls[c]? = some call → call.Ok c
  once : ∀ c j, tokens s c j ≤ 1

theorem matched_init [Inhabited τ] : Matched (State.init n τ) where
  posted := by simp [State.init]
  messages := by simp [State.init]
  monitors := fun _ => trivial
  tags := by simp [State.init, State.caller]
  distinct := by simp [State.init, State.caller]
  calls := by simp [State.init]
  once := by simp [State.init, tokens, Monitor.works, Monitor.handles, mergedFrom]

/-! ## Calls -/

theorem caller_eq_some {s : State n τ} {c : ℕ} {call : Call n} (h : s.calls[c]? = some call) :
    s.caller c = some (call.rank, call.tag) := by
  simp [State.caller, h]

theorem Message.Ok.mono {who who' : ℕ → Option (Fin n × ℕ)} {m : Message n} (h : m.Ok who)
    (hwho : ∀ c x, who c = some x → who' c = some x) : m.Ok who' := by
  obtain ⟨i, t, hcall, hrest⟩ := h
  exact ⟨i, t, hwho _ _ hcall, hrest⟩

theorem Monitor.Ok.mono {who who' : ℕ → Option (Fin n × ℕ)} {j : Fin n} {mon : Monitor n}
    (h : mon.Ok who j) (hwho : ∀ c x, who c = some x → who' c = some x) : mon.Ok who' j := by
  cases mon with
  | waiting => trivial
  | misread => exact h
  | received | generating | sending => exact ⟨hwho _ _ h.1, h.2⟩

/-- Changing a call changes neither its rank nor its tag. -/
theorem map_set_eq {calls : List (Call n)} {c : ℕ} {call call' : Call n}
    (h : calls[c]? = some call) (hrank : call'.rank = call.rank) (htag : call'.tag = call.tag)
    (d : ℕ) : ((calls.set c call')[d]?).map (fun call => (call.rank, call.tag)) =
      (calls[d]?).map fun call => (call.rank, call.tag) := by
  by_cases hd : c = d
  · subst hd
    have hlt : c < calls.length := (List.getElem?_eq_some_iff.mp h).1
    rw [List.getElem?_set_self hlt, h]
    simp [hrank, htag]
  · rw [List.getElem?_set_ne hd]

/-- The calls behind a change of one of them. -/
theorem forall_calls_set {calls : List (Call n)} {c : ℕ} {call' : Call n} {P : ℕ → Call n → Prop}
    (h : ∀ d call, calls[d]? = some call → P d call) (hc : P c call') (d : ℕ) (call : Call n)
    (hcall : (calls.set c call')[d]? = some call) : P d call := by
  by_cases hd : c = d
  · subst hd
    rw [List.getElem?_set_self' ] at hcall
    obtain ⟨-, -, rfl⟩ := Option.map_eq_some_iff.mp hcall
    exact hc
  · rw [List.getElem?_set_ne hd] at hcall
    exact h d call hcall

theorem getElem?_concat {α : Type*} {l : List α} {a b : α} {c : ℕ} (h : (l ++ [a])[c]? = some b) :
    l[c]? = some b ∨ c = l.length ∧ b = a := by
  rw [List.getElem?_append] at h
  split_ifs at h with hlt
  · exact .inl h
  · obtain ⟨hc, heq⟩ := List.getElem?_eq_some_iff.mp h
    rw [List.length_singleton] at hc
    exact .inr ⟨by omega, by simpa using heq.symm⟩

/-! ## Tokens -/

/-- A message that is taken out of flight. -/
theorem countP_eraseIdx {α : Type*} {l : List α} {k : ℕ} {a : α} (h : l[k]? = some a)
    (p : α → Bool) :
    l.countP p = (l.eraseIdx k).countP p + if p a then 1 else 0 := by
  obtain ⟨hk, rfl⟩ := List.getElem?_eq_some_iff.mp h
  rw [← (List.getElem_cons_eraseIdx_perm hk).countP_eq, List.countP_cons]

/-- The requests of a call ask each rank once. -/
theorem countP_requests_le (i : Fin n) (c d : ℕ) (j : Fin n) :
    (requests i c).countP (Posted.concerns d j) ≤ 1 := by
  unfold requests
  rw [List.countP_map]
  calc List.countP _ ((List.finRange n).filter (· ≠ i))
      ≤ ((List.finRange n).filter (· ≠ i)).countP (· = j) := by
        refine List.countP_mono_left fun x _ hx => ?_
        have hxj : c = d ∧ x = j := of_decide_eq_true hx
        exact decide_eq_true hxj.2
    _ ≤ (List.finRange n).countP (· = j) := List.filter_sublist.countP_le
    _ ≤ 1 := by
        have hnodup := List.nodup_iff_count_le_one.mp (List.nodup_finRange n) j
        rw [List.count_eq_countP] at hnodup
        exact le_trans (List.countP_mono_left fun x _ hx => by simpa using hx) hnodup

/-- They concern this call only. -/
theorem countP_requests_of_ne {i : Fin n} {c d : ℕ} (h : d ≠ c) (j : Fin n) :
    (requests i c).countP (Posted.concerns d j) = 0 := by
  rw [List.countP_eq_zero]
  intro r hr hcond
  obtain ⟨x, -, rfl⟩ := List.mem_map.mp hr
  exact h (of_decide_eq_true hcond).1.symm

/-! ## One step -/

section steps

variable {s : State n τ}

/-- Every call that a message, a monitor or a token speaks of is there. -/
theorem lt_of_caller {c : ℕ} {x : Fin n × ℕ} (h : s.caller c = some x) : c < s.calls.length := by
  obtain ⟨call, hcall, -⟩ := Option.map_eq_some_iff.mp h
  exact (List.getElem?_eq_some_iff.mp hcall).1

/-- The call that begins has no tokens. -/
theorem Matched.tokens_new (h : Matched s) (j : Fin n) : tokens s s.calls.length j = 0 := by
  have hnone : s.caller s.calls.length = none := by simp [State.caller]
  have hposted : s.posted.countP (Posted.concerns s.calls.length j) = 0 := by
    rw [List.countP_eq_zero]
    intro r hr hcond
    obtain ⟨-, call, hcall, -⟩ := h.posted r hr
    have hnew : r.call = s.calls.length := (of_decide_eq_true hcond).1
    rw [hnew, List.getElem?_eq_none le_rfl] at hcall
    exact absurd hcall (by simp)
  have hmessages : s.messages.countP (Message.concerns s.calls.length j) = 0 := by
    rw [List.countP_eq_zero]
    intro m hm hcond
    obtain ⟨i, t, hcall, -⟩ := h.messages m hm
    have hnew : m.call = s.calls.length := (of_decide_eq_true hcond).1
    rw [hnew, hnone] at hcall
    exact absurd hcall (by simp)
  have hmonitor : (s.monitor j).works s.calls.length = 0 := by
    refine if_neg fun hhandles => ?_
    have hok := h.monitors j
    cases hmon : s.monitor j with
    | received src tag c | generating src tag c =>
      rw [hmon] at hhandles hok
      obtain rfl := Option.some.inj hhandles
      rw [hok.1] at hnone
      exact absurd hnone (by simp)
    | waiting | sending | misread =>
      rw [hmon] at hhandles
      exact absurd hhandles (by simp [Monitor.handles])
  have hmerged : mergedFrom s.calls[s.calls.length]? j = 0 := by simp [mergedFrom]
  unfold tokens
  rw [hposted, hmessages, hmonitor, hmerged]

theorem matched_request (h : Matched s) {i : Fin n} {tag : ℕ} (hok : FreshTag s (.request i tag)) :
    Matched { s with
      posted := s.posted ++ requests i s.calls.length
      calls := s.calls ++ [⟨i, tag, 1, .init, [], .running⟩] } := by
  set s' : State n τ := { s with
    posted := s.posted ++ requests i s.calls.length
    calls := s.calls ++ [⟨i, tag, 1, .init, [], .running⟩] } with hs'
  have hnew : s'.caller s.calls.length = some (i, tag) := by simp [hs', State.caller]
  have hsame : ∀ c, c ≠ s.calls.length → s'.calls[c]? = s.calls[c]? := by
    intro c hc
    rw [List.getElem?_append]
    split_ifs with hlt
    · rfl
    · rw [List.getElem?_eq_none (by simp; omega), List.getElem?_eq_none (by omega)]
  have hold : ∀ c, c ≠ s.calls.length → s'.caller c = s.caller c := by
    intro c hc
    rw [State.caller, hsame c hc]
    rfl
  have hmono : ∀ c x, s.caller c = some x → s'.caller c = some x := by
    intro c x hx
    rw [hold c (lt_of_caller hx).ne, hx]
  have hfresh : ∀ c, s.caller c ≠ some (i, tag) := by
    intro c hc
    obtain ⟨call, hcall, heq⟩ := Option.map_eq_some_iff.mp hc
    obtain ⟨hrank, htag⟩ := Prod.mk.inj heq
    exact hok.2 call (List.mem_of_getElem? hcall) hrank htag
  constructor
  · intro r hr
    rcases List.mem_append.mp hr with hr | hr
    · obtain ⟨hne, call, hcall, hrest⟩ := h.posted r hr
      have hlt : r.call < s.calls.length := (List.getElem?_eq_some_iff.mp hcall).1
      exact ⟨hne, call, by rw [hsame _ hlt.ne, hcall], hrest⟩
    · obtain ⟨j, hj, rfl⟩ := List.mem_map.mp hr
      exact ⟨by simpa using hj, ⟨i, tag, 1, .init, [], .running⟩, by simp [hs'], rfl, rfl⟩
  · exact fun m hm => (h.messages m hm).mono hmono
  · exact fun j => (h.monitors j).mono hmono
  · intro c j t hc
    by_cases hlast : c = s.calls.length
    · rw [hlast, hnew] at hc
      obtain ⟨-, rfl⟩ := Prod.mk.inj (Option.some.inj hc)
      exact hok.1
    · rw [hold c hlast] at hc
      exact h.tags c j t hc
  · intro c d x hc hd
    by_cases hlc : c = s.calls.length <;> by_cases hld : d = s.calls.length
    · rw [hlc, hld]
    · rw [hlc, hnew] at hc
      rw [hold d hld, ← hc] at hd
      exact absurd hd (hfresh d)
    · rw [hld, hnew] at hd
      rw [hold c hlc, ← hd] at hc
      exact absurd hc (hfresh c)
    · rw [hold c hlc] at hc
      rw [hold d hld] at hd
      exact h.distinct c d x hc hd
  · intro c call hcall
    rcases getElem?_concat hcall with hcall | ⟨rfl, rfl⟩
    · exact h.calls c call hcall
    · exact ⟨by simp, rfl, by simp, rfl, by simp⟩
  · intro c j
    have hold := h.once c j
    unfold tokens at hold ⊢
    rw [List.countP_append]
    by_cases hlast : c = s.calls.length
    · subst hlast
      have hzero := h.tokens_new j
      have hle := countP_requests_le i s.calls.length s.calls.length j
      have hmerged : mergedFrom s'.calls[s.calls.length]? j = 0 := by
        simp [hs', mergedFrom]
      unfold tokens at hzero
      rw [hmerged]
      show _ + _ + s.messages.countP _ + (s.monitor j).works _ + 0 ≤ 1
      omega
    · rw [countP_requests_of_ne hlast, hsame c hlast]
      exact hold

/-- A step that changes no call and makes no tokens. -/
theorem Matched.of_calls_eq (h : Matched s) {s' : State n τ} (hcalls : s'.calls = s.calls)
    (hposted : s'.posted.Sublist s.posted) (hmessages : ∀ m ∈ s'.messages, m.Ok s.caller)
    (hmonitors : ∀ j, (s'.monitor j).Ok s.caller j)
    (htokens : ∀ c j, s'.posted.countP (Posted.concerns c j) +
        s'.messages.countP (Message.concerns c j) + (s'.monitor j).works c ≤
      s.posted.countP (Posted.concerns c j) + s.messages.countP (Message.concerns c j) +
        (s.monitor j).works c) : Matched s' := by
  have hcaller : s'.caller = s.caller := by
    funext c
    rw [State.caller, hcalls]
    rfl
  refine ⟨?_, ?_, ?_, ?_, ?_, ?_, fun c j => ?_⟩
  · rw [hcalls]
    exact fun r hr => h.posted r (hposted.subset hr)
  · rwa [hcaller]
  · rwa [hcaller]
  · rw [hcaller]
    exact h.tags
  · rw [hcaller]
    exact h.distinct
  · rw [hcalls]
    exact h.calls
  · have hold := h.once c j
    have hle := htokens c j
    unfold tokens at hold ⊢
    rw [hcalls]
    omega

/-- A step that changes one call and makes no tokens. -/
theorem Matched.set (h : Matched s) {c : ℕ} {call call' : Call n} (hcall : s.calls[c]? = some call)
    (hrank : call'.rank = call.rank) (htag : call'.tag = call.tag) (hok : call'.Ok c)
    {s' : State n τ} (hcalls : s'.calls = s.calls.set c call') (hmonitor : s'.monitor = s.monitor)
    (hsame : s'.posted = s.posted) (hmessages : s'.messages.Sublist s.messages)
    (hposted : ∀ r ∈ s.posted, r.call = c → call'.status = .running)
    (htokens : ∀ j, s'.messages.countP (Message.concerns c j) + call'.merged.countP (·.src = j) ≤
      s.messages.countP (Message.concerns c j) + call.merged.countP (·.src = j)) :
    Matched s' := by
  have hcaller : s'.caller = s.caller := by
    funext d
    rw [State.caller, hcalls]
    exact map_set_eq hcall hrank htag d
  have hlt : c < s.calls.length := (List.getElem?_eq_some_iff.mp hcall).1
  refine ⟨fun r hr => ?_, ?_, ?_, ?_, ?_, ?_, fun d j => ?_⟩
  · rw [hsame] at hr
    obtain ⟨hne, old, hold, hsrc, hrunning⟩ := h.posted r hr
    refine ⟨hne, ?_⟩
    rw [hcalls]
    by_cases hc : r.call = c
    · rw [hc, hcall] at hold
      obtain rfl := Option.some.inj hold
      exact ⟨call', by rw [hc, List.getElem?_set_self hlt], by rw [hrank, hsrc], hposted r hr hc⟩
    · exact ⟨old, by rw [List.getElem?_set_ne (Ne.symm hc), hold], hsrc, hrunning⟩
  · rw [hcaller]
    exact fun m hm => h.messages m (hmessages.subset hm)
  · rw [hcaller, hmonitor]
    exact h.monitors
  · rw [hcaller]
    exact h.tags
  · rw [hcaller]
    exact h.distinct
  · rw [hcalls]
    exact forall_calls_set h.calls hok
  · have hold := h.once d j
    unfold tokens at hold ⊢
    rw [hcalls, hmonitor, hsame]
    by_cases hd : c = d
    · subst hd
      have hle := htokens j
      rw [hcall] at hold
      rw [List.getElem?_set_self hlt]
      simp only [mergedFrom, Option.elim_some] at hold ⊢
      omega
    · have hle := hmessages.countP_le (p := Message.concerns d j)
      rw [List.getElem?_set_ne hd]
      omega

/-- The posted request becomes one in flight, with the tag of its call. -/
theorem matched_send (h : Matched s) {k tag : ℕ} {r : Posted n} {call : Call n}
    (hr : s.posted[k]? = some r) (hcall : s.calls[r.call]? = some call)
    (htag : call.status = .running → tag = call.tag) :
    Matched { s with
      posted := s.posted.eraseIdx k
      messages := s.messages ++ [⟨r.src, r.dst, 1, .request tag, r.call⟩] } := by
  obtain ⟨hne, call', hcall', hsrc, hrunning⟩ := h.posted r (List.mem_of_getElem? hr)
  obtain rfl := Option.some.inj (hcall.symm.trans hcall')
  refine h.of_calls_eq rfl (List.eraseIdx_sublist _ _) (fun m hm => ?_) h.monitors fun c j => ?_
  · rcases List.mem_append.mp hm with hm | hm
    · exact h.messages m hm
    · obtain rfl := List.mem_singleton.mp hm
      exact ⟨call.rank, call.tag, caller_eq_some hcall, by rwa [hsrc], rfl, hsrc.symm,
        htag hrunning⟩
  · dsimp only
    rw [countP_eraseIdx hr, List.countP_append, List.countP_singleton]
    have hsame : Message.concerns c j (⟨r.src, r.dst, 1, .request tag, r.call⟩ : Message n) =
        Posted.concerns c j r := rfl
    rw [hsame]
    omega

theorem matched_receive (h : Matched s) {k tag : ℕ} {m : Message n} (hm : s.messages[k]? = some m)
    (hwaiting : s.monitor m.dst = .waiting) (hdata : m.data = .request tag)
    (log : Fin n → List (MonitorAction n)) :
    Matched { s with
      messages := s.messages.eraseIdx k
      monitor := Function.update s.monitor m.dst (.received m.src tag m.call)
      log := log } := by
  have hasked : m.asked = m.dst := by rw [Message.asked, hdata]
  obtain ⟨i, t, hcall, hne, hrest⟩ := h.messages m (List.mem_of_getElem? hm)
  rw [hdata] at hrest
  obtain ⟨-, hsrc, htag⟩ := hrest
  refine h.of_calls_eq rfl (List.Sublist.refl _)
    (fun m' hm' => h.messages m' (List.eraseIdx_subset hm')) (fun j => ?_) fun c j => ?_
  · show (Function.update s.monitor m.dst _ j).Ok s.caller j
    by_cases hj : j = m.dst
    · subst hj
      rw [Function.update_self]
      exact ⟨by rw [hcall, hsrc, htag], by rwa [hsrc, ← hasked]⟩
    · rw [Function.update_of_ne hj]
      exact h.monitors j
  · -- the request in flight becomes a monitor at work
    dsimp only
    rw [countP_eraseIdx hm]
    by_cases hj : j = m.dst
    · subst hj
      rw [Function.update_self, hwaiting]
      by_cases hc : m.call = c
      · simp [Monitor.works, Monitor.handles, Message.concerns, hasked, hc]
      · simp [Monitor.works, Monitor.handles, hc]
    · rw [Function.update_of_ne hj]
      omega

/-- The message a call finds with its tag is a reply to its request. -/
theorem call_of_tag (h : Matched s) {c k : ℕ} {call : Call n} {m : Message n}
    (hcall : s.calls[c]? = some call) (hm : s.messages[k]? = some m) (hdst : m.dst = call.rank)
    (htag : m.tag = call.tag) {stack : MultiStackInfo} (hdata : m.data = .reply stack) :
    m.call = c ∧ m.src ≠ call.rank := by
  obtain ⟨i, t, hwho, hne, hrest⟩ := h.messages m (List.mem_of_getElem? hm)
  rw [hdata] at hrest
  obtain ⟨hi, ht⟩ := hrest
  have hasked : m.asked = m.src := by rw [Message.asked, hdata]
  refine ⟨h.distinct _ _ _ hwho ?_, ?_⟩
  · rw [caller_eq_some hcall, ← hi, ← ht, hdst, htag]
  · rwa [← hdst, hi, ← hasked]

theorem matched_merge (h : Matched s) {c k : ℕ} {call : Call n} {m : Message n}
    {stack : MultiStackInfo} (hcall : s.calls[c]? = some call) (hm : s.messages[k]? = some m)
    (hrunning : call.status = .running) (hdst : m.dst = call.rank) (htag : m.tag = call.tag)
    (hdata : m.data = .reply stack) :
    Matched { s with
      messages := s.messages.eraseIdx k
      calls := s.calls.set c { call with
        N_finished := call.N_finished + 1, multistack := call.multistack.add stack,
        merged := ⟨m.src, m.call, stack⟩ :: call.merged } } := by
  obtain ⟨hc, hsrc⟩ := call_of_tag h hcall hm hdst htag hdata
  have hok := h.calls c call hcall
  refine h.set hcall ?_ ?_ ?_ rfl rfl rfl (List.eraseIdx_sublist _ _) (fun _ _ _ => hrunning)
    fun j => ?_
  · rfl
  · rfl
  · refine ⟨by simp [hrunning], by simp [hok.N_finished], ?_, ?_, by simp [hrunning]⟩
    · intro r hr
      rcases List.mem_cons.mp hr with rfl | hr
      · exact ⟨hc, hsrc⟩
      · exact hok.merged r hr
    · simp [hok.multistack]
  · -- the reply in flight becomes a merged one
    have hasked : m.asked = m.src := by rw [Message.asked, hdata]
    rw [countP_eraseIdx hm, List.countP_cons]
    simp [Message.concerns, hasked, hc]
    omega

theorem matched_respond (h : Matched s) {i src : Fin n} {tag c : ℕ}
    (hmonitor : s.monitor i = .generating src tag c) (stack : MultiStackInfo)
    (log : Fin n → List (MonitorAction n)) :
    Matched { s with
      messages := s.messages ++ [⟨i, src, tag, .reply stack, c⟩]
      monitor := Function.update s.monitor i (.sending src tag c)
      log := log } := by
  have hok := h.monitors i
  rw [hmonitor] at hok
  refine h.of_calls_eq rfl (List.Sublist.refl _) (fun m hm => ?_) (fun j => ?_) fun d j => ?_
  · rcases List.mem_append.mp hm with hm | hm
    · exact h.messages m hm
    · obtain rfl := (List.mem_singleton.mp hm)
      exact ⟨src, tag, hok.1, hok.2, rfl, rfl⟩
  · show (Function.update s.monitor i _ j).Ok s.caller j
    by_cases hj : j = i
    · subst hj
      rw [Function.update_self]
      exact hok
    · rw [Function.update_of_ne hj]
      exact h.monitors j
  · -- the monitor at work becomes a reply in flight
    dsimp only
    rw [List.countP_append, List.countP_singleton]
    by_cases hj : j = i
    · subst hj
      rw [Function.update_self, hmonitor]
      simp [Monitor.works, Monitor.handles, Message.concerns, Message.asked]
      omega
    · rw [Function.update_of_ne hj]
      have hnot : Message.concerns d j (⟨i, src, tag, .reply stack, c⟩ : Message n) = false := by
        simp [Message.concerns, Message.asked, Ne.symm hj]
      rw [hnot]
      simp

/-- A monitor that goes on within its loop, or drops its request. -/
theorem matched_monitor (h : Matched s) {i : Fin n} {mon : Monitor n} (hok : mon.Ok s.caller i)
    (hworks : ∀ c, mon.works c ≤ (s.monitor i).works c) :
    Matched { s with monitor := Function.update s.monitor i mon } := by
  refine h.of_calls_eq rfl (List.Sublist.refl _) h.messages (fun j => ?_) fun c j => ?_
  · show (Function.update s.monitor i _ j).Ok s.caller j
    by_cases hj : j = i
    · subst hj
      rwa [Function.update_self]
    · rw [Function.update_of_ne hj]
      exact h.monitors j
  · show _ + (Function.update s.monitor i _ j).works c ≤ _
    by_cases hj : j = i
    · subst hj
      rw [Function.update_self]
      exact Nat.add_le_add_left (hworks c) _
    · rw [Function.update_of_ne hj]

/-- A rank figures in a call once at most, so that it has at most one reply merged. -/
theorem Matched.nodup (h : Matched s) {c : ℕ} {call : Call n} (hcall : s.calls[c]? = some call) :
    (call.merged.map Reply.src).Nodup := by
  rw [List.nodup_iff_count_le_one]
  intro j
  have honce := h.once c j
  unfold tokens at honce
  rw [hcall] at honce
  rw [List.count_eq_countP, List.countP_map]
  simp only [mergedFrom, Option.elim_some] at honce
  have hcount : call.merged.countP (·.src = j) ≤ 1 := by omega
  refine le_trans (List.countP_mono_left fun r _ hr => ?_) hcount
  simpa using hr

/-- The own rank and those whose replies are merged are different ranks. -/
theorem Matched.nodup_cons (h : Matched s) {c : ℕ} {call : Call n}
    (hcall : s.calls[c]? = some call) : (call.rank :: call.merged.map Reply.src).Nodup := by
  refine List.nodup_cons.mpr ⟨fun hmem => ?_, h.nodup hcall⟩
  obtain ⟨r, hr, hsrc⟩ := List.mem_map.mp hmem
  exact ((h.calls c call hcall).merged r hr).2 hsrc

/-- With `N_finished` at the number of ranks every other rank has a reply merged. -/
theorem Matched.complete (h : Matched s) {c : ℕ} {call : Call n} (hcall : s.calls[c]? = some call)
    (hsize : n ≤ call.N_finished) (j : Fin n) (hj : j ≠ call.rank) :
    ∃ r ∈ call.merged, r.src = j := by
  have hcard : (call.rank :: call.merged.map Reply.src).toFinset = Finset.univ := by
    refine Finset.eq_univ_of_card _ (le_antisymm (Finset.card_le_univ _) ?_)
    rw [List.toFinset_card_of_nodup (h.nodup_cons hcall), Fintype.card_fin, List.length_cons,
      List.length_map, ← (h.calls c call hcall).N_finished]
    exact hsize
  have hmem : j ∈ (call.rank :: call.merged.map Reply.src).toFinset := by
    rw [hcard]
    exact Finset.mem_univ j
  rcases List.mem_cons.mp (List.mem_toFinset.mp hmem) with rfl | hmem
  · exact absurd rfl hj
  · exact List.mem_map.mp hmem

/-- Then none of its requests is posted any more. -/
theorem Matched.not_posted (h : Matched s) {c : ℕ} {call : Call n} (hcall : s.calls[c]? = some call)
    (hsize : n ≤ call.N_finished) : ∀ r ∈ s.posted, r.call ≠ c := by
  rintro r hr rfl
  obtain ⟨hne, call', hcall', hsrc, -⟩ := h.posted r hr
  obtain rfl := Option.some.inj (hcall.symm.trans hcall')
  obtain ⟨reply, hreply, hdst⟩ := h.complete hcall hsize r.dst (by rwa [hsrc])
  -- the rank would figure twice
  have hposted : 0 < s.posted.countP (Posted.concerns r.call r.dst) :=
    List.countP_pos_iff.mpr ⟨r, hr, decide_eq_true ⟨rfl, rfl⟩⟩
  have hmerged : 0 < call.merged.countP (·.src = r.dst) :=
    List.countP_pos_iff.mpr ⟨reply, hreply, decide_eq_true hdst⟩
  have honce := h.once r.call r.dst
  unfold tokens at honce
  rw [hcall] at honce
  simp only [mergedFrom, Option.elim_some] at honce
  omega

/-- A call that ends when none of its requests is posted. -/
theorem Matched.ended (h : Matched s) {c : ℕ} {call : Call n} (hcall : s.calls[c]? = some call)
    {status : Status} (hsent : ∀ r ∈ s.posted, r.call ≠ c) (hstatus : status ≠ .misread)
    (hcounted : status = .counted → n ≤ call.N_finished) :
    Matched { s with calls := s.calls.set c { call with status := status } } := by
  have hok := h.calls c call hcall
  refine h.set hcall ?_ ?_ ?_ rfl rfl rfl (List.Sublist.refl _)
    (fun r hr hc => absurd hc (hsent r hr)) fun j => le_rfl
  · rfl
  · rfl
  · exact ⟨hstatus, hok.N_finished, hok.merged, hok.multistack, hcounted⟩

end steps

/-! ## Every run -/

variable [DecidableEq τ] [Inhabited τ]

theorem matched_step {s s' : State n τ} {e : Event n τ} (h : Matched s) (hok : Orderly s e)
    (hstep : step s e = some s') : Matched s' := by
  cases effect_of_step hstep with
  | request i tag => exact matched_request h hok.1
  | send hr hcall htag => exact matched_send h hr hcall htag
  | merge hcall hm hrunning hdst htag hdata =>
    exact matched_merge h hcall hm hrunning hdst htag hdata
  | @misreadReply c k tag call m hcall hm htag hdata =>
    -- a request has tag 1, a call a tag of at least 2
    obtain ⟨i, t, -, -, hrest⟩ := h.messages m (List.mem_of_getElem? hm)
    rw [hdata] at hrest
    have hge := h.tags _ _ _ (caller_eq_some hcall)
    have hone := hrest.1
    omega
  | count hcall hsize =>
    exact h.ended hcall (h.not_posted hcall hsize) (by simp) fun _ => hsize
  | giveUp hcall => exact h.ended hcall hok.2 (by simp) (by simp)
  | receive hm hwaiting hdata => exact matched_receive h hm hwaiting hdata _
  | @misreadRequest k m stack hm hwaiting htag hdata =>
    obtain ⟨i, t, hwho, -, hrest⟩ := h.messages m (List.mem_of_getElem? hm)
    rw [hdata] at hrest
    have hge := h.tags _ _ _ hwho
    have ht := hrest.2
    omega
  | noThreads | sent =>
    exact matched_monitor h trivial fun c => by simp [Monitor.works, Monitor.handles]
  | @threads i src tag call hmonitor hthreads =>
    have hok := h.monitors i
    rw [hmonitor] at hok
    exact matched_monitor h hok fun c => by rw [hmonitor]; exact le_rfl
  | respond hmonitor stack => exact matched_respond h hmonitor stack _
  | registry =>
    exact h.of_calls_eq rfl (List.Sublist.refl _) h.messages h.monitors fun _ _ => le_rfl

theorem matched_run {s : State n τ} {es : List (Event n τ)}
    (hok : Machine.Meets step Orderly (.init n τ) es)
    (hrun : Machine.run step (.init n τ) es = some s) : Matched s :=
  Machine.invariant_of_meets (fun _ _ _ h hok hstep => matched_step h hok hstep) matched_init hok
    hrun

/-- What a call has merged into its result are replies to its own request, at most one of
    each rank and none of its own; no call and no monitor has read a message of the wrong
    kind; and a call that has ended by its count has merged a reply of every other rank. -/
def Attributed (s : State n τ) : Prop :=
  (∀ (c : ℕ) (call : Call n), s.calls[c]? = some call →
    call.multistack = (call.merged.map Reply.stack).foldr (fun x t => t.add x) .init ∧
    (∀ r ∈ call.merged, r.call = c ∧ r.src ≠ call.rank) ∧
    (call.merged.map Reply.src).Nodup ∧ call.status ≠ .misread ∧
    (call.status = .counted → ∀ j, j ≠ call.rank → ∃ r ∈ call.merged, r.src = j)) ∧
  ∀ j, s.monitor j ≠ .misread

/-- In every run in which the tags of each rank are new and at least 2, and MPI has sent the
    requests of a call when it gives up, the replies go where they belong. -/
theorem replies_matched {es : List (Event n τ)} {s : State n τ}
    (horderly : Machine.Meets step Orderly (.init n τ) es)
    (hrun : Machine.run step (.init n τ) es = some s) : Attributed s := by
  have h := matched_run horderly hrun
  refine ⟨fun c call hcall => ?_, fun j hj => ?_⟩
  · have hok := h.calls c call hcall
    exact ⟨hok.multistack, hok.merged, h.nodup hcall, hok.status,
      fun hcounted => h.complete hcall (hok.counted hcounted)⟩
  · have hmonitor := h.monitors j
    rw [hj] at hmonitor
    exact hmonitor

/-- Rank 0 gives up a first call; its reply is still in flight when the second call counts
    its own. -/
theorem replies_matched_stale :
    ∃ s : State 2 ℕ, Machine.run step (.init 2 ℕ) [.registry 1 (.registerThread 7), .request 0 5,
        .send 0 5, .receive 0, .threads 1, .giveUp 0, .request 0 6, .send 0 6, .respond 1 .init,
        .sent 1, .receive 0, .threads 1, .respond 1 .init, .merge 1 1, .count 1] = some s ∧
      Attributed s := by
  have hrun : Machine.run step (.init 2 ℕ) [.registry 1 (.registerThread 7), .request 0 5,
    .send 0 5, .receive 0, .threads 1, .giveUp 0, .request 0 6, .send 0 6, .respond 1 .init,
    .sent 1, .receive 0, .threads 1, .respond 1 .init, .merge 1 1, .count 1] = some _ := rfl
  exact ⟨_, hrun, replies_matched (by decide) hrun⟩

/-- Rank 0 gives up its first call before its requests are sent, and draws the tag 6 for the
    second one. MPI reads this tag for the first request to rank 1 as well; rank 1 answers
    both, and the second call counts two replies of it and none of rank 2. -/
theorem replies_confused :
    ¬ ∀ (n : ℕ) (es : List (Event n ℕ)) (s : State n ℕ),
      Machine.Meets step FreshTag (.init n ℕ) es →
      Machine.run step (.init n ℕ) es = some s → Attributed s := by
  intro h
  have hattributed := h 3 [.registry 1 (.registerThread 7), .request 0 5, .giveUp 0, .request 0 6,
    .send 0 6, .send 1 6, .receive 0, .threads 1, .respond 1 .init, .sent 1, .receive 0,
    .threads 1, .respond 1 .init, .sent 1, .merge 1 0, .merge 1 0, .count 1] _ (by decide) rfl
  obtain ⟨-, -, hnodup, -, -⟩ := hattributed.1 1 _ rfl
  exact absurd hnodup (by decide)

end StackTrace.Remote
