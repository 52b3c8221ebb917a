import StackTrace.Threads.Registry
import StackTrace.Tree.Add

/-!
# Requests for remote stacks

`StackTrace.cpp`, lines 1707–1857. Each rank runs a monitor thread
(`runGlobalMonitorThread`) and may call `getRemoteCallStacks`, any number of times
and from several threads. A call draws a tag, posts it to all other ranks in
messages with tag 1, and merges the replies that come with its tag until it has
counted one for every rank or its time is up. A monitor takes a message with tag 1,
looks at the registry of its rank, and sends the stacks back with the tag it read.

A call posts its requests by `MPI_Isend( &tag, … )` (line 1818), and MPI may read the
variable at any time before the request is complete. The call does not wait for that:
it frees its requests (line 1854) and returns. A request that is still posted then is
sent with what MPI finds at the place of the variable, such as the tag of a later call.
A value that is no tag, with which `MPI_Send` ends the program of the rank that reads
it, is left out.

Messages are bytes; `Data` says what the sender put in. A receiver that reads the
other kind is in the state `misread`, which has no step.
-/

namespace StackTrace.Remote

open Registry (registeredThreads)

/-- What is in a message. -/
inductive Data where
  /-- a tag, one `MPI_INT` (line 1818) -/
  | request (tag : ℕ)
  /-- a packed `multi_stack_info` (line 1738) -/
  | reply (stack : MultiStackInfo)

/-- A message in flight. `call` is not sent: it is the index of the call the message
    belongs to, a reply belonging to the call whose request the monitor has read. -/
structure Message (n : ℕ) where
  src : Fin n
  dst : Fin n
  tag : ℕ
  data : Data
  call : ℕ

/-- A request behind `MPI_Isend` whose tag MPI has not read yet. -/
structure Posted (n : ℕ) where
  src : Fin n
  dst : Fin n
  call : ℕ

/-- Where the loop of a monitor is. -/
inductive Monitor (n : ℕ) where
  | waiting
  /-- a request is read -/
  | received (src : Fin n) (tag : ℕ) (call : ℕ)
  /-- its threads are known and not empty -/
  | generating (src : Fin n) (tag : ℕ) (call : ℕ)
  /-- in `MPI_Send` -/
  | sending (src : Fin n) (tag : ℕ) (call : ℕ)
  | misread

/-- What a monitor has done. -/
inductive MonitorAction (n : ℕ) where
  | receive (src : Fin n) (tag : ℕ)
  | respond (dst : Fin n) (tag : ℕ)

/-- A reply that a call has merged. -/
structure Reply (n : ℕ) where
  src : Fin n
  call : ℕ
  stack : MultiStackInfo

inductive Status where
  | running
  /-- the loop ended with `N_finished >= size` -/
  | counted
  /-- the loop ended because the time was up or `MPI_Iprobe` failed -/
  | gaveUp
  | misread
deriving DecidableEq

/-- A call of `getRemoteCallStacks`. `merged` lists what went into `multistack`. -/
structure Call (n : ℕ) where
  rank : Fin n
  tag : ℕ
  N_finished : ℕ
  multistack : MultiStackInfo
  merged : List (Reply n)
  status : Status

/-- All ranks: the requests posted and the messages in flight, the calls so far, and of
    each rank its monitor, what the monitor has done, and its registry of threads. -/
structure State (n : ℕ) (τ : Type) where
  posted : List (Posted n)
  messages : List (Message n)
  calls : List (Call n)
  monitor : Fin n → Monitor n
  log : Fin n → List (MonitorAction n)
  registry : Fin n → Registry τ

variable {n : ℕ} {τ : Type} [DecidableEq τ] [Inhabited τ]

def State.init (n : ℕ) (τ : Type) [Inhabited τ] : State n τ :=
  { posted := [], messages := [], calls := [], monitor := fun _ => .waiting,
    log := fun _ => [], registry := fun _ => StaticVector.init }

/-- The event that happens next. `k` is the place of a request that is posted, or of a
    message in flight. -/
inductive Event (n : ℕ) (τ : Type) where
  /-- `getRemoteCallStacks` on rank `i`, which draws `tag` and posts its requests -/
  | request (i : Fin n) (tag : ℕ)
  /-- MPI sends the posted request `k` and reads `tag` for it -/
  | send (k : ℕ) (tag : ℕ)
  /-- the loop of call `c` finds the message `k` -/
  | merge (c k : ℕ)
  /-- the loop of call `c` ends by its count, and the call returns -/
  | count (c : ℕ)
  /-- the loop of call `c` ends otherwise, and the call returns -/
  | giveUp (c : ℕ)
  /-- a monitor finds the message `k` -/
  | receive (k : ℕ)
  /-- the monitor of rank `i` calls `registeredThreads` -/
  | threads (i : Fin n)
  /-- the monitor of rank `i` has generated `stack` and calls `MPI_Send` -/
  | respond (i : Fin n) (stack : MultiStackInfo)
  /-- `MPI_Send` of the monitor of rank `i` returns, as it may before the reply is received -/
  | sent (i : Fin n)
  /-- a thread of rank `i` calls `registerThread` or `unregisterThread`, or ends -/
  | registry (i : Fin n) (op : Registry.Op τ)

/-- The requests of lines 1815–1819. -/
def requests (i : Fin n) (call : ℕ) : List (Posted n) :=
  ((List.finRange n).filter (· ≠ i)).map fun j => ⟨i, j, call⟩

/-- One step. -/
def step (s : State n τ) : Event n τ → Option (State n τ)
  | .request i tag =>
    some { s with
      posted := s.posted ++ requests i s.calls.length
      calls := s.calls ++ [⟨i, tag, 1, .init, [], .running⟩] }
  | .send k tag => do
    let r ← s.posted[k]?
    let call ← s.calls[r.call]?
    -- the variable is there while the call runs
    if call.status = .running → tag = call.tag then
      some { s with
        posted := s.posted.eraseIdx k
        messages := s.messages ++ [⟨r.src, r.dst, 1, .request tag, r.call⟩] }
    else none
  | .merge c k => do
    let call ← s.calls[c]?
    let m ← s.messages[k]?
    if call.status = .running ∧ call.N_finished < n ∧ m.dst = call.rank ∧ m.tag = call.tag then
      some { s with
        messages := s.messages.eraseIdx k
        calls := s.calls.set c <| match m.data with
          | .reply stack =>
            { call with
              N_finished := call.N_finished + 1, multistack := call.multistack.add stack,
              merged := ⟨m.src, m.call, stack⟩ :: call.merged }
          | .request _ => { call with status := .misread } }
    else none
  | .count c => do
    let call ← s.calls[c]?
    if call.status = .running ∧ n ≤ call.N_finished then
      some { s with calls := s.calls.set c { call with status := .counted } }
    else none
  | .giveUp c => do
    let call ← s.calls[c]?
    if call.status = .running then
      some { s with calls := s.calls.set c { call with status := .gaveUp } }
    else none
  | .receive k => do
    let m ← s.messages[k]?
    match s.monitor m.dst, m.tag, m.data with
    | .waiting, 1, .request tag =>
      some { s with
        messages := s.messages.eraseIdx k
        monitor := Function.update s.monitor m.dst (.received m.src tag m.call)
        log := Function.update s.log m.dst (s.log m.dst ++ [.receive m.src tag]) }
    | .waiting, 1, .reply _ =>
      some { s with
        messages := s.messages.eraseIdx k
        monitor := Function.update s.monitor m.dst .misread }
    | _, _, _ => none
  | .threads i =>
    match s.monitor i with
    | .received src tag call =>
      some { s with
        monitor := Function.update s.monitor i <|
          if registeredThreads (s.registry i) = [] then .waiting else .generating src tag call }
    | _ => none
  | .respond i stack =>
    match s.monitor i with
    | .generating src tag call =>
      some { s with
        messages := s.messages ++ [⟨i, src, tag, .reply stack, call⟩]
        monitor := Function.update s.monitor i (.sending src tag call)
        log := Function.update s.log i (s.log i ++ [.respond src tag]) }
    | _ => none
  | .sent i =>
    match s.monitor i with
    | .sending _ _ _ => some { s with monitor := Function.update s.monitor i .waiting }
    | _ => none
  | .registry i op => do
    let r ← Registry.step (s.registry i) op
    some { s with registry := Function.update s.registry i r }

/-! ## What a step can be -/

/-- Every step, with what it needs and what it leaves. -/
inductive Effect (s : State n τ) : Event n τ → State n τ → Prop
  | request (i : Fin n) (tag : ℕ) :
      Effect s (.request i tag) { s with
        posted := s.posted ++ requests i s.calls.length
        calls := s.calls ++ [⟨i, tag, 1, .init, [], .running⟩] }
  | send {k tag : ℕ} {r : Posted n} {call : Call n} (hr : s.posted[k]? = some r)
      (hcall : s.calls[r.call]? = some call) (htag : call.status = .running → tag = call.tag) :
      Effect s (.send k tag) { s with
        posted := s.posted.eraseIdx k
        messages := s.messages ++ [⟨r.src, r.dst, 1, .request tag, r.call⟩] }
  | merge {c k : ℕ} {call : Call n} {m : Message n} {stack : MultiStackInfo}
      (hcall : s.calls[c]? = some call) (hm : s.messages[k]? = some m)
      (hrunning : call.status = .running) (hdst : m.dst = call.rank) (htag : m.tag = call.tag)
      (hdata : m.data = .reply stack) :
      Effect s (.merge c k) { s with
        messages := s.messages.eraseIdx k
        calls := s.calls.set c { call with
          N_finished := call.N_finished + 1, multistack := call.multistack.add stack,
          merged := ⟨m.src, m.call, stack⟩ :: call.merged } }
  | misreadReply {c k tag : ℕ} {call : Call n} {m : Message n} (hcall : s.calls[c]? = some call)
      (hm : s.messages[k]? = some m) (htag : m.tag = call.tag) (hdata : m.data = .request tag) :
      Effect s (.merge c k) { s with
        messages := s.messages.eraseIdx k
        calls := s.calls.set c { call with status := .misread } }
  | count {c : ℕ} {call : Call n} (hcall : s.calls[c]? = some call) (hsize : n ≤ call.N_finished) :
      Effect s (.count c) { s with calls := s.calls.set c { call with status := .counted } }
  | giveUp {c : ℕ} {call : Call n} (hcall : s.calls[c]? = some call) :
      Effect s (.giveUp c) { s with calls := s.calls.set c { call with status := .gaveUp } }
  | receive {k tag : ℕ} {m : Message n} (hm : s.messages[k]? = some m)
      (hwaiting : s.monitor m.dst = .waiting) (hdata : m.data = .request tag) :
      Effect s (.receive k) { s with
        messages := s.messages.eraseIdx k
        monitor := Function.update s.monitor m.dst (.received m.src tag m.call)
        log := Function.update s.log m.dst (s.log m.dst ++ [.receive m.src tag]) }
  | misreadRequest {k : ℕ} {m : Message n} {stack : MultiStackInfo}
      (hm : s.messages[k]? = some m) (hwaiting : s.monitor m.dst = .waiting) (htag : m.tag = 1)
      (hdata : m.data = .reply stack) :
      Effect s (.receive k) { s with
        messages := s.messages.eraseIdx k
        monitor := Function.update s.monitor m.dst .misread }
  | noThreads {i src : Fin n} {tag call : ℕ} (hmonitor : s.monitor i = .received src tag call)
      (hempty : registeredThreads (s.registry i) = []) :
      Effect s (.threads i) { s with monitor := Function.update s.monitor i .waiting }
  | threads {i src : Fin n} {tag call : ℕ} (hmonitor : s.monitor i = .received src tag call)
      (hthreads : registeredThreads (s.registry i) ≠ []) :
      Effect s (.threads i)
        { s with monitor := Function.update s.monitor i (.generating src tag call) }
  | respond {i src : Fin n} {tag call : ℕ} (hmonitor : s.monitor i = .generating src tag call)
      (stack : MultiStackInfo) :
      Effect s (.respond i stack) { s with
        messages := s.messages ++ [⟨i, src, tag, .reply stack, call⟩]
        monitor := Function.update s.monitor i (.sending src tag call)
        log := Function.update s.log i (s.log i ++ [.respond src tag]) }
  | sent {i src : Fin n} {tag call : ℕ} (hmonitor : s.monitor i = .sending src tag call) :
      Effect s (.sent i) { s with monitor := Function.update s.monitor i .waiting }
  | registry (i : Fin n) (op : Registry.Op τ) (r : Registry τ) :
      Effect s (.registry i op) { s with registry := Function.update s.registry i r }

theorem effect_of_step {s s' : State n τ} {e : Event n τ} (h : step s e = some s') :
    Effect s e s' := by
  cases e with
  | request i tag =>
    obtain rfl := Option.some.inj h
    exact .request i tag
  | send k tag =>
    simp only [step, Option.bind_eq_bind, Option.bind_eq_some_iff] at h
    obtain ⟨r, hr, call, hcall, h⟩ := h
    split_ifs at h with htag
    obtain rfl := Option.some.inj h
    exact .send hr hcall htag
  | merge c k =>
    simp only [step, Option.bind_eq_bind, Option.bind_eq_some_iff] at h
    obtain ⟨call, hcall, m, hm, h⟩ := h
    split_ifs at h with hcond
    obtain ⟨hrunning, -, hdst, htag⟩ := hcond
    obtain rfl := Option.some.inj h
    cases hdata : m.data with
    | request tag => exact .misreadReply hcall hm htag hdata
    | reply stack => exact .merge hcall hm hrunning hdst htag hdata
  | count c =>
    simp only [step, Option.bind_eq_bind, Option.bind_eq_some_iff] at h
    obtain ⟨call, hcall, h⟩ := h
    split_ifs at h with hcond
    obtain rfl := Option.some.inj h
    exact .count hcall hcond.2
  | giveUp c =>
    simp only [step, Option.bind_eq_bind, Option.bind_eq_some_iff] at h
    obtain ⟨call, hcall, h⟩ := h
    split_ifs at h
    obtain rfl := Option.some.inj h
    exact .giveUp hcall
  | receive k =>
    simp only [step, Option.bind_eq_bind, Option.bind_eq_some_iff] at h
    obtain ⟨m, hm, h⟩ := h
    split at h
    · rename_i hwaiting _ hdata
      obtain rfl := Option.some.inj h
      exact .receive hm hwaiting hdata
    · rename_i hwaiting htag hdata
      obtain rfl := Option.some.inj h
      exact .misreadRequest hm hwaiting htag hdata
    · exact absurd h (by simp)
  | threads i =>
    simp only [step] at h
    split at h
    · rename_i src tag call hmonitor
      obtain rfl := Option.some.inj h
      split_ifs with hthreads
      · exact .noThreads hmonitor hthreads
      · exact .threads hmonitor hthreads
    · exact absurd h (by simp)
  | respond i stack =>
    simp only [step] at h
    split at h
    · rename_i src tag call hmonitor
      obtain rfl := Option.some.inj h
      exact .respond hmonitor stack
    · exact absurd h (by simp)
  | sent i =>
    simp only [step] at h
    split at h
    · rename_i hmonitor
      obtain rfl := Option.some.inj h
      exact .sent hmonitor
    · exact absurd h (by simp)
  | registry i op =>
    simp only [step, Option.bind_eq_bind, Option.bind_eq_some_iff] at h
    obtain ⟨r, -, h⟩ := h
    obtain rfl := Option.some.inj h
    exact .registry i op r

end StackTrace.Remote
