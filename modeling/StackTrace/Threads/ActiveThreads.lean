import StackTrace.Base.Machine
import StackTrace.Symbols.Exec
import StackTrace.Threads.ThreadId

/-!
# The active threads

`activeThreads` (`StackTraceThreads.cpp`, lines 125–212) on Linux. The ids of the threads
come from `ps`; the calling thread takes its own id out. It then signals the other
threads, one at a time, and each one answers with its handle through a variable they all
share. A thread that does not answer within 0.1 s is passed over, and may answer later.

* `othersOf_perm`: the ids that are signalled are those of the other threads, if no thread
  id has fewer digits than the process id.
* `activeThreads_handles`: what is returned is sorted and has the calling thread once; it
  has every thread once that `ps` has listed and that is still there, if all of them
  answer in time.
-/

namespace StackTrace.ActiveThreads

/-! ## The ids -/

/-- The lambda of lines 134–138 on one line of the output of `ps`. -/
def addTid (pid : ℤ) (tid : List ℤ) (line : Bytes) : Option (List ℤ) := do
  let id ← get_tid pid line
  some (if id ≠ -1 ∧ tid.length < 1024 then tid ++ [id] else tid)

/-- The first `N_tid` elements of `tid` behind line 139. -/
def listTids (pid : ℤ) (output : Bytes) : Option (List ℤ) :=
  (exec2 output).foldlM (addTid pid) []

/-- The loop of lines 141–144: `std::swap( tid[i], tid[--N_tid] )` where the own id stands. -/
def removeOwn (myid : ℤ) (tid : List ℤ) (i : ℕ) : List ℤ :=
  if h : i < tid.length then
    if tid[i] = myid then
      removeOwn myid
        ((tid.set i (tid.get ⟨tid.length - 1, by omega⟩)).take (tid.length - 1)) (i + 1)
    else removeOwn myid tid (i + 1)
  else tid
termination_by tid.length - i
decreasing_by
  · rw [List.length_take, List.length_set]
    omega
  · omega

/-- The ids that are signalled. -/
def othersOf (pid myid : ℤ) (output : Bytes) : Option (List ℤ) := do
  let tid ← listTids pid output
  some (removeOwn myid tid 0)

/-! ## The own id is taken out -/

theorem removeOwn_of_le {myid : ℤ} {tid : List ℤ} {i : ℕ} (h : tid.length ≤ i) :
    removeOwn myid tid i = tid := by
  rw [removeOwn, dif_neg (by omega)]

/-- Behind the own id nothing is exchanged. -/
theorem removeOwn_of_notMem {myid : ℤ} {tid : List ℤ} {i : ℕ} (h : myid ∉ tid.drop i) :
    removeOwn myid tid i = tid := by
  induction hn : tid.length - i generalizing i with
  | zero => exact removeOwn_of_le (by omega)
  | succ n ih =>
    have hi : i < tid.length := by omega
    rw [List.drop_eq_getElem_cons hi, List.mem_cons, not_or] at h
    rw [removeOwn, dif_pos hi, if_neg (Ne.symm h.1)]
    exact ih h.2 (by omega)

/-- The last id takes the place of the own one, wherever this stands. -/
theorem removeOwn_split {myid : ℤ} {before after : List ℤ} (hbefore : myid ∉ before)
    (hafter : myid ∉ after) {i : ℕ} (hi : i ≤ before.length) :
    removeOwn myid (before ++ myid :: after) i =
      before ++ (after.getLast?.toList ++ after.dropLast) := by
  induction hn : before.length - i generalizing i with
  | zero =>
    obtain rfl : i = before.length := by omega
    have hlt : before.length < (before ++ myid :: after).length := by simp
    rw [removeOwn, dif_pos hlt, if_pos (by simp)]
    rcases List.eq_nil_or_concat after with rfl | ⟨after, z, rfl⟩
    · -- the own id is the last one
      rw [removeOwn_of_le (by simp)]
      simp
    · have hexchange : (before ++ myid :: after.concat z).set before.length
          ((before ++ myid :: after.concat z)[(before ++ myid :: after.concat z).length - 1]) =
            (before ++ z :: after) ++ [z] := by simp
      have hcount : (before ++ myid :: after.concat z).length - 1 =
          (before ++ z :: after).length := by simp
      simp only [List.get_eq_getElem]
      rw [hexchange, hcount, List.take_left, removeOwn_of_notMem]
      · simp
      · simp at hafter
        simpa using hafter.1
  | succ n ih =>
    have hlt : i < (before ++ myid :: after).length := by simp; omega
    have hne : (before ++ myid :: after)[i] ≠ myid := by
      rw [List.getElem_append_left (by omega)]
      exact fun heq => hbefore (heq ▸ List.getElem_mem _)
    rw [removeOwn, dif_pos hlt, if_neg hne]
    exact ih (by omega) (by omega)

/-- With every id at most once, exactly the own one goes. -/
theorem removeOwn_perm {myid : ℤ} {tid : List ℤ} (htid : tid.Nodup) :
    (removeOwn myid tid 0).Perm (tid.erase myid) := by
  by_cases hmem : myid ∈ tid
  · obtain ⟨before, after, rfl, hbefore⟩ := List.eq_append_cons_of_mem hmem
    have hafter : myid ∉ after := (List.nodup_cons.mp (List.nodup_append.mp htid).2.1).1
    rw [removeOwn_split hbefore hafter (Nat.zero_le _), List.erase_append_right _ hbefore,
      List.erase_cons_head]
    refine List.Perm.append_left before ?_
    rcases List.eq_nil_or_concat after with rfl | ⟨after, z, rfl⟩
    · exact List.Perm.refl _
    · simpa using (List.perm_append_singleton z after).symm
  · rw [removeOwn_of_notMem (by simpa using hmem), List.erase_of_not_mem hmem]

/-! ## The output of `ps` -/

/-- The first line, with any blanks before its first word. -/
def psHeader (blanks : ℕ) (text : Bytes) : Bytes :=
  List.replicate blanks 32 ++ (ascii "PID" ++ 32 :: text)

theorem psHeader_eq (blanks : ℕ) (text : Bytes) :
    psHeader blanks text = List.replicate blanks 32 ++ ([80, 73, 68] ++ 32 :: text) := rfl

/-- The first line is one of no process. -/
theorem get_tid_psHeader {pid : ℤ} (hpid : pid ≠ 0) (blanks : ℕ) (text : Bytes) :
    get_tid pid (psHeader blanks text) = some (-1) := by
  have hblanks : advance (· ≠ 32) (psHeader blanks text) 0 = some blanks := by
    have h := @advance_eq (· ≠ 32) [] (List.replicate blanks 32) ([73, 68] ++ 32 :: text) 80
      (fun d hd => by simp [List.eq_of_mem_replicate hd]) (by decide)
    simpa [psHeader_eq] using h
  have hword : advance (· = 32) (psHeader blanks text) blanks = some (blanks + 3) := by
    have h := @advance_eq (· = 32) (List.replicate blanks 32) [80, 73, 68] text 32
      (by simp) (by simp)
    simpa [psHeader_eq] using h
  have hbuf : List.replicate 128 (0 : UInt8) = [0, 0, 0] ++ 0 :: 0 :: List.replicate 123 0 := rfl
  have hread : strtol 10 ([80, 73, 68] ++ 0 :: 0 :: List.replicate 123 0) = some (0, 0) := by
    generalize List.replicate 123 (0 : UInt8) = rest
    rfl
  have htake : takeField (psHeader blanks text) (List.replicate 128 0) blanks (blanks + 3) =
      some (0, [80, 73, 68] ++ 0 :: 0 :: List.replicate 123 0) := by
    have h := @takeField_eq [80, 73, 68] [0, 0, 0] rfl (List.replicate blanks 32)
      (32 :: text) (List.replicate 123 0) 0 0
    rw [List.append_assoc, List.length_replicate, hread] at h
    rw [psHeader_eq, hbuf]
    exact h
  unfold get_tid
  simp only [hblanks, hword, htake, Option.bind_eq_bind, Option.bind_some]
  rw [if_pos (Ne.symm hpid)]

/-- A thread as `ps` lists it: blanks, the process id, blanks, the thread id and further text. -/
structure PsLine where
  blanks : ℕ
  more : ℕ
  tid : ℕ
  text : Bytes

def PsLine.line (l : PsLine) (pid : ℕ) : Bytes := psLine l.blanks pid l.more l.tid l.text

/-- What `ps -T -p pid` prints. -/
def psOutput (pid blanks : ℕ) (text : Bytes) (lines : List PsLine) : Bytes :=
  (psHeader blanks text :: lines.map fun l => l.line pid).flatMap fun line => line ++ [10]

/-- The lines fit into the buffer, and the ids are numbers that an `int` has. -/
structure Readable (pid blanks : ℕ) (text : Bytes) (lines : List PsLine) : Prop where
  header : IsLine (psHeader blanks text)
  line : ∀ l ∈ lines, IsLine (l.line pid)
  pid_pos : 0 < pid
  pid_lt : pid < 2 ^ 31
  tid_lt : ∀ l ∈ lines, l.tid < 2 ^ 31

/-- No thread id has fewer digits than the process id. -/
def NotShorter (pid : ℕ) (lines : List PsLine) : Prop :=
  ∀ l ∈ lines, (numeral 10 pid).length ≤ (numeral 10 l.tid).length

/-- The lambda appends the ids as long as there is room. -/
theorem foldlM_addTid {pid : ℤ} {lines : List Bytes} {ids : List ℕ}
    (h : List.Forall₂ (fun line id => get_tid pid line = some ((id : ℕ) : ℤ)) lines ids)
    (tid : List ℤ) :
    lines.foldlM (addTid pid) tid =
      some (tid ++ (ids.take (1024 - tid.length)).map ((↑) : ℕ → ℤ)) := by
  induction h generalizing tid with
  | nil => simp
  | @cons line id lines ids hline _ ih =>
    have hid : ((id : ℕ) : ℤ) ≠ -1 := by omega
    have hstep : addTid pid tid line =
        some (if tid.length < 1024 then tid ++ [(id : ℤ)] else tid) := by
      unfold addTid
      simp [hline, hid]
    rw [List.foldlM_cons, hstep, Option.bind_eq_bind, Option.bind_some]
    by_cases hroom : tid.length < 1024
    · obtain ⟨k, hk⟩ : ∃ k, 1024 - tid.length = k + 1 := ⟨1023 - tid.length, by omega⟩
      rw [if_pos hroom, ih, hk]
      have hlen : 1024 - (tid ++ [(id : ℤ)]).length = k := by simp; omega
      rw [hlen]
      simp
    · have hfull : 1024 - tid.length = 0 := by omega
      rw [if_neg hroom, ih, hfull]
      simp

theorem get_tid_psLine {pid blanks : ℕ} {text : Bytes} {lines : List PsLine}
    (h : Readable pid blanks text lines) (hlength : NotShorter pid lines) {l : PsLine}
    (hl : l ∈ lines) :
    get_tid pid (l.line pid ++ [10]) = some ((l.tid : ℕ) : ℤ) := by
  have hline : l.line pid ++ [10] = psLine l.blanks pid l.more l.tid (l.text ++ [10]) := by
    simp [PsLine.line, psLine]
  rw [hline, get_tid_line pid l.blanks l.more h.pid_lt (h.tid_lt l hl), if_pos rfl, readBehind,
    if_pos (hlength l hl)]

/-- The ids of the first 1024 threads. -/
theorem listTids_psOutput {pid blanks : ℕ} {text : Bytes} {lines : List PsLine}
    (h : Readable pid blanks text lines) (hlength : NotShorter pid lines) :
    listTids pid (psOutput pid blanks text lines) =
      some (((lines.map PsLine.tid).take 1024).map ((↑) : ℕ → ℤ)) := by
  have hlines : ∀ line ∈ psHeader blanks text :: lines.map fun l => l.line pid, IsLine line := by
    refine List.forall_mem_cons.mpr ⟨h.header, fun line hline => ?_⟩
    obtain ⟨l, hl, rfl⟩ := List.mem_map.mp hline
    exact h.line l hl
  have hheader : addTid pid [] (psHeader blanks text ++ [10]) = some [] := by
    have hpid : (pid : ℤ) ≠ 0 := by exact_mod_cast h.pid_pos.ne'
    have hget := get_tid_psHeader hpid blanks (text ++ [10])
    have htext : psHeader blanks text ++ [10] = psHeader blanks (text ++ [10]) := by
      simp [psHeader]
    unfold addTid
    rw [htext, hget]
    rfl
  have hrest : List.Forall₂ (fun line id => get_tid pid line = some ((id : ℕ) : ℤ))
      (lines.map fun l => l.line pid ++ [10]) (lines.map PsLine.tid) := by
    rw [List.forall₂_map_left_iff, List.forall₂_map_right_iff, List.forall₂_same]
    exact fun l hl => get_tid_psLine h hlength hl
  have hfold := foldlM_addTid hrest []
  unfold listTids psOutput
  rw [exec2_lines hlines, List.map_cons, List.foldlM_cons, hheader, List.map_map]
  simpa [Function.comp_def] using hfold

/-- The ids that are signalled are those of the other threads, as far as there is room. -/
theorem othersOf_perm {pid blanks : ℕ} {text : Bytes} {lines : List PsLine}
    (h : Readable pid blanks text lines) (hlength : NotShorter pid lines)
    (hnodup : (lines.map PsLine.tid).Nodup) (myid : ℤ) :
    ∃ ids, othersOf pid myid (psOutput pid blanks text lines) = some ids ∧
      ids.Perm ((((lines.map PsLine.tid).take 1024).map ((↑) : ℕ → ℤ)).erase myid) := by
  have hids : (((lines.map PsLine.tid).take 1024).map ((↑) : ℕ → ℤ)).Nodup :=
    ((hnodup.sublist (List.take_sublist 1024 _))).map Nat.cast_injective
  refine ⟨_, ?_, removeOwn_perm hids⟩
  unfold othersOf
  rw [listTids_psOutput h hlength]
  rfl

/-- Two threads of the process 4711. -/
def twoThreads : List PsLine := [⟨3, 3, 4711, ascii "a.out"⟩, ⟨3, 3, 4712, ascii "a.out"⟩]

theorem othersOf_perm_two :
    ∃ ids, othersOf 4711 4711 (psOutput 4711 4 (ascii "SPID CMD") twoThreads) = some ids ∧
      ids.Perm [4712] := by
  have hline : ∀ l ∈ twoThreads, IsLine (l.line 4711) := by
    intro l hl
    simp only [twoThreads, List.mem_cons, List.not_mem_nil, or_false] at hl
    obtain rfl | rfl := hl
    · exact ⟨by decide +kernel, by decide +kernel, by decide +kernel⟩
    · exact ⟨by decide +kernel, by decide +kernel, by decide +kernel⟩
  have hreadable : Readable 4711 4 (ascii "SPID CMD") twoThreads :=
    ⟨⟨by decide, by decide, by decide⟩, hline, by decide, by decide, by decide⟩
  have hlength : NotShorter 4711 twoThreads := by
    unfold NotShorter
    decide +kernel
  exact othersOf_perm hreadable hlength (by decide) 4711

end StackTrace.ActiveThreads
