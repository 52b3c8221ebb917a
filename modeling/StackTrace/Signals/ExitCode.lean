import StackTrace.Signals.Dispositions
import StackTrace.Symbols.Exec

/-!
# The exit code of a command

`Utilities.hpp`, lines 18–44, and `Utilities.cpp`, lines 333–339. `exec2` ignores `SIGCHLD`
while the command runs. A child that is started in this time leaves no status behind: the
wait of `pclose` fails with `ECHILD`, and `exec2` takes this for success.

* `exec_code_iff`: the code is the status of the command if and only if the status is 0.
* `exec_output_iff`: `exec` returns the output of the command, less what follows a NUL up to
  the end of its line or buffer.
-/

namespace StackTrace.ExitCode

open Dispositions

/-! ## The system -/

/-- What the calls below read and change. -/
structure System where
  errno : ℤ
  sigchld : Disposition

def ECHILD : ℤ := 10

/-- A command that runs: what it writes, and the status with which it terminates. -/
structure Command where
  output : Bytes
  status : ℤ

/-- The stream of `popen`, and whether its child was started while `SIGCHLD` was ignored. -/
structure Pipe where
  command : Command
  ignored : Bool

/-- `signal( SIGCHLD, x )`: the disposition until now. -/
def signal (x : Disposition) (sys : System) : Disposition × System :=
  (sys.sigchld, { sys with sigchld := x })

/-- `popen`; where it fails, it has no stream and an error. -/
def popen (cmd : Except ℤ Command) (sys : System) : Option Pipe × System :=
  match cmd with
  | .ok command => (some ⟨command, sys.sigchld = .SIG_IGN⟩, sys)
  | .error e => (none, { sys with errno := e })

/-- `pclose`: there is no status to wait for if the child has been started while `SIGCHLD`
    was ignored. -/
def pclose (pipe : Pipe) (sys : System) : ℤ × System :=
  if pipe.ignored then (-1, { sys with errno := ECHILD }) else (pipe.command.status, sys)

/-! ## Model -/

variable {σ : Type*}

/-- Lines 31–35. -/
def checkErrno (code : ℤ) (sys : System) : ℤ × System :=
  if sys.errno = ECHILD then (0, { sys with errno := 0 }) else (code, sys)

/-- `exec2( cmd, fun )` (lines 18–44): its code, and what it leaves. `call` is the call of
    `fun`, which has a state of its own and may change the system too. -/
def exec2 (call : Bytes → σ × System → σ × System) (cmd : Except ℤ Command) (s : σ)
    (sys : System) : ℤ × σ × System :=
  let (sig, sys) := signal .SIG_IGN sys
  match popen cmd sys with
  | (none, sys) => (-1, s, sys)
  | (some pipe, sys) =>
    let (s, sys) := (StackTrace.exec2 pipe.command.output).foldl (fun st line => call line st)
      (s, sys)
    let (code, sys) := pclose pipe sys
    let (code, sys) := checkErrno code sys
    (code, s, (signal sig sys).2)

/-- `exec( cmd, code )` (`Utilities.cpp`, lines 333–339): the result and the code. -/
def exec (cmd : Except ℤ Command) (sys : System) : Bytes × ℤ :=
  let (code, result, _) :=
    exec2 (fun line (result, sys) => (result ++ line, sys)) cmd ([] : Bytes) sys
  (result, code)

/-! ## Main result -/

/-- The child of `exec2` is started while `SIGCHLD` is ignored. -/
theorem popen_signal (command : Command) (sys : System) :
    popen (.ok command) (signal .SIG_IGN sys).2 =
      (some ⟨command, true⟩, (signal .SIG_IGN sys).2) := rfl

/-- No status is reported, whatever `errno` was. -/
theorem checkErrno_pclose (command : Command) (sys : System) :
    checkErrno (pclose ⟨command, true⟩ sys).1 (pclose ⟨command, true⟩ sys).2 =
      (0, { sys with errno := 0 }) := by
  show checkErrno (-1) { sys with errno := ECHILD } = _
  unfold checkErrno
  rw [if_pos rfl]

theorem exec2_code (call : Bytes → σ × System → σ × System) (command : Command) (s : σ)
    (sys : System) : (exec2 call (.ok command) s sys).1 = 0 := by
  have hcode := checkErrno_pclose command
    ((StackTrace.exec2 command.output).foldl (fun st line => call line st)
      (s, (signal .SIG_IGN sys).2)).2
  unfold exec2
  dsimp only
  rw [popen_signal]
  dsimp only
  rw [hcode]

/-- The code of `exec2`, which `exec` stores, is the status of the command if and only if this
    is 0. -/
theorem exec_code_iff (call : Bytes → σ × System → σ × System) (command : Command) (s : σ)
    (sys : System) :
    ((exec2 call (.ok command) s sys).1 = command.status ↔ command.status = 0) ∧
      ((exec (.ok command) sys).2 = command.status ↔ command.status = 0) := by
  have hexec2 := exec2_code call command s sys
  have hexec : (exec (.ok command) sys).2 = 0 :=
    exec2_code (fun line (result, sys) => (result ++ line, sys)) command ([] : Bytes) sys
  rw [hexec2, hexec]
  exact ⟨eq_comm, eq_comm⟩

/-- A command that exits with 1, of which `waitpid` makes 256. -/
theorem exec_fails_unnoticed : (exec (.ok ⟨[], 256⟩) ⟨0, .SIG_DFL⟩).2 ≠ 256 := by
  decide

/-! ## The output -/

/-- The lambda of line 336 puts the lines together. -/
theorem foldl_append (lines : List Bytes) (result : Bytes) (sys : System) :
    lines.foldl (fun (st : Bytes × System) line => (st.1 ++ line, st.2)) (result, sys) =
      (result ++ lines.flatten, sys) := by
  induction lines generalizing result with
  | nil => simp
  | cons line lines ih => rw [List.foldl_cons, ih, List.flatten_cons, List.append_assoc]

theorem exec_fst (command : Command) (sys : System) :
    (exec (.ok command) sys).1 = (fgetsLoop 8191 [] command.output).flatMap cstr := by
  rw [← flatten_exec2]
  show ((StackTrace.exec2 command.output).foldl
    (fun (st : Bytes × System) line => (st.1 ++ line, st.2)) ([], (signal .SIG_IGN sys).2)).1 = _
  rw [foldl_append, List.nil_append]

/-- Whatever a command writes and however long its lines are, `exec` returns it without
    anything added or exchanged, and it returns all of it if and only if there is no NUL. -/
theorem exec_output_iff (command : Command) (sys : System) :
    (exec (.ok command) sys).1.Sublist command.output ∧
      ((exec (.ok command) sys).1 = command.output ↔ 0 ∉ command.output) := by
  have hall : (fgetsLoop 8191 [] command.output).flatten = command.output := by
    rw [flatten_fgetsLoop, List.nil_append]
  rw [exec_fst]
  refine ⟨?_, fun h => ?_, fun hnul => ?_⟩
  · have hsub : ((fgetsLoop 8191 [] command.output).flatMap cstr).Sublist
        ((fgetsLoop 8191 [] command.output).flatMap id) :=
      List.Sublist.flatMap_right _ fun piece _ => (List.takeWhile_prefix _).sublist
    rwa [List.flatMap_id, hall] at hsub
  · rw [← h, List.mem_flatMap]
    rintro ⟨piece, -, hzero⟩
    exact zero_notMem_cstr piece hzero
  · have hpieces : ∀ piece ∈ fgetsLoop 8191 [] command.output, cstr piece = piece := by
      intro piece hpiece
      refine cstr_eq_self fun hzero => hnul ?_
      rw [← hall]
      exact List.mem_flatten.mpr ⟨piece, hpiece, hzero⟩
    rw [List.flatMap_def, List.map_congr_left hpieces, List.map_id', hall]

end StackTrace.ExitCode
