import StackTrace.Tree.Basic

/-!
# Which frames `cleanupStackTrace` wants to keep

`StackTrace.cpp`, lines 2019–2106, 2116–2119 and 2126–2127. The decisions read
the object, the function and the file name as C strings and nothing else.
-/

namespace StackTrace

namespace StackInfo

/-- The entry is one of the frames that acquire a stack (lines 2116–2119). -/
def selfTrace (s : StackInfo) : Bool :=
  let function := s.function.str
  let filename := s.filename.str
  filename = ascii "StackTrace.cpp" ∧
    (contains function (ascii "_callstack_signal_handler") ∨
      contains function (ascii "getGlobalCallStacks") ∨ contains function (ascii "backtrace") ∨
      ¬contains function (ascii "("))

/-- The entry is `fgets` of libc, whose callees are dropped (lines 2126–2127). -/
def libcFgets (s : StackInfo) : Bool :=
  contains s.object.str (ascii "libc.so") ∧ contains s.function.str (ascii "fgets")

/-- `keep` (lines 2019–2106). -/
def keep (info : StackInfo) : Bool :=
  let object := info.object.str
  let function := info.function.str
  let filename := info.filename.str
  if filename = ascii "StackTrace.cpp" ∧ contains function (ascii "backtrace_thread") then false
  -- libc
  else if contains object (ascii "libc.so") ∧ contains function (ascii "__libc_start_main") then
    false
  -- libc++
  else if contains object (ascii "libstdc++") ∧
      contains function (ascii "std::this_thread::__sleep_for(") then false
  -- pthread
  else if contains object (ascii "libpthread") ∧
      (contains function (ascii "__restore_rt") ∧ contains object (ascii "libpthread")) then false
  -- condition_variable
  else if filename = ascii "condition_variable" ∧
      contains function (ascii "std::condition_variable::__wait_until_impl") then false
  -- std::function
  else if filename = ascii "functional" ∧
      (contains function (ascii "std::_Function_handler<") ∨
        contains function (ascii "std::_Bind_simple<") ∨
        contains function (ascii "_M_invoke")) then false
  -- std::thread
  else if filename = ascii "thread" ∧
      (contains function (ascii "std::thread::_Impl<") ∨
        contains function (ascii "std::thread::_Invoker<")) then false
  else if filename = ascii "invoke.h" ∧
      (contains function (ascii "std::__invoke_impl") ∨
        contains function (ascii "std::__invoke_result")) then false
  -- pthread internals
  else if function = ascii "__GI___pthread_timedjoin_ex" then false
  -- MPI internal routines
  else if function = ascii "MPIR_Barrier_impl" ∨ function = ascii "MPIR_Barrier_intra" ∨
      function = ascii "MPIC_Sendrecv" then false
  -- OpenMPI internal routines
  else if function = ascii "opal_libevent2022_event_set_log_callback" ∨
      function = ascii "opal_libevent2022_event_base_loop" then false
  -- MATLAB internal routines
  else if object = ascii "libmwmcr.so" ∨ object = ascii "libmwm_lxe.so" ∨
      object = ascii "libmwbridge.so" ∨ object = ascii "libmwiqm.so" ∨
      object = ascii "libmwm_dispatcher.so" ∨ object = ascii "libmwmvm.so" ∨
      contains object (ascii "libPocoNetSSL.so") then false
  -- shared_ptr
  else if filename = ascii "shared_ptr.h" ∧
      (contains function (ascii "> std::allocate_shared<") ∨
        contains function (ascii "std::_Sp_make_shared_tag,")) then false
  else if filename = ascii "shared_ptr_base.h" then false
  else if filename = ascii "new_allocator.h" then false
  else if filename = ascii "alloc_traits.h" then false
  else if filename = ascii "gthr-default.h" then false
  -- no useful information
  else if function.isEmpty ∧ filename.isEmpty then false
  else true

/-! ## What the decisions depend on -/

theorem selfTrace_congr {a b : StackInfo} (hfunction : a.function.str = b.function.str)
    (hfilename : a.filename.str = b.filename.str) : a.selfTrace = b.selfTrace := by
  unfold selfTrace
  rw [hfunction, hfilename]

theorem libcFgets_congr {a b : StackInfo} (hobject : a.object.str = b.object.str)
    (hfunction : a.function.str = b.function.str) : a.libcFgets = b.libcFgets := by
  rw [libcFgets, libcFgets, hobject, hfunction]

theorem keep_congr {a b : StackInfo} (hobject : a.object.str = b.object.str)
    (hfunction : a.function.str = b.function.str) (hfilename : a.filename.str = b.filename.str) :
    a.keep = b.keep := by
  unfold keep
  rw [hobject, hfunction, hfilename]

/-- Frames that are `operator==` have the same object and function names. -/
def NamesAgree (F : Set StackInfo) : Prop :=
  ∀ a ∈ F, ∀ b ∈ F, a.opEq b = true →
    a.object.str = b.object.str ∧ a.function.str = b.function.str

/-- They have the same file name as well. -/
def TextsAgree (F : Set StackInfo) : Prop :=
  NamesAgree F ∧ ∀ a ∈ F, ∀ b ∈ F, a.opEq b = true → a.filename.str = b.filename.str

/-- `operator==` does not take `fgets` for another function. -/
def FgetsAgree (F : Set StackInfo) : Prop :=
  ∀ a ∈ F, ∀ b ∈ F, a.opEq b = true → a.libcFgets = b.libcFgets

theorem NamesAgree.mono {F G : Set StackInfo} (h : NamesAgree G) (hFG : F ⊆ G) : NamesAgree F :=
  fun a ha b hb => h a (hFG ha) b (hFG hb)

theorem NamesAgree.fgetsAgree {F : Set StackInfo} (h : NamesAgree F) : FgetsAgree F :=
  fun a ha b hb hab => libcFgets_congr (h a ha b hb hab).1 (h a ha b hb hab).2

theorem TextsAgree.selfTrace_eq {F : Set StackInfo} (h : TextsAgree F) {a b : StackInfo}
    (ha : a ∈ F) (hb : b ∈ F) (hab : a.opEq b = true) : a.selfTrace = b.selfTrace :=
  selfTrace_congr (h.1 a ha b hb hab).2 (h.2 a ha b hb hab)

theorem TextsAgree.keep_eq {F : Set StackInfo} (h : TextsAgree F) {a b : StackInfo} (ha : a ∈ F)
    (hb : b ∈ F) (hab : a.opEq b = true) : a.keep = b.keep :=
  keep_congr (h.1 a ha b hb hab).1 (h.1 a ha b hb hab).2 (h.2 a ha b hb hab)

end StackInfo

end StackTrace
