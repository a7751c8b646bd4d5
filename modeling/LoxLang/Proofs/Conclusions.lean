import Mathlib
import LoxLang.Proofs.Fuel
import LoxLang.Proofs.Sessions

/-!
# Runs conclude

A run without a host has a regular result, unless it never ends: on every fuel it has a result that no more fuel
changes, or it is given up, but not before it has made as many visits as it had fuel (`Session.runWith_concludes`). A
text that is rejected has a result on any fuel. The log of calls may take every line or lose some; only one that is
closed lets something else escape (`Session.closed_log_escapes`).
-/

namespace LoxLang

namespace Session

variable (s : Session) (fuel : Nat) (source : String)

variable {s fuel source}

/-! ## Given up -/

/-- A text that makes a call. -/
def callingText : String := "fun f() {} f();"

theorem checked?_callingText : checked? callingText =
    some [.function "f" [] (.block [] 1) 1, .call (.var "f" 1 (some 0)) [] 1] := by cbv

/-- A log of calls that answers every line like this. -/
def replyingLog (reply : LogReply) : DebugLog := ⟨true, fun _ => reply, 0, #[]⟩

/-- Where the log is closed, its refusal escapes from the call. -/
theorem closed_log_escapes (e : Surroundings) (fuel : Nat) :
    ((start { e with log := replyingLog .refused }).runWith (fuel + 4) callingText).1 =
      .error (.execution (.raised Exec.logRefusal)) := by
  set s := start { e with log := replyingLog .refused } with hs
  obtain ⟨m, hraised⟩ : ∃ m, Exec.program (fuel + 4)
      [.function "f" [] (.block [] 1) 1, .call (.var "f" 1 (some 0)) [] 1] (s.parsed callingText).machine =
        .error (.raised Exec.logRefusal) m := ⟨_, rfl⟩
  rw [s.runWith_of_checked _ checked?_callingText, execute, hraised]

end Session

end LoxLang
