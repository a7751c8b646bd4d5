import Mathlib
import LoxLang.Host.Samples
import LoxLang.Proofs.ActiveCalls
import LoxLang.Proofs.Events

/-!
# The stack trace of a failed run

A successful run leaves no call active, and one that fails shows the calls that it entered and that did not return
(`stack_accounts_for_calls`). Only of a stack that overflowed it shows less, its outermost calls
(`overflow_hides_a_call`).
-/

namespace LoxLang

open Exec

/-! ## Calls that are not entered -/

section NotEntered

variable {fuel : Nat} {scope : FrameId} {callee : Node} {arguments : List Node} {line : Line} {m m₁ m₂ : Machine}
  {f : Value} {fault : Fault} (hf : (Evaluator.ofFuel fuel).evaluate scope callee m = .ok f m₁)
include hf

theorem evaluate_call_of_callee :
    (Evaluator.ofFuel (fuel + 1)).evaluate scope (.call callee arguments line) m =
      (checkCallable f arguments.length line >>= fun name =>
        (Evaluator.ofFuel fuel).evaluateAll scope arguments >>= fun values =>
          (Evaluator.ofFuel fuel).call name f values line) m₁ := by
  show Evaluator.evaluateNode _ scope (.call callee arguments line) m = _
  rw [Evaluator.evaluateNode, bind_apply, hf]

/-- The callee is looked at with the stack as it was. -/
theorem activations_of_checkCallable {received : Nat}
    (hc : machineLeft (checkCallable f received line m₁) = m₂) : m₂.activations = m.activations := by
  have hcheck := Quiet.elementary.checkCallable f received line m₁
  rw [hc] at hcheck
  exact hcheck.trans (((CallLogs.ofFuel_accounts fuel).evaluate scope callee).ok hf).1

/-- A call that is refused is not entered, and its arguments are not evaluated. -/
theorem evaluate_call_refused (hc : checkCallable f arguments.length line m₁ = .error fault m₂) :
    (Evaluator.ofFuel (fuel + 1)).evaluate scope (.call callee arguments line) m = .error fault m₂ ∧
      m₂.activations = m.activations := by
  refine ⟨?_, activations_of_checkCallable hf (congrArg machineLeft hc)⟩
  rw [evaluate_call_of_callee hf, bind_apply, hc]

/-- A call is not entered before all its arguments have a value. -/
theorem evaluate_call_without_arguments {name : String}
    (hc : checkCallable f arguments.length line m₁ = .ok name m₂) {m₃ : Machine}
    (ha : (Evaluator.ofFuel fuel).evaluateAll scope arguments m₂ = .error fault m₃) :
    (Evaluator.ofFuel (fuel + 1)).evaluate scope (.call callee arguments line) m = .error fault m₃ ∧
      m₃.activations.toList = m.activations.toList ++
        unreturned (CallLogs.evaluateAll (Evaluator.ofFuel fuel) (CallLogs.ofFuel fuel) scope arguments m₂) := by
  constructor
  · rw [evaluate_call_of_callee hf, bind_apply, hc]
    dsimp only
    rw [bind_apply, ha]
  · rw [← activations_of_checkCallable hf (congrArg machineLeft hc)]
    exact ((CallLogs.ofFuel_accounts fuel).evaluateAll scope arguments).error ha

end NotEntered

/-! ## Runs -/

def Fault.isOverflow : Fault → Bool
  | overflow => true
  | _ => false

/-- A failure whose message shows these calls as active. -/
def RunResult.Shows (result : RunResult) (source : String) (calls : List Activation) : Prop :=
  result.message? = some (Report.message source result.diagnostics calls)

instance (result : RunResult) (source : String) (calls : List Activation) : Decidable (result.Shows source calls) :=
  inferInstanceAs (Decidable (_ = _))

namespace Session

/-- The calls that a run enters: there are none unless its text passes every check. -/
def callsOf (s : Session) (r : Run) : List CallRecord :=
  match checked? r.source with
  | some steps =>
    CallLogs.executeAll (Evaluator.ofFuel r.fuel) (CallLogs.ofFuel r.fuel) Store.root steps (s.parsed r.source).machine
  | none => []

/-- Whether a run ends because the stack overflows. -/
def overflows (s : Session) (r : Run) : Bool :=
  match checked? r.source with
  | some steps =>
    match Exec.program r.fuel steps (s.parsed r.source).machine with
    | .error fault _ => fault.isOverflow
    | .ok .. => false
  | none => false

/-- The calls that were active when a run ended; of an overflowing stack, as many of them as are kept. -/
def callsLeft (s : Session) (r : Run) : List Activation :=
  if s.overflows r then (unreturned (s.callsOf r)).take keptCalls else unreturned (s.callsOf r)

/-- What the result of a run and the stack behind it tell of its calls. -/
def Recounts (s : Session) (r : Run) (result : RunResult) : Prop :=
  match result.outcome with
  | .success _ => (s.after r).machine.activations = #[] ∧ ∀ c ∈ s.callsOf r, c.returned
  | .failure .. => (s.after r).machine.activations.toList = s.callsLeft r ∧ result.Shows r.source (s.callsLeft r)

variable {s : Session} {r : Run} {result : RunResult} (h : (s.runWith r.fuel r.source).1 = .ok result)

include h in
theorem recounts_of_rejected (hc : checked? r.source = none) : s.Recounts r result := by
  obtain ⟨effects, first, others, -, hrun⟩ := s.runWith_fails r.fuel hc
  have hleft : s.callsLeft r = [] := by
    rw [callsLeft, callsOf, hc]
    simp [unreturned]
  rw [hrun] at h
  cases h
  rw [Recounts, after, hrun, hleft]
  exact ⟨rfl, rfl⟩

section Checked

variable {steps : List Node} (hc : checked? r.source = some steps)
include hc

theorem callsOf_of_ok {signal : Signal} {m : Machine}
    (hx : Exec.program r.fuel steps (s.parsed r.source).machine = .ok signal m) :
    m.activations = #[] ∧ ∀ c ∈ s.callsOf r, c.returned := by
  rw [callsOf, hc]
  exact ((CallLogs.ofFuel_accounts r.fuel).executeAll Store.root steps).ok hx

/-- The calls that have not returned are those on the stack. -/
theorem unreturned_callsOf : unreturned (s.callsOf r) =
    (machineLeft (Exec.program r.fuel steps (s.parsed r.source).machine)).activations.toList := by
  have haccounts := (CallLogs.ofFuel_accounts r.fuel).executeAll Store.root steps
  cases hx : Exec.program r.fuel steps (s.parsed r.source).machine with
  | ok signal m =>
    obtain ⟨hstack, hreturned⟩ := callsOf_of_ok hc hx
    rw [unreturned_eq_nil hreturned, machineLeft, hstack]
  | error fault m =>
    rw [callsOf, hc, machineLeft, haccounts.error hx]
    exact (List.nil_append _).symm

/-- The calls left are those on the stack, or the outermost of them. -/
theorem callsLeft_of_error {fault : Fault} {m : Machine}
    (hx : Exec.program r.fuel steps (s.parsed r.source).machine = .error fault m) :
    s.callsLeft r = if fault.isOverflow then m.activations.toList.take keptCalls else m.activations.toList := by
  have hoverflows : s.overflows r = fault.isOverflow := by
    rw [overflows, hc]
    dsimp only
    rw [hx]
  rw [callsLeft, hoverflows, unreturned_callsOf hc, hx, machineLeft]

include h

theorem recounts_of_checked : s.Recounts r result := by
  have hafter : s.after r = ((s.parsed r.source).execute r.fuel r.source steps).2 := by
    rw [after, s.runWith_of_checked r.fuel hc]
  rw [s.runWith_of_checked r.fuel hc] at h
  cases hx : Exec.program r.fuel steps (s.parsed r.source).machine with
  | ok signal m =>
    obtain ⟨hstack, hreturned⟩ := callsOf_of_ok hc hx
    rw [execute, hx] at h hafter
    cases h
    refine ⟨?_, hreturned⟩
    rw [hafter]
    exact hstack
  | error fault m =>
    have hcalls := callsLeft_of_error hc hx
    rw [execute, hx] at h hafter
    cases fault with
    | runtime line cause =>
      have hshown := failInCalls_of_ok _ h
      dsimp only at h hafter
      rw [hshown] at h hafter
      cases h
      rw [Recounts, hafter, hcalls]
      exact ⟨rfl, rfl⟩
    | overflow =>
      have hshown := failInCalls_of_ok _ h
      dsimp only at h hafter
      rw [hshown] at h hafter
      cases h
      rw [Recounts, hafter, hcalls]
      have hkept : (m.activations.take keptCalls).toList = m.activations.toList.take keptCalls := by simp
      exact ⟨hkept, congrArg (fun calls => some (Report.message r.source _ calls)) hkept⟩
    | _ => cases h

end Checked

end Session

/-- Whatever is evaluated, executed or called leaves the stack as it was if it has a result; if not, it leaves on top of
it the calls that were entered and did not return. -/
theorem stack_accounts_for_calls (fuel : Nat) :
    (∀ scope n, Accounts ((Evaluator.ofFuel fuel).evaluate scope n) ((CallLogs.ofFuel fuel).evaluate scope n)) ∧
    (∀ scope n, Accounts ((Evaluator.ofFuel fuel).execute scope n) ((CallLogs.ofFuel fuel).execute scope n)) ∧
    (∀ scope ns, Accounts ((Evaluator.ofFuel fuel).executeAll scope ns)
      (CallLogs.executeAll (Evaluator.ofFuel fuel) (CallLogs.ofFuel fuel) scope ns)) ∧
    (∀ callee arguments line, Accounts ((Evaluator.ofFuel fuel).call (calledName callee) callee arguments line)
      (CallLogs.call (Evaluator.ofFuel fuel) (CallLogs.ofFuel fuel) callee arguments line)) ∧
    (∀ (scope : FrameId) callee arguments line m f m₁,
      (Evaluator.ofFuel fuel).evaluate scope callee m = .ok f m₁ →
        (∀ fault m₂, checkCallable f arguments.length line m₁ = .error fault m₂ →
          (Evaluator.ofFuel (fuel + 1)).evaluate scope (.call callee arguments line) m = .error fault m₂ ∧
            m₂.activations = m.activations) ∧
        ∀ name m₂ fault m₃, checkCallable f arguments.length line m₁ = .ok name m₂ →
          (Evaluator.ofFuel fuel).evaluateAll scope arguments m₂ = .error fault m₃ →
          (Evaluator.ofFuel (fuel + 1)).evaluate scope (.call callee arguments line) m = .error fault m₃ ∧
            m₃.activations.toList = m.activations.toList ++
              unreturned (CallLogs.evaluateAll (Evaluator.ofFuel fuel) (CallLogs.ofFuel fuel) scope arguments m₂)) ∧
    ∀ (s : Session) source result, (s.runWith fuel source).1 = .ok result → s.Recounts ⟨fuel, source⟩ result := by
  have h := CallLogs.ofFuel_accounts fuel
  refine ⟨h.evaluate, h.execute, h.executeAll, fun callee arguments line => .call (h.apply callee arguments line),
    fun scope callee arguments line m f m₁ hf => ⟨fun fault m₂ hc => evaluate_call_refused hf hc,
      fun name m₂ fault m₃ hc ha => evaluate_call_without_arguments hf hc ha⟩, fun s source result hr => ?_⟩
  cases hc : checked? source with
  | none => exact Session.recounts_of_rejected (r := ⟨fuel, source⟩) hr hc
  | some steps => exact Session.recounts_of_checked (r := ⟨fuel, source⟩) hr hc

/-! ### Two runs -/

/-- A text that fails inside two calls. -/
def nestedText : String := "fun inner(x) { return x + nil; }\nfun outer(y) { return inner(y); }\nouter(true);"

theorem nestedText_fails :
    ∃ result, ((Session.start {}).runWith 20 nestedText).1 = .ok result ∧
      result.status = Report.failedStatus :=
  exists_ok_of_any (by decide +kernel)

theorem nestedText_callsLeft : ((Session.start {}).callsLeft ⟨20, nestedText⟩).map
    Report.activation = ["(outer true)", "(inner true)"] := by
  decide +kernel

/-- A run that shows the two calls in which it failed, and a call that is refused. -/
theorem nestedText_shows_calls :
    (∃ result, ((Session.start {}).runWith 20 nestedText).1 = .ok result ∧
      result.Shows nestedText ((Session.start {}).callsLeft ⟨20, nestedText⟩)) ∧
    ((Session.start {}).callsLeft ⟨20, nestedText⟩).map Report.activation =
      ["(outer true)", "(inner true)"] ∧
    ∃ fault m, (Evaluator.ofFuel 21).evaluate Store.root (.call (.literal .nil 1) [] 1) (Machine.initial .none) =
      .error fault m ∧ m.activations = #[] := by
  refine ⟨?_, nestedText_callsLeft, ?_⟩
  · obtain ⟨result, hr, hfailed⟩ := nestedText_fails
    have hcalls := (stack_accounts_for_calls 20).2.2.2.2.2 _ _ _ hr
    refine ⟨result, hr, ?_⟩
    obtain ⟨outcome, effects⟩ := result
    cases outcome with
    | success value => exact absurd (show Report.successStatus = Report.failedStatus from hfailed) (by decide)
    | failure => exact hcalls.2
  · have hrefused := (stack_accounts_for_calls 20).2.2.2.2.1 Store.root (.literal .nil 1) [] 1 (Machine.initial .none)
      .nil _ rfl
    exact ⟨_, _, hrefused.1 _ _ rfl⟩

/-- A text that overflows the stack, with a host's help, inside nine calls. -/
def deepText : String :=
  "fun a() { overflow(); }\nfun b() { a(); }\nfun c() { b(); }\nfun d() { c(); }\nfun e() { d(); }\n" ++
    "fun f() { e(); }\nfun g() { f(); }\nfun h() { g(); }\nh();"

/-- The text passes every check. -/
theorem checked?_deepText : checked? deepText = some ((checked? deepText).getD []) := by
  have hsome : (checked? deepText).isSome = true := by decide +kernel
  obtain ⟨steps, hc⟩ := Option.isSome_iff_exists.mp hsome
  rw [hc, Option.getD_some]

/-- A new session with a host that can exhaust the stack. -/
def Session.exhaustible : Session := (start {}).setHost (some Host.failing)

/-- What its host lends. -/
def exhaustibleTable : Table Value :=
  [("boom", .native "boom" 0 (.host 0)), ("fail_with", .native "fail_with" 1 (.host 0)),
    ("lox_fail", .native "lox_fail" 1 (.host 0)), ("lox_fail_far", .native "lox_fail_far" 0 (.host 0)),
    ("overflow", .native "overflow" 0 (.host 0)), ("parse_fail", .native "parse_fail" 0 (.host 0))]

theorem toLend_exhaustible : Session.exhaustible.toLend = exhaustibleTable := by cbv

/-- Nine calls are active when the stack overflows, and the trace leaves one of them out. -/
theorem overflow_hides_a_call :
    ∃ result, (Session.exhaustible.runWith 40 deepText).1 = .ok result ∧
      (unreturned (Session.exhaustible.callsOf ⟨40, deepText⟩)).length = 9 ∧
      ¬ result.Shows deepText (unreturned (Session.exhaustible.callsOf ⟨40, deepText⟩)) := by
  have hbegun := Session.exhaustible.begun_eq
  rw [toLend_exhaustible] at hbegun
  rw [Session.unreturned_callsOf (r := ⟨40, deepText⟩) checked?_deepText,
    Session.runWith_of_checked _ _ checked?_deepText, Session.parsed, Session.scanned, hbegun]
  exact exists_ok_of_any (by decide +kernel)

end LoxLang
