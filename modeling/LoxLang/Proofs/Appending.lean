import Mathlib
import LoxLang.Proofs.Changes
import LoxLang.Proofs.Fuel
import LoxLang.Proofs.WiderScopes
import LoxLang.Session

/-!
# Code behind a program does not change its past

Whatever is appended to a program, the steps in front are resolved as they are alone, and a run of the whole program
begins with the run of those steps. If they return or fail, the run ends with them; otherwise it goes on in the state
that they leave (`appended_run_extends`). A function of the steps in front may mention a name that is declared behind
them: its use has no depth, and finds nothing before that declaration is reached.
-/

namespace LoxLang

/-! ## Effects -/

/-- What was recorded stays recorded, with more behind it. -/
def Machine.Records (m m' : Machine) : Prop := m.effects.toList <+: m'.effects.toList

theorem records_accrues : Accrues fun _ => Machine.Records where
  refl _ := List.prefix_rfl
  trans h h' := h.trans h'
  visit _ _ := List.prefix_rfl
  frame _ _ _ := List.prefix_rfl
  define _ _ _ _ _ := List.prefix_rfl
  heap _ _ _ := List.prefix_rfl
  tick _ := List.prefix_rfl
  ask _ _ _ _ _ := List.prefix_rfl
  log _ _ := List.prefix_rfl
  enter _ _ := List.prefix_rfl
  leave _ := List.prefix_rfl
  assign _ _ _ _ _ _ _ _ _ _ _ _ h _ := h
  emit m message := by
    rw [Machine.Records, Exec.emitted, Array.toList_push]
    exact List.prefix_append _ _

/-! ## Resolution -/

/-- What is resolved in front of other steps is resolved alike without them. -/
theorem resolve_of_append {first second whole : List Node} (h : resolve (first ++ second) = .ok whole) :
    ∃ resolved rest, resolve first = .ok resolved ∧ resolved.length = first.length ∧ whole = resolved ++ rest := by
  unfold resolve at h ⊢
  rw [Node.resolveAll_append, Resolve.run_bind] at h
  cases hrun : (Node.resolveAll false first).run Scopes.initial with
  | error fault => rw [hrun] at h; cases h
  | ok found =>
    obtain ⟨resolved, s⟩ := found
    rw [hrun] at h
    dsimp only at h
    rw [Resolve.run_bind] at h
    cases hrest : (Node.resolveAll false second).run s with
    | error fault => rw [hrest] at h; cases h
    | ok found =>
      obtain ⟨rest, t⟩ := found
      rw [hrest] at h
      cases h
      have hdeclares := resolveAll_declares false first Scopes.initial resolved s hrun
      exact ⟨resolved, rest, rfl, by simpa using congrArg List.length hdeclares, rfl⟩

/-! ## Runs -/

/-- How the run of a whole program stands to the run of its first steps alone; `rest` is the run of the others. -/
structure RunExtends (rest : Machine → EStateM.Result Fault Machine Signal)
    (alone whole : EStateM.Result Fault Machine Signal) : Prop where
  effects : (machineLeft alone).Records (machineLeft whole)
  failed : ∀ fault m, alone = .error fault m → whole = .error fault m
  returned : ∀ signal m, alone = .ok signal m → signal.isReturn = true → whole = .ok signal m
  proceeded : ∀ m, alone = .ok .proceed m → whole = rest m

theorem Exec.program_extends (fuel : Nat) (ns ms : List Node) (m : Machine) :
    RunExtends (Exec.program fuel ms) (Exec.program fuel ns m) (Exec.program fuel (ns ++ ms) m) := by
  have hwhole : Exec.program fuel (ns ++ ms) = (do
      let signal ← Exec.program fuel ns
      if signal.isReturn then pure signal else Exec.program fuel ms) := Evaluator.executeAll_append ..
  rw [hwhole, Exec.bind_apply]
  cases Exec.program fuel ns m with
  | error fault m₁ =>
    exact { effects := List.prefix_rfl, failed := fun _ _ h => h, returned := nofun, proceeded := nofun }
  | ok signal m₁ =>
    dsimp only
    split
    · next hs =>
      refine ⟨List.prefix_rfl, fun _ _ h => ?_, fun _ _ h _ => h, fun m h => ?_⟩
      · cases h
      · cases h
        cases hs
    · next hs =>
      refine ⟨records_accrues.program fuel ms m₁, fun _ _ h => ?_, fun signal m h hr => ?_, fun m h => ?_⟩
      · cases h
      · cases h
        exact absurd hr hs
      · cases h
        rfl

/-- Appending steps to a program changes neither what the steps in front resolve to nor what a run of them does, if it
ends: they run as they do alone, and the others run in the state that they leave. -/
theorem appended_run_extends {first second whole : List Node} (h : resolve (first ++ second) = .ok whole) :
    ∃ resolved rest, resolve first = .ok resolved ∧ resolved.length = first.length ∧ whole = resolved ++ rest ∧
      ∀ (m : Machine) (fuel more : Nat), fuel ≤ more →
        (∀ m', Exec.program fuel resolved m ≠ .error .outOfFuel m') →
          RunExtends (Exec.program more rest) (Exec.program fuel resolved m) (Exec.program more whole m) := by
  obtain ⟨resolved, rest, hfirst, hlength, rfl⟩ := resolve_of_append h
  refine ⟨resolved, rest, hfirst, hlength, rfl, fun m fuel more hle hends => ?_⟩
  rw [← Exec.program_of_le hle hends]
  exact Exec.program_extends more resolved rest m

/-- The steps of `fun f() { return y; } print "past";`, of which the first mentions a name that nothing declares. -/
def pastSteps : List Node :=
  [.function "f" [] (.block [.returnStep (.var "y" 1 none) 1] 1) 1, .print (.literal (.string "past") 2) 2]

/-- The steps of `let y = "later"; print f();`, with the depth of the use of `f`. -/
def laterSteps (depth : Depth) : List Node :=
  [.letDecl "y" (.literal (.string "later") 3) 3, .print (.call (.var "f" 4 depth) [] 4) 4]

/-- The name is still without a depth when it is declared behind the steps; they print before it is. -/
theorem later_declaration_extends :
    resolve pastSteps = .ok pastSteps ∧
    resolve (pastSteps ++ laterSteps none) = .ok (pastSteps ++ laterSteps (some 0)) ∧
    RunExtends (Exec.program 9 (laterSteps (some 0))) (Exec.program 3 pastSteps (Session.initial .none).machine)
      (Exec.program 9 (pastSteps ++ laterSteps (some 0)) (Session.initial .none).machine) ∧
    (machineLeft (Exec.program 3 pastSteps (Session.initial .none).machine)).printed = ["past"] ∧
    (machineLeft (Exec.program 9 (pastSteps ++ laterSteps (some 0)) (Session.initial .none).machine)).printed =
      ["past", "later"] := by
  have hpast : resolve pastSteps = .ok pastSteps := by cbv
  have hwhole : resolve (pastSteps ++ laterSteps none) = .ok (pastSteps ++ laterSteps (some 0)) := by cbv
  obtain ⟨resolved, rest, hresolved, -, hrest, hrun⟩ := appended_run_extends hwhole
  cases hpast.symm.trans hresolved
  cases List.append_cancel_left hrest
  refine ⟨hpast, hwhole, hrun (Session.initial .none).machine 3 9 (by decide) fun m' h => ?_, by cbv, by cbv⟩
  have hends : answer? (Exec.program 3 pastSteps (Session.initial .none).machine) = some .proceed := by cbv
  rw [h] at hends
  cases hends

end LoxLang
