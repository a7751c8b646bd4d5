import LoxLang.Host.Samples
import LoxLang.Proofs.Twins

/-!
# References to closures

The closures that a value names, and what it can have each of them called as. A faithful host invents none: whatever its
replies name, and whatever it remembers, it was handed before (`Host.Faithful`).
-/

namespace LoxLang

/-- What a closure is called as. -/
inductive Role
  | function
  /-- A method has the frame of its receiver around it when it is called. -/
  | method
deriving DecidableEq

namespace Value

mutual

/-- The closures that a value names, and what it can have them called as. -/
def references : Value → List (Role × ClosureId)
  | function _ c => [(.function, c)]
  | .classRef info => info.methods.map fun entry => (.method, entry.2)
  | list items => referencesOf items
  | map entries => referencesOfEntries entries
  | _ => []

def referencesOf : List Value → List (Role × ClosureId)
  | [] => []
  | v :: vs => references v ++ referencesOf vs

def referencesOfEntries : List (String × Value) → List (Role × ClosureId)
  | [] => []
  | (_, v) :: entries => references v ++ referencesOfEntries entries

end

theorem mem_referencesOf {vs : List Value} {r : Role × ClosureId} :
    r ∈ referencesOf vs ↔ ∃ v ∈ vs, r ∈ v.references := by
  induction vs with
  | nil => simp [referencesOf]
  | cons v vs ih => simp [referencesOf, ih]

theorem IsLiteral.references_eq {v : Value} (h : v.IsLiteral) : v.references = [] := by
  cases v with
  | nil | bool | number | string => rfl
  | _ => exact h.elim

end Value

/-! ## Hosts -/

/-- The closures that a reply names. -/
def HostReply.references : HostReply → List (Role × ClosureId)
  | .value v => v.references
  | _ => []

/-- A host has no closures but those that it was handed: it names no others in its replies, and remembers no others. -/
structure Host.Faithful (h : Host) : Prop where
  reply : ∀ call memory, (h.respond call memory).1.references ⊆
    Value.referencesOf call.arguments ++ Value.referencesOf memory.kept
  memory : ∀ call memory, Value.referencesOf (h.respond call memory).2.kept ⊆
    Value.referencesOf call.arguments ++ Value.referencesOf memory.kept

/-- A faithful host that brings no closures along. -/
structure Host.Honest (h : Host) : Prop where
  faithful : h.Faithful
  fresh : Value.referencesOf h.memory.kept = []

theorem Host.game_honest : game.Honest := by
  refine ⟨⟨fun call memory r hr => ?_, fun call memory r hr => ?_⟩, rfl⟩
  · -- numbers and texts name nothing, and what the others reply was an argument or kept
    change r ∈ (gameReply call memory).1.references at hr
    unfold gameReply at hr
    split at hr
    · split at hr <;> cases hr
    · cases hr
    · refine List.mem_append_right _ ?_
      obtain ⟨v, hv, hr⟩ := Value.mem_referencesOf.mp hr
      exact Value.mem_referencesOf.mpr ⟨v, List.mem_reverse.mp hv, hr⟩
    · cases hr
    · cases hr
    · cases hr
    · next v _ hargs => exact List.mem_append_left _ (hargs ▸ List.mem_append_left _ hr)
    · next items _ hargs => exact List.mem_append_left _ hr
    · cases hr
    · cases hr
    · cases hr
  · change r ∈ Value.referencesOf (gameReply call memory).2.kept at hr
    unfold gameReply at hr
    split at hr
    · split at hr <;> exact List.mem_append_right _ hr
    · next v _ hargs =>
      obtain hr | hr := List.mem_append.mp hr
      · exact List.mem_append_left _ (hargs ▸ List.mem_append_left _ hr)
      · exact List.mem_append_right _ hr
    all_goals exact List.mem_append_right _ hr

end LoxLang
