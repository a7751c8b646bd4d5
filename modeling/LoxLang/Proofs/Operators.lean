import LoxLang.Proofs.World
import LoxLang.Value.Arithmetic

/-!
# Operators on sound values

An operator with sound operands answers with a sound value, which names no closure at all. Where no host ever lent a
function, no number is out of range, since no program builds integers, and the cause of a missing answer can be written.
-/

namespace LoxLang

/-- The answer of an operator in a program. -/
def AnswerSound (w : World) : Except OperatorFault Value → Prop
  | .ok v => ValueSound w v
  | .error (.cause cause) => w.lent = [] → cause.hasText = true
  | .error .outOfRange => w.lent ≠ []

/-! ## Answers name no closures -/

namespace Value

@[simp] theorem references_toValue (n : Numeral) : n.toValue.references = [] := by
  cases n <;> rfl

theorem equality_ok {wanted : Bool} {a b v : Value} (h : equality wanted a b = .ok v) : v.references = [] := by
  unfold equality at h
  split at h
  · cases h; rfl
  · cases h

theorem onNumbers_ok {cause : Value → Value → RuntimeCause} {f : Numeral → Numeral → Except OperatorFault Value}
    {a b v : Value} (hf : ∀ m n, f m n = .ok v → v.references = []) (h : onNumbers cause f a b = .ok v) :
    v.references = [] := by
  unfold onNumbers at h
  split at h
  · exact hf _ _ h
  · cases h

theorem ordered_ok {holds : Ordering → Bool} {a b v : Value} (h : ordered holds a b = .ok v) : v.references = [] :=
  onNumbers_ok (fun _ _ h => by cases h; rfl) h

theorem arithmetic_ok {cause : Value → Value → RuntimeCause} {f : Numeral → Numeral → Option Numeral} {a b v : Value}
    (h : arithmetic cause f a b = .ok v) : v.references = [] := by
  refine onNumbers_ok (fun m n h => ?_) h
  split at h
  · cases h; exact references_toValue _
  · cases h

theorem sum_ok {a b v : Value} (h : sum a b = .ok v) : v.references = [] := by
  unfold sum at h
  split at h
  · cases h; rfl
  · exact arithmetic_ok h

theorem binary_ok {op : BinaryOp} {a b v : Value} (h : binary op a b = .ok v) : v.references = [] := by
  cases op with
  | equal | notEqual => exact equality_ok h
  | greater | greaterEqual | less | lessEqual => exact ordered_ok h
  | add => exact sum_ok h
  | subtract | multiply | divide => exact arithmetic_ok h
  | other symbol => cases h

theorem unary_ok {op : UnaryOp} {a v : Value} (h : unary op a = .ok v) : v.references = [] := by
  have hnegation (h : negation a = .ok v) : v.references = [] := by
    unfold negation at h
    split at h
    · cases h
    · split at h
      · cases h; exact references_toValue _
      · cases h
  cases op with
  | not => cases h; rfl
  | negate | other => exact hnegation h

end Value

/-- Where a function was lent, an answer only has to name no closure. -/
theorem AnswerSound.of_lent {w : World} (hl : w.lent ≠ []) {answer : Except OperatorFault Value}
    (h : ∀ v, answer = .ok v → v.references = []) : AnswerSound w answer := by
  cases answer with
  | ok v => exact ⟨fun hnone => absurd hnone hl, h v rfl ▸ nofun⟩
  | error fault =>
    cases fault with
    | cause => exact fun hnone => absurd hnone hl
    | outOfRange => exact hl

namespace ValueSound

variable {w : World} {a b : Value}

/-! ## Operands that programs build -/

section Quiet

variable (hl : w.lent = []) (ha : ValueSound w a)
include hl ha

/-- The numbers among sound values are doubles. -/
theorem numeral? : a.numeral? = none ∨ ∃ x, a.numeral? = some (.number x) := by
  cases a with
  | integer => exact (ha.plain hl).elim
  | number x => exact .inr ⟨x, rfl⟩
  | _ => exact .inl rfl

theorem negation : AnswerSound w (Value.negation a) := by
  unfold Value.negation
  split
  · exact fun _ => rfl
  · obtain h | ⟨x, h⟩ := ha.numeral? hl
    · rw [h]
      intro _
      simp [RuntimeCause.hasText, RuntimeCause.values, Value.haveText, (ha.plain hl).hasText]
    · rw [h]
      exact .of_plain trivial rfl

variable (hb : ValueSound w b)
include hb

theorem hasText_two : Value.haveText [a, b] = true := by
  simp [Value.haveText, (ha.plain hl).hasText, (hb.plain hl).hasText]

theorem onNumbers {cause : Value → Value → RuntimeCause} {f : Numeral → Numeral → Except OperatorFault Value}
    (hc : (cause a b).values = [a, b]) (hf : ∀ x y, AnswerSound w (f (.number x) (.number y))) :
    AnswerSound w (Value.onNumbers cause f a b) := by
  have fails : w.lent = [] → (cause a b).hasText = true := fun _ => by
    rw [RuntimeCause.hasText, hc]
    exact ha.hasText_two hl hb
  unfold Value.onNumbers
  obtain h | ⟨x, h⟩ := ha.numeral? hl <;> obtain h' | ⟨y, h'⟩ := hb.numeral? hl <;> rw [h, h']
  · exact fails
  · exact fails
  · exact fails
  · exact hf x y

theorem arithmetic {cause : Value → Value → RuntimeCause} {f : Numeral → Numeral → Option Numeral}
    (hc : (cause a b).values = [a, b]) (hf : ∀ x y, ∃ z, f (.number x) (.number y) = some (.number z)) :
    AnswerSound w (Value.arithmetic cause f a b) :=
  ha.onNumbers hl hb hc fun x y => by
    obtain ⟨z, hz⟩ := hf x y
    rw [hz]
    exact .of_plain trivial rfl

theorem ordered (holds : Ordering → Bool) : AnswerSound w (Value.ordered holds a b) :=
  ha.onNumbers hl hb rfl fun _ _ => .of_plain trivial rfl

theorem equality (wanted : Bool) : AnswerSound w (Value.equality wanted a b) := by
  unfold Value.equality
  cases Value.equal? a b with
  | some same => exact .of_plain trivial rfl
  | none => exact fun _ => ha.hasText_two hl hb

theorem sum : AnswerSound w (Value.sum a b) := by
  unfold Value.sum
  split
  · exact .of_plain trivial rfl
  · exact ha.arithmetic hl hb rfl fun x y => ⟨x + y, rfl⟩

end Quiet

/-! ## All operands -/

theorem binary (ha : ValueSound w a) (hb : ValueSound w b) (op : BinaryOp) : AnswerSound w (Value.binary op a b) := by
  by_cases hl : w.lent = []
  · cases op with
    | equal => exact ha.equality hl hb true
    | notEqual => exact ha.equality hl hb false
    | greater | greaterEqual | less | lessEqual => exact ha.ordered hl hb _
    | add => exact ha.sum hl hb
    | subtract => exact ha.arithmetic hl hb rfl fun x y => ⟨x - y, rfl⟩
    | multiply => exact ha.arithmetic hl hb rfl fun x y => ⟨x * y, rfl⟩
    | divide => exact ha.arithmetic hl hb rfl fun x y => ⟨x / y, rfl⟩
    | other symbol => exact fun _ => rfl
  · exact .of_lent hl fun v hv => Value.binary_ok hv

theorem unary (ha : ValueSound w a) (op : UnaryOp) : AnswerSound w (Value.unary op a) := by
  by_cases hl : w.lent = []
  · cases op with
    | not => exact .of_plain trivial rfl
    | negate | other => exact ha.negation hl
  · exact .of_lent hl fun v hv => Value.unary_ok hv

end ValueSound

end LoxLang
