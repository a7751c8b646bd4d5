import LoxLang.Proofs.Fuel
import LoxLang.Proofs.SkewedRuns

/-!
# Loops run directly

A `for` statement can be run as it reads: one frame holds what the initializer declares, and in this frame the rounds
go on while the condition holds (`Evaluator.executeFor`). The tree that stands for the statement has a block around
each round with an increment, so that it makes a frame more for each of them (`Evaluator.executeApart`). A run of the
tree and one of the loop with these frames settle each other (`desugared_settles`, `settles_desugared`): the one ends
like the other, if there is fuel enough.
-/

namespace LoxLang

open Exec Evaluator

/-! ## Loops -/

/-- The parts of a `for` statement. Each of its clauses may be left out. -/
structure ForLoop where
  initializer : Option Node
  condition : Option Node
  increment : Option Node
  body : Node

namespace ForLoop

/-- The tree that stands for the statement. -/
def desugared (loop : ForLoop) (line : Line) : Node :=
  Node.forLoop loop.initializer loop.condition loop.increment loop.body line

/-- The body of the `while` loop in it. -/
def round (loop : ForLoop) (line : Line) : Node :=
  match loop.increment with
  | none => loop.body
  | some step => .block [loop.body, step] line

/-- A condition that is left out holds. -/
def always (line : Line) : Node := .literal (.bool true) line

theorem round_of_none {loop : ForLoop} (h : loop.increment = none) (line : Line) : loop.round line = loop.body := by
  rw [round, h]

theorem round_of_some {loop : ForLoop} {step : Node} (h : loop.increment = some step) (line : Line) :
    loop.round line = .block [loop.body, step] line := by
  rw [round, h]

theorem desugared_eq (loop : ForLoop) (line : Line) : loop.desugared line =
    .block (loop.initializer.toList ++ [.whileLoop (loop.condition.getD (always line)) (loop.round line) line]) line :=
  rfl

end ForLoop

namespace Exec

/-- A round of a loop if its condition holds, and what comes behind it unless it returns. -/
def turn (condition : Exec Bool) (round next : Exec Signal) : Exec Signal := do
  if ← condition then
    let signal ← round
    if signal.isReturn then pure signal else next
  else pure .proceed

/-- Rounds of a loop while the condition holds, up to the first one that returns; they are given up behind a bound. -/
def rounds (condition : Exec Bool) (round : Exec Signal) : (bound : Nat) → Exec Signal
  | 0 => throw .outOfFuel
  | bound + 1 => turn condition round (rounds condition round bound)

end Exec

namespace Evaluator

variable (e : Evaluator)

/-- Whether a condition holds; it does if it is left out. -/
def holds (scope : FrameId) : Option Node → Exec Bool
  | none => pure true
  | some n => do
    let v ← e.evaluate scope n
    pure v.truthy

def prepare (scope : FrameId) : Option Node → Exec Unit
  | none => pure ()
  | some n => do
    let _ ← e.execute scope n
    pure ()

def advance (scope : FrameId) : Option Node → Exec Unit
  | none => pure ()
  | some n => do
    let _ ← e.evaluate scope n
    pure ()

/-- One round: the body, and behind it the increment, unless the body returns. -/
def forRound (loop : ForLoop) (scope : FrameId) : Exec Signal := do
  let signal ← e.execute scope loop.body
  if signal.isReturn then pure signal
  else
    e.advance scope loop.increment
    pure .proceed

/-- A loop in one frame of its own. -/
def executeFor (scope : FrameId) (loop : ForLoop) (bound : Nat) : Exec Signal := do
  let inner ← newFrame (some scope) []
  e.prepare inner loop.initializer
  rounds (e.holds inner loop.condition) (e.forRound loop inner) bound

/-- One round in a frame more, if there is an increment. -/
def apartRound (loop : ForLoop) (scope : FrameId) : Exec Signal :=
  match loop.increment with
  | none => e.forRound loop scope
  | some _ => do
    let spare ← newFrame (some scope) []
    e.forRound loop spare

/-- A loop with a frame more for each round. -/
def executeApart (scope : FrameId) (loop : ForLoop) (bound : Nat) : Exec Signal := do
  let inner ← newFrame (some scope) []
  e.prepare inner loop.initializer
  rounds (e.holds inner loop.condition) (e.apartRound loop inner) bound

end Evaluator

/-! ## Settled computations -/

namespace Exec

variable {α β : Type}

/-- The first computation is given up, or ends as the second one does. -/
def Settles (x y : Exec α) : Prop := ∀ m, (∃ m', x m = .error .outOfFuel m') ∨ x m = y m

namespace Settles

variable {x y : Exec α}

theorem refl (x : Exec α) : Settles x x := fun _ => .inr rfl

theorem giveUp (y : Exec α) : Settles (throw .outOfFuel) y := fun m => .inl ⟨m, rfl⟩

theorem bind {f g : α → Exec β} (h : Settles x y) (hf : ∀ a, Settles (f a) (g a)) :
    Settles (x >>= f) (y >>= g) := by
  intro m
  rw [bind_apply, bind_apply]
  obtain ⟨m', hgiven⟩ | hsame := h m
  · rw [hgiven]
    exact .inl ⟨m', rfl⟩
  · rw [← hsame]
    cases x m with
    | ok a m₁ => exact hf a m₁
    | error fault m₁ => exact .inr rfl

theorem turn {condition condition' : Exec Bool} {round round' next next' : Exec Signal}
    (hc : Settles condition condition') (hr : Settles round round') (hn : Settles next next') :
    Settles (Exec.turn condition round next) (Exec.turn condition' round' next') := by
  refine .bind hc fun b => ?_
  cases b with
  | false => exact .refl _
  | true =>
    refine .bind hr fun signal => ?_
    split
    · exact .refl _
    · exact hn

end Settles

end Exec

/-- On more fuel a step ends as it does on less. -/
theorem execute_settles {fuel more : Nat} (hle : fuel ≤ more) (f : FrameId) (n : Node) :
    Settles ((ofFuel fuel).execute f n) ((ofFuel more).execute f n) := fun m => by
  rw [← (Traced.ofFuel_erases fuel).execute f n m]
  exact (Traced.ofFuel_settles hle).1 f n m

theorem evaluate_settles {fuel more : Nat} (hle : fuel ≤ more) (f : FrameId) (n : Node) :
    Settles ((ofFuel fuel).evaluate f n) ((ofFuel more).evaluate f n) := fun m => by
  rw [← (Traced.ofFuel_erases fuel).evaluate f n m]
  exact (Traced.ofFuel_settles hle).2 f n m

/-! ## More fuel for a loop -/

section More

variable {fuel more : Nat} (hle : fuel ≤ more) (f : FrameId)
include hle

theorem holds_settles (c : Option Node) : Settles ((ofFuel fuel).holds f c) ((ofFuel more).holds f c) := by
  cases c with
  | none => exact .refl _
  | some n => exact .bind (evaluate_settles hle f n) fun _ => .refl _

theorem prepare_settles (i : Option Node) : Settles ((ofFuel fuel).prepare f i) ((ofFuel more).prepare f i) := by
  cases i with
  | none => exact .refl _
  | some n => exact .bind (execute_settles hle f n) fun _ => .refl _

theorem advance_settles (s : Option Node) : Settles ((ofFuel fuel).advance f s) ((ofFuel more).advance f s) := by
  cases s with
  | none => exact .refl _
  | some n => exact .bind (evaluate_settles hle f n) fun _ => .refl _

end More

/-! ## The tree of a loop -/

/-- The step is executed by evaluating it. -/
def Node.IsEvaluated (n : Node) : Prop :=
  ∀ (e : Evaluator) (f : FrameId), e.executeNode f n = (do let _ ← e.evaluate f n; pure .proceed)

/-- The step never returns. -/
def Node.GoesOn (n : Node) : Prop :=
  ∀ (e : Evaluator) (f : FrameId) (m : Machine) (signal : Signal) (m₁ : Machine),
    e.executeNode f n m = .ok signal m₁ → signal = .proceed

/-- The initializer of the loop does not return, and its increment is an expression. -/
structure ForLoop.Proper (loop : ForLoop) : Prop where
  initializer : ∀ n ∈ loop.initializer, n.GoesOn
  increment : ∀ n ∈ loop.increment, n.IsEvaluated

theorem Exec.bind_last (x : Exec Signal) :
    (do let signal ← x; if signal.isReturn then pure signal else pure .proceed) = x := by
  have hlast :
      ∀ signal : Signal, (if signal.isReturn then pure signal else pure .proceed : Exec Signal) = pure signal := by
    intro signal
    cases signal <;> rfl
  simp only [hlast, bind_pure]

theorem Evaluator.executeAll_singleton (e : Evaluator) (f : FrameId) (n : Node) : e.executeAll f [n] = e.execute f n :=
  bind_last _

/-- Without an increment a round is the body. -/
theorem Evaluator.forRound_body (e : Evaluator) {loop : ForLoop} (hi : loop.increment = none) (f : FrameId) :
    e.forRound loop f = e.execute f loop.body := by
  rw [forRound, hi]
  exact bind_last _

theorem Node.GoesOn.execute {n : Node} (h : n.GoesOn) {fuel : Nat} {f : FrameId} {m m₁ : Machine} {signal : Signal}
    (hx : (ofFuel fuel).execute f n m = .ok signal m₁) : signal = .proceed := by
  cases fuel with
  | zero => cases hx
  | succ fuel => exact h (ofFuel fuel) f m signal m₁ hx

/-- Behind an initializer the steps go on. -/
theorem Node.GoesOn.first {n : Node} (hn : n.GoesOn) (fuel : Nat) (f : FrameId) (x : Exec Signal) :
    (do let signal ← (ofFuel fuel).execute f n; if signal.isReturn then pure signal else x) =
      (do (ofFuel fuel).prepare f (some n); x) := by
  funext m
  rw [prepare, bind_assoc, bind_apply, bind_apply]
  cases hx : (ofFuel fuel).execute f n m with
  | error fault m₁ => rfl
  | ok signal m₁ =>
    obtain rfl := hn.execute hx
    rfl

theorem Node.IsEvaluated.execute {n : Node} (hn : n.IsEvaluated) (fuel : Nat) (f : FrameId) :
    (ofFuel (fuel + 1)).execute f n = (do (ofFuel fuel).advance f (some n); pure .proceed) := by
  rw [advance, bind_assoc]
  exact hn (ofFuel fuel) f

section Tree

variable (line : Line) (f : FrameId)

theorem execute_whileLoop (fuel : Nat) (condition body : Node) :
    (ofFuel (fuel + 1)).execute f (.whileLoop condition body line) =
      turn ((ofFuel fuel).holds f (some condition)) ((ofFuel fuel).execute f body)
        ((ofFuel fuel).execute f (.whileLoop condition body line)) := by
  rw [turn, holds, bind_assoc]
  rfl

theorem condition_settles {fuel more : Nat} (hle : fuel ≤ more) (c : Option Node) :
    Settles ((ofFuel fuel).holds f (some (c.getD (ForLoop.always line)))) ((ofFuel more).holds f c) := by
  cases c with
  | some n => exact holds_settles hle f (some n)
  | none =>
    cases fuel with
    | zero => exact .giveUp _
    | succ fuel => exact .refl _

theorem settles_condition {fuel more : Nat} (hlt : fuel < more) (c : Option Node) :
    Settles ((ofFuel fuel).holds f c) ((ofFuel more).holds f (some (c.getD (ForLoop.always line)))) := by
  cases c with
  | some n => exact holds_settles (Nat.le_of_lt hlt) f (some n)
  | none =>
    cases more with
    | zero => cases hlt
    | succ more => exact .refl _

theorem increment_settles {fuel more : Nat} (hle : fuel ≤ more) {n : Node} (hn : n.IsEvaluated) :
    Settles ((ofFuel fuel).execute f n) (do (ofFuel more).advance f (some n); pure .proceed) := by
  cases fuel with
  | zero => exact .giveUp _
  | succ fuel =>
    rw [hn.execute]
    exact .bind (advance_settles (Nat.le_of_succ_le hle) f _) fun _ => .refl _

theorem settles_increment {fuel more : Nat} (hlt : fuel < more) {n : Node} (hn : n.IsEvaluated) :
    Settles (do (ofFuel fuel).advance f (some n); pure .proceed) ((ofFuel more).execute f n) := by
  cases more with
  | zero => cases hlt
  | succ more =>
    rw [hn.execute]
    exact .bind (advance_settles (Nat.le_of_lt_succ hlt) f _) fun _ => .refl _

variable {loop : ForLoop} (hl : loop.Proper)
include hl

/-- The block around a round makes a frame, in which the body and the increment are executed one behind the other. -/
theorem round_settles {fuel more : Nat} (hle : fuel ≤ more) :
    Settles ((ofFuel fuel).execute f (loop.round line)) ((ofFuel more).apartRound loop f) := by
  rw [apartRound]
  cases hi : loop.increment with
  | none =>
    rw [ForLoop.round_of_none hi, forRound_body _ hi]
    exact execute_settles hle f _
  | some step =>
    rw [ForLoop.round_of_some hi]
    cases fuel with
    | zero => exact .giveUp _
    | succ fuel =>
      refine .bind (.refl _) fun spare => ?_
      rw [forRound, hi, executeAll]
      refine .bind (execute_settles (Nat.le_of_succ_le hle) spare _) fun signal => ?_
      split
      · exact .refl _
      · rw [executeAll_singleton]
        exact increment_settles spare (Nat.le_of_succ_le hle) (hl.increment _ hi)

theorem settles_round {fuel more : Nat} (hlt : fuel + 1 < more) :
    Settles ((ofFuel fuel).apartRound loop f) ((ofFuel more).execute f (loop.round line)) := by
  rw [apartRound]
  cases hi : loop.increment with
  | none =>
    rw [ForLoop.round_of_none hi, forRound_body _ hi]
    exact execute_settles (by omega) f _
  | some step =>
    rw [ForLoop.round_of_some hi]
    cases more with
    | zero => cases hlt
    | succ more =>
      refine .bind (.refl _) fun spare => ?_
      rw [forRound, hi, executeAll]
      refine .bind (execute_settles (by omega) spare _) fun signal => ?_
      split
      · exact .refl _
      · rw [executeAll_singleton]
        exact settles_increment spare (by omega) (hl.increment _ hi)

/-- By induction on the fuel, of which each round of the `while` loop takes some. -/
theorem while_settles : ∀ {fuel more bound : Nat}, fuel ≤ more → fuel ≤ bound →
    Settles ((ofFuel fuel).execute f (.whileLoop (loop.condition.getD (ForLoop.always line)) (loop.round line) line))
      (rounds ((ofFuel more).holds f loop.condition) ((ofFuel more).apartRound loop f) bound)
  | 0, _, _, _, _ => .giveUp _
  | fuel + 1, more, bound + 1, hle, hb => by
    rw [execute_whileLoop]
    exact .turn (condition_settles line f (Nat.le_of_succ_le hle) _) (round_settles line f hl (Nat.le_of_succ_le hle))
      (while_settles (Nat.le_of_succ_le hle) (Nat.le_of_succ_le_succ hb))

theorem settles_while {fuel : Nat} : ∀ {bound more : Nat}, fuel + bound + 1 < more →
    Settles (rounds ((ofFuel fuel).holds f loop.condition) ((ofFuel fuel).apartRound loop f) bound)
      ((ofFuel more).execute f (.whileLoop (loop.condition.getD (ForLoop.always line)) (loop.round line) line))
  | 0, _, _ => .giveUp _
  | bound + 1, more + 1, hlt => by
    rw [execute_whileLoop]
    exact .turn (settles_condition line f (by omega) _) (settles_round line f hl (by omega)) (settles_while (by omega))

/-- In the block of the tree the initializer is executed, and behind it the `while` loop. -/
theorem executeAll_initialized (fuel : Nat) (n : Node) :
    (ofFuel fuel).executeAll f (loop.initializer.toList ++ [n]) =
      (do (ofFuel fuel).prepare f loop.initializer; (ofFuel fuel).execute f n) := by
  cases hi : loop.initializer with
  | none => exact executeAll_singleton (ofFuel fuel) f n
  | some k => rw [← (hl.initializer k hi).first, ← executeAll_singleton (ofFuel fuel) f n]; rfl

/-- The tree of a loop ends like the loop with a frame more for each round. -/
theorem desugared_settles (fuel : Nat) :
    Settles ((ofFuel fuel).execute f (loop.desugared line)) ((ofFuel fuel).executeApart f loop fuel) := by
  cases fuel with
  | zero => exact .giveUp _
  | succ fuel =>
    refine .bind (.refl _) fun inner => ?_
    rw [executeAll_initialized inner hl]
    exact .bind (prepare_settles fuel.le_succ inner _) fun _ => while_settles line inner hl fuel.le_succ fuel.le_succ

theorem settles_desugared {fuel bound more : Nat} (hlt : fuel + bound + 2 < more) :
    Settles ((ofFuel fuel).executeApart f loop bound) ((ofFuel more).execute f (loop.desugared line)) := by
  cases more with
  | zero => cases hlt
  | succ more =>
    refine .bind (y := Exec.newFrame (some f) []) (.refl _) fun inner => ?_
    rw [executeAll_initialized inner hl]
    exact .bind (prepare_settles (by omega) inner _) fun _ =>
      settles_while line inner hl (Nat.lt_of_succ_lt_succ hlt)

end Tree

/-! ## The rounds in one frame -/

open Pairing

/-- The scopes around the body and the increment, where those around the loop are of the pattern. -/
def ForLoop.apart (loop : ForLoop) (p : Pattern) : Pattern :=
  if loop.increment.isSome then false :: true :: p else true :: p

/-- The parts of the loops are skewed. The body is a block, and stands on the first side in a scope more if there is an
increment. -/
structure ForLoop.Skewed (p : Pattern) (loop direct : ForLoop) : Prop where
  initializer : Option.Rel (LoxLang.Skewed (true :: p)) loop.initializer direct.initializer
  condition : Option.Rel (LoxLang.Skewed (true :: p)) loop.condition direct.condition
  increment : Option.Rel (LoxLang.Skewed (loop.apart p)) loop.increment direct.increment
  body : ∃ ns ns' line, loop.body = .block ns line ∧ direct.body = .block ns' line ∧
    SkewedAll (true :: loop.apart p) ns ns'

/-- Loops whose parts end alike, under every later pairing. -/
theorem Together.rounds {w : Pairing} {m : Machine} {s' : Store} (h : Beside w m s') {c c' : Exec Bool}
    {r r' : Exec Signal}
    (hc : ∀ w₁ m₁ s₁', w ≤ w₁ → Beside w₁ m₁ s₁' → Together w₁ m₁ s₁' c c' fun _ b b' => b' = b)
    (hr : ∀ w₁ m₁ s₁', w ≤ w₁ → Beside w₁ m₁ s₁' → Together w₁ m₁ s₁' r r' SignalsAgree) (bound : Nat) :
    Together w m s' (Exec.rounds c r bound) (Exec.rounds c' r' bound) SignalsAgree := by
  induction bound generalizing w m s' with
  | zero => exact .throw h _
  | succ bound ih =>
    refine .bind (hc w m s' w.le_refl h) fun w₁ m₁ s₁' b _ hw h₁ hb => ?_
    subst hb
    split
    · refine .bind (hr w₁ m₁ s₁' hw h₁) fun w₂ m₂ s₂' signal _ hw₂ h₂ hsignal => ?_
      obtain ⟨rfl, hsignal⟩ := hsignal
      split
      · exact .pure h₂ ⟨rfl, hsignal⟩
      · have hle := le_trans hw hw₂
        exact ih h₂ (fun w₃ m₃ s₃' hw₃ => hc w₃ m₃ s₃' (le_trans hle hw₃))
          fun w₃ m₃ s₃' hw₃ => hr w₃ m₃ s₃' (le_trans hle hw₃)
    · exact .pure h₁ ⟨rfl, nofun⟩

namespace Evaluator.Parallel

variable {e : Evaluator} (he : e.Parallel) {w : Pairing} {m : Machine} {s' : Store} (h : Beside w m s') {p : Pattern}
  {f g : FrameId}
include he h

theorem holds (hf : w.Sees p f g) {c c' : Option Node} (hc : Option.Rel (Skewed p) c c') :
    Together w m s' (e.holds f c) (e.holds g c') fun _ b b' => b' = b := by
  cases hc with
  | none => exact .pure h rfl
  | some hn =>
    refine .bind (he.evaluate h hf hn) fun w₁ m₁ s₁' v _ _ h₁ hv => ?_
    obtain ⟨rfl, -⟩ := hv
    exact .pure h₁ rfl

theorem prepare (hf : w.Paired p f g) {i i' : Option Node} (hi : Option.Rel (Skewed p) i i') :
    Together w m s' (e.prepare f i) (e.prepare g i') fun _ _ _ => True := by
  cases hi with
  | none => exact .pure h trivial
  | some hn => exact .bind (he.execute h hf hn) fun _ _ _ _ _ _ h₁ _ => .pure h₁ trivial

theorem advance (hf : w.Sees p f g) {i i' : Option Node} (hi : Option.Rel (Skewed p) i i') :
    Together w m s' (e.advance f i) (e.advance g i') fun _ _ _ => True := by
  cases hi with
  | none => exact .pure h trivial
  | some hn => exact .bind (he.evaluate h hf hn) fun _ _ _ _ _ _ h₁ _ => .pure h₁ trivial

variable {loop direct : ForLoop} (hl : loop.Skewed p direct)
include hl

theorem forRound (hf : w.Sees (loop.apart p) f g) :
    Together w m s' (e.forRound loop f) (e.forRound direct g) SignalsAgree := by
  obtain ⟨ns, ns', line, hbody, hbody', hns⟩ := hl.body
  rw [Evaluator.forRound, Evaluator.forRound, hbody, hbody']
  refine .bind (he.block h hf hns) fun w₁ m₁ s₁' signal _ hw h₁ hsignal => ?_
  obtain ⟨rfl, hsignal⟩ := hsignal
  split
  · exact .pure h₁ ⟨rfl, hsignal⟩
  · exact .bind (he.advance h₁ (hf.mono hw) hl.increment) fun _ _ _ _ _ _ h₂ _ => .pure h₂ ⟨rfl, nofun⟩

/-- A round makes the same of the frame of the loop whether it makes a spare frame or not. -/
theorem apartRound (hf : w.Paired (true :: p) f g) :
    Together w m s' (e.apartRound loop f) (e.forRound direct g) SignalsAgree := by
  rw [Evaluator.apartRound]
  cases hi : loop.increment with
  | none =>
    refine he.forRound h hl ?_
    rw [ForLoop.apart, hi]
    exact .paired hf
  | some step =>
    refine .spareFrame h hf fun w₁ m₁ r _ h₁ hr => he.forRound h₁ hl ?_
    rw [ForLoop.apart, hi]
    exact hr

theorem executeApart (hf : w.Sees p f g) (bound : Nat) :
    Together w m s' (e.executeApart f loop bound) (e.executeFor g direct bound) SignalsAgree := by
  refine .bind (.newFrame h hf nofun) fun w₁ m₁ s₁' a b _ h₁ hinner => ?_
  refine .bind (he.prepare h₁ hinner hl.initializer) fun w₂ m₂ s₂' _ _ hw₂ h₂ _ => ?_
  refine .rounds h₂ (fun w₃ m₃ s₃' hw₃ h₃ => ?_) (fun w₃ m₃ s₃' hw₃ h₃ => ?_) bound
  · exact he.holds h₃ (.paired (hinner.mono (le_trans hw₂ hw₃))) hl.condition
  · exact he.apartRound h₃ hl (hinner.mono (le_trans hw₂ hw₃))

end Evaluator.Parallel

end LoxLang
