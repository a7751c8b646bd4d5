import LoxLang.Proofs.Parsing
import LoxLang.Token.Lexer

/-!
# Faults that are recovered from

The parser logs every fault that it recovers from, and leaves a diagnostic in the place of the step that failed. What
was read of that step is lost, and with it the diagnostics of steps inside it: a tree tells the faults that a parser
logs which forgets, whenever a step fails, what it logged inside that step (`keptLog`). `Tells R p q` compares the two
parsers: they read the same, and the second one keeps some of what the first one logs, at least one fault if there is
any. So a tree without diagnostics is one that nothing went wrong with (`collected_faults`).
-/

namespace LoxLang.Parser

/-! ## A parser that forgets -/

/-- A step, or the fault that keeps it from being read; faults inside a step that fails are forgotten. -/
def forgetting (step : Parser Node) : Parser Node := fun endLine s =>
  match step endLine s with
  | .ok n after => .ok n after
  | .fail fault after =>
    .ok (.error fault.diagnostic) { rest := resume s.rest after.rest, caught := fault.diagnostic :: s.caught }

/-- `step` with `forgetting` in place of `recovering`. -/
def forgetfulStep : (bound : Nat) → Parser Node
  | 0 => forgetting (failHere .unrecognized)
  | bound + 1 =>
    forgetting (declaration (expression (bound + 1)) (blockOf (forgetfulStep bound) (bound + 1)) (bound + 1))

def forgetfulProgram (bound : Nat) : Parser (List Node) := manyUntil (fun _ => false) (forgetfulStep bound) bound

/-! ## Two logs -/

/-- Some faults of a log are kept, at least one if there is any. -/
structure Keeps (kept log : List Diagnostic) : Prop where
  sublist : kept.Sublist log
  any : kept = [] → log = []

theorem Keeps.nil : Keeps [] [] := ⟨.slnil, fun _ => rfl⟩

theorem Keeps.append {kept kept' log log' : List Diagnostic} (h : Keeps kept log) (h' : Keeps kept' log') :
    Keeps (kept ++ kept') (log ++ log') := by
  refine ⟨h.sublist.append h'.sublist, fun hnil => ?_⟩
  obtain ⟨hk, hk'⟩ := List.append_eq_nil_iff.mp hnil
  rw [h.any hk, h'.any hk', List.append_nil]

/-- A step that fails leaves its own fault, whatever went wrong inside it. -/
theorem Keeps.fault (d : Diagnostic) (log : List Diagnostic) : Keeps [d] (d :: log) :=
  ⟨(List.nil_sublist log).cons_cons d, fun h => by cases h⟩

/-- Replies that differ in the log only: the second one keeps some of what the first one logs, which `R` relates to the
result. -/
inductive RepliesAlike {α : Type} (R : α → List Diagnostic → Prop) (before before' : List Diagnostic) :
    Reply α → Reply α → Prop
  | ok {a rest log kept} : Keeps kept log → R a kept.reverse →
      RepliesAlike R before before' (.ok a ⟨rest, log ++ before⟩) (.ok a ⟨rest, kept ++ before'⟩)
  | fail {fault rest log kept} : Keeps kept log →
      RepliesAlike R before before' (.fail fault ⟨rest, log ++ before⟩) (.fail fault ⟨rest, kept ++ before'⟩)

/-- The parsers read the same, whatever was logged before, and the second one keeps some of what the first one logs. -/
def Tells {α : Type} (R : α → List Diagnostic → Prop) (p q : Parser α) : Prop :=
  ∀ endLine rest before before', RepliesAlike R before before' (p endLine ⟨rest, before⟩) (q endLine ⟨rest, before'⟩)

/-- Nothing is logged. -/
def Nothing {α : Type} (_ : α) (log : List Diagnostic) : Prop := log = []

/-- Nothing is logged, and the tree holds no diagnostics. -/
def Clean (n : Node) (log : List Diagnostic) : Prop := log = [] ∧ n.diagnostics = []

/-- The diagnostics in the tree are those in the log. -/
def Told (n : Node) (log : List Diagnostic) : Prop := log = n.diagnostics

theorem Clean.told {n : Node} {log : List Diagnostic} (h : Clean n log) : Told n log := h.1.trans h.2.symm

namespace Tells

variable {α β : Type} {R : α → List Diagnostic → Prop} {Q : β → List Diagnostic → Prop} {p q : Parser α}

theorem mono {R' : α → List Diagnostic → Prop} (h : Tells R p q) (hr : ∀ a log, R a log → R' a log) : Tells R' p q := by
  intro endLine rest before before'
  generalize hp : p endLine ⟨rest, before⟩ = r
  generalize hq : q endLine ⟨rest, before'⟩ = r'
  have hs := h endLine rest before before'
  rw [hp, hq] at hs
  cases hs with
  | ok hk ha => exact .ok hk (hr _ _ ha)
  | fail hk => exact .fail hk

/-- A reply that logs nothing. -/
theorem ofReply {before before' : List Diagnostic} {a : α} {rest : List Token} (h : R a []) :
    RepliesAlike R before before' (.ok a ⟨rest, before⟩) (.ok a ⟨rest, before'⟩) :=
  show RepliesAlike R before before' (.ok a ⟨rest, [] ++ before⟩) (.ok a ⟨rest, [] ++ before'⟩) from .ok .nil h

theorem ofFault {before before' : List Diagnostic} {fault : ParseFault} {rest : List Token} :
    RepliesAlike R before before' (.fail fault ⟨rest, before⟩) (.fail fault ⟨rest, before'⟩) :=
  show RepliesAlike R before before' (.fail fault ⟨rest, [] ++ before⟩) (.fail fault ⟨rest, [] ++ before'⟩) from
    .fail .nil

theorem pure {a : α} (h : R a []) : Tells R (Pure.pure a) (Pure.pure a) := fun _ _ _ _ => ofReply h

theorem bind {f g : α → Parser β} (h : Tells R p q)
    (hf : ∀ a log, R a log → Tells (fun b log' => Q b (log ++ log')) (f a) (g a)) : Tells Q (p >>= f) (q >>= g) := by
  intro endLine rest before before'
  rw [bind_apply, bind_apply]
  generalize hp : p endLine ⟨rest, before⟩ = r
  generalize hq : q endLine ⟨rest, before'⟩ = r'
  have hs := h endLine rest before before'
  rw [hp, hq] at hs
  cases hs with
  | fail hk => exact .fail hk
  | @ok a rest₁ log kept hk ha =>
    dsimp only
    generalize hp' : f a endLine ⟨rest₁, log ++ before⟩ = s
    generalize hq' : g a endLine ⟨rest₁, kept ++ before'⟩ = s'
    have hs' := hf a _ ha endLine rest₁ (log ++ before) (kept ++ before')
    rw [hp', hq'] at hs'
    cases hs' with
    | ok hk' hb =>
      rw [← List.append_assoc, ← List.append_assoc]
      exact .ok (hk'.append hk) (by rwa [List.reverse_append])
    | fail hk' =>
      rw [← List.append_assoc, ← List.append_assoc]
      exact .fail (hk'.append hk)

/-- Behind a parser that logs nothing. -/
theorem andThen {f g : α → Parser β} (h : Tells Nothing p q) (hf : ∀ a, Tells Q (f a) (g a)) :
    Tells Q (p >>= f) (q >>= g) :=
  h.bind fun a log hlog => by
    rw [show log = [] from hlog]
    exact hf a

/-- Behind a parser of a clean tree. -/
theorem afterClean {p q : Parser Node} {f g : Node → Parser β} (h : Tells Clean p q)
    (hf : ∀ n, n.diagnostics = [] → Tells Q (f n) (g n)) : Tells Q (p >>= f) (q >>= g) :=
  h.bind fun n log hn => by
    rw [hn.1]
    exact hf n hn.2

/-! ## Single tokens -/

theorem nextKind : Tells Nothing nextKind nextKind := fun _ _ _ _ => ofReply rfl

theorem failAt (line : Line) (cause : ParseCause) : Tells R (failAt line cause) (failAt line cause) :=
  fun _ _ _ _ => ofFault

theorem failHere (cause : Option String → ParseCause) : Tells R (failHere cause) (failHere cause) := by
  rintro endLine (_ | ⟨t, rest⟩) before before'
  · exact ofFault
  · exact ofFault

theorem acceptMap (f : TokenKind → Option β) : Tells Nothing (acceptMap f) (acceptMap f) := by
  rintro endLine (_ | ⟨t, rest⟩) before before'
  · exact ofReply rfl
  · unfold Parser.acceptMap
    dsimp only
    cases f t.kind with
    | none => exact ofReply rfl
    | some b => exact ofReply rfl

theorem accept (k : TokenKind) : Tells Nothing (accept k) (accept k) := by
  rintro endLine (_ | ⟨t, rest⟩) before before'
  · exact ofReply rfl
  · unfold Parser.accept
    dsimp only
    split
    · exact ofReply rfl
    · exact ofReply rfl

theorem expect (wanted : Wanted) : Tells Nothing (expect wanted) (expect wanted) := by
  refine .andThen (.accept _) fun found => ?_
  cases found with
  | none => exact .failHere _
  | some t => exact .pure rfl

/-! ## Repetition -/

theorem commaSeparated {item : Parser α} (h : Tells Nothing item item) : ∀ bound,
    Tells Nothing (commaSeparated item bound) (commaSeparated item bound)
  | 0 => .andThen h fun _ => .pure rfl
  | bound + 1 => by
    refine .andThen h fun first => .andThen (.accept .comma) fun found => ?_
    cases found with
    | none => exact .pure rfl
    | some t => exact .andThen (commaSeparated h bound) fun _ => .pure rfl

theorem manyUntil {item item' : Parser Node} (stop : TokenKind → Bool) (h : Tells Told item item') : ∀ bound,
    Tells (fun ns log => log = Node.diagnosticsOf ns) (manyUntil stop item bound) (manyUntil stop item' bound)
  | 0 => .pure rfl
  | bound + 1 => by
    refine .andThen .nextKind fun found => ?_
    cases found with
    | none => exact .pure rfl
    | some k =>
      dsimp only
      split
      · exact .pure rfl
      · refine .bind h fun n log hn => .bind (manyUntil stop h bound) fun ns logs hns => .pure ?_
        rw [hn, hns, List.append_nil, Node.diagnosticsOf]

/-- Both parsers leave the same diagnostic for a step that fails, and the second one nothing else. -/
theorem recovering {step step' : Parser Node} (h : Tells Told step step') :
    Tells Told (recovering step) (forgetting step') := by
  intro endLine rest before before'
  unfold Parser.recovering Parser.forgetting
  generalize hp : step endLine ⟨rest, before⟩ = r
  generalize hq : step' endLine ⟨rest, before'⟩ = r'
  have hs := h endLine rest before before'
  rw [hp, hq] at hs
  cases hs with
  | ok hk hn => exact .ok hk hn
  | @fail fault after log kept hk =>
    have hkeeps : Keeps [fault.diagnostic] (fault.diagnostic :: log) := .fault fault.diagnostic log
    exact .ok hkeeps rfl

end Tells

/-! ## Expressions -/

section Expressions

variable {nested : Parser Node} (hn : Tells Clean nested nested)

theorem acceptAtom_tells : Tells (fun found log => log = [] ∧ ∀ n, found = some n → n.diagnostics = []) acceptAtom
    acceptAtom := by
  rintro endLine (_ | ⟨t, rest⟩) before before'
  · exact Tells.ofReply ⟨rfl, fun n h => by cases h⟩
  · unfold acceptAtom
    dsimp only
    cases hf : atom? t with
    | none => exact Tells.ofReply ⟨rfl, fun n h => by cases h⟩
    | some n =>
      refine Tells.ofReply ⟨rfl, fun m h => ?_⟩
      cases h
      unfold atom? at hf
      split at hf <;> cases hf <;> rfl

include hn

theorem primary_tells : Tells Clean (primary nested) (primary nested) := by
  refine .bind acceptAtom_tells fun found log h => ?_
  rw [h.1]
  cases found with
  | some n => exact .pure ⟨rfl, h.2 n rfl⟩
  | none =>
    refine .andThen (.accept _) fun found => ?_
    cases found with
    | none => exact .failHere _
    | some t => exact .afterClean hn fun n _ => .andThen (.expect _) fun _ => .pure ⟨rfl, rfl⟩

theorem arguments_tells (bound : Nat) : Tells Nothing (arguments nested bound) (arguments nested bound) := by
  have hend : ∀ items : List Node, Tells Nothing (do let _ ← expect .argumentsEnd; pure items)
      (do let _ ← expect .argumentsEnd; pure items) := fun items => .andThen (.expect _) fun _ => .pure rfl
  refine .andThen .nextKind fun found => ?_
  split
  · exact .andThen (.pure rfl) hend
  · exact .andThen (.commaSeparated (hn.mono fun _ _ h => h.1) bound) hend

theorem suffixesFrom_tells : ∀ (bound : Nat) {callee : Node}, callee.diagnostics = [] →
    Tells Clean (suffixesFrom nested bound callee) (suffixesFrom nested bound callee)
  | 0, _, h => .pure ⟨rfl, h⟩
  | bound + 1, callee, h => by
    refine .andThen (.accept _) fun found => ?_
    cases found with
    | some t => exact .andThen (arguments_tells hn _) fun items => suffixesFrom_tells bound rfl
    | none =>
      refine .andThen (.accept _) fun found => ?_
      cases found with
      | none => exact .pure ⟨rfl, h⟩
      | some t =>
        refine .andThen ?_ fun name => suffixesFrom_tells bound rfl
        refine .andThen (.accept _) fun found => ?_
        cases found with
        | none => exact .failAt _ _
        | some t => exact .pure rfl

theorem call_tells (bound : Nat) : Tells Clean (call nested bound) (call nested bound) :=
  .afterClean (primary_tells hn) fun _ h => suffixesFrom_tells hn bound h

theorem unary_tells (bound : Nat) : ∀ rounds, Tells Clean (unary nested bound rounds) (unary nested bound rounds)
  | 0 => call_tells hn bound
  | rounds + 1 => by
    refine .andThen (.acceptMap _) fun found => ?_
    cases found with
    | none => exact call_tells hn bound
    | some found => exact .afterClean (unary_tells bound rounds) fun n _ => .pure ⟨rfl, rfl⟩

end Expressions

section Chains

variable {op : Type} {operator : TokenKind → Option op} {build : op → Node → Node → Line → Node} {operand : Parser Node}
  (hb : ∀ o a b line, (build o a b line).diagnostics = []) (ho : Tells Clean operand operand)
include hb ho

theorem leftChainFrom_tells : ∀ (bound : Nat) {left : Node}, left.diagnostics = [] →
    Tells Clean (leftChainFrom operator build operand bound left) (leftChainFrom operator build operand bound left)
  | 0, _, h => .pure ⟨rfl, h⟩
  | bound + 1, left, h => by
    refine .andThen (.acceptMap _) fun found => ?_
    cases found with
    | none => exact .pure ⟨rfl, h⟩
    | some found => exact .afterClean ho fun right _ => leftChainFrom_tells bound (hb _ _ _ _)

theorem leftChain_tells (bound : Nat) :
    Tells Clean (leftChain operator build operand bound) (leftChain operator build operand bound) :=
  .afterClean ho fun _ h => leftChainFrom_tells hb ho bound h

theorem rightChain_tells : ∀ bound,
    Tells Clean (rightChain operator build operand bound) (rightChain operator build operand bound)
  | 0 => ho
  | bound + 1 => by
    refine .afterClean ho fun left h => .andThen (.acceptMap _) fun found => ?_
    cases found with
    | none => exact .pure ⟨rfl, h⟩
    | some found => exact .afterClean (rightChain_tells bound) fun right _ => .pure ⟨rfl, hb _ _ _ _⟩

end Chains

theorem disjunction_tells {nested : Parser Node} (hn : Tells Clean nested nested) (bound : Nat) :
    Tells Clean (disjunction nested bound) (disjunction nested bound) :=
  have hunary := unary_tells hn bound bound
  have hfactor : Tells Clean (factor nested bound) (factor nested bound) :=
    leftChain_tells (fun _ _ _ _ => rfl) hunary bound
  have hterm : Tells Clean (term nested bound) (term nested bound) :=
    leftChain_tells (fun _ _ _ _ => rfl) hfactor bound
  have hcomparison : Tells Clean (comparison nested bound) (comparison nested bound) :=
    rightChain_tells (fun _ _ _ _ => rfl) hterm bound
  have hequality : Tells Clean (equality nested bound) (equality nested bound) :=
    rightChain_tells (fun _ _ _ _ => rfl) hcomparison bound
  leftChain_tells (fun _ _ _ _ => rfl) (leftChain_tells (fun _ _ _ _ => rfl) hequality bound) bound

theorem assignment_tells {nested : Parser Node} (hn : Tells Clean nested nested) (bound : Nat) : ∀ rounds,
    Tells Clean (assignment nested bound rounds) (assignment nested bound rounds)
  | 0 => disjunction_tells hn bound
  | rounds + 1 => by
    refine .afterClean (disjunction_tells hn bound) fun target h => .andThen (.accept _) fun found => ?_
    cases found with
    | none => exact .pure ⟨rfl, h⟩
    | some t =>
      refine .afterClean (assignment_tells hn bound rounds) fun value _ => ?_
      cases ha : assignTo? target value with
      | none => exact .failAt _ _
      | some n =>
        refine .pure ⟨rfl, ?_⟩
        unfold assignTo? at ha
        split at ha <;> cases ha <;> rfl

theorem expression_tells : ∀ bound, Tells Clean (expression bound) (expression bound)
  | 0 => .failHere _
  | bound + 1 => assignment_tells (expression_tells bound) _ _

/-! ## Statements -/

section Statements

variable {expression block block' : Parser Node} (he : Tells Clean expression expression) (hb : Tells Told block block')
  (bound : Nat)

include he in
theorem letDeclaration_tells : Tells Clean (letDeclaration expression) (letDeclaration expression) := by
  refine .andThen (.expect _) fun name => .andThen (.accept _) fun found => ?_
  cases found with
  | none => exact .andThen (.expect _) fun _ => .pure ⟨rfl, rfl⟩
  | some t => exact .afterClean he fun _ _ => .andThen (.expect _) fun _ => .pure ⟨rfl, rfl⟩

theorem parameters_tells : Tells Nothing (parameters bound) (parameters bound) := by
  refine .andThen .nextKind fun found => ?_
  split
  · exact .pure rfl
  · exact .andThen (.commaSeparated (.expect _) bound) fun _ => .pure rfl

include hb in
theorem functionDeclaration_tells :
    Tells Told (functionDeclaration block bound) (functionDeclaration block' bound) := by
  refine .andThen (.expect _) fun name => .andThen (.expect _) fun _ => .andThen (parameters_tells bound) fun params =>
    .andThen (.expect _) fun _ => .bind hb fun body log hbody => .pure ?_
  rw [hbody, List.append_nil]
  rfl

include hb in
theorem classDeclaration_tells : Tells Told (classDeclaration block bound) (classDeclaration block' bound) := by
  refine .andThen (.expect _) fun name => .andThen (.expect _) fun _ =>
    .bind (.manyUntil _ (functionDeclaration_tells hb bound) bound) fun methods log hmethods =>
    .andThen (.expect _) fun _ => .pure ?_
  rw [hmethods, List.append_nil]
  rfl

include he hb in
theorem ifStatement_tells (line : Line) (rounds : Nat) :
    Tells Told (ifStatement expression block line rounds) (ifStatement expression block' line rounds) := by
  induction rounds generalizing line with
  | zero => exact .failHere _
  | succ rounds ih =>
    refine .afterClean he fun condition _ => .bind hb fun thenBranch log hthen => .andThen (.accept _) fun found => ?_
    have hend : ∀ elseBranch log', Told elseBranch log' →
        Told (.ifElse condition thenBranch elseBranch line) (log ++ (log' ++ [])) := fun elseBranch log' helse => by
      rw [hthen, helse, List.append_nil]
      rfl
    cases found with
    | none => exact .pure (hend .absent [] rfl)
    | some t =>
      refine .andThen (.accept _) fun found => ?_
      cases found with
      | some t => exact .bind (ih t.line) fun elseBranch log' helse => .pure (hend elseBranch log' helse)
      | none => exact .bind hb fun elseBranch log' helse => .pure (hend elseBranch log' helse)

include he in
theorem forInitializer_tells : Tells (fun found log => log = [] ∧ Node.diagnosticsOf found.toList = [])
    (forInitializer expression) (forInitializer expression) := by
  refine .andThen (.accept _) fun found => ?_
  cases found with
  | some t => exact .pure ⟨rfl, rfl⟩
  | none =>
    refine .andThen (.accept _) fun found => ?_
    cases found with
    | some t =>
      refine .afterClean (letDeclaration_tells he) fun n h => .pure ⟨rfl, ?_⟩
      rw [Option.toList_some, Node.diagnosticsOf, h, List.nil_append]
      rfl
    | none =>
      refine .afterClean he fun n h => .andThen (.expect _) fun _ => .pure ⟨rfl, ?_⟩
      rw [Option.toList_some, Node.diagnosticsOf, h, List.nil_append]
      rfl

include he in
theorem optionalBefore_tells (closing : TokenKind) :
    Tells (fun found log => log = [] ∧ ∀ n, found = some n → n.diagnostics = [])
    (optionalBefore expression closing) (optionalBefore expression closing) := by
  refine .andThen .nextKind fun found => ?_
  split
  · exact .andThen (.expect _) fun _ => .pure ⟨rfl, fun n h => by cases h⟩
  · exact .afterClean he fun n h => .andThen (.expect _) fun _ => .pure ⟨rfl, fun m hm => by cases hm; exact h⟩

include he hb in
theorem forStatement_tells (line : Line) :
    Tells Told (forStatement expression block line) (forStatement expression block' line) := by
  refine .andThen (.expect _) fun _ => .bind (forInitializer_tells he) fun initializer log hi => ?_
  refine .bind (optionalBefore_tells he _) fun condition log₁ hc => ?_
  refine .bind (optionalBefore_tells he _) fun increment log₂ hs => ?_
  refine .bind hb fun body log₃ hbody => .pure ?_
  rw [hi.1, hc.1, hs.1, hbody, List.append_nil]
  exact (forLoop_diagnostics condition body line hi.2 hs.2).symm

include he hb in
theorem afterKeyword_tells (line : Line) (k : KeywordStep) :
    Tells Told (afterKeyword expression block bound line k) (afterKeyword expression block' bound line k) := by
  cases k with
  | letStep => exact (letDeclaration_tells he).mono fun _ _ => Clean.told
  | funStep => exact functionDeclaration_tells hb bound
  | classStep => exact classDeclaration_tells hb bound
  | printStep => exact .afterClean he fun _ _ => .andThen (.expect _) fun _ => .pure rfl
  | ifStep => exact ifStatement_tells he hb line bound
  | whileStep =>
    refine .afterClean he fun condition _ => .bind hb fun body log hbody => .pure ?_
    rw [hbody, List.append_nil]
    rfl
  | forStep => exact forStatement_tells he hb line
  | returnStep =>
    refine .bind (optionalBefore_tells he _) fun value log hv => .pure ?_
    rw [hv.1]
    rfl

include he hb in
theorem declaration_tells :
    Tells Told (declaration expression block bound) (declaration expression block' bound) := by
  refine .andThen (.acceptMap _) fun found => ?_
  cases found with
  | some found => exact afterKeyword_tells he hb bound found.2.line found.1
  | none =>
    refine .andThen .nextKind fun found => ?_
    split
    · exact hb
    · exact .afterClean he fun n h => .andThen (.expect _) fun _ => .pure h.symm

end Statements

/-! ## Programs -/

theorem blockOf_tells {step step' : Parser Node} (h : Tells Told step step') (bound : Nat) :
    Tells Told (blockOf step bound) (blockOf step' bound) := by
  refine .andThen (.expect _) fun opening => .bind (.manyUntil _ h bound) fun steps log hsteps =>
    .andThen (.expect _) fun _ => .pure ?_
  rw [hsteps, List.append_nil]
  rfl

theorem step_tells : ∀ bound, Tells Told (step bound) (forgetfulStep bound)
  | 0 => .recovering (.failHere _)
  | bound + 1 => .recovering (declaration_tells (expression_tells _) (blockOf_tells (step_tells bound) _) _)

/-- What is read and what is logged without forgetting, and with it. -/
theorem program_tells (bound : Nat) :
    Tells (fun ns log => log = Node.diagnosticsOf ns) (program bound) (forgetfulProgram bound) :=
  .manyUntil _ (step_tells bound) bound

end LoxLang.Parser

namespace LoxLang

/-- The faults recovered from, in order, but those inside a step that failed itself. -/
def keptLog (tokens : List Token) : List Diagnostic :=
  let body := Token.beforeEnd tokens
  match Parser.forgetfulProgram body.length (Token.endLine tokens) ⟨body, []⟩ with
  | .ok _ after | .fail _ after => after.caught.reverse

/-- The diagnostics in a tree are the faults recovered from, in order, but those inside a step that failed itself; none
are left only if there were none. -/
theorem collected_faults (tokens : List Token) :
    Node.diagnosticsOf (parse tokens) = keptLog tokens ∧ (keptLog tokens).Sublist (parseWithLog tokens).2 ∧
      (Node.diagnosticsOf (parse tokens) = [] ↔ (parseWithLog tokens).2 = []) := by
  obtain ⟨steps, after, hrun, -⟩ :=
    Parser.manyUntil_ok (Parser.step_ok (Token.beforeEnd tokens).length) (fun _ => false)
    (Token.endLine tokens) (Token.beforeEnd tokens).length ⟨Token.beforeEnd tokens, []⟩
  have htells :=
    Parser.program_tells (Token.beforeEnd tokens).length (Token.endLine tokens) (Token.beforeEnd tokens) [] []
  rw [Parser.program, hrun] at htells
  generalize hkept : Parser.forgetfulProgram _ _ _ = reply at htells
  cases htells with
  | @ok _ rest log kept hk hsteps =>
    have hparse : parse tokens = steps := by simp only [parse, parseWithLog, Parser.program, hrun]
    have hlog : (parseWithLog tokens).2 = log.reverse := by
      simp only [parseWithLog, Parser.program, hrun, List.append_nil]
    have hkeptLog : keptLog tokens = kept.reverse := by simp only [keptLog, hkept, List.append_nil]
    rw [hparse, hlog, hkeptLog, ← hsteps]
    refine ⟨rfl, hk.sublist.reverse, fun hnil => ?_, fun hnil => ?_⟩
    · rw [hk.any (List.reverse_eq_nil_iff.mp hnil), List.reverse_nil]
    · rw [List.reverse_eq_nil_iff] at hnil
      rw [hnil] at hk
      rw [List.sublist_nil.mp hk.sublist, List.reverse_nil]

/-- The tokens of a block that is not closed, around a `let` without a name. -/
def openBlock : List Token :=
  [⟨.leftBrace, "\x7b", 1, .nil⟩, ⟨.letWord, "let", 1, .nil⟩, ⟨.semicolon, ";", 1, .nil⟩, ⟨.endOfInput, "", 1, .nil⟩]

/-- Two faults are recovered from, and the one inside the block is lost. -/
theorem fault_in_open_block_lost :
    (Scan.of "\x7b let ;").tokens = openBlock ∧
    (parseWithLog openBlock).2 =
      [⟨.parse, 1, "Expected identifier following \"let\", found \";\""⟩,
        ⟨.parse, 1, "Expected \"\x7d\", found end of input"⟩] ∧
    Node.diagnosticsOf (parse openBlock) = [⟨.parse, 1, "Expected \"\x7d\", found end of input"⟩] := by
  refine ⟨?_, ?_, ?_⟩
  · cbv
  · decide
  · decide

end LoxLang
