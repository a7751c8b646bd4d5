import LoxLang.Proofs.Parsing
import LoxLang.Proofs.Resolution

/-!
# Lines renumbered

No decision of the parser and of resolution depends on a line. Tokens whose lines are renumbered, in whatever way, are
parsed to the tree with its lines renumbered (`parse_renumber`): `Renumbers f g p q` says of two parsers that the second
one does with renumbered tokens what the first one does with the tokens themselves. Renumbered trees are resolved, or
rejected, alike (`resolve_renumber`).
-/

namespace LoxLang

/-! ## Tokens, diagnostics and trees -/

def Token.renumber (f : Line → Line) (t : Token) : Token := { t with line := f t.line }

def Diagnostic.renumber (f : Line → Line) (d : Diagnostic) : Diagnostic := { d with line := f d.line }

namespace Node

variable (f : Line → Line)

mutual

/-- The tree with another line in place of each. -/
def renumber : Node → Node
  | literal value line => literal value (f line)
  | grouping inner line => grouping (renumber inner) (f line)
  | unary op operand line => unary op (renumber operand) (f line)
  | binary op left right line => binary op (renumber left) (renumber right) (f line)
  | logical op left right line => logical op (renumber left) (renumber right) (f line)
  | var name line depth => var name (f line) depth
  | assign name value line depth => assign name (renumber value) (f line) depth
  | this line depth => this (f line) depth
  | call callee arguments line => call (renumber callee) (renumberAll arguments) (f line)
  | get object name line => get (renumber object) name (f line)
  | set object name value line => set (renumber object) name (renumber value) (f line)
  | block steps line => block (renumberAll steps) (f line)
  | letDecl name initializer line => letDecl name (renumber initializer) (f line)
  | print expression line => print (renumber expression) (f line)
  | ifElse condition thenBranch elseBranch line =>
    ifElse (renumber condition) (renumber thenBranch) (renumber elseBranch) (f line)
  | whileLoop condition body line => whileLoop (renumber condition) (renumber body) (f line)
  | function name params body line => function name params (renumber body) (f line)
  | returnStep value line => returnStep (renumber value) (f line)
  | classDecl name methods line => classDecl name (renumberAll methods) (f line)
  | error d => error (d.renumber f)
  | absent => absent
  | bare text => bare text

def renumberAll : List Node → List Node
  | [] => []
  | n :: ns => renumber n :: renumberAll ns

end

theorem renumberAll_eq_map (ns : List Node) : renumberAll f ns = ns.map (renumber f) := by
  induction ns with
  | nil => rfl
  | cons n ns ih => rw [renumberAll, ih, List.map_cons]

theorem renumber_forLoop (i c s : Option Node) (b : Node) (line : Line) : (forLoop i c s b line).renumber f =
    forLoop (i.map (renumber f)) (c.map (renumber f)) (s.map (renumber f)) (b.renumber f) (f line) := by
  cases i <;> cases c <;> cases s <;> rfl

mutual

theorem diagnostics_renumber : ∀ n : Node, (n.renumber f).diagnostics = n.diagnostics.map (Diagnostic.renumber f)
  | error d => by
    simp only [renumber, diagnostics, Diagnostic.renumber]
    split <;> rfl
  | block steps _ | classDecl _ steps _ => by simp only [renumber, diagnostics, diagnosticsOf_renumberAll steps]
  | ifElse _ thenBranch elseBranch _ => by
    simp only [renumber, diagnostics, List.map_append, diagnostics_renumber thenBranch, diagnostics_renumber elseBranch]
  | whileLoop _ body _ | function _ _ body _ => by simp only [renumber, diagnostics, diagnostics_renumber body]
  | literal .. | grouping .. | unary .. | binary .. | logical .. | var .. | assign .. | this .. | call .. | get ..
  | set .. | letDecl .. | print .. | returnStep .. | absent | bare _ => by
    simp only [renumber, diagnostics, List.map_nil]

theorem diagnosticsOf_renumberAll : ∀ ns : List Node,
    diagnosticsOf (renumberAll f ns) = (diagnosticsOf ns).map (Diagnostic.renumber f)
  | [] => rfl
  | n :: ns => by
    rw [renumberAll, diagnosticsOf, diagnosticsOf, List.map_append, diagnostics_renumber n,
      diagnosticsOf_renumberAll ns]

end

end Node

/-! ## Parsers -/

def ParseFault.renumber (f : Line → Line) (fault : ParseFault) : ParseFault := { fault with line := f fault.line }

def ParseState.renumber (f : Line → Line) (s : ParseState) : ParseState :=
  ⟨s.rest.map (Token.renumber f), s.caught.map (Diagnostic.renumber f)⟩

def Reply.renumber {α β : Type} (f : Line → Line) (g : α → β) : Reply α → Reply β
  | ok a after => ok (g a) (after.renumber f)
  | fail fault after => fail (fault.renumber f) (after.renumber f)

namespace Parser

/-- The second parser does with renumbered tokens what the first one does with the tokens themselves; `g` renumbers what
is read. -/
def Renumbers {α β : Type} (f : Line → Line) (g : α → β) (p : Parser α) (q : Parser β) : Prop :=
  ∀ endLine s, q (f endLine) (s.renumber f) = (p endLine s).renumber f g

variable {α β γ δ : Type} {f : Line → Line} {g : α → β} {h : γ → δ}

namespace Renumbers

theorem pure {a : α} {b : β} (hab : b = g a) : Renumbers f g (Pure.pure a) (Pure.pure b) := by
  rw [hab]
  exact fun _ _ => rfl

theorem bind {p : Parser α} {q : Parser β} {k : α → Parser γ} {l : β → Parser δ} (hp : Renumbers f g p q)
    (hk : ∀ a, Renumbers f h (k a) (l (g a))) : Renumbers f h (p >>= k) (q >>= l) := by
  intro endLine s
  rw [bind_apply, bind_apply, hp]
  cases p endLine s with
  | fail fault after => rfl
  | ok a after => exact hk a endLine after

/-- A result that is taken on as it is. -/
theorem map {p : Parser α} {q : Parser β} (hp : Renumbers f g p q) {k : α → γ} {l : β → δ}
    (hk : ∀ a, l (g a) = h (k a)) :
    Renumbers f h (k <$> p) (l <$> q) := hp.bind fun a => .pure (hk a)

/-! ### Single tokens -/

theorem nextKind : Renumbers f id nextKind nextKind := by
  rintro endLine ⟨_ | ⟨t, rest⟩, caught⟩
  · rfl
  · rfl

theorem failAt (line : Line) (cause : ParseCause) : Renumbers f g (failAt line cause) (failAt (f line) cause) :=
  fun _ _ => rfl

theorem failHere (cause : Option String → ParseCause) : Renumbers f g (failHere cause) (failHere cause) := by
  rintro endLine ⟨_ | ⟨t, rest⟩, caught⟩
  · rfl
  · rfl

theorem acceptMap (o : TokenKind → Option γ) :
    Renumbers f (Option.map fun (c, t) => (c, t.renumber f)) (acceptMap o) (acceptMap o) := by
  rintro endLine ⟨_ | ⟨t, rest⟩, caught⟩
  · rfl
  · have hkind : (t.renumber f).kind = t.kind := rfl
    simp only [Parser.acceptMap, ParseState.renumber, List.map_cons, hkind]
    cases o t.kind with
    | none => rfl
    | some c => rfl

theorem accept (k : TokenKind) : Renumbers f (Option.map (Token.renumber f)) (accept k) (accept k) := by
  rintro endLine ⟨_ | ⟨t, rest⟩, caught⟩
  · rfl
  · show (if t.kind = k then _ else _ : Reply (Option Token)) = _
    unfold Parser.accept
    dsimp only
    split
    · rfl
    · rfl

theorem expect (wanted : Wanted) : Renumbers f (Token.renumber f) (expect wanted) (expect wanted) := by
  refine .bind (.accept _) fun found => ?_
  cases found with
  | none => exact .failHere _
  | some t => exact .pure rfl

/-! ### Repetition -/

theorem commaSeparated {item : Parser α} {item' : Parser β} (hi : Renumbers f g item item') : ∀ bound,
    Renumbers f (List.map g) (commaSeparated item bound) (commaSeparated item' bound)
  | 0 => .bind hi fun _ => .pure rfl
  | bound + 1 => by
    refine .bind hi fun first => .bind (.accept .comma) fun found => ?_
    cases found with
    | none => exact .pure rfl
    | some t => exact .bind (commaSeparated hi bound) fun _ => .pure rfl

theorem manyUntil (stop : TokenKind → Bool) {item : Parser α} {item' : Parser β} (hi : Renumbers f g item item') :
    ∀ bound, Renumbers f (List.map g) (manyUntil stop item bound) (manyUntil stop item' bound)
  | 0 => .pure rfl
  | bound + 1 => by
    refine .bind .nextKind fun found => ?_
    cases found with
    | none => exact .pure rfl
    | some k =>
      dsimp only [id]
      split
      · exact .pure rfl
      · exact .bind hi fun first => .bind (manyUntil stop hi bound) fun _ => .pure rfl

/-! ### Recovery -/

theorem skipFrom_map (f : Line → Line) (last : TokenKind) (ts : List Token) :
    skipFrom last (ts.map (Token.renumber f)) = (skipFrom last ts).map (Token.renumber f) := by
  induction ts generalizing last with
  | nil => rfl
  | cons t ts ih =>
    rw [List.map_cons, skipFrom, skipFrom]
    by_cases hs : last = .semicolon ∨ startsStatement t.kind
    · have hs' : last = .semicolon ∨ startsStatement (t.renumber f).kind := hs
      rw [if_pos hs, if_pos hs', List.map_cons]
    · have hs' : ¬(last = .semicolon ∨ startsStatement (t.renumber f).kind) := hs
      rw [if_neg hs, if_neg hs']
      exact ih t.kind

/-- Where reading resumes depends on kinds of tokens only. -/
theorem resume_map (f : Line → Line) (start rest : List Token) :
    resume (start.map (Token.renumber f)) (rest.map (Token.renumber f)) =
      (resume start rest).map (Token.renumber f) := by
  have hrest : (if (rest.map (Token.renumber f)).length < (start.map (Token.renumber f)).length
        then rest.map (Token.renumber f) else (rest.map (Token.renumber f)).drop 1) =
      (if rest.length < start.length then rest else rest.drop 1).map (Token.renumber f) := by
    rw [List.length_map, List.length_map, ← List.map_drop, apply_ite (List.map (Token.renumber f))]
  unfold resume
  dsimp only
  rw [hrest]
  generalize (if rest.length < start.length then rest else rest.drop 1) = rest'
  rw [List.length_map, List.length_map, ← List.map_take, List.getLast?_map]
  cases (start.take (start.length - rest'.length)).getLast? with
  | none => rfl
  | some last => exact skipFrom_map f last.kind rest'

theorem recovering {step step' : Parser Node} (hs : Renumbers f (Node.renumber f) step step') :
    Renumbers f (Node.renumber f) (recovering step) (recovering step') := by
  intro endLine s
  unfold Parser.recovering
  rw [hs]
  cases step endLine s with
  | ok n after => rfl
  | fail fault after =>
    have hrest := resume_map f s.rest after.rest
    simp only [Reply.renumber, ParseState.renumber, hrest, List.map_cons]
    rfl

end Renumbers

/-! ## Expressions -/

section Expressions

variable {nested : Parser Node} (hn : Renumbers f (Node.renumber f) nested nested)

theorem atom?_renumber (f : Line → Line) (t : Token) : atom? (t.renumber f) = (atom? t).map (Node.renumber f) := by
  unfold atom? Token.renumber
  dsimp only
  split <;> rfl

theorem acceptAtom_renumbers : Renumbers f (Option.map (Node.renumber f)) acceptAtom acceptAtom := by
  rintro endLine ⟨_ | ⟨t, rest⟩, caught⟩
  · rfl
  · simp only [acceptAtom, ParseState.renumber, List.map_cons, atom?_renumber]
    cases atom? t with
    | none => rfl
    | some n => rfl

theorem propertyName_renumbers (dotLine : Line) :
    Renumbers f id (propertyName dotLine) (propertyName (f dotLine)) := by
  refine .bind (.accept _) fun found => ?_
  cases found with
  | none => exact .failAt _ _
  | some t => exact .pure rfl

include hn

theorem primary_renumbers : Renumbers f (Node.renumber f) (primary nested) (primary nested) := by
  refine .bind acceptAtom_renumbers fun found => ?_
  cases found with
  | some n => exact .pure rfl
  | none =>
    refine .bind (.accept _) fun found => ?_
    cases found with
    | none => exact .failHere _
    | some t => exact .bind hn fun _ => .bind (.expect _) fun _ => .pure rfl

theorem arguments_renumbers (bound : Nat) :
    Renumbers f (List.map (Node.renumber f)) (arguments nested bound) (arguments nested bound) := by
  refine .bind .nextKind fun found => ?_
  dsimp only [id]
  split
  · exact .bind (g := List.map (Node.renumber f)) (.pure rfl) fun _ => .bind (.expect _) fun _ => .pure rfl
  · exact .bind (.commaSeparated hn bound) fun _ => .bind (.expect _) fun _ => .pure rfl

theorem suffixesFrom_renumbers : ∀ (bound : Nat) (callee : Node),
    Renumbers f (Node.renumber f) (suffixesFrom nested bound callee) (suffixesFrom nested bound (callee.renumber f))
  | 0, _ => .pure rfl
  | bound + 1, callee => by
    refine .bind (.accept _) fun found => ?_
    cases found with
    | some t =>
      refine .bind (arguments_renumbers hn _) fun items => ?_
      rw [← Node.renumberAll_eq_map]
      exact suffixesFrom_renumbers bound (.call callee items t.line)
    | none =>
      refine .bind (.accept _) fun found => ?_
      cases found with
      | none => exact .pure rfl
      | some t =>
        exact .bind (propertyName_renumbers t.line) fun name => suffixesFrom_renumbers bound (.get callee name t.line)

theorem call_renumbers (bound : Nat) : Renumbers f (Node.renumber f) (call nested bound) (call nested bound) :=
  .bind (primary_renumbers hn) fun callee => suffixesFrom_renumbers hn bound callee

theorem unary_renumbers (bound : Nat) : ∀ rounds,
    Renumbers f (Node.renumber f) (unary nested bound rounds) (unary nested bound rounds)
  | 0 => call_renumbers hn bound
  | rounds + 1 => by
    refine .bind (.acceptMap _) fun found => ?_
    cases found with
    | none => exact call_renumbers hn bound
    | some found => exact .bind (unary_renumbers bound rounds) fun _ => .pure rfl

end Expressions

section Chains

variable {op : Type} {operator : TokenKind → Option op} {build : op → Node → Node → Line → Node} {operand : Parser Node}
  (hb : ∀ o a b line, (build o a b line).renumber f = build o (a.renumber f) (b.renumber f) (f line))
  (ho : Renumbers f (Node.renumber f) operand operand)
include hb ho

theorem leftChainFrom_renumbers : ∀ (bound : Nat) (left : Node), Renumbers f (Node.renumber f)
    (leftChainFrom operator build operand bound left) (leftChainFrom operator build operand bound (left.renumber f))
  | 0, _ => .pure rfl
  | bound + 1, left => by
    refine .bind (.acceptMap _) fun found => ?_
    cases found with
    | none => exact .pure rfl
    | some found =>
      refine .bind ho fun right => ?_
      have hrest := leftChainFrom_renumbers bound (build found.1 left right found.2.line)
      rw [hb] at hrest
      exact hrest

theorem leftChain_renumbers (bound : Nat) : Renumbers f (Node.renumber f) (leftChain operator build operand bound)
    (leftChain operator build operand bound) :=
  .bind ho fun left => leftChainFrom_renumbers hb ho bound left

theorem rightChain_renumbers : ∀ bound, Renumbers f (Node.renumber f) (rightChain operator build operand bound)
    (rightChain operator build operand bound)
  | 0 => ho
  | bound + 1 => by
    refine .bind ho fun left => .bind (.acceptMap _) fun found => ?_
    cases found with
    | none => exact .pure rfl
    | some found =>
      exact .bind (rightChain_renumbers bound) fun right => .pure (hb found.1 left right found.2.line).symm

end Chains

theorem disjunction_renumbers {nested : Parser Node} (hn : Renumbers f (Node.renumber f) nested nested) (bound : Nat) :
    Renumbers f (Node.renumber f) (disjunction nested bound) (disjunction nested bound) := by
  have hunary := unary_renumbers hn bound bound
  have hfactor : Renumbers f (Node.renumber f) (factor nested bound) (factor nested bound) :=
    leftChain_renumbers (fun _ _ _ _ => rfl) hunary bound
  have hterm : Renumbers f (Node.renumber f) (term nested bound) (term nested bound) :=
    leftChain_renumbers (fun _ _ _ _ => rfl) hfactor bound
  have hcomparison : Renumbers f (Node.renumber f) (comparison nested bound) (comparison nested bound) :=
    rightChain_renumbers (fun _ _ _ _ => rfl) hterm bound
  have hequality : Renumbers f (Node.renumber f) (equality nested bound) (equality nested bound) :=
    rightChain_renumbers (fun _ _ _ _ => rfl) hcomparison bound
  have hconjunction : Renumbers f (Node.renumber f) (conjunction nested bound) (conjunction nested bound) :=
    leftChain_renumbers (fun _ _ _ _ => rfl) hequality bound
  exact leftChain_renumbers (fun _ _ _ _ => rfl) hconjunction bound

theorem assignTo?_renumber (f : Line → Line) (target value : Node) :
    assignTo? (target.renumber f) (value.renumber f) = (assignTo? target value).map (Node.renumber f) := by
  cases target <;> rfl

theorem assignment_renumbers {nested : Parser Node} (hn : Renumbers f (Node.renumber f) nested nested) (bound : Nat) :
    ∀ rounds, Renumbers f (Node.renumber f) (assignment nested bound rounds) (assignment nested bound rounds)
  | 0 => disjunction_renumbers hn bound
  | rounds + 1 => by
    refine .bind (disjunction_renumbers hn bound) fun target => .bind (.accept _) fun found => ?_
    cases found with
    | none => exact .pure rfl
    | some t =>
      refine .bind (assignment_renumbers hn bound rounds) fun value => ?_
      rw [assignTo?_renumber]
      cases assignTo? target value with
      | none => exact .failAt _ _
      | some n => exact .pure rfl

theorem expression_renumbers : ∀ bound, Renumbers f (Node.renumber f) (expression bound) (expression bound)
  | 0 => .failHere _
  | bound + 1 => assignment_renumbers (expression_renumbers bound) _ _

/-! ## Statements -/

section Statements

variable {expression block : Parser Node} (he : Renumbers f (Node.renumber f) expression expression)
  (hb : Renumbers f (Node.renumber f) block block) (bound : Nat)

include he in
theorem letDeclaration_renumbers :
    Renumbers f (Node.renumber f) (letDeclaration expression) (letDeclaration expression) := by
  refine .bind (.expect _) fun name => .bind (.accept _) fun found => ?_
  cases found with
  | none => exact .bind (.expect _) fun _ => .pure rfl
  | some t => exact .bind he fun _ => .bind (.expect _) fun _ => .pure rfl

theorem parameters_renumbers : Renumbers f id (parameters bound) (parameters bound) := by
  refine .bind .nextKind fun found => ?_
  dsimp only [id]
  split
  · exact .pure rfl
  · refine .bind (.commaSeparated (.expect _) bound) fun names => .pure ?_
    rw [List.map_map]
    rfl

include hb in
theorem functionDeclaration_renumbers :
    Renumbers f (Node.renumber f) (functionDeclaration block bound) (functionDeclaration block bound) :=
  .bind (.expect _) fun _ => .bind (.expect _) fun _ => .bind (parameters_renumbers bound) fun _ =>
    .bind (.expect _) fun _ => .bind hb fun _ => .pure rfl

include hb in
theorem classDeclaration_renumbers :
    Renumbers f (Node.renumber f) (classDeclaration block bound) (classDeclaration block bound) := by
  refine .bind (.expect _) fun name => .bind (.expect _) fun _ =>
    .bind (.manyUntil _ (functionDeclaration_renumbers hb bound) bound) fun methods =>
    .bind (.expect _) fun _ => .pure ?_
  rw [Node.renumber, Node.renumberAll_eq_map]
  rfl

include he hb in
theorem ifStatement_renumbers : ∀ (rounds : Nat) (line : Line), Renumbers f (Node.renumber f)
    (ifStatement expression block line rounds) (ifStatement expression block (f line) rounds)
  | 0, _ => .failHere _
  | rounds + 1, line => by
    refine .bind he fun condition => .bind hb fun thenBranch => .bind (.accept _) fun found => ?_
    cases found with
    | none => exact .pure rfl
    | some t =>
      refine .bind (.accept _) fun found => ?_
      cases found with
      | some t => exact .bind (ifStatement_renumbers rounds t.line) fun _ => .pure rfl
      | none => exact .bind hb fun _ => .pure rfl

include he in
theorem forInitializer_renumbers :
    Renumbers f (Option.map (Node.renumber f)) (forInitializer expression) (forInitializer expression) := by
  refine .bind (.accept _) fun found => ?_
  cases found with
  | some t => exact .pure rfl
  | none =>
    refine .bind (.accept _) fun found => ?_
    cases found with
    | some t => exact .map (letDeclaration_renumbers he) fun _ => rfl
    | none => exact .bind he fun _ => .bind (.expect _) fun _ => .pure rfl

include he in
theorem optionalBefore_renumbers (closing : TokenKind) : Renumbers f (Option.map (Node.renumber f))
    (optionalBefore expression closing) (optionalBefore expression closing) := by
  refine .bind .nextKind fun found => ?_
  dsimp only [id]
  split
  · exact .bind (.expect _) fun _ => .pure rfl
  · exact .bind he fun _ => .bind (.expect _) fun _ => .pure rfl

include he hb in
theorem forStatement_renumbers (line : Line) : Renumbers f (Node.renumber f) (forStatement expression block line)
    (forStatement expression block (f line)) :=
  .bind (.expect _) fun _ => .bind (forInitializer_renumbers he) fun initializer =>
    .bind (optionalBefore_renumbers he _) fun condition => .bind (optionalBefore_renumbers he _) fun increment =>
      .bind hb fun body => .pure (Node.renumber_forLoop f initializer condition increment body line).symm

include he hb in
theorem afterKeyword_renumbers (line : Line) (k : KeywordStep) : Renumbers f (Node.renumber f)
    (afterKeyword expression block bound line k) (afterKeyword expression block bound (f line) k) := by
  cases k with
  | letStep => exact letDeclaration_renumbers he
  | funStep => exact functionDeclaration_renumbers hb bound
  | classStep => exact classDeclaration_renumbers hb bound
  | printStep => exact .bind he fun _ => .bind (.expect _) fun _ => .pure rfl
  | ifStep => exact ifStatement_renumbers he hb bound line
  | whileStep => exact .bind he fun _ => .bind hb fun _ => .pure rfl
  | forStep => exact forStatement_renumbers he hb line
  | returnStep =>
    refine .bind (optionalBefore_renumbers he _) fun value => .pure ?_
    cases value with
    | none => rfl
    | some n => rfl

include he hb in
theorem declaration_renumbers : Renumbers f (Node.renumber f) (declaration expression block bound)
    (declaration expression block bound) := by
  refine .bind (.acceptMap _) fun found => ?_
  cases found with
  | some found => exact afterKeyword_renumbers he hb bound found.2.line found.1
  | none =>
    refine .bind .nextKind fun found => ?_
    dsimp only [id]
    split
    · exact hb
    · exact .bind he fun _ => .bind (.expect _) fun _ => .pure rfl

end Statements

/-! ## Programs -/

theorem blockOf_renumbers {step : Parser Node} (hs : Renumbers f (Node.renumber f) step step) (bound : Nat) :
    Renumbers f (Node.renumber f) (blockOf step bound) (blockOf step bound) := by
  refine .bind (.expect _) fun opening => .bind (.manyUntil _ hs bound) fun steps => .bind (.expect _) fun _ => .pure ?_
  rw [Node.renumber, Node.renumberAll_eq_map]
  rfl

theorem step_renumbers : ∀ bound, Renumbers f (Node.renumber f) (step bound) (step bound)
  | 0 => .recovering (.failHere _)
  | bound + 1 =>
    .recovering (declaration_renumbers (expression_renumbers _) (blockOf_renumbers (step_renumbers bound) _) _)

theorem program_renumbers (bound : Nat) : Renumbers f (List.map (Node.renumber f)) (program bound) (program bound) :=
  .manyUntil _ (step_renumbers bound) bound

end Parser

namespace Token

variable (f : Line → Line)

theorem beforeEnd_renumber (tokens : List Token) :
    beforeEnd (tokens.map (renumber f)) = (beforeEnd tokens).map (renumber f) := by
  rw [beforeEnd, List.takeWhile_map]
  rfl

theorem endLine_renumber {tokens : List Token} (h : tokens ≠ []) :
    endLine (tokens.map (renumber f)) = f (endLine tokens) := by
  have hfind : (tokens.map (renumber f)).find? (·.kind == .endOfInput) =
      (tokens.find? (·.kind == .endOfInput)).map (renumber f) := by
    rw [List.find?_map]
    rfl
  rw [endLine, endLine, hfind]
  cases tokens.find? (·.kind == .endOfInput) with
  | some t => rfl
  | none =>
    rw [List.getLast?_map, List.getLast?_eq_some_getLast h]
    rfl

end Token

/-- Renumbered tokens are parsed as the tokens themselves are, apart from the lines. -/
theorem parse_renumber (f : Line → Line) {tokens : List Token} (h : tokens ≠ []) :
    parse (tokens.map (Token.renumber f)) = Node.renumberAll f (parse tokens) := by
  have hprogram := Parser.program_renumbers (f := f) (Token.beforeEnd tokens).length (Token.endLine tokens)
    ⟨Token.beforeEnd tokens, []⟩
  simp only [parse, parseWithLog, Token.beforeEnd_renumber, Token.endLine_renumber f h, List.length_map]
  have hstate : (⟨(Token.beforeEnd tokens).map (Token.renumber f), []⟩ : ParseState) =
      ParseState.renumber f ⟨Token.beforeEnd tokens, []⟩ := rfl
  rw [hstate, hprogram]
  cases Parser.program (Token.beforeEnd tokens).length (Token.endLine tokens) ⟨Token.beforeEnd tokens, []⟩ with
  | ok steps after => exact (Node.renumberAll_eq_map f steps).symm
  | fail fault after => rfl

/-! ## Resolution -/

def ResolveFault.renumber (f : Line → Line) : ResolveFault → ResolveFault
  | rejected line cause => rejected (f line) cause
  | unread d => unread (d.renumber f)
  | notANode shape => notANode shape

/-- An outcome of resolution with other lines; `g` renumbers the result. -/
def Resolve.renumbered {α β : Type} (f : Line → Line) (g : α → β) : Except ResolveFault α → Except ResolveFault β
  | .ok a => .ok (g a)
  | .error fault => .error (fault.renumber f)

/-- The second computation does with renumbered trees what the first one does with the trees themselves. -/
def Resolve.Renumbers {α β : Type} (f : Line → Line) (g : α → β) (x : Resolve α) (y : Resolve β) : Prop :=
  ∀ s, y.run s = renumbered f (fun (a, s) => (g a, s)) (x.run s)

namespace Resolve.Renumbers

variable {α β γ δ : Type} {f : Line → Line} {g : α → β} {h : γ → δ}

theorem pure {a : α} {b : β} (hab : b = g a) : Renumbers f g (Pure.pure a) (Pure.pure b) := by
  rw [hab]
  exact fun _ => rfl

theorem throw {fault fault' : ResolveFault} (hf : fault' = fault.renumber f) :
    Renumbers f g (throw fault : Resolve α) (throw fault' : Resolve β) := by
  rw [hf]
  exact fun _ => rfl

theorem bind {x : Resolve α} {y : Resolve β} {k : α → Resolve γ} {l : β → Resolve δ} (hx : Renumbers f g x y)
    (hk : ∀ a, Renumbers f h (k a) (l (g a))) : Renumbers f h (x >>= k) (y >>= l) := by
  intro s
  rw [Resolve.run_bind, Resolve.run_bind, hx s]
  cases x.run s with
  | error fault => rfl
  | ok found => exact hk found.1 found.2

theorem declare (name : String) (line : Line) : Renumbers f id (declare name line) (declare name (f line)) := by
  intro s
  rw [run_declare, run_declare]
  split
  · rfl
  · rfl

theorem define (name : String) : Renumbers f id (define name) (define name) := fun _ => rfl

theorem checkReady (name : String) (line : Line) :
    Renumbers f id (checkReady name line) (checkReady name (f line)) := by
  intro s
  rw [run_checkReady, run_checkReady]
  split
  · rfl
  · rfl

theorem checkInClass (inClass : Bool) (line : Line) :
    Renumbers f id (checkInClass inClass line) (checkInClass inClass (f line)) := by
  cases inClass with
  | true => exact .pure rfl
  | false => exact .throw rfl

theorem depthOf (name : String) : Renumbers f id (depthOf name) (depthOf name) := fun _ => rfl

theorem inScope {x : Resolve α} {y : Resolve β} (hx : Renumbers f g x y) : Renumbers f g (inScope x) (inScope y) := by
  intro s
  rw [run_inScope, run_inScope, hx s.enter]
  cases x.run s.enter with
  | error fault => rfl
  | ok found => rfl

theorem declareParameters (params : List String) (line : Line) :
    Renumbers f id (params.forM (Resolve.declareParameter line)) (params.forM (Resolve.declareParameter (f line))) := by
  induction params with
  | nil => exact .pure rfl
  | cons p params ih =>
    have hp : Renumbers f id (Resolve.declareParameter line p) (Resolve.declareParameter (f line) p) :=
      .bind (.declare p line) fun _ => .define p
    exact .bind hp fun _ => ih

end Resolve.Renumbers

namespace Node

open Resolve

variable (f : Line → Line)

mutual

/-- Renumbered trees are resolved, or rejected, as the trees themselves are. -/
theorem resolve_renumbers (inClass : Bool) : ∀ n : Node,
    Renumbers f (renumber f) (resolve inClass n) (resolve inClass (n.renumber f))
  | error d => .throw (by
    rw [apply_ite (ResolveFault.renumber f)]
    rfl)
  | bare _ => .throw rfl
  | absent => .pure rfl
  | literal _ _ => .pure rfl
  | block steps _ => .bind (.inScope (resolveAll_renumbers inClass steps)) fun _ => .pure rfl
  | letDecl name initializer line =>
    .bind (.declare name line) fun _ => .bind (resolve_renumbers inClass initializer) fun _ =>
      .bind (.define name) fun _ => .pure rfl
  | function name params body line =>
    .bind (.declare name line) fun _ => .bind (.define name) fun _ =>
      .bind (.inScope (.bind (.declareParameters params line) fun _ => resolve_renumbers inClass body))
        fun _ => .pure rfl
  | classDecl name methods line =>
    .bind (.declare name line) fun _ => .bind (.define name) fun _ =>
      .bind (.inScope (.bind (.define "this") fun _ => resolveMethods_renumbers methods)) fun _ => .pure rfl
  | print expression _ => .bind (resolve_renumbers inClass expression) fun _ => .pure rfl
  | ifElse condition thenBranch elseBranch _ =>
    .bind (resolve_renumbers inClass condition) fun _ => .bind (resolve_renumbers inClass thenBranch) fun _ =>
      .bind (resolve_renumbers inClass elseBranch) fun _ => .pure rfl
  | whileLoop condition body _ =>
    .bind (resolve_renumbers inClass condition) fun _ => .bind (resolve_renumbers inClass body) fun _ => .pure rfl
  | returnStep value _ => .bind (resolve_renumbers inClass value) fun _ => .pure rfl
  | var name line _ => .bind (.checkReady name line) fun _ => .bind (.depthOf name) fun _ => .pure rfl
  | assign name value _ _ =>
    .bind (resolve_renumbers inClass value) fun _ => .bind (.depthOf name) fun _ => .pure rfl
  | this line _ => .bind (.checkInClass inClass line) fun _ => .bind (.depthOf "this") fun _ => .pure rfl
  | grouping inner _ => .bind (resolve_renumbers inClass inner) fun _ => .pure rfl
  | unary _ operand _ => .bind (resolve_renumbers inClass operand) fun _ => .pure rfl
  | binary _ left right _ =>
    .bind (resolve_renumbers inClass left) fun _ => .bind (resolve_renumbers inClass right) fun _ => .pure rfl
  | logical _ left right _ =>
    .bind (resolve_renumbers inClass left) fun _ => .bind (resolve_renumbers inClass right) fun _ => .pure rfl
  | call callee arguments _ =>
    .bind (resolve_renumbers inClass callee) fun _ => .bind (resolveAll_renumbers inClass arguments) fun _ => .pure rfl
  | get object _ _ => .bind (resolve_renumbers inClass object) fun _ => .pure rfl
  | set object _ value _ =>
    .bind (resolve_renumbers inClass value) fun _ => .bind (resolve_renumbers inClass object) fun _ => .pure rfl

theorem resolveAll_renumbers (inClass : Bool) : ∀ ns : List Node,
    Renumbers f (renumberAll f) (resolveAll inClass ns) (resolveAll inClass (renumberAll f ns))
  | [] => .pure rfl
  | n :: ns => .bind (resolve_renumbers inClass n) fun _ => .bind (resolveAll_renumbers inClass ns) fun _ => .pure rfl

theorem resolveMethods_renumbers : ∀ ns : List Node,
    Renumbers f (renumberAll f) (resolveMethods ns) (resolveMethods (renumberAll f ns))
  | [] => .pure rfl
  | function _ params body line :: ns =>
    .bind (.inScope (.bind (.declareParameters params line) fun _ => resolve_renumbers true body)) fun _ =>
      .bind (resolveMethods_renumbers ns) fun _ => .pure rfl
  | error _ :: _ | bare _ :: _ | absent :: _ | literal .. :: _ | block .. :: _ | letDecl .. :: _ | classDecl .. :: _
  | print .. :: _ | ifElse .. :: _ | whileLoop .. :: _ | returnStep .. :: _ | var .. :: _ | assign .. :: _
  | this .. :: _
  | grouping .. :: _ | unary .. :: _ | binary .. :: _ | logical .. :: _ | call .. :: _ | get .. :: _ | set .. :: _ =>
    .throw rfl

end

end Node

/-- Renumbered programs are resolved, or rejected, as the programs themselves are. -/
theorem resolve_renumber (f : Line → Line) (steps : List Node) :
    resolve (Node.renumberAll f steps) = Resolve.renumbered f (Node.renumberAll f) (resolve steps) := by
  have hall := Node.resolveAll_renumbers f false steps Scopes.initial
  rw [resolve, resolve, hall]
  cases (Node.resolveAll false steps).run Scopes.initial with
  | error fault => rfl
  | ok found => rfl

end LoxLang
