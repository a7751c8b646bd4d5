import LoxLang.Syntax.Parser.Statement

/-!
# The grammar

`Derives c ts n` says that the tokens `ts` are of category `c` and stand for the tree `n`; `Program ts ns` says that
they are the declarations `ns`, one behind the other. Sums, products and the logical operators associate to the left,
equality and comparison to the right.
-/

namespace LoxLang.Grammar

/-- The binary operators, from the loosest to the tightest. -/
inductive Level
  | disjunction
  | conjunction
  | equality
  | comparison
  | term
  | factor
deriving DecidableEq

namespace Level

/-- The trees that a token of the kind builds from two operands, if it is an operator of the level. -/
def build? : Level → TokenKind → Option (Node → Node → Line → Node)
  | disjunction, k => (Parser.orOp k).map .logical
  | conjunction, k => (Parser.andOp k).map .logical
  | equality, k => (Parser.equalityOp k).map .binary
  | comparison, k => (Parser.comparisonOp k).map .binary
  | term, k => (Parser.termOp k).map .binary
  | factor, k => (Parser.factorOp k).map .binary

def isLeft : Level → Bool
  | equality | comparison => false
  | _ => true

end Level

inductive Category
  | expression
  | binary (l : Level)
  | unary
  | call
  | primary
  /-- An expression that may be left out, with the token that ends it. -/
  | clause (closing : TokenKind)
  /-- The first clause of a `for`. -/
  | opening
  /-- A `let` behind its keyword. -/
  | letDecl
  /-- A function behind its keyword, or a method. -/
  | function
  | block
  | ifStep
  | declaration

/-- What stands between the operators of a level. -/
def Level.operand : Level → Category
  | disjunction => .binary conjunction
  | conjunction => .binary equality
  | equality => .binary comparison
  | comparison => .binary term
  | term => .binary factor
  | factor => .unary

/-- The tokens are the parts with commas between them. -/
inductive Listed : List (List Token) → List Token → Prop
  | none : Listed [] []
  | one {ts} : Listed [ts] ts
  | more {ts c ts' parts rest} :
    c.kind = .comma → Listed (ts' :: parts) rest → Listed (ts :: ts' :: parts) (ts ++ c :: rest)

theorem Listed.mem {parts : List (List Token)} {ts part : List Token} (h : Listed parts ts) (hp : part ∈ parts)
    {t : Token} (ht : t ∈ part) : t ∈ ts := by
  induction h with
  | none => cases hp
  | one => exact List.mem_singleton.mp hp ▸ ht
  | more _ _ ih =>
    obtain rfl | hp := List.mem_cons.mp hp
    · simp [ht]
    · simp [ih hp]

/-- The tree of a clause that is not left out. -/
def given? : Node → Option Node
  | .absent => none
  | n => some n

/-- Tokens with the tree they stand for. -/
abbrev Item := List Token × Node

inductive Derives : Category → List Token → Node → Prop
  -- expressions
  | atom {t n} : Parser.atom? t = some n → Derives .primary [t] n
  | grouping {l ts r n} : l.kind = .leftParen → Derives .expression ts n → r.kind = .rightParen →
      Derives .primary (l :: (ts ++ [r])) (.grouping n l.line)
  | primary {ts n} : Derives .primary ts n → Derives .call ts n
  | call {ts l args r n} {items : List Item} : Derives .call ts n → l.kind = .leftParen →
      (∀ i ∈ items, Derives .expression i.1 i.2) → Listed (items.map (·.1)) args → r.kind = .rightParen →
      Derives .call (ts ++ (l :: (args ++ [r]))) (.call n (items.map (·.2)) l.line)
  | get {ts d t n} : Derives .call ts n → d.kind = .dot → t.kind = .identifier →
      Derives .call (ts ++ [d, t]) (.get n t.name d.line)
  | operand {ts n} : Derives .call ts n → Derives .unary ts n
  | unary {t o ts n} :
    Parser.unaryOp t.kind = some o → Derives .unary ts n → Derives .unary (t :: ts) (.unary o n t.line)
  | single {l : Level} {ts n} : Derives l.operand ts n → Derives (.binary l) ts n
  | left {l : Level} {ts a t build ts' b} : l.isLeft = true → Derives (.binary l) ts a →
      l.build? t.kind = some build → Derives l.operand ts' b → Derives (.binary l) (ts ++ t :: ts') (build a b t.line)
  | right {l : Level} {ts a t build ts' b} : l.isLeft = false → Derives l.operand ts a →
      l.build? t.kind = some build → Derives (.binary l) ts' b → Derives (.binary l) (ts ++ t :: ts') (build a b t.line)
  | assign {t e ts n} : t.kind = .identifier → e.kind = .equal → Derives .expression ts n →
      Derives .expression (t :: e :: ts) (.assign t.name n t.line none)
  | set {ts n d t e ts' v} : Derives .call ts n → d.kind = .dot → t.kind = .identifier → e.kind = .equal →
      Derives .expression ts' v → Derives .expression (ts ++ d :: t :: e :: ts') (.set n t.name v d.line)
  | plain {ts n} : Derives (.binary .disjunction) ts n → Derives .expression ts n
  -- clauses
  | noClause {k t} : t.kind = k → Derives (.clause k) [t] .absent
  | clause {k ts t n} : Derives .expression ts n → t.kind = k → Derives (.clause k) (ts ++ [t]) n
  | openingClause {ts n} : Derives (.clause .semicolon) ts n → Derives .opening ts n
  | openingLet {t ts n} : t.kind = .letWord → Derives .letDecl ts n → Derives .opening (t :: ts) n
  -- declarations
  | letNil {t s} : t.kind = .identifier → s.kind = .semicolon →
      Derives .letDecl [t, s] (.letDecl t.name (.literal .nil t.line) t.line)
  | letValue {t e ts s n} : t.kind = .identifier → e.kind = .equal → Derives .expression ts n → s.kind = .semicolon →
      Derives .letDecl (t :: e :: (ts ++ [s])) (.letDecl t.name n t.line)
  | function {t l ts r ts' n} {params : List Token} : t.kind = .identifier → l.kind = .leftParen →
      (∀ p ∈ params, p.kind = .identifier) → Listed (params.map ([·])) ts → r.kind = .rightParen →
      Derives .block ts' n →
        Derives .function (t :: l :: (ts ++ r :: ts')) (.function t.name (params.map (·.name)) n t.line)
  | block {l r} {items : List Item} : l.kind = .leftBrace → (∀ i ∈ items, Derives .declaration i.1 i.2) →
      r.kind = .rightBrace → Derives .block (l :: (items.flatMap (·.1) ++ [r])) (.block (items.map (·.2)) l.line)
  | ifThen {t ts c ts' b} : t.kind = .ifWord → Derives .expression ts c → Derives .block ts' b →
      Derives .ifStep (t :: (ts ++ ts')) (.ifElse c b .absent t.line)
  | ifElse {t ts c ts' b e ts'' b'} : t.kind = .ifWord → Derives .expression ts c → Derives .block ts' b →
      e.kind = .elseWord → Derives .block ts'' b' →
      Derives .ifStep (t :: (ts ++ (ts' ++ e :: ts''))) (.ifElse c b b' t.line)
  | ifElseIf {t ts c ts' b e ts'' n} : t.kind = .ifWord → Derives .expression ts c → Derives .block ts' b →
      e.kind = .elseWord → Derives .ifStep ts'' n →
      Derives .ifStep (t :: (ts ++ (ts' ++ e :: ts''))) (.ifElse c b n t.line)
  | letStep {t ts n} : t.kind = .letWord → Derives .letDecl ts n → Derives .declaration (t :: ts) n
  | funStep {t ts n} : t.kind = .funWord → Derives .function ts n → Derives .declaration (t :: ts) n
  | classStep {t name l r} {items : List Item} : t.kind = .classWord → name.kind = .identifier → l.kind = .leftBrace →
      (∀ i ∈ items, Derives .function i.1 i.2) → r.kind = .rightBrace →
      Derives .declaration (t :: name :: l :: (items.flatMap (·.1) ++ [r]))
        (.classDecl name.name (items.map (·.2)) name.line)
  | printStep {t ts s n} : t.kind = .printWord → Derives .expression ts n → s.kind = .semicolon →
      Derives .declaration (t :: (ts ++ [s])) (.print n t.line)
  | ifStep {ts n} : Derives .ifStep ts n → Derives .declaration ts n
  | whileStep {t ts c ts' b} : t.kind = .whileWord → Derives .expression ts c → Derives .block ts' b →
      Derives .declaration (t :: (ts ++ ts')) (.whileLoop c b t.line)
  | forStep {t l ts₁ ts₂ ts₃ ts₄ i c s b} : t.kind = .forWord → l.kind = .leftParen → Derives .opening ts₁ i →
      Derives (.clause .semicolon) ts₂ c → Derives (.clause .rightParen) ts₃ s → Derives .block ts₄ b →
      Derives .declaration (t :: l :: (ts₁ ++ (ts₂ ++ (ts₃ ++ ts₄))))
        (Node.forLoop (given? i) (given? c) (given? s) b t.line)
  | returnStep {t ts n} : t.kind = .returnWord → Derives (.clause .semicolon) ts n →
      Derives .declaration (t :: ts) (.returnStep n t.line)
  | blockStep {ts n} : Derives .block ts n → Derives .declaration ts n
  | expressionStep {ts s n} : Derives .expression ts n → s.kind = .semicolon → Derives .declaration (ts ++ [s]) n

/-- The tokens are declarations one behind the other. -/
def Program (ts : List Token) (ns : List Node) : Prop :=
  ∃ items : List Item, (∀ i ∈ items, Derives .declaration i.1 i.2) ∧ ts = items.flatMap (·.1) ∧ ns = items.map (·.2)

/-! ## Targets of assignments -/

theorem Level.build?_shape {l : Level} {k : TokenKind} {build : Node → Node → Line → Node}
    (h : l.build? k = some build) : (∃ o, build = .logical o) ∨ ∃ o, build = .binary o := by
  cases l with
  | disjunction | conjunction => obtain ⟨o, -, rfl⟩ := Option.map_eq_some_iff.mp h; exact .inl ⟨o, rfl⟩
  | _ => obtain ⟨o, -, rfl⟩ := Option.map_eq_some_iff.mp h; exact .inr ⟨o, rfl⟩

/-- The tree is not one of a binary or logical operator. -/
def IsSimple : Node → Prop
  | .binary .. | .logical .. => False
  | _ => True

namespace Derives

variable {ts : List Token} {n : Node}

theorem operand_of_simple {l : Level} (h : Derives (.binary l) ts n) (hn : IsSimple n) : Derives l.operand ts n := by
  cases h with
  | single h => exact h
  | left _ _ hb | right _ _ hb =>
    obtain ⟨o, rfl⟩ | ⟨o, rfl⟩ := Level.build?_shape hb
    · exact hn.elim
    · exact hn.elim

/-- A tree without an operator at its top derives from a prefix expression. -/
theorem unary_of_simple (h : Derives (.binary .disjunction) ts n) (hn : IsSimple n) : Derives .unary ts n := by
  have conjunction : Derives (.binary .conjunction) ts n := h.operand_of_simple hn
  have equality : Derives (.binary .equality) ts n := conjunction.operand_of_simple hn
  have comparison : Derives (.binary .comparison) ts n := equality.operand_of_simple hn
  have term : Derives (.binary .term) ts n := comparison.operand_of_simple hn
  have factor : Derives (.binary .factor) ts n := term.operand_of_simple hn
  exact factor.operand_of_simple hn

theorem var_inv {name : String} {line : Line} {d : Depth} (h : Derives (.binary .disjunction) ts (.var name line d)) :
    ∃ t, ts = [t] ∧ t.kind = .identifier ∧ name = t.name ∧ line = t.line ∧ d = none := by
  cases h.unary_of_simple trivial with
  | operand h =>
    cases h with
    | primary h =>
      cases h with
      | @atom t _ h =>
        unfold Parser.atom? at h
        split at h <;> cases h
        next hk => exact ⟨t, rfl, hk, rfl, rfl, rfl⟩

theorem get_inv {object : Node} {name : String} {line : Line}
    (h : Derives (.binary .disjunction) ts (.get object name line)) :
    ∃ ts' d t, ts = ts' ++ [d, t] ∧ Derives .call ts' object ∧ d.kind = .dot ∧ t.kind = .identifier ∧ name = t.name ∧
      line = d.line := by
  cases h.unary_of_simple trivial with
  | operand h =>
    cases h with
    | get ho hd ht => exact ⟨_, _, _, rfl, ho, hd, ht, rfl, rfl⟩
    | primary h =>
      cases h with
      | atom h =>
        unfold Parser.atom? at h
        split at h <;> cases h

/-- Only clauses can be left out. -/
theorem present {c : Category} (h : Derives c ts n) (hc : ∀ k, c ≠ .clause k) (ho : c ≠ .opening) :
    n.isAbsent = false := by
  induction h with
  | atom h =>
    unfold Parser.atom? at h
    split at h <;> cases h <;> rfl
  | left _ _ hb | right _ _ hb =>
    obtain ⟨o, rfl⟩ | ⟨o, rfl⟩ := Level.build?_shape hb
    · rfl
    · rfl
  | primary _ ih | operand _ ih | plain _ ih => exact ih (fun _ h => by cases h) fun h => by cases h
  | @single l _ _ _ ih => exact ih (fun _ h => by cases l <;> cases h) fun h => by cases l <;> cases h
  | noClause => exact absurd rfl (hc _)
  | clause => exact absurd rfl (hc _)
  | openingClause => exact absurd rfl ho
  | openingLet => exact absurd rfl ho
  | ifStep _ ih | blockStep _ ih => exact ih (fun _ h => by cases h) fun h => by cases h
  | expressionStep _ _ ih => exact ih (fun _ h => by cases h) fun h => by cases h
  | letStep _ _ ih | funStep _ _ ih => exact ih (fun _ h => by cases h) fun h => by cases h
  | _ => rfl

theorem nonempty {c : Category} (h : Derives c ts n) : ts ≠ [] := by
  induction h with
  | primary _ ih | operand _ ih | single _ ih | plain _ ih | openingClause _ ih | ifStep _ ih | blockStep _ ih =>
    exact ih
  | _ => simp

end Derives

theorem given?_of_present {n : Node} (h : n.isAbsent = false) : given? n = some n := by
  cases n with
  | absent => cases h
  | _ => rfl

end LoxLang.Grammar
