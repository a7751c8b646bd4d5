import LoxLang.Proofs.Grammar

/-!
# Derivation trees

A `Derivation` is a tree of the productions of the grammar with tokens at its leaves. `DerivedBy d c n` says that the
tree `d` is built by the productions, with one of the category `c` at its top, and that `n` is the syntax tree it stands
for; `ProgramBy ds ts ns` says that of the declarations of a program. What derives from a category are the leaves of the
derivation trees of the category (`derives_iff`).
-/

namespace LoxLang.Grammar

/-- The productions of the grammar, named as the cases of `Derives`. -/
inductive Production
  | atom | grouping
  | primary | call | get
  | operand | unary
  | single (l : Level)
  /-- Two operands with an operator of the level between them. -/
  | operator (l : Level)
  | assign | set | plain
  | noClause | clause
  | openingClause | openingLet
  | letNil | letValue
  | function
  | block
  | ifThen | ifElse | ifElseIf
  | letStep | funStep | classStep | printStep | ifStep | whileStep | forStep | returnStep | blockStep | expressionStep

inductive Derivation
  | token (t : Token)
  | node (production : Production) (parts : List Derivation)

mutual

/-- The tokens at the leaves, from left to right. -/
def Derivation.tokens : Derivation → List Token
  | .token t => [t]
  | .node _ parts => tokensOf parts

def tokensOf : List Derivation → List Token
  | [] => []
  | d :: ds => d.tokens ++ tokensOf ds

end

namespace Derivation

def production? : Derivation → Option Production
  | token _ => none
  | node p _ => some p

end Derivation

section Leaves

variable (d : Derivation) (ds ds' : List Derivation) (t : Token) (p : Production)

@[simp] theorem tokens_token : (Derivation.token t).tokens = [t] := by rw [Derivation.tokens]

@[simp] theorem tokens_node : (Derivation.node p ds).tokens = tokensOf ds := by rw [Derivation.tokens]

@[simp] theorem tokensOf_nil : tokensOf [] = [] := by rw [tokensOf]

@[simp] theorem tokensOf_cons : tokensOf (d :: ds) = d.tokens ++ tokensOf ds := by rw [tokensOf]

@[simp] theorem tokensOf_append : tokensOf (ds ++ ds') = tokensOf ds ++ tokensOf ds' := by
  induction ds with
  | nil => simp
  | cons d ds ih => simp [ih]

end Leaves

/-- A derivation tree with the syntax tree it stands for. -/
abbrev DerivedItem := Derivation × Node

/-- The items with the leaves of their trees. -/
def leaves (items : List DerivedItem) : List Item := items.map fun i => (i.1.tokens, i.2)

section Items

variable (items : List DerivedItem)

theorem leaves_fst : (leaves items).map (·.1) = (items.map (·.1)).map (·.tokens) := by
  rw [leaves, List.map_map, List.map_map]
  rfl

@[simp] theorem leaves_snd : (leaves items).map (·.2) = items.map (·.2) := by
  rw [leaves, List.map_map]
  rfl

@[simp] theorem flatMap_leaves : (leaves items).flatMap (·.1) = tokensOf (items.map (·.1)) := by
  induction items with
  | nil => simp [leaves]
  | cons i items ih => simp [leaves, ← ih]

end Items

/-- The second list is the first one with commas between its elements. -/
inductive Separated : List Derivation → List Derivation → Prop
  | none : Separated [] []
  | one {d} : Separated [d] [d]
  | more {d c d' ds rest} : c.kind = .comma → Separated (d' :: ds) rest →
      Separated (d :: d' :: ds) (d :: .token c :: rest)

/-- The tree is built by the productions, for the syntax tree. -/
inductive DerivedBy : Derivation → Category → Node → Prop
  -- expressions
  | atom {t n} : Parser.atom? t = some n → DerivedBy (.node .atom [.token t]) .primary n
  | grouping {l d r n} : l.kind = .leftParen → DerivedBy d .expression n → r.kind = .rightParen →
      DerivedBy (.node .grouping [.token l, d, .token r]) .primary (.grouping n l.line)
  | primary {d n} : DerivedBy d .primary n → DerivedBy (.node .primary [d]) .call n
  | call {d l args r n} {items : List DerivedItem} : DerivedBy d .call n → l.kind = .leftParen →
      (∀ i ∈ items, DerivedBy i.1 .expression i.2) → Separated (items.map (·.1)) args → r.kind = .rightParen →
      DerivedBy (.node .call (d :: .token l :: (args ++ [.token r]))) .call (.call n (items.map (·.2)) l.line)
  | get {d p t n} : DerivedBy d .call n → p.kind = .dot → t.kind = .identifier →
      DerivedBy (.node .get [d, .token p, .token t]) .call (.get n t.name p.line)
  | operand {d n} : DerivedBy d .call n → DerivedBy (.node .operand [d]) .unary n
  | unary {t o d n} : Parser.unaryOp t.kind = some o → DerivedBy d .unary n →
      DerivedBy (.node .unary [.token t, d]) .unary (.unary o n t.line)
  | single {l : Level} {d n} : DerivedBy d l.operand n → DerivedBy (.node (.single l) [d]) (.binary l) n
  | left {l : Level} {d a t build d' b} : l.isLeft = true → DerivedBy d (.binary l) a → l.build? t.kind = some build →
      DerivedBy d' l.operand b → DerivedBy (.node (.operator l) [d, .token t, d']) (.binary l) (build a b t.line)
  | right {l : Level} {d a t build d' b} : l.isLeft = false → DerivedBy d l.operand a → l.build? t.kind = some build →
      DerivedBy d' (.binary l) b → DerivedBy (.node (.operator l) [d, .token t, d']) (.binary l) (build a b t.line)
  | assign {t e d n} : t.kind = .identifier → e.kind = .equal → DerivedBy d .expression n →
      DerivedBy (.node .assign [.token t, .token e, d]) .expression (.assign t.name n t.line none)
  | set {d n p t e d' v} : DerivedBy d .call n → p.kind = .dot → t.kind = .identifier → e.kind = .equal →
      DerivedBy d' .expression v →
      DerivedBy (.node .set [d, .token p, .token t, .token e, d']) .expression (.set n t.name v p.line)
  | plain {d n} : DerivedBy d (.binary .disjunction) n → DerivedBy (.node .plain [d]) .expression n
  -- clauses
  | noClause {k t} : t.kind = k → DerivedBy (.node .noClause [.token t]) (.clause k) .absent
  | clause {k d t n} : DerivedBy d .expression n → t.kind = k → DerivedBy (.node .clause [d, .token t]) (.clause k) n
  | openingClause {d n} : DerivedBy d (.clause .semicolon) n → DerivedBy (.node .openingClause [d]) .opening n
  | openingLet {t d n} : t.kind = .letWord → DerivedBy d .letDecl n →
      DerivedBy (.node .openingLet [.token t, d]) .opening n
  -- declarations
  | letNil {t s} : t.kind = .identifier → s.kind = .semicolon →
      DerivedBy (.node .letNil [.token t, .token s]) .letDecl (.letDecl t.name (.literal .nil t.line) t.line)
  | letValue {t e d s n} : t.kind = .identifier → e.kind = .equal → DerivedBy d .expression n → s.kind = .semicolon →
      DerivedBy (.node .letValue [.token t, .token e, d, .token s]) .letDecl (.letDecl t.name n t.line)
  | function {t l ps r d n} {params : List Token} : t.kind = .identifier → l.kind = .leftParen →
      (∀ p ∈ params, p.kind = .identifier) → Separated (params.map .token) ps → r.kind = .rightParen →
      DerivedBy d .block n → DerivedBy (.node .function (.token t :: .token l :: (ps ++ [.token r, d]))) .function
        (.function t.name (params.map (·.name)) n t.line)
  | block {l r} {items : List DerivedItem} : l.kind = .leftBrace → (∀ i ∈ items, DerivedBy i.1 .declaration i.2) →
      r.kind = .rightBrace → DerivedBy (.node .block (.token l :: (items.map (·.1) ++ [.token r]))) .block
        (.block (items.map (·.2)) l.line)
  | ifThen {t d c d' b} : t.kind = .ifWord → DerivedBy d .expression c → DerivedBy d' .block b →
      DerivedBy (.node .ifThen [.token t, d, d']) .ifStep (.ifElse c b .absent t.line)
  | ifElse {t d c d' b e d'' b'} : t.kind = .ifWord → DerivedBy d .expression c → DerivedBy d' .block b →
      e.kind = .elseWord → DerivedBy d'' .block b' →
      DerivedBy (.node .ifElse [.token t, d, d', .token e, d'']) .ifStep (.ifElse c b b' t.line)
  | ifElseIf {t d c d' b e d'' n} : t.kind = .ifWord → DerivedBy d .expression c → DerivedBy d' .block b →
      e.kind = .elseWord → DerivedBy d'' .ifStep n →
      DerivedBy (.node .ifElseIf [.token t, d, d', .token e, d'']) .ifStep (.ifElse c b n t.line)
  | letStep {t d n} : t.kind = .letWord → DerivedBy d .letDecl n →
      DerivedBy (.node .letStep [.token t, d]) .declaration n
  | funStep {t d n} : t.kind = .funWord → DerivedBy d .function n →
      DerivedBy (.node .funStep [.token t, d]) .declaration n
  | classStep {t name l r} {items : List DerivedItem} : t.kind = .classWord → name.kind = .identifier →
      l.kind = .leftBrace → (∀ i ∈ items, DerivedBy i.1 .function i.2) → r.kind = .rightBrace →
      DerivedBy (.node .classStep (.token t :: .token name :: .token l :: (items.map (·.1) ++ [.token r]))) .declaration
        (.classDecl name.name (items.map (·.2)) name.line)
  | printStep {t d s n} : t.kind = .printWord → DerivedBy d .expression n → s.kind = .semicolon →
      DerivedBy (.node .printStep [.token t, d, .token s]) .declaration (.print n t.line)
  | ifStep {d n} : DerivedBy d .ifStep n → DerivedBy (.node .ifStep [d]) .declaration n
  | whileStep {t d c d' b} : t.kind = .whileWord → DerivedBy d .expression c → DerivedBy d' .block b →
      DerivedBy (.node .whileStep [.token t, d, d']) .declaration (.whileLoop c b t.line)
  | forStep {t l d₁ d₂ d₃ d₄ i c s b} : t.kind = .forWord → l.kind = .leftParen → DerivedBy d₁ .opening i →
      DerivedBy d₂ (.clause .semicolon) c → DerivedBy d₃ (.clause .rightParen) s → DerivedBy d₄ .block b →
      DerivedBy (.node .forStep [.token t, .token l, d₁, d₂, d₃, d₄]) .declaration
        (Node.forLoop (given? i) (given? c) (given? s) b t.line)
  | returnStep {t d n} : t.kind = .returnWord → DerivedBy d (.clause .semicolon) n →
      DerivedBy (.node .returnStep [.token t, d]) .declaration (.returnStep n t.line)
  | blockStep {d n} : DerivedBy d .block n → DerivedBy (.node .blockStep [d]) .declaration n
  | expressionStep {d s n} : DerivedBy d .expression n → s.kind = .semicolon →
      DerivedBy (.node .expressionStep [d, .token s]) .declaration n

/-- The trees derive the tokens, as declarations one behind the other, and stand for the steps. -/
def ProgramBy (ds : List Derivation) (ts : List Token) (ns : List Node) : Prop :=
  ∃ items : List DerivedItem, (∀ i ∈ items, DerivedBy i.1 .declaration i.2) ∧ ds = items.map (·.1) ∧
    ts = tokensOf ds ∧ ns = items.map (·.2)

/-! ## Leaves derive -/

theorem Separated.listed {ds es : List Derivation} (h : Separated ds es) :
    Listed (ds.map (·.tokens)) (tokensOf es) := by
  induction h with
  | none => simpa using Listed.none
  | one => simpa using Listed.one
  | more hc _ ih => simpa using Listed.more hc ih

theorem derives_leaves {c : Category} {items : List DerivedItem} (h : ∀ i ∈ items, Derives c i.1.tokens i.2) :
    ∀ i ∈ leaves items, Derives c i.1 i.2 := fun i hi => by
  obtain ⟨j, hj, rfl⟩ := List.mem_map.mp hi
  exact h j hj

theorem DerivedBy.derives {d : Derivation} {c : Category} {n : Node} (h : DerivedBy d c n) : Derives c d.tokens n := by
  induction h with
  | atom h => simpa using Derives.atom h
  | grouping hl _ hr ih => simpa using Derives.grouping hl ih hr
  | primary _ ih => simpa using Derives.primary ih
  | @call d l args r n items _ hl _ hs hr ih ihs =>
    have hlisted : Listed ((leaves items).map (·.1)) (tokensOf args) := leaves_fst items ▸ hs.listed
    simpa using Derives.call ih hl (derives_leaves ihs) hlisted hr
  | get _ hd ht ih => simpa using Derives.get ih hd ht
  | operand _ ih => simpa using Derives.operand ih
  | unary ho _ ih => simpa using Derives.unary ho ih
  | single _ ih => simpa using Derives.single ih
  | left hl _ hb _ iha ihb => simpa using Derives.left hl iha hb ihb
  | right hl _ hb _ iha ihb => simpa using Derives.right hl iha hb ihb
  | assign ht he _ ih => simpa using Derives.assign ht he ih
  | set _ hd ht he _ ihn ihv => simpa using Derives.set ihn hd ht he ihv
  | plain _ ih => simpa using Derives.plain ih
  | noClause ht => simpa using Derives.noClause ht
  | clause _ ht ih => simpa using Derives.clause ih ht
  | openingClause _ ih => simpa using Derives.openingClause ih
  | openingLet ht _ ih => simpa using Derives.openingLet ht ih
  | letNil ht hs => simpa using Derives.letNil ht hs
  | letValue ht he _ hs ih => simpa using Derives.letValue ht he ih hs
  | @function t l ps r d n params ht hl hp hs hr _ ih =>
    have hlisted : Listed (params.map ([·])) (tokensOf ps) := by simpa [Function.comp_def] using hs.listed
    simpa using Derives.function ht hl hp hlisted hr ih
  | block hl _ hr ihs => simpa using Derives.block hl (derives_leaves ihs) hr
  | ifThen ht _ _ ihc ihb => simpa using Derives.ifThen ht ihc ihb
  | ifElse ht _ _ he _ ihc ihb ihb' => simpa using Derives.ifElse ht ihc ihb he ihb'
  | ifElseIf ht _ _ he _ ihc ihb ihn => simpa using Derives.ifElseIf ht ihc ihb he ihn
  | letStep ht _ ih => simpa using Derives.letStep ht ih
  | funStep ht _ ih => simpa using Derives.funStep ht ih
  | classStep ht hname hl _ hr ihs => simpa using Derives.classStep ht hname hl (derives_leaves ihs) hr
  | printStep ht _ hs ih => simpa using Derives.printStep ht ih hs
  | ifStep _ ih => simpa using Derives.ifStep ih
  | whileStep ht _ _ ihc ihb => simpa using Derives.whileStep ht ihc ihb
  | forStep ht hl _ _ _ _ ihi ihc ihs ihb => simpa using Derives.forStep ht hl ihi ihc ihs ihb
  | returnStep ht _ ih => simpa using Derives.returnStep ht ih
  | blockStep _ ih => simpa using Derives.blockStep ih
  | expressionStep _ hs ih => simpa using Derives.expressionStep ih hs

/-! ## What derives has a tree -/

theorem Listed.separated : ∀ {ds : List Derivation} {ts : List Token}, Listed (ds.map (·.tokens)) ts →
    ∃ es, tokensOf es = ts ∧ Separated ds es
  | [], _, .none => ⟨[], by simp, .none⟩
  | [d], _, .one => ⟨[d], by simp, .one⟩
  | d :: d' :: ds, _, .more hc h =>
    have hrest : Listed ((d' :: ds).map (·.tokens)) _ := h
    have ⟨es, htokens, hs⟩ := hrest.separated
    ⟨d :: .token _ :: es, by simp [htokens], .more hc hs⟩

/-- Trees for all items of a list. -/
theorem exists_trees {c : Category} {items : List Item}
    (h : ∀ i ∈ items, ∃ d : Derivation, d.tokens = i.1 ∧ DerivedBy d c i.2) :
    ∃ trees : List DerivedItem, items = leaves trees ∧ ∀ i ∈ trees, DerivedBy i.1 c i.2 := by
  induction items with
  | nil => exact ⟨[], rfl, fun _ hi => by cases hi⟩
  | cons i items ih =>
    obtain ⟨d, hd, hn⟩ := h i List.mem_cons_self
    obtain ⟨trees, rfl, htrees⟩ := ih fun j hj => h j (List.mem_cons_of_mem i hj)
    refine ⟨(d, i.2) :: trees, by simp [leaves, hd], fun j hj => ?_⟩
    obtain rfl | hj := List.mem_cons.mp hj
    · exact hn
    · exact htrees j hj

theorem Derives.exists_tree {c : Category} {ts : List Token} {n : Node} (h : Derives c ts n) :
    ∃ d : Derivation, d.tokens = ts ∧ DerivedBy d c n := by
  -- on the derivation: the tree of a rule is made of the trees of its parts, in their order
  induction h with
  | atom h => exact ⟨_, by simp, .atom h⟩
  | grouping hl _ hr ih =>
    obtain ⟨d, rfl, hd⟩ := ih
    exact ⟨_, by simp, .grouping hl hd hr⟩
  | primary _ ih =>
    obtain ⟨d, rfl, hd⟩ := ih
    exact ⟨_, by simp, .primary hd⟩
  | call _ hl _ hlisted hr ih ihs =>
    obtain ⟨d, rfl, hd⟩ := ih
    obtain ⟨trees, rfl, htrees⟩ := exists_trees ihs
    rw [leaves_fst] at hlisted
    obtain ⟨es, rfl, hs⟩ := hlisted.separated
    rw [leaves_snd]
    exact ⟨_, by simp, .call hd hl htrees hs hr⟩
  | get _ hd ht ih =>
    obtain ⟨d, rfl, hn⟩ := ih
    exact ⟨_, by simp, .get hn hd ht⟩
  | operand _ ih =>
    obtain ⟨d, rfl, hd⟩ := ih
    exact ⟨_, by simp, .operand hd⟩
  | unary ho _ ih =>
    obtain ⟨d, rfl, hd⟩ := ih
    exact ⟨_, by simp, .unary ho hd⟩
  | single _ ih =>
    obtain ⟨d, rfl, hd⟩ := ih
    exact ⟨_, by simp, .single hd⟩
  | left hl _ hb _ iha ihb =>
    obtain ⟨d, rfl, hd⟩ := iha
    obtain ⟨d', rfl, hd'⟩ := ihb
    exact ⟨_, by simp, .left hl hd hb hd'⟩
  | right hl _ hb _ iha ihb =>
    obtain ⟨d, rfl, hd⟩ := iha
    obtain ⟨d', rfl, hd'⟩ := ihb
    exact ⟨_, by simp, .right hl hd hb hd'⟩
  | assign ht he _ ih =>
    obtain ⟨d, rfl, hd⟩ := ih
    exact ⟨_, by simp, .assign ht he hd⟩
  | set _ hp ht he _ ihn ihv =>
    obtain ⟨d, rfl, hd⟩ := ihn
    obtain ⟨d', rfl, hd'⟩ := ihv
    exact ⟨_, by simp, .set hd hp ht he hd'⟩
  | plain _ ih =>
    obtain ⟨d, rfl, hd⟩ := ih
    exact ⟨_, by simp, .plain hd⟩
  | noClause ht => exact ⟨_, by simp, .noClause ht⟩
  | clause _ ht ih =>
    obtain ⟨d, rfl, hd⟩ := ih
    exact ⟨_, by simp, .clause hd ht⟩
  | openingClause _ ih =>
    obtain ⟨d, rfl, hd⟩ := ih
    exact ⟨_, by simp, .openingClause hd⟩
  | openingLet ht _ ih =>
    obtain ⟨d, rfl, hd⟩ := ih
    exact ⟨_, by simp, .openingLet ht hd⟩
  | letNil ht hs => exact ⟨_, by simp, .letNil ht hs⟩
  | letValue ht he _ hs ih =>
    obtain ⟨d, rfl, hd⟩ := ih
    exact ⟨_, by simp, .letValue ht he hd hs⟩
  | @function t l ts r ts' n params ht hl hp hlisted hr _ ih =>
    obtain ⟨d, rfl, hd⟩ := ih
    have hlisted : Listed ((params.map Derivation.token).map (·.tokens)) ts := by
      simpa [Function.comp_def] using hlisted
    obtain ⟨es, rfl, hs⟩ := hlisted.separated
    exact ⟨_, by simp, .function ht hl hp hs hr hd⟩
  | block hl _ hr ihs =>
    obtain ⟨trees, rfl, htrees⟩ := exists_trees ihs
    rw [leaves_snd, flatMap_leaves]
    exact ⟨_, by simp, .block hl htrees hr⟩
  | ifThen ht _ _ ihc ihb =>
    obtain ⟨d, rfl, hd⟩ := ihc
    obtain ⟨d', rfl, hd'⟩ := ihb
    exact ⟨_, by simp, .ifThen ht hd hd'⟩
  | ifElse ht _ _ he _ ihc ihb ihb' =>
    obtain ⟨d, rfl, hd⟩ := ihc
    obtain ⟨d', rfl, hd'⟩ := ihb
    obtain ⟨d'', rfl, hd''⟩ := ihb'
    exact ⟨_, by simp, .ifElse ht hd hd' he hd''⟩
  | ifElseIf ht _ _ he _ ihc ihb ihn =>
    obtain ⟨d, rfl, hd⟩ := ihc
    obtain ⟨d', rfl, hd'⟩ := ihb
    obtain ⟨d'', rfl, hd''⟩ := ihn
    exact ⟨_, by simp, .ifElseIf ht hd hd' he hd''⟩
  | letStep ht _ ih =>
    obtain ⟨d, rfl, hd⟩ := ih
    exact ⟨_, by simp, .letStep ht hd⟩
  | funStep ht _ ih =>
    obtain ⟨d, rfl, hd⟩ := ih
    exact ⟨_, by simp, .funStep ht hd⟩
  | classStep ht hname hl _ hr ihs =>
    obtain ⟨trees, rfl, htrees⟩ := exists_trees ihs
    rw [leaves_snd, flatMap_leaves]
    exact ⟨_, by simp, .classStep ht hname hl htrees hr⟩
  | printStep ht _ hs ih =>
    obtain ⟨d, rfl, hd⟩ := ih
    exact ⟨_, by simp, .printStep ht hd hs⟩
  | ifStep _ ih =>
    obtain ⟨d, rfl, hd⟩ := ih
    exact ⟨_, by simp, .ifStep hd⟩
  | whileStep ht _ _ ihc ihb =>
    obtain ⟨d, rfl, hd⟩ := ihc
    obtain ⟨d', rfl, hd'⟩ := ihb
    exact ⟨_, by simp, .whileStep ht hd hd'⟩
  | forStep ht hl _ _ _ _ ihi ihc ihs ihb =>
    obtain ⟨d₁, rfl, hd₁⟩ := ihi
    obtain ⟨d₂, rfl, hd₂⟩ := ihc
    obtain ⟨d₃, rfl, hd₃⟩ := ihs
    obtain ⟨d₄, rfl, hd₄⟩ := ihb
    exact ⟨_, by simp, .forStep ht hl hd₁ hd₂ hd₃ hd₄⟩
  | returnStep ht _ ih =>
    obtain ⟨d, rfl, hd⟩ := ih
    exact ⟨_, by simp, .returnStep ht hd⟩
  | blockStep _ ih =>
    obtain ⟨d, rfl, hd⟩ := ih
    exact ⟨_, by simp, .blockStep hd⟩
  | expressionStep _ hs ih =>
    obtain ⟨d, rfl, hd⟩ := ih
    exact ⟨_, by simp, .expressionStep hd hs⟩

/-- Tokens derive if they are the leaves of a tree. -/
theorem derives_iff {c : Category} {ts : List Token} {n : Node} :
    Derives c ts n ↔ ∃ d : Derivation, d.tokens = ts ∧ DerivedBy d c n :=
  ⟨fun h => h.exists_tree, fun ⟨_, htokens, h⟩ => htokens ▸ h.derives⟩

/-- The same for the declarations of a program. -/
theorem program_iff {ts : List Token} {ns : List Node} : Program ts ns ↔ ∃ ds, ProgramBy ds ts ns := by
  constructor
  · rintro ⟨items, hi, rfl, rfl⟩
    obtain ⟨trees, rfl, htrees⟩ := exists_trees fun i hm => (hi i hm).exists_tree
    exact ⟨_, trees, htrees, rfl, flatMap_leaves trees, leaves_snd trees⟩
  · rintro ⟨_, trees, htrees, rfl, rfl, rfl⟩
    exact ⟨leaves trees, derives_leaves fun i hi => (htrees i hi).derives, (flatMap_leaves trees).symm,
      (leaves_snd trees).symm⟩

end LoxLang.Grammar
