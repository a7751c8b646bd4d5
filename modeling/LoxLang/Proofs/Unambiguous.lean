import LoxLang.Proofs.Derivations
import LoxLang.Proofs.Programs

/-!
# One derivation

No tokens have two derivation trees of a category for the same syntax tree (`DerivedBy.unique`): the production at the
top is told by the syntax tree or the first tokens (`DerivedBy.production`), and where each of its parts ends is told
by the number of tokens that an expression has (`Derives.length_eq_width`), or by the parser, which reads clauses,
blocks and declarations in one way in front of anything (`Category.Closed`). So a token list is read without
diagnostics if and only if it derives from the grammar, it then derives in one way, and its steps are the syntax trees
of the derivation (`parse_derivation`).
-/

namespace LoxLang.Parser

/-- A parser answers in one way. -/
theorem Runs.unique {α : Type} {p : Parser α} {ts rest rest' : List Token} {a a' : α} (h : Runs p ts a rest)
    (h' : Runs p ts a' rest') : a = a' ∧ rest = rest' := by
  have heq := (h 0 []).symm.trans (h' 0 [])
  injection heq with ha hrest
  injection hrest with hrest
  exact ⟨ha, hrest⟩

/-- What two runs from the same tokens take is the same. -/
theorem Runs.front {α : Type} {p : Parser α} {ts ts' rest rest' : List Token} {a a' : α}
    (h : Runs p (ts ++ rest) a rest) (h' : Runs p (ts' ++ rest') a' rest') (heq : ts ++ rest = ts' ++ rest') :
    ts = ts' ∧ a = a' := by
  rw [← heq] at h'
  obtain ⟨ha, rfl⟩ := h.unique h'
  exact ⟨List.append_cancel_right heq, ha⟩

end LoxLang.Parser

namespace LoxLang.Grammar

open LoxLang.Parser

/-! ## Where parts end -/

/-- Tokens of the category are never the front of others of the category. -/
def Category.Closed (c : Category) : Prop :=
  ∀ {ts ts' rest rest' : List Token} {n n' : Node}, Derives c ts n → Derives c ts' n' → ts ++ rest = ts' ++ rest' →
    ts = ts' ∧ n = n'

theorem given?_inj {n n' : Node} (h : given? n = given? n') : n = n' := by
  cases n <;> cases n' <;> first | rfl | exact Option.some.inj h | cases h

theorem block_closed : Category.block.Closed := fun {ts ts' rest rest' _ _} h h' heq =>
  have hcovers := blockOf_covers (step_covers (ts.length + ts'.length))
  Runs.front (hcovers _ _ rest h (by omega) (ends_any (fun _ => rfl) rest))
    (hcovers _ _ rest' h' (by omega) (ends_any (fun _ => rfl) rest')) heq

theorem function_closed : Category.function.Closed := fun {ts ts' rest rest' _ _} h h' heq =>
  have hcovers := functionDeclaration_covers (blockOf_covers (step_covers (ts.length + ts'.length))) (Nat.le_succ _)
  Runs.front (hcovers _ _ rest h (by omega) (ends_any (fun _ => rfl) rest))
    (hcovers _ _ rest' h' (by omega) (ends_any (fun _ => rfl) rest')) heq

theorem clause_closed {k : TokenKind} (hstart : startsExpression k = false)
    (hgo : Category.expression.goesOn k = false) : (Category.clause k).Closed := fun {ts ts' rest rest' _ _} h h' heq =>
  have hcovers := expression_covers (ts.length + ts'.length)
  have ⟨htokens, hn⟩ := Runs.front (optionalBefore_runs hcovers hstart hgo h (by omega) rest)
    (optionalBefore_runs hcovers hstart hgo h' (by omega) rest') heq
  ⟨htokens, given?_inj hn⟩

theorem opening_closed : Category.opening.Closed := fun {ts ts' rest rest' _ _} h h' heq =>
  have hcovers := expression_covers (ts.length + ts'.length)
  have ⟨htokens, hn⟩ := Runs.front (forInitializer_runs hcovers h (by omega) rest)
    (forInitializer_runs hcovers h' (by omega) rest') heq
  ⟨htokens, given?_inj hn⟩

/-- Declarations end where no `else` follows. -/
theorem declaration_front {ts ts' rest rest' : List Token} {n n' : Node} (h : Derives .declaration ts n)
    (h' : Derives .declaration ts' n') (hends : Ends .declaration rest) (hends' : Ends .declaration rest')
    (heq : ts ++ rest = ts' ++ rest') : ts = ts' ∧ n = n' :=
  have hcovers := step_covers (ts.length + ts'.length)
  Runs.front (hcovers ts n rest h (by omega) hends) (hcovers ts' n' rest' h' (by omega) hends') heq

/-! ## How many tokens an expression has -/

mutual

/-- The number of tokens that an expression is read from. -/
def width : Node → Nat
  | .grouping inner _ | .assign _ inner _ _ | .get inner _ _ => width inner + 2
  | .unary _ operand _ => width operand + 1
  | .binary _ left right _ | .logical _ left right _ => width left + width right + 1
  | .call callee arguments _ => width callee + widthOf arguments + 2
  | .set object _ value _ => width object + width value + 3
  | _ => 1

/-- The same for expressions with commas between them. -/
def widthOf : List Node → Nat
  | [] => 0
  | n :: ns => width n + (if ns.isEmpty then 0 else 1) + widthOf ns

end

def Category.isExpression : Category → Bool
  | expression | binary _ | unary | call | primary => true
  | _ => false

theorem Level.isExpression_operand (l : Level) : l.operand.isExpression = true := by cases l <;> rfl

theorem width_build {l : Level} {k : TokenKind} {build : Node → Node → Line → Node} (h : l.build? k = some build)
    (a b : Node) (line : Line) : width (build a b line) = width a + width b + 1 := by
  obtain ⟨o, rfl⟩ | ⟨o, rfl⟩ := Level.build?_shape h
  · simp only [width]
  · simp only [width]

theorem Listed.length_eq : ∀ {items : List Item} {ts : List Token}, Listed (items.map (·.1)) ts →
    (∀ i ∈ items, i.1.length = width i.2) → ts.length = widthOf (items.map (·.2))
  | [], _, .none, _ => by simp [widthOf]
  | [i], _, .one, h => by simpa [widthOf] using h i List.mem_cons_self
  | i :: j :: items, _, .more _ hl, h => by
    have hfirst := h i List.mem_cons_self
    have hrest : Listed ((j :: items).map (·.1)) _ := hl
    have hmore := hrest.length_eq fun k hk => h k (List.mem_cons_of_mem i hk)
    simp only [List.map_cons] at hmore ⊢
    rw [widthOf, List.length_append, List.length_cons, hfirst, hmore]
    simp only [List.isEmpty_cons, Bool.false_eq_true, if_false]
    omega

theorem Derives.length_eq_width {c : Category} {ts : List Token} {n : Node} (h : Derives c ts n)
    (hc : c.isExpression = true) : ts.length = width n := by
  induction h with
  | atom h =>
    unfold atom? at h
    split at h <;> cases h <;> simp only [width, List.length_singleton]
  | grouping _ _ _ ih => simp [width, ih rfl]
  | primary _ ih | operand _ ih | plain _ ih => exact ih rfl
  | call _ _ _ hl _ ih ihs =>
    have hargs := hl.length_eq fun i hi => ihs i hi rfl
    simp [width, ih rfl, hargs]
    omega
  | get _ _ _ ih => simp [width, ih rfl]
  | unary _ _ ih => simp [width, ih rfl]
  | @single l _ _ _ ih => exact ih l.isExpression_operand
  | @left l _ _ _ _ _ _ _ _ hb _ iha ihb =>
    rw [width_build hb, List.length_append, List.length_cons, iha rfl, ihb l.isExpression_operand, Nat.add_assoc]
  | @right l _ _ _ _ _ _ _ _ hb _ iha ihb =>
    rw [width_build hb, List.length_append, List.length_cons, iha l.isExpression_operand, ihb rfl, Nat.add_assoc]
  | assign _ _ _ ih => simp [width, ih rfl]
  | set _ _ _ _ _ ihn ihv =>
    simp [width, ihn rfl, ihv rfl]
    omega
  | _ => cases hc

/-! ## Which production is at the top -/

def Level.rank : Level → Nat
  | disjunction => 8
  | conjunction => 7
  | equality => 6
  | comparison => 5
  | term => 4
  | factor => 3

/-- The rank of a category of expressions, the tightest first. -/
def Category.rank : Category → Nat
  | expression => 9
  | binary l => l.rank
  | unary => 2
  | call => 1
  | _ => 0

theorem Level.rank_operand (l : Level) : l.operand.rank < l.rank := by cases l <;> decide

def Level.ofBinary : BinaryOp → Level
  | .equal | .notEqual => equality
  | .greater | .greaterEqual | .less | .lessEqual => comparison
  | .add | .subtract => term
  | .multiply | .divide | .other _ => factor

def Level.ofLogical : LogicalOp → Level
  | .or => disjunction
  | .and | .other _ => conjunction

namespace Production

/-- The production that builds the top of an expression. -/
def top : Node → Production
  | .grouping .. => grouping
  | .call .. => call
  | .get .. => get
  | .unary .. => unary
  | .binary o .. => operator (.ofBinary o)
  | .logical o .. => operator (.ofLogical o)
  | .assign .. => assign
  | .set .. => set
  | _ => atom

/-- The rank of the category that the production belongs to. -/
def rank : Production → Nat
  | assign | set => 9
  | operator l => l.rank
  | unary => 2
  | call | get => 1
  | _ => 0

/-- The production of a category of expressions that only passes to a tighter one. -/
def passing : Category → Production
  | .call => primary
  | .unary => operand
  | .binary l => single l
  | _ => plain

/-- The production of a step by the first token. -/
def ofFirst : TokenKind → Production
  | .letWord => letStep
  | .funWord => funStep
  | .classWord => classStep
  | .printWord => printStep
  | .ifWord => ifStep
  | .whileWord => whileStep
  | .forWord => forStep
  | .returnWord => returnStep
  | .leftBrace => blockStep
  | _ => expressionStep

/-- The production that tokens of a category derive by, for a syntax tree. -/
def of (c : Category) (ts : List Token) (n : Node) : Production :=
  match c with
  | .clause _ => if n.isAbsent then noClause else clause
  | .opening => if ts.head?.map (·.kind) = some .letWord then openingLet else openingClause
  | .letDecl => if ts.length = 2 then letNil else letValue
  | .function => function
  | .block => block
  | .ifStep =>
    match n with
    | .ifElse _ _ .absent _ => ifThen
    | .ifElse _ _ (.block ..) _ => ifElse
    | _ => ifElseIf
  | .declaration => ((ts.head?.map (·.kind)).map ofFirst).getD expressionStep
  | _ => if (top n).rank < c.rank then passing c else top n

end Production

theorem top_build {l : Level} {k : TokenKind} {build : Node → Node → Line → Node} (h : l.build? k = some build)
    (a b : Node) (line : Line) : Production.top (build a b line) = .operator l := by
  cases l <;> cases k <;> cases h <;> rfl

theorem top_of_atom {t : Token} {n : Node} (h : atom? t = some n) : Production.top n = .atom := by
  unfold atom? at h
  split at h <;> cases h <;> rfl

/-- No expression of a category has a looser production at its top. -/
theorem Derives.rank_le {c : Category} {ts : List Token} {n : Node} (h : Derives c ts n) (hc : c.isExpression = true) :
    (Production.top n).rank ≤ c.rank := by
  induction h with
  | atom h => rw [top_of_atom h]; exact Nat.le_refl _
  | primary _ ih => exact Nat.le_trans (ih rfl) (by decide)
  | operand _ ih => exact Nat.le_trans (ih rfl) (by decide)
  | @single l _ _ _ ih => exact Nat.le_trans (ih l.isExpression_operand) (Nat.le_of_lt l.rank_operand)
  | left _ _ hb | right _ _ hb => rw [top_build hb]; exact Nat.le_refl _
  | plain _ ih => exact Nat.le_trans (ih rfl) (by decide)
  | grouping | call | get | unary | assign | set => exact Nat.le_refl _
  | _ => cases hc

/-- The production at the top, by the category, the tokens and the syntax tree. -/
theorem DerivedBy.production {d : Derivation} {c : Category} {n : Node} (h : DerivedBy d c n) :
    d.production? = some (Production.of c d.tokens n) := by
  -- an expression that a production passes on
  have passing : ∀ {d' : Derivation} {c' : Category}, DerivedBy d' c' n → c'.isExpression = true → c'.rank < c.rank →
      (Production.top n).rank < c.rank := fun h hc hrank => Nat.lt_of_le_of_lt (h.derives.rank_le hc) hrank
  cases h with
  | atom h => simp [Derivation.production?, Production.of, top_of_atom h, Category.rank, Production.rank]
  | primary h | operand h | plain h =>
    simp [Derivation.production?, Production.of, passing h rfl (by decide), Production.passing]
  | @single l _ _ h =>
    simp [Derivation.production?, Production.of, passing h l.isExpression_operand l.rank_operand, Production.passing]
  | left _ _ hb | right _ _ hb =>
    simp [Derivation.production?, Production.of, top_build hb, Production.rank, Category.rank]
  | grouping | call | get | unary | assign | set => rfl
  | clause h =>
    have hpresent := h.derives.present (fun _ hc => by cases hc) fun hc => by cases hc
    simp [Derivation.production?, Production.of, hpresent]
  | openingClause h =>
    obtain ⟨t, rest, htokens, ht⟩ := h.derives.first
    have hne : t.kind ≠ .letWord := fun hk => by rw [hk] at ht; cases ht
    simp [Derivation.production?, Production.of, htokens, hne]
  | openingLet ht => simp [Derivation.production?, Production.of, ht]
  | letValue => simp [Derivation.production?, Production.of]
  | ifElse _ _ _ _ hb =>
    cases hb
    rfl
  | ifElseIf _ _ _ _ hn =>
    cases hn <;> rfl
  | letStep ht | funStep ht | classStep ht | printStep ht | whileStep ht | forStep ht | returnStep ht =>
    simp [Derivation.production?, Production.of, ht, Production.ofFirst]
  | ifStep h | blockStep h =>
    obtain ⟨t, rest, htokens, ht⟩ := h.derives.first
    simp [Derivation.production?, Production.of, htokens, beq_iff_eq.mp ht, Production.ofFirst]
  | expressionStep h =>
    obtain ⟨t, rest, htokens, ht⟩ := h.derives.first
    have hfirst : Production.ofFirst t.kind = .expressionStep := by
      generalize t.kind = k at ht
      cases k <;> first | rfl | cases ht
    simp [Derivation.production?, Production.of, htokens, hfirst]
  | _ => simp [Derivation.production?, Production.of, Node.isAbsent]

/-! ## The parts of two trees -/

/-- Part by part the trees are the same, if what is left has the same leaves. -/
inductive Aligned : List Derivation → List Derivation → Prop
  | nil : Aligned [] []
  | cons {d d' ds ds'} : (d.tokens ++ tokensOf ds = d'.tokens ++ tokensOf ds' → d = d') → Aligned ds ds' →
      Aligned (d :: ds) (d' :: ds')

/-- No other tree of the category has the same leaves and stands for the same syntax tree. -/
def Unique (d : Derivation) (c : Category) (n : Node) : Prop :=
  ∀ ⦃d' : Derivation⦄ ⦃n' : Node⦄, DerivedBy d' c n' → n = n' → d.tokens = d'.tokens → d = d'

namespace Aligned

variable {ds ds' : List Derivation} {d d' : Derivation} {c : Category} {n n' : Node}

theorem eq (h : Aligned ds ds') (ht : tokensOf ds = tokensOf ds') : ds = ds' := by
  induction h with
  | nil => rfl
  | cons hd _ ih =>
    rw [tokensOf_cons, tokensOf_cons] at ht
    obtain rfl := hd ht
    rw [ih (List.append_cancel_left ht)]

theorem token {t t' : Token} (h : Aligned ds ds') : Aligned (.token t :: ds) (.token t' :: ds') :=
  .cons (fun ht => by simp at ht; rw [ht.1]) h

/-- Expressions for the same syntax tree have equally many tokens. -/
theorem expression (hc : c.isExpression = true) (hd : DerivedBy d c n) (hu : Unique d c n) (hd' : DerivedBy d' c n')
    (hn : n = n') (h : Aligned ds ds') : Aligned (d :: ds) (d' :: ds') := by
  refine .cons (fun ht => hu hd' hn ?_) h
  have hlen : d.tokens.length = d'.tokens.length := by
    rw [hd.derives.length_eq_width hc, hd'.derives.length_eq_width hc, hn]
  exact (List.append_inj ht hlen).1

theorem closed (hc : c.Closed) (hd : DerivedBy d c n) (hu : Unique d c n) (hd' : DerivedBy d' c n')
    (h : Aligned ds ds') : Aligned (d :: ds) (d' :: ds') := by
  refine .cons (fun ht => ?_) h
  obtain ⟨htokens, hn⟩ := hc hd.derives hd'.derives ht
  exact hu hd' hn htokens

theorem last (hu : Unique d c n) (hd' : DerivedBy d' c n') (hn : n = n') : Aligned [d] [d'] :=
  .cons (fun ht => hu hd' hn (by simpa using ht)) .nil

/-- Expressions with commas between them. -/
theorem separated {more more' : List Derivation} (h : Aligned more more') :
    ∀ {items items' : List DerivedItem} {ds ds' : List Derivation},
      (∀ i ∈ items, DerivedBy i.1 .expression i.2) → (∀ i ∈ items, Unique i.1 .expression i.2) →
      (∀ i ∈ items', DerivedBy i.1 .expression i.2) → items.map (·.2) = items'.map (·.2) →
      Separated (items.map (·.1)) ds → Separated (items'.map (·.1)) ds' → Aligned (ds ++ more) (ds' ++ more')
  | [], [], _, _, _, _, _, _, .none, .none => h
  | [i], [i'], _, _, hi, hu, hi', hn, .one, .one =>
    have hd := hi i List.mem_cons_self
    .expression rfl hd (hu i List.mem_cons_self) (hi' i' List.mem_cons_self) (List.cons.inj hn).1 h
  | i :: j :: items, i' :: j' :: items', _, _, hi, hu, hi', hn, .more _ hs, .more _ hs' =>
    have htail : ∀ k ∈ j :: items, DerivedBy k.1 .expression k.2 := fun k hk => hi k (List.mem_cons_of_mem i hk)
    have htail' : ∀ k ∈ j' :: items', DerivedBy k.1 .expression k.2 := fun k hk => hi' k (List.mem_cons_of_mem i' hk)
    have hmore := separated h htail (fun k hk => hu k (List.mem_cons_of_mem i hk)) htail' (List.cons.inj hn).2 hs hs'
    have hd := hi i List.mem_cons_self
    .expression rfl hd (hu i List.mem_cons_self) (hi' i' List.mem_cons_self) (List.cons.inj hn).1 (.token hmore)
  | [_], _ :: _ :: _, _, _, _, _, _, hn, _, _ | _ :: _ :: _, [_], _, _, _, _, _, hn, _, _ => by simp at hn

/-- Tokens with commas between them. -/
theorem parameters {more more' : List Derivation} (h : Aligned more more') :
    ∀ {params params' : List Token} {ds ds' : List Derivation}, params.map (·.name) = params'.map (·.name) →
      Separated (params.map .token) ds → Separated (params'.map .token) ds' → Aligned (ds ++ more) (ds' ++ more')
  | [], [], _, _, _, .none, .none => h
  | [_], [_], _, _, _, .one, .one => .token h
  | _ :: q :: params, _ :: q' :: params', _, _, hn, .more _ hs, .more _ hs' =>
    have hmore : (q :: params).map (·.name) = (q' :: params').map (·.name) := (List.cons.inj hn).2
    .token (.token (parameters h hmore hs hs'))
  | [_], _ :: _ :: _, _, _, hn, _, _ | _ :: _ :: _, [_], _, _, hn, _, _ => by simp at hn

/-- In front of more parts of a category a part of it ends. -/
theorem ends_of_items (hnext : ∀ k, c.starts k = true → c.goesOn k = false) {items : List DerivedItem}
    (hi : ∀ i ∈ items, DerivedBy i.1 c i.2) (h : Ends c (tokensOf ds)) :
    Ends c (tokensOf (items.map (·.1) ++ ds)) := by
  cases items with
  | nil => exact h
  | cons i items =>
    obtain ⟨t, more, ht, hstart⟩ := (hi i List.mem_cons_self).derives.first
    simp only [List.map_cons, List.cons_append, tokensOf_cons, ht]
    exact ends_cons (hnext _ hstart) _

/-- Parts of a category one behind the other; where the first one ends is told by what follows it. -/
theorem items {more more' : List Derivation} (h : Aligned more more')
    (hfront : ∀ {ts ts' rest rest' : List Token} {n n' : Node}, Derives c ts n → Derives c ts' n' → Ends c rest →
      Ends c rest' → ts ++ rest = ts' ++ rest' → ts = ts' ∧ n = n')
    (hnext : ∀ k, c.starts k = true → c.goesOn k = false) (hends : Ends c (tokensOf more))
    (hends' : Ends c (tokensOf more')) :
    ∀ {items items' : List DerivedItem}, (∀ i ∈ items, DerivedBy i.1 c i.2) → (∀ i ∈ items, Unique i.1 c i.2) →
      (∀ i ∈ items', DerivedBy i.1 c i.2) → items.map (·.2) = items'.map (·.2) →
      Aligned (items.map (·.1) ++ more) (items'.map (·.1) ++ more')
  | [], [], _, _, _, _ => h
  | i :: items, i' :: items', hi, hu, hi', hn => by
    have hd := hi i List.mem_cons_self
    have hd' := hi' i' List.mem_cons_self
    have htail := fun k hk => hi k (List.mem_cons_of_mem i hk)
    have htail' := fun k hk => hi' k (List.mem_cons_of_mem i' hk)
    refine .cons (fun ht => ?_) (Aligned.items h hfront hnext hends hends' htail
      (fun k hk => hu k (List.mem_cons_of_mem i hk)) htail' (List.cons.inj hn).2)
    obtain ⟨htokens, hn⟩ := hfront hd.derives hd'.derives (ends_of_items hnext htail hends)
      (ends_of_items hnext htail' hends') ht
    exact hu i List.mem_cons_self hd' hn htokens

end Aligned

/-! ## Uniqueness -/

theorem Level.operands_inj {l : Level} {k k' : TokenKind} {f g : Node → Node → Line → Node} (hf : l.build? k = some f)
    (hg : l.build? k' = some g) {a b a' b' : Node} {line line' : Line} (h : f a b line = g a' b' line') :
    a = a' ∧ b = b' := by
  obtain ⟨o, rfl⟩ | ⟨o, rfl⟩ := Level.build?_shape hf
  · obtain ⟨o', rfl⟩ | ⟨o', rfl⟩ := Level.build?_shape hg
    · obtain ⟨-, ha, hb, -⟩ := Node.logical.inj h
      exact ⟨ha, hb⟩
    · cases h
  · obtain ⟨o', rfl⟩ | ⟨o', rfl⟩ := Level.build?_shape hg
    · cases h
    · obtain ⟨-, ha, hb, -⟩ := Node.binary.inj h
      exact ⟨ha, hb⟩

/-- A tree is unique if every other one with the same production at the top has the same parts. -/
theorem DerivedBy.unique_of_parts {p : Production} {ds : List Derivation} {c : Category} {n : Node}
    (h : DerivedBy (.node p ds) c n)
    (hparts : ∀ {ds' n'}, DerivedBy (.node p ds') c n' → n = n' → Aligned ds ds') : Unique (.node p ds) c n := by
  intro d' n' h' hn ht
  have hp : some p = d'.production? := by
    rw [h'.production, ← hn, ← ht]
    exact h.production
  cases d' with
  | token => cases hp
  | node p' ds' =>
    obtain rfl := Option.some.inj hp
    rw [tokens_node, tokens_node] at ht
    rw [(hparts h' hn).eq ht]

/-- No tokens have two derivation trees of a category for one syntax tree. -/
theorem DerivedBy.unique {d : Derivation} {c : Category} {n : Node} (h : DerivedBy d c n) : Unique d c n := by
  -- on the first tree; the other one has the same production, and its parts are aligned from the left
  induction h with
  | atom h => exact unique_of_parts (.atom h) fun h' _ => by cases h'; exact .token .nil
  | grouping hl hd hr ih =>
    refine unique_of_parts (.grouping hl hd hr) fun h' hn => ?_
    cases h' with
    | grouping _ hd' _ => exact .token (.expression rfl hd ih hd' (Node.grouping.inj hn).1 (.token .nil))
  | primary hd ih =>
    exact unique_of_parts (.primary hd) fun h' hn => by cases h' with | primary hd' => exact .last ih hd' hn
  | @call d l args r n items hd hl hi hs hr ih ihs =>
    refine unique_of_parts (.call hd hl hi hs hr) fun h' hn => ?_
    cases h' with
    | call hd' _ hi' hs' _ =>
      obtain ⟨hn, hns, -⟩ := Node.call.inj hn
      exact .expression rfl hd ih hd' hn (.token (.separated (.token .nil) hi ihs hi' hns hs hs'))
  | get hd hp ht ih =>
    refine unique_of_parts (.get hd hp ht) fun h' hn => ?_
    cases h' with
    | get hd' _ _ => exact .expression rfl hd ih hd' (Node.get.inj hn).1 (.token (.token .nil))
  | operand hd ih =>
    exact unique_of_parts (.operand hd) fun h' hn => by cases h' with | operand hd' => exact .last ih hd' hn
  | unary ho hd ih =>
    refine unique_of_parts (.unary ho hd) fun h' hn => ?_
    cases h' with
    | unary _ hd' => exact .token (.last ih hd' (Node.unary.inj hn).2.1)
  | single hd ih =>
    exact unique_of_parts (.single hd) fun h' hn => by cases h' with | single hd' => exact .last ih hd' hn
  | @left l _ _ _ _ _ _ hl hd hb hd' ih ih' =>
    refine unique_of_parts (.left hl hd hb hd') fun h' hn => ?_
    cases h' with
    | left _ he hb' he' =>
      obtain ⟨ha, hb⟩ := Level.operands_inj hb hb' hn
      exact .expression rfl hd ih he ha (.token (.last ih' he' hb))
    | right hl' => rw [hl] at hl'; cases hl'
  | @right l _ _ _ _ _ _ hl hd hb hd' ih ih' =>
    refine unique_of_parts (.right hl hd hb hd') fun h' hn => ?_
    cases h' with
    | right _ he hb' he' =>
      obtain ⟨ha, hb⟩ := Level.operands_inj hb hb' hn
      exact .expression l.isExpression_operand hd ih he ha (.token (.last ih' he' hb))
    | left hl' => rw [hl] at hl'; cases hl'
  | assign ht he hd ih =>
    refine unique_of_parts (.assign ht he hd) fun h' hn => ?_
    cases h' with
    | assign _ _ hd' => exact .token (.token (.last ih hd' (Node.assign.inj hn).2.1))
  | set hd hp ht he hd' ih ih' =>
    refine unique_of_parts (.set hd hp ht he hd') fun h' hn => ?_
    cases h' with
    | set he _ _ _ he' =>
      obtain ⟨hn, -, hv, -⟩ := Node.set.inj hn
      exact .expression rfl hd ih he hn (.token (.token (.token (.last ih' he' hv))))
  | plain hd ih =>
    exact unique_of_parts (.plain hd) fun h' hn => by cases h' with | plain hd' => exact .last ih hd' hn
  | noClause ht => exact unique_of_parts (.noClause ht) fun h' _ => by cases h'; exact .token .nil
  | clause hd ht ih =>
    refine unique_of_parts (.clause hd ht) fun h' hn => ?_
    cases h' with
    | clause hd' _ => exact .expression rfl hd ih hd' hn (.token .nil)
  | openingClause hd ih =>
    exact unique_of_parts (.openingClause hd) fun h' hn => by
      cases h' with | openingClause hd' => exact .last ih hd' hn
  | openingLet ht hd ih =>
    refine unique_of_parts (.openingLet ht hd) fun h' hn => ?_
    cases h' with
    | openingLet _ hd' => exact .token (.last ih hd' hn)
  | letNil ht hs => exact unique_of_parts (.letNil ht hs) fun h' _ => by cases h'; exact .token (.token .nil)
  | letValue ht he hd hs ih =>
    refine unique_of_parts (.letValue ht he hd hs) fun h' hn => ?_
    cases h' with
    | letValue _ _ hd' _ => exact .token (.token (.expression rfl hd ih hd' (Node.letDecl.inj hn).2.1 (.token .nil)))
  | function ht hl hp hs hr hd ih =>
    refine unique_of_parts (.function ht hl hp hs hr hd) fun h' hn => ?_
    cases h' with
    | function _ _ _ hs' _ hd' =>
      obtain ⟨-, hparams, hn, -⟩ := Node.function.inj hn
      exact .token (.token (.parameters (.token (.last ih hd' hn)) hparams hs hs'))
  | block hl hi hr ihs =>
    refine unique_of_parts (.block hl hi hr) fun h' hn => ?_
    cases h' with
    | block _ hi' hr' =>
      have ends : ∀ {t : Token}, t.kind = .rightBrace → Ends .declaration (tokensOf [.token t]) := fun ht => by
        simpa using ends_cons (by rw [ht]; rfl) []
      exact .token (.items (.token .nil) declaration_front goesOn_of_starts (ends hr) (ends hr') hi ihs hi'
        (Node.block.inj hn).1)
  | ifThen ht hc hb ihc ihb =>
    refine unique_of_parts (.ifThen ht hc hb) fun h' hn => ?_
    cases h' with
    | ifThen _ hc' hb' =>
      obtain ⟨hn, hbody, -⟩ := Node.ifElse.inj hn
      exact .token (.expression rfl hc ihc hc' hn (.last ihb hb' hbody))
  | ifElse ht hc hb he hd ihc ihb ih =>
    refine unique_of_parts (.ifElse ht hc hb he hd) fun h' hn => ?_
    cases h' with
    | ifElse _ hc' hb' _ hd' =>
      obtain ⟨hn, -, hbranch, -⟩ := Node.ifElse.inj hn
      exact .token (.expression rfl hc ihc hc' hn (.closed block_closed hb ihb hb' (.token (.last ih hd' hbranch))))
  | ifElseIf ht hc hb he hd ihc ihb ih =>
    refine unique_of_parts (.ifElseIf ht hc hb he hd) fun h' hn => ?_
    cases h' with
    | ifElseIf _ hc' hb' _ hd' =>
      obtain ⟨hn, -, hbranch, -⟩ := Node.ifElse.inj hn
      exact .token (.expression rfl hc ihc hc' hn (.closed block_closed hb ihb hb' (.token (.last ih hd' hbranch))))
  | letStep ht hd ih =>
    refine unique_of_parts (.letStep ht hd) fun h' hn => ?_
    cases h' with
    | letStep _ hd' => exact .token (.last ih hd' hn)
  | funStep ht hd ih =>
    refine unique_of_parts (.funStep ht hd) fun h' hn => ?_
    cases h' with
    | funStep _ hd' => exact .token (.last ih hd' hn)
  | classStep ht hname hl hi hr ihs =>
    refine unique_of_parts (.classStep ht hname hl hi hr) fun h' hn => ?_
    cases h' with
    | classStep _ _ _ hi' hr' =>
      exact .token (.token (.token (.items (.token .nil) (fun h h' _ _ => function_closed h h') (fun _ _ => rfl)
        (ends_any (fun _ => rfl) _) (ends_any (fun _ => rfl) _) hi ihs hi' (Node.classDecl.inj hn).2.1)))
  | printStep ht hd hs ih =>
    refine unique_of_parts (.printStep ht hd hs) fun h' hn => ?_
    cases h' with
    | printStep _ hd' _ => exact .token (.expression rfl hd ih hd' (Node.print.inj hn).1 (.token .nil))
  | ifStep hd ih =>
    exact unique_of_parts (.ifStep hd) fun h' hn => by cases h' with | ifStep hd' => exact .last ih hd' hn
  | whileStep ht hc hb ihc ihb =>
    refine unique_of_parts (.whileStep ht hc hb) fun h' hn => ?_
    cases h' with
    | whileStep _ hc' hb' =>
      obtain ⟨hn, hbody, -⟩ := Node.whileLoop.inj hn
      exact .token (.expression rfl hc ihc hc' hn (.last ihb hb' hbody))
  | forStep ht hl hi hc hs hb ihi ihc ihs ihb =>
    refine unique_of_parts (.forStep ht hl hi hc hs hb) fun h' _ => ?_
    -- the loop that a `for` stands for does not tell its clauses apart
    cases h' with
    | forStep _ _ hi' hc' hs' hb' =>
      exact .token (.token (.closed opening_closed hi ihi hi' (.closed (clause_closed rfl rfl) hc ihc hc'
        (.closed (clause_closed rfl rfl) hs ihs hs' (.closed block_closed hb ihb hb' .nil)))))
  | returnStep ht hd ih =>
    refine unique_of_parts (.returnStep ht hd) fun h' hn => ?_
    cases h' with
    | returnStep _ hd' => exact .token (.last ih hd' (Node.returnStep.inj hn).1)
  | blockStep hd ih =>
    exact unique_of_parts (.blockStep hd) fun h' hn => by cases h' with | blockStep hd' => exact .last ih hd' hn
  | expressionStep hd hs ih =>
    refine unique_of_parts (.expressionStep hd hs) fun h' hn => ?_
    cases h' with
    | expressionStep hd' _ => exact .expression rfl hd ih hd' hn (.token .nil)

/-- A program has no other derivation for the same steps. -/
theorem ProgramBy.unique {ds ds' : List Derivation} {ts : List Token} {ns : List Node} (h : ProgramBy ds ts ns)
    (h' : ProgramBy ds' ts ns) : ds = ds' := by
  obtain ⟨items, hi, rfl, rfl, rfl⟩ := h
  obtain ⟨items', hi', rfl, ht, hn⟩ := h'
  have ends : Ends .declaration (tokensOf []) := by simpa using ends_nil _
  have haligned := Aligned.items .nil declaration_front goesOn_of_starts ends ends hi (fun i hm => (hi i hm).unique) hi'
    hn
  rw [List.append_nil, List.append_nil] at haligned
  exact haligned.eq ht

/-! ## Derivations without diagnostics -/

theorem diagnosticsOf_given? {n : Node} (h : n.diagnostics = []) : Node.diagnosticsOf (given? n).toList = [] := by
  cases n <;> first | rfl | exact diagnosticsOf_of_mem fun m hm => List.mem_singleton.mp hm ▸ h

/-- What derives from the grammar has nothing in it that could not be read. -/
theorem Derives.diagnostics_eq_nil {c : Category} {ts : List Token} {n : Node} (h : Derives c ts n) :
    n.diagnostics = [] := by
  -- the steps of a block or a class
  have items : ∀ {items : List Item}, (∀ i ∈ items, i.2.diagnostics = []) →
      Node.diagnosticsOf (items.map (·.2)) = [] := fun h => diagnosticsOf_of_mem fun n hn => by
    obtain ⟨i, hi, rfl⟩ := List.mem_map.mp hn
    exact h i hi
  induction h with
  | atom h =>
    unfold atom? at h
    split at h <;> cases h <;> rfl
  | left _ _ hb | right _ _ hb => obtain ⟨o, rfl⟩ | ⟨o, rfl⟩ := Level.build?_shape hb <;> rfl
  | primary _ ih | operand _ ih | single _ ih | plain _ ih | clause _ _ ih | openingClause _ ih | openingLet _ _ ih
  | letStep _ _ ih | funStep _ _ ih | ifStep _ ih | blockStep _ ih | expressionStep _ _ ih => exact ih
  | function _ _ _ _ _ _ ih => exact ih
  | block _ _ _ ihs => exact items ihs
  | classStep _ _ _ _ _ ihs => exact items ihs
  | ifThen _ _ _ _ ihb => rw [Node.diagnostics, ihb]; rfl
  | ifElse _ _ _ _ _ _ ihb ih | ifElseIf _ _ _ _ _ _ ihb ih => rw [Node.diagnostics, ihb, ih]; rfl
  | whileStep _ _ _ _ ihb => exact ihb
  | @forStep _ _ _ _ _ _ _ _ s _ _ _ _ _ _ _ ihi _ ihs ihb =>
    refine (forLoop_diagnostics _ _ _ (diagnosticsOf_given? ihi) fun n hn => ?_).trans ihb
    cases s <;> cases hn <;> exact ihs
  | _ => rfl

theorem Program.diagnosticsOf_eq_nil {ts : List Token} {ns : List Node} (h : Program ts ns) :
    Node.diagnosticsOf ns = [] := by
  obtain ⟨items, hi, -, rfl⟩ := h
  refine diagnosticsOf_of_mem fun n hn => ?_
  obtain ⟨i, hm, rfl⟩ := List.mem_map.mp hn
  exact (hi i hm).diagnostics_eq_nil

end LoxLang.Grammar

namespace LoxLang

/-- A token list is read without diagnostics if and only if the tokens in front of the first end of input derive from
the grammar. They then have one derivation, they are its leaves in order, and the steps are what it stands for. -/
theorem parse_derivation (tokens : List Token) :
    (Node.diagnosticsOf (parse tokens) = [] ↔ ∃ ds ns, Grammar.ProgramBy ds (Token.beforeEnd tokens) ns) ∧
      ∀ ds ns, Grammar.ProgramBy ds (Token.beforeEnd tokens) ns →
        ns = parse tokens ∧ ∀ ds' ns', Grammar.ProgramBy ds' (Token.beforeEnd tokens) ns' → ds' = ds := by
  have hsteps : ∀ {ds ns}, Grammar.ProgramBy ds (Token.beforeEnd tokens) ns → ns = parse tokens := fun h =>
    (Grammar.program_complete (Grammar.program_iff.mpr ⟨_, h⟩)).symm
  refine ⟨⟨fun hd => ?_, fun ⟨ds, ns, h⟩ => ?_⟩, fun ds ns h => ⟨hsteps h, fun ds' ns' h' => ?_⟩⟩
  · obtain ⟨ds, h⟩ := Grammar.program_iff.mp (Grammar.program_sound hd)
    exact ⟨ds, _, h⟩
  · rw [← hsteps h]
    exact (Grammar.program_iff.mpr ⟨ds, h⟩).diagnosticsOf_eq_nil
  · rw [hsteps h] at h
    rw [hsteps h'] at h'
    exact h'.unique h

end LoxLang
