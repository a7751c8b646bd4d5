import LoxLang.Proofs.Parsing

/-!
# Everything that derives is read

`Runs p ts a rest` says that a parser answers `a` on the tokens `ts` and leaves `rest`. What derives from a category is
read by the parser of the category, provided that no token follows that could go on with it (`Derives.complete`).
Left-recursive categories are read by loops, so for them it is said at which state of the loop the tokens leave the
parser. So the steps of tokens that derive from the grammar are read in front of anything else (`program_complete`).
-/

namespace LoxLang.Parser

variable {α β : Type}

/-- On the tokens `ts` the parser answers `a`, recovers from nothing, and leaves `rest`. -/
def Runs (p : Parser α) (ts : List Token) (a : α) (rest : List Token) : Prop :=
  ∀ e caught, p e ⟨ts, caught⟩ = .ok a ⟨rest, caught⟩

theorem map_apply (g : α → β) (p : Parser α) (e : Line) (s : ParseState) :
    (g <$> p) e s = match p e s with
      | .ok a after => .ok (g a) after
      | .fail fault after => .fail fault after := rfl

namespace Runs

variable {p : Parser α} {f : α → Parser β} {a : α} {b : β} {ts ts₁ rest : List Token} {t : Token}

theorem pure (a : α) (ts : List Token) : Runs (Pure.pure a) ts a ts := fun _ _ => rfl

theorem bind (hp : Runs p ts a ts₁) (hf : Runs (f a) ts₁ b rest) : Runs (p >>= f) ts b rest := fun e caught => by
  rw [bind_apply, hp e caught]
  exact hf e caught

theorem map {g : α → β} (hp : Runs p ts a rest) : Runs (g <$> p) ts (g a) rest := fun e caught => by
  rw [map_apply, hp e caught]

/-! ## Single tokens -/

theorem nextKind (ts : List Token) : Runs nextKind ts (ts.head?.map (·.kind)) ts := fun _ _ => rfl

theorem accept {k : TokenKind} (h : t.kind = k) (rest : List Token) : Runs (accept k) (t :: rest) (some t) rest :=
  fun _ _ => by simp only [Parser.accept, if_pos h]

theorem accept_none {k : TokenKind} (h : ∀ t, ts.head? = some t → t.kind ≠ k) : Runs (Parser.accept k) ts none ts := by
  intro e caught
  cases ts with
  | nil => rfl
  | cons t rest => simp only [Parser.accept, if_neg (h t rfl)]

theorem acceptMap {f : TokenKind → Option β} (h : f t.kind = some b) (rest : List Token) :
    Runs (acceptMap f) (t :: rest) (some (b, t)) rest := fun _ _ => by simp only [Parser.acceptMap, h]

theorem acceptMap_none {f : TokenKind → Option β} (h : ∀ t, ts.head? = some t → f t.kind = none) :
    Runs (Parser.acceptMap f) ts none ts := by
  intro e caught
  cases ts with
  | nil => rfl
  | cons t rest => simp only [Parser.acceptMap, h t rfl]

theorem acceptAtom {n : Node} (h : atom? t = some n) (rest : List Token) :
    Runs acceptAtom (t :: rest) (some n) rest := fun _ _ => by simp only [Parser.acceptAtom, h]

theorem acceptAtom_none (h : ∀ t, ts.head? = some t → atom? t = none) : Runs Parser.acceptAtom ts none ts := by
  intro e caught
  cases ts with
  | nil => rfl
  | cons t rest => simp only [Parser.acceptAtom, h t rfl]

theorem expect {wanted : Wanted} (h : t.kind = wanted.token) (rest : List Token) :
    Runs (expect wanted) (t :: rest) t rest := .bind (accept h rest) (.pure t rest)

/-! ## Repetition -/

/-- Items with commas between them, in front of something else; `follows` says what may stand behind an item. -/
theorem commaSeparated {item : Parser α} (follows : List Token → Prop)
    (hcomma : ∀ c r, c.kind = .comma → follows (c :: r)) (hrest : follows rest)
    (hend : ∀ t, rest.head? = some t → t.kind ≠ .comma) :
    ∀ {items : List (List Token × α)} {ts : List Token} {bound : Nat}, items ≠ [] →
      Grammar.Listed (items.map (·.1)) ts → items.length ≤ bound + 1 →
      (∀ i ∈ items, ∀ r, follows r → Runs item (i.1 ++ r) i.2 r) →
      Runs (commaSeparated item bound) (ts ++ rest) (items.map (·.2)) rest
  | [], _, _, h, _, _, _ => absurd rfl h
  | [i], ts, bound, _, hl, _, hi => by
    cases hl
    have hitem := hi i List.mem_cons_self rest hrest
    cases bound with
    | zero => exact hitem.bind (.pure _ rest)
    | succ bound => exact hitem.bind (.bind (accept_none hend) (.pure _ rest))
  | i :: j :: items, ts, bound, _, hl, hb, hi => by
    cases hl with
    | @more _ c _ _ more hc hl =>
      obtain ⟨bound, rfl⟩ : ∃ b, bound = b + 1 := ⟨bound - 1, by simp at hb; omega⟩
      have hitem := hi i List.mem_cons_self (c :: (more ++ rest)) (hcomma c _ hc)
      have hmore : Runs (Parser.commaSeparated item bound) (more ++ rest) ((j :: items).map (·.2)) rest :=
        commaSeparated follows hcomma hrest hend (by simp) hl (by simpa using hb) fun k hk =>
          hi k (List.mem_cons_of_mem i hk)
      rw [List.append_assoc, List.cons_append]
      exact hitem.bind (.bind (accept hc _) (.bind hmore (.pure _ rest)))

/-- The first items of a repetition are read, and then the repetition goes on. -/
theorem manyUntil_append {item : Parser α} {stop : TokenKind → Bool} {follows : List Token → Prop}
    (hrest : follows rest)
    (e : Line) (caught : List Diagnostic) : ∀ {items : List (List Token × α)} {bound : Nat}, items.length ≤ bound →
      (∀ i ∈ items, ∀ r, follows r → Runs item (i.1 ++ r) i.2 r) →
      (∀ i ∈ items, (∃ t ts, i.1 = t :: ts ∧ stop t.kind = false) ∧ ∀ r, follows (i.1 ++ r)) →
      Parser.manyUntil stop item bound e ⟨items.flatMap (·.1) ++ rest, caught⟩ =
        ((items.map (·.2) ++ ·) <$> Parser.manyUntil stop item (bound - items.length)) e ⟨rest, caught⟩
  | [], bound, _, _, _ => by
    rw [map_apply]
    simp only [List.flatMap_nil, List.nil_append, List.map_nil, List.length_nil, Nat.sub_zero]
    cases Parser.manyUntil stop item bound e ⟨rest, caught⟩ <;> rfl
  | i :: items, bound, hb, hi, hs => by
    obtain ⟨bound, rfl⟩ : ∃ b, bound = b + 1 := ⟨bound - 1, by simp at hb; omega⟩
    obtain ⟨⟨t, ts, ht, hstop⟩, -⟩ := hs i List.mem_cons_self
    have hfollows : follows (items.flatMap (·.1) ++ rest) := by
      cases items with
      | nil => exact hrest
      | cons j items =>
        rw [List.flatMap_cons, List.append_assoc]
        exact (hs j (List.mem_cons_of_mem i List.mem_cons_self)).2 _
    have hitem := hi i List.mem_cons_self _ hfollows e caught
    have hmore := manyUntil_append hrest e caught (by simpa using hb : items.length ≤ bound)
      (fun j hj => hi j (List.mem_cons_of_mem i hj)) fun j hj => hs j (List.mem_cons_of_mem i hj)
    have hround : Parser.manyUntil stop item (bound + 1) e ⟨i.1 ++ (items.flatMap (·.1) ++ rest), caught⟩ =
        ((i.2 :: ·) <$> Parser.manyUntil stop item bound) e ⟨items.flatMap (·.1) ++ rest, caught⟩ := by
      rw [Parser.manyUntil, bind_apply, nextKind _ e caught]
      simp only [ht, List.cons_append, List.head?_cons, Option.map_some, hstop, Bool.false_eq_true, if_false]
      rw [bind_apply, ← List.cons_append, ← ht, hitem]
      rfl
    rw [List.flatMap_cons, List.append_assoc, hround, map_apply, hmore, map_apply, map_apply, List.length_cons,
      Nat.add_sub_add_right]
    cases Parser.manyUntil stop item (bound - items.length) e ⟨rest, caught⟩ <;> rfl

/-- Items up to a token that stops them, or to the end. -/
theorem manyUntil {item : Parser α} {stop : TokenKind → Bool} {follows : List Token → Prop} (hrest : follows rest)
    (hend : ∀ t, rest.head? = some t → stop t.kind = true) {items : List (List Token × α)} {bound : Nat}
    (hb : items.length ≤ bound) (hi : ∀ i ∈ items, ∀ r, follows r → Runs item (i.1 ++ r) i.2 r)
    (hs : ∀ i ∈ items, (∃ t ts, i.1 = t :: ts ∧ stop t.kind = false) ∧ ∀ r, follows (i.1 ++ r)) :
    Runs (manyUntil stop item bound) (items.flatMap (·.1) ++ rest) (items.map (·.2)) rest := by
  intro e caught
  have hstop : ∀ bound, Parser.manyUntil stop item bound e ⟨rest, caught⟩ = .ok [] ⟨rest, caught⟩ := by
    intro bound
    cases bound with
    | zero => rfl
    | succ bound =>
      cases rest with
      | nil => rfl
      | cons t rest =>
        rw [Parser.manyUntil, bind_apply, nextKind _ e caught]
        simp only [List.head?_cons, Option.map_some, hend t rfl, if_true]
        rfl
  rw [manyUntil_append hrest e caught hb hi hs, map_apply, hstop]
  simp

/-- A step that can be read needs no recovery. -/
theorem recovering {step : Parser Node} {n : Node} (h : Runs step ts n rest) : Runs (recovering step) ts n rest :=
  fun e caught => by rw [Parser.recovering, h e caught]

end Runs

end LoxLang.Parser

namespace LoxLang.Grammar

open LoxLang.Parser

/-! ## Tokens that go on, and tokens that start -/

def callGoesOn : TokenKind → Bool
  | .leftParen | .dot => true
  | _ => false

/-- The levels that bind at least as tightly. -/
def Level.inside : Level → List Level
  | disjunction => [disjunction, conjunction, equality, comparison, term, factor]
  | conjunction => [conjunction, equality, comparison, term, factor]
  | equality => [equality, comparison, term, factor]
  | comparison => [comparison, term, factor]
  | term => [term, factor]
  | factor => [factor]

/-- Whether a token of the kind, behind tokens of the category, may belong to them. -/
def Category.goesOn : Category → TokenKind → Bool
  | expression, k => callGoesOn k || Level.disjunction.inside.any (fun l => (l.build? k).isSome) || k == .equal
  | binary l, k => callGoesOn k || l.inside.any fun l => (l.build? k).isSome
  | unary, k | call, k => callGoesOn k
  | ifStep, k | declaration, k => k == .elseWord
  | _, _ => false

/-- No token follows that may go on with the category. -/
def Ends (c : Category) (rest : List Token) : Prop := ∀ t, rest.head? = some t → c.goesOn t.kind = false

def startsCall : TokenKind → Bool
  | .trueWord | .falseWord | .nilWord | .number | .string | .identifier | .thisWord | .leftParen => true
  | _ => false

def startsExpression (k : TokenKind) : Bool := startsCall k || (unaryOp k).isSome

/-- Whether tokens of the category may start with a token of the kind. -/
def Category.starts : Category → TokenKind → Bool
  | primary, k | call, k => startsCall k
  | unary, k | binary _, k | expression, k => startsExpression k
  | clause closing, k => startsExpression k || k == closing
  | opening, k => startsExpression k || k == .semicolon || k == .letWord
  | letDecl, k | function, k => k == .identifier
  | block, k => k == .leftBrace
  | ifStep, k => k == .ifWord
  | declaration, k => startsExpression k || k == .leftBrace || (keywordStep? k).isSome

theorem Level.starts_operand (l : Level) (k : TokenKind) : l.operand.starts k = startsExpression k := by
  cases l <;> rfl

theorem startsCall_of_atom {t : Token} {n : Node} (h : atom? t = some n) : startsCall t.kind = true := by
  unfold atom? at h
  split at h
  all_goals first | cases h; done | simp_all [startsCall]

theorem startsExpression_of_call {k : TokenKind} (h : startsCall k = true) : startsExpression k = true := by
  rw [startsExpression, h, Bool.true_or]

theorem unaryOp_of_startsCall {k : TokenKind} (h : startsCall k = true) : unaryOp k = none := by
  cases k <;> first | rfl | cases h

theorem Derives.first {c : Category} {ts : List Token} {n : Node} (h : Derives c ts n) :
    ∃ t rest, ts = t :: rest ∧ c.starts t.kind = true := by
  induction h with
  | atom h => exact ⟨_, _, rfl, startsCall_of_atom h⟩
  | grouping hl => exact ⟨_, _, rfl, by rw [hl]; rfl⟩
  | primary _ ih | plain _ ih => exact ih
  | call _ _ _ _ _ ih | get _ _ _ ih | left _ _ _ _ ih =>
    obtain ⟨t, rest, rfl, ht⟩ := ih
    exact ⟨t, _, rfl, ht⟩
  | operand _ ih | set _ _ _ _ _ ih =>
    obtain ⟨t, rest, rfl, ht⟩ := ih
    exact ⟨t, _, rfl, startsExpression_of_call ht⟩
  | unary ho => exact ⟨_, _, rfl, by simp [Category.starts, startsExpression, ho]⟩
  | @single l _ _ _ ih | @right l _ _ _ _ _ _ _ _ _ _ ih =>
    obtain ⟨t, rest, rfl, ht⟩ := ih
    rw [l.starts_operand] at ht
    exact ⟨t, _, rfl, ht⟩
  | assign ht => exact ⟨_, _, rfl, by rw [ht]; rfl⟩
  | noClause ht => exact ⟨_, _, rfl, by simp [Category.starts, ht]⟩
  | clause _ _ ih =>
    obtain ⟨t, rest, rfl, ht⟩ := ih
    exact ⟨t, _, rfl, by simp [Category.starts, show startsExpression t.kind = true from ht]⟩
  | openingClause _ ih =>
    obtain ⟨t, rest, rfl, ht⟩ := ih
    rw [Category.starts] at ht
    exact ⟨t, _, rfl, by rw [Category.starts, ht, Bool.true_or]⟩
  | ifStep _ ih =>
    obtain ⟨t, rest, rfl, ht⟩ := ih
    rw [Category.starts, beq_iff_eq] at ht
    exact ⟨t, _, rfl, by rw [ht]; rfl⟩
  | blockStep _ ih =>
    obtain ⟨t, rest, rfl, ht⟩ := ih
    rw [Category.starts, beq_iff_eq] at ht
    exact ⟨t, _, rfl, by rw [ht]; rfl⟩
  | expressionStep _ _ ih =>
    obtain ⟨t, rest, rfl, ht⟩ := ih
    exact ⟨t, _, rfl, by simp [Category.starts, show startsExpression t.kind = true from ht]⟩
  | openingLet ht | letNil ht | letValue ht | function ht | block ht | ifThen ht | ifElse ht | ifElseIf ht | letStep ht
  | funStep ht | classStep ht | printStep ht | whileStep ht | forStep ht | returnStep ht =>
    exact ⟨_, _, rfl, by rw [ht]; rfl⟩

/-! ## What follows -/

theorem ends_nil (c : Category) : Ends c [] := fun _ h => nomatch h

theorem ends_cons {c : Category} {t : Token} (h : c.goesOn t.kind = false) (rest : List Token) : Ends c (t :: rest) :=
  fun _ ht => by cases ht; exact h

theorem Ends.mono {c c' : Category} {rest : List Token} (h : Ends c rest)
    (hc : ∀ k, c.goesOn k = false → c'.goesOn k = false) : Ends c' rest := fun t ht => hc _ (h t ht)

theorem goesOn_operand (l : Level) {k : TokenKind} (h : (Category.binary l).goesOn k = false) :
    l.operand.goesOn k = false := by
  cases l <;> simp_all [Category.goesOn, Level.inside, Level.operand]

theorem goesOn_disjunction {k : TokenKind} (h : Category.expression.goesOn k = false) :
    (Category.binary .disjunction).goesOn k = false := by
  simp only [Category.goesOn, Bool.or_eq_false_iff] at h ⊢
  exact h.1

/-- An operator does not go on with the operand in front of it. -/
theorem goesOn_of_build {l : Level} {k : TokenKind} {build : Node → Node → Line → Node} (h : l.build? k = some build) :
    l.operand.goesOn k = false := by
  have hsome : (l.build? k).isSome = true := by rw [h]; rfl
  cases l <;> cases k <;> first | rfl | cases hsome

theorem build?_of_ends {l : Level} {t : Token} (h : (Category.binary l).goesOn t.kind = false) :
    l.build? t.kind = none := by
  have : (l.build? t.kind).isSome = false := by
    cases l <;> simp_all [Category.goesOn, Level.inside]
  simpa using this

/-! ## Parts of a list -/

theorem Listed.length_part {parts : List (List Token)} {ts part : List Token} (h : Listed parts ts)
    (hp : part ∈ parts) :
    part.length ≤ ts.length := by
  induction h with
  | none => cases hp
  | one => exact Nat.le_of_eq (congrArg List.length (List.mem_singleton.mp hp))
  | more _ _ ih =>
    rw [List.length_append, List.length_cons]
    obtain rfl | hp := List.mem_cons.mp hp
    · omega
    · have := ih hp
      omega

theorem Listed.length_le {parts : List (List Token)} {ts : List Token} (h : Listed parts ts)
    (hp : ∀ part ∈ parts, part ≠ []) : parts.length ≤ ts.length := by
  induction h with
  | none => simp
  | one => exact List.length_pos_iff.mpr (hp _ List.mem_cons_self)
  | more _ _ ih =>
    have := ih fun part hm => hp part (List.mem_cons_of_mem _ hm)
    simp only [List.length_cons, List.length_append] at this ⊢
    omega

theorem Listed.exists_append {part : List Token} {parts : List (List Token)} {ts : List Token}
    (h : Listed (part :: parts) ts) : ∃ more, ts = part ++ more := by
  cases h with
  | one => exact ⟨[], (List.append_nil _).symm⟩
  | more => exact ⟨_, rfl⟩

/-! ## Expressions -/

/-- The parser reads whatever derives from the category and has at most so many tokens. -/
def Covers (p : Parser Node) (c : Category) (size : Nat) : Prop :=
  ∀ ts n rest, Derives c ts n → ts.length ≤ size → Ends c rest → Runs p (ts ++ rest) n rest

section Expressions

variable {nested : Parser Node} {b : Nat} (hn : Covers nested .expression b)
include hn

theorem primary_covers : Covers (primary nested) .primary (b + 1) := by
  intro ts n rest h hs _
  cases h with
  | atom ha => exact .bind (.acceptAtom ha rest) (.pure n rest)
  | @grouping l ts r n hl hd hr =>
    have hatom : atom? l = none := by unfold atom?; rw [hl]
    have hinner : Runs nested (ts ++ r :: rest) n (r :: rest) := by
      refine hn ts n _ hd ?_ (ends_cons ?_ rest)
      · simp only [List.length_cons, List.length_append, List.length_nil] at hs
        omega
      · rw [hr]; rfl
    simp only [List.cons_append, List.append_assoc, List.nil_append]
    refine .bind (.acceptAtom_none fun t ht => ?_)
      (.bind (.accept hl _) (.bind hinner (.bind (.expect hr rest) (.pure _ _))))
    cases ht
    exact hatom

/-- Arguments behind their opening parenthesis. -/
theorem arguments_runs {items : List Item} {args : List Token} {r : Token}
    (hi : ∀ i ∈ items, Derives .expression i.1 i.2) (hl : Listed (items.map (·.1)) args) (hr : r.kind = .rightParen)
    (bound : Nat) (hb : args.length ≤ bound + 1) (hs : args.length ≤ b) (rest : List Token) :
    Runs (arguments nested bound) (args ++ r :: rest) (items.map (·.2)) rest := by
  have hclose : Runs (do let _ ← expect .argumentsEnd; pure (items.map (·.2))) (r :: rest) (items.map (·.2)) rest :=
    .bind (.expect hr rest) (.pure _ rest)
  refine .bind (.nextKind _) ?_
  cases items with
  | nil =>
    cases hl
    simp only [List.nil_append, List.head?_cons, Option.map_some, hr, if_true]
    exact .bind (.pure [] _) hclose
  | cons i items =>
    obtain ⟨more, rfl⟩ := hl.exists_append
    obtain ⟨t, ts, ht, hstart⟩ := (hi i List.mem_cons_self).first
    have hne : t.kind ≠ .rightParen := fun hk => by rw [hk] at hstart; cases hstart
    simp only [ht, List.cons_append, List.head?_cons, Option.map_some, Option.some.injEq, hne, if_false]
    rw [← List.cons_append, ← List.cons_append, ← ht]
    have hitems := hl.length_le fun part hm => by
      obtain ⟨j, hj, rfl⟩ := List.mem_map.mp hm
      exact (hi j hj).nonempty
    rw [List.length_map] at hitems
    refine .bind (.commaSeparated (Ends .expression) (fun c r hc => ends_cons ?_ r) (ends_cons ?_ rest) ?_
      (by simp) hl (Nat.le_trans hitems hb) fun j hj r hends => ?_) hclose
    · rw [hc]; rfl
    · rw [hr]; rfl
    · intro t ht
      cases ht
      rw [hr]
      decide
    · exact hn j.1 j.2 r (hi j hj) (Nat.le_trans (hl.length_part (List.mem_map_of_mem hj)) hs) hends

/-- What derives as a call leaves the parser in its loop. -/
theorem call_runs {ts : List Token} {n : Node} (h : Derives .call ts n) (hs : ts.length ≤ b + 1) (k : Nat)
    (hk : ts.length ≤ k + 1) : ∃ k', k + 1 ≤ k' + ts.length ∧ ∀ rest m rest',
      Runs (suffixesFrom nested k' n) rest m rest' → Runs (call nested k) (ts ++ rest) m rest' := by
  generalize hc : Category.call = c at h
  induction h with
  | @primary ts n h =>
    obtain ⟨t, more, rfl, -⟩ := h.first
    refine ⟨k, by simp, fun rest m rest' hrun => ?_⟩
    exact .bind (primary_covers hn _ n rest h hs fun _ _ => rfl) hrun
  | @call ts l args r n items _ hl hi hlist hr ih =>
    simp only [List.length_append, List.length_cons, List.length_nil] at hs hk ⊢
    obtain ⟨k', hk', hloop⟩ := ih (by omega) (by omega) rfl
    obtain ⟨k', rfl⟩ : ∃ j, k' = j + 1 := ⟨k' - 1, by omega⟩
    refine ⟨k', by omega, fun rest m rest' hrun => ?_⟩
    have hargs := arguments_runs hn hi hlist hr (k' + 1) (by omega) (by omega) rest
    simp only [List.append_assoc, List.cons_append, List.nil_append]
    exact hloop _ m rest' (.bind (.accept hl _) (.bind hargs hrun))
  | @get ts d t n _ hd ht ih =>
    simp only [List.length_append, List.length_cons, List.length_nil] at hs hk ⊢
    obtain ⟨k', hk', hloop⟩ := ih (by omega) (by omega) rfl
    obtain ⟨k', rfl⟩ : ∃ j, k' = j + 1 := ⟨k' - 1, by omega⟩
    refine ⟨k', by omega, fun rest m rest' hrun => ?_⟩
    have hname : Runs (propertyName d.line) (t :: rest) t.name rest := .bind (.accept ht rest) (.pure _ rest)
    have hparen : ∀ t', (d :: t :: rest).head? = some t' → t'.kind ≠ .leftParen := fun t' ht' => by
      cases ht'
      rw [hd]
      decide
    simp only [List.append_assoc, List.cons_append, List.nil_append]
    exact hloop _ m rest' (.bind (.accept_none hparen) (.bind (.accept hd _) (.bind hname hrun)))
  | _ => cases hc

omit hn in
theorem suffixesFrom_runs (k : Nat) (n : Node) {rest : List Token} (h : Ends .call rest) :
    Runs (suffixesFrom nested k n) rest n rest := by
  cases k with
  | zero => exact .pure n rest
  | succ k =>
    refine .bind (.accept_none fun t ht hk => ?_) (.bind (.accept_none fun t ht hk => ?_) (.pure n rest))
    · have hends := h t ht
      rw [hk] at hends
      cases hends
    · have hends := h t ht
      rw [hk] at hends
      cases hends

theorem call_covers {k : Nat} (hk : b ≤ k) : Covers (call nested k) .call (b + 1) := by
  intro ts n rest h hs hends
  obtain ⟨k', -, hloop⟩ := call_runs hn h hs k (by omega)
  exact hloop rest n rest (suffixesFrom_runs k' n hends)

theorem unary_covers {bound : Nat} (hb : b ≤ bound) (rounds : Nat) {size : Nat} (hs : size ≤ b + 1)
    (hr : size ≤ rounds + 1) : Covers (unary nested bound rounds) .unary size := by
  induction rounds generalizing size with
  | zero =>
    intro ts n rest h hts hends
    cases h with
    | operand h => exact call_covers hn hb ts n rest h (Nat.le_trans hts hs) hends
    | unary ho h =>
      have := List.length_pos_iff.mpr h.nonempty
      simp only [List.length_cons] at hts
      omega
  | succ rounds ih =>
    intro ts n rest h hts hends
    cases h with
    | operand h =>
      obtain ⟨t, more, rfl, ht⟩ := h.first
      refine .bind (.acceptMap_none fun t' ht' => ?_) (call_covers hn hb _ n rest h (Nat.le_trans hts hs) hends)
      cases ht'
      exact unaryOp_of_startsCall ht
    | @unary t o ts n ho h =>
      simp only [List.length_cons] at hts
      have hinner := ih (show ts.length ≤ b + 1 by omega) (by omega) ts n rest h (Nat.le_refl _) hends
      exact .bind (.acceptMap ho _) (.bind hinner (.pure _ rest))

end Expressions

/-! ### Chains -/

section Chains

variable {op : Type} {operator : TokenKind → Option op} {build : op → Node → Node → Line → Node} {operand : Parser Node}
  {l : Level} (hb : ∀ k, l.build? k = (operator k).map build) {size : Nat} (ho : Covers operand l.operand size)
include hb

theorem operator_none {rest : List Token} (h : Ends (.binary l) rest) :
    ∀ t, rest.head? = some t → operator t.kind = none := fun t ht => by
  have hnone := build?_of_ends (h t ht)
  rwa [hb, Option.map_eq_none_iff] at hnone

theorem operator_some {t : Token} {f : Node → Node → Line → Node} (h : l.build? t.kind = some f) :
    ∃ o, operator t.kind = some o ∧ build o = f := by
  rw [hb] at h
  exact Option.map_eq_some_iff.mp h

include ho

/-- What derives from a level that associates to the left leaves the parser in its loop. -/
theorem leftChain_runs {ts : List Token} {n : Node} (h : Derives (.binary l) ts n) (hl : l.isLeft = true)
    (hs : ts.length ≤ size) (k : Nat) (hk : ts.length ≤ k + 1) : ∃ k', k + 1 ≤ k' + ts.length ∧ ∀ rest m rest',
      Ends l.operand rest → Runs (leftChainFrom operator build operand k' n) rest m rest' →
      Runs (leftChain operator build operand k) (ts ++ rest) m rest' := by
  -- on the derivation from the left: the loop is entered behind the leftmost operand, and every round takes one more
  generalize hc : Category.binary l = c at h
  induction h with
  | @single l' ts n h =>
    cases hc
    obtain ⟨t, more, rfl, -⟩ := h.first
    exact ⟨k, by simp, fun rest m rest' hends hrun => .bind (ho _ n rest h hs hends) hrun⟩
  | @left l' ts a t f ts' b _ _ hf hb' ih =>
    cases hc
    simp only [List.length_append, List.length_cons] at hs hk ⊢
    obtain ⟨k', hk', hloop⟩ := ih (by omega) (by omega) rfl
    obtain ⟨k', rfl⟩ : ∃ j, k' = j + 1 := ⟨k' - 1, by omega⟩
    obtain ⟨o, hop, rfl⟩ := operator_some hb hf
    refine ⟨k', by omega, fun rest m rest' hends hrun => ?_⟩
    have hright := ho ts' b rest hb' (by omega) hends
    rw [List.append_assoc, List.cons_append]
    exact hloop _ m rest' (ends_cons (goesOn_of_build hf) _) (.bind (.acceptMap hop _) (.bind hright hrun))
  | right hl' => cases hc; rw [hl] at hl'; cases hl'
  | _ => cases hc

theorem leftChain_covers (hl : l.isLeft = true) {k : Nat} (hk : size ≤ k + 1) :
    Covers (leftChain operator build operand k) (.binary l) size := by
  intro ts n rest h hs hends
  obtain ⟨k', -, hloop⟩ := leftChain_runs hb ho h hl hs k (Nat.le_trans hs hk)
  refine hloop rest n rest (hends.mono fun _ => goesOn_operand l) ?_
  cases k' with
  | zero => exact .pure n rest
  | succ k' => exact .bind (.acceptMap_none (operator_none hb hends)) (.pure n rest)

theorem rightChain_covers (hl : l.isLeft = false) {k : Nat} (hk : size ≤ k + 1) :
    Covers (rightChain operator build operand k) (.binary l) size := by
  intro ts n rest h hs hends
  have hk' := Nat.le_trans hs hk
  have hoperand := hends.mono fun _ => goesOn_operand l
  clear hk
  generalize hc : Category.binary l = c at h
  -- on the derivation, where the right operand is one of the same level with fewer tokens
  induction h generalizing k with
  | @single l' ts n h =>
    cases hc
    have hrun := ho ts n rest h hs hoperand
    cases k with
    | zero => exact hrun
    | succ k => exact .bind hrun (.bind (.acceptMap_none (operator_none hb hends)) (.pure n rest))
  | @right l' ts a t f ts' b _ ha hf _ _ ih =>
    cases hc
    simp only [List.length_append, List.length_cons] at hs hk'
    have := List.length_pos_iff.mpr ha.nonempty
    obtain ⟨k, rfl⟩ : ∃ j, k = j + 1 := ⟨k - 1, by omega⟩
    obtain ⟨o, hop, rfl⟩ := operator_some hb hf
    have hleft := ho ts a (t :: (ts' ++ rest)) ha (by omega) (ends_cons (goesOn_of_build hf) _)
    have hright := ih (k := k) (by omega) (by omega) rfl
    rw [List.append_assoc, List.cons_append]
    exact .bind hleft (.bind (.acceptMap hop _) (.bind hright (.pure _ rest)))
  | left hl' => cases hc; rw [hl] at hl'; cases hl'
  | _ => cases hc

end Chains

/-! ### Assignments -/

/-- A call is an expression of the loosest level. -/
theorem Derives.disjunction_of_call {ts : List Token} {n : Node} (h : Derives .call ts n) :
    Derives (.binary .disjunction) ts n :=
  have factor : Derives (.binary .factor) ts n := .single (.operand h)
  have term : Derives (.binary .term) ts n := .single factor
  have comparison : Derives (.binary .comparison) ts n := .single term
  have equality : Derives (.binary .equality) ts n := .single comparison
  have conjunction : Derives (.binary .conjunction) ts n := .single equality
  .single conjunction

section Levels

variable {nested : Parser Node} {b : Nat} (hn : Covers nested .expression b)
include hn

theorem disjunction_covers : Covers (disjunction nested (b + 1)) (.binary .disjunction) (b + 1) :=
  have hb : b + 1 ≤ b + 1 + 1 := Nat.le_succ _
  have unary := unary_covers hn (Nat.le_succ b) (b + 1) (Nat.le_refl (b + 1)) hb
  have factor : Covers (factor nested (b + 1)) (.binary .factor) (b + 1) := leftChain_covers (fun _ => rfl) unary rfl hb
  have term : Covers (term nested (b + 1)) (.binary .term) (b + 1) := leftChain_covers (fun _ => rfl) factor rfl hb
  have comparison : Covers (comparison nested (b + 1)) (.binary .comparison) (b + 1) :=
    rightChain_covers (fun _ => rfl) term rfl hb
  have equality : Covers (equality nested (b + 1)) (.binary .equality) (b + 1) :=
    rightChain_covers (fun _ => rfl) comparison rfl hb
  have conjunction : Covers (conjunction nested (b + 1)) (.binary .conjunction) (b + 1) :=
    leftChain_covers (fun _ => rfl) equality rfl hb
  leftChain_covers (fun _ => rfl) conjunction rfl hb

theorem assignment_covers (rounds : Nat) {size : Nat} (hs : size ≤ b + 1) (hr : size ≤ rounds + 1) :
    Covers (assignment nested (b + 1) rounds) .expression size := by
  induction rounds generalizing size with
  | zero =>
    intro ts n rest h hts hends
    cases h with
    | plain h =>
      exact disjunction_covers hn ts n rest h (Nat.le_trans hts hs) (hends.mono fun _ => goesOn_disjunction)
    | assign | set => simp only [List.length_cons, List.length_append] at hts; omega
  | succ rounds ih =>
    intro ts n rest h hts hends
    cases h with
    | plain h =>
      have htarget := disjunction_covers hn ts n rest h (Nat.le_trans hts hs) (hends.mono fun _ => goesOn_disjunction)
      refine .bind htarget (.bind (.accept_none fun t ht hk => ?_) (.pure n rest))
      have := hends t ht
      rw [hk] at this
      cases this
    | @assign t e ts n ht he h =>
      simp only [List.length_cons] at hts
      have hatom : atom? t = some (.var t.name t.line none) := by unfold atom?; rw [ht]
      have hvar : Derives .call [t] (.var t.name t.line none) := .primary (.atom hatom)
      have hequal : Ends (.binary .disjunction) (e :: (ts ++ rest)) := ends_cons (by rw [he]; rfl) _
      have htarget := disjunction_covers hn [t] _ _ hvar.disjunction_of_call (by simp) hequal
      have hvalue := ih (show ts.length ≤ b + 1 by omega) (by omega) ts n rest h (Nat.le_refl _) hends
      exact .bind htarget (.bind (.accept he _) (.bind hvalue (.pure _ rest)))
    | @set ts n d t e ts' v h hd ht he hv =>
      simp only [List.length_cons, List.length_append] at hts
      have hequal : Ends (.binary .disjunction) (e :: (ts' ++ rest)) := ends_cons (by rw [he]; rfl) _
      have htarget := disjunction_covers hn (ts ++ [d, t]) _ _ (Derives.get h hd ht).disjunction_of_call
        (by simp; omega) hequal
      have hvalue := ih (show ts'.length ≤ b + 1 by omega) (by omega) ts' v rest hv (Nat.le_refl _) hends
      rw [List.append_assoc] at htarget
      rw [List.append_assoc]
      exact .bind htarget (.bind (.accept he _) (.bind hvalue (.pure _ rest)))

end Levels

theorem expression_covers : ∀ b, Covers (expression b) .expression b
  | 0 => fun ts n rest h hs => absurd (List.length_pos_iff.mpr h.nonempty) (by omega)
  | b + 1 => assignment_covers (expression_covers b) (b + 1) (Nat.le_refl _) (Nat.le_succ _)

end LoxLang.Grammar
