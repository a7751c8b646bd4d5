import LoxLang.Proofs.Completeness

/-!
# Programs are read in full

What derives as a declaration is read as one step, unless an `else` follows (`step_covers`). So the declarations of a
program are read in front of anything else (`parse_append`), and tokens that are declarations one behind the other have
no other steps (`program_complete`).
-/

namespace LoxLang.Grammar

open LoxLang.Parser

/-! ## Clauses and declarations -/

theorem ends_any {c : Category} (h : ∀ k, c.goesOn k = false) (rest : List Token) : Ends c rest := fun t _ => h t.kind

section Statements

variable {expression block : Parser Node} {size : Nat} (he : Covers expression .expression size)
  (hblock : Covers block .block size)

include he

/-- An expression in front of a token that does not go on with it. -/
theorem Covers.before {ts : List Token} {n : Node} {t : Token} (h : Derives .expression ts n) (hs : ts.length ≤ size)
    (ht : Category.expression.goesOn t.kind = false) (rest : List Token) :
    Runs expression (ts ++ t :: rest) n (t :: rest) := he ts n _ h hs (ends_cons ht rest)

theorem letDeclaration_covers : Covers (letDeclaration expression) .letDecl size := by
  intro ts n rest h hs _
  cases h with
  | @letNil t s ht hsemi =>
    have hequal : ∀ t', (s :: rest).head? = some t' → t'.kind ≠ .equal := fun t' h => by
      cases h
      rw [hsemi]
      decide
    exact .bind (.expect ht _) (.bind (.accept_none hequal) (.bind (.expect hsemi rest) (.pure _ rest)))
  | @letValue t e ts s n ht heq hd hsemi =>
    simp only [List.length_cons, List.length_append, List.length_nil] at hs
    have hvalue := he.before hd (by omega) (t := s) (by rw [hsemi]; rfl) rest
    simp only [List.cons_append, List.append_assoc, List.nil_append]
    exact .bind (.expect ht _) (.bind (.accept heq _) (.bind hvalue (.bind (.expect hsemi rest) (.pure _ rest))))

/-- A clause that may be left out, in front of a token that neither starts an expression nor goes on with one. -/
theorem optionalBefore_runs {k : TokenKind} (hstart : startsExpression k = false)
    (hgo : Category.expression.goesOn k = false) {ts : List Token} {n : Node} (h : Derives (.clause k) ts n)
    (hs : ts.length ≤ size) (rest : List Token) : Runs (optionalBefore expression k) (ts ++ rest) (given? n) rest := by
  refine .bind (.nextKind _) ?_
  cases h with
  | @noClause _ t ht =>
    simp only [List.cons_append, List.nil_append, List.head?_cons, Option.map_some, ht, if_true]
    exact .bind (.expect ht rest) (.pure none rest)
  | @clause _ ts t n hd ht =>
    simp only [List.length_append, List.length_cons, List.length_nil] at hs
    have hvalue := he.before hd (by omega) (t := t) (by rw [ht]; exact hgo) rest
    obtain ⟨u, more, rfl, hu⟩ := hd.first
    have hne : u.kind ≠ k := fun hk => by
      have hu' : startsExpression u.kind = true := hu
      rw [hk, hstart] at hu'
      cases hu'
    rw [given?_of_present (hd.present (fun _ hc => by cases hc) fun hc => by cases hc)]
    simp only [List.cons_append, List.append_assoc, List.nil_append, List.head?_cons, Option.map_some,
      Option.some.injEq, hne, if_false]
    exact .bind hvalue (.bind (.expect ht rest) (.pure _ rest))

theorem forInitializer_runs {ts : List Token} {n : Node} (h : Derives .opening ts n) (hs : ts.length ≤ size)
    (rest : List Token) : Runs (forInitializer expression) (ts ++ rest) (given? n) rest := by
  cases h with
  | openingClause h =>
    cases h with
    | noClause ht => exact .bind (.accept ht rest) (.pure none rest)
    | @clause _ ts t n hd ht =>
      simp only [List.length_append, List.length_cons, List.length_nil] at hs
      have hvalue := he.before hd (by omega) (t := t) (by rw [ht]; rfl) rest
      rw [given?_of_present (hd.present (fun _ hc => by cases hc) fun hc => by cases hc)]
      obtain ⟨u, more, rfl, hu⟩ := hd.first
      have hne : ∀ k, startsExpression k = false → u.kind ≠ k := fun k hk hu' => by
        have : startsExpression u.kind = true := hu
        rw [hu', hk] at this
        cases this
      simp only [List.cons_append, List.append_assoc, List.nil_append] at hvalue ⊢
      refine .bind (.accept_none fun t' ht' => ?_) (.bind (.accept_none fun t' ht' => ?_)
        (.bind hvalue (.bind (.expect ht rest) (.pure _ rest))))
      · cases ht'
        exact hne _ rfl
      · cases ht'
        exact hne _ rfl
  | @openingLet t ts n ht hd =>
    simp only [List.length_cons] at hs
    rw [given?_of_present (hd.present (fun _ hc => by cases hc) fun hc => by cases hc)]
    have hlet := letDeclaration_covers he ts n rest hd (by omega) (ends_any (fun _ => rfl) rest)
    refine .bind (.accept_none fun t' ht' => ?_) (.bind (.accept ht _) (.map hlet))
    cases ht'
    rw [ht]
    decide

omit he in
theorem parameters_runs {params ts : List Token} {r : Token} (hp : ∀ p ∈ params, p.kind = .identifier)
    (hl : Listed (params.map ([·])) ts) (hr : r.kind = .rightParen) {bound : Nat} (hb : ts.length ≤ bound + 1)
    (rest : List Token) : Runs (parameters bound) (ts ++ r :: rest) (params.map (·.name)) (r :: rest) := by
  refine .bind (.nextKind _) ?_
  cases params with
  | nil =>
    cases hl
    simp only [List.nil_append, List.head?_cons, Option.map_some, hr, if_true]
    exact .pure [] _
  | cons p params =>
    obtain ⟨more, rfl⟩ := hl.exists_append
    have hne : p.kind ≠ .rightParen := by
      rw [hp p List.mem_cons_self]
      decide
    have hcount := hl.length_le fun part hm => by
      obtain ⟨q, -, rfl⟩ := List.mem_map.mp hm
      simp
    have hl' : Listed (((p :: params).map fun q => ([q], q)).map (·.1)) ([p] ++ more) := by
      rwa [List.map_map]
    have hitems : Runs (commaSeparated (expect .parameter) bound) ([p] ++ more ++ r :: rest)
        (((p :: params).map fun q => ([q], q)).map (·.2)) (r :: rest) := by
      refine .commaSeparated (fun _ => True) (fun _ _ _ => trivial) trivial (fun t ht => ?_) (by simp) hl' ?_
        fun i hi r _ => ?_
      · cases ht
        rw [hr]
        decide
      · rw [List.length_map] at hcount ⊢
        exact Nat.le_trans hcount hb
      · obtain ⟨q, hq, rfl⟩ := List.mem_map.mp hi
        exact .expect (hp q hq) r
    simp only [List.cons_append, List.nil_append, List.head?_cons, Option.map_some, Option.some.injEq, hne, if_false]
    have hnames : (p :: params).map (·.name) = (((p :: params).map fun q => ([q], q)).map (·.2)).map (·.name) := by
      rw [List.map_map, List.map_map]
      rfl
    rw [hnames]
    exact .bind hitems (.pure _ _)

/-! ### Functions and classes -/

omit he in
/-- Items between braces, up to the closing one. -/
theorem items_run {item : Parser Node} {c : Category} {items : List Item} {r : Token} {bound : Nat}
    (hitem : Covers item c size) (hi : ∀ i ∈ items, Derives c i.1 i.2) (hr : r.kind = .rightBrace)
    (hc : c.goesOn .rightBrace = false) (hstart : c.starts .rightBrace = false)
    (hnext : ∀ k, c.starts k = true → c.goesOn k = false) (hs : (items.flatMap (·.1)).length ≤ size)
    (hb : (items.flatMap (·.1)).length ≤ bound) (rest : List Token) :
    Runs (manyUntil (· == .rightBrace) item bound) (items.flatMap (·.1) ++ r :: rest) (items.map (·.2))
      (r :: rest) := by
  have hcount := length_le_flatMap fun i hmem => (hi i hmem).nonempty
  refine .manyUntil (ends_cons (hr ▸ hc) rest) (fun t ht => ?_) (Nat.le_trans hcount hb) (fun i hmem more hends => ?_)
    fun i hmem => ?_
  · cases ht
    exact beq_iff_eq.mpr hr
  · have hpart : i.1.length ≤ (items.flatMap (·.1)).length :=
      (List.sublist_flatten_of_mem (List.mem_map_of_mem hmem)).length_le
    exact hitem i.1 i.2 more (hi i hmem) (Nat.le_trans hpart hs) hends
  · obtain ⟨t, ts, ht, hfirst⟩ := (hi i hmem).first
    refine ⟨⟨t, ts, ht, ?_⟩, fun more => ?_⟩
    · rw [beq_eq_false_iff_ne]
      intro hk
      rw [hk, hstart] at hfirst
      cases hfirst
    · rw [ht, List.cons_append]
      exact ends_cons (hnext _ hfirst) _

include hblock

omit he in
theorem functionDeclaration_covers {bound : Nat} (hb : size ≤ bound + 1) :
    Covers (functionDeclaration block bound) .function size := by
  intro ts n rest h hs _
  cases h with
  | @function t l ts r ts' n params ht hl hp hlist hr hbody =>
    simp only [List.length_cons, List.length_append] at hs
    have hparams := parameters_runs hp hlist hr (by omega : ts.length ≤ bound + 1) (ts' ++ rest)
    have hblock' := hblock ts' n rest hbody (by omega) (ends_any (fun _ => rfl) rest)
    simp only [List.cons_append, List.append_assoc]
    exact .bind (.expect ht _) (.bind (.expect hl _) (.bind hparams
      (.bind (.expect hr _) (.bind hblock' (.pure _ rest)))))

omit he in
/-- A class behind its keyword. -/
theorem classDeclaration_runs {name l r : Token} {items : List Item} {bound : Nat} (hname : name.kind = .identifier)
    (hl : l.kind = .leftBrace) (hi : ∀ i ∈ items, Derives .function i.1 i.2) (hr : r.kind = .rightBrace)
    (hs : (items.flatMap (·.1)).length ≤ size) (hb : size ≤ bound) (rest : List Token) :
    Runs (classDeclaration block bound) (name :: l :: (items.flatMap (·.1) ++ r :: rest))
      (.classDecl name.name (items.map (·.2)) name.line) rest := by
  have hitem := functionDeclaration_covers hblock (Nat.le_succ_of_le hb)
  have hitems := items_run hitem hi hr rfl rfl (fun _ _ => rfl) hs (Nat.le_trans hs hb) rest
  exact .bind (.expect hname _) (.bind (.expect hl _) (.bind hitems (.bind (.expect hr rest) (.pure _ rest))))

/-! ### Statements -/

include he

/-- An `if` behind its keyword, with all its branches. -/
theorem ifStatement_runs (rounds : Nat) {t : Token} {ts : List Token} {n : Node} (h : Derives .ifStep (t :: ts) n)
    (hs : ts.length ≤ size) (hr : ts.length < rounds) {rest : List Token} (hends : Ends .ifStep rest) :
    Runs (ifStatement expression block t.line rounds) (ts ++ rest) n rest := by
  induction rounds generalizing t ts n with
  | zero => omega
  | succ rounds ih =>
    -- the condition stands in front of a block, so in front of a brace
    have hcondition : ∀ {ts₁ ts₂ c b}, Derives .expression ts₁ c → Derives .block ts₂ b → ts₁.length ≤ size →
        ∀ more, Runs expression (ts₁ ++ (ts₂ ++ more)) c (ts₂ ++ more) := fun {ts₁ ts₂ c b} hc hb hlen more => by
      obtain ⟨l, ts, rfl, hl⟩ := hb.first
      refine he ts₁ c _ hc hlen (ends_cons ?_ _)
      rw [beq_iff_eq.mp hl]
      rfl
    cases h with
    | @ifThen _ ts₁ c ts₂ b _ hc hb =>
      rw [List.length_append] at hs hr
      rw [List.append_assoc]
      refine .bind (hcondition hc hb (by omega) rest)
        (.bind (hblock ts₂ b rest hb (by omega) (ends_any (fun _ => rfl) _))
        (.bind (.accept_none fun u hu hk => ?_) (.pure _ rest)))
      have := hends u hu
      rw [hk] at this
      cases this
    | @ifElse _ ts₁ c ts₂ b e ts₃ b' _ hc hb he' hb' =>
      simp only [List.length_append, List.length_cons] at hs hr
      simp only [List.append_assoc, List.cons_append]
      have hfirst := hblock ts₂ b (e :: (ts₃ ++ rest)) hb (by omega) (ends_any (fun _ => rfl) _)
      have hsecond := hblock ts₃ b' rest hb' (by omega) (ends_any (fun _ => rfl) _)
      obtain ⟨l, more, rfl, hl⟩ := hb'.first
      refine .bind (hcondition hc hb (by omega) _) (.bind hfirst (.bind (.accept he' _)
        (.bind (.accept_none fun u hu hk => ?_) (.bind hsecond (.pure _ rest)))))
      cases hu
      rw [hk] at hl
      cases hl
    | @ifElseIf _ ts₁ c ts₂ b e ts₃ n _ hc hb he' hn =>
      simp only [List.length_append, List.length_cons] at hs hr
      simp only [List.append_assoc, List.cons_append]
      have hfirst := hblock ts₂ b (e :: (ts₃ ++ rest)) hb (by omega) (ends_any (fun _ => rfl) _)
      obtain ⟨u, more, rfl, hu⟩ := hn.first
      rw [List.length_cons] at hs hr
      have hsecond := ih hn (by omega) (by omega)
      exact .bind (hcondition hc hb (by omega) _) (.bind hfirst (.bind (.accept he' _)
        (.bind (.accept (beq_iff_eq.mp hu) _) (.bind hsecond (.pure _ rest)))))

/-- A `for` behind its keyword. -/
theorem forStatement_runs {l : Token} {ts₁ ts₂ ts₃ ts₄ : List Token} {i c s b : Node} (hl : l.kind = .leftParen)
    (hi : Derives .opening ts₁ i) (hc : Derives (.clause .semicolon) ts₂ c) (hs : Derives (.clause .rightParen) ts₃ s)
    (hb : Derives .block ts₄ b) (hlen : (ts₁ ++ (ts₂ ++ (ts₃ ++ ts₄))).length ≤ size) (line : Line)
    (rest : List Token) :
    Runs (forStatement expression block line) (l :: (ts₁ ++ (ts₂ ++ (ts₃ ++ (ts₄ ++ rest)))))
      (Node.forLoop (given? i) (given? c) (given? s) b line) rest := by
  simp only [List.length_append] at hlen
  have hinit := forInitializer_runs he hi (by omega) (ts₂ ++ (ts₃ ++ (ts₄ ++ rest)))
  have hcondition := optionalBefore_runs he rfl rfl hc (by omega) (ts₃ ++ (ts₄ ++ rest))
  have hincrement := optionalBefore_runs he rfl rfl hs (by omega) (ts₄ ++ rest)
  have hbody := hblock ts₄ b rest hb (by omega) (ends_any (fun _ => rfl) rest)
  exact .bind (.expect hl _) (.bind hinit (.bind hcondition (.bind hincrement (.bind hbody (.pure _ rest)))))

/-! ### Declarations -/

omit he hblock in
/-- A declaration that starts with a keyword is what stands behind the keyword. -/
theorem declaration_of_keyword {bound : Nat} {t : Token} {k : KeywordStep} {ts rest : List Token} {n : Node}
    (hk : keywordStep? t.kind = some k) (h : Runs (afterKeyword expression block bound t.line k) ts n rest) :
    Runs (declaration expression block bound) (t :: ts) n rest := .bind (.acceptMap hk ts) h

theorem declaration_covers {bound : Nat} (hb : size ≤ bound) :
    Covers (declaration expression block bound) .declaration size := by
  intro ts n rest h hs hends
  -- by the first token: a keyword tells the kind of step, and an expression starts with neither a keyword nor a brace
  cases h with
  | @letStep t ts n ht h =>
    rw [List.length_cons] at hs
    exact declaration_of_keyword (k := .letStep) (by rw [ht]; rfl)
      (letDeclaration_covers he ts n rest h (by omega) (ends_any (fun _ => rfl) rest))
  | @funStep t ts n ht h =>
    rw [List.length_cons] at hs
    exact declaration_of_keyword (k := .funStep) (by rw [ht]; rfl)
      (functionDeclaration_covers hblock (Nat.le_succ_of_le hb) ts n rest h (by omega) (ends_any (fun _ => rfl) rest))
  | @classStep t name l r items ht hname hl hi hr =>
    simp only [List.length_cons, List.length_append, List.length_nil] at hs
    simp only [List.cons_append, List.append_assoc, List.nil_append]
    exact declaration_of_keyword (k := .classStep) (by rw [ht]; rfl)
      (classDeclaration_runs hblock hname hl hi hr (by omega) hb rest)
  | @printStep t ts s n ht h hsemi =>
    simp only [List.length_cons, List.length_append, List.length_nil] at hs
    have hvalue := he.before h (by omega) (t := s) (by rw [hsemi]; rfl) rest
    simp only [List.cons_append, List.append_assoc, List.nil_append]
    exact declaration_of_keyword (k := .printStep) (by rw [ht]; rfl)
      (.bind hvalue (.bind (.expect hsemi rest) (.pure _ rest)))
  | ifStep h =>
    obtain ⟨t, ts, rfl, ht⟩ := h.first
    rw [List.length_cons] at hs
    have hword : t.kind = .ifWord := beq_iff_eq.mp ht
    exact declaration_of_keyword (k := .ifStep) (by rw [hword]; rfl)
      (ifStatement_runs he hblock bound h (by omega) (by omega) hends)
  | @whileStep t ts₁ c ts₂ b ht hc hbody =>
    simp only [List.length_cons, List.length_append] at hs
    simp only [List.cons_append, List.append_assoc]
    have hloop := hblock ts₂ b rest hbody (by omega) (ends_any (fun _ => rfl) rest)
    obtain ⟨l, more, rfl, hl⟩ := hbody.first
    have hcondition := he.before hc (by omega) (t := l) (by rw [beq_iff_eq.mp hl]; rfl) (more ++ rest)
    exact declaration_of_keyword (k := .whileStep) (by rw [ht]; rfl) (.bind hcondition (.bind hloop (.pure _ rest)))
  | @forStep t l ts₁ ts₂ ts₃ ts₄ i c s b ht hl hi hc hs' hbody =>
    simp only [List.length_cons] at hs
    simp only [List.cons_append, List.append_assoc]
    exact declaration_of_keyword (k := .forStep) (by rw [ht]; rfl)
      (forStatement_runs he hblock hl hi hc hs' hbody (by omega) t.line rest)
  | @returnStep t ts n ht h =>
    rw [List.length_cons] at hs
    have hvalue := optionalBefore_runs he rfl rfl h (by omega) rest
    have habsent : (given? n).getD .absent = n := by cases n <;> rfl
    have hrun : Runs (returnStatement expression t.line) (ts ++ rest) (.returnStep ((given? n).getD .absent) t.line)
        rest := .bind hvalue (.pure _ rest)
    rw [habsent] at hrun
    exact declaration_of_keyword (k := .returnStep) (by rw [ht]; rfl) hrun
  | blockStep h =>
    have hrun := hblock ts n rest h hs (ends_any (fun _ => rfl) rest)
    obtain ⟨t, ts, rfl, ht⟩ := h.first
    have hbrace : t.kind = .leftBrace := beq_iff_eq.mp ht
    refine .bind (.acceptMap_none fun u hu => ?_) (.bind (.nextKind _) ?_)
    · cases hu
      rw [hbrace]
      rfl
    · simp only [List.cons_append, List.head?_cons, Option.map_some, hbrace, if_true]
      exact hrun
  | @expressionStep ts s n h hsemi =>
    simp only [List.length_append, List.length_cons, List.length_nil] at hs
    have hvalue := he.before h (by omega) (t := s) (by rw [hsemi]; rfl) rest
    obtain ⟨t, ts, rfl, ht⟩ := h.first
    have hstart : startsExpression t.kind = true := ht
    have hne : t.kind ≠ .leftBrace := fun hk => by rw [hk] at hstart; cases hstart
    have hkeyword : keywordStep? t.kind = none := by
      generalize t.kind = k at hstart
      cases k <;> first | rfl | cases hstart
    simp only [List.append_assoc, List.cons_append, List.nil_append] at hvalue ⊢
    refine .bind (.acceptMap_none fun u hu => ?_) (.bind (.nextKind _) ?_)
    · cases hu
      exact hkeyword
    · simp only [List.head?_cons, Option.map_some, Option.some.injEq, hne, if_false]
      exact .bind hvalue (.bind (.expect hsemi rest) (.pure _ rest))

end Statements

/-! ## Steps and programs -/

theorem goesOn_of_starts (k : TokenKind) (h : Category.declaration.starts k = true) :
    Category.declaration.goesOn k = false := by
  cases k <;> first | rfl | cases h

theorem blockOf_covers {step : Parser Node} {b : Nat} (hs : Covers step .declaration b) :
    Covers (blockOf step (b + 1)) .block (b + 1) := by
  intro ts n rest h hlen _
  cases h with
  | @block l r items hl hi hr =>
    simp only [List.length_cons, List.length_append, List.length_nil] at hlen
    have hitems := items_run hs hi hr rfl rfl goesOn_of_starts (by omega) (show _ ≤ b + 1 by omega) rest
    simp only [List.cons_append, List.append_assoc, List.nil_append]
    exact .bind (.expect hl _) (.bind hitems (.bind (.expect hr rest) (.pure _ rest)))

theorem step_covers : ∀ b, Covers (step b) .declaration b
  | 0 => fun ts n rest h hs => absurd (List.length_pos_iff.mpr h.nonempty) (by omega)
  | b + 1 => fun ts n rest h hs hends =>
    .recovering (declaration_covers (expression_covers (b + 1)) (blockOf_covers (step_covers b)) (Nat.le_refl _)
      ts n rest h hs hends)

theorem Program.length_le {ts : List Token} {ns : List Node} (h : Program ts ns) : ns.length ≤ ts.length := by
  obtain ⟨items, hi, rfl, rfl⟩ := h
  rw [List.length_map]
  exact length_le_flatMap fun i hmem => (hi i hmem).nonempty

/-- The declarations of a program are read in front of anything but an `else`. -/
theorem program_append {ts rest : List Token} {ns : List Node} (h : Program ts ns) (hrest : Ends .declaration rest)
    {size bound : Nat} (hs : ts.length ≤ size) (hb : ts.length ≤ bound) (e : Line) (caught : List Diagnostic) :
    manyUntil (fun _ => false) (step size) bound e ⟨ts ++ rest, caught⟩ =
      ((ns ++ ·) <$> manyUntil (fun _ => false) (step size) (bound - ns.length)) e ⟨rest, caught⟩ := by
  obtain ⟨items, hi, rfl, rfl⟩ := h
  have hcount := length_le_flatMap fun i hmem => (hi i hmem).nonempty
  rw [List.length_map]
  refine Runs.manyUntil_append hrest e caught (Nat.le_trans hcount hb) (fun i hmem more hends => ?_) fun i hmem => ?_
  · have hpart : i.1.length ≤ (items.flatMap (·.1)).length :=
      (List.sublist_flatten_of_mem (List.mem_map_of_mem hmem)).length_le
    exact step_covers size i.1 i.2 more (hi i hmem) (Nat.le_trans hpart hs) hends
  · obtain ⟨t, ts, ht, hfirst⟩ := (hi i hmem).first
    refine ⟨⟨t, ts, ht, rfl⟩, fun more => ?_⟩
    rw [ht, List.cons_append]
    exact ends_cons (goesOn_of_starts _ hfirst) _

/-- Tokens that are declarations have these declarations as their steps. -/
theorem program_complete {tokens : List Token} {ns : List Node} (h : Program (Token.beforeEnd tokens) ns) :
    parse tokens = ns := by
  have hrun := program_append h (ends_nil _) (Nat.le_refl _) (Nat.le_refl _) (Token.endLine tokens) []
  have hend : ∀ bound e, manyUntil (fun _ => false) (step (Token.beforeEnd tokens).length) bound e ⟨[], []⟩ =
      .ok [] ⟨[], []⟩ := fun bound e => by cases bound <;> rfl
  rw [List.append_nil, map_apply, hend] at hrun
  simp only [parse, parseWithLog, Parser.program, hrun, List.append_nil]

/-- Behind the declarations of a program, the other steps are those of the tokens that are left. -/
theorem program_split {tokens ts ts' : List Token} {ns : List Node} (h : Program ts ns) (hrest : Ends .declaration ts')
    (htokens : Token.beforeEnd tokens = ts ++ ts') (hd : Node.diagnosticsOf (parse tokens) = []) :
    ∃ ns', parse tokens = ns ++ ns' ∧ Program ts' ns' := by
  have hlen : (ts ++ ts').length = ts.length + ts'.length := List.length_append
  have hcount := h.length_le
  have hrun := program_append h hrest (show _ ≤ (ts ++ ts').length by omega) (show _ ≤ (ts ++ ts').length by omega)
    (Token.endLine tokens) []
  obtain ⟨ns', after, hmore, hsound⟩ := steps_sound (ts ++ ts').length
    (show ts'.length ≤ (ts ++ ts').length - ns.length by omega) (Token.endLine tokens) []
  rw [map_apply, hmore] at hrun
  have hsteps : parse tokens = ns ++ ns' := by
    simp only [parse, parseWithLog, Parser.program, htokens, hrun]
  refine ⟨ns', hsteps, hsound ?_⟩
  rw [hsteps, diagnosticsOf_append, List.append_eq_nil_iff] at hd
  exact hd.2

end LoxLang.Grammar
