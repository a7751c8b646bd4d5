import LoxLang.Proofs.Isolation

/-!
# Parsing makes progress

Every step that starts in front of the end of input takes a token, whether it can be read or not (`step_advances`). So
the loops of the parser need no bounds: `Loops` is how a loop without a bound ends, a loop whose rounds take a token
ends from every state, and with the reply of the bounded loop as soon as the bound is not below the number of tokens
that are left (`Loops.of_bounded`). Put together, any list of tokens is read up to its first end of input, and no
further (`parser_progress`).
-/

namespace LoxLang.Parser

variable {α β : Type}

instance : LawfulMonad Parser := LawfulMonad.mk' Parser
  (fun p => by funext e s; show (p >>= pure) e s = _; rw [bind_apply]; cases p e s <;> rfl)
  (fun _ _ => rfl)
  (fun p f g => by funext e s; simp only [bind_apply]; cases p e s <;> rfl)

/-! ## Loops without bounds -/

/-- The reply with which a loop ends that starts from a value and a state. A round leaves the loop, goes on with another
value, or fails. -/
inductive Loops (round : β → Parser (β ⊕ α)) (e : Line) : β → ParseState → Reply α → Prop
  | leave {b s a after} : round b e s = .ok (.inr a) after → Loops round e b s (.ok a after)
  | fail {b s fault after} : round b e s = .fail fault after → Loops round e b s (.fail fault after)
  | again {b s b' after reply} : round b e s = .ok (.inl b') after → Loops round e b' after reply →
      Loops round e b s reply

/-- A round that goes on takes a token. -/
def Consuming (round : β → Parser (β ⊕ α)) : Prop :=
  ∀ b e s b' after, round b e s = .ok (.inl b') after → after.rest.length < s.rest.length

namespace Loops

variable {round : β → Parser (β ⊕ α)} {e : Line} {b : β} {s : ParseState} {reply reply' : Reply α}

theorem unique (h : Loops round e b s reply) (h' : Loops round e b s reply') : reply = reply' := by
  induction h with
  | leave hr =>
    cases h' with
    | leave hr' => rw [hr] at hr'; cases hr'; rfl
    | fail hr' => rw [hr] at hr'; cases hr'
    | again hr' _ => rw [hr] at hr'; cases hr'
  | fail hr =>
    cases h' with
    | leave hr' => rw [hr] at hr'; cases hr'
    | fail hr' => rw [hr] at hr'; cases hr'; rfl
    | again hr' _ => rw [hr] at hr'; cases hr'
  | again hr _ ih =>
    cases h' with
    | leave hr' => rw [hr] at hr'; cases hr'
    | fail hr' => rw [hr] at hr'; cases hr'
    | again hr' h' =>
      rw [hr] at hr'
      cases hr'
      exact ih h'

/-- What every round keeps holds where the last round starts. -/
theorem last {I : β → ParseState → Prop} {a : α} {after : ParseState} (h : Loops round e b s (.ok a after)) (hs : I b s)
    (hround : ∀ b s b' after, round b e s = .ok (.inl b') after → I b s → I b' after) :
    ∃ b' s', I b' s' ∧ round b' e s' = .ok (.inr a) after := by
  generalize hreply : Reply.ok a after = reply at h
  induction h with
  | leave hr => cases hreply; exact ⟨_, _, hs, hr⟩
  | fail _ => cases hreply
  | again hr _ ih => exact ih (hround _ _ _ _ hr hs) hreply

/-- A bounded loop that does round after round, as long as the bound is not below the number of tokens that are left,
ends as the loop without the bound. -/
theorem of_bounded {size : Nat} (hround : Consuming round) (loop : Nat → β → Parser α)
    (hzero : ∀ b e s, s.rest = [] → Loops round e b s (loop 0 b e s))
    (hsucc : ∀ bound b e s, s.rest.length ≤ size → s.rest.length ≤ bound + 1 →
      loop (bound + 1) b e s = (round b >>= Sum.elim (loop bound) pure) e s) (e : Line) :
    ∀ bound b s, s.rest.length ≤ size → s.rest.length ≤ bound → Loops round e b s (loop bound b e s)
  | 0, b, s, _, hb => hzero b e s (List.eq_nil_of_length_eq_zero (Nat.le_zero.mp hb))
  | bound + 1, b, s, hs, hb => by
    rw [hsucc bound b e s hs hb, bind_apply]
    cases hr : round b e s with
    | fail fault after => exact .fail hr
    | ok found after =>
      cases found with
      | inr a => exact .leave hr
      | inl b' =>
        have hlt := hround b e s b' after hr
        exact .again hr (of_bounded hround loop hzero hsucc e bound b' after (by omega) (by omega))

end Loops

/-! ## Parsers that take a token -/

/-- An answer takes a token, unless there is none. -/
def Takes (p : Parser α) : Prop :=
  ∀ e s a after, s.rest ≠ [] → p e s = .ok a after → after.rest.length < s.rest.length

/-- At least one token is taken for an answer. -/
abbrev TakesSome (ts : List Token) (_ : α) : Prop := ts ≠ []

theorem Reads.length_lt {p : Parser α} {Q : List Token → α → Prop} (h : Reads p Q) {e : Line} {s after : ParseState}
    {a : α} (hr : p e s = .ok a after) (hne : ∀ ts, Q ts a → ts ≠ []) : after.rest.length < s.rest.length := by
  have hs := h e s
  rw [hr] at hs
  obtain ⟨ts, hts, ha⟩ := hs
  have hpos := List.length_pos_iff.mpr (hne ts ha)
  rw [hts, List.length_append]
  omega

theorem Reads.takes {p : Parser α} (h : Reads p TakesSome) : Takes p := fun _ _ _ _ _ hr => h.length_lt hr fun _ => id

theorem expression_takesSome (bound : Nat) : Reads (expression bound) TakesSome :=
  (expression_reads bound).mono fun _ _ h => h.nonempty

section Declarations

variable {expression block step : Parser Node} {size bound : Nat}

theorem blockOf_takesSome (hs : Reads step (Sound .declaration)) : Reads (blockOf step bound) TakesSome := by
  refine .bind (.expect _) fun ts l h => .bind (.manyUntil _ hs bound) fun ts₁ steps _ => ?_
  refine .bind (.expect _) fun ts₂ r _ => .pure ?_
  rw [h.1]
  exact List.cons_ne_nil _ _

theorem functionDeclaration_takesSome (hblock : Reads block (Sound .block)) :
    Reads (functionDeclaration block bound) TakesSome := by
  refine .bind (.expect _) fun ts t h => .bind (.expect _) fun ts₁ l _ => ?_
  refine .bind (parameters_reads bound) fun ts₂ names _ => .bind (.expect _) fun ts₃ r _ => ?_
  refine .bind hblock fun ts₄ body _ => .pure ?_
  rw [h.1]
  exact List.cons_ne_nil _ _

theorem declaration_takesSome (he : Reads expression (Grammar.Derives .expression))
    (hblock : Reads block (Sound .block)) (hsome : Reads block TakesSome) :
    Reads (declaration expression block bound) TakesSome := by
  refine .bind (.acceptMap keywordStep?) fun ts found h => ?_
  cases found with
  | some found =>
    obtain ⟨k, t⟩ := found
    obtain ⟨rfl, hk⟩ := h
    exact (afterKeyword_reads he hblock bound hk).mono fun _ _ _ => List.cons_ne_nil _ _
  | none =>
    subst h
    refine .bind .nextKind fun ts found h => ?_
    subst h
    split
    · exact hsome
    · refine .bind he fun ts n hn => .bind (.expect _) fun ts' s _ => .pure ?_
      exact List.append_ne_nil_of_left_ne_nil hn.nonempty _

end Declarations

/-- Recovery starts behind a token of the step that failed. -/
theorem resume_eq {start left : List Token} (hne : start ≠ []) (hl : left <:+ start) :
    ∃ taken last cut, start = taken ++ last :: cut ∧ resume start left = skipFrom last.kind cut := by
  obtain ⟨taken, last, cut, hstart, -, hresume⟩ := Parallel.resume_cut hne hl
  exact ⟨taken, last, cut, hstart, by simpa only [List.append_nil] using hresume []⟩

theorem recovering_takes {p : Parser Node} (h : Reads p TakesSome) : Takes (recovering p) := by
  intro e s n after hne hr
  have hs := h e s
  unfold recovering at hr
  cases hp : p e s with
  | ok n' after' =>
    rw [hp] at hr
    cases hr
    exact h.takes e s n after hne hp
  | fail fault after' =>
    rw [hp] at hr hs
    cases hr
    obtain ⟨taken, last, cut, hstart, hresume⟩ := resume_eq hne hs
    have hle := (Reads.skipFrom_suffix last.kind cut).length_le
    dsimp only
    rw [hresume, hstart, List.length_append, List.length_cons]
    omega

theorem step_takes : ∀ bound, Takes (step bound)
  | 0 => recovering_takes (.failHere _)
  | bound + 1 =>
    recovering_takes (declaration_takesSome (expression_reads (bound + 1))
      (blockOf_reads (step_reads bound) (bound + 1)) (blockOf_takesSome (step_reads bound)))

/-- A step that starts in front of the end of input takes a token and none behind it, whether it can be read or not. -/
theorem step_advances (bound : Nat) (e : Line) {s : ParseState} (hne : s.rest ≠ []) :
    ∃ n after, step bound e s = .ok n after ∧ after.rest <:+ s.rest ∧ after.rest.length < s.rest.length := by
  obtain ⟨n, after, hr⟩ := step_ok bound e s
  have hs := step_reads bound e s
  rw [hr] at hs
  obtain ⟨ts, hts, -⟩ := hs
  exact ⟨n, after, hr, ⟨ts, hts.symm⟩, step_takes bound e s n after hne hr⟩

/-! ## The loops of the parser -/

/-- A round of the loop over items up to the end of input or a stop, with the items so far. -/
def untilRound (stop : TokenKind → Bool) (item : Parser α) (items : List α) : Parser (List α ⊕ List α) := do
  match ← nextKind with
  | none => pure (.inr items)
  | some k =>
    if stop k then pure (.inr items)
    else
      let next ← item
      pure (.inl (items ++ [next]))

/-- A round of the loop over items with commas between them. -/
def separatedRound (item : Parser α) (items : List α) : Parser (List α ⊕ List α) := do
  let next ← item
  match ← accept .comma with
  | none => pure (.inr (items ++ [next]))
  | some _ => pure (.inl (items ++ [next]))

/-- A round of the loop over calls and property accesses behind an expression. -/
def suffixRound (nested : Parser Node) (bound : Nat) (callee : Node) : Parser (Node ⊕ Node) := do
  match ← accept .leftParen with
  | some t =>
    let items ← arguments nested bound
    pure (.inl (.call callee items t.line))
  | none =>
    match ← accept .dot with
    | some t =>
      let name ← propertyName t.line
      pure (.inl (.get callee name t.line))
    | none => pure (.inr callee)

/-- A round of recovery: it ends at a statement boundary, and goes on behind the next token otherwise. -/
def skipRound (last : TokenKind) : Parser (TokenKind ⊕ Unit) := do
  match ← acceptMap (fun k => if last = .semicolon ∨ startsStatement k then none else some k) with
  | none => pure (.inr ())
  | some (k, _) => pure (.inl k)

theorem consuming_of_reads {round : β → Parser (β ⊕ α)}
    (h : ∀ b, Reads (round b) fun ts found => found.isLeft = true → ts ≠ []) : Consuming round :=
  fun b _ _ _ _ hr => (h b).length_lt hr fun _ hne => hne rfl

/-! ### Items -/

/-- A round leaves the loop at the end of input or at a stop, and takes an item otherwise. -/
theorem untilRound_cases {stop : TokenKind → Bool} {item : Parser α} {items : List α} {e : Line} {s after : ParseState}
    {found : List α ⊕ List α} (h : untilRound stop item items e s = .ok found after) :
    (found = .inr items ∧ after = s ∧ ∀ t, s.rest.head? = some t → stop t.kind = true) ∨
    ∃ next, found = .inl (items ++ [next]) ∧ s.rest ≠ [] ∧ item e s = .ok next after := by
  obtain ⟨_ | ⟨t, rest⟩, caught⟩ := s
  · cases h
    exact .inl ⟨rfl, rfl, nofun⟩
  · simp only [untilRound, bind_apply, nextKind, List.head?_cons, Option.map_some] at h
    split at h
    · next hk =>
      cases h
      exact .inl ⟨rfl, rfl, fun u hu => by cases hu; exact hk⟩
    · rw [bind_apply] at h
      cases hitem : item e ⟨t :: rest, caught⟩ with
      | fail fault after' => rw [hitem] at h; cases h
      | ok next after' =>
        rw [hitem] at h
        cases h
        exact .inr ⟨next, rfl, List.cons_ne_nil t rest, rfl⟩

theorem untilRound_consuming {item : Parser α} (hi : Takes item) (stop : TokenKind → Bool) :
    Consuming (untilRound stop item) := by
  intro items e s items' after hr
  obtain ⟨hfound, -⟩ | ⟨next, -, hne, hitem⟩ := untilRound_cases hr
  · cases hfound
  · exact hi e s next after hne hitem

/-- The loop over items ends at the end of input or at a stop. -/
theorem Loops.manyUntil {item : Parser α} (hi : Takes item) (stop : TokenKind → Bool) (e : Line) {bound : Nat}
    {s : ParseState} (hb : s.rest.length ≤ bound) :
    Loops (untilRound stop item) e [] s (manyUntil stop item bound e s) := by
  have hloop := Loops.of_bounded (untilRound_consuming hi stop)
    (fun bound items => (items ++ ·) <$> Parser.manyUntil stop item bound) ?_ ?_ e bound [] s (Nat.le_refl _) hb
  · simpa only [List.nil_append, id_map'] using hloop
  · rintro items e ⟨rest, caught⟩ rfl
    have hleave : untilRound stop item items e ⟨[], caught⟩ = .ok (.inr (items ++ [])) ⟨[], caught⟩ := by
      rw [List.append_nil]
      rfl
    exact .leave hleave
  · intro bound items e s _ _
    refine congrFun (congrFun ?_ e) s
    simp only [Parser.manyUntil, untilRound, map_bind, bind_assoc]
    refine bind_congr fun found => ?_
    cases found with
    | none => simp
    | some k =>
      dsimp only
      split
      · simp
      · simp

theorem separatedRound_reads {item : Parser α} (hi : Reads item TakesSome) (items : List α) :
    Reads (separatedRound item items) TakesSome := by
  refine .bind hi fun ts a ha => .bind (.accept .comma) fun ts' found _ => ?_
  cases found with
  | none => exact .pure (List.append_ne_nil_of_left_ne_nil ha _)
  | some t => exact .pure (List.append_ne_nil_of_left_ne_nil ha _)

/-- The loop over items with commas between them ends at the first item without a comma behind it. -/
theorem Loops.commaSeparated {item : Parser α} (hi : Reads item TakesSome) (e : Line) {bound : Nat} {s : ParseState}
    (hb : s.rest.length ≤ bound) : Loops (separatedRound item) e [] s (commaSeparated item bound e s) := by
  have hloop := Loops.of_bounded (consuming_of_reads fun items => (separatedRound_reads hi items).mono fun _ _ h _ => h)
    (fun bound items => (items ++ ·) <$> Parser.commaSeparated item bound) ?_ ?_ e bound [] s (Nat.le_refl _) hb
  · simpa only [List.nil_append, id_map'] using hloop
  · rintro items e ⟨rest, caught⟩ rfl
    cases hr : item e ⟨[], caught⟩ with
    | ok a after => exact absurd (hi.length_lt hr fun _ => id) (Nat.not_lt_zero _)
    | fail fault after =>
      have hlast : ((items ++ ·) <$> Parser.commaSeparated item 0) e ⟨[], caught⟩ = .fail fault after := by
        rw [Parser.commaSeparated, map_bind, bind_apply, hr]
      rw [hlast]
      exact .fail (by rw [separatedRound, bind_apply, hr])
  · intro bound items e s _ _
    refine congrFun (congrFun ?_ e) s
    simp only [Parser.commaSeparated, separatedRound, map_bind, bind_assoc]
    refine bind_congr fun next => bind_congr fun found => ?_
    cases found with
    | none => simp
    | some t => simp

/-! ### Calls and properties -/

theorem suffixRound_reads {nested : Parser Node} (hn : Reads nested (Grammar.Derives .expression)) (bound : Nat)
    (callee : Node) : Reads (suffixRound nested bound callee) fun ts found => found.isLeft = true → ts ≠ [] := by
  refine .bind (.accept .leftParen) fun ts found h => ?_
  cases found with
  | some t =>
    obtain ⟨rfl, -⟩ := h
    exact .bind (arguments_reads hn bound) fun ts' items _ => .pure fun _ => List.cons_ne_nil _ _
  | none =>
    subst h
    refine .bind (.accept .dot) fun ts found h => ?_
    cases found with
    | none => exact .pure nofun
    | some t =>
      obtain ⟨rfl, -⟩ := h
      have hname : Reads (propertyName t.line) fun _ _ => True := by
        refine .bind (.accept .identifier) fun ts found _ => ?_
        cases found with
        | none => exact .failAt _ _
        | some name => exact .pure trivial
      exact .bind hname fun ts' name _ => .pure fun _ => List.cons_ne_nil _ _

/-- Arguments are read the same with every bound from the number of tokens on. -/
theorem arguments_bound {nested : Parser Node} (hn : Reads nested TakesSome) {bound bound' : Nat} (e : Line)
    {s : ParseState} (hb : s.rest.length ≤ bound) (hb' : s.rest.length ≤ bound') :
    arguments nested bound e s = arguments nested bound' e s := by
  have hitems : Parser.commaSeparated nested bound e s = Parser.commaSeparated nested bound' e s :=
    (Loops.commaSeparated hn e hb).unique (Loops.commaSeparated hn e hb')
  simp only [arguments, bind_apply, nextKind]
  split
  · rfl
  · rw [bind_apply, bind_apply, hitems]

theorem suffixRound_bound {nested : Parser Node} (hn : Reads nested TakesSome) {bound bound' : Nat} (callee : Node)
    (e : Line) {s : ParseState} (hb : s.rest.length ≤ bound) (hb' : s.rest.length ≤ bound') :
    suffixRound nested bound callee e s = suffixRound nested bound' callee e s := by
  rw [suffixRound, suffixRound, bind_apply, bind_apply]
  have htaken := Reads.accept .leftParen e s
  cases hr : accept .leftParen e s with
  | fail fault after => rfl
  | ok found after =>
    rw [hr] at htaken
    obtain ⟨ts, hts, -⟩ := htaken
    rw [hts, List.length_append] at hb hb'
    cases found with
    | none => rfl
    | some t =>
      have hitems := arguments_bound hn e (s := after) (show _ ≤ bound by omega) (show _ ≤ bound' by omega)
      dsimp only
      rw [bind_apply, bind_apply, hitems]

theorem suffixesFrom_succ (nested : Parser Node) (bound : Nat) (callee : Node) :
    suffixesFrom nested (bound + 1) callee =
      suffixRound nested (bound + 1) callee >>= Sum.elim (suffixesFrom nested bound) pure := by
  rw [suffixesFrom, suffixRound, bind_assoc]
  refine bind_congr fun found => ?_
  cases found with
  | some t => simp
  | none =>
    dsimp only
    rw [bind_assoc]
    refine bind_congr fun found => ?_
    cases found with
    | none => simp
    | some t => simp

/-- The loop over calls and property accesses ends in front of anything else. -/
theorem Loops.suffixesFrom {nested : Parser Node} (hn : Reads nested (Grammar.Derives .expression)) (e : Line)
    {size bound : Nat} (callee : Node) {s : ParseState} (hs : s.rest.length ≤ size) (hb : s.rest.length ≤ bound) :
    Loops (suffixRound nested size) e callee s (suffixesFrom nested bound callee e s) := by
  refine Loops.of_bounded (consuming_of_reads (suffixRound_reads hn size)) (Parser.suffixesFrom nested) ?_ ?_ e bound
    callee s hs hb
  · rintro callee e ⟨rest, caught⟩ rfl
    exact .leave rfl
  · intro bound callee e s hs hb
    rw [suffixesFrom_succ, bind_apply, bind_apply,
      suffixRound_bound (hn.mono fun _ _ h => h.nonempty) callee e hb hs]

/-! ### Recovery -/

/-- Recovery ends at the next statement boundary. -/
theorem Loops.skipFrom (e : Line) (caught : List Diagnostic) (last : TokenKind) (ts : List Token) :
    Loops skipRound e last ⟨ts, caught⟩ (.ok () ⟨skipFrom last ts, caught⟩) := by
  induction ts generalizing last with
  | nil => exact .leave rfl
  | cons t ts ih =>
    rw [Parser.skipFrom]
    split
    · next h =>
      have hleave : skipRound last e ⟨t :: ts, caught⟩ = .ok (.inr ()) ⟨t :: ts, caught⟩ := by
        simp only [skipRound, bind_apply, acceptMap, if_pos h]
        rfl
      exact .leave hleave
    · next h =>
      have hagain : skipRound last e ⟨t :: ts, caught⟩ = .ok (.inl t.kind) ⟨ts, caught⟩ := by
        simp only [skipRound, bind_apply, acceptMap, if_neg h]
        rfl
      exact .again hagain (ih t.kind)

/-- A declaration that cannot be read holds a token, and reading resumes where recovery ends that goes on behind it. -/
theorem step_resumes {bound : Nat} {e : Line} {s after : ParseState} {fault : ParseFault} (hne : s.rest ≠ [])
    (h : declaration (expression (bound + 1)) (blockOf (step bound) (bound + 1)) (bound + 1) e s = .fail fault after) :
    ∃ taken last cut resumed, s.rest = taken ++ last :: cut ∧
      Loops skipRound e last.kind ⟨cut, after.caught⟩ (.ok () resumed) ∧
      step (bound + 1) e s =
        .ok (.error fault.diagnostic) ⟨resumed.rest, fault.diagnostic :: resumed.caught⟩ := by
  have hleft := declaration_reads (expression_reads (bound + 1)) (blockOf_reads (step_reads bound) (bound + 1))
    (bound + 1) e s
  rw [h] at hleft
  obtain ⟨taken, last, cut, hstart, hresume⟩ := resume_eq hne hleft
  refine ⟨taken, last, cut, _, hstart, .skipFrom e after.caught last.kind cut, ?_⟩
  rw [step, recovering, h]
  dsimp only
  rw [hresume]

/-- Neither the step nor what it leaves depends on the bound, unless the bound is below the number of tokens left. -/
theorem step_bound {bound bound' : Nat} (e : Line) {s : ParseState} (hne : s.rest ≠ []) (hb : s.rest.length ≤ bound)
    (hb' : s.rest.length ≤ bound') : ∃ n left log log', step bound e s = .ok n ⟨left, log⟩ ∧
      step bound' e s = .ok n ⟨left, log'⟩ := by
  have hparallel := step_parallel (v := ⟨[], [], e, e⟩) hb hb' hne (Nat.le_refl _) (.inl ⟨e, rfl⟩) s.caught s.caught
  obtain ⟨n, after, hr⟩ := step_ok bound e s
  obtain ⟨n', after', hr'⟩ := step_ok bound' e s
  simp only [List.append_nil] at hparallel
  rw [hr, hr'] at hparallel
  cases hparallel with
  | ok left _ _ => exact ⟨n, _, _, _, hr, hr'⟩

/-- Items up to the end of input take all tokens, and are no more than these. -/
theorem Loops.all_taken {item : Parser α} (hi : Takes item) {e : Line} {items all : List α} {s after : ParseState}
    (h : Loops (untilRound (fun _ => false) item) e items s (.ok all after)) :
    after.rest = [] ∧ all.length ≤ items.length + s.rest.length := by
  obtain ⟨items', s', hcount, hround⟩ := h.last
    (I := fun items' s' => items'.length + s'.rest.length ≤ items.length + s.rest.length) (Nat.le_refl _)
    fun items' s' items'' after' hr hcount => by
      obtain ⟨hfound, -⟩ | ⟨next, hfound, hne, hitem⟩ := untilRound_cases hr
      · cases hfound
      · cases hfound
        have hlt := hi e s' next after' hne hitem
        rw [List.length_append, List.length_singleton]
        omega
  obtain ⟨hfound, rfl, hend⟩ | ⟨next, hfound, -⟩ := untilRound_cases hround
  · cases hfound
    cases hrest : after.rest with
    | nil => exact ⟨rfl, Nat.le_trans (Nat.le_add_right _ _) hcount⟩
    | cons t rest => exact absurd (hend t (by rw [hrest]; rfl)) Bool.false_ne_true
  · cases hfound

/-! ## Token lists -/

/-- The steps of a token list are those of the loop without a bound over the tokens in front of the end of input. -/
theorem parse_loops (tokens : List Token) :
    ∃ after, Loops (untilRound (fun _ => false) (step (Token.beforeEnd tokens).length)) (Token.endLine tokens) []
      ⟨Token.beforeEnd tokens, []⟩ (.ok (parse tokens) after) := by
  have hloop := Loops.manyUntil (step_takes (Token.beforeEnd tokens).length) (fun _ => false) (Token.endLine tokens)
    (s := ⟨Token.beforeEnd tokens, []⟩) (Nat.le_refl _)
  obtain ⟨steps, after, hr, -⟩ := manyUntil_ok (step_ok (Token.beforeEnd tokens).length) (fun _ => false)
    (Token.endLine tokens) (Token.beforeEnd tokens).length ⟨Token.beforeEnd tokens, []⟩
  have hsteps : parse tokens = steps := by
    simp only [parse, parseWithLog, program, hr]
  rw [hr] at hloop
  exact ⟨after, hsteps ▸ hloop⟩

/-- What stands behind an end of input does not matter. -/
theorem parse_behind_end {t : Token} (ht : t.kind = .endOfInput) (body behind : List Token) :
    parse (body ++ t :: behind) = parse (body ++ [t]) := by
  have hbefore : ∀ behind, Token.beforeEnd (body ++ t :: behind) = Token.beforeEnd body := fun behind => by
    simp only [Token.beforeEnd, List.takeWhile_append, List.takeWhile_cons, ht, bne_self_eq_false, Bool.false_eq_true,
      if_false, List.append_nil]
    exact ite_eq_right_iff.mpr fun h => ((List.takeWhile_prefix _).eq_of_length h).symm
  have hline : ∀ behind, Token.endLine (body ++ t :: behind) = Token.endLine (body ++ [t]) := fun behind => by
    simp [Token.endLine, List.find?_append, ht]
  simp only [parse, parseWithLog, hbefore, hline]

/-- On every token list the parser goes forward and ends, at the first end of input. -/
theorem parser_progress :
    -- a step in front of the end takes a token and none behind the end, whether it can be read or not
    (∀ bound e s, s.rest ≠ [] → ∃ n after, step bound e s = .ok n after ∧ after.rest <:+ s.rest ∧
      after.rest.length < s.rest.length) ∧
    -- where it cannot be read, recovery starts behind a token of it, and ends
    (∀ bound e s fault after, s.rest ≠ [] →
      declaration (expression (bound + 1)) (blockOf (step bound) (bound + 1)) (bound + 1) e s = .fail fault after →
      ∃ taken last cut resumed, s.rest = taken ++ last :: cut ∧
        Loops skipRound e last.kind ⟨cut, after.caught⟩ (.ok () resumed) ∧
        step (bound + 1) e s = .ok (.error fault.diagnostic) ⟨resumed.rest, fault.diagnostic :: resumed.caught⟩) ∧
    -- the bounds cut nothing off
    (∀ bound bound' e s, s.rest ≠ [] → s.rest.length ≤ bound → s.rest.length ≤ bound' →
      ∃ n left log log', step bound e s = .ok n ⟨left, log⟩ ∧ step bound' e s = .ok n ⟨left, log'⟩) ∧
    -- the loops over the steps of programs and blocks and the methods of classes
    (∀ stop size bound e s, s.rest.length ≤ bound →
      Loops (untilRound stop (step size)) e [] s (manyUntil stop (step size) bound e s)) ∧
    (∀ size size' size'' bound e s, s.rest.length ≤ bound →
      Loops (untilRound (· == .rightBrace) (functionDeclaration (blockOf (step size) size') size'')) e [] s
        (manyUntil (· == .rightBrace) (functionDeclaration (blockOf (step size) size') size'') bound e s)) ∧
    -- the loops over arguments, and over calls and properties
    (∀ size bound e s, s.rest.length ≤ bound →
      Loops (separatedRound (expression size)) e [] s (commaSeparated (expression size) bound e s)) ∧
    (∀ size bound callee e s, s.rest.length ≤ bound →
      Loops (suffixRound (expression size) bound) e callee s (suffixesFrom (expression size) bound callee e s)) ∧
    -- all tokens in front of the end are taken, for no more steps than tokens
    (∀ tokens, ∃ after,
      Loops (untilRound (fun _ => false) (step (Token.beforeEnd tokens).length)) (Token.endLine tokens) []
        ⟨Token.beforeEnd tokens, []⟩ (.ok (parse tokens) after) ∧
      after.rest = [] ∧ (parse tokens).length ≤ (Token.beforeEnd tokens).length) ∧
    -- and what stands behind the end is left out
    ∀ (t : Token) body behind, t.kind = .endOfInput → parse (body ++ t :: behind) = parse (body ++ [t]) := by
  refine ⟨fun bound e s hne => step_advances bound e hne, fun bound e s fault after hne h => step_resumes hne h,
    fun bound bound' e s hne hb hb' => step_bound e hne hb hb',
    fun stop size bound e s hb => .manyUntil (step_takes size) stop e hb, fun size size' size'' bound e s hb => ?_,
    fun size bound e s hb => .commaSeparated (expression_takesSome size) e hb,
    fun size bound callee e s hb => .suffixesFrom (expression_reads size) e callee hb hb, fun tokens => ?_,
    fun t body behind ht => parse_behind_end ht body behind⟩
  · have hblock := blockOf_reads (step_reads size) size'
    exact .manyUntil (functionDeclaration_takesSome hblock).takes _ e hb
  · obtain ⟨after, hloop⟩ := parse_loops tokens
    have hall := hloop.all_taken (step_takes _)
    exact ⟨after, hloop, hall.1, by simpa using hall.2⟩

/-- The tokens of `; { ) ) }`: the first step fails where it starts, and so does the one inside the block. -/
def strayTokens : List Token :=
  [⟨.semicolon, ";", 1, .nil⟩, ⟨.leftBrace, "\x7b", 1, .nil⟩, ⟨.rightParen, ")", 1, .nil⟩, ⟨.rightParen, ")", 1, .nil⟩,
    ⟨.rightBrace, "\x7d", 1, .nil⟩]

theorem strayTokens_progress :
    (∃ n after, step 5 1 ⟨strayTokens, []⟩ = .ok n after ∧ after.rest <:+ strayTokens ∧ after.rest.length < 5) ∧
    Loops (untilRound (· == .rightBrace) (step 2)) 1 [] ⟨strayTokens.drop 2, []⟩
      (manyUntil (· == .rightBrace) (step 2) 3 1 ⟨strayTokens.drop 2, []⟩) ∧
    (parse strayTokens).map Node.diagnostics =
      [[⟨.parse, 1, "Unrecognized token: \";\""⟩], [⟨.parse, 1, "Unrecognized token: \")\""⟩]] ∧
    parse (strayTokens ++ .atEnd 2 :: strayTokens) = parse (strayTokens ++ [.atEnd 2]) := by
  obtain ⟨hstep, -, -, hsteps, -, -, -, -, hend⟩ := parser_progress
  exact ⟨hstep 5 1 ⟨strayTokens, []⟩ (List.cons_ne_nil _ _), hsteps _ 2 3 1 ⟨strayTokens.drop 2, []⟩ (by decide), rfl,
    hend (.atEnd 2) strayTokens strayTokens rfl⟩

end LoxLang.Parser
