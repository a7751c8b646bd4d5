import LoxLang.Proofs.Isolation
import LoxLang.Proofs.SourceLines

/-!
# Diagnostics in the order of the lines

`Parser.Stays lo here R p` says of a parser that starts in front of a token on line `here`, or on a later one: if it
fails, its fault lies between `lo` and the line of the token it stopped at, and if it answers, `R` relates the answer to
the line of the token that follows. Diagnostics of steps that stand one behind the other are therefore in the order of
their lines (`step_stays`), since recovery never goes back behind a fault. So the first diagnostic of a run names the
smallest line of all of them (`diagnostics_ascend`).
-/

namespace LoxLang

/-- The lines of the diagnostics never decrease. -/
def Ascend (ds : List Diagnostic) : Prop := ds.Pairwise fun d d' => d.line ≤ d'.line

instance (ds : List Diagnostic) : Decidable (Ascend ds) :=
  inferInstanceAs (Decidable (ds.Pairwise fun d d' => d.line ≤ d'.line))

/-- The lines of the diagnostics never decrease, and all of them lie between these two. -/
structure Between (lo : Line) (ds : List Diagnostic) (hi : Line) : Prop where
  ascend : Ascend ds
  lower : ∀ d ∈ ds, lo ≤ d.line
  upper : ∀ d ∈ ds, d.line ≤ hi

namespace Between

variable {lo lo' mid hi hi' : Line} {ds ds' : List Diagnostic}

theorem nil : Between lo [] hi := ⟨.nil, nofun, nofun⟩

theorem one {d : Diagnostic} (hlo : lo ≤ d.line) (hhi : d.line ≤ hi) : Between lo [d] hi :=
  ⟨List.pairwise_singleton _ d, List.forall_mem_singleton.mpr hlo, List.forall_mem_singleton.mpr hhi⟩

theorem mono (h : Between lo ds hi) (hlo : lo' ≤ lo) (hhi : hi ≤ hi') : Between lo' ds hi' :=
  ⟨h.ascend, fun d hd => Int.le_trans hlo (h.lower d hd), fun d hd => Int.le_trans (h.upper d hd) hhi⟩

theorem append (h : Between lo ds mid) (h' : Between mid ds' hi) (hlo : lo ≤ mid) (hhi : mid ≤ hi) :
    Between lo (ds ++ ds') hi := by
  refine ⟨List.pairwise_append.mpr ⟨h.ascend, h'.ascend, fun d hd d' hd' => ?_⟩, fun d hd => ?_, fun d hd => ?_⟩
  · exact Int.le_trans (h.upper d hd) (h'.lower d' hd')
  · obtain hd | hd := List.mem_append.mp hd
    · exact h.lower d hd
    · exact Int.le_trans hlo (h'.lower d hd)
  · obtain hd | hd := List.mem_append.mp hd
    · exact Int.le_trans (h.upper d hd) hhi
    · exact h'.upper d hd

end Between

/-! ## Lines of tokens -/

/-- The lines of tokens, and that of the end of input behind them. -/
def Token.lines (endLine : Line) (ts : List Token) : List Line := ts.map (·.line) ++ [endLine]

/-- The line of the next token, or of the end of input. -/
def Token.nextLine (endLine : Line) : List Token → Line
  | [] => endLine
  | t :: _ => t.line

/-- The lines never decrease up to the end of input. -/
def Token.Ascend (endLine : Line) (ts : List Token) : Prop := (lines endLine ts).Pairwise (· ≤ ·)

namespace Token

variable {e : Line} {ts ts' : List Token}

theorem lines_suffix (h : ts' <:+ ts) : lines e ts' <:+ lines e ts := by
  obtain ⟨taken, rfl⟩ := h
  exact ⟨taken.map (·.line), by simp [lines]⟩

theorem Ascend.suffix (h : Ascend e ts) (hs : ts' <:+ ts) : Ascend e ts' :=
  List.Pairwise.sublist (lines_suffix hs).sublist h

theorem nextLine_mem (ts : List Token) : nextLine e ts ∈ lines e ts := by
  cases ts with
  | nil => exact List.mem_singleton_self e
  | cons t ts => exact List.mem_cons_self

/-- No line behind the next token is earlier. -/
theorem Ascend.le_of_mem (h : Ascend e ts) {line : Line} (hl : line ∈ lines e ts) : nextLine e ts ≤ line := by
  cases ts with
  | nil => exact Int.le_of_eq (List.mem_singleton.mp hl).symm
  | cons t ts =>
    obtain rfl | hl := List.mem_cons.mp hl
    · exact Int.le_refl _
    · exact List.rel_of_pairwise_cons h hl

theorem Ascend.nextLine_le (h : Ascend e ts) (hs : ts' <:+ ts) : nextLine e ts ≤ nextLine e ts' :=
  h.le_of_mem ((lines_suffix hs).subset (nextLine_mem ts'))

end Token

namespace Parser

open Token

variable {α β : Type}

/-- Started on lines that never decrease, in front of a token on the line `here` or a later one: a fault lies between
`lo` and the token where the parser stopped, and `R` relates an answer to the line of the token that follows. -/
def Stays (lo here : Line) (R : α → Line → Prop) (p : Parser α) : Prop :=
  ∀ e s, Token.Ascend e s.rest → here ≤ nextLine e s.rest → match p e s with
    | .ok a after => after.rest <:+ s.rest ∧ R a (nextLine e after.rest)
    | .fail fault after => after.rest <:+ s.rest ∧ lo ≤ fault.line ∧ fault.line ≤ nextLine e after.rest

/-- The tree holds no diagnostics. -/
def Quiet (n : Node) (_ : Line) : Prop := n.diagnostics = []

/-- The diagnostics in the tree lie on lines from `here` to the line that follows. -/
def Spans (here : Line) (n : Node) (line : Line) : Prop := Between here n.diagnostics line

theorem Quiet.spans {here line : Line} {n : Node} (h : Quiet n line) : Spans here n line := by
  rw [Spans, show n.diagnostics = [] from h]
  exact .nil

namespace Stays

variable {lo here : Line} {R : α → Line → Prop} {Q : β → Line → Prop} {p : Parser α}

theorem mono {R' : α → Line → Prop} (h : Stays lo here R p) (hr : ∀ a line, here ≤ line → R a line → R' a line) :
    Stays lo here R' p := by
  intro e s hs hhere
  have hp := h e s hs hhere
  cases hr' : p e s with
  | fail fault after => rwa [hr'] at hp
  | ok a after =>
    rw [hr'] at hp
    exact ⟨hp.1, hr a _ (Int.le_trans hhere (hs.nextLine_le hp.1)) hp.2⟩

theorem pure {a : α} (h : ∀ line, here ≤ line → R a line) : Stays lo here R (Pure.pure a) :=
  fun _ _ _ hhere => ⟨List.suffix_rfl, h _ hhere⟩

theorem bind {f : α → Parser β} (hp : Stays lo here R p)
    (hf : ∀ a line, here ≤ line → R a line → Stays lo line Q (f a)) : Stays lo here Q (p >>= f) := by
  intro e s hs hhere
  have hfirst := hp e s hs hhere
  rw [bind_apply]
  cases hr : p e s with
  | fail fault after => rwa [hr] at hfirst
  | ok a after =>
    rw [hr] at hfirst
    obtain ⟨hsuffix, ha⟩ := hfirst
    have hnext := hf a _ (Int.le_trans hhere (hs.nextLine_le hsuffix)) ha e after (hs.suffix hsuffix) (Int.le_refl _)
    dsimp only
    cases hr' : f a e after with
    | ok b last =>
      rw [hr'] at hnext
      exact ⟨hnext.1.trans hsuffix, hnext.2⟩
    | fail fault last =>
      rw [hr'] at hnext
      exact ⟨hnext.1.trans hsuffix, hnext.2⟩

/-! ## Single tokens -/

theorem nextKind : Stays lo here (fun _ _ => True) nextKind := fun _ _ _ _ => ⟨List.suffix_rfl, trivial⟩

theorem failAt {line : Line} (hlo : lo ≤ line) (hhere : line ≤ here) (cause : ParseCause) :
    Stays lo here R (failAt line cause) :=
  fun _ _ _ h => ⟨List.suffix_rfl, hlo, Int.le_trans hhere h⟩

theorem failHere (hlo : lo ≤ here) (cause : Option String → ParseCause) : Stays lo here R (failHere cause) := by
  rintro e ⟨_ | ⟨t, rest⟩, caught⟩ _ hhere
  · exact ⟨List.suffix_rfl, Int.le_trans hlo hhere, Int.le_refl _⟩
  · exact ⟨List.suffix_rfl, Int.le_trans hlo hhere, Int.le_refl _⟩

/-- The token that is taken stands between the line in front of it and the line behind it. -/
theorem acceptMap (f : TokenKind → Option β) :
    Stays lo here (fun found line => ∀ b t, found = some (b, t) → here ≤ t.line ∧ t.line ≤ line) (acceptMap f) := by
  rintro e ⟨_ | ⟨t, rest⟩, caught⟩ hs hhere
  · exact ⟨List.suffix_rfl, nofun⟩
  · unfold Parser.acceptMap
    dsimp only
    cases f t.kind with
    | none => exact ⟨List.suffix_rfl, nofun⟩
    | some b =>
      have hsuffix : rest <:+ t :: rest := List.suffix_cons t rest
      exact ⟨hsuffix, fun _ _ h => by cases h; exact ⟨hhere, hs.nextLine_le hsuffix⟩⟩

theorem accept (k : TokenKind) :
    Stays lo here (fun found line => ∀ t, found = some t → here ≤ t.line ∧ t.line ≤ line) (accept k) := by
  rintro e ⟨_ | ⟨t, rest⟩, caught⟩ hs hhere
  · exact ⟨List.suffix_rfl, nofun⟩
  · unfold Parser.accept
    by_cases hk : t.kind = k
    · simp only [if_pos hk]
      have hsuffix : rest <:+ t :: rest := List.suffix_cons t rest
      exact ⟨hsuffix, fun _ h => by cases h; exact ⟨hhere, hs.nextLine_le hsuffix⟩⟩
    · simp only [if_neg hk]
      exact ⟨List.suffix_rfl, nofun⟩

theorem expect (hlo : lo ≤ here) (wanted : Wanted) : Stays lo here (fun _ _ => True) (expect wanted) := by
  refine .bind (.accept _) fun found line hline _ => ?_
  cases found with
  | none => exact .failHere (Int.le_trans hlo hline) _
  | some t => exact .pure fun _ _ => trivial

/-- Behind a token that has to be there. -/
theorem behind (hlo : lo ≤ here) (wanted : Wanted) {f : Token → Parser β}
    (hf : ∀ t line, here ≤ line → lo ≤ line → Stays lo line Q (f t)) : Stays lo here Q (Parser.expect wanted >>= f) :=
  .bind (.expect hlo wanted) fun t line hline _ => hf t line hline (Int.le_trans hlo hline)

/-- The last token of a step. -/
theorem closing (hlo : lo ≤ here) (wanted : Wanted) {b : β} (hb : ∀ line, here ≤ line → Q b line) :
    Stays lo here Q (do let _ ← Parser.expect wanted; Pure.pure b) :=
  .behind hlo wanted fun _ _ hline _ => .pure fun line' hline' => hb line' (Int.le_trans hline hline')

/-! ## Repetition -/

theorem commaSeparated {item : Parser α} (h : ∀ {lo here}, lo ≤ here → Stays lo here (fun _ _ => True) item) :
    ∀ bound {lo here}, lo ≤ here → Stays lo here (fun _ _ => True) (commaSeparated item bound)
  | 0, _, _, hlo => .bind (h hlo) fun _ _ _ _ => .pure fun _ _ => trivial
  | bound + 1, _, _, hlo => by
    refine .bind (h hlo) fun first line hline _ => .bind (.accept .comma) fun found line' hline' _ => ?_
    cases found with
    | none => exact .pure fun _ _ => trivial
    | some t =>
      exact .bind (commaSeparated h bound (Int.le_trans hlo (Int.le_trans hline hline'))) fun _ _ _ _ =>
        .pure fun _ _ => trivial

theorem manyUntil {item : Parser Node} (stop : TokenKind → Bool)
    (h : ∀ {lo here}, lo ≤ here → Stays lo here (Spans here) item) :
    ∀ bound {lo here}, lo ≤ here →
      Stays lo here (fun ns line => Between here (Node.diagnosticsOf ns) line) (manyUntil stop item bound)
  | 0, _, _, _ => .pure fun _ _ => .nil
  | bound + 1, _, _, hlo => by
    refine .bind .nextKind fun found line hline _ => ?_
    cases found with
    | none => exact .pure fun _ _ => .nil
    | some k =>
      dsimp only
      split
      · exact .pure fun _ _ => .nil
      · refine .bind (h (Int.le_trans hlo hline)) fun n line₁ hline₁ hn => ?_
        refine .bind (manyUntil stop h bound (Int.le_trans hlo (Int.le_trans hline hline₁)))
          fun ns line₂ hline₂ hns => ?_
        refine .pure fun line₃ hline₃ => ?_
        rw [Node.diagnosticsOf]
        exact (hn.append hns hline₁ hline₂).mono hline hline₃

/-! ## Recovery -/

theorem resume_suffix (start rest : List Token) : resume start rest <:+ rest := by
  unfold resume
  have hr : (if rest.length < start.length then rest else rest.drop 1) <:+ rest := by
    split
    · exact List.suffix_rfl
    · exact List.drop_suffix 1 rest
  dsimp only
  split
  · exact hr
  · exact (Reads.skipFrom_suffix _ _).trans hr

/-- Reading resumes at the fault or behind it. -/
theorem recovering {step : Parser Node} (h : Stays here here (Spans here) step) :
    Stays lo here (Spans here) (recovering step) := by
  intro e s hs hhere
  have hstep := h e s hs hhere
  unfold Parser.recovering
  cases hr : step e s with
  | ok n after => rwa [hr] at hstep
  | fail fault after =>
    rw [hr] at hstep
    obtain ⟨hsuffix, hlower, hupper⟩ := hstep
    have hresume := resume_suffix s.rest after.rest
    exact ⟨hresume.trans hsuffix, .one hlower (Int.le_trans hupper ((hs.suffix hsuffix).nextLine_le hresume))⟩

end Stays

/-! ## Expressions -/

section Expressions

variable {nested : Parser Node} (hn : ∀ {lo here}, lo ≤ here → Stays lo here Quiet nested) {lo here : Line}
  (hlo : lo ≤ here)

theorem acceptAtom_stays :
    Stays lo here (fun found _ => ∀ n, found = some n → n.diagnostics = []) acceptAtom := by
  rintro e ⟨_ | ⟨t, rest⟩, caught⟩ _ _
  · exact ⟨List.suffix_rfl, nofun⟩
  · unfold acceptAtom
    dsimp only
    cases hf : atom? t with
    | none => exact ⟨List.suffix_rfl, nofun⟩
    | some n =>
      refine ⟨List.suffix_cons t rest, fun m h => ?_⟩
      cases h
      unfold atom? at hf
      split at hf <;> cases hf <;> rfl

include hn

include hlo in
theorem primary_stays : Stays lo here Quiet (primary nested) := by
  refine .bind acceptAtom_stays fun found line hline h => ?_
  cases found with
  | some n => exact .pure fun _ _ => h n rfl
  | none =>
    refine .bind (.accept _) fun found line' hline' _ => ?_
    have hlo' := Int.le_trans hlo (Int.le_trans hline hline')
    cases found with
    | none => exact .failHere hlo' _
    | some t =>
      exact .bind (hn hlo') fun _ _ hnext _ => .closing (Int.le_trans hlo' hnext) _ fun _ _ => rfl

theorem arguments_stays (bound : Nat) {lo here : Line} (hlo : lo ≤ here) :
    Stays lo here (fun _ _ => True) (arguments nested bound) := by
  refine .bind .nextKind fun found line hline _ => ?_
  have hlo' := Int.le_trans hlo hline
  split
  · exact .bind (.pure (R := fun _ _ => True) fun _ _ => trivial) fun _ _ hnext _ =>
      .closing (Int.le_trans hlo' hnext) _ fun _ _ => trivial
  · exact .bind (.commaSeparated (fun h => (hn h).mono fun _ _ _ _ => trivial) bound hlo') fun _ _ hnext _ =>
      .closing (Int.le_trans hlo' hnext) _ fun _ _ => trivial

theorem suffixesFrom_stays : ∀ (bound : Nat) {callee : Node} {lo here : Line}, lo ≤ here → callee.diagnostics = [] →
    Stays lo here Quiet (suffixesFrom nested bound callee)
  | 0, _, _, _, _, h => .pure fun _ _ => h
  | bound + 1, callee, lo, here, hlo, h => by
    refine .bind (.accept _) fun found line hline _ => ?_
    have hlo₁ := Int.le_trans hlo hline
    cases found with
    | some t =>
      exact .bind (arguments_stays hn _ hlo₁) fun _ _ hnext _ => suffixesFrom_stays bound (Int.le_trans hlo₁ hnext) rfl
    | none =>
      refine .bind (.accept _) fun found line₁ hline₁ hdot => ?_
      have hlo₂ := Int.le_trans hlo₁ hline₁
      cases found with
      | none => exact .pure fun _ _ => h
      | some t =>
        -- a missing name is reported on the line of the dot, which stands behind the callee
        obtain ⟨hfrom, hto⟩ := hdot t rfl
        have hname : Stays lo line₁ (fun _ _ => True) (propertyName t.line) := by
          refine .bind (.accept _) fun found line₂ hline₂ _ => ?_
          cases found with
          | none => exact .failAt (Int.le_trans hlo₁ hfrom) (Int.le_trans hto hline₂) _
          | some t => exact .pure fun _ _ => trivial
        exact .bind hname fun _ _ hnext _ => suffixesFrom_stays bound (Int.le_trans hlo₂ hnext) rfl

theorem call_stays (bound : Nat) {lo here : Line} (hlo : lo ≤ here) : Stays lo here Quiet (call nested bound) :=
  .bind (primary_stays hn hlo) fun _ _ hline h => suffixesFrom_stays hn bound (Int.le_trans hlo hline) h

theorem unary_stays (bound : Nat) :
    ∀ rounds {lo here : Line}, lo ≤ here → Stays lo here Quiet (unary nested bound rounds)
  | 0, _, _, hlo => call_stays hn bound hlo
  | rounds + 1, _, _, hlo => by
    refine .bind (.acceptMap _) fun found line hline _ => ?_
    have hlo' := Int.le_trans hlo hline
    cases found with
    | none => exact call_stays hn bound hlo'
    | some found => exact .bind (unary_stays bound rounds hlo') fun _ _ _ _ => .pure fun _ _ => rfl

end Expressions

section Chains

variable {op : Type} {operator : TokenKind → Option op} {build : op → Node → Node → Line → Node} {operand : Parser Node}
  (hb : ∀ o a b line, (build o a b line).diagnostics = [])
  (ho : ∀ {lo here}, lo ≤ here → Stays lo here Quiet operand)
include hb ho

theorem leftChainFrom_stays : ∀ (bound : Nat) {left : Node} {lo here : Line}, lo ≤ here → left.diagnostics = [] →
    Stays lo here Quiet (leftChainFrom operator build operand bound left)
  | 0, _, _, _, _, h => .pure fun _ _ => h
  | bound + 1, _, _, _, hlo, h => by
    refine .bind (.acceptMap _) fun found line hline _ => ?_
    have hlo' := Int.le_trans hlo hline
    cases found with
    | none => exact .pure fun _ _ => h
    | some found =>
      exact .bind (ho hlo') fun _ _ hnext _ => leftChainFrom_stays bound (Int.le_trans hlo' hnext) (hb _ _ _ _)

theorem leftChain_stays (bound : Nat) {lo here : Line} (hlo : lo ≤ here) :
    Stays lo here Quiet (leftChain operator build operand bound) :=
  .bind (ho hlo) fun _ _ hline h => leftChainFrom_stays hb ho bound (Int.le_trans hlo hline) h

theorem rightChain_stays : ∀ bound {lo here : Line}, lo ≤ here →
    Stays lo here Quiet (rightChain operator build operand bound)
  | 0, _, _, hlo => ho hlo
  | bound + 1, _, _, hlo => by
    refine .bind (ho hlo) fun left line hline h => .bind (.acceptMap _) fun found line' hline' _ => ?_
    cases found with
    | none => exact .pure fun _ _ => h
    | some found =>
      exact .bind (rightChain_stays bound (Int.le_trans hlo (Int.le_trans hline hline'))) fun _ _ _ _ =>
        .pure fun _ _ => hb _ _ _ _

end Chains

theorem disjunction_stays {nested : Parser Node} (hn : ∀ {lo here}, lo ≤ here → Stays lo here Quiet nested)
    (bound : Nat) {lo here : Line} (hlo : lo ≤ here) : Stays lo here Quiet (disjunction nested bound) :=
  have hfactor {lo here : Line} (hlo : lo ≤ here) : Stays lo here Quiet (factor nested bound) :=
    leftChain_stays (fun _ _ _ _ => rfl) (unary_stays hn bound bound) bound hlo
  have hterm {lo here : Line} (hlo : lo ≤ here) : Stays lo here Quiet (term nested bound) :=
    leftChain_stays (fun _ _ _ _ => rfl) hfactor bound hlo
  have hcomparison {lo here : Line} (hlo : lo ≤ here) : Stays lo here Quiet (comparison nested bound) :=
    rightChain_stays (fun _ _ _ _ => rfl) hterm bound hlo
  have hequality {lo here : Line} (hlo : lo ≤ here) : Stays lo here Quiet (equality nested bound) :=
    rightChain_stays (fun _ _ _ _ => rfl) hcomparison bound hlo
  have hconjunction {lo here : Line} (hlo : lo ≤ here) : Stays lo here Quiet (conjunction nested bound) :=
    leftChain_stays (fun _ _ _ _ => rfl) hequality bound hlo
  leftChain_stays (fun _ _ _ _ => rfl) hconjunction bound hlo

theorem assignment_stays {nested : Parser Node} (hn : ∀ {lo here}, lo ≤ here → Stays lo here Quiet nested)
    (bound : Nat) : ∀ rounds {lo here : Line}, lo ≤ here → Stays lo here Quiet (assignment nested bound rounds)
  | 0, _, _, hlo => disjunction_stays hn bound hlo
  | rounds + 1, lo, here, hlo => by
    refine .bind (disjunction_stays hn bound hlo) fun target line hline h =>
      .bind (.accept _) fun found line₁ hline₁ hequal => ?_
    have hlo₁ := Int.le_trans hlo hline
    cases found with
    | none => exact .pure fun _ _ => h
    | some t =>
      -- the target is judged behind the value, but on the line of the `=` in front of it
      obtain ⟨hfrom, hto⟩ := hequal t rfl
      refine .bind (assignment_stays hn bound rounds (Int.le_trans hlo₁ hline₁)) fun value line₂ hline₂ _ => ?_
      cases ha : assignTo? target value with
      | none => exact .failAt (Int.le_trans hlo₁ hfrom) (Int.le_trans hto hline₂) _
      | some n =>
        refine .pure fun _ _ => ?_
        unfold assignTo? at ha
        split at ha <;> cases ha <;> rfl

theorem expression_stays : ∀ bound {lo here : Line}, lo ≤ here → Stays lo here Quiet (expression bound)
  | 0, _, _, hlo => .failHere hlo _
  | bound + 1, _, _, hlo => assignment_stays (expression_stays bound) _ _ hlo

/-! ## Statements -/

section Statements

variable {expression block : Parser Node} (he : ∀ {lo here}, lo ≤ here → Stays lo here Quiet expression)
  (hb : ∀ {lo here}, lo ≤ here → Stays lo here (Spans here) block) (bound : Nat) {lo here : Line} (hlo : lo ≤ here)

include he hlo in
theorem letDeclaration_stays : Stays lo here Quiet (letDeclaration expression) := by
  refine .behind hlo _ fun name line _ hlo₁ => .bind (.accept _) fun found line₁ hline₁ _ => ?_
  have hlo₂ := Int.le_trans hlo₁ hline₁
  cases found with
  | none => exact .closing hlo₂ _ fun _ _ => rfl
  | some t => exact .bind (he hlo₂) fun _ _ hnext _ => .closing (Int.le_trans hlo₂ hnext) _ fun _ _ => rfl

include hlo in
theorem parameters_stays : Stays lo here (fun _ _ => True) (parameters bound) := by
  refine .bind .nextKind fun found line hline _ => ?_
  split
  · exact .pure fun _ _ => trivial
  · exact .bind (.commaSeparated (fun h => .expect h _) bound (Int.le_trans hlo hline)) fun _ _ _ _ =>
      .pure fun _ _ => trivial

include hb in
theorem functionDeclaration_stays {lo here : Line} (hlo : lo ≤ here) :
    Stays lo here (Spans here) (functionDeclaration block bound) := by
  refine .behind hlo _ fun name line hline hlo₁ => .behind hlo₁ _ fun _ line₁ hline₁ hlo₂ => ?_
  refine .bind (parameters_stays bound hlo₂) fun params line₂ hline₂ _ => ?_
  refine .behind (Int.le_trans hlo₂ hline₂) _ fun _ line₃ hline₃ hlo₃ => ?_
  refine .bind (hb hlo₃) fun body line₄ _ hbody => .pure fun line₅ hline₅ => ?_
  exact Between.mono hbody (Int.le_trans hline (Int.le_trans hline₁ (Int.le_trans hline₂ hline₃))) hline₅

include hb hlo in
theorem classDeclaration_stays : Stays lo here (Spans here) (classDeclaration block bound) := by
  refine .behind hlo _ fun name line hline hlo₁ => .behind hlo₁ _ fun _ line₁ hline₁ hlo₂ => ?_
  refine .bind (.manyUntil _ (functionDeclaration_stays hb bound) bound hlo₂) fun methods line₂ hline₂ hmethods => ?_
  exact .closing (Int.le_trans hlo₂ hline₂) _ fun line₃ hline₃ =>
    Between.mono hmethods (Int.le_trans hline hline₁) hline₃

include he hb in
theorem ifStatement_stays (line : Line) : ∀ rounds {lo here : Line}, lo ≤ here →
    Stays lo here (Spans here) (ifStatement expression block line rounds) := by
  intro rounds
  induction rounds generalizing line with
  | zero => exact fun hlo => .failHere hlo _
  | succ rounds ih =>
    intro lo here hlo
    refine .bind (he hlo) fun condition line₁ hline₁ _ => ?_
    refine .bind (hb (Int.le_trans hlo hline₁)) fun thenBranch line₂ hline₂ hthen => ?_
    refine .bind (.accept _) fun found line₃ hline₃ _ => ?_
    have hhere₂ := Int.le_trans hline₁ hline₂
    have hhere₃ := Int.le_trans hhere₂ hline₃
    have hlo₃ := Int.le_trans hlo hhere₃
    have hend :
        ∀ (from₄ line₄ : Line) (elseBranch : Node), line₃ ≤ from₄ → from₄ ≤ line₄ → Spans from₄ elseBranch line₄ →
        Stays lo line₄ (Spans here) (Pure.pure (.ifElse condition thenBranch elseBranch line)) :=
      fun from₄ line₄ elseBranch hfrom hto helse => .pure fun line₅ hline₅ =>
        ((hthen.mono hline₁ (Int.le_trans hline₃ hfrom)).append helse (Int.le_trans hhere₃ hfrom) hto).mono
          (Int.le_refl here) hline₅
    cases found with
    | none => exact hend line₃ line₃ .absent (Int.le_refl _) (Int.le_refl _) .nil
    | some t =>
      refine .bind (.accept _) fun found line₄ hline₄ _ => ?_
      have hlo₄ := Int.le_trans hlo₃ hline₄
      cases found with
      | some t => exact .bind (ih t.line hlo₄) fun elseBranch line₅ hline₅ helse => hend _ _ _ hline₄ hline₅ helse
      | none => exact .bind (hb hlo₄) fun elseBranch line₅ hline₅ helse => hend _ _ _ hline₄ hline₅ helse

include he hlo in
theorem forInitializer_stays :
    Stays lo here (fun found _ => Node.diagnosticsOf found.toList = []) (forInitializer expression) := by
  have hone : ∀ n : Node, n.diagnostics = [] → Node.diagnosticsOf (some n).toList = [] := fun n h => by
    rw [Option.toList_some, Node.diagnosticsOf, h, List.nil_append]
    rfl
  refine .bind (.accept _) fun found line hline _ => ?_
  have hlo₁ := Int.le_trans hlo hline
  cases found with
  | some t => exact .pure fun _ _ => rfl
  | none =>
    refine .bind (.accept _) fun found line₁ hline₁ _ => ?_
    have hlo₂ := Int.le_trans hlo₁ hline₁
    cases found with
    | some t => exact .bind (letDeclaration_stays he hlo₂) fun n _ _ h => .pure fun _ _ => hone n h
    | none =>
      exact .bind (he hlo₂) fun n _ hnext h => .closing (Int.le_trans hlo₂ hnext) _ fun _ _ => hone n h

include he hlo in
theorem optionalBefore_stays (closing : TokenKind) :
    Stays lo here (fun found _ => ∀ n, found = some n → n.diagnostics = []) (optionalBefore expression closing) := by
  refine .bind .nextKind fun found line hline _ => ?_
  have hlo₁ := Int.le_trans hlo hline
  split
  · exact .closing hlo₁ _ fun _ _ => nofun
  · exact .bind (he hlo₁) fun n _ hnext h => .closing (Int.le_trans hlo₁ hnext) _ fun _ _ m hm => by cases hm; exact h

include he hb hlo in
theorem forStatement_stays (line : Line) : Stays lo here (Spans here) (forStatement expression block line) := by
  refine .behind hlo _ fun _ line₁ hline₁ hlo₁ => ?_
  refine .bind (forInitializer_stays he hlo₁) fun initializer line₂ hline₂ hi => ?_
  refine .bind (optionalBefore_stays he (Int.le_trans hlo₁ hline₂) _) fun condition line₃ hline₃ _ => ?_
  have hhere₃ := Int.le_trans (Int.le_trans hline₁ hline₂) hline₃
  have hlo₃ := Int.le_trans hlo hhere₃
  refine .bind (optionalBefore_stays he hlo₃ _) fun increment line₄ hline₄ hs => ?_
  refine .bind (hb (Int.le_trans hlo₃ hline₄)) fun body line₅ _ hbody => .pure fun line₆ hline₆ => ?_
  rw [Spans, forLoop_diagnostics condition body line hi hs]
  exact Between.mono hbody (Int.le_trans hhere₃ hline₄) hline₆

include he hb hlo in
theorem afterKeyword_stays (line : Line) (k : KeywordStep) :
    Stays lo here (Spans here) (afterKeyword expression block bound line k) := by
  cases k with
  | letStep => exact (letDeclaration_stays he hlo).mono fun _ _ _ => Quiet.spans
  | funStep => exact functionDeclaration_stays hb bound hlo
  | classStep => exact classDeclaration_stays hb bound hlo
  | printStep => exact .bind (he hlo) fun _ _ hnext _ => .closing (Int.le_trans hlo hnext) _ fun _ _ => .nil
  | ifStep => exact ifStatement_stays he hb line bound hlo
  | whileStep =>
    refine .bind (he hlo) fun condition line₁ hline₁ _ => ?_
    exact .bind (hb (Int.le_trans hlo hline₁)) fun body line₂ _ hbody => .pure fun line₃ hline₃ =>
      Between.mono hbody hline₁ hline₃
  | forStep => exact forStatement_stays he hb hlo line
  | returnStep => exact .bind (optionalBefore_stays he hlo _) fun _ _ _ _ => .pure fun _ _ => .nil

include he hb hlo in
theorem declaration_stays : Stays lo here (Spans here) (declaration expression block bound) := by
  refine .bind (.acceptMap _) fun found line hline _ => ?_
  have hlo₁ := Int.le_trans hlo hline
  have hwiden : ∀ {n : Node} {from₁ upto : Line}, here ≤ from₁ → Spans from₁ n upto → Spans here n upto :=
    fun hfrom h => Between.mono h hfrom (Int.le_refl _)
  cases found with
  | some found =>
    exact (afterKeyword_stays he hb bound hlo₁ found.2.line found.1).mono fun _ _ _ => hwiden hline
  | none =>
    refine .bind .nextKind fun found line₁ hline₁ _ => ?_
    have hlo₂ := Int.le_trans hlo₁ hline₁
    split
    · exact (hb hlo₂).mono fun _ _ _ => hwiden (Int.le_trans hline hline₁)
    · exact .bind (he hlo₂) fun n _ hnext h => .closing (Int.le_trans hlo₂ hnext) _ fun line _ =>
        show Spans here n line from Quiet.spans h

end Statements

/-! ## Programs -/

theorem blockOf_stays {step : Parser Node} (h : ∀ {lo here}, lo ≤ here → Stays lo here (Spans here) step) (bound : Nat)
    {lo here : Line} (hlo : lo ≤ here) : Stays lo here (Spans here) (blockOf step bound) := by
  refine .behind hlo _ fun opening line hline hlo₁ => ?_
  refine .bind (.manyUntil _ h bound hlo₁) fun steps line₁ hline₁ hsteps => ?_
  exact .closing (Int.le_trans hlo₁ hline₁) _ fun line₂ hline₂ => Between.mono hsteps hline hline₂

/-- The diagnostics of a step are in order, from the line of its first token to that of the token behind it. -/
theorem step_stays : ∀ bound {lo here : Line}, lo ≤ here → Stays lo here (Spans here) (step bound)
  | 0, _, here, _ => .recovering (.failHere (Int.le_refl here) _)
  | bound + 1, _, here, _ =>
    .recovering (declaration_stays (expression_stays _) (blockOf_stays (step_stays bound) _) _ (Int.le_refl here))

end Parser

theorem Token.ascend_of_pairwise {tokens : List Token} (h : (tokens.map (·.line)).Pairwise (· ≤ ·)) :
    Token.Ascend (endLine tokens) (beforeEnd tokens) := by
  have hbefore : ((beforeEnd tokens).map (·.line)).Pairwise (· ≤ ·) :=
    h.sublist ((List.takeWhile_sublist _).map _)
  refine List.pairwise_append.mpr ⟨hbefore, List.pairwise_singleton _ _, fun line hline last hlast => ?_⟩
  obtain ⟨t, ht, rfl⟩ := List.mem_map.mp hline
  rw [List.mem_singleton.mp hlast, endLine]
  cases hfind : tokens.find? (·.kind == .endOfInput) with
  | some e =>
    obtain ⟨he, front, behind, rfl, hfront⟩ := List.find?_eq_some_iff_append.mp hfind
    have ht : t ∈ front := by
      rw [beforeEnd, List.takeWhile_append_of_pos (by simpa [bne] using hfront),
        List.takeWhile_cons_of_neg (by simp [bne, he]),
        List.append_nil] at ht
      exact ht
    rw [List.map_append, List.pairwise_append] at h
    exact h.2.2 _ (List.mem_map_of_mem ht) _ List.mem_cons_self
  | none =>
    -- without an end of input it stands on the line of the last token
    have ht := (List.takeWhile_sublist _).subset ht
    have hne := List.ne_nil_of_mem ht
    rw [List.getLast?_eq_some_getLast hne, Option.map_some, Option.getD_some]
    rw [← List.dropLast_append_getLast hne] at ht
    obtain ht | ht := List.mem_append.mp ht
    · rw [← List.dropLast_append_getLast hne, List.map_append, List.pairwise_append] at h
      exact h.2.2 _ (List.mem_map_of_mem ht) _ (List.mem_singleton_self _)
    · rw [List.mem_singleton.mp ht]

/-- Diagnostics of tokens on lines that never decrease are in the order of their lines. -/
theorem parse_ascends {tokens : List Token} (h : (tokens.map (·.line)).Pairwise (· ≤ ·)) :
    Ascend (Node.diagnosticsOf (parse tokens)) := by
  have hstay := Parser.Stays.manyUntil (fun _ => false) (Parser.step_stays (Token.beforeEnd tokens).length)
    (Token.beforeEnd tokens).length (Int.le_refl (Token.nextLine (Token.endLine tokens) (Token.beforeEnd tokens)))
    (Token.endLine tokens) ⟨Token.beforeEnd tokens, []⟩ (Token.ascend_of_pairwise h) (Int.le_refl _)
  rw [parse_eq_stepsOf, stepsOf, Parser.program]
  split
  · next hr =>
    rw [hr] at hstay
    exact hstay.2.ascend
  · exact .nil

/-! ## Scanning -/

namespace Piece

theorem pairwise_withLines : ∀ (ps : List Piece) (line : Line),
    (withLines line ps).Pairwise fun a b => a.1 ≤ b.1
  | [], _ => .nil
  | _ :: ps, _ => List.pairwise_cons.mpr ⟨fun _ h => (line_of_mem_withLines h).1, pairwise_withLines ps _⟩

end Piece

namespace Scan

theorem line_of_diagnostic? {line : Line} {p : Piece} {d : Diagnostic} (h : p.diagnostic? line = some d) :
    d.line = line := by
  cases p with
  | stray | openString => cases h; rfl
  | _ => cases h

theorem line_of_token? {line : Line} {p : Piece} {t : Token} (h : p.token? line = some t) : t.line = line := by
  cases p with
  | lexeme => cases h; rfl
  | _ => cases h

theorem faults_ascend (source : String) : Ascend (Scan.of source).diagnostics := by
  refine List.pairwise_filterMap.mpr ((Piece.pairwise_withLines _ 1).imp fun hle d hd d' hd' => ?_)
  rw [line_of_diagnostic? hd, line_of_diagnostic? hd']
  exact hle

theorem tokens_ascend (source : String) : ((Scan.of source).tokens.map (·.line)).Pairwise (· ≤ ·) := by
  refine List.pairwise_map.mpr (List.pairwise_append.mpr ⟨?_, List.pairwise_singleton _ _, fun t ht e he => ?_⟩)
  · refine List.pairwise_filterMap.mpr ((Piece.pairwise_withLines _ 1).imp fun hle t ht t' ht' => ?_)
    rw [line_of_token? ht, line_of_token? ht']
    exact hle
  · rw [List.mem_singleton.mp he]
    exact (line_of_token (List.mem_append_left _ ht)).2

end Scan

/-! ## Runs -/

/-- The least line of the diagnostics is that of the first one, which the failure in words names. -/
theorem RunResult.names_least {r : RunResult} (h : Ascend r.diagnostics) :
    r.diagnostics = [] ∨ ∃ line, r.line? = some line ∧ (∃ d ∈ r.diagnostics, d.line = line) ∧
      (∀ d ∈ r.diagnostics, line ≤ d.line) ∧
        ∃ text, r.errorText = "Error on line " ++ toString line ++ ": " ++ text := by
  obtain ⟨_ | ⟨first, others, message⟩, effects⟩ := r
  · exact .inl rfl
  · refine .inr ⟨first.line, rfl, ⟨first, List.mem_cons_self, rfl⟩, fun d hd => ?_, _, rfl⟩
    obtain rfl | hd := List.mem_cons.mp hd
    · exact Int.le_refl _
    · exact List.rel_of_pairwise_cons h hd

namespace Session

theorem ascend_of_run {s : Session} {fuel : Nat} {source : String} {r : RunResult}
    (h : (s.runWith fuel source).1 = .ok r) : Ascend r.diagnostics := by
  cases verdict source with
  | @scan first others hs =>
    rw [runWith_of_scan _ fuel hs] at h
    cases h
    exact (hs ▸ Scan.faults_ascend source : Ascend (first :: others))
  | @parse first others hs hp =>
    rw [runWith_of_parse _ fuel hs hp] at h
    cases h
    exact (hp ▸ parse_ascends (Scan.tokens_ascend source) : Ascend (first :: others))
  | resolve hs hp hr =>
    rw [runWith_of_resolve _ fuel hs hp hr] at h
    cases h
    exact List.pairwise_singleton _ _
  | passed hc =>
    rw [runWith_of_checked _ fuel hc, execute] at h
    split at h
    · cases h
      exact .nil
    · split at h
      · rw [diagnostics_of_failInCalls h]
        exact List.pairwise_singleton _ _
      · rw [diagnostics_of_failInCalls h]
        exact List.pairwise_singleton _ _
      · cases h

end Session

/-- Diagnostics of a text and of tokens are in the order of their lines. So a failed run names the least line of what
it reports, whatever phase it failed in. -/
theorem diagnostics_ascend :
    (∀ source, Ascend (Scan.of source).diagnostics) ∧
    (∀ tokens : List Token, (tokens.map (·.line)).Pairwise (· ≤ ·) → Ascend (Node.diagnosticsOf (parse tokens))) ∧
    ∀ (s : Session) (fuel : Nat) (source : String) (r : RunResult), (s.runWith fuel source).1 = .ok r →
      r.diagnostics = [] ∨ ∃ line, r.line? = some line ∧ (∃ d ∈ r.diagnostics, d.line = line) ∧
        (∀ d ∈ r.diagnostics, line ≤ d.line) ∧
        ∃ text, r.errorText = "Error on line " ++ toString line ++ ": " ++ text :=
  ⟨Scan.faults_ascend, fun _ => parse_ascends, fun _ _ _ _ h => RunResult.names_least (Session.ascend_of_run h)⟩

/-- A text that fails on three lines: in a property name, behind the target of an assignment, and in a block. -/
def threeFaultsText : String := "a.\n;\n\x7b b() =\ntrue; \x7d\n\x7b let ; \x7d"

theorem threeFaultsText_ascends :
    ((Node.diagnosticsOf (parse (Scan.of threeFaultsText).tokens)).map (·.line) = [1, 3, 5] ∧
      Ascend (Node.diagnosticsOf (parse (Scan.of threeFaultsText).tokens))) ∧
    ∃ r, ((Session.start {}).runWith 20 threeFaultsText).1 = .ok r ∧ r.line? = some 1 ∧
      ∀ d ∈ r.diagnostics, 1 ≤ d.line := by
  have hlines : ((Scan.of threeFaultsText).tokens.map (·.line)).Pairwise (· ≤ ·) := by decide +kernel
  have hrun : ∃ r, ((Session.start {}).runWith 20 threeFaultsText).1 = .ok r ∧
      r.line? = some 1 := exists_ok_of_any (by decide +kernel)
  refine ⟨⟨by decide +kernel, diagnostics_ascend.2.1 _ hlines⟩, ?_⟩
  obtain ⟨r, hr, hline⟩ := hrun
  refine ⟨r, hr, hline, ?_⟩
  rcases diagnostics_ascend.2.2 _ _ _ r hr with hnone | ⟨line, hfirst, -, hleast, -⟩
  · rw [hnone]
    nofun
  · obtain rfl : line = 1 := Option.some.inj (hfirst.symm.trans hline)
    exact hleast

end LoxLang
