import LoxLang.Proofs.Parsing

/-!
# How far parsers look

A parser sees the tokens that are left, and bounds on its rounds. `Parallel v ts R p q` says that two parsers, run on
the tokens `ts` with anything behind them on either side, reply the same and leave the same of `ts`: as long as the
tokens in view suffice (`View.Suffices`), neither the bounds nor what stands behind the view matter. They suffice if
there is nothing behind them, and for a single declaration also if they hold a semicolon and nothing that leads beyond
one. So the bounds of a step do not matter (`step_parallel`), and a declaration does not look behind its semicolon.
-/

namespace LoxLang.Parser

variable {α β γ : Type}

/-! ## Views -/

/-- What stands behind the tokens in view, on two sides, and the line of the end of input on each. -/
structure View where
  rest : List Token
  rest' : List Token
  endLine : Line
  endLine' : Line

namespace View

/-- Nothing stands behind the tokens in view. -/
def Closed (v : View) : Prop := ∃ line, v = ⟨[], [], line, line⟩

/-- There is nothing to see behind the tokens, or no need to: there is a semicolon among them, and no brace or `for`
that leads beyond a semicolon. -/
def Suffices (v : View) (ts : List Token) : Prop :=
  v.Closed ∨ (∃ t ∈ ts, t.kind = .semicolon) ∧ ∀ t ∈ ts, t.kind ≠ .leftBrace ∧ t.kind ≠ .forWord

/-- Fewer tokens are left, and they still suffice. -/
def Further (v : View) (ts left : List Token) (_ : α) : Prop := v.Suffices left ∧ left.length < ts.length

namespace Suffices

variable {v : View} {t : Token} {ts : List Token}

theorem closed_of_nil (h : v.Suffices []) : v.Closed := by
  obtain h | ⟨⟨t, ht, -⟩, -⟩ := h
  · exact h
  · cases ht

theorem tail (h : v.Suffices (t :: ts)) (ht : t.kind ≠ .semicolon) : v.Suffices ts := by
  obtain h | ⟨⟨s, hs, hk⟩, hall⟩ := h
  · exact .inl h
  · refine .inr ⟨⟨s, ?_, hk⟩, fun u hu => hall u (List.mem_cons_of_mem t hu)⟩
    obtain rfl | hs := List.mem_cons.mp hs
    · exact absurd hk ht
    · exact hs

theorem closed_of_kind (h : v.Suffices (t :: ts)) (ht : t.kind = .leftBrace ∨ t.kind = .forWord) : v.Closed := by
  obtain h | ⟨-, hall⟩ := h
  · exact h
  · obtain ⟨hbrace, hfor⟩ := hall t List.mem_cons_self
    exact absurd ht (not_or.mpr ⟨hbrace, hfor⟩)

end Suffices

end View

/-! ## Parallel parsers -/

/-- The same reply on both sides, which leaves the same of the tokens in view. After a fault what is left suffices. -/
inductive RepliesMatch (v : View) (ts : List Token) (R : List Token → α → Prop) : Reply α → Reply α → Prop
  | ok (left) {a caught caught'} : left <:+ ts → R left a →
      RepliesMatch v ts R (.ok a ⟨left ++ v.rest, caught⟩) (.ok a ⟨left ++ v.rest', caught'⟩)
  | fail (left) {fault caught caught'} : left <:+ ts → v.Suffices left →
      RepliesMatch v ts R (.fail fault ⟨left ++ v.rest, caught⟩) (.fail fault ⟨left ++ v.rest', caught'⟩)

/-- The two parsers do the same with the tokens in view, and `R` holds of what is left and of the result. -/
def Parallel (v : View) (ts : List Token) (R : List Token → α → Prop) (p q : Parser α) : Prop :=
  ∀ caught caught', RepliesMatch v ts R (p v.endLine ⟨ts ++ v.rest, caught⟩) (q v.endLine' ⟨ts ++ v.rest', caught'⟩)

/-- What is left suffices. -/
abbrev Enough (v : View) (left : List Token) (_ : α) : Prop := v.Suffices left

/-- Fewer tokens are left. -/
abbrev Shorter (ts left : List Token) (_ : α) : Prop := left.length < ts.length

/-- Both parsers take some of any view of at most `size` tokens that suffices, and leave enough. -/
def Advances (v : View) (size : Nat) (p q : Parser α) : Prop :=
  ∀ ts : List Token, ts.length ≤ size → v.Suffices ts → Parallel v ts (v.Further ts) p q

namespace Parallel

variable {v : View} {ts : List Token} {R : List Token → α → Prop} {Q : List Token → β → Prop} {p q : Parser α}

theorem pure {a : α} (h : R ts a) : Parallel v ts R (Pure.pure a) (Pure.pure a) := fun _ _ => .ok ts List.suffix_rfl h

theorem bind {f g : α → Parser β} (h : Parallel v ts R p q)
    (hf : ∀ left a, left <:+ ts → R left a → Parallel v left Q (f a) (g a)) : Parallel v ts Q (p >>= f) (q >>= g) := by
  intro caught caught'
  have hs := h caught caught'
  rw [bind_apply, bind_apply]
  generalize p v.endLine ⟨ts ++ v.rest, caught⟩ = r at hs
  generalize q v.endLine' ⟨ts ++ v.rest', caught'⟩ = r' at hs
  cases hs with
  | fail left hl he => exact .fail left hl he
  | @ok left a log log' hl ha =>
    have hs' := hf left a hl ha log log'
    dsimp only
    generalize f a v.endLine ⟨left ++ v.rest, log⟩ = s at hs'
    generalize g a v.endLine' ⟨left ++ v.rest', log'⟩ = s' at hs'
    cases hs' with
    | ok left' hl' hb => exact .ok left' (hl'.trans hl) hb
    | fail left' hl' he => exact .fail left' (hl'.trans hl) he

theorem mono {R' : List Token → α → Prop} (h : Parallel v ts R p q)
    (hr : ∀ left a, left <:+ ts → R left a → R' left a) : Parallel v ts R' p q := by
  intro caught caught'
  have hs := h caught caught'
  generalize p v.endLine ⟨ts ++ v.rest, caught⟩ = r at hs
  generalize q v.endLine' ⟨ts ++ v.rest', caught'⟩ = r' at hs
  cases hs with
  | ok left hl ha => exact .ok left hl (hr _ _ hl ha)
  | fail left hl he => exact .fail left hl he

/-- A result that is taken on as it is. -/
theorem map {f : α → β} (h : Parallel v ts R p q) (hr : ∀ left a, R left a → Q left (f a)) :
    Parallel v ts Q (f <$> p) (f <$> q) := h.bind fun left a _ ha => .pure (hr left a ha)

/-! ### Single tokens -/

section Tokens

variable (h : v.Suffices ts)
include h

theorem failAt (line : Line) (cause : ParseCause) : Parallel v ts R (failAt line cause) (failAt line cause) :=
  fun _ _ => .fail ts List.suffix_rfl h

theorem nextKind : Parallel v ts (fun left k => left = ts ∧ k = ts.head?.map (·.kind)) nextKind nextKind := by
  cases ts with
  | nil =>
    obtain ⟨line, rfl⟩ := h.closed_of_nil
    exact fun _ _ => .ok [] List.suffix_rfl ⟨rfl, rfl⟩
  | cons t ts => exact fun _ _ => .ok (t :: ts) List.suffix_rfl ⟨rfl, rfl⟩

theorem failHere (cause : Option String → ParseCause) : Parallel v ts R (failHere cause) (failHere cause) := by
  cases ts with
  | nil =>
    obtain ⟨line, rfl⟩ := h.closed_of_nil
    exact fun _ _ => .fail [] List.suffix_rfl h
  | cons t ts => exact fun _ _ => .fail (t :: ts) List.suffix_rfl h

theorem acceptMap (f : TokenKind → Option β) :
    Parallel v ts (fun left found => match found with
      | none => left = ts
      | some (b, t) => ts = t :: left ∧ f t.kind = some b) (acceptMap f) (acceptMap f) := by
  cases ts with
  | nil =>
    obtain ⟨line, rfl⟩ := h.closed_of_nil
    exact fun _ _ => .ok [] List.suffix_rfl rfl
  | cons t ts =>
    intro caught caught'
    unfold Parser.acceptMap
    dsimp only [List.cons_append]
    cases hf : f t.kind with
    | none => exact .ok (t :: ts) List.suffix_rfl rfl
    | some b => exact .ok ts (List.suffix_cons t ts) ⟨rfl, hf⟩

theorem accept (k : TokenKind) :
    Parallel v ts (fun left found => match found with
      | none => left = ts
      | some t => ts = t :: left ∧ t.kind = k) (accept k) (accept k) := by
  cases ts with
  | nil =>
    obtain ⟨line, rfl⟩ := h.closed_of_nil
    exact fun _ _ => .ok [] List.suffix_rfl rfl
  | cons t ts =>
    intro caught caught'
    unfold Parser.accept
    dsimp only [List.cons_append]
    split
    · next hk => exact .ok ts (List.suffix_cons t ts) ⟨rfl, hk⟩
    · exact .ok (t :: ts) List.suffix_rfl rfl

theorem expect (wanted : Wanted) :
    Parallel v ts (fun left t => ts = t :: left ∧ t.kind = wanted.token) (expect wanted) (expect wanted) := by
  refine .bind (.accept h wanted.token) fun left found _ hfound => ?_
  cases found with
  | none => exact .failHere (hfound ▸ h) _
  | some t => exact .pure hfound

end Tokens

/-- Behind a token, whatever is left is shorter. -/
theorem shorter {t : Token} (h : Parallel v ts (fun _ _ => True) p q) : Parallel v ts (Shorter (t :: ts)) p q :=
  h.mono fun _ _ hl _ => Nat.lt_succ_of_le hl.length_le

/-! ### Repetition -/

theorem commaSeparated {size : Nat} {item item' : Parser α}
    (hi : ∀ ts : List Token, ts.length ≤ size → v.Suffices ts → Parallel v ts (Enough v) item item') :
    ∀ {bound bound' : Nat} {ts : List Token}, ts.length < bound → ts.length < bound' → ts.length ≤ size →
      v.Suffices ts → Parallel v ts (Enough v) (commaSeparated item bound) (commaSeparated item' bound')
  | bound + 1, bound' + 1, ts, hb, hb', hs, h => by
    refine .bind (hi ts hs h) fun left first hl he => .bind (.accept he .comma) fun left' found _ hfound => ?_
    have hlen := hl.length_le
    cases found with
    | none => exact .pure (hfound ▸ he)
    | some t =>
      obtain ⟨rfl, hk⟩ := hfound
      rw [List.length_cons] at hlen
      have he' : v.Suffices left' := he.tail (by rw [hk]; decide)
      exact .bind (commaSeparated hi (by omega) (by omega) (by omega) he') fun _ _ _ hm => .pure hm

/-- Where nothing stands behind the view, the bounds of a repetition do not matter. -/
theorem manyUntil {size : Nat} {item item' : Parser α} (stop : TokenKind → Bool) (hv : v.Closed)
    (hi : ∀ ts : List Token, ts ≠ [] → ts.length ≤ size → Parallel v ts (Shorter ts) item item') :
    ∀ {bound bound' : Nat} {ts : List Token}, ts.length ≤ bound → ts.length ≤ bound' → ts.length ≤ size →
      Parallel v ts (fun _ _ => True) (manyUntil stop item bound) (manyUntil stop item' bound')
  | bound, bound', [], _, _, _ => by
    obtain ⟨line, rfl⟩ := hv
    have hend : ∀ (item : Parser α) bound caught,
        Parser.manyUntil stop item bound line ⟨[], caught⟩ = .ok [] ⟨[], caught⟩ :=
      fun _ bound _ => by cases bound <;> rfl
    intro caught caught'
    show RepliesMatch _ _ _ (Parser.manyUntil stop item bound line ⟨[], caught⟩)
      (Parser.manyUntil stop item' bound' line ⟨[], caught'⟩)
    rw [hend, hend]
    exact .ok [] List.suffix_rfl trivial
  | bound + 1, bound' + 1, t :: ts, hb, hb', hs => by
    refine .bind (.nextKind (.inl hv)) fun left found _ hfound => ?_
    obtain ⟨rfl, rfl⟩ := hfound
    dsimp only [List.head?_cons, Option.map_some]
    split
    · exact .pure trivial
    · refine .bind (hi _ (List.cons_ne_nil t ts) hs) fun left' first _ hl => ?_
      have hlt : left'.length < (t :: ts).length := hl
      exact .bind (manyUntil stop hv hi (by omega) (by omega) (by omega)) fun _ _ _ _ => .pure trivial

/-! ### Recovery -/

theorem skipFrom_append {last : TokenKind} {ts rest : List Token}
    (h : rest = [] ∨ last = .semicolon ∨ ∃ t ∈ ts, t.kind = .semicolon) :
    skipFrom last (ts ++ rest) = skipFrom last ts ++ rest := by
  induction ts generalizing last with
  | nil =>
    cases rest with
    | nil => rfl
    | cons t rest =>
      obtain h | h | ⟨t, ht, -⟩ := h
      · cases h
      · exact if_pos (.inl h)
      · cases ht
  | cons t ts ih =>
    rw [List.cons_append, skipFrom, skipFrom]
    split
    · rfl
    · next hgo =>
      refine ih ?_
      obtain h | h | ⟨s, hs, hk⟩ := h
      · exact .inl h
      · exact absurd (.inl h) hgo
      · obtain rfl | hs := List.mem_cons.mp hs
        · exact .inr (.inl hk)
        · exact .inr (.inr ⟨s, hs, hk⟩)

/-- Reading resumes behind a token `last` in front of `cut`, which is what was left, or all but the first token. -/
theorem resume_cut {start left : List Token} (hne : start ≠ []) (hl : left <:+ start) :
    ∃ taken last cut, start = taken ++ last :: cut ∧ (left = cut ∨ left = last :: cut) ∧
      ∀ rest, resume (start ++ rest) (left ++ rest) = skipFrom last.kind (cut ++ rest) := by
  obtain ⟨before, rfl⟩ := hl
  obtain rfl | ⟨taken, last, rfl⟩ := List.eq_nil_or_concat before
  · obtain ⟨last, cut, rfl⟩ := List.exists_cons_of_ne_nil hne
    refine ⟨[], last, cut, rfl, .inr rfl, fun rest => ?_⟩
    simp [resume]
  · rw [List.concat_eq_append]
    refine ⟨taken, last, left, by simp, .inl rfl, fun rest => ?_⟩
    have hlt : (left ++ rest).length < (taken ++ [last] ++ left ++ rest).length := by
      simp only [List.length_append, List.length_singleton]
      omega
    have htake : (taken ++ [last] ++ left ++ rest).length - (left ++ rest).length = (taken ++ [last]).length := by
      simp only [List.length_append]
      omega
    rw [resume, if_pos hlt, htake, List.append_assoc, List.take_left, List.getLast?_concat]

/-- A step that cannot be read, on either side: reading resumes at the same token. -/
theorem recovering {p q : Parser Node} (hne : ts ≠ []) (h : Parallel v ts (Shorter ts) p q) :
    Parallel v ts (Shorter ts) (recovering p) (recovering q) := by
  intro caught caught'
  have hs := h caught caught'
  unfold Parser.recovering
  generalize p v.endLine ⟨ts ++ v.rest, caught⟩ = r at hs
  generalize q v.endLine' ⟨ts ++ v.rest', caught'⟩ = r' at hs
  cases hs with
  | ok left hl hshort => exact .ok left hl hshort
  | @fail left fault log log' hl he =>
    obtain ⟨taken, last, cut, rfl, hcut, hresume⟩ := resume_cut hne hl
    have hstop : ∀ rest, (v.Closed → rest = []) →
        skipFrom last.kind (cut ++ rest) = skipFrom last.kind cut ++ rest := fun rest hrest => by
      refine skipFrom_append ?_
      obtain hv | ⟨⟨t, ht, hk⟩, -⟩ := he
      · exact .inl (hrest hv)
      · obtain rfl | rfl := hcut
        · exact .inr (.inr ⟨t, ht, hk⟩)
        · obtain rfl | ht := List.mem_cons.mp ht
          · exact .inr (.inl hk)
          · exact .inr (.inr ⟨t, ht, hk⟩)
    have hsuffix := Reads.skipFrom_suffix last.kind cut
    dsimp only
    rw [hresume, hresume, hstop _ fun ⟨line, hv⟩ => by rw [hv], hstop _ fun ⟨line, hv⟩ => by rw [hv]]
    refine .ok _ (hsuffix.trans ⟨taken ++ [last], by simp⟩) ?_
    have hlen := hsuffix.length_le
    show (skipFrom last.kind cut).length < (taken ++ last :: cut).length
    rw [List.length_append, List.length_cons]
    omega

end Parallel

/-! ## Expressions -/

section Expressions

variable {v : View} {size : Nat} {nested nested' : Parser Node} (hn : Advances v size nested nested')

theorem acceptAtom_parallel {ts : List Token} (h : v.Suffices ts) :
    Parallel v ts (fun left found => match found with
      | none => left = ts
      | some _ => ∃ t, ts = t :: left ∧ t.kind ≠ .semicolon) acceptAtom acceptAtom := by
  cases ts with
  | nil =>
    obtain ⟨line, rfl⟩ := h.closed_of_nil
    exact fun _ _ => .ok [] List.suffix_rfl rfl
  | cons t ts =>
    intro caught caught'
    unfold acceptAtom
    dsimp only [List.cons_append]
    cases hf : atom? t with
    | none => exact .ok (t :: ts) List.suffix_rfl rfl
    | some n =>
      refine .ok ts (List.suffix_cons t ts) ⟨t, rfl, fun hk => ?_⟩
      rw [atom?, hk] at hf
      cases hf

include hn

theorem primary_parallel : Advances v (size + 1) (primary nested) (primary nested') := by
  intro ts hs h
  refine .bind (acceptAtom_parallel h) fun left found _ hfound => ?_
  cases found with
  | some n =>
    obtain ⟨t, rfl, hk⟩ := hfound
    exact .pure ⟨h.tail hk, Nat.lt_succ_self _⟩
  | none =>
    obtain rfl : left = ts := hfound
    refine .bind (.accept h .leftParen) fun left' found _ hfound => ?_
    cases found with
    | none => exact .failHere (hfound ▸ h) _
    | some t =>
      obtain ⟨rfl, hk⟩ := hfound
      rw [List.length_cons] at hs
      refine .bind (hn left' (by omega) (h.tail (by rw [hk]; decide))) fun rest n _ hrest =>
        .bind (.expect hrest.1 _) fun rest' r _ hr => .pure ?_
      obtain ⟨rfl, hk'⟩ := hr
      have hlen := hrest.2
      rw [List.length_cons] at hlen
      refine ⟨hrest.1.tail (by rw [hk']; decide), ?_⟩
      rw [List.length_cons]
      omega

theorem arguments_parallel {bound bound' : Nat} {ts : List Token} (hb : ts.length < bound) (hb' : ts.length < bound')
    (hs : ts.length ≤ size) (h : v.Suffices ts) :
    Parallel v ts (v.Further ts) (arguments nested bound) (arguments nested' bound') := by
  have hend : ∀ (left : List Token) (items : List Node), left <:+ ts → v.Suffices left →
      Parallel v left (v.Further ts) (do let _ ← expect .argumentsEnd; pure items)
        (do let _ ← expect .argumentsEnd; pure items) := fun left items hl he => by
    refine .bind (.expect he _) fun left' r _ hr => .pure ?_
    obtain ⟨rfl, hk⟩ := hr
    exact ⟨he.tail (by rw [hk]; decide), hl.length_le⟩
  refine .bind (.nextKind h) fun left k _ hk => ?_
  obtain ⟨rfl, -⟩ := hk
  split
  · exact .bind (.pure (R := Enough v) h) fun left' items hl he => hend left' items hl he
  · refine .bind (.commaSeparated (fun ts hs h => (hn ts hs h).mono fun _ _ _ hm => hm.1) hb hb' hs h)
      fun left' items hl he => hend left' items hl he

theorem suffixesFrom_parallel : ∀ {bound bound' : Nat} {ts : List Token} (callee : Node), ts.length < bound →
    ts.length < bound' → ts.length ≤ size → v.Suffices ts →
    Parallel v ts (Enough v) (suffixesFrom nested bound callee) (suffixesFrom nested' bound' callee)
  | bound + 1, bound' + 1, ts, callee, hb, hb', hs, h => by
    refine .bind (.accept h .leftParen) fun left found _ hfound => ?_
    cases found with
    | some t =>
      obtain ⟨rfl, hk⟩ := hfound
      rw [List.length_cons] at hb hb' hs
      refine .bind (arguments_parallel hn (by omega) (by omega) (by omega) (h.tail (by rw [hk]; decide)))
        fun rest items _ hrest => ?_
      have hlen := hrest.2
      exact suffixesFrom_parallel _ (by omega) (by omega) (by omega) hrest.1
    | none =>
      obtain rfl : left = ts := hfound
      refine .bind (.accept h .dot) fun left' found _ hfound => ?_
      cases found with
      | none => exact .pure (hfound ▸ h)
      | some t =>
        obtain ⟨rfl, hk⟩ := hfound
        rw [List.length_cons] at hb hb' hs
        have ht : v.Suffices left' := h.tail (by rw [hk]; decide)
        have hname : Parallel v left' (v.Further left') (propertyName t.line) (propertyName t.line) := by
          refine .bind (.accept ht .identifier) fun rest found _ hfound => ?_
          cases found with
          | none => exact .failAt (hfound ▸ ht) _ _
          | some name =>
            obtain ⟨rfl, hk⟩ := hfound
            exact .pure ⟨ht.tail (by rw [hk]; decide), Nat.lt_succ_self _⟩
        refine .bind hname fun rest name _ hrest => ?_
        have hlen := hrest.2
        exact suffixesFrom_parallel _ (by omega) (by omega) (by omega) hrest.1

section Bounds

variable {bound bound' : Nat} (hb : size < bound) (hb' : size < bound')
include hb hb'

theorem call_parallel : Advances v (size + 1) (call nested bound) (call nested' bound') := by
  intro ts hs h
  refine .bind (primary_parallel hn ts hs h) fun left callee _ hleft => ?_
  have hlen := hleft.2
  refine (suffixesFrom_parallel hn callee (by omega) (by omega) (by omega) hleft.1).mono fun left' _ hl he => ?_
  have := hl.length_le
  exact ⟨he, by omega⟩

theorem unary_parallel : ∀ {rounds rounds' : Nat} {ts : List Token}, ts.length ≤ rounds → ts.length ≤ rounds' →
    ts.length ≤ size + 1 → v.Suffices ts →
    Parallel v ts (v.Further ts) (unary nested bound rounds) (unary nested' bound' rounds')
  | rounds, rounds', [], _, _, _, h => by
    have hend : ∀ (nested : Parser Node) bound rounds endLine caught,
        unary nested bound rounds endLine ⟨[], caught⟩ = call nested bound endLine ⟨[], caught⟩ :=
      fun _ _ rounds _ _ => by cases rounds <;> rfl
    have hcall := call_parallel hn hb hb' [] (Nat.zero_le _) h
    obtain ⟨line, rfl⟩ := h.closed_of_nil
    intro caught caught'
    have := hcall caught caught'
    rw [List.nil_append] at this ⊢
    rwa [hend, hend]
  | rounds + 1, rounds' + 1, t :: ts, hr, hr', hs, h => by
    refine .bind (.acceptMap h unaryOp) fun left found _ hfound => ?_
    cases found with
    | none =>
      obtain rfl : left = t :: ts := hfound
      exact call_parallel hn hb hb' _ hs h
    | some found =>
      obtain ⟨o, t'⟩ := found
      obtain ⟨heq, ho⟩ := hfound
      cases heq
      rw [List.length_cons] at hr hr' hs
      have ht : v.Suffices ts := h.tail fun hk => by rw [hk] at ho; cases ho
      refine .bind (unary_parallel (by omega) (by omega) (by omega) ht) fun rest n _ hrest => .pure ?_
      exact ⟨hrest.1, Nat.lt_succ_of_lt hrest.2⟩

end Bounds

end Expressions

/-! ### Chains -/

section Chains

variable {v : View} {op : Type} {operator : TokenKind → Option op} {build : op → Node → Node → Line → Node}
  {size : Nat} {operand operand' : Parser Node} (hop : operator .semicolon = none)
  (ho : Advances v size operand operand')
include hop ho

theorem leftChainFrom_parallel : ∀ {bound bound' : Nat} {ts : List Token} (left : Node), ts.length < bound →
    ts.length < bound' → ts.length ≤ size → v.Suffices ts →
    Parallel v ts (Enough v) (leftChainFrom operator build operand bound left)
      (leftChainFrom operator build operand' bound' left)
  | bound + 1, bound' + 1, ts, left, hb, hb', hs, h => by
    refine .bind (.acceptMap h operator) fun rest found _ hfound => ?_
    cases found with
    | none => exact .pure (hfound ▸ h)
    | some found =>
      obtain ⟨o, t⟩ := found
      obtain ⟨rfl, hk⟩ := hfound
      rw [List.length_cons] at hb hb' hs
      have ht : v.Suffices rest := h.tail fun hsemi => by rw [hsemi, hop] at hk; cases hk
      refine .bind (ho rest (by omega) ht) fun rest' right _ hrest => ?_
      have hlen := hrest.2
      exact leftChainFrom_parallel _ (by omega) (by omega) (by omega) hrest.1

theorem leftChain_parallel {bound bound' : Nat} (hb : size ≤ bound) (hb' : size ≤ bound') :
    Advances v size (leftChain operator build operand bound) (leftChain operator build operand' bound') := by
  intro ts hs h
  refine .bind (ho ts hs h) fun left first _ hleft => ?_
  have hlen := hleft.2
  refine (leftChainFrom_parallel hop ho first (by omega) (by omega) (by omega) hleft.1).mono fun left' _ hl he => ?_
  have := hl.length_le
  exact ⟨he, by omega⟩

theorem rightChain_parallel : ∀ {bound bound' : Nat} {ts : List Token}, 0 < bound → 0 < bound' →
    ts.length ≤ bound → ts.length ≤ bound' → ts.length ≤ size → v.Suffices ts →
    Parallel v ts (v.Further ts) (rightChain operator build operand bound) (rightChain operator build operand' bound')
  | bound + 1, bound' + 1, ts, _, _, hb, hb', hs, h => by
    refine .bind (ho ts hs h) fun rest left _ hrest =>
      .bind (.acceptMap hrest.1 operator) fun rest' found _ hfound => ?_
    have hlen := hrest.2
    cases found with
    | none =>
      obtain rfl : rest' = rest := hfound
      exact .pure hrest
    | some found =>
      obtain ⟨o, t⟩ := found
      obtain ⟨rfl, hk⟩ := hfound
      rw [List.length_cons] at hlen
      have ht : v.Suffices rest' := hrest.1.tail fun hsemi => by rw [hsemi, hop] at hk; cases hk
      refine .bind (rightChain_parallel (by omega) (by omega) (by omega) (by omega) (by omega) ht)
        fun rest'' right _ hright => .pure ⟨hright.1, ?_⟩
      have := hright.2
      omega

end Chains

/-! ### Operators -/

section Levels

variable {v : View} {size : Nat} {nested nested' : Parser Node} (hn : Advances v size nested nested')
  {bound bound' : Nat} (hb : size < bound) (hb' : size < bound')
include hn hb hb'

theorem disjunction_parallel : Advances v (size + 1) (disjunction nested bound) (disjunction nested' bound') :=
  have unary : Advances v (size + 1) (unary nested bound bound) (unary nested' bound' bound') :=
    fun _ hs h => unary_parallel hn hb hb' (Nat.le_trans hs hb) (Nat.le_trans hs hb') hs h
  have factor : Advances v (size + 1) (factor nested bound) (factor nested' bound') :=
    leftChain_parallel rfl unary hb hb'
  have term : Advances v (size + 1) (term nested bound) (term nested' bound') := leftChain_parallel rfl factor hb hb'
  have comparison : Advances v (size + 1) (comparison nested bound) (comparison nested' bound') := fun _ hs h =>
    rightChain_parallel rfl term (by omega) (by omega) (Nat.le_trans hs hb) (Nat.le_trans hs hb') hs h
  have equality : Advances v (size + 1) (equality nested bound) (equality nested' bound') := fun _ hs h =>
    rightChain_parallel rfl comparison (by omega) (by omega) (Nat.le_trans hs hb) (Nat.le_trans hs hb') hs h
  have conjunction : Advances v (size + 1) (conjunction nested bound) (conjunction nested' bound') :=
    leftChain_parallel rfl equality hb hb'
  leftChain_parallel rfl conjunction hb hb'

theorem assignment_parallel : ∀ {rounds rounds' : Nat} {ts : List Token}, 0 < rounds → 0 < rounds' →
    ts.length ≤ rounds → ts.length ≤ rounds' → ts.length ≤ size + 1 → v.Suffices ts →
    Parallel v ts (v.Further ts) (assignment nested bound rounds) (assignment nested' bound' rounds')
  | rounds + 1, rounds' + 1, ts, _, _, hr, hr', hs, h => by
    refine .bind (disjunction_parallel hn hb hb' ts hs h) fun rest target _ hrest =>
      .bind (.accept hrest.1 .equal) fun rest' found _ hfound => ?_
    have hlen := hrest.2
    cases found with
    | none =>
      obtain rfl : rest' = rest := hfound
      exact .pure hrest
    | some t =>
      obtain ⟨rfl, hk⟩ := hfound
      rw [List.length_cons] at hlen
      have ht : v.Suffices rest' := hrest.1.tail (by rw [hk]; decide)
      refine .bind (assignment_parallel (by omega) (by omega) (by omega) (by omega) (by omega) ht)
        fun rest'' value _ hvalue => ?_
      cases assignTo? target value with
      | none => exact .failAt hvalue.1 _ _
      | some n =>
        refine .pure ⟨hvalue.1, ?_⟩
        have := hvalue.2
        omega

end Levels

/-- At the end of input nothing is read as an expression. -/
theorem expression_nil (bound : Nat) (endLine : Line) (caught : List Diagnostic) :
    expression bound endLine ⟨[], caught⟩ = .fail ⟨endLine, .unrecognized none⟩ ⟨[], caught⟩ := by
  cases bound <;> rfl

theorem expression_parallel {v : View} : ∀ {size bound bound' : Nat}, size ≤ bound → size ≤ bound' →
    Advances v size (expression bound) (expression bound')
  | 0, bound, bound', _, _ => by
    rintro ts hs h caught caught'
    obtain rfl := List.eq_nil_of_length_eq_zero (Nat.le_zero.mp hs)
    obtain ⟨line, rfl⟩ := h.closed_of_nil
    rw [List.nil_append, expression_nil, expression_nil]
    exact .fail [] List.suffix_rfl h
  | size + 1, bound + 1, bound' + 1, hb, hb' => fun ts hs h =>
    have hb : size < bound + 1 := hb
    have hb' : size < bound' + 1 := hb'
    assignment_parallel (expression_parallel (by omega) (by omega)) hb hb' (by omega) (by omega) (by omega) (by omega)
      hs h

/-! ## Statements -/

section Statements

variable {v : View} {size : Nat} {expression expression' block block' : Parser Node}
  (he : Advances v size expression expression') (hblock : Advances v size block block') {bound bound' : Nat}
  {ts : List Token}

/-- The token that a statement ends with. -/
theorem closing_parallel {n : Node} (wanted : Wanted) (h : v.Suffices ts) :
    Parallel v ts (fun left _ => left.length < ts.length) (do let _ ← expect wanted; Pure.pure n)
      (do let _ ← expect wanted; Pure.pure n) := by
  refine .bind (.expect h wanted) fun left t _ ht => .pure ?_
  rw [ht.1]
  exact Nat.lt_succ_self _

include he in
theorem letDeclaration_parallel (hs : ts.length ≤ size) (h : v.Suffices ts) :
    Parallel v ts (fun _ _ => True) (letDeclaration expression) (letDeclaration expression') := by
  refine .bind (.expect h _) fun left name _ hname => ?_
  obtain ⟨rfl, hk⟩ := hname
  rw [List.length_cons] at hs
  have hleft : v.Suffices left := h.tail (by rw [hk]; decide)
  refine .bind (.accept hleft .equal) fun left' found _ hfound => ?_
  cases found with
  | none =>
    obtain rfl : left' = left := hfound
    exact (closing_parallel _ hleft).mono fun _ _ _ _ => trivial
  | some t =>
    obtain ⟨rfl, hk⟩ := hfound
    rw [List.length_cons] at hs
    refine .bind (he left' (by omega) (hleft.tail (by rw [hk]; decide))) fun rest n _ hn => ?_
    exact (closing_parallel _ hn.1).mono fun _ _ _ _ => trivial

theorem parameters_parallel (hb : ts.length < bound) (hb' : ts.length < bound') (h : v.Suffices ts) :
    Parallel v ts (Enough v) (parameters bound) (parameters bound') := by
  refine .bind (.nextKind h) fun left k _ hk => ?_
  obtain ⟨rfl, -⟩ := hk
  split
  · exact .pure h
  · have hparameter : ∀ ts : List Token, ts.length ≤ left.length → v.Suffices ts →
        Parallel v ts (Enough v) (expect .parameter) (expect .parameter) :=
      fun ts _ h => (Parallel.expect h .parameter).mono fun rest t _ ht => by
        obtain ⟨rfl, hk⟩ := ht
        exact h.tail (by rw [hk]; decide)
    exact .bind (.commaSeparated hparameter hb hb' (Nat.le_refl _) h) fun rest names _ hn => .pure hn

include hblock in
theorem functionDeclaration_parallel (hs : ts.length ≤ size) (hb : ts.length ≤ bound) (hb' : ts.length ≤ bound')
    (h : v.Suffices ts) :
    Parallel v ts (Shorter ts) (functionDeclaration block bound) (functionDeclaration block' bound') := by
  refine .bind (.expect h _) fun left name _ hname => ?_
  obtain ⟨rfl, hk⟩ := hname
  rw [List.length_cons] at hs hb hb'
  have hleft : v.Suffices left := h.tail (by rw [hk]; decide)
  refine .shorter (.bind (.expect hleft _) fun left' paren _ hparen => ?_)
  obtain ⟨rfl, hk⟩ := hparen
  rw [List.length_cons] at hs hb hb'
  refine .bind (parameters_parallel (by omega) (by omega) (hleft.tail (by rw [hk]; decide)))
    fun rest params hrest hparams => .bind (.expect hparams _) fun rest' close _ hclose => ?_
  obtain ⟨rfl, hk⟩ := hclose
  have := hrest.length_le
  rw [List.length_cons] at this
  exact .bind (hblock rest' (by omega) (hparams.tail (by rw [hk]; decide))) fun _ _ _ _ => .pure trivial

include hblock in
theorem classDeclaration_parallel (hs : ts.length ≤ size) (hb : ts.length ≤ bound) (hb' : ts.length ≤ bound')
    (h : v.Suffices ts) :
    Parallel v ts (fun _ _ => True) (classDeclaration block bound) (classDeclaration block' bound') := by
  refine .bind (.expect h _) fun left name hname hkind => ?_
  obtain ⟨rfl, hk⟩ := hkind
  have hleft : v.Suffices left := h.tail (by rw [hk]; decide)
  refine .bind (.expect hleft _) fun left' opening hopening hkind => ?_
  obtain ⟨rfl, hk⟩ := hkind
  have hv : v.Closed := hleft.closed_of_kind (.inl hk)
  simp only [List.length_cons] at hs hb hb'
  have hmethod : ∀ ts : List Token, ts ≠ [] → ts.length ≤ left'.length →
      Parallel v ts (Shorter ts) (functionDeclaration block bound) (functionDeclaration block' bound') :=
    fun ts _ hts => functionDeclaration_parallel hblock (by omega) (by omega) (by omega) (.inl hv)
  refine .bind (.manyUntil _ hv hmethod (by omega) (by omega) (Nat.le_refl _)) fun rest methods _ _ => ?_
  exact (closing_parallel _ (.inl hv)).mono fun _ _ _ _ => trivial

include he hblock in
theorem ifStatement_parallel (line : Line) : ∀ {rounds rounds' : Nat} {ts : List Token}, ts.length < rounds →
    ts.length < rounds' → ts.length ≤ size → v.Suffices ts →
    Parallel v ts (fun _ _ => True) (ifStatement expression block line rounds)
      (ifStatement expression' block' line rounds')
  | rounds + 1, rounds' + 1, ts, hr, hr', hs, h => by
    refine .bind (he ts hs h) fun left condition _ hleft => ?_
    have hlen := hleft.2
    refine .bind (hblock left (by omega) hleft.1) fun left₁ thenBranch _ hleft₁ => ?_
    have hlen₁ := hleft₁.2
    refine .bind (.accept hleft₁.1 .elseWord) fun left₂ found _ hfound => ?_
    cases found with
    | none => exact .pure trivial
    | some t =>
      obtain ⟨rfl, hk⟩ := hfound
      rw [List.length_cons] at hlen₁
      have hleft₂ : v.Suffices left₂ := hleft₁.1.tail (by rw [hk]; decide)
      refine .bind (.accept hleft₂ .ifWord) fun left₃ found _ hfound => ?_
      cases found with
      | some t =>
        obtain ⟨rfl, hk⟩ := hfound
        rw [List.length_cons] at hlen₁
        have hleft₃ : v.Suffices left₃ := hleft₂.tail (by rw [hk]; decide)
        exact .bind (ifStatement_parallel t.line (by omega) (by omega) (by omega) hleft₃) fun _ _ _ _ => .pure trivial
      | none =>
        obtain rfl : left₃ = left₂ := hfound
        exact .bind (hblock left₃ (by omega) hleft₂) fun _ _ _ _ => .pure trivial

include he in
theorem optionalBefore_parallel (closing : TokenKind) (hs : ts.length ≤ size) (h : v.Suffices ts) :
    Parallel v ts (fun _ _ => True) (optionalBefore expression closing) (optionalBefore expression' closing) := by
  refine .bind (.nextKind h) fun left k _ hk => ?_
  obtain ⟨rfl, -⟩ := hk
  split
  · exact .bind (.expect h _) fun _ _ _ _ => .pure trivial
  · exact .bind (he left hs h) fun rest n _ hn => .bind (.expect hn.1 _) fun _ _ _ _ => .pure trivial

/-! The clauses of a `for` go beyond a semicolon, so there must be nothing behind the view. -/

section Loops

variable (hv : v.Closed)
include he hv

theorem forInitializer_parallel (hs : ts.length ≤ size) :
    Parallel v ts (fun _ _ => True) (forInitializer expression) (forInitializer expression') := by
  refine .bind (.accept (.inl hv) .semicolon) fun left found hl _ => ?_
  cases found with
  | some t => exact .pure trivial
  | none =>
    refine .bind (.accept (.inl hv) .letWord) fun left' found hl' _ => ?_
    have := (hl'.trans hl).length_le
    cases found with
    | some t => exact .map (letDeclaration_parallel he (by omega) (.inl hv)) fun _ _ _ => trivial
    | none =>
      exact .bind (he left' (by omega) (.inl hv)) fun rest n _ _ =>
        .bind (.expect (.inl hv) _) fun _ _ _ _ => .pure trivial

include hblock in
theorem forStatement_parallel (line : Line) (hs : ts.length ≤ size) :
    Parallel v ts (fun _ _ => True) (forStatement expression block line) (forStatement expression' block' line) := by
  refine .bind (.expect (.inl hv) _) fun left₁ _ hl₁ _ => ?_
  have hs₁ := Nat.le_trans hl₁.length_le hs
  refine .bind (forInitializer_parallel he hv hs₁) fun left₂ initializer hl₂ _ => ?_
  have hs₂ := Nat.le_trans hl₂.length_le hs₁
  refine .bind (optionalBefore_parallel he _ hs₂ (.inl hv)) fun left₃ condition hl₃ _ => ?_
  have hs₃ := Nat.le_trans hl₃.length_le hs₂
  refine .bind (optionalBefore_parallel he _ hs₃ (.inl hv)) fun left₄ increment hl₄ _ => ?_
  exact .bind (hblock left₄ (Nat.le_trans hl₄.length_le hs₃) (.inl hv)) fun _ _ _ _ => .pure trivial

end Loops

include he hblock

theorem afterKeyword_parallel (line : Line) (k : KeywordStep) (hb : size < bound) (hb' : size < bound')
    (hs : ts.length ≤ size) (h : v.Suffices ts) (hfor : k = .forStep → v.Closed) :
    Parallel v ts (fun _ _ => True) (afterKeyword expression block bound line k)
      (afterKeyword expression' block' bound' line k) := by
  have hclosed {n : Node} {left : List Token} (hl : v.Suffices left) :
      Parallel v left (fun _ _ => True) (do let _ ← expect (.kind .semicolon); pure n)
        (do let _ ← expect (.kind .semicolon); pure n) := (closing_parallel _ hl).mono fun _ _ _ _ => trivial
  cases k with
  | letStep => exact letDeclaration_parallel he hs h
  | funStep => exact (functionDeclaration_parallel hblock hs (by omega) (by omega) h).mono fun _ _ _ _ => trivial
  | classStep => exact classDeclaration_parallel hblock hs (by omega) (by omega) h
  | printStep => exact .bind (he ts hs h) fun _ _ _ hn => hclosed hn.1
  | ifStep => exact ifStatement_parallel he hblock line (by omega) (by omega) hs h
  | whileStep =>
    refine .bind (he ts hs h) fun left condition hl hn => ?_
    exact .bind (hblock left (Nat.le_trans hl.length_le hs) hn.1) fun _ _ _ _ => .pure trivial
  | forStep => exact forStatement_parallel he hblock (hfor rfl) line hs
  | returnStep => exact .bind (optionalBefore_parallel he _ hs h) fun _ _ _ _ => .pure trivial

theorem declaration_parallel (hb : size ≤ bound) (hb' : size ≤ bound') (hs : ts.length ≤ size) (h : v.Suffices ts) :
    Parallel v ts (Shorter ts) (declaration expression block bound) (declaration expression' block' bound') := by
  refine .bind (.acceptMap h keywordStep?) fun left found _ hfound => ?_
  cases found with
  | some found =>
    obtain ⟨k, t⟩ := found
    obtain ⟨rfl, hk⟩ := hfound
    rw [List.length_cons] at hs
    have hleft : v.Suffices left := h.tail fun hsemi => by rw [hsemi] at hk; cases hk
    have he' : Advances v left.length expression expression' := fun ts hts => he ts (by omega)
    have hblock' : Advances v left.length block block' := fun ts hts => hblock ts (by omega)
    refine .shorter (afterKeyword_parallel he' hblock' t.line k (by omega) (by omega) (Nat.le_refl _) hleft ?_)
    rintro rfl
    refine h.closed_of_kind (.inr ?_)
    unfold keywordStep? at hk
    split at hk <;> first | assumption | cases hk
  | none =>
    obtain rfl : left = ts := hfound
    refine .bind (.nextKind h) fun left' k _ hk => ?_
    obtain ⟨rfl, -⟩ := hk
    split
    · exact (hblock _ hs h).mono fun _ _ _ hm => hm.2
    · refine .bind (he _ hs h) fun rest n _ hn => (closing_parallel _ hn.1).mono fun rest' _ _ hlt => ?_
      exact Nat.lt_trans hlt hn.2

end Statements

/-! ## Blocks and steps -/

section Steps

variable {v : View} {size bound bound' : Nat}

/-- Behind an opening brace there must be nothing but the view. -/
theorem blockOf_parallel {step step' : Parser Node} (hb : size ≤ bound) (hb' : size ≤ bound')
    (hstep : v.Closed → ∀ ts : List Token, ts ≠ [] → ts.length ≤ size → Parallel v ts (Shorter ts) step step') :
    Advances v (size + 1) (blockOf step bound) (blockOf step' bound') := by
  intro ts hs h
  refine .bind (.expect h _) fun left opening _ hopening => ?_
  obtain ⟨rfl, hk⟩ := hopening
  have hv : v.Closed := h.closed_of_kind (.inl hk)
  rw [List.length_cons] at hs
  refine .bind (.manyUntil _ hv (hstep hv) (by omega) (by omega) (by omega)) fun rest steps hl _ => ?_
  refine (closing_parallel _ (.inl hv)).mono fun rest' _ _ hlt => ⟨.inl hv, ?_⟩
  exact Nat.lt_trans hlt (Nat.lt_succ_of_le hl.length_le)

/-- Neither the bound of a step matters, nor what stands behind tokens that suffice for it. -/
theorem step_parallel : ∀ {size bound bound' : Nat} {ts : List Token}, size ≤ bound → size ≤ bound' → ts ≠ [] →
    ts.length ≤ size → v.Suffices ts → Parallel v ts (Shorter ts) (step bound) (step bound')
  | 0, _, _, ts, _, _, hne, hs, _ => absurd (List.eq_nil_of_length_eq_zero (Nat.le_zero.mp hs)) hne
  | size + 1, bound + 1, bound' + 1, ts, hb, hb', hne, hs, h => by
    refine .recovering hne (declaration_parallel (expression_parallel hb hb') ?_ hb hb' hs h)
    exact blockOf_parallel (by omega) (by omega) fun hv ts hne hts =>
      step_parallel (by omega) (by omega) hne hts (.inl hv)

end Steps

end LoxLang.Parser
