import Mathlib.Data.List.TakeWhile
import LoxLang.Proofs.LineBreaks

/-!
# Lexemes

`IsLexeme kind text value` says which texts are lexemes of a kind, and what they stand for, without saying which lexeme
is taken where several could stand. A lexeme alone is its own first piece (`IsLexeme.first_self`), so a text is a lexeme
of one kind only; where a text starts with lexemes, its first piece is the longest of them (`IsLexeme.exists_first`,
`IsLexeme.of_first`), unless it starts with a comment. Every number is read by the reader of numerals
(`Decimal.read?_of_isNumeral`).
-/

namespace LoxLang

/-- What holds of every member of a list can be computed member by member. -/
theorem forall_mem_of_all {α : Type} {l : List α} {p : α → Prop} [DecidablePred p]
    (h : (l.all fun a => decide (p a)) = true) : ∀ a ∈ l, p a :=
  fun a ha => of_decide_eq_true (List.all_eq_true.mp h a ha)

/-- The first members that have a property end where one stands that does not have it. -/
theorem append_unique {α : Type} {p : α → Prop} : ∀ {as as' r r' : List α}, (∀ a ∈ as, p a) → (∀ a ∈ as', p a) →
    (∀ a, r.head? = some a → ¬ p a) → (∀ a, r'.head? = some a → ¬ p a) → as ++ r = as' ++ r' → as = as' ∧ r = r'
  | [], [], _, _, _, _, _, _, h => ⟨rfl, h⟩
  | [], a :: as', r, r', _, has', hr, _, h =>
    absurd (has' a List.mem_cons_self) (hr a (by rw [show r = a :: (as' ++ r') from h]; rfl))
  | a :: as, [], r, r', has, _, _, hr', h =>
    absurd (has a List.mem_cons_self) (hr' a (by rw [show r' = a :: (as ++ r) from h.symm]; rfl))
  | a :: as, a' :: as', _, _, has, has', hr, hr', h => by
    obtain ⟨rfl, hrest⟩ := List.cons.inj h
    obtain ⟨rfl, rfl⟩ := append_unique (fun b hb => has b (List.mem_cons_of_mem a hb))
      (fun b hb => has' b (List.mem_cons_of_mem a hb)) hr hr' hrest
    exact ⟨rfl, rfl⟩

/-! ## Numerals -/

/-- The texts of numbers: digits, and a fraction only with digits on both sides of its point. -/
inductive IsNumeral : List Char → Prop
  | whole {digits : List Char} (hne : digits ≠ []) (hd : ∀ c ∈ digits, Letter.isDigit c = true) : IsNumeral digits
  | fraction {digits places : List Char} (hne : digits ≠ []) (hd : ∀ c ∈ digits, Letter.isDigit c = true)
      (hpne : places ≠ []) (hp : ∀ c ∈ places, Letter.isDigit c = true) : IsNumeral (digits ++ '.' :: places)

/-- The digits, one by one. -/
theorem Letter.mem_digits {c : Char} (h : Letter.isDigit c = true) : c ∈ "0123456789".toList := by
  have hbounds : 48 ≤ c.toNat ∧ c.toNat ≤ 57 := by
    simpa [Letter.isDigit, Char.le_def, UInt32.le_iff_toNat_le] using h
  have hall : ∀ n < 58, 48 ≤ n → Char.ofNat n ∈ "0123456789".toList := by decide
  have hc := hall c.toNat (by omega) hbounds.1
  rwa [Char.ofNat_toNat] at hc

namespace Text

/-- The characters of decimals that are written without blanks and underscores. -/
def plainCharacters : List Char := "0123456789.eE+-".toList

variable {text : List Char} (h : ∀ c ∈ text, c ∈ plainCharacters)
include h

theorem dropWhile_blank_of_plain : text.dropWhile isBlank = text := by
  have hchar : ∀ c ∈ plainCharacters, isBlank c = false := forall_mem_of_all (by decide)
  cases text with
  | nil => rfl
  | cons c rest => simp [hchar c (h c List.mem_cons_self)]

theorem withoutUnderscores?_of_plain (after : Bool) : withoutUnderscores? after text = some text := by
  have hchar : ∀ c ∈ plainCharacters, c ≠ '_' := forall_mem_of_all (by decide)
  induction text generalizing after with
  | nil => rfl
  | cons c rest ih =>
    rw [withoutUnderscores?, if_neg (hchar c (h c List.mem_cons_self)), ih fun d hd => h d (List.mem_cons_of_mem c hd)]
    rfl

/-- Plain characters alone are a numeral that stays as it is. -/
theorem numeral?_of_plain : numeral? (String.ofList text) = some text := by
  have hchar : ∀ c ∈ plainCharacters, plainDigit c = c := forall_mem_of_all (by decide)
  have hmap : text.map plainDigit = text :=
    (List.map_congr_left fun c hc => hchar c (h c hc)).trans text.map_id
  have hreverse : ∀ c ∈ text.reverse, c ∈ plainCharacters := fun c hc => h c (List.mem_reverse.mp hc)
  simp only [numeral?, trimmed, String.toList_ofList, dropWhile_blank_of_plain h, dropWhile_blank_of_plain hreverse,
    List.reverse_reverse, hmap, withoutUnderscores?_of_plain h]

end Text

namespace IsNumeral

theorem plain {text : List Char} (h : IsNumeral text) : ∀ c ∈ text, c ∈ Text.plainCharacters := by
  have hdigit : ∀ c, Letter.isDigit c = true → c ∈ Text.plainCharacters := fun c hc =>
    List.mem_append_left ".eE+-".toList (Letter.mem_digits hc)
  intro c hc
  cases h with
  | whole _ hd => exact hdigit c (hd c hc)
  | fraction _ hd _ hp =>
    obtain hc | hc := List.mem_append.mp hc
    · exact hdigit c (hd c hc)
    · obtain rfl | hc := List.mem_cons.mp hc
      · decide
      · exact hdigit c (hp c hc)

/-- A numeral starts with a digit. -/
theorem exists_cons {text : List Char} (h : IsNumeral text) : ∃ c rest, text = c :: rest ∧ Letter.isDigit c = true := by
  cases h with
  | whole hne hd =>
    obtain ⟨c, rest, rfl⟩ := List.exists_cons_of_ne_nil hne
    exact ⟨c, rest, rfl, hd c List.mem_cons_self⟩
  | fraction hne hd =>
    obtain ⟨c, rest, rfl⟩ := List.exists_cons_of_ne_nil hne
    exact ⟨c, _, rfl, hd c List.mem_cons_self⟩

end IsNumeral

/-- What is taken up to the first character that is none of the digits. -/
theorem takeWhile_digits {digits : List Char} (rest : List Char) (hd : ∀ c ∈ digits, Letter.isDigit c = true)
    (hrest : ∀ c, rest.head? = some c → Letter.isDigit c = false) :
    (digits ++ rest).takeWhile Letter.isDigit = digits ∧ (digits ++ rest).dropWhile Letter.isDigit = rest := by
  rw [List.takeWhile_append_of_pos hd, List.dropWhile_append_of_pos hd]
  cases rest with
  | nil => simp
  | cons c rest => simp [hrest c rfl]

namespace Decimal

theorem splitSign_of_digit {c : Char} (hc : Letter.isDigit c = true) (rest : List Char) :
    splitSign (c :: rest) = (false, c :: rest) := by
  have hsign : ∀ c ∈ "0123456789".toList, c ≠ '-' ∧ c ≠ '+' := forall_mem_of_all (by decide)
  obtain ⟨hminus, hplus⟩ := hsign c (Letter.mem_digits hc)
  unfold splitSign
  split
  · next he => exact absurd (List.cons.inj he).1 hminus
  · next he => exact absurd (List.cons.inj he).1 hplus
  · rfl

/-- No text that starts with a digit is one of the words for numbers. -/
theorem lower_notMem_of_digit {c : Char} (hc : Letter.isDigit c = true) (rest : List Char) :
    String.ofList ((c :: rest).map Char.toLower) ∉ ["inf", "infinity", "nan"] := by
  have hlower : ∀ c ∈ "0123456789".toList, c.toLower ∉ ['i', 'n'] := forall_mem_of_all (by decide)
  have hhead : ∀ w ∈ ["inf", "infinity", "nan"], w.toList.head? = some 'i' ∨ w.toList.head? = some 'n' :=
    forall_mem_of_all (by decide)
  intro hmem
  have hw := hhead _ hmem
  rw [String.toList_ofList, List.map_cons, List.head?_cons, Option.some.injEq, Option.some.injEq] at hw
  exact hlower c (Letter.mem_digits hc) (by simpa using hw)

/-- Numbers in a program are read the way numerals are read anywhere, and reading them never fails. -/
theorem read?_of_isNumeral {text : List Char} (h : IsNumeral text) :
    read? (String.ofList text) = some (Piece.numberValue text) := by
  obtain ⟨c, rest, htext, hc⟩ := h.exists_cons
  rw [read?, Text.numeral?_of_plain h.plain, Option.bind_some]
  unfold ofNumeral?
  have hlower := lower_notMem_of_digit hc rest
  have hsign := splitSign_of_digit hc rest
  rw [← htext] at hlower hsign
  rw [hsign]
  dsimp only
  split
  · next he => exact absurd (he ▸ hlower) (by decide)
  · next he => exact absurd (he ▸ hlower) (by decide)
  · next he => exact absurd (he ▸ hlower) (by decide)
  · have hdigit : Char.isDigit = Letter.isDigit := rfl
    rw [Piece.numberValue, hdigit]
    cases h with
    | whole hne hd =>
      obtain ⟨htake, hdrop⟩ := takeWhile_digits [] hd (by simp)
      rw [List.append_nil] at htake hdrop
      simp [htake, hdrop, hne, ofDigits]
    | @fraction digits places hne hd hpne hp =>
      obtain ⟨htake, hdrop⟩ := takeWhile_digits ('.' :: places) hd (by simp; decide)
      obtain ⟨hptake, hpdrop⟩ := takeWhile_digits [] hp (by simp)
      rw [List.append_nil] at hptake hpdrop
      simp [htake, hdrop, hptake, hpdrop, hne, ofDigits]

end Decimal

/-! ## Lexemes -/

/-- The kinds with one spelling that is no word. -/
def TokenKind.signs : List TokenKind :=
  [leftParen, rightParen, leftBrace, rightBrace, comma, dot, minus, plus, semicolon, slash, star, bang, bangEqual,
    equal, equalEqual, greater, greaterEqual, less, lessEqual]

/-- The texts of each kind of lexeme, with the values they stand for. -/
inductive IsLexeme : TokenKind → List Char → Value → Prop
  | sign {kind : TokenKind} (hk : kind ∈ TokenKind.signs) : IsLexeme kind kind.spelling.toList .nil
  | keyword {kind : TokenKind} (hk : kind ∈ TokenKind.keywords) : IsLexeme kind kind.spelling.toList .nil
  | identifier {c : Char} {more : List Char} (hc : Letter.isAlpha c = true)
      (hmore : ∀ d ∈ more, Letter.isWord d = true)
      (hk : ∀ kind ∈ TokenKind.keywords, kind.spelling.toList ≠ c :: more) :
      IsLexeme .identifier (c :: more) (.string (String.ofList (c :: more)))
  | number {text : List Char} {x : Float} (ht : IsNumeral text) (hx : Decimal.read? (String.ofList text) = some x) :
      IsLexeme .number text (.number x)
  | string {body : List Char} (hb : '"' ∉ body) : IsLexeme .string ('"' :: body ++ ['"']) (.string (String.ofList body))

namespace Piece

theorem first_digit {c : Char} (hc : Letter.isDigit c = true) (rest : List Char) :
    first c rest = lexeme .number (c :: numberTail rest) := by
  have hall : ∀ c ∈ "0123456789".toList, Letter.single? c = none ∧ Letter.withEqual? c = none ∧ c ≠ '/' ∧
      Letter.isBlank c = false ∧ c ≠ '"' := forall_mem_of_all (by decide)
  obtain ⟨hs, he, hslash, hb, hq⟩ := hall c (Letter.mem_digits hc)
  simp only [first, hs, he, if_neg hslash, hb, if_neg hq, hc, if_true, Bool.false_eq_true, if_false]

theorem first_alpha {c : Char} (hc : Letter.isAlpha c = true) (rest : List Char) :
    first c rest = lexeme (wordKind (c :: rest.takeWhile Letter.isWord)) (c :: rest.takeWhile Letter.isWord) := by
  have hs : Letter.single? c = none := by
    unfold Letter.single?
    split <;> first | rfl | exact absurd hc (by decide)
  have he : Letter.withEqual? c = none := by
    unfold Letter.withEqual?
    split <;> first | rfl | exact absurd hc (by decide)
  have hslash : c ≠ '/' := by rintro rfl; exact absurd hc (by decide)
  have hb : Letter.isBlank c = false := by
    refine Bool.eq_false_iff.mpr fun hb => ?_
    simp only [Letter.isBlank, Bool.or_eq_true, beq_iff_eq] at hb
    obtain ((rfl | rfl) | rfl) | rfl := hb <;> exact absurd hc (by decide)
  have hq : c ≠ '"' := by rintro rfl; exact absurd hc (by decide)
  have hd : Letter.isDigit c = false := by
    refine Bool.eq_false_iff.mpr fun hd => ?_
    have hall : ∀ c ∈ "0123456789".toList, Letter.isAlpha c = false := forall_mem_of_all (by decide)
    rw [hall c (Letter.mem_digits hd)] at hc
    cases hc
  simp only [first, hs, he, if_neg hslash, hb, if_neg hq, hd, hc, if_true, Bool.false_eq_true, if_false]

/-- A piece that is no lexeme is a comment, a blank, an open string or a stray character. -/
theorem first_cases (c : Char) (rest : List Char) :
    (∃ kind text, first c rest = lexeme kind text) ∨
    (c = '/' ∧ rest.head? = some '/' ∧ first c rest = comment (c :: rest.takeWhile (· != '\n'))) ∨
    (Letter.isBlank c = true ∧ first c rest = blank c) ∨
    (c = '"' ∧ '"' ∉ rest ∧ first c rest = openString (c :: rest)) ∨
    (c ≠ '"' ∧ Letter.isBlank c = false ∧ first c rest = stray c) := by
  unfold first
  split
  · exact .inl ⟨_, _, rfl⟩
  · split <;> exact .inl ⟨_, _, rfl⟩
  · split
    · next hslash =>
      split
      · next hhead => exact .inr (.inl ⟨hslash, hhead, rfl⟩)
      · exact .inl ⟨_, _, rfl⟩
    · split
      · next hb => exact .inr (.inr (.inl ⟨hb, rfl⟩))
      · next hb =>
        split
        · next hq =>
          unfold string
          dsimp only
          split
          · next he =>
            have hnone : ∀ d ∈ rest, (d != '"') = true := List.dropWhile_eq_nil_iff.mp (List.isEmpty_iff.mp he)
            have hmem : '"' ∉ rest := fun hmem => absurd (hnone _ hmem) (by decide)
            rw [List.takeWhile_eq_self_iff.mpr hnone]
            exact .inr (.inr (.inr (.inl ⟨hq, hmem, by rw [hq]⟩)))
          · exact .inl ⟨_, _, rfl⟩
        · next hq =>
          split
          · exact .inl ⟨_, _, rfl⟩
          · split
            · exact .inl ⟨_, _, rfl⟩
            · exact .inr (.inr (.inr (.inr ⟨hq, Bool.eq_false_iff.mpr hb, rfl⟩)))

/-! ## Digits and strings from the left -/

theorem numberTail_append {digits : List Char} (hd : ∀ c ∈ digits, Letter.isDigit c = true) (rest : List Char) :
    numberTail (digits ++ rest) = digits ++ numberTail rest := by
  unfold numberTail
  rw [List.takeWhile_append_of_pos hd, List.dropWhile_append_of_pos hd]
  dsimp only
  split
  · split <;> simp
  · rfl

theorem numberTail_point {c : Char} (hc : Letter.isDigit c = true) (rest : List Char) :
    numberTail ('.' :: c :: rest) = '.' :: c :: rest.takeWhile Letter.isDigit := by
  have hpoint : Letter.isDigit '.' = false := by decide
  simp [numberTail, hpoint, hc]

/-- The digits of a number, from the first of them on, are a numeral. -/
theorem isNumeral_numberTail {c : Char} (hc : Letter.isDigit c = true) (rest : List Char) :
    IsNumeral (c :: numberTail rest) := by
  have hdigits : ∀ {l : List Char}, ∀ d ∈ l.takeWhile Letter.isDigit, Letter.isDigit d = true :=
    fun d hd => List.mem_takeWhile_imp hd
  have hwhole : ∀ d ∈ c :: rest.takeWhile Letter.isDigit, Letter.isDigit d = true :=
    List.forall_mem_cons.mpr ⟨hc, hdigits⟩
  unfold numberTail
  dsimp only
  split
  · next d more _ =>
    split
    · next hd =>
      exact .fraction (List.cons_ne_nil _ _) hwhole (List.cons_ne_nil _ _) (List.forall_mem_cons.mpr ⟨hd, hdigits⟩)
    · exact .whole (List.cons_ne_nil _ _) hwhole
  · exact .whole (List.cons_ne_nil _ _) hwhole

/-- A number does not stop before a numeral does. -/
theorem prefix_numberTail {c : Char} {more : List Char} (h : IsNumeral (c :: more)) (rest : List Char) :
    more <+: numberTail (more ++ rest) := by
  generalize htext : c :: more = text at h
  cases h with
  | whole hne hd =>
    subst htext
    rw [numberTail_append fun d hmem => hd d (List.mem_cons_of_mem c hmem)]
    exact List.prefix_append _ _
  | @fraction digits places hne hd hpne hp =>
    obtain ⟨d, digits, rfl⟩ := List.exists_cons_of_ne_nil hne
    obtain ⟨p, places, rfl⟩ := List.exists_cons_of_ne_nil hpne
    rw [List.cons_append, List.cons.injEq] at htext
    obtain ⟨rfl, rfl⟩ := htext
    obtain ⟨hp, hplaces⟩ := List.forall_mem_cons.mp hp
    have htail : numberTail (digits ++ '.' :: p :: places ++ rest) =
        digits ++ '.' :: p :: places ++ rest.takeWhile Letter.isDigit := by
      rw [List.append_assoc, numberTail_append fun d hmem => hd d (List.mem_cons_of_mem _ hmem), List.cons_append,
        List.cons_append, numberTail_point hp, List.takeWhile_append_of_pos hplaces]
      simp
    rw [htail]
    exact List.prefix_append _ _

theorem string_append {body : List Char} (hb : '"' ∉ body) (rest : List Char) :
    string (body ++ '"' :: rest) = lexeme .string ('"' :: body ++ ['"']) := by
  have hbody : ∀ c ∈ body, (c != '"') = true := fun c hc => by simpa using fun h : c = '"' => hb (h ▸ hc)
  simp [string, List.takeWhile_append_of_pos hbody, List.dropWhile_append_of_pos hbody]

end Piece

namespace IsLexeme

variable {kind : TokenKind} {text : List Char} {value : Value}

theorem word_of_keyword (hk : kind ∈ TokenKind.keywords) : ∃ c more, kind.spelling.toList = c :: more ∧
    Letter.isAlpha c = true ∧ ∀ d ∈ more, Letter.isWord d = true := by
  cases kind <;> first | exact absurd hk (by decide) | exact ⟨_, _, rfl, by decide, forall_mem_of_all (by decide)⟩

/-- A lexeme that stands alone is read as what it is. -/
theorem first_self (h : IsLexeme kind text value) : ∃ c rest, text = c :: rest ∧
    Piece.first c rest = .lexeme kind text ∧ Piece.literal kind text = value := by
  cases h with
  | sign hk => cases kind <;> first | exact absurd hk (by decide) | exact ⟨_, _, rfl, rfl, rfl⟩
  | keyword hk => cases kind <;> first | exact absurd hk (by decide) | exact ⟨_, _, rfl, rfl, rfl⟩
  | @identifier c more hc hmore hk =>
    have hword : TokenKind.keyword? (String.ofList (c :: more)) = none := by
      refine List.find?_eq_none.mpr fun k hmem he => hk k hmem ?_
      rw [beq_iff_eq.mp he, String.toList_ofList]
    refine ⟨c, more, rfl, ?_, rfl⟩
    rw [Piece.first_alpha hc, List.takeWhile_eq_self_iff.mpr hmore, Piece.wordKind, hword]
    rfl
  | @number text x ht hx =>
    obtain ⟨c, more, rfl, hc⟩ := ht.exists_cons
    have hmore := Piece.prefix_numberTail ht []
    rw [List.append_nil] at hmore
    refine ⟨c, more, rfl, ?_, ?_⟩
    · rw [Piece.first_digit hc, (Piece.numberTail_prefix more).eq_of_length_le hmore.length_le]
    · rw [Decimal.read?_of_isNumeral ht, Option.some.injEq] at hx
      rw [← hx, Piece.literal]
  | @string body hb =>
    refine ⟨'"', body ++ ['"'], rfl, ?_, ?_⟩
    · exact Piece.string_append hb []
    · simp [Piece.literal]

/-- A text is a lexeme of at most one kind, with one value. -/
theorem unique {kind' : TokenKind} {value' : Value} (h : IsLexeme kind text value) (h' : IsLexeme kind' text value') :
    kind = kind' ∧ value = value' := by
  obtain ⟨c, rest, rfl, hfirst, hvalue⟩ := h.first_self
  obtain ⟨c', rest', htext, hfirst', hvalue'⟩ := h'.first_self
  obtain ⟨rfl, rfl⟩ := List.cons.inj htext
  obtain ⟨rfl, -⟩ := Piece.lexeme.inj (hfirst.symm.trans hfirst')
  exact ⟨rfl, hvalue.symm.trans hvalue'⟩

theorem exists_first_of_word {c : Char} {more : List Char} (hc : Letter.isAlpha c = true)
    (hmore : ∀ d ∈ more, Letter.isWord d = true) (rest : List Char) :
    ∃ kind text, Piece.first c (more ++ rest) = .lexeme kind text ∧ (c :: more).length ≤ text.length := by
  refine ⟨_, _, Piece.first_alpha hc _, ?_⟩
  rw [List.takeWhile_append_of_pos hmore]
  simp

theorem exists_first_of_sign (hk : kind ∈ TokenKind.signs) : ∃ c more, kind.spelling.toList = c :: more ∧
    ∀ rest, ['/', '/'] <+: c :: (more ++ rest) ∨
      ∃ kind' text', Piece.first c (more ++ rest) = .lexeme kind' text' ∧ (c :: more).length ≤ text'.length := by
  have hequal : ∀ {c short long}, Letter.single? c = none → Letter.withEqual? c = some (short, long) →
      ∀ rest, ∃ kind' text', Piece.first c rest = .lexeme kind' text' ∧ [c].length ≤ text'.length := by
    intro c short long hs he rest
    simp only [Piece.first, hs, he]
    split <;> exact ⟨_, _, rfl, by simp⟩
  cases kind
  case slash =>
    refine ⟨_, _, rfl, fun rest => ?_⟩
    by_cases hhead : rest.head? = some '/'
    · obtain ⟨more, rfl⟩ := List.head?_eq_some_iff.mp hhead
      exact .inl ⟨more, rfl⟩
    · exact .inr ⟨.slash, ['/'], if_neg hhead, le_rfl⟩
  case bang | equal | less | greater => exact ⟨_, _, rfl, fun rest => .inr (hequal rfl rfl rest)⟩
  all_goals first
    | exact absurd hk (by decide)
    | exact ⟨_, _, rfl, fun rest => .inr ⟨_, _, rfl, by decide⟩⟩

/-- What stands in front of a text is no longer than its first piece, unless that is a comment. -/
theorem exists_first {c : Char} {rest : List Char} (h : IsLexeme kind text value) (hp : text <+: c :: rest)
    (hcomment : ¬ ['/', '/'] <+: c :: rest) :
    ∃ kind' text', Piece.first c rest = .lexeme kind' text' ∧ text.length ≤ text'.length := by
  obtain ⟨behind, hbehind⟩ := hp
  cases h with
  | sign hk =>
    obtain ⟨d, more, htext, hfirst⟩ := exists_first_of_sign hk
    rw [htext, List.cons_append, List.cons.injEq] at hbehind
    obtain ⟨rfl, rfl⟩ := hbehind
    rw [htext]
    exact (hfirst behind).resolve_left hcomment
  | keyword hk =>
    obtain ⟨d, more, htext, hd, hmore⟩ := word_of_keyword hk
    rw [htext, List.cons_append, List.cons.injEq] at hbehind
    obtain ⟨rfl, rfl⟩ := hbehind
    rw [htext]
    exact exists_first_of_word hd hmore behind
  | @identifier d more hd hmore hk =>
    rw [List.cons_append, List.cons.injEq] at hbehind
    obtain ⟨rfl, rfl⟩ := hbehind
    exact exists_first_of_word hd hmore behind
  | @number text x ht hx =>
    obtain ⟨d, more, rfl, hd⟩ := ht.exists_cons
    rw [List.cons_append, List.cons.injEq] at hbehind
    obtain ⟨rfl, rfl⟩ := hbehind
    refine ⟨_, _, Piece.first_digit hd _, ?_⟩
    exact Nat.succ_le_succ (Piece.prefix_numberTail ht behind).length_le
  | @string body hb =>
    rw [List.cons_append, List.cons_append, List.cons.injEq, List.append_assoc] at hbehind
    obtain ⟨rfl, rfl⟩ := hbehind
    exact ⟨_, _, Piece.string_append hb behind, le_rfl⟩

/-- A word is a keyword or an identifier. -/
theorem of_word {c : Char} {more : List Char} (hc : Letter.isAlpha c = true)
    (hmore : ∀ d ∈ more, Letter.isWord d = true) :
    IsLexeme (Piece.wordKind (c :: more)) (c :: more) (Piece.literal (Piece.wordKind (c :: more)) (c :: more)) := by
  cases hk : TokenKind.keyword? (String.ofList (c :: more)) with
  | some k =>
    have hmem : k ∈ TokenKind.keywords := List.mem_of_find?_eq_some hk
    have hspelling : k.spelling.toList = c :: more := by
      have hfind : TokenKind.keywords.find? (·.spelling == String.ofList (c :: more)) = some k := hk
      have hfound := List.find?_some hfind
      rw [beq_iff_eq] at hfound
      rw [hfound, String.toList_ofList]
    have hvalue : ∀ k ∈ TokenKind.keywords, ∀ text, Piece.literal k text = .nil := by
      intro k hk text
      cases k <;> first | exact absurd hk (by decide) | rfl
    rw [Piece.wordKind, hk, Option.getD_some, hvalue k hmem, ← hspelling]
    exact .keyword hmem
  | none =>
    rw [Piece.wordKind, hk]
    refine .identifier hc hmore fun kind hkind he => List.find?_eq_none.mp hk kind hkind ?_
    rw [beq_iff_eq, ← he, String.ofList_toList]

/-- A first piece that is a lexeme is one that the kind allows. -/
theorem of_first {c : Char} {rest : List Char} (h : Piece.first c rest = .lexeme kind text) :
    IsLexeme kind text (Piece.literal kind text) := by
  unfold Piece.first at h
  split at h
  · next hs =>
    cases h
    unfold Letter.single? at hs
    split at hs <;> cases hs <;> exact .sign (by decide)
  · next hs =>
    unfold Letter.withEqual? at hs
    split at h <;> cases h <;> split at hs <;> cases hs <;> exact .sign (by decide)
  · split at h
    · split at h
      · cases h
      · next hslash _ =>
        cases h
        exact hslash ▸ .sign (by decide)
    · split at h
      · cases h
      · split at h
        · unfold Piece.string at h
          split at h
          · cases h
          · cases h
            have hb : '"' ∉ rest.takeWhile (· != '"') := fun hmem => by simpa using List.mem_takeWhile_imp hmem
            simpa [Piece.literal] using IsLexeme.string hb
        · split at h
          · next hd =>
            cases h
            have := Piece.isNumeral_numberTail hd rest
            exact .number this (Decimal.read?_of_isNumeral this)
          · split at h
            · next hc =>
              simp only [Piece.lexeme.injEq] at h
              obtain ⟨rfl, rfl⟩ := h
              exact of_word hc fun d hd => List.mem_takeWhile_imp hd
            · cases h

end IsLexeme

end LoxLang
