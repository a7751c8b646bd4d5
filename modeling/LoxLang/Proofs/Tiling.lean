import LoxLang.Proofs.Lexemes

/-!
# Tilings of a text

`Piece.Front p rest` says when a piece may be cut off a text, and `Tiling` what a whole text is cut into and which
tokens and diagnostics that gives, line by line. The scanner is not mentioned there. What it cuts off is what may be cut
off (`Piece.front_first`, `Piece.Front.first`), so every text has one tiling, which is its scan (`scan_tiles`).
-/

namespace LoxLang

/-! ## What may be cut off -/

/-- The blanks between lexemes. -/
def Letter.blanks : List Char := [' ', '\r', '\t', '\n']

namespace Piece

/-- `p.Front rest`: a text that starts with the characters of `p` and goes on with `rest` is to be cut behind `p`. A
comment goes before the lexemes, and a lexeme is as long as any that stands there. -/
inductive Front : Piece → List Char → Prop
  | blank {c : Char} {rest : List Char} (hc : c ∈ Letter.blanks) : Front (.blank c) rest
  | comment {body rest : List Char} (hb : '\n' ∉ body) (hrest : rest = [] ∨ rest.head? = some '\n') :
      Front (.comment ('/' :: '/' :: body)) rest
  | lexeme {kind : TokenKind} {text rest : List Char} {value : Value} (h : IsLexeme kind text value)
      (hcomment : ¬ ['/', '/'] <+: text ++ rest)
      (hlongest : ∀ kind' text' value', IsLexeme kind' text' value' → text' <+: text ++ rest →
        text'.length ≤ text.length) : Front (.lexeme kind text) rest
  | stray {c : Char} {rest : List Char} (hblank : c ∉ Letter.blanks) (hquote : c ≠ '"')
      (hnone : ∀ kind text value, IsLexeme kind text value → ¬ text <+: c :: rest) : Front (.stray c) rest
  | openString {body : List Char} (hb : '"' ∉ body) : Front (.openString ('"' :: body)) []

theorem isBlank_iff {c : Char} : Letter.isBlank c = true ↔ c ∈ Letter.blanks := by
  simp [Letter.isBlank, Letter.blanks, or_assoc]

theorem first_comment {c : Char} {rest : List Char} (h : ['/', '/'] <+: c :: rest) :
    first c rest = comment (c :: rest.takeWhile (· != '\n')) := by
  obtain ⟨more, rfl, rfl⟩ : ∃ more, c = '/' ∧ rest = '/' :: more := by
    obtain ⟨more, hmore⟩ := h
    cases hmore
    exact ⟨more, rfl, rfl⟩
  rfl

/-- The first piece of a text may be cut off there. -/
theorem front_first {c : Char} {rest behind : List Char} (h : (first c rest).text ++ behind = c :: rest) :
    (first c rest).Front behind := by
  have hcomment : (∀ text, first c rest ≠ comment text) → ¬ ['/', '/'] <+: c :: rest := fun hne hp =>
    hne _ (first_comment hp)
  rcases first_cases c rest with ⟨kind, text, hf⟩ | ⟨rfl, hhead, hf⟩ | ⟨hb, hf⟩ | ⟨rfl, hq, hf⟩ | ⟨hq, hb, hf⟩
  · -- a lexeme
    rw [hf] at h hcomment ⊢
    have hno := hcomment fun _ he => Piece.noConfusion he
    refine .lexeme (.of_first hf) (h ▸ hno) fun kind' text' value' hlexeme hp => ?_
    obtain ⟨kind'', text'', hf', hle⟩ := hlexeme.exists_first (show text' <+: c :: rest from h ▸ hp) hno
    obtain ⟨-, rfl⟩ := Piece.lexeme.inj (hf.symm.trans hf')
    exact hle
  · -- a comment
    obtain ⟨more, rfl⟩ := List.head?_eq_some_iff.mp hhead
    rw [hf] at h ⊢
    have hmore : more.takeWhile (· != '\n') ++ behind = more := by simpa [text] using h
    have hbehind : behind = more.dropWhile (· != '\n') := by
      have hsplit := List.takeWhile_append_dropWhile (p := (· != '\n')) (l := more)
      exact List.append_cancel_left (hmore.trans hsplit.symm)
    refine .comment (fun hmem => by simpa using List.mem_takeWhile_imp hmem) ?_
    rw [hbehind]
    by_cases hend : more.dropWhile (· != '\n') = []
    · exact .inl hend
    · have hhead := List.head_dropWhile_not (· != '\n') hend
      exact .inr (by rw [List.head?_eq_some_head hend, bne_eq_false_iff_eq.mp hhead])
  · -- a blank
    rw [hf]
    exact .blank (isBlank_iff.mp hb)
  · -- an open string
    rw [hf] at h ⊢
    obtain rfl : behind = [] := by simpa [text] using h
    exact .openString hq
  · -- a stray character
    rw [hf] at h hcomment ⊢
    obtain rfl : behind = rest := by simpa [text] using h
    have hno := hcomment fun _ he => Piece.noConfusion he
    refine .stray (fun hmem => ?_) hq fun kind' text' value' hlexeme hp => ?_
    · rw [isBlank_iff.mpr hmem] at hb
      cases hb
    · obtain ⟨kind'', text'', hf', -⟩ := hlexeme.exists_first hp hno
      exact Piece.noConfusion (hf.symm.trans hf')

/-- No other piece than the first may be cut off. -/
theorem Front.first {p : Piece} {rest : List Char} (h : p.Front rest) : ∃ c more, p.text ++ rest = c :: more ∧
    first c more = p := by
  cases h with
  | @blank c _ hc =>
    refine ⟨c, rest, rfl, ?_⟩
    obtain rfl | rfl | rfl | rfl : c = ' ' ∨ c = '\r' ∨ c = '\t' ∨ c = '\n' := by
      simpa [Letter.blanks] using hc
    all_goals rfl
  | @comment body _ hb hrest =>
    have hbody : ∀ c ∈ body, (c != '\n') = true := fun c hc => by simpa using fun h : c = '\n' => hb (h ▸ hc)
    have hstop : rest.takeWhile (· != '\n') = [] := by
      obtain rfl | hhead := hrest
      · rfl
      · obtain ⟨more, rfl⟩ := List.head?_eq_some_iff.mp hhead
        rfl
    refine ⟨'/', '/' :: (body ++ rest), rfl, ?_⟩
    have hopens : ['/', '/'] <+: '/' :: '/' :: (body ++ rest) := ⟨body ++ rest, rfl⟩
    rw [first_comment hopens, List.takeWhile_cons_of_pos (by decide), List.takeWhile_append_of_pos hbody, hstop,
      List.append_nil]
  | @lexeme kind text _ value hlexeme hcomment hlongest =>
    obtain ⟨c, more, rfl, -⟩ := hlexeme.first_self
    refine ⟨c, more ++ rest, rfl, ?_⟩
    -- what is cut off is a lexeme at the start of the same text, and neither of the two is the longer one
    obtain ⟨kind', text', hf, hle⟩ := hlexeme.exists_first (List.prefix_append _ rest) hcomment
    have hp : text' <+: c :: (more ++ rest) := by
      have hprefix := text_first c (more ++ rest)
      rwa [show Piece.first c (more ++ rest) = .lexeme kind' text' from hf] at hprefix
    have hlexeme' := IsLexeme.of_first hf
    have hge := hlongest _ _ _ hlexeme' hp
    obtain rfl : c :: more = text' :=
      (List.prefix_of_prefix_length_le (List.prefix_append _ rest) hp hle).eq_of_length_le hge
    rw [(hlexeme.unique hlexeme').1]
    exact hf
  | @stray c _ hblank hquote hnone =>
    refine ⟨c, rest, rfl, ?_⟩
    rcases first_cases c rest with ⟨kind, text, hf⟩ | ⟨rfl, -, -⟩ | ⟨hb, -⟩ | ⟨rfl, -, -⟩ | ⟨-, -, hf⟩
    · have hp := text_first c rest
      rw [hf] at hp
      exact absurd hp (hnone _ _ _ (.of_first hf))
    · exact absurd (List.prefix_append ['/'] rest) (hnone .slash ['/'] .nil (.sign (by decide)))
    · exact absurd (isBlank_iff.mp hb) hblank
    · exact absurd rfl hquote
    · exact hf
  | @openString body hb =>
    have hbody : ∀ c ∈ body, (c != '"') = true := fun c hc => by simpa using fun h : c = '"' => hb (h ▸ hc)
    refine ⟨'"', body, by simp [text], ?_⟩
    change string body = Piece.openString ('"' :: body)
    rw [string, List.takeWhile_eq_self_iff.mpr hbody, List.dropWhile_eq_nil_iff.mpr hbody]
    rfl

theorem cutFrom_eq_cut : ∀ (skip : Nat) (text : List Char), cutFrom skip text = cut (text.drop skip)
  | 0, _ => rfl
  | _ + 1, [] => rfl
  | skip + 1, _ :: rest => cutFrom_eq_cut skip rest

/-- The pieces of a text are the one that may be cut off and the pieces of what is left. -/
theorem Front.cut {p : Piece} {rest : List Char} (h : p.Front rest) : cut (p.text ++ rest) = p :: cut rest := by
  obtain ⟨c, more, htext, rfl⟩ := h.first
  obtain ⟨d, text, hd⟩ := List.exists_cons_of_ne_nil (text_first_ne_nil c more)
  rw [hd, List.cons_append, List.cons.injEq] at htext
  obtain ⟨rfl, rfl⟩ := htext
  rw [hd, List.cons_append, Piece.cut, cutFrom, cutFrom_eq_cut, hd]
  simp

/-- Some piece may be cut off every text. -/
theorem exists_front {text : List Char} (h : text ≠ []) :
    ∃ (p : Piece) (rest : List Char), text = p.text ++ rest ∧ p.text ≠ [] ∧ p.Front rest := by
  obtain ⟨c, more, rfl⟩ := List.exists_cons_of_ne_nil h
  obtain ⟨rest, hrest⟩ := text_first c more
  exact ⟨first c more, rest, hrest.symm, text_first_ne_nil c more, front_first hrest⟩

end Piece

/-! ## Tilings -/

/-- The line that the end of a text is on. -/
def lineBehind (front : List Char) : Line := 1 + (front.count '\n' : Nat)

/-- `Tiling front rest pieces tokens diagnostics`: behind `front`, the text `rest` is cut into the pieces, which read as
the tokens and the diagnostics. -/
inductive Tiling : List Char → List Char → List Piece → List Token → List Diagnostic → Prop
  | atEnd {front : List Char} : Tiling front [] [] [⟨.endOfInput, "", lineBehind front, .nil⟩] []
  | blank {front rest ps ts ds} {c : Char} (hp : (Piece.blank c).Front rest) (h : Tiling (front ++ [c]) rest ps ts ds) :
      Tiling front (c :: rest) (.blank c :: ps) ts ds
  | comment {front rest ps ts ds} {text : List Char} (hp : (Piece.comment text).Front rest)
      (h : Tiling (front ++ text) rest ps ts ds) : Tiling front (text ++ rest) (.comment text :: ps) ts ds
  | lexeme {front rest ps ts ds} {kind : TokenKind} {text : List Char} {value : Value}
      (hp : (Piece.lexeme kind text).Front rest) (hv : IsLexeme kind text value)
      (h : Tiling (front ++ text) rest ps ts ds) :
      Tiling front (text ++ rest) (.lexeme kind text :: ps)
        (⟨kind, String.ofList text, lineBehind (front ++ text), value⟩ :: ts) ds
  | stray {front rest ps ts ds} {c : Char} (hp : (Piece.stray c).Front rest) (h : Tiling (front ++ [c]) rest ps ts ds) :
      Tiling front (c :: rest) (.stray c :: ps) ts
        (⟨.scan, lineBehind (front ++ [c]), "Unrecognized character " ++ c.toString⟩ :: ds)
  | openString {front rest ps ts ds} {text : List Char} (hp : (Piece.openString text).Front rest)
      (h : Tiling (front ++ text) rest ps ts ds) :
      Tiling front (text ++ rest) (.openString text :: ps) ts
        (⟨.scan, lineBehind (front ++ text), "End of string not found"⟩ :: ds)

/-! ## The scan behind a text -/

/-- What scanning reads off a text that stands behind `front`. -/
def Scan.behind (front text : List Char) : Scan :=
  let pieces := Piece.withLines (lineBehind front) (Piece.cut text)
  { tokens := pieces.filterMap (fun (line, p) => p.token? line) ++ [Token.atEnd (lineBehind (front ++ text))]
    diagnostics := pieces.filterMap fun (line, p) => p.diagnostic? line }

theorem lineBehind_append (front text : List Char) :
    lineBehind (front ++ text) = lineBehind front + Piece.lineFeeds text := by
  rw [lineBehind, lineBehind, Piece.lineFeeds, List.count_append, Int.natCast_add, Int.add_assoc]

namespace Piece.Front

variable {p : Piece} {rest : List Char} (h : p.Front rest) (front : List Char)
include h

theorem tokens_behind : (Scan.behind front (p.text ++ rest)).tokens =
    (p.token? (lineBehind (front ++ p.text))).toList ++ (Scan.behind (front ++ p.text) rest).tokens := by
  rw [Scan.behind, h.cut, withLines, ← lineBehind_append, ← List.append_assoc, Scan.behind]
  cases hp : p.token? (lineBehind (front ++ p.text)) <;> simp [hp]

theorem diagnostics_behind : (Scan.behind front (p.text ++ rest)).diagnostics =
    (p.diagnostic? (lineBehind (front ++ p.text))).toList ++ (Scan.behind (front ++ p.text) rest).diagnostics := by
  rw [Scan.behind, h.cut, withLines, ← lineBehind_append, Scan.behind]
  cases hp : p.diagnostic? (lineBehind (front ++ p.text)) <;> simp [hp]

/-- What is read off a text, from what is read off behind its first piece. -/
theorem step {ps : List Piece} {ts : List Token} {ds : List Diagnostic}
    (hrest : ps = Piece.cut rest ∧ ts = (Scan.behind (front ++ p.text) rest).tokens ∧
      ds = (Scan.behind (front ++ p.text) rest).diagnostics) :
    p :: ps = Piece.cut (p.text ++ rest) ∧
      (p.token? (lineBehind (front ++ p.text))).toList ++ ts = (Scan.behind front (p.text ++ rest)).tokens ∧
      (p.diagnostic? (lineBehind (front ++ p.text))).toList ++ ds =
        (Scan.behind front (p.text ++ rest)).diagnostics := by
  obtain ⟨rfl, rfl, rfl⟩ := hrest
  exact ⟨h.cut.symm, (h.tokens_behind front).symm, (h.diagnostics_behind front).symm⟩

end Piece.Front

/-- At the end of a text, only the end of input is left to read. -/
theorem Scan.behind_nil (front : List Char) : Scan.behind front [] = ⟨[Token.atEnd (lineBehind front)], []⟩ := by
  rw [Scan.behind, List.append_nil]
  rfl

namespace Tiling

/-- What scanning gives is a tiling. -/
theorem behind (front text : List Char) :
    Tiling front text (Piece.cut text) (Scan.behind front text).tokens (Scan.behind front text).diagnostics := by
  by_cases hend : text = []
  · rw [hend, Scan.behind_nil]
    exact .atEnd
  · obtain ⟨p, rest, htext, hne, hp⟩ := Piece.exists_front hend
    have hrest := behind (front ++ p.text) rest
    rw [htext, hp.cut, hp.tokens_behind, hp.diagnostics_behind]
    cases p with
    | blank => exact .blank hp hrest
    | comment => exact .comment hp hrest
    | lexeme kind text =>
      obtain ⟨value, hlexeme⟩ : ∃ value, IsLexeme kind text value := by
        cases hp with
        | lexeme hlexeme => exact ⟨_, hlexeme⟩
      obtain ⟨c, more, -, -, rfl⟩ := hlexeme.first_self
      exact .lexeme hp hlexeme hrest
    | stray => exact .stray hp hrest
    | openString => exact .openString hp hrest
termination_by text.length
decreasing_by
  rw [htext, List.length_append]
  have := List.length_pos_iff.mpr hne
  omega

/-- Every tiling is what scanning gives. -/
theorem eq_behind {front text : List Char} {ps : List Piece} {ts : List Token} {ds : List Diagnostic}
    (h : Tiling front text ps ts ds) : ps = Piece.cut text ∧ ts = (Scan.behind front text).tokens ∧
      ds = (Scan.behind front text).diagnostics := by
  induction h with
  | atEnd => rw [Scan.behind_nil]; exact ⟨rfl, rfl, rfl⟩
  | blank hp _ ih => exact hp.step _ ih
  | comment hp _ ih => exact hp.step _ ih
  | lexeme hp hv _ ih =>
    obtain ⟨c, more, -, -, rfl⟩ := hv.first_self
    exact hp.step _ ih
  | stray hp _ ih => exact hp.step _ ih
  | openString hp _ ih => exact hp.step _ ih

end Tiling

/-! ## Scans are tilings -/

namespace Piece

/-- Pieces that are no part of a program. -/
inductive IsMalformed : Piece → Prop
  | stray {c : Char} : IsMalformed (.stray c)
  | openString {text : List Char} : IsMalformed (.openString text)

theorem isSome_diagnostic? {p : Piece} (line : Line) : (p.diagnostic? line).isSome = true ↔ p.IsMalformed := by
  cases p with
  | stray => exact iff_of_true rfl .stray
  | openString => exact iff_of_true rfl .openString
  | _ => exact iff_of_false Bool.false_ne_true nofun

end Piece

theorem Scan.diagnostics_eq_nil_iff (source : String) :
    (Scan.of source).diagnostics = [] ↔ ∀ p ∈ Piece.cut source.toList, ¬ p.IsMalformed := by
  simp only [Scan.of, List.filterMap_eq_nil_iff]
  constructor
  · intro h p hp hbad
    rw [← Piece.map_withLines (Piece.cut source.toList) 1] at hp
    obtain ⟨⟨line, p⟩, hmem, rfl⟩ := List.mem_map.mp hp
    have hsome := (Piece.isSome_diagnostic? line).mpr hbad
    rw [h _ hmem] at hsome
    cases hsome
  · intro h entry hentry
    have hgood := h entry.2 (Piece.mem_of_mem_withLines hentry)
    exact Option.not_isSome_iff_eq_none.mp fun hsome => hgood ((Piece.isSome_diagnostic? entry.1).mp hsome)

/-- Every number that is cut off a text can be read. -/
theorem Piece.isSome_read? {source text : List Char} (h : .lexeme .number text ∈ cut source) :
    (Decimal.read? (String.ofList text)).isSome = true := by
  obtain ⟨c, rest, hfirst⟩ := exists_first h
  cases IsLexeme.of_first hfirst.symm with
  | number _ hx => rw [hx]; rfl

theorem Piece.message_diagnostic? {p : Piece} {line : Line} {d : Diagnostic} (h : p.diagnostic? line = some d) :
    d.message ≠ "Failed to parse number" := by
  cases p with
  | stray c =>
    cases h
    intro he
    have hlist := congrArg (·.toList.head?) he
    simp at hlist
  | openString =>
    cases h
    change "End of string not found" ≠ "Failed to parse number"
    decide
  | _ => cases h

/-- Every text has exactly one tiling, which is what scanning it gives. The pieces concatenate to the text; scanning
succeeds with the tokens if no piece is malformed, and otherwise fails with the diagnostics. No number in it is ever
beyond reading. -/
theorem scan_tiles (source : String) :
    (∀ ps ts ds, Tiling [] source.toList ps ts ds ↔
      ps = Piece.cut source.toList ∧ ts = (Scan.of source).tokens ∧ ds = (Scan.of source).diagnostics) ∧
    (Piece.cut source.toList).flatMap Piece.text = source.toList ∧
    (∀ ts, scan source = .ok ts ↔
      ts = (Scan.of source).tokens ∧ ∀ p ∈ Piece.cut source.toList, ¬ p.IsMalformed) ∧
    (∀ ds, scan source = .error ds ↔
      ds = (Scan.of source).diagnostics ∧ ∃ p ∈ Piece.cut source.toList, p.IsMalformed) ∧
    (∀ text, .lexeme .number text ∈ Piece.cut source.toList → (Decimal.read? (String.ofList text)).isSome = true) ∧
    ∀ d ∈ (Scan.of source).diagnostics, d.message ≠ "Failed to parse number" := by
  have hbad := Scan.diagnostics_eq_nil_iff source
  refine ⟨fun ps ts ds => ⟨fun h => h.eq_behind, ?_⟩, Piece.flatMap_cut _, fun ts => ?_, fun ds => ?_,
    fun text => Piece.isSome_read?, fun d hd => ?_⟩
  · rintro ⟨rfl, rfl, rfl⟩
    exact Tiling.behind [] source.toList
  · rw [← hbad, scan, Scan.result]
    cases (Scan.of source).diagnostics <;> simp [eq_comm]
  · have hbad' : (Scan.of source).diagnostics ≠ [] ↔ ∃ p ∈ Piece.cut source.toList, p.IsMalformed := by
      simp [hbad]
    rw [← hbad', scan, Scan.result]
    cases (Scan.of source).diagnostics <;> simp [eq_comm]
  · obtain ⟨⟨line, p⟩, -, hp⟩ := List.mem_filterMap.mp hd
    exact Piece.message_diagnostic? hp

end LoxLang
