import LoxLang.Proofs.Layout
import LoxLang.Proofs.Tiling

/-!
# Spacing

What scanning gives for texts that are put together. Between two texts a line feed is enough: what is recorded for the
first one stays, and what is recorded for the second one moves down (`scan_across_newline`). Between lexemes a space is
enough, since no lexeme but a string has a space in it, and a string ends at its second quote: the lexemes of a text,
with a space between any two of them, are scanned to the tokens that they came from (`rescan_lexemes`).
-/

namespace LoxLang

/-! ## Line feeds between texts -/

/-- The message about a string whose closing quote is missing. -/
def openStringMessage : String := "End of string not found"

/-- A text has no open string if none is reported. -/
theorem Scan.not_isOpen_of_unreported {a : String} (h : ∀ d ∈ (Scan.of a).diagnostics, d.message ≠ openStringMessage) :
    ∀ p ∈ Piece.cut a.toList, ¬ p.IsOpen := by
  intro p hp ho
  cases p with
  | openString text =>
    rw [← Piece.map_withLines (Piece.cut a.toList) 1] at hp
    obtain ⟨⟨line, p⟩, hmem, rfl⟩ := List.mem_map.mp hp
    exact h ⟨.scan, line, openStringMessage⟩ (List.mem_filterMap.mpr ⟨_, hmem, rfl⟩) rfl
  | _ => exact ho

/-- If no string is left open in a text, then behind it and a line feed any other text is scanned as it is alone, so
many lines further down as the line feeds in front of it; and what is recorded for the first text, tokens and
diagnostics, is what is recorded for it alone, but for its end. -/
theorem scan_across_newline {a : String} (h : ∀ d ∈ (Scan.of a).diagnostics, d.message ≠ openStringMessage)
    (b : String) :
    (Scan.of (a ++ "\n" ++ b)).tokens = Token.beforeEnd (Scan.of a).tokens ++
      (Scan.of b).tokens.map (Token.down (1 + (a.toList.count '\n' : Nat))) ∧
    (Scan.of (a ++ "\n" ++ b)).diagnostics = (Scan.of a).diagnostics ++
      (Scan.of b).diagnostics.map (Diagnostic.down (1 + (a.toList.count '\n' : Nat))) := by
  have hclosed := Scan.not_isOpen_of_unreported h
  refine ⟨?_, Scan.diagnostics_newline hclosed b⟩
  rw [Scan.beforeEnd_tokens]
  exact Scan.tokens_newline hclosed b

/-- A text with a string over two lines, and a comment in which a quote stands. -/
def quotingText : String := "@ \"a\nb\" // \" c"

/-- A text that leaves a string open. -/
def unclosedText : String := "x;\n\""

theorem quotingText_across_newline :
    (∀ d ∈ (Scan.of quotingText).diagnostics, d.message ≠ openStringMessage) ∧
      (Scan.of (quotingText ++ "\n" ++ unclosedText)).tokens.map (fun t => (t.lexeme, t.line)) =
        [("\"a\nb\"", 2), ("x", 3), (";", 3), ("", 4)] ∧
      (Scan.of (quotingText ++ "\n" ++ unclosedText)).diagnostics.map (fun d => (d.message, d.line)) =
        [("Unrecognized character @", 1), (openStringMessage, 4)] := by
  have h : ∀ d ∈ (Scan.of quotingText).diagnostics, d.message ≠ openStringMessage := by
    have hall : (Scan.of quotingText).diagnostics.all (fun d => decide (d.message ≠ openStringMessage)) = true := by cbv
    exact forall_mem_of_all hall
  obtain ⟨htokens, hdiagnostics⟩ := scan_across_newline h unclosedText
  refine ⟨h, ?_, ?_⟩
  · rw [htokens]
    cbv
  · rw [hdiagnostics]
    cbv

/-! ## Lexemes before a space -/

namespace IsLexeme

variable {kind kind' : TokenKind} {text text' : List Char} {value value' : Value}

/-- No lexeme but a string has a space in it. -/
theorem space_notMem (h : IsLexeme kind text value) (hk : kind ≠ .string) : ' ' ∉ text := by
  have hword : Letter.isWord ' ' = false := by decide
  cases h with
  | sign hsign => cases kind <;> first | exact absurd hsign (by decide) | decide
  | keyword hkeyword => cases kind <;> first | exact absurd hkeyword (by decide) | decide
  | identifier hc hmore =>
    intro hmem
    obtain rfl | hmem := List.mem_cons.mp hmem
    · exact absurd hc (by decide)
    · exact absurd (hmore ' ' hmem) (by simp [hword])
  | number ht => exact fun hmem => absurd (ht.plain ' ' hmem) (by decide)
  | string => exact absurd rfl hk

theorem body_of_string (h : IsLexeme .string text value) : ∃ body, '"' ∉ body ∧ text = '"' :: (body ++ ['"']) := by
  generalize hkind : TokenKind.string = kind at h
  cases h with
  | string hb => exact ⟨_, hb, rfl⟩
  | sign hsign => exact absurd (hkind ▸ hsign) (by decide)
  | keyword hkeyword => exact absurd (hkind ▸ hkeyword) (by decide)
  | _ => cases hkind

/-- What starts with a quote is a string. -/
theorem kind_of_quote {more : List Char} (h : IsLexeme kind ('"' :: more) value) : kind = .string := by
  obtain ⟨c, rest, htext, hfirst, -⟩ := h.first_self
  obtain ⟨rfl, rfl⟩ := List.cons.inj htext
  have hstring : Piece.string more = .lexeme kind ('"' :: more) := hfirst
  unfold Piece.string at hstring
  split at hstring
  · cases hstring
  · exact (Piece.lexeme.inj hstring).1.symm

/-- A lexeme does not start a comment. -/
theorem not_comment (h : IsLexeme kind text value) : ¬ ['/', '/'] <+: text := by
  intro hp
  obtain ⟨c, rest, rfl, hfirst, -⟩ := h.first_self
  rw [Piece.first_comment hp] at hfirst
  cases hfirst

/-- No lexeme goes on behind a space that follows a lexeme: it would be a string, and has its second quote before. -/
theorem length_le_of_space (h : IsLexeme kind text value) (h' : IsLexeme kind' text' value') {rest : List Char}
    (hp : text' <+: text ++ ' ' :: rest) : text'.length ≤ text.length := by
  by_contra hlonger
  have hspace : text ++ [' '] <+: text' := by
    refine List.prefix_of_prefix_length_le ⟨rest, by simp⟩ hp ?_
    simpa using Nat.lt_of_not_le hlonger
  obtain rfl : kind' = .string := by
    by_contra hk
    exact h'.space_notMem hk (hspace.subset (by simp))
  obtain ⟨body', hb', rfl⟩ := h'.body_of_string
  obtain ⟨c, more, rfl, -⟩ := h.first_self
  obtain ⟨rfl, hinner⟩ := List.cons_prefix_cons.mp hspace
  obtain rfl := h.kind_of_quote
  obtain ⟨body, -, htext⟩ := h.body_of_string
  obtain rfl := List.cons.inj htext |>.2
  have hquote : body ++ ['"'] <+: body' := by
    have hlength : (body ++ ['"'] ++ [' ']).length ≤ (body' ++ ['"']).length := hinner.length_le
    have hshorter : (body ++ ['"']).length ≤ body'.length := by
      simp only [List.length_append, List.length_singleton] at hlength ⊢
      omega
    exact List.prefix_of_prefix_length_le (List.IsPrefix.trans ⟨[' '], rfl⟩ hinner) (List.prefix_append body' _)
      hshorter
  exact hb' (hquote.subset (by simp))

/-- Before a space, or at the end, a lexeme is to be cut off. -/
theorem front_of_space (h : IsLexeme kind text value) {rest : List Char} (hrest : ∀ c ∈ rest.head?, c = ' ') :
    (Piece.lexeme kind text).Front rest := by
  cases rest with
  | nil =>
    refine .lexeme h ?_ fun _ _ _ _ hp => ?_
    · rw [List.append_nil]
      exact h.not_comment
    · rw [List.append_nil] at hp
      exact hp.length_le
  | cons c rest =>
    obtain rfl : c = ' ' := hrest c rfl
    refine .lexeme h (fun hp => ?_) fun _ _ _ h' hp => h.length_le_of_space h' hp
    obtain ⟨d, more, rfl, -⟩ := h.first_self
    obtain ⟨rfl, hsecond⟩ := List.cons_prefix_cons.mp hp
    cases more with
    | nil => exact absurd (List.cons_prefix_cons.mp hsecond).1 (by decide)
    | cons e more =>
      obtain ⟨rfl, -⟩ := List.cons_prefix_cons.mp hsecond
      exact h.not_comment (List.prefix_append ['/', '/'] more)

end IsLexeme

/-! ## Lexemes with spaces between them -/

namespace Token

/-- The token is what its lexeme is read as. -/
def IsRead (t : Token) : Prop := IsLexeme t.kind t.lexeme.toList t.literal

/-- The lexemes of tokens, with a space between any two of them. -/
def spaced (ts : List Token) : String := " ".intercalate (ts.map (·.lexeme))

theorem toList_spaced_cons_cons (t u : Token) (ts : List Token) :
    (spaced (t :: u :: ts)).toList = t.lexeme.toList ++ ' ' :: (spaced (u :: ts)).toList := by
  simp [spaced, List.intercalate]

end Token

/-- The tokens of a scan, but for its end, are what their lexemes are read as. -/
theorem Scan.isRead_of_mem {source : String} {t : Token} (h : t ∈ (Scan.of source).tokens.dropLast) : t.IsRead := by
  rw [Scan.of, List.dropLast_concat] at h
  obtain ⟨⟨line, p⟩, hp, ht⟩ := List.mem_filterMap.mp h
  obtain ⟨c, rest, rfl⟩ := Piece.exists_first (Piece.mem_of_mem_withLines hp)
  dsimp only at ht
  cases hf : Piece.first c rest with
  | lexeme kind text =>
    rw [hf] at ht
    cases ht
    have hlexeme := IsLexeme.of_first hf
    rw [Token.IsRead]
    rwa [String.toList_ofList]
  | _ => rw [hf] at ht; cases ht

/-- Behind nothing, a text is scanned as it is alone. -/
theorem Scan.behind_start (source : String) : Scan.behind [] source.toList = Scan.of source := rfl

/-- Spaced lexemes are tiled by themselves and the spaces. By induction on the tokens: a space or the end stands behind
every lexeme. -/
theorem Tiling.exists_of_spaced {ts : List Token} (h : ∀ t ∈ ts, t.IsRead) (front : List Char) (line : Line) :
    ∃ ps ts', Tiling front (Token.spaced ts).toList ps ts' [] ∧
      List.Forall₂ Token.SameLexeme ts' (ts ++ [.atEnd line]) := by
  induction ts generalizing front with
  | nil => exact ⟨_, _, .atEnd, .cons ⟨rfl, rfl, rfl⟩ .nil⟩
  | cons t ts ih =>
    obtain ⟨ht, hts⟩ := List.forall_mem_cons.mp h
    have hsame : ∀ line', Token.SameLexeme ⟨t.kind, String.ofList t.lexeme.toList, line', t.literal⟩ t := fun _ =>
      ⟨rfl, String.ofList_toList, rfl⟩
    cases ts with
    | nil =>
      have htext : (Token.spaced [t]).toList = t.lexeme.toList ++ [] := by simp [Token.spaced]
      rw [htext]
      exact ⟨_, _, .lexeme (ht.front_of_space nofun) ht .atEnd, .cons (hsame _) (.cons ⟨rfl, rfl, rfl⟩ .nil)⟩
    | cons u ts =>
      obtain ⟨ps, ts', htiling, hforall⟩ := ih hts (front ++ t.lexeme.toList ++ [' '])
      rw [Token.toList_spaced_cons_cons]
      have hspace : (Piece.blank ' ').Front (Token.spaced (u :: ts)).toList := .blank (by decide)
      have hlexeme : (Piece.lexeme t.kind t.lexeme.toList).Front (' ' :: (Token.spaced (u :: ts)).toList) :=
        ht.front_of_space fun c hc => (Option.some.inj hc).symm
      exact ⟨_, _, .lexeme hlexeme ht (.blank hspace htiling), .cons (hsame _) hforall⟩

/-- Whatever is scanned: the lexemes that are recorded, with a space between any two of them, are a text without
scanning diagnostics, and its tokens are the same again, in kind, lexeme and value. -/
theorem rescan_lexemes (source : String) :
    ∃ again, scan (Token.spaced (Token.beforeEnd (Scan.of source).tokens)) = .ok again ∧
      List.Forall₂ Token.SameLexeme again (Scan.of source).tokens := by
  rw [Scan.beforeEnd_tokens]
  obtain ⟨ps, again, htiling, hsame⟩ := Tiling.exists_of_spaced
    (fun t (ht : t ∈ (Scan.of source).tokens.dropLast) => Scan.isRead_of_mem ht) [] (1 + Piece.lineFeeds source.toList)
  obtain ⟨-, hagain, hnone⟩ := htiling.eq_behind
  refine ⟨again, ?_, ?_⟩
  · rw [Scan.behind_start] at hagain hnone
    rw [scan, Scan.result, ← hnone, hagain]
    rfl
  · rwa [Scan.of, List.dropLast_concat] at hsame

end LoxLang
