import LoxLang.Proofs.Scanning

/-!
# Scanning across a line break

The pieces of a text concatenate to the text (`Piece.flatMap_cut`). No piece but an open string goes on behind a line
feed, so the pieces of two texts with a line feed between them are those of the first, the line feed, and those of the
second (`Piece.cut_newline`). The tokens and diagnostics are put together in the same way, with the lines of the second
text moved down (`Scan.tokens_newline`, `Scan.diagnostics_newline`).
-/

namespace LoxLang

/-! ## Texts in front of a line feed -/

theorem takeWhile_newline {p : Char → Bool} (hp : p '\n' = false) (rest b : List Char) :
    (rest ++ '\n' :: b).takeWhile p = rest.takeWhile p := by
  induction rest with
  | nil => simp [hp]
  | cons c rest ih => by_cases hc : p c = true <;> simp [hc, ih]

theorem dropWhile_newline {p : Char → Bool} (hp : p '\n' = false) (rest b : List Char) :
    (rest ++ '\n' :: b).dropWhile p = rest.dropWhile p ++ '\n' :: b := by
  induction rest with
  | nil => simp [hp]
  | cons c rest ih => by_cases hc : p c = true <;> simp [hc, ih]

/-- A list that is not dropped to its end is cut at the same place if something follows it. -/
theorem takeWhile_of_dropWhile {p : Char → Bool} {l : List Char} (h : l.dropWhile p ≠ []) (rest : List Char) :
    (l ++ rest).takeWhile p = l.takeWhile p ∧ (l ++ rest).dropWhile p = l.dropWhile p ++ rest := by
  induction l with
  | nil => exact absurd rfl h
  | cons c l ih =>
    by_cases hc : p c = true
    · rw [List.dropWhile_cons_of_pos hc] at h
      obtain ⟨htake, hdrop⟩ := ih h
      simp [hc, htake, hdrop]
    · simp [hc]

theorem head?_newline {c : Char} (hc : c ≠ '\n') (rest b : List Char) :
    (rest ++ '\n' :: b).head? = some c ↔ rest.head? = some c := by
  cases rest with
  | nil => simp [Ne.symm hc]
  | cons d rest => rfl

namespace Piece

/-- Strings whose closing quote is missing. -/
def IsOpen : Piece → Prop
  | openString _ => True
  | _ => False

theorem numberTail_newline (rest b : List Char) : numberTail (rest ++ '\n' :: b) = numberTail rest := by
  have hdigit : Letter.isDigit '\n' = false := by decide
  unfold numberTail
  rw [takeWhile_newline hdigit, dropWhile_newline hdigit]
  rcases rest.dropWhile Letter.isDigit with _ | ⟨c, _ | ⟨d, more⟩⟩
  · rfl
  · by_cases hc : c = '.'
    · subst hc; simp [hdigit]
    · simp [hc]
  · by_cases hc : c = '.'
    · subst hc
      simp only [List.cons_append]
      rw [takeWhile_newline hdigit]
    · simp [hc]

theorem string_newline {rest : List Char} (b : List Char) (h : ¬ (string rest).IsOpen) :
    string (rest ++ '\n' :: b) = string rest := by
  unfold string at h ⊢
  have hclosed : rest.dropWhile (· != '"') ≠ [] := by
    intro he
    rw [he] at h
    exact h trivial
  obtain ⟨htake, hdrop⟩ := takeWhile_of_dropWhile hclosed ('\n' :: b)
  rw [htake, hdrop]
  have hne : (rest.dropWhile (· != '"') ++ '\n' :: b).isEmpty = false := by simp
  have hne' : (rest.dropWhile (· != '"')).isEmpty = false := by simpa using hclosed
  rw [hne, hne']

/-- What stands behind a line feed does not change the first piece of a text, unless that is an open string. -/
theorem first_newline {c : Char} {rest : List Char} (b : List Char) (h : ¬ (first c rest).IsOpen) :
    first c (rest ++ '\n' :: b) = first c rest := by
  unfold first at h ⊢
  split
  · rfl
  · simp only [head?_newline (c := '=') (by decide)]
  · rename_i hs he
    simp only [hs, he] at h
    simp only [head?_newline (c := '/') (by decide), takeWhile_newline (p := (· != '\n')) (by decide),
      takeWhile_newline (p := Letter.isWord) (by decide), numberTail_newline]
    split
    · rfl
    · rename_i h₁
      rw [if_neg h₁] at h
      split
      · rfl
      · rename_i h₂
        rw [if_neg h₂] at h
        split
        · rename_i h₃
          rw [if_pos h₃] at h
          exact string_newline b h
        · rfl

/-! ## The pieces of a text -/

theorem numberTail_prefix (rest : List Char) : numberTail rest <+: rest := by
  have hsplit := List.takeWhile_append_dropWhile (p := Letter.isDigit) (l := rest)
  have hwhole : rest.takeWhile Letter.isDigit <+: rest := List.takeWhile_prefix _
  unfold numberTail
  dsimp only
  split
  · next d more hd =>
    split
    · rw [hd] at hsplit
      conv => rhs; rw [← hsplit]
      refine (List.prefix_append_right_inj _).mpr ?_
      simp [List.takeWhile_prefix]
    · exact hwhole
  · exact hwhole

theorem text_string (rest : List Char) : (string rest).text <+: '"' :: rest := by
  have hbody : '"' :: rest.takeWhile (· != '"') <+: '"' :: rest :=
    List.cons_prefix_cons.mpr ⟨rfl, List.takeWhile_prefix _⟩
  unfold string
  dsimp only
  split
  · exact hbody
  · next he =>
    obtain ⟨q, more, hmore⟩ := List.exists_cons_of_ne_nil (by simpa using he : rest.dropWhile (· != '"') ≠ [])
    have hq := List.head_dropWhile_not (· != '"') (l := rest) (by rw [hmore]; simp)
    simp only [hmore, List.head_cons, bne_eq_false_iff_eq] at hq
    subst hq
    have hsplit := List.takeWhile_append_dropWhile (p := (· != '"')) (l := rest)
    rw [hmore] at hsplit
    refine List.cons_prefix_cons.mpr ⟨rfl, ?_⟩
    conv => rhs; rw [← hsplit]
    simp

/-- The first piece of a text stands at its front. -/
theorem text_first (c : Char) (rest : List Char) : (first c rest).text <+: c :: rest := by
  have hword : ∀ p : Char → Bool, c :: rest.takeWhile p <+: c :: rest := fun p =>
    List.cons_prefix_cons.mpr ⟨rfl, List.takeWhile_prefix p⟩
  have hhead : ∀ d, rest.head? = some d → [c, d] <+: c :: rest := fun d hd => by
    cases rest with
    | nil => cases hd
    | cons e rest => cases hd; simp
  have hone : [c] <+: c :: rest := by simp
  unfold first
  split
  · exact hone
  · split
    · next he => exact hhead '=' he
    · exact hone
  · split
    · split
      · exact hword _
      · exact hone
    · split
      · exact hone
      · split
        · next hq => exact hq ▸ text_string rest
        · split
          · exact List.cons_prefix_cons.mpr ⟨rfl, numberTail_prefix rest⟩
          · split
            · exact hword _
            · exact hone

theorem length_text_first (c : Char) (rest : List Char) : (first c rest).text.length ≤ rest.length + 1 :=
  (text_first c rest).length_le

theorem text_first_ne_nil (c : Char) (rest : List Char) : (first c rest).text ≠ [] := by
  unfold first string
  dsimp only
  repeat' split
  all_goals exact List.cons_ne_nil _ _

/-- The pieces of a text concatenate to the text. -/
theorem flatMap_cutFrom : ∀ (text : List Char) (skip : Nat), (cutFrom skip text).flatMap Piece.text = text.drop skip
  | [], _ => by simp [cutFrom]
  | _ :: rest, skip + 1 => by simpa [cutFrom] using flatMap_cutFrom rest skip
  | c :: rest, 0 => by
    obtain ⟨more, hmore⟩ := text_first c rest
    obtain ⟨d, text, htext⟩ := List.exists_cons_of_ne_nil (text_first_ne_nil c rest)
    have hrest := flatMap_cutFrom rest ((first c rest).text.length - 1)
    rw [htext] at hmore hrest
    obtain ⟨rfl, rfl⟩ := List.cons.inj hmore
    rw [cutFrom, List.flatMap_cons, htext, hrest]
    simp

theorem flatMap_cut (text : List Char) : (cut text).flatMap Piece.text = text := flatMap_cutFrom text 0

theorem cutFrom_newline (b : List Char) : ∀ {a : List Char} {skip : Nat}, skip ≤ a.length →
    (∀ p ∈ cutFrom skip a, ¬ p.IsOpen) → cutFrom skip (a ++ '\n' :: b) = cutFrom skip a ++ blank '\n' :: cut b
  | [], 0, _, _ => rfl
  | _ :: a, skip + 1, hs, ho => by
    have hrest := cutFrom_newline b (show skip ≤ a.length by simpa using hs) ho
    exact hrest
  | c :: a, 0, _, ho => by
    have hfirst := first_newline b (ho _ List.mem_cons_self)
    have hlength : (first c a).text.length - 1 ≤ a.length := by
      have := length_text_first c a
      omega
    have hrest := cutFrom_newline b hlength fun p hp => ho p (List.mem_cons_of_mem _ hp)
    rw [List.cons_append, cutFrom, hfirst, hrest, cutFrom]
    rfl

/-- A line feed between two texts is a piece of its own. -/
theorem cut_newline {a : List Char} (b : List Char) (h : ∀ p ∈ cut a, ¬ p.IsOpen) :
    cut (a ++ '\n' :: b) = cut a ++ blank '\n' :: cut b :=
  cutFrom_newline b (Nat.zero_le _) h

/-! ## Lines -/

theorem withLines_append (ps qs : List Piece) (line : Line) :
    withLines line (ps ++ qs) = withLines line ps ++ withLines (line + lineFeeds (ps.flatMap Piece.text)) qs := by
  induction ps generalizing line with
  | nil => simp [withLines, lineFeeds]
  | cons p ps ih =>
    simp only [List.cons_append, withLines, ih, List.flatMap_cons, lineFeeds, List.count_append]
    rw [Int.natCast_add, Int.add_assoc]

theorem map_withLines (ps : List Piece) (line : Line) : (withLines line ps).map (·.2) = ps := by
  induction ps generalizing line with
  | nil => rfl
  | cons p ps ih => simp [withLines, ih]

theorem withLines_add (k : Line) (ps : List Piece) (line : Line) :
    withLines (line + k) ps = (withLines line ps).map fun (l, p) => (l + k, p) := by
  induction ps generalizing line with
  | nil => rfl
  | cons p ps ih =>
    have hline : line + k + lineFeeds p.text = line + lineFeeds p.text + k := Int.add_right_comm _ _ _
    simp only [withLines, List.map_cons, hline, ih]

end Piece

/-- The token some lines further down. -/
def Token.down (k : Line) (t : Token) : Token := { t with line := t.line + k }

/-- The diagnostic some lines further down. -/
def Diagnostic.down (k : Line) (d : Diagnostic) : Diagnostic := { d with line := d.line + k }

namespace Piece

theorem token?_add (line k : Line) (p : Piece) : token? (line + k) p = (token? line p).map (Token.down k) := by
  cases p <;> rfl

theorem diagnostic?_add (line k : Line) (p : Piece) :
    diagnostic? (line + k) p = (diagnostic? line p).map (Diagnostic.down k) := by
  cases p <;> rfl

theorem diagnostic?_of_isOpen {p : Piece} (h : p.IsOpen) (line : Line) : (p.diagnostic? line).isSome = true := by
  cases p with
  | openString => rfl
  | _ => exact h.elim

/-- What is read off the pieces of two texts with a line feed between them. -/
theorem filterMap_newline {α : Type} {read : Line → Piece → Option α} {down : Line → α → α}
    (hblank : ∀ line, read line (blank '\n') = none)
    (hdown : ∀ line k p, read (line + k) p = (read line p).map (down k)) {a : List Char} (b : List Char)
    (h : ∀ p ∈ cut a, ¬ p.IsOpen) :
    (withLines 1 (cut (a ++ '\n' :: b))).filterMap (fun (line, p) => read line p) =
      (withLines 1 (cut a)).filterMap (fun (line, p) => read line p) ++
        ((withLines 1 (cut b)).filterMap fun (line, p) => read line p).map (down (1 + lineFeeds a)) := by
  have hb : (1 : Line) + lineFeeds a + lineFeeds (blank '\n').text = 1 + (1 + lineFeeds a) := by
    rw [Int.add_assoc, Int.add_comm (lineFeeds a : Int)]
    rfl
  rw [cut_newline b h, withLines_append, flatMap_cut, List.filterMap_append, withLines, hb, withLines_add]
  simp only [List.filterMap_cons, hblank, List.filterMap_map, List.map_filterMap]
  congr 1
  exact congrArg (List.filterMap · _) (funext fun entry => hdown entry.1 _ entry.2)

end Piece

/-! ## Scans -/

namespace Scan

variable {a : String} (h : ∀ p ∈ Piece.cut a.toList, ¬ p.IsOpen) (b : String)
include h

/-- The tokens of two texts with a line feed between them. -/
theorem tokens_newline : (Scan.of (a ++ "\n" ++ b)).tokens =
    (Scan.of a).tokens.dropLast ++ (Scan.of b).tokens.map (Token.down (1 + Piece.lineFeeds a.toList)) := by
  have htext : (a ++ "\n" ++ b).toList = a.toList ++ '\n' :: b.toList := by simp
  have hend : Token.atEnd (1 + Piece.lineFeeds (a.toList ++ '\n' :: b.toList)) =
      (Token.atEnd (1 + Piece.lineFeeds b.toList)).down (1 + Piece.lineFeeds a.toList) := by
    simp only [Token.atEnd, Token.down, Piece.lineFeeds, List.count_append, List.count_cons_self, Token.mk.injEq,
      true_and, and_true]
    push_cast
    ac_rfl
  simp only [Scan.of, htext]
  rw [Piece.filterMap_newline (fun _ => rfl) Piece.token?_add b.toList h, hend]
  simp

theorem diagnostics_newline : (Scan.of (a ++ "\n" ++ b)).diagnostics =
    (Scan.of a).diagnostics ++ (Scan.of b).diagnostics.map (Diagnostic.down (1 + Piece.lineFeeds a.toList)) := by
  have htext : (a ++ "\n" ++ b).toList = a.toList ++ '\n' :: b.toList := by simp
  simp only [Scan.of, htext]
  exact Piece.filterMap_newline (fun _ => rfl) Piece.diagnostic?_add b.toList h

end Scan

/-! ## The end of input -/

theorem Piece.ne_endOfInput_of_first {c : Char} {rest text : List Char} {kind : TokenKind}
    (h : first c rest = .lexeme kind text) : kind ≠ .endOfInput := by
  unfold first at h
  split at h
  · next hs =>
    cases h
    unfold Letter.single? at hs
    split at hs <;> cases hs <;> decide
  · next hs =>
    unfold Letter.withEqual? at hs
    split at h <;> cases h <;> split at hs <;> cases hs <;> decide
  · split at h
    · split at h
      · cases h
      · cases h; decide
    · split at h
      · cases h
      · split at h
        · unfold string at h
          split at h <;> cases h
          decide
        · split at h
          · cases h; decide
          · split at h
            · simp only [lexeme.injEq] at h
              rw [← h.1, wordKind]
              cases hk : TokenKind.keyword? (String.ofList (c :: rest.takeWhile Letter.isWord)) with
              | none => decide
              | some k =>
                have hmem : k ∈ TokenKind.keywords := List.mem_of_find?_eq_some hk
                rintro rfl
                revert hmem
                decide
            · cases h

/-- Nothing but the last token of a scan is the end of input. -/
theorem Scan.beforeEnd_tokens (source : String) :
    Token.beforeEnd (Scan.of source).tokens = (Scan.of source).tokens.dropLast := by
  have hlexemes : ∀ t ∈ (Piece.withLines 1 (Piece.cut source.toList)).filterMap (fun (line, p) => p.token? line),
      (t.kind != .endOfInput) = true := by
    intro t ht
    obtain ⟨⟨line, p⟩, hmem, htoken⟩ := List.mem_filterMap.mp ht
    obtain ⟨c, rest, rfl⟩ := Piece.exists_first (Piece.mem_of_mem_withLines hmem)
    dsimp only at htoken
    cases hf : Piece.first c rest with
    | lexeme kind text =>
      rw [hf] at htoken
      cases htoken
      simpa using Piece.ne_endOfInput_of_first hf
    | _ => rw [hf] at htoken; cases htoken
  simp only [Scan.of, Token.beforeEnd]
  rw [List.takeWhile_append_of_pos hlexemes, List.dropLast_concat]
  simp [Token.atEnd]

/-- A text without scanning diagnostics has no open string. -/
theorem Scan.not_isOpen {a : String} (h : (Scan.of a).diagnostics = []) : ∀ p ∈ Piece.cut a.toList, ¬ p.IsOpen := by
  intro p hp ho
  rw [← Piece.map_withLines (Piece.cut a.toList) 1] at hp
  obtain ⟨⟨line, p⟩, hmem, rfl⟩ := List.mem_map.mp hp
  have hnone : p.diagnostic? line = none := List.filterMap_eq_nil_iff.mp h (line, p) hmem
  have hsome : (p.diagnostic? line).isSome = true := Piece.diagnostic?_of_isOpen ho line
  rw [hnone] at hsome
  cases hsome

end LoxLang
