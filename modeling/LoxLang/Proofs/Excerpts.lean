import Mathlib
import LoxLang.Proofs.StackTraces

/-!
# Which lines an excerpt shows

A report shows the lines around the line of a diagnostic. It cuts the text at every line end there is
(`Text.lines`), while the scanner counts line feeds. As long as the lines up to the second one behind the diagnostic end
with a line feed, or a carriage return and a line feed, and hold no other line end, both count the same, and the excerpt
shows the line that the scanner counted (`excerpts_show_counted_lines`). Otherwise it may show another one
(`form_feed_shifts_excerpt`).
-/

namespace LoxLang

/-! ## Lines as the scanner counts them -/

namespace Text

/-- A text cut at its line feeds. A line feed at the end of the text starts no further line. -/
def countedChars (text : List Char) : List (List Char) :=
  let pieces := text.splitOn '\n'
  if pieces.getLast? = some [] then pieces.dropLast else pieces

/-- A line without the carriage return at its end. -/
def withoutReturn (line : List Char) : List Char := if line.getLast? = some '\r' then line.dropLast else line

/-- The lines of a text as line feeds count them, each without a carriage return at its end. -/
def counted (source : String) : List String :=
  (countedChars source.toList).map fun line => String.ofList (withoutReturn line)

/-- Apart from a carriage return at the end of a line, the first `n` lines of a text hold nothing at which only a report
would cut it. -/
def EndsCounted (source : String) (n : Line) : Prop :=
  ∀ line ∈ (countedChars source.toList).take n.toNat, ∀ c ∈ withoutReturn line, isLineEnd c = false

instance (source : String) (n : Line) : Decidable (EndsCounted source n) :=
  decidable_of_iff (((countedChars source.toList).take n.toNat).all fun line => (withoutReturn line).all fun c =>
    !isLineEnd c) (by simp [EndsCounted])

theorem countedChars_append {line : List Char} (h : '\n' ∉ line) (rest : List Char) :
    countedChars (line ++ '\n' :: rest) = line :: countedChars rest := by
  obtain ⟨piece, pieces, hrest⟩ := List.exists_cons_of_ne_nil (List.splitOn_ne_nil '\n' rest)
  unfold countedChars
  dsimp only
  rw [List.splitOn_append_cons_self_of_not_mem h, hrest, List.getLast?_cons_cons]
  split
  · rw [List.dropLast_cons_cons]
  · rfl

theorem countedChars_last {line : List Char} (h : '\n' ∉ line) (hne : line ≠ []) : countedChars line = [line] := by
  unfold countedChars
  rw [List.splitOn_eq_singleton h]
  simp [hne]

theorem eq_withoutReturn (line : List Char) : line = withoutReturn line ∨ line = withoutReturn line ++ ['\r'] := by
  unfold withoutReturn
  split
  · next h => exact .inr (List.dropLast_append_getLast? _ h).symm
  · exact .inl rfl

/-! ## Lines as a report counts them -/

theorem lineChars_cons {c : Char} (h : isLineEnd c = false) (rest : List Char) :
    lineChars (c :: rest) = prependToFirst c (lineChars rest) := by
  have hreturn : c ≠ '\r' := fun he => by subst he; revert h; decide
  rw [lineChars, if_neg (by simp [h])]
  exact fun _ he => absurd he hreturn

section

variable {line : List Char} (h : ∀ c ∈ line, isLineEnd c = false)
include h

/-- A line in front of a line end. -/
theorem lineChars_append {rest : List Char} {behind : List (List Char)} (hr : lineChars rest = [] :: behind) :
    lineChars (line ++ rest) = line :: behind := by
  induction line with
  | nil => exact hr
  | cons c line ih =>
    rw [List.cons_append, lineChars_cons (h c List.mem_cons_self), ih fun d hd => h d (List.mem_cons_of_mem _ hd)]
    rfl

theorem lineChars_last (hne : line ≠ []) : lineChars line = [line] := by
  induction line with
  | nil => exact absurd rfl hne
  | cons c line ih =>
    rw [lineChars_cons (h c List.mem_cons_self)]
    cases line with
    | nil => rfl
    | cons d line =>
      rw [ih (fun e he => h e (List.mem_cons_of_mem _ he)) (List.cons_ne_nil _ _)]
      rfl

end

/-- A line that ends with a line feed, for both. -/
theorem lineChars_counted {line : List Char} (h : ∀ c ∈ withoutReturn line, isLineEnd c = false) (rest : List Char) :
    lineChars (line ++ '\n' :: rest) = withoutReturn line :: lineChars rest := by
  have hfeed : lineChars ('\n' :: rest) = [] :: lineChars rest := rfl
  rcases eq_withoutReturn line with he | he
  · have hline := lineChars_append h hfeed
    rwa [← he] at hline ⊢
  · have hline : lineChars (withoutReturn line ++ '\r' :: '\n' :: rest) = withoutReturn line :: lineChars rest :=
      lineChars_append h rfl
    conv => lhs; rw [he]
    rwa [List.append_assoc]

theorem lineChars_counted_last {line : List Char} (h : ∀ c ∈ withoutReturn line, isLineEnd c = false)
    (hne : line ≠ []) : lineChars line = [withoutReturn line] := by
  rcases eq_withoutReturn line with he | he
  · rw [← he] at h ⊢
    exact lineChars_last h hne
  · have hline : lineChars (withoutReturn line ++ ['\r']) = [withoutReturn line] := lineChars_append h rfl
    rwa [← he] at hline

/-- As far as no other line end is met, a report counts as the scanner does. -/
theorem take_lineChars (n : Nat) (text : List Char)
    (h : ∀ line ∈ (countedChars text).take n, ∀ c ∈ withoutReturn line, isLineEnd c = false) :
    (lineChars text).take n = ((countedChars text).map withoutReturn).take n := by
  induction n generalizing text with
  | zero => rfl
  | succ n ih =>
    by_cases hfeed : '\n' ∈ text
    · obtain ⟨line, rest, rfl, hline⟩ := List.eq_append_cons_of_mem hfeed
      rw [countedChars_append hline, List.take_succ_cons] at h
      rw [countedChars_append hline, lineChars_counted (h line List.mem_cons_self), List.map_cons, List.take_succ_cons,
        List.take_succ_cons, ih rest fun l hl => h l (List.mem_cons_of_mem _ hl)]
    · by_cases hne : text = []
      · subst hne
        rfl
      · rw [countedChars_last hfeed hne] at h ⊢
        rw [lineChars_counted_last (h text List.mem_cons_self) hne]
        rfl

theorem take_lines {source : String} {n : Line} (h : EndsCounted source n) :
    (lines source).take n.toNat = (counted source).take n.toNat := by
  have hchars := take_lineChars n.toNat source.toList h
  rw [lines, counted, ← List.map_take, hchars, ← List.map_take, ← List.map_take, List.map_map]
  rfl

theorem not_mem_splitOn (mark : Char) : ∀ {text piece : List Char}, piece ∈ text.splitOn mark → mark ∉ piece
  | [], piece, h => by
    rw [List.splitOn_nil, List.mem_singleton] at h
    rw [h]
    exact List.not_mem_nil
  | c :: text, piece, h => by
    rw [List.splitOn_cons_eq_if_modifyHead] at h
    split at h
    · obtain rfl | h := List.mem_cons.mp h
      · exact List.not_mem_nil
      · exact not_mem_splitOn mark h
    · next hc =>
      obtain ⟨first, pieces, hsplit⟩ := List.exists_cons_of_ne_nil (List.splitOn_ne_nil mark text)
      have hrest : ∀ p ∈ first :: pieces, mark ∉ p := fun p hp => not_mem_splitOn mark (hsplit ▸ hp)
      rw [hsplit, List.modifyHead_cons] at h
      obtain rfl | h := List.mem_cons.mp h
      · rw [List.mem_cons, not_or]
        exact ⟨fun he => hc (by simp [he]), hrest first List.mem_cons_self⟩
      · exact hrest piece (List.mem_cons_of_mem _ h)

/-- No line holds a line feed. -/
theorem not_mem_counted {source line : String} (h : line ∈ counted source) : '\n' ∉ line.toList := by
  obtain ⟨chars, hchars, rfl⟩ := List.mem_map.mp h
  have hpiece : chars ∈ source.toList.splitOn '\n' := by
    unfold countedChars at hchars
    dsimp only at hchars
    split at hchars
    · exact List.dropLast_subset _ hchars
    · exact hchars
  have hsub : withoutReturn chars ⊆ chars := by
    unfold withoutReturn
    split
    · exact List.dropLast_subset _
    · exact fun _ hc => hc
  rw [String.toList_ofList]
  exact fun hc => not_mem_splitOn '\n' hpiece (hsub hc)

end Text

/-! ## The rows of an excerpt -/

namespace Report

/-- A row of an excerpt: a line with its number. -/
def row (mark : String) (width : Nat) (entry : String × Nat) : String :=
  mark ++ " " ++ padLeft width (toString entry.2) ++ " | " ++ entry.1

/-- The rows around a line, which alone is marked: up to two lines in front of it, and up to two behind. -/
def rows (front : List String) (shown : String) (behind : List String) : List String :=
  let width := (toString (front.length + 1 + (behind.take 2).length)).length
  ((front.drop (front.length - 2)).zipIdx (front.length - 2 + 1)).map (row " " width) ++
    row ">" width (shown, front.length + 1) :: ((behind.take 2).zipIdx (front.length + 2)).map (row " " width)

/-- The lines of the excerpt are the rows around the line of this number. -/
def ShowsLine (lines : List String) (line : Line) (excerpt : String) : Prop :=
  ∃ front shown behind, lines = front ++ shown :: behind ∧ (front.length : Int) + 1 = line ∧
    excerpt.toList.splitOn '\n' = (rows front shown behind).map String.toList

theorem rows_congr (front : List String) (shown : String) {behind behind' : List String}
    (h : behind.take 2 = behind'.take 2) : rows front shown behind = rows front shown behind' := by
  unfold rows
  rw [h]

theorem mapIdx_excerptLine (marked : Line) (width first : Nat) (texts : List String) :
    (texts.mapIdx fun i text => excerptLine marked width (first + i) text) =
      (texts.zipIdx first).map fun entry => excerptLine marked width entry.2 entry.1 := by
  induction texts generalizing first with
  | nil => rfl
  | cons text texts ih =>
    have hnext : (fun i text => excerptLine marked width (first + (i + 1)) text) =
        fun i text => excerptLine marked width (first + 1 + i) text := by
      funext i text
      rw [Nat.add_right_comm, Nat.add_assoc first]
    rw [List.mapIdx_cons, List.zipIdx_cons, List.map_cons, ← ih (first + 1), hnext, Nat.add_zero]

/-- Lines of other numbers are not marked. -/
theorem map_excerptLine {marked : Line} (width : Nat) {entries : List (String × Nat)}
    (h : ∀ entry ∈ entries, marked ≠ entry.2) :
    (entries.map fun entry => excerptLine marked width entry.2 entry.1) = entries.map (row " " width) :=
  List.map_congr_left fun entry he => by
    rw [excerptLine, if_neg (h entry he)]
    rfl

section Window

variable (front : List String) (shown : String) (behind : List String)

/-- The lines that an excerpt takes out of a text. -/
theorem window :
    ((front ++ shown :: behind).drop (front.length - 2)).take
        ((front.drop (front.length - 2)).length + 1 + (behind.take 2).length) =
      front.drop (front.length - 2) ++ shown :: behind.take 2 := by
  rw [List.drop_append_of_le_length (Nat.sub_le _ _), Nat.add_assoc, List.take_length_add_append, Nat.add_comm 1,
    List.take_succ_cons, List.length_take, ← List.take_eq_take_min]

/-- They become the rows of the excerpt. -/
theorem rows_eq :
    ((front.drop (front.length - 2) ++ shown :: behind.take 2).mapIdx fun i text =>
        excerptLine ((front.length : Int) + 1) (toString (front.length + 1 + (behind.take 2).length)).length
          (front.length - 2 + 1 + i) text) = rows front shown behind := by
  have hfront : ∀ entry ∈ (front.drop (front.length - 2)).zipIdx (front.length - 2 + 1),
      (front.length : Int) + 1 ≠ entry.2 := fun entry he => by
    have hlt := (List.mem_zipIdx he).2.1
    rw [List.length_drop] at hlt
    omega
  have hbehind : ∀ entry ∈ (behind.take 2).zipIdx (front.length + 2), (front.length : Int) + 1 ≠ entry.2 :=
    fun entry he => by
      have hle := (List.mem_zipIdx he).1
      omega
  have hnumber : front.length - 2 + 1 + (front.drop (front.length - 2)).length = front.length + 1 := by
    rw [List.length_drop]
    omega
  have hmark : ∀ width, excerptLine ((front.length : Int) + 1) width (front.length + 1) shown =
      row ">" width (shown, front.length + 1) := fun width => by
    rw [excerptLine, if_pos (Int.natCast_succ _).symm]
    rfl
  rw [mapIdx_excerptLine, List.zipIdx_append, List.map_append, List.zipIdx_cons, List.map_cons, hnumber,
    map_excerptLine _ hfront, map_excerptLine _ hbehind, hmark]
  rfl

variable {front shown behind}

theorem excerpt?_of_lines {source : String} (h : Text.lines source = front ++ shown :: behind) :
    excerpt? source ((front.length : Int) + 1) = some ("\n".intercalate (rows front shown behind)) := by
  have hlength : (Text.lines source).length = front.length + 1 + behind.length := by
    rw [h, List.length_append, List.length_cons, Nat.add_comm behind.length, Nat.add_assoc]
  have hline : ¬ ((front.length : Int) + 1 < 1 ∨ ((Text.lines source).length : Int) < (front.length : Int) + 1) := by
    omega
  have hfirst : max 1 ((front.length : Int) + 1 - (2 : Nat)).toNat = front.length - 2 + 1 := by omega
  have hlast : min (Text.lines source).length ((front.length : Int) + 1 + (2 : Nat)).toNat =
      front.length + 1 + (behind.take 2).length := by
    rw [List.length_take]
    omega
  have hcount : front.length + 1 + (behind.take 2).length + 1 - (front.length - 2 + 1) =
      (front.drop (front.length - 2)).length + 1 + (behind.take 2).length := by
    rw [List.length_drop]
    omega
  unfold excerpt? radius
  dsimp only
  rw [if_neg hline, hfirst, hlast, hcount, Nat.add_sub_cancel, h, window, rows_eq]

end Window

/-! ## The line in question -/

/-- Two texts with the same lines as far as an excerpt goes. -/
theorem exists_around {lines lines' : List String} {k : Nat} (hk : k < lines.length)
    (h : lines.take (k + 3) = lines'.take (k + 3)) :
    ∃ front shown behind behind', lines = front ++ shown :: behind ∧ lines' = front ++ shown :: behind' ∧
      front.length = k ∧ behind.take 2 = behind'.take 2 := by
  have hk' : k < lines'.length := by
    have hlengths := congrArg List.length h
    rw [List.length_take, List.length_take] at hlengths
    omega
  have hfront : lines.take k = lines'.take k := by
    have htake := congrArg (List.take k) h
    rwa [List.take_take, List.take_take, Nat.min_eq_left (Nat.le_add_right _ _)] at htake
  have hbehind : (lines.drop (k + 1)).take 2 = (lines'.drop (k + 1)).take 2 := by
    have hdrop := congrArg (List.drop (k + 1)) h
    rwa [List.drop_take, List.drop_take, show k + 3 - (k + 1) = 2 by omega] at hdrop
  have hshown : lines[k] = lines'[k] := by
    have hget := congrArg (·[k]?) h
    simpa [List.getElem?_take, hk, hk'] using hget
  refine ⟨lines.take k, lines[k], lines.drop (k + 1), lines'.drop (k + 1), ?_, ?_, ?_, hbehind⟩
  · rw [← List.drop_eq_getElem_cons hk, List.take_append_drop]
  · rw [hfront, hshown, ← List.drop_eq_getElem_cons hk', List.take_append_drop]
  · rw [List.length_take, Nat.min_eq_left hk.le]

/-- No row holds a line feed that its line does not hold. -/
theorem not_mem_row {mark : String} (hm : '\n' ∉ mark.toList) (width : Nat) {entry : String × Nat}
    (h : '\n' ∉ entry.1.toList) : '\n' ∉ (row mark width entry).toList := by
  have hdigits : '\n' ∉ Nat.toDigits 10 entry.2 := fun hn => by
    have hdigit := Nat.isDigit_of_mem_toDigits (by decide) (by decide) hn
    revert hdigit
    decide
  simp [row, padLeft, hm, hdigits, h]

theorem not_mem_rows {front : List String} {shown : String} {behind : List String}
    (h : ∀ line ∈ front ++ shown :: behind, '\n' ∉ line.toList) : ∀ r ∈ rows front shown behind, '\n' ∉ r.toList := by
  intro r hr
  rcases List.mem_append.mp hr with hr | hr
  · obtain ⟨entry, he, rfl⟩ := List.mem_map.mp hr
    have hline := List.drop_subset _ _ (List.fst_mem_of_mem_zipIdx he)
    exact not_mem_row (by decide) _ (h _ (List.mem_append_left _ hline))
  · rcases List.mem_cons.mp hr with rfl | hr
    · exact not_mem_row (by decide) _ (h _ (List.mem_append_right _ List.mem_cons_self))
    · obtain ⟨entry, he, rfl⟩ := List.mem_map.mp hr
      have hline := List.take_subset _ _ (List.fst_mem_of_mem_zipIdx he)
      exact not_mem_row (by decide) _ (h _ (List.mem_append_right _ (List.mem_cons_of_mem _ hline)))

theorem showsLine_of_excerpt {source : String} {line : Int} {excerpt : String} (h : excerpt? source line = some excerpt)
    (he : Text.EndsCounted source (line + 2)) : ShowsLine (Text.counted source) line excerpt := by
  have hline : (1 : Int) ≤ line ∧ line ≤ ((Text.lines source).length : Int) := by
    unfold excerpt? at h
    dsimp only at h
    split at h
    · cases h
    · next hline =>
      rw [not_or] at hline
      exact ⟨Int.not_lt.mp hline.1, Int.not_lt.mp hline.2⟩
  obtain ⟨k, rfl⟩ : ∃ k : Nat, line = (k : Int) + 1 := ⟨(line - 1).toNat, by omega⟩
  have htake : (Text.lines source).take (k + 3) = (Text.counted source).take (k + 3) := Text.take_lines he
  obtain ⟨front, shown, behind, behind', hlines, hcounted, rfl, hbehind⟩ := exists_around (by omega) htake
  rw [excerpt?_of_lines hlines, Option.some.injEq, rows_congr front shown hbehind] at h
  refine ⟨front, shown, behind', hcounted, rfl, ?_⟩
  have hfree : ∀ r ∈ rows front shown behind', '\n' ∉ r.toList :=
    not_mem_rows fun l hl => Text.not_mem_counted (hcounted ▸ hl)
  have hpieces : ∀ piece ∈ (rows front shown behind').map String.toList, '\n' ∉ piece := fun piece hp => by
    obtain ⟨r, hr, rfl⟩ := List.mem_map.mp hp
    exact hfree r hr
  have hne : (rows front shown behind').map String.toList ≠ [] := by simp [rows]
  rw [← h, String.toList_intercalate]
  exact List.splitOn_intercalate '\n' hpieces hne

/-- A text without an excerpt has no such line. -/
theorem length_lt_of_no_excerpt {source : String} {line : Int} (h : excerpt? source line = none)
    (he : Text.EndsCounted source (line + 2)) : line < 1 ∨ ((Text.counted source).length : Int) < line := by
  have hline : line < 1 ∨ ((Text.lines source).length : Int) < line := by
    unfold excerpt? at h
    dsimp only at h
    split at h
    · next hline => exact hline
    · cases h
  have hlengths := congrArg List.length (Text.take_lines he)
  rw [List.length_take, List.length_take] at hlengths
  change min (line + 2).toNat _ = min (line + 2).toNat _ at hlengths
  omega

/-! ## Reports -/

/-- A diagnostic without its excerpt. -/
def headline (d : Diagnostic) : String :=
  d.phase.label ++ ": " ++ d.message ++ " (line " ++ toString d.line ++ ")"

theorem located_eq (source : String) (d : Diagnostic) :
    located source d = match excerpt? source d.line with
      | some excerpt => headline d ++ "\n" ++ excerpt
      | none => headline d := rfl

end Report

/-- The message of a failed run shows all its diagnostics. -/
theorem Session.message_of_run {s : Session} {fuel : Nat} {source : String} {r : RunResult}
    (h : (s.runWith fuel source).1 = .ok r) {message : String} (hm : r.message? = some message) :
    ∃ calls, message = Report.message source r.diagnostics calls := by
  have hrecounts : s.Recounts ⟨fuel, source⟩ r := by
    cases hc : checked? source with
    | none => exact recounts_of_rejected (r := ⟨fuel, source⟩) h hc
    | some steps => exact recounts_of_checked (r := ⟨fuel, source⟩) h hc
  obtain ⟨outcome, effects⟩ := r
  cases outcome with
  | success v => cases hm
  | failure first others text =>
    have hshows := hrecounts.2
    exact ⟨_, Option.some.inj (hm.symm.trans hshows)⟩

/-- In the message of a failed run every diagnostic stands with its line, and with an excerpt if there is such a line.
As long as the lines up to the second one behind it hold no other line end than a line feed at their ends, or a carriage
return and a line feed, the excerpt shows what the scanner counts as that line, marked, between its neighbours. -/
theorem excerpts_show_counted_lines {s : Session} {fuel : Nat} {source : String} {r : RunResult}
    (h : (s.runWith fuel source).1 = .ok r) :
    (∀ message, r.message? = some message → ∃ calls, message = Report.message source r.diagnostics calls) ∧
      ∀ d ∈ r.diagnostics,
        Report.located source d = Report.headline d ∧
            (Text.EndsCounted source (d.line + 2) → d.line < 1 ∨ (Text.counted source).length < d.line) ∨
          ∃ excerpt, Report.located source d = Report.headline d ++ "\n" ++ excerpt ∧
            (Text.EndsCounted source (d.line + 2) → Report.ShowsLine (Text.counted source) d.line excerpt) := by
  refine ⟨fun message hm => Session.message_of_run h hm, fun d _ => ?_⟩
  rw [Report.located_eq]
  cases he : Report.excerpt? source d.line with
  | none => exact .inl ⟨rfl, Report.length_lt_of_no_excerpt he⟩
  | some excerpt => exact .inr ⟨excerpt, rfl, Report.showsLine_of_excerpt he⟩

/-- A text whose third line fails; it holds both ends of lines that are counted. -/
def thirdLineText : String := "let a = true;\r\n// note\nprint missing;\r\n\n// end"

theorem thirdLineText_shown :
    ∃ r, ((Session.start {}).runWith 20 thirdLineText).1 = .ok r ∧
      ∃ d ∈ r.diagnostics, ∃ excerpt, Report.located thirdLineText d = Report.headline d ++ "\n" ++ excerpt ∧
        Report.ShowsLine (Text.counted thirdLineText) 3 excerpt := by
  have hrun : ∃ r, ((Session.start {}).runWith 20 thirdLineText).1 = .ok r ∧
      r.diagnostics = [⟨.runtime, 3, "Variable missing not found in scope"⟩] := exists_ok_of_any (by decide +kernel)
  obtain ⟨r, hr, hdiagnostics⟩ := hrun
  have hd : ⟨.runtime, 3, "Variable missing not found in scope"⟩ ∈ r.diagnostics :=
    hdiagnostics ▸ List.mem_singleton_self _
  have hends : Text.EndsCounted thirdLineText (3 + 2) := by decide +kernel
  refine ⟨r, hr, _, hd, ?_⟩
  rcases (excerpts_show_counted_lines hr).2 _ hd with ⟨-, hnone⟩ | ⟨excerpt, hlocated, hshows⟩
  · have hexists : ¬ ((3 : Line) < 1 ∨ ((Text.counted thirdLineText).length : Line) < 3) := by decide +kernel
    exact absurd (hnone hends) hexists
  · exact ⟨excerpt, hlocated, hshows hends⟩

/-- A text with a form feed in a comment. -/
def formFeedText : String := "// a\x0cb\nprint missing;"

/-- The failure stands on the second line; the report takes the rest of the comment for it. -/
theorem form_feed_shifts_excerpt :
    (∃ r, ((Session.start {}).runWith 20 formFeedText).1 = .ok r ∧
      r.diagnostics = [⟨.runtime, 2, "Variable missing not found in scope"⟩]) ∧
    Text.counted formFeedText = ["// a\x0cb", "print missing;"] ∧
    Report.excerpt? formFeedText 2 = some "  1 | // a\n> 2 | b\n  3 | print missing;" ∧
    ¬ Report.ShowsLine (Text.counted formFeedText) 2 "  1 | // a\n> 2 | b\n  3 | print missing;" := by
  have hcounted : Text.counted formFeedText = ["// a\x0cb", "print missing;"] := by decide +kernel
  refine ⟨exists_ok_of_any (by decide +kernel), hcounted, by decide +kernel, ?_⟩
  rintro ⟨front, shown, behind, hlines, hnumber, hrows⟩
  rw [hcounted] at hlines
  obtain ⟨first, rfl⟩ : ∃ first, front = [first] := List.length_eq_one_iff.mp (by omega)
  obtain ⟨rfl, rfl, rfl⟩ : "// a\x0cb" = first ∧ "print missing;" = shown ∧ [] = behind := by simpa using hlines
  revert hrows
  decide +kernel

end LoxLang
