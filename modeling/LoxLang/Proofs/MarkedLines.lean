import LoxLang.Proofs.Excerpts

/-!
# Whose line is marked

A function keeps the lines of the text that defined it, but a report cuts its excerpt out of the text that is running.
So the marked line is the running text's line of that number, and the defining text's only where both have the same line
there (`excerpts_mark_running_text`): a function that an earlier text defined fails under a line that has nothing to do
with it (`earlier_function_marks_other_line`).
-/

namespace LoxLang

/-! ## Texts with line feeds only -/

namespace Text

/-- Line feeds are the only line ends in the text. -/
def OnlyLineFeeds (source : String) : Prop := ∀ c ∈ source.toList, isLineEnd c = true → c = '\n'

instance (source : String) : Decidable (OnlyLineFeeds source) :=
  decidable_of_iff (source.toList.all fun c => !isLineEnd c || c == '\n') (by
    simp [OnlyLineFeeds, or_iff_not_imp_left])

/-- The line of this number, as line feeds count. -/
def line? (source : String) (line : Line) : Option String :=
  if line < 1 then none else (counted source)[(line - 1).toNat]?

theorem subset_of_mem_splitOn (mark : Char) : ∀ {text piece : List Char}, piece ∈ text.splitOn mark → piece ⊆ text
  | [], piece, h => by
    rw [List.splitOn_nil, List.mem_singleton] at h
    rw [h]
    exact List.nil_subset _
  | c :: text, piece, h => by
    obtain ⟨first, pieces, hsplit⟩ := List.exists_cons_of_ne_nil (List.splitOn_ne_nil mark text)
    have hrest : ∀ p ∈ first :: pieces, p ⊆ text := fun p hp => subset_of_mem_splitOn mark (hsplit ▸ hp)
    rw [List.splitOn_cons_eq_if_modifyHead, hsplit] at h
    split at h
    · obtain rfl | h := List.mem_cons.mp h
      · exact List.nil_subset _
      · exact List.subset_cons_of_subset c (hrest piece h)
    · rw [List.modifyHead_cons] at h
      obtain rfl | h := List.mem_cons.mp h
      · exact List.cons_subset_cons c (hrest first List.mem_cons_self)
      · exact List.subset_cons_of_subset c (hrest piece (List.mem_cons_of_mem _ h))

/-- Then a report counts the lines as the scanner does. -/
theorem OnlyLineFeeds.endsCounted {source : String} (h : OnlyLineFeeds source) (n : Line) : EndsCounted source n := by
  intro line hline c hc
  have hcounted := List.take_subset _ _ hline
  have hfeed : '\n' ∉ withoutReturn line := by
    have hline := not_mem_counted (List.mem_map_of_mem (f := fun l => String.ofList (withoutReturn l)) hcounted)
    rwa [String.toList_ofList] at hline
  have hpiece : line ∈ source.toList.splitOn '\n' := by
    unfold countedChars at hcounted
    dsimp only at hcounted
    split at hcounted
    · exact List.dropLast_subset _ hcounted
    · exact hcounted
  have hsub : withoutReturn line ⊆ line := by
    unfold withoutReturn
    split
    · exact List.dropLast_subset _
    · exact fun _ hd => hd
  by_contra hend
  rw [Bool.not_eq_false] at hend
  exact hfeed (h c (subset_of_mem_splitOn '\n' hpiece (hsub hc)) hend ▸ hc)

end Text

/-! ## The marked row -/

namespace Report

/-- The rows of an excerpt that are marked. -/
def markedRows (excerpt : String) : List (List Char) := (excerpt.toList.splitOn '\n').filter (·.head? == some '>')

/-- One row of the excerpt is marked, and it shows this text as the line of this number. -/
def Marks (excerpt : String) (line : Line) (text : String) : Prop :=
  ∃ width, markedRows excerpt = [(row ">" width (text, line.toNat)).toList]

theorem head?_row (mark : Char) (width : Nat) (entry : String × Nat) :
    (row (String.singleton mark) width entry).toList.head? = some mark := by
  simp [row]

/-- Behind the mark and the spaces stand the number and the text. -/
theorem dropWhile_row (mark : Char) (width : Nat) (text : String) (number : Nat) :
    ((row (String.singleton mark) width (text, number)).toList.drop 1).dropWhile (· == ' ') =
      (toString number).toList ++ " | ".toList ++ text.toList := by
  obtain ⟨c, digits, hdigits⟩ := List.exists_cons_of_ne_nil (Nat.toDigits_ne_nil (n := number) (b := 10))
  have hc : c ≠ ' ' := fun hspace => by
    have hdigit :=
      Nat.isDigit_of_mem_toDigits (by decide) (by decide) (hdigits ▸ List.mem_cons_self : c ∈ Nat.toDigits 10 number)
    rw [hspace] at hdigit
    revert hdigit
    decide
  simp [row, padLeft, hdigits, hc]

/-- A row shows one text only. -/
theorem row_inj {width width' number : Nat} {text text' : String}
    (h : (row ">" width (text, number)).toList = (row ">" width' (text', number)).toList) : text = text' := by
  have hbehind : (toString number).toList ++ " | ".toList ++ text.toList =
      (toString number).toList ++ " | ".toList ++ text'.toList := by
    rw [← dropWhile_row '>' width, ← dropWhile_row '>' width']
    exact congrArg (fun chars => (chars.drop 1).dropWhile (· == ' ')) h
  exact String.toList_inj.mp (List.append_cancel_left hbehind)

theorem Marks.unique {excerpt : String} {line : Line} {text text' : String} (h : Marks excerpt line text)
    (h' : Marks excerpt line text') : text = text' := by
  obtain ⟨width, h⟩ := h
  obtain ⟨width', h'⟩ := h'
  exact row_inj (List.singleton_inj.mp (h.symm.trans h'))

/-- The line that an excerpt shows is the one that it marks. -/
theorem ShowsLine.marks {source : String} {line : Line} {excerpt : String}
    (h : ShowsLine (Text.counted source) line excerpt) :
    ∃ shown, Text.line? source line = some shown ∧ Marks excerpt line shown := by
  obtain ⟨front, shown, behind, hlines, rfl, hrows⟩ := h
  have hunmarked : ∀ width (entries : List (String × Nat)),
      ((entries.map (row " " width)).map String.toList).filter (·.head? == some '>') = [] := fun width entries => by
    rw [List.filter_eq_nil_iff, List.map_map]
    intro r hr
    obtain ⟨entry, -, rfl⟩ := List.mem_map.mp hr
    rw [Function.comp_apply, show row " " width entry = row (String.singleton ' ') width entry from rfl, head?_row]
    decide
  have hmarked : ∀ width, ((row ">" width (shown, front.length + 1)).toList.head? == some '>') = true := fun width => by
    rw [show row ">" width (shown, front.length + 1) = row (String.singleton '>') width _ from rfl, head?_row]
    rfl
  have hpositive : ¬ (front.length : Int) + 1 < 1 := by omega
  have hindex : ((front.length : Int) + 1 - 1).toNat = front.length := by omega
  refine ⟨shown, ?_, (toString (front.length + 1 + (behind.take 2).length)).length, ?_⟩
  · rw [Text.line?, if_neg hpositive, hlines, hindex]
    simp
  · rw [markedRows, hrows, rows, List.map_append, List.filter_append, hunmarked, List.nil_append, List.map_cons,
      List.filter_cons_of_pos (p := fun chars : List Char => chars.head? == some '>') (hmarked _), hunmarked,
      Int.toNat_natCast_add_one]

end Report

/-! ## Reports -/

/-- In the message of a failed run a diagnostic stands without an excerpt if the running text has no line of its number;
else one row of its excerpt is marked, and that is the running text's line. So whichever text the failing node is from,
its line is marked exactly if the running text has the same line there. -/
theorem excerpts_mark_running_text {s : Session} {fuel : Nat} {source : String} {r : RunResult}
    (h : (s.runWith fuel source).1 = .ok r) (hs : Text.OnlyLineFeeds source) :
    (∀ message, r.message? = some message → ∃ calls, message = Report.message source r.diagnostics calls) ∧
      ∀ d ∈ r.diagnostics,
        Report.located source d = Report.headline d ∧ Text.line? source d.line = none ∨
          ∃ excerpt shown, Report.located source d = Report.headline d ++ "\n" ++ excerpt ∧
            Text.line? source d.line = some shown ∧ Report.Marks excerpt d.line shown ∧
            ∀ defining text, Text.line? defining d.line = some text →
              (Report.Marks excerpt d.line text ↔ Text.line? source d.line = Text.line? defining d.line) := by
  refine ⟨fun message hm => Session.message_of_run h hm, fun d _ => ?_⟩
  have hends := hs.endsCounted (d.line + 2)
  rw [Report.located_eq]
  cases he : Report.excerpt? source d.line with
  | none =>
    refine .inl ⟨rfl, ?_⟩
    unfold Text.line?
    split
    · rfl
    · next hpositive =>
      obtain hlt | hlt := Report.length_lt_of_no_excerpt he hends
      · exact absurd hlt hpositive
      · exact List.getElem?_eq_none (by omega)
  | some excerpt =>
    obtain ⟨shown, hline, hmarks⟩ := (Report.showsLine_of_excerpt he hends).marks
    refine .inr ⟨excerpt, shown, rfl, hline, hmarks, fun defining text ht => ?_⟩
    rw [hline, ht, Option.some.injEq]
    exact ⟨fun hmarks' => hmarks.unique hmarks', fun heq => heq ▸ hmarks⟩

/-- A text that defines a function; the function fails on the second line. -/
def definingText : String := "fun f() \x7b\n print missing;\n\x7d"

/-- A text that calls the function, with another second line. -/
def callingText : String := "// a\n// b\nf();"

theorem callingText_marked :
    ∃ r, (((Session.start {}).after ⟨20, definingText⟩).runWith 20 callingText).1 = .ok r ∧
      ∃ d ∈ r.diagnostics, ∃ excerpt, Report.located callingText d = Report.headline d ++ "\n" ++ excerpt ∧
        Report.Marks excerpt 2 "// b" ∧
        (Report.Marks excerpt 2 " print missing;" ↔ Text.line? callingText 2 = Text.line? definingText 2) := by
  have hrun : ∃ r, (((Session.start {}).after ⟨20, definingText⟩).runWith 20 callingText).1 =
      .ok r ∧ r.diagnostics = [⟨.runtime, 2, "Variable missing not found in scope"⟩] :=
  exists_ok_of_any (by decide +kernel)
  obtain ⟨r, hr, hdiagnostics⟩ := hrun
  have hd : ⟨.runtime, 2, "Variable missing not found in scope"⟩ ∈ r.diagnostics :=
    hdiagnostics ▸ List.mem_singleton_self _
  have hline : Text.line? callingText 2 = some "// b" := by decide +kernel
  have hdefining : Text.line? definingText 2 = some " print missing;" := by decide +kernel
  have hfeeds : Text.OnlyLineFeeds callingText := by decide +kernel
  refine ⟨r, hr, _, hd, ?_⟩
  rcases (excerpts_mark_running_text hr hfeeds).2 _ hd with
    ⟨-, hnone⟩ | ⟨excerpt, shown, hlocated, hshown, hmarks, hothers⟩
  · cases hline.symm.trans hnone
  · obtain rfl : "// b" = shown := Option.some.inj (hline.symm.trans hshown)
    exact ⟨excerpt, hlocated, hmarks, hothers definingText _ hdefining⟩

/-- The failing node stands on the second line of the text that defined it, but the second line of the calling text is
marked. -/
theorem earlier_function_marks_other_line :
    checked? definingText = some [.function "f" [] (.block [.print (.var "missing" 2 none) 2] 1) 1] ∧
    ∃ r, (((Session.start {}).after ⟨20, definingText⟩).runWith 20 callingText).1 = .ok r ∧
      ∃ d ∈ r.diagnostics, d = ⟨.runtime, 2, "Variable missing not found in scope"⟩ ∧
        Text.line? definingText 2 = some " print missing;" ∧
        ∃ excerpt, Report.located callingText d = Report.headline d ++ "\n" ++ excerpt ∧
          Report.Marks excerpt 2 "// b" ∧ ¬ Report.Marks excerpt 2 " print missing;" := by
  have hrun : ∃ r, (((Session.start {}).after ⟨20, definingText⟩).runWith 20 callingText).1 =
      .ok r ∧ r.diagnostics = [⟨.runtime, 2, "Variable missing not found in scope"⟩] :=
  exists_ok_of_any (by decide +kernel)
  obtain ⟨r, hr, hdiagnostics⟩ := hrun
  have hmarks : Report.Marks "  1 | // a\n> 2 | // b\n  3 | f();" 2 "// b" := ⟨1, by decide +kernel⟩
  refine ⟨by cbv, r, hr, _, hdiagnostics ▸ List.mem_singleton_self _, rfl, by decide +kernel,
    "  1 | // a\n> 2 | // b\n  3 | f();", by decide +kernel, hmarks, fun hother => ?_⟩
  exact absurd (hmarks.unique hother) (by decide)

end LoxLang
