import LoxLang.Proofs.Lexemes

/-!
# S-expressions as texts

An S-expression is a word, a text between quotes, or a list of S-expressions between parentheses, some of them on lines
of their own; a block is nothing but such lines between braces. A quoted text may hold any character but the quote, line
feeds and parentheses among them. Even so the text of an S-expression tells which one it is, and where it ends
(`IsGood.told`): every S-expression starts with a character that stands neither behind one nor in a margin.
-/

namespace LoxLang

inductive Sexp
  | word (s : String)
  | quoted (s : String)
  /-- What stands on the line of the opening parenthesis, and on the lines below it. -/
  | list (front lines : List Sexp)
  | braces (lines : List Sexp)

namespace Sexp

/-! ## Texts -/

/-- What stands in front of a line at a nesting level. -/
def newLine (width : Nat) (level : Int) : List Char := '\n' :: (Value.margin width level).toList

/-- What ends a block at a nesting level. -/
def closing (width : Nat) (level : Int) (empty : Bool) : List Char :=
  if empty then ['\x7d'] else newLine width level ++ ['\x7d']

mutual

def chars (width : Nat) (level : Int) : Sexp → List Char
  | word s => s.toList
  | quoted s => '"' :: (s.toList ++ ['"'])
  | list front lines =>
    '(' :: (row width level front ++ (led width (level + 1) (newLine width (level + 1)) lines ++ [')']))
  | braces lines =>
    '\x7b' :: (led width (level + 1) (newLine width (level + 1)) lines ++ closing width level lines.isEmpty)

/-- The texts with a space between any two of them. -/
def row (width : Nat) (level : Int) : List Sexp → List Char
  | [] => []
  | s :: ss => chars width level s ++ led width level [' '] ss

/-- The texts with the same characters in front of each. -/
def led (width : Nat) (level : Int) (lead : List Char) : List Sexp → List Char
  | [] => []
  | s :: ss => lead ++ (chars width level s ++ led width level lead ss)

end

/-! ## Well-formed S-expressions -/

/-- The characters that no word holds. -/
def marks : List Char := [' ', '\n', '(', ')', '"', '\x7b', '\x7d']

/-- No word is empty or holds a mark, and no text between quotes holds a quote. -/
inductive IsGood : Sexp → Prop
  | word {s : String} : s.toList ≠ [] → (∀ c ∈ s.toList, c ∉ marks) → IsGood (word s)
  | quoted {s : String} : '"' ∉ s.toList → IsGood (quoted s)
  | list {front lines : List Sexp} : (∀ s ∈ front, IsGood s) → (∀ s ∈ lines, IsGood s) → IsGood (list front lines)
  | braces {lines : List Sexp} : (∀ s ∈ lines, IsGood s) → IsGood (braces lines)

/-! ## Where texts end -/

/-- What may stand behind an S-expression: a space, a line feed, a bracket that is closed, or nothing. -/
def Ends (cs : List Char) : Prop := ∀ c, cs.head? = some c → c ∈ [' ', '\n', ')', '\x7d']

/-- No S-expression starts behind the lead. -/
def Stops (lead cs : List Char) : Prop := ∀ c rest, cs = lead ++ c :: rest → c ∈ [' ', '\n', ')', '\x7d']

theorem ends_nil : Ends [] := fun _ h => by cases h

theorem stops_nil (lead : List Char) : Stops lead [] := fun _ _ h => by simp at h

theorem ends_cons {e : Char} (he : e ∈ [' ', '\n', ')', '\x7d']) (r : List Char) : Ends (e :: r) := by
  rintro _ ⟨⟩
  exact he

theorem stops_cons {d e : Char} (hne : d ≠ e) (pad r : List Char) : Stops (d :: pad) (e :: r) := fun _ _ h =>
  absurd (List.cons.inj h).1.symm hne

/-- How an S-expression starts. -/
def Opens (c : Char) : Sexp → Prop
  | word _ => c ∉ marks
  | quoted _ => c = '"'
  | list .. => c = '('
  | braces _ => c = '\x7b'

theorem ends_marks : ∀ c ∈ [' ', '\n', ')', '\x7d'], c ∈ marks := by simp [marks]

theorem Opens.notMem {c : Char} {s : Sexp} (h : s.Opens c) : c ∉ [' ', '\n', ')', '\x7d'] := by
  cases s with
  | word => exact fun hc => h (ends_marks c hc)
  | quoted | list | braces =>
    cases h
    decide

theorem IsGood.exists_opens {s : Sexp} (h : IsGood s) (width : Nat) (level : Int) :
    ∃ c rest, s.chars width level = c :: rest ∧ s.Opens c := by
  cases h with
  | @word s hne hs =>
    obtain ⟨c, rest, heq⟩ := List.exists_cons_of_ne_nil hne
    exact ⟨c, rest, by rw [chars, heq], hs c (heq ▸ List.mem_cons_self)⟩
  | quoted | list | braces => exact ⟨_, _, by rw [chars], rfl⟩

theorem IsGood.cons_ne_chars {s : Sexp} (h : IsGood s) {e : Char} (he : e ∈ [' ', '\n', ')', '\x7d']) {width : Nat}
    {level : Int} (x y : List Char) : e :: x ≠ s.chars width level ++ y := by
  obtain ⟨c, rest, heq, hc⟩ := h.exists_opens width level
  rw [heq]
  intro hcons
  obtain rfl := (List.cons.inj hcons).1
  exact hc.notMem he

theorem Ends.marked {r : List Char} (hr : Ends r) : ∀ c, r.head? = some c → ¬ c ∉ marks := fun c hc =>
  not_not_intro (ends_marks c (hr c hc))

variable {width : Nat} {level : Int}

/-- Behind a margin and a brace that is closed, on whatever level, no line starts. -/
theorem stops_newLine (level level' : Int) (r : List Char) :
    Stops (newLine width level') (newLine width level ++ '\x7d' :: r) := by
  intro c rest h
  have heq := (List.cons.inj h).2
  simp only [Value.margin, String.toList_ofList] at heq
  by_cases hc : c = ' '
  · rw [hc]
    exact List.mem_cons_self
  · have hspace : ∀ n, ∀ d ∈ List.replicate n ' ', d = ' ' := fun _ _ hd => List.eq_of_mem_replicate hd
    have hclosed := (append_unique (hspace _) (hspace _) (fun _ h => by cases h; decide)
      (fun _ h => by cases h; exact hc) heq).2
    obtain ⟨rfl, -⟩ := List.cons.inj hclosed
    decide

/-- The text of the S-expression tells it, and where it ends. -/
def Told (s : Sexp) : Prop :=
  ∀ {width : Nat} {level : Int} {s' : Sexp} {r r' : List Char}, IsGood s' → Ends r → Ends r' →
    s.chars width level ++ r = s'.chars width level ++ r' → s = s' ∧ r = r'

theorem ends_led {lead : List Char} {d : Char} {pad : List Char} (hlead : lead = d :: pad) (hd : d ∈ [' ', '\n'])
    (ss : List Sexp) {x : List Char} (hx : Ends x) : Ends (led width level lead ss ++ x) := by
  cases ss with
  | nil => exact hx
  | cons s ss =>
    rintro c hc
    rw [led, hlead] at hc
    cases hc
    exact List.mem_append_left [')', '\x7d'] hd

/-- S-expressions with the same characters in front of each are told by their text, and so is where they end. -/
theorem led_unique {lead : List Char} {d : Char} {pad : List Char} (hlead : lead = d :: pad) (hd : d ∈ [' ', '\n'])
    {x x' : List Char} (hx : Ends x) (hx' : Ends x') (hstop : Stops lead x) (hstop' : Stops lead x') {ss : List Sexp}
    (hss : ∀ s ∈ ss, IsGood s ∧ s.Told) : ∀ {ss' : List Sexp}, (∀ s ∈ ss', IsGood s) →
      led width level lead ss ++ x = led width level lead ss' ++ x' → ss = ss' ∧ x = x' := by
  induction ss with
  | nil =>
    intro ss' hss' h
    cases ss' with
    | nil => exact ⟨rfl, h⟩
    | cons s' ss' =>
      obtain ⟨c, rest, heq, hc⟩ := (hss' s' List.mem_cons_self).exists_opens width level
      rw [led, led, heq, List.nil_append] at h
      exact absurd (hstop c _ (by simpa using h)) hc.notMem
  | cons s ss ih =>
    intro ss' hss' h
    cases ss' with
    | nil =>
      obtain ⟨c, rest, heq, hc⟩ := (hss s List.mem_cons_self).1.exists_opens width level
      rw [led, led, heq, List.nil_append] at h
      exact absurd (hstop' c _ (by simpa using h.symm)) hc.notMem
    | cons s' ss' =>
      rw [led, led, List.append_assoc, List.append_assoc, List.append_assoc, List.append_assoc] at h
      obtain ⟨rfl, hrest⟩ := (hss s List.mem_cons_self).2 (hss' s' List.mem_cons_self) (ends_led hlead hd ss hx)
        (ends_led hlead hd ss' hx') (List.append_cancel_left h)
      obtain ⟨rfl, rfl⟩ := ih (fun s hs => hss s (List.mem_cons_of_mem _ hs))
        (fun s hs => hss' s (List.mem_cons_of_mem _ hs)) hrest
      exact ⟨rfl, rfl⟩

/-- What stands behind the front of a list. -/
def rowEnds : List Char := ['\n', ')']

theorem ends_rowEnds : ∀ e ∈ rowEnds, e ∈ [' ', '\n', ')', '\x7d'] := by simp [rowEnds]

theorem space_ne_rowEnds : ∀ e ∈ rowEnds, ' ' ≠ e := by simp [rowEnds]

/-- S-expressions with spaces between them are told by their text if the line or the list ends behind them. -/
theorem row_unique {e e' : Char} {r r' : List Char} (he : e ∈ rowEnds) (he' : e' ∈ rowEnds)
    {ss ss' : List Sexp} (hss : ∀ s ∈ ss, IsGood s ∧ s.Told) (hss' : ∀ s ∈ ss', IsGood s)
    (h : row width level ss ++ e :: r = row width level ss' ++ e' :: r') : ss = ss' ∧ e :: r = e' :: r' := by
  cases ss with
  | nil =>
    cases ss' with
    | nil => exact ⟨rfl, h⟩
    | cons s' ss' =>
      rw [row, row, List.nil_append, List.append_assoc] at h
      exact absurd h ((hss' s' List.mem_cons_self).cons_ne_chars (ends_rowEnds e he) _ _)
  | cons s ss =>
    cases ss' with
    | nil =>
      rw [row, row, List.nil_append, List.append_assoc] at h
      exact absurd h.symm ((hss s List.mem_cons_self).1.cons_ne_chars (ends_rowEnds e' he') _ _)
    | cons s' ss' =>
      rw [row, row, List.append_assoc, List.append_assoc] at h
      have hends := ends_cons (ends_rowEnds e he) r
      have hends' := ends_cons (ends_rowEnds e' he') r'
      obtain ⟨rfl, hrest⟩ := (hss s List.mem_cons_self).2 (hss' s' List.mem_cons_self)
        (ends_led rfl List.mem_cons_self ss hends) (ends_led rfl List.mem_cons_self ss' hends') h
      obtain ⟨rfl, hx⟩ := led_unique rfl List.mem_cons_self hends hends' (stops_cons (space_ne_rowEnds e he) [] r)
        (stops_cons (space_ne_rowEnds e' he') [] r') (fun s hs => hss s (List.mem_cons_of_mem _ hs))
        (fun s hs => hss' s (List.mem_cons_of_mem _ hs)) hrest
      exact ⟨rfl, hx⟩

/-- Texts that are the same start in the same way. -/
theorem opens_of_append {s s' : Sexp} (h : IsGood s) (h' : IsGood s') {r r' : List Char}
    (heq : s.chars width level ++ r = s'.chars width level ++ r') : ∃ c, s.Opens c ∧ s'.Opens c := by
  obtain ⟨c, rest, hs, hc⟩ := h.exists_opens width level
  obtain ⟨c', rest', hs', hc'⟩ := h'.exists_opens width level
  rw [hs, hs'] at heq
  obtain rfl := (List.cons.inj heq).1
  exact ⟨c, hc, hc'⟩

/-- S-expressions that start with one character are of one kind. -/
inductive Kindred : Sexp → Sexp → Prop
  | word {s s'} : Kindred (word s) (word s')
  | quoted {s s'} : Kindred (quoted s) (quoted s')
  | list {front lines front' lines'} : Kindred (list front lines) (list front' lines')
  | braces {lines lines'} : Kindred (braces lines) (braces lines')

theorem Opens.kindred {s s' : Sexp} {c : Char} (h : s.Opens c) (h' : s'.Opens c) : Kindred s s' := by
  cases s <;> cases s' <;> first
    | constructor
    | (exfalso; simp_all [Opens, marks])

/-- The lines of a list or a block are told by the text if what stands behind them starts no line. -/
theorem lines_unique {level' : Int} {x x' : List Char} (hx : Ends x) (hx' : Ends x')
    (hstop : Stops (newLine width level') x) (hstop' : Stops (newLine width level') x') {ss ss' : List Sexp}
    (hss : ∀ s ∈ ss, IsGood s ∧ s.Told) (hss' : ∀ s ∈ ss', IsGood s)
    (h : led width level (newLine width level') ss ++ x = led width level (newLine width level') ss' ++ x') :
    ss = ss' ∧ x = x' := led_unique rfl (by decide) hx hx' hstop hstop' hss hss' h

theorem told_word {s : String} (hne : s.toList ≠ []) (hs : ∀ c ∈ s.toList, c ∉ marks) : (word s).Told := by
  intro width level s' r r' h' hr hr' heq
  obtain ⟨c, hc, hc'⟩ := opens_of_append (.word hne hs) h' heq
  cases hc.kindred hc' with
  | word =>
    cases h' with
    | word _ hs' =>
      rw [chars, chars] at heq
      obtain ⟨hsame, hrest⟩ := append_unique hs hs' hr.marked hr'.marked heq
      exact ⟨congrArg Sexp.word (String.toList_inj.mp hsame), hrest⟩

theorem told_quoted {s : String} (hs : '"' ∉ s.toList) : (quoted s).Told := by
  intro width level s' r r' h' hr hr' heq
  obtain ⟨c, hc, hc'⟩ := opens_of_append (.quoted hs) h' heq
  cases hc.kindred hc' with
  | quoted =>
    cases h' with
    | quoted hs' =>
      have unquoted {s : String} (hs : '"' ∉ s.toList) : ∀ c ∈ s.toList, c ≠ '"' := fun c hc heq => hs (heq ▸ hc)
      have quote (r : List Char) : ∀ c, ('"' :: r).head? = some c → ¬ c ≠ '"' := by
        intro c hc
        cases hc
        exact not_not_intro rfl
      rw [chars, chars, List.cons_append, List.cons_append, List.append_assoc, List.append_assoc] at heq
      obtain ⟨hsame, hrest⟩ := append_unique (unquoted hs) (unquoted hs') (quote r) (quote r') (List.cons.inj heq).2
      exact ⟨congrArg Sexp.quoted (String.toList_inj.mp hsame), (List.cons.inj hrest).2⟩

/-- Behind the front of a list stands the line feed of the first line below it, or the parenthesis that closes it. -/
theorem exists_rowEnd (width : Nat) (level level' : Int) (lines : List Sexp) (r : List Char) :
    ∃ e rest, e ∈ rowEnds ∧ led width level (newLine width level') lines ++ ')' :: r = e :: rest := by
  cases lines with
  | nil => exact ⟨')', r, by decide, rfl⟩
  | cons => exact ⟨'\n', _, by decide, by rw [led, newLine]; rfl⟩

theorem told_list {front lines : List Sexp} (hfront : ∀ s ∈ front, IsGood s ∧ s.Told)
    (hlines : ∀ s ∈ lines, IsGood s ∧ s.Told) : (list front lines).Told := by
  intro width level s' r r' h' hr hr' heq
  obtain ⟨c, hc, hc'⟩ := opens_of_append (.list (fun s hs => (hfront s hs).1) fun s hs => (hlines s hs).1) h' heq
  cases hc.kindred hc' with
  | @list _ _ front' lines' =>
    cases h' with
    | list hfront' hlines' =>
      -- The fronts are compared up to the character behind them, and then the lines from that character on.
      obtain ⟨e, rest, he, hbehind⟩ := exists_rowEnd width (level + 1) (level + 1) lines r
      obtain ⟨e', rest', he', hbehind'⟩ := exists_rowEnd width (level + 1) (level + 1) lines' r'
      simp only [chars, List.cons_append, List.append_assoc, List.nil_append, List.cons.injEq, true_and] at heq
      rw [hbehind, hbehind'] at heq
      obtain ⟨rfl, hrest⟩ := row_unique he he' hfront hfront' heq
      rw [← hbehind, ← hbehind'] at hrest
      obtain ⟨rfl, hr⟩ := lines_unique (ends_cons (by decide) r) (ends_cons (by decide) r')
        (stops_cons (by decide) _ r) (stops_cons (by decide) _ r') hlines hlines' hrest
      exact ⟨rfl, (List.cons.inj hr).2⟩

theorem ends_closing (level : Int) (empty : Bool) (r : List Char) : Ends (closing width level empty ++ r) := by
  cases empty with
  | true => exact ends_cons (by decide) r
  | false => exact ends_cons (by decide) _

theorem stops_closing (level level' : Int) (empty : Bool) (r : List Char) :
    Stops (newLine width level') (closing width level empty ++ r) := by
  cases empty with
  | true => exact stops_cons (by decide) _ r
  | false =>
    rw [closing, if_neg (by decide), List.append_assoc]
    exact stops_newLine level level' r

theorem told_braces {lines : List Sexp} (hlines : ∀ s ∈ lines, IsGood s ∧ s.Told) : (braces lines).Told := by
  intro width level s' r r' h' hr hr' heq
  obtain ⟨c, hc, hc'⟩ := opens_of_append (.braces fun s hs => (hlines s hs).1) h' heq
  cases hc.kindred hc' with
  | braces =>
    cases h' with
    | braces hlines' =>
      rw [chars, chars, List.cons_append, List.cons_append, List.append_assoc, List.append_assoc] at heq
      obtain ⟨rfl, hrest⟩ := lines_unique (ends_closing level _ r) (ends_closing level _ r')
        (stops_closing level _ _ r) (stops_closing level _ _ r') hlines hlines' (List.cons.inj heq).2
      exact ⟨rfl, List.append_cancel_left hrest⟩

/-- **Unique readability.** -/
theorem IsGood.told {s : Sexp} (h : IsGood s) : s.Told := by
  induction h with
  | word hne hs => exact told_word hne hs
  | quoted hs => exact told_quoted hs
  | list hfront hlines ihfront ihlines =>
    exact told_list (fun s hs => ⟨hfront s hs, ihfront s hs⟩) fun s hs => ⟨hlines s hs, ihlines s hs⟩
  | braces hlines ihlines => exact told_braces fun s hs => ⟨hlines s hs, ihlines s hs⟩

end Sexp

end LoxLang
