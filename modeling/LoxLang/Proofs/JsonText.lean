import LoxLang.Proofs.JsonGrammar

/-!
# Data as JSON

The text of data is a JSON text exactly if every number in the data is finite, and it then stands for these data and no
others (`denotes_render_iff`).
-/

namespace LoxLang.Data.Json

/-! ## Values -/

/-- How the texts of values start. -/
def opens (c : Char) : Data → Bool
  | null => c == 'n'
  | bool b => c == if b then 't' else 'f'
  | integer _ | .number _ => c == '-' || Letter.isDigit c
  | .text _ => c == '"'
  | list _ => c == '['
  | record _ => c == '\x7b'

theorem IsValue.exists_opens {cs : List Char} {d : Data} (h : IsValue cs d) :
    ∃ c rest, cs = c :: rest ∧ opens c d = true := by
  cases h with
  | nullWord | trueWord | falseWord | emptyArray | array | emptyObject | object => exact ⟨_, _, rfl, rfl⟩
  | string h =>
    cases h
    exact ⟨_, _, rfl, rfl⟩
  | @number n hn =>
    obtain ⟨c, rest, hchars, hc⟩ := n.exists_chars
    refine ⟨c, rest, hchars, ?_⟩
    rw [ofNumeral]
    split <;> exact hc

theorem starts_of_opens {c : Char} {d : Data} (h : opens c d = true) (rest : List Char) : Starts (c :: rest) := by
  have hdigit : ∀ c ∈ '-' :: "0123456789".toList, ¬ IsSpace c ∧ c ∉ [',', ']', '\x7d'] := forall_mem_of_all (by decide)
  refine ⟨c, rest, rfl, ?_⟩
  cases d with
  | integer | number =>
    simp only [opens, Bool.or_eq_true, beq_iff_eq] at h
    exact hdigit c (List.mem_cons.mpr (h.imp_right Letter.mem_digits))
  | bool b =>
    rw [opens, beq_iff_eq] at h
    subst h
    cases b <;> decide
  | _ =>
    rw [opens, beq_iff_eq] at h
    subst h
    decide

theorem IsValue.starts {cs : List Char} {d : Data} (h : IsValue cs d) : Starts cs := by
  obtain ⟨c, rest, rfl, hc⟩ := h.exists_opens
  exact starts_of_opens hc rest

theorem Member.starts {cs : List Char} {f : String × Data} (h : Member IsValue cs f) : Starts cs := by
  cases h with
  | mk hkey =>
    cases hkey
    exact ⟨'"', _, rfl, by decide, by decide⟩

/-- A member is read as the member that it was written for, if its value is. -/
theorem settles_member {good : Data → Prop} {text : Data → List Char} (key : String) {d : Data}
    (h : Settles IsValue good text d) :
    Settles (Member IsValue) (fun f => good f.2) (fun f => (string f.1).toList ++ ':' :: ' ' :: text f.2) (key, d) where
  starts := ⟨'"', _, by rw [toList_string]; rfl, by decide, by decide⟩
  reads hgood := by
    have hspace : ∀ c ∈ [' '], IsSpace c := List.forall_mem_singleton.mpr (by decide)
    exact .mk (isString_string key) (List.forall_mem_nil IsSpace) hspace (h.reads hgood)
  unique := by
    intro cs b r r' hb heq hr hr'
    have hcolon : ∀ x c, (':' :: x : List Char).head? = some c → ¬ IsSpace c := by
      rintro x _ ⟨⟩
      decide
    cases hb with
    | mk hkey hleft hright hv =>
      simp only [List.append_assoc, List.cons_append] at heq
      obtain ⟨rfl, hrest⟩ := hkey.unique heq
      have hspaces := append_unique (List.forall_mem_nil IsSpace) hleft (hcolon _) (hcolon _) hrest
      have hbehind := (List.cons.inj hspaces.2).2
      have hspace : ∀ c ∈ [' '], IsSpace c := List.forall_mem_singleton.mpr (by decide)
      obtain ⟨hgood, rfl, hr⟩ := h.unique hv
        (append_unique hspace hright (h.starts.head r) (hv.starts.head r') hbehind).2 hr hr'
      exact ⟨hgood, rfl, hr⟩

/-! ## Writing -/

/-- Whether the text has the elements of an enclosed one, apart from white space. -/
theorem exists_enclosed (opening closing : Char) (level : Option Nat) {elements : List String} (h : elements ≠ []) :
    ∃ lead gap tail : List Char, (∀ c ∈ lead, IsSpace c) ∧ (∀ c ∈ gap, IsSpace c) ∧ (∀ c ∈ tail, IsSpace c) ∧
      (enclosed opening.toString closing.toString level elements).toList
        = opening :: (lead ++ ((',' :: gap).intercalate (elements.map String.toList) ++ (tail ++ [closing]))) := by
  have hmargin (n : Nat) : ∀ c ∈ '\n' :: List.replicate (2 * n) ' ', IsSpace c := by
    intro c hc
    rcases List.mem_cons.mp hc with rfl | hc
    · decide
    · rw [List.eq_of_mem_replicate hc]
      decide
  unfold enclosed
  rw [if_neg (by simpa using h)]
  match level with
  | none =>
    refine ⟨[], [' '], [], by simp, List.forall_mem_singleton.mpr (by decide), by simp, ?_⟩
    simp [String.toList_intercalate]
  | some n =>
    refine ⟨_, _, _, hmargin (n + 1), hmargin (n + 1), hmargin n, ?_⟩
    simp [String.toList_intercalate]

end LoxLang.Data.Json

namespace LoxLang

/-- Whether a double is neither an infinity nor not-a-number. -/
def Binary64.isFinite : Binary64 → Bool
  | finite .. => true
  | _ => false

namespace Data

mutual

/-- The doubles in data. -/
def numbers : Data → List Float
  | .number x => [x]
  | list items => numbersOf items
  | record fields => numbersOfFields fields
  | null | bool _ | integer _ | text _ => []

def numbersOf : List Data → List Float
  | [] => []
  | d :: ds => numbers d ++ numbersOf ds

def numbersOfFields : List (String × Data) → List Float
  | [] => []
  | (_, d) :: fields => numbers d ++ numbersOfFields fields

end

/-- Every number in the data is finite. -/
def IsFinite (d : Data) : Prop := ∀ x ∈ d.numbers, (Binary64.ofFloat x).isFinite = true

theorem isFinite_of_numbers {d : Data} (h : d.numbers = []) : d.IsFinite := by
  rw [IsFinite, h]
  exact List.forall_mem_nil _

theorem isFinite_list (items : List Data) : (list items).IsFinite ↔ ∀ d ∈ items, d.IsFinite := by
  have hall : ∀ items : List Data, (∀ x ∈ numbersOf items, (Binary64.ofFloat x).isFinite = true) ↔
      ∀ d ∈ items, d.IsFinite := by
    intro items
    induction items with
    | nil => simp [numbersOf]
    | cons d ds ih =>
      rw [numbersOf, List.forall_mem_append, ih, List.forall_mem_cons]
      rfl
  simpa only [IsFinite, numbers] using hall items

theorem isFinite_record (fields : List (String × Data)) :
    (record fields).IsFinite ↔ ∀ f ∈ fields, f.2.IsFinite := by
  have hall : ∀ fields : List (String × Data), (∀ x ∈ numbersOfFields fields, (Binary64.ofFloat x).isFinite = true) ↔
      ∀ f ∈ fields, f.2.IsFinite := by
    intro fields
    induction fields with
    | nil => simp [numbersOfFields]
    | cons f fields ih =>
      rw [numbersOfFields, List.forall_mem_append, ih, List.forall_mem_cons]
      rfl
  simpa only [IsFinite, numbers] using hall fields

namespace Json

/-- Two texts of values that start with the same character. -/
theorem opens_of_append {cs cs' r r' : List Char} {c : Char} {rest : List Char} {b : Data} (hcs : cs = c :: rest)
    (hb : IsValue cs' b) (heq : cs ++ r = cs' ++ r') : opens c b = true := by
  obtain ⟨c', rest', rfl, hc'⟩ := hb.exists_opens
  rw [hcs] at heq
  obtain rfl := (List.cons.inj heq).1
  exact hc'

/-- The text of a value that is written as a decimal is read as the value. -/
theorem settles_numeral {text : Data → List Char} {d : Data} (hd : d.IsFinite) {n : DecimalText} (hn : n.Minimal)
    (htext : text d = n.chars) (hdata : ofNumeral n = d) : Settles IsValue IsFinite text d where
  starts := htext ▸ (IsValue.number hn).starts
  reads _ := by
    rw [htext, ← hdata]
    exact .number hn
  unique := by
    intro cs b r r' hb heq hr hr'
    have hword : ∀ c ∈ ['n', 't', 'f', '"', '[', '\x7b'], ¬ (c == '-' || Letter.isDigit c) = true :=
      forall_mem_of_all (by decide)
    rw [htext] at heq
    obtain ⟨c, rest, hchars, hc⟩ := n.exists_chars
    have hopens := opens_of_append hchars hb heq
    cases hb with
    | @number n' hn' =>
      obtain ⟨hsame, hrest⟩ := append_unique n.plain n'.plain hr.notMem_plain hr'.notMem_plain heq
      exact ⟨hd, by rw [← hdata, DecimalText.ofNumeral_unique hsame], hrest⟩
    | _ =>
      refine absurd hc (hword c ?_)
      simp only [opens, beq_iff_eq, if_true] at hopens
      simp [hopens]

/-- The text of a value that is written as a word is read as the value. -/
theorem settles_word {text : Data → List Char} {d : Data} {c : Char} {rest : List Char} (hd : d.IsFinite)
    (htext : text d = c :: rest) (hv : IsValue (c :: rest) d)
    (honly : ∀ {cs b}, IsValue cs b → opens c b = true → cs = c :: rest ∧ b = d) :
    Settles IsValue IsFinite text d where
  starts := htext ▸ hv.starts
  reads _ := by rwa [htext]
  unique := by
    intro cs b r r' hb heq _ _
    rw [htext] at heq
    obtain ⟨rfl, rfl⟩ := honly hb (opens_of_append rfl hb heq)
    exact ⟨hd, rfl, List.append_cancel_left heq⟩

/-- Where no value can be read, data that are not finite are not read. -/
theorem settles_none {text : Data → List Char} {d : Data} (hd : ¬ d.IsFinite) (hstarts : Starts (text d))
    (hnone : ∀ {cs b r r'}, IsValue cs b → text d ++ r ≠ cs ++ r') : Settles IsValue IsFinite text d where
  starts := hstarts
  reads h := absurd h hd
  unique hb heq := absurd heq (hnone hb)

theorem opens_ofNumeral (c : Char) (n : DecimalText) : opens c (ofNumeral n) = (c == '-' || Letter.isDigit c) := by
  rw [ofNumeral]
  split <;> rfl

theorem not_opens {c : Char} (hc : c ∈ ['I', 'N']) (d : Data) : ¬ opens c d = true := by
  have hall : ∀ c ∈ ['I', 'N'], c ∉ ['n', 't', 'f', '"', '[', '\x7b', '-'] ∧ Letter.isDigit c = false :=
    forall_mem_of_all (by decide)
  obtain ⟨hc, hdigit⟩ := hall c hc
  intro h
  cases d with
  | bool b => cases b <;> rw [opens, beq_iff_eq] at h <;> simp [h] at hc
  | integer | number =>
    rw [opens, hdigit, Bool.or_false, beq_iff_eq] at h
    simp [h] at hc
  | _ =>
    rw [opens, beq_iff_eq] at h
    simp [h] at hc

/-- The text of a number is read as the number if it is finite, and otherwise not at all. -/
theorem settles_number (x : Float) (level : Option Nat) :
    Settles IsValue IsFinite (fun d => (text level d).toList) (.number x) := by
  have hfinite : IsFinite (.number x) ↔ (Binary64.ofFloat x).isFinite = true := by simp [IsFinite, numbers]
  -- Neither word for an infinity nor the one for not-a-number starts with a character that opens a value.
  have unreadable {c : Char} {rest : List Char} (hc : c ∈ ['I', 'N'])
      (htext : (text level (.number x)).toList = c :: rest) (hx : (Binary64.ofFloat x).isFinite = false) :
      Settles IsValue IsFinite (fun d => (text level d).toList) (.number x) := by
    have hall : ∀ c ∈ ['I', 'N'], ¬ IsSpace c ∧ c ∉ [',', ']', '\x7d'] := forall_mem_of_all (by decide)
    refine settles_none (by rw [hfinite, hx]; decide) (htext ▸ ⟨c, rest, rfl, hall c hc⟩) fun {_ b _ _} hb heq => ?_
    exact not_opens hc b (opens_of_append htext hb heq)
  cases hx : Binary64.ofFloat x with
  | finite negative m q =>
    obtain ⟨n, -, htext, hvalue, hminimal, hwhole⟩ := Decimal.exists_text hx
    refine settles_numeral (by rw [hfinite, hx]; rfl) hminimal ?_ (by rw [ofNumeral, if_neg hwhole, hvalue])
    simp only [text, number, hx, htext, String.toList_ofList]
  | infinite negative =>
    cases negative with
    | false => exact unreadable (c := 'I') (by decide) (by simp [text, number, hx]; rfl) (by rw [hx]; rfl)
    | true =>
      have htext : (text level (.number x)).toList = '-' :: 'I' :: "nfinity".toList := by simp [text, number, hx]
      refine settles_none (by rw [hfinite, hx]; decide) (htext ▸ ⟨'-', _, rfl, by decide, by decide⟩)
        fun {_ b _ _} hb heq => ?_
      have hopens := opens_of_append htext hb heq
      cases hb with
      | @number n =>
        obtain ⟨c, rest, hbody, hc⟩ := n.exists_body
        rw [htext, DecimalText.chars, hbody] at heq
        cases hn : n.negative with
        | true =>
          rw [hn] at heq
          obtain rfl := (List.cons.inj (List.cons.inj heq).2).1
          cases hc
        | false =>
          rw [hn] at heq
          obtain rfl := (List.cons.inj heq).1
          cases hc
      | _ => cases hopens
  | nan => exact unreadable (c := 'N') (by decide) (by simp [text, number, hx]; rfl) (by rw [hx]; rfl)

/-- Elements start with what is no white space and ends no elements. -/
theorem Separated.exists_starts {α : Type} {R : List Char → α → Prop} (hR : ∀ cs a, R cs a → Starts cs) {cs : List Char}
    {as : List α} (h : Separated R cs as) : ∃ left rest, (∀ c ∈ left, IsSpace c) ∧ Starts rest ∧ cs = left ++ rest := by
  cases h with
  | one hleft ha =>
    obtain ⟨c, rest, rfl, hc⟩ := hR _ _ ha
    exact ⟨_, _, hleft, ⟨c, _, rfl, hc⟩, rfl⟩
  | more hleft ha =>
    obtain ⟨c, rest, rfl, hc⟩ := hR _ _ ha
    exact ⟨_, _, hleft, ⟨c, _, rfl, hc⟩, rfl⟩

theorem exists_intercalate (gap t : List Char) (ts : List (List Char)) :
    ∃ more, gap.intercalate (t :: ts) = t ++ more := by
  cases ts with
  | nil => exact ⟨[], by rw [List.intercalate_singleton, List.append_nil]⟩
  | cons t' ts => exact ⟨_, by rw [List.intercalate_cons_cons, List.append_assoc]⟩

/-- Values that are elements between two brackets: the texts that they have, and that no other value opens as they
do. -/
structure Brackets {α : Type} (R : List Char → α → Prop) (make : List α → Data) (opening closing : Char) : Prop where
  elements : ∀ cs a, R cs a → Starts cs
  opens : Starts [opening]
  closes : closing ∈ [']', '\x7d']
  empty : ∀ {space : List Char}, (∀ c ∈ space, IsSpace c) → IsValue (opening :: (space ++ [closing])) (make [])
  full : ∀ {cs as}, Separated R cs as → IsValue (opening :: (cs ++ [closing])) (make as)
  only : ∀ {cs b}, IsValue cs b → Json.opens opening b = true →
    (∃ space : List Char, (∀ c ∈ space, IsSpace c) ∧ cs = opening :: (space ++ [closing]) ∧ b = make []) ∨
      ∃ cs' as, Separated R cs' as ∧ cs = opening :: (cs' ++ [closing]) ∧ b = make as

theorem brackets_list : Brackets IsValue list '[' ']' where
  elements _ _ h := h.starts
  opens := ⟨'[', [], rfl, by decide, by decide⟩
  closes := by decide
  empty := .emptyArray
  full := .array
  only hb hopens := by
    cases hb with
    | emptyArray hspace => exact .inl ⟨_, hspace, rfl, rfl⟩
    | array hs => exact .inr ⟨_, _, hs, rfl, rfl⟩
    | number => exact absurd (opens_ofNumeral _ _ ▸ hopens) (by decide)
    | _ => cases hopens

theorem brackets_record : Brackets (Member IsValue) record '\x7b' '\x7d' where
  elements _ _ h := h.starts
  opens := ⟨'\x7b', [], rfl, by decide, by decide⟩
  closes := by decide
  empty := .emptyObject
  full := .object
  only hb hopens := by
    cases hb with
    | emptyObject hspace => exact .inl ⟨_, hspace, rfl, rfl⟩
    | object hs => exact .inr ⟨_, _, hs, rfl, rfl⟩
    | number => exact absurd (opens_ofNumeral _ _ ▸ hopens) (by decide)
    | _ => cases hopens

namespace Brackets

section

variable {α : Type} {R : List Char → α → Prop} {good : α → Prop} {element : α → String} {text : Data → List Char}
  {make : List α → Data} {opening closing : Char} (hb : Brackets R make opening closing)
include hb

theorem starts (rest : List Char) : Starts (opening :: rest) := by
  obtain ⟨c, _, heq, hc⟩ := hb.opens
  obtain ⟨rfl, -⟩ := List.cons.inj heq
  exact ⟨opening, rest, rfl, hc⟩

theorem closing_head (x : List Char) : ∀ c, (closing :: x).head? = some c → ¬ IsSpace c := by
  have hspace : ∀ c ∈ [']', '\x7d'], ¬ IsSpace c := forall_mem_of_all (by decide)
  rintro _ ⟨⟩
  exact hspace closing hb.closes

/-- What starts an element is not the closing bracket. -/
theorem closing_ne {w w' x x' t : List Char} (hw : ∀ c ∈ w, IsSpace c) (hw' : ∀ c ∈ w', IsSpace c) (ht : Starts t) :
    w ++ closing :: x ≠ w' ++ (t ++ x') := by
  intro heq
  have hsame := (append_unique hw hw' (hb.closing_head x) (ht.head x') heq).2
  obtain ⟨c, rest, rfl, -, hc⟩ := ht
  obtain rfl := (List.cons.inj hsame).1
  exact hc (List.mem_cons_of_mem _ hb.closes)

theorem settles_empty (hfinite : (make []).IsFinite) (htext : text (make []) = [opening, closing]) :
    Settles IsValue IsFinite text (make []) where
  starts := htext ▸ hb.starts [closing]
  reads _ := by
    rw [htext]
    exact hb.empty (List.forall_mem_nil IsSpace)
  unique := by
    intro cs b r r' hv heq _ _
    have hopens := opens_of_append htext hv heq
    rw [htext] at heq
    rcases hb.only hv hopens with ⟨space, hspace, rfl, rfl⟩ | ⟨cs', bs, hs, rfl, rfl⟩
    · simp only [List.cons_append, List.nil_append, List.append_assoc, List.cons.injEq, true_and] at heq
      have hsame := append_unique (List.forall_mem_nil IsSpace) hspace (hb.closing_head _) (hb.closing_head _) heq
      exact ⟨hfinite, rfl, (List.cons.inj hsame.2).2⟩
    · obtain ⟨left, rest, hleft, hrest, rfl⟩ := hs.exists_starts hb.elements
      simp only [List.cons_append, List.nil_append, List.append_assoc, List.cons.injEq, true_and] at heq
      exact absurd heq (hb.closing_ne (List.forall_mem_nil IsSpace) hleft hrest)

theorem settles_full {as : List α} (hne : as ≠ []) (hfinite : (make as).IsFinite ↔ ∀ a ∈ as, good a)
    {lead gap tail : List Char} (hlead : ∀ c ∈ lead, IsSpace c) (hgap : ∀ c ∈ gap, IsSpace c)
    (htail : ∀ c ∈ tail, IsSpace c) (htext : text (make as) = opening ::
      (lead ++ ((',' :: gap).intercalate (as.map fun a => (element a).toList) ++ (tail ++ [closing]))))
    (h : ∀ a ∈ as, Settles R good (fun a => (element a).toList) a) : Settles IsValue IsFinite text (make as) where
  starts := htext ▸ hb.starts _
  reads hgood := by
    have hs := separated_joined hgap htail hne h hlead (hfinite.mp hgood)
    rw [htext]
    simpa using hb.full hs
  unique := by
    intro cs b r r' hv heq _ _
    have hopens := opens_of_append htext hv heq
    rw [htext] at heq
    rcases hb.only hv hopens with ⟨space, hspace, rfl, rfl⟩ | ⟨cs', bs, hs, rfl, rfl⟩
    · obtain ⟨a, as, rfl⟩ := List.exists_cons_of_ne_nil hne
      obtain ⟨more, hmore⟩ := exists_intercalate (',' :: gap) (element a).toList (as.map fun a => (element a).toList)
      rw [List.map_cons, hmore] at heq
      simp only [List.cons_append, List.append_assoc, List.nil_append, List.cons.injEq, true_and] at heq
      exact absurd heq.symm (hb.closing_ne hspace hlead (h a List.mem_cons_self).starts)
    · simp only [List.cons_append, List.append_assoc, List.nil_append, List.cons.injEq, true_and] at heq
      obtain ⟨hgood, rfl, hr⟩ := hs.unique hgap htail hb.elements hb.closes hne h hlead heq
      exact ⟨hfinite.mpr hgood, rfl, hr⟩

/-- Elements between brackets are read as those elements if each of them is. -/
theorem settles {as : List α} (hfinite : (make as).IsFinite ↔ ∀ a ∈ as, good a) {level : Option Nat}
    (htext : text (make as) = (enclosed opening.toString closing.toString level (as.map element)).toList)
    (h : ∀ a ∈ as, Settles R good (fun a => (element a).toList) a) : Settles IsValue IsFinite text (make as) := by
  rcases eq_or_ne as [] with rfl | hne
  · exact hb.settles_empty (hfinite.mpr (List.forall_mem_nil good)) (by rw [htext]; simp [enclosed])
  · have helements : as.map element ≠ [] := by simpa using hne
    obtain ⟨lead, gap, tail, hlead, hgap, htail, hchars⟩ := exists_enclosed opening closing level helements
    rw [← htext, List.map_map] at hchars
    exact hb.settles_full hne hfinite hlead hgap htail hchars h

end

end Brackets

theorem texts_eq_map (level : Option Nat) (items : List Data) : texts level items = items.map (text level) := by
  induction items with
  | nil => rfl
  | cons d ds ih => rw [texts, ih, List.map_cons]

theorem fieldTexts_eq_map (level : Option Nat) (fields : List (String × Data)) :
    fieldTexts level fields = fields.map fun f => string f.1 ++ ": " ++ text level f.2 := by
  induction fields with
  | nil => rfl
  | cons f fields ih => rw [fieldTexts, ih, List.map_cons]

mutual

/-- The text of data is read as the data if every number in them is finite, and otherwise not at all. -/
theorem settles_text : ∀ (d : Data) (level : Option Nat), Settles IsValue IsFinite (fun d => (text level d).toList) d
  | null, level => by
    refine settles_word (isFinite_of_numbers rfl) (by simp [text]) .nullWord fun hb hopens => ?_
    cases hb with
    | nullWord => exact ⟨rfl, rfl⟩
    | number => exact absurd (opens_ofNumeral _ _ ▸ hopens) (by decide)
    | _ => cases hopens
  | bool true, level => by
    refine settles_word (isFinite_of_numbers rfl) (by simp [text]) .trueWord fun hb hopens => ?_
    cases hb with
    | trueWord => exact ⟨rfl, rfl⟩
    | number => exact absurd (opens_ofNumeral _ _ ▸ hopens) (by decide)
    | _ => cases hopens
  | bool false, level => by
    refine settles_word (isFinite_of_numbers rfl) (by simp [text]) .falseWord fun hb hopens => ?_
    cases hb with
    | falseWord => exact ⟨rfl, rfl⟩
    | number => exact absurd (opens_ofNumeral _ _ ▸ hopens) (by decide)
    | _ => cases hopens
  | integer n, level => by
    have htext : (toString n).toList = (Decimal.natural (decide (n < 0)) n.natAbs).chars := by
      rw [DecimalText.chars, Decimal.body_natural]
      cases n with
      | ofNat k => simp [Decimal.natural, toString, Int.repr]
      | negSucc k => simp [Decimal.natural, toString, Int.repr, Int.negSucc_lt_zero]
    have hdata : ofNumeral (Decimal.natural (decide (n < 0)) n.natAbs) = .integer n := by
      rw [ofNumeral, if_pos ⟨rfl, rfl⟩, Decimal.digits_natural]
      congr 1
      simp only [Decimal.natural, decide_eq_true_eq]
      split <;> omega
    exact settles_numeral (isFinite_of_numbers rfl) (Decimal.minimal_natural _ _) (by rw [text, htext]) hdata
  | .number x, level => settles_number x level
  | .text s, level => by
    have htext : (text level (.text s)).toList = (string s).toList := by rw [text]
    refine ⟨?_, fun _ => ?_, fun hb heq _ _ => ?_⟩
    · rw [htext, toList_string]
      exact ⟨'"', _, rfl, by decide, by decide⟩
    · rw [htext]
      exact .string (isString_string s)
    · have hopens := opens_of_append (htext.trans (toList_string s)) hb heq
      rw [htext] at heq
      cases hb with
      | string hs =>
        obtain ⟨rfl, hr⟩ := hs.unique heq
        exact ⟨isFinite_of_numbers rfl, rfl, hr⟩
      | number => exact absurd (opens_ofNumeral _ _ ▸ hopens) (by decide)
      | _ => cases hopens
  | list items, level =>
    brackets_list.settles (isFinite_list items) (by rw [text, texts_eq_map]; rfl)
      (settles_texts items (level.map (· + 1)))
  | record fields, level => by
    refine brackets_record.settles (isFinite_record fields) (by rw [text, fieldTexts_eq_map]; rfl) fun f hf => ?_
    have h := settles_member f.1 (settles_fieldTexts fields (level.map (· + 1)) f hf)
    simpa using h

theorem settles_texts : ∀ (items : List Data) (level : Option Nat),
    ∀ d ∈ items, Settles IsValue IsFinite (fun d => (text level d).toList) d
  | [], _ => List.forall_mem_nil _
  | d :: ds, level => List.forall_mem_cons.mpr ⟨settles_text d level, settles_texts ds level⟩

theorem settles_fieldTexts : ∀ (fields : List (String × Data)) (level : Option Nat),
    ∀ f ∈ fields, Settles IsValue IsFinite (fun d => (text level d).toList) f.2
  | [], _ => List.forall_mem_nil _
  | (_, d) :: fields, level => List.forall_mem_cons.mpr ⟨settles_text d level, settles_fieldTexts fields level⟩

end

theorem ends_of_space {w : List Char} (hw : ∀ c ∈ w, IsSpace c) : Ends w := by
  cases w with
  | nil => exact fun _ h => nomatch h
  | cons d w =>
    rintro _ ⟨⟩
    exact List.mem_append_left [',', ']', '\x7d'] (hw d List.mem_cons_self)

/-- **The text of data.** It is a JSON text if every number is finite, and otherwise not; and it stands for the data
that it was written for, and for no others. -/
theorem denotes_render_iff (pretty : Bool) (d d' : Data) :
    Denotes (render pretty d).toList d' ↔ d.IsFinite ∧ d' = d := by
  have h := settles_text d (if pretty then some 0 else none)
  constructor
  · intro hd
    generalize hcs : (render pretty d).toList = cs at hd
    cases hd with
    | @mk left cs right b hleft hv hright =>
      have hsame : (render pretty d).toList ++ [] = cs ++ right := by
        rw [← List.append_nil (render pretty d).toList] at hcs
        exact (append_unique (List.forall_mem_nil IsSpace) hleft (h.starts.head []) (hv.starts.head right) hcs).2
      obtain ⟨hfinite, rfl, -⟩ := h.unique hv hsame (ends_of_space (List.forall_mem_nil IsSpace)) (ends_of_space hright)
      exact ⟨hfinite, rfl⟩
  · rintro ⟨hfinite, rfl⟩
    have hd := Denotes.mk (List.forall_mem_nil IsSpace) (h.reads hfinite) (List.forall_mem_nil IsSpace)
    rwa [List.nil_append, List.append_nil] at hd

end Json

end Data

end LoxLang
