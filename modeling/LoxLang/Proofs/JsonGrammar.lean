import LoxLang.Data.Json
import LoxLang.Proofs.Numerals

/-!
# The grammar of JSON

`IsValue cs d` says that `cs` is the text of a JSON value which stands for the data `d`, and `Denotes cs d` says the
same of a text with white space around it. The grammar is the usual one: four kinds of white space; strings without
bare control characters, with short escapes and with codes of one or two units; numbers without a zero that could be
left out; arrays and objects with commas between their elements. A number without a point and a power is an integer,
and any other one is the nearest double. There are no words for infinities.

Strings, numbers and elements that are written for given data are read as those data only (`Characters.unique`,
`DecimalText.ofNumeral_unique`, `Separated.unique`).
-/

namespace LoxLang.Data.Json

/-! ## The grammar -/

def IsSpace (c : Char) : Prop := c ∈ [' ', '\t', '\n', '\r']

instance : DecidablePred IsSpace := fun c => inferInstanceAs (Decidable (c ∈ [' ', '\t', '\n', '\r']))

/-- The characters that stand for another one behind a backslash. -/
def shortEscapes : List (Char × Char) :=
  [('"', '"'), ('\\', '\\'), ('/', '/'), ('b', '\x08'), ('f', '\x0c'), ('n', '\n'), ('r', '\r'), ('t', '\t')]

/-- The value of a hexadecimal digit, in capitals or not. -/
def hexValue? (c : Char) : Option Nat :=
  let c := c.toLower
  if Letter.isDigit c then some (c.toNat - '0'.toNat)
  else if 'a' ≤ c ∧ c ≤ 'f' then some (c.toNat - 'a'.toNat + 10)
  else none

/-- The number that four hexadecimal digits spell. -/
def unit? (a b c d : Char) : Option Nat := do
  return 4096 * (← hexValue? a) + 256 * (← hexValue? b) + 16 * (← hexValue? c) + (← hexValue? d)

/-- The characters between the quotes of a string, and the text that they stand for. -/
inductive Characters : List Char → List Char → Prop
  | nil : Characters [] []
  | plain {c cs s} (hquote : c ≠ '"') (hslash : c ≠ '\\') (hcode : 0x20 ≤ c.toNat) : Characters cs s →
      Characters (c :: cs) (c :: s)
  | short {e c cs s} (he : (e, c) ∈ shortEscapes) : Characters cs s → Characters ('\\' :: e :: cs) (c :: s)
  | unit {a b c d u cs s} (hu : unit? a b c d = some u.toNat) : Characters cs s →
      Characters ('\\' :: 'u' :: a :: b :: c :: d :: cs) (u :: s)
  /-- Characters beyond the first plane as two units. -/
  | pair {a b c d a' b' c' d' high low u cs s} (hhigh : unit? a b c d = some (0xD800 + high))
      (hlow : unit? a' b' c' d' = some (0xDC00 + low)) (hhigh' : high < 0x400) (hlow' : low < 0x400)
      (hu : u.toNat = 0x10000 + 0x400 * high + low) : Characters cs s →
      Characters ('\\' :: 'u' :: a :: b :: c :: d :: '\\' :: 'u' :: a' :: b' :: c' :: d' :: cs) (u :: s)

inductive IsString : List Char → String → Prop
  | mk {cs s} : Characters cs s → IsString ('"' :: (cs ++ ['"'])) (String.ofList s)

/-- What a number stands for: without a point and a power an integer, and otherwise the nearest double. -/
def ofNumeral (n : DecimalText) : Data :=
  if n.IsWhole then .integer (if n.negative then -(n.digits : Int) else n.digits) else .number n.value

section

variable {α : Type}

/-- Elements with commas between them and white space around them. -/
inductive Separated (R : List Char → α → Prop) : List Char → List α → Prop
  | one {left cs right a} : (∀ c ∈ left, IsSpace c) → R cs a → (∀ c ∈ right, IsSpace c) →
      Separated R (left ++ (cs ++ right)) [a]
  | more {left cs right rest a as} : (∀ c ∈ left, IsSpace c) → R cs a → (∀ c ∈ right, IsSpace c) →
      Separated R rest as → Separated R (left ++ (cs ++ (right ++ ',' :: rest))) (a :: as)

end

/-- A key and a value with a colon between them. -/
inductive Member (R : List Char → Data → Prop) : List Char → String × Data → Prop
  | mk {ks key left right cs d} : IsString ks key → (∀ c ∈ left, IsSpace c) → (∀ c ∈ right, IsSpace c) → R cs d →
      Member R (ks ++ (left ++ ':' :: (right ++ cs))) (key, d)

/-- The texts of values. -/
inductive IsValue : List Char → Data → Prop
  | nullWord : IsValue ['n', 'u', 'l', 'l'] .null
  | trueWord : IsValue ['t', 'r', 'u', 'e'] (.bool true)
  | falseWord : IsValue ['f', 'a', 'l', 's', 'e'] (.bool false)
  | number {n : DecimalText} : n.Minimal → IsValue n.chars (ofNumeral n)
  | string {cs s} : IsString cs s → IsValue cs (.text s)
  | emptyArray {space} : (∀ c ∈ space, IsSpace c) → IsValue ('[' :: (space ++ [']'])) (.list [])
  | array {cs items} : Separated IsValue cs items → IsValue ('[' :: (cs ++ [']'])) (.list items)
  | emptyObject {space} : (∀ c ∈ space, IsSpace c) → IsValue ('\x7b' :: (space ++ ['\x7d'])) (.record [])
  | object {cs fields} : Separated (Member IsValue) cs fields → IsValue ('\x7b' :: (cs ++ ['\x7d'])) (.record fields)

/-- A text is a value with white space around it. -/
inductive Denotes : List Char → Data → Prop
  | mk {left cs right d} : (∀ c ∈ left, IsSpace c) → IsValue cs d → (∀ c ∈ right, IsSpace c) →
      Denotes (left ++ (cs ++ right)) d

/-! ## Strings -/

/-- How a character is written in a string: as itself, behind a backslash, or as its code. -/
theorem escape_cases (c : Char) :
    (escape c = [c] ∧ c ≠ '"' ∧ c ≠ '\\' ∧ 0x20 ≤ c.toNat) ∨ (∃ e, (e, c) ∈ shortEscapes ∧ escape c = ['\\', e]) ∨
      ∃ w x y z, escape c = ['\\', 'u', w, x, y, z] ∧ unit? w x y z = some c.toNat := by
  unfold escape
  split
  all_goals first
    | exact .inr (.inl ⟨_, by decide, rfl⟩)
    | skip
  next hquote hslash _ _ _ _ _ =>
    split
    next hlow =>
      refine .inr (.inr ⟨_, _, _, _, rfl, ?_⟩)
      have hall : ∀ n < 0x20, unit? (Text.hexDigit false (n / 16 / 16 / 16)) (Text.hexDigit false (n / 16 / 16))
        (Text.hexDigit false (n / 16)) (Text.hexDigit false n) = some n := by decide
      exact hall _ hlow
    next hhigh => exact .inl ⟨rfl, hquote, hslash, Nat.le_of_not_lt hhigh⟩

/-- The code of a character is none of the units that only pairs are made of. -/
theorem toNat_not_surrogate (c : Char) : ¬ (0xD800 ≤ c.toNat ∧ c.toNat < 0xE000) := by
  have h := c.valid
  simp only [UInt32.isValidChar, Nat.isValidChar] at h
  have htoNat : c.val.toNat = c.toNat := rfl
  omega

/-- A text between quotes is read as itself. -/
theorem characters_escape : ∀ s : List Char, Characters (s.flatMap escape) s
  | [] => .nil
  | c :: s => by
    rw [List.flatMap_cons]
    rcases escape_cases c with ⟨h, hquote, hslash, hcode⟩ | ⟨e, he, h⟩ | ⟨w, x, y, z, h, hu⟩ <;> rw [h]
    · exact .plain hquote hslash hcode (characters_escape s)
    · exact .short he (characters_escape s)
    · exact .unit hu (characters_escape s)

/-- A text between quotes is read as nothing else, and ends at the quote behind it. -/
theorem Characters.unique : ∀ {s cs s' r r' : List Char}, Characters cs s' →
    s.flatMap escape ++ '"' :: r = cs ++ '"' :: r' → s' = s ∧ r = r'
  | [], _, _, _, _, h, heq => by
    cases h with
    | nil => exact ⟨rfl, (List.cons.inj heq).2⟩
    | plain hquote => exact absurd (List.cons.inj heq).1.symm hquote
    | short | unit | pair => exact absurd (List.cons.inj heq).1 (by decide)
  | c :: s, _, _, r, _, h, heq => by
    have hletter : ∀ p ∈ shortEscapes, p.1 ≠ 'u' := forall_mem_of_all (by decide)
    have hshort : ∀ p ∈ shortEscapes, ∀ p' ∈ shortEscapes, p.1 = p'.1 → p'.2 = p.2 := by decide
    rw [List.flatMap_cons, List.append_assoc] at heq
    rcases escape_cases c with ⟨hc, hquote, hslash, -⟩ | ⟨e, he, hc⟩ | ⟨w, x, y, z, hc, hu⟩ <;>
      simp only [hc, List.cons_append, List.nil_append] at heq
    · cases h with
      | nil => exact absurd (List.cons.inj heq).1 hquote
      | plain _ _ _ hrest =>
        obtain ⟨rfl, htail⟩ := List.cons.inj heq
        obtain ⟨rfl, hr⟩ := hrest.unique htail
        exact ⟨rfl, hr⟩
      | short | unit | pair => exact absurd (List.cons.inj heq).1 hslash
    · cases h with
      | nil => exact absurd (List.cons.inj heq).1 (by decide)
      | plain _ hslash => exact absurd (List.cons.inj heq).1.symm hslash
      | short he' hrest =>
        obtain ⟨rfl, htail⟩ := List.cons.inj (List.cons.inj heq).2
        obtain ⟨rfl, hr⟩ := hrest.unique htail
        exact ⟨congrArg (· :: _) (hshort _ he _ he' rfl), hr⟩
      | unit | pair => exact absurd (List.cons.inj (List.cons.inj heq).2).1 (hletter _ he)
    · cases h with
      | nil => exact absurd (List.cons.inj heq).1 (by decide)
      | plain _ hslash => exact absurd (List.cons.inj heq).1.symm hslash
      | short he' => exact absurd (List.cons.inj (List.cons.inj heq).2).1.symm (hletter _ he')
      | unit hu' hrest =>
        simp only [List.cons_append, List.cons.injEq, true_and] at heq
        obtain ⟨rfl, rfl, rfl, rfl, heq⟩ := heq
        obtain ⟨rfl, hr⟩ := hrest.unique heq
        exact ⟨by rw [Char.toNat_inj.mp (Option.some.inj (hu'.symm.trans hu))], hr⟩
      | pair hhigh _ hhigh' =>
        simp only [List.cons_append, List.cons.injEq, true_and] at heq
        obtain ⟨rfl, rfl, rfl, rfl, -⟩ := heq
        have hcode := Option.some.inj (hu.symm.trans hhigh)
        exact absurd (toNat_not_surrogate c) (by omega)

theorem toList_string (s : String) : (string s).toList = '"' :: (s.toList.flatMap escape ++ ['"']) := by
  rw [string, String.toList_ofList]
  rfl

theorem isString_string (s : String) : IsString (string s).toList s := by
  have h := IsString.mk (characters_escape s.toList)
  rwa [String.ofList_toList, ← toList_string] at h

theorem IsString.unique {s s' : String} {cs r r' : List Char} (h : IsString cs s')
    (heq : (string s).toList ++ r = cs ++ r') : s' = s ∧ r = r' := by
  cases h with
  | mk hcs =>
    rw [toList_string] at heq
    simp only [List.cons_append, List.append_assoc, List.nil_append, List.cons.injEq, true_and] at heq
    obtain ⟨rfl, hr⟩ := hcs.unique heq
    exact ⟨String.ofList_toList, hr⟩

/-! ## Numbers -/

/-- What may follow a value: nothing, white space, a comma or a closing bracket. -/
def Ends (r : List Char) : Prop := ∀ c, r.head? = some c → c ∈ [' ', '\t', '\n', '\r', ',', ']', '\x7d']

/-- A character of numbers does not follow a value. -/
theorem Ends.notMem_plain {r : List Char} (h : Ends r) : ∀ c, r.head? = some c → c ∉ Text.plainCharacters := by
  have hends : ∀ c ∈ [' ', '\t', '\n', '\r', ',', ']', '\x7d'], c ∉ Text.plainCharacters :=
    forall_mem_of_all (by decide)
  exact fun c hc => hends c (h c hc)

end LoxLang.Data.Json

namespace LoxLang.DecimalText

/-- A decimal without a point and a power has none in its text, and one with either has. -/
theorem isWhole_iff (n : DecimalText) : n.IsWhole ↔ ∀ c ∈ n.chars, c ∉ ['.', 'e', 'E'] := by
  constructor
  · rintro ⟨hf, hp⟩ c hc
    have hdigit : ∀ c ∈ "0123456789".toList, c ∉ ['.', 'e', 'E'] := forall_mem_of_all (by decide)
    simp only [chars, body, hf, hp, pointed, powered, List.append_nil, List.mem_append] at hc
    rcases hc with hc | hc
    · split at hc
      · cases List.mem_singleton.mp hc
        decide
      · cases hc
    · exact hdigit c (Letter.mem_digits (n.whole_digits.2 c hc))
  · intro h
    constructor
    · cases hf : n.fraction with
      | none => rfl
      | some places => exact absurd (by decide) (h '.' (by simp [chars, body, hf, pointed]))
    · cases hp : n.power with
      | none => rfl
      | some power =>
        refine absurd ?_ (h power.1 (by simp [chars, body, hp, powered]))
        rcases (n.power_digits _ hp).1 with hl | hl <;> simp [hl]

/-- The text of a decimal starts with its sign or a digit. -/
theorem exists_chars (n : DecimalText) :
    ∃ c rest, n.chars = c :: rest ∧ (c == '-' || Letter.isDigit c) = true := by
  obtain ⟨c, rest, hbody, hc⟩ := n.exists_body
  rw [chars, hbody]
  cases n.negative with
  | true => exact ⟨'-', c :: rest, rfl, rfl⟩
  | false => exact ⟨c, rest, rfl, by simp [hc]⟩

/-- The text of a decimal tells what it stands for. -/
theorem ofNumeral_unique {n n' : DecimalText} (h : n.chars = n'.chars) :
    Data.Json.ofNumeral n = Data.Json.ofNumeral n' := by
  have hwhole : n.IsWhole ↔ n'.IsWhole := by rw [isWhole_iff, isWhole_iff, h]
  rw [Data.Json.ofNumeral, Data.Json.ofNumeral]
  by_cases hn : n.IsWhole
  · have hsplit := n.splitSign_chars
    rw [h, n'.splitSign_chars, Prod.mk.injEq, body, body] at hsplit
    rw [if_pos hn, if_pos (hwhole.mp hn)]
    obtain ⟨hf, hp⟩ := hn
    obtain ⟨hf', hp'⟩ := hwhole.mp ⟨hf, hp⟩
    simp only [hf, hp, hf', hp', pointed, powered, List.append_nil] at hsplit
    simp only [digits, places, hf, hf', hsplit.1, hsplit.2]
  · have hvalue := n.read?_chars
    rw [h, n'.read?_chars, Option.some.injEq] at hvalue
    rw [if_neg hn, if_neg (mt hwhole.mpr hn), hvalue]

end LoxLang.DecimalText

namespace LoxLang.Data.Json

/-! ## Elements -/

/-- The text starts with a character that neither is white space nor separates or ends elements. -/
def Starts (cs : List Char) : Prop := ∃ c rest, cs = c :: rest ∧ ¬ IsSpace c ∧ c ∉ [',', ']', '\x7d']

theorem Starts.head {cs : List Char} (h : Starts cs) (r : List Char) :
    ∀ c, (cs ++ r).head? = some c → ¬ IsSpace c := by
  obtain ⟨c, rest, rfl, hc, -⟩ := h
  rintro _ ⟨⟩
  exact hc

/-- White space and a mark behind it may follow a value. -/
theorem ends_append {w r : List Char} {c : Char} (hw : ∀ d ∈ w, IsSpace d) (hc : c ∈ [',', ']', '\x7d']) :
    Ends (w ++ c :: r) := by
  cases w with
  | nil =>
    rintro _ ⟨⟩
    exact List.mem_append_right [' ', '\t', '\n', '\r'] hc
  | cons d w =>
    rintro _ ⟨⟩
    exact List.mem_append_left [',', ']', '\x7d'] (hw d List.mem_cons_self)

/-- A mark behind white space on both sides is the same mark. -/
theorem mark_unique {w w' x x' : List Char} {c c' : Char} (hw : ∀ d ∈ w, IsSpace d) (hw' : ∀ d ∈ w', IsSpace d)
    (hc : c ∈ [',', ']', '\x7d']) (hc' : c' ∈ [',', ']', '\x7d']) (heq : w ++ c :: x = w' ++ c' :: x') :
    c = c' ∧ x = x' := by
  have hmark : ∀ c ∈ [',', ']', '\x7d'], ¬ IsSpace c := forall_mem_of_all (by decide)
  have hsame := append_unique hw hw' (by rintro _ ⟨⟩; exact hmark c hc) (by rintro _ ⟨⟩; exact hmark c' hc') heq
  exact List.cons.inj hsame.2

section Elements

variable {α : Type} {R : List Char → α → Prop} {good : α → Prop} {text : α → List Char}

/-- The text of an element is read as the element if it is good, and otherwise not at all. -/
structure Settles (R : List Char → α → Prop) (good : α → Prop) (text : α → List Char) (a : α) : Prop where
  starts : Starts (text a)
  reads : good a → R (text a) a
  unique : ∀ {cs b r r'}, R cs b → text a ++ r = cs ++ r' → Ends r → Ends r' → good a ∧ b = a ∧ r = r'

/-- An element behind white space is read, up to what follows it. -/
theorem Settles.behind {a b : α} (h : Settles R good text a) (hR : ∀ cs a, R cs a → Starts cs)
    {lead left cs x x' : List Char} (hlead : ∀ d ∈ lead, IsSpace d) (hleft : ∀ d ∈ left, IsSpace d) (hb : R cs b)
    (hx : Ends x) (hx' : Ends x') (heq : lead ++ (text a ++ x) = left ++ (cs ++ x')) : good a ∧ b = a ∧ x = x' :=
  h.unique hb (append_unique hlead hleft (h.starts.head x) ((hR cs b hb).head x') heq).2 hx hx'

variable {gap tail : List Char} (hgap : ∀ c ∈ gap, IsSpace c) (htail : ∀ c ∈ tail, IsSpace c)
include hgap htail

theorem separated_joined : ∀ {as : List α} {lead : List Char}, as ≠ [] → (∀ a ∈ as, Settles R good text a) →
    (∀ c ∈ lead, IsSpace c) → (∀ a ∈ as, good a) →
      Separated R (lead ++ ((',' :: gap).intercalate (as.map text) ++ tail)) as
  | [a], _, _, h, hlead, hgood => by
    rw [List.map_cons, List.map_nil, List.intercalate_singleton]
    exact .one hlead ((h a List.mem_cons_self).reads (hgood a List.mem_cons_self)) htail
  | a :: b :: as, _, _, h, hlead, hgood => by
    have hrest := separated_joined (List.cons_ne_nil b as) (fun x hx => h x (List.mem_cons_of_mem a hx)) hgap
      fun x hx => hgood x (List.mem_cons_of_mem a hx)
    have hfirst := (h a List.mem_cons_self).reads (hgood a List.mem_cons_self)
    have hmore := Separated.more hlead hfirst (List.forall_mem_nil IsSpace) hrest
    simpa [List.intercalate_cons_cons] using hmore

/-- The elements that a text is read as are those that it was written for, and all of them are good. -/
theorem Separated.unique (hR : ∀ cs a, R cs a → Starts cs) {close : Char} (hclose : close ∈ [']', '\x7d']) :
    ∀ {as bs : List α} {lead cs r r' : List Char}, as ≠ [] → (∀ a ∈ as, Settles R good text a) →
      (∀ c ∈ lead, IsSpace c) → Separated R cs bs →
      lead ++ ((',' :: gap).intercalate (as.map text) ++ (tail ++ close :: r)) = cs ++ close :: r' →
      (∀ a ∈ as, good a) ∧ bs = as ∧ r = r' := by
  have hcomma : ∀ c ∈ [']', '\x7d'], c ≠ ',' := forall_mem_of_all (by decide)
  have hclose' : close ∈ [',', ']', '\x7d'] := List.mem_cons_of_mem _ hclose
  intro as
  induction as with
  | nil => exact fun h => absurd rfl h
  | cons a as ih =>
    intro bs lead cs r r' _ h hlead hs heq
    have ha := h a List.mem_cons_self
    cases as with
    | nil =>
      cases hs with
      | one hleft hb hright =>
        simp only [List.map_cons, List.map_nil, List.intercalate_singleton, List.append_assoc] at heq
        obtain ⟨hgood, rfl, hrest⟩ := ha.behind hR hlead hleft hb (ends_append htail hclose')
          (ends_append hright hclose') heq
        exact ⟨by simpa using hgood, rfl, (mark_unique htail hright hclose' hclose' hrest).2⟩
      | more hleft hb hright hs =>
        simp only [List.map_cons, List.map_nil, List.intercalate_singleton, List.append_assoc, List.cons_append] at heq
        obtain ⟨-, -, hrest⟩ := ha.behind hR hlead hleft hb (ends_append htail hclose')
          (ends_append hright (List.mem_cons_self)) heq
        exact absurd (mark_unique htail hright hclose' List.mem_cons_self hrest).1 (hcomma close hclose)
    | cons a' as =>
      cases hs with
      | one hleft hb hright =>
        simp only [List.map_cons, List.intercalate_cons_cons, List.append_assoc, List.cons_append] at heq
        obtain ⟨-, -, hrest⟩ := ha.behind hR hlead hleft hb
          (ends_append (List.forall_mem_nil IsSpace) List.mem_cons_self) (ends_append hright hclose') heq
        exact absurd (mark_unique (List.forall_mem_nil IsSpace) hright List.mem_cons_self hclose' hrest).1.symm
          (hcomma close hclose)
      | more hleft hb hright hs =>
        simp only [List.map_cons, List.intercalate_cons_cons, List.append_assoc, List.cons_append] at heq
        obtain ⟨hgood, rfl, hrest⟩ := ha.behind hR hlead hleft hb
          (ends_append (List.forall_mem_nil IsSpace) List.mem_cons_self) (ends_append hright List.mem_cons_self) heq
        have hnext := (mark_unique (List.forall_mem_nil IsSpace) hright List.mem_cons_self List.mem_cons_self hrest).2
        obtain ⟨hgoods, rfl, hr⟩ := ih (List.cons_ne_nil a' as) (fun x hx => h x (List.mem_cons_of_mem _ hx)) hgap hs
          hnext
        exact ⟨List.forall_mem_cons.mpr ⟨hgood, hgoods⟩, rfl, hr⟩

end Elements

end LoxLang.Data.Json
