import LoxLang.Proofs.Drawn
import LoxLang.Proofs.Numerals
import LoxLang.Proofs.Regular
import LoxLang.Proofs.Renumbering
import LoxLang.Proofs.SexpText
import LoxLang.Proofs.StageTexts
import LoxLang.Syntax.Sexpr

/-!
# Trees from their S-expressions

A tree is shown as an S-expression (`Node.sexp`), and the S-expression tells the tree: names, literals and operators
stand in it as words that are told apart (`tree_of_step`). Lines and depths are not shown. So two texts that are
free of faults and are shown in the same way have the same steps, but for their lines (`steps_of_same_sexprs`).
-/

namespace LoxLang

/-! ## The S-expression of a tree -/

def Value.sexp : Value → Sexp
  | .string s => .quoted s
  | v => .word (v.shown 0 0)

namespace Node

mutual

/-- The S-expression that a tree is shown as. -/
def sexp : Node → Sexp
  | literal value _ => value.sexp
  | grouping inner _ => .list [.word "group", sexp inner] []
  | unary op operand _ => .list [.word op.symbol, sexp operand] []
  | binary op left right _ => .list [.word op.symbol, sexp left, sexp right] []
  | logical op left right _ => .list [.word op.symbol, sexp left, sexp right] []
  | var name .. => .word name
  | assign name value .. => .list [.word "=", .word name, sexp value] []
  | this .. => .word "this"
  | call callee arguments _ => .list (.word "call" :: sexp callee :: sexps arguments) []
  | get object name _ => .list [.word ".", sexp object, .word name] []
  | set object name value _ => .list [.word "=", .list [.word ".", sexp object, .word name] [], sexp value] []
  | block steps _ => .braces (sexps steps)
  | letDecl name initializer _ => .list [.word "let", .word name, sexp initializer] []
  | print expression _ => .list [.word "print", sexp expression] []
  | ifElse condition thenBranch elseBranch _ =>
    .list ([.word "if", sexp condition, sexp thenBranch]
      ++ if elseBranch.isAbsent then [] else [.word "else", sexp elseBranch]) []
  | whileLoop condition body _ => .list [.word "while", sexp condition, sexp body] []
  | function name params body _ => .list [.word "fun", .word name, .list (params.map .word) [], sexp body] []
  | returnStep value _ => .list (.word "return" :: if value.isAbsent then [] else [sexp value]) []
  | classDecl name methods _ => .list [.word "class", .word name] (sexps methods)
  | error d => .word d.shown
  | absent => .word "nil"
  | bare text => .quoted text

def sexps : List Node → List Sexp
  | [] => []
  | n :: ns => sexp n :: sexps ns

end

theorem sexps_eq_map (ns : List Node) : sexps ns = ns.map sexp := by
  induction ns with
  | nil => rfl
  | cons n ns ih => rw [sexps, ih, List.map_cons]

theorem sexprs_eq_map (width : Nat) (level : Int) (ns : List Node) :
    sexprs width level ns = ns.map (sexpr width level) := by
  induction ns with
  | nil => rfl
  | cons n ns ih => rw [sexprs, ih, List.map_cons]

theorem sexprLines_eq_map (width : Nat) (level : Int) (ns : List Node) :
    sexprLines width level ns = ns.map fun n => Value.margin width level ++ sexpr width level n := by
  induction ns with
  | nil => rfl
  | cons n ns ih => rw [sexprLines, ih, List.map_cons]

variable {width : Nat} {level : Int}

theorem toList_intercalate_cons (gap t : String) (ts : List String) :
    (gap.intercalate (t :: ts)).toList = t.toList ++ (ts.map String.toList).flatMap (gap.toList ++ ·) := by
  induction ts generalizing t with
  | nil => simp
  | cons t' ts ih =>
    have h := ih t'
    simp only [String.toList_intercalate, List.map_cons] at h ⊢
    rw [List.intercalate_cons_cons, h]
    simp

theorem led_eq_flatMap (lead : List Char) (ss : List Sexp) :
    Sexp.led width level lead ss = (ss.map (Sexp.chars width level)).flatMap (lead ++ ·) := by
  induction ss with
  | nil => rfl
  | cons s ss ih => rw [Sexp.led, ih, List.map_cons, List.flatMap_cons, List.append_assoc]

/-- Words between parentheses are shown as a list of what each of them is shown as. -/
theorem toList_form {words : List String} {ss : List Sexp}
    (h : words.map String.toList = ss.map (Sexp.chars width level)) :
    (form words).toList = (Sexp.list ss []).chars width level := by
  have hrow : (" ".intercalate words).toList = Sexp.row width level ss := by
    cases words with
    | nil =>
      cases ss with
      | nil => rfl
      | cons => cases h
    | cons t ts =>
      cases ss with
      | nil => cases h
      | cons s ss =>
        obtain ⟨ht, hts⟩ := List.cons.inj h
        rw [toList_intercalate_cons, Sexp.row, ht, led_eq_flatMap, hts]
        rfl
  simp [form, Sexp.chars, Sexp.led, hrow]

/-- Steps on lines of their own, with a line feed in front of the first one. -/
theorem toList_lines {ns : List Node} (hne : ns ≠ [])
    (h : ∀ n ∈ ns, (n.sexpr width level).toList = n.sexp.chars width level) :
    '\n' :: ("\n".intercalate (sexprLines width level ns)).toList
      = Sexp.led width level (Sexp.newLine width level) (sexps ns) := by
  obtain ⟨n, ns, rfl⟩ := List.exists_cons_of_ne_nil hne
  have hline : ∀ n ∈ ns, (Value.margin width level ++ n.sexpr width level).toList
      = (Value.margin width level).toList ++ n.sexp.chars width level := fun n hn => by
    rw [String.toList_append, h n (List.mem_cons_of_mem _ hn)]
  have hlines : (ns.map fun n => Value.margin width level ++ n.sexpr width level).map String.toList
      = ns.map fun n => (Value.margin width level).toList ++ n.sexp.chars width level := by
    rw [List.map_map]
    exact List.map_congr_left hline
  rw [sexprLines, toList_intercalate_cons, sexprLines_eq_map, hlines, sexps, Sexp.led, led_eq_flatMap, sexps_eq_map,
    String.toList_append, h n List.mem_cons_self, List.map_map, List.flatMap_map, List.flatMap_map]
  simp [Sexp.newLine]

theorem toList_shown {v : Value} (h : v.IsScanned) : (v.shown width level).toList = v.sexp.chars width level := by
  cases v with
  | string s => simp [Value.shown, Value.sexp, Sexp.chars]
  | nil | bool | number => simp [Value.shown, Value.sexp, Sexp.chars]
  | _ => exact h.elim

/-- A tree is shown as its S-expression. -/
theorem toList_sexpr {N : String → Prop} : ∀ n : Node, n.Everywhere (Drawn Value.IsScanned N) →
    ∀ level, (n.sexpr width level).toList = n.sexp.chars width level := by
  refine of_inner fun n ih hn level => ?_
  have inner : ∀ m ∈ n.children, ∀ level, (m.sexpr width level).toList = m.sexp.chars width level :=
    fun m hm => ih m hm (hn.child hm)
  have hwords {words : List String} {ss : List Sexp} (h : words.map String.toList = ss.map (Sexp.chars width level)) :
      (form words).toList = (Sexp.list ss []).chars width level := toList_form h
  -- only blocks and classes put their children on lines of their own
  cases n with
  | literal value => exact toList_shown hn.self
  | var | this | error | absent => simp [sexpr, sexp, Sexp.chars]
  | bare => exact hn.self.elim
  | call callee arguments =>
    refine hwords ?_
    simp only [children, parts, List.forall_mem_cons] at inner
    simp [Sexp.chars, inner.1, sexprs_eq_map, sexps_eq_map]
    intro a ha
    exact inner.2 a ha level
  | block steps =>
    rcases eq_or_ne steps [] with rfl | hne
    · simp [sexpr, sexprLines, braced, sexp, sexps, Sexp.chars, Sexp.led, Sexp.closing]
    · have hlines := toList_lines hne fun m hm => inner m hm (level + 1)
      have hlinesne : sexprLines width (level + 1) steps ≠ [] := by simpa [sexprLines_eq_map] using hne
      have hsexps : sexps steps ≠ [] := by simpa [sexps_eq_map] using hne
      rw [sexp, Sexp.chars, ← hlines]
      simp [sexpr, braced, hlinesne, hsexps, Sexp.closing, Sexp.newLine]
  | ifElse c t e =>
    rw [sexpr, sexp]
    refine hwords ?_
    simp only [children, parts, List.forall_mem_cons] at inner
    split <;> simp [Sexp.chars, inner]
  | function name params body =>
    have hparams : (form params).toList = (Sexp.list (params.map .word) []).chars width level :=
      hwords (by simp [Sexp.chars])
    refine hwords ?_
    simp only [children, List.forall_mem_singleton] at inner
    simp [Sexp.chars, inner, hparams]
  | returnStep value =>
    rw [sexpr, sexp]
    refine hwords ?_
    simp only [children, parts, List.forall_mem_singleton] at inner
    split <;> simp [Sexp.chars, inner]
  | classDecl name methods =>
    rcases eq_or_ne methods [] with rfl | hne
    · exact hwords (by simp [Sexp.chars])
    · have hlines := toList_lines hne fun m hm => inner m hm (level + 1)
      rw [sexp, Sexp.chars, ← hlines]
      simp [sexpr, hne, Sexp.row, Sexp.chars, Sexp.led]
  | set object name value =>
    simp only [children, parts, List.forall_mem_cons] at inner
    have htarget : (form [".", object.sexpr width level, name]).toList
        = (Sexp.list [.word ".", object.sexp, .word name] []).chars width level :=
      hwords (by simp [Sexp.chars, inner])
    exact hwords (by simp [Sexp.chars, inner, htarget])
  | grouping inner' =>
    refine hwords ?_
    simp only [children, parts, List.forall_mem_singleton] at inner
    simp [Sexp.chars, inner]
  | _ =>
    refine hwords ?_
    simp only [children, parts, List.forall_mem_cons] at inner
    simp [Sexp.chars, inner]

end Node

/-! ## Reading -/

namespace Sexp

/-- The tree that a word stands for: a literal, the receiver, or the use of a name. -/
def ofWord (s : String) : Node :=
  if s = "nil" then .literal .nil 0
  else if s = "true" then .literal (.bool true) 0
  else if s = "false" then .literal (.bool false) 0
  else if s = "this" then .this 0 none
  else if s.toList.head?.any Letter.isDigit then .literal (.number ((Decimal.read? s).getD 0)) 0
  else .var s 0 none

/-- The names among S-expressions. -/
def names (ss : List Sexp) : List String := ss.filterMap fun s => match s with
  | word s => some s
  | _ => none

/-- The tree of a list, from its head, what stands behind the head, the trees of that, and the trees of the lines. -/
def assemble (head : String) (parts : List Sexp) (nodes lines : List Node) : Node :=
  match head, parts, nodes with
  | "group", _, [n] => .grouping n 0
  | "!", _, [n] => .unary .not n 0
  | "-", _, [n] => .unary .negate n 0
  | "=", .word name :: _, [_, v] => .assign name v 0 none
  | "=", _, [.get o name _, v] => .set o name v 0
  | ".", [_, .word name], o :: _ => .get o name 0
  | "call", _, n :: args => .call n args 0
  | "let", .word name :: _, [_, i] => .letDecl name i 0
  | "print", _, [n] => .print n 0
  | "if", _, [c, t] => .ifElse c t .absent 0
  | "if", _, [c, t, _, e] => .ifElse c t e 0
  | "while", _, [c, b] => .whileLoop c b 0
  | "fun", [.word name, .list params _, _], [_, _, b] => .function name (names params) b 0
  | "return", _, [] => .returnStep .absent 0
  | "return", _, [n] => .returnStep n 0
  | "class", .word name :: _, _ => .classDecl name lines 0
  | "and", _, [a, b] => .logical .and a b 0
  | "or", _, [a, b] => .logical .or a b 0
  | op, _, [a, b] => .binary (.ofSymbol op) a b 0
  | _, _, _ => .absent

mutual

/-- The tree that an S-expression shows, with all lines zero. -/
def tree : Sexp → Node
  | word s => ofWord s
  | quoted s => .literal (.string s) 0
  | list front lines =>
    match front, trees front with
    | .word head :: parts, _ :: nodes => assemble head parts nodes (trees lines)
    | _, _ => .absent
  | braces lines => .block (trees lines) 0

def trees : List Sexp → List Node
  | [] => []
  | s :: ss => tree s :: trees ss

end

theorem trees_eq_map (ss : List Sexp) : trees ss = ss.map tree := by
  induction ss with
  | nil => rfl
  | cons s ss ih => rw [trees, ih, List.map_cons]

theorem tree_list (head : String) (parts lines : List Sexp) :
    (list (word head :: parts) lines).tree = assemble head parts (trees parts) (trees lines) := rfl

end Sexp

/-! ## Words -/

/-- A scanned value with a text that no other one has: any but the infinity. -/
def Value.IsTold (v : Value) : Prop :=
  v.IsScanned ∧ ∀ x, v = .number x → (Binary64.ofFloat x).isFinite = true

theorem drawn_of_finiteNumbers {source : String} (h : FiniteNumbers source) :
    ∀ n ∈ parse (Scan.of source).tokens, n.Everywhere (Node.Drawn Value.IsTold IsIdentifier) :=
  Parser.drawn_of_parse ⟨trivial, nofun⟩ (fun _ => ⟨trivial, nofun⟩) fun t ht => by
    have hgives := (Scan.isRead_of_mem (Scan.beforeEnd_tokens source ▸ ht)).gives
    exact ⟨fun hk => ⟨hgives.value hk, h t (List.takeWhile_subset _ ht)⟩, hgives.name⟩

/-- The text of a finite double without a sign starts with a digit, has only plain characters, and is read as it. -/
theorem Decimal.display_of_isTold {x : Float} (h : (Value.number x).IsTold) :
    ∃ c rest, (display x).toList = c :: rest ∧ Letter.isDigit c = true ∧
      (∀ d ∈ (display x).toList, d ∈ Text.plainCharacters) ∧ read? (display x) = some x := by
  obtain ⟨m, q, hx⟩ : ∃ m q, Binary64.ofFloat x = .finite false m q := by
    have hfinite := h.2 x rfl
    obtain hx | hx := Binary64.IsUnsigned.cases (show Binary64.IsUnsigned x from h.1)
    · exact hx
    · rw [hx] at hfinite
      cases hfinite
  obtain ⟨n, hn, htext, -⟩ := exists_display hx
  obtain ⟨c, rest, hbody, hc⟩ := n.exists_body
  have hchars : (display x).toList = n.chars := by rw [htext, String.toList_ofList]
  refine ⟨c, rest, ?_, hc, fun d hd => n.plain d (hchars ▸ hd), read?_display hx⟩
  rw [hchars, DecimalText.chars, hn, hbody]
  rfl

namespace Sexp

theorem isGood_of_all {s : String} (h : (!s.isEmpty && s.toList.all (· ∉ marks)) = true) : IsGood (word s) := by
  obtain ⟨hne, hs⟩ := Bool.and_eq_true_iff.mp h
  exact .word (by simpa using hne) (forall_mem_of_all hs)

/-- The words that lists of nodes start with, and the one in front of a branch. -/
def heads : List String :=
  ["group", "!", "-", "==", "!=", ">", ">=", "<", "<=", "+", "*", "/", "and", "or", "=", "call", ".", "let",
    "print", "if", "else", "while", "fun", "return", "class"]

theorem isGood_headed {head : String} (h : head ∈ heads) {parts lines : List Sexp} (hparts : ∀ s ∈ parts, IsGood s)
    (hlines : ∀ s ∈ lines, IsGood s) : IsGood (list (word head :: parts) lines) := by
  have hall : (heads.all fun s => !s.isEmpty && s.toList.all (· ∉ marks)) = true := by decide
  exact .list (List.forall_mem_cons.mpr ⟨isGood_of_all (List.all_eq_true.mp hall head h), hparts⟩) hlines

theorem isGood_of_plain {s : String} (hne : s.toList ≠ []) (hs : ∀ c ∈ s.toList, c ∈ Text.plainCharacters) :
    IsGood (word s) := by
  have hplain : ∀ c ∈ Text.plainCharacters, c ∉ marks := forall_mem_of_all (by decide)
  exact .word hne fun c hc => hplain c (hs c hc)

theorem isGood_of_isIdentifier {name : String} (h : IsIdentifier name) : IsGood (word name) := by
  obtain ⟨⟨c, more, heq, hc, hmore⟩, -⟩ := h
  have hword : ∀ c ∈ marks, Letter.isWord c = false := forall_mem_of_all (by decide)
  refine .word (heq ▸ List.cons_ne_nil c more) fun d hd hmark => ?_
  have hd : Letter.isWord d = true := by
    obtain rfl | hd := List.mem_cons.mp (heq ▸ hd)
    · simp [Letter.isWord, hc]
    · exact hmore d hd
  rw [hword d hmark] at hd
  cases hd

/-- An identifier is none of the words for literals and the receiver, and starts with no digit. -/
theorem ofWord_of_isIdentifier {name : String} (h : IsIdentifier name) : ofWord name = .var name 0 none := by
  obtain ⟨⟨c, more, heq, hc, -⟩, hkeyword⟩ := h
  have hnil : name ≠ "nil" := Ne.symm (hkeyword .nilWord (by decide))
  have htrue : name ≠ "true" := Ne.symm (hkeyword .trueWord (by decide))
  have hfalse : name ≠ "false" := Ne.symm (hkeyword .falseWord (by decide))
  have hthis : name ≠ "this" := Ne.symm (hkeyword .thisWord (by decide))
  have hdigit : Letter.isDigit c = false := by
    cases hd : Letter.isDigit c with
    | false => rfl
    | true =>
      have hall : ∀ c ∈ "0123456789".toList, Letter.isAlpha c = false := forall_mem_of_all (by decide)
      rw [hall c (Letter.mem_digits hd)] at hc
      cases hc
  rw [ofWord, if_neg hnil, if_neg htrue, if_neg hfalse, if_neg hthis, heq]
  simp [hdigit]

theorem ofWord_display {x : Float} (h : (Value.number x).IsTold) :
    ofWord (Decimal.display x) = .literal (.number x) 0 := by
  obtain ⟨c, rest, heq, hc, -, hread⟩ := Decimal.display_of_isTold h
  have hword {s : String} (hs : s.toList.head?.any Letter.isDigit = false) : Decimal.display x ≠ s := by
    rintro rfl
    simp [heq, hc] at hs
  rw [ofWord, if_neg (hword (by decide)), if_neg (hword (by decide)), if_neg (hword (by decide)),
    if_neg (hword (by decide)), if_pos (by simp [heq, hc]), hread, Option.getD_some]

theorem names_words (names : List String) : Sexp.names (names.map word) = names := by
  induction names with
  | nil => rfl
  | cons name names ih =>
    rw [List.map_cons, Sexp.names, List.filterMap_cons]
    exact congrArg (name :: ·) ih

end Sexp

namespace Node

/-- The tree with all lines zero. -/
abbrev unlined (n : Node) : Node := n.renumber fun _ => 0

/-! ## Good S-expressions -/

theorem isGood_value {v : Value} (h : v.IsTold) : v.sexp.IsGood := by
  cases v with
  | nil => exact Sexp.isGood_of_all (by decide)
  | bool b => cases b <;> exact Sexp.isGood_of_all (by decide)
  | number x =>
    obtain ⟨c, rest, heq, -, hplain, -⟩ := Decimal.display_of_isTold h
    exact Sexp.isGood_of_plain (heq ▸ List.cons_ne_nil c rest) hplain
  | string s => exact .quoted h.1
  | _ => exact h.1.elim

/-- The words of trees that can be read are good. -/
theorem isGood_sexp : ∀ n : Node, n.Everywhere (Drawn Value.IsTold IsIdentifier) → n.IsPiece → n.sexp.IsGood := by
  refine of_inner fun n ih hn hp => ?_
  have inner : ∀ m ∈ n.children, m.sexp.IsGood := fun m hm => ih m hm (hn.child hm) (hp.child hm)
  have word {name : String} (h : IsIdentifier name) : (Sexp.word name).IsGood := Sexp.isGood_of_isIdentifier h
  replace hn := hn.self
  clear ih
  cases n with
  | literal value => exact isGood_value hn
  | var => exact word hn.1
  | this => exact Sexp.isGood_of_all (by decide)
  | absent => exact Sexp.isGood_of_all (by decide)
  | error =>
    cases hp with
    | step h => cases h with | expression h => cases h
  | bare => exact hn.elim
  | unary op =>
    have hop : op.symbol ∈ Sexp.heads := by cases op <;> first | decide | exact hn.elim
    simp only [children, parts, List.forall_mem_cons] at inner
    exact Sexp.isGood_headed hop (by simp [inner]) (by simp)
  | binary op =>
    have hop : op.symbol ∈ Sexp.heads := by cases op <;> first | decide | exact hn.elim
    simp only [children, parts, List.forall_mem_cons] at inner
    exact Sexp.isGood_headed hop (by simp [inner]) (by simp)
  | logical op =>
    have hop : op.symbol ∈ Sexp.heads := by cases op <;> first | decide | exact hn.elim
    simp only [children, parts, List.forall_mem_cons] at inner
    exact Sexp.isGood_headed hop (by simp [inner]) (by simp)
  | call =>
    simp only [children, parts, List.forall_mem_cons] at inner
    exact Sexp.isGood_headed (by decide) (by simpa [sexps_eq_map] using inner) (by simp)
  | block => exact .braces (by simpa [sexps_eq_map, children] using inner)
  | classDecl =>
    exact Sexp.isGood_headed (by decide) (by simp [word hn]) (by simpa [sexps_eq_map, children] using inner)
  | assign =>
    simp only [children, parts, List.forall_mem_cons] at inner
    exact Sexp.isGood_headed (by decide) (by simp [word hn.1, inner]) (by simp)
  | get | letDecl =>
    simp only [children, parts, List.forall_mem_cons] at inner
    exact Sexp.isGood_headed (by decide) (by simp [word hn, inner]) (by simp)
  | set object name =>
    simp only [children, parts, List.forall_mem_cons] at inner
    have htarget : (Sexp.list [.word ".", object.sexp, .word name] []).IsGood :=
      Sexp.isGood_headed (by decide) (by simp [word hn, inner]) (by simp)
    exact Sexp.isGood_headed (by decide) (by simp [htarget, inner]) (by simp)
  | function name params =>
    simp only [children, List.forall_mem_cons] at inner
    have hparams : (Sexp.list (params.map .word) []).IsGood :=
      .list (List.forall_mem_map.mpr fun p hp => word (hn.2 p hp)) (by simp)
    exact Sexp.isGood_headed (by decide) (by simp [word hn.1, hparams, inner]) (by simp)
  | ifElse =>
    simp only [children, parts, List.forall_mem_cons] at inner
    refine Sexp.isGood_headed (by decide) (List.forall_mem_append.mpr ⟨by simp [inner], ?_⟩) (by simp)
    have helse : (Sexp.word "else").IsGood := Sexp.isGood_of_all (by decide)
    split <;> simp [helse, inner]
  | returnStep =>
    simp only [children, parts, List.forall_mem_cons] at inner
    refine Sexp.isGood_headed (by decide) ?_ (by simp)
    split <;> simp [inner]
  | grouping | print | whileLoop =>
    simp only [children, parts, List.forall_mem_cons] at inner
    exact Sexp.isGood_headed (by decide) (by simp [inner]) (by simp)

/-! ## Trees from S-expressions -/

theorem trees_sexps {ns : List Node} (h : ∀ n ∈ ns, n.sexp.tree = n.unlined) :
    Sexp.trees (sexps ns) = renumberAll (fun _ => 0) ns := by
  rw [Sexp.trees_eq_map, sexps_eq_map, renumberAll_eq_map, List.map_map]
  exact List.map_congr_left h

/-- The S-expression of an expression is read as the expression. -/
theorem tree_of_expression {n : Node} (h : IsExpression n) (hn : n.Everywhere (Drawn Value.IsTold IsIdentifier)) :
    n.sexp.tree = n.unlined := by
  induction h with
  | @literal v =>
    have hv : v.IsTold := hn.self
    cases v with
    | nil => rfl
    | bool b => cases b <;> rfl
    | number x => exact Sexp.ofWord_display hv
    | string => rfl
    | _ => exact hv.1.elim
  | grouping _ ih =>
    have ih := ih (hn.child (.head _))
    simp only [sexp, Sexp.tree_list, Sexp.trees, ih]
    rfl
  | @unary op _ _ _ ih =>
    have ih := ih (hn.child (.head _))
    have hop : op.IsKnown := hn.self
    simp only [sexp, Sexp.tree_list, Sexp.trees, ih]
    cases op <;> first | rfl | exact hop.elim
  | @binary op _ _ _ _ _ iha ihb =>
    have ha := iha (hn.child (.head _))
    have hb := ihb (hn.child (.tail _ (.head _)))
    have hop : op.IsKnown := hn.self
    simp only [sexp, Sexp.tree_list, Sexp.trees, ha, hb]
    cases op <;> first | rfl | exact hop.elim
  | @logical op _ _ _ _ _ iha ihb =>
    have ha := iha (hn.child (.head _))
    have hb := ihb (hn.child (.tail _ (.head _)))
    have hop : op.IsKnown := hn.self
    simp only [sexp, Sexp.tree_list, Sexp.trees, ha, hb]
    cases op <;> first | rfl | exact hop.elim
  | var => exact Sexp.ofWord_of_isIdentifier hn.self.1
  | this => rfl
  | assign _ _ ih =>
    have ih := ih (hn.child (.head _))
    simp only [sexp, Sexp.tree_list, Sexp.trees, ih]
    rfl
  | call _ _ ih ihargs =>
    have ih := ih (hn.child (.head _))
    have hargs := trees_sexps fun a ha => ihargs a ha (hn.child (.tail _ ha))
    simp only [sexp, Sexp.tree_list, Sexp.trees, ih, hargs]
    rfl
  | get _ ih =>
    have ih := ih (hn.child (.head _))
    simp only [sexp, Sexp.tree_list, Sexp.trees, ih]
    rfl
  | set _ _ iho ihv =>
    have ho := iho (hn.child (.head _))
    have hv := ihv (hn.child (.tail _ (.head _)))
    simp only [sexp, Sexp.tree_list, Sexp.trees, ho, hv]
    rfl

/-- The S-expression of a function is read as the function if that of its body is. -/
theorem tree_function {name : String} {params : List String} {body : Node} {line : Line}
    (h : body.sexp.tree = body.unlined) :
    (Node.function name params body line).sexp.tree = (Node.function name params body line).unlined := by
  simp only [sexp, Sexp.tree_list, Sexp.trees, h]
  exact congrArg (Node.function name · body.unlined 0) (Sexp.names_words params)

/-- The S-expression of a step is read as the step. -/
theorem tree_of_step {n : Node} (h : IsStep n) (hn : n.Everywhere (Drawn Value.IsTold IsIdentifier)) :
    n.sexp.tree = n.unlined := by
  induction h with
  | expression h => exact tree_of_expression h hn
  | block _ ih => exact congrArg (Node.block · 0) (trees_sexps fun m hm => ih m hm (hn.child hm))
  | letDecl _ h | print h =>
    have h := tree_of_expression h (hn.child (.head _))
    simp only [sexp, Sexp.tree_list, Sexp.trees, h]
    rfl
  | function _ _ _ _ ih => exact tree_function (ih (hn.child (.head _)))
  | @classDecl _ methods _ _ hfunctions _ _ ih =>
    refine congrArg (Node.classDecl _ · 0) (trees_sexps fun m hm => ?_)
    have hfunction := hfunctions m hm
    cases m with
    | function name params body line => exact tree_function (ih _ _ _ _ hm ((hn.child hm).child (.head _)))
    | _ => cases hfunction
  | ifThen hc _ _ iht =>
    have hc := tree_of_expression hc (hn.child (.head _))
    have ht := iht (hn.child (.tail _ (.head _)))
    rw [sexp, if_pos (show Node.absent.isAbsent = true from rfl)]
    simp only [List.append_nil, Sexp.tree_list, Sexp.trees, hc, ht]
    rfl
  | ifElse hc _ _ _ he iht ihe =>
    have hc := tree_of_expression hc (hn.child (.head _))
    have ht := iht (hn.child (.tail _ (.head _)))
    have helse := ihe (hn.child (.tail _ (.tail _ (.head _))))
    rw [sexp, if_neg (by simp [he.present])]
    simp only [List.cons_append, List.nil_append, Sexp.tree_list, Sexp.trees, hc, ht, helse]
    rfl
  | whileLoop hc _ _ ih =>
    have hc := tree_of_expression hc (hn.child (.head _))
    have hbody := ih (hn.child (.tail _ (.head _)))
    simp only [sexp, Sexp.tree_list, Sexp.trees, hc, hbody]
    rfl
  | returnNil => rfl
  | returnValue h =>
    have hv := tree_of_expression h (hn.child (.head _))
    rw [sexp, if_neg (by simp [h.present])]
    simp only [Sexp.tree_list, Sexp.trees, hv]
    rfl

/-- Steps of a program, with the values and the names that a text tells. -/
def AreTold (ns : List Node) : Prop :=
  ∀ n ∈ ns, IsStep n ∧ n.Everywhere (Drawn Value.IsTold IsIdentifier)

theorem AreTold.isGood {ns : List Node} (hns : AreTold ns) : ∀ s ∈ sexps ns, s.IsGood := by
  rw [sexps_eq_map, List.forall_mem_map]
  exact fun n hn => isGood_sexp n (hns n hn).2 (.step (hns n hn).1)

theorem AreTold.toList_sexprOf {ns : List Node} (hns : AreTold ns) (hne : ns ≠ []) :
    '\n' :: (sexprOf width level ns).toList = Sexp.led width level (Sexp.newLine width level) (sexps ns) :=
  toList_lines hne fun n hn => toList_sexpr n ((hns n hn).2.mono fun _ h => h.mono fun _ hv => hv.1) level

theorem AreTold.map_tree {ns : List Node} (hns : AreTold ns) : (sexps ns).map Sexp.tree = ns.map unlined := by
  rw [sexps_eq_map, List.map_map]
  exact List.map_congr_left fun n hn => tree_of_step (hns n hn).1 (hns n hn).2

/-- Some steps are never shown as none are: the first of them is shown by at least one character. -/
theorem AreTold.sexprOf_ne_nil {ns : List Node} (hns : AreTold ns) (hne : ns ≠ []) :
    sexprOf width level ns ≠ sexprOf width level [] := by
  intro h
  have hshown : '\n' :: (sexprOf width level ns).toList = Sexp.led width level (Sexp.newLine width level) (sexps ns) :=
    hns.toList_sexprOf hne
  obtain ⟨n, ns, rfl⟩ := List.exists_cons_of_ne_nil hne
  obtain ⟨c, rest, heq, -⟩ := (hns.isGood n.sexp (by simp [sexps])).exists_opens width level
  rw [h, sexps, Sexp.led, heq] at hshown
  simp [sexprOf, sexprLines, Sexp.newLine] at hshown

/-- Steps that can be read are told by their text. -/
theorem AreTold.unlined_of_sexprOf {ns ms : List Node} (hns : AreTold ns) (hms : AreTold ms)
    (h : sexprOf width level ns = sexprOf width level ms) : ns.map unlined = ms.map unlined := by
  rcases eq_or_ne ns [] with rfl | hne
  · rcases eq_or_ne ms [] with rfl | hne'
    · rfl
    · exact absurd h.symm (hms.sexprOf_ne_nil hne')
  · rcases eq_or_ne ms [] with rfl | hne'
    · exact absurd h (hns.sexprOf_ne_nil hne)
    · have hlines : Sexp.led width level (Sexp.newLine width level) (sexps ns) ++ []
          = Sexp.led width level (Sexp.newLine width level) (sexps ms) ++ [] := by
        rw [← hns.toList_sexprOf hne, ← hms.toList_sexprOf hne', h]
      have hsame := (Sexp.lines_unique Sexp.ends_nil Sexp.ends_nil (Sexp.stops_nil _) (Sexp.stops_nil _)
        (fun s hs => ⟨hns.isGood s hs, (hns.isGood s hs).told⟩) hms.isGood hlines).1
      rw [← hns.map_tree, ← hms.map_tree, hsame]

end Node

/-- **The text of a program tells its steps.** Two texts without diagnostics, and without infinite numbers, whose steps
are shown alike, at whatever width and level, have the same steps apart from lines. -/
theorem steps_of_same_sexprs {source source' : String} {width : Nat} {level : Int}
    (hread : Node.diagnosticsOf (parse (Scan.of source).tokens) = [])
    (hread' : Node.diagnosticsOf (parse (Scan.of source').tokens) = []) (hfinite : FiniteNumbers source)
    (hfinite' : FiniteNumbers source')
    (h : Node.sexprOf width level (parse (Scan.of source).tokens)
      = Node.sexprOf width level (parse (Scan.of source').tokens)) :
    Node.renumberAll (fun _ => 0) (parse (Scan.of source).tokens)
      = Node.renumberAll (fun _ => 0) (parse (Scan.of source').tokens) := by
  rw [Node.renumberAll_eq_map, Node.renumberAll_eq_map]
  have htold : Node.AreTold (parse (Scan.of source).tokens) :=
    fun n hn => ⟨isStep_of_parse hread n hn, drawn_of_finiteNumbers hfinite n hn⟩
  have htold' : Node.AreTold (parse (Scan.of source').tokens) :=
    fun n hn => ⟨isStep_of_parse hread' n hn, drawn_of_finiteNumbers hfinite' n hn⟩
  exact htold.unlined_of_sexprOf htold' h

/-- A text with a string over two lines, in which a parenthesis stands, and with a class over one. -/
def classyText : String := "print \"a)\nb\" == 1.50; class A \x7b m(x) \x7b return x; \x7d \x7d"

/-- The same steps on other lines. -/
def airyClassyText : String := "print \"a)\nb\"\n== 1.5;\nclass A \x7b\nm(x) \x7b\nreturn x;\n\x7d\n\x7d"

theorem classyText_same_sexprs :
    Node.sexprOf 2 0 (parse (Scan.of classyText).tokens) = Node.sexprOf 2 0 (parse (Scan.of airyClassyText).tokens) ∧
      Node.renumberAll (fun _ => 0) (parse (Scan.of classyText).tokens)
        = Node.renumberAll (fun _ => 0) (parse (Scan.of airyClassyText).tokens) := by
  have hsame : Node.sexprOf 2 0 (parse (Scan.of classyText).tokens)
      = Node.sexprOf 2 0 (parse (Scan.of airyClassyText).tokens) := by decide +kernel
  have hread : Node.diagnosticsOf (parse (Scan.of classyText).tokens) = [] := by decide +kernel
  have hread' : Node.diagnosticsOf (parse (Scan.of airyClassyText).tokens) = [] := by decide +kernel
  exact ⟨hsame, steps_of_same_sexprs hread hread' (finiteNumbers_of_all (by decide +kernel))
    (finiteNumbers_of_all (by decide +kernel)) hsame⟩

end LoxLang
