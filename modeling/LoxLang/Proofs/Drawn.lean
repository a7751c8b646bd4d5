import LoxLang.Proofs.Doubles
import LoxLang.Proofs.Everywhere
import LoxLang.Proofs.ParsedTrees
import LoxLang.Proofs.Spacing

/-!
# What trees take from tokens

The parser puts into a tree the values of number and string tokens, the names of identifiers, the operators that it
knows, and its own faults. `Node.Drawn V N` says this of one node, for values in `V` and names in `N`; it holds
everywhere in the steps of tokens that give such values and names (`drawn_of_parse`). The tokens of a text give strings
without quotes, doubles without a sign, and words that are no keywords (`drawn_of_scan`).
-/

namespace LoxLang

/-- The values and the names that the token gives to trees. -/
structure Token.Gives (V : Value → Prop) (N : String → Prop) (t : Token) : Prop where
  value : t.kind = .number ∨ t.kind = .string → V t.literal
  name : t.kind = .identifier → N t.name

namespace UnaryOp

/-- The operator is one that the language has. -/
def IsKnown : UnaryOp → Prop
  | other _ => False
  | _ => True

end UnaryOp

namespace BinaryOp

@[inherit_doc UnaryOp.IsKnown]
def IsKnown : BinaryOp → Prop
  | other _ => False
  | _ => True

end BinaryOp

namespace LogicalOp

@[inherit_doc UnaryOp.IsKnown]
def IsKnown : LogicalOp → Prop
  | other _ => False
  | _ => True

end LogicalOp

namespace Node

/-- What stands in the node beside other nodes comes from the parser, with literals in `V` and names in `N`. -/
def Drawn (V : Value → Prop) (N : String → Prop) : Node → Prop
  | literal value _ => V value
  | unary op _ _ => op.IsKnown
  | binary op _ _ _ => op.IsKnown
  | logical op _ _ _ => op.IsKnown
  | var name _ depth | assign name _ _ depth => N name ∧ depth = none
  | this _ depth => depth = none
  | get _ name _ | set _ name _ _ | letDecl name _ _ | classDecl name _ _ => N name
  | function name params _ _ => N name ∧ ∀ p ∈ params, N p
  | error d => d.phase = .parse
  | bare _ => False
  | grouping .. | call .. | block .. | print .. | ifElse .. | whileLoop .. | returnStep .. | absent => True

variable {V : Value → Prop} {N : String → Prop}

theorem Drawn.mono {V' : Value → Prop} (hV : ∀ v, V v → V' v) {n : Node} (h : n.Drawn V N) : n.Drawn V' N := by
  cases n with
  | literal value => exact hV value h
  | _ => exact h

theorem Everywhere.absent {p : Node → Prop} (h : p .absent) : Node.absent.Everywhere p := .leaf h rfl

/-- The trees of a loop's clauses and body stand in the loop, and nothing else does but the missing condition. -/
theorem drawn_forLoop {i c s : Option Node} {body : Node} (line : Line) (htrue : V (.bool true))
    (hi : ∀ n ∈ i, n.Everywhere (Drawn V N)) (hc : ∀ n ∈ c, n.Everywhere (Drawn V N))
    (hs : ∀ n ∈ s, n.Everywhere (Drawn V N)) (hb : body.Everywhere (Drawn V N)) :
    (Node.forLoop i c s body line).Everywhere (Drawn V N) := by
  have hcondition : (c.getD (.literal (.bool true) line)).Everywhere (Drawn V N) := by
    cases c with
    | none => exact .leaf htrue rfl
    | some c => exact hc c rfl
  have hloop {round : Node} (hround : round.Everywhere (Drawn V N)) :
      (Node.whileLoop (c.getD (.literal (.bool true) line)) round line).Everywhere (Drawn V N) :=
    .two trivial rfl hcondition hround
  refine .of_children trivial (List.forall_mem_append.mpr ⟨fun n hn => hi n (Option.mem_toList.mp hn), ?_⟩)
  refine List.forall_mem_singleton.mpr (hloop ?_)
  cases s with
  | none => exact hb
  | some s =>
    exact .two trivial rfl hb (hs s rfl)

end Node

open Grammar

variable {V : Value → Prop} {N : String → Prop}

namespace Grammar

theorem Level.isKnown {l : Level} {k : TokenKind} {build : Node → Node → Line → Node} (h : l.build? k = some build) :
    ∀ a b line, (build a b line).Drawn V N ∧ (build a b line).children = [a, b] := by
  cases l <;> obtain ⟨o, ho, rfl⟩ := Option.map_eq_some_iff.mp h <;> refine fun _ _ _ => ⟨?_, rfl⟩ <;>
    simp only [Parser.orOp, Parser.andOp, Parser.equalityOp, Parser.comparisonOp, Parser.termOp,
      Parser.factorOp] at ho <;>
    split at ho <;> cases ho <;> trivial

theorem drawn_given {n : Node} (h : n.Everywhere (Node.Drawn V N)) :
    ∀ m ∈ given? n, m.Everywhere (Node.Drawn V N) := by
  intro m hm
  cases n <;> cases hm <;> exact h

variable (hnil : V .nil) (hbool : ∀ b, V (.bool b))
include hnil hbool

/-- A tree that derives from tokens takes its values and names from them. -/
theorem Derives.drawn {c : Category} {ts : List Token} {n : Node} (h : Derives c ts n)
    (hgives : ∀ t ∈ ts, t.Gives V N) : n.Everywhere (Node.Drawn V N) := by
  induction h with
  | @atom t n h =>
    have ht := hgives t List.mem_cons_self
    unfold Parser.atom? at h
    split at h <;> cases h
    · exact .leaf (hbool true) rfl
    · exact .leaf (hbool false) rfl
    · exact .leaf hnil rfl
    · next hk => exact .leaf (ht.value (.inl hk)) rfl
    · next hk => exact .leaf (ht.value (.inr hk)) rfl
    · next hk => exact .leaf ⟨ht.name hk, rfl⟩ rfl
    · exact .leaf rfl rfl
  | grouping _ _ _ ih => exact .one trivial rfl (ih fun t ht => hgives t (by simp [ht]))
  | call _ _ _ hl _ ih ihargs =>
    refine .of_children trivial (List.forall_mem_cons.mpr ⟨ih fun t ht => hgives t (by simp [ht]), fun a ha => ?_⟩)
    obtain ⟨i, hi, rfl⟩ := List.mem_map.mp ha
    exact ihargs i hi fun t ht => hgives t (by simp [hl.mem (List.mem_map_of_mem hi) ht])
  | get _ _ hk ih => exact .one ((hgives _ (by simp)).name hk) rfl (ih fun t ht => hgives t (by simp [ht]))
  | unary ho _ ih =>
    refine .one ?_ rfl (ih fun t ht => hgives t (by simp [ht]))
    unfold Parser.unaryOp at ho
    split at ho <;> cases ho <;> trivial
  | left _ _ hb _ iha ihb | right _ _ hb _ iha ihb =>
    obtain ⟨hn, hc⟩ := Level.isKnown hb _ _ _
    exact .two hn hc (iha fun t ht => hgives t (by simp [ht])) (ihb fun t ht => hgives t (by simp [ht]))
  | assign hk _ _ ih => exact .one ⟨(hgives _ (by simp)).name hk, rfl⟩ rfl (ih fun t ht => hgives t (by simp [ht]))
  | set _ _ hk _ _ ihn ihv =>
    exact .two ((hgives _ (by simp)).name hk) rfl (ihn fun t ht => hgives t (by simp [ht]))
      (ihv fun t ht => hgives t (by simp [ht]))
  | noClause => exact .absent trivial
  | letNil hk => exact .one ((hgives _ (by simp)).name hk) rfl (.leaf hnil rfl)
  | letValue hk _ _ _ ih => exact .one ((hgives _ (by simp)).name hk) rfl (ih fun t ht => hgives t (by simp [ht]))
  | function hk _ hparams hl _ _ ih =>
    refine .one ⟨(hgives _ (by simp)).name hk, fun name hname => ?_⟩ rfl (ih fun t ht => hgives t (by simp [ht]))
    obtain ⟨p, hmem, rfl⟩ := List.mem_map.mp hname
    exact (hgives p (by simp [hl.mem (List.mem_map_of_mem hmem) List.mem_cons_self])).name (hparams p hmem)
  | block _ _ _ ih =>
    refine .of_children trivial fun n hn => ?_
    obtain ⟨i, hi, rfl⟩ := List.mem_map.mp hn
    exact ih i hi fun t ht => hgives t (by simpa using .inr (.inl ⟨i.1, ⟨i.2, hi⟩, ht⟩))
  | ifThen _ _ _ ihc ihb =>
    exact .three trivial rfl (ihc fun t ht => hgives t (by simp [ht])) (ihb fun t ht => hgives t (by simp [ht]))
      (.absent trivial)
  | ifElse _ _ _ _ _ ihc ihb ihe | ifElseIf _ _ _ _ _ ihc ihb ihe =>
    exact .three trivial rfl (ihc fun t ht => hgives t (by simp [ht])) (ihb fun t ht => hgives t (by simp [ht]))
      (ihe fun t ht => hgives t (by simp [ht]))
  | @classStep _ _ _ _ items _ hk _ _ _ ih =>
    refine .of_children ((hgives _ (by simp)).name hk) fun n hn => ?_
    obtain ⟨i, hi, rfl⟩ := List.mem_map.mp hn
    exact ih i hi fun t ht => hgives t (by simpa using .inr (.inr (.inr (.inl ⟨i.1, ⟨i.2, hi⟩, ht⟩))))
  | whileStep _ _ _ ihc ihb =>
    exact .two trivial rfl (ihc fun t ht => hgives t (by simp [ht])) (ihb fun t ht => hgives t (by simp [ht]))
  | forStep _ _ _ _ _ _ ihi ihc ihs ihb =>
    exact Node.drawn_forLoop _ (hbool true) (drawn_given (ihi fun t ht => hgives t (by simp [ht])))
      (drawn_given (ihc fun t ht => hgives t (by simp [ht]))) (drawn_given (ihs fun t ht => hgives t (by simp [ht])))
      (ihb fun t ht => hgives t (by simp [ht]))
  | printStep _ _ _ ih | returnStep _ _ ih => exact .one trivial rfl (ih fun t ht => hgives t (by simp [ht]))
  | primary _ ih | operand _ ih | single _ ih | plain _ ih | openingClause _ ih | ifStep _ ih | blockStep _ ih =>
    exact ih hgives
  | clause _ _ ih | openingLet _ _ ih | letStep _ _ ih | funStep _ _ ih | expressionStep _ _ ih =>
    exact ih fun t ht => hgives t (by simp [ht])

end Grammar

namespace Parser

variable (hnil : V .nil) (hbool : ∀ b, V (.bool b))
include hnil hbool

theorem upholds_drawn : Upholds (Token.Gives V N) fun n => n.Everywhere (Node.Drawn V N) where
  derived h hgives := h.drawn hnil hbool hgives
  fault _ := .leaf rfl rfl
  absent := .absent trivial
  block _ h := .of_children trivial h
  function ht hk hparams hbody := by
    refine .one ⟨ht.name hk, fun name hname => ?_⟩ rfl hbody
    obtain ⟨p, hp, rfl⟩ := List.mem_map.mp hname
    exact (hparams p hp).1.name (hparams p hp).2
  classDecl ht hk h := .of_children (ht.name hk) h
  ifElse _ hc hgives hthen helse := .three trivial rfl (hc.drawn hnil hbool hgives) hthen helse
  whileLoop _ hc hgives hbody := .two trivial rfl (hc.drawn hnil hbool hgives) hbody
  forLoop line hi hgives₁ hc hgives₂ hs hgives₃ hbody := Node.drawn_forLoop line (hbool true)
    (drawn_given (hi.drawn hnil hbool hgives₁)) (drawn_given (hc.drawn hnil hbool hgives₂))
    (drawn_given (hs.drawn hnil hbool hgives₃)) hbody

/-- Whatever the tokens, the steps take their values and names from them. -/
theorem drawn_of_parse {tokens : List Token} (hgives : ∀ t ∈ Token.beforeEnd tokens, t.Gives V N) :
    ∀ n ∈ parse tokens, n.Everywhere (Node.Drawn V N) :=
  parse_keeps (upholds_drawn hnil hbool) hgives

end Parser

/-! ## Scanned tokens -/

/-- A value as scanning gives it: a string ends at its first quote, and a number is read without a sign. -/
def Value.IsScanned : Value → Prop
  | .nil | .bool _ => True
  | .number x => Binary64.IsUnsigned x
  | .string s => '"' ∉ s.toList
  | _ => False

/-- A word that is no keyword. -/
def IsIdentifier (name : String) : Prop :=
  (∃ c more, name.toList = c :: more ∧ Letter.isAlpha c = true ∧ ∀ d ∈ more, Letter.isWord d = true) ∧
    ∀ kind ∈ TokenKind.keywords, kind.spelling ≠ name

theorem Decimal.isUnsigned_toFloat (digits : Nat) (exponent : Int) :
    Binary64.IsUnsigned (toFloat false digits exponent) := by
  unfold toFloat
  dsimp only
  repeat' split
  all_goals exact Binary64.isUnsigned_nearest _ _

namespace Token

theorem IsRead.gives {t : Token} (h : t.IsRead) : t.Gives Value.IsScanned IsIdentifier := by
  obtain ⟨kind, lexeme, line, literal⟩ := t
  obtain ⟨text, rfl⟩ : ∃ text, lexeme = String.ofList text := ⟨lexeme.toList, (String.ofList_toList).symm⟩
  simp only [IsRead, String.toList_ofList] at h
  cases h with
  | sign hk =>
    have hsigns : ∀ k ∈ TokenKind.signs, k ≠ .number ∧ k ≠ .string ∧ k ≠ .identifier := by decide
    obtain ⟨hnumber, hstring, hidentifier⟩ := hsigns _ hk
    exact ⟨fun h => (h.elim hnumber hstring).elim, fun h => (hidentifier h).elim⟩
  | keyword hk =>
    have hkeywords : ∀ k ∈ TokenKind.keywords, k ≠ .number ∧ k ≠ .string ∧ k ≠ .identifier := by decide
    obtain ⟨hnumber, hstring, hidentifier⟩ := hkeywords _ hk
    exact ⟨fun h => (h.elim hnumber hstring).elim, fun h => (hidentifier h).elim⟩
  | @identifier c more hc hmore hk =>
    refine ⟨fun h => by cases h <;> contradiction, fun _ => ⟨⟨c, more, String.toList_ofList, hc, hmore⟩, ?_⟩⟩
    exact fun kind hkind heq => hk kind hkind (by rw [heq]; exact String.toList_ofList)
  | number ht hx =>
    refine ⟨fun _ => ?_, fun h => by cases h⟩
    obtain rfl := Option.some.inj ((Decimal.read?_of_isNumeral ht).symm.trans hx)
    exact Decimal.isUnsigned_toFloat _ _
  | @string body hb =>
    refine ⟨fun _ => ?_, fun h => by cases h⟩
    show '"' ∉ (String.ofList body).toList
    rwa [String.toList_ofList]

end Token

/-- Whatever the text, its steps hold values and names that scanning gives. -/
theorem drawn_of_scan (source : String) :
    ∀ n ∈ parse (Scan.of source).tokens, n.Everywhere (Node.Drawn Value.IsScanned IsIdentifier) :=
  Parser.drawn_of_parse trivial (fun _ => trivial) fun _ ht =>
    (Scan.isRead_of_mem (Scan.beforeEnd_tokens source ▸ ht)).gives

end LoxLang
