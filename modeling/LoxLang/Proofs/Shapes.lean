import LoxLang.Proofs.Grammar
import LoxLang.Proofs.Twins

/-!
# The trees of programs that can be read

`IsExpression` and `IsStep` say which trees the parser builds when nothing is wrong: literals are plain values, names
are no keywords, uses have no depths, branches and the bodies of loops, functions and methods are blocks, and a place
where something may be left out holds an expression, a block or nothing.
-/

namespace LoxLang

/-- No name that can be declared is the keyword for the receiver. -/
def IsName (name : String) : Prop := name ≠ "this"

inductive IsExpression : Node → Prop
  | literal {v l} : v.IsLiteral → IsExpression (.literal v l)
  | grouping {n l} : IsExpression n → IsExpression (.grouping n l)
  | unary {op n l} : IsExpression n → IsExpression (.unary op n l)
  | binary {op a b l} : IsExpression a → IsExpression b → IsExpression (.binary op a b l)
  | logical {op a b l} : IsExpression a → IsExpression b → IsExpression (.logical op a b l)
  | var {name l} : IsName name → IsExpression (.var name l none)
  | this {l} : IsExpression (.this l none)
  | assign {name n l} : IsName name → IsExpression n → IsExpression (.assign name n l none)
  | call {n args l} : IsExpression n → (∀ a ∈ args, IsExpression a) → IsExpression (.call n args l)
  | get {n name l} : IsExpression n → IsExpression (.get n name l)
  | set {n name v l} : IsExpression n → IsExpression v → IsExpression (.set n name v l)

/-- The node declares no name where it stands. -/
abbrev Node.IsSilent (n : Node) : Prop := n.declares? = none

inductive IsStep : Node → Prop
  | expression {n} : IsExpression n → IsStep n
  | block {steps l} : (∀ n ∈ steps, IsStep n) → IsStep (.block steps l)
  | letDecl {name n l} : IsName name → IsExpression n → IsStep (.letDecl name n l)
  | function {name params body l} : IsName name → (∀ p ∈ params, IsName p) → body.IsSilent → IsStep body →
      IsStep (.function name params body l)
  | classDecl {name methods l} : IsName name → (∀ n ∈ methods, n.functionName?.isSome) →
      (∀ m params body l', .function m params body l' ∈ methods → (∀ p ∈ params, IsName p) ∧ body.IsSilent) →
      (∀ m params body l', .function m params body l' ∈ methods → IsStep body) → IsStep (.classDecl name methods l)
  | print {n l} : IsExpression n → IsStep (.print n l)
  | ifThen {c t l} : IsExpression c → t.IsSilent → IsStep t → IsStep (.ifElse c t .absent l)
  | ifElse {c t e l} : IsExpression c → t.IsSilent → IsStep t → e.IsSilent → IsStep e → IsStep (.ifElse c t e l)
  | whileLoop {c n l} : IsExpression c → n.IsSilent → IsStep n → IsStep (.whileLoop c n l)
  | returnNil {l} : IsStep (.returnStep .absent l)
  | returnValue {n l} : IsExpression n → IsStep (.returnStep n l)

theorem IsExpression.isSilent {n : Node} (h : IsExpression n) : n.IsSilent := by
  cases h <;> rfl

theorem IsExpression.present {n : Node} (h : IsExpression n) : n.isAbsent = false := by
  cases h <;> rfl

theorem IsStep.present {n : Node} (h : IsStep n) : n.isAbsent = false := by
  cases h with
  | expression h => exact h.present
  | _ => rfl

/-! ## Trees of plain tokens -/

/-- A token as scanning gives it: it stands for a plain value, and no identifier spells the keyword `this`. -/
structure Token.Plain (t : Token) : Prop where
  literal : t.literal.IsLiteral
  name : t.kind = .identifier → IsName t.name

namespace Grammar

def Category.Shape : Category → Node → Prop
  | .clause _, n => n = .absent ∨ IsExpression n
  | .opening, n => n = .absent ∨ IsStep n
  | .function, n => ∃ name params body line, n = .function name params body line ∧ IsName name ∧
      (∀ p ∈ params, IsName p) ∧ body.IsSilent ∧ IsStep body
  | .block, n | .ifStep, n => n.IsSilent ∧ IsStep n
  | .letDecl, n | .declaration, n => IsStep n
  | _, n => IsExpression n

theorem Level.shape_operand (l : Level) (n : Node) : l.operand.Shape n ↔ IsExpression n := by
  cases l <;> rfl

theorem forLoop_shape {i c s b : Node} {line : Line} (hi : i = .absent ∨ IsStep i) (hc : c = .absent ∨ IsExpression c)
    (hs : s = .absent ∨ IsExpression s) (hb : IsStep b) (hsilent : b.IsSilent) :
    IsStep (Node.forLoop (given? i) (given? c) (given? s) b line) := by
  have hcondition : IsExpression ((given? c).getD (.literal (.bool true) line)) := by
    obtain rfl | hc := hc
    · exact .literal trivial
    · rw [given?_of_present hc.present]
      exact hc
  have hloop : ∃ round, Node.forLoop (given? i) (given? c) (given? s) b line =
      .block ((given? i).toList ++ [.whileLoop ((given? c).getD (.literal (.bool true) line)) round line]) line ∧
      round.IsSilent ∧ IsStep round := by
    obtain rfl | hs := hs
    · exact ⟨b, rfl, hsilent, hb⟩
    · refine ⟨.block [b, s] line, by rw [given?_of_present hs.present]; rfl, rfl, .block fun n hn => ?_⟩
      obtain rfl | rfl : n = b ∨ n = s := by simpa using hn
      · exact hb
      · exact .expression hs
  obtain ⟨round, hloop, hquiet, hround⟩ := hloop
  rw [hloop]
  refine .block fun n hn => ?_
  obtain hn | hn := List.mem_append.mp hn
  · obtain rfl | hi := hi
    · cases hn
    · rw [given?_of_present hi.present, Option.toList_some, List.mem_singleton] at hn
      exact hn ▸ hi
  · exact List.mem_singleton.mp hn ▸ .whileLoop hcondition hquiet hround

/-- A tree that derives from plain tokens has the shape of its category. -/
theorem Derives.shape {c : Category} {ts : List Token} {n : Node} (h : Derives c ts n) (hp : ∀ t ∈ ts, t.Plain) :
    c.Shape n := by
  induction h with
  | @atom t n h =>
    have ht := hp t List.mem_cons_self
    unfold Parser.atom? at h
    split at h <;> cases h
    · exact .literal trivial
    · exact .literal trivial
    · exact .literal trivial
    · exact .literal ht.literal
    · exact .literal ht.literal
    · next hk => exact .var (ht.name hk)
    · exact .this
  | grouping _ _ _ ih => exact .grouping (ih fun t ht => hp t (by simp [ht]))
  | primary _ ih => exact ih hp
  | call _ _ _ hl _ ih ihargs =>
    refine .call (ih fun t ht => hp t (by simp [ht])) fun a ha => ?_
    obtain ⟨i, hi, rfl⟩ := List.mem_map.mp ha
    exact ihargs i hi fun t ht => hp t (by simp [hl.mem (List.mem_map_of_mem hi) ht])
  | get _ _ _ ih => exact .get (ih fun t ht => hp t (by simp [ht]))
  | operand _ ih => exact ih hp
  | unary _ _ ih => exact .unary (ih fun t ht => hp t (by simp [ht]))
  | @single l _ n _ ih => exact (l.shape_operand n).mp (ih hp)
  | @left l _ _ _ _ _ b _ _ hb _ iha ihb =>
    have ha := iha fun t ht => hp t (by simp [ht])
    have hb' := (l.shape_operand b).mp (ihb fun t ht => hp t (by simp [ht]))
    obtain ⟨o, rfl⟩ | ⟨o, rfl⟩ := Level.build?_shape hb
    · exact .logical ha hb'
    · exact .binary ha hb'
  | @right l _ a _ _ _ _ _ _ hb _ iha ihb =>
    have ha := (l.shape_operand a).mp (iha fun t ht => hp t (by simp [ht]))
    have hb' := ihb fun t ht => hp t (by simp [ht])
    obtain ⟨o, rfl⟩ | ⟨o, rfl⟩ := Level.build?_shape hb
    · exact .logical ha hb'
    · exact .binary ha hb'
  | assign ht _ _ ih => exact .assign ((hp _ (by simp)).name ht) (ih fun t ht => hp t (by simp [ht]))
  | set _ _ _ _ _ ihn ihv => exact .set (ihn fun t ht => hp t (by simp [ht])) (ihv fun t ht => hp t (by simp [ht]))
  | plain _ ih => exact ih hp
  | noClause => exact .inl rfl
  | clause _ _ ih => exact .inr (ih fun t ht => hp t (by simp [ht]))
  | openingClause _ ih => exact (ih hp).imp id .expression
  | openingLet _ _ ih => exact .inr (ih fun t ht => hp t (by simp [ht]))
  | letNil ht => exact .letDecl ((hp _ (by simp)).name ht) (.literal trivial)
  | letValue ht _ _ _ ih => exact .letDecl ((hp _ (by simp)).name ht) (ih fun t ht => hp t (by simp [ht]))
  | function ht _ hparams hl _ _ ih =>
    obtain ⟨hsilent, hbody⟩ := ih fun t ht => hp t (by simp [ht])
    refine ⟨_, _, _, _, rfl, (hp _ (by simp)).name ht, fun name hname => ?_, hsilent, hbody⟩
    obtain ⟨p, hmem, rfl⟩ := List.mem_map.mp hname
    exact (hp p (by simp [hl.mem (List.mem_map_of_mem hmem) List.mem_cons_self])).name (hparams p hmem)
  | block _ _ _ ih =>
    refine ⟨rfl, .block fun n hn => ?_⟩
    obtain ⟨i, hi, rfl⟩ := List.mem_map.mp hn
    exact ih i hi fun t ht => hp t (by simpa using .inr (.inl ⟨i.1, ⟨i.2, hi⟩, ht⟩))
  | ifThen _ _ _ ihc ihb =>
    obtain ⟨hsilent, hb⟩ := ihb fun t ht => hp t (by simp [ht])
    exact ⟨rfl, .ifThen (ihc fun t ht => hp t (by simp [ht])) hsilent hb⟩
  | ifElse _ _ _ _ _ ihc ihb ihe =>
    obtain ⟨hsilent, hb⟩ := ihb fun t ht => hp t (by simp [ht])
    obtain ⟨hsilent', hb'⟩ := ihe fun t ht => hp t (by simp [ht])
    exact ⟨rfl, .ifElse (ihc fun t ht => hp t (by simp [ht])) hsilent hb hsilent' hb'⟩
  | ifElseIf _ _ _ _ _ ihc ihb ihn =>
    obtain ⟨hsilent, hb⟩ := ihb fun t ht => hp t (by simp [ht])
    obtain ⟨hsilent', hn⟩ := ihn fun t ht => hp t (by simp [ht])
    exact ⟨rfl, .ifElse (ihc fun t ht => hp t (by simp [ht])) hsilent hb hsilent' hn⟩
  | letStep _ _ ih => exact ih fun t ht => hp t (by simp [ht])
  | funStep _ _ ih =>
    obtain ⟨_, _, _, _, rfl, hname, hparams, hsilent, hbody⟩ := ih fun t ht => hp t (by simp [ht])
    exact .function hname hparams hsilent hbody
  | @classStep _ _ _ _ items _ hname _ _ _ ih =>
    have hmethods : ∀ n ∈ items.map (·.2), Category.function.Shape n := fun n hn => by
      obtain ⟨i, hi, rfl⟩ := List.mem_map.mp hn
      exact ih i hi fun t ht => hp t (by simpa using .inr (.inr (.inr (.inl ⟨i.1, ⟨i.2, hi⟩, ht⟩))))
    refine .classDecl ((hp _ (by simp)).name hname) (fun n hn => ?_) (fun m params body l hm => ?_)
      fun m params body l hm => ?_
    · obtain ⟨_, _, _, _, rfl, -⟩ := hmethods n hn
      rfl
    · obtain ⟨_, _, _, _, h, -, hparams, hsilent, -⟩ := hmethods _ hm
      cases h
      exact ⟨hparams, hsilent⟩
    · obtain ⟨_, _, _, _, h, -, -, -, hbody⟩ := hmethods _ hm
      cases h
      exact hbody
  | printStep _ _ _ ih => exact .print (ih fun t ht => hp t (by simp [ht]))
  | ifStep _ ih => exact (ih hp).2
  | whileStep _ _ _ ihc ihb =>
    obtain ⟨hsilent, hb⟩ := ihb fun t ht => hp t (by simp [ht])
    exact .whileLoop (ihc fun t ht => hp t (by simp [ht])) hsilent hb
  | forStep _ _ _ _ _ _ ihi ihc ihs ihb =>
    obtain ⟨hsilent, hb⟩ := ihb fun t ht => hp t (by simp [ht])
    exact forLoop_shape (ihi fun t ht => hp t (by simp [ht])) (ihc fun t ht => hp t (by simp [ht]))
      (ihs fun t ht => hp t (by simp [ht])) hb hsilent
  | returnStep _ _ ih =>
    obtain rfl | hn := ih fun t ht => hp t (by simp [ht])
    · exact .returnNil
    · exact .returnValue hn
  | blockStep _ ih => exact (ih hp).2
  | expressionStep _ _ ih => exact .expression (ih fun t ht => hp t (by simp [ht]))

/-- The declarations of plain tokens are steps. -/
theorem Program.shape {ts : List Token} {ns : List Node} (h : Program ts ns) (hp : ∀ t ∈ ts, t.Plain) :
    ∀ n ∈ ns, IsStep n := by
  obtain ⟨items, hi, rfl, rfl⟩ := h
  intro n hn
  obtain ⟨i, hmem, rfl⟩ := List.mem_map.mp hn
  exact (hi i hmem).shape fun t ht => hp t (List.mem_flatMap.mpr ⟨i, hmem, ht⟩)

end Grammar

end LoxLang
