import LoxLang.Proofs.Enclosures
import LoxLang.Proofs.Searched

/-!
# What resolution decides

`Resolve.Decides x s P Q` says that `x`, started on the scopes `s`, succeeds if and only if `P`, and then with a result
as described by `Q`. Started on scopes that hold the names in front of a place (`Mirrors`), resolution of an expression
or a step decides whether the rules for names are kept throughout it, and counts its uses as lexical scoping does. There
is one lemma for each construct; what a step leaves behind are the scopes with its name in the innermost one.
-/

namespace LoxLang

namespace Resolve

/-- The computation succeeds exactly if `P`, and then as described. -/
def Decides {α : Type} (x : Resolve α) (s : Scopes) (P : Prop) (Q : α → Scopes → Prop) : Prop :=
  match x.run s with
  | .ok (a, s') => P ∧ Q a s'
  | .error _ => ¬ P

namespace Decides

variable {α β : Type} {s : Scopes} {P P' : Prop} {Q : α → Scopes → Prop} {x : Resolve α}

theorem congr (h : x.Decides s P Q) (hP : P ↔ P') : x.Decides s P' Q := by
  rwa [← propext hP]

theorem mono {R : α → Scopes → Prop} (h : x.Decides s P Q) (hQ : ∀ a s', P → Q a s' → R a s') : x.Decides s P R := by
  unfold Decides at h ⊢
  split at h
  · exact ⟨h.1, hQ _ _ h.1 h.2⟩
  · exact h

theorem pure {a : α} (h : Q a s) : Decides (Pure.pure a) s True Q := ⟨trivial, h⟩

theorem bind {R : β → Scopes → Prop} {f : α → Resolve β} (hx : x.Decides s P Q)
    (hf : ∀ a s', Q a s' → (f a).Decides s' P' R) : (x >>= f).Decides s (P ∧ P') R := by
  unfold Decides at hx ⊢
  rw [run_bind]
  cases hr : x.run s with
  | error fault =>
    rw [hr] at hx
    exact fun h => hx h.1
  | ok result =>
    rw [hr] at hx
    have hnext := hf result.1 result.2 hx.2
    unfold Decides at hnext
    dsimp only
    split at hnext
    · next hrun => rw [hrun]; exact ⟨⟨hx.1, hnext.1⟩, hnext.2⟩
    · next hrun => rw [hrun]; exact fun h => hnext h.2

/-- A last step that only puts a result together. -/
theorem map {R : β → Scopes → Prop} {f : α → β} (hx : x.Decides s P Q) (hf : ∀ a s', Q a s' → R (f a) s') :
    (do let a ← x; Pure.pure (f a) : Resolve β).Decides s P R :=
  (hx.bind fun a s' ha => .pure (hf a s' ha)).congr (iff_of_eq (and_true P))

/-- A first step whose scopes are known. -/
theorem next {A : α → Prop} {s₁ : Scopes} {R : β → Scopes → Prop} {f : α → Resolve β}
    (hx : x.Decides s P fun a s' => A a ∧ s' = s₁) (hf : ∀ a, A a → (f a).Decides s₁ P' R) :
    (x >>= f).Decides s (P ∧ P') R :=
  hx.bind fun a _ ⟨ha, hs⟩ => hs ▸ hf a ha

/-- An only step whose scopes are known. -/
theorem last {A : α → Prop} {B : β → Prop} {s₁ : Scopes} {f : α → β} (hx : x.Decides s P fun a s' => A a ∧ s' = s₁)
    (hf : ∀ a, A a → B (f a)) :
    (do let a ← x; Pure.pure (f a) : Resolve β).Decides s P fun b s' => B b ∧ s' = s₁ :=
  hx.map fun a _ ⟨ha, hs⟩ => ⟨hf a ha, hs⟩

theorem declare (name : String) (line : Line) :
    (declare name line).Decides s (s.innermost.contains name = false) fun _ s' => True ∧ s' = s.mark name false := by
  unfold Decides
  rw [run_declare]
  cases s.innermost.contains name with
  | true => exact Bool.noConfusion
  | false => exact ⟨rfl, trivial, rfl⟩

theorem define (name : String) : (define name).Decides s True fun _ s' => True ∧ s' = s.mark name true :=
  ⟨trivial, trivial, rfl⟩

theorem checkReady (name : String) (line : Line) :
    (checkReady name line).Decides s (s.isPending name = false) fun _ s' => True ∧ s' = s := by
  unfold Decides
  rw [run_checkReady]
  cases s.isPending name with
  | true => exact Bool.noConfusion
  | false => exact ⟨rfl, trivial, rfl⟩

theorem checkInClass (inClass : Bool) (line : Line) :
    (checkInClass inClass line).Decides s (inClass = true) fun _ s' => True ∧ s' = s := by
  cases inClass with
  | true => exact ⟨rfl, trivial, rfl⟩
  | false => exact Bool.false_ne_true

theorem depthOf (name : String) : (depthOf name).Decides s True fun d s' => d = s.depthOf? name ∧ s' = s :=
  ⟨trivial, rfl, rfl⟩

/-- What is resolved in a new scope does not touch those around it. -/
theorem inScope {A : α → Prop} (h : x.Decides s.enter P fun a s' => A a ∧ s'.tail = s) :
    (inScope x).Decides s P fun a s' => A a ∧ s' = s := by
  unfold Decides at h ⊢
  rw [run_inScope]
  cases hr : x.run s.enter with
  | ok result => rwa [hr] at h
  | error fault => rwa [hr] at h

end Decides

end Resolve

/-! ## Scopes that follow the text -/

/-- The scopes hold the names in front of a place, and resolution knows whether a class is around it. -/
structure Mirrors (around : List Enclosure) (s : Scopes) (inClass : Bool) : Prop where
  names : List.Forall₂ (fun e scope => ∀ name, scope.contains name = decide (name ∈ e.front)) around s
  inClass : inClass = true ↔ ∃ e ∈ around, e.kind = .receiver

/-- No declaration is on the way. -/
def Scopes.IsReady (s : Scopes) : Prop := ∀ name, s.isPending name = false

/-- The scopes behind a step. -/
def Scopes.after (s : Scopes) (n : Node) : Scopes :=
  match n.declares? with
  | some name => s.mark name true
  | none => s

namespace Mirrors

variable {around : List Enclosure} {s : Scopes} {inClass : Bool}

theorem depthOf? (h : Mirrors around s inClass) (n : Node) (name : String) :
    s.depthOf? name = Place.depthOf ⟨around, n⟩ name := by
  have hnames := h.names
  clear h
  unfold Scopes.depthOf? Place.depthOf
  induction hnames with
  | nil => rfl
  | cons hscope _ ih => rw [List.findIdx?_cons, List.findIdx?_cons, hscope, ih]

theorem mark {kind : ScopeKind} {front behind : List String} (name : String) (ready : Bool)
    (h : Mirrors (⟨kind, front, behind⟩ :: around) s inClass) :
    Mirrors (⟨kind, front ++ [name], behind⟩ :: around) (s.mark name ready) inClass := by
  obtain ⟨hnames, hclass⟩ := h
  cases hnames with
  | @cons _ scope _ outer hscope houter =>
    refine ⟨.cons (fun other => ?_) houter, by simpa using hclass⟩
    rw [Table.contains_set, hscope]
    by_cases ho : name = other <;> simp [ho, eq_comm]

/-- What is declared behind a place does not matter. -/
theorem withBehind {kind : ScopeKind} {front behind : List String}
    (h : Mirrors (⟨kind, front, behind⟩ :: around) s inClass) (behind' : List String) :
    Mirrors (⟨kind, front, behind'⟩ :: around) s inClass := by
  obtain ⟨hnames, hclass⟩ := h
  cases hnames with
  | cons hscope houter => exact ⟨.cons hscope houter, by simpa using hclass⟩

theorem after {kind : ScopeKind} {front behind : List String} (n : Node)
    (h : Mirrors (⟨kind, front, behind⟩ :: around) s inClass) :
    Mirrors (⟨kind, front ++ n.declares?.toList, behind⟩ :: around) (s.after n) inClass := by
  unfold Scopes.after
  cases n.declares? with
  | some name => exact h.mark name true
  | none => rwa [Option.toList_none, List.append_nil]

theorem innermost {e : Enclosure} (h : Mirrors (e :: around) s inClass) (name : String) :
    s.innermost.contains name = decide (name ∈ e.front) := by
  obtain ⟨hnames, -⟩ := h
  cases hnames with
  | cons hscope _ => exact hscope name

theorem enter (kind : ScopeKind) (hk : kind ≠ .receiver) (h : Mirrors around s inClass) (behind : List String) :
    Mirrors (⟨kind, [], behind⟩ :: around) s.enter inClass :=
  ⟨.cons (fun name => by simp) h.names, by simpa [hk] using h.inClass⟩

/-- Inside the scope of `this`, a class is around. -/
theorem enterReceiver (h : Mirrors around s inClass) :
    Mirrors (.ofReceiver :: around) (s.enter.mark "this" true) true :=
  ⟨.cons (fun name => by simp [Enclosure.ofReceiver, eq_comm]) h.names, by simp [Enclosure.ofReceiver]⟩

end Mirrors

/-! ## Laws of nodes -/

namespace Place

/-- The rules for names hold of the node at the place. -/
structure Legal (p : Place) : Prop where
  distinct : p.node.opened.Nodup
  initializer : ∀ name init line, p.node = .letDecl name init line →
    Throughout (fun q => ∀ line depth, q.node ≠ .var name line depth) ⟨p.around, init⟩
  receiver : ∀ line depth, p.node = .this line depth → ∃ e ∈ p.around, e.kind = .receiver

/-- The node does not read a name that is on the way. -/
def Reads (s : Scopes) (p : Place) : Prop := ∀ name line depth, p.node = .var name line depth → s.isPending name = false

/-- The rules hold, and no name is read that is on the way. -/
def Good (s : Scopes) (p : Place) : Prop := p.Legal ∧ p.Reads s

end Place

namespace Place

/-- A node that is neither a declaration with a value nor a `this` keeps the rules if the names of its scope differ. -/
theorem Legal.of_opened {around : List Enclosure} {n : Node} (hd : n.opened.Nodup)
    (hlet : ∀ name init line, n ≠ .letDecl name init line) (hthis : ∀ line depth, n ≠ .this line depth) :
    Legal ⟨around, n⟩ :=
  ⟨hd, fun name init line h => absurd h (hlet name init line), fun line depth h => absurd h (hthis line depth)⟩

theorem counted_of_use?_none {p : Place} (h : p.node.use? = none) : p.Counted := fun name depth hu => by
  rw [h] at hu
  cases hu

end Place

/-- No rule is about the node itself: it opens no scope, declares nothing, and reads nothing. -/
def Node.IsMute : Node → Prop
  | .block .. | .letDecl .. | .function .. | .classDecl .. | .var .. | .this .. => False
  | _ => True

namespace Place

/-- A property that mute nodes have wherever they stand. -/
def AboutNames (G : Place → Prop) : Prop := ∀ n : Node, n.IsMute → ∀ around, G ⟨around, n⟩

theorem legal_aboutNames : AboutNames Legal := fun n hn around => by
  cases n <;> first | exact hn.elim | exact .of_opened .nil (by simp) (by simp)

theorem good_aboutNames (s : Scopes) : AboutNames (Good s) := fun n hn around =>
  ⟨legal_aboutNames n hn around, by cases n <;> first | exact hn.elim | simp [Reads]⟩

end Place

theorem Place.throughout_mute {G : Place → Prop} (hG : Place.AboutNames G) {around : List Enclosure} {n : Node}
    (hn : n.IsMute) : Place.Throughout G ⟨around, n⟩ ↔ ∀ inner ∈ n.parts, Place.Throughout G ⟨around, inner⟩ := by
  have hdecl : n.declares? = none := by cases n <;> first | exact hn.elim | rfl
  have hblock : ∀ steps line, n ≠ .block steps line := fun steps line h => by rw [h] at hn; exact hn
  rw [Place.throughout_parts hdecl hblock]
  exact and_iff_right (hG n hn around)

/-! ## Laws of expressions and branches -/

/-- A node is resolved to one that is the same apart from the depths, which are as lexical scoping has them. -/
structure ResolvedTo (around : List Enclosure) (n n' : Node) : Prop where
  resolves : n'.Resolves n
  counted : Place.Throughout Place.Counted ⟨around, n'⟩

/-- Resolution of the node succeeds exactly if `G` holds throughout it, and leaves the scopes as they are. -/
def Conforms (G : Place → Prop) (around : List Enclosure) (s : Scopes) (inClass : Bool) (n : Node) : Prop :=
  (Node.resolve inClass n).Decides s (Place.Throughout G ⟨around, n⟩) fun n' s' => ResolvedTo around n n' ∧ s' = s

/-- A resolved node that opens no scope, from its resolved parts. -/
theorem ResolvedTo.of_parts {around : List Enclosure} {n n' : Node} (hr : n'.Resolves n) (hn : n'.IsMute)
    (hc : Place.Counted ⟨around, n'⟩) (hp : ∀ inner ∈ n'.parts, Place.Throughout Place.Counted ⟨around, inner⟩) :
    ResolvedTo around n n' := by
  refine ⟨hr, (Place.throughout_parts ?_ fun steps line h => ?_).mpr ⟨hc, hp⟩⟩
  · cases n' <;> first | exact hn.elim | rfl
  · rw [h] at hn
    exact hn

namespace Conforms

variable {G : Place → Prop} {around : List Enclosure} {s : Scopes} {inClass : Bool} {line : Line} {n a b c : Node}

/-- Nodes that are resolved one behind the other. -/
theorem all {ns : List Node} (h : ∀ n ∈ ns, Conforms G around s inClass n) :
    (Node.resolveAll inClass ns).Decides s (∀ n ∈ ns, Place.Throughout G ⟨around, n⟩) fun ns' s' =>
      (Node.AllResolve ns' ns ∧ ∀ n' ∈ ns', Place.Throughout Place.Counted ⟨around, n'⟩) ∧ s' = s := by
  induction ns with
  | nil =>
    rw [Node.resolveAll]
    exact .congr (.pure ⟨⟨.nil, List.forall_mem_nil _⟩, rfl⟩) (by simp)
  | cons n ns ih =>
    obtain ⟨hn, hns⟩ := List.forall_mem_cons.mp h
    rw [Node.resolveAll]
    refine .congr (.next hn fun n' hn' => .last (ih hns) fun ns' hns' =>
      ⟨.cons hn'.resolves hns'.1, List.forall_mem_cons.mpr ⟨hn'.counted, hns'.2⟩⟩) ?_
    rw [List.forall_mem_cons]

section Mute

variable (hG : Place.AboutNames G)
include hG

theorem literal (v : Value) : Conforms G around s inClass (.literal v line) := by
  rw [Conforms, Node.resolve]
  refine .congr (.pure ⟨.of_parts (.literal rfl) trivial (Place.counted_of_use?_none rfl) (List.forall_mem_nil _),
    rfl⟩) ?_
  simp [Place.throughout_mute hG (n := .literal v line) trivial, Node.parts]

theorem absent : Conforms G around s inClass .absent := by
  rw [Conforms, Node.resolve]
  refine .congr (.pure ⟨.of_parts .absent trivial (Place.counted_of_use?_none rfl) (List.forall_mem_nil _), rfl⟩) ?_
  simp [Place.throughout_mute hG (n := .absent) trivial, Node.parts]

/-- Nodes around one node. -/
theorem of_one (wrap : Node → Node) (hresolve : Node.resolve inClass (wrap n) =
      (do let n' ← Node.resolve inClass n; pure (wrap n') : Resolve Node))
    (hmute : ∀ n, (wrap n).IsMute) (hparts : ∀ n, (wrap n).parts = [n]) (huse : ∀ n, (wrap n).use? = none)
    (halike : ∀ {n'}, n'.Resolves n → (wrap n').Resolves (wrap n)) (h : Conforms G around s inClass n) :
    Conforms G around s inClass (wrap n) := by
  rw [Conforms, hresolve]
  refine .congr (.last h fun n' hn =>
    .of_parts (halike hn.resolves) (hmute n') (Place.counted_of_use?_none (huse n')) ?_) ?_
  · simpa [hparts] using hn.counted
  · simp [Place.throughout_mute hG (hmute n), hparts]

/-- Nodes around two nodes. -/
theorem of_two (wrap : Node → Node → Node) (hresolve : Node.resolve inClass (wrap a b) =
      (do let a' ← Node.resolve inClass a; let b' ← Node.resolve inClass b; pure (wrap a' b') : Resolve Node))
    (hmute : ∀ a b, (wrap a b).IsMute) (hparts : ∀ a b, (wrap a b).parts = [a, b])
    (huse : ∀ a b, (wrap a b).use? = none)
    (halike : ∀ {a' b'}, a'.Resolves a → b'.Resolves b → (wrap a' b').Resolves (wrap a b))
    (ha : Conforms G around s inClass a) (hb : Conforms G around s inClass b) :
    Conforms G around s inClass (wrap a b) := by
  rw [Conforms, hresolve]
  refine .congr (.next ha fun a' ha' => .last hb fun b' hb' =>
    .of_parts (halike ha'.resolves hb'.resolves) (hmute a' b') (Place.counted_of_use?_none (huse a' b')) ?_) ?_
  · simpa [hparts] using ⟨ha'.counted, hb'.counted⟩
  · simp [Place.throughout_mute hG (hmute a b), hparts]

theorem grouping (h : Conforms G around s inClass n) : Conforms G around s inClass (.grouping n line) :=
  of_one hG (.grouping · line) (by rw [Node.resolve]) (fun _ => trivial) (fun _ => rfl) (fun _ => rfl)
    (.grouping rfl) h

theorem unary {op : UnaryOp} (h : Conforms G around s inClass n) : Conforms G around s inClass (.unary op n line) :=
  of_one hG (.unary op · line) (by rw [Node.resolve]) (fun _ => trivial) (fun _ => rfl) (fun _ => rfl)
    (.unary rfl) h

theorem get {name : String} (h : Conforms G around s inClass n) : Conforms G around s inClass (.get n name line) :=
  of_one hG (.get · name line) (by rw [Node.resolve]) (fun _ => trivial) (fun _ => rfl) (fun _ => rfl)
    (.get rfl) h

theorem print (h : Conforms G around s inClass n) : Conforms G around s inClass (.print n line) :=
  of_one hG (.print · line) (by rw [Node.resolve]) (fun _ => trivial) (fun _ => rfl) (fun _ => rfl)
    (.print rfl) h

theorem returnStep (h : Conforms G around s inClass n) : Conforms G around s inClass (.returnStep n line) :=
  of_one hG (.returnStep · line) (by rw [Node.resolve]) (fun _ => trivial) (fun _ => rfl) (fun _ => rfl)
    (.returnStep rfl) h

theorem binary {op : BinaryOp} (ha : Conforms G around s inClass a) (hb : Conforms G around s inClass b) :
    Conforms G around s inClass (.binary op a b line) :=
  of_two hG (.binary op · · line) (by rw [Node.resolve]) (fun _ _ => trivial) (fun _ _ => rfl)
    (fun _ _ => rfl) (.binary rfl) ha hb

theorem logical {op : LogicalOp} (ha : Conforms G around s inClass a) (hb : Conforms G around s inClass b) :
    Conforms G around s inClass (.logical op a b line) :=
  of_two hG (.logical op · · line) (by rw [Node.resolve]) (fun _ _ => trivial) (fun _ _ => rfl)
    (fun _ _ => rfl) (.logical rfl) ha hb

theorem whileLoop (ha : Conforms G around s inClass a) (hb : Conforms G around s inClass b) :
    Conforms G around s inClass (.whileLoop a b line) :=
  of_two hG (.whileLoop · · line) (by rw [Node.resolve]) (fun _ _ => trivial) (fun _ _ => rfl)
    (fun _ _ => rfl) (.whileLoop rfl) ha hb

/-- The value goes first. -/
theorem set {name : String} (ha : Conforms G around s inClass a) (hb : Conforms G around s inClass b) :
    Conforms G around s inClass (.set a name b line) := by
  rw [Conforms, Node.resolve]
  refine .congr (.next hb fun b' hb' => .last ha fun a' ha' =>
    .of_parts (.set rfl ha'.resolves hb'.resolves) trivial (Place.counted_of_use?_none rfl) ?_) ?_
  · simpa [Node.parts] using ⟨ha'.counted, hb'.counted⟩
  · simp [Place.throughout_mute hG (n := .set a name b line) trivial, Node.parts, and_comm]

theorem call {args : List Node} (h : Conforms G around s inClass n)
    (hargs : ∀ a ∈ args, Conforms G around s inClass a) :
    Conforms G around s inClass (.call n args line) := by
  rw [Conforms, Node.resolve]
  refine .congr (.next h fun n' hn => .last (all hargs) fun args' hargs' =>
    .of_parts (.call rfl hn.resolves hargs'.1) trivial (Place.counted_of_use?_none rfl) ?_) ?_
  · exact List.forall_mem_cons.mpr ⟨hn.counted, hargs'.2⟩
  · simp [Place.throughout_mute hG (n := .call n args line) trivial, Node.parts]

theorem ifElse (ha : Conforms G around s inClass a) (hb : Conforms G around s inClass b)
    (hc : Conforms G around s inClass c) : Conforms G around s inClass (.ifElse a b c line) := by
  rw [Conforms, Node.resolve]
  refine .congr (.next ha fun a' ha' => .next hb fun b' hb' => .last hc fun c' hc' =>
    .of_parts (.ifElse rfl ha'.resolves hb'.resolves hc'.resolves) trivial (Place.counted_of_use?_none rfl) ?_) ?_
  · simpa [Node.parts] using ⟨ha'.counted, hb'.counted, hc'.counted⟩
  · simp [Place.throughout_mute hG (n := .ifElse a b c line) trivial, Node.parts]

end Mute

/-! ## Uses -/

variable {name : String}

theorem counted_use {n' : Node} {depth : Depth} (hm : Mirrors around s inClass) (hd : depth = s.depthOf? name)
    (hu : n'.use? = some (name, depth)) : Place.Counted ⟨around, n'⟩ := fun other depth' ho => by
  rw [hu] at ho
  cases ho
  rw [hd, hm.depthOf? n' name]

theorem var (hm : Mirrors around s inClass) : Conforms (Place.Good s) around s inClass (.var name line none) := by
  have hwhole : ∀ G depth, Place.Throughout G ⟨around, .var name line depth⟩ ↔ G ⟨around, .var name line depth⟩ :=
    fun G depth => (Place.throughout_parts rfl (by simp)).trans (by simp [Node.parts])
  rw [Conforms, Node.resolve]
  refine .congr (.next (.checkReady name line) fun _ _ => .last (.depthOf name) fun d hd =>
    ⟨.var rfl rfl, (hwhole _ d).mpr (counted_use hm hd rfl)⟩) ?_
  rw [and_true, hwhole]
  constructor
  · exact fun h => ⟨.of_opened .nil (by simp) (by simp), fun other l d ho => by cases ho; exact h⟩
  · exact fun h => h.2 name line none rfl

theorem this (hm : Mirrors around s inClass) : Conforms (Place.Good s) around s inClass (.this line none) := by
  have hwhole : ∀ G depth, Place.Throughout G ⟨around, .this line depth⟩ ↔ G ⟨around, .this line depth⟩ :=
    fun G depth => (Place.throughout_parts rfl (by simp)).trans (by simp [Node.parts])
  rw [Conforms, Node.resolve]
  refine .congr (.next (.checkInClass inClass line) fun _ _ => .last (.depthOf "this") fun d hd =>
    ⟨.this rfl rfl, (hwhole _ d).mpr (counted_use hm hd rfl)⟩) ?_
  rw [and_true, hwhole, hm.inClass]
  constructor
  · exact fun h => ⟨⟨.nil, by simp, fun _ _ _ => h⟩, by simp [Place.Reads]⟩
  · exact fun h => h.1.receiver line none rfl

theorem assign (hG : Place.AboutNames G) (hm : Mirrors around s inClass) (h : Conforms G around s inClass n) :
    Conforms G around s inClass (.assign name n line none) := by
  rw [Conforms, Node.resolve]
  refine .congr (.next h fun n' hn => .last (.depthOf name) fun d hd =>
    .of_parts (.assign rfl rfl hn.resolves) trivial (counted_use hm hd rfl) ?_) ?_
  · simpa [Node.parts] using hn.counted
  · simp [Place.throughout_mute hG (n := .assign name n line none) trivial, Node.parts]

end Conforms

/-! ## Laws of steps -/

/-- Expressions are resolved by the rules wherever they stand. -/
structure ExpressionLaw (n : Node) : Prop where
  silent : n.IsSilent
  conforms : ∀ {around s inClass}, Mirrors around s inClass → Conforms (Place.Good s) around s inClass n

/-- Branches and bodies are resolved by the rules wherever no declaration is on the way. -/
structure BranchLaw (n : Node) : Prop where
  silent : n.IsSilent
  conforms : ∀ {around s inClass}, Mirrors around s inClass → s.IsReady → Conforms Place.Legal around s inClass n

/-- A step is resolved by the rules if no step before it in its scope declares the same name. Its own name counts as
declared inside it. -/
structure StepLaw (n : Node) : Prop where
  decides : ∀ {kind front behind around s inClass}, Mirrors (⟨kind, front, behind⟩ :: around) s inClass → s.IsReady →
    (Node.resolve inClass n).Decides s
      ((∀ name, n.declares? = some name → name ∉ front) ∧
        Place.Throughout Place.Legal ⟨⟨kind, front ++ n.declares?.toList, behind⟩ :: around, n⟩)
      fun n' s' => ResolvedTo (⟨kind, front ++ n.declares?.toList, behind⟩ :: around) n n' ∧ s' = s.after n

theorem ExpressionLaw.branch {n : Node} (h : ExpressionLaw n) : BranchLaw n := by
  refine ⟨h.silent, fun hm hs => (h.conforms hm).congr (Place.throughout_congr fun q => ?_)⟩
  exact and_iff_left fun name _ _ _ => hs name

theorem BranchLaw.step {n : Node} (h : BranchLaw n) : StepLaw n := by
  refine ⟨fun {kind front behind around s inClass} hm hs => ?_⟩
  rw [show s.after n = s by rw [Scopes.after, h.silent], h.silent, Option.toList_none, List.append_nil]
  exact (h.conforms hm hs).congr (by simp)

/-- The innermost of scopes that are not empty is the one that a name is marked in. -/
theorem Scopes.isPending_mark {s : Scopes} (hs : s ≠ []) (name other : String) (ready : Bool) :
    (s.mark name ready).isPending other = if name = other then !ready else s.isPending other := by
  obtain ⟨scope, outer, rfl⟩ := List.exists_cons_of_ne_nil hs
  simp only [Scopes.mark, Scopes.isPending, Scopes.innermost, List.headD_cons, Table.get?_set]
  split
  · cases ready <;> rfl
  · rfl

theorem Scopes.IsReady.mark {s : Scopes} (h : s.IsReady) (name : String) : (s.mark name true).IsReady := by
  intro other
  by_cases hs : s = []
  · subst hs; rfl
  · rw [Scopes.isPending_mark hs, h other]
    split <;> rfl

theorem Scopes.IsReady.after {s : Scopes} (h : s.IsReady) (n : Node) : (s.after n).IsReady := by
  unfold Scopes.after
  cases n.declares? with
  | some name => exact h.mark name
  | none => exact h

theorem Scopes.tail_after (s : Scopes) (n : Node) : (s.after n).tail = s.tail := by
  unfold Scopes.after Scopes.mark
  cases n.declares? <;> cases s <;> rfl

theorem Scopes.mark_mark (s : Scopes) (name : String) (a b : Bool) : (s.mark name a).mark name b = s.mark name b := by
  cases s with
  | nil => rfl
  | cons scope outer => simp [Scopes.mark]

/-! ## Blocks -/

theorem Node.AllAlike.stepNames {ns ns' : List Node} (h : Node.AllResolve ns' ns) :
    Node.stepNames ns' = Node.stepNames ns := by
  have hmap := congrArg (List.filterMap id) h.map_declares?
  rw [List.filterMap_map, List.filterMap_map] at hmap
  exact hmap.symm

/-- A step and those behind it declare different names, and none of those before them. -/
theorem distinct_cons (n : Node) (ns : List Node) (front : List String) :
    (Node.stepNames (n :: ns)).Nodup ∧ (∀ name ∈ Node.stepNames (n :: ns), name ∉ front) ↔
      (∀ name, n.declares? = some name → name ∉ front) ∧ (Node.stepNames ns).Nodup ∧
        ∀ name ∈ Node.stepNames ns, name ∉ front ++ n.declares?.toList := by
  rw [Node.stepNames_cons]
  generalize Node.stepNames ns = names
  cases n.declares? with
  | none => simp
  | some name =>
    simp only [Option.toList_some, List.singleton_append, List.nodup_cons, List.forall_mem_cons, Option.some.injEq,
      List.mem_append, List.mem_singleton, not_or, forall_eq']
    constructor
    · exact fun ⟨⟨hname, hnodup⟩, hfront, hnames⟩ =>
        ⟨hfront, hnodup, fun x hx => ⟨hnames x hx, fun he => hname (he ▸ hx)⟩⟩
    · exact fun ⟨hfront, hnodup, hnames⟩ =>
        ⟨⟨fun hname => (hnames name hname).2 rfl, hnodup⟩, hfront, fun x hx => (hnames x hx).1⟩

/-- Steps are resolved if they keep the rules, and if no name is declared twice among them and those before them. -/
theorem resolveAll_steps {ns : List Node} (h : ∀ n ∈ ns, StepLaw n) {kind : ScopeKind} {front behind : List String}
    {around : List Enclosure} {s : Scopes} {inClass : Bool}
    (hm : Mirrors (⟨kind, front, behind⟩ :: around) s inClass) (hs : s.IsReady) :
    (Node.resolveAll inClass ns).Decides s
      (((Node.stepNames ns).Nodup ∧ ∀ name ∈ Node.stepNames ns, name ∉ front) ∧
        StepsThroughout Place.Legal kind front around ns)
      fun ns' s' => (Node.AllResolve ns' ns ∧ StepsThroughout Place.Counted kind front around ns') ∧
        s'.tail = s.tail := by
  induction ns generalizing front behind s with
  | nil =>
    rw [Node.resolveAll]
    exact .congr (.pure ⟨⟨.nil, stepsThroughout_nil⟩, rfl⟩) (by simp [stepsThroughout_nil])
  | cons n ns ih =>
    obtain ⟨hn, hns⟩ := List.forall_mem_cons.mp h
    have hfirst := hn.decides (hm.withBehind (Node.stepNames ns)) hs
    have hrest := ih hns (hm.after n) (hs.after n)
    rw [Node.resolveAll]
    refine .congr (.next hfirst fun n' hn' => .map hrest fun ns' s' hns' => ?_) ?_
    · refine ⟨⟨.cons hn'.resolves hns'.1.1, stepsThroughout_cons.mpr ⟨?_, ?_⟩⟩, hns'.2.trans (s.tail_after n)⟩
      · rw [hns'.1.1.stepNames, ← hn'.resolves.declares?_eq]
        exact hn'.counted
      · rw [← hn'.resolves.declares?_eq]
        exact hns'.1.2
    · rw [stepsThroughout_cons, distinct_cons]
      exact and_and_and_comm

/-- A block is resolved in a scope of its own. -/
theorem BranchLaw.block {steps : List Node} {line : Line} (h : ∀ n ∈ steps, StepLaw n) :
    BranchLaw (.block steps line) := by
  refine ⟨rfl, fun {around s inClass} hm hs => ?_⟩
  have hsteps := resolveAll_steps h (hm.enter .block (by decide) []) (fun name => by rfl : s.enter.IsReady)
  rw [Conforms, Node.resolve]
  refine .congr (.last (.inScope hsteps) fun ns' hns => ⟨.block rfl hns.1, ?_⟩) ?_
  · exact Place.throughout_block.mpr ⟨Place.counted_of_use?_none rfl, hns.2⟩
  · rw [Place.throughout_block]
    refine and_congr_left' ⟨fun h => .of_opened h.1 (by simp) (by simp), fun h => ⟨h.distinct, fun _ _ => by simp⟩⟩

/-! ## Declarations -/

/-- Making a declared name ready. -/
theorem Resolve.Decides.defineMarked (s : Scopes) (name : String) :
    (Resolve.define name).Decides (s.mark name false) True fun _ s' => True ∧ s' = s.mark name true := by
  rw [← s.mark_mark name false true]
  exact .define name

/-- A variable is declared before its initializer is resolved, and ready behind it. -/
theorem StepLaw.letDecl {name : String} {init : Node} {line : Line} (h : ExpressionLaw init) :
    StepLaw (.letDecl name init line) := by
  refine ⟨fun {kind front behind around s inClass} hm hs => ?_⟩
  have hinit := h.conforms (hm.mark name false)
  have hreads : ∀ p : Place, p.Reads (s.mark name false) ↔ ∀ line depth, p.node ≠ .var name line depth := by
    intro p
    have hne : s ≠ [] := by rintro rfl; cases hm.names
    constructor
    · intro hp line depth hvar
      have hpending := hp name line depth hvar
      rw [Scopes.isPending_mark hne, if_pos rfl] at hpending
      cases hpending
    · intro hp other line depth hvar
      rw [Scopes.isPending_mark hne, if_neg, hs other]
      rintro rfl
      exact hp line depth hvar
  rw [Node.resolve]
  refine .congr (.next (.declare name line) fun _ _ => .next hinit fun init' hinit' =>
    .last (.defineMarked s name) fun _ _ => ⟨.letDecl rfl hinit'.resolves, ?_⟩) ?_
  · exact Place.throughout_letDecl.mpr ⟨Place.counted_of_use?_none rfl, hinit'.counted⟩
  · rw [hm.innermost, and_true, Place.throughout_letDecl, decide_eq_false_iff_not]
    refine and_congr (by simp [Node.declares?]) ?_
    rw [show Place.Good (s.mark name false) = fun p => p.Legal ∧ p.Reads (s.mark name false) from rfl,
      Place.throughout_and, Place.throughout_congr hreads]
    constructor
    · exact fun h => ⟨⟨.nil, fun _ _ _ he => by cases he; exact h.2, by simp⟩, h.1⟩
    · exact fun h => ⟨h.2, h.1.initializer name init line rfl⟩

/-- Parameters are declared in a scope of their own. -/
theorem declareParameters_decides (line : Line) (params : List String) {front behind : List String}
    {around : List Enclosure} {s : Scopes} {inClass : Bool}
    (hm : Mirrors (⟨.parameters, front, behind⟩ :: around) s inClass) (hs : s.IsReady) :
    (params.forM (Resolve.declareParameter line)).Decides s (params.Nodup ∧ ∀ p ∈ params, p ∉ front) fun _ s' =>
      Mirrors (⟨.parameters, front ++ params, behind⟩ :: around) s' inClass ∧ s'.IsReady ∧ s'.tail = s.tail := by
  induction params generalizing front s with
  | nil => exact .congr (.pure ⟨by rwa [List.append_nil], hs, rfl⟩) (by simp)
  | cons p params ih =>
    show (do Resolve.declareParameter line p; params.forM (Resolve.declareParameter line) : Resolve Unit).Decides _ _ _
    have hp : (Resolve.declareParameter line p).Decides s (p ∉ front) fun _ s' => True ∧ s' = s.mark p true := by
      refine .congr (.next (.declare p line) fun _ _ => .defineMarked s p) ?_
      rw [hm.innermost, and_true, decide_eq_false_iff_not]
    refine .congr (.next hp fun _ _ => (ih (hm.mark p true) (hs.mark p)).mono fun _ s' _ h => ?_) ?_
    · rw [List.append_assoc] at h
      exact ⟨h.1, h.2.1, h.2.2.trans (by cases s <;> rfl)⟩
    · have hcons := List.nodup_cons (a := p) (l := params)
      simp only [List.mem_append, List.mem_singleton, not_or, List.forall_mem_cons, hcons]
      constructor
      · exact fun ⟨hp, hnodup, hparams⟩ =>
          ⟨⟨fun hmem => (hparams p hmem).2 rfl, hnodup⟩, hp, fun q hq => (hparams q hq).1⟩
      · exact fun ⟨⟨hne, hnodup⟩, hp, hparams⟩ =>
          ⟨hp, hnodup, fun q hq => ⟨hparams q hq, fun he => hne (he ▸ hq)⟩⟩

/-- The body of a function is resolved in the scope of its parameters. -/
theorem BranchLaw.inParameters {body : Node} (h : BranchLaw body) (line : Line) (params : List String)
    {around : List Enclosure} {s : Scopes} {inClass : Bool} (hm : Mirrors around s inClass) :
    (Resolve.inScope (do
        params.forM (Resolve.declareParameter line)
        Node.resolve inClass body)).Decides s
      (params.Nodup ∧ Place.Throughout Place.Legal ⟨.ofParameters params :: around, body⟩)
      fun body' s' => ResolvedTo (.ofParameters params :: around) body body' ∧ s' = s := by
  have hparams := declareParameters_decides line params (hm.enter .parameters (by decide) [])
    (fun name => by rfl : s.enter.IsReady)
  refine .inScope (.congr (.bind hparams fun _ s' h' => (h.conforms h'.1 h'.2.1).mono fun body' s'' _ hb => ?_) ?_)
  · exact ⟨hb.1, by rw [hb.2]; exact h'.2.2⟩
  · simp only [List.not_mem_nil, not_false_eq_true, implies_true, and_true]
    rfl

/-- A function is resolved by the rules for its body, in the scope of its parameters. -/
theorem StepLaw.function {name : String} {params : List String} {body : Node} {line : Line} (h : BranchLaw body) :
    StepLaw (.function name params body line) := by
  refine ⟨fun {kind front behind around s inClass} hm _ => ?_⟩
  have hbody := h.inParameters line params (hm.mark name true)
  rw [Node.resolve]
  refine .congr (.next (.declare name line) fun _ _ => .next (.defineMarked s name) fun _ _ =>
    .last hbody fun body' hbody' => ⟨.function rfl hbody'.resolves, ?_⟩) ?_
  · exact Place.throughout_function.mpr ⟨Place.counted_of_use?_none rfl, hbody'.counted⟩
  · rw [hm.innermost, true_and, Place.throughout_function, decide_eq_false_iff_not]
    refine and_congr (by simp [Node.declares?]) (and_congr_left' ?_)
    exact ⟨fun h => .of_opened h (by simp) (by simp), fun h => h.distinct⟩

/-! ## Classes -/

/-- Methods are functions. -/
def MethodLaw (n : Node) : Prop := ∃ name params body line, n = .function name params body line ∧ BranchLaw body

theorem resolveMethods_decides {methods : List Node} (h : ∀ m ∈ methods, MethodLaw m) {around : List Enclosure}
    {s : Scopes} (hm : Mirrors around s true) :
    (Node.resolveMethods methods).Decides s (∀ m ∈ methods, Place.Throughout Place.Legal ⟨around, m⟩)
      fun methods' s' => (Node.AllResolve methods' methods ∧
        ∀ m ∈ methods', Place.Throughout Place.Counted ⟨around, m⟩) ∧ s' = s := by
  induction methods with
  | nil =>
    rw [Node.resolveMethods]
    exact .congr (.pure ⟨⟨.nil, List.forall_mem_nil _⟩, rfl⟩) (by simp)
  | cons m methods ih =>
    obtain ⟨⟨name, params, body, line, rfl, hbody⟩, hmethods⟩ := List.forall_mem_cons.mp h
    rw [Node.resolveMethods]
    refine .congr (.next (hbody.inParameters line params hm) fun body' hbody' =>
      .last (ih hmethods) fun methods' hmethods' => ⟨.cons (.function rfl hbody'.resolves) hmethods'.1, ?_⟩) ?_
    · exact List.forall_mem_cons.mpr
        ⟨Place.throughout_function.mpr ⟨Place.counted_of_use?_none rfl, hbody'.counted⟩, hmethods'.2⟩
    · rw [List.forall_mem_cons, Place.throughout_function]
      refine and_congr_left' (and_congr_left' ?_)
      exact ⟨fun h => .of_opened h (by simp) (by simp), fun h => h.distinct⟩

/-- The methods of a class are resolved in the scope of `this`. -/
theorem StepLaw.classDecl {name : String} {methods : List Node} {line : Line} (h : ∀ m ∈ methods, MethodLaw m) :
    StepLaw (.classDecl name methods line) := by
  refine ⟨fun {kind front behind around s inClass} hm _ => ?_⟩
  have hmethods := resolveMethods_decides h (hm.mark name true).enterReceiver
  have hinner : (do Resolve.define "this"; Node.resolveMethods methods : Resolve (List Node)).Decides
      (s.mark name true).enter _ _ :=
    .next (.define "this") fun _ _ => hmethods.mono fun methods' s' _ hm' =>
      (⟨hm'.1, by rw [hm'.2]; rfl⟩ : _ ∧ s'.tail = s.mark name true)
  rw [Node.resolve]
  refine .congr (.next (.declare name line) fun _ _ => .next (.defineMarked s name) fun _ _ =>
    .last (.inScope hinner) fun methods' hmethods' => ⟨.classDecl rfl hmethods'.1, ?_⟩) ?_
  · exact Place.throughout_classDecl.mpr ⟨Place.counted_of_use?_none rfl, hmethods'.2⟩
  · rw [hm.innermost, true_and, true_and, Place.throughout_classDecl, decide_eq_false_iff_not]
    refine and_congr (by simp [Node.declares?]) ?_
    exact (and_iff_right (.of_opened .nil (by simp) (by simp))).symm

/-! ## Programs -/

/-- A program is resolved exactly if it keeps the rules for names, and then to one that is the same apart from the
depths, which are as lexical scoping has them. -/
theorem resolve_decides {program : List Node} (h : ∀ n ∈ program, StepLaw n) :
    ((∃ resolved, resolve program = .ok resolved) ↔ WellScoped program) ∧
      ∀ resolved, resolve program = .ok resolved →
        Node.AllResolve resolved program ∧ ∀ p : Place, p.In resolved → p.Counted := by
  have hm : Mirrors [⟨.program, [], []⟩] Scopes.initial false := ⟨.cons (fun name => by simp) .nil, by simp⟩
  have hrun := resolveAll_steps h hm (fun name => by rfl : Scopes.initial.IsReady)
  have hrules : ((Node.stepNames program).Nodup ∧ ∀ name ∈ Node.stepNames program, name ∉ []) ∧
      StepsThroughout Place.Legal .program [] [] program ↔ WellScoped program := by
    rw [← Place.forall_in_iff]
    constructor
    · exact fun h => ⟨h.1.1, fun p hp => (h.2 p hp).distinct, fun p hp => (h.2 p hp).initializer,
        fun p hp => (h.2 p hp).receiver⟩
    · exact fun h => ⟨⟨h.global, by simp⟩, fun p hp => ⟨h.distinct p hp, h.initializers p hp, h.receivers p hp⟩⟩
  rw [hrules] at hrun
  unfold Resolve.Decides at hrun
  unfold resolve
  cases hr : (Node.resolveAll false program).run Scopes.initial with
  | error fault =>
    rw [hr] at hrun
    exact ⟨⟨nofun, fun hw => absurd hw hrun⟩, nofun⟩
  | ok result =>
    rw [hr] at hrun
    refine ⟨⟨fun _ => hrun.1, fun _ => ⟨result.1, rfl⟩⟩, fun resolved he => ?_⟩
    cases he
    exact ⟨hrun.2.1.1, Place.forall_in_iff.mpr hrun.2.1.2⟩

end LoxLang
