import LoxLang.Proofs.Drawn
import LoxLang.Proofs.JsonText
import LoxLang.Session.Stage
import Mathlib.Data.List.Forall2

/-!
# Trees from their data

Nothing of a parsed tree is lost in its plain data: texts whose steps have the same data, in the weakest sense in which
typed data are the same, have the same steps (`steps_of_same_data`). A record tells what kind of node it stands for, and
field by field what stands in the node.
-/

namespace LoxLang

/-! ## Data that are the same -/

namespace Data

/-- The data have the same value, with nulls, booleans, numbers and texts kept apart. Numbers are compared by their
values, be they integers or doubles, and the fields of records in any order. -/
inductive Same : Data → Data → Prop
  | null : Same .null .null
  | bool (b : Bool) : Same (.bool b) (.bool b)
  | integer (n : Int) : Same (.integer n) (.integer n)
  | number {x y : Float} : (x == y) = true → Same (.number x) (.number y)
  | integerNumber {n : Int} {x : Float} : Binary64.compareInt n (Binary64.ofFloat x) = some .eq →
      Same (.integer n) (.number x)
  | numberInteger {x : Float} {n : Int} : Binary64.compareInt n (Binary64.ofFloat x) = some .eq →
      Same (.number x) (.integer n)
  | text (s : String) : Same (.text s) (.text s)
  | list {items items' : List Data} : List.Forall₂ Same items items' → Same (.list items) (.list items')
  | record {fields fields' : List (String × Data)} :
      (∀ key, (fields.lookup key).isSome = (fields'.lookup key).isSome) →
      (∀ key d d', fields.lookup key = some d → fields'.lookup key = some d' → Same d d') →
      Same (.record fields) (.record fields')

/-- The fields of a record. -/
def fields : Data → List (String × Data)
  | record fields => fields
  | _ => []

theorem lookup_of_mem {fields : List (String × Data)} (hkeys : (fields.map (·.1)).Nodup) {key : String} {d : Data}
    (h : (key, d) ∈ fields) : fields.lookup key = some d := by
  induction fields with
  | nil => cases h
  | cons f fields ih =>
    obtain ⟨hnew, hkeys⟩ := List.nodup_cons.mp hkeys
    obtain rfl | h := List.mem_cons.mp h
    · exact List.lookup_cons_self
    · have hne : (key == f.1) = false := by
        rw [beq_eq_false_iff_ne]
        rintro rfl
        exact hnew (List.mem_map_of_mem (f := (·.1)) h)
      rw [List.lookup_cons, hne]
      exact ih hkeys h

namespace Same

@[simp]
theorem text_iff {s t : String} : Same (.text s) (.text t) ↔ s = t :=
  ⟨fun h => by cases h; rfl, fun h => h ▸ .text s⟩

@[simp]
theorem integer_iff {n k : Int} : Same (.integer n) (.integer k) ↔ n = k :=
  ⟨fun h => by cases h; rfl, fun h => h ▸ .integer n⟩

theorem items {ds ds' : List Data} (h : Same (.list ds) (.list ds')) : List.Forall₂ Same ds ds' := by
  cases h
  assumption

theorem texts_inj {ss ts : List String} (h : Same (.ofTexts ss) (.ofTexts ts)) : ss = ts := by
  have h := h.items
  simp only [List.forall₂_map_left_iff, List.forall₂_map_right_iff, text_iff, List.forall₂_eq_eq_eq] at h
  exact h

mutual

/-- Data without not-a-number are the same as themselves. -/
theorem refl : ∀ d : Data, (∀ x ∈ d.numbers, (x == x) = true) → Same d d
  | .null, _ => .null
  | .bool b, _ => .bool b
  | .integer n, _ => .integer n
  | .number x, h => .number (h x List.mem_cons_self)
  | .text s, _ => .text s
  | .list items, h => .list (refl_items items h)
  | .record fields, h => .record (fun _ => rfl) fun key d d' hd hd' => by
    obtain rfl := Option.some.inj (hd.symm.trans hd')
    exact refl_fields fields h key d hd

theorem refl_items : ∀ items : List Data, (∀ x ∈ numbersOf items, (x == x) = true) → List.Forall₂ Same items items
  | [], _ => .nil
  | d :: ds, h =>
    .cons (refl d fun x hx => h x (List.mem_append_left _ hx))
      (refl_items ds fun x hx => h x (List.mem_append_right _ hx))

theorem refl_fields : ∀ fields : List (String × Data), (∀ x ∈ numbersOfFields fields, (x == x) = true) →
    ∀ key d, fields.lookup key = some d → Same d d
  | [], _, _, _, hd => by cases hd
  | (key', d') :: fields, h, key, d, hd => by
    rw [List.lookup_cons] at hd
    split at hd
    · cases hd
      exact refl d' fun x hx => h x (List.mem_append_left _ hx)
    · exact refl_fields fields (fun x hx => h x (List.mem_append_right _ hx)) key d hd

end

/-- Records with the same keys, each of them once, are the same field by field. -/
theorem fieldwise {d d' : Data} (h : Same d d') (hkeys : d.fields.map (·.1) = d'.fields.map (·.1))
    (hnodup : (d.fields.map (·.1)).Nodup) : List.Forall₂ (fun f f' => Same f.2 f'.2) d.fields d'.fields := by
  cases h with
  | @record fs fs' _ h =>
    change fs.map (·.1) = fs'.map (·.1) at hkeys
    change (fs.map (·.1)).Nodup at hnodup
    show List.Forall₂ (fun f f' => Same f.2 f'.2) fs fs'
    refine List.forall₂_iff_get.mpr ⟨by simpa using congrArg List.length hkeys, fun i hi hi' => ?_⟩
    have hkey : (fs.get ⟨i, hi⟩).1 = (fs'.get ⟨i, hi'⟩).1 := by
      have hat : (fs.map (·.1))[i]? = (fs'.map (·.1))[i]? := by rw [hkeys]
      simpa [List.getElem?_eq_getElem hi, List.getElem?_eq_getElem hi'] using hat
    refine h (fs.get ⟨i, hi⟩).1 _ _ (lookup_of_mem hnodup (List.get_mem fs ⟨i, hi⟩)) ?_
    rw [hkey]
    exact lookup_of_mem (hkeys ▸ hnodup) (List.get_mem fs' ⟨i, hi'⟩)
  | _ => exact .nil

end Same

end Data

/-! ## Values -/

/-- The data of scanned values tell the values. -/
theorem Value.eq_of_same {v w : Value} (hv : v.IsScanned) (hw : w.IsScanned) (h : Data.Same v.data w.data) : v = w := by
  cases v <;> cases w <;> first | exact hv.elim | exact hw.elim | cases h
  all_goals first | rfl | skip
  next h => exact congrArg Value.number (Binary64.eq_of_beq hv hw h)

/-! ## Operators -/

theorem UnaryOp.symbol_inj {a b : UnaryOp} (ha : a.IsKnown) (hb : b.IsKnown) (h : a.symbol = b.symbol) : a = b := by
  have known {a : UnaryOp} (ha : a.IsKnown) : ofSymbol a.symbol = a := by
    cases a <;> first | rfl | exact ha.elim
  rw [← known ha, h, known hb]

theorem BinaryOp.symbol_inj {a b : BinaryOp} (ha : a.IsKnown) (hb : b.IsKnown) (h : a.symbol = b.symbol) : a = b := by
  have known {a : BinaryOp} (ha : a.IsKnown) : ofSymbol a.symbol = a := by
    cases a <;> first | rfl | exact ha.elim
  rw [← known ha, h, known hb]

theorem LogicalOp.symbol_inj {a b : LogicalOp} (ha : a.IsKnown) (hb : b.IsKnown) (h : a.symbol = b.symbol) : a = b := by
  have known {a : LogicalOp} (ha : a.IsKnown) : ofSymbol a.symbol = a := by
    cases a <;> first | rfl | exact ha.elim
  rw [← known ha, h, known hb]

/-! ## Nodes -/

namespace Node

/-- The nodes are of one kind. -/
inductive Peers : Node → Node → Prop
  | literal {v l v' l'} : Peers (.literal v l) (.literal v' l')
  | grouping {n l n' l'} : Peers (.grouping n l) (.grouping n' l')
  | unary {op n l op' n' l'} : Peers (.unary op n l) (.unary op' n' l')
  | binary {op a b l op' a' b' l'} : Peers (.binary op a b l) (.binary op' a' b' l')
  | logical {op a b l op' a' b' l'} : Peers (.logical op a b l) (.logical op' a' b' l')
  | var {name l d name' l' d'} : Peers (.var name l d) (.var name' l' d')
  | assign {name n l d name' n' l' d'} : Peers (.assign name n l d) (.assign name' n' l' d')
  | this {l d l' d'} : Peers (.this l d) (.this l' d')
  | call {n args l n' args' l'} : Peers (.call n args l) (.call n' args' l')
  | get {n name l n' name' l'} : Peers (.get n name l) (.get n' name' l')
  | set {n name v l n' name' v' l'} : Peers (.set n name v l) (.set n' name' v' l')
  | block {steps l steps' l'} : Peers (.block steps l) (.block steps' l')
  | letDecl {name n l name' n' l'} : Peers (.letDecl name n l) (.letDecl name' n' l')
  | print {n l n' l'} : Peers (.print n l) (.print n' l')
  | ifElse {c a b l c' a' b' l'} : Peers (.ifElse c a b l) (.ifElse c' a' b' l')
  | whileLoop {c n l c' n' l'} : Peers (.whileLoop c n l) (.whileLoop c' n' l')
  | function {name params n l name' params' n' l'} : Peers (.function name params n l) (.function name' params' n' l')
  | returnStep {n l n' l'} : Peers (.returnStep n l) (.returnStep n' l')
  | classDecl {name ms l name' ms' l'} : Peers (.classDecl name ms l) (.classDecl name' ms' l')
  | error {d d'} : Peers (.error d) (.error d')
  | absent : Peers .absent .absent

/-- The kind of node that a record tells, in a field of its own; the record of a diagnostic has no such field. -/
def labelOf : Data → String
  | .record fields => match fields.lookup "node" with
    | some (.text shape) => shape
    | _ => "ParsingError"
  | _ => "NoneType"

theorem labelOf_eq_of_same {d d' : Data} (h : Data.Same d d') : labelOf d = labelOf d' := by
  cases h with
  | @record fs fs' hkeys h =>
    have hkey := hkeys "node"
    rw [labelOf, labelOf]
    cases hd : fs.lookup "node" with
    | none =>
      rw [hd] at hkey
      cases hd' : fs'.lookup "node" with
      | none => rfl
      | some => rw [hd'] at hkey; cases hkey
    | some d =>
      rw [hd] at hkey
      cases hd' : fs'.lookup "node" with
      | none => rw [hd'] at hkey; cases hkey
      | some d' => cases h _ _ _ hd hd' <;> rfl
  | _ => rfl

variable {N : String → Prop} {n m : Node}

theorem labelOf_data (h : n.Drawn V N) : labelOf n.data = n.shape := by
  cases n with
  | bare => exact h.elim
  | error d =>
    have hphase : d.phase = .parse := h
    simp [data, Value.data, labelOf, shape, hphase, Phase.family, List.lookup]
  | _ => simp [data, record, labelOf, shape, List.lookup]

theorem peers_of_shape (hn : n.Drawn V N) (hm : m.Drawn V N) (h : n.shape = m.shape) : Peers n m := by
  have error {d : Diagnostic} (h : d.phase = .parse) : (Node.error d).shape = "ParsingError" := by
    rw [shape, h]
    rfl
  cases n with
  | bare => exact hn.elim
  | error =>
    rw [error hn] at h
    cases m with
    | bare => exact hm.elim
    | error => exact .error
    | _ => exact absurd h (by simp [shape])
  | _ =>
    cases m with
    | bare => exact hm.elim
    | error => exact absurd (h.trans (error hm)) (by simp [shape])
    | _ => first | constructor | exact absurd h (by simp [shape])

/-- Records of nodes of one kind have the same keys. -/
theorem Peers.fieldwise (hp : Peers n m) (h : Data.Same n.data m.data) :
    List.Forall₂ (fun f f' => Data.Same f.2 f'.2) n.data.fields m.data.fields := by
  refine h.fieldwise ?_ ?_ <;> cases hp <;> simp [data, record, Value.data, Data.fields]

theorem dataOf_eq_of_same {ns ms : List Node} (h : Data.Same (.list (dataOf ns)) (.list (dataOf ms)))
    (inner : ∀ n ∈ ns, ∀ m ∈ ms, Data.Same n.data m.data → n = m) : ns = ms := by
  have h := h.items
  induction ns generalizing ms with
  | nil =>
    cases ms with
    | nil => rfl
    | cons => cases h
  | cons n ns ih =>
    cases ms with
    | nil => cases h
    | cons m ms =>
      obtain ⟨hn, hns⟩ := List.forall₂_cons.mp h
      rw [inner n List.mem_cons_self m List.mem_cons_self hn, ih (.list hns)
        (fun n hn m hm => inner n (List.mem_cons_of_mem _ hn) m (List.mem_cons_of_mem _ hm)) hns]

theorem eq_of_same : ∀ n m : Node, n.Everywhere (Drawn Value.IsScanned N) → m.Everywhere (Drawn Value.IsScanned N) →
    Data.Same n.data m.data → n = m := by
  refine of_inner fun n ih m hn hm h => ?_
  have inner : ∀ a ∈ n.children, ∀ b ∈ m.children, Data.Same a.data b.data → a = b := fun a ha b hb =>
    ih a ha b (hn.child ha) (hm.child hb)
  have hp : Peers n m := peers_of_shape hn.self hm.self
    ((labelOf_data hn.self).symm.trans ((labelOf_eq_of_same h).trans (labelOf_data hm.self)))
  have hf := hp.fieldwise h
  replace hn := hn.self
  replace hm := hm.self
  -- both nodes are of one kind and have the same fields; these are compared one by one
  clear h ih
  cases hp <;> simp only [data, record, Value.data, Data.fields, List.forall₂_cons, List.Forall₂.nil,
    Data.Same.text_iff, Data.Same.integer_iff, true_and, and_true] at hf
  case literal =>
    obtain ⟨hv, rfl⟩ := hf
    rw [Value.eq_of_same hn hm hv]
  case grouping | print | returnStep =>
    obtain ⟨hn, rfl⟩ := hf
    rw [inner _ List.mem_cons_self _ List.mem_cons_self hn]
  case unary =>
    obtain ⟨hop, hoperand, rfl⟩ := hf
    rw [UnaryOp.symbol_inj hn hm hop, inner _ List.mem_cons_self _ List.mem_cons_self hoperand]
  case binary =>
    obtain ⟨hop, ha, hb, rfl⟩ := hf
    rw [BinaryOp.symbol_inj hn hm hop, inner _ List.mem_cons_self _ List.mem_cons_self ha,
      inner _ (.tail _ (.head _)) _ (.tail _ (.head _)) hb]
  case logical =>
    obtain ⟨hop, ha, hb, rfl⟩ := hf
    rw [LogicalOp.symbol_inj hn hm hop, inner _ List.mem_cons_self _ List.mem_cons_self ha,
      inner _ (.tail _ (.head _)) _ (.tail _ (.head _)) hb]
  case var =>
    obtain ⟨rfl, rfl⟩ := hf
    rw [hn.2, hm.2]
  case assign =>
    obtain ⟨rfl, hvalue, rfl⟩ := hf
    rw [hn.2, hm.2, inner _ List.mem_cons_self _ List.mem_cons_self hvalue]
  case this =>
    rw [show _ = none from hn, show _ = none from hm, hf]
  case call =>
    obtain ⟨hcallee, hargs, rfl⟩ := hf
    rw [inner _ List.mem_cons_self _ List.mem_cons_self hcallee, dataOf_eq_of_same hargs fun a ha b hb =>
      inner a (List.mem_cons_of_mem _ ha) b (List.mem_cons_of_mem _ hb)]
  case get =>
    obtain ⟨hobject, rfl, rfl⟩ := hf
    rw [inner _ List.mem_cons_self _ List.mem_cons_self hobject]
  case set =>
    obtain ⟨hobject, rfl, hvalue, rfl⟩ := hf
    rw [inner _ List.mem_cons_self _ List.mem_cons_self hobject,
      inner _ (.tail _ (.head _)) _ (.tail _ (.head _)) hvalue]
  case block =>
    obtain ⟨rfl, hsteps⟩ := hf
    rw [dataOf_eq_of_same hsteps inner]
  case letDecl =>
    obtain ⟨rfl, hinit, rfl⟩ := hf
    rw [inner _ List.mem_cons_self _ List.mem_cons_self hinit]
  case ifElse =>
    obtain ⟨hc, ha, hb, rfl⟩ := hf
    rw [inner _ List.mem_cons_self _ List.mem_cons_self hc, inner _ (.tail _ (.head _)) _ (.tail _ (.head _)) ha,
      inner _ (.tail _ (.tail _ (.head _))) _ (.tail _ (.tail _ (.head _))) hb]
  case whileLoop =>
    obtain ⟨hc, hbody, rfl⟩ := hf
    rw [inner _ List.mem_cons_self _ List.mem_cons_self hc, inner _ (.tail _ (.head _)) _ (.tail _ (.head _)) hbody]
  case function =>
    obtain ⟨rfl, hparams, hbody, rfl⟩ := hf
    rw [hparams.texts_inj, inner _ List.mem_cons_self _ List.mem_cons_self hbody]
  case classDecl =>
    obtain ⟨rfl, hmethods, rfl⟩ := hf
    rw [dataOf_eq_of_same hmethods inner]
  case error d d' =>
    obtain ⟨-, hline, hmessage⟩ := hf
    have hphase : d.phase = d'.phase := Eq.trans hn (Eq.symm hm)
    cases d
    cases d'
    simp_all
  case absent => rfl

end Node

/-- **Nothing is lost.** Texts whose steps, with the diagnostics inside them, have the same data have the same steps. -/
theorem steps_of_same_data {source source' : String}
    (h : Data.Same (Stage.treeData (parse (Scan.of source).tokens)) (Stage.treeData (parse (Scan.of source').tokens))) :
    parse (Scan.of source).tokens = parse (Scan.of source').tokens :=
  Node.dataOf_eq_of_same h fun n hn m hm => Node.eq_of_same n m (drawn_of_scan source n hn) (drawn_of_scan source' m hm)

/-- A text with a step that cannot be read, inside a block. -/
def brokenBlockText : String := "\x7b let ; \x7d print 1.50;"

/-- The same steps in other words. -/
def tightBlockText : String := "\x7blet;\x7dprint 1.5;"

theorem brokenBlockText_same_data :
    Data.Same (Stage.treeData (parse (Scan.of brokenBlockText).tokens))
        (Stage.treeData (parse (Scan.of tightBlockText).tokens)) ∧
      parse (Scan.of brokenBlockText).tokens = parse (Scan.of tightBlockText).tokens := by
  -- The data are compared by their texts, which tell finite data apart.
  have hrender : Data.Json.render false (Stage.treeData (parse (Scan.of brokenBlockText).tokens))
      = Data.Json.render false (Stage.treeData (parse (Scan.of tightBlockText).tokens)) := by decide +kernel
  have hfinite : ∀ x ∈ (Stage.treeData (parse (Scan.of brokenBlockText).tokens)).numbers,
      (Binary64.ofFloat x).isFinite = true := by decide +kernel
  have hnumbers : ∀ x ∈ (Stage.treeData (parse (Scan.of brokenBlockText).tokens)).numbers, (x == x) = true := by
    decide +kernel
  have hdenotes := (Data.Json.denotes_render_iff false _ _).mpr ⟨hfinite, rfl⟩
  rw [hrender] at hdenotes
  have hsame := Data.Same.refl _ hnumbers
  nth_rewrite 2 [((Data.Json.denotes_render_iff false _ _).mp hdenotes).2] at hsame
  exact ⟨hsame, steps_of_same_data hsame⟩

end LoxLang
