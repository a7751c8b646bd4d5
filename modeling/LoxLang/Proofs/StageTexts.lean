import LoxLang.Proofs.Drawn
import LoxLang.Proofs.JsonText
import LoxLang.Proofs.Spacing
import LoxLang.Session.Stage

/-!
# Stages as JSON

Whatever stage of a program is written as JSON, the text is one of JSON that stands for the stage and nothing else, if
the numbers of the program are finite (`stage_text_denotes`). A number that is too large for a double stands in the text
as the word for an infinity, which no JSON text holds (`beyond_range_not_denoted`).
-/

namespace LoxLang

/-- The numbers that stand in the text are finite as doubles. -/
def FiniteNumbers (source : String) : Prop :=
  ∀ t ∈ (Scan.of source).tokens, ∀ x, t.literal = .number x → (Binary64.ofFloat x).isFinite = true

theorem finiteNumbers_of_all {source : String} (h : (Scan.of source).tokens.all (fun t => match t.literal with
    | .number x => (Binary64.ofFloat x).isFinite
    | _ => true) = true) : FiniteNumbers source := by
  intro t ht x hx
  have h := List.all_eq_true.mp h t ht
  rw [hx] at h
  exact h

theorem Value.IsLiteral.data_isFinite {v : Value} (h : v.IsLiteral)
    (hx : ∀ x, v = .number x → (Binary64.ofFloat x).isFinite = true) : v.data.IsFinite := by
  intro x hmem
  cases v with
  | number y =>
    obtain rfl := List.mem_singleton.mp hmem
    exact hx x rfl
  | nil | bool | string => cases hmem
  | _ => exact h.elim

/-! ## Tokens -/

theorem Token.data_isFinite {t : Token} (h : t.literal.data.IsFinite) : t.data.IsFinite := by
  refine (Data.isFinite_record _).mpr ?_
  simp only [List.forall_mem_cons]
  exact ⟨Data.isFinite_of_numbers rfl, Data.isFinite_of_numbers rfl, Data.isFinite_of_numbers rfl, h,
    List.forall_mem_nil _⟩

/-! ## Trees -/

namespace Node

theorem dataOf_eq_map (ns : List Node) : dataOf ns = ns.map data := by
  induction ns with
  | nil => rfl
  | cons n ns ih => rw [dataOf, ih, List.map_cons]

theorem isFinite_steps (ns : List Node) : (Data.list (dataOf ns)).IsFinite ↔ ∀ n ∈ ns, n.data.IsFinite := by
  rw [Data.isFinite_list, dataOf_eq_map, List.forall_mem_map]

theorem isFinite_texts (items : List String) : (Data.ofTexts items).IsFinite := by
  rw [Data.ofTexts, Data.isFinite_list]
  intro d hd
  obtain ⟨s, -, rfl⟩ := List.mem_map.mp hd
  exact Data.isFinite_of_numbers rfl

/-- The numbers in the record of a tree are those of its literals. -/
theorem data_isFinite {N : String → Prop} :
    ∀ n : Node, n.Everywhere (Drawn (fun v => v.data.IsFinite) N) → n.data.IsFinite := by
  refine of_inner fun n ih hn => ?_
  have hinner : ∀ m ∈ n.children, m.data.IsFinite := fun m hm => ih m hm (hn.child hm)
  have text (s : String) : (Data.text s).IsFinite := Data.isFinite_of_numbers rfl
  have integer (k : Int) : (Data.integer k).IsFinite := Data.isFinite_of_numbers rfl
  cases n with
  | literal value =>
    have hvalue : value.data.IsFinite := hn.self
    simp [data, record, Data.isFinite_record, hvalue, text, integer]
  | error => simp [data, Value.data, Data.isFinite_record, text, integer]
  | absent => exact Data.isFinite_of_numbers rfl
  | bare => exact hn.self.elim
  | var | this => simp [data, record, Data.isFinite_record, text, integer]
  | _ =>
    simpa [data, record, Data.isFinite_record, isFinite_steps, isFinite_texts, text, integer, children, parts]
      using hinner

end Node

/-! ## Uses -/

theorem Stage.useData_isFinite (steps : List Node) : (useData steps).IsFinite := by
  refine (Data.isFinite_list _).mpr fun d hd => ?_
  obtain ⟨u, -, rfl⟩ := List.mem_map.mp hd
  exact Data.isFinite_of_numbers rfl

/-! ## Stages -/

/-- What a stage is made of. -/
theorem Stage.data_cases {stage : Stage} {source : String} {d : Data} (hd : stage.data source = .ok d) :
    (stage = .tokens ∧ d = tokenData (Scan.of source).tokens) ∨
      (stage = .tree ∧ d = treeData (parse (Scan.of source).tokens)) ∨
      stage = .uses ∧ ∃ steps, d = useData steps := by
  unfold Stage.data scan Scan.result at hd
  simp only [bind, Except.bind, pure, Except.pure, throw, throwThe, MonadExceptOf.throw] at hd
  split at hd
  next => cases hd
  next htokens =>
    split at htokens <;> cases htokens
    cases stage with
    | tokens => exact .inl ⟨rfl, (Except.ok.inj hd).symm⟩
    | tree =>
      rw [if_neg (by decide)] at hd
      split at hd
      · cases hd
      · exact .inr (.inl ⟨rfl, (Except.ok.inj hd).symm⟩)
    | uses =>
      rw [if_neg (by decide)] at hd
      split at hd
      · cases hd
      · rw [if_neg (by decide)] at hd
        split at hd <;> cases hd
        exact .inr (.inr ⟨rfl, _, rfl⟩)

/-- The numbers of a stage are those of the text. -/
theorem Stage.isFinite_of_data {stage : Stage} {source : String} {d : Data} (hd : stage.data source = .ok d)
    (hfinite : stage = .uses ∨ FiniteNumbers source) : d.IsFinite := by
  have literal (hfinite : FiniteNumbers source) {t : Token} (ht : t ∈ (Scan.of source).tokens) :
      t.literal.data.IsFinite := (Scan.plain_of_mem ht).literal.data_isFinite (hfinite t ht)
  obtain ⟨rfl, rfl⟩ | ⟨rfl, rfl⟩ | ⟨-, steps, rfl⟩ := Stage.data_cases hd
  · have literal {t : Token} := literal (hfinite.resolve_left (by decide)) (t := t)
    refine (Data.isFinite_list _).mpr fun d hd => ?_
    obtain ⟨t, ht, rfl⟩ := List.mem_map.mp hd
    exact Token.data_isFinite (literal ht)
  · have literal {t : Token} := literal (hfinite.resolve_left (by decide)) (t := t)
    have hgives : ∀ t ∈ Token.beforeEnd (Scan.of source).tokens,
        t.Gives (fun v => v.data.IsFinite) fun _ => True := fun t ht =>
      ⟨fun _ => literal (List.takeWhile_subset _ ht), fun _ => trivial⟩
    have hdrawn := Parser.drawn_of_parse (Data.isFinite_of_numbers rfl) (fun _ => Data.isFinite_of_numbers rfl) hgives
    exact (Node.isFinite_steps _).mpr fun n hn => n.data_isFinite (hdrawn n hn)
  · exact useData_isFinite steps

/-- Every stage of a text, on one line or indented, is JSON that stands for the stage and for nothing else; where the
stage holds the numbers of the text, they have to be finite. -/
theorem stage_text_denotes {stage : Stage} {source : String} {d : Data} (hd : stage.data source = .ok d)
    (hfinite : stage = .uses ∨ FiniteNumbers source) (pretty : Bool) (d' : Data) :
    Data.Json.Denotes (Data.write .json pretty d).toList d' ↔ d' = d := by
  rw [Data.write, Data.Json.denotes_render_iff]
  exact and_iff_right (Stage.isFinite_of_data hd hfinite)

/-- A text with a backslash and a line feed in a string, and a number with a fraction. -/
def printingText : String := "print \"a\\\n\" == 12.5;"

theorem printingText_denotes : ∃ d, Stage.tree.data printingText = .ok d ∧ FiniteNumbers printingText ∧
    ∀ pretty d', Data.Json.Denotes (Data.write .json pretty d).toList d' ↔ d' = d := by
  have hfinite : FiniteNumbers printingText := finiteNumbers_of_all (by decide +kernel)
  have hok : (Stage.tree.data printingText).toOption.isSome = true := by decide +kernel
  cases hd : Stage.tree.data printingText with
  | error => rw [hd] at hok; cases hok
  | ok d => exact ⟨d, rfl, hfinite, fun pretty d' => stage_text_denotes hd (.inr hfinite) pretty d'⟩

/-- The text of a stage that holds an infinity is no JSON. -/
theorem Stage.not_denotes_of_infinite {stage : Stage} {source : String}
    (h : (stage.data source).toOption.any (fun d => d.numbers.any fun x => !(Binary64.ofFloat x).isFinite) = true) :
    ∃ d, stage.data source = .ok d ∧ ∀ pretty d', ¬ Data.Json.Denotes (Data.write .json pretty d).toList d' := by
  cases hd : stage.data source with
  | error => rw [hd] at h; cases h
  | ok d =>
    rw [hd] at h
    obtain ⟨x, hx, hinfinite⟩ := List.any_eq_true.mp (show (d.numbers.any fun x => _) = true from h)
    refine ⟨d, rfl, fun pretty d' hdenotes => ?_⟩
    have hfinite := ((Data.Json.denotes_render_iff pretty d d').mp hdenotes).1 x hx
    rw [hfinite] at hinfinite
    cases hinfinite

/-- A text with a number beyond the range of doubles. -/
def beyondRangeText : String := String.ofList (List.replicate 310 '9' ++ [';'])

/-- The number stands in the tokens and in the tree, and the text of either is no JSON. -/
theorem beyond_range_not_denoted :
    (∃ d, Stage.tokens.data beyondRangeText = .ok d ∧
      ∀ pretty d', ¬ Data.Json.Denotes (Data.write .json pretty d).toList d') ∧
    ∃ d, Stage.tree.data beyondRangeText = .ok d ∧
      ∀ pretty d', ¬ Data.Json.Denotes (Data.write .json pretty d).toList d' :=
  ⟨Stage.not_denotes_of_infinite (by decide +kernel), Stage.not_denotes_of_infinite (by decide +kernel)⟩

end LoxLang
