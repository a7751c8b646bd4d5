import LoxLang.Proofs.SpareScopes
import LoxLang.Proofs.Steps
import LoxLang.Proofs.World

/-!
# Stores with spare frames

A `Pairing` says which frames of a first store belong to those of a second one, which frames of the first are spare, and
what the closures are on both sides. `StoresPaired w s s'` says that the stores are as the pairing tells: frames that
belong together bind the same and stand in frames that belong together, apart from spare ones between them, which bind
nothing; the objects are the same, and closures have skewed bodies. Pairings only grow, and each change that is made to
both stores extends them.
-/

namespace LoxLang

/-- The scopes that a call opens between the body of a closure and the frame of the closure. -/
def Role.opens : Role → Pattern
  | .function => [true]
  | .method => [true, true]

namespace Store

theorem chain_pushFrame (s : Store) (parents : List FrameId) (bindings : Table Value) (f : FrameId) :
    (s.pushFrame parents bindings).chain f = f :: if f = s.nextFrame then parents else (s.frame f).parents := by
  rw [chain, frame_pushFrame]
  split <;> rfl

end Store

/-! ## Pairings -/

/-- A closure on both sides, and the pattern of the frames that it was declared in. -/
structure Link where
  pattern : Pattern
  left : Closure
  right : Closure

structure Pairing where
  /-- For each frame of the second store its partner in the first one, and the pattern of the frames around them. -/
  frames : List (FrameId × Pattern)
  /-- The spare frames of the first store, each with the frame of the second one whose partner it stands in. -/
  spares : List (FrameId × FrameId)
  closures : List Link

namespace Pairing

instance : LE Pairing where
  le w w' := w.frames <+: w'.frames ∧ w.spares <+: w'.spares ∧ w.closures <+: w'.closures

variable {w w₁ w₂ : Pairing}

theorem le_refl (w : Pairing) : w ≤ w := ⟨List.prefix_rfl, List.prefix_rfl, List.prefix_rfl⟩

theorem le_trans (h : w ≤ w₁) (h' : w₁ ≤ w₂) : w ≤ w₂ :=
  ⟨h.1.trans h'.1, h.2.1.trans h'.2.1, h.2.2.trans h'.2.2⟩

/-- The frames belong together, inside frames of the pattern. -/
def Paired (w : Pairing) (p : Pattern) (f g : FrameId) : Prop := w.frames[g]? = some (f, p)

/-- Names are looked for from these frames: they belong together, or the first one is spare. -/
inductive Sees (w : Pairing) : Pattern → FrameId → FrameId → Prop
  | paired {p f g} : w.Paired p f g → Sees w p f g
  | spare {p f g r} : w.Paired p f g → (r, g) ∈ w.spares → Sees w (false :: p) r g

/-- The frames around a frame on both sides. -/
inductive Chained (w : Pairing) : Pattern → List FrameId → List FrameId → Prop
  | nil : Chained w [] [] []
  | shared {p q f g fs gs} : w.Paired q f g → Chained w p fs gs → Chained w (true :: p) (f :: fs) (g :: gs)
  | spare {p r g fs gs} : (r, g) ∈ w.spares → Chained w p fs gs → Chained w (false :: p) (r :: fs) gs

/-- What the two sides of a closure share. -/
structure Links (w : Pairing) (t : Link) : Prop where
  name : t.right.name = t.left.name
  params : t.right.params = t.left.params
  isInitializer : t.right.isInitializer = t.left.isInitializer
  frame : w.Paired t.pattern t.left.frame t.right.frame

/-- A closure can be called in the role. -/
def Plays (w : Pairing) (r : Role) (c : ClosureId) : Prop :=
  ∃ t, w.closures[c]? = some t ∧ w.Links t ∧ Skewed (r.opens ++ t.pattern) t.left.body t.right.body

/-- All that a value names can be called as the value has it. -/
def Knows (w : Pairing) (v : Value) : Prop := ∀ r ∈ v.references, w.Plays r.1 r.2

/-- The frames of the first store. -/
def taken (w : Pairing) : List FrameId := w.frames.map (·.1) ++ w.spares.map (·.1)

theorem Paired.mem_taken {p : Pattern} {f g : FrameId} (h : w.Paired p f g) : f ∈ w.taken :=
  List.mem_append_left _ (List.mem_map.mpr ⟨(f, p), List.mem_of_getElem? h, rfl⟩)

theorem mem_taken_of_spare {r g : FrameId} (h : (r, g) ∈ w.spares) : r ∈ w.taken :=
  List.mem_append_right _ (List.mem_map.mpr ⟨(r, g), h, rfl⟩)

/-! ### Growth -/

section Growth

variable (hw : w ≤ w₁)
include hw

theorem Paired.mono {p : Pattern} {f g : FrameId} (h : w.Paired p f g) : w₁.Paired p f g :=
  World.getElem?_of_prefix hw.1 h

theorem Sees.mono {p : Pattern} {f g : FrameId} (h : w.Sees p f g) : w₁.Sees p f g := by
  cases h with
  | paired h => exact .paired (h.mono hw)
  | spare h hr => exact .spare (h.mono hw) (hw.2.1.subset hr)

theorem Chained.mono {p : Pattern} {fs gs : List FrameId} (h : w.Chained p fs gs) : w₁.Chained p fs gs := by
  induction h with
  | nil => exact .nil
  | shared h _ ih => exact .shared (h.mono hw) ih
  | spare hr _ ih => exact .spare (hw.2.1.subset hr) ih

theorem Links.mono {t : Link} (h : w.Links t) : w₁.Links t := { h with frame := h.frame.mono hw }

theorem Plays.mono {r : Role} {c : ClosureId} (h : w.Plays r c) : w₁.Plays r c :=
  let ⟨t, ht, hl, hb⟩ := h
  ⟨t, World.getElem?_of_prefix hw.2.2 ht, hl.mono hw, hb⟩

theorem Knows.mono {v : Value} (h : w.Knows v) : w₁.Knows v := fun r hr => (h r hr).mono hw

end Growth

/-! ### Chains -/

/-- Counted depths lead to frames that belong together. -/
theorem Chained.getElem?_rank {p : Pattern} {fs gs : List FrameId} (h : w.Chained p fs gs) {d : Nat}
    (hd : p[d]? = some true) : ∃ q f g, fs[d]? = some f ∧ gs[p.rank d]? = some g ∧ w.Paired q f g := by
  induction h generalizing d with
  | nil => cases hd
  | @shared p q f g fs gs hf _ ih =>
    cases d with
    | zero => exact ⟨q, f, g, rfl, by rw [Pattern.rank_zero]; rfl, hf⟩
    | succ d =>
      obtain ⟨q', f', g', hf', hg', hpair⟩ := ih hd
      exact ⟨q', f', g', hf', by rw [Pattern.rank_shared]; exact hg', hpair⟩
  | @spare p r g fs gs hr _ ih =>
    cases d with
    | zero => cases hd
    | succ d =>
      obtain ⟨q', f', g', hf', hg', hpair⟩ := ih hd
      exact ⟨q', f', g', hf', by rw [Pattern.rank_spare]; exact hg', hpair⟩

/-- Where no frame is spare, equal depths lead to frames that belong together, or to none. -/
theorem Chained.getElem?_whole {p : Pattern} {fs gs : List FrameId} (h : w.Chained p fs gs) (hp : p.Whole) (d : Nat) :
    fs[d]? = none ∧ gs[d]? = none ∨ ∃ q f g, fs[d]? = some f ∧ gs[d]? = some g ∧ w.Paired q f g := by
  induction h generalizing d with
  | nil => exact .inl ⟨rfl, rfl⟩
  | @shared p q f g fs gs hf _ ih =>
    cases d with
    | zero => exact .inr ⟨q, f, g, rfl, rfl, hf⟩
    | succ d => exact ih (List.forall_mem_cons.mp hp).2 d
  | spare => cases (List.forall_mem_cons.mp hp).1

/-! ### What is added -/

def pushFrame (w : Pairing) (p : Pattern) (f : FrameId) : Pairing := { w with frames := w.frames ++ [(f, p)] }

def pushSpare (w : Pairing) (r g : FrameId) : Pairing := { w with spares := w.spares ++ [(r, g)] }

def pushClosure (w : Pairing) (t : Link) : Pairing := { w with closures := w.closures ++ [t] }

theorem le_pushFrame (w : Pairing) (p : Pattern) (f : FrameId) : w ≤ w.pushFrame p f :=
  ⟨List.prefix_append _ _, List.prefix_rfl, List.prefix_rfl⟩

theorem le_pushSpare (w : Pairing) (r g : FrameId) : w ≤ w.pushSpare r g :=
  ⟨List.prefix_rfl, List.prefix_append _ _, List.prefix_rfl⟩

theorem le_pushClosure (w : Pairing) (t : Link) : w ≤ w.pushClosure t :=
  ⟨List.prefix_rfl, List.prefix_rfl, List.prefix_append _ _⟩

theorem paired_pushFrame (w : Pairing) (p : Pattern) (f : FrameId) : (w.pushFrame p f).Paired p f w.frames.length := by
  simp [Paired, pushFrame]

/-- Frames that belong together did so before, or are the new ones. -/
theorem Paired.of_pushFrame {p q : Pattern} {f f' : FrameId} {g : Nat} (h : (w.pushFrame p f).Paired q f' g) :
    w.Paired q f' g ∨ q = p ∧ f' = f ∧ g = w.frames.length := by
  simp only [Paired, pushFrame, List.getElem?_append, List.getElem?_singleton] at h
  split at h
  · exact .inl h
  · next hg =>
    split at h
    · next h₀ =>
      cases h
      exact .inr ⟨rfl, rfl, by omega⟩
    · cases h

theorem taken_pushFrame (w : Pairing) (p : Pattern) (f : FrameId) : (w.pushFrame p f).taken.Perm (f :: w.taken) := by
  simp only [taken, pushFrame, List.map_append, List.map_cons, List.map_nil, List.append_assoc, List.singleton_append]
  exact List.perm_middle

theorem taken_pushSpare (w : Pairing) (r g : FrameId) : (w.pushSpare r g).taken.Perm (r :: w.taken) := by
  simp only [taken, pushSpare, List.map_append, List.map_cons, List.map_nil, ← List.append_assoc]
  exact List.perm_append_singleton r _

theorem closure_pushClosure (w : Pairing) (t : Link) : (w.pushClosure t).closures[w.closures.length]? = some t := by
  simp [pushClosure]

end Pairing

/-! ## Paired stores -/

/-- A frame of the first store and its partner. -/
structure FramesPaired (w : Pairing) (s s' : Store) (p : Pattern) (f g : FrameId) : Prop where
  bindings : (s'.frame g).bindings = (s.frame f).bindings
  chain : w.Chained p (s.chain f) (s'.chain g)
  values : ∀ name v, s.own? f name = some v → w.Knows v

/-- A spare frame binds nothing, and stands in the partner of a frame. -/
structure FrameSpare (w : Pairing) (s : Store) (r g : FrameId) : Prop where
  bindings : (s.frame r).bindings = []
  parents : ∃ p f, w.Paired p f g ∧ (s.frame r).parents = s.chain f

structure ObjectKnown (w : Pairing) (o : Object) : Prop where
  methods : ∀ entry ∈ o.info.methods, w.Plays .method entry.2
  fields : ∀ name v, o.fields.get? name = some v → w.Knows v

structure StoresPaired (w : Pairing) (s s' : Store) : Prop where
  count : w.frames.length = s'.nextFrame
  taken : w.taken.Perm (List.range s.nextFrame)
  frames : ∀ p f g, w.Paired p f g → FramesPaired w s s' p f g
  spares : ∀ r g, (r, g) ∈ w.spares → FrameSpare w s r g
  left : s.closures.toList = w.closures.map (·.left)
  right : s'.closures.toList = w.closures.map (·.right)
  objects : s'.objects = s.objects
  known : ∀ o, ObjectKnown w (s.object o)

theorem ObjectKnown.mono {w w₁ : Pairing} (hw : w ≤ w₁) {o : Object} (h : ObjectKnown w o) : ObjectKnown w₁ o :=
  ⟨fun entry he => (h.methods entry he).mono hw, fun name v hv => (h.fields name v hv).mono hw⟩

namespace StoresPaired

open Pairing

variable {w : Pairing} {s s' : Store}

theorem nodup_taken (h : StoresPaired w s s') : w.taken.Nodup := h.taken.nodup_iff.mpr List.nodup_range

theorem mem_taken (h : StoresPaired w s s') {f : FrameId} : f ∈ w.taken ↔ f < s.nextFrame :=
  h.taken.mem_iff.trans List.mem_range

/-! ### What is seen from a frame -/

section Names

variable (h : StoresPaired w s s') {p : Pattern} {f g : FrameId}
include h

theorem lt_left (hf : w.Paired p f g) : f < s.nextFrame := h.mem_taken.mp hf.mem_taken

theorem lt_right (hf : w.Paired p f g) : g < s'.nextFrame := h.count ▸ (List.getElem?_eq_some_iff.mp hf).1

theorem spare_lt {r : FrameId} (hr : (r, g) ∈ w.spares) : r < s.nextFrame := h.mem_taken.mp (mem_taken_of_spare hr)

/-- A frame has one partner. -/
theorem partner_unique {q : Pattern} {g' : FrameId} (hf : w.Paired p f g) (hf' : w.Paired q f g') : g = g' := by
  have hfst : ∀ {q g}, w.Paired q f g → (w.frames.map (·.1))[g]? = some f := fun h => by
    rw [List.getElem?_map, h]
    rfl
  have hlt : g < (w.frames.map (·.1)).length := (List.getElem?_eq_some_iff.mp (hfst hf)).1
  exact (List.getElem?_inj hlt (List.nodup_append.mp h.nodup_taken).1).mp ((hfst hf).trans (hfst hf').symm)

/-- A frame with a partner is not spare. -/
theorem not_spare {r g' : FrameId} (hf : w.Paired p f g) (hr : (r, g') ∈ w.spares) : f ≠ r :=
  (List.nodup_append.mp h.nodup_taken).2.2 f (List.mem_map.mpr ⟨(f, p), List.mem_of_getElem? hf, rfl⟩) r
    (List.mem_map.mpr ⟨(r, g'), hr, rfl⟩)

theorem own?_eq (hf : w.Paired p f g) : s'.own? g = s.own? f := by
  funext name
  rw [Store.own?, (h.frames p f g hf).bindings, Store.own?]

theorem binds_eq (hf : w.Paired p f g) (name : String) : s'.binds name g = s.binds name f := by
  rw [Store.binds, (h.frames p f g hf).bindings, Store.binds]

theorem chained (hf : w.Sees p f g) : w.Chained p (s.chain f) (s'.chain g) := by
  cases hf with
  | paired hf => exact (h.frames _ _ _ hf).chain
  | @spare p a _ _ ha hr =>
    obtain ⟨q, b, hb, hparents⟩ := (h.spares _ _ hr).parents
    obtain ⟨rfl, rfl⟩ : b = a ∧ q = p := by
      rw [Paired, ha] at hb
      cases hb
      exact ⟨rfl, rfl⟩
    rw [Store.chain, hparents]
    exact .spare hr (h.frames _ _ _ ha).chain

/-- The search for a name passes over spare frames, and ends in frames that belong together. -/
theorem find?_chained {fs gs : List FrameId} (hc : w.Chained p fs gs) (name : String) :
    fs.find? (s.binds name) = none ∧ gs.find? (s'.binds name) = none ∨
      ∃ q f g, fs.find? (s.binds name) = some f ∧ gs.find? (s'.binds name) = some g ∧ w.Paired q f g := by
  induction hc with
  | nil => exact .inl ⟨rfl, rfl⟩
  | @shared p q f g fs gs hf _ ih =>
    rw [List.find?_cons, List.find?_cons, h.binds_eq hf name]
    cases s.binds name f with
    | true => exact .inr ⟨q, f, g, rfl, rfl, hf⟩
    | false => exact ih
  | @spare p r g fs gs hr _ ih =>
    have hempty : s.binds name r = false := by rw [Store.binds, (h.spares r g hr).bindings, Table.contains_nil]
    rw [List.find?_cons, hempty]
    exact ih

/-- The frames at skewed depths: both are missing at the same depth, or they belong together. -/
theorem ancestor?_skewed (hf : w.Sees p f g) {d d' : Nat} (hd : DepthSkewed p (some d) (some d')) :
    s.ancestor? f d = none ∧ s'.ancestor? g d' = none ∧ d' = d ∨
      ∃ q a b, s.ancestor? f d = some a ∧ s'.ancestor? g d' = some b ∧ w.Paired q a b := by
  have hc := h.chained hf
  cases hd with
  | counted hd => exact .inr (hc.getElem?_rank hd)
  | same hp =>
    obtain ⟨hnone, hnone'⟩ | hsome := hc.getElem?_whole hp d
    · exact .inl ⟨hnone, hnone', rfl⟩
    · exact .inr hsome

theorem owner?_cases (hf : w.Sees p f g) (name : String) :
    s.owner? f name = none ∧ s'.owner? g name = none ∨
      ∃ q a b, s.owner? f name = some a ∧ s'.owner? g name = some b ∧ w.Paired q a b :=
  h.find?_chained (h.chained hf) name

/-- A search finds the same value on both sides, and all that it names is known. -/
theorem lookup?_known (hf : w.Sees p f g) (name : String) :
    s'.lookup? g name = s.lookup? f name ∧ ∀ v, s.lookup? f name = some v → w.Knows v := by
  rw [Store.lookup?, Store.lookup?]
  obtain ⟨hnone, hnone'⟩ | ⟨q, a, b, ha, hb, hpair⟩ := h.owner?_cases hf name
  · rw [hnone, hnone']
    exact ⟨rfl, nofun⟩
  · rw [ha, hb, Option.bind_some, Option.bind_some, h.own?_eq hpair]
    exact ⟨rfl, (h.frames q a b hpair).values name⟩

end Names

/-! ### Closures -/

section Closures

variable (h : StoresPaired w s s')
include h

theorem nextClosure_left : s.nextClosure = w.closures.length := by
  rw [Store.nextClosure, ← Array.length_toList, h.left, List.length_map]

theorem nextClosure_right : s'.nextClosure = w.closures.length := by
  rw [Store.nextClosure, ← Array.length_toList, h.right, List.length_map]

theorem closure_left {c : ClosureId} {t : Link} (ht : w.closures[c]? = some t) : s.closure c = t.left := by
  rw [Store.closure, Array.getD_eq_getD_getElem?, ← Array.getElem?_toList, h.left, List.getElem?_map, ht]
  rfl

theorem closure_right {c : ClosureId} {t : Link} (ht : w.closures[c]? = some t) : s'.closure c = t.right := by
  rw [Store.closure, Array.getD_eq_getD_getElem?, ← Array.getElem?_toList, h.right, List.getElem?_map, ht]
  rfl

/-- A closure takes as many arguments on both sides. -/
theorem params_eq {r : Role} {c : ClosureId} (hc : w.Plays r c) : (s'.closure c).params = (s.closure c).params := by
  obtain ⟨t, ht, hl, -⟩ := hc
  rw [h.closure_left ht, h.closure_right ht, hl.params]

end Closures

/-! ### Changes -/

section Changes

variable (h : StoresPaired w s s')
include h

theorem taken_succ {w₁ : Pairing} (hp : w₁.taken.Perm (s.nextFrame :: w.taken)) (parents : List FrameId)
    (bindings : Table Value) : w₁.taken.Perm (List.range (s.pushFrame parents bindings).nextFrame) := by
  rw [Store.nextFrame_pushFrame, List.range_succ]
  exact (hp.trans (h.taken.cons _)).trans (List.perm_append_singleton _ _).symm

/-- A new frame in the first store changes nothing of the frames that were there. -/
theorem frames_of_pushLeft {w₁ : Pairing} (hw : w ≤ w₁) (parents : List FrameId) (bindings : Table Value) {p : Pattern}
    {f g : FrameId} (hf : w.Paired p f g) : FramesPaired w₁ (s.pushFrame parents bindings) s' p f g := by
  have hold := h.frames p f g hf
  have hne : f ≠ s.nextFrame := Nat.ne_of_lt (h.lt_left hf)
  refine ⟨?_, ?_, fun name v hv => ?_⟩
  · rw [Store.frame_pushFrame, if_neg hne]
    exact hold.bindings
  · rw [Store.chain, Store.frame_pushFrame, if_neg hne]
    exact hold.chain.mono hw
  · rw [Store.own?_pushFrame, if_neg hne] at hv
    exact (hold.values name v hv).mono hw

theorem spares_of_pushLeft {w₁ : Pairing} (hw : w ≤ w₁) (parents : List FrameId) (bindings : Table Value)
    {r g : FrameId} (hr : (r, g) ∈ w.spares) : FrameSpare w₁ (s.pushFrame parents bindings) r g := by
  obtain ⟨hempty, p, f, hf, hparents⟩ := h.spares r g hr
  have hne : r ≠ s.nextFrame := Nat.ne_of_lt (h.spare_lt hr)
  have hnef : f ≠ s.nextFrame := Nat.ne_of_lt (h.lt_left hf)
  refine ⟨by rw [Store.frame_pushFrame, if_neg hne]; exact hempty, p, f, hf.mono hw, ?_⟩
  rw [Store.frame_pushFrame, if_neg hne, Store.chain, Store.frame_pushFrame, if_neg hnef]
  exact hparents

/-- A spare frame is made in the partner of a frame. -/
theorem pushSpare {p : Pattern} {f g : FrameId} (hf : w.Paired p f g) :
    StoresPaired (w.pushSpare s.nextFrame g) (s.pushFrame (s.chain f) []) s' := by
  have hle := w.le_pushSpare s.nextFrame g
  refine ⟨h.count, h.taken_succ (w.taken_pushSpare _ g) _ _, fun q f' g' hf' => h.frames_of_pushLeft hle _ _ hf',
    fun r g' hr => ?_, h.left, h.right, h.objects, fun o => (h.known o).mono hle⟩
  obtain hr | hr := List.mem_append.mp hr
  · exact h.spares_of_pushLeft hle _ _ hr
  · cases List.mem_singleton.mp hr
    have hnef : f ≠ s.nextFrame := Nat.ne_of_lt (h.lt_left hf)
    refine ⟨by rw [Store.frame_pushFrame, if_pos rfl], p, f, hf.mono hle, ?_⟩
    rw [Store.frame_pushFrame, if_pos rfl, Store.chain, Store.chain, Store.frame_pushFrame, if_neg hnef]

/-- A frame is made on both sides. -/
theorem pushFrame {p : Pattern} {f g : FrameId} (hf : w.Sees p f g) {bindings : Table Value}
    (hb : ∀ name v, bindings.get? name = some v → w.Knows v) :
    StoresPaired (w.pushFrame (true :: p) s.nextFrame) (s.pushFrame (s.chain f) bindings)
      (s'.pushFrame (s'.chain g) bindings) := by
  have hle := w.le_pushFrame (true :: p) s.nextFrame
  refine ⟨?_, h.taken_succ (w.taken_pushFrame _ _) _ _, fun q f' g' hf' => ?_,
    fun r g' hr => h.spares_of_pushLeft hle _ _ hr, h.left, h.right, h.objects,
    fun o => (h.known o).mono hle⟩
  · rw [Pairing.pushFrame, List.length_append, h.count, Store.nextFrame_pushFrame]
    rfl
  · obtain hold | ⟨rfl, rfl, rfl⟩ := hf'.of_pushFrame
    · have hleft := h.frames_of_pushLeft hle (s.chain f) bindings hold
      have hne : g' ≠ s'.nextFrame := Nat.ne_of_lt (h.lt_right hold)
      refine ⟨?_, ?_, hleft.values⟩
      · rw [Store.frame_pushFrame, if_neg hne]
        exact hleft.bindings
      · rw [s'.chain_pushFrame, if_neg hne]
        exact hleft.chain
    · have hnew := w.paired_pushFrame (true :: p) s.nextFrame
      rw [h.count] at hnew ⊢
      refine ⟨?_, ?_, fun name v hv => ?_⟩
      · rw [Store.frame_pushFrame, if_pos rfl, Store.frame_pushFrame, if_pos rfl]
      · rw [s.chain_pushFrame, if_pos rfl, s'.chain_pushFrame, if_pos rfl]
        exact .shared hnew ((h.chained hf).mono hle)
      · rw [Store.own?_pushFrame, if_pos rfl] at hv
        exact (hb name v hv).mono hle

/-- A name is bound in frames that belong together. -/
theorem bind {p : Pattern} {f g : FrameId} (hf : w.Paired p f g) (name : String) {v : Value} (hv : w.Knows v) :
    StoresPaired w (s.bind f name v) (s'.bind g name v) := by
  have hlt := h.lt_left hf
  have hlt' := h.lt_right hf
  refine ⟨by rw [Store.nextFrame_bind]; exact h.count, by rw [Store.nextFrame_bind]; exact h.taken,
    fun q a b hab => ?_, fun r g' hr => ?_, h.left, h.right, h.objects, h.known⟩
  · have hold := h.frames q a b hab
    have hiff : a = f ↔ b = g := by
      constructor
      · rintro rfl
        exact h.partner_unique hab hf
      · rintro rfl
        rw [Paired, hab] at hf
        cases hf
        rfl
    refine ⟨?_, ?_, fun other u hu => ?_⟩
    · rw [s.frame_bind hlt, s'.frame_bind hlt']
      by_cases ha : a = f
      · rw [if_pos ha, if_pos (hiff.mp ha)]
        exact congrArg (·.set name v) (h.frames p f g hf).bindings
      · rw [if_neg ha, if_neg fun hb => ha (hiff.mpr hb)]
        exact hold.bindings
    · rw [Store.chain, Store.parents_bind, Store.chain, Store.parents_bind]
      exact hold.chain
    · rw [s.own?_bind hlt] at hu
      split at hu
      · cases hu
        exact hv
      · exact hold.values other u hu
  · obtain ⟨hempty, q, a, ha, hparents⟩ := h.spares r g' hr
    refine ⟨?_, q, a, ha, ?_⟩
    · rw [s.frame_bind hlt, if_neg (h.not_spare hf hr).symm]
      exact hempty
    · rw [Store.parents_bind, Store.chain, Store.parents_bind]
      exact hparents

theorem pushClosure (t : Link) :
    StoresPaired (w.pushClosure t) (s.pushClosure t.left) (s'.pushClosure t.right) := by
  have hle := w.le_pushClosure t
  refine ⟨h.count, h.taken, fun p f g hf => ?_, fun r g hr => ?_, ?_, ?_, h.objects, fun o => (h.known o).mono hle⟩
  · have hold := h.frames p f g hf
    exact ⟨hold.bindings, hold.chain.mono hle, fun name v hv => (hold.values name v hv).mono hle⟩
  · obtain ⟨hempty, p, f, hf, hparents⟩ := h.spares r g hr
    exact ⟨hempty, p, f, hf.mono hle, hparents⟩
  · rw [Store.pushClosure, Array.toList_push, h.left, Pairing.pushClosure, List.map_append]
    rfl
  · rw [Store.pushClosure, Array.toList_push, h.right, Pairing.pushClosure, List.map_append]
    rfl

/-- Nothing but the objects is changed, on both sides to the same. -/
theorem withObjects {objects : Array Object} (hk : ∀ o, ObjectKnown w (Store.object { s with objects } o)) :
    StoresPaired w { s with objects } { s' with objects } := by
  refine ⟨h.count, h.taken, fun p f g hf => ?_, fun r g hr => ?_, h.left, h.right, rfl, hk⟩
  · exact ⟨(h.frames p f g hf).bindings, (h.frames p f g hf).chain, (h.frames p f g hf).values⟩
  · exact ⟨(h.spares r g hr).bindings, (h.spares r g hr).parents⟩

theorem pushObject {info : ClassInfo} (hi : ∀ entry ∈ info.methods, w.Plays .method entry.2) :
    StoresPaired w (s.pushObject ⟨info, []⟩) (s'.pushObject ⟨info, []⟩) := by
  rw [Store.pushObject, Store.pushObject, h.objects]
  refine h.withObjects fun o => ?_
  rw [← Store.pushObject, Store.object_pushObject]
  split
  · exact ⟨hi, fun name v hv => by cases hv⟩
  · exact h.known o

theorem setField (o : ObjectId) (name : String) {v : Value} (hv : w.Knows v) :
    StoresPaired w (s.setField o name v) (s'.setField o name v) := by
  rw [Store.setField, Store.setField, h.objects]
  refine h.withObjects fun p => ?_
  rw [← Store.setField]
  obtain hsame | ⟨rfl, hset⟩ := s.object_setField o name v p
  · rw [hsame]
    exact h.known p
  · rw [hset]
    refine ⟨(h.known p).methods, fun other u hu => ?_⟩
    rw [Table.get?_set] at hu
    split at hu
    · cases hu
      exact hv
    · exact (h.known p).fields other u hu

end Changes

end StoresPaired

end LoxLang
