import LoxLang.Proofs.Calls
import LoxLang.Proofs.Pairings

/-!
# Machines with spare frames

`Beside w m s'` says that the machine `m` runs beside one that is the same apart from its store `s'`, in which the
spare frames are missing. `Together` says of two computations that from such machines they end alike, on machines that
are beside each other again. It composes along `>>=`, and every elementary computation has its lemma; the first side
may make a spare frame on its own (`Together.spareFrame`).
-/

namespace LoxLang

/-- The machine with another store. -/
def Machine.withStore (m : Machine) (s : Store) : Machine := { m with store := s }

/-! ## Hosts -/

structure HostKnown (w : Pairing) (h : Host) : Prop where
  faithful : h.Faithful
  kept : ∀ v ∈ h.memory.kept, w.Knows v

theorem HostKnown.mono {w w₁ : Pairing} (hw : w ≤ w₁) {h : Host} (hh : HostKnown w h) : HostKnown w₁ h :=
  ⟨hh.faithful, fun v hv => (hh.kept v hv).mono hw⟩

/-! ## Machines and computations -/

structure Beside (w : Pairing) (m : Machine) (s' : Store) : Prop where
  stores : StoresPaired w m.store s'
  hosts : ∀ h ∈ m.hosts, HostKnown w h

/-- The same value on both sides, and all that it names is known. -/
def Pairing.Agree (w : Pairing) (v v' : Value) : Prop := v' = v ∧ w.Knows v

/-- The computations end alike, on machines that are beside each other under a later pairing. -/
inductive Together {α β : Type} (w : Pairing) (m : Machine) (s' : Store) (x : Exec α) (y : Exec β)
    (R : Pairing → α → β → Prop) : Prop
  | ok {a b m₁ s₁' w₁} : x m = .ok a m₁ → y (m.withStore s') = .ok b (m₁.withStore s₁') → w ≤ w₁ → Beside w₁ m₁ s₁' →
      R w₁ a b → Together w m s' x y R
  | error {fault m₁ s₁' w₁} : x m = .error fault m₁ → y (m.withStore s') = .error fault (m₁.withStore s₁') → w ≤ w₁ →
      Beside w₁ m₁ s₁' → Together w m s' x y R

theorem Exec.ancestor_apply_none (m : Machine) {f : FrameId} {depth : Nat} (h : m.store.ancestor? f depth = none) :
    Exec.ancestor f depth m = .error (.shortChain depth) m := by
  rw [ancestor, bind_apply, inspect_apply]
  simp only [h]
  rfl

namespace Together

open Pairing

variable {α β γ δ : Type} {w : Pairing} {m : Machine} {s' : Store} {R : Pairing → α → β → Prop}

theorem mono {Q : Pairing → α → β → Prop} {x : Exec α} {y : Exec β} (hx : Together w m s' x y R)
    (hq : ∀ w₁ a b, w ≤ w₁ → R w₁ a b → Q w₁ a b) : Together w m s' x y Q := by
  cases hx with
  | ok hx hy hw h hr => exact .ok hx hy hw h (hq _ _ _ hw hr)
  | error hx hy hw h => exact .error hx hy hw h

theorem bind {Q : Pairing → γ → δ → Prop} {x : Exec α} {y : Exec β} {f : α → Exec γ} {g : β → Exec δ}
    (hx : Together w m s' x y R)
    (hf : ∀ w₁ m₁ s₁' a b, w ≤ w₁ → Beside w₁ m₁ s₁' → R w₁ a b → Together w₁ m₁ s₁' (f a) (g b) Q) :
    Together w m s' (x >>= f) (y >>= g) Q := by
  cases hx with
  | error hx hy hw h => exact .error (by rw [Exec.bind_apply, hx]) (by rw [Exec.bind_apply, hy]) hw h
  | ok hx hy hw h hr =>
    cases hf _ _ _ _ _ hw h hr with
    | ok hx₂ hy₂ hw₂ h₂ hr₂ =>
      exact .ok (by rw [Exec.bind_apply, hx]; exact hx₂) (by rw [Exec.bind_apply, hy]; exact hy₂)
        (le_trans hw hw₂) h₂ hr₂
    | error hx₂ hy₂ hw₂ h₂ =>
      exact .error (by rw [Exec.bind_apply, hx]; exact hx₂) (by rw [Exec.bind_apply, hy]; exact hy₂)
        (le_trans hw hw₂) h₂

section Elementary

variable (h : Beside w m s')
include h

theorem pure {a : α} {b : β} (hr : R w a b) : Together w m s' (Pure.pure a) (Pure.pure b) R :=
  .ok rfl rfl w.le_refl h hr

theorem throw (fault : Fault) : Together w m s' (throw fault) (throw fault) R := .error rfl rfl w.le_refl h

theorem failAt (line : Line) (cause : RuntimeCause) :
    Together w m s' (Exec.failAt line cause) (Exec.failAt line cause) R := .throw h _

/-- Both stores are looked at. -/
theorem inspect {φ : Store → α} {ψ : Store → β} (hr : R w (φ m.store) (ψ s')) :
    Together w m s' (Exec.inspect φ) (Exec.inspect ψ) R := .ok rfl rfl w.le_refl h hr

/-- Both stores are changed, and stay paired. -/
theorem update {φ ψ : Store → Store} (hs : StoresPaired w (φ m.store) (ψ s')) :
    Together w m s' (Exec.update φ) (Exec.update ψ) fun _ _ _ => True :=
  .ok rfl rfl w.le_refl ⟨hs, h.hosts⟩ trivial

theorem textOf (v : Value) : Together w m s' (Exec.textOf v) (Exec.textOf v) fun _ text text' => text' = text := by
  unfold Exec.textOf
  split
  · exact .pure h rfl
  · exact .throw h _

/-! ### Names -/

section Names

variable {p : Pattern} {f g : FrameId}

theorem define (hf : w.Paired p f g) (name : String) {v : Value} (hv : w.Knows v) (line : Line) :
    Together w m s' (Exec.define f name v line) (Exec.define g name v line) fun _ _ _ => True := by
  refine .bind (.inspect (R := fun _ a b => b = a) h (h.stores.binds_eq hf name)) fun w₁ m₁ s₁' a b hw h₁ hab => ?_
  subst hab
  split
  · exact .failAt h₁ line _
  · exact .update h₁ (h₁.stores.bind (hf.mono hw) name (hv.mono hw))

theorem lookup (hf : w.Sees p f g) (name : String) (line : Line) :
    Together w m s' (Exec.lookup f name line) (Exec.lookup g name line) Agree := by
  obtain ⟨heq, hknown⟩ := h.stores.lookup?_known hf name
  refine .bind (.inspect (R := fun w a b => b = a ∧ ∀ v, a = some v → w.Knows v) h ⟨heq, hknown⟩)
    fun w₁ m₁ s₁' a b hw h₁ hab => ?_
  obtain ⟨rfl, hknown⟩ := hab
  cases b with
  | some v => exact .pure h₁ ⟨rfl, hknown v rfl⟩
  | none => exact .failAt h₁ line _

theorem ancestor (hf : w.Sees p f g) {d d' : Nat} (hd : DepthSkewed p (some d) (some d')) :
    Together w m s' (Exec.ancestor f d) (Exec.ancestor g d') fun w₁ a b => ∃ q, w₁.Paired q a b := by
  obtain ⟨ha, hb, rfl⟩ | ⟨q, a, b, ha, hb, hpair⟩ := h.stores.ancestor?_skewed hf hd
  · exact .error (Exec.ancestor_apply_none m ha) (Exec.ancestor_apply_none (m.withStore s') hb) w.le_refl h
  · exact .ok (Exec.ancestor_apply m ha) (Exec.ancestor_apply (m.withStore s') hb) w.le_refl h ⟨q, hpair⟩

/-- A frame stands at its own depth zero. -/
theorem ancestorSelf (hf : w.Paired p f g) :
    Together w m s' (Exec.ancestor f 0) (Exec.ancestor g 0) fun w₁ a b => ∃ q, w₁.Paired q a b :=
  .ok (Exec.ancestor_apply m rfl) (Exec.ancestor_apply (m.withStore s') rfl) w.le_refl h ⟨p, hf⟩

omit h in
/-- Frames that belong together bind a name to the same value. -/
theorem lookupAt {d d' : Nat} (hd : Together w m s' (Exec.ancestor f d) (Exec.ancestor g d')
    fun w₁ a b => ∃ q, w₁.Paired q a b) (name : String) (line : Line) :
    Together w m s' (Exec.lookupAt f d name line) (Exec.lookupAt g d' name line) Agree := by
  refine .bind hd fun w₁ m₁ s₁' a b hw h₁ hab => ?_
  obtain ⟨q, hab⟩ := hab
  have hsame : s₁'.own? b name = m₁.store.own? a name := by rw [h₁.stores.own?_eq hab]
  refine .bind (.inspect (R := fun w a b => b = a ∧ ∀ v, a = some v → w.Knows v) h₁
    ⟨hsame, (h₁.stores.frames q a b hab).values name⟩) fun w₂ m₂ s₂' found found' hw₂ h₂ hfound => ?_
  obtain ⟨rfl, hknown⟩ := hfound
  cases found' with
  | some v => exact .pure h₂ ⟨rfl, hknown v rfl⟩
  | none => exact .failAt h₂ line _

/-- Reads through skewed depths give the same value. -/
theorem readName (hf : w.Sees p f g) (name : String) (line : Line) {d d' : Depth} (hd : DepthSkewed p d d') :
    Together w m s' (Exec.readName f name line d) (Exec.readName g name line d') Agree := by
  cases d with
  | none =>
    cases hd
    exact .lookup h hf name line
  | some d =>
    obtain ⟨d', rfl⟩ : ∃ i, d' = some i := by cases hd <;> exact ⟨_, rfl⟩
    exact .lookupAt (.ancestor h hf hd) name line

/-- Writes through skewed depths change frames that belong together. -/
theorem writeName (hf : w.Sees p f g) (name : String) {v : Value} (hv : w.Knows v) (line : Line) {d d' : Depth}
    (hd : DepthSkewed p d d') :
    Together w m s' (Exec.writeName f name v line d) (Exec.writeName g name v line d') Agree := by
  cases d with
  | none =>
    cases hd
    refine .bind (.inspect (R := fun w a b => a = none ∧ b = none ∨ ∃ q a' b', a = some a' ∧ b = some b' ∧
      w.Paired q a' b') h (h.stores.owner?_cases hf name)) fun w₁ m₁ s₁' a b hw h₁ hab => ?_
    obtain ⟨rfl, rfl⟩ | ⟨q, a, b, rfl, rfl, hab⟩ := hab
    · exact .failAt h₁ line _
    · refine .bind (.update h₁ (h₁.stores.bind hab name (hv.mono hw))) fun w₂ m₂ s₂' _ _ hw₂ h₂ _ => ?_
      exact .pure h₂ ⟨rfl, hv.mono (le_trans hw hw₂)⟩
  | some d =>
    obtain ⟨d', rfl⟩ : ∃ i, d' = some i := by cases hd <;> exact ⟨_, rfl⟩
    refine .bind (.ancestor h hf hd) fun w₁ m₁ s₁' a b hw h₁ hab => ?_
    obtain ⟨q, hab⟩ := hab
    refine .bind (.update h₁ (h₁.stores.bind hab name (hv.mono hw))) fun w₂ m₂ s₂' _ _ hw₂ h₂ _ => ?_
    exact .pure h₂ ⟨rfl, hv.mono (le_trans hw hw₂)⟩

/-! ### Frames -/

theorem newFrame (hf : w.Sees p f g) {bindings : Table Value}
    (hb : ∀ name v, bindings.get? name = some v → w.Knows v) :
    Together w m s' (Exec.newFrame (some f) bindings) (Exec.newFrame (some g) bindings)
      fun w₁ a b => w₁.Paired (true :: p) a b :=
  .ok (Exec.newFrame_apply m f bindings) (Exec.newFrame_apply (m.withStore s') g bindings)
    (w.le_pushFrame (true :: p) m.store.nextFrame)
    ⟨h.stores.pushFrame hf hb, fun host hh => (h.hosts host hh).mono (w.le_pushFrame _ _)⟩
    (h.stores.count ▸ w.paired_pushFrame (true :: p) m.store.nextFrame)

/-- The first side makes a frame in which nothing will be bound. -/
theorem spareFrame (hf : w.Paired p f g) {x : FrameId → Exec α} {y : Exec β}
    (hx : ∀ w₁ m₁ r, w ≤ w₁ → Beside w₁ m₁ s' → w₁.Sees (false :: p) r g → Together w₁ m₁ s' (x r) y R) :
    Together w m s' (Exec.newFrame (some f) [] >>= x) y R := by
  have hle := w.le_pushSpare m.store.nextFrame g
  have hsees : (w.pushSpare m.store.nextFrame g).Sees (false :: p) m.store.nextFrame g :=
    .spare (hf.mono hle) (List.mem_append_right _ (List.mem_singleton.mpr rfl))
  have hrun := hx _ { m with store := m.store.pushFrame (m.store.chain f) [] } m.store.nextFrame hle
    ⟨h.stores.pushSpare hf, fun host hh => (h.hosts host hh).mono hle⟩ hsees
  cases hrun with
  | ok hx hy hw h₁ hr => exact .ok (by rw [Exec.bind_apply, Exec.newFrame_apply]; exact hx) hy (le_trans hle hw) h₁ hr
  | error hx hy hw h₁ => exact .error (by rw [Exec.bind_apply, Exec.newFrame_apply]; exact hx) hy (le_trans hle hw) h₁

end Names

/-! ### Closures and objects -/

theorem newClosure {t : Link} (ht : w.Links t) :
    Together w m s' (Exec.newClosure t.left) (Exec.newClosure t.right)
      fun w₁ a b => b = a ∧ w₁.closures[a]? = some t ∧ w₁.Links t := by
  have hle := w.le_pushClosure t
  refine .ok (Exec.newClosure_apply m t.left) (Exec.newClosure_apply (m.withStore s') t.right) hle
    ⟨h.stores.pushClosure t, fun host hh => (h.hosts host hh).mono hle⟩ ⟨?_, ?_, ht.mono hle⟩
  · exact h.stores.nextClosure_right.trans h.stores.nextClosure_left.symm
  · rw [h.stores.nextClosure_left]
    exact w.closure_pushClosure t

/-- Both sides of a closure. -/
theorem inspectClosure {c : ClosureId} {t : Link} (ht : w.closures[c]? = some t) :
    Together w m s' (Exec.inspect (·.closure c)) (Exec.inspect (·.closure c)) fun _ a b => a = t.left ∧ b = t.right :=
  .inspect h ⟨h.stores.closure_left ht, h.stores.closure_right ht⟩

theorem newObject {info : ClassInfo} (hi : ∀ entry ∈ info.methods, w.Plays .method entry.2) :
    Together w m s' (Exec.newObject info) (Exec.newObject info) fun _ a b => b = a := by
  refine .ok (Exec.newObject_apply m info) (Exec.newObject_apply (m.withStore s') info) w.le_refl
    ⟨h.stores.pushObject hi, h.hosts⟩ ?_
  rw [Store.nextObject, Machine.withStore, h.stores.objects]
  rfl

/-- A bound method can be called as a function. -/
theorem bindMethod {c : ClosureId} (hc : w.Plays .method c) {receiver : Value} (hr : w.Knows receiver) :
    Together w m s' (Exec.bindMethod c receiver) (Exec.bindMethod c receiver)
      fun w₁ a b => b = a ∧ w₁.Plays .function a := by
  obtain ⟨t, ht, hl, hbody⟩ := hc
  refine .bind (.inspectClosure h ht) fun w₁ m₁ s₁' _ _ hw h₁ hclosure => ?_
  obtain ⟨rfl, rfl⟩ := hclosure
  have hthis : ∀ name v, Table.get? [("this", receiver)] name = some v → w₁.Knows v := fun name v hv => by
    rw [Table.get?_cons] at hv
    split at hv
    · cases hv
      exact hr.mono hw
    · cases hv
  refine .bind (.newFrame h₁ (.paired (hl.frame.mono hw)) hthis) fun w₂ m₂ s₂' f g hw₂ h₂ hfg => ?_
  have hlink : w₂.Links ⟨true :: t.pattern, { t.left with frame := f }, { t.right with frame := g }⟩ :=
    ⟨hl.name, hl.params, hl.isInitializer, hfg⟩
  exact (Together.newClosure h₂ hlink).mono fun w₃ a b _ hab => ⟨hab.1, _, hab.2.1, hab.2.2, hbody⟩

/-! ### Calls and effects -/

theorem emit (message : String) (line : Line) :
    Together w m s' (Exec.emit message line) (Exec.emit message line) fun _ _ _ => True := by
  have hx := Exec.emit_apply m message line
  have hy := Exec.emit_apply (m.withStore s') message line
  have hnext : Beside w (Exec.emitted m message) s' := ⟨h.stores, h.hosts⟩
  rw [show (m.withStore s').refusesLine (m.withStore s').writes = m.refusesLine m.writes from rfl] at hy
  by_cases hrefused : m.refusesLine m.writes = true
  · rw [if_pos hrefused] at hx hy
    exact .error hx hy w.le_refl hnext
  · rw [if_neg hrefused] at hx hy
    exact .ok hx hy w.le_refl hnext trivial

theorem enterCall (a : Activation) :
    Together w m s' (Exec.enterCall a) (Exec.enterCall a) fun _ _ _ => True := by
  have hx := Exec.enterCall_apply m a
  have hy := Exec.enterCall_apply (m.withStore s') a
  have hlogged : Beside w (Exec.logged m a) s' := ⟨h.stores, h.hosts⟩
  have hnext : Beside w (Exec.entered m a) s' := ⟨h.stores, h.hosts⟩
  rw [show (m.withStore s').activations = m.activations from rfl,
    show (m.withStore s').callLimit = m.callLimit from rfl,
    show (m.withStore s').log = m.log from rfl] at hy
  by_cases hrefused : m.log.refusesNext = true
  · rw [if_pos hrefused] at hx hy
    exact .error hx hy w.le_refl hlogged
  · rw [if_neg hrefused] at hx hy
    by_cases hd : m.callLimit < m.activations.size + 1
    · rw [if_pos hd] at hx hy
      exact .error hx hy w.le_refl hnext
    · rw [if_neg hd] at hx hy
      exact .ok hx hy w.le_refl hnext trivial

theorem leaveCall : Together w m s' Exec.leaveCall Exec.leaveCall fun _ _ _ => True :=
  .ok (Exec.leaveCall_apply m) (Exec.leaveCall_apply (m.withStore s')) w.le_refl ⟨h.stores, h.hosts⟩ trivial

theorem readClock : Together w m s' Exec.readClock Exec.readClock Agree :=
  .ok (Exec.readClock_apply m) (Exec.readClock_apply (m.withStore s')) w.le_refl ⟨h.stores, h.hosts⟩ ⟨rfl, nofun⟩

end Elementary

end Together

end LoxLang
