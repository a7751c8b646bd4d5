import LoxLang.Proofs.Computations

/-!
# Declarations and calls side by side

Functions and classes are declared in frames that fit their places, so that closures can be called later, wherever they
have got to: the body of a function is executed in a frame that fits the layers around it (`Holds.applyClosure`).
-/

namespace LoxLang

variable {programs : List (List Node)} {sides : Sides} {w : World} {m m' : Machine}

theorem Fits.declares {f : FrameId} {layers : List Layer} (hf : Fits w f layers) {name : String}
    (hd : Declarable layers name) : ∃ t, w.frames[f]? = some t ∧ t.opening.Declares name := by
  obtain ⟨t, names, ht, rfl, -⟩ := hf
  obtain ⟨layer, outer, hl, hn⟩ := hd
  cases hl
  exact ⟨t, ht, hn⟩

theorem ClassInfo.mem_of_method? {info : ClassInfo} {name : String} {c : ClosureId} (h : info.method? name = some c) :
    ∃ key, (key, c) ∈ info.methods := by
  obtain ⟨⟨key, c'⟩, hf, rfl⟩ := Option.map_eq_some_iff.mp h
  exact ⟨key, List.mem_reverse.mp (List.mem_of_find?_eq_some hf)⟩

namespace Holds

/-! ## Declarations -/

section Declarations

variable (h : Lockstep programs sides w m m') {scope : FrameId} {layers : List Layer} (hf : Fits w scope layers)
  {name : String} (hd : Declarable layers name) {line line' : Line} (hl : sides.lines line line')
include h hf hd hl

theorem declareFunction {params : List String} {body body' : Node} (hn : params.Nodup)
    (hs : Stands programs (Layer.ofParameters name params body :: mark layers name true) body)
    (hb : TwinStep sides.toKinship (Layer.ofParameters name params body :: mark layers name true) body body') :
    Holds programs sides w m m' (liftM (Exec.declareFunction scope name params body line))
      (Exec.declareFunction scope name params body' line') fun w₁ _ => Fits w₁ scope (mark layers name true) := by
  rw [Exec.declareFunction, Traced.lift_bind]
  have hc :
      TwinClosure programs sides.toKinship ⟨mark layers name true, params, scope⟩ ⟨name, params, body, scope, false⟩
      ⟨name, params, body', scope, false⟩ := ⟨rfl, rfl, rfl, rfl, hn, hs, hb, fun hi => by cases hi⟩
  refine .bind (.newClosure h hc) fun w₁ m₁ m₁' i hw h₁ hi => ?_
  obtain ⟨rfl, rfl⟩ := hi
  have hf₁ := hf.mono hw
  obtain ⟨t, ht, hdecl⟩ := hf₁.declares hd
  have hle := World.le_bind (w.pushClosure ⟨mark layers name true, params, scope⟩) scope name
  have hv : ValueSound ((w.pushClosure ⟨mark layers name true, params, scope⟩).bind scope name)
      (.function name w.closures.length) :=
    ValueSound.function.mpr
      ⟨params.length, _, w.closure_pushClosure _, rfl, (hf₁.mono hle).mark_ready (World.bound_bind _ _ _)⟩
  exact (Holds.define h₁ hl ht hdecl hv).mono fun w₂ _ hw₂ hb₂ => (hf₁.mono hw₂).mark_ready hb₂

end Declarations

/-- The closures of methods; the layer of the receiver is around each of them. -/
theorem methodTable (h : Lockstep programs sides w m m') (scope : FrameId) {all methods methods' : List Node}
    {outer : List Layer} (hm : TwinMethods sides.toKinship (Layer.ofReceiver all :: outer) methods methods')
    (hs : ∀ name params body line, .function name params body line ∈ methods →
      Stands programs (Layer.ofParameters name params body :: Layer.ofReceiver all :: outer) body) :
    Holds programs sides w m m' (liftM (Exec.methodTable scope methods)) (Exec.methodTable scope methods')
      fun w₁ table => ∀ name c, (name, c) ∈ table → w.closures.length ≤ c ∧
        c < w.closures.length + methods.length ∧
        ∃ params, w₁.closures[c]? = some ⟨Layer.ofReceiver all :: outer, params, scope⟩ := by
  -- on the methods: the closure of the first one gets the next number, and those of the rest come behind it
  induction methods generalizing methods' w m m' with
  | nil =>
    cases hm
    exact .ofOk rfl rfl w.le_refl rfl h fun name c hc => by cases hc
  | cons n methods ih =>
    obtain - | @⟨_, name, params, body, body', l, l', _, ns', -, hn, hb, hrest⟩ := hm
    rw [Exec.methodTable, Traced.lift_bind]
    have hc : TwinClosure programs sides.toKinship ⟨Layer.ofReceiver all :: outer, params, scope⟩
        ⟨name, params, body, scope, name == "init"⟩ ⟨name, params, body', scope, name == "init"⟩ :=
      ⟨rfl, rfl, rfl, rfl, hn, hs name params body l List.mem_cons_self, hb, fun _ => ⟨all, outer, rfl⟩⟩
    refine .bind (.newClosure h hc) fun w₁ m₁ m₁' i hw h₁ hi => ?_
    obtain ⟨rfl, rfl⟩ := hi
    rw [Traced.lift_bind]
    refine .bind (ih h₁ hrest fun name params body line hmem => hs _ _ _ _ (List.mem_cons_of_mem _ hmem))
      fun w₂ m₂ m₂' table hw₂ h₂ ht => .ofOk rfl rfl w₂.le_refl rfl h₂ fun key c hmem => ?_
    have hlen : (w.pushClosure ⟨Layer.ofReceiver all :: outer, params, scope⟩).closures.length =
        w.closures.length + 1 := by simp [World.pushClosure]
    obtain hkey | hmem := List.mem_cons.mp hmem
    · cases hkey
      exact ⟨Nat.le_refl _, by simp, params, World.closure_of_le hw₂ (w.closure_pushClosure _)⟩
    · obtain ⟨hlo, hhi, hparams⟩ := ht key c hmem
      rw [hlen] at hlo hhi
      exact ⟨Nat.le_of_succ_le hlo, Nat.lt_of_lt_of_eq hhi (by rw [List.length_cons]; omega), hparams⟩

theorem declareClass (h : Lockstep programs sides w m m') {scope : FrameId} {layers : List Layer}
    (hf : Fits w scope layers) {name : String} (hd : Declarable layers name) {line line' : Line}
    (hl : sides.lines line line') {methods methods' : List Node}
    (hv : ⟨.execute scope (.classDecl name methods line), m⟩ ∈ w.visits)
    (hm : TwinMethods sides.toKinship (Layer.ofReceiver methods :: mark layers name true) methods methods')
    (hs : Stands programs layers (.classDecl name methods line)) :
    Holds programs sides w m m' (liftM (Exec.declareClass scope name methods line))
      (Exec.declareClass scope name methods' line') fun w₁ _ => Fits w₁ scope (mark layers name true) := by
  rw [Exec.declareClass, Traced.lift_bind]
  refine .bind (.methodTable h scope hm fun _ _ _ _ hmem => hs.method hmem) fun w₁ m₁ m₁' table hw h₁ ht => ?_
  have hf₁ := hf.mono hw
  obtain ⟨t, ht₁, hdecl⟩ := hf₁.declares hd
  have hle := w₁.le_bind scope name
  have hsound : ValueSound (w₁.bind scope name) (.classRef ⟨name, table⟩) :=
    ValueSound.classRef.mpr fun key c hmem => by
    obtain ⟨hlo, hhi, params, hc⟩ := ht key c hmem
    rw [h.stores.sound.closureCount] at hlo hhi
    exact ⟨params.length, _, methods, mark layers name true, World.closure_of_le hle hc, rfl, rfl,
      (hf₁.mono hle).mark_ready (World.bound_bind _ _ _), scope, name, line, m,
      World.visit_of_le (World.le_trans hw hle) hv, hlo, hhi⟩
  exact (Holds.define h₁ hl ht₁ hdecl hsound).mono fun w₂ _ hw₂ hb₂ => (hf₁.mono hw₂).mark_ready hb₂

/-! ## Bound methods -/

theorem bindMethod (h : Lockstep programs sides w m m') {c : ClosureId} {count : Nat} (hc : MethodSound w c count)
    {receiver : Value} (hr : ValueSound w receiver) :
    Holds programs sides w m m' (Traced.bindMethod c receiver) (Exec.bindMethod c receiver)
      fun w₁ i => Callable w₁ i count := by
  refine .note h .bind fun h => ?_
  obtain ⟨t, methods, outer, ht, rfl, hsite, hfits, hmethod⟩ := hc.mono (w.le_visit ⟨.bind c receiver, m⟩)
  replace hr := hr.mono (w.le_visit ⟨.bind c receiver, m⟩)
  have hvisit := World.visit_mem w ⟨.bind c receiver, m⟩
  generalize w.visit ⟨.bind c receiver, m⟩ = w at *
  obtain ⟨hparams, hframe⟩ := h.stores.sound.closures c t ht
  have htwin := h.stores.closures c t ht
  -- the frame of the receiver is pushed and noted as bound, and then the closure over it is made
  have h₁ := h.pushFrame [("this", receiver)] hfits (.receiver hvisit hmethod) fun name v hv => by
    rw [Table.get?_cons] at hv
    split at hv
    · next hn => cases hv; exact ⟨hn.symm, hr⟩
    · cases hv
  have hthis :
      (m.store.pushFrame (m.store.chain t.frame) [("this", receiver)]).binds "this" m.store.nextFrame = true := by
    simp [Table.contains]
  have hbound : TwinClosure programs sides.toKinship ⟨t.site, (m.store.closure c).params, m.store.nextFrame⟩
      { m.store.closure c with frame := m.store.nextFrame } { m'.store.closure c with frame := m'.store.nextFrame } :=
    ⟨htwin.name, htwin.params, h.stores.nextFrame_eq, htwin.isInitializer, htwin.nodup, htwin.stands, htwin.body,
      htwin.receiver⟩
  have h₃ := (h₁.noteBound hthis).pushClosure (c := { m.store.closure c with frame := m.store.nextFrame }) hbound
  have hx := Exec.bindMethod_apply m c receiver
  have hy := Exec.bindMethod_apply m' c receiver
  simp only [Exec.boundStore, htwin.frame, hframe, h.stores.closureCount] at hx hy
  have hle : w.pushFrame ⟨.receiver methods, outer, m.store.chain t.frame⟩ ≤
      ((w.pushFrame ⟨.receiver methods, outer, m.store.chain t.frame⟩).bind m.store.nextFrame "this").pushClosure
        ⟨t.site, (m.store.closure c).params, m.store.nextFrame⟩ :=
    World.le_trans (World.le_bind _ _ _) (World.le_pushClosure _ _)
  refine .ofOk hx hy (World.le_trans (w.le_pushFrame _) hle) ?_ h₃
    ⟨⟨t.site, (m.store.closure c).params, m.store.nextFrame⟩, ?_, congrArg List.length hparams, ?_⟩
  · rfl
  · rw [← h.stores.sound.closureCount]
    exact World.closure_pushClosure _ _
  · refine ⟨⟨.receiver methods, outer, m.store.chain t.frame⟩, [("this", true)], ?_, hsite, fun name hn => ?_⟩
    · exact World.frame_of_le hle (h.stores.sound.frameCount ▸ w.frame_pushFrame _)
    · rw [Table.get?_cons] at hn
      split at hn
      · next hthis => exact hthis ▸ World.bound_bind _ _ _
      · cases hn

/-! ## Properties -/

section Properties

variable (h : Lockstep programs sides w m m') {line line' : Line} (hl : sides.lines line line')
include h hl

theorem receiver {v : Value} :
    Holds programs sides w m m' (liftM (Exec.receiver v line)) (Exec.receiver v line') fun _ _ => True := by
  cases v with
  | object _ o => exact .ofOk rfl rfl w.le_refl rfl h trivial
  | _ => exact .failAt h hl fun _ => rfl

/-- A field, or a method bound to the instance. -/
theorem property {v : Value} (hv : ValueSound w v) (o : ObjectId) (name : String) :
    Holds programs sides w m m' (Traced.property v o name line) (Exec.property v o name line') ValueSound := by
  have ho := congrFun h.stores.object_eq o
  refine .bind (.inspect (R := ObjectSound) h ho (h.stores.sound.objects o)) fun w₁ m₁ m₁' object hw h₁ hobject => ?_
  cases hfield : object.fields.get? name with
  | some field => exact .pure h₁ (hobject.fields name field hfield)
  | none =>
    cases hmethod : object.info.method? name with
    | none => exact .failAt h₁ hl fun _ => rfl
    | some c =>
      obtain ⟨key, hkey⟩ := ClassInfo.mem_of_method? hmethod
      obtain ⟨count, hc⟩ := hobject.info key c hkey
      refine .bind (.bindMethod h₁ hc (hv.mono hw)) fun w₂ m₂ m₂' bound hw₂ h₂ hbound => ?_
      obtain ⟨t, ht, -⟩ := id hbound
      have hname : (m₂'.store.closure bound).name = (m₂.store.closure bound).name :=
        (h₂.stores.closures bound t ht).name
      exact .ok (a := .function (m₂.store.closure bound).name bound) rfl
        (congrArg (fun name => EStateM.Result.ok (Value.function name bound) m₂') hname) w₂.le_refl
        (List.append_nil _).symm h₂ (ValueSound.function.mpr ⟨count, hbound⟩)

end Properties

/-! ## Callable values -/

section Callables

variable (h : Lockstep programs sides w m m')
include h

/-- A closure takes as many arguments in both stores. -/
theorem arity_eq {v : Value} (hv : ValueSound w v) : m'.store.arity v = m.store.arity v := by
  have hclosure : ∀ c t, w.closures[c]? = some t →
      (m'.store.closure c).params.length = (m.store.closure c).params.length :=
    fun c t ht => congrArg List.length (h.stores.closures c t ht).params
  cases v with
  | function _ c =>
    obtain ⟨_, t, ht, -⟩ := ValueSound.function.mp hv
    exact hclosure c t ht
  | classRef info =>
    simp only [Store.arity]
    cases hi : Store.initializer? info with
    | none => rfl
    | some c =>
      obtain ⟨key, hkey⟩ := ClassInfo.mem_of_method? hi
      obtain ⟨_, t, _, _, ht, -⟩ := ValueSound.classRef.mp hv key c hkey
      exact hclosure c t ht
  | _ => rfl

/-- A sound value that can be called takes as many arguments as its arity says. -/
theorem accepts_of_arity {v : Value} (hv : ValueSound w v) {name : String} (hn : Exec.callableName? v = some name) :
    Accepts w v (m.store.arity v) := by
  have hcount : ∀ c t, w.closures[c]? = some t → t.params.length = (m.store.closure c).params.length :=
    fun c t ht => congrArg List.length (h.stores.sound.closures c t ht).1.symm
  cases v with
  | function _ c =>
    obtain ⟨_, t, ht, -, hf⟩ := ValueSound.function.mp hv
    exact ⟨t, ht, hcount c t ht, hf⟩
  | native => exact hv
  | classRef info =>
    refine ⟨ValueSound.classRef.mp hv, fun c hi => ?_⟩
    obtain ⟨key, hkey⟩ := ClassInfo.mem_of_method? hi
    obtain ⟨_, t, methods, outer, ht, -, hrest⟩ := ValueSound.classRef.mp hv key c hkey
    refine ⟨t, methods, outer, ht, ?_, hrest⟩
    rw [hcount c t ht, Store.arity, hi]
    rfl
  | _ => cases hn

theorem checkCallable {line line' : Line} (hl : sides.lines line line') {v : Value} (hv : ValueSound w v)
    (received : Nat) :
    Holds programs sides w m m' (liftM (Exec.checkCallable v received line)) (Exec.checkCallable v received line')
      fun w₁ _ => Accepts w₁ v received := by
  by_cases hobject : ∃ c o, v = .object c o
  · obtain ⟨c, o, rfl⟩ := hobject
    exact .failAt h hl fun _ => rfl
  · simp only [not_exists] at hobject
    rw [Exec.checkCallable_eq hobject, Exec.checkCallable_eq hobject]
    cases hn : Exec.callableName? v with
    | none =>
      refine .failAt h hl fun hq => ?_
      simp [RuntimeCause.hasText, RuntimeCause.values, Value.haveText, (hv.plain hq).hasText]
    | some name =>
      dsimp only
      rw [Traced.lift_bind]
      refine .bind (.inspect (R := fun w₁ n => w₁ = w ∧ n = m.store.arity v) h (arity_eq h hv) ⟨rfl, rfl⟩)
        fun w₁ m₁ m₁' expected hw h₁ hexpected => ?_
      obtain ⟨rfl, rfl⟩ := hexpected
      by_cases hr : received = m.store.arity v
      · rw [if_pos hr, if_pos hr]
        exact .ofOk rfl rfl w₁.le_refl rfl h₁ (hr ▸ accepts_of_arity h hv hn)
      · rw [if_neg hr, if_neg hr]
        exact .failAt h₁ hl fun _ => rfl

theorem printLine {line line' : Line} (hl : sides.lines line line') (name : String) {v : Value} (hv : ValueSound w v) :
    Holds programs sides w m m' (liftM (Exec.printLine name v line)) (Exec.printLine name v line') ValueSound := by
  unfold Exec.printLine
  cases ht : v.hasText with
  | true =>
    simp only [if_true, Traced.lift_bind]
    exact .bind (.emit h _ (sides.same 0)) fun w₁ m₁ m₁' _ hw h₁ _ => .ofOk rfl rfl w₁.le_refl rfl h₁ .nil
  | false => exact .failAt h hl fun hq => by rw [(hv.plain hq).hasText] at ht; cases ht

theorem callService {line line' : Line} (hl : sides.lines line line') (name : String) {arguments : List Value}
    (hv : ∀ v ∈ arguments, ValueSound w v) {service : Service}
    (hs : w.lent = [] → service = .clock ∨ service = .println) :
    Holds programs sides w m m' (liftM (Exec.callService name arguments line service))
      (Exec.callService name arguments line' service) ValueSound := by
  cases service with
  | clock => exact .readClock h
  | println =>
    refine .printLine h hl name ?_
    cases arguments with
    | nil => exact .nil
    | cons v vs => exact hv v List.mem_cons_self
  | argumentCount => exact .ofOk rfl rfl w.le_refl rfl h (.of_plain trivial rfl)
  | host index =>
    have hlent : w.lent ≠ [] := fun hq => by obtain hs | hs := hs hq <;> cases hs
    rw [Exec.callService, Exec.callService, Traced.lift_bind]
    exact .bind (.askHost h hlent index hv) fun w₁ m₁ m₁' reply hw h₁ hr =>
      .acceptReply h₁ (fun hq => hlent (World.lent_of_le hw hq)) hl hr

end Callables

/-! ## Parameters -/

/-- All parameters are bound in the frame of a call. -/
theorem bindParameters (h : Lockstep programs sides w m m') {f : FrameId} {t : FrameType}
    (ht : w.frames[f]? = some t) {line line' : Line} (hl : sides.lines line line') {params : List String}
    {arguments : List Value}
    (hd : ∀ p ∈ params, t.opening.Declares p) (hlen : arguments.length = params.length)
    (hv : ∀ v ∈ arguments, ValueSound w v) :
    Holds programs sides w m m' (liftM (Exec.bindParameters f line params arguments))
      (Exec.bindParameters f line' params arguments) fun w₁ _ => ∀ p ∈ params, (f, p) ∈ w₁.bound := by
  induction params generalizing arguments w m m' with
  | nil => exact .ofOk rfl rfl w.le_refl rfl h fun p hp => by cases hp
  | cons p params ih =>
    obtain - | ⟨v, arguments⟩ := arguments
    · cases hlen
    rw [Exec.bindParameters, Traced.lift_bind]
    have hsound : ValueSound (w.bind f p) v := (hv v List.mem_cons_self).mono (w.le_bind f p)
    refine .bind (.define h hl ht (hd p List.mem_cons_self) hsound) fun w₁ m₁ m₁' _ hw h₁ hb => ?_
    refine (ih h₁ (World.frame_of_le hw ht) (fun q hq => hd q (List.mem_cons_of_mem _ hq)) (Nat.succ.inj hlen)
      fun u hu => (hv u (List.mem_cons_of_mem _ hu)).mono hw).mono fun w₂ _ hw₂ hbs q hq => ?_
    obtain rfl | hq := List.mem_cons.mp hq
    · exact World.bound_of_le hw₂ hb
    · exact hbs q hq

end Holds

end LoxLang
