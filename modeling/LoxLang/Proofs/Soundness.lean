import LoxLang.Proofs.Calls

/-!
# Soundness of evaluation

Twin trees keep two machines in lockstep (`ofFuel_sound`): wherever a node is evaluated, the frame fits the layers
around the node, every value that turns up is sound, and the two runs end with the same value, or with faults that are
alike (`Fault.Alike`). No frame is missing on the way, whatever hosts lend and take back.
-/

namespace LoxLang

/-- What the end of a step promises to the steps behind it. -/
def SignalSound (w : World) (scope : FrameId) (layers : List Layer) : Signal → Prop
  | .proceed => Fits w scope layers
  | .returnNil => True
  | .returnValue v => ValueSound w v

theorem SignalSound.value {w : World} {scope : FrameId} {layers : List Layer} {signal : Signal}
    (h : SignalSound w scope layers signal) : ValueSound w signal.value := by
  cases signal with
  | returnValue v => exact h
  | _ => exact .nil

/-- Behind a step that leads back to its own place. -/
theorem SignalSound.back {w : World} {scope : FrameId} {layers layers' : List Layer} {signal : Signal}
    (h : SignalSound w scope layers signal) {f : FrameId} (hf : Fits w f layers') : SignalSound w f layers' signal := by
  cases signal with
  | proceed => exact hf
  | returnNil => trivial
  | returnValue v => exact h

/-- The evaluators keep machines in lockstep on twin trees. -/
structure EvaluatorSound (programs : List (List Node)) (sides : Sides) (e : Traced.Evaluator)
    (e' : Evaluator) : Prop where
  execute : ∀ {w m m' scope layers n n'}, Lockstep programs sides w m m' → Fits w scope layers →
    Stands programs layers n → TwinStep sides.toKinship layers n n' →
    Holds programs sides w m m' (e.execute scope n) (e'.execute scope n')
      fun w₁ signal => SignalSound w₁ scope (behind layers n) signal
  evaluate : ∀ {w m m' scope layers n n'}, Lockstep programs sides w m m' → Fits w scope layers →
    Stands programs layers n → Twin sides.toKinship layers n n' →
    Holds programs sides w m m' (e.evaluate scope n) (e'.evaluate scope n') ValueSound

/-! ## Calls -/

/-- What a call does once it has its frame. -/
def Traced.callBody (e : Traced.Evaluator) (c : Closure) (f : FrameId) (arguments : List Value) (line : Line) :
    Traced Value := do
  (Exec.bindParameters f line c.params arguments : Exec Unit)
  let signal ← e.execute f c.body
  if c.isInitializer then (Exec.lookupAt c.frame 0 "this" line : Exec Value) else pure signal.value

def Evaluator.callBody (e : Evaluator) (c : Closure) (f : FrameId) (arguments : List Value) (line : Line) :
    Exec Value := do
  Exec.bindParameters f line c.params arguments
  let signal ← e.execute f c.body
  if c.isInitializer then Exec.lookupAt c.frame 0 "this" line else pure signal.value

theorem Traced.applyClosure_apply (e : Traced.Evaluator) (c : ClosureId) (arguments : List Value) (line : Line)
    (m : Machine) :
    Traced.applyClosure e c arguments line m =
      (⟨.invoke c arguments line, m⟩ ::
        (Traced.callBody e (m.store.closure c) m.store.nextFrame arguments line (m.called c)).1,
        (Traced.callBody e (m.store.closure c) m.store.nextFrame arguments line (m.called c)).2) := rfl

theorem Evaluator.applyClosure_apply (e : Evaluator) (c : ClosureId) (arguments : List Value) (line : Line)
    (m : Machine) :
    e.applyClosure c arguments line m =
      e.callBody (m.store.closure c) m.store.nextFrame arguments line (m.called c) := by
  rw [Evaluator.applyClosure, Exec.bind_apply]
  rfl

namespace EvaluatorSound

variable {programs : List (List Node)} {sides : Sides} {e : Traced.Evaluator} {e' : Evaluator}
  (he : EvaluatorSound programs sides e e') {w : World} {m m' : Machine} {scope : FrameId} {layers : List Layer}
include he

theorem evaluateAll (h : Lockstep programs sides w m m') (hf : Fits w scope layers) {ns ns' : List Node}
    (hs : ∀ n ∈ ns, Stands programs layers n) (ht : TwinAll sides.toKinship layers ns ns') :
    Holds programs sides w m m' (Traced.evaluateAll e scope ns) (e'.evaluateAll scope ns')
      fun w₁ vs => vs.length = ns.length ∧ ∀ v ∈ vs, ValueSound w₁ v := by
  induction ns generalizing ns' w m m' with
  | nil =>
    cases ht
    exact .pure h ⟨rfl, fun v hv => by cases hv⟩
  | cons n ns ih =>
    obtain - | ⟨hn, hns⟩ := ht
    refine .bind (he.evaluate h hf (hs n List.mem_cons_self) hn) fun w₁ m₁ m₁' v hw h₁ hv => ?_
    refine .bind (ih h₁ (hf.mono hw) (fun n hn => hs n (List.mem_cons_of_mem _ hn)) hns)
      fun w₂ m₂ m₂' vs hw₂ h₂ hvs => .pure h₂ ⟨congrArg (· + 1) hvs.1, fun u hu => ?_⟩
    obtain rfl | hu := List.mem_cons.mp hu
    · exact hv.mono hw₂
    · exact hvs.2 u hu

/-- In the frame of a call the parameters are bound and the body is executed. An initializer answers with `this`. -/
theorem callBody (h : Lockstep programs sides w m m') {t : ClosureType} {c c' : Closure}
    (hc : TwinClosure programs sides.toKinship t c c') (hframe : c.frame = t.frame)
    (hfits : Fits w t.frame t.site) {f : FrameId}
    {parents : List FrameId} (hf : w.frames[f]? = some ⟨.parameters c.name c.params c.body, t.site, parents⟩)
    {arguments : List Value} (hlen : arguments.length = c.params.length) (hv : ∀ v ∈ arguments, ValueSound w v)
    {line line' : Line} (hl : sides.lines line line') :
    Holds programs sides w m m' (Traced.callBody e c f arguments line) (e'.callBody c' f arguments line')
      ValueSound := by
  rw [Traced.callBody, Evaluator.callBody, hc.params, hc.isInitializer, hc.frame, hframe]
  refine .bind (.bindParameters h hf hl (fun p hp => hp) hlen hv) fun w₁ m₁ m₁' _ hw h₁ hb => ?_
  have hplace : Fits w₁ f (Layer.ofParameters c.name c.params c.body :: t.site) :=
    ⟨_, _, World.frame_of_le hw hf, rfl, fun p hp => hb p (Layer.get?_ofParameters c.name c.body hp).2⟩
  refine .bind (he.execute h₁ hplace hc.stands hc.body) fun w₂ m₂ m₂' signal hw₂ h₂ hsignal => ?_
  cases hi : c.isInitializer with
  | false => exact .pure h₂ hsignal.value
  | true =>
    obtain ⟨methods, outer, hsite⟩ := hc.receiver hi
    have hthis : ReadsAlike sides.searches t.site "this" (some 0) (some 0) := by
      rw [hsite]
      exact ⟨rfl, fun i hi => by cases hi; exact ⟨_, rfl, rfl⟩, .inl rfl⟩
    exact .readName h₂ (hfits.mono (World.le_trans hw hw₂)) hthis hl

theorem applyClosure (h : Lockstep programs sides w m m') {c : ClosureId} {arguments : List Value}
    (hc : Callable w c arguments.length) (hv : ∀ v ∈ arguments, ValueSound w v) {line line' : Line}
    (hl : sides.lines line line') :
    Holds programs sides w m m' (Traced.applyClosure e c arguments line) (e'.applyClosure c arguments line')
      ValueSound := by
  obtain ⟨t, ht, hlen, hfits⟩ := hc
  obtain ⟨hparams, hframe⟩ := h.stores.sound.closures c t ht
  have htwin := h.stores.closures c t ht
  have h₁ := h.invoke ht hfits arguments line
  have hle : w ≤ (w.visit ⟨.invoke c arguments line, m⟩).pushFrame (.ofCall m.store c t) :=
    World.le_trans (w.le_visit _) (World.le_pushFrame _ _)
  have hf : ((w.visit ⟨.invoke c arguments line, m⟩).pushFrame (.ofCall m.store c t)).frames[m.store.nextFrame]? =
      some (.ofCall m.store c t) := by
    rw [← h.stores.sound.frameCount]
    exact World.frame_pushFrame _ _
  refine .start (Traced.applyClosure_apply e c arguments line m) (e'.applyClosure_apply c arguments line' m') hle rfl ?_
  rw [h.stores.nextFrame_eq]
  exact he.callBody h₁ htwin hframe (hfits.mono hle) hf (by rw [hparams, hlen]) (fun v hm => (hv v hm).mono hle) hl

theorem apply (h : Lockstep programs sides w m m') {callee : Value} {arguments : List Value}
    (hc : Accepts w callee arguments.length) (hv : ∀ v ∈ arguments, ValueSound w v) {line line' : Line}
    (hl : sides.lines line line') :
    Holds programs sides w m m' (Traced.apply e callee arguments line) (e'.apply callee arguments line')
      ValueSound := by
  cases callee with
  | function _ c => exact he.applyClosure h hc hv hl
  | native name _ service => exact .callService h hl name hv (ValueSound.native.mp hc)
  | classRef info =>
    refine .bind (.newObject h hc.1) fun w₁ m₁ m₁' o hw h₁ _ => ?_
    dsimp only
    cases hi : Store.initializer? info with
    | none => exact .pure h₁ (.object _ o)
    | some c =>
      refine .bind (.bindMethod h₁ ((hc.2 c hi).mono hw) (.object _ o)) fun w₂ m₂ m₂' bound hw₂ h₂ hbound => ?_
      have hv₂ : ∀ v ∈ arguments, ValueSound w₂ v := fun v hm => (hv v hm).mono (World.le_trans hw hw₂)
      exact .bind (he.applyClosure h₂ hbound hv₂ hl) fun w₃ m₃ m₃' _ _ h₃ _ => .pure h₃ (.object _ o)
  | _ => exact hc.elim

theorem call (h : Lockstep programs sides w m m') (name : String) {callee : Value} {arguments : List Value}
    (hc : Accepts w callee arguments.length) (hv : ∀ v ∈ arguments, ValueSound w v) {line line' : Line}
    (hl : sides.lines line line') :
    Holds programs sides w m m' (Traced.call e name callee arguments line) (e'.call name callee arguments line')
      ValueSound := by
  refine .bind (.enterCall h ⟨rfl, rfl, hl⟩ (fun hq => ValueSound.haveText hq hv)) fun w₁ m₁ m₁' _ hw h₁ _ => ?_
  refine .bind (he.apply h₁ (hc.mono hw) (fun v hm => (hv v hm).mono hw) hl)
    fun w₂ m₂ m₂' result hw₂ h₂ hresult => ?_
  exact .bind (.leaveCall h₂) fun w₃ m₃ m₃' _ hw₃ h₃ _ => .pure h₃ (hresult.mono hw₃)

/-! ## Expressions -/

theorem evaluateNode (h : Lockstep programs sides w m m') (hf : Fits w scope layers) {n n' : Node}
    (hs : Stands programs layers n) (ht : Twin sides.toKinship layers n n') :
    Holds programs sides w m m' (Traced.evaluateNode e scope n) (e'.evaluateNode scope n') ValueSound := by
  have hpart : ∀ {inner inner'}, inner ∈ n.parts → Twin sides.toKinship layers inner inner' → ∀ {w₁ m₁ m₁'}, w ≤ w₁ →
      Lockstep programs sides w₁ m₁ m₁' →
      Holds programs sides w₁ m₁ m₁' (e.evaluate scope inner) (e'.evaluate scope inner') ValueSound :=
    fun hi ht _ _ _ hw h₁ => he.evaluate h₁ (hf.mono hw) (hs.part hi) ht
  cases ht with
  | literal _ hv => exact .pure h (hv.sound w)
  | grouping _ hn => exact hpart (by simp [Node.parts]) hn w.le_refl h
  | var hl hu => exact .readName h hf hu hl
  | this hl hu => exact .readName h hf hu hl
  | assign hl hn hu =>
    refine .bind (hpart (by simp [Node.parts]) hn w.le_refl h) fun w₁ m₁ m₁' v hw h₁ hv => ?_
    exact .writeName h₁ (hf.mono hw) hu hv hl
  | unary hl hn =>
    refine .bind (hpart (by simp [Node.parts]) hn w.le_refl h) fun w₁ m₁ m₁' v hw h₁ hv => ?_
    exact .orFail h₁ hl (hv.unary _)
  | binary hl ha hb =>
    refine .bind (hpart (by simp [Node.parts]) ha w.le_refl h) fun w₁ m₁ m₁' u hw h₁ hu => ?_
    refine .bind (hpart (by simp [Node.parts]) hb hw h₁) fun w₂ m₂ m₂' v hw₂ h₂ hv => ?_
    exact .orFail h₂ hl ((hu.mono hw₂).binary hv _)
  | @logical op _ _ _ _ _ _ _ ha hb =>
    refine .bind (hpart (by simp [Node.parts]) ha w.le_refl h) fun w₁ m₁ m₁' v hw h₁ hv => ?_
    by_cases hd : Value.decides op v = true
    · rw [if_pos hd, if_pos hd]
      exact .pure h₁ hv
    · rw [if_neg hd, if_neg hd]
      exact hpart (by simp [Node.parts]) hb hw h₁
  | call hl hn hargs =>
    refine .bind (hpart (by simp [Node.parts]) hn w.le_refl h) fun w₁ m₁ m₁' callee hw h₁ hc => ?_
    rw [hargs.length_eq]
    refine .bind (.checkCallable h₁ hl hc _) fun w₂ m₂ m₂' name hw₂ h₂ haccepts => ?_
    have hw₂' := World.le_trans hw hw₂
    refine .bind (he.evaluateAll h₂ (hf.mono hw₂') (fun a ha => hs.part (List.mem_cons_of_mem _ ha)) hargs)
      fun w₃ m₃ m₃' values hw₃ h₃ hvalues => ?_
    exact he.call h₃ name (hvalues.1 ▸ haccepts.mono hw₃) hvalues.2 hl
  | get hl hn =>
    refine .bind (hpart (by simp [Node.parts]) hn w.le_refl h) fun w₁ m₁ m₁' v hw h₁ hv => ?_
    refine .bind (.receiver h₁ hl) fun w₂ m₂ m₂' o hw₂ h₂ _ => ?_
    exact .property h₂ hl (hv.mono hw₂) o _
  | set hl hn hv =>
    refine .bind (hpart (by simp [Node.parts]) hn w.le_refl h) fun w₁ m₁ m₁' target hw h₁ htarget => ?_
    refine .bind (.receiver h₁ hl) fun w₂ m₂ m₂' o hw₂ h₂ _ => ?_
    refine .bind (hpart (by simp [Node.parts]) hv (World.le_trans hw hw₂) h₂) fun w₃ m₃ m₃' v hw₃ h₃ hsound => ?_
    exact .bind (.setField h₃ o _ hsound) fun w₄ m₄ m₄' _ hw₄ h₄ _ => .pure h₄ (hsound.mono hw₄)

/-! ## Steps -/

theorem executeAll (h : Lockstep programs sides w m m') (hf : Fits w scope layers) {ns ns' : List Node}
    (hs : StandTogether programs layers ns) (ht : TwinSteps sides.toKinship layers ns ns') :
    Holds programs sides w m m' (Traced.executeAll e scope ns) (e'.executeAll scope ns')
      fun w₁ signal => SignalSound w₁ scope (behindAll layers ns) signal := by
  induction ns generalizing ns' w m m' layers with
  | nil =>
    cases ht
    exact .pure h hf
  | cons n ns ih =>
    obtain - | ⟨hn, hns⟩ := ht
    refine .bind (he.execute h hf hs.head hn) fun w₁ m₁ m₁' signal hw h₁ hsignal => ?_
    cases signal with
    | proceed => exact ih h₁ hsignal hs.tail hns
    | returnNil => exact .pure h₁ trivial
    | returnValue v => exact .pure h₁ hsignal

/-- An expression as a step. -/
theorem executeExpression (h : Lockstep programs sides w m m') (hf : Fits w scope layers) {n n' : Node}
    (hs : Stands programs layers n) (ht : Twin sides.toKinship layers n n') :
    Holds programs sides w m m' (Traced.executeNode e scope n) (e'.executeNode scope n')
      fun w₁ signal => SignalSound w₁ scope (behind layers n) signal := by
  have hx : Traced.executeNode e scope n = (do let _ ← e.evaluate scope n; pure .proceed) := by cases ht <;> rfl
  have hy : e'.executeNode scope n' = (do let _ ← e'.evaluate scope n'; pure .proceed) := by cases ht <;> rfl
  have hb : behind layers n = layers := by cases ht <;> rfl
  rw [hx, hy, hb]
  exact .bind (he.evaluate h hf hs ht) fun w₁ m₁ m₁' _ hw h₁ _ => .pure h₁ (hf.mono hw)

theorem executeNode (h : Lockstep programs sides w m m') (hf : Fits w scope layers) {n n' : Node}
    (hs : Stands programs layers n) (ht : TwinStep sides.toKinship layers n n')
    (hv : ⟨.execute scope n, m⟩ ∈ w.visits) :
    Holds programs sides w m m' (Traced.executeNode e scope n) (e'.executeNode scope n')
      fun w₁ signal => SignalSound w₁ scope (behind layers n) signal := by
  -- by the kind of step; the evaluator of its parts is sound by `he`, in any world that has grown from this one
  cases ht with
  | expression ht => exact he.executeExpression h hf hs ht
  | block _ hsteps =>
    refine .bind (.newFrame h hf (.block hv)) fun w₁ m₁ m₁' inner hw h₁ hinner => ?_
    exact (he.executeAll h₁ hinner hs.block hsteps).mono fun w₂ signal hw₂ hsignal =>
      hsignal.back (hf.mono (World.le_trans hw hw₂))
  | letDecl hl hd hn =>
    refine .bind (he.evaluate h (hf.mark_pending _) hs.initializer hn) fun w₁ m₁ m₁' v hw h₁ hsound => ?_
    obtain ⟨t, ht, hdecl⟩ := (hf.mono hw).declares hd.declarable
    refine .bind (.define h₁ hl ht hdecl (hsound.mono (w₁.le_bind scope _))) fun w₂ m₂ m₂' _ hw₂ h₂ hb => ?_
    exact .pure h₂ ((hf.mono (World.le_trans hw hw₂)).mark_ready hb)
  | function hl hd hn hb =>
    exact .bind (.declareFunction h hf hd.declarable hl hn hs.body hb) fun w₁ m₁ m₁' _ hw h₁ hplace => .pure h₁ hplace
  | classDecl hl hd hm =>
    exact .bind (.declareClass h hf hd.declarable hl hv hm hs) fun w₁ m₁ m₁' _ hw h₁ hplace => .pure h₁ hplace
  | print hl hn =>
    refine .bind (he.evaluate h hf (hs.part (by simp [Node.parts])) hn) fun w₁ m₁ m₁' v hw h₁ hsound => ?_
    refine .bind (.textOf h₁ hsound) fun w₂ m₂ m₂' text hw₂ h₂ _ => ?_
    refine .bind (.emit h₂ text hl) fun w₃ m₃ m₃' _ hw₃ h₃ _ => .pure h₃ ?_
    exact hf.mono (World.le_trans hw (World.le_trans hw₂ hw₃))
  | ifThen _ hc ht =>
    refine .bind (he.evaluate h hf (hs.part (by simp [Node.parts])) hc) fun w₁ m₁ m₁' v hw h₁ _ => ?_
    have hf₁ := hf.mono hw
    cases v.truthy with
    | true =>
      exact (he.execute h₁ hf₁ (hs.part (by simp [Node.parts])) ht).mono fun w₂ signal hw₂ hsignal =>
        hsignal.back (hf₁.mono hw₂)
    | false => exact .pure h₁ hf₁
  | ifElse _ hc ht hfalse =>
    refine .bind (he.evaluate h hf (hs.part (by simp [Node.parts])) hc) fun w₁ m₁ m₁' v hw h₁ _ => ?_
    have hf₁ := hf.mono hw
    cases v.truthy with
    | true =>
      exact (he.execute h₁ hf₁ (hs.part (by simp [Node.parts])) ht).mono fun w₂ signal hw₂ hsignal =>
        hsignal.back (hf₁.mono hw₂)
    | false =>
      rw [hfalse.present.1, hfalse.present.2]
      exact (he.execute h₁ hf₁ (hs.part (by simp [Node.parts])) hfalse).mono fun w₂ signal hw₂ hsignal =>
        hsignal.back (hf₁.mono hw₂)
  | whileLoop hl hc hb =>
    refine .bind (he.evaluate h hf (hs.part (by simp [Node.parts])) hc) fun w₁ m₁ m₁' v hw h₁ _ => ?_
    have hf₁ := hf.mono hw
    cases v.truthy with
    | false => exact .pure h₁ hf₁
    | true =>
      refine .bind (he.execute h₁ hf₁ (hs.part (by simp [Node.parts])) hb) fun w₂ m₂ m₂' signal hw₂ h₂ hsignal => ?_
      cases signal with
      | proceed => exact he.execute h₂ (hf₁.mono hw₂) hs (.whileLoop hl hc hb)
      | returnNil => exact .pure h₂ trivial
      | returnValue v => exact .pure h₂ hsignal
  | returnNil => exact .pure h trivial
  | returnValue _ hn =>
    rw [Traced.executeNode, Evaluator.executeNode, hn.present.1, hn.present.2]
    exact .bind (he.evaluate h hf (hs.part (by simp [Node.parts])) hn) fun w₁ m₁ m₁' v hw h₁ hsound =>
      .pure h₁ hsound

end EvaluatorSound

/-! ## Whole runs -/

/-- Runs of twin trees stay in lockstep, however deep they may nest. -/
theorem ofFuel_sound (programs : List (List Node)) (sides : Sides) (fuel : Nat) :
    EvaluatorSound programs sides (Traced.ofFuel fuel) (Evaluator.ofFuel fuel) := by
  induction fuel with
  | zero => exact ⟨fun h _ _ _ => .ofError rfl rfl .outOfFuel h, fun h _ _ _ => .ofError rfl rfl .outOfFuel h⟩
  | succ fuel ih =>
    refine ⟨fun {w m m' scope layers n n'} h hf hs ht => ?_, fun {w m m' scope layers n n'} h hf hs ht => ?_⟩
    · refine .note h (.execute (w.le_visit _) h.stores.sound hf hs ht) fun h₁ => ?_
      exact ih.executeNode h₁ (hf.mono (w.le_visit _)) hs ht (w.visit_mem _)
    · refine .note h (.evaluate (w.le_visit _) h.stores.sound hf hs ht) fun h₁ => ?_
      exact ih.evaluateNode h₁ (hf.mono (w.le_visit _)) hs ht

end LoxLang
