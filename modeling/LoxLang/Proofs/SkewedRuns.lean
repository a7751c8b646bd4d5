import LoxLang.Proofs.Alongside

/-!
# Skewed trees run alike

From machines that are beside each other, skewed trees run alike with the same fuel: `ofFuel_parallel` goes through what
nodes do, with the lemmas of `Together` for the elementary computations.
-/

namespace LoxLang

open Pairing

/-! ## Operators -/

namespace Value

/-- The answer of an operator names no closure. -/
def AnswersPlainly (answer : Except OperatorFault Value) : Prop := ∀ v, answer = .ok v → v.references = []

theorem onNumbers_plainly {cause : Value → Value → RuntimeCause} {f : Numeral → Numeral → Except OperatorFault Value}
    (hf : ∀ m n, AnswersPlainly (f m n)) (a b : Value) : AnswersPlainly (onNumbers cause f a b) := by
  intro v hv
  unfold onNumbers at hv
  split at hv
  · exact hf _ _ v hv
  · cases hv

theorem toValue_references (n : Numeral) : n.toValue.references = [] := by
  cases n <;> rfl

theorem arithmetic_plainly (cause : Value → Value → RuntimeCause) (f : Numeral → Numeral → Option Numeral)
    (a b : Value) :
    AnswersPlainly (arithmetic cause f a b) := by
  refine onNumbers_plainly (fun m n v hv => ?_) a b
  split at hv
  · cases hv
    exact toValue_references _
  · cases hv

theorem ordered_plainly (holds : Ordering → Bool) (a b : Value) : AnswersPlainly (ordered holds a b) :=
  onNumbers_plainly (fun _ _ v hv => by cases hv; rfl) a b

theorem equality_plainly (wanted : Bool) (a b : Value) : AnswersPlainly (equality wanted a b) := by
  intro v hv
  unfold equality at hv
  split at hv
  · cases hv
    rfl
  · cases hv

theorem sum_plainly (a b : Value) : AnswersPlainly (sum a b) := by
  unfold sum
  split
  · exact fun v hv => by cases hv; rfl
  · exact arithmetic_plainly _ _ _ _

theorem binary_plainly (op : BinaryOp) (a b : Value) : AnswersPlainly (binary op a b) := by
  cases op with
  | equal | notEqual => exact equality_plainly _ a b
  | greater | greaterEqual | less | lessEqual => exact ordered_plainly _ a b
  | add => exact sum_plainly a b
  | subtract | multiply | divide => exact arithmetic_plainly _ _ a b
  | other symbol => exact nofun

theorem negation_plainly (a : Value) : AnswersPlainly (negation a) := by
  intro v hv
  unfold negation at hv
  split at hv
  · cases hv
  · split at hv
    · cases hv
      exact toValue_references _
    · cases hv

theorem unary_plainly (op : UnaryOp) (a : Value) : AnswersPlainly (unary op a) := by
  cases op with
  | not => exact fun v hv => by cases hv; rfl
  | negate | other => exact negation_plainly a

end Value

theorem Pairing.knows_of_plain {w : Pairing} {v : Value} (h : v.references = []) : w.Knows v := fun r hr => by
  rw [h] at hr
  cases hr

/-- All arguments are known if each of them is. -/
theorem Pairing.plays_of_mem_referencesOf {w : Pairing} {vs : List Value} (h : ∀ v ∈ vs, w.Knows v)
    {r : Role × ClosureId} (hr : r ∈ Value.referencesOf vs) : w.Plays r.1 r.2 :=
  let ⟨v, hv, hmem⟩ := Value.mem_referencesOf.mp hr
  h v hv r hmem

/-- What is no function is no method. -/
theorem Exec.methodTable_other (f : FrameId) {n : Node} (hn : n.functionName? = none) (ns : List Node) :
    Exec.methodTable f (n :: ns) = Exec.methodTable f ns := by
  cases n with
  | function => cases hn
  | _ => rfl

/-- The steps end alike. -/
def Pairing.SignalsAgree (w : Pairing) (a b : Signal) : Prop := b = a ∧ w.Knows a.value

namespace Together

variable {w : Pairing} {m : Machine} {s' : Store} (h : Beside w m s')
include h

theorem orFail (line : Line) {answer : Except OperatorFault Value} (ha : Value.AnswersPlainly answer) :
    Together w m s' (Exec.orFail line answer) (Exec.orFail line answer) Agree := by
  match answer, ha with
  | .ok v, ha => exact .pure h ⟨rfl, knows_of_plain (ha v rfl)⟩
  | .error (.cause cause), _ => exact .failAt h line cause
  | .error .outOfRange, _ => exact .throw h _

/-! ## Properties -/

theorem receiver (v : Value) (line : Line) :
    Together w m s' (Exec.receiver v line) (Exec.receiver v line) fun _ a b => b = a := by
  cases v with
  | object _ o => exact .pure h rfl
  | _ => exact .failAt h line _

theorem property {v : Value} (hv : w.Knows v) (o : ObjectId) (name : String) (line : Line) :
    Together w m s' (Exec.property v o name line) (Exec.property v o name line) Agree := by
  have hsame : s'.object o = m.store.object o := by rw [Store.object, h.stores.objects, Store.object]
  refine .bind (.inspect (R := fun w a b => b = a ∧ ObjectKnown w a) h ⟨hsame, h.stores.known o⟩)
    fun w₁ m₁ s₁' _ object hw h₁ hobject => ?_
  obtain ⟨rfl, hobject⟩ := hobject
  cases hfield : object.fields.get? name with
  | some field => exact .pure h₁ ⟨rfl, hobject.fields name field hfield⟩
  | none =>
    cases hmethod : object.info.method? name with
    | none => exact .failAt h₁ line _
    | some c =>
      obtain ⟨key, hkey⟩ := ClassInfo.mem_of_method? hmethod
      refine .bind (.bindMethod h₁ (hobject.methods _ hkey) (hv.mono hw)) fun w₂ m₂ s₂' bound _ hw₂ h₂ hbound => ?_
      obtain ⟨rfl, t, ht, hl, hbody⟩ := hbound
      refine .bind (.inspectClosure h₂ ht) fun w₃ m₃ s₃' _ _ hw₃ h₃ hclosure => ?_
      obtain ⟨rfl, rfl⟩ := hclosure
      exact .pure h₃ ⟨by rw [hl.name], fun r hr => by
        obtain rfl := List.mem_singleton.mp hr
        exact Plays.mono hw₃ ⟨t, ht, hl, hbody⟩⟩

/-! ## Callable values -/

/-- A known value takes as many arguments on both sides. -/
theorem arity_eq {v : Value} (hv : w.Knows v) : s'.arity v = m.store.arity v := by
  cases v with
  | function name c => exact congrArg List.length (h.stores.params_eq (hv (.function, c) (List.mem_singleton.mpr rfl)))
  | classRef info =>
    simp only [Store.arity]
    cases hi : Store.initializer? info with
    | none => rfl
    | some c =>
      obtain ⟨key, hkey⟩ := ClassInfo.mem_of_method? hi
      exact congrArg List.length (h.stores.params_eq (hv (.method, c) (List.mem_map.mpr ⟨(key, c), hkey, rfl⟩)))
  | _ => rfl

theorem checkCallable {v : Value} (hv : w.Knows v) (received : Nat) (line : Line) :
    Together w m s' (Exec.checkCallable v received line) (Exec.checkCallable v received line) fun _ a b => b = a := by
  by_cases hobject : ∃ c o, v = .object c o
  · obtain ⟨c, o, rfl⟩ := hobject
    exact .failAt h line _
  · rw [Exec.checkCallable_eq fun c o ho => hobject ⟨c, o, ho⟩]
    cases Exec.callableName? v with
    | none => exact .failAt h line _
    | some name =>
      refine .bind (.inspect (R := fun _ a b => b = a) h (arity_eq h hv)) fun w₁ m₁ s₁' a b _ h₁ hab => ?_
      subst hab
      split
      · exact .pure h₁ rfl
      · exact .failAt h₁ line _

/-! ## Hosts -/

theorem acceptReply (name : String) (line : Line) {reply : HostReply} (hr : ∀ r ∈ reply.references, w.Plays r.1 r.2) :
    Together w m s' (Exec.acceptReply name line reply) (Exec.acceptReply name line reply) Agree := by
  cases reply with
  | value v => exact .pure h ⟨rfl, hr⟩
  | failure text => exact .failAt h line _
  | overflow => exact .throw h _
  | raised d =>
    show Together w m s' (if d.phase = .runtime then _ else _ : Exec Value) (if d.phase = .runtime then _ else _) Agree
    split
    · exact .failAt h _ _
    · exact .throw h _

/-- A faithful host replies on both sides with what it was handed. -/
theorem askHost (index : Nat) (call : HostCall) (hv : ∀ v ∈ call.arguments, w.Knows v) :
    Together w m s' (Exec.askHost index call) (Exec.askHost index call)
      fun w₁ a b => b = a ∧ ∀ r ∈ a.references, w₁.Plays r.1 r.2 := by
  cases hhost : m.hosts[index]? with
  | none =>
    have hy := Exec.askHost_of_none (m := m.withStore s') hhost call
    exact .ok (Exec.askHost_of_none hhost call) hy w.le_refl h ⟨rfl, nofun⟩
  | some host =>
    have hknown := h.hosts host (Array.mem_of_getElem? hhost)
    have hplays : ∀ r ∈ Value.referencesOf call.arguments ++ Value.referencesOf host.memory.kept, w.Plays r.1 r.2 := by
      intro r hr
      obtain hr | hr := List.mem_append.mp hr
      · exact plays_of_mem_referencesOf hv hr
      · exact plays_of_mem_referencesOf hknown.kept hr
    have hx := Exec.askHost_of_some hhost call
    have hy := Exec.askHost_of_some (m := m.withStore s') hhost call
    refine .ok hx hy w.le_refl ⟨h.stores, fun other ho => ?_⟩
      ⟨rfl, fun r hr => hplays r (hknown.faithful.reply call host.memory hr)⟩
    rw [Array.set!_eq_setIfInBounds] at ho
    obtain ho | rfl := Array.mem_or_eq_of_mem_setIfInBounds ho
    · exact h.hosts other ho
    · exact ⟨⟨hknown.faithful.reply, hknown.faithful.memory⟩, fun v hv r hr =>
        hplays r (hknown.faithful.memory call host.memory (Value.mem_referencesOf.mpr ⟨v, hv, hr⟩))⟩

theorem callService (name : String) {arguments : List Value} (hv : ∀ v ∈ arguments, w.Knows v) (line : Line)
    (service : Service) :
    Together w m s' (Exec.callService name arguments line service) (Exec.callService name arguments line service)
      Agree := by
  cases service with
  | clock => exact .readClock h
  | argumentCount => exact .pure h ⟨rfl, nofun⟩
  | println =>
    show Together w m s' (Exec.printLine name (arguments.headD .nil) line) (Exec.printLine name _ line) Agree
    unfold Exec.printLine
    split
    · exact .bind (.emit h _ _) fun w₁ m₁ s₁' _ _ _ h₁ _ => .pure h₁ ⟨rfl, nofun⟩
    · exact .failAt h line _
  | host index =>
    refine .bind (.askHost h index ⟨name, arguments⟩ hv) fun w₁ m₁ s₁' a b _ h₁ hab => ?_
    obtain ⟨rfl, hknown⟩ := hab
    exact .acceptReply h₁ name line hknown

/-! ## Declarations -/

section Declarations

variable {p : Pattern} {f g : FrameId} (hf : w.Paired p f g)
include hf

theorem declareFunction (name : String) (params : List String) {body body' : Node} (line : Line)
    (hb : Skewed (true :: p) body body') :
    Together w m s' (Exec.declareFunction f name params body line) (Exec.declareFunction g name params body' line)
      fun _ _ _ => True := by
  have hlink : w.Links ⟨p, ⟨name, params, body, f, false⟩, ⟨name, params, body', g, false⟩⟩ := ⟨rfl, rfl, rfl, hf⟩
  refine .bind (.newClosure h hlink) fun w₁ m₁ s₁' c _ hw h₁ hc => ?_
  obtain ⟨rfl, hc⟩ := hc
  exact .define h₁ (hf.mono hw) name (fun r hr => by
    obtain rfl := List.mem_singleton.mp hr
    exact ⟨_, hc.1, hc.2, hb⟩) line

theorem methodTable {methods methods' : List Node} (hm : SkewedMethods (true :: p) methods methods') :
    Together w m s' (Exec.methodTable f methods) (Exec.methodTable g methods')
      fun w₁ a b => b = a ∧ ∀ entry ∈ a, w₁.Plays .method entry.2 := by
  induction methods generalizing methods' w m s' with
  | nil =>
    cases hm
    exact .pure h ⟨rfl, nofun⟩
  | cons n methods ih =>
    cases hm with
    | @method _ name params body body' line _ ns' hbody hrest =>
      have hlink : w.Links ⟨p, ⟨name, params, body, f, name == "init"⟩, ⟨name, params, body', g, name == "init"⟩⟩ :=
        ⟨rfl, rfl, rfl, hf⟩
      refine .bind (.newClosure h hlink) fun w₁ m₁ s₁' c _ hw h₁ hc => ?_
      obtain ⟨rfl, hc⟩ := hc
      refine .bind (ih h₁ (hf.mono hw) hrest) fun w₂ m₂ s₂' table _ hw₂ h₂ htable => .pure h₂ ?_
      obtain ⟨rfl, htable⟩ := htable
      have hplays : w₁.Plays .method _ := ⟨_, hc.1, hc.2, hbody⟩
      exact ⟨rfl, List.forall_mem_cons.mpr ⟨hplays.mono hw₂, htable⟩⟩
    | other hn hrest =>
      rw [Exec.methodTable_other f hn, Exec.methodTable_other g hn]
      exact ih h hf hrest

theorem declareClass (name : String) {methods methods' : List Node} (line : Line)
    (hm : SkewedMethods (true :: p) methods methods') :
    Together w m s' (Exec.declareClass f name methods line) (Exec.declareClass g name methods' line)
      fun _ _ _ => True := by
  refine .bind (.methodTable h hf hm) fun w₁ m₁ s₁' table _ hw h₁ htable => ?_
  obtain ⟨rfl, htable⟩ := htable
  exact .define h₁ (hf.mono hw) name (fun r hr => by
    obtain ⟨entry, he, rfl⟩ := List.mem_map.mp hr
    exact htable entry he) line

theorem bindParameters (line : Line) (params : List String) {arguments : List Value} (hv : ∀ v ∈ arguments, w.Knows v) :
    Together w m s' (Exec.bindParameters f line params arguments) (Exec.bindParameters g line params arguments)
      fun _ _ _ => True := by
  induction params generalizing arguments w m s' with
  | nil => exact .pure h trivial
  | cons name params ih =>
    cases arguments with
    | nil => exact .pure h trivial
    | cons v arguments =>
      obtain ⟨hv, hvs⟩ := List.forall_mem_cons.mp hv
      refine .bind (.define h hf name hv line) fun w₁ m₁ s₁' _ _ hw h₁ _ => ?_
      exact ih h₁ (hf.mono hw) fun u hu => (hvs u hu).mono hw

end Declarations

end Together

/-! ## Evaluators -/

/-- The evaluator does the same for skewed trees. Steps are executed in frames that belong together; blocks, which make
frames of their own, and expressions may stand in a spare frame. -/
structure Evaluator.Parallel (e : Evaluator) : Prop where
  execute : ∀ {w m s' p f g n n'}, Beside w m s' → w.Paired p f g → Skewed p n n' →
    Together w m s' (e.execute f n) (e.execute g n') SignalsAgree
  block : ∀ {w m s' p f g ns ns' line}, Beside w m s' → w.Sees p f g → SkewedAll (true :: p) ns ns' →
    Together w m s' (e.execute f (.block ns line)) (e.execute g (.block ns' line)) SignalsAgree
  evaluate : ∀ {w m s' p f g n n'}, Beside w m s' → w.Sees p f g → Skewed p n n' →
    Together w m s' (e.evaluate f n) (e.evaluate g n') Agree

namespace Evaluator.Parallel

variable {e : Evaluator} (he : e.Parallel) {w : Pairing} {m : Machine} {s' : Store} (h : Beside w m s') {p : Pattern}
  {f g : FrameId}
include he h

theorem evaluateAll (hf : w.Sees p f g) {ns ns' : List Node} (ht : SkewedAll p ns ns') :
    Together w m s' (e.evaluateAll f ns) (e.evaluateAll g ns')
      fun w₁ vs vs' => vs' = vs ∧ ∀ v ∈ vs, w₁.Knows v := by
  induction ns generalizing ns' w m s' with
  | nil =>
    cases ht
    exact .pure h ⟨rfl, nofun⟩
  | cons n ns ih =>
    obtain - | ⟨hn, hns⟩ := ht
    refine .bind (he.evaluate h hf hn) fun w₁ m₁ s₁' v _ hw h₁ hv => ?_
    obtain ⟨rfl, hv⟩ := hv
    refine .bind (ih h₁ (hf.mono hw) hns) fun w₂ m₂ s₂' vs _ hw₂ h₂ hvs => .pure h₂ ?_
    obtain ⟨rfl, hvs⟩ := hvs
    exact ⟨rfl, List.forall_mem_cons.mpr ⟨hv.mono hw₂, hvs⟩⟩

theorem executeAll (hf : w.Paired p f g) {ns ns' : List Node} (ht : SkewedAll p ns ns') :
    Together w m s' (e.executeAll f ns) (e.executeAll g ns') SignalsAgree := by
  induction ns generalizing ns' w m s' with
  | nil =>
    cases ht
    exact .pure h ⟨rfl, nofun⟩
  | cons n ns ih =>
    obtain - | ⟨hn, hns⟩ := ht
    refine .bind (he.execute h hf hn) fun w₁ m₁ s₁' signal _ hw h₁ hsignal => ?_
    obtain ⟨rfl, hsignal⟩ := hsignal
    split
    · exact .pure h₁ ⟨rfl, hsignal⟩
    · exact ih h₁ (hf.mono hw) hns

/-! ### Calls -/

/-- In the frame of a call the parameters are bound and the body is executed. An initializer answers with `this`. -/
theorem applyClosure {c : ClosureId} (hc : w.Plays .function c) {arguments : List Value}
    (hv : ∀ v ∈ arguments, w.Knows v) (line : Line) :
    Together w m s' (e.applyClosure c arguments line) (e.applyClosure c arguments line) Agree := by
  obtain ⟨t, ht, hl, hbody⟩ := hc
  refine .bind (.inspectClosure h ht) fun w₁ m₁ s₁' _ _ hw h₁ hclosure => ?_
  obtain ⟨rfl, rfl⟩ := hclosure
  have hframe := hl.frame.mono hw
  refine .bind (.newFrame h₁ (.paired hframe) nofun) fun w₂ m₂ s₂' f g hw₂ h₂ hfg => ?_
  rw [hl.params, hl.isInitializer]
  refine .bind (.bindParameters h₂ hfg line _ fun v hm => (hv v hm).mono (le_trans hw hw₂))
    fun w₃ m₃ s₃' _ _ hw₃ h₃ _ => ?_
  refine .bind (he.execute h₃ (hfg.mono hw₃) hbody) fun w₄ m₄ s₄' signal _ hw₄ h₄ hsignal => ?_
  obtain ⟨rfl, hsignal⟩ := hsignal
  split
  · exact .lookupAt (.ancestorSelf h₄ (hframe.mono (le_trans hw₂ (le_trans hw₃ hw₄)))) "this" line
  · exact .pure h₄ ⟨rfl, hsignal⟩

theorem construct {info : ClassInfo} (hi : ∀ entry ∈ info.methods, w.Plays .method entry.2) {arguments : List Value}
    (hv : ∀ v ∈ arguments, w.Knows v) (line : Line) :
    Together w m s' (e.construct info arguments line) (e.construct info arguments line) Agree := by
  refine .bind (.newObject h hi) fun w₁ m₁ s₁' _ o hw h₁ ho => ?_
  subst ho
  dsimp only
  cases hinit : Store.initializer? info with
  | none => exact .pure h₁ ⟨rfl, nofun⟩
  | some c =>
    obtain ⟨key, hkey⟩ := ClassInfo.mem_of_method? hinit
    have hknown : w₁.Knows (.object info.name o) := nofun
    refine .bind (.bindMethod h₁ ((hi _ hkey).mono hw) hknown) fun w₂ m₂ s₂' bound _ hw₂ h₂ hbound => ?_
    obtain ⟨rfl, hbound⟩ := hbound
    refine .bind (he.applyClosure h₂ hbound (fun v hm => (hv v hm).mono (le_trans hw hw₂)) line)
      fun w₃ m₃ s₃' _ _ _ h₃ _ => .pure h₃ ⟨rfl, nofun⟩

theorem apply {callee : Value} (hc : w.Knows callee) {arguments : List Value} (hv : ∀ v ∈ arguments, w.Knows v)
    (line : Line) : Together w m s' (e.apply callee arguments line) (e.apply callee arguments line) Agree := by
  cases callee with
  | function _ c => exact he.applyClosure h (hc (.function, c) (List.mem_singleton.mpr rfl)) hv line
  | native name _ service => exact .callService h name hv line service
  | classRef info =>
    exact he.construct h (fun entry hentry => hc (.method, entry.2) (List.mem_map.mpr ⟨entry, hentry, rfl⟩)) hv line
  | _ => exact .failAt h line _

theorem call (name : String) {callee : Value} (hc : w.Knows callee) {arguments : List Value}
    (hv : ∀ v ∈ arguments, w.Knows v) (line : Line) :
    Together w m s' (e.call name callee arguments line) (e.call name callee arguments line) Agree := by
  refine .bind (.enterCall h _) fun w₁ m₁ s₁' _ _ hw h₁ _ => ?_
  refine .bind (he.apply h₁ (hc.mono hw) (fun v hm => (hv v hm).mono hw) line)
    fun w₂ m₂ s₂' result _ hw₂ h₂ hresult => ?_
  exact .bind (.leaveCall h₂) fun w₃ m₃ s₃' _ _ hw₃ h₃ _ => .pure h₃ ⟨hresult.1, hresult.2.mono hw₃⟩

/-! ### Nodes -/

theorem evaluateNode (hf : w.Sees p f g) {n n' : Node} (ht : Skewed p n n') :
    Together w m s' (e.evaluateNode f n) (e.evaluateNode g n') Agree := by
  cases ht with
  | literal hv => exact .pure h ⟨rfl, knows_of_plain hv⟩
  | grouping hn => exact he.evaluate h hf hn
  | var hd => exact .readName h hf _ _ hd
  | this hd => exact .readName h hf _ _ hd
  | assign hn hd =>
    refine .bind (he.evaluate h hf hn) fun w₁ m₁ s₁' v _ hw h₁ hv => ?_
    obtain ⟨rfl, hv⟩ := hv
    exact .writeName h₁ (hf.mono hw) _ hv _ hd
  | unary hn =>
    refine .bind (he.evaluate h hf hn) fun w₁ m₁ s₁' v _ hw h₁ hv => ?_
    obtain ⟨rfl, -⟩ := hv
    exact .orFail h₁ _ (Value.unary_plainly _ _)
  | binary ha hb =>
    refine .bind (he.evaluate h hf ha) fun w₁ m₁ s₁' u _ hw h₁ hu => ?_
    obtain ⟨rfl, -⟩ := hu
    refine .bind (he.evaluate h₁ (hf.mono hw) hb) fun w₂ m₂ s₂' v _ hw₂ h₂ hv => ?_
    obtain ⟨rfl, -⟩ := hv
    exact .orFail h₂ _ (Value.binary_plainly _ _ _)
  | logical ha hb =>
    refine .bind (he.evaluate h hf ha) fun w₁ m₁ s₁' v _ hw h₁ hv => ?_
    obtain ⟨rfl, hv⟩ := hv
    split
    · exact .pure h₁ ⟨rfl, hv⟩
    · exact he.evaluate h₁ (hf.mono hw) hb
  | call hn hargs =>
    refine .bind (he.evaluate h hf hn) fun w₁ m₁ s₁' callee _ hw h₁ hc => ?_
    obtain ⟨rfl, hc⟩ := hc
    rw [hargs.length_eq]
    refine .bind (.checkCallable h₁ hc _ _) fun w₂ m₂ s₂' name _ hw₂ h₂ hname => ?_
    subst hname
    refine .bind (he.evaluateAll h₂ (hf.mono (le_trans hw hw₂)) hargs) fun w₃ m₃ s₃' values _ hw₃ h₃ hvalues => ?_
    obtain ⟨rfl, hvalues⟩ := hvalues
    exact he.call h₃ _ (hc.mono (le_trans hw₂ hw₃)) hvalues _
  | get hn =>
    refine .bind (he.evaluate h hf hn) fun w₁ m₁ s₁' v _ hw h₁ hv => ?_
    obtain ⟨rfl, hv⟩ := hv
    refine .bind (.receiver h₁ _ _) fun w₂ m₂ s₂' o _ hw₂ h₂ ho => ?_
    subst ho
    exact .property h₂ (hv.mono hw₂) _ _ _
  | set hn hv =>
    refine .bind (he.evaluate h hf hn) fun w₁ m₁ s₁' target _ hw h₁ htarget => ?_
    obtain ⟨rfl, -⟩ := htarget
    refine .bind (.receiver h₁ _ _) fun w₂ m₂ s₂' o _ hw₂ h₂ ho => ?_
    subst ho
    refine .bind (he.evaluate h₂ (hf.mono (le_trans hw hw₂)) hv) fun w₃ m₃ s₃' v _ hw₃ h₃ hknown => ?_
    obtain ⟨rfl, hknown⟩ := hknown
    refine .bind (.update h₃ (h₃.stores.setField _ _ hknown)) fun w₄ m₄ s₄' _ _ hw₄ h₄ _ => ?_
    exact .pure h₄ ⟨rfl, hknown.mono hw₄⟩
  | block | letDecl | print | ifElse | whileLoop | function | returnStep | classDecl | error | absent | bare =>
    exact .throw h _

/-- An expression as a step. -/
theorem executeExpression (hf : w.Paired p f g) {n n' : Node} (ht : Skewed p n n') :
    Together w m s' (do let _ ← e.evaluate f n; pure Signal.proceed) (do let _ ← e.evaluate g n'; pure Signal.proceed)
      SignalsAgree :=
  .bind (he.evaluate h (.paired hf) ht) fun _ _ _ _ _ _ h₁ _ => .pure h₁ ⟨rfl, nofun⟩

theorem executeBlock (hf : w.Sees p f g) {ns ns' : List Node} (hns : SkewedAll (true :: p) ns ns') (line : Line) :
    Together w m s' (e.executeNode f (.block ns line)) (e.executeNode g (.block ns' line)) SignalsAgree :=
  .bind (.newFrame h hf nofun) fun _ _ _ _ _ _ h₁ hinner => he.executeAll h₁ hinner hns

theorem executeNode (hf : w.Paired p f g) {n n' : Node} (ht : Skewed p n n') :
    Together w m s' (e.executeNode f n) (e.executeNode g n') SignalsAgree := by
  -- by the kind of step; only what opens a frame changes how far the two chains are apart
  cases ht with
  | block hns => exact he.executeBlock h (.paired hf) hns _
  | letDecl hn =>
    refine .bind (he.evaluate h (.paired hf) hn) fun w₁ m₁ s₁' v _ hw h₁ hv => ?_
    obtain ⟨rfl, hv⟩ := hv
    exact .bind (.define h₁ (hf.mono hw) _ hv _) fun w₂ m₂ s₂' _ _ _ h₂ _ => .pure h₂ ⟨rfl, nofun⟩
  | function hb =>
    exact .bind (.declareFunction h hf _ _ _ hb) fun w₁ m₁ s₁' _ _ _ h₁ _ => .pure h₁ ⟨rfl, nofun⟩
  | classDecl hm =>
    exact .bind (.declareClass h hf _ _ hm) fun w₁ m₁ s₁' _ _ _ h₁ _ => .pure h₁ ⟨rfl, nofun⟩
  | print hn =>
    refine .bind (he.evaluate h (.paired hf) hn) fun w₁ m₁ s₁' v _ _ h₁ hv => ?_
    obtain ⟨rfl, -⟩ := hv
    refine .bind (.textOf h₁ _) fun w₂ m₂ s₂' text _ _ h₂ htext => ?_
    subst htext
    exact .bind (.emit h₂ _ _) fun w₃ m₃ s₃' _ _ _ h₃ _ => .pure h₃ ⟨rfl, nofun⟩
  | ifElse hc ht he' =>
    refine .bind (he.evaluate h (.paired hf) hc) fun w₁ m₁ s₁' v _ hw h₁ hv => ?_
    obtain ⟨rfl, -⟩ := hv
    rw [he'.isAbsent_eq]
    split
    · exact he.execute h₁ (hf.mono hw) ht
    · split
      · exact .pure h₁ ⟨rfl, nofun⟩
      · exact he.execute h₁ (hf.mono hw) he'
  | whileLoop hc hb =>
    refine .bind (he.evaluate h (.paired hf) hc) fun w₁ m₁ s₁' v _ hw h₁ hv => ?_
    obtain ⟨rfl, -⟩ := hv
    split
    · refine .bind (he.execute h₁ (hf.mono hw) hb) fun w₂ m₂ s₂' signal _ hw₂ h₂ hsignal => ?_
      obtain ⟨rfl, hsignal⟩ := hsignal
      split
      · exact .pure h₂ ⟨rfl, hsignal⟩
      · exact he.execute h₂ (hf.mono (le_trans hw hw₂)) (.whileLoop hc hb)
    · exact .pure h₁ ⟨rfl, nofun⟩
  | returnStep hn =>
    rw [Evaluator.executeNode, Evaluator.executeNode, hn.isAbsent_eq]
    split
    · exact .pure h ⟨rfl, nofun⟩
    · refine .bind (he.evaluate h (.paired hf) hn) fun w₁ m₁ s₁' v _ _ h₁ hv => .pure h₁ ?_
      obtain ⟨rfl, hv⟩ := hv
      exact ⟨rfl, hv⟩
  | literal hv => exact he.executeExpression h hf (.literal hv)
  | grouping hn => exact he.executeExpression h hf (.grouping hn)
  | unary hn => exact he.executeExpression h hf (.unary hn)
  | binary ha hb => exact he.executeExpression h hf (.binary ha hb)
  | logical ha hb => exact he.executeExpression h hf (.logical ha hb)
  | var hd => exact he.executeExpression h hf (.var hd)
  | assign hn hd => exact he.executeExpression h hf (.assign hn hd)
  | this hd => exact he.executeExpression h hf (.this hd)
  | call hn hns => exact he.executeExpression h hf (.call hn hns)
  | get hn => exact he.executeExpression h hf (.get hn)
  | set hn hv => exact he.executeExpression h hf (.set hn hv)
  | error | absent | bare => exact .throw h _

end Evaluator.Parallel

/-- On the same fuel skewed trees do the same. -/
theorem ofFuel_parallel : ∀ fuel : Nat, (Evaluator.ofFuel fuel).Parallel
  | 0 => ⟨fun h _ _ => .throw h _, fun h _ _ => .throw h _, fun h _ _ => .throw h _⟩
  | fuel + 1 =>
    have ih := ofFuel_parallel fuel
    ⟨fun h hf ht => ih.executeNode h hf ht, fun {_ _ _ _ _ _ _ _ line} h hf ht => ih.executeBlock h hf ht line,
      fun h hf ht => ih.evaluateNode h hf ht⟩

end LoxLang
