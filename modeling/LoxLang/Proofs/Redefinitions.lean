import LoxLang.Proofs.Assignments
import LoxLang.Proofs.Retention

/-!
# Names that are declared again

A text that passes every check declares a name at most once in every scope, and every scope has a frame of its own each
time it is entered. So as long as assignments only overwrite, a frame is filled by each of its declarations at most once
(`fills_accruesIn`), and no declaration finds its name bound already but one: that of a global, at the top level, whose
name was bound before the run began (`Session.only_globals_redefined`).
-/

namespace LoxLang

open Exec

/-! ## Assignments that overwrite -/

/-- If the node is a `let`, its initializer does not assign to its variable. -/
def Node.AssignsOthers (n : Node) : Prop :=
  ∀ name init line, n = .letDecl name init line → ∀ value line' depth, ¬ init.Inside (.assign name value line' depth)

/-- If the visit is that of an assignment that has its value, and writes it to a frame, then it binds no new name. -/
def Visit.Overwrites (visit : Visit) : Prop :=
  ∀ f name value line depth, visit.activity = .evaluate f (.assign name value line depth) →
    ∀ fuel v m g, (Evaluator.ofFuel fuel).evaluate f value visit.machine = .ok v m →
      m.store.written? f name depth = some g → (m.store.bind g name v).binds = m.store.binds

/-- Where no `let` assigns to its own variable, assignments overwrite. -/
theorem Session.Sound.overwrites {closes : Prop} {rs : List Run} {w : World} {s : Session}
    (hs : s.Sound closes (programsOf rs) w) (hq : w.lent = [])
    (hothers : ∀ program ∈ programsOf rs, ∀ n ∈ program, n.Everywhere Node.AssignsOthers) {visit : Visit}
    (hv : visit ∈ w.visits) : visit.Overwrites := by
  intro f name value line depth hactivity fuel v m g hvalue hwritten
  have hassignment : visit.assignment? = some ⟨f, name, value, line, depth⟩ := by
    rw [Visit.assignment?, hactivity]
  have hends := hs.assignment_ends hv hassignment hvalue
  have hwrite : (Evaluator.ofFuel (fuel + 1)).evaluate f (.assign name value line depth) visit.machine =
      .ok v { m with store := m.store.bind g name v } := by
    rw [← writeName_of_written hwritten v line]
    show ((Evaluator.ofFuel fuel).evaluate f value >>= fun v => writeName f name v line depth) visit.machine = _
    rw [Exec.bind_apply, hvalue]
  rw [Assignment.node, hwrite] at hends
  cases hends with
  | overwritten _ _ _ hbinds => exact hbinds
  | early _ hstands hinside =>
    obtain ⟨program, hprogram, ns, hwithin⟩ := hstands
    exact absurd hinside ((hwithin.everywhere (hothers program hprogram) _ List.mem_cons_self).self _ _ _ rfl _ _ _)
  | withdrawn _ hlent => cases hq ▸ hlent

/-! ## Frames that are filled -/

/-- Between two machines frame `f` gets no names but the given ones, and the other frames that there are get none. If a
declaration of these names fails, and they differ, its name was bound in the frame before. -/
structure Fills (f : FrameId) (names : List String) (m : Machine) (fault : Option Fault) (m' : Machine) : Prop where
  frames : m.store.nextFrame ≤ m'.store.nextFrame
  binds : ∀ g < m.store.nextFrame, ∀ name, m'.store.binds name g = true →
    m.store.binds name g = true ∨ g = f ∧ name ∈ names
  redefined : ∀ line name, fault = some (.runtime line (.alreadyDefined name)) → names.Nodup →
    name ∈ names ∧ m.store.binds name f = true

namespace Fills

variable {f : FrameId} {names names' : List String} {m m₁ m' : Machine} {fault : Option Fault}

/-- Nothing is declared, and the frames that there are stay as they are. -/
theorem of_binds (hframes : m.store.nextFrame ≤ m'.store.nextFrame)
    (hbinds : ∀ g < m.store.nextFrame, ∀ name, m'.store.binds name g = m.store.binds name g) :
    Fills f [] m none m' :=
  ⟨hframes, fun g hg name h => .inl (hbinds g hg name ▸ h), nofun⟩

theorem of_store (h : m'.store = m.store) : Fills f [] m none m' :=
  .of_binds (Nat.le_of_eq (congrArg Store.nextFrame h.symm)) fun _ _ _ => by rw [h]

theorem trans (hf : f < m.store.nextFrame) (h : Fills f names m none m₁) (h' : Fills f names' m₁ fault m') :
    Fills f (names ++ names') m fault m' := by
  refine ⟨Nat.le_trans h.frames h'.frames, fun g hg name hb => ?_, fun line name hfault hnodup => ?_⟩
  · obtain hb | ⟨rfl, hname⟩ := h'.binds g (Nat.lt_of_lt_of_le hg h.frames) name hb
    · exact (h.binds g hg name hb).imp_right fun ⟨heq, hname⟩ => ⟨heq, List.mem_append_left _ hname⟩
    · exact .inr ⟨rfl, List.mem_append_right _ hname⟩
  · obtain ⟨-, hnodup', hdisjoint⟩ := List.nodup_append.mp hnodup
    obtain ⟨hname, hb⟩ := h'.redefined line name hfault hnodup'
    refine ⟨List.mem_append_right _ hname, (h.binds f hf name hb).resolve_right fun ⟨_, hfirst⟩ => ?_⟩
    exact hdisjoint name hfirst name hname rfl

theorem weaken (hsub : names.Sublist names') (h : Fills f names m fault m') : Fills f names' m fault m' :=
  ⟨h.frames, fun g hg name hb => (h.binds g hg name hb).imp_right fun ⟨heq, hname⟩ => ⟨heq, hsub.subset hname⟩,
    fun line name hfault hnodup =>
      (h.redefined line name hfault (hnodup.sublist hsub)).imp_left fun hname => hsub.subset hname⟩

/-- What fills a new frame with names that differ leaves the other frames alone, and it redefines nothing. -/
theorem of_new {parents : List FrameId} (hnodup : names.Nodup)
    (h : Fills m.store.nextFrame names { m with store := m.store.pushFrame parents [] } fault m') :
    Fills f [] m fault m' := by
  have hframes := h.frames
  rw [Store.nextFrame_pushFrame] at hframes
  refine ⟨Nat.le_of_succ_le hframes, fun g hg name hb => .inl ?_, fun line name hfault _ => ?_⟩
  · obtain hb | ⟨rfl, -⟩ := h.binds g (by rw [Store.nextFrame_pushFrame]; exact Nat.lt_succ_of_lt hg) name hb
    · rwa [Store.binds_pushFrame, if_neg (Nat.ne_of_lt hg)] at hb
    · exact absurd hg (Nat.lt_irrefl _)
  · obtain ⟨-, hb⟩ := h.redefined line name hfault hnodup
    rw [Store.binds_pushFrame, if_pos rfl] at hb
    cases hb

end Fills

theorem Store.frames_withMethods (s : Store) (f : FrameId) (methods : List Node) :
    (s.withMethods f methods).frames = s.frames := by
  induction methods generalizing s with
  | nil => rfl
  | cons n methods ih =>
    cases n with
    | function => exact ih _
    | _ => exact ih s

/-- As long as assignments overwrite, every computation fills its frame with what it declares. -/
theorem fills_accruesIn : AccruesIn Node.IsRegular fun f names visits m fault m' =>
    f < m.store.nextFrame → (∀ v ∈ visits, v.Overwrites) → Fills f names m fault m' where
  refl _ _ _ _ := .of_store rfl
  fault _ _ _ hfault _ _ :=
    ⟨Nat.le_refl _, fun _ _ _ hb => .inl hb, fun _ _ heq => by cases heq; exact absurd trivial hfault⟩
  trans h h' hf hv :=
    have hfirst := h hf (List.forall_mem_append.mp hv).1
    hfirst.trans hf (h' (Nat.lt_of_lt_of_le hf hfirst.frames) (List.forall_mem_append.mp hv).2)
  weaken hsub h hf hv := (h hf hv).weaken hsub
  visit _ _ _ _ _ _ := .of_store rfl
  surface _ _ _ hstore _ _ := .of_store hstore
  define f m name v _ hf _ := by
    refine ⟨Nat.le_of_eq (m.store.nextFrame_bind f name v).symm, fun g _ other hb => ?_, nofun⟩
    rw [Store.binds_bind _ hf, Bool.or_eq_true, decide_eq_true_eq] at hb
    exact hb.symm.imp_right fun ⟨heq, hname⟩ => ⟨heq, List.mem_singleton.mpr hname.symm⟩
  redefine f m name line hb _ _ :=
    ⟨Nat.le_refl _, fun _ _ _ hb => .inl hb, fun _ _ heq _ => by cases heq; exact ⟨List.mem_cons_self, hb⟩⟩
  closure _ _ _ _ _ _ := .of_binds (Nat.le_refl _) fun _ _ _ => rfl
  object _ _ _ _ _ := .of_binds (Nat.le_refl _) fun _ _ _ => rfl
  field _ _ _ _ _ _ _ := .of_binds (Nat.le_refl _) fun _ _ _ => rfl
  methods f m name methods line _ _ _ := by
    have hframes := m.store.frames_withMethods f methods
    refine .of_binds (Nat.le_of_eq (congrArg Array.size hframes).symm) fun g _ name => ?_
    rw [Store.binds, Store.frame, hframes]
    rfl
  bindMethod _ m c v _ _ := by
    have hpersists : m.store.Persists (fun _ _ => False) (boundStore m.store c v) := .bound m.store c v
    refine .of_binds hpersists.frames fun g hg name => ?_
    show (m.store.pushFrame _ _).binds name g = _
    rw [Store.binds_pushFrame, if_neg (Nat.ne_of_lt hg)]
  part hn hi h hf hv := by
    rw [hn.self.silent _ hi] at h
    exact h hf hv
  block f _ m _ _ _ _ hn h _ hv :=
    .of_new hn.self.distinct (h (by rw [Store.nextFrame_pushFrame]; exact Nat.lt_succ_self _) hv)
  invoke f _ m _ _ c hc h _ hv := by
    obtain ⟨line, hc⟩ := hc
    have hsilent : (m.store.closure c).body.declares? = none := hc.self.body _ _ _ _ rfl
    rw [hsilent, Option.toList_none, List.append_nil] at h
    exact .of_new hc.self.distinct (h (by rw [Machine.called, Store.nextFrame_pushFrame]; exact Nat.lt_succ_self _) hv)
  assign fuel f name value line depth m visits v m₁ g _ hvalue h hg hf hv := by
    obtain ⟨hassign, hvisits⟩ := List.forall_mem_cons.mp hv
    have hvalue' : (Evaluator.ofFuel fuel).evaluate f value m = .ok v m₁ := by
      rw [← (Traced.ofFuel_erases fuel).evaluate f value m, hvalue]
    have hbinds := hassign f name value line depth rfl fuel v m₁ g hvalue' hg
    have hwritten : Fills f [] m₁ none { m₁ with store := m₁.store.bind g name v } :=
      .of_binds (Nat.le_of_eq (m₁.store.nextFrame_bind g name v).symm) fun g' _ other =>
        congrFun (congrFun hbinds other) g'
    exact (h hf hvisits).trans hf hwritten

/-! ## Declarations -/

/-- The value that a declaration gives to its name. -/
def Evaluator.declared (e : Evaluator) (scope : FrameId) : Node → Exec Value
  | .letDecl _ initializer _ => e.evaluate scope initializer
  | .function name params body _ => do
    return .function name (← newClosure ⟨name, params, body, scope, false⟩)
  | .classDecl name methods _ => do
    return .classRef ⟨name, ← methodTable scope methods⟩
  | step => throw (.notAStep step.shape)

/-- A declaration has its value first, and then its name is defined. -/
theorem Evaluator.executeNode_declares (e : Evaluator) (scope : FrameId) {n : Node} {name : String}
    (h : n.declares? = some name) : ∃ line, e.executeNode scope n = (do
      let v ← e.declared scope n
      define scope name v line
      pure .proceed) := by
  cases n with
  | letDecl _ init line => cases h; exact ⟨line, rfl⟩
  | function _ params body line =>
    cases h
    refine ⟨line, ?_⟩
    simp only [executeNode, declareFunction, declared, bind_assoc, pure_bind]
  | classDecl _ methods line =>
    cases h
    refine ⟨line, ?_⟩
    simp only [executeNode, declareClass, declared, bind_assoc, pure_bind]
  | _ => cases h

/-- The declarations at the top level come to one whose name is bound in the global frame when it has its value. -/
def Redefines (fuel : Nat) (steps : List Node) (m : Machine) (line : Line) (name : String) (m' : Machine) : Prop :=
  ∃ before step after k m₁ v, fuel = k + 1 ∧ steps = before ++ step :: after ∧ step.declares? = some name ∧
    Exec.program fuel before m = .ok .proceed m₁ ∧ (Evaluator.ofFuel k).declared Store.root step m₁ = .ok v m' ∧
    define Store.root name v line m' = .error (.runtime line (.alreadyDefined name)) m'

section Runs

variable {m m' : Machine} (hm : m.From Node.IsRegular)
include hm

/-- No declaration inside the initializer of a `let` fails. -/
theorem initializer_fault {k : Nat} {f : FrameId} (hf : f < m.store.nextFrame) {name : String} {init : Node}
    {line : Line} (hn : (Node.letDecl name init line).Everywhere Node.IsRegular)
    (hover : ∀ v ∈ ((Traced.ofFuel (k + 1)).execute f (.letDecl name init line) m).1, v.Overwrites) {fault : Fault}
    (h : (Evaluator.ofFuel k).evaluate f init m = .error fault m') : ¬ fault.IsRedefinition := by
  have hinit := ((fills_accruesIn.ofFuel k).2 f (hn.child List.mem_cons_self) m hm).2.2
  rw [← (Traced.ofFuel_erases k).evaluate f init m] at h
  rcases hx : (Traced.ofFuel k).evaluate f init m with ⟨visits, result⟩
  rw [hx] at h hinit
  obtain rfl : result = .error fault m' := h
  have hvisits : ((Traced.ofFuel (k + 1)).execute f (.letDecl name init line) m).1 =
      [⟨.execute f (.letDecl name init line), m⟩] ++ visits := by
    show ((Traced.note _ >>= fun _ => (Traced.ofFuel k).evaluate f init >>= _) m).1 = _
    rw [Traced.bind_apply]
    dsimp only [Traced.note]
    rw [Traced.bind_apply, hx]
  rw [hvisits] at hover
  have hfills := hinit hf (List.forall_mem_append.mp hover).2
  intro hredefinition
  cases fault with
  | runtime line cause =>
    cases cause with
    | alreadyDefined name => exact absurd (hfills.redefined line name rfl .nil).1 List.not_mem_nil
    | _ => exact hredefinition
  | _ => exact hredefinition

/-- A declaration that fails because of its name has its value by then. -/
theorem declared_of_redefinition {k : Nat} (hroot : Store.root < m.store.nextFrame) {n : Node} {name : String}
    (hd : n.declares? = some name) (hn : n.Everywhere Node.IsRegular)
    (hover : ∀ v ∈ ((Traced.ofFuel (k + 1)).execute Store.root n m).1, v.Overwrites) {line : Line} {name' : String}
    (h : (Evaluator.ofFuel (k + 1)).execute Store.root n m = .error (.runtime line (.alreadyDefined name')) m') :
    ∃ v, (Evaluator.ofFuel k).declared Store.root n m = .ok v m' ∧
      define Store.root name v line m' = .error (.runtime line (.alreadyDefined name')) m' := by
  obtain ⟨line', hexecute⟩ := (Evaluator.ofFuel k).executeNode_declares Store.root hd
  have hx : (Evaluator.ofFuel k).executeNode Store.root n m = .error (.runtime line (.alreadyDefined name')) m' := h
  rw [hexecute, Exec.bind_apply] at hx
  cases hv : (Evaluator.ofFuel k).declared Store.root n m with
  | ok v m₁ =>
    rw [hv] at hx
    dsimp only at hx
    rw [Exec.bind_apply, define_apply] at hx
    refine ⟨v, ?_⟩
    by_cases hb : m₁.store.binds name Store.root = true
    · rw [if_pos hb] at hx
      cases hx
      exact ⟨rfl, by rw [define_apply, if_pos hb]⟩
    · rw [if_neg hb] at hx
      cases hx
  | error fault m₁ =>
    rw [hv] at hx
    cases hx
    cases n with
    | letDecl => exact absurd trivial (initializer_fault hm hroot hn hover hv)
    | function => cases hv
    | classDecl _ methods =>
      obtain ⟨table, htable⟩ := methodTable_apply Store.root methods m
      rw [Evaluator.declared, Exec.bind_apply, htable] at hv
      cases hv
    | _ => cases hd

/-- If a declaration fails because of its name, it is one of those at the top level. -/
theorem redefines_of_program {fuel : Nat} {steps : List Node} (hroot : Store.root < m.store.nextFrame)
    (hn : ∀ n ∈ steps, n.Everywhere Node.IsRegular) (hover : ∀ v ∈ (Traced.program fuel steps m).1, v.Overwrites)
    {line : Line} {name : String}
    (hrun : Exec.program fuel steps m = .error (.runtime line (.alreadyDefined name)) m') :
    Redefines fuel steps m line name m' := by
  -- on the steps: the first one proceeds, and the fault is that of a later one, or it is the one that fails
  induction steps generalizing m with
  | nil => cases hrun
  | cons n ns ih =>
    obtain ⟨hfrom, -, hfills⟩ :=
      (fills_accruesIn.ofFuel fuel).1 Store.root (hn n List.mem_cons_self) m hm
    have herases := (Traced.ofFuel_erases fuel).execute Store.root n m
    rw [Traced.program, Traced.executeAll, Traced.bind_apply] at hover
    rw [Exec.program, Evaluator.executeAll, Exec.bind_apply] at hrun
    rcases hx : (Traced.ofFuel fuel).execute Store.root n m with ⟨visits, ⟨signal, m₁⟩ | ⟨fault, m₁⟩⟩
    · rw [hx] at hfrom hfills herases hover
      rw [← herases] at hrun
      cases signal with
      | proceed =>
        obtain ⟨hvisits, hrest⟩ := List.forall_mem_append.mp hover
        have hroot₁ := Nat.lt_of_lt_of_le hroot (hfills hroot hvisits).frames
        obtain ⟨before, step, after, k, m₂, v, hk, rfl, hd, hbefore, hdefine⟩ :=
          ih hfrom hroot₁ (fun m hm => hn m (List.mem_cons_of_mem _ hm)) hrest hrun
        refine ⟨n :: before, step, after, k, m₂, v, hk, rfl, hd, ?_, hdefine⟩
        rw [Exec.program, Evaluator.executeAll, Exec.bind_apply, ← herases]
        exact hbefore
      | _ => cases hrun
    · rw [hx] at hfills herases hover
      rw [← herases] at hrun
      cases hrun
      cases fuel with
      | zero => cases herases
      | succ k =>
        have hname := ((hfills hroot hover).redefined line name rfl (by cases n.declares? <;> simp)).1
        have hd : n.declares? = some name := Option.mem_toList.mp hname
        have hvisits : ∀ v ∈ ((Traced.ofFuel (k + 1)).execute Store.root n m).1, v.Overwrites := by
          rw [hx]
          exact hover
        obtain ⟨v, hdefine⟩ :=
          declared_of_redefinition hm hroot hd (hn n List.mem_cons_self) hvisits herases.symm
        exact ⟨[], n, ns, k, m, v, rfl, rfl, hd, rfl, hdefine⟩

end Runs

/-! ## Sessions -/

theorem Session.history_append (s : Session) (rs rs' : List Run) :
    s.history (rs ++ rs') = s.history rs ++ (s.afterAll rs).history rs' := by
  induction rs generalizing s with
  | nil => rfl
  | cons r rs ih =>
    rw [List.cons_append, history, history, ih, List.append_assoc]
    rfl

/-- A run in which the name of a declaration, of a parameter or of a receiver is bound already ends with that fault, as
nothing catches it. Where no `let` assigns to its own variable, this comes about at the top level only, and only if the
name was bound in the global frame before the run began; the declaration that fails leaves the machine as it is. -/
theorem Session.only_globals_redefined (e : Surroundings) (rs : List Run) (r : Run)
    (hothers : ∀ program ∈ programsOf (rs ++ [r]), ∀ n ∈ program, n.Everywhere Node.AssignsOthers)
    {steps : List Node} (hc : checked? r.source = some steps) {line : Line} {name : String} {m' : Machine}
    (hrun : Exec.program r.fuel steps (((start e).afterAll rs).parsed r.source).machine =
      .error (.runtime line (.alreadyDefined name)) m') :
    ((start e).afterAll rs).machine.store.binds name Store.root = true ∧
      Redefines r.fuel steps (((start e).afterAll rs).parsed r.source).machine line name m' := by
  obtain ⟨w, hw, hq, hs⟩ := runs_sound e (rs ++ [r])
  -- the visits of the run are among those of the session that ends with it
  have hover : ∀ v ∈ (Traced.program r.fuel steps (((start e).afterAll rs).parsed r.source).machine).1,
      v.Overwrites := fun v hv => by
    refine hs.overwrites hq hothers ?_
    rw [hw, history_append]
    refine List.mem_append_right _ (List.mem_append_left _ ?_)
    rwa [visits, hc]
  obtain ⟨hfrom, -, hretains⟩ := visited_retains (start_from e) (rs.map .run)
  rw [meetAll_runs] at hfrom hretains
  have hstore := parsed_store ((start e).afterAll_host rs) ((start e).afterAll_lent rfl rfl rs) r.source
  generalize (((start e).afterAll rs).parsed r.source).machine = m at *
  replace hfrom : m.From Node.IsRegular := hfrom.of_closures (congrArg Store.closures hstore)
  have hroot : Store.root < m.store.nextFrame := by
    rw [hstore]
    exact Nat.lt_of_lt_of_le Nat.one_pos hretains.ends.frames
  have hfills := (fills_accruesIn.program r.fuel (checked?_regular hc) m hfrom).2.2 hroot hover
  rw [Traced.program_erases, hrun] at hfills
  refine ⟨?_, redefines_of_program hfrom hroot (checked?_regular hc) hover hrun⟩
  rw [← hstore]
  exact (hfills.redefined line name rfl (checked?_distinct hc)).2

/-- A text that declares a name, and one that declares it in a block and again at the top level. -/
def firstText : String := "let x = nil;"

def secondText : String := "\x7b let x = nil; \x7d let x = nil;"

/-- In the second run the declaration of the block takes place, and the one at the top level fails. -/
theorem Session.second_declaration_fails : ∃ steps line m', checked? secondText = some steps ∧
    (∀ program ∈ programsOf [⟨9, firstText⟩, ⟨9, secondText⟩], ∀ n ∈ program, n.Everywhere Node.AssignsOthers) ∧
    Exec.program 9 steps (((start {}).afterAll [⟨9, firstText⟩]).parsed secondText).machine =
      .error (.runtime line (.alreadyDefined "x")) m' ∧
    ((start {}).afterAll [⟨9, firstText⟩]).machine.store.binds "x" Store.root = true ∧
    Redefines 9 steps (((start {}).afterAll [⟨9, firstText⟩]).parsed secondText).machine
      line "x" m' := by
  have hlet : (Node.letDecl "x" (.literal .nil 1) 1).Everywhere Node.AssignsOthers := by
    refine .one (fun _ _ _ heq _ _ _ hinside => ?_) rfl (.leaf nofun rfl)
    cases heq
    obtain heq | ⟨_, hpart, -⟩ := hinside.cases_head
    · cases heq
    · cases hpart
  have hblock : (Node.block [.letDecl "x" (.literal .nil 1) 1] 1).Everywhere Node.AssignsOthers :=
    .one nofun rfl hlet
  have hc : checked? secondText =
      some [.block [.letDecl "x" (.literal .nil 1) 1] 1, .letDecl "x" (.literal .nil 1) 1] := by cbv
  have hprograms : programsOf [⟨9, firstText⟩, ⟨9, secondText⟩] = [[.letDecl "x" (.literal .nil 1) 1],
      [.block [.letDecl "x" (.literal .nil 1) 1] 1, .letDecl "x" (.literal .nil 1) 1]] := by cbv
  have hothers : ∀ program ∈ programsOf [⟨9, firstText⟩, ⟨9, secondText⟩], ∀ n ∈ program,
      n.Everywhere Node.AssignsOthers := by
    rw [hprograms]
    simp only [List.forall_mem_cons, List.not_mem_nil, false_implies, implies_true, and_true]
    exact ⟨hlet, hblock, hlet⟩
  have hfails : faultOf? (Exec.program 9
      [.block [.letDecl "x" (.literal .nil 1) 1] 1, .letDecl "x" (.literal .nil 1) 1]
      (((start {}).afterAll [⟨9, firstText⟩]).parsed secondText).machine) =
    some (.runtime 1 (.alreadyDefined "x")) := by cbv
  have hrun := eq_error_of_faultOf? hfails
  obtain ⟨hbound, hredefines⟩ :=
    only_globals_redefined {} [⟨9, firstText⟩] ⟨9, secondText⟩ hothers hc hrun
  exact ⟨_, 1, _, hc, hothers, hrun, hbound, hredefines⟩

end LoxLang
