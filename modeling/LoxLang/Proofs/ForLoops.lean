import LoxLang.Proofs.Closed
import LoxLang.Proofs.ForStatements

/-!
# For loops

The tree of a `for` statement does what the loop does when it is run directly (`for_loops_run_directly`): from every
closed machine both end or neither does, with the same signal or the same fault, and on machines that differ in the
spare frames of the tree only (`Machine.Matched`). So it is wherever a session without a host executes such a tree
(`Session.executed_loops_run_directly`).
-/

namespace LoxLang

open Grammar Exec Evaluator

/-! ## Ends -/

namespace Exec

variable {α : Type}

/-- With enough fuel the computation ends like this. -/
def Ends (x : Nat → Exec α) (m : Machine) (r : EStateM.Result Fault Machine α) : Prop :=
  ∃ fuel, x fuel m = r ∧ ∀ m', r ≠ .error .outOfFuel m'

end Exec

/-- Two machines that were left by runs from the same one: they are the same apart from the store. The frames that there
were before are the same in both, and none of the new ones is around them. All others that the second store has, the
first one has as well, and spare ones besides. -/
structure Machine.Matched (m m₁ m₁' : Machine) : Prop where
  rest : m₁' = m₁.withStore m₁'.store
  frames : ∀ f < m.store.nextFrame, m₁'.store.frame f = m₁.store.frame f
  outside : ∀ f < m.store.nextFrame, m₁.store.chain f = m.store.chain f
  stores : ∃ w, m.store.itself ≤ w ∧ StoresPaired w m₁.store m₁'.store

/-- The same signal or the same fault, on machines that match. -/
inductive Exec.EndsMatched (m : Machine) :
    EStateM.Result Fault Machine Signal → EStateM.Result Fault Machine Signal → Prop
  | ok {signal m₁ m₁'} : m.Matched m₁ m₁' → EndsMatched m (.ok signal m₁) (.ok signal m₁')
  | error {fault m₁ m₁'} : m.Matched m₁ m₁' → EndsMatched m (.error fault m₁) (.error fault m₁')

/-- Whenever one of the computations ends, the other one does too, and the ends match. -/
structure Exec.EndAlike (m : Machine) (x y : Nat → Exec Signal) : Prop where
  left : ∀ r, Ends x m r → ∃ r', Ends y m r' ∧ EndsMatched m r r'
  right : ∀ r', Ends y m r' → ∃ r, Ends x m r ∧ EndsMatched m r r'

theorem Exec.EndsMatched.not_givenUp {m : Machine} {r r' : EStateM.Result Fault Machine Signal} (h : EndsMatched m r r')
    (hr : ∀ m', r ≠ .error .outOfFuel m') : ∀ m', r' ≠ .error .outOfFuel m' := by
  rintro m' rfl
  cases h
  exact hr _ rfl

/-! ## Frames that were there before -/

/-- No computation takes a frame away, or puts another frame around it. -/
theorem grows_accrues : Accrues fun _ m m' => m.store.Grows m'.store where
  refl m := .refl m.store
  trans := .trans
  visit _ m := .refl m.store
  frame m parents bindings := .pushFrame m.store parents bindings
  define m f name v _ := .bind m.store f name v
  heap _ _ hframes := .of_frames hframes
  emit m _ := .refl m.store
  tick m := .refl m.store
  ask m _ _ _ _ := .refl m.store
  log m _ := .refl m.store
  enter m _ := .refl m.store
  leave m := .refl m.store
  assign _ _ name _ _ _ _ _ v m₁ g _ h _ := h.trans (.bind m₁.store g name v)

theorem Evaluator.execute_grows (fuel : Nat) (f : FrameId) (n : Node) (m : Machine) :
    m.store.Grows (machineLeft ((ofFuel fuel).execute f n m)).store := by
  rw [← (Traced.ofFuel_erases fuel).execute f n m]
  exact (grows_accrues.hereditary.ofFuel (.still grows_accrues fun _ => rfl) fuel).1 f n m

/-- Frames that belong to themselves are around the same on both sides. -/
theorem StoresPaired.chained_eq {w : Pairing} {s s' : Store} (h : StoresPaired w s s') {p : Pattern}
    {fs gs : List FrameId} (hc : w.Chained p fs gs) (hp : p.Whole) (hf : ∀ f ∈ fs, ∃ q, w.Paired q f f) : gs = fs := by
  induction hc with
  | nil => rfl
  | shared hfg _ ih =>
    obtain ⟨⟨q, hself⟩, hfs⟩ := List.forall_mem_cons.mp hf
    rw [h.partner_unique hself hfg, ih (List.forall_mem_cons.mp hp).2 hfs]
  | spare => cases (List.forall_mem_cons.mp hp).1

/-- Machines that are beside each other after a run from a closed machine match. -/
theorem Machine.Closed.matched {m m₁ : Machine} {s₁' : Store} {w : Pairing} (hm : m.Closed) (hw : m.store.itself ≤ w)
    (h : Beside w m₁ s₁') (hgrows : m.store.Grows m₁.store) : m.Matched m₁ (m₁.withStore s₁') := by
  refine ⟨rfl, fun f hf => ?_, hgrows.chain, w, hw, h.stores⟩
  have hself : ∀ g < m.store.nextFrame, w.Paired (m.store.around g) g g := fun g hg => (Store.paired_itself hg).mono hw
  have hframe := h.stores.frames _ f f (hself f hf)
  have hchain : s₁'.chain f = m₁.store.chain f :=
    h.stores.chained_eq hframe.chain (Pattern.whole_replicate _) fun g hg => by
      rw [hgrows.chain f hf] at hg
      exact ⟨_, hself g (hm.store.parents f hf g hg)⟩
  have hparents : (s₁'.frame f).parents = (m₁.store.frame f).parents := (List.cons.inj hchain).2
  calc s₁'.frame f = ⟨(s₁'.frame f).parents, (s₁'.frame f).bindings⟩ := rfl
    _ = m₁.store.frame f := by rw [hparents, hframe.bindings]

/-- A run from a closed machine beside one in the same store: both are given up, or the ends match. -/
theorem Together.endsMatched {m : Machine} {x y : Exec Signal} (hm : m.Closed)
    (h : Together m.store.itself m m.store x y Pairing.SignalsAgree)
    (hgrows : m.store.Grows (machineLeft (x m)).store) :
    EndsMatched m (x m) (y m) := by
  cases h with
  | ok hx hy hw h hsignal =>
    obtain ⟨rfl, -⟩ := hsignal
    rw [hx] at hgrows
    rw [hx, show y m = _ from hy]
    exact .ok (hm.matched hw h hgrows)
  | error hx hy hw h =>
    rw [hx] at hgrows
    rw [hx, show y m = _ from hy]
    exact .error (hm.matched hw h hgrows)

/-- If the second one is not given up, the first one is not either. -/
theorem Together.not_givenUp {m : Machine} {x y : Exec Signal} {w : Pairing} {s' : Store}
    {R : Pairing → Signal → Signal → Prop}
    (h : Together w m s' x y R) (hy : ∀ m', y (m.withStore s') ≠ .error .outOfFuel m') :
    ∀ m', x m ≠ .error .outOfFuel m' := by
  intro m' hgiven
  cases h with
  | ok hx =>
    rw [hx] at hgiven
    cases hgiven
  | error hx hy' =>
    rw [hx] at hgiven
    cases hgiven
    exact hy _ hy'

/-! ## The tree and the loop -/

section Loop

variable {loop direct : ForLoop} {m : Machine} {f : FrameId} (hm : m.Closed) (hf : f < m.store.nextFrame)
  (hs : loop.Skewed (m.store.around f) direct)
include hm hf hs

/-- On the same fuel the loop with a frame more for each round and the loop without them end alike. -/
theorem ForLoop.Skewed.executeApart (fuel bound : Nat) :
    Together m.store.itself m m.store ((ofFuel fuel).executeApart f loop bound)
      ((ofFuel fuel).executeFor f direct bound)
      Pairing.SignalsAgree :=
  (ofFuel_parallel fuel).executeApart hm.beside hs (.paired (Store.paired_itself hf)) bound

/-- The tree and the loop end alike: what the one needs of fuel is enough for the other, or half of it is. -/
theorem ForLoop.Skewed.endAlike (hl : loop.Proper) (line : Line) :
    EndAlike m (fun fuel => (ofFuel fuel).execute f (loop.desugared line))
      fun fuel => (ofFuel fuel).executeFor f direct fuel where
  left := by
    rintro _ ⟨fuel, rfl, hr⟩
    have hsame : (ofFuel fuel).execute f (loop.desugared line) m = (ofFuel fuel).executeApart f loop fuel m :=
      (desugared_settles line f hl fuel m).resolve_left fun ⟨m', hgiven⟩ => hr m' hgiven
    have hgrows := execute_grows fuel f (loop.desugared line) m
    rw [hsame] at hgrows
    have hends := (hs.executeApart hm hf fuel fuel).endsMatched hm hgrows
    rw [← hsame] at hends
    exact ⟨_, ⟨fuel, rfl, hends.not_givenUp hr⟩, hends⟩
  right := by
    rintro _ ⟨fuel, rfl, hr⟩
    have htogether := hs.executeApart hm hf fuel fuel
    have hnot := htogether.not_givenUp hr
    have hsame :
        (ofFuel fuel).executeApart f loop fuel m = (ofFuel (fuel + fuel + 3)).execute f (loop.desugared line) m :=
      (settles_desugared line f hl (Nat.lt_succ_self _) m).resolve_left fun ⟨m', hgiven⟩ => hnot m' hgiven
    have hgrows := execute_grows (fuel + fuel + 3) f (loop.desugared line) m
    rw [← hsame] at hgrows
    exact ⟨_, ⟨_, hsame.symm, hnot⟩, htogether.endsMatched hm hgrows⟩

end Loop

/-- Where resolution accepts the tree of a loop, it accepts the loop by itself; and from every machine that admits the
resolved tree the resolved loop ends alike. -/
theorem ForLoop.Formed.runs_directly {loop : ForLoop} (hl : loop.Formed) {inClass : Bool} {line : Line}
    {scopes scopes' : Scopes} {n : Node}
    (hn : ((loop.desugared line).resolve inClass).run scopes = .ok (n, scopes')) :
    ∃ direct, (loop.resolve inClass).run scopes = .ok (direct, scopes') ∧
      ∀ (m : Machine) (f : FrameId), m.Admits f scopes →
        EndAlike m (fun fuel => (ofFuel fuel).execute f n) fun fuel => (ofFuel fuel).executeFor f direct fuel := by
  have halong : ∀ {k : Nat}, scopes.length ≤ k → ∃ direct, ∃ resolved : ForLoop,
      n = resolved.desugared line ∧ resolved.Proper ∧
      resolved.Skewed (List.replicate k true) direct ∧ (loop.resolve inClass).run scopes = .ok (direct, scopes') := by
    intro k hk
    obtain ⟨direct, t', hdirect, ⟨resolved, htree, hproper, hskewed⟩, rfl, rfl⟩ :=
      hl.resolve_along inClass line (.same hk) _ _ ⟨rfl, rfl⟩ n scopes' hn
    exact ⟨direct, resolved, htree, hproper, hskewed, hdirect⟩
  obtain ⟨direct, -, -, -, -, hdirect⟩ := halong (Nat.le_refl _)
  refine ⟨direct, hdirect, fun m f hm => ?_⟩
  obtain ⟨direct', resolved, rfl, hproper, hskewed, hdirect'⟩ := halong hm.depth
  cases hdirect.symm.trans hdirect'
  exact hskewed.endAlike hm.closed hm.frame hproper line

/-- Wherever a session without a host executes the tree of a loop, the loop as it is resolved there ends alike. -/
theorem Session.executed_loops_run_directly (e : Surroundings) (rs : List Run) {f : FrameId}
    {loop : ForLoop} {line : Line}
    {m : Machine} (hl : loop.Formed) (hv : ⟨.execute f (loop.desugared line), m⟩ ∈ (start e).history rs) :
    ∃ layers direct, Stands (programsOf rs) layers (loop.desugared line) ∧
      (loop.resolve true).run (scopesOf layers) = .ok (direct, scopesOf layers) ∧
      EndAlike m (fun fuel => (ofFuel fuel).execute f (loop.desugared line))
        fun fuel => (ofFuel fuel).executeFor f direct fuel := by
  obtain ⟨layers, hstands, hadmits, hitself⟩ := step_admitted e rs hv
  obtain ⟨direct, hdirect, halike⟩ := hl.runs_directly hitself
  exact ⟨layers, direct, hstands, hdirect, halike m f hadmits⟩

/-- Whatever the parser reads without a fault from the keyword `for` on, is the tree of a loop. Where resolution accepts
this tree, it accepts the loop by itself; and from every machine that admits the resolved tree, as those of a session do
(`Session.step_admitted`, `Session.executed_loops_run_directly`), the resolved loop ends alike. -/
theorem for_loops_run_directly {source : String} {t : Token} {rest : List Token}
    (hrest : t :: rest <:+: (Scan.of source).tokens) (ht : t.kind = .forWord) {bound : Nat} {e : Line}
    {caught : List Diagnostic} {tree : Node} {after : ParseState}
    (hread : Parser.step bound e ⟨t :: rest, caught⟩ = .ok tree after) (hclean : tree.diagnostics = []) :
    ∃ ts loop, rest = ts ++ after.rest ∧ ForLoop.Derived ts loop ∧ tree = loop.desugared t.line ∧
      ∀ inClass scopes n scopes', (tree.resolve inClass).run scopes = .ok (n, scopes') →
        ∃ direct, (loop.resolve inClass).run scopes = .ok (direct, scopes') ∧
          ∀ (m : Machine) (f : FrameId), m.Admits f scopes →
            EndAlike m (fun fuel => (ofFuel fuel).execute f n) fun fuel => (ofFuel fuel).executeFor f direct fuel := by
  have hreads := Parser.step_reads bound e ⟨t :: rest, caught⟩
  rw [hread] at hreads
  obtain ⟨taken, htaken, hsound⟩ := hreads
  have hderives : Derives .declaration taken tree := hsound hclean
  obtain ⟨u, ts, rfl, -⟩ := hderives.first
  obtain ⟨rfl, rfl⟩ := List.cons.inj htaken
  obtain ⟨loop, hloop, rfl⟩ := (derives_for_iff ht).mp hderives
  refine ⟨ts, loop, rfl, hloop, rfl,
    fun inClass scopes n scopes' hn => ForLoop.Formed.runs_directly (hloop.formed ?_) hn⟩
  exact fun u hu => Scan.plain_of_mem (hrest.subset (List.mem_cons_of_mem _ (List.mem_append_left _ hu)))

/-- A text with one round, in which a function closes over the variable of the loop. -/
def roundText : String := "for (let i = nil; !i; i = true) \x7b fun f() \x7b return i; \x7d print f(); \x7d"

/-- The loop of the text. -/
def roundLoop : ForLoop where
  initializer := some (.letDecl "i" (.literal .nil 1) 1)
  condition := some (.unary .not (.var "i" 1 none) 1)
  increment := some (.assign "i" (.literal (.bool true) 1) 1 none)
  body := .block [.function "f" [] (.block [.returnStep (.var "i" 1 none) 1] 1) 1,
    .print (.call (.var "f" 1 none) [] 1) 1] 1

/-- The loop as it is resolved inside the tree, where the block around the round counts. -/
def roundResolved : ForLoop where
  initializer := some (.letDecl "i" (.literal .nil 1) 1)
  condition := some (.unary .not (.var "i" 1 (some 0)) 1)
  increment := some (.assign "i" (.literal (.bool true) 1) 1 (some 1))
  body := .block [.function "f" [] (.block [.returnStep (.var "i" 1 (some 4)) 1] 1) 1,
    .print (.call (.var "f" 1 (some 0)) [] 1) 1] 1

set_option maxRecDepth 2000 in
theorem roundText_runs_directly :
    ∃ loop direct m₁ m₁', roundLoop.desugared 1 = ForLoop.desugared loop 1 ∧
      (loop.resolve false).run Scopes.initial = .ok (direct, Scopes.initial) ∧
      Ends (fun fuel => (ofFuel fuel).execute Store.root (roundResolved.desugared 1))
        (Session.start {}).machine (.ok .proceed m₁) ∧
      Ends (fun fuel => (ofFuel fuel).executeFor Store.root direct fuel)
        (Session.start {}).machine (.ok .proceed m₁') ∧
      (Session.start {}).machine.Matched m₁ m₁' ∧ m₁'.printed = ["nil"] := by
  have hstart : (Scan.of roundText).tokens.head?.map (fun t => (t.kind, t.line)) = some (.forWord, 1) := by cbv
  have hread :
      Parser.step 30 1 ⟨(Scan.of roundText).tokens, []⟩ = .ok (roundLoop.desugared 1) ⟨[.atEnd 1], []⟩ := by cbv
  have hrun : answer? ((ofFuel 12).execute Store.root (roundResolved.desugared 1)
      (Session.start {}).machine) = some .proceed := by cbv
  have hprinted : (machineLeft ((ofFuel 12).execute Store.root (roundResolved.desugared 1)
      (Session.start {}).machine)).printed = ["nil"] := by cbv
  replace hrun := eq_ok_of_answer? hrun
  generalize machineLeft _ = m₁ at hrun hprinted
  cases htokens : (Scan.of roundText).tokens with
  | nil =>
    rw [htokens] at hstart
    cases hstart
  | cons t rest =>
    rw [htokens] at hstart hread
    obtain ⟨hkind, hline⟩ := Prod.mk.inj (Option.some.inj hstart)
    have hinfix : t :: rest <:+: (Scan.of roundText).tokens := by rw [htokens]
    obtain ⟨ts, loop, -, -, htree, hall⟩ := for_loops_run_directly hinfix hkind hread rfl
    obtain ⟨direct, hdirect, halike⟩ := hall false Scopes.initial (roundResolved.desugared 1) Scopes.initial rfl
    have hends : Ends (fun fuel => (ofFuel fuel).execute Store.root (roundResolved.desugared 1))
        (Session.start {}).machine (.ok .proceed m₁) := ⟨12, hrun, fun _ h => by cases h⟩
    obtain ⟨r', hr', hmatched⟩ := (halike _ _ (Session.start_admits _)).left _ hends
    cases hmatched with
    | @ok _ _ m₁' hm₁' =>
      rw [hline] at htree
      refine ⟨loop, direct, m₁, m₁', htree, hdirect, hends, hr', hm₁', ?_⟩
      rw [hm₁'.rest]
      exact hprinted

end LoxLang
