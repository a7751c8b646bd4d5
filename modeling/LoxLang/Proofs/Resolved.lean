import LoxLang.Proofs.Regular

/-!
# Resolved trees resolve to themselves

Where a tree stands in a program that is its own twin, resolution accepts it and finds the depths that it has already
(`TwinStep.resolves_itself`). So the scopes around an executed step are scopes in which resolution accepts the step.
-/

namespace LoxLang

/-! ## What a resolution gives -/

namespace Resolve

variable {α β : Type} {s s' s'' : Scopes}

/-- The computation succeeds with this result, and leaves these scopes. -/
def Gives (x : Resolve α) (s : Scopes) (a : α) (s' : Scopes) : Prop := x.run s = .ok (a, s')

namespace Gives

variable {x : Resolve α} {f : α → Resolve β} {a : α} {b : β}

theorem pure (a : α) (s : Scopes) : Gives (Pure.pure a) s a s := rfl

theorem bind (hx : Gives x s a s') (hf : Gives (f a) s' b s'') : Gives (x >>= f) s b s'' := by
  unfold Gives at *
  rw [run_bind, hx]
  exact hf

theorem inScope (hx : Gives x s.enter a s') : Gives (inScope x) s a s'.leave := by
  unfold Gives at *
  rw [run_inScope, hx]

theorem define (name : String) : Gives (define name) s () (s.mark name true) := run_define s name

theorem declare {name : String} (h : s.innermost.contains name = false) (line : Line) :
    Gives (declare name line) s () (s.mark name false) := by
  unfold Gives
  rw [run_declare, h]
  rfl

theorem checkReady {name : String} (h : s.isPending name = false) (line : Line) :
    Gives (checkReady name line) s () s := by
  unfold Gives
  rw [run_checkReady, h]
  rfl

theorem depthOf (name : String) : Gives (depthOf name) s (s.depthOf? name) s := run_depthOf s name

/-- A name that is declared and at once defined is ready behind that. -/
theorem declareReady {layers : List Layer} {name : String} (h : Vacant layers name) (line : Line)
    (hx : Gives x (scopesOf (mark layers name true)) a s') :
    Gives (do Resolve.declare name line; Resolve.define name; x) (scopesOf layers) a s' := by
  refine .bind (.declare h.unheld line) (.bind (.define name) ?_)
  rw [← scopesOf_mark, ← scopesOf_mark, mark_mark]
  exact hx

theorem declareParameters (line : Line) {params : List String} (hn : params.Nodup) (names : Scope) (outer : Scopes)
    (hfresh : ∀ p ∈ params, names.contains p = false) :
    Gives (params.forM (declareParameter line)) (names :: outer) ()
      (params.foldl (fun names p => names.set p true) names :: outer) := by
  induction params generalizing names with
  | nil => exact pure () _
  | cons p params ih =>
    obtain ⟨hp, hn⟩ := List.nodup_cons.mp hn
    have hdeclare : Gives (declareParameter line p) (names :: outer) () (names.set p true :: outer) := by
      have hnew : (Scopes.innermost (names :: outer)).contains p = false := hfresh p List.mem_cons_self
      have hboth : Gives (declareParameter line p) (names :: outer) () _ := .bind (.declare hnew line) (.define p)
      rwa [Scopes.mark, Scopes.mark, Table.set_set] at hboth
    refine .bind hdeclare (ih hn (names.set p true) fun q hq => ?_)
    rw [Table.contains_set, hfresh q (List.mem_cons_of_mem p hq), Bool.or_false]
    exact decide_eq_false fun heq => hp (heq ▸ hq)

end Gives

end Resolve

open Resolve

/-! ## Expressions -/

/-- A use that is ready where it is resolved is not on the way. -/
theorem ReadsAlike.not_pending {searches : Prop} {layers : List Layer} {name : String} {d d' : Depth}
    (h : ReadsAlike searches layers name d d') : (scopesOf layers).isPending name = false := by
  cases layers with
  | nil => rfl
  | cons layer outer =>
    refine beq_eq_false_iff_ne.mpr fun hpending => ?_
    have hdepth : (scopesOf (layer :: outer)).depthOf? name = some 0 := by
      have hcontains : layer.names.contains name = true := Table.contains_iff.mpr ⟨false, hpending⟩
      simp [Scopes.depthOf?, List.findIdx?_cons, hcontains]
    obtain ⟨_, hlayer, hready⟩ := h.ready 0 (h.resolved.trans hdepth)
    cases hlayer
    cases hpending.symm.trans hready

mutual

/-- A resolved expression resolves to itself, and leaves the scopes alone. -/
theorem Twin.resolves_itself {K : Kinship} {layers : List Layer} : ∀ {n n' : Node}, Twin K layers n n' →
    (n.resolve true).Gives (scopesOf layers) n (scopesOf layers)
  | _, _, .literal _ _ => .pure _ _
  | _, _, .grouping _ hn => .bind hn.resolves_itself (.pure _ _)
  | _, _, .unary _ hn => .bind hn.resolves_itself (.pure _ _)
  | _, _, .binary _ ha hb => .bind ha.resolves_itself (.bind hb.resolves_itself (.pure _ _))
  | _, _, .logical _ ha hb => .bind ha.resolves_itself (.bind hb.resolves_itself (.pure _ _))
  | _, _, .var _ hd => .bind (.checkReady hd.not_pending _) (.bind (.depthOf _) (hd.resolved ▸ .pure _ _))
  | _, _, .this _ hd => .bind (.pure _ _) (.bind (.depthOf _) (hd.resolved ▸ .pure _ _))
  | _, _, .assign _ hn hd => .bind hn.resolves_itself (.bind (.depthOf _) (hd.resolved ▸ .pure _ _))
  | _, _, .call _ hn hargs => .bind hn.resolves_itself (.bind hargs.resolves_itself (.pure _ _))
  | _, _, .get _ hn => .bind hn.resolves_itself (.pure _ _)
  | _, _, .set _ hn hv => .bind hv.resolves_itself (.bind hn.resolves_itself (.pure _ _))

theorem TwinAll.resolves_itself {K : Kinship} {layers : List Layer} : ∀ {ns ns' : List Node}, TwinAll K layers ns ns' →
    (Node.resolveAll true ns).Gives (scopesOf layers) ns (scopesOf layers)
  | _, _, .nil => .pure _ _
  | _, _, .cons hn hns => .bind hn.resolves_itself (.bind hns.resolves_itself (.pure _ _))

end

/-! ## Steps -/

/-- A branch, or the body of a loop, declares nothing. -/
theorem Node.IsSilent.behind_eq {n : Node} (h : n.IsSilent) (layers : List Layer) : behind layers n = layers := by
  unfold behind
  rw [h]

/-- The body of a function resolves to itself inside the scope of the parameters. -/
theorem Resolve.Gives.body {layers : List Layer} {name : String} {params : List String} {body : Node} (line : Line)
    (hn : params.Nodup) (hb : (body.resolve true).Gives (scopesOf (Layer.ofParameters name params body :: layers)) body
      (scopesOf (behind (Layer.ofParameters name params body :: layers) body))) :
    (Resolve.inScope (do
        params.forM (Resolve.declareParameter line)
        body.resolve true)).Gives (scopesOf layers) body (scopesOf layers) := by
  have hinside := Gives.inScope (Gives.bind (f := fun _ => body.resolve true)
    (.declareParameters line hn [] (scopesOf layers) fun _ _ => rfl) hb)
  rwa [Scopes.leave, ← List.map_tail, tail_behind] at hinside

mutual

/-- A resolved step resolves to itself, and declares what it declares. -/
theorem TwinStep.resolves_itself {K : Kinship} : ∀ {layers : List Layer} {n n' : Node}, TwinStep K layers n n' →
    n.Everywhere Node.IsRegular → (n.resolve true).Gives (scopesOf layers) n (scopesOf (behind layers n))
  | layers, n, _, .expression h, _ => by
    have hsilent : n.IsSilent := by cases h <;> rfl
    rw [hsilent.behind_eq]
    exact h.resolves_itself
  | layers, .block steps l, _, .block _ hs, hr => by
    have hinside := (hs.resolves_itself fun n hn => hr.child hn).inScope
    rw [Scopes.leave, ← List.map_tail, tail_behindAll] at hinside
    exact .bind hinside (.pure _ _)
  | layers, .letDecl name n l, _, .letDecl _ hd hn, hr => by
    refine .bind (.declare hd.unheld l) ?_
    rw [← scopesOf_mark]
    refine .bind hn.resolves_itself (.bind (.define name) ?_)
    rw [← scopesOf_mark, mark_mark]
    exact .pure _ _
  | layers, .function name params body l, _, .function _ hd hn hb, hr =>
    .declareReady hd l (.bind (.body l hn (hb.resolves_itself (hr.child List.mem_cons_self))) (.pure _ _))
  | layers, .classDecl name methods l, _, .classDecl _ hd hm, hr => by
    have hmethods := hm.resolves_itself fun n hn => hr.child hn
    have hinside : Gives (inScope (do define "this"; Node.resolveMethods methods)) (scopesOf (mark layers name true))
        methods _ := .inScope (.bind (.define "this") hmethods)
    exact .declareReady hd l (.bind hinside (.pure _ _))
  | layers, .print n l, _, .print _ hn, _ => .bind hn.resolves_itself (.pure _ _)
  | layers, .ifElse c t _ l, _, .ifThen _ hc ht, hr => by
    have htrue := ht.resolves_itself (hr.part (by simp [Node.parts]))
    rw [(hr.self.silent t (by simp [Node.parts])).behind_eq] at htrue
    exact .bind hc.resolves_itself (.bind htrue (.bind (.pure _ _) (.pure _ _)))
  | layers, .ifElse c t e l, _, .ifElse _ hc ht he, hr => by
    have htrue := ht.resolves_itself (hr.part (by simp [Node.parts]))
    rw [(hr.self.silent t (by simp [Node.parts])).behind_eq] at htrue
    have hfalse := he.resolves_itself (hr.part (by simp [Node.parts]))
    rw [(hr.self.silent e (by simp [Node.parts])).behind_eq] at hfalse
    exact .bind hc.resolves_itself (.bind htrue (.bind hfalse (.pure _ _)))
  | layers, .whileLoop c b l, _, .whileLoop _ hc hb, hr => by
    have hbody := hb.resolves_itself (hr.part (by simp [Node.parts]))
    rw [(hr.self.silent b (by simp [Node.parts])).behind_eq] at hbody
    exact .bind hc.resolves_itself (.bind hbody (.pure _ _))
  | layers, _, _, .returnNil _, _ => .bind (.pure _ _) (.pure _ _)
  | layers, _, _, .returnValue _ hn, _ => .bind hn.resolves_itself (.pure _ _)

theorem TwinSteps.resolves_itself {K : Kinship} : ∀ {layers : List Layer} {ns ns' : List Node},
    TwinSteps K layers ns ns' → (∀ n ∈ ns, n.Everywhere Node.IsRegular) →
      (Node.resolveAll true ns).Gives (scopesOf layers) ns (scopesOf (behindAll layers ns))
  | _, _, _, .nil, _ => .pure _ _
  | _, n :: _, _, .cons hn hns, hr =>
    .bind (hn.resolves_itself (hr n List.mem_cons_self))
      (.bind (hns.resolves_itself fun m hm => hr m (List.mem_cons_of_mem n hm)) (.pure _ _))

theorem TwinMethods.resolves_itself {K : Kinship} : ∀ {layers : List Layer} {ns ns' : List Node},
    TwinMethods K layers ns ns' → (∀ n ∈ ns, n.Everywhere Node.IsRegular) →
      (Node.resolveMethods ns).Gives (scopesOf layers) ns (scopesOf layers)
  | _, _, _, .nil, _ => .pure _ _
  | _, .function _ _ _ l :: _, _, .cons _ hn hb hns, hr =>
    .bind (.body l hn (hb.resolves_itself ((hr _ List.mem_cons_self).child List.mem_cons_self)))
      (.bind (hns.resolves_itself fun m hm => hr m (List.mem_cons_of_mem _ hm)) (.pure _ _))

end

end LoxLang
