import ScriptLowering.Proofs.Decrease
import ScriptLowering.Proofs.Scanning

/-!
# The returns of a whole function

A rule may move a return, take reads out of its operands and put statements in front of it, but it
neither makes nor removes one. So the returns of a body correspond to those of the lowered body one
by one, and each of them was settled once.
-/

namespace ScriptLowering

open List

variable {init post post' x : Stmt} {new xs : List Stmt} {id : NodeId} {place span : Span}
  {form form' : StmtForm} {lowerBody : SequenceLowering} {s s' : State} {values : List Expr}
  {plan : ReturnPlan}

theorem ne_ret_of_isFlat (h : x.isFlat = true) (values : List Expr) : x.form ≠ .ret values := by
  intro hform
  simp [Stmt.isFlat, hform] at h

/-- The parts of a header come first, so the returns of a header are those of its initializer and
those of the rest. -/
theorem withoutInit_sites {inner} (h : form.withoutInit = some (init, inner))
    (before : Option (List Stmt)) : (⟨id, span, form⟩ : Stmt).sites before =
      init.sites none ++ (⟨id, span, inner⟩ : Stmt).sites none := by
  cases StmtForm.opens h with
  | switch => simp [Stmt.sites, sitesOfStmt?]
  | cond | loop =>
    cases ‹Block›
    simp [Stmt.sites, sitesOfStmt?]

theorem withoutInit_ne_ret {inner} (h : form.withoutInit = some (init, inner))
    (values : List Expr) : form ≠ .ret values ∧ inner ≠ .ret values := by
  cases StmtForm.opens h <;> simp

namespace Lowering

/-! ## Rules and returns -/

section Rules

variable {env : Env} {base : NodeId} {stmt : Stmt} {r : Replacement}

/-- The only rule for a return or an expression statement takes a read out of its operands, and
puts the call that reads the element in front. -/
theorem Rewrites.takes (h : Rewrites env stmt r) :
    (∀ values, stmt.form = .ret values → ∃ rest call, env.Takes stmt.span values rest call ∧
      r.form = .ret rest ∧ ∃ x ∈ r.before, x.span = stmt.span ∧ x.form = .expr call) ∧
    ∀ e, stmt.form = .expr e → ∃ e' call, env.Takes stmt.span [e] [e'] call ∧
      r.form = .expr e' ∧ ∃ x ∈ r.before, x.span = stmt.span ∧ x.form = .expr call := by
  cases h with
  | write hform | read hform | define hform | complete hform => simp [hform]
  | update hupdate =>
    unfold elementUpdate? at hupdate
    split at hupdate
    · simp [*]
    · simp [*]
    · contradiction
  | @hoist n found span base key before hextracts hread hfirst =>
    obtain ⟨declaration, reading, rfl, -, hspan, hreading⟩ := hfirst
    have hfront : ∃ x ∈ [declaration, reading], x.span = stmt.span ∧ x.form = .expr
        (env.readCall base key (.ident span (env.options.discardName n)) span) :=
      ⟨reading, by simp, hspan, hreading⟩
    constructor
    · intro values hform
      rw [hform] at hextracts
      cases hextracts with
      | ret hx => exact ⟨_, _, ⟨n, _, span, base, key, hx, rfl, hread, rfl⟩, rfl, hfront⟩
    · intro e hform
      rw [hform] at hextracts
      cases hextracts with
      | @expr _ x hx =>
        refine ⟨x.rest, _, ⟨n, x.map (· :: []), span, base, key, ?_, rfl, hread, rfl⟩, rfl, hfront⟩
        simp [extractList, hx, around]

/-- A rule leaves the returns that a statement holds where they are. -/
theorem Rewrites.sites (h : Rewrites env stmt r) (hstmt : ∀ values, stmt.form ≠ .ret values) :
    (∀ values, r.form ≠ .ret values) ∧
      (⟨stmt.id, stmt.span, r.form⟩ : Stmt).sites none = stmt.sites none := by
  obtain ⟨id, span, form⟩ := stmt
  obtain ⟨before, form'⟩ := r
  cases h.reforms with
  | action ha ha' => cases ha <;> cases ha' <;> simp [Stmt.sites]
  | without n hx =>
    cases hx with
    | @ret values => exact absurd rfl (hstmt values)
    | cond | range =>
      cases ‹Block›
      simp [Stmt.sites, Extraction.map]
    | _ => simp [Stmt.sites, Extraction.map]

theorem lowerExprs_names {es es'} (h : lowerExprs env lowerBody es s = .ok (es', s'))
    (hnames : ∀ e ∈ es, e.name?.isSome) : ∀ e ∈ es', e.name?.isSome := by
  intro e' he'
  obtain ⟨e, he, t, t', hlower⟩ := forall₂_exists_right (lowerExprs_forall₂ h) he'
  have hname := hnames e he
  cases e with
  | ident span name =>
    cases hlower
    exact hname
  | _ => simp [Expr.name?] at hname

theorem LowersPlain.assignsNames (h : LowersPlain env lowerBody form form' s s')
    (hnames : AssignsNames base ⟨id, span, form⟩) : AssignsNames base ⟨id, span, form'⟩ := by
  intro hbase targets op values hform
  cases h with
  | assign _ htargets | andNot htargets =>
    obtain ⟨rfl, -⟩ := StmtForm.assign.inj hform
    exact lowerExprs_names htargets (hnames hbase _ _ _ rfl)
  | _ => simp at hform

/-- A statement that assigns to variables is no new store. -/
theorem AssignsNames.isNewStore_eq (h : AssignsNames base x) : isNewStore base x = false := by
  by_cases hbase : base ≤ x.id
  · have hnames := h hbase
    have hstore : isStore x = false := by
      unfold isStore
      split
      · rename_i hform
        have hname := hnames _ _ _ hform _ mem_cons_self
        simp [Expr.name?] at hname
      · rfl
    simp [isNewStore, hstore]
  · simp [isNewStore, hbase]

end Rules

/-! ## Every return, once -/

/-- The identities of returns. -/
def siteIds (sites : List ReturnSite) : List NodeId := sites.map fun site => site.stmt.id

/-- Returns with different identities, none of them settled, become these, and no other return is
settled. -/
def Env.Follows (env : Env) (plan : ReturnPlan) (base : NodeId) (s s' : State)
    (sources sites : List ReturnSite) : Prop :=
  (siteIds sources).Nodup → (∀ id ∈ siteIds sources, id ∉ s.settled) →
    (∀ id ∈ s'.settled, id ∈ s.settled ∨ id ∈ siteIds sources) ∧
    Forall₂ (env.Settled plan base) sources sites

/-- Whatever the first return may become, the second may become. -/
def Env.Serves (env : Env) (plan : ReturnPlan) (base : NodeId) (x y : ReturnSite) : Prop :=
  x.stmt.id = y.stmt.id ∧ ∀ site, env.Settled plan base x site → env.Settled plan base y site

section Follows

variable {env : Env} {plan : ReturnPlan} {base : NodeId} {stmt : Stmt} {s s1 s' : State}
  {xs ys sites sites' : List ReturnSite} {front rest : List Stmt}

theorem Env.Follows.nil (hs : s'.settled = s.settled) : env.Follows plan base s s' [] [] := by
  intro _ _
  rw [hs]
  exact ⟨fun id hid => .inl hid, .nil⟩

theorem Env.Follows.shift (h : env.Follows plan base s1 s' xs sites)
    (hs : s1.settled = s.settled) : env.Follows plan base s s' xs sites := by
  unfold Env.Follows at h ⊢
  rwa [hs] at h

theorem Env.Follows.append (h : env.Follows plan base s s1 xs sites)
    (h' : env.Follows plan base s1 s' ys sites') :
    env.Follows plan base s s' (xs ++ ys) (sites ++ sites') := by
  intro hids hfresh
  rw [siteIds, map_append, nodup_append] at hids
  simp only [siteIds, map_append, mem_append] at hfresh ⊢
  obtain ⟨hxs, hys, hdisjoint⟩ := hids
  obtain ⟨hsettled, hall⟩ := h hxs fun id hid => hfresh id (.inl hid)
  have hlater : ∀ id ∈ siteIds ys, id ∉ s1.settled := by
    intro id hid hmem
    rcases hsettled id hmem with hmem | hmem
    · exact hfresh id (.inr hid) hmem
    · exact hdisjoint id hmem id hid rfl
  obtain ⟨hsettled', hall'⟩ := h' hys hlater
  refine ⟨?_, rel_append hall hall'⟩
  intro id hid
  rcases hsettled' id hid with hid | hid
  · exact (hsettled id hid).imp_right .inl
  · exact .inr (.inr hid)

theorem Env.Follows.serves (h : env.Follows plan base s s' xs sites)
    (hall : Forall₂ (env.Serves plan base) xs ys) : env.Follows plan base s s' ys sites := by
  have hids : siteIds xs = siteIds ys := by
    rw [siteIds, siteIds, ← forall₂_eq_eq_eq, forall₂_map_left_iff, forall₂_map_right_iff]
    exact hall.imp fun _ _ hserves => hserves.1
  unfold Env.Follows at h ⊢
  rw [hids] at h
  intro hnodup hfresh
  obtain ⟨hsettled, hsites⟩ := h hnodup hfresh
  refine ⟨hsettled, ?_⟩
  clear h hids hnodup hfresh hsettled
  induction hall generalizing sites with
  | nil => exact hsites
  | cons hserves _ ih =>
    obtain ⟨site, rest, hsite, hrest, rfl⟩ := forall₂_cons_left_iff.1 hsites
    exact .cons (hserves.2 site hsite) (ih hrest)

theorem Env.Serves.refl (x : ReturnSite) : env.Serves plan base x x := ⟨rfl, fun _ h => h⟩

/-- A return that is in no sequence is only asked to stay. -/
theorem serves_sites (x : Stmt) (before : Option (List Stmt)) :
    Forall₂ (env.Serves plan base) (x.sites before) (x.sites none) := by
  by_cases hret : ∃ values, x.form = .ret values
  · obtain ⟨values, hform⟩ := hret
    rw [Stmt.sites_ret hform, Stmt.sites_ret hform]
    exact .cons ⟨rfl, fun site h => ⟨h.1, nofun⟩⟩ .nil
  · rw [Stmt.sites_eq fun values hform => hret ⟨values, hform⟩]
    exact forall₂_same.2 fun x _ => .refl x

/-- What stands in front of a sequence matters for what was evaluated there. -/
theorem serves_sitesOfStmts {front'}
    (h : ∀ before, env.Passed front before → env.Passed front' before) (stmts : List Stmt) :
    Forall₂ (env.Serves plan base) (sitesOfStmts front stmts) (sitesOfStmts front' stmts) := by
  induction stmts generalizing front front' with
  | nil => exact .nil
  | cons x stmts ih =>
    refine rel_append ?_ (ih fun before hpassed => ?_)
    · by_cases hret : ∃ values, x.form = .ret values
      · obtain ⟨values, hform⟩ := hret
        rw [Stmt.sites_ret hform, Stmt.sites_ret hform]
        refine .cons ⟨rfl, fun site hsite => ⟨hsite.1, ?_⟩⟩ .nil
        rintro _ ⟨⟩
        obtain ⟨before, hbefore, hreturns⟩ := hsite.2 front rfl
        exact ⟨before, hbefore, { hreturns with front := h before hreturns.front }⟩
      · have hno (values) : x.form ≠ .ret values := fun hform => hret ⟨values, hform⟩
        rw [Stmt.sites_eq hno, Stmt.sites_eq hno (some front')]
        exact forall₂_same.2 fun x _ => .refl x
    · intro y hy
      rcases mem_cons.1 hy with rfl | hy
      · exact hpassed y mem_cons_self
      · exact h before (hpassed.of_subset (subset_cons_self x front)) y hy

/-- Other statements in place of the first one of a sequence. -/
theorem Env.Follows.head (new : List Stmt)
    (h : env.Follows plan base s s' (sitesOfStmts front (new ++ rest)) sites)
    (hnew : Forall₂ (env.Serves plan base) (sitesOfStmts front new) (stmt.sites (some front)))
    (hfront : ∀ before, env.Passed (new.reverse ++ front) before →
      env.Passed (stmt :: front) before) :
    env.Follows plan base s s' (sitesOfStmts front (stmt :: rest)) sites := by
  rw [sitesOfStmts_append] at h
  exact h.serves (rel_append hnew (serves_sitesOfStmts hfront rest))

end Follows

/-- The plan of a function whose results moved. -/
structure ReturnPlan.Usable (plan : ReturnPlan) : Prop where
  ascending : plan.Ascending
  total : plan.total ≠ 0

/-- What becomes of the returns of a task, when `base` is the first identity that the source does
not use. -/
def Task.FollowsPlan (env : Env) (plan : ReturnPlan) (base : NodeId) (s s' : State) : Task → Prop
  | .seq followed xs ys => followed = some plan → base ≤ s.nextId → (∀ x ∈ xs, Tidy base x) →
    ∀ front before, env.Passed front before → Clean base before →
      env.Follows plan base s s' (sitesOfStmts front xs) (sitesOfStmts before ys)
  | .stmt followed x y => followed = some plan → base ≤ s.nextId → Tidy base x →
    env.Follows plan base s s' (x.sites none) (y.sites none)
  | .header followed x y | .branch followed x y => followed = some plan → base ≤ s.nextId →
    (∀ x' ∈ x, Tidy base x') → env.Follows plan base s s' (sitesOfStmt? x) (sitesOfStmt? y)
  | .arms followed cs ds => followed = some plan → base ≤ s.nextId →
    (∀ x ∈ cs.flatMap (·.body), Tidy base x) →
    env.Follows plan base s s' (sitesOfCases cs) (sitesOfCases ds)
  | _ => True

section Steps

variable {env : Env} {plan : ReturnPlan} {base : NodeId} {stmt : Stmt} {s s1 s' : State}
  {front before rest out : List Stmt}

theorem withoutInit_tidy {id' inner} (h : stmt.form.withoutInit = some (init, inner))
    (hstmt : Tidy base stmt) :
    Tidy base ⟨id, span, .block ⟨[init, ⟨id', span, inner⟩], place⟩⟩ := by
  obtain ⟨-, hpost⟩ := hstmt stmt .self
  have hinner : PostBelow base inner ∧ ∀ targets op values, inner ≠ .assign targets op values := by
    obtain ⟨id0, span0, form⟩ := stmt
    cases StmtForm.opens h with
    | cond | switch => simp [PostBelow]
    | @loop _ _ post =>
      refine ⟨?_, by simp⟩
      cases post with
      | none => trivial
      | some post => exact hpost
  have hparts : ∀ x ∈ init :: inner.inner, Tidy base x := by
    intro x hx
    exact hstmt.part (withoutInit_inner h ▸ hx)
  obtain ⟨hinit, hrest⟩ := forall_mem_cons.1 hparts
  refine .intro ⟨.of_form (by simp), trivial⟩ ?_
  intro y hy
  simp only [StmtForm.inner, mem_cons, not_mem_nil, or_false] at hy
  rcases hy with rfl | rfl
  · exact hinit
  · exact .intro ⟨.of_form hinner.2, hinner.1⟩ hrest

/-- The initializer in front of its statement, in a block. -/
theorem Env.Follows.hoisted {inner sites} (hform : stmt.form.withoutInit = some (init, inner))
    (h : env.Follows plan base s s' (sitesOfStmts front
      (⟨id, span, .block ⟨[init, ⟨stmt.id, stmt.span, inner⟩], place⟩⟩ :: rest)) sites) :
    env.Follows plan base s s' (sitesOfStmts front (stmt :: rest)) sites := by
  obtain ⟨sid, sspan, form⟩ := stmt
  refine Env.Follows.head [_] h ?_ ?_
  · rw [withoutInit_sites hform, sitesOfStmts]
    simp only [Stmt.sites, sitesOfStmts, append_nil]
    exact rel_append (serves_sites init _) (serves_sites _ _)
  · intro before hpassed
    refine (hpassed.of_subset (subset_append_right _ _)).cons ?_
    cases StmtForm.opens hform <;> simp

/-- A rule keeps a return, and what was evaluated in front of it. -/
theorem Rewrites.follows {r} (h : Rewrites env stmt r) {sites} (hseq : env.Follows plan base s s'
      (sitesOfStmts front (r.before ++ ⟨stmt.id, stmt.span, r.form⟩ :: rest)) sites) :
    env.Follows plan base s s' (sitesOfStmts front (stmt :: rest)) sites := by
  rw [append_cons] at hseq
  refine Env.Follows.head _ hseq ?_ ?_
  · rw [sitesOfStmts_append, sitesOfStmts_of_isFlat fun x hx => h.before_flat hx, nil_append,
      sitesOfStmts, sitesOfStmts, append_nil]
    by_cases hret : ∃ values, stmt.form = .ret values
    · obtain ⟨values, hform⟩ := hret
      obtain ⟨rest, call, htakes, hform', x, hx, hcall⟩ := h.takes.1 values hform
      rw [Stmt.sites_ret hform, Stmt.sites_ret hform']
      refine .cons ⟨rfl, fun site hsite => ⟨hsite.1, ?_⟩⟩ .nil
      rintro _ ⟨⟩
      obtain ⟨before, hbefore, hreturns⟩ := hsite.2 _ rfl
      rw [hform'] at hreturns
      exact ⟨before, hbefore, hreturns.of_taken hform htakes
        ⟨x, mem_append_left _ (mem_reverse.2 hx), hcall⟩
        (hreturns.front.of_subset (subset_append_right _ _))⟩
    · have hno (values) : stmt.form ≠ .ret values := fun hform => hret ⟨values, hform⟩
      obtain ⟨hno', hsites⟩ := h.sites hno
      rw [Stmt.sites_eq hno', Stmt.sites_eq hno, hsites]
      exact forall₂_same.2 fun x _ => .refl x
  · intro before hpassed
    rw [reverse_append, reverse_singleton, singleton_append] at hpassed
    have hfront := hpassed.of_subset
      (Subset.trans (subset_append_right _ front) (subset_cons_self _ _))
    intro y hy e hform
    rcases mem_cons.1 hy with rfl | hy
    · obtain ⟨e', call, htakes, hform', x, hx, hspan, hcall⟩ := h.takes.2 e hform
      obtain ⟨z, hz, e'', hzform, heval⟩ := hpassed _ mem_cons_self e' hform'
      obtain ⟨w, hw, call', hwform, hcalled⟩ :=
        hpassed x (mem_cons_of_mem _ (mem_append_left _ (mem_reverse.2 hx))) call hcall
      exact ⟨z, hz, e'', hzform, .take htakes hw hwform (hspan ▸ hcalled) heval⟩
    · exact hfront y hy e hform

theorem Settles.ret (h : Settles env plan stmt s new s') : ∃ values, stmt.form = .ret values := by
  cases h with
  | values hform | names hform | call hform | callOnly hform => exact ⟨_, hform⟩

/-- A return that follows its plan is settled. -/
theorem Settles.follows {new' s2} (h : Settles env plan stmt s new s1) (hplan : plan.Usable)
    (hidle : env.Idle stmt) (hbase : base ≤ s.nextId)
    (hnew : Walks env (.each (some plan) new new') s1 s2) (hbefore : Clean base before)
    (hfront : env.Passed front before) :
    env.Follows plan base s s2 (stmt.sites (some front)) (sitesOfStmts before new') ∧
      Clean base (new'.reverse ++ before) := by
  obtain ⟨hentered, hsettled⟩ := hnew.each_plain h.plain
  obtain ⟨⟨before', y, hsites, hid, hreturns⟩, hclean⟩ :=
    h.returnsAs hplan.ascending hplan.total hidle hbase hentered hbefore hfront
  obtain ⟨values, hform⟩ := h.ret
  refine ⟨?_, hclean⟩
  rw [Stmt.sites_ret hform, hsites]
  intro _ _
  refine ⟨?_, .cons ⟨hid, ?_⟩ .nil⟩
  · intro id hid
    rw [hsettled, h.grows.2] at hid
    rcases mem_cons.1 hid with rfl | hid
    · exact .inr (mem_singleton_self _)
    · exact .inl hid
  · rintro _ ⟨⟩
    exact ⟨before', rfl, hreturns⟩

/-- A return that no rule applies to neither has all values nor stands for named results. -/
theorem follows_entered_return {y} (hform : stmt.form = .ret values)
    (hnone : lowerReturn env plan stmt s = .ok (none, s)) (hentered : env.Entered stmt y)
    (hsettled : s'.settled = s.settled) (hfront : env.Passed front before) :
    env.Follows plan base s s' (stmt.sites (some front)) (y.sites (some before)) := by
  obtain ⟨values', hform', -⟩ := hentered.ret hform
  rw [Stmt.sites_ret hform, Stmt.sites_ret hform']
  intro _ hfresh
  have hfresh : stmt.id ∉ s.settled := hfresh stmt.id (mem_singleton_self _)
  obtain ⟨-, hleft⟩ := ((@ensures_lowerReturn env plan stmt s fun _ => True).of_ok hnone).1 rfl
  obtain ⟨hlen, hnames⟩ := hleft hfresh values hform
  refine ⟨fun id hid => .inl (hsettled ▸ hid), .cons ⟨hentered.1, ?_⟩ .nil⟩
  rintro _ ⟨⟩
  refine ⟨before, rfl, hentered.2.1, hfront, ?_, ?_⟩
  · intro values1 hvalues htotal
    rw [hform] at hvalues
    obtain rfl := StmtForm.ret.inj hvalues
    exact absurd htotal hlen
  · intro hvalues hnamed
    rw [hform] at hvalues
    exact absurd (hnames (StmtForm.ret.inj hvalues)) hnamed

/-- A statement that holds no statements holds no return but itself. -/
theorem LowersPlain.follows (h : LowersPlain env lowerBody form form' s s')
    (hsettled : s1.settled = s.settled) : env.Follows plan base s s1
      ((⟨id, span, form⟩ : Stmt).sites none) ((⟨id, span, form'⟩ : Stmt).sites none) := by
  cases h with
  | ret =>
    intro _ _
    exact ⟨fun id hid => .inl (hsettled ▸ hid), .cons ⟨rfl, nofun⟩ .nil⟩
  | _ => exact .nil hsettled

/-- Entering a statement makes no return and no store through a pointer. -/
theorem Walks.stmt_entered {plan x y} (h : Walks env (.stmt plan x y) s s')
    (hnames : AssignsNames base x) :
    isNewStore base y = false ∧
      ((∀ values, x.form ≠ .ret values) → ∀ values, y.form ≠ .ret values) := by
  cases h with
  | plain _ hform =>
    refine ⟨(hform.assignsNames hnames).isNewStore_eq, ?_⟩
    cases hform with
    | ret => exact fun h => absurd rfl (h _)
    | _ => simp
  | _ => simp [isNewStore, isStore]

/-- An expression statement that is entered was evaluated. -/
theorem Env.Passed.enter {y} (h : env.Passed front before) (hidle : env.Idle stmt)
    (hwalk : Walks env (.stmt (some plan) stmt y) s s') :
    env.Passed (stmt :: front) (y :: before) := by
  intro x hx e hform
  rcases mem_cons.1 hx with rfl | hx
  · obtain ⟨hentered, -⟩ := hwalk.stmt_plain (by simp [hform, isPlain])
    obtain ⟨e', hform', hlowers⟩ := hentered.expr hform
    have hread : ∀ z ∈ surfaceOfExprs [e], env.isElement x.span z = false := by
      have hread := extractForm_eq_none.1 (hidle.hoist "")
      rw [hform, StmtForm.evaluated] at hread
      simpa only [surfaceOfExprs, append_nil] using hread
    exact ⟨y, mem_cons_self, e', hform', .done hread (.cons hlowers .nil)⟩
  · exact h.mono (subset_cons_self _ _) x hx e hform

/-- A loop whose post statement was lowered for itself, behind the declarations this made. -/
theorem post_tidy {plan init test body posts decls}
    (hform : stmt.form = .loop init test (some post) body) (hflat : post.isFlat = true)
    (hposts : Walks env (.seq plan [post] posts) s s1)
    (hparts : posts.partition (fun x => x.id == post.id) = ([post'], decls))
    (hstmt : Tidy base stmt) :
    Tidy base ⟨stmt.id, stmt.span, .loop init test (some post') body⟩ ∧ post'.isFlat = true := by
  obtain ⟨-, hpost⟩ := hstmt stmt .self
  rw [hform] at hpost
  have hflat' : ∀ x ∈ posts, x.isFlat = true := fun x hx =>
    (hposts.keepsFlat post.span (by simpa using hflat) x hx).1
  rw [partition_eq_filter_filter, Prod.mk.injEq] at hparts
  have hmem : post' ∈ posts.filter fun x => x.id == post.id := by
    rw [hparts.1]
    exact mem_singleton_self _
  obtain ⟨hmem, hid⟩ := mem_filter.1 hmem
  have hid : post'.id = post.id := by simpa using hid
  have hpost' : post'.isFlat = true := hflat' post' hmem
  have hlow : post'.id < base := hid ▸ hpost
  refine ⟨.intro ⟨.of_form (by simp), hlow⟩ ?_, hpost'⟩
  intro y hy
  simp only [StmtForm.inner, Option.toList_some, mem_append, mem_singleton] at hy
  have hpart : y ≠ post' → Tidy base y := by
    intro hne
    refine hstmt.part ?_
    rw [hform]
    simp only [StmtForm.inner, mem_append]
    grind
  by_cases hy' : y = post'
  · subst hy'
    exact .of_flat hpost' fun hbase => absurd hlow (Nat.not_lt.2 hbase)
  · exact hpart hy'

theorem isFlat_of_needsDeclarations (h : env.needsDeclarations stmt = true) :
    stmt.isFlat = true := by
  unfold Env.needsDeclarations at h
  split at h
  · rename_i hform
    simp [Stmt.isFlat, hform]
  · contradiction

/-- The declarations of a post statement in front of its loop. -/
theorem Env.Follows.of_post {init test body decls sites}
    (hform : stmt.form = .loop init test (some post) body) (hflat : post.isFlat = true)
    (hflat' : post'.isFlat = true) (hdecls : ∀ x ∈ decls, x.isFlat = true)
    (h : env.Follows plan base s s' (sitesOfStmts front (decls ++
      ⟨stmt.id, stmt.span, .loop init test (some post') body⟩ :: rest)) sites) :
    env.Follows plan base s s' (sitesOfStmts front (stmt :: rest)) sites := by
  rw [append_cons] at h
  refine Env.Follows.head _ h ?_ ?_
  · obtain ⟨id, span, form⟩ := stmt
    obtain rfl : form = _ := hform
    obtain ⟨stmts, place⟩ := body
    rw [sitesOfStmts_append, sitesOfStmts_of_isFlat hdecls]
    simp only [sitesOfStmts, Stmt.sites, sitesOfStmt?, sites_of_isFlat hflat,
      sites_of_isFlat hflat', nil_append, append_nil]
    exact forall₂_same.2 fun x _ => .refl x
  · intro before hpassed
    exact (hpassed.of_subset (subset_append_right _ _)).cons (by simp [hform])

end Steps

/-! ## A whole run -/

theorem clean_cons {base before} (h : isNewStore base x = false) : Clean base (x :: before) := by
  intro y hy
  obtain rfl : x = y := by simpa using hy
  exact h

/-- Every return of the source becomes one return, and is settled once. -/
theorem Walks.followsPlan {env base task} (h : Walks env task s s') (husable : plan.Usable) :
    task.FollowsPlan env plan base s s' := by
  have hnil : env.Passed [] [] ∧ Clean base [] := ⟨.nil, by simp [Clean]⟩
  induction h with
  | nil => exact fun _ _ _ _ _ _ _ => .nil rfl
  | hoist _ hform _ ih =>
    intro hplan hbase hstmts front before hfront hbefore
    obtain ⟨hstmt, hrest⟩ := forall_mem_cons.1 hstmts
    have hfollows := ih hplan (Nat.le_succ_of_le hbase)
      (forall_mem_cons.2 ⟨withoutInit_tidy hform hstmt, hrest⟩) front before hfront hbefore
    exact .hoisted hform (hfollows.shift rfl)
  | @post _ stmt _ _ init test post post' body _ decls _ _ _ _ hform hneeds hposts hparts hdecls _
      ih ih' =>
    intro hplan hbase hstmts front before hfront hbefore
    obtain ⟨hstmt, hrest⟩ := forall_mem_cons.1 hstmts
    have hpost : Tidy base post := hstmt.part (by simp [hform, StmtForm.inner])
    have hflat := isFlat_of_needsDeclarations hneeds
    obtain ⟨hloop, hflat'⟩ := post_tidy hform hflat hposts hparts hstmt
    have hdecls' : ∀ x ∈ decls, x.isFlat = true ∧ AssignsNames base x := by
      intro x hx
      have hdecl := hdecls x hx
      unfold isDeclaration at hdecl
      split at hdecl
      · rename_i hx
        exact ⟨by simp [Stmt.isFlat, hx], .of_form (by simp [hx])⟩
      · contradiction
    have hfollows := ih hplan hbase (by simpa using hpost) [] [] hnil.1 hnil.2
    rw [sitesOfStmts_of_isFlat (by simpa using hflat)] at hfollows
    have hfollows' := ih' hplan (Nat.le_trans hbase hposts.grows.1)
      (forall_mem_append.2 ⟨fun x hx => .of_flat (hdecls' x hx).1 (hdecls' x hx).2,
        forall_mem_cons.2 ⟨hloop, hrest⟩⟩) front before hfront hbefore
    -- A post statement holds no return, so the run that lowered it settled none.
    obtain ⟨-, hnone⟩ := hfollows (by simp [siteIds]) (by simp [siteIds])
    rw [forall₂_nil_left_iff.1 hnone] at hfollows
    exact .of_post hform hflat hflat' (fun x hx => (hdecls' x hx).1) (hfollows.append hfollows')
  | @split _ stmt _ _ names _ value span form s _ _ hform hnew _ ih =>
    intro hplan hbase hstmts front before hfront hbefore
    obtain ⟨-, hrest⟩ := forall_mem_cons.1 hstmts
    have hfirst : (⟨stmt.id, stmt.span, form⟩ : Stmt).isFlat = true ∧
        ∀ targets op values, form ≠ .assign targets op values := by
      rcases hnew with rfl | ⟨vars, -, rfl⟩ <;> simp [Stmt.isFlat]
    have hsecond : AssignsNames base ⟨s.nextId, stmt.span,
        .assign (names.map fun name => .ident name.span name.val) .assign [value]⟩ := by
      intro _ targets op values hassign target htarget
      obtain ⟨rfl, -⟩ := StmtForm.assign.inj hassign
      obtain ⟨name, -, rfl⟩ := mem_map.1 htarget
      rfl
    have hfollows := ih hplan (Nat.le_succ_of_le hbase)
      (forall_mem_cons.2 ⟨.of_flat hfirst.1 (.of_form hfirst.2),
        forall_mem_cons.2 ⟨.of_flat rfl hsecond, hrest⟩⟩) front before hfront hbefore
    refine Env.Follows.head [_, _] (hfollows.shift rfl) ?_ ?_
    · have hstmt : stmt.isFlat = true := by simp [Stmt.isFlat, hform]
      rw [sites_of_isFlat hstmt, sitesOfStmts_of_isFlat]
      · exact .nil
      · exact forall_mem_cons.2 ⟨hfirst.1, by simp [Stmt.isFlat]⟩
    · intro before hpassed
      exact (hpassed.of_subset (subset_append_right _ _)).cons (by simp [hform])
  | replace _ hrewrites hissues _ ih =>
    intro hplan hbase hstmts front before hfront hbefore
    obtain ⟨hstmt, hrest⟩ := forall_mem_cons.1 hstmts
    have hfollows := ih hplan (Nat.le_trans hbase hissues.nextId)
      (forall_mem_append.2 ⟨fun x hx => hrewrites.before_tidy hx,
        forall_mem_cons.2 ⟨hrewrites.tidy hstmt, hrest⟩⟩) front before hfront hbefore
    exact hrewrites.follows (hfollows.shift hissues.settled)
  | @settle _ stmt _ _ new' _ _ _ s2 _ _ hidle _ hsettles hnew _ _ ih' =>
    rintro ⟨⟩ hbase hstmts front before hfront hbefore
    obtain ⟨-, hrest⟩ := forall_mem_cons.1 hstmts
    obtain ⟨hfollows, hclean⟩ := hsettles.follows husable hidle hbase hnew hbefore hfront
    have hbase' : base ≤ s2.nextId :=
      Nat.le_trans hbase (Nat.le_trans hsettles.grows.1 hnew.grows.1)
    obtain ⟨values, hform⟩ := hsettles.ret
    have hpassed : env.Passed (stmt :: front) (new'.reverse ++ before) :=
      (hfront.mono (subset_append_right _ _)).cons (by simp [hform])
    rw [sitesOfStmts, sitesOfStmts_append]
    exact hfollows.append (ih' rfl hbase' hrest _ _ hpassed hclean)
  | @enter _ stmt stmt' _ _ s s1 _ _ hquiet hreturn hwalk _ ih ih' =>
    rintro rfl hbase hstmts front before hfront hbefore
    obtain ⟨hstmt, hrest⟩ := forall_mem_cons.1 hstmts
    obtain ⟨hnew, hno'⟩ := hwalk.stmt_entered (hstmt stmt .self).names
    have hhead : env.Follows plan base s s1 (stmt.sites (some front))
        (stmt'.sites (some before)) := by
      by_cases hret : ∃ values, stmt.form = .ret values
      · obtain ⟨values, hform⟩ := hret
        obtain ⟨hentered, hsettled⟩ := hwalk.stmt_plain (by simp [hform, isPlain])
        exact follows_entered_return hform (hreturn plan rfl) hentered hsettled hfront
      · have hno (values) : stmt.form ≠ .ret values := fun hform => hret ⟨values, hform⟩
        rw [Stmt.sites_eq hno, Stmt.sites_eq (hno' hno)]
        exact ih rfl hbase hstmt
    exact hhead.append (ih' rfl (Nat.le_trans hbase hwalk.grows.1) hrest _ _
      (hfront.enter hquiet.idle hwalk) (clean_cons hnew))
  | plain _ hform hbodies => exact fun _ _ _ => hform.follows (hbodies.settled_eq rfl)
  | block _ ih =>
    intro hplan hbase htidy
    exact ih hplan hbase (fun x hx => htidy.part hx) [] [] hnil.1 hnil.2
  | cond hinit _ hbodies hstmts _ ih1 _ ih3 ih4 =>
    intro hplan hbase htidy
    have hparts := fun x => htidy.part (y := x)
    simp only [StmtForm.inner, mem_append, Option.mem_toList, or_imp, forall_and] at hparts
    obtain ⟨⟨hfirst, hbody⟩, helse⟩ := hparts
    have hle1 := Nat.le_trans hbase hinit.grows.1
    have hle2 := Nat.le_trans hle1 hbodies.grows.1
    have hle3 := Nat.le_trans hle2 hstmts.grows.1
    have hbody := ih3 hplan hle2 hbody [] [] hnil.1 hnil.2
    exact ((ih1 hplan hbase hfirst).append (hbody.shift (hbodies.settled_eq rfl))).append
      (ih4 hplan hle3 helse)
  | switch hinit _ hbodies _ ih1 _ ih3 =>
    intro hplan hbase htidy
    have hparts := fun x => htidy.part (y := x)
    simp only [StmtForm.inner, mem_append, Option.mem_toList, or_imp, forall_and] at hparts
    have hle := Nat.le_trans (Nat.le_trans hbase hinit.grows.1) hbodies.grows.1
    have harms := ih3 hplan hle hparts.2
    exact (ih1 hplan hbase hparts.1).append (harms.shift (hbodies.settled_eq rfl))
  | loop hinit _ hbodies hpost _ ih1 _ ih3 ih4 =>
    intro hplan hbase htidy
    have hparts := fun x => htidy.part (y := x)
    simp only [StmtForm.inner, mem_append, Option.mem_toList, or_imp, forall_and] at hparts
    obtain ⟨⟨hfirst, hlast⟩, hbody⟩ := hparts
    have hle1 := Nat.le_trans hbase hinit.grows.1
    have hle2 := Nat.le_trans hle1 hbodies.grows.1
    have hle3 := Nat.le_trans hle2 hpost.grows.1
    have hlast := ih3 hplan hle2 hlast
    exact ((ih1 hplan hbase hfirst).append (hlast.shift (hbodies.settled_eq rfl))).append
      (ih4 hplan hle3 hbody [] [] hnil.1 hnil.2)
  | range _ _ _ hbodies _ _ ih' =>
    intro hplan hbase htidy
    have hle := Nat.le_trans hbase hbodies.grows.1
    have hbody := ih' hplan hle (fun x hx => htidy.part hx) [] [] hnil.1 hnil.2
    exact hbody.shift (hbodies.settled_eq rfl)
  | noHeader | noBranch | armsNil => exact fun _ _ _ => .nil rfl
  | header _ _ _ ih | branch _ _ _ ih =>
    exact fun hplan hbase hstmt => ih hplan hbase (hstmt _ rfl)
  | @inPlace _ stmt _ form _ _ _ _ hrewrites hissues _ ih =>
    intro hplan hbase hstmt
    have hfollows := ih hplan (Nat.le_trans hbase hissues.nextId) (hrewrites.tidy (hstmt _ rfl))
    have hno : ∀ values, stmt.form ≠ .ret values := by
      intro values hform
      obtain ⟨_, _, _, _, x, hx, _⟩ := hrewrites.takes.1 values hform
      simp at hx
    rw [(hrewrites.sites hno).2] at hfollows
    exact hfollows.shift hissues.settled
  | @wrap _ stmt _ _ _ _ _ s _ hform _ ih =>
    intro hplan hbase hstmt
    have hblock : Tidy base ⟨s.nextId, stmt.span, .block ⟨[stmt], stmt.span⟩⟩ := by
      refine .intro ⟨.of_form (by simp), trivial⟩ ?_
      simpa [StmtForm.inner] using hstmt
    have hfollows := ih hplan (Nat.le_succ_of_le hbase) hblock
    simp only [Stmt.sites, sitesOfStmts, append_nil] at hfollows
    rw [Stmt.sites_eq (by simp [hform])] at hfollows
    exact hfollows.shift rfl
  | armsCons _ hbodies hstmts _ _ ih2 ih3 =>
    intro hplan hbase hclauses
    simp only [flatMap_cons, forall_mem_append] at hclauses
    have hle1 := Nat.le_trans hbase hbodies.grows.1
    have hle2 := Nat.le_trans hle1 hstmts.grows.1
    have hbody := ih2 hplan hle1 hclauses.1 [] [] hnil.1 hnil.2
    exact (hbody.shift (hbodies.settled_eq rfl)).append (ih3 hplan hle2 hclauses.2)
  | eachNil | eachCons | bodiesNil | bodiesCons => trivial

/-! ## Returns in function literals -/

end Lowering

/-- The statement holds a return with this identity and this number of values, in a function
literal or, with `outer`, anywhere. -/
def Stmt.HoldsReturn (outer : Bool) (id : NodeId) (count : Nat) (x : Stmt) : Prop :=
  ∃ literal y values, (outer || literal) = true ∧ Inside literal x y ∧ y.id = id ∧
    y.form = .ret values ∧ values.length = count

/-- One of the statements holds such a return. -/
def HoldReturn (outer : Bool) (id : NodeId) (count : Nat) (xs : List Stmt) : Prop :=
  ∃ x ∈ xs, x.HoldsReturn outer id count

section Held

variable {outer : Bool} {id : NodeId} {count : Nat} {x : Stmt} {xs ys : List Stmt}

@[simp] theorem holdReturn_nil : ¬ HoldReturn outer id count [] := by
  simp [HoldReturn]

@[simp] theorem holdReturn_cons : HoldReturn outer id count (x :: xs) ↔
    x.HoldsReturn outer id count ∨ HoldReturn outer id count xs := by
  simp [HoldReturn]

@[simp] theorem holdReturn_append : HoldReturn outer id count (xs ++ ys) ↔
    HoldReturn outer id count xs ∨ HoldReturn outer id count ys := by
  simp only [HoldReturn, mem_append]
  grind

/-- A return is the statement itself, or it stands in a part, or in a function literal. -/
theorem Stmt.holdsReturn_iff : x.HoldsReturn outer id count ↔
    (outer = true ∧ x.id = id ∧ ∃ values, x.form = .ret values ∧ values.length = count) ∨
      HoldReturn outer id count x.form.inner ∨
      ∃ body ∈ x.form.bodies, HoldReturn true id count body := by
  constructor
  · rintro ⟨literal, y, values, hout, hy, hid, hform, hlen⟩
    cases hy with
    | self => exact .inl ⟨by simpa using hout, hid, values, hform, hlen⟩
    | part hz hy => exact .inr (.inl ⟨_, hz, literal, y, values, hout, hy, hid, hform, hlen⟩)
    | body hbody hz hy =>
      exact .inr (.inr ⟨_, hbody, _, hz, _, y, values, rfl, hy, hid, hform, hlen⟩)
  · rintro (⟨hout, hid, values, hform, hlen⟩ | ⟨z, hz, literal, y, values, hout, hy, hid, hform,
      hlen⟩ | ⟨body, hbody, z, hz, literal, y, values, hout, hy, hid, hform, hlen⟩)
    · exact ⟨false, x, values, by simp [hout], .self, hid, hform, hlen⟩
    · exact ⟨literal, y, values, hout, .part hz hy, hid, hform, hlen⟩
    · exact ⟨true, y, values, by simp, .body hbody hz hy, hid, hform, hlen⟩

/-- Where a statement holds no statements, only its function literals count. -/
theorem Stmt.holdsReturn_of_form (hform : ∀ values, x.form ≠ .ret values) :
    x.HoldsReturn outer id count ↔ HoldReturn outer id count x.form.inner ∨
      ∃ body ∈ x.form.bodies, HoldReturn true id count body := by
  rw [Stmt.holdsReturn_iff]
  simp [hform]

end Held

namespace Lowering

/-- A run neither loses a return in a function literal nor makes one, nor changes how many values
it returns; where no plan is followed, so it is for every return. -/
def Task.KeepsReturns (id : NodeId) (count : Nat) : Task → Prop
  | .seq plan xs ys | .each plan xs ys => ∀ outer, (∀ p ∈ plan, p.Ascending ∧ outer = false) →
    (HoldReturn outer id count ys ↔ HoldReturn outer id count xs)
  | .stmt plan x y => ∀ outer, (∀ p ∈ plan, p.Ascending ∧ outer = false) →
    (y.HoldsReturn outer id count ↔ x.HoldsReturn outer id count)
  | .header plan x y | .branch plan x y => ∀ outer, (∀ p ∈ plan, p.Ascending ∧ outer = false) →
    (HoldReturn outer id count y.toList ↔ HoldReturn outer id count x.toList)
  | .arms plan cs ds => ∀ outer, (∀ p ∈ plan, p.Ascending ∧ outer = false) →
    (HoldReturn outer id count (ds.flatMap (·.body)) ↔
      HoldReturn outer id count (cs.flatMap (·.body))) ∧
    ((∃ body ∈ bodiesOfExprs (ds.flatMap CaseClause.labels), HoldReturn true id count body) ↔
      ∃ body ∈ bodiesOfExprs (cs.flatMap CaseClause.labels), HoldReturn true id count body)
  | .bodies bs bs' =>
    (∃ body ∈ bs', HoldReturn true id count body) ↔ ∃ body ∈ bs, HoldReturn true id count body

section Literals

variable {env : Env} {stmt : Stmt} {s s' : State} {outer : Bool} {id : NodeId} {count : Nat}

theorem withoutInit_holdsReturn {inner} (id' : NodeId) (place : Span)
    (h : stmt.form.withoutInit = some (init, inner)) : Stmt.HoldsReturn outer id count
      ⟨id', stmt.span, .block ⟨[init, ⟨stmt.id, stmt.span, inner⟩], place⟩⟩ ↔
      stmt.HoldsReturn outer id count := by
  rw [Stmt.holdsReturn_of_form (by simp),
    Stmt.holdsReturn_of_form fun values => (withoutInit_ne_ret h values).1, withoutInit_inner h]
  have hinner : Stmt.HoldsReturn outer id count ⟨stmt.id, stmt.span, inner⟩ ↔ _ :=
    Stmt.holdsReturn_of_form fun values => (withoutInit_ne_ret h values).2
  simp only [StmtForm.inner, bodies_block, holdReturn_cons, holdReturn_nil, hinner,
    withoutInit_bodies h, not_mem_nil, false_and, exists_false, or_false, or_assoc]

/-- The statements of a lowered post statement, and the statement among them. -/
theorem partition_holdReturn {posts decls}
    (h : posts.partition (fun x => x.id == post.id) = ([post'], decls)) :
    HoldReturn outer id count posts ↔
      HoldReturn outer id count decls ∨ post'.HoldsReturn outer id count := by
  have hmem : ∀ x, x ∈ posts ↔ x ∈ decls ∨ x = post' := by
    intro x
    rw [← (perm_of_partition h).mem_iff, mem_cons, or_comm]
  simp only [HoldReturn, hmem]
  grind

theorem loop_holdsReturn {init test body} (hform : stmt.form = .loop init test (some post) body)
    (hpost : Prop)
    (h : hpost ∨ post'.HoldsReturn outer id count ↔ post.HoldsReturn outer id count) :
    hpost ∨ Stmt.HoldsReturn outer id count
      ⟨stmt.id, stmt.span, .loop init test (some post') body⟩ ↔ stmt.HoldsReturn outer id count
    := by
  rw [Stmt.holdsReturn_of_form (by simp), Stmt.holdsReturn_of_form (by simp [hform]), hform]
  simp only [StmtForm.inner, holdReturn_append, Option.toList_some, holdReturn_cons, holdReturn_nil,
    bodies_loop, or_false, ← h]
  grind

/-- A rule keeps the returns of a statement, those in function literals and the statement itself. -/
theorem Rewrites.holdReturn {r} (h : Rewrites env stmt r) (henv : env.Positive) :
    HoldReturn outer id count (r.before ++ [⟨stmt.id, stmt.span, r.form⟩]) ↔
      stmt.HoldsReturn outer id count := by
  have hbefore : HoldReturn outer id count r.before ↔
      ∃ body, (∃ x ∈ r.before, body ∈ x.form.bodies) ∧ HoldReturn true id count body := by
    have hx : ∀ x ∈ r.before, (x.HoldsReturn outer id count ↔
        ∃ body ∈ x.form.bodies, HoldReturn true id count body) := by
      intro x hx
      rw [Stmt.holdsReturn_of_form (ne_ret_of_isFlat (h.before_flat hx)), h.before_inner hx]
      simp
    constructor
    · rintro ⟨x, hmem, hholds⟩
      obtain ⟨body, hbody, hret⟩ := (hx x hmem).1 hholds
      exact ⟨body, ⟨x, hmem, hbody⟩, hret⟩
    · rintro ⟨body, ⟨x, hmem, hbody⟩, hret⟩
      exact ⟨x, hmem, (hx x hmem).2 ⟨body, hbody, hret⟩⟩
  have hself : (∃ values, r.form = .ret values ∧ values.length = count) ↔
      ∃ values, stmt.form = .ret values ∧ values.length = count := by
    by_cases hret : ∃ values, stmt.form = .ret values
    · obtain ⟨values, hform⟩ := hret
      obtain ⟨_, _, ⟨_, _, _, _, _, hx, rfl, -⟩, hnew, -⟩ := h.takes.1 values hform
      simp [hform, hnew, extractList_length hx]
    · have hno (values) : stmt.form ≠ .ret values := fun hform => hret ⟨values, hform⟩
      simp [hno, (h.sites hno).1]
  simp only [holdReturn_append, holdReturn_cons, holdReturn_nil, or_false, hbefore,
    Stmt.holdsReturn_iff, hself, h.inner, h.bodies henv]
  grind

/-- The function literals of a return are those of what it becomes. -/
theorem Settles.bodies_iff {body} (h : Settles env plan stmt s new s') (hplan : plan.Ascending) :
    (∃ x ∈ new, body ∈ x.form.bodies) ↔ body ∈ stmt.form.bodies := by
  rw [← mem_bodiesOfStmts, (h.bodies_perm hplan).mem_iff]

theorem Settles.holdReturn (h : Settles env plan stmt s new s') (hplan : plan.Ascending) :
    HoldReturn false id count new ↔ stmt.HoldsReturn false id count := by
  have hinner : stmt.form.inner = [] := by
    cases h with
    | values hform | names hform | call hform | callOnly hform =>
      rw [hform]
      rfl
  have hnew : ∀ x ∈ new, (x.HoldsReturn false id count ↔
      ∃ body ∈ x.form.bodies, HoldReturn true id count body) := by
    intro x hx
    rw [Stmt.holdsReturn_iff, inner_of_isPlain (h.plain x hx)]
    simp
  rw [Stmt.holdsReturn_iff, hinner]
  simp only [Bool.false_eq_true, false_and, holdReturn_nil, false_or, ← h.bodies_iff hplan]
  constructor
  · rintro ⟨x, hx, hholds⟩
    obtain ⟨body, hbody, hret⟩ := (hnew x hx).1 hholds
    exact ⟨body, ⟨x, hx, hbody⟩, hret⟩
  · rintro ⟨body, ⟨x, hx, hbody⟩, hret⟩
    exact ⟨x, hx, (hnew x hx).2 ⟨body, hbody, hret⟩⟩

theorem LowersPlain.returns (h : LowersPlain env lowerBody form form' s s') :
    (∃ values, form' = .ret values ∧ values.length = count) ↔
      ∃ values, form = .ret values ∧ values.length = count := by
  cases h with
  | ret hvalues => simp [(lowerExprs_forall₂ hvalues).length_eq]
  | _ => simp

theorem LowersPlain.inner
    (h : LowersPlain env lowerBody form form' s s') : form.inner = [] ∧ form'.inner = [] := by
  cases h <;> exact ⟨rfl, rfl⟩

theorem split_holdReturn {names type value} (id' : NodeId)
    (hform : stmt.form = .decl ⟨.var, [.value names type [value]], span⟩)
    (hnew : Divided names stmt.span form) :
    (Stmt.HoldsReturn outer id count ⟨stmt.id, stmt.span, form⟩ ∨
      Stmt.HoldsReturn outer id count ⟨id', stmt.span,
        .assign (names.map fun name => .ident name.span name.val) .assign [value]⟩) ↔
      stmt.HoldsReturn outer id count := by
  have hfirst : ¬ Stmt.HoldsReturn outer id count ⟨stmt.id, stmt.span, form⟩ := by
    rcases hnew with rfl | ⟨vars, -, rfl⟩
    · simp [Stmt.holdsReturn_iff, StmtForm.inner, StmtForm.bodies, StmtForm.exprs, bodiesOfExprs]
    · simp [Stmt.holdsReturn_iff, StmtForm.inner]
  rw [or_iff_right hfirst, Stmt.holdsReturn_of_form (by simp),
    Stmt.holdsReturn_of_form (by simp [hform]), hform]
  simp [StmtForm.inner, StmtForm.bodies, StmtForm.exprs, Spec.values, bodiesOfExprs, Expr.bodies]

/-- No run loses a return in a function literal, makes one, or changes its number of values. -/
theorem Walks.keepsReturns {task} (h : Walks env task s s') (henv : env.Positive) (id : NodeId)
    (count : Nat) : task.KeepsReturns id count := by
  induction h with
  | nil | eachNil | noHeader | noBranch => exact fun _ _ => Iff.rfl
  | armsNil => exact fun _ _ => ⟨Iff.rfl, Iff.rfl⟩
  | bodiesNil => exact Iff.rfl
  | hoist _ hform _ ih =>
    intro outer hplan
    rw [ih outer hplan, holdReturn_cons, holdReturn_cons, withoutInit_holdsReturn _ _ hform]
  | post _ hform _ _ hparts _ _ ih ih' =>
    intro outer hplan
    have hpost := ih outer hplan
    rw [partition_holdReturn hparts, holdReturn_cons] at hpost
    simp only [holdReturn_nil, or_false] at hpost
    rw [ih' outer hplan, holdReturn_append, holdReturn_cons, holdReturn_cons, ← or_assoc,
      loop_holdsReturn hform _ hpost]
  | split _ hform hnew _ ih =>
    intro outer hplan
    rw [ih outer hplan, holdReturn_cons, holdReturn_cons, holdReturn_cons, ← or_assoc,
      split_holdReturn _ hform hnew]
  | replace _ hrewrites _ _ ih =>
    intro outer hplan
    rw [ih outer hplan, append_cons, holdReturn_append, hrewrites.holdReturn henv, holdReturn_cons]
  | settle _ _ _ hsettles _ _ ih ih' =>
    intro outer hplan
    rw [holdReturn_append, ih outer hplan, ih' outer hplan, holdReturn_cons]
    obtain ⟨hascending, rfl⟩ := hplan _ rfl
    exact or_congr (hsettles.holdReturn hascending) Iff.rfl
  | enter _ _ _ _ _ ih ih' | eachCons _ _ _ ih ih' =>
    intro outer hplan
    rw [holdReturn_cons, holdReturn_cons, ih outer hplan, ih' outer hplan]
  | plain _ hform _ ih =>
    intro outer _
    have hinner := hform.inner
    rw [Stmt.holdsReturn_iff, Stmt.holdsReturn_iff]
    rw [hinner.1, hinner.2, hform.returns]
    exact or_congr Iff.rfl (or_congr Iff.rfl ih)
  | block _ ih =>
    intro outer hplan
    rw [Stmt.holdsReturn_of_form (by simp), Stmt.holdsReturn_of_form (by simp)]
    simp only [StmtForm.inner, bodies_block, ih outer hplan]
  | cond _ _ _ _ _ ih1 ih2 ih3 ih4 =>
    intro outer hplan
    rw [Stmt.holdsReturn_of_form (by simp), Stmt.holdsReturn_of_form (by simp)]
    simp only [StmtForm.inner, bodies_cond, holdReturn_append, ih1 outer hplan, ih3 outer hplan,
      ih4 outer hplan]
    exact or_congr Iff.rfl ih2
  | switch _ _ _ _ ih1 ih2 ih3 =>
    intro outer hplan
    obtain ⟨harms, hlabels⟩ := ih3 outer hplan
    rw [Stmt.holdsReturn_of_form (by simp), Stmt.holdsReturn_of_form (by simp)]
    simp only [StmtForm.inner, bodies_switch, holdReturn_append, ih1 outer hplan, harms, mem_append,
      or_and_right, exists_or, hlabels]
    exact or_congr Iff.rfl (or_congr ih2 Iff.rfl)
  | loop _ _ _ _ _ ih1 ih2 ih3 ih4 =>
    intro outer hplan
    rw [Stmt.holdsReturn_of_form (by simp), Stmt.holdsReturn_of_form (by simp)]
    simp only [StmtForm.inner, bodies_loop, holdReturn_append, ih1 outer hplan, ih3 outer hplan,
      ih4 outer hplan]
    exact or_congr Iff.rfl ih2
  | range _ _ _ _ _ ih ih' =>
    intro outer hplan
    rw [Stmt.holdsReturn_of_form (by simp), Stmt.holdsReturn_of_form (by simp)]
    simp only [StmtForm.inner, bodies_range, ih' outer hplan]
    exact or_congr Iff.rfl ih
  | header _ _ _ ih | branch _ _ _ ih =>
    intro outer hplan
    simpa using ih outer hplan
  | inPlace _ hrewrites _ _ ih =>
    intro outer hplan
    simp only [Option.toList_some, holdReturn_cons, holdReturn_nil, or_false, ih outer hplan,
      ← hrewrites.holdReturn henv, nil_append]
  | wrap _ _ ih =>
    intro outer hplan
    simp only [Option.toList_some, holdReturn_cons, holdReturn_nil, or_false, ih outer hplan]
    rw [Stmt.holdsReturn_of_form (by simp)]
    simp [StmtForm.inner]
  | armsCons _ _ _ _ ih1 ih2 ih3 =>
    intro outer hplan
    obtain ⟨harms, hlabels⟩ := ih3 outer hplan
    simp only [flatMap_cons, holdReturn_append, ih2 outer hplan, harms, true_and,
      bodiesOfExprs_append, mem_append, or_and_right, exists_or, hlabels]
    exact or_congr ih1 Iff.rfl
  | bodiesCons _ _ ih ih' =>
    simp only [Task.KeepsReturns, exists_mem_cons_iff] at ih' ⊢
    exact or_congr (ih true (by simp)) ih'

end Literals

end Lowering

namespace Lowering

/-! ## Every return of a function -/

/-- What is given about the identities in a body when it is lowered in state `s`: its returns have
different ones, none of them was settled, and no statement has one that is still to come. -/
structure Fresh (stmts : List Stmt) (s : State) : Prop where
  distinct : (siteIds (sitesOfStmts [] stmts)).Nodup
  unsettled : ∀ id ∈ siteIds (sitesOfStmts [] stmts), id ∉ s.settled
  below : ∀ x ∈ stmts, ∀ y, Inside false x y → y.id < s.nextId

section Func

variable {env : Env} {func func' : FuncDecl} {base : NodeId}

/-- Where no identity is new, no statement is. -/
theorem Tidy.of_below (h : ∀ y, Inside false x y → y.id < base) : Tidy base x := by
  intro y hy
  refine ⟨fun hbase => absurd (h y hy) (Nat.not_lt.2 hbase), ?_⟩
  unfold PostBelow
  split
  · rename_i post _ hloop
    exact h post (hy.inner (by simp [hloop, StmtForm.inner]))
  · trivial

theorem Declares.isFlat (h : Declares place x) :
    x.isFlat = true ∧ ∀ targets op values, x.form ≠ .assign targets op values := by
  obtain ⟨-, vars, hform⟩ := h
  simp [Stmt.isFlat, hform]

theorem holdReturn_declares {outer count} (h : ∀ x ∈ xs, Declares place x) :
    ¬ HoldReturn outer id count xs := by
  rintro ⟨x, hx, hholds⟩
  obtain ⟨-, vars, hform⟩ := h x hx
  rw [Stmt.holdsReturn_of_form (by simp [hform]), hform] at hholds
  simp [StmtForm.inner] at hholds

theorem WalksDecl.literals (h : WalksDecl env (.func func) (.func func') s s')
    (henv : env.Positive) (id : NodeId) (count : Nat) :
    HoldReturn false id count (Decl.func func').stmts ↔
      HoldReturn false id count (Decl.func func).stmts := by
  cases h with
  | head => rfl
  | @func _ body locals out _ _ _ hbody hlocals _ hwalks =>
    have hrun := hwalks.keepsReturns henv id count false fun p hp =>
      ⟨ascending_of_lowerHead hp, rfl⟩
    rw [holdReturn_append, or_iff_right (holdReturn_declares hlocals)] at hrun
    simpa [Decl.stmts, hbody] using hrun

theorem WalksDecl.returns (h : WalksDecl env (.func func) (.func func') s s')
    (hplan : (lowerHead func).plan = some plan) (hfresh : Fresh (Decl.func func).stmts s) :
    Forall₂ (env.Settled plan s.nextId) (sitesOfStmts [] (Decl.func func).stmts)
      (sitesOfStmts [] (Decl.func func').stmts) := by
  cases h with
  | head hbody =>
    have hsame : (lowerHead func).func.body = func.body := rfl
    simp [Decl.stmts, hsame, hbody, sitesOfStmts]
  | @func _ body locals out _ s1 _ hbody hlocals hissues hwalks =>
    have hstmts : (Decl.func func).stmts = body.stmts := by simp [Decl.stmts, hbody]
    rw [hstmts] at hfresh ⊢
    have htidy : ∀ x ∈ locals ++ body.stmts, Tidy s.nextId x := by
      intro x hx
      rcases mem_append.1 hx with hx | hx
      · obtain ⟨hflat, hform⟩ := (hlocals x hx).isFlat
        exact .of_flat hflat (.of_form hform)
      · exact .of_below (hfresh.below x hx)
    have htwo := two_le_total hplan
    rw [hplan] at hwalks
    have hrun := hwalks.followsPlan ⟨ascending_of_lowerHead hplan, by omega⟩ rfl hissues.nextId
      htidy [] [] .nil (by simp [Clean])
    rw [sitesOfStmts_append, sitesOfStmts_of_isFlat fun x hx => (hlocals x hx).isFlat.1, nil_append]
      at hrun
    have hbare := hrun.serves (serves_sitesOfStmts (fun _ _ => .nil) body.stmts)
    exact (hbare.shift hissues.settled hfresh.distinct hfresh.unsettled).2

end Func

end Lowering

open Lowering

end ScriptLowering
