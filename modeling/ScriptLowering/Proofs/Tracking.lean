import ScriptLowering.Proofs.ReturnWalk

/-!
# Following one statement through a run

A statement that the rules turn into something else, step after step, is found in the lowered body
in the end: if some property survives every rule and gives another one when the statement is
entered, then each statement with the first property leads to one with the second. This is proved
once here, for a statement at any depth, and used with the properties that matter.
-/

namespace ScriptLowering

open List

variable {P Q : Bool → Stmt → Prop} {form : StmtForm} {init : Option Stmt} {file : SourceFile}
  {decl : Decl}

/-! ## Where a statement can stand -/

/-- The initializer and the post statement of a form, and what is in their place in the forms that
are not lowered. -/
def StmtForm.headers : StmtForm → List Stmt
  | .cond init _ _ _ | .switch init _ _ => init.toList
  | .typeSwitch init guard _ => init.toList ++ [guard]
  | .select clauses => clauses.flatMap (·.comm.toList)
  | .loop init _ post _ => init.toList ++ post.toList
  | _ => []

/-- What follows an `else`. -/
def StmtForm.branch? : StmtForm → Option Stmt
  | .cond _ _ _ otherwise => otherwise
  | _ => none

/-- The statement lists that are parts of a form: bodies and arms. -/
def StmtForm.blocks : StmtForm → List (List Stmt)
  | .labeled _ stmt => [[stmt]]
  | .block body | .cond _ _ body _ | .loop _ _ _ body | .range _ _ _ _ body => [body.stmts]
  | .switch _ _ clauses | .typeSwitch _ _ clauses => clauses.map (·.body)
  | .select clauses => clauses.map (·.body)
  | _ => []

/-- All statement lists of a form, those of its function literals among them. -/
def StmtForm.lists (form : StmtForm) : List (List Stmt) := form.bodies ++ form.blocks

/-- The second statement stands in the first: in a list (`listed`) or in a header. -/
inductive Nested : (listed : Bool) → Stmt → Stmt → Prop
  | header {x y} : y ∈ x.form.headers → Nested false x y
  | inHeader {listed x y z} : y ∈ x.form.headers → Nested listed y z → Nested listed x z
  | inBranch {listed x y z} : y ∈ x.form.branch? → Nested listed y z → Nested listed x z
  | member {x y xs} : xs ∈ x.form.lists → y ∈ xs → Nested true x y
  | inMember {listed x y z xs} : xs ∈ x.form.lists → y ∈ xs → Nested listed y z →
    Nested listed x z

/-- A statement with the property stands in `x`. -/
def Deep (P : Bool → Stmt → Prop) (x : Stmt) : Prop := ∃ listed y, Nested listed x y ∧ P listed y

/-- A statement with the property stands in the list or in a member of it. -/
def Listed (P : Bool → Stmt → Prop) (xs : List Stmt) : Prop := ∃ x ∈ xs, P true x ∨ Deep P x

section Deep

variable {P : Bool → Stmt → Prop} {x : Stmt} {xs ys : List Stmt}

theorem deep_iff : Deep P x ↔ (∃ y ∈ x.form.headers, P false y ∨ Deep P y) ∨
    (∃ y ∈ x.form.branch?, Deep P y) ∨ ∃ xs ∈ x.form.lists, Listed P xs := by
  constructor
  · rintro ⟨listed, y, hy, hp⟩
    cases hy with
    | header hy => exact .inl ⟨y, hy, .inl hp⟩
    | inHeader hz hy => exact .inl ⟨_, hz, .inr ⟨listed, y, hy, hp⟩⟩
    | inBranch hz hy => exact .inr (.inl ⟨_, hz, listed, y, hy, hp⟩)
    | member hxs hy => exact .inr (.inr ⟨_, hxs, y, hy, .inl hp⟩)
    | inMember hxs hz hy => exact .inr (.inr ⟨_, hxs, _, hz, .inr ⟨listed, y, hy, hp⟩⟩)
  · rintro (⟨y, hy, hp | ⟨listed, z, hz, hp⟩⟩ | ⟨y, hy, listed, z, hz, hp⟩ |
      ⟨xs, hxs, y, hy, hp | ⟨listed, z, hz, hp⟩⟩)
    · exact ⟨false, y, .header hy, hp⟩
    · exact ⟨listed, z, .inHeader hy hz, hp⟩
    · exact ⟨listed, z, .inBranch hy hz, hp⟩
    · exact ⟨true, y, .member hxs hy, hp⟩
    · exact ⟨listed, z, .inMember hxs hy hz, hp⟩

theorem exists_mem_append {α : Type} {p : α → Prop} {l l' : List α} :
    (∃ x ∈ l ++ l', p x) ↔ (∃ x ∈ l, p x) ∨ ∃ x ∈ l', p x := by
  simp [or_and_right, exists_or]

@[simp] theorem listed_nil : ¬ Listed P [] := by simp [Listed]

@[simp] theorem listed_cons : Listed P (x :: xs) ↔ (P true x ∨ Deep P x) ∨ Listed P xs := by
  simp [Listed]

@[simp] theorem listed_append : Listed P (xs ++ ys) ↔ Listed P xs ∨ Listed P ys :=
  exists_mem_append

theorem deep_of_lists {y} (hheaders : x.form.headers = y.form.headers)
    (hbranch : x.form.branch? = y.form.branch?) (hblocks : x.form.blocks = y.form.blocks)
    (hbodies : ∀ body ∈ x.form.bodies, Listed P body → body ∈ y.form.bodies) (h : Deep P x) :
    Deep P y := by
  rw [deep_iff] at h ⊢
  rw [hheaders, hbranch] at h
  refine h.imp_right (Or.imp_right ?_)
  rintro ⟨xs, hxs, hlisted⟩
  refine ⟨xs, ?_, hlisted⟩
  rcases mem_append.1 hxs with hxs | hxs
  · exact mem_append_left _ (hbodies xs hxs hlisted)
  · exact mem_append_right _ (hblocks ▸ hxs)

theorem Deep.mono (hq : ∀ listed y, P listed y → Q listed y) (h : Deep P x) : Deep Q x := by
  obtain ⟨listed, y, hy, hp⟩ := h
  exact ⟨listed, y, hy, hq listed y hp⟩

theorem Listed.mono (hq : ∀ listed y, P listed y → Q listed y) (h : Listed P xs) : Listed Q xs := by
  obtain ⟨x, hx, hp⟩ := h
  exact ⟨x, hx, hp.imp (hq true x) (Deep.mono hq)⟩

/-- A statement inside a form stands in its header, follows its `else`, or stands in a list. -/
theorem StmtForm.inner_cases (h : x ∈ form.inner) :
    x ∈ form.headers ∨ x ∈ form.branch? ∨ ∃ xs ∈ form.blocks, x ∈ xs := by
  cases form with
  | labeled | block | range => exact .inr (.inr ⟨_, mem_singleton_self _, h⟩)
  | cond init test body otherwise =>
    simp only [StmtForm.inner, mem_append, Option.mem_toList] at h
    rcases h with (h | h) | h
    · exact .inl (Option.mem_toList.2 h)
    · exact .inr (.inr ⟨_, mem_singleton_self _, h⟩)
    · exact .inr (.inl h)
  | loop init test post body =>
    simp only [StmtForm.inner, mem_append] at h
    rcases h with h | h
    · exact .inl (mem_append.2 h)
    · exact .inr (.inr ⟨_, mem_singleton_self _, h⟩)
  | switch init tag clauses =>
    simp only [StmtForm.inner, mem_append, mem_flatMap] at h
    rcases h with h | ⟨clause, hclause, h⟩
    · exact .inl h
    · exact .inr (.inr ⟨_, mem_map_of_mem hclause, h⟩)
  | typeSwitch init guard clauses =>
    simp only [StmtForm.inner, mem_append, mem_cons, mem_flatMap] at h
    rcases h with h | rfl | ⟨clause, hclause, h⟩
    · exact .inl (mem_append_left _ h)
    · exact .inl (mem_append_right _ (mem_singleton_self _))
    · exact .inr (.inr ⟨_, mem_map_of_mem hclause, h⟩)
  | select clauses =>
    simp only [StmtForm.inner, mem_append, mem_flatMap] at h
    obtain ⟨clause, hclause, h | h⟩ := h
    · exact .inl (mem_flatMap.2 ⟨clause, hclause, h⟩)
    · exact .inr (.inr ⟨_, mem_map_of_mem hclause, h⟩)
  | _ => simp [StmtForm.inner] at h

theorem StmtForm.mem_inner
    (h : x ∈ form.headers ∨ x ∈ form.branch? ∨ ∃ xs ∈ form.blocks, x ∈ xs) : x ∈ form.inner := by
  cases form <;>
    simp only [StmtForm.headers, StmtForm.branch?, StmtForm.blocks, StmtForm.inner, mem_append,
      Option.mem_toList, Option.mem_def] at * <;> grind

theorem Nested.inside {listed y} (h : Nested listed x y) : ∃ literal, Inside literal x y := by
  have hlist {x y z : Stmt} {xs : List Stmt} {literal : Bool} (hxs : xs ∈ x.form.lists)
      (hy : y ∈ xs) (hz : Inside literal y z) : ∃ literal, Inside literal x z := by
    rcases mem_append.1 hxs with hxs | hxs
    · exact ⟨true, .body hxs hy hz⟩
    · exact ⟨literal, .part (StmtForm.mem_inner (.inr (.inr ⟨xs, hxs, hy⟩))) hz⟩
  induction h with
  | header hy => exact ⟨false, .part (StmtForm.mem_inner (.inl hy)) .self⟩
  | inHeader hy _ ih =>
    obtain ⟨literal, hz⟩ := ih
    exact ⟨literal, .part (StmtForm.mem_inner (.inl hy)) hz⟩
  | inBranch hy _ ih =>
    obtain ⟨literal, hz⟩ := ih
    exact ⟨literal, .part (StmtForm.mem_inner (.inr (.inl hy))) hz⟩
  | member hxs hy => exact hlist hxs hy .self
  | inMember hxs hy _ ih =>
    obtain ⟨literal, hz⟩ := ih
    exact hlist hxs hy hz

/-- Where headers are as the grammar gives them, a statement that is no condition and no block
stands in a list or a header. -/
theorem Inside.deep {literal y} (h : Inside literal y x)
    (hheaded : ∀ literal z, Inside literal y z → z.form.Headed) (hx : x.isBranch = false) :
    x = y ∨ Deep (fun _ z => z = x) y := by
  induction h with
  | self => exact .inl rfl
  | @part _ y z x hz _ ih =>
    refine .inr (deep_iff.2 ?_)
    have hrest := ih (fun l w hw => hheaded l w (.part hz hw)) hx
    rcases StmtForm.inner_cases hz with hz' | hz' | ⟨xs, hxs, hz'⟩
    · exact .inl ⟨z, hz', hrest.imp_left Eq.symm⟩
    · rcases hrest with rfl | hrest
      · have hbranch : x.isBranch = true := by
          have hform := hheaded false y .self
          cases hcond : y.form with
          | cond init test body otherwise =>
            rw [hcond] at hform hz'
            exact hform.2 x hz'
          | _ => simp [hcond, StmtForm.branch?] at hz'
        simp [hx] at hbranch
      · exact .inr (.inl ⟨z, hz', hrest⟩)
    · exact .inr (.inr ⟨xs, mem_append_right _ hxs, z, hz', hrest.imp_left Eq.symm⟩)
  | @body _ _ z _ stmts hstmts hz _ ih =>
    have hrest := ih (fun l w hw => hheaded true w (.body hstmts hz hw)) hx
    refine .inr (deep_iff.2 (.inr (.inr ⟨stmts, mem_append_left _ hstmts, z, hz, ?_⟩)))
    exact hrest.imp_left Eq.symm

end Deep

namespace Lowering

section Rules

variable {env : Env} {P : Bool → Stmt → Prop} {stmt : Stmt} {r : Replacement}

theorem headers_of_isPlain (h : isPlain form = true) :
    form.headers = [] ∧ form.branch? = none ∧ form.blocks = [] := by
  cases form with
  | labeled | block | cond | switch | typeSwitch | select | loop | range => simp [isPlain] at h
  | _ => exact ⟨rfl, rfl, rfl⟩

/-- In a statement that holds no statements only function literals are left. -/
theorem deep_of_isPlain (h : isPlain stmt.form = true) :
    Deep P stmt ↔ ∃ xs ∈ stmt.form.bodies, Listed P xs := by
  obtain ⟨hheaders, hbranch, hblocks⟩ := headers_of_isPlain h
  rw [deep_iff, hheaders, hbranch, StmtForm.lists, hblocks]
  simp

theorem Rewrites.blocks (h : Rewrites env stmt r) :
    r.form.headers = stmt.form.headers ∧ r.form.branch? = stmt.form.branch? ∧
      r.form.blocks = stmt.form.blocks := by
  obtain ⟨id, span, form⟩ := stmt
  obtain ⟨before, form'⟩ := r
  cases h.reforms with
  | action ha ha' => cases ha <;> cases ha' <;> exact ⟨rfl, rfl, rfl⟩
  | without _ hx => cases hx <;> exact ⟨rfl, rfl, rfl⟩

/-- A rule leaves what stands in a statement in what it leaves, or puts it in front. -/
theorem Rewrites.deep (h : Rewrites env stmt r) (henv : env.Positive) (hdeep : Deep P stmt) :
    (∃ x ∈ r.before, Deep P x) ∨ Deep P ⟨stmt.id, stmt.span, r.form⟩ := by
  obtain ⟨hheaders, hbranch, hblocks⟩ := h.blocks
  by_cases hfront : ∃ x ∈ r.before, ∃ body ∈ x.form.bodies, Listed P body
  · obtain ⟨x, hx, hbody⟩ := hfront
    exact .inl ⟨x, hx, (deep_of_isPlain (h.before_isPlain hx)).2 hbody⟩
  · refine .inr (deep_of_lists hheaders.symm hbranch.symm hblocks.symm ?_ hdeep)
    intro body hbody hlisted
    rcases (h.bodies henv).1 hbody with ⟨x, hx, hbody⟩ | hbody
    · exact absurd ⟨x, hx, body, hbody, hlisted⟩ hfront
    · exact hbody

theorem withoutInit_deep {init inner} (id : NodeId) (place : Span)
    (hmoves : ∀ x, P false x → P true x) (h : stmt.form.withoutInit = some (init, inner))
    (hdeep : Deep P stmt) :
    Deep P ⟨id, stmt.span, .block ⟨[init, ⟨stmt.id, stmt.span, inner⟩], place⟩⟩ := by
  have hblocks : stmt.form.headers = init :: inner.headers ∧
      stmt.form.branch? = inner.branch? ∧ stmt.form.blocks = inner.blocks := by
    obtain ⟨id, span, form⟩ := stmt
    cases StmtForm.opens h <;> exact ⟨rfl, rfl, rfl⟩
  have hlisted : Listed P [init, ⟨stmt.id, stmt.span, inner⟩] := by
    rw [deep_iff, hblocks.1, hblocks.2.1, StmtForm.lists, hblocks.2.2, ← withoutInit_bodies h]
      at hdeep
    rw [listed_cons, listed_cons]
    rcases hdeep with ⟨y, hy, hp⟩ | hrest
    · rcases mem_cons.1 hy with rfl | hy
      · exact .inl (hp.imp_left (hmoves y))
      · exact .inr (.inl (.inr (deep_iff.2 (.inl ⟨y, hy, hp⟩))))
    · exact .inr (.inl (.inr (deep_iff.2 (.inr hrest))))
  rw [deep_iff]
  exact .inr (.inr ⟨_, mem_append_right _ (mem_singleton_self _), hlisted⟩)

end Rules

/-! ## A property that survives -/

/-- `P` survives every rule at a statement, and entering a statement with `P` leaves one with `G`,
which has `P` again. The flag says whether the statement stands in a list or in a header. -/
structure Env.Tracks (env : Env) (P G : Bool → Stmt → Prop) : Prop where
  flat : ∀ {listed x}, P listed x → x.isFlat = true
  moves : ∀ {x}, P false x → P true x
  again : ∀ {listed x}, G listed x → P listed x
  back : ∀ {x y}, P false x → G true y → P false y
  noDecl : ∀ {listed x}, G listed x → isDeclaration x = false
  rewrite : ∀ {x r}, P true x → Rewrites env x r → P true ⟨x.id, x.span, r.form⟩
  split : ∀ {x id names type value span form}, P true x →
    x.form = .decl ⟨.var, [.value names type [value]], span⟩ →
    P true ⟨x.id, x.span, form⟩ ∨ P true ⟨id, x.span,
      .assign (names.map fun name => .ident name.span name.val) .assign [value]⟩
  enter : ∀ {listed x y}, P listed x → env.Idle x → env.Entered x y → G listed y
  inPlace : ∀ {x y form}, P false x → Rewrites env x ⟨[], form⟩ →
    env.Entered ⟨x.id, x.span, form⟩ y → G false y

/-- What a run does with statements that have `P`. -/
def Task.Tracked (P G : Bool → Stmt → Prop) : Task → Prop
  | .seq plan xs ys | .each plan xs ys => (∀ p ∈ plan, p.Ascending) →
    ((∃ x ∈ xs, P true x) → ∃ y ∈ ys, G true y) ∧ ((∃ x ∈ xs, Deep P x) → ∃ y ∈ ys, Deep G y)
  | .stmt plan x y => (∀ p ∈ plan, p.Ascending) → Deep P x → Deep G y
  | .header plan x y => (∀ p ∈ plan, p.Ascending) →
    (∃ x' ∈ x, P false x' ∨ Deep P x') → ∃ y' ∈ y, G false y' ∨ Deep G y'
  | .branch plan x y => (∀ p ∈ plan, p.Ascending) → (∃ x' ∈ x, Deep P x') → ∃ y' ∈ y, Deep G y'
  | .arms plan cs ds => (∀ p ∈ plan, p.Ascending) →
    ((∃ xs ∈ cs.map (·.body), Listed P xs) → ∃ ys ∈ ds.map (·.body), Listed G ys) ∧
    ((∃ xs ∈ bodiesOfExprs (cs.flatMap CaseClause.labels), Listed P xs) →
      ∃ ys ∈ bodiesOfExprs (ds.flatMap CaseClause.labels), Listed G ys)
  | .bodies bs bs' => (∃ xs ∈ bs, Listed P xs) → ∃ ys ∈ bs', Listed G ys

section Forms

variable {P : Bool → Stmt → Prop} {id : NodeId} {span place : Span} {stmts : List Stmt}

theorem deep_block : Deep P ⟨id, span, .block ⟨stmts, place⟩⟩ ↔ Listed P stmts := by
  rw [deep_iff]
  simp [StmtForm.headers, StmtForm.branch?, StmtForm.lists, StmtForm.blocks]

theorem deep_cond {otherwise : Option Stmt} {test : Expr} :
    Deep P ⟨id, span, .cond init test ⟨stmts, place⟩ otherwise⟩ ↔
      (∃ y ∈ init, P false y ∨ Deep P y) ∨ (∃ y ∈ otherwise, Deep P y) ∨
        (∃ xs ∈ test.bodies, Listed P xs) ∨ Listed P stmts := by
  rw [deep_iff]
  simp only [StmtForm.headers, StmtForm.branch?, StmtForm.lists, StmtForm.blocks, bodies_cond,
    Option.mem_toList, exists_mem_append, mem_singleton, exists_eq_left, Option.mem_def]

theorem deep_switch {tag : Option Expr} {clauses : List CaseClause} :
    Deep P ⟨id, span, .switch init tag clauses⟩ ↔
      (∃ y ∈ init, P false y ∨ Deep P y) ∨ (∃ xs ∈ bodiesOfExpr? tag, Listed P xs) ∨
        (∃ xs ∈ bodiesOfExprs (clauses.flatMap CaseClause.labels), Listed P xs) ∨
        ∃ xs ∈ clauses.map (·.body), Listed P xs := by
  rw [deep_iff]
  simp only [StmtForm.headers, StmtForm.branch?, StmtForm.lists, StmtForm.blocks, bodies_switch,
    Option.mem_toList, exists_mem_append, or_assoc, Option.mem_def, reduceCtorEq, false_and,
    exists_false, false_or]

theorem deep_loop {post : Option Stmt} {test : Option Expr} :
    Deep P ⟨id, span, .loop init test post ⟨stmts, place⟩⟩ ↔
      (∃ y ∈ init, P false y ∨ Deep P y) ∨ (∃ y ∈ post, P false y ∨ Deep P y) ∨
        (∃ xs ∈ bodiesOfExpr? test, Listed P xs) ∨ Listed P stmts := by
  rw [deep_iff]
  simp only [StmtForm.headers, StmtForm.branch?, StmtForm.lists, StmtForm.blocks, bodies_loop,
    Option.mem_toList, exists_mem_append, mem_singleton, exists_eq_left, or_assoc,
    Option.mem_def, reduceCtorEq, false_and, exists_false, false_or]

theorem deep_range {key value : Option Expr} {defines : Bool} {subject} :
    Deep P ⟨id, span, .range key value defines subject ⟨stmts, place⟩⟩ ↔
      (∃ xs ∈ bodiesOfExpr? key ++ bodiesOfExpr? value ++ subject.bodies, Listed P xs) ∨
        Listed P stmts := by
  rw [deep_iff, StmtForm.lists, bodies_range]
  simp only [StmtForm.headers, StmtForm.branch?, StmtForm.blocks, exists_mem_append, or_assoc,
    mem_singleton, exists_eq_left, not_mem_nil, Option.mem_def, reduceCtorEq, false_and,
    exists_false, false_or]

end Forms

section Runs

variable {env : Env} {P G : Bool → Stmt → Prop} {s s' : State}

theorem Walks.stmt_flat {plan x y} (h : Walks env (.stmt plan x y) s s') (hflat : x.isFlat = true) :
    env.Entered x y := by
  refine (h.stmt_plain ?_).1
  cases h with
  | plain _ hform => cases hform <;> rfl
  | _ => simp [Stmt.isFlat] at hflat

theorem LowersPlain.isPlain {lowerBody form'} (h : LowersPlain env lowerBody form form' s s') :
    isPlain form = true ∧ Lowering.isPlain form' = true := by
  cases h <;> exact ⟨rfl, rfl⟩

/-- A list, from its members and what stands in them. -/
theorem listed_of {xs ys}
    (h : ((∃ x ∈ xs, P true x) → ∃ y ∈ ys, G true y) ∧ ((∃ x ∈ xs, Deep P x) → ∃ y ∈ ys, Deep G y))
    (hxs : Listed P xs) : Listed G ys := by
  obtain ⟨x, hx, hp | hp⟩ := hxs
  · obtain ⟨y, hy, hg⟩ := h.1 ⟨x, hx, hp⟩
    exact ⟨y, hy, .inl hg⟩
  · obtain ⟨y, hy, hg⟩ := h.2 ⟨x, hx, hp⟩
    exact ⟨y, hy, .inr hg⟩

theorem Settles.deep {plan stmt new} (h : Settles env plan stmt s new s') (hplan : plan.Ascending)
    (hdeep : Deep P stmt) : ∃ x ∈ new, Deep P x := by
  have hplain : isPlain stmt.form = true := by
    cases h with
    | values hform | names hform | call hform | callOnly hform => simp [hform, isPlain]
  obtain ⟨body, hbody, hlisted⟩ := (deep_of_isPlain hplain).1 hdeep
  obtain ⟨x, hx, hbody⟩ := (h.bodies_iff hplan).2 hbody
  exact ⟨x, hx, (deep_of_isPlain (h.plain x hx)).2 ⟨body, hbody, hlisted⟩⟩

theorem Settles.not_flat {plan stmt new} (h : Settles env plan stmt s new s') :
    stmt.isFlat = false := by
  cases h with
  | values hform | names hform | call hform | callOnly hform => simp [Stmt.isFlat, hform]

theorem Env.Tracks.nested (h : env.Tracks P G) {x} (hdeep : Deep G x) : Deep P x := by
  obtain ⟨listed, y, hy, hg⟩ := hdeep
  exact ⟨listed, y, hy, h.again hg⟩

/-- Every statement with `P` leads to one with `G`. -/
theorem Walks.tracked {task : Task} (h : Walks env task s s') (henv : env.Positive)
    (htracks : env.Tracks P G) : task.Tracked P G := by
  induction h with
  | nil | eachNil => exact fun _ => ⟨by simp, by simp⟩
  | noHeader => exact fun _ => by simp
  | noBranch => exact fun _ => by simp
  | armsNil => exact fun _ => ⟨by simp, by simp [bodiesOfExprs]⟩
  | bodiesNil => exact fun h => by simp at h
  | hoist _ hform _ ih =>
    intro hplan
    obtain ⟨htop, hdeep⟩ := ih hplan
    simp only [exists_mem_cons_iff] at htop hdeep ⊢
    constructor
    · rintro (hp | hp)
      · have hflat := htracks.flat hp
        simp [withoutInit_of_isFlat hform] at hflat
      · exact htop (.inr hp)
    · rintro (hp | hp)
      · exact hdeep (.inl (withoutInit_deep _ _ (fun _ => htracks.moves) hform hp))
      · exact hdeep (.inr hp)
  | @post _ stmt _ _ init test post post' body posts decls _ _ _ _ hform _ _ hparts hdecls _ ih
      ih' =>
    intro hplan
    obtain ⟨htop, hdeep⟩ := ih hplan
    obtain ⟨htop', hdeep'⟩ := ih' hplan
    simp only [exists_mem_cons_iff, exists_mem_append] at htop' hdeep' ⊢
    have hmem : ∀ y ∈ posts, y ∈ decls ∨ y = post' := by
      intro y hy
      exact (mem_cons.1 ((perm_of_partition hparts).mem_iff.2 hy)).symm
    obtain ⟨stmts, place⟩ := body
    have hloop : Deep P stmt → (∃ y ∈ decls, Deep P y) ∨
        Deep P ⟨stmt.id, stmt.span, .loop init test (some post') ⟨stmts, place⟩⟩ := by
      intro hp
      obtain ⟨id, span, form⟩ := stmt
      obtain rfl : form = _ := hform
      rw [deep_loop] at hp ⊢
      rcases hp with hp | ⟨y, hy, hp⟩ | hp
      · exact .inr (.inl hp)
      · obtain rfl : post = y := by simpa using hy
        rcases hp with hp | hp
        · obtain ⟨z, hz, hg⟩ := htop ⟨post, mem_singleton_self _, htracks.moves hp⟩
          rcases hmem z hz with hz | rfl
          · have hdecl := hdecls z hz
            simp [htracks.noDecl hg] at hdecl
          · exact .inr (.inr (.inl ⟨z, rfl, .inl (htracks.back hp hg)⟩))
        · obtain ⟨z, hz, hg⟩ := hdeep ⟨post, mem_singleton_self _, hp⟩
          rcases hmem z hz with hz | rfl
          · exact .inl ⟨z, hz, htracks.nested hg⟩
          · exact .inr (.inr (.inl ⟨z, rfl, .inr (htracks.nested hg)⟩))
      · exact .inr (.inr (.inr hp))
    constructor
    · rintro (hp | hp)
      · have hflat := htracks.flat hp
        simp [Stmt.isFlat, hform] at hflat
      · exact htop' (.inr (.inr hp))
    · rintro (hp | hp)
      · rcases hloop hp with hp | hp
        · exact hdeep' (.inl hp)
        · exact hdeep' (.inr (.inl hp))
      · exact hdeep' (.inr (.inr hp))
  | split _ hform _ _ ih =>
    intro hplan
    obtain ⟨htop, hdeep⟩ := ih hplan
    simp only [exists_mem_cons_iff] at htop hdeep ⊢
    constructor
    · rintro (hp | hp)
      · rcases htracks.split hp hform with hp | hp
        · exact htop (.inl hp)
        · exact htop (.inr (.inl hp))
      · exact htop (.inr (.inr hp))
    · rintro (hp | hp)
      · refine hdeep (.inr (.inl ?_))
        rw [deep_of_isPlain (by simp [hform, isPlain])] at hp
        rw [deep_of_isPlain rfl]
        rw [hform] at hp
        simpa [StmtForm.bodies, StmtForm.exprs, Spec.values, bodiesOfExprs, Expr.bodies] using hp
      · exact hdeep (.inr (.inr hp))
  | replace _ hrewrites _ _ ih =>
    intro hplan
    obtain ⟨htop, hdeep⟩ := ih hplan
    simp only [exists_mem_cons_iff, exists_mem_append] at htop hdeep ⊢
    constructor
    · rintro (hp | hp)
      · exact htop (.inr (.inl (htracks.rewrite hp hrewrites)))
      · exact htop (.inr (.inr hp))
    · rintro (hp | hp)
      · rcases hrewrites.deep henv hp with hp | hp
        · exact hdeep (.inl hp)
        · exact hdeep (.inr (.inl hp))
      · exact hdeep (.inr (.inr hp))
  | settle _ _ _ hsettles _ _ ih ih' =>
    intro hplan
    obtain ⟨-, hdeep⟩ := ih hplan
    obtain ⟨htop', hdeep'⟩ := ih' hplan
    simp only [exists_mem_cons_iff, exists_mem_append]
    constructor
    · rintro (hp | hp)
      · have hflat := htracks.flat hp
        simp [hsettles.not_flat] at hflat
      · exact .inr (htop' hp)
    · rintro (hp | hp)
      · exact .inl (hdeep (hsettles.deep (hplan _ rfl) hp))
      · exact .inr (hdeep' hp)
  | enter _ hquiet _ hwalk _ ih ih' | eachCons hquiet hwalk _ ih ih' =>
    intro hplan
    obtain ⟨htop', hdeep'⟩ := ih' hplan
    simp only [exists_mem_cons_iff]
    constructor
    · rintro (hp | hp)
      · exact .inl (htracks.enter hp hquiet.idle (hwalk.stmt_flat (htracks.flat hp)))
      · exact .inr (htop' hp)
    · rintro (hp | hp)
      · exact .inl (ih hplan hp)
      · exact .inr (hdeep' hp)
  | plain _ hform _ ih =>
    intro _
    rw [deep_of_isPlain hform.isPlain.1, deep_of_isPlain hform.isPlain.2]
    exact ih
  | block _ ih =>
    intro hplan
    rw [deep_block, deep_block]
    exact listed_of (ih hplan)
  | cond _ _ _ _ _ ih1 ih2 ih3 ih4 =>
    intro hplan
    rw [deep_cond, deep_cond]
    exact Or.imp (ih1 hplan) (Or.imp (ih4 hplan) (Or.imp ih2 (listed_of (ih3 hplan))))
  | switch _ _ _ _ ih1 ih2 ih3 =>
    intro hplan
    obtain ⟨harms, hlabels⟩ := ih3 hplan
    rw [deep_switch, deep_switch]
    exact Or.imp (ih1 hplan) (Or.imp ih2 (Or.imp hlabels harms))
  | loop _ _ _ _ _ ih1 ih2 ih3 ih4 =>
    intro hplan
    rw [deep_loop, deep_loop]
    exact Or.imp (ih1 hplan) (Or.imp (ih3 hplan) (Or.imp ih2 (listed_of (ih4 hplan))))
  | range _ _ _ _ _ ih ih' =>
    intro hplan
    rw [deep_range, deep_range]
    exact Or.imp ih (listed_of (ih' hplan))
  | header _ hidle hwalk ih =>
    intro hplan
    simp only [Option.mem_def, Option.some.injEq, exists_eq_left']
    rintro (hp | hp)
    · exact .inl (htracks.enter hp hidle (hwalk.stmt_flat (htracks.flat hp)))
    · exact .inr (ih hplan hp)
  | inPlace _ hrewrites _ hwalk ih =>
    intro hplan
    simp only [Option.mem_def, Option.some.injEq, exists_eq_left']
    rintro (hp | hp)
    · have hflat := hrewrites.flat (htracks.flat hp)
      exact .inl (htracks.inPlace hp hrewrites (hwalk.stmt_flat hflat))
    · refine .inr (ih hplan ?_)
      simpa using hrewrites.deep henv hp
  | branch _ _ _ ih =>
    intro hplan
    simpa using ih hplan
  | wrap _ _ ih =>
    intro hplan
    have hblock := ih hplan
    rw [deep_block, listed_cons] at hblock
    simpa using fun hdeep => hblock (.inl (.inr hdeep))
  | armsCons _ _ _ _ ih1 ih2 ih3 =>
    intro hplan
    obtain ⟨harms, hlabels⟩ := ih3 hplan
    simp only [map_cons, exists_mem_cons_iff, flatMap_cons, bodiesOfExprs_append,
      exists_mem_append]
    exact ⟨Or.imp (listed_of (ih2 hplan)) harms, Or.imp ih1 hlabels⟩
  | bodiesCons _ _ ih ih' =>
    simp only [Task.Tracked, exists_mem_cons_iff]
    exact Or.imp (listed_of (ih (by simp))) ih'

end Runs

end Lowering

/-! ## Whole files -/

/-- The statement lists of a declaration: the body of a function, or those of function literals. -/
def Decl.lists : Decl → List (List Stmt)
  | .func decl => [(decl.body.map Block.stmts).getD []]
  | .gen decl => bodiesOfExprs (decl.specs.flatMap Spec.values)

/-- A statement with the property stands in the file. -/
def SourceFile.Contains (file : SourceFile) (P : Bool → Stmt → Prop) : Prop :=
  ∃ decl ∈ file.decls, ∃ xs ∈ decl.lists, Listed P xs

theorem SourceFile.Contains.mono
    (hq : ∀ listed y, P listed y → Q listed y) (h : file.Contains P) : file.Contains Q := by
  obtain ⟨decl, hdecl, xs, hxs, hlisted⟩ := h
  exact ⟨decl, hdecl, xs, hxs, hlisted.mono hq⟩

theorem Decl.mem_stmts {x} (h : x ∈ decl.stmts) : ∃ xs ∈ decl.lists, x ∈ xs := by
  cases decl with
  | func decl => exact ⟨_, mem_singleton_self _, h⟩
  | gen decl => exact mem_flatten.1 h

theorem Decl.stmts_of_lists {x xs} (hxs : xs ∈ decl.lists) (hx : x ∈ xs) : x ∈ decl.stmts := by
  cases decl with
  | func decl =>
    obtain rfl := mem_singleton.1 hxs
    exact hx
  | gen decl => exact mem_flatten.2 ⟨xs, hxs, hx⟩

/-- What a file contains it holds. -/
theorem SourceFile.Contains.holds
    (h : file.Contains P) : ∃ x listed, file.Holds x ∧ P listed x := by
  obtain ⟨decl, hdecl, xs, hxs, y, hy, hp | ⟨listed, x, hx, hp⟩⟩ := h
  · exact ⟨y, true, ⟨decl, hdecl, y, Decl.stmts_of_lists hxs hy, false, .self⟩, hp⟩
  · obtain ⟨literal, hin⟩ := hx.inside
    exact ⟨x, listed, ⟨decl, hdecl, y, Decl.stmts_of_lists hxs hy, literal, hin⟩, hp⟩

/-- A parsed file contains each statement it holds that is no condition and no block. -/
theorem SourceFile.Holds.contained {scan index source}
    (hfile : ofSource scan index source = .ok file) {x} (h : file.Holds x)
    (hx : x.isBranch = false) : file.Contains fun _ y => y = x := by
  obtain ⟨a, b, -, hdecls⟩ := ofSource_placed hfile
  obtain ⟨decl, hdecl, y, hy, literal, hin⟩ := h
  obtain ⟨xs, hxs, hmem⟩ := Decl.mem_stmts hy
  have hheaded : ∀ literal z, Inside literal y z → z.form.Headed := by
    intro literal z hz
    have hholds : file.Holds z := ⟨decl, hdecl, y, hy, literal, hz⟩
    have hshaped : z.form.Shaped := (hholds.placed hdecls).formed
    exact hshaped.headed
  exact ⟨decl, hdecl, xs, hxs, y, hmem, (hin.deep hheaded hx).imp_left Eq.symm⟩

namespace Lowering

section File

variable {env : Env} {P G : Bool → Stmt → Prop} {s s' : State}

theorem WalksDecl.tracked {decl'} (h : WalksDecl env decl decl' s s') (henv : env.Positive)
    (htracks : env.Tracks P G) (hp : ∃ xs ∈ decl.lists, Listed P xs) :
    ∃ ys ∈ decl'.lists, Listed G ys := by
  cases h with
  | head hbody => simp [Decl.lists, hbody] at hp
  | @func _ body _ out _ _ _ hbody _ _ hwalks =>
    have hlisted : Listed P body.stmts := by simpa [Decl.lists, hbody] using hp
    have hrun := hwalks.tracked henv htracks fun p hp => ascending_of_lowerHead hp
    exact ⟨out, mem_singleton_self _, listed_of hrun (listed_append.2 (.inr hlisted))⟩
  | gen hwalks => exact hwalks.tracked henv htracks hp

theorem WalksDecls.tracked {decls decls'} (h : WalksDecls env decls decls' s s')
    (henv : env.Positive) (htracks : env.Tracks P G)
    (hp : ∃ decl ∈ decls, ∃ xs ∈ decl.lists, Listed P xs) :
    ∃ decl ∈ decls', ∃ ys ∈ decl.lists, Listed G ys := by
  induction h with
  | nil => simp at hp
  | cons hdecl _ ih =>
    rw [exists_mem_cons_iff] at hp ⊢
    exact hp.imp (hdecl.tracked henv htracks) ih

end File

end Lowering

open Lowering

/-- Where a property survives the rules, a lowered file contains what becomes of a statement of the
source with that property. -/
theorem SourceFile.Contains.lowered {G fuel resolver options lowered} (hp : file.Contains P)
    (htracks : Env.Tracks ⟨resolver, options, shapesOf file⟩ P G)
    (h : file.lowerWith fuel resolver options = .ok lowered) : lowered.file.Contains G := by
  obtain ⟨s', hwalks, -⟩ := lowerWith_walks h
  exact hwalks.tracked (positive_shapesOf file resolver options) htracks hp

end ScriptLowering
