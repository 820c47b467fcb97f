import ScriptLowering.Proofs.Anchors

/-!
# The order of statements

Lowering puts statements in front of others, moves initializers and post statements about and wraps
what follows an `else`. Read in the order in which a function is written to run (`Stmt.order`), the
statements of the source stay where they are among each other: take away the identities that the
lowering gave out, and the order of the lowered function is that of the source.
-/

namespace ScriptLowering

open List

/-! ## Reading a function -/

mutual

/-- The identities of a statement and of the statements in it, outside function literals: what the
header has in front, the statement itself, its post statement, and then its bodies in order. -/
def Stmt.order : Stmt → List NodeId
  | ⟨id, _, .labeled _ stmt⟩ => id :: stmt.order
  | ⟨id, _, .block ⟨stmts, _⟩⟩ => id :: orderOfStmts stmts
  | ⟨id, _, .cond init _ ⟨stmts, _⟩ otherwise⟩ =>
    orderOfStmt? init ++ id :: (orderOfStmts stmts ++ orderOfStmt? otherwise)
  | ⟨id, _, .switch init _ clauses⟩ => orderOfStmt? init ++ id :: orderOfCases clauses
  | ⟨id, _, .typeSwitch init guard clauses⟩ =>
    orderOfStmt? init ++ (guard.order ++ id :: orderOfCases clauses)
  | ⟨id, _, .select clauses⟩ => id :: orderOfComms clauses
  | ⟨id, _, .loop init _ post ⟨stmts, _⟩⟩ =>
    orderOfStmt? init ++ id :: (orderOfStmt? post ++ orderOfStmts stmts)
  | ⟨id, _, .range _ _ _ _ ⟨stmts, _⟩⟩ => id :: orderOfStmts stmts
  | ⟨id, _, .decl _⟩ | ⟨id, _, .empty⟩ | ⟨id, _, .expr _⟩ | ⟨id, _, .send ..⟩
  | ⟨id, _, .incDec ..⟩ | ⟨id, _, .assign ..⟩ | ⟨id, _, .go _⟩ | ⟨id, _, .defer _⟩
  | ⟨id, _, .ret _⟩ | ⟨id, _, .jump ..⟩ => [id]

def orderOfStmt? : Option Stmt → List NodeId
  | none => []
  | some stmt => stmt.order

def orderOfStmts : List Stmt → List NodeId
  | [] => []
  | stmt :: stmts => stmt.order ++ orderOfStmts stmts

def orderOfCases : List CaseClause → List NodeId
  | [] => []
  | ⟨_, body, _⟩ :: clauses => orderOfStmts body ++ orderOfCases clauses

def orderOfComms : List CommClause → List NodeId
  | [] => []
  | ⟨comm, body, _⟩ :: clauses => orderOfStmt? comm ++ (orderOfStmts body ++ orderOfComms clauses)

end

/-- The identities of the statements of a function in order. -/
def FuncDecl.order (func : FuncDecl) : List NodeId :=
  orderOfStmts ((func.body.map Block.stmts).getD [])

theorem orderOfStmts_append (xs ys : List Stmt) :
    orderOfStmts (xs ++ ys) = orderOfStmts xs ++ orderOfStmts ys := by
  induction xs with
  | nil => rfl
  | cons x xs ih => rw [cons_append, orderOfStmts, orderOfStmts, ih, append_assoc]

section Subset

open Lowering

variable {i : NodeId}

@[simp] theorem mem_orderOfStmt? {x : Option Stmt} :
    i ∈ orderOfStmt? x ↔ ∃ y ∈ x.toList, i ∈ y.order := by
  cases x <;> simp [orderOfStmt?]

@[simp] theorem mem_orderOfStmts {xs : List Stmt} :
    i ∈ orderOfStmts xs ↔ ∃ x ∈ xs, i ∈ x.order := by
  induction xs with
  | nil => simp [orderOfStmts]
  | cons x xs ih => simp [orderOfStmts, ih]

@[simp] theorem mem_orderOfCases {clauses : List CaseClause} :
    i ∈ orderOfCases clauses ↔ ∃ x ∈ clauses.flatMap (·.body), i ∈ x.order := by
  induction clauses with
  | nil => simp [orderOfCases]
  | cons clause clauses ih =>
    cases clause
    simp [orderOfCases, ih, or_and_right, exists_or]

@[simp] theorem mem_orderOfComms {clauses : List CommClause} :
    i ∈ orderOfComms clauses ↔
      ∃ x ∈ clauses.flatMap fun clause => clause.comm.toList ++ clause.body, i ∈ x.order := by
  induction clauses with
  | nil => simp [orderOfComms]
  | cons clause clauses ih =>
    cases clause
    simp [orderOfComms, ih, or_and_right, exists_or]

theorem Stmt.mem_order {x : Stmt} (h : i ∈ x.order) :
    i = x.id ∨ ∃ y ∈ x.form.inner, i ∈ y.order := by
  obtain ⟨id, span, form⟩ := x
  cases form with
  | block body | cond _ _ body _ | loop _ _ _ body | range _ _ _ _ body =>
    cases body
    simp only [Stmt.order, StmtForm.inner, mem_append, mem_cons, mem_orderOfStmt?,
      mem_orderOfStmts] at h ⊢
    grind
  | _ =>
    simp only [Stmt.order, StmtForm.inner, mem_append, mem_cons, mem_orderOfStmt?, mem_orderOfCases,
      mem_orderOfComms] at h ⊢
    grind

/-- What is read in order is part of the tree. -/
theorem Stmt.held_of_order (x : Stmt) (h : i ∈ x.order) : 0 < held i x.all := by
  rcases x.mem_order h with rfl | ⟨y, hy, h⟩
  · simp [held, tally_stmt]
  · have hle := tally_le_of_part (f := (identities i).weight) (mem_append_right _ hy)
    exact Nat.lt_of_lt_of_le (y.held_of_order h) (Nat.le_of_add_right_le hle)
termination_by tally (fun _ => 1) x.all
decreasing_by exact tally_le_of_part (f := fun _ => 1) (mem_append_right _ hy)

end Subset

theorem FuncDecl.order_subset {file : SourceFile} {func} (h : func ∈ file.functions) :
    func.order ⊆ file.ids := by
  intro i hi
  obtain ⟨decl, hdecl, hfunc⟩ := mem_filterMap.1 h
  obtain ⟨x, hx, hi⟩ := mem_orderOfStmts.1 hi
  have hid : i ∈ x.all.map Stmt.id :=
    by_contra fun hid => Nat.ne_of_gt (x.held_of_order hi) (Lowering.held_eq_zero.2 hid)
  obtain ⟨y, hy, rfl⟩ := mem_map.1 hid
  refine mem_map.2 ⟨y, mem_flatMap.2 ⟨decl, hdecl, ?_⟩, rfl⟩
  cases decl with
  | func decl =>
    cases hfunc
    rw [Decl.all, Lowering.allOfStmts_eq]
    exact mem_flatMap.2 ⟨x, hx, hy⟩
  | gen decl => simp at hfunc

namespace Lowering

/-! ## What a step does to the order -/

/-- The identities below `base`, in the same order. -/
def old (base : NodeId) (ids : List NodeId) : List NodeId := ids.filter (· < base)

section Steps

variable {env : Env} {stmt : Stmt} {s s' : State} {base : NodeId} {xs : List Stmt}

@[simp] theorem old_nil : old base [] = [] := rfl

@[simp] theorem old_append (ids ids' : List NodeId) :
    old base (ids ++ ids') = old base ids ++ old base ids' :=
  filter_append ..

theorem old_cons (id : NodeId) (ids : List NodeId) :
    old base (id :: ids) = (if id < base then [id] else []) ++ old base ids := by
  rw [old, filter_cons]
  by_cases h : id < base <;> simp [old, h]

/-- A new identity in front is passed over. -/
theorem old_cons_new {id} (h : base ≤ id) (ids : List NodeId) :
    old base (id :: ids) = old base ids := by
  rw [old_cons, if_neg (Nat.not_lt.2 h), nil_append]

theorem order_of_isPlain {x : Stmt} (h : isPlain x.form = true) : x.order = [x.id] := by
  obtain ⟨id, span, form⟩ := x
  cases form with
  | labeled | block | cond | switch | typeSwitch | select | loop | range => simp [isPlain] at h
  | _ => rfl

theorem orderOfStmts_of_isPlain (h : ∀ x ∈ xs, isPlain x.form = true) :
    orderOfStmts xs = xs.map Stmt.id := by
  induction xs with
  | nil => rfl
  | cons x xs ih =>
    obtain ⟨hx, hxs⟩ := forall_mem_cons.1 h
    rw [orderOfStmts, order_of_isPlain hx, ih hxs]
    rfl

theorem old_of_new (h : ∀ x ∈ xs, base ≤ x.id) : old base (xs.map Stmt.id) = [] := by
  rw [old, filter_eq_nil_iff]
  intro id hid
  obtain ⟨x, hx, rfl⟩ := mem_map.1 hid
  simpa using h x hx

theorem Issues.new (h : Issues s xs s') (hbase : base ≤ s.nextId) : ∀ x ∈ xs, base ≤ x.id :=
  fun x hx => Nat.le_trans hbase (h.ids x hx).1

theorem withoutInit_order {init inner} (h : stmt.form.withoutInit = some (init, inner)) :
    stmt.order = init.order ++ Stmt.order ⟨stmt.id, stmt.span, inner⟩ := by
  obtain ⟨id, span, form⟩ := stmt
  cases StmtForm.opens h with
  | switch => rfl
  | cond | loop =>
    cases ‹Block›
    rfl

/-- A rule leaves the statement in its place, with what stands in it. -/
theorem Rewrites.order {r} (h : Rewrites env stmt r) :
    Stmt.order ⟨stmt.id, stmt.span, r.form⟩ = stmt.order := by
  obtain ⟨id, span, form⟩ := stmt
  obtain ⟨before, form'⟩ := r
  cases h.reforms with
  | action ha ha' => cases ha <;> cases ha' <;> rfl
  | without _ hx =>
    cases hx with
    | cond | range =>
      cases ‹Block›
      rfl
    | _ => rfl

/-- Statements whose order is empty can be left out. -/
theorem old_filter {p} (h : ∀ x ∈ xs, p x = false → old base x.order = []) :
    old base (orderOfStmts xs) = old base (orderOfStmts (xs.filter p)) := by
  induction xs with
  | nil => rfl
  | cons x xs ih =>
    obtain ⟨hx, hxs⟩ := forall_mem_cons.1 h
    rw [orderOfStmts, old_append, ih hxs, filter_cons]
    split
    · rw [orderOfStmts, old_append]
    · rename_i hp
      rw [hx (by simpa using hp), nil_append]

/-- The declarations that a post statement needs are new, and what stays behind is the post
statement. -/
theorem post_order {post post' : Stmt} {posts decls} (hpost : isPlain post.form = true)
    (hparts : posts.partition (fun x => x.id == post.id) = ([post'], decls))
    (hdecls : ∀ x ∈ decls, isDeclaration x)
    (h : old base (orderOfStmts posts) = old base (orderOfStmts [post])) :
    old base (orderOfStmts decls) = [] ∧ old base post'.order = old base post.order := by
  rw [partition_eq_filter_filter, Prod.mk.injEq] at hparts
  obtain ⟨hself, hothers⟩ := hparts
  have hmem : ∀ x ∈ decls, x ∈ posts ∧ x.id ≠ post.id := by
    intro x hx
    rw [← hothers] at hx
    simpa using hx
  have hplain : ∀ x ∈ decls, isPlain x.form = true := by
    intro x hx
    have hdecl := hdecls x hx
    unfold isDeclaration at hdecl
    unfold isPlain
    split at hdecl <;> simp_all
  have hposts : old base (orderOfStmts [post]) = old base [post.id] := by
    rw [orderOfStmts, order_of_isPlain hpost]
    rfl
  -- an old identity of the scratch sequence is that of the post statement
  have hnew : ∀ x ∈ decls, base ≤ x.id := by
    intro x hx
    by_contra hlt
    have hin : x.id ∈ old base (orderOfStmts posts) := by
      refine mem_filter.2 ⟨?_, by simpa using hlt⟩
      obtain ⟨pre, suf, rfl⟩ := append_of_mem (hmem x hx).1
      simp [orderOfStmts_append, orderOfStmts, order_of_isPlain (hplain x hx)]
    rw [h, hposts] at hin
    exact (hmem x hx).2 (mem_singleton.1 (mem_filter.1 hin).1)
  refine ⟨by rw [orderOfStmts_of_isPlain hplain, old_of_new hnew], ?_⟩
  have hall : old base (orderOfStmts posts) =
      old base (orderOfStmts (posts.filter fun x => x.id == post.id)) := by
    apply old_filter
    intro x hx hid
    have hdecl : x ∈ decls := by
      rw [← hothers]
      simpa [hx] using hid
    rw [order_of_isPlain (hplain x hdecl)]
    exact old_cons_new (hnew x hdecl) []
  rw [hself, h, hposts] at hall
  rw [order_of_isPlain hpost, hall, orderOfStmts, orderOfStmts, append_nil]

/-- The stores of a return are new, and the return stays behind them. -/
theorem Settles.order {plan : ReturnPlan} {new} (h : Settles env plan stmt s new s')
    (hbase : base ≤ s.nextId) : old base (orderOfStmts new) = old base stmt.order := by
  have hstmt : stmt.order = [stmt.id] := by
    refine order_of_isPlain ?_
    cases h with
    | values hform | names hform | call hform | callOnly hform =>
      rw [hform]
      rfl
  rw [orderOfStmts_of_isPlain h.plain, hstmt]
  cases h with
  | values _ _ _ hissues | names _ _ _ _ hissues =>
    rw [map_append, old_append, old_of_new (hissues.new hbase)]
    rfl
  | call => rfl
  | callOnly =>
    rw [map_cons, old_cons_new hbase]
    rfl

end Steps

/-! ## Every run -/

/-- What a task leaves has the old identities of what it was given, in their order. -/
def Task.KeepsOrder (base : NodeId) : Task → Prop
  | .seq _ xs ys | .each _ xs ys => old base (orderOfStmts ys) = old base (orderOfStmts xs)
  | .stmt _ x y => old base y.order = old base x.order
  | .header _ x y | .branch _ x y => old base (orderOfStmt? y) = old base (orderOfStmt? x)
  | .arms _ clauses clauses' => old base (orderOfCases clauses') = old base (orderOfCases clauses)
  | .bodies .. => True

section Walk

variable {env : Env} {s s' : State} {base : NodeId}

theorem isPlain_of_needsDeclarations {stmt} (h : env.needsDeclarations stmt = true) :
    isPlain stmt.form = true := by
  unfold Env.needsDeclarations at h
  split at h
  · rename_i hform
    rw [hform]
    rfl
  · contradiction

/-- Every run of the walk keeps the order. -/
theorem Walks.keepsOrder {task : Task} (h : Walks env task s s') (hbase : base ≤ s.nextId) :
    task.KeepsOrder base := by
  induction h with
  | nil | eachNil | noHeader | noBranch | armsNil => rfl
  | bodiesNil | bodiesCons => trivial
  | hoist _ hform _ ih =>
    have hrest := ih (Nat.le_succ_of_le hbase)
    simp only [Task.KeepsOrder, orderOfStmts, Stmt.order, append_nil, cons_append,
      old_cons_new hbase] at hrest ⊢
    rw [hrest, withoutInit_order hform]
  | @post _ stmt _ _ _ _ _ _ body _ _ _ _ _ _ hform hneeds hposts hparts hdecls _ ih ih' =>
    have hrest := ih' (Nat.le_trans hbase hposts.grows.1)
    obtain ⟨hnew, hpost⟩ :=
      post_order (isPlain_of_needsDeclarations hneeds) hparts hdecls (ih hbase)
    obtain ⟨id, span, _⟩ := stmt
    obtain rfl := hform
    obtain ⟨stmts, place⟩ := body
    simp only [Task.KeepsOrder, orderOfStmts_append, orderOfStmts, Stmt.order, orderOfStmt?,
      old_append, hnew, old_cons, hpost, nil_append] at hrest ⊢
    exact hrest
  | @split _ stmt _ _ _ _ _ span form _ _ _ hform hnew _ ih =>
    have hrest := ih (Nat.le_succ_of_le hbase)
    have hstmt : isPlain stmt.form = true := by rw [hform]; rfl
    have hdecl : isPlain form = true := by
      rcases hnew with rfl | ⟨vars, -, rfl⟩ <;> rfl
    have hfirst : Stmt.order ⟨stmt.id, stmt.span, form⟩ = [stmt.id] := order_of_isPlain hdecl
    simp only [Task.KeepsOrder, orderOfStmts, hfirst, Stmt.order, cons_append,
      nil_append, old_cons stmt.id, old_cons_new hbase] at hrest
    simp only [Task.KeepsOrder, orderOfStmts, order_of_isPlain hstmt, cons_append,
      nil_append, old_cons stmt.id]
    exact hrest
  | replace _ hrewrites hissues _ ih =>
    have hrest := ih (Nat.le_trans hbase hissues.nextId)
    simp only [Task.KeepsOrder, orderOfStmts_append, orderOfStmts, hrewrites.order, old_append,
      orderOfStmts_of_isPlain fun _ => hrewrites.before_isPlain, old_of_new (hissues.new hbase),
      nil_append] at hrest ⊢
    exact hrest
  | settle _ _ _ hsettles hnew _ ih ih' =>
    have hbase1 := Nat.le_trans hbase hsettles.grows.1
    have hfirst := ih hbase1
    have hrest := ih' (Nat.le_trans hbase1 hnew.grows.1)
    simp only [Task.KeepsOrder, orderOfStmts_append, orderOfStmts, old_append] at hfirst hrest ⊢
    rw [hfirst, hrest, hsettles.order hbase]
  | enter _ _ _ hwalk _ ih ih' | eachCons _ hwalk _ ih ih' =>
    have hfirst := ih hbase
    have hrest := ih' (Nat.le_trans hbase hwalk.grows.1)
    simp only [Task.KeepsOrder, orderOfStmts, old_append] at hfirst hrest ⊢
    rw [hfirst, hrest]
  | plain _ hform =>
    cases hform <;> rfl
  | block _ ih =>
    have hstmts := ih hbase
    simp only [Task.KeepsOrder, Stmt.order, old_cons] at hstmts ⊢
    rw [hstmts]
  | cond hinit _ htest hstmts _ ih1 _ ih3 ih4 =>
    have hbase2 := Nat.le_trans hbase (Nat.le_trans hinit.grows.1 htest.grows.1)
    have h1 := ih1 hbase
    have h3 := ih3 hbase2
    have h4 := ih4 (Nat.le_trans hbase2 hstmts.grows.1)
    simp only [Task.KeepsOrder, Stmt.order, old_append, old_cons] at h1 h3 h4 ⊢
    rw [h1, h3, h4]
  | switch hinit _ htag _ ih1 _ ih3 =>
    have h1 := ih1 hbase
    have h3 := ih3 (Nat.le_trans hbase (Nat.le_trans hinit.grows.1 htag.grows.1))
    simp only [Task.KeepsOrder, Stmt.order, old_append, old_cons] at h1 h3 ⊢
    rw [h1, h3]
  | loop hinit _ htest hpost _ ih1 _ ih3 ih4 =>
    have hbase2 := Nat.le_trans hbase (Nat.le_trans hinit.grows.1 htest.grows.1)
    have h1 := ih1 hbase
    have h3 := ih3 hbase2
    have h4 := ih4 (Nat.le_trans hbase2 hpost.grows.1)
    simp only [Task.KeepsOrder, Stmt.order, old_append, old_cons] at h1 h3 h4 ⊢
    rw [h1, h3, h4]
  | range _ _ _ hexprs _ _ ih' =>
    have hstmts := ih' (Nat.le_trans hbase hexprs.grows.1)
    simp only [Task.KeepsOrder, Stmt.order, old_cons] at hstmts ⊢
    rw [hstmts]
  | header _ _ _ ih | branch _ _ _ ih => exact ih hbase
  | @inPlace _ stmt _ form _ _ _ _ hrewrites hissues _ ih =>
    have hstmt := ih (Nat.le_trans hbase hissues.nextId)
    have horder : Stmt.order ⟨stmt.id, stmt.span, form⟩ = stmt.order := hrewrites.order
    simp only [Task.KeepsOrder, horder] at hstmt
    exact hstmt
  | wrap _ _ ih =>
    have hstmt := ih (Nat.le_succ_of_le hbase)
    simp only [Task.KeepsOrder, Stmt.order, orderOfStmts, append_nil, old_cons_new hbase]
      at hstmt
    exact hstmt
  | armsCons _ hlabel hstmts _ _ ih2 ih3 =>
    have hbase1 := Nat.le_trans hbase hlabel.grows.1
    have h2 := ih2 hbase1
    have h3 := ih3 (Nat.le_trans hbase1 hstmts.grows.1)
    simp only [Task.KeepsOrder, orderOfCases, old_append] at h2 h3 ⊢
    rw [h2, h3]

end Walk

/-! ## Lowered files -/

section File

variable {env : Env} {s s' : State} {base : NodeId}

/-- The second function is the first one with its statements in place. -/
def Reads (base : NodeId) (func func' : FuncDecl) : Prop :=
  func'.name = func.name ∧ old base func'.order = old base func.order

theorem WalksDecl.reads {func func'} (h : WalksDecl env (.func func) (.func func') s s')
    (hbase : base ≤ s.nextId) : Reads base func func' := by
  cases h with
  | head hbody => exact ⟨rfl, by simp [FuncDecl.order, lowerHead, hbody]⟩
  | @func _ _ locals _ _ _ _ hbody hlocals hissues hwalks =>
    have hplain : ∀ x ∈ locals, isPlain x.form = true := by
      intro x hx
      obtain ⟨vars, span, hform⟩ := hlocals x hx
      rw [hform]
      rfl
    have horder := hwalks.keepsOrder (Nat.le_trans hbase hissues.nextId)
    simp only [Task.KeepsOrder, orderOfStmts_append, orderOfStmts_of_isPlain hplain, old_append,
      old_of_new (hissues.new hbase), nil_append] at horder
    exact ⟨rfl, by simpa [FuncDecl.order, hbody] using horder⟩

theorem WalksDecls.reads {file file' : SourceFile} (h : WalksDecls env file.decls file'.decls s s')
    (hbase : base ≤ s.nextId) : Forall₂ (Reads base) file.functions file'.functions := by
  unfold SourceFile.functions
  generalize file.decls = decls, file'.decls = decls' at h ⊢
  induction h with
  | nil => exact .nil
  | @cons decl decl' _ _ _ _ _ hdecl _ ih =>
    have hrest := ih (Nat.le_trans hbase hdecl.grows)
    cases decl with
    | func func =>
      obtain ⟨func', rfl⟩ : ∃ func', decl' = .func func' := by cases hdecl <;> exact ⟨_, rfl⟩
      exact .cons (hdecl.reads hbase) hrest
    | gen decl =>
      obtain ⟨gen', rfl⟩ : ∃ gen', decl' = .gen gen' := by cases hdecl; exact ⟨_, rfl⟩
      exact hrest

end File

end Lowering

open Lowering

/-- Lowering neither loses, copies nor reorders the statements of a function: in each function of
the lowered file, the statements outside function literals that the file had before are those of the
function, in the same order. The same is true of the 32-bit numbers that identities are stored as,
unless the counter ran over. And since identities are apart, what is put beside a statement by its
position stands where a search for its identity would put it. -/
theorem SourceFile.order_kept {file : SourceFile} {fuel : Nat} {resolver : Resolver}
    {options : Options} {lowered : Lowered} (hfile : file.Identified)
    (h : file.lowerWith fuel resolver options = .ok lowered) :
    Forall₂ (fun func func' => func'.name = func.name ∧
        func'.order.filter (· ∈ file.ids) = func.order ∧
        (lowered.file.nextId < UInt32.size →
          (func'.order.map UInt32.ofNat).filter (· ∈ file.words) = func.order.map UInt32.ofNat))
      file.functions lowered.file.functions ∧
    ∀ fuel plan declared seq (s : State), (∀ p ∈ plan, ReturnPlan.Ascending p) →
      Apart (allOfStmts seq) s.nextId →
      lowerById fuel ⟨⟨resolver, options, shapesOf file⟩, plan⟩ declared seq 0 s =
        lowerSeq fuel ⟨⟨resolver, options, shapesOf file⟩, plan⟩ declared seq s := by
  refine ⟨?_, fun fuel plan declared seq s hplan hseq =>
    lowerById_eq_lowerSeq fuel declared (positive_shapesOf file resolver options) hplan hseq⟩
  have hderives := lowerWith_derives h
  obtain ⟨s', hwalks, -⟩ := lowerWith_walks h
  have hreads : Forall₂ (Reads file.nextId) file.functions lowered.file.functions :=
    hwalks.reads (Nat.le_refl _)
  have hsource : ∀ func ∈ file.functions, func.order ⊆ file.ids := fun _ => FuncDecl.order_subset
  have hlowered : ∀ func' ∈ lowered.file.functions, func'.order ⊆ lowered.file.ids :=
    fun _ => FuncDecl.order_subset
  have hall := ((forall₂_and_left _ _).2 ⟨hlowered, hreads.flip⟩).flip
  refine ((forall₂_and_left _ _).2 ⟨hsource, hall⟩).imp ?_
  rintro func func' ⟨hfunc, hfunc', hname, horder⟩
  -- in a lowered file the identities of the file are those below its next one
  have hbelow : func'.order.filter (· ∈ file.ids) = old file.nextId func'.order := by
    refine filter_congr fun id hid => decide_eq_decide.2 ⟨hfile.below id, ?_⟩
    intro hlt
    by_contra hnew
    exact Nat.not_le_of_lt hlt (hderives.given_of_mem (hfunc' hid) hnew).1
  have hkept : old file.nextId func.order = func.order :=
    filter_eq_self.2 fun id hid => decide_eq_true (hfile.below id (hfunc hid))
  have hfilter : func'.order.filter (· ∈ file.ids) = func.order := by rw [hbelow, horder, hkept]
  refine ⟨hname, hfilter, fun hroom => ?_⟩
  rw [← hfilter, filter_map]
  refine congrArg (map UInt32.ofNat) (filter_congr fun id hid => decide_eq_decide.2 ⟨?_, ?_⟩)
  · intro hword
    obtain ⟨id', hid', heq⟩ := mem_map.1 hword
    have hlt := Nat.lt_of_lt_of_le (hfile.below id' hid') hderives.grows
    rwa [← ofNat_inj_of_lt hroom hlt ((hderives.identified hfile).below id (hfunc' hid)) heq]
  · exact fun hid => mem_map_of_mem hid

theorem order_kept_relocating :
    ∃ file lowered, SourceFile.ofSource {} 0 relocating = .ok file ∧
      file.lower (Table.ofFile file).resolver {} = .ok lowered ∧
      (file.functions.map FuncDecl.order = [[0], [1, 5, 2, 4]] ∧
        lowered.file.functions.map FuncDecl.order =
          [[6, 0], [7, 8, 1, 5, 2, 9, 10, 4]]) ∧
      Forall₂ (fun func func' => func'.name = func.name ∧
          func'.order.filter (· ∈ file.ids) = func.order ∧
          (lowered.file.nextId < UInt32.size → (func'.order.map UInt32.ofNat).filter
            (· ∈ file.words) = func.order.map UInt32.ofNat))
        file.functions lowered.file.functions := by
  obtain ⟨file, lowered, hfile, hlower, horders⟩ := @exists_lowered relocating
    (fun file lowered => file.functions.map FuncDecl.order = [[0], [1, 5, 2, 4]] ∧
      lowered.file.functions.map FuncDecl.order =
        [[6, 0], [7, 8, 1, 5, 2, 9, 10, 4]]) (by decide +kernel)
  exact ⟨file, lowered, hfile, hlower, of_decide_eq_true horders,
    (SourceFile.order_kept (SourceFile.identified_ofSource hfile) hlower).1⟩

end ScriptLowering
