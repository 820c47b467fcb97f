import ScriptLowering.Proofs.Entering

/-!
# Fuel

More fuel changes nothing but a run that had too little. `Continues m m'` says that `m'` gives what
`m` gives from every state in which `m` does not run out; every function of the walk continues
itself with more fuel, and so does the lowering of a file.
-/

namespace ScriptLowering

namespace Lowering

/-- From every state, `m` runs out of fuel or `m'` gives the same. -/
def Continues {α : Type} (m m' : LowerM α) : Prop :=
  ∀ s, m s ≠ .error .outOfFuel → m' s = m s

namespace Continues

variable {α β : Type} {m m' : LowerM α}

theorem refl (m : LowerM α) : Continues m m := fun _ _ => rfl

theorem trans {m''} (h : Continues m m') (h' : Continues m' m'') : Continues m m'' := by
  intro s hs
  rw [h' s ((h s hs).symm ▸ hs), h s hs]

theorem outOfFuel (m : LowerM α) : Continues (throw .outOfFuel) m := fun _ hs => absurd rfl hs

theorem bind {f f' : α → LowerM β} (h : Continues m m') (hf : ∀ a, Continues (f a) (f' a)) :
    Continues (m >>= f) (m' >>= f') := by
  intro s hs
  simp only [Bind.bind, StateT.bind, Except.bind] at hs ⊢
  cases hm : m s with
  | error r =>
    have hr : m s ≠ .error .outOfFuel := by
      intro hout
      simp [hout] at hs
    rw [h s hr, hm]
  | ok p =>
    rw [hm] at hs
    rw [h s (by simp [hm]), hm]
    exact hf p.1 p.2 hs

/-- The result of one step is passed on. -/
theorem bind_pure {f : α → β} (h : Continues m m') :
    Continues (m >>= fun a => pure (f a)) (m' >>= fun a => pure (f a)) :=
  h.bind fun _ => refl _

theorem mapM {f f' : α → LowerM β} (h : ∀ a, Continues (f a) (f' a)) (as : List α) :
    Continues (as.mapM f) (as.mapM f') := by
  induction as with
  | nil => exact refl _
  | cons a as ih =>
    rw [List.mapM_cons, List.mapM_cons]
    exact (h a).bind fun _ => ih.bind_pure

end Continues

/-! ## Expressions -/

section Expressions

variable {env : Env} {lowerBody lowerBody' : SequenceLowering}

theorem exprs_continues {es : List Expr}
    (h : ∀ e ∈ es, Continues (lowerExpr env lowerBody e) (lowerExpr env lowerBody' e)) :
    Continues (lowerExprs env lowerBody es) (lowerExprs env lowerBody' es) := by
  induction es with
  | nil => exact .refl _
  | cons e es ih =>
    obtain ⟨he, hes⟩ := List.forall_mem_cons.1 h
    exact he.bind fun _ => (ih hes).bind_pure

variable (h : ∀ names stmts, Continues (lowerBody names stmts) (lowerBody' names stmts))

include h

theorem lowerExpr_continues (e : Expr) :
    Continues (lowerExpr env lowerBody e) (lowerExpr env lowerBody' e) := by
  induction e using Expr.induct with | _ e ih
  cases hlit : e.isLiteral with
  | true =>
    cases e with
    | funcLit span params results body =>
      obtain ⟨stmts, place⟩ := body
      exact (h _ stmts).bind_pure
    | _ => cases hlit
  | false =>
    rw [lowerExpr_eq env _ e hlit, lowerExpr_eq env _ e hlit]
    split
    · exact .bind (.refl _) fun _ => (exprs_continues ih).bind_pure
    · exact (exprs_continues ih).bind_pure

theorem lowerExprs_continues (es : List Expr) :
    Continues (lowerExprs env lowerBody es) (lowerExprs env lowerBody' es) :=
  exprs_continues fun e _ => lowerExpr_continues h e

theorem lowerExpr?_continues (e : Option Expr) :
    Continues (lowerExpr? env lowerBody e) (lowerExpr? env lowerBody' e) := by
  cases e with
  | none => exact .refl _
  | some e => exact (lowerExpr_continues h e).bind_pure

theorem lowerLabel_continues (exprs : Option (List Expr)) :
    Continues (lowerLabel env lowerBody exprs) (lowerLabel env lowerBody' exprs) := by
  cases exprs with
  | none => exact .refl _
  | some es => exact (lowerExprs_continues h es).bind_pure

theorem lowerSpecs_continues (specs : List Spec) :
    Continues (lowerSpecs env lowerBody specs) (lowerSpecs env lowerBody' specs) := by
  induction specs with
  | nil => exact .refl _
  | cons spec specs ih =>
    cases spec with
    | value names type values =>
      exact (lowerExprs_continues h values).bind fun _ => ih.bind_pure
    | typeName name isAlias type => exact ih.bind_pure

theorem lowerGenDecl_continues (decl : GenDecl) :
    Continues (lowerGenDecl env lowerBody decl) (lowerGenDecl env lowerBody' decl) :=
  (lowerSpecs_continues h decl.specs).bind_pure

end Expressions

/-! ## The walk -/

/-- One more unit of fuel continues every function of the walk. -/
structure Persists (fuel : Nat) : Prop where
  seq : ∀ frame declared stmts,
    Continues (lowerSeq fuel frame declared stmts) (lowerSeq (fuel + 1) frame declared stmts)
  step : ∀ frame declared stmt,
    Continues (stepAt fuel frame declared stmt) (stepAt (fuel + 1) frame declared stmt)
  stmt : ∀ frame stmt, Continues (lowerStmt fuel frame stmt) (lowerStmt (fuel + 1) frame stmt)
  block : ∀ frame block, Continues (lowerBlock fuel frame block) (lowerBlock (fuel + 1) frame block)
  arms : ∀ frame clauses,
    Continues (lowerCases fuel frame clauses) (lowerCases (fuel + 1) frame clauses)
  header : ∀ frame stmt,
    Continues (lowerHeader fuel frame stmt) (lowerHeader (fuel + 1) frame stmt)

namespace Persists

variable {fuel : Nat}

theorem zero : Persists 0 where
  seq _ _ _ := .outOfFuel _
  step _ _ _ := .outOfFuel _
  stmt _ _ := .outOfFuel _
  block _ _ := .outOfFuel _
  arms _ _ := .outOfFuel _
  header _ _ := .outOfFuel _

theorem seq_succ (h : Persists fuel) (frame : Frame) (declared : List String)
    (stmts : List Stmt) : Continues (lowerSeq (fuel + 1) frame declared stmts)
      (lowerSeq (fuel + 2) frame declared stmts) := by
  cases stmts with
  | nil => exact .refl _
  | cons stmt rest =>
    refine .bind (.refl _) fun _ => (h.step frame declared stmt).bind fun step => ?_
    cases step with
    | revisit stmts => exact h.seq frame declared _
    | enter stmt more => exact (h.stmt frame stmt).bind fun _ => (h.seq frame _ _).bind_pure

theorem step_succ (h : Persists fuel) (frame : Frame) (declared : List String) (stmt : Stmt) :
    Continues (stepAt (fuel + 1) frame declared stmt) (stepAt (fuel + 2) frame declared stmt) := by
  refine .bind (.refl _) fun hoisted => ?_
  cases hoisted with
  | some block => exact .refl _
  | none =>
    obtain ⟨id, span, form⟩ := stmt
    cases form with
    | loop init test post body =>
      cases post with
      | none => exact .refl _
      | some post =>
        dsimp only
        split
        · exact (h.seq frame [] [post]).bind fun _ => .refl _
        · exact .refl _
    | _ => exact .refl _

theorem stmt_succ (h : Persists fuel) (frame : Frame) (stmt : Stmt) :
    Continues (lowerStmt (fuel + 1) frame stmt) (lowerStmt (fuel + 2) frame stmt) := by
  obtain ⟨id, span, form⟩ := stmt
  have hbody := h.seq frame.literal
  cases form with
  | decl decl => exact (lowerGenDecl_continues hbody decl).bind_pure
  | expr e => exact (lowerExpr_continues hbody e).bind_pure
  | incDec e increments => exact (lowerExpr_continues hbody e).bind_pure
  | assign targets op values =>
    refine Continues.bind_pure ((lowerExprs_continues hbody targets).bind fun _ => ?_)
    exact (lowerExprs_continues hbody values).bind fun _ => .refl _
  | ret values => exact (lowerExprs_continues hbody values).bind_pure
  | block block => exact (h.block frame block).bind_pure
  | cond init test body otherwise =>
    refine (h.header frame init).bind fun _ => ?_
    refine (lowerExpr_continues hbody test).bind fun _ => (h.block frame body).bind fun _ => ?_
    cases otherwise with
    | none => exact .refl _
    | some stmt =>
      refine .bind (.refl _) fun stmt => .bind (.refl _) fun _ => ?_
      exact (h.stmt frame stmt).bind_pure
  | switch init tag clauses =>
    refine (h.header frame init).bind fun _ => ?_
    exact (lowerExpr?_continues hbody tag).bind fun _ => (h.arms frame clauses).bind_pure
  | loop init test post body =>
    refine (h.header frame init).bind fun _ => ?_
    refine (lowerExpr?_continues hbody test).bind fun _ => ?_
    exact (h.header frame post).bind fun _ => (h.block frame body).bind_pure
  | range key value defines subject body =>
    refine (lowerExpr?_continues hbody key).bind fun _ => ?_
    refine (lowerExpr?_continues hbody value).bind fun _ => ?_
    exact (lowerExpr_continues hbody subject).bind fun _ => (h.block frame body).bind_pure
  | _ => exact .refl _

theorem block_succ (h : Persists fuel) (frame : Frame) (block : Block) :
    Continues (lowerBlock (fuel + 1) frame block) (lowerBlock (fuel + 2) frame block) := by
  obtain ⟨stmts, span⟩ := block
  exact (h.seq frame [] stmts).bind_pure

theorem arms_succ (h : Persists fuel) (frame : Frame) (clauses : List CaseClause) :
    Continues (lowerCases (fuel + 1) frame clauses) (lowerCases (fuel + 2) frame clauses) := by
  cases clauses with
  | nil => exact .refl _
  | cons clause clauses =>
    obtain ⟨exprs, body, span⟩ := clause
    refine (lowerLabel_continues (h.seq frame.literal) exprs).bind fun _ => ?_
    exact (h.seq frame [] body).bind fun _ => (h.arms frame clauses).bind_pure

theorem header_succ (h : Persists fuel) (frame : Frame) (stmt : Option Stmt) :
    Continues (lowerHeader (fuel + 1) frame stmt) (lowerHeader (fuel + 2) frame stmt) := by
  cases stmt with
  | none => exact .refl _
  | some stmt =>
    refine .bind (.refl _) fun _ => .bind (.refl _) fun replaced => ?_
    match replaced with
    | none => exact (h.stmt frame stmt).bind_pure
    | some ⟨[], form⟩ => exact (h.stmt frame ⟨stmt.id, stmt.span, form⟩).bind_pure
    | some ⟨_ :: _, _⟩ => exact .refl _

theorem succ (h : Persists fuel) : Persists (fuel + 1) where
  seq := h.seq_succ
  step := h.step_succ
  stmt := h.stmt_succ
  block := h.block_succ
  arms := h.arms_succ
  header := h.header_succ

end Persists

theorem persists (fuel : Nat) : Persists fuel := by
  induction fuel with
  | zero => exact .zero
  | succ fuel ih => exact ih.succ

/-! ## A file -/

theorem lowerDecl_continues (fuel : Nat) (env : Env) (decl : Decl) :
    Continues (lowerDecl fuel env decl) (lowerDecl (fuel + 1) env decl) := by
  have hseq := (persists fuel).seq
  cases decl with
  | func decl =>
    refine Continues.bind_pure (.bind (.refl _) fun _ => ?_)
    dsimp only
    split
    · exact .refl _
    · exact .bind (.refl _) fun _ => (hseq _ _ _).bind_pure
  | gen decl =>
    exact .bind (.refl _) fun _ => (lowerGenDecl_continues (hseq ⟨env, none⟩) decl).bind_pure

theorem lowerDecls_continue {fuel fuel' : Nat} (h : fuel ≤ fuel') (env : Env) (decls : List Decl) :
    Continues (decls.mapM (lowerDecl fuel env)) (decls.mapM (lowerDecl fuel' env)) := by
  induction h with
  | refl => exact .refl _
  | step _ ih => exact ih.trans (.mapM (lowerDecl_continues _ env) decls)

end Lowering

/-- A file that is lowered, or rejected with a report, gets the same answer with more fuel. -/
theorem SourceFile.lowerWith_eq_of_le {file : SourceFile} {fuel fuel' resolver options}
    (hfuel : file.lowerWith fuel resolver options ≠ .error .outOfFuel) (h : fuel ≤ fuel') :
    file.lowerWith fuel' resolver options = file.lowerWith fuel resolver options := by
  simp only [lowerWith, StateT.run, Bind.bind, Except.bind] at hfuel ⊢
  rw [Lowering.lowerDecls_continue h]
  intro hout
  simp [hout] at hfuel

end ScriptLowering
