import ScriptLowering.Proofs.Identities
import ScriptLowering.Tree.Sequence

/-!
# Insertion by identity

The walk takes a sequence apart at its cursor, and what a rule makes of a statement goes between the
two parts. One may also keep the sequence whole and search it, for every statement that is
inserted, for the identity of the statement that it belongs to (`lowerById`). The statements
have identities of their own, and the new ones are not in use yet, so the search never finds another
statement and the two walks are the same (`lowerById_eq`).
-/

namespace ScriptLowering

open List

/-! ## Anchors in a sequence -/

namespace Sequence

variable {front new rest : List Stmt} {x y : Stmt}

theorem position?_append (h : ∀ z ∈ front, z.id ≠ x.id) :
    position? (front ++ x :: rest) x.id = some front.length := by
  have hfront : front.findIdx? (fun z => z.id == x.id) = none := by simpa using h
  simp [position?, findIdx?_append, hfront, findIdx?_cons]

theorem insertIdx_length (x : Stmt) (front rest : List Stmt) :
    (front ++ rest).insertIdx front.length x = front ++ x :: rest := by
  induction front with
  | nil => exact insertIdx_zero
  | cons y front ih => rw [cons_append, length_cons, insertIdx_succ_cons, ih, cons_append]

theorem insertBefore?_append (h : ∀ z ∈ front, z.id ≠ x.id) :
    insertBefore? (front ++ x :: rest) x.id y =
      some (front.length, front ++ y :: x :: rest) := by
  simp [insertBefore?, position?_append h, insertAt, insertIdx_length]

theorem insertAfter?_append (h : ∀ z ∈ front, z.id ≠ x.id) :
    insertAfter? (front ++ x :: rest) x.id y =
      some (front.length + 1, front ++ x :: y :: rest) := by
  have hplace := insertIdx_length y (front ++ [x]) rest
  simpa [insertAfter?, position?_append h, insertAt] using hplace

theorem insertAllBefore_append (h : ∀ z ∈ front ++ new, z.id ≠ x.id) :
    insertAllBefore (front ++ x :: rest) x.id new = front ++ new ++ x :: rest := by
  induction new generalizing front with
  | nil => simp [insertAllBefore]
  | cons y new ih =>
    rw [forall_mem_append] at h
    unfold insertAllBefore at ih ⊢
    rw [foldl_cons, insertBefore?_append h.1]
    have hnext := @ih (front ++ [y]) (by simpa [or_imp, forall_and] using h)
    simpa using hnext

theorem insertAllAfter_append (h : ∀ z ∈ front, z.id ≠ x.id) :
    insertAllAfter (front ++ x :: rest) x.id new = front ++ x :: (new ++ rest) := by
  induction new with
  | nil => rfl
  | cons y new ih =>
    unfold insertAllAfter at ih ⊢
    rw [foldr_cons, ih, insertAfter?_append h]
    rfl

/-- Among statements with identities of their own, what is inserted by identity stands where the
statement stood. -/
theorem replaceAt_eq (anchor : NodeId) (hne : new ≠ [])
    (h : ((front ++ new ++ rest).map Stmt.id).Nodup) :
    replaceAt (front ++ x :: rest) front.length anchor new = front ++ new ++ rest := by
  unfold replaceAt
  dsimp only
  generalize hkeeper : (position? new anchor).getD 0 = keeper
  have hlt : keeper < new.length := by
    subst hkeeper
    cases hfind : position? new anchor with
    | none => exact length_pos_iff.2 hne
    | some index => exact (findIdx?_eq_some_iff_getElem.1 hfind).1
  have hnew := take_append_drop keeper new
  rw [drop_eq_getElem_cons hlt] at hnew ⊢
  generalize new.take keeper = before, new[keeper] = y, new.drop (keeper + 1) = behind at hnew ⊢
  subst hnew
  have hown : ∀ z ∈ front ++ before, z.id ≠ y.id := by
    intro z hz heq
    simp only [append_assoc, cons_append, map_append, map_cons] at h
    rw [← append_assoc, nodup_append] at h
    refine h.2.2 z.id ?_ y.id mem_cons_self heq
    rw [← map_append]
    exact mem_map_of_mem hz
  dsimp only
  rw [set_append_right _ _ (Nat.le_refl _), Nat.sub_self, set_cons_zero,
    insertAllBefore_append hown, insertAllAfter_append hown]
  simp

end Sequence

namespace Lowering

section Visits

variable {env : Env} {plan : Option ReturnPlan} {stmt : Stmt} {step : Step} {s s' : State}

theorem Visits.stmts_ne_nil (h : Visits env plan stmt s step s') : step.stmts ≠ [] := by
  cases h with
  | settle _ _ _ hsettles => generalize step.stmts = new at hsettles; cases hsettles <;> simp
  | _ => simp [Step.stmts]

end Visits

/-! ## The walk that searches -/

/-- Lower a sequence from `index` on, keeping it whole. `declared` holds the names declared in its
scope before it. -/
def lowerById : (fuel : Nat) → Frame → (declared : List String) → List Stmt → (index : Nat) →
    LowerM (List Stmt)
  | 0, _, _, _, _ => throw .outOfFuel
  | fuel + 1, frame, declared, seq, index =>
    match seq[index]? with
    | none => return seq
    | some stmt => do
      requireLegal (stmt.ownViolations.map Violation.report)
      let step ← stepAt fuel frame (declared ++ (seq.take index).flatMap declaredNames) stmt
      let seq := Sequence.replaceAt seq index stmt.id step.stmts
      match step with
      | .revisit _ => lowerById fuel frame declared seq index
      | .enter stmt _ => do
        let stmt ← lowerStmt fuel frame stmt
        lowerById fuel frame declared (seq.set index stmt) (index + 1)

theorem Apart.of_covers {xs ys s s'} (h : Apart xs s.nextId)
    (hcovers : ∀ i, (identities i).Covers xs ys s s') : Apart ys s'.nextId :=
  have hderives : Derives xs ys s.nextId s'.nextId :=
    ⟨(hcovers 0).grows, fun i => (hcovers i).count⟩
  hderives.apart h

/-- If all statements have identities of their own, the members of a sequence do. -/
theorem Apart.nodup {xs next} (h : Apart (allOfStmts xs) next) : (xs.map Stmt.id).Nodup := by
  refine h.distinct.sublist ?_
  clear h
  induction xs with
  | nil => exact .slnil
  | cons x xs ih =>
    have hself : [x].Sublist x.all := by cases x; simp [Stmt.all]
    rw [allOfStmts, map_append, map_cons, ← singleton_append]
    exact (hself.map _).append ih

/-- Two runs that go on alike after each result of a first step are alike. -/
theorem bind_congr_ok {α β : Type} {m : LowerM α} {f g : α → LowerM β} {s : State}
    (h : ∀ a s', m s = .ok (a, s') → f a s' = g a s') : (m >>= f) s = (m >>= g) s := by
  show (m s >>= fun p => f p.1 p.2) = (m s >>= fun p => g p.1 p.2)
  cases hm : m s with
  | error r => rfl
  | ok p => exact h p.1 p.2 hm

theorem visits_of_stepAt {fuel env plan declared stmt s step s'}
    (h : stepAt fuel ⟨env, plan⟩ declared stmt s = .ok (step, s')) :
    Visits env plan stmt s step s' := by
  cases fuel with
  | zero => unfold stepAt at h; cases h
  | succ fuel =>
    exact (WalkRuns.stepAt_visits (fun _ _ => trivial) declared fun _ _ post _ _ _ =>
      (walk_runs env fuel).seq plan [] [post] s).of_ok h

theorem lowerById_eq (fuel : Nat) (frame : Frame) (declared : List String) (front rest : List Stmt)
    {s : State} (henv : frame.env.Positive) (hplan : ∀ p ∈ frame.plan, p.Ascending)
    (h : Apart (allOfStmts (front ++ rest)) s.nextId) :
    lowerById fuel frame declared (front ++ rest) front.length s =
      ((front ++ ·) <$> lowerSeq fuel frame (declared ++ front.flatMap declaredNames) rest) s := by
  induction fuel generalizing front rest s with
  | zero => rfl
  | succ fuel ih =>
    unfold lowerById lowerSeq
    cases rest with
    | nil => simp
    | cons stmt rest =>
      obtain ⟨env, plan⟩ := frame
      simp only [getElem?_append_right (Nat.le_refl _), Nat.sub_self, getElem?_cons_zero,
        take_left', map_bind]
      refine bind_congr_ok fun _ s₁ hlegal => ?_
      obtain ⟨rfl, hown⟩ := (WalkRuns.ensures_legal stmt).of_ok hlegal
      refine bind_congr_ok fun step s₂ hstep => ?_
      have hvisits := visits_of_stepAt hstep
      have sound (i : NodeId) := identities_sound_steps env i
      have hbeside {xs ys s s'} (hxs : ∀ i, (identities i).Covers xs ys s s') (i : NodeId)
          (rest : List Stmt) : (identities i).Covers (allOfStmts front ++ (xs ++ allOfStmts rest))
            (allOfStmts front ++ (ys ++ allOfStmts rest)) s s' :=
        (Ledger.Covers.refl _ s).append (sound i) ((hxs i).append (sound i) (.refl _ s'))
      -- the statements stay apart, so that what the step leaves is found in its place
      have hnew : Apart (allOfStmts (front ++ step.stmts ++ rest)) s₂.nextId := by
        refine h.of_covers fun i => ?_
        rw [append_assoc, allOfStmts_append, allOfStmts_append, allOfStmts_append, allOfStmts]
        exact hbeside (fun i => (sound i).visits hvisits henv hplan) i rest
      rw [Sequence.replaceAt_eq stmt.id hvisits.stmts_ne_nil hnew.nodup]
      cases step with
      | revisit stmts =>
        rw [append_assoc] at hnew ⊢
        exact ih front (stmts ++ rest) hnew
      | enter entered more =>
        simp only [map_bind]
        refine bind_congr_ok fun stmt' s₃ hstmt => ?_
        have hsupported : isSupported entered.form = true := hvisits.supported hown
        have hwalks := ((walk_runs env fuel).stmt plan entered s₂ hsupported).of_ok hstmt
        have hmore : Apart (allOfStmts ((front ++ [stmt']) ++ (more ++ rest))) s₃.nextId := by
          refine hnew.of_covers fun i => ?_
          simp only [Step.stmts, append_assoc, cons_append, allOfStmts_append, allOfStmts]
          rw [← allOfStmts_append]
          exact hbeside (fun i => (sound i).walks hwalks henv hplan) i (more ++ rest)
        have hset : (front ++ (Step.enter entered more).stmts ++ rest).set front.length stmt' =
            (front ++ [stmt']) ++ (more ++ rest) := by
          simp [Step.stmts]
        have hnext := ih (front ++ [stmt']) (more ++ rest) hmore
        rw [length_append, length_singleton, flatMap_append, flatMap_singleton,
          ← append_assoc declared] at hnext
        rw [hset, hnext]
        simp only [append_assoc, singleton_append, map_eq_pure_bind, pure_bind]

/-- A sequence is lowered alike by either walk. -/
theorem lowerById_eq_lowerSeq (fuel : Nat) {frame : Frame} (declared : List String)
    {seq : List Stmt} {s : State} (henv : frame.env.Positive)
    (hplan : ∀ p ∈ frame.plan, p.Ascending) (h : Apart (allOfStmts seq) s.nextId) :
    lowerById fuel frame declared seq 0 s = lowerSeq fuel frame declared seq s := by
  have heq := lowerById_eq fuel frame declared [] seq henv hplan h
  simpa using heq

end Lowering

end ScriptLowering
