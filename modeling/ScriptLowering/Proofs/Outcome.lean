import ScriptLowering.Lowering.Engine

/-!
# Outcomes of a lowering step

`Ensures m ok halt s` says what holds when the step `m` is done from the state `s`: `ok` of a
result and the state after it, `halt` of a reason to stop. The equations below run a step
symbolically, one elementary step at a time, so that a statement about a rule is proved from
its cases and never from the state monad.
-/

namespace ScriptLowering.Lowering

/-- The run was stopped by a report. -/
def Halt.IsFatal : Halt → Prop
  | fatal _ => True
  | outOfFuel => False

variable {α β : Type}

/-- What holds when `m` is done from `s`. -/
def Ensures (m : LowerM α) (ok : α → State → Prop) (halt : Halt → Prop) (s : State) : Prop :=
  match m s with
  | .ok (a, s') => ok a s'
  | .error h => halt h

namespace Ensures

variable {m : LowerM α} {ok ok' : α → State → Prop} {halt halt' : Halt → Prop} {s : State}

theorem mono (h : Ensures m ok halt s) (hok : ∀ a s', ok a s' → ok' a s')
    (hhalt : ∀ r, halt r → halt' r) : Ensures m ok' halt' s := by
  unfold Ensures at h ⊢
  split <;> simp_all

theorem imp (h : Ensures m ok halt s) (hok : ∀ a s', ok a s' → ok' a s') : Ensures m ok' halt s :=
  h.mono hok fun _ h => h

theorem of_ok {a s'} (h : Ensures m ok halt s) (hm : m s = .ok (a, s')) : ok a s' := by
  simpa [Ensures, hm] using h

theorem of_error {r} (h : Ensures m ok halt s) (hm : m s = .error r) : halt r := by
  simpa [Ensures, hm] using h

/-- To know what a step ensures it is enough to know it of each way the step can end. -/
theorem intro (hok : ∀ a s', m s = .ok (a, s') → ok a s')
    (hhalt : ∀ r, m s = .error r → halt r) : Ensures m ok halt s := by
  unfold Ensures
  split
  · exact hok _ _ ‹_›
  · exact hhalt _ ‹_›

/-- What is known of the results and what is known of the reasons to stop, together. -/
theorem and (h : Ensures m ok (fun _ => True) s) (h' : Ensures m (fun _ _ => True) halt s) :
    Ensures m ok halt s :=
  intro (fun _ _ hm => h.of_ok hm) fun _ hm => h'.of_error hm

/-- The rule of sequencing: a middle assertion carries over from `m` to what follows it. -/
theorem bind {f mid} {ok : β → State → Prop} (h : Ensures m mid halt s)
    (hf : ∀ a s', mid a s' → Ensures (f a) ok halt s') : Ensures (m >>= f) ok halt s := by
  unfold Ensures at h ⊢
  simp only [Bind.bind, StateT.bind, Except.bind]
  cases hm : m s with
  | error r => simpa [hm] using h
  | ok p =>
    simp only [hm] at h
    exact hf p.1 p.2 h

/-- Where it does not matter how a run stops, only its successful first step is followed. -/
theorem follow {f : α → LowerM β} {ok : β → State → Prop}
    (h : ∀ a s', m s = .ok (a, s') → Ensures (f a) ok (fun _ => True) s') :
    Ensures (m >>= f) ok (fun _ => True) s :=
  (intro h fun _ _ => trivial).bind fun _ _ h => h

end Ensures

section Steps

variable {ok : α → State → Prop} {halt : Halt → Prop} {s : State}

@[simp] theorem ensures_pure (a : α) : Ensures (pure a) ok halt s ↔ ok a s := Iff.rfl

@[simp] theorem ensures_bind (m : LowerM β) (f : β → LowerM α) :
    Ensures (m >>= f) ok halt s ↔ Ensures m (fun b => Ensures (f b) ok halt) halt s := by
  simp only [Ensures, Bind.bind, StateT.bind, Except.bind]
  cases m s <;> rfl

@[simp] theorem ensures_get {ok} : Ensures get ok halt s ↔ ok s s := Iff.rfl

@[simp] theorem ensures_warn {ok} (report : Diagnostic) : Ensures (warn report) ok halt s ↔
      ok () { s with warnings := s.warnings ++ [report] } := Iff.rfl

@[simp] theorem ensures_newStmt {ok} (form : StmtForm) (span : Span) :
    Ensures (newStmt form span) ok halt s ↔
      ok ⟨s.nextId, span, form⟩ { s with nextId := s.nextId + 1 } := Iff.rfl

@[simp] theorem ensures_newName {ok} (env : Env) : Ensures (newName env) ok halt s ↔
      ok (env.options.discardName s.discards) { s with discards := s.discards + 1 } := Iff.rfl

@[simp] theorem ensures_declareVars {ok} (vars : List Var) (span : Span) :
    Ensures (declareVars vars span) ok halt s ↔
      ok ⟨s.nextId, span, .decl (varDecl vars span)⟩ { s with nextId := s.nextId + 1 } := Iff.rfl

@[simp] theorem ensures_requireType {ok} (answer : Option ResolvedType) (what : String)
    (span : Span) : Ensures (requireType answer what span) ok halt s ↔
      match answer with
      | some type => ok type.annotation s
      | none => halt (.fatal (unknownType what span)) := by
  cases answer <;> rfl

@[simp] theorem ensures_requireLegal {ok} (reports : List Diagnostic) :
    Ensures (requireLegal reports) ok halt s ↔
      match reports with
      | [] => ok () s
      | report :: _ => halt (.fatal report) := by
  cases reports <;> rfl

end Steps

/-! ## Outcomes whatever the state -/

/-- From every state, `m` ends in a result with `out` or stops for a reason with `halt`. -/
def Yields (m : LowerM α) (out : α → Prop) (halt : Halt → Prop) : Prop :=
  ∀ s, Ensures m (fun a _ => out a) halt s

namespace Yields

variable {m : LowerM α} {out out' : α → Prop} {halt halt' : Halt → Prop}

theorem any (m : LowerM α) : Yields m (fun _ => True) fun _ => True :=
  fun _ => .intro (fun _ _ _ => trivial) fun _ _ => trivial

theorem of_ok {a s s'} (h : Yields m out halt) (hm : m s = .ok (a, s')) : out a :=
  (h s).of_ok hm

theorem pure {a} (h : out a) : Yields (Pure.pure a) out halt := fun _ => h

theorem fail {report} (h : halt (.fatal report)) :
    Yields (Lowering.fail report : LowerM α) out halt := fun _ => h

theorem bind {f} {out' : β → Prop} (h : Yields m out halt)
    (hf : ∀ a, out a → Yields (f a) out' halt) : Yields (m >>= f) out' halt := by
  intro s
  rw [ensures_bind]
  exact (h s).mono (fun a s' ha => hf a ha s') fun _ hr => hr

theorem mapM {f} {out : β → Prop} {l : List α} (h : ∀ a ∈ l, Yields (f a) out halt) :
    Yields (l.mapM f) (fun bs => ∀ b ∈ bs, out b) halt := by
  induction l with
  | nil => exact .pure (by simp)
  | cons a l ih =>
    rw [List.mapM_cons]
    refine (h a (by simp)).bind fun b hb => ?_
    refine (ih fun a ha => h a (by simp [ha])).bind fun bs hbs => .pure ?_
    simpa using ⟨hb, hbs⟩

end Yields

/-- How the lowering of a file ends, from what the lowering of its declarations does. -/
theorem lowerWith_outcome {file : SourceFile} {fuel resolver options ok halt}
    (h : Ensures (file.decls.mapM (lowerDecl fuel ⟨resolver, options, shapesOf file⟩)) ok halt
      { nextId := file.nextId }) : (∀ lowered, file.lowerWith fuel resolver options = .ok lowered →
      ∃ s, ok lowered.file.decls s ∧
        lowered = ⟨{ file with decls := lowered.file.decls, nextId := s.nextId }, s.warnings⟩) ∧
      ∀ r, file.lowerWith fuel resolver options = .error r → halt r := by
  unfold SourceFile.lowerWith
  simp only [StateT.run, Bind.bind, Except.bind]
  cases hrun : file.decls.mapM (lowerDecl fuel ⟨resolver, options, shapesOf file⟩)
      { nextId := file.nextId } with
  | error r =>
    refine ⟨by simp, ?_⟩
    rintro _ ⟨⟩
    exact h.of_error hrun
  | ok p =>
    refine ⟨?_, by simp [Pure.pure, Except.pure]⟩
    rintro _ ⟨⟩
    exact ⟨p.2, h.of_ok hrun, rfl⟩

end ScriptLowering.Lowering
