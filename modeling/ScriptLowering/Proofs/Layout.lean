import ScriptLowering.Proofs.ParseResult
import ScriptLowering.Proofs.Relabelling

/-!
# Parsing without looking at places

No rule of the grammar looks at the place of a token, nor at the line breaks before it once those
that end a statement are tokens of their own. `Blind u p q` says that `q` does without places what
`p` does with them, and that `p` leaves its context as it was; every rule is blind, by induction on
its fuel (`RulesBlind`). So what a parse gives depends on the layout of a file only through the line
breaks that end a statement, and a rule comes back at the nesting level it was called at, inside a
header if it was called there (`rules_restore_context`).
-/

namespace ScriptLowering.Grammar

open List

variable {c : Prop} {kind : Token.Kind} {tokens tokens' : List Token}

variable {α β γ : Type}

/-- The nesting level and the header flag are what they were. -/
def State.Restores (s s' : State) : Prop := s'.depth = s.depth ∧ s'.inHeader = s.inHeader

/-- From a state without places, `q` does what `p` does from the state with them. The result
without places is taken by `u`. The context is restored. -/
def Blind (u : α → α) (p q : Parse α) : Prop :=
  ∀ s : State, q s.unplaced = (p s).map (Prod.map u State.unplaced) ∧
    ∀ read ∈ p s, s.Restores read.2

/-- The parser does without places what it does with them. -/
abbrev Steady (u : α → α) (p : Parse α) : Prop := Blind u p p

/-! ## Steps -/

namespace Blind

variable {u : α → α} {v : β → β} {p q : Parse α} {f g : α → Parse β}

theorem bind (hp : Blind u p q) (hf : ∀ a, Blind v (f a) (g (u a))) :
    Blind v (p >>= f) (q >>= g) := by
  intro s
  obtain ⟨heq, hfirst⟩ := hp s
  simp only [Bind.bind, StateT.bind, heq]
  cases hrun : p s with
  | none => exact ⟨rfl, by simp⟩
  | some result =>
    obtain ⟨hdepth, hheader⟩ := hfirst result hrun
    obtain ⟨heq', hrest⟩ := hf result.1 result.2
    refine ⟨heq', fun read hread => ?_⟩
    exact ⟨(hrest read hread).1.trans hdepth, (hrest read hread).2.trans hheader⟩

theorem pure {a b} (h : b = u a) : Blind u (Pure.pure a) (Pure.pure b) := by
  intro s
  rw [h]
  refine ⟨rfl, ?_⟩
  rintro _ ⟨⟩
  exact ⟨rfl, rfl⟩

theorem outOfFuel : Blind u outOfFuel outOfFuel := fun _ => ⟨rfl, fun _ h => nomatch h⟩

theorem ite [Decidable c] {p' q'} (h : Blind u p q) (h' : Blind u p' q') :
    Blind u (if c then p else p') (if c then q else q') := by
  split
  · exact h
  · exact h'

/-- A step that is taken only in one case. -/
theorem when_bind [Decidable c] {p q f g} (hp : Blind id p q) (hf : Blind v (f ()) (g ())) :
    Blind v (if c then p >>= f else f ()) (if c then q >>= g else g ()) :=
  .ite (hp.bind fun _ => hf) hf

/-- A part that is read only in one case. -/
theorem some_bind [Decidable c] {f g} (hp : Blind u p q) (hf : ∀ x, Blind v (f x) (g (x.map u))) :
    Blind v (if c then p >>= fun a => Pure.pure (some a) >>= f else Pure.pure none >>= f)
      (if c then q >>= fun a => Pure.pure (some a) >>= g else Pure.pure none >>= g) :=
  .ite (hp.bind fun a => hf (some a)) (hf none)

/-- A part that is read in all cases but one. -/
theorem none_bind [Decidable c] {f g} (hp : Blind u p q) (hf : ∀ x, Blind v (f x) (g (x.map u))) :
    Blind v (if c then Pure.pure none >>= f else p >>= fun a => Pure.pure (some a) >>= f)
      (if c then Pure.pure none >>= g else q >>= fun a => Pure.pure (some a) >>= g) :=
  .ite (hf none) (hp.bind fun a => hf (some a))

theorem get_bind {f g} (h : ∀ s : State, Blind v (f s) (g s.unplaced)) :
    Blind v (get >>= f) (get >>= g) :=
  fun s => h s s

theorem peek_bind {f g} (h : ∀ kind, Blind v (f kind) (g kind)) :
    Blind v (peek >>= f) (peek >>= g) :=
  fun s => h s.current.kind s

theorem peekNext_bind {f g} (h : ∀ kind, Blind v (f kind) (g kind)) :
    Blind v (peekNext >>= f) (peekNext >>= g) := by
  intro s
  have hnext : peekNext s.unplaced = (peekNext s).map (Prod.map id State.unplaced) := by
    obtain ⟨before, current, ahead, depth, inHeader, nextId, reports⟩ := s
    cases ahead <;> rfl
  simp only [Bind.bind, StateT.bind, hnext]
  exact h _ s

theorem currentSpan_bind {f g} (h : ∀ span, Blind v (f span) (g .origin)) :
    Blind v (currentSpan >>= f) (currentSpan >>= g) :=
  fun s => h s.current.span s

theorem previousSpan_bind {f g} (h : ∀ span, Blind v (f span) (g .origin)) :
    Blind v (previousSpan >>= f) (previousSpan >>= g) := by
  intro s
  obtain ⟨before, current, ahead, depth, inHeader, nextId, reports⟩ := s
  cases before with
  | none => exact h current.span _
  | some span => exact h span _

theorem remaining_bind {f g} (h : ∀ n, Blind v (f n) (g n)) :
    Blind v (remaining >>= f) (remaining >>= g) := by
  intro s
  have hn : remaining s.unplaced = some (s.ahead.length, s.unplaced) := by
    rw [← length_map Token.unplaced]
    rfl
  simp only [Bind.bind, StateT.bind, hn]
  exact h _ s

theorem sees_bind {f g} (h : ∀ b, Blind v (f b) (g b)) :
    Blind v (sees kind >>= f) (sees kind >>= g) :=
  fun s => h (s.current.kind == kind) s

end Blind

theorem State.advanced_unplaced (s : State) : s.unplaced.advanced = s.advanced.unplaced := by
  obtain ⟨before, current, ahead, depth, inHeader, nextId, reports⟩ := s
  cases ahead <;> rfl

theorem advance_blind : Steady Token.unplaced advance := by
  intro s
  constructor
  · show some (s.unplaced.current, s.unplaced.advanced) = _
    rw [s.advanced_unplaced]
    rfl
  · rintro _ ⟨⟩
    exact ⟨s.advanced_fields.1, s.advanced_fields.2.1⟩

/-- The step that a rule takes to get on when what it called has read nothing. -/
theorem Blind.forced_bind {u} [Decidable c] {next next' : Parse α} (h : Blind u next next') :
    Blind u
      (if c then do
        let _ ← advance
        next
      else next)
      (if c then do
        let _ ← advance
        next'
      else next') :=
  .ite (advance_blind.bind fun _ => h) h

section Moving

variable {u : α → α} {v : β → β}

namespace Blind

theorem eat_bind {f g} (h : ∀ b, Blind v (f b) (g b)) :
    Blind v (eat kind >>= f) (eat kind >>= g) := by
  have heat : Steady id (eat kind) :=
    .sees_bind fun b => .ite (advance_blind.bind fun _ => .pure rfl) (.pure rfl)
  exact heat.bind h

theorem addReport {report report'} (h : report' = report.unplaced) :
    Blind id (addReport report) (Grammar.addReport report') := by
  intro s
  constructor
  · show some ((), { s.unplaced with reports := s.unplaced.reports ++ [report'] }) =
      some ((), State.unplaced { s with reports := s.reports ++ [report] })
    simp [h, State.unplaced]
  · rintro _ ⟨⟩
    exact ⟨rfl, rfl⟩

end Blind

theorem want_blind (wanted : Wanted) : Steady id (want wanted) :=
  .get_bind fun _ => .addReport rfl

theorem refuse_blind (misuse : Misuse) {span span'} (h : span' = .origin) :
    Blind id (refuse misuse span) (refuse misuse span') := by
  rw [h]
  exact .addReport rfl

theorem Blind.expect_bind {f g} (h : ∀ span, Blind v (f span) (g .origin)) :
    Blind v (expect kind >>= f) (expect kind >>= g) := by
  have hexpect : Steady (fun _ => .origin) (expect kind) := by
    refine .currentSpan_bind fun span => .sees_bind fun b => ?_
    refine .ite (advance_blind.bind fun _ => .pure rfl) ((want_blind _).bind fun _ => .pure rfl)
  exact hexpect.bind h

/-- What stands in front of a closing bracket. -/
theorem Blind.closed {p} (h : Steady u p) (kind : Token.Kind) :
    Steady u (do let a ← p; let _ ← expect kind; return a) :=
  h.bind fun _ => .expect_bind fun _ => .pure rfl

theorem name_blind : Steady Name.unplaced name := by
  refine .sees_bind fun b => .ite (advance_blind.bind fun token => .pure rfl) ?_
  exact (want_blind _).bind fun _ => .currentSpan_bind fun span => .pure rfl

theorem State.skipped_go_unplaced (s : State) (before : Option Span) (current : Token)
    (ahead : List Token) :
    State.skipped.go s.unplaced (before.map fun _ => .origin) current.unplaced
      (ahead.map Token.unplaced) = (State.skipped.go s before current ahead).unplaced := by
  induction ahead generalizing before current with
  | nil => rfl
  | cons next rest ih =>
    rw [map_cons]
    unfold State.skipped.go
    rw [show endsSkip current.unplaced.kind = endsSkip current.kind from rfl]
    split
    · rfl
    · exact ih (some current.span) next

theorem skipStatement_blind : Steady id skipStatement := by
  have hskip : Steady id (modify State.skipped) := by
    intro s
    have hskipped : s.unplaced.skipped = s.skipped.unplaced :=
      s.skipped_go_unplaced s.before s.current s.ahead
    constructor
    · show some ((), s.unplaced.skipped) = _
      rw [hskipped]
      rfl
    · rintro _ ⟨⟩
      exact ⟨s.skipped_fields.1, s.skipped_fields.2.1⟩
  exact hskip.bind fun _ => .eat_bind fun _ => .pure rfl

theorem terminator_blind : Steady id terminator := by
  refine .peek_bind fun kind => ?_
  split
  · exact advance_blind.bind fun _ => .pure rfl
  · exact .pure rfl
  · exact .pure rfl
  · exact .pure rfl
  · exact (want_blind _).bind fun _ => skipStatement_blind

theorem eatNewline_blind : Steady id eatNewline :=
  .get_bind fun _ => .ite (advance_blind.bind fun _ => .pure rfl) (.pure rfl)

theorem newStmt_blind {form form' span span'} (h : form' = form.unplaced)
    (hspan : span' = .origin) : Blind Stmt.unplaced (newStmt form span) (newStmt form' span') := by
  intro s
  rw [h, hspan]
  refine ⟨rfl, ?_⟩
  rintro _ ⟨⟩
  exact ⟨rfl, rfl⟩

/-- The step `p` is another one within another state that has no effect on places. -/
theorem Blind.within {body body'} (h : Blind u body body') (enter : State → State)
    (leave : State → State → State) (henter : ∀ s, (enter s).unplaced = enter s.unplaced)
    (hleave : ∀ s s', (leave s s').unplaced = leave s.unplaced s'.unplaced)
    (hcontext : ∀ s s', (enter s).Restores s' → s.Restores (leave s s')) :
    Blind u (fun s => (body (enter s)).map (Prod.map id (leave s)))
      (fun s => (body' (enter s)).map (Prod.map id (leave s))) := by
  intro s
  obtain ⟨heq, hrestores⟩ := h (enter s)
  constructor
  · dsimp only
    rw [← henter, heq]
    cases body (enter s) with
    | none => rfl
    | some read => simp [Prod.map, hleave]
  · intro read hread
    obtain ⟨inner, hinner, rfl⟩ := Option.map_eq_some_iff.1 hread
    exact hcontext s inner.2 (hrestores inner hinner)

theorem withHeader_blind {inHeader body body'} (h : Blind u body body') :
    Blind u (withHeader inHeader body) (withHeader inHeader body') := by
  have hrun (p : Parse α) : withHeader inHeader p = fun s =>
      (p { s with inHeader }).map (Prod.map id fun s' => { s' with inHeader := s.inHeader }) := by
    funext s
    show (p { s with inHeader }).bind
      (fun read => some (read.1, { read.2 with inHeader := s.inHeader })) = _
    cases p { s with inHeader } <;> rfl
  rw [hrun, hrun]
  exact h.within (fun s => { s with inHeader }) (fun s s' => { s' with inHeader := s.inHeader })
    (fun _ => rfl) (fun _ _ => rfl) fun _ _ hinner => ⟨hinner.1, rfl⟩

theorem nested_blind {otherwise otherwise' body body'} (hother : Blind u otherwise otherwise')
    (h : Blind u body body') : Blind u (nested otherwise body) (nested otherwise' body') := by
  have hrun (p p' : Parse α) (s : State) : nested p p' s =
      if nestingLimit < s.depth + 1 then (do refuse .tooDeep (← currentSpan); p) s
      else (p' { s with depth := s.depth + 1 }).map
        (Prod.map id fun s' => { s' with depth := s'.depth - 1 }) := by
    show (if nestingLimit < s.depth + 1 then _ else _ : Parse α) _ = _
    split
    · rfl
    · show (p' { s with depth := s.depth + 1 }).bind
        (fun read => some (read.1, { read.2 with depth := read.2.depth - 1 })) = _
      cases p' { s with depth := s.depth + 1 } <;> rfl
  intro s
  rw [hrun, hrun]
  show (if nestingLimit < s.depth + 1 then _ else _) = _ ∧ _
  split
  · exact Blind.currentSpan_bind (fun span => (refuse_blind _ rfl).bind fun _ => hother) s
  · -- The level is raised before the body, which comes back one level deeper.
    exact h.within (fun s => { s with depth := s.depth + 1 })
      (fun _ s' => { s' with depth := s'.depth - 1 }) (fun _ => rfl) (fun _ _ => rfl)
      (fun _ _ hinner => ⟨by simp [hinner.1], hinner.2⟩) s

end Moving

/-! ## Rules -/

/-- The rules with a given amount of fuel are blind. -/
structure RulesBlind (fuel : Nat) : Prop where
  expr : Steady Expr.unplaced (expr fuel)
  exprList : Steady (map Expr.unplaced) (exprList fuel)
  exprAbove : ∀ least, Steady Expr.unplaced (exprAbove fuel least)
  binaryRest : ∀ least left,
    Blind Expr.unplaced (binaryRest fuel least left) (binaryRest fuel least left.unplaced)
  unaryExpr : Steady Expr.unplaced (unaryExpr fuel)
  suffixes : ∀ {base base'}, base' = base.unplaced →
    Blind Expr.unplaced (suffixes fuel base) (suffixes fuel base')
  arguments : Steady (Prod.map (map Expr.unplaced) id) (arguments fuel)
  argument : Steady Expr.unplaced (argument fuel)
  typeOrComposite : Steady Expr.unplaced (typeOrComposite fuel)
  subscript : ∀ base, Blind Expr.unplaced (subscript fuel base) (subscript fuel base.unplaced)
  primary : Steady Expr.unplaced (primary fuel)
  composite : ∀ type start, Blind Expr.unplaced (composite fuel type start)
    (composite fuel (type.map TypeExpr.unplaced) .origin)
  elements : Steady (map Expr.unplaced) (elements fuel)
  element : Steady Expr.unplaced (element fuel)
  typeExpr : Steady Located.unplaced (typeExpr fuel)
  typeForm : Steady TypeExpr.unplaced (typeForm fuel)
  structFields : Steady (map Field.unplaced) (structFields fuel)
  interfaceMethods : Steady (map Field.unplaced) (interfaceMethods fuel)
  signature : Steady (Prod.map (map Field.unplaced) (map Field.unplaced)) (signature fuel)
  parameters : Steady (map Field.unplaced) (parameters fuel)
  paramEntries : Steady (map ParamEntry.unplaced) (paramEntries fuel)
  paramEntry : Steady ParamEntry.unplaced (paramEntry fuel)
  paramType : Steady Located.unplaced (paramType fuel)
  genDecl : Steady GenDecl.unplaced (genDecl fuel)
  specGroup : ∀ keyword,
    Steady (map Spec.unplaced) (specGroup fuel keyword)
  spec : ∀ keyword, Steady Spec.unplaced (spec fuel keyword)
  block : Steady Block.unplaced (block fuel)
  stmtList : Steady (map Stmt.unplaced) (stmtList fuel)
  stmt : Steady Stmt.unplaced (stmt fuel)
  blockStmt : Steady Stmt.unplaced (blockStmt fuel)
  launchedCall : Steady Expr.unplaced (launchedCall fuel)
  simpleStmt : Steady Stmt.unplaced (simpleStmt fuel)
  simple : ∀ rangeAllowed,
    Steady Simple.unplaced (simple fuel rangeAllowed)
  header : Steady (Prod.map (Option.map Stmt.unplaced) (Option.map Stmt.unplaced)) (header fuel)
  ifStmt : Steady Stmt.unplaced (ifStmt fuel)
  switchStmt : Steady Stmt.unplaced (switchStmt fuel)
  caseClauses : Steady (map CaseClause.unplaced) (caseClauses fuel)
  caseArms : Steady (map CaseClause.unplaced) (caseArms fuel)
  selectStmt : Steady Stmt.unplaced (selectStmt fuel)
  commArms : Steady (map CommClause.unplaced) (commArms fuel)
  forStmt : Steady Stmt.unplaced (forStmt fuel)
  loopHead : Steady LoopHead.unplaced (loopHead fuel)
  loopClauses : ∀ init, Blind LoopHead.unplaced (loopClauses fuel init)
    (loopClauses fuel (init.map Stmt.unplaced))

section RulesBlind

variable {fuel : Nat} (rules : RulesBlind fuel)
include rules

/-! ### Expressions -/

theorem unaryExpr_blind : Steady Expr.unplaced (unaryExpr (fuel + 1)) := by
  refine .currentSpan_bind fun start => .peek_bind fun kind => .peekNext_bind fun next => .ite ?_ ?_
  · exact rules.typeExpr.bind fun type => rules.suffixes rfl
  · split
    · exact rules.primary.bind fun base => rules.suffixes rfl
    · refine advance_blind.bind fun _ => nested_blind (.pure rfl) ?_
      refine rules.unaryExpr.bind fun operand => .pure ?_
      rw [operand.span_unplaced]
      rfl

theorem suffixes_blind {base base'} (hbase : base' = base.unplaced) :
    Blind Expr.unplaced (suffixes (fuel + 1) base) (suffixes (fuel + 1) base') := by
  unfold suffixes
  rw [hbase, base.span_unplaced, compositeType?_unplaced]
  refine .peek_bind fun kind => ?_
  split
  · refine advance_blind.bind fun _ => .eat_bind fun paren => .ite ?_ ?_
    · refine .eat_bind fun guard => ?_
      extract_lets next next'
      have hnext : ∀ type, Blind Expr.unplaced (next type) (next' (type.map TypeExpr.unplaced)) :=
        fun type => .expect_bind fun _ => .previousSpan_bind fun last =>
          rules.suffixes (by simp)
      exact .ite (hnext none) (rules.typeExpr.bind fun type => hnext (some type.val))
    · exact name_blind.bind fun member => rules.suffixes rfl
  · exact advance_blind.bind fun _ =>
      (withHeader_blind (rules.subscript base)).bind fun e => rules.suffixes rfl
  · refine advance_blind.bind fun _ => ?_
    refine (withHeader_blind (rules.arguments.closed _)).bind fun args =>
      .previousSpan_bind fun last => ?_
    exact rules.suffixes (by simp)
  · refine .get_bind fun s => .ite (.pure rfl) ?_
    cases compositeType? base with
    | none => exact .pure rfl
    | some type => exact (rules.composite (some type) base.span).bind fun e => rules.suffixes rfl
  · exact .pure rfl

theorem primary_blind : Steady Expr.unplaced (primary (fuel + 1)) := by
  refine .get_bind fun s => ?_
  have hspan : s.unplaced.current.span = .origin := rfl
  have htext : s.unplaced.current.text = s.current.text := rfl
  have hkind : s.unplaced.current.kind = s.current.kind := rfl
  have hlit : literal? s.unplaced.current = literal? s.current := rfl
  dsimp only
  rw [hspan, htext, hkind, hlit]
  refine .ite (advance_blind.bind fun _ => .pure rfl) ?_
  split
  · exact advance_blind.bind fun _ => .pure rfl
  · refine advance_blind.bind fun _ => (withHeader_blind rules.expr).bind fun inner => ?_
    exact .expect_bind fun _ => .previousSpan_bind fun last => .pure rfl
  · refine advance_blind.bind fun _ => rules.signature.bind fun lists => .sees_bind fun _ => ?_
    refine .ite (rules.block.bind fun body => .previousSpan_bind fun last => .pure ?_) ?_
    · simp
    · exact .previousSpan_bind fun last => .pure (by simp)
  iterate 5 exact rules.typeOrComposite
  · split
    · exact advance_blind.bind fun _ => .pure rfl
    · refine (want_blind _).bind fun _ => ?_
      exact .ite (advance_blind.bind fun _ => .pure rfl) (.pure rfl)

/-! ### Types -/

theorem typeForm_blind : Steady TypeExpr.unplaced (typeForm (fuel + 1)) := by
  refine .peek_bind fun kind => .ite (advance_blind.bind fun _ => .pure rfl) ?_
  split
  · refine name_blind.bind fun first => .sees_bind fun _ => .peekNext_bind fun next => ?_
    refine .ite (advance_blind.bind fun _ => ?_) (.pure rfl)
    exact name_blind.bind fun member => .pure rfl
  · exact advance_blind.bind fun _ => rules.typeExpr.bind fun elem => .pure rfl
  · refine advance_blind.bind fun _ => .sees_bind fun _ => ?_
    refine .none_bind (withHeader_blind rules.expr) fun length => .expect_bind fun _ => ?_
    exact rules.typeExpr.bind fun elem => .pure (by simp [Located.relabel])
  · refine advance_blind.bind fun _ => .expect_bind fun _ => rules.typeExpr.bind fun key => ?_
    exact .expect_bind fun _ => rules.typeExpr.bind fun elem => .pure rfl
  · refine advance_blind.bind fun _ => .eat_bind fun arrow => ?_
    exact rules.typeExpr.bind fun elem => .pure rfl
  · refine advance_blind.bind fun _ => .expect_bind fun _ => ?_
    exact rules.typeExpr.bind fun elem => .pure rfl
  · refine advance_blind.bind fun _ => rules.signature.bind fun lists => .pure ?_
    simp
  · refine advance_blind.bind fun _ => .expect_bind fun _ => ?_
    refine rules.structFields.bind fun fields => ?_
    exact .expect_bind fun _ => .pure (by simp)
  · refine advance_blind.bind fun _ => .expect_bind fun _ => ?_
    refine rules.interfaceMethods.bind fun methods => .expect_bind fun _ => .pure ?_
    simp
  · refine advance_blind.bind fun _ => rules.typeExpr.bind fun inner => ?_
    exact .expect_bind fun _ => .pure rfl
  · exact (want_blind _).bind fun _ => .pure rfl

omit rules in
theorem namesAfter_blind (fuel : Nat) : Steady (map Name.unplaced) (namesAfter fuel) := by
  induction fuel with
  | zero => exact .outOfFuel
  | succ fuel ih =>
    refine .eat_bind fun more => .ite ?_ (.pure rfl)
    exact name_blind.bind fun next => ih.bind fun rest => .pure rfl

omit rules in
theorem names_blind (fuel : Nat) : Steady (map Name.unplaced) (names fuel) :=
  name_blind.bind fun _ => (namesAfter_blind fuel).bind fun _ => .pure rfl

theorem structFields_blind : Steady (map Field.unplaced) (structFields (fuel + 1)) := by
  refine .sees_bind fun _ => .sees_bind fun _ => .ite (.pure rfl) ?_
  refine .eat_bind fun semicolon => .ite rules.structFields ?_
  refine .remaining_bind fun left => .peekNext_bind fun next => .sees_bind fun _ => ?_
  refine .sees_bind fun _ => ?_
  extract_lets embedded entry
  have hentry : ∀ {field field'}, field' = field.unplaced →
      Blind (map Field.unplaced) (entry field) (entry field') := by
    rintro field _ rfl
    refine .eat_bind fun _ => terminator_blind.bind fun _ => .remaining_bind fun n => ?_
    exact .forced_bind (rules.structFields.bind fun rest => .pure rfl)
  refine .ite (rules.typeExpr.bind fun type => hentry rfl) ?_
  exact (names_blind fuel).bind fun bound => rules.typeExpr.bind fun type => hentry rfl

theorem interfaceMethods_blind : Steady (map Field.unplaced)
    (interfaceMethods (fuel + 1)) := by
  refine .sees_bind fun _ => .sees_bind fun _ => .ite (.pure rfl) ?_
  refine .eat_bind fun semicolon => .ite rules.interfaceMethods ?_
  refine .remaining_bind fun left => .sees_bind fun _ => .peekNext_bind fun next => ?_
  extract_lets entry
  have hentry : ∀ {field field'}, field' = field.unplaced →
      Blind (map Field.unplaced) (entry field) (entry field') := by
    rintro field _ rfl
    refine terminator_blind.bind fun _ => .remaining_bind fun n => ?_
    exact .forced_bind (rules.interfaceMethods.bind fun rest => .pure rfl)
  refine .ite (name_blind.bind fun bound => .currentSpan_bind fun start => ?_) ?_
  · refine rules.signature.bind fun lists => .previousSpan_bind fun last => hentry ?_
    simp
  · exact rules.typeExpr.bind fun type => hentry rfl

/-! ### Signatures -/

omit rules in
theorem groupNamed_blind (pending : List Name) (entries : List ParamEntry) :
    Blind (map Field.unplaced) (groupNamed pending entries)
      (groupNamed (pending.map Name.unplaced) (entries.map ParamEntry.unplaced)) := by
  induction entries generalizing pending with
  | nil =>
    rw [map_nil]
    unfold groupNamed
    rw [getLast?_map]
    cases pending.getLast? with
    | none => exact .pure rfl
    | some last => exact (refuse_blind _ rfl).bind fun _ => .pure rfl
  | cons entry entries ih =>
    rw [map_cons]
    cases entry with
    | lone name =>
      have hpending : pending.map Name.unplaced ++ [name.unplaced] =
          (pending ++ [name]).map Name.unplaced := by simp
      show Blind _ (groupNamed (pending ++ [name]) entries)
        (groupNamed (pending.map Name.unplaced ++ [name.unplaced]) _)
      rw [hpending]
      exact ih (pending ++ [name])
    | named name type =>
      exact (ih []).bind fun rest => .pure (by cases type; simp [Located.relabel])
    | bare type =>
      exact (refuse_blind _ rfl).bind fun _ => ih pending

omit rules in
theorem groupParams_blind (entries : List ParamEntry) :
    Blind (map Field.unplaced) (groupParams entries)
      (groupParams (entries.map ParamEntry.unplaced)) := by
  have hnamed (entry : ParamEntry) : entry.unplaced.isNamed = entry.isNamed := by
    cases entry <;> rfl
  have hunnamed (entry : ParamEntry) : entry.unplaced.unnamed = entry.unnamed.unplaced := by
    cases entry <;> rfl
  unfold groupParams
  rw [any_map, show ParamEntry.isNamed ∘ ParamEntry.unplaced = ParamEntry.isNamed from
    funext hnamed]
  refine .ite (groupNamed_blind [] entries) (.pure ?_)
  simp [hunnamed]

/-! ### Declarations -/

theorem spec_blind (keyword : DeclKeyword) : Steady Spec.unplaced (spec (fuel + 1) keyword) := by
  refine .ite ?_ ?_
  · exact name_blind.bind fun bound => .eat_bind fun isAlias =>
      rules.typeExpr.bind fun type => .pure rfl
  · refine (names_blind fuel).bind fun bound => .peek_bind fun kind => ?_
    refine .some_bind rules.typeExpr fun type => .eat_bind fun assigned => ?_
    extract_lets next next'
    have hnext : ∀ values, Blind Spec.unplaced (next values)
        (next' (values.map Expr.unplaced)) := by
      intro values
      have hvalue : Spec.value (bound.map Name.unplaced) (type.map Located.unplaced)
          (values.map Expr.unplaced) = (Spec.value bound type values).unplaced := by
        simp
      cases type <;> cases values <;> exact .when_bind (want_blind _) (.pure hvalue)
    exact .ite (rules.exprList.bind hnext) (hnext [])

/-! ### Statements -/

omit rules in
theorem jumpStmt_blind (start : Span) (jump : Jump) :
    Blind Stmt.unplaced (jumpStmt start jump) (jumpStmt .origin jump) := by
  refine advance_blind.bind fun _ => .sees_bind fun _ => ?_
  extract_lets next _ next' _
  have hnext : ∀ label, Blind Stmt.unplaced (next label) (next' (label.map Name.unplaced)) :=
    fun label => .previousSpan_bind fun last => newStmt_blind rfl rfl
  refine .ite (name_blind.bind fun label => hnext (some label)) ?_
  exact .when_bind (want_blind _) (hnext none)

theorem stmt_blind : Steady Stmt.unplaced (stmt (fuel + 1)) := by
  have hdecl : Steady Stmt.unplaced (do
        let decl ← genDecl fuel
        newStmt (.decl decl) decl.span) :=
    rules.genDecl.bind fun decl => newStmt_blind rfl (by cases decl; rfl)
  refine .currentSpan_bind fun start => .peek_bind fun kind => ?_
  split
  · exact hdecl
  · exact hdecl
  · exact hdecl
  · refine advance_blind.bind fun _ => .sees_bind fun _ => .sees_bind fun _ => ?_
    extract_lets next next'
    have hnext : ∀ values, Blind Stmt.unplaced (next values) (next' (values.map Expr.unplaced)) :=
      fun values => .previousSpan_bind fun last =>
        newStmt_blind (by simp) rfl
    exact .ite (hnext []) (rules.exprList.bind hnext)
  · exact jumpStmt_blind start _
  · exact jumpStmt_blind start _
  · exact jumpStmt_blind start _
  · exact advance_blind.bind fun _ => newStmt_blind rfl rfl
  · exact rules.launchedCall.bind fun call => newStmt_blind rfl (by simp)
  · exact rules.launchedCall.bind fun call => newStmt_blind rfl (by simp)
  · exact rules.blockStmt
  · exact rules.ifStmt
  · exact rules.switchStmt
  · exact rules.selectStmt
  · exact rules.forStmt
  · refine .peekNext_bind fun next => .ite ?_ rules.simpleStmt
    refine name_blind.bind fun label => advance_blind.bind fun _ => .sees_bind fun _ => ?_
    refine .sees_bind fun _ => ?_
    extract_lets next next'
    have hnext : ∀ inner, Blind Stmt.unplaced (next inner) (next' inner.unplaced) :=
      fun inner => newStmt_blind rfl (by cases inner; rfl)
    refine .ite (.previousSpan_bind fun last => ?_) (rules.stmt.bind hnext)
    exact (newStmt_blind rfl rfl).bind hnext
  · exact rules.simpleStmt

theorem simple_blind (rangeAllowed : Bool) : Steady Simple.unplaced
    (simple (fuel + 1) rangeAllowed) := by
  have hstmt {form form' : StmtForm} {span span' : Span} (hform : form' = form.unplaced)
      (hspan : span' = .origin) :
      Blind Simple.unplaced (do return .stmt (← newStmt form span))
        (do return .stmt (← newStmt form' span')) :=
    (newStmt_blind hform hspan).bind fun stmt => .pure rfl
  refine .currentSpan_bind fun start => .sees_bind fun _ => .ite ?_ ?_
  · refine advance_blind.bind fun _ => rules.expr.bind fun subject => .pure ?_
    simp [Simple.unplaced]
  · refine rules.exprList.bind fun targets => .peek_bind fun kind => ?_
    split
    · rename_i op hop
      refine advance_blind.bind fun _ => .sees_bind fun _ => .ite ?_ ?_
      · refine advance_blind.bind fun _ => rules.expr.bind fun subject => ?_
        rw [length_map]
        refine .when_bind (refuse_blind _ (by simp)) (.pure ?_)
        simp [Simple.unplaced]
      · refine rules.exprList.bind fun values => .previousSpan_bind fun last => ?_
        have hassign : Blind Simple.unplaced
            (do return .stmt (← newStmt (.assign targets op values) (start.join last)))
            (do return .stmt (← newStmt (.assign (targets.map Expr.unplaced) op
              (values.map Expr.unplaced)) (Span.origin.join .origin))) :=
          hstmt (by simp) rfl
        rw [length_map, length_map, find?_map]
        refine .when_bind (refuse_blind _ rfl) (.ite ?_ hassign)
        have hnames : (fun target : Expr => target.name?.isNone) ∘ Expr.unplaced =
            fun target => target.name?.isNone := by
          funext target
          simp
        rw [hnames]
        cases targets.find? fun target => target.name?.isNone with
        | none => exact hassign
        | some target => exact (refuse_blind _ target.span_unplaced).bind fun _ => hassign
    · rw [length_map]
      refine .when_bind (want_blind _) ?_
      extract_lets first first'
      have hfirst : first' = first.unplaced := by
        cases targets <;> rfl
      rw [hfirst]
      refine .peek_bind fun kind => ?_
      split
      · refine advance_blind.bind fun _ => rules.expr.bind fun value => hstmt rfl ?_
        simp
      · exact advance_blind.bind fun _ => .previousSpan_bind fun last => hstmt rfl rfl
      · exact advance_blind.bind fun _ => .previousSpan_bind fun last => hstmt rfl rfl
      · exact hstmt rfl first.span_unplaced

theorem ifStmt_blind : Steady Stmt.unplaced (ifStmt (fuel + 1)) := by
  refine .expect_bind fun start => (withHeader_blind rules.header).bind fun parts => ?_
  obtain ⟨init, rest⟩ := parts
  rw [Prod.map_apply]
  dsimp -zeta only
  extract_lets withTest withTest'
  have hwithTest : ∀ {test test'}, test' = test.unplaced →
      Blind Stmt.unplaced (withTest test) (withTest' test') := by
    rintro test _ rfl
    refine rules.block.bind fun body => .eat_bind fun more => ?_
    extract_lets next next'
    have hnext : ∀ otherwise, Blind Stmt.unplaced (next otherwise)
        (next' (otherwise.map Stmt.unplaced)) :=
      fun otherwise => .previousSpan_bind fun last =>
        newStmt_blind (by simp) rfl
    refine .ite (.peek_bind fun kind => ?_) (hnext none)
    split
    · exact rules.ifStmt.bind fun other => hnext (some other)
    · exact rules.blockStmt.bind fun other => hnext (some other)
    · exact (want_blind _).bind fun _ => hnext none
  cases rest with
  | none => exact (want_blind _).bind fun _ => .currentSpan_bind fun _ => hwithTest rfl
  | some other =>
    obtain ⟨id, span, form⟩ := other
    cases form with
    | expr test => exact hwithTest rfl
    | _ => exact (refuse_blind _ rfl).bind fun _ => hwithTest rfl

theorem switchStmt_blind : Steady Stmt.unplaced (switchStmt (fuel + 1)) := by
  refine .expect_bind fun start => (withHeader_blind rules.header).bind fun parts => ?_
  obtain ⟨init, rest⟩ := parts
  rw [Prod.map_apply]
  -- Whatever the header is, the arms follow, and the statement is made of both.
  have harms {form form' : List CaseClause → StmtForm}
      (h : ∀ clauses, form' (clauses.map CaseClause.unplaced) = (form clauses).unplaced) :
      Blind Stmt.unplaced
        (do
          let clauses ← caseClauses fuel
          newStmt (form clauses) (start.join (← previousSpan)))
        (do
          let clauses ← caseClauses fuel
          newStmt (form' clauses) (Span.origin.join (← previousSpan))) :=
    rules.caseClauses.bind fun clauses => .previousSpan_bind fun last =>
      newStmt_blind (h clauses) rfl
  cases rest with
  | none => exact harms fun clauses => by simp
  | some head =>
    rw [Option.map_some]
    dsimp only
    rw [isTypeGuard_unplaced]
    refine .ite (harms fun clauses => by simp) ?_
    obtain ⟨id, span, form⟩ := head
    cases form with
    | expr tag => exact harms fun clauses => by simp
    | _ => exact (refuse_blind _ rfl).bind fun _ => harms fun clauses => by simp

omit rules in
theorem arms_blind {α γ : Type} {label label' : Parse α} {u : α → α} {v : γ → γ} {body rest clause}
    (hlabel : Blind u label label') (hbody : Steady (map Stmt.unplaced) body)
    (hclause : ∀ read stmts span,
      clause (read.map u) (stmts.map Stmt.unplaced) .origin = v (clause read stmts span))
    (hrest : Steady (map v) rest) :
    Blind (map v) (arms label body clause rest) (arms label' body clause rest) := by
  refine .sees_bind fun _ => .sees_bind fun _ => .ite (.pure rfl) ?_
  refine .currentSpan_bind fun start => .sees_bind fun _ => .sees_bind fun _ => .ite ?_ ?_
  · refine .eat_bind fun eaten => ?_
    extract_lets next next'
    have hnext (read : Option α) : Blind (map v) (next read) (next' (read.map u)) := by
      refine .expect_bind fun _ => hbody.bind fun stmts => .previousSpan_bind fun last => ?_
      exact hrest.bind fun arms => .pure (congrArg (· :: _) (hclause read stmts _))
    refine .ite (hlabel.bind fun read => hnext (some read)) ?_
    exact advance_blind.bind fun _ => hnext none
  · exact (want_blind _).bind fun _ => skipStatement_blind.bind fun _ => hrest

theorem RulesBlind.succ : RulesBlind (fuel + 1) where
  expr := rules.exprAbove 0
  exprList := by
    refine rules.expr.bind fun first => .eat_bind fun more => .ite ?_ (.pure rfl)
    exact rules.exprList.bind fun rest => .pure rfl
  exprAbove least := by
    refine nested_blind ?_ (rules.unaryExpr.bind (rules.binaryRest least))
    exact .currentSpan_bind fun span => skipStatement_blind.bind fun _ => .pure rfl
  binaryRest least left := by
    refine .peek_bind fun kind => ?_
    split
    · exact .pure rfl
    · refine .ite (.pure rfl) (advance_blind.bind fun _ => ?_)
      refine (rules.exprAbove _).bind fun right => ?_
      rw [left.span_unplaced, right.span_unplaced]
      exact rules.binaryRest least _
  unaryExpr := unaryExpr_blind rules
  suffixes := suffixes_blind rules
  arguments := by
    refine .sees_bind fun _ => .sees_bind fun _ => .ite (.pure rfl) ?_
    refine rules.argument.bind fun first => .eat_bind fun spread => .eat_bind fun more => ?_
    exact .ite (rules.arguments.bind fun rest => .pure rfl) (.pure rfl)
  argument := by
    exact .sees_bind fun _ => .sees_bind fun _ => .ite rules.typeOrComposite rules.expr
  typeOrComposite := by
    refine rules.typeExpr.bind fun type => .sees_bind fun _ => .ite ?_ (.pure rfl)
    exact rules.composite (some type.val) type.span
  subscript base := by
    unfold Grammar.subscript
    rw [base.span_unplaced]
    refine .sees_bind fun _ => .none_bind rules.expr fun low => .eat_bind fun _ => .ite ?_ ?_
    · refine .sees_bind fun _ => .sees_bind fun _ => .none_bind rules.expr fun high => ?_
      refine .eat_bind fun _ => .some_bind rules.expr fun max => ?_
      exact .expect_bind fun _ => .previousSpan_bind fun last => .pure (by simp)
    · refine .expect_bind fun _ => .previousSpan_bind fun last => .pure ?_
      cases low <;> rfl
  primary := primary_blind rules
  composite type start := by
    refine .expect_bind fun _ => ?_
    refine (withHeader_blind (rules.elements.closed _)).bind fun elems =>
      .previousSpan_bind fun last => .pure ?_
    simp
  elements := by
    refine .sees_bind fun _ => .sees_bind fun _ => .ite (.pure rfl) ?_
    refine rules.element.bind fun key => .eat_bind fun colon => ?_
    extract_lets next
    have hnext : ∀ {elem elem'}, elem' = elem.unplaced →
        Blind (map Expr.unplaced) (next elem) (next elem') := by
      rintro elem _ rfl
      refine .eat_bind fun more => .ite ?_ (eatNewline_blind.bind fun _ => .pure rfl)
      exact eatNewline_blind.bind fun _ => rules.elements.bind fun rest => .pure rfl
    refine .ite (rules.element.bind fun value => hnext ?_) (hnext rfl)
    simp
  element := by
    refine .sees_bind fun _ => .ite ?_ rules.expr
    exact .currentSpan_bind fun start => rules.composite none start
  typeExpr := by
    refine .currentSpan_bind fun start => nested_blind (.pure rfl) ?_
    exact rules.typeForm.bind fun type => .previousSpan_bind fun last => .pure rfl
  typeForm := typeForm_blind rules
  structFields := structFields_blind rules
  interfaceMethods := interfaceMethods_blind rules
  signature := by
    refine rules.parameters.bind fun params => .sees_bind fun _ => .ite ?_ ?_
    · exact rules.parameters.bind fun results => .pure rfl
    · refine .peek_bind fun kind => .ite ?_ (.pure rfl)
      exact rules.typeExpr.bind fun type => .pure rfl
  parameters := by
    refine .expect_bind fun _ => ?_
    exact (withHeader_blind (rules.paramEntries.closed _)).bind groupParams_blind
  paramEntries := by
    refine .sees_bind fun _ => .sees_bind fun _ => .ite (.pure rfl) ?_
    refine rules.paramEntry.bind fun first => .eat_bind fun more => .ite ?_ (.pure rfl)
    exact rules.paramEntries.bind fun rest => .pure rfl
  paramEntry := by
    refine .sees_bind fun _ => .ite (.peekNext_bind fun next => ?_) ?_
    · split
      · exact name_blind.bind fun bound => .pure rfl
      · exact name_blind.bind fun bound => .pure rfl
      · exact rules.typeExpr.bind fun type => .pure rfl
      · exact name_blind.bind fun bound => rules.paramType.bind fun type => .pure rfl
    · exact rules.paramType.bind fun type => .pure rfl
  paramType := by
    refine .sees_bind fun _ => .ite (.currentSpan_bind fun start => ?_) rules.typeExpr
    exact advance_blind.bind fun _ => rules.typeExpr.bind fun elem => .pure rfl
  genDecl := by
    refine .currentSpan_bind fun start => .peek_bind fun kind => ?_
    extract_lets keyword next next'
    have hnext : ∀ {specs specs'}, specs' = specs.map Spec.unplaced →
        Blind GenDecl.unplaced (next specs) (next' specs') := by
      rintro specs _ rfl
      exact .previousSpan_bind fun last => .pure (by simp)
    refine advance_blind.bind fun _ => .eat_bind fun paren => .ite ?_ ?_
    · exact (rules.specGroup keyword).bind fun specs => .expect_bind fun _ => hnext rfl
    · exact (rules.spec keyword).bind fun spec => hnext rfl
  specGroup keyword := by
    refine .sees_bind fun _ => .sees_bind fun _ => .ite (.pure rfl) ?_
    refine .remaining_bind fun left => (rules.spec keyword).bind fun first => ?_
    refine .sees_bind fun _ => .when_bind terminator_blind (.remaining_bind fun n => ?_)
    exact .forced_bind ((rules.specGroup keyword).bind fun rest => .pure rfl)
  spec := spec_blind rules
  block := by
    refine .expect_bind fun start => nested_blind ?_ ?_
    · exact skipStatement_blind.bind fun _ => .pure rfl
    · refine (withHeader_blind rules.stmtList).bind fun stmts => .expect_bind fun stop => .pure ?_
      simp
  stmtList := by
    refine .peek_bind fun kind => .ite (.pure rfl) ?_
    refine .eat_bind fun semicolon => .ite rules.stmtList ?_
    refine .remaining_bind fun left => rules.stmt.bind fun first => .peek_bind fun kind => ?_
    refine .when_bind terminator_blind (.remaining_bind fun n => ?_)
    exact .forced_bind (rules.stmtList.bind fun rest => .pure rfl)
  stmt := stmt_blind rules
  blockStmt := by
    exact rules.block.bind fun body => newStmt_blind rfl (by cases body; rfl)
  launchedCall := by
    refine advance_blind.bind fun _ => rules.expr.bind fun call => ?_
    cases call with
    | call span callee args spread => exact .pure rfl
    | _ => exact (refuse_blind _ rfl).bind fun _ => .pure rfl
  simpleStmt := by
    refine (rules.simple false).bind fun read => ?_
    cases read with
    | stmt stmt => exact .pure rfl
    | range key value defines subject span =>
      exact (refuse_blind _ rfl).bind fun _ => newStmt_blind rfl rfl
  simple := simple_blind rules
  header := by
    refine .sees_bind fun _ => .ite (.pure rfl) (.sees_bind fun _ => ?_)
    refine .none_bind rules.simpleStmt fun first => .get_bind fun s => .ite ?_ (.pure rfl)
    refine advance_blind.bind fun _ => .sees_bind fun _ => .ite (.pure rfl) ?_
    exact rules.simpleStmt.bind fun rest => .pure rfl
  ifStmt := ifStmt_blind rules
  switchStmt := switchStmt_blind rules
  caseClauses := by
    exact .expect_bind fun _ => rules.caseArms.bind fun clauses => .expect_bind fun _ => .pure rfl
  caseArms := arms_blind rules.exprList rules.stmtList (by simp) rules.caseArms
  selectStmt := by
    refine .expect_bind fun start => .expect_bind fun _ => rules.commArms.bind fun clauses => ?_
    refine .expect_bind fun _ => .previousSpan_bind fun last => newStmt_blind ?_ rfl
    simp
  commArms := arms_blind rules.simpleStmt rules.stmtList (by simp) rules.commArms
  forStmt := by
    refine .expect_bind fun start => (withHeader_blind rules.loopHead).bind fun head => ?_
    refine rules.block.bind fun body => .previousSpan_bind fun last => newStmt_blind ?_ rfl
    cases head <;> simp [LoopHead.unplaced]
  loopHead := by
    refine .sees_bind fun _ => .ite (.pure rfl) (.sees_bind fun _ => ?_)
    refine .ite (rules.loopClauses none) ((rules.simple true).bind fun read => ?_)
    cases read with
    | range key value defines subject span => exact .pure rfl
    | stmt first =>
      refine .sees_bind fun _ => .ite (rules.loopClauses (some first)) ?_
      obtain ⟨id, span, form⟩ := first
      cases form with
      | expr test => exact .pure rfl
      | _ => exact (refuse_blind _ rfl).bind fun _ => .pure rfl
  loopClauses init := by
    refine advance_blind.bind fun _ => .sees_bind fun _ => .none_bind rules.expr fun test => ?_
    refine .expect_bind fun _ => .sees_bind fun _ => .none_bind rules.simpleStmt fun post => ?_
    exact .pure rfl

end RulesBlind

theorem rulesBlind (fuel : Nat) : RulesBlind fuel := by
  induction fuel with
  | zero =>
    -- Without fuel both runs stop at once.
    constructor
    all_goals
      intros
      exact .outOfFuel
  | succ fuel ih => exact ih.succ

/-! ## Whole files -/

theorem funcDecl_blind (fuel : Nat) : Steady FuncDecl.unplaced (funcDecl fuel) := by
  have rules := rulesBlind fuel
  refine .expect_bind fun start => .sees_bind fun _ => ?_
  refine .some_bind rules.parameters fun receiver => ?_
  refine name_blind.bind fun bound => rules.signature.bind fun lists => .sees_bind fun _ => ?_
  exact .some_bind rules.block fun body => .previousSpan_bind fun last => .pure rfl

theorem importSpec_blind : Steady (Option.map Import.unplaced) importSpec := by
  refine .currentSpan_bind fun start => .sees_bind fun _ => .sees_bind fun _ => ?_
  extract_lets next next'
  have hnext : ∀ localName, Blind (Option.map Import.unplaced) (next localName)
      (next' localName) := by
    intro localName
    refine .sees_bind fun _ => .ite (advance_blind.bind fun token => ?_) ?_
    · exact .previousSpan_bind fun last => .pure rfl
    · exact (want_blind _).bind fun _ => .pure rfl
  exact .ite (advance_blind.bind fun token => hnext (some token.text)) (hnext none)

theorem importGroup_blind (fuel : Nat) : Steady (map Import.unplaced) (importGroup fuel) := by
  induction fuel with
  | zero => exact .outOfFuel
  | succ fuel ih =>
    refine .sees_bind fun _ => .sees_bind fun _ => .ite (.pure rfl) ?_
    refine .remaining_bind fun left => importSpec_blind.bind fun first => ?_
    refine .sees_bind fun _ => .when_bind terminator_blind (.remaining_bind fun n => ?_)
    exact .forced_bind (ih.bind fun rest => .pure (by cases first <;> rfl))

theorem imports_blind (fuel : Nat) : Steady (map Import.unplaced) (imports fuel) := by
  induction fuel with
  | zero => exact .outOfFuel
  | succ fuel ih =>
    refine .eat_bind fun more => .ite (.eat_bind fun paren => ?_) (.pure rfl)
    extract_lets next
    have hnext : ∀ {first first'}, first' = first.map Import.unplaced →
        Blind (map Import.unplaced) (next first) (next first') := by
      rintro first _ rfl
      exact terminator_blind.bind fun _ => ih.bind fun rest => .pure (by simp)
    refine .ite ((importGroup_blind fuel).bind fun group => .expect_bind fun _ => hnext rfl) ?_
    exact importSpec_blind.bind fun first => hnext (by cases first <;> rfl)

theorem topDecls_blind (fuel : Nat) : Steady (map Decl.unplaced) (topDecls fuel) := by
  induction fuel with
  | zero => exact .outOfFuel
  | succ fuel ih =>
    have rules := rulesBlind fuel
    refine .peek_bind fun kind => ?_
    split
    · exact .pure rfl
    · exact advance_blind.bind fun _ => ih
    · refine .remaining_bind fun left => ?_
      extract_lets next
      have hnext : ∀ decl, Blind (map Decl.unplaced) (next decl)
          (next (decl.map Decl.unplaced)) := by
        intro decl
        refine .sees_bind fun _ => .remaining_bind fun n => .when_bind terminator_blind ?_
        exact ih.bind fun rest => .pure (by cases decl <;> rfl)
      split
      · exact (funcDecl_blind fuel).bind fun decl => hnext (some (.func decl))
      · exact rules.genDecl.bind fun decl => hnext (some (.gen decl))
      · exact rules.genDecl.bind fun decl => hnext (some (.gen decl))
      · exact rules.genDecl.bind fun decl => hnext (some (.gen decl))
      · refine .currentSpan_bind fun span => (refuse_blind _ rfl).bind fun _ => ?_
        exact (imports_blind fuel).bind fun _ => hnext none
      · exact (want_blind _).bind fun _ => advance_blind.bind fun _ => hnext none

/-- The parts of a file without places. -/
def partsUnplaced : Option Name × List Import × List Decl → Option Name × List Import × List Decl :=
  Prod.map (Option.map Name.unplaced)
    (Prod.map (map Import.unplaced) (map Decl.unplaced))

theorem fileParts_blind (fuel : Nat) : Steady partsUnplaced (fileParts fuel) := by
  refine .eat_bind fun package => ?_
  extract_lets next
  have hnext : ∀ package, Blind partsUnplaced (next package) (next (package.map Name.unplaced)) :=
    fun package => (imports_blind fuel).bind fun imported =>
      (topDecls_blind fuel).bind fun decls => .pure rfl
  refine .ite (name_blind.bind fun bound => ?_) (hnext none)
  exact terminator_blind.bind fun _ => hnext (some bound)

theorem wholeStmtList_blind (fuel : Nat) :
    Steady (map Stmt.unplaced) (wholeStmtList fuel) := by
  refine (rulesBlind fuel).stmtList.bind fun stmts => .sees_bind fun _ => ?_
  exact .when_bind (want_blind _) (.pure rfl)

/-! ## Context -/

/-- From every state, `p` comes back at the nesting level and with the header flag it had. -/
def Restoring (p : Parse α) : Prop := ∀ s a s', p s = some (a, s') → s.Restores s'

theorem Blind.restoring {u} {p q : Parse α} (h : Blind u p q) : Restoring p :=
  fun s _ _ hrun => (h s).2 _ hrun

/-- The rules with a given amount of fuel have `P`. -/
structure EveryRule (P : {α : Type} → Parse α → Prop) (fuel : Nat) : Prop where
  expr : P (expr fuel)
  exprList : P (exprList fuel)
  exprAbove : ∀ least, P (exprAbove fuel least)
  binaryRest : ∀ least left, P (binaryRest fuel least left)
  unaryExpr : P (unaryExpr fuel)
  suffixes : ∀ base, P (suffixes fuel base)
  arguments : P (arguments fuel)
  argument : P (argument fuel)
  typeOrComposite : P (typeOrComposite fuel)
  subscript : ∀ base, P (subscript fuel base)
  primary : P (primary fuel)
  composite : ∀ type start, P (composite fuel type start)
  elements : P (elements fuel)
  element : P (element fuel)
  typeExpr : P (typeExpr fuel)
  typeForm : P (typeForm fuel)
  structFields : P (structFields fuel)
  interfaceMethods : P (interfaceMethods fuel)
  signature : P (signature fuel)
  parameters : P (parameters fuel)
  paramEntries : P (paramEntries fuel)
  paramEntry : P (paramEntry fuel)
  paramType : P (paramType fuel)
  genDecl : P (genDecl fuel)
  specGroup : ∀ keyword, P (specGroup fuel keyword)
  spec : ∀ keyword, P (spec fuel keyword)
  block : P (block fuel)
  stmtList : P (stmtList fuel)
  stmt : P (stmt fuel)
  blockStmt : P (blockStmt fuel)
  launchedCall : P (launchedCall fuel)
  simpleStmt : P (simpleStmt fuel)
  simple : ∀ rangeAllowed, P (simple fuel rangeAllowed)
  header : P (header fuel)
  ifStmt : P (ifStmt fuel)
  switchStmt : P (switchStmt fuel)
  caseClauses : P (caseClauses fuel)
  caseArms : P (caseArms fuel)
  selectStmt : P (selectStmt fuel)
  commArms : P (commArms fuel)
  forStmt : P (forStmt fuel)
  loopHead : P (loopHead fuel)
  loopClauses : ∀ init, P (loopClauses fuel init)
  funcDecl : P (funcDecl fuel)
  imports : P (imports fuel)
  topDecls : P (topDecls fuel)
  fileParts : P (fileParts fuel)
  wholeStmtList : P (wholeStmtList fuel)

theorem everyRule_restoring (fuel : Nat) : EveryRule Restoring fuel := by
  have rules := rulesBlind fuel
  exact ⟨rules.expr.restoring, rules.exprList.restoring,
    fun least => (rules.exprAbove least).restoring,
    fun least left => (rules.binaryRest least left).restoring, rules.unaryExpr.restoring,
    fun base => (rules.suffixes rfl : Blind _ (suffixes fuel base) _).restoring,
    rules.arguments.restoring, rules.argument.restoring, rules.typeOrComposite.restoring,
    fun base => (rules.subscript base).restoring, rules.primary.restoring,
    fun type start => (rules.composite type start).restoring, rules.elements.restoring,
    rules.element.restoring, rules.typeExpr.restoring, rules.typeForm.restoring,
    rules.structFields.restoring, rules.interfaceMethods.restoring, rules.signature.restoring,
    rules.parameters.restoring, rules.paramEntries.restoring, rules.paramEntry.restoring,
    rules.paramType.restoring, rules.genDecl.restoring,
    fun keyword => (rules.specGroup keyword).restoring,
    fun keyword => (rules.spec keyword).restoring, rules.block.restoring, rules.stmtList.restoring,
    rules.stmt.restoring, rules.blockStmt.restoring, rules.launchedCall.restoring,
    rules.simpleStmt.restoring, fun rangeAllowed => (rules.simple rangeAllowed).restoring,
    rules.header.restoring, rules.ifStmt.restoring, rules.switchStmt.restoring,
    rules.caseClauses.restoring, rules.caseArms.restoring, rules.selectStmt.restoring,
    rules.commArms.restoring, rules.forStmt.restoring, rules.loopHead.restoring,
    fun init => (rules.loopClauses init).restoring, (funcDecl_blind fuel).restoring,
    (imports_blind fuel).restoring, (topDecls_blind fuel).restoring,
    (fileParts_blind fuel).restoring, (wholeStmtList_blind fuel).restoring⟩

/-- `nested`, where a level can be left only if one was entered. -/
def strictlyNested (otherwise body : Parse α) : Parse α := do
  modify fun s => { s with depth := s.depth + 1 }
  if nestingLimit < (← get).depth then
    refuse .tooDeep (← currentSpan)
    leave
    otherwise
  else
    let result ← body
    leave
    return result
where
  leave : Parse Unit := fun s =>
    match s.depth with
    | 0 => none
    | depth + 1 => some ((), { s with depth })

theorem nested_eq_strictlyNested {otherwise body : Parse α} (h : Restoring body) :
    nested otherwise body = strictlyNested otherwise body := by
  funext s
  show (if nestingLimit < s.depth + 1 then _ else _ : Parse α) _ =
    (if nestingLimit < s.depth + 1 then _ else _ : Parse α) _
  split
  · rfl
  · show (body { s with depth := s.depth + 1 }).bind _ =
      (body { s with depth := s.depth + 1 }).bind _
    refine Option.bind_congr fun ⟨result, s'⟩ hrun => ?_
    have hdepth : s'.depth = s.depth + 1 := (h _ _ _ hrun).1
    have hleave : strictlyNested.leave s' = some ((), { s' with depth := s'.depth - 1 }) := by
      simp [strictlyNested.leave, hdepth]
    show some _ = (strictlyNested.leave s').bind _
    rw [hleave]
    rfl

/-- Every rule restores its context, whatever was reported on the way and however deep it was
called. So what a body adds to the level is taken away again and no more, a level is left only
where one was entered, and the flag holds inside the header that set it and nowhere else. -/
theorem rules_restore_context (fuel : Nat) : EveryRule Restoring fuel ∧
    ∀ {α : Type} (otherwise body : Parse α), Restoring body →
      nested otherwise body = strictlyNested otherwise body :=
  ⟨everyRule_restoring fuel, fun _ _ => nested_eq_strictlyNested⟩

/-! ## Two layouts of one file -/

/-- Two token sequences that differ in layout only: kinds and texts agree one by one, and so do the
line breaks behind tokens that can end a statement. `last` is the kind of the token before. -/
def SameWords (last : Option Token.Kind) : List Token → List Token → Prop
  | [], [] => True
  | token :: tokens, token' :: tokens' =>
    token.kind = token'.kind ∧ token.text = token'.text ∧
      (last.any Token.Kind.endsStatement → token.afterNewline = token'.afterNewline) ∧
      SameWords (some token.kind) tokens tokens'
  | _, _ => False

/-- Two parses that end alike: with trees that are equal without places, or with the same
messages. -/
def SameOutcome (u : α → α) : Except Failure α → Except Failure α → Prop
  | .ok tree, .ok tree' => u tree = u tree'
  | .error (.reports reports), .error (.reports reports') =>
    reports.map Diagnostic.message = reports'.map Diagnostic.message
  | _, _ => False

theorem SameWords.length {last} (h : SameWords last tokens tokens') :
    tokens.length = tokens'.length := by
  induction tokens generalizing last tokens' with
  | nil =>
    cases tokens' with
    | nil => rfl
    | cons token' tokens' => exact h.elim
  | cons token tokens ih =>
    cases tokens' with
    | nil => exact h.elim
    | cons token' tokens' => simp [ih h.2.2.2]

/-- The line breaks that end a statement are made tokens at the same places. -/
theorem SameWords.withTerminators (file : Nat) {last last'}
    (hlast : last.map Prod.fst = last'.map Prod.fst)
    (h : SameWords (last.map Prod.fst) tokens tokens') :
    (withTerminators file last tokens).map Token.unplaced =
      (Grammar.withTerminators file last' tokens').map Token.unplaced := by
  -- A terminator stands where the last token ended, and that is all it takes from the layout.
  have hafter (kind : Token.Kind) (text : String) (pos pos' : Nat) :
      (tokenAfter kind text file pos).unplaced = (tokenAfter kind text file pos').unplaced := rfl
  induction tokens generalizing last last' tokens' with
  | nil =>
    cases tokens' with
    | cons token' tokens' => exact h.elim
    | nil =>
      unfold Grammar.withTerminators
      rcases last with _ | ⟨kind, pos⟩ <;> rcases last' with _ | ⟨kind', pos'⟩
      · rfl
      · contradiction
      · contradiction
      · obtain rfl : kind = kind' := Option.some.inj hlast
        dsimp only [Option.getD_some]
        split <;> rfl
  | cons token tokens ih =>
    cases tokens' with
    | nil => exact h.elim
    | cons token' tokens' =>
      obtain ⟨hkind, htext, hbreak, hrest⟩ := h
      have htoken : token.unplaced = token'.unplaced := by
        simp [Token.unplaced, hkind, htext]
      have hkinds : (some (token.kind, token.span.stop)).map Prod.fst =
          (some (token'.kind, token'.span.stop)).map Prod.fst := by simp [hkind]
      have htail := ih hkinds hrest
      unfold Grammar.withTerminators
      rcases last with _ | ⟨kind, pos⟩ <;> rcases last' with _ | ⟨kind', pos'⟩
      · dsimp only
        rw [map_cons, map_cons, htoken, htail]
      · contradiction
      · contradiction
      · obtain rfl : kind = kind' := Option.some.inj hlast
        dsimp only
        -- A line break counts only behind a token that ends a statement, where the two agree.
        have hsame : (token.afterNewline && kind.endsStatement) =
            (token'.afterNewline && kind.endsStatement) := by
          cases hends : kind.endsStatement with
          | false => simp
          | true => rw [hbreak (by simpa using hends)]
        rw [hsame]
        split <;> simp [htoken, htail, hafter _ _ pos pos']

theorem State.initial_unplaced {file} (h : SameWords none tokens tokens') :
    (State.initial file tokens).unplaced = (State.initial file tokens').unplaced := by
  have hnone : (none : Option (Token.Kind × Nat)).map Prod.fst =
      (none : Option (Token.Kind × Nat)).map Prod.fst := rfl
  have hmap := h.withTerminators file hnone
  unfold State.initial
  cases hbuffer : withTerminators file none tokens with
  | nil =>
    rw [hbuffer] at hmap
    rw [map_eq_nil_iff.1 hmap.symm]
  | cons current ahead =>
    rw [hbuffer, map_cons] at hmap
    obtain ⟨current', ahead', hbuffer', hcurrent, hahead⟩ := map_eq_cons_iff.1 hmap.symm
    rw [hbuffer']
    simp [State.unplaced, hcurrent, hahead]

theorem run_layout {file u rule} {Q : α → State → Prop} (hblind : ∀ fuel, Steady u (rule fuel))
    (h : SameWords none tokens tokens')
    (hends : Ends (withTerminators file none tokens) (rule (fuelFor tokens)) Q
      (State.initial file tokens)) :
    SameOutcome (Prod.map u id) (run file tokens rule) (run file tokens' rule) := by
  obtain ⟨result, s, hrun, -, -⟩ := hends.result
  have hfuel : fuelFor tokens' = fuelFor tokens := by rw [fuelFor, fuelFor, h.length]
  have hfirst := (hblind (fuelFor tokens) (State.initial file tokens)).1
  have hsecond := (hblind (fuelFor tokens) (State.initial file tokens')).1
  -- The two runs begin alike without places, so both end as the one without places does.
  rw [← State.initial_unplaced h, hfirst, hrun] at hsecond
  obtain ⟨⟨result', s'⟩, hrun', heq⟩ := Option.map_eq_some_iff.1 hsecond.symm
  obtain ⟨hresult, hs⟩ := Prod.mk.inj heq
  have hreports : s'.reports.map Diagnostic.unplaced = s.reports.map Diagnostic.unplaced :=
    congrArg State.reports hs
  have hid : s'.unplaced.nextId = s.unplaced.nextId := congrArg State.nextId hs
  have hempty : s'.reports.isEmpty = s.reports.isEmpty := by
    simpa using congrArg isEmpty hreports
  have hmessages : s'.reports.map Diagnostic.message = s.reports.map Diagnostic.message := by
    simpa [Function.comp_def, Diagnostic.unplaced] using
      congrArg (map Diagnostic.message) hreports
  unfold run
  rw [hfuel, hrun, hrun']
  dsimp only
  rw [hempty]
  split
  · exact Prod.ext hresult.symm hid.symm
  · exact hmessages.symm

theorem SameOutcome.map {u v} {f : α → β} {result result'}
    (hf : ∀ a a', u a = u a' → v (f a) = v (f a')) (h : SameOutcome u result result') :
    SameOutcome v (result.map f) (result'.map f) := by
  rcases result with (reports | _) | tree <;> rcases result' with (reports' | _) | tree'
  case ok.ok => exact hf tree tree' h
  case error.reports.error.reports => exact h
  all_goals exact h.elim

/-- Parsing depends on layout only through the line breaks that end a statement: two sequences
of the same words are parsed to trees that are equal up to places, with the same identities, or are
refused with the same messages. -/
theorem parse_sameWords (file : Nat) (tokens tokens' : List Token)
    (hfile : ∀ token ∈ tokens, token.span.file = file) (h : SameWords none tokens tokens') :
    SameOutcome SourceFile.unplaced (parseFile file tokens) (parseFile file tokens') ∧
      SameOutcome (Prod.map (map Stmt.unplaced) id) (parseStmts file tokens)
        (parseStmts file tokens') := by
  have hb := withTerminators_sealed none hfile
  constructor
  · have hparse (tokens : List Token) : parseFile file tokens =
        (run file tokens fileParts).map fun read =>
          ⟨read.1.1, read.1.2.1, read.1.2.2, read.2⟩ := by
      unfold parseFile
      cases run file tokens fileParts <;> rfl
    rw [hparse, hparse]
    refine (run_layout fileParts_blind h
      (run_ends hfile (by decide) (fileParts_gathers hb _))).map fun read read' hread => ?_
    obtain ⟨hparts, hid⟩ := Prod.mk.inj hread
    obtain ⟨hpackage, hlists⟩ := Prod.mk.inj hparts
    obtain ⟨himports, hdecls⟩ := Prod.mk.inj hlists
    have hid : read.2 = read'.2 := hid
    simp only [SourceFile.unplaced, hpackage, himports, hdecls, hid]
  · exact run_layout wholeStmtList_blind h (run_ends hfile (by decide) (wholeStmtList_gathers hb _))

/-- A definition on one line. -/
def oneLine : List Token :=
  [⟨.ident, "x", ⟨0, 0, 1⟩, false⟩, ⟨.define, ":=", ⟨0, 2, 4⟩, false⟩,
    ⟨.int, "1", ⟨0, 5, 6⟩, false⟩]

/-- The same definition on two lines, further down. -/
def twoLines : List Token :=
  [⟨.ident, "x", ⟨0, 3, 4⟩, true⟩, ⟨.define, ":=", ⟨0, 5, 7⟩, false⟩,
    ⟨.int, "1", ⟨0, 10, 11⟩, true⟩]

theorem parse_sameWords_definition :
    ((∀ token ∈ oneLine, token.span.file = 0) ∧ SameWords none oneLine twoLines) ∧
      SameOutcome SourceFile.unplaced (parseFile 0 oneLine) (parseFile 0 twoLines) ∧
        SameOutcome (Prod.map (map Stmt.unplaced) id) (parseStmts 0 oneLine)
          (parseStmts 0 twoLines) := by
  have hfile : ∀ token ∈ oneLine, token.span.file = 0 := by decide
  have hwords : SameWords none oneLine twoLines := by
    refine ⟨rfl, rfl, by decide, rfl, rfl, fun _ => rfl, rfl, rfl, by decide, trivial⟩
  exact ⟨⟨hfile, hwords⟩, parse_sameWords 0 oneLine twoLines hfile hwords⟩

end ScriptLowering.Grammar
