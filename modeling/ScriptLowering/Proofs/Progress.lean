import ScriptLowering.Grammar.Parse

/-!
# What a parse step does from any state

A rule of the grammar goes on past whatever it cannot read, so what it does has to be known from
every state, not only where nothing was reported. `Ends buffer p Q s` says that `p` comes to an end
from `s`, that every elementary step on the way is taken at a token of `buffer` (`Guarded`), that
reading goes on from there without leaving the buffer (`Advances`), and that `Q` holds of the
result.

A report, and a tree, carry spans that are merged from those of tokens (`Merged`).
-/

namespace ScriptLowering.Grammar

open List

variable {α β : Type}

/-! ## Runs as sequences of elementary steps -/

/-- The steps that the rules of the grammar are put together from. Only two of them move on in the
tokens. -/
inductive Elementary : {α : Type} → Parse α → Prop where
  | pure {α : Type} (a : α) : Elementary (pure a)
  | get : Elementary (get : Parse State)
  | advance : Elementary advance
  | skip : Elementary (modify State.skipped)
  | report (report : Diagnostic) : Elementary (addReport report)
  | newStmt (form : StmtForm) (span : Span) : Elementary (newStmt form span)
  | deeper : Elementary (modify fun s => { s with depth := s.depth + 1 })
  | shallower : Elementary (modify fun s => { s with depth := s.depth - 1 })
  | header (inHeader : Bool) : Elementary (modify fun s => { s with inHeader })

/-- The run of `p` from `s` is made of elementary steps, and each of them is taken in a state with
`I`. -/
inductive Guarded (I : State → Prop) : {α : Type} → Parse α → State → Prop where
  | step {α : Type} {p : Parse α} {s : State} (elementary : Elementary p) (inside : I s) :
      Guarded I p s
  | bind {α β : Type} {p : Parse α} {f : α → Parse β} {s : State} (first : Guarded I p s)
      (rest : ∀ a s', p s = some (a, s') → Guarded I (f a) s') : Guarded I (p >>= f) s

/-! ## The buffer -/

/-- The parse stands at a token of `buffer`: the tokens before it were read, the last of them just
now. -/
def State.Stands (buffer : List Token) (s : State) : Prop :=
  ∃ read, buffer = read ++ s.current :: s.ahead ∧ s.before = read.getLast?.map Token.span

/-- A span that is merged from those of tokens. Each merge is of two spans of one file. -/
inductive Merged (buffer : List Token) : Span → Prop where
  | token {token : Token} (mem : token ∈ buffer) : Merged buffer token.span
  | join {a b c : Span} (left : Merged buffer a) (right : Merged buffer b)
      (merge : a.join? b = some c) : Merged buffer c

/-- The tokens lie in one file, and the last one is the end of the input. -/
structure Sealed (file : Nat) (buffer : List Token) : Prop where
  file : ∀ token ∈ buffer, token.span.file = file
  last : ∃ front stop, buffer = front ++ [stop] ∧ stop.kind = .endOfInput

theorem Merged.file {file buffer} (hb : Sealed file buffer) {span} (h : Merged buffer span) :
    span.file = file := by
  induction h with
  | token mem => exact hb.file _ mem
  | join left right merge hleft hright =>
    unfold Span.join? at merge
    split at merge
    · rw [← Option.some.inj merge]
      exact hleft
    · contradiction

theorem Merged.merge {file buffer} (hb : Sealed file buffer) {a b} (ha : Merged buffer a)
    (hb' : Merged buffer b) : Merged buffer (a.join b) :=
  ha.join hb' (if_pos ((ha.file hb).trans (hb'.file hb).symm))

namespace State

variable {file : Nat} {buffer : List Token} {s : State}

theorem Stands.current (h : s.Stands buffer) : Merged buffer s.current.span := by
  obtain ⟨read, rfl, -⟩ := h
  exact .token (by simp)

theorem Stands.previous (h : s.Stands buffer) : Merged buffer (s.before.getD s.current.span) := by
  have hcurrent := h.current
  obtain ⟨read, rfl, hbefore⟩ := h
  rw [hbefore]
  cases hlast : read.getLast? with
  | none => exact hcurrent
  | some token => exact .token (mem_append_left _ (mem_of_getLast? hlast))

/-- Behind any token but the end of the input there is another one. -/
theorem Stands.ahead_ne_nil (hb : Sealed file buffer) (h : s.Stands buffer)
    (hkind : s.current.kind ≠ .endOfInput) : s.ahead ≠ [] := by
  intro hnil
  -- With nothing ahead the current token is the last one of the buffer.
  obtain ⟨read, hread, -⟩ := h
  obtain ⟨front, stop, hfront, hstop⟩ := hb.last
  rw [hnil, hfront] at hread
  obtain ⟨-, hlast⟩ := append_inj' hread rfl
  rw [← cons.inj hlast |>.1] at hkind
  exact hkind hstop

/-- A place in the buffer is known by the number of tokens ahead. -/
theorem Stands.current_eq {s' : State} (h : s.Stands buffer) (h' : s'.Stands buffer)
    (hlength : s'.ahead.length = s.ahead.length) : s'.current = s.current := by
  obtain ⟨read, hread, -⟩ := h
  obtain ⟨read', hread', -⟩ := h'
  rw [hread] at hread'
  exact (cons.inj (append_inj' hread' (by simp [hlength])).2).1.symm

theorem Stands.advanced (h : s.Stands buffer) : s.advanced.Stands buffer := by
  unfold State.advanced
  split
  · exact h
  · rename_i next rest hahead
    obtain ⟨read, hread, -⟩ := h
    exact ⟨read ++ [s.current], by simp [hread, hahead], by simp⟩

/-- A state at the same place. -/
theorem Stands.same {s' : State} (h : s.Stands buffer) (hbefore : s'.before = s.before)
    (hcurrent : s'.current = s.current) (hahead : s'.ahead = s.ahead) : s'.Stands buffer := by
  unfold Stands
  rw [hbefore, hcurrent, hahead]
  exact h

end State

/-- The kind of the token after the current one. -/
def State.nextKind (s : State) : Token.Kind :=
  match s.ahead with
  | [] => .endOfInput
  | next :: _ => next.kind

theorem State.advanced_kind {s : State} (h : s.nextKind ≠ .endOfInput) :
    s.advanced.current.kind = s.nextKind := by
  unfold State.advanced State.nextKind at *
  split <;> simp_all

/-! ## Moving on -/

/-- Fewer tokens are ahead at `s'` than at `s`. -/
abbrev State.Nearer (s' s : State) : Prop := s'.ahead.length < s.ahead.length

/-- `s'` is reached from `s` by reading on in the buffer. The context is as it was, and what was
reported on the way is of the parse. -/
structure Advances (buffer : List Token) (s s' : State) : Prop where
  stands : s'.Stands buffer
  ahead : s'.ahead.length ≤ s.ahead.length
  depth : s'.depth = s.depth
  inHeader : s'.inHeader = s.inHeader
  reports : ∃ new, s'.reports = s.reports ++ new ∧
    ∀ report ∈ new, report.cause = .parse ∧ Merged buffer report.span

namespace Advances

variable {buffer : List Token} {s s1 s2 : State}

theorem refl (h : s.Stands buffer) : Advances buffer s s where
  stands := h
  ahead := Nat.le_refl _
  depth := rfl
  inHeader := rfl
  reports := ⟨[], by simp, by simp⟩

theorem trans (h1 : Advances buffer s s1) (h2 : Advances buffer s1 s2) : Advances buffer s s2 where
  stands := h2.stands
  ahead := Nat.le_trans h2.ahead h1.ahead
  depth := h2.depth.trans h1.depth
  inHeader := h2.inHeader.trans h1.inHeader
  reports := by
    obtain ⟨new1, heq1, hnew1⟩ := h1.reports
    obtain ⟨new2, heq2, hnew2⟩ := h2.reports
    refine ⟨new1 ++ new2, by rw [heq2, heq1, append_assoc], ?_⟩
    intro report hreport
    rcases mem_append.1 hreport with hreport | hreport
    · exact hnew1 report hreport
    · exact hnew2 report hreport

/-- Reports stay. -/
theorem clean (h : Advances buffer s s1) (hclean : s1.reports = []) : s.reports = [] := by
  obtain ⟨new, hnew, -⟩ := h.reports
  rw [hnew] at hclean
  exact (append_eq_nil_iff.1 hclean).1

end Advances

/-- The step `p` ends from `s`, keeps to the buffer, and gives a result with `Q`. -/
structure Ends (buffer : List Token) (p : Parse α) (Q : α → State → Prop) (s : State) : Prop where
  guarded : Guarded (State.Stands buffer) p s
  result : ∃ a s', p s = some (a, s') ∧ Advances buffer s s' ∧ Q a s'

namespace Ends

variable {file : Nat} {buffer : List Token} {p : Parse α} {Q Q' : α → State → Prop} {s : State}

theorem mono (h : Ends buffer p Q s) (hQ : ∀ a s', Advances buffer s s' → Q a s' → Q' a s') :
    Ends buffer p Q' s where
  guarded := h.guarded
  result := by
    obtain ⟨a, s', hrun, hstep, ha⟩ := h.result
    exact ⟨a, s', hrun, hstep, hQ a s' hstep ha⟩

/-- The rule of sequencing. -/
theorem bind {f} {Q : β → State → Prop} {mid} (h : Ends buffer p mid s)
    (hf : ∀ a s', Advances buffer s s' → mid a s' → Ends buffer (f a) Q s') :
    Ends buffer (p >>= f) Q s := by
  obtain ⟨hguarded, a, s', hrun, hstep, ha⟩ := h
  have hrest := hf a s' hstep ha
  constructor
  · refine hguarded.bind ?_
    intro a' s'' hrun'
    rw [hrun] at hrun'
    cases hrun'
    exact hrest.guarded
  · obtain ⟨b, s'', hrun', hstep', hb⟩ := hrest.result
    refine ⟨b, s'', ?_, hstep.trans hstep', hb⟩
    simp [Bind.bind, StateT.bind, hrun, hrun']

theorem pure {a} (hs : s.Stands buffer) (h : Q a s) : Ends buffer (Pure.pure a) Q s where
  guarded := .step (.pure a) hs
  result := ⟨a, s, rfl, .refl hs, h⟩

/-- Two statements about one run. -/
theorem both (h : Ends buffer p Q s) (h' : Ends buffer p Q' s) :
    Ends buffer p (fun a s' => Q a s' ∧ Q' a s') s where
  guarded := h.guarded
  result := by
    obtain ⟨a, s', hrun, hstep, ha⟩ := h.result
    obtain ⟨a', s'', hrun', -, ha'⟩ := h'.result
    rw [hrun] at hrun'
    cases hrun'
    exact ⟨a, s', hrun, hstep, ha, ha'⟩

/-- What comes after a step that moves on has moved on as well. -/
theorem bind_nearer {f} {Q : β → State → Prop} {mid} (h : Ends buffer p mid s)
    (hnear : ∀ a s', mid a s' → s'.Nearer s)
    (hf : ∀ a s', Advances buffer s s' → mid a s' → Ends buffer (f a) Q s') :
    Ends buffer (p >>= f) (fun b s' => Q b s' ∧ s'.Nearer s) s := by
  refine h.bind fun a s1 h1 ha => ?_
  refine (hf a s1 h1 ha).mono fun b s2 h2 hb => ⟨hb, ?_⟩
  exact Nat.lt_of_le_of_lt h2.ahead (hnear a s1 ha)

/-- A step that only looks at the state. -/
theorem read {a} (hs : s.Stands buffer) (hguarded : Guarded (State.Stands buffer) p s)
    (hrun : p s = some (a, s)) : Ends buffer p (fun b s' => b = a ∧ s' = s) s where
  guarded := hguarded
  result := ⟨a, s, hrun, .refl hs, rfl, rfl⟩

theorem read_bind {a} {f : α → Parse β} {Q} (hs : s.Stands buffer)
    (hguarded : Guarded (State.Stands buffer) p s) (hrun : p s = some (a, s))
    (h : Ends buffer (f a) Q s) : Ends buffer (p >>= f) Q s := by
  refine (read hs hguarded hrun).bind ?_
  rintro b s' - ⟨rfl, rfl⟩
  exact h

end Ends

section Looking

variable {buffer : List Token} {Q : β → State → Prop} {s : State}

theorem guarded_get_pure (hs : s.Stands buffer) (f : State → α) :
    Guarded (State.Stands buffer) (get >>= fun s => (Pure.pure (f s) : Parse α)) s := by
  refine .bind (.step .get hs) ?_
  rintro a s' hrun
  cases hrun
  exact .step (.pure _) hs

namespace Ends

section

variable (hs : s.Stands buffer)
include hs

theorem get_bind {f} (h : Ends buffer (f s) Q s) : Ends buffer (get >>= f) Q s :=
  read_bind hs (.step .get hs) rfl h

theorem peek_bind {f} (h : Ends buffer (f s.current.kind) Q s) : Ends buffer (peek >>= f) Q s :=
  read_bind hs (guarded_get_pure hs _) rfl h

theorem peekNext_bind {f} (h : Ends buffer (f s.nextKind) Q s) : Ends buffer (peekNext >>= f) Q s :=
  read_bind hs (guarded_get_pure hs _) rfl h

theorem currentSpan_bind {f} (h : Ends buffer (f s.current.span) Q s) :
    Ends buffer (currentSpan >>= f) Q s :=
  read_bind hs (guarded_get_pure hs _) rfl h

theorem previousSpan_bind {f} (h : Ends buffer (f (s.before.getD s.current.span)) Q s) :
    Ends buffer (previousSpan >>= f) Q s :=
  read_bind hs (guarded_get_pure hs _) rfl h

theorem remaining_bind {f} (h : Ends buffer (f s.ahead.length) Q s) :
    Ends buffer (remaining >>= f) Q s :=
  read_bind hs (guarded_get_pure hs _) rfl h

theorem guarded_sees (kind : Token.Kind) : Guarded (State.Stands buffer) (sees kind) s := by
  refine .bind (guarded_get_pure hs _) ?_
  rintro a s' hrun
  cases hrun
  exact .step (.pure _) hs

theorem sees_bind {kind f} (h : Ends buffer (f (s.current.kind == kind)) Q s) :
    Ends buffer (sees kind >>= f) Q s :=
  read_bind hs (guarded_sees hs kind) rfl h

end

end Ends

end Looking

/-! ## Steps that move on -/

section Moving

variable {file : Nat} {buffer : List Token} {s : State}

theorem State.advanced_nearer (h : s.ahead ≠ []) : s.advanced.Nearer s := by
  unfold State.advanced
  split
  · rename_i hnil
    exact absurd hnil h
  · rename_i next rest hahead
    simp [hahead]

theorem State.before_advanced (h : s.ahead ≠ []) : s.advanced.before = some s.current.span := by
  unfold State.advanced
  split
  · rename_i hnil
    exact absurd hnil h
  · rfl

theorem State.advanced_ahead_le (s : State) : s.advanced.ahead.length ≤ s.ahead.length := by
  unfold State.advanced
  split
  · exact Nat.le_refl _
  · rename_i next rest hahead
    simp [hahead]

theorem State.advanced_fields (s : State) : s.advanced.depth = s.depth ∧
    s.advanced.inHeader = s.inHeader ∧ s.advanced.reports = s.reports := by
  unfold State.advanced
  split <;> simp

theorem Advances.advanced (hs : s.Stands buffer) : Advances buffer s s.advanced where
  stands := hs.advanced
  ahead := s.advanced_ahead_le
  depth := s.advanced_fields.1
  inHeader := s.advanced_fields.2.1
  reports := ⟨[], by simp [s.advanced_fields.2.2], by simp⟩

/-- A change of the state at one place that keeps the context and the reports. -/
theorem Advances.same {s' : State} (hs : s.Stands buffer) (hbefore : s'.before = s.before)
    (hcurrent : s'.current = s.current) (hahead : s'.ahead = s.ahead) (hdepth : s'.depth = s.depth)
    (hheader : s'.inHeader = s.inHeader) (hreports : s'.reports = s.reports) :
    Advances buffer s s' where
  stands := hs.same hbefore hcurrent hahead
  ahead := Nat.le_of_eq (congrArg length hahead)
  depth := hdepth
  inHeader := hheader
  reports := ⟨[], by simp [hreports], by simp⟩

theorem advance_ends (hs : s.Stands buffer) :
    Ends buffer advance (fun token s' => token = s.current ∧ s' = s.advanced) s where
  guarded := .step .advance hs
  result := ⟨s.current, s.advanced, rfl, .advanced hs, rfl, rfl⟩

/-- What was eaten, or why nothing was. -/
theorem eat_ends (kind : Token.Kind) (hs : s.Stands buffer) :
    Ends buffer (eat kind) (fun eaten s' => (eaten = true ∧ s.current.kind = kind ∧
      s' = s.advanced) ∨ (eaten = false ∧ s.current.kind ≠ kind ∧ s' = s)) s := by
  refine .sees_bind hs ?_
  split
  · rename_i hsees
    refine (advance_ends hs).bind ?_
    rintro _ _ hstep ⟨-, rfl⟩
    exact .pure hstep.stands (.inl ⟨rfl, by simpa using hsees, rfl⟩)
  · rename_i hsees
    exact .pure hs (.inr ⟨rfl, by simpa using hsees, rfl⟩)

/-- At `s'` there is one report more than at `s`. -/
def State.Faults (s s' : State) : Prop :=
  ∃ report, s' = { s with reports := s.reports ++ [report] }

theorem addReport_ends {report} (hcause : report.cause = .parse) (hspan : Merged buffer report.span)
    (hs : s.Stands buffer) : Ends buffer (addReport report) (fun _ s' => s.Faults s') s where
  guarded := .step (.report report) hs
  result := ⟨(), _, rfl, ⟨hs, Nat.le_refl _, rfl, rfl, [report], rfl, by simp [hcause, hspan]⟩,
    report, rfl⟩

theorem want_ends (wanted : Wanted) (hs : s.Stands buffer) :
    Ends buffer (want wanted) (fun _ s' => s.Faults s') s :=
  .get_bind hs (addReport_ends rfl hs.current hs)

theorem refuse_ends (misuse : Misuse) {span} (hspan : Merged buffer span) (hs : s.Stands buffer) :
    Ends buffer (refuse misuse span) (fun _ s' => s.Faults s') s :=
  addReport_ends rfl hspan hs

theorem expect_ends (kind : Token.Kind) (hs : s.Stands buffer) :
    Ends buffer (expect kind) (fun span s' => span = s.current.span ∧
      ((s.current.kind = kind ∧ s' = s.advanced) ∨ (s.current.kind ≠ kind ∧ s.Faults s'))) s := by
  refine .currentSpan_bind hs (.sees_bind hs ?_)
  split
  · rename_i hsees
    refine (advance_ends hs).bind ?_
    rintro _ _ hstep ⟨-, rfl⟩
    exact .pure hstep.stands ⟨rfl, .inl ⟨by simpa using hsees, rfl⟩⟩
  · rename_i hsees
    refine (want_ends _ hs).bind fun _ s1 h1 hfault => ?_
    exact .pure h1.stands ⟨rfl, .inr ⟨by simpa using hsees, hfault⟩⟩

theorem name_ends (hs : s.Stands buffer) :
    Ends buffer name (fun bound s' => bound.span = s.current.span ∧
      ((s.current.kind = .ident ∧ s' = s.advanced) ∨
        (s.current.kind ≠ .ident ∧ s.Faults s'))) s := by
  refine .sees_bind hs ?_
  split
  · rename_i hsees
    refine (advance_ends hs).bind ?_
    rintro _ _ hstep ⟨rfl, rfl⟩
    exact .pure hstep.stands ⟨rfl, .inl ⟨by simpa using hsees, rfl⟩⟩
  · rename_i hsees
    refine (want_ends _ hs).bind ?_
    rintro _ _ hstep ⟨report, rfl⟩
    refine .currentSpan_bind hstep.stands (.pure hstep.stands ⟨rfl, .inr ⟨?_, report, rfl⟩⟩)
    simpa using hsees

theorem newStmt_ends {form span} (hs : s.Stands buffer) : Ends buffer (newStmt form span)
      (fun stmt s' => stmt = ⟨s.nextId, span, form⟩ ∧ s' = { s with nextId := s.nextId + 1 }) s
    where
  guarded := .step (.newStmt form span) hs
  result := ⟨_, _, rfl, .same hs rfl rfl rfl rfl rfl rfl, rfl, rfl⟩

theorem eatNewline_ends (hs : s.Stands buffer) :
    Ends buffer eatNewline (fun _ s' => s' = s ∨ s' = s.advanced) s := by
  refine .get_bind hs ?_
  extract_lets token
  split
  · refine (advance_ends hs).bind ?_
    rintro _ _ hstep ⟨-, rfl⟩
    exact .pure hstep.stands (.inr rfl)
  · exact .pure hs (.inl rfl)

theorem State.skipped_go (s : State) (before : Option Span) (current : Token) (ahead : List Token) :
    (State.skipped.go s before current ahead).ahead.length ≤ ahead.length ∧
      (endsSkip current.kind = false → ahead ≠ [] →
        (State.skipped.go s before current ahead).ahead.length < ahead.length) := by
  induction ahead generalizing before current with
  | nil => exact ⟨Nat.le_refl _, fun _ h => absurd rfl h⟩
  | cons next rest ih =>
    unfold State.skipped.go
    obtain ⟨hle, -⟩ := ih (some current.span) next
    split
    · rename_i hstop
      exact ⟨Nat.le_refl _, fun hgo => by simp [hstop] at hgo⟩
    · simp only [length_cons]
      exact ⟨by omega, fun _ _ => by omega⟩

theorem State.skipped_stands_go (s : State) {before current ahead}
    (h : { s with before, current, ahead }.Stands buffer) :
    (State.skipped.go s before current ahead).Stands buffer := by
  induction ahead generalizing before current with
  | nil => exact h
  | cons next rest ih =>
    unfold State.skipped.go
    split
    · exact h
    · exact ih h.advanced

theorem State.skipped_fields (s : State) : s.skipped.depth = s.depth ∧
    s.skipped.inHeader = s.inHeader ∧ s.skipped.reports = s.reports := by
  unfold State.skipped
  generalize s.before = before, s.current = current
  induction s.ahead generalizing before current with
  | nil => exact ⟨rfl, rfl, rfl⟩
  | cons next rest ih =>
    unfold State.skipped.go
    split
    · exact ⟨rfl, rfl, rfl⟩
    · exact ih _ _

theorem Advances.skipped (hs : s.Stands buffer) : Advances buffer s s.skipped where
  stands := s.skipped_stands_go hs
  ahead := (s.skipped_go s.before s.current s.ahead).1
  depth := s.skipped_fields.1
  inHeader := s.skipped_fields.2.1
  reports := ⟨[], by simp [s.skipped_fields.2.2], by simp⟩

/-- Skipping gets past every token but those that close a block or the input. -/
theorem skipStatement_ends (hb : Sealed file buffer) (hs : s.Stands buffer) :
    Ends buffer skipStatement (fun _ s' => s.current.kind ≠ .rightBrace →
      s.current.kind ≠ .endOfInput → s'.Nearer s) s := by
  have hskip : Ends buffer (modify State.skipped) (fun _ s' => s' = s.skipped) s :=
    ⟨.step .skip hs, (), s.skipped, rfl, .skipped hs, rfl⟩
  refine hskip.bind ?_
  rintro _ s' hstep rfl
  refine (eat_ends .semicolon hstep.stands).bind fun eaten s2 h2 heaten => ?_
  refine .pure h2.stands fun hbrace hend => ?_
  have hahead := hs.ahead_ne_nil hb hend
  have hle := h2.ahead
  cases hstop : endsSkip s.current.kind with
  | false =>
    have hlt := (s.skipped_go s.before s.current s.ahead).2 hstop hahead
    exact Nat.lt_of_le_of_lt hle hlt
  | true =>
    -- A statement that is over is left by its terminator.
    have hkind : s.current.kind = .semicolon := by
      unfold endsSkip at hstop
      split at hstop
      · assumption
      · contradiction
      · contradiction
      · contradiction
    have hstay : s.skipped = s := by
      obtain ⟨next, rest, hcons⟩ := exists_cons_of_ne_nil hahead
      unfold State.skipped
      rw [hcons]
      unfold State.skipped.go
      rw [hstop, if_pos rfl, ← hcons]
    rw [hstay] at heaten
    rcases heaten with ⟨-, -, rfl⟩ | ⟨-, hother, -⟩
    · exact State.advanced_nearer hahead
    · exact absurd hkind hother

/-- A terminator is read, or what stands there ends a statement as it is, or there is a report. -/
theorem terminator_ends (hb : Sealed file buffer) (hs : s.Stands buffer) :
    Ends buffer terminator (fun _ s' => (s.current.kind = .semicolon ∧ s' = s.advanced) ∨
      (s.current.kind ∈ [.rightParen, .rightBrace, .endOfInput] ∧ s' = s) ∨ s'.reports ≠ []) s := by
  refine .peek_bind hs ?_
  split
  · rename_i hkind
    refine (advance_ends hs).bind ?_
    rintro _ _ hstep ⟨-, rfl⟩
    exact .pure hstep.stands (.inl ⟨hkind, rfl⟩)
  iterate 3
    rename_i hkind
    exact .pure hs (.inr (.inl ⟨by simp [hkind], rfl⟩))
  · refine (want_ends _ hs).bind ?_
    rintro _ _ hstep ⟨report, rfl⟩
    refine (skipStatement_ends hb hstep.stands).mono fun _ _ hskip _ => .inr (.inr fun hclean => ?_)
    simpa using hskip.clean hclean

/-- The step that a rule takes to get on when what it called has read nothing. -/
theorem forced_bind (hb : Sealed file buffer) {s0 : State} {next : Parse α} {Q}
    (hs0 : s0.Stands buffer) (hkind : s0.current.kind ≠ .endOfInput) (hs : s.Stands buffer)
    (hle : s.ahead.length ≤ s0.ahead.length)
    (h : ∀ s', s'.Nearer s0 → s' = s ∨ s' = s.advanced → Ends buffer next Q s') : Ends buffer (do
      let n ← remaining
      if n == s0.ahead.length then
        let _ ← advance
        next
      else next) Q s := by
  refine .remaining_bind hs ?_
  split
  · rename_i hsame
    have hlength : s.ahead.length = s0.ahead.length := by simpa using hsame
    refine (advance_ends hs).bind ?_
    rintro _ _ - ⟨-, rfl⟩
    have hahead := hs.ahead_ne_nil hb (hs0.current_eq hs hlength ▸ hkind)
    exact h _ (Nat.lt_of_lt_of_le (State.advanced_nearer hahead) hle) (.inr rfl)
  · rename_i hmoved
    have hlength : s.ahead.length ≠ s0.ahead.length := by simpa using hmoved
    exact h s (Nat.lt_of_le_of_ne hle hlength) (.inl rfl)

theorem withHeader_ends {inHeader body} {Q : α → State → Prop} (hs : s.Stands buffer)
    (h : Ends buffer body (fun a s' => Q a { s' with inHeader := s.inHeader })
      { s with inHeader }) : Ends buffer (withHeader inHeader body) Q s := by
  have hset (t : State) (ht : t.Stands buffer) (flag : Bool) :
      Guarded (State.Stands buffer) (modify fun s : State => { s with inHeader := flag }) t :=
    .step (.header flag) ht
  obtain ⟨hguarded, a, s', hrun, hstep, ha⟩ := h
  constructor
  · unfold withHeader
    refine .bind (.step .get hs) ?_
    rintro _ _ ⟨⟩
    refine .bind (hset s hs inHeader) ?_
    rintro _ _ ⟨⟩
    refine .bind hguarded ?_
    intro a' s'' hrun'
    rw [hrun] at hrun'
    cases hrun'
    refine .bind (hset s' hstep.stands s.inHeader) ?_
    rintro _ _ ⟨⟩
    exact .step (.pure a) hstep.stands
  · refine ⟨a, { s' with inHeader := s.inHeader }, ?_, ?_, ha⟩
    · show (body { s with inHeader }).bind
        (fun read => some (read.1, { read.2 with inHeader := s.inHeader })) = _
      rw [hrun, Option.bind_some]
    · exact ⟨hstep.stands, hstep.ahead, hstep.depth, rfl, hstep.reports⟩

theorem nested_ends {otherwise body} {Q : α → State → Prop} (hs : s.Stands buffer)
    (hother : ∀ s', s'.Stands buffer → s'.ahead = s.ahead → s'.reports ≠ [] →
      Ends buffer otherwise Q s')
    (h : Ends buffer body (fun a s' => Q a { s' with depth := s'.depth - 1 })
      { s with depth := s.depth + 1 }) : Ends buffer (nested otherwise body) Q s := by
  by_cases hdeep : nestingLimit < s.depth + 1
  · -- The report is made one level deeper, and the state is back at its level before `otherwise`.
    let report := Misuse.tooDeep.report s.current.span
    have hdeeper : { s with depth := s.depth + 1 }.Stands buffer := hs
    have hback : Advances buffer s { s with reports := s.reports ++ [report] } :=
      ⟨hs, Nat.le_refl _, rfl, rfl, [report], rfl, by
        simp [report, Misuse.report, Diagnostic.error, hs.current]⟩
    obtain ⟨hguarded, a, s', hrun, hstep, ha⟩ := hother _ hback.stands rfl (by simp)
    constructor
    · unfold nested
      refine .bind (.step .deeper hs) ?_
      rintro _ _ ⟨⟩
      refine .bind (.step .get hs) ?_
      rintro _ _ ⟨⟩
      rw [if_pos hdeep]
      refine .bind (guarded_get_pure hdeeper _) ?_
      rintro _ _ ⟨⟩
      refine .bind (.step (.report _) hs) ?_
      rintro _ _ ⟨⟩
      refine .bind (.step .shallower hs) ?_
      rintro _ _ ⟨⟩
      exact hguarded
    · refine ⟨a, s', ?_, hback.trans hstep, ha⟩
      rw [← hrun]
      show (if nestingLimit < s.depth + 1 then _ else _ : Parse α) _ = _
      rw [if_pos hdeep]
      rfl
  · obtain ⟨hguarded, a, s', hrun, hstep, ha⟩ := h
    constructor
    · unfold nested
      refine .bind (.step .deeper hs) ?_
      rintro _ _ ⟨⟩
      refine .bind (.step .get hs) ?_
      rintro _ _ ⟨⟩
      rw [if_neg hdeep]
      refine .bind hguarded ?_
      intro a' s'' hrun'
      rw [hrun] at hrun'
      cases hrun'
      refine .bind (.step .shallower hstep.stands) ?_
      rintro _ _ ⟨⟩
      exact .step (.pure a) hstep.stands
    · refine ⟨a, { s' with depth := s'.depth - 1 }, ?_, ?_, ha⟩
      · show (if nestingLimit < s.depth + 1 then _ else _ : Parse α) _ = _
        rw [if_neg hdeep]
        show (body { s with depth := s.depth + 1 }).bind
          (fun read => some (read.1, { read.2 with depth := read.2.depth - 1 })) = _
        rw [hrun, Option.bind_some]
      · exact ⟨hstep.stands, hstep.ahead, by simp [hstep.depth], hstep.inHeader, hstep.reports⟩

end Moving

end ScriptLowering.Grammar
