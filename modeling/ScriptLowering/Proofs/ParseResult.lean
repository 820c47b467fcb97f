import ScriptLowering.Proofs.Parsing

/-!
# What a parse gives

Every sequence of tokens of one file, in whatever order, is parsed to its end: `parseFile` and
`parseStmts` give a tree, or reports of the parse. No step on the way looks outside the tokens.
-/

namespace ScriptLowering.Grammar

open List

variable {α : Type}

/-! ## Declarations and terminators -/

/-- What comes behind a terminator starts behind the start of the terminator, the end of the input
apart. -/
def Severed : List Token → Prop
  | token :: next :: rest =>
    (token.kind = .semicolon → next.kind = .endOfInput ∨ token.span.start < next.span.start) ∧
      Severed (next :: rest)
  | _ => True

theorem Severed.of_append {front rest} (h : Severed (front ++ rest)) : Severed rest := by
  induction front with
  | nil => exact h
  | cons token front ih =>
    apply ih
    cases hrest : front ++ rest with
    | nil => trivial
    | cons next tail =>
      rw [cons_append, hrest] at h
      exact h.2

/-- Behind a terminator the text goes on, or ends. -/
theorem State.Stands.start_lt {buffer} {s : State} (hb : Severed buffer) (hs : s.Stands buffer)
    (hkind : s.current.kind = .semicolon) (hahead : s.ahead ≠ []) :
    s.advanced.current.kind = .endOfInput ∨ s.start < s.advanced.start := by
  obtain ⟨read, rfl, -⟩ := hs
  have hsevered := hb.of_append
  obtain ⟨next, rest, hnext⟩ := exists_cons_of_ne_nil hahead
  rw [hnext] at hsevered
  have hadvanced : s.advanced.current = next := by simp [State.advanced, hnext]
  rw [State.start, State.start, hadvanced]
  exact hsevered.1 hkind

/-- The declarations lie behind `pos`, and no two of them touch. -/
def declsApart : (pos : Nat) → List Decl → Prop
  | _, [] => True
  | pos, decl :: decls => pos ≤ decl.span.start ∧ decl.span.start < decl.span.stop ∧
    declsApart (decl.span.stop + 1) decls

theorem declsApart.mono {pos pos' decls} (h : declsApart pos decls) (hpos : pos' ≤ pos) :
    declsApart pos' decls := by
  cases decls with
  | nil => trivial
  | cons decl decls => exact ⟨Nat.le_trans hpos h.1, h.2⟩

/-- The declarations from a state on: they stand apart, none comes at the end of the input, and no
closing bracket stands there. -/
structure State.Declares (s : State) (decls : List Decl) : Prop where
  apart : declsApart s.start decls
  finished : s.current.kind = .endOfInput → decls = []
  paren : s.current.kind ≠ .rightParen
  brace : s.current.kind ≠ .rightBrace

/-! ## Whole files -/

section Files

variable {file : Nat} {buffer : List Token} (hb : Sealed file buffer)
include hb

theorem funcDecl_gathers (fuel : Nat) : GathersAt file buffer fuel 1 [.kwFunc] (funcDecl fuel)
    (fun func => [.decl (.func func)]) fun _ => True := by
  intro s hs hkind hfuel
  have rules := rulesGather hb fuel
  have h : Reading file fuel buffer false 1 s [] s := .refl hb hs (Nat.succ_le_succ hfuel)
  refine h.expectAt (by simpa using hkind) rfl fun s1 h1 => .sees_bind h1.stands ?_
  refine h1.gatherSome rules.parameters rfl fun receiver s2 h2 _ => ?_
  refine h2.gather (name_gathers fuel) rfl fun bound s3 h3 => ?_
  refine h3.gatherAs rules.signature rfl fun lists s4 h4 hlists => ?_
  refine .sees_bind h4.stands ?_
  refine h4.restart.gatherSome rules.block rfl fun body s5 h5 _ => .previousSpan_bind h5.stands ?_
  have h6 := h4.join h5
  refine h6.giveAs rfl rfl .token h6.closes (.all ?_) rfl fun hordered hclean =>
    hlists hordered (h5.clean hclean)
  simp [TreeNode.children, Decl.treeNodes, ← map_eq_flatMap]

theorem importSpec_gathers (fuel : Nat) : Gathers file buffer fuel true 0 importSpec
    fun item => item.toList.map .item := by
  refine .enter hb fun s h => ?_
  refine .currentSpan_bind h.stands (.sees_bind h.stands (.sees_bind h.stands ?_))
  extract_lets next
  have hnext : ∀ localName s1, Reading file fuel buffer false 0 s [] s1 →
      Ends buffer (next localName)
        (Gains file buffer true s (fun item => item.toList.map .item) fun _ => True) s1 := by
    intro localName s1 h1
    refine .sees_bind h1.stands ?_
    split
    · rename_i hkind
      refine h1.token (eq_of_beq hkind ▸ rfl) fun s2 h2 => .previousSpan_bind h2.stands ?_
      exact h2.give rfl rfl .token h2.closes (.all (.refl _)) rfl
    · exact h1.want fun s2 h2 _ => h2.done (by simp)
  split
  · refine h.advance fun s1 h1 => ?_
    rw [pure_bind]
    exact hnext _ s1 h1
  · rw [pure_bind]
    exact hnext none s h

theorem importGroup_gathers (fuel : Nat) : Gathers file buffer fuel false 1 (importGroup fuel)
    fun items => items.map .item := by
  induction fuel with
  | zero => exact .zero
  | succ fuel ih =>
    refine .listed hb rfl fun s hgo h => ?_
    refine .remaining_bind h.stands ?_
    refine h.gather (importSpec_gathers hb fuel) rfl fun first s1 h1 => .sees_bind h1.stands ?_
    refine h1.terminatorIf fun s2 h2 => h2.forced h hgo.2 fun s3 h3 => ?_
    exact h3.gather ih rfl fun rest s4 h4 => h4.done (by simp) rfl

theorem imports_gathers (fuel : Nat) {s} (hs : s.Stands buffer)
    (hfuel : 16 * s.ahead.length + 1 ≤ fuel) : Ends buffer (imports fuel) (fun items s' =>
      Gains file buffer false s (fun items => items.map .item) (fun _ => True) items s' ∧
        (s.current.kind = .kwImport → s'.Nearer s)) s := by
  induction fuel generalizing s with
  | zero => omega
  | succ fuel ih =>
    have h : Reading file fuel buffer false 0 s [] s := .refl hb hs hfuel
    have hrest : Gathers file buffer fuel false 1 (imports fuel) fun items => items.map .item :=
      fun s hs hfuel => (ih hs hfuel).mono fun _ _ _ ha => ha.1
    refine (eat_ends .kwImport hs).bind ?_
    rintro _ _ - (⟨rfl, hkind, rfl⟩ | ⟨rfl, hother, rfl⟩)
    · have hnear := State.advanced_nearer (hs.ahead_ne_nil hb (by simp [hkind]))
      have h1 := h.advancedPast (hkind ▸ rfl)
      refine Ends.mono ?_ fun items s' hstep ha =>
        ⟨ha, fun _ => Nat.lt_of_le_of_lt hstep.ahead hnear⟩
      refine h1.eat fun paren s2 h2 _ => ?_
      extract_lets next
      have hnext : ∀ first s3, Reading file fuel buffer true 16 s (first.map .item) s3 →
          Ends buffer (next first)
            (Gains file buffer false s (fun items => items.map .item) fun _ => True) s3 := by
        intro first s3 h3
        refine h3.terminator fun s4 h4 => h4.gather hrest rfl fun rest s5 h5 => ?_
        exact h5.done (by simp) rfl
      split
      · refine h2.gather (importGroup_gathers hb fuel) rfl fun group s3 h3 => ?_
        refine h3.expect rfl fun s4 h4 => ?_
        rw [pure_bind]
        exact hnext group s4 h4
      · refine h2.gather (importSpec_gathers hb fuel) rfl fun first s3 h3 => ?_
        rw [pure_bind]
        exact hnext first.toList s3 h3
    · exact (h.done (.refl _) rfl).mono fun _ _ _ ha => ⟨ha, fun hkind => absurd hkind hother⟩

theorem topDecls_gathers (fuel : Nat) {s : State} (hs : s.Stands buffer)
    (hfuel : 16 * s.ahead.length + 2 ≤ fuel) :
    Ends buffer (topDecls fuel) (Gains file buffer false s (fun decls => decls.map .decl)
      fun decls => Severed buffer → s.Declares decls) s := by
  induction fuel generalizing s with
  | zero => omega
  | succ fuel ih =>
    have h : Reading file fuel buffer false 1 s [] s := .refl hb hs hfuel
    have hroom := h.room
    refine .peek_bind hs ?_
    split
    · rename_i hkind
      exact h.doneAs (.refl _) rfl fun _ _ _ =>
        ⟨trivial, fun _ => rfl, by simp [hkind], by simp [hkind]⟩
    · rename_i hkind
      refine h.advanceOver (by simp [hkind]) fun s1 h1 hnear => ?_
      rw [← bind_pure (topDecls fuel)]
      refine (ih h1.stands (by omega)).bind fun decls s2 hstep ha => ?_
      refine (h1.step hstep ha.toGathered).doneAs (.refl _) rfl fun hordered hclean hsevered => ?_
      have hmoved := h1.moved hordered (hstep.clean hclean)
      have hdeclares := ha.shaped hmoved.after.ordered hclean hsevered
      exact ⟨hdeclares.apart.mono hmoved.after.start, by simp [hkind], by simp [hkind],
        by simp [hkind]⟩
    · rename_i hend hsemicolon
      refine .remaining_bind hs ?_
      extract_lets next
      have hnext : ∀ {past : Bool} decl s1,
          Reading file fuel buffer past 1 s (decl.toList.map .decl) s1 → s1.Nearer s →
          (s.Ordered file → s1.reports = [] → decl.isSome ∧ s.current.kind ≠ .rightParen ∧
            s.current.kind ≠ .rightBrace) →
          Ends buffer (next decl) (Gains file buffer false s (fun decls => decls.map .decl)
            fun decls => Severed buffer → s.Declares decls) s1 := by
        intro past decl s1 h1 hnear hdecl
        refine .sees_bind h1.stands (.remaining_bind h1.stands ?_)
        extract_lets last
        -- The next declaration comes behind a terminator; behind anything else there is none.
        have hlast : ∀ s2, Reading file fuel buffer past 1 s (decl.toList.map .decl) s2 →
            s2.Nearer s → (s2.reports = [] → s1.reports = [] ∧ (Severed buffer →
              s2.current.kind ∈ [.rightParen, .rightBrace, .endOfInput] ∨ s1.start < s2.start)) →
            Ends buffer (last ()) (Gains file buffer false s (fun decls => decls.map .decl)
              fun decls => Severed buffer → s.Declares decls) s2 := by
          intro s2 h2 hnear2 hplace
          refine (ih h2.stands (by omega)).bind fun decls s3 hstep ha => ?_
          refine (h2.step hstep ha.toGathered).doneAs (by cases decl <;> simp) rfl
            fun hordered hclean hsevered => ?_
          have hclean2 := hstep.clean hclean
          have hdeclares := ha.shaped (h2.ordered hordered hclean2) hclean hsevered
          obtain ⟨hclean1, hplace⟩ := hplace hclean2
          obtain ⟨hsome, hparen, hbrace⟩ := hdecl hordered hclean1
          obtain ⟨d, rfl⟩ := Option.isSome_iff_exists.1 hsome
          have hcovers : Covers file d.span s.front s1.rear := Placed.local.covers
            ((h1.strung hordered hclean1).mem Placed.local (mem_singleton_self (TreeNode.decl d)))
          refine ⟨⟨hcovers.start, hcovers.room, ?_⟩, fun h => absurd h hend, hparen, hbrace⟩
          have hstop := hcovers.stop
          have hpassed := (h1.ordered hordered hclean1).passed_le
          rcases hplace hsevered with hplace | hplace
          · simp only [mem_cons, not_mem_nil, or_false] at hplace
            rcases hplace with hplace | hplace | hplace
            · exact absurd hplace hdeclares.paren
            · exact absurd hplace hdeclares.brace
            · rw [hdeclares.finished hplace]
              trivial
          · refine hdeclares.apart.mono (Nat.le_trans (Nat.succ_le_succ hstop) ?_)
            exact Nat.lt_of_le_of_lt hpassed hplace
        split
        · refine (terminator_ends hb h1.stands).bind ?_
          rintro _ s2 hstep (⟨hkind, rfl⟩ | ⟨hkind, rfl⟩ | hfaulty)
          · have hahead := h1.stands.ahead_ne_nil hb (by simp [hkind])
            refine hlast _ h1.advanced (Nat.lt_of_le_of_lt hstep.ahead hnear) fun hclean =>
              ⟨hstep.clean hclean, fun hsevered => ?_⟩
            exact (h1.stands.start_lt hsevered hkind hahead).imp_left fun h => by simp [h]
          · exact hlast s2 h1 hnear fun hclean => ⟨hclean, fun _ => .inl hkind⟩
          · exact hlast s2 ((h1.failed hstep hfaulty).reading h1.grown)
              (Nat.lt_of_le_of_lt hstep.ahead hnear) fun hclean => absurd hclean hfaulty
        · rename_i hdone
          have hkind : s1.current.kind = .endOfInput := by
            have hne : s1.ahead.length ≠ s.ahead.length := by omega
            simpa [hne] using hdone
          exact hlast s1 h1 hnear fun hclean => ⟨hclean, fun _ => .inl (by simp [hkind])⟩
      have hdecl {α : Type} {rule : Parse α} {make : α → Decl} {kinds : List Token.Kind}
          {shape : α → Prop}
          (hrule : GathersAt file buffer fuel 1 kinds rule (fun x => [.decl (make x)]) shape)
          (hkind : s.current.kind ∈ kinds) (hkinds : .rightParen ∉ kinds ∧ .rightBrace ∉ kinds) :
          Ends buffer (rule >>= fun x => pure (some (make x)) >>= next)
            (Gains file buffer false s (fun decls => decls.map .decl)
              fun decls => Severed buffer → s.Declares decls) s := by
        refine (hrule s hs hkind hroom).bind fun x s1 hstep ha => ?_
        rw [pure_bind]
        refine hnext _ s1 (h.step hstep ha.1.toGathered) ha.2 fun _ _ => ⟨rfl, ?_, ?_⟩
        · exact fun h => hkinds.1 (h ▸ hkind)
        · exact fun h => hkinds.2 (h ▸ hkind)
      have hnone {s1 s2 : State} (h1 : Failed file fuel buffer 1 s s1)
          (hstep : Advances buffer s1 s2)
          (hnear : s2.Nearer s) : Ends buffer (next none)
            (Gains file buffer false s (fun decls => decls.map .decl)
              fun decls => Severed buffer → s.Declares decls) s2 :=
        have h2 := h1.step hstep
        have h3 : Reading file fuel buffer false 1 s [] s2 := h2.reading (by simp)
        hnext none s2 h3 hnear fun _ hclean => absurd hclean h2.faulty
      split
      · rename_i hkind
        exact hdecl (funcDecl_gathers hb fuel) (by simp [hkind]) (by decide)
      iterate 3
        rename_i hkind
        exact hdecl (rulesGather hb fuel).genDecl (by simp [hkind]) (by decide)
      · rename_i hkind
        refine .currentSpan_bind hs (h.refuse hs.current fun s1 h1 hfault => ?_)
        obtain ⟨report, rfl⟩ := hfault
        refine (imports_gathers hb fuel h1.stands h1.room).bind fun _ s2 hstep ha => ?_
        rw [pure_bind]
        exact hnone h1 hstep (ha.2 hkind)
      · refine h.want fun s1 h1 hfault => ?_
        obtain ⟨report, rfl⟩ := hfault
        refine (advance_ends h1.stands).bind ?_
        rintro _ s2 hstep ⟨-, rfl⟩
        rw [pure_bind]
        exact hnone h1 hstep (State.advanced_nearer (hs.ahead_ne_nil hb hend))

theorem fileParts_gathers (fuel : Nat) : GathersAs file buffer fuel false 2 (fileParts fuel)
    (fun parts => parts.1.toList.map .name ++ parts.2.1.map .item ++ parts.2.2.map .decl)
    fun parts => Severed buffer → ∃ pos, declsApart pos parts.2.2 := by
  refine .enter hb fun s h => ?_
  have himports : Gathers file buffer fuel false 1 (imports fuel) fun items => items.map .item :=
    fun s hs hfuel => (imports_gathers hb fuel hs hfuel).mono fun _ _ _ ha => ha.1
  refine h.eat fun keyword s1 h1 _ => ?_
  extract_lets next
  have hnext : ∀ {past : Bool} package s2,
      Reading file fuel buffer past 2 s (package.toList.map .name) s2 →
      Ends buffer (next package) (Gains file buffer false s
        (fun parts => parts.1.toList.map .name ++ parts.2.1.map .item ++ parts.2.2.map .decl)
        fun parts => Severed buffer → ∃ pos, declsApart pos parts.2.2) s2 := by
    intro past package s2 h2
    refine h2.gather himports rfl fun imported s3 h3 => ?_
    refine (topDecls_gathers hb fuel h3.stands h3.room).bind fun decls s4 hstep ha => ?_
    refine (h3.step hstep ha.toGathered).doneAs (.refl _) rfl fun hordered hclean hsevered => ?_
    have hordered3 := h3.ordered hordered (hstep.clean hclean)
    exact ⟨_, (ha.shaped hordered3 hclean hsevered).apart⟩
  split
  · refine h1.gather (name_gathers fuel) rfl fun bound s2 h2 => h2.terminator fun s3 h3 => ?_
    rw [pure_bind]
    exact hnext (some bound) s3 h3
  · rw [pure_bind]
    exact hnext none s1 h1

theorem wholeStmtList_gathers (fuel : Nat) : Gathers file buffer fuel false 12 (wholeStmtList fuel)
    fun stmts => stmts.map .stmt := by
  refine .enter hb fun s h => ?_
  refine h.gather (rulesGather hb fuel).stmtList rfl fun stmts s1 h1 => .sees_bind h1.stands ?_
  exact h1.faultIf (want_ends _ h1.stands) fun s2 h2 _ => h2.done (.refl _) rfl

end Files

/-! ## The tokens with their terminators -/

section Buffer

variable {file : Nat} {tokens : List Token}

theorem withTerminators_length (file : Nat) (last : Option (Token.Kind × Nat))
    (tokens : List Token) :
    (withTerminators file last tokens).length ≤ 2 * tokens.length + 2 := by
  induction tokens generalizing last with
  | nil =>
    unfold withTerminators
    dsimp only
    split <;> simp
  | cons token tokens ih =>
    have hrest := ih (some (token.kind, token.span.stop))
    unfold withTerminators
    dsimp only
    split
    · split <;> simp only [length_cons] <;> omega
    · simp only [length_cons]
      omega

theorem withTerminators_sealed (last : Option (Token.Kind × Nat))
    (h : ∀ token ∈ tokens, token.span.file = file) :
    Sealed file (withTerminators file last tokens) := by
  induction tokens generalizing last with
  | nil =>
    unfold withTerminators
    dsimp only
    split
    · exact ⟨by simp [tokenAfter, Span.point], [tokenAfter .semicolon "\n" file _], _, rfl, rfl⟩
    · exact ⟨by simp [tokenAfter, Span.point], [], _, rfl, rfl⟩
  | cons token tokens ih =>
    obtain ⟨htoken, htokens⟩ := forall_mem_cons.1 h
    have hrest := ih (some (token.kind, token.span.stop)) htokens
    have hcons {first : Token} {buffer : List Token} (hfirst : first.span.file = file)
        (hb : Sealed file buffer) : Sealed file (first :: buffer) := by
      obtain ⟨front, stop, hfront, hstop⟩ := hb.last
      exact ⟨forall_mem_cons.2 ⟨hfirst, hb.file⟩, first :: front, stop, by simp [hfront],
        hstop⟩
    unfold withTerminators
    dsimp only
    split
    · split
      · exact hcons rfl (hcons htoken hrest)
      · exact hcons htoken hrest
    · exact hcons htoken hrest

theorem State.initial_stands (h : ∀ token ∈ tokens, token.span.file = file) :
    (State.initial file tokens).Stands (withTerminators file none tokens) := by
  obtain ⟨front, stop, hfront, -⟩ := (withTerminators_sealed none h).last
  unfold State.initial
  split
  · rename_i hnil
    simp [hnil] at hfront
  · rename_i current ahead hcons
    exact ⟨[], by simp [hcons], rfl⟩

theorem State.initial_ahead (file : Nat) (tokens : List Token) :
    (State.initial file tokens).ahead.length ≤ 2 * tokens.length + 1 := by
  have hlength := withTerminators_length file none tokens
  unfold State.initial
  split
  · simp
  · rename_i current ahead hcons
    rw [hcons] at hlength
    exact Nat.le_of_succ_le_succ hlength

end Buffer

/-! ## Whole runs -/

/-- What a run gives: a result with `K`, or reports of the parse at places with `P`, and at least
one. -/
def Outcome (P : Span → Prop) (K : α → Prop) : Except Failure α → Prop
  | .ok result => K result
  | .error .outOfFuel => False
  | .error (.reports reports) =>
    reports ≠ [] ∧ ∀ report ∈ reports, report.cause = .parse ∧ P report.span

section Runs

variable {file : Nat} {tokens : List Token}

section

variable (hfile : ∀ token ∈ tokens, token.span.file = file)
include hfile

theorem run_ends {past rank} {rule : Nat → Parse α} {parts shape} (hrank : rank ≤ 16)
    (h : GathersAs file (withTerminators file none tokens) (fuelFor tokens) past rank
      (rule (fuelFor tokens)) parts shape) :
    Ends (withTerminators file none tokens) (rule (fuelFor tokens))
      (Gains file (withTerminators file none tokens) past (State.initial file tokens) parts shape)
      (State.initial file tokens) := by
  have hahead := State.initial_ahead file tokens
  refine h _ (State.initial_stands hfile) ?_
  unfold fuelFor
  omega

/-- Where a run left off with nothing reported, and what it gave: `read` with the next identity. -/
structure Leaves (buffer : List Token) (Q : α → State → Prop) (read : α × NodeId) (s : State) :
    Prop where
  stands : s.Stands buffer
  clean : s.reports = []
  nextId : s.nextId = read.2
  result : Q read.1 s

omit hfile in
theorem run_outcome {rule} {Q : α → State → Prop}
    (h : Ends (withTerminators file none tokens) (rule (fuelFor tokens)) Q
      (State.initial file tokens)) : Outcome (Merged (withTerminators file none tokens))
      (fun read => ∃ s, Leaves (withTerminators file none tokens) Q read s)
      (run file tokens rule) := by
  obtain ⟨-, result, state, hrun, hstep, hresult⟩ := h
  have hinitial : (State.initial file tokens).reports = [] := by
    unfold State.initial
    split <;> rfl
  obtain ⟨new, hnew, hreports⟩ := hstep.reports
  rw [hinitial, nil_append] at hnew
  unfold run
  rw [hrun]
  dsimp only
  split
  · rename_i hclean
    exact ⟨state, hstep.stands, by simpa using hclean, rfl, hresult⟩
  · rename_i hsome
    exact ⟨by simpa using hsome, hnew ▸ hreports⟩

/-- What a parse of the tokens gives: nodes one behind another, and declarations apart. -/
def Parses (file : Nat) (tokens : List Token) (parsed : SourceFile) (s : State) : Prop :=
  Leaves (withTerminators file none tokens)
    (Gains file (withTerminators file none tokens) false (State.initial file tokens)
      (fun parts => parts.1.toList.map .name ++ parts.2.1.map .item ++ parts.2.2.map .decl)
      fun parts => Severed (withTerminators file none tokens) → ∃ pos, declsApart pos parts.2.2)
    ((parsed.package, parsed.imports, parsed.decls), parsed.nextId) s

theorem parseFile_outcome :
    Outcome (Merged (withTerminators file none tokens))
      (fun parsed => ∃ s, Parses file tokens parsed s)
      (parseFile file tokens) := by
  have hparts := run_outcome
    (run_ends hfile (by decide) (fileParts_gathers (withTerminators_sealed none hfile) _))
  unfold parseFile
  cases hrun : run file tokens fileParts with
  | ok read =>
    rw [hrun] at hparts
    exact hparts
  | error failure =>
    rw [hrun] at hparts
    cases failure <;> exact hparts

theorem parseFile_parses {parsed} (h : parseFile file tokens = .ok parsed) :
    ∃ s, Parses file tokens parsed s := by
  have houtcome := parseFile_outcome hfile
  rwa [h] at houtcome

omit hfile in
/-- The nodes of a parsed file stand one behind another. -/
theorem Parses.strung {parsed s} (h : Parses file tokens parsed s)
    (hordered : (State.initial file tokens).Ordered file) :
    Strung (Placed file) parsed.treeNodes (State.initial file tokens).front s.rear :=
  h.result.strung hordered h.clean

end

/-- On any tokens of one file, `parseFile` and `parseStmts` come to an end, with a tree or with
reports, all of the parse. Every elementary step of either run is taken at a token of the
sequence. -/
theorem parse_settles (file : Nat) (tokens : List Token)
    (hfile : ∀ token ∈ tokens, token.span.file = file) :
    (((∃ parsed, parseFile file tokens = .ok parsed) ∨
        ∃ reports, parseFile file tokens = .error (.reports reports) ∧ reports ≠ [] ∧
          ∀ report ∈ reports, report.cause = .parse) ∧
      Guarded (State.Stands (withTerminators file none tokens)) (fileParts (fuelFor tokens))
        (State.initial file tokens)) ∧
    ((∃ parsed, parseStmts file tokens = .ok parsed) ∨
        ∃ reports, parseStmts file tokens = .error (.reports reports) ∧ reports ≠ [] ∧
          ∀ report ∈ reports, report.cause = .parse) ∧
      Guarded (State.Stands (withTerminators file none tokens)) (wholeStmtList (fuelFor tokens))
        (State.initial file tokens) := by
  have hb := withTerminators_sealed none hfile
  have hsettles {β : Type} {P : Span → Prop} {K : β → Prop} {result : Except Failure β}
      (h : Outcome P K result) : (∃ parsed, result = .ok parsed) ∨
        ∃ reports, result = .error (.reports reports) ∧ reports ≠ [] ∧
          ∀ report ∈ reports, report.cause = .parse := by
    rcases result with (reports | _) | parsed
    · exact .inr ⟨reports, rfl, h.1, fun report hreport => (h.2 report hreport).1⟩
    · exact h.elim
    · exact .inl ⟨parsed, rfl⟩
  refine ⟨⟨hsettles (parseFile_outcome hfile), ?_⟩, hsettles (run_outcome
    (run_ends hfile (by decide) (wholeStmtList_gathers hb _))), ?_⟩
  · exact (run_ends hfile (by decide) (fileParts_gathers hb _)).guarded
  · exact (run_ends hfile (by decide) (wholeStmtList_gathers hb _)).guarded

/-- A brace that closes nothing, in front of a name. -/
def strayBrace : List Token :=
  [⟨.rightBrace, "\x7d", ⟨7, 0, 1⟩, false⟩, ⟨.ident, "x", ⟨7, 2, 3⟩, true⟩]

theorem parse_settles_strayBrace :
    (∀ token ∈ strayBrace, token.span.file = 7) ∧
      ∃ reports, parseFile 7 strayBrace = .error (.reports reports) ∧ reports ≠ [] ∧
        ∀ report ∈ reports, report.cause = .parse := by
  have hfile : ∀ token ∈ strayBrace, token.span.file = 7 := by decide
  have hfails : (parseFile 7 strayBrace).isOk = false := by decide +kernel
  refine ⟨hfile, ?_⟩
  rcases (parse_settles 7 strayBrace hfile).1.1 with ⟨parsed, hparsed⟩ | hreports
  · rw [hparsed] at hfails
    contradiction
  · exact hreports

end Runs

end ScriptLowering.Grammar
