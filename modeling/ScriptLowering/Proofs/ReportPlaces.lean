import ScriptLowering.Proofs.Boundaries
import ScriptLowering.Proofs.Conformance
import ScriptLowering.Proofs.Preprocessing

/-!
# Where reports point

A report of the check or of the lowering, a warning among them, stands at the place of some node of
the tree it is about, or of a receiver list, which is joined from names. So whatever holds of all
places of a tree, and is kept by joining, holds of every place that is reported.
-/

namespace ScriptLowering

open List

variable {P : Span → Prop}

/-! ## The check -/

/-- All reports of a list stand at places with `P`. -/
def ReportedAt (P : Span → Prop) (reports : List Diagnostic) : Prop :=
  ∀ report ∈ reports, P report.span

section Heads

variable (hjoin : ∀ a b, P a → P b → P (a.join b))
include hjoin

theorem foldl_join {span} {spans : List Span} (h : P span) (hspans : ∀ x ∈ spans, P x) :
    P (spans.foldl Span.join span) := by
  induction spans generalizing span with
  | nil => exact h
  | cons next spans ih =>
    obtain ⟨hnext, hspans⟩ := forall_mem_cons.1 hspans
    exact ih (hjoin span next h hnext) hspans

theorem FuncDecl.receiverSpan_spanned {func : FuncDecl} (h : func.Spanned P) {receiver : List Field}
    (hreceiver : fieldsSpanned P receiver) : P (func.receiverSpan receiver) := by
  have hnames : ∀ x ∈ receiver.flatMap fun field => field.names.map (·.span), P x := by
    intro x hx
    obtain ⟨field, hfield, hx⟩ := mem_flatMap.1 hx
    obtain ⟨name, hname, rfl⟩ := mem_map.1 hx
    exact (hreceiver field hfield).1 name hname
  unfold receiverSpan
  split
  · exact h.name
  · rename_i span spans hspans
    rw [hspans] at hnames
    obtain ⟨hspan, hspans⟩ := forall_mem_cons.1 hnames
    exact foldl_join hjoin hspan hspans

theorem FuncDecl.headReports_spanned {func : FuncDecl} (h : func.Spanned P) :
    ReportedAt P func.headReports := by
  refine forall_mem_append.2 ⟨?_, ?_⟩
  · split
    · rename_i receiver hreceiver
      split
      · exact forall_mem_singleton.2
          (receiverSpan_spanned hjoin h (h.receiver receiver hreceiver))
      · simp
    · simp
  · split
    · rename_i field hfield
      exact forall_mem_singleton.2 (h.results field (mem_of_find?_eq_some hfield)).2
    · simp

theorem Decl.reports_spanned {decl : Decl} (h : decl.Spanned (.at P)) :
    ReportedAt P decl.reports := by
  cases decl with
  | gen decl => exact (specsFit_allows decl.specs h.fits).reports
  | func decl =>
    refine forall_mem_append.2 ⟨decl.headReports_spanned hjoin (h.head decl rfl), ?_⟩
    cases hbody : decl.body with
    | none => simp
    | some body =>
      obtain ⟨-, hstmts⟩ := (Block.fits_iff body).1 (h.fits body hbody)
      exact (stmtsFit_allows body.stmts ((stmtsFit_iff _).2 hstmts)).reports

/-- A file that the check refuses is refused at a place of its tree. -/
theorem SourceFile.check_spanned {file : SourceFile} (h : ∀ decl ∈ file.decls, decl.Spanned (.at P))
    {report} (hcheck : file.check = .error report) : P report.span := by
  have hreports : ReportedAt P (file.decls.flatMap Decl.reports) := by
    intro report hmem
    obtain ⟨decl, hdecl, hmem⟩ := mem_flatMap.1 hmem
    exact Decl.reports_spanned hjoin (h decl hdecl) report hmem
  unfold check at hcheck
  generalize file.decls.flatMap Decl.reports = reports at hcheck hreports
  cases reports with
  | nil => contradiction
  | cons first rest =>
    obtain rfl := Except.error.inj hcheck
    exact hreports first mem_cons_self

end Heads

/-! ## Sources -/

theorem StmtForm.headFits_at (P : Span → Prop) (form : StmtForm) : form.HeadFits (.at P) := by
  cases form with
  | cond | switch | loop => exact nofun
  | _ => trivial

/-- What a source is parsed to, or why it is not: all spans are usable, and those of a tree are
merged from tokens. -/
theorem SourceFile.ofSource_spanned (options : Token.ScanOptions) (file : Nat) (source : String) :
    (∀ reports, ofSource options file source = .error (.reports reports) →
      ReportedAt (Span.Usable source) reports) ∧
    ∀ parsed, ofSource options file source = .ok parsed → ∃ P : Span → Prop,
      (∀ span, P span → span.Usable source) ∧ (∀ a b, P a → P b → P (a.join b)) ∧
        ∀ decl ∈ parsed.decls, decl.Spanned (.at P) := by
  rcases ofSource_eq options file source with ⟨faults, hfaults, heq⟩ | ⟨tokens, htokens, heq⟩
  · rw [heq]
    refine ⟨?_, by simp⟩
    rintro _ ⟨⟩
    exact (Token.ofSource_usable options file source).2 faults hfaults
  · have hfile := (Token.ofSource_inOrder htokens).file_eq
    have husable : ∀ span, Grammar.Merged (Grammar.withTerminators file none tokens) span →
        span.Usable source := fun _ => Grammar.Merged.usable (Grammar.buffer_usable htokens)
    have houtcome := Grammar.parseFile_outcome hfile
    rw [heq]
    constructor
    · intro reports hreports report hmem
      rw [hreports] at houtcome
      exact husable _ (houtcome.2 report hmem).2
    · intro parsed hparsed
      rw [hparsed] at houtcome
      -- `P` is to be merged from tokens: that is what the parse says of a tree, and joins keep it.
      have hb := Grammar.withTerminators_sealed none hfile
      obtain ⟨s, hparses⟩ := houtcome
      refine ⟨_, husable, fun a b ha => ha.merge hb, fun decl hdecl => ?_⟩
      exact (hparses.result.grown (.decl decl) (mem_append_right _
        (mem_map_of_mem hdecl))).spanned (fun _ _ h => h) fun x _ => x.form.headFits_at _

theorem SourceFile.checkSource_usable {settings : Settings} {source reports}
    (h : checkSource settings source = .error (.reports reports)) :
    ReportedAt (Span.Usable source) reports := by
  obtain ⟨hfails, hparses⟩ := ofSource_spanned settings.scan 0 source
  unfold checkSource at h
  cases hparsed : ofSource settings.scan 0 source with
  | error failure =>
    rw [hparsed] at h
    obtain rfl := Except.error.inj h
    exact hfails reports hparsed
  | ok parsed =>
    obtain ⟨P, husable, hjoin, hspanned⟩ := hparses parsed hparsed
    rw [hparsed] at h
    cases hcheck : parsed.check with
    | ok _ => simp [hcheck, bind, Except.bind, Except.mapError] at h
    | error report =>
      simp only [hcheck, bind, Except.bind, Except.mapError, Except.error.injEq,
        Failure.reports.injEq] at h
      subst h
      exact forall_mem_singleton.2 (husable _ (check_spanned hjoin hspanned hcheck))

theorem SourceFile.lowerSource_usable (settings : Settings) (source : String) :
    (∀ reports, lowerSource settings source = .error (.reports reports) →
      ReportedAt (Span.Usable source) reports) ∧
    ∀ lowered, lowerSource settings source = .ok lowered →
      ReportedAt (Span.Usable source) lowered.warnings := by
  obtain ⟨hfails, hparses⟩ := ofSource_spanned settings.scan 0 source
  unfold lowerSource
  cases hparsed : ofSource settings.scan 0 source with
  | error failure =>
    refine ⟨?_, by simp [bind, Except.bind]⟩
    rintro reports ⟨⟩
    exact hfails reports hparsed
  | ok parsed =>
    obtain ⟨P, husable, hjoin, hspanned⟩ := hparses parsed hparsed
    obtain ⟨hwarned, hhalted⟩ :=
      Lowering.lowerWith_points (fun decl hdecl => (hspanned decl hdecl).fits)
      (fun func hfunc => func.headReports_spanned hjoin ((hspanned _ hfunc).head func rfl))
      parsed.loweringFuel (Table.ofFile parsed).resolver settings.lower
    simp only [bind, Except.bind, lower]
    cases hlower : parsed.lowerWith parsed.loweringFuel (Table.ofFile parsed).resolver
        settings.lower with
    | error halt =>
      refine ⟨?_, by simp [Except.mapError]⟩
      have hhalt := hhalted halt hlower
      cases halt with
      | fatal report =>
        rintro _ ⟨⟩
        exact forall_mem_singleton.2 (husable _ hhalt)
      | outOfFuel =>
        rintro _ ⟨⟩
    | ok lowered =>
      refine ⟨by simp [Except.mapError], ?_⟩
      rintro _ ⟨⟩
      exact fun report hmem => husable _ ((hwarned lowered hlower).1 report hmem)

/-- Every place that a stage names, of a token, an error or a warning, lies inside the source with
both ends between characters. When comments are blanked byte by byte, what comes out is always
encoded text. -/
theorem SourceFile.spans_usable (options : Token.ScanOptions) (settings : Settings) (file : Nat)
    (source : String) :
    (∀ report, Token.preprocess options file source = .error report →
      report.span.Usable source ∧ report.message ≠ "source is not valid UTF-8") ∧
    (Token.scan file source.toList).Placed (Span.Usable source) ∧
    (∀ tokens, Token.ofSource options file source = .ok tokens →
      ∀ token ∈ tokens, token.span.Usable source) ∧
    (∀ reports, Token.ofSource options file source = .error reports →
      ReportedAt (Span.Usable source) reports) ∧
    (∀ reports, ofSource options file source = .error (.reports reports) →
      ReportedAt (Span.Usable source) reports) ∧
    (∀ reports, checkSource settings source = .error (.reports reports) →
      ReportedAt (Span.Usable source) reports) ∧
    (∀ reports, lowerSource settings source = .error (.reports reports) →
      ReportedAt (Span.Usable source) reports) ∧
    ∀ lowered, lowerSource settings source = .ok lowered →
      ReportedAt (Span.Usable source) lowered.warnings := by
  obtain ⟨htokens, hfaults⟩ := Token.ofSource_usable options file source
  refine ⟨?_, ?_, htokens, hfaults, (ofSource_spanned options file source).1,
    fun _ h => checkSource_usable h, lowerSource_usable settings source⟩
  · intro report h
    rw [Token.preprocess_eq] at h
    cases hblank : Token.blankComments options file source.toList with
    | ok out =>
      rw [hblank] at h
      contradiction
    | error fault =>
      rw [hblank] at h
      obtain rfl := Except.error.inj h
      have hfaulted := Token.blankComments_error hblank
      exact ⟨hfaulted.cuts.usable, hfaulted.message_ne⟩
  · exact (Token.scanFrom_cuts file 0 false source.toList).mono fun _ h => h.usable

/-- A literal that does not close, with a backslash before a character of two bytes. -/
def unclosed : String := "é \"\\é"

/-- A read of an element that a short-circuit operator guards, with such a character in its key. -/
def guardedRead : String :=
  "func f(m map[string]bool, a bool) \x7b\n\tif a && m[\"é\"] \x7b\n\t\x7d\n\x7d\n"

theorem SourceFile.spans_usable_multibyte :
    (∃ report, Token.preprocess {} 0 unclosed = .error report ∧
      report.span.Usable unclosed ∧ report.message ≠ "source is not valid UTF-8") ∧
    ∃ lowered, lowerSource {} guardedRead = .ok lowered ∧ lowered.warnings ≠ [] ∧
      ReportedAt (Span.Usable guardedRead) lowered.warnings := by
  constructor
  · have hfails : (Token.blankComments {} 0 unclosed.toList).isOk = false := by decide +kernel
    have hsame := Token.preprocess_eq {} 0 unclosed
    cases hblank : Token.blankComments {} 0 unclosed.toList with
    | ok text =>
      rw [hblank] at hfails
      contradiction
    | error report =>
      rw [hblank] at hsame
      exact ⟨report, hsame, (spans_usable {} {} 0 unclosed).1 report hsame⟩
  · have hwarns : ((lowerSource {} guardedRead).toOption.filter fun lowered =>
        lowered.warnings ≠ []).isSome = true := by decide +kernel
    obtain ⟨lowered, hlowered⟩ := Option.isSome_iff_exists.1 hwarns
    obtain ⟨hlowered, hsome⟩ := Option.filter_eq_some_iff.1 hlowered
    have hrun := eq_ok_of_toOption hlowered
    obtain ⟨-, -, -, -, -, -, -, hwarnings⟩ := spans_usable {} {} 0 guardedRead
    exact ⟨lowered, hrun, of_decide_eq_true hsome, hwarnings lowered hrun⟩

end ScriptLowering
