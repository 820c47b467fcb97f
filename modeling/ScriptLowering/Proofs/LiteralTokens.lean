import Mathlib.Data.List.Sort
import ScriptLowering.Proofs.Numerals
import ScriptLowering.Proofs.Tiling

/-!
# Literals in both passes

Blanking comments and scanning both look for literals, the one at every character and the other at
the beginning of a lexeme. They find the same: a literal of the cut is scanned as one token, or
reported as an empty character literal, and no other lexeme has the kind of a literal or a report
that is worded like one (`Scans.literals`). So the scanner never meets a literal that does not
close (`scan_literals_agree`), and to refuse what opens a comment in the literals of the cut is to
refuse it in those tokens (`ofSource_strict_iff`).
-/

namespace ScriptLowering.Token

open List

variable {file pos : Nat} {scanned : Scanned} {parts : List Segment}

/-! ## What other lexemes report -/

/-- The faults of a literal that does not close. -/
def Fault.unclosed : List Fault :=
  [.unterminated .string, .unterminated .character, .brokenByNewline .string,
    .brokenByNewline .character, .danglingEscape .string, .danglingEscape .character,
    .unterminatedRaw]

/-- The fault is one of a numeral, or a character that is not part of the grammar. -/
def Fault.OfWord (fault : Fault) : Prop :=
  Numeral.faults fault = true ∨ ∃ c, fault = .unexpected c

theorem toList_prefix_append {start a} (b : String) (h : start <+: a.toList) :
    start <+: (a ++ b).toList := by
  rw [String.toList_append]
  exact h.trans (prefix_append _ _)

/-- Three characters of the wording tell the faults of literals from the others. -/
theorem Fault.OfWord.message_ne {fault : Fault} (h : fault.OfWord) :
    ∀ other ∈ .emptyCharacter :: unclosed, fault.message ≠ other.message := by
  have hstarts : ∃ start ∈ ["hex", "exp", "ima", "mal", "une"].map String.toList,
      start <+: fault.message.toList := by
    rcases h with h | ⟨c, rfl⟩
    · cases fault with
      | hexWithoutDigits => exact ⟨"hex".toList, by decide, by decide⟩
      | hexWithoutExponent => exact ⟨"hex".toList, by decide, by decide⟩
      | exponentWithoutDigits text =>
        exact ⟨"exp".toList, by decide, toList_prefix_append _ (toList_prefix_append _ (by decide))⟩
      | imaginary text =>
        exact ⟨"ima".toList, by decide, toList_prefix_append _ (toList_prefix_append _ (by decide))⟩
      | malformedNumber text =>
        exact ⟨"mal".toList, by decide, toList_prefix_append _ (toList_prefix_append _ (by decide))⟩
      | _ => contradiction
    · exact ⟨"une".toList, by decide, toList_prefix_append _ (toList_prefix_append _
        (toList_prefix_append _ (toList_prefix_append _ (by decide))))⟩
  have hothers : ∀ other ∈ .emptyCharacter :: unclosed,
      ∀ start ∈ ["hex", "exp", "ima", "mal", "une"].map String.toList,
        ¬ start <+: other.message.toList := by decide
  obtain ⟨start, hmem, hstart⟩ := hstarts
  intro other hother heq
  exact hothers other hother start hmem (heq ▸ hstart)

/-- The kinds of tokens that are literals between quotes. -/
def Kind.quoted : List Kind := [.string, .char]

/-- A lexeme that no quote opens is no literal, whatever is wrong with it. -/
structure Lexeme.OfWord (lexeme : Lexeme) : Prop where
  kind : ∀ kind ∈ lexeme.kind, kind ∉ Kind.quoted
  report : ∀ report ∈ lexeme.report, ∃ fault span, report = Fault.report fault span ∧ fault.OfWord

theorem wordLexeme_ofWord (c : Char) (cs : List Char) : (wordLexeme c cs).OfWord := by
  have htable : ∀ entry ∈ Kind.keywords, entry.2 ∉ Kind.quoted := by decide
  refine ⟨fun kind hkind => ?_, by simp [wordLexeme]⟩
  obtain rfl := Option.some.inj hkind
  cases hword : Kind.ofKeyword? (String.ofList (c :: cs.take (Numeral.run Source.isNameRest cs)))
  with
  | none => decide
  | some keyword =>
    obtain ⟨entry, hfind, rfl⟩ := Option.map_eq_some_iff.1 hword
    exact htable entry (mem_of_find?_eq_some hfind)

theorem Numeral.IsNumeral.kind_mem {kind text} (h : IsNumeral kind text) :
    kind ∈ [.int, .float] := by
  cases h with
  | decimal mantissa => cases mantissa <;> simp
  | _ => simp

theorem numeralLexeme_ofWord {c cs} (hstart : Numeral.Starts (c :: cs)) :
    (numeralLexeme file pos c cs).OfWord := by
  have hkinds : ∀ kind ∈ [Kind.int, .float], kind ∉ Kind.quoted := by decide
  unfold numeralLexeme
  rcases Numeral.read_isNumeral hstart with ⟨hkind, fault, hfault, hfaults⟩ | ⟨hfault, hnumeral⟩
  · refine ⟨fun kind hmem => ?_, fun report hmem => ?_⟩
    · obtain rfl := Option.some.inj hmem
      exact hkinds _ (by simp [hkind])
    · simp only [hfault, Option.map_some, Option.mem_some] at hmem
      exact ⟨fault, _, hmem.symm, .inl hfaults⟩
  · refine ⟨fun kind hmem => ?_, by simp [hfault]⟩
    obtain rfl := Option.some.inj hmem
    exact hkinds _ hnumeral.kind_mem

theorem symbolLexeme_ofWord (file pos : Nat) (c : Char) (cs : List Char) :
    (symbolLexeme file pos c cs).OfWord := by
  have htable : ∀ entry ∈ Kind.punctuation, entry.2 ∉ Kind.quoted := by decide
  unfold symbolLexeme
  split
  · rename_i kind length hfound
    obtain ⟨entry, hfind, hentry⟩ := Option.map_eq_some_iff.1 hfound
    obtain ⟨rfl, -⟩ := Prod.mk.inj hentry
    exact ⟨by simpa using htable entry (mem_of_find?_eq_some hfind), by simp⟩
  · refine ⟨by simp, fun report hmem => ?_⟩
    exact ⟨.unexpected c, _, (Option.some.inj hmem).symm, .inr ⟨c, rfl⟩⟩

theorem lexemeAt_ofWord {c cs} (hopener : Opener.ofChar? c = none) :
    (lexemeAt file pos c cs).OfWord := by
  unfold lexemeAt
  split
  · exact wordLexeme_ofWord c cs
  · split
    · rename_i hstart
      exact numeralLexeme_ofWord (Numeral.starts_cons hstart)
    · rw [hopener]
      exact symbolLexeme_ofWord file pos c cs

/-! ## Literals of the cut and of the scan -/

/-- The literals among segments that begin at byte `pos`: where each stands, and its text. -/
def literalsFrom (file : Nat) : (pos : Nat) → List Segment → List (Span × List Char)
  | _, [] => []
  | pos, part :: parts =>
    let rest := literalsFrom file (pos + byteLength part.text) parts
    if part.role = .literal then (⟨file, pos, pos + byteLength part.text⟩, part.text) :: rest
    else rest

/-- The tokens that are literals, likewise. -/
def Scanned.literals (scanned : Scanned) : List (Span × List Char) :=
  (scanned.tokens.filter (·.kind ∈ Kind.quoted)).map fun token => (token.span, token.text.toList)

/-- Where empty character literals are reported. -/
def Scanned.emptyLiterals (scanned : Scanned) : List Span :=
  (scanned.reports.filter (·.message = Fault.emptyCharacter.message)).map (·.span)

/-- An empty character literal. -/
def emptyCharacter : List Char := [Opener.singleQuote.char, Opener.singleQuote.char]

theorem eq_emptyCharacter_iff {opener : Opener} {body} (h : opener.Closes body) :
    opener.char :: body = emptyCharacter ↔ opener = .singleQuote ∧ body.length = 1 := by
  constructor
  · intro heq
    obtain ⟨hchar, rfl⟩ := cons.inj heq
    exact ⟨by cases opener <;> first | rfl | exact absurd hchar (by decide), rfl⟩
  · rintro ⟨rfl, hlength⟩
    obtain ⟨inner, rest, hbody, -, hcount⟩ := literalExtent_eq_ok_iff.1 (h 0 0 [])
    obtain rfl : inner = [] := eq_nil_of_length_eq_zero (by omega)
    rw [append_nil, nil_append] at hbody
    obtain rfl : rest = [] := eq_nil_of_length_eq_zero (by simp_all)
    rw [hbody]
    rfl

theorem literalsFrom_code {pieces} (h : ∀ piece ∈ pieces, piece.role = .code) (pos : Nat)
    (parts : List Segment) : literalsFrom file pos (pieces ++ parts) =
      literalsFrom file (pos + byteLength (pieces.flatMap Segment.text)) parts := by
  induction pieces generalizing pos with
  | nil => rfl
  | cons piece pieces ih =>
    obtain ⟨hpiece, hpieces⟩ := forall_mem_cons.1 h
    simp [literalsFrom, hpiece, ih hpieces, Nat.add_assoc]

/-- The scanner finds the literals of the cut, and reports the empty ones. -/
structure Scanned.Agrees (literals : List (Span × List Char)) (scanned : Scanned) : Prop where
  tokens : scanned.literals = literals.filter (·.2 ≠ emptyCharacter)
  empties : scanned.emptyLiterals = (literals.filter (·.2 = emptyCharacter)).map (·.1)
  closed : ∀ report ∈ scanned.reports, ∀ fault ∈ Fault.unclosed, report.message ≠ fault.message

theorem Scanned.Agrees.prepend {cut : List (Span × List Char)}
    (h : scanned.Agrees cut) {lexeme : Lexeme} (hlexeme : lexeme.OfWord) (file pos : Nat)
    (newline : Bool) (text : List Char) :
    (scanned.prepend (tokenOf file pos newline text lexeme.kind) lexeme.report).Agrees cut := by
  obtain ⟨extra, kind, report⟩ := lexeme
  obtain ⟨hkind, hreport⟩ := hlexeme
  have hmessages : ∀ r ∈ report, ∀ fault ∈ .emptyCharacter :: Fault.unclosed,
      r.message ≠ fault.message := by
    intro r hr
    obtain ⟨fault, span, rfl, hfault⟩ := hreport r hr
    exact hfault.message_ne
  refine ⟨?_, ?_, ?_⟩
  · rw [← h.tokens]
    cases kind with
    | none => rfl
    | some kind => simp [literals, Scanned.prepend, tokenOf, hkind kind rfl]
  · rw [← h.empties]
    cases report with
    | none => rfl
    | some r =>
      have hr := hmessages r rfl .emptyCharacter mem_cons_self
      simp [emptyLiterals, Scanned.prepend, hr]
  · intro r hr fault hfault
    rcases mem_append.1 hr with hr | hr
    · exact hmessages r (Option.mem_toList.1 hr) fault (mem_cons_of_mem _ hfault)
    · exact h.closed r hr fault hfault

/-- A literal in front is a token, unless it is an empty character literal. -/
theorem Scanned.Agrees.literal {cut : List (Span × List Char)} (h : scanned.Agrees cut)
    {opener : Opener} {body rest lexeme} (hcloses : opener.Closes body)
    (hfound : lexemeAt file pos opener.char (body ++ rest) = lexeme) (newline : Bool) :
    (scanned.prepend (tokenOf file pos newline (opener.char :: body) lexeme.kind)
      lexeme.report).Agrees ((⟨file, pos, pos + byteLength (opener.char :: body)⟩,
        opener.char :: body) :: cut) := by
  rw [lexemeAt_of_closes hcloses] at hfound
  subst hfound
  by_cases hempty : opener.char :: body = emptyCharacter
  · rw [if_pos ((eq_emptyCharacter_iff hcloses).1 hempty), hempty]
    have hsize : byteLength emptyCharacter = 2 := rfl
    have hclosed : ∀ fault ∈ Fault.unclosed, Fault.emptyCharacter.message ≠ fault.message := by
      decide
    refine ⟨?_, ?_, forall_mem_cons.2 ⟨hclosed, h.closed⟩⟩
    · simpa [literals, Scanned.prepend, tokenOf] using h.tokens
    · simpa [emptyLiterals, Scanned.prepend, Fault.report, Diagnostic.error, hsize] using h.empties
  · rw [if_neg (mt (eq_emptyCharacter_iff hcloses).2 hempty)]
    have hkind : (if opener = .singleQuote then Kind.char else .string) ∈ Kind.quoted := by
      split <;> decide
    refine ⟨?_, ?_, h.closed⟩
    · simpa [literals, Scanned.prepend, tokenOf, hkind, hempty] using h.tokens
    · simpa [emptyLiterals, Scanned.prepend, hempty] using h.empties

theorem Scans.literals {newline : Bool} (h : Scans file pos newline parts scanned)
    (hsound : ∀ part ∈ parts, part.Sound) : scanned.Agrees (literalsFrom file pos parts) := by
  induction h with
  | nil => exact ⟨rfl, rfl, by simp⟩
  | @gap _ _ part _ _ blank _ ih =>
    obtain ⟨hpart, hparts⟩ := forall_mem_cons.1 hsound
    have hrole : part.role ≠ .literal := by
      intro hrole
      obtain ⟨role, text⟩ := part
      obtain rfl : role = .literal := hrole
      obtain ⟨c, body, opener, rfl, hopener, -⟩ := hpart
      rw [Opener.ofChar?_eq_some_iff.1 hopener] at blank
      have hblank := blank opener.char mem_cons_self
      cases opener <;> contradiction
    simpa only [literalsFrom, if_neg hrole] using ih hparts
  | @lexeme _ newline _ _ _ _ _ _ _ taken text found _ _ ih =>
    have hrest := ih fun part hpart => hsound part (mem_append_right _ hpart)
    rcases taken with ⟨hopener, hcode⟩ | ⟨opener, hopener, hcloses, rfl⟩
    · rw [literalsFrom_code hcode, text]
      exact hrest.prepend (found ▸ lexemeAt_ofWord hopener) _ _ _ _
    · obtain rfl := Opener.ofChar?_eq_some_iff.1 hopener
      exact hrest.literal hcloses found newline

/-! ## Both passes agree -/

theorem exists_mem_literalsFrom {text} :
    (∃ span, (span, text) ∈ literalsFrom file pos parts) ↔ ⟨.literal, text⟩ ∈ parts := by
  induction parts generalizing pos with
  | nil => simp [literalsFrom]
  | cons part parts ih =>
    obtain ⟨role, found⟩ := part
    cases role <;> simp [literalsFrom, ih, exists_or]

/-- Literals are found in the order they stand in. -/
theorem literalsFrom_pairwise (hsound : ∀ part ∈ parts, part.Sound) (file pos : Nat) :
    (literalsFrom file pos parts).Pairwise (·.1.start < ·.1.start) ∧
      ∀ literal ∈ literalsFrom file pos parts, pos ≤ literal.1.start := by
  induction parts generalizing pos with
  | nil => exact ⟨.nil, by simp [literalsFrom]⟩
  | cons part parts ih =>
    obtain ⟨hpart, hparts⟩ := forall_mem_cons.1 hsound
    obtain ⟨hpairs, hfrom⟩ := ih hparts (pos + byteLength part.text)
    rw [literalsFrom]
    split
    · rename_i hrole
      have hsize : 0 < byteLength part.text := by
        obtain ⟨role, text⟩ := part
        obtain rfl : role = .literal := hrole
        obtain ⟨c, body, -, rfl, -, -⟩ := hpart
        have hc := c.utf8Size_pos
        rw [byteLength_cons]
        omega
      refine ⟨pairwise_cons.2 ⟨fun literal hmem => ?_, hpairs⟩,
        forall_mem_cons.2 ⟨le_refl pos, fun literal hmem => ?_⟩⟩
      · have := hfrom literal hmem
        dsimp only
        omega
      · have := hfrom literal hmem
        omega
    · exact ⟨hpairs, fun literal hmem => (Nat.le_add_right _ _).trans (hfrom literal hmem)⟩

/-- What stands in order is put together again from two parts by merging them. -/
theorem merge_filter {cut : List (Span × List Char)}
    (h : cut.Pairwise (·.1.start < ·.1.start)) (p : Span × List Char → Bool) :
    ((cut.filter (!p ·)).map (·.1)).merge ((cut.filter p).map (·.1)) (·.start ≤ ·.start) =
      cut.map (·.1) := by
  induction cut with
  | nil => simp
  | cons first cut ih =>
    obtain ⟨hfirst, hcut⟩ := pairwise_cons.1 h
    have hrest := ih hcut
    by_cases hp : p first = true
    · rw [filter_cons_of_neg (by simp [hp]), filter_cons_of_pos hp, map_cons,
        map_cons, ← hrest]
      cases hothers : cut.filter (!p ·) with
      | nil => simp
      | cons other others =>
        have hmem : other ∈ cut := (mem_filter.1 (hothers ▸ mem_cons_self)).1
        have hlt := hfirst other hmem
        exact cons_merge_cons_neg _ _ _ (by simpa using hlt)
    · rw [filter_cons_of_pos (by simp [hp]), filter_cons_of_neg hp, map_cons,
        map_cons, ← hrest]
      cases hothers : cut.filter p with
      | nil => simp
      | cons other others =>
        have hmem : other ∈ cut := (mem_filter.1 (hothers ▸ mem_cons_self)).1
        have hlt := hfirst other hmem
        exact cons_merge_cons_pos _ _ _ (by simpa using hlt.le)

theorem scan_agrees {options source} (h : segments options file source = .ok parts) :
    (scan file (parts.flatMap Segment.blanked)).Agrees (literalsFrom file 0 parts) :=
  (scanFrom_scans (segments_sound h).2 0 false).literals (segments_sound h).2

/-- Once comments are blanked, the scanner finds every literal of the cut where it stands and no
other, and each of them closes. -/
theorem scan_literals_agree {options : ScanOptions} {file : Nat} {source : String}
    {out : List Char} (h : blankComments options file source.toList = .ok out) :
    ∃ parts, segments options file source.toList = .ok parts ∧
      (scan file out).Agrees (literalsFrom file 0 parts) ∧
      ((scan file out).literals.map (·.1)).merge (scan file out).emptyLiterals
          (·.start ≤ ·.start) =
        (literalsFrom file 0 parts).map (·.1) := by
  obtain ⟨parts, hparts, rfl⟩ := blankComments_eq_ok_iff.1 h
  have hagrees := scan_agrees hparts
  refine ⟨parts, hparts, hagrees, ?_⟩
  rw [hagrees.tokens, hagrees.empties]
  have hmerge := merge_filter (literalsFrom_pairwise (segments_sound hparts).2 file 0).1
    (fun literal => decide (literal.2 = emptyCharacter))
  simpa using hmerge

/-- A text where the two passes look for literals at different characters: behind a malformed
number, an unknown character and an empty character literal. -/
def entangled : String := "0x'a'\"//\"é''1i`'`/*'*/'\\''"

theorem scan_literals_agree_entangled :
    ∃ out, blankComments ⟨false⟩ 0 entangled.toList = .ok out ∧
      ∃ parts, segments ⟨false⟩ 0 entangled.toList = .ok parts ∧
        (scan 0 out).Agrees (literalsFrom 0 0 parts) ∧
        ((scan 0 out).literals.map (·.1)).merge (scan 0 out).emptyLiterals
            (·.start ≤ ·.start) =
          (literalsFrom 0 0 parts).map (·.1) := by
  have hout : blankComments ⟨false⟩ 0 entangled.toList =
      .ok "0x'a'\"//\"é''1i`'`     '\\''".toList := by decide
  exact ⟨_, hout, scan_literals_agree hout⟩

/-- A token does not look like it holds a comment. -/
def NoOpener (token : Token) : Prop :=
  ¬ ['/', '/'] <:+: token.text.toList ∧ ¬ ['/', '*'] <:+: token.text.toList

theorem hasCommentOpener_eq_false_iff {token} :
    hasCommentOpener token.text.toList = false ↔ NoOpener token := by
  rw [← Bool.not_eq_true, hasCommentOpener_iff, not_or, NoOpener]

/-- For a cut and the tokens of its scan, the two conditions on literals are the same: the
character literals that are no tokens are too short to hold a comment. -/
theorem commentFree_iff {tokens} (h : Scanned.Agrees (literalsFrom file 0 parts) { tokens }) :
    CommentFree parts ↔ ∀ token ∈ tokens, token.kind ∈ Kind.quoted → NoOpener token := by
  constructor
  · intro hfree token hmem hkind
    have hliteral : (token.span, token.text.toList) ∈ Scanned.literals { tokens } :=
      mem_map.2 ⟨token, mem_filter.2 ⟨hmem, decide_eq_true hkind⟩, rfl⟩
    rw [h.tokens] at hliteral
    have hpart := exists_mem_literalsFrom.1 ⟨token.span, (mem_filter.1 hliteral).1⟩
    exact hasCommentOpener_eq_false_iff.1 (hfree _ hpart rfl)
  · intro htokens part hmem hrole
    obtain ⟨role, text⟩ := part
    obtain rfl : role = .literal := hrole
    obtain ⟨span, hliteral⟩ := (@exists_mem_literalsFrom file 0 parts text).2 hmem
    by_cases hempty : text = emptyCharacter
    · subst hempty
      decide
    · have hfound : (span, text) ∈ Scanned.literals { tokens } := by
        rw [h.tokens]
        exact mem_filter.2 ⟨hliteral, decide_eq_true hempty⟩
      obtain ⟨token, htoken, heq⟩ := mem_map.1 hfound
      obtain ⟨-, rfl⟩ := Prod.mk.inj heq
      obtain ⟨hmem, hkind⟩ := mem_filter.1 htoken
      exact hasCommentOpener_eq_false_iff.2 (htokens token hmem (of_decide_eq_true hkind))

/-- To refuse literals that look like they hold a comment is to scan all the same and to refuse
the tokens that do. -/
theorem ofSource_strict_iff (file : Nat) (source : String) (tokens : List Token) :
    ofSource ⟨true⟩ file source = .ok tokens ↔
      ofSource ⟨false⟩ file source = .ok tokens ∧
        ∀ token ∈ tokens, token.kind ∈ Kind.quoted →
          ¬ ['/', '/'] <:+: token.text.toList ∧ ¬ ['/', '*'] <:+: token.text.toList := by
  rw [ofSource_eq_ok_iff, ofSource_eq_ok_iff]
  constructor
  · rintro ⟨parts, hparts, hscan⟩
    obtain ⟨htext, hcut, hfree⟩ := segments_eq_ok_iff.1 hparts
    refine ⟨⟨parts, segments_eq_ok_iff.2 ⟨htext, hcut, by simp⟩, hscan⟩, ?_⟩
    exact (commentFree_iff (hscan ▸ scan_agrees hparts)).1 (hfree rfl)
  · rintro ⟨⟨parts, hparts, hscan⟩, hopeners⟩
    obtain ⟨htext, hcut, -⟩ := segments_eq_ok_iff.1 hparts
    have hfree := (commentFree_iff (hscan ▸ scan_agrees hparts)).2 hopeners
    exact ⟨parts, segments_eq_ok_iff.2 ⟨htext, hcut, fun _ => hfree⟩, hscan⟩

end ScriptLowering.Token
