import ScriptLowering.Proofs.Nesting
import ScriptLowering.Proofs.Tiling

/-!
# Places between characters

Spans count bytes, and a span is of use only where both of its ends stand between characters of
the source (`Span.Usable`). The scanner reads characters, so each offset it names is the length of
some characters read before (`Boundary`). This holds of a text that is scanned as it stands, and
also of one whose comments were blanked first: the blanks of a comment may stand inside what was one
character, but no lexeme begins or ends there, because each takes whole segments (`exists_pieces`).

Every place a parse names is merged from those of its tokens, and merging keeps places usable. So
the nodes of a parsed source lie inside it, each one inside the node above (`ofSource_nested`).
-/

namespace ScriptLowering

open List

variable {cs front text : List Char} {source : String} {file pos size : Nat} {span : Span}
  {report : Diagnostic} {options : ScanOptions} {c : Char} {tokens : List Token}

theorem byteLength_toList (text : String) : byteLength text.toList = text.utf8ByteSize := by
  have hlist (cs : List Char) : (String.ofList cs).utf8ByteSize = byteLength cs := by
    induction cs with
    | nil => rfl
    | cons c cs ih =>
      rw [← singleton_append, String.ofList_append, String.utf8ByteSize_append, ih,
        ← String.singleton_eq_ofList, String.utf8ByteSize_singleton, singleton_append,
        byteLength_cons]
  rw [← hlist, String.ofList_toList]

theorem byteLength_take_le (n : Nat) (cs : List Char) : byteLength (cs.take n) ≤ byteLength cs := by
  have hsplit := byteLength_take_add_drop n cs
  omega

/-- The offset stands between two characters of a text that begins at `pos`, or at an end of it. -/
def Boundary (pos : Nat) (text : List Char) (offset : Nat) : Prop :=
  ∃ before after, text = before ++ after ∧ offset = pos + byteLength before

namespace Boundary

variable {pos offset : Nat} {text : List Char}

theorem first : Boundary pos text pos := ⟨[], text, rfl, rfl⟩

theorem last : Boundary pos text (pos + byteLength text) := ⟨text, [], by simp, rfl⟩

theorem take (n : Nat) : Boundary pos text (pos + byteLength (text.take n)) :=
  ⟨text.take n, text.drop n, by simp, rfl⟩

theorem behind (h : Boundary (pos + byteLength front) text offset) :
    Boundary pos (front ++ text) offset := by
  obtain ⟨before, after, rfl, rfl⟩ := h
  exact ⟨front ++ before, after, by simp, by rw [byteLength_append, Nat.add_assoc]⟩

/-- In a whole text such an offset is one that strings can be cut at. -/
theorem isValid (h : Boundary 0 source.toList offset) : String.Pos.Raw.IsValid source ⟨offset⟩ := by
  obtain ⟨before, after, hsplit, rfl⟩ := h
  refine String.Pos.Raw.isValid_iff_exists_append.2
    ⟨String.ofList before, String.ofList after, ?_, ?_⟩
  · rw [← String.ofList_append, ← hsplit, String.ofList_toList]
  · rw [String.rawEndPos, ← byteLength_toList, String.toList_ofList, Nat.zero_add]

theorem le (h : Boundary 0 source.toList offset) : offset ≤ source.utf8ByteSize := by
  obtain ⟨before, after, hsplit, rfl⟩ := h
  rw [← byteLength_toList, hsplit, byteLength_append]
  omega

end Boundary

namespace Span

/-- The span cuts some characters out of a text that begins at `pos`. -/
structure Cuts (pos : Nat) (text : List Char) (span : Span) : Prop where
  ordered : span.start ≤ span.stop
  start : Boundary pos text span.start
  stop : Boundary pos text span.stop

theorem Cuts.behind (h : span.Cuts (pos + byteLength front) text) : span.Cuts pos (front ++ text) :=
  ⟨h.ordered, h.start.behind, h.stop.behind⟩

/-- What a reader of a report can rely on: the span lies inside the source, and both of its ends
stand between characters. -/
structure Usable (source : String) (span : Span) : Prop where
  ordered : span.start ≤ span.stop
  inside : span.stop ≤ source.utf8ByteSize
  start : String.Pos.Raw.IsValid source ⟨span.start⟩
  stop : String.Pos.Raw.IsValid source ⟨span.stop⟩

theorem Cuts.usable (h : span.Cuts 0 source.toList) : span.Usable source :=
  ⟨h.ordered, h.stop.le, h.start.isValid, h.stop.isValid⟩

theorem Usable.join {a b : Span} (ha : a.Usable source) (hb : b.Usable source) :
    (a.join b).Usable source := by
  have hab := ha.ordered
  refine ⟨?_, ?_, ?_, ?_⟩
  · exact Nat.le_trans (Nat.min_le_left _ _) (Nat.le_trans hab (Nat.le_max_left _ _))
  · exact Nat.max_le.2 ⟨ha.inside, hb.inside⟩
  · unfold Span.join
    rcases Nat.le_total a.start b.start with h | h
    · simpa only [Nat.min_eq_left h] using ha.start
    · simpa only [Nat.min_eq_right h] using hb.start
  · unfold Span.join
    rcases Nat.le_total a.stop b.stop with h | h
    · simpa only [Nat.max_eq_right h] using hb.stop
    · simpa only [Nat.max_eq_left h] using ha.stop

theorem Usable.point (file : Nat) (h : String.Pos.Raw.IsValid source ⟨pos⟩)
    (hle : pos ≤ source.utf8ByteSize) : (Span.point file pos).Usable source :=
  ⟨Nat.le_refl pos, hle, h, h⟩

end Span

namespace Token

/-! ## Faults of a text -/

/-- What can be wrong with a text before its tokens are scanned. -/
def Fault.beforeScan : List Fault :=
  [.unterminatedComment, .unterminated .string, .unterminated .character,
    .brokenByNewline .string, .brokenByNewline .character, .danglingEscape .string,
    .danglingEscape .character, .unterminatedRaw, .commentInLiteral]

/-- The report is of a fault that keeps a text from being scanned, and cuts the text. -/
def Faulted (pos : Nat) (text : List Char) (report : Diagnostic) : Prop :=
  ∃ fault ∈ Fault.beforeScan, ∃ span, report = Fault.report fault span ∧ span.Cuts pos text

theorem Faulted.behind
    (h : Faulted (pos + byteLength front) text report) : Faulted pos (front ++ text) report := by
  obtain ⟨fault, hfault, span, rfl, hspan⟩ := h
  exact ⟨fault, hfault, span, rfl, hspan.behind⟩

theorem Faulted.cuts (h : Faulted pos text report) : report.span.Cuts pos text := by
  obtain ⟨fault, -, span, rfl, hspan⟩ := h
  exact hspan

/-- A place in a text behind its first `n` characters is at the end of some of them. -/
theorem cuts_from_first {stop n} (h : stop = pos + byteLength (text.take n)) :
    Span.Cuts pos text ⟨file, pos, stop⟩ := by
  subst h
  exact ⟨Nat.le_add_right _ _, .first, .take n⟩

theorem cuts_all {stop} (h : stop = pos + byteLength text) :
    Span.Cuts pos text ⟨file, pos, stop⟩ := by
  subst h
  exact ⟨Nat.le_add_right _ _, .first, .last⟩

theorem quotedExtent_error {what quote} (hsize : quote.utf8Size = 1)
    (h : quotedExtent file pos what quote cs = .error report) :
    Faulted pos (quote :: cs) report := by
  have htake (n : Nat) : pos + 1 + byteLength (cs.take n) =
      pos + byteLength ((quote :: cs).take (n + 1)) := by
    rw [take_succ_cons, byteLength_cons, hsize, Nat.add_assoc]
  have hall : pos + 1 + byteLength cs = pos + byteLength (quote :: cs) := by
    rw [byteLength_cons, hsize, Nat.add_assoc]
  unfold quotedExtent at h
  dsimp only at h
  split at h
  · contradiction
  · obtain rfl := Except.error.inj h
    exact ⟨.unterminated what, by cases what <;> decide, _, rfl, cuts_all hall⟩
  · rename_i count _
    obtain rfl := Except.error.inj h
    refine ⟨.danglingEscape what, by cases what <;> decide, _, rfl, ?_, ?_, ?_⟩
    · exact Nat.add_le_add_left (byteLength_take_le count cs) _
    · rw [htake]
      exact .take _
    · rw [hall]
      exact .last
  · obtain rfl := Except.error.inj h
    exact ⟨.brokenByNewline what, by cases what <;> decide, _, rfl, cuts_from_first (htake _)⟩

/-- A literal that does not close is a fault of the text from its opening mark on. -/
theorem literalExtent_error {opener} (h : literalExtent file pos opener cs = .error report) :
    Faulted pos (opener.char :: cs) report := by
  cases opener with
  | doubleQuote => exact quotedExtent_error (by decide) h
  | singleQuote => exact quotedExtent_error (by decide) h
  | backtick =>
    unfold literalExtent at h
    dsimp only at h
    split at h
    · contradiction
    · obtain rfl := Except.error.inj h
      have hsize : Opener.backtick.char.utf8Size = 1 := by decide
      refine ⟨.unterminatedRaw, by decide, _, rfl, cuts_all ?_⟩
      rw [byteLength_cons, hsize, Nat.add_assoc]

theorem segmentAt_error (h : segmentAt options file pos c cs = .error report) :
    Faulted pos (c :: cs) report := by
  unfold segmentAt at h
  split at h
  · contradiction
  · split at h
    · contradiction
    · obtain rfl := Except.error.inj h
      exact ⟨.unterminatedComment, by decide, _, rfl, cuts_all rfl⟩
  · split at h
    · contradiction
    · rename_i opener hopener
      cases hextent : literalExtent file pos opener cs with
      | error fault =>
        simp only [hextent, bind, Except.bind] at h
        rw [← Except.error.inj h, Opener.ofChar?_eq_some_iff.1 hopener]
        exact literalExtent_error hextent
      | ok count =>
        simp only [hextent, bind, Except.bind, pure, Except.pure] at h
        split at h
        · obtain rfl := Except.error.inj h
          exact ⟨.commentInLiteral, by decide, _, rfl, cuts_from_first (n := count + 1) rfl⟩
        · contradiction

theorem segmentsFrom_error {source skip}
    (h : segmentsFrom options file skip pos source = .error report) :
    Faulted pos source report := by
  induction source generalizing skip pos with
  | nil => cases skip <;> contradiction
  | cons c cs ih =>
    -- What is wrong behind the first character is wrong with the whole text.
    have hbehind {skip : Nat} (hrest : segmentsFrom options file skip (pos + c.utf8Size) cs =
        .error report) : Faulted pos (c :: cs) report :=
      @Faulted.behind [c] cs pos report (ih hrest)
    cases skip with
    | succ skip =>
      exact hbehind h
    | zero =>
      rw [segmentsFrom] at h
      cases hat : segmentAt options file pos c cs with
      | error fault =>
        simp only [hat, bind, Except.bind] at h
        rw [← Except.error.inj h]
        exact segmentAt_error hat
      | ok found =>
        obtain ⟨role, count⟩ := found
        cases hrest : segmentsFrom options file count (pos + c.utf8Size) cs with
        | error fault =>
          simp only [hat, hrest, bind, Except.bind] at h
          rw [← Except.error.inj h] at hbehind ⊢
          exact hbehind hrest
        | ok rest => simp [hat, hrest, bind, Except.bind, pure, Except.pure] at h

/-- Blanking comments fails only at a literal or a comment, and says where it stands. -/
theorem blankComments_error {source} (h : blankComments options file source = .error report) :
    Faulted 0 source report := by
  unfold blankComments segments at h
  cases hparts : segmentsFrom options file 0 0 source with
  | ok parts => simp [hparts, Except.map] at h
  | error fault =>
    rw [hparts] at h
    rw [← Except.error.inj h]
    exact segmentsFrom_error hparts

/-- No fault of a text lies in its encoding. -/
theorem Faulted.message_ne
    (h : Faulted pos text report) : report.message ≠ "source is not valid UTF-8" := by
  obtain ⟨fault, hfault, span, rfl, -⟩ := h
  have hmessages : ∀ fault ∈ Fault.beforeScan, fault.message ≠ "source is not valid UTF-8" := by
    decide
  exact hmessages fault hfault

/-! ## Scanning -/

/-- The tokens and reports of a scan have places with `P`. -/
structure Scanned.Placed (P : Span → Prop) (scanned : Scanned) : Prop where
  tokens : ∀ token ∈ scanned.tokens, P token.span
  reports : ∀ report ∈ scanned.reports, P report.span

theorem Scanned.Placed.mono {P Q} {scanned : Scanned} (h : scanned.Placed P)
    (hPQ : ∀ span, P span → Q span) : scanned.Placed Q :=
  ⟨fun token hmem => hPQ _ (h.tokens token hmem), fun report hmem => hPQ _ (h.reports report hmem)⟩

/-- An empty character literal is its two quotes. -/
theorem byteLength_emptyCharacter
    (h : literalExtent file pos .singleQuote cs = .ok 1) : byteLength (cs.take 1) = 1 := by
  obtain ⟨body, rest, rfl, -, hlength⟩ := literalExtent_eq_ok_iff.1 h
  obtain rfl : body = [] := eq_nil_of_length_eq_zero (by omega)
  have hsize : Opener.singleQuote.char.utf8Size = 1 := by decide
  simp [hsize]

/-- What is wrong with a lexeme is reported at the whole of it, unless it is a literal that does
not close. -/
theorem lexemeAt_report (h : (lexemeAt file pos c cs).report = some report) :
    report.span =
        ⟨file, pos, pos + byteLength (c :: cs.take (lexemeAt file pos c cs).extra)⟩ ∨
      ∃ opener, Opener.ofChar? c = some opener ∧
        literalExtent file pos opener cs = .error report := by
  unfold lexemeAt at h ⊢
  split at h
  · contradiction
  · rename_i hword
    rw [if_neg hword]
    split at h
    · rename_i hnumeral
      rw [if_pos hnumeral]
      obtain ⟨fault, -, rfl⟩ := Option.map_eq_some_iff.1 h
      exact .inl rfl
    · rename_i hnumeral
      rw [if_neg hnumeral]
      cases hopener : Opener.ofChar? c with
      | none =>
        simp only [hopener] at h ⊢
        unfold symbolLexeme at h ⊢
        cases hfound : Kind.ofPunctuation? (c :: cs) with
        | some found => simp [hfound] at h
        | none =>
          simp only [hfound] at h ⊢
          rw [← Option.some.inj h]
          exact .inl (by simp)
      | some opener =>
        simp only [hopener] at h ⊢
        unfold literalLexeme at h ⊢
        cases hextent : literalExtent file pos opener cs with
        | error fault =>
          simp only [hextent] at h
          exact .inr ⟨opener, rfl, by rw [hextent, Option.some.inj h]⟩
        | ok extra =>
          simp only [hextent] at h ⊢
          cases opener with
          | doubleQuote => contradiction
          | backtick => contradiction
          | singleQuote =>
            -- The one literal that closes and is reported all the same is the empty one.
            dsimp only at h ⊢
            split at h
            · rename_i hone
              subst hone
              rw [← Option.some.inj h]
              left
              have hc : c.utf8Size = 1 := by
                rw [Opener.ofChar?_eq_some_iff.1 hopener]
                decide
              simp [byteLength_emptyCharacter hextent, hc]
            · contradiction

/-- One lexeme: it names its own place, and that of a literal that does not close. -/
theorem Scanned.Placed.prepend {P newline body lexeme} {rest : Scanned} (hrest : rest.Placed P)
    (hat : lexemeAt file pos c cs = lexeme) (htake : cs.take lexeme.extra = body)
    (hlexeme : P ⟨file, pos, pos + byteLength (c :: body)⟩)
    (hliteral : ∀ opener report, Opener.ofChar? c = some opener →
      literalExtent file pos opener cs = .error report → P report.span) :
    (rest.prepend (tokenOf file pos newline (c :: body) lexeme.kind) lexeme.report).Placed P := by
  constructor
  · refine forall_mem_append.2 ⟨?_, hrest.tokens⟩
    intro token hmem
    obtain ⟨kind, -, rfl⟩ := Option.map_eq_some_iff.1 (Option.mem_toList.1 hmem)
    exact hlexeme
  · refine forall_mem_append.2 ⟨?_, hrest.reports⟩
    intro report hmem
    subst hat
    rcases lexemeAt_report (Option.mem_toList.1 hmem) with hspan | ⟨opener, hopener, herror⟩
    · rw [hspan, htake]
      exact hlexeme
    · exact hliteral opener report hopener herror

/-- Whatever text is scanned, the places named cut it. -/
theorem scanFrom_cuts (file pos : Nat) (newline : Bool) (text : List Char) :
    (scanFrom file 0 pos newline text).Placed (Span.Cuts pos text) := by
  -- By strong induction on the length, because a lexeme takes several characters at once.
  induction hn : text.length using Nat.strongRecOn generalizing text pos newline with
  | ind n ih =>
    subst hn
    cases text with
    | nil => exact ⟨by simp [scanFrom], by simp [scanFrom]⟩
    | cons c cs =>
      cases hblank : Source.isBlank c with
      | true =>
        rw [scanFrom, if_pos hblank]
        exact (ih cs.length (by simp) _ _ cs rfl).mono fun span h => @h.behind [c] _ pos
      | false =>
        have hsplit := take_append_drop (lexemeAt file pos c cs).extra cs
        have hscan := @scanFrom_lexeme c (cs.take (lexemeAt file pos c cs).extra)
          (cs.drop (lexemeAt file pos c cs).extra) file pos newline _ hblank (by rw [hsplit])
          (by rw [hsplit]) (by rw [hsplit])
        rw [hsplit] at hscan
        rw [hscan]
        refine .prepend ((ih _ ?_ _ _ _ rfl).mono fun span h => ?_) rfl rfl
          (cuts_from_first (n := _ + 1) rfl) ?_
        · simp only [length_drop, length_cons]
          omega
        · simpa using h.behind
        · intro opener report hopener herror
          rw [Opener.ofChar?_eq_some_iff.1 hopener]
          exact (literalExtent_error herror).cuts

/-- A text whose comments are blanked: the places named cut the text as it was written. -/
theorem Scans.placed {newline : Bool} {parts : List Segment} {scanned : Scanned}
    (h : Scans file pos newline parts scanned) :
    scanned.Placed (Span.Cuts pos (parts.flatMap Segment.text)) := by
  -- The induction is on the segments, not on the characters: only between segments does the
  -- blanked text have the offsets of the written one.
  induction h with
  | nil => exact ⟨by simp, by simp⟩
  | gap _ _ ih => exact ih.mono fun span h => h.behind
  | @lexeme _ _ c body _ _ _ _ _ taken text found extent _ ih =>
    rw [flatMap_append, text]
    refine .prepend (ih.mono fun span h => h.behind) found extent
      (cuts_from_first (n := (c :: body).length) (by rw [take_left])) ?_
    -- A literal that does not close has stopped the blanking already.
    intro opener report hopener herror
    rcases taken with ⟨hnone, -⟩ | ⟨opener', hsome, hcloses, -⟩
    · rw [hopener] at hnone
      contradiction
    · obtain rfl := Option.some.inj (hopener.symm.trans hsome)
      rw [hcloses] at herror
      contradiction

/-- The tokens of a source, or the reports of what is wrong with it, have usable places. -/
theorem ofSource_usable (options : ScanOptions) (file : Nat) (source : String) :
    (∀ tokens, ofSource options file source = .ok tokens →
      ∀ token ∈ tokens, token.span.Usable source) ∧
    ∀ reports, ofSource options file source = .error reports →
      ∀ report ∈ reports, report.span.Usable source := by
  unfold ofSource
  cases hblank : blankComments options file source.toList with
  | error fault =>
    refine ⟨by simp, ?_⟩
    rintro reports ⟨⟩ report hmem
    rw [mem_singleton.1 hmem]
    exact (blankComments_error hblank).cuts.usable
  | ok text =>
    obtain ⟨parts, hparts, rfl⟩ := blankComments_eq_ok_iff.1 hblank
    obtain ⟨htext, hsound⟩ := segments_sound hparts
    have hplaced : (scan file (parts.flatMap Segment.blanked)).Placed (Span.Usable source) := by
      refine (scanFrom_scans hsound 0 false).placed.mono fun span h => Span.Cuts.usable ?_
      rwa [htext] at h
    dsimp only
    split
    · refine ⟨?_, by simp⟩
      rintro tokens ⟨⟩
      exact hplaced.tokens
    · refine ⟨by simp, ?_⟩
      rintro reports ⟨⟩
      exact hplaced.reports

end Token

namespace Grammar

variable {source : String} {file : Nat}

/-- Terminators stand at the end of a token, or at the beginning of the text. -/
theorem withTerminators_usable (last : Option (Token.Kind × Nat))
    (hlast : (Span.point file ((last.map Prod.snd).getD 0)).Usable source)
    (h : ∀ token ∈ tokens, token.span.Usable source) :
    ∀ token ∈ withTerminators file last tokens, token.span.Usable source := by
  induction tokens generalizing last with
  | nil =>
    have hpos : (last.getD (.endOfInput, 0)).2 = (last.map Prod.snd).getD 0 := by
      cases last <;> rfl
    simp only [withTerminators, hpos]
    split
    · exact forall_mem_cons.2 ⟨hlast, forall_mem_singleton.2 hlast⟩
    · exact forall_mem_singleton.2 hlast
  | cons token tokens ih =>
    obtain ⟨htoken, htokens⟩ := forall_mem_cons.1 h
    have hrest : ∀ x ∈ token :: withTerminators file (some (token.kind, token.span.stop)) tokens,
        x.span.Usable source :=
      forall_mem_cons.2 ⟨htoken, ih _ (.point file htoken.stop htoken.inside) htokens⟩
    unfold withTerminators
    cases last with
    | none => exact hrest
    | some before =>
      dsimp only
      split
      · exact forall_mem_cons.2 ⟨hlast, hrest⟩
      · exact hrest

theorem Merged.usable {buffer : List Token} (hbuffer : ∀ token ∈ buffer, token.span.Usable source)
    (h : Merged buffer span) : span.Usable source := by
  induction h with
  | token mem => exact hbuffer _ mem
  | join left right merge hleft hright =>
    unfold Span.join? at merge
    split at merge
    · rw [← Option.some.inj merge]
      exact hleft.join hright
    · contradiction

/-- The tokens that a parse of a source reads, terminators included. -/
theorem buffer_usable {options} (h : Token.ofSource options file source = .ok tokens) :
    ∀ token ∈ withTerminators file none tokens, token.span.Usable source :=
  withTerminators_usable none (.point file Boundary.first.isValid (Nat.zero_le _))
    ((Token.ofSource_usable options file source).1 tokens h)

theorem State.Stands.passed_le {buffer} {s : State} (h : s.Stands buffer)
    (hbuffer : ∀ token ∈ buffer, token.span.stop ≤ size) : s.passed ≤ size := by
  obtain ⟨read, rfl, hbefore⟩ := h
  unfold State.passed
  rw [hbefore]
  cases hlast : read.getLast? with
  | none => exact Nat.zero_le size
  | some token => exact hbuffer token (mem_append_left _ (mem_of_getLast? hlast))

/-- The topmost nodes of a parsed file lie within the tokens. -/
theorem parseFile_within {parsed : SourceFile} (horder : Token.InOrder file 0 tokens)
    (hsize : ∀ token ∈ withTerminators file none tokens, token.span.stop ≤ size)
    (h : parseFile file tokens = .ok parsed) :
    ∀ node ∈ parsed.treeNodes, NodeWithin file 0 size node := by
  intro node hnode
  -- Recovery may skip tokens that a node begins with, so places are followed only while nothing
  -- was reported.
  obtain ⟨s, hparses⟩ := parseFile_parses horder.file_eq h
  have hstrung := hparses.strung (State.initial_ordered horder)
  exact (hstrung.mem Placed.local hnode).within.mono (Nat.zero_le _)
    (hparses.stands.passed_le hsize)

end Grammar

/-! ## Parsed trees -/

namespace SourceFile

/-- A source is parsed where its tokens are, and else it fails as they do. -/
theorem ofSource_eq (options : Token.ScanOptions) (file : Nat) (source : String) :
    (∃ reports, Token.ofSource options file source = .error reports ∧
      ofSource options file source = .error (.reports reports)) ∨
    ∃ tokens, Token.ofSource options file source = .ok tokens ∧
      ofSource options file source = Grammar.parseFile file tokens := by
  unfold ofSource
  cases htokens : Token.ofSource options file source with
  | error reports => exact .inl ⟨reports, rfl, rfl⟩
  | ok tokens => exact .inr ⟨tokens, rfl, rfl⟩

/-- The node stands somewhere in the file. -/
def HasNode (file : SourceFile) (node : TreeNode) : Prop :=
  ∃ top ∈ file.treeNodes, top.Above node

end SourceFile

/-- The node lies in a text of `size` bytes and contains its children, and its statements stand one
behind another. -/
structure TreeNode.Nested (size : Nat) (node : TreeNode) : Prop where
  ordered : node.span.start ≤ node.span.stop
  inside : node.span.stop ≤ size
  children : ∀ child ∈ node.children, node.span.contains child.span = true
  order : InOrder node.stmts

theorem NodeWithin.nested {lo node} (h : NodeWithin file lo size node) : node.Nested size where
  ordered := h.bounds.2.2.1
  inside := h.bounds.2.2.2
  children := by
    intro child hmem
    obtain ⟨hfile, hstart, -, hstop⟩ := (h.child hmem).bounds
    exact Span.contains_iff.2 ⟨h.bounds.1.trans hfile.symm, hstart, hstop⟩
  order := h.order

/-- The nodes of a parsed source lie inside it, each one inside the node above, and the statements
of a block or an arm stand one behind another. -/
theorem SourceFile.ofSource_nested {options : Token.ScanOptions} {file : Nat} {source : String}
    {parsed : SourceFile} (h : ofSource options file source = .ok parsed) :
    ∀ node, parsed.HasNode node → node.Nested source.utf8ByteSize := by
  rintro node ⟨top, htop, habove⟩
  rcases ofSource_eq options file source with ⟨reports, -, herror⟩ | ⟨tokens, htokens, hparse⟩
  · rw [herror] at h
    contradiction
  · have horder := Token.ofSource_inOrder htokens
    have hwithin := Grammar.parseFile_within horder
      (fun token hmem => (Grammar.buffer_usable htokens token hmem).inside) (hparse.symm.trans h)
    have hinside := (hwithin top htop).bounds.2.2.2
    exact (((hwithin top htop).of_above habove).mono (Nat.zero_le _) hinside).nested

/-- A function whose body holds an arm with two statements, and a written type with a length. -/
def armed : String :=
  "func f(n int) \x7b\n\tswitch n \x7b\n\tcase 1:\n\t\tx := [2]int\x7bn\x7d\n" ++
    "\t\tg(x)\n\t\x7d\n\x7d\n"

theorem SourceFile.ofSource_nested_armed :
    ∃ parsed, ofSource {} 0 armed = .ok parsed ∧ parsed.treeNodes.length = 1 ∧
      ∀ node, parsed.HasNode node → node.Nested 66 := by
  have hparse : ((ofSource {} 0 armed).toOption.filter fun parsed =>
      parsed.treeNodes.length = 1).isSome = true := by decide +kernel
  have hsize : armed.utf8ByteSize = 66 := by decide +kernel
  obtain ⟨parsed, hparsed⟩ := Option.isSome_iff_exists.1 hparse
  obtain ⟨hparsed, hlength⟩ := Option.filter_eq_some_iff.1 hparsed
  refine ⟨parsed, eq_ok_of_toOption hparsed, of_decide_eq_true hlength, ?_⟩
  rw [← hsize]
  exact ofSource_nested (eq_ok_of_toOption hparsed)

end ScriptLowering
