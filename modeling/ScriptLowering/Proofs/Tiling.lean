import ScriptLowering.Proofs.Scanning
import ScriptLowering.Proofs.Segments

/-!
# Tokens and gaps tile the text

Two passes read a text, one that blanks its comments and one that scans what is left, and they
line up byte for byte. The tokens of a text that scans without a report and the gaps between them
tile its segments (`Tiles`): a gap is one segment that is blank once comments are, a token is a
run of segments none of which is a comment. What a reader of tokens relies on follows from the
tiling by induction (`ofSource_faithful`): each token has the text that stands at its place, what
stands between tokens is blank, and a token knows of a line break before it.
-/

namespace ScriptLowering.Token

open List

variable {c : Char} {opener : Opener} {body cs rest : List Char} {file length n pos : Nat}
  {newline : Bool} {parts : List Segment}

/-! ## What lexemes are made of -/

/-- The characters that end every lexeme but a literal: blanks, and the marks that open a
literal. -/
def hollow : List Char :=
  [' ', '\t', '\n', '\x0c', '\r', Opener.doubleQuote.char, Opener.singleQuote.char,
    Opener.backtick.char]

theorem mem_hollow_of_isBlank (h : Source.isBlank c = true) : c ∈ hollow := by
  simp only [Source.isBlank, Bool.or_eq_true, beq_iff_eq] at h
  rcases h with (((rfl | rfl) | rfl) | rfl) | rfl
  all_goals decide

theorem mem_hollow_of_opener (h : Opener.ofChar? c = some opener) : c ∈ hollow := by
  rw [Opener.ofChar?_eq_some_iff.1 h]
  cases opener
  all_goals decide

theorem not_mem_hollow_of_class {p} (hp : hollow.any p = false) (hc : p c = true) : c ∉ hollow := by
  intro hmem
  exact any_eq_false.1 hp c hmem hc

/-- None of the first `n` characters ends a lexeme. -/
def SolidTo (cs : List Char) (n : Nat) : Prop := ∀ c ∈ cs.take n, c ∉ hollow

namespace SolidTo

theorem zero (cs : List Char) : SolidTo cs 0 := by simp [SolidTo]

theorem add {m} (hm : SolidTo cs m) (hn : SolidTo (cs.drop m) n) : SolidTo cs (m + n) := by
  intro c hc
  rw [take_add] at hc
  rcases mem_append.mp hc with hc | hc
  · exact hm c hc
  · exact hn c hc

theorem cons (hc : c ∉ hollow) (hcs : SolidTo cs n) : SolidTo (c :: cs) (n + 1) := by
  intro d hd
  rcases mem_cons.mp hd with rfl | hd
  · exact hc
  · exact hcs d hd

theorem tail (h : SolidTo (c :: cs) n) : SolidTo cs (n - 1) := by
  cases n with
  | zero => exact zero cs
  | succ n =>
    intro d hd
    exact h d (mem_cons_of_mem c hd)

/-- One more character, known by what stands there. -/
theorem snoc {m} (hm : SolidTo cs m) (hdrop : cs.drop m = c :: rest) (hc : c ∉ hollow) :
    SolidTo cs (m + 1) := by
  refine hm.add ?_
  rw [hdrop]
  exact (zero rest).cons hc

theorem run {p} (hp : hollow.any p = false) (cs : List Char) : SolidTo cs (Numeral.run p cs) := by
  intro c hc
  have htake : cs.take (Numeral.run p cs) = cs.takeWhile p :=
    (prefix_iff_eq_take.mp ( takeWhile_prefix p)).symm
  rw [htake] at hc
  exact not_mem_hollow_of_class hp (all_eq_true.mp all_takeWhile c hc)

end SolidTo

namespace Numeral

/-- A part of a numeral takes solid characters only, faulty or not. -/
def Part.Solid (cs : List Char) : Part → Prop
  | .ok found => SolidTo cs found.1
  | .error numeral => SolidTo cs numeral.length

theorem exponentDigits_solid {signed} (h : SolidTo cs signed) :
    Part.Solid cs (if run Char.isDigit (cs.drop signed) = 0 then
        .error (faulty cs signed .exponentWithoutDigits)
      else .ok (signed + run Char.isDigit (cs.drop signed), .float)) := by
  split
  · exact h
  · exact h.add (SolidTo.run (p := Char.isDigit) (by decide) _)

theorem exponent_solid {mark} (h : SolidTo cs length) (hdrop : cs.drop length = mark :: rest)
    (hmark : mark ∉ hollow) : (exponent cs length).Solid cs := by
  have hone : SolidTo cs (length + 1) := h.snoc hdrop hmark
  unfold exponent
  split
  · rename_i hplus
    exact exponentDigits_solid (hone.snoc hplus (by decide))
  · rename_i hminus
    exact exponentDigits_solid (hone.snoc hminus (by decide))
  · exact exponentDigits_solid hone

theorem hexadecimal_solid {x digits} (hx : x ∉ hollow) :
    (hexadecimal ('0' :: x :: digits)).Solid ('0' :: x :: digits) := by
  unfold hexadecimal
  extract_lets whole fraction length
  have hwhole : SolidTo ('0' :: x :: digits) (2 + whole) :=
    SolidTo.add (((SolidTo.zero digits).cons hx).cons (by decide))
      (SolidTo.run (p := Source.isHexDigit) (by decide) _)
  have hlength : SolidTo ('0' :: x :: digits) length := by
    unfold length fraction
    split
    · rename_i fractional hpoint
      have hrun := (hwhole.snoc hpoint (by decide)).add (n := run Source.isHexDigit fractional) ?_
      · rwa [Option.map_some, Option.getD_some, Nat.add_comm (run _ _) 1, ← Nat.add_assoc]
      · rw [← drop_drop, hpoint]
        exact SolidTo.run (p := Source.isHexDigit) (by decide) _
    · exact hwhole
  split
  · exact hlength
  · split
    · rename_i hp
      exact exponent_solid hlength hp (by decide)
    · rename_i hp
      exact exponent_solid hlength hp (by decide)
    · split
      · exact hlength
      · exact hlength

theorem decimal_solid (cs : List Char) : (decimal cs).Solid cs := by
  unfold decimal
  extract_lets whole
  have hwhole : SolidTo cs whole := SolidTo.run (p := Char.isDigit) (by decide) cs
  split
  rename_i length kind hfound
  have hlength : SolidTo cs length := by
    split at hfound
    · obtain ⟨rfl, rfl⟩ := Prod.mk.inj hfound
      exact hwhole
    · rename_i digits _ hpoint
      obtain ⟨rfl, rfl⟩ := Prod.mk.inj hfound
      refine (hwhole.snoc hpoint (by decide)).add ?_
      rw [← drop_drop, hpoint]
      exact SolidTo.run (p := Char.isDigit) (by decide) digits
    · obtain ⟨rfl, rfl⟩ := Prod.mk.inj hfound
      exact hwhole
  split
  · rename_i he
    exact exponent_solid hlength he (by decide)
  · rename_i he
    exact exponent_solid hlength he (by decide)
  · exact hlength

/-- What is read behind a sound numeral is solid too. -/
theorem complete_solid (kind : Kind) (h : SolidTo cs length) :
    SolidTo cs (complete cs length kind).length := by
  unfold complete
  split
  · exact h
  · rename_i c rest hdrop
    split
    · rename_i himaginary
      have hc : c = 'i' := by simp_all
      exact h.snoc hdrop (by rw [hc]; decide)
    · split
      · refine h.add ?_
        rw [hdrop]
        exact SolidTo.run (p := fun c => Source.isNameRest c || c == '.') (by decide) _
      · exact h

theorem read_solid (cs : List Char) : SolidTo cs (read cs).length := by
  unfold read
  extract_lets part
  have hpart : part.Solid cs := by
    unfold part
    split
    · exact hexadecimal_solid (by decide)
    · exact hexadecimal_solid (by decide)
    · exact decimal_solid cs
  clear_value part
  cases part with
  | ok found => exact complete_solid found.2 hpart
  | error numeral => exact hpart

end Numeral

theorem punctuation_solid {entry} (h : entry ∈ Kind.punctuation) :
    entry.1.toList ≠ [] ∧ ∀ c ∈ entry.1.toList, c ∉ hollow := by
  have htable : ∀ entry ∈ Kind.punctuation, entry.1.toList ≠ [] ∧
      entry.1.toList.all (fun c => c ∉ hollow) = true := by decide
  obtain ⟨hne, hall⟩ := htable entry h
  exact ⟨hne, fun c hc => of_decide_eq_true (all_eq_true.1 hall c hc)⟩

theorem ofPunctuation?_solid {kind} (h : Kind.ofPunctuation? cs = some (kind, length)) :
    SolidTo cs length := by
  obtain ⟨entry, hfind, hentry⟩ := Option.map_eq_some_iff.mp h
  obtain ⟨-, rfl⟩ := Prod.mk.inj hentry
  have hprefix : entry.1.toList <+: cs := by
    have hfound := find?_some hfind
    exact isPrefixOf_iff_prefix.mp hfound
  intro c hc
  rw [← String.length_toList, ← prefix_iff_eq_take.mp hprefix] at hc
  exact (punctuation_solid (mem_of_find?_eq_some hfind)).2 c hc

/-- A lexeme that is no literal holds no blank and no mark that opens a literal. -/
theorem lexemeAt_solid
    (hopener : Opener.ofChar? c = none) : SolidTo cs (lexemeAt file pos c cs).extra := by
  unfold lexemeAt
  split
  · exact SolidTo.run (p := Source.isNameRest) (by decide) cs
  · split
    · exact (Numeral.read_solid (c :: cs)).tail
    · rw [hopener]
      dsimp only
      unfold symbolLexeme
      split
      · rename_i kind length hfound
        exact (ofPunctuation?_solid hfound).tail
      · exact SolidTo.zero cs

/-- A literal is scanned up to where it closes. An empty character literal makes no token. -/
theorem lexemeAt_of_closes (hcloses : opener.Closes body) (rest : List Char) :
    lexemeAt file pos opener.char (body ++ rest) =
      if opener = .singleQuote ∧ body.length = 1 then
        { extra := 1, kind := none
          report := some (Fault.report .emptyCharacter ⟨file, pos, pos + 2⟩) }
      else
        { extra := body.length
          kind := some (if opener = .singleQuote then .char else .string) } := by
  have hstart : Source.isNameStart opener.char = false := by cases opener <;> rfl
  have hdigit : opener.char.isDigit = false := by cases opener <;> rfl
  have hpoint : (opener.char == '.') = false := by cases opener <;> rfl
  have hopener : Opener.ofChar? opener.char = some opener := Opener.ofChar?_eq_some_iff.2 rfl
  unfold lexemeAt literalLexeme
  simp only [hstart, hdigit, hpoint, hopener, hcloses file pos rest, Bool.false_eq_true, if_false,
    Bool.false_and, Bool.or_self]
  cases opener with
  | doubleQuote => rfl
  | backtick => rfl
  | singleQuote =>
    by_cases hone : body.length = 1 <;> simp [hone]

theorem lexemeAt_extra_of_closes (hopener : Opener.ofChar? c = some opener)
    (hcloses : opener.Closes body)
    (rest : List Char) : (lexemeAt file pos c (body ++ rest)).extra = body.length := by
  rw [Opener.ofChar?_eq_some_iff.1 hopener, lexemeAt_of_closes hcloses]
  split
  · rename_i hempty
    exact hempty.2.symm
  · rfl

theorem literalLexeme_kind (h : (literalLexeme file pos opener cs).report = none) :
    ∃ kind, (literalLexeme file pos opener cs).kind = some kind := by
  unfold literalLexeme at h ⊢
  split at h
  · contradiction
  · split at h
    · exact ⟨_, rfl⟩
    · exact ⟨_, rfl⟩
    · split at h
      · contradiction
      · rename_i hextra
        exact ⟨.char, by simp [hextra]⟩

/-- What makes no token is reported. -/
theorem lexemeAt_kind (h : (lexemeAt file pos c cs).report = none) :
    ∃ kind, (lexemeAt file pos c cs).kind = some kind := by
  unfold lexemeAt at h ⊢
  by_cases hword : Source.isNameStart c = true
  · exact ⟨_, by rw [if_pos hword]; rfl⟩
  · rw [if_neg hword] at h ⊢
    by_cases hnumeral : (c.isDigit || (c == '.' && cs.head?.any Char.isDigit)) = true
    · exact ⟨_, by rw [if_pos hnumeral]; rfl⟩
    · rw [if_neg hnumeral] at h ⊢
      cases hopener : Opener.ofChar? c with
      | some opener =>
        simp only [hopener] at h ⊢
        exact literalLexeme_kind h
      | none =>
        simp only [hopener] at h ⊢
        unfold symbolLexeme at h ⊢
        cases hfound : Kind.ofPunctuation? (c :: cs) with
        | none => simp [hfound] at h
        | some found => exact ⟨found.1, rfl⟩

/-! ## One step of the scanner -/

/-- The token of the characters `text` at byte `pos`, if they make one. -/
def tokenOf (file pos : Nat) (newline : Bool) (text : List Char) (kind : Option Kind) :
    Option Token :=
  kind.map fun kind =>
    { kind, text := String.ofList text, span := ⟨file, pos, pos + byteLength text⟩
      afterNewline := newline }

/-- A lexeme is put in front of what is scanned behind it. -/
theorem scanFrom_lexeme {lexeme} (hblank : Source.isBlank c = false)
    (hat : lexemeAt file pos c (body ++ rest) = lexeme)
    (htake : (body ++ rest).take lexeme.extra = body)
    (hdrop : (body ++ rest).drop lexeme.extra = rest) :
    scanFrom file 0 pos newline (c :: (body ++ rest)) =
      (scanFrom file 0 (pos + byteLength (c :: body)) (newline && lexeme.kind.isNone)
        rest).prepend (tokenOf file pos newline (c :: body) lexeme.kind) lexeme.report := by
  rw [scanFrom]
  simp only [hblank, Bool.false_eq_true, if_false, hat, htake, Option.isNone_map]
  rw [scanFrom_skip, htake, hdrop, Nat.add_assoc, ← byteLength_cons]
  rfl

/-- Blanks are passed over. -/
theorem scanFrom_blanks {blanks} (h : ∀ c ∈ blanks, Source.isBlank c = true) (rest : List Char) :
    scanFrom file 0 pos newline (blanks ++ rest) =
      scanFrom file 0 (pos + byteLength blanks) (newline || decide ('\n' ∈ blanks)) rest := by
  induction blanks generalizing pos newline with
  | nil => simp
  | cons c cs ih =>
    obtain ⟨hc, hcs⟩ := forall_mem_cons.mp h
    rw [cons_append, scanFrom, if_pos hc, ih hcs, byteLength_cons, Nat.add_assoc]
    congr 1
    by_cases hline : c = '\n'
    · simp [hline]
    · simp [beq_eq_false_iff_ne.mpr hline, Ne.symm hline]

/-- A text is scanned if it is cut and what is left of the cut scans without a report. -/
theorem ofSource_eq_ok_iff {options source tokens} : ofSource options file source = .ok tokens ↔
      ∃ parts, segments options file source.toList = .ok parts ∧
        scan file (parts.flatMap Segment.blanked) = { tokens } := by
  unfold ofSource blankComments
  cases segments options file source.toList with
  | error report => simp [Except.map]
  | ok parts =>
    cases hscan : scan file (parts.flatMap Segment.blanked) with
    | mk found reports => cases reports <;> simp [Except.map, hscan]

/-! ## The tiling -/

/-- From byte `pos` on, the segments are tiled by gaps and tokens. `newline` tells whether a line
break was passed since the last token. -/
inductive Tiles (file : Nat) :
    (pos : Nat) → (newline : Bool) → List Segment → List Token → Prop where
  | nil {pos : Nat} {newline : Bool} : Tiles file pos newline [] []
  /-- A segment that is blank once comments are. -/
  | gap {pos : Nat} {newline : Bool} {part : Segment} {parts : List Segment}
      {tokens : List Token} (blank : ∀ c ∈ part.blanked, Source.isBlank c = true)
      (rest : Tiles file (pos + byteLength part.text) (newline || decide ('\n' ∈ part.text))
        parts tokens) :
      Tiles file pos newline (part :: parts) tokens
  /-- A run of segments, none of them a comment. -/
  | token {pos : Nat} {newline : Bool} {pieces parts : List Segment} {kind : Kind}
      {tokens : List Token} (notComment : ∀ piece ∈ pieces, piece.role ≠ .comment)
      (nonempty : pieces.flatMap Segment.text ≠ [])
      (rest : Tiles file (pos + byteLength (pieces.flatMap Segment.text)) false parts tokens) :
      Tiles file pos newline (pieces ++ parts)
        ({ kind, text := String.ofList (pieces.flatMap Segment.text)
           span := ⟨file, pos, pos + byteLength (pieces.flatMap Segment.text)⟩
           afterNewline := newline } :: tokens)

theorem Segment.blanked_ne_nil {segment : Segment} (h : segment.text ≠ []) :
    segment.blanked ≠ [] := by
  intro hnil
  have hlength := segment.byteLength_blanked
  rw [hnil, byteLength_nil] at hlength
  cases htext : segment.text with
  | nil => exact h htext
  | cons c cs =>
    rw [htext, byteLength_cons] at hlength
    have hc := c.utf8Size_pos
    omega

/-- Solid characters of the blanked text stand in code segments, one in each. -/
theorem code_of_solidTo (hsound : ∀ part ∈ parts, part.Sound)
    (h : SolidTo (parts.flatMap Segment.blanked) n) :
    ∃ pieces rest, parts = pieces ++ rest ∧ (∀ piece ∈ pieces, piece.role = .code) ∧
      pieces.flatMap Segment.text = (parts.flatMap Segment.blanked).take n ∧
      rest.flatMap Segment.blanked = (parts.flatMap Segment.blanked).drop n := by
  induction parts generalizing n with
  | nil => exact ⟨[], [], rfl, by simp, by simp, by simp⟩
  | cons part parts ih =>
    obtain ⟨hpart, hparts⟩ := forall_mem_cons.mp hsound
    cases n with
    | zero => exact ⟨[], part :: parts, rfl, by simp, by simp, by simp⟩
    | succ n =>
      have hhead : ∀ c cs, part.blanked = c :: cs → c ∉ hollow := by
        intro c cs hblanked
        refine h c ?_
        rw [flatMap_cons, hblanked]
        simp
      obtain ⟨role, text⟩ := part
      cases role with
      | code =>
        obtain ⟨c, rfl, -⟩ := hpart
        have hrest : SolidTo (parts.flatMap Segment.blanked) n := h.tail
        obtain ⟨pieces, rest, rfl, hcode, htext, hblanked⟩ := ih hparts hrest
        refine ⟨⟨.code, [c]⟩ :: pieces, rest, rfl, ?_, ?_, ?_⟩
        · exact forall_mem_cons.mpr ⟨rfl, hcode⟩
        · rw [flatMap_cons, htext]
          rfl
        · rw [hblanked]
          rfl
      | comment =>
        -- A comment is blank from its first character on.
        obtain ⟨c, cs, hblanked⟩ := exists_cons_of_ne_nil (Segment.blanked_ne_nil hpart)
        have hc : c ∈ Segment.blanked ⟨.comment, text⟩ := by simp [hblanked]
        exact absurd (mem_hollow_of_isBlank (Segment.isBlank_of_mem_blanked rfl hc))
          (hhead c cs hblanked)
      | literal =>
        obtain ⟨c, body, opener, rfl, hopener, -⟩ := hpart
        exact absurd (mem_hollow_of_opener hopener) (hhead c body rfl)

/-- The segments that a lexeme with these characters takes: code, or one literal, which closes. -/
def Taken (c : Char) (body : List Char) (pieces : List Segment) : Prop :=
  (Opener.ofChar? c = none ∧ ∀ piece ∈ pieces, piece.role = .code) ∨
    ∃ opener, Opener.ofChar? c = some opener ∧ opener.Closes body ∧
      pieces = [⟨.literal, c :: body⟩]

theorem Taken.not_comment {pieces} (h : Taken c body pieces) :
    ∀ piece ∈ pieces, piece.role ≠ .comment := by
  rcases h with ⟨-, hcode⟩ | ⟨opener, -, -, rfl⟩
  · intro piece hmem
    simp [hcode piece hmem]
  · simp

/-- How the segments of a text are scanned once comments are blanked: one by one where they are
blank, and else lexeme by lexeme. -/
inductive Scans (file : Nat) : (pos : Nat) → (newline : Bool) → List Segment → Scanned → Prop where
  | nil {pos : Nat} {newline : Bool} : Scans file pos newline [] {}
  /-- A segment that is blank once comments are. -/
  | gap {pos : Nat} {newline : Bool} {part : Segment} {parts : List Segment} {scanned : Scanned}
      (blank : ∀ c ∈ part.blanked, Source.isBlank c = true)
      (rest : Scans file (pos + byteLength part.text) (newline || decide ('\n' ∈ part.text))
        parts scanned) :
      Scans file pos newline (part :: parts) scanned
  /-- The whole of some segments. -/
  | lexeme {pos : Nat} {newline : Bool} {c : Char} {body : List Char} {pieces parts : List Segment}
      {lexeme : Lexeme} {scanned : Scanned} (solid : Source.isBlank c = false)
      (taken : Taken c body pieces)
      (text : pieces.flatMap Segment.text = c :: body)
      (found : lexemeAt file pos c (body ++ parts.flatMap Segment.blanked) = lexeme)
      (extent : (body ++ parts.flatMap Segment.blanked).take lexeme.extra = body)
      (rest : Scans file (pos + byteLength (c :: body)) (newline && lexeme.kind.isNone) parts
        scanned) :
      Scans file pos newline (pieces ++ parts)
        (scanned.prepend (tokenOf file pos newline (c :: body) lexeme.kind) lexeme.report)

/-- Where a segment is not blank a lexeme begins, and it takes whole segments. -/
theorem exists_pieces (file pos : Nat) {part} (hpart : part.Sound) (hparts : ∀ x ∈ parts, x.Sound)
    (hblank : ¬ ∀ c ∈ part.blanked, Source.isBlank c = true) :
    ∃ c body pieces rest, part :: parts = pieces ++ rest ∧ Source.isBlank c = false ∧
      Taken c body pieces ∧ pieces.flatMap Segment.text = c :: body ∧
      ∃ lexeme, lexemeAt file pos c (body ++ rest.flatMap Segment.blanked) = lexeme ∧
        (body ++ rest.flatMap Segment.blanked).take lexeme.extra = body ∧
        (body ++ rest.flatMap Segment.blanked).drop lexeme.extra =
          rest.flatMap Segment.blanked := by
  obtain ⟨role, text⟩ := part
  cases role with
  | comment => exact absurd (fun c hc => Segment.isBlank_of_mem_blanked rfl hc) hblank
  | code =>
    obtain ⟨c, rfl, hopener⟩ := hpart
    have hc : Source.isBlank c = false := by simpa [Segment.blanked] using hblank
    have hsolid : SolidTo (parts.flatMap Segment.blanked) (lexemeAt file pos c _).extra :=
      lexemeAt_solid hopener
    obtain ⟨pieces, rest, rfl, hcode, htext, hrest⟩ := code_of_solidTo hparts hsolid
    refine ⟨c, pieces.flatMap Segment.text, ⟨.code, [c]⟩ :: pieces, rest, rfl, hc,
      .inl ⟨hopener, forall_mem_cons.mpr ⟨rfl, hcode⟩⟩, rfl, _, rfl, ?_⟩
    have hcs := congrArg₂ (· ++ ·) htext hrest
    simp only [take_append_drop] at hcs
    rw [hcs]
    exact ⟨htext.symm, hrest.symm⟩
  | literal =>
    obtain ⟨c, body, opener, rfl, hopener, hcloses⟩ := hpart
    have hc : Source.isBlank c = false := by
      rw [Opener.ofChar?_eq_some_iff.1 hopener]
      cases opener <;> rfl
    refine ⟨c, body, [⟨.literal, c :: body⟩], parts, rfl, hc, .inr ⟨opener, hopener, hcloses, rfl⟩,
      by simp, _, rfl, ?_⟩
    rw [lexemeAt_extra_of_closes hopener hcloses]
    exact ⟨take_left, drop_left⟩

/-- The segments of a text are scanned in this way. -/
theorem scanFrom_scans (hsound : ∀ part ∈ parts, part.Sound) (pos : Nat) (newline : Bool) :
    Scans file pos newline parts (scanFrom file 0 pos newline (parts.flatMap Segment.blanked)) := by
  -- By the number of segments: a lexeme may take several of them at once.
  induction hn : parts.length using Nat.strongRecOn generalizing parts pos newline with
  | ind n ih =>
    subst hn
    cases parts with
    | nil => exact .nil
    | cons part parts =>
      obtain ⟨hpart, hparts⟩ := forall_mem_cons.mp hsound
      by_cases hblank : ∀ c ∈ part.blanked, Source.isBlank c = true
      · rw [flatMap_cons, scanFrom_blanks hblank, part.byteLength_blanked]
        simp only [part.newline_mem_blanked]
        exact .gap hblank (ih parts.length (by simp) hparts _ _ rfl)
      · obtain ⟨c, body, pieces, rest, hsplit, hc, htaken, htext, lexeme, hat, htake, hdrop⟩ :=
          exists_pieces file pos hpart hparts hblank
        have hlength : rest.length < (part :: parts).length := by
          have hne : pieces ≠ [] := by
            rintro rfl
            contradiction
          rw [hsplit, length_append]
          have hpos := length_pos_iff.2 hne
          omega
        rw [hsplit] at hsound ⊢
        rw [flatMap_append, Segment.flatMap_blanked htaken.not_comment, htext,
          cons_append, scanFrom_lexeme hc hat htake hdrop]
        exact .lexeme hc htaken htext hat htake (ih rest.length hlength
          (fun x hx => hsound x (mem_append_right _ hx)) _ _ rfl)

/-- A text that scans without a report is tiled by its tokens. -/
theorem Scans.tiles {scanned} (h : Scans file pos newline parts scanned)
    (hreports : scanned.reports = []) : Tiles file pos newline parts scanned.tokens := by
  induction h with
  | nil => exact .nil
  | gap blank _ ih => exact .gap blank (ih hreports)
  | lexeme _ taken text found _ _ ih =>
    simp only [Scanned.prepend, append_eq_nil_iff, Option.toList_eq_nil_iff] at hreports
    obtain ⟨kind, hkind⟩ := lexemeAt_kind (found ▸ hreports.1)
    rw [found] at hkind
    simp only [hkind, Option.isNone_some, Bool.and_false] at ih
    simp only [Scanned.prepend, hkind, tokenOf, Option.map_some, Option.toList_some,
      singleton_append, ← text] at ih ⊢
    exact .token taken.not_comment (by simp [text]) (ih hreports.2)

end ScriptLowering.Token
