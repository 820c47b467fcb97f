import ScriptLowering.Proofs.Blanking
import ScriptLowering.Proofs.Numerals

/-!
# Tokens can be scanned again

The scanner finds where a lexeme ends by looking at what follows it. Where it found no fault, the
lexeme ends there before any blank as well (`Stands`): a word and a numeral take what can belong to
them, punctuation the longest that fits, and a literal ends with its own quote. So the texts of the
tokens, each behind one blank, are scanned as the same tokens (`ofSource_respelled`). A text is
scanned as one number token just when it is a numeral (`scansAs_iff_isNumeral`).
-/

namespace ScriptLowering.Token

open List

variable {body rest : List Char} {c : Char} {kind : Kind} {file pos : Nat} {parts : List Segment}
  {P : Segment → Prop}

/-! ## What a lexeme depends on -/

/-- What follows is blank, or nothing. -/
def Apart (rest : List Char) : Prop := ∀ c ∈ rest.head?, Source.isBlank c = true

theorem Apart.head_false (h : Apart rest) {p} (hp : hollow.any p = false) :
    ∀ c ∈ rest.head?, p c = false := by
  intro c hc
  exact Bool.eq_false_iff.2 (any_eq_false.1 hp c (mem_hollow_of_isBlank (h c hc)))

/-- Wherever something blank follows, `c :: body` is one lexeme without a fault. -/
def Stands (kind : Kind) (c : Char) (body : List Char) : Prop :=
  ∀ file pos rest, Apart rest →
    lexemeAt file pos c (body ++ rest) = { extra := body.length, kind := some kind }

theorem stands_word (hname : Source.isNameStart c = true)
    (hkind : (wordLexeme c (body ++ rest)).kind = some kind)
    (htake : (body ++ rest).take (wordLexeme c (body ++ rest)).extra = body) :
    Stands kind c body := by
  intro file pos other hother
  simp only [wordLexeme] at hkind htake
  have hbody : ∀ d ∈ body, Source.isNameRest d = true := by
    intro d hd
    rw [← htake] at hd
    exact Numeral.of_mem_take_run hd
  have hrun := Numeral.run_append hbody (hother.head_false (p := Source.isNameRest) (by decide))
  rw [htake] at hkind
  rw [lexemeAt, if_pos hname, wordLexeme, hrun, take_left, hkind]

/-- Where a numeral begins. -/
abbrev Numeral.Guard (c : Char) (cs : List Char) : Prop :=
  (c.isDigit || (c == '.' && cs.head?.any Char.isDigit)) = true

theorem Numeral.Mantissa.guard {m} (h : Mantissa Char.isDigit kind m) :
    ∃ c body, m = c :: body ∧ ∀ rest, Guard c (body ++ rest) := by
  cases h with
  | whole digits =>
    obtain ⟨c, body, rfl⟩ := exists_cons_of_ne_nil digits.1
    exact ⟨c, body, rfl, fun rest => by simp [Guard, digits.2 c]⟩
  | @point ds fraction digits =>
    cases ds with
    | nil =>
      obtain ⟨d, fraction, rfl⟩ := exists_cons_of_ne_nil digits.1
      exact ⟨'.', d :: fraction, rfl, fun rest => by simp [Guard, digits.2 d]⟩
    | cons c ds => exact ⟨c, _, rfl, fun rest => by simp [Guard, digits.2 c]⟩

/-- A numeral is told by its first two characters. -/
theorem Numeral.IsNumeral.guard {w} (h : IsNumeral kind w) :
    ∃ c body, w = c :: body ∧ ∀ rest, Guard c (body ++ rest) := by
  cases h with
  | decimal mantissa => exact mantissa.guard
  | @decimalPower _ _ e mantissa =>
    obtain ⟨c, body, rfl, hguard⟩ := mantissa.guard
    exact ⟨c, body ++ e, rfl, fun rest => by simpa using hguard (e ++ rest)⟩
  | hexadecimal => exact ⟨'0', _, rfl, fun rest => by simp [Guard]⟩
  | hexPower => exact ⟨'0', _, rfl, fun rest => by simp [Guard]⟩

theorem Apart.ends (h : Apart rest) : Numeral.Ends rest := by
  intro c hc
  refine ⟨h.head_false (p := Source.isNameRest) (by decide) c hc, ?_⟩
  simpa using h.head_false (p := (· == '.')) (by decide) c hc

/-- What is read without a fault where a numeral begins is one. -/
theorem isNumeral_of_lexeme (hguard : Numeral.Guard c (body ++ rest))
    (hkind : (numeralLexeme file pos c (body ++ rest)).kind = some kind)
    (hreport : (numeralLexeme file pos c (body ++ rest)).report = none)
    (htake : (body ++ rest).take (numeralLexeme file pos c (body ++ rest)).extra = body) :
    Numeral.IsNumeral kind (c :: body) := by
  simp only [numeralLexeme, Option.some.injEq, Option.map_eq_none_iff] at hkind hreport htake
  rcases Numeral.read_isNumeral (Numeral.starts_cons hguard) with ⟨-, fault, hfault, -⟩ | ⟨-, h⟩
  · rw [hreport] at hfault
    contradiction
  · rw [hkind] at h
    cases hlength : (Numeral.read (c :: (body ++ rest))).length with
    | zero =>
      rw [hlength] at h
      obtain ⟨d, ds, hnil, -⟩ := h.guard
      contradiction
    | succ n =>
      rw [hlength, Nat.add_sub_cancel] at htake
      rwa [hlength, take_succ_cons, htake] at h

theorem Numeral.Guard.plain {cs} (h : Guard c cs) :
    Source.isNameStart c = false ∧ Source.isBlank c = false := by
  rcases Bool.or_eq_true_iff.1 h with hdigit | hpoint
  · have hother : ∀ d ∈ ['_', ' ', '\t', '\n', '\x0c', '\r'], c ≠ d := by
      rintro d hd rfl
      simp only [mem_cons, not_mem_nil, or_false] at hd
      rcases hd with rfl | rfl | rfl | rfl | rfl | rfl <;> contradiction
    have halpha : c.isAlpha = false := by
      delta Char.isAlpha Char.isUpper Char.isLower
      delta Char.isDigit at hdigit
      grind
    simp [Source.isNameStart, Source.isBlank, halpha, hother]
  · obtain rfl := eq_of_beq (Bool.and_eq_true_iff.1 hpoint).1
    decide

theorem Numeral.IsNumeral.lexemeAt_append (h : IsNumeral kind (c :: body)) (hrest : Ends rest) :
    lexemeAt file pos c (body ++ rest) = { extra := body.length, kind := some kind } := by
  obtain ⟨d, ds, hd, hguard⟩ := h.guard
  obtain ⟨rfl, rfl⟩ := cons.inj hd
  have hname : ¬ Source.isNameStart c = true := by simp [(hguard rest).plain.1]
  have hread := h.read_append hrest
  rw [cons_append] at hread
  rw [lexemeAt, if_neg hname, if_pos (hguard rest), numeralLexeme, hread]
  rfl

theorem Numeral.IsNumeral.stands (h : IsNumeral kind (c :: body)) : Stands kind c body :=
  fun _ _ _ hother => h.lexemeAt_append hother.ends

/-- Punctuation holds no blank, so before one no other fits. -/
theorem prefix_of_prefix_apart {entry cs other} (hsolid : ∀ d ∈ entry, d ∉ hollow)
    (hother : Apart other) (h : entry <+: cs ++ other) : entry <+: cs := by
  rcases prefix_or_prefix_of_prefix h (prefix_append cs other) with hle | ⟨tail, rfl⟩
  · exact hle
  · cases tail with
    | nil => simp
    | cons d tail =>
      obtain ⟨ds, hds⟩ := (prefix_append_right_inj cs).1 h
      have hblank := hother d (by rw [← hds]; rfl)
      exact absurd (mem_hollow_of_isBlank hblank) (hsolid d (by simp))

theorem ofPunctuation?_apart {other length}
    (h : Kind.ofPunctuation? (c :: (body ++ rest)) = some (kind, length))
    (htake : (body ++ rest).take (length - 1) = body) (hother : Apart other) :
    Kind.ofPunctuation? (c :: (body ++ other)) = some (kind, body.length + 1) := by
  obtain ⟨entry, hfind, hentry⟩ := Option.map_eq_some_iff.1 h
  obtain ⟨hfits, before, after, htable, hbefore⟩ := find?_eq_some_iff_append.1 hfind
  obtain ⟨rfl, rfl⟩ := Prod.mk.inj hentry
  have htext : entry.1.toList = c :: body := by
    obtain ⟨d, ds, hcons⟩ :=
      exists_cons_of_ne_nil (punctuation_solid (mem_of_find?_eq_some hfind)).1
    rw [ isPrefixOf_iff_prefix, hcons, cons_prefix_cons] at hfits
    rw [← String.length_toList, hcons, length_cons, Nat.add_sub_cancel,
      ← prefix_iff_eq_take.1 hfits.2] at htake
    rw [hcons, hfits.1, htake]
  refine Option.map_eq_some_iff.2 ⟨entry, ?_, by rw [← String.length_toList, htext]; rfl⟩
  refine find?_eq_some_iff_append.2 ⟨by simp [htext], before, after, htable, fun a ha => ?_⟩
  have hmem : a ∈ Kind.punctuation := htable ▸ mem_append_left _ ha
  simp only [Bool.not_eq_true', ← Bool.not_eq_true, isPrefixOf_iff_prefix] at hbefore ⊢
  intro hprefix
  exact hbefore a ha ((prefix_of_prefix_apart (punctuation_solid hmem).2 hother hprefix).trans
    (prefix_append (c :: body) rest))

theorem stands_symbol (hname : ¬ Source.isNameStart c = true)
    (hguard : ¬ Numeral.Guard c (body ++ rest)) (hopener : Opener.ofChar? c = none)
    (hkind : (symbolLexeme file pos c (body ++ rest)).kind = some kind)
    (htake : (body ++ rest).take (symbolLexeme file pos c (body ++ rest)).extra = body) :
    Stands kind c body := by
  intro file' pos' other hother
  have hguard' : ¬ Numeral.Guard c (body ++ other) := by
    cases body with
    | nil =>
      have hdigit := hother.head_false (p := Char.isDigit) (by decide)
      cases other <;> simp_all [Numeral.Guard]
    | cons d body => exact hguard
  rw [lexemeAt, if_neg hname, if_neg hguard', hopener]
  unfold symbolLexeme at hkind htake ⊢
  cases hfound : Kind.ofPunctuation? (c :: (body ++ rest)) with
  | none => simp [hfound] at hkind
  | some found =>
    simp only [hfound, Option.some.injEq] at hkind htake
    simp [ofPunctuation?_apart hfound htake hother, hkind]

/-- A lexeme without a fault is the same wherever something blank follows. -/
theorem stands_of_lexemeAt (hopener : Opener.ofChar? c = none)
    (hkind : (lexemeAt file pos c (body ++ rest)).kind = some kind)
    (hreport : (lexemeAt file pos c (body ++ rest)).report = none)
    (htake : (body ++ rest).take (lexemeAt file pos c (body ++ rest)).extra = body) :
    Stands kind c body := by
  unfold lexemeAt at hkind hreport htake
  by_cases hname : Source.isNameStart c = true
  · rw [if_pos hname] at hkind htake
    exact stands_word hname hkind htake
  · by_cases hguard : Numeral.Guard c (body ++ rest)
    · rw [if_neg hname, if_pos hguard] at hkind hreport htake
      exact (isNumeral_of_lexeme hguard hkind hreport htake).stands
    · rw [if_neg hname, if_neg hguard, hopener] at hkind htake
      exact stands_symbol hname hguard hopener hkind htake

theorem stands_of_closes {opener : Opener} (hcloses : opener.Closes body)
    (hkind : (lexemeAt file pos opener.char (body ++ rest)).kind = some kind) :
    Stands kind opener.char body := by
  intro file' pos' other _
  rw [lexemeAt_of_closes hcloses] at hkind ⊢
  split at hkind
  · contradiction
  · rename_i hempty
    rw [if_neg hempty]
    exact congrArg (Lexeme.mk body.length · none) hkind

/-! ## Texts that are one numeral -/

/-- The scanner gives one token for the whole text, of this kind, and no report. -/
def ScansAs (file : Nat) (kind : Kind) (text : List Char) : Prop :=
  ∃ token, scan file text = { tokens := [token] } ∧ token.kind = kind ∧
    token.span = ⟨file, 0, byteLength text⟩

theorem Numeral.IsNumeral.scansAs {text} (h : IsNumeral kind text) (file : Nat) :
    ScansAs file kind text := by
  obtain ⟨c, body, rfl, hguard⟩ := h.guard
  have hscan := @scanFrom_lexeme c body [] file 0 false _ (hguard []).plain.2
    (h.stands file 0 [] nofun) (by simp) (by simp)
  rw [append_nil] at hscan
  exact ⟨_, hscan, rfl, by simp⟩

/-- A token of the kind of a numeral is read as one. -/
theorem numeral_of_kind {cs} (hnumeral : kind ∈ [.int, .float])
    (h : (lexemeAt file pos c cs).kind = some kind) :
    Numeral.Guard c cs ∧ lexemeAt file pos c cs = numeralLexeme file pos c cs := by
  have hwords : ∀ entry ∈ Kind.keywords, entry.2 ∉ [.int, .float] := by decide
  have hsymbols : ∀ entry ∈ Kind.punctuation, entry.2 ∉ [.int, .float] := by decide
  unfold lexemeAt at h ⊢
  split
  · rename_i hname
    rw [if_pos hname] at h
    have hkind := Option.some.inj h
    cases hword : Kind.ofKeyword? (String.ofList (c :: cs.take (Numeral.run Source.isNameRest cs)))
    with
    | none =>
      rw [hword] at hkind
      subst hkind
      simp at hnumeral
    | some keyword =>
      obtain ⟨entry, hfind, rfl⟩ := Option.map_eq_some_iff.1 hword
      rw [hword] at hkind
      obtain rfl : entry.2 = kind := hkind
      exact absurd hnumeral (hwords entry (mem_of_find?_eq_some hfind))
  · rename_i hname
    rw [if_neg hname] at h
    split
    · exact ⟨‹_›, rfl⟩
    · rename_i hguard
      rw [if_neg hguard] at h
      exfalso
      split at h
      · unfold literalLexeme at h
        split at h
        · contradiction
        · split at h
          · cases h
            simp at hnumeral
          · cases h
            simp at hnumeral
          · split at h
            · contradiction
            · cases h
              simp at hnumeral
      · unfold symbolLexeme at h
        split at h
        · rename_i hfound
          obtain ⟨entry, hfind, hentry⟩ := Option.map_eq_some_iff.1 hfound
          obtain ⟨rfl, -⟩ := Prod.mk.inj hentry
          cases h
          exact hsymbols entry (mem_of_find?_eq_some hfind) hnumeral
        · contradiction

theorem isNumeral_of_scansAs {text} (hnumeral : kind ∈ [.int, .float])
    (h : ScansAs file kind text) : Numeral.IsNumeral kind text := by
  obtain ⟨token, hscan, rfl, hspan⟩ := h
  cases text with
  | nil => exact nomatch hscan
  | cons c cs =>
    have hblank : Source.isBlank c = false := by
      -- Behind a blank the token would not start at the first byte.
      by_contra hblank
      have hscan' : scan file (c :: cs) = scanFrom file 0 c.utf8Size (c == '\n') cs := by
        rw [scan, scanFrom, if_pos (by simpa using hblank)]
        simp
      have horder := scanFrom_inOrder file cs 0 c.utf8Size (c == '\n')
      rw [← hscan', hscan] at horder
      have hstart := horder.2.1
      have hsize := c.utf8Size_pos
      rw [hspan] at hstart
      simp only [take_zero, byteLength_nil] at hstart
      omega
    have hsplit := take_append_drop (lexemeAt file 0 c cs).extra cs
    have hlexeme := @scanFrom_lexeme c (cs.take (lexemeAt file 0 c cs).extra)
      (cs.drop (lexemeAt file 0 c cs).extra) file 0 false _ hblank (by rw [hsplit]) (by rw [hsplit])
      (by rw [hsplit])
    rw [hsplit] at hlexeme
    obtain ⟨htokens, hreports⟩ := Scanned.mk.inj (hlexeme.symm.trans hscan)
    have hreport : (lexemeAt file 0 c cs).report = none := by
      simpa using (append_eq_nil_iff.1 hreports).1
    obtain ⟨kind, hkind⟩ := lexemeAt_kind hreport
    rw [hkind] at htokens
    obtain ⟨rfl, -⟩ := cons.inj htokens
    have htake : cs.take (lexemeAt file 0 c cs).extra = cs := by
      have hlength := byteLength_take_add_drop (lexemeAt file 0 c cs).extra cs
      have hstop := congrArg Span.stop hspan
      simp only [byteLength_cons] at hstop
      cases hdrop : cs.drop (lexemeAt file 0 c cs).extra with
      | nil => rwa [hdrop, append_nil] at hsplit
      | cons d ds =>
        have hsize := d.utf8Size_pos
        rw [hdrop, byteLength_cons] at hlength
        omega
    obtain ⟨hguard, hat⟩ := numeral_of_kind hnumeral hkind
    rw [hat] at hkind hreport htake
    rw [← append_nil cs] at hguard hkind hreport htake
    exact isNumeral_of_lexeme hguard hkind hreport (by simpa using htake)

/-- A text is scanned as one integer or as one floating-point number exactly if it is a numeral of
that kind. -/
theorem scansAs_iff_isNumeral (file : Nat) (text : List Char) :
    (ScansAs file .int text ↔ Numeral.IsNumeral .int text) ∧
      (ScansAs file .float text ↔ Numeral.IsNumeral .float text) :=
  ⟨⟨isNumeral_of_scansAs (by simp), (·.scansAs file)⟩, isNumeral_of_scansAs (by simp),
    (·.scansAs file)⟩

/-! ## The text of tokens -/

/-- The texts of tokens one behind another, each behind one blank, a line break if one stood before
the token. -/
def respelled (tokens : List Token) : List Char :=
  tokens.flatMap fun token => (if token.afterNewline then '\n' else ' ') :: token.text.toList

/-- What a token is apart from its place. -/
def spelling (token : Token) : Kind × String × Bool := (token.kind, token.text, token.afterNewline)

/-- Wherever something blank follows, the text of the token is cut into segments with `P`, none of
them a comment, and scanned as one lexeme. -/
structure Standing (P : Segment → Prop) (token : Token) : Prop where
  lexeme : ∃ c body, token.text.toList = c :: body ∧ Source.isBlank c = false ∧
    Stands token.kind c body
  cut : ∃ pieces, pieces.flatMap Segment.text = token.text.toList ∧
    (∀ piece ∈ pieces, P piece ∧ piece.role ≠ .comment) ∧
    ∀ parts, WellCut parts → Apart (parts.flatMap Segment.text) → WellCut (pieces ++ parts)

theorem WellCut.of_append {pieces} (h : WellCut (pieces ++ parts)) : WellCut parts := by
  induction pieces with
  | nil => exact h
  | cons piece pieces ih => exact ih h.2

/-- What is cut into code is cut so before a blank: no comment opens across it. -/
theorem WellCut.code_apart {pieces others} (hcode : ∀ piece ∈ pieces, piece.role = .code)
    (h : WellCut (pieces ++ parts)) (hothers : WellCut others)
    (hapart : Apart (others.flatMap Segment.text)) : WellCut (pieces ++ others) := by
  induction pieces with
  | nil => exact hothers
  | cons piece pieces ih =>
    obtain ⟨hpiece, hpieces⟩ := forall_mem_cons.1 hcode
    obtain ⟨hheads, hrest⟩ := h
    refine ⟨?_, ih hpieces hrest⟩
    obtain ⟨role, text⟩ := piece
    obtain rfl : role = .code := hpiece
    obtain ⟨c, htext, hopener, hcomment⟩ := hheads
    refine ⟨c, htext, hopener, ?_⟩
    rw [opensComment_iff] at hcomment ⊢
    cases pieces with
    | nil =>
      rintro ⟨-, hhead | hhead⟩
      · exact absurd (hapart _ hhead) (by decide)
      · exact absurd (hapart _ hhead) (by decide)
    | cons next pieces =>
      obtain ⟨role, text⟩ := next
      obtain rfl : role = .code := hpieces _ mem_cons_self
      obtain ⟨d, htext, -⟩ := hrest.1
      obtain rfl : text = [d] := htext
      exact hcomment

/-- The tokens of a text that scans without a report stand apart. -/
theorem Scans.standing {newline : Bool} {scanned} (h : Scans file pos newline parts scanned)
    (hcut : WellCut parts) (hparts : ∀ part ∈ parts, P part) (hreports : scanned.reports = []) :
    ∀ token ∈ scanned.tokens, Standing P token := by
  induction h with
  | nil => simp
  | gap _ _ ih => exact ih hcut.2 (forall_mem_cons.1 hparts).2 hreports
  | @lexeme _ _ c body pieces _ _ _ solid taken text found extent _ ih =>
    simp only [Scanned.prepend, append_eq_nil_iff, Option.toList_eq_nil_iff] at hreports
    obtain ⟨hreport, hreports⟩ := hreports
    obtain ⟨hpieces, hparts⟩ := forall_mem_append.1 hparts
    obtain ⟨kind, hkind⟩ := lexemeAt_kind (found ▸ hreport)
    rw [found] at hkind
    simp only [Scanned.prepend, tokenOf, hkind, Option.map_some, Option.toList_some,
      singleton_append]
    refine forall_mem_cons.2 ⟨⟨⟨c, body, by simp, solid, ?_⟩, pieces, by simp [text], ?_, ?_⟩,
      ih hcut.of_append hparts hreports⟩
    · subst found
      rcases taken with ⟨hopener, -⟩ | ⟨opener, hopener, hcloses, -⟩
      · exact stands_of_lexemeAt hopener hkind hreport extent
      · obtain rfl := Opener.ofChar?_eq_some_iff.1 hopener
        exact stands_of_closes hcloses hkind
    · exact fun piece hmem => ⟨hpieces piece hmem, taken.not_comment piece hmem⟩
    · intro others hothers hapart
      rcases taken with ⟨-, hcode⟩ | ⟨opener, -, -, rfl⟩
      · exact hcut.code_apart hcode hothers hapart
      · exact ⟨hcut.1, hothers⟩

theorem respelled_cons (token : Token) (tokens : List Token) :
    respelled (token :: tokens) = (if token.afterNewline then '\n' else ' ') ::
      (token.text.toList ++ respelled tokens) := rfl

theorem isBlank_separator (newline : Bool) :
    Source.isBlank (if newline then '\n' else ' ') = true := by
  cases newline <;> rfl

theorem apart_respelled (tokens : List Token) : Apart (respelled tokens) := by
  cases tokens with
  | nil => simp [Apart, respelled]
  | cons token tokens => simp [Apart, respelled_cons, isBlank_separator]

theorem exists_cut_respelled (hP : ∀ c, P ⟨.code, [c]⟩) {tokens}
    (h : ∀ token ∈ tokens, Standing P token) :
    ∃ parts, parts.flatMap Segment.text = respelled tokens ∧ WellCut parts ∧
      ∀ part ∈ parts, P part ∧ part.role ≠ .comment := by
  induction tokens with
  | nil => exact ⟨[], rfl, trivial, by simp⟩
  | cons token tokens ih =>
    obtain ⟨htoken, htokens⟩ := forall_mem_cons.1 h
    obtain ⟨parts, htext, hcut, hparts⟩ := ih htokens
    obtain ⟨pieces, hpieces, hroles, hbefore⟩ := htoken.cut
    have hcut' := hbefore parts hcut (htext ▸ apart_respelled tokens)
    refine ⟨⟨.code, [if token.afterNewline then '\n' else ' ']⟩ :: (pieces ++ parts), ?_,
      ⟨⟨_, rfl, not_opensComment_of_isBlank (isBlank_separator _) _⟩, hcut'⟩, ?_⟩
    · rw [flatMap_cons, flatMap_append, hpieces, htext]
      rfl
    · exact forall_mem_cons.2 ⟨⟨hP _, by simp⟩, forall_mem_append.2 ⟨hroles, hparts⟩⟩

theorem scanFrom_respelled {tokens} (h : ∀ token ∈ tokens, Standing P token) (file pos : Nat) :
    ∃ again, scanFrom file 0 pos false (respelled tokens) = { tokens := again } ∧
      again.map spelling = tokens.map spelling := by
  induction tokens generalizing pos with
  | nil => exact ⟨[], rfl, rfl⟩
  | cons token tokens ih =>
    obtain ⟨htoken, htokens⟩ := forall_mem_cons.1 h
    obtain ⟨c, body, htext, hblank, hstands⟩ := htoken.lexeme
    have hnewline : (false || decide ('\n' ∈ [if token.afterNewline then '\n' else ' '])) =
        token.afterNewline := by
      cases token.afterNewline <;> rfl
    have hlexeme (pos : Nat) := @scanFrom_lexeme c body (respelled tokens) file pos
      token.afterNewline _ hblank (hstands file pos _ (apart_respelled tokens)) take_left
      drop_left
    rw [respelled_cons, htext, ← singleton_append,
      scanFrom_blanks (by simp [isBlank_separator]), hnewline, cons_append, hlexeme,
      Option.isNone_some, Bool.and_false]
    obtain ⟨again, hagain, hspelling⟩ := ih htokens _
    rw [hagain]
    refine ⟨_, rfl, ?_⟩
    rw [map_append, hspelling]
    simp [tokenOf, spelling, ← htext]

/-- The texts of the tokens, each behind one blank, are scanned as the same tokens. -/
theorem ofSource_respelled {options : ScanOptions} {file : Nat} {source : String}
    {tokens : List Token} (h : ofSource options file source = .ok tokens) :
    ∃ again, ofSource options file (String.ofList (respelled tokens)) = .ok again ∧
      again.map spelling = tokens.map spelling := by
  obtain ⟨parts, hparts, hscan⟩ := ofSource_eq_ok_iff.1 h
  obtain ⟨-, hcut, hfree⟩ := segments_eq_ok_iff.1 hparts
  have hscans := @scanFrom_scans file parts (segments_sound hparts).2 0 false
  rw [← scan, hscan] at hscans
  have hstanding := hscans.standing (P := fun part => options.strictLiterals = true →
    part.role = .literal → hasCommentOpener part.text = false) hcut
    (fun part hmem hstrict => hfree hstrict part hmem) rfl
  obtain ⟨cut, htext, hwell, hroles⟩ := exists_cut_respelled (by simp) hstanding
  obtain ⟨again, hagain, hspelling⟩ := scanFrom_respelled hstanding file 0
  refine ⟨again, ofSource_eq_ok_iff.2 ⟨cut, ?_, ?_⟩, hspelling⟩
  · rw [String.toList_ofList]
    exact segments_eq_ok_iff.2 ⟨htext, hwell, fun hstrict part hmem => (hroles part hmem).1 hstrict⟩
  · rw [Segment.flatMap_blanked fun part hmem => (hroles part hmem).2, htext]
    exact hagain

/-- Lexemes that end only where the next begins. -/
def glued : String := "a--.5e1<-0x1p2\n'/'&^=`//`"

def gluedTokens : List Token := [
  { kind := .ident, text := "a", span := ⟨0, 0, 1⟩, afterNewline := false },
  { kind := .decrement, text := "--", span := ⟨0, 1, 3⟩, afterNewline := false },
  { kind := .float, text := ".5e1", span := ⟨0, 3, 7⟩, afterNewline := false },
  { kind := .arrow, text := "<-", span := ⟨0, 7, 9⟩, afterNewline := false },
  { kind := .float, text := "0x1p2", span := ⟨0, 9, 14⟩, afterNewline := false },
  { kind := .char, text := "'/'", span := ⟨0, 15, 18⟩, afterNewline := true },
  { kind := .ampCaretAssign, text := "&^=", span := ⟨0, 18, 21⟩, afterNewline := false },
  { kind := .string, text := "`//`", span := ⟨0, 21, 25⟩, afterNewline := false }]

theorem ofSource_respelled_glued :
    ofSource ⟨false⟩ 0 glued = .ok gluedTokens ∧
      ∃ again, ofSource ⟨false⟩ 0 (String.ofList (respelled gluedTokens)) = .ok again ∧
        again.map spelling = gluedTokens.map spelling := by
  have htokens : ofSource ⟨false⟩ 0 glued = .ok gluedTokens := by decide
  exact ⟨htokens, ofSource_respelled htokens⟩

end ScriptLowering.Token
