import ScriptLowering.Proofs.Tiling

/-!
# Tokens against the bytes of the source

The tiling of a text by tokens and gaps, read in the bytes of its UTF-8 encoding. Offsets are
counted in bytes, so this is what a span means: the token that carries it has the bytes of the
source between its ends, and the bytes that no span covers are blanks or belong to comments
(`ofSource_faithful`). Line breaks need the one fact about the encoding that is used here: a byte
of a longer character is never that of a line break (`newline_mem_utf8EncodeChar`).
-/

namespace ScriptLowering

open List

namespace Source

/-- The bytes of the blanks between tokens. -/
def blankBytes : List UInt8 := [0x20, 0x09, 0x0a, 0x0c, 0x0d]

/-- The encoding of some characters. -/
def encode (cs : List Char) : List UInt8 := cs.flatMap String.utf8EncodeChar

theorem bytes_ofList (cs : List Char) : bytes (String.ofList cs) = encode cs := by
  show (String.ofList cs).toByteArray.data.toList = _
  rw [String.toByteArray_ofList]
  unfold utf8Encode encode
  rw [data_toByteArray]

theorem bytes_eq (text : String) : bytes text = encode text.toList := by
  rw [← bytes_ofList, String.ofList_toList]

@[simp] theorem encode_append (xs ys : List Char) : encode (xs ++ ys) = encode xs ++ encode ys :=
  flatMap_append

@[simp] theorem length_encode (cs : List Char) : (encode cs).length = byteLength cs := by
  induction cs with
  | nil => rfl
  | cons c cs ih =>
    rw [byteLength_cons, ← ih, ← String.length_utf8EncodeChar c]
    exact length_append

/-- Outside ASCII. -/
def Wide (c : Char) : Prop := 0x80 ≤ c.toNat

theorem Wide.ne {c d : Char} (h : Wide c) (hd : d.utf8Size = 1) : c ≠ d := by
  rintro rfl
  rw [Char.utf8Size_eq_one_iff, UInt32.le_iff_toNat_le] at hd
  exact absurd h (Nat.not_le.2 (Nat.lt_of_le_of_lt hd (by decide)))

theorem ofNat_wide {n : Nat} (hlow : 0x80 ≤ n) (hhigh : n < 0x100) : 0x80 ≤ UInt8.ofNat n := by
  rw [UInt8.le_iff_toNat_le, UInt8.toNat_ofNat_of_lt' hhigh]
  exact hlow

/-- A character of ASCII is its own byte. Those of any other all have the high bit. -/
theorem utf8EncodeChar_cases (c : Char) :
    c.utf8Size = 1 ∧ String.utf8EncodeChar c = [c.toUInt8] ∧ Char.ofUInt8 c.toUInt8 = c ∨
      Wide c ∧ ∀ byte ∈ String.utf8EncodeChar c, 0x80 ≤ byte := by
  by_cases hc : c.utf8Size = 1
  · have hlt : c.toNat < 256 := by
      rw [Char.utf8Size_eq_one_iff, UInt32.le_iff_toNat_le] at hc
      exact Nat.lt_of_le_of_lt hc (by decide)
    refine .inl ⟨hc, String.utf8EncodeChar_eq_singleton hc, Char.ext (UInt32.toNat_inj.1 ?_)⟩
    show c.toNat % 256 = c.toNat
    exact Nat.mod_eq_of_lt hlt
  · rw [Char.utf8Size_eq_one_iff, UInt32.le_iff_toNat_le] at hc
    refine .inr ⟨Nat.lt_of_not_le hc, ?_⟩
    unfold String.utf8EncodeChar
    dsimp only
    rw [if_neg (show ¬ c.val.toNat ≤ 127 from hc)]
    split_ifs
    all_goals
      simp only [mem_cons, not_mem_nil, or_false, forall_eq_or_imp, forall_eq]
      and_intros
      all_goals exact ofNat_wide (by omega) (by omega)

/-- Only a line break has its byte. -/
theorem newline_mem_utf8EncodeChar {c} (h : 0x0a ∈ String.utf8EncodeChar c) : c = '\n' := by
  rcases utf8EncodeChar_cases c with ⟨-, hbytes, hc⟩ | ⟨-, hbytes⟩
  · rw [hbytes] at h
    rw [← hc, ← mem_singleton.1 h]
    rfl
  · exact absurd (hbytes _ h) (by decide)

theorem newline_mem_encode (cs : List Char) : 0x0a ∈ encode cs ↔ '\n' ∈ cs := by
  unfold encode
  rw [mem_flatMap]
  constructor
  · rintro ⟨c, hc, hin⟩
    rwa [← newline_mem_utf8EncodeChar hin]
  · intro h
    exact ⟨'\n', h, by decide⟩

theorem mem_blankBytes_of_isBlank {cs} (h : ∀ c ∈ cs, isBlank c = true) {b} (hb : b ∈ encode cs) :
    b ∈ blankBytes := by
  obtain ⟨c, hc, hin⟩ := mem_flatMap.mp hb
  have hbytes : (String.utf8EncodeChar c).all (fun b => b ∈ blankBytes) = true := by
    have hblank := h c hc
    simp only [isBlank, Bool.or_eq_true, beq_iff_eq] at hblank
    rcases hblank with (((rfl | rfl) | rfl) | rfl) | rfl
    all_goals decide
  exact of_decide_eq_true (all_eq_true.1 hbytes b hin)

end Source

namespace Token

open Source

/-- Each token knows whether a line break stands between it and the token before, the first one
counting from `last`. -/
def Flagged (source : List UInt8) : (last : Nat) → List Token → Prop
  | _, [] => True
  | last, token :: tokens =>
    (token.afterNewline = true ↔
      ∃ i, last ≤ i ∧ i < token.span.start ∧ source[i]? = some 0x0a) ∧
    Flagged source token.span.stop tokens

theorem InOrder.start_le {file pos tokens} (h : InOrder file pos tokens) {token}
    (hmem : token ∈ tokens) : pos ≤ token.span.start := by
  induction tokens generalizing pos with
  | nil => exact absurd hmem not_mem_nil
  | cons first tokens ih =>
    obtain ⟨-, hstart, hroom, hrest⟩ := h
    rcases mem_cons.mp hmem with rfl | hmem
    · exact hstart
    · have hlater := ih hrest hmem
      omega

namespace Tiles

variable {file pos : Nat} {newline : Bool} {parts : List Segment} {tokens : List Token}

section

variable (h : Tiles file pos newline parts tokens)
include h

theorem inOrder : InOrder file pos tokens := by
  induction h with
  | nil => trivial
  | gap _ _ ih => exact ih.mono (Nat.le_add_right _ _)
  | token _ nonempty _ ih =>
    refine ⟨rfl, Nat.le_refl _, ?_, ih⟩
    obtain ⟨c, cs, htext⟩ := exists_cons_of_ne_nil nonempty
    have hc := c.utf8Size_pos
    simp only [htext, byteLength_cons]
    omega

/-- A token has the text that stands at its place. -/
theorem text_eq {token} (hmem : token ∈ tokens) :
    ∃ before after, parts.flatMap Segment.text = before ++ (token.text.toList ++ after) ∧
      token.span.start = pos + byteLength before ∧
      token.span.stop = token.span.start + byteLength token.text.toList := by
  induction h with
  | nil => exact absurd hmem not_mem_nil
  | @gap _ _ part _ _ _ _ ih =>
    obtain ⟨before, after, htext, hstart, hstop⟩ := ih hmem
    refine ⟨part.text ++ before, after, ?_, ?_, hstop⟩
    · rw [flatMap_cons, htext, append_assoc]
    · rw [hstart, byteLength_append, Nat.add_assoc]
  | @token _ _ pieces parts _ _ _ _ _ ih =>
    rcases mem_cons.mp hmem with rfl | hmem
    · refine ⟨[], parts.flatMap Segment.text, ?_, rfl, ?_⟩
      · rw [flatMap_append, String.toList_ofList, nil_append]
      · rw [String.toList_ofList]
    · obtain ⟨before, after, htext, hstart, hstop⟩ := ih hmem
      refine ⟨pieces.flatMap Segment.text ++ before, after, ?_, ?_, hstop⟩
      · rw [flatMap_append, htext, append_assoc]
      · rw [hstart, byteLength_append, Nat.add_assoc]

/-- What no token covers is blank once comments are. -/
theorem gap_blank {i} (hi : i < byteLength (parts.flatMap Segment.text))
    (hout : ∀ token ∈ tokens, ¬ (token.span.start ≤ pos + i ∧ pos + i < token.span.stop)) :
    ∃ byte ∈ blankBytes, (encode (parts.flatMap Segment.blanked))[i]? = some byte := by
  induction h generalizing i with
  | nil => exact absurd hi (Nat.not_lt_zero i)
  | @gap pos _ part _ _ blank _ ih =>
    have hlength : (encode part.blanked).length = byteLength part.text := by
      rw [length_encode, part.byteLength_blanked]
    rw [flatMap_cons, encode_append]
    by_cases hhere : i < byteLength part.text
    · have hin : i < (encode part.blanked).length := by omega
      refine ⟨(encode part.blanked)[i], ?_, ?_⟩
      · exact mem_blankBytes_of_isBlank blank (getElem_mem hin)
      · rw [getElem?_append_left hin, getElem?_eq_getElem hin]
    · rw [flatMap_cons, byteLength_append] at hi
      rw [getElem?_append_right (by omega), hlength]
      refine ih (by omega) ?_
      intro token hmem
      have hpos : pos + byteLength part.text + (i - byteLength part.text) = pos + i := by omega
      rw [hpos]
      exact hout token hmem
  | @token pos _ pieces _ _ _ notComment _ _ ih =>
    obtain ⟨hhead, htail⟩ := forall_mem_cons.mp hout
    rw [flatMap_append, byteLength_append] at hi
    have hhere : ¬ i < byteLength (pieces.flatMap Segment.text) := by
      intro hlt
      exact hhead ⟨Nat.le_add_right _ _, Nat.add_lt_add_left hlt pos⟩
    rw [flatMap_append, encode_append, Segment.flatMap_blanked notComment,
      getElem?_append_right (by rw [length_encode]; omega), length_encode]
    refine ih (by omega) ?_
    intro token hmem
    have hpos : pos + byteLength (pieces.flatMap Segment.text) +
        (i - byteLength (pieces.flatMap Segment.text)) = pos + i := by omega
    rw [hpos]
    exact htail token hmem

omit h in
/-- Where a byte stands in a text that goes on: before, or in what is added. -/
theorem exists_getElem?_append {before added : List UInt8} {last} (byte : UInt8)
    (hlast : last ≤ before.length) :
    (∃ i, last ≤ i ∧ i < before.length + added.length ∧ (before ++ added)[i]? = some byte) ↔
      (∃ i, last ≤ i ∧ i < before.length ∧ before[i]? = some byte) ∨ byte ∈ added := by
  constructor
  · rintro ⟨i, hlow, hhigh, hbyte⟩
    by_cases hi : i < before.length
    · rw [getElem?_append_left hi] at hbyte
      exact Or.inl ⟨i, hlow, hi, hbyte⟩
    · rw [getElem?_append_right (by omega)] at hbyte
      exact Or.inr (mem_of_getElem? hbyte)
  · rintro (⟨i, hlow, hhigh, hbyte⟩ | hmem)
    · refine ⟨i, hlow, by omega, ?_⟩
      rw [getElem?_append_left hhigh]
      exact hbyte
    · obtain ⟨i, hi, hbyte⟩ := getElem_of_mem hmem
      refine ⟨before.length + i, by omega, by omega, ?_⟩
      rw [getElem?_append_right (by omega), Nat.add_sub_cancel_left,
        getElem?_eq_getElem hi, hbyte]

/-- The flags agree with the bytes, those in front of the tiled segments included. -/
theorem flagged {before : List UInt8} {last} (hbefore : before.length = pos) (hlast : last ≤ pos)
    (hnewline : newline = true ↔ ∃ i, last ≤ i ∧ i < pos ∧ before[i]? = some 0x0a) :
    Flagged (before ++ encode (parts.flatMap Segment.text)) last tokens := by
  induction h generalizing before last with
  | nil => trivial
  | @gap _ _ part _ _ _ _ ih =>
    rw [flatMap_cons, encode_append, ← append_assoc]
    refine ih ?_ (Nat.le_add_right_of_le hlast) ?_
    · rw [length_append, hbefore, length_encode]
    · subst hbefore
      rw [← length_encode part.text, exists_getElem?_append 0x0a hlast, ← hnewline,
        newline_mem_encode, Bool.or_eq_true, decide_eq_true_iff]
  | token _ _ _ ih =>
    constructor
    · rw [hnewline]
      refine exists_congr fun i => and_congr_right fun _ => and_congr_right fun hi => ?_
      rw [getElem?_append_left (by omega)]
    · rw [flatMap_append, encode_append, ← append_assoc]
      refine ih ?_ (Nat.le_refl _) ?_
      · rw [length_append, hbefore, length_encode]
      · simp
        omega

/-- No token covers any of a comment. -/
theorem comment_apart {before after comment} (hparts : parts = before ++ comment :: after)
    (hcomment : comment.role = .comment) {token} (hmem : token ∈ tokens) :
    token.span.stop ≤ pos + byteLength (before.flatMap Segment.text) ∨
      pos + byteLength (before.flatMap Segment.text) + byteLength comment.text ≤
        token.span.start := by
  induction h generalizing before with
  | nil => exact absurd hparts (by simp)
  | gap _ rest ih =>
    cases before with
    | nil =>
      obtain ⟨rfl, rfl⟩ := cons.inj hparts
      exact Or.inr (rest.inOrder.start_le hmem)
    | cons first before =>
      obtain ⟨rfl, rfl⟩ := cons.inj hparts
      have hrest := ih rfl hmem
      rw [flatMap_cons, byteLength_append, ← Nat.add_assoc]
      exact hrest
  | @token _ _ pieces parts _ _ notComment _ _ ih =>
    -- The comment is none of the pieces, so it stands behind them.
    obtain ⟨before', rfl, hrest⟩ : ∃ before', before = pieces ++ before' ∧
        parts = before' ++ comment :: after := by
      rcases append_eq_append_iff.mp hparts with
        ⟨before', hbefore, hrest⟩ | ⟨inside, hpieces, hrest⟩
      · exact ⟨before', hbefore, hrest⟩
      · cases inside with
        | nil => exact ⟨[], by simpa using hpieces.symm, by simpa using hrest.symm⟩
        | cons first inside =>
          obtain ⟨rfl, -⟩ := cons.inj hrest
          exact absurd hcomment (notComment _ (by rw [hpieces]; simp))
    rw [flatMap_append, byteLength_append, ← Nat.add_assoc]
    rcases mem_cons.mp hmem with rfl | hmem
    · exact Or.inl (Nat.le_add_right _ _)
    · exact ih hrest hmem

end

end Tiles

/-- What scanning promises of the tokens of a text, in bytes: `source` is the text as written and
`blanked` the text without its comments. -/
structure Faithful (file : Nat) (source blanked : List UInt8) (tokens : List Token) : Prop where
  /-- Blanking comments moves nothing. -/
  length_eq : blanked.length = source.length
  /-- The tokens stand one behind another, and each takes room. -/
  inOrder : InOrder file 0 tokens
  /-- A token has the text that is written at its place. -/
  text_eq : ∀ token ∈ tokens, token.span.stop ≤ source.length ∧
    Source.bytes token.text = source.extract token.span.start token.span.stop
  /-- A byte that no token covers is blank once comments are. -/
  gap_blank : ∀ i < source.length,
    (∀ token ∈ tokens, ¬ (token.span.start ≤ i ∧ i < token.span.stop)) →
      ∃ byte ∈ Source.blankBytes, blanked[i]? = some byte
  /-- A token follows a line break exactly when it says so. -/
  flagged : Flagged source 0 tokens

/-- A tiling of a whole text is all that is needed. -/
theorem Tiles.faithful {file parts tokens} (h : Tiles file 0 false parts tokens) :
    Faithful file (Source.encode (parts.flatMap Segment.text))
      (Source.encode (parts.flatMap Segment.blanked)) tokens where
  length_eq := by
    rw [Source.length_encode, Source.length_encode, Segment.byteLength_flatMap_blanked]
  inOrder := h.inOrder
  text_eq := by
    intro token hmem
    obtain ⟨before, after, htext, hstart, hstop⟩ := h.text_eq hmem
    have hwidth : token.span.stop - token.span.start =
        (Source.encode token.text.toList).length := by
      rw [Source.length_encode]
      omega
    rw [Nat.zero_add, ← Source.length_encode] at hstart
    rw [htext, Source.encode_append, Source.encode_append, Source.bytes_eq]
    constructor
    · simp only [length_append, Source.length_encode] at hstart ⊢
      omega
    · rw [extract_eq_take_drop, hwidth, hstart, drop_left, take_left]
  gap_blank := by
    intro i hi hout
    rw [Source.length_encode] at hi
    exact h.gap_blank hi (by simpa using hout)
  flagged := by
    show Flagged ([] ++ Source.encode (parts.flatMap Segment.text)) 0 tokens
    exact h.flagged rfl (Nat.le_refl 0) (by simp)

/-- Scanning is faithful to the text: its tokens are what is written, where it is written, with
nothing but blanks and comments between them. -/
theorem ofSource_faithful {options : ScanOptions} {file : Nat} {source : String}
    {tokens : List Token} (h : ofSource options file source = .ok tokens) :
    ∃ parts blanked, segments options file source.toList = .ok parts ∧
      blankComments options file source.toList = .ok blanked ∧
      Faithful file (Source.bytes source) (Source.bytes (String.ofList blanked)) tokens ∧
      ∀ before comment after, parts = before ++ comment :: after → comment.role = .comment →
        ∀ token ∈ tokens, token.span.stop ≤ byteLength (before.flatMap Segment.text) ∨
          byteLength (before.flatMap Segment.text) + byteLength comment.text ≤
            token.span.start := by
  obtain ⟨parts, hparts, hscan⟩ := ofSource_eq_ok_iff.1 h
  obtain ⟨htext, hsound⟩ := segments_sound hparts
  have htiles : Tiles file 0 false parts tokens := by
    have hscans := @scanFrom_scans file parts hsound 0 false
    rw [← scan, hscan] at hscans
    exact hscans.tiles rfl
  have hsource : Source.bytes source = Source.encode (parts.flatMap Segment.text) := by
    rw [Source.bytes_eq, htext]
  refine ⟨parts, _, hparts, blankComments_eq_ok_iff.2 ⟨parts, hparts, rfl⟩, ?_, ?_⟩
  · rw [hsource, Source.bytes_ofList]
    exact htiles.faithful
  · intro before comment after hsplit hcomment token hmem
    simpa using htiles.comment_apart hsplit hcomment hmem

/-- A text in which the two passes could come apart: comment marks in literals, quotes and line
breaks in comments, and characters of several bytes in both. -/
def interleaved : String :=
  "a /* \"é\n */ `//\n` // 'x\n + '\\''"

def interleavedTokens : List Token := [
  { kind := .ident, text := "a", span := ⟨0, 0, 1⟩, afterNewline := false },
  { kind := .string, text := "`//\n`", span := ⟨0, 13, 18⟩, afterNewline := true },
  { kind := .plus, text := "+", span := ⟨0, 26, 27⟩, afterNewline := true },
  { kind := .char, text := "'\\''", span := ⟨0, 28, 32⟩, afterNewline := false }]

theorem ofSource_faithful_interleaved :
    ofSource ⟨false⟩ 0 interleaved = .ok interleavedTokens ∧
      ∃ blanked, blankComments ⟨false⟩ 0 interleaved.toList = .ok blanked ∧
        Faithful 0 (Source.bytes interleaved) (Source.bytes (String.ofList blanked))
          interleavedTokens := by
  have hscan : ofSource ⟨false⟩ 0 interleaved = .ok interleavedTokens := by decide +kernel
  obtain ⟨-, blanked, -, hblanked, hfaithful, -⟩ := ofSource_faithful hscan
  exact ⟨hscan, blanked, hblanked, hfaithful⟩

end Token

end ScriptLowering
