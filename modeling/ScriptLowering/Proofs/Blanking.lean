import ScriptLowering.Proofs.Faithful

/-!
# Comments are blanked in place

Blanking is a map over the bytes of a text: those of comments become spaces, line breaks apart, and
all others stay (`encode_flatMap_blanked`). Which bytes belong to comments is decided by the cut of
the text, of which there is only one. Once comments are blanked the text has the same cut, with
every blank of a comment as code (`WellCut.settled`): no code runs into a comment that is gone, so
none opens another. Blanking again then changes nothing (`blankComments_in_place`).
-/

namespace ScriptLowering.Token

open List

variable {parts : List Segment}

open Source

/-! ## The cut of a blanked text -/

/-- The segments that a segment becomes: the blanks of a comment are code. -/
def Segment.settled (segment : Segment) : List Segment :=
  match segment.role with
  | .comment => segment.blanked.map fun c => ⟨.code, [c]⟩
  | .code | .literal => [segment]

theorem Segment.flatMap_text_settled (segment : Segment) :
    segment.settled.flatMap text = segment.blanked := by
  unfold settled
  split
  · rw [flatMap_map, flatMap_singleton']
  · rename_i hrole
    simp [blanked, hrole]
  · rename_i hrole
    simp [blanked, hrole]

theorem Segment.role_of_mem_settled {segment part : Segment} (h : part ∈ segment.settled) :
    part.role ≠ .comment ∧ (part.role = .literal → part = segment) := by
  unfold settled at h
  split at h
  · obtain ⟨c, -, rfl⟩ := mem_map.1 h
    simp
  · rename_i hrole
    obtain rfl := mem_singleton.1 h
    simp [hrole]
  · rename_i hrole
    obtain rfl := mem_singleton.1 h
    simp [hrole]

theorem not_opensComment_of_isBlank {c} (h : isBlank c = true) (rest : List Char) :
    Opener.ofChar? c = none ∧ ¬ OpensComment (c :: rest) := by
  rw [opensComment_iff]
  simp only [isBlank, Bool.or_eq_true, beq_iff_eq] at h
  rcases h with (((rfl | rfl) | rfl) | rfl) | rfl
  all_goals exact ⟨rfl, by simp⟩

/-- Blanks in front are code. -/
theorem WellCut.blanks (h : WellCut parts) {blanks : List Char}
    (hblanks : ∀ c ∈ blanks, isBlank c = true) :
    WellCut (blanks.map (fun c => ⟨.code, [c]⟩) ++ parts) := by
  induction blanks with
  | nil => exact h
  | cons c blanks ih =>
    obtain ⟨hc, hblanks⟩ := forall_mem_cons.1 hblanks
    exact ⟨⟨c, rfl, not_opensComment_of_isBlank hc _⟩, ih hblanks⟩

/-- Blanking changes the first character of a text only to a blank. -/
theorem WellCut.head?_blanked (h : WellCut parts) {c}
    (hc : (parts.flatMap Segment.blanked).head? = some c) :
    isBlank c = true ∨ (parts.flatMap Segment.text).head? = some c := by
  cases parts with
  | nil => contradiction
  | cons part parts =>
    by_cases hrole : part.role = .comment
    · obtain ⟨d, ds, hblanked⟩ :=
        exists_cons_of_ne_nil (Segment.blanked_ne_nil h.1.text_ne_nil)
      rw [flatMap_cons, hblanked] at hc
      obtain rfl : d = c := by simpa using hc
      exact .inl (Segment.isBlank_of_mem_blanked hrole (by simp [hblanked]))
    · obtain ⟨d, ds, htext⟩ := exists_cons_of_ne_nil h.1.text_ne_nil
      rw [flatMap_cons, Segment.blanked_of_role_ne hrole, htext] at hc
      rw [flatMap_cons, htext]
      exact .inr hc

theorem flatMap_settled_text (parts : List Segment) :
    (parts.flatMap Segment.settled).flatMap Segment.text = parts.flatMap Segment.blanked := by
  rw [flatMap_assoc]
  exact congrArg parts.flatMap (funext Segment.flatMap_text_settled)

/-- A blanked text is cut as it was, comments apart. -/
theorem WellCut.settled (h : WellCut parts) : WellCut (parts.flatMap Segment.settled) := by
  induction parts with
  | nil => trivial
  | cons part parts ih =>
    obtain ⟨hpart, hparts⟩ := h
    obtain ⟨role, text⟩ := part
    cases role with
    | comment => exact (ih hparts).blanks fun c hc => Segment.isBlank_of_mem_blanked rfl hc
    | literal => exact ⟨hpart, ih hparts⟩
    | code =>
      obtain ⟨c, rfl, hopener, hcomment⟩ := hpart
      refine ⟨⟨c, rfl, hopener, ?_⟩, ih hparts⟩
      -- What follows is what followed before, or a blank.
      show ¬ OpensComment (c :: (parts.flatMap Segment.settled).flatMap Segment.text)
      rw [flatMap_settled_text]
      rw [opensComment_iff] at hcomment ⊢
      rintro ⟨rfl, hhead | hhead⟩
      all_goals
        rcases hparts.head?_blanked hhead with hblank | htext
        · contradiction
        · simp [htext] at hcomment

/-- Blanking a text whose comments are blanked changes nothing. -/
theorem blankComments_settled {options : ScanOptions} {file source}
    (h : segments options file source = .ok parts) :
    blankComments options file (parts.flatMap Segment.blanked) =
      .ok (parts.flatMap Segment.blanked) := by
  obtain ⟨-, hcut, hfree⟩ := segments_eq_ok_iff.1 h
  have hmem : ∀ part ∈ parts.flatMap Segment.settled,
      part.role ≠ .comment ∧ (part.role = .literal → part ∈ parts) := by
    intro part hpart
    obtain ⟨segment, hsegment, hpart⟩ := mem_flatMap.1 hpart
    obtain ⟨hrole, hliteral⟩ := Segment.role_of_mem_settled hpart
    exact ⟨hrole, fun hlit => hliteral hlit ▸ hsegment⟩
  have hsegments : segments options file (parts.flatMap Segment.blanked) =
      .ok (parts.flatMap Segment.settled) := by
    refine segments_eq_ok_iff.2 ⟨flatMap_settled_text parts, hcut.settled, ?_⟩
    intro hstrict part hpart hliteral
    exact hfree hstrict part ((hmem part hpart).2 hliteral) hliteral
  unfold blankComments
  rw [hsegments]
  show Except.ok ((parts.flatMap Segment.settled).flatMap Segment.blanked) = _
  rw [Segment.flatMap_blanked fun part hpart => (hmem part hpart).1, flatMap_settled_text]

/-! ## Bytes -/

/-- Which bytes of a text belong to comments. -/
def commentMask (parts : List Segment) : List Bool :=
  parts.flatMap fun part => replicate (byteLength part.text) (decide (part.role = .comment))

theorem zipWith_replicate_eq_map (inComment : Bool) (bytes : List UInt8) :
    zipWith blankByte (replicate bytes.length inComment) bytes =
      bytes.map (blankByte inComment) := by
  induction bytes with
  | nil => rfl
  | cons byte bytes ih => simp [replicate_succ, ih]

/-- A character of a comment is blanked byte by byte: a byte of a longer one is no line break. -/
theorem encode_blank (c : Char) :
    encode (if c == '\n' then [c] else spaces c) =
      (String.utf8EncodeChar c).map (blankByte true) := by
  by_cases hc : c = '\n'
  · subst hc
    decide
  · have hspaces : ∀ n, encode (replicate n ' ') = replicate n 0x20 := by
      intro n
      induction n with
      | zero => rfl
      | succ n ih => rw [replicate_succ, replicate_succ, ← ih]; rfl
    rw [if_neg (by simpa using hc), spaces, hspaces, ← String.length_utf8EncodeChar,
      ← map_const']
    refine map_congr_left fun byte hbyte => ?_
    have hne : byte ≠ 0x0a := fun h => hc (newline_mem_utf8EncodeChar (h ▸ hbyte))
    simp [blankByte, hne]

theorem Segment.encode_blanked (segment : Segment) :
    encode segment.blanked =
      (encode segment.text).map (blankByte (decide (segment.role = .comment))) := by
  have hid : blankByte false = id := rfl
  unfold blanked
  split
  · rename_i hrole
    rw [hrole, encode, encode, flatMap_assoc, map_flatMap]
    exact congrArg segment.text.flatMap (funext encode_blank)
  · rename_i hrole
    simp [hrole, hid]
  · rename_i hrole
    simp [hrole, hid]

/-- Blanking maps bytes: it moves none. -/
theorem encode_flatMap_blanked (parts : List Segment) :
    encode (parts.flatMap Segment.blanked) =
      zipWith blankByte (commentMask parts) (encode (parts.flatMap Segment.text)) := by
  induction parts with
  | nil => rfl
  | cons part parts ih =>
    unfold commentMask at ih ⊢
    rw [flatMap_cons, flatMap_cons, flatMap_cons, encode_append, encode_append,
      zipWith_append (by simp), ← ih, part.encode_blanked, ← length_encode,
      zipWith_replicate_eq_map]

@[simp] theorem length_commentMask (parts : List Segment) :
    (commentMask parts).length = byteLength (parts.flatMap Segment.text) := by
  induction parts with
  | nil => rfl
  | cons part parts ih =>
    unfold commentMask at ih ⊢
    simp [ih]

/-- `out` is `source` with its comments blanked where they stand; `parts` is the cut of `source`. -/
structure InPlace (parts : List Segment) (source out : List UInt8) : Prop where
  length_eq : out.length = source.length
  /-- A byte is kept or becomes a space. -/
  kept_or_space : ∀ i : Nat, out[i]? = source[i]? ∨ out[i]? = some 0x20
  /-- Line breaks stay, and none is added. -/
  newline_iff : ∀ i : Nat, out[i]? = some 0x0a ↔ source[i]? = some 0x0a
  /-- A byte of a comment becomes a space, unless it is a line break. -/
  comment : ∀ i : Nat, (commentMask parts)[i]? = some true → source[i]? ≠ some 0x0a →
    out[i]? = some 0x20
  /-- Any other byte is kept. -/
  outside : ∀ i : Nat, (commentMask parts)[i]? ≠ some true → out[i]? = source[i]?
  /-- So literals are. -/
  literal : ∀ before part after, parts = before ++ part :: after → part.role = .literal →
    out.extract (byteLength (before.flatMap Segment.text))
      (byteLength (before.flatMap Segment.text) + byteLength part.text) = encode part.text

theorem getElem?_zipWith_blankByte {mask bytes} (h : mask.length = bytes.length) (i : Nat) :
    (zipWith blankByte mask bytes)[i]? =
      bytes[i]?.map (blankByte (mask[i]? == some true)) := by
  rw [getElem?_zipWith]
  by_cases hi : i < mask.length
  · rw [getElem?_eq_getElem hi, getElem?_eq_getElem (h ▸ hi)]
    simp
  · rw [getElem?_eq_none (by omega), getElem?_eq_none (by omega)]
    rfl

theorem inPlace (parts : List Segment) :
    InPlace parts (encode (parts.flatMap Segment.text))
      (encode (parts.flatMap Segment.blanked)) := by
  have hget := @getElem?_zipWith_blankByte (commentMask parts)
    (encode (parts.flatMap Segment.text)) (by simp)
  rw [← encode_flatMap_blanked] at hget
  have hkept (i : Nat) (h : (commentMask parts)[i]? ≠ some true) :
      (encode (parts.flatMap Segment.blanked))[i]? = (encode (parts.flatMap Segment.text))[i]? := by
    rw [hget, beq_eq_false_iff_ne.2 h]
    exact Option.map_id_apply
  have hblank (i : Nat) (h : (commentMask parts)[i]? = some true) :
      ∃ byte, (encode (parts.flatMap Segment.text))[i]? = some byte ∧
        (encode (parts.flatMap Segment.blanked))[i]? =
          some (if byte = 0x0a then 0x0a else 0x20) := by
    obtain ⟨hi, -⟩ := List.getElem?_eq_some_iff.1 h
    rw [length_commentMask, ← length_encode] at hi
    refine ⟨_, getElem?_eq_getElem hi, ?_⟩
    rw [hget, h, getElem?_eq_getElem hi]
    by_cases hnewline : (encode (parts.flatMap Segment.text))[i] = 0x0a <;>
      simp [blankByte, hnewline]
  refine ⟨?_, ?_, ?_, ?_, hkept, ?_⟩
  · rw [length_encode, length_encode, Segment.byteLength_flatMap_blanked]
  iterate 2
    intro i
    by_cases hmask : (commentMask parts)[i]? = some true
    · obtain ⟨byte, hsource, hout⟩ := hblank i hmask
      rw [hsource, hout]
      by_cases hnewline : byte = 0x0a <;> simp [hnewline]
    · simp [hkept i hmask]
  · intro i hmask hne
    obtain ⟨byte, hsource, hout⟩ := hblank i hmask
    rw [hsource] at hne
    rw [hout, if_neg (by simpa using hne)]
  · rintro before part after rfl hrole
    have hne : part.role ≠ .comment := by simp [hrole]
    rw [flatMap_append, flatMap_cons, encode_append, encode_append,
      part.blanked_of_role_ne hne, extract_eq_take_drop,
      ← Segment.byteLength_flatMap_blanked, ← length_encode, drop_left, Nat.add_sub_cancel_left,
      ← length_encode, take_left]

/-- A text whose comments can be blanked has one cut. Blanking it keeps every byte where it stands,
replaces those of its comments, and does nothing when it is done again. -/
theorem blankComments_in_place {options : ScanOptions} {file : Nat} {source : String}
    {out : List Char} (h : blankComments options file source.toList = .ok out) :
    ∃ parts, (∀ other, other.flatMap Segment.text = source.toList ∧ WellCut other ↔
        other = parts) ∧
      InPlace parts (Source.bytes source) (Source.bytes (String.ofList out)) ∧
      blankComments options file out = .ok out := by
  obtain ⟨parts, hparts, rfl⟩ := blankComments_eq_ok_iff.1 h
  obtain ⟨htext, hcut, -⟩ := segments_eq_ok_iff.1 hparts
  refine ⟨parts, fun other => ⟨?_, ?_⟩, ?_, blankComments_settled hparts⟩
  · rintro ⟨hother, hcut'⟩
    -- Both are what cutting without refusing literals finds.
    have hfound {found : List Segment} (htext : found.flatMap Segment.text = source.toList)
        (hcut : WellCut found) : segments ⟨false⟩ file source.toList = .ok found :=
      segments_eq_ok_iff.2 ⟨htext, hcut, by simp⟩
    exact Except.ok.inj ((hfound hother hcut').symm.trans (hfound htext hcut))
  · rintro rfl
    exact ⟨htext, hcut⟩
  · rw [Source.bytes_ofList, Source.bytes_eq, ← htext]
    exact inPlace parts

/-- What blanking makes of `interleaved`: a character of two bytes is two spaces. -/
def interleavedBlanked : String := "a       \n    `//\n`      \n + '\\''"

theorem blankComments_in_place_interleaved :
    blankComments ⟨false⟩ 0 interleaved.toList = .ok interleavedBlanked.toList ∧
      ∃ parts, InPlace parts (Source.bytes interleaved) (Source.bytes interleavedBlanked) ∧
        blankComments ⟨false⟩ 0 interleavedBlanked.toList = .ok interleavedBlanked.toList := by
  have hout : blankComments ⟨false⟩ 0 interleaved.toList = .ok interleavedBlanked.toList := by
    decide +kernel
  obtain ⟨parts, -, hplace, hagain⟩ := blankComments_in_place hout
  rw [String.ofList_toList] at hplace
  exact ⟨hout, parts, hplace, hagain⟩

end ScriptLowering.Token
