import ScriptLowering.Proofs.Blanking

/-!
# Comments in bytes

Comments can be found in the bytes of a text as well as in its characters. A scan of bytes takes no
notice of where a character begins: behind a backslash it passes over one byte, which may be the
first of several. But whatever it looks for is in ASCII, and the bytes of any other character are
not, so that it finds what the scan of characters finds, at the same offsets (`preprocess_eq`). In
particular what is left of the bytes is encoded text.
-/

namespace ScriptLowering

open List

namespace Source

/-- A text with its bytes as characters. -/
def units (cs : List Char) : List Char := (encode cs).map Char.ofUInt8

@[simp] theorem length_units (cs : List Char) : (units cs).length = byteLength cs := by
  simp [units]

@[simp] theorem units_append (xs ys : List Char) : units (xs ++ ys) = units xs ++ units ys := by
  simp [units]

theorem take_units (n : Nat) (cs : List Char) :
    (units cs).take (byteLength (cs.take n)) = units (cs.take n) := by
  conv_lhs => rw [← take_append_drop n cs, units_append]
  rw [← length_units, take_left' (by simp)]

theorem units_cases (c : Char) :
    c.utf8Size = 1 ∧ units [c] = [c] ∨ Wide c ∧ ∀ u ∈ units [c], Wide u := by
  have hunits : units [c] = (String.utf8EncodeChar c).map Char.ofUInt8 := by
    rw [units, encode, flatMap_singleton]
  rw [hunits]
  rcases utf8EncodeChar_cases c with ⟨hsize, hbytes, hc⟩ | ⟨hwide, hbytes⟩
  · rw [hbytes, map_singleton, hc]
    exact .inl ⟨hsize, rfl⟩
  · refine .inr ⟨hwide, forall_mem_map.2 fun byte hbyte => ?_⟩
    exact UInt8.le_iff_toNat_le.1 (hbytes byte hbyte)

theorem units_of_size {c : Char} (h : c.utf8Size = 1) (cs : List Char) :
    units (c :: cs) = c :: units cs := by
  rcases units_cases c with ⟨-, hc⟩ | ⟨hwide, -⟩
  · rw [← singleton_append, units_append, hc, singleton_append]
  · exact absurd rfl (hwide.ne h)

/-- The bytes of a character outside ASCII come one by one, and count for it in the end. -/
theorem units_induction {P : Nat → List Char → List Char → Prop} (nil : P 0 [] [])
    (narrow : ∀ c cs, c.utf8Size = 1 → P 0 cs (units cs) → P 0 (c :: cs) (c :: units cs))
    (byte : ∀ n cs u us, Wide u → P n cs us → P (n + 1) cs (u :: us))
    (wide : ∀ c cs us, Wide c → P c.utf8Size cs us → P 0 (c :: cs) us) (cs : List Char) :
    P 0 cs (units cs) := by
  induction cs with
  | nil => exact nil
  | cons c cs ih =>
    rcases units_cases c with ⟨hsize, -⟩ | ⟨hwide, hunits⟩
    · rw [units_of_size hsize]
      exact narrow c cs hsize ih
    · rw [← singleton_append, units_append]
      apply wide c cs _ hwide
      rw [show c.utf8Size = (units [c]).length by simp]
      generalize units [c] = us at hunits
      induction us with
      | nil => exact ih
      | cons u us ihus =>
        obtain ⟨hu, hus⟩ := forall_mem_cons.1 hunits
        exact byte us.length cs u _ hu (ihus hus)

theorem head?_units {d : Char} (hd : d.utf8Size = 1) (cs : List Char) :
    (units cs).head? = some d ↔ cs.head? = some d := by
  refine units_induction (P := fun n cs us => us.head? = some d ↔ n = 0 ∧ cs.head? = some d)
    ?_ ?_ ?_ ?_ cs |>.trans (by simp)
  · simp
  · simp
  · intro n cs u us hu _
    simp [hu.ne hd]
  · intro c cs us hc h
    simp [h, hc.ne hd, Nat.ne_of_gt c.utf8Size_pos]

end Source

namespace Token

open Source

theorem length_takeWhile_units {d : Char} (hd : d.utf8Size = 1) (cs : List Char) :
    ((units cs).takeWhile (· != d)).length = byteLength (cs.takeWhile (· != d)) := by
  refine (units_induction (P := fun n cs us => (us.takeWhile (· != d)).length =
    n + byteLength (cs.takeWhile (· != d))) rfl ?_ ?_ ?_ cs).trans (Nat.zero_add _)
  · intro c cs hsize h
    rw [takeWhile_cons, takeWhile_cons]
    split <;> simp [h, hsize, Nat.add_comm]
  · intro n cs u us hu h
    simp [hu.ne hd, h, Nat.add_right_comm]
  · intro c cs us hc h
    simp [hc.ne hd, h]

theorem mem_units {d : Char} (hd : d.utf8Size = 1) (cs : List Char) : d ∈ units cs ↔ d ∈ cs := by
  refine units_induction (P := fun _ cs us => d ∈ us ↔ d ∈ cs) Iff.rfl ?_ ?_ ?_ cs
  · intro c cs _ h
    simp [h]
  · intro n cs u us hu h
    simp [h, (hu.ne hd).symm]
  · intro c cs us hc h
    simp [h, (hc.ne hd).symm]

theorem blockCommentEnd?_cons (c : Char) (cs : List Char) :
    blockCommentEnd? (c :: cs) =
      if c = '*' ∧ cs.head? = some '/' then some 2 else (blockCommentEnd? cs).map (· + 1) := by
  split
  · rename_i h
    obtain ⟨rfl, hhead⟩ := h
    obtain ⟨rest, rfl⟩ := head?_eq_some_iff.1 hhead
    rfl
  · rename_i h
    exact blockCommentEnd?.eq_2 c cs fun rest hc hcs => h ⟨hc, by simp [hcs]⟩

theorem blockCommentEnd?_units (cs : List Char) :
    blockCommentEnd? (units cs) =
      (blockCommentEnd? cs).map fun count => byteLength (cs.take count) := by
  refine (units_induction (P := fun n cs us => blockCommentEnd? us =
    (blockCommentEnd? cs).map fun count => n + byteLength (cs.take count))
    rfl ?_ ?_ ?_ cs).trans (by simp)
  · intro c cs hsize h
    simp only [blockCommentEnd?_cons, h, head?_units (d := '/') rfl]
    split
    · rename_i hends
      obtain ⟨rest, rfl⟩ := head?_eq_some_iff.1 hends.2
      simp [hsize]
      rfl
    · simp [Function.comp_def, hsize, Nat.add_comm]
  · intro n cs u us hu h
    simp [blockCommentEnd?_cons, hu.ne (d := '*') rfl, h, Function.comp_def, Nat.add_right_comm]
  · intro c cs us hc h
    simp [blockCommentEnd?_cons, hc.ne (d := '*') rfl, h, Function.comp_def]

theorem hasCommentOpener_units (cs : List Char) :
    hasCommentOpener (units cs) = hasCommentOpener cs := by
  have hcons (c : Char) (cs : List Char) : hasCommentOpener (c :: cs) = true ↔
      OpensComment (c :: cs) ∨ hasCommentOpener cs = true := by
    rw [hasCommentOpener_iff, hasCommentOpener_iff, infix_cons_iff, infix_cons_iff, OpensComment]
    tauto
  rw [Bool.eq_iff_iff]
  refine units_induction (P := fun _ cs us => hasCommentOpener us = true ↔
    hasCommentOpener cs = true) Iff.rfl ?_ ?_ ?_ cs
  · intro c cs _ h
    rw [hcons, hcons, opensComment_iff, opensComment_iff, h, head?_units rfl, head?_units rfl]
  · intro n cs u us hu h
    simp [hcons, opensComment_iff, hu.ne (d := '/') rfl, h]
  · intro c cs us hc h
    simp [hcons, opensComment_iff, hc.ne (d := '/') rfl, h]

/-- An escape takes one byte with it. The others of that character, if there are any, are passed
over as all bytes outside ASCII are. -/
theorem quotedEnd_units {quote : Char} (hquote : quote.utf8Size = 1) (cs : List Char) :
    quotedEnd quote (units cs) =
      (quotedEnd quote cs).map fun count => byteLength (cs.take count) := by
  have hmap (f g : Nat → Nat) (ending : QuotedEnd) :
      (ending.map f).map g = ending.map fun count => g (f count) := by
    cases ending <;> rfl
  have hbackslash : '\\'.utf8Size = 1 := rfl
  have hwide {c : Char} (hc : Wide c) (cs : List Char) :
      quotedEnd quote (c :: cs) = (quotedEnd quote cs).map (· + 1) := by
    rw [quotedEnd_cons (hc.ne rfl), if_neg (by simpa using hc.ne rfl),
      if_neg (by simpa using hc.ne hquote)]
  -- The second part is about a text behind a backslash, which has taken the character that the
  -- `n` bytes belong to.
  refine ((units_induction (P := fun n cs us => quotedEnd quote us =
      (quotedEnd quote cs).map (fun count => n + byteLength (cs.take count)) ∧
    quotedEnd quote ('\\' :: us) = if n = 0
      then (quotedEnd quote ('\\' :: cs)).map fun count => byteLength (('\\' :: cs).take count)
      else (quotedEnd quote cs).map fun count => n + 1 + byteLength (cs.take count))
    ⟨rfl, rfl⟩ ?_ ?_ ?_ cs).1).trans (by simp)
  · rintro c cs hsize ⟨h, hescape⟩
    refine ⟨?_, ?_⟩
    · by_cases hc : c = '\\'
      · subst hc
        simpa using hescape
      · rw [quotedEnd_cons hc, quotedEnd_cons hc, h]
        split_ifs
        · rfl
        · simp [QuotedEnd.map, hsize]
        · simp [hmap, hsize, Nat.add_comm]
    · rw [quotedEnd, quotedEnd, h]
      simp [hmap, hsize, hbackslash, Nat.add_comm (byteLength _) 2, ← Nat.add_assoc]
  · rintro n cs u us hu ⟨h, -⟩
    refine ⟨?_, ?_⟩
    · rw [hwide hu, h]
      simp [hmap, Nat.add_right_comm]
    · rw [quotedEnd, h]
      simp [hmap, Nat.add_right_comm]
  · rintro c cs us hc ⟨h, hescape⟩
    rw [if_neg (Nat.ne_of_gt c.utf8Size_pos)] at hescape
    refine ⟨?_, ?_⟩
    · rw [h, hwide hc]
      simp [hmap]
    · rw [hescape, quotedEnd]
      simp [hmap, hbackslash, Nat.add_comm c.utf8Size 1, Nat.add_assoc]

section Scan

variable {options : ScanOptions} {file pos : Nat} {role : Role}

theorem literalExtent_units (opener : Opener) (cs : List Char) :
    literalExtent file pos opener (units cs) length =
      (literalExtent file pos opener cs).map fun count => byteLength (cs.take count) := by
  have hsize : opener.char.utf8Size = 1 := by cases opener <;> rfl
  have hquoted (what : QuotedClass) : quotedExtent file pos what opener.char (units cs) length =
      (quotedExtent file pos what opener.char cs).map fun count => byteLength (cs.take count) := by
    unfold quotedExtent
    rw [quotedEnd_units hsize]
    cases quotedEnd opener.char cs <;> simp [QuotedEnd.map, Except.map, take_units]
  cases opener with
  | doubleQuote => exact hquoted .string
  | singleQuote => exact hquoted .character
  | backtick =>
    unfold literalExtent
    dsimp only
    rw [length_takeWhile_units hsize]
    simp only [mem_units hsize]
    split
    · rename_i hmark
      obtain ⟨body, rest, rfl, hbody⟩ := eq_append_cons_of_mem hmark
      have htake : (body ++ Opener.backtick.char :: rest).takeWhile (· != Opener.backtick.char) =
          body :=
        takeWhile_append_eq (fun c hc => by simpa using ne_of_mem_of_not_mem hc hbody) (by simp)
      simp [Except.map, htake, take_length_add_append, hsize]
    · simp [Except.map]

theorem segmentAt_units {c : Char} (hc : c.utf8Size = 1) (cs : List Char) :
    segmentAt options file pos c (units cs) length =
      (segmentAt options file pos c cs).map fun found =>
        (found.1, byteLength (cs.take found.2)) := by
  have hfirst {d : Char} {tail} (hd : d.utf8Size = 1) (h : units cs = d :: tail) :
      ∃ body, cs = d :: body ∧ tail = units body := by
    obtain ⟨body, rfl⟩ := head?_eq_some_iff.1 ((head?_units hd cs).1 (by simp [h]))
    exact ⟨body, rfl, (cons.inj ((units_of_size hd body).symm.trans h)).2.symm⟩
  unfold segmentAt
  split
  · obtain ⟨body, rfl, -⟩ := hfirst rfl ‹_›
    rw [length_takeWhile_units rfl]
    simp [Except.map, ← prefix_iff_eq_take.1 ( takeWhile_prefix _)]
  · obtain ⟨body, rfl, rfl⟩ := hfirst rfl ‹_›
    rw [blockCommentEnd?_units]
    cases hend : blockCommentEnd? body with
    | none => simp [hend, Except.map, hc, Nat.add_comm]
    | some count =>
      simp [hend, Except.map, Nat.add_comm]
      rfl
  · rename_i c _ _ hline hblock
    symm
    split
    · exact (hline _ rfl (units_of_size rfl _)).elim
    · exact (hblock _ rfl (units_of_size rfl _)).elim
    · cases hopener : Opener.ofChar? c with
      | none => rfl
      | some opener =>
        dsimp only
        rw [literalExtent_units]
        cases hextent : literalExtent file pos opener cs with
        | error report => rfl
        | ok count =>
          have htext : c :: (units cs).take (byteLength (cs.take count)) =
              units (c :: cs.take count) := by
            rw [take_units, units_of_size hc]
          simp only [Except.map, bind, Except.bind, htext, hasCommentOpener_units, length_units]
          cases options.strictLiterals && hasCommentOpener (c :: cs.take count) <;> rfl

theorem segmentAt_wide {c : Char} (hc : Wide c) (cs : List Char) (measure : List Char → Nat) :
    segmentAt options file pos c cs measure = .ok (.code, 0) := by
  have hopener : Opener.ofChar? c = none := by
    unfold Opener.ofChar?
    simp [hc.ne (d := Opener.doubleQuote.char) rfl, hc.ne (d := Opener.singleQuote.char) rfl,
      hc.ne (d := Opener.backtick.char) rfl]
  unfold segmentAt
  split
  · exact absurd rfl (hc.ne (d := '/') rfl)
  · exact absurd rfl (hc.ne (d := '/') rfl)
  · simp only [hopener]

/-- The comments of a text have the bytes that the scan of its bytes finds. -/
theorem commentMaskFrom_units (cs : List Char) (skip pos : Nat) :
    commentMaskFrom options file (byteLength (cs.take skip)) pos (units cs) =
      (segmentsFrom options file skip pos cs).map commentMask := by
  -- The `n` bytes are code, unless they are passed over with the segment before.
  have hall := units_induction (P := fun n cs us => ∀ pos,
    commentMaskFrom options file 0 pos us =
      (segmentsFrom options file 0 (pos + n) cs).map
        (fun parts => replicate n false ++ commentMask parts) ∧
    ∀ skip, commentMaskFrom options file (n + byteLength (cs.take skip)) pos us =
      (segmentsFrom options file skip (pos + n) cs).map commentMask) ?_ ?_ ?_ ?_ cs pos
  · simpa using hall.2 skip
  · intro pos
    exact ⟨rfl, fun skip => by cases skip <;> rfl⟩
  · intro c cs hsize h pos
    have hnext := (h (pos + 1)).2
    have hfirst : commentMaskFrom options file 0 pos (c :: units cs) =
        (segmentsFrom options file 0 pos (c :: cs)).map commentMask := by
      rw [commentMaskFrom, segmentsFrom, segmentAt_units hsize]
      cases segmentAt options file pos c cs with
      | error report => rfl
      | ok found =>
        have hrest := hnext found.2
        rw [Nat.zero_add] at hrest
        simp only [Except.map, bind, Except.bind, hrest, hsize, Nat.add_zero]
        cases segmentsFrom options file found.2 (pos + 1) cs with
        | error report => rfl
        | ok parts => simp [commentMask, pure, Except.pure, hsize, Nat.add_comm]
    refine ⟨hfirst, fun skip => ?_⟩
    cases skip with
    | zero => exact hfirst
    | succ skip =>
      have hrest := hnext skip
      rw [take_succ_cons, byteLength_cons, hsize, segmentsFrom, hsize, Nat.add_comm 1,
        ← Nat.add_assoc, commentMaskFrom]
      exact hrest
  · intro n cs u us hu h pos
    obtain ⟨hcode, hskip⟩ := h (pos + 1)
    rw [Nat.add_assoc, Nat.add_comm 1] at hcode hskip
    refine ⟨?_, fun skip => ?_⟩
    · rw [commentMaskFrom, segmentAt_wide hu]
      show (commentMaskFrom options file 0 (pos + 1) us >>= fun rest => .ok (false :: rest)) = _
      rw [hcode]
      cases segmentsFrom options file 0 (pos + (n + 1)) cs <;> rfl
    · rw [Nat.add_right_comm, commentMaskFrom, hskip]
  · intro c cs us hc h pos
    obtain ⟨hcode, hskip⟩ := h pos
    have hfirst : commentMaskFrom options file 0 pos us =
        (segmentsFrom options file 0 pos (c :: cs)).map commentMask := by
      rw [segmentsFrom, segmentAt_wide hc, hcode]
      simp only [bind, Except.bind]
      cases segmentsFrom options file 0 (pos + c.utf8Size) cs with
      | error report => rfl
      | ok parts => simp [Except.map, commentMask, pure, Except.pure]
    refine ⟨hfirst, fun skip => ?_⟩
    cases skip with
    | zero => exact hfirst
    | succ skip =>
      rw [Nat.zero_add, take_succ_cons, byteLength_cons, hskip, segmentsFrom]
      rfl

end Scan

/-- Comments are blanked alike on the bytes of a text and on its characters. So what comes out is
encoded text. -/
theorem preprocess_eq (options : ScanOptions) (file : Nat) (source : String) :
    preprocess options file source =
      (blankComments options file source.toList).map String.ofList := by
  have hvalid (out : List Char) :
      String.fromUTF8? (encode out).toByteArray = some (String.ofList out) := by
    have hencode : (encode out).toByteArray = (String.ofList out).toByteArray := by
      rw [String.toByteArray_ofList]
      rfl
    rw [hencode, String.fromUTF8?, dif_pos (String.isValidUTF8 _)]
    rfl
  have hscan := @commentMaskFrom_units options file source.toList 0 0
  rw [units, ← bytes_eq, take_zero, byteLength_nil] at hscan
  unfold preprocess blankComments
  dsimp only
  rw [hscan, ← segments]
  cases hparts : segments options file source.toList with
  | error report => rfl
  | ok parts =>
    have htext : parts.flatMap Segment.text = source.toList := (segments_eq_ok_iff.1 hparts).1
    simp only [Except.map, bind, Except.bind]
    rw [bytes_eq, ← htext, ← encode_flatMap_blanked, hvalid]
    rfl

end Token

end ScriptLowering
