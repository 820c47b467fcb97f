import Mathlib.Data.List.Basic
import ScriptLowering.Token.Scan

/-!
# The segments of a text

A text has one cut into segments (`WellCut`): code is a single character that opens neither a
literal nor a comment, a line comment goes to the end of its line, a block comment to the first
mark that closes it, and a literal to the first mark that closes it and is not escaped. Cutting
finds that cut, and fails where there is none or where a literal is refused
(`segments_eq_ok_iff`).

So every segment is sound, and a literal closes where it ends, whatever stands behind it: the token
scanner, which meets the literal again in the blanked text, finds the same end
(`literalExtent_closes`). Blanking keeps the bytes of a text apart from the comments, and a comment
keeps its length and its line breaks.
-/

namespace ScriptLowering.Token

open List

variable {c quote : Char} {body cs rest source : List Char} {count file n pos : Nat}
  {opener : Opener} {options : ScanOptions} {segment : Segment} {parts : List Segment}

/-! ## Where a literal closes -/

/-- What may stand between two quotes: escaped characters, and such as are no backslash, no line
break and no quote. -/
inductive Quoted (quote : Char) : List Char → Prop where
  | nil : Quoted quote []
  | escaped {c : Char} {body : List Char} (rest : Quoted quote body) :
      Quoted quote ('\\' :: c :: body)
  | plain {c : Char} {body : List Char} (backslash : c ≠ '\\') (newline : c ≠ '\n')
      (other : c ≠ quote) (rest : Quoted quote body) : Quoted quote (c :: body)

theorem quotedEnd_cons (hc : c ≠ '\\') (cs : List Char) :
    quotedEnd quote (c :: cs) =
      if c == '\n' then .newline 0
      else if c == quote then .closed 1
      else (quotedEnd quote cs).map (· + 1) :=
  quotedEnd.eq_4 quote c cs (fun h => (hc h).elim) (fun _ _ h => (hc h).elim)

theorem QuotedEnd.map_eq_closed {f ending} (h : QuotedEnd.map f ending = .closed n) :
    ∃ count, ending = .closed count ∧ f count = n := by
  cases ending with
  | closed count => exact ⟨count, rfl, QuotedEnd.closed.inj h⟩
  | _ => cases h

/-- A backslash that neither ends the text nor takes a character with it is none. -/
theorem ne_backslash (hlast : c = '\\' → cs = [] → False)
    (hmore : ∀ d ds, c = '\\' → cs = d :: ds → False) : c ≠ '\\' := by
  intro hc
  cases cs with
  | nil => exact hlast hc rfl
  | cons d ds => exact hmore d ds hc rfl

theorem quoted_of_quotedEnd (h : quotedEnd quote cs = .closed n) :
    ∃ body rest, cs = body ++ quote :: rest ∧ Quoted quote body ∧ n = body.length + 1 := by
  fun_induction quotedEnd quote cs generalizing n with
  | case1 => cases h
  | case2 => cases h
  | case3 c cs ih =>
    obtain ⟨count, hend, rfl⟩ := QuotedEnd.map_eq_closed h
    obtain ⟨body, rest, rfl, hbody, rfl⟩ := ih hend
    exact ⟨'\\' :: c :: body, rest, rfl, .escaped hbody, rfl⟩
  | case4 => cases h
  | case5 c cs hlast hmore hline hquote =>
    obtain rfl := QuotedEnd.closed.inj h
    obtain rfl := eq_of_beq hquote
    exact ⟨[], cs, rfl, .nil, rfl⟩
  | case6 c cs hlast hmore hline hquote ih =>
    obtain ⟨count, hend, rfl⟩ := QuotedEnd.map_eq_closed h
    obtain ⟨body, rest, rfl, hbody, rfl⟩ := ih hend
    exact ⟨c :: body, rest, rfl, .plain (ne_backslash hlast hmore) (by simpa using hline)
      (by simpa using hquote) hbody, rfl⟩

/-- A quoted literal closes at the quote behind its body: what follows has no say. -/
theorem Quoted.quotedEnd_eq (h : Quoted quote body)
    (hbackslash : quote ≠ '\\') (hnewline : quote ≠ '\n') (rest : List Char) :
    quotedEnd quote (body ++ quote :: rest) = .closed (body.length + 1) := by
  induction h with
  | nil =>
    rw [nil_append, quotedEnd_cons hbackslash]
    simp [hnewline]
  | escaped _ ih =>
    rw [cons_append, cons_append, quotedEnd, ih]
    rfl
  | plain hc hline hother _ ih =>
    rw [cons_append, quotedEnd_cons hc, if_neg (by simpa using hline),
      if_neg (by simpa using hother), ih]
    rfl

/-- What may stand between an opening mark and the one that closes the literal. -/
def Opener.Encloses (opener : Opener) (body : List Char) : Prop :=
  match opener with
  | .doubleQuote | .singleQuote => Quoted opener.char body
  | .backtick => opener.char ∉ body

theorem quotedExtent_eq_ok_iff {what} :
    quotedExtent file pos what quote cs = .ok count ↔ quotedEnd quote cs = .closed count := by
  unfold quotedExtent
  cases quotedEnd quote cs <;> simp

/-- A run of characters ends where its class does. -/
theorem takeWhile_append_eq {p} (hbody : ∀ c ∈ body, p c = true)
    (hrest : ∀ c ∈ rest.head?, p c = false) : (body ++ rest).takeWhile p = body := by
  rw [takeWhile_append_of_pos hbody]
  cases rest with
  | nil => simp
  | cons c rest => simp [hrest c rfl]

/-- A literal closes at the first mark that its body does not hold. -/
theorem literalExtent_eq_ok_iff :
    literalExtent file pos opener cs = .ok count ↔
      ∃ body rest, cs = body ++ opener.char :: rest ∧ opener.Encloses body ∧
        count = body.length + 1 := by
  have hquoted {what : QuotedClass} (hbackslash : opener.char ≠ '\\')
      (hnewline : opener.char ≠ '\n') :
      quotedExtent file pos what opener.char cs = .ok count ↔
        ∃ body rest, cs = body ++ opener.char :: rest ∧ Quoted opener.char body ∧
          count = body.length + 1 := by
    rw [quotedExtent_eq_ok_iff]
    constructor
    · exact quoted_of_quotedEnd
    · rintro ⟨body, rest, rfl, hbody, rfl⟩
      exact hbody.quotedEnd_eq hbackslash hnewline rest
  cases opener with
  | doubleQuote => exact hquoted (by decide) (by decide)
  | singleQuote => exact hquoted (by decide) (by decide)
  | backtick =>
    unfold literalExtent Opener.Encloses
    dsimp only
    have htake {body rest : List Char} (hbody : Opener.backtick.char ∉ body) :
        (body ++ Opener.backtick.char :: rest).takeWhile (· != Opener.backtick.char) = body :=
      takeWhile_append_eq (fun c hc => by simpa using ne_of_mem_of_not_mem hc hbody) (by simp)
    constructor
    · intro h
      split at h
      · rename_i hmark
        obtain ⟨body, rest, rfl, hbody⟩ := eq_append_cons_of_mem hmark
        rw [htake hbody] at h
        exact ⟨body, rest, rfl, hbody, (Except.ok.inj h).symm⟩
      · contradiction
    · rintro ⟨body, rest, rfl, hbody, rfl⟩
      rw [if_pos (by simp), htake hbody]

/-- A literal with this opening mark ends with `body`, whatever stands behind it. -/
def Opener.Closes (opener : Opener) (body : List Char) : Prop :=
  ∀ (file pos : Nat) (rest : List Char),
    literalExtent file pos opener (body ++ rest) = .ok body.length

theorem Opener.Encloses.closes (h : opener.Encloses body) :
    opener.Closes (body ++ [opener.char]) := by
  intro file pos rest
  exact literalExtent_eq_ok_iff.2 ⟨body, rest, by simp, h, by simp⟩

theorem Opener.ofChar?_eq_some_iff : Opener.ofChar? c = some opener ↔ c = opener.char := by
  constructor
  · intro h
    unfold Opener.ofChar? at h
    repeat' split at h
    all_goals simp_all
  · rintro rfl
    cases opener <;> rfl

/-! ## The cut of a text -/

/-- A comment begins here. -/
def OpensComment (cs : List Char) : Prop := ['/', '/'] <+: cs ∨ ['/', '*'] <+: cs

/-- The segment stands at the beginning of a text that goes on with `rest`. -/
def Segment.Heads (segment : Segment) (rest : List Char) : Prop :=
  match segment.role with
  | .code => ∃ c, segment.text = [c] ∧ Opener.ofChar? c = none ∧ ¬ OpensComment (c :: rest)
  | .comment =>
    (∃ body, segment.text = '/' :: '/' :: body ∧ '\n' ∉ body ∧
      ∀ c ∈ rest.head?, c = '\n') ∨
    ∃ body, segment.text = '/' :: '*' :: (body ++ ['*', '/']) ∧
      ¬ ['*', '/'] <:+: body ++ ['*']
  | .literal => ∃ opener body, segment.text = Opener.char opener :: (body ++ [opener.char]) ∧
      opener.Encloses body

/-- Each segment stands at the beginning of the text that is left. -/
def WellCut : List Segment → Prop
  | [] => True
  | part :: parts => part.Heads (parts.flatMap Segment.text) ∧ WellCut parts

/-- No literal holds what opens a comment. -/
def CommentFree (parts : List Segment) : Prop :=
  ∀ part ∈ parts, part.role = .literal → hasCommentOpener part.text = false

theorem opensComment_iff :
    OpensComment (c :: cs) ↔ c = '/' ∧ (cs.head? = some '/' ∨ cs.head? = some '*') := by
  cases cs <;> simp [OpensComment, cons_prefix_cons, eq_comm, and_or_left]

theorem hasCommentOpener_iff :
    hasCommentOpener cs = true ↔ ['/', '/'] <:+: cs ∨ ['/', '*'] <:+: cs := by
  fun_induction hasCommentOpener cs with
  | case1 cs => simp [infix_cons_iff]
  | case2 cs => simp [infix_cons_iff]
  | case3 c cs hline hblock ih =>
    have hfirst : ¬ OpensComment (c :: cs) := by
      rintro (⟨rest, h⟩ | ⟨rest, h⟩)
      · exact hline rest (cons.inj h).1.symm (cons.inj h).2.symm
      · exact hblock rest (cons.inj h).1.symm (cons.inj h).2.symm
    unfold OpensComment at hfirst
    rw [infix_cons_iff, infix_cons_iff, ih]
    tauto
  | case4 => simp

/-- A block comment closes at the first `*/`. -/
theorem blockCommentEnd?_eq_some_iff :
    blockCommentEnd? cs = some n ↔
      ∃ body rest, cs = body ++ '*' :: '/' :: rest ∧ ¬ ['*', '/'] <:+: body ++ ['*'] ∧
        n = body.length + 2 := by
  fun_induction blockCommentEnd? cs generalizing n with
  | case1 cs =>
    constructor
    · rintro ⟨⟩
      exact ⟨[], cs, rfl, by decide, rfl⟩
    · rintro ⟨body, rest, hcs, hbody, rfl⟩
      rcases body with _ | ⟨c, _ | ⟨d, body⟩⟩
      · rfl
      · simp at hcs
      · obtain ⟨rfl, rfl, -⟩ : '*' = c ∧ '/' = d ∧ cs = body ++ '*' :: '/' :: rest := by
          simpa using hcs
        exact absurd ⟨[], body ++ ['*'], rfl⟩ hbody
  | case2 c cs hclose ih =>
    simp only [Option.map_eq_some_iff, ih]
    constructor
    · rintro ⟨n, ⟨body, rest, rfl, hbody, rfl⟩, rfl⟩
      refine ⟨c :: body, rest, rfl, ?_, rfl⟩
      rw [cons_append, infix_cons_iff]
      rintro (⟨tail, hprefix⟩ | hinfix)
      · obtain ⟨rfl, htail⟩ := cons.inj hprefix
        cases body with
        | nil => simp at htail
        | cons d body => exact hclose _ rfl (by rw [(cons.inj htail).1]; rfl)
      · exact hbody hinfix
    · rintro ⟨body, rest, hcs, hbody, rfl⟩
      cases body with
      | nil =>
        obtain ⟨rfl, rfl⟩ := cons.inj hcs
        exact absurd rfl (hclose rest rfl)
      | cons d body =>
        obtain ⟨rfl, rfl⟩ := cons.inj hcs
        exact ⟨body.length + 2, ⟨body, rest, rfl, fun h => hbody (infix_cons h), rfl⟩, rfl⟩
  | case3 => simp

/-- The segment that is found stands at the beginning of the text. A literal that holds what opens
a comment is refused when literals are strict. -/
theorem heads_of_segmentAt {role} (h : segmentAt options file pos c cs = .ok (role, count)) :
    ∃ body rest, cs = body ++ rest ∧ count = body.length ∧ Segment.Heads ⟨role, c :: body⟩ rest ∧
      (options.strictLiterals = true → CommentFree [⟨role, c :: body⟩]) := by
  unfold segmentAt at h
  split at h
  · rename_i tail
    obtain ⟨rfl, rfl⟩ := Prod.mk.inj (Except.ok.inj h)
    refine ⟨('/' :: tail).takeWhile (· != '\n'), ('/' :: tail).dropWhile (· != '\n'),
      takeWhile_append_dropWhile.symm, rfl, .inl ⟨tail.takeWhile (· != '\n'), rfl, ?_, ?_⟩,
      by simp [CommentFree]⟩
    · intro hmem
      simpa using all_eq_true.1 all_takeWhile _ hmem
    · intro d hd
      have hnot := head?_dropWhile_not (· != '\n') ('/' :: tail)
      rw [Option.mem_def.1 hd] at hnot
      simpa using hnot
  · rename_i tail
    split at h
    · rename_i n hn
      obtain ⟨rfl, rfl⟩ := Prod.mk.inj (Except.ok.inj h)
      obtain ⟨body, rest, rfl, hbody, rfl⟩ := blockCommentEnd?_eq_some_iff.1 hn
      exact ⟨'*' :: (body ++ ['*', '/']), rest, by simp, by simp, .inr ⟨body, rfl, hbody⟩,
        by simp [CommentFree]⟩
    · contradiction
  · rename_i hline hblock
    split at h
    · rename_i hopener
      obtain ⟨rfl, rfl⟩ := Prod.mk.inj (Except.ok.inj h)
      refine ⟨[], cs, rfl, rfl, ⟨c, rfl, hopener, ?_⟩, by simp [CommentFree]⟩
      rintro (⟨tail, htail⟩ | ⟨tail, htail⟩)
      · exact hline tail (cons.inj htail).1.symm (cons.inj htail).2.symm
      · exact hblock tail (cons.inj htail).1.symm (cons.inj htail).2.symm
    · rename_i opener hopener
      cases hextent : literalExtent file pos opener cs with
      | error report => simp [hextent, bind, Except.bind] at h
      | ok extent =>
        simp only [hextent, bind, Except.bind, pure, Except.pure] at h
        split at h
        · contradiction
        · rename_i hfree
          obtain ⟨rfl, rfl⟩ := Prod.mk.inj (Except.ok.inj h)
          obtain ⟨body, rest, rfl, hbody, rfl⟩ := literalExtent_eq_ok_iff.1 hextent
          obtain rfl := Opener.ofChar?_eq_some_iff.1 hopener
          refine ⟨body ++ [opener.char], rest, by simp, by simp, ⟨opener, body, rfl, hbody⟩, ?_⟩
          have htake :
              (body ++ opener.char :: rest).take (body.length + 1) = body ++ [opener.char] := by
            rw [← singleton_append, ← append_assoc]
            exact take_left' (by simp)
          simpa [CommentFree, htake] using hfree

/-- What stands at the beginning of the text is found. -/
theorem segmentAt_of_heads {role} (hheads : Segment.Heads ⟨role, c :: body⟩ rest)
    (hfree : options.strictLiterals = true → CommentFree [⟨role, c :: body⟩]) :
    segmentAt options file pos c (body ++ rest) = .ok (role, body.length) := by
  cases role with
  | code =>
    obtain ⟨d, hd, hopener, hcomment⟩ := hheads
    obtain ⟨rfl, rfl⟩ := cons.inj hd
    rw [nil_append]
    unfold segmentAt
    split
    · exact absurd (.inl ⟨_, rfl⟩) hcomment
    · exact absurd (.inr ⟨_, rfl⟩) hcomment
    · rw [hopener]
      rfl
  | comment =>
    rcases hheads with ⟨line, htext, hline, hrest⟩ | ⟨block, htext, hblock⟩
    · obtain ⟨rfl, rfl⟩ := cons.inj htext
      show Except.ok (Role.comment, _) = _
      rw [takeWhile_append_eq]
      · intro d hd
        rcases mem_cons.1 hd with rfl | hd
        · rfl
        · exact bne_iff_ne.2 (ne_of_mem_of_not_mem hd hline)
      · intro d hd
        simp [hrest d hd]
    · obtain ⟨rfl, rfl⟩ := cons.inj htext
      have hend : blockCommentEnd? (block ++ ['*', '/'] ++ rest) = some (block.length + 2) :=
        blockCommentEnd?_eq_some_iff.2 ⟨block, rest, by simp, hblock, rfl⟩
      simp only [segmentAt, cons_append, hend]
      simp
  | literal =>
    obtain ⟨opener, inner, htext, hinner⟩ := hheads
    obtain ⟨rfl, rfl⟩ := cons.inj htext
    have hextent : literalExtent file pos opener (inner ++ [opener.char] ++ rest) =
        .ok (inner.length + 1) := literalExtent_eq_ok_iff.2 ⟨inner, rest, by simp, hinner, rfl⟩
    have htake : (inner ++ [opener.char] ++ rest).take (inner.length + 1) =
        inner ++ [opener.char] := take_left' (by simp)
    have hopener : Opener.ofChar? opener.char = some opener := Opener.ofChar?_eq_some_iff.2 rfl
    unfold segmentAt
    split
    · cases opener <;> contradiction
    · cases opener <;> contradiction
    · simp only [hopener, hextent, htake, bind, Except.bind, pure, Except.pure]
      rw [if_neg]
      · simp
      · simpa [CommentFree] using hfree

theorem Segment.Heads.text_ne_nil (h : segment.Heads rest) : segment.text ≠ [] := by
  unfold Heads at h
  split at h
  · obtain ⟨c, htext, -⟩ := h
    simp [htext]
  · rcases h with ⟨body, htext, -⟩ | ⟨body, htext, -⟩ <;> simp [htext]
  · obtain ⟨opener, body, htext, -⟩ := h
    simp [htext]

theorem commentFree_cons {part} :
    CommentFree (part :: parts) ↔ CommentFree [part] ∧ CommentFree parts := by
  simp [CommentFree]

theorem segmentsFrom_cons_eq_ok_iff :
    segmentsFrom options file 0 pos (c :: cs) = .ok parts ↔
      ∃ role count rest, segmentAt options file pos c cs = .ok (role, count) ∧
        segmentsFrom options file count (pos + c.utf8Size) cs = .ok rest ∧
        ⟨role, c :: cs.take count⟩ :: rest = parts := by
  rw [segmentsFrom]
  cases segmentAt options file pos c cs with
  | error report => simp [bind, Except.bind]
  | ok found =>
    obtain ⟨role, count⟩ := found
    cases hrest : segmentsFrom options file count (pos + c.utf8Size) cs with
    | error report => simp_all [bind, Except.bind]
    | ok rest => simp_all [bind, Except.bind, pure, Except.pure]

/-- Cutting the text behind the skipped characters finds its cut, if literals are not refused. -/
theorem segmentsFrom_eq_ok_iff {skip} : segmentsFrom options file skip pos source = .ok parts ↔
      parts.flatMap Segment.text = source.drop skip ∧ WellCut parts ∧
        (options.strictLiterals = true → CommentFree parts) := by
  induction source generalizing skip pos parts with
  | nil =>
    have hnil : segmentsFrom options file skip pos [] = .ok [] := by cases skip <;> rfl
    rw [hnil, drop_nil]
    constructor
    · rintro ⟨⟩
      exact ⟨rfl, trivial, by simp [CommentFree]⟩
    · rintro ⟨htext, hcut, -⟩
      cases parts with
      | nil => rfl
      | cons part parts => exact absurd (append_eq_nil_iff.1 htext).1 hcut.1.text_ne_nil
  | cons c cs ih =>
    cases skip with
    | succ skip =>
      rw [segmentsFrom, ih]
      rfl
    | zero =>
      rw [segmentsFrom_cons_eq_ok_iff, drop_zero]
      constructor
      · rintro ⟨role, count, rest, hat, hrest, rfl⟩
        obtain ⟨body, tail, rfl, rfl, hheads, hfree⟩ := heads_of_segmentAt hat
        obtain ⟨htext, hcut, hfrees⟩ := ih.1 hrest
        rw [drop_left] at htext
        subst htext
        rw [take_left]
        refine ⟨rfl, ⟨hheads, hcut⟩, fun hstrict => ?_⟩
        exact commentFree_cons.2 ⟨hfree hstrict, hfrees hstrict⟩
      · rintro ⟨htext, hcut, hfree⟩
        cases parts with
        | nil => contradiction
        | cons part parts =>
          obtain ⟨role, text⟩ := part
          obtain ⟨d, body, rfl⟩ := exists_cons_of_ne_nil hcut.1.text_ne_nil
          rw [flatMap_cons, cons_append] at htext
          obtain ⟨rfl, rfl⟩ := cons.inj htext
          refine ⟨role, body.length, parts, ?_, ih.2 ?_, ?_⟩
          · exact segmentAt_of_heads hcut.1 fun hstrict => (commentFree_cons.1 (hfree hstrict)).1
          · rw [drop_left]
            exact ⟨rfl, hcut.2, fun hstrict => (commentFree_cons.1 (hfree hstrict)).2⟩
          · rw [take_left]


/-- A text has one cut into segments, and cutting finds it, if literals are not refused. -/
theorem segments_eq_ok_iff :
    segments options file source = .ok parts ↔
      parts.flatMap Segment.text = source ∧ WellCut parts ∧
        (options.strictLiterals = true → CommentFree parts) :=
  segmentsFrom_eq_ok_iff

/-! ## Sound segments -/

/-- What a segment is known by. Little is asked of a comment: it is blanked as a whole. -/
def Segment.Sound (segment : Segment) : Prop :=
  match segment.role with
  | .code => ∃ c, segment.text = [c] ∧ Opener.ofChar? c = none
  | .comment => segment.text ≠ []
  | .literal => ∃ c body opener, segment.text = c :: body ∧ Opener.ofChar? c = some opener ∧
      opener.Closes body

theorem Segment.Heads.sound (h : segment.Heads rest) : segment.Sound := by
  obtain ⟨role, text⟩ := segment
  cases role with
  | code =>
    obtain ⟨c, htext, hopener, -⟩ := h
    exact ⟨c, htext, hopener⟩
  | comment => exact h.text_ne_nil
  | literal =>
    obtain ⟨opener, body, htext, hbody⟩ := h
    exact ⟨opener.char, _, opener, htext, Opener.ofChar?_eq_some_iff.2 rfl, hbody.closes⟩

theorem WellCut.sound (h : WellCut parts) : ∀ part ∈ parts, part.Sound := by
  induction parts with
  | nil => simp
  | cons part parts ih => exact forall_mem_cons.2 ⟨h.1.sound, ih h.2⟩

/-- Every segment that a cut makes is sound, and together they are the text. -/
theorem segments_sound (h : segments options file source = .ok parts) :
    parts.flatMap Segment.text = source ∧ ∀ part ∈ parts, part.Sound :=
  ⟨(segments_eq_ok_iff.1 h).1, (segments_eq_ok_iff.1 h).2.1.sound⟩

theorem blankComments_eq_ok_iff {out} : blankComments options file source = .ok out ↔
      ∃ parts, segments options file source = .ok parts ∧ parts.flatMap Segment.blanked = out := by
  unfold blankComments
  cases segments options file source <;> simp [Except.map]

/-! ## Blanking -/

namespace Segment

theorem blanked_of_role_ne (h : segment.role ≠ .comment) : segment.blanked = segment.text := by
  unfold blanked
  cases hrole : segment.role with
  | comment => exact absurd hrole h
  | code => rfl
  | literal => rfl

theorem flatMap_blanked (h : ∀ part ∈ parts, part.role ≠ .comment) :
    parts.flatMap blanked = parts.flatMap text := by
  induction parts with
  | nil => rfl
  | cons part parts ih =>
    obtain ⟨hpart, hparts⟩ := forall_mem_cons.mp h
    rw [flatMap_cons, flatMap_cons, blanked_of_role_ne hpart, ih hparts]

/-- Blanking a segment keeps its number of bytes. -/
theorem byteLength_blanked (segment : Segment) :
    byteLength segment.blanked = byteLength segment.text := by
  have hcs : ∀ cs : List Char, byteLength
      (cs.flatMap fun c => if c == '\n' then [c] else Source.spaces c) = byteLength cs := by
    intro cs
    induction cs with
    | nil => rfl
    | cons c cs ih =>
      rw [flatMap_cons, byteLength_append, byteLength_cons, ih]
      split
      · simp
      · rw [Source.byteLength_spaces]
  unfold blanked
  cases segment.role with
  | comment => exact hcs segment.text
  | code => rfl
  | literal => rfl

theorem byteLength_flatMap_blanked (parts : List Segment) :
    byteLength (parts.flatMap blanked) = byteLength (parts.flatMap text) := by
  induction parts with
  | nil => rfl
  | cons part parts ih =>
    rw [flatMap_cons, flatMap_cons, byteLength_append, byteLength_append, ih,
      byteLength_blanked]

/-- A blanked comment holds blanks only. -/
theorem isBlank_of_mem_blanked (h : segment.role = .comment)
    (hc : c ∈ segment.blanked) : Source.isBlank c = true := by
  unfold blanked at hc
  rw [h] at hc
  obtain ⟨d, -, hd⟩ := mem_flatMap.mp hc
  split at hd
  · rename_i hline
    rw [mem_singleton.mp hd, eq_of_beq hline]
    rfl
  · rw [eq_of_mem_replicate hd]
    rfl

/-- Blanking keeps line breaks, and brings none in. -/
theorem newline_mem_blanked (segment : Segment) : '\n' ∈ segment.blanked ↔ '\n' ∈ segment.text := by
  unfold blanked
  cases segment.role with
  | code => exact Iff.rfl
  | literal => exact Iff.rfl
  | comment =>
    rw [mem_flatMap]
    constructor
    · rintro ⟨c, hc, hin⟩
      split at hin
      · rwa [mem_singleton.mp hin]
      · exact absurd (eq_of_mem_replicate hin) (by decide)
    · intro hline
      exact ⟨'\n', hline, by simp⟩

end Segment

end ScriptLowering.Token
