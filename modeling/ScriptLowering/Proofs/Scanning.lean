import ScriptLowering.Pipeline
import ScriptLowering.Proofs.ParseResult

/-!
# Where the scanner puts its tokens

The tokens of a text stand one behind another and each takes room. The terminators that line
breaks become take none and stand right behind the token before, so a parse of scanned tokens
starts in order, and every parsed source has its declarations one behind another
(`ofSource_placed`).
-/

namespace ScriptLowering

variable {file pos : Nat} {tokens : List Token}

namespace Token

/-- The tokens stand one behind another in `file`, from `pos` on, and each takes room. -/
def InOrder (file : Nat) : (pos : Nat) → List Token → Prop
  | _, [] => True
  | pos, token :: tokens =>
    token.span.file = file ∧ pos ≤ token.span.start ∧ token.span.start < token.span.stop ∧
      InOrder file token.span.stop tokens

theorem InOrder.mono {pos'} (h : InOrder file pos tokens) (hpos : pos' ≤ pos) :
    InOrder file pos' tokens := by
  cases tokens with
  | nil => trivial
  | cons token tokens =>
    obtain ⟨hfile, hstart, hrest⟩ := h
    exact ⟨hfile, Nat.le_trans hpos hstart, hrest⟩

theorem InOrder.file_eq (h : InOrder file pos tokens) :
    ∀ token ∈ tokens, token.span.file = file := by
  induction tokens generalizing pos with
  | nil => simp
  | cons token tokens ih => exact List.forall_mem_cons.2 ⟨h.1, ih h.2.2.2⟩

theorem scanFrom_inOrder (file : Nat) (text : List Char) (skip pos : Nat) (newline : Bool) :
    InOrder file (pos + byteLength (text.take skip))
      (scanFrom file skip pos newline text).tokens := by
  induction text generalizing skip pos newline with
  | nil => simp [scanFrom, InOrder]
  | cons c cs ih =>
    cases skip with
    | succ skip =>
      rw [scanFrom, List.take_succ_cons, byteLength_cons, ← Nat.add_assoc]
      exact ih skip _ newline
    | zero =>
      rw [scanFrom]
      have hsize : 0 < c.utf8Size := c.utf8Size_pos
      split
      · exact (ih 0 _ _).mono (by simp)
      · have hrest := ih (lexemeAt file pos c cs).extra (pos + c.utf8Size)
        cases hkind : (lexemeAt file pos c cs).kind with
        | none =>
          simp only [hkind, Scanned.prepend, Option.map_none, Option.toList_none, List.nil_append]
          refine (hrest _).mono ?_
          simp only [List.take_zero, byteLength_nil]
          omega
        | some kind =>
          simp only [hkind, Scanned.prepend, Option.map_some, Option.toList_some,
            List.singleton_append]
          refine ⟨rfl, Nat.le_refl pos, ?_, (hrest _).mono ?_⟩
          · simp only [byteLength_cons]
            omega
          · simp only [byteLength_cons]
            omega

/-- The tokens of a source stand one behind another. -/
theorem ofSource_inOrder {options source} (h : ofSource options file source = .ok tokens) :
    InOrder file 0 tokens := by
  unfold ofSource at h
  split at h
  · contradiction
  · rename_i text hblank
    dsimp only at h
    split at h
    · obtain rfl := Except.ok.inj h
      exact scanFrom_inOrder file text 0 0 false
    · contradiction

end Token

namespace Grammar

theorem tokenAfter_fits {kind text pos'} (hkind : takesRoom kind = false) (hpos : pos ≤ pos') :
    Token.Fits file pos (tokenAfter kind text file pos') where
  file := rfl
  start := hpos
  stop := Nat.le_refl _
  room h := by simp [tokenAfter, hkind] at h

/-- A nonempty sequence of tokens, one behind another, that ends with the end of the input. -/
def ChainedList (file pos : Nat) : List Token → Prop
  | [] => False
  | token :: tokens => Chained file pos token tokens

theorem Chained.cons {token rest} (h : Token.Fits file pos token)
    (hrest : ChainedList file token.span.stop rest) : Chained file pos token rest := by
  cases rest with
  | nil => exact hrest.elim
  | cons next rest => exact ⟨h, hrest⟩

/-- Terminators come in between without disorder. -/
theorem withTerminators_chained (last : Option (Token.Kind × Nat))
    (hlast : (last.map Prod.snd).getD 0 = pos) (h : Token.InOrder file pos tokens) :
    ChainedList file pos (withTerminators file last tokens) := by
  induction tokens generalizing last pos with
  | nil =>
    have hend : Chained file pos (tokenAfter .endOfInput "" file pos) [] :=
      ⟨tokenAfter_fits rfl (Nat.le_refl pos), rfl⟩
    have hpos : (last.getD (.endOfInput, 0)).2 = pos := by
      rw [← hlast]
      cases last <;> rfl
    simp only [withTerminators, hpos]
    split
    · exact Chained.cons (tokenAfter_fits rfl (Nat.le_refl pos)) hend
    · exact hend
  | cons token tokens ih =>
    obtain ⟨hfile, hstart, hroom, htokens⟩ := h
    have hrest : Chained file pos token
        (withTerminators file (some (token.kind, token.span.stop)) tokens) :=
      Chained.cons ⟨hfile, hstart, Nat.le_of_lt hroom, fun _ => hroom⟩ (ih _ rfl htokens)
    unfold withTerminators
    cases last with
    | none => exact hrest
    | some before =>
      obtain ⟨kind, stop⟩ := before
      obtain rfl : stop = pos := hlast
      dsimp only
      split
      · exact Chained.cons (tokenAfter_fits rfl (Nat.le_refl stop)) hrest
      · exact hrest

theorem State.initial_ordered
    (h : Token.InOrder file 0 tokens) : (State.initial file tokens).Ordered file := by
  have hchain := withTerminators_chained none rfl h
  unfold State.initial
  split
  · rename_i hnil
    rw [hnil] at hchain
    exact hchain.elim
  · rename_i current ahead hcons
    rw [hcons] at hchain
    exact ⟨by simp, hchain⟩

end Grammar

open Grammar in
/-- The declarations of a parsed source stand one behind another, and the identities in them are
below the next one. -/
theorem SourceFile.ofSource_placed {options source parsed}
    (h : ofSource options file source = .ok parsed) :
    ∃ a b, b.id = parsed.nextId ∧ Strung (Placed file) (parsed.decls.map .decl) a b := by
  unfold ofSource at h
  cases htokens : Token.ofSource options file source with
  | error reports =>
    rw [htokens] at h
    cases h
  | ok tokens =>
    rw [htokens] at h
    have horder := Token.ofSource_inOrder htokens
    obtain ⟨s, hparses⟩ := parseFile_parses horder.file_eq h
    have hstrung := hparses.strung (State.initial_ordered horder)
    exact ⟨_, s.rear, hparses.nextId, hstrung.sublist Placed.local
      (List.sublist_append_right _ (parsed.decls.map TreeNode.decl))⟩

end ScriptLowering
