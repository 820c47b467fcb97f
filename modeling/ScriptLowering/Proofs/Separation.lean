import ScriptLowering.Proofs.Boundaries

/-!
# Declarations stand apart

A declaration is followed by a terminator, or by the end of the input. A terminator that is written
takes room; one that a line break becomes takes none, but then the line break stands before the next
token. So no two declarations of a parsed source touch each other (`SourceFile.decls_apart`).

What a token is followed by is known of the whole sequence (`Severed`), and what that means for the
declarations is known of the parse.
-/

namespace ScriptLowering

variable {file pos : Nat} {tokens : List Token}

/-! ## Tokens after line breaks -/

namespace Token

/-- Every token that comes after a line break stands behind the token before it, with room between
them; the token before the first one ends at `last`. -/
def Spaced : (last : Nat) → List Token → Prop
  | _, [] => True
  | last, token :: tokens =>
    (token.afterNewline = true → last < token.span.start) ∧ Spaced token.span.stop tokens

theorem scanFrom_spaced (file : Nat) (text : List Char) (skip pos : Nat) (newline : Bool) {last}
    (hlast : last ≤ pos + byteLength (text.take skip))
    (hnewline : newline = true → last < pos + byteLength (text.take skip)) :
    Spaced last (scanFrom file skip pos newline text).tokens := by
  induction text generalizing skip pos newline last with
  | nil => simp [scanFrom, Spaced]
  | cons c cs ih =>
    cases skip with
    | succ skip =>
      rw [List.take_succ_cons, byteLength_cons, ← Nat.add_assoc] at hlast hnewline
      rw [scanFrom]
      exact ih skip _ newline hlast hnewline
    | zero =>
      have hsize : 0 < c.utf8Size := c.utf8Size_pos
      simp only [List.take_zero, byteLength_nil, Nat.add_zero] at hlast hnewline
      rw [scanFrom]
      split
      · refine ih 0 _ _ ?_ ?_ <;> simp only [List.take_zero, byteLength_nil] <;> omega
      · cases hkind : (lexemeAt file pos c cs).kind with
        | none =>
          simp only [hkind, Scanned.prepend, Option.map_none, Option.toList_none, List.nil_append]
          refine ih _ _ _ ?_ ?_ <;> omega
        | some kind =>
          simp only [hkind, Scanned.prepend, Option.map_some, Option.toList_some,
            List.singleton_append]
          refine ⟨hnewline, ih _ _ _ ?_ ?_⟩
          · simp only [byteLength_cons]
            omega
          · simp

theorem ofSource_spaced {options source} (h : ofSource options file source = .ok tokens) :
    Spaced 0 tokens := by
  unfold ofSource at h
  split at h
  · contradiction
  · rename_i text hblank
    dsimp only at h
    split at h
    · obtain rfl := Except.ok.inj h
      exact scanFrom_spaced file text 0 0 false (Nat.zero_le _) (by simp)
    · contradiction

end Token

namespace Grammar

/-! ## Tokens after terminators -/

/-- A token that takes room is severed from all that comes behind it. -/
theorem Severed.cons {token rest} (hroom : token.span.start < token.span.stop)
    (hrest : ChainedList file token.span.stop rest) (h : Severed rest) :
    Severed (token :: rest) := by
  cases rest with
  | nil => trivial
  | cons next rest =>
    have hfits : token.span.stop ≤ next.span.start := (Chained.fits hrest).start
    exact ⟨fun _ => .inr (by omega), h⟩

theorem withTerminators_severed (last : Option (Token.Kind × Nat))
    (hlast : (last.map Prod.snd).getD 0 = pos) (horder : Token.InOrder file pos tokens)
    (hspaced : Token.Spaced pos tokens) : Severed (withTerminators file last tokens) := by
  induction tokens generalizing last pos with
  | nil =>
    unfold withTerminators
    dsimp only
    split
    · exact ⟨fun _ => .inl rfl, trivial⟩
    · trivial
  | cons token tokens ih =>
    obtain ⟨-, -, hroom, htokens⟩ := horder
    have hrest :
        Severed (token :: withTerminators file (some (token.kind, token.span.stop)) tokens) :=
      Severed.cons hroom (withTerminators_chained (some (token.kind, token.span.stop)) rfl htokens)
        (ih (some (token.kind, token.span.stop)) rfl htokens hspaced.2)
    unfold withTerminators
    cases last with
    | none => exact hrest
    | some before =>
      obtain ⟨kind, stop⟩ := before
      obtain rfl : stop = pos := hlast
      dsimp only
      split
      · rename_i hends
        have hbreak : token.afterNewline = true := (Bool.and_eq_true_iff.1 hends).1
        exact ⟨fun _ => .inr (hspaced.1 hbreak), hrest⟩
      · exact hrest

/-! ## Declarations -/

theorem declsApart.le_start {decls} (h : declsApart pos decls) {decl} (hdecl : decl ∈ decls) :
    pos ≤ decl.span.start := by
  induction decls generalizing pos with
  | nil => simp at hdecl
  | cons first decls ih =>
    obtain ⟨hstart, hroom, hrest⟩ := h
    rcases List.mem_cons.1 hdecl with rfl | hdecl
    · exact hstart
    · have := ih hrest hdecl
      omega

theorem declsApart.pairwise {decls} (h : declsApart pos decls) :
    decls.Pairwise fun decl decl' => decl.span.stop < decl'.span.start := by
  induction decls generalizing pos with
  | nil => exact .nil
  | cons decl decls ih => exact .cons (fun decl' hdecl' => h.2.2.le_start hdecl') (ih h.2.2)

end Grammar

open Grammar in
/-- No two declarations of a parsed source touch each other. -/
theorem SourceFile.decls_apart {options source parsed}
    (h : ofSource options file source = .ok parsed) :
    parsed.decls.Pairwise fun decl decl' => decl.span.stop < decl'.span.start := by
  rcases ofSource_eq options file source with ⟨reports, -, hfails⟩ | ⟨tokens, htokens, hparse⟩
  · rw [hfails] at h
    contradiction
  · rw [hparse] at h
    have horder := Token.ofSource_inOrder htokens
    obtain ⟨s, hparses⟩ := parseFile_parses horder.file_eq h
    obtain ⟨pos, hapart⟩ := hparses.result.shaped (State.initial_ordered horder) hparses.clean
      (withTerminators_severed none rfl horder (Token.ofSource_spaced htokens))
    exact hapart.pairwise

end ScriptLowering
