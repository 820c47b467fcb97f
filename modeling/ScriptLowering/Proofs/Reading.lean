import Mathlib.Order.Defs.PartialOrder
import ScriptLowering.Grammar.Parse

/-!
# Tokens one behind another

Where the tokens of a parse stand one behind another (`State.Ordered`), a step moves forward only
(`State.After`), and one that reads a token covers it (`State.Past`).
-/

namespace ScriptLowering.Grammar

/-- Only a terminator and the end of the input may take no room. -/
def takesRoom : Token.Kind → Bool
  | .semicolon | .endOfInput => false
  | _ => true

/-- The token lies in `file`, not before `pos`. -/
structure Token.Fits (file pos : Nat) (token : Token) : Prop where
  file : token.span.file = file
  start : pos ≤ token.span.start
  stop : token.span.start ≤ token.span.stop
  room : takesRoom token.kind → token.span.start < token.span.stop

/-- The tokens stand one behind another from `pos` on, and the last one is the end of the
input. -/
def Chained (file : Nat) : (pos : Nat) → Token → List Token → Prop
  | pos, token, [] => Token.Fits file pos token ∧ token.kind = .endOfInput
  | pos, token, next :: rest =>
    Token.Fits file pos token ∧ Chained file token.span.stop next rest

theorem Chained.fits {file pos token rest} (h : Chained file pos token rest) :
    Token.Fits file pos token := by
  cases rest with
  | nil => exact h.1
  | cons next rest => exact h.1

namespace State

/-- The offset up to which the text is read. -/
def passed (s : State) : Nat := (s.before.map Span.stop).getD 0

/-- The offset at which the current token starts. -/
def start (s : State) : Nat := s.current.span.start

/-- What was read and what is ahead stand one behind another in `file`. -/
structure Ordered (file : Nat) (s : State) : Prop where
  before : ∀ span ∈ s.before, span.file = file ∧ span.start ≤ span.stop
  tokens : Chained file s.passed s.current s.ahead

/-- `s'` is reached from `s` by reading on. -/
structure After (file : Nat) (s s' : State) : Prop where
  ordered : s'.Ordered file
  passed : s.passed ≤ s'.passed
  start : s.start ≤ s'.start
  stop : s.current.span.stop ≤ s'.current.span.stop
  nextId : s.nextId ≤ s'.nextId
  last : ∀ span ∈ s.before, ∃ span' ∈ s'.before, span.start ≤ span'.start

/-- `s'` is reached from `s` by reading at least the current token, which takes room. -/
structure Past (file : Nat) (s s' : State) : Prop extends After file s s' where
  covered : ∃ span ∈ s'.before, s.start ≤ span.start ∧ s.current.span.stop ≤ span.stop ∧
    s.start < span.stop

variable {file : Nat} {s s1 s2 : State}

theorem Ordered.passed_le (h : s.Ordered file) : s.passed ≤ s.start := h.tokens.fits.start

theorem Ordered.after (h : s.Ordered file) : After file s s where
  ordered := h
  passed := Nat.le_refl _
  start := Nat.le_refl _
  stop := Nat.le_refl _
  nextId := Nat.le_refl _
  last span hspan := ⟨span, hspan, Nat.le_refl _⟩

theorem After.trans (h1 : After file s s1) (h2 : After file s1 s2) : After file s s2 where
  ordered := h2.ordered
  passed := Nat.le_trans h1.passed h2.passed
  start := Nat.le_trans h1.start h2.start
  stop := Nat.le_trans h1.stop h2.stop
  nextId := Nat.le_trans h1.nextId h2.nextId
  last span hspan := by
    obtain ⟨span1, hspan1, hle1⟩ := h1.last span hspan
    obtain ⟨span2, hspan2, hle2⟩ := h2.last span1 hspan1
    exact ⟨span2, hspan2, Nat.le_trans hle1 hle2⟩

theorem passed_of_mem {span} (h : span ∈ s.before) : s.passed = span.stop := by
  simp [passed, Option.mem_def.1 h]

theorem Past.then (h1 : Past file s s1) (h2 : After file s1 s2) : Past file s s2 where
  toAfter := h1.toAfter.trans h2
  covered := by
    obtain ⟨span1, hspan1, hstart, hstop, hroom⟩ := h1.covered
    obtain ⟨span2, hspan2, hle⟩ := h2.last span1 hspan1
    have hpassed := h2.passed
    rw [passed_of_mem hspan1, passed_of_mem hspan2] at hpassed
    exact ⟨span2, hspan2, by omega, by omega, by omega⟩

theorem After.past (h1 : After file s s1) (h2 : Past file s1 s2) : Past file s s2 where
  toAfter := h1.trans h2.toAfter
  covered := by
    obtain ⟨span, hspan, hstart, hstop, hroom⟩ := h2.covered
    have := h1.start
    have := h1.stop
    exact ⟨span, hspan, by omega, by omega, by omega⟩

/-- A step past some token leaves off behind its start. -/
theorem Past.start_lt (h : Past file s s1) : s.start < s1.passed := by
  obtain ⟨span, hspan, -, -, hroom⟩ := h.covered
  rwa [passed_of_mem hspan]

/-- Reading on never goes back. -/
theorem Ordered.advanced (h : s.Ordered file) : After file s s.advanced := by
  obtain ⟨hbefore, htokens⟩ := h
  cases hahead : s.ahead with
  | nil =>
    have hstay : s.advanced = s := by simp [State.advanced, hahead]
    rw [hstay]
    exact Ordered.after ⟨hbefore, htokens⟩
  | cons next rest =>
    rw [hahead] at htokens
    obtain ⟨hfits, hrest⟩ := htokens
    have hnext := hrest.fits
    have hmoved : s.advanced =
        { s with before := some s.current.span, current := next, ahead := rest } := by
      simp [State.advanced, hahead]
    rw [hmoved]
    have hstop := hfits.stop
    refine ⟨⟨?_, by simpa [passed] using hrest⟩, ?_, ?_, ?_, Nat.le_refl _, ?_⟩
    · rintro span ⟨⟩
      exact ⟨hfits.file, hstop⟩
    · have := hfits.start
      simp only [passed, Option.map_some, Option.getD_some] at this ⊢
      omega
    · have := hnext.start
      simp only [start]
      omega
    · have := hnext.start
      have := hnext.stop
      simp only
      omega
    · intro span hspan
      have := hfits.start
      have := (hbefore span hspan).2
      rw [passed_of_mem hspan] at *
      exact ⟨s.current.span, rfl, by omega⟩

/-- The token read last, after one that takes room was read. -/
theorem Ordered.before_advanced (h : s.Ordered file) (hroom : takesRoom s.current.kind) :
    s.advanced.before = some s.current.span := by
  cases hahead : s.ahead with
  | nil =>
    have htokens := h.tokens
    rw [hahead] at htokens
    rw [htokens.2] at hroom
    contradiction
  | cons next rest => simp [State.advanced, hahead]

theorem Ordered.advanced_past (h : s.Ordered file) (hroom : takesRoom s.current.kind) :
    Past file s s.advanced where
  toAfter := h.advanced
  covered := ⟨s.current.span, h.before_advanced hroom, Nat.le_refl _, Nat.le_refl _,
    h.tokens.fits.room hroom⟩

/-- A step that reads no token and gives no identity back. -/
theorem Ordered.after_same {s'} (h : s.Ordered file) (hbefore : s'.before = s.before)
    (hcurrent : s'.current = s.current) (hahead : s'.ahead = s.ahead) (hid : s.nextId ≤ s'.nextId) :
    After file s s' := by
  have hpassed : s'.passed = s.passed := by rw [passed, passed, hbefore]
  refine ⟨⟨?_, ?_⟩, ?_, ?_, ?_, hid, ?_⟩
  · rw [hbefore]
    exact h.before
  · rw [hpassed, hcurrent, hahead]
    exact h.tokens
  · simp [hpassed]
  · simp [start, hcurrent]
  · simp [hcurrent]
  · rw [hbefore]
    exact fun span hspan => ⟨span, hspan, Nat.le_refl _⟩

end State

/-! ## Points of a parse -/

/-- A point of a parse: an offset of the text, and the next identity that is free. -/
structure Mark where
  offset : Nat
  id : NodeId

instance : Preorder Mark where
  le a b := a.offset ≤ b.offset ∧ a.id ≤ b.id
  le_refl _ := ⟨Nat.le_refl _, Nat.le_refl _⟩
  le_trans _ _ _ h₁ h₂ := ⟨Nat.le_trans h₁.1 h₂.1, Nat.le_trans h₁.2 h₂.2⟩

namespace State

/-- Where the next token starts. -/
def front (s : State) : Mark := ⟨s.start, s.nextId⟩

/-- Where the last token ended. -/
def rear (s : State) : Mark := ⟨s.passed, s.nextId⟩

variable {file : Nat} {s s' : State}

theorem Ordered.rear_le_front (h : s.Ordered file) : s.rear ≤ s.front :=
  ⟨h.passed_le, Nat.le_refl _⟩

theorem After.rear_le (h : After file s s') : s.rear ≤ s'.rear := ⟨h.passed, h.nextId⟩

theorem After.front_le (h : After file s s') : s.front ≤ s'.front := ⟨h.start, h.nextId⟩

end State

end ScriptLowering.Grammar
