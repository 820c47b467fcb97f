import ScriptLowering.Proofs.Nodes
import ScriptLowering.Proofs.Progress

/-!
# What a rule has read

A rule goes on past whatever it cannot read, and says something about its tree only where nothing
was reported. `Reading` follows it through both: from the token where it began, the nodes read so
far have spans merged from tokens; and if the tokens stand one behind another and nothing was
reported, then so do the nodes. It also counts the fuel that is left for the rules it calls: every
token that is read for sure gives room for 16 calls more.

A rule is stated once, as `Gathers`: it ends, and gives the nodes of its result.
-/

namespace ScriptLowering.Grammar

open List

variable {kinds : List Token.Kind} {c : Prop}

variable {α β : Type} {file fuel rank room room' : Nat} {buffer : List Token}
  {past past' goal : Bool} {s₀ s s' : State} {nodes new : List TreeNode} {node : TreeNode}
  {parts : α → List TreeNode} {shape : α → Prop}

/-! ## Nodes on the way -/

/-- `s'` is reached from `s` by reading on; where `past` says so, a token that takes room was
read. -/
structure Moved (file : Nat) (past : Bool) (s s' : State) : Prop where
  after : s.After file s'
  past : past = true → s.Past file s'

theorem Moved.of_after (h : s.After file s') : Moved file false s s' := ⟨h, by simp⟩

theorem Moved.of_past (h : s.Past file s') : Moved file past s s' := ⟨h.toAfter, fun _ => h⟩

theorem Moved.trans {s1} (h : Moved file past s s1) (h' : Moved file past' s1 s') :
    Moved file (past || past') s s' where
  after := h.after.trans h'.after
  past hpast := by
    rcases Bool.or_eq_true_iff.1 hpast with hpast | hpast
    · exact (h.past hpast).then h'.after
    · exact h.after.past (h'.past hpast)

/-- These nodes were read on the way from `s₀` to `s`. -/
structure Gathered (file : Nat) (buffer : List Token) (past : Bool) (s₀ : State)
    (nodes : List TreeNode) (s : State) : Prop where
  grown : ∀ node ∈ nodes, node.Grown (Merged buffer)
  moved : s₀.Ordered file → s.reports = [] → Moved file past s₀ s
  strung : s₀.Ordered file → s.reports = [] → Strung (Placed file) nodes s₀.front s.rear

/-- A state at the same place, where a rule leaves off. -/
theorem Gathered.same (h : Gathered file buffer past s₀ nodes s) (hbefore : s'.before = s.before)
    (hcurrent : s'.current = s.current) (hahead : s'.ahead = s.ahead) (hid : s'.nextId = s.nextId)
    (hreports : s'.reports = s.reports) : Gathered file buffer past s₀ nodes s' where
  grown := h.grown
  moved hordered hclean := by
    have hmoved := h.moved hordered (hreports ▸ hclean)
    have hafter := hmoved.after.ordered.after_same hbefore hcurrent hahead (Nat.le_of_eq hid.symm)
    exact ⟨hmoved.after.trans hafter, fun hpast => (hmoved.past hpast).then hafter⟩
  strung hordered hclean := by
    have hstrung := h.strung hordered (hreports ▸ hclean)
    unfold State.rear State.passed at *
    rwa [hbefore, hid]

/-- The children of the last node in its place. -/
theorem Gathered.inner (nodes : List TreeNode)
    (h : Gathered file buffer past s₀ (nodes ++ [node]) s) :
    Gathered file buffer past s₀ (nodes ++ node.children) s where
  grown := by
    obtain ⟨hnodes, hnode⟩ := forall_mem_append.1 h.grown
    obtain ⟨-, hchildren⟩ := hnode node (mem_singleton_self _)
    exact forall_mem_append.2 ⟨hnodes, hchildren⟩
  moved := h.moved
  strung hordered hclean := by simpa using (h.strung hordered hclean).unfold nodes

/-- What a rule that began at `s₀` gives when it leaves off at `s`: the nodes of the result are the
ones that were read, and its shape is as said if nothing was reported. -/
structure Gains (file : Nat) (buffer : List Token) (past : Bool) (s₀ : State)
    (parts : α → List TreeNode) (shape : α → Prop) (a : α) (s : State) : Prop extends
    Gathered file buffer past s₀ (parts a) s where
  shaped : s₀.Ordered file → s.reports = [] → shape a

/-- A rule ends wherever it begins, if its rank fits into the fuel, and gives the nodes `parts`. -/
def GathersAs (file : Nat) (buffer : List Token) (fuel : Nat) (past : Bool) (rank : Nat)
    (p : Parse α) (parts : α → List TreeNode) (shape : α → Prop) : Prop :=
  ∀ s : State, s.Stands buffer → 16 * s.ahead.length + rank ≤ fuel →
    Ends buffer p (Gains file buffer past s parts shape) s

abbrev Gathers (file : Nat) (buffer : List Token) (fuel : Nat) (past : Bool) (rank : Nat)
    (p : Parse α) (parts : α → List TreeNode) : Prop :=
  GathersAs file buffer fuel past rank p parts fun _ => True

/-- A rule that begins with a token of one of the kinds, which it reads. -/
def GathersAt (file : Nat) (buffer : List Token) (fuel rank : Nat) (kinds : List Token.Kind)
    (p : Parse α) (parts : α → List TreeNode) (shape : α → Prop) : Prop :=
  ∀ s : State, s.Stands buffer → s.current.kind ∈ kinds → 16 * s.ahead.length + rank ≤ fuel →
    Ends buffer p (fun a s' => Gains file buffer true s parts shape a s' ∧ s'.Nearer s) s

/-- A rule that began at `s₀` has come to `s` and has read these nodes. The fuel is enough for rules
of the rank `room`. -/
structure Reading (file fuel : Nat) (buffer : List Token) (past : Bool) (room : Nat) (s₀ : State)
    (nodes : List TreeNode) (s : State) : Prop extends Gathered file buffer past s₀ nodes s where
  buffered : Sealed file buffer
  first : s₀.Stands buffer
  stands : s.Stands buffer
  ahead : s.ahead.length ≤ s₀.ahead.length
  clean : s.reports = [] → s₀.reports = []
  room : 16 * s.ahead.length + room ≤ fuel

/-- A rule that goes on behind an expression. -/
def GathersBehind (file : Nat) (buffer : List Token) (fuel rank : Nat) (rule : Expr → Parse Expr) :
    Prop :=
  ∀ (base : Expr) (s₀ s : State), Reading file fuel buffer true rank s₀ [.expr base] s →
    Ends buffer (rule base) (Gains file buffer true s₀ (fun e => [.expr e]) fun _ => True) s

/-- A rule that began at `s₀` has come to `s`, and something was reported. -/
structure Failed (file fuel : Nat) (buffer : List Token) (room : Nat) (s₀ s : State) : Prop where
  buffered : Sealed file buffer
  first : s₀.Stands buffer
  stands : s.Stands buffer
  ahead : s.ahead.length ≤ s₀.ahead.length
  room : 16 * s.ahead.length + room ≤ fuel
  faulty : s.reports ≠ []

/-- After a report only the spans matter. -/
theorem Failed.reading (h : Failed file fuel buffer room s₀ s)
    (hgrown : ∀ node ∈ nodes, node.Grown (Merged buffer)) :
    Reading file fuel buffer past room s₀ nodes s where
  grown := hgrown
  moved _ hclean := absurd hclean h.faulty
  strung _ hclean := absurd hclean h.faulty
  buffered := h.buffered
  first := h.first
  stands := h.stands
  ahead := h.ahead
  clean hclean := absurd hclean h.faulty
  room := h.room

namespace Reading

theorem refl (hb : Sealed file buffer) (hs : s.Stands buffer)
    (hfuel : 16 * s.ahead.length + (rank + 1) ≤ fuel + 1) :
    Reading file fuel buffer false rank s [] s where
  grown := by simp
  moved hordered _ := .of_after hordered.after
  strung _ _ := .nil (Nat.le_refl _)
  buffered := hb
  first := hs
  stands := hs
  ahead := Nat.le_refl _
  clean := id
  room := by omega

theorem spend (h : Reading file (fuel + 1) buffer past (room + 1) s₀ nodes s) :
    Reading file fuel buffer past room s₀ nodes s :=
  { h with room := by have := h.room; omega }

theorem less (h : Reading file fuel buffer past room s₀ nodes s) (hle : room' ≤ room) :
    Reading file fuel buffer past room' s₀ nodes s :=
  { h with room := by have := h.room; omega }

/-- Without fuel there is no room for any rule. -/
theorem not_zero (h : Reading file 0 buffer past (room + 1) s₀ nodes s) : False := by
  have := h.room
  omega

variable (h : Reading file fuel buffer past room s₀ nodes s)
include h

/-- The same point as the beginning of what comes next. -/
theorem restart : Reading file fuel buffer false room s [] s :=
  .refl h.buffered h.stands (Nat.succ_le_succ h.room)

theorem ordered (hordered : s₀.Ordered file) (hclean : s.reports = []) : s.Ordered file :=
  (h.moved hordered hclean).after.ordered

omit h in
/-- What was read behind another part of a rule. -/
theorem join {s1} (h : Reading file fuel buffer past room s₀ nodes s1)
    (h' : Reading file fuel buffer past' room' s1 new s) :
    Reading file fuel buffer (past || past') room' s₀ (nodes ++ new) s where
  grown := forall_mem_append.2 ⟨h.grown, h'.grown⟩
  moved hordered hclean :=
    have hbefore := h.moved hordered (h'.clean hclean)
    hbefore.trans (h'.moved hbefore.after.ordered hclean)
  strung hordered hclean := by
    have hbefore := (h.moved hordered (h'.clean hclean)).after
    have hafter := (h'.moved hbefore.ordered hclean).after
    exact (h.strung hordered (h'.clean hclean)).append Placed.local
      (h'.strung hbefore.ordered hclean) hbefore.ordered.rear_le_front hbefore.front_le
      hafter.rear_le
  buffered := h.buffered
  first := h.first
  stands := h'.stands
  ahead := Nat.le_trans h'.ahead h.ahead
  clean hclean := h.clean (h'.clean hclean)
  room := h'.room

/-- Nodes behind the ones that were read. -/
theorem step (hstep : Advances buffer s s') (hnew : Gathered file buffer past' s new s') :
    Reading file fuel buffer (past || past') room s₀ (nodes ++ new) s' := by
  have hroom := h.room
  have hahead := hstep.ahead
  exact h.join ⟨hnew, h.buffered, h.stands, hstep.stands, hahead, hstep.clean, by omega⟩

/-- A step that gives no node. -/
theorem move (hstep : Advances buffer s s')
    (hmoved : s.Ordered file → s'.reports = [] → Moved file past' s s') :
    Reading file fuel buffer (past || past') room s₀ nodes s' := by
  have hnew : Gathered file buffer past' s [] s' :=
    ⟨by simp, hmoved, fun hordered hclean => .nil (hmoved hordered hclean).after.nextId⟩
  simpa using h.step hstep hnew

/-- A step that reads a token for sure makes room. -/
theorem nearer (h' : Reading file fuel buffer past' room' s₀ new s') (hnear : s'.Nearer s) :
    Reading file fuel buffer past' (room + 16) s₀ new s' :=
  { h' with room := by have := h.room; omega }

/-- Some of the nodes. -/
theorem sub (hsub : new.Sublist nodes) : Reading file fuel buffer past room s₀ new s :=
  { h with
    grown := fun node hmem => h.grown node (hsub.subset hmem)
    strung := fun hordered hclean => (h.strung hordered hclean).sublist Placed.local hsub }

/-- Other nodes at the same places. -/
theorem become (hbecome : Forall₂ TreeNode.Becomes nodes new) :
    Reading file fuel buffer past room s₀ new s :=
  { h with
    grown := by
      have hgrown := h.grown
      clear h
      induction hbecome with
      | nil => simp
      | cons hnode _ ih =>
        obtain ⟨hhead, htail⟩ := forall_mem_cons.1 hgrown
        exact forall_mem_cons.2 ⟨hhead.become hnode, ih htail⟩
    strung := fun hordered hclean => (h.strung hordered hclean).become hbecome }

theorem merged (hmem : node ∈ nodes) : Merged buffer node.span := by
  obtain ⟨hspan, -⟩ := h.grown node hmem
  exact hspan

omit h in
theorem inner (h : Reading file fuel buffer past room s₀ (nodes ++ [node]) s) :
    Reading file fuel buffer past room s₀ (nodes ++ node.children) s :=
  { h with toGathered := h.toGathered.inner nodes }

theorem failed (hstep : Advances buffer s s') (hfaulty : s'.reports ≠ []) :
    Failed file fuel buffer room s₀ s' where
  buffered := h.buffered
  first := h.first
  stands := hstep.stands
  ahead := Nat.le_trans hstep.ahead h.ahead
  room := by
    have := h.room
    have := hstep.ahead
    omega
  faulty := hfaulty

/-! ## Calls of rules -/

variable {p : Parse α} {f : α → Parse β} {Q : β → State → Prop}

theorem gatherAs (hp : GathersAs file buffer fuel past' rank p parts shape)
    (hrank : rank.ble room = true)
    (hf : ∀ a s', Reading file fuel buffer (past || past') room s₀ (nodes ++ parts a) s' →
      (s₀.Ordered file → s'.reports = [] → shape a) → Ends buffer (f a) Q s') :
    Ends buffer (p >>= f) Q s := by
  have hroom := h.room
  have hrank := Nat.le_of_ble_eq_true hrank
  refine (hp s h.stands (by omega)).bind fun a s' hstep ha => ?_
  refine hf a s' (h.step hstep ha.toGathered) fun hordered hclean => ?_
  exact ha.shaped (h.ordered hordered (hstep.clean hclean)) hclean

/-- Call a rule and keep what it reads. -/
theorem gather (hp : GathersAs file buffer fuel past' rank p parts shape)
    (hrank : rank.ble room = true)
    (hf : ∀ a s', Reading file fuel buffer (past || past') room s₀ (nodes ++ parts a) s' →
      Ends buffer (f a) Q s') : Ends buffer (p >>= f) Q s :=
  h.gatherAs hp hrank fun a s' h' _ => hf a s' h'

/-- A rule that begins with one that begins with a token of a certain kind. -/
theorem gatherFirst (hp : GathersAt file buffer fuel rank kinds p parts shape)
    (hkind : s.current.kind ∈ kinds) (hrank : rank.ble room = true)
    (hf : ∀ a s', Reading file fuel buffer true (room + 16) s₀ (nodes ++ parts a) s' →
      (s₀.Ordered file → s'.reports = [] → shape a) → Ends buffer (f a) Q s') :
    Ends buffer (p >>= f) (fun b s' => Q b s' ∧ s'.Nearer s) s := by
  have hroom := h.room
  have hrank := Nat.le_of_ble_eq_true hrank
  refine (hp s h.stands hkind (by omega)).bind_nearer (fun _ _ ha => ha.2) fun a s' hstep ha => ?_
  have h' := h.step hstep ha.1.toGathered
  rw [Bool.or_true] at h'
  refine hf a s' (h.nearer h' ha.2) fun hordered hclean => ?_
  exact ha.1.shaped (h.ordered hordered (hstep.clean hclean)) hclean

theorem gatherAt (hp : GathersAt file buffer fuel rank kinds p parts shape)
    (hkind : s.current.kind ∈ kinds) (hrank : rank.ble room = true)
    (hf : ∀ a s', Reading file fuel buffer true (room + 16) s₀ (nodes ++ parts a) s' →
      (s₀.Ordered file → s'.reports = [] → shape a) → Ends buffer (f a) Q s') :
    Ends buffer (p >>= f) Q s :=
  (h.gatherFirst hp hkind hrank hf).mono fun _ _ _ hb => hb.1

/-- Go on with what a part of the rule gives. -/
theorem chain (hp : Ends buffer p (Gains file buffer past' s₀ parts shape) s)
    (hf : ∀ a s', Reading file fuel buffer past' room s₀ (parts a) s' →
      (s₀.Ordered file → s'.reports = [] → shape a) → Ends buffer (f a) Q s') :
    Ends buffer (p >>= f) Q s := by
  refine hp.bind fun a s' hstep ha => hf a s' ?_ ha.shaped
  have hroom := h.room
  have hahead := hstep.ahead
  exact ⟨ha.toGathered, h.buffered, h.first, hstep.stands, Nat.le_trans hahead h.ahead,
    fun hclean => h.clean (hstep.clean hclean), by omega⟩

/-- The same for a part that reads a token for sure. -/
theorem chainNearer
    (hp : Ends buffer p (fun a s' => Gains file buffer past' s₀ parts shape a s' ∧ s'.Nearer s) s)
    (hf : ∀ a s', Reading file fuel buffer past' (room + 16) s₀ (parts a) s' →
      (s₀.Ordered file → s'.reports = [] → shape a) → Ends buffer (f a) Q s') :
    Ends buffer (p >>= f) Q s := by
  refine hp.bind fun a s' hstep ha => hf a s' ?_ ha.1.shaped
  have hroom := h.room
  exact ⟨ha.1.toGathered, h.buffered, h.first, hstep.stands, Nat.le_trans hstep.ahead h.ahead,
    fun hclean => h.clean (hstep.clean hclean), by omega⟩

theorem doneAs {a} (hparts : (parts a).Sublist nodes) (hgoal : (!goal || past) = true)
    (hshape : s₀.Ordered file → s.reports = [] → shape a) :
    Ends buffer (pure a) (Gains file buffer goal s₀ parts shape) s := by
  have h' := h.sub hparts
  have hgoal : goal = true → past = true := fun h => by simpa [h] using hgoal
  refine .pure h.stands ⟨⟨h'.grown, fun hordered hclean => ?_, h'.strung⟩, hshape⟩
  exact ⟨(h.moved hordered hclean).after, fun hpast => (h.moved hordered hclean).past (hgoal hpast)⟩

/-- A rule gives what was read for it. -/
theorem done {a} (hparts : (parts a).Sublist nodes) (hgoal : (!goal || past) = true) :
    Ends buffer (pure a) (Gains file buffer goal s₀ parts fun _ => True) s :=
  h.doneAs hparts hgoal fun _ _ => trivial

omit h in
/-- The rest of a rule is another rule, and no node was read before it. -/
theorem rest (h : Reading file fuel buffer past room s₀ [] s)
    (hp : GathersAs file buffer fuel past' rank p parts shape) (hrank : rank.ble room = true)
    (hgoal : (!goal || (past || past')) = true) :
    Ends buffer p (Gains file buffer goal s₀ parts shape) s := by
  rw [← bind_pure p]
  exact h.gatherAs hp hrank fun a s' h' hshape => h'.doneAs (.refl _) hgoal hshape

omit h in
/-- The same for a rule that begins with a token of a certain kind. -/
theorem restAt (h : Reading file fuel buffer past room s₀ [] s)
    (hp : GathersAt file buffer fuel rank kinds p parts shape) (hkind : s.current.kind ∈ kinds)
    (hrank : rank.ble room = true) :
    Ends buffer p (Gains file buffer true s₀ parts fun _ => True) s := by
  rw [← bind_pure p]
  exact h.gatherAt hp hkind hrank fun a s' h' _ => h'.done (.refl _) rfl

/-- A part that is read only in one case. -/
theorem gatherSome [Decidable c] {f} (hp : GathersAs file buffer fuel past' rank p parts shape)
    (hrank : rank.ble room = true)
    (hf : ∀ x s', Reading file fuel buffer past room s₀ (nodes ++ x.toList.flatMap parts) s' →
      (s₀.Ordered file → s'.reports = [] → ∀ a ∈ x, shape a) → Ends buffer (f x) Q s') :
    Ends buffer (if c then p >>= fun a => pure (some a) >>= f else pure none >>= f) Q s := by
  split
  · refine h.gatherAs hp hrank fun a s' h' hshape => ?_
    refine hf (some a) s' ⟨⟨?_, fun hordered hclean => ?_, ?_⟩, h'.buffered, h'.first, h'.stands,
      h'.ahead, h'.clean, h'.room⟩ (by simpa using hshape)
    · simpa using h'.grown
    · have hmoved := h'.moved hordered hclean
      exact ⟨hmoved.after, fun hpast => hmoved.past (by simp [hpast])⟩
    · simpa using h'.strung
  · exact hf none s (by simpa using h) (by simp)

/-- A part that is read in all cases but one. -/
theorem gatherUnless [Decidable c] {f} (hp : GathersAs file buffer fuel past' rank p parts shape)
    (hrank : rank.ble room = true)
    (hf : ∀ x s', Reading file fuel buffer past room s₀ (nodes ++ x.toList.flatMap parts) s' →
      (s₀.Ordered file → s'.reports = [] → ∀ a ∈ x, shape a) → Ends buffer (f x) Q s') :
    Ends buffer (if c then pure none >>= f else p >>= fun a => pure (some a) >>= f) Q s := by
  rw [← ite_not]
  exact h.gatherSome hp hrank hf

/-! ## Steps -/

section Steps

variable {f : Unit → Parse β} {kind : Token.Kind}

theorem advanced : Reading file fuel buffer past room s₀ nodes s.advanced := by
  have h' := h.move (.advanced h.stands) fun hordered _ => .of_after hordered.advanced
  rwa [Bool.or_false] at h'

theorem advance {f}
    (hf : ∀ s', Reading file fuel buffer past room s₀ nodes s' → Ends buffer (f s.current) Q s') :
    Ends buffer (advance >>= f) Q s := by
  refine (advance_ends h.stands).bind ?_
  rintro _ _ - ⟨rfl, rfl⟩
  exact hf _ h.advanced

/-- A token that is not the end of the input makes room. -/
theorem advanceOver {f} (hkind : s.current.kind ≠ .endOfInput)
    (hf : ∀ s', Reading file fuel buffer past (room + 16) s₀ nodes s' → s'.Nearer s →
      Ends buffer (f s.current) Q s') : Ends buffer (Grammar.advance >>= f) Q s := by
  have hnear := State.advanced_nearer (h.stands.ahead_ne_nil h.buffered hkind)
  refine (advance_ends h.stands).bind ?_
  rintro _ _ - ⟨rfl, rfl⟩
  exact hf _ (h.nearer h.advanced hnear) hnear

/-- A token that takes room is read. -/
theorem advancedPast (hroom : takesRoom s.current.kind) :
    Reading file fuel buffer true (room + 16) s₀ nodes s.advanced := by
  have hkind : s.current.kind ≠ .endOfInput := by
    intro hend
    simp [hend, takesRoom] at hroom
  have hnear := State.advanced_nearer (h.stands.ahead_ne_nil h.buffered hkind)
  have h' : Reading file fuel buffer (past || true) room s₀ nodes s.advanced :=
    h.move (.advanced h.stands) fun hordered _ => .of_past (hordered.advanced_past hroom)
  rw [Bool.or_true] at h'
  exact h.nearer h' hnear

/-- A token that takes room is read, by a rule that begins with it. -/
theorem tokenAt {f} (hroom : takesRoom s.current.kind)
    (hf : ∀ s', Reading file fuel buffer true (room + 16) s₀ nodes s' →
      s'.before = some s.current.span → Ends buffer (f s.current) Q s') :
    Ends buffer (Grammar.advance >>= f) (fun b s' => Q b s' ∧ s'.Nearer s) s := by
  have hkind : s.current.kind ≠ .endOfInput := by
    intro hend
    simp [hend, takesRoom] at hroom
  have hahead := h.stands.ahead_ne_nil h.buffered hkind
  refine (advance_ends h.stands).bind_nearer (fun _ _ hread => ?_) ?_
  · rw [hread.2]
    exact State.advanced_nearer hahead
  · rintro _ _ - ⟨rfl, rfl⟩
    exact hf _ (h.advancedPast hroom) (State.before_advanced hahead)

theorem token {f} (hroom : takesRoom s.current.kind)
    (hf : ∀ s', Reading file fuel buffer true (room + 16) s₀ nodes s' →
      Ends buffer (f s.current) Q s') : Ends buffer (Grammar.advance >>= f) Q s :=
  (h.tokenAt hroom fun s' h' _ => hf s' h').mono fun _ _ _ hb => hb.1

theorem eat {f} (hf : ∀ eaten s', Reading file fuel buffer past room s₀ nodes s' →
      (eaten = true → takesRoom kind → Reading file fuel buffer true (room + 16) s₀ nodes s') →
      Ends buffer (f eaten) Q s') : Ends buffer (eat kind >>= f) Q s := by
  refine (eat_ends kind h.stands).bind ?_
  rintro _ _ - (⟨rfl, hkind, rfl⟩ | ⟨rfl, -, rfl⟩)
  · exact hf true _ h.advanced fun _ hroom => h.advancedPast (hkind ▸ hroom)
  · exact hf false _ h (by simp)

theorem eatIf {p q} (hroom : takesRoom kind = true)
    (hp : ∀ s', Reading file fuel buffer true (room + 16) s₀ nodes s' → Ends buffer p Q s')
    (hq : s.current.kind ≠ kind → Ends buffer q Q s) :
    Ends buffer (Grammar.eat kind >>= fun eaten => if eaten = true then p else q) Q s := by
  refine (eat_ends kind h.stands).bind ?_
  rintro _ _ - (⟨rfl, hkind, rfl⟩ | ⟨rfl, hkind, rfl⟩)
  · exact hp _ (h.advancedPast (hkind ▸ hroom))
  · exact hq hkind

/-- A terminator is eaten. -/
theorem eatSemicolonIf {p q}
    (hp : ∀ s', Reading file fuel buffer past (room + 16) s₀ nodes s' → Ends buffer p Q s')
    (hq : Ends buffer q Q s) :
    Ends buffer (Grammar.eat .semicolon >>= fun eaten => if eaten = true then p else q) Q s := by
  refine (eat_ends .semicolon h.stands).bind ?_
  rintro _ _ - (⟨rfl, hkind, rfl⟩ | ⟨rfl, -, rfl⟩)
  · have hahead := h.stands.ahead_ne_nil h.buffered (by simp [hkind])
    exact hp _ (h.nearer h.advanced (State.advanced_nearer hahead))
  · exact hq

/-- A rule that records a fault. -/
theorem faults (hfault : s.Faults s') (hstep : Advances buffer s s') :
    Failed file fuel buffer room s₀ s' := by
  obtain ⟨report, rfl⟩ := hfault
  exact h.failed hstep (by simp)

theorem want {wanted}
    (hf : ∀ s', Failed file fuel buffer room s₀ s' → s.Faults s' → Ends buffer (f ()) Q s') :
    Ends buffer (want wanted >>= f) Q s :=
  (want_ends wanted h.stands).bind fun _ s' hstep hfault => hf s' (h.faults hfault hstep) hfault

theorem refuse {misuse span} (hspan : Merged buffer span)
    (hf : ∀ s', Failed file fuel buffer room s₀ s' → s.Faults s' → Ends buffer (f ()) Q s') :
    Ends buffer (refuse misuse span >>= f) Q s :=
  (refuse_ends misuse hspan h.stands).bind fun _ s' hstep hfault =>
    hf s' (h.faults hfault hstep) hfault

/-- What follows a fault that may have been recorded. -/
theorem faultIf [Decidable c] {fault} (hfault : Ends buffer fault (fun _ s' => s.Faults s') s)
    (hf : ∀ s', Reading file fuel buffer past room s₀ nodes s' →
      (s'.reports = [] → s' = s ∧ ¬c) → Ends buffer (f ()) Q s') :
    Ends buffer (if c then fault >>= f else f ()) Q s := by
  split
  · refine hfault.bind fun _ s' hstep hfault => ?_
    have hfailed := h.faults hfault hstep
    exact hf s' (hfailed.reading h.grown) fun hclean => absurd hclean hfailed.faulty
  · rename_i hsound
    exact hf s h fun _ => ⟨rfl, hsound⟩

theorem expectLast {f} (hroom : takesRoom kind)
    (hf : ∀ s', Reading file fuel buffer true room s₀ nodes s' → (s₀.Ordered file →
      s'.reports = [] → s.Past file s' ∧ s.current.span = s'.before.getD s'.current.span) →
      Ends buffer (f s.current.span) Q s') : Ends buffer (expect kind >>= f) Q s := by
  refine (expect_ends kind h.stands).bind ?_
  rintro _ s' hstep ⟨rfl, ⟨rfl, rfl⟩ | ⟨-, hfault⟩⟩
  · refine hf _ ((h.advancedPast hroom).less (Nat.le_add_right _ _)) fun hordered hclean => ?_
    have hs := h.ordered hordered (hstep.clean hclean)
    exact ⟨hs.advanced_past hroom, by simp [hs.before_advanced hroom]⟩
  · have hfailed := h.faults hfault hstep
    exact hf s' (hfailed.reading h.grown) fun _ hclean => absurd hclean hfailed.faulty

/-- An expected token is read; its place is that of the current token. -/
theorem expect {f} (hroom : takesRoom kind = true)
    (hf : ∀ s', Reading file fuel buffer true room s₀ nodes s' →
      Ends buffer (f s.current.span) Q s') : Ends buffer (expect kind >>= f) Q s :=
  h.expectLast hroom fun s' h' _ => hf s' h'

/-- An expected token that may take no room. -/
theorem expectSemicolon {f} (hf : ∀ s', Reading file fuel buffer past room s₀ nodes s' →
      Ends buffer (f s.current.span) Q s') : Ends buffer (Grammar.expect .semicolon >>= f) Q s := by
  refine (expect_ends .semicolon h.stands).bind ?_
  rintro _ s' hstep ⟨rfl, ⟨-, rfl⟩ | ⟨-, hfault⟩⟩
  · exact hf _ h.advanced
  · exact hf s' ((h.faults hfault hstep).reading h.grown)

/-- A rule that begins with a token moves on. -/
theorem expectAt {f} (hkind : s.current.kind = kind) (hroom : takesRoom kind = true)
    (hf : ∀ s', Reading file fuel buffer true (room + 16) s₀ nodes s' →
      Ends buffer (f s.current.span) Q s') :
    Ends buffer (Grammar.expect kind >>= f) (fun b s' => Q b s' ∧ s'.Nearer s) s := by
  have hend : s.current.kind ≠ .endOfInput := by
    intro hend
    rw [← hkind, hend] at hroom
    contradiction
  have hahead := h.stands.ahead_ne_nil h.buffered hend
  refine (expect_ends kind h.stands).bind_nearer (fun _ s' hread => ?_) ?_
  · obtain ⟨-, ⟨-, rfl⟩ | ⟨hother, -⟩⟩ := hread
    · exact State.advanced_nearer hahead
    · exact absurd hkind hother
  · rintro _ s' - ⟨rfl, ⟨-, rfl⟩ | ⟨hother, -⟩⟩
    · exact hf _ (h.advancedPast (hkind ▸ hroom))
    · exact absurd hkind hother

theorem terminator
    (hf : ∀ s', Reading file fuel buffer past room s₀ nodes s' → Ends buffer (f ()) Q s') :
    Ends buffer (terminator >>= f) Q s := by
  refine (terminator_ends h.buffered h.stands).bind ?_
  rintro _ s' hstep (⟨-, rfl⟩ | ⟨-, rfl⟩ | hfaulty)
  · exact hf _ h.advanced
  · exact hf _ h
  · exact hf s' ((h.failed hstep hfaulty).reading h.grown)

theorem terminatorIf [Decidable c]
    (hf : ∀ s', Reading file fuel buffer past room s₀ nodes s' → Ends buffer (f ()) Q s') :
    Ends buffer (if c then Grammar.terminator >>= f else f ()) Q s := by
  split
  · exact h.terminator hf
  · exact hf s h

theorem eatNewline
    (hf : ∀ s', Reading file fuel buffer past room s₀ nodes s' → Ends buffer (f ()) Q s') :
    Ends buffer (eatNewline >>= f) Q s := by
  refine (eatNewline_ends h.stands).bind ?_
  rintro _ _ - (rfl | rfl)
  · exact hf _ h
  · exact hf _ h.advanced

/-- The step that a rule takes to get on when what it called has read nothing. -/
theorem forced {next nodes'} (h0 : Reading file fuel buffer past' room' s₀ nodes' s₀)
    (hkind : s₀.current.kind ≠ .endOfInput)
    (hf : ∀ s', Reading file fuel buffer past (room' + 16) s₀ nodes s' → Ends buffer next Q s') :
    Ends buffer (remaining >>= fun now =>
      if (now == s₀.ahead.length) = true then Grammar.advance >>= fun _ => next else next) Q s := by
  refine forced_bind h.buffered h.first hkind h.stands h.ahead ?_
  rintro _ hnear (rfl | rfl)
  · exact hf _ (h0.nearer h hnear)
  · exact hf _ (h0.nearer h.advanced hnear)

end Steps

end Reading

section

variable (h : Failed file fuel buffer room s₀ s)
include h

theorem Failed.done {a} (hgrown : ∀ node ∈ parts a, node.Grown (Merged buffer)) :
    Ends buffer (pure a) (Gains file buffer past s₀ parts shape) s :=
  .pure h.stands ⟨⟨hgrown, fun _ hclean => absurd hclean h.faulty,
    fun _ hclean => absurd hclean h.faulty⟩, fun _ hclean => absurd hclean h.faulty⟩

theorem Failed.step (hstep : Advances buffer s s') : Failed file fuel buffer room s₀ s' where
  buffered := h.buffered
  first := h.first
  stands := hstep.stands
  ahead := Nat.le_trans hstep.ahead h.ahead
  room := by
    have := h.room
    have := hstep.ahead
    omega
  faulty hclean := h.faulty (hstep.clean hclean)

theorem Failed.advance {f} {Q : β → State → Prop}
    (hf : ∀ s', Failed file fuel buffer room s₀ s' → Ends buffer (f s.current) Q s') :
    Ends buffer (advance >>= f) Q s := by
  refine (advance_ends h.stands).bind ?_
  rintro _ s' hstep ⟨rfl, -⟩
  exact hf s' (h.step hstep)

/-- A step that reads a token for sure makes room. -/
theorem Failed.nearer (h' : Failed file fuel buffer room' s₀ s') (hnear : s'.Nearer s) :
    Failed file fuel buffer (room + 16) s₀ s' :=
  { h' with room := by have := h.room; omega }

/-- Skipping a statement; there was a report before. -/
theorem Failed.skip {f} {Q : β → State → Prop}
    (hf : ∀ s', Failed file fuel buffer room s₀ s' → (s.current.kind ≠ .rightBrace →
      s.current.kind ≠ .endOfInput → s'.Nearer s) → Ends buffer (f ()) Q s') :
    Ends buffer (skipStatement >>= f) Q s := by
  exact (skipStatement_ends h.buffered h.stands).bind fun _ s' hstep => hf s' (h.step hstep)

theorem Failed.newStmt {form span shape}
    (hgrown : ∀ id, (TreeNode.stmt ⟨id, span, form⟩).Grown (Merged buffer)) :
    Ends buffer (newStmt form span)
      (Gains file buffer past s₀ (fun stmt => [.stmt stmt]) shape) s := by
  rw [← bind_pure (Grammar.newStmt form span)]
  refine (newStmt_ends h.stands).bind ?_
  rintro _ _ hstep ⟨rfl, rfl⟩
  exact (h.step hstep).done (by simpa using hgrown _)

end

/-! ## Context -/

theorem Gains.same {a} (h : Gains file buffer past s₀ parts shape a s)
    (hbefore : s'.before = s.before) (hcurrent : s'.current = s.current)
    (hahead : s'.ahead = s.ahead) (hid : s'.nextId = s.nextId) (hreports : s'.reports = s.reports) :
    Gains file buffer past s₀ parts shape a s' :=
  ⟨h.toGathered.same hbefore hcurrent hahead hid hreports,
    fun hordered hclean => h.shaped hordered (hreports ▸ hclean)⟩

namespace Reading

variable {body otherwise : Parse α}

theorem withHeader {inHeader} (h : Reading file fuel buffer past room s₀ nodes s)
    (hbody : ∀ s', Reading file fuel buffer past room s₀ nodes s' →
      Ends buffer body (Gains file buffer goal s₀ parts shape) s') :
    Ends buffer (withHeader inHeader body) (Gains file buffer goal s₀ parts shape) s := by
  refine withHeader_ends h.stands ((hbody _ ?_).mono fun a s' _ ha => ha.same rfl rfl rfl rfl rfl)
  exact ⟨h.toGathered.same rfl rfl rfl rfl rfl, h.buffered, h.first, h.stands, h.ahead, h.clean,
    h.room⟩

/-- Too deep a tree is reported, and then what is read instead matters only for its spans. -/
theorem nested (h : Reading file fuel buffer past room s₀ nodes s)
    (hother : ∀ s', Failed file fuel buffer room s₀ s' →
      Ends buffer otherwise (Gains file buffer goal s₀ parts shape) s')
    (hbody : ∀ s', Reading file fuel buffer past room s₀ nodes s' →
      Ends buffer body (Gains file buffer goal s₀ parts shape) s') :
    Ends buffer (nested otherwise body) (Gains file buffer goal s₀ parts shape) s := by
  refine nested_ends h.stands (fun s' hs hahead hfaulty => hother s' ?_)
    ((hbody _ ?_).mono fun a s' _ ha => ha.same rfl rfl rfl rfl rfl)
  · exact ⟨h.buffered, h.first, hs, hahead ▸ h.ahead, hahead ▸ h.room, hfaulty⟩
  · exact ⟨h.toGathered.same rfl rfl rfl rfl rfl, h.buffered, h.first, h.stands, h.ahead, h.clean,
      h.room⟩

end Reading

/-- The rest of a rule goes on behind an expression. -/
theorem GathersBehind.go {base rule} (hrule : GathersBehind file buffer fuel rank rule)
    (h : Reading file fuel buffer true room s₀ [.expr base] s) (hrank : rank.ble room = true) :
    Ends buffer (rule base) (Gains file buffer true s₀ (fun e => [.expr e]) fun _ => True) s :=
  hrule base s₀ s (h.less (Nat.le_of_ble_eq_true hrank))

theorem GathersAs.zero {p} : GathersAs file buffer 0 past (rank + 1) p parts shape :=
  fun _ _ hfuel => absurd hfuel (by omega)

/-- A rule that hands its fuel on. -/
theorem GathersAs.enter {p} (hb : Sealed file buffer)
    (h : ∀ s, Reading file fuel buffer false rank s [] s →
      Ends buffer p (Gains file buffer past s parts shape) s) :
    GathersAs file buffer fuel past rank p parts shape :=
  fun s hs hfuel => h s (.refl hb hs (Nat.succ_le_succ hfuel))

/-- A rule whose calls have the fuel that is left. -/
theorem GathersAs.intro {p} (hb : Sealed file buffer)
    (h : ∀ s, Reading file fuel buffer false rank s [] s →
      Ends buffer p (Gains file buffer past s parts shape) s) :
    GathersAs file buffer (fuel + 1) past (rank + 1) p parts shape :=
  fun s hs hfuel => h s (.refl hb hs hfuel)

/-- A rule that reads on unless its list is at an end. -/
theorem GathersAs.listed {p : Parse α} {a close} (hb : Sealed file buffer) (hparts : parts a = [])
    (h : ∀ s, s.current.kind ≠ close ∧ s.current.kind ≠ .endOfInput →
      Reading file fuel buffer false rank s [] s →
      Ends buffer p (Gains file buffer false s parts fun _ => True) s) :
    Gathers file buffer (fuel + 1) false (rank + 1)
      (do if (← sees close) || (← sees .endOfInput) then return a else p) parts := by
  refine .intro hb fun s hs => .sees_bind hs.stands (.sees_bind hs.stands ?_)
  split
  · exact hs.done (by simp [hparts]) rfl
  · rename_i hgo
    exact h s (by simpa using hgo) hs

theorem GathersAt.intro {p} (hb : Sealed file buffer)
    (h : ∀ s, s.current.kind ∈ kinds → Reading file fuel buffer false rank s [] s →
      Ends buffer p (fun a s' => Gains file buffer true s parts shape a s' ∧ s'.Nearer s) s) :
    GathersAt file buffer (fuel + 1) (rank + 1) kinds p parts shape :=
  fun s hs hkind hfuel => h s hkind (.refl hb hs hfuel)

theorem GathersAs.withHeader {inHeader p} (hb : Sealed file buffer)
    (h : GathersAs file buffer fuel past rank p parts shape) :
    GathersAs file buffer fuel past rank (withHeader inHeader p) parts shape := by
  intro s hs hfuel
  have h0 : Reading file fuel buffer false rank s [] s := .refl hb hs (Nat.succ_le_succ hfuel)
  refine h0.withHeader fun s' h' => ?_
  exact h'.rest h (Nat.ble_eq_true_of_le (Nat.le_refl _)) (by simp)

theorem GathersAs.plain {p} (h : GathersAs file buffer fuel past rank p parts shape) :
    Gathers file buffer fuel past rank p parts :=
  fun s hs hfuel => (h s hs hfuel).mono fun _ _ _ ha => ⟨ha.toGathered, fun _ _ => trivial⟩

/-- The nodes inside a written type. -/
theorem GathersAs.inner {p}
    (h : GathersAs file buffer fuel past rank p (fun type => [.type type]) fun _ => True) :
    GathersAs file buffer fuel past rank p (fun type => type.val.treeNodes) fun _ => True :=
  fun s hs hfuel => (h s hs hfuel).mono fun _ _ _ ha =>
    ⟨ha.toGathered.inner [], ha.shaped⟩

theorem name_gathers (fuel : Nat) :
    Gathers file buffer fuel true 0 name fun bound => [.name bound] := by
  intro s hs _
  refine (name_ends hs).mono ?_
  rintro bound s' hstep ⟨hspan, hread⟩
  have hname : (TreeNode.name bound).span = s.current.span := hspan
  have hgrown : ∀ node ∈ [TreeNode.name bound], node.Grown (Merged buffer) := by
    simpa using TreeNode.Grown.leaf (hname ▸ hs.current) rfl
  rcases hread with ⟨hkind, rfl⟩ | ⟨-, report, rfl⟩
  · have hroom : takesRoom s.current.kind := hkind ▸ rfl
    refine ⟨⟨hgrown, fun hordered _ => .of_past (hordered.advanced_past hroom),
      fun hordered _ => .one ?_⟩, fun _ _ => trivial⟩
    have hcovers := Covers.of_token hordered hroom (hordered.advanced_past hroom)
    exact ⟨hname ▸ hcovers, trivial, Nat.le_refl _, hcovers.id, .nil (Nat.le_refl _)⟩
  · exact ⟨⟨hgrown, by simp, by simp⟩, by simp⟩

/-- A name is there and is read. -/
theorem Reading.nameAt {f} {Q : β → State → Prop}
    (h : Reading file fuel buffer past room s₀ nodes s) (hkind : s.current.kind = .ident)
    (hf : ∀ bound,
      Reading file fuel buffer true (room + 16) s₀ (nodes ++ [.name bound]) s.advanced →
      Ends buffer (f bound) Q s.advanced) : Ends buffer (name >>= f) Q s := by
  have hname : Ends buffer name (Gains file buffer true s _ _) s :=
    name_gathers fuel s h.stands (Nat.le_trans (Nat.le_add_right _ _) h.room)
  refine (hname.both (name_ends h.stands)).bind ?_
  rintro bound s' hstep ⟨ha, -, ⟨-, rfl⟩ | ⟨hother, -⟩⟩
  · have h' := h.step hstep ha.toGathered
    rw [Bool.or_true] at h'
    have hahead := h.stands.ahead_ne_nil h.buffered (by simp [hkind])
    exact hf bound (h.nearer h' (State.advanced_nearer hahead))
  · exact absurd hkind hother

/-! ## Making nodes -/

/-- The span that a node begins with: that of the first token, or of the first node. -/
inductive Opens (s₀ : State) : List TreeNode → Span → Prop where
  | token {nodes : List TreeNode} : Opens s₀ nodes s₀.current.span
  | node {node : TreeNode} {nodes : List TreeNode} : Opens s₀ (node :: nodes) node.span

/-- The span that a node ends with: that of the token read last, or of the last node. -/
inductive Closes (file : Nat) (buffer : List Token) (s₀ s : State) :
    List TreeNode → Span → Prop where
  | token {nodes : List TreeNode} {span : Span} (merged : Merged buffer span)
      (last : s₀.Ordered file → s.reports = [] → span = s.before.getD s.current.span) :
      Closes file buffer s₀ s nodes span
  | node {node : TreeNode} {nodes : List TreeNode} :
      Closes file buffer s₀ s (nodes ++ [node]) node.span

/-- The children are some of the nodes, where the children of the first one may stand in its
place. -/
inductive Inside (children : List TreeNode) : List TreeNode → Prop where
  | all {nodes : List TreeNode} (sub : children.Sublist nodes) : Inside children nodes
  | first {node : TreeNode} {nodes : List TreeNode}
      (sub : children.Sublist (node.children ++ nodes)) : Inside children (node :: nodes)

/-- A node over what was read stands where that was read. -/
theorem Gathered.placed {l r id} (h : Gathered file buffer true s₀ nodes s)
    (hordered : s₀.Ordered file) (hclean : s.reports = []) (hspan : node.span = l.join r)
    (hl : Opens s₀ nodes l) (hr : Closes file buffer s₀ s nodes r)
    (hinside : Inside node.children nodes) (hformed : node.Formed)
    (hnumbered : node.Numbered s.nextId id) : Placed file node s₀.front ⟨s.passed, id⟩ := by
  have hpast := (h.moved hordered hclean).past rfl
  have hstrung := h.strung hordered hclean
  have hlt := hpast.start_lt
  obtain ⟨last, hlast, hlstart, hlstop, -⟩ := hpast.covered
  have hpassed := State.passed_of_mem hlast
  have hmem {x : TreeNode} (hx : x ∈ nodes) : Covers file x.span s₀.front s.rear :=
    Placed.local.covers (hstrung.mem Placed.local hx)
  -- Where the node begins, and that nothing in it begins before.
  obtain ⟨hlfile, hlo, hle, hlroom, hfrom⟩ : l.file = file ∧ s₀.start ≤ l.start ∧
      l.stop ≤ s.passed ∧ (l.start < l.stop ∨ l.start = s₀.start) ∧
      Strung (Placed file) nodes ⟨l.start, s₀.nextId⟩ s.rear := by
    cases hl with
    | token => exact ⟨hordered.tokens.fits.file, Nat.le_refl _, by omega, .inr rfl, hstrung⟩
    | node =>
      have hcovers := hmem (.head _)
      exact ⟨hcovers.file, hcovers.start, hcovers.stop, .inl hcovers.room,
        hstrung.fromFirst Placed.local⟩
  -- Where it ends, and that nothing in it ends behind.
  obtain ⟨hrstart, hrstop, hrroom, hupTo⟩ : s₀.start ≤ r.start ∧ r.stop ≤ s.passed ∧
      (r.start < r.stop ∨ r.stop = s.passed) ∧ ∀ x ∈ nodes, x.span.stop ≤ r.stop := by
    cases hr with
    | token merged hread =>
      rw [hread hordered hclean, Option.mem_def.1 hlast, Option.getD_some]
      exact ⟨hlstart, by omega, .inr hpassed.symm, fun x hx => hpassed ▸ (hmem hx).stop⟩
    | @node node =>
      have hcovers := hmem (mem_append_right _ (mem_singleton_self node))
      refine ⟨hcovers.start, hcovers.stop, .inl hcovers.room, fun x hx => ?_⟩
      rcases mem_append.1 hx with hx | hx
      · have hbefore := (pairwise_append.1 (hstrung.pairwise Placed.local)).2.2 x hx node
          (mem_singleton_self node)
        exact Nat.le_trans hbefore (Nat.le_of_lt hcovers.room)
      · obtain rfl := mem_singleton.1 hx
        exact Nat.le_refl _
  have hjoin : node.span = ⟨file, min l.start r.start, max l.stop r.stop⟩ := by
    rw [hspan, Span.join, hlfile]
  have hnodes : Strung (Placed file) nodes ⟨min l.start r.start, s₀.nextId⟩
      ⟨max l.stop r.stop, s.nextId⟩ := by
    have hlow : Strung (Placed file) nodes ⟨min l.start r.start, s₀.nextId⟩ s.rear :=
      hfrom.mono Placed.local ⟨Nat.min_le_left _ _, Nat.le_refl _⟩ (le_refl _)
    refine hlow.upTo Placed.local (max l.stop r.stop)
      (show min l.start r.start ≤ max l.stop r.stop by omega) fun x hx => ?_
    exact Nat.le_trans (hupTo x hx) (Nat.le_max_right _ _)
  have hchildren : Strung (Placed file) node.children ⟨min l.start r.start, s₀.nextId⟩
      ⟨max l.stop r.stop, s.nextId⟩ := by
    cases hinside with
    | all sub => exact hnodes.sublist Placed.local sub
    | first sub => exact (Strung.unfold [] hnodes).sublist Placed.local sub
  refine ⟨?_, hformed, Nat.le_refl _, hnumbered, hjoin ▸ hchildren⟩
  have hid := Nat.le_trans hpast.nextId hnumbered.le
  rw [hjoin]
  exact ⟨rfl, show min l.start r.start < max l.stop r.stop by omega,
    show s₀.start ≤ min l.start r.start by omega, show max l.stop r.stop ≤ s.passed by omega, hid⟩

namespace Reading

variable {l r : Span}

/-- The token read last. -/
theorem closes (h : Reading file fuel buffer past room s₀ nodes s) :
    Closes file buffer s₀ s nodes (s.before.getD s.current.span) :=
  .token h.stands.previous fun _ _ => rfl

theorem grows (h : Reading file fuel buffer past room s₀ nodes s) (hspan : node.span = l.join r)
    (hl : Opens s₀ nodes l) (hr : Closes file buffer s₀ s nodes r)
    (hinside : Inside node.children nodes) : node.Grown (Merged buffer) := by
  have hleft : Merged buffer l := by
    cases hl with
    | token => exact h.first.current
    | node => exact h.merged (.head _)
  have hright : Merged buffer r := by
    cases hr with
    | token merged => exact merged
    | node => exact h.merged (mem_append_right _ (mem_singleton_self _))
  refine ⟨hspan ▸ hleft.merge h.buffered hright, fun child hmem => ?_⟩
  cases hinside with
  | all sub => exact h.grown child (sub.subset hmem)
  | first sub =>
    rcases mem_append.1 (sub.subset hmem) with hmem | hmem
    · obtain ⟨-, hchildren⟩ := h.grown _ (.head _)
      exact hchildren child hmem
    · exact h.grown child (.tail _ hmem)

variable (h : Reading file fuel buffer true room s₀ nodes s)
include h

/-- A node over what was read. -/
theorem buildAs (hspan : node.span = l.join r) (hl : Opens s₀ nodes l)
    (hr : Closes file buffer s₀ s nodes r) (hinside : Inside node.children nodes)
    (hother : node.isStmt = false) (hformed : s₀.Ordered file → s.reports = [] → node.Formed) :
    Reading file fuel buffer true room s₀ [node] s :=
  { h with
    grown := by simpa using h.grows hspan hl hr hinside
    strung := fun hordered hclean => .one (h.placed hordered hclean hspan hl hr hinside
      (hformed hordered hclean) (TreeNode.numbered_of_isStmt hother (Nat.le_refl _))) }

/-- A node of which the grammar says nothing but its place. -/
theorem build (hspan : node.span = l.join r) (hl : Opens s₀ nodes l)
    (hr : Closes file buffer s₀ s nodes r) (hinside : Inside node.children nodes)
    (hfree : node.isFree = true) : Reading file fuel buffer true room s₀ [node] s :=
  h.buildAs hspan hl hr hinside (TreeNode.isStmt_of_isFree hfree) fun _ _ =>
    TreeNode.formed_of_isFree hfree

/-- A node that is the first token. -/
theorem leaf (hroom : takesRoom s₀.current.kind) (hspan : node.span = s₀.current.span)
    (hchildren : node.children = []) (hfree : node.isFree = true) :
    Reading file fuel buffer true room s₀ [node] s :=
  { h with
    grown := by simpa using TreeNode.Grown.leaf (hspan ▸ h.first.current) hchildren
    strung := fun hordered hclean => by
      have hcovers := Covers.of_token hordered hroom ((h.moved hordered hclean).past rfl)
      refine .one ⟨hspan ▸ hcovers, TreeNode.formed_of_isFree hfree, hcovers.id,
        TreeNode.numbered_of_isStmt (TreeNode.isStmt_of_isFree hfree) (Nat.le_refl _), ?_⟩
      rw [hchildren]
      exact .nil (Nat.le_refl _) }

/-- A rule gives one node over what was read. -/
theorem giveAs {a} (hparts : parts a = [node]) (hspan : node.span = l.join r)
    (hl : Opens s₀ nodes l) (hr : Closes file buffer s₀ s nodes r)
    (hinside : Inside node.children nodes) (hother : node.isStmt = false)
    (hformed : s₀.Ordered file → s.reports = [] → node.Formed) :
    Ends buffer (pure a) (Gains file buffer true s₀ parts fun _ => True) s :=
  (h.buildAs hspan hl hr hinside hother hformed).done (hparts ▸ .refl _) rfl

theorem give {a} (hparts : parts a = [node]) (hspan : node.span = l.join r) (hl : Opens s₀ nodes l)
    (hr : Closes file buffer s₀ s nodes r) (hinside : Inside node.children nodes)
    (hfree : node.isFree = true) :
    Ends buffer (pure a) (Gains file buffer true s₀ parts fun _ => True) s :=
  (h.build hspan hl hr hinside hfree).done (hparts ▸ .refl _) rfl

variable {form : StmtForm} {span : Span}

/-- A new statement over what was read. -/
theorem newStmt {f} {Q : β → State → Prop} (hspan : span = l.join r) (hl : Opens s₀ nodes l)
    (hr : Closes file buffer s₀ s nodes r) (hinside : Inside form.treeNodes nodes)
    (hshaped : s₀.Ordered file → s.reports = [] → form.Shaped)
    (hf : ∀ id s', Reading file fuel buffer true room s₀ [.stmt ⟨id, span, form⟩] s' →
      Ends buffer (f ⟨id, span, form⟩) Q s') : Ends buffer (newStmt form span >>= f) Q s := by
  refine (newStmt_ends h.stands).bind ?_
  rintro _ _ hstep ⟨rfl, rfl⟩
  have hmoved : Reading file fuel buffer true room s₀ nodes { s with nextId := s.nextId + 1 } :=
    h.move hstep fun hordered _ =>
      .of_after (hordered.after_same rfl rfl rfl (Nat.le_succ _))
  refine hf s.nextId _ { hmoved with grown := ?_, strung := fun hordered hclean => .one ?_ }
  · have hgrown : (TreeNode.stmt ⟨s.nextId, span, form⟩).Grown (Merged buffer) :=
      h.grows hspan hl hr hinside
    simpa using hgrown
  · exact h.placed hordered hclean hspan hl hr hinside (hshaped hordered hclean)
      ⟨Nat.le_refl _, Nat.lt_succ_self _⟩

theorem newStmtAs {shape : Stmt → Prop} (hspan : span = l.join r) (hl : Opens s₀ nodes l)
    (hr : Closes file buffer s₀ s nodes r) (hinside : Inside form.treeNodes nodes)
    (hshaped : s₀.Ordered file → s.reports = [] → form.Shaped)
    (hshape : ∀ id, shape ⟨id, span, form⟩) :
    Ends buffer (Grammar.newStmt form span)
      (Gains file buffer true s₀ (fun stmt => [.stmt stmt]) shape) s := by
  rw [← bind_pure (Grammar.newStmt form span)]
  exact h.newStmt hspan hl hr hinside hshaped fun id s' h' =>
    h'.doneAs (.refl _) rfl fun _ _ => hshape id

end Reading

end ScriptLowering.Grammar
