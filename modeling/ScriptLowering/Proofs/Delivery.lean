import Mathlib.Data.List.Forall2
import ScriptLowering.CommandLine.Run

/-!
# What the command line delivers

Results are written one after the other into one directory, each under the name of its input. The
tree only grows on the way, and a path that led somewhere leads there still. So a file that was
written is lost only to a later one of the same name.
-/

namespace ScriptLowering

open List

variable {path : Path} {outcomes : List Outcome}

/-- A piece that leads from a directory to an entry of it. -/
def Path.IsName (piece : String) : Prop := Path.isIdle piece = false ∧ piece ≠ ".."

theorem Path.isName_of_fileName {name} (h : path.fileName? = some name) : IsName name := by
  unfold fileName? at h
  split at h
  · cases h
  · rename_i piece pieces hne hpieces
    cases h
    refine ⟨?_, hne⟩
    have := head?_dropWhile_not isIdle path.rest.reverse
    simpa [hpieces] using this
  · split at h
    · cases h
    · rename_i hfirst
      cases h
      simpa [IsName, not_or] using hfirst

/-- The pieces after the first one that lead into a directory. -/
def Path.inner (directory : Path) : List String :=
  if directory.rest.getLast? == some "" then directory.rest.dropLast else directory.rest

namespace FileTree

variable {tree next : FileTree} {directory : Path} {name text : String}
  {place other : List String} {entry : Entry}

theorem lookup_filter_ne (entries : List (List String × Entry)) (h : other ≠ place) :
    (entries.filter fun (x, _) => x != place).lookup other = entries.lookup other := by
  induction entries with
  | nil => rfl
  | cons head entries ih =>
    obtain ⟨key, entry⟩ := head
    by_cases hkey : key = place
    · have : (other == key) = false := by simpa [hkey] using h
      simp [hkey, ih, lookup_cons, hkey ▸ this]
    · simp [hkey, ih, lookup_cons]

theorem node?_put (hplace : place ≠ []) :
    (tree.put place entry).node? other =
      if other = place then some entry else tree.node? other := by
  by_cases h : other = place
  · subst h
    simp [node?, put, hplace]
  · have hbeq : (other == place) = false := by simpa using h
    simp [node?, put, h, lookup_cons, hbeq, lookup_filter_ne _ h]

/-! ## Growing trees -/

/-- `next` has every directory of `tree`, and something at every place that was taken. -/
structure Grows (tree next : FileTree) : Prop where
  current : next.current = tree.current
  directory : ∀ place, tree.node? place = some .directory → next.node? place = some .directory
  taken : ∀ place, (tree.node? place).isSome → (next.node? place).isSome

/-- `next` has every entry of `tree`. -/
structure Keeps (tree next : FileTree) : Prop where
  current : next.current = tree.current
  entry : ∀ place entry, tree.node? place = some entry → next.node? place = some entry

theorem Keeps.refl : Keeps tree tree := ⟨rfl, fun _ _ h => h⟩

theorem Keeps.trans {last} (h : Keeps tree next) (h' : Keeps next last) : Keeps tree last :=
  ⟨h'.current.trans h.current, fun place entry he => h'.entry place entry (h.entry place entry he)⟩

theorem Keeps.grows (h : Keeps tree next) : Grows tree next := by
  refine ⟨h.current, fun place => h.entry place .directory, fun place htaken => ?_⟩
  obtain ⟨entry, he⟩ := Option.isSome_iff_exists.1 htaken
  simp [h.entry place entry he]

theorem grows_put (hplace : place ≠ []) (h : tree.node? place ≠ some .directory) :
    Grows tree (tree.put place entry) := by
  refine ⟨rfl, fun other hother => ?_, fun other hother => ?_⟩
  · have hne : other ≠ place := fun he => h (he ▸ hother)
    rw [node?_put hplace, if_neg hne, hother]
  · rw [node?_put hplace]
    split <;> simp [hother]

theorem keeps_put (hplace : place ≠ []) (h : tree.node? place = none) :
    Keeps tree (tree.put place entry) := by
  refine ⟨rfl, fun other entry hother => ?_⟩
  rw [node?_put hplace, if_neg (fun he => by simp [← he, hother] at h), hother]

theorem Grows.follow (h : Grows tree next) {pieces} :
    tree.follow place pieces = .ok other → next.follow place pieces = .ok other := by
  induction pieces generalizing place with
  | nil => exact id
  | cons piece pieces ih =>
    simp only [FileTree.follow]
    by_cases hdir : tree.node? place = some .directory
    · simp only [hdir, h.directory place hdir, bne_self_eq_false, Bool.false_eq_true, if_false]
      split
      · exact ih
      · split
        · exact ih
        · by_cases htaken : (tree.node? (place ++ [piece])).isSome
          · simpa [htaken, h.taken _ htaken] using ih
          · simp [htaken]
    · simp [hdir]

theorem follow_append {pieces} (piece : String) : tree.follow place (pieces ++ [piece]) =
      (tree.follow place pieces >>= fun place => tree.follow place [piece]) := by
  induction pieces generalizing place with
  | nil => rfl
  | cons first pieces ih =>
    simp only [cons_append, FileTree.follow, ih]
    split
    · rfl
    · split
      · rfl
      · split
        · rfl
        · split <;> rfl

/-! ## The entries of a directory -/

/-- The place where the entries of a directory stand. -/
def home (tree : FileTree) (directory : Path) : Except FileError (List String) :=
  if directory.isEmpty then .ok tree.current
  else if directory.isAbsolute then tree.follow [] directory.inner
  else tree.follow tree.current (directory.first :: directory.inner)

theorem Grows.home (h : Grows tree next) (hhome : tree.home directory = .ok place) :
    next.home directory = .ok place := by
  revert hhome
  unfold FileTree.home
  rw [h.current]
  split
  · exact id
  · split <;> exact h.follow

theorem start_join (tree : FileTree) (directory : Path) (hname : Path.IsName name) :
    (directory.join name).isEmpty = false ∧ ∃ base pieces,
      tree.start (directory.join name) = (base, pieces ++ [name]) ∧
        tree.home directory = tree.follow base pieces := by
  have hne : name ≠ "" := by
    rintro rfl
    exact absurd hname.1 (by decide)
  by_cases hempty : directory.isEmpty
  · have hjoin : directory.join name = ⟨name, []⟩ := by simp [Path.join, hempty]
    rw [hjoin]
    refine ⟨by simp [Path.isEmpty, hne], tree.current, [], by simp [start, Path.isAbsolute], ?_⟩
    simp [home, hempty, FileTree.follow]
  · have hjoin : directory.join name = ⟨directory.first, directory.inner ++ [name]⟩ := by
      unfold Path.join Path.inner
      rw [if_neg hempty]
      split <;> rfl
    rw [hjoin]
    refine ⟨by simp [Path.isEmpty], ?_⟩
    by_cases habs : directory.isAbsolute
    · have hfirst : directory.first = "" := by simp_all [Path.isAbsolute]
      exact ⟨[], directory.inner, by simp [start, Path.isAbsolute, hfirst],
        by simp [home, hempty, habs]⟩
    · have hfirst : directory.first ≠ "" := by simp_all [Path.isAbsolute, Path.isEmpty]
      exact ⟨tree.current, directory.first :: directory.inner,
        by simp [start, Path.isAbsolute, hfirst], by simp [home, hempty, habs]⟩

section

variable (hname : Path.IsName name)
include hname

theorem follow_name :
    tree.follow place [name] = .ok other ↔ tree.node? place = some .directory ∧
      (tree.node? (place ++ [name])).isSome ∧ place ++ [name] = other := by
  simp only [FileTree.follow, hname.1]
  by_cases hdir : tree.node? place = some .directory
  · by_cases htaken : (tree.node? (place ++ [name])).isSome <;> simp [hdir, htaken, hname.2]
  · simp [hdir]

theorem place_join_iff :
    tree.place (directory.join name) = .ok other ↔
      ∃ place, tree.home directory = .ok place ∧ tree.node? place = some .directory ∧
        (tree.node? (place ++ [name])).isSome ∧ place ++ [name] = other := by
  obtain ⟨hempty, base, pieces, hstart, hhome⟩ := start_join tree directory hname
  simp only [FileTree.place, hempty, hstart, follow_append, ← hhome]
  cases tree.home directory with
  | error error => simp [bind, Except.bind]
  | ok place => simpa [bind, Except.bind] using follow_name hname

omit hname in
theorem read_iff :
    tree.read path = .ok text ↔
      ∃ place, tree.place path = .ok place ∧ tree.node? place = some (.file text) := by
  unfold read
  cases tree.place path with
  | error error => simp [bind, Except.bind]
  | ok place =>
    cases hentry : tree.node? place with
    | none => simp [bind, Except.bind, hentry]
    | some entry => cases entry <;> simp [bind, Except.bind, hentry]

theorem read_join_iff :
    tree.read (directory.join name) = .ok text ↔
      ∃ place, tree.home directory = .ok place ∧ tree.node? place = some .directory ∧
        tree.node? (place ++ [name]) = some (.file text) := by
  rw [read_iff]
  simp only [place_join_iff hname]
  constructor
  · rintro ⟨_, ⟨place, hhome, hdir, -, rfl⟩, hfile⟩
    exact ⟨place, hhome, hdir, hfile⟩
  · rintro ⟨place, hhome, hdir, hfile⟩
    exact ⟨_, ⟨place, hhome, hdir, by simp [hfile], rfl⟩, hfile⟩

omit hname in
theorem Keeps.read (h : Keeps tree next) (hread : tree.read path = .ok text) :
    next.read path = .ok text := by
  rw [read_iff] at hread ⊢
  obtain ⟨place, hplace, hfile⟩ := hread
  refine ⟨place, ?_, h.entry place _ hfile⟩
  revert hplace
  unfold FileTree.place start
  rw [h.current]
  split
  · exact id
  · exact h.grows.follow

theorem slot_join {final} (h : tree.slot (directory.join name) = .ok
    (place, final)) :
    tree.home directory = .ok place ∧ tree.node? place = some .directory ∧ final = some name := by
  obtain ⟨hempty, base, pieces, hstart, hhome⟩ := start_join tree directory hname
  have hne : name ≠ "" ∧ name ≠ "." := by simpa [Path.isIdle] using hname.1
  unfold slot at h
  simp only [hempty, hstart, reverse_append, reverse_cons, reverse_nil,
    nil_append, singleton_append] at h
  rw [dropWhile_cons_of_neg (by simpa using hne.1)] at h
  simp only [Bool.false_eq_true, if_false, reverse_reverse, ← hhome] at h
  cases hplace : tree.home directory with
  | error error => simp [hplace, bind, Except.bind] at h
  | ok home =>
    by_cases hdir : tree.node? home = some .directory
    · simp [hplace, bind, Except.bind, hdir, hne.2, hname.2] at h
      exact ⟨by rw [h.1], h.1 ▸ hdir, h.2.symm⟩
    · simp [hplace, bind, Except.bind, hdir] at h

/-- What a write into a directory does when it succeeds. -/
theorem write_join (h : tree.write (directory.join name) text = .ok next) :
    ∃ place, tree.home directory = .ok place ∧ tree.node? place = some .directory ∧
      tree.node? (place ++ [name]) ≠ some .directory ∧
        next = tree.put (place ++ [name]) (.file text) := by
  unfold write at h
  cases hslot : tree.slot (directory.join name) with
  | error error => simp [hslot, bind, Except.bind] at h
  | ok slot =>
    obtain ⟨place, final⟩ := slot
    obtain ⟨hhome, hdir, rfl⟩ := slot_join hname hslot
    simp only [hslot, bind, Except.bind] at h
    split at h
    · cases h
    · rename_i hfree
      cases h
      exact ⟨place, hhome, hdir, fun hentry => hfree (by simp [hentry]), rfl⟩

/-- A file stays when another entry of its directory is written. -/
theorem read_write_ne {written content} (hwritten : Path.IsName written) (hne : name ≠ written)
    (h : tree.write (directory.join written) content = .ok next)
    (hread : tree.read (directory.join name) = .ok text) :
    next.read (directory.join name) = .ok text := by
  obtain ⟨place, hhome, hdir, hfree, rfl⟩ := write_join hwritten h
  obtain ⟨place, hhome', -, hfile⟩ := (read_join_iff hname).1 hread
  cases hhome.symm.trans hhome'
  have hgrows : Grows tree (tree.put (place ++ [written]) (.file content)) :=
    grows_put (by simp) hfree
  refine (read_join_iff hname).2 ⟨place, hgrows.home hhome, hgrows.directory place hdir, ?_⟩
  rw [node?_put (by simp), if_neg (by simpa using hne), hfile]

theorem read_write (h : tree.write (directory.join name) text = .ok next) :
    next.read (directory.join name) = .ok text := by
  obtain ⟨place, hhome, hdir, hfree, rfl⟩ := write_join hname h
  have hgrows : Grows tree (tree.put (place ++ [name]) (.file text)) := grows_put (by simp) hfree
  refine (read_join_iff hname).2 ⟨place, hgrows.home hhome, hgrows.directory place hdir, ?_⟩
  rw [node?_put (by simp), if_pos rfl]

end

theorem keeps_makeDirectory (h : tree.makeDirectory path = .ok next) : Keeps tree next := by
  unfold makeDirectory at h
  cases hslot : tree.slot path with
  | error error => simp [hslot, bind, Except.bind] at h
  | ok slot =>
    obtain ⟨place, name⟩ := slot
    cases name with
    | none => simp [hslot, bind, Except.bind] at h
    | some name =>
      simp only [hslot, bind, Except.bind] at h
      split at h
      · cases h
      · rename_i hfree
        cases h
        exact keeps_put (by simp) (by simpa using hfree)

end FileTree

/-! ## What a computation does to the tree -/

/-- The computation moves every tree to one in the relation `R`. -/
def Moves {α : Type} (R : FileTree → FileTree → Prop) (m : StateM FileTree α) : Prop :=
  ∀ tree, R tree (m.run tree).2

theorem run_bind {α β : Type} (m : StateM FileTree α) (f : α → StateM FileTree β)
    (tree : FileTree) : (m >>= f).run tree = (f (m.run tree).1).run (m.run tree).2 := rfl

theorem Moves.bind {α β : Type} {R} [Trans R R R] {m} {f : α → StateM FileTree β} (h : Moves R m)
    (hf : ∀ a, Moves R (f a)) : Moves R (m >>= f) :=
  fun tree => Trans.trans (h tree) (hf (m.run tree).1 (m.run tree).2)

instance : Trans FileTree.Keeps FileTree.Keeps FileTree.Keeps := ⟨.trans⟩

namespace FileAccess

open FileTree (Keeps)

theorem keeps_ensureDirectory (path : Path) : Moves Keeps (ofTree.ensureDirectory path) := by
  refine Moves.bind (fun tree => ?_) fun made => ?_
  · simp only [ofTree, updating, StateT.run]
    split
    · rename_i hmade
      exact FileTree.keeps_makeDirectory hmade
    · exact .refl
  · cases made with
    | ok => exact fun _ => .refl
    | error error =>
      dsimp only
      split
      · exact fun _ => .refl
      · refine Moves.bind (fun _ => .refl) fun present => ?_
        cases present <;> exact fun _ => .refl

theorem keeps_ensureAll (paths : List Path) : Moves Keeps (ofTree.ensureAll paths) := by
  induction paths with
  | nil => exact fun _ => .refl
  | cons path parents ih =>
    unfold ensureAll
    split
    · exact fun _ => .refl
    · refine Moves.bind (keeps_ensureDirectory path) fun made => ?_
      split
      · refine Moves.bind ih fun above => ?_
        cases above with
        | ok => exact keeps_ensureDirectory path
        | error => exact fun _ => .refl
      · exact fun _ => .refl

theorem eq_firstPresent (paths : List Path) : Moves Eq (ofTree.firstPresent? paths) := by
  induction paths with
  | nil => exact fun _ => rfl
  | cons path paths ih =>
    refine Moves.bind (fun _ => rfl) fun present => ?_
    cases present
    · exact ih
    · exact fun _ => rfl

end FileAccess

namespace CommandLine

open FileAccess (ofTree)

variable {tree next : FileTree} {directory : Path} {name text : String}
  {render : Path → Diagnostic → String}

theorem eq_load (path : Path) : Moves Eq (Settings.load ofTree path) := by
  refine Moves.bind (fun _ => rfl) fun found => ?_
  cases found <;> exact fun _ => rfl

theorem eq_lowerInput (config : Option Path) (input : Path) :
    Moves Eq (lowerInput render ofTree config input) := by
  have hsettings : Moves Eq (settingsFor ofTree config input) := by
    cases config with
    | some path =>
      refine Moves.bind (eq_load path) fun found => ?_
      cases found <;> exact fun _ => rfl
    | none =>
      refine Moves.bind (Moves.bind (FileAccess.eq_firstPresent _) fun path => ?_) fun found => ?_
      · cases path with
        | some path => exact eq_load path
        | none => exact fun _ => rfl
      · cases found <;> exact fun _ => rfl
  refine Moves.bind (Moves.bind hsettings fun settings => ?_) fun opened => ?_
  · cases settings with
    | error => exact fun _ => rfl
    | ok settings =>
      refine Moves.bind (fun _ => rfl) fun source => ?_
      cases source <;> exact fun _ => rfl
  · cases opened <;> exact fun _ => rfl

theorem mapM_lowerInput (config : Option Path) (inputs : List Path) (tree : FileTree) :
    (inputs.mapM (lowerInput render ofTree config)).run tree =
      (inputs.map fun input => ((lowerInput render ofTree config input).run tree).1, tree) := by
  induction inputs with
  | nil => rfl
  | cons input inputs ih =>
    have htree : (lowerInput render ofTree config input).run tree =
        (((lowerInput render ofTree config input).run tree).1, tree) :=
      Prod.ext rfl (eq_lowerInput config input tree).symm
    rw [mapM_cons, run_bind, htree, run_bind, ih]
    rfl

/-! ## Delivering results -/

/-- What delivering a result into a directory came to, as seen in the tree it leaves. -/
inductive Delivered (directory : Path) (next : FileTree) (result : Result) : Outcome → Prop where
  /-- The text is in the directory under the name of the input. -/
  | written {name text : String} (htext : result.text? = some text)
    (hname : result.input.fileName? = some name)
    (hread : next.read (directory.join name) = .ok text) :
    Delivered directory next result
      { reports := result.reports ++ s!"OK: {result.input.text}\n" }
  /-- There is no text to write. -/
  | failed (htext : result.text? = none) :
    Delivered directory next result { code := 1, reports := result.reports }
  /-- The text cannot be written. -/
  | refused {text message : String} {before after : FileTree} (htext : result.text? = some text)
    (hwrite : (writeResult ofTree directory result.input text).run before =
      (.error message, after)) :
    Delivered directory next result { code := 1, reports := result.reports ++ message ++ "\n" }

/-- What writing a text can do: it fails and leaves every entry, or it comes to one write in a
tree that has every entry. -/
theorem writeResult_cases {input result}
    (h : (writeResult ofTree directory input text).run tree = (result, next)) :
    ((∃ message, result = .error message) ∧ tree.Keeps next) ∨
      (result = .ok () ∧ ∃ name between, input.fileName? = some name ∧ tree.Keeps between ∧
        between.write (directory.join name) text = .ok next) := by
  unfold writeResult at h
  cases hname : input.fileName? with
  | none =>
    rw [hname] at h
    cases h
    exact .inl ⟨⟨_, rfl⟩, .refl⟩
  | some name =>
    have hkeeps := FileAccess.keeps_ensureAll (directory :: directory.parents) tree
    simp only [hname, FileAccess.makeDirectories, run_bind] at h
    generalize (ofTree.ensureAll (directory :: directory.parents)).run tree = made at h hkeeps
    obtain ⟨made, between⟩ := made
    cases made with
    | error error =>
      cases h
      exact .inl ⟨⟨_, rfl⟩, hkeeps⟩
    | ok =>
      have hrun : (ofTree.write (directory.join name) text).run between =
        FileAccess.updating (fun tree => tree.write (directory.join name) text) between := rfl
      cases hwrite : between.write (directory.join name) text with
      | error error =>
        simp only [run_bind, hrun, FileAccess.updating, hwrite] at h
        cases h
        exact .inl ⟨⟨_, rfl⟩, hkeeps⟩
      | ok written =>
        simp only [run_bind, hrun, FileAccess.updating, hwrite] at h
        cases h
        exact .inr ⟨rfl, name, between, rfl, hkeeps, hwrite⟩

/-- One delivery, and what it leaves of a file under another name. -/
theorem deliver_step {result outcome}
    (h : (deliver ofTree (some directory) result).run tree = (outcome, next)) :
    Delivered directory next result outcome ∧ ∀ name text, Path.IsName name →
      result.input.fileName? ≠ some name → tree.read (directory.join name) = .ok text →
        next.read (directory.join name) = .ok text := by
  unfold deliver at h
  cases htext : result.text? with
  | none =>
    rw [htext] at h
    cases h
    exact ⟨.failed htext, fun _ _ _ _ hread => hread⟩
  | some text =>
    simp only [htext, run_bind] at h
    generalize hwrite : (writeResult ofTree directory result.input text).run tree = written at h
    obtain ⟨written, after⟩ := written
    obtain ⟨⟨message, rfl⟩, hkeeps⟩ | ⟨rfl, name, between, hname, hkeeps, hok⟩ :=
      writeResult_cases hwrite
    · cases h
      exact ⟨.refused htext hwrite, fun _ _ _ _ => hkeeps.read⟩
    · cases h
      have hisName := Path.isName_of_fileName hname
      refine ⟨.written htext hname (FileTree.read_write hisName hok), ?_⟩
      intro other _ hother hne hread
      have hne : other ≠ name := fun he => hne (he ▸ hname)
      exact FileTree.read_write_ne hother hisName hne hok (hkeeps.read hread)

theorem Delivered.mono {last result outcome} (h : Delivered directory next result outcome)
    (hkeep : ∀ name text, result.input.fileName? = some name →
      next.read (directory.join name) = .ok text → last.read (directory.join name) = .ok text) :
    Delivered directory last result outcome := by
  cases h with
  | written htext hname hread => exact .written htext hname (hkeep _ _ hname hread)
  | failed htext => exact .failed htext
  | refused htext hwrite => exact .refused htext hwrite

/-- The names that results are written under. -/
def names (results : List Result) : List String := results.filterMap (·.input.fileName?)

-- The tree is generalized, and with it what stands in the directory under other names: that is
-- what keeps the files of the results before.
theorem deliver_run {results} (hnames : (names results).Nodup)
    (h : (results.mapM (deliver ofTree (some directory))).run tree = (outcomes, next)) :
    Forall₂ (Delivered directory next) results outcomes ∧ ∀ name text, Path.IsName name →
      name ∉ names results → tree.read (directory.join name) = .ok text →
        next.read (directory.join name) = .ok text := by
  induction results generalizing tree outcomes with
  | nil =>
    cases h
    exact ⟨.nil, fun _ _ _ _ hread => hread⟩
  | cons result results ih =>
    rw [mapM_cons, run_bind, run_bind] at h
    generalize hfirst : (deliver ofTree (some directory) result).run tree = first at h
    generalize hrest : (results.mapM (deliver ofTree (some directory))).run first.2 = rest at h
    cases h
    obtain ⟨hdelivered, hother⟩ := deliver_step hfirst
    have hsplit : names (result :: results) = result.input.fileName?.toList ++ names results := by
      unfold names
      cases hname : result.input.fileName? <;> simp [hname]
    rw [hsplit, nodup_append] at hnames
    obtain ⟨hall, hothers⟩ := ih hnames.2.1 hrest
    refine ⟨.cons (hdelivered.mono fun name text hname => ?_) hall, ?_⟩
    · refine hothers name text (Path.isName_of_fileName hname) fun hmem => ?_
      exact hnames.2.2 name (by simp [hname]) name hmem rfl
    · intro name text hname hnot hread
      rw [hsplit, mem_append, not_or] at hnot
      exact hothers name text hname hnot.2 (hother name text hname (by simpa using hnot.1) hread)

/-- A result without a text leaves the tree as it is. -/
theorem deliver_filter (results : List Result) (tree : FileTree) :
    ((results.mapM (deliver ofTree (some directory))).run tree).2 =
      (((results.filter (·.text?.isSome)).mapM (deliver ofTree (some directory))).run tree).2 := by
  induction results generalizing tree with
  | nil => rfl
  | cons result results ih =>
    rw [mapM_cons, run_bind, run_bind]
    cases htext : result.text? with
    | none =>
      simp only [filter_cons, htext, Option.isSome_none, Bool.false_eq_true, if_false]
      rw [← ih]
      simp only [deliver, htext]
      rfl
    | some text =>
      simp only [filter_cons, htext, Option.isSome_some, if_true]
      rw [mapM_cons, run_bind, run_bind]
      exact ih _

theorem Delivered.code_le {results} (h : Forall₂ (Delivered directory next) results outcomes) :
    ∀ outcome ∈ outcomes, outcome.code ≤ 1 := by
  induction h with
  | nil => simp
  | cons hhead _ ih =>
    refine forall_mem_cons.2 ⟨?_, ih⟩
    cases hhead
    · exact Nat.zero_le 1
    · exact Nat.le_refl 1
    · exact Nat.le_refl 1

theorem code_foldl (outcome : Outcome) (hcode : outcome.code ≤ 1) (h : ∀ x ∈ outcomes, x.code ≤ 1) :
    (outcomes.foldl .andThen outcome).code =
      if outcome.code = 0 ∧ ∀ x ∈ outcomes, x.code = 0 then 0 else 1 := by
  induction outcomes generalizing outcome with
  | nil =>
    simp only [foldl_nil, not_mem_nil, false_implies, implies_true, and_true]
    split <;> omega
  | cons first outcomes ih =>
    obtain ⟨hfirst, hrest⟩ := forall_mem_cons.1 h
    rw [foldl_cons, ih _ (Nat.max_le.2 ⟨hcode, hfirst⟩) hrest]
    simp [Outcome.andThen, and_assoc]

/-- What lowering an input gives, from its settings and its text. -/
theorem lowerInput_eq (config : Option Path) (input : Path) (tree : FileTree) :
    ((lowerInput render ofTree config input).run tree).1 =
      match ((openInput ofTree config input).run tree).1 with
      | .ok (settings, source) => lowerText render input settings source
      | .error message => ⟨input, none, message ++ "\n"⟩ := by
  simp only [lowerInput, run_bind]
  generalize (openInput ofTree config input).run tree = opened
  obtain ⟨opened, after⟩ := opened
  cases opened <;> rfl

theorem lowerText_cases (input : Path) (settings : Settings) (source : String) :
    (lowerText render input settings source).input = input ∧
      ∀ text, (lowerText render input settings source).text? = some text →
        ∃ lowered, SourceFile.lowerSource settings source = .ok lowered ∧ lowered.text = text := by
  unfold lowerText
  split
  · rename_i lowered hlower
    exact ⟨rfl, fun text htext => ⟨lowered, hlower, Option.some.inj htext⟩⟩
  · exact ⟨rfl, fun text htext => by cases htext⟩

theorem input_lowerInput (config : Option Path) (input : Path) (tree : FileTree) :
    ((lowerInput render ofTree config input).run tree).1.input = input := by
  rw [lowerInput_eq]
  split
  · exact (lowerText_cases input _ _).1
  · rfl

theorem text_lowerInput {config input}
    (h : ((lowerInput render ofTree config input).run tree).1.text? = some text) :
    ∃ settings source lowered,
      ((openInput ofTree config input).run tree).1 = .ok (settings, source) ∧
        SourceFile.lowerSource settings source = .ok lowered ∧ lowered.text = text := by
  rw [lowerInput_eq] at h
  split at h
  · rename_i settings source hopen
    obtain ⟨lowered, hlower, htext⟩ := (lowerText_cases input settings source).2 text h
    exact ⟨settings, source, lowered, hopen, hlower, htext⟩
  · cases h

/-- Lowering into a directory, for inputs whose file names differ and however a report looks. Every
input that is reported with `OK:` has the lowered text in the directory under its name; the exit
code tells whether there is another one; and the inputs that cannot be lowered might as well be
left out. -/
theorem outputs_kept (render : Path → Diagnostic → String) (tree : FileTree)
    (config : Option Path) (inputs : List Path) (directory : Path)
    (hnames : (inputs.filterMap Path.fileName?).Nodup) :
    let result (input : Path) : Result := ((lowerInput render ofTree config input).run tree).1
    let performed (inputs : List Path) :=
      (perform render ofTree ⟨.lower inputs (some directory), config⟩).run tree
    (∀ input text, (result input).text? = some text → ∃ settings source lowered,
      ((openInput ofTree config input).run tree).1 = .ok (settings, source) ∧
        SourceFile.lowerSource settings source = .ok lowered ∧ lowered.text = text) ∧
    (∃ outcomes,
      Forall₂ (Delivered directory (performed inputs).2) (inputs.map result) outcomes ∧
        (performed inputs).1 = outcomes.foldl .andThen {} ∧
        (performed inputs).1.code = if ∀ outcome ∈ outcomes, outcome.code = 0 then 0 else 1) ∧
    (performed (inputs.filter fun input => (result input).text?.isSome)).2 =
      (performed inputs).2 := by
  intro result performed
  have hrun (inputs : List Path) : performed inputs =
      ((((inputs.map result).mapM (deliver ofTree (some directory))).run tree).1.foldl .andThen {},
        (((inputs.map result).mapM (deliver ofTree (some directory))).run tree).2) := by
    simp only [performed, perform, run_bind, mapM_lowerInput]
    rfl
  refine ⟨fun input text => text_lowerInput, ?_, ?_⟩
  · have hnames : (names (inputs.map result)).Nodup := by
      simpa [names, result, filterMap_map, Function.comp_def, input_lowerInput] using hnames
    rw [hrun]
    generalize hmap : ((inputs.map result).mapM (deliver ofTree (some directory))).run tree = made
    obtain ⟨outcomes, next⟩ := made
    obtain ⟨hall, -⟩ := deliver_run hnames hmap
    refine ⟨outcomes, hall, rfl, ?_⟩
    simpa using code_foldl {} (Nat.zero_le 1) (Delivered.code_le hall)
  · rw [hrun, hrun]
    dsimp only
    rw [deliver_filter (inputs.map result), filter_map]
    rfl

/-- A tree with the inputs `a/x.go` and `b/` with a file name. -/
def twoInputs (name text : String) : FileTree :=
  ((FileTree.emptyIn ["w"]).add (.ofString "a/x.go") "package a\n").add ⟨"b", [name]⟩ text

theorem outputs_kept_beside_failure :
    let inputs := [Path.ofString "a/x.go", Path.ofString "b/y.go"]
    let tree := twoInputs "y.go" "func"
    let performed :=
      (perform report ofTree ⟨.lower inputs (some (.ofString "out")), none⟩).run tree
    (inputs.filterMap Path.fileName?).Nodup ∧ performed.1.code = 1 ∧
      ∃ outcomes, Forall₂ (Delivered (.ofString "out") performed.2)
        (inputs.map fun input => ((lowerInput report ofTree none input).run tree).1) outcomes := by
  have hnames : ([Path.ofString "a/x.go", .ofString "b/y.go"].filterMap Path.fileName?).Nodup := by
    decide
  obtain ⟨-, ⟨outcomes, hall, -⟩, -⟩ :=
    outputs_kept report (twoInputs "y.go" "func") none _ (.ofString "out") hnames
  exact ⟨hnames, by decide +kernel, outcomes, hall⟩

/-- Of two inputs with one file name, both reported as written, the first is lost. -/
theorem output_lost :
    let performed := (perform report ofTree ⟨.lower [.ofString "a/x.go", .ofString "b/x.go"]
      (some (.ofString "out")), none⟩).run (twoInputs "x.go" "package b\n")
    performed.1 = { reports := "OK: a/x.go\nOK: b/x.go\n" } ∧
      performed.2.read (.ofString "out/x.go") = .ok "package b\n" := by
  decide +kernel

end CommandLine

end ScriptLowering
