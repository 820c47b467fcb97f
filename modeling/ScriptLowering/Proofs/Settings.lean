import Mathlib.Data.List.Basic
import Mathlib.Data.List.TakeWhile
import ScriptLowering.Settings.Basic

/-!
# Settings survive being written down

A text of settings is written line by line: blank lines, headers, and assignments of texts, quoted
or bare, and of switches, with white space and comments around them. Reading it gives every setting
the value of its last assignment, with each character as it was written (`ofText_written`).
-/

namespace ScriptLowering

open List

/-! ## Texts -/

namespace Text

variable {sep : Char} {text rest ws ws' : List Char}

/-- White space within a line. -/
def Gap (cs : List Char) : Prop := ∀ c ∈ cs, isWhite c = true ∧ c ≠ '\n'

/-- Nothing of it is trimmed. -/
def Framed (cs : List Char) : Prop :=
  (∀ c ∈ cs.head?, isWhite c = false) ∧ ∀ c ∈ cs.getLast?, isWhite c = false

theorem gap_nil : Gap [] := by simp [Gap]

theorem framed_singleton {c} (h : isWhite c = false) : Framed [c] := by simp [Framed, h]

theorem Framed.append (h : Framed ws) (hne : ws ≠ []) (h' : Framed ws') (hne' : ws' ≠ []) :
    Framed (ws ++ text ++ ws') := by
  constructor
  · obtain ⟨c, cs, rfl⟩ := exists_cons_of_ne_nil hne
    exact h.1
  · obtain ⟨cs, c, rfl⟩ := (eq_nil_or_concat' ws').resolve_left hne'
    simpa [← append_assoc] using h'.2

theorem trim_framed (hws : Gap ws) (htext : Framed text) (hws' : Gap ws') :
    trim (ws ++ text ++ ws') = text := by
  have hwhite : ∀ c ∈ ws, isWhite c = true := fun c hc => (hws c hc).1
  have hwhite' : ∀ c ∈ ws', isWhite c = true := fun c hc => (hws' c hc).1
  cases text with
  | nil =>
    have hnil : (ws ++ ws').dropWhile isWhite = [] :=
      dropWhile_eq_nil_iff.2 (forall_mem_append.2 ⟨hwhite, hwhite'⟩)
    simp [trim, trimBy, hnil]
  | cons c cs =>
    obtain ⟨z, zs, hrev⟩ := exists_cons_of_ne_nil
      (reverse_ne_nil_iff.2 (cons_ne_nil c cs))
    have hfirst : isWhite c = false := htext.1 c rfl
    have hlast : isWhite z = false := htext.2 z (by rw [getLast?_eq_head?_reverse, hrev]; rfl)
    have hfront : (ws ++ (c :: cs ++ ws')).dropWhile isWhite = c :: cs ++ ws' := by
      simp [dropWhile_append_of_pos hwhite, hfirst]
    have hback : (ws'.reverse ++ z :: zs).dropWhile isWhite = z :: zs := by
      rw [dropWhile_append_of_pos (by simpa using hwhite')]
      simp [hlast]
    rw [trim, trimBy, append_assoc, hfront, reverse_append, hrev, hback, ← hrev,
      reverse_reverse]

theorem cutAt?_append (h : ∀ c ∈ text, c ≠ sep) :
    cutAt? sep (text ++ sep :: rest) = some (text, rest) := by
  have hkey : ∀ c ∈ text, (c != sep) = true := fun c hc => by simpa using h c hc
  simp [cutAt?, dropWhile_append_of_pos hkey, takeWhile_append_of_pos hkey]

theorem pieces_append {piece more} (h : ∀ c ∈ text, c ≠ sep)
    (hrest : pieces sep rest = piece :: more) :
    pieces sep (text ++ rest) = (text ++ piece) :: more := by
  induction text with
  | nil => exact hrest
  | cons c cs ih =>
    obtain ⟨hc, hcs⟩ := forall_mem_cons.1 h
    simp [pieces, hc, ih hcs]

/-- Lines that are joined by a separator are the pieces. -/
theorem pieces_intercalate {line lines} (h : ∀ line' ∈ line :: lines, ∀ c ∈ line', c ≠ sep) :
    pieces sep ([sep].intercalate (line :: lines)) = line :: lines := by
  induction lines generalizing line with
  | nil => simpa using @pieces_append sep line [] [] [] (h line (by simp)) rfl
  | cons next lines ih =>
    obtain ⟨hline, hlines⟩ := forall_mem_cons.1 h
    have hnext := @pieces_append sep line (sep :: [sep].intercalate (next :: lines)) [] _ hline
      (by rw [pieces, if_pos rfl, ih hlines])
    simpa [intercalate_cons_cons] using hnext

end Text

namespace Settings

open Text

/-! ## What lines say -/

/-- The settings that are texts. -/
inductive TextKey where
  | containerGet
  | containerSet
  | discardPrefix
deriving DecidableEq

namespace TextKey

def name : TextKey → String
  | containerGet => "container_get"
  | containerSet => "container_set"
  | discardPrefix => "discard_prefix"

def get : TextKey → Settings → String
  | containerGet, s => s.lower.containerGet
  | containerSet, s => s.lower.containerSet
  | discardPrefix, s => s.lower.discardPrefix

def set : TextKey → String → Settings → Settings
  | containerGet, value, s => { s with lower.containerGet := value }
  | containerSet, value, s => { s with lower.containerSet := value }
  | discardPrefix, value, s => { s with lower.discardPrefix := value }

end TextKey

/-- What a line says. -/
inductive Item where
  | blank
  | header (name : String)
  | text (key : TextKey) (value : String)
  | switch (value : Bool)
  /-- An entry of a section that is not read. -/
  | foreign

namespace Item

/-- A character with a meaning of its own in a line. -/
def isMark (c : Char) : Bool := c ∈ ['#', '"', '=', '[', ']', '\n']

/-- Text in which no comment, no quoted text and no line begins. -/
def Plain (cs : List Char) : Prop := ∀ c ∈ cs, c ≠ '"' ∧ c ≠ '#' ∧ c ≠ '\n'

/-- How the value of a key is written. -/
inductive Shows : Item → String → List Char → Prop
  | quoted (key : TextKey) {value : List Char} : value ≠ [] →
    (∀ c ∈ value, c ≠ '"' ∧ c ≠ '\n') →
    Shows (.text key (String.ofList value)) key.name ('"' :: value ++ ['"'])
  | bare (key : TextKey) {value : List Char} : value ≠ [] → Framed value → Plain value →
    Shows (.text key (String.ofList value)) key.name value
  | switch (value : Bool) : Shows (.switch value) "strict_literals" (toString value).toList

/-- How an item is written, apart from white space and a comment around it. -/
inductive Written : Item → List Char → Prop
  | blank : Written .blank []
  | header {name : List Char} : Plain name →
    Written (.header (String.ofList (trim name))) ('[' :: name ++ [']'])
  | assignment {item : Item} {key : String} {ws ws' value : List Char} : Gap ws →
    Gap ws' → Shows item key value →
    Written item (key.toList ++ ws ++ '=' :: (ws' ++ value))
  | foreign {key value : List Char} : (∀ c ∈ key, isMark c = false) →
    (∀ c ∈ value, c = '=' ∨ isMark c = false) → Framed (key ++ '=' :: value) →
    Written .foreign (key ++ '=' :: value)

/-- A comment to the end of the line, or none. -/
def IsComment (cs : List Char) : Prop := cs = [] ∨ ∃ text, cs = '#' :: text ∧ ∀ c ∈ text, c ≠ '\n'

/-- How an item is written on a line. -/
def OnLine (item : Item) (line : List Char) : Prop :=
  ∃ ws text ws' comment, Gap ws ∧ item.Written text ∧ Gap ws' ∧ IsComment comment ∧
    line = ws ++ text ++ ws' ++ comment

/-- The item can stand in this section. -/
def Allowed (section_ : String) : Item → Prop
  | .text .. => section_ = "lower"
  | .switch _ => section_ = "scan"
  | .foreign => section_ ≠ "lower" ∧ section_ ≠ "scan"
  | .blank | .header _ => True

/-- The section of the lines after the item. -/
def after (section_ : String) : Item → String
  | .header name => name
  | _ => section_

/-- Every item stands in a section that it can stand in. -/
def AllAllowed (section_ : String) : List Item → Prop
  | [] => True
  | item :: items => item.Allowed section_ ∧ AllAllowed (item.after section_) items

def apply : Item → Settings → Settings
  | .text key value, s => key.set value s
  | .switch value, s => { s with scan.strictLiterals := value }
  | _, s => s

/-- The value that the item gives a text. -/
def textOf (key : TextKey) : Item → Option String
  | .text key' value => if key' = key then some value else none
  | _ => none

/-- The value that the item gives the switch. -/
def switchOf : Item → Option Bool
  | .switch value => some value
  | _ => none

/-! ## Reading what is written -/

variable {item : Item} {name section_ : String} {s : Settings}
  {text rest value ws ws' comment line : List Char}

theorem withoutComment_append {quoted} (h : ∀ c ∈ text, c ≠ '"' ∧ (quoted = false → c ≠ '#')) :
    withoutComment quoted (text ++ rest) = text ++ withoutComment quoted rest := by
  induction text with
  | nil => rfl
  | cons c cs ih =>
    obtain ⟨⟨hquote, hhash⟩, hcs⟩ := forall_mem_cons.1 h
    rw [cons_append, withoutComment.eq_def]
    split
    · contradiction
    · rename_i heq
      obtain ⟨rfl, rfl⟩ := cons.inj heq
      cases quoted <;> simp_all
    · simp_all
    · simp_all

/-- Text on one line in which no comment begins. -/
structure Inline (text : List Char) : Prop where
  oneLine : ∀ c ∈ text, c ≠ '\n'
  kept : ∀ rest, withoutComment false (text ++ rest) = text ++ withoutComment false rest

theorem Inline.append (h : Inline text) (h' : Inline rest) : Inline (text ++ rest) where
  oneLine := forall_mem_append.2 ⟨h.oneLine, h'.oneLine⟩
  kept more := by rw [append_assoc, h.kept, h'.kept, append_assoc]

theorem Plain.inline (h : Plain text) : Inline text where
  oneLine c hc := (h c hc).2.2
  kept _ := withoutComment_append fun c hc => ⟨(h c hc).1, fun _ => (h c hc).2.1⟩

theorem plain_singleton {c} (h : c ≠ '"' ∧ c ≠ '#' ∧ c ≠ '\n') : Plain [c] := by
  simpa [Plain] using h

theorem of_isMark {c} (h : isMark c = false) :
    (c ≠ '"' ∧ c ≠ '#' ∧ c ≠ '\n') ∧ c ≠ '=' ∧ c ≠ '[' := by
  simp only [isMark, mem_cons, decide_eq_false_iff_not, not_or] at h
  exact ⟨⟨h.2.1, h.1, h.2.2.2.2.2.1⟩, h.2.2.1, h.2.2.2.1⟩

theorem isMark_of_gap (h : Gap ws) : ∀ c ∈ ws, isMark c = false := by
  intro c hc
  obtain ⟨hwhite, hline⟩ := h c hc
  rw [isMark, decide_eq_false_iff_not]
  intro hmark
  simp only [mem_cons, hline, not_mem_nil, or_false] at hmark
  rcases hmark with rfl | rfl | rfl | rfl | rfl <;> simp [isWhite, whiteRanges] at hwhite

theorem inline_of_isMark (h : ∀ c ∈ text, isMark c = false) : Inline text :=
  Plain.inline fun c hc => (of_isMark (h c hc)).1

/-- Some ordinary characters. -/
def isWord (cs : List Char) : Bool :=
  cs ≠ [] && cs.all fun c => !isMark c && !isWhite c

theorem of_isWord (h : isWord text = true) :
    text ≠ [] ∧ (∀ c ∈ text, isMark c = false) ∧ Framed text := by
  simp only [isWord, Bool.and_eq_true, decide_eq_true_eq, all_eq_true, Bool.not_eq_true'] at h
  exact ⟨h.1, fun c hc => (h.2 c hc).1, fun c hc => (h.2 c (mem_of_mem_head? hc)).2,
    fun c hc => (h.2 c (mem_of_mem_getLast? hc)).2⟩

theorem Shows.name_isWord (h : Shows item name value) :
    isWord name.toList = true ∧ String.ofList (trimBy (· == '"') name.toList) = name := by
  cases h with
  | quoted key | bare key => cases key <;> decide +kernel
  | switch => decide +kernel

theorem Shows.inline (h : Shows item name value) :
    value ≠ [] ∧ Inline value ∧ Framed value := by
  cases h with
  | @quoted _ value _ hvalue =>
    have hquote : Framed ['"'] := framed_singleton (by decide)
    refine ⟨by simp, ⟨?_, fun rest => ?_⟩, hquote.append (by simp) hquote (by simp)⟩
    · simpa [or_imp, forall_and] using fun c hc => (hvalue c hc).2
    · have hinner : withoutComment true (value ++ '"' :: rest) =
          value ++ '"' :: withoutComment false rest :=
        withoutComment_append fun c hc => ⟨(hvalue c hc).1, by simp⟩
      simp [withoutComment, hinner]
  | bare _ hne hframed hvalue => exact ⟨hne, hvalue.inline, hframed⟩
  | switch value =>
    have hword : isWord (toString value).toList = true := by cases value <;> decide +kernel
    obtain ⟨hne, hmark, hframed⟩ := of_isWord hword
    exact ⟨hne, inline_of_isMark hmark, hframed⟩

theorem Written.inline (h : item.Written text) : Inline text ∧ Framed text := by
  cases h with
  | blank => exact ⟨⟨by simp, fun _ => rfl⟩, by simp [Framed]⟩
  | header hname =>
    have hopen : Inline ['['] := (plain_singleton (by decide)).inline
    exact ⟨(hopen.append hname.inline).append (plain_singleton (by decide)).inline,
      (framed_singleton (by decide)).append (by simp) (framed_singleton (by decide))
        (by simp)⟩
  | @assignment _ name ws ws' value hws hws' hshows =>
    obtain ⟨hne, hmark, hframed⟩ := of_isWord hshows.name_isWord.1
    obtain ⟨hne', hvalue, hframed'⟩ := hshows.inline
    have htext : name.toList ++ ws ++ '=' :: (ws' ++ value) =
        name.toList ++ (ws ++ ['='] ++ ws') ++ value := by simp
    have hgap {ws : List Char} (h : Gap ws) := inline_of_isMark (isMark_of_gap h)
    rw [htext]
    refine ⟨((inline_of_isMark hmark).append ?_).append hvalue, hframed.append hne hframed' hne'⟩
    exact ((hgap hws).append (plain_singleton (by decide)).inline).append (hgap hws')
  | foreign hkey hvalue hframed =>
    refine ⟨(inline_of_isMark hkey).append (Plain.inline ?_), hframed⟩
    refine forall_mem_cons.2 ⟨by decide, fun c hc => ?_⟩
    rcases hvalue c hc with rfl | hmark
    · decide
    · exact (of_isMark hmark).1

theorem OnLine.oneLine (h : item.OnLine line) : ∀ c ∈ line, c ≠ '\n' := by
  obtain ⟨ws, text, ws', comment, hws, hwritten, hws', hcomment, rfl⟩ := h
  have hgap {ws : List Char} (h : Gap ws) := (inline_of_isMark (isMark_of_gap h)).oneLine
  simp only [forall_mem_append]
  refine ⟨⟨⟨hgap hws, hwritten.inline.1.oneLine⟩, hgap hws'⟩, ?_⟩
  rcases hcomment with rfl | ⟨text, rfl, htext⟩
  · simp
  · exact forall_mem_cons.2 ⟨by decide, htext⟩

/-- What is trimmed of a line: white space and a comment. -/
theorem trim_line (hws : Gap ws) (h : item.Written text) (hws' : Gap ws')
    (hcomment : IsComment comment) :
    trim (withoutComment false (ws ++ text ++ ws' ++ comment)) = text := by
  have hgap {ws : List Char} (h : Gap ws) := inline_of_isMark (isMark_of_gap h)
  have hnone : withoutComment false comment = [] := by
    rcases hcomment with rfl | ⟨_, rfl, -⟩ <;> rfl
  rw [(((hgap hws).append h.inline.1).append (hgap hws')).kept, hnone, append_nil,
    trim_framed hws h.inline.2 hws']

/-- A line with an equals sign behind its key is an assignment. -/
theorem ofText_assignment {key} (h : trim (withoutComment false line) = key ++ '=' :: value)
    (hkey : ∀ c ∈ key, isMark c = false) : Line.ofText line =
      .assignment (String.ofList (trimBy (· == '"') (trim key))) value := by
  have hbracket : bracketed? (key ++ '=' :: value) = none := by
    cases key with
    | nil => rfl
    | cons c cs =>
      have hc := (of_isMark (hkey c (by simp))).2.2
      simp [bracketed?, hc]
  have hcut : cutAt? '=' (key ++ '=' :: value) = some (key, value) :=
    cutAt?_append fun c hc => (of_isMark (hkey c hc)).2.1
  simp [Line.ofText, h, hbracket, hcut]

/-- The value of a key is taken over as it is meant. -/
theorem Shows.assign (h : Shows item name value) (hws : Gap ws)
    (hallowed : item.Allowed section_) :
    Settings.assign section_ name (ws ++ value) s = .ok (item.apply s) ∧
      item.after section_ = section_ := by
  have htrim := trim_framed hws h.inline.2.2 gap_nil
  rw [append_nil] at htrim
  have htext (key : TextKey) {value value' : List Char}
      (h : textValue? value = some (String.ofList value')) :
      Settings.assign "lower" key.name value s =
        .ok (apply (.text key (String.ofList value')) s) := by
    cases key <;> simp [Settings.assign, entriesOf, TextKey.name, Entry.key, Entry.assign, h, apply,
      TextKey.set]
  cases h with
  | quoted key hne =>
    obtain rfl : section_ = "lower" := hallowed
    refine ⟨htext key ?_, rfl⟩
    rw [textValue?, htrim]
    simp [hne]
  | @bare key value hne _ hvalue =>
    obtain rfl : section_ = "lower" := hallowed
    refine ⟨htext key ?_, rfl⟩
    obtain ⟨c, cs, rfl⟩ := exists_cons_of_ne_nil hne
    have hquote := (hvalue c (by simp)).1
    simp [textValue?, htrim, hquote]
  | switch value =>
    obtain rfl : section_ = "scan" := hallowed
    have hswitch : switchValue? (ws ++ (toString value).toList) = some value := by
      rw [switchValue?, htrim, String.ofList_toList]
      cases value <;> rfl
    exact ⟨by simp [Settings.assign, entriesOf, Entry.key, Entry.assign, hswitch, apply], rfl⟩

/-- Reading a line does what its item says. -/
theorem OnLine.reads (h : item.OnLine line) (hallowed : item.Allowed section_) (path : String)
    (n : Nat) (lines : List Line) :
    ofLines path s section_ n (Line.ofText line :: lines) =
      ofLines path (item.apply s) (item.after section_) (n + 1) lines := by
  obtain ⟨ws, text, ws', comment, hws, hwritten, hws', hcomment, rfl⟩ := h
  have htrim := trim_line hws hwritten hws' hcomment
  cases hwritten with
  | blank =>
    rw [Line.ofText, htrim]
    rfl
  | header =>
    rw [Line.ofText, htrim]
    simp [bracketed?, ofLines, apply, after]
  | assignment hgap hgap' hshows =>
    obtain ⟨hword, hname⟩ := hshows.name_isWord
    obtain ⟨-, hmark, hframed⟩ := of_isWord hword
    have hkey := trim_framed gap_nil hframed hgap
    obtain ⟨hassign, hafter⟩ := @Shows.assign _ _ _ s _ _ hshows hgap' hallowed
    rw [nil_append] at hkey
    rw [ofText_assignment htrim (forall_mem_append.2 ⟨hmark, isMark_of_gap hgap⟩), ofLines,
      hkey, hname, hassign, hafter]
  | foreign hkey =>
    have hnone : entriesOf section_ = none := by
      obtain ⟨hlower, hscan⟩ := hallowed
      unfold entriesOf
      split <;> simp_all
    rw [ofText_assignment htrim hkey, ofLines, Settings.assign, hnone]
    rfl

theorem ofLines_written {items lines} (h : List.Forall₂ OnLine items lines)
    (hallowed : AllAllowed section_ items) (path : String) (n : Nat) :
    ofLines path s section_ n (lines.map Line.ofText) =
      .ok (items.foldl (fun s item => item.apply s) s) := by
  induction h generalizing s section_ n with
  | nil => rfl
  | cons hline _ ih =>
    rw [map_cons, hline.reads hallowed.1, ih hallowed.2]
    rfl

/-- The last item that gives a setting a value counts. -/
theorem foldl_last {α : Type} (get : Settings → α) (value? : Item → Option α)
    (h : ∀ item s, get (item.apply s) = (value? item).getD (get s)) (items : List Item)
    (s : Settings) : get (items.foldl (fun s item => item.apply s) s) =
      ((items.filterMap value?).getLast?).getD (get s) := by
  induction items generalizing s with
  | nil => rfl
  | cons item items ih =>
    rw [List.foldl_cons, ih, h, filterMap_cons]
    cases value? item with
    | none => rfl
    | some value => simp [getLast?_cons]

end Item

/-- A text of settings, every line written as it should be, is read as the last values that it
gives; a setting that it does not give keeps its default. -/
theorem ofText_written {items line lines} (h : List.Forall₂ Item.OnLine items (line :: lines))
    (hallowed : Item.AllAllowed "" items) (path : String) :
    ∃ s, ofText path (String.ofList (['\n'].intercalate (line :: lines))) = .ok s ∧
      (∀ key, key.get s = ((items.filterMap (Item.textOf key)).getLast?).getD (key.get {})) ∧
      s.scan.strictLiterals = ((items.filterMap Item.switchOf).getLast?).getD true := by
  have hlines {items : List Item} {lines : List (List Char)}
      (h : List.Forall₂ Item.OnLine items lines) : ∀ line ∈ lines, ∀ c ∈ line, c ≠ '\n' := by
    induction h with
    | nil => simp
    | cons hline _ ih => exact forall_mem_cons.2 ⟨hline.oneLine, ih⟩
  refine ⟨items.foldl (fun s item => item.apply s) {}, ?_, fun key => ?_, ?_⟩
  · rw [ofText, String.toList_ofList, pieces_intercalate (hlines h)]
    exact Item.ofLines_written h hallowed path 1
  · refine Item.foldl_last key.get (Item.textOf key) (fun item s => ?_) items {}
    cases item with
    | text key' value => cases key <;> cases key' <;> rfl
    | _ => cases key <;> rfl
  · refine Item.foldl_last (·.scan.strictLiterals) Item.switchOf (fun item s => ?_) items {}
    cases item with
    | text key => cases key <;> rfl
    | _ => rfl

theorem ofText_written_commented :
    ∃ s, ofText "" "[lower]\ndiscard_prefix = \"#_\" # unused" = .ok s ∧
      s.lower.discardPrefix = "#_" := by
  have hheader : Item.OnLine (.header "lower") "[lower]".toList :=
    ⟨[], _, [], [], gap_nil, @Item.Written.header "lower".toList (by simp [Item.Plain]),
      gap_nil, .inl rfl, rfl⟩
  have hspace : Gap [' '] := by simp [Gap, isWhite, whiteRanges]
  have hvalue : Item.Shows (.text .discardPrefix "#_") "discard_prefix" "\"#_\"".toList :=
    @Item.Shows.quoted .discardPrefix "#_".toList (by decide) (by simp)
  have htext : Item.OnLine (.text .discardPrefix "#_") "discard_prefix = \"#_\" # unused".toList :=
    ⟨[], _, [' '], "# unused".toList, gap_nil, .assignment hspace hspace hvalue, hspace,
      .inr ⟨" unused".toList, rfl, by simp⟩, rfl⟩
  obtain ⟨s, hs, hkey, -⟩ := ofText_written (.cons hheader (.cons htext .nil))
    ⟨trivial, rfl, trivial⟩ ""
  exact ⟨s, hs, hkey .discardPrefix⟩

end Settings

end ScriptLowering
