import ScriptLowering.Proofs.Segments

/-!
# The grammar of numerals

A numeral is read by looking ahead, and described by a grammar (`IsNumeral`). What is read without a
fault is in the grammar (`read_isNumeral`). Conversely a numeral of the grammar is read to its end
wherever something follows that cannot belong to it (`IsNumeral.read_append`), so where a numeral
ends does not depend on what stood behind it.
-/

namespace ScriptLowering.Token.Numeral

open List

variable {p : Char → Bool} {cs e m marks rest w : List Char} {c x : Char} {kind : Kind}

/-- Digits of a class, at least one. -/
def Digits (p : Char → Bool) (ds : List Char) : Prop := ds ≠ [] ∧ ∀ d ∈ ds, p d = true

/-- Digits, with a point among, before or behind them if the kind says so. -/
inductive Mantissa (p : Char → Bool) : Kind → List Char → Prop where
  | whole {ds : List Char} (digits : Digits p ds) : Mantissa p .int ds
  | point {ds fraction : List Char} (digits : Digits p (ds ++ fraction)) :
      Mantissa p .float (ds ++ '.' :: fraction)

/-- A mark, which may be signed, and decimal digits. -/
inductive Exponent (marks : List Char) : List Char → Prop where
  | mk {mark : Char} {sign ds : List Char} (mark_mem : mark ∈ marks)
      (sign_mem : sign ∈ [[], ['+'], ['-']]) (digits : Digits Char.isDigit ds) :
      Exponent marks (mark :: (sign ++ ds))

/-- The numerals of each kind. A hexadecimal one with a point needs an exponent. -/
inductive IsNumeral : Kind → List Char → Prop where
  | decimal {kind : Kind} {m : List Char} (mantissa : Mantissa Char.isDigit kind m) :
      IsNumeral kind m
  | decimalPower {kind : Kind} {m e : List Char} (mantissa : Mantissa Char.isDigit kind m)
      (exponent : Exponent ['e', 'E'] e) : IsNumeral .float (m ++ e)
  | hexadecimal {x : Char} {ds : List Char} (mark : x ∈ ['x', 'X'])
      (digits : Digits Source.isHexDigit ds) : IsNumeral .int ('0' :: x :: ds)
  | hexPower {x : Char} {kind : Kind} {m e : List Char} (mark : x ∈ ['x', 'X'])
      (mantissa : Mantissa Source.isHexDigit kind m) (exponent : Exponent ['p', 'P'] e) :
      IsNumeral .float ('0' :: x :: (m ++ e))

/-! ## What is read is a numeral -/

theorem take_run (p : Char → Bool) (cs : List Char) : cs.take (run p cs) = cs.takeWhile p :=
  (prefix_iff_eq_take.mp ( takeWhile_prefix p)).symm

theorem of_mem_take_run (h : c ∈ cs.take (run p cs)) : p c = true := by
  rw [take_run] at h
  exact all_eq_true.1 all_takeWhile c h

theorem digits_take_run (h : run p cs ≠ 0) : Digits p (cs.take (run p cs)) := by
  refine ⟨?_, fun d hd => of_mem_take_run hd⟩
  rw [take_run]
  rintro hnil
  simp [run, hnil] at h

/-- The faults of numerals. -/
def faults : Fault → Bool
  | .hexWithoutDigits | .hexWithoutExponent | .exponentWithoutDigits _ | .imaginary _
  | .malformedNumber _ => true
  | _ => false

/-- The numeral is faulty, and for a fault of numerals. -/
def Faulty (numeral : Numeral) : Prop :=
  numeral.kind = .int ∧ ∃ fault, numeral.fault = some fault ∧ faults fault = true

/-- A part of a numeral is one as far as it goes, or faulty. -/
def Part.Reads (cs : List Char) : Part → Prop
  | .ok found => IsNumeral found.2 (cs.take found.1)
  | .error numeral => numeral.Faulty

theorem exponent_reads {length mark} (hdrop : cs.drop length = mark :: rest) (hmark : mark ∈ marks)
    (h : ∀ e, Exponent marks e → IsNumeral .float (cs.take length ++ e)) :
    (exponent cs length).Reads cs := by
  have hrest : cs.drop (length + 1) = rest := by rw [← drop_drop, hdrop]; rfl
  -- With the sign that stands there, the digits behind it make an exponent.
  have hsign {sign tail : List Char} (hsplit : rest = sign ++ tail)
      (hmem : sign ∈ [[], ['+'], ['-']]) :
      Part.Reads cs (if run Char.isDigit (cs.drop (length + 1 + sign.length)) = 0 then
          .error (faulty cs (length + 1 + sign.length) .exponentWithoutDigits)
        else .ok (length + 1 + sign.length + run Char.isDigit (cs.drop (length + 1 + sign.length)),
          .float)) := by
    have htail : cs.drop (length + 1 + sign.length) = tail := by
      rw [← drop_drop, hrest, hsplit, drop_left]
    rw [htail]
    split
    · exact ⟨rfl, _, rfl, rfl⟩
    · rename_i hdigits
      have htake : cs.take (length + 1 + sign.length + run Char.isDigit tail) =
          cs.take length ++ mark :: (sign ++ tail.take (run Char.isDigit tail)) := by
        rw [Nat.add_assoc, Nat.add_assoc, take_add, hdrop, Nat.add_comm 1,
          take_succ_cons, hsplit, take_length_add_append]
      show IsNumeral .float _
      rw [htake]
      exact h _ ⟨hmark, hmem, digits_take_run hdigits⟩
  unfold exponent
  rw [hrest]
  split
  · exact @hsign ['+'] _ rfl (by simp)
  · exact @hsign ['-'] _ rfl (by simp)
  · exact @hsign [] _ rfl (by simp)

theorem digits_take_append {ds} (h : run p cs ≠ 0 ∨ run p ds ≠ 0) :
    Digits p (cs.take (run p cs) ++ ds.take (run p ds)) := by
  refine ⟨?_, ?_⟩
  · rcases h with h | h
    · exact append_ne_nil_of_left_ne_nil (digits_take_run h).1 _
    · exact append_ne_nil_of_right_ne_nil _ (digits_take_run h).1
  · intro d hd
    rcases mem_append.1 hd with hd | hd
    · exact of_mem_take_run hd
    · exact of_mem_take_run hd

theorem take_point {n} (h : cs.drop n = '.' :: rest) (m : Nat) :
    cs.take (n + 1 + m) = cs.take n ++ '.' :: rest.take m := by
  rw [Nat.add_assoc, take_add, h, Nat.add_comm 1, take_succ_cons]

/-- A numeral begins here: a digit, or a point and a digit. -/
def Starts (cs : List Char) : Prop :=
  run Char.isDigit cs ≠ 0 ∨
    ∃ rest, cs.drop (run Char.isDigit cs) = '.' :: rest ∧ run Char.isDigit rest ≠ 0

theorem starts_cons
    (h : (c.isDigit || (c == '.' && cs.head?.any Char.isDigit)) = true) : Starts (c :: cs) := by
  rcases Bool.or_eq_true_iff.1 h with hdigit | hpoint
  · exact .inl (by simp [run, hdigit])
  · obtain ⟨hc, hhead⟩ := Bool.and_eq_true_iff.1 hpoint
    obtain rfl := eq_of_beq hc
    have hpoint : run Char.isDigit ('.' :: cs) = 0 := by simp [run]
    refine .inr ⟨cs, by rw [hpoint]; rfl, ?_⟩
    cases cs with
    | nil => contradiction
    | cons d ds => simp_all [run]

theorem decimal_reads (hstart : Starts cs) : (decimal cs).Reads cs := by
  unfold decimal
  extract_lets whole
  split
  rename_i length kind hfound
  have hmantissa : Mantissa Char.isDigit kind (cs.take length) := by
    split at hfound
    · rename_i hpoints
      obtain ⟨rfl, rfl⟩ := Prod.mk.inj hfound
      rcases hstart with hwhole | ⟨rest, hrest, hdigits⟩
      · exact .whole (digits_take_run hwhole)
      · obtain rfl := (cons.inj (hrest.symm.trans hpoints)).2
        exact absurd rfl hdigits
    · rename_i digits _ hpoint
      obtain ⟨rfl, rfl⟩ := Prod.mk.inj hfound
      rw [take_point hpoint]
      refine .point (digits_take_append ?_)
      rcases hstart with hwhole | ⟨rest, hrest, hdigits⟩
      · exact .inl hwhole
      · obtain rfl := (cons.inj (hrest.symm.trans hpoint)).2
        exact .inr hdigits
    · rename_i hnone
      obtain ⟨rfl, rfl⟩ := Prod.mk.inj hfound
      rcases hstart with hwhole | ⟨rest, hrest, -⟩
      · exact .whole (digits_take_run hwhole)
      · exact absurd hrest (hnone rest)
  split
  · rename_i he
    exact exponent_reads he (by simp) fun e (h : Exponent ['e', 'E'] e) => .decimalPower hmantissa h
  · rename_i he
    exact exponent_reads he (by simp) fun e (h : Exponent ['e', 'E'] e) => .decimalPower hmantissa h
  · exact .decimal hmantissa

theorem hexadecimal_reads (hx : x ∈ ['x', 'X']) :
    (hexadecimal ('0' :: x :: cs)).Reads ('0' :: x :: cs) := by
  unfold hexadecimal
  extract_lets whole fraction length
  have htake (n : Nat) : ('0' :: x :: cs).take (2 + n) = '0' :: x :: cs.take n := by
    rw [Nat.add_comm]
    rfl
  have hfraction : (∃ digits, cs.drop whole = '.' :: digits ∧
      fraction = some (run Source.isHexDigit digits)) ∨ fraction = none := by
    unfold fraction
    rw [Nat.add_comm]
    split
    · rename_i digits hpoint
      exact .inl ⟨digits, hpoint, rfl⟩
    · exact .inr rfl
  clear_value fraction
  split
  · exact ⟨rfl, _, rfl, rfl⟩
  · rename_i hdigits
    obtain ⟨kind, m, hm, hmantissa, hkind⟩ : ∃ kind m, Mantissa Source.isHexDigit kind m ∧
        ('0' :: x :: cs).take length = '0' :: x :: m ∧ (fraction = none → kind = .int) := by
      rcases hfraction with ⟨digits, hpoint, rfl⟩ | rfl
      · refine ⟨.float, cs.take whole ++ '.' :: digits.take (run Source.isHexDigit digits),
          .point (digits_take_append ?_), ?_, by simp⟩
        · rwa [Option.getD_some, not_and_or] at hdigits
        · rw [← take_point hpoint, ← htake]
          congr 1
          simp only [length, Option.map_some, Option.getD_some]
          omega
      · exact ⟨.int, cs.take whole, .whole (digits_take_run fun h => hdigits ⟨h, rfl⟩), htake whole,
          fun _ => rfl⟩
    have hpower (e : List Char) (h : Exponent ['p', 'P'] e) :
        IsNumeral .float (('0' :: x :: cs).take length ++ e) := by
      rw [hmantissa]
      exact .hexPower hx hm h
    split
    · rename_i hp
      exact exponent_reads hp (by simp) hpower
    · rename_i hp
      exact exponent_reads hp (by simp) hpower
    · split
      · exact ⟨rfl, _, rfl, rfl⟩
      · rename_i hsome
        obtain rfl := hkind (by simpa using hsome)
        cases hm with
        | whole digits =>
          show IsNumeral .int _
          rw [hmantissa]
          exact .hexadecimal hx digits

theorem complete_reads (cs : List Char) (length : Nat) (kind : Kind) :
    (complete cs length kind).Faulty ∨ complete cs length kind = { length, kind } := by
  unfold complete
  split
  · exact .inr rfl
  · split
    · exact .inl ⟨rfl, _, rfl, rfl⟩
    · split
      · exact .inl ⟨rfl, _, rfl, rfl⟩
      · exact .inr rfl

/-- Where a numeral begins one is read, or one with a fault of numerals. -/
theorem read_isNumeral (hstart : Starts cs) :
    (read cs).Faulty ∨
      (read cs).fault = none ∧ IsNumeral (read cs).kind (cs.take (read cs).length) := by
  unfold read
  extract_lets part
  have hpart : part.Reads cs := by
    unfold part
    split
    · exact hexadecimal_reads (by simp)
    · exact hexadecimal_reads (by simp)
    · exact decimal_reads hstart
  clear_value part
  cases part with
  | error numeral => exact .inl hpart
  | ok found =>
    refine (complete_reads cs found.1 found.2).imp_right fun h => ?_
    dsimp only
    rw [h]
    exact ⟨rfl, hpart⟩

/-! ## A numeral is read to its end -/

/-- What follows cannot belong to a numeral. -/
def Ends (rest : List Char) : Prop :=
  ∀ c ∈ rest.head?, Source.isNameRest c = false ∧ c ≠ '.'

theorem run_append {ds} (hds : ∀ d ∈ ds, p d = true) (hrest : ∀ c ∈ rest.head?, p c = false) :
    run p (ds ++ rest) = ds.length := by
  rw [run, takeWhile_append_eq hds hrest]

theorem isDigit_of_isNameRest (h : Source.isNameRest c = false) : c.isDigit = false := by
  simp_all [Source.isNameRest, Char.isAlphanum]

theorem Ends.not_isDigit (h : Ends rest) : ∀ c ∈ rest.head?, c.isDigit = false :=
  fun c hc => isDigit_of_isNameRest (h c hc).1

/-- An exponent is read behind whatever stands in front of it. -/
theorem Exponent.read (h : Exponent marks e) (hrest : Ends rest) (front : List Char) :
    exponent (front ++ (e ++ rest)) front.length = .ok ((front ++ e).length, .float) := by
  cases h with
  | @mk mark sign ds _ hsign hds =>
    have hdrop (n : Nat) : (front ++ (mark :: (sign ++ ds) ++ rest)).drop (front.length + 1 + n) =
        (sign ++ (ds ++ rest)).drop n := by
      rw [← drop_drop, ← drop_drop, drop_left]
      simp
    have hrun : run Char.isDigit (ds ++ rest) = ds.length := run_append hds.2 hrest.not_isDigit
    have hne : ds.length ≠ 0 := by simpa using hds.1
    unfold exponent
    extract_lets signed digits
    have hsigned : signed = front.length + 1 + sign.length := by
      unfold signed
      rw [← Nat.add_zero (front.length + 1), hdrop, drop_zero]
      simp only [mem_cons, not_mem_nil, or_false] at hsign
      rcases hsign with rfl | rfl | rfl
      · obtain ⟨d, ds, rfl⟩ := exists_cons_of_ne_nil hds.1
        have hd := hds.2 d (by simp)
        split
        all_goals simp_all
      · rfl
      · rfl
    have hdigits : digits = ds.length := by
      unfold digits
      rw [hsigned, hdrop, drop_left, hrun]
    rw [hsigned, hdigits, if_neg hne]
    simp only [length_append, length_cons]
    congr 2
    omega

theorem isHexDigit_of_isNameRest (h : Source.isNameRest c = false) :
    Source.isHexDigit c = false := by
  delta Source.isNameRest Char.isAlphanum Char.isAlpha Char.isUpper Char.isLower at h
  simp only [Source.isHexDigit, Bool.or_eq_false_iff, Char.le_def, UInt32.le_iff_toNat_le,
    ge_iff_le] at h ⊢
  have hf : 'f'.val.toNat ≤ 'z'.val.toNat := by decide
  have hF : 'F'.val.toNat ≤ 'Z'.val.toNat := by decide
  simp only [Bool.and_eq_false_iff, decide_eq_false_iff_not] at h ⊢
  refine ⟨⟨h.1.2, ?_⟩, ?_⟩
  · omega
  · omega

/-- A decimal mantissa is read to its end, and an exponent may follow. -/
theorem Mantissa.read_decimal {tail} (h : Mantissa Char.isDigit kind m)
    (htail : ∀ c ∈ tail.head?, c.isDigit = false ∧ c ≠ '.') : decimal (m ++ tail) =
      if tail.head? ∈ ['e', 'E'].map some then exponent (m ++ tail) m.length
      else .ok (m.length, kind) := by
  have hdigit : ∀ c ∈ tail.head?, c.isDigit = false := fun c hc => (htail c hc).1
  unfold decimal
  extract_lets whole
  split
  rename_i length kind' hfound
  obtain ⟨rfl, rfl⟩ : length = m.length ∧ kind' = kind := by
    cases h with
    | whole digits =>
      have hwhole : whole = m.length := run_append digits.2 hdigit
      split at hfound
      all_goals simp_all
    | @point ds fraction digits =>
      obtain ⟨-, hall⟩ := digits
      have hwhole : whole = ds.length := by
        unfold whole
        rw [append_assoc]
        exact run_append (fun d hd => hall d (mem_append_left _ hd)) (by simp)
      have hfraction : run Char.isDigit (fraction ++ tail) = fraction.length :=
        run_append (fun d hd => hall d (mem_append_right _ hd)) hdigit
      rw [hwhole, append_assoc, drop_left, cons_append] at hfound
      split at hfound
      · rename_i rest hpoints
        cases fraction with
        | nil => exact absurd rfl (htail '.' (by simp_all)).2
        | cons d fraction =>
          obtain ⟨rfl, -⟩ := cons.inj (cons.inj hpoints).2
          exact absurd (hall '.' (by simp)) (by decide)
      · rename_i hpoint
        obtain rfl := (cons.inj hpoint).2
        obtain ⟨rfl, rfl⟩ := Prod.mk.inj hfound
        simp [hfraction]
        omega
      · rename_i hnone
        exact absurd rfl (hnone _)
  rw [drop_left]
  cases tail with
  | nil => rfl
  | cons c tail =>
    by_cases he : c = 'e' ∨ c = 'E'
    · rcases he with rfl | rfl <;> rfl
    · rw [if_neg (by simpa using he)]
      split
      all_goals simp_all

/-- A hexadecimal mantissa is read to its end. An exponent may follow, and has to behind a point. -/
theorem Mantissa.read_hexadecimal {tail} (h : Mantissa Source.isHexDigit kind m)
    (htail : ∀ c ∈ tail.head?, Source.isHexDigit c = false ∧ c ≠ '.') :
    hexadecimal ('0' :: x :: (m ++ tail)) =
      if tail.head? ∈ ['p', 'P'].map some then
        exponent ('0' :: x :: (m ++ tail)) ('0' :: x :: m).length
      else if kind = .float then
        .error
    (faulty ('0' :: x :: (m ++ tail)) ('0' :: x :: m).length fun _ => .hexWithoutExponent)
      else .ok (('0' :: x :: m).length, .int) := by
  have hdigit : ∀ c ∈ tail.head?, Source.isHexDigit c = false := fun c hc => (htail c hc).1
  unfold hexadecimal
  extract_lets whole fraction length
  obtain ⟨hlength, hdigits, hkind⟩ : length = ('0' :: x :: m).length ∧
      ¬ (whole = 0 ∧ fraction.getD 0 = 0) ∧ (fraction.isSome ↔ kind = .float) := by
    have hpoint (ds : List Char) : ('0' :: x :: ds).drop (2 + whole) = ds.drop whole := by
      rw [Nat.add_comm]
      rfl
    cases h with
    | whole digits =>
      have hwhole : whole = m.length := run_append digits.2 hdigit
      have hfraction : fraction = none := by
        unfold fraction
        rw [hpoint, hwhole, drop_left]
        split
        · exact absurd rfl (htail '.' (by simp)).2
        · rfl
      refine ⟨?_, ?_, by simp [hfraction]⟩
      · simp only [length, hfraction, hwhole, length_cons, Option.map_none, Option.getD_none]
        omega
      · rw [hwhole]
        exact fun h => digits.1 (eq_nil_of_length_eq_zero h.1)
    | @point ds digits all =>
      have hwhole : whole = ds.length := by
        show run Source.isHexDigit (ds ++ '.' :: digits ++ tail) = _
        rw [append_assoc]
        exact run_append (fun d hd => all.2 d (mem_append_left _ hd)) (by rintro c ⟨⟩; decide)
      have hdigits : run Source.isHexDigit (digits ++ tail) = digits.length :=
        run_append (fun d hd => all.2 d (mem_append_right _ hd)) hdigit
      have hfraction : fraction = some digits.length := by
        unfold fraction
        rw [hpoint, hwhole, append_assoc, drop_left, ← hdigits]
        rfl
      refine ⟨?_, ?_, by simp [hfraction]⟩
      · simp only [length, hfraction, hwhole, length_cons, length_append, Option.map_some,
          Option.getD_some]
        omega
      · rw [hwhole, hfraction, Option.getD_some]
        intro h
        exact all.1 (append_eq_nil_iff.2
          ⟨eq_nil_of_length_eq_zero h.1, eq_nil_of_length_eq_zero h.2⟩)
  have hdrop : ('0' :: x :: (m ++ tail)).drop length = tail := by
    rw [hlength]
    exact drop_left
  rw [if_neg hdigits, hdrop, hlength]
  clear_value fraction
  cases tail with
  | nil => simp [hkind]
  | cons c tail =>
    by_cases hp : c = 'p' ∨ c = 'P'
    · rcases hp with rfl | rfl <;> rfl
    · have hhead : (c :: tail).head? ∉ ['p', 'P'].map some := by simpa using hp
      rw [if_neg hhead]
      split
      · simp_all
      · simp_all
      · simp [hkind]

theorem Mantissa.mem (h : Mantissa p kind m) (hc : c ∈ m) : p c = true ∨ c = '.' := by
  cases h with
  | whole digits => exact .inl (digits.2 c hc)
  | point digits =>
    have hall := digits.2 c
    simp only [mem_append, mem_cons] at hc hall
    tauto

theorem Mantissa.ne_nil (h : Mantissa p kind m) : m ≠ [] := by
  cases h with
  | whole digits => exact digits.1
  | point _ => simp

theorem Exponent.mem (h : Exponent marks e) (hc : c ∈ e) :
    c ∈ marks ∨ c.isDigit = true ∨ c ∈ ['+', '-'] := by
  cases h with
  | mk hmark hsign hds =>
    simp only [mem_cons, mem_append, not_mem_nil, or_false] at hc hsign
    rcases hc with rfl | hc | hc
    · exact .inl hmark
    · rcases hsign with rfl | rfl | rfl <;> simp_all
    · exact .inr (.inl (hds.2 c hc))

theorem Exponent.head? (h : Exponent marks e) (rest : List Char) :
    ∃ mark ∈ marks, (e ++ rest).head? = some mark := by
  cases h with
  | mk hmark _ _ => exact ⟨_, hmark, rfl⟩

theorem complete_append (kind : Kind) (hrest : Ends rest) :
    complete (w ++ rest) w.length kind = { length := w.length, kind } := by
  unfold complete
  rw [drop_left]
  cases rest with
  | nil => rfl
  | cons c rest =>
    obtain ⟨hname, hpoint⟩ := hrest c rfl
    have hi : (c == 'i') = false := by
      refine beq_eq_false_iff_ne.2 ?_
      rintro rfl
      contradiction
    simp [hname, hi, hpoint]

/-- A decimal numeral does not begin as a hexadecimal one, whatever follows. -/
theorem read_of_decimal (hne : w ≠ []) (hw : ∀ c ∈ w, c ∉ ['x', 'X']) (hrest : Ends rest)
    (h : decimal (w ++ rest) = .ok (w.length, kind)) :
    read (w ++ rest) = { length := w.length, kind } := by
  have hsecond : ∀ x ∈ ['x', 'X'], ∀ tail, w ++ rest ≠ '0' :: x :: tail := by
    intro x hx tail heq
    rcases w with _ | ⟨c, _ | ⟨d, w⟩⟩
    · exact hne rfl
    · have hname := (hrest x (by simp_all)).1
      simp only [mem_cons, not_mem_nil, or_false] at hx
      rcases hx with rfl | rfl <;> contradiction
    · exact hw d (by simp) (by simp_all)
  unfold read
  split
  · rename_i heq
    exact absurd heq (hsecond 'x' (by simp) _)
  · rename_i heq
    exact absurd heq (hsecond 'X' (by simp) _)
  · rw [h]
    exact complete_append kind hrest

/-- A hexadecimal numeral is read as one. -/
theorem read_of_hexadecimal (hx : x ∈ ['x', 'X']) (hrest : Ends rest)
    (h : hexadecimal ('0' :: x :: w ++ rest) = .ok (('0' :: x :: w).length, kind)) :
    read ('0' :: x :: w ++ rest) = { length := ('0' :: x :: w).length, kind } := by
  have hread : read ('0' :: x :: w ++ rest) =
      complete ('0' :: x :: w ++ rest) ('0' :: x :: w).length kind := by
    simp only [mem_cons, not_mem_nil, or_false] at hx
    unfold read
    rcases hx with rfl | rfl
    all_goals
      rw [h]
      rfl
  rw [hread, complete_append kind hrest]

/-- The characters of a decimal numeral. -/
theorem not_hexMark (h : c.isDigit = true ∨ c ∈ ['.', 'e', 'E', '+', '-']) : c ∉ ['x', 'X'] := by
  intro hx
  simp only [mem_cons, not_mem_nil, or_false] at hx
  rcases hx with rfl | rfl <;> revert h <;> decide

theorem Ends.not_mark (h : Ends rest) (hmarks : marks.all Source.isNameRest = true) :
    rest.head? ∉ marks.map some := by
  intro hmem
  obtain ⟨c, hc, hhead⟩ := mem_map.1 hmem
  have hname := (h c hhead.symm).1
  rw [all_eq_true.1 hmarks c hc] at hname
  contradiction

/-- A numeral is read to its end where something follows that cannot belong to it. -/
theorem IsNumeral.read_append (h : IsNumeral kind w)
    (hrest : Ends rest) : read (w ++ rest) = { length := w.length, kind } := by
  have hletters : ∀ c ∈ ['e', 'E'], c.isDigit = false ∧ c ≠ '.' := by
    rw [forall_mem_cons, forall_mem_singleton]
    decide
  have hhexLetters : ∀ c ∈ ['p', 'P'], Source.isHexDigit c = false ∧ c ≠ '.' := by
    rw [forall_mem_cons, forall_mem_singleton]
    decide
  cases h with
  | decimal mantissa =>
    refine read_of_decimal mantissa.ne_nil ?_ hrest ?_
    · intro c hc
      exact not_hexMark ((mantissa.mem hc).imp_right (by simp [·]))
    · rw [mantissa.read_decimal fun c hc => ⟨hrest.not_isDigit c hc, (hrest c hc).2⟩,
        if_neg (hrest.not_mark (by decide))]
  | decimalPower mantissa exponent =>
    obtain ⟨mark, hmark, hhead⟩ := exponent.head? rest
    refine read_of_decimal (by simp [mantissa.ne_nil]) ?_ hrest ?_
    · intro c hc
      refine not_hexMark ?_
      rcases mem_append.1 hc with hc | hc
      · exact (mantissa.mem hc).imp_right (by simp [·])
      · rcases exponent.mem hc with hmark | hdigit | hsign
        · exact .inr (mem_cons_of_mem _ (mem_append_left ['+', '-'] hmark))
        · exact .inl hdigit
        · exact .inr (mem_append_right ['.', 'e', 'E'] hsign)
    · rw [append_assoc, mantissa.read_decimal, if_pos, exponent.read hrest]
      · rw [hhead]
        simpa using hmark
      · rw [hhead]
        rintro c ⟨⟩
        exact hletters mark hmark
  | hexadecimal mark digits =>
    refine read_of_hexadecimal mark hrest ?_
    rw [cons_append, cons_append, (Mantissa.whole digits).read_hexadecimal
      fun c hc => ⟨isHexDigit_of_isNameRest (hrest c hc).1, (hrest c hc).2⟩,
      if_neg (hrest.not_mark (by decide)), if_neg (by simp)]
  | @hexPower x _ m _ mark mantissa exponent =>
    obtain ⟨letter, hletter, hhead⟩ := exponent.head? rest
    refine read_of_hexadecimal mark hrest ?_
    rw [cons_append, cons_append, append_assoc, mantissa.read_hexadecimal, if_pos]
    · exact exponent.read hrest ('0' :: x :: m)
    · rw [hhead]
      simpa using hletter
    · rw [hhead]
      rintro c ⟨⟩
      exact hhexLetters letter hletter

end ScriptLowering.Token.Numeral
