import Chronicle.Node.Basic
import Chronicle.Proofs.RoundTrips

/-!
# Stamp texts: ids and times read back

An id reads back from its text, and so does a time of the years that are written with four digits and no sign. In a leap second
the text shows second 60, and reading turns it back into nanoseconds that run on.
-/

namespace Chronicle

/-! ## Ids -/

namespace NodeId

open Token

/-- Digits that are written are read again, and no more than that. -/
theorem takeDigits_map (ds : List (Fin 16)) (rest : List Char) :
    takeDigits ds.length (ds.map (fun d => Nat.digitChar d.val) ++ rest) = some (ds, rest) := by
  induction ds with
  | nil => rfl
  | cons d ds ih =>
    have hdigit : Fin.ofNat 16 d.val = d := Fin.ofNat_val_eq_self d
    simp only [List.map_cons, List.cons_append, List.length_cons, takeDigits, hexDigit?_digitChar d.isLt, ih,
      Option.bind_eq_bind, Option.bind_some, hdigit]
    rfl

/-- As many digits as a group holds are read from the text of the group. -/
theorem takeDigits_take {size : Nat} {ds : List (Fin 16)} (h : size ≤ ds.length) (rest : List Char) :
    takeDigits size ((ds.take size).map (fun d => Nat.digitChar d.val) ++ rest) = some (ds.take size, rest) := by
  have hread := takeDigits_map (ds.take size) rest
  rwa [List.length_take, Nat.min_eq_left h] at hread

/-- Grouped digits are read back group by group. -/
theorem ofGroups_grouped (sizes : List Nat) (ds : List (Fin 16)) (h : ds.length = sizes.foldr (· + ·) 0) :
    ofGroups sizes (grouped sizes ds) = some ds := by
  induction sizes, ds using grouped.induct with
  | case1 ds =>
    cases List.eq_nil_of_length_eq_zero h
    rfl
  | case2 size ds =>
    have hlength : ds.length = size := h
    have hread := takeDigits_take (Nat.le_of_eq hlength.symm) []
    rw [List.append_nil, List.take_of_length_le (Nat.le_of_eq hlength)] at hread
    simp [ofGroups, grouped, List.take_of_length_le (Nat.le_of_eq hlength), hread]
  | case3 size more ds hmore ih =>
    have hlength : ds.length = size + more.foldr (· + ·) 0 := h
    have hsize : size ≤ ds.length := by omega
    have hread := takeDigits_take hsize ('-' :: grouped more (ds.drop size))
    have hrest := ih (by rw [List.length_drop]; omega)
    simp only [ofGroups, grouped, hread, hrest, Option.bind_eq_bind, Option.bind_some]
    exact congrArg some (List.take_append_drop size ds)

/-- The text of an id has its digits and four hyphens. -/
theorem length_grouped (id : NodeId) : (grouped groups id.digits).length = 36 := by
  have hlength := id.length_eq
  simp [grouped, groups, hlength]

/-- The text of an id begins with a digit, so nothing stands around the digits. -/
theorem unwrap_grouped (id : NodeId) : unwrap (grouped groups id.digits) = grouped groups id.digits := by
  obtain ⟨d, ds, hds⟩ := List.exists_cons_of_length_pos (by rw [id.length_eq]; decide : 0 < id.digits.length)
  have hfirst : ∃ rest, grouped groups id.digits = Nat.digitChar d.val :: rest := by
    simp [grouped, groups, hds]
  obtain ⟨rest, hrest⟩ := hfirst
  rw [hrest]
  have hbrace : Nat.digitChar d.val ≠ '{' := (by decide : ∀ d : Fin 16, Nat.digitChar d.val ≠ '{') d
  have hscheme : (Nat.digitChar d.val).toLower ≠ 'u' :=
    (by decide : ∀ d : Fin 16, (Nat.digitChar d.val).toLower ≠ 'u') d
  have hnoscheme : ((Nat.digitChar d.val :: rest).take scheme.length).map Char.toLower ≠ scheme.toList := by
    intro heq
    exact hscheme (List.cons.inj heq).1
  unfold unwrap
  split
  · rename_i heq
    exact absurd (List.cons.inj heq).1 hbrace
  · rw [if_neg hnoscheme]

/-- An id reads back from its text. -/
theorem ofText?_text (id : NodeId) : ofText? id.text = some id := by
  have hlength : ¬ (grouped groups id.digits).length = 32 := by
    rw [length_grouped]
    decide
  have hread := ofGroups_grouped groups id.digits id.length_eq
  simp only [ofText?, text, String.toList_ofList, if_neg hlength, unwrap_grouped, hread, Option.bind_eq_bind,
    Option.bind_some, id.length_eq, ↓reduceDIte]

theorem faithful (id : NodeId) : Codec.Faithful id where
  printable := Json.printable_str id.text
  reads room _ := by
    simp only [Codec.write, Codec.read, Document.ofJson, Document.string, bind, Except.bind, ofText?_text id]

end NodeId

/-! ## Times -/

namespace Timestamp

open Token

/-- The digits at the beginning of a text are read before what follows them. -/
theorem digits_append {cs : List Char} (h : ∀ c ∈ cs, c.isDigit) (more : Nat) (rest : List Char) :
    digits (cs.length + more) (cs ++ rest) =
      ((cs.map fun c => c.toNat - 48) ++ (digits more rest).1, (digits more rest).2) := by
  induction cs with
  | nil => simp
  | cons c cs ih =>
    obtain ⟨hc, hcs⟩ := List.forall_mem_cons.mp h
    have hlength : (c :: cs).length + more = cs.length + more + 1 := by rw [List.length_cons]; omega
    rw [hlength, List.cons_append]
    simp only [digits, digit?_of_isDigit hc, ih hcs]
    rfl

/-- A padded number has digits only. -/
theorem isDigit_padded (width n : Nat) : ∀ c ∈ padded width n, c.isDigit := by
  intro c hc
  rcases List.mem_append.mp hc with hzero | hdigit
  · rw [List.eq_of_mem_replicate hzero]
    decide
  · exact isDigit_toDigits n c hdigit

/-- A number that fits its width is padded to that width. -/
theorem length_padded {width n : Nat} (hwidth : 0 < width) (h : n < Nat.pow 10 width) :
    (padded width n).length = width := by
  have hdigits : (Nat.toDigits 10 n).length ≤ width := (Nat.length_toDigits_le_iff (by decide) hwidth).mpr h
  rw [padded, List.length_append, List.length_replicate]
  omega

/-- The digits of a padded number make up the number. -/
theorem ofDigits_padded (width n : Nat) : Numeral.ofDigits 0 ((padded width n).map fun c => c.toNat - 48) = n := by
  rw [ofDigits_map, padded, Nat.ofDigitChars_append, Nat.ofDigitChars_replicate_zero, Nat.mul_zero,
    Nat.ofDigitChars_ten_toDigits]

/-- A padded number begins with a digit. -/
theorem padded_eq_cons (width n : Nat) : ∃ c cs, padded width n = c :: cs ∧ c.isDigit := by
  have hne : padded width n ≠ [] := List.append_ne_nil_of_right_ne_nil _ Nat.toDigits_ne_nil
  obtain ⟨c, cs, hcs⟩ := List.exists_cons_of_ne_nil hne
  exact ⟨c, cs, hcs, isDigit_padded width n c (by rw [hcs]; exact List.mem_cons_self)⟩

/-- A number of full width is read back, whatever follows. -/
theorem number_padded {width n : Nat} (hwidth : 0 < width) (h : n < Nat.pow 10 width) (rest : List Char) :
    number width (padded width n ++ rest) = some (n, rest) := by
  have hdigits := digits_append (isDigit_padded width n) 0 rest
  rw [Nat.add_zero, length_padded hwidth h] at hdigits
  simp only [digits, List.append_nil] at hdigits
  obtain ⟨c, cs, hcs, -⟩ := padded_eq_cons width n
  rw [hcs] at hdigits ⊢
  unfold number
  rw [hdigits]
  show some (Numeral.ofDigits 0 ((c :: cs).map fun c => c.toNat - 48), rest) = some (n, rest)
  rw [← hcs, ofDigits_padded]

/-- A digit is no blank. -/
theorem trimStart_digit {c : Char} (h : c.isDigit) (cs : List Char) : trimStart (c :: cs) = c :: cs := by
  have hrange := toNat_of_isDigit h
  have hspace : Text.isSpace c = false := by
    simp only [Text.isSpace, Text.whiteSpace, List.any_eq_false, List.mem_cons, List.not_mem_nil, Bool.and_eq_true,
      decide_eq_true_eq]
    grind
  rw [trimStart, List.dropWhile_cons, hspace]
  rfl

/-- Nothing is trimmed from the beginning of a padded number. -/
theorem trimStart_padded (width n : Nat) (rest : List Char) :
    trimStart (padded width n ++ rest) = padded width n ++ rest := by
  obtain ⟨c, cs, hcs, hc⟩ := padded_eq_cons width n
  rw [hcs, List.cons_append, trimStart_digit hc]

/-- A part of two digits is read back. -/
theorem part_padded {n : Nat} (h : n < 100) (rest : List Char) : part (padded 2 n ++ rest) = some (n, rest) := by
  rw [part, trimStart_padded, number_padded (by decide) h]

/-- A year of four digits is read back. -/
theorem year_yearText {y : Int} (h : 0 ≤ y ∧ y ≤ 9999) (rest : List Char) :
    year (yearText y ++ rest) = some (y, rest) := by
  have hfits : y.natAbs < Nat.pow 10 4 := by
    have : Nat.pow 10 4 = 10000 := rfl
    omega
  have hnumber := number_padded (by decide) hfits rest
  obtain ⟨c, cs, hcs, hc⟩ := padded_eq_cons 4 y.natAbs
  have hne : ∀ x : Char, x.isDigit = false → c ≠ x := fun x hx heq => by simp [heq, hx] at hc
  rw [yearText, if_pos h]
  unfold year
  rw [trimStart_padded]
  rw [hcs] at hnumber ⊢
  split
  · rename_i heq
    exact absurd (List.cons.inj heq).1 (hne '-' rfl)
  · rename_i heq
    exact absurd (List.cons.inj heq).1 (hne '+' rfl)
  · rw [hnumber]
    show some (((y.natAbs : Nat) : Int), rest) = some (y, rest)
    rw [Int.natAbs_of_nonneg h.1]

/-- A mark is read where it stands. -/
theorem mark_cons {c : Char} (h : Text.isSpace c = false) (cs : List Char) : mark c (c :: cs) = some cs := by
  simp [mark, trimStart, h]

/-- A fraction of three, six or nine digits is read back as nanoseconds. -/
theorem fraction_padded {width n : Nat} (hwidth : 0 < width ∧ width ≤ 9) (h : n < Nat.pow 10 width) (rest : List Char) :
    fraction ('.' :: padded width n ++ 'Z' :: rest) = some (n * Nat.pow 10 (9 - width), 'Z' :: rest) := by
  have hlength := length_padded hwidth.1 h
  have hvalue := ofDigits_padded width n
  have hdigits := digits_append (isDigit_padded width n) (9 - width) ('Z' :: rest)
  have hend : digits (9 - width) ('Z' :: rest) = ([], 'Z' :: rest) := by cases 9 - width <;> rfl
  rw [hlength, hend, List.append_nil, show width + (9 - width) = 9 by omega] at hdigits
  obtain ⟨c, cs, hcs, -⟩ := padded_eq_cons width n
  rw [hcs] at hdigits hvalue hlength ⊢
  simp only [List.cons_append, fraction] at hdigits ⊢
  rw [hdigits]
  show some (Numeral.ofDigits 0 ((c :: cs).map fun c => c.toNat - 48) *
    Nat.pow 10 (9 - ((c :: cs).map fun c => c.toNat - 48).length), 'Z' :: rest) = _
  rw [hvalue, List.length_map, hlength]

/-- The fraction is read back as the nanoseconds. -/
theorem fraction_fractionText {nano : Nat} (h : nano < 1000000000) (rest : List Char) :
    fraction (fractionText nano ++ 'Z' :: rest) = some (nano, 'Z' :: rest) := by
  unfold fractionText
  split
  · subst nano
    rfl
  split
  · rw [fraction_padded ⟨by decide, by decide⟩ (show nano / 1000000 < 1000 by omega)]
    have hvalue : nano / 1000000 * Nat.pow 10 (9 - 3) = nano := show nano / 1000000 * 1000000 = nano by omega
    rw [hvalue]
  split
  · rw [fraction_padded ⟨by decide, by decide⟩ (show nano / 1000 < 1000000 by omega)]
    have hvalue : nano / 1000 * Nat.pow 10 (9 - 6) = nano := show nano / 1000 * 1000 = nano by omega
    rw [hvalue]
  · rw [fraction_padded ⟨by decide, by decide⟩ h]
    exact congrArg (fun n => some (n, 'Z' :: rest)) (Nat.mul_one nano)

/-- The moment of a date and time of universal time. -/
theorem atOffset_zero (t : Timestamp) : atOffset t.date t.second t.nano 0 = some t := by
  have hsecond := t.second_lt
  have hparts : ofParts? t.date t.second t.nano = some t := dif_pos ⟨t.date_exists, t.second_lt, t.nano_lt⟩
  simp only [atOffset, Int.sub_zero, Int.toNat_natCast, if_neg (not_not_intro t.date_exists), hparts]
  rw [if_neg (by omega), if_neg (by omega)]

/-- Reading goes on with what has been read. -/
theorem bind_of_eq_some {α β : Type} {o : Option α} {a : α} (h : o = some a) {f : α → Option β} : (o >>= f) = f a := by
  rw [h]
  rfl

/-- The parts of a time are read from their texts, one after another as they stand. Second 60 is the leap second after
second 59. -/
theorem ofChars?_parts {y : Int} (hy : 0 ≤ y ∧ y ≤ 9999) {month day hour minute second nano : Nat} (hmonth : month < 100)
    (hday : day < 100) (hhour : hour ≤ 23) (hminute : minute ≤ 59) (hsecond : second ≤ 60) (hnano : nano < 1000000000) :
    ofChars? (yearText y ++ '-' :: (padded 2 month ++ '-' :: (padded 2 day ++ 'T' :: (padded 2 hour ++ ':' ::
      (padded 2 minute ++ ':' :: (padded 2 second ++ (fractionText nano ++ ['Z']))))))) =
      if second = 60 then atOffset ⟨y, month, day⟩ (hour * 3600 + minute * 60 + 59) (1000000000 + nano) 0
      else atOffset ⟨y, month, day⟩ (hour * 3600 + minute * 60 + second) nano 0 := by
  have hhyphen : ∀ cs, mark '-' ('-' :: cs) = some cs := mark_cons (by decide)
  have hcolon : ∀ cs, mark ':' (':' :: cs) = some cs := mark_cons (by decide)
  have hoffset : offset (trimStart ['Z']) = some (0, []) := by decide
  have hrange : ¬ (23 < hour ∨ 59 < minute ∨ 60 < second ∨ trimStart [] ≠ []) := by
    rintro (h | h | h | h)
    · omega
    · omega
    · omega
    · exact h rfl
  refine (bind_of_eq_some (year_yearText hy _)).trans ?_
  refine (bind_of_eq_some (hhyphen _)).trans ?_
  refine (bind_of_eq_some (part_padded hmonth _)).trans ?_
  refine (bind_of_eq_some (hhyphen _)).trans ?_
  refine (bind_of_eq_some (part_padded hday _)).trans ?_
  refine (bind_of_eq_some (part_padded (by omega) _)).trans ?_
  refine (bind_of_eq_some (hcolon _)).trans ?_
  refine (bind_of_eq_some (part_padded (by omega) _)).trans ?_
  refine (bind_of_eq_some (hcolon _)).trans ?_
  refine (bind_of_eq_some (part_padded (by omega) _)).trans ?_
  refine (bind_of_eq_some (fraction_fractionText hnano _)).trans ?_
  refine (bind_of_eq_some hoffset).trans ?_
  exact if_neg hrange

/-- A time of a year with four digits reads back from its text. -/
theorem ofText?_text {t : Timestamp} (h : 0 ≤ t.date.year ∧ t.date.year ≤ 9999) : ofText? t.text = some t := by
  obtain ⟨-, -, -, hmonth, -, hday⟩ := t.date_exists
  have hdays : Date.daysIn t.date.year t.date.month ≤ 31 := by unfold Date.daysIn; grind
  have hsecond := t.second_lt
  have hnano := t.nano_lt
  have hclock : t.second / 3600 * 3600 + t.second / 60 % 60 * 60 + t.second % 60 = t.second := by omega
  rw [ofText?, text, String.toList_ofList, chars]
  by_cases hleap : t.nano < 1000000000
  · rw [if_pos hleap, ofChars?_parts h (by omega) (by omega) (by omega) (by omega) (by omega) (Nat.mod_lt _ (by decide)),
      if_neg (by omega), Nat.add_zero, hclock, Nat.mod_eq_of_lt hleap]
    exact atOffset_zero t
  · obtain ⟨hlast, hend⟩ := hnano.resolve_left hleap
    have hrest : 1000000000 + t.nano % 1000000000 = t.nano := by omega
    rw [if_neg hleap, ofChars?_parts h (by omega) (by omega) (by omega) (by omega) (by omega) (Nat.mod_lt _ (by decide)),
      if_pos (by omega), hrest]
    rw [hlast] at hclock
    rw [hclock]
    exact atOffset_zero t

theorem faithful {t : Timestamp} (h : 0 ≤ t.date.year ∧ t.date.year ≤ 9999) : Codec.Faithful t where
  printable := Json.printable_str t.text
  reads room _ := by
    simp only [Codec.write, Codec.read, Document.ofJson, Document.string, bind, Except.bind, ofText?_text h]

end Timestamp

end Chronicle
