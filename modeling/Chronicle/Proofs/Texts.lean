import Chronicle.Proofs.Values

/-!
# Texts: the text of a value says the value

Between the characters of a text and its document stand the tokens. `Scan.Spells` says of a piece of text that reading it, from
between two tokens on, yields certain tokens; pieces are put together at brackets, commas and colons, which no numeral goes on
with. `Json.tokens` are the tokens of a value: its text spells them, and they assemble to its document. So the document of the
text of a printable value is the document of the value (`Document.ofText_render`), and no two printable values have one text
(`Json.render_inj`).
-/

namespace Chronicle

/-! ## Decimal digits -/

namespace Token

/-- The decimal digits stand in one row. -/
theorem toNat_of_isDigit {c : Char} (h : c.isDigit) : 48 ≤ c.toNat ∧ c.toNat ≤ 57 := by
  simp only [Char.isDigit, Bool.and_eq_true, decide_eq_true_eq] at h
  exact h

/-- The value of a decimal digit is read from its character. -/
theorem digit?_of_isDigit {c : Char} (h : c.isDigit) : digit? c = some (c.toNat - 48) := by
  have hrange : '0' ≤ c ∧ c ≤ '9' := toNat_of_isDigit h
  rw [digit?, if_pos hrange]

/-- Only the digit zero stands for zero. -/
theorem digit_ne_zero {c : Char} (h : c.isDigit) (hc : c ≠ '0') : c.toNat - 48 ≠ 0 := by
  have hrange := toNat_of_isDigit h
  intro hzero
  exact hc (Char.toNat_inj.mp (show c.toNat = '0'.toNat by rw [show '0'.toNat = 48 from rfl]; omega))

/-- The digits of a text, as numbers, make up the number the text writes. -/
theorem ofDigits_map (cs : List Char) : Numeral.ofDigits 0 (cs.map fun c => c.toNat - 48) = Nat.ofDigitChars 10 cs 0 := by
  rw [Numeral.ofDigits, List.foldl_map, Nat.ofDigitChars_eq_foldl]
  rfl

/-- The first digit of a positive number is not zero. -/
theorem toDigits_eq_cons {n : Nat} (h : 0 < n) : ∃ c cs, Nat.toDigits 10 n = c :: cs ∧ c ≠ '0' := by
  induction n using Nat.strongRecOn with
  | ind n ih =>
    rw [Nat.toDigits_eq_if (by decide)]
    split
    · exact ⟨n.digitChar, [], rfl, fun hc => by simp at hc; omega⟩
    · obtain ⟨c, cs, hcs, hc⟩ := ih (n / 10) (by omega) (by omega)
      exact ⟨c, cs ++ [(n % 10).digitChar], by rw [hcs, List.cons_append], hc⟩

/-- Every digit of a number is a decimal digit. -/
theorem isDigit_toDigits (n : Nat) : ∀ c ∈ Nat.toDigits 10 n, c.isDigit :=
  fun _ hc => Nat.isDigit_of_mem_toDigits (by decide) (by decide) hc

/-- A hexadecimal digit reads back. -/
theorem hexDigit?_digitChar {d : Nat} (h : d < 16) : hexDigit? d.digitChar = some d :=
  (by decide : ∀ d : Fin 16, hexDigit? (Nat.digitChar d) = some d.val) ⟨d, h⟩

/-- The brackets and marks between values, and their tokens. -/
inductive Punctuation : Char → Token → Prop where
  | openArray : Punctuation '[' .openArray
  | closeArray : Punctuation ']' .closeArray
  | openObject : Punctuation '{' .openObject
  | closeObject : Punctuation '}' .closeObject
  | colon : Punctuation ':' .colon
  | comma : Punctuation ',' .comma

end Token

/-! ## Scanning pieces of a text -/

namespace Scan

open Token

/-- Reading the characters from between two tokens on, and ending there, yields the tokens. -/
def Spells (cs : List Char) (tokens : List Token) : Prop :=
  ∀ before, (cs.foldl step ⟨.between, before⟩).finish = ⟨.between, tokens.reverse ++ before⟩

/-- Between two tokens a bracket or mark is a token. -/
theorem step_punctuation {c : Char} {t : Token} (h : Punctuation c t) (before : List Token) :
    step ⟨.between, before⟩ c = ⟨.between, t :: before⟩ := by
  cases h <;> rfl

/-- A numeral that may end ends before a bracket or mark. -/
theorem grow_punctuation {c : Char} {t : Token} (h : Punctuation c t) {phase : Phase} (hc : phase.complete)
    (n : Numeral) : grow phase n c = .ended := by
  cases phase with
  | zero | whole | fraction | exponent => cases h <;> rfl
  | sign | point | mark | markSign => cases hc

/-- Where a text may end, a bracket or mark is read as if it had ended. -/
theorem step_finish {s : Scan} {before : List Token} (hs : s.finish = ⟨.between, before⟩) {c : Char} {t : Token}
    (hc : Punctuation c t) : s.step c = ⟨.between, t :: before⟩ := by
  obtain ⟨mode, read⟩ := s
  cases mode with
  | between =>
    cases hs
    exact step_punctuation hc before
  | numeral phase n =>
    simp only [finish] at hs
    split at hs
    · rename_i hcomplete
      cases hs
      simp only [step, grow_punctuation hc hcomplete]
      exact step_punctuation hc (.number n :: read)
    · cases hs
  | _ => cases hs

theorem spells_nil : Spells [] [] := fun _ => rfl

/-- Two pieces with a bracket or mark between them. -/
theorem Spells.append {cs cs' : List Char} {tokens tokens' : List Token} (h : Spells cs tokens) {c : Char} {t : Token}
    (hc : Punctuation c t) (h' : Spells cs' tokens') : Spells (cs ++ c :: cs') (tokens ++ t :: tokens') := by
  intro before
  rw [List.foldl_append, List.foldl_cons, step_finish (h before) hc, h']
  simp

/-! ### Strings -/

/-- A code unit that is no half of a pair is a character. -/
theorem pushUnit_toNat {c : Char} (h : c.toNat < 0xD800) (chars : List Char) :
    Spelling.pushUnit ⟨chars, true, none⟩ c.toNat = ⟨c :: chars, true, none⟩ := by
  simp only [Spelling.pushUnit]
  rw [if_neg (by omega), if_neg (by omega), Char.ofNat_toNat]
  rfl

/-- Inside a string a control character is read from its number. -/
theorem foldl_control {c : Char} (h : c.toNat < 32) (chars : List Char) (before : List Token) :
    ['\\', 'u', '0', '0', Nat.digitChar (c.toNat / 16), Nat.digitChar (c.toNat % 16)].foldl step
        ⟨.text ⟨chars, true, none⟩, before⟩ = ⟨.text ⟨c :: chars, true, none⟩, before⟩ := by
  have hzeros : ['\\', 'u', '0', '0'].foldl step ⟨.text ⟨chars, true, none⟩, before⟩ =
      ⟨.unit ⟨chars, true, none⟩ 2 0, before⟩ := rfl
  have hhigh : step ⟨.unit ⟨chars, true, none⟩ 2 0, before⟩ (Nat.digitChar (c.toNat / 16)) =
      ⟨.unit ⟨chars, true, none⟩ 3 (c.toNat / 16), before⟩ := by
    simp [step, go, hexDigit?_digitChar (show c.toNat / 16 < 16 by omega)]
  have hlow : step ⟨.unit ⟨chars, true, none⟩ 3 (c.toNat / 16), before⟩ (Nat.digitChar (c.toNat % 16)) =
      ⟨.text (.pushUnit ⟨chars, true, none⟩ c.toNat), before⟩ := by
    simp only [step, go, hexDigit?_digitChar (show c.toNat % 16 < 16 by omega), ↓reduceIte, Nat.div_add_mod]
  rw [← List.take_append_drop 4 (_ :: _), List.foldl_append]
  simp only [List.take_succ_cons, List.take_zero, List.drop_succ_cons, List.drop_zero, hzeros, List.foldl_cons,
    List.foldl_nil, hhigh, hlow, pushUnit_toNat (show c.toNat < 0xD800 by omega)]

/-- Inside a string the spelling of a character is read as that character, be it escaped by a letter or by itself, as seven are,
by its number, or not at all. -/
theorem foldl_escape (c : Char) (chars : List Char) (before : List Token) :
    (Json.escape c).foldl step ⟨.text ⟨chars, true, none⟩, before⟩ = ⟨.text ⟨c :: chars, true, none⟩, before⟩ := by
  unfold Json.escape
  iterate 7
    split
    · subst c
      rfl
  split
  · rename_i hcontrol
    exact foldl_control hcontrol chars before
  · simp_all [step, go, Spelling.push]

/-- Inside a string the spellings of characters are read one after another. -/
theorem foldl_escapes (cs chars : List Char) (before : List Token) :
    (cs.flatMap Json.escape).foldl step ⟨.text ⟨chars, true, none⟩, before⟩ =
      ⟨.text ⟨cs.reverse ++ chars, true, none⟩, before⟩ := by
  induction cs generalizing chars with
  | nil => rfl
  | cons c cs ih =>
    rw [List.flatMap_cons, List.foldl_append, foldl_escape, ih]
    simp

/-- A string between quotes is one token. -/
theorem spells_quoted (s : String) : Spells (Json.quoted s) [.text (some s)] := by
  intro before
  have hopen : step ⟨.between, before⟩ '"' = ⟨.text ⟨[], true, none⟩, before⟩ := rfl
  rw [Json.quoted, List.foldl_cons, List.foldl_append, hopen, foldl_escapes]
  simp [step, emit, finish, Spelling.content]

/-! ### Numbers -/

/-- After its first digit, if that is no zero, a numeral takes up every digit. -/
theorem foldl_digits {cs : List Char} (h : ∀ c ∈ cs, c.isDigit) (n : Numeral) (before : List Token) :
    cs.foldl step ⟨.numeral .whole n, before⟩ =
      ⟨.numeral .whole { n with whole := n.whole ++ cs.map fun c => c.toNat - 48 }, before⟩ := by
  induction cs generalizing n with
  | nil => simp
  | cons c cs ih =>
    obtain ⟨hc, hcs⟩ := List.forall_mem_cons.mp h
    have hstep : step ⟨.numeral .whole n, before⟩ c =
        ⟨.numeral .whole { n with whole := n.whole ++ [c.toNat - 48] }, before⟩ := by
      simp [step, grow, digit?_of_isDigit hc, go]
    rw [List.foldl_cons, hstep, ih hcs]
    simp

/-- A digit begins a numeral, as it is none of the characters that are asked for before the digits. -/
theorem step_digit {c : Char} (h : c.isDigit) (before : List Token) :
    step ⟨.between, before⟩ c = step ⟨.numeral .sign ⟨false, [], [], none⟩, before⟩ c := by
  have hne : ∀ x : Char, x.isDigit = false → c ≠ x := fun x hx hc => by simp [hc, hx] at h
  have hblank : isBlank c = false := by simp [isBlank, hne]
  simp only [step, begin, hblank, hne '[' rfl, hne ']' rfl, hne '{' rfl, hne '}' rfl, hne ':' rfl, hne ',' rfl,
    hne '"' rfl, hne 'n' rfl, hne 't' rfl, hne 'f' rfl, hne '-' rfl, ↓reduceIte, Bool.false_eq_true]
  unfold grow
  rw [digit?_of_isDigit h]
  cases c.toNat - 48 <;> rfl

/-- The digits of a number are read as a numeral that may end there: a zero stands alone, as it must. -/
theorem foldl_toDigits (n : Nat) (negative : Bool) (before : List Token) :
    ∃ phase : Phase, phase.complete ∧
      (Nat.toDigits 10 n).foldl step ⟨.numeral .sign ⟨negative, [], [], none⟩, before⟩ =
        ⟨.numeral phase ⟨negative, (Nat.toDigits 10 n).map fun c => c.toNat - 48, [], none⟩, before⟩ := by
  obtain rfl | hpos := Nat.eq_zero_or_pos n
  · exact ⟨.zero, rfl, rfl⟩
  · obtain ⟨c, cs, hcs, hzero⟩ := toDigits_eq_cons hpos
    have hdigits := isDigit_toDigits n
    rw [hcs] at hdigits ⊢
    obtain ⟨hc, hrest⟩ := List.forall_mem_cons.mp hdigits
    have hfirst : step ⟨.numeral .sign ⟨negative, [], [], none⟩, before⟩ c =
        ⟨.numeral .whole ⟨negative, [c.toNat - 48], [], none⟩, before⟩ := by
      have hvalue : c.toNat - 48 ≠ 0 := digit_ne_zero hc hzero
      simp only [step]
      unfold grow
      rw [digit?_of_isDigit hc]
      revert hvalue
      cases c.toNat - 48 with
      | zero => exact fun h => absurd rfl h
      | succ d => exact fun _ => rfl
    exact ⟨.whole, rfl, by rw [List.foldl_cons, hfirst, foldl_digits hrest]; rfl⟩

end Scan

namespace Json

/-- The numeral of a whole number. -/
def numeral (n : Int) : Numeral := ⟨n < 0, (Nat.toDigits 10 n.natAbs).map fun c => c.toNat - 48, [], none⟩

/-- A whole number that fits 64 bits is the value of its numeral. -/
theorem int?_numeral {n : Int} (h : InRange n) : (numeral n).int? = some n := by
  have hvalue : Numeral.ofDigits 0 (numeral n).whole = n.natAbs := by
    rw [numeral, Token.ofDigits_map, Nat.ofDigitChars_ten_toDigits]
  have hwhole : ¬ ((numeral n).fraction ≠ [] ∨ (numeral n).exponent.isSome = true) := by simp [numeral]
  obtain ⟨hlow, hhigh⟩ := h
  simp only [Numeral.int?, hvalue, if_neg hwhole]
  obtain hneg | hpos := Int.lt_or_le n 0
  · have hsign : (numeral n).negative = true := decide_eq_true hneg
    rw [if_pos hsign, if_pos (by omega)]
    exact congrArg some (by omega)
  · have hsign : ¬ (numeral n).negative = true := fun h => Int.not_lt.mpr hpos (of_decide_eq_true h)
    rw [if_neg hsign, if_pos (by omega)]
    exact congrArg some (by omega)

end Json

/-- The text of a whole number is one token. -/
theorem Scan.spells_intText (n : Int) : Spells (Json.intText n) [.number (Json.numeral n)] := by
  intro before
  have hsign : (Json.intText n).foldl step ⟨.between, before⟩ =
      (Nat.toDigits 10 n.natAbs).foldl step ⟨.numeral .sign ⟨n < 0, [], [], none⟩, before⟩ := by
    unfold Json.intText
    split
    · rename_i hneg
      rw [List.foldl_cons, decide_eq_true hneg]
      rfl
    · rename_i hpos
      obtain ⟨c, cs, hcs⟩ := List.exists_cons_of_ne_nil (Nat.toDigits_ne_nil (n := n.natAbs) (b := 10))
      have hc : c.isDigit := Token.isDigit_toDigits n.natAbs c (by rw [hcs]; exact List.mem_cons_self)
      rw [hcs, List.foldl_cons, List.foldl_cons, step_digit hc, decide_eq_false hpos]
  obtain ⟨phase, hcomplete, hread⟩ := foldl_toDigits n.natAbs (n < 0) before
  rw [hsign, hread]
  simp only [finish, hcomplete, ↓reduceIte]
  rfl

/-! ## The tokens of a value -/

namespace Json

mutual

/-- The tokens of the text of a value without doubles. -/
def tokens : Json → List Token
  | .null => [.null]
  | .bool b => [.bool b]
  | .int n => [.number (numeral n)]
  | .float _ => []
  | .str s => [.text (some s)]
  | .arr items => .openArray :: (tokensItems items ++ [.closeArray])
  | .obj members => .openObject :: (tokensMembers members ++ [.closeObject])

/-- The tokens of the items of an array, with commas between them. -/
def tokensItems : List Json → List Token
  | [] => []
  | [v] => tokens v
  | v :: w :: rest => tokens v ++ .comma :: tokensItems (w :: rest)

/-- The tokens of the members of an object, with commas between them. -/
def tokensMembers : List (String × Json) → List Token
  | [] => []
  | [(k, v)] => .text (some k) :: .colon :: tokens v
  | (k, v) :: m :: rest => .text (some k) :: .colon :: (tokens v ++ .comma :: tokensMembers (m :: rest))

end

/-- The text of items spells their tokens. -/
theorem spells_items {items : List Json} (h : ∀ v ∈ items, Scan.Spells v.chars v.tokens) :
    Scan.Spells (charsItems items) (tokensItems items) := by
  induction items with
  | nil => exact Scan.spells_nil
  | cons v rest ih =>
    obtain ⟨hv, hrest⟩ := List.forall_mem_cons.mp h
    cases rest with
    | nil => exact hv
    | cons w rest => exact hv.append .comma (ih hrest)

/-- The text of members spells their tokens. -/
theorem spells_members {members : List (String × Json)} (h : ∀ m ∈ members, Scan.Spells m.2.chars m.2.tokens) :
    Scan.Spells (charsMembers members) (tokensMembers members) := by
  induction members with
  | nil => exact Scan.spells_nil
  | cons m rest ih =>
    obtain ⟨k, v⟩ := m
    obtain ⟨hv, hrest⟩ := List.forall_mem_cons.mp h
    have hname := Scan.spells_quoted k
    cases rest with
    | nil => exact hname.append .colon hv
    | cons m rest => exact hname.append .colon (hv.append .comma (ih hrest))

/-- The text of a value spells its tokens. -/
theorem spells_chars {v : Json} (h : v.Printable) : Scan.Spells v.chars v.tokens := by
  induction v with
  | null => exact fun _ => rfl
  | bool b => cases b <;> exact fun _ => rfl
  | int n => exact Scan.spells_intText n
  | float x => exact absurd h (not_printable_float x)
  | str s => exact Scan.spells_quoted s
  | arr items ih =>
    have hitems := spells_items fun v hv => ih v hv ((printable_arr items).mp h v hv)
    exact Scan.spells_nil.append .openArray (hitems.append .closeArray Scan.spells_nil)
  | obj members ih =>
    have hmembers := spells_members fun m hm => ih m hm ((printable_obj members).mp h m hm)
    exact Scan.spells_nil.append .openObject (hmembers.append .closeObject Scan.spells_nil)

end Json

/-! ## Assembling the tokens of a value -/

namespace Assembly

/-- The first item of an array begins with no closing bracket, and so is read as any other. -/
theorem foldl_first {v : Json} (h : v.Printable) (rest : List Json) (frames : List Frame) :
    (Json.tokensItems (v :: rest)).foldl step (.firstItem frames) =
      (Json.tokensItems (v :: rest)).foldl step (.value (.items [] :: frames)) := by
  have hfirst : ∃ t ts, v.tokens = t :: ts ∧ t ≠ .closeArray := by
    cases v with
    | float x => exact absurd h (Json.not_printable_float x)
    | _ => exact ⟨_, _, rfl, nofun⟩
  obtain ⟨t, ts, ht, hne⟩ := hfirst
  have hitems : ∃ more, Json.tokensItems (v :: rest) = t :: more := by
    cases rest with
    | nil => exact ⟨ts, ht⟩
    | cons w rest => exact ⟨_, by rw [Json.tokensItems, ht, List.cons_append]⟩
  obtain ⟨more, hmore⟩ := hitems
  rw [hmore, List.foldl_cons, List.foldl_cons]
  cases t with
  | closeArray => exact absurd rfl hne
  | _ => rfl

/-- Reading the tokens of a value where one should stand puts the document of the value there. -/
def Assembles (v : Json) : Prop := ∀ frames, v.tokens.foldl step (.value frames) = put (.ofJson v) frames

/-- Items are read after those before them. -/
theorem foldl_items {items : List Json} (h : ∀ v ∈ items, Assembles v) {v : Json} (hv : Assembles v)
    (done : List Document) (frames : List Frame) :
    (Json.tokensItems (v :: items)).foldl step (.value (.items done :: frames)) =
      .afterItem ((Document.ofItems (v :: items)).reverse ++ done) frames := by
  induction items generalizing v done with
  | nil =>
    rw [Json.tokensItems, hv]
    rfl
  | cons w rest ih =>
    obtain ⟨hw, hrest⟩ := List.forall_mem_cons.mp h
    have hcomma : step (put (.ofJson v) (.items done :: frames)) .comma = .value (.items (.ofJson v :: done) :: frames) :=
      rfl
    rw [Json.tokensItems, List.foldl_append, List.foldl_cons, hv, hcomma, ih hrest hw]
    simp [Document.ofItems]

/-- Members are read after those before them, where a name should stand. -/
theorem foldl_members {members : List (String × Json)} (h : ∀ m ∈ members, Assembles m.2) {m : String × Json}
    (hm : Assembles m.2) (done : List (Option String × Document)) (frames : List Frame) :
    (Json.tokensMembers (m :: members)).foldl step (.nextName done frames) =
      .afterMember ((Document.ofMembers (m :: members)).reverse ++ done) frames := by
  obtain ⟨k, v⟩ := m
  have hname : step (step (.nextName done frames) (.text (some k))) .colon = .value (.member done (some k) :: frames) :=
    rfl
  induction members generalizing k v done with
  | nil =>
    rw [Json.tokensMembers, List.foldl_cons, List.foldl_cons, hname, hm]
    rfl
  | cons m rest ih =>
    obtain ⟨k', v'⟩ := m
    obtain ⟨hm', hrest⟩ := List.forall_mem_cons.mp h
    have hcomma : step (put (.ofJson v) (.member done (some k) :: frames)) .comma =
        .nextName ((some k, .ofJson v) :: done) frames := rfl
    rw [Json.tokensMembers, List.foldl_cons, List.foldl_cons, hname, List.foldl_append, List.foldl_cons, hm, hcomma,
      ih hrest _ _ _ hm' rfl]
    simp [Document.ofMembers]

/-- The tokens of a printable value assemble to its document. -/
theorem assembles {v : Json} (h : v.Printable) : Assembles v := by
  intro frames
  induction v generalizing frames with
  | null | bool | str => rfl
  | int n =>
    have hnumber : Document.ofNumeral (Json.numeral n) = .int n := by
      rw [Document.ofNumeral, Json.int?_numeral ((Json.printable_int n).mp h)]
    show put (.ofNumeral (Json.numeral n)) frames = put (.int n) frames
    rw [hnumber]
  | float x => exact absurd h (Json.not_printable_float x)
  | arr items ih =>
    have hprint := (Json.printable_arr items).mp h
    cases items with
    | nil => rfl
    | cons v rest =>
      have hall : ∀ w ∈ v :: rest, Assembles w := fun w hw => ih w hw (hprint w hw)
      obtain ⟨hv, hrest⟩ := List.forall_mem_cons.mp hall
      rw [Json.tokens, List.foldl_cons, List.foldl_append]
      have hopen : step (.value frames) .openArray = .firstItem frames := rfl
      rw [hopen, foldl_first (hprint v List.mem_cons_self), foldl_items hrest hv]
      simp [step, Document.ofJson]
  | obj members ih =>
    have hprint := (Json.printable_obj members).mp h
    cases members with
    | nil => rfl
    | cons m rest =>
      obtain ⟨k, v⟩ := m
      have hall : ∀ m ∈ (k, v) :: rest, Assembles m.2 := fun m hm => ih m hm (hprint m hm)
      obtain ⟨hm, hrest⟩ := List.forall_mem_cons.mp hall
      have hname : (Json.tokensMembers ((k, v) :: rest)).foldl step (.firstName frames) =
          (Json.tokensMembers ((k, v) :: rest)).foldl step (.nextName [] frames) := by cases rest <;> rfl
      have hopen : step (.value frames) .openObject = .firstName frames := rfl
      rw [Json.tokens, List.foldl_cons, List.foldl_append, hopen, hname, foldl_members hrest hm]
      simp [step, Document.ofJson]

end Assembly

/-- The text of a printable value is in order, and its document is that of the value. -/
theorem Document.ofText_render {v : Json} (h : v.Printable) : Document.ofText v.render = (.ofJson v, true) := by
  have hscan : Scan.run v.render.toList = ⟨.between, v.tokens.reverse⟩ := by
    rw [Json.render, String.toList_ofList, Scan.run, Scan.start, Json.spells_chars h, List.append_nil]
  have hrun : Assembly.run v.tokens = (.ofJson v, true) := by
    rw [Assembly.run, Assembly.assembles h]
    rfl
  simp only [Document.ofText, hscan, List.reverse_reverse, hrun]
  rfl

/-- Printable values with one text are the same value. -/
theorem Json.render_inj {v w : Json} (hv : v.Printable) (hw : w.Printable) : v.render = w.render ↔ v = w := by
  refine ⟨fun h => ?_, congrArg render⟩
  have hdocuments : (Document.ofJson v, true) = (Document.ofJson w, true) := by
    rw [← Document.ofText_render hv, ← Document.ofText_render hw, h]
  exact Document.ofJson_inj.mp (Prod.mk.inj hdocuments).1

/-! ## The numbers of a text -/

namespace Document

/-- A numeral is read as a whole number only if that fits 64 bits. -/
theorem fits_ofNumeral (n : Numeral) : (ofNumeral n).fits := by
  unfold ofNumeral
  split
  · rename_i m hm
    refine decide_eq_true ?_
    simp only [Numeral.int?] at hm
    unfold Json.InRange
    grind
  · rfl

end Document

namespace Assembly

/-- All whole numbers that stand in a frame fit 64 bits. -/
def Frame.Fits : Frame → Prop
  | .items done => ∀ d ∈ done, d.fits
  | .member done _ => ∀ m ∈ done, m.2.fits

/-- All whole numbers read so far fit 64 bits. -/
def Fits : Assembly → Prop
  | .value frames | .firstItem frames | .firstName frames => ∀ f ∈ frames, f.Fits
  | .afterItem done frames => (∀ d ∈ done, d.fits) ∧ ∀ f ∈ frames, f.Fits
  | .nextName done frames | .colon done _ frames | .afterMember done frames =>
    (∀ m ∈ done, m.2.fits) ∧ ∀ f ∈ frames, f.Fits
  | .finished d _ => d.fits

/-- Putting a value in its place adds no number but those of the value. -/
theorem fits_put {d : Document} (h : d.fits) {frames : List Frame} (hframes : ∀ f ∈ frames, f.Fits) :
    (put d frames).Fits := by
  cases frames with
  | nil => exact h
  | cons f frames =>
    obtain ⟨hf, hrest⟩ := List.forall_mem_cons.mp hframes
    cases f with
    | items done => exact ⟨List.forall_mem_cons.mpr ⟨h, hf⟩, hrest⟩
    | member done name => exact ⟨List.forall_mem_cons.mpr ⟨h, hf⟩, hrest⟩

theorem fits_reverse_items {done : List Document} (h : ∀ d ∈ done, d.fits) (ending : Ending) :
    (Document.array done.reverse ending).fits :=
  Document.fits_array.mpr fun d hd => h d (List.mem_reverse.mp hd)

theorem fits_reverse_members {done : List (Option String × Document)} (h : ∀ m ∈ done, m.2.fits) (ending : Ending) :
    (Document.object done.reverse ending).fits :=
  Document.fits_object.mpr fun m hm => h m (List.mem_reverse.mp hm)

/-- Breaking off adds no number. -/
theorem fits_surround {d : Document} (h : d.fits) {frames : List Frame} (hframes : ∀ f ∈ frames, f.Fits) :
    (surround d frames).fits := by
  induction frames generalizing d with
  | nil => exact h
  | cons f frames ih =>
    obtain ⟨hf, hrest⟩ := List.forall_mem_cons.mp hframes
    cases f with
    | items done =>
      have hall : ∀ d' ∈ d :: done, d'.fits := List.forall_mem_cons.mpr ⟨h, hf⟩
      exact ih (fits_reverse_items hall .broken) hrest
    | member done name =>
      have hall : ∀ m ∈ (name, d) :: done, m.2.fits := List.forall_mem_cons.mpr ⟨h, hf⟩
      exact ih (fits_reverse_members hall .broken) hrest

theorem fits_document {a : Assembly} (h : a.Fits) : a.document.fits := by
  cases a with
  | value frames => exact fits_surround rfl h
  | firstItem frames | firstName frames => exact fits_surround rfl h
  | afterItem done frames => exact fits_surround (fits_reverse_items h.1 .broken) h.2
  | nextName done frames | afterMember done frames => exact fits_surround (fits_reverse_members h.1 .broken) h.2
  | colon done name frames =>
    have hall : ∀ m ∈ (name, Document.hole) :: done, m.2.fits := List.forall_mem_cons.mpr ⟨rfl, h.1⟩
    exact fits_surround (fits_reverse_members hall .broken) h.2
  | finished d whole => exact h

theorem fits_takeValue {frames : List Frame} (h : ∀ f ∈ frames, f.Fits) (t : Token) : (takeValue frames t).Fits := by
  cases t with
  | number n => exact fits_put (Document.fits_ofNumeral n) h
  | null | bool | text => exact fits_put rfl h
  | openArray | openObject => exact h
  | _ => exact fits_document (a := .value frames) h

/-- One more token keeps all numbers within 64 bits. -/
theorem fits_step {a : Assembly} (h : a.Fits) (t : Token) : (a.step t).Fits := by
  unfold step
  split
  · exact fits_takeValue h _
  · exact fits_put rfl h
  · have hempty : (Frame.items []).Fits := List.forall_mem_nil _
    exact fits_takeValue (List.forall_mem_cons.mpr ⟨hempty, h⟩) _
  · exact List.forall_mem_cons.mpr h
  · exact fits_put (fits_reverse_items h.1 .closed) h.2
  · exact fits_put rfl h
  · exact ⟨List.forall_mem_nil _, h⟩
  · exact h
  · exact List.forall_mem_cons.mpr h
  · exact h
  · exact fits_put (fits_reverse_members h.1 .closed) h.2
  · exact fits_document h

end Assembly

/-- All whole numbers in the document of a text fit 64 bits. -/
theorem Document.fits_ofText (text : String) : (Document.ofText text).1.fits := by
  have hfold : ∀ (tokens : List Token) (a : Assembly), a.Fits → (tokens.foldl Assembly.step a).Fits := by
    intro tokens
    induction tokens with
    | nil => exact fun a h => h
    | cons t rest ih => exact fun a h => ih _ (Assembly.fits_step h t)
  have hfits := hfold (Scan.run text.toList).tokens.reverse (.value []) (List.forall_mem_nil _)
  simp only [Document.ofText, Assembly.run]
  unfold Assembly.finish
  split
  · rename_i d whole heq
    rw [heq] at hfits
    exact hfits
  · exact Assembly.fits_document hfits

end Chronicle
