/-
The formats of `pack`: directives with blanks between them, and what `parsePackFormat` makes
of their text.
-/
import NewLispNeo.Pack

namespace NewLispNeo.Pack

/-- The directives of an integer. -/
inductive IntegerType where
  | byte | char | int | unsignedInt | long | unsignedLong | longLong | unsignedLongLong

namespace IntegerType

def text : IntegerType → List UInt8
  | byte => [98]
  | char => [99]
  | int => [100]
  | unsignedInt => [117]
  | long => [108, 100]
  | unsignedLong => [108, 117]
  | longLong => [76, 100]
  | unsignedLongLong => [76, 117]

def packType : IntegerType → PackType
  | byte => .byte
  | char => .char
  | int => .int
  | unsignedInt => .unsignedInt
  | long => .long
  | unsignedLong => .unsignedLong
  | longLong => .longLong
  | unsignedLongLong => .unsignedLongLong

/-- The number of bytes. -/
def size : IntegerType → Nat
  | byte | char => 1
  | int | unsignedInt => 2
  | long | unsignedLong => 4
  | longLong | unsignedLongLong => 8

def signed : IntegerType → Bool
  | char | int | long | longLong => true
  | _ => false

/-- The range of the integers the directive is for. -/
def Holds (t : IntegerType) (i : Int) : Prop :=
  if t.signed then -2 ^ (8 * t.size - 1) ≤ i ∧ i < 2 ^ (8 * t.size - 1)
  else 0 ≤ i ∧ i < 2 ^ (8 * t.size)

end IntegerType

/-- A directive; a string and a row of zeros have the digits of a count behind them, or none. -/
inductive Directive where
  | littleEndian
  | bigEndian
  | null (digits : List UInt8)
  | string (digits : List UInt8)
  | integer (t : IntegerType)
  | float
  | double

/-- The count that digits state; none stands for one. -/
def count (digits : List UInt8) : Nat := if digits = [] then 1 else textValue digits

namespace Directive

def text : Directive → List UInt8
  | littleEndian => [60]
  | bigEndian => [62]
  | null digits => 110 :: digits
  | string digits => 115 :: digits
  | integer t => t.text
  | float => [102]
  | double => [108, 102]

/-- What stands behind a letter that takes a count are digits. -/
def Valid : Directive → Prop
  | null digits => ∀ c ∈ digits, isDigit c
  | string digits => ∀ c ∈ digits, isDigit c
  | _ => True

/-- The bytes a directive is for. -/
def size : Directive → Nat
  | littleEndian | bigEndian => 0
  | null digits => count digits
  | string digits => count digits
  | integer t => t.size
  | float => 4
  | double => 8

/-- What `parsePackFormat` makes of a count. -/
def lengthOf (digits : List UInt8) : Int := if digits = [] then 1 else atolInt digits

def item : Directive → Item
  | littleEndian => (0, .littleEndian)
  | bigEndian => (0, .bigEndian)
  | null digits => (lengthOf digits, .null)
  | string digits => (lengthOf digits, .string)
  | integer t => (t.size, t.packType)
  | float => (4, .float)
  | double => (8, .double)

end Directive

/-- A format: directives, each with the blanks in front of it, and blanks at the end. -/
structure Format where
  directives : List (Nat × Directive)
  trailing : Nat
  valid : ∀ d ∈ directives, d.2.Valid

def blanks (n : Nat) : List UInt8 := List.replicate n 32

def directivesText (directives : List (Nat × Directive)) (trailing : Nat) : List UInt8 :=
  directives.foldr (fun d rest => blanks d.1 ++ (d.2.text ++ rest)) (blanks trailing)

namespace Format

variable (f : Format)

def text : List UInt8 := directivesText f.directives f.trailing

def list : List Directive := f.directives.map Prod.snd

end Format

section Parse

variable {digits rest : List UInt8} {d : Directive}

theorem dropWhile_blanks (n : Nat) {c : UInt8} (hc : c ≠ 32) (rest : List UInt8) :
    (blanks n ++ c :: rest).dropWhile (· = 32) = c :: rest := by
  induction n with
  | zero => simp [blanks, hc]
  | succ n ih =>
      rw [blanks, List.replicate_succ, List.cons_append, List.dropWhile_cons_of_pos (by decide)]
      exact ih

theorem dropWhile_trailing (n : Nat) : (blanks n).dropWhile (· = 32) = [] := by
  induction n with
  | zero => rfl
  | succ n ih =>
      rw [blanks, List.replicate_succ, List.dropWhile_cons_of_pos (by decide)]
      exact ih

/-- No digit stands in front. -/
def NoDigit (rest : List UInt8) : Prop := ∀ c ∈ rest.head?, ¬ isDigit c

theorem takeWhile_count (hdigits : ∀ c ∈ digits, isDigit c) (hrest : NoDigit rest) :
    (digits ++ rest).takeWhile isDigit = digits := by
  rw [List.takeWhile_append_of_pos (by simpa using hdigits)]
  cases rest with
  | nil => simp
  | cons c rest => simp [hrest c rfl]

theorem dropWhile_count (hdigits : ∀ c ∈ digits, isDigit c) (hrest : NoDigit rest) :
    (digits ++ rest).dropWhile isDigit = rest := by
  rw [List.dropWhile_append_of_pos (by simpa using hdigits)]
  cases rest with
  | nil => simp
  | cons c rest => simp [hrest c rfl]

theorem parseCount_digits (hdigits : ∀ c ∈ digits, isDigit c) (hrest : NoDigit rest) :
    parseCount (digits ++ rest) = Directive.lengthOf digits := by
  rw [parseCount, takeWhile_count hdigits hrest, Directive.lengthOf]
  cases digits with
  | nil =>
      have hhead : ¬ rest.head?.any isDigit := by
        cases rest with
        | nil => simp
        | cons c rest => simpa using hrest c rfl
      rw [List.nil_append, if_neg hhead, if_pos rfl]
  | cons c digits =>
      have hc := hdigits c List.mem_cons_self
      rw [if_pos (by simpa using hc), if_neg (List.cons_ne_nil _ _)]

/-- A directive is parsed where its text stands. -/
theorem packDirective_text (hd : d.Valid) (rest : List UInt8) (hrest : NoDigit rest) :
    ∃ c t, d.text = c :: t ∧ c ≠ 32 ∧ c ≠ 0 ∧ ¬ isDigit c ∧
      packDirective c (t ++ rest) = (d.item, rest) := by
  cases d with
  | littleEndian => exact ⟨60, [], rfl, by decide, by decide, by decide, rfl⟩
  | bigEndian => exact ⟨62, [], rfl, by decide, by decide, by decide, rfl⟩
  | null digits =>
      refine ⟨110, digits, rfl, by decide, by decide, by decide, ?_⟩
      have hpack : packDirective 110 (digits ++ rest) =
          ((parseCount (digits ++ rest), .null), (digits ++ rest).dropWhile isDigit) := rfl
      rw [hpack, parseCount_digits hd hrest, dropWhile_count hd hrest]
      rfl
  | string digits =>
      refine ⟨115, digits, rfl, by decide, by decide, by decide, ?_⟩
      have hpack : packDirective 115 (digits ++ rest) =
          ((parseCount (digits ++ rest), .string), (digits ++ rest).dropWhile isDigit) := rfl
      rw [hpack, parseCount_digits hd hrest, dropWhile_count hd hrest]
      rfl
  | integer t =>
      cases t with
      | byte => exact ⟨98, [], rfl, by decide, by decide, by decide, rfl⟩
      | char => exact ⟨99, [], rfl, by decide, by decide, by decide, rfl⟩
      | int => exact ⟨100, [], rfl, by decide, by decide, by decide, rfl⟩
      | unsignedInt => exact ⟨117, [], rfl, by decide, by decide, by decide, rfl⟩
      | long => exact ⟨108, [100], rfl, by decide, by decide, by decide, rfl⟩
      | unsignedLong => exact ⟨108, [117], rfl, by decide, by decide, by decide, rfl⟩
      | longLong => exact ⟨76, [100], rfl, by decide, by decide, by decide, rfl⟩
      | unsignedLongLong => exact ⟨76, [117], rfl, by decide, by decide, by decide, rfl⟩
  | float => exact ⟨102, [], rfl, by decide, by decide, by decide, rfl⟩
  | double => exact ⟨108, [102], rfl, by decide, by decide, by decide, rfl⟩

/-- Behind a directive stands a blank, the letter of another, or nothing. -/
theorem noDigit_directivesText {directives : List (Nat × Directive)} (trailing : Nat)
    (h : ∀ d ∈ directives, d.2.Valid) : NoDigit (directivesText directives trailing) := by
  have hblank : ∀ n rest, 0 < n → NoDigit (blanks n ++ rest) := by
    intro n rest hn c hc
    obtain ⟨n, rfl⟩ := Nat.exists_eq_succ_of_ne_zero hn.ne'
    rw [blanks, List.replicate_succ] at hc
    cases hc
    decide
  cases directives with
  | nil =>
      rcases Nat.eq_zero_or_pos trailing with rfl | hpos
      · intro c hc
        cases hc
      · have h := hblank trailing [] hpos
        rw [List.append_nil] at h
        exact h
  | cons d directives =>
      obtain ⟨n, d⟩ := d
      rcases Nat.eq_zero_or_pos n with rfl | hpos
      · obtain ⟨c, t, htext, -, -, hdigit, -⟩ := packDirective_text
          (h _ List.mem_cons_self) [] (by intro c hc; cases hc)
        intro b hb
        rw [directivesText, List.foldr_cons] at hb
        simp only [blanks, List.replicate_zero, List.nil_append, htext] at hb
        cases hb
        exact hdigit
      · exact hblank n _ hpos

theorem length_directive_pos (d : Directive) : 0 < d.text.length := by
  cases d with
  | integer t => cases t <;> decide
  | _ => simp [Directive.text]

theorem packItems_text {directives : List (Nat × Directive)} {trailing : Nat}
    (h : ∀ d ∈ directives, d.2.Valid) {fuel : Nat}
    (hfuel : (directivesText directives trailing).length ≤ fuel) :
    packItems fuel (directivesText directives trailing) =
      directives.map fun d => d.2.item := by
  induction directives generalizing fuel with
  | nil =>
      have hnone : parsePackFormat (blanks trailing) = none := by
        rw [parsePackFormat, dropWhile_trailing]
      cases fuel with
      | zero => rfl
      | succ fuel =>
          have htext : directivesText [] trailing = blanks trailing := rfl
          rw [htext, packItems, hnone]
          rfl
  | cons d directives ih =>
      obtain ⟨n, d⟩ := d
      have hrest : ∀ d ∈ directives, d.2.Valid := fun e he => h e (List.mem_cons_of_mem _ he)
      have htail := noDigit_directivesText trailing hrest
      obtain ⟨c, t, htext, hblank, hzero, -, hpack⟩ :=
        packDirective_text (h _ List.mem_cons_self) _ htail
      have hcons : directivesText ((n, d) :: directives) trailing =
          blanks n ++ (d.text ++ directivesText directives trailing) := rfl
      have hpos := length_directive_pos d
      rw [hcons] at hfuel ⊢
      simp only [List.length_append] at hfuel
      cases fuel with
      | zero => omega
      | succ fuel =>
          have hparse : parsePackFormat (blanks n ++ (d.text ++
              directivesText directives trailing)) =
              some (d.item, directivesText directives trailing) := by
            rw [parsePackFormat, htext, List.cons_append, dropWhile_blanks n hblank]
            simp only [if_neg hzero, hpack]
          have hfuel' : (directivesText directives trailing).length ≤ fuel := by omega
          rw [packItems, hparse, List.map_cons, ← ih hrest hfuel']

/-- The loops meet the directives of a format one after the other. -/
theorem formatItems_text (f : Format) : formatItems f.text = f.list.map Directive.item := by
  rw [formatItems, Format.text, packItems_text f.valid le_rfl, Format.list, List.map_map]
  rfl

end Parse

section Counts

variable {digits : List UInt8}

/-- A count below `2 ^ 31` is the length `parsePackFormat` returns. -/
theorem atolInt_of_lt (h : textValue digits < 2 ^ 31) : atolInt digits = textValue digits := by
  rw [atolInt, min_eq_left (by omega), BitVec.toInt_eq_toNat_of_lt]
  · rw [BitVec.toNat_ofNat, Nat.mod_eq_of_lt (by omega)]
  · rw [BitVec.toNat_ofNat, Nat.mod_eq_of_lt (by omega)]
    omega

/-- A length that is not negative is below `2 ^ 31`, and not above the count. -/
theorem atolInt_le (h : 0 ≤ atolInt digits) :
    atolInt digits < 2 ^ 31 ∧ atolInt digits ≤ textValue digits := by
  rw [atolInt] at h ⊢
  refine ⟨?_, ?_⟩
  · have hlt := BitVec.toInt_lt (x := BitVec.ofNat 32 (min (textValue digits) (2 ^ 63 - 1)))
    omega
  · rw [BitVec.toInt_eq_toNat_cond] at h ⊢
    rw [BitVec.toNat_ofNat] at h ⊢
    split_ifs at h ⊢ with hsign
    · have hmod := Nat.mod_le (min (textValue digits) (2 ^ 63 - 1)) (2 ^ 32)
      have hmin := Nat.min_le_left (textValue digits) (2 ^ 63 - 1)
      omega
    · have hmod := Nat.mod_lt (min (textValue digits) (2 ^ 63 - 1)) (show 0 < 2 ^ 32 by decide)
      omega

theorem lengthOf_of_lt (h : count digits < 2 ^ 31) :
    Directive.lengthOf digits = count digits := by
  rw [count] at h ⊢
  rw [Directive.lengthOf]
  by_cases hnil : digits = []
  · rw [if_pos hnil, if_pos hnil]
    rfl
  · rw [if_neg hnil] at h
    rw [if_neg hnil, if_neg hnil, atolInt_of_lt h]

theorem lengthOf_le (h : 0 ≤ Directive.lengthOf digits) :
    Directive.lengthOf digits < 2 ^ 31 ∧ Directive.lengthOf digits ≤ count digits := by
  rw [Directive.lengthOf] at h ⊢
  rw [count]
  by_cases hnil : digits = []
  · rw [if_pos hnil, if_pos hnil]
    decide
  · rw [if_neg hnil] at h
    rw [if_neg hnil, if_neg hnil]
    exact atolInt_le h

end Counts

end NewLispNeo.Pack
