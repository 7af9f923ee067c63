/-
`slice` and implicit slicing of lists, strings and arrays: three functions that
normalise the offset and the length, each in its own order.
-/
import NewLispNeo.CellPool
import NewLispNeo.Utf8

namespace NewLispNeo

open Utf8 (utf8Index utf8Wlen)

variable {α : Type}

/-- Copies are taken from the nursery, while the list they are linked to is held
by a C variable only and is lost once a full nursery has been collected.  `room`
cells can be taken before that, and never more than the nursery has; the copy of
an element takes `cells` of them. -/
structure Copying (α : Type) where
  room : Nat
  cells : α → Nat

/-- How many cells the copies of the elements take. -/
def Copying.size (c : Copying α) (list : List α) : Nat := (list.map c.cells).sum

/-- A list of copies. -/
def Copying.link (c : Copying α) (list : List α) : Outcome ListError (List α) :=
  if c.size list ≤ c.room then .value list else .undefined

/-- `MAX_LONG`, which stands for "up to the end". -/
def maxLong : Int := 2 ^ 63 - 1

/-- The loop of `convertNegativeOffset`; its counter is an `int`. -/
def countInt : List α → Int → Outcome ListError Int
  | [], len => .value len
  | _ :: list, len =>
      if len = 2 ^ 31 - 1 then .undefined else countInt list (len + 1)

def convertNegativeOffset (offset : Int) (list : List α) :
    Outcome ListError Int := do
  let len ← countInt list 0
  if len + offset < 0 then .error .listIndexInvalid
  return len + offset

/-- `if(offset < 0) offset = convertNegativeOffset(offset, list)`. -/
def listOffset (offset : Int) (list : List α) : Outcome ListError Int :=
  if offset < 0 then convertNegativeOffset offset list else .value offset

/-- The length of a sublist; `listlen` is unsigned, so that the sum for a negative
length wraps. -/
def listLength (list : List α) (offset length : Int) : Int :=
  if length < 0 then
    max 0 ((list.length - offset + length : Int).bmod (2 ^ 64))
  else length

/-- The loops of `sublist` that step to the first element and copy from there. -/
def copyFrom (list : List α) (offset length : Int) : List α :=
  if length = 0 then []
  else match list.drop offset.toNat with
  | [] => []
  | cell :: list => cell :: list.take (length - 1).toNat

def sublist (c : Copying α) (list : List α) (offset length : Int) :
    Outcome ListError (List α) := do
  let offset ← listOffset offset list
  c.link (copyFrom list offset (listLength list offset length))

/-- A number converted to `int`. -/
def toInt32 (n : Int) : Int := n.bmod (2 ^ 32)

theorem toInt32_lt (n : Int) : toInt32 n < 2 ^ 31 := Int.bmod_lt (by decide)

theorem toInt32_eq {n : Int} (hlow : -2 ^ 31 ≤ n) (hhigh : n < 2 ^ 31) :
    toInt32 n = n := Int.bmod_eq_of_le (by omega) (by omega)

theorem fits_take {string : List UInt8} {len : Int} (hlow : ¬ len < -1)
    (hhigh : len < 2 ^ 31) : (string.take len.toNat).length + 1 < 2 ^ 63 := by
  have hle := List.length_take_le len.toNat string
  omega

/-- `stuffStringN` of the bytes from a pointer on; its length is an `int`. -/
def stuffStringN (string : List UInt8) (len : Int) :
    Outcome ListError CellString :=
  if toInt32 len = 2 ^ 31 - 1 then .undefined -- `len + 1`
  else if h : toInt32 len < -1 then .error .notEnoughMemory
  else if toInt32 len = -1 ∨ string.length < (toInt32 len).toNat then
    .undefined -- `memcpy`
  else .value ⟨string.take (toInt32 len).toNat, fits_take h (toInt32_lt len)⟩

/-- The offset of a substring inside of the string. -/
def stringOffset (offset slen : Int) : Outcome ListError Int :=
  if offset < 0 then
    if slen + offset < 0 then .error .stringIndexInvalid
    else .value (slen + offset)
  else .value (if offset > slen then slen else offset)

/-- The length of a substring; the sum of the offset and a length may overflow. -/
def stringLength (slen offset len : Int) : Outcome ListError Int :=
  let len := if len < 0 then max 0 (slen - offset + len) else len
  if len = maxLong then .value (slen - offset)
  else if offset + len > maxLong then .undefined
  else .value (if offset + len > slen then slen - offset else len)

def substring (string : CellString) (offset len : Int) :
    Outcome ListError CellString := do
  let offset ← stringOffset offset string.bytes.length
  let len ← stringLength string.bytes.length offset len
  stuffStringN (string.bytes.drop offset.toNat) len

/-- `subarray` of the elements of an array. -/
def subarray (c : Copying α) (array : List α) (offset length : Int) :
    Outcome ListError (List α) :=
  let size : Int := array.length
  let offset := if offset < 0 then offset + size else offset
  if offset ≥ size ∨ offset < 0 then .error .arrayIndexOutOfBounds
  else
    let length := if length < 0 then max 0 (size - offset + length) else length
    let length := if length = maxLong ∧ length > size - offset then size - offset
      else length
    if length = 0 ∨ length > size - offset then .error .arrayIndexOutOfBounds
    else c.link ((array.drop offset.toNat).take length.toNat)

/-- The elements of a list or an array; memory has room for fewer than a signed
number can countOf. -/
structure CellVector (α : Type) where
  elements : List α
  fits : elements.length + 1 < 2 ^ 63

/-- A value that can be sliced, and others. -/
inductive Sequence (α : Type) where
  | list (list : CellVector α)
  | string (string : CellString)
  | array (array : CellVector α)
  | other

/-- A slice, of copies. -/
inductive Slice (α : Type) where
  | list (list : List α)
  | string (string : CellString)
  | array (array : List α)

def p_slice (c : Copying α) (cell : Sequence α) (offset : Word) (params : Option Word) :
    Outcome ListError (Slice α) :=
  let offset := offset.toInt
  let length := (params.map BitVec.toInt).getD maxLong
  match cell with
  | .list list => do return .list (← sublist c list.elements offset length)
  | .string string => do return .string (← substring string offset length)
  | .array array => do return .array (← subarray c array.elements offset length)
  | .other => .error .listOrStringExpected

/-- `(n list)`: the list without its first elements. -/
def nrest (c : Copying α) (list : List α) (n : Int) :
    Outcome ListError (List α) := do
  let n ← listOffset n list
  c.link (list.drop n.toNat)

/-- `implicitNrestSlice` of `(num cell)` and, with a length, of `(num len cell)`. -/
def implicitNrestSlice (c : Copying α) (num : Word) (len : Option Word) (cell : Sequence α) :
    Outcome ListError (Slice α) :=
  let n := num.toInt
  match len.map BitVec.toInt, cell with
  | some len, .list list => do return .list (← sublist c list.elements n len)
  | some len, .string string => do return .string (← substring string n len)
  | some len, .array array => do return .array (← subarray c array.elements n len)
  | none, .list list => do return .list (← nrest c list.elements n)
  | none, .string string => do return .string (← substring string n maxLong)
  | none, .array array => do return .array (← subarray c array.elements n maxLong)
  | _, .other => .error .illegalType

/-- The pieces of `explode` without `SUPPORT_UTF8`, the size counted down. -/
def explodeBytes : Nat → List UInt8 → Outcome ListError (List CellString)
  | 0, _ => .value []
  | size + 1, string => do
      let cell ← stuffStringN string 1
      return cell :: (← explodeBytes size (string.drop 1))

/-- The pieces of `explode` with `SUPPORT_UTF8`, from one `utf8_index` to the
next. -/
def explodeUtf8 : Nat → List UInt8 → Outcome ListError (List CellString)
  | 0, _ => .value []
  | size + 1, string =>
      match utf8Index string 1 with
      | none => .undefined
      | some ptr => do
          let cell ← stuffStringN string (string.length - ptr.length)
          return cell :: (← explodeUtf8 size ptr)

/-- A string takes one cell. -/
def stringCells (room : Nat) : Copying CellString := ⟨room, fun _ => 1⟩

/-- The pieces of a string that is not empty. -/
def explodeString (supportUtf8 : Bool) (string : List UInt8) :
    Outcome ListError (List CellString) :=
  if supportUtf8 then
    match utf8Wlen (string ++ [0]) (string.length + 1) with
    | none => .undefined
    | some size => explodeUtf8 (max size 1) (string ++ [0])
  else explodeBytes string.length string

/-- `p_explode` of a string into single characters. -/
def p_explode (room : Nat) (supportUtf8 : Bool) (string : CellString) :
    Outcome ListError (List CellString) :=
  if string.bytes.length = 0 then .value []
  else do
    let pieces ← explodeString supportUtf8 string.bytes
    (stringCells room).link pieces

/-! ### What is selected -/

variable {β : Type}

/-- The position of the first element, which may lie before the list. -/
def startAt (n o : Int) : Int := if o < 0 then n + o else o

/-- The number of elements, which may be negative. -/
def countOf (n o' : Int) : Option Int → Int
  | none => n - o'
  | some l => if l < 0 then n - o' + l else l

/-- The elements at the positions from `startAt` on, `countOf` of them as far as they
exist. -/
def selected (x : List β) (o : Int) (l : Option Int) : List β :=
  (x.drop (startAt x.length o).toNat).take (countOf x.length (startAt x.length o) l).toNat

theorem selected_map (f : α → β) (x : List α) (o : Int) (l : Option Int) :
    selected (x.map f) o l = (selected x o l).map f := by
  simp [selected, List.map_take, List.map_drop]

/-- `MAX_LONG` reaches to the end. -/
theorem selected_getD {x : List β} (hx : x.length + 1 < 2 ^ 63) (o : Int)
    (l : Option Int) (hl : l ≠ none ∨ 0 ≤ startAt x.length o) :
    selected x o (some (l.getD maxLong)) = selected x o l := by
  cases l with
  | some l => rfl
  | none =>
      have hstart := hl.resolve_left (by simp)
      have hmax : ¬ maxLong < 0 := by decide
      simp only [selected, countOf, Option.getD_none, if_neg hmax]
      rw [List.take_of_length_le, List.take_of_length_le]
      · rw [List.length_drop]
        omega
      · rw [List.length_drop, maxLong]
        omega

theorem selected_eq_nil {x : List β} {o : Int} {l : Option Int}
    (h : x.length ≤ startAt x.length o ∨ countOf x.length (startAt x.length o) l ≤ 0) :
    selected x o l = [] := by
  rcases h with h | h
  · rw [selected, List.drop_of_length_le (by omega), List.take_nil]
  · rw [selected, Int.toNat_of_nonpos h, List.take_zero]

/-! ### Lists -/

theorem countInt_eq {list : List α} {len : Int} (h : len + list.length < 2 ^ 31) :
    countInt list len = .value (len + list.length) := by
  induction list generalizing len with
  | nil => simp [countInt]
  | cons _ list ih =>
      simp only [List.length_cons] at h ⊢
      have hne : len ≠ 2 ^ 31 - 1 := by omega
      rw [countInt, if_neg hne, ih (by omega)]
      congr 1
      omega

theorem countInt_undefined {list : List α} {len : Int} (hlen : len < 2 ^ 31)
    (h : 2 ^ 31 ≤ len + list.length) : countInt list len = .undefined := by
  induction list generalizing len with
  | nil =>
      simp only [List.length_nil] at h
      omega
  | cons _ list ih =>
      simp only [List.length_cons] at h
      rw [countInt]
      split
      · rfl
      · exact ih (by omega) (by omega)

theorem convertNegativeOffset_eq {list : List α} {o : Int}
    (h : list.length < 2 ^ 31) : convertNegativeOffset o list =
      if list.length + o < 0 then .error .listIndexInvalid
      else .value (list.length + o) := by
  have hcount : countInt list 0 = .value (0 + list.length) := countInt_eq (by omega)
  rw [convertNegativeOffset, hcount, Outcome.value_bind, Int.zero_add]
  split <;> rfl

/-- The offset of a list once it is normalised. -/
theorem listOffset_eq {list : List α} {o : Int} (h : 0 ≤ o ∨ list.length < 2 ^ 31) :
    listOffset o list =
      if startAt list.length o < 0 then .error .listIndexInvalid
      else .value (startAt list.length o) := by
  by_cases ho : o < 0
  · rw [listOffset, if_pos ho, convertNegativeOffset_eq (by omega), startAt, if_pos ho]
  · rw [listOffset, if_neg ho, startAt, if_neg ho, if_neg ho]

theorem listOffset_undefined {list : List α} {o : Int} (ho : o < 0)
    (h : 2 ^ 31 ≤ list.length) : listOffset o list = .undefined := by
  rw [listOffset, if_pos ho, convertNegativeOffset,
    countInt_undefined (by decide) (by omega)]
  rfl

theorem nrest_eq (c : Copying α) {list : List α} {n : Int}
    (h : 0 ≤ n ∨ list.length < 2 ^ 31) :
    nrest c list n = if startAt list.length n < 0 then .error .listIndexInvalid
      else c.link (selected list n none) := by
  rw [nrest, listOffset_eq h]
  split
  · rfl
  · rw [Outcome.value_bind, selected, countOf, List.take_of_length_le]
    rw [List.length_drop]
    omega

theorem copyFrom_eq (list : List α) (offset length : Int) (h : 0 ≤ length) :
    copyFrom list offset length = (list.drop offset.toNat).take length.toNat := by
  rw [copyFrom]
  by_cases hzero : length = 0
  · simp [hzero]
  · rw [if_neg hzero]
    cases list.drop offset.toNat with
    | nil => simp
    | cons cell list =>
        obtain ⟨n, hn⟩ : ∃ n, length.toNat = n + 1 := ⟨length.toNat - 1, by omega⟩
        have hpred : (length - 1).toNat = n := by omega
        rw [hn, hpred, List.take_succ_cons]

/-- The wrapped length counts only where the offset lies behind the list. -/
theorem sublist_eq (c : Copying α) {list : List α} (hlist : list.length + 1 < 2 ^ 63) {o l : Int}
    (hl : -2 ^ 63 ≤ l) (h : 0 ≤ o ∨ list.length < 2 ^ 31) :
    sublist c list o l = if startAt list.length o < 0 then .error .listIndexInvalid
      else c.link (selected list o (some l)) := by
  rw [sublist, listOffset_eq h]
  split
  · rfl
  rename_i hstart
  have hnonneg : 0 ≤ listLength list (startAt list.length o) l := by
    rw [listLength]
    split
    · exact le_max_left ..
    · omega
  rw [Outcome.value_bind, copyFrom_eq _ _ _ hnonneg, selected]
  by_cases hbehind : (list.length : Int) < startAt list.length o
  · have hnil : list.drop (startAt list.length o).toNat = [] :=
      List.drop_of_length_le (by omega)
    rw [hnil, List.take_nil, List.take_nil]
  · congr 2
    rw [listLength, countOf]
    split
    · rw [Int.bmod_eq_of_le (by omega) (by omega)]
      omega
    · rfl

theorem sublist_undefined (c : Copying α) {list : List α} {o : Int} (ho : o < 0)
    (h : 2 ^ 31 ≤ list.length) (l : Int) : sublist c list o l = .undefined := by
  rw [sublist, listOffset_undefined ho h]
  rfl

/-! ### Strings -/

theorem stuffStringN_eq {string : List UInt8} {n : Nat} (h : n ≤ string.length)
    (hn : n < 2 ^ 31 - 1) :
    ∃ s, stuffStringN string n = .value s ∧ s.bytes = string.take n := by
  have hmod : toInt32 n = n := toInt32_eq (by omega) (by omega)
  have hmax : ¬ (n : Int) = 2 ^ 31 - 1 := by omega
  have hmin : ¬ (n : Int) < -1 := by omega
  have hcopy : ¬ ((n : Int) = -1 ∨ string.length < (n : Int).toNat) := by omega
  simp only [stuffStringN, hmod, if_neg hmax, dif_neg hmin, if_neg hcopy]
  exact ⟨_, rfl, by simp⟩

/-- A length that is no `int` never comes out as it went in. -/
theorem stuffStringN_ne {string : List UInt8} {n : Nat} (hn : 2 ^ 31 - 1 ≤ n)
    {s : CellString} (h : stuffStringN string n = .value s) : s.bytes.length ≠ n := by
  have hlt := toInt32_lt n
  rw [stuffStringN] at h
  split at h
  · cases h
  rename_i hmax
  split at h
  · cases h
  split at h
  · cases h
  have hs := Outcome.value.inj h
  have hbytes : string.take (toInt32 n).toNat = s.bytes := by rw [← hs]
  have hle := List.length_take_le (toInt32 n).toNat string
  rw [← hbytes]
  omega

/-- The sum of the offset and the length of a string is in range. -/
def SumFits (n o : Int) (l : Option Int) : Prop :=
  ∀ l', l = some l' → 0 ≤ l' → l' ≠ maxLong → min (startAt n o) n + l' ≤ maxLong

theorem stringOffset_eq (slen o : Int) :
    stringOffset o slen = if startAt slen o < 0 then .error .stringIndexInvalid
      else .value (min (startAt slen o) slen) := by
  by_cases ho : o < 0
  · rw [stringOffset, if_pos ho, startAt, if_pos ho]
    split
    · rfl
    · rw [min_eq_left (by omega)]
  · rw [stringOffset, if_neg ho, startAt, if_neg ho, if_neg ho]
    congr 1
    omega

theorem stringLength_eq {slen o' l : Int} (hslen : slen < 2 ^ 63 - 1) (ho : 0 ≤ o')
    (hle : o' ≤ slen) (h : 0 ≤ l → l ≠ maxLong → o' + l ≤ maxLong)
    (hl : l < 2 ^ 63) :
    stringLength slen o' l =
      .value (min (max 0 (countOf slen o' (some l))) (slen - o')) := by
  rw [stringLength, countOf]
  by_cases hneg : l < 0
  · have hmax : ¬ max 0 (slen - o' + l) = maxLong := by
      rw [maxLong]
      omega
    have hsum : ¬ o' + max 0 (slen - o' + l) > maxLong := by
      rw [maxLong]
      omega
    simp only [if_pos hneg, if_neg hmax, if_neg hsum]
    congr 1
    omega
  · simp only [if_neg hneg]
    by_cases hmax : l = maxLong
    · rw [if_pos hmax, hmax, maxLong]
      congr 1
      omega
    · have hsum := h (by omega) hmax
      rw [if_neg hmax, if_neg (by omega)]
      congr 1
      omega

theorem stringLength_undefined {slen o' l : Int} (hl : 0 ≤ l) (hne : l ≠ maxLong)
    (h : maxLong < o' + l) : stringLength slen o' l = .undefined := by
  have hneg : ¬ l < 0 := by omega
  simp only [stringLength, if_neg hneg, if_neg hne, if_pos h]

/-- A substring is what `stuffStringN` makes of the selected bytes. -/
theorem substring_eq {string : CellString} {o l : Int} (hl : l < 2 ^ 63)
    (hstart : 0 ≤ startAt string.bytes.length o)
    (hsum : SumFits string.bytes.length o (some l)) :
    substring string o l = stuffStringN
      (string.bytes.drop (startAt string.bytes.length o).toNat)
      (selected string.bytes o (some l)).length := by
  have hfits := string.fits
  rw [substring, stringOffset_eq, if_neg (by omega), Outcome.value_bind,
    stringLength_eq (by omega) (by omega) (by omega) (hsum l rfl) hl,
    Outcome.value_bind]
  by_cases hbehind : (string.bytes.length : Int) < startAt string.bytes.length o
  · rw [min_eq_right hbehind.le, selected_eq_nil (.inl hbehind.le),
      List.drop_of_length_le (by omega), List.drop_of_length_le (by omega)]
    congr 1
    simp only [sub_self, List.length_nil]
    omega
  · rw [min_eq_left (by omega)]
    congr 1
    rw [selected, List.length_take, List.length_drop]
    omega

theorem substring_error {string : CellString} {o : Int}
    (hstart : startAt string.bytes.length o < 0) (l : Int) :
    substring string o l = .error .stringIndexInvalid := by
  rw [substring, stringOffset_eq, if_pos hstart]
  rfl

theorem substring_undefined {string : CellString} {o l : Int}
    (hstart : 0 ≤ startAt string.bytes.length o)
    (hsum : ¬ SumFits string.bytes.length o (some l)) :
    substring string o l = .undefined := by
  simp only [SumFits, not_forall, not_le] at hsum
  obtain ⟨l', hl', hnonneg, hne, hlt⟩ := hsum
  cases hl'
  rw [substring, stringOffset_eq, if_neg (by omega), Outcome.value_bind,
    stringLength_undefined hnonneg hne hlt]
  rfl

/-! ### Arrays -/

theorem arrayOffset_eq (array : List α) (o : Int) :
    (if o < 0 then o + (array.length : Int) else o) = startAt array.length o := by
  rw [startAt]
  split <;> omega

theorem subarray_eq (c : Copying α) {array : List α} {o l : Int}
    (hstart : 0 ≤ startAt array.length o)
    (hpos : 0 < countOf array.length (startAt array.length o) (some l))
    (hinside : startAt array.length o + countOf array.length (startAt array.length o)
      (some l) ≤ array.length) :
    subarray c array o l = c.link (selected array o (some l)) := by
  have hoffset := arrayOffset_eq array o
  have hlength : (if l < 0 then max 0 (array.length - startAt array.length o + l)
      else l) = countOf array.length (startAt array.length o) (some l) := by
    rw [countOf] at hpos ⊢
    split <;> omega
  have hne : ¬ (countOf array.length (startAt array.length o) (some l) = maxLong ∧
      countOf array.length (startAt array.length o) (some l) >
        array.length - startAt array.length o) := by omega
  simp only [subarray, hoffset, hlength, if_neg hne]
  rw [if_neg (by omega), if_neg (by omega), selected]

/-- Without a length: up to the end. -/
theorem subarray_rest (c : Copying α) {array : List α} (harray : array.length + 1 < 2 ^ 63)
    {o : Int} (hstart : 0 ≤ startAt array.length o) (hlt : startAt array.length o < array.length) :
    subarray c array o maxLong = c.link (selected array o none) := by
  have hoffset := arrayOffset_eq array o
  have hmax : maxLong = 2 ^ 63 - 1 := rfl
  have hneg : ¬ maxLong < 0 := by decide
  have hrest : maxLong > array.length - startAt array.length o := by omega
  simp only [subarray, hoffset, if_neg hneg, true_and, if_pos hrest]
  rw [if_neg (by omega), if_neg (by omega), selected, countOf]

/-- No array is empty. -/
theorem subarray_empty (c : Copying α) {array : List α} {o : Int} {l : Option Int}
    (h : countOf array.length (startAt array.length o) l ≤ 0) :
    subarray c array o (l.getD maxLong) = .error .arrayIndexOutOfBounds := by
  have hoffset := arrayOffset_eq array o
  by_cases hbounds : startAt array.length o ≥ array.length ∨ startAt array.length o < 0
  · simp only [subarray, hoffset, if_pos hbounds]
  · cases l with
    | none =>
        rw [countOf] at h
        omega
    | some l =>
        have hlength : (if l < 0 then max 0 (array.length - startAt array.length o + l)
            else l) = 0 := by
          rw [countOf] at h
          split at h <;> omega
        have hzero : ¬ ((0 : Int) = maxLong ∧
            (0 : Int) > array.length - startAt array.length o) := by omega
        simp only [subarray, hoffset, if_neg hbounds, Option.getD_some, hlength,
          if_neg hzero, true_or, if_true]

/-! ### Exploded strings -/

theorem fits_character : ([0] : List UInt8).length + 1 < 2 ^ 63 := by decide

/-- The string of one character. -/
def character (c : UInt8) : CellString := ⟨[c], fits_character⟩

theorem stuffStringN_one (c : UInt8) (string : List UInt8) :
    stuffStringN (c :: string) 1 = .value (character c) := by
  have hle : 1 ≤ (c :: string).length := Nat.le_add_left 1 string.length
  obtain ⟨s, hs, hbytes⟩ := stuffStringN_eq hle (by decide)
  rw [Nat.cast_one] at hs
  rw [hs]
  obtain ⟨bytes, fits⟩ := s
  obtain rfl : bytes = [c] := hbytes
  rfl

theorem explodeBytes_eq (string : List UInt8) :
    explodeBytes string.length string = .value (string.map character) := by
  induction string with
  | nil => rfl
  | cons c string ih =>
      rw [List.length_cons, explodeBytes, stuffStringN_one, Outcome.value_bind,
        List.drop_succ_cons, List.drop_zero, ih]
      rfl

/-- The strings whose characters are their bytes; with `SUPPORT_UTF8` the text ends
before a zero. -/
structure IsAscii (supportUtf8 : Bool) (bytes : List UInt8) : Prop where
  ascii : ∀ c ∈ bytes, c.toNat < 128
  nonzero : supportUtf8 = true → 0 ∉ bytes

theorem IsAscii.tail {supportUtf8 : Bool} {c : UInt8} {string : List UInt8}
    (h : IsAscii supportUtf8 (c :: string)) : IsAscii supportUtf8 string :=
  ⟨fun d hd => h.ascii d (List.mem_cons_of_mem c hd),
    fun hutf8 hmem => h.nonzero hutf8 (List.mem_cons_of_mem c hmem)⟩

theorem charSize_ascii {c : UInt8} (h : c.toNat < 128) : Utf8.charSize c = 1 := by
  have hbyte : ∀ n < 128, Utf8.charSize (UInt8.ofNat n) = 1 := by decide
  have hc := hbyte c.toNat h
  rwa [UInt8.ofNat_toNat] at hc

theorem IsAscii.head {c : UInt8} {string : List UInt8}
    (h : IsAscii true (c :: string)) : c ≠ 0 ∧ Utf8.charSize c = 1 := by
  refine ⟨?_, charSize_ascii (h.ascii c List.mem_cons_self)⟩
  rintro rfl
  exact h.nonzero rfl List.mem_cons_self

theorem utf8Index_one {c : UInt8} {string : List UInt8}
    (h : IsAscii true (c :: string)) :
    utf8Index (c :: string ++ [0]) 1 = some (string ++ [0]) := by
  obtain ⟨hc, hsize⟩ := h.head
  have hgo : ¬ (c = 0 ∨ (1 : Int) = 0) := by simp [hc]
  rw [List.cons_append, utf8Index, List.length_cons, Utf8.indexFrom, if_neg hgo,
    hsize, List.drop_succ_cons, List.drop_zero]
  cases string with
  | nil => rfl
  | cons d string => rw [List.cons_append, Utf8.indexFrom, if_pos (.inr (by decide))]

theorem explodeUtf8_eq {string : List UInt8} (h : IsAscii true string) :
    explodeUtf8 string.length (string ++ [0]) = .value (string.map character) := by
  induction string with
  | nil => rfl
  | cons c string ih =>
      have hlen : (((c :: string ++ [0]).length : Int) - (string ++ [0]).length) = 1 := by
        simp only [List.cons_append, List.length_cons]
        omega
      rw [List.length_cons, explodeUtf8, utf8Index_one h]
      simp only [hlen]
      rw [List.cons_append, stuffStringN_one, Outcome.value_bind, ih h.tail]
      rfl

theorem wlenFrom_ascii {string : List UInt8} (h : IsAscii true string)
    {fuel limit : Nat} (hfuel : string.length < fuel) (hlimit : string.length < limit) :
    Utf8.wlenFrom fuel limit (string ++ [0]) = some string.length := by
  induction string generalizing fuel limit with
  | nil =>
      obtain ⟨fuel, rfl⟩ := Nat.exists_eq_add_of_lt hfuel
      obtain ⟨limit, rfl⟩ := Nat.exists_eq_add_of_lt hlimit
      simp [Utf8.wlenFrom]
  | cons c string ih =>
      simp only [List.length_cons] at hfuel hlimit
      obtain ⟨fuel, rfl⟩ : ∃ n, fuel = n + 1 := ⟨fuel - 1, by omega⟩
      obtain ⟨limit, rfl⟩ : ∃ n, limit = n + 1 := ⟨limit - 1, by omega⟩
      obtain ⟨hc, hsize⟩ := h.head
      have hgo : ¬ (c = 0 ∨ limit = 0) := not_or.2 ⟨hc, by omega⟩
      rw [List.cons_append, Utf8.wlenFrom, if_neg hgo, hsize, List.drop_succ_cons,
        List.drop_zero, Nat.add_sub_cancel, ih h.tail (by omega) (by omega)]
      rfl

theorem size_stringCells (room : Nat) (list : List CellString) :
    (stringCells room).size list = list.length := by
  simp [Copying.size, stringCells]

theorem explodeString_eq {supportUtf8 : Bool} {string : List UInt8}
    (h : IsAscii supportUtf8 string) (hne : string.length ≠ 0) :
    explodeString supportUtf8 string = .value (string.map character) := by
  cases supportUtf8 with
  | false => exact explodeBytes_eq string
  | true =>
      have hwlen : utf8Wlen (string ++ [0]) (string.length + 1) =
          some string.length := by
        refine wlenFrom_ascii h ?_ (by omega)
        rw [List.length_append]
        omega
      have hmax : max string.length 1 = string.length := by omega
      simp only [explodeString, if_true, hwlen, hmax]
      exact explodeUtf8_eq h

/-- `explode` takes an ASCII string apart in either build, if there is room for the
pieces. -/
theorem p_explode_eq (room : Nat) {supportUtf8 : Bool} {string : CellString}
    (h : IsAscii supportUtf8 string.bytes) :
    p_explode room supportUtf8 string =
      (stringCells room).link (string.bytes.map character) := by
  rw [p_explode]
  by_cases hzero : string.bytes.length = 0
  · rw [if_pos hzero, List.eq_nil_of_length_eq_zero hzero]
    rfl
  · rw [if_neg hzero, explodeString_eq h hzero, Outcome.value_bind]

theorem IsAscii.sublist {supportUtf8 : Bool} {bytes bytes' : List UInt8}
    (h : IsAscii supportUtf8 bytes) (hsub : bytes'.Sublist bytes) :
    IsAscii supportUtf8 bytes' :=
  ⟨fun c hc => h.ascii c (hsub.subset hc),
    fun hutf8 hmem => h.nonzero hutf8 (hsub.subset hmem)⟩

theorem selected_sublist (x : List β) (o : Int) (l : Option Int) :
    (selected x o l).Sublist x :=
  (List.take_sublist ..).trans (List.drop_sublist ..)

/-! ### The property -/

/-- `slice` and implicit slicing with the same offset and length. -/
structure BothGive (c : Copying α) (x : Sequence α) (o : Word) (l : Option Word)
    (r : Outcome ListError (Slice α)) : Prop where
  slice : p_slice c x o l = r
  implicit : implicitNrestSlice c o l x = r

/-- The slice of a list: the selected elements, or the error for an offset before
the list. -/
def listSlice (x : List α) (o : Word) (l : Option Word) :
    Outcome ListError (Slice α) :=
  if startAt x.length o.toInt < 0 then .error .listIndexInvalid
  else .value (.list (selected x o.toInt (l.map BitVec.toInt)))

/-- Slicing selects the elements in the range.  A slice of a string explodes into
the slice of the exploded string; for an array the range is to lie inside. -/
def SlicesRange (c : Copying α) (supportUtf8 : Bool) (o : Word)
    (l : Option Word) : Sequence α → Prop
  | .list x => BothGive c (.list x) o l (listSlice x.elements o l)
  | .string x => ∃ cells : CellVector CellString,
      p_explode c.room supportUtf8 x = .value cells.elements ∧
      BothGive (stringCells c.room) (.list cells) o l
        (listSlice cells.elements o l) ∧
      if startAt x.bytes.length o.toInt < 0 then
        BothGive c (.string x) o l (.error .stringIndexInvalid) ∧
        listSlice cells.elements o l = .error .listIndexInvalid
      else ∃ s pieces, BothGive c (.string x) o l (.value (.string s)) ∧
        s.bytes = selected x.bytes o.toInt (l.map BitVec.toInt) ∧
        p_explode c.room supportUtf8 s = .value pieces ∧
        listSlice cells.elements o l = .value (.list pieces)
  | .array x =>
      0 ≤ startAt x.elements.length o.toInt →
      startAt x.elements.length o.toInt + max 0 (countOf x.elements.length
        (startAt x.elements.length o.toInt) (l.map BitVec.toInt)) ≤ x.elements.length →
      BothGive c (.array x) o l
        (.value (.array (selected x.elements o.toInt (l.map BitVec.toInt))))
  | .other => True

/-- There is room for copies of the selected elements. -/
def RoomFor (c : Copying α) (x : List α) (o : Word) (l : Option Word) : Prop :=
  c.size (selected x o.toInt (l.map BitVec.toInt)) ≤ c.room

/-- A list with a negative offset has a length that an `int` can count; for a
string the sum of the offset and the length is in range and the length of the slice
is an `int`; a range inside of an array is not empty; and there is room for the
copies. -/
def SliceFits (c : Copying α) (o : Word) (l : Option Word) : Sequence α → Prop
  | .list x => (0 ≤ o.toInt ∨ x.elements.length < 2 ^ 31) ∧
      (0 ≤ startAt x.elements.length o.toInt → RoomFor c x.elements o l)
  | .string x => (0 ≤ o.toInt ∨ x.bytes.length < 2 ^ 31) ∧
      (0 ≤ startAt x.bytes.length o.toInt →
        SumFits x.bytes.length o.toInt (l.map BitVec.toInt) ∧
        (selected x.bytes o.toInt (l.map BitVec.toInt)).length < 2 ^ 31 - 1) ∧
      x.bytes.length ≤ c.room
  | .array x => 0 ≤ startAt x.elements.length o.toInt →
      startAt x.elements.length o.toInt + max 0 (countOf x.elements.length
        (startAt x.elements.length o.toInt) (l.map BitVec.toInt)) ≤ x.elements.length →
      0 < countOf x.elements.length (startAt x.elements.length o.toInt)
        (l.map BitVec.toInt) ∧ RoomFor c x.elements o l
  | .other => True

/-- The slice of a list, if there is room. -/
def listCopies (c : Copying α) (x : List α) (o : Word) (l : Option Word) :
    Outcome ListError (Slice α) :=
  if startAt x.length o.toInt < 0 then .error .listIndexInvalid
  else c.link (selected x o.toInt (l.map BitVec.toInt)) >>=
    fun r => .value (.list r)

theorem listCopies_eq (c : Copying α) (x : List α) (o : Word) (l : Option Word) :
    (if startAt x.length o.toInt < 0 then .error .listIndexInvalid
      else c.link (selected x o.toInt (l.map BitVec.toInt)) :
        Outcome ListError (List α)) >>= (fun r => .value (.list r)) =
      listCopies c x o l := by
  rw [listCopies]
  split <;> rfl

/-- Both forms of slicing copy the selected elements of a list. -/
theorem bothGive_list (c : Copying α) {x : CellVector α} {o : Word}
    (l : Option Word) (h : 0 ≤ o.toInt ∨ x.elements.length < 2 ^ 31) :
    BothGive c (.list x) o l (listCopies c x.elements o l) := by
  have hx := x.fits
  cases l with
  | some l =>
      have hsub := sublist_eq c hx (BitVec.le_toInt l) h
      have hslice : (sublist c x.elements o.toInt l.toInt >>=
          fun r => .value (.list r)) = listCopies c x.elements o (some l) := by
        rw [hsub]
        exact listCopies_eq c x.elements o (some l)
      exact ⟨hslice, hslice⟩
  | none =>
      have hsub := sublist_eq c hx (by decide : -2 ^ 63 ≤ maxLong) h
      constructor
      · have hslice : (sublist c x.elements o.toInt maxLong >>=
            fun r => .value (.list r)) = listCopies c x.elements o none := by
          rw [hsub, listCopies]
          split
          · rfl
          · rename_i hstart
            have hsel := selected_getD hx o.toInt none (.inr (not_lt.mp hstart))
            rw [Option.getD_none] at hsel
            rw [hsel]
            rfl
        exact hslice
      · have hslice : (nrest c x.elements o.toInt >>= fun r => .value (.list r)) =
            listCopies c x.elements o none := by
          rw [nrest_eq c h]
          exact listCopies_eq c x.elements o none
        exact hslice

theorem link_of_le {c : Copying α} {list : List α} (h : c.size list ≤ c.room) :
    c.link list = .value list := if_pos h

theorem link_of_lt {c : Copying α} {list : List α} (h : ¬ c.size list ≤ c.room) :
    c.link list = .undefined := if_neg h

theorem listSlices {c : Copying α} {x : CellVector α} {o : Word} {l : Option Word}
    (hfits : SliceFits c o l (.list x)) :
    BothGive c (.list x) o l (listSlice x.elements o l) := by
  obtain ⟨hint, hroom⟩ := hfits
  have hboth := bothGive_list c l hint
  have heq : listCopies c x.elements o l = listSlice x.elements o l := by
    rw [listCopies, listSlice]
    split
    · rfl
    · rename_i hstart
      rw [link_of_le (hroom (not_lt.mp hstart))]
      rfl
  exact heq ▸ hboth

theorem not_listSlices {c : Copying α} {x : CellVector α} {o : Word}
    {l : Option Word} (hfits : ¬ SliceFits c o l (.list x)) :
    ¬ BothGive c (.list x) o l (listSlice x.elements o l) := by
  intro h
  by_cases hint : 0 ≤ o.toInt ∨ x.elements.length < 2 ^ 31
  · have hroom : ¬ (0 ≤ startAt x.elements.length o.toInt → RoomFor c x.elements o l) :=
      fun hroom => hfits ⟨hint, hroom⟩
    rw [Classical.not_imp] at hroom
    have hslice := (bothGive_list c l hint).slice.symm.trans h.slice
    rw [listCopies, listSlice, if_neg (not_lt.mpr hroom.1), if_neg (not_lt.mpr hroom.1),
      link_of_lt hroom.2] at hslice
    cases hslice
  · rw [not_or, not_le, not_lt] at hint
    have hslice := h.slice
    simp only [p_slice, sublist_undefined c hint.1 hint.2, Outcome.undefined_bind,
      listSlice] at hslice
    split at hslice <;> cases hslice

/-- A string is sliced by one call in either form. -/
theorem bothGive_string {c : Copying α} {x : CellString} {o : Word}
    {l : Option Word} {r : Outcome ListError CellString}
    (h : substring x o.toInt ((l.map BitVec.toInt).getD maxLong) = r) :
    BothGive c (.string x) o l (r >>= fun s => .value (.string s)) := by
  subst h
  cases l with
  | none => exact ⟨rfl, rfl⟩
  | some l => exact ⟨rfl, rfl⟩

theorem bothGive_array {c : Copying α} {x : CellVector α} {o : Word}
    {l : Option Word} {r : Outcome ListError (List α)}
    (h : subarray c x.elements o.toInt ((l.map BitVec.toInt).getD maxLong) = r) :
    BothGive c (.array x) o l (r >>= fun s => .value (.array s)) := by
  subst h
  cases l with
  | none => exact ⟨rfl, rfl⟩
  | some l => exact ⟨rfl, rfl⟩

theorem length_lt {l : Option Word} :
    (l.map BitVec.toInt).getD maxLong < 2 ^ 63 := by
  cases l with
  | none => decide
  | some l => exact BitVec.toInt_lt

theorem sumFits_getD {n o : Int} {l : Option Int} :
    SumFits n o (some (l.getD maxLong)) ↔ SumFits n o l := by
  cases l with
  | some l => rfl
  | none => simp [SumFits]

/-- The call of `substring` for a slice whose sum of offset and length fits. -/
theorem substring_slice {x : CellString} {o : Word} {l : Option Word}
    (hstart : 0 ≤ startAt x.bytes.length o.toInt)
    (hsum : SumFits x.bytes.length o.toInt (l.map BitVec.toInt)) :
    substring x o.toInt ((l.map BitVec.toInt).getD maxLong) =
      stuffStringN (x.bytes.drop (startAt x.bytes.length o.toInt).toNat)
        (selected x.bytes o.toInt (l.map BitVec.toInt)).length := by
  rw [substring_eq length_lt hstart (sumFits_getD.mpr hsum),
    selected_getD x.fits _ _ (.inr hstart)]

theorem stringSlices (c : Copying α) {x : CellString} {o : Word} {l : Option Word}
    (hstart : 0 ≤ startAt x.bytes.length o.toInt)
    (hsum : SumFits x.bytes.length o.toInt (l.map BitVec.toInt))
    (hlen : (selected x.bytes o.toInt (l.map BitVec.toInt)).length < 2 ^ 31 - 1) :
    ∃ s, BothGive c (.string x) o l (.value (.string s)) ∧
      s.bytes = selected x.bytes o.toInt (l.map BitVec.toInt) := by
  have hle : (selected x.bytes o.toInt (l.map BitVec.toInt)).length ≤
      (x.bytes.drop (startAt x.bytes.length o.toInt).toNat).length :=
    (List.take_sublist ..).length_le
  obtain ⟨s, hs, hbytes⟩ := stuffStringN_eq hle hlen
  refine ⟨s, bothGive_string ((substring_slice hstart hsum).trans hs), ?_⟩
  rw [hbytes, selected, List.take_eq_take_iff, List.length_take]
  omega

theorem not_stringSlices {c : Copying α} {x : CellString} {o : Word} {l : Option Word}
    (hstart : 0 ≤ startAt x.bytes.length o.toInt)
    (h : ¬ (SumFits x.bytes.length o.toInt (l.map BitVec.toInt) ∧
      (selected x.bytes o.toInt (l.map BitVec.toInt)).length < 2 ^ 31 - 1))
    {s : CellString} (hs : BothGive c (.string x) o l (.value (.string s))) :
    s.bytes ≠ selected x.bytes o.toInt (l.map BitVec.toInt) := by
  have hslice := hs.slice
  have hboth : BothGive c (.string x) o l _ := bothGive_string rfl
  rw [hboth.slice] at hslice
  obtain ⟨s', hsub, hs'⟩ := Outcome.bind_eq_value_iff.mp hslice
  cases hs'
  intro hbytes
  by_cases hsum : SumFits x.bytes.length o.toInt (l.map BitVec.toInt)
  · rw [substring_slice hstart hsum] at hsub
    have hlen : 2 ^ 31 - 1 ≤ (selected x.bytes o.toInt (l.map BitVec.toInt)).length :=
      not_lt.mp fun hlt => h ⟨hsum, hlt⟩
    exact stuffStringN_ne hlen hsub (congrArg List.length hbytes)
  · rw [substring_undefined hstart (fun hfits => hsum (sumFits_getD.mp hfits))] at hsub
    cases hsub

/-- An array is sliced by one call too, of what lies inside of it. -/
theorem arrayCopies (c : Copying α) {x : CellVector α} {o : Word} {l : Option Word}
    (hstart : 0 ≤ startAt x.elements.length o.toInt)
    (hinside : startAt x.elements.length o.toInt + max 0 (countOf x.elements.length
      (startAt x.elements.length o.toInt) (l.map BitVec.toInt)) ≤ x.elements.length)
    (hpos : 0 < countOf x.elements.length (startAt x.elements.length o.toInt)
      (l.map BitVec.toInt)) :
    BothGive c (.array x) o l
      (c.link (selected x.elements o.toInt (l.map BitVec.toInt)) >>=
        fun s => .value (.array s)) := by
  refine bothGive_array ?_
  cases l with
  | some l =>
      simp only [Option.map_some, Option.getD_some] at hinside hpos ⊢
      exact subarray_eq c hstart hpos (by omega)
  | none =>
      simp only [Option.map_none, countOf] at hpos
      exact subarray_rest c x.fits hstart (by omega)

theorem not_arraySlices {c : Copying α} {x : CellVector α} {o : Word}
    {l : Option Word} (hempty : countOf x.elements.length
      (startAt x.elements.length o.toInt) (l.map BitVec.toInt) ≤ 0) {r : List α} :
    ¬ BothGive c (.array x) o l (.value (.array r)) := by
  intro h
  have hslice := (bothGive_array (subarray_empty c hempty)).slice.symm.trans h.slice
  cases hslice

theorem slicesRange_array {c : Copying α} {supportUtf8 : Bool} {x : CellVector α}
    {o : Word} {l : Option Word} :
    SlicesRange c supportUtf8 o l (.array x) ↔ SliceFits c o l (.array x) := by
  refine forall₂_congr fun hstart hinside => ?_
  by_cases hpos : 0 < countOf x.elements.length (startAt x.elements.length o.toInt)
      (l.map BitVec.toInt)
  · have hboth := arrayCopies c hstart hinside hpos
    constructor
    · intro h
      refine ⟨hpos, ?_⟩
      by_contra hroom
      have hslice := hboth.slice.symm.trans h.slice
      rw [link_of_lt hroom] at hslice
      cases hslice
    · rintro ⟨-, hroom⟩
      rw [link_of_le hroom] at hboth
      exact hboth
  · exact iff_of_false (not_arraySlices (not_lt.mp hpos)) fun h => hpos h.1

theorem size_selected {room : Nat} (x : List CellString) (o : Word)
    (l : Option Word) (h : x.length ≤ room) : RoomFor (stringCells room) x o l := by
  have hle := (selected_sublist x o.toInt (l.map BitVec.toInt)).length_le
  rw [RoomFor, size_stringCells]
  exact hle.trans h

/-- The string case, the exploded string being sliced along. -/
theorem slicesRange_string {c : Copying α} {supportUtf8 : Bool} {x : CellString}
    {o : Word} {l : Option Word} (hx : IsAscii supportUtf8 x.bytes)
    (hfits : SliceFits c o l (.string x)) :
    SlicesRange c supportUtf8 o l (.string x) := by
  obtain ⟨hint, hsum, hroom⟩ := hfits
  have hlength : (x.bytes.map character).length = x.bytes.length := List.length_map ..
  have hexplode : p_explode c.room supportUtf8 x = .value (x.bytes.map character) := by
    rw [p_explode_eq _ hx, link_of_le]
    rwa [size_stringCells, hlength]
  refine ⟨⟨x.bytes.map character, hlength ▸ x.fits⟩, hexplode, ?_, ?_⟩
  · exact listSlices ⟨hlength.symm ▸ hint,
      fun _ => size_selected _ o l (hlength.symm ▸ hroom)⟩
  simp only [listSlice, hlength]
  split
  · rename_i hstart
    exact ⟨bothGive_string (substring_error hstart _), rfl⟩
  · rename_i hstart
    obtain ⟨hsum, hlen⟩ := hsum (by omega)
    obtain ⟨s, hboth, hbytes⟩ := stringSlices c (by omega) hsum hlen
    have hsub : s.bytes.Sublist x.bytes := hbytes ▸ selected_sublist ..
    refine ⟨s, s.bytes.map character, hboth, hbytes, ?_, ?_⟩
    · rw [p_explode_eq _ (hx.sublist hsub), link_of_le]
      rw [size_stringCells, List.length_map]
      exact hsub.length_le.trans hroom
    · rw [selected_map, hbytes]

theorem not_slicesRange_string {c : Copying α} {supportUtf8 : Bool} {x : CellString}
    {o : Word} {l : Option Word} (hx : IsAscii supportUtf8 x.bytes)
    (hfits : ¬ SliceFits c o l (.string x)) :
    ¬ SlicesRange c supportUtf8 o l (.string x) := by
  rintro ⟨cells, hcells, hlist, hrest⟩
  have hroom : x.bytes.length ≤ c.room := by
    by_contra hroom
    rw [p_explode_eq _ hx, link_of_lt] at hcells
    · cases hcells
    · rwa [size_stringCells, List.length_map]
  have hlength : cells.elements.length = x.bytes.length := by
    rw [p_explode_eq _ hx, link_of_le] at hcells
    · rw [← Outcome.value.inj hcells, List.length_map]
    · rwa [size_stringCells, List.length_map]
  rw [SliceFits, not_and_or] at hfits
  rcases hfits with hint | hsum
  · exact not_listSlices (fun hfits => hint (hlength ▸ hfits.1)) hlist
  · rw [and_iff_left hroom, Classical.not_imp] at hsum
    obtain ⟨hstart, hsum⟩ := hsum
    rw [if_neg (by omega)] at hrest
    obtain ⟨s, -, hboth, hbytes, -, -⟩ := hrest
    exact not_stringSlices hstart hsum hboth hbytes

/-- The values that are sliced: lists, ASCII strings and arrays. -/
def Sequence.IsAscii (supportUtf8 : Bool) : Sequence α → Prop
  | .string x => NewLispNeo.IsAscii supportUtf8 x.bytes
  | _ => True

/-- Slicing selects the elements in the range, in every form and for every kind of
value, exactly when the offset and the length fit and there is room for the
copies. -/
theorem slicesRange_iff (c : Copying α) (supportUtf8 : Bool) (o : Word)
    (l : Option Word) {x : Sequence α} (hx : x.IsAscii supportUtf8) :
    SlicesRange c supportUtf8 o l x ↔ SliceFits c o l x := by
  cases x with
  | list x => exact ⟨not_imp_not.mp not_listSlices, listSlices⟩
  | string x =>
      exact ⟨not_imp_not.mp (not_slicesRange_string hx), slicesRange_string hx⟩
  | array x => exact slicesRange_array
  | other => exact Iff.rfl

theorem fits_abc : ([97, 98, 99] : List UInt8).length + 1 < 2 ^ 63 := by decide

def abc : CellString := ⟨[97, 98, 99], fits_abc⟩

theorem isAscii_abc (supportUtf8 : Bool) : IsAscii supportUtf8 abc.bytes :=
  ⟨fun c hc => by
      simp only [abc, List.mem_cons, List.not_mem_nil, or_false] at hc
      rcases hc with rfl | rfl | rfl <;> decide,
    fun _ => by decide⟩

/-- `(slice "abc" -2 1)`, with room for the three characters. -/
theorem slicesRange_abc :
    SlicesRange (stringCells 3) true (-2) (some 1) (.string abc) := by
  have habc : Sequence.IsAscii true (.string abc : Sequence CellString) :=
    isAscii_abc true
  refine (slicesRange_iff (stringCells 3) true (-2) (some 1) habc).mpr
    ⟨.inr (by decide), fun _ => ⟨?_, by decide⟩, by decide⟩
  rintro l ⟨⟩ - -
  decide

/-- `(slice "abc" 2 9223372036854775806)`. -/
theorem not_slicesRange_abc :
    ¬ SlicesRange (stringCells 3) true 2 (some 9223372036854775806)
      (.string abc) := by
  refine not_slicesRange_string (isAscii_abc true) ?_
  rintro ⟨-, hsum, -⟩
  have hle := (hsum (by decide)).1 (2 ^ 63 - 2) (by decide) (by decide) (by decide)
  revert hle
  decide

end NewLispNeo
