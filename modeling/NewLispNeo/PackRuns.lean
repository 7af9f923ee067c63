/-
`unpack` after `pack`: both run through the directives of a format in step, so that the values
come back exactly where no float goes through an integer directive and no negative integer
through a float directive.
-/
import NewLispNeo.PackFormat

namespace NewLispNeo.Pack

variable {m : Machine} {e : Bool}

section Bytes

theorem length_lowBytes (n v : Nat) : (lowBytes n v).length = n := by
  induction n generalizing v with
  | zero => rfl
  | succ n ih => rw [lowBytes, List.length_cons, ih]

theorem bytesValue_lowBytes (n v : Nat) : bytesValue (lowBytes n v) = v % 256 ^ n := by
  induction n generalizing v with
  | zero => rw [lowBytes, bytesValue, pow_zero, Nat.mod_one]
  | succ n ih =>
      have hbyte : (UInt8.ofNat (v % 256)).toNat = v % 256 := by
        rw [UInt8.toNat_ofNat']
        omega
      rw [lowBytes, bytesValue, ih, hbyte, pow_succ', Nat.mod_mul]

theorem length_store (m : Machine) (n v : Nat) : (m.store n v).length = n := by
  rw [Machine.store]
  split
  · rw [List.length_reverse, length_lowBytes]
  · exact length_lowBytes n v

theorem load_store (m : Machine) (n v : Nat) : m.load (m.store n v) = v % 256 ^ n := by
  rw [Machine.load, Machine.store]
  by_cases hbig : m.bigEndian = true
  · rw [if_pos hbig, if_pos hbig, List.reverse_reverse, bytesValue_lowBytes]
  · rw [if_neg hbig, if_neg hbig, bytesValue_lowBytes]

theorem bytesValue_lt (data : List UInt8) : bytesValue data < 256 ^ data.length := by
  induction data with
  | nil => simp [bytesValue]
  | cons b data ih =>
      have hbyte := b.toNat_lt
      rw [bytesValue, List.length_cons, pow_succ']
      omega

theorem lowBytes_bytesValue (data : List UInt8) :
    lowBytes data.length (bytesValue data) = data := by
  induction data with
  | nil => rfl
  | cons b data ih =>
      have hbyte := b.toNat_lt
      have hlow : (b.toNat + 256 * bytesValue data) % 256 = b.toNat := by omega
      have hhigh : (b.toNat + 256 * bytesValue data) / 256 = bytesValue data := by omega
      rw [List.length_cons, lowBytes, bytesValue, hlow, hhigh, ih, UInt8.ofNat_toNat]

theorem load_lt (m : Machine) (data : List UInt8) : m.load data < 256 ^ data.length := by
  rw [Machine.load]
  split
  · rw [← List.length_reverse]
    exact bytesValue_lt _
  · exact bytesValue_lt _

theorem store_load (m : Machine) (data : List UInt8) :
    m.store data.length (m.load data) = data := by
  rw [Machine.load, Machine.store]
  by_cases hbig : m.bigEndian = true
  · rw [if_pos hbig, if_pos hbig, ← List.length_reverse, lowBytes_bytesValue,
      List.reverse_reverse]
  · rw [if_neg hbig, if_neg hbig, lowBytes_bytesValue]

theorem length_swapEndian (e : Bool) (data : List UInt8) :
    (swapEndian e data).length = data.length := by
  rw [swapEndian]
  split
  · exact List.length_reverse
  · rfl

/-- Swapping the bytes twice changes nothing. -/
theorem swapEndian_swapEndian (e : Bool) (data : List UInt8) :
    swapEndian e (swapEndian e data) = data := by
  cases e with
  | false => rfl
  | true => exact List.reverse_reverse data

theorem load_swap_store (m : Machine) (e : Bool) (n v : Nat) :
    m.load (swapEndian e (swapEndian e (m.store n v))) = v % 256 ^ n := by
  rw [swapEndian_swapEndian, load_store]

end Bytes

namespace Directive

/-- The directives that take an argument. -/
def takes : Directive → Bool
  | littleEndian | bigEndian | null _ => false
  | _ => true

/-- The values that fit a directive. -/
def Fits : Directive → Cell → Prop
  | integer t, .long w => t.Holds w.toInt
  | integer t, .float x => t.Holds x.trunc
  | float, .float x => ∃ w : Binary32, w.isNaN = false ∧ x = w.toDouble
  | float, .long i => ∃ w : Binary32, w.isNaN = false ∧ Binary64.ofInt i.toInt = w.toDouble
  | double, .float _ => True
  | double, .long _ => True
  | string _, .string _ => True
  | _, _ => False

/-- The value that comes back: a float is truncated by an integer directive, an integer becomes
a float by a float directive, and a string is cut or filled with zeros to the count. -/
def expected : Directive → Cell → Cell
  | integer _, .float x => .long (BitVec.ofInt 64 x.trunc)
  | float, .long w => .float (Binary64.ofInt w.toInt)
  | double, .long w => .float (Binary64.ofInt w.toInt)
  | string digits, .string s =>
      .string (s.take (count digits) ++ List.replicate (count digits - s.length) 0)
  | _, cell => cell

/-- Where the code meets what is expected. -/
def Faithful : Directive → Cell → Prop
  | integer _, .float x => x.trunc = 0
  | float, .long w => 0 ≤ w.toInt
  | double, .long w => 0 ≤ w.toInt
  | _, _ => True

/-- The count is below `2 ^ 31`. -/
def Short : Directive → Prop
  | null digits => count digits < 2 ^ 31
  | string digits => count digits < 2 ^ 31
  | _ => True

end Directive

section Values

variable {d : Directive} {cell : Cell}

/-- The address of `nilCell`, read as a `double`, is less than one. -/
theorem trunc_nilCell (m : Machine) : Binary64.trunc ⟨m.nilCell⟩ = 0 := by
  have haddress := m.address
  have hexponent : Binary64.biasedExponent ⟨m.nilCell⟩ = 0 := by
    simp only [Binary64.biasedExponent]
    omega
  have hfraction : Binary64.fraction ⟨m.nilCell⟩ = m.nilCell.toNat := by
    simp only [Binary64.fraction]
    omega
  have hmagnitude : Binary64.magnitude ⟨m.nilCell⟩ = m.nilCell.toNat := by
    rw [Binary64.magnitude, if_pos hexponent, hfraction]
  have hnegative : Binary64.negative ⟨m.nilCell⟩ = false := by
    simp only [Binary64.negative, decide_eq_false_iff_not, not_le]
    omega
  rw [Binary64.trunc, Binary64.scaled, hnegative, hmagnitude]
  simp only [Bool.false_eq_true, if_false]
  rw [Int.tdiv_eq_zero_of_lt]
  · exact Int.natCast_nonneg _
  · have hpow : (2 : Int) ^ 52 ≤ 2 ^ 1074 := by gcongr <;> norm_num
    omega

/-- A byte more or less swapped is the same. -/
theorem swapEndian_one (m : Machine) (e : Bool) (v : Nat) :
    swapEndian e (m.store 1 v) = m.store 1 v := by
  have hone : ∀ data : List UInt8, data.length = 1 → swapEndian e data = data := by
    intro data hdata
    obtain ⟨b, rfl⟩ := List.length_eq_one_iff.mp hdata
    cases e <;> rfl
  exact hone _ (length_store m 1 v)

theorem packValue_integer (m : Machine) (t : IntegerType) (e : Bool) (cell : Cell) :
    packValue m (Directive.integer t).item e cell =
      (uint64V m t.packType cell).map fun w => swapEndian e (m.store t.size w.toNat) := by
  cases t with
  | byte =>
      simp only [IntegerType.size, swapEndian_one]
      rfl
  | char =>
      simp only [IntegerType.size, swapEndian_one]
      rfl
  | _ => rfl

/-- The lower bytes of a word in their range are the word, with the sign extended -/
theorem signExtend_low {b : Nat} (hb : b = 8 ∨ b = 16 ∨ b = 32) {w : Word}
    (hlow : -2 ^ (b - 1) ≤ w.toInt) (hhigh : w.toInt < 2 ^ (b - 1)) :
    (BitVec.ofNat b (w.toNat % 2 ^ b)).signExtend 64 = w := by
  have hw := w.isLt
  rcases hb with rfl | rfl | rfl <;>
  · apply BitVec.eq_of_toInt_eq
    rw [BitVec.toInt_signExtend_of_le (by decide), BitVec.toInt_eq_toNat_cond,
      BitVec.toNat_ofNat]
    rw [BitVec.toInt_eq_toNat_cond] at hlow hhigh ⊢
    split_ifs at hlow hhigh ⊢ <;> omega

/-- or filled with zeros. -/
theorem ofNat_low {b : Nat} (hb : b = 8 ∨ b = 16 ∨ b = 32) {w : Word} (hlow : 0 ≤ w.toInt)
    (hhigh : w.toInt < 2 ^ b) : BitVec.ofNat 64 (w.toNat % 2 ^ b) = w := by
  have hw := w.isLt
  rcases hb with rfl | rfl | rfl <;>
  · apply BitVec.eq_of_toNat_eq
    rw [BitVec.toNat_ofNat]
    rw [BitVec.toInt_eq_toNat_cond] at hlow hhigh
    split_ifs at hlow hhigh <;> omega

theorem ofNat_word (w : Word) : BitVec.ofNat 64 (w.toNat % 2 ^ 64) = w := by
  apply BitVec.eq_of_toNat_eq
  have hw := w.isLt
  rw [BitVec.toNat_ofNat]
  omega

/-- An integer in its range comes back from its bytes. -/
theorem unpackValue_integer {t : IntegerType} {w : Word} (hw : t.Holds w.toInt) :
    unpackValue m t.packType e (swapEndian e (m.store t.size w.toNat)) = .long w := by
  cases t with
  | byte =>
      obtain ⟨hlow, hhigh⟩ := hw
      simp only [IntegerType.size, swapEndian_one, IntegerType.packType, unpackValue, load_store]
      exact congrArg Cell.long (ofNat_low (b := 8) (.inl rfl) hlow hhigh)
  | char =>
      obtain ⟨hlow, hhigh⟩ := hw
      simp only [IntegerType.size, swapEndian_one, IntegerType.packType, unpackValue, load_store]
      exact congrArg Cell.long (signExtend_low (b := 8) (.inl rfl) hlow hhigh)
  | int =>
      obtain ⟨hlow, hhigh⟩ := hw
      simp only [IntegerType.size, IntegerType.packType, unpackValue, load_swap_store]
      exact congrArg Cell.long (signExtend_low (b := 16) (.inr (.inl rfl)) hlow hhigh)
  | unsignedInt =>
      obtain ⟨hlow, hhigh⟩ := hw
      simp only [IntegerType.size, IntegerType.packType, unpackValue, load_swap_store]
      exact congrArg Cell.long (ofNat_low (b := 16) (.inr (.inl rfl)) hlow hhigh)
  | long =>
      obtain ⟨hlow, hhigh⟩ := hw
      simp only [IntegerType.size, IntegerType.packType, unpackValue, load_swap_store]
      exact congrArg Cell.long (signExtend_low (b := 32) (.inr (.inr rfl)) hlow hhigh)
  | unsignedLong =>
      obtain ⟨hlow, hhigh⟩ := hw
      simp only [IntegerType.size, IntegerType.packType, unpackValue, load_swap_store]
      exact congrArg Cell.long (ofNat_low (b := 32) (.inr (.inr rfl)) hlow hhigh)
  | longLong =>
      simp only [IntegerType.size, IntegerType.packType, unpackValue, load_swap_store]
      exact congrArg Cell.long (ofNat_word w)
  | unsignedLongLong =>
      simp only [IntegerType.size, IntegerType.packType, unpackValue, load_swap_store]
      exact congrArg Cell.long (ofNat_word w)

theorem holds_zero (t : IntegerType) : t.Holds 0 := by
  cases t <;> exact ⟨by decide, by decide⟩

/-- A number in the range of an integer directive is the number of its word. -/
theorem ofInt_eq_zero_iff {t : IntegerType} {i : Int} (hi : t.Holds i) :
    BitVec.ofInt 64 i = 0 ↔ i = 0 := by
  have hbound : -2 ^ 63 ≤ i ∧ i < 2 ^ 64 := by
    cases t <;> simp only [IntegerType.Holds, IntegerType.signed, IntegerType.size] at hi <;>
      simp at hi <;> omega
  constructor
  · intro h
    have hmod := congrArg BitVec.toNat h
    rw [BitVec.toNat_ofInt] at hmod
    change (i % (2 ^ 64 : Nat)).toNat = 0 at hmod
    omega
  · rintro rfl
    rfl

/-- Every value that fits is written to the bytes its directive has. -/
theorem packValue_fits (hfits : d.Fits cell) :
    ∃ bytes, packValue m d.item e cell = some bytes ∧ bytes.length = d.item.1.toNat := by
  cases d with
  | integer t =>
      have hsize : ∀ w : Word, (swapEndian e (m.store t.size w.toNat)).length =
          (Directive.integer t).item.1.toNat := by
        intro w
        rw [length_swapEndian, length_store]
        rfl
      rw [packValue_integer]
      cases cell with
      | long w => exact ⟨_, rfl, hsize w⟩
      | float x =>
          have hinteger : t.packType.isInteger = true := by cases t <;> rfl
          rw [uint64V, if_pos hinteger]
          exact ⟨_, rfl, hsize _⟩
      | _ => exact absurd hfits (by simp [Directive.Fits])
  | float =>
      cases cell with
      | long w => exact ⟨_, rfl, by rw [length_swapEndian, length_store]; rfl⟩
      | float x => exact ⟨_, rfl, by rw [length_swapEndian, length_store]; rfl⟩
      | _ => exact absurd hfits (by simp [Directive.Fits])
  | double =>
      cases cell with
      | long w => exact ⟨_, rfl, by rw [length_swapEndian, length_store]; rfl⟩
      | float x => exact ⟨_, rfl, by rw [length_swapEndian, length_store]; rfl⟩
      | _ => exact absurd hfits (by simp [Directive.Fits])
  | string digits =>
      cases cell with
      | string s =>
          by_cases hlen : (Directive.lengthOf digits).toNat ≤ s.length
          · refine ⟨s.take (Directive.lengthOf digits).toNat, if_pos hlen, ?_⟩
            exact List.length_take_of_le hlen
          · refine ⟨_, if_neg hlen, ?_⟩
            rw [List.length_append, List.length_replicate]
            change s.length + ((Directive.lengthOf digits).toNat - s.length) =
              (Directive.lengthOf digits).toNat
            omega
      | _ => exact absurd hfits (by simp [Directive.Fits])
  | _ => exact absurd hfits (by simp [Directive.Fits])

theorem packValue_float (m : Machine) (e : Bool) {cell : Cell} {w : Word}
    (h : uint64V m .float cell = some w) :
    packValue m Directive.float.item e cell =
      some (swapEndian e (m.store 4 (Binary32.ofDouble (doubleV cell w)).bits.toNat)) := by
  change (uint64V m .float cell).map _ = _
  rw [h]
  rfl

theorem packValue_double (m : Machine) (e : Bool) {cell : Cell} {w : Word}
    (h : uint64V m .double cell = some w) :
    packValue m Directive.double.item e cell =
      some (swapEndian e (m.store 8 (doubleV cell w).bits.toNat)) := by
  change (uint64V m .double cell).map _ = _
  rw [h]
  rfl

/-- A `float` comes back from its bytes, as what the conversions make of it, -/
theorem unpackValue_float (x : Binary64) :
    unpackValue m .float e (swapEndian e (m.store 4 (Binary32.ofDouble x).bits.toNat)) =
      .float (Binary32.ofDouble x).toDouble := by
  have hlt := (Binary32.ofDouble x).bits.isLt
  simp only [unpackValue, load_swap_store]
  rw [Nat.mod_eq_of_lt (by omega), BitVec.ofNat_toNat, BitVec.setWidth_eq]

/-- and a `double` as it is. -/
theorem unpackValue_double (x : Binary64) :
    unpackValue m .double e (swapEndian e (m.store 8 x.bits.toNat)) = .float x := by
  have hlt := x.bits.isLt
  simp only [unpackValue, load_swap_store]
  rw [Nat.mod_eq_of_lt (by omega), BitVec.ofNat_toNat, BitVec.setWidth_eq]

/-- The word of an integer is the integer, unless it is negative. -/
theorem ofInt_toNat_iff (w : Word) :
    (Binary64.ofInt w.toNat = Binary64.ofInt w.toInt) ↔ 0 ≤ w.toInt := by
  constructor
  · intro h
    have hsign := congrArg Binary64.negative h
    rw [Binary64.negative_ofInt, Binary64.negative_ofInt, decide_eq_decide] at hsign
    omega
  · intro h
    have hw := w.isLt
    have heq : (w.toNat : Int) = w.toInt := by
      rw [BitVec.toInt_eq_toNat_cond] at h ⊢
      split_ifs at h ⊢ <;> omega
    rw [heq]

/-- Where the value a `float` directive gets is exact, it comes back when its sign does. -/
theorem float_negative_iff {w : Word} {s : Binary32} (hs : s.isNaN = false)
    (hexact : Binary64.ofInt w.toInt = s.toDouble) :
    (Binary32.ofDouble (Binary64.ofInt w.toNat)).toDouble = Binary64.ofInt w.toInt ↔
      0 ≤ w.toInt := by
  constructor
  · intro h
    have hsign := congrArg Binary64.negative h
    rw [Binary32.negative_toDouble, Binary32.negative_ofDouble, Binary64.negative_ofInt,
      Binary64.negative_ofInt, decide_eq_decide] at hsign
    omega
  · intro h
    rw [(ofInt_toNat_iff w).mpr h, hexact, Binary32.ofDouble_toDouble s hs]

theorem long_inj {x y : Word} : Cell.long x = .long y ↔ x = y := by
  constructor
  · intro h
    injection h
  · exact congrArg Cell.long

theorem float_inj {x y : Binary64} : Cell.float x = .float y ↔ x = y := by
  constructor
  · intro h
    injection h
  · exact congrArg Cell.float

/-- A value comes back from the bytes of its directive exactly where the code is faithful. -/
theorem unpackValue_packValue (hfits : d.Fits cell) (hshort : d.Short) {bytes : List UInt8}
    (hbytes : packValue m d.item e cell = some bytes) :
    unpackValue m d.item.2 e bytes = d.expected cell ↔ d.Faithful cell := by
  cases d with
  | integer t =>
      rw [packValue_integer] at hbytes
      cases cell with
      | long w =>
          cases hbytes
          exact iff_of_true (unpackValue_integer hfits) trivial
      | float x =>
          have hinteger : t.packType.isInteger = true := by cases t <;> rfl
          rw [uint64V, if_pos hinteger, trunc_nilCell] at hbytes
          cases hbytes
          have hzero : t.Holds (BitVec.ofInt 64 0).toInt := holds_zero t
          have hback : unpackValue m t.packType e (swapEndian e (m.store t.size
              (BitVec.ofInt 64 0).toNat)) = .long 0 := unpackValue_integer hzero
          change unpackValue m t.packType e _ = Cell.long (BitVec.ofInt 64 x.trunc) ↔ _
          rw [hback, long_inj, eq_comm, ofInt_eq_zero_iff hfits]
          rfl
      | _ => exact absurd hfits (by simp [Directive.Fits])
  | float =>
      cases cell with
      | long w =>
          obtain ⟨s, hs, hexact⟩ := hfits
          rw [packValue_float m e (w := w) rfl] at hbytes
          obtain rfl := Option.some.inj hbytes
          change unpackValue m .float e _ = Cell.float (Binary64.ofInt w.toInt) ↔ 0 ≤ w.toInt
          rw [unpackValue_float, float_inj]
          exact float_negative_iff hs hexact
      | float x =>
          obtain ⟨s, hs, rfl⟩ := hfits
          rw [packValue_float m e (w := s.toDouble.bits) rfl] at hbytes
          obtain rfl := Option.some.inj hbytes
          refine iff_of_true ?_ trivial
          change unpackValue m .float e _ = Cell.float s.toDouble
          rw [unpackValue_float, float_inj]
          exact congrArg Binary32.toDouble (Binary32.ofDouble_toDouble s hs)
      | _ => exact absurd hfits (by simp [Directive.Fits])
  | double =>
      cases cell with
      | long w =>
          rw [packValue_double m e (w := w) rfl] at hbytes
          obtain rfl := Option.some.inj hbytes
          change unpackValue m .double e _ = Cell.float (Binary64.ofInt w.toInt) ↔ 0 ≤ w.toInt
          rw [unpackValue_double, float_inj]
          exact ofInt_toNat_iff w
      | float x =>
          rw [packValue_double m e (w := x.bits) rfl] at hbytes
          obtain rfl := Option.some.inj hbytes
          exact iff_of_true (unpackValue_double x) trivial
      | _ => exact absurd hfits (by simp [Directive.Fits])
  | string digits =>
      cases cell with
      | string s =>
          refine iff_of_true ?_ trivial
          have hlen : (Directive.lengthOf digits).toNat = count digits := by
            rw [lengthOf_of_lt hshort]
            exact Int.toNat_natCast _
          have hvalue : packValue m (Directive.string digits).item e (.string s) =
              if count digits ≤ s.length then some (s.take (count digits))
              else some (s ++ List.replicate (count digits - s.length) 0) := by
            rw [← hlen]
            rfl
          rw [hvalue] at hbytes
          change Cell.string bytes = Cell.string _
          by_cases hle : count digits ≤ s.length
          · rw [if_pos hle] at hbytes
            cases hbytes
            rw [Nat.sub_eq_zero_of_le hle, List.replicate_zero, List.append_nil]
          · rw [if_neg hle] at hbytes
            cases hbytes
            rw [List.take_of_length_le (by omega)]
      | _ => exact absurd hfits (by simp [Directive.Fits])
  | _ => exact absurd hfits (by simp [Directive.Fits])

end Values

section Runs

variable {eval : Cell → Cell}

/-- The arguments fit the directives that take one, one each. -/
def Matches : List Directive → List Cell → Prop
  | [], [] => True
  | [], _ :: _ => False
  | d :: ds, [] => d.takes = false ∧ Matches ds []
  | d :: ds, cell :: cells =>
      if d.takes then d.Fits cell ∧ Matches ds cells else Matches ds (cell :: cells)

/-- The values that come back. -/
def expecteds : List Directive → List Cell → List Cell
  | [], _ => []
  | _ :: _, [] => []
  | d :: ds, cell :: cells =>
      if d.takes then d.expected cell :: expecteds ds cells else expecteds ds (cell :: cells)

/-- The code is faithful to every argument. -/
def Faithfuls : List Directive → List Cell → Prop
  | [], _ => True
  | _ :: _, [] => True
  | d :: ds, cell :: cells =>
      if d.takes then d.Faithful cell ∧ Faithfuls ds cells else Faithfuls ds (cell :: cells)

/-- The values that `params` give `p_pack`: those of the arguments one after the other, up to
one that is a list and gives its elements. -/
inductive Gives (eval : Cell → Cell) : Bool → List Cell → List Cell → Prop
  | elements (cells : List Cell) : Gives eval true cells cells
  | none : Gives eval false [] []
  | value {param : Cell} {params cells : List Cell} (hparam : endsArguments [param] = false)
      (hvalue : listElements (eval param) = Option.none) (h : Gives eval false params cells) :
      Gives eval false (param :: params) (eval param :: cells)
  | list {param : Cell} {params cells : List Cell} (hparam : endsArguments [param] = false)
      (hlist : listElements (eval param) = some cells) : Gives eval false (param :: params) cells

theorem fits_plain {d : Directive} {cell : Cell} (h : d.Fits cell) :
    endsArguments [cell] = false ∧ listElements cell = none := by
  cases d <;> cases cell <;> first | exact ⟨rfl, rfl⟩ | exact absurd h (by simp [Directive.Fits])

/-- A directive that takes an argument neither skips a byte nor sets the byte order. -/
theorem packType_takes {d : Directive} (hd : d.takes = true) :
    d.item.2 ≠ .null ∧ ¬ (d.item.2 = .littleEndian ∨ d.item.2 = .bigEndian) := by
  cases d with
  | integer t => cases t <;> simp [Directive.item, IntegerType.packType]
  | null digits => cases hd
  | littleEndian => cases hd
  | bigEndian => cases hd
  | _ => simp [Directive.item]

/-- A directive that takes an argument reads the next value. -/
theorem packLoop_takes {d : Directive} (hd : d.takes = true) (items : List Item)
    {params cells : List Cell} {cell : Cell} {listFlag : Bool} (hfits : d.Fits cell)
    (hgives : Gives eval listFlag params (cell :: cells)) (sw : Bool) :
    ∃ params' listFlag', Gives eval listFlag' params' cells ∧
      packLoop m eval (d.item :: items) params listFlag sw =
        (packValue m d.item sw cell).bind fun bytes =>
          prepend bytes (packLoop m eval items params' listFlag' sw) := by
  obtain ⟨hnil, hlist⟩ := fits_plain hfits
  obtain ⟨hnull, hendian⟩ := packType_takes hd
  have hends : ∀ {param : Cell} (params : List Cell), endsArguments [param] = false →
      endsArguments (param :: params) = false := by
    intro param params h
    cases param <;> first | rfl | cases h
  cases hgives with
  | elements =>
      refine ⟨cells, true, .elements cells, ?_⟩
      rw [packLoop, if_neg hnull, if_neg hendian, if_neg (by rw [hends _ hnil]; decide)]
      simp only [if_true, hlist]
  | @value param params' _ hparam hvalue h =>
      refine ⟨params', false, h, ?_⟩
      rw [packLoop, if_neg hnull, if_neg hendian, if_neg (by rw [hends _ hparam]; decide)]
      simp only [Bool.false_eq_true, if_false, hvalue]
  | @list param params' _ hparam hlist' =>
      refine ⟨cells, true, .elements cells, ?_⟩
      rw [packLoop, if_neg hnull, if_neg hendian, if_neg (by rw [hends _ hparam]; decide)]
      simp only [Bool.false_eq_true, if_false, hlist']

theorem skip_takes {d : Directive} (hd : d.takes = false) (ds : List Directive)
    (cells : List Cell) :
    (Matches (d :: ds) cells ↔ Matches ds cells) ∧
      expecteds (d :: ds) cells = expecteds ds cells ∧
      (Faithfuls (d :: ds) cells ↔ Faithfuls ds cells) := by
  cases cells with
  | nil =>
      refine ⟨?_, ?_, ?_⟩
      · rw [Matches]
        exact and_iff_right hd
      · cases ds <;> rfl
      · cases ds <;> exact Iff.rfl
  | cons cell cells =>
      refine ⟨?_, ?_, ?_⟩
      · rw [Matches, hd, if_neg Bool.false_ne_true]
      · rw [expecteds, hd, if_neg Bool.false_ne_true]
      · rw [Faithfuls, hd, if_neg Bool.false_ne_true]

theorem matches_takes {d : Directive} (hd : d.takes = true) {ds : List Directive}
    {cells : List Cell} (h : Matches (d :: ds) cells) :
    ∃ cell others, cells = cell :: others ∧ d.Fits cell ∧ Matches ds others := by
  cases cells with
  | nil =>
      rw [Matches, hd] at h
      cases h.1
  | cons cell cells =>
      rw [Matches, if_pos hd] at h
      exact ⟨cell, cells, rfl, h⟩

theorem length_expecteds {ds : List Directive} {cells : List Cell} (h : Matches ds cells) :
    (expecteds ds cells).length = cells.length := by
  induction ds generalizing cells with
  | nil =>
      cases cells with
      | nil => rfl
      | cons cell cells => exact h.elim
  | cons d ds ih =>
      cases hd : d.takes with
      | false =>
          obtain ⟨hmatches, hexpecteds, -⟩ := skip_takes hd ds cells
          rw [hexpecteds, ih (hmatches.mp h)]
      | true =>
          obtain ⟨cell, others, rfl, -, hothers⟩ := matches_takes hd h
          rw [expecteds, if_pos hd, List.length_cons, List.length_cons, ih hothers]

/-- How `unpack` goes on behind the bytes of a directive that gives a value, -/
theorem unpackLoop_takes {d : Directive} (hd : d.takes = true) (hpos : 0 ≤ d.item.1)
    (items : List Item) {bytes : List UInt8} (hbytes : bytes.length = d.item.1.toNat)
    (rest : List UInt8) (sw : Bool) :
    unpackLoop m (d.item :: items) (bytes ++ rest) sw =
      (unpackLoop m items rest sw).map (unpackValue m d.item.2 sw bytes :: ·) := by
  obtain ⟨hnull, hendian⟩ := packType_takes hd
  have hlen : ¬ (bytes ++ rest).length < d.item.1.toNat := by
    rw [List.length_append]
    omega
  rw [unpackLoop, if_neg (not_lt.mpr hpos), if_neg hlen, if_neg hendian, if_neg hnull, ← hbytes,
    List.drop_left, List.take_left]

/-- of the zeros of an `n`, -/
theorem unpackLoop_null {digits : List UInt8} (hpos : 0 ≤ Directive.lengthOf digits)
    (items : List Item) (rest : List UInt8) (sw : Bool) :
    unpackLoop m ((Directive.null digits).item :: items)
        (List.replicate (Directive.lengthOf digits).toNat 0 ++ rest) sw =
      unpackLoop m items rest sw := by
  have hlen : ¬ (List.replicate (Directive.lengthOf digits).toNat (0 : UInt8) ++ rest).length <
      (Directive.null digits).item.1.toNat := by
    rw [List.length_append, List.length_replicate]
    exact not_lt.mpr (Nat.le_add_right _ _)
  have hneg : ¬ (Directive.null digits).item.1 < 0 := not_lt.mpr hpos
  have hnull : (Directive.null digits).item.2 = .null := rfl
  rw [unpackLoop, if_neg hneg, if_neg hlen, if_neg (by simp [Directive.item]), if_pos hnull]
  congr 1
  exact List.drop_left' (List.length_replicate ..)

theorem packLoop_null (digits : List UInt8) (items : List Item) (params : List Cell)
    (listFlag sw : Bool) :
    packLoop m eval ((Directive.null digits).item :: items) params listFlag sw =
      prepend (List.replicate (Directive.lengthOf digits).toNat 0)
        (packLoop m eval items params listFlag sw) := by
  rw [packLoop.eq_def]
  rfl

/-- The length of a directive is its size where the count is below `2 ^ 31`. -/
theorem length_of_short {d : Directive} (h : d.Short) : 0 ≤ d.item.1 ∧ d.item.1 = d.size := by
  have hcount : ∀ {digits : List UInt8}, count digits < 2 ^ 31 →
      0 ≤ Directive.lengthOf digits ∧ Directive.lengthOf digits = count digits := by
    intro digits hdigits
    rw [lengthOf_of_lt hdigits]
    exact ⟨Int.natCast_nonneg _, rfl⟩
  cases d with
  | null digits => exact hcount h
  | string digits => exact hcount h
  | integer t => exact ⟨Int.natCast_nonneg _, rfl⟩
  | _ => exact ⟨by decide, rfl⟩

/-- A length that is not negative is not above the size. -/
theorem length_of_nonneg {d : Directive} (h : 0 ≤ d.item.1) : d.item.1.toNat ≤ d.size := by
  have hcount : ∀ {digits : List UInt8}, 0 ≤ Directive.lengthOf digits →
      (Directive.lengthOf digits).toNat ≤ count digits := by
    intro digits hdigits
    obtain ⟨hlt, hle⟩ := lengthOf_le hdigits
    omega
  cases d with
  | null digits => exact hcount h
  | string digits => exact hcount h
  | integer t => exact le_rfl
  | _ => exact le_rfl

/-- Both loops go through the directives in step. -/
theorem loops_in_step (m : Machine) (eval : Cell → Cell) (ds : List Directive) :
    ∀ (params cells : List Cell) (listFlag sw : Bool), Matches ds cells →
      Gives eval listFlag params cells →
      ∃ packed, packLoop m eval (ds.map Directive.item) params listFlag sw = some packed ∧
        packed.length = (ds.map fun d => d.item.1.toNat).sum ∧
        ((∀ d ∈ ds, d.Short) →
          (unpackLoop m (ds.map Directive.item) packed sw = some (expecteds ds cells) ↔
            Faithfuls ds cells)) := by
  induction ds with
  | nil =>
      intro params cells listFlag sw _ _
      exact ⟨[], rfl, rfl, fun _ => iff_of_true rfl trivial⟩
  | cons d ds ih =>
      intro params cells listFlag sw hmatches hgives
      by_cases hd : d.takes = true
      · obtain ⟨cell, others, rfl, hfits, hmatches⟩ := matches_takes hd hmatches
        obtain ⟨params', listFlag', hgives', hloop⟩ :=
          packLoop_takes (m := m) hd (ds.map Directive.item) hfits hgives sw
        obtain ⟨bytes, hbytes, hlen⟩ := packValue_fits (m := m) (e := sw) hfits
        obtain ⟨packed, hpacked, hlength, hback⟩ := ih params' others listFlag' sw hmatches hgives'
        refine ⟨bytes ++ packed, ?_, ?_, ?_⟩
        · rw [List.map_cons, hloop, hbytes, hpacked]
          rfl
        · rw [List.length_append, hlen, hlength, List.map_cons, List.sum_cons]
        · intro hshort
          have hd' := hshort d List.mem_cons_self
          rw [List.map_cons, unpackLoop_takes hd (length_of_short hd').1 _ hlen, expecteds,
            if_pos hd, Faithfuls, if_pos hd, ← unpackValue_packValue hfits hd' hbytes,
            ← hback fun d hd => hshort d (List.mem_cons_of_mem _ hd)]
          constructor
          · intro h
            obtain ⟨values, hvalues, heq⟩ := Option.map_eq_some_iff.mp h
            injection heq with hhead htail
            exact ⟨hhead, by rw [hvalues, htail]⟩
          · rintro ⟨hhead, htail⟩
            rw [htail, hhead]
            rfl
      · have hskip := skip_takes (Bool.not_eq_true _ ▸ hd) ds cells
        rw [hskip.1] at hmatches
        rw [hskip.2.1, hskip.2.2]
        cases d with
        | littleEndian =>
            obtain ⟨packed, hpacked, hlength, hback⟩ :=
              ih params cells listFlag (false != m.bigEndian) hmatches hgives
            refine ⟨packed, hpacked, ?_, ?_⟩
            · rw [hlength, List.map_cons, List.sum_cons]
              exact (Nat.zero_add _).symm
            · intro hshort
              exact hback fun d hd => hshort d (List.mem_cons_of_mem _ hd)
        | bigEndian =>
            obtain ⟨packed, hpacked, hlength, hback⟩ :=
              ih params cells listFlag (true != m.bigEndian) hmatches hgives
            refine ⟨packed, hpacked, ?_, ?_⟩
            · rw [hlength, List.map_cons, List.sum_cons]
              exact (Nat.zero_add _).symm
            · intro hshort
              exact hback fun d hd => hshort d (List.mem_cons_of_mem _ hd)
        | null digits =>
            obtain ⟨packed, hpacked, hlength, hback⟩ :=
              ih params cells listFlag sw hmatches hgives
            refine ⟨List.replicate (Directive.lengthOf digits).toNat 0 ++ packed, ?_, ?_, ?_⟩
            · rw [List.map_cons, packLoop_null, hpacked]
              rfl
            · rw [List.length_append, List.length_replicate, hlength, List.map_cons,
                List.sum_cons]
              rfl
            · intro hshort
              have hd' : (Directive.null digits).Short := hshort _ List.mem_cons_self
              rw [List.map_cons, unpackLoop_null (length_of_short hd').1]
              exact hback fun d hd => hshort d (List.mem_cons_of_mem _ hd)
        | _ => exact absurd rfl hd

/-- Where no length is negative, `p_pack` makes a string of what its second loop writes. -/
theorem p_pack_eq_packLoop {ds : List Directive} {format : List UInt8}
    (hformat : formatItems format = ds.map Directive.item) {params cells : List Cell}
    (hmatches : Matches ds cells) (hgives : Gives eval false params cells)
    (hpos : ∀ d ∈ ds, 0 ≤ d.item.1) :
    p_pack m eval format params =
      (packLoop m eval (ds.map Directive.item) params false false).bind stuffStringN := by
  have hsum : ((ds.map Directive.item).map Prod.fst).sum =
      ((ds.map fun d => d.item.1.toNat).sum : Nat) := by
    clear hformat hmatches
    induction ds with
    | nil => rfl
    | cons d ds ih =>
        have hd := hpos d List.mem_cons_self
        have hrest := ih fun e he => hpos e (List.mem_cons_of_mem _ he)
        simp only [List.map_cons, List.sum_cons] at hrest ⊢
        rw [hrest]
        push_cast
        omega
  have hany : (ds.map Directive.item).any (·.1 < 0) = false := by
    rw [List.any_eq_false]
    intro item hitem
    obtain ⟨d, hd, rfl⟩ := List.mem_map.mp hitem
    have h := hpos d hd
    simpa using h
  rw [p_pack, hformat]
  simp only [hany, Bool.false_eq_true, if_false]
  by_cases hzero : ((ds.map Directive.item).map Prod.fst).sum = 0
  · obtain ⟨packed, hpacked, hlength, -⟩ := loops_in_step m eval ds params cells false false
      hmatches hgives
    rw [hsum] at hzero
    have hnil : packed = [] := List.length_eq_zero_iff.mp (by omega)
    rw [← hsum] at hzero
    rw [if_pos hzero, hpacked, hnil]
    rfl
  · rw [if_neg hzero]

/-- A string whose length and size fit an `int` is kept, -/
theorem stuffStringN_of_lt {packed : List UInt8} (h : packed.length < 2 ^ 31 - 1) :
    stuffStringN packed = some packed := by
  have hlen : int32 packed.length = packed.length := int32_eq (by omega) (by omega)
  rw [stuffStringN, hlen, if_pos (by omega), Int.toNat_natCast, List.take_length]

/-- and no other string is kept as long as it is. -/
theorem lt_of_stuffStringN {packed string : List UInt8} (h : stuffStringN packed = some string)
    (hlength : packed.length ≤ string.length) : packed.length < 2 ^ 31 - 1 := by
  simp only [stuffStringN] at h
  split at h
  · rename_i hfits
    have htake := congrArg List.length (Option.some.inj h)
    rw [List.length_take] at htake
    omega
  · cases h

/-- Directives of less than `2 ^ 31` bytes together have short counts. -/
theorem short_of_sum {ds : List Directive} (h : (ds.map Directive.size).sum < 2 ^ 31 - 1) :
    ∀ d ∈ ds, d.Short := by
  intro d hd
  have hle : d.size ≤ (ds.map Directive.size).sum :=
    List.le_sum_of_mem (List.mem_map_of_mem hd)
  cases d with
  | null digits => exact lt_of_le_of_lt hle (by omega)
  | string digits => exact lt_of_le_of_lt hle (by omega)
  | _ => trivial

/-- A packed string is as long as all the directives only when its size fits an `int`. -/
theorem sum_of_length {ds : List Directive} {format : List UInt8}
    (hformat : formatItems format = ds.map Directive.item) {params cells : List Cell}
    (hmatches : Matches ds cells) (hgives : Gives eval false params cells) {packed : List UInt8}
    (hpack : p_pack m eval format params = some packed)
    (hlength : packed.length = (ds.map Directive.size).sum) :
    (ds.map Directive.size).sum < 2 ^ 31 - 1 := by
  by_cases hpos : ∀ d ∈ ds, 0 ≤ d.item.1
  · obtain ⟨packed', hpacked', hlength', -⟩ := loops_in_step m eval ds params cells false false
      hmatches hgives
    rw [p_pack_eq_packLoop hformat hmatches hgives hpos, hpacked', Option.bind_some] at hpack
    have hle : packed'.length ≤ (ds.map Directive.size).sum := by
      rw [hlength']
      exact List.sum_le_sum fun d hd => length_of_nonneg (hpos d hd)
    have hlt := lt_of_stuffStringN hpack (by omega)
    rw [stuffStringN_of_lt hlt] at hpack
    obtain rfl := Option.some.inj hpack
    omega
  · have hany : (ds.map Directive.item).any (·.1 < 0) = true := by
      rw [List.any_eq_true]
      simp only [not_forall, not_le] at hpos
      obtain ⟨d, hd, hneg⟩ := hpos
      exact ⟨d.item, List.mem_map_of_mem hd, by simpa using hneg⟩
    rw [p_pack, hformat] at hpack
    simp only [hany, if_true] at hpack
    by_cases hzero : ((ds.map Directive.item).map Prod.fst).sum = 0
    · rw [if_pos hzero] at hpack
      obtain rfl := Option.some.inj hpack
      rw [← hlength]
      decide
    · rw [if_neg hzero] at hpack
      cases hpack

/-- `unpack` with the format gives back the values packed, and the packed string is as long as
the directives together. -/
def RoundTrip (m : Machine) (room : Nat) (eval : Cell → Cell) (f : Format)
    (params cells : List Cell) : Prop :=
  ∃ packed, p_pack m eval f.text params = some packed ∧
    packed.length = (f.list.map Directive.size).sum ∧
    p_unpack m room f.text packed = some (.expression (expecteds f.list cells))

/-- For arguments that fit, `unpack` inverts `pack` exactly when the string has a size that fits
an `int`, the nursery has room for the values, no float with a whole part goes through an integer
directive, and no negative integer through a float directive. -/
theorem p_unpack_p_pack (m : Machine) (room : Nat) (eval : Cell → Cell) (f : Format)
    {params cells : List Cell} (hmatches : Matches f.list cells)
    (hgives : Gives eval false params cells) :
    RoundTrip m room eval f params cells ↔
      (f.list.map Directive.size).sum < 2 ^ 31 - 1 ∧ cells.length ≤ room ∧
        Faithfuls f.list cells := by
  have hformat := formatItems_text f
  obtain ⟨packed, hpacked, hlength, hback⟩ := loops_in_step m eval f.list params cells false false
    hmatches hgives
  have hunpack : p_unpack m room f.text packed = some (.expression (expecteds f.list cells)) ↔
      unpackLoop m (f.list.map Directive.item) packed false = some (expecteds f.list cells) ∧
        cells.length ≤ room := by
    rw [p_unpack, hformat, ← length_expecteds hmatches]
    constructor
    · intro h
      obtain ⟨values, hvalues, heq⟩ := Option.bind_eq_some_iff.mp h
      obtain ⟨hroom, heq⟩ := Option.ite_none_right_eq_some.mp heq
      injection heq with heq
      injection heq with heq
      rw [hvalues, ← heq]
      exact ⟨rfl, hroom⟩
    · rintro ⟨h, hroom⟩
      rw [h, Option.bind_some, if_pos hroom]
  have hsum : (∀ d ∈ f.list, d.Short) → packed.length = (f.list.map Directive.size).sum := by
    intro hshort
    rw [hlength]
    congr 1
    refine List.map_congr_left fun d hd => ?_
    have hd' := (length_of_short (hshort d hd)).2
    rw [hd']
    exact Int.toNat_natCast _
  have hpack : (f.list.map Directive.size).sum < 2 ^ 31 - 1 →
      p_pack m eval f.text params = some packed := by
    intro hfits
    have hshort := short_of_sum hfits
    rw [p_pack_eq_packLoop hformat hmatches hgives fun d hd => (length_of_short (hshort d hd)).1,
      hpacked, Option.bind_some, stuffStringN_of_lt (by rw [hsum hshort]; exact hfits)]
  constructor
  · rintro ⟨packed', hpack', hlength', hunpack'⟩
    have hfits := sum_of_length hformat hmatches hgives hpack' hlength'
    rw [hpack hfits] at hpack'
    obtain rfl := Option.some.inj hpack'
    obtain ⟨hloop, hroom⟩ := hunpack.mp hunpack'
    exact ⟨hfits, hroom, (hback (short_of_sum hfits)).mp hloop⟩
  · rintro ⟨hfits, hroom, hfaithful⟩
    have hshort := short_of_sum hfits
    exact ⟨packed, hpack hfits, hsum hshort,
      hunpack.mpr ⟨(hback hshort).mpr hfaithful, hroom⟩⟩

/-- A machine that stores the lowest byte first. -/
def littleMachine : Machine := ⟨false, 0x7f0000001000, by decide⟩

/-- A format of one directive. -/
def single (d : Directive) (h : d.Valid) : Format :=
  ⟨[(0, d)], 0, fun e he => by
    rw [List.mem_singleton.mp he]
    exact h⟩

/-- The digits of `2 ^ 32`. -/
def hugeCount : List UInt8 := [52, 50, 57, 52, 57, 54, 55, 50, 57, 54]

theorem hugeCount_valid : (Directive.null hugeCount).Valid := by
  have hall : hugeCount.all isDigit = true := by decide
  exact List.all_eq_true.mp hall

def threePointFive : Binary64 := ⟨0x400C000000000000⟩

/-- `(unpack "> ld s3" (pack "> ld s3" -5 "ab"))`. -/
theorem p_unpack_p_pack_string :
    RoundTrip littleMachine 100 (fun cell => cell)
      ⟨[(0, .bigEndian), (1, .integer .long), (1, .string [51])], 0, by
        intro d hd
        simp only [List.mem_cons, List.not_mem_nil, or_false] at hd
        rcases hd with rfl | rfl | rfl
        · trivial
        · trivial
        · intro c hc
          rw [List.mem_singleton.mp hc]
          decide⟩
      [.long (BitVec.ofInt 64 (-5)), .string [97, 98]]
      [.long (BitVec.ofInt 64 (-5)), .string [97, 98]] := by
  refine (p_unpack_p_pack littleMachine 100 (fun cell => cell) _ ?_ ?_).mpr ⟨?_, ?_, ?_⟩
  · exact ⟨⟨by decide, by decide⟩, trivial, trivial⟩
  · exact .value rfl rfl (.value rfl rfl .none)
  · decide
  · decide
  · exact ⟨trivial, trivial, trivial⟩

/-- `(unpack "d" (pack "d" 3.5))` is 0, `(unpack "lf" (pack "lf" -1))` is `2 ^ 64`, and
`(pack "n4294967296")` is empty. -/
theorem p_pack_unfaithful :
    (Matches (single (.integer .int) trivial).list [.float threePointFive] ∧
      ¬ RoundTrip littleMachine 100 (fun cell => cell) (single (.integer .int) trivial)
        [.float threePointFive] [.float threePointFive]) ∧
    (Matches (single .double trivial).list [.long (BitVec.ofInt 64 (-1))] ∧
      ¬ RoundTrip littleMachine 100 (fun cell => cell) (single .double trivial)
        [.long (BitVec.ofInt 64 (-1))] [.long (BitVec.ofInt 64 (-1))]) ∧
    (Matches (single (.null hugeCount) hugeCount_valid).list [] ∧
      ¬ RoundTrip littleMachine 100 (fun cell => cell) (single (.null hugeCount) hugeCount_valid)
        [] []) := by
  have htrunc : threePointFive.trunc = 3 := by decide +kernel
  refine ⟨⟨⟨?_, trivial⟩, ?_⟩, ⟨⟨trivial, trivial⟩, ?_⟩, ⟨⟨rfl, trivial⟩, ?_⟩⟩
  · exact show IntegerType.Holds .int threePointFive.trunc by
      rw [htrunc]
      exact ⟨by decide, by decide⟩
  · rintro ⟨packed, hpack, -, hunpack⟩
    have hpacked : p_pack littleMachine (fun cell => cell) (single (.integer .int) trivial).text
        [.float threePointFive] = some [0, 0] := by decide +kernel
    rw [hpacked] at hpack
    obtain rfl := Option.some.inj hpack
    have hvalues : p_unpack littleMachine 100 (single (.integer .int) trivial).text [0, 0] =
        some (.expression [.long 0]) := by rfl
    rw [hvalues] at hunpack
    change some (Cell.expression [.long 0]) =
      some (.expression [.long (BitVec.ofInt 64 threePointFive.trunc)]) at hunpack
    rw [htrunc] at hunpack
    injection hunpack with hlist
    injection hlist with hcells
    injection hcells with hhead
    injection hhead with hword
    exact absurd hword (by decide)
  · rintro ⟨packed, hpack, -, hunpack⟩
    have hpacked : p_pack littleMachine (fun cell => cell) (single .double trivial).text
        [.long (BitVec.ofInt 64 (-1))] = some [0, 0, 0, 0, 0, 0, 0xf0, 0x43] := by
      decide +kernel
    rw [hpacked] at hpack
    obtain rfl := Option.some.inj hpack
    have hvalues : p_unpack littleMachine 100 (single .double trivial).text
        [0, 0, 0, 0, 0, 0, 0xf0, 0x43] = some (.expression [.float ⟨0x43f0000000000000⟩]) := by
      rfl
    rw [hvalues] at hunpack
    change some (Cell.expression [.float ⟨0x43f0000000000000⟩]) =
      some (.expression [.float (Binary64.ofInt (BitVec.ofInt 64 (-1)).toInt)]) at hunpack
    injection hunpack with hlist
    injection hlist with hcells
    injection hcells with hhead
    injection hhead with hfloat
    exact absurd hfloat (by decide +kernel)
  · rintro ⟨packed, hpack, hlength, -⟩
    have hpacked : p_pack littleMachine (fun cell => cell)
        (single (.null hugeCount) hugeCount_valid).text [] = some [] := by decide +kernel
    rw [hpacked] at hpack
    obtain rfl := Option.some.inj hpack
    exact absurd hlength (by decide +kernel)

end Runs

end NewLispNeo.Pack
