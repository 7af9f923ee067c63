/-
`pack` and `unpack` of nl-string.c on a 64-bit build, with a format in a string.
-/
import NewLispNeo.Cell
import NewLispNeo.Digits
import NewLispNeo.Binary32

namespace NewLispNeo.Pack

/-- What the machine decides: the order of the bytes in a number, and the address of `nilCell`,
which is what `aux` of a float holds.  Addresses are below `2 ^ 52`. -/
structure Machine where
  bigEndian : Bool
  nilCell : Word
  address : nilCell.toNat < 2 ^ 52

inductive PackType where
  | none | byte | char | int | unsignedInt | long | unsignedLong | longLong | unsignedLongLong
  | float | double | string | null | bigEndian | littleEndian
deriving DecidableEq

namespace PackType

/-- `type < PACK_FLOAT`. -/
def isInteger : PackType → Bool
  | .none | .byte | .char | .int | .unsignedInt | .long | .unsignedLong | .longLong
  | .unsignedLongLong => true
  | _ => false

end PackType

/-- A directive of a format as `parsePackFormat` returns it. -/
abbrev Item := Int × PackType

/-- `atol` into an `int`: the value is clamped to 64 bits, and its lower half is kept. -/
def atolInt (text : List UInt8) : Int :=
  (BitVec.ofNat 32 (min (textValue text) (2 ^ 63 - 1))).toInt

/-- The count behind an `s` or an `n`. -/
def parseCount (format : List UInt8) : Int :=
  if format.head?.any isDigit then atolInt (format.takeWhile isDigit) else 1

/-- The directive at the first byte of a format, `next` being the byte behind it. -/
def packDirective (c : UInt8) (format : List UInt8) : Item × List UInt8 :=
  let next := format.headD 0
  if c = 60 then ((0, .littleEndian), format)
  else if c = 62 then ((0, .bigEndian), format)
  else if c = 98 then ((1, .byte), format)
  else if c = 99 then ((1, .char), format)
  else if c = 115 then ((parseCount format, .string), format.dropWhile isDigit)
  else if c = 110 then ((parseCount format, .null), format.dropWhile isDigit)
  else if c = 100 then ((2, .int), format)
  else if c = 117 then ((2, .unsignedInt), format)
  else if c = 108 then
    if next = 100 then ((4, .long), format.tail)
    else if next = 117 then ((4, .unsignedLong), format.tail)
    else if next = 102 then ((8, .double), format.tail)
    else ((0, .none), format)
  else if c = 76 then
    if next = 100 then ((8, .longLong), format.tail)
    else if next = 117 then ((8, .unsignedLongLong), format.tail)
    else ((0, .none), format)
  else if c = 102 then ((4, .float), format)
  else ((0, .none), format)

/-- `parsePackFormat`; the format ends at its first zero byte. -/
def parsePackFormat (format : List UInt8) : Option (Item × List UInt8) :=
  match format.dropWhile (· = 32) with
  | [] => none
  | c :: rest => if c = 0 then none else some (packDirective c rest)

/-- All the directives of a format, as the loops over `parsePackFormat` meet them. -/
def packItems : Nat → List UInt8 → List Item
  | 0, _ => []
  | fuel + 1, format =>
      match parsePackFormat format with
      | none => []
      | some (item, rest) => item :: packItems fuel rest

/-- Each directive takes a byte at least. -/
def formatItems (format : List UInt8) : List Item := packItems format.length format

/-- The lowest bytes of a number, lowest first. -/
def lowBytes : Nat → Nat → List UInt8
  | 0, _ => []
  | n + 1, v => UInt8.ofNat (v % 256) :: lowBytes n (v / 256)

def bytesValue : List UInt8 → Nat
  | [] => 0
  | b :: bs => b.toNat + 256 * bytesValue bs

/-- The bytes of a number in memory. -/
def Machine.store (m : Machine) (n v : Nat) : List UInt8 :=
  if m.bigEndian then (lowBytes n v).reverse else lowBytes n v

def Machine.load (m : Machine) (data : List UInt8) : Nat :=
  bytesValue (if m.bigEndian then data.reverse else data)

/-- `if(endianSwitch) swapEndian(data, n)`. -/
def swapEndian (endianSwitch : Bool) (data : List UInt8) : List UInt8 :=
  if endianSwitch then data.reverse else data

/-- `uint64V`; `none` where it is a pointer.  A float for an integer type is read from `aux`,
where a float of a 64-bit build has the address of `nilCell`. -/
def uint64V (m : Machine) (type : PackType) : Cell → Option Word
  | .long w => some w
  | .float x =>
      if type.isInteger then some (BitVec.ofInt 64 (Binary64.trunc ⟨m.nilCell⟩))
      else some x.bits
  | _ => none

/-- `doubleV`. -/
def doubleV (cell : Cell) (uint64V : Word) : Binary64 :=
  match cell with
  | .float _ => ⟨uint64V⟩
  | _ => Binary64.ofInt uint64V.toNat

/-- The bytes a directive writes for a cell; `none` where they are not known. -/
def packValue (m : Machine) (item : Item) (endianSwitch : Bool) (cell : Cell) :
    Option (List UInt8) :=
  match item.2 with
  | .none => some []
  | .byte | .char => (uint64V m item.2 cell).map fun w => m.store 1 w.toNat
  | .int | .unsignedInt =>
      (uint64V m item.2 cell).map fun w => swapEndian endianSwitch (m.store 2 w.toNat)
  | .long | .unsignedLong =>
      (uint64V m item.2 cell).map fun w => swapEndian endianSwitch (m.store 4 w.toNat)
  | .longLong | .unsignedLongLong =>
      (uint64V m item.2 cell).map fun w => swapEndian endianSwitch (m.store 8 w.toNat)
  | .float =>
      (uint64V m item.2 cell).map fun w =>
        swapEndian endianSwitch (m.store 4 (Binary32.ofDouble (doubleV cell w)).bits.toNat)
  | .double =>
      (uint64V m item.2 cell).map fun w =>
        swapEndian endianSwitch (m.store 8 (doubleV cell w).bits.toNat)
  | .string =>
      let len := item.1.toNat
      match cell with
      | .string s =>
          if len ≤ s.length then some (s.take len)
          else some (s ++ List.replicate (len - s.length) 0)
      | _ => some (List.replicate len 0)
  | .null | .bigEndian | .littleEndian => some []

/-- The bytes in front of what the rest of the format writes. -/
def prepend (bytes : List UInt8) (rest : Option (List UInt8)) : Option (List UInt8) :=
  rest.map (bytes ++ ·)

/-- The elements of a list. -/
def listElements : Cell → Option (List Cell)
  | .expression contents | .lambda _ contents | .fexpr contents => some contents
  | _ => none

/-- `params->type == CELL_NIL`: no argument is left, or it is `nil` as it stands. -/
def endsArguments : List Cell → Bool
  | [] => true
  | .nil :: _ => true
  | _ => false

/-- The second loop of `p_pack`.  `eval` is `evaluateExpression`; with `listFlag` the arguments
are the elements of a list. -/
def packLoop (m : Machine) (eval : Cell → Cell) :
    List Item → List Cell → Bool → Bool → Option (List UInt8)
  | [], _, _, _ => some []
  | item :: items, params, listFlag, endianSwitch =>
      if item.2 = .null then
        prepend (List.replicate item.1.toNat 0)
          (packLoop m eval items params listFlag endianSwitch)
      else if item.2 = .littleEndian ∨ item.2 = .bigEndian then
        packLoop m eval items params listFlag (decide (item.2 = .bigEndian) != m.bigEndian)
      else if endsArguments params then some []
      else
        match params with
        | [] => some []
        | param :: params =>
            let cell := if listFlag then param else eval param
            match listElements cell with
            | some [] => none
            | some (cell :: params) =>
                (packValue m item endianSwitch cell).bind fun bytes =>
                  prepend bytes (packLoop m eval items params true endianSwitch)
            | none =>
                (packValue m item endianSwitch cell).bind fun bytes =>
                  prepend bytes (packLoop m eval items params listFlag endianSwitch)

/-- `stuffStringN`.  The length is an `int`, and so is the size of the memory, one byte more. -/
def stuffStringN (string : List UInt8) : Option (List UInt8) :=
  let len := int32 string.length
  if 0 ≤ len ∧ len + 1 < 2 ^ 31 then some (string.take len.toNat) else none

/-- `p_pack`.  With a negative length it writes outside its buffer. -/
def p_pack (m : Machine) (eval : Cell → Cell) (format : List UInt8) (params : List Cell) :
    Option (List UInt8) :=
  let items := formatItems format
  if (items.map Prod.fst).sum = 0 then some []
  else if items.any (·.1 < 0) then none
  else (packLoop m eval items params false false).bind stuffStringN

/-- The cell a directive reads from its bytes. -/
def unpackValue (m : Machine) (type : PackType) (endianSwitch : Bool) (data : List UInt8) :
    Cell :=
  let v := m.load (swapEndian endianSwitch data)
  match type with
  | .byte => .long (BitVec.ofNat 64 (m.load data))
  | .char => .long ((BitVec.ofNat 8 (m.load data)).signExtend 64)
  | .int => .long ((BitVec.ofNat 16 v).signExtend 64)
  | .unsignedInt => .long (BitVec.ofNat 64 v)
  | .long => .long ((BitVec.ofNat 32 v).signExtend 64)
  | .unsignedLong => .long (BitVec.ofNat 64 v)
  | .longLong | .unsignedLongLong => .long (BitVec.ofNat 64 v)
  | .float => .float (Binary32.toDouble ⟨BitVec.ofNat 32 v⟩)
  | .double => .float ⟨BitVec.ofNat 64 v⟩
  | .string => .string data
  | _ => .nil

/-- The loop of `p_unpack`; it ends where fewer bytes are left than a directive takes.  With a
negative length it reads outside the string. -/
def unpackLoop (m : Machine) : List Item → List UInt8 → Bool → Option (List Cell)
  | [], _, _ => some []
  | item :: items, data, endianSwitch =>
      if item.1 < 0 then none
      else if data.length < item.1.toNat then some []
      else if item.2 = .littleEndian ∨ item.2 = .bigEndian then
        unpackLoop m items data (decide (item.2 = .bigEndian) != m.bigEndian)
      else if item.2 = .null then unpackLoop m items (data.drop item.1.toNat) endianSwitch
      else
        (unpackLoop m items (data.drop item.1.toNat) endianSwitch).map
          (unpackValue m item.2 endianSwitch (data.take item.1.toNat) :: ·)

/-- `p_unpack` of a string.  The list stands in a C variable only, so the values have to fit in
the `room` of the nursery behind it: a collection in the loop does not find them. -/
def p_unpack (m : Machine) (room : Nat) (format data : List UInt8) : Option Cell :=
  (unpackLoop m (formatItems format) data false).bind fun values =>
    if values.length ≤ room then some (.expression values) else none

end NewLispNeo.Pack
