/-
The documents `getJSONvalue` reads: concrete trees with their text, the conditions under which
the parser takes the text, the cell it makes of it, and the documents of RFC 8259 among them.
-/
import NewLispNeo.JsonText

namespace NewLispNeo.Json

/-- A piece of what stands between the quotes of a string. -/
inductive Piece where
  | plain (c : UInt8)
  | escape (c : UInt8)
  | unicode (a b c d : UInt8)

namespace Piece

def text : Piece → List UInt8
  | plain c => [c]
  | escape c => [backslash, c]
  | unicode a b c d => [backslash, 117, a, b, c, d]

/-- The pieces the parser reads: every byte but `u` may be escaped. -/
def Reads : Piece → Prop
  | plain c => c ≠ quote ∧ c ≠ 0 ∧ c ≠ backslash
  | escape c => c ≠ 117
  | unicode a b c d => isHexDigit a ∧ isHexDigit b ∧ isHexDigit c ∧ isHexDigit d

/-- The bytes the parser makes of a piece. -/
def bytes : Piece → List UInt8
  | plain c => [c]
  | escape c => [escapeByte c]
  | unicode a b c d => Utf8.wcharUtf8 (hexNumber a b c d)

/-- The letters RFC 8259 lets stand behind a backslash. -/
def escapes : List UInt8 := [quote, backslash, slash, 98, 102, 110, 114, 116]

/-- The pieces of RFC 8259. -/
def Rfc : Piece → Prop
  | plain c => space ≤ c ∧ c ≠ quote ∧ c ≠ backslash
  | escape c => c ∈ escapes
  | unicode a b c d => isHexDigit a ∧ isHexDigit b ∧ isHexDigit c ∧ isHexDigit d

/-- The first half of a surrogate pair. -/
def IsHigh : Piece → Prop
  | unicode a b c d => 0xd800 ≤ hexNumber a b c d ∧ hexNumber a b c d < 0xdc00
  | _ => False

/-- The second half of a surrogate pair. -/
def IsLow : Piece → Prop
  | unicode a b c d => 0xdc00 ≤ hexNumber a b c d ∧ hexNumber a b c d < 0xe000
  | _ => False

end Piece

/-- The text between the quotes. -/
def piecesText (pieces : List Piece) : List UInt8 := pieces.flatMap Piece.text

/-- The string the parser makes of it: each escape stands for itself. -/
def piecesBytes (pieces : List Piece) : List UInt8 := pieces.flatMap Piece.bytes

/-- The string RFC 8259 makes of it: two halves of a surrogate pair are one character. -/
def decode : List Piece → List UInt8
  | .unicode a b c d :: .unicode x y z u :: pieces =>
      if 0xd800 ≤ hexNumber a b c d ∧ hexNumber a b c d < 0xdc00 ∧
          0xdc00 ≤ hexNumber x y z u ∧ hexNumber x y z u < 0xe000 then
        Utf8.wcharUtf8 (0x10000 + 0x400 * (hexNumber a b c d - 0xd800) +
          (hexNumber x y z u - 0xdc00)) ++ decode pieces
      else Utf8.wcharUtf8 (hexNumber a b c d) ++ decode (.unicode x y z u :: pieces)
  | piece :: pieces => piece.bytes ++ decode pieces
  | [] => []

/-- No surrogate pair. -/
def PairFree (pieces : List Piece) : Prop :=
  pieces.IsChain fun first second => ¬ (first.IsHigh ∧ second.IsLow)

/-- A string with its quotes. -/
def quoted (pieces : List Piece) : List UInt8 := quote :: (piecesText pieces ++ [quote])

/-- A number: its sign, digits, what stands behind the period, and the letter, sign and digits
of an exponent. -/
structure Numeral where
  sign : List UInt8
  digits : List UInt8
  fraction : Option (List UInt8)
  exponent : Option (UInt8 × List UInt8 × List UInt8)

namespace Numeral

variable (n : Numeral)

def fractionText : List UInt8 := n.fraction.elim [] (period :: ·)

def exponentText : List UInt8 := n.exponent.elim [] fun (e, sign, digits) => e :: sign ++ digits

def text : List UInt8 := n.sign ++ n.digits ++ n.fractionText ++ n.exponentText

def isFloat : Bool := n.fraction.isSome || n.exponent.isSome

/-- A sign, or none. -/
def IsSign (sign : List UInt8) : Prop := sign = [] ∨ sign = [minus] ∨ sign = [plus]

def IsExponent : UInt8 × List UInt8 × List UInt8 → Prop
  | (e, sign, digits) =>
      (e = 101 ∨ e = 69) ∧ IsSign sign ∧ digits ≠ [] ∧ ∀ c ∈ digits, isDigit c

/-- The numbers the parser reads. -/
structure Reads : Prop where
  sign : IsSign n.sign
  nonempty : n.digits ≠ []
  digits : ∀ c ∈ n.digits, isDigit c
  fraction : ∀ ds ∈ n.fraction, ∀ c ∈ ds, isDigit c
  exponent : ∀ e ∈ n.exponent, IsExponent e
  short : n.text.length ≤ 1024

/-- The numbers of RFC 8259. -/
structure Rfc : Prop where
  sign : n.sign = [] ∨ n.sign = [minus]
  nonempty : n.digits ≠ []
  digits : ∀ c ∈ n.digits, isDigit c
  leading : n.digits.head? = some 48 → n.digits = [48]
  fraction : ∀ ds ∈ n.fraction, ds ≠ [] ∧ ∀ c ∈ ds, isDigit c
  exponent : ∀ e ∈ n.exponent, IsExponent e

/-- The cell the parser makes. -/
def cell (nums : Numbers) : Cell :=
  if n.isFloat then .float (nums.atof n.text) else .long (atoll n.text)

def integer : Int := if n.sign = [minus] then -(textValue n.digits : Int) else textValue n.digits

/-- The cell that denotes the number: an integer that fits 64 bits is exact, one that does not
is the nearest that fits. -/
def denotes (nums : Numbers) : Cell :=
  if n.isFloat then .float (nums.atof n.text)
  else .long (BitVec.ofInt 64 (max (-2 ^ 63) (min (2 ^ 63 - 1) n.integer)))

end Numeral

inductive Literal where
  | true | false | null
deriving DecidableEq

def Literal.text : Literal → List UInt8
  | .true => ascii "true"
  | .false => ascii "false"
  | .null => ascii "null"

def Literal.cell : Literal → Cell
  | .true => .symbol trueSymbol
  | .false => .symbol falseSymbol
  | .null => .symbol nullSymbol

mutual

/-- A value. -/
inductive Doc where
  | string (pieces : List Piece)
  | number (n : Numeral)
  | literal (l : Literal)
  | emptyObject (inner : List UInt8)
  | object (members : Members)
  | array (elements : Elements)

/-- What stands behind the bracket of an array, or behind a comma in it. -/
inductive Elements where
  | close (inner : List UInt8)
  | last (before : List UInt8) (d : Doc) (after : List UInt8)
  | more (before : List UInt8) (d : Doc) (after : List UInt8) (others : Elements)

/-- What stands behind the brace of an object, or behind a comma in it. -/
inductive Members where
  | last (before : List UInt8) (key : List Piece) (middle before' : List UInt8) (d : Doc)
      (after : List UInt8)
  | more (before : List UInt8) (key : List Piece) (middle before' : List UInt8) (d : Doc)
      (after : List UInt8) (others : Members)

end

mutual

def Doc.text : Doc → List UInt8
  | .string pieces => quoted pieces
  | .number n => n.text
  | .literal l => l.text
  | .emptyObject inner => leftBrace :: (inner ++ [rightBrace])
  | .object members => leftBrace :: members.text
  | .array elements => leftBracket :: elements.text

def Elements.text : Elements → List UInt8
  | .close inner => inner ++ [rightBracket]
  | .last before d after => before ++ (d.text ++ (after ++ [rightBracket]))
  | .more before d after others => before ++ (d.text ++ (after ++ comma :: others.text))

def Members.text : Members → List UInt8
  | .last before key middle before' d after =>
      before ++ (quoted key ++ (middle ++ colon ::
        (before' ++ (d.text ++ (after ++ [rightBrace])))))
  | .more before key middle before' d after others =>
      before ++ (quoted key ++ (middle ++ colon ::
        (before' ++ (d.text ++ (after ++ comma :: others.text)))))

end

/-- What the parser skips. -/
def Blank (w : List UInt8) : Prop := ∀ c ∈ w, c ≤ space ∧ c ≠ 0

/-- A number is followed by one of the bytes that end it. -/
def Doc.Follows (ends : UInt8 → Bool) (d : Doc) (rest : List UInt8) : Prop :=
  match d with
  | .number _ => ∃ c ∈ rest.head?, ends c
  | _ => True

section Reads

variable (ends : UInt8 → Bool)

mutual

/-- The values the parser reads. -/
def Doc.Reads : Doc → Prop
  | .string pieces => ∀ piece ∈ pieces, piece.Reads
  | .number n => n.Reads
  | .literal _ => True
  | .emptyObject inner => Blank inner
  | .object members => members.Reads
  | .array elements => elements.Reads

def Elements.Reads : Elements → Prop
  | .close inner => Blank inner
  | .last before d after =>
      Blank before ∧ d.Reads ∧ Blank after ∧ d.Follows ends (after ++ [rightBracket])
  | .more before d after others =>
      Blank before ∧ d.Reads ∧ Blank after ∧ d.Follows ends (after ++ [comma]) ∧ others.Reads

def Members.Reads : Members → Prop
  | .last before key middle before' d after =>
      Blank before ∧ (∀ piece ∈ key, piece.Reads) ∧ Blank middle ∧ Blank before' ∧ d.Reads ∧
        Blank after ∧ d.Follows ends (after ++ [rightBrace])
  | .more before key middle before' d after others =>
      Blank before ∧ (∀ piece ∈ key, piece.Reads) ∧ Blank middle ∧ Blank before' ∧ d.Reads ∧
        Blank after ∧ d.Follows ends (after ++ [comma]) ∧ others.Reads

end

end Reads

section Cells

variable (string : List Piece → List UInt8) (number : Numeral → Cell)

mutual

/-- The cell of a document, from what its strings and numbers stand for. -/
def Doc.cell : Doc → Cell
  | .string pieces => .string (string pieces)
  | .number n => number n
  | .literal l => l.cell
  | .emptyObject _ => .expression []
  | .object members => .expression members.cells
  | .array elements => .expression elements.cells

def Elements.cells : Elements → List Cell
  | .close _ => []
  | .last _ d _ => [d.cell]
  | .more _ d _ others => d.cell :: others.cells

def Members.cells : Members → List Cell
  | .last _ key _ _ d _ => [.expression [.string (string key), d.cell]]
  | .more _ key _ _ d _ others => .expression [.string (string key), d.cell] :: others.cells

end

end Cells

end NewLispNeo.Json
