/-
The tokenizer: `getToken` on the text of a string stream.  A stream is the text
from `stream->ptr` on, which holds no zero byte; its end is the zero byte that
ends a C string.
-/
import NewLispNeo.Digits

namespace NewLispNeo

/-- `MAX_STRING`, `MAX_SYMBOL` and `MAX_DIGITS` of newlisp.h. -/
def maxString : Nat := 2048
def maxSymbol : Nat := 1023
def maxDigits : Nat := 1001

abbrev doubleQuote : UInt8 := 34
abbrev apostrophe : UInt8 := 39
abbrev backslash : UInt8 := 92
abbrev leftBrace : UInt8 := 123
abbrev rightBrace : UInt8 := 125

/-- The bytes of a word. -/
def text (s : String) : List UInt8 := s.toList.map Char.toUInt8

/-- What depends on the locale: `lc_decimal_point`, which is a period, a comma or
the first byte of a character beyond ASCII, the C function `atof`, and
`stringOutputRaw`. -/
structure Locale where
  decimalPoint : UInt8
  isPoint : decimalPoint = '.'.toUInt8 ∨ decimalPoint = ','.toUInt8 ∨
    128 ≤ decimalPoint
  atof : List UInt8 → Binary64
  stringOutputRaw : Bool

/-- The errors of the reader. -/
inductive ReadError where
  | expression
  | missingPar
  | stringTooLong
  | textEndTag
  | symbolExpected
  | invalidLambda
deriving DecidableEq

/-- The `TKN_` constants, and the characters that are tokens. -/
inductive TokenType where
  | empty | error
  | hex | binary | octal | decimal | float
  | string | symbol | context
  | quote | leftPar | rightPar
deriving DecidableEq

/-- What `getToken` returns, writes to `token` and leaves of the stream. -/
structure Token where
  type : TokenType
  token : List UInt8
  ptr : List UInt8
deriving DecidableEq

/-- `*ptr`. -/
def peek (ptr : List UInt8) : UInt8 := ptr.headD 0

/-- The leading bytes with a property, at most so many. -/
def spanUpTo (p : UInt8 → Bool) : Nat → List UInt8 → List UInt8 × List UInt8
  | 0, ptr => ([], ptr)
  | _ + 1, [] => ([], [])
  | n + 1, b :: ptr =>
      if p b then
        let (tkn, ptr) := spanUpTo p n ptr
        (b :: tkn, ptr)
      else ([], b :: ptr)

/-- White space and comments are skipped. -/
def strip : Bool → List UInt8 → List UInt8
  | _, [] => []
  | true, b :: ptr =>
      if b = 10 ∨ b = 13 then strip false ptr else strip true ptr
  | false, b :: ptr =>
      if b ≤ ' '.toUInt8 then strip false ptr
      else if b = ';'.toUInt8 ∨ b = '#'.toUInt8 then strip true ptr
      else b :: ptr

def isOctal (b : UInt8) : Bool := '0'.toUInt8 ≤ b && b < '8'.toUInt8

def isBinary (b : UInt8) : Bool := b = '0'.toUInt8 || b = '1'.toUInt8

/-- `isxdigit`. -/
def isHex (b : UInt8) : Bool :=
  isDigit b || ('a'.toUInt8 ≤ b && b ≤ 'f'.toUInt8) ||
    ('A'.toUInt8 ≤ b && b ≤ 'F'.toUInt8)

/-- `toupper(*ptr) == upper`. -/
def isLetter (upper : Char) (b : UInt8) : Bool :=
  b = upper.toUInt8 || b = upper.toUInt8 + 32

/-- The digits of an exponent, after the byte at `ptr`, if there are any. -/
def scanExponentDigits (floatFlag : Bool) (tkn ptr : List UInt8) : Token :=
  if isDigit (peek ptr.tail) then
    let (ds, rest) := spanUpTo isDigit (maxSymbol - (tkn.length + 1)) ptr.tail
    ⟨.float, tkn ++ peek ptr :: ds, rest⟩
  else if floatFlag then ⟨.float, tkn, ptr⟩
  else ⟨.decimal, tkn, ptr⟩

/-- The exponent of a number, whose `e` is taken first if a sign follows. -/
def scanExponent (floatFlag : Bool) (tkn ptr : List UInt8) : Token :=
  let sign := peek ptr.tail
  if isLetter 'E' (peek ptr) then
    if isDigit (peek ptr.tail.tail) ∧ (sign = '-'.toUInt8 ∨ sign = '+'.toUInt8) then
      scanExponentDigits floatFlag (tkn ++ [peek ptr]) ptr.tail
    else scanExponentDigits floatFlag tkn ptr
  else ⟨.float, tkn, ptr⟩

/-- A number, after its sign. -/
def scanNumber (lc : Locale) (sign ptr : List UInt8) : Token :=
  if peek ptr = '0'.toUInt8 ∧ isDigit (peek ptr.tail) then
    ⟨.octal, sign ++ ptr.takeWhile isOctal, ptr.dropWhile isOctal⟩
  else
    let (ds, ptr) := spanUpTo isDigit (maxDigits - sign.length) ptr
    let tkn := sign ++ ds
    let zero := tkn.head? = some '0'.toUInt8
    if isLetter 'X' (peek ptr) ∧ zero then
      let (xs, rest) := spanUpTo isHex (maxDigits - (tkn.length + 1)) ptr.tail
      ⟨.hex, tkn ++ peek ptr :: xs, rest⟩
    else if isLetter 'B' (peek ptr) ∧ zero then
      let (bs, rest) := spanUpTo isBinary (maxDigits - (tkn.length + 1)) ptr.tail
      ⟨.binary, tkn ++ peek ptr :: bs, rest⟩
    else if peek ptr = lc.decimalPoint then
      let (fs, rest) := spanUpTo isDigit (maxDigits - (tkn.length + 1)) ptr.tail
      scanExponent true (tkn ++ peek ptr :: fs) rest
    else if isLetter 'E' (peek ptr) then scanExponent false tkn ptr
    else if peek ptr = 'L'.toUInt8 then ⟨.decimal, tkn ++ ['L'.toUInt8], ptr.tail⟩
    else ⟨.decimal, tkn, ptr⟩

/-- The value of a row of hexadecimal digits. -/
def hexValue (xs : List UInt8) : Nat :=
  xs.foldl (fun n b => 16 * n + (if isDigit b then b.toNat - 48
    else b.toNat % 32 + 9)) 0

/-- `wchar_utf8` of a character of 16 bits. -/
def wcharUtf8 (c : Nat) : List UInt8 :=
  if c ≤ 0x7f then [UInt8.ofNat c]
  else if c ≤ 0x7ff then [UInt8.ofNat (0xc0 + c / 64), UInt8.ofNat (0x80 + c % 64)]
  else [UInt8.ofNat (0xe0 + c / 4096), UInt8.ofNat (0x80 + c / 64 % 64),
    UInt8.ofNat (0x80 + c % 64)]

/-- What an escape stands for and how many bytes it takes after the backslash. -/
def escape (ptr : List UInt8) : List UInt8 × Nat :=
  let b := peek ptr
  let hex (n : Nat) := (ptr.tail.take n).length = n ∧ (ptr.tail.take n).all isHex
  if isDigit b ∧ isDigit (peek ptr.tail) ∧ isDigit (peek ptr.tail.tail) then
    ([UInt8.ofNat (textValue (ptr.take 3))], 3)
  else if b = 'n'.toUInt8 then ([10], 1)
  else if b = 'b'.toUInt8 then ([8], 1)
  else if b = 'f'.toUInt8 then ([12], 1)
  else if b = 'r'.toUInt8 then ([13], 1)
  else if b = 't'.toUInt8 then ([9], 1)
  else if b = 'x'.toUInt8 ∧ hex 2 then
    ([UInt8.ofNat (hexValue (ptr.tail.take 2))], 3)
  else if (b = 'x'.toUInt8 ∨ b = 'u'.toUInt8) ∧ hex 4 then
    (wcharUtf8 (hexValue (ptr.tail.take 4)), 5)
  else ([b], 1)

/-- A quoted string, after its first quote. -/
def scanString (tkn : List UInt8) : List UInt8 → Outcome ReadError Token
  | [] => .error .stringTooLong
  | b :: ptr =>
      if b = doubleQuote then .value ⟨.string, tkn, ptr⟩
      else if maxString ≤ tkn.length then .error .stringTooLong
      else if b = backslash then
        if ptr = [] then .error .stringTooLong
        else
          let (bytes, n) := escape ptr
          scanString (tkn ++ bytes) (ptr.drop n)
      else scanString (tkn ++ [b]) ptr
  termination_by ptr => ptr.length
  decreasing_by
    all_goals simp only [List.length_cons, List.length_drop]; omega

/-- A string in braces, after the first brace. -/
def scanBraces (balance : Nat) (tkn : List UInt8) :
    List UInt8 → Outcome ReadError Token
  | [] => .error .stringTooLong
  | b :: ptr =>
      if tkn.length < maxString then
        let balance :=
          if b = leftBrace then balance + 1
          else if b = rightBrace then balance - 1
          else balance
        if balance = 0 then .value ⟨.string, tkn, ptr⟩
        else scanBraces balance (tkn ++ [b]) ptr
      else if b = rightBrace then .value ⟨.string, tkn, ptr⟩
      else .error .stringTooLong

/-- A symbol in brackets, after the first bracket. -/
def scanBracket (tkn ptr : List UInt8) : Token :=
  let (cs, rest) := spanUpTo (· ≠ ']'.toUInt8) (maxSymbol - tkn.length) ptr
  if rest = [] then ⟨.error, tkn ++ cs, rest⟩
  else ⟨.symbol, tkn ++ cs ++ [']'.toUInt8], rest.tail⟩

/-- The bytes that a symbol goes on with. -/
def isSymbolChar (b : UInt8) : Bool :=
  ' '.toUInt8 < b && b ≠ doubleQuote && b ≠ apostrophe && b ≠ '('.toUInt8 &&
    b ≠ ')'.toUInt8 && b ≠ ':'.toUInt8 && b ≠ ','.toUInt8

/-- A symbol, or a context before a colon, after its first byte. -/
def scanSymbol (tkn ptr : List UInt8) : Token :=
  let (cs, rest) := spanUpTo isSymbolChar (maxSymbol - tkn.length) ptr
  if peek rest = ':'.toUInt8 then ⟨.context, tkn ++ cs, rest.tail⟩
  else ⟨.symbol, tkn ++ cs, rest⟩

/-- What starts with a byte that is no digit. -/
def scanOther (tkn : List UInt8) (chr : UInt8) (ptr : List UInt8) :
    Outcome ReadError Token :=
  if chr = doubleQuote then scanString tkn ptr
  else if chr = apostrophe then .value ⟨.quote, tkn ++ [chr], ptr⟩
  else if chr = '('.toUInt8 then .value ⟨.leftPar, tkn ++ [chr], ptr⟩
  else if chr = ')'.toUInt8 then .value ⟨.rightPar, tkn ++ [chr], ptr⟩
  else if chr = leftBrace then scanBraces 1 tkn ptr
  else if chr = ','.toUInt8 ∨ chr = ':'.toUInt8 then
    .value ⟨.symbol, tkn ++ [chr], ptr⟩
  else if chr = '['.toUInt8 then .value (scanBracket (tkn ++ [chr]) ptr)
  else .value (scanSymbol (tkn ++ [chr]) ptr)

/-- `getToken`. -/
def getToken (lc : Locale) (ptr : List UInt8) : Outcome ReadError Token :=
  match strip false ptr with
  | [] => .value ⟨.empty, [], []⟩
  | b :: rest =>
      let (sign, ptr) :=
        if (b = '-'.toUInt8 ∨ b = '+'.toUInt8) ∧
            (isDigit (peek rest) ∨ peek rest = lc.decimalPoint) then ([b], rest)
        else ([], b :: rest)
      if isDigit (peek ptr) ∨
          (peek ptr = lc.decimalPoint ∧ isDigit (peek ptr.tail)) then
        .value (scanNumber lc sign ptr)
      else scanOther sign (peek ptr) ptr.tail

end NewLispNeo
