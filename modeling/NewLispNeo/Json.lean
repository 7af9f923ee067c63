/-
The JSON parser of nl-xml-json.c.  A pointer is the bytes from it on, up to and with the
terminating zero; behind that zero nothing is known.
-/
import NewLispNeo.Cell
import NewLispNeo.Digits
import NewLispNeo.Utf8

namespace NewLispNeo.Json

section Bytes

def space : UInt8 := 32
def tab : UInt8 := 9
def newline : UInt8 := 10
def formFeed : UInt8 := 12
def carriageReturn : UInt8 := 13
def backspace : UInt8 := 8
def quote : UInt8 := 34
def backslash : UInt8 := 92
def slash : UInt8 := 47
def colon : UInt8 := 58
def comma : UInt8 := 44
def period : UInt8 := 46
def plus : UInt8 := 43
def minus : UInt8 := 45
def leftBrace : UInt8 := 123
def rightBrace : UInt8 := 125
def leftBracket : UInt8 := 91
def rightBracket : UInt8 := 93

/-- The bytes of a text of ASCII characters. -/
def ascii (text : String) : List UInt8 := text.toList.map fun c => UInt8.ofNat c.toNat

end Bytes

/-- The texts of `setJSONerror`. -/
inductive JsonError where
  | missingBrace | missingColon | invalidObject | missingKey | closingQuote | invalidUnicode
  | invalidNumber | invalidArray | invalidValue
deriving DecidableEq

def JsonError.text : JsonError → String
  | .missingBrace => "missing \x7b"
  | .missingColon => "missing : colon"
  | .invalidObject => "invalid JSON object"
  | .missingKey => "missing key"
  | .closingQuote => "missing closing quote"
  | .invalidUnicode => "invalid unicode"
  | .invalidNumber => "invalid JSON number format"
  | .invalidArray => "invalid JSON array format"
  | .invalidValue => "invalid JSON value format"

/-- What a parsing function does: it returns what it has read and the pointer behind it,
records an error at a pointer, or reads behind the end of the input. -/
inductive Parsed (α : Type) where
  | ok (a : α) (rest : List UInt8)
  | error (e : JsonError) (jsonStr : List UInt8)
  | overrun
  | timeout

namespace Parsed

variable {α β : Type}

/-- Go on behind what has been read. -/
def andThen (x : Parsed α) (f : α → List UInt8 → Parsed β) : Parsed β :=
  match x with
  | ok a rest => f a rest
  | error e jsonStr => error e jsonStr
  | overrun => overrun
  | timeout => timeout

def map (f : α → β) (x : Parsed α) : Parsed β := x.andThen fun a rest => ok (f a) rest

end Parsed

/-- `while((unsigned char)*jsonStr <= ' ' && *jsonStr != 0) ++jsonStr`. -/
def skip : List UInt8 → List UInt8
  | [] => []
  | c :: p => if c ≤ space ∧ c ≠ 0 then skip p else c :: p

/-- The first loop of `getJSONstring`, behind the first quote: the token and the pointer
behind its last quote. -/
def scanToken : List UInt8 → Parsed (List UInt8)
  | [] => .overrun
  | c :: p =>
      if c = quote then .ok [] p
      else if c = 0 then .error .closingQuote p
      else if c = backslash then
        match p with
        | [] => .overrun
        | d :: p => (scanToken p).map fun token => c :: d :: token
      else (scanToken p).map (c :: ·)

/-- `isxdigit`. -/
def isHexDigit (b : UInt8) : Bool := isDigit b || (97 ≤ b && b ≤ 102) || (65 ≤ b && b ≤ 70)

def hexDigit (b : UInt8) : Nat :=
  if isDigit b then b.toNat - 48 else if 97 ≤ b then b.toNat - 87 else b.toNat - 55

/-- `strtol` over the four digits of an escape. -/
def hexNumber (a b c d : UInt8) : Nat :=
  4096 * hexDigit a + 256 * hexDigit b + 16 * hexDigit c + hexDigit d

/-- The byte that an escape of one letter stands for. -/
def escapeByte (c : UInt8) : UInt8 :=
  if c = 98 then backspace
  else if c = 102 then formFeed
  else if c = 110 then newline
  else if c = 114 then carriageReturn
  else if c = 116 then tab
  else c

/-- The second loop of `getJSONstring`; `none` at a `\u` without four digits. -/
def xlate : List UInt8 → Option (List UInt8)
  | [] => some []
  | [c] => some [if c = backslash then quote else c]
  | c :: d :: token =>
      if c = backslash then
        if d = 117 then
          match token with
          | x :: y :: z :: u :: token =>
              if isHexDigit x && isHexDigit y && isHexDigit z && isHexDigit u then
                (xlate token).map (Utf8.wcharUtf8 (hexNumber x y z u) ++ ·)
              else none
          | _ => none
        else (xlate token).map (escapeByte d :: ·)
      else (xlate (d :: token)).map (c :: ·)

/-- `getJSONstring`. -/
def getJSONstring (jsonStr : List UInt8) : Parsed (List UInt8) :=
  match skip jsonStr with
  | [] => .overrun
  | c :: p =>
      if c = quote then
        (scanToken p).andThen fun token rest =>
          match xlate token with
          | some xlated => .ok xlated rest
          | none => .error .invalidUnicode rest
      else .error .missingKey (c :: p)

/-- `atof` and `atoll`, of the C library. -/
structure Numbers where
  atof : List UInt8 → Binary64

/-- The value of a text of a sign and digits. -/
def integerOf (text : List UInt8) : Int :=
  match text with
  | c :: ds => if c = minus then -(textValue ds : Int) else if c = plus then textValue ds
      else textValue (c :: ds)
  | [] => 0

/-- `atoll`: a number beyond 64 bits is clamped. -/
def atoll (text : List UInt8) : Word :=
  if 2 ^ 63 ≤ integerOf text then BitVec.ofInt 64 (2 ^ 63 - 1)
  else if integerOf text < -2 ^ 63 then BitVec.ofInt 64 (-2 ^ 63)
  else BitVec.ofInt 64 (integerOf text)

/-- What may stand behind a number. -/
def endsNumber (c : UInt8) : Bool :=
  c = space || c = newline || c = tab || c = formFeed || c = comma || c = rightBrace ||
    c = rightBracket || c = 0

/-- A `.` and digits, if there are any: the bytes taken, and whether they make a float. -/
def scanFraction : List UInt8 → List UInt8 × List UInt8 × Bool
  | c :: p =>
      if c = period then (c :: p.takeWhile isDigit, p.dropWhile isDigit, true)
      else ([], c :: p, false)
  | [] => ([], [], false)

/-- An `e`, a sign and digits, if there are any; `none` without the digits. -/
def scanExponent : List UInt8 → Option (List UInt8 × List UInt8 × Bool) × List UInt8
  | c :: p =>
      if c = 101 ∨ c = 69 then
        let (sign, q) :=
          match p with
          | s :: q => if s = minus ∨ s = plus then ([s], q) else ([], s :: q)
          | [] => ([], [])
        match q with
        | d :: _ =>
            if isDigit d then
              (some (c :: sign ++ q.takeWhile isDigit, q.dropWhile isDigit, true), q)
            else (none, q)
        | [] => (none, q)
      else (some ([], c :: p, false), c :: p)
  | [] => (some ([], [], false), [])

/-- A number in `getJSONvalue`, from its sign or first digit on. -/
def getJSONnumber (nums : Numbers) (first : UInt8) (p : List UInt8) : Parsed Cell :=
  let digits := p.takeWhile isDigit
  let (fraction, q, isFloat) := scanFraction (p.dropWhile isDigit)
  match scanExponent q with
  | (none, q) =>
      match q with
      | [] => .overrun
      | _ => .error .invalidNumber q
  | (some (exponent, rest, isFloat'), _) =>
      let number := first :: digits ++ fraction ++ exponent
      match rest with
      | [] => .overrun
      | c :: _ =>
          if !endsNumber c then .error .invalidNumber rest
          else if 1024 < number.length then .error .invalidNumber rest
          else if isFloat || isFloat' then .ok (.float (nums.atof number)) rest
          else .ok (.long (atoll number)) rest

/-- `isDigit(*jsonStr)`, or a sign and `isDigit(*(jsonStr + 1))`. -/
def startsNumber (c : UInt8) (p : List UInt8) : Bool :=
  isDigit c || ((c = minus || c = plus) && p.head?.any isDigit)

def falseSymbol : Symbol := ⟨"MAIN", "false"⟩
def nullSymbol : Symbol := ⟨"MAIN", "null"⟩

/-- `true`, `false` or `null`; each case of the `switch` falls through to the next. -/
def getJSONliteral (jsonStr : List UInt8) : Parsed Cell :=
  if ascii "true" <+: jsonStr then .ok (.symbol trueSymbol) (jsonStr.drop 4)
  else if ascii "false" <+: jsonStr then .ok (.symbol falseSymbol) (jsonStr.drop 5)
  else if ascii "null" <+: jsonStr then .ok (.symbol nullSymbol) (jsonStr.drop 4)
  else .error .invalidValue jsonStr

mutual

/-- `getJSONvalue`. -/
def getJSONvalue (nums : Numbers) : Nat → List UInt8 → Parsed Cell
  | 0, _ => .timeout
  | fuel + 1, jsonStr =>
      match skip jsonStr with
      | [] => .overrun
      | c :: p =>
          if c = quote then (getJSONstring (c :: p)).map .string
          else if startsNumber c p then getJSONnumber nums c p
          else if c = leftBrace then (getJSONobject nums fuel p).map .expression
          else if c = leftBracket then (getJSONarray nums fuel p).map .expression
          else getJSONliteral (c :: p)

/-- `GET_ARRAY_ELEMENT`, behind the bracket or the comma. -/
def getJSONarray (nums : Numbers) : Nat → List UInt8 → Parsed (List Cell)
  | 0, _ => .timeout
  | fuel + 1, jsonStr =>
      match skip jsonStr with
      | [] => .overrun
      | c :: p =>
          if c = rightBracket then .ok [] p
          else
            (getJSONvalue nums fuel (c :: p)).andThen fun cell ptr =>
              match skip ptr with
              | [] => .overrun
              | d :: q =>
                  if d = comma then (getJSONarray nums fuel q).map (cell :: ·)
                  else if d = rightBracket then .ok [cell] q
                  else .error .invalidArray (d :: q)

/-- `getJSONobject`, behind the brace. -/
def getJSONobject (nums : Numbers) : Nat → List UInt8 → Parsed (List Cell)
  | 0, _ => .timeout
  | fuel + 1, jsonStr =>
      match skip jsonStr with
      | [] => .overrun
      | c :: p =>
          if c = rightBrace then .ok [] p
          else getJSONpairs nums fuel (c :: p)

/-- `GET_PAIR`. -/
def getJSONpairs (nums : Numbers) : Nat → List UInt8 → Parsed (List Cell)
  | 0, _ => .timeout
  | fuel + 1, jsonStr =>
      (getJSONstring jsonStr).andThen fun key ptr =>
        match skip ptr with
        | [] => .overrun
        | c :: p =>
            if c = colon then
              (getJSONvalue nums fuel p).andThen fun cell ptr =>
                let pair := .expression [.string key, cell]
                match skip ptr with
                | [] => .overrun
                | d :: q =>
                    if d = rightBrace then .ok [pair] q
                    else if d = comma then (getJSONpairs nums fuel q).map (pair :: ·)
                    else .error .invalidObject (d :: q)
            else .error .missingColon (c :: p)

end

/-- `p_JSONparse` on a string: the parser runs over its bytes and the zero behind them. -/
def p_JSONparse (nums : Numbers) (s : List UInt8) : Parsed Cell :=
  getJSONvalue nums (2 * s.length + 3) (s ++ [0])

end NewLispNeo.Json
