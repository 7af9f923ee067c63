/-
The reader on text: what the cases of the `switch` in `compileExpression` make of the tokens
that `getToken` finds.
-/
import NewLispNeo.BufferSearch
import NewLispNeo.Reader
import NewLispNeo.SymbolTable

namespace NewLispNeo

/-- What is left of the text, and the symbols so far. -/
structure TextStream where
  ptr : List UInt8
  table : SymbolTable

/-- `LIMIT` -/
def textLimit : List UInt8 := text "[/text]"

/-- `readStreamText` on a stream that is no file. -/
def readStreamText (ptr : List UInt8) : Outcome ReadError (List UInt8 × List UInt8) :=
  if ptr.length < textLimit.length then .error .textEndTag
  else
    match BufferSearch.searchBuffer (ptr ++ [0]) ptr.length textLimit true with
    | .value (some findPos) =>
        .value (ptr.take findPos, ptr.drop (findPos + textLimit.length))
    | .value none => .error .textEndTag
    | .timeout => .timeout
    | _ => .undefined

section Numbers

/-- The value of a row of digits to the base 8 or 2. -/
def baseValue (base : Nat) (digits : List UInt8) : Nat :=
  digits.foldl (fun n b => base * n + (b.toNat - 48)) 0

/-- The number of a text with or without a sign. -/
def signedValue (value : List UInt8 → Nat) (token : List UInt8) : Int :=
  if token.head? = some '-'.toUInt8 then -(value token.tail)
  else if token.head? = some '+'.toUInt8 then value token.tail
  else value token

/-- What `strtoll` returns for a number. -/
def strtoll (n : Int) : Word := BitVec.ofInt 64 (max (-2 ^ 63) (min n (2 ^ 63 - 1)))

/-- And `strtoull`. -/
def strtoull (n : Nat) : Word := BitVec.ofNat 64 (min n (2 ^ 64 - 1))

/-- `TKN_DECIMAL`; `strtoll` sets `errno` where the number is out of range. -/
def decimalCell (token : List UInt8) : AtomCell :=
  let number := signedValue textValue token
  if token.getLast? = some 'L'.toUInt8 then ⟨.bigint (Bigint.ofText token), rfl⟩
  else if number < -2 ^ 63 ∨ 2 ^ 63 ≤ number then ⟨.bigint (Bigint.ofText token), rfl⟩
  else ⟨.long (strtoll number), rfl⟩

end Numbers

section Symbols

variable (T : SymbolTable)

/-- The symbol of a token that is not in front of a colon. -/
def readSymbol (token : List UInt8) : Symbol × SymbolTable :=
  if token.head? = some '$'.toUInt8 then
    let (s, T) := T.translateCreateSymbol (bytesName token) false SymbolTable.mainContext true
    (s, T.setGlobal s)
  else T.translateCreateSymbol (bytesName token) false T.currentContext false

/-- `contextPtr` for a token in front of a colon. -/
def readContext (token : List UInt8) : Symbol × SymbolTable :=
  let name := bytesName token
  if T.currentContext ≠ SymbolTable.mainContext ∧ T.currentContext = name then
    (⟨SymbolTable.mainContext, name⟩, T)
  else if T.currentContext ≠ SymbolTable.mainContext ∧ T.has ⟨T.currentContext, name⟩ then
    (⟨T.currentContext, name⟩, T)
  else T.translateCreateSymbol name true SymbolTable.mainContext true

/-- The symbol behind the colon. -/
def readQualified (contextPtr : Symbol) (token : List UInt8) : AtomCell × SymbolTable :=
  if T.isContext contextPtr then
    let (s, T) := T.translateCreateSymbol (bytesName token) false contextPtr.name true
    (⟨.symbol s, rfl⟩, T)
  else (⟨.dynSymbol contextPtr (bytesName token), rfl⟩, T)

end Symbols

/-- A token as `compileExpression` takes it. -/
def readLexeme (lc : Locale) (T : SymbolTable) (t : Token) :
    Outcome ReadError (Option Lexeme × TextStream) :=
  let atom (newCell : AtomCell) : Outcome ReadError (Option Lexeme × TextStream) :=
    .value (some (.atom newCell), ⟨t.ptr, T⟩)
  match t.type with
  | .empty => .value (none, ⟨t.ptr, T⟩)
  | .error => .error .expression
  | .hex => atom ⟨.long (strtoull (hexValue (t.token.drop 2))), rfl⟩
  | .binary => atom ⟨.long (strtoull (baseValue 2 (t.token.drop 2))), rfl⟩
  | .octal => atom ⟨.long (strtoll (signedValue (baseValue 8) t.token)), rfl⟩
  | .decimal => atom (decimalCell t.token)
  | .float => atom ⟨.float (lc.atof t.token), rfl⟩
  | .string => atom ⟨.string t.token, rfl⟩
  | .symbol =>
      if t.token = text "lambda" ∨ t.token = text "fn" then
        .value (some (.keyword .lambda), ⟨t.ptr, T⟩)
      else if t.token = text "lambda-macro" ∨ t.token = text "fn-macro" then
        .value (some (.keyword .fexpr), ⟨t.ptr, T⟩)
      else if (text "[text]").isPrefixOf t.token then do
        let (string, ptr) ← readStreamText t.ptr
        .value (some (.atom ⟨.string string, rfl⟩), ⟨ptr, T⟩)
      else
        let (s, T) := readSymbol T t.token
        .value (some (.atom ⟨.symbol s, rfl⟩), ⟨t.ptr, T⟩)
  | .context => do
      let (contextPtr, T) := readContext T t.token
      let t ← getToken lc t.ptr
      if t.type ≠ .symbol then .error .symbolExpected
      else
        let (newCell, T) := readQualified T contextPtr t.token
        .value (some (.atom newCell), ⟨t.ptr, T⟩)
  | .quote => .value (some .quote, ⟨t.ptr, T⟩)
  | .leftPar => .value (some .leftPar, ⟨t.ptr, T⟩)
  | .rightPar => .value (some .rightPar, ⟨t.ptr, T⟩)

/-- A text as a stream.  No symbol is a macro. -/
def textSource (lc : Locale) : TokenSource TextStream where
  next s := do
    let t ← getToken lc s.ptr
    readLexeme lc s.table t
  atEnd s := s.ptr.isEmpty
  expand := .value

end NewLispNeo
