/-
The printer: `printCell`, `printString`, `printExpression` and `prettyPrint`.
-/
import NewLispNeo.SymbolTable

namespace NewLispNeo

/-- A C string ends at its first zero byte. -/
def cString (text : List UInt8) : List UInt8 := text.takeWhile (· ≠ 0)

/-- White space. -/
def Blank (text : List UInt8) : Prop := ∀ b ∈ text, b ≤ ' '.toUInt8

/-- What the printer reads: the symbols, `stringOutputRaw`, the settings of
`pretty-print`, whose tab is white space, and the texts of the cells that are no
data (floats under their format, built-in functions, arrays). -/
structure Printing where
  table : SymbolTable
  stringOutputRaw : Bool
  prettyPrintTab : List UInt8
  blankTab : Blank prettyPrintTab
  prettyPrintMaxLength : Nat
  format : Cell → List UInt8

/-- The text printed so far and the `prettyPrint` counters; `double` and `string`
are the bits of `prettyPrintFlags`. -/
structure Printer where
  out : List UInt8
  length : Nat
  pars : Nat
  current : Nat
  double : Bool
  string : Bool

namespace Printer

def varPrintf (p : Printer) (format : List UInt8) : Printer :=
  let buffer := cString format
  { p with out := p.out ++ buffer, length := p.length + buffer.length }

/-- `varPrintf` on each of these. -/
def varPrintfs (p : Printer) (formats : List (List UInt8)) : Printer :=
  formats.foldl varPrintf p

def prettyPrint (env : Printing) (p : Printer) : Printer :=
  if p.double || p.string then p
  else
    let p := if 0 < p.pars then p.varPrintf [10] else p
    let p := p.varPrintfs (List.replicate p.pars env.prettyPrintTab)
    { p with length := p.pars, current := p.pars, double := true }

end Printer

/-- What `printString` prints for one byte. -/
def escapeByte (raw : Bool) (chr : UInt8) : List UInt8 :=
  if chr = 8 then [backslash, 'b'.toUInt8]
  else if chr = 12 then [backslash, 'f'.toUInt8]
  else if chr = 10 then [backslash, 'n'.toUInt8]
  else if chr = 13 then [backslash, 'r'.toUInt8]
  else if chr = 9 then [backslash, 't'.toUInt8]
  else if chr = backslash then [backslash, backslash]
  else if chr = doubleQuote then [backslash, doubleQuote]
  else if chr < 32 || (raw && 126 < chr) then
    backslash :: digitsFrom 3 chr.toNat
  else [chr]

def printString (env : Printing) (p : Printer) (str : List UInt8) : Printer :=
  if maxString ≤ str.length then
    let p := p.varPrintf (text "[text]")
    let p := p.varPrintfs (str.map fun chr => [chr])
    p.varPrintf (text "[/text]")
  else
    let p := p.varPrintf [doubleQuote]
    let p := p.varPrintfs (str.map (escapeByte env.stringOutputRaw))
    p.varPrintf [doubleQuote]

/-- `%s:%s`. -/
def qualified (context name : String) : List UInt8 :=
  nameBytes context ++ ':'.toUInt8 :: nameBytes name

/-- A symbol is printed with its context: it is in another one and would not be
found without, or it hides a global symbol. -/
def printsContext (T : SymbolTable) (s : Symbol) : Bool :=
  (s.context ≠ T.currentContext &&
    (!T.isGlobal s || T.has ⟨T.currentContext, s.name⟩) && !T.isContext s) ||
  (s.context = T.currentContext && T.currentContext ≠ SymbolTable.mainContext &&
    T.isGlobal ⟨SymbolTable.mainContext, s.name⟩)

/-- What is printed for a symbol. -/
def symbolText (T : SymbolTable) (s : Symbol) : List UInt8 :=
  if printsContext T s then qualified s.context s.name else nameBytes s.name

/-- `flags & PRINT_TYPE_MASK` of the symbol a list starts with. -/
def printType (T : SymbolTable) : List Cell → Nat
  | .symbol s :: _ => T.flags s &&& printTypeMask
  | _ => 0

/-- The lines above `switch` in `printExpression`. -/
def Printer.breakBefore (env : Printing) (p : Printer) : Printer :=
  if p.pars ≤ p.current ∨ env.prettyPrintMaxLength < p.length then
    p.prettyPrint env
  else p

/-- The opening of a list. -/
def Printer.openPar (p : Printer) (format : List UInt8) : Printer :=
  { p.varPrintf format with pars := p.pars + 1 }

/-- The end of a list. -/
def Printer.closePar (p : Printer) : Printer :=
  { p.varPrintf [')'.toUInt8] with pars := p.pars - 1 }

mutual

/-- `printCell`. -/
def printCell (env : Printing) (p : Printer) (printFlag : Bool) : Cell → Printer
  | .nil => { p.varPrintf (text "nil") with double := false }
  | .true_ => { p.varPrintf (text "true") with double := false }
  | .long n => { p.varPrintf (decimalInt n.toInt) with double := false }
  | .bigint n =>
      { p.varPrintf (n.toDigits ++ ['L'.toUInt8]) with double := false }
  | .string s =>
      if printFlag then { printString env p s with double := false }
      else { p.varPrintf s with double := false }
  | .symbol s | .context s =>
      { p.varPrintf (symbolText env.table s) with double := false }
  | .dynSymbol s name =>
      { p.varPrintf (qualified s.name name) with double := false }
  | .quote c =>
      let p := { p.varPrintf [apostrophe] with double := true }
      { printCell env p printFlag c with double := false }
  | .expression cs =>
      let p := p.breakBefore env
      let head := printType env.table cs
      let p :=
        if head ≠ 0 then (p.prettyPrint env).openPar ['('.toUInt8]
        else p.openPar ['('.toUInt8]
      let p := printItems env p (if head ≠ 0 then some head else none) cs
      { p.closePar with double := false }
  | .lambda _ cs =>
      let p := (p.breakBefore env).openPar (text "(lambda ")
      { (printItems env p none cs).closePar with double := false }
  | .fexpr cs =>
      let p := (p.breakBefore env).openPar (text "(lambda-macro ")
      { (printItems env p none cs).closePar with double := false }
  | c => { p.varPrintf (env.format c) with double := false }

/-- The two loops of `printExpression`: `some i` while `i` of the first items are
still to be printed on the line of the opening. -/
def printItems (env : Printing) (p : Printer) (head : Option Nat) :
    List Cell → Printer
  | [] => p
  | item :: items =>
      let (p, head) :=
        if head = some 0 then (p.prettyPrint env, none) else (p, head)
      match head with
      | none =>
          let p :=
            if env.prettyPrintMaxLength < p.length then p.prettyPrint env else p
          let p := printCell env p true item
          let p := if items = [] then p else p.varPrintf [' '.toUInt8]
          printItems env p none items
      | some i =>
          let p := printCell env p true item
          let p :=
            if items = [] then { p with double := true }
            else p.varPrintf [' '.toUInt8]
          printItems env p (some (i - 1)) items

end

end NewLispNeo
