/-
Values in a page of shared memory: `readWriteShared` and `readWriteSharedExpression` of
nl-filesys.c, with the files for texts that are longer than the page.
-/
import NewLispNeo.PackRuns
import NewLispNeo.ReadBack

namespace NewLispNeo

namespace Share

open Pack (lowBytes bytesValue length_lowBytes bytesValue_lowBytes)

inductive ShareError where
  | illegalType
  | read (e : ReadError)

/-- The first word of the page: the type of a cell, `CELL_STRING | SHARED_MEM_EVAL_MASK`, or
anything else. -/
inductive PageType where
  | nil | true_ | long | float | string | evalString | other
deriving DecidableEq

/-- The two words at the start, and the bytes from `address + 2` to the end of the page. -/
structure Page where
  type : PageType
  size : Nat
  bytes : List UInt8

/-- The page and the files by their paths. -/
structure State where
  page : Page
  files : List UInt8 → Option (List UInt8)

/-- What the functions use of the interpreter; `atoms` is the number of cells that the reader
takes for an atom. -/
structure Setting where
  printing : Printing
  locale : Locale
  tempDir : List UInt8
  pathMax : Nat
  atoms : AtomCell → Nat

/-- `pagesize - 3 * sizeof(INT)` -/
def Page.limit (page : Page) : Nat := page.bytes.length - 8

/-- Bytes are copied into the page, and not behind it. -/
def Page.put (page : Page) (offset : Nat) (data : List UInt8) : Outcome ShareError Page :=
  if offset + data.length ≤ page.bytes.length then
    .value { page with
      bytes := page.bytes.take offset ++ data ++ page.bytes.drop (offset + data.length) }
  else .undefined

/-- The C string at `address + 2`. -/
def Page.text (page : Page) : Outcome ShareError (List UInt8) :=
  if 0 ∈ page.bytes then .value (cString page.bytes) else .undefined

/-- `checkDeleteShareFile`, which is called only for a page with a text. -/
def checkDeleteShareFile (s : State) : Outcome ShareError State :=
  if s.page.type = .evalString ∧ text "/tmp/nls-" <+: s.page.bytes then do
    let path ← s.page.text
    .value (if path.length = 45 then { s with files := Function.update s.files path none } else s)
  else .value s

section Write

variable (S : Setting)

/-- A value that is written, with the state of the printer and what `getUUID` returns then. -/
structure Writing where
  cell : Cell
  printer : Printer
  uuid : List UInt8

/-- The text of the value: `printCell` to a stream, under `PRETTYPRINT_STRING`. -/
def Writing.out (w : Writing) : List UInt8 :=
  (printCell S.printing { w.printer with out := [], string := true } true w.cell).out

/-- The file of a long text, whose path is left in the page. -/
def writeShareFile (w : Writing) (s : State) : Outcome ShareError State := do
  let s ← checkDeleteShareFile s
  let page := { s.page with bytes := List.replicate s.page.bytes.length 0 }
  let n := S.pathMax - 16
  let dir := S.tempDir.take n
  let page ← page.put 0 (dir ++ List.replicate (n - dir.length) 0)
  let page ← page.put dir.length (text "/nls-" ++ [0])
  let page ← page.put (dir.length + 5) (w.uuid ++ [0])
  let path ← page.text
  .value ⟨page, Function.update s.files path (some (w.out S))⟩

/-- The text itself, where it fits. -/
def writeShareText (w : Writing) (s : State) : Outcome ShareError State :=
  if s.page.size < s.page.limit then do
    let page ← s.page.put 0 (w.out S)
    let page ← page.put s.page.size [0]
    .value { s with page := page }
  else writeShareFile S w s

/-- `readWriteSharedExpression` with an argument -/
def writeSharedExpression (w : Writing) (s : State) : Outcome ShareError State := do
  let s ← writeShareText S w { s with page := { s.page with size := (w.out S).length } }
  .value { s with page := { s.page with type := .evalString } }

/-- A number of eight bytes. -/
def writeSharedWord (type : PageType) (v : Nat) (s : State) : Outcome ShareError State := do
  let page ← s.page.put 0 (lowBytes 8 v)
  .value { s with page := { page with type := type, size := 8 } }

/-- The `switch` of `readWriteShared`. -/
def writeSharedCell (w : Writing) (s : State) : Outcome ShareError State :=
  match w.cell with
  | .nil => .value { s with page := { s.page with type := .nil } }
  | .true_ => .value { s with page := { s.page with type := .true_ } }
  | .long n => writeSharedWord .long n.toNat s
  | .float x => writeSharedWord .float x.bits.toNat s
  | .string str =>
      if s.page.limit < str.length then writeSharedExpression S w s
      else do
        let page ← s.page.put 0 str
        let page ← page.put str.length [0]
        .value { s with page := { page with type := .string, size := str.length } }
  | _ => .error .illegalType

/-- `readWriteShared` with an argument -/
def writeShared (w : Writing) (s : State) : Outcome ShareError State := do
  let s ← checkDeleteShareFile s
  if 4 < compareType w.cell then writeSharedExpression S w s else writeSharedCell S w s

end Write

section Read

variable (S : Setting) (room fuel : Nat)

/-- `sysEvalString` under `READ_EXPR_SYNC`: the first expression of the text. -/
def readFirst (ptr : List UInt8) : Outcome ShareError Cell :=
  match compileExpression ((textSource S.locale).withRoom S.atoms) fuel ⟨.quote, []⟩
      (⟨ptr, S.printing.table⟩, room) 0 with
  | .value r => .value (if r.result then r.cell.cells.head?.getD .nil else .nil)
  | .error e => .error (.read e)
  | .undefined => .undefined
  | .timeout => .timeout

/-- `readWriteSharedExpression` without an argument -/
def readSharedExpression (s : State) : Outcome ShareError Cell := do
  let ptr ← s.page.text
  if s.page.size < s.page.limit then readFirst S room fuel ptr
  else
    match s.files ptr with
    | some buffer => readFirst S room fuel (cString buffer)
    | none => .value .nil

/-- `readWriteShared` without an argument -/
def readShared (s : State) : Outcome ShareError Cell :=
  match s.page.type with
  | .nil => .value .nil
  | .true_ => .value .true_
  | .long => .value (.long (BitVec.ofNat 64 (bytesValue (s.page.bytes.take 8))))
  | .float => .value (.float ⟨BitVec.ofNat 64 (bytesValue (s.page.bytes.take 8))⟩)
  | .string =>
      if s.page.size + 1 ≤ s.page.bytes.length then
        .value (.string (s.page.bytes.take s.page.size))
      else .undefined
  | .evalString => readSharedExpression S room fuel s
  | .other => .value .nil

end Read

end Share

end NewLispNeo
