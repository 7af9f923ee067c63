/-
`replace` in a string.  The matches are collected first, each with the value of the
replacement, and then spliced into a new buffer.
-/
import NewLispNeo.Effect
import NewLispNeo.FileSearch
import NewLispNeo.Leftmost

namespace NewLispNeo

namespace StringReplace

open Leftmost (Match Pattern)

/-- What a search in a string shares with the expressions it evaluates: `$count`, `$it`,
the variables `$0`, `$1` and so on, and the rest of the interpreter. -/
structure Session (W : Type) where
  count : Nat
  it : Cell
  sys : Nat → Cell
  world : W

/-- `evaluateExpression`, and the error that `regexError` raises.  The expressions leave the
memory of the string alone that is searched. -/
structure StringEvaluator (W ε : Type) where
  evaluateExpression : Cell → Effect ε (Session W) Cell
  regexError : Int → ε

/-- The bytes from `start` to `stop`. -/
def slice (subject : List UInt8) (start stop : Nat) : List UInt8 :=
  (subject.drop start).take (stop - start)

/-! ### Regular expressions -/

/-- What `pcre_exec` finds in a subject, of which it takes the length as an `int`.  With
the UTF-8 option the subject has to be valid, and a search to start between two
characters.  The groups are the strings of `$1`, `$2` and so on. -/
structure Regex (subject : List UInt8) extends Pattern (List (List UInt8)) where
  size_eq : size = subject.length
  size_lt : size < 2 ^ 31
  valid : Bool
  boundary : Nat → Bool
  boundary_zero : boundary 0 = true
  boundary_stop : ∀ {p q : Nat} {g : List (List UInt8)},
    matchAt p = some (q, g) → boundary q = true
  boundary_end : ∀ {p : Nat}, size ≤ p → boundary p = true

/-- `rc` and the first two elements of `ovector`. -/
inductive PcreResult where
  | matched (m : Match (List (List UInt8)))
  | noMatch
  | error (rc : Int)

/-- `pcre_exec`, which returns `PCRE_ERROR_BADUTF8` and `PCRE_ERROR_BADUTF8_OFFSET`. -/
def pcre_exec {subject : List UInt8} (R : Regex subject) (offset : Nat) : PcreResult :=
  if R.valid = false then .error (-10)
  else if R.boundary offset = false then .error (-11)
  else
    match R.leftmost offset with
    | some m => .matched m
    | none => .noMatch

variable {W ε : Type}

namespace Session

/-- `sysSymbol[idx]` for the strings of a match. -/
def setStrings (s : Session W) (strings : List (List UInt8)) : Session W :=
  { s with sys := fun idx => (strings[idx]?.map Cell.string).getD (s.sys idx) }

/-- `countCell->contents++` -/
def countUp (s : Session W) : Session W := { s with count := s.count + 1 }

/-- `itSymbol->contents = sysSymbol[0]->contents` -/
def setIt (s : Session W) : Session W := { s with it := s.sys 0 }

end Session

/-- The strings that `$0`, `$1` and so on are set to. -/
def strings (subject : List UInt8) (m : Match (List (List UInt8))) : List (List UInt8) :=
  slice subject m.start m.stop :: m.groups

section Code

variable {subject : List UInt8} (I : StringEvaluator W ε)

/-- `searchBufferRegex` -/
def searchBufferRegex (R : Regex subject) (offset : Nat) :
    Effect ε (Session W) (Option (Match (List (List UInt8)))) := fun s =>
  match pcre_exec R offset with
  | .noMatch => .value none s
  | .error rc => .error (I.regexError rc) s
  | .matched m => .value (some m) (s.setStrings (strings subject m))

/-- The key and, for a regular expression, whether `REPLACE_ONCE` is set. -/
inductive Key (subject : List UInt8) where
  | plain (key : List UInt8)
  | regex (R : Regex subject) (once : Bool)

/-- `searchBuffer` from `offset` on.  The memory ends with the zero behind the subject; the
first byte of an empty key is its own terminating zero. -/
def searchPlain (key subject : List UInt8) (offset : Nat) : Outcome Error (Option Nat) :=
  if key = [] then .value ((subject.drop offset).findIdx? fun b => b = 0)
  else
    FileSearch.searchBuffer key (subject.length - offset) 0 (subject.drop offset ++ [0])

/-- One search of `replaceString`. -/
def search (offset : Nat) :
    Key subject → Effect ε (Session W) (Option (Match (List (List UInt8))))
  | .plain key => fun s =>
      match searchPlain key subject offset with
      | .value none => .value none s
      | .value (some p) => .value (some ⟨offset + p, offset + p + key.length, []⟩) s
      | .error _ => .undefined
      | .undefined => .undefined
      | .timeout => .timeout
  | .regex R _ => fun s =>
      (searchBufferRegex I R offset >>= fun found => fun s =>
        .value found s.setIt) s

/-- The C struct `REGEX`, whose numbers are of type `int`. -/
structure Edit where
  offset : Int
  length : Int
  repStr : List UInt8
  repLen : Int

/-- A size as an `int`. -/
def toInt (n : Nat) : Int := (n : Int).bmod (2 ^ 32)

/-- The bytes that come into the place of a match: its own, when the value of the
replacement is no string. -/
def replacement (subject : List UInt8) (m : Match (List (List UInt8))) : Cell → List UInt8
  | .string contents => contents
  | _ => slice (subject ++ [0]) m.start m.stop

/-- The entry for a match.  The copy of the replacement is allocated with the length that
is stored. -/
def newEdit (subject : List UInt8) (m : Match (List (List UInt8))) (cell : Cell) :
    Effect ε (Session W) Edit := fun s =>
  let repStr := replacement subject m cell
  if toInt repStr.length = repStr.length then
    .value ⟨toInt m.start, toInt (m.stop - m.start), repStr, toInt repStr.length⟩ s
  else .undefined

/-- What the first loop of `replaceString` has come to. -/
structure Collected where
  offset : Nat
  bias : Nat
  edits : List Edit
  oldLen : Int
  newLen : Int

/-- The variables behind one more match. -/
def Collected.add (c : Collected) (m : Match (List (List UInt8))) (e : Edit) : Collected :=
  let keyLen := m.stop - m.start
  let bias := if keyLen = 0 then 1 else 0
  { offset := m.stop + bias
    bias := bias
    edits := c.edits ++ [e]
    oldLen := c.oldLen + keyLen
    newLen := c.newLen + e.repLen }

/-- `options & REPLACE_ONCE` -/
def Key.once : Key subject → Bool
  | .plain _ => false
  | .regex _ once => once

/-- `while(offset <= buffLen)` -/
def collect (key : Key subject) (exprCell : Cell) :
    Nat → Collected → Effect ε (Session W) Collected
  | 0, _ => fun _ => .timeout
  | fuel + 1, c =>
      if subject.length < c.offset then pure c
      else
        search I c.offset key >>= fun found =>
          match found with
          | none => pure c
          | some m => fun s =>
              (I.evaluateExpression exprCell >>= fun cell =>
                newEdit subject m cell >>= fun e =>
                  if key.once then pure (c.add m e)
                  else collect key exprCell fuel (c.add m e)) s.countUp

/-- `memcpy` of `n` bytes between two places, where both have to have them. -/
def memcpy (dest : List UInt8) (destPos : Int) (src : List UInt8) (srcPos n : Int) :
    Option (List UInt8) :=
  if 0 ≤ destPos ∧ 0 ≤ srcPos ∧ 0 ≤ n ∧ destPos + n ≤ dest.length ∧ srcPos + n ≤ src.length then
    some (dest.take destPos.toNat ++ (src.drop srcPos.toNat).take n.toNat ++
      dest.drop (destPos + n).toNat)
  else none

/-- `while(start_rx != NULL)`, with the offset `count` into the new buffer. -/
def spliceEdits (subject : List UInt8) :
    List Edit → Int → List UInt8 → Option (Int × List UInt8)
  | [], count, newBuff => some (count, newBuff)
  | e :: edits, count, newBuff => do
      let newBuff ← memcpy newBuff count (e.repStr ++ [0]) 0 e.repLen
      let count := count + e.repLen
      match edits with
      | [] => some (count, newBuff)
      | next :: _ =>
          let repLen := next.offset - e.offset - e.length
          let newBuff ← memcpy newBuff count (subject ++ [0]) (e.offset + e.length) repLen
          spliceEdits subject edits (count + repLen) newBuff

/-- A new string: its buffer, the length that was computed for it, and the number of bytes
that were written. -/
structure NewString where
  buffer : List UInt8
  newLen : Int
  written : Int

/-- The second half of `replaceString`. -/
def splice (subject : List UInt8) (c : Collected) (first : Edit) : Option NewString :=
  let newLen : Int := subject.length - c.oldLen + c.newLen
  if newLen < 0 then none
  else do
    let newBuff := List.replicate (newLen + 1).toNat 0
    let newBuff ← memcpy newBuff 0 (subject ++ [0]) 0 first.offset
    let (count, newBuff) ← spliceEdits subject c.edits first.offset newBuff
    let rest : Int := subject.length - c.offset + c.bias
    let newBuff ← memcpy newBuff count (subject ++ [0]) (c.offset - c.bias) rest
    some ⟨newBuff, newLen, count + rest⟩

/-- `replaceString`, which returns `NULL` when there is no match. -/
def replaceString (fuel : Nat) (key : Key subject) (exprCell : Cell) :
    Effect ε (Session W) (Option NewString) := fun s =>
  (collect I key exprCell fuel ⟨0, 0, [], 0, 0⟩ >>= fun c => fun s =>
    match c.edits with
    | [] => .value none s
    | first :: _ =>
        match splice subject c first with
        | none => .undefined
        | some new => .value (some new) { s with count := c.edits.length, it := .nil })
    { s with count := 0 }

end Code

/-! ### What `replace` should do -/

/-- Where a key stands in a subject. -/
def keyPattern (key subject : List UInt8) : Pattern (List (List UInt8)) where
  size := subject.length
  matchAt p :=
    if p ≤ subject.length ∧ key <+: subject.drop p then some (p + key.length, []) else none
  bounds := by
    intro p q g h
    split at h
    · rename_i hp
      cases h
      have hlen := hp.2.length_le
      rw [List.length_drop] at hlen
      omega
    · cases h

variable {subject : List UInt8}

/-- The matches that are to be replaced: all of them, or the first one. -/
def Key.replaced : Key subject → List (Match (List (List UInt8)))
  | .plain key => (keyPattern key subject).successive 0
  | .regex R once => if once then (R.successive 0).take 1 else R.successive 0

/-- What the replacement finds when it is evaluated for a match. -/
def Key.enter (key : Key subject) (m : Match (List (List UInt8)))
    (s : Session W) : Session W :=
  match key with
  | .plain _ => s.countUp
  | .regex _ _ => ((s.setStrings (strings subject m)).setIt).countUp

/-- The replacement is evaluated once for each match in order. -/
def evaluateMatches (I : StringEvaluator W ε) (key : Key subject) (exprCell : Cell) :
    List (Match (List (List UInt8))) →
      Effect ε (Session W) (List (Match (List (List UInt8)) × Cell))
  | [] => pure []
  | m :: ms => fun s =>
      (I.evaluateExpression exprCell >>= fun cell =>
        evaluateMatches I key exprCell ms >>= fun pairs =>
          pure ((m, cell) :: pairs)) (key.enter m s)

/-- The subject from `offset` on with the matches replaced by their values. -/
def spliced (subject : List UInt8) :
    Nat → List (Match (List (List UInt8)) × Cell) → List UInt8
  | offset, [] => subject.drop offset
  | offset, (m, cell) :: pairs =>
      slice subject offset m.start ++ replacement subject m cell ++ spliced subject m.stop pairs

/-- `$it` when nothing was found. -/
def Key.missed (key : Key subject) (s : Session W) : Session W :=
  match key with
  | .plain _ => s
  | .regex _ _ => s.setIt

/-- The values of the replacement in the places of the matches, of which `$count` is the
number. -/
def expected (I : StringEvaluator W ε) (key : Key subject) (exprCell : Cell)
    (ms : List (Match (List (List UInt8)))) : Effect ε (Session W) (Option NewString) := fun s =>
  (evaluateMatches I key exprCell ms >>= fun pairs => fun s =>
    if ms = [] then .value none (key.missed s)
    else
      let text := spliced subject 0 pairs
      .value (some ⟨text ++ [0], text.length, text.length⟩)
        { s with count := ms.length, it := .nil })
    { s with count := 0 }

/-- Strings that are shorter than an `int` can tell. -/
def StringEvaluator.ShortStrings (I : StringEvaluator W ε) : Prop :=
  ∀ exprCell s contents s', I.evaluateExpression exprCell s = .value (.string contents) s' →
    contents.length < 2 ^ 31

/-- `replaceString` replaces the matches `ms`, whatever the replacement does. -/
def ReplacesExactly (key : Key subject)
    (ms : List (Match (List (List UInt8)))) : Prop :=
  ∀ (W ε : Type) (I : StringEvaluator W ε), I.ShortStrings → ∀ exprCell s, ∃ fuel₀, ∀ fuel,
    fuel₀ ≤ fuel →
      replaceString I fuel key exprCell s = expected I key exprCell ms s

/-- All matches are replaced, or the first one with the option for that. -/
def Replaces (key : Key subject) : Prop := ReplacesExactly key key.replaced

/-- The start and the length of a match as an `int`. -/
def ShortMatch (m : Match (List (List UInt8))) : Prop :=
  m.start < 2 ^ 31 ∧ m.stop - m.start < 2 ^ 31

/-- At `p` the comparison takes in the zero behind the subject: the key is the rest with the
zero, or it begins like the rest and is longer still. -/
def Overruns (key subject : List UInt8) (p : Nat) : Prop :=
  p < subject.length ∧
    (key = subject.drop p ++ [0] ∨
      (subject.drop p).head? = key.head? ∧ (subject.drop p ++ [0]).length < key.length)

instance (key subject : List UInt8) (p : Nat) : Decidable (Overruns key subject p) :=
  inferInstanceAs (Decidable (_ ∧ _))

/-- When `replaceString` does so.  Behind the last match no comparison with a key may overrun,
and behind an empty match there has to be the start of a character. -/
def Key.Safe : Key subject → Prop
  | .plain key => key ≠ [] ∧
      (∀ p, (((keyPattern key subject).successive 0).getLast?.map Match.stop).getD 0 ≤ p →
        ¬ Overruns key subject p) ∧
      ∀ m ∈ (keyPattern key subject).successive 0, ShortMatch m
  | .regex R once => R.valid = true ∧
      (once = false → ∀ m ∈ R.successive 0, m.start = m.stop → R.boundary (m.stop + 1) = true)

end StringReplace

end NewLispNeo
