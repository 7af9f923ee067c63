/-
The reader: `compileExpression`.  What `getToken` and the cases of the switch make
of the next token is left to a source of lexemes, so that the nesting of lists and
quotes can be studied on token sequences as well as on text.
-/
import NewLispNeo.Token

namespace NewLispNeo

/-- `lambda` and `fn`, and `lambda-macro` and `fn-macro`. -/
inductive Keyword where
  | lambda
  | fexpr
deriving DecidableEq

/-- The cells that are read from a single token or from a context and a symbol. -/
def isAtom : Cell → Bool
  | .long _ | .bigint _ | .float _ | .string _ | .symbol _ | .dynSymbol _ _ => true
  | _ => false

abbrev AtomCell := {cell : Cell // isAtom cell = true}

/-- What a token is to `compileExpression`. -/
inductive Lexeme where
  | atom (newCell : AtomCell)
  | quote
  | leftPar
  | rightPar
  | keyword (k : Keyword)

/-- A stream: its next lexeme, none for `TKN_EMPTY`; whether `*(stream->ptr)` is 0;
and what macro expansion makes of a list. -/
structure TokenSource (σ : Type) where
  next : σ → Outcome ReadError (Option Lexeme × σ)
  atEnd : σ → Bool
  expand : Cell → Outcome ReadError Cell

inductive EnvelopeType where
  | quote | expression | lambda | fexpr
deriving DecidableEq

/-- The cell that is being filled, with what is linked in it so far. -/
structure Envelope where
  type : EnvelopeType
  cells : List Cell

def Envelope.cell : Envelope → Cell
  | ⟨.quote, cells⟩ => .quote (cells.head?.getD .nil)
  | ⟨.expression, cells⟩ => .expression cells
  | ⟨.lambda, cells⟩ => .lambda none cells
  | ⟨.fexpr, cells⟩ => .fexpr cells

def Keyword.type : Keyword → EnvelopeType
  | .lambda => .lambda
  | .fexpr => .fexpr

def Keyword.cell (k : Keyword) (cells : List Cell) : Cell :=
  (⟨k.type, cells⟩ : Envelope).cell

/-- `cell->type = CELL_LAMBDA`, where `cell` is the envelope as long as nothing is
linked in it and then the cell linked last. -/
def Envelope.mark (k : Keyword) (cell : Envelope) : Outcome ReadError Envelope :=
  match cell.cells.getLast? with
  | none =>
      if cell.type = .expression then .value { cell with type := k.type }
      else .error .invalidLambda
  | some (.expression cells) =>
      .value { cell with cells := cell.cells.dropLast ++ [k.cell cells] }
  | some _ => .error .invalidLambda

/-- What a call returns and leaves: its result, the envelope, the stream and
`parStackCounter`. -/
structure Reading (σ : Type) where
  result : Bool
  cell : Envelope
  stream : σ
  parStackCounter : Nat

variable {σ : Type}

/-- From `linkCell` on: the end of the call, or back to `GETNEXT`. -/
def linkCell (source : TokenSource σ)
    (getNext : Envelope → σ → Nat → Outcome ReadError (Reading σ))
    (cell : Envelope) (newCell : Cell) (stream : σ) (parStackCounter : Nat) :
    Outcome ReadError (Reading σ) :=
  let linked := { cell with cells := cell.cells ++ [newCell] }
  if cell.type = .quote ∧ cell.cells = [] then
    .value ⟨true, linked, stream, parStackCounter⟩
  else if parStackCounter ≠ 0 then
    if source.atEnd stream then .error .missingPar
    else getNext linked stream parStackCounter
  else .value ⟨false, linked, stream, parStackCounter⟩

/-- `compileExpression`, from `GETNEXT` on. -/
def compileExpression (source : TokenSource σ) :
    Nat → Envelope → σ → Nat → Outcome ReadError (Reading σ)
  | 0, _, _, _ => .timeout
  | fuel + 1, cell, stream, parStackCounter => do
      let (token, stream) ← source.next stream
      match token with
      | none =>
          if parStackCounter ≠ 0 then .error .missingPar
          else .value ⟨false, cell, stream, parStackCounter⟩
      | some (.atom newCell) =>
          linkCell source (compileExpression source fuel) cell newCell stream parStackCounter
      | some (.keyword k) => do
          let cell ← cell.mark k
          compileExpression source fuel cell stream parStackCounter
      | some .quote => do
          let inner ← compileExpression source fuel ⟨.quote, []⟩ stream parStackCounter
          linkCell source (compileExpression source fuel) cell inner.cell.cell inner.stream
            inner.parStackCounter
      | some .leftPar => do
          let inner ←
            compileExpression source fuel ⟨.expression, []⟩ stream (parStackCounter + 1)
          let newCell ← source.expand inner.cell.cell
          linkCell source (compileExpression source fuel) cell newCell inner.stream
            inner.parStackCounter
      | some .rightPar =>
          if parStackCounter = 0 then .error .missingPar
          else .value ⟨true, cell, stream, parStackCounter - 1⟩

/-- Where the next token cannot be read. -/
theorem compileExpression_undefined {source : TokenSource σ} {stream : σ}
    (h : source.next stream = .undefined) (fuel : Nat) (cell : Envelope) (n : Nat) :
    compileExpression source (fuel + 1) cell stream n = .undefined := by
  rw [compileExpression, h]
  rfl

/-- How many cells are taken for a token; those of an atom are its own and the ones of
the symbols that are made for it. -/
def Lexeme.cells (atoms : AtomCell → Nat) : Lexeme → Nat
  | .atom newCell => atoms newCell
  | .quote | .leftPar => 1
  | .rightPar | .keyword _ => 0

/-- The cells of a read are taken from the nursery, while the open envelopes and the
cells linked last are held by C variables only: once a full nursery has been collected
they are lost.  The stream goes with the number of cells that can be taken before that,
never more than the nursery has. -/
def TokenSource.withRoom (source : TokenSource σ) (atoms : AtomCell → Nat) :
    TokenSource (σ × Nat) where
  next s := do
    let (token, stream) ← source.next s.1
    match token with
    | none => .value (none, (stream, s.2))
    | some token =>
        if token.cells atoms ≤ s.2 then
          .value (some token, (stream, s.2 - token.cells atoms))
        else .undefined
  atEnd s := source.atEnd s.1
  expand := source.expand

theorem TokenSource.withRoom_next {source : TokenSource σ} {atoms : AtomCell → Nat}
    {token : Lexeme} {s stream : σ} {room : Nat}
    (h : source.next s = .value (some token, stream)) (hroom : token.cells atoms ≤ room) :
    (source.withRoom atoms).next (s, room) =
      .value (some token, (stream, room - token.cells atoms)) := by
  change (source.next s >>= _) = _
  rw [h]
  exact if_pos hroom

/-- A sequence of tokens as a stream.  No symbol is a macro. -/
def tokenSource : TokenSource (List Lexeme) where
  next
    | [] => .value (none, [])
    | token :: tokens => .value (some token, tokens)
  atEnd := List.isEmpty
  expand := .value

end NewLispNeo
