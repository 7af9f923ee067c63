/-
`readStreamLine`: lines are put together in a string stream from the chunks that `fgets`
returns.
-/
import NewLispNeo.Cell
import Mathlib.Data.List.Basic

namespace NewLispNeo

namespace LineReading

/-- `MAX_STRING`. -/
def maxString : Nat := 2048

def lf : UInt8 := 0x0A
def cr : UInt8 := 0x0D

/-- A `STREAM` for a string.  Its `ptr` is always `buffer + position`. -/
structure Stream where
  buffer : List UInt8
  position : Nat
  size : Nat

/-- `strlen` of a buffer with a zero in it. -/
def strlen (memory : List UInt8) : Nat := (memory.takeWhile (· ≠ 0)).length

/-- `openStrStream` with the reopen flag. -/
def openStrStream (stream : Option Stream) (buffSize : Nat) : Stream :=
  match stream with
  | some stream =>
      if buffSize = stream.size then
        ⟨List.replicate buffSize 0 ++ stream.buffer.drop buffSize, 0, stream.size⟩
      else ⟨List.replicate (buffSize + 1) 0, 0, buffSize⟩
  | none => ⟨List.replicate (buffSize + 1) 0, 0, buffSize⟩

/-- `while(newPosition >= stream->size) stream->size += stream->size / 2;` -/
def grownSize (newPosition size : Nat) : Nat :=
  if size ≤ newPosition ∧ 2 ≤ size then grownSize newPosition (size + size / 2) else size
termination_by newPosition + 1 - size

/-- The part of `writeStreamStr` that makes room up to `newPosition`. -/
def Stream.makeRoom (stream : Stream) (newPosition : Nat) : Stream :=
  if stream.size ≤ newPosition then
    let size := grownSize newPosition stream.size
    { stream with
      size := size
      buffer := stream.buffer.take stream.position ++
        List.replicate (size + 1 - stream.position) 0 }
  else stream

/-- `writeStreamStr`.  A size below two never grows. -/
def writeStreamStr (stream : Stream) (buff : List UInt8) (length : Nat) :
    Outcome Error Stream :=
  let length := if length = 0 then strlen buff else length
  let newPosition := stream.position + length
  if stream.size ≤ newPosition ∧ stream.size < 2 then .timeout
  else
    let stream := stream.makeRoom newPosition
    if newPosition ≤ stream.buffer.length ∧ length ≤ buff.length then
      .value { stream with
        buffer := stream.buffer.take stream.position ++ buff.take length ++
          stream.buffer.drop newPosition
        position := newPosition }
    else .undefined

/-- A `FILE` that is read: the bytes that are left, and the flag of `feof`. -/
structure Input where
  rest : List UInt8
  eof : Bool

/-- At most `count` bytes, up to the first line feed. -/
def lineChunk : Nat → List UInt8 → List UInt8
  | 0, _ => []
  | _ + 1, [] => []
  | count + 1, chr :: rest => if chr = lf then [chr] else chr :: lineChunk count rest

/-- `fgets`: the buffer up to its terminating zero. -/
def fgets (count : Nat) (file : Input) : Option (List UInt8) × Input :=
  if file.eof ∨ file.rest = [] then (none, { file with eof := true })
  else
    let chunk := lineChunk (count - 1) file.rest
    (some (chunk ++ [0]), ⟨file.rest.drop chunk.length,
      chunk.length < count - 1 ∧ chunk.getLast? ≠ some lf⟩)

/-- The loop of `readStreamLine`.  The byte below the buffer is not one to be read. -/
def readLoop : Nat → Stream → Input → Outcome Error (Stream × Input)
  | 0, _, _ => .timeout
  | fuel + 1, stream, file =>
      match fgets maxString file with
      | (none, file) => .value (stream, file)
      | (some buff, file) =>
          let l := strlen buff
          if l = 0 then .undefined
          else if buff[l - 1]? = some lf then
            let l := l - 1
            if l = 0 then .undefined
            else
              let l := if buff[l - 1]? = some cr then l - 1 else l
              writeStreamStr stream (buff.take l ++ [0]) l >>= fun stream =>
                .value (stream, file)
          else writeStreamStr stream buff l >>= fun stream => readLoop fuel stream file

/-- `readStreamLine`: the buffer or `NULL`. -/
def readStreamLine (fuel : Nat) (stream : Option Stream) (inStream : Input) :
    Outcome Error (Option (List UInt8) × Stream × Input) :=
  readLoop fuel (openStrStream stream maxString) inStream >>= fun (stream, inStream) =>
    if inStream.eof ∧ stream.position = 0 then
      .value (none, stream, { inStream with eof := false })
    else .value (some stream.buffer, stream, { inStream with eof := false })

/-- `stuffString`: the bytes before the first zero. -/
def stuffString (memory : List UInt8) : Outcome Error (List UInt8) :=
  if 0 ∈ memory then .value (memory.takeWhile (· ≠ 0)) else .undefined

/-- Calls of `readStreamLine` until there is no line. -/
def readLines : Nat → Option Stream → Input → Outcome Error (List (List UInt8) × Input)
  | 0, _, _ => .timeout
  | fuel + 1, stream, file =>
      readStreamLine fuel stream file >>= fun (line, stream, file) =>
        match line with
        | none => .value ([], file)
        | some memory =>
            stuffString memory >>= fun text =>
              readLines fuel (some stream) file >>= fun (texts, file) =>
                .value (text :: texts, file)

/-! ### The lines of a text -/

/-- A line, with a line feed behind it or the end of the text. -/
inductive Line where
  | ended (body : List UInt8)
  | last (body : List UInt8)
deriving DecidableEq

namespace Line

def cons (chr : UInt8) : Line → Line
  | ended body => ended (chr :: body)
  | last body => last (chr :: body)

/-- A line without its terminator. -/
def text : Line → List UInt8
  | ended body => if body.getLast? = some cr then body.dropLast else body
  | last body => body

end Line

def splitLines : List UInt8 → List Line
  | [] => []
  | chr :: rest =>
      if chr = lf then .ended [] :: splitLines rest
      else
        match splitLines rest with
        | [] => [.last [chr]]
        | line :: lines => line.cons chr :: lines

/-- The buffer of a stream that was opened before ends in a zero. -/
def Stream.Terminated (stream : Stream) : Prop := stream.buffer.drop stream.size = [0]

/-- The calls return the lines in order, and nothing of the text is left. -/
def ReadsLines (content : List UInt8) : Prop :=
  ∀ stream : Option Stream, (∀ s, stream = some s → s.Terminated) →
    ∃ fuel₀, ∀ fuel, fuel₀ ≤ fuel →
      readLines fuel stream ⟨content, false⟩ =
        .value ((splitLines content).map Line.text, ⟨[], false⟩)

/-- No line that ends in a line feed is empty, or a number of full chunks long. -/
def Aligned (content : List UInt8) : Prop :=
  ∀ body, .ended body ∈ splitLines content → body.length % (maxString - 1) ≠ 0

section Lines

variable {body rest : List UInt8}

theorem splitLines_cons (chr : UInt8) (rest : List UInt8) :
    splitLines (chr :: rest) =
      if chr = lf then .ended [] :: splitLines rest
      else
        match splitLines rest with
        | [] => [.last [chr]]
        | line :: lines => line.cons chr :: lines := rfl

theorem splitLines_ended (hbody : lf ∉ body) (rest : List UInt8) :
    splitLines (body ++ lf :: rest) = .ended body :: splitLines rest := by
  induction body with
  | nil => rw [List.nil_append, splitLines_cons, if_pos rfl]
  | cons chr body ih =>
      rw [List.mem_cons, not_or] at hbody
      rw [List.cons_append, splitLines_cons, if_neg (Ne.symm hbody.1), ih hbody.2]
      rfl

theorem splitLines_last (hbody : lf ∉ body) (hne : body ≠ []) :
    splitLines body = [.last body] := by
  induction body with
  | nil => exact absurd rfl hne
  | cons chr body ih =>
      rw [List.mem_cons, not_or] at hbody
      rw [splitLines_cons, if_neg (Ne.symm hbody.1)]
      cases body with
      | nil => rfl
      | cons chr' body =>
          rw [ih hbody.2 (by simp)]
          rfl

/-- A text begins with a line that ends in a line feed, or it is one line. -/
theorem first_line (content : List UInt8) :
    (∃ body rest, lf ∉ body ∧ content = body ++ lf :: rest) ∨ lf ∉ content := by
  by_cases hmem : lf ∈ content
  · obtain ⟨body, rest, rfl, hbody⟩ := List.eq_append_cons_of_mem hmem
    exact .inl ⟨body, rest, hbody, rfl⟩
  · exact .inr hmem

end Lines

/-! ### Chunks -/

section Chunks

variable {count : Nat} {body rest : List UInt8}

theorem lineChunk_succ (count : Nat) (chr : UInt8) (rest : List UInt8) :
    lineChunk (count + 1) (chr :: rest) =
      if chr = lf then [chr] else chr :: lineChunk count rest := rfl

theorem lineChunk_take (hbody : lf ∉ body) (hle : count ≤ body.length) (rest : List UInt8) :
    lineChunk count (body ++ rest) = body.take count := by
  induction body generalizing count with
  | nil =>
      obtain rfl : count = 0 := by simpa using hle
      rfl
  | cons chr body ih =>
      rw [List.mem_cons, not_or] at hbody
      cases count with
      | zero => rfl
      | succ count =>
          rw [List.cons_append, lineChunk_succ, if_neg (Ne.symm hbody.1), List.take_succ_cons,
            ih hbody.2 (Nat.le_of_succ_le_succ hle)]

theorem lineChunk_ended (hbody : lf ∉ body) (hlt : body.length < count)
    (rest : List UInt8) : lineChunk count (body ++ lf :: rest) = body ++ [lf] := by
  induction body generalizing count with
  | nil =>
      cases count with
      | zero => simp at hlt
      | succ count => rw [List.nil_append, lineChunk_succ, if_pos rfl, List.nil_append]
  | cons chr body ih =>
      rw [List.mem_cons, not_or] at hbody
      cases count with
      | zero => simp at hlt
      | succ count =>
          rw [List.cons_append, lineChunk_succ, if_neg (Ne.symm hbody.1),
            ih hbody.2 (Nat.lt_of_succ_lt_succ hlt), List.cons_append]

theorem lineChunk_last (hbody : lf ∉ body) (hle : body.length ≤ count) :
    lineChunk count body = body := by
  induction body generalizing count with
  | nil => cases count <;> rfl
  | cons chr body ih =>
      rw [List.mem_cons, not_or] at hbody
      cases count with
      | zero => simp at hle
      | succ count =>
          rw [lineChunk_succ, if_neg (Ne.symm hbody.1), ih hbody.2 (Nat.le_of_succ_le_succ hle)]

theorem strlen_append (hbody : 0 ∉ body) (rest : List UInt8) :
    strlen (body ++ 0 :: rest) = body.length := by
  have hall : ∀ c ∈ body, decide (c ≠ 0) = true := by
    intro c hc
    exact decide_eq_true fun hzero => hbody (hzero ▸ hc)
  rw [strlen, List.takeWhile_append_of_pos hall, List.takeWhile_cons_of_neg (by simp),
    List.append_nil]

end Chunks

/-! ### The string stream -/

section Streams

variable {stream : Stream} {data bytes : List UInt8}

/-- The stream holds these bytes, and zeros behind them. -/
structure Stream.Holds (stream : Stream) (data : List UInt8) : Prop where
  buffer : stream.buffer = data ++ List.replicate (stream.size + 1 - data.length) 0
  position : stream.position = data.length
  room : data.length < stream.size
  grows : 2 ≤ stream.size

theorem grownSize_spec (newPosition : Nat) {size : Nat} (hsize : 2 ≤ size) :
    newPosition < grownSize newPosition size ∧ 2 ≤ grownSize newPosition size := by
  fun_induction grownSize newPosition size with
  | case1 size h ih => exact ih (by omega)
  | case2 size h => exact ⟨by omega, hsize⟩

theorem Stream.Holds.terminated (h : stream.Holds data) : stream.Terminated := by
  have hroom := h.room
  rw [Stream.Terminated, h.buffer, List.drop_append, List.drop_of_length_le h.room.le,
    List.nil_append, List.drop_replicate]
  have hone : stream.size + 1 - data.length - (stream.size - data.length) = 1 := by omega
  rw [hone]
  rfl

theorem openStrStream_holds (stream : Option Stream)
    (h : ∀ s, stream = some s → s.Terminated) :
    (openStrStream stream maxString).Holds [] := by
  have hfresh : Stream.Holds ⟨List.replicate (maxString + 1) 0, 0, maxString⟩ [] :=
    ⟨rfl, rfl, by decide, by decide⟩
  cases stream with
  | none => exact hfresh
  | some s =>
      rw [openStrStream]
      by_cases hsize : maxString = s.size
      · have hdrop := h s rfl
        rw [Stream.Terminated, ← hsize] at hdrop
        rw [if_pos hsize, hdrop, ← hsize]
        refine ⟨?_, rfl, by decide, by decide⟩
        rw [List.length_nil, Nat.sub_zero, List.nil_append, List.replicate_succ']
      · rw [if_neg hsize]
        exact hfresh

theorem Stream.Holds.makeRoom (h : stream.Holds data) (newPosition : Nat) :
    (stream.makeRoom newPosition).Holds data ∧
      newPosition < (stream.makeRoom newPosition).size := by
  rw [Stream.makeRoom]
  by_cases hfull : stream.size ≤ newPosition
  · rw [if_pos hfull]
    obtain ⟨hroom, hgrows⟩ := grownSize_spec newPosition h.grows
    have htake : stream.buffer.take data.length = data := by
      rw [h.buffer, List.take_left]
    refine ⟨⟨?_, h.position, ?_, hgrows⟩, hroom⟩
    · simp only [h.position, htake]
    · exact (h.room.trans_le hfull).trans hroom
  · rw [if_neg hfull]
    exact ⟨h, Nat.lt_of_not_le hfull⟩

/-- `writeStreamStr` puts the bytes behind what the stream holds. -/
theorem writeStreamStr_holds (h : stream.Holds data) (hbytes : 0 ∉ bytes)
    (rest : List UInt8) : ∃ stream',
      writeStreamStr stream (bytes ++ 0 :: rest) bytes.length = .value stream' ∧
      stream'.Holds (data ++ bytes) := by
  have hlength : (if bytes.length = 0 then strlen (bytes ++ 0 :: rest) else bytes.length) =
      bytes.length := by
    rw [strlen_append hbytes, ite_self]
  have hgrows : ¬ (stream.size ≤ stream.position + bytes.length ∧ stream.size < 2) := by
    have := h.grows
    omega
  obtain ⟨hholds, hroom⟩ := h.makeRoom (stream.position + bytes.length)
  have hsize : (stream.makeRoom (stream.position + bytes.length)).buffer.length =
      (stream.makeRoom (stream.position + bytes.length)).size + 1 := by
    have hlt := hholds.room
    rw [hholds.buffer, List.length_append, List.length_replicate]
    omega
  rw [writeStreamStr]
  simp only [hlength]
  rw [if_neg hgrows, if_pos ⟨by omega, by rw [List.length_append]; omega⟩]
  refine ⟨_, rfl, ?_, ?_, ?_, hholds.grows⟩
  · simp only [List.take_left, hholds.position, List.length_append]
    rw [hholds.buffer, List.take_left, h.position, List.drop_append,
      List.drop_of_length_le (by omega), List.nil_append, List.drop_replicate]
    congr 2
    omega
  · rw [List.length_append, h.position]
  · rw [List.length_append, ← h.position]
    exact hroom

end Streams

/-! ### Rounds of the loop -/

section Rounds

variable {stream : Stream} {data body rest : List UInt8} {fuel : Nat}

/-- A chunk of a line that goes on. -/
theorem fgets_full (hbody : lf ∉ body) (hle : maxString - 1 ≤ body.length) :
    fgets maxString ⟨body ++ rest, false⟩ =
      (some (body.take (maxString - 1) ++ [0]), ⟨body.drop (maxString - 1) ++ rest, false⟩) := by
  have hpos : 0 < maxString - 1 := by decide
  have hne : body ++ rest ≠ [] := by
    rw [Ne, List.append_eq_nil_iff]
    rintro ⟨rfl, -⟩
    rw [List.length_nil] at hle
    omega
  have hlength : (body.take (maxString - 1)).length = maxString - 1 :=
    List.length_take_of_le hle
  rw [fgets, if_neg (by simp [hne])]
  simp only [lineChunk_take hbody hle, hlength, lt_irrefl, false_and, decide_false]
  rw [List.drop_append_of_le_length hle]

/-- The last chunk of a line. -/
theorem fgets_ended (rest : List UInt8) (hbody : lf ∉ body) (hlt : body.length < maxString - 1) :
    fgets maxString ⟨body ++ lf :: rest, false⟩ =
      (some (body ++ [lf] ++ [0]), ⟨rest, false⟩) := by
  have hsplit : body ++ lf :: rest = (body ++ [lf]) ++ rest := by
    rw [List.append_assoc, List.singleton_append]
  have hlast : (body ++ [lf]).getLast? = some lf := by
    rw [List.getLast?_append, List.getLast?_singleton, Option.some_or]
  rw [fgets, if_neg (by simp)]
  simp only [lineChunk_ended hbody hlt, hlast, ne_eq, not_true_eq_false, and_false,
    decide_false]
  rw [hsplit, List.drop_left]

/-- The last chunk of the text. -/
theorem fgets_last (hbody : lf ∉ body) (hne : body ≠ []) (hlt : body.length < maxString - 1) :
    fgets maxString ⟨body, false⟩ = (some (body ++ [0]), ⟨[], true⟩) := by
  have hlast : body.getLast? ≠ some lf := fun hlf => hbody (List.mem_of_getLast? hlf)
  rw [fgets, if_neg (by simp [hne])]
  simp only [lineChunk_last hbody hlt.le, List.drop_length, hlt, hlast, ne_eq,
    not_false_eq_true, and_self, decide_true]

theorem readLoop_none {file : Input} (h : file.eof = true ∨ file.rest = []) :
    readLoop (fuel + 1) stream file = .value (stream, { file with eof := true }) := by
  rw [readLoop, fgets, if_pos h]

/-- A chunk without a line feed goes to the stream. -/
theorem readLoop_chunk {file file' : Input} {chunk : List UInt8} (h : stream.Holds data)
    (hget : fgets maxString file = (some (chunk ++ [0]), file')) (hzero : 0 ∉ chunk)
    (hlf : lf ∉ chunk) (hne : chunk ≠ []) : ∃ stream', stream'.Holds (data ++ chunk) ∧
      ∀ fuel, readLoop (fuel + 1) stream file = readLoop fuel stream' file' := by
  obtain ⟨stream', hwrite, hholds⟩ := writeStreamStr_holds h hzero []
  refine ⟨stream', hholds, fun fuel => ?_⟩
  have hpos := List.length_pos_iff.mpr hne
  have hlast : (chunk ++ [0])[chunk.length - 1]? ≠ some lf := by
    rw [List.getElem?_append_left (by omega)]
    exact fun hget => hlf (List.mem_of_getElem? hget)
  rw [readLoop, hget]
  simp only [strlen_append hzero []]
  rw [if_neg (by omega), if_neg hlast, hwrite]
  rfl

theorem readLoop_full (rest : List UInt8) (h : stream.Holds data) (hzero : 0 ∉ body)
    (hbody : lf ∉ body) (hle : maxString - 1 ≤ body.length) :
    ∃ stream', stream'.Holds (data ++ body.take (maxString - 1)) ∧
      ∀ fuel, readLoop (fuel + 1) stream ⟨body ++ rest, false⟩ =
        readLoop fuel stream' ⟨body.drop (maxString - 1) ++ rest, false⟩ := by
  refine readLoop_chunk h (fgets_full hbody hle)
    (fun hmem => hzero (List.mem_of_mem_take hmem))
    (fun hmem => hbody (List.mem_of_mem_take hmem)) fun hempty => ?_
  have hlength := congrArg List.length hempty
  rw [List.length_take_of_le hle] at hlength
  exact absurd hlength (by decide)

/-- An empty line is a chunk of its own. -/
theorem readLoop_empty : readLoop (fuel + 1) stream ⟨lf :: rest, false⟩ = .undefined := by
  have hget : fgets maxString ⟨lf :: rest, false⟩ = (some ([lf] ++ [0]), ⟨rest, false⟩) :=
    fgets_ended rest List.not_mem_nil (by decide)
  have hlen : strlen ([lf] ++ [0]) = 1 := by decide
  rw [readLoop, hget]
  simp only [hlen]
  rfl

theorem text_ended (body : List UInt8) :
    (Line.ended body).text = body.take
      (if body[body.length - 1]? = some cr then body.length - 1 else body.length) := by
  rw [Line.text, List.getLast?_eq_getElem?]
  split_ifs
  · rw [List.dropLast_eq_take]
  · rw [List.take_length]

theorem readLoop_ended (rest : List UInt8) (h : stream.Holds data) (hzero : 0 ∉ body)
    (hbody : lf ∉ body) (hne : body ≠ []) (hlt : body.length < maxString - 1) :
    ∃ stream', stream'.Holds (data ++ (Line.ended body).text) ∧
      ∀ fuel, readLoop (fuel + 1) stream ⟨body ++ lf :: rest, false⟩ =
        .value (stream', ⟨rest, false⟩) := by
  have hpos := List.length_pos_iff.mpr hne
  have hlen : strlen (body ++ [lf] ++ [0]) = body.length + 1 := by
    rw [strlen_append]
    · rw [List.length_append, List.length_singleton]
    · rw [List.mem_append, List.mem_singleton]
      rintro (hmem | hmem)
      · exact hzero hmem
      · exact absurd hmem (by decide)
  have hfeed : (body ++ [lf] ++ [0])[body.length]? = some lf := by
    rw [List.append_assoc, List.getElem?_append_right le_rfl, Nat.sub_self]
    rfl
  have hbefore : (body ++ [lf] ++ [0])[body.length - 1]? = body[body.length - 1]? := by
    rw [List.append_assoc, List.getElem?_append_left (by omega)]
  obtain ⟨l, hl⟩ : ∃ l, l =
      if body[body.length - 1]? = some cr then body.length - 1 else body.length := ⟨_, rfl⟩
  have hle : l ≤ body.length := by
    rw [hl]
    split_ifs <;> omega
  have htake : (body ++ [lf] ++ [0]).take l = (Line.ended body).text := by
    rw [text_ended, ← hl, List.append_assoc, List.take_append_of_le_length hle]
  have hlength : (Line.ended body).text.length = l := by
    rw [text_ended, ← hl, List.length_take_of_le hle]
  have htext : 0 ∉ (Line.ended body).text := by
    rw [text_ended]
    exact fun hmem => hzero (List.mem_of_mem_take hmem)
  obtain ⟨stream', hwrite, hholds⟩ := writeStreamStr_holds h htext []
  refine ⟨stream', hholds, fun fuel => ?_⟩
  rw [readLoop, fgets_ended rest hbody hlt]
  simp only [hlen, Nat.add_sub_cancel]
  rw [if_neg (by omega), if_pos hfeed, if_neg (by omega), hbefore, ← hl, htake, ← hlength,
    hwrite]
  rfl

end Rounds

/-! ### Whole lines -/

section Runs

variable {stream : Stream} {data body rest content : List UInt8} {fuel : Nat}

theorem text_append {a b : List UInt8} (hne : b ≠ []) :
    (Line.ended (a ++ b)).text = a ++ (Line.ended b).text := by
  simp only [Line.text, List.getLast?_append_of_ne_nil a hne]
  split_ifs
  · rw [List.dropLast_append_of_ne_nil hne]
  · rfl

theorem readLoop_line (rest : List UInt8) (h : stream.Holds data) (hzero : 0 ∉ body)
    (hbody : lf ∉ body) (hfits : body.length % (maxString - 1) ≠ 0) :
    ∃ stream', stream'.Holds (data ++ (Line.ended body).text) ∧
      ∀ fuel, body.length < fuel →
        readLoop fuel stream ⟨body ++ lf :: rest, false⟩ = .value (stream', ⟨rest, false⟩) := by
  induction hk : body.length using Nat.strong_induction_on generalizing body stream data with
  | h k ih =>
      have hne : body ≠ [] := by
        rintro rfl
        exact hfits rfl
      by_cases hlt : body.length < maxString - 1
      · obtain ⟨stream', hholds, hrun⟩ := readLoop_ended rest h hzero hbody hne hlt
        refine ⟨stream', hholds, fun fuel hfuel => ?_⟩
        obtain ⟨fuel, rfl⟩ := Nat.exists_eq_succ_of_ne_zero (by omega : fuel ≠ 0)
        exact hrun fuel
      · have hle := Nat.le_of_not_lt hlt
        have hstep : 0 < maxString - 1 := by decide
        have hless : (body.drop (maxString - 1)).length < k := by
          rw [List.length_drop]
          omega
        have hrest : (body.drop (maxString - 1)).length % (maxString - 1) ≠ 0 := by
          rw [List.length_drop, ← Nat.mod_eq_sub_mod hle]
          exact hfits
        have hdrop : body.drop (maxString - 1) ≠ [] := by
          intro hempty
          rw [hempty] at hrest
          exact hrest rfl
        obtain ⟨stream₁, hholds₁, hrun₁⟩ := readLoop_full (lf :: rest) h hzero hbody hle
        obtain ⟨stream', hholds, hrun⟩ := ih _ hless hholds₁
          (fun hmem => hzero (List.mem_of_mem_drop hmem))
          (fun hmem => hbody (List.mem_of_mem_drop hmem)) hrest rfl
        refine ⟨stream', ?_, fun fuel hfuel => ?_⟩
        · rw [List.append_assoc, ← text_append hdrop, List.take_append_drop] at hholds
          exact hholds
        · obtain ⟨fuel, rfl⟩ := Nat.exists_eq_succ_of_ne_zero (by omega : fuel ≠ 0)
          rw [hrun₁, hrun fuel (by omega)]

/-- A line feed that is a chunk of its own is not read. -/
theorem readLoop_misaligned (h : stream.Holds data) (hzero : 0 ∉ body) (hbody : lf ∉ body)
    (hmod : body.length % (maxString - 1) = 0) (result : Stream × Input) :
    readLoop fuel stream ⟨body ++ lf :: rest, false⟩ ≠ .value result := by
  induction fuel generalizing body stream data with
  | zero => simp [readLoop]
  | succ fuel ih =>
      by_cases hne : body = []
      · subst hne
        rw [List.nil_append, readLoop_empty]
        simp
      · have hle : maxString - 1 ≤ body.length := by
          by_contra hlt
          rw [Nat.mod_eq_of_lt (Nat.lt_of_not_le hlt)] at hmod
          exact hne (List.length_eq_zero_iff.mp hmod)
        obtain ⟨stream', hholds, hrun⟩ := readLoop_full (lf :: rest) h hzero hbody hle
        rw [hrun]
        refine ih hholds (fun hmem => hzero (List.mem_of_mem_drop hmem))
          (fun hmem => hbody (List.mem_of_mem_drop hmem)) ?_
        rw [List.length_drop, ← Nat.mod_eq_sub_mod hle]
        exact hmod

theorem readLoop_end (h : stream.Holds data) (hzero : 0 ∉ body) (hbody : lf ∉ body) :
    ∃ stream', stream'.Holds (data ++ body) ∧ ∀ fuel, body.length + 1 < fuel →
      readLoop fuel stream ⟨body, false⟩ = .value (stream', ⟨[], true⟩) := by
  induction hk : body.length using Nat.strong_induction_on generalizing body stream data with
  | h k ih =>
      by_cases hne : body = []
      · subst hne
        refine ⟨stream, by rwa [List.append_nil], fun fuel hfuel => ?_⟩
        obtain ⟨fuel, rfl⟩ := Nat.exists_eq_succ_of_ne_zero (by omega : fuel ≠ 0)
        rw [readLoop_none (.inr rfl)]
      · by_cases hlt : body.length < maxString - 1
        · obtain ⟨stream', hholds, hrun⟩ :=
            readLoop_chunk h (fgets_last hbody hne hlt) hzero hbody hne
          refine ⟨stream', hholds, fun fuel hfuel => ?_⟩
          obtain ⟨fuel, rfl⟩ := Nat.exists_eq_add_of_le (by omega : 2 ≤ fuel)
          rw [Nat.add_comm 2 fuel, hrun, readLoop_none (.inl rfl)]
        · have hle := Nat.le_of_not_lt hlt
          have hstep : 0 < maxString - 1 := by decide
          have hless : (body.drop (maxString - 1)).length < k := by
            rw [List.length_drop]
            omega
          obtain ⟨stream₁, hholds₁, hrun₁⟩ := readLoop_full [] h hzero hbody hle
          obtain ⟨stream', hholds, hrun⟩ := ih _ hless hholds₁
            (fun hmem => hzero (List.mem_of_mem_drop hmem))
            (fun hmem => hbody (List.mem_of_mem_drop hmem)) rfl
          refine ⟨stream', ?_, fun fuel hfuel => ?_⟩
          · rwa [List.append_assoc, List.take_append_drop] at hholds
          · obtain ⟨fuel, rfl⟩ := Nat.exists_eq_succ_of_ne_zero (by omega : fuel ≠ 0)
            have hnext := hrun₁ fuel
            rw [List.append_nil, List.append_nil] at hnext
            rw [hnext, hrun fuel (by omega)]

theorem stuffString_holds (h : stream.Holds data) (hzero : 0 ∉ data) :
    stuffString stream.buffer = .value data := by
  have hroom := h.room
  obtain ⟨k, hk⟩ : ∃ k, stream.size + 1 - data.length = k + 1 :=
    ⟨stream.size - data.length, by omega⟩
  have hall : ∀ c ∈ data, decide (c ≠ 0) = true := by
    intro c hc
    exact decide_eq_true fun hz => hzero (hz ▸ hc)
  rw [stuffString, h.buffer, hk, List.replicate_succ, if_pos (by simp),
    List.takeWhile_append_of_pos hall, List.takeWhile_cons_of_neg (by simp), List.append_nil]

variable {opened : Option Stream}

theorem readStreamLine_line (rest : List UInt8) (hopened : ∀ s, opened = some s → s.Terminated)
    (hzero : 0 ∉ body) (hbody : lf ∉ body) (hfits : body.length % (maxString - 1) ≠ 0) :
    ∃ stream, stream.Holds (Line.ended body).text ∧ ∀ fuel, body.length < fuel →
      readStreamLine fuel opened ⟨body ++ lf :: rest, false⟩ =
        .value (some stream.buffer, stream, ⟨rest, false⟩) := by
  obtain ⟨stream, hholds, hrun⟩ :=
    readLoop_line rest (openStrStream_holds opened hopened) hzero hbody hfits
  refine ⟨stream, hholds, fun fuel hfuel => ?_⟩
  rw [readStreamLine, hrun fuel hfuel]
  rfl

theorem readStreamLine_last (hopened : ∀ s, opened = some s → s.Terminated)
    (hzero : 0 ∉ body) (hbody : lf ∉ body) :
    ∃ stream, stream.Holds body ∧ ∀ fuel, body.length + 1 < fuel →
      readStreamLine fuel opened ⟨body, false⟩ =
        .value (if body = [] then none else some stream.buffer, stream, ⟨[], false⟩) := by
  obtain ⟨stream, hholds, hrun⟩ :=
    readLoop_end (openStrStream_holds opened hopened) hzero hbody
  refine ⟨stream, hholds, fun fuel hfuel => ?_⟩
  have hposition : stream.position = 0 ↔ body = [] := by
    rw [hholds.position, List.nil_append, List.length_eq_zero_iff]
  rw [readStreamLine, hrun fuel hfuel]
  simp only [Outcome.value_bind, hposition, true_and]
  split_ifs <;> rfl

theorem text_zero (hzero : 0 ∉ body) : 0 ∉ (Line.ended body).text := by
  rw [text_ended]
  exact fun hmem => hzero (List.mem_of_mem_take hmem)

theorem readLines_aligned (hzero : 0 ∉ content) (h : Aligned content)
    (hopened : ∀ s, opened = some s → s.Terminated) :
    ∃ fuel₀, ∀ fuel, fuel₀ ≤ fuel → readLines fuel opened ⟨content, false⟩ =
      .value ((splitLines content).map Line.text, ⟨[], false⟩) := by
  induction hk : content.length using Nat.strong_induction_on generalizing content opened with
  | h k ih =>
      rcases first_line content with ⟨body, rest, hbody, rfl⟩ | hlast
      · rw [List.mem_append, List.mem_cons, not_or, not_or] at hzero
        have hfits : body.length % (maxString - 1) ≠ 0 := by
          refine h body ?_
          rw [splitLines_ended hbody]
          exact List.mem_cons_self
        obtain ⟨stream, hholds, hrun⟩ :=
          readStreamLine_line rest hopened hzero.1 hbody hfits
        have hrest : Aligned rest := by
          intro body' hmem
          refine h body' ?_
          rw [splitLines_ended hbody]
          exact List.mem_cons_of_mem _ hmem
        have hless : rest.length < k := by
          rw [← hk, List.length_append, List.length_cons]
          omega
        obtain ⟨fuel₀, hlines⟩ := @ih _ hless rest (some stream) hzero.2.2 hrest
          (fun s hs => Option.some.inj hs ▸ hholds.terminated) rfl
        refine ⟨max fuel₀ (body.length + 1) + 1, fun fuel hfuel => ?_⟩
        obtain ⟨fuel, rfl⟩ := Nat.exists_eq_succ_of_ne_zero (by omega : fuel ≠ 0)
        rw [readLines, hrun fuel (by omega)]
        simp only [Outcome.value_bind]
        rw [stuffString_holds hholds (text_zero hzero.1)]
        simp only [Outcome.value_bind]
        rw [hlines fuel (by omega), splitLines_ended hbody]
        rfl
      · obtain ⟨stream, hholds, hrun⟩ := readStreamLine_last hopened hzero hlast
        by_cases hne : content = []
        · refine ⟨content.length + 3, fun fuel hfuel => ?_⟩
          obtain ⟨fuel, rfl⟩ := Nat.exists_eq_succ_of_ne_zero (by omega : fuel ≠ 0)
          rw [readLines, hrun fuel (by omega), hne]
          rfl
        · obtain ⟨stream', -, hend⟩ := @readStreamLine_last [] (some stream)
            (fun s hs => Option.some.inj hs ▸ hholds.terminated) (by simp) (by simp)
          refine ⟨content.length + 4, fun fuel hfuel => ?_⟩
          obtain ⟨fuel, rfl⟩ := Nat.exists_eq_add_of_le (by omega : 2 ≤ fuel)
          rw [Nat.add_comm 2 fuel, readLines, hrun (fuel + 1) (by omega), if_neg hne]
          simp only [Outcome.value_bind]
          rw [stuffString_holds hholds hzero]
          simp only [Outcome.value_bind]
          rw [readLines, hend fuel (by rw [List.length_nil]; omega), splitLines_last hlast hne]
          rfl

/-- What is read line by line, with enough fuel, has no misaligned line. -/
theorem aligned_of_readLines {result : List (List UInt8) × Input} (hzero : 0 ∉ content)
    (hopened : ∀ s, opened = some s → s.Terminated) (hfuel : content.length < fuel)
    (h : readLines fuel opened ⟨content, false⟩ = .value result) : Aligned content := by
  induction fuel generalizing content opened result with
  | zero => cases h
  | succ fuel ih =>
      rcases first_line content with ⟨body, rest, hbody, rfl⟩ | hlast
      · rw [List.mem_append, List.mem_cons, not_or, not_or] at hzero
        rw [List.length_append, List.length_cons] at hfuel
        rw [readLines] at h
        obtain ⟨⟨line, stream, file⟩, hline, h⟩ := Outcome.bind_eq_value_iff.mp h
        have hfits : body.length % (maxString - 1) ≠ 0 := by
          intro hmod
          rw [readStreamLine] at hline
          obtain ⟨result', hloop, -⟩ := Outcome.bind_eq_value_iff.mp hline
          exact readLoop_misaligned (openStrStream_holds opened hopened) hzero.1 hbody hmod
            result' hloop
        obtain ⟨stream', hholds, hrun⟩ :=
          readStreamLine_line rest hopened hzero.1 hbody hfits
        rw [hrun fuel (by omega), Outcome.value.injEq] at hline
        cases hline
        simp only [stuffString_holds hholds (text_zero hzero.1), Outcome.value_bind] at h
        obtain ⟨result', hlines, -⟩ := Outcome.bind_eq_value_iff.mp h
        have hrest := ih hzero.2.2 (fun s hs => Option.some.inj hs ▸ hholds.terminated)
          (by omega) hlines
        intro body' hmem
        rw [splitLines_ended hbody, List.mem_cons, Line.ended.injEq] at hmem
        rcases hmem with rfl | hmem
        · exact hfits
        · exact hrest body' hmem
      · intro body hmem
        by_cases hne : content = []
        · subst hne
          cases hmem
        · rw [splitLines_last hlast hne, List.mem_singleton] at hmem
          cases hmem

/-- Successive calls of `readStreamLine` return the lines of a text, and nothing outside of
the buffer is read, just when no line that ends in a line feed is empty or a number of full
chunks long. -/
theorem readsLines_iff (hzero : 0 ∉ content) : ReadsLines content ↔ Aligned content := by
  constructor
  · intro h
    have hnone : ∀ s : Stream, (none : Option Stream) = some s → s.Terminated :=
      fun s hs => by cases hs
    obtain ⟨fuel₀, hrun⟩ := h none hnone
    have hfuel : content.length < max fuel₀ (content.length + 1) := by omega
    exact aligned_of_readLines hzero hnone hfuel (hrun _ (by omega))
  · exact fun h stream hopened => readLines_aligned hzero h hopened

/-- Two lines, the second without a terminator. -/
theorem readsLines_two : ReadsLines [97, 13, 10, 98] :=
  (readsLines_iff (by decide)).mpr (by
    intro body hmem
    have hlines : splitLines [97, 13, 10, 98] = [.ended [97, 13], .last [98]] := by decide
    rw [hlines, List.mem_cons, List.mem_singleton, Line.ended.injEq] at hmem
    rcases hmem with rfl | hmem
    · decide
    · cases hmem)

/-- An empty line. -/
theorem not_readsLines : ¬ ReadsLines [10] := by
  intro h
  obtain ⟨fuel₀, hrun⟩ := h none fun s hs => by cases hs
  have hvalue := hrun (fuel₀ + 2) (by omega)
  have hempty : readLoop (fuel₀ + 1) (openStrStream none maxString) ⟨[10], false⟩ =
    .undefined := readLoop_empty
  rw [readLines, readStreamLine, hempty] at hvalue
  cases hvalue

end Runs

end LineReading

end NewLispNeo
