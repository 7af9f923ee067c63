/-
How the HTTP server of nl-web.c sends a page: `sendHTTPpage` with its status buffer.
-/
import NewLispNeo.Json
import NewLispNeo.Outcome

namespace NewLispNeo.Http

open Json

/-- What is sent: the header that is printed, and the bytes that are written behind it. -/
structure Page where
  header : List UInt8
  size : Int
  body : List UInt8
deriving DecidableEq

/-- A `char` that is at least 32. -/
def printable (b : UInt8) : Bool := 32 ≤ b && b < 128

/-- `*content == '\r' || *content == '\n'` -/
def isBreak (b : UInt8) : Bool := b = 13 || b = 10

def statusWord : List UInt8 := ascii "Status:"

/-- The header for a status.  The server's name and the system are in `server`. -/
def pageHeader (server status : List UInt8) (size : Int) (media : Option (List UInt8)) :
    List UInt8 :=
  ascii "HTTP/1.0 " ++ status ++ ascii "\r\n" ++ server ++ ascii "\r\n" ++
    match media with
    | none => []
    | some media =>
        ascii "Content-length: " ++ ascii (toString (size.bmod (2 ^ 32))) ++
          ascii "\r\nContent-type: " ++ media ++ ascii "\r\n\r\n"

/-- `memcpy` of these bytes into the status buffer of 128 zeros. -/
def copyStatus (bytes : List UInt8) : Outcome Unit (List UInt8) :=
  if bytes.length ≤ 128 then .value (bytes ++ List.replicate (128 - bytes.length) 0)
  else .undefined

/-- A string that is printed has to end inside its buffer. -/
def printString (buffer : List UInt8) : Outcome Unit (List UInt8) :=
  if 0 ∈ buffer then .value (buffer.takeWhile (· ≠ 0)) else .undefined

/-- `write` of `size` bytes of a memory. -/
def writeBytes (memory : List UInt8) (size : Int) : Outcome Unit (List UInt8) :=
  if 0 ≤ size ∧ size ≤ memory.length then .value (memory.take size.toNat) else .undefined

/-- `sendHTTPpage`.  A zero stands behind the content. -/
def sendHTTPpage (server content : List UInt8) (size : Nat) (media : Option (List UInt8)) :
    Outcome Unit Page :=
  let memory := content ++ [0]
  if statusWord.isPrefixOf memory then
    let pos := (memory.takeWhile printable).length
    copyStatus ((memory.take pos).drop 7) >>= fun status =>
      let memory := memory.drop pos
      let size : Int := if size = 0 then 0 else size - pos
      let breaks := (memory.takeWhile isBreak).length
      let memory := memory.drop breaks
      let size := size - breaks
      printString status >>= fun status =>
        writeBytes memory size >>= fun body =>
          .value ⟨pageHeader server status size media, size, body⟩
  else
    copyStatus (ascii "200 OK") >>= fun status =>
      printString status >>= fun status =>
        writeBytes memory size >>= fun body =>
          .value ⟨pageHeader server status size media, size, body⟩

/-! ### What is to be sent -/

/-- The text of the `Status:` line. -/
def statusText (content : List UInt8) : List UInt8 :=
  (content.drop 7).takeWhile fun b => !isBreak b

/-- What follows that line and its line breaks. -/
def behindStatus (content : List UInt8) : List UInt8 :=
  ((content.drop 7).dropWhile fun b => !isBreak b).dropWhile isBreak

/-- The page with the status of the content and the bytes behind it, or with all of them. -/
def expectedPage (server content : List UInt8) (media : Option (List UInt8)) : Page :=
  if statusWord <+: content then
    ⟨pageHeader server (statusText content) (behindStatus content).length media,
      (behindStatus content).length, behindStatus content⟩
  else ⟨pageHeader server (ascii "200 OK") content.length media, content.length, content⟩

/-- The page is sent in bounds. -/
def SendsPage (server content : List UInt8) (media : Option (List UInt8)) : Prop :=
  sendHTTPpage server content content.length media = .value (expectedPage server content media)

/-- The text of a `Status:` line fits into its buffer and has only characters from 32 to
127. -/
def ShortStatus (content : List UInt8) : Prop :=
  statusWord <+: content →
    (statusText content).length < 128 ∧ ∀ b ∈ statusText content, printable b = true

/-! ### The status line -/

section Status

variable {server content rest : List UInt8} {media : Option (List UInt8)}

theorem length_statusWord : statusWord.length = 7 := by decide

/-- A word without a zero is at the beginning of the memory if it begins the content. -/
theorem isPrefixOf_memory : statusWord.isPrefixOf (content ++ [0]) = true ↔
    statusWord <+: content := by
  rw [List.isPrefixOf_iff_prefix]
  constructor
  · intro h
    rcases List.prefix_concat_iff.mp h with h | h
    · have hlast := congrArg List.getLast? h
      rw [List.getLast?_concat] at hlast
      exact absurd hlast (by decide)
    · exact h
  · exact fun h => h.trans (List.prefix_append _ _)

theorem printable_not_break {b : UInt8} (h : printable b = true) : isBreak b = false := by
  by_contra hbreak
  simp only [isBreak, Bool.or_eq_false_iff, not_and_or, Bool.not_eq_false,
    decide_eq_true_eq] at hbreak
  rcases hbreak with rfl | rfl
  · revert h
    decide
  · revert h
    decide

theorem takeWhile_memory {p : UInt8 → Bool} (hp : p 0 = false) (bytes : List UInt8) :
    (bytes ++ [0]).takeWhile p = bytes.takeWhile p := by
  induction bytes with
  | nil => simp [hp]
  | cons b bytes ih =>
      rw [List.cons_append, List.takeWhile_cons, List.takeWhile_cons, ih]

theorem drop_memory {p : UInt8 → Bool} (bytes : List UInt8) :
    (bytes ++ [0]).drop (bytes.takeWhile p).length = bytes.dropWhile p ++ [0] := by
  have hsplit : bytes ++ [0] = bytes.takeWhile p ++ (bytes.dropWhile p ++ [0]) := by
    rw [← List.append_assoc, List.takeWhile_append_dropWhile]
  conv_lhs => rw [hsplit]
  exact List.drop_left

theorem statusText_append : statusText (statusWord ++ rest) =
    rest.takeWhile fun b => !isBreak b := rfl

theorem behindStatus_append : behindStatus (statusWord ++ rest) =
    (rest.dropWhile fun b => !isBreak b).dropWhile isBreak := rfl

theorem writeBytes_content (content : List UInt8) :
    writeBytes (content ++ [0]) (content.length : Int) = .value content := by
  rw [writeBytes, if_pos (by
    rw [List.length_append]
    omega), Int.toNat_natCast, List.take_left]

/-- What is sent for a content with a `Status:` line: the printable bytes are the status. -/
theorem sendHTTPpage_status : sendHTTPpage server (statusWord ++ rest)
    (statusWord ++ rest).length media =
      copyStatus (rest.takeWhile printable) >>= fun status =>
        printString status >>= fun status =>
          .value ⟨pageHeader server status ((rest.dropWhile printable).dropWhile isBreak).length
            media, ((rest.dropWhile printable).dropWhile isBreak).length,
            (rest.dropWhile printable).dropWhile isBreak⟩ := by
  have hrun : (statusWord ++ rest ++ [0]).takeWhile printable =
      statusWord ++ rest.takeWhile printable := by
    rw [takeWhile_memory (by decide)]
    rfl
  have hpos : (statusWord ++ rest.takeWhile printable).length =
      7 + (rest.takeWhile printable).length := by
    rw [List.length_append, length_statusWord]
  have hstatus : ((statusWord ++ rest ++ [0]).take
      (7 + (rest.takeWhile printable).length)).drop 7 = rest.takeWhile printable := by
    rw [List.drop_take, Nat.add_sub_cancel_left, List.append_assoc,
      List.drop_left' length_statusWord, List.take_append_of_le_length
        (List.takeWhile_prefix _).length_le]
    exact List.prefix_iff_eq_take.mp (List.takeWhile_prefix _) |>.symm
  have hdrop : (statusWord ++ rest ++ [0]).drop (7 + (rest.takeWhile printable).length) =
      rest.dropWhile printable ++ [0] := by
    rw [List.append_assoc, ← List.drop_drop, List.drop_left' length_statusWord, drop_memory]
  generalize hbody : (rest.dropWhile printable).dropWhile isBreak = body
  have hbreaks : (rest.dropWhile printable ++ [0]).drop
      ((rest.dropWhile printable ++ [0]).takeWhile isBreak).length = body ++ [0] := by
    rw [takeWhile_memory (by decide), drop_memory, hbody]
  have hlen : (rest.takeWhile printable).length +
      ((rest.dropWhile printable).takeWhile isBreak).length + body.length = rest.length := by
    rw [← hbody, ← List.length_append, ← List.length_append, List.append_assoc,
      List.takeWhile_append_dropWhile, List.takeWhile_append_dropWhile]
  have hsize : ((statusWord ++ rest).length : Int) -
      ((7 + (rest.takeWhile printable).length : Nat) : Int) -
        ((rest.dropWhile printable ++ [0]).takeWhile isBreak).length = body.length := by
    rw [takeWhile_memory (by decide), List.length_append, length_statusWord]
    omega
  have hne : (statusWord ++ rest).length ≠ 0 := by
    rw [List.length_append, length_statusWord]
    omega
  have hwrite := writeBytes_content body
  rw [sendHTTPpage, if_pos (isPrefixOf_memory.mpr (List.prefix_append _ _))]
  simp only [hrun, hpos, hstatus, hdrop, if_neg hne, hbreaks, hsize, hwrite,
    Outcome.value_bind]

/-- Without a `Status:` line all of the content is sent. -/
theorem sendHTTPpage_plain (h : ¬ statusWord <+: content) :
    SendsPage server content media := by
  have hstatus : (copyStatus (ascii "200 OK") >>= printString) = .value (ascii "200 OK") := by
    decide
  rw [SendsPage, expectedPage, if_neg h, sendHTTPpage,
    if_neg (by rw [isPrefixOf_memory]; exact h), ← Outcome.bind_assoc, hstatus]
  simp only [Outcome.value_bind, writeBytes_content]

/-- A status of printable bytes is printed if a zero is left behind it. -/
theorem printString_copyStatus {bytes : List UInt8} (h : ∀ b ∈ bytes, printable b = true) :
    (copyStatus bytes >>= printString) =
      if bytes.length < 128 then .value bytes else .undefined := by
  have hzero : ∀ b ∈ bytes, b ≠ 0 := by
    rintro b hb rfl
    exact absurd (h 0 hb) (by decide)
  by_cases hlen : bytes.length < 128
  · have hroom : 128 - bytes.length = (127 - bytes.length) + 1 := by omega
    rw [copyStatus, if_pos hlen.le, if_pos hlen, Outcome.value_bind, hroom,
      List.replicate_succ, printString, if_pos (by simp)]
    rw [List.takeWhile_append_of_pos (by simpa using hzero), List.takeWhile_cons_of_neg (by simp),
      List.append_nil]
  · rw [if_neg hlen, copyStatus]
    split
    · rename_i hle
      have hfull : 128 - bytes.length = 0 := by omega
      rw [Outcome.value_bind, hfull, List.replicate_zero, List.append_nil, printString,
        if_neg (fun hmem => hzero 0 hmem rfl)]
    · rfl

theorem sendHTTPpage_run : sendHTTPpage server (statusWord ++ rest)
    (statusWord ++ rest).length media =
      if (rest.takeWhile printable).length < 128 then
        .value ⟨pageHeader server (rest.takeWhile printable)
          ((rest.dropWhile printable).dropWhile isBreak).length media,
          ((rest.dropWhile printable).dropWhile isBreak).length,
          (rest.dropWhile printable).dropWhile isBreak⟩
      else .undefined := by
  rw [sendHTTPpage_status, ← Outcome.bind_assoc,
    printString_copyStatus fun b hb => List.all_eq_true.mp List.all_takeWhile b hb]
  split <;> rfl

/-- Where the text of the line is printable, the loop stops at its end. -/
theorem takeWhile_printable (h : ∀ b ∈ rest.takeWhile fun b => !isBreak b, printable b = true) :
    rest.takeWhile printable = rest.takeWhile (fun b => !isBreak b) ∧
      rest.dropWhile printable = rest.dropWhile fun b => !isBreak b := by
  induction rest with
  | nil => exact ⟨rfl, rfl⟩
  | cons b rest ih =>
      cases hb : isBreak b with
      | true =>
          have hno : ¬ printable b = true := by
            intro hp
            rw [printable_not_break hp] at hb
            cases hb
          rw [List.takeWhile_cons_of_neg hno, List.dropWhile_cons_of_neg hno,
            List.takeWhile_cons_of_neg (by simp [hb]), List.dropWhile_cons_of_neg (by simp [hb])]
          exact ⟨rfl, rfl⟩
      | false =>
          have hnot : (!isBreak b) = true := by rw [hb]; rfl
          rw [List.takeWhile_cons_of_pos (p := fun b => !isBreak b) hnot] at h ⊢
          have hp := h b List.mem_cons_self
          rw [List.takeWhile_cons_of_pos hp, List.dropWhile_cons_of_pos hp,
            List.dropWhile_cons_of_pos (p := fun b => !isBreak b) hnot]
          obtain ⟨htake, hdrop⟩ := ih fun b' hb' => h b' (List.mem_cons_of_mem b hb')
          exact ⟨by rw [htake], hdrop⟩

/-- Where it is not, more than what follows the line is sent. -/
theorem length_behind_lt {b : UInt8} (hmem : b ∈ rest.takeWhile fun b => !isBreak b)
    (hb : printable b = false) :
    (rest.dropWhile fun b => !isBreak b).length < ((rest.dropWhile printable).dropWhile
      isBreak).length := by
  induction rest with
  | nil => cases hmem
  | cons c rest ih =>
      cases hc : isBreak c with
      | true =>
          rw [List.takeWhile_cons_of_neg (by simp [hc])] at hmem
          cases hmem
      | false =>
          have hnot : (!isBreak c) = true := by rw [hc]; rfl
          rw [List.dropWhile_cons_of_pos (p := fun b => !isBreak b) hnot]
          by_cases hp : printable c = true
          · rw [List.dropWhile_cons_of_pos hp]
            rw [List.takeWhile_cons_of_pos (p := fun b => !isBreak b) hnot] at hmem
            rcases List.mem_cons.mp hmem with rfl | hmem
            · rw [hp] at hb
              cases hb
            · exact ih hmem
          · rw [List.dropWhile_cons_of_neg hp, List.dropWhile_cons_of_neg (by simp [hc])]
            exact Nat.lt_succ_of_le (List.dropWhile_suffix _).length_le

theorem SendsPage.short (h : SendsPage server content media) : ShortStatus content := by
  rintro ⟨rest, rfl⟩
  rw [SendsPage, expectedPage, if_pos (List.prefix_append _ _), sendHTTPpage_run,
    statusText_append, behindStatus_append] at h
  have hlt : (rest.takeWhile printable).length < 128 := by
    by_contra hge
    rw [if_neg hge] at h
    cases h
  rw [if_pos hlt] at h
  have hall : ∀ b ∈ rest.takeWhile fun b => !isBreak b, printable b = true := by
    intro b hb
    by_contra hnot
    have hlen := length_behind_lt hb (Bool.eq_false_of_not_eq_true hnot)
    have hbody := congrArg List.length (Page.mk.inj (Outcome.value.inj h)).2.2
    have hle := (List.dropWhile_suffix (l := rest.dropWhile fun b => !isBreak b)
      isBreak).length_le
    omega
  rw [statusText_append]
  exact ⟨(takeWhile_printable hall).1 ▸ hlt, hall⟩

/-- The page is sent in bounds, with the text of the `Status:` line and the bytes behind it,
if and only if that text is short and printable. -/
theorem sendsPage_iff (server content : List UInt8) (media : Option (List UInt8)) :
    SendsPage server content media ↔ ShortStatus content := by
  refine ⟨SendsPage.short, fun h => ?_⟩
  by_cases hstatus : statusWord <+: content
  · obtain ⟨rest, rfl⟩ := hstatus
    obtain ⟨hlt, hall⟩ := h (List.prefix_append _ _)
    rw [statusText_append] at hlt hall
    obtain ⟨htake, hdrop⟩ := takeWhile_printable hall
    rw [SendsPage, expectedPage, if_pos (List.prefix_append _ _), sendHTTPpage_run,
      statusText_append, behindStatus_append, htake, hdrop, if_pos hlt]
  · exact sendHTTPpage_plain hstatus

/-- In the status `ÿ` the line ends at its first byte, and the rest of it is sent with the
content. -/
theorem not_sendsPage_latin : ¬ SendsPage [] (statusWord ++ [255, 10, 97]) none := by
  intro h
  exact absurd ((h.short (List.prefix_append _ _)).2 255 (by decide)) (by decide)

end Status

end NewLispNeo.Http
