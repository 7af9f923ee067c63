/-
What the runs of `send` and `receive` keep: the bytes in the stream are whole messages
behind their lengths.
-/
import NewLispNeo.Framing
import NewLispNeo.Messages
import NewLispNeo.PackRuns

namespace NewLispNeo

namespace Message

/-- The `UINT` in front of a message. -/
def lengthHeader (m : Pack.Machine) : Framing.Header UInt8 where
  width := 8
  limit := 2 ^ 64
  encode := m.store 8
  decode := m.load
  width_pos := by decide
  length_encode := Pack.length_store m 8
  decode_lt bytes h := by
    have hlt := Pack.load_lt m bytes
    rw [h] at hlt
    exact lt_of_lt_of_eq hlt (by decide)
  decode_encode n h := by
    rw [Pack.load_store]
    exact Nat.mod_eq_of_lt (lt_of_lt_of_eq h (by decide))
  encode_decode bytes h := by
    rw [← h]
    exact Pack.store_load m bytes

variable {ε : Type} (m : Pack.Machine) (sysEvalString : List UInt8 → Except ε (Option Cell))

/-- The part of a message that has been put into the stream. -/
def Activity.begun : Activity → List UInt8
  | .sendingText text => m.store 8 text.length
  | _ => []

/-- The part of a message that has been taken out of the stream. -/
def Activity.got : Activity → List UInt8
  | .receivingText _ length buffer => m.store 8 length ++ buffer
  | _ => []

/-- The texts that an end is about to send. -/
def Activity.texts : Activity → List (List UInt8)
  | .sending text | .sendingText text => [text]
  | _ => []

/-- A message that the reader finds an expression in. -/
def Sound (text : List UInt8) : Prop :=
  text ≠ [] ∧ text.length < 2 ^ 64 ∧ ∃ cell, sysEvalString text = .ok (some cell)

/-- A step that keeps the messages apart: a text holds an expression, `send` accepts all
it is given, a header is delivered whole, `recv` does not fail behind it, and no end is
closed between a header and its text. -/
def Event.Clean (s : Link ε) (x : Side) : Event → Prop
  | .begin text => text ≠ [] ∧ ∃ cell, sysEvalString text = .ok (some cell)
  | .sendHeader answer => answer = .accepted 8
  | .sendText answer =>
      ∀ text, (s x).activity = .sendingText text → answer = .accepted text.length
  | .recvHeader (.delivered size) => size = 8
  | .recvText answer => answer ≠ .failed
  | .close => ∀ text, (s x).activity ≠ .sendingText text
  | _ => True

/-- What one end has done as a sender and the other as a receiver fits together: what
has been sent and not been obtained is in the stream. -/
structure Carried (w r : Endpoint ε) (transit : List (List UInt8)) : Prop where
  sent : sentTexts w.replies = (obtained r.replies).map Prod.fst ++ transit
  stream : r.activity.got m ++ r.inbox =
    (lengthHeader m).frames transit ++ w.activity.begun m
  written : w.written = (lengthHeader m).frames (sentTexts w.replies) ++ w.activity.begun m
  taken : r.taken =
    (lengthHeader m).frames ((obtained r.replies).map Prod.fst) ++ r.activity.got m
  sound : ∀ text ∈ transit ++ w.activity.texts, Sound sysEvalString text

/-- What holds of one end alone. -/
structure Endpoint.Proper (e : Endpoint ε) : Prop where
  receiving : ∀ call, e.activity = .receiving call → call = .receive
  receivingText : ∀ call length buffer, e.activity = .receivingText call length buffer →
    call = .receive ∧ length < 2 ^ 64 ∧ buffer.length ≤ length
  closed : e.closed = true → e.activity.begun m = []
  values : ∀ message ∈ obtained e.replies, sysEvalString message.1 = .ok (some message.2)

/-- Both ends are proper, and so are both directions between them. -/
structure Kept (s : Link ε) : Prop where
  proper : ∀ x, (s x).Proper m sysEvalString
  carried : ∀ x, ∃ transit, Carried m sysEvalString (s x) (s x.other) transit

section Links

variable {m sysEvalString} {s : Link ε} {x : Side}

@[simp] theorem Side.other_ne (x : Side) : x.other ≠ x := by cases x <;> decide

@[simp] theorem Side.other_other (x : Side) : x.other.other = x := by cases x <;> rfl

theorem Side.eq_or_other (x z : Side) : z = x ∨ z = x.other := by
  cases x <;> cases z <;> decide

@[simp] theorem write_self (bytes : List UInt8) :
    write x bytes s x = { s x with written := (s x).written ++ bytes } := by
  rw [write, Function.update_of_ne x.other_ne.symm, Function.update_self]

@[simp] theorem write_other (bytes : List UInt8) :
    write x bytes s x.other = { s x.other with inbox := (s x.other).inbox ++ bytes } := by
  rw [write, Function.update_self]

@[simp] theorem take_self (size : ℕ) :
    take x size s x =
      { s x with
        inbox := (s x).inbox.drop size
        taken := (s x).taken ++ (s x).inbox.take size } := by
  rw [take, Function.update_self]

@[simp] theorem take_other (size : ℕ) : take x size s x.other = s x.other := by
  rw [take, Function.update_of_ne x.other_ne]

@[simp] theorem become_self (activity : Activity) :
    become x activity s x = { s x with activity := activity } := by
  rw [become, Function.update_self]

@[simp] theorem become_other (activity : Activity) :
    become x activity s x.other = s x.other := by
  rw [become, Function.update_of_ne x.other_ne]

@[simp] theorem reply_self (r : Reply ε) :
    reply x r s x = { s x with activity := .idle, replies := (s x).replies ++ [r] } := by
  rw [reply, Function.update_self]

@[simp] theorem reply_other (r : Reply ε) : reply x r s x.other = s x.other := by
  rw [reply, Function.update_of_ne x.other_ne]

@[simp] theorem sentTexts_sent (replies : List (Reply ε)) (text : List UInt8) :
    sentTexts (replies ++ [.sent text]) = sentTexts replies ++ [text] := by
  simp [sentTexts]

@[simp] theorem sentTexts_nil (replies : List (Reply ε)) (call : Call) :
    sentTexts (replies ++ [.nil call]) = sentTexts replies := by
  simp [sentTexts]

@[simp] theorem sentTexts_message (replies : List (Reply ε)) (call : Call)
    (text : List UInt8) (cell : Cell) :
    sentTexts (replies ++ [.message call text cell]) = sentTexts replies := by
  simp [sentTexts]

@[simp] theorem obtained_sent (replies : List (Reply ε)) (text : List UInt8) :
    obtained (replies ++ [.sent text]) = obtained replies := by
  simp [obtained]

@[simp] theorem obtained_nil (replies : List (Reply ε)) (call : Call) :
    obtained (replies ++ [.nil call]) = obtained replies := by
  simp [obtained]

@[simp] theorem obtained_message (replies : List (Reply ε)) (text : List UInt8)
    (cell : Cell) :
    obtained (replies ++ [.message .receive text cell]) = obtained replies ++ [(text, cell)] := by
  simp [obtained]

/-- The two ends of a link decide what is kept of it. -/
theorem Kept.of_sides (x : Side) (hx : (s x).Proper m sysEvalString)
    (hy : (s x.other).Proper m sysEvalString)
    (hout : ∃ transit, Carried m sysEvalString (s x) (s x.other) transit)
    (hin : ∃ transit, Carried m sysEvalString (s x.other) (s x) transit) :
    Kept m sysEvalString s := by
  constructor
  · intro z
    rcases x.eq_or_other z with rfl | rfl
    · exact hx
    · exact hy
  · intro z
    rcases x.eq_or_other z with rfl | rfl
    · exact hout
    · rwa [Side.other_other]

end Links

section Steps

variable {m sysEvalString} {s s' : Link ε} {x : Side} {e : Event} {w w' r r' : Endpoint ε}
  {transit : List (List UInt8)}

/-- What a sender shows of itself stays the same. -/
structure SameSender (w w' : Endpoint ε) : Prop where
  sent : sentTexts w'.replies = sentTexts w.replies
  begun : w'.activity.begun m = w.activity.begun m
  written : w'.written = w.written

/-- What a receiver shows of itself stays the same. -/
structure SameReceiver (r r' : Endpoint ε) : Prop where
  obtained : obtained r'.replies = obtained r.replies
  got : r'.activity.got m = r.activity.got m
  inbox : r'.inbox = r.inbox
  taken : r'.taken = r.taken

theorem Carried.sender (h : Carried m sysEvalString w r transit)
    (hsame : SameSender (m := m) w w')
    (hsound : ∀ text ∈ w'.activity.texts, Sound sysEvalString text) :
    Carried m sysEvalString w' r transit := by
  obtain ⟨hsent, hbegun, hwritten⟩ := hsame
  refine ⟨hsent ▸ h.sent, hbegun ▸ h.stream, ?_, h.taken, ?_⟩
  · rw [hwritten, hsent, hbegun, h.written]
  · intro text htext
    rcases List.mem_append.mp htext with htext | htext
    · exact h.sound text (List.mem_append_left _ htext)
    · exact hsound text htext

theorem Carried.receiver (h : Carried m sysEvalString w r transit)
    (hsame : SameReceiver (m := m) r r') : Carried m sysEvalString w r' transit := by
  obtain ⟨hobtained, hgot, hinbox, htaken⟩ := hsame
  refine ⟨hobtained ▸ h.sent, ?_, h.written, ?_, h.sound⟩
  · rw [hgot, hinbox, h.stream]
  · rw [htaken, hobtained, hgot, h.taken]

theorem Carried.sendHeader {text : List UInt8} (h : Carried m sysEvalString w r transit)
    (hw : w.activity = .sending text) :
    Carried m sysEvalString
      { w with
        written := w.written ++ m.store 8 text.length
        activity := .sendingText text }
      { r with inbox := r.inbox ++ m.store 8 text.length } transit where
  sent := h.sent
  stream := by
    have hstream := h.stream
    rw [hw] at hstream
    simp only [Activity.begun, List.append_nil] at hstream ⊢
    rw [← List.append_assoc, hstream]
  written := by
    have hwritten := h.written
    rw [hw] at hwritten
    simp only [Activity.begun, List.append_nil] at hwritten ⊢
    rw [hwritten]
  taken := h.taken
  sound := by
    have hsound := h.sound
    rwa [hw] at hsound

theorem Carried.sendText {text : List UInt8} (h : Carried m sysEvalString w r transit)
    (hw : w.activity = .sendingText text) :
    Carried m sysEvalString
      { w with
        written := w.written ++ text
        activity := .idle
        replies := w.replies ++ [.sent text] }
      { r with inbox := r.inbox ++ text } (transit ++ [text]) where
  sent := by rw [sentTexts_sent, h.sent, List.append_assoc]
  stream := by
    have hstream := h.stream
    rw [hw] at hstream
    simp only [Activity.begun, List.append_nil] at hstream ⊢
    rw [← List.append_assoc, hstream, Framing.Header.frames_append]
    simp [Framing.Header.frame, lengthHeader]
  written := by
    have hwritten := h.written
    rw [hw] at hwritten
    simp only [Activity.begun, List.append_nil] at hwritten ⊢
    rw [hwritten, sentTexts_sent, Framing.Header.frames_append]
    simp [Framing.Header.frame, lengthHeader]
  taken := h.taken
  sound := by
    have hsound := h.sound
    rw [hw] at hsound
    simpa [Activity.texts] using hsound

theorem Carried.recvHeader {call : Call} (h : Carried m sysEvalString w r transit)
    (hr : r.activity = .receiving call) (hsize : 8 ≤ r.inbox.length) :
    Carried m sysEvalString w
      { r with
        inbox := r.inbox.drop 8
        taken := r.taken ++ r.inbox.take 8
        activity := .receivingText call (m.load (r.inbox.take 8)) [] } transit := by
  have hbytes : m.store 8 (m.load (r.inbox.take 8)) = r.inbox.take 8 :=
    (lengthHeader m).encode_decode _ (List.length_take_of_le hsize)
  have hstream := h.stream
  have htaken := h.taken
  rw [hr] at hstream htaken
  simp only [Activity.got, List.nil_append, List.append_nil] at hstream htaken
  refine ⟨h.sent, ?_, h.written, ?_, h.sound⟩
  · simp only [Activity.got, List.append_nil]
    rw [hbytes, List.take_append_drop, hstream]
  · simp only [Activity.got, List.append_nil]
    rw [hbytes, htaken]

theorem Carried.recvText {call : Call} {length size : ℕ} {buffer : List UInt8}
    (h : Carried m sysEvalString w r transit)
    (hr : r.activity = .receivingText call length buffer) :
    Carried m sysEvalString w
      { r with
        inbox := r.inbox.drop size
        taken := r.taken ++ r.inbox.take size
        activity := .receivingText call length (buffer ++ r.inbox.take size) } transit := by
  have hstream := h.stream
  have htaken := h.taken
  rw [hr] at hstream htaken
  simp only [Activity.got] at hstream htaken
  refine ⟨h.sent, ?_, h.written, ?_, h.sound⟩
  · simp only [Activity.got]
    rw [← hstream]
    simp only [List.append_assoc, List.take_append_drop]
  · simp only [Activity.got]
    rw [htaken]
    simp only [List.append_assoc]

/-- A text that has been received whole is the next one in transit. -/
theorem Carried.next {call : Call} {buffer : List UInt8}
    (h : Carried m sysEvalString w r transit)
    (hr : r.activity = .receivingText call buffer.length buffer)
    (hlength : buffer.length < 2 ^ 64) :
    ∃ rest, transit = buffer :: rest ∧
      r.inbox = (lengthHeader m).frames rest ++ w.activity.begun m := by
  have hstream := h.stream
  rw [hr] at hstream
  simp only [Activity.got] at hstream
  cases transit with
  | nil =>
      -- the header of a text that is not there yet belongs to an empty one
      exfalso
      cases hw : w.activity with
      | sendingText text =>
          rw [hw] at hstream
          have hsound := h.sound text (by simp [hw, Activity.texts])
          have hframe : m.store 8 buffer.length ++ (buffer ++ r.inbox) ++ text =
              (lengthHeader m).frame text ++ [] := by
            rw [← List.append_assoc, hstream]
            simp [Activity.begun, Framing.Header.frame, lengthHeader]
          rw [List.append_assoc] at hframe
          obtain ⟨hsize, hrest⟩ := Framing.Header.encode_append_inj (h := lengthHeader m)
            hlength hsound.2.1 hframe
          have hzero := congrArg List.length hrest
          simp only [List.length_append, List.length_nil] at hzero
          exact hsound.1 (List.eq_nil_of_length_eq_zero (by omega))
      | _ =>
          rw [hw] at hstream
          have hlen := congrArg List.length hstream
          simp [Activity.begun, Pack.length_store] at hlen
  | cons text rest =>
      have hsound := h.sound text (by simp)
      rw [Framing.Header.frames_cons, List.append_assoc ((lengthHeader m).frame text)] at hstream
      obtain ⟨rfl, hrest⟩ := Framing.Header.message_eq (h := lengthHeader m) hlength hsound.2.1
        rfl hstream
      exact ⟨rest, rfl, hrest⟩

theorem Carried.finish {buffer : List UInt8} {cell : Cell}
    {rest : List (List UInt8)} (h : Carried m sysEvalString w r (buffer :: rest))
    {call : Call} (hr : r.activity = .receivingText call buffer.length buffer)
    (hinbox : r.inbox = (lengthHeader m).frames rest ++ w.activity.begun m) :
    Carried m sysEvalString w
      { r with
        activity := .idle
        replies := r.replies ++ [.message .receive buffer cell] } rest where
  sent := by
    rw [obtained_message, h.sent]
    simp
  stream := by simpa [Activity.got] using hinbox
  written := h.written
  taken := by
    have htaken := h.taken
    rw [hr] at htaken
    simp only [Activity.got] at htaken
    simp only [Activity.got, obtained_message, List.map_append, Framing.Header.frames_append,
      List.append_nil]
    rw [htaken]
    simp [Framing.Header.frame, lengthHeader]
  sound := fun text htext => h.sound text (List.mem_cons_of_mem _ htext)

/-- A step after which an end shows the same of itself as before. -/
theorem Kept.quiet (h : Kept m sysEvalString s) (hx : s' x = w) (hy : s' x.other = s x.other)
    (hsender : SameSender (m := m) (s x) w) (hreceiver : SameReceiver (m := m) (s x) w)
    (hsound : ∀ text ∈ w.activity.texts, Sound sysEvalString text)
    (hproper : w.Proper m sysEvalString) : Kept m sysEvalString s' := by
  obtain ⟨out, hout⟩ := h.carried x
  obtain ⟨into, hin⟩ := h.carried x.other
  rw [Side.other_other] at hin
  apply Kept.of_sides x
  · rwa [hx]
  · rw [hy]
    exact h.proper x.other
  · rw [hx, hy]
    exact ⟨out, hout.sender hsender hsound⟩
  · rw [hx, hy]
    exact ⟨into, hin.receiver hreceiver⟩

/-- An end that returns nil with nothing half sent or half received. -/
theorem Kept.nil (h : Kept m sysEvalString s) (call : Call)
    (hbegun : (s x).activity.begun m = []) (hgot : (s x).activity.got m = []) :
    Kept m sysEvalString (reply x (.nil call) s) := by
  apply h.quiet (reply_self _) (reply_other _)
  · exact ⟨by simp, hbegun.symm, rfl⟩
  · exact ⟨by simp, hgot.symm, rfl, rfl⟩
  · simp [Activity.texts]
  · exact ⟨by simp, by simp, fun _ => rfl, by simpa using (h.proper x).values⟩

/-- The ends change in both directions when bytes go into the stream. -/
theorem Kept.moved (h : Kept m sysEvalString s) (hx : s' x = w) (hy : s' x.other = r)
    (hout : ∀ transit, Carried m sysEvalString (s x) (s x.other) transit →
      ∃ transit, Carried m sysEvalString w r transit)
    (hsender : SameSender (m := m) (s x.other) r) (htexts : r.activity = (s x.other).activity)
    (hreceiver : SameReceiver (m := m) (s x) w) (hw : w.Proper m sysEvalString)
    (hr : r.Proper m sysEvalString) : Kept m sysEvalString s' := by
  obtain ⟨out, hcarried⟩ := h.carried x
  obtain ⟨into, hin⟩ := h.carried x.other
  rw [Side.other_other] at hin
  apply Kept.of_sides x
  · rwa [hx]
  · rwa [hy]
  · rw [hx, hy]
    exact hout out hcarried
  · rw [hx, hy]
    refine ⟨into, (hin.sender hsender ?_).receiver hreceiver⟩
    rw [htexts]
    exact fun text htext => hin.sound text (List.mem_append_right _ htext)

/-- The receiving end changes when bytes come out of the stream. -/
theorem Kept.received (h : Kept m sysEvalString s) (hx : s' x = w) (hy : s' x.other = s x.other)
    (hin : ∀ transit, Carried m sysEvalString (s x.other) (s x) transit →
      ∃ transit, Carried m sysEvalString (s x.other) w transit)
    (hsender : SameSender (m := m) (s x) w) (htexts : w.activity.texts = [])
    (hw : w.Proper m sysEvalString) : Kept m sysEvalString s' := by
  obtain ⟨out, hout⟩ := h.carried x
  obtain ⟨into, hcarried⟩ := h.carried x.other
  rw [Side.other_other] at hcarried
  apply Kept.of_sides x
  · rwa [hx]
  · rw [hy]
    exact h.proper x.other
  · rw [hx, hy]
    exact ⟨out, hout.sender hsender (by simp [htexts])⟩
  · rw [hx, hy]
    exact hin into hcarried

theorem Step.kept (hstep : Step m sysEvalString s x e s') (hclean : e.Clean sysEvalString s x)
    (h : Kept m sysEvalString s) : Kept m sysEvalString s' := by
  have hproper := h.proper x
  have hother := h.proper x.other
  cases hstep with
  | refuse hopen hidle => exact h.nil .send (by rw [hidle]; rfl) (by rw [hidle]; rfl)
  | begin hopen hidle hlength =>
      apply h.quiet (become_self _) (become_other _)
      · exact ⟨rfl, by rw [hidle]; rfl, rfl⟩
      · exact ⟨rfl, by rw [hidle]; rfl, rfl, rfl⟩
      · intro text htext
        obtain rfl := List.mem_singleton.mp htext
        exact ⟨hclean.1, hlength, hclean.2⟩
      · exact ⟨by simp, by simp, fun _ => rfl, hproper.values⟩
  | @sendHeader text answer hopen hsending hpossible =>
      obtain rfl : answer = .accepted 8 := hclean
      have hheader : (m.store 8 text.length).take 8 = m.store 8 text.length :=
        List.take_of_length_le (Pack.length_store m 8 _).le
      apply h.moved (x := x)
        (w := { s x with
          written := (s x).written ++ m.store 8 text.length
          activity := .sendingText text })
        (r := { s x.other with inbox := (s x.other).inbox ++ m.store 8 text.length })
      · simp [Message.sendHeader, hheader]
      · simp [Message.sendHeader, hheader]
      · exact fun transit hcarried => ⟨transit, hcarried.sendHeader hsending⟩
      · exact ⟨rfl, rfl, rfl⟩
      · rfl
      · exact ⟨rfl, by rw [hsending]; rfl, rfl, rfl⟩
      · exact ⟨by simp, by simp, fun hclosed => by simp [hopen] at hclosed, hproper.values⟩
      · exact ⟨hother.receiving, hother.receivingText, hother.closed, hother.values⟩
  | @sendText text answer hopen hsending hpossible =>
      obtain rfl : answer = .accepted text.length := hclean text hsending
      apply h.moved (x := x)
        (w := { s x with
          written := (s x).written ++ text
          activity := .idle
          replies := (s x).replies ++ [.sent text] })
        (r := { s x.other with inbox := (s x.other).inbox ++ text })
      · simp [Message.sendText]
      · simp [Message.sendText]
      · exact fun transit hcarried => ⟨_, hcarried.sendText hsending⟩
      · exact ⟨rfl, rfl, rfl⟩
      · rfl
      · exact ⟨by simp, by rw [hsending]; rfl, rfl, rfl⟩
      · exact ⟨by simp, by simp, fun _ => rfl, by simpa using hproper.values⟩
      · exact ⟨hother.receiving, hother.receivingText, hother.closed, hother.values⟩
  | startReceive hopen hidle =>
      apply h.quiet (become_self _) (become_other _)
      · exact ⟨rfl, by rw [hidle]; rfl, rfl⟩
      · exact ⟨rfl, by rw [hidle]; rfl, rfl, rfl⟩
      · simp [Activity.texts]
      · refine ⟨?_, by simp, fun _ => rfl, hproper.values⟩
        rintro call ⟨⟩
        rfl
  | notReady hopen hreceiving =>
      exact h.nil _ (by rw [hreceiving]; rfl) (by rw [hreceiving]; rfl)
  | @recvHeader call answer hopen hreceiving hpossible =>
      cases answer with
      | delivered size =>
          obtain rfl : size = 8 := hclean
          obtain ⟨-, -, hsize⟩ := hpossible
          obtain rfl := hproper.receiving call hreceiving
          have hload := (lengthHeader m).decode_lt ((s x).inbox.take 8)
            (List.length_take_of_le hsize)
          apply h.received (x := x)
            (w := { s x with
              inbox := (s x).inbox.drop 8
              taken := (s x).taken ++ (s x).inbox.take 8
              activity := .receivingText .receive (m.load ((s x).inbox.take 8)) [] })
          · simp [Message.recvHeader]
          · simp [Message.recvHeader]
          · exact fun transit hcarried => ⟨transit, hcarried.recvHeader hreceiving hsize⟩
          · exact ⟨rfl, by rw [hreceiving]; rfl, rfl⟩
          · rfl
          · refine ⟨by simp, ?_, fun _ => rfl, hproper.values⟩
            rintro call length buffer ⟨⟩
            exact ⟨rfl, hload, Nat.zero_le _⟩
      | ended => exact h.nil _ (by rw [hreceiving]; rfl) (by rw [hreceiving]; rfl)
      | failed => exact h.nil _ (by rw [hreceiving]; rfl) (by rw [hreceiving]; rfl)
  | @recvText call length buffer answer hopen hreceiving hless hpossible =>
      cases answer with
      | delivered size =>
          obtain ⟨-, hsize, hinbox⟩ := hpossible
          obtain ⟨rfl, hlimit, -⟩ := hproper.receivingText call length buffer hreceiving
          apply h.received (x := x)
            (w := { s x with
              inbox := (s x).inbox.drop size
              taken := (s x).taken ++ (s x).inbox.take size
              activity := .receivingText .receive length (buffer ++ (s x).inbox.take size) })
          · simp [Message.recvText]
          · simp [Message.recvText]
          · exact fun transit hcarried => ⟨transit, hcarried.recvText hreceiving⟩
          · exact ⟨rfl, by rw [hreceiving]; rfl, rfl⟩
          · rfl
          · refine ⟨by simp, ?_, fun _ => rfl, hproper.values⟩
            rintro call' length' buffer' ⟨⟩
            refine ⟨rfl, hlimit, ?_⟩
            rw [List.length_append, List.length_take_of_le hinbox]
            omega
      | ended => exact h
      | failed => exact absurd rfl hclean
  | @finish call length buffer hopen hreceiving hle =>
      obtain ⟨rfl, hlimit, hbuffer⟩ := hproper.receivingText call length buffer hreceiving
      obtain rfl : buffer.length = length := le_antisymm hbuffer hle
      obtain ⟨transit, hcarried⟩ := h.carried x.other
      rw [Side.other_other] at hcarried
      obtain ⟨rest, rfl, hinbox⟩ := hcarried.next hreceiving hlimit
      obtain ⟨-, -, cell, hcell⟩ := hcarried.sound buffer (by simp)
      apply h.received (x := x)
        (w := { s x with
          activity := .idle
          replies := (s x).replies ++ [.message .receive buffer cell] })
      · simp [finishReceive, hcell]
      · simp [finishReceive, hcell]
      · exact fun _ _ => ⟨rest, hcarried.finish hreceiving hinbox⟩
      · exact ⟨by simp, by rw [hreceiving]; rfl, rfl⟩
      · rfl
      · refine ⟨by simp, by simp, fun _ => rfl, ?_⟩
        intro message hmessage
        simp only [obtained_message, List.mem_append, List.mem_singleton] at hmessage
        rcases hmessage with hmessage | rfl
        · exact hproper.values message hmessage
        · exact hcell
  | close hopen =>
      apply h.quiet (Function.update_self _ _ _) (Function.update_of_ne x.other_ne _ _)
      · exact ⟨rfl, rfl, rfl⟩
      · exact ⟨rfl, rfl, rfl, rfl⟩
      · obtain ⟨transit, hcarried⟩ := h.carried x
        exact fun text htext => hcarried.sound text (List.mem_append_right _ htext)
      · refine ⟨hproper.receiving, hproper.receivingText, fun _ => ?_, hproper.values⟩
        dsimp only
        unfold Activity.begun
        split
        · rename_i text hsending
          exact absurd hsending (hclean text)
        · rfl

end Steps

section Returning

variable {m sysEvalString} {s : Link ε} {x : Side} {call : Call} {length : ℕ}
  {buffer : List UInt8}

/-- A sender that is between two messages has sent the whole of the one that is being
received. -/
theorem Carried.enough {w r : Endpoint ε} {transit : List (List UInt8)}
    (h : Carried m sysEvalString w r transit) (hw : w.activity.begun m = [])
    (hr : r.activity = .receivingText call length buffer) (hlength : length < 2 ^ 64) :
    length ≤ buffer.length + r.inbox.length := by
  have hstream := h.stream
  rw [hw, hr, List.append_nil] at hstream
  simp only [Activity.got] at hstream
  cases transit with
  | nil =>
      have hlen := congrArg List.length hstream
      simp [Pack.length_store] at hlen
  | cons text rest =>
      have hsound := h.sound text (by simp)
      rw [List.append_assoc, Framing.Header.frames_cons] at hstream
      obtain ⟨rfl, hrest⟩ := Framing.Header.encode_append_inj (h := lengthHeader m) hlength
        hsound.2.1 hstream
      have hlen := congrArg List.length hrest
      simp only [List.length_append] at hlen
      omega

/-- What an end can do in the loop on `bytesReceived`. -/
theorem Step.of_receivingText {s' : Link ε} {e : Event}
    (hstep : Step m sysEvalString s x e s')
    (hactivity : (s x).activity = .receivingText call length buffer) :
    (s' x).closed = true ∨
    (∃ answer : RecvAnswer, buffer.length < length ∧
      answer.Possible s x (length - buffer.length) ∧
      s' = Message.recvText x call length buffer answer s) ∨
    length ≤ buffer.length ∧ s' = finishReceive sysEvalString x call buffer s := by
  cases hstep with
  | close _ => exact .inl (by rw [Function.update_self])
  | recvText _ hreceiving hless hpossible =>
      rw [hactivity] at hreceiving
      cases hreceiving
      exact .inr (.inl ⟨_, hless, hpossible, rfl⟩)
  | finish _ hreceiving hle =>
      rw [hactivity] at hreceiving
      cases hreceiving
      exact .inr (.inr ⟨hle, rfl⟩)
  | _ => simp_all

/-- What an end can do before it has received a header. -/
theorem Step.of_receiving {s' : Link ε} {e : Event}
    (hstep : Step m sysEvalString s x e s') (hactivity : (s x).activity = .receiving call) :
    ((s' x).closed = true ∨ (s' x).activity = .idle) ∨ e = .recvHeader (.delivered 8) := by
  cases hstep with
  | close _ => exact .inl (.inl (by rw [Function.update_self]))
  | notReady _ _ => exact .inl (.inr (by simp))
  | @recvHeader _ answer _ hreceiving _ =>
      rw [hactivity] at hreceiving
      cases hreceiving
      cases answer with
      | delivered size =>
          by_cases hsize : size = 8
          · exact .inr (by rw [hsize])
          · exact .inl (.inr (by simp [Message.recvHeader, hsize]))
      | _ => exact .inl (.inr (by simp [Message.recvHeader]))
  | _ => simp_all

theorem finishReceive_idle (text : List UInt8) :
    (finishReceive sysEvalString x call text s x).activity = .idle := by
  rcases hread : sysEvalString text with e | _ | cell <;> simp [finishReceive, hread]

/-- The loop on `bytesReceived` ends when what it waits for has come: each pass takes at
least one byte of it. -/
theorem returns_text (n : ℕ) (hactivity : (s x).activity = .receivingText call length buffer)
    (hinbox : length ≤ buffer.length + (s x).inbox.length) (hn : length - buffer.length ≤ n) :
    Returns m sysEvalString x s := by
  induction n generalizing s buffer with
  | zero =>
      cases hopen : (s x).closed with
      | true => exact .done (.inr hopen)
      | false =>
          refine .step ⟨.finish, _, nofun, .finish hopen hactivity (by omega)⟩ ?_
          intro e s' hstep
          rcases hstep.of_receivingText hactivity with hclosed | ⟨answer, hless, -⟩ | ⟨-, rfl⟩
          · exact .done (.inr hclosed)
          · omega
          · exact .done (.inl (finishReceive_idle _))
  | succ n ih =>
      by_cases hless : buffer.length < length
      · cases hopen : (s x).closed with
        | true => exact .done (.inr hopen)
        | false =>
            have hone : (RecvAnswer.delivered 1).Possible s x (length - buffer.length) :=
              ⟨by omega, by omega, by omega⟩
            refine .step ⟨.recvText (.delivered 1), _, nofun,
              .recvText hopen hactivity hless hone⟩ ?_
            intro e s' hstep
            rcases hstep.of_receivingText hactivity with
              hclosed | ⟨answer, -, hpossible, rfl⟩ | ⟨hle, -⟩
            · exact .done (.inr hclosed)
            · cases answer with
              | delivered size =>
                  obtain ⟨hpos, hsize, hle⟩ := hpossible
                  have hnext : (recvText x call length buffer (.delivered size) s x).activity =
                      .receivingText call length (buffer ++ (s x).inbox.take size) := by
                    simp [recvText]
                  refine ih hnext ?_ ?_
                  · simp only [recvText, become_self, take_self, List.length_append,
                      List.length_take, List.length_drop]
                    omega
                  · rw [List.length_append, List.length_take_of_le hle]
                    omega
              | ended =>
                  obtain ⟨hnil, -⟩ := hpossible
                  rw [hnil, List.length_nil] at hinbox
                  omega
              | failed => exact .done (.inl (by simp [recvText]))
            · omega
      · exact ih hactivity hinbox (by omega)

/-- A call of `receive` returns when the other end has been closed. -/
theorem Kept.returns (h : Kept m sysEvalString s) (hclosed : (s x.other).closed = true)
    (hactivity : (s x).activity = .receiving call ∨
      ∃ length buffer, (s x).activity = .receivingText call length buffer) :
    Returns m sysEvalString x s := by
  have htext : ∀ s' : Link ε, Kept m sysEvalString s' → (s' x.other).closed = true →
      ∀ call length buffer, (s' x).activity = .receivingText call length buffer →
        Returns m sysEvalString x s' := by
    intro s' h' hclosed' call length buffer hreceiving
    obtain ⟨transit, hcarried⟩ := h'.carried x.other
    rw [Side.other_other] at hcarried
    exact returns_text _ hreceiving
      (hcarried.enough ((h'.proper x.other).closed hclosed') hreceiving
        ((h'.proper x).receivingText _ _ _ hreceiving).2.1) le_rfl
  rcases hactivity with hreceiving | ⟨length, buffer, hreceiving⟩
  · cases hopen : (s x).closed with
    | true => exact .done (.inr hopen)
    | false =>
        refine .step ⟨.notReady, _, nofun, .notReady hopen hreceiving⟩ ?_
        intro e s' hstep
        rcases hstep.of_receiving hreceiving with (hdone | hdone) | rfl
        · exact .done (.inr hdone)
        · exact .done (.inl hdone)
        · have hkept : Kept m sysEvalString s' := hstep.kept (by exact rfl) h
          cases hstep with
          | recvHeader _ hreceiving' _ =>
              apply htext _ hkept (by simpa [recvHeader] using hclosed)
              · simp only [recvHeader, reduceIte, become_self]
                rfl
  · exact htext s h hclosed call length buffer hreceiving

end Returning

section Runs

variable {m sysEvalString} {s : Link ε} {steps : List (Link ε × Side × Event)}

theorem kept_start : Kept m sysEvalString (start : Link ε) where
  proper _ := ⟨by simp [start], by simp [start], fun _ => rfl, by simp [start, obtained]⟩
  carried _ := ⟨[], rfl, rfl, rfl, rfl, by simp [start, Activity.texts]⟩

theorem Run.kept (hrun : Run m sysEvalString steps s)
    (hclean : ∀ step ∈ steps, step.2.2.Clean sysEvalString step.1 step.2.1) :
    Kept m sysEvalString s := by
  induction hrun with
  | start => exact kept_start
  | step _ hstep ih =>
      have hkept := ih fun step hmem => hclean step (List.mem_append_left _ hmem)
      exact hstep.kept (hclean _ (List.mem_append_right _ (List.mem_singleton_self _))) hkept

variable (m sysEvalString) in
/-- The messages from one end to the other: those that have been obtained are the first
of those whose `send` has returned true, in order and as their text reads, and between
two calls the rest is in the stream; outside a call each end stands between two messages;
a sender does not receive; and `receive` returns when the sender has closed its end. -/
structure Reliable (s : Link ε) (x : Side) : Prop where
  obtained : ∃ transit,
    sentTexts (s x).replies = (obtained (s x.other).replies).map Prod.fst ++ transit ∧
      ((s x).activity = .idle → (s x.other).activity = .idle →
        (s x.other).inbox = (lengthHeader m).frames transit)
  read : ∀ message ∈ Message.obtained (s x.other).replies,
    sysEvalString message.1 = .ok (some message.2)
  written : (s x).activity = .idle →
    (s x).written = (lengthHeader m).frames (sentTexts (s x).replies)
  taken : (s x.other).activity = .idle →
    (s x.other).taken =
      (lengthHeader m).frames ((Message.obtained (s x.other).replies).map Prod.fst)
  sender : (s x).activity ≠ .receiving .send ∧
    ∀ length buffer, (s x).activity ≠ .receivingText .send length buffer
  returns : (s x).closed = true → ∀ call,
    ((s x.other).activity = .receiving call ∨
      ∃ length buffer, (s x.other).activity = .receivingText call length buffer) →
    Returns m sysEvalString x.other s

theorem Kept.reliable (h : Kept m sysEvalString s) (x : Side) :
    Reliable m sysEvalString s x := by
  obtain ⟨transit, hcarried⟩ := h.carried x
  have hproper := h.proper x
  refine ⟨⟨transit, hcarried.sent, ?_⟩, (h.proper x.other).values, ?_, ?_, ⟨?_, ?_⟩, ?_⟩
  · intro hidle hother
    have hstream := hcarried.stream
    rw [hidle, hother] at hstream
    simpa [Activity.got, Activity.begun] using hstream
  · intro hidle
    have hwritten := hcarried.written
    rw [hidle] at hwritten
    simpa [Activity.begun] using hwritten
  · intro hidle
    have htaken := hcarried.taken
    rw [hidle] at htaken
    simpa [Activity.got] using htaken
  · intro hsend
    cases hproper.receiving _ hsend
  · intro length buffer hsend
    cases (hproper.receivingText _ _ _ hsend).1
  · intro hclosed call hactivity
    exact h.returns (by rwa [Side.other_other]) hactivity

/-- In every run whose steps are all clean the messages of both ends are carried
reliably. -/
theorem messages_reliable (hrun : Run m sysEvalString steps s)
    (hclean : ∀ step ∈ steps, step.2.2.Clean sysEvalString step.1 step.2.1) (x : Side) :
    Reliable m sysEvalString s x :=
  (hrun.kept hclean).reliable x

end Runs

section Example

def littleEndian : Pack.Machine := ⟨false, 0, by decide⟩

/-- A reader of single digits. -/
def readDigit (text : List UInt8) : Except Unit (Option Cell) :=
  match text with
  | [digit] => .ok (some (.long (.ofNat 64 (digit.toNat - 48))))
  | _ => .ok none

/-- The parent has sent the header of the message 7, and the message. -/
def headerSent : Link Unit :=
  sendHeader littleEndian .parent [55] (.accepted 8) (become .parent (.sending [55]) start)

def messageSent : Link Unit := sendText .parent [55] (.accepted 1) headerSent

/-- The child has received the header, and the message. -/
def headerReceived : Link Unit :=
  recvHeader littleEndian .child .receive (.delivered 8)
    (become .child (.receiving .receive) messageSent)

def messageReceived : Link Unit :=
  finishReceive readDigit .child .receive [55]
    (recvText .child .receive 1 [] (.delivered 1) headerReceived)

theorem run_headerSent : Run littleEndian readDigit
    [(start, .parent, .begin [55]),
      (become .parent (.sending [55]) start, .parent, .sendHeader (.accepted 8))]
    headerSent :=
  .step (.step .start (.begin rfl rfl (by decide)))
    (.sendHeader rfl rfl (by exact ⟨by decide, rfl⟩))

theorem run_messageSent : Run littleEndian readDigit
    [(start, .parent, .begin [55]),
      (become .parent (.sending [55]) start, .parent, .sendHeader (.accepted 8)),
      (headerSent, .parent, .sendText (.accepted 1))]
    messageSent :=
  run_headerSent.step (.sendText rfl rfl (by exact ⟨by decide, rfl⟩))

theorem run_headerReceived : Run littleEndian readDigit
    [(start, .parent, .begin [55]),
      (become .parent (.sending [55]) start, .parent, .sendHeader (.accepted 8)),
      (headerSent, .parent, .sendText (.accepted 1)),
      (messageSent, .child, .startReceive),
      (become .child (.receiving .receive) messageSent, .child, .recvHeader (.delivered 8))]
    headerReceived :=
  (run_messageSent.step (.startReceive rfl rfl)).step
    (.recvHeader rfl rfl (by exact ⟨by decide, by decide, by decide⟩))

theorem headerReceived_activity :
    (headerReceived .child).activity = .receivingText .receive 1 [] := by
  decide

def textReceived : Link Unit := recvText .child .receive 1 [] (.delivered 1) headerReceived

theorem run_messageReceived : Run littleEndian readDigit
    [(start, .parent, .begin [55]),
      (become .parent (.sending [55]) start, .parent, .sendHeader (.accepted 8)),
      (headerSent, .parent, .sendText (.accepted 1)),
      (messageSent, .child, .startReceive),
      (become .child (.receiving .receive) messageSent, .child, .recvHeader (.delivered 8)),
      (headerReceived, .child, .recvText (.delivered 1)),
      (textReceived, .child, .finish)]
    messageReceived :=
  (run_headerReceived.step (.recvText rfl headerReceived_activity (by decide)
    (by exact ⟨by decide, by decide, by decide⟩))).step (.finish rfl rfl le_rfl)

theorem obtained_messageReceived :
    obtained (messageReceived .child).replies = [([55], .long 7)] := by
  rfl

/-- The child receives the message 7 of its parent. -/
theorem messages_reliable_digit :
    ∃ steps, Run littleEndian readDigit steps messageReceived ∧
      (∀ x, Reliable littleEndian readDigit messageReceived x) ∧
      obtained (messageReceived .child).replies = [([55], .long 7)] := by
  refine ⟨_, run_messageReceived, fun x => messages_reliable run_messageReceived ?_ x,
    obtained_messageReceived⟩
  simp only [List.forall_mem_cons, List.not_mem_nil, false_implies, implies_true, and_true]
  have hbegin : Event.Clean readDigit start .parent (.begin [55]) := ⟨by decide, _, rfl⟩
  refine ⟨hbegin, rfl, ?_, trivial, rfl, ?_, trivial⟩
  · rintro text ⟨⟩
    rfl
  · rintro ⟨⟩

/-- The parent has sent the header of the message 78, and one byte of the message. -/
def otherHeader : Link Unit :=
  sendHeader littleEndian .parent [55, 56] (.accepted 8)
    (become .parent (.sending [55, 56]) start)

def partSent : Link Unit := sendText .parent [55, 56] (.accepted 1) otherHeader

theorem run_partSent : Run littleEndian readDigit
    [(start, .parent, .begin [55, 56]),
      (become .parent (.sending [55, 56]) start, .parent, .sendHeader (.accepted 8)),
      (otherHeader, .parent, .sendText (.accepted 1))]
    partSent :=
  .step (.step (.step .start (.begin rfl rfl (by decide)))
    (.sendHeader rfl rfl (by exact ⟨by decide, rfl⟩)))
    (.sendText rfl rfl (by exact ⟨by decide, rfl⟩))

theorem inbox_partSent : (partSent .child).inbox = [2, 0, 0, 0, 0, 0, 0, 0, 55] := by
  decide

/-- Only a part of a text is accepted: `send` returns nil and leaves the header and the
part in the stream. -/
theorem partial_send_breaks_stream :
    ∃ steps s, Run littleEndian readDigit steps s ∧ (s .parent).activity = .idle ∧
      (s .parent).replies = [.nil .send] ∧ (s .child).inbox = [2, 0, 0, 0, 0, 0, 0, 0, 55] ∧
      ¬ Reliable littleEndian readDigit s .parent := by
  refine ⟨_, partSent, run_partSent, rfl, rfl, inbox_partSent, ?_⟩
  intro hreliable
  have hwritten := hreliable.written rfl
  exact absurd hwritten (by decide)

end Example

end Message

end NewLispNeo
