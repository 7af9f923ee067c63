/-
Messages in a stream, each behind a header of a fixed width that holds its length.
-/
import Mathlib.Data.List.Basic

namespace Framing

universe u

/-- A header of a fixed width for the lengths below a limit. -/
structure Header (α : Type u) where
  width : ℕ
  limit : ℕ
  encode : ℕ → List α
  decode : List α → ℕ
  width_pos : 0 < width
  length_encode : ∀ n, (encode n).length = width
  decode_lt : ∀ bytes, bytes.length = width → decode bytes < limit
  decode_encode : ∀ n, n < limit → decode (encode n) = n
  encode_decode : ∀ bytes, bytes.length = width → encode (decode bytes) = bytes

namespace Header

variable {α : Type u} (h : Header α)

/-- A message behind its header. -/
def frame (message : List α) : List α := h.encode message.length ++ message

/-- The stream of some messages. -/
def frames (messages : List (List α)) : List α := messages.flatMap h.frame

variable {h} {message rest rest' : List α} {messages messages' : List (List α)} {n : ℕ}

@[simp] theorem frames_nil : h.frames [] = [] := rfl

@[simp] theorem frames_cons :
    h.frames (message :: messages) = h.frame message ++ h.frames messages := rfl

@[simp] theorem frames_append :
    h.frames (messages ++ messages') = h.frames messages ++ h.frames messages' :=
  List.flatMap_append

/-- Two streams that are the same begin with the same header. -/
theorem encode_append_inj (hn : n < h.limit) (hlimit : message.length < h.limit)
    (heq : h.encode n ++ rest = h.frame message ++ rest') :
    n = message.length ∧ rest = message ++ rest' := by
  rw [frame, List.append_assoc] at heq
  obtain ⟨hheader, hrest⟩ := List.append_inj heq
    ((h.length_encode n).trans (h.length_encode _).symm)
  refine ⟨?_, hrest⟩
  rw [← h.decode_encode n hn, hheader, h.decode_encode _ hlimit]

/-- As many bytes as the header says are the message. -/
theorem message_eq (hn : n < h.limit) (hlimit : message.length < h.limit) {body : List α}
    (hbody : body.length = n) (heq : h.encode n ++ body ++ rest = h.frame message ++ rest') :
    body = message ∧ rest = rest' := by
  rw [List.append_assoc] at heq
  obtain ⟨hlength, heq⟩ := encode_append_inj hn hlimit heq
  exact List.append_inj heq (hbody.trans hlength)

end Header

end Framing
