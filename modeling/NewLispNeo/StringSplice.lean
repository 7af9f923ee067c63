/-
The second half of `replaceString`: the entries for the matches are copied into a new
buffer, together with what stands between them.
-/
import NewLispNeo.StringReplace

namespace NewLispNeo

namespace StringReplace

open Leftmost (Match Pattern)

variable {subject : List UInt8}

/-! ### The new buffer -/

section Splice

/-- The matches follow each other from `offset` on. -/
def Ordered (size : Nat) : Nat → List (Match (List (List UInt8)) × Cell) → Prop
  | offset, [] => offset ≤ size
  | offset, (m, _) :: pairs => offset ≤ m.start ∧ m.start ≤ m.stop ∧ Ordered size m.stop pairs

/-- The entry for a match and its value. -/
def pairEdit (subject : List UInt8) (p : Match (List (List UInt8)) × Cell) : Edit where
  offset := p.1.start
  length := (p.1.stop - p.1.start : Nat)
  repStr := replacement subject p.1 p.2
  repLen := (replacement subject p.1 p.2).length

/-- The end of the last match. -/
def lastStop (offset : Nat) (pairs : List (Match (List (List UInt8)) × Cell)) : Nat :=
  (pairs.getLast?.map fun p => p.1.stop).getD offset

variable {done src : List UInt8} {size offset k pos n : Nat}
  {m : Match (List (List UInt8))} {cell : Cell}
  {pairs : List (Match (List (List UInt8)) × Cell)}

theorem lastStop_cons (p : Match (List (List UInt8)) × Cell) :
    lastStop offset (p :: pairs) = lastStop p.1.stop pairs := by
  cases pairs with
  | nil => rfl
  | cons p' pairs => simp [lastStop, List.getLast?_cons]

theorem Ordered.le_size (h : Ordered size offset pairs) : offset ≤ size := by
  induction pairs generalizing offset with
  | nil => exact h
  | cons p pairs ih => exact (h.1.trans h.2.1).trans (ih h.2.2)

theorem Ordered.lastStop_le (h : Ordered size offset pairs) : lastStop offset pairs ≤ size := by
  induction pairs generalizing offset with
  | nil => exact h
  | cons p pairs ih =>
      rw [lastStop_cons]
      exact ih h.2.2

/-- A copy to the end of what has been written. -/
theorem memcpy_fill (hn : n ≤ k) (hpos : pos + n ≤ src.length) :
    memcpy (done ++ List.replicate k 0) done.length src pos n =
      some (done ++ (src.drop pos).take n ++ List.replicate (k - n) 0) := by
  rw [memcpy, if_pos (by
    rw [List.length_append, List.length_replicate]
    omega)]
  have hto : ((done.length : Int) + n).toNat = done.length + n := by omega
  rw [hto, Int.toNat_natCast, Int.toNat_natCast, Int.toNat_natCast, List.take_left,
    List.drop_append, List.drop_of_length_le (Nat.le_add_right _ _), List.nil_append,
    List.drop_replicate]
  congr 3
  omega

/-- The bytes of the subject between two matches, taken from its memory. -/
theorem slice_memory (start : Nat) {stop : Nat} (h : stop ≤ subject.length) :
    ((subject ++ [0]).drop start).take (stop - start) = slice subject start stop := by
  rw [slice]
  by_cases hle : start ≤ subject.length
  · rw [List.drop_append_of_le_length hle, List.take_append_of_le_length]
    rw [List.length_drop]
    omega
  · have hzero : stop - start = 0 := by omega
    rw [hzero, List.take_zero, List.take_zero]

theorem length_slice {start stop : Nat} (h : stop ≤ subject.length) :
    (slice subject start stop).length = stop - start := by
  rw [slice, List.length_take, List.length_drop]
  omega

theorem spliceEdits_cons (e next : Edit) (edits : List Edit) (count : Int)
    (newBuff : List UInt8) : spliceEdits subject (e :: next :: edits) count newBuff =
      (memcpy newBuff count (e.repStr ++ [0]) 0 e.repLen).bind fun newBuff =>
        (memcpy newBuff (count + e.repLen) (subject ++ [0]) (e.offset + e.length)
          (next.offset - e.offset - e.length)).bind fun newBuff =>
            spliceEdits subject (next :: edits)
              (count + e.repLen + (next.offset - e.offset - e.length)) newBuff := rfl

/-- The replacement of a match is written behind what is there. -/
theorem memcpy_replacement (hn : (replacement subject m cell).length ≤ k) :
    memcpy (done ++ List.replicate k 0) done.length
        ((pairEdit subject (m, cell)).repStr ++ [0]) 0 (pairEdit subject (m, cell)).repLen =
      some (done ++ replacement subject m cell ++
        List.replicate (k - (replacement subject m cell).length) 0) := by
  have hcopy := @memcpy_fill done (replacement subject m cell ++ [0]) k 0
    (replacement subject m cell).length hn (by simp)
  rw [List.drop_zero, List.take_left] at hcopy
  exact hcopy

/-- The loop over the entries writes all up to the last match and leaves the rest. -/
theorem spliceEdits_run (h : Ordered subject.length m.stop pairs) (hstart : m.start ≤ m.stop)
    (hroom : (done ++ replacement subject m cell ++ spliced subject m.stop pairs).length ≤
      done.length + k) :
    ∃ done', spliceEdits subject (((m, cell) :: pairs).map (pairEdit subject)) done.length
        (done ++ List.replicate k 0) =
          some ((done'.length : Int), done' ++ List.replicate (done.length + k - done'.length) 0) ∧
      done' ++ subject.drop (lastStop m.stop pairs) =
        done ++ replacement subject m cell ++ spliced subject m.stop pairs := by
  induction pairs generalizing m cell done k with
  | nil =>
      refine ⟨done ++ replacement subject m cell, ?_, rfl⟩
      rw [List.length_append, List.length_append] at hroom
      have hcopy := @memcpy_replacement subject done k m cell (by omega)
      simp only [List.map_cons, List.map_nil, spliceEdits]
      rw [hcopy]
      simp only [Option.bind_eq_bind, Option.bind_some, pairEdit, List.length_append,
        Nat.cast_add]
      congr 4
      omega
  | cons p pairs ih =>
      obtain ⟨m', cell'⟩ := p
      obtain ⟨hle, hle', hrest⟩ := h
      have hsize := hrest.le_size
      simp only [spliced, List.length_append] at hroom
      have hgap : (slice subject m.stop m'.start).length = m'.start - m.stop :=
        length_slice (by omega)
      have hcopy := @memcpy_replacement subject done k m cell (by omega)
      have hcopy' : memcpy (done ++ replacement subject m cell ++
            List.replicate (k - (replacement subject m cell).length) 0)
          (done ++ replacement subject m cell).length (subject ++ [0]) (m.stop : Int)
          ((m'.start - m.stop : Nat) : Int) =
            some (done ++ replacement subject m cell ++ slice subject m.stop m'.start ++
              List.replicate (k - (replacement subject m cell).length -
                (m'.start - m.stop)) 0) := by
        rw [memcpy_fill (by omega) (by
          rw [List.length_append, List.length_singleton]
          omega), slice_memory _ (by omega)]
      obtain ⟨done', hrun, htext⟩ := @ih
        (done ++ replacement subject m cell ++ slice subject m.stop m'.start)
        (k - (replacement subject m cell).length - (m'.start - m.stop)) m' cell' hrest hle' (by
          simp only [List.length_append]
          omega)
      refine ⟨done', ?_, ?_⟩
      · have hfrom : (pairEdit subject (m, cell)).offset + (pairEdit subject (m, cell)).length =
            (m.stop : Int) := by
          simp only [pairEdit]
          omega
        have hlen : (pairEdit subject (m', cell')).offset -
            (pairEdit subject (m, cell)).offset - (pairEdit subject (m, cell)).length =
              ((m'.start - m.stop : Nat) : Int) := by
          simp only [pairEdit]
          omega
        have hcount : (done.length : Int) + (pairEdit subject (m, cell)).repLen =
            ((done ++ replacement subject m cell).length : Int) := by
          rw [List.length_append, Nat.cast_add]
          rfl
        have hcount' : ((done ++ replacement subject m cell).length : Int) +
            ((m'.start - m.stop : Nat) : Int) =
              ((done ++ replacement subject m cell ++
                slice subject m.stop m'.start).length : Int) := by
          simp only [List.length_append, hgap, Nat.cast_add]
        rw [List.map_cons, List.map_cons, spliceEdits_cons, hcopy, Option.bind_some, hfrom,
          hlen, hcount, hcopy', Option.bind_some, hcount', ← List.map_cons, hrun]
        congr 4
        simp only [List.length_append, hgap]
        omega
      · rw [lastStop_cons, htext]
        simp only [spliced, List.append_assoc]

/-- The variables of the first loop behind these matches. -/
def Collected.addAll (subject : List UInt8) (c : Collected)
    (pairs : List (Match (List (List UInt8)) × Cell)) : Collected :=
  pairs.foldl (fun c p => c.add p.1 (pairEdit subject p)) c

theorem Collected.addAll_cons (c : Collected) (p : Match (List (List UInt8)) × Cell) :
    c.addAll subject (p :: pairs) = (c.add p.1 (pairEdit subject p)).addAll subject pairs := rfl

theorem Collected.edits_addAll (c : Collected) :
    (c.addAll subject pairs).edits = c.edits ++ pairs.map (pairEdit subject) := by
  induction pairs generalizing c with
  | nil => exact (List.append_nil _).symm
  | cons p pairs ih =>
      rw [addAll_cons, ih, List.map_cons]
      exact List.append_assoc _ [pairEdit subject p] _

theorem Collected.offset_addAll (c : Collected) (h : c.offset = offset + c.bias) :
    (c.addAll subject pairs).offset =
      lastStop offset pairs + (c.addAll subject pairs).bias := by
  induction pairs generalizing c offset with
  | nil => exact h
  | cons p pairs ih =>
      rw [lastStop_cons, addAll_cons]
      exact ih (c.add p.1 (pairEdit subject p)) rfl

/-- The length that is computed is the length of the text. -/
theorem length_spliced (c : Collected) (h : Ordered subject.length offset pairs) :
    ((spliced subject offset pairs).length : Int) = subject.length - offset -
      ((c.addAll subject pairs).oldLen - c.oldLen) +
        ((c.addAll subject pairs).newLen - c.newLen) := by
  induction pairs generalizing c offset with
  | nil =>
      have hle : offset ≤ subject.length := h
      rw [spliced, List.length_drop, Collected.addAll, List.foldl_nil]
      omega
  | cons p pairs ih =>
      obtain ⟨m, cell⟩ := p
      obtain ⟨hle, hle', hrest⟩ := h
      have hsize := hrest.le_size
      have hlen := ih (c.add m (pairEdit subject (m, cell))) hrest
      rw [spliced, List.length_append, List.length_append, length_slice (by omega),
        Collected.addAll_cons]
      simp only [Collected.add, pairEdit] at hlen ⊢
      push_cast
      omega

/-- The second half of `replaceString` makes the text, and has written as much as was
computed. -/
theorem splice_eq (h : Ordered subject.length 0 ((m, cell) :: pairs)) :
    splice subject (Collected.addAll subject ⟨0, 0, [], 0, 0⟩ ((m, cell) :: pairs))
        (pairEdit subject (m, cell)) =
      some ⟨spliced subject 0 ((m, cell) :: pairs) ++ [0],
        (spliced subject 0 ((m, cell) :: pairs)).length,
        (spliced subject 0 ((m, cell) :: pairs)).length⟩ := by
  have hlen := length_spliced ⟨0, 0, [], 0, 0⟩ h
  have hoffset := @Collected.offset_addAll subject 0 ((m, cell) :: pairs) ⟨0, 0, [], 0, 0⟩ rfl
  have hedits := @Collected.edits_addAll subject ((m, cell) :: pairs) ⟨0, 0, [], 0, 0⟩
  have hlast : lastStop m.stop pairs ≤ subject.length := h.2.2.lastStop_le
  obtain ⟨-, hle, hrest⟩ := h
  have hsize := hrest.le_size
  generalize Collected.addAll subject ⟨0, 0, [], 0, 0⟩ ((m, cell) :: pairs) = c at *
  have htext : spliced subject 0 ((m, cell) :: pairs) = slice subject 0 m.start ++
      replacement subject m cell ++ spliced subject m.stop pairs := rfl
  have hslice : (slice subject 0 m.start).length = m.start := length_slice (by omega)
  have hback : c.offset = lastStop m.stop pairs + c.bias := by
    rw [hoffset, lastStop_cons]
  generalize hL : (spliced subject 0 ((m, cell) :: pairs)).length = L at *
  have hnew : (subject.length : Int) - c.oldLen + c.newLen = L := by
    simp only at hlen
    omega
  have hroom : m.start ≤ L := by
    rw [htext] at hL
    simp only [List.length_append, hslice] at hL
    omega
  have hfirst : memcpy (List.replicate (L + 1) 0) 0 (subject ++ [0]) 0
      (pairEdit subject (m, cell)).offset =
        some (slice subject 0 m.start ++ List.replicate (L + 1 - m.start) 0) := by
    have hcopy := @memcpy_fill [] (subject ++ [0]) (L + 1) 0 m.start (by omega) (by
      rw [List.length_append]
      omega)
    have hmemory := slice_memory 0 (by omega : m.start ≤ subject.length)
    rw [Nat.sub_zero] at hmemory
    rw [List.nil_append, List.nil_append, hmemory] at hcopy
    exact hcopy
  obtain ⟨done', hrun, hdone⟩ := @spliceEdits_run subject (slice subject 0 m.start)
    (L + 1 - m.start) m cell pairs hrest hle (by
      rw [← htext, hL, hslice]
      omega)
  rw [← htext] at hdone
  have hdoneL := congrArg List.length hdone
  rw [List.length_append, List.length_drop, hL] at hdoneL
  have hmem : (subject ++ [0]).length = subject.length + 1 := by
    rw [List.length_append, List.length_singleton]
  rw [hslice] at hrun
  have hlastCopy : memcpy (done' ++ List.replicate (m.start + (L + 1 - m.start) - done'.length) 0)
      done'.length (subject ++ [0]) ((c.offset : Int) - c.bias)
      ((subject.length : Int) - c.offset + c.bias) =
        some (spliced subject 0 ((m, cell) :: pairs) ++ [0]) := by
    have hcopy := @memcpy_fill done' (subject ++ [0])
      (m.start + (L + 1 - m.start) - done'.length) (lastStop m.stop pairs)
      (subject.length - lastStop m.stop pairs) (by omega) (by omega)
    have hfrom : (c.offset : Int) - c.bias = (lastStop m.stop pairs : Nat) := by omega
    have hcount : (subject.length : Int) - c.offset + c.bias =
        (subject.length - lastStop m.stop pairs : Nat) := by omega
    have hdrop : (subject.drop (lastStop m.stop pairs)).take
        (subject.length - lastStop m.stop pairs) = subject.drop (lastStop m.stop pairs) := by
      rw [← List.length_drop, List.take_length]
    have hone : m.start + (L + 1 - m.start) - done'.length -
        (subject.length - lastStop m.stop pairs) = 1 := by omega
    rw [slice_memory _ (Nat.le_refl _), slice, hdrop, hdone, hone] at hcopy
    rw [hfrom, hcount]
    exact hcopy
  have hnat : ((L : Int) + 1).toNat = L + 1 := by omega
  have hsplice : splice subject c (pairEdit subject (m, cell)) =
      ((memcpy (List.replicate (L + 1) 0) 0 (subject ++ [0]) 0
        (pairEdit subject (m, cell)).offset).bind fun newBuff =>
          (spliceEdits subject c.edits (pairEdit subject (m, cell)).offset newBuff).bind
            fun r =>
              (memcpy r.2 r.1 (subject ++ [0]) ((c.offset : Int) - c.bias)
                ((subject.length : Int) - c.offset + c.bias)).bind fun newBuff =>
                  some ⟨newBuff, L, r.1 + ((subject.length : Int) - c.offset + c.bias)⟩) := by
    rw [splice, hnew, if_neg (by omega), hnat]
    rfl
  rw [hsplice, hfirst, Option.bind_some, hedits, List.nil_append]
  have hstart : (pairEdit subject (m, cell)).offset = (m.start : Nat) := rfl
  rw [hstart, hrun, Option.bind_some]
  simp only [hlastCopy, Option.bind_some]
  congr 2
  omega

end Splice

end StringReplace

end NewLispNeo
