/-
`search` without a regular expression: the file is read in windows of `SEARCH_SIZE`
bytes, and two windows overlap in as many bytes as the search string has.
-/
import NewLispNeo.Compare
import NewLispNeo.Binary64Round
import Mathlib.Data.List.Basic
import Mathlib.Tactic.Linarith

namespace NewLispNeo

namespace FileSearch

/-- `SEARCH_SIZE`. -/
def searchSize : Nat := 0x1000

/-- An open file. -/
structure File where
  content : List UInt8
  offset : Nat

namespace File

/-- `read`: the whole count, except at the end of the file. -/
def read (file : File) (count : Nat) : List UInt8 × File :=
  let data := (file.content.drop file.offset).take count
  (data, { file with offset := file.offset + data.length })

/-- `lseek` from the start of the file, which refuses a negative position. -/
def lseek (file : File) (position : Int) : File :=
  if position < 0 then file else { file with offset := position.toNat }

end File

/-- The loop of `searchBuffer`, `left` bytes before the end: it breaks where `order` is zero. -/
def scanBuffer (order : List UInt8 → Outcome Error Int) :
    Nat → Nat → List UInt8 → Outcome Error (Option Nat)
  | 0, _, _ => .value none
  | left + 1, position, buffer =>
      order buffer >>= fun comp =>
        if comp = 0 then .value (some position)
        else scanBuffer order left (position + 1) buffer.tail

/-- The comparison with case sensitivity, in the memory from a position to its end. -/
def compareBytes (string buffer : List UInt8) : Outcome Error Int :=
  if buffer.head? = string.head? then memcmp buffer string string.length else .value 1

/-- `searchBuffer` with case sensitivity. -/
def searchBuffer (string : List UInt8) :
    Nat → Nat → List UInt8 → Outcome Error (Option Nat) :=
  scanBuffer (compareBytes string)

/-- The `do` loop. -/
def searchLoop (searchString : List UInt8) :
    Nat → Int → File → Outcome Error (Option Int × File)
  | 0, _, _ => .timeout
  | fuel + 1, filePosition, file =>
      let (data, file) := file.read searchSize
      let buffer := data ++ List.replicate (searchSize + 1 - data.length) 0
      searchBuffer searchString data.length 0 buffer >>= fun position =>
        match position with
        | some position => .value (some (filePosition + position), file)
        | none =>
            let filePosition := filePosition + data.length - searchString.length
            let file := file.lseek filePosition
            if data.length = searchSize then searchLoop searchString fuel filePosition file
            else .value (none, file)

/-- `p_search` of an open file.  The position is a float, for large files. -/
def p_search (fuel : Nat) (file : File) (searchString : List UInt8) (flag : Bool) :
    Outcome Error (Cell × File) :=
  if searchString = [] then .value (.nil, file)
  else
    searchLoop searchString fuel file.offset file >>= fun (position, file) =>
      match position with
      | none => .value (.nil, file)
      | some position =>
          let foundPosition := if flag then position + searchString.length else position
          .value (.float (Binary64.ofInt foundPosition), file.lseek foundPosition)

/-! ### What the search should find -/

/-- The key stands at this position of the content. -/
def OccursAt (content key : List UInt8) (q : Nat) : Prop := key <+: content.drop q

structure LeastFrom (content key : List UInt8) (start q : Nat) : Prop where
  le : start ≤ q
  occurs : OccursAt content key q
  least : ∀ q', start ≤ q' → OccursAt content key q' → q ≤ q'

/-- The position that is returned for an occurrence. -/
def reported (key : List UInt8) (flag : Bool) (q : Nat) : Nat :=
  if flag then q + key.length else q

/-- `search` returns the least occurrence from the start on and leaves the file there, or
it returns `nil` when there is none. -/
structure SearchesRight (content key : List UInt8) (start : Nat) (flag : Bool) : Prop where
  found : ∀ q, LeastFrom content key start q → ∃ fuel₀, ∀ fuel, fuel₀ ≤ fuel →
    p_search fuel ⟨content, start⟩ key flag =
      .value (.float (Binary64.ofInt (reported key flag q)), ⟨content, reported key flag q⟩)
  absent : (∀ q, start ≤ q → ¬ OccursAt content key q) → ∃ fuel₀, ∀ fuel, fuel₀ ≤ fuel →
    ∃ file, p_search fuel ⟨content, start⟩ key flag = .value (.nil, file)

/-! ### One buffer -/

/-- Where the loop does not go on: the memory begins with the key, or with its first byte
only and is too short for the comparison. -/
def Stops (memory key : List UInt8) : Prop :=
  key <+: memory ∨ memory.head? = key.head? ∧ memory.length < key.length

instance (memory key : List UInt8) : Decidable (Stops memory key) :=
  inferInstanceAs (Decidable (_ ∨ _))

theorem Stops.head?_eq {memory key : List UInt8} (h : Stops memory key) (hkey : key ≠ []) :
    memory.head? = key.head? := by
  rcases h with ⟨rest, rfl⟩ | ⟨hhead, -⟩
  · obtain ⟨c, key, rfl⟩ := List.exists_cons_of_ne_nil hkey
    rfl
  · exact hhead

section Buffer

variable {memory key : List UInt8} {left position p : Nat}
  {order : List UInt8 → Outcome Error Int}

theorem firstDifference_eq_zero {l r : List UInt8} (h : l.length = r.length) :
    firstDifference l r = 0 ↔ l = r := by
  induction l generalizing r with
  | nil =>
      obtain rfl := List.length_eq_zero_iff.mp h.symm
      exact ⟨fun _ => rfl, fun _ => rfl⟩
  | cons a l ih =>
      cases r with
      | nil => cases h
      | cons b r =>
          rw [firstDifference, List.cons.injEq]
          by_cases hab : a = b
          · subst hab
            rw [if_neg (UInt8.lt_irrefl a), if_neg (UInt8.lt_irrefl a), ih (Nat.succ.inj h)]
            exact (and_iff_right rfl).symm
          · have hne : ¬ (a = b ∧ l = r) := fun heq => hab heq.1
            rcases UInt8.lt_or_lt_of_ne hab with hlt | hgt
            · rw [if_pos hlt]
              exact iff_of_false (by decide) hne
            · rw [if_neg (UInt8.lt_asymm hgt), if_pos hgt]
              exact iff_of_false (by decide) hne

theorem compareBytes_starts (hkey : key ≠ []) (h : key <+: memory) :
    compareBytes key memory = .value 0 := by
  rw [compareBytes, if_pos (Stops.head?_eq (.inl h) hkey), memcmp,
    if_pos ⟨h.length_le, Nat.le_refl _⟩, List.take_length, ← List.prefix_iff_eq_take.mp h,
    (firstDifference_eq_zero rfl).mpr rfl]

theorem compareBytes_outside (hhead : memory.head? = key.head?)
    (hlen : memory.length < key.length) : compareBytes key memory = .undefined := by
  rw [compareBytes, if_pos hhead, memcmp, if_neg fun h => absurd h.1 (Nat.not_le.mpr hlen)]

theorem compareBytes_differs (h : ¬ Stops memory key) :
    ∃ comp, compareBytes key memory = .value comp ∧ comp ≠ 0 := by
  rw [compareBytes]
  by_cases hhead : memory.head? = key.head?
  · have hlen : key.length ≤ memory.length :=
      Nat.le_of_not_lt fun hlt => h (.inr ⟨hhead, hlt⟩)
    rw [if_pos hhead, memcmp, if_pos ⟨hlen, Nat.le_refl _⟩, List.take_length]
    refine ⟨_, rfl, fun hzero => h (.inl ?_)⟩
    rw [List.prefix_iff_eq_take]
    exact ((firstDifference_eq_zero (List.length_take_of_le hlen)).mp hzero).symm
  · rw [if_neg hhead]
    exact ⟨1, rfl, by decide⟩

/-- The loop passes the positions whose bytes differ. -/
theorem scanBuffer_skip (position : Nat) (hp : p ≤ left)
    (h : ∀ p', p' < p → ∃ comp, order (memory.drop p') = .value comp ∧ comp ≠ 0) :
    scanBuffer order left position memory =
      scanBuffer order (left - p) (position + p) (memory.drop p) := by
  induction p generalizing left position memory with
  | zero => rfl
  | succ p ih =>
      obtain ⟨left, rfl⟩ := Nat.exists_eq_succ_of_ne_zero (by omega : left ≠ 0)
      obtain ⟨comp, hcomp, hne⟩ := h 0 (by omega)
      rw [List.drop_zero] at hcomp
      have hrest := @ih memory.tail left (position + 1) (by omega) fun p' hp' => by
        rw [List.drop_tail]
        exact h (p' + 1) (by omega)
      rw [scanBuffer, hcomp, Outcome.value_bind, if_neg hne, hrest, List.drop_tail,
        Nat.succ_sub_succ, Nat.add_assoc, Nat.add_comm 1 p]

theorem scanBuffer_none (position : Nat)
    (h : ∀ p, p < left → ∃ comp, order (memory.drop p) = .value comp ∧ comp ≠ 0) :
    scanBuffer order left position memory = .value none := by
  rw [scanBuffer_skip position (Nat.le_refl left) h, Nat.sub_self]
  rfl

/-- The first position whose bytes do not differ decides. -/
theorem scanBuffer_first (position : Nat) (hp : p < left)
    (h : ∀ p', p' < p → ∃ comp, order (memory.drop p') = .value comp ∧ comp ≠ 0) :
    (order (memory.drop p) = .value 0 →
      scanBuffer order left position memory = .value (some (position + p))) ∧
    (order (memory.drop p) = .undefined →
      scanBuffer order left position memory = .undefined) := by
  obtain ⟨rest, hrest⟩ : ∃ rest, left - p = rest + 1 := ⟨left - p - 1, by omega⟩
  rw [scanBuffer_skip position hp.le h, hrest, scanBuffer]
  refine ⟨fun hzero => ?_, fun hundefined => ?_⟩
  · rw [hzero, Outcome.value_bind, if_pos rfl]
  · rw [hundefined, Outcome.undefined_bind]

theorem searchBuffer_none (h : ∀ p, p < left → ¬ Stops (memory.drop p) key) :
    searchBuffer key left position memory = .value none :=
  scanBuffer_none position fun p hp => compareBytes_differs (h p hp)

theorem searchBuffer_first (position : Nat) (hkey : key ≠ []) (hp : p < left)
    (hfirst : ∀ p', p' < p → ¬ Stops (memory.drop p') key) :
    (key <+: memory.drop p →
      searchBuffer key left position memory = .value (some (position + p))) ∧
    (Stops (memory.drop p) key → ¬ key <+: memory.drop p →
      searchBuffer key left position memory = .undefined) := by
  obtain ⟨hmatch, hout⟩ := scanBuffer_first position hp
    fun p' hp' => compareBytes_differs (hfirst p' hp')
  refine ⟨fun hstarts => hmatch (compareBytes_starts hkey hstarts), fun hstops hno => ?_⟩
  obtain ⟨hhead, hlen⟩ := hstops.resolve_left hno
  exact hout (compareBytes_outside hhead hlen)

end Buffer

/-! ### The windows -/

section Windows

variable (content key : List UInt8) (start : Nat)

/-- The variable `filePosition` in the round `n`. -/
def windowStart (n : Nat) : Int := start + n * ((searchSize : Int) - key.length)

/-- The offset of the file in the round `n`, when the windows before are full. -/
def windowOffset : Nat → Nat
  | 0 => start
  | n + 1 =>
      if windowStart key start (n + 1) < 0 then windowOffset n + searchSize
      else (windowStart key start (n + 1)).toNat

def window (n : Nat) : List UInt8 :=
  (content.drop (windowOffset key start n)).take searchSize

/-- The buffer, filled up with zeros. -/
def buffer (n : Nat) : List UInt8 :=
  window content key start n ++
    List.replicate (searchSize + 1 - (window content key start n).length) 0

def Full (n : Nat) : Prop := (window content key start n).length = searchSize

/-- At this place of the window the buffer goes on with the key, or with its first byte and is
too short for the comparison. -/
def StopsAt (n p : Nat) : Prop :=
  p < (window content key start n).length ∧ Stops ((buffer content key start n).drop p) key

/-- The first such place of all windows. -/
structure FirstStop (n p : Nat) : Prop where
  full : ∀ m, m < n → Full content key start m
  before : ∀ m, m < n → ∀ p', ¬ StopsAt content key start m p'
  stops : StopsAt content key start n p
  first : ∀ p', p' < p → ¬ StopsAt content key start n p'

end Windows

section Rounds

variable {content key : List UInt8} {start n p q fuel : Nat}

theorem length_buffer (n : Nat) :
    (buffer content key start n).length = searchSize + 1 := by
  have hle : (window content key start n).length ≤ searchSize := List.length_take_le _ _
  rw [buffer, List.length_append, List.length_replicate]
  omega

theorem length_window_le (n : Nat) : (window content key start n).length ≤ searchSize :=
  List.length_take_le _ _

theorem windowStart_zero : windowStart key start 0 = start := by
  simp [windowStart]

theorem windowStart_succ (n : Nat) : windowStart key start (n + 1) =
    windowStart key start n + searchSize - key.length := by
  simp only [windowStart]
  push_cast
  ring

/-- The file and its position in the round `n`. -/
def fileAt (content key : List UInt8) (start n : Nat) : File :=
  ⟨content, windowOffset key start n⟩

/-- A round, by its window. -/
theorem searchLoop_round (n : Nat) :
    searchLoop key (fuel + 1) (windowStart key start n) (fileAt content key start n) =
      searchBuffer key (window content key start n).length 0 (buffer content key start n) >>=
        fun position =>
          match position with
          | some position => .value (some (windowStart key start n + position),
              ⟨content, windowOffset key start n + (window content key start n).length⟩)
          | none =>
              if (window content key start n).length = searchSize then
                searchLoop key fuel
                  (windowStart key start n + (window content key start n).length - key.length)
                  (File.lseek
                    ⟨content, windowOffset key start n + (window content key start n).length⟩
                    (windowStart key start n + (window content key start n).length -
                      key.length))
              else .value (none, File.lseek
                ⟨content, windowOffset key start n + (window content key start n).length⟩
                (windowStart key start n + (window content key start n).length -
                  key.length)) := rfl

theorem searchBuffer_window (hno : ∀ p, ¬ StopsAt content key start n p) :
    searchBuffer key (window content key start n).length 0 (buffer content key start n) =
      .value none :=
  searchBuffer_none fun p hp hstops => hno p ⟨hp, hstops⟩

/-- A full window without a place to stop at leads to the next one. -/
theorem searchLoop_next (hfull : Full content key start n)
    (hno : ∀ p, ¬ StopsAt content key start n p) :
    searchLoop key (fuel + 1) (windowStart key start n) (fileAt content key start n) =
      searchLoop key fuel (windowStart key start (n + 1))
        (fileAt content key start (n + 1)) := by
  have hseek : File.lseek ⟨content, windowOffset key start n + searchSize⟩
      (windowStart key start (n + 1)) = fileAt content key start (n + 1) := by
    rw [File.lseek, fileAt, windowOffset]
    split_ifs <;> rfl
  rw [searchLoop_round, searchBuffer_window hno, Outcome.value_bind]
  simp only
  have hsize : (window content key start n).length = searchSize := hfull
  rw [if_pos hsize, hsize, ← windowStart_succ, hseek]

/-- A window that is not full ends the search. -/
theorem searchLoop_last (fuel : Nat) (hlast : ¬ Full content key start n)
    (hno : ∀ p, ¬ StopsAt content key start n p) :
    ∃ file, searchLoop key (fuel + 1) (windowStart key start n)
      (fileAt content key start n) = .value (none, file) := by
  rw [searchLoop_round, searchBuffer_window hno, Outcome.value_bind]
  simp only
  have hsize : (window content key start n).length ≠ searchSize := hlast
  rw [if_neg hsize]
  exact ⟨_, rfl⟩

theorem searchLoop_stops (fuel : Nat) (hkey : key ≠ [])
    (h : FirstStop content key start n p) :
    (key <+: (buffer content key start n).drop p →
      searchLoop key (fuel + 1) (windowStart key start n) (fileAt content key start n) =
        .value (some (windowStart key start n + p),
          ⟨content, windowOffset key start n + (window content key start n).length⟩)) ∧
    (¬ key <+: (buffer content key start n).drop p →
      searchLoop key (fuel + 1) (windowStart key start n)
        (fileAt content key start n) = .undefined) := by
  have hinside := h.stops.1
  have hfirst : ∀ p', p' < p → ¬ Stops ((buffer content key start n).drop p') key :=
    fun p' hp' hstops => h.first p' hp' ⟨by omega, hstops⟩
  obtain ⟨hmatch, hout⟩ := searchBuffer_first 0 hkey hinside hfirst
  rw [searchLoop_round]
  refine ⟨fun hstarts => ?_, fun hno => ?_⟩
  · rw [hmatch hstarts, Outcome.value_bind, Nat.zero_add]
  · rw [hout h.stops.2 hno]
    rfl

/-- The rounds before the window `n`. -/
theorem searchLoop_rounds (fuel : Nat) (hfull : ∀ m, m < n → Full content key start m)
    (hno : ∀ m, m < n → ∀ p, ¬ StopsAt content key start m p) :
    searchLoop key (n + fuel) start ⟨content, start⟩ =
      searchLoop key fuel (windowStart key start n) (fileAt content key start n) := by
  induction n generalizing fuel with
  | zero => rw [windowStart_zero, Nat.zero_add]; rfl
  | succ n ih =>
      have hbefore := ih (fuel + 1) (fun m hm => hfull m (by omega))
        fun m hm => hno m (by omega)
      rw [← searchLoop_next (hfull n (by omega)) (hno n (by omega)), ← hbefore]
      congr 1
      omega

end Rounds

/-! ### Where the windows lie -/

section Cover

variable {content key : List UInt8} {start n p q : Nat}

theorem OccursAt.length_le (h : OccursAt content key q) (hkey : key ≠ []) :
    q + key.length ≤ content.length := by
  have hle := List.IsPrefix.length_le h
  have hpos := List.length_pos_iff.mpr hkey
  rw [List.length_drop] at hle
  omega

/-- An occurrence inside a window is a place to stop at. -/
theorem stopsAt_of_occurs (hkey : key ≠ [])
    (hocc : OccursAt content key (windowOffset key start n + p))
    (hfits : p + key.length ≤ searchSize) : StopsAt content key start n p := by
  have hin : key <+: (window content key start n).drop p := by
    rw [window, List.drop_take, List.drop_drop, List.prefix_take_iff]
    exact ⟨hocc, by omega⟩
  have hlength := hin.length_le
  have hpos := List.length_pos_iff.mpr hkey
  rw [List.length_drop] at hlength
  refine ⟨by omega, .inl ?_⟩
  rw [buffer, List.drop_append_of_le_length (by omega)]
  exact hin.trans (List.prefix_append _ _)

theorem windowStart_short (hlen : key.length ≤ searchSize) (n : Nat) :
    windowStart key start n = (start + n * (searchSize - key.length) : Nat) := by
  rw [windowStart, ← Nat.cast_sub hlen]
  push_cast
  ring

theorem windowOffset_short (start : Nat) (hlen : key.length ≤ searchSize) (n : Nat) :
    windowOffset key start n = start + n * (searchSize - key.length) := by
  cases n with
  | zero => rw [windowOffset, Nat.zero_mul, Nat.add_zero]
  | succ n =>
      rw [windowOffset, windowStart_short hlen, if_neg (by omega), Int.toNat_natCast]

theorem full_iff (n : Nat) : Full content key start n ↔
    windowOffset key start n + searchSize ≤ content.length := by
  have hpos : 0 < searchSize := by decide
  rw [Full, window, List.length_take, List.length_drop]
  omega

/-- The windows before an occurrence are full, and it lies inside a window. -/
theorem exists_stopsAt (hkey : key ≠ []) (hlen : key.length < searchSize) (hstart : start ≤ q)
    (hocc : OccursAt content key q) : ∃ n p, q = windowOffset key start n + p ∧
      p < searchSize - key.length ∧ (∀ m, m < n → Full content key start m) ∧
      StopsAt content key start n p := by
  have hstep : 0 < searchSize - key.length := by omega
  have hsplit := Nat.mod_add_div (q - start) (searchSize - key.length)
  have hmod := Nat.mod_lt (q - start) hstep
  have hlength := hocc.length_le hkey
  obtain ⟨n, hn⟩ : ∃ n, n = (q - start) / (searchSize - key.length) := ⟨_, rfl⟩
  obtain ⟨p, hp⟩ : ∃ p, p = (q - start) % (searchSize - key.length) := ⟨_, rfl⟩
  rw [← hn, ← hp, Nat.mul_comm] at hsplit
  rw [← hp] at hmod
  have hq : q = windowOffset key start n + p := by
    rw [windowOffset_short _ hlen.le]
    omega
  refine ⟨n, p, hq, hmod, fun m hm => ?_, stopsAt_of_occurs hkey (hq ▸ hocc) (by omega)⟩
  have hmul := Nat.mul_le_mul_right (searchSize - key.length) (Nat.succ_le_of_lt hm)
  rw [Nat.succ_mul] at hmul
  rw [full_iff, windowOffset_short _ hlen.le]
  omega

theorem exists_first (hfull : ∀ m, m < n → Full content key start m)
    (h : StopsAt content key start n p) : ∃ n' p', FirstStop content key start n' p' ∧
      n' ≤ n := by
  classical
  have hany : ∃ n, ∃ p, StopsAt content key start n p := ⟨n, p, h⟩
  have hle : Nat.find hany ≤ n := Nat.find_min' hany ⟨p, h⟩
  have hthere := Nat.find_spec hany
  refine ⟨Nat.find hany, Nat.find hthere, ⟨fun m hm => hfull m (by omega), ?_,
    Nat.find_spec hthere, fun p' hp' => Nat.find_min hthere hp'⟩, hle⟩
  exact fun m hm p' hstop => Nat.find_min hany hm ⟨p', hstop⟩

/-- A short file, or a key that is not as long as a window, ends the search. -/
theorem exists_last (hlen : key.length ≠ searchSize) :
    ∃ n, ¬ Full content key start n := by
  have hpos : 0 < searchSize := by decide
  rcases Nat.lt_or_gt_of_ne hlen with hshort | hlong
  · refine ⟨content.length, ?_⟩
    rw [full_iff, windowOffset_short _ hshort.le]
    have hmul := Nat.le_mul_of_pos_right content.length
      (by omega : 0 < searchSize - key.length)
    omega
  · have hneg : ∀ k, windowStart key start (start + 1 + k) < 0 := by
      intro k
      have hstep : (searchSize : Int) - key.length ≤ -1 := by omega
      have hmul := Int.mul_le_mul_of_nonneg_left hstep
        (Int.natCast_nonneg (start + 1 + k))
      rw [windowStart]
      push_cast at hmul ⊢
      linarith
    have hfar : ∀ k, k ≤ windowOffset key start (start + 1 + k) + 1 := by
      intro k
      induction k with
      | zero => omega
      | succ k ih =>
          have hnext := hneg (k + 1)
          rw [← Nat.add_assoc] at hnext ⊢
          rw [windowOffset, if_pos hnext]
          omega
    refine ⟨start + 1 + (content.length + 1), ?_⟩
    rw [full_iff]
    have := hfar (content.length + 1)
    omega

/-- No key at the start or behind it comes before the first place to stop at, when that
is one where the key fits. -/
theorem FirstStop.least (h : FirstStop content key start n p) (hkey : key ≠ [])
    (hfits : p + key.length ≤ searchSize + 1) {position : Nat}
    (hposition : windowStart key start n + p = position)
    (hle : start ≤ q) (hocc : OccursAt content key q) : position ≤ q := by
  by_contra hlt
  have hpos := List.length_pos_iff.mpr hkey
  by_cases hlen : key.length < searchSize
  · obtain ⟨m, p', hq, hp', hfull, hstop⟩ := exists_stopsAt hkey hlen hle hocc
    have hlength := hocc.length_le hkey
    rw [windowStart_short hlen.le] at hposition
    have hoffset := windowOffset_short start hlen.le m
    rcases Nat.lt_trichotomy m n with hm | rfl | hm
    · exact h.before m hm p' hstop
    · exact h.first p' (by omega) hstop
    · have hmul := Nat.mul_le_mul_right (searchSize - key.length) (Nat.succ_le_of_lt hm)
      rw [Nat.succ_mul] at hmul
      -- the occurrence is the first of the next window, and inside this one as well
      have hfits' : q = windowOffset key start n + (searchSize - key.length) := by
        rw [windowOffset_short _ hlen.le]
        omega
      refine h.first (searchSize - key.length) ?_
        (stopsAt_of_occurs hkey (hfits' ▸ hocc) (by omega))
      rw [windowOffset_short _ hlen.le] at hfits'
      omega
  · have hback : windowStart key start n ≤ start := by
      have hmul := Int.mul_nonpos_of_nonneg_of_nonpos (Int.natCast_nonneg n)
        (by omega : (searchSize : Int) - key.length ≤ 0)
      rw [windowStart]
      omega
    have hinside : StopsAt content key start 0 (q - start) := by
      refine stopsAt_of_occurs hkey ?_ (by omega)
      rw [windowOffset, Nat.add_sub_of_le hle]
      exact hocc
    rcases Nat.eq_zero_or_pos n with rfl | hn
    · rw [windowStart_zero] at hposition
      exact h.first _ (by omega) hinside
    · exact h.before 0 hn _ hinside

end Cover

/-! ### Right results -/

section Results

variable {content key : List UInt8} {start n p q : Nat} {flag : Bool}

/-- Up to the window `n`, the key stands in the buffer at a place where the file has it, at the
start or behind it. -/
def Seen (content key : List UInt8) (start n : Nat) : Prop :=
  ∃ k p q : Nat, k ≤ n ∧ p < (window content key start k).length ∧
    key <+: (buffer content key start k).drop p ∧ windowStart key start k + p = (q : Int) ∧
    start ≤ q ∧ OccursAt content key q

/-- In a window up to which the key has not been seen, the loop goes on at each place.  A key as
long as a window, and a full first window: it is seen there, or it is longer and not in the
file. -/
structure Safe (content key : List UInt8) (start : Nat) : Prop where
  clear : ∀ n, (∀ k, k < n → Full content key start k) → ¬ Seen content key start n →
    ∀ p, ¬ StopsAt content key start n p
  long : searchSize ≤ key.length → Full content key start 0 →
    Seen content key start 0 ∨
      searchSize < key.length ∧ ∀ q, start ≤ q → ¬ OccursAt content key q

/-- The first place where the loop does not go on is one where the key is seen. -/
structure StopsRight (content key : List UInt8) (start : Nat) : Prop where
  occurs : ∀ n p, FirstStop content key start n p →
    key <+: (buffer content key start n).drop p ∧
      ∃ q, windowStart key start n + p = (q : Nat) ∧ start ≤ q ∧ OccursAt content key q
  long : searchSize ≤ key.length → Full content key start 0 →
    (∃ p, FirstStop content key start 0 p) ∨
      searchSize < key.length ∧ ∀ q, start ≤ q → ¬ OccursAt content key q

theorem StopsRight.safe (h : StopsRight content key start) : Safe content key start := by
  constructor
  · intro n hfull hnot p hstop
    obtain ⟨n', p', hfirst, hle⟩ := exists_first hfull hstop
    obtain ⟨hstarts, q, hq, hstart, hocc⟩ := h.occurs n' p' hfirst
    exact hnot ⟨n', p', q, hle, hfirst.stops.1, hstarts, hq, hstart, hocc⟩
  · intro hlen hfull
    refine (h.long hlen hfull).imp_left fun ⟨p, hfirst⟩ => ?_
    obtain ⟨hstarts, q, hq, hstart, hocc⟩ := h.occurs 0 p hfirst
    exact ⟨0, p, q, Nat.le_refl 0, hfirst.stops.1, hstarts, hq, hstart, hocc⟩

/-- A key that lies in the bytes of a window stands at that place of the file. -/
theorem occurs_of_fits (hlen : key.length ≤ searchSize)
    (hfits : p + key.length ≤ (window content key start n).length)
    (hstarts : key <+: (buffer content key start n).drop p) :
    ∃ q, windowStart key start n + p = (q : Nat) ∧ start ≤ q ∧ OccursAt content key q := by
  rw [buffer, List.drop_append_of_le_length (by omega)] at hstarts
  have hin : key <+: (window content key start n).drop p :=
    List.prefix_of_prefix_length_le hstarts (List.prefix_append _ _) (by
      rw [List.length_drop]
      omega)
  rw [window, List.drop_take, List.drop_drop, List.prefix_take_iff] at hin
  refine ⟨windowOffset key start n + p, ?_, ?_, hin.1⟩
  · rw [windowStart_short hlen, windowOffset_short _ hlen]
    push_cast
    rfl
  · rw [windowOffset_short _ hlen]
    omega

theorem Safe.stopsRight (hkey : key ≠ []) (h : Safe content key start) :
    StopsRight content key start := by
  constructor
  · intro n p hfirst
    have hseen : Seen content key start n :=
      by_contra fun hnot => h.clear n hfirst.full hnot p hfirst.stops
    obtain ⟨k, p', q, hk, hp', hstarts, hq, hstart, hocc⟩ := hseen
    have hthere : StopsAt content key start k p' := ⟨hp', .inl hstarts⟩
    obtain rfl : k = n := by
      by_contra hne
      exact hfirst.before k (by omega) p' hthere
    have hle : p ≤ p' := Nat.le_of_not_lt fun hlt => hfirst.first p' hlt hthere
    rcases Nat.eq_or_lt_of_le hle with rfl | hlt
    · exact ⟨hstarts, q, hq, hstart, hocc⟩
    · -- a place before one where the key fits has room for it as well
      have hroom := hstarts.length_le
      have hend := hocc.length_le hkey
      have hinside := hp'.trans_le (length_window_le k)
      rw [List.length_drop, length_buffer] at hroom
      have hlen : key.length ≤ searchSize := by omega
      have hpre : key <+: (buffer content key start k).drop p :=
        hfirst.stops.2.resolve_right fun hshort => by
          have hbehind := hshort.2
          rw [List.length_drop, length_buffer] at hbehind
          omega
      refine ⟨hpre, occurs_of_fits hlen ?_ hpre⟩
      have hplace : windowOffset key start k + p' = q := by
        rw [windowStart_short hlen, ← windowOffset_short start hlen] at hq
        omega
      rw [window, List.length_take, List.length_drop]
      exact Nat.le_min.mpr ⟨by omega, by omega⟩
  · intro hlen hfull
    refine (h.long hlen hfull).imp_left fun ⟨k, p, q, hk, hp, hstarts, _⟩ => ?_
    obtain rfl := Nat.le_zero.mp hk
    obtain ⟨n, p', hfirst, hn⟩ := exists_first (fun m hm => absurd hm (Nat.not_lt_zero m))
      (show StopsAt content key start 0 p from ⟨hp, .inl hstarts⟩)
    obtain rfl := Nat.le_zero.mp hn
    exact ⟨p', hfirst⟩

theorem p_search_match (hkey : key ≠ []) (h : FirstStop content key start n p)
    (hstarts : key <+: (buffer content key start n).drop p) (flag : Bool) : ∃ offset,
    ∀ fuel, n < fuel → p_search fuel ⟨content, start⟩ key flag =
      .value (.float (Binary64.ofInt (windowStart key start n + p + (reported key flag 0 : Nat))),
        File.lseek ⟨content, offset⟩
          (windowStart key start n + p + (reported key flag 0 : Nat))) := by
  refine ⟨windowOffset key start n + (window content key start n).length,
    fun fuel hfuel => ?_⟩
  obtain ⟨fuel, rfl⟩ := Nat.exists_eq_add_of_lt hfuel
  have hrun := searchLoop_rounds (fuel + 1) h.full h.before
  rw [← Nat.add_assoc] at hrun
  obtain ⟨hmatch, -⟩ := searchLoop_stops fuel hkey h
  rw [p_search, if_neg hkey, hrun, hmatch hstarts]
  cases flag <;> simp [reported]

theorem p_search_outside (hkey : key ≠ []) (h : FirstStop content key start n p)
    (hno : ¬ key <+: (buffer content key start n).drop p) (flag : Bool) {fuel : Nat}
    (hfuel : n < fuel) : p_search fuel ⟨content, start⟩ key flag = .undefined := by
  obtain ⟨fuel, rfl⟩ := Nat.exists_eq_add_of_lt hfuel
  have hrun := searchLoop_rounds (fuel + 1) h.full h.before
  rw [← Nat.add_assoc] at hrun
  rw [p_search, if_neg hkey, hrun, (searchLoop_stops fuel hkey h).2 hno]
  rfl

theorem not_stopsAt (hno : ∀ n p, ¬ FirstStop content key start n p)
    (hfull : ∀ m, m < n → Full content key start m) (p : Nat) :
    ¬ StopsAt content key start n p := by
  intro hstop
  obtain ⟨n', p', hfirst, -⟩ := exists_first hfull hstop
  exact hno n' p' hfirst

theorem p_search_nil (hkey : key ≠ []) (hno : ∀ n p, ¬ FirstStop content key start n p)
    (hlast : ∃ n, ¬ Full content key start n) (flag : Bool) : ∃ fuel₀, ∀ fuel,
    fuel₀ ≤ fuel → ∃ file, p_search fuel ⟨content, start⟩ key flag = .value (.nil, file) := by
  classical
  have hfull : ∀ m, m < Nat.find hlast → Full content key start m :=
    fun m hm => not_not.mp (Nat.find_min hlast hm)
  refine ⟨Nat.find hlast + 1, fun fuel hfuel => ?_⟩
  obtain ⟨fuel, rfl⟩ := Nat.exists_eq_add_of_le hfuel
  have hrun := searchLoop_rounds (fuel + 1) hfull fun m hm p =>
    not_stopsAt hno (fun k hk => hfull k (by omega)) p
  obtain ⟨file, hend⟩ := searchLoop_last fuel (Nat.find_spec hlast)
    (not_stopsAt hno hfull)
  rw [Nat.add_assoc, Nat.add_comm 1 fuel, p_search, if_neg hkey, hrun, hend]
  exact ⟨file, rfl⟩

/-- A key as long as a window leads to the same window again. -/
theorem p_search_forever (hkey : key ≠ []) (hno : ∀ n p, ¬ FirstStop content key start n p)
    (hlen : key.length = searchSize) (hfull : Full content key start 0) (flag : Bool)
    (fuel : Nat) : p_search fuel ⟨content, start⟩ key flag = .timeout := by
  have hall : ∀ n, Full content key start n := by
    intro n
    rw [full_iff, windowOffset] at hfull
    rw [full_iff, windowOffset_short _ hlen.le, hlen, Nat.sub_self, Nat.mul_zero]
    exact hfull
  have hrun := searchLoop_rounds (n := fuel) 0 (fun m _ => hall m)
    fun m _ p => not_stopsAt hno (fun k _ => hall k) p
  rw [Nat.add_zero] at hrun
  rw [p_search, if_neg hkey, hrun]
  rfl

theorem exists_least (hstart : start ≤ q) (hocc : OccursAt content key q) :
    ∃ q', LeastFrom content key start q' := by
  classical
  have hany : ∃ q, start ≤ q ∧ OccursAt content key q := ⟨q, hstart, hocc⟩
  exact ⟨Nat.find hany, (Nat.find_spec hany).1, (Nat.find_spec hany).2,
    fun q' hle hocc' => Nat.find_min' hany ⟨hle, hocc'⟩⟩

/-- The values of two searches that find something. -/
theorem position_unique {a : Int} {offset : Nat}
    (hvalue : Cell.float (Binary64.ofInt a) = .float (Binary64.ofInt q))
    (hfile : File.lseek ⟨content, offset⟩ a = ⟨content, q⟩) : a = q := by
  have hsign := congrArg Binary64.negative (Cell.float.inj hvalue)
  rw [Binary64.negative_ofInt, Binary64.negative_ofInt, decide_eq_decide] at hsign
  have hnonneg : ¬ a < 0 := by
    rw [hsign]
    omega
  rw [File.lseek, if_neg hnonneg, File.mk.injEq] at hfile
  omega

theorem reported_eq (key : List UInt8) (flag : Bool) (q : Nat) :
    reported key flag q = q + reported key flag 0 := by
  cases flag <;> simp [reported]

/-- What a right search says of the first place to stop at. -/
theorem SearchesRight.occurs (hkey : key ≠ []) (h : SearchesRight content key start flag)
    (hfirst : FirstStop content key start n p) :
    key <+: (buffer content key start n).drop p ∧
      ∃ q, windowStart key start n + p = (q : Nat) ∧ start ≤ q ∧ OccursAt content key q := by
  by_cases hstarts : key <+: (buffer content key start n).drop p
  · refine ⟨hstarts, ?_⟩
    obtain ⟨offset, hmatch⟩ := p_search_match hkey hfirst hstarts flag
    by_cases hany : ∃ q, start ≤ q ∧ OccursAt content key q
    · obtain ⟨q₀, hq₀, hocc₀⟩ := hany
      obtain ⟨q, hq⟩ := exists_least hq₀ hocc₀
      obtain ⟨fuel₀, hfound⟩ := h.found q hq
      have hboth := (hmatch (max fuel₀ (n + 1)) (by omega)).symm.trans
        (hfound _ (by omega))
      rw [Outcome.value.injEq, Prod.mk.injEq] at hboth
      have heq := position_unique hboth.1 hboth.2
      rw [reported_eq key flag q] at heq
      exact ⟨q, by omega, hq.le, hq.occurs⟩
    · obtain ⟨fuel₀, habsent⟩ := h.absent fun q hstart hocc => hany ⟨q, hstart, hocc⟩
      obtain ⟨file, hnil⟩ := habsent (max fuel₀ (n + 1)) (by omega)
      rw [hmatch _ (by omega)] at hnil
      cases hnil
  · have hundefined : ∀ fuel, n < fuel →
        p_search fuel ⟨content, start⟩ key flag = .undefined :=
      fun fuel hfuel => p_search_outside hkey hfirst hstarts flag hfuel
    by_cases hany : ∃ q, start ≤ q ∧ OccursAt content key q
    · obtain ⟨q₀, hq₀, hocc₀⟩ := hany
      obtain ⟨q, hq⟩ := exists_least hq₀ hocc₀
      obtain ⟨fuel₀, hfound⟩ := h.found q hq
      have hboth := (hundefined (max fuel₀ (n + 1)) (by omega)).symm.trans
        (hfound _ (by omega))
      cases hboth
    · obtain ⟨fuel₀, habsent⟩ := h.absent fun q hstart hocc => hany ⟨q, hstart, hocc⟩
      obtain ⟨file, hnil⟩ := habsent (max fuel₀ (n + 1)) (by omega)
      rw [hundefined _ (by omega)] at hnil
      cases hnil

/-- With a key as long as a window or longer, nothing is found behind the first. -/
theorem first_window (hlen : searchSize ≤ key.length)
    (hfirst : FirstStop content key start n p)
    (hstarts : key <+: (buffer content key start n).drop p)
    (hq : windowStart key start n + p = (q : Nat)) (hstart : start ≤ q) : n = 0 := by
  have hfits := hstarts.length_le
  rw [List.length_drop, length_buffer] at hfits
  by_contra hn
  have hpos : 0 < n := Nat.pos_of_ne_zero hn
  by_cases hsize : key.length = searchSize
  · -- every window is the first one
    have hsame : StopsAt content key start 0 p := by
      have hoffset : windowOffset key start n = windowOffset key start 0 := by
        rw [windowOffset_short _ hsize.le, windowOffset_short _ hsize.le, hsize]
        simp
      have hstop := hfirst.stops
      rw [StopsAt, buffer, window, hoffset] at hstop
      exact hstop
    exact hfirst.before 0 hpos p hsame
  · have hmul : (n : Int) * ((searchSize : Int) - key.length) ≤ n * -1 :=
      Int.mul_le_mul_of_nonneg_left (by omega) (Int.natCast_nonneg n)
    rw [windowStart] at hq
    omega

theorem SearchesRight.long (hkey : key ≠ []) (h : SearchesRight content key start flag)
    (hlen : searchSize ≤ key.length) (hfull : Full content key start 0) :
    (∃ p, FirstStop content key start 0 p) ∨
      searchSize < key.length ∧ ∀ q, start ≤ q → ¬ OccursAt content key q := by
  by_cases hany : ∃ n p, FirstStop content key start n p
  · obtain ⟨n, p, hfirst⟩ := hany
    obtain ⟨hstarts, q, hq, hstart, -⟩ := h.occurs hkey hfirst
    obtain rfl := first_window hlen hfirst hstarts hq hstart
    exact .inl ⟨p, hfirst⟩
  · have hno : ∀ n p, ¬ FirstStop content key start n p :=
      fun n p hfirst => hany ⟨n, p, hfirst⟩
    by_cases hocc : ∃ q, start ≤ q ∧ OccursAt content key q
    · obtain ⟨q₀, hq₀, hocc₀⟩ := hocc
      obtain ⟨q, hq⟩ := exists_least hq₀ hocc₀
      obtain ⟨fuel₀, hfound⟩ := h.found q hq
      by_cases hsize : key.length = searchSize
      · have htimeout := p_search_forever hkey hno hsize hfull flag fuel₀
        rw [hfound _ le_rfl] at htimeout
        cases htimeout
      · obtain ⟨fuel₁, hnil⟩ := p_search_nil hkey hno (exists_last hsize) flag
        obtain ⟨file, hend⟩ := hnil (max fuel₀ fuel₁) (by omega)
        rw [hfound _ (by omega)] at hend
        cases hend
    · have hnone : ∀ q, start ≤ q → ¬ OccursAt content key q :=
        fun q hstart hq => hocc ⟨q, hstart, hq⟩
      refine .inr ⟨lt_of_le_of_ne hlen fun hsize => ?_, hnone⟩
      obtain ⟨fuel₀, habsent⟩ := h.absent hnone
      obtain ⟨file, hend⟩ := habsent fuel₀ le_rfl
      rw [p_search_forever hkey hno hsize.symm hfull flag] at hend
      cases hend

theorem StopsRight.found (hkey : key ≠ []) (h : StopsRight content key start)
    (hq : LeastFrom content key start q) (flag : Bool) :
    ∃ fuel₀, ∀ fuel, fuel₀ ≤ fuel → p_search fuel ⟨content, start⟩ key flag =
      .value (.float (Binary64.ofInt (reported key flag q)),
        ⟨content, reported key flag q⟩) := by
  by_cases hany : ∃ n p, FirstStop content key start n p
  · obtain ⟨n, p, hfirst⟩ := hany
    obtain ⟨hstarts, q', hq', hstart, hocc⟩ := h.occurs n p hfirst
    have hfits := hstarts.length_le
    have hinside := hfirst.stops.1.trans_le (length_window_le n)
    rw [List.length_drop, length_buffer] at hfits
    have hle := hfirst.least hkey (by omega) hq' hq.le hq.occurs
    obtain rfl : q = q' := le_antisymm (hq.least q' hstart hocc) hle
    obtain ⟨offset, hmatch⟩ := p_search_match hkey hfirst hstarts flag
    refine ⟨n + 1, fun fuel hfuel => ?_⟩
    rw [hmatch fuel (by omega), hq', reported_eq key flag q, File.lseek]
    rw [if_neg (by omega)]
    norm_cast
  · exfalso
    have hno : ∀ n p, ¬ FirstStop content key start n p :=
      fun n p hfirst => hany ⟨n, p, hfirst⟩
    by_cases hlen : key.length < searchSize
    · obtain ⟨n, p, -, -, hfull, hstop⟩ := exists_stopsAt hkey hlen hq.le hq.occurs
      exact not_stopsAt hno hfull p hstop
    · have hlength := hq.occurs.length_le hkey
      have hfull : Full content key start 0 := by
        rw [full_iff, windowOffset]
        have := hq.le
        omega
      rcases h.long (Nat.le_of_not_lt hlen) hfull with ⟨p, hfirst⟩ | ⟨-, hnone⟩
      · exact hno 0 p hfirst
      · exact hnone q hq.le hq.occurs

theorem StopsRight.absent (hkey : key ≠ []) (h : StopsRight content key start)
    (hnone : ∀ q, start ≤ q → ¬ OccursAt content key q) (flag : Bool) :
    ∃ fuel₀, ∀ fuel, fuel₀ ≤ fuel →
      ∃ file, p_search fuel ⟨content, start⟩ key flag = .value (.nil, file) := by
  have hno : ∀ n p, ¬ FirstStop content key start n p := by
    intro n p hfirst
    obtain ⟨-, q, -, hstart, hocc⟩ := h.occurs n p hfirst
    exact hnone q hstart hocc
  refine p_search_nil hkey hno ?_ flag
  by_cases hsize : key.length = searchSize
  · refine ⟨0, fun hfull => ?_⟩
    rcases h.long hsize.ge hfull with ⟨p, hfirst⟩ | ⟨hlong, -⟩
    · exact hno 0 p hfirst
    · omega
  · exact exists_last hsize

theorem SearchesRight.stopsRight (hkey : key ≠ []) (h : SearchesRight content key start flag) :
    StopsRight content key start :=
  ⟨fun _ _ hfirst => h.occurs hkey hfirst, h.long hkey⟩

/-- `search` finds the least occurrence, or returns `nil` where there is none, just on the
files, starts and keys that are safe. -/
theorem searchesRight_iff (hkey : key ≠ []) (flag : Bool) :
    SearchesRight content key start flag ↔ Safe content key start := by
  constructor
  · exact fun h => (h.stopsRight hkey).safe
  · intro h
    have hright := h.stopsRight hkey
    exact ⟨fun _ hq => hright.found hkey hq flag, fun hnone => hright.absent hkey hnone flag⟩

/-- A key of one byte, or of two of which the second is not zero, is safe. -/
theorem safe_of_short (hkey : key ≠ []) (hlen : key.length ≤ 2) (hzero : 0 ∉ key.tail) :
    Safe content key start := by
  have hsize : searchSize = 4096 := rfl
  refine ⟨fun n hfull hnot p hstop => ?_, fun hlong => by omega⟩
  have hinside := hstop.1
  have hle : (window content key start n).length ≤ searchSize := length_window_le n
  have hpre : key <+: (buffer content key start n).drop p :=
    hstop.2.resolve_right fun hshort => by
      have hbehind := hshort.2
      rw [List.length_drop, length_buffer] at hbehind
      omega
  by_cases hfits : p + key.length ≤ (window content key start n).length
  · obtain ⟨q, hq, hstart, hocc⟩ := occurs_of_fits (by omega) hfits hpre
    exact hnot ⟨n, p, q, Nat.le_refl n, hinside, hpre, hq, hstart, hocc⟩
  · -- the second byte of the key is the first zero behind the data
    refine hzero ?_
    have htwo : key.length = 2 := by
      have hpos := List.length_pos_iff.mpr hkey
      omega
    obtain ⟨b, c, rfl⟩ := List.length_eq_two.mp htwo
    rw [List.length_cons, List.length_singleton] at hfits
    have hdrop : (buffer content [b, c] start n).drop p =
        (window content [b, c] start n).drop p ++
          List.replicate (searchSize + 1 - (window content [b, c] start n).length) 0 := by
      rw [buffer, List.drop_append_of_le_length hinside.le]
    have hone : ((window content [b, c] start n).drop p).length = 1 := by
      rw [List.length_drop]
      omega
    rw [hdrop] at hpre
    have hbyte := hpre.getElem (i := 1) Nat.one_lt_two
    rw [List.getElem_append_right hone.le, List.getElem_replicate] at hbyte
    exact List.mem_singleton.mpr hbyte.symm

/-- The key `"\nb"` in a file that begins with `"a"`. -/
theorem searchesRight_newline : SearchesRight [97, 10, 98] [10, 98] 0 true :=
  (searchesRight_iff (by simp) true).mpr (safe_of_short (by simp) (by decide) (by decide))

/-- The zero behind the end of the file is taken for one of the key; and a key as long as
a window is looked for without end. -/
theorem not_searchesRight : ¬ SearchesRight [97, 98] [98, 0] 0 false ∧
    ¬ SearchesRight (List.replicate searchSize 97) (List.replicate searchSize 98) 0 false := by
  constructor
  · intro h
    have hbuffer : buffer [97, 98] [98, 0] 0 0 = 97 :: 98 :: List.replicate 4095 0 := rfl
    have hwindow : window [97, 98] [98, 0] 0 0 = [97, 98] := rfl
    have hstop : StopsAt [97, 98] [98, 0] 0 0 1 := by
      rw [StopsAt, hwindow, hbuffer]
      exact ⟨Nat.one_lt_two, .inl ⟨List.replicate 4094 0, rfl⟩⟩
    have hseen : ¬ Seen [97, 98] [98, 0] 0 0 := by
      rintro ⟨k, p, q, -, -, -, -, -, hocc⟩
      have hlength := hocc.length_le (List.cons_ne_nil _ _)
      obtain rfl : q = 0 := by
        simp only [List.length_cons, List.length_nil] at hlength
        omega
      exact absurd hocc (by rw [OccursAt]; decide)
    have hsafe := (searchesRight_iff (List.cons_ne_nil _ _) false).mp h
    exact hsafe.clear 0 (fun k hk => absurd hk (Nat.not_lt_zero k)) hseen 1 hstop
  · intro h
    have hpos : 0 < searchSize := by decide
    have hlen : (List.replicate searchSize (98 : UInt8)).length = searchSize :=
      List.length_replicate
    have hne : List.replicate searchSize (98 : UInt8) ≠ [] :=
      List.length_pos_iff.mp (by rw [hlen]; exact hpos)
    have hfull : Full (List.replicate searchSize 97) (List.replicate searchSize 98) 0 0 := by
      rw [full_iff, windowOffset, List.length_replicate, Nat.zero_add]
    have hsafe := (searchesRight_iff hne false).mp h
    rcases hsafe.long hlen.ge hfull with ⟨k, p, q, -, -, -, -, -, hocc⟩ | ⟨hlong, -⟩
    · have hroom := hocc.length_le hne
      obtain ⟨rest, hrest⟩ := hocc
      have hbyte : (98 : UInt8) ∈ (List.replicate searchSize (97 : UInt8)).drop q := by
        rw [← hrest, show searchSize = 4095 + 1 from rfl, List.replicate_succ]
        exact List.mem_cons_self
      exact absurd (List.eq_of_mem_replicate (List.mem_of_mem_drop hbyte)) (by decide)
    · omega

end Results

end FileSearch

end NewLispNeo
