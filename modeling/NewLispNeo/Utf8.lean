/-
The UTF-8 routines of nl-utf8.c.  A string is the bytes from its pointer on, up to
and with the terminating zero; a read outside of it is `none`.
-/
import Mathlib.Data.List.Basic
import Mathlib.Data.Nat.Bitwise

namespace NewLispNeo.Utf8

section Codec

def utf8Table1 : List Nat := [0x7f, 0x7ff, 0xffff, 0x1fffff, 0x3ffffff, 0x7fffffff]

def utf8Table2 : List Nat := [0, 0xc0, 0xe0, 0xf0, 0xf8, 0xfc]

def utf8Table3 : List Nat := [0xff, 0x1f, 0x0f, 0x07, 0x03, 0x01]

/-- The number of additional bytes, by the first byte masked with `0x3f`. -/
def utf8Table4 : List Nat :=
  List.replicate 32 1 ++ List.replicate 16 2 ++ List.replicate 8 3 ++ List.replicate 4 4 ++
    List.replicate 4 5

/-- `(c & 0xc0) == 0xc0`: a byte that more bytes follow. -/
def isLead (c : UInt8) : Bool := c &&& 0xc0 = 0xc0

def additional (c : UInt8) : Nat := utf8Table4.getD (c &&& 0x3f).toNat 0

/-- The loop of `GETCHARINC` over the additional bytes. -/
def readAdditional : Nat → Nat → List UInt8 → Option (Nat × List UInt8)
  | 0, c, eptr => some (c, eptr)
  | _ + 1, _, [] => none
  | gcaa + 1, c, b :: eptr => readAdditional gcaa (c ||| ((b &&& 0x3f).toNat <<< (6 * gcaa))) eptr

/-- `utf8_wchar`, the character and the pointer after it. -/
def utf8Wchar : List UInt8 → Option (Nat × List UInt8)
  | [] => none
  | c :: utf8str =>
      if isLead c then
        let gcaa := additional c
        readAdditional gcaa ((c.toNat &&& utf8Table3.getD gcaa 0) <<< (6 * gcaa)) utf8str
      else some (c.toNat, utf8str)

/-- The loop of `wchar_utf8`, from the last byte back: what is left of the character, and
the bytes. -/
def writeAdditional : Nat → Nat → List UInt8 → Nat × List UInt8
  | 0, cvalue, buffer => (cvalue, buffer)
  | j + 1, cvalue, buffer =>
      writeAdditional j (cvalue >>> 6) (UInt8.ofNat (0x80 ||| (cvalue &&& 0x3f)) :: buffer)

/-- `wchar_utf8`. -/
def wcharUtf8 (cvalue : Nat) : List UInt8 :=
  let i := utf8Table1.findIdx (cvalue ≤ ·)
  let (cvalue, buffer) := writeAdditional i cvalue []
  UInt8.ofNat (utf8Table2.getD i 0 ||| cvalue) :: buffer

/-- `utf8_wstr`: the characters, at most `maxwc` of them. -/
def utf8Wstr : Nat → List UInt8 → Option (List Nat)
  | 0, _ => some []
  | _ + 1, [] => none
  | maxwc + 1, c :: utf8str =>
      if c = 0 then some []
      else do
        let (wchar, utf8str) ← utf8Wchar (c :: utf8str)
        let unicode ← utf8Wstr maxwc utf8str
        some (wchar :: unicode)

/-- The loop of `wstr_utf8`, with the bytes written so far counted. -/
def writeUnicode (maxstr : Nat) : List Nat → Nat → List UInt8
  | [], _ => []
  | wchar :: unicode, size =>
      if wchar ≠ 0 ∧ size < maxstr then
        wcharUtf8 wchar ++ writeUnicode maxstr unicode (size + (wcharUtf8 wchar).length)
      else []

/-- `wstr_utf8`. -/
def wstrUtf8 (unicode : List Nat) (maxstr : Nat) : List UInt8 := writeUnicode maxstr unicode 0

end Codec

section Scanners

/-- The bytes a scanner steps over at a byte that is not zero. -/
def charSize (c : UInt8) : Nat := if isLead c then additional c + 1 else 1

/-- `utf8_1st_len`. -/
def utf8FirstLen : List UInt8 → Option Nat
  | [] => none
  | c :: _ => some (if c = 0 then 0 else charSize c)

/-- The loop of `utf8_index`. -/
def indexFrom : Nat → Int → List UInt8 → Option (List UInt8)
  | 0, _, _ => none
  | _ + 1, _, [] => none
  | fuel + 1, idx, c :: utf8str =>
      if c = 0 ∨ idx = 0 then some (c :: utf8str)
      else indexFrom fuel (idx - 1) ((c :: utf8str).drop (charSize c))

/-- `utf8_index`: the pointer to a character. -/
def utf8Index (utf8str : List UInt8) (idx : Int) : Option (List UInt8) :=
  indexFrom (utf8str.length + 1) idx utf8str

/-- The loop of `utf8_wlen`: the limit is so many bytes away. -/
def wlenFrom : Nat → Nat → List UInt8 → Option Nat
  | 0, _, _ => none
  | _ + 1, _, [] => none
  | _ + 1, 0, _ => none
  | fuel + 1, limit + 1, c :: utf8str =>
      if c = 0 ∨ limit = 0 then some 0
      else (wlenFrom fuel (limit + 1 - charSize c) ((c :: utf8str).drop (charSize c))).map (· + 1)

/-- `utf8_wlen`; a read at the limit or behind it is `none`. -/
def utf8Wlen (utf8str : List UInt8) (limit : Nat) : Option Nat :=
  wlenFrom (utf8str.length + 1) limit utf8str

end Scanners

section RoundTrip

/-- The additional bytes of a character, the first one first. -/
def tailBytes : Nat → Nat → List UInt8
  | 0, _ => []
  | j + 1, c => UInt8.ofNat (0x80 ||| (c >>> (6 * j) &&& 0x3f)) :: tailBytes j c

theorem tailBytes_succ (j c : Nat) :
    tailBytes (j + 1) c = tailBytes j (c >>> 6) ++ [UInt8.ofNat (0x80 ||| (c &&& 0x3f))] := by
  induction j with
  | zero => simp [tailBytes]
  | succ j ih =>
      have hshift : c >>> (6 * (j + 1)) = c >>> 6 >>> (6 * j) := by
        rw [← Nat.shiftRight_add]
        congr 1
        omega
      rw [tailBytes, ih, hshift, tailBytes, List.cons_append]

theorem writeAdditional_eq (j c : Nat) (buffer : List UInt8) :
    writeAdditional j c buffer = (c >>> (6 * j), tailBytes j c ++ buffer) := by
  induction j generalizing c buffer with
  | zero => simp [writeAdditional, tailBytes]
  | succ j ih =>
      have hshift : c >>> 6 >>> (6 * j) = c >>> (6 * (j + 1)) := by
        rw [← Nat.shiftRight_add]
        congr 1
        omega
      rw [writeAdditional, ih, hshift, tailBytes_succ, List.append_assoc]
      rfl

/-- The bits above and in an additional byte, put together again. -/
theorem shift_or (c j : Nat) :
    (c >>> (6 * (j + 1))) <<< (6 * (j + 1)) ||| ((c >>> (6 * j) &&& 0x3f) <<< (6 * j)) =
      (c >>> (6 * j)) <<< (6 * j) := by
  have hsplit : c >>> (6 * (j + 1)) = c >>> (6 * j) >>> 6 := by
    rw [← Nat.shiftRight_add]
    congr 1
  rw [hsplit]
  generalize c >>> (6 * j) = x
  have hlow : x &&& 0x3f = x % 2 ^ 6 := Nat.and_two_pow_sub_one_eq_mod x 6
  have hx : x >>> 6 <<< 6 ||| (x &&& 0x3f) = x := by
    rw [hlow, ← Nat.shiftLeft_add_eq_or_of_lt (Nat.mod_lt _ (by decide)),
      Nat.shiftLeft_eq, Nat.shiftRight_eq_div_pow]
    omega
  have hshift : x >>> 6 <<< (6 * (j + 1)) = x >>> 6 <<< 6 <<< (6 * j) := by
    rw [← Nat.shiftLeft_add]
    congr 1
    omega
  rw [hshift, ← Nat.shiftLeft_or_distrib, hx]

theorem additional_byte (x : Nat) :
    (UInt8.ofNat (0x80 ||| (x &&& 0x3f)) &&& 0x3f).toNat = x &&& 0x3f := by
  have hlow : x &&& 0x3f = x % 64 := Nat.and_two_pow_sub_one_eq_mod x 6
  rw [hlow]
  have hbyte : ∀ y < 64, (UInt8.ofNat (0x80 ||| y) &&& 0x3f).toNat = y := by decide
  exact hbyte _ (Nat.mod_lt _ (by decide))

theorem readAdditional_tailBytes (j c : Nat) (rest : List UInt8) :
    readAdditional j ((c >>> (6 * j)) <<< (6 * j)) (tailBytes j c ++ rest) = some (c, rest) := by
  induction j with
  | zero => simp [readAdditional, tailBytes]
  | succ j ih =>
      rw [tailBytes, List.cons_append, readAdditional, additional_byte, shift_or]
      exact ih

/-- A first byte tells how many bytes follow it, and its own bits are read again. -/
theorem first_byte {i h : Nat} (hi : 1 ≤ i ∧ i ≤ 5) (hh : h < 2 ^ (6 - i)) :
    let b := UInt8.ofNat (utf8Table2.getD i 0 ||| h)
    isLead b = true ∧ additional b = i ∧ b.toNat &&& utf8Table3.getD i 0 = h := by
  have hall : ∀ i < 6, 1 ≤ i → ∀ h < 2 ^ (6 - i),
      let b := UInt8.ofNat (utf8Table2.getD i 0 ||| h)
      isLead b = true ∧ additional b = i ∧ b.toNat &&& utf8Table3.getD i 0 = h := by
    decide
  exact hall i (by omega) hi.1 h hh

theorem single_byte {c : Nat} (hc : c ≤ 0x7f) :
    isLead (UInt8.ofNat c) = false ∧ (UInt8.ofNat c).toNat = c := by
  have hall : ∀ c < 0x80, isLead (UInt8.ofNat c) = false ∧ (UInt8.ofNat c).toNat = c := by
    decide
  exact hall c (by omega)

/-- The size class of a character: its additional bytes, and what is left for the first
byte. -/
theorem size_class {c : Nat} (hc : c ≤ 0x7fffffff) :
    utf8Table1.findIdx (c ≤ ·) = 0 ∧ c ≤ 0x7f ∨
      ∃ i, utf8Table1.findIdx (c ≤ ·) = i ∧ (1 ≤ i ∧ i ≤ 5) ∧ c >>> (6 * i) < 2 ^ (6 - i) := by
  simp only [utf8Table1, List.findIdx_cons, List.findIdx_nil, Nat.shiftRight_eq_div_pow]
  by_cases h0 : c ≤ 0x7f
  · exact .inl ⟨by simp [h0], h0⟩
  · refine .inr ?_
    by_cases h1 : c ≤ 0x7ff
    · exact ⟨1, by simp [h0, h1], by decide, by omega⟩
    by_cases h2 : c ≤ 0xffff
    · exact ⟨2, by simp [h0, h1, h2], by decide, by omega⟩
    by_cases h3 : c ≤ 0x1fffff
    · exact ⟨3, by simp [h0, h1, h2, h3], by decide, by omega⟩
    by_cases h4 : c ≤ 0x3ffffff
    · exact ⟨4, by simp [h0, h1, h2, h3, h4], by decide, by omega⟩
    · exact ⟨5, by simp [h0, h1, h2, h3, h4, hc], by decide, by omega⟩

/-- Every character is read back from its bytes, and these bytes only are read. -/
theorem utf8Wchar_wcharUtf8 {c : Nat} (hc : c ≤ 0x7fffffff) (rest : List UInt8) :
    utf8Wchar (wcharUtf8 c ++ rest) = some (c, rest) := by
  rcases size_class hc with ⟨hidx, hsmall⟩ | ⟨i, hidx, hi, hh⟩
  · obtain ⟨hlead, hbyte⟩ := single_byte hsmall
    simp [wcharUtf8, hidx, writeAdditional, utf8Table2, utf8Wchar, hlead, hbyte]
  · obtain ⟨hlead, hadd, hbits⟩ := first_byte hi hh
    simp only [wcharUtf8, hidx, writeAdditional_eq, List.append_nil, List.cons_append,
      utf8Wchar, hlead, hadd, hbits, if_true]
    exact readAdditional_tailBytes i c rest

theorem wcharUtf8_ne_zero {c : Nat} (hpos : 0 < c) (hc : c ≤ 0x7fffffff) :
    ∃ b bytes, wcharUtf8 c = b :: bytes ∧ b ≠ 0 := by
  refine ⟨_, _, rfl, ?_⟩
  rcases size_class hc with ⟨hidx, hsmall⟩ | ⟨i, hidx, hi, hh⟩
  · rw [hidx]
    have hbyte := (single_byte hsmall).2
    intro hzero
    simp only [writeAdditional, utf8Table2, List.getD_cons_zero, Nat.zero_or] at hzero
    rw [hzero] at hbyte
    simp at hbyte
    omega
  · rw [hidx, writeAdditional_eq]
    have hlead := (first_byte hi hh).1
    intro hzero
    simp only [hzero] at hlead
    contradiction

/-- The bytes of a text without a zero character. -/
def encode (cs : List Nat) : List UInt8 := cs.flatMap wcharUtf8

/-- A valid string is the bytes of such characters. -/
def Valid (cs : List Nat) : Prop := ∀ c ∈ cs, 0 < c ∧ c ≤ 0x7fffffff

theorem utf8Wstr_encode {cs : List Nat} (hcs : Valid cs) (maxwc : Nat) :
    utf8Wstr maxwc (encode cs ++ [0]) = some (cs.take maxwc) := by
  induction cs generalizing maxwc with
  | nil => cases maxwc <;> simp [encode, utf8Wstr]
  | cons c cs ih =>
      cases maxwc with
      | zero => rfl
      | succ maxwc =>
          obtain ⟨hpos, hmax⟩ := hcs c List.mem_cons_self
          obtain ⟨b, bytes, hbytes, hb⟩ := wcharUtf8_ne_zero hpos hmax
          have hread := utf8Wchar_wcharUtf8 hmax (encode cs ++ [0])
          have hrest := ih (fun d hd => hcs d (List.mem_cons_of_mem c hd)) maxwc
          rw [encode, List.flatMap_cons, List.append_assoc]
          rw [encode] at hread hrest
          rw [hbytes] at hread ⊢
          rw [List.cons_append] at hread ⊢
          rw [utf8Wstr, if_neg hb, hread]
          simp only [Option.bind_eq_bind, Option.bind_some, hrest, List.take_succ_cons]

theorem writeUnicode_encode {cs : List Nat} (hcs : Valid cs) (maxstr size : Nat)
    (hsize : size + (encode cs).length ≤ maxstr) :
    writeUnicode maxstr cs size = encode cs := by
  induction cs generalizing size with
  | nil => rfl
  | cons c cs ih =>
      obtain ⟨hpos, hmax⟩ := hcs c List.mem_cons_self
      obtain ⟨b, bytes, hbytes, -⟩ := wcharUtf8_ne_zero hpos hmax
      rw [encode, List.flatMap_cons, List.length_append] at hsize
      have hlength : 0 < (wcharUtf8 c).length := by rw [hbytes]; exact Nat.succ_pos _
      rw [writeUnicode, if_pos ⟨Nat.ne_of_gt hpos, by omega⟩, encode, List.flatMap_cons]
      rw [ih (fun d hd => hcs d (List.mem_cons_of_mem c hd)) _ (by rw [encode]; omega)]
      rfl

/-- Within the limits a valid string comes back from its characters. -/
theorem wstrUtf8_utf8Wstr {cs : List Nat} (hcs : Valid cs) {maxwc maxstr : Nat}
    (hwc : cs.length ≤ maxwc) (hstr : (encode cs).length ≤ maxstr) :
    (utf8Wstr maxwc (encode cs ++ [0])).map (wstrUtf8 · maxstr) = some (encode cs) := by
  rw [utf8Wstr_encode hcs, List.take_of_length_le hwc, Option.map_some]
  rw [wstrUtf8, writeUnicode_encode hcs maxstr 0 (by omega)]

end RoundTrip

section Boundaries

/-- Every character ends before the terminating zero. -/
inductive Whole : List UInt8 → Prop where
  | nil : Whole []
  | cons (c : UInt8) (more rest : List UInt8) (hsize : more.length + 1 = charSize c)
      (hrest : Whole rest) : Whole (c :: (more ++ rest))

/-- No character that begins before the last byte under the limit reaches the limit or
the terminating zero. -/
inductive Below : Nat → List UInt8 → Prop where
  | nil (limit : Nat) : Below (limit + 1) []
  | last (s : List UInt8) : Below 1 s
  | cons (limit : Nat) (c : UInt8) (more rest : List UInt8) (hpos : 0 < limit)
      (hsize : more.length + 1 = charSize c) (hlimit : charSize c < limit + 1)
      (hrest : Below (limit + 1 - charSize c) rest) : Below (limit + 1) (c :: (more ++ rest))

variable {s : List UInt8}

theorem charSize_pos (c : UInt8) : 0 < charSize c := by
  unfold charSize
  split
  · exact Nat.succ_pos _
  · exact Nat.one_pos

/-- A character is cut off the string, or the scanner is behind the terminating zero. -/
theorem drop_char (c : UInt8) (s : List UInt8) :
    (∃ more rest, s = more ++ rest ∧ more.length + 1 = charSize c ∧
      (c :: s ++ [0]).drop (charSize c) = rest ++ [0]) ∨
    s.length + 1 < charSize c ∧ (c :: s ++ [0]).drop (charSize c) = [] := by
  obtain ⟨n, hn⟩ : ∃ n, charSize c = n + 1 := ⟨_, (Nat.succ_pred (charSize_pos c).ne').symm⟩
  rw [hn, List.cons_append, List.drop_succ_cons]
  by_cases hfits : n ≤ s.length
  · refine .inl ⟨s.take n, s.drop n, (List.take_append_drop n s).symm, ?_, ?_⟩
    · rw [List.length_take, Nat.min_eq_left hfits]
    · rw [List.drop_append_of_le_length hfits]
  · refine .inr ⟨by omega, List.drop_eq_nil_of_le ?_⟩
    rw [List.length_append, List.length_singleton]
    omega

theorem drop_more {c : UInt8} {more rest : List UInt8} (hsize : more.length + 1 = charSize c) :
    (c :: (more ++ rest) ++ [0]).drop (charSize c) = rest ++ [0] := by
  rw [← hsize, List.cons_append, List.drop_succ_cons, List.append_assoc, List.drop_left]

theorem indexFrom_nil (fuel : Nat) (idx : Int) : indexFrom fuel idx [] = none := by
  cases fuel with
  | zero => rfl
  | succ fuel => rfl

theorem wlenFrom_nil (fuel limit : Nat) : wlenFrom fuel limit [] = none := by
  cases fuel with
  | zero => rfl
  | succ fuel => cases limit <;> rfl

/-- A scan to the end finds out whether all characters are whole. -/
theorem whole_of_indexFrom {fuel : Nat} {idx : Int} (hs : 0 ∉ s) (hidx : idx < 0)
    (h : indexFrom fuel idx (s ++ [0]) ≠ none) : Whole s := by
  induction fuel generalizing s idx with
  | zero => exact absurd rfl h
  | succ fuel ih =>
      cases s with
      | nil => exact .nil
      | cons c s =>
          simp only [List.mem_cons, not_or] at hs
          have hgo : ¬ (c = 0 ∨ idx = 0) := by
            rintro (hc | hc)
            · exact hs.1 hc.symm
            · omega
          rw [List.cons_append, indexFrom, if_neg hgo, ← List.cons_append] at h
          rcases drop_char c s with ⟨more, rest, rfl, hsize, hdrop⟩ | ⟨hlong, hdrop⟩
          · rw [hdrop] at h
            refine .cons c more rest hsize (ih ?_ (by omega) h)
            exact fun hmem => hs.2 (List.mem_append_right _ hmem)
          · rw [hdrop, indexFrom_nil] at h
            contradiction

theorem indexFrom_cons {fuel : Nat} {idx : Int} {c : UInt8} {more rest : List UInt8} (hc : c ≠ 0)
    (hidx : idx ≠ 0) (hsize : more.length + 1 = charSize c) :
    indexFrom (fuel + 1) idx (c :: (more ++ rest) ++ [0]) =
      indexFrom fuel (idx - 1) (rest ++ [0]) := by
  have hdrop : (c :: (more ++ rest) ++ [0]).drop (charSize c) = rest ++ [0] := drop_more hsize
  rw [List.cons_append] at hdrop ⊢
  rw [indexFrom, if_neg (not_or.2 ⟨hc, hidx⟩), hdrop]

/-- Over whole characters `utf8_index` stays inside the string. -/
theorem indexFrom_of_whole (h : Whole s) (hs : 0 ∉ s) {fuel : Nat} (hfuel : s.length < fuel)
    (idx : Int) : ∃ passed rest, s = passed ++ rest ∧
      indexFrom fuel idx (s ++ [0]) = some (rest ++ [0]) := by
  induction h generalizing fuel idx with
  | nil =>
      obtain ⟨fuel, rfl⟩ := Nat.exists_eq_add_of_lt hfuel
      exact ⟨[], [], rfl, by simp [indexFrom]⟩
  | cons c more after hsize _ ih =>
      simp only [List.mem_cons, List.mem_append, not_or] at hs
      obtain ⟨fuel, rfl⟩ : ∃ n, fuel = n + 1 := ⟨fuel - 1, by omega⟩
      by_cases hidx : idx = 0
      · refine ⟨[], _, rfl, ?_⟩
        rw [hidx, List.cons_append, indexFrom, if_pos (.inr rfl)]
      · rw [indexFrom_cons (Ne.symm hs.1) hidx hsize]
        simp only [List.length_cons, List.length_append] at hfuel
        obtain ⟨passed, left, rfl, hindex⟩ := 
          ih hs.2.2 (show after.length < fuel by omega) (idx - 1)
        exact ⟨c :: (more ++ passed), left, by simp, hindex⟩

/-- One character further `utf8_index` has moved by what `utf8_1st_len` says. -/
theorem indexFrom_succ (h : Whole s) (hs : 0 ∉ s) {fuel : Nat} (hfuel : s.length < fuel)
    {idx : Int} (hidx : 0 ≤ idx) {rest : List UInt8}
    (hindex : indexFrom fuel idx (s ++ [0]) = some (rest ++ [0])) :
    ∃ n, utf8FirstLen (rest ++ [0]) = some n ∧ n ≤ rest.length ∧
      indexFrom fuel (idx + 1) (s ++ [0]) = some ((rest ++ [0]).drop n) := by
  induction h generalizing fuel idx with
  | nil =>
      obtain ⟨fuel, rfl⟩ := Nat.exists_eq_add_of_lt hfuel
      simp only [List.length_nil, Nat.zero_add, List.nil_append, indexFrom, true_or, if_true,
        Option.some.injEq] at hindex ⊢
      rw [← hindex]
      exact ⟨0, rfl, Nat.zero_le _, rfl⟩
  | cons c more after hsize hafter ih =>
      simp only [List.mem_cons, List.mem_append, not_or] at hs
      simp only [List.length_cons, List.length_append] at hfuel
      obtain ⟨fuel, rfl⟩ : ∃ n, fuel = n + 1 := ⟨fuel - 1, by omega⟩
      rw [indexFrom_cons (Ne.symm hs.1) (by omega) hsize]
      by_cases hzero : idx = 0
      · rw [hzero, List.cons_append, indexFrom, if_pos (.inr rfl), Option.some.injEq,
          ← List.cons_append] at hindex
        obtain rfl := List.append_cancel_right hindex
        refine ⟨charSize c, ?_, ?_, ?_⟩
        · rw [List.cons_append, utf8FirstLen, if_neg (Ne.symm hs.1)]
        · rw [List.length_cons, List.length_append]
          omega
        · obtain ⟨fuel, rfl⟩ : ∃ n, fuel = n + 1 := ⟨fuel - 1, by omega⟩
          rw [drop_more hsize, hzero]
          cases after with
          | nil => simp [indexFrom]
          | cons d after => simp [indexFrom]
      · rw [indexFrom_cons (Ne.symm hs.1) hzero hsize] at hindex
        have hstep := ih hs.2.2 (show after.length < fuel by omega)
          (show 0 ≤ idx - 1 by omega) hindex
        rw [show idx - 1 + 1 = idx + 1 - 1 by omega] at hstep
        exact hstep

theorem below_of_wlenFrom {fuel limit : Nat} (hs : 0 ∉ s)
    (h : wlenFrom fuel limit (s ++ [0]) ≠ none) : Below limit s := by
  induction fuel generalizing s limit with
  | zero => exact absurd rfl h
  | succ fuel ih =>
      cases limit with
      | zero =>
          have hnone : wlenFrom (fuel + 1) 0 (s ++ [0]) = none := by
            cases s <;> rfl
          exact absurd hnone h
      | succ limit =>
          cases s with
          | nil => exact .nil limit
          | cons c s =>
              simp only [List.mem_cons, not_or] at hs
              by_cases hlimit : limit = 0
              · rw [hlimit]
                exact .last _
              · rw [List.cons_append, wlenFrom, if_neg (not_or.2 ⟨Ne.symm hs.1, hlimit⟩),
                  ← List.cons_append, Ne, Option.map_eq_none_iff] at h
                rcases drop_char c s with ⟨more, rest, rfl, hsize, hdrop⟩ | ⟨hlong, hdrop⟩
                · rw [hdrop] at h
                  have hrest := ih (fun hmem => hs.2 (List.mem_append_right _ hmem)) h
                  refine .cons limit c more rest (Nat.pos_of_ne_zero hlimit) hsize ?_ hrest
                  by_contra hnot
                  rw [Nat.sub_eq_zero_of_le (Nat.not_lt.1 hnot)] at hrest
                  cases hrest
                · rw [hdrop, wlenFrom_nil] at h
                  contradiction

theorem indexFrom_length {fuel : Nat} {idx : Int} {str rest : List UInt8}
    (h : indexFrom fuel idx str = some rest) : rest.length ≤ str.length := by
  induction fuel generalizing idx str with
  | zero => contradiction
  | succ fuel ih =>
      cases str with
      | nil => contradiction
      | cons c str =>
          rw [indexFrom] at h
          split at h
          · obtain rfl := Option.some.inj h
            exact Nat.le_refl _
          · exact (ih h).trans (by rw [List.length_drop]; exact Nat.sub_le _ _)

/-- `utf8_wlen` counts the characters `utf8_index` finds before the terminating zero and
before the last byte under the limit. -/
theorem wlenFrom_of_below {limit : Nat} (hbelow : Below limit s) (hs : 0 ∉ s) {fuel : Nat}
    (hfuel : s.length < fuel) :
    ∃ n, wlenFrom fuel limit (s ++ [0]) = some n ∧
      ∀ (fuel' k : Nat) (rest : List UInt8),
        indexFrom fuel' k (s ++ [0]) = some (rest ++ [0]) →
          (k < n ↔ rest ≠ [] ∧ s.length - rest.length + 1 < limit) := by
  induction hbelow generalizing fuel with
  | nil limit =>
      obtain ⟨fuel, rfl⟩ := Nat.exists_eq_add_of_lt hfuel
      refine ⟨0, by simp [wlenFrom], ?_⟩
      intro fuel' k rest hindex
      have hlength := indexFrom_length hindex
      simp only [List.length_append, List.length_singleton, List.length_nil] at hlength
      have hrest : rest = [] := List.eq_nil_of_length_eq_zero (by omega)
      simp [hrest]
  | last s =>
      obtain ⟨fuel, rfl⟩ := Nat.exists_eq_add_of_lt hfuel
      refine ⟨0, ?_, ?_⟩
      · cases s <;> simp [wlenFrom]
      · intro fuel' k rest _
        constructor
        · intro hk
          omega
        · rintro ⟨-, hk⟩
          omega
  | cons limit c more after hpos hsize hlimit _ ih =>
      simp only [List.mem_cons, List.mem_append, not_or] at hs
      simp only [List.length_cons, List.length_append] at hfuel
      obtain ⟨fuel, rfl⟩ : ∃ n, fuel = n + 1 := ⟨fuel - 1, by omega⟩
      obtain ⟨n, hwlen, hcount⟩ := ih hs.2.2 (show after.length < fuel by omega)
      refine ⟨n + 1, ?_, ?_⟩
      · have hgo : ¬ (c = 0 ∨ limit = 0) := not_or.2 ⟨Ne.symm hs.1, by omega⟩
        rw [List.cons_append, wlenFrom, if_neg hgo, ← List.cons_append, drop_more hsize, hwlen,
          Option.map_some]
      · intro fuel' k rest hindex
        cases fuel' with
        | zero => contradiction
        | succ fuel' =>
            cases k with
            | zero =>
                rw [List.cons_append, indexFrom, if_pos (.inr rfl), Option.some.injEq,
                  ← List.cons_append] at hindex
                obtain rfl := List.append_cancel_right hindex
                simp only [ne_eq, reduceCtorEq, not_false_eq_true, true_and, Nat.sub_self]
                omega
            | succ k =>
                rw [indexFrom_cons (Ne.symm hs.1) (by omega) hsize,
                  show ((k + 1 : Nat) : Int) - 1 = k by omega] at hindex
                have hlength := indexFrom_length hindex
                simp only [List.length_append, List.length_singleton] at hlength
                have hk := hcount fuel' k rest hindex
                simp only [List.length_cons, List.length_append]
                constructor
                · intro hlt
                  have hfound := hk.1 (by omega)
                  exact ⟨hfound.1, by omega⟩
                · rintro ⟨hne, hbefore⟩
                  have hlt := hk.2 ⟨hne, by omega⟩
                  omega

/-- The scanners stay inside the string and under the limit, and they agree on where the
characters begin. -/
structure ScannersAgree (s : List UInt8) (limit : Nat) : Prop where
  index : ∀ idx, ∃ passed rest, s = passed ++ rest ∧
    utf8Index (s ++ [0]) idx = some (rest ++ [0])
  first : ∀ idx rest, 0 ≤ idx → utf8Index (s ++ [0]) idx = some (rest ++ [0]) →
    ∃ n, utf8FirstLen (rest ++ [0]) = some n ∧ n ≤ rest.length ∧
      utf8Index (s ++ [0]) (idx + 1) = some ((rest ++ [0]).drop n)
  wlen : ∃ n, utf8Wlen (s ++ [0]) limit = some n ∧
    ∀ (k : Nat) (rest : List UInt8), utf8Index (s ++ [0]) k = some (rest ++ [0]) →
      (k < n ↔ rest ≠ [] ∧ s.length - rest.length + 1 < limit)

theorem scannersAgree_iff (hs : 0 ∉ s) (limit : Nat) :
    ScannersAgree s limit ↔ Whole s ∧ Below limit s := by
  constructor
  · intro h
    obtain ⟨passed, rest, -, hindex⟩ := h.index (-1)
    obtain ⟨n, hwlen, -⟩ := h.wlen
    constructor
    · have hfound : utf8Index (s ++ [0]) (-1) ≠ none := by
        rw [hindex]
        exact Option.some_ne_none _
      exact whole_of_indexFrom hs (by decide) hfound
    · have hfound : utf8Wlen (s ++ [0]) limit ≠ none := by
        rw [hwlen]
        exact Option.some_ne_none n
      exact below_of_wlenFrom hs hfound
  · rintro ⟨hwhole, hbelow⟩
    have hfuel : s.length < (s ++ [0]).length + 1 := by
      rw [List.length_append]
      omega
    constructor
    · exact indexFrom_of_whole hwhole hs hfuel
    · intro idx rest hidx hindex
      exact indexFrom_succ hwhole hs hfuel hidx hindex
    · obtain ⟨n, hwlen, hcount⟩ := wlenFrom_of_below hbelow hs hfuel
      exact ⟨n, hwlen, fun k rest hindex => hcount _ k rest hindex⟩

/-- The codec is right for every character and every valid string; the scanners are
exactly when no character is cut off by the terminating zero or by the limit. -/
theorem codec_and_scanners (s : List UInt8) (hs : 0 ∉ s) (limit : Nat) :
    (∀ c ≤ 0x7fffffff, ∀ rest, utf8Wchar (wcharUtf8 c ++ rest) = some (c, rest)) ∧
    (∀ cs maxwc maxstr, Valid cs → cs.length ≤ maxwc → (encode cs).length ≤ maxstr →
      (utf8Wstr maxwc (encode cs ++ [0])).map (wstrUtf8 · maxstr) = some (encode cs)) ∧
    (ScannersAgree s limit ↔ Whole s ∧ Below limit s) := by
  refine ⟨?_, ?_, scannersAgree_iff hs limit⟩
  · intro c hc rest
    exact utf8Wchar_wcharUtf8 hc rest
  · intro cs maxwc maxstr hcs hwc hstr
    exact wstrUtf8_utf8Wstr hcs hwc hstr

/-- A character of two bytes and one of one byte, under a limit behind the terminating zero. -/
theorem codec_and_scanners_accent :
    utf8Wchar (wcharUtf8 0xe9 ++ [0x61]) = some (0xe9, [0x61]) ∧
    (utf8Wstr 2 (encode [0xe9, 0x61] ++ [0])).map (wstrUtf8 · 3) = some (encode [0xe9, 0x61]) ∧
    ScannersAgree [0xc3, 0xa9, 0x61] 4 := by
  obtain ⟨hchar, hstring, hscanners⟩ := codec_and_scanners [0xc3, 0xa9, 0x61] (by decide) 4
  refine ⟨hchar 0xe9 (by decide) [0x61], hstring [0xe9, 0x61] 2 3 ?_ (by decide) (by decide),
    hscanners.2 ⟨?_, ?_⟩⟩
  · intro c hc
    simp only [List.mem_cons, List.not_mem_nil, or_false] at hc
    omega
  · exact .cons 0xc3 [0xa9] [0x61] (by decide) (.cons 0x61 [] [] (by decide) .nil)
  · exact .cons 3 0xc3 [0xa9] [0x61] (by decide) (by decide) (by decide)
      (.cons 1 0x61 [] [] (by decide) (by decide) (by decide) (.nil 0))

/-- The first byte of two alone before the terminating zero: the length is looked for
behind the end of the string. -/
theorem truncated_character_overrun : ¬ ∀ (s : List UInt8) (limit : Nat), 0 ∉ s →
    limit = s.length + 1 → ScannersAgree s limit := by
  intro h
  obtain ⟨n, hwlen, -⟩ := (h [0xc3] 2 (by decide) rfl).wlen
  have hnone : utf8Wlen ([0xc3] ++ [0]) 2 = none := by decide
  rw [hnone] at hwlen
  contradiction

end Boundaries

end NewLispNeo.Utf8
