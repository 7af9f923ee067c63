/-
`rotate`: the chain of a list is cut in two and linked in the other order, the
bytes of a string are copied.
-/
import Mathlib.Data.Int.ModEq
import Mathlib.Data.List.Rotate
import NewLispNeo.CellPool

namespace NewLispNeo

open Linked (Chain)

variable {α : Type}

/-- `adjustCount`; `labs` and the negation overflow on the smallest count. -/
def adjustCount (count length : Int) : Outcome ListError Int :=
  if length ≤ 1 ∨ count = 0 then .value 0
  else if count = -2 ^ 63 then .undefined
  else if length = count.natAbs then .value 0
  else if 0 < count then .value (count.tmod length)
  else .value (length - (-count).tmod length)

/-- The loop that counts the elements and remembers the last one; `none` is the
`NULL` that it starts with. -/
def countCells (pool : CellPool α) :
    Nat → Address → Nat → Option Address → Outcome ListError (Nat × Option Address)
  | 0, _, _, _ => .timeout
  | fuel + 1, cell, length, last =>
      if cell = nilCell then .value (length, last)
      else countCells pool fuel (pool.next cell) (length + 1) (some cell)

/-- `while(index--)`: `previous` follows one cell behind. -/
def advance (pool : CellPool α) : Nat → Address → Address → Address × Address
  | 0, previous, cell => (previous, cell)
  | index + 1, _, cell => advance pool index cell (pool.next cell)

/-- The two `memcpy` into the new string. -/
def rotateBytes (bytes : List UInt8) (count : Nat) : List UInt8 :=
  (bytes.drop (bytes.length - count)).take count ++
    bytes.take (bytes.length - count)

theorem length_rotateBytes {bytes : List UInt8} {count : Nat}
    (h : count ≤ bytes.length) : (rotateBytes bytes count).length = bytes.length := by
  simp only [rotateBytes, List.length_append, List.length_take, List.length_drop]
  omega

theorem fits_rotateBytes {string : CellString} {count : Nat}
    (h : count ≤ string.bytes.length) :
    (rotateBytes string.bytes count).length + 1 < 2 ^ 63 := by
  rw [length_rotateBytes h]
  exact string.fits

/-- The string after the last `memcpy`; more bytes than the string has are not
there to be copied. -/
def rotateString (string : CellString) (count : Int) :
    Outcome ListError CellString :=
  if count = 0 then .value string
  else if h : count.toNat ≤ string.bytes.length then
    .value ⟨rotateBytes string.bytes count.toNat, fits_rotateBytes h⟩
  else .undefined

/-- The cut and the two links. -/
def relink (pool : CellPool α) (list : Address) (kind : ListKind)
    (first last : Address) (index : Nat) : CellPool α :=
  let (previous, cell) := advance pool index first first
  (((pool.setNext previous nilCell).setNext last first).setContents list
    (.list kind cell)).setAux list previous

/-- The second parameter, 1 where it is missing. -/
def rotateCount (params : Option Word) : Int := (params.getD 1).toInt

/-- `p_rotate` of the cell `list` that the first parameter evaluated to, the
second parameter being the count; `isProtected` is that of `symbolCheck`. -/
def p_rotate (fuel : Nat) (isProtected : Bool) (params : Option Word)
    (list : Address) (pool : CellPool α) : Outcome ListError (CellPool α) :=
  if isProtected then .error .symbolProtected
  else match pool.contents list with
  | .string string => do
      let count ← adjustCount (rotateCount params) string.bytes.length
      let string ← rotateString string count
      return pool.setContents list (.string string)
  | .list kind first => do
      let pool := pool.setAux list nilCell
      let (length, last) ← countCells pool fuel first 0 none
      let count ← adjustCount (rotateCount params) length
      if count = 0 then return pool
      match last with
      | none => .undefined
      | some last => return relink pool list kind first last (length - count).toNat
  | .other _ => .error .listExpected

/-! ### Cyclic permutations -/

variable {β : Type}

/-- Every element of `l` has moved by `c` places around the end. -/
structure RotatedBy (c : Int) (l l' : List β) : Prop where
  perm : l'.Perm l
  getElem? : ∀ i < l.length, l'[((i + c) % l.length).toNat]? = l[i]?

theorem rotatedBy_rotate {c r : Int} {l : List β} (hr : 0 ≤ r)
    (hle : r ≤ l.length) (hmod : r ≡ c [ZMOD l.length]) :
    RotatedBy c l (l.rotate (l.length - r.toNat)) := by
  refine ⟨List.rotate_perm .., fun i hi => ?_⟩
  have hpos : (0 : Int) < l.length := by omega
  obtain ⟨p, hp⟩ : ∃ p : Nat, (p : Int) = (i + c) % l.length :=
    ⟨_, Int.toNat_of_nonneg (Int.emod_nonneg _ hpos.ne')⟩
  have hlt : (p : Int) < l.length := hp ▸ Int.emod_lt_of_pos _ hpos
  rw [← hp, Int.toNat_natCast, List.getElem?_rotate (by omega)]
  congr 1
  have hback : ((p + (l.length - r.toNat) : Nat) : Int) ≡ i [ZMOD l.length] := by
    have hcast : ((p + (l.length - r.toNat) : Nat) : Int) =
        p + (l.length - r) := by omega
    have hpi : (p : Int) ≡ i + c [ZMOD l.length] := hp ▸ Int.mod_modEq _ _
    have hstep : (p : Int) + (l.length - r) ≡ i + c + (0 - c) [ZMOD l.length] :=
      hpi.add ((Int.modEq_zero_iff_dvd.mpr (dvd_refl _)).sub hmod)
    rw [hcast]
    simpa using hstep
  have hnat := Int.natCast_modEq_iff.mp hback
  rw [hnat, Nat.mod_eq_of_lt hi]

/-- Without a step the list is what it was. -/
theorem rotatedBy_self {c : Int} {l : List β}
    (h : l.length ≤ 1 ∨ (l.length : Int) ∣ c) : RotatedBy c l l := by
  rcases Nat.eq_zero_or_pos l.length with hzero | hpos
  · exact ⟨.refl l, fun i hi => absurd hi (by omega)⟩
  · have hdvd : (l.length : Int) ∣ c := by
      rcases h with h | h
      · have hone : l.length = 1 := by omega
        rw [hone]
        exact one_dvd c
      · exact h
    have hrot := rotatedBy_rotate (l := l) le_rfl (Int.natCast_nonneg _)
      (Int.modEq_zero_iff_dvd.mpr hdvd).symm
    simpa using hrot

/-- A cut between two elements, the last of either part apart. -/
theorem exists_cut {l : List β} {k : Nat} (hpos : 0 < k) (hlt : k < l.length) :
    ∃ l₁ b l₂ c, l = l₁ ++ [b] ++ (l₂ ++ [c]) ∧ (l₁ ++ [b]).length = k ∧
      l.rotate k = l₂ ++ [c] ++ (l₁ ++ [b]) := by
  have hlen : (l.take k).length = k := List.length_take_of_le hlt.le
  have htake : l.take k ≠ [] := List.ne_nil_of_length_pos (by omega)
  have hdrop : l.drop k ≠ [] := by
    rw [Ne, List.drop_eq_nil_iff]
    omega
  have hrot := List.rotate_eq_drop_append_take hlt.le
  rcases List.eq_nil_or_concat (l.take k) with hnil | ⟨l₁, b, h₁⟩
  · exact absurd hnil htake
  rcases List.eq_nil_or_concat (l.drop k) with hnil | ⟨l₂, c, h₂⟩
  · exact absurd hnil hdrop
  rw [List.concat_eq_append] at h₁ h₂
  rw [h₁] at hlen
  rw [h₁, h₂] at hrot
  refine ⟨l₁, b, l₂, c, ?_, hlen, hrot⟩
  rw [← h₁, ← h₂, List.take_append_drop]

/-- Two rotations that go around together restore the list. -/
theorem RotatedBy.restored {c c' : Int} {l l₁ l₂ : List β} (h : RotatedBy c l l₁)
    (h' : RotatedBy c' l₁ l₂) (hdvd : l.length ≤ 1 ∨ (l.length : Int) ∣ c + c') :
    l₂ = l := by
  have hlen₁ : l₁.length = l.length := h.perm.length_eq
  have hlen₂ : l₂.length = l.length := h'.perm.length_eq.trans hlen₁
  refine List.ext_getElem? fun i => ?_
  by_cases hi : i < l.length
  · have hpos : (0 : Int) < l.length := by omega
    have hsum : (l.length : Int) ∣ c + c' := by
      rcases hdvd with hone | hdvd
      · have hone : l.length = 1 := by omega
        rw [hone]
        exact one_dvd _
      · exact hdvd
    obtain ⟨p, hp⟩ : ∃ p : Nat, (p : Int) = (i + c) % l.length :=
      ⟨_, Int.toNat_of_nonneg (Int.emod_nonneg _ hpos.ne')⟩
    have hlt : (p : Int) < l.length := hp ▸ Int.emod_lt_of_pos _ hpos
    have hback : (p + c') % l.length = i := by
      have hmod : (p : Int) + c' ≡ i + c + c' [ZMOD l.length] :=
        (hp ▸ Int.mod_modEq _ _ : (p : Int) ≡ i + c [ZMOD l.length]).add_right c'
      have hi' : (i : Int) + c + c' ≡ i [ZMOD l.length] := by
        rw [add_assoc]
        exact Int.add_modEq_left_iff.mpr hsum
      rw [(hmod.trans hi').eq, Int.emod_eq_of_lt (by omega) (by omega)]
    have h₂ := h'.getElem? p (by omega)
    rw [hlen₁, hback, Int.toNat_natCast] at h₂
    have h₁ := h.getElem? i hi
    rw [← hp, Int.toNat_natCast] at h₁
    rw [h₂, h₁]
  · rw [List.getElem?_eq_none (by omega), List.getElem?_eq_none (by omega)]

theorem rotateBytes_eq {bytes : List UInt8} {count : Nat}
    (h : count ≤ bytes.length) :
    rotateBytes bytes count = bytes.rotate (bytes.length - count) := by
  rw [List.rotate_eq_drop_append_take (by omega), rotateBytes]
  congr 1
  refine List.take_of_length_le ?_
  rw [List.length_drop]
  omega

/-! ### The count -/

theorem adjustCount_of_le_one {count length : Int} (h : length ≤ 1) :
    adjustCount count length = .value 0 := by
  simp [adjustCount, h]

theorem adjustCount_zero (length : Int) : adjustCount 0 length = .value 0 := by
  simp [adjustCount]

theorem adjustCount_min {length : Int} (h : 1 < length) :
    adjustCount (-2 ^ 63) length = .undefined := by
  have hlength : ¬ length ≤ 1 := by omega
  simp [adjustCount, hlength]

theorem tmod_modEq {a n : Int} (ha : 0 ≤ a) : a.tmod n ≡ a [ZMOD n] := by
  rw [Int.tmod_eq_emod_of_nonneg ha]
  exact Int.mod_modEq a n

/-- The count keeps its remainder; it comes out as the length itself for the
negative multiples of the length but the first. -/
theorem adjustCount_eq {count length : Int} (hlength : 1 < length)
    (hcount : count ≠ -2 ^ 63) :
    ∃ r, adjustCount count length = .value r ∧ 0 ≤ r ∧ r ≤ length ∧
      r ≡ count [ZMOD length] ∧
      (r = length ↔ count < -length ∧ length ∣ count) := by
  by_cases hzero : count = 0
  · refine ⟨0, by rw [hzero, adjustCount_zero], le_rfl, by omega, ?_, by omega⟩
    rw [hzero]
  have hguard : ¬ (length ≤ 1 ∨ count = 0) := by omega
  simp only [adjustCount, hguard, hcount, if_false]
  split
  · rename_i habs
    refine ⟨0, rfl, le_rfl, by omega, ?_, by omega⟩
    refine (Int.modEq_zero_iff_dvd.mpr ?_).symm
    rw [habs]
    exact Int.natAbs_dvd.mpr (dvd_refl count)
  split
  · rename_i hpos
    refine ⟨count.tmod length, rfl, Int.tmod_nonneg _ hpos.le,
      (Int.tmod_lt_of_pos _ (by omega)).le, tmod_modEq hpos.le, ?_⟩
    have hlt := Int.tmod_lt_of_pos count (by omega : 0 < length)
    omega
  · rename_i habs hpos
    have hneg : 0 ≤ -count := by omega
    have hnonneg := Int.tmod_nonneg length hneg
    have hlt := Int.tmod_lt_of_pos (-count) (by omega : 0 < length)
    refine ⟨length - (-count).tmod length, rfl, by omega, by omega, ?_, ?_⟩
    · have hsub : length - (-count).tmod length ≡ 0 - -count [ZMOD length] :=
        (Int.modEq_zero_iff_dvd.mpr (dvd_refl length)).sub (tmod_modEq hneg)
      simpa using hsub
    · have hdvd : (-count).tmod length = 0 ↔ length ∣ count := by
        rw [← Int.dvd_iff_tmod_eq_zero, Int.dvd_neg]
      constructor
      · intro h
        have hmul := hdvd.mp (by omega)
        have hle := Int.le_of_dvd (by omega) (Int.dvd_neg.mpr hmul)
        exact ⟨by omega, hmul⟩
      · rintro ⟨-, h⟩
        have := hdvd.mpr h
        omega

/-! ### The chain -/

variable {pool : CellPool α} {first cell previous last list : Address}
  {cells l₁ l₂ : List Address} {kind : ListKind}

theorem countCells_eq (pool : CellPool α) (h : Chain pool.next nilCell cell cells)
    {fuel : Nat} (hfuel : cells.length < fuel) (n : Nat) (last : Option Address) :
    countCells pool fuel cell n last =
      .value (n + cells.length, cells.getLast?.or last) := by
  induction cells generalizing fuel cell n last with
  | nil =>
      obtain ⟨fuel, rfl⟩ := Nat.exists_eq_add_one_of_ne_zero (by omega : fuel ≠ 0)
      obtain rfl := Linked.Chain.nil_iff.mp h
      simp [countCells]
  | cons c cells ih =>
      obtain ⟨fuel, rfl⟩ := Nat.exists_eq_add_one_of_ne_zero (by omega : fuel ≠ 0)
      obtain ⟨rfl, hne, htail⟩ := Linked.Chain.cons_iff.mp h
      have hlen : cells.length < fuel := by simpa using hfuel
      rw [countCells, if_neg hne, ih htail hlen]
      have hlast : cells.getLast?.or (some cell) = (cell :: cells).getLast?.or last := by
        cases hcells : cells.getLast? with
        | none => simp [List.getLast?_eq_none_iff.mp hcells]
        | some d => simp [List.getLast?_cons, hcells]
      have hcount : n + 1 + cells.length = n + (cell :: cells).length := by
        simp only [List.length_cons]
        omega
      rw [hlast, hcount]

theorem advance_eq {b : Address} (h : Linked.Segment pool.next cell l₁ b)
    (previous : Address) :
    advance pool l₁.length previous cell = (l₁.getLast?.getD previous, b) := by
  induction l₁ generalizing cell previous with
  | nil =>
      obtain rfl := Linked.Segment.nil_iff.mp h
      rfl
  | cons c l₁ ih =>
      obtain ⟨rfl, htail⟩ := Linked.Segment.cons_iff.mp h
      rw [List.length_cons, advance, ih htail]
      simp [List.getLast?_cons]

/-- Both parts have a cell: the second one now comes first. -/
theorem relink_eq (pool : CellPool α) (list : Address) (kind : ListKind)
    (hcells : Chain pool.next nilCell first
      (l₁ ++ [previous] ++ (l₂ ++ [last]))) :
    ∃ cell, relink pool list kind first last (l₁ ++ [previous]).length =
        (((pool.setNext previous nilCell).setNext last first).setContents list
          (.list kind cell)).setAux list previous ∧
      Chain ((pool.setNext previous nilCell).setNext last first).next nilCell cell
        (l₂ ++ [last] ++ (l₁ ++ [previous])) := by
  obtain ⟨cell, hseg, -, -⟩ := Linked.Chain.append_iff.mp hcells
  have hadvance := advance_eq hseg first
  rw [List.getLast?_concat, Option.getD_some] at hadvance
  have hnext := (Linked.Segment.snoc_iff.mp hseg).2
  obtain ⟨hcut₁, hcut₂⟩ := Linked.Chain.cut hcells
  have hlast : last ∉ l₁ ++ [previous] := fun hmem =>
    (List.nodup_append.mp hcells.nodup).2.2 last hmem last (by simp) rfl
  have hlink := Linked.Chain.link hcut₂ hcut₁ hlast
  rw [hnext] at hlink
  exact ⟨cell, by rw [relink, hadvance], hlink⟩

/-- An index of zero cuts behind the first cell, and the others are lost. -/
theorem relink_zero (pool : CellPool α) (list : Address) (kind : ListKind)
    (hcells : Chain pool.next nilCell first
      (first :: (l₂ ++ [last]))) :
    (relink pool list kind first last 0).contents list = .list kind first ∧
      Chain (relink pool list kind first last 0).next nilCell first [first] := by
  have hne : first ≠ last := by
    have hnodup := hcells.nodup
    rintro rfl
    simp at hnodup
  have hnil : first ≠ nilCell := (Linked.Chain.cons_iff.mp hcells).2.1
  simp [relink, advance, hne, hnil]

/-! ### The property -/

/-- What a cell holds in order: the cells of a list or the bytes of a string. -/
inductive Elements where
  | list (kind : ListKind) (cells : List Address)
  | string (bytes : List UInt8)

namespace Elements

def length : Elements → Nat
  | .list _ l => l.length
  | .string b => b.length

def isList : Elements → Bool
  | .list _ _ => true
  | .string _ => false

/-- The cells that a list is made of. -/
def owned : Elements → List Address
  | .list _ l => l
  | .string _ => []

/-- The same kind of value with its elements moved by `c` places. -/
inductive Rotated (c : Int) : Elements → Elements → Prop
  | list {kind : ListKind} {l l' : List Address} (h : RotatedBy c l l') :
      Rotated c (.list kind l) (.list kind l')
  | string {b b' : List UInt8} (h : RotatedBy c b b') :
      Rotated c (.string b) (.string b')

end Elements

namespace CellPool

/-- The cell `x` is a list or a string with the elements `e`. -/
def Holds (pool : CellPool α) (x : Address) : Elements → Prop
  | .list kind cells => pool.IsListOf x kind cells
  | .string bytes => ∃ string, pool.contents x = .string string ∧
      string.bytes = bytes

/-- The `aux` of a list is `nilCell` or the last element. -/
def CacheCorrect (pool : CellPool α) (x : Address) : Elements → Prop
  | .list _ cells => pool.aux x = nilCell ∨ cells.getLast? = some (pool.aux x)
  | .string _ => True

end CellPool

/-- From `pool` to `pool'` the elements of `x` were rotated by `c`, and nothing
else was changed. -/
structure RotatesTo (c : Int) (x : Address) (pool : CellPool α) (e : Elements)
    (pool' : CellPool α) (e' : Elements) : Prop where
  holds : pool'.Holds x e'
  rotated : e.Rotated c e'
  cache : pool'.CacheCorrect x e'
  contents : ∀ a ≠ x, pool'.contents a = pool.contents a
  aux : ∀ a ≠ x, pool'.aux a = pool.aux a
  next : ∀ a ∉ e.owned, pool'.next a = pool.next a

/-- `rotate` with the count and then with its negation: both rotate the elements
and the second one restores them. -/
def IsCyclicPermutation (pool : CellPool α) (x : Address) (e : Elements)
    (params : Option Word) : Prop :=
  ∀ fuel, e.length < fuel → ∃ pool₁ pool₂ e',
    p_rotate fuel false params x pool = .value pool₁ ∧
      RotatesTo (rotateCount params) x pool e pool₁ e' ∧
    p_rotate fuel false (some (-params.getD 1)) x pool₁ = .value pool₂ ∧
      RotatesTo (rotateCount (some (-params.getD 1))) x pool₁ e' pool₂ e

/-- No overflow in `adjustCount`, and for a list no multiple of its length beyond
the length itself, of either sign. -/
def KeepsElements (e : Elements) (count : Int) : Prop :=
  e.length ≤ 1 ∨ count ≠ -2 ^ 63 ∧
    ¬ (e.isList = true ∧ (e.length : Int) ∣ count ∧ e.length < count.natAbs)

/-- The count of one call that does not lose elements. -/
def CountFits (e : Elements) (count : Int) : Prop :=
  e.length ≤ 1 ∨ count ≠ -2 ^ 63 ∧
    ¬ (e.isList = true ∧ (e.length : Int) ∣ count ∧ count < -e.length)

/-- The places by which the chain is cut or the bytes are copied. -/
structure AdjustedTo (e : Elements) (count r : Int) : Prop where
  value : adjustCount count e.length = .value r
  nonneg : 0 ≤ r
  le_length : r ≤ e.length
  modEq : e.length ≤ 1 ∧ r = 0 ∨ r ≡ count [ZMOD e.length]
  cut : e.isList = true → r = 0 ∨ r < e.length

theorem CountFits.adjustedTo {e : Elements} {count : Int} (h : CountFits e count) :
    ∃ r, AdjustedTo e count r := by
  by_cases hone : e.length ≤ 1
  · exact ⟨0, adjustCount_of_le_one (by omega), le_rfl, by omega, .inl ⟨hone, rfl⟩,
      fun _ => .inl rfl⟩
  · obtain ⟨hmin, hcount⟩ := h.resolve_left hone
    obtain ⟨r, hr, hr₀, hrn, hmod, htop⟩ := adjustCount_eq
      (by omega : 1 < (e.length : Int)) hmin
    refine ⟨r, hr, hr₀, hrn, .inr hmod, fun hlist => ?_⟩
    have hne : r ≠ e.length := fun heq =>
      hcount ⟨hlist, (htop.mp heq).2, (htop.mp heq).1⟩
    omega

theorem AdjustedTo.rotatedBy {e : Elements} {c r : Int} (h : AdjustedTo e c r)
    {l : List β} (hl : e.length = l.length) :
    RotatedBy c l (l.rotate (l.length - r.toNat)) := by
  have hle := h.le_length
  rcases h.modEq with ⟨hone, rfl⟩ | hmod
  · simpa using rotatedBy_self (.inl (hl ▸ hone))
  · rw [hl] at hle hmod
    exact rotatedBy_rotate h.nonneg hle hmod

theorem p_rotate_string {x : Address} {string : CellString} {params : Option Word}
    (hx : pool.contents x = .string string)
    (hcount : CountFits (.string string.bytes) (rotateCount params)) (fuel : Nat) :
    ∃ pool' e', p_rotate fuel false params x pool = .value pool' ∧
      RotatesTo (rotateCount params) x pool (.string string.bytes) pool' e' := by
  obtain ⟨r, hr⟩ := hcount.adjustedTo
  have hle : r.toNat ≤ string.bytes.length := by
    have := hr.le_length
    simp only [Elements.length] at this
    omega
  have hvalue : adjustCount (rotateCount params) string.bytes.length = .value r :=
    hr.value
  obtain ⟨string', hstring, hbytes⟩ : ∃ string',
      rotateString string r = .value string' ∧
      string'.bytes = string.bytes.rotate (string.bytes.length - r.toNat) := by
    by_cases hzero : r = 0
    · exact ⟨string, by simp [rotateString, hzero], by simp [hzero]⟩
    · exact ⟨_, by rw [rotateString, if_neg hzero, dif_pos hle], rotateBytes_eq hle⟩
  refine ⟨pool.setContents x (.string string'), .string string'.bytes, ?_, ?_⟩
  · simp [p_rotate, hx, hvalue, hstring]
  · refine ⟨⟨string', by simp, rfl⟩, .string ?_, trivial, ?_, by simp, by simp⟩
    · rw [hbytes]
      exact hr.rotatedBy rfl
    · intro a ha
      simp [ha]

theorem p_rotate_list_zero {x : Address} {params : Option Word}
    (hx : pool.contents x = .list kind first)
    (hchain : Chain pool.next nilCell first cells)
    (hvalue : adjustCount (rotateCount params) cells.length = .value 0) {fuel : Nat}
    (hfuel : cells.length < fuel) :
    p_rotate fuel false params x pool = .value (pool.setAux x nilCell) := by
  have hcells : countCells (pool.setAux x nilCell) fuel first 0 none =
      .value (0 + cells.length, cells.getLast?.or none) :=
    countCells_eq (pool.setAux x nilCell) hchain hfuel 0 none
  simp [p_rotate, hx, hcells, hvalue]

theorem p_rotate_list_cut {x : Address} {params : Option Word}
    (hx : pool.contents x = .list kind first)
    (hchain : Chain pool.next nilCell first cells)
    (hlast : cells.getLast? = some last) {r : Int} {k : Nat}
    (hvalue : adjustCount (rotateCount params) cells.length = .value r) (hr : r ≠ 0)
    (hk : (k : Int) = cells.length - r) {fuel : Nat} (hfuel : cells.length < fuel) :
    p_rotate fuel false params x pool =
      .value (relink (pool.setAux x nilCell) x kind first last k) := by
  have hcells : countCells (pool.setAux x nilCell) fuel first 0 none =
      .value (0 + cells.length, cells.getLast?.or none) :=
    countCells_eq (pool.setAux x nilCell) hchain hfuel 0 none
  simp [p_rotate, hx, hcells, hvalue, hr, hlast, ← hk]

theorem p_rotate_list {x : Address} {params : Option Word}
    (hx : pool.IsListOf x kind cells)
    (hcount : CountFits (.list kind cells) (rotateCount params)) {fuel : Nat}
    (hfuel : cells.length < fuel) :
    ∃ pool' e', p_rotate fuel false params x pool = .value pool' ∧
      RotatesTo (rotateCount params) x pool (.list kind cells) pool' e' := by
  obtain ⟨r, hr⟩ := hcount.adjustedTo
  obtain ⟨⟨first, hfirst, hchain⟩, hmem⟩ := hx
  have hvalue : adjustCount (rotateCount params) cells.length = .value r := hr.value
  have hrot := hr.rotatedBy (l := cells) rfl
  by_cases hzero : r = 0
  · subst hzero
    refine ⟨pool.setAux x nilCell, .list kind cells,
      p_rotate_list_zero hfirst hchain hvalue hfuel, ?_⟩
    refine ⟨⟨⟨first, hfirst, hchain⟩, hmem⟩, .list ?_, .inl (by simp), by simp, ?_,
      by simp⟩
    · simpa using hrot
    · intro a ha
      simp [ha]
  · have hnonneg := hr.nonneg
    have hlt : r < cells.length := (hr.cut rfl).resolve_left hzero
    obtain ⟨k, hk⟩ : ∃ k : Nat, (k : Int) = cells.length - r :=
      ⟨_, Int.toNat_of_nonneg (by omega)⟩
    have hkr : cells.length - r.toNat = k := by omega
    obtain ⟨l₁, previous, l₂, last, hsplit, hlen, hrotate⟩ :=
      exists_cut (by omega : 0 < k) (by omega : k < cells.length)
    have hlast : cells.getLast? = some last := by
      rw [hsplit, ← List.append_assoc, List.getLast?_concat]
    rw [hkr, hrotate] at hrot
    have hvalue' := p_rotate_list_cut hfirst hchain hlast hvalue hzero hk hfuel
    rw [hsplit] at hchain
    obtain ⟨cell, hrelink, hchain'⟩ := relink_eq (pool.setAux x nilCell) x kind hchain
    rw [hlen] at hrelink
    refine ⟨_, .list kind (l₂ ++ [last] ++ (l₁ ++ [previous])), hvalue', ?_⟩
    rw [hrelink]
    refine ⟨⟨⟨cell, by simp, hchain'⟩, ?_⟩, .list hrot, .inr ?_, ?_, ?_, ?_⟩
    · intro hx
      exact hmem (hrot.perm.mem_iff.mp hx)
    · rw [← List.append_assoc, List.getLast?_concat]
      simp
    · intro a ha
      simp [ha]
    · intro a ha
      simp [ha]
    · intro a ha
      have hprevious : a ≠ previous := by
        rintro rfl
        exact ha (by simp [Elements.owned, hsplit])
      have hne : a ≠ last := by
        rintro rfl
        exact ha (by simp [Elements.owned, hsplit])
      simp [hprevious, hne]

theorem p_rotate_holds {x : Address} {e : Elements} {params : Option Word}
    (h : pool.Holds x e) (hcount : CountFits e (rotateCount params)) {fuel : Nat}
    (hfuel : e.length < fuel) :
    ∃ pool' e', p_rotate fuel false params x pool = .value pool' ∧
      RotatesTo (rotateCount params) x pool e pool' e' := by
  cases e with
  | list kind cells => exact p_rotate_list h hcount hfuel
  | string bytes =>
      obtain ⟨string, hx, rfl⟩ := h
      exact p_rotate_string hx hcount fuel

theorem p_rotate_min {x : Address} {e : Elements} {params : Option Word}
    (h : pool.Holds x e) (hlength : 1 < e.length)
    (hmin : rotateCount params = -2 ^ 63) {fuel : Nat} (hfuel : e.length < fuel) :
    p_rotate fuel false params x pool = .undefined := by
  have hvalue : adjustCount (rotateCount params) e.length = .undefined := by
    rw [hmin]
    exact adjustCount_min (by omega)
  cases e with
  | list kind cells =>
      obtain ⟨⟨first, hfirst, hchain⟩, -⟩ := h
      have hcells : countCells (pool.setAux x nilCell) fuel first 0 none =
          .value (0 + cells.length, cells.getLast?.or none) :=
        countCells_eq (pool.setAux x nilCell) hchain hfuel 0 none
      simp only [Elements.length] at hvalue
      simp [p_rotate, hfirst, hcells, hvalue]
  | string bytes =>
      obtain ⟨string, hx, rfl⟩ := h
      simp only [Elements.length] at hvalue
      simp [p_rotate, hx, hvalue]

/-- From twice the negative length on, its multiples leave the first element
only. -/
theorem p_rotate_loses {x : Address} {params : Option Word}
    (hx : pool.IsListOf x kind cells) (hlength : 1 < cells.length)
    (hmin : rotateCount params ≠ -2 ^ 63)
    (hdvd : (cells.length : Int) ∣ rotateCount params)
    (hlt : rotateCount params < -cells.length) {fuel : Nat}
    (hfuel : cells.length < fuel) {pool' : CellPool α} {e' : Elements}
    (hvalue : p_rotate fuel false params x pool = .value pool') :
    ¬ RotatesTo (rotateCount params) x pool (.list kind cells) pool' e' := by
  obtain ⟨⟨first, hfirst, hchain⟩, -⟩ := hx
  obtain ⟨r, hr, -, -, -, htop⟩ := adjustCount_eq
    (by omega : 1 < (cells.length : Int)) hmin
  obtain rfl := htop.mpr ⟨hlt, hdvd⟩
  obtain ⟨b, l₂, last, rfl⟩ : ∃ b l₂ last, cells = b :: (l₂ ++ [last]) := by
    cases cells with
    | nil => simp at hlength
    | cons b cells =>
        rcases List.eq_nil_or_concat cells with rfl | ⟨l₂, last, rfl⟩
        · simp at hlength
        · exact ⟨b, l₂, last, by rw [List.concat_eq_append]⟩
  obtain rfl := hchain.segment.start_eq_head
  have hlast : (first :: (l₂ ++ [last])).getLast? = some last := by
    simp [List.getLast?_cons]
  have hcut := p_rotate_list_cut hfirst hchain hlast (k := 0) hr (by omega)
    (by simp) hfuel
  rw [hvalue] at hcut
  cases hcut
  obtain ⟨hcontents, hlost⟩ := relink_zero (pool.setAux x nilCell) x kind
    hchain
  intro hrot
  have hrotated := hrot.rotated
  have hholds := hrot.holds
  cases hrotated with
  | list h =>
      obtain ⟨⟨first', hfirst', hchain'⟩, -⟩ := hholds
      rw [hcontents] at hfirst'
      cases hfirst'
      have hone := congrArg List.length (hlost.unique hchain')
      have hperm := h.perm.length_eq
      simp only [List.length_cons, List.length_nil] at hone
      omega

theorem rotateCount_neg {params : Option Word}
    (h : rotateCount params ≠ -2 ^ 63) :
    rotateCount (some (-params.getD 1)) = -rotateCount params := by
  have hne : params.getD 1 ≠ BitVec.intMin 64 := by
    intro heq
    refine h ?_
    rw [rotateCount, heq]
    rfl
  simpa [rotateCount] using BitVec.toInt_neg_of_ne_intMin hne

theorem RotatesTo.length_eq {c : Int} {x : Address} {pool' : CellPool α}
    {e e' : Elements} (h : RotatesTo c x pool e pool' e') :
    e'.length = e.length ∧ e'.isList = e.isList := by
  have hrotated := h.rotated
  cases hrotated with
  | list hrot => exact ⟨hrot.perm.length_eq, rfl⟩
  | string hrot => exact ⟨hrot.perm.length_eq, rfl⟩

theorem Elements.Rotated.restored {c c' : Int} {e e₁ e₂ : Elements}
    (h : e.Rotated c e₁) (h' : e₁.Rotated c' e₂)
    (hdvd : e.length ≤ 1 ∨ (e.length : Int) ∣ c + c') : e₂ = e := by
  cases h with
  | list h =>
      cases h' with
      | list h' => rw [h.restored h' hdvd]
  | string h =>
      cases h' with
      | string h' => rw [h.restored h' hdvd]

theorem KeepsElements.countFits {e : Elements} {count : Int}
    (h : KeepsElements e count) : CountFits e count := by
  rcases h with hone | ⟨hmin, hcount⟩
  · exact .inl hone
  · refine .inr ⟨hmin, ?_⟩
    rintro ⟨hlist, hdvd, hlt⟩
    exact hcount ⟨hlist, hdvd, by omega⟩

theorem KeepsElements.countFits_neg {e : Elements} {count : Int}
    (h : KeepsElements e count) (hmax : count < 2 ^ 63) : CountFits e (-count) := by
  rcases h with hone | ⟨hmin, hcount⟩
  · exact .inl hone
  · refine .inr ⟨by omega, ?_⟩
    rintro ⟨hlist, hdvd, hlt⟩
    exact hcount ⟨hlist, Int.dvd_neg.mp hdvd, by omega⟩

theorem rotateCount_lt (params : Option Word) : rotateCount params < 2 ^ 63 := by
  have h : (params.getD 1).toInt < 2 ^ 63 := BitVec.toInt_lt
  exact h

theorem not_isCyclicPermutation_min {x : Address} {e : Elements}
    (h : pool.Holds x e) {params : Option Word} (hlength : 1 < e.length)
    (hmin : rotateCount params = -2 ^ 63) : ¬ IsCyclicPermutation pool x e params := by
  intro hcyclic
  obtain ⟨pool₁, -, -, hvalue, -⟩ := hcyclic _ (Nat.lt_succ_self _)
  rw [p_rotate_min h hlength hmin (Nat.lt_succ_self _)] at hvalue
  cases hvalue

/-- One of the two calls cuts off all elements but the first: the first call for
a negative count, the second one for a positive count. -/
theorem not_isCyclicPermutation_multiple {x : Address} {params : Option Word}
    (h : pool.IsListOf x kind cells) (hlength : 1 < cells.length)
    (hdvd : (cells.length : Int) ∣ rotateCount params)
    (hlt : cells.length < (rotateCount params).natAbs) :
    ¬ IsCyclicPermutation pool x (.list kind cells) params := by
  by_cases hmin : rotateCount params = -2 ^ 63
  · have hholds : pool.Holds x (.list kind cells) := h
    exact not_isCyclicPermutation_min hholds hlength hmin
  intro hcyclic
  obtain ⟨pool₁, pool₂, e', hvalue₁, hrot₁, hvalue₂, hrot₂⟩ :=
    hcyclic _ (Nat.lt_succ_self _)
  obtain ⟨hlen', hlist'⟩ := hrot₁.length_eq
  have hmax := rotateCount_lt params
  have hneg := rotateCount_neg hmin
  by_cases hsign : rotateCount params < 0
  · exact p_rotate_loses h hlength hmin hdvd (by omega) (Nat.lt_succ_self _) hvalue₁
      hrot₁
  · cases e' with
    | string bytes => cases hlist'
    | list kind' cells' =>
        have hlen' : cells'.length = cells.length := hlen'
        refine p_rotate_loses hrot₁.holds (by omega) (by omega) ?_ (by omega) ?_
          hvalue₂ hrot₂
        · rw [hneg, hlen']
          exact Int.dvd_neg.mpr hdvd
        · rw [hlen']
          exact Nat.lt_succ_self _

theorem isCyclicPermutation_of_keepsElements {x : Address} {e : Elements}
    (h : pool.Holds x e) {params : Option Word}
    (hkeeps : KeepsElements e (rotateCount params)) :
    IsCyclicPermutation pool x e params := by
  intro fuel hfuel
  obtain ⟨pool₁, e', hvalue₁, hrot₁⟩ := p_rotate_holds h hkeeps.countFits hfuel
  obtain ⟨hlen', hlist'⟩ := hrot₁.length_eq
  have hfits : CountFits e' (rotateCount (some (-params.getD 1))) := by
    by_cases hone : e.length ≤ 1
    · exact .inl (by omega)
    · rw [rotateCount_neg (hkeeps.resolve_left hone).1]
      have hneg := hkeeps.countFits_neg (rotateCount_lt params)
      rwa [CountFits, hlen', hlist']
  obtain ⟨pool₂, e'', hvalue₂, hrot₂⟩ := p_rotate_holds hrot₁.holds hfits
    (hlen' ▸ hfuel)
  have hrestored : e'' = e := by
    refine hrot₁.rotated.restored hrot₂.rotated ?_
    by_cases hone : e.length ≤ 1
    · exact .inl hone
    · rw [rotateCount_neg (hkeeps.resolve_left hone).1]
      exact .inr (by simp)
  rw [hrestored] at hrot₂
  exact ⟨pool₁, pool₂, e', hvalue₁, hrot₁, hvalue₂, hrot₂⟩

/-- `rotate` is a cyclic permutation of the elements that its negation undoes,
exactly when the count neither overflows nor cuts a list behind its first
element. -/
theorem isCyclicPermutation_iff {x : Address} {e : Elements}
    (h : pool.Holds x e) (params : Option Word) :
    IsCyclicPermutation pool x e params ↔ KeepsElements e (rotateCount params) := by
  constructor
  · intro hcyclic
    by_contra hkeeps
    simp only [KeepsElements, not_or, not_and_or, not_not] at hkeeps
    obtain ⟨hlength, hmin | ⟨hlist, hdvd, hlt⟩⟩ := hkeeps
    · exact not_isCyclicPermutation_min h (by omega) hmin hcyclic
    · rw [not_le] at hlength
      cases e with
      | string bytes => cases hlist
      | list kind cells =>
          exact not_isCyclicPermutation_multiple h hlength hdvd hlt hcyclic
  · exact isCyclicPermutation_of_keepsElements h

/-- The cell 2 is the list of the cells 3 and 4. -/
def pairPool : CellPool Unit where
  contents a := if a = 2 then .list .expression 3 else .other ()
  aux _ := nilCell
  next a := if a = 3 then 4 else nilCell

theorem pairPool_holds : pairPool.Holds 2 (.list .expression [3, 4]) := by
  refine ⟨⟨3, rfl, ?_⟩, by decide⟩
  simp only [Linked.Chain.cons_iff, Linked.Chain.nil_iff]
  decide

theorem isCyclicPermutation_pair :
    IsCyclicPermutation pairPool 2 (.list .expression [3, 4]) (some (-1)) ↔
      KeepsElements (.list .expression [3, 4]) (rotateCount (some (-1))) :=
  isCyclicPermutation_iff pairPool_holds (some (-1))

/-- `(rotate '(a b) -4)` is `(a)`. -/
theorem not_isCyclicPermutation_pair :
    ¬ IsCyclicPermutation pairPool 2 (.list .expression [3, 4]) (some (-4)) :=
  not_isCyclicPermutation_multiple pairPool_holds (by decide) (by decide)
    (by decide)

end NewLispNeo
