/-
`searchBuffer` in both case modes, on a buffer that lies inside a larger memory.
-/
import NewLispNeo.FileSearch

namespace NewLispNeo

namespace BufferSearch

/-- `toupper` for ASCII letters. -/
def toupper (b : UInt8) : UInt8 := if 97 ≤ b ∧ b ≤ 122 then b - 32 else b

/-- `my_strnicmp`, where both strings have to have the bytes that are compared. -/
def my_strnicmp : List UInt8 → List UInt8 → Nat → Outcome Error Int
  | b :: s1, c :: s2, size =>
      if toupper b = toupper c then
        if size ≤ 1 then .value 0 else my_strnicmp s1 s2 (size - 1)
      else .value ((toupper b).toNat - (toupper c).toNat)
  | _, _, _ => .undefined

/-- The comparison for `caseFlag == FALSE`, in the memory from a position to its end. -/
def compareFolded (string buffer : List UInt8) : Outcome Error Int :=
  if buffer.head?.map toupper = string.head?.map toupper then
    my_strnicmp buffer string string.length
  else .value 1

/-- The comparison of a case mode. -/
def compareAt (caseFlag : Bool) (string buffer : List UInt8) : Outcome Error Int :=
  if caseFlag then FileSearch.compareBytes string buffer else compareFolded string buffer

/-- `searchBuffer` in a memory that begins with the buffer. -/
def searchBuffer (memory : List UInt8) (length : Nat) (string : List UInt8) (caseFlag : Bool) :
    Outcome Error (Option Nat) :=
  FileSearch.scanBuffer (compareAt caseFlag string) length 0 memory

/-! ### What the search should find -/

/-- The bytes as they are compared. -/
def folded (caseFlag : Bool) (bytes : List UInt8) : List UInt8 :=
  if caseFlag then bytes else bytes.map toupper

/-- The bytes of the key stand at this position of the buffer. -/
def OccursAt (caseFlag : Bool) (buffer key : List UInt8) (p : Nat) : Prop :=
  folded caseFlag key <+: folded caseFlag (buffer.drop p)

instance (caseFlag : Bool) (buffer key : List UInt8) (p : Nat) :
    Decidable (OccursAt caseFlag buffer key p) :=
  inferInstanceAs (Decidable (folded caseFlag key <+: folded caseFlag (buffer.drop p)))

/-- A comparison from this position on needs bytes behind the buffer: with case it may read as
many bytes as the key has, once the first is right; without case it stops at a difference. -/
def RunsOut (caseFlag : Bool) (buffer key : List UInt8) (p : Nat) : Prop :=
  p < buffer.length ∧
    if caseFlag then
      (buffer.drop p).head? = key.head? ∧ (buffer.drop p).length < key.length
    else (buffer.drop p).map toupper <+: key.map toupper

/-- Whatever stands behind the buffer, the search returns the least position of the key in
it, or that there is none. -/
structure Searches (caseFlag : Bool) (buffer key : List UInt8) : Prop where
  found : ∀ p, OccursAt caseFlag buffer key p → (∀ q, q < p → ¬ OccursAt caseFlag buffer key q) →
    ∀ behind, searchBuffer (buffer ++ behind) buffer.length key caseFlag = .value (some p)
  absent : (∀ p, ¬ OccursAt caseFlag buffer key p) →
    ∀ behind, searchBuffer (buffer ++ behind) buffer.length key caseFlag = .value none

/-! ### The two comparisons -/

section Comparisons

variable {caseFlag : Bool} {buffer memory key behind : List UInt8} {p : Nat}

theorem my_strnicmp_cons (b c : UInt8) (s1 s2 : List UInt8) (size : Nat) :
    my_strnicmp (b :: s1) (c :: s2) size =
      if toupper b = toupper c then
        if size ≤ 1 then .value 0 else my_strnicmp s1 s2 (size - 1)
      else .value ((toupper b).toNat - (toupper c).toNat) := rfl

/-- Behind a byte that is the same the comparison goes on, up to the end of the key. -/
theorem my_strnicmp_step {b c : UInt8} (hbc : toupper b = toupper c) :
    my_strnicmp (b :: memory) (c :: key) (c :: key).length =
      if key = [] then .value 0 else my_strnicmp memory key key.length := by
  rw [my_strnicmp_cons, if_pos hbc]
  cases key with
  | nil => rfl
  | cons c' key =>
      rw [if_neg (by simp), if_neg (List.cons_ne_nil _ _)]
      rfl

theorem my_strnicmp_starts (hkey : key ≠ []) (h : key.map toupper <+: memory.map toupper) :
    my_strnicmp memory key key.length = .value 0 := by
  induction key generalizing memory with
  | nil => exact absurd rfl hkey
  | cons c key ih =>
      cases memory with
      | nil => exact absurd (List.prefix_nil.mp h) (List.cons_ne_nil _ _)
      | cons b memory =>
          obtain ⟨hbc, hrest⟩ := List.cons_prefix_cons.mp h
          rw [my_strnicmp_step hbc.symm]
          by_cases hnil : key = []
          · rw [if_pos hnil]
          · rw [if_neg hnil, ih hnil hrest]

theorem my_strnicmp_outside (h : memory.map toupper <+: key.map toupper)
    (hno : ¬ key.map toupper <+: memory.map toupper) :
    my_strnicmp memory key key.length = .undefined := by
  induction key generalizing memory with
  | nil => exact absurd List.nil_prefix hno
  | cons c key ih =>
      cases memory with
      | nil => rfl
      | cons b memory =>
          obtain ⟨hbc, hrest⟩ := List.cons_prefix_cons.mp h
          have hno' : ¬ key.map toupper <+: memory.map toupper :=
            fun hstarts => hno (List.cons_prefix_cons.mpr ⟨hbc.symm, hstarts⟩)
          have hnil : key ≠ [] := by
            rintro rfl
            exact hno' List.nil_prefix
          rw [my_strnicmp_step hbc, if_neg hnil, ih hrest hno']

theorem my_strnicmp_differs (hno : ¬ key.map toupper <+: memory.map toupper)
    (hout : ¬ memory.map toupper <+: key.map toupper) :
    ∃ comp, my_strnicmp memory key key.length = .value comp ∧ comp ≠ 0 := by
  induction key generalizing memory with
  | nil => exact absurd List.nil_prefix hno
  | cons c key ih =>
      cases memory with
      | nil => exact absurd List.nil_prefix hout
      | cons b memory =>
          by_cases hbc : toupper b = toupper c
          · have hno' : ¬ key.map toupper <+: memory.map toupper :=
              fun hstarts => hno (List.cons_prefix_cons.mpr ⟨hbc.symm, hstarts⟩)
            have hnil : key ≠ [] := by
              rintro rfl
              exact hno' List.nil_prefix
            rw [my_strnicmp_step hbc, if_neg hnil]
            exact ih hno' fun hends => hout (List.cons_prefix_cons.mpr ⟨hbc, hends⟩)
          · rw [my_strnicmp_cons, if_neg hbc]
            refine ⟨_, rfl, fun horder => hbc (UInt8.toNat_inj.mp ?_)⟩
            omega

theorem length_folded (bytes : List UInt8) : (folded caseFlag bytes).length = bytes.length := by
  cases caseFlag with
  | true => rfl
  | false => exact List.length_map toupper

theorem OccursAt.le (h : OccursAt caseFlag buffer key p) (hkey : key ≠ []) :
    p + key.length ≤ buffer.length := by
  have hlen := h.length_le
  rw [length_folded, length_folded, List.length_drop] at hlen
  have hpos := List.length_pos_iff.mpr hkey
  omega

/-- The memory from a position of the buffer on. -/
theorem memory_drop (hp : p ≤ buffer.length) (behind : List UInt8) :
    (buffer ++ behind).drop p = buffer.drop p ++ behind :=
  List.drop_append_of_le_length hp

/-- Where the key stands in the buffer, the comparison says so. -/
theorem compareAt_occurs (hkey : key ≠ []) (hp : p ≤ buffer.length)
    (h : OccursAt caseFlag buffer key p) (behind : List UInt8) :
    compareAt caseFlag key ((buffer ++ behind).drop p) = .value 0 := by
  rw [memory_drop hp, compareAt]
  cases caseFlag with
  | true =>
      rw [if_pos rfl]
      exact FileSearch.compareBytes_starts hkey (h.trans (List.prefix_append _ _))
  | false =>
      have hstarts : key.map toupper <+: (buffer.drop p ++ behind).map toupper := by
        rw [List.map_append]
        exact h.trans (List.prefix_append _ _)
      obtain ⟨c, key, rfl⟩ := List.exists_cons_of_ne_nil hkey
      rw [if_neg Bool.false_ne_true, compareFolded, if_pos, my_strnicmp_starts hkey hstarts]
      obtain ⟨rest, hrest⟩ := hstarts
      rw [← List.head?_map, ← List.head?_map, ← hrest]
      rfl

/-- Where it does not stand there, and the comparison does not run out, it meets a difference. -/
theorem compareAt_differs (hkey : key ≠ []) (hp : p < buffer.length)
    (hno : ¬ OccursAt caseFlag buffer key p) (hruns : ¬ RunsOut caseFlag buffer key p)
    (behind : List UInt8) :
    ∃ comp, compareAt caseFlag key ((buffer ++ behind).drop p) = .value comp ∧ comp ≠ 0 := by
  have hbuffer : buffer.drop p ≠ [] := by
    rw [Ne, List.drop_eq_nil_iff]
    omega
  rw [memory_drop hp.le, compareAt]
  cases caseFlag with
  | true =>
      rw [if_pos rfl]
      refine FileSearch.compareBytes_differs fun hstops => ?_
      have hhead := hstops.head?_eq hkey
      rw [List.head?_append_of_ne_nil _ hbuffer] at hhead
      have hroom : key.length ≤ (buffer.drop p).length :=
        Nat.le_of_not_lt fun hlt => hruns ⟨hp, hhead, hlt⟩
      rcases hstops with hstarts | ⟨-, hshort⟩
      · exact hno (List.prefix_of_prefix_length_le hstarts (List.prefix_append _ _) hroom)
      · rw [List.length_append] at hshort
        omega
  | false =>
      rw [if_neg Bool.false_ne_true, compareFolded]
      by_cases hhead : (buffer.drop p ++ behind).head?.map toupper = key.head?.map toupper
      · rw [if_pos hhead]
        have hout : ¬ (buffer.drop p).map toupper <+: key.map toupper :=
          fun hends => hruns ⟨hp, hends⟩
        refine my_strnicmp_differs (fun hstarts => ?_) fun hends => ?_
        · rw [List.map_append] at hstarts
          rcases List.prefix_or_prefix_of_prefix hstarts (List.prefix_append _ _) with h | h
          · exact hno h
          · exact hout h
        · rw [List.map_append] at hends
          exact hout ((List.prefix_append _ _).trans hends)
      · rw [if_neg hhead]
        exact ⟨1, rfl, by decide⟩

/-- Where it runs out and nothing stands behind the buffer, it reads there. -/
theorem compareAt_outside (hno : ¬ OccursAt caseFlag buffer key p)
    (hruns : RunsOut caseFlag buffer key p) :
    compareAt caseFlag key (buffer.drop p) = .undefined := by
  obtain ⟨hp, hout⟩ := hruns
  rw [compareAt]
  cases caseFlag with
  | true =>
      rw [if_pos rfl] at hout ⊢
      exact FileSearch.compareBytes_outside hout.1 hout.2
  | false =>
      rw [if_neg Bool.false_ne_true] at hout ⊢
      rw [compareFolded, if_pos, my_strnicmp_outside hout hno]
      obtain ⟨b, rest, hrest⟩ := List.exists_cons_of_ne_nil
        (show buffer.drop p ≠ [] by
          rw [Ne, List.drop_eq_nil_iff]
          omega)
      rw [hrest] at hout ⊢
      obtain ⟨tail, htail⟩ := hout
      rw [← List.head?_map, ← List.head?_map, ← htail]
      rfl

end Comparisons

/-! ### When the search stays inside the buffer -/

section Main

variable {caseFlag : Bool} {buffer key : List UInt8}

/-- Before an occurrence there is room for the key. -/
theorem OccursAt.not_runsOut {p q : Nat} (h : OccursAt caseFlag buffer key p) (hkey : key ≠ [])
    (hq : q < p) : ¬ RunsOut caseFlag buffer key q := by
  rintro ⟨-, hout⟩
  have hle := h.le hkey
  have hshort : (buffer.drop q).length ≤ key.length := by
    cases caseFlag with
    | true => exact hout.2.le
    | false =>
        have hlen := List.IsPrefix.length_le hout
        rwa [List.length_map, List.length_map] at hlen
  rw [List.length_drop] at hshort
  omega

theorem searchBuffer_found {p : Nat} (hkey : key ≠ []) (h : OccursAt caseFlag buffer key p)
    (hleast : ∀ q, q < p → ¬ OccursAt caseFlag buffer key q) (behind : List UInt8) :
    searchBuffer (buffer ++ behind) buffer.length key caseFlag = .value (some p) := by
  have hle := h.le hkey
  have hpos := List.length_pos_iff.mpr hkey
  have hfirst := (FileSearch.scanBuffer_first 0 (by omega : p < buffer.length) fun q hq =>
    compareAt_differs hkey (by omega) (hleast q hq) (h.not_runsOut hkey hq) behind).1
      (compareAt_occurs hkey (by omega) h behind)
  rw [searchBuffer, hfirst, Nat.zero_add]

theorem searchBuffer_absent (hkey : key ≠ []) (hno : ∀ p, ¬ OccursAt caseFlag buffer key p)
    (hruns : ∀ p, ¬ RunsOut caseFlag buffer key p) (behind : List UInt8) :
    searchBuffer (buffer ++ behind) buffer.length key caseFlag = .value none :=
  FileSearch.scanBuffer_none 0 fun p hp => compareAt_differs hkey hp (hno p) (hruns p) behind

/-- Where the buffer ends before the comparison does, a byte behind it is read. -/
theorem searchBuffer_outside (hkey : key ≠ []) (hno : ∀ p, ¬ OccursAt caseFlag buffer key p)
    (hruns : ∃ p, RunsOut caseFlag buffer key p) :
    searchBuffer buffer buffer.length key caseFlag = .undefined := by
  classical
  have hout := Nat.find_spec hruns
  have hmin : ∀ q, q < Nat.find hruns → ¬ RunsOut caseFlag buffer key q :=
    fun q hq => Nat.find_min hruns hq
  generalize Nat.find hruns = p at hout hmin
  refine (FileSearch.scanBuffer_first 0 hout.1 fun q hq => ?_).2 (compareAt_outside (hno p) hout)
  have hdiffers := compareAt_differs hkey (hq.trans hout.1) (hno q) (hmin q hq) []
  rwa [List.append_nil] at hdiffers

/-- The search finds the least position of the key and compares only bytes of the buffer if
and only if the key is there or no comparison runs out. -/
theorem searches_iff (hkey : key ≠ []) : Searches caseFlag buffer key ↔
    (∃ p, OccursAt caseFlag buffer key p) ∨ ∀ p, ¬ RunsOut caseFlag buffer key p := by
  constructor
  · intro h
    by_contra hnot
    push Not at hnot
    obtain ⟨hno, hruns⟩ := hnot
    have hnone := h.absent hno []
    rw [List.append_nil, searchBuffer_outside hkey hno hruns] at hnone
    cases hnone
  · intro h
    refine ⟨fun p hp hleast => searchBuffer_found hkey hp hleast, fun hno => ?_⟩
    rcases h with ⟨p, hp⟩ | hruns
    · exact absurd hp (hno p)
    · exact searchBuffer_absent hkey hno hruns

/-- The key `"B"` is in `"ab"` without case. -/
theorem searches_letter : Searches false [97, 98] [66] :=
  (searches_iff (List.cons_ne_nil _ _)).mpr (.inl ⟨1, by decide⟩)

/-- The key `"b\000"` is found in the last byte of `"ab"` and the zero behind it, and not
found before another byte; for the key `"acd"` three bytes of `"ab"` are compared. -/
theorem not_searches_end : ¬ Searches true [97, 98] [98, 0] ∧
    searchBuffer ([97, 98] ++ [0]) 2 [98, 0] true = .value (some 1) ∧
    searchBuffer ([97, 98] ++ [1]) 2 [98, 0] true = .value none ∧
    searchBuffer [97, 98] 2 [97, 99, 100] true = .undefined := by
  refine ⟨fun h => ?_, by decide, by decide, by decide⟩
  have hnone := h.absent (fun p hp => ?_) [0]
  · revert hnone
    decide
  · have hle := hp.le (List.cons_ne_nil _ _)
    have hp0 : p = 0 := by
      simp only [List.length_cons, List.length_nil] at hle
      omega
    subst hp0
    revert hp
    decide

end Main

end BufferSearch

end NewLispNeo
