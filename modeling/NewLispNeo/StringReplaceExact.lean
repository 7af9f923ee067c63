/-
When `replace` in a string replaces exactly the leftmost matches of its key.
-/
import NewLispNeo.StringReplaceRuns

namespace NewLispNeo

namespace StringReplace

open Leftmost (Match Pattern)

variable {W ε : Type} {subject : List UInt8}

/-! ### When they are not -/

section Unsteady

variable {I : StringEvaluator W ε} {c c' : Collected} {offset fuel : Nat} {exprCell : Cell}
  {s s' : Session W} {m : Match (List (List UInt8))}

/-- A loop that comes to an end has passed each match. -/
theorem collect_some_value {key : Key subject} {s₁ : Session W} (h : c.offset ≤ subject.length)
    (hall : key.once = false) (hsearch : search I c.offset key s = .value (some m) s₁)
    (hvalue : collect I key exprCell (fuel + 1) c s = .value c' s') :
    ∃ e s₂, collect I key exprCell fuel (c.add m e) s₂ = .value c' s' := by
  rw [collect_some h hsearch] at hvalue
  obtain ⟨cell, s₂, -, hvalue⟩ := Effect.bind_eq_value_iff.mp hvalue
  obtain ⟨e, s₃, -, hvalue⟩ := Effect.bind_eq_value_iff.mp hvalue
  rw [hall, if_neg Bool.false_ne_true] at hvalue
  exact ⟨e, s₃, hvalue⟩

theorem collect_search_value {key : Key subject} (h : c.offset ≤ subject.length)
    (hvalue : collect I key exprCell (fuel + 1) c s = .value c' s') :
    ∃ found s₁, search I c.offset key s = .value found s₁ := by
  rw [collect_succ, if_neg (Nat.not_lt.mpr h)] at hvalue
  obtain ⟨found, s₁, hsearch, -⟩ := Effect.bind_eq_value_iff.mp hvalue
  exact ⟨found, s₁, hsearch⟩

theorem regex_steady {R : Regex subject} {once : Bool}
    {found : Option (Match (List (List UInt8)))}
    (h : search I offset (.regex R once) s = .value found s') :
    (Key.regex R once).Steady offset := by
  obtain ⟨r, s₁, hr, -⟩ := Effect.bind_eq_value_iff.mp h
  exact searchBufferRegex_value hr

theorem regex_steadyFrom {R : Regex subject}
    (hvalue : collect I (.regex R false) exprCell fuel c s = .value c' s') :
    (Key.regex R false).SteadyFrom c.offset := by
  induction fuel generalizing c s with
  | zero => cases hvalue
  | succ fuel ih =>
      by_cases hle : c.offset ≤ subject.length
      · obtain ⟨found, s₁, hsearch⟩ := collect_search_value hle hvalue
        have hsteady := regex_steady hsearch
        cases hm : (Key.regex R false).pattern.leftmost c.offset with
        | none => exact .of_none (fun _ => hsteady) hm
        | some m =>
            have hstart := (Pattern.leftmost_eq_some_iff.mp hm).start_le_stop
            obtain ⟨e, s₂, hrest⟩ :=
              collect_some_value hle rfl (search_some I hsteady hm s) hvalue
            have hnext := ih hrest
            rw [offset_add hstart] at hnext
            exact .of_some hsteady hm hnext
      · exact .of_lt _ (Nat.not_le.mp hle)

/-- A key that goes on behind the subject: the search reads there, or it finds a match that
ends behind the zero. -/
theorem search_overruns {key : List UInt8} {found : Option (Match (List (List UInt8)))}
    (hkey : key ≠ []) (hnone : (keyPattern key subject).leftmost offset = none)
    (hover : ∃ p, offset ≤ p ∧ Overruns key subject p)
    (h : search I offset (.plain key : Key subject) s = .value found s') :
    ∃ m, found = some m ∧ m.start < m.stop ∧ m.stop = subject.length + 1 := by
  classical
  obtain ⟨hle, hout⟩ := Nat.find_spec hover
  have hmin : ∀ p, offset ≤ p → p < Nat.find hover → ¬ Overruns key subject p :=
    fun p hp hlt hearlier => Nat.find_min hover hlt ⟨hp, hearlier⟩
  generalize Nat.find hover = p at hle hout hmin
  have hsum : offset + (p - offset) = p := by omega
  have hlt := hout.1
  have hfirst := @FileSearch.searchBuffer_first (subject.drop offset ++ [0]) key
    (subject.length - offset) (p - offset) 0 hkey (by omega) fun p' hp' => by
        rw [drop_memory (by omega), stops_memory (by omega)]
        rintro (hstands | hearlier)
        · have hno := Pattern.leftmost_eq_none_iff.mp hnone (offset + p') (by omega)
          rw [keyPattern_none (by omega)] at hno
          exact hno hstands
        · exact hmin _ (by omega) (by omega) hearlier
  rw [drop_memory (by omega), hsum] at hfirst
  rw [search_plain, searchPlain_eq hkey] at h
  by_cases hend : key <+: subject.drop p ++ [0]
  · rw [hfirst.1 hend] at h
    cases h
    have hlong := hout.lt
    have hkeyLen := hend.length_le
    rw [List.length_append, List.length_singleton, List.length_drop] at hkeyLen
    exact ⟨_, rfl, by simp only; omega, by simp only; omega⟩
  · rw [hfirst.2 ((stops_memory hlt).mpr (.inr hout)) hend] at h
    cases h

/-- A plain key for which the loop comes to an end: each search was steady, or the last
match was found behind the subject. -/
theorem plain_steadyFrom {key : List UInt8} (hkey : key ≠ [])
    (hvalue : collect I (.plain key : Key subject) exprCell fuel c s = .value c' s') :
    (Key.plain key : Key subject).SteadyFrom c.offset ∨
      c'.edits ≠ [] ∧ c'.offset = subject.length + 1 ∧ c'.bias = 0 := by
  induction fuel generalizing c s with
  | zero => cases hvalue
  | succ fuel ih =>
      by_cases hle : c.offset ≤ subject.length
      · cases hm : (keyPattern key subject).leftmost c.offset with
        | some m =>
            have hsteady : (Key.plain key : Key subject).Steady c.offset :=
              ⟨hkey, fun hnone => by rw [hm] at hnone; cases hnone⟩
            have hstart := (Pattern.leftmost_eq_some_iff.mp hm).start_le_stop
            obtain ⟨e, s₂, hrest⟩ :=
              collect_some_value hle rfl (search_some I hsteady hm s) hvalue
            refine (ih hrest).imp_left fun hnext => ?_
            rw [offset_add hstart] at hnext
            exact .of_some hsteady hm hnext
        | none =>
            by_cases hover : ∃ p, c.offset ≤ p ∧ Overruns key subject p
            · right
              obtain ⟨found, s₁, hsearch⟩ := collect_search_value hle hvalue
              obtain ⟨m, rfl, hlt, hstop⟩ := search_overruns hkey hm hover hsearch
              obtain ⟨e, s₂, hrest⟩ := collect_some_value hle rfl hsearch hvalue
              have hoffset : (c.add m e).offset = subject.length + 1 := by
                rw [offset_add hlt.le, next_of_nonempty hlt, hstop]
              have hbias : (c.add m e).bias = 0 := by
                simp only [Collected.add]
                rw [if_neg (by omega)]
              cases fuel with
              | zero => cases hrest
              | succ fuel =>
                  rw [collect_end (by omega)] at hrest
                  cases hrest
                  exact ⟨List.append_ne_nil_of_right_ne_nil _ (List.cons_ne_nil _ _), hoffset,
                    hbias⟩
            · exact .inl (.of_none
                (fun _ => ⟨hkey, fun _ p hp hout => hover ⟨p, hp, hout⟩⟩) hm)
      · exact .inl (.of_lt _ (Nat.not_le.mp hle))

/-- The empty key is only found where a byte is zero, so that at most each byte is an
entry. -/
theorem empty_key_edits (hedits : c.edits.length ≤ c.offset) (hle : c.offset ≤ subject.length)
    (hvalue : collect I (.plain [] : Key subject) exprCell fuel c s = .value c' s') :
    c'.edits.length ≤ subject.length := by
  induction fuel generalizing c s with
  | zero => cases hvalue
  | succ fuel ih =>
      cases hp : (subject.drop c.offset).findIdx? fun b => b = 0 with
      | none =>
          have hsearch : search I c.offset (.plain [] : Key subject) s = .value none s := by
            rw [search_plain, searchPlain, if_pos rfl, hp]
          rw [collect_none hle hsearch] at hvalue
          cases hvalue
          omega
      | some p =>
          have hsearch : search I c.offset (.plain [] : Key subject) s =
              .value (some ⟨c.offset + p, c.offset + p, []⟩) s := by
            rw [search_plain, searchPlain, if_pos rfl, hp]
            rfl
          have hlt := (List.findIdx?_eq_some_iff_findIdx_eq.mp hp).1
          rw [List.length_drop] at hlt
          obtain ⟨e, s₂, hrest⟩ := collect_some_value hle rfl hsearch hvalue
          have hoffset : (c.add ⟨c.offset + p, c.offset + p, []⟩ e).offset =
              c.offset + p + 1 := offset_add (Nat.le_refl _) e |>.trans (next_of_empty rfl)
          refine ih ?_ ?_ hrest
          · rw [hoffset]
            simp only [Collected.add, List.length_append, List.length_singleton]
            omega
          · rw [hoffset]
            omega

theorem length_successive_empty (offset : Nat) :
    ((keyPattern [] subject).successive offset).length = subject.length + 1 - offset := by
  refine Pattern.successive_induction (motive := fun offset ms =>
    ms.length = subject.length + 1 - offset) ?_ ?_ offset
  · intro offset hnone
    have hend : ¬ offset ≤ subject.length := by
      intro hle
      have hno := Pattern.leftmost_eq_none_iff.mp hnone offset (Nat.le_refl _)
      rw [keyPattern_none hle] at hno
      exact hno List.nil_prefix
    simp only [List.length_nil]
    omega
  · intro offset m hleft ih
    obtain ⟨hstart, -, hstop, -⟩ := keyPattern_matchAt.mp hleft.matchAt_eq
    have hle := hleft.le
    have hfirst : m.start = offset := by
      by_contra hne
      have hno := hleft.first offset (Nat.le_refl _) (by omega)
      rw [keyPattern_none (by omega)] at hno
      exact hno List.nil_prefix
    rw [List.length_cons, ih, next_of_empty (by simpa using hstop.symm)]
    simp only [List.length_nil] at hstop
    omega

/-- Where the last match ends behind the zero, the copy of the rest fails. -/
theorem splice_behind (hoffset : c.offset = subject.length + 1) (hbias : c.bias = 0)
    (first : Edit) : splice subject c first = none := by
  have hcopy : ∀ count newBuff, memcpy newBuff count (subject ++ [0]) ((c.offset : Int) - c.bias)
      ((subject.length : Int) - c.offset + c.bias) = none := by
    intro count newBuff
    exact if_neg (by omega)
  rw [splice]
  split
  · rfl
  · simp only [hcopy, Option.bind_eq_bind, Option.bind_none, Option.bind_fun_none]

theorem finish_value {r : Option NewString} (hedits : c.edits ≠ [])
    (h : (finish subject c s : Ending ε (Session W) (Option NewString)) = .value r s') :
    (∃ first ∈ c.edits.head?, ∃ new, splice subject c first = some new ∧ r = some new) ∧
      s'.count = c.edits.length := by
  rw [finish] at h
  cases he : c.edits with
  | nil => exact absurd he hedits
  | cons first edits =>
      rw [he] at h
      simp only at h
      cases hsplice : splice subject c first with
      | none =>
          rw [hsplice] at h
          cases h
      | some new =>
          rw [hsplice] at h
          cases h
          exact ⟨⟨first, rfl, new, hsplice, rfl⟩, rfl⟩

end Unsteady

/-! ### Long subjects -/

section Long

variable {key : Key subject} {c c' : Collected} {fuel : Nat} {s s' : Session Unit}
  {m : Match (List (List UInt8))} {e : Edit} {o : Option (Match (List (List UInt8)))}

/-- Expressions that are all `nil`. -/
def idle : StringEvaluator Unit Int where
  evaluateExpression _ := pure .nil
  regexError rc := rc

theorem lt_of_toInt_eq {n : Nat} (h : toInt n = n) : n < 2 ^ 31 := by
  have hlt : toInt n < ((2 ^ 32 : Nat) + 1) / 2 := Int.bmod_lt (by decide)
  rw [h] at hlt
  omega

/-- The entry for a match that stays what it is. -/
structure KeptEdit (m : Match (List (List UInt8))) (e : Edit) : Prop where
  offset : e.offset = toInt m.start
  length : e.length = e.repLen
  repLen : e.repLen = (m.stop - m.start : Nat)
  short : m.stop - m.start < 2 ^ 31

theorem newEdit_apply (cell : Cell) (s : Session W) :
    (newEdit subject m cell : Effect ε (Session W) Edit) s =
      if toInt (replacement subject m cell).length = (replacement subject m cell).length then
        .value ⟨toInt m.start, toInt (m.stop - m.start), replacement subject m cell,
          toInt (replacement subject m cell).length⟩ s
      else .undefined := rfl

theorem newEdit_nil (hstop : m.stop ≤ subject.length)
    (h : newEdit subject m .nil s = (.value e s' : Ending Int (Session Unit) Edit)) :
    KeptEdit m e := by
  have hlen : (replacement subject m .nil).length = m.stop - m.start := length_slice (by
    rw [List.length_append]
    omega)
  rw [newEdit_apply, hlen] at h
  by_cases hint : toInt (m.stop - m.start) = (m.stop - m.start : Nat)
  · rw [if_pos hint] at h
    injection h with he
    have hshort := lt_of_toInt_eq hint
    rw [hint] at he
    rw [← he]
    constructor
    · dsimp only
    · dsimp only
    · dsimp only
    · exact hshort
  · rw [if_neg hint] at h
    cases h

/-- Nothing has got longer or shorter. -/
structure Kept (c : Collected) : Prop where
  edits : ∀ e ∈ c.edits, e.length = e.repLen
  newLen : c.newLen = c.oldLen

/-- The last entry is for the match `m`. -/
structure LastIs (c : Collected) (m : Match (List (List UInt8))) : Prop where
  last : ∃ e, c.edits.getLast? = some e ∧ KeptEdit m e
  offset : c.offset = m.stop + c.bias

theorem Kept.add (h : Kept c) (he : KeptEdit m e) : Kept (c.add m e) := by
  constructor
  · intro e' he'
    rcases List.mem_append.mp he' with he' | he'
    · exact h.edits e' he'
    · rw [List.mem_singleton.mp he']
      exact he.length
  · simp only [Collected.add, h.newLen, he.repLen]

theorem lastIs_add (c : Collected) (he : KeptEdit m e) : LastIs (c.add m e) m :=
  ⟨⟨e, List.getLast?_concat, he⟩, rfl⟩

/-- The loop with values that are no strings, from behind the match `o`. -/
theorem collect_idle (hall : key.once = false) (hsteady : key.SteadyFrom c.offset)
    (hkept : Kept c) (hlast : ∀ m, o = some m → LastIs c m)
    (hvalue : collect idle key .nil fuel c s = .value c' s') :
    Kept c' ∧ ∀ m, (key.pattern.successive c.offset).getLast?.or o = some m → LastIs c' m := by
  induction fuel generalizing c s o with
  | zero => cases hvalue
  | succ fuel ih =>
      by_cases hle : c.offset ≤ subject.length
      · cases hm : key.pattern.leftmost c.offset with
        | none =>
            rw [collect_none hle (search_none idle (hsteady.1 hle) hm s)] at hvalue
            cases hvalue
            rw [Pattern.successive_of_none hm]
            exact ⟨hkept, hlast⟩
        | some m =>
            have hleft := Pattern.leftmost_eq_some_iff.mp hm
            have hstop := hleft.stop_le
            rw [key.size_pattern] at hstop
            rw [collect_some hle (search_some idle (hsteady.1 hle) hm s)] at hvalue
            obtain ⟨cell, s₂, hcell, hvalue⟩ := Effect.bind_eq_value_iff.mp hvalue
            cases hcell
            obtain ⟨e, s₃, hedit, hvalue⟩ := Effect.bind_eq_value_iff.mp hvalue
            have he := newEdit_nil hstop hedit
            have hnext : (c.add m e).offset = m.next := offset_add hleft.start_le_stop e
            rw [hall, if_neg Bool.false_ne_true] at hvalue
            have hrest := @ih (c.add m e) s₃ (some m)
              (by rw [hnext]; exact hsteady.next hm) (hkept.add he)
              (by rintro _ ⟨⟩; exact lastIs_add c he) hvalue
            rw [hnext] at hrest
            rw [Pattern.successive_of_some hm, List.getLast?_cons, Option.some_or]
            rw [Option.or_some] at hrest
            exact hrest
      · rw [collect_end (Nat.not_le.mp hle)] at hvalue
        cases hvalue
        rw [Pattern.successive_of_none (key.leftmost_of_lt (Nat.not_le.mp hle))]
        exact ⟨hkept, hlast⟩

/-- The offset behind the entries, whose replacements are as long as what they replace. -/
theorem spliceEdits_count {edits : List Edit} {count count' : Int} {newBuff newBuff' : List UInt8}
    {l : Edit} (hedits : ∀ e ∈ edits, e.length = e.repLen) (hlast : edits.getLast? = some l)
    (h : spliceEdits subject edits count newBuff = some (count', newBuff')) :
    ∀ first ∈ edits.head?, count' = count + (l.offset - first.offset) + l.repLen := by
  induction edits generalizing count newBuff with
  | nil => cases hlast
  | cons e edits ih =>
      rintro _ ⟨⟩
      cases edits with
      | nil =>
          obtain rfl : e = l := Option.some.inj hlast
          rw [spliceEdits] at h
          obtain ⟨newBuff₁, -, h⟩ := Option.bind_eq_some_iff.mp h
          cases h
          omega
      | cons e' edits =>
          rw [spliceEdits_cons] at h
          obtain ⟨newBuff₁, -, h⟩ := Option.bind_eq_some_iff.mp h
          obtain ⟨newBuff₂, -, h⟩ := Option.bind_eq_some_iff.mp h
          rw [List.getLast?_cons_cons] at hlast
          have hcount := ih (fun e he => hedits e (List.mem_cons_of_mem _ he)) hlast h e' rfl
          have hlen := hedits e List.mem_cons_self
          omega

/-- As many bytes are written as the length says only where the offset of the last match is
an `int`. -/
theorem splice_kept {first : Edit} {new : NewString} (hkept : Kept c) (hlast : LastIs c m)
    (hle : m.start ≤ m.stop) (hfirst : first ∈ c.edits.head?)
    (h : splice subject c first = some new) (hnew : new.written = new.newLen) :
    m.start < 2 ^ 31 := by
  obtain ⟨e, he, hedit⟩ := hlast.last
  have hoffset := hlast.offset
  have hlens := hkept.newLen
  rw [splice] at h
  split at h
  · cases h
  · obtain ⟨newBuff₁, -, h⟩ := Option.bind_eq_some_iff.mp h
    obtain ⟨⟨count, newBuff₂⟩, hrun, h⟩ := Option.bind_eq_some_iff.mp h
    obtain ⟨newBuff₃, -, h⟩ := Option.bind_eq_some_iff.mp h
    cases h
    have hcount := spliceEdits_count hkept.edits he hrun first hfirst
    have hstart := hedit.offset
    have hrep := hedit.repLen
    apply lt_of_toInt_eq
    simp only at hnew
    generalize toInt m.start = start at hstart ⊢
    omega

/-- A match does not start behind the last one. -/
theorem start_le_last {P : Pattern (List (List UInt8))} (offset : Nat) :
    (∀ m ∈ P.successive offset, offset ≤ m.start) ∧
      ∀ l, (P.successive offset).getLast? = some l → ∀ m ∈ P.successive offset,
        m.start ≤ l.start := by
  refine Pattern.successive_induction (motive := fun offset ms =>
    (∀ m ∈ ms, offset ≤ m.start) ∧ ∀ l, ms.getLast? = some l → ∀ m ∈ ms, m.start ≤ l.start)
      ?_ ?_ offset
  · intro offset _
    exact ⟨fun m hm => absurd hm List.not_mem_nil, fun l _ m hm => absurd hm List.not_mem_nil⟩
  · intro offset m hleft ih
    have hle := hleft.le
    have hlt : m.start < m.next := Nat.le_max_right _ _
    refine ⟨fun m' hm' => ?_, fun l hl m' hm' => ?_⟩
    · rcases List.mem_cons.mp hm' with rfl | hm'
      · exact hle
      · have hstart := ih.1 m' hm'
        omega
    · cases hrest : P.successive m.next with
      | nil =>
          rw [hrest] at hl hm'
          obtain rfl : m = l := Option.some.inj hl
          rw [List.mem_singleton.mp hm']
      | cons m'' rest =>
          rw [hrest, List.getLast?_cons_cons, ← hrest] at hl
          rcases List.mem_cons.mp hm' with rfl | hm'
          · have hstart := ih.1 l (List.mem_of_getLast? hl)
            omega
          · exact ih.2 l hl m' hm'

end Long

/-! ### When the matches are replaced -/

section Main

variable {key : Key subject}

theorem shortStrings_idle : idle.ShortStrings := by
  intro exprCell s contents s' h
  cases h

theorem evaluateMatches_idle (key : Key subject) (exprCell : Cell)
    (ms : List (Match (List (List UInt8)))) (s : Session Unit) :
    ∃ pairs s', evaluateMatches idle key exprCell ms s = .value pairs s' := by
  induction ms generalizing s with
  | nil => exact ⟨[], s, rfl⟩
  | cons m ms ih =>
      obtain ⟨pairs, s', hpairs⟩ := ih (key.enter m s)
      refine ⟨(m, .nil) :: pairs, s', ?_⟩
      rw [evaluateMatches_cons]
      change (evaluateMatches idle key exprCell ms >>= _) (key.enter m s) = _
      rw [Effect.bind_of_value hpairs]
      rfl

/-- What is expected comes to an end, and counts the matches. -/
theorem expected_idle (key : Key subject) (ms : List (Match (List (List UInt8))))
    (s : Session Unit) : ∃ r s', expected idle key .nil ms s = .value r s' ∧
      (ms ≠ [] → (∃ new, r = some new ∧ new.written = new.newLen) ∧ s'.count = ms.length) := by
  obtain ⟨pairs, s₁, hpairs⟩ := evaluateMatches_idle key .nil ms { s with count := 0 }
  have hend : expected idle key .nil ms s =
      if ms = [] then .value none (key.missed s₁)
      else
        .value (some ⟨spliced subject 0 pairs ++ [0], (spliced subject 0 pairs).length,
          (spliced subject 0 pairs).length⟩) { s₁ with count := ms.length, it := .nil } :=
    Effect.bind_of_value hpairs
  rw [hend]
  by_cases hms : ms = []
  · rw [if_pos hms]
    exact ⟨none, _, rfl, fun h => absurd hms h⟩
  · rw [if_neg hms]
    exact ⟨_, _, rfl, fun _ => ⟨⟨_, rfl, rfl⟩, rfl⟩⟩

/-- With these expressions the loop comes to an end where the matches are replaced. -/
theorem Replaces.collect_value (h : Replaces key) : ∃ fuel c s₁ r s',
    collect idle key .nil (fuel + 1) ⟨0, 0, [], 0, 0⟩ ⟨0, .nil, fun _ => .nil, ()⟩ =
      .value c s₁ ∧
    (finish subject c s₁ : Ending Int (Session Unit) (Option NewString)) = .value r s' ∧
    (key.replaced ≠ [] → (∃ new, r = some new ∧ new.written = new.newLen) ∧
      s'.count = key.replaced.length) := by
  obtain ⟨fuel, hrun⟩ := h Unit Int idle shortStrings_idle .nil ⟨0, .nil, fun _ => .nil, ()⟩
  obtain ⟨r, s', hvalue, hcount⟩ := expected_idle key key.replaced ⟨0, .nil, fun _ => .nil, ()⟩
  rw [← hrun (fuel + 1) (Nat.le_succ fuel), replaceString_eq] at hvalue
  obtain ⟨c, s₁, hcollect, hfinish⟩ := Effect.bind_eq_value_iff.mp hvalue
  exact ⟨fuel, c, s₁, r, s', hcollect, hfinish, hcount⟩

theorem Replaces.ne_nil {key : List UInt8} (h : Replaces (.plain key : Key subject)) :
    key ≠ [] := by
  rintro rfl
  obtain ⟨fuel, c, s₁, r, s', hcollect, hfinish, hcount⟩ := h.collect_value
  have hlen : (Key.plain [] : Key subject).replaced.length = subject.length + 1 :=
    length_successive_empty 0
  have hne : (Key.plain [] : Key subject).replaced ≠ [] :=
    List.ne_nil_of_length_pos (by omega)
  obtain ⟨⟨new, rfl, -⟩, hcount⟩ := hcount hne
  have hedits := empty_key_edits (by exact Nat.zero_le _) (by exact Nat.zero_le _) hcollect
  by_cases hnil : c.edits = []
  · rw [finish, hnil] at hfinish
    cases hfinish
  · have hwritten := (finish_value hnil hfinish).2
    omega

theorem Replaces.steadyFrom_plain {key : List UInt8} (h : Replaces (.plain key : Key subject)) :
    (Key.plain key : Key subject).SteadyFrom 0 := by
  obtain ⟨fuel, c, s₁, r, s', hcollect, hfinish, -⟩ := h.collect_value
  refine (plain_steadyFrom h.ne_nil hcollect).resolve_right ?_
  rintro ⟨hedits, hoffset, hbias⟩
  obtain ⟨⟨first, -, new, hsplice, -⟩, -⟩ := finish_value hedits hfinish
  rw [splice_behind hoffset hbias] at hsplice
  cases hsplice

theorem Replaces.not_overruns {key : List UInt8} (h : Replaces (.plain key : Key subject))
    {p : Nat}
    (hp : (((keyPattern key subject).successive 0).getLast?.map Match.stop).getD 0 ≤ p) :
    ¬ Overruns key subject p := by
  intro hover
  have hsteady := h.steadyFrom_plain
  cases hlast : ((keyPattern key subject).successive 0).getLast? with
  | none =>
      have hnone : (keyPattern key subject).leftmost 0 = none := by
        by_contra hsome
        obtain ⟨m, hm⟩ := Option.ne_none_iff_exists'.mp hsome
        rw [Pattern.successive_of_some hm] at hlast
        exact absurd (List.getLast?_eq_none_iff.mp hlast) (List.cons_ne_nil _ _)
      exact (hsteady.1 (Nat.zero_le _)).2 hnone p (Nat.zero_le p) hover
  | some m =>
      rw [hlast] at hp
      have hmem := List.mem_of_getLast? hlast
      have hnext := next_of_nonempty (keyPattern_nonempty h.ne_nil 0 m hmem)
      have hle : m.next ≤ p := by
        rw [hnext]
        exact hp
      have hlt := hover.1
      exact (hsteady.2 m hmem (by omega)).2 (leftmost_of_getLast? 0 m hlast) p hle hover

theorem Replaces.short {key : List UInt8} (h : Replaces (.plain key : Key subject)) :
    ∀ m ∈ (keyPattern key subject).successive 0, ShortMatch m := by
  intro m hm
  obtain ⟨fuel, c, s₁, r, s', hcollect, hfinish, hcount⟩ := h.collect_value
  obtain ⟨⟨new, rfl, hwritten⟩, -⟩ := hcount (List.ne_nil_of_mem hm)
  obtain ⟨l, hl⟩ := Option.ne_none_iff_exists'.mp
    (mt List.getLast?_eq_none_iff.mp (List.ne_nil_of_mem hm))
  have hkept₀ : Kept ⟨0, 0, [], 0, 0⟩ := ⟨fun e he => absurd he List.not_mem_nil, rfl⟩
  obtain ⟨hkept, hlast⟩ := collect_idle rfl h.steadyFrom_plain hkept₀
    (fun m (ho : none = some m) => absurd ho.symm (Option.some_ne_none m)) hcollect
  replace hlast : LastIs c l := hlast l (by
    rw [Option.or_none]
    exact hl)
  obtain ⟨e, he, hedit⟩ := hlast.last
  have hne : c.edits ≠ [] := by
    intro hnil
    rw [hnil] at he
    cases he
  obtain ⟨⟨first, hfirst, new', hsplice, hnew⟩, -⟩ := finish_value hne hfinish
  cases hnew
  have hat := keyPattern_matchAt.mp (matchAt_of_mem 0 m hm)
  have hat' := keyPattern_matchAt.mp (matchAt_of_mem 0 l (List.mem_of_getLast? hl))
  have hstart := splice_kept hkept hlast (by omega) hfirst hsplice hwritten
  have hle := (start_le_last 0).2 l hl m hm
  have hshort := hedit.short
  exact ⟨by omega, by omega⟩

theorem Replaces.safe (h : Replaces key) : key.Safe := by
  cases key with
  | plain key => exact ⟨h.ne_nil, fun p => h.not_overruns, h.short⟩
  | regex R once =>
      obtain ⟨fuel, c, s₁, r, s', hcollect, -⟩ := h.collect_value
      obtain ⟨found, s₂, hsearch⟩ := collect_search_value (Nat.zero_le _) hcollect
      refine ⟨(regex_steady hsearch).1, ?_⟩
      rintro rfl m hm hempty
      have hrest := (regex_steadyFrom hcollect).2 m hm
      rw [next_of_empty hempty] at hrest
      by_cases hle : m.stop + 1 ≤ subject.length
      · exact (hrest hle).2
      · have hsize := R.size_eq
        exact R.boundary_end (by omega)

/-- The matches are replaced if and only if no search reads or stops behind the subject or
inside a character, and their places are numbers of type `int`. -/
theorem string_replaces_iff (key : Key subject) : Replaces key ↔ key.Safe :=
  ⟨Replaces.safe, fun h => replaces_of_steady h.short h.steady h.steadyFrom⟩

/-- In `(replace "b\000" "ab" …)` the key is found in the zero behind the subject; in
`(replace "bcd" "ab" …)` three bytes are compared where two are left with the zero. -/
theorem not_replaces_zero : ¬ Replaces (.plain [98, 0] : Key [97, 98]) ∧
    ¬ Replaces (.plain [98, 99, 100] : Key [97, 98]) := by
  constructor
  · intro h
    exact h.safe.2.1 1 (by decide) (by decide)
  · intro h
    exact h.safe.2.1 1 (by decide) (by decide)

end Main

end StringReplace

end NewLispNeo
