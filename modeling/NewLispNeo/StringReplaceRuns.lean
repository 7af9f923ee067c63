/-
The first half of `replaceString`: its loop passes the leftmost matches where each search
is steady.
-/
import NewLispNeo.StringSplice

namespace NewLispNeo

namespace StringReplace

open Leftmost (Match Pattern)

variable {W ε : Type} {subject : List UInt8}

/-! ### One search -/

/-- What the key matches. -/
def Key.pattern : Key subject → Pattern (List (List UInt8))
  | .plain key => keyPattern key subject
  | .regex R _ => R.toPattern

/-- The variables behind a search that found `m`. -/
def Key.note (key : Key subject) (m : Match (List (List UInt8)))
    (s : Session W) : Session W :=
  match key with
  | .plain _ => s
  | .regex _ _ => (s.setStrings (strings subject m)).setIt

theorem Key.countUp_note (key : Key subject) (m : Match (List (List UInt8)))
    (s : Session W) : (key.note m s).countUp = key.enter m s := by
  cases key <;> rfl

/-- From `offset` on the search finds the leftmost match, or that there is none. -/
def Key.Steady (offset : Nat) : Key subject → Prop
  | .plain key => key ≠ [] ∧ ((keyPattern key subject).leftmost offset = none →
      ∀ p, offset ≤ p → ¬ Overruns key subject p)
  | .regex R _ => R.valid = true ∧ R.boundary offset = true

section Search

variable {key : List UInt8} {offset p : Nat} {m : Match (List (List UInt8))}

theorem keyPattern_matchAt {q : Nat} {g : List (List UInt8)} :
    (keyPattern key subject).matchAt p = some (q, g) ↔
      p ≤ subject.length ∧ key <+: subject.drop p ∧ q = p + key.length ∧ g = [] := by
  simp only [keyPattern]
  split
  · rename_i h
    simp [h, eq_comm]
  · rename_i h
    simp only [reduceCtorEq, false_iff]
    exact fun hp => h ⟨hp.1, hp.2.1⟩

theorem keyPattern_none (hp : p ≤ subject.length) :
    (keyPattern key subject).matchAt p = none ↔ ¬ key <+: subject.drop p := by
  simp [keyPattern, hp]

theorem drop_memory (hp : offset + p ≤ subject.length) :
    (subject.drop offset ++ [0]).drop p = subject.drop (offset + p) ++ [0] := by
  rw [List.drop_append_of_le_length (by
    rw [List.length_drop]
    omega), List.drop_drop]

theorem Overruns.lt (h : Overruns key subject p) : subject.length < p + key.length := by
  obtain ⟨hp, heq | ⟨-, hlt⟩⟩ := h
  · rw [heq, List.length_append, List.length_singleton, List.length_drop]
    omega
  · rw [List.length_append, List.length_singleton, List.length_drop] at hlt
    omega

/-- Where the search does not go on, the key stands in the subject or overruns it. -/
theorem stops_memory (hp : p < subject.length) :
    FileSearch.Stops (subject.drop p ++ [0]) key ↔
      key <+: subject.drop p ∨ Overruns key subject p := by
  have hrest : subject.drop p ≠ [] := by
    rw [Ne, List.drop_eq_nil_iff]
    omega
  have hhead : (subject.drop p ++ [0]).head? = (subject.drop p).head? :=
    List.head?_append_of_ne_nil _ hrest
  constructor
  · rintro (hstarts | ⟨hfirst, hlt⟩)
    · by_cases hlen : key.length ≤ (subject.drop p).length
      · exact .inl (List.prefix_of_prefix_length_le hstarts (List.prefix_append _ _) hlen)
      · have hmore := hstarts.length_le
        rw [List.length_append, List.length_singleton] at hmore
        have heq : key = subject.drop p ++ [0] := hstarts.eq_of_length (by
          rw [List.length_append, List.length_singleton]
          omega)
        exact .inr ⟨hp, .inl heq⟩
    · exact .inr ⟨hp, .inr ⟨hhead ▸ hfirst, hlt⟩⟩
  · rintro (hstarts | ⟨-, heq | ⟨hfirst, hlt⟩⟩)
    · exact .inl (hstarts.trans (List.prefix_append _ _))
    · exact .inl (heq ▸ List.prefix_rfl)
    · exact .inr ⟨hhead.trans hfirst, hlt⟩

theorem searchPlain_eq (hkey : key ≠ []) : searchPlain key subject offset =
    FileSearch.searchBuffer key (subject.length - offset) 0 (subject.drop offset ++ [0]) :=
  if_neg hkey

/-- Before a match the search goes on: the match itself has room for the key. -/
theorem not_stops_before (hleft : (keyPattern key subject).IsLeftmost offset m)
    (hle : offset ≤ p) (hlt : p < m.start) :
    ¬ FileSearch.Stops (subject.drop p ++ [0]) key := by
  obtain ⟨hstart, hstands, -, -⟩ := keyPattern_matchAt.mp hleft.matchAt_eq
  have hroom := hstands.length_le
  rw [List.length_drop] at hroom
  rw [stops_memory (by omega)]
  rintro (hearlier | hover)
  · have hfirst := hleft.first p hle hlt
    rw [keyPattern_none (by omega)] at hfirst
    exact hfirst hearlier
  · have hlong := hover.lt
    omega

/-- A search that finds a match of the pattern. -/
theorem searchPlain_match (hkey : key ≠ [])
    (hleft : (keyPattern key subject).IsLeftmost offset m) :
    searchPlain key subject offset = .value (some (m.start - offset)) := by
  obtain ⟨hstart, hstands, -, -⟩ := keyPattern_matchAt.mp hleft.matchAt_eq
  have hroom := hstands.length_le
  rw [List.length_drop] at hroom
  have hpos := List.length_pos_iff.mpr hkey
  have hle := hleft.le
  have hsum : offset + (m.start - offset) = m.start := by omega
  have hfound := (@FileSearch.searchBuffer_first (subject.drop offset ++ [0]) key
    (subject.length - offset) (m.start - offset) 0 hkey (by omega) fun p hp => by
        rw [drop_memory (by omega)]
        exact not_stops_before hleft (by omega) (by omega)).1 (by
          rw [drop_memory (by omega), hsum]
          exact hstands.trans (List.prefix_append _ _))
  rw [searchPlain_eq hkey, hfound, Nat.zero_add]

/-- A search that finds nothing. -/
theorem searchPlain_none (hkey : key ≠ [])
    (hnone : (keyPattern key subject).leftmost offset = none)
    (hover : ∀ p, offset ≤ p → ¬ Overruns key subject p) :
    searchPlain key subject offset = .value none := by
  rw [searchPlain_eq hkey]
  refine FileSearch.searchBuffer_none fun p hp => ?_
  rw [drop_memory (by omega), stops_memory (by omega)]
  rintro (hstands | hout)
  · have hno := Pattern.leftmost_eq_none_iff.mp hnone (offset + p) (by omega)
    rw [keyPattern_none (by omega)] at hno
    exact hno hstands
  · exact hover _ (by omega) hout

theorem search_plain (I : StringEvaluator W ε) (s : Session W) :
    search I offset (.plain key : Key subject) s =
      match searchPlain key subject offset with
      | .value none => .value none s
      | .value (some p) => .value (some ⟨offset + p, offset + p + key.length, []⟩) s
      | .error _ => .undefined
      | .undefined => .undefined
      | .timeout => .timeout := rfl

theorem searchBufferRegex_eq (I : StringEvaluator W ε) (R : Regex subject) (s : Session W) :
    searchBufferRegex I R offset s =
      match pcre_exec R offset with
      | .noMatch => .value none s
      | .error rc => .error (I.regexError rc) s
      | .matched m => .value (some m) (s.setStrings (strings subject m)) := rfl

theorem searchBufferRegex_some {R : Regex subject} (I : StringEvaluator W ε)
    (hvalid : R.valid = true) (hboundary : R.boundary offset = true)
    (hm : R.leftmost offset = some m) (s : Session W) :
    searchBufferRegex I R offset s = .value (some m) (s.setStrings (strings subject m)) := by
  rw [searchBufferRegex_eq, pcre_exec, if_neg (by simp [hvalid]), if_neg (by simp [hboundary]),
    hm]

theorem searchBufferRegex_none {R : Regex subject} (I : StringEvaluator W ε)
    (hvalid : R.valid = true) (hboundary : R.boundary offset = true)
    (hm : R.leftmost offset = none) (s : Session W) :
    searchBufferRegex I R offset s = .value none s := by
  rw [searchBufferRegex_eq, pcre_exec, if_neg (by simp [hvalid]), if_neg (by simp [hboundary]),
    hm]

theorem searchBufferRegex_value {R : Regex subject} {I : StringEvaluator W ε}
    {found : Option (Match (List (List UInt8)))} {s s' : Session W}
    (h : searchBufferRegex I R offset s = .value found s') :
    R.valid = true ∧ R.boundary offset = true := by
  rw [searchBufferRegex_eq, pcre_exec] at h
  have hvalid : R.valid = true := by
    by_contra hvalid
    rw [if_pos (Bool.eq_false_of_not_eq_true hvalid)] at h
    cases h
  rw [if_neg (by simp [hvalid])] at h
  have hboundary : R.boundary offset = true := by
    by_contra hboundary
    rw [if_pos (Bool.eq_false_of_not_eq_true hboundary)] at h
    cases h
  exact ⟨hvalid, hboundary⟩

/-- The leftmost match is what a steady search finds. -/
theorem search_some {key : Key subject} (I : StringEvaluator W ε) (h : key.Steady offset)
    (hm : key.pattern.leftmost offset = some m) (s : Session W) :
    search I offset key s = .value (some m) (key.note m s) := by
  cases key with
  | plain key =>
      have hleft := Pattern.leftmost_eq_some_iff.mp hm
      obtain ⟨-, -, hstop, hgroups⟩ := keyPattern_matchAt.mp hleft.matchAt_eq
      have hle := hleft.le
      have hsum : offset + (m.start - offset) = m.start := by omega
      rw [search_plain, searchPlain_match h.1 hleft]
      simp only [hsum, ← hstop, ← hgroups, Key.note]
  | regex R once => exact Effect.bind_of_value (searchBufferRegex_some I h.1 h.2 hm s)

theorem search_none {key : Key subject} (I : StringEvaluator W ε) (h : key.Steady offset)
    (hm : key.pattern.leftmost offset = none) (s : Session W) :
    search I offset key s = .value none (key.missed s) := by
  cases key with
  | plain key =>
      rw [search_plain, searchPlain_none h.1 hm (h.2 hm)]
      rfl
  | regex R once => exact Effect.bind_of_value (searchBufferRegex_none I h.1 h.2 hm s)

end Search

/-! ### The first loop -/

section Collect

variable {key : Key subject} {c : Collected} {offset fuel : Nat} {s s' : Session W}
  {m : Match (List (List UInt8))} {cell exprCell : Cell} {I : StringEvaluator W ε} {β : Type}

/-- Where the subject is short, so are its lengths and positions as an `int`. -/
theorem toInt_eq {n : Nat} (h : n < 2 ^ 31) : toInt n = n :=
  Int.bmod_eq_of_le (by omega) (by omega)

/-- The lengths of strings, and the length of what stays in the place of a match. -/
def ShortCell (cell : Cell) : Prop := ∀ contents, cell = .string contents →
  contents.length < 2 ^ 31

theorem length_replacement (hshort : ShortMatch m) (hstop : m.stop ≤ subject.length)
    (hcell : ShortCell cell) : (replacement subject m cell).length < 2 ^ 31 := by
  have hslice : (slice (subject ++ [0]) m.start m.stop).length < 2 ^ 31 := by
    rw [length_slice (by
      rw [List.length_append]
      omega)]
    exact hshort.2
  cases cell with
  | string contents => exact hcell contents rfl
  | _ => exact hslice

theorem newEdit_eq (hshort : ShortMatch m) (hstop : m.stop ≤ subject.length)
    (hcell : ShortCell cell) (s : Session W) :
    (newEdit subject m cell : Effect ε (Session W) Edit) s =
      .value (pairEdit subject (m, cell)) s := by
  have hlen := toInt_eq (length_replacement hshort hstop hcell)
  rw [newEdit]
  simp only [hlen, if_true, toInt_eq hshort.1, toInt_eq hshort.2, pairEdit]

theorem offset_add (hle : m.start ≤ m.stop) (e : Edit) : (c.add m e).offset = m.next := by
  simp only [Collected.add, Match.next]
  split <;> omega

theorem collect_succ (fuel : Nat) (c : Collected) :
    collect I key exprCell (fuel + 1) c =
      if subject.length < c.offset then pure c
      else
        search I c.offset key >>= fun found =>
          match found with
          | none => pure c
          | some m => fun s =>
              (I.evaluateExpression exprCell >>= fun cell =>
                newEdit subject m cell >>= fun e =>
                  if key.once then pure (c.add m e)
                  else collect I key exprCell fuel (c.add m e)) s.countUp := rfl

theorem collect_end (h : subject.length < c.offset) (fuel : Nat) (s : Session W) :
    collect I key exprCell (fuel + 1) c s = .value c s := by
  rw [collect_succ, if_pos h]
  rfl

theorem collect_none (h : c.offset ≤ subject.length)
    (hsearch : search I c.offset key s = .value none s') (fuel : Nat) :
    collect I key exprCell (fuel + 1) c s = .value c s' := by
  rw [collect_succ, if_neg (Nat.not_lt.mpr h), Effect.bind_of_value hsearch]
  rfl

theorem collect_some (h : c.offset ≤ subject.length)
    (hsearch : search I c.offset key s = .value (some m) s') (fuel : Nat) :
    collect I key exprCell (fuel + 1) c s =
      (I.evaluateExpression exprCell >>= fun cell =>
        newEdit subject m cell >>= fun e =>
          if key.once then pure (c.add m e)
          else collect I key exprCell fuel (c.add m e)) s'.countUp := by
  rw [collect_succ, if_neg (Nat.not_lt.mpr h), Effect.bind_of_value hsearch]

theorem evaluateMatches_cons (m : Match (List (List UInt8)))
    (ms : List (Match (List (List UInt8)))) (s : Session W) :
    evaluateMatches I key exprCell (m :: ms) s =
      (I.evaluateExpression exprCell >>= fun cell =>
        evaluateMatches I key exprCell ms >>= fun pairs =>
          pure ((m, cell) :: pairs)) (key.enter m s) := rfl

theorem evaluateMatches_cons_bind (m : Match (List (List UInt8)))
    (ms : List (Match (List (List UInt8))))
    (K : List (Match (List (List UInt8)) × Cell) → Effect ε (Session W) β) (s : Session W) :
    (evaluateMatches I key exprCell (m :: ms) >>= K) s =
      (I.evaluateExpression exprCell >>= fun cell =>
        evaluateMatches I key exprCell ms >>= fun pairs => K ((m, cell) :: pairs))
          (key.enter m s) := by
  rw [Effect.bind_apply, evaluateMatches_cons, ← Effect.bind_apply _ K, Effect.bind_assoc]
  simp only [Effect.bind_assoc, Effect.pure_bind]

/-- One match more: when what follows it agrees for each value, the whole does. -/
theorem collect_step {K : Collected → Effect ε (Session W) β}
    {ms : List (Match (List (List UInt8)))} (hI : I.ShortStrings)
    (hshort : ShortMatch m) (hsteady : key.Steady c.offset)
    (hle : c.offset ≤ subject.length) (hm : key.pattern.leftmost c.offset = some m)
    (hstop : m.stop ≤ subject.length)
    (hrest : ∀ cell s, ((if key.once then pure (c.add m (pairEdit subject (m, cell)))
        else collect I key exprCell fuel (c.add m (pairEdit subject (m, cell)))) >>= K) s =
      (evaluateMatches I key exprCell ms >>= fun pairs =>
        K ((c.add m (pairEdit subject (m, cell))).addAll subject pairs)) s) :
    (collect I key exprCell (fuel + 1) c >>= K) s =
      (evaluateMatches I key exprCell (m :: ms) >>= fun pairs =>
        K (c.addAll subject pairs)) s := by
  rw [Effect.bind_apply, collect_some hle (search_some I hsteady hm s), Key.countUp_note,
    ← Effect.bind_apply _ K, Effect.bind_assoc, evaluateMatches_cons_bind]
  refine Effect.bind_congr fun cell s₁ hcell => ?_
  have hstring : ShortCell cell := by
    rintro contents rfl
    exact hI _ _ _ _ hcell
  rw [Effect.bind_assoc, Effect.bind_of_value (newEdit_eq hshort hstop hstring s₁)]
  exact hrest cell s₁

theorem Key.size_pattern (key : Key subject) : key.pattern.size = subject.length := by
  cases key with
  | plain key => rfl
  | regex R once => exact R.size_eq

/-- Every search from `offset` on is steady: the one at `offset`, and those behind the
successive matches. -/
def Key.SteadyFrom (key : Key subject) (offset : Nat) : Prop :=
  (offset ≤ subject.length → key.Steady offset) ∧
    ∀ m ∈ key.pattern.successive offset, m.next ≤ subject.length → key.Steady m.next

theorem Key.SteadyFrom.next (h : key.SteadyFrom offset)
    (hm : key.pattern.leftmost offset = some m) : key.SteadyFrom m.next := by
  rw [SteadyFrom, Pattern.successive_of_some hm] at h
  exact ⟨h.2 m List.mem_cons_self, fun m' hm' => h.2 m' (List.mem_cons_of_mem m hm')⟩

theorem Key.SteadyFrom.of_none (h : offset ≤ subject.length → key.Steady offset)
    (hnone : key.pattern.leftmost offset = none) : key.SteadyFrom offset := by
  refine ⟨h, fun m hm => ?_⟩
  rw [Pattern.successive_of_none hnone] at hm
  exact absurd hm List.not_mem_nil

theorem Key.leftmost_of_lt (key : Key subject) (h : subject.length < offset) :
    key.pattern.leftmost offset = none := by
  apply Pattern.leftmost_of_size_lt
  rw [key.size_pattern]
  exact h

theorem Key.SteadyFrom.of_lt (key : Key subject) (h : subject.length < offset) :
    key.SteadyFrom offset :=
  .of_none (fun hle => absurd hle (Nat.not_le.mpr h)) (key.leftmost_of_lt h)

theorem Key.SteadyFrom.of_some (h : key.Steady offset)
    (hm : key.pattern.leftmost offset = some m) (hnext : key.SteadyFrom m.next) :
    key.SteadyFrom offset := by
  refine ⟨fun _ => h, fun m' hm' hle => ?_⟩
  rw [Pattern.successive_of_some hm] at hm'
  rcases List.mem_cons.mp hm' with rfl | hm'
  · exact hnext.1 hle
  · exact hnext.2 m' hm' hle

/-- Behind the first match the loop goes on to the last, whatever the variable `$it` is
then. -/
theorem collect_run {K : Collected → Effect ε (Session W) β}
    (hK : ∀ c s, c.edits ≠ [] → K c s.setIt = K c s) (hI : I.ShortStrings)
    (hshort : ∀ m ∈ key.pattern.successive c.offset, ShortMatch m) (hall : key.once = false)
    (hsteady : key.SteadyFrom c.offset) (hedits : c.edits ≠ [])
    (hfuel : subject.length + 1 - c.offset < fuel) :
    (collect I key exprCell fuel c >>= K) s =
      (evaluateMatches I key exprCell (key.pattern.successive c.offset) >>= fun pairs =>
        K (c.addAll subject pairs)) s := by
  generalize hoffset : c.offset = offset at *
  induction fuel generalizing c offset s with
  | zero => omega
  | succ fuel ih =>
      by_cases hle : offset ≤ subject.length
      · cases hm : key.pattern.leftmost offset with
        | none =>
            have hnone := search_none I (hsteady.1 hle) hm s
            rw [← hoffset] at hnone
            rw [Pattern.successive_of_none hm, Effect.bind_apply,
              collect_none (by omega) hnone]
            change K c (key.missed s) = K c s
            cases key with
            | plain key => rfl
            | regex R once => exact hK c s hedits
        | some m =>
            have hleft := Pattern.leftmost_eq_some_iff.mp hm
            have hstop := hleft.stop_le
            have hlt := hleft.lt_next
            rw [key.size_pattern] at hstop
            have hat := hsteady.1 hle
            have hm' := hm
            rw [← hoffset] at hat hm'
            rw [Pattern.successive_of_some hm] at hshort ⊢
            refine collect_step hI (hshort m List.mem_cons_self) hat (by omega) hm' hstop
              fun cell s₁ => ?_
            have hnext : (c.add m (pairEdit subject (m, cell))).offset = m.next :=
              offset_add hleft.start_le_stop _
            rw [hall, if_neg Bool.false_ne_true]
            exact ih (List.append_ne_nil_of_right_ne_nil _ (List.cons_ne_nil _ _)) m.next hnext
              (fun m' hm' => hshort m' (List.mem_cons_of_mem m hm')) (hsteady.next hm) (by omega)
      · rw [Pattern.successive_of_none (key.leftmost_of_lt (by omega)), Effect.bind_apply,
          collect_end (by omega)]
        rfl

end Collect

/-! ### What is replaced -/

section Replaced

variable {key : Key subject} {c : Collected} {offset fuel : Nat} {s s' : Session W}
  {m : Match (List (List UInt8))} {cell exprCell : Cell} {I : StringEvaluator W ε}
  {ms : List (Match (List (List UInt8)))} {size : Nat}
  {pairs : List (Match (List (List UInt8)) × Cell)}

theorem evaluateMatches_fst (h : evaluateMatches I key exprCell ms s = .value pairs s') :
    pairs.map Prod.fst = ms := by
  induction ms generalizing s pairs with
  | nil =>
      cases h
      rfl
  | cons m ms ih =>
      rw [evaluateMatches_cons] at h
      obtain ⟨cell, s₁, -, h⟩ := Effect.bind_eq_value_iff.mp h
      obtain ⟨rest, s₂, hrest, h⟩ := Effect.bind_eq_value_iff.mp h
      cases h
      rw [List.map_cons, ih hrest]

/-- Successive matches follow each other. -/
theorem ordered_successive (P : Pattern (List (List UInt8))) (offset : Nat) :
    ∀ o, o ≤ offset → o ≤ P.size → ∀ pairs : List (Match (List (List UInt8)) × Cell),
      pairs.map Prod.fst = P.successive offset → Ordered P.size o pairs := by
  refine Pattern.successive_induction (motive := fun offset ms =>
    ∀ o, o ≤ offset → o ≤ P.size → ∀ pairs : List (Match (List (List UInt8)) × Cell),
      pairs.map Prod.fst = ms → Ordered P.size o pairs) ?_ ?_ offset
  · intro offset hnone o ho hsize pairs hpairs
    rw [List.map_eq_nil_iff] at hpairs
    subst hpairs
    exact hsize
  · intro offset m hleft ih o ho hsize pairs hpairs
    cases pairs with
    | nil => cases hpairs
    | cons p pairs =>
        obtain ⟨hp, hrest⟩ := List.cons.inj hpairs
        subst hp
        have hle := hleft.le
        exact ⟨by omega, hleft.start_le_stop,
          ih _ (Nat.le_max_left _ _) hleft.stop_le pairs hrest⟩

/-- What `replaceString` does behind its first loop. -/
def finish (subject : List UInt8) (c : Collected) :
    Effect ε (Session W) (Option NewString) := fun s =>
  match c.edits with
  | [] => .value none s
  | first :: _ =>
      match splice subject c first with
      | none => .undefined
      | some new => .value (some new) { s with count := c.edits.length, it := .nil }

theorem replaceString_eq (fuel : Nat) (key : Key subject) (exprCell : Cell) (s : Session W) :
    replaceString I fuel key exprCell s =
      (collect I key exprCell fuel ⟨0, 0, [], 0, 0⟩ >>= finish subject) { s with count := 0 } :=
  rfl

theorem finish_setIt (c : Collected) (s : Session W) (h : c.edits ≠ []) :
    (finish subject c s.setIt : Ending ε (Session W) (Option NewString)) =
      finish subject c s := by
  rw [finish, finish]
  cases hedits : c.edits with
  | nil => exact absurd hedits h
  | cons first edits => rfl

/-- Behind matches that follow each other the new string is the text that is expected. -/
theorem finish_addAll (h : Ordered subject.length 0 ((m, cell) :: pairs)) (s : Session W) :
    (finish subject (Collected.addAll subject ⟨0, 0, [], 0, 0⟩ ((m, cell) :: pairs)) s :
        Ending ε (Session W) (Option NewString)) =
      .value (some ⟨spliced subject 0 ((m, cell) :: pairs) ++ [0],
        (spliced subject 0 ((m, cell) :: pairs)).length,
        (spliced subject 0 ((m, cell) :: pairs)).length⟩)
          { s with count := (pairs.length + 1 : Nat), it := .nil } := by
  have hedits := @Collected.edits_addAll subject ((m, cell) :: pairs) ⟨0, 0, [], 0, 0⟩
  rw [List.nil_append, List.map_cons] at hedits
  rw [finish, hedits]
  simp only [splice_eq h, List.length_cons, List.length_map]

theorem finish_expected (s : Session W)
    (h : ∀ pairs : List (Match (List (List UInt8)) × Cell), pairs.map Prod.fst = m :: ms →
      Ordered subject.length 0 pairs) :
    (evaluateMatches I key exprCell (m :: ms) >>= fun pairs =>
        finish subject (Collected.addAll subject ⟨0, 0, [], 0, 0⟩ pairs)) { s with count := 0 } =
      expected I key exprCell (m :: ms) s := by
  refine Effect.bind_congr fun pairs s₁ hpairs => ?_
  have hfst := evaluateMatches_fst hpairs
  have hordered := h pairs hfst
  cases pairs with
  | nil => cases hfst
  | cons p pairs =>
      obtain ⟨-, hms⟩ := List.cons.inj hfst
      rw [finish_addAll hordered, if_neg (List.cons_ne_nil m ms), ← hms, List.length_cons,
        List.length_map]

theorem Key.replaced_eq (key : Key subject) : key.replaced =
    if key.once then (key.pattern.successive 0).take 1 else key.pattern.successive 0 := by
  cases key <;> rfl

/-- Where each search is steady the matches are replaced. -/
theorem replaces_of_steady (hshort : ∀ m ∈ key.pattern.successive 0, ShortMatch m)
    (hfirst : key.Steady 0) (hrest : key.once = false → key.SteadyFrom 0) : Replaces key := by
  intro W ε I hI exprCell s
  refine ⟨subject.length + 3, fun fuel hfuel => ?_⟩
  obtain ⟨fuel, rfl⟩ := Nat.exists_eq_succ_of_ne_zero (by omega : fuel ≠ 0)
  rw [replaceString_eq, key.replaced_eq]
  cases hm : key.pattern.leftmost 0 with
  | none =>
      have hnone := search_none I hfirst hm { s with count := 0 }
      rw [Effect.bind_apply, collect_none (Nat.zero_le _) hnone, Pattern.successive_of_none hm,
        List.take_nil, ite_self]
      rfl
  | some m =>
      have hleft := Pattern.leftmost_eq_some_iff.mp hm
      have hstop := hleft.stop_le
      rw [key.size_pattern] at hstop
      have hordered := ordered_successive key.pattern 0 0 (Nat.le_refl 0) (Nat.zero_le _)
      rw [key.size_pattern] at hordered
      rw [Pattern.successive_of_some hm] at hordered hshort ⊢
      have hshortm := hshort m List.mem_cons_self
      cases honce : key.once with
      | true =>
          rw [if_pos rfl, List.take_succ_cons, List.take_zero, ← finish_expected]
          · refine collect_step hI hshortm hfirst (Nat.zero_le _) hm hstop fun cell s₁ => ?_
            rw [honce, if_pos rfl]
            rfl
          · intro pairs hpairs
            cases pairs with
            | nil => cases hpairs
            | cons p pairs =>
                obtain ⟨hp, hnil⟩ := List.cons.inj hpairs
                rw [List.map_eq_nil_iff] at hnil
                subst hnil hp
                exact ⟨Nat.zero_le _, hleft.start_le_stop, hstop⟩
      | false =>
          rw [if_neg Bool.false_ne_true, ← finish_expected s hordered]
          refine collect_step hI hshortm hfirst (Nat.zero_le _) hm hstop fun cell s₁ => ?_
          have hnext : (Collected.add ⟨0, 0, [], 0, 0⟩ m (pairEdit subject (m, cell))).offset =
              m.next := offset_add hleft.start_le_stop _
          rw [honce, if_neg Bool.false_ne_true, ← hnext]
          refine collect_run finish_setIt hI ?_ honce ?_ ?_ ?_
          · rw [hnext]
            exact fun m' hm' => hshort m' (List.mem_cons_of_mem m hm')
          · rw [hnext]
            exact (hrest honce).next hm
          · exact List.cons_ne_nil _ _
          · omega

end Replaced

/-! ### When the searches are steady -/

section Steady

variable {key : Key subject} {P : Pattern (List (List UInt8))} {offset : Nat}
  {m : Match (List (List UInt8))}

/-- The last of the successive matches is the one with nothing behind it. -/
theorem getLast?_successive (offset : Nat) : ∀ m ∈ P.successive offset,
    P.leftmost m.next = none → (P.successive offset).getLast? = some m := by
  refine Pattern.successive_induction (motive := fun _ ms => ∀ m ∈ ms,
    P.leftmost m.next = none → ms.getLast? = some m) ?_ ?_ offset
  · intro offset _ m hmem
    cases hmem
  · intro offset m _ ih m' hmem hnone
    rcases List.mem_cons.mp hmem with rfl | hmem
    · rw [Pattern.successive_of_none hnone]
      rfl
    · obtain ⟨m'', rest, hrest⟩ := List.exists_cons_of_ne_nil (List.ne_nil_of_mem hmem)
      rw [hrest, List.getLast?_cons_cons, ← hrest]
      exact ih m' hmem hnone

theorem matchAt_of_mem (offset : Nat) : ∀ m ∈ P.successive offset,
    P.matchAt m.start = some (m.stop, m.groups) := by
  refine Pattern.successive_induction (motive := fun _ ms => ∀ m ∈ ms,
    P.matchAt m.start = some (m.stop, m.groups)) ?_ ?_ offset
  · intro offset _ m hmem
    cases hmem
  · intro offset m hleft ih m' hmem
    rcases List.mem_cons.mp hmem with rfl | hmem
    · exact hleft.matchAt_eq
    · exact ih m' hmem

theorem next_of_nonempty (h : m.start < m.stop) : m.next = m.stop :=
  Nat.max_eq_left h

theorem next_of_empty (h : m.start = m.stop) : m.next = m.stop + 1 := by
  rw [Match.next, h]
  exact Nat.max_eq_right (Nat.le_succ _)

theorem keyPattern_nonempty {key : List UInt8} (hkey : key ≠ []) (offset : Nat) :
    ∀ m ∈ (keyPattern key subject).successive offset, m.start < m.stop := by
  intro m hm
  obtain ⟨-, -, hstop, -⟩ := keyPattern_matchAt.mp (matchAt_of_mem offset m hm)
  have hpos := List.length_pos_iff.mpr hkey
  omega

theorem Key.Safe.steady (h : key.Safe) : key.Steady 0 := by
  cases key with
  | plain key =>
      refine ⟨h.1, fun hnone p _ hover => h.2.1 p ?_ hover⟩
      rw [Pattern.successive_of_none hnone]
      exact Nat.zero_le p
  | regex R once => exact ⟨h.1, R.boundary_zero⟩

theorem Key.Safe.steadyFrom (h : key.Safe) (hall : key.once = false) : key.SteadyFrom 0 := by
  refine ⟨fun _ => h.steady, fun m hm hle => ?_⟩
  cases key with
  | plain key =>
      refine ⟨h.1, fun hnone p hp hover => h.2.1 p ?_ hover⟩
      have hlast : ((keyPattern key subject).successive 0).getLast? = some m :=
        getLast?_successive 0 m hm hnone
      rw [hlast]
      rw [next_of_nonempty (keyPattern_nonempty h.1 0 m hm)] at hp
      exact hp
  | regex R once =>
      refine ⟨h.1, ?_⟩
      have hat := matchAt_of_mem 0 m hm
      rcases Nat.lt_or_eq_of_le (R.bounds hat).1 with hlt | heq
      · rw [next_of_nonempty hlt]
        exact R.boundary_stop hat
      · rw [next_of_empty heq]
        exact h.2 hall m hm heq

theorem Key.Safe.short (h : key.Safe) : ∀ m ∈ key.pattern.successive 0, ShortMatch m := by
  cases key with
  | plain key => exact h.2.2
  | regex R once =>
      intro m hm
      have hbounds := R.bounds (matchAt_of_mem 0 m hm)
      have hsize := R.size_lt
      exact ⟨by omega, by omega⟩

theorem leftmost_of_getLast? (offset : Nat) : ∀ m,
    (P.successive offset).getLast? = some m → P.leftmost m.next = none := by
  refine Pattern.successive_induction (motive := fun _ ms => ∀ m,
    ms.getLast? = some m → P.leftmost m.next = none) ?_ ?_ offset
  · intro offset _ m hm
    cases hm
  · intro offset m _ ih m' hm
    cases hnone : P.leftmost m.next with
    | none =>
        rw [Pattern.successive_of_none hnone] at hm
        cases hm
        exact hnone
    | some m'' =>
        rw [Pattern.successive_of_some hnone] at hm ih
        rw [List.getLast?_cons_cons] at hm
        exact ih m' hm

end Steady

end StringReplace

end NewLispNeo
