/-
`find-all` in a string.  An empty match is found a second time where it stands before the
search goes on behind it.
-/
import NewLispNeo.StringReplaceExact

namespace NewLispNeo

namespace StringReplace

open Leftmost (Match Pattern)

variable {W ε : Type} {subject : List UInt8}

section Code

variable (I : StringEvaluator W ε) (R : Regex subject)

/-- `exprRes` for a match: the value of the expression, or the string that was found. -/
def exprRes (subject : List UInt8) (m : Match (List (List UInt8))) :
    Option Cell → Effect ε (Session W) Cell
  | some exprCell => fun s => I.evaluateExpression exprCell s.setIt
  | none => pure (.string (slice subject m.start m.stop))

/-- The variables of `findAllString`. -/
structure Finding where
  offset : Nat
  lastPos : Int
  result : List Cell

/-- The loop of `findAllString`. -/
def findLoop (exprCell : Option Cell) : Nat → Finding → Effect ε (Session W) (List Cell)
  | 0, _ => fun _ => .timeout
  | fuel + 1, c =>
      searchBufferRegex I R c.offset >>= fun found =>
        match found with
        | none => pure c.result
        | some m => fun s =>
            (exprRes I subject m exprCell >>= fun cell =>
              let again := c.lastPos = m.start
              let findPos := if again then m.start + 1 else m.start
              let lastPos := if again then c.lastPos else m.start
              let result := if again then c.result else c.result ++ [cell]
              if subject.length < findPos then pure result
              else findLoop exprCell fuel ⟨findPos + (m.stop - m.start), lastPos, result⟩)
              s.countUp

/-- `findAllString` -/
def findAllString (fuel : Nat) (exprCell : Option Cell) : Effect ε (Session W) (List Cell) :=
  fun s =>
    (findLoop I R exprCell fuel ⟨0, -1, []⟩ >>= fun result => fun s =>
      .value result { s with it := .nil }) { s with count := 0 }

end Code

/-! ### What `find-all` should do -/

/-- The entries for these matches: the expression is evaluated once for each. -/
def evaluateEntries (I : StringEvaluator W ε) (subject : List UInt8) (exprCell : Option Cell) :
    List (Match (List (List UInt8))) → Effect ε (Session W) (List Cell)
  | [] => pure []
  | m :: ms => fun s =>
      (exprRes I subject m exprCell >>= fun cell =>
        evaluateEntries I subject exprCell ms >>= fun cells => pure (cell :: cells))
        (s.setStrings (strings subject m)).countUp

/-- The entries in order, of which `$count` is the number. -/
def expectedEntries (I : StringEvaluator W ε) (subject : List UInt8) (exprCell : Option Cell)
    (ms : List (Match (List (List UInt8)))) : Effect ε (Session W) (List Cell) := fun s =>
  (evaluateEntries I subject exprCell ms >>= fun cells => fun s =>
    .value cells { s with count := ms.length, it := .nil }) { s with count := 0 }

/-- Expressions that do not set `$count`. -/
def StringEvaluator.KeepsCount (I : StringEvaluator W ε) : Prop :=
  ∀ exprCell s cell s', I.evaluateExpression exprCell s = .value cell s' → s'.count = s.count

/-- `findAllString` has one entry for each of the leftmost matches, and these are what
`replaceString` replaces. -/
structure FindsAll (R : Regex subject) (once : Bool) : Prop where
  entries : ∀ (W ε : Type) (I : StringEvaluator W ε), I.KeepsCount → ∀ exprCell s, ∃ fuel₀,
    ∀ fuel, fuel₀ ≤ fuel →
      findAllString I R fuel exprCell s =
        expectedEntries I subject exprCell (R.successive 0) s
  replaced : ReplacesExactly (.regex R once) (R.successive 0)

/-! ### One round of the loop -/

section Rounds

variable {I : StringEvaluator W ε} {R : Regex subject} {c : Finding} {fuel : Nat}
  {s s' : Session W} {m : Match (List (List UInt8))} {ms : List (Match (List (List UInt8)))}
  {exprCell : Option Cell} {result : List Cell}

theorem findLoop_succ (fuel : Nat) (c : Finding) : findLoop I R exprCell (fuel + 1) c =
    searchBufferRegex I R c.offset >>= fun found =>
      match found with
      | none => pure c.result
      | some m => fun s =>
          (exprRes I subject m exprCell >>= fun cell =>
            if subject.length < (if c.lastPos = m.start then m.start + 1 else m.start) then
              pure (if c.lastPos = m.start then c.result else c.result ++ [cell])
            else
              findLoop I R exprCell fuel
                ⟨(if c.lastPos = m.start then m.start + 1 else m.start) + (m.stop - m.start),
                  if c.lastPos = m.start then c.lastPos else m.start,
                  if c.lastPos = m.start then c.result else c.result ++ [cell]⟩)
            s.countUp := rfl

theorem findLoop_none (h : searchBufferRegex I R c.offset s = .value none s') (fuel : Nat) :
    findLoop I R exprCell (fuel + 1) c s = .value c.result s' := by
  rw [findLoop_succ, Effect.bind_of_value h]
  rfl

/-- A match that has not been found before. -/
theorem findLoop_new (h : searchBufferRegex I R c.offset s = .value (some m) s')
    (hlast : c.lastPos ≠ m.start) (hle : m.start ≤ subject.length) (fuel : Nat) :
    findLoop I R exprCell (fuel + 1) c s =
      (exprRes I subject m exprCell >>= fun cell =>
        findLoop I R exprCell fuel
          ⟨m.start + (m.stop - m.start), m.start, c.result ++ [cell]⟩) s'.countUp := by
  rw [findLoop_succ, Effect.bind_of_value h]
  simp only [if_neg hlast, if_neg (Nat.not_lt.mpr hle)]

/-- A match that is found again. -/
theorem findLoop_again (h : searchBufferRegex I R c.offset s = .value (some m) s')
    (hlast : c.lastPos = m.start) (fuel : Nat) :
    findLoop I R exprCell (fuel + 1) c s =
      (exprRes I subject m exprCell >>= fun _ =>
        if subject.length < m.start + 1 then pure c.result
        else
          findLoop I R exprCell fuel
            ⟨m.start + 1 + (m.stop - m.start), c.lastPos, c.result⟩) s'.countUp := by
  rw [findLoop_succ, Effect.bind_of_value h]
  simp only [if_pos hlast]

theorem evaluateEntries_cons (m : Match (List (List UInt8)))
    (ms : List (Match (List (List UInt8)))) (s : Session W) :
    evaluateEntries I subject exprCell (m :: ms) s =
      (exprRes I subject m exprCell >>= fun cell =>
        evaluateEntries I subject exprCell ms >>= fun cells => pure (cell :: cells))
        (s.setStrings (strings subject m)).countUp := rfl

end Rounds

/-! ### Matches that are not empty -/

section Nonempty

variable {I : StringEvaluator W ε} {R : Regex subject} {c : Finding} {fuel : Nat}
  {s s' : Session W} {m : Match (List (List UInt8))} {ms : List (Match (List (List UInt8)))}
  {exprCell : Option Cell} {cells : List Cell}

/-- Where no match is empty the loop passes each once. -/
theorem findLoop_run (hvalid : R.valid = true) (hboundary : R.boundary c.offset = true)
    (hne : ∀ m ∈ R.successive c.offset, m.start < m.stop) (hlast : c.lastPos < c.offset)
    (hfuel : subject.length + 1 - c.offset < fuel) :
    findLoop I R exprCell fuel c s =
      (evaluateEntries I subject exprCell (R.successive c.offset) >>= fun cells =>
        pure (c.result ++ cells)) s := by
  generalize hoffset : c.offset = offset at *
  induction fuel generalizing c offset s with
  | zero => omega
  | succ fuel ih =>
      cases hm : R.leftmost offset with
      | none =>
          have hnone := searchBufferRegex_none I hvalid hboundary hm s
          rw [← hoffset] at hnone
          rw [findLoop_none hnone, Pattern.successive_of_none hm]
          change _ = Ending.value (c.result ++ []) s
          rw [List.append_nil]
      | some m =>
          have hleft := Pattern.leftmost_eq_some_iff.mp hm
          have hle := hleft.le
          have hstop := hleft.stop_le
          rw [R.size_eq] at hstop
          rw [Pattern.successive_of_some hm] at hne ⊢
          have hlt := hne m List.mem_cons_self
          have hfound := searchBufferRegex_some I hvalid hboundary hm s
          rw [← hoffset] at hfound
          rw [findLoop_new hfound (by omega) (by omega), Effect.bind_apply _ _ s,
            evaluateEntries_cons, ← Effect.bind_apply, Effect.bind_assoc]
          refine Effect.bind_congr fun cell s₁ _ => ?_
          have hend : m.start + (m.stop - m.start) = m.next := by
            rw [next_of_nonempty hlt]
            omega
          have hnext : R.boundary m.next = true := by
            rw [next_of_nonempty hlt]
            exact R.boundary_stop hleft.matchAt_eq
          rw [ih m.next hend hnext (fun m' hm' => hne m' (List.mem_cons_of_mem m hm'))
            (by
              rw [next_of_nonempty hlt]
              exact Int.ofNat_lt.mpr hlt)
            (by
              rw [next_of_nonempty hlt]
              omega)]
          simp only [Effect.bind_assoc, Effect.pure_bind, List.append_assoc,
            List.singleton_append]

/-- `$count` goes up by one for each entry. -/
theorem exprRes_count (hI : I.KeepsCount) {cell : Cell}
    (h : exprRes I subject m exprCell s = .value cell s') : s'.count = s.count := by
  cases exprCell with
  | none =>
      cases h
      rfl
  | some exprCell =>
      have hkept : s'.count = s.setIt.count := hI _ _ _ _ h
      exact hkept

theorem evaluateEntries_count (hI : I.KeepsCount)
    (h : evaluateEntries I subject exprCell ms s = .value cells s') :
    s'.count = s.count + ms.length := by
  induction ms generalizing s cells with
  | nil =>
      cases h
      rfl
  | cons m ms ih =>
      rw [evaluateEntries_cons] at h
      obtain ⟨cell, s₁, hcell, h⟩ := Effect.bind_eq_value_iff.mp h
      obtain ⟨rest, s₂, hrest, h⟩ := Effect.bind_eq_value_iff.mp h
      cases h
      have hone := exprRes_count hI hcell
      have hcount := ih hrest
      rw [hcount, hone, List.length_cons]
      simp only [Session.countUp, Session.setStrings]
      omega

theorem findAllString_eq (hI : I.KeepsCount) (hvalid : R.valid = true)
    (hne : ∀ m ∈ R.successive 0, m.start < m.stop) (hfuel : subject.length + 1 < fuel)
    (exprCell : Option Cell) (s : Session W) :
    findAllString I R fuel exprCell s =
      expectedEntries I subject exprCell (R.successive 0) s := by
  have hrun : findLoop I R exprCell fuel ⟨0, -1, []⟩ { s with count := 0 } =
      evaluateEntries I subject exprCell (R.successive 0) { s with count := 0 } := by
    rw [findLoop_run hvalid R.boundary_zero hne (by decide) hfuel]
    simp only [List.nil_append, Effect.bind_pure]
  refine (Effect.bind_congr_left hrun _).trans (Effect.bind_congr fun cells s₁ hcells => ?_)
  have hcount := evaluateEntries_count hI hcells
  simp only [Nat.zero_add] at hcount
  rw [← hcount]

end Nonempty

/-! ### Empty matches -/

section Empty

variable {I : StringEvaluator W ε} {R : Regex subject} {c : Finding} {fuel : Nat} {once : Bool}
  {s s' : Session W} {m : Match (List (List UInt8))} {result : List Cell}

/-- Empty matches. -/
def empties (ms : List (Match (List (List UInt8)))) : Nat :=
  ms.countP fun m => m.start = m.stop

theorem empties_cons_of_lt {ms : List (Match (List (List UInt8)))} (h : m.start < m.stop) :
    empties (m :: ms) = empties ms :=
  List.countP_cons_of_neg (by simpa using h.ne)

theorem empties_cons_of_eq {ms : List (Match (List (List UInt8)))} (h : m.start = m.stop) :
    empties (m :: ms) = empties ms + 1 :=
  List.countP_cons_of_pos (by simpa using h)

/-- The leftmost match from where it starts. -/
theorem leftmost_start {P : Pattern (List (List UInt8))} {offset : Nat}
    (h : P.IsLeftmost offset m) : P.leftmost m.start = some m :=
  Pattern.leftmost_eq_some_iff.mpr ⟨Nat.le_refl _, h.matchAt_eq,
    fun _ hp hlt => absurd hp (Nat.not_le.mpr hlt)⟩

/-- Without an expression `$count` goes up by one for each match, and by one more for each
that is empty. -/
theorem findLoop_count (hlast : c.lastPos < c.offset)
    (h : findLoop I R none fuel c s = .value result s') :
    R.valid = true ∧
      s'.count = s.count + (R.successive c.offset).length + empties (R.successive c.offset) := by
  induction fuel using Nat.strong_induction_on generalizing c s with
  | h fuel ih =>
      cases fuel with
      | zero => cases h
      | succ fuel =>
          have hsearch := h
          rw [findLoop_succ] at hsearch
          obtain ⟨found, s₁, hfound, -⟩ := Effect.bind_eq_value_iff.mp hsearch
          obtain ⟨hvalid, hboundary⟩ := searchBufferRegex_value hfound
          refine ⟨hvalid, ?_⟩
          cases hm : R.leftmost c.offset with
          | none =>
              rw [findLoop_none (searchBufferRegex_none I hvalid hboundary hm s)] at h
              cases h
              rw [Pattern.successive_of_none hm]
              rfl
          | some m =>
              have hleft := Pattern.leftmost_eq_some_iff.mp hm
              have hle := hleft.le
              have hstart := hleft.start_le_stop
              have hstop := hleft.stop_le
              rw [R.size_eq] at hstop
              rw [findLoop_new (searchBufferRegex_some I hvalid hboundary hm s) (by omega)
                (by omega)] at h
              change findLoop I R none fuel _ (s.setStrings (strings subject m)).countUp = _ at h
              rw [Pattern.successive_of_some hm, List.length_cons]
              rcases Nat.lt_or_eq_of_le hstart with hlt | hempty
              · have hend : m.start + (m.stop - m.start) = m.next := by
                  rw [next_of_nonempty hlt]
                  omega
                rw [hend] at h
                have hcount := (ih fuel (Nat.lt_succ_self fuel)
                  (Int.ofNat_lt.mpr (Nat.le_max_right _ _)) h).2
                rw [empties_cons_of_lt hlt, hcount]
                simp only [Session.countUp, Session.setStrings]
                omega
              · -- the second search from the end of the empty match finds it again
                have hend : m.start + (m.stop - m.start) = m.start := by omega
                have hend' : m.start + 1 + (m.stop - m.start) = m.next := by
                  rw [next_of_empty hempty]
                  omega
                rw [hend] at h
                have hat : R.boundary m.start = true := by
                  rw [hempty]
                  exact R.boundary_stop hleft.matchAt_eq
                cases fuel with
                | zero => cases h
                | succ fuel =>
                    rw [findLoop_again (searchBufferRegex_some I hvalid hat
                      (leftmost_start hleft) _) rfl] at h
                    change (if subject.length < m.start + 1 then pure _
                      else findLoop I R none fuel _ :
                        Effect ε (Session W) (List Cell)) _ = _ at h
                    rw [empties_cons_of_eq hempty]
                    by_cases hlt : subject.length < m.start + 1
                    · rw [if_pos hlt] at h
                      cases h
                      rw [Pattern.successive_of_none (Pattern.leftmost_of_size_lt (by
                        rw [R.size_eq, next_of_empty hempty]
                        omega))]
                      rfl
                    · rw [if_neg hlt, hend'] at h
                      have hcount := (ih fuel (by omega)
                        (Int.ofNat_lt.mpr (Nat.le_max_right _ _)) h).2
                      rw [hcount]
                      simp only [Session.countUp, Session.setStrings]
                      omega

theorem evaluateEntries_none (ms : List (Match (List (List UInt8)))) (s : Session W) :
    ∃ cells s', evaluateEntries I subject none ms s = .value cells s' := by
  induction ms generalizing s with
  | nil => exact ⟨[], s, rfl⟩
  | cons m ms ih =>
      obtain ⟨cells, s', hcells⟩ := ih (s.setStrings (strings subject m)).countUp
      exact ⟨_, s', Effect.bind_of_value hcells⟩

/-- The two sides of a replacement count the same matches. -/
theorem length_eq_of_replaces {key : Key subject} {ms ms' : List (Match (List (List UInt8)))}
    (h : ReplacesExactly key ms) (h' : ReplacesExactly key ms') (hms : ms ≠ [])
    (hms' : ms' ≠ []) : ms.length = ms'.length := by
  obtain ⟨fuel, hrun⟩ := h Unit Int idle shortStrings_idle .nil ⟨0, .nil, fun _ => .nil, ()⟩
  obtain ⟨fuel', hrun'⟩ :=
    h' Unit Int idle shortStrings_idle .nil ⟨0, .nil, fun _ => .nil, ()⟩
  obtain ⟨r, s, hvalue, hcount⟩ := expected_idle key ms ⟨0, .nil, fun _ => .nil, ()⟩
  obtain ⟨r', s', hvalue', hcount'⟩ := expected_idle key ms' ⟨0, .nil, fun _ => .nil, ()⟩
  rw [← hrun (max fuel fuel') (Nat.le_max_left _ _),
    hrun' (max fuel fuel') (Nat.le_max_right _ _), hvalue'] at hvalue
  cases hvalue
  rw [← (hcount hms).2, (hcount' hms').2]

theorem FindsAll.nonempty (h : FindsAll R once) :
    R.valid = true ∧ ∀ m ∈ R.successive 0, m.start < m.stop := by
  obtain ⟨fuel, hrun⟩ := h.entries Unit Int idle (by
    rintro exprCell s cell s' ⟨⟩
    rfl) none ⟨0, .nil, fun _ => .nil, ()⟩
  obtain ⟨cells, s₁, hcells⟩ := @evaluateEntries_none Unit Int subject idle (R.successive 0)
    ⟨0, .nil, fun _ => .nil, ()⟩
  have hexpected : expectedEntries idle subject none (R.successive 0)
      ⟨0, .nil, fun _ => .nil, ()⟩ =
        .value cells { s₁ with count := (R.successive 0).length, it := .nil } :=
    Effect.bind_of_value hcells
  have hvalue := hrun fuel (Nat.le_refl _)
  rw [hexpected, findAllString] at hvalue
  obtain ⟨result, s₂, hloop, hend⟩ := Effect.bind_eq_value_iff.mp hvalue
  obtain ⟨hvalid, hcount⟩ := findLoop_count (by exact Int.negSucc_lt_zero 0) hloop
  refine ⟨hvalid, fun m hm => ?_⟩
  have hsame : s₂.count = (R.successive 0).length := by
    injection hend with _ hs
    exact congrArg Session.count hs
  have hzero : empties (R.successive 0) = 0 := by
    simp only at hcount
    omega
  have hbounds := (R.bounds (matchAt_of_mem 0 m hm)).1
  have hno := (List.countP_eq_zero.mp hzero) m hm
  simp only [decide_eq_true_eq] at hno
  omega

/-- `find-all` has one entry for each match, and the matches of `replace`, if and only if
the subject is valid, no match is empty, and `REPLACE_ONCE` makes no difference. -/
theorem findsAll_iff (R : Regex subject) (once : Bool) : FindsAll R once ↔
    R.valid = true ∧ (∀ m ∈ R.successive 0, m.start < m.stop) ∧
      (once = true → (R.successive 0).length ≤ 1) := by
  constructor
  · intro h
    obtain ⟨hvalid, hne⟩ := h.nonempty
    refine ⟨hvalid, hne, ?_⟩
    rintro rfl
    cases hms : R.successive 0 with
    | nil => exact Nat.zero_le 1
    | cons m ms =>
        have hreplaces : Replaces (Key.regex R true) :=
          replaces_of_steady (Key.Safe.short ⟨hvalid, fun h => by cases h⟩)
            ⟨hvalid, R.boundary_zero⟩ fun h => by cases h
        have hone : (Key.regex R true).replaced = [m] := by
          rw [Key.replaced, if_pos rfl, hms]
          rfl
        have hall := h.replaced
        rw [Replaces, hone] at hreplaces
        rw [hms] at hall
        exact (length_eq_of_replaces hall hreplaces (List.cons_ne_nil _ _)
          (List.cons_ne_nil _ _)).le
  · rintro ⟨hvalid, hne, honce⟩
    constructor
    · intro W ε I hI exprCell s
      exact ⟨subject.length + 2, fun fuel hfuel => findAllString_eq hI hvalid hne hfuel _ s⟩
    · have hsafe : (Key.regex R once).Safe :=
        ⟨hvalid, fun _ m hm hempty => absurd hempty (hne m hm).ne⟩
      have hreplaces : Replaces (Key.regex R once) :=
        replaces_of_steady hsafe.short hsafe.steady hsafe.steadyFrom
      have hall : (Key.regex R once).replaced = R.successive 0 := by
        rw [Key.replaced]
        cases once with
        | false => exact if_neg Bool.false_ne_true
        | true => rw [if_pos rfl, List.take_of_length_le (honce rfl)]
      rw [Replaces, hall] at hreplaces
      exact hreplaces

end Empty

/-- What a byte repeated any number of times matches, as `x*`. -/
def starRegex (b : UInt8) (subject : List UInt8) (h : subject.length < 2 ^ 31) :
    Regex subject where
  size := subject.length
  matchAt p :=
    if p ≤ subject.length then some (p + ((subject.drop p).takeWhile (· = b)).length, []) else none
  bounds := by
    intro p q g hmatch
    split at hmatch
    · cases hmatch
      have hlen := (List.takeWhile_prefix (l := subject.drop p) (· = b)).length_le
      rw [List.length_drop] at hlen
      omega
    · cases hmatch
  size_eq := rfl
  size_lt := h
  valid := true
  boundary _ := true
  boundary_zero := rfl
  boundary_stop _ := rfl
  boundary_end _ := rfl

/-- `(find-all "x*" "")` returns one string and leaves `$count` at 2. -/
theorem not_findsAll_star : ¬ FindsAll (starRegex 120 [] (by decide)) false := by
  intro h
  have hmem : (⟨0, 0, []⟩ : Match (List (List UInt8))) ∈
      (starRegex 120 [] (by decide)).successive 0 := by
    rw [Pattern.successive_of_some (m := ⟨0, 0, []⟩) rfl]
    exact List.mem_cons_self
  exact absurd (h.nonempty.2 _ hmem) (Nat.lt_irrefl 0)

end StringReplace

end NewLispNeo
