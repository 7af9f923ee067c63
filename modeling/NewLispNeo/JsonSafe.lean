/-
Where the pointers of the JSON parser can be: every part that succeeds takes at least a byte
and stops at or in front of the terminating zero, and only a string that is not closed takes
the parser behind it.
-/
import NewLispNeo.JsonRuns

namespace NewLispNeo.Json

variable {nums : Numbers} {fuel : Nat} {p q r rest memory : List UInt8} {c : UInt8}

section Ended

/-- The terminating zero is still in front of the pointer. -/
def Ended (p : List UInt8) : Prop := p.getLast? = some 0

theorem ended_append {x : List UInt8} (hp : Ended (x ++ rest)) (hx : x.getLast? ≠ some 0) :
    Ended rest := by
  rw [Ended, List.getLast?_append] at hp
  cases hrest : rest.getLast? with
  | none =>
      rw [hrest] at hp
      exact absurd hp hx
  | some b =>
      rw [hrest] at hp
      rw [Ended, hrest]
      exact hp

theorem ended_cons (hp : Ended (c :: q)) (hc : c ≠ 0) : Ended q :=
  ended_append (x := [c]) hp (by simpa using hc)

theorem ended_mem (hp : Ended p) : 0 ∈ p := List.mem_of_getLast? hp

theorem ended_ne_nil (hp : Ended p) : p ≠ [] := List.ne_nil_of_mem (ended_mem hp)

theorem getLast_of_not_mem {x : List UInt8} (hx : 0 ∉ x) : x.getLast? ≠ some 0 :=
  fun h => hx (List.mem_of_getLast? h)

theorem zero_not_mem_blank {w : List UInt8} (hw : Blank w) : 0 ∉ w := fun h => (hw 0 h).2 rfl

theorem ended_skip (hp : Ended p) : Ended (skip p) := by
  obtain ⟨w, hw, heq⟩ := skip_spec p
  rw [heq] at hp
  exact ended_append hp (getLast_of_not_mem (zero_not_mem_blank hw))

theorem skip_suffix (p : List UInt8) : skip p <:+ p := by
  obtain ⟨w, -, heq⟩ := skip_spec p
  exact ⟨w, heq.symm⟩

/-- Behind a byte of the parser's own the zero is still to come. -/
theorem ended_behind (hp : Ended p) (h : skip p = c :: q) (hc : c ≠ 0) : Ended q := by
  have hskip := ended_skip hp
  rw [h] at hskip
  exact ended_cons hskip hc

theorem suffix_behind (hp : p <:+ memory) (h : skip p = c :: q) : q <:+ memory := by
  have hskip := skip_suffix p
  rw [h] at hskip
  exact (List.suffix_cons c q).trans (hskip.trans hp)

end Ended

section Last

theorem last_append {x y : List UInt8} {b : UInt8} (hy : y.getLast? = some b) :
    (x ++ y).getLast? = some b := by
  rw [List.getLast?_append, hy]
  rfl

theorem last_cons {y : List UInt8} {b : UInt8} (hy : y.getLast? = some b) :
    (c :: y).getLast? = some b := last_append (x := [c]) hy

theorem last_single {x : List UInt8} (b : UInt8) : (x ++ [b]).getLast? = some b := last_append rfl

theorem quoted_last (pieces : List Piece) : (quoted pieces).getLast? = some quote := by
  rw [quoted]
  exact last_cons (last_single quote)

theorem elements_last : (e : Elements) → e.text.getLast? = some rightBracket
  | .close inner => by
      rw [Elements.text]
      exact last_single _
  | .last before d after => by
      rw [Elements.text]
      exact last_append (last_append (last_single _))
  | .more before d after others => by
      rw [Elements.text]
      exact last_append (last_append (last_append (last_cons (elements_last others))))

theorem members_last : (m : Members) → m.text.getLast? = some rightBrace
  | .last before key middle before' d after => by
      rw [Members.text]
      exact last_append (last_append (last_append (last_cons (last_append (last_append
        (last_single _))))))
  | .more before key middle before' d after others => by
      rw [Members.text]
      exact last_append (last_append (last_append (last_cons (last_append (last_append
        (last_append (last_cons (members_last others))))))))

theorem zero_not_mem_numeral {n : Numeral} (hn : n.Reads) : 0 ∉ n.text := by
  rw [Numeral.text]
  simp only [List.mem_append, not_or]
  refine ⟨⟨⟨?_, zero_not_mem_digits hn.digits⟩, zero_not_mem_fraction hn.fraction⟩, ?_⟩
  · rcases hn.sign with h | h | h <;> rw [h] <;> decide
  · rw [Numeral.exponentText]
    cases hexponent : n.exponent with
    | none => simp
    | some e =>
        obtain ⟨e, sign, digits⟩ := e
        obtain ⟨he, hsign, -, hdigits⟩ := hn.exponent _ hexponent
        rw [Option.elim_some, List.mem_append, not_or]
        exact ⟨zero_not_mem_sign he hsign, zero_not_mem_digits hdigits⟩

/-- No value ends in the terminating zero. -/
theorem doc_last {ends : UInt8 → Bool} {d : Doc} (hd : d.Reads ends) :
    d.text.getLast? ≠ some 0 := by
  cases d with
  | string pieces =>
      rw [Doc.text, quoted_last]
      decide
  | number n => exact getLast_of_not_mem (zero_not_mem_numeral hd)
  | literal l => cases l <;> decide
  | emptyObject inner =>
      rw [Doc.text, last_cons (last_single rightBrace)]
      decide
  | object members =>
      rw [Doc.text, last_cons (members_last members)]
      decide
  | array elements =>
      rw [Doc.text, last_cons (elements_last elements)]
      decide

theorem ended_of_stands {cell : Cell} (hp : Ended p) (h : Stands nums p cell rest) :
    Ended rest := by
  obtain ⟨w, d, hw, hd, -, rfl, -⟩ := h
  exact ended_append (ended_append hp (getLast_of_not_mem (zero_not_mem_blank hw))) (doc_last hd)

theorem suffix_of_stands {cell : Cell} (hp : p <:+ memory) (h : Stands nums p cell rest) :
    rest <:+ memory := by
  obtain ⟨w, d, -, -, -, rfl, -⟩ := h
  rw [← List.append_assoc] at hp
  exact (List.suffix_append _ _).trans hp

/-- A key stands at `p`. -/
def StandsKey (p ptr : List UInt8) : Prop :=
  ∃ w pieces, Blank w ∧ (∀ piece ∈ pieces, Piece.Reads piece) ∧ p = w ++ (quoted pieces ++ ptr)

theorem standsKey_of_ok {key : List UInt8} (h : getJSONstring p = .ok key rest) :
    StandsKey p rest := by
  obtain ⟨w, pieces, hw, hpieces, hp, -⟩ := pieces_of_getJSONstring h
  exact ⟨w, pieces, hw, hpieces, hp⟩

theorem ok_of_standsKey (h : StandsKey p rest) : ∃ key, getJSONstring p = .ok key rest := by
  obtain ⟨w, pieces, hw, hpieces, rfl⟩ := h
  exact ⟨_, getJSONstring_of_pieces hw hpieces rest⟩

theorem ended_of_standsKey (hp : Ended p) (h : StandsKey p rest) : Ended rest := by
  obtain ⟨w, pieces, hw, -, rfl⟩ := h
  refine ended_append (ended_append hp (getLast_of_not_mem (zero_not_mem_blank hw))) ?_
  rw [quoted_last]
  decide

theorem suffix_of_standsKey (hp : p <:+ memory) (h : StandsKey p rest) : rest <:+ memory := by
  obtain ⟨w, pieces, -, -, rfl⟩ := h
  rw [← List.append_assoc] at hp
  exact (List.suffix_append _ _).trans hp

end Last

section Comes

/-- The parts of the parser. -/
inductive Part where
  | value | array | object | pairs

/-- The parser, reading a part at `p`, comes to a string that begins at `q`, behind its
quote. -/
inductive Comes (nums : Numbers) : Part → List UInt8 → List UInt8 → Prop
  | string {p q : List UInt8} (h : skip p = quote :: q) : Comes nums .value p q
  | array {p q r : List UInt8} (h : skip p = leftBracket :: q) (hq : Comes nums .array q r) :
      Comes nums .value p r
  | object {p q r : List UInt8} (h : skip p = leftBrace :: q) (hq : Comes nums .object q r) :
      Comes nums .value p r
  | element {p q r : List UInt8} {c : UInt8} (h : skip p = c :: q) (hc : c ≠ rightBracket)
      (hq : Comes nums .value (c :: q) r) : Comes nums .array p r
  | elements {p q r ptr q' : List UInt8} {c : UInt8} {cell : Cell} (h : skip p = c :: q)
      (hc : c ≠ rightBracket)
      (hvalue : Stands nums (c :: q) cell ptr) (hcomma : skip ptr = comma :: q')
      (hq : Comes nums .array q' r) : Comes nums .array p r
  | members {p q r : List UInt8} {c : UInt8} (h : skip p = c :: q) (hc : c ≠ rightBrace)
      (hq : Comes nums .pairs p r) : Comes nums .object p r
  | key {p q : List UInt8} (h : skip p = quote :: q) : Comes nums .pairs p q
  | pair {p q r ptr : List UInt8} (hkey : StandsKey p ptr) (hcolon : skip ptr = colon :: q)
      (hq : Comes nums .value q r) : Comes nums .pairs p r
  | pairs {p q r ptr ptr' q' : List UInt8} {cell : Cell} (hkey : StandsKey p ptr)
      (hcolon : skip ptr = colon :: q)
      (hvalue : Stands nums q cell ptr') (hcomma : skip ptr' = comma :: q')
      (hq : Comes nums .pairs q' r) : Comes nums .pairs p r

/-- The string still has the terminating zero behind it. -/
theorem comes_inside {part : Part} (h : Comes nums part p q) (hp : Ended p)
    (hmemory : p <:+ memory) : Ended q ∧ q <:+ memory := by
  induction h with
  | string h => exact ⟨ended_behind hp h (by decide), suffix_behind hmemory h⟩
  | array h _ ih => exact ih (ended_behind hp h (by decide)) (suffix_behind hmemory h)
  | object h _ ih => exact ih (ended_behind hp h (by decide)) (suffix_behind hmemory h)
  | element h _ _ ih =>
      rw [← h] at ih
      exact ih (ended_skip hp) ((skip_suffix _).trans hmemory)
  | elements h _ hvalue hcomma _ ih =>
      rw [← h] at hvalue
      have hptr := ended_of_stands (ended_skip hp) hvalue
      have hsuffix := suffix_of_stands ((skip_suffix _).trans hmemory) hvalue
      exact ih (ended_behind hptr hcomma (by decide)) (suffix_behind hsuffix hcomma)
  | members _ _ _ ih => exact ih hp hmemory
  | key h => exact ⟨ended_behind hp h (by decide), suffix_behind hmemory h⟩
  | pair hkey hcolon _ ih =>
      exact ih (ended_behind (ended_of_standsKey hp hkey) hcolon (by decide))
        (suffix_behind (suffix_of_standsKey hmemory hkey) hcolon)
  | pairs hkey hcolon hvalue hcomma _ ih =>
      have hq := ended_behind (ended_of_standsKey hp hkey) hcolon (by decide)
      have hsuffix := suffix_behind (suffix_of_standsKey hmemory hkey) hcolon
      exact ih (ended_behind (ended_of_stands hq hvalue) hcomma (by decide))
        (suffix_behind (suffix_of_stands hsuffix hvalue) hcomma)

end Comes

section Trouble

variable {α β : Type}

/-- What a part did, without what it has read. -/
def erase (x : Parsed α) : Parsed Unit := x.map fun _ => ()

theorem erase_map (x : Parsed α) (f : α → β) : erase (x.map f) = erase x := by
  cases x <;> rfl

/-- The run of a part. -/
def runPart (nums : Numbers) (fuel : Nat) : Part → List UInt8 → Parsed Unit
  | .value, p => erase (getJSONvalue nums fuel p)
  | .array, p => erase (getJSONarray nums fuel p)
  | .object, p => erase (getJSONobject nums fuel p)
  | .pairs, p => erase (getJSONpairs nums fuel p)

theorem runPart_zero (nums : Numbers) (part : Part) (p : List UInt8) :
    runPart nums 0 part p = .timeout := by
  cases part with
  | value => rw [runPart, getJSONvalue.eq_def]; rfl
  | array => rw [runPart, getJSONarray.eq_def]; rfl
  | object => rw [runPart, getJSONobject.eq_def]; rfl
  | pairs => rw [runPart, getJSONpairs.eq_def]; rfl

/-- A kind of failure that no part but a string makes in front of the zero. -/
structure Trouble (memory : List UInt8) (X : Parsed Unit → Prop) : Prop where
  ok : ∀ r, ¬ X (.ok () r)
  error : ∀ e c q, c :: q <:+ memory → ¬ X (.error e (c :: q))
  timeout : ¬ X .timeout

variable {X : Parsed Unit → Prop}

theorem Trouble.andThen (hX : Trouble memory X) {x : Parsed α} {f : α → List UInt8 → Parsed β}
    (h : X (erase (x.andThen f))) :
    X (erase x) ∨ ∃ a r, x = .ok a r ∧ X (erase (f a r)) := by
  cases x with
  | ok a r => exact .inr ⟨a, r, rfl, h⟩
  | error e j => exact .inl h
  | overrun => exact .inl h
  | timeout => exact absurd h hX.timeout

/-- A failure of the first part is one of the whole. -/
theorem Trouble.first (hX : Trouble memory X) {x : Parsed α} (f : α → List UInt8 → Parsed β)
    (h : X (erase x)) : X (erase (x.andThen f)) := by
  cases x with
  | ok a r => exact absurd h (hX.ok r)
  | _ => exact h

/-- A string fails so only in its loop. -/
theorem Trouble.of_string (hX : Trouble memory X) (hp : Ended p) (hmemory : p <:+ memory)
    (h : X (erase (getJSONstring p))) :
    ∃ q, skip p = quote :: q ∧ X (erase (scanToken q)) := by
  have hskip := ended_skip hp
  have hsuffix := (skip_suffix p).trans hmemory
  rw [getJSONstring] at h
  cases hs : skip p with
  | nil => exact absurd hs (ended_ne_nil hskip)
  | cons c q =>
      rw [hs] at h hskip hsuffix
      by_cases hquote : c = quote
      · subst hquote
        refine ⟨q, rfl, ?_⟩
        simp only [if_true] at h
        rcases hX.andThen h with h | ⟨token, r, hscan, hx⟩
        · exact h
        · obtain ⟨rfl, -⟩ := body_of_scanToken hscan
          cases hxlate : xlate token with
          | none =>
              rw [hxlate] at hx
              have heq : quote :: (token ++ quote :: r) = quote :: (token ++ [quote]) ++ r := by
                simp
              rw [heq] at hskip hsuffix
              have hr : Ended r := ended_append hskip (by
                rw [last_cons (last_single quote)]
                decide)
              cases r with
              | nil => exact absurd rfl (ended_ne_nil hr)
              | cons c r =>
                  exact absurd hx (hX.error _ _ _ ((List.suffix_append _ _).trans hsuffix))
          | some xlated =>
              rw [hxlate] at hx
              exact absurd hx (hX.ok _)
      · simp only [if_neg hquote] at h
        exact absurd h (hX.error _ _ _ hsuffix)

/-- In front of the zero every part fails so only at a string it comes to. -/
def Located (nums : Numbers) (memory : List UInt8) (X : Parsed Unit → Prop) (fuel : Nat) : Prop :=
  ∀ (part : Part) (p : List UInt8), Ended p → p <:+ memory → X (runPart nums fuel part p) →
    ∃ q, Comes nums part p q ∧ X (erase (scanToken q))

theorem Trouble.value_step (hX : Trouble memory X) (ih : Located nums memory X fuel)
    (hp : Ended p) (hmemory : p <:+ memory)
    (h : X (erase (getJSONvalue nums (fuel + 1) p))) :
    ∃ q, Comes nums .value p q ∧ X (erase (scanToken q)) := by
  rcases getJSONvalue_cases nums fuel p with ⟨hskip, hvalue⟩ | ⟨q, -, hvalue⟩ |
    ⟨c, q, hskip, hstarts, hvalue⟩ | ⟨q, hskip, hvalue⟩ | ⟨q, hskip, hvalue⟩ |
    ⟨l, r, hskip, hvalue⟩ | ⟨c, q, hskip, hvalue⟩ <;> rw [hvalue] at h
  · exact absurd hskip (ended_ne_nil (ended_skip hp))
  · rw [erase_map] at h
    obtain ⟨q, hq, hq'⟩ := hX.of_string hp hmemory h
    exact ⟨q, .string hq, hq'⟩
  · have hc : c ≠ 0 := by
      rintro rfl
      rw [startsNumber_false (by decide) (by decide) (by decide)] at hstarts
      cases hstarts
    rcases getJSONnumber_cases nums c q with ⟨cell, r, hn⟩ | ⟨d, r, hr, hn⟩ | ⟨-, hzero⟩
    · rw [hn] at h
      exact absurd h (hX.ok r)
    · rw [hn] at h
      exact absurd h (hX.error _ d r (hr.trans (suffix_behind hmemory hskip)))
    · exact absurd (ended_mem (ended_behind hp hskip hc)) hzero
  · rw [erase_map] at h
    obtain ⟨r, hr, hr'⟩ := ih .object q (ended_behind hp hskip (by decide))
      (suffix_behind hmemory hskip) h
    exact ⟨r, .object hskip hr, hr'⟩
  · rw [erase_map] at h
    obtain ⟨r, hr, hr'⟩ := ih .array q (ended_behind hp hskip (by decide))
      (suffix_behind hmemory hskip) h
    exact ⟨r, .array hskip hr, hr'⟩
  · exact absurd h (hX.ok r)
  · have hsuffix := (skip_suffix p).trans hmemory
    rw [hskip] at hsuffix
    exact absurd h (hX.error _ c q hsuffix)

theorem Trouble.array_step (hX : Trouble memory X) (ih : Located nums memory X fuel)
    (hp : Ended p) (hmemory : p <:+ memory)
    (h : X (erase (getJSONarray nums (fuel + 1) p))) :
    ∃ q, Comes nums .array p q ∧ X (erase (scanToken q)) := by
  have hended := ended_skip hp
  have hsuffix := (skip_suffix p).trans hmemory
  rcases getJSONarray_cases nums fuel p with ⟨hskip, harray⟩ | ⟨q, -, harray⟩ |
    ⟨c, q, hskip, hc, harray⟩ <;> rw [harray] at h
  · exact absurd hskip (ended_ne_nil hended)
  · exact absurd h (hX.ok q)
  · rw [hskip] at hended hsuffix
    rcases hX.andThen h with hfirst | ⟨cell, ptr, hvalue, hbehind⟩
    · obtain ⟨r, hr, hr'⟩ := ih .value _ hended hsuffix hfirst
      exact ⟨r, .element hskip hc hr, hr'⟩
    · have hcell := (stands_of_getJSON nums fuel _).1 _ _ hvalue
      have hptr := ended_of_stands hended hcell
      have hptr' := suffix_of_stands hsuffix hcell
      rcases afterElement_cases nums fuel cell ptr with ⟨hs, hafter⟩ |
        ⟨q', hs, hafter⟩ | ⟨q', -, hafter⟩ | ⟨d, q', hs, hafter⟩ <;> rw [hafter] at hbehind
      · exact absurd hs (ended_ne_nil (ended_skip hptr))
      · rw [erase_map] at hbehind
        obtain ⟨r, hr, hr'⟩ := ih .array q' (ended_behind hptr hs (by decide))
          (suffix_behind hptr' hs) hbehind
        exact ⟨r, .elements hskip hc hcell hs hr, hr'⟩
      · exact absurd hbehind (hX.ok q')
      · refine absurd hbehind (hX.error _ d q' ?_)
        rw [← hs]
        exact (skip_suffix ptr).trans hptr'

theorem Trouble.object_step (hX : Trouble memory X) (ih : Located nums memory X fuel)
    (hp : Ended p) (hmemory : p <:+ memory)
    (h : X (erase (getJSONobject nums (fuel + 1) p))) :
    ∃ q, Comes nums .object p q ∧ X (erase (scanToken q)) := by
  rcases getJSONobject_cases nums fuel p with ⟨hskip, hobject⟩ | ⟨q, -, hobject⟩ |
    ⟨c, q, hskip, hc, hobject⟩ <;> rw [hobject] at h
  · exact absurd hskip (ended_ne_nil (ended_skip hp))
  · exact absurd h (hX.ok q)
  · obtain ⟨r, hr, hr'⟩ := ih .pairs p hp hmemory h
    exact ⟨r, .members hskip hc hr, hr'⟩

theorem Trouble.pairs_step (hX : Trouble memory X) (ih : Located nums memory X fuel)
    (hp : Ended p) (hmemory : p <:+ memory)
    (h : X (erase (getJSONpairs nums (fuel + 1) p))) :
    ∃ q, Comes nums .pairs p q ∧ X (erase (scanToken q)) := by
  rw [getJSONpairs_succ] at h
  rcases hX.andThen h with hfirst | ⟨key, ptr, hkey, hbehind⟩
  · obtain ⟨q, hq, hq'⟩ := hX.of_string hp hmemory hfirst
    exact ⟨q, .key hq, hq'⟩
  have hk := standsKey_of_ok hkey
  have hptr := ended_of_standsKey hp hk
  have hptr' := suffix_of_standsKey hmemory hk
  rcases afterKey_cases nums fuel key ptr with ⟨hs, hafter⟩ | ⟨q, hcolon, hafter⟩ |
    ⟨c, q, hs, hafter⟩ <;> rw [hafter] at hbehind
  · exact absurd hs (ended_ne_nil (ended_skip hptr))
  · have hq := ended_behind hptr hcolon (by decide)
    have hq' := suffix_behind hptr' hcolon
    rcases hX.andThen hbehind with hfirst | ⟨cell, end', hvalue, hrest⟩
    · obtain ⟨r, hr, hr'⟩ := ih .value q hq hq' hfirst
      exact ⟨r, .pair hk hcolon hr, hr'⟩
    · have hcell := (stands_of_getJSON nums fuel _).1 _ _ hvalue
      have hend := ended_of_stands hq hcell
      have hend' := suffix_of_stands hq' hcell
      rcases afterPair_cases nums fuel (.expression [.string key, cell]) end' with
        ⟨hs, hafter⟩ | ⟨r, -, hafter⟩ | ⟨r, hs, hafter⟩ | ⟨c, r, hs, hafter⟩ <;>
        rw [hafter] at hrest
      · exact absurd hs (ended_ne_nil (ended_skip hend))
      · exact absurd hrest (hX.ok r)
      · rw [erase_map] at hrest
        obtain ⟨r', hr, hr'⟩ := ih .pairs r (ended_behind hend hs (by decide))
          (suffix_behind hend' hs) hrest
        exact ⟨r', .pairs hk hcolon hcell hs hr, hr'⟩
      · refine absurd hrest (hX.error _ c r ?_)
        rw [← hs]
        exact (skip_suffix end').trans hend'
  · refine absurd hbehind (hX.error _ c q ?_)
    rw [← hs]
    exact (skip_suffix ptr).trans hptr'

/-- In front of the zero a part fails so only at a string, -/
theorem Trouble.located (hX : Trouble memory X) (nums : Numbers) (fuel : Nat) :
    Located nums memory X fuel := by
  induction fuel with
  | zero =>
      intro part p _ _ h
      rw [runPart_zero] at h
      exact absurd h hX.timeout
  | succ fuel ih =>
      intro part p hp hmemory h
      cases part with
      | value => exact hX.value_step ih hp hmemory h
      | array => exact hX.array_step ih hp hmemory h
      | object => exact hX.object_step ih hp hmemory h
      | pairs => exact hX.pairs_step ih hp hmemory h

theorem erase_timeout {x : Parsed α} : erase x = .timeout ↔ x = .timeout := by
  cases x <;> simp [erase, Parsed.map, Parsed.andThen]

/-- What stands at `p` is read there. -/
theorem getJSONvalue_of_stands {cell : Cell} (h : Stands nums p cell rest)
    (hends : getJSONvalue nums fuel p ≠ .timeout) :
    getJSONvalue nums fuel p = .ok cell rest := by
  obtain ⟨w, d, hw, hd, hrest, rfl, rfl⟩ := h
  exact getJSONvalue_of_doc fuel d w rest hw hd hrest hends

theorem runPart_value_ends {x : Parsed Cell} {f : Cell → List UInt8 → Parsed (List Cell)}
    (h : erase (x.andThen f) ≠ .timeout) : x ≠ .timeout :=
  andThen_ne_timeout fun ht => h (erase_timeout.mpr ht)

/-- and a string it comes to makes it fail. -/
theorem Trouble.fails (hX : Trouble memory X) {part : Part} (hcomes : Comes nums part p q)
    (hq : X (erase (scanToken q))) :
    ∀ fuel, runPart nums fuel part p ≠ .timeout → X (runPart nums fuel part p) := by
  have hstring : ∀ {p : List UInt8}, skip p = quote :: q → X (erase (getJSONstring p)) := by
    intro p h
    rw [getJSONstring]
    simp only [h, if_true]
    exact hX.first _ hq
  intro fuel
  induction hcomes generalizing fuel with
  | string h =>
      intro hends
      cases fuel with
      | zero => exact absurd (runPart_zero ..) hends
      | succ fuel =>
          rw [runPart, getJSONvalue_succ h, if_pos rfl, ← h, getJSONstring_skip, erase_map]
          exact hstring h
  | array h _ ih =>
      intro hends
      cases fuel with
      | zero => exact absurd (runPart_zero ..) hends
      | succ fuel =>
          rw [runPart, getJSONvalue_bracket h, erase_map] at hends ⊢
          exact ih hq hstring fuel hends
  | object h _ ih =>
      intro hends
      cases fuel with
      | zero => exact absurd (runPart_zero ..) hends
      | succ fuel =>
          rw [runPart, getJSONvalue_brace h, erase_map] at hends ⊢
          exact ih hq hstring fuel hends
  | element h hc _ ih =>
      intro hends
      cases fuel with
      | zero => exact absurd (runPart_zero ..) hends
      | succ fuel =>
          rw [runPart, getJSONarray_element h hc] at hends ⊢
          refine hX.first _ (ih hq hstring fuel ?_)
          exact fun h => runPart_value_ends hends (erase_timeout.mp h)
  | @elements p _ _ ptr q' _ cell h hc hvalue hcomma _ ih =>
      intro hends
      cases fuel with
      | zero => exact absurd (runPart_zero ..) hends
      | succ fuel =>
          rw [runPart, getJSONarray_element h hc] at hends ⊢
          have hok := getJSONvalue_of_stands hvalue (runPart_value_ends hends)
          rw [andThen_of_ok hok, afterElement_comma hcomma, erase_map] at hends ⊢
          exact ih hq hstring fuel hends
  | members h hc _ ih =>
      intro hends
      cases fuel with
      | zero => exact absurd (runPart_zero ..) hends
      | succ fuel =>
          rw [runPart, getJSONobject_pairs h hc] at hends ⊢
          exact ih hq hstring fuel hends
  | key h =>
      intro hends
      cases fuel with
      | zero => exact absurd (runPart_zero ..) hends
      | succ fuel =>
          rw [runPart, getJSONpairs_succ]
          exact hX.first _ (hstring h)
  | @pair p r _ ptr hkey hcolon _ ih =>
      intro hends
      cases fuel with
      | zero => exact absurd (runPart_zero ..) hends
      | succ fuel =>
          obtain ⟨key, hkey⟩ := ok_of_standsKey hkey
          rw [runPart, getJSONpairs_succ, andThen_of_ok hkey, afterKey_colon hcolon] at hends ⊢
          refine hX.first _ (ih hq hstring fuel ?_)
          exact fun h => runPart_value_ends hends (erase_timeout.mp h)
  | @pairs p r _ ptr ptr' q' cell hkey hcolon hvalue hcomma _ ih =>
      intro hends
      cases fuel with
      | zero => exact absurd (runPart_zero ..) hends
      | succ fuel =>
          obtain ⟨key, hkey⟩ := ok_of_standsKey hkey
          rw [runPart, getJSONpairs_succ, andThen_of_ok hkey, afterKey_colon hcolon] at hends ⊢
          have hok := getJSONvalue_of_stands hvalue (runPart_value_ends hends)
          rw [andThen_of_ok hok, afterPair_comma hcomma, erase_map] at hends ⊢
          exact ih hq hstring fuel hends

end Trouble

section Inside

variable {α : Type}

/-- The pointer a part leaves, and the one an error is recorded at, stand in the input or at the
zero behind it. -/
def Inside (memory : List UInt8) : Parsed α → Prop
  | .ok _ rest => rest <:+ memory ∧ rest ≠ []
  | .error _ jsonStr => jsonStr <:+ memory ∧ jsonStr ≠ []
  | .overrun => False
  | .timeout => False

/-- A part that succeeds takes at least a byte and stays in the input. -/
def Consumes (p : List UInt8) (x : Parsed α) : Prop :=
  ∀ a rest, x = .ok a rest → rest.length < p.length ∧ rest <:+ p ∧ rest ≠ []

/-- The failures behind the zero. -/
def Escapes (memory : List UInt8) : Parsed Unit → Prop
  | .overrun => True
  | .error _ jsonStr => ¬ (jsonStr <:+ memory ∧ jsonStr ≠ [])
  | _ => False

theorem escapes_trouble (memory : List UInt8) : Trouble memory (Escapes memory) :=
  ⟨fun _ h => h, fun _ _ _ hsuffix h => h ⟨hsuffix, List.cons_ne_nil _ _⟩, fun h => h⟩

theorem map_eq_error {β : Type} {x : Parsed α} {f : α → β} {e : JsonError} {j : List UInt8}
    (h : x.map f = .error e j) : x = .error e j := by
  cases x <;> cases h
  rfl

theorem suffix_of_scanToken {e : JsonError} {j : List UInt8} (h : scanToken q = .error e j) :
    j <:+ q := by
  induction hn : q.length using Nat.strongRecOn generalizing q with
  | ind n ih =>
      rcases scan_cases q with rfl | ⟨q, rfl⟩ | ⟨q, rfl⟩ | rfl | ⟨d, q, rfl⟩ |
        ⟨c, q, rfl, hquote, hzero, hbackslash⟩
      · cases h
      · rw [scanToken_quote] at h
        cases h
      · rw [scanToken_zero] at h
        cases h
        exact List.suffix_cons _ _
      · cases h
      · rw [scanToken_backslash] at h
        have hsuffix := ih _ (by simp only [← hn, List.length_cons]; omega) (map_eq_error h) rfl
        exact hsuffix.trans ((List.suffix_cons _ _).trans (List.suffix_cons _ _))
      · rw [scanToken_plain hquote hzero hbackslash] at h
        have hsuffix := ih _ (by simp only [← hn, List.length_cons]; omega) (map_eq_error h) rfl
        exact hsuffix.trans (List.suffix_cons _ _)

/-- A string takes the parser out of the input where it is not closed. -/
theorem escapes_scanToken_iff {s : List UInt8} (hs : 0 ∉ s) (hq : q <:+ s ++ [0])
    (hended : Ended q) : Escapes (s ++ [0]) (erase (scanToken q)) ↔ Unclosed q := by
  obtain ⟨t, rfl⟩ : ∃ t, q = t ++ [0] := by
    obtain ⟨t, ht⟩ := List.getLast?_eq_some_iff.mp hended
    exact ⟨t, ht⟩
  have ht : 0 ∉ t := by
    obtain ⟨x, hx⟩ := hq
    rw [← List.append_assoc, List.append_cancel_right_eq] at hx
    rw [← hx, List.mem_append, not_or] at hs
    exact hs.2
  rw [← scanToken_outside_iff ht]
  cases h : scanToken (t ++ [0]) with
  | error e j =>
      have hj := (suffix_of_scanToken h).trans hq
      simp [erase, Parsed.map, Parsed.andThen, Escapes, Outside, hj]
  | _ => simp [erase, Parsed.map, Parsed.andThen, Escapes, Outside]

/-- Every part stays in front of the zero while it succeeds. -/
theorem consumes_value (nums : Numbers) (fuel : Nat) (hp : Ended p) :
    Consumes p (getJSONvalue nums fuel p) := by
  intro cell rest h
  have hstands := (stands_of_getJSON nums fuel p).1 _ _ h
  exact ⟨length_of_stands hstands, suffix_of_stands List.suffix_rfl hstands,
    ended_ne_nil (ended_of_stands hp hstands)⟩

theorem consumes_string (hp : Ended p) : Consumes p (getJSONstring p) := by
  intro key rest h
  have hkey := standsKey_of_ok h
  exact ⟨length_of_getJSONstring h, suffix_of_standsKey List.suffix_rfl hkey,
    ended_ne_nil (ended_of_standsKey hp hkey)⟩

/-- A text in front of the pointer that does not end in the zero. -/
theorem consumes_text {text : List UInt8} {b : UInt8} (hp : Ended (text ++ rest))
    (hlast : text.getLast? = some b) (hb : b ≠ 0) :
    rest.length < (text ++ rest).length ∧ rest <:+ text ++ rest ∧ rest ≠ [] := by
  refine ⟨?_, List.suffix_append _ _, ended_ne_nil (ended_append hp ?_)⟩
  · have hne : text ≠ [] := List.ne_nil_of_mem (List.mem_of_getLast? hlast)
    have hpos := List.length_pos_iff.mpr hne
    rw [List.length_append]
    omega
  · rw [hlast]
    exact fun h => hb (Option.some.inj h)

theorem consumes_array (nums : Numbers) (fuel : Nat) (hp : Ended p) :
    Consumes p (getJSONarray nums fuel p) := by
  intro cells rest h
  obtain ⟨e, -, rfl, -⟩ := (stands_of_getJSON nums fuel p).2.1 _ _ h
  exact consumes_text hp (elements_last e) (by decide)

theorem consumes_pairs (nums : Numbers) (fuel : Nat) (hp : Ended p) :
    Consumes p (getJSONpairs nums fuel p) := by
  intro cells rest h
  obtain ⟨m, -, rfl, -⟩ := (stands_of_getJSON nums fuel p).2.2.2 _ _ h
  exact consumes_text hp (members_last m) (by decide)

theorem consumes_object (nums : Numbers) (fuel : Nat) (hp : Ended p) :
    Consumes p (getJSONobject nums fuel p) := by
  intro cells rest h
  rcases (stands_of_getJSON nums fuel p).2.2.1 _ _ h with ⟨w, -, rfl, -⟩ | ⟨m, -, rfl, -⟩
  · rw [List.append_cons] at hp ⊢
    exact consumes_text hp (last_single _) (by decide)
  · exact consumes_text hp (members_last m) (by decide)

theorem ended_memory (s : List UInt8) : Ended (s ++ [0]) := by
  rw [Ended, List.getLast?_append]
  rfl

theorem consumes_parts (nums : Numbers) {s : List UInt8} (fuel : Nat) (hsuffix : p <:+ s ++ [0])
    (hne : p ≠ []) :
    Consumes p (getJSONvalue nums fuel p) ∧ Consumes p (getJSONarray nums fuel p) ∧
      Consumes p (getJSONobject nums fuel p) ∧ Consumes p (getJSONpairs nums fuel p) ∧
      Consumes p (getJSONstring p) := by
  have hp : Ended p := by
    have hended := ended_memory s
    obtain ⟨x, hx⟩ := hsuffix
    rw [← hx, Ended, List.getLast?_append_of_ne_nil _ hne] at hended
    exact hended
  exact ⟨consumes_value nums fuel hp, consumes_array nums fuel hp, consumes_object nums fuel hp,
    consumes_pairs nums fuel hp, consumes_string hp⟩

/-- The run is inside when it does not escape. -/
theorem inside_iff {s : List UInt8} :
    Inside (s ++ [0]) (p_JSONparse nums s) ↔
      ¬ Escapes (s ++ [0]) (erase (p_JSONparse nums s)) := by
  have hends := p_JSONparse_ends nums s
  cases h : p_JSONparse nums s with
  | ok cell rest =>
      obtain ⟨-, hsuffix, hne⟩ := consumes_value nums _ (ended_memory s) cell rest h
      exact iff_of_true ⟨hsuffix, hne⟩ fun h => h
  | error e j => exact not_not.symm
  | overrun => exact iff_of_false (fun h => h) (not_not.mpr trivial)
  | timeout => exact absurd h hends

/-- The parser ends, takes a byte with every part that succeeds, and keeps its pointers in the
input, unless it comes to a string that no quote closes. -/
theorem p_JSONparse_inside (nums : Numbers) {s : List UInt8} (hs : 0 ∉ s) :
    ((∀ fuel p, p <:+ s ++ [0] → p ≠ [] →
        Consumes p (getJSONvalue nums fuel p) ∧ Consumes p (getJSONarray nums fuel p) ∧
        Consumes p (getJSONobject nums fuel p) ∧ Consumes p (getJSONpairs nums fuel p) ∧
        Consumes p (getJSONstring p)) ∧
      Inside (s ++ [0]) (p_JSONparse nums s)) ↔
    ¬ ∃ q, Comes nums .value (s ++ [0]) q ∧ Unclosed q := by
  have hX := escapes_trouble (s ++ [0])
  rw [inside_iff]
  constructor
  · rintro ⟨-, hinside⟩ ⟨q, hcomes, hq⟩
    obtain ⟨hqended, hqsuffix⟩ := comes_inside hcomes (ended_memory s) List.suffix_rfl
    refine hinside (hX.fails hcomes ((escapes_scanToken_iff hs hqsuffix hqended).mpr hq)
      (2 * s.length + 3) ?_)
    exact fun h => p_JSONparse_ends nums s (erase_timeout.mp h)
  · intro hclosed
    refine ⟨fun fuel p hsuffix hne => consumes_parts nums fuel hsuffix hne, ?_⟩
    intro hescapes
    obtain ⟨q, hcomes, hq⟩ := hX.located nums (2 * s.length + 3) .value (s ++ [0])
      (ended_memory s) List.suffix_rfl hescapes
    obtain ⟨hqended, hqsuffix⟩ := comes_inside hcomes (ended_memory s) List.suffix_rfl
    exact hclosed ⟨q, hcomes, (escapes_scanToken_iff hs hqsuffix hqended).mp hq⟩

/-- `atof` on the text of a whole number. -/
def wholeNumbers : Numbers := ⟨fun text => Binary64.ofInt (integerOf text)⟩

/-- `[1`: an array left open is no string left open. -/
theorem p_JSONparse_inside_open_array :
    ¬ ∃ q, Comes wholeNumbers .value (ascii "[1" ++ [0]) q ∧ Unclosed q := by
  refine (p_JSONparse_inside wholeNumbers (by decide)).mp
    ⟨fun fuel p hsuffix hne => consumes_parts wholeNumbers fuel hsuffix hne, ?_⟩
  have hrun : p_JSONparse wholeNumbers (ascii "[1") = .error .invalidArray [0] := by rfl
  rw [hrun]
  exact ⟨by decide, by decide⟩

/-- `"a`: the error is recorded behind the zero; `"\\`: the parser reads behind it. -/
theorem p_JSONparse_outside :
    (0 ∉ ascii "\"a" ∧ ¬ Inside (ascii "\"a" ++ [0]) (p_JSONparse wholeNumbers (ascii "\"a"))) ∧
      0 ∉ ascii "\"\\" ∧
        ¬ Inside (ascii "\"\\" ++ [0]) (p_JSONparse wholeNumbers (ascii "\"\\")) := by
  have herror : p_JSONparse wholeNumbers (ascii "\"a") = .error .closingQuote [] := by rfl
  have hoverrun : p_JSONparse wholeNumbers (ascii "\"\\") = .overrun := by rfl
  rw [herror, hoverrun]
  exact ⟨⟨by decide, fun h => h.2 rfl⟩, by decide, fun h => h⟩

end Inside

end NewLispNeo.Json
