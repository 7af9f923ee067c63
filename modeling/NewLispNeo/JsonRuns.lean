/-
Every run of the JSON parser: what it returns is a document that stands at the pointer, and
with fuel for the length of the input it comes to an end.
-/
import NewLispNeo.JsonReads

namespace NewLispNeo.Json

variable {nums : Numbers} {fuel : Nat} {p q rest : List UInt8} {c : UInt8}

section Cases

/-- How `getJSONvalue` goes on. -/
theorem getJSONvalue_cases (nums : Numbers) (fuel : Nat) (p : List UInt8) :
    (skip p = [] ∧ getJSONvalue nums (fuel + 1) p = .overrun) ∨
    (∃ q, skip p = quote :: q ∧
      getJSONvalue nums (fuel + 1) p = (getJSONstring p).map .string) ∨
    (∃ c q, skip p = c :: q ∧ startsNumber c q ∧
      getJSONvalue nums (fuel + 1) p = getJSONnumber nums c q) ∨
    (∃ q, skip p = leftBrace :: q ∧
      getJSONvalue nums (fuel + 1) p = (getJSONobject nums fuel q).map .expression) ∨
    (∃ q, skip p = leftBracket :: q ∧
      getJSONvalue nums (fuel + 1) p = (getJSONarray nums fuel q).map .expression) ∨
    (∃ (l : Literal) (rest : List UInt8), skip p = l.text ++ rest ∧
      getJSONvalue nums (fuel + 1) p = .ok l.cell rest) ∨
    ∃ c q, skip p = c :: q ∧ getJSONvalue nums (fuel + 1) p = .error .invalidValue (c :: q) := by
  cases hskip : skip p with
  | nil =>
      refine .inl ⟨rfl, ?_⟩
      rw [getJSONvalue.eq_def]
      simp only [hskip]
  | cons c q =>
      refine .inr ?_
      by_cases hquote : c = quote
      · subst hquote
        refine .inl ⟨q, rfl, ?_⟩
        rw [getJSONvalue_succ hskip, if_pos rfl, ← hskip, getJSONstring_skip]
      refine .inr ?_
      by_cases hnumber : startsNumber c q
      · refine .inl ⟨c, q, rfl, hnumber, ?_⟩
        rw [getJSONvalue_succ hskip, if_neg hquote, if_pos hnumber]
      refine .inr ?_
      by_cases hbrace : c = leftBrace
      · subst hbrace
        exact .inl ⟨q, rfl, getJSONvalue_brace hskip⟩
      refine .inr ?_
      by_cases hbracket : c = leftBracket
      · subst hbracket
        exact .inl ⟨q, rfl, getJSONvalue_bracket hskip⟩
      refine .inr ?_
      have hvalue : getJSONvalue nums (fuel + 1) p = getJSONliteral (c :: q) := by
        rw [getJSONvalue_succ hskip, if_neg hquote, if_neg hnumber, if_neg hbrace,
          if_neg hbracket]
      rcases getJSONliteral_cases (c :: q) with ⟨l, rest, htext, hliteral⟩ | hliteral
      · exact .inl ⟨l, rest, htext, hvalue.trans hliteral⟩
      · exact .inr ⟨c, q, rfl, hvalue.trans hliteral⟩

/-- How `GET_ARRAY_ELEMENT` goes on, -/
theorem getJSONarray_cases (nums : Numbers) (fuel : Nat) (p : List UInt8) :
    (skip p = [] ∧ getJSONarray nums (fuel + 1) p = .overrun) ∨
    (∃ q, skip p = rightBracket :: q ∧ getJSONarray nums (fuel + 1) p = .ok [] q) ∨
    ∃ c q, skip p = c :: q ∧ c ≠ rightBracket ∧ getJSONarray nums (fuel + 1) p =
      (getJSONvalue nums fuel (c :: q)).andThen (afterElement nums fuel) := by
  cases hskip : skip p with
  | nil =>
      refine .inl ⟨rfl, ?_⟩
      rw [getJSONarray.eq_def]
      simp only [hskip]
  | cons c q =>
      by_cases hc : c = rightBracket
      · subst hc
        exact .inr (.inl ⟨q, rfl, getJSONarray_close hskip⟩)
      · exact .inr (.inr ⟨c, q, rfl, hc, getJSONarray_element hskip hc⟩)

/-- behind an element, -/
theorem afterElement_cases (nums : Numbers) (fuel : Nat) (cell : Cell) (p : List UInt8) :
    (skip p = [] ∧ afterElement nums fuel cell p = .overrun) ∨
    (∃ q, skip p = comma :: q ∧
      afterElement nums fuel cell p = (getJSONarray nums fuel q).map (cell :: ·)) ∨
    (∃ q, skip p = rightBracket :: q ∧ afterElement nums fuel cell p = .ok [cell] q) ∨
    ∃ c q, skip p = c :: q ∧ afterElement nums fuel cell p = .error .invalidArray (c :: q) := by
  cases hskip : skip p with
  | nil => exact .inl ⟨rfl, by simp only [afterElement, hskip]⟩
  | cons c q =>
      by_cases hcomma : c = comma
      · subst hcomma
        exact .inr (.inl ⟨q, rfl, afterElement_comma hskip cell⟩)
      by_cases hbracket : c = rightBracket
      · subst hbracket
        exact .inr (.inr (.inl ⟨q, rfl, afterElement_bracket hskip cell⟩))
      · exact .inr (.inr (.inr ⟨c, q, rfl, by
          simp only [afterElement, hskip, if_neg hcomma, if_neg hbracket]⟩))

/-- `getJSONobject` behind the brace, -/
theorem getJSONobject_cases (nums : Numbers) (fuel : Nat) (p : List UInt8) :
    (skip p = [] ∧ getJSONobject nums (fuel + 1) p = .overrun) ∨
    (∃ q, skip p = rightBrace :: q ∧ getJSONobject nums (fuel + 1) p = .ok [] q) ∨
    ∃ c q, skip p = c :: q ∧ c ≠ rightBrace ∧
      getJSONobject nums (fuel + 1) p = getJSONpairs nums fuel p := by
  cases hskip : skip p with
  | nil =>
      refine .inl ⟨rfl, ?_⟩
      rw [getJSONobject.eq_def]
      simp only [hskip]
  | cons c q =>
      by_cases hc : c = rightBrace
      · subst hc
        exact .inr (.inl ⟨q, rfl, getJSONobject_empty hskip⟩)
      · exact .inr (.inr ⟨c, q, rfl, hc, getJSONobject_pairs hskip hc⟩)

/-- `GET_PAIR` behind a key -/
theorem afterKey_cases (nums : Numbers) (fuel : Nat) (key p : List UInt8) :
    (skip p = [] ∧ afterKey nums fuel key p = .overrun) ∨
    (∃ q, skip p = colon :: q ∧ afterKey nums fuel key p =
      (getJSONvalue nums fuel q).andThen fun cell ptr =>
        afterPair nums fuel (.expression [.string key, cell]) ptr) ∨
    ∃ c q, skip p = c :: q ∧ afterKey nums fuel key p = .error .missingColon (c :: q) := by
  cases hskip : skip p with
  | nil => exact .inl ⟨rfl, by simp only [afterKey, hskip]⟩
  | cons c q =>
      by_cases hcolon : c = colon
      · subst hcolon
        exact .inr (.inl ⟨q, rfl, afterKey_colon hskip key⟩)
      · exact .inr (.inr ⟨c, q, rfl, by simp only [afterKey, hskip, if_neg hcolon]⟩)

/-- and behind a pair. -/
theorem afterPair_cases (nums : Numbers) (fuel : Nat) (pair : Cell) (p : List UInt8) :
    (skip p = [] ∧ afterPair nums fuel pair p = .overrun) ∨
    (∃ q, skip p = rightBrace :: q ∧ afterPair nums fuel pair p = .ok [pair] q) ∨
    (∃ q, skip p = comma :: q ∧
      afterPair nums fuel pair p = (getJSONpairs nums fuel q).map (pair :: ·)) ∨
    ∃ c q, skip p = c :: q ∧ afterPair nums fuel pair p = .error .invalidObject (c :: q) := by
  cases hskip : skip p with
  | nil => exact .inl ⟨rfl, by simp only [afterPair, hskip]⟩
  | cons c q =>
      by_cases hbrace : c = rightBrace
      · subst hbrace
        exact .inr (.inl ⟨q, rfl, afterPair_brace hskip pair⟩)
      by_cases hcomma : c = comma
      · subst hcomma
        exact .inr (.inr (.inl ⟨q, rfl, afterPair_comma hskip pair⟩))
      · exact .inr (.inr (.inr ⟨c, q, rfl, by
          simp only [afterPair, hskip, if_neg hbrace, if_neg hcomma]⟩))

end Cases

section Documents

/-- A document stands at `p`, in front of `rest`. -/
def Stands (nums : Numbers) (p : List UInt8) (cell : Cell) (rest : List UInt8) : Prop :=
  ∃ (w : List UInt8) (d : Doc), Blank w ∧ d.Reads endsNumber ∧ d.Follows endsNumber rest ∧
    p = w ++ (d.text ++ rest) ∧ cell = d.read nums

/-- The elements of an array stand at `p`. -/
def StandElements (nums : Numbers) (p : List UInt8) (cells : List Cell) (rest : List UInt8) :
    Prop :=
  ∃ e : Elements, e.Reads endsNumber ∧ p = e.text ++ rest ∧ cells = e.read nums

/-- The pairs of an object stand at `p`. -/
def StandMembers (nums : Numbers) (p : List UInt8) (cells : List Cell) (rest : List UInt8) :
    Prop :=
  ∃ m : Members, m.Reads endsNumber ∧ p = m.text ++ rest ∧ cells = m.read nums

/-- What stands behind a brace. -/
def StandObject (nums : Numbers) (p : List UInt8) (cells : List Cell) (rest : List UInt8) :
    Prop :=
  (∃ w, Blank w ∧ p = w ++ rightBrace :: rest ∧ cells = []) ∨ StandMembers nums p cells rest

theorem follows_cut {ends : UInt8 → Bool} {d : Doc} {w : List UInt8} {c : UInt8}
    {q : List UInt8} (h : d.Follows ends (w ++ c :: q)) : d.Follows ends (w ++ [c]) := by
  cases d with
  | number n =>
      cases w with
      | nil => exact h
      | cons b w => exact h
  | _ => trivial

variable {cell : Cell} {cells : List Cell}

/-- The white space in front of a value. -/
theorem stands_skip {p' : List UInt8} (hskip : skip p = p') (h : Stands nums p' cell rest) :
    Stands nums p cell rest := by
  obtain ⟨w, d, hw, hd, hrest, rfl, hcell⟩ := h
  obtain ⟨w', hw', hp⟩ := skip_spec p
  refine ⟨w' ++ w, d, ?_, hd, hrest, by rw [hp, hskip, List.append_assoc], hcell⟩
  intro c hc
  rcases List.mem_append.mp hc with hc | hc
  · exact hw' c hc
  · exact hw c hc

/-- A value of one token stands where it is read. -/
theorem stands_leaf {d : Doc} (hd : d.Reads endsNumber) (hrest : d.Follows endsNumber rest)
    (hp : p = d.text ++ rest) : Stands nums p (d.read nums) rest :=
  ⟨[], d, blank_nil, hd, hrest, hp, rfl⟩

theorem stands_string (h : (getJSONstring p).map Cell.string = .ok cell rest) :
    Stands nums p cell rest := by
  obtain ⟨bytes, hbytes, rfl⟩ := map_eq_ok h
  obtain ⟨w, pieces, hw, hpieces, rfl, rfl⟩ := pieces_of_getJSONstring hbytes
  exact ⟨w, .string pieces, hw, hpieces, trivial, rfl, rfl⟩

theorem stands_number (hstarts : startsNumber c q)
    (h : getJSONnumber nums c q = .ok cell rest) : Stands nums (c :: q) cell rest := by
  obtain ⟨n, hn, htext, rfl, hends⟩ := numeral_of_getJSONnumber hstarts h
  exact stands_leaf (d := .number n) hn hends htext

theorem stands_object (h : StandObject nums q cells rest) :
    Stands nums (leftBrace :: q) (.expression cells) rest := by
  rcases h with ⟨w, hw, rfl, rfl⟩ | ⟨m, hm, rfl, rfl⟩
  · exact stands_leaf (d := .emptyObject w) hw trivial (by simp [Doc.text])
  · exact stands_leaf (d := .object m) hm trivial rfl

theorem stands_array (h : StandElements nums q cells rest) :
    Stands nums (leftBracket :: q) (.expression cells) rest := by
  obtain ⟨e, he, rfl, rfl⟩ := h
  exact stands_leaf (d := .array e) he trivial rfl

theorem standElements_close (h : skip p = rightBracket :: q) : StandElements nums p [] q := by
  obtain ⟨w, hw, hp⟩ := skip_spec p
  exact ⟨.close w, hw, by rw [hp, h]; simp [Elements.text], rfl⟩

/-- One element and what follows it. -/
theorem standElements_doc {ptr : List UInt8} (hvalue : Stands nums p cell ptr)
    (h : (skip ptr = rightBracket :: rest ∧ cells = []) ∨
      ∃ q, skip ptr = comma :: q ∧ StandElements nums q cells rest) :
    StandElements nums p (cell :: cells) rest := by
  obtain ⟨before, d, hbefore, hd, hfollows, rfl, rfl⟩ := hvalue
  obtain ⟨after, hafter, hptr⟩ := skip_spec ptr
  rcases h with ⟨hq, rfl⟩ | ⟨q, hq, e, he, rfl, rfl⟩
  · rw [hq] at hptr
    refine ⟨.last before d after, ⟨hbefore, hd, hafter, ?_⟩, ?_, rfl⟩
    · rw [hptr] at hfollows
      exact follows_cut hfollows
    · rw [hptr]
      simp [Elements.text]
  · rw [hq] at hptr
    refine ⟨.more before d after e, ⟨hbefore, hd, hafter, ?_, he⟩, ?_, rfl⟩
    · rw [hptr] at hfollows
      exact follows_cut hfollows
    · rw [hptr]
      simp [Elements.text]

/-- One pair and what follows it. -/
theorem standMembers_pair {key ptr ptr' : List UInt8} (hkey : getJSONstring p = .ok key ptr)
    (hcolon : skip ptr = colon :: q) (hvalue : Stands nums q cell ptr')
    (h : (skip ptr' = rightBrace :: rest ∧ cells = []) ∨
      ∃ q, skip ptr' = comma :: q ∧ StandMembers nums q cells rest) :
    StandMembers nums p (.expression [.string key, cell] :: cells) rest := by
  obtain ⟨before, pieces, hbefore, hpieces, rfl, rfl⟩ := pieces_of_getJSONstring hkey
  obtain ⟨middle, hmiddle, hptr⟩ := skip_spec ptr
  obtain ⟨before', d, hbefore', hd, hfollows, rfl, rfl⟩ := hvalue
  obtain ⟨after, hafter, hptr'⟩ := skip_spec ptr'
  rw [hcolon] at hptr
  rcases h with ⟨hr, rfl⟩ | ⟨r, hr, m, hm, rfl, rfl⟩
  · rw [hr] at hptr'
    refine ⟨.last before pieces middle before' d after,
      ⟨hbefore, hpieces, hmiddle, hbefore', hd, hafter, ?_⟩, ?_, rfl⟩
    · rw [hptr'] at hfollows
      exact follows_cut hfollows
    · rw [hptr, hptr']
      simp [Members.text]
  · rw [hr] at hptr'
    refine ⟨.more before pieces middle before' d after m,
      ⟨hbefore, hpieces, hmiddle, hbefore', hd, hafter, ?_, hm⟩, ?_, rfl⟩
    · rw [hptr'] at hfollows
      exact follows_cut hfollows
    · rw [hptr, hptr']
      simp [Members.text]

/-- What each part of the parser returns stands where the part began. -/
theorem stands_of_getJSON (nums : Numbers) (fuel : Nat) : ∀ p,
    (∀ cell rest, getJSONvalue nums fuel p = .ok cell rest → Stands nums p cell rest) ∧
    (∀ cells rest, getJSONarray nums fuel p = .ok cells rest →
      StandElements nums p cells rest) ∧
    (∀ cells rest, getJSONobject nums fuel p = .ok cells rest →
      StandObject nums p cells rest) ∧
    ∀ cells rest, getJSONpairs nums fuel p = .ok cells rest → StandMembers nums p cells rest := by
  induction fuel with
  | zero =>
      intro p
      refine ⟨?_, ?_, ?_, ?_⟩ <;> intro _ _ h
      · rw [getJSONvalue.eq_def] at h
        cases h
      · rw [getJSONarray.eq_def] at h
        cases h
      · rw [getJSONobject.eq_def] at h
        cases h
      · rw [getJSONpairs.eq_def] at h
        cases h
  | succ fuel ih =>
      intro p
      refine ⟨?_, ?_, ?_, ?_⟩
      · intro cell rest h
        rcases getJSONvalue_cases nums fuel p with ⟨-, hvalue⟩ | ⟨q, -, hvalue⟩ |
          ⟨c, q, hskip, hstarts, hvalue⟩ | ⟨q, hskip, hvalue⟩ | ⟨q, hskip, hvalue⟩ |
          ⟨l, r, hskip, hvalue⟩ | ⟨c, q, -, hvalue⟩ <;> rw [hvalue] at h
        · cases h
        · exact stands_string h
        · exact stands_skip hskip (stands_number hstarts h)
        · obtain ⟨cells, hcells, rfl⟩ := map_eq_ok h
          exact stands_skip hskip (stands_object ((ih q).2.2.1 _ _ hcells))
        · obtain ⟨cells, hcells, rfl⟩ := map_eq_ok h
          exact stands_skip hskip (stands_array ((ih q).2.1 _ _ hcells))
        · cases h
          exact stands_skip hskip (stands_leaf (d := .literal l) trivial trivial rfl)
        · cases h
      · intro cells rest h
        rcases getJSONarray_cases nums fuel p with ⟨-, harray⟩ | ⟨q, hskip, harray⟩ |
          ⟨c, q, hskip, -, harray⟩ <;> rw [harray] at h
        · cases h
        · cases h
          exact standElements_close hskip
        · obtain ⟨cell, ptr, hvalue, h⟩ := andThen_eq_ok h
          have hcell := stands_skip hskip ((ih _).1 _ _ hvalue)
          rcases afterElement_cases nums fuel cell ptr with ⟨-, hafter⟩ | ⟨q, hq, hafter⟩ |
            ⟨q, hq, hafter⟩ | ⟨d, q, -, hafter⟩ <;> rw [hafter] at h
          · cases h
          · obtain ⟨cells, hcells, rfl⟩ := map_eq_ok h
            exact standElements_doc hcell (.inr ⟨q, hq, (ih q).2.1 _ _ hcells⟩)
          · cases h
            exact standElements_doc hcell (.inl ⟨hq, rfl⟩)
          · cases h
      · intro cells rest h
        rcases getJSONobject_cases nums fuel p with ⟨-, hobject⟩ | ⟨q, hskip, hobject⟩ |
          ⟨c, q, hskip, -, hobject⟩ <;> rw [hobject] at h
        · cases h
        · cases h
          obtain ⟨w, hw, hp⟩ := skip_spec p
          exact .inl ⟨w, hw, by rw [← hskip, ← hp], rfl⟩
        · exact .inr ((ih p).2.2.2 _ _ h)
      · intro cells rest h
        rw [getJSONpairs_succ] at h
        obtain ⟨key, ptr, hkey, h⟩ := andThen_eq_ok h
        rcases afterKey_cases nums fuel key ptr with ⟨-, hafter⟩ | ⟨q, hcolon, hafter⟩ |
          ⟨c, q, -, hafter⟩ <;> rw [hafter] at h
        · cases h
        · obtain ⟨cell, ptr', hvalue, h⟩ := andThen_eq_ok h
          have hcell := (ih q).1 _ _ hvalue
          rcases afterPair_cases nums fuel (.expression [.string key, cell]) ptr' with
            ⟨-, hafter⟩ | ⟨r, hr, hafter⟩ | ⟨r, hr, hafter⟩ | ⟨c, r, -, hafter⟩ <;>
            rw [hafter] at h
          · cases h
          · cases h
            exact standMembers_pair hkey hcolon hcell (.inl ⟨hr, rfl⟩)
          · obtain ⟨cells, hcells, rfl⟩ := map_eq_ok h
            exact standMembers_pair hkey hcolon hcell (.inr ⟨r, hr, (ih r).2.2.2 _ _ hcells⟩)
          · cases h
        · cases h

end Documents

section Ends

theorem length_of_skip (h : skip p = c :: q) : q.length < p.length := by
  have hle := length_skip_le p
  rw [h, List.length_cons] at hle
  omega

/-- A value takes at least a byte. -/
theorem length_of_stands {cell : Cell} (h : Stands nums p cell rest) :
    rest.length < p.length := by
  obtain ⟨w, d, -, hd, -, rfl, -⟩ := h
  obtain ⟨c, t, htext, -⟩ := doc_first hd
  rw [htext]
  simp only [List.length_append, List.length_cons]
  omega

theorem length_of_getJSONvalue {cell : Cell} (h : getJSONvalue nums fuel p = .ok cell rest) :
    rest.length < p.length := length_of_stands ((stands_of_getJSON nums fuel p).1 _ _ h)

theorem length_of_getJSONstring {bytes : List UInt8} (h : getJSONstring p = .ok bytes rest) :
    rest.length < p.length := by
  obtain ⟨w, pieces, -, -, rfl, -⟩ := pieces_of_getJSONstring h
  rw [quoted]
  simp only [List.length_append, List.length_cons]
  omega

/-- A step comes to an end when both its parts do. -/
theorem andThen_ends {α β : Type} {x : Parsed α} {f : α → List UInt8 → Parsed β}
    (hx : x ≠ .timeout) (hf : ∀ a r, x = .ok a r → f a r ≠ .timeout) :
    x.andThen f ≠ .timeout := by
  cases x with
  | ok a r => exact hf a r rfl
  | error e j => exact nofun
  | overrun => exact nofun
  | timeout => exact absurd rfl hx

theorem map_ends {α β : Type} {x : Parsed α} {f : α → β} (hx : x ≠ .timeout) :
    x.map f ≠ .timeout := andThen_ends hx fun _ _ _ => nofun

theorem scanToken_ends (p : List UInt8) : scanToken p ≠ .timeout := by
  induction hn : p.length using Nat.strongRecOn generalizing p with
  | ind n ih =>
      rcases scan_cases p with rfl | ⟨q, rfl⟩ | ⟨q, rfl⟩ | rfl | ⟨d, q, rfl⟩ |
        ⟨c, q, rfl, hquote, hzero, hbackslash⟩
      · exact nofun
      · rw [scanToken_quote]
        exact nofun
      · rw [scanToken_zero]
        exact nofun
      · exact nofun
      · rw [scanToken_backslash]
        exact map_ends (ih _ (by simp only [← hn, List.length_cons]; omega) q rfl)
      · rw [scanToken_plain hquote hzero hbackslash]
        exact map_ends (ih _ (by simp only [← hn, List.length_cons]; omega) q rfl)

/-- Both ends of `getJSONstring` behind the loop. -/
theorem xlate_ends (token rest : List UInt8) :
    (match xlate token with
      | some xlated => Parsed.ok xlated rest
      | none => .error .invalidUnicode rest) ≠ .timeout := by
  cases xlate token <;> exact nofun

theorem getJSONstring_ends (p : List UInt8) : getJSONstring p ≠ .timeout := by
  rw [getJSONstring]
  cases skip p with
  | nil =>
      intro h
      cases h
  | cons c q =>
      by_cases hquote : c = quote
      · simp only [if_pos hquote]
        exact andThen_ends (scanToken_ends q) fun token r _ => xlate_ends token r
      · simp only [if_neg hquote]
        intro h
        cases h

theorem zero_not_mem_digits {ds : List UInt8} (hds : ∀ c ∈ ds, isDigit c) : 0 ∉ ds := by
  intro h
  exact absurd (hds 0 h) (by decide)

theorem zero_not_mem_fraction {fraction : Option (List UInt8)}
    (hfraction : ∀ ds ∈ fraction, ∀ c ∈ ds, isDigit c) :
    0 ∉ fraction.elim [] (period :: ·) := by
  cases fraction with
  | none => simp
  | some ds =>
      intro h
      rcases List.mem_cons.mp h with h | h
      · exact absurd h (by decide)
      · exact zero_not_mem_digits (hfraction ds rfl) h

theorem zero_not_mem_sign {e : UInt8} {sign : List UInt8} (he : e = 101 ∨ e = 69)
    (hsign : Numeral.IsSign sign) : 0 ∉ e :: sign := by
  rcases he with rfl | rfl <;> rcases hsign with rfl | rfl | rfl <;> decide

/-- What `getJSONvalue` does behind the last byte of a number. -/
def endNumber (nums : Numbers) (number : List UInt8) (isFloat : Bool) (rest : List UInt8) :
    Parsed Cell :=
  match rest with
  | [] => .overrun
  | c :: _ =>
      if !endsNumber c then .error .invalidNumber rest
      else if 1024 < number.length then .error .invalidNumber rest
      else if isFloat then .ok (.float (nums.atof number)) rest
      else .ok (.long (atoll number)) rest

theorem endNumber_cases (nums : Numbers) (number : List UInt8) (isFloat : Bool) (c : UInt8)
    (q : List UInt8) :
    (∃ cell rest, endNumber nums number isFloat (c :: q) = .ok cell rest) ∨
      endNumber nums number isFloat (c :: q) = .error .invalidNumber (c :: q) := by
  rw [endNumber]
  split_ifs
  · exact .inr rfl
  · exact .inr rfl
  · exact .inl ⟨_, _, rfl⟩
  · exact .inl ⟨_, _, rfl⟩

/-- A number is read, is an error in front of a byte, or runs on over bytes that are not
zero. -/
theorem getJSONnumber_cases (nums : Numbers) (first : UInt8) (p : List UInt8) :
    (∃ cell rest, getJSONnumber nums first p = .ok cell rest) ∨
    (∃ c q, c :: q <:+ p ∧ getJSONnumber nums first p = .error .invalidNumber (c :: q)) ∨
    (getJSONnumber nums first p = .overrun ∧ 0 ∉ p) := by
  obtain ⟨fraction, q, hfraction, hscan, hq⟩ := scanFraction_spec (p.dropWhile isDigit)
  have hp : p = p.takeWhile isDigit ++ fraction.elim [] (period :: ·) ++ q := by
    rw [List.append_assoc, ← hq, List.takeWhile_append_dropWhile]
  have hzero : 0 ∉ q → 0 ∉ p := by
    intro hx
    rw [hp]
    simp only [List.mem_append, not_or]
    exact ⟨⟨zero_not_mem_digits mem_takeWhile, zero_not_mem_fraction hfraction⟩, hx⟩
  have hsuffix : q <:+ p := ⟨_, hp.symm⟩
  have hend : ∀ {x rest r : List UInt8} {isFloat : Bool},
      scanExponent q = (some (x, rest, isFloat), r) →
      getJSONnumber nums first p = endNumber nums
        (first :: p.takeWhile isDigit ++ fraction.elim [] (period :: ·) ++ x)
        (fraction.isSome || isFloat) rest := by
    intro x rest r isFloat h
    rw [getJSONnumber]
    simp only [hscan, h]
    rfl
  have hlast : ∀ (x : List UInt8) (isFloat : Bool) (c : UInt8) (rest : List UInt8),
      c :: rest <:+ q → (∃ cell r, endNumber nums x isFloat (c :: rest) = .ok cell r) ∨
        (∃ d r, d :: r <:+ p ∧
          endNumber nums x isFloat (c :: rest) = .error .invalidNumber (d :: r)) := by
    intro x isFloat c rest hrest
    rcases endNumber_cases nums x isFloat c rest with h | h
    · exact .inl h
    · exact .inr ⟨c, rest, hrest.trans hsuffix, h⟩
  rcases scanExponent_cases q with ⟨e, sign, r, he, hsign, hr, hexponent⟩ | hexponent
  · have hsigned := zero_not_mem_sign he hsign
    have hrsuffix : r <:+ q := ⟨_, hr.symm⟩
    rw [exponentDigits] at hexponent
    by_cases hhead : r.head?.any isDigit
    · rw [if_pos hhead] at hexponent
      rw [hend hexponent]
      cases hrest : r.dropWhile isDigit with
      | nil =>
          refine .inr (.inr ⟨rfl, hzero ?_⟩)
          rw [hr, ← List.takeWhile_append_dropWhile (p := isDigit) (l := r), hrest,
            List.append_nil, List.mem_append, not_or]
          exact ⟨hsigned, zero_not_mem_digits mem_takeWhile⟩
      | cons c rest =>
          have hdrop := List.dropWhile_suffix isDigit (l := r)
          rw [hrest] at hdrop
          exact (hlast _ _ c rest (hdrop.trans hrsuffix)).imp_right .inl
    · rw [if_neg hhead] at hexponent
      rw [getJSONnumber]
      simp only [hscan, hexponent]
      cases r with
      | nil =>
          refine .inr (.inr ⟨rfl, hzero ?_⟩)
          rw [hr, List.append_nil]
          exact hsigned
      | cons c r => exact .inr (.inl ⟨c, r, hrsuffix.trans hsuffix, rfl⟩)
  · rw [hend hexponent]
    cases q with
    | nil => exact .inr (.inr ⟨rfl, hzero (by simp)⟩)
    | cons c rest => exact (hlast _ _ c rest List.suffix_rfl).imp_right .inl

theorem getJSONnumber_ends (nums : Numbers) (first : UInt8) (p : List UInt8) :
    getJSONnumber nums first p ≠ .timeout := by
  rcases getJSONnumber_cases nums first p with ⟨cell, rest, h⟩ | ⟨c, q, -, h⟩ | ⟨h, -⟩ <;>
    rw [h] <;> exact nofun

/-- With fuel for twice the length of the input the parser comes to an end. -/
theorem getJSON_ends (nums : Numbers) (fuel : Nat) : ∀ p : List UInt8,
    (2 * p.length + 1 ≤ fuel → getJSONvalue nums fuel p ≠ .timeout) ∧
    (2 * p.length + 2 ≤ fuel → getJSONarray nums fuel p ≠ .timeout) ∧
    (2 * p.length + 2 ≤ fuel → getJSONobject nums fuel p ≠ .timeout) ∧
    (2 * p.length + 1 ≤ fuel → getJSONpairs nums fuel p ≠ .timeout) := by
  induction fuel with
  | zero =>
      intro p
      refine ⟨?_, ?_, ?_, ?_⟩ <;> intro h <;> omega
  | succ fuel ih =>
      intro p
      refine ⟨?_, ?_, ?_, ?_⟩
      · intro hfuel
        rcases getJSONvalue_cases nums fuel p with ⟨-, hvalue⟩ | ⟨q, -, hvalue⟩ |
          ⟨c, q, hskip, hstarts, hvalue⟩ | ⟨q, hskip, hvalue⟩ | ⟨q, hskip, hvalue⟩ |
          ⟨l, r, hskip, hvalue⟩ | ⟨c, q, -, hvalue⟩ <;> rw [hvalue]
        · exact nofun
        · exact map_ends (getJSONstring_ends p)
        · exact getJSONnumber_ends nums c q
        · have hlt := length_of_skip hskip
          exact map_ends ((ih q).2.2.1 (by omega))
        · have hlt := length_of_skip hskip
          exact map_ends ((ih q).2.1 (by omega))
        · exact nofun
        · exact nofun
      · intro hfuel
        rcases getJSONarray_cases nums fuel p with ⟨-, harray⟩ | ⟨q, hskip, harray⟩ |
          ⟨c, q, hskip, -, harray⟩ <;> rw [harray]
        · exact nofun
        · exact nofun
        · have hlt := length_of_skip hskip
          refine andThen_ends ((ih _).1 (by rw [List.length_cons]; omega)) ?_
          intro cell ptr hvalue
          have hptr := length_of_getJSONvalue hvalue
          rw [List.length_cons] at hptr
          rcases afterElement_cases nums fuel cell ptr with ⟨-, hafter⟩ | ⟨r, hr, hafter⟩ |
            ⟨r, hr, hafter⟩ | ⟨d, r, -, hafter⟩ <;> rw [hafter]
          · exact nofun
          · have hlt' := length_of_skip hr
            exact map_ends ((ih r).2.1 (by omega))
          · exact nofun
          · exact nofun
      · intro hfuel
        rcases getJSONobject_cases nums fuel p with ⟨-, hobject⟩ | ⟨q, hskip, hobject⟩ |
          ⟨c, q, hskip, -, hobject⟩ <;> rw [hobject]
        · exact nofun
        · exact nofun
        · exact (ih p).2.2.2 (by omega)
      · intro hfuel
        rw [getJSONpairs_succ]
        refine andThen_ends (getJSONstring_ends p) ?_
        intro key ptr hkey
        have hptr := length_of_getJSONstring hkey
        rcases afterKey_cases nums fuel key ptr with ⟨-, hafter⟩ | ⟨q, hcolon, hafter⟩ |
          ⟨c, q, -, hafter⟩ <;> rw [hafter]
        · exact nofun
        · have hlt := length_of_skip hcolon
          refine andThen_ends ((ih q).1 (by omega)) ?_
          intro cell ptr' hvalue
          have hptr' := length_of_getJSONvalue hvalue
          rcases afterPair_cases nums fuel (.expression [.string key, cell]) ptr' with
            ⟨-, hafter⟩ | ⟨r, hr, hafter⟩ | ⟨r, hr, hafter⟩ | ⟨c, r, -, hafter⟩ <;>
            rw [hafter]
          · exact nofun
          · exact nofun
          · have hlt' := length_of_skip hr
            exact map_ends ((ih r).2.2.2 (by omega))
          · exact nofun
        · exact nofun

theorem p_JSONparse_ends (nums : Numbers) (s : List UInt8) :
    p_JSONparse nums s ≠ .timeout := by
  refine (getJSON_ends nums _ _).1 ?_
  rw [List.length_append, List.length_singleton]
  omega

end Ends

end NewLispNeo.Json
