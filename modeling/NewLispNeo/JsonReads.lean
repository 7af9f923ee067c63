/-
The JSON parser reads documents: what `getJSONvalue` returns is the cell of a document that
stands at the pointer, every document that stands there is read, and it always comes to an end.
-/
import NewLispNeo.JsonScan

namespace NewLispNeo.Json

variable {nums : Numbers} {fuel : Nat} {p q rest : List UInt8} {c : UInt8}

section Steps

/-- What `getJSONvalue` does at a byte that is no white space. -/
theorem getJSONvalue_succ (h : skip p = c :: q) :
    getJSONvalue nums (fuel + 1) p =
      if c = quote then (getJSONstring (c :: q)).map .string
      else if startsNumber c q then getJSONnumber nums c q
      else if c = leftBrace then (getJSONobject nums fuel q).map .expression
      else if c = leftBracket then (getJSONarray nums fuel q).map .expression
      else getJSONliteral (c :: q) := by
  rw [getJSONvalue.eq_def]
  simp only [h]

/-- What `GET_ARRAY_ELEMENT` does behind an element. -/
def afterElement (nums : Numbers) (fuel : Nat) (cell : Cell) (ptr : List UInt8) :
    Parsed (List Cell) :=
  match skip ptr with
  | [] => .overrun
  | d :: q =>
      if d = comma then (getJSONarray nums fuel q).map (cell :: ·)
      else if d = rightBracket then .ok [cell] q
      else .error .invalidArray (d :: q)

theorem getJSONarray_close (h : skip p = rightBracket :: q) :
    getJSONarray nums (fuel + 1) p = .ok [] q := by
  rw [getJSONarray.eq_def]
  simp only [h, if_true]

theorem getJSONarray_element (h : skip p = c :: q) (hc : c ≠ rightBracket) :
    getJSONarray nums (fuel + 1) p =
      (getJSONvalue nums fuel (c :: q)).andThen (afterElement nums fuel) := by
  rw [getJSONarray.eq_def]
  simp only [h, if_neg hc]
  rfl

theorem getJSONobject_empty (h : skip p = rightBrace :: q) :
    getJSONobject nums (fuel + 1) p = .ok [] q := by
  rw [getJSONobject.eq_def]
  simp only [h, if_true]

/-- What `GET_PAIR` does behind a pair. -/
def afterPair (nums : Numbers) (fuel : Nat) (pair : Cell) (ptr : List UInt8) :
    Parsed (List Cell) :=
  match skip ptr with
  | [] => .overrun
  | d :: q =>
      if d = rightBrace then .ok [pair] q
      else if d = comma then (getJSONpairs nums fuel q).map (pair :: ·)
      else .error .invalidObject (d :: q)

/-- What `GET_PAIR` does behind a key. -/
def afterKey (nums : Numbers) (fuel : Nat) (key ptr : List UInt8) : Parsed (List Cell) :=
  match skip ptr with
  | [] => .overrun
  | c :: p =>
      if c = colon then
        (getJSONvalue nums fuel p).andThen fun cell ptr =>
          afterPair nums fuel (.expression [.string key, cell]) ptr
      else .error .missingColon (c :: p)

theorem getJSONpairs_succ (nums : Numbers) (fuel : Nat) (p : List UInt8) :
    getJSONpairs nums (fuel + 1) p = (getJSONstring p).andThen (afterKey nums fuel) := by
  rw [getJSONpairs.eq_def]
  rfl

/-- A string is read behind white space. -/
theorem getJSONstring_skip (p : List UInt8) : getJSONstring (skip p) = getJSONstring p := by
  rw [getJSONstring, getJSONstring, skip_skip rfl]

theorem getJSONpairs_skip (p : List UInt8) :
    getJSONpairs nums fuel (skip p) = getJSONpairs nums fuel p := by
  cases fuel with
  | zero =>
      rw [getJSONpairs.eq_def, getJSONpairs.eq_def]
  | succ fuel => rw [getJSONpairs_succ, getJSONpairs_succ, getJSONstring_skip]

theorem getJSONobject_pairs (h : skip p = c :: q) (hc : c ≠ rightBrace) :
    getJSONobject nums (fuel + 1) p = getJSONpairs nums fuel p := by
  rw [getJSONobject.eq_def]
  simp only [h, if_neg hc]
  rw [← h, getJSONpairs_skip]

/-- The byte a value begins with tells which value it is. -/
theorem startsNumber_first (h : startsNumber c q) :
    c ≠ quote ∧ c ≠ rightBracket ∧ ¬ (c ≤ space ∧ c ≠ 0) := by
  rw [startsNumber, Bool.or_eq_true, Bool.and_eq_true, Bool.or_eq_true, decide_eq_true_eq,
    decide_eq_true_eq] at h
  refine ⟨?_, ?_, ?_⟩
  · rintro rfl
    rcases h with h | ⟨h | h, -⟩ <;> exact absurd h (by decide)
  · rintro rfl
    rcases h with h | ⟨h | h, -⟩ <;> exact absurd h (by decide)
  · rintro ⟨hle, -⟩
    rcases h with h | ⟨rfl | rfl, -⟩
    · simp only [isDigit, Bool.and_eq_true, decide_eq_true_eq] at h
      exact absurd (UInt8.le_trans h.1 hle) (by decide)
    · exact absurd hle (by decide)
    · exact absurd hle (by decide)

end Steps

section Literals

theorem startsNumber_false (hdigit : isDigit c = false) (hminus : c ≠ minus) (hplus : c ≠ plus)
    (q : List UInt8) : startsNumber c q = false := by
  simp [startsNumber, hdigit, hminus, hplus]

/-- The first byte of a word, and that it begins nothing else. -/
theorem literal_first (l : Literal) : ∃ c t, l.text = c :: t ∧ ¬ (c ≤ space ∧ c ≠ 0) ∧
    c ≠ quote ∧ c ≠ leftBrace ∧ c ≠ leftBracket ∧ c ≠ rightBracket ∧
    ∀ q, startsNumber c q = false := by
  cases l with
  | true =>
      exact ⟨116, [114, 117, 101], by decide, by decide, by decide, by decide, by decide,
        by decide, startsNumber_false (by decide) (by decide) (by decide)⟩
  | false =>
      exact ⟨102, [97, 108, 115, 101], by decide, by decide, by decide, by decide, by decide,
        by decide, startsNumber_false (by decide) (by decide) (by decide)⟩
  | null =>
      exact ⟨110, [117, 108, 108], by decide, by decide, by decide, by decide, by decide,
        by decide, startsNumber_false (by decide) (by decide) (by decide)⟩

/-- A word is read where it stands, -/
theorem getJSONliteral_of_text (l : Literal) (rest : List UInt8) :
    getJSONliteral (l.text ++ rest) = .ok l.cell rest := by
  rw [getJSONliteral]
  have htrue : ascii "true" = [116, 114, 117, 101] := by decide
  have hfalse : ascii "false" = [102, 97, 108, 115, 101] := by decide
  have hnull : ascii "null" = [110, 117, 108, 108] := by decide
  cases l <;> simp [Literal.text, Literal.cell, htrue, hfalse, hnull, List.cons_prefix_cons]

/-- and any other is an error. -/
theorem getJSONliteral_cases (p : List UInt8) :
    (∃ l : Literal, ∃ rest, p = l.text ++ rest ∧ getJSONliteral p = .ok l.cell rest) ∨
      getJSONliteral p = .error .invalidValue p := by
  by_cases h : ∃ (l : Literal) (rest : List UInt8), p = l.text ++ rest
  · obtain ⟨l, rest, rfl⟩ := h
    exact .inl ⟨l, rest, rfl, getJSONliteral_of_text l rest⟩
  · have hnone : ∀ l : Literal, ¬ l.text <+: p := by
      rintro l ⟨rest, rfl⟩
      exact h ⟨l, rest, rfl⟩
    refine .inr ?_
    have htrue : ¬ ascii "true" <+: p := hnone .true
    have hfalse : ¬ ascii "false" <+: p := hnone .false
    have hnull : ¬ ascii "null" <+: p := hnone .null
    rw [getJSONliteral, if_neg htrue, if_neg hfalse, if_neg hnull]

end Literals

section Reading

/-- The first byte of a value is no white space and closes no array. -/
theorem doc_first {ends : UInt8 → Bool} {d : Doc} (hd : d.Reads ends) :
    ∃ c t, d.text = c :: t ∧ ¬ (c ≤ space ∧ c ≠ 0) ∧ c ≠ rightBracket := by
  cases d with
  | string pieces => exact ⟨quote, _, rfl, by decide, by decide⟩
  | number n =>
      obtain ⟨first, ds, hfirst, -, hstarts⟩ := numeral_first hd
      obtain ⟨-, hbracket, hblank⟩ := startsNumber_first (hstarts [])
      refine ⟨first, ds ++ (n.fractionText ++ n.exponentText), ?_, hblank, hbracket⟩
      rw [Doc.text, Numeral.text, hfirst]
      simp
  | literal l =>
      obtain ⟨c, t, htext, hblank, -, -, -, hbracket, -⟩ := literal_first l
      exact ⟨c, t, htext, hblank, hbracket⟩
  | emptyObject inner => exact ⟨leftBrace, _, rfl, by decide, by decide⟩
  | object members => exact ⟨leftBrace, _, rfl, by decide, by decide⟩
  | array elements => exact ⟨leftBracket, _, rfl, by decide, by decide⟩

/-- A step that comes to an end has come to the end of its first part. -/
theorem andThen_ne_timeout {α β : Type} {x : Parsed α} {f : α → List UInt8 → Parsed β}
    (h : x.andThen f ≠ .timeout) : x ≠ .timeout := by
  rintro rfl
  exact h rfl

theorem map_ne_timeout {α β : Type} {x : Parsed α} {f : α → β} (h : x.map f ≠ .timeout) :
    x ≠ .timeout := andThen_ne_timeout h

theorem andThen_of_ok {α β : Type} {x : Parsed α} {f : α → List UInt8 → Parsed β} {a : α}
    (h : x = .ok a rest) : x.andThen f = f a rest := by rw [h]; rfl

theorem map_of_ok {α β : Type} {x : Parsed α} {f : α → β} {a : α} (h : x = .ok a rest) :
    x.map f = .ok (f a) rest := by rw [h]; rfl

theorem getJSONvalue_brace (h : skip p = leftBrace :: q) :
    getJSONvalue nums (fuel + 1) p = (getJSONobject nums fuel q).map .expression := by
  have hnumber := startsNumber_false (c := leftBrace) (by decide) (by decide) (by decide) q
  rw [getJSONvalue_succ h, if_neg (by decide), if_neg (by rw [hnumber]; decide), if_pos rfl]

theorem getJSONvalue_bracket (h : skip p = leftBracket :: q) :
    getJSONvalue nums (fuel + 1) p = (getJSONarray nums fuel q).map .expression := by
  have hnumber := startsNumber_false (c := leftBracket) (by decide) (by decide) (by decide) q
  rw [getJSONvalue_succ h, if_neg (by decide), if_neg (by rw [hnumber]; decide),
    if_neg (by decide), if_pos rfl]

/-- The cell the parser makes of a document. -/
abbrev Doc.read (nums : Numbers) (d : Doc) : Cell := d.cell piecesBytes fun n => n.cell nums

abbrev Elements.read (nums : Numbers) (e : Elements) : List Cell :=
  e.cells piecesBytes fun n => n.cell nums

abbrev Members.read (nums : Numbers) (m : Members) : List Cell :=
  m.cells piecesBytes fun n => n.cell nums

/-- A value of one byte or word is read where it stands. -/
theorem getJSONvalue_of_leaf (fuel : Nat) {d : Doc} {w : List UInt8} (hw : Blank w)
    (hd : d.Reads endsNumber) (hrest : d.Follows endsNumber rest)
    (hleaf : (∃ pieces, d = .string pieces) ∨ (∃ n, d = .number n) ∨ ∃ l, d = .literal l) :
    getJSONvalue nums (fuel + 1) (w ++ (d.text ++ rest)) = .ok (d.read nums) rest := by
  rcases hleaf with ⟨pieces, rfl⟩ | ⟨n, rfl⟩ | ⟨l, rfl⟩
  · have hskip : skip (w ++ ((Doc.string pieces).text ++ rest)) =
        quote :: (piecesText pieces ++ [quote] ++ rest) := skip_blank hw quote_not_blank
    have hstring := getJSONstring_of_pieces (w := []) blank_nil hd rest
    rw [List.nil_append, quoted, List.cons_append] at hstring
    rw [getJSONvalue_succ hskip, if_pos rfl]
    exact map_of_ok hstring
  · obtain ⟨first, q, hq, hstarts, hnumber⟩ := getJSONnumber_of_reads nums hd hrest
    obtain ⟨hquote, -, hblank⟩ := startsNumber_first hstarts
    have hskip : skip (w ++ ((Doc.number n).text ++ rest)) = first :: q := by
      rw [Doc.text, hq, skip_blank hw hblank]
    rw [getJSONvalue_succ hskip, if_neg hquote, if_pos hstarts, hnumber]
    rfl
  · obtain ⟨c, t, htext, hblank, hquote, hbrace, hbracket, -, hnumber⟩ := literal_first l
    have hskip : skip (w ++ ((Doc.literal l).text ++ rest)) = c :: (t ++ rest) := by
      rw [Doc.text, htext, List.cons_append, skip_blank hw hblank]
    rw [getJSONvalue_succ hskip, if_neg hquote, if_neg (by simp [hnumber]), if_neg hbrace,
      if_neg hbracket, ← List.cons_append, ← htext, getJSONliteral_of_text]
    rfl

theorem afterElement_comma {p q : List UInt8} (h : skip p = comma :: q) (cell : Cell) :
    afterElement nums fuel cell p = (getJSONarray nums fuel q).map (cell :: ·) := by
  rw [afterElement, h]
  simp only [if_true]

theorem afterElement_bracket {p q : List UInt8} (h : skip p = rightBracket :: q) (cell : Cell) :
    afterElement nums fuel cell p = .ok [cell] q := by
  rw [afterElement, h]
  simp only [if_true, if_neg (show rightBracket ≠ comma by decide)]

theorem afterPair_comma {p q : List UInt8} (h : skip p = comma :: q) (pair : Cell) :
    afterPair nums fuel pair p = (getJSONpairs nums fuel q).map (pair :: ·) := by
  rw [afterPair, h]
  simp only [if_true, if_neg (show comma ≠ rightBrace by decide)]

theorem afterPair_brace {p q : List UInt8} (h : skip p = rightBrace :: q) (pair : Cell) :
    afterPair nums fuel pair p = .ok [pair] q := by
  rw [afterPair, h]
  simp only [if_true]

theorem afterKey_colon {p q : List UInt8} (h : skip p = colon :: q) (key : List UInt8) :
    afterKey nums fuel key p =
      (getJSONvalue nums fuel q).andThen fun cell ptr =>
        afterPair nums fuel (.expression [.string key, cell]) ptr := by
  rw [afterKey, h]
  simp only [if_true]

/-- An element behind white space. -/
theorem getJSONarray_doc {ends : UInt8 → Bool} {before : List UInt8} {d : Doc}
    (hbefore : Blank before) (hd : d.Reads ends) (q : List UInt8) :
    getJSONarray nums (fuel + 1) (before ++ (d.text ++ q)) =
      (getJSONvalue nums fuel (d.text ++ q)).andThen (afterElement nums fuel) := by
  obtain ⟨c, t, htext, hblank, hbracket⟩ := doc_first hd
  rw [htext, List.cons_append]
  exact getJSONarray_element (skip_blank hbefore hblank) hbracket

/-- A key, the colon and what stands behind it. -/
theorem getJSONpairs_key {before middle : List UInt8} {key : List Piece} (hbefore : Blank before)
    (hkey : ∀ piece ∈ key, piece.Reads) (hmiddle : Blank middle) (q : List UInt8) :
    getJSONpairs nums (fuel + 1) (before ++ (quoted key ++ (middle ++ colon :: q))) =
      (getJSONvalue nums fuel q).andThen fun cell ptr =>
        afterPair nums fuel (.expression [.string (piecesBytes key), cell]) ptr := by
  rw [getJSONpairs_succ, andThen_of_ok (getJSONstring_of_pieces hbefore hkey _),
    afterKey_colon (skip_blank hmiddle (by decide))]

/-- The pairs of an object begin with a quote. -/
theorem members_first {ends : UInt8 → Bool} {m : Members} (hm : m.Reads ends)
    (rest : List UInt8) : ∃ q, skip (m.text ++ rest) = quote :: q := by
  have hkey : ∀ {before : List UInt8} (key : List Piece) (t : List UInt8), Blank before →
      ∃ q, skip (before ++ (quoted key ++ t) ++ rest) = quote :: q := by
    intro before key t hbefore
    refine ⟨piecesText key ++ [quote] ++ t ++ rest, ?_⟩
    rw [List.append_assoc, quoted, List.cons_append, List.cons_append,
      skip_blank hbefore quote_not_blank]
  cases m with
  | last before key middle before' d after => exact hkey key _ hm.1
  | more before key middle before' d after others => exact hkey key _ hm.1

/-- What a number is followed by does not depend on what stands behind the next byte. -/
theorem follows_append {ends : UInt8 → Bool} {d : Doc} {w : List UInt8} {c : UInt8}
    (h : d.Follows ends (w ++ [c])) (q : List UInt8) : d.Follows ends (w ++ c :: q) := by
  cases d with
  | number n =>
      cases w with
      | nil => exact h
      | cons b w => exact h
  | _ => trivial

mutual

/-- A document is read where it stands, -/
theorem getJSONvalue_of_doc (fuel : Nat) (d : Doc) (w rest : List UInt8) (hw : Blank w)
    (hd : d.Reads endsNumber) (hrest : d.Follows endsNumber rest)
    (h : getJSONvalue nums fuel (w ++ (d.text ++ rest)) ≠ .timeout) :
    getJSONvalue nums fuel (w ++ (d.text ++ rest)) = .ok (d.read nums) rest := by
  cases fuel with
  | zero => exact absurd (getJSONvalue.eq_def ..) h
  | succ fuel =>
      cases d with
      | string pieces => exact getJSONvalue_of_leaf fuel hw hd hrest (.inl ⟨_, rfl⟩)
      | number n => exact getJSONvalue_of_leaf fuel hw hd hrest (.inr (.inl ⟨_, rfl⟩))
      | literal l => exact getJSONvalue_of_leaf fuel hw hd hrest (.inr (.inr ⟨_, rfl⟩))
      | emptyObject inner =>
          have hskip : skip (w ++ ((Doc.emptyObject inner).text ++ rest)) =
              leftBrace :: (inner ++ [rightBrace] ++ rest) := skip_blank hw (by decide)
          rw [getJSONvalue_brace hskip] at h ⊢
          cases fuel with
          | zero => exact absurd (getJSONobject.eq_def ..) (map_ne_timeout h)
          | succ fuel =>
              have hinner : skip (inner ++ [rightBrace] ++ rest) = rightBrace :: rest := by
                rw [List.append_assoc, List.singleton_append, skip_blank hd (by decide)]
              rw [getJSONobject_empty hinner]
              rfl
      | object members =>
          have hskip : skip (w ++ ((Doc.object members).text ++ rest)) =
              leftBrace :: (members.text ++ rest) := skip_blank hw (by decide)
          rw [getJSONvalue_brace hskip] at h ⊢
          obtain ⟨q, hq⟩ := members_first hd rest
          cases fuel with
          | zero => exact absurd (getJSONobject.eq_def ..) (map_ne_timeout h)
          | succ fuel =>
              rw [getJSONobject_pairs hq (by decide)] at h ⊢
              exact map_of_ok (getJSONpairs_of_members fuel members rest hd (map_ne_timeout h))
      | array elements =>
          have hskip : skip (w ++ ((Doc.array elements).text ++ rest)) =
              leftBracket :: (elements.text ++ rest) := skip_blank hw (by decide)
          rw [getJSONvalue_bracket hskip] at h ⊢
          exact map_of_ok (getJSONarray_of_elements fuel elements rest hd (map_ne_timeout h))

/-- and so are the elements of an array -/
theorem getJSONarray_of_elements (fuel : Nat) (e : Elements) (rest : List UInt8)
    (he : e.Reads endsNumber) (h : getJSONarray nums fuel (e.text ++ rest) ≠ .timeout) :
    getJSONarray nums fuel (e.text ++ rest) = .ok (e.read nums) rest := by
  cases fuel with
  | zero => exact absurd (getJSONarray.eq_def ..) h
  | succ fuel =>
      cases e with
      | close inner =>
          have hskip : skip ((Elements.close inner).text ++ rest) = rightBracket :: rest := by
            rw [Elements.text, List.append_assoc, List.singleton_append,
              skip_blank he (by decide)]
          rw [getJSONarray_close hskip]
          rfl
      | last before d after =>
          obtain ⟨hbefore, hd, hafter, hfollows⟩ := he
          have hp : (Elements.last before d after).text ++ rest =
              before ++ (d.text ++ (after ++ rightBracket :: rest)) := by simp [Elements.text]
          rw [hp, getJSONarray_doc hbefore hd] at h ⊢
          have hvalue := getJSONvalue_of_doc fuel d [] _ blank_nil hd
            (follows_append hfollows rest) (andThen_ne_timeout h)
          rw [List.nil_append] at hvalue
          rw [andThen_of_ok hvalue, afterElement_bracket (skip_blank hafter (by decide))]
          rfl
      | more before d after others =>
          obtain ⟨hbefore, hd, hafter, hfollows, hothers⟩ := he
          have hp : (Elements.more before d after others).text ++ rest =
              before ++ (d.text ++ (after ++ comma :: (others.text ++ rest))) := by
            simp [Elements.text]
          rw [hp, getJSONarray_doc hbefore hd] at h ⊢
          have hvalue := getJSONvalue_of_doc fuel d [] _ blank_nil hd
            (follows_append hfollows (others.text ++ rest)) (andThen_ne_timeout h)
          rw [List.nil_append] at hvalue
          rw [andThen_of_ok hvalue, afterElement_comma (skip_blank hafter (by decide))] at h ⊢
          exact map_of_ok (getJSONarray_of_elements fuel others rest hothers (map_ne_timeout h))

/-- and the pairs of an object. -/
theorem getJSONpairs_of_members (fuel : Nat) (m : Members) (rest : List UInt8)
    (hm : m.Reads endsNumber) (h : getJSONpairs nums fuel (m.text ++ rest) ≠ .timeout) :
    getJSONpairs nums fuel (m.text ++ rest) = .ok (m.read nums) rest := by
  cases fuel with
  | zero => exact absurd (getJSONpairs.eq_def ..) h
  | succ fuel =>
      cases m with
      | last before key middle before' d after =>
          obtain ⟨hbefore, hkey, hmiddle, hbefore', hd, hafter, hfollows⟩ := hm
          have hp : (Members.last before key middle before' d after).text ++ rest =
              before ++ (quoted key ++ (middle ++ colon ::
                (before' ++ (d.text ++ (after ++ rightBrace :: rest))))) := by
            simp [Members.text]
          rw [hp, getJSONpairs_key hbefore hkey hmiddle] at h ⊢
          have hvalue := getJSONvalue_of_doc fuel d before' _ hbefore' hd
            (follows_append hfollows rest) (andThen_ne_timeout h)
          rw [andThen_of_ok hvalue, afterPair_brace (skip_blank hafter (by decide))]
          rfl
      | more before key middle before' d after others =>
          obtain ⟨hbefore, hkey, hmiddle, hbefore', hd, hafter, hfollows, hothers⟩ := hm
          have hp : (Members.more before key middle before' d after others).text ++ rest =
              before ++ (quoted key ++ (middle ++ colon ::
                (before' ++ (d.text ++ (after ++ comma :: (others.text ++ rest)))))) := by
            simp [Members.text]
          rw [hp, getJSONpairs_key hbefore hkey hmiddle] at h ⊢
          have hvalue := getJSONvalue_of_doc fuel d before' _ hbefore' hd
            (follows_append hfollows (others.text ++ rest)) (andThen_ne_timeout h)
          rw [andThen_of_ok hvalue, afterPair_comma (skip_blank hafter (by decide))] at h ⊢
          exact map_of_ok (getJSONpairs_of_members fuel others rest hothers (map_ne_timeout h))

end

end Reading

end NewLispNeo.Json
