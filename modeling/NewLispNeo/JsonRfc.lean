/-
The documents of RFC 8259 among the documents the JSON parser reads, and what `p_JSONparse`
makes of every string.
-/
import NewLispNeo.JsonSafe

namespace NewLispNeo.Json

variable {nums : Numbers} {fuel : Nat} {p q rest : List UInt8} {c : UInt8}

section Grammar

/-- The white space of RFC 8259. -/
def RfcBlank (w : List UInt8) : Prop :=
  ∀ c ∈ w, c = space ∨ c = tab ∨ c = newline ∨ c = carriageReturn

mutual

/-- The values of RFC 8259. -/
def Doc.Rfc : Doc → Prop
  | .string pieces => ∀ piece ∈ pieces, piece.Rfc
  | .number n => n.Rfc
  | .literal _ => True
  | .emptyObject inner => RfcBlank inner
  | .object members => members.Rfc
  | .array elements => elements.Rfc true

/-- The elements of an array: only an empty array closes without one. -/
def Elements.Rfc : Elements → Bool → Prop
  | .close inner, first => first = true ∧ RfcBlank inner
  | .last before d after, _ => RfcBlank before ∧ d.Rfc ∧ RfcBlank after
  | .more before d after others, _ =>
      RfcBlank before ∧ d.Rfc ∧ RfcBlank after ∧ others.Rfc false

def Members.Rfc : Members → Prop
  | .last before key middle before' d after =>
      RfcBlank before ∧ (∀ piece ∈ key, piece.Rfc) ∧ RfcBlank middle ∧ RfcBlank before' ∧
        d.Rfc ∧ RfcBlank after
  | .more before key middle before' d after others =>
      RfcBlank before ∧ (∀ piece ∈ key, piece.Rfc) ∧ RfcBlank middle ∧ RfcBlank before' ∧
        d.Rfc ∧ RfcBlank after ∧ others.Rfc

end

/-- The bytes are the UTF-8 of a text. -/
def IsUtf8 (s : List UInt8) : Prop := ∃ chars : List Char, s = chars.flatMap String.utf8EncodeChar

/-- A single JSON text of RFC 8259, with the white space around it. -/
structure RfcText (before : List UInt8) (d : Doc) (after : List UInt8) : Prop where
  blankBefore : RfcBlank before
  rfc : d.Rfc
  blankAfter : RfcBlank after
  utf8 : IsUtf8 (before ++ d.text ++ after)

/-- The value is no number directly in front of a carriage return. -/
def Doc.NotBeforeReturn (d : Doc) (after : List UInt8) : Prop :=
  match d with
  | .number _ => after.head? ≠ some carriageReturn
  | _ => True

mutual

/-- No surrogate pair, no number beyond 1024 bytes, and none directly in front of a carriage
return. -/
def Doc.Calm : Doc → Prop
  | .string pieces => PairFree pieces
  | .number n => n.text.length ≤ 1024
  | .literal _ => True
  | .emptyObject _ => True
  | .object members => members.Calm
  | .array elements => elements.Calm

def Elements.Calm : Elements → Prop
  | .close _ => True
  | .last _ d after => d.Calm ∧ d.NotBeforeReturn after
  | .more _ d after others => d.Calm ∧ d.NotBeforeReturn after ∧ others.Calm

def Members.Calm : Members → Prop
  | .last _ key _ _ d after => PairFree key ∧ d.Calm ∧ d.NotBeforeReturn after
  | .more _ key _ _ d after others =>
      PairFree key ∧ d.Calm ∧ d.NotBeforeReturn after ∧ others.Calm

end

/-- What may stand behind a number, a carriage return with the other white space. -/
def endsOrReturn (c : UInt8) : Bool := endsNumber c || c = carriageReturn

end Grammar

section Pieces

theorem blank_of_rfc {w : List UInt8} (hw : RfcBlank w) : Blank w := by
  intro c hc
  rcases hw c hc with rfl | rfl | rfl | rfl <;> exact ⟨by decide, by decide⟩

theorem piece_reads_of_rfc {piece : Piece} (h : piece.Rfc) : piece.Reads := by
  cases piece with
  | plain c =>
      refine ⟨h.2.1, ?_, h.2.2⟩
      rintro rfl
      exact absurd h.1 (by decide)
  | escape c =>
      rintro rfl
      exact absurd h (show (117 : UInt8) ∉ Piece.escapes by decide)
  | unicode a b c d => exact h

theorem pieces_read_of_rfc {pieces : List Piece} (h : ∀ piece ∈ pieces, piece.Rfc) :
    ∀ piece ∈ pieces, piece.Reads := fun piece hpiece => piece_reads_of_rfc (h piece hpiece)

theorem decode_cons {piece : Piece} {pieces : List Piece}
    (h : ∀ next ∈ pieces.head?, ¬ (piece.IsHigh ∧ next.IsLow)) :
    decode (piece :: pieces) = piece.bytes ++ decode pieces := by
  rcases piece with c | c | ⟨a, b, c, d⟩
  · rw [decode.eq_def]
  · rw [decode.eq_def]
  · rcases pieces with _ | ⟨c' | c' | ⟨x, y, z, u⟩, pieces⟩
    · rw [decode.eq_def]
    · rw [decode.eq_def]
    · rw [decode.eq_def]
    · have hpair := h _ rfl
      rw [decode.eq_def]
      refine if_neg ?_
      rintro ⟨h1, h2, h3, h4⟩
      exact hpair ⟨⟨h1, h2⟩, h3, h4⟩

/-- Without surrogate pairs each escape stands for itself. -/
theorem decode_of_pairFree {pieces : List Piece} (h : PairFree pieces) :
    decode pieces = piecesBytes pieces := by
  induction pieces with
  | nil => rfl
  | cons piece pieces ih =>
      have hhead : ∀ next ∈ pieces.head?, ¬ (piece.IsHigh ∧ next.IsLow) := by
        intro next hnext
        cases pieces with
        | nil => cases hnext
        | cons next' pieces =>
            cases hnext
            exact (List.isChain_cons_cons.mp h).1
      rw [decode_cons hhead, ih (List.IsChain.tail h), piecesBytes_cons]

end Pieces

section Integers

variable {n : Numeral}

theorem numeral_reads_of_rfc (hn : n.Rfc) (hshort : n.text.length ≤ 1024) : n.Reads := by
  refine ⟨?_, hn.nonempty, hn.digits, fun ds hds => (hn.fraction ds hds).2, hn.exponent, hshort⟩
  rcases hn.sign with h | h
  · exact .inl h
  · exact .inr (.inl h)

theorem isDigit_not_sign (hc : isDigit c) : c ≠ minus ∧ c ≠ plus := by
  constructor
  · rintro rfl
    exact absurd hc (by decide)
  · rintro rfl
    exact absurd hc (by decide)

/-- The text of an integer has its value. -/
theorem integerOf_text (hn : n.Rfc) (hfloat : n.isFloat = false) :
    integerOf n.text = n.integer := by
  have htext : n.text = n.sign ++ n.digits := by
    simp only [Numeral.isFloat, Bool.or_eq_false_iff, Option.isSome_eq_false_iff,
      Option.isNone_iff_eq_none] at hfloat
    simp [Numeral.text, Numeral.fractionText, Numeral.exponentText, hfloat.1, hfloat.2]
  rw [htext, Numeral.integer]
  rcases hn.sign with h | h
  · rw [h, if_neg (by decide), List.nil_append]
    cases hdigits : n.digits with
    | nil => exact absurd hdigits hn.nonempty
    | cons d ds =>
        have hd := hn.digits d (by rw [hdigits]; exact List.mem_cons_self)
        obtain ⟨hminus, hplus⟩ := isDigit_not_sign hd
        rw [integerOf, if_neg hminus, if_neg hplus]
  · rw [h, if_pos rfl, List.singleton_append, integerOf, if_pos rfl]

/-- The cell of a number is the one that denotes it. -/
theorem cell_eq_denotes (nums : Numbers) (hn : n.Rfc) : n.cell nums = n.denotes nums := by
  rw [Numeral.cell, Numeral.denotes]
  by_cases hfloat : n.isFloat = true
  · rw [if_pos hfloat, if_pos hfloat]
  · rw [if_neg hfloat, if_neg hfloat, atoll, integerOf_text hn (Bool.not_eq_true _ ▸ hfloat)]
    congr 1
    split_ifs with hlarge hsmall
    · rw [min_eq_left (by omega), max_eq_right (by omega)]
    · rw [min_eq_right (by omega), max_eq_left (by omega)]
    · rw [min_eq_right (by omega), max_eq_right (by omega)]

/-- An integer that fits 64 bits is exact. -/
theorem denotes_exact (nums : Numbers) (hfloat : n.isFloat = false) (hlow : -2 ^ 63 ≤ n.integer)
    (hhigh : n.integer < 2 ^ 63) : ∃ w : Word, n.denotes nums = .long w ∧ w.toInt = n.integer := by
  refine ⟨BitVec.ofInt 64 n.integer, ?_, ?_⟩
  · rw [Numeral.denotes, if_neg (by rw [hfloat]; decide), min_eq_right (by omega),
      max_eq_right hlow]
  · rw [BitVec.toInt_ofInt]
    exact Int.bmod_eq_of_le (by omega) (by omega)

end Integers

section Texts

variable {ends : UInt8 → Bool}

/-- What stands directly behind a number in a text of RFC 8259. -/
theorem follows_blank {d : Doc} {after : List UInt8} {b : UInt8} (hafter : RfcBlank after)
    (hreturn : d.NotBeforeReturn after) (hb : endsNumber b) (tail : List UInt8) :
    d.Follows endsNumber (after ++ b :: tail) := by
  cases d with
  | number n =>
      cases after with
      | nil => exact ⟨b, rfl, hb⟩
      | cons c after =>
          refine ⟨c, rfl, ?_⟩
          have hc : c ≠ carriageReturn := fun h => hreturn (by rw [h]; rfl)
          rcases hafter c List.mem_cons_self with rfl | rfl | rfl | rfl
          · decide
          · decide
          · decide
          · exact absurd rfl hc
  | _ => trivial

mutual

/-- The parser reads the texts of RFC 8259, -/
theorem doc_reads_of_rfc : (d : Doc) → d.Rfc → d.Calm → d.Reads endsNumber
  | .string _, hrfc, _ => pieces_read_of_rfc hrfc
  | .number _, hrfc, hcalm => numeral_reads_of_rfc hrfc hcalm
  | .literal _, _, _ => trivial
  | .emptyObject _, hrfc, _ => blank_of_rfc hrfc
  | .object members, hrfc, hcalm => members_reads_of_rfc members hrfc hcalm
  | .array elements, hrfc, hcalm => elements_reads_of_rfc elements true hrfc hcalm

theorem elements_reads_of_rfc : (e : Elements) → (first : Bool) → e.Rfc first → e.Calm →
    e.Reads endsNumber
  | .close _, _, hrfc, _ => blank_of_rfc hrfc.2
  | .last before d after, _, ⟨hbefore, hd, hafter⟩, ⟨hcalm, hreturn⟩ =>
      ⟨blank_of_rfc hbefore, doc_reads_of_rfc d hd hcalm, blank_of_rfc hafter,
        follows_blank hafter hreturn (by decide) []⟩
  | .more before d after others, _, ⟨hbefore, hd, hafter, hothers⟩,
      ⟨hcalm, hreturn, hcalm'⟩ =>
      ⟨blank_of_rfc hbefore, doc_reads_of_rfc d hd hcalm, blank_of_rfc hafter,
        follows_blank hafter hreturn (by decide) [],
        elements_reads_of_rfc others false hothers hcalm'⟩

theorem members_reads_of_rfc : (m : Members) → m.Rfc → m.Calm → m.Reads endsNumber
  | .last before key middle before' d after,
      ⟨hbefore, hkey, hmiddle, hbefore', hd, hafter⟩, ⟨_, hcalm, hreturn⟩ =>
      ⟨blank_of_rfc hbefore, pieces_read_of_rfc hkey, blank_of_rfc hmiddle,
        blank_of_rfc hbefore', doc_reads_of_rfc d hd hcalm, blank_of_rfc hafter,
        follows_blank hafter hreturn (by decide) []⟩
  | .more before key middle before' d after others,
      ⟨hbefore, hkey, hmiddle, hbefore', hd, hafter, hothers⟩,
      ⟨_, hcalm, hreturn, hcalm'⟩ =>
      ⟨blank_of_rfc hbefore, pieces_read_of_rfc hkey, blank_of_rfc hmiddle,
        blank_of_rfc hbefore', doc_reads_of_rfc d hd hcalm, blank_of_rfc hafter,
        follows_blank hafter hreturn (by decide) [],
        members_reads_of_rfc others hothers hcalm'⟩

end

mutual

/-- and makes of them the cells that denote them. -/
theorem doc_read_of_rfc (nums : Numbers) : (d : Doc) → d.Rfc → d.Calm →
    d.read nums = d.cell decode fun n => n.denotes nums
  | .string pieces, _, hcalm => by
      rw [Doc.read, Doc.cell, Doc.cell, decode_of_pairFree hcalm]
  | .number n, hrfc, _ => by
      rw [Doc.read, Doc.cell, Doc.cell, cell_eq_denotes nums hrfc]
  | .literal l, _, _ => by rw [Doc.read, Doc.cell, Doc.cell]
  | .emptyObject inner, _, _ => by rw [Doc.read, Doc.cell, Doc.cell]
  | .object members, hrfc, hcalm => by
      have h := members_read_of_rfc nums members hrfc hcalm
      rw [Members.read] at h
      rw [Doc.read, Doc.cell, Doc.cell, h]
  | .array elements, hrfc, hcalm => by
      have h := elements_read_of_rfc nums elements true hrfc hcalm
      rw [Elements.read] at h
      rw [Doc.read, Doc.cell, Doc.cell, h]

theorem elements_read_of_rfc (nums : Numbers) : (e : Elements) → (first : Bool) →
    e.Rfc first → e.Calm → e.read nums = e.cells decode fun n => n.denotes nums
  | .close inner, _, _, _ => by rw [Elements.read, Elements.cells, Elements.cells]
  | .last before d after, _, hrfc, hcalm => by
      have h := doc_read_of_rfc nums d hrfc.2.1 hcalm.1
      rw [Doc.read] at h
      rw [Elements.read, Elements.cells, Elements.cells, h]
  | .more before d after others, _, hrfc, hcalm => by
      have h := doc_read_of_rfc nums d hrfc.2.1 hcalm.1
      have hothers := elements_read_of_rfc nums others false hrfc.2.2.2 hcalm.2.2
      rw [Doc.read] at h
      rw [Elements.read] at hothers
      rw [Elements.read, Elements.cells, Elements.cells, h, hothers]

theorem members_read_of_rfc (nums : Numbers) : (m : Members) → m.Rfc → m.Calm →
    m.read nums = m.cells decode fun n => n.denotes nums
  | .last before key middle before' d after, hrfc, hcalm => by
      have h := doc_read_of_rfc nums d hrfc.2.2.2.2.1 hcalm.2.1
      rw [Doc.read] at h
      rw [Members.read, Members.cells, Members.cells, h, decode_of_pairFree hcalm.1]
  | .more before key middle before' d after others, hrfc, hcalm => by
      have h := doc_read_of_rfc nums d hrfc.2.2.2.2.1 hcalm.2.1
      have hothers := members_read_of_rfc nums others hrfc.2.2.2.2.2.2 hcalm.2.2.2
      rw [Doc.read] at h
      rw [Members.read] at hothers
      rw [Members.read, Members.cells, Members.cells, h, hothers, decode_of_pairFree hcalm.1]

end

theorem follows_mono {ends' : UInt8 → Bool} (hends : ∀ c, ends c → ends' c) {d : Doc}
    {rest : List UInt8} (h : d.Follows ends rest) : d.Follows ends' rest := by
  cases d with
  | number n =>
      obtain ⟨c, hc, hc'⟩ := h
      exact ⟨c, hc, hends c hc'⟩
  | _ => trivial

mutual

/-- More bytes may end a number in the wider grammar. -/
theorem doc_reads_mono {ends' : UInt8 → Bool} (hends : ∀ c, ends c → ends' c) :
    (d : Doc) → d.Reads ends → d.Reads ends'
  | .string _, h => h
  | .number _, h => h
  | .literal _, h => h
  | .emptyObject _, h => h
  | .object members, h => members_reads_mono hends members h
  | .array elements, h => elements_reads_mono hends elements h

theorem elements_reads_mono {ends' : UInt8 → Bool} (hends : ∀ c, ends c → ends' c) :
    (e : Elements) → e.Reads ends → e.Reads ends'
  | .close _, h => h
  | .last _ d _, ⟨hbefore, hd, hafter, hfollows⟩ =>
      ⟨hbefore, doc_reads_mono hends d hd, hafter, follows_mono hends hfollows⟩
  | .more _ d _ others, ⟨hbefore, hd, hafter, hfollows, hothers⟩ =>
      ⟨hbefore, doc_reads_mono hends d hd, hafter, follows_mono hends hfollows,
        elements_reads_mono hends others hothers⟩

theorem members_reads_mono {ends' : UInt8 → Bool} (hends : ∀ c, ends c → ends' c) :
    (m : Members) → m.Reads ends → m.Reads ends'
  | .last _ _ _ _ d _, ⟨hbefore, hkey, hmiddle, hbefore', hd, hafter, hfollows⟩ =>
      ⟨hbefore, hkey, hmiddle, hbefore', doc_reads_mono hends d hd, hafter,
        follows_mono hends hfollows⟩
  | .more _ _ _ _ d _ others,
      ⟨hbefore, hkey, hmiddle, hbefore', hd, hafter, hfollows, hothers⟩ =>
      ⟨hbefore, hkey, hmiddle, hbefore', doc_reads_mono hends d hd, hafter,
        follows_mono hends hfollows, members_reads_mono hends others hothers⟩

end

end Texts

section Inputs

/-- The input begins with a document the parser is written for, where a number may be followed
by the bytes of `ends`. -/
structure Begins (ends : UInt8 → Bool) (s before : List UInt8) (d : Doc) (rest : List UInt8) :
    Prop where
  blank : Blank before
  reads : d.Reads ends
  follows : d.Follows ends (rest ++ [0])
  text : s = before ++ d.text ++ rest

theorem p_JSONparse_of_begins (nums : Numbers) {s before rest : List UInt8} {d : Doc}
    (h : Begins endsNumber s before d rest) :
    p_JSONparse nums s = .ok (d.read nums) (rest ++ [0]) := by
  have htext : s ++ [0] = before ++ (d.text ++ (rest ++ [0])) := by
    rw [h.text]
    simp
  have hends := p_JSONparse_ends nums s
  rw [p_JSONparse, htext] at hends ⊢
  exact getJSONvalue_of_doc _ d before _ h.blank h.reads h.follows hends

theorem begins_of_rfc {s before after : List UInt8} {d : Doc} (h : RfcText before d after)
    (hcalm : d.Calm) (hreturn : d.NotBeforeReturn after) (hs : s = before ++ d.text ++ after) :
    Begins endsNumber s before d after :=
  ⟨blank_of_rfc h.blankBefore, doc_reads_of_rfc d h.rfc hcalm,
    follows_blank h.blankAfter hreturn (by decide) [], hs⟩

/-- What is read is a document the input begins with. -/
theorem begins_of_ok {s : List UInt8} {cell : Cell} (h : p_JSONparse nums s = .ok cell rest) :
    ∃ before d rest, Begins endsOrReturn s before d rest := by
  have hstands := (stands_of_getJSON nums _ _).1 _ _ h
  obtain ⟨tail, rfl⟩ := List.getLast?_eq_some_iff.mp
    (ended_of_stands (ended_memory s) hstands)
  obtain ⟨before, d, hbefore, hd, hfollows, htext, -⟩ := hstands
  have hends : ∀ c, endsNumber c → endsOrReturn c := by
    intro c hc
    rw [endsOrReturn, hc]
    rfl
  refine ⟨before, d, tail, hbefore, doc_reads_mono hends d hd, follows_mono hends hfollows, ?_⟩
  rw [← List.append_assoc, ← List.append_assoc, List.append_cancel_right_eq] at htext
  exact htext

/-- A string runs over the terminating zero behind a backslash in front of it. -/
theorem scanToken_overrun (hq : Ended q) (h : scanToken q = .overrun) :
    ∃ x, q = x ++ [backslash, 0] := by
  induction hn : q.length using Nat.strongRecOn generalizing q with
  | ind n ih =>
      have hstep : ∀ {r : List UInt8} {f : List UInt8 → List UInt8}, r.length < n → Ended r →
          (scanToken r).map f = .overrun → ∃ x, r = x ++ [backslash, 0] := by
        intro r f hlt hr hmap
        refine ih _ hlt hr ?_ rfl
        cases hscan : scanToken r <;> rw [hscan] at hmap <;> cases hmap
      rcases scan_cases q with rfl | ⟨q, rfl⟩ | ⟨q, rfl⟩ | rfl | ⟨d, q, rfl⟩ |
        ⟨c, q, rfl, hquote, hzero, hbackslash⟩
      · exact absurd rfl (ended_ne_nil hq)
      · rw [scanToken_quote] at h
        cases h
      · rw [scanToken_zero] at h
        cases h
      · exact absurd hq (by rw [Ended]; decide)
      · rw [scanToken_backslash] at h
        cases q with
        | nil =>
            have hd : d = 0 := by simpa [Ended] using hq
            exact ⟨[], by rw [hd]; rfl⟩
        | cons e q =>
            have hq' : Ended (e :: q) := by simpa [Ended] using hq
            obtain ⟨x, hx⟩ := hstep (by simp only [← hn, List.length_cons]; omega) hq' h
            exact ⟨backslash :: d :: x, by rw [hx]; rfl⟩
      · rw [scanToken_plain hquote hzero hbackslash] at h
        obtain ⟨x, hx⟩ := hstep (by simp only [← hn, List.length_cons]; omega)
          (ended_cons hq hzero) h
        exact ⟨c :: x, by rw [hx]; rfl⟩

theorem overrun_trouble (memory : List UInt8) : Trouble memory fun x => x = .overrun :=
  ⟨fun _ => nofun, fun _ _ _ _ => nofun, nofun⟩

/-- Only a backslash at the very end lets the parser run over the zero. -/
theorem p_JSONparse_overrun {s : List UInt8} (h : p_JSONparse nums s = .overrun) :
    s.getLast? = some backslash := by
  have herase : runPart nums (2 * s.length + 3) .value (s ++ [0]) = .overrun := by
    rw [p_JSONparse] at h
    rw [runPart, h]
    rfl
  obtain ⟨q, hcomes, hq⟩ := (overrun_trouble (s ++ [0])).located nums _ _ _ (ended_memory s)
    List.suffix_rfl herase
  obtain ⟨hended, hsuffix⟩ := comes_inside hcomes (ended_memory s) List.suffix_rfl
  have hscan : scanToken q = .overrun := by
    cases hscan : scanToken q <;> rw [hscan] at hq <;> cases hq
  obtain ⟨x, rfl⟩ := scanToken_overrun hended hscan
  obtain ⟨y, hy⟩ := hsuffix
  have hs : s = y ++ x ++ [backslash] := by
    have heq : (y ++ x ++ [backslash]) ++ [0] = s ++ [0] := by
      rw [← hy]
      simp
    exact (List.append_cancel_right heq).symm
  rw [hs, List.getLast?_append]
  rfl

/-- The texts of RFC 8259 are read as what they denote, with the integers of 64 bits exact; the
parser is written for a wider grammar, and every input that does not begin with a document of
it is an error. -/
theorem p_JSONparse_grammar (nums : Numbers) (s : List UInt8) :
    (∀ before d after, RfcText before d after → d.Calm → d.NotBeforeReturn after →
      s = before ++ d.text ++ after →
      p_JSONparse nums s = .ok (d.cell decode fun n => n.denotes nums) (after ++ [0])) ∧
    (∀ n : Numeral, n.isFloat = false → -2 ^ 63 ≤ n.integer → n.integer < 2 ^ 63 →
      ∃ w : Word, n.denotes nums = .long w ∧ w.toInt = n.integer) ∧
    (∀ before d rest, Begins endsNumber s before d rest →
      p_JSONparse nums s = .ok (d.read nums) (rest ++ [0])) ∧
    ((¬ ∃ before d rest, Begins endsOrReturn s before d rest) →
      (∃ e jsonStr, p_JSONparse nums s = .error e jsonStr) ∨
        (p_JSONparse nums s = .overrun ∧ s.getLast? = some backslash)) := by
  refine ⟨?_, fun n => denotes_exact nums, ?_, ?_⟩
  · intro before d after hrfc hcalm hreturn hs
    rw [p_JSONparse_of_begins nums (begins_of_rfc hrfc hcalm hreturn hs),
      doc_read_of_rfc nums d hrfc.rfc hcalm]
  · intro before d rest h
    exact p_JSONparse_of_begins nums h
  · intro hnone
    cases h : p_JSONparse nums s with
    | ok cell rest => exact absurd (begins_of_ok h) hnone
    | error e j => exact .inl ⟨e, j, rfl⟩
    | overrun => exact .inr ⟨rfl, p_JSONparse_overrun h⟩
    | timeout => exact absurd h (p_JSONparse_ends nums s)

theorem isUtf8_chars (s : List UInt8)
    (h : s = (s.map fun b => Char.ofNat b.toNat).flatMap String.utf8EncodeChar) : IsUtf8 s :=
  ⟨_, h⟩

theorem rfcBlank_nil : RfcBlank [] := by
  intro c hc
  cases hc

def one : Doc := .number ⟨[], [49], none, none⟩

theorem rfc_one : one.Rfc := by
  refine ⟨.inl rfl, by decide, ?_, fun h => absurd h (by decide), by simp, by simp⟩
  intro c hc
  rw [List.mem_singleton.mp hc]
  decide

/-- `[1]` is read as what it denotes. -/
theorem p_JSONparse_grammar_array :
    p_JSONparse wholeNumbers (ascii "[1]") = .ok (.expression [.long 1]) [0] := by
  have hrfc : RfcText [] (.array (.last [] one [])) [] :=
    ⟨rfcBlank_nil, ⟨rfcBlank_nil, rfc_one, rfcBlank_nil⟩, rfcBlank_nil,
      isUtf8_chars [91, 49, 93] (by decide)⟩
  have hread := (p_JSONparse_grammar wholeNumbers (ascii "[1]")).1 [] (.array (.last [] one [])) []
    hrfc ⟨show 1 ≤ 1024 by decide, nofun⟩ trivial (by decide)
  rw [hread]
  rfl

/-- A text of RFC 8259 begins with its value where it does not begin with white space. -/
theorem rfc_first {before after t : List UInt8} {d : Doc} (h : RfcText before d after)
    (hs : c :: t = before ++ d.text ++ after) (hc : ¬ c ≤ space) :
    d.text ++ after = c :: t ∧ (c = quote ∨ isDigit c ∨ c = minus ∨ c = leftBrace ∨
      c = leftBracket ∨ ∃ l, d = .literal l) := by
  have hbefore : before = [] := by
    cases before with
    | nil => rfl
    | cons b before =>
        cases hs
        rcases h.blankBefore c List.mem_cons_self with rfl | rfl | rfl | rfl <;>
          exact absurd (by decide) hc
  subst hbefore
  rw [List.nil_append] at hs
  refine ⟨hs.symm, ?_⟩
  have hfirst : ∀ {b : UInt8} {u : List UInt8}, d.text = b :: u → c = b := by
    intro b u htext
    rw [htext] at hs
    cases hs
    rfl
  cases d with
  | string pieces => exact .inl (hfirst rfl)
  | number n =>
      have hn : n.Rfc := h.rfc
      rcases hn.sign with hsign | hsign
      · cases hdigits : n.digits with
        | nil => exact absurd hdigits hn.nonempty
        | cons b ds =>
            have hb := hn.digits b (by rw [hdigits]; exact List.mem_cons_self)
            have hcb := hfirst (b := b) (u := ds ++ n.fractionText ++ n.exponentText) (by
              rw [Doc.text, Numeral.text, hsign, hdigits]
              rfl)
            exact .inr (.inl (hcb ▸ hb))
      · have hcb := hfirst (b := minus) (u := n.digits ++ n.fractionText ++ n.exponentText) (by
          rw [Doc.text, Numeral.text, hsign]
          rfl)
        exact .inr (.inr (.inl hcb))
  | literal l => exact .inr (.inr (.inr (.inr (.inr ⟨l, rfl⟩))))
  | emptyObject inner => exact .inr (.inr (.inr (.inl (hfirst rfl))))
  | object members => exact .inr (.inr (.inr (.inl (hfirst rfl))))
  | array elements => exact .inr (.inr (.inr (.inr (.inl (hfirst rfl)))))

/-- A plus sign begins no text of RFC 8259, -/
theorem plus_not_rfc : ¬ ∃ before d after, RfcText before d after ∧
    ascii "+1" = before ++ d.text ++ after := by
  rintro ⟨before, d, after, hrfc, hs⟩
  have htext : ascii "+1" = plus :: [49] := by decide
  rw [htext] at hs
  obtain ⟨happend, h | h | h | h | h | ⟨l, rfl⟩⟩ := rfc_first hrfc hs (by decide)
  · exact absurd h (by decide)
  · exact absurd h (by decide)
  · exact absurd h (by decide)
  · exact absurd h (by decide)
  · exact absurd h (by decide)
  · have hhead := congrArg List.head? happend
    cases l <;> exact absurd hhead (by simp [Doc.text, Literal.text, ascii, plus])

/-- and nothing but white space stands behind one. -/
theorem trailing_not_rfc : ¬ ∃ before d after, RfcText before d after ∧
    ascii "truex" = before ++ d.text ++ after := by
  rintro ⟨before, d, after, hrfc, hs⟩
  have htext : ascii "truex" = 116 :: [114, 117, 101, 120] := by decide
  rw [htext] at hs
  obtain ⟨happend, h | h | h | h | h | ⟨l, rfl⟩⟩ := rfc_first hrfc hs (by decide)
  · exact absurd h (by decide)
  · exact absurd h (by decide)
  · exact absurd h (by decide)
  · exact absurd h (by decide)
  · exact absurd h (by decide)
  · cases l with
    | true =>
        have hafter : after = [120] := by
          have hsplit :
              ([116, 114, 117, 101] : List UInt8) ++ after = [116, 114, 117, 101] ++ [120] :=
            happend
          exact List.append_cancel_left hsplit
        have hblank := hrfc.blankAfter 120 (by rw [hafter]; exact List.mem_cons_self)
        exact absurd hblank (by decide)
    | false => exact absurd (congrArg List.head? happend) (by simp [Doc.text, Literal.text, ascii])
    | null => exact absurd (congrArg List.head? happend) (by simp [Doc.text, Literal.text, ascii])

/-- A number of more than 1024 digits is an error. -/
theorem long_number (nums : Numbers) {k : Nat} (hk : 1024 ≤ k) :
    p_JSONparse nums (List.replicate (k + 1) 49) = .error .invalidNumber [0] := by
  have hdigits : ∀ c ∈ List.replicate k (49 : UInt8), isDigit c := by
    intro c hc
    rw [List.eq_of_mem_replicate hc]
    decide
  have hzero : ∀ c ∈ ([0] : List UInt8).head?, ¬ isDigit c := by
    intro c hc
    cases hc
    decide
  have hskip : skip (List.replicate (k + 1) 49 ++ [0]) = 49 :: (List.replicate k 49 ++ [0]) :=
    skip_cons (by decide)
  have hstarts : startsNumber 49 (List.replicate k 49 ++ [0]) := by
    rw [startsNumber, show isDigit 49 = true by decide]
    rfl
  rw [p_JSONparse, getJSONvalue_succ hskip, if_neg (by decide), if_pos hstarts, getJSONnumber,
    takeWhile_digits hdigits hzero, dropWhile_digits hdigits hzero]
  have hfraction : scanFraction [0] = ([], [0], false) := by rfl
  have hexponent : scanExponent [0] = (some ([], [0], false), [0]) := by rfl
  simp only [hfraction, hexponent]
  rw [if_neg (by decide), if_pos (by simp; omega)]

/-- The two halves of a surrogate pair. -/
def surrogatePair : Doc := .string [.unicode 100 56 51 100, .unicode 100 101 48 48]

/-- A number of many digits. -/
def longNumber (k : Nat) : Doc := .number ⟨[], List.replicate (k + 1) 49, none, none⟩

theorem text_longNumber (k : Nat) : (longNumber k).text = List.replicate (k + 1) 49 := by
  simp [longNumber, Doc.text, Numeral.text, Numeral.fractionText, Numeral.exponentText]

theorem rfc_longNumber (k : Nat) : RfcText [] (longNumber k) [] := by
  have hnumeral : (⟨[], List.replicate (k + 1) 49, none, none⟩ : Numeral).Rfc := by
    refine ⟨.inl rfl, by simp, ?_, ?_, by simp, by simp⟩
    · intro c hc
      rw [List.eq_of_mem_replicate hc]
      decide
    · rw [List.replicate_succ, List.head?_cons]
      exact fun h => absurd h (by decide)
  refine ⟨rfcBlank_nil, hnumeral, rfcBlank_nil, List.replicate (k + 1) '1', ?_⟩
  have hone : String.utf8EncodeChar '1' = [49] := by decide
  have hflat : ∀ n : Nat, (List.replicate n '1').flatMap String.utf8EncodeChar =
      List.replicate n 49 := by
    intro n
    induction n with
    | zero => rfl
    | succ n ih =>
        rw [List.replicate_succ, List.flatMap_cons, ih, hone, List.replicate_succ]
        rfl
  rw [hflat, text_longNumber, List.nil_append, List.append_nil]

/-- A number in front of a carriage return and one of 1025 digits are errors, a plus sign and
what stands behind the value are accepted, and the halves of a surrogate pair are two
characters. -/
theorem p_JSONparse_not_rfc :
    (RfcText [] one [carriageReturn] ∧ p_JSONparse wholeNumbers [49, carriageReturn] =
      .error .invalidNumber [carriageReturn, 0]) ∧
    (RfcText [] (longNumber 1024) [] ∧
      p_JSONparse wholeNumbers (longNumber 1024).text = .error .invalidNumber [0]) ∧
    (p_JSONparse wholeNumbers (ascii "+1") = .ok (.long 1) [0] ∧
      ¬ ∃ before d after, RfcText before d after ∧ ascii "+1" = before ++ d.text ++ after) ∧
    (p_JSONparse wholeNumbers (ascii "truex") = .ok (.symbol trueSymbol) [120, 0] ∧
      ¬ ∃ before d after, RfcText before d after ∧
        ascii "truex" = before ++ d.text ++ after) ∧
    (RfcText [] surrogatePair [] ∧ p_JSONparse wholeNumbers surrogatePair.text ≠
      .ok (surrogatePair.cell decode fun n => n.denotes wholeNumbers) [0]) := by
  refine ⟨⟨⟨rfcBlank_nil, rfc_one, ?_, isUtf8_chars [49, 13] (by decide)⟩, by rfl⟩,
    ⟨rfc_longNumber 1024, by rw [text_longNumber]; exact long_number _ le_rfl⟩,
    ⟨by rfl, plus_not_rfc⟩, ⟨by rfl, trailing_not_rfc⟩, ⟨rfcBlank_nil, ?_, rfcBlank_nil, ?_⟩, ?_⟩
  · intro c hc
    exact .inr (.inr (.inr (List.mem_singleton.mp hc)))
  · intro piece hpiece
    simp only [List.mem_cons, List.not_mem_nil, or_false] at hpiece
    rcases hpiece with rfl | rfl
    · exact ⟨by decide, by decide, by decide, by decide⟩
    · exact ⟨by decide, by decide, by decide, by decide⟩
  · exact isUtf8_chars surrogatePair.text (by decide)
  · have hread : p_JSONparse wholeNumbers surrogatePair.text =
        .ok (.string [0xed, 0xa0, 0xbd, 0xed, 0xb8, 0x80]) [0] := by rfl
    rw [hread]
    intro h
    injection h with hcell
    injection hcell with hbytes
    exact absurd hbytes (by decide)

end Inputs

end NewLispNeo.Json
