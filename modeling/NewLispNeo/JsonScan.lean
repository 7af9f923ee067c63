/-
The tokens of the JSON parser: white space, strings and numbers are read exactly where their
text stands.
-/
import NewLispNeo.JsonDoc
import Mathlib.Data.List.TakeWhile

namespace NewLispNeo.Json

section Skip

variable {w p : List UInt8}

theorem blank_nil : Blank [] := by
  intro c hc
  cases hc

theorem skip_cons_eq (c : UInt8) (p : List UInt8) :
    skip (c :: p) = if c ≤ space ∧ c ≠ 0 then skip p else c :: p := rfl

theorem skip_append (hw : Blank w) : skip (w ++ p) = skip p := by
  induction w with
  | nil => rfl
  | cons c w ih =>
      rw [List.cons_append, skip_cons_eq, if_pos (hw c List.mem_cons_self)]
      exact ih fun d hd => hw d (List.mem_cons_of_mem c hd)

theorem skip_cons {c : UInt8} (hc : ¬ (c ≤ space ∧ c ≠ 0)) : skip (c :: p) = c :: p := by
  rw [skip_cons_eq, if_neg hc]

/-- White space is skipped up to a byte that is none. -/
theorem skip_blank {c : UInt8} (hw : Blank w) (hc : ¬ (c ≤ space ∧ c ≠ 0)) :
    skip (w ++ c :: p) = c :: p := by
  rw [skip_append hw, skip_cons hc]

theorem skip_spec (p : List UInt8) : ∃ w, Blank w ∧ p = w ++ skip p := by
  induction p with
  | nil => exact ⟨[], blank_nil, rfl⟩
  | cons c p ih =>
      by_cases hc : c ≤ space ∧ c ≠ 0
      · obtain ⟨w, hw, hp⟩ := ih
        refine ⟨c :: w, ?_, ?_⟩
        · intro d hd
          rcases List.mem_cons.mp hd with rfl | hd
          · exact hc
          · exact hw d hd
        · rw [skip_cons_eq, if_pos hc, List.cons_append, ← hp]
      · exact ⟨[], blank_nil, by rw [skip_cons hc, List.nil_append]⟩

theorem skip_not_blank {c : UInt8} (h : skip p = c :: w) : ¬ (c ≤ space ∧ c ≠ 0) := by
  induction p with
  | nil => cases h
  | cons d p ih =>
      by_cases hd : d ≤ space ∧ d ≠ 0
      · rw [skip_cons_eq, if_pos hd] at h
        exact ih h
      · rw [skip_cons_eq, if_neg hd] at h
        cases h
        exact hd

theorem skip_skip (h : skip p = w) : skip w = w := by
  cases w with
  | nil => rfl
  | cons c w => exact skip_cons (skip_not_blank h)

theorem length_skip_le (p : List UInt8) : (skip p).length ≤ p.length := by
  obtain ⟨w, -, hp⟩ := skip_spec p
  have hlen := congrArg List.length hp
  rw [List.length_append] at hlen
  omega

end Skip

section Strings

variable {pieces : List Piece}

theorem piecesText_cons (piece : Piece) (pieces : List Piece) :
    piecesText (piece :: pieces) = piece.text ++ piecesText pieces := List.flatMap_cons

theorem piecesBytes_cons (piece : Piece) (pieces : List Piece) :
    piecesBytes (piece :: pieces) = piece.bytes ++ piecesBytes pieces := List.flatMap_cons

/-- A hexadecimal digit is a plain byte. -/
theorem plain_of_isHexDigit {b : UInt8} (hb : isHexDigit b) :
    b ≠ quote ∧ b ≠ 0 ∧ b ≠ backslash := by
  refine ⟨?_, ?_, ?_⟩ <;> rintro rfl <;> exact absurd hb (by decide)

theorem body_hexDigit {b : UInt8} {body : List UInt8} (hb : isHexDigit b) (h : Body body) :
    Body (b :: body) :=
  have ⟨hquote, hzero, hbackslash⟩ := plain_of_isHexDigit hb
  .plain hquote hzero hbackslash h

theorem body_piecesText (h : ∀ piece ∈ pieces, piece.Reads) : Body (piecesText pieces) := by
  induction pieces with
  | nil => exact .nil
  | cons piece pieces ih =>
      have hrest := ih fun p hp => h p (List.mem_cons_of_mem piece hp)
      have hpiece := h piece List.mem_cons_self
      rw [piecesText_cons]
      cases piece with
      | plain c => exact .plain hpiece.1 hpiece.2.1 hpiece.2.2 hrest
      | escape c => exact .escaped hrest
      | unicode a b c d =>
          obtain ⟨ha, hb, hc, hd⟩ := hpiece
          exact .escaped (body_hexDigit ha (body_hexDigit hb (body_hexDigit hc
            (body_hexDigit hd hrest))))

attribute [local simp] xlate in
theorem xlate_escape {d : UInt8} (hd : d ≠ 117) (token : List UInt8) :
    xlate (backslash :: d :: token) = (xlate token).map (escapeByte d :: ·) := by
  rw [xlate.eq_def]
  simp [hd]

theorem xlate_unicode {a b c d : UInt8} (ha : isHexDigit a) (hb : isHexDigit b)
    (hc : isHexDigit c) (hd : isHexDigit d) (token : List UInt8) :
    xlate (backslash :: 117 :: a :: b :: c :: d :: token) =
      (xlate token).map (Utf8.wcharUtf8 (hexNumber a b c d) ++ ·) := by
  rw [xlate.eq_def]
  simp [ha, hb, hc, hd]

theorem xlate_plain {c : UInt8} (hc : c ≠ backslash) (token : List UInt8) :
    xlate (c :: token) = (xlate token).map (c :: ·) := by
  rw [xlate.eq_def]
  cases token with
  | nil => simp [hc, xlate]
  | cons d token => simp [hc]

theorem xlate_piecesText (h : ∀ piece ∈ pieces, piece.Reads) :
    xlate (piecesText pieces) = some (piecesBytes pieces) := by
  induction pieces with
  | nil => rfl
  | cons piece pieces ih =>
      have hrest := ih fun p hp => h p (List.mem_cons_of_mem piece hp)
      have hpiece := h piece List.mem_cons_self
      rw [piecesText_cons, piecesBytes_cons]
      cases piece with
      | plain c =>
          rw [Piece.text, List.singleton_append, xlate_plain hpiece.2.2, hrest]
          rfl
      | escape c =>
          rw [Piece.text, List.cons_append, List.cons_append, List.nil_append,
            xlate_escape hpiece, hrest]
          rfl
      | unicode a b c d =>
          obtain ⟨ha, hb, hc, hd⟩ := hpiece
          simp only [Piece.text, List.cons_append, List.nil_append]
          rw [xlate_unicode ha hb hc hd, hrest]
          rfl

theorem pieces_cons (piece : Piece) {token bytes : List UInt8} (hpiece : piece.Reads)
    (h : ∃ pieces : List Piece, (∀ p ∈ pieces, p.Reads) ∧ token = piecesText pieces ∧
      bytes = piecesBytes pieces) :
    ∃ pieces : List Piece, (∀ p ∈ pieces, p.Reads) ∧ piece.text ++ token = piecesText pieces ∧
      piece.bytes ++ bytes = piecesBytes pieces := by
  obtain ⟨pieces, hpieces, rfl, rfl⟩ := h
  refine ⟨piece :: pieces, ?_, rfl, rfl⟩
  intro p hp
  rcases List.mem_cons.mp hp with rfl | hp
  · exact hpiece
  · exact hpieces p hp

/-- Behind `\u` stand four digits. -/
theorem digits_of_xlate {body bytes : List UInt8}
    (h : xlate (backslash :: 117 :: body) = some bytes) :
    ∃ a b c d body', body = a :: b :: c :: d :: body' ∧ isHexDigit a ∧ isHexDigit b ∧
      isHexDigit c ∧ isHexDigit d := by
  rw [xlate.eq_def] at h
  rcases body with _ | ⟨a, _ | ⟨b, _ | ⟨c, _ | ⟨d, body'⟩⟩⟩⟩
  · simp at h
  · simp at h
  · simp at h
  · simp at h
  · by_cases hhex : isHexDigit a && isHexDigit b && isHexDigit c && isHexDigit d
    · simp only [Bool.and_eq_true] at hhex
      exact ⟨a, b, c, d, body', rfl, hhex.1.1.1, hhex.1.1.2, hhex.1.2, hhex.2⟩
    · simp [hhex] at h

theorem body_of_hexDigit {b : UInt8} {body : List UInt8} (hb : isHexDigit b)
    (h : Body (b :: body)) : Body body := by
  cases h with
  | plain _ _ _ h => exact h
  | escaped _ => exact absurd hb (by decide)

theorem body_of_digits {a b c d : UInt8} {body : List UInt8} (ha : isHexDigit a)
    (hb : isHexDigit b) (hc : isHexDigit c) (hd : isHexDigit d)
    (h : Body (a :: b :: c :: d :: body)) : Body body :=
  body_of_hexDigit hd (body_of_hexDigit hc (body_of_hexDigit hb (body_of_hexDigit ha h)))

theorem pieces_of_xlate {token bytes : List UInt8} (hbody : Body token)
    (h : xlate token = some bytes) :
    ∃ pieces : List Piece, (∀ p ∈ pieces, p.Reads) ∧ token = piecesText pieces ∧
      bytes = piecesBytes pieces := by
  induction hn : token.length using Nat.strongRecOn generalizing token bytes with
  | ind n ih =>
      cases hbody with
      | nil =>
          cases h
          exact ⟨[], by simp, rfl, rfl⟩
      | @plain c body hquote hzero hbackslash hbody =>
          rw [xlate_plain hbackslash] at h
          obtain ⟨bytes', hbytes, rfl⟩ := Option.map_eq_some_iff.mp h
          exact pieces_cons (.plain c) ⟨hquote, hzero, hbackslash⟩
            (ih _ (by simp only [← hn, List.length_cons]; omega) hbody hbytes rfl)
      | @escaped d body hbody =>
          by_cases hd : d = 117
          · subst hd
            obtain ⟨a, b, c, d, body', rfl, ha, hb, hc, hd⟩ := digits_of_xlate h
            rw [xlate_unicode ha hb hc hd] at h
            obtain ⟨bytes', hbytes, rfl⟩ := Option.map_eq_some_iff.mp h
            exact pieces_cons (.unicode a b c d) ⟨ha, hb, hc, hd⟩
              (ih _ (by simp only [← hn, List.length_cons]; omega)
                (body_of_digits ha hb hc hd hbody) hbytes rfl)
          · rw [xlate_escape hd] at h
            obtain ⟨bytes', hbytes, rfl⟩ := Option.map_eq_some_iff.mp h
            exact pieces_cons (.escape d) hd
              (ih _ (by simp only [← hn, List.length_cons]; omega) hbody hbytes rfl)

theorem quote_not_blank : ¬ (quote ≤ space ∧ quote ≠ 0) := by decide

/-- A string is read where it stands, -/
theorem getJSONstring_of_pieces {w : List UInt8} (hw : Blank w)
    (h : ∀ piece ∈ pieces, piece.Reads) (rest : List UInt8) :
    getJSONstring (w ++ (quoted pieces ++ rest)) = .ok (piecesBytes pieces) rest := by
  have htext : quoted pieces ++ rest = quote :: (piecesText pieces ++ quote :: rest) := by
    simp [quoted]
  rw [getJSONstring, htext, skip_blank hw quote_not_blank]
  simp only [if_true, scanToken_of_body (body_piecesText h), Parsed.andThen, xlate_piecesText h]

theorem andThen_eq_ok {α β : Type} {x : Parsed α} {f : α → List UInt8 → Parsed β} {b : β}
    {rest : List UInt8} (h : x.andThen f = .ok b rest) :
    ∃ a r, x = .ok a r ∧ f a r = .ok b rest := by
  cases x with
  | ok a r => exact ⟨a, r, rfl, h⟩
  | _ => cases h

/-- and nothing else is read as a string. -/
theorem pieces_of_getJSONstring {p bytes rest : List UInt8}
    (h : getJSONstring p = .ok bytes rest) :
    ∃ w pieces, Blank w ∧ (∀ piece ∈ pieces, Piece.Reads piece) ∧
      p = w ++ (quoted pieces ++ rest) ∧ bytes = piecesBytes pieces := by
  obtain ⟨w, hw, hp⟩ := skip_spec p
  rw [getJSONstring] at h
  cases hskip : skip p with
  | nil =>
      rw [hskip] at h
      cases h
  | cons c q =>
      rw [hskip] at h hp
      by_cases hquote : c = quote
      · subst hquote
        simp only [if_true] at h
        obtain ⟨token, r, hscan, hx⟩ := andThen_eq_ok h
        obtain ⟨rfl, hbody⟩ := body_of_scanToken hscan
        cases hxlate : xlate token with
        | none =>
            rw [hxlate] at hx
            cases hx
        | some xlated =>
            rw [hxlate] at hx
            cases hx
            obtain ⟨pieces, hpieces, rfl, rfl⟩ := pieces_of_xlate hbody hxlate
            exact ⟨w, pieces, hw, hpieces, by rw [hp]; simp [quoted], rfl⟩
      · simp only [if_neg hquote] at h
        cases h

end Strings

section Digits

variable {ds q : List UInt8}

theorem takeWhile_digits (hds : ∀ c ∈ ds, isDigit c) (hq : ∀ c ∈ q.head?, ¬ isDigit c) :
    (ds ++ q).takeWhile isDigit = ds := by
  rw [List.takeWhile_append_of_pos (by simpa using hds)]
  cases q with
  | nil => simp
  | cons c q => simp [hq c rfl]

theorem dropWhile_digits (hds : ∀ c ∈ ds, isDigit c) (hq : ∀ c ∈ q.head?, ¬ isDigit c) :
    (ds ++ q).dropWhile isDigit = q := by
  rw [List.dropWhile_append_of_pos (by simpa using hds)]
  cases q with
  | nil => simp
  | cons c q => simp [hq c rfl]

theorem mem_takeWhile {p : List UInt8} : ∀ c ∈ p.takeWhile isDigit, isDigit c := by
  intro c hc
  exact List.mem_takeWhile_imp hc

end Digits

section Numerals

variable {fraction : Option (List UInt8)} {exponent : Option (UInt8 × List UInt8 × List UInt8)}
  {p q rest : List UInt8}

theorem scanFraction_period (p : List UInt8) :
    scanFraction (period :: p) = (period :: p.takeWhile isDigit, p.dropWhile isDigit, true) := rfl

theorem scanFraction_none (hq : ∀ c ∈ q.head?, c ≠ period) : scanFraction q = ([], q, false) := by
  cases q with
  | nil => rfl
  | cons c q => rw [scanFraction, if_neg (hq c rfl)]

theorem scanFraction_append (hfraction : ∀ ds ∈ fraction, ∀ c ∈ ds, isDigit c)
    (hdigit : ∀ c ∈ q.head?, ¬ isDigit c) (hperiod : ∀ c ∈ q.head?, c ≠ period) :
    scanFraction (fraction.elim [] (period :: ·) ++ q) =
      (fraction.elim [] (period :: ·), q, fraction.isSome) := by
  cases fraction with
  | none => exact scanFraction_none hperiod
  | some ds =>
      have hds := hfraction ds rfl
      rw [Option.elim_some, List.cons_append, scanFraction_period, takeWhile_digits hds hdigit,
        dropWhile_digits hds hdigit]
      rfl

theorem scanFraction_spec (p : List UInt8) :
    ∃ (fraction : Option (List UInt8)) (q : List UInt8),
      (∀ ds ∈ fraction, ∀ c ∈ ds, isDigit c) ∧
      scanFraction p = (fraction.elim [] (period :: ·), q, fraction.isSome) ∧
      p = fraction.elim [] (period :: ·) ++ q := by
  by_cases hp : p.head? = some period
  · obtain ⟨p', rfl⟩ : ∃ p', p = period :: p' := by
      cases p with
      | nil => cases hp
      | cons c p' =>
          cases hp
          exact ⟨p', rfl⟩
    refine ⟨some (p'.takeWhile isDigit), p'.dropWhile isDigit, ?_, rfl, ?_⟩
    · intro ds hds
      cases hds
      exact mem_takeWhile
    · rw [Option.elim_some, List.cons_append, List.takeWhile_append_dropWhile]
  · refine ⟨none, p, by simp, scanFraction_none ?_, rfl⟩
    rintro c hc rfl
    exact hp hc

/-- The sign in front of the digits of an exponent. -/
theorem sign_cases (p : List UInt8) :
    (∃ s q, p = s :: q ∧ (s = minus ∨ s = plus)) ∨ ∀ s ∈ p.head?, ¬ (s = minus ∨ s = plus) := by
  cases p with
  | nil => exact .inr fun _ h => nomatch h
  | cons s q =>
      by_cases hs : s = minus ∨ s = plus
      · exact .inl ⟨s, q, rfl, hs⟩
      · refine .inr ?_
        rintro t ht
        cases ht
        exact hs

/-- What `scanExponent` does behind an `e` and its sign. -/
def exponentDigits (e : UInt8) (sign q : List UInt8) :
    Option (List UInt8 × List UInt8 × Bool) × List UInt8 :=
  if q.head?.any isDigit then
    (some (e :: sign ++ q.takeWhile isDigit, q.dropWhile isDigit, true), q)
  else (none, q)

theorem scanExponent_signed {e s : UInt8} (he : e = 101 ∨ e = 69) (hs : s = minus ∨ s = plus)
    (q : List UInt8) : scanExponent (e :: s :: q) = exponentDigits e [s] q := by
  rw [scanExponent.eq_def]
  simp only [if_pos he, if_pos hs]
  cases q <;> rfl

theorem scanExponent_unsigned {e : UInt8} (he : e = 101 ∨ e = 69)
    (hq : ∀ s ∈ q.head?, ¬ (s = minus ∨ s = plus)) :
    scanExponent (e :: q) = exponentDigits e [] q := by
  rw [scanExponent.eq_def]
  simp only [if_pos he]
  cases q with
  | nil => rfl
  | cons s q =>
      simp only [if_neg (hq s rfl)]
      rfl

theorem scanExponent_none (hp : ∀ e ∈ p.head?, ¬ (e = 101 ∨ e = 69)) :
    scanExponent p = (some ([], p, false), p) := by
  cases p with
  | nil => rfl
  | cons e p =>
      rw [scanExponent.eq_def]
      simp only [if_neg (hp e rfl)]

/-- How `scanExponent` goes: by an `e`, a sign or none, and what stands behind it, or it finds
no `e`. -/
theorem scanExponent_cases (p : List UInt8) :
    (∃ e sign q, (e = 101 ∨ e = 69) ∧ Numeral.IsSign sign ∧ p = e :: sign ++ q ∧
      scanExponent p = exponentDigits e sign q) ∨
    scanExponent p = (some ([], p, false), p) := by
  by_cases hp : ∃ e ∈ p.head?, e = 101 ∨ e = 69
  · obtain ⟨e, hhead, he⟩ := hp
    obtain ⟨p, rfl⟩ : ∃ p', p = e :: p' := by
      cases p with
      | nil => cases hhead
      | cons c p' =>
          cases hhead
          exact ⟨p', rfl⟩
    rcases sign_cases p with ⟨s, q, rfl, hs⟩ | hq
    · refine .inl ⟨e, [s], q, he, ?_, rfl, scanExponent_signed he hs q⟩
      rcases hs with rfl | rfl
      · exact .inr (.inl rfl)
      · exact .inr (.inr rfl)
    · exact .inl ⟨e, [], p, he, .inl rfl, rfl, scanExponent_unsigned he hq⟩
  · refine .inr (scanExponent_none ?_)
    intro e he h
    exact hp ⟨e, he, h⟩

def exponentBytes (exponent : Option (UInt8 × List UInt8 × List UInt8)) : List UInt8 :=
  exponent.elim [] fun (e, sign, digits) => e :: sign ++ digits

theorem scanExponent_append (rest : List UInt8) (hexponent : ∀ e ∈ exponent, Numeral.IsExponent e)
    (hdigit : ∀ c ∈ rest.head?, ¬ isDigit c) (hletter : ∀ c ∈ rest.head?, ¬ (c = 101 ∨ c = 69)) :
    ∃ r, scanExponent (exponentBytes exponent ++ rest) =
      (some (exponentBytes exponent, rest, exponent.isSome), r) := by
  rcases exponent with _ | ⟨e, sign, digits⟩
  · exact ⟨rest, scanExponent_none hletter⟩
  · obtain ⟨he, hsign, hne, hdigits⟩ := hexponent _ rfl
    have hhead : (digits ++ rest).head?.any isDigit = true := by
      cases digits with
      | nil => exact absurd rfl hne
      | cons d ds => simpa using hdigits d List.mem_cons_self
    have hdig : exponentDigits e sign (digits ++ rest) =
        (some (e :: sign ++ digits, rest, true), digits ++ rest) := by
      rw [exponentDigits, if_pos hhead, takeWhile_digits hdigits hdigit,
        dropWhile_digits hdigits hdigit]
    refine ⟨digits ++ rest, ?_⟩
    have htext : exponentBytes (some (e, sign, digits)) ++ rest =
        e :: (sign ++ (digits ++ rest)) := by simp [exponentBytes]
    rw [htext]
    refine Eq.trans ?_ hdig
    rcases hsign with rfl | rfl | rfl
    · refine scanExponent_unsigned he ?_
      intro s hs hsign
      have hds : isDigit s := by
        rw [List.nil_append] at hs
        rw [Option.mem_def.mp hs] at hhead
        simpa using hhead
      rcases hsign with rfl | rfl <;> exact absurd hds (by decide)
    · exact scanExponent_signed he (.inl rfl) _
    · exact scanExponent_signed he (.inr rfl) _

theorem exponent_of_scanExponent {x r : List UInt8} {isFloat : Bool}
    (h : scanExponent p = (some (x, rest, isFloat), r)) :
    ∃ exponent, (∀ e ∈ exponent, Numeral.IsExponent e) ∧ x = exponentBytes exponent ∧
      p = exponentBytes exponent ++ rest ∧ isFloat = exponent.isSome := by
  rcases scanExponent_cases p with ⟨e, sign, q, he, hsign, rfl, hscan⟩ | hscan
  · rw [hscan, exponentDigits] at h
    by_cases hhead : q.head?.any isDigit
    · rw [if_pos hhead] at h
      simp only [Prod.mk.injEq, Option.some.injEq] at h
      obtain ⟨⟨rfl, rfl, rfl⟩, -⟩ := h
      refine ⟨some (e, sign, q.takeWhile isDigit), ?_, rfl, ?_, rfl⟩
      · intro x hx
        cases hx
        refine ⟨he, hsign, ?_, mem_takeWhile⟩
        cases q with
        | nil => cases hhead
        | cons d q =>
            have hd : isDigit d := by simpa using hhead
            simp [hd]
      · simp [exponentBytes]
    · rw [if_neg hhead] at h
      cases h
  · rw [hscan] at h
    cases h
    exact ⟨none, by simp, rfl, rfl, rfl⟩

/-- A byte that ends a number is no part of one. -/
theorem endsNumber_stops {c : UInt8} (hc : endsNumber c) :
    ¬ isDigit c ∧ c ≠ period ∧ ¬ (c = 101 ∨ c = 69) := by
  refine ⟨?_, ?_, ?_⟩
  · intro hd
    simp only [endsNumber, Bool.or_eq_true, decide_eq_true_eq] at hc
    rcases hc with ((((((rfl | rfl) | rfl) | rfl) | rfl) | rfl) | rfl) | rfl <;>
      exact absurd hd (by decide)
  · rintro rfl
    exact absurd hc (by decide)
  · rintro (rfl | rfl) <;> exact absurd hc (by decide)

theorem isDigit_ne_exponent {e : UInt8} (he : e = 101 ∨ e = 69) : ¬ isDigit e ∧ e ≠ period := by
  rcases he with rfl | rfl <;> exact ⟨by decide, by decide⟩

/-- The first byte of a number and the digits behind it. -/
theorem numeral_first {n : Numeral} (hn : n.Reads) :
    ∃ first ds, n.sign ++ n.digits = first :: ds ∧ (∀ c ∈ ds, isDigit c) ∧
      ∀ q, startsNumber first (ds ++ q) := by
  have hne := hn.nonempty
  cases hdigits : n.digits with
  | nil => exact absurd hdigits hne
  | cons d ds =>
      have hall := hn.digits
      rw [hdigits] at hall
      have hd := hall d List.mem_cons_self
      rcases hn.sign with hsign | hsign | hsign
      · refine ⟨d, ds, by rw [hsign]; rfl, fun c hc => hall c (List.mem_cons_of_mem d hc), ?_⟩
        intro q
        simp [startsNumber, hd]
      · refine ⟨minus, d :: ds, by rw [hsign]; rfl, hall, ?_⟩
        intro q
        simp [startsNumber, hd]
      · refine ⟨plus, d :: ds, by rw [hsign]; rfl, hall, ?_⟩
        intro q
        simp [startsNumber, hd]

/-- What stands behind the digits of a number does not go on with them. -/
theorem head_exponentText {n : Numeral} (hn : n.Reads)
    (hrest : ∃ c ∈ rest.head?, endsNumber c) :
    ∀ c ∈ (n.exponentText ++ rest).head?, ¬ isDigit c ∧ c ≠ period := by
  obtain ⟨c, hc, hends⟩ := hrest
  obtain ⟨hdigit, hperiod, -⟩ := endsNumber_stops hends
  intro d hd
  rw [Numeral.exponentText] at hd
  cases hexponent : n.exponent with
  | none =>
      rw [hexponent, Option.elim_none, List.nil_append, Option.mem_def.mp hc] at hd
      cases hd
      exact ⟨hdigit, hperiod⟩
  | some e =>
      obtain ⟨e, sign, digits⟩ := e
      rw [hexponent] at hd
      cases hd
      exact isDigit_ne_exponent (hn.exponent _ hexponent).1

theorem head_fractionText {n : Numeral} (hn : n.Reads)
    (hrest : ∃ c ∈ rest.head?, endsNumber c) :
    ∀ c ∈ (n.fractionText ++ (n.exponentText ++ rest)).head?, ¬ isDigit c := by
  intro c hc
  rw [Numeral.fractionText] at hc
  cases hfraction : n.fraction with
  | none =>
      rw [hfraction, Option.elim_none, List.nil_append] at hc
      exact (head_exponentText hn hrest c hc).1
  | some ds =>
      rw [hfraction] at hc
      cases hc
      decide

/-- A number is read where it stands, -/
theorem getJSONnumber_of_reads (nums : Numbers) {n : Numeral} (hn : n.Reads)
    (hrest : ∃ c ∈ rest.head?, endsNumber c) :
    ∃ first p, n.text ++ rest = first :: p ∧ startsNumber first p ∧
      getJSONnumber nums first p = .ok (n.cell nums) rest := by
  obtain ⟨first, ds, hfirst, hds, hstarts⟩ := numeral_first hn
  have htext : n.text = first :: (ds ++ (n.fractionText ++ n.exponentText)) := by
    rw [Numeral.text, hfirst]
    simp
  refine ⟨first, ds ++ (n.fractionText ++ (n.exponentText ++ rest)), by rw [htext]; simp,
    hstarts _, ?_⟩
  have hfraction := scanFraction_append hn.fraction
    (fun c hc => (head_exponentText hn hrest c hc).1)
    (fun c hc => (head_exponentText hn hrest c hc).2)
  obtain ⟨c, hc, hends⟩ := hrest
  obtain ⟨hdigit, -, hletter⟩ := endsNumber_stops hends
  obtain ⟨r, hexponent⟩ := scanExponent_append rest hn.exponent
    (by rw [Option.mem_def.mp hc]; rintro _ ⟨⟩; exact hdigit)
    (by rw [Option.mem_def.mp hc]; rintro _ ⟨⟩; exact hletter)
  have hhead := head_fractionText hn ⟨c, hc, hends⟩
  rw [getJSONnumber, takeWhile_digits hds hhead, dropWhile_digits hds hhead]
  change scanFraction (n.fractionText ++ (n.exponentText ++ rest)) = _ at hfraction
  change scanExponent (n.exponentText ++ rest) = _ at hexponent
  have hnumber : first :: ds ++ n.fraction.elim [] (period :: ·) ++ exponentBytes n.exponent =
      n.text := by
    rw [htext]
    simp [Numeral.fractionText, Numeral.exponentText, exponentBytes]
  have hshort : ¬ 1024 < n.text.length := Nat.not_lt.mpr hn.short
  simp only [hfraction, hexponent, hnumber]
  obtain ⟨q, rfl⟩ : ∃ q, rest = c :: q := by
    cases rest with
    | nil => cases hc
    | cons d q =>
        cases hc
        exact ⟨q, rfl⟩
  simp only [hends, Bool.not_true, Bool.false_eq_true, if_false, hshort, Numeral.cell,
    Numeral.isFloat]
  exact (apply_ite (Parsed.ok · (c :: q)) _ _ _).symm

/-- The number whose first byte and digits stand at a pointer. -/
theorem numeral_of_starts {first : UInt8} {p : List UInt8} (h : startsNumber first p) :
    ∃ sign digits, Numeral.IsSign sign ∧ digits ≠ [] ∧ (∀ c ∈ digits, isDigit c) ∧
      first :: p.takeWhile isDigit = sign ++ digits := by
  by_cases hfirst : isDigit first
  · refine ⟨[], first :: p.takeWhile isDigit, .inl rfl, by simp, ?_, rfl⟩
    intro c hc
    rcases List.mem_cons.mp hc with rfl | hc
    · exact hfirst
    · exact mem_takeWhile c hc
  · simp only [startsNumber, hfirst, Bool.false_or, Bool.and_eq_true, Bool.or_eq_true,
      decide_eq_true_eq] at h
    obtain ⟨hsign, hhead⟩ := h
    refine ⟨[first], p.takeWhile isDigit, ?_, ?_, mem_takeWhile, rfl⟩
    · rcases hsign with rfl | rfl
      · exact .inr (.inl rfl)
      · exact .inr (.inr rfl)
    · cases p with
      | nil => cases hhead
      | cons d p =>
          have hd : isDigit d := by simpa using hhead
          simp [hd]

/-- and nothing else is read as a number. -/
theorem numeral_of_getJSONnumber {nums : Numbers} {first : UInt8} {p : List UInt8} {cell : Cell}
    (hstarts : startsNumber first p) (h : getJSONnumber nums first p = .ok cell rest) :
    ∃ n : Numeral, n.Reads ∧ first :: p = n.text ++ rest ∧ cell = n.cell nums ∧
      ∃ c ∈ rest.head?, endsNumber c := by
  obtain ⟨sign, digits, hsign, hne, hdigits, hfirst⟩ := numeral_of_starts hstarts
  obtain ⟨fraction, q, hfraction, hscan, hq⟩ := scanFraction_spec (p.dropWhile isDigit)
  rw [getJSONnumber] at h
  simp only [hscan] at h
  rcases hexp : scanExponent q with ⟨_ | ⟨x, rest', isFloat⟩, r⟩
  · simp only [hexp] at h
    cases r <;> cases h
  · simp only [hexp] at h
    obtain ⟨exponent, hexponent, rfl, hq', rfl⟩ := exponent_of_scanExponent hexp
    rcases rest' with _ | ⟨c, rest'⟩
    · cases h
    · have hnumber : first :: p.takeWhile isDigit ++ fraction.elim [] (period :: ·) ++
          exponentBytes exponent = (⟨sign, digits, fraction, exponent⟩ : Numeral).text := by
        rw [hfirst]
        rfl
      simp only [hnumber] at h
      by_cases hends : endsNumber c
      · by_cases hlong : 1024 < (⟨sign, digits, fraction, exponent⟩ : Numeral).text.length
        · simp only [hends, hlong, Bool.not_true, Bool.false_eq_true, if_false, if_true] at h
          cases h
        · refine ⟨⟨sign, digits, fraction, exponent⟩,
            ⟨hsign, hne, hdigits, hfraction, hexponent, Nat.not_lt.mp hlong⟩, ?_⟩
          have hp : first :: p = (⟨sign, digits, fraction, exponent⟩ : Numeral).text ++
              c :: rest' := by
            rw [← hnumber, List.append_assoc, ← hq', List.append_assoc, ← hq, List.cons_append,
              List.takeWhile_append_dropWhile]
          simp only [hends, hlong, Bool.not_true, Bool.false_eq_true, if_false] at h
          rw [Numeral.cell, Numeral.isFloat]
          by_cases hfloat : (fraction.isSome || exponent.isSome) = true
          · rw [if_pos hfloat] at h
            cases h
            exact ⟨hp, by rw [if_pos hfloat], c, rfl, hends⟩
          · rw [if_neg hfloat] at h
            cases h
            exact ⟨hp, by rw [if_neg hfloat], c, rfl, hends⟩
      · simp only [hends, Bool.not_false, if_true] at h
        cases h

end Numerals

end NewLispNeo.Json
