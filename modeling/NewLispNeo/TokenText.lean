/-
The text of each token is scanned back as that token, whatever ends it.
-/
import NewLispNeo.Token

namespace NewLispNeo

/-- What ends an atom: the end of the text, white space or a closing parenthesis. -/
def Ends (ptr : List UInt8) : Prop :=
  peek ptr ≤ ' '.toUInt8 ∨ peek ptr = ')'.toUInt8

section Span

variable {p : UInt8 → Bool} {n : Nat} {l rest : List UInt8}

theorem spanUpTo_append (hp : ∀ b ∈ l, p b = true) (hn : l.length ≤ n)
    (hend : l.length = n ∨ rest = [] ∨ p (peek rest) = false) :
    spanUpTo p n (l ++ rest) = (l, rest) := by
  induction l generalizing n with
  | nil =>
      cases n with
      | zero => rfl
      | succ n =>
          cases rest with
          | nil => rfl
          | cons b rest =>
              have hb : p b = false := by simpa [peek] using hend
              simp [spanUpTo, hb]
  | cons b l ih =>
      cases n with
      | zero => simp at hn
      | succ n =>
          have hb := hp b List.mem_cons_self
          have hl := ih (n := n) (fun c hc => hp c (List.mem_cons_of_mem b hc))
            (by simpa using hn) (by simpa using hend)
          simp [spanUpTo, hb, hl]

end Span

section Ends

variable {rest : List UInt8}

theorem ends_iff : Ends rest ↔ (peek rest).toNat ≤ 32 ∨ (peek rest).toNat = 41 := by
  simp [Ends, Char.toUInt8, UInt8.le_iff_toNat_le, ← UInt8.toNat_inj]

theorem Ends.not_digit (hends : Ends rest) : isDigit (peek rest) = false := by
  rw [ends_iff] at hends
  rw [← Bool.not_eq_true, isDigit_iff]
  omega

theorem Ends.not_letter (hends : Ends rest) : isLetter 'X' (peek rest) = false ∧
    isLetter 'B' (peek rest) = false ∧ isLetter 'E' (peek rest) = false ∧
      peek rest ≠ 'L'.toUInt8 := by
  rw [ends_iff] at hends
  simp [isLetter, Char.toUInt8, ← UInt8.toNat_inj]
  omega

theorem Ends.not_symbolChar (hends : Ends rest) :
    isSymbolChar (peek rest) = false := by
  rcases hends with hle | heq
  · have hlt : ¬ ' '.toUInt8 < peek rest := UInt8.not_lt.mpr hle
    simp [isSymbolChar, hlt]
  · rw [heq]
    rfl

theorem Ends.ne_colon (hends : Ends rest) : peek rest ≠ ':'.toUInt8 := by
  rw [ends_iff] at hends
  simp [Char.toUInt8, ← UInt8.toNat_inj]
  omega

theorem Ends.not_point (hends : Ends rest) (lc : Locale) :
    peek rest ≠ lc.decimalPoint := by
  have hpoint := lc.isPoint
  rw [ends_iff] at hends
  simp [Char.toUInt8, ← UInt8.toNat_inj, UInt8.le_iff_toNat_le] at hpoint ⊢
  omega

end Ends

section Strip

variable {lc : Locale} {b : UInt8} {ptr : List UInt8}

/-- A byte that starts a token. -/
def Begins (b : UInt8) : Prop :=
  ¬ b ≤ ' '.toUInt8 ∧ b ≠ ';'.toUInt8 ∧ b ≠ '#'.toUInt8

theorem strip_begins (hb : Begins b) : strip false (b :: ptr) = b :: ptr := by
  rw [strip, if_neg hb.1, if_neg (not_or.mpr hb.2)]

theorem getToken_blank (hb : b ≤ ' '.toUInt8) :
    getToken lc (b :: ptr) = getToken lc ptr := by
  unfold getToken
  rw [strip, if_pos hb]

theorem begins_of_digit (hb : isDigit b = true) : Begins b := by
  rw [isDigit_iff] at hb
  simp [Begins, Char.toUInt8, ← UInt8.toNat_inj, UInt8.le_iff_toNat_le]
  omega

end Strip

section Numbers

variable {lc : Locale} {u rest : List UInt8}

open Bigint (signText Plain)

theorem scanNumber_decimal {sign : List UInt8} (hu : ∀ b ∈ u, isDigit b = true)
    (hlen : u.length ≤ maxDigits - sign.length)
    (hend : u.length = maxDigits - sign.length ∨ rest = [] ∨
      isDigit (peek rest) = false)
    (hoctal : ¬ (peek (u ++ rest) = '0'.toUInt8 ∧
      isDigit (peek (u ++ rest).tail) = true))
    (hletter : isLetter 'X' (peek rest) = false ∧
      isLetter 'B' (peek rest) = false ∧ isLetter 'E' (peek rest) = false)
    (hpoint : peek rest ≠ lc.decimalPoint) :
    scanNumber lc sign (u ++ rest) =
      if peek rest = 'L'.toUInt8 then
        ⟨.decimal, sign ++ u ++ ['L'.toUInt8], rest.tail⟩
      else ⟨.decimal, sign ++ u, rest⟩ := by
  unfold scanNumber
  rw [if_neg hoctal, spanUpTo_append hu hlen hend]
  simp [hletter.1, hletter.2.1, hletter.2.2, hpoint]

theorem getToken_number (negative : Bool) {c : UInt8} (hc : isDigit c = true) :
    getToken lc (signText negative ++ c :: rest) =
      .value (scanNumber lc (signText negative) (c :: rest)) := by
  unfold getToken
  cases negative with
  | true =>
      have hminus : Begins '-'.toUInt8 := by
        simp [Begins, Char.toUInt8]
      have hpeek : isDigit (peek (c :: rest)) = true := hc
      simp only [signText, if_true, List.singleton_append]
      rw [strip_begins hminus]
      simp [hpeek]
  | false =>
      have hpeek : isDigit (peek (c :: rest)) = true := hc
      obtain ⟨hminus, hplus, -⟩ := Bigint.not_digit hc
      simp only [signText, Bool.false_eq_true, if_false, List.nil_append]
      rw [strip_begins (begins_of_digit hc)]
      simp [hpeek, hminus, hplus]

variable {t : List UInt8}

theorem Plain.not_octal (ht : Plain t) (hrest : isDigit (peek rest) = false) :
    ¬ (peek (t ++ rest) = '0'.toUInt8 ∧ isDigit (peek (t ++ rest).tail) = true) := by
  rintro ⟨hzero, htail⟩
  rcases ht.leading with rfl | hlead
  · have hdigit : isDigit (peek rest) = true := htail
    rw [hrest] at hdigit
    cases hdigit
  · cases t with
    | nil => exact ht.ne_nil rfl
    | cons c l => exact hlead (congrArg some hzero)

theorem getToken_plain (ht : Plain t) (negative : Bool) :
    getToken lc (signText negative ++ (t ++ rest)) =
      .value (scanNumber lc (signText negative) (t ++ rest)) := by
  cases t with
  | nil => exact absurd rfl ht.ne_nil
  | cons c l => exact getToken_number negative (ht.isDigit c List.mem_cons_self)

/-- A decimal number is scanned whole. -/
theorem getToken_decimal (ht : Plain t) (negative : Bool)
    (hlen : (signText negative ++ t).length ≤ maxDigits) (hends : Ends rest) :
    getToken lc (signText negative ++ (t ++ rest)) =
      .value ⟨.decimal, signText negative ++ t, rest⟩ := by
  rw [List.length_append] at hlen
  obtain ⟨hX, hB, hE, hL⟩ := hends.not_letter
  rw [getToken_plain ht, scanNumber_decimal ht.isDigit (by omega)
    (.inr (.inr hends.not_digit)) (Plain.not_octal ht hends.not_digit) ⟨hX, hB, hE⟩
    (hends.not_point lc), if_neg hL]

/-- So is one with an `L` at its end. -/
theorem getToken_bigint (ht : Plain t) (negative : Bool)
    (hlen : (signText negative ++ t).length ≤ maxDigits) :
    getToken lc (signText negative ++ (t ++ 'L'.toUInt8 :: rest)) =
      .value ⟨.decimal, signText negative ++ t ++ ['L'.toUInt8], rest⟩ := by
  rw [List.length_append] at hlen
  have hdigit : isDigit (peek ('L'.toUInt8 :: rest)) = false := rfl
  have hpoint : peek ('L'.toUInt8 :: rest) ≠ lc.decimalPoint := by
    have hpoint := lc.isPoint
    intro heq
    rw [← heq] at hpoint
    revert hpoint
    simp [peek, Char.toUInt8]
  rw [getToken_plain ht, scanNumber_decimal ht.isDigit (by omega)
    (.inr (.inr hdigit)) (Plain.not_octal ht hdigit) ⟨rfl, rfl, rfl⟩ hpoint]
  rfl

end Numbers

/-- What starts with the byte `chr` after this sign is no number, when `next`
follows. -/
structure NoNumber (lc : Locale) (sign : List UInt8) (chr next : UInt8) : Prop where
  signed : sign = [] ∧ Begins chr ∧
      ¬ ((chr = '-'.toUInt8 ∨ chr = '+'.toUInt8) ∧
        (isDigit next = true ∨ next = lc.decimalPoint)) ∨
    (∃ s, sign = [s] ∧ (s = '-'.toUInt8 ∨ s = '+'.toUInt8) ∧
      chr = lc.decimalPoint)
  number : ¬ (isDigit chr = true ∨ chr = lc.decimalPoint ∧ isDigit next = true)

section Others

variable {lc : Locale} {sign l : List UInt8} {chr next : UInt8}

theorem begins_sign {s : UInt8} (hs : s = '-'.toUInt8 ∨ s = '+'.toUInt8) :
    Begins s := by
  rcases hs with rfl | rfl <;> simp [Begins, Char.toUInt8]

theorem NoNumber.ends (h : NoNumber lc sign chr next) {rest : List UInt8}
    (hends : Ends rest) : NoNumber lc sign chr (peek rest) := by
  have hdigit : ¬ isDigit (peek rest) = true := by simp [hends.not_digit]
  refine ⟨h.signed.imp_left fun hsigned => ⟨hsigned.1, hsigned.2.1, ?_⟩, ?_⟩
  · rintro ⟨-, hnext | hnext⟩
    · exact hdigit hnext
    · exact hends.not_point lc hnext
  · rintro (hchr | ⟨-, hnext⟩)
    · exact h.number (.inl hchr)
    · exact hdigit hnext

theorem getToken_other (h : NoNumber lc sign chr (peek l)) :
    getToken lc (sign ++ chr :: l) = scanOther sign chr l := by
  unfold getToken
  rcases h.signed with ⟨rfl, hbegins, hsign⟩ | ⟨s, rfl, hs, rfl⟩
  · rw [List.nil_append, strip_begins hbegins]
    have hnumber : ¬ (isDigit (peek (chr :: l)) = true ∨
        (peek (chr :: l) = lc.decimalPoint ∧ isDigit (peek (chr :: l).tail) = true)) :=
      h.number
    simp only [if_neg hsign, if_neg hnumber]
    rfl
  · rw [List.singleton_append, strip_begins (begins_sign hs)]
    have hsign : (s = '-'.toUInt8 ∨ s = '+'.toUInt8) ∧
        (isDigit (peek (lc.decimalPoint :: l)) = true ∨
          peek (lc.decimalPoint :: l) = lc.decimalPoint) := ⟨hs, .inr rfl⟩
    have hnumber : ¬ (isDigit (peek (lc.decimalPoint :: l)) = true ∨
        (peek (lc.decimalPoint :: l) = lc.decimalPoint ∧
          isDigit (peek (lc.decimalPoint :: l).tail) = true)) :=
      h.number
    simp only [if_pos hsign, if_neg hnumber]
    rfl

end Others

end NewLispNeo
