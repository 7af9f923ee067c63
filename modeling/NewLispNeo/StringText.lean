/-
Words and strings as the tokenizer takes them: the names that are one token, the escapes of a
string and the text between `[text]` and `[/text]`.
-/
import NewLispNeo.Printer
import NewLispNeo.TextSource
import NewLispNeo.TokenText

namespace NewLispNeo

instance (b : UInt8) : Decidable (Begins b) := inferInstanceAs (Decidable (_ ∧ _ ∧ _))

/-! ### Words -/

section Words

variable {lc : Locale} {chr : UInt8} {l n rest w ptr : List UInt8}

/-- A name that is one token, in front of a colon or anywhere else. -/
structure IsPlainWord (lc : Locale) (chr : UInt8) (l : List UInt8) : Prop where
  noNumber : NoNumber lc [] chr (peek l)
  first : isSymbolChar chr = true
  noBracket : chr ≠ leftBrace ∧ chr ≠ '['.toUInt8
  rest : ∀ b ∈ l, isSymbolChar b = true
  length : l.length < maxSymbol

/-- A name that is one token. -/
inductive IsWord (lc : Locale) : List UInt8 → Prop
  | comma : IsWord lc [','.toUInt8]
  | colon : IsWord lc [':'.toUInt8]
  | bracketed (l : List UInt8) (inside : ∀ b ∈ l, b ≠ ']'.toUInt8 ∧ b ≠ 0)
      (length : l.length < maxSymbol) : IsWord lc ('['.toUInt8 :: (l ++ [']'.toUInt8]))
  | plain {chr : UInt8} {l : List UInt8} (h : IsPlainWord lc chr l) : IsWord lc (chr :: l)

theorem getToken_blanks (hw : Blank w) : getToken lc (w ++ ptr) = getToken lc ptr := by
  induction w with
  | nil => rfl
  | cons b w ih =>
      rw [List.cons_append, getToken_blank (hw b List.mem_cons_self)]
      exact ih fun c hc => hw c (List.mem_cons_of_mem b hc)

theorem symbolChar_iff {b : UInt8} : isSymbolChar b = true ↔ 32 < b.toNat ∧ b.toNat ≠ 34 ∧
    b.toNat ≠ 39 ∧ b.toNat ≠ 40 ∧ b.toNat ≠ 41 ∧ b.toNat ≠ 58 ∧ b.toNat ≠ 44 := by
  have hquote : doubleQuote.toNat = 34 := rfl
  have happend : apostrophe.toNat = 39 := rfl
  simp [isSymbolChar, Char.toUInt8, ← UInt8.toNat_inj, UInt8.lt_iff_toNat_lt, and_assoc, hquote,
    happend]

/-- What may follow a plain word: the end of an atom or a colon. -/
theorem IsPlainWord.noNumber_append (h : IsPlainWord lc chr l)
    (hrest : Ends rest ∨ peek rest = ':'.toUInt8) : NoNumber lc [] chr (peek (l ++ rest)) := by
  cases l with
  | cons b l => exact h.noNumber
  | nil =>
      rcases hrest with hends | hcolon
      · exact h.noNumber.ends hends
      · refine ⟨.inl ⟨rfl, ?_, ?_⟩, ?_⟩
        · rcases h.noNumber.signed with ⟨-, hbegins, -⟩ | ⟨s, hs, -⟩
          · exact hbegins
          · cases hs
        · have hpoint := lc.isPoint
          rw [List.nil_append, hcolon]
          rintro ⟨-, hdigit | hpeek⟩
          · revert hdigit
            decide
          · rw [← hpeek] at hpoint
            revert hpoint
            decide
        · rw [List.nil_append, hcolon]
          rintro (hdigit | ⟨-, hdigit⟩)
          · exact h.noNumber.number (.inl hdigit)
          · revert hdigit
            decide

theorem IsPlainWord.scan (h : IsPlainWord lc chr l) (ptr : List UInt8) :
    scanOther [] chr ptr = .value (scanSymbol [chr] ptr) := by
  have hfirst := symbolChar_iff.mp h.first
  have hne : ∀ b : UInt8, b.toNat = 34 ∨ b.toNat = 39 ∨ b.toNat = 40 ∨ b.toNat = 41 ∨
      b.toNat = 44 ∨ b.toNat = 58 → chr ≠ b := by
    rintro b hb rfl
    omega
  obtain ⟨hbrace, hbracket⟩ := h.noBracket
  unfold scanOther
  rw [if_neg (hne _ (.inl rfl)), if_neg (hne _ (.inr (.inl rfl))),
    if_neg (hne _ (.inr (.inr (.inl rfl)))), if_neg (hne _ (.inr (.inr (.inr (.inl rfl))))),
    if_neg hbrace, if_neg (not_or.mpr ⟨hne _ (by decide), hne _ (by decide)⟩),
    if_neg hbracket, List.nil_append]

theorem IsPlainWord.span (h : IsPlainWord lc chr l)
    (hrest : Ends rest ∨ peek rest = ':'.toUInt8) :
    spanUpTo isSymbolChar (maxSymbol - [chr].length) (l ++ rest) = (l, rest) := by
  have hlength := h.length
  refine spanUpTo_append h.rest (by simp only [List.length_singleton]; omega) (.inr (.inr ?_))
  rcases hrest with hends | hcolon
  · exact hends.not_symbolChar
  · rw [hcolon]
    rfl

theorem IsPlainWord.token (h : IsPlainWord lc chr l) (hends : Ends rest) :
    getToken lc (chr :: l ++ rest) = .value ⟨.symbol, chr :: l, rest⟩ := by
  have hother := getToken_other (h.noNumber_append (.inl hends))
  rw [List.nil_append, h.scan] at hother
  rw [List.cons_append, hother, scanSymbol, h.span (.inl hends)]
  simp only [if_neg hends.ne_colon, List.singleton_append]

/-- In front of a colon it is a context. -/
theorem IsPlainWord.context (h : IsPlainWord lc chr l) (rest : List UInt8) :
    getToken lc (chr :: l ++ ':'.toUInt8 :: rest) = .value ⟨.context, chr :: l, rest⟩ := by
  have hcolon : peek (':'.toUInt8 :: rest) = ':'.toUInt8 := rfl
  have hother := getToken_other (h.noNumber_append (.inr hcolon))
  rw [List.nil_append, h.scan] at hother
  rw [List.cons_append, hother, scanSymbol, h.span (.inr hcolon)]
  simp only [hcolon, if_true, List.singleton_append, List.tail_cons]

/-- A byte that begins a token and no number. -/
theorem getToken_single (hbegins : Begins chr) (hsign : chr ≠ '-'.toUInt8 ∧ chr ≠ '+'.toUInt8)
    (hdigit : isDigit chr = false) (hpoint : chr ≠ lc.decimalPoint ∨ isDigit (peek ptr) = false) :
    getToken lc (chr :: ptr) = scanOther [] chr ptr := by
  have hno : NoNumber lc [] chr (peek ptr) := by
    refine ⟨.inl ⟨rfl, hbegins, fun h => ?_⟩, ?_⟩
    · exact (not_or.mpr hsign) h.1
    · rintro (h | ⟨h, h'⟩)
      · rw [hdigit] at h
        cases h
      · rcases hpoint with hne | hno
        · exact hne h
        · rw [hno] at h'
          cases h'
  have hother := getToken_other hno
  rwa [List.nil_append] at hother

theorem Locale.ne_point (lc : Locale) (hchr : chr.toNat < 128)
    (hne : chr ≠ '.'.toUInt8 ∧ chr ≠ ','.toUInt8) : chr ≠ lc.decimalPoint := by
  rintro rfl
  rcases lc.isPoint with h | h | h
  · exact hne.1 h
  · exact hne.2 h
  · rw [UInt8.le_iff_toNat_le] at h
    have h128 : (128 : UInt8).toNat = 128 := rfl
    omega

/-- The byte of a token that is no number, letter or sign. -/
theorem getToken_mark (hbegins : Begins chr) (hsign : chr ≠ '-'.toUInt8 ∧ chr ≠ '+'.toUInt8)
    (hdigit : isDigit chr = false) (hchr : chr.toNat < 128)
    (hne : chr ≠ '.'.toUInt8 ∧ chr ≠ ','.toUInt8) (ptr : List UInt8) :
    getToken lc (chr :: ptr) = scanOther [] chr ptr :=
  getToken_single hbegins hsign hdigit (.inl (lc.ne_point hchr hne))

theorem getToken_leftPar (ptr : List UInt8) :
    getToken lc ('('.toUInt8 :: ptr) = .value ⟨.leftPar, ['('.toUInt8], ptr⟩ :=
  getToken_mark (by decide) (by decide) rfl (by decide) (by decide) ptr

theorem getToken_rightPar (ptr : List UInt8) :
    getToken lc (')'.toUInt8 :: ptr) = .value ⟨.rightPar, [')'.toUInt8], ptr⟩ :=
  getToken_mark (by decide) (by decide) rfl (by decide) (by decide) ptr

theorem getToken_quote (ptr : List UInt8) :
    getToken lc (apostrophe :: ptr) = .value ⟨.quote, [apostrophe], ptr⟩ :=
  getToken_mark (by decide) (by decide) rfl (by decide) (by decide) ptr

theorem getToken_bracketed (hinside : ∀ b ∈ l, b ≠ ']'.toUInt8 ∧ b ≠ 0)
    (hlength : l.length < maxSymbol) (rest : List UInt8) :
    getToken lc ('['.toUInt8 :: (l ++ [']'.toUInt8]) ++ rest) =
      .value ⟨.symbol, '['.toUInt8 :: (l ++ [']'.toUInt8]), rest⟩ := by
  rw [List.cons_append, List.append_assoc, List.singleton_append,
    getToken_mark (by decide) (by decide) rfl (by decide) (by decide)]
  have hspan : spanUpTo (· ≠ ']'.toUInt8) (maxSymbol - ['['.toUInt8].length)
      (l ++ ']'.toUInt8 :: rest) = (l, ']'.toUInt8 :: rest) := by
    refine spanUpTo_append (fun b hb => ?_) (by simp only [List.length_singleton]; omega)
      (.inr (.inr ?_))
    · simp only [ne_eq, (hinside b hb).1, not_false_eq_true, decide_true]
    · simp [peek]
  change Outcome.value (scanBracket ['['.toUInt8] _) = _
  rw [scanBracket, hspan]
  rfl

theorem IsWord.token (h : IsWord lc n) (hends : Ends rest) :
    getToken lc (n ++ rest) = .value ⟨.symbol, n, rest⟩ := by
  cases h with
  | comma =>
      exact getToken_single (by decide) (by decide) rfl (.inr hends.not_digit)
  | colon => exact getToken_mark (by decide) (by decide) rfl (by decide) (by decide) rest
  | bracketed l hinside hlength => exact getToken_bracketed hinside hlength rest
  | plain h => exact h.token hends

end Words

/-! ### Strings -/

section Strings

variable {lc : Locale} {chr : UInt8} {str tkn rest ptr : List UInt8}

/-- The three digits of a byte are read as the byte. -/
theorem escape_digits (chr : UInt8) (rest : List UInt8) :
    escape (digitsFrom 3 chr.toNat ++ rest) = ([chr], 3) := by
  have hlt : chr.toNat < 10 ^ 3 := by
    have hchr := chr.toNat_lt
    omega
  have hdigits := isDigit_digitsFrom hlt
  have hvalue := textValue_digitsFrom hlt
  have hlength := length_digitsFrom 3 chr.toNat
  generalize digitsFrom 3 chr.toNat = t at hdigits hvalue hlength
  obtain ⟨a, b, c, rfl⟩ := List.length_eq_three.mp hlength
  have ha : isDigit a = true := hdigits a (by simp)
  have hb : isDigit b = true := hdigits b (by simp)
  have hc : isDigit c = true := hdigits c (by simp)
  unfold escape
  rw [if_pos ⟨ha, hb, hc⟩]
  change ([UInt8.ofNat (textValue [a, b, c])], 3) = _
  rw [hvalue, UInt8.ofNat_toNat]

/-- The bytes that are escaped with a letter or with themselves. -/
def letterEscapes : List (UInt8 × UInt8) :=
  [(8, 'b'.toUInt8), (12, 'f'.toUInt8), (10, 'n'.toUInt8), (13, 'r'.toUInt8), (9, 't'.toUInt8),
    (backslash, backslash), (doubleQuote, doubleQuote)]

theorem letterEscapes_cases {P : UInt8 → UInt8 → Prop} {b : UInt8}
    (h : (b, chr) ∈ letterEscapes) (hb : P 8 'b'.toUInt8) (hf : P 12 'f'.toUInt8)
    (hn : P 10 'n'.toUInt8) (hr : P 13 'r'.toUInt8) (ht : P 9 't'.toUInt8)
    (hback : P backslash backslash) (hquote : P doubleQuote doubleQuote) : P b chr := by
  simp only [letterEscapes, List.mem_cons, Prod.mk.injEq, List.not_mem_nil, or_false] at h
  rcases h with ⟨rfl, rfl⟩ | ⟨rfl, rfl⟩ | ⟨rfl, rfl⟩ | ⟨rfl, rfl⟩ | ⟨rfl, rfl⟩ | ⟨rfl, rfl⟩ |
    ⟨rfl, rfl⟩ <;> assumption

theorem escape_letter {b : UInt8} (h : (b, chr) ∈ letterEscapes) (rest : List UInt8) :
    escape (chr :: rest) = ([b], 1) := by
  refine letterEscapes_cases (P := fun b chr => escape (chr :: rest) = ([b], 1)) h ?_ ?_ ?_ ?_ ?_
    ?_ ?_ <;>
  · unfold escape
    rw [if_neg fun h => by cases h.1]
    rfl

theorem escapeByte_letter {raw : Bool} {b : UInt8} (h : (b, chr) ∈ letterEscapes) :
    escapeByte raw b = [backslash, chr] :=
  letterEscapes_cases (P := fun b chr => escapeByte raw b = [backslash, chr]) h rfl rfl rfl rfl
    rfl rfl rfl

theorem escapeByte_other (raw : Bool) (h : ∀ c, (chr, c) ∉ letterEscapes) : escapeByte raw chr =
    if chr < 32 || (raw && 126 < chr) then backslash :: digitsFrom 3 chr.toNat else [chr] := by
  have hne : ∀ b c, (b, c) ∈ letterEscapes → chr ≠ b := by
    rintro b c hmem rfl
    exact h c hmem
  unfold escapeByte
  rw [if_neg (hne 8 'b'.toUInt8 (by decide)), if_neg (hne 12 'f'.toUInt8 (by decide)),
    if_neg (hne 10 'n'.toUInt8 (by decide)), if_neg (hne 13 'r'.toUInt8 (by decide)),
    if_neg (hne 9 't'.toUInt8 (by decide)), if_neg (hne backslash backslash (by decide)),
    if_neg (hne doubleQuote doubleQuote (by decide))]

/-- What `printString` prints for a byte: the byte itself, or a backslash and what `escape`
reads as the byte. -/
theorem escapeByte_cases (raw : Bool) (chr : UInt8) :
    (escapeByte raw chr = [chr] ∧ chr ≠ 0 ∧ chr ≠ doubleQuote ∧ chr ≠ backslash) ∨
      ∃ t, escapeByte raw chr = backslash :: t ∧ t ≠ [] ∧ (∀ b ∈ t, b ≠ 0) ∧
        ∀ rest, escape (t ++ rest) = ([chr], t.length) := by
  by_cases hletter : ∃ c, (chr, c) ∈ letterEscapes
  · obtain ⟨c, hc⟩ := hletter
    refine .inr ⟨[c], escapeByte_letter hc, List.cons_ne_nil _ _, ?_, escape_letter hc⟩
    rintro b hb rfl
    rw [← List.mem_singleton.mp hb] at hc
    exact letterEscapes_cases (P := fun _ c => c ≠ 0) hc (by decide) (by decide) (by decide)
      (by decide) (by decide) (by decide) (by decide) rfl
  rw [escapeByte_other raw (not_exists.mp hletter)]
  by_cases hdigits : chr < 32 || (raw && 126 < chr)
  · have hlt : chr.toNat < 10 ^ 3 := by
      have hchr := chr.toNat_lt
      omega
    refine .inr ⟨digitsFrom 3 chr.toNat, if_pos hdigits, ?_, ?_, fun rest => ?_⟩
    · exact List.ne_nil_of_length_pos (by rw [length_digitsFrom]; omega)
    · rintro b hb rfl
      cases isDigit_digitsFrom hlt _ hb
    · rw [escape_digits, length_digitsFrom]
  · refine .inl ⟨if_neg hdigits, ?_, ?_, ?_⟩
    · rintro rfl
      exact hdigits (by simp)
    · rintro rfl
      exact hletter ⟨doubleQuote, by decide⟩
    · rintro rfl
      exact hletter ⟨backslash, by decide⟩

theorem scanString_quote (tkn ptr : List UInt8) :
    scanString tkn (doubleQuote :: ptr) = .value ⟨.string, tkn, ptr⟩ := by
  rw [scanString, if_pos rfl]

theorem scanString_escape {t : List UInt8} (ht : t ≠ [])
    (hesc : escape (t ++ ptr) = ([chr], t.length)) (hlength : tkn.length < maxString) :
    scanString tkn (backslash :: (t ++ ptr)) = scanString (tkn ++ [chr]) ptr := by
  rw [scanString, if_neg (by decide), if_neg (by omega), if_pos rfl, if_neg (by simp [ht]), hesc]
  dsimp only
  rw [List.drop_left]

/-- The text of a string up to its closing quote is read as the string. -/
theorem scanString_escaped (raw : Bool) (hlength : tkn.length + str.length ≤ maxString) :
    scanString tkn (str.flatMap (escapeByte raw) ++ doubleQuote :: rest) =
      .value ⟨.string, tkn ++ str, rest⟩ := by
  induction str generalizing tkn with
  | nil => rw [List.flatMap_nil, List.nil_append, scanString_quote, List.append_nil]
  | cons chr str ih =>
      rw [List.length_cons] at hlength
      have hnext := @ih (tkn ++ [chr])
        (by simp only [List.length_append, List.length_singleton]; omega)
      rw [List.append_assoc, List.singleton_append] at hnext
      rw [List.flatMap_cons, List.append_assoc, ← hnext]
      rcases escapeByte_cases raw chr with ⟨heq, hzero, hquote, hback⟩ | ⟨t, heq, ht, -, hesc⟩
      · rw [heq, List.singleton_append, scanString, if_neg hquote, if_neg (by omega), if_neg hback]
      · rw [heq, List.cons_append]
        exact scanString_escape ht (hesc _) (by omega)

theorem getToken_string (raw : Bool) (hlength : str.length ≤ maxString) :
    getToken lc (doubleQuote :: (str.flatMap (escapeByte raw) ++ doubleQuote :: rest)) =
      .value ⟨.string, str, rest⟩ := by
  have hscan := @scanString_escaped str [] rest raw (by simpa using hlength)
  rw [List.nil_append] at hscan
  rw [getToken_mark (by decide) (by decide) rfl (by decide) (by decide)]
  exact hscan

/-- `[/text]` stands at no place of the string, nor where it begins in it. -/
def HoldsNoLimit (str : List UInt8) : Prop :=
  ∀ q, q < str.length → ¬ textLimit <+: (str ++ textLimit).drop q

theorem readStreamText_spec (h : HoldsNoLimit str) :
    readStreamText (str ++ (textLimit ++ rest)) = .value (str, rest) := by
  have hlength : textLimit.length = 7 := rfl
  have hfound : BufferSearch.searchBuffer (str ++ (textLimit ++ rest) ++ [0])
      (str ++ (textLimit ++ rest)).length textLimit true = .value (some str.length) := by
    refine BufferSearch.searchBuffer_found (by decide) ?_ (fun q hq hoccurs => ?_) [0]
    · change textLimit <+: (str ++ (textLimit ++ rest)).drop str.length
      rw [List.drop_left]
      exact List.prefix_append _ _
    · refine h q hq ?_
      have hoccurs : textLimit <+: (str ++ (textLimit ++ rest)).drop q := hoccurs
      rw [← List.append_assoc, List.drop_append_of_le_length (by
        rw [List.length_append]
        omega)] at hoccurs
      refine List.prefix_of_prefix_length_le hoccurs (List.prefix_append _ _) ?_
      rw [List.length_drop, List.length_append]
      omega
  unfold readStreamText
  rw [if_neg (by
    rw [List.length_append, List.length_append]
    omega), hfound]
  dsimp only
  rw [List.take_left, ← List.append_assoc, List.drop_left' (List.length_append ..)]

end Strings

end NewLispNeo
