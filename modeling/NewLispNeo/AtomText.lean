/-
The texts of expressions: what the reader links for the text of a number, a string or a symbol,
and for the texts of lists and quotes of these.
-/
import NewLispNeo.StringText

namespace NewLispNeo

/-! ### What is read -/

section Reads

variable {lc : Locale} {T : SymbolTable} {rest : List UInt8}

/-- The next expression of the text is this atom. -/
def ReadsAtom (lc : Locale) (T : SymbolTable) (c : AtomCell) (t : List UInt8) : Prop :=
  ∀ rest, Ends rest →
    (textSource lc).next ⟨t ++ rest, T⟩ = .value (some (.atom c), ⟨rest, T⟩)

mutual

/-- How many cells are taken in reading a cell. -/
def cellsTaken (atoms : AtomCell → Nat) : Cell → Nat
  | .quote c => cellsTaken atoms c + 1
  | .expression cs | .lambda _ cs | .fexpr cs => cellsTakenAll atoms cs + 1
  | c => if h : isAtom c = true then atoms ⟨c, h⟩ else 0

def cellsTakenAll (atoms : AtomCell → Nat) : List Cell → Nat
  | [] => 0
  | c :: cs => cellsTaken atoms c + cellsTakenAll atoms cs

end

theorem cellsTaken_atom (atoms : AtomCell → Nat) (c : AtomCell) :
    cellsTaken atoms c.val = atoms c := by
  obtain ⟨c, hc⟩ := c
  cases c with
  | long n => rfl
  | bigint b => rfl
  | float x => rfl
  | string s => rfl
  | symbol s => rfl
  | dynSymbol s name => rfl
  | _ => cases hc

theorem cellsTaken_keyword (atoms : AtomCell → Nat) (k : Keyword) (cs : List Cell) :
    cellsTaken atoms (k.cell cs) = cellsTakenAll atoms cs + 1 := by
  cases k with
  | lambda => rfl
  | fexpr => rfl

/-- The text as a stream, with the cells that can be taken. -/
abbrev roomySource (lc : Locale) (atoms : AtomCell → Nat) : TokenSource (TextStream × Nat) :=
  (textSource lc).withRoom atoms

/-- Reading from the text on links this cell next and leaves what is behind the text, if there
are the cells for it. -/
def Reads (lc : Locale) (T : SymbolTable) (c : Cell) (t : List UInt8) : Prop :=
  ∀ rest, Ends rest → ∃ n, ∀ fuel, n ≤ fuel → ∀ atoms envelope room parStackCounter,
    compileExpression (roomySource lc atoms) (fuel + 1) envelope
        (⟨t ++ rest, T⟩, cellsTaken atoms c + room) parStackCounter =
      linkCell (roomySource lc atoms) (compileExpression (roomySource lc atoms) fuel) envelope c
        (⟨rest, T⟩, room) parStackCounter

/-- Reading in a list from the text on links these cells up to the closing parenthesis. -/
def ReadsItems (lc : Locale) (T : SymbolTable) (cs : List Cell) (t : List UInt8) : Prop :=
  ∀ rest, ∃ n, ∀ fuel, n ≤ fuel → ∀ atoms envelope room parStackCounter,
    envelope.type ≠ .quote →
    compileExpression (roomySource lc atoms) fuel envelope
        (⟨t ++ ')'.toUInt8 :: rest, T⟩, cellsTakenAll atoms cs + room) (parStackCounter + 1) =
      .value ⟨true, { envelope with cells := envelope.cells ++ cs }, (⟨rest, T⟩, room),
        parStackCounter⟩

variable {atoms : AtomCell → Nat} {c : Cell} {cs : List Cell} {t w : List UInt8}

theorem next_token {ptr : List UInt8} {t : Token} (h : getToken lc ptr = .value t) :
    (textSource lc).next ⟨ptr, T⟩ = readLexeme lc T t := by
  change (getToken lc ptr >>= _) = _
  rw [h]
  rfl

theorem next_roomy {ptr rest : List UInt8} {token : Lexeme} {room : Nat}
    (h : (textSource lc).next ⟨ptr, T⟩ = .value (some token, ⟨rest, T⟩)) :
    (roomySource lc atoms).next (⟨ptr, T⟩, token.cells atoms + room) =
      .value (some token, (⟨rest, T⟩, room)) := by
  rw [TokenSource.withRoom_next h (Nat.le_add_right _ _), Nat.add_sub_cancel_left]

theorem compileExpression_blanks (hw : Blank w) (fuel : Nat) (envelope : Envelope)
    (ptr : List UInt8) (room parStackCounter : Nat) :
    compileExpression (roomySource lc atoms) fuel envelope (⟨w ++ ptr, T⟩, room)
        parStackCounter =
      compileExpression (roomySource lc atoms) fuel envelope (⟨ptr, T⟩, room)
        parStackCounter := by
  have hnext : (roomySource lc atoms).next (⟨w ++ ptr, T⟩, room) =
      (roomySource lc atoms).next (⟨ptr, T⟩, room) := by
    change ((getToken lc (w ++ ptr) >>= _) >>= _) = _
    rw [getToken_blanks hw]
    rfl
  cases fuel with
  | zero => rfl
  | succ fuel => rw [compileExpression, compileExpression, hnext]

theorem Reads.blanks (h : Reads lc T c t) (hw : Blank w) : Reads lc T c (w ++ t) := by
  intro rest hrest
  obtain ⟨n, hn⟩ := h rest hrest
  refine ⟨n, fun fuel hfuel atoms envelope room par => ?_⟩
  rw [List.append_assoc, compileExpression_blanks hw, hn fuel hfuel]

theorem ReadsItems.blanks (h : ReadsItems lc T cs t) (hw : Blank w) :
    ReadsItems lc T cs (w ++ t) := by
  intro rest
  obtain ⟨n, hn⟩ := h rest
  refine ⟨n, fun fuel hfuel atoms envelope room par henvelope => ?_⟩
  rw [List.append_assoc, compileExpression_blanks hw,
    hn fuel hfuel atoms envelope room par henvelope]

theorem ReadsAtom.reads {c : AtomCell} (h : ReadsAtom lc T c t) : Reads lc T c t := by
  intro rest hrest
  refine ⟨0, fun fuel _ atoms envelope room par => ?_⟩
  rw [compileExpression, cellsTaken_atom]
  change ((roomySource lc atoms).next (_, (Lexeme.atom c).cells atoms + room) >>= _) = _
  rw [next_roomy (h rest hrest)]
  rfl

/-- A quoted cell. -/
theorem Reads.quote (h : Reads lc T c t) : Reads lc T (.quote c) (apostrophe :: t) := by
  intro rest hrest
  obtain ⟨n, hn⟩ := h rest hrest
  refine ⟨n + 1, fun fuel hfuel atoms envelope room par => ?_⟩
  obtain ⟨fuel, rfl⟩ := Nat.exists_eq_add_of_le' (show 1 ≤ fuel by omega)
  have hnext : (roomySource lc atoms).next
      (⟨apostrophe :: (t ++ rest), T⟩, cellsTaken atoms (.quote c) + room) =
        .value (some .quote, (⟨t ++ rest, T⟩, cellsTaken atoms c + room)) := by
    have hcells : cellsTaken atoms (.quote c) + room =
        Lexeme.cells atoms .quote + (cellsTaken atoms c + room) := by
      rw [cellsTaken, Lexeme.cells]
      omega
    rw [hcells]
    exact next_roomy (next_token (getToken_quote _))
  rw [compileExpression, List.cons_append, hnext]
  change (compileExpression (roomySource lc atoms) (fuel + 1) ⟨.quote, []⟩
    (⟨t ++ rest, T⟩, cellsTaken atoms c + room) par >>= _) = _
  rw [hn fuel (by omega) atoms ⟨.quote, []⟩ room par, linkCell, if_pos ⟨rfl, rfl⟩]
  rfl

/-- The opening of a list. -/
theorem next_leftPar {ptr : List UInt8} {k room : Nat} :
    (roomySource lc atoms).next (⟨'('.toUInt8 :: ptr, T⟩, k + 1 + room) =
      .value (some .leftPar, (⟨ptr, T⟩, k + room)) := by
  have hcells : k + 1 + room = Lexeme.cells atoms .leftPar + (k + room) := by
    rw [Lexeme.cells]
    omega
  rw [hcells]
  exact next_roomy (next_token (getToken_leftPar _))

/-- A list, from what its contents are read as. -/
theorem ReadsItems.reads (h : ReadsItems lc T cs t) :
    Reads lc T (.expression cs) ('('.toUInt8 :: (t ++ [')'.toUInt8])) := by
  intro rest _
  obtain ⟨n, hn⟩ := h rest
  refine ⟨n, fun fuel hfuel atoms envelope room par => ?_⟩
  rw [compileExpression, List.cons_append, cellsTaken, next_leftPar, List.append_assoc,
    List.singleton_append]
  change (compileExpression (roomySource lc atoms) fuel ⟨.expression, []⟩
    (⟨t ++ ')'.toUInt8 :: rest, T⟩, cellsTakenAll atoms cs + room) (par + 1) >>= _) = _
  rw [hn fuel hfuel atoms ⟨.expression, []⟩ room par (by decide)]
  rfl

/-- A list that begins with a keyword. -/
theorem ReadsItems.reads_keyword {key : List UInt8} {k : Keyword} (h : ReadsItems lc T cs t)
    (hkey : ∀ rest, (textSource lc).next ⟨key ++ ' '.toUInt8 :: rest, T⟩ =
      .value (some (.keyword k), ⟨' '.toUInt8 :: rest, T⟩)) :
    Reads lc T (k.cell cs) ('('.toUInt8 :: (key ++ ' '.toUInt8 :: (t ++ [')'.toUInt8]))) := by
  intro rest _
  obtain ⟨n, hn⟩ := h.blanks (w := [' '.toUInt8]) (by simp [Blank]) rest
  refine ⟨n + 1, fun fuel hfuel atoms envelope room par => ?_⟩
  obtain ⟨fuel, rfl⟩ := Nat.exists_eq_add_of_le' (show 1 ≤ fuel by omega)
  have hnext : (roomySource lc atoms).next
      (⟨key ++ ' '.toUInt8 :: (t ++ ')'.toUInt8 :: rest), T⟩, cellsTakenAll atoms cs + room) =
        .value (some (.keyword k),
          (⟨' '.toUInt8 :: (t ++ ')'.toUInt8 :: rest), T⟩, cellsTakenAll atoms cs + room)) :=
    TokenSource.withRoom_next (hkey _) (Nat.zero_le _)
  rw [compileExpression, List.cons_append, cellsTaken_keyword, next_leftPar, List.append_assoc,
    List.cons_append, List.append_assoc, List.singleton_append]
  change (compileExpression (roomySource lc atoms) (fuel + 1) ⟨.expression, []⟩
    (⟨key ++ ' '.toUInt8 :: (t ++ ')'.toUInt8 :: rest), T⟩, cellsTakenAll atoms cs + room)
      (par + 1) >>= _) = _
  rw [compileExpression, hnext]
  change (compileExpression (roomySource lc atoms) fuel ⟨k.type, []⟩
    (⟨[' '.toUInt8] ++ t ++ ')'.toUInt8 :: rest, T⟩, cellsTakenAll atoms cs + room) (par + 1) >>=
      _) = _
  rw [hn fuel (by omega) atoms ⟨k.type, []⟩ room par (by cases k <;> decide)]
  rfl

theorem readsItems_nil : ReadsItems lc T [] [] := by
  intro rest
  refine ⟨1, fun fuel hfuel atoms envelope room par _ => ?_⟩
  obtain ⟨fuel, rfl⟩ := Nat.exists_eq_add_of_le' hfuel
  have hnext : (roomySource lc atoms).next (⟨')'.toUInt8 :: rest, T⟩, 0 + room) =
      .value (some .rightPar, (⟨rest, T⟩, room)) :=
    next_roomy (next_token (getToken_rightPar _))
  rw [compileExpression, List.nil_append, cellsTakenAll, hnext]
  simp

/-- Another item in front of the others, whose text ends it. -/
theorem Reads.cons (h : Reads lc T c t) {t' : List UInt8} (h' : ReadsItems lc T cs t')
    (hends : ∀ rest, Ends (t' ++ ')'.toUInt8 :: rest)) : ReadsItems lc T (c :: cs) (t ++ t') := by
  intro rest
  obtain ⟨n, hn⟩ := h (t' ++ ')'.toUInt8 :: rest) (hends rest)
  obtain ⟨n', hn'⟩ := h' rest
  refine ⟨n + n' + 1, fun fuel hfuel atoms envelope room par henvelope => ?_⟩
  obtain ⟨fuel, rfl⟩ := Nat.exists_eq_add_of_le' (show 1 ≤ fuel by omega)
  have hmore : (roomySource lc atoms).atEnd
      (⟨t' ++ ')'.toUInt8 :: rest, T⟩, cellsTakenAll atoms cs + room) = false := by
    change (t' ++ ')'.toUInt8 :: rest).isEmpty = false
    simp
  rw [List.append_assoc, cellsTakenAll, Nat.add_assoc,
    hn fuel (by omega) atoms envelope (cellsTakenAll atoms cs + room) (par + 1), linkCell,
    if_neg fun h => henvelope h.1, if_pos (Nat.succ_ne_zero par), if_neg (by rw [hmore]; decide),
    hn' fuel (by omega) atoms { envelope with cells := envelope.cells ++ [c] } room par henvelope]
  simp only [List.append_assoc, List.singleton_append]

/-! ### Numbers and strings -/

theorem plain_decimal (n : Nat) : Bigint.Plain (decimal n) := by
  have hcases := decimal_cases n
  refine ⟨?_, isDigit_decimal n, hcases.imp_right fun h => ?_⟩
  · rw [decimal]
    exact List.ne_nil_of_length_pos (by rw [length_digitsFrom]; omega)
  · obtain ⟨b, l, heq, hb⟩ := h
    rw [heq]
    exact fun h => hb (Option.some.inj h)

theorem length_decimal_lt {n k : Nat} (h : n < 10 ^ k) (hk : 0 < k) : (decimal n).length ≤ k := by
  rw [decimal, length_digitsFrom]
  by_cases hn : n = 0
  · rw [hn, Nat.log_zero_right]
    omega
  · exact Nat.log_lt_of_lt_pow hn h

theorem decimalInt_eq (n : Int) :
    decimalInt n = Bigint.signText (decide (n < 0)) ++ decimal n.natAbs := by
  unfold decimalInt Bigint.signText
  by_cases hn : n < 0
  · rw [if_pos hn, if_pos (by simpa using hn), List.singleton_append]
  · rw [if_neg hn, if_neg (by simpa using hn), List.nil_append]

theorem signedValue_text {t : List UInt8} (ht : Bigint.Plain t) (negative : Bool) :
    signedValue textValue (Bigint.signText negative ++ t) =
      if negative then -(textValue t : Int) else textValue t := by
  cases negative with
  | true => rfl
  | false =>
      cases t with
      | nil => exact absurd rfl ht.ne_nil
      | cons b t =>
          obtain ⟨hminus, hplus, -⟩ := Bigint.not_digit (ht.isDigit b List.mem_cons_self)
          simp [signedValue, Bigint.signText, hminus, hplus]

theorem readsAtom_long (n : Word) : ReadsAtom lc T ⟨.long n, rfl⟩ (decimalInt n.toInt) := by
  intro rest hrest
  have hplain := plain_decimal n.toInt.natAbs
  have hrange : -2 ^ 63 ≤ n.toInt ∧ n.toInt < 2 ^ 63 := ⟨n.le_toInt, n.toInt_lt⟩
  have hlength : (Bigint.signText (decide (n.toInt < 0)) ++ decimal n.toInt.natAbs).length ≤
      maxDigits := by
    have hdigits : (decimal n.toInt.natAbs).length ≤ 19 :=
      length_decimal_lt (by omega) (by decide)
    have hsign : (Bigint.signText (decide (n.toInt < 0))).length ≤ 1 := by
      unfold Bigint.signText
      split_ifs <;> decide
    have hmax : maxDigits = 1001 := rfl
    rw [List.length_append]
    omega
  have hvalue : signedValue textValue
      (Bigint.signText (decide (n.toInt < 0)) ++ decimal n.toInt.natAbs) = n.toInt := by
    rw [signedValue_text hplain, textValue_decimal]
    simp only [decide_eq_true_eq]
    split_ifs <;> omega
  have hcell : decimalCell (Bigint.signText (decide (n.toInt < 0)) ++ decimal n.toInt.natAbs) =
      ⟨.long n, rfl⟩ := by
    unfold decimalCell
    rw [hvalue, if_neg (hplain.getLast_ne _), if_neg (by omega), strtoll]
    have hclamp : max (-2 ^ 63) (min n.toInt (2 ^ 63 - 1)) = n.toInt := by omega
    rw [hclamp]
    simp only [BitVec.ofInt_toInt]
  rw [decimalInt_eq, List.append_assoc, next_token (getToken_decimal hplain _ hlength hrest)]
  simp only [readLexeme, hcell]

theorem readsAtom_bigint {b : Bigint} (hb : b.Canonical) (hlength : b.toDigits.length ≤ maxDigits) :
    ReadsAtom lc T ⟨.bigint b.unsigned, rfl⟩ (b.toDigits ++ ['L'.toUInt8]) := by
  intro rest _
  obtain ⟨t, ht, -, htext⟩ := hb.text
  rw [htext] at hlength
  have hread := hb.ofText_toDigits
  rw [htext] at hread ⊢
  have htoken := @getToken_bigint lc rest t ht b.unsigned.negative hlength
  have hcell : decimalCell (Bigint.signText b.unsigned.negative ++ t ++ ['L'.toUInt8]) =
      ⟨.bigint b.unsigned, rfl⟩ := by
    unfold decimalCell
    rw [if_pos (by simp)]
    exact Subtype.ext (congrArg Cell.bigint hread)
  rw [List.append_assoc, List.append_assoc, List.singleton_append, next_token htoken]
  simp only [readLexeme, hcell]

theorem readsAtom_string (raw : Bool) {str : List UInt8} (hlength : str.length ≤ maxString) :
    ReadsAtom lc T ⟨.string str, rfl⟩
      (doubleQuote :: (str.flatMap (escapeByte raw) ++ [doubleQuote])) := by
  intro rest _
  rw [List.cons_append, List.append_assoc, List.singleton_append,
    next_token (getToken_string raw hlength)]
  rfl

theorem readsAtom_text {str : List UInt8} (h : HoldsNoLimit str) :
    ReadsAtom lc T ⟨.string str, rfl⟩ (text "[text]" ++ (str ++ textLimit)) := by
  intro rest _
  have htoken : getToken lc (text "[text]" ++ (str ++ (textLimit ++ rest))) =
      .value ⟨.symbol, text "[text]", str ++ (textLimit ++ rest)⟩ := by
    exact getToken_bracketed (l := text "text") (by simp [text, Char.toUInt8]) (by decide) _
  rw [List.append_assoc, List.append_assoc, next_token htoken]
  simp only [readLexeme]
  rw [if_neg (by decide), if_neg (by decide), if_pos (by decide), readStreamText_spec h]
  rfl

/-! ### Symbols -/

/-- A name of one character for each byte. -/
def IsName (name : String) : Prop := bytesName (nameBytes name) = name

def keywords : List (List UInt8) :=
  [text "lambda", text "fn", text "lambda-macro", text "fn-macro"]

/-- The name alone is read as the symbol. -/
structure FoundByName (lc : Locale) (T : SymbolTable) (s : Symbol) : Prop where
  word : IsWord lc (nameBytes s.name)
  noKeyword : nameBytes s.name ∉ keywords
  noText : (text "[text]").isPrefixOf (nameBytes s.name) = false
  dollar : (nameBytes s.name).head? = some '$'.toUInt8 →
    s.context = SymbolTable.mainContext ∧ T.isGlobal s = true
  notHidden : s.context = T.currentContext ∨ T.has ⟨T.currentContext, s.name⟩ = false

/-- A name that is read as a context in front of a colon. -/
def IsContextWord (lc : Locale) (n : List UInt8) : Prop :=
  ∃ chr l, n = chr :: l ∧ IsPlainWord lc chr l

/-- The name of a context and the name of a symbol are read as the symbol. -/
structure FoundByContext (lc : Locale) (T : SymbolTable) (s : Symbol) : Prop where
  contextName : IsName s.context
  contextWord : IsContextWord lc (nameBytes s.context)
  notHidden : T.currentContext = SymbolTable.mainContext ∨ T.currentContext = s.context ∨
    T.has ⟨T.currentContext, s.context⟩ = false
  word : IsWord lc (nameBytes s.name)

/-- A symbol that is found under the name that is printed for it. -/
structure IsPrintable (lc : Locale) (T : SymbolTable) (s : Symbol) : Prop where
  has : T.has s = true
  name : IsName s.name
  byName : printsContext T s = false → FoundByName lc T s
  byContext : printsContext T s = true → FoundByContext lc T s

/-- A name behind a symbol that is no context. -/
structure IsPrintableDyn (lc : Locale) (T : SymbolTable) (s : Symbol) (name : String) : Prop where
  has : T.has s = true
  noContext : T.isContext s = false
  contextName : IsName s.name
  contextWord : IsContextWord lc (nameBytes s.name)
  notCurrent : T.currentContext ≠ SymbolTable.mainContext → T.currentContext ≠ s.name
  notHidden : s.context = T.currentContext ∨
    s.context = SymbolTable.mainContext ∧ T.has ⟨T.currentContext, s.name⟩ = false
  isName : IsName name
  word : IsWord lc (nameBytes name)

variable {s : Symbol} {name : String}

theorem SymbolTable.has_of_isContext (h : T.isContext s = true) : T.has s = true := by
  unfold SymbolTable.isContext at h
  unfold SymbolTable.has
  cases hfind : T.find s with
  | none => simp [hfind] at h
  | some info => rfl

theorem SymbolTable.setGlobal_eq (h : T.isGlobal s = true) : T.setGlobal s = T := by
  have hbits : ∀ flags : Nat, flags &&& symbolGlobal ≠ 0 → flags ||| symbolGlobal = flags := by
    intro flags hflags
    have hglobal : symbolGlobal = 2 ^ 5 := rfl
    have hbit : flags.testBit 5 = true := by
      by_contra hbit
      rw [Bool.not_eq_true] at hbit
      refine hflags (Nat.eq_of_testBit_eq fun i => ?_)
      rw [Nat.testBit_and, hglobal, Nat.testBit_two_pow, Nat.zero_testBit]
      by_cases hi : 5 = i
      · rw [← hi, hbit, Bool.false_and]
      · simp [hi]
    refine Nat.eq_of_testBit_eq fun i => ?_
    rw [Nat.testBit_or, hglobal, Nat.testBit_two_pow]
    by_cases hi : 5 = i
    · simp [← hi, hbit]
    · simp [hi]
  have hfind : (fun t => if t = s then
      (T.find s).map fun info => { info with flags := info.flags ||| symbolGlobal }
      else T.find t) = T.find := by
    funext t
    by_cases ht : t = s
    · rw [if_pos ht, ht]
      unfold SymbolTable.isGlobal at h
      cases hinfo : T.find s with
      | none => rfl
      | some info =>
          rw [hinfo] at h
          have hflags : info.flags &&& symbolGlobal ≠ 0 := by
            simpa [SymbolInfo.isGlobal] using h
          rw [Option.map_some, hbits info.flags hflags]
    · rw [if_neg ht]
  unfold SymbolTable.setGlobal
  rw [hfind]

theorem SymbolTable.translate_own {context : String} (h : T.has ⟨context, name⟩ = true)
    (asContext forceFlag : Bool) :
    T.translateCreateSymbol name asContext context forceFlag = (⟨context, name⟩, T) := by
  unfold SymbolTable.translateCreateSymbol
  rw [if_pos h]

theorem FoundByName.read (h : FoundByName lc T s) (hT : T.WellFormed) (hhas : T.has s = true)
    (hname : IsName s.name) (hprints : printsContext T s = false) :
    readSymbol T (nameBytes s.name) = (s, T) := by
  unfold readSymbol
  rw [hname]
  by_cases hdollar : (nameBytes s.name).head? = some '$'.toUInt8
  · obtain ⟨hmain, hglobal⟩ := h.dollar hdollar
    have hown : T.has ⟨SymbolTable.mainContext, s.name⟩ = true := hmain ▸ hhas
    have hs : (⟨SymbolTable.mainContext, s.name⟩ : Symbol) = s := by rw [← hmain]
    rw [if_pos hdollar, SymbolTable.translate_own hown, hs]
    dsimp only
    rw [SymbolTable.setGlobal_eq hglobal]
  · rw [if_neg hdollar]
    by_cases hcurrent : s.context = T.currentContext
    · rw [← hcurrent, SymbolTable.translate_own hhas]
    · have hhidden := h.notHidden.resolve_left hcurrent
      have hinherited : T.isGlobal s = true ∨ T.isContext s = true := by
        by_contra hno
        obtain ⟨hglobal, hcontext⟩ := not_or.mp hno
        rw [Bool.not_eq_true] at hglobal hcontext
        simp [printsContext, hcurrent, hglobal, hcontext] at hprints
      have hmain : s.context = SymbolTable.mainContext :=
        hinherited.elim (hT.global_main s) (hT.context_main s)
      have hs : (⟨SymbolTable.mainContext, s.name⟩ : Symbol) = s := by rw [← hmain]
      unfold SymbolTable.translateCreateSymbol
      rw [if_neg (by rw [hhidden]; decide), if_pos ⟨rfl, fun h => hcurrent (hmain.trans h.symm), by
        rw [hs]
        exact hinherited⟩, hs]

theorem FoundByName.readsAtom (h : FoundByName lc T s) (hT : T.WellFormed)
    (hhas : T.has s = true) (hname : IsName s.name) (hprints : printsContext T s = false) :
    ReadsAtom lc T ⟨.symbol s, rfl⟩ (nameBytes s.name) := by
  intro rest hrest
  have hkey := h.noKeyword
  simp only [keywords, List.mem_cons, List.not_mem_nil, or_false, not_or] at hkey
  rw [next_token (h.word.token hrest)]
  simp only [readLexeme]
  rw [if_neg (not_or.mpr ⟨hkey.1, hkey.2.1⟩), if_neg (not_or.mpr ⟨hkey.2.2.1, hkey.2.2.2⟩),
    if_neg (by rw [h.noText]; decide), h.read hT hhas hname hprints]

/-- A name behind a context, and what stands for the context. -/
theorem readsAtom_qualified {n : List UInt8} (contextPtr : Symbol) {c : AtomCell}
    (hcontext : IsContextWord lc (nameBytes contextPtr.name)) (hword : IsWord lc n)
    (hread : readContext T (nameBytes contextPtr.name) = (contextPtr, T))
    (hqualified : readQualified T contextPtr n = (c, T)) :
    ReadsAtom lc T c (nameBytes contextPtr.name ++ ':'.toUInt8 :: n) := by
  intro rest hrest
  obtain ⟨chr, l, heq, hplain⟩ := hcontext
  have htoken := hplain.context (n ++ rest)
  rw [← heq] at htoken
  rw [List.append_assoc, List.cons_append, next_token htoken]
  simp only [readLexeme]
  rw [hread]
  simp only [hword.token hrest, Outcome.value_bind, ne_eq, not_true_eq_false, if_false, hqualified]

theorem FoundByContext.readsAtom (h : FoundByContext lc T s) (hT : T.WellFormed)
    (hhas : T.has s = true) (hname : IsName s.name) :
    ReadsAtom lc T ⟨.symbol s, rfl⟩ (qualified s.context s.name) := by
  have hcontext := hT.in_context s hhas
  have hread : readContext T (nameBytes s.context) =
      (⟨SymbolTable.mainContext, s.context⟩, T) := by
    unfold readContext
    rw [h.contextName]
    by_cases hmain : T.currentContext = SymbolTable.mainContext
    · rw [if_neg fun h => h.1 hmain, if_neg fun h => h.1 hmain,
        SymbolTable.translate_own (SymbolTable.has_of_isContext hcontext)]
    · by_cases hcurrent : T.currentContext = s.context
      · rw [if_pos ⟨hmain, hcurrent⟩]
      · have hhidden := (h.notHidden.resolve_left hmain).resolve_left hcurrent
        rw [if_neg fun h => hcurrent h.2,
          if_neg (by rw [hhidden]; exact fun h => Bool.false_ne_true h.2),
          SymbolTable.translate_own (SymbolTable.has_of_isContext hcontext)]
  refine readsAtom_qualified ⟨SymbolTable.mainContext, s.context⟩ h.contextWord h.word hread ?_
  unfold readQualified
  rw [if_pos hcontext, hname, SymbolTable.translate_own hhas]

theorem IsPrintableDyn.readsAtom (h : IsPrintableDyn lc T s name) :
    ReadsAtom lc T ⟨.dynSymbol s name, rfl⟩ (qualified s.name name) := by
  have hread : readContext T (nameBytes s.name) = (s, T) := by
    unfold readContext
    rw [h.contextName]
    have hfirst : ¬ (T.currentContext ≠ SymbolTable.mainContext ∧ T.currentContext = s.name) :=
      fun hno => h.notCurrent hno.1 hno.2
    rw [if_neg hfirst]
    rcases h.notHidden with hcurrent | ⟨hmain, hhidden⟩
    · have hown : T.has ⟨T.currentContext, s.name⟩ = true := hcurrent ▸ h.has
      by_cases hmain : T.currentContext = SymbolTable.mainContext
      · rw [if_neg fun h => h.1 hmain, ← hmain, SymbolTable.translate_own hown, ← hcurrent]
      · rw [if_pos ⟨hmain, hown⟩, ← hcurrent]
    · have hown : T.has ⟨SymbolTable.mainContext, s.name⟩ = true := hmain ▸ h.has
      rw [if_neg (by rw [hhidden]; exact fun h => Bool.false_ne_true h.2),
        SymbolTable.translate_own hown, ← hmain]
  refine readsAtom_qualified s h.contextWord h.word hread ?_
  unfold readQualified
  rw [if_neg (by rw [h.noContext]; decide), h.isName]

/-- The text that is printed for a symbol. -/
theorem IsPrintable.readsAtom (h : IsPrintable lc T s) (hT : T.WellFormed) :
    ReadsAtom lc T ⟨.symbol s, rfl⟩ (symbolText T s) := by
  unfold symbolText
  by_cases hprints : printsContext T s = true
  · rw [if_pos hprints]
    exact (h.byContext hprints).readsAtom hT h.has h.name
  · rw [if_neg hprints]
    rw [Bool.not_eq_true] at hprints
    exact (h.byName hprints).readsAtom hT h.has h.name hprints

end Reads

end NewLispNeo
