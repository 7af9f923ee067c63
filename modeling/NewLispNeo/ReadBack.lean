/-
What the printer prints of data is read back as the data: the text of every cell is taken by the
reader as one expression, whatever ends it.
-/
import NewLispNeo.AtomText
import Mathlib.Data.List.TakeWhile

namespace NewLispNeo

/-! ### What is printed -/

section Prints

variable {env : Printing} {p p' p'' : Printer} {t u format : List UInt8}

/-- From one state to the other the printer printed this text, which is a C string. -/
structure Prints (p p' : Printer) (t : List UInt8) : Prop where
  out : p'.out = p.out ++ t
  noZero : ∀ b ∈ t, b ≠ 0

theorem Prints.refl (p : Printer) : Prints p p [] := ⟨(List.append_nil _).symm, by simp⟩

theorem Prints.trans (h : Prints p p' t) (h' : Prints p' p'' u) : Prints p p'' (t ++ u) := by
  refine ⟨by rw [h'.out, h.out, List.append_assoc], fun b hb => ?_⟩
  exact (List.mem_append.mp hb).elim (h.noZero b) (h'.noZero b)

/-- Nothing but counters and flags is different. -/
theorem Prints.same (h : Prints p p' t) (hout : p''.out = p'.out) : Prints p p'' t :=
  ⟨hout.trans h.out, h.noZero⟩

theorem noZero_of_all (h : t.all (· ≠ 0) = true) : ∀ b ∈ t, b ≠ 0 := by
  simpa using h

theorem cString_noZero (format : List UInt8) : ∀ b ∈ cString format, b ≠ 0 := fun b hb => by
  have h := List.mem_takeWhile_imp hb
  simpa using h

theorem cString_eq (h : ∀ b ∈ format, b ≠ 0) : cString format = format :=
  List.takeWhile_eq_self_iff.mpr fun b hb => by simpa using h b hb

theorem prints_varPrintf (p : Printer) (h : ∀ b ∈ format, b ≠ 0) :
    Prints p (p.varPrintf format) format := by
  refine ⟨?_, h⟩
  rw [Printer.varPrintf, cString_eq h]

theorem prints_varPrintfs (formats : List (List UInt8)) (h : ∀ f ∈ formats, ∀ b ∈ f, b ≠ 0)
    (p : Printer) : Prints p (p.varPrintfs formats) formats.flatten := by
  induction formats generalizing p with
  | nil => exact Prints.refl p
  | cons f formats ih =>
      have hf := prints_varPrintf p (h f List.mem_cons_self)
      exact hf.trans (ih (fun g hg => h g (List.mem_cons_of_mem f hg)) _)

/-- The line breaks and tabs of `prettyPrint` are white space. -/
theorem prints_prettyPrint (env : Printing) (p : Printer) :
    ∃ w, Prints p (p.prettyPrint env) w ∧ Blank w := by
  unfold Printer.prettyPrint
  by_cases hflags : p.double || p.string
  · exact ⟨[], by rw [if_pos hflags]; exact Prints.refl p, by simp [Blank]⟩
  rw [if_neg hflags]
  have hfeed : ∃ w, Prints p (if 0 < p.pars then p.varPrintf [10] else p) w ∧ Blank w := by
    by_cases hpars : 0 < p.pars
    · rw [if_pos hpars]
      exact ⟨[10], prints_varPrintf p (noZero_of_all rfl),
        List.forall_mem_singleton.mpr (by decide)⟩
    · rw [if_neg hpars]
      exact ⟨[], Prints.refl p, by simp [Blank]⟩
  obtain ⟨w, hw, hblank⟩ := hfeed
  generalize (if 0 < p.pars then p.varPrintf [10] else p) = p₁ at hw
  have htabs : ∀ n (p : Printer), ∃ w,
      Prints p (p.varPrintfs (List.replicate n env.prettyPrintTab)) w ∧ Blank w := by
    intro n
    induction n with
    | zero => exact fun p => ⟨[], Prints.refl p, by simp [Blank]⟩
    | succ n ih =>
        intro p
        obtain ⟨w, hw, hblank⟩ := ih (p.varPrintf env.prettyPrintTab)
        have htab : Prints p (p.varPrintf env.prettyPrintTab) (cString env.prettyPrintTab) :=
          ⟨rfl, cString_noZero _⟩
        refine ⟨_, htab.trans hw, fun b hb => ?_⟩
        rcases List.mem_append.mp hb with hb | hb
        · exact env.blankTab b (List.takeWhile_subset _ hb)
        · exact hblank b hb
  obtain ⟨w', hw', hblank'⟩ := htabs p₁.pars p₁
  refine ⟨w ++ w', (hw.trans hw').same rfl, fun b hb => ?_⟩
  exact (List.mem_append.mp hb).elim (hblank b) (hblank' b)

theorem prints_breakBefore (env : Printing) (p : Printer) :
    ∃ w, Prints p (p.breakBefore env) w ∧ Blank w := by
  unfold Printer.breakBefore
  split_ifs
  · exact prints_prettyPrint env p
  · exact ⟨[], Prints.refl p, by simp [Blank]⟩

theorem prints_openPar (p : Printer) (h : ∀ b ∈ format, b ≠ 0) :
    Prints p (p.openPar format) format :=
  (prints_varPrintf p h).same rfl

theorem prints_closePar (p : Printer) : Prints p p.closePar [')'.toUInt8] :=
  (prints_varPrintf p (noZero_of_all rfl)).same rfl

/-- A short string is printed with escapes, a long one between tags. -/
theorem prints_printString (env : Printing) (p : Printer) (str : List UInt8) :
    (str.length < maxString → Prints p (printString env p str) (doubleQuote ::
      (str.flatMap (escapeByte env.stringOutputRaw) ++ [doubleQuote]))) ∧
    (maxString ≤ str.length → (∀ b ∈ str, b ≠ 0) →
      Prints p (printString env p str) (text "[text]" ++ (str ++ textLimit))) := by
  unfold printString
  constructor
  · intro hshort
    rw [if_neg (by omega)]
    have hopen : Prints p (p.varPrintf [doubleQuote]) [doubleQuote] :=
      prints_varPrintf p (noZero_of_all rfl)
    have hescape : ∀ f ∈ str.map (escapeByte env.stringOutputRaw), ∀ b ∈ f, b ≠ 0 := by
      intro f hf b hb
      obtain ⟨chr, -, rfl⟩ := List.mem_map.mp hf
      rcases escapeByte_cases env.stringOutputRaw chr with ⟨heq, hzero, -⟩ | ⟨t, heq, -, ht, -⟩
      · rw [heq] at hb
        exact List.mem_singleton.mp hb ▸ hzero
      · rw [heq] at hb
        rcases List.mem_cons.mp hb with rfl | hb
        · decide
        · exact ht b hb
    have hbody := prints_varPrintfs _ hescape (p.varPrintf [doubleQuote])
    rw [← List.flatMap_def] at hbody
    exact hopen.trans (hbody.trans (prints_varPrintf _ (noZero_of_all rfl)))
  · intro hlong hzero
    rw [if_pos hlong]
    have hopen : Prints p (p.varPrintf (text "[text]")) (text "[text]") :=
      prints_varPrintf p (noZero_of_all rfl)
    have hbytes : ∀ f ∈ str.map fun chr => [chr], ∀ b ∈ f, b ≠ 0 := by
      intro f hf b hb
      obtain ⟨chr, hchr, rfl⟩ := List.mem_map.mp hf
      exact List.mem_singleton.mp hb ▸ hzero chr hchr
    have hbody := prints_varPrintfs _ hbytes (p.varPrintf (text "[text]"))
    rw [← List.flatMap_def, List.flatMap_singleton'] at hbody
    exact hopen.trans (hbody.trans (prints_varPrintf _ (noZero_of_all rfl)))

end Prints

/-! ### Data -/

section Data

variable {env : Printing} {lc : Locale}

mutual

/-- The cell that is read where this one is printed: `nil` and `true` are symbols, there is one
zero, and bytecode is no data. -/
def asRead : Cell → Cell
  | .nil => .symbol nilSymbol
  | .true_ => .symbol trueSymbol
  | .bigint b => .bigint b.unsigned
  | .context s => .symbol s
  | .quote c => .quote (asRead c)
  | .expression cs => .expression (asReadAll cs)
  | .lambda _ cs => .lambda none (asReadAll cs)
  | .fexpr cs => .fexpr (asReadAll cs)
  | c => c

def asReadAll : List Cell → List Cell
  | [] => []
  | c :: cs => asRead c :: asReadAll cs

end

mutual

/-- What can be read: integers of at most `MAX_DIGITS` characters, strings of any bytes that are
short or are texts without an end tag, symbols found under their names, and lists of these. -/
def IsData (lc : Locale) (T : SymbolTable) : Cell → Prop
  | .nil => T.currentContext = SymbolTable.mainContext ∨ T.has ⟨T.currentContext, "nil"⟩ = false
  | .true_ => T.currentContext = SymbolTable.mainContext ∨ T.has ⟨T.currentContext, "true"⟩ = false
  | .long _ => True
  | .bigint b => b.Canonical ∧ b.toDigits.length ≤ maxDigits
  | .string s => s.length < maxString ∨ (∀ b ∈ s, b ≠ 0) ∧ HoldsNoLimit s
  | .symbol s | .context s => IsPrintable lc T s
  | .dynSymbol s name => IsPrintableDyn lc T s name
  | .quote c => IsData lc T c
  | .expression cs | .lambda _ cs | .fexpr cs => IsDataAll lc T cs
  | _ => False

def IsDataAll (lc : Locale) (T : SymbolTable) : List Cell → Prop
  | [] => True
  | c :: cs => IsData lc T c ∧ IsDataAll lc T cs

end

/-- A global symbol whose name is a plain word is found by its name. -/
theorem foundByName_global {T : SymbolTable} (hT : T.WellFormed) {s : Symbol}
    (hglobal : T.isGlobal s = true)
    (hhidden : T.currentContext = SymbolTable.mainContext ∨
      T.has ⟨T.currentContext, s.name⟩ = false) {chr : UInt8} {l : List UInt8}
    (heq : nameBytes s.name = chr :: l) (hword : IsPlainWord lc chr l)
    (hkey : chr :: l ∉ keywords) (hchr : chr ≠ '$'.toUInt8) :
    T.has s = true ∧ printsContext T s = false ∧ FoundByName lc T s := by
  have hmain := hT.global_main s hglobal
  have hhas : T.has s = true := by
    unfold SymbolTable.isGlobal at hglobal
    unfold SymbolTable.has
    cases hfind : T.find s with
    | none => simp [hfind] at hglobal
    | some info => rfl
  have hnotHidden : s.context = T.currentContext ∨ T.has ⟨T.currentContext, s.name⟩ = false :=
    hhidden.imp_left fun h => hmain.trans h.symm
  have hprints : printsContext T s = false := by
    rcases hhidden with hcurrent | hhidden
    · simp [printsContext, hmain, hcurrent]
    · have hcurrent : s.context ≠ T.currentContext := by
        rintro h
        rw [← h, hhas] at hhidden
        cases hhidden
      simp [printsContext, hglobal, hhidden, hcurrent]
  refine ⟨hhas, hprints, heq ▸ .plain hword, heq ▸ hkey, ?_, fun h => ?_, hnotHidden⟩
  · have hbracket := hword.noBracket.2
    rw [heq]
    change (('['.toUInt8 == chr) && _) = false
    rw [beq_eq_false_iff_ne.mpr hbracket.symm, Bool.false_and]
  · rw [heq] at h
    exact absurd (Option.some.inj h) hchr

theorem isPlainWord_nil : IsPlainWord lc 'n'.toUInt8 (text "il") where
  noNumber := by
    refine ⟨.inl ⟨rfl, by decide, fun h => ?_⟩, ?_⟩
    · exact absurd h.1 (by decide)
    · rintro (h | ⟨-, h⟩) <;> revert h <;> decide
  first := rfl
  noBracket := by decide
  rest := List.all_eq_true.mp rfl
  length := by decide

theorem isPlainWord_true : IsPlainWord lc 't'.toUInt8 (text "rue") where
  noNumber := by
    refine ⟨.inl ⟨rfl, by decide, fun h => ?_⟩, ?_⟩
    · exact absurd h.1 (by decide)
    · rintro (h | ⟨-, h⟩) <;> revert h <;> decide
  first := rfl
  noBracket := by decide
  rest := List.all_eq_true.mp rfl
  length := by decide

/-! ### The texts are C strings -/

theorem noZero_of_digits {t : List UInt8} (h : ∀ b ∈ t, isDigit b = true) : ∀ b ∈ t, b ≠ 0 := by
  rintro b hb rfl
  cases h _ hb

theorem noZero_signText (negative : Bool) : ∀ b ∈ Bigint.signText negative, b ≠ 0 := by
  cases negative <;> exact noZero_of_all rfl

theorem noZero_append {t u : List UInt8} (ht : ∀ b ∈ t, b ≠ 0) (hu : ∀ b ∈ u, b ≠ 0) :
    ∀ b ∈ t ++ u, b ≠ 0 := fun b hb =>
  (List.mem_append.mp hb).elim (ht b) (hu b)

theorem IsPlainWord.noZero {chr : UInt8} {l : List UInt8} (h : IsPlainWord lc chr l) :
    ∀ b ∈ chr :: l, b ≠ 0 := by
  have hall : ∀ b ∈ chr :: l, isSymbolChar b = true := fun b hb =>
    (List.mem_cons.mp hb).elim (fun heq => heq ▸ h.first) (h.rest b)
  rintro b hb rfl
  cases hall _ hb

theorem IsWord.noZero {n : List UInt8} (h : IsWord lc n) : ∀ b ∈ n, b ≠ 0 := by
  cases h with
  | comma => exact noZero_of_all rfl
  | colon => exact noZero_of_all rfl
  | bracketed l inside =>
      rw [← List.singleton_append]
      exact noZero_append (noZero_of_all rfl)
        (noZero_append (fun b hb => (inside b hb).2) (noZero_of_all rfl))
  | plain h => exact h.noZero

theorem IsContextWord.noZero {n : List UInt8} (h : IsContextWord lc n) : ∀ b ∈ n, b ≠ 0 := by
  obtain ⟨chr, l, rfl, hword⟩ := h
  exact hword.noZero

theorem noZero_qualified {context name : String} (hcontext : IsContextWord lc (nameBytes context))
    (hword : IsWord lc (nameBytes name)) : ∀ b ∈ qualified context name, b ≠ 0 := by
  rw [qualified, ← List.singleton_append]
  exact noZero_append hcontext.noZero (noZero_append (noZero_of_all rfl) hword.noZero)

theorem IsPrintable.noZero {T : SymbolTable} {s : Symbol} (h : IsPrintable lc T s) :
    ∀ b ∈ symbolText T s, b ≠ 0 := by
  unfold symbolText
  by_cases hprints : printsContext T s = true
  · rw [if_pos hprints]
    have hfound := h.byContext hprints
    exact noZero_qualified hfound.contextWord hfound.word
  · rw [if_neg hprints]
    exact (h.byName (Bool.eq_false_iff.mpr hprints)).word.noZero

/-! ### Printing and reading -/

/-- What an atom is printed as. -/
theorem prints_atom {c : AtomCell} {T : SymbolTable} {t : List UInt8} {p p' : Printer}
    (hout : p'.out = (p.varPrintf t).out) (hzero : ∀ b ∈ t, b ≠ 0) (h : ReadsAtom lc T c t) :
    ∃ t, Prints p p' t ∧ Reads lc T c t :=
  ⟨t, (prints_varPrintf p hzero).same hout, h.reads⟩

/-- `nil` and `true` -/
theorem prints_global {T : SymbolTable} (hT : T.WellFormed) {s : Symbol}
    (hglobal : T.isGlobal s = true)
    (hhidden : T.currentContext = SymbolTable.mainContext ∨
      T.has ⟨T.currentContext, s.name⟩ = false) {chr : UInt8} {l : List UInt8}
    (hname : IsName s.name) (heq : nameBytes s.name = chr :: l) (hword : IsPlainWord lc chr l)
    (hkey : chr :: l ∉ keywords) (hchr : chr ≠ '$'.toUInt8) {p p' : Printer}
    (hout : p'.out = (p.varPrintf (chr :: l)).out) :
    ∃ t, Prints p p' t ∧ Reads lc T (.symbol s) t := by
  obtain ⟨hhas, hprints, hfound⟩ := foundByName_global hT hglobal hhidden heq hword hkey hchr
  have hread := hfound.readsAtom hT hhas hname hprints
  rw [heq] at hread
  exact prints_atom (c := ⟨.symbol s, rfl⟩) hout hword.noZero hread

theorem prints_symbol {T : SymbolTable} (hT : T.WellFormed) {s : Symbol} {p p' : Printer}
    (h : IsPrintable lc T s) (hout : p'.out = (p.varPrintf (symbolText T s)).out) :
    ∃ t, Prints p p' t ∧ Reads lc T (.symbol s) t :=
  prints_atom (c := ⟨.symbol s, rfl⟩) hout h.noZero (h.readsAtom hT)

/-- The opening of a list, which can be on a new line. -/
theorem prints_opening (env : Printing) (p : Printer) (head : Nat) :
    ∃ w, Prints p (if head ≠ 0 then ((p.breakBefore env).prettyPrint env).openPar ['('.toUInt8]
      else (p.breakBefore env).openPar ['('.toUInt8]) (w ++ ['('.toUInt8]) ∧ Blank w := by
  obtain ⟨w, hw, hblank⟩ := prints_breakBefore env p
  by_cases hhead : head ≠ 0
  · obtain ⟨w', hw', hblank'⟩ := prints_prettyPrint env (p.breakBefore env)
    rw [if_pos hhead]
    refine ⟨w ++ w', (hw.trans hw').trans (prints_openPar _ (noZero_of_all rfl)), fun b hb => ?_⟩
    exact (List.mem_append.mp hb).elim (hblank b) (hblank' b)
  · rw [if_neg hhead]
    exact ⟨w, hw.trans (prints_openPar _ (noZero_of_all rfl)), hblank⟩

/-- The opening of a lambda. -/
theorem prints_keyword (env : Printing) (p : Printer) (key : List UInt8)
    (hkey : ∀ b ∈ key, b ≠ 0) : ∃ w, Prints p ((p.breakBefore env).openPar key) (w ++ key) ∧
      Blank w := by
  obtain ⟨w, hw, hblank⟩ := prints_breakBefore env p
  exact ⟨w, hw.trans (prints_openPar _ hkey), hblank⟩

theorem next_keyword {T : SymbolTable} (key : List UInt8) {k : Keyword}
    (h : (key, k) ∈ [(text "lambda", Keyword.lambda), (text "lambda-macro", Keyword.fexpr)])
    (rest : List UInt8) : (textSource lc).next ⟨key ++ ' '.toUInt8 :: rest, T⟩ =
      .value (some (.keyword k), ⟨' '.toUInt8 :: rest, T⟩) := by
  have hends : Ends (' '.toUInt8 :: rest) := .inl (UInt8.le_refl _)
  have hplain : ∀ l, (∀ b ∈ l, isSymbolChar b = true) → l.length < maxSymbol →
      IsPlainWord lc 'l'.toUInt8 l := fun l hl hlength =>
    ⟨⟨.inl ⟨rfl, by decide, fun h => absurd h.1 (by decide)⟩, by
      rintro (h | ⟨h, -⟩)
      · exact absurd h (by decide)
      · exact lc.ne_point (by decide) (by decide) h⟩, rfl, by decide, hl, hlength⟩
  simp only [List.mem_cons, Prod.mk.injEq, List.not_mem_nil, or_false] at h
  rcases h with ⟨rfl, rfl⟩ | ⟨rfl, rfl⟩
  · have htoken := (hplain (text "ambda") (List.all_eq_true.mp rfl) (by decide)).token hends
    change (textSource lc).next ⟨'l'.toUInt8 :: text "ambda" ++ _, T⟩ = _
    rw [next_token htoken]
    rfl
  · have htoken := (hplain (text "ambda-macro") (List.all_eq_true.mp rfl) (by decide)).token hends
    change (textSource lc).next ⟨'l'.toUInt8 :: text "ambda-macro" ++ _, T⟩ = _
    rw [next_token htoken]
    rfl

/-- One round of the loops of `printExpression`: white space, the item, and a blank in front of
the next one. -/
theorem printItems_cons (env : Printing) (p : Printer) (head : Option Nat) (item : Cell)
    (items : List Cell) : ∃ p₁ w p₂ head', Prints p p₁ w ∧ Blank w ∧
      printItems env p head (item :: items) = printItems env p₂ head' items ∧
      p₂.out = (printCell env p₁ true item).out ++ if items = [] then [] else [' '.toUInt8] := by
  have hround : ∀ p : Printer, ∃ p₁ w p₂, Prints p p₁ w ∧ Blank w ∧
      printItems env p none (item :: items) = printItems env p₂ none items ∧
      p₂.out = (printCell env p₁ true item).out ++ if items = [] then [] else [' '.toUInt8] := by
    intro p
    have hblank : ∃ w, Prints p (if env.prettyPrintMaxLength < p.length then p.prettyPrint env
        else p) w ∧ Blank w := by
      split_ifs
      · exact prints_prettyPrint env p
      · exact ⟨[], Prints.refl p, by simp [Blank]⟩
    obtain ⟨w, hw, hblank⟩ := hblank
    refine ⟨_, w, _, hw, hblank, by rw [printItems]; rfl, ?_⟩
    by_cases hitems : items = []
    · rw [if_pos hitems, if_pos hitems, List.append_nil]
    · rw [if_neg hitems, if_neg hitems]
      rfl
  cases head with
  | none =>
      obtain ⟨p₁, w, p₂, h⟩ := hround p
      exact ⟨p₁, w, p₂, none, h⟩
  | some i =>
      cases i with
      | zero =>
          -- the other items are printed from a new line on
          obtain ⟨w, hw, hblank⟩ := prints_prettyPrint env p
          obtain ⟨p₁, w', p₂, hw', hblank', hitems, hout⟩ := hround (p.prettyPrint env)
          refine ⟨p₁, w ++ w', p₂, none, hw.trans hw', fun b hb => ?_, ?_, hout⟩
          · exact (List.mem_append.mp hb).elim (hblank b) (hblank' b)
          · rw [← hitems, printItems, printItems]
            rfl
      | succ i =>
          refine ⟨p, [], _, some i, Prints.refl p, by simp [Blank], by rw [printItems]; rfl, ?_⟩
          by_cases hitems : items = []
          · rw [if_pos hitems, if_pos hitems, List.append_nil]
          · rw [if_neg hitems, if_neg hitems]
            rfl

mutual

/-- What `printCell` prints of data is read as the data. -/
theorem prints_printCell (hT : env.table.WellFormed) (c : Cell) (hc : IsData lc env.table c)
    (p : Printer) :
    ∃ t, Prints p (printCell env p true c) t ∧ Reads lc env.table (asRead c) t := by
  cases c with
  | nil => exact prints_global hT hT.nil hc rfl rfl isPlainWord_nil (by decide) (by decide) rfl
  | true_ => exact prints_global hT hT.true_ hc rfl rfl isPlainWord_true (by decide) (by decide) rfl
  | long n =>
      refine prints_atom (c := ⟨.long n, rfl⟩) rfl ?_ (readsAtom_long n)
      rw [decimalInt_eq]
      exact noZero_append (noZero_signText _) (noZero_of_digits (isDigit_decimal _))
  | bigint b =>
      refine prints_atom (c := ⟨.bigint b.unsigned, rfl⟩) rfl ?_ (readsAtom_bigint hc.1 hc.2)
      obtain ⟨t, ht, -, htext⟩ := hc.1.text
      rw [htext]
      exact noZero_append (noZero_append (noZero_signText _) (noZero_of_digits ht.isDigit))
        (noZero_of_all rfl)
  | float x => exact hc.elim
  | string s =>
      obtain ⟨hshort, hlong⟩ := prints_printString env p s
      by_cases hlength : s.length < maxString
      · exact ⟨_, (hshort hlength).same rfl, (readsAtom_string _ hlength.le).reads⟩
      · obtain ⟨hzero, hlimit⟩ := Or.resolve_left hc hlength
        exact ⟨_, (hlong (by omega) hzero).same rfl, (readsAtom_text hlimit).reads⟩
  | symbol s => exact prints_symbol hT hc rfl
  | context s => exact prints_symbol hT hc rfl
  | primitive q => exact hc.elim
  | quote c =>
      obtain ⟨t, ht, hreads⟩ :=
        prints_printCell hT c hc { p.varPrintf [apostrophe] with double := true }
      have hquote : Prints p { p.varPrintf [apostrophe] with double := true } [apostrophe] :=
        (prints_varPrintf p (noZero_of_all rfl)).same rfl
      exact ⟨_, (hquote.trans ht).same rfl, hreads.quote⟩
  | expression cs =>
      obtain ⟨w, hopen, hblank⟩ := prints_opening env p (printType env.table cs)
      generalize hopened : (if printType env.table cs ≠ 0 then
        ((p.breakBefore env).prettyPrint env).openPar ['('.toUInt8]
        else (p.breakBefore env).openPar ['('.toUInt8]) = p₁ at hopen
      obtain ⟨t, ht, hreads⟩ := prints_printItems hT cs hc p₁
        (if printType env.table cs ≠ 0 then some (printType env.table cs) else none)
      refine ⟨w ++ '('.toUInt8 :: (t ++ [')'.toUInt8]), ?_, hreads.reads.blanks hblank⟩
      have hclosed := (hopen.trans ht).trans (prints_closePar _)
      rw [List.append_assoc, List.append_assoc, List.singleton_append] at hclosed
      rw [printCell, hopened]
      exact hclosed.same rfl
  | lambda s cs =>
      obtain ⟨w, hopen, hblank⟩ := prints_keyword env p (text "(lambda ") (noZero_of_all rfl)
      obtain ⟨t, ht, hreads⟩ := prints_printItems hT cs hc _ none
      have hclosed := (hopen.trans ht).trans (prints_closePar _)
      rw [List.append_assoc, List.append_assoc] at hclosed
      exact ⟨_, hclosed.same rfl, (hreads.reads_keyword (k := .lambda)
        (next_keyword (text "lambda") (by decide))).blanks hblank⟩
  | fexpr cs =>
      obtain ⟨w, hopen, hblank⟩ := prints_keyword env p (text "(lambda-macro ") (noZero_of_all rfl)
      obtain ⟨t, ht, hreads⟩ := prints_printItems hT cs hc _ none
      have hclosed := (hopen.trans ht).trans (prints_closePar _)
      rw [List.append_assoc, List.append_assoc] at hclosed
      exact ⟨_, hclosed.same rfl, (hreads.reads_keyword (k := .fexpr)
        (next_keyword (text "lambda-macro") (by decide))).blanks hblank⟩
  | array cs => exact hc.elim
  | dynSymbol s name =>
      exact prints_atom (c := ⟨.dynSymbol s name, rfl⟩) rfl
        (noZero_qualified hc.contextWord hc.word) hc.readsAtom

theorem prints_printItems (hT : env.table.WellFormed) (cs : List Cell)
    (hcs : IsDataAll lc env.table cs) (p : Printer) (head : Option Nat) :
    ∃ t, Prints p (printItems env p head cs) t ∧ ReadsItems lc env.table (asReadAll cs) t := by
  cases cs with
  | nil => exact ⟨[], Prints.refl p, readsItems_nil⟩
  | cons c cs =>
      obtain ⟨p₁, w, p₂, head', hw, hblank, hitems, hout⟩ := printItems_cons env p head c cs
      obtain ⟨t, ht, hread⟩ := prints_printCell hT c hcs.1 p₁
      obtain ⟨t', ht', hreads⟩ := prints_printItems hT cs hcs.2 p₂ head'
      have hcell := hread.blanks hblank
      rw [hitems]
      cases cs with
      | nil =>
          have hprints := (hw.trans ht).same (hout.trans (List.append_nil _))
          have hreads := hcell.cons readsItems_nil fun rest => .inr rfl
          rw [List.append_nil] at hreads
          exact ⟨_, hprints, hreads⟩
      | cons c' cs =>
          have hspace : Prints (printCell env p₁ true c) p₂ [' '.toUInt8] :=
            ⟨hout, noZero_of_all rfl⟩
          refine ⟨_, (hw.trans ht).trans (hspace.trans ht'), ?_⟩
          exact hcell.cons (hreads.blanks (w := [' '.toUInt8]) (by simp [Blank]))
            fun rest => .inl (UInt8.le_refl _)

end

end Data

/-- The symbols `nil`, `true` and `x` of `MAIN`. -/
def smallTable : SymbolTable where
  find s :=
    if s = ⟨"MAIN", "MAIN"⟩ then some ⟨symbolGlobal, true⟩
    else if s = nilSymbol ∨ s = trueSymbol then some ⟨symbolGlobal, false⟩
    else if s = ⟨"MAIN", "x"⟩ then some ⟨0, false⟩
    else none
  currentContext := "MAIN"

theorem blank_space : Blank [' '.toUInt8] := by simp [Blank]

def smallPrinting : Printing where
  table := smallTable
  stringOutputRaw := false
  prettyPrintTab := [' '.toUInt8]
  blankTab := blank_space
  prettyPrintMaxLength := 80
  format _ := []

def smallLocale : Locale where
  decimalPoint := '.'.toUInt8
  isPoint := .inl rfl
  atof _ := ⟨0⟩
  stringOutputRaw := false

/-- `(x "\n\000" -5 nil '())` -/
def smallList : Cell :=
  .expression [.symbol ⟨"MAIN", "x"⟩, .string [10, 0], .long (-5), .nil, .quote (.expression [])]

end NewLispNeo
