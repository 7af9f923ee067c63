/-
The grammar of expressions, and what `compileExpression` accepts beside it: it
counts parentheses, so that a quote may take a closing one, and it marks the cell
linked last as a lambda.  And what it reads is lost when the nursery is full before
the end.
-/
import NewLispNeo.Reader

namespace NewLispNeo

mutual

/-- `expr ::= atom | quote expr | ( [lambda-keyword] expr* )`, with its cell. -/
inductive Expr : List Lexeme → Cell → Prop
  | atom (a : AtomCell) : Expr [.atom a] a.val
  | quote {w : List Lexeme} {c : Cell} : Expr w c → Expr (.quote :: w) (.quote c)
  | list {w : List Lexeme} {cs : List Cell} :
      Exprs w cs → Expr (.leftPar :: (w ++ [.rightPar])) (.expression cs)
  | lambda {w : List Lexeme} {cs : List Cell} (k : Keyword) :
      Exprs w cs → Expr (.leftPar :: .keyword k :: (w ++ [.rightPar])) (k.cell cs)

inductive Exprs : List Lexeme → List Cell → Prop
  | nil : Exprs [] []
  | cons {v w : List Lexeme} {c : Cell} {cs : List Cell} :
      Expr v c → Exprs w cs → Exprs (v ++ w) (c :: cs)

end

/-- A list that no keyword has marked. -/
def isPlain : Cell → Bool
  | .expression _ => true
  | _ => false

mutual

/-- What is read as an element with `n` parentheses open: whether it is a plain
list, whether the grammar was left on the way, how many parentheses are open
after it, and the rest. -/
inductive LooseElement : Nat → List Lexeme → Bool → Bool → Nat → List Lexeme → Prop
  | atom {n : Nat} {a : AtomCell} {rest : List Lexeme} :
      LooseElement n (.atom a :: rest) false false n rest
  | quote {n m : Nat} {plain left : Bool} {ts rest : List Lexeme} :
      LooseElement n ts plain left m rest →
      LooseElement n (.quote :: ts) false left m rest
  | quoteClose {n : Nat} {rest : List Lexeme} :
      LooseElement (n + 1) (.quote :: .rightPar :: rest) false true n rest
  | quoteEnd : LooseElement 0 [.quote] false true 0 []
  | list {n m : Nat} {plain left : Bool} {ts rest : List Lexeme} :
      LooseBody (n + 1) true none ts plain left m rest →
      LooseElement n (.leftPar :: ts) plain left m rest

/-- What is read inside a list: whether the list is plain so far, and its last
element if it has one.  With no parenthesis left open every list is closed. -/
inductive LooseBody : Nat → Bool → Option Bool → List Lexeme → Bool → Bool → Nat →
    List Lexeme → Prop
  | close {n : Nat} {plain : Bool} {last : Option Bool} {rest : List Lexeme} :
      LooseBody (n + 1) plain last (.rightPar :: rest) plain false n rest
  | keyword {n m : Nat} {k : Keyword} {plain left : Bool} {ts rest : List Lexeme} :
      LooseBody n false none ts plain left m rest →
      LooseBody n true none (.keyword k :: ts) plain left m rest
  | keywordAfter {n m : Nat} {k : Keyword} {plain plain' left : Bool}
      {ts rest : List Lexeme} :
      LooseBody n plain (some false) ts plain' left m rest →
      LooseBody n plain (some true) (.keyword k :: ts) plain' true m rest
  | next {n l m : Nat} {plain p plain' left left' : Bool} {last : Option Bool}
      {ts ts' rest : List Lexeme} :
      LooseElement n ts p left (l + 1) ts' →
      LooseBody (l + 1) plain (some p) ts' plain' left' m rest →
      LooseBody n plain last ts plain' (left || left') m rest
  | finish {n : Nat} {plain p left : Bool} {last : Option Bool} {ts rest : List Lexeme} :
      LooseElement n ts p left 0 rest →
      LooseBody n plain last ts plain left 0 rest

end

/-- The sequence starts with what is read, but only outside the grammar. -/
def Misread (ts : List Lexeme) : Prop :=
  ∃ plain m rest, LooseElement 0 ts plain true m rest

/-- The cells that are taken for a sequence. -/
def cellsOf (atoms : AtomCell → Nat) (ts : List Lexeme) : Nat :=
  (ts.map (Lexeme.cells atoms)).sum

mutual

/-- An element with `n` parentheses open has a token for which there are not enough
cells, behind what is read with the `room` cells there are. -/
inductive FullElement (atoms : AtomCell → Nat) : Nat → Nat → List Lexeme → Prop
  | token {room n : Nat} {t : Lexeme} {rest : List Lexeme} :
      room < t.cells atoms → FullElement atoms room n (t :: rest)
  | quote {room n : Nat} {ts : List Lexeme} :
      FullElement atoms room n ts → FullElement atoms (room + 1) n (.quote :: ts)
  | list {room n : Nat} {ts : List Lexeme} :
      FullBody atoms room (n + 1) true none ts →
      FullElement atoms (room + 1) n (.leftPar :: ts)

/-- And so has what is inside of a list. -/
inductive FullBody (atoms : AtomCell → Nat) : Nat → Nat → Bool → Option Bool →
    List Lexeme → Prop
  | keyword {room n : Nat} {k : Keyword} {ts : List Lexeme} :
      FullBody atoms room n false none ts →
      FullBody atoms room n true none (.keyword k :: ts)
  | keywordAfter {room n : Nat} {k : Keyword} {plain : Bool} {ts : List Lexeme} :
      FullBody atoms room n plain (some false) ts →
      FullBody atoms room n plain (some true) (.keyword k :: ts)
  | element {room n : Nat} {plain : Bool} {last : Option Bool} {ts : List Lexeme} :
      FullElement atoms room n ts → FullBody atoms room n plain last ts
  | next {room room' n l : Nat} {plain p left : Bool} {last : Option Bool}
      {ts ts' : List Lexeme} :
      LooseElement n ts p left (l + 1) ts' →
      room + cellsOf atoms ts' = room' + cellsOf atoms ts →
      FullBody atoms room' (l + 1) plain (some p) ts' →
      FullBody atoms room n plain last ts

end

/-- A top-level read. -/
def readTokens (atoms : AtomCell → Nat) (room fuel : Nat) (ts : List Lexeme) :
    Outcome ReadError (Reading (List Lexeme × Nat)) :=
  compileExpression (tokenSource.withRoom atoms) fuel ⟨.quote, []⟩ (ts, room) 0

/-- The read succeeds just with the expression that the sequence starts with, and
no parenthesis open, and raises an error if there is none. -/
structure ReadsGrammar (atoms : AtomCell → Nat) (room fuel : Nat) (ts : List Lexeme) :
    Prop where
  accepts : ∀ t rest, (∃ room', readTokens atoms room fuel ts =
      .value ⟨true, ⟨.quote, [t]⟩, (rest, room'), 0⟩) ↔ ∃ w, ts = w ++ rest ∧ Expr w t
  rejects : (¬ ∃ w rest t, ts = w ++ rest ∧ Expr w t) →
    ∃ e, readTokens atoms room fuel ts = .error e

theorem Expr.ne_nil {w : List Lexeme} {c : Cell} (h : Expr w c) : w ≠ [] := by
  cases h <;> simp

section Complete

variable {atoms : AtomCell → Nat} {fuel n room room' : Nat} {cell : Envelope}
  {w rest ts : List Lexeme} {c : Cell} {cs : List Cell}

/-- The rest of a call in which the cell of the next element is read. -/
abbrev afterElement (atoms : AtomCell → Nat) (fuel : Nat) (cell : Envelope) (c : Cell)
    (stream : List Lexeme × Nat) (n : Nat) :
    Outcome ReadError (Reading (List Lexeme × Nat)) :=
  linkCell (tokenSource.withRoom atoms) (compileExpression (tokenSource.withRoom atoms) fuel)
    cell c stream n

theorem afterElement_quote :
    afterElement atoms fuel ⟨.quote, []⟩ c (rest, room) n =
      .value ⟨true, ⟨.quote, [c]⟩, (rest, room), n⟩ := by
  simp [linkCell]

theorem afterElement_open (hcell : cell.type ≠ .quote) (hrest : rest ≠ []) :
    afterElement atoms fuel cell c (rest, room) (n + 1) =
      compileExpression (tokenSource.withRoom atoms) fuel
        { cell with cells := cell.cells ++ [c] } (rest, room) (n + 1) := by
  simp [linkCell, hcell, tokenSource, TokenSource.withRoom, hrest]

theorem afterElement_closed (hcell : cell.type ≠ .quote) :
    afterElement atoms fuel cell c (rest, room) 0 =
      .value ⟨false, { cell with cells := cell.cells ++ [c] }, (rest, room), 0⟩ := by
  simp [linkCell, hcell]

theorem next_withRoom {t : Lexeme} (h : t.cells atoms ≤ room) :
    (tokenSource.withRoom atoms).next (t :: rest, room) =
      .value (some t, (rest, room - t.cells atoms)) := TokenSource.withRoom_next rfl h

/-- There are not enough cells for the token. -/
theorem compile_full {t : Lexeme} (h : room < t.cells atoms) :
    compileExpression (tokenSource.withRoom atoms) (fuel + 1) cell (t :: rest, room) n =
      .undefined :=
  compileExpression_undefined (if_neg (Nat.not_le.mpr h)) fuel cell n

theorem compile_atom {a : AtomCell} (h : atoms a ≤ room) :
    compileExpression (tokenSource.withRoom atoms) (fuel + 1) cell (.atom a :: rest, room) n =
      afterElement atoms fuel cell a.val (rest, room - atoms a) n := by
  rw [compileExpression, next_withRoom h]
  rfl

theorem compile_quote :
    compileExpression (tokenSource.withRoom atoms) (fuel + 1) cell (.quote :: ts, room + 1) n =
      (do
        let inner ← compileExpression (tokenSource.withRoom atoms) fuel ⟨.quote, []⟩
          (ts, room) n
        afterElement atoms fuel cell inner.cell.cell inner.stream inner.parStackCounter) := by
  rw [compileExpression, next_withRoom (Nat.le_add_left 1 room)]
  rfl

theorem compile_leftPar :
    compileExpression (tokenSource.withRoom atoms) (fuel + 1) cell (.leftPar :: ts, room + 1)
        n =
      (do
        let inner ← compileExpression (tokenSource.withRoom atoms) fuel ⟨.expression, []⟩
          (ts, room) (n + 1)
        afterElement atoms fuel cell inner.cell.cell inner.stream inner.parStackCounter) := by
  rw [compileExpression, next_withRoom (Nat.le_add_left 1 room)]
  rfl

theorem compile_rightPar :
    compileExpression (tokenSource.withRoom atoms) (fuel + 1) cell (.rightPar :: ts, room)
      (n + 1) = .value ⟨true, cell, (ts, room), n⟩ := by
  rw [compileExpression, next_withRoom (Nat.zero_le room)]
  rfl

theorem compile_keyword {k : Keyword} :
    compileExpression (tokenSource.withRoom atoms) (fuel + 1) cell (.keyword k :: ts, room) n =
      (do
        let cell ← cell.mark k
        compileExpression (tokenSource.withRoom atoms) fuel cell (ts, room) n) := by
  rw [compileExpression, next_withRoom (Nat.zero_le room)]
  rfl

theorem Keyword.type_ne_quote (k : Keyword) : k.type ≠ .quote := by
  cases k <;> simp [Keyword.type]

theorem cellsOf_cons (atoms : AtomCell → Nat) (t : Lexeme) (ts : List Lexeme) :
    cellsOf atoms (t :: ts) = t.cells atoms + cellsOf atoms ts := List.sum_cons

theorem cellsOf_append (atoms : AtomCell → Nat) (ts us : List Lexeme) :
    cellsOf atoms (ts ++ us) = cellsOf atoms ts + cellsOf atoms us := by
  rw [cellsOf, List.map_append, List.sum_append, cellsOf, cellsOf]

mutual

/-- An expression of the grammar is read, whatever follows it. -/
theorem Expr.read {w : List Lexeme} {c : Cell} (cell : Envelope) (n room : Nat)
    (rest : List Lexeme) (fuel : Nat) : Expr w c → (w ++ rest).length ≤ fuel →
      compileExpression (tokenSource.withRoom atoms) (fuel + 1) cell
          (w ++ rest, cellsOf atoms w + room) n =
        afterElement atoms fuel cell c (rest, room) n
  | .atom a, _ => by
      have hroom : atoms a ≤ cellsOf atoms [.atom a] + room := Nat.le_add_right _ _
      rw [List.singleton_append, compile_atom hroom]
      simp [cellsOf, Lexeme.cells]
  | .quote (w := w) h, hfuel => by
      obtain ⟨fuel, rfl⟩ : ∃ k, fuel = k + 1 := ⟨fuel - 1, by simp at hfuel; omega⟩
      have hread := h.read ⟨.quote, []⟩ n room rest fuel (by simp at hfuel ⊢; omega)
      have hcells : cellsOf atoms (.quote :: w) + room = cellsOf atoms w + room + 1 := by
        rw [cellsOf_cons, Lexeme.cells]
        omega
      rw [List.cons_append, hcells, compile_quote, hread, afterElement_quote]
      rfl
  | .list (w := w) h, hfuel => by
      have hread := h.read ⟨.expression, []⟩ n room rest fuel (by simp)
        (by simp at hfuel ⊢; omega)
      have hcells : cellsOf atoms (.leftPar :: (w ++ [.rightPar])) + room =
          cellsOf atoms w + room + 1 := by
        rw [cellsOf_cons, cellsOf_append, Lexeme.cells]
        simp [cellsOf, Lexeme.cells]
        omega
      rw [List.cons_append, hcells, List.append_assoc, List.singleton_append, compile_leftPar,
        hread]
      rfl
  | .lambda (w := w) k h, hfuel => by
      obtain ⟨fuel, rfl⟩ : ∃ m, fuel = m + 1 := ⟨fuel - 1, by simp at hfuel; omega⟩
      have hread := h.read ⟨k.type, []⟩ n room rest fuel k.type_ne_quote
        (by simp at hfuel ⊢; omega)
      have hmark : (⟨.expression, []⟩ : Envelope).mark k = .value ⟨k.type, []⟩ := rfl
      have hcells : cellsOf atoms (.leftPar :: .keyword k :: (w ++ [.rightPar])) + room =
          cellsOf atoms w + room + 1 := by
        rw [cellsOf_cons, cellsOf_cons, cellsOf_append, Lexeme.cells, Lexeme.cells]
        simp [cellsOf, Lexeme.cells]
        omega
      rw [List.cons_append, List.cons_append, hcells, List.append_assoc, List.singleton_append,
        compile_leftPar, compile_keyword, hmark, Outcome.value_bind, hread]
      rfl

theorem Exprs.read {w : List Lexeme} {cs : List Cell} (cell : Envelope) (n room : Nat)
    (rest : List Lexeme) (fuel : Nat) : Exprs w cs → cell.type ≠ .quote →
      (w ++ .rightPar :: rest).length < fuel →
      compileExpression (tokenSource.withRoom atoms) fuel cell
          (w ++ .rightPar :: rest, cellsOf atoms w + room) (n + 1) =
        .value ⟨true, { cell with cells := cell.cells ++ cs }, (rest, room), n⟩
  | .nil, _, hfuel => by
      obtain ⟨fuel, rfl⟩ : ∃ m, fuel = m + 1 := ⟨fuel - 1, by simp at hfuel; omega⟩
      have hcells : cellsOf atoms [] + room = room := Nat.zero_add room
      rw [List.nil_append, hcells, compile_rightPar, List.append_nil]
  | .cons (v := v) (w := w) (c := c) h hs, hcell, hfuel => by
      have hpos := List.length_pos_of_ne_nil h.ne_nil
      obtain ⟨fuel, rfl⟩ : ∃ m, fuel = m + 1 := ⟨fuel - 1, by simp at hfuel; omega⟩
      have hread := h.read cell (n + 1) (cellsOf atoms w + room) (w ++ .rightPar :: rest) fuel
        (by simp at hfuel ⊢; omega)
      have hrest := hs.read { cell with cells := cell.cells ++ [c] } n room rest fuel hcell
        (by simp at hfuel ⊢; omega)
      rw [List.append_assoc, cellsOf_append, Nat.add_assoc, hread,
        afterElement_open hcell (by simp), hrest]
      simp

end

end Complete

/-- An element is read by the looser rules, and by the grammar where these are not
needed. -/
def ElementRead (n : Nat) (ts : List Lexeme) (c : Cell) (m : Nat) (rest : List Lexeme) :
    Prop :=
  ∃ left, LooseElement n ts (isPlain c) left m rest ∧
    (left = false → m = n ∧ ∃ w, ts = w ++ rest ∧ Expr w c)

/-- What a call for the operand of a quote, or at top level, reads. -/
inductive QuoteRead : Nat → List Lexeme → Reading (List Lexeme × Nat) → Prop
  | empty {room : Nat} : QuoteRead 0 [] ⟨false, ⟨.quote, []⟩, ([], room), 0⟩
  | close {n room : Nat} {rest : List Lexeme} :
      QuoteRead (n + 1) (.rightPar :: rest) ⟨true, ⟨.quote, []⟩, (rest, room), n⟩
  | element {n m room : Nat} {ts rest : List Lexeme} {c : Cell} :
      ElementRead n ts c m rest → QuoteRead n ts ⟨true, ⟨.quote, [c]⟩, (rest, room), m⟩

section Sound

variable {atoms : AtomCell → Nat} {fuel n m room room' : Nat} {cell : Envelope}
  {ts rest : List Lexeme} {c : Cell} {r : Reading (List Lexeme × Nat)}

/-- No keyword has marked the list so far. -/
def Envelope.plain (cell : Envelope) : Bool := cell.type = .expression

/-- Whether the cell linked last is a plain list. -/
def Envelope.last (cell : Envelope) : Option Bool := cell.cells.getLast?.map isPlain

theorem isPlain_cell (cell : Envelope) : isPlain cell.cell = cell.plain := by
  obtain ⟨type, cells⟩ := cell
  cases type <;> rfl

theorem isPlain_atom (a : AtomCell) : isPlain a.val = false := by
  obtain ⟨c, hc⟩ := a
  cases c <;> first | rfl | exact absurd hc (by simp [isAtom])

theorem isPlain_keyword (k : Keyword) (cs : List Cell) : isPlain (k.cell cs) = false := by
  cases k <;> rfl

theorem mark_value {k : Keyword} {next : Envelope} (h : cell.mark k = .value next) :
    (cell.cells = [] ∧ cell.type = .expression ∧ next = ⟨k.type, []⟩) ∨
      (cell.last = some true ∧ next.last = some false ∧ next.type = cell.type ∧
        next.cells ≠ []) := by
  obtain ⟨type, cells⟩ := cell
  unfold Envelope.mark at h
  cases hlast : cells.getLast? with
  | none =>
      simp only [hlast] at h
      obtain rfl : cells = [] := by simpa using hlast
      by_cases htype : type = .expression
      · rw [if_pos htype, Outcome.value.injEq] at h
        exact .inl ⟨rfl, htype, h.symm⟩
      · rw [if_neg htype] at h
        cases h
  | some c =>
      simp only [hlast] at h
      cases c <;> simp only [reduceCtorEq, Outcome.value.injEq] at h
      subst h
      refine .inr ⟨by simp [Envelope.last, hlast, isPlain], ?_, rfl, by simp⟩
      simp [Envelope.last, isPlain_keyword]

/-- The rest of a list in the grammar. -/
def RestOfList (cell : Envelope) (ts : List Lexeme) (next : Envelope)
    (rest : List Lexeme) : Prop :=
  (∃ w cs, Exprs w cs ∧ ts = w ++ .rightPar :: rest ∧
    next = { cell with cells := cell.cells ++ cs }) ∨
  (cell.cells = [] ∧ cell.type = .expression ∧ ∃ k w cs, Exprs w cs ∧
    ts = .keyword k :: (w ++ .rightPar :: rest) ∧ next = ⟨k.type, cs⟩)

/-- What a call for a list reads. -/
def BodyRead (n : Nat) (cell : Envelope) (ts : List Lexeme)
    (r : Reading (List Lexeme × Nat)) : Prop :=
  ∃ left, LooseBody n cell.plain cell.last ts r.cell.plain left r.parStackCounter
      r.stream.1 ∧
    (left = false → r.parStackCounter + 1 = n ∧ RestOfList cell ts r.cell r.stream.1)

/-- As many cells are taken as the tokens that are read need. -/
def Takes (atoms : AtomCell → Nat) (room : Nat) (ts : List Lexeme)
    (stream : List Lexeme × Nat) : Prop :=
  room + cellsOf atoms stream.1 = stream.2 + cellsOf atoms ts

/-- The invariant of a call. -/
def Sound (atoms : AtomCell → Nat) (fuel : Nat) : Prop :=
  ∀ cell ts room n r,
    compileExpression (tokenSource.withRoom atoms) fuel cell (ts, room) n = .value r →
    Takes atoms room ts r.stream ∧ (cell = ⟨.quote, []⟩ → QuoteRead n ts r) ∧
    (cell.type ≠ .quote → n ≠ 0 → BodyRead n cell ts r)

/-- What the operand of a quote becomes. -/
theorem QuoteRead.elementRead (h : QuoteRead n ts r) :
    ElementRead n (.quote :: ts) r.cell.cell r.parStackCounter r.stream.1 := by
  cases h with
  | empty => exact ⟨true, .quoteEnd, by simp⟩
  | close => exact ⟨true, .quoteClose, by simp⟩
  | element h =>
      obtain ⟨left, hloose, hstrict⟩ := h
      refine ⟨left, .quote hloose, fun hleft => ?_⟩
      obtain ⟨hm, w, rfl, hexpr⟩ := hstrict hleft
      exact ⟨hm, .quote :: w, rfl, .quote hexpr⟩

theorem BodyRead.elementRead (h : BodyRead (n + 1) ⟨.expression, []⟩ ts r) :
    ElementRead n (.leftPar :: ts) r.cell.cell r.parStackCounter r.stream.1 := by
  obtain ⟨left, hloose, hstrict⟩ := h
  refine ⟨left, by rw [isPlain_cell]; exact .list hloose, fun hleft => ?_⟩
  obtain ⟨hm, hrest⟩ := hstrict hleft
  refine ⟨Nat.succ_injective hm, ?_⟩
  rcases hrest with ⟨w, cs, hexprs, rfl, hcell⟩ | ⟨-, -, k, w, cs, hexprs, rfl, hcell⟩
  · refine ⟨.leftPar :: (w ++ [.rightPar]), by simp, ?_⟩
    rw [hcell]
    exact .list hexprs
  · refine ⟨.leftPar :: .keyword k :: (w ++ [.rightPar]), by simp, ?_⟩
    rw [hcell]
    exact .lambda k hexprs

/-- After an element of a list the call goes on, or everything is closed. -/
theorem afterElement_sound (hsound : Sound atoms fuel) (hcell : cell.type ≠ .quote)
    (hn : n ≠ 0) (helement : ElementRead n ts c m rest)
    (h : afterElement atoms fuel cell c (rest, room) m = .value r) : BodyRead n cell ts r := by
  obtain ⟨left, hloose, hstrict⟩ := helement
  cases m with
  | zero =>
      rw [afterElement_closed hcell, Outcome.value.injEq] at h
      subst h
      refine ⟨left, .finish hloose, fun hleft => ?_⟩
      exact absurd (hstrict hleft).1.symm hn
  | succ m =>
      have hrest : rest ≠ [] := by
        rintro rfl
        simp [linkCell, hcell, tokenSource, TokenSource.withRoom] at h
      rw [afterElement_open hcell hrest] at h
      obtain ⟨left', hbody, hstrict'⟩ :=
        (hsound _ _ _ _ _ h).2.2 hcell (Nat.succ_ne_zero m)
      have hlast : Envelope.last { cell with cells := cell.cells ++ [c] } = some (isPlain c) := by
        simp [Envelope.last]
      rw [hlast] at hbody
      refine ⟨left || left', .next hloose hbody, fun hleft => ?_⟩
      rw [Bool.or_eq_false_iff] at hleft
      obtain ⟨hm, v, hv, hexpr⟩ := hstrict hleft.1
      obtain ⟨hm', hrest'⟩ := hstrict' hleft.2
      refine ⟨by omega, .inl ?_⟩
      rcases hrest' with ⟨w, cs, hexprs, hw, hnext⟩ | ⟨hempty, -⟩
      · refine ⟨v ++ w, c :: cs, .cons hexpr hexprs, by rw [hv, hw, List.append_assoc], ?_⟩
        rw [hnext]
        simp
      · simp at hempty

/-- What is left of the room after an element and the rest of the call. -/
theorem afterElement_takes (hsound : Sound atoms fuel)
    (hroom : Takes atoms room ts (rest, room'))
    (h : afterElement atoms fuel cell c (rest, room') m = .value r) :
    Takes atoms room ts r.stream := by
  unfold afterElement linkCell at h
  simp only at h
  split_ifs at h
  · cases h
    exact hroom
  · have hrest := (hsound _ _ _ _ _ h).1
    unfold Takes at hroom hrest ⊢
    simp only at hroom
    omega
  · cases h
    exact hroom

/-- A call that reads an element first goes on from there. -/
theorem Sound.after (hsound : Sound atoms fuel) (hroom : Takes atoms room ts (rest, room'))
    (helement : ElementRead n ts c m rest)
    (h : afterElement atoms fuel cell c (rest, room') m = .value r) :
    Takes atoms room ts r.stream ∧ (cell = ⟨.quote, []⟩ → QuoteRead n ts r) ∧
      (cell.type ≠ .quote → n ≠ 0 → BodyRead n cell ts r) := by
  refine ⟨afterElement_takes hsound hroom h, ?_,
    fun hcell hn => afterElement_sound hsound hcell hn helement h⟩
  rintro rfl
  rw [afterElement_quote, Outcome.value.injEq] at h
  subst h
  exact .element helement

/-- A token that has been read had its cells. -/
theorem cells_le_of_value {t : Lexeme}
    (h : compileExpression (tokenSource.withRoom atoms) (fuel + 1) cell (t :: ts, room) n =
      .value r) : t.cells atoms ≤ room := by
  by_contra hfull
  rw [compile_full (Nat.not_le.mp hfull)] at h
  cases h

theorem takes_cons {t : Lexeme} {stream : List Lexeme × Nat} (hfits : t.cells atoms ≤ room)
    (h : Takes atoms (room - t.cells atoms) ts stream) : Takes atoms room (t :: ts) stream := by
  unfold Takes at h ⊢
  rw [cellsOf_cons]
  omega

/-- Every call keeps the invariant. -/
theorem compile_sound (fuel : Nat) : Sound atoms fuel := by
  induction fuel with
  | zero =>
      intro cell ts room n r h
      cases h
  | succ fuel ih =>
      intro cell ts room n r h
      cases ts with
      | nil =>
          by_cases hn : n = 0
          · subst hn
            obtain rfl : r = ⟨false, cell, ([], room), 0⟩ := by
              simpa [compileExpression, tokenSource, TokenSource.withRoom, eq_comm] using h
            refine ⟨rfl, ?_, fun _ hn => absurd rfl hn⟩
            rintro rfl
            exact .empty
          · simp [compileExpression, tokenSource, TokenSource.withRoom, hn] at h
      | cons t ts =>
          have hfits := cells_le_of_value h
          cases t with
          | atom a =>
              rw [compile_atom hfits] at h
              refine ih.after (takes_cons hfits rfl) ⟨false, ?_, fun _ => ⟨rfl, [.atom a], rfl,
                .atom a⟩⟩ h
              rw [isPlain_atom]
              exact .atom
          | quote =>
              obtain ⟨room, rfl⟩ := Nat.exists_eq_add_of_le' hfits
              rw [Lexeme.cells, compile_quote, Outcome.bind_eq_value_iff] at h
              obtain ⟨inner, hinner, h⟩ := h
              have hread := ih _ _ _ _ _ hinner
              exact ih.after (takes_cons hfits hread.1) (hread.2.1 rfl).elementRead h
          | leftPar =>
              obtain ⟨room, rfl⟩ := Nat.exists_eq_add_of_le' hfits
              rw [Lexeme.cells, compile_leftPar, Outcome.bind_eq_value_iff] at h
              obtain ⟨inner, hinner, h⟩ := h
              have hread := ih _ _ _ _ _ hinner
              exact ih.after (takes_cons hfits hread.1)
                (hread.2.2 (by simp) (Nat.succ_ne_zero n)).elementRead h
          | rightPar =>
              cases n with
              | zero => simp [compileExpression, tokenSource, TokenSource.withRoom,
                  Lexeme.cells] at h
              | succ n =>
                  rw [compile_rightPar, Outcome.value.injEq] at h
                  subst h
                  refine ⟨takes_cons hfits rfl, ?_, fun hcell _ => ?_⟩
                  · rintro rfl
                    exact .close
                  · exact ⟨false, .close, fun _ => ⟨rfl, .inl ⟨[], [], .nil, rfl, by simp⟩⟩⟩
          | keyword k =>
              rw [compile_keyword, Outcome.bind_eq_value_iff] at h
              obtain ⟨next, hmark, h⟩ := h
              refine ⟨takes_cons hfits (ih _ _ _ _ _ h).1, ?_, fun hcell hn => ?_⟩
              · rintro rfl
                simp [Envelope.mark] at hmark
              · rcases mark_value hmark with ⟨hempty, htype, rfl⟩ | ⟨hlast, hlast', htype, hne⟩
                · obtain ⟨left, hbody, hstrict⟩ := (ih _ _ _ _ _ h).2.2 k.type_ne_quote hn
                  have hplain : Envelope.plain ⟨k.type, []⟩ = false := by cases k <;> rfl
                  have hfresh : cell.plain = true ∧ cell.last = none := by
                    simp [Envelope.plain, Envelope.last, hempty, htype]
                  rw [hplain] at hbody
                  refine ⟨left, ?_, fun hleft => ?_⟩
                  · rw [hfresh.1, hfresh.2]
                    exact .keyword hbody
                  · obtain ⟨hm, hrest⟩ := hstrict hleft
                    refine ⟨hm, .inr ⟨hempty, htype, ?_⟩⟩
                    rcases hrest with ⟨w, cs, hexprs, rfl, hcell'⟩ | ⟨-, htype', -⟩
                    · exact ⟨k, w, cs, hexprs, rfl, by rw [hcell']; simp⟩
                    · cases k <;> simp [Keyword.type] at htype'
                · obtain ⟨left, hbody, -⟩ := (ih _ _ _ _ _ h).2.2 (by rwa [htype]) hn
                  have hplain : next.plain = cell.plain := by
                    simp [Envelope.plain, htype]
                  rw [hplain, hlast'] at hbody
                  refine ⟨true, ?_, by simp⟩
                  rw [hlast]
                  exact .keywordAfter hbody

end Sound

section Loose

variable {atoms : AtomCell → Nat}

mutual

/-- What is read loosely is shorter. -/
theorem LooseElement.length_lt {n m : Nat} {plain left : Bool} {ts rest : List Lexeme} :
    LooseElement n ts plain left m rest → rest.length < ts.length
  | .atom => by simp
  | .quote h => Nat.lt_succ_of_lt h.length_lt
  | .quoteClose => Nat.lt_of_succ_lt (Nat.lt_succ_self _)
  | .quoteEnd => by simp
  | .list h => Nat.lt_succ_of_lt h.length_lt

theorem LooseBody.length_lt {n m : Nat} {plain plain' left : Bool} {last : Option Bool}
    {ts rest : List Lexeme} :
    LooseBody n plain last ts plain' left m rest → rest.length < ts.length
  | .close => by simp
  | .keyword h => Nat.lt_succ_of_lt h.length_lt
  | .keywordAfter h => Nat.lt_succ_of_lt h.length_lt
  | .next helement hbody => hbody.length_lt.trans helement.length_lt
  | .finish helement => helement.length_lt

end

theorem mark_none {k : Keyword} {cell : Envelope} (hplain : cell.plain = true)
    (hlast : cell.last = none) : cell.mark k = .value ⟨k.type, []⟩ := by
  obtain ⟨type, cells⟩ := cell
  obtain rfl : cells = [] := by simpa [Envelope.last] using hlast
  obtain rfl : type = .expression := by simpa [Envelope.plain] using hplain
  rfl

theorem mark_some {k : Keyword} {cell : Envelope} (hlast : cell.last = some true) :
    ∃ next, cell.mark k = .value next ∧ next.last = some false ∧ next.type = cell.type := by
  obtain ⟨type, cells⟩ := cell
  cases hcells : cells.getLast? with
  | none => simp [Envelope.last, hcells] at hlast
  | some c =>
      cases c <;> simp [Envelope.last, hcells, isPlain] at hlast
      simp only [Envelope.mark, hcells]
      refine ⟨_, rfl, ?_, rfl⟩
      simp [Envelope.last, isPlain_keyword]

theorem cellsOf_le_cons (atoms : AtomCell → Nat) (t : Lexeme) (ts : List Lexeme) :
    cellsOf atoms ts ≤ cellsOf atoms (t :: ts) := by
  rw [cellsOf_cons]
  exact Nat.le_add_left _ _

mutual

/-- And takes the cells of its tokens. -/
theorem LooseElement.cellsOf_le {n m : Nat} {plain left : Bool} {ts rest : List Lexeme} :
    LooseElement n ts plain left m rest → cellsOf atoms rest ≤ cellsOf atoms ts
  | .atom => cellsOf_le_cons _ _ _
  | .quote h => h.cellsOf_le.trans (cellsOf_le_cons _ _ _)
  | .quoteClose => (cellsOf_le_cons _ _ _).trans (cellsOf_le_cons _ _ _)
  | .quoteEnd => cellsOf_le_cons _ _ _
  | .list h => h.cellsOf_le.trans (cellsOf_le_cons _ _ _)

theorem LooseBody.cellsOf_le {n m : Nat} {plain plain' left : Bool} {last : Option Bool}
    {ts rest : List Lexeme} :
    LooseBody n plain last ts plain' left m rest → cellsOf atoms rest ≤ cellsOf atoms ts
  | .close => cellsOf_le_cons _ _ _
  | .keyword h => h.cellsOf_le.trans (cellsOf_le_cons _ _ _)
  | .keywordAfter h => h.cellsOf_le.trans (cellsOf_le_cons _ _ _)
  | .next helement hbody => hbody.cellsOf_le.trans helement.cellsOf_le
  | .finish helement => helement.cellsOf_le

end

/-- The room in which an opening token has been read. -/
theorem takes_opening {room room' : Nat} {t : Lexeme} {ts rest : List Lexeme}
    (ht : t.cells atoms = 1) (hle : cellsOf atoms rest ≤ cellsOf atoms ts)
    (h : Takes atoms room (t :: ts) (rest, room')) :
    ∃ k, room = k + 1 ∧ Takes atoms k ts (rest, room') := by
  unfold Takes at h ⊢
  rw [cellsOf_cons, ht] at h
  simp only at h ⊢
  exact ⟨room - 1, by omega, by omega⟩

/-- The room between two parts of what is read. -/
theorem Takes.split {room room' : Nat} {ts us rest : List Lexeme}
    (h : Takes atoms room ts (rest, room')) (hle : cellsOf atoms rest ≤ cellsOf atoms us) :
    ∃ room₁, Takes atoms room ts (us, room₁) ∧ Takes atoms room₁ us (rest, room') := by
  simp only [Takes] at h ⊢
  exact ⟨room' + cellsOf atoms us - cellsOf atoms rest, by omega, by omega⟩

theorem full_or_takes (room : Nat) (ts us : List Lexeme) :
    room + cellsOf atoms us < cellsOf atoms ts ∨ ∃ room₁, Takes atoms room ts (us, room₁) := by
  by_cases hfull : room + cellsOf atoms us < cellsOf atoms ts
  · exact .inl hfull
  · refine .inr ⟨room + cellsOf atoms us - cellsOf atoms ts, ?_⟩
    simp only [Takes]
    omega

mutual

/-- What is read loosely is read, if there are the cells for it. -/
theorem LooseElement.read {n m : Nat} {plain left : Bool} {ts rest : List Lexeme}
    (cell : Envelope) (fuel room room' : Nat) :
    LooseElement n ts plain left m rest → ts.length ≤ fuel →
      Takes atoms room ts (rest, room') →
      ∃ c, isPlain c = plain ∧
        compileExpression (tokenSource.withRoom atoms) (fuel + 1) cell (ts, room) n =
          afterElement atoms fuel cell c (rest, room') m
  | .atom (a := a), _, hroom => by
      have hleft : room = room' + atoms a := by
        rw [Takes, cellsOf_cons, Lexeme.cells] at hroom
        simp only at hroom
        omega
      refine ⟨a.val, isPlain_atom a, ?_⟩
      rw [compile_atom (by omega), hleft, Nat.add_sub_cancel]
  | .quote h, hfuel, hroom => by
      obtain ⟨fuel, rfl⟩ : ∃ k, fuel = k + 1 := ⟨fuel - 1, by simp at hfuel; omega⟩
      obtain ⟨room, rfl, htakes⟩ := takes_opening rfl h.cellsOf_le hroom
      obtain ⟨c, -, hread⟩ := h.read ⟨.quote, []⟩ fuel room room' (by simp at hfuel; omega)
        htakes
      refine ⟨.quote c, rfl, ?_⟩
      rw [compile_quote, hread, afterElement_quote]
      rfl
  | .quoteClose, hfuel, hroom => by
      obtain ⟨fuel, rfl⟩ : ∃ k, fuel = k + 1 := ⟨fuel - 1, by simp at hfuel; omega⟩
      obtain ⟨room, rfl, htakes⟩ := takes_opening rfl (cellsOf_le_cons _ _ _) hroom
      have hleft : room = room' := by
        rw [Takes, cellsOf_cons, Lexeme.cells] at htakes
        simp only at htakes
        omega
      refine ⟨.quote .nil, rfl, ?_⟩
      rw [compile_quote, compile_rightPar, hleft]
      rfl
  | .quoteEnd, hfuel, hroom => by
      obtain ⟨fuel, rfl⟩ : ∃ k, fuel = k + 1 := ⟨fuel - 1, by simp at hfuel; omega⟩
      obtain ⟨room, rfl, htakes⟩ := takes_opening rfl (Nat.le_refl _) hroom
      obtain rfl : room = room' := Nat.add_right_cancel htakes
      refine ⟨.quote .nil, rfl, ?_⟩
      rw [compile_quote]
      rfl
  | .list h, hfuel, hroom => by
      obtain ⟨room, rfl, htakes⟩ := takes_opening rfl h.cellsOf_le hroom
      obtain ⟨b, next, hplain, hread⟩ := h.read ⟨.expression, []⟩ fuel room room' (by simp)
        rfl rfl (by simp at hfuel; omega) htakes
      refine ⟨next.cell, by rw [isPlain_cell, hplain], ?_⟩
      rw [compile_leftPar, hread]
      rfl

theorem LooseBody.read {n m : Nat} {plain plain' left : Bool} {last : Option Bool}
    {ts rest : List Lexeme} (cell : Envelope) (fuel room room' : Nat) :
    LooseBody n plain last ts plain' left m rest → cell.type ≠ .quote →
      cell.plain = plain → cell.last = last → ts.length < fuel →
      Takes atoms room ts (rest, room') →
      ∃ b next, next.plain = plain' ∧
        compileExpression (tokenSource.withRoom atoms) fuel cell (ts, room) n =
          .value ⟨b, next, (rest, room'), m⟩
  | .close, _, hplain, _, hfuel, hroom => by
      obtain ⟨fuel, rfl⟩ : ∃ k, fuel = k + 1 := ⟨fuel - 1, by omega⟩
      have hleft : room = room' := by
        rw [Takes, cellsOf_cons, Lexeme.cells] at hroom
        simp only at hroom
        omega
      exact ⟨true, cell, hplain, by rw [compile_rightPar, hleft]⟩
  | .keyword (k := k) h, _, hplain, hlast, hfuel, hroom => by
      obtain ⟨fuel, rfl⟩ : ∃ k, fuel = k + 1 := ⟨fuel - 1, by omega⟩
      rw [Takes, cellsOf_cons, Lexeme.cells, Nat.zero_add] at hroom
      obtain ⟨b, next, hplain', hread⟩ := h.read ⟨k.type, []⟩ fuel room room' k.type_ne_quote
        (by cases k <;> rfl) rfl (by simp at hfuel; omega) hroom
      refine ⟨b, next, hplain', ?_⟩
      rw [compile_keyword, mark_none hplain hlast, Outcome.value_bind, hread]
  | .keywordAfter (k := k) h, hcell, hplain, hlast, hfuel, hroom => by
      obtain ⟨fuel, rfl⟩ : ∃ k, fuel = k + 1 := ⟨fuel - 1, by omega⟩
      rw [Takes, cellsOf_cons, Lexeme.cells, Nat.zero_add] at hroom
      obtain ⟨marked, hmark, hlast', htype⟩ := mark_some (k := k) hlast
      obtain ⟨b, next, hplain', hread⟩ := h.read marked fuel room room' (by rwa [htype])
        (by rw [← hplain, Envelope.plain, htype, Envelope.plain]) hlast'
        (by simp at hfuel; omega) hroom
      refine ⟨b, next, hplain', ?_⟩
      rw [compile_keyword, hmark, Outcome.value_bind, hread]
  | .next helement hbody, hcell, hplain, _, hfuel, hroom => by
      obtain ⟨fuel, rfl⟩ : ∃ k, fuel = k + 1 := ⟨fuel - 1, by omega⟩
      have hlt := helement.length_lt
      obtain ⟨room₁, hfirst, hlater⟩ := hroom.split hbody.cellsOf_le
      obtain ⟨c, hc, hread⟩ := helement.read cell fuel room room₁ (by omega) hfirst
      obtain ⟨b, next, hplain', hrest⟩ := hbody.read { cell with cells := cell.cells ++ [c] }
        fuel room₁ room' hcell hplain (by simp [Envelope.last, hc]) (by omega) hlater
      refine ⟨b, next, hplain', ?_⟩
      have hne := List.ne_nil_of_length_pos (Nat.zero_lt_of_lt hbody.length_lt)
      rw [hread, afterElement_open hcell hne, hrest]
  | .finish helement, hcell, hplain, _, hfuel, hroom => by
      obtain ⟨fuel, rfl⟩ : ∃ k, fuel = k + 1 := ⟨fuel - 1, by omega⟩
      obtain ⟨c, hc, hread⟩ := helement.read cell fuel room room' (by omega) hroom
      refine ⟨false, { cell with cells := cell.cells ++ [c] }, hplain, ?_⟩
      rw [hread, afterElement_closed hcell]

end

/-- An opening token with less room than it and what follows take. -/
theorem compile_opening_full {t : Lexeme} {fuel n room d : Nat} {cell : Envelope}
    {ts : List Lexeme} (ht : t.cells atoms = 1) (hlt : room + d < cellsOf atoms (t :: ts))
    (h : ∀ k, room = k + 1 → k + d < cellsOf atoms ts →
      compileExpression (tokenSource.withRoom atoms) (fuel + 1) cell (t :: ts, room) n =
        .undefined) :
    compileExpression (tokenSource.withRoom atoms) (fuel + 1) cell (t :: ts, room) n =
      .undefined := by
  cases room with
  | zero => exact compile_full (by omega)
  | succ room =>
      rw [cellsOf_cons, ht] at hlt
      exact h room rfl (by omega)

mutual

/-- And without the cells it is lost. -/
theorem LooseElement.read_full {n m : Nat} {plain left : Bool} {ts rest : List Lexeme}
    (cell : Envelope) (fuel room : Nat) :
    LooseElement n ts plain left m rest → ts.length ≤ fuel →
      room + cellsOf atoms rest < cellsOf atoms ts →
      compileExpression (tokenSource.withRoom atoms) (fuel + 1) cell (ts, room) n =
        .undefined
  | .atom, _, hlt => by
      rw [cellsOf_cons] at hlt
      exact compile_full (by omega)
  | .quote h, hfuel, hlt => by
      refine compile_opening_full rfl hlt fun k hk hlt => ?_
      obtain ⟨fuel, rfl⟩ : ∃ k, fuel = k + 1 := ⟨fuel - 1, by simp at hfuel; omega⟩
      rw [hk, compile_quote, h.read_full ⟨.quote, []⟩ fuel k (by simp at hfuel; omega) hlt]
      rfl
  | .quoteClose, _, hlt => by
      refine compile_opening_full rfl hlt fun k _ hlt => ?_
      rw [cellsOf_cons, Lexeme.cells] at hlt
      omega
  | .quoteEnd, _, hlt => by
      refine compile_opening_full rfl hlt fun k _ hlt => ?_
      omega
  | .list h, hfuel, hlt => by
      refine compile_opening_full rfl hlt fun k hk hlt => ?_
      rw [hk, compile_leftPar, h.read_full ⟨.expression, []⟩ fuel k (by simp) rfl rfl
        (by simp at hfuel; omega) hlt]
      rfl

theorem LooseBody.read_full {n m : Nat} {plain plain' left : Bool} {last : Option Bool}
    {ts rest : List Lexeme} (cell : Envelope) (fuel room : Nat) :
    LooseBody n plain last ts plain' left m rest → cell.type ≠ .quote →
      cell.plain = plain → cell.last = last → ts.length < fuel →
      room + cellsOf atoms rest < cellsOf atoms ts →
      compileExpression (tokenSource.withRoom atoms) fuel cell (ts, room) n = .undefined
  | .close, _, _, _, _, hlt => by
      rw [cellsOf_cons, Lexeme.cells] at hlt
      omega
  | .keyword (k := k) h, _, hplain, hlast, hfuel, hlt => by
      obtain ⟨fuel, rfl⟩ : ∃ k, fuel = k + 1 := ⟨fuel - 1, by omega⟩
      rw [cellsOf_cons, Lexeme.cells, Nat.zero_add] at hlt
      rw [compile_keyword, mark_none hplain hlast, Outcome.value_bind,
        h.read_full ⟨k.type, []⟩ fuel room k.type_ne_quote (by cases k <;> rfl) rfl
          (by simp at hfuel; omega) hlt]
  | .keywordAfter (k := k) h, hcell, hplain, hlast, hfuel, hlt => by
      obtain ⟨fuel, rfl⟩ : ∃ k, fuel = k + 1 := ⟨fuel - 1, by omega⟩
      rw [cellsOf_cons, Lexeme.cells, Nat.zero_add] at hlt
      obtain ⟨marked, hmark, hlast', htype⟩ := mark_some (k := k) hlast
      rw [compile_keyword, hmark, Outcome.value_bind,
        h.read_full marked fuel room (by rwa [htype])
          (by rw [← hplain, Envelope.plain, htype, Envelope.plain]) hlast'
          (by simp at hfuel; omega) hlt]
  | .next helement hbody, hcell, hplain, _, hfuel, hlt => by
      obtain ⟨fuel, rfl⟩ : ∃ k, fuel = k + 1 := ⟨fuel - 1, by omega⟩
      have hlength := helement.length_lt
      rcases full_or_takes room _ _ with hfirst | ⟨room₁, htakes⟩
      · exact helement.read_full cell fuel room (by omega) hfirst
      · obtain ⟨c, hc, hread⟩ := helement.read cell fuel room room₁ (by omega) htakes
        have hne := List.ne_nil_of_length_pos (Nat.zero_lt_of_lt hbody.length_lt)
        simp only [Takes] at htakes
        rw [hread, afterElement_open hcell hne,
          hbody.read_full { cell with cells := cell.cells ++ [c] } fuel room₁ hcell hplain
            (by simp [Envelope.last, hc]) (by omega) (by omega)]
  | .finish helement, _, _, _, hfuel, hlt => by
      obtain ⟨fuel, rfl⟩ : ∃ k, fuel = k + 1 := ⟨fuel - 1, by omega⟩
      exact helement.read_full cell fuel room (by omega) hlt

end

mutual

theorem FullElement.ne_nil {room n : Nat} {ts : List Lexeme} :
    FullElement atoms room n ts → ts ≠ []
  | .token _ => by simp
  | .quote _ => by simp
  | .list _ => by simp

theorem FullBody.ne_nil {room n : Nat} {plain : Bool} {last : Option Bool}
    {ts : List Lexeme} : FullBody atoms room n plain last ts → ts ≠ []
  | .keyword _ => by simp
  | .keywordAfter _ => by simp
  | .element h => h.ne_nil
  | .next helement _ _ => List.ne_nil_of_length_pos (Nat.zero_lt_of_lt helement.length_lt)

end

mutual

/-- Where a token lacks its cells the read is lost. -/
theorem FullElement.read {room n : Nat} {ts : List Lexeme} (cell : Envelope) (fuel : Nat) :
    FullElement atoms room n ts → ts.length ≤ fuel →
      compileExpression (tokenSource.withRoom atoms) (fuel + 1) cell (ts, room) n =
        .undefined
  | .token h, _ => compile_full h
  | .quote h, hfuel => by
      obtain ⟨fuel, rfl⟩ : ∃ k, fuel = k + 1 := ⟨fuel - 1, by simp at hfuel; omega⟩
      rw [compile_quote, h.read ⟨.quote, []⟩ fuel (by simp at hfuel; omega)]
      rfl
  | .list h, hfuel => by
      rw [compile_leftPar, h.read ⟨.expression, []⟩ fuel (by simp) rfl rfl
        (by simp at hfuel; omega)]
      rfl

theorem FullBody.read {room n : Nat} {plain : Bool} {last : Option Bool} {ts : List Lexeme}
    (cell : Envelope) (fuel : Nat) :
    FullBody atoms room n plain last ts → cell.type ≠ .quote → cell.plain = plain →
      cell.last = last → ts.length < fuel →
      compileExpression (tokenSource.withRoom atoms) fuel cell (ts, room) n = .undefined
  | .keyword (k := k) h, _, hplain, hlast, hfuel => by
      obtain ⟨fuel, rfl⟩ : ∃ k, fuel = k + 1 := ⟨fuel - 1, by omega⟩
      rw [compile_keyword, mark_none hplain hlast, Outcome.value_bind,
        h.read ⟨k.type, []⟩ fuel k.type_ne_quote (by cases k <;> rfl) rfl
          (by simp at hfuel; omega)]
  | .keywordAfter (k := k) h, hcell, hplain, hlast, hfuel => by
      obtain ⟨fuel, rfl⟩ : ∃ k, fuel = k + 1 := ⟨fuel - 1, by omega⟩
      obtain ⟨marked, hmark, hlast', htype⟩ := mark_some (k := k) hlast
      rw [compile_keyword, hmark, Outcome.value_bind, h.read marked fuel (by rwa [htype])
        (by rw [← hplain, Envelope.plain, htype, Envelope.plain]) hlast'
        (by simp at hfuel; omega)]
  | .element h, _, _, _, hfuel => by
      obtain ⟨fuel, rfl⟩ : ∃ k, fuel = k + 1 := ⟨fuel - 1, by omega⟩
      exact h.read cell fuel (by omega)
  | .next helement hroom hbody, hcell, hplain, _, hfuel => by
      obtain ⟨fuel, rfl⟩ : ∃ k, fuel = k + 1 := ⟨fuel - 1, by omega⟩
      have hlength := helement.length_lt
      obtain ⟨c, hc, hread⟩ := helement.read cell fuel room _ (by omega) hroom
      rw [hread, afterElement_open hcell hbody.ne_nil,
        hbody.read { cell with cells := cell.cells ++ [c] } fuel hcell hplain
          (by simp [Envelope.last, hc]) (by omega)]

end

section Inversion

variable {n m : Nat} {plain plain' left : Bool} {last : Option Bool} {ts rest : List Lexeme}

theorem looseElement_quote (h : LooseElement n (.quote :: ts) plain left m rest) :
    (∃ p, LooseElement n ts p left m rest) ∨ (∃ us, ts = .rightPar :: us) ∨ ts = [] := by
  cases h with
  | quote h => exact .inl ⟨_, h⟩
  | quoteClose => exact .inr (.inl ⟨_, rfl⟩)
  | quoteEnd => exact .inr (.inr rfl)

theorem looseElement_list (h : LooseElement n (.leftPar :: ts) plain left m rest) :
    LooseBody (n + 1) true none ts plain left m rest := by
  cases h with
  | list h => exact h

theorem not_looseElement_rightPar :
    ¬ LooseElement n (.rightPar :: ts) plain left m rest := by
  intro h
  cases h

theorem not_looseElement_keyword {k : Keyword} :
    ¬ LooseElement n (.keyword k :: ts) plain left m rest := by
  intro h
  cases h

theorem looseBody_rightPar
    (h : LooseBody (n + 1) plain last (.rightPar :: ts) plain' left m rest) :
    left = false ∧ m = n ∧ rest = ts := by
  cases h with
  | close => exact ⟨rfl, rfl, rfl⟩
  | next h => exact absurd h not_looseElement_rightPar
  | finish h => exact absurd h not_looseElement_rightPar

theorem looseBody_keyword {k : Keyword}
    (h : LooseBody n true none (.keyword k :: ts) plain' left m rest) :
    LooseBody n false none ts plain' left m rest := by
  cases h with
  | keyword h => exact h
  | next h => exact absurd h not_looseElement_keyword
  | finish h => exact absurd h not_looseElement_keyword

/-- What does not start with a closing parenthesis or a keyword is an element. -/
theorem looseBody_element {t : Lexeme} (hclose : t ≠ .rightPar) (hkey : ∀ k, t ≠ .keyword k)
    (h : LooseBody n plain last (t :: ts) plain' left m rest) :
    (∃ p l us x y, LooseElement n (t :: ts) p x (l + 1) us ∧
      LooseBody (l + 1) plain (some p) us plain' y m rest ∧ left = (x || y)) ∨
    (∃ p, LooseElement n (t :: ts) p left 0 rest ∧ m = 0) := by
  cases h with
  | close => exact absurd rfl hclose
  | keyword => exact absurd rfl (hkey _)
  | keywordAfter => exact absurd rfl (hkey _)
  | next helement hbody => exact .inl ⟨_, _, _, _, _, helement, hbody, rfl⟩
  | finish helement => exact .inr ⟨_, helement, rfl⟩

end Inversion

/-- How an expression begins. -/
theorem Expr.head {w : List Lexeme} {c : Cell} (h : Expr w c) :
    ∃ t v, w = t :: v ∧ t ≠ .rightPar ∧ ∀ k, t ≠ .keyword k := by
  cases h <;> exact ⟨_, _, rfl, by simp, by simp⟩

mutual

/-- The looser rules read an expression of the grammar in no other way. -/
theorem Expr.loose {w rest rest' : List Lexeme} {c : Cell} {n m : Nat} {plain left : Bool} :
    Expr w c → LooseElement n (w ++ rest) plain left m rest' →
      left = false ∧ m = n ∧ rest' = rest
  | .atom a, h => by
      cases h with
      | atom => exact ⟨rfl, rfl, rfl⟩
  | .quote hexpr, h => by
      obtain ⟨t, v, hw, hclose, -⟩ := hexpr.head
      rcases looseElement_quote h with ⟨p, h⟩ | ⟨us, hus⟩ | hnil
      · exact hexpr.loose h
      · rw [hw, List.append_eq, List.cons_append] at hus
        exact absurd (List.cons.inj hus).1 hclose
      · rw [hw] at hnil
        cases hnil
  | .list hexprs, h => by
      have hbody := looseElement_list h
      rw [List.append_eq, List.append_assoc] at hbody
      exact hexprs.loose hbody
  | .lambda k hexprs, h => by
      have hbody := looseBody_keyword (looseElement_list h)
      rw [List.append_eq, List.append_assoc] at hbody
      exact hexprs.loose hbody

theorem Exprs.loose {w rest rest' : List Lexeme} {cs : List Cell} {n m : Nat}
    {plain plain' left : Bool} {last : Option Bool} :
    Exprs w cs → LooseBody (n + 1) plain last (w ++ .rightPar :: rest) plain' left m rest' →
      left = false ∧ m = n ∧ rest' = rest
  | .nil, h => looseBody_rightPar h
  | .cons hexpr hexprs, h => by
      obtain ⟨t, u, hv, hclose, hkey⟩ := hexpr.head
      rw [List.append_assoc, hv, List.cons_append] at h
      rcases looseBody_element hclose hkey h with
        ⟨p, l, us, x, y, helement, hbody, rfl⟩ | ⟨p, helement, -⟩
      · rw [← List.cons_append, ← hv] at helement
        obtain ⟨rfl, hl, rfl⟩ := hexpr.loose helement
        obtain rfl : l = n := Nat.succ_injective hl
        simpa using hexprs.loose hbody
      · rw [← List.cons_append, ← hv] at helement
        exact absurd (hexpr.loose helement).2.1.symm (Nat.succ_ne_zero n)

end

mutual

/-- And they do read it. -/
theorem Expr.looseElement {w : List Lexeme} {c : Cell} (n : Nat) (rest : List Lexeme) :
    Expr w c → LooseElement n (w ++ rest) (isPlain c) false n rest
  | .atom a => by
      rw [isPlain_atom]
      exact .atom
  | .quote h => .quote (h.looseElement n rest)
  | .list h => by
      rw [List.cons_append, List.append_assoc]
      exact .list (h.looseBody n true none rest)
  | .lambda k h => by
      rw [List.cons_append, List.cons_append, List.append_assoc, isPlain_keyword]
      exact .list (.keyword (h.looseBody n false none rest))

theorem Exprs.looseBody {w : List Lexeme} {cs : List Cell} (n : Nat) (plain : Bool)
    (last : Option Bool) (rest : List Lexeme) :
    Exprs w cs → LooseBody (n + 1) plain last (w ++ .rightPar :: rest) plain false n rest
  | .nil => .close
  | .cons (c := c) hexpr hexprs => by
      rw [List.append_assoc]
      exact .next (hexpr.looseElement (n + 1) _) (hexprs.looseBody n plain (some (isPlain c)) rest)

end

end Loose

section Total

variable {atoms : AtomCell → Nat} {fuel n m room : Nat} {cell : Envelope}
  {ts us rest : List Lexeme} {c : Cell}
  {outcome : Outcome ReadError (Reading (List Lexeme × Nat))}

/-- A call ends with an error, with a stream that is not longer, or lost. -/
def Finishes (ts : List Lexeme) (outcome : Outcome ReadError (Reading (List Lexeme × Nat))) :
    Prop :=
  outcome = .undefined ∨ (∃ e, outcome = .error e) ∨
    ∃ r, outcome = .value r ∧ r.stream.1.length ≤ ts.length

theorem Finishes.longer (h : Finishes us outcome) (hlen : us.length ≤ ts.length) :
    Finishes ts outcome := by
  rcases h with hlost | herror | ⟨r, hr, hle⟩
  · exact .inl hlost
  · exact .inr (.inl herror)
  · exact .inr (.inr ⟨r, hr, hle.trans hlen⟩)

/-- With fuel for the tokens that are left every call ends. -/
theorem compile_finishes (hlen : ts.length < fuel) :
    Finishes ts
      (compileExpression (tokenSource.withRoom atoms) fuel cell (ts, room) n) := by
  induction fuel generalizing cell ts room n with
  | zero => exact absurd hlen (Nat.not_lt_zero _)
  | succ fuel ih =>
      have hafter : ∀ {c rest room m}, rest.length < fuel →
          Finishes rest (afterElement atoms fuel cell c (rest, room) m) := by
        intro c rest room m hrest
        unfold afterElement linkCell
        simp only
        split_ifs
        · exact .inr (.inr ⟨_, rfl, le_rfl⟩)
        · exact .inr (.inl ⟨_, rfl⟩)
        · exact ih hrest
        · exact .inr (.inr ⟨_, rfl, le_rfl⟩)
      -- the operand of a quote or a list first, and then the rest
      have hinner : ∀ {us inner room k}, us.length < fuel → Finishes us
          (do
            let r ← compileExpression (tokenSource.withRoom atoms) fuel inner (us, room) k
            afterElement atoms fuel cell r.cell.cell r.stream r.parStackCounter) := by
        intro us inner room k hus
        rcases @ih k room inner us hus with hlost | ⟨e, he⟩ | ⟨r, hr, hle⟩
        · exact .inl (by rw [hlost]; rfl)
        · exact .inr (.inl ⟨e, by rw [he]; rfl⟩)
        · rw [hr, Outcome.value_bind]
          exact (hafter (lt_of_le_of_lt hle hus)).longer hle
      cases ts with
      | nil =>
          by_cases hn : n = 0
          · exact .inr (.inr ⟨⟨false, cell, ([], room), n⟩,
              by simp [compileExpression, tokenSource, TokenSource.withRoom, hn], le_rfl⟩)
          · exact .inr (.inl ⟨.missingPar,
              by simp [compileExpression, tokenSource, TokenSource.withRoom, hn]⟩)
      | cons t ts =>
          have hts : ts.length < fuel := by simpa using hlen
          have hle : ts.length ≤ (t :: ts).length := by simp
          by_cases hfull : room < t.cells atoms
          · exact .inl (compile_full hfull)
          have hfits := Nat.not_lt.mp hfull
          cases t with
          | atom a =>
              rw [compile_atom hfits]
              exact (hafter hts).longer hle
          | quote =>
              obtain ⟨room, rfl⟩ := Nat.exists_eq_add_of_le' hfits
              rw [Lexeme.cells, compile_quote]
              exact (hinner hts).longer hle
          | leftPar =>
              obtain ⟨room, rfl⟩ := Nat.exists_eq_add_of_le' hfits
              rw [Lexeme.cells, compile_leftPar]
              exact (hinner hts).longer hle
          | rightPar =>
              cases n with
              | zero => exact .inr (.inl ⟨.missingPar, rfl⟩)
              | succ n => exact .inr (.inr ⟨_, compile_rightPar, hle⟩)
          | keyword k =>
              rw [compile_keyword]
              cases hmark : cell.mark k with
              | value next => exact (ih hts).longer hle
              | error e => exact .inr (.inl ⟨e, rfl⟩)
              | undefined => exact .inl rfl
              | timeout =>
                  unfold Envelope.mark at hmark
                  split at hmark
                  · split_ifs at hmark
                  · cases hmark
                  · cases hmark

theorem mark_ne_undefined {k : Keyword} : cell.mark k ≠ .undefined := by
  intro hmark
  unfold Envelope.mark at hmark
  split at hmark
  · split_ifs at hmark
  · cases hmark
  · cases hmark

/-- A lost read comes to a token that lacks its cells. -/
def LostAtToken (atoms : AtomCell → Nat) (fuel : Nat) : Prop :=
  ∀ cell ts room n,
    compileExpression (tokenSource.withRoom atoms) fuel cell (ts, room) n = .undefined →
    (cell = ⟨.quote, []⟩ → FullElement atoms room n ts) ∧
    (cell.type ≠ .quote → n ≠ 0 → FullBody atoms room n cell.plain cell.last ts)

theorem afterElement_full (hlost : LostAtToken atoms fuel) {left : Bool} {room' : Nat}
    (hloose : LooseElement n ts (isPlain c) left m rest)
    (hroom : Takes atoms room ts (rest, room'))
    (h : afterElement atoms fuel cell c (rest, room') m = .undefined) :
    (cell = ⟨.quote, []⟩ → FullElement atoms room n ts) ∧
      (cell.type ≠ .quote → n ≠ 0 → FullBody atoms room n cell.plain cell.last ts) := by
  constructor
  · rintro rfl
    rw [afterElement_quote] at h
    cases h
  · intro hcell _
    cases m with
    | zero =>
        rw [afterElement_closed hcell] at h
        cases h
    | succ m =>
        by_cases hrest : rest = []
        · simp [linkCell, hcell, tokenSource, TokenSource.withRoom, hrest] at h
        · rw [afterElement_open hcell hrest] at h
          have hbody := (hlost _ _ _ _ h).2 hcell (Nat.succ_ne_zero m)
          have hlast : Envelope.last { cell with cells := cell.cells ++ [c] } =
              some (isPlain c) := by
            simp [Envelope.last]
          rw [hlast] at hbody
          exact .next hloose hroom hbody

theorem lostAtToken_of_element (h : FullElement atoms room n ts) :
    (cell = ⟨.quote, []⟩ → FullElement atoms room n ts) ∧
      (cell.type ≠ .quote → n ≠ 0 → FullBody atoms room n cell.plain cell.last ts) :=
  ⟨fun _ => h, fun _ _ => .element h⟩

theorem compile_lostAtToken (fuel : Nat) : LostAtToken atoms fuel := by
  induction fuel with
  | zero =>
      intro cell ts room n h
      cases h
  | succ fuel ih =>
      intro cell ts room n h
      cases ts with
      | nil =>
          by_cases hn : n = 0
          · simp [compileExpression, tokenSource, TokenSource.withRoom, hn] at h
          · simp [compileExpression, tokenSource, TokenSource.withRoom, hn] at h
      | cons t ts =>
          by_cases hfull : room < t.cells atoms
          · exact lostAtToken_of_element (.token hfull)
          have hfits := Nat.not_lt.mp hfull
          cases t with
          | atom a =>
              rw [compile_atom hfits] at h
              have hloose : LooseElement n (.atom a :: ts) (isPlain a.val) false n ts := by
                rw [isPlain_atom]
                exact .atom
              exact afterElement_full ih hloose (takes_cons hfits rfl) h
          | quote =>
              obtain ⟨room, rfl⟩ := Nat.exists_eq_add_of_le' hfits
              rw [Lexeme.cells, compile_quote, Outcome.bind_eq_undefined_iff] at h
              rcases h with hinner | ⟨inner, hinner, h⟩
              · exact lostAtToken_of_element (.quote ((ih _ _ _ _ hinner).1 rfl))
              · have hread := compile_sound fuel _ _ _ _ _ hinner
                obtain ⟨left, hloose, -⟩ := (hread.2.1 rfl).elementRead
                exact afterElement_full ih hloose (takes_cons hfits hread.1) h
          | leftPar =>
              obtain ⟨room, rfl⟩ := Nat.exists_eq_add_of_le' hfits
              rw [Lexeme.cells, compile_leftPar, Outcome.bind_eq_undefined_iff] at h
              rcases h with hinner | ⟨inner, hinner, h⟩
              · exact lostAtToken_of_element
                  (.list ((ih _ _ _ _ hinner).2 (by simp) (Nat.succ_ne_zero n)))
              · have hread := compile_sound fuel _ _ _ _ _ hinner
                obtain ⟨left, hloose, -⟩ :=
                  (hread.2.2 (by simp) (Nat.succ_ne_zero n)).elementRead
                exact afterElement_full ih hloose (takes_cons hfits hread.1) h
          | rightPar =>
              cases n with
              | zero =>
                  simp [compileExpression, tokenSource, TokenSource.withRoom,
                    Lexeme.cells] at h
              | succ n =>
                  rw [compile_rightPar] at h
                  cases h
          | keyword k =>
              rw [compile_keyword, Outcome.bind_eq_undefined_iff] at h
              rcases h with hmark | ⟨next, hmark, h⟩
              · exact absurd hmark mark_ne_undefined
              refine ⟨?_, fun hcell hn => ?_⟩
              · rintro rfl
                simp [Envelope.mark] at hmark
              · rcases mark_value hmark with ⟨hempty, htype, rfl⟩ | ⟨hlast, hlast', htype, -⟩
                · have hbody := (ih _ _ _ _ h).2 k.type_ne_quote hn
                  have hplain : Envelope.plain ⟨k.type, []⟩ = false := by cases k <;> rfl
                  have hfresh : cell.plain = true ∧ cell.last = none := by
                    simp [Envelope.plain, Envelope.last, hempty, htype]
                  rw [hplain] at hbody
                  rw [hfresh.1, hfresh.2]
                  exact .keyword hbody
                · have hbody := (ih _ _ _ _ h).2 (by rwa [htype]) hn
                  have hplain : next.plain = cell.plain := by
                    simp [Envelope.plain, htype]
                  rw [hplain, hlast'] at hbody
                  rw [hlast]
                  exact .keywordAfter hbody

end Total

section ReadsGrammar

variable {atoms : AtomCell → Nat} {room fuel : Nat} {ts : List Lexeme}

theorem not_misread_of_expr {w rest : List Lexeme} {t : Cell} (hexpr : Expr w t) :
    ¬ Misread (w ++ rest) := by
  rintro ⟨plain, m, rest', hloose⟩
  exact absurd (hexpr.loose hloose).1 (by simp)

theorem readTokens_expr {w rest : List Lexeme} {t : Cell} (hexpr : Expr w t)
    (hfuel : (w ++ rest).length < fuel) :
    readTokens atoms (cellsOf atoms w + room) fuel (w ++ rest) =
      .value ⟨true, ⟨.quote, [t]⟩, (rest, room), 0⟩ := by
  obtain ⟨fuel, rfl⟩ : ∃ k, fuel = k + 1 := ⟨fuel - 1, by omega⟩
  unfold readTokens
  rw [hexpr.read ⟨.quote, []⟩ 0 room rest fuel (by omega), afterElement_quote]

/-- Without the cells for it an expression is not read. -/
theorem cells_le_of_not_full {w rest : List Lexeme} {t : Cell} (hexpr : Expr w t)
    (h : ¬ FullElement atoms room 0 (w ++ rest)) : cellsOf atoms w ≤ room := by
  by_contra hlt
  have hlost : readTokens atoms room ((w ++ rest).length + 1) (w ++ rest) = .undefined :=
    (hexpr.looseElement 0 rest).read_full ⟨.quote, []⟩ _ room le_rfl
      (by rw [cellsOf_append]; omega)
  exact h ((compile_lostAtToken _ _ _ _ _ hlost).1 rfl)

/-- A read that is lost neither accepts nor rejects. -/
theorem ReadsGrammar.not_undefined (h : ReadsGrammar atoms room fuel ts) :
    readTokens atoms room fuel ts ≠ .undefined := by
  intro hlost
  by_cases hexpr : ∃ w rest t, ts = w ++ rest ∧ Expr w t
  · obtain ⟨w, rest, t, hw, hexpr⟩ := hexpr
    obtain ⟨room', hvalue⟩ := (h.accepts t rest).mpr ⟨w, hw, hexpr⟩
    rw [hlost] at hvalue
    cases hvalue
  · obtain ⟨e, herror⟩ := h.rejects hexpr
    rw [hlost] at herror
    cases herror

/-- A misread sequence is accepted, without an expression to accept. -/
theorem not_readsGrammar_of_misread (hfuel : ts.length < fuel) (h : Misread ts) :
    ¬ ReadsGrammar atoms room fuel ts := by
  intro hreads
  have hmisread := h
  obtain ⟨plain, m, rest, hloose⟩ := h
  obtain ⟨fuel, rfl⟩ : ∃ k, fuel = k + 1 := ⟨fuel - 1, by omega⟩
  rcases full_or_takes room ts rest with hfull | ⟨room₁, htakes⟩
  · exact hreads.not_undefined (hloose.read_full ⟨.quote, []⟩ fuel room (by omega) hfull)
  obtain ⟨c, -, hread⟩ := hloose.read ⟨.quote, []⟩ fuel room room₁ (by omega) htakes
  rw [afterElement_quote] at hread
  have hnone : ¬ ∃ w rest t, ts = w ++ rest ∧ Expr w t := by
    rintro ⟨w, rest', t, rfl, hexpr⟩
    exact not_misread_of_expr hexpr hmisread
  obtain ⟨e, herror⟩ := hreads.rejects hnone
  rw [readTokens, hread] at herror
  cases herror

/-- Where nothing is misread and no token lacks its cells the grammar decides. -/
theorem readsGrammar_of_not_misread (hfuel : ts.length < fuel) (hne : ts ≠ [])
    (h : ¬ Misread ts) (hroom : ¬ FullElement atoms room 0 ts) :
    ReadsGrammar atoms room fuel ts := by
  -- a value is the cell of an expression
  have hvalue : ∀ r, readTokens atoms room fuel ts = .value r → ∃ t w,
      ts = w ++ r.stream.1 ∧ Expr w t ∧ r.result = true ∧ r.cell = ⟨.quote, [t]⟩ ∧
        r.parStackCounter = 0 := by
    intro r hr
    have hread := (compile_sound fuel _ _ _ _ _ hr).2.1 rfl
    generalize hzero : 0 = n at hread
    cases hread with
    | empty => exact absurd rfl hne
    | close => cases hzero
    | element helement =>
        subst hzero
        obtain ⟨left, hloose, hstrict⟩ := helement
        cases left with
        | true => exact absurd ⟨_, _, _, hloose⟩ h
        | false =>
            obtain ⟨hm, w, hw, hexpr⟩ := hstrict rfl
            exact ⟨_, w, hw, hexpr, rfl, rfl, hm⟩
  refine ⟨fun t rest => ⟨?_, ?_⟩, fun hnone => ?_⟩
  · rintro ⟨room', hread⟩
    obtain ⟨t', w, hw, hexpr, -, hcell, -⟩ := hvalue _ hread
    obtain rfl : t = t' := by simpa using hcell
    exact ⟨w, hw, hexpr⟩
  · rintro ⟨w, rfl, hexpr⟩
    obtain ⟨left, rfl⟩ := Nat.exists_eq_add_of_le (cells_le_of_not_full hexpr hroom)
    exact ⟨left, readTokens_expr hexpr hfuel⟩
  · rcases @compile_finishes atoms fuel 0 room ⟨.quote, []⟩ ts hfuel with
      hlost | herror | ⟨r, hr, -⟩
    · exact absurd ((compile_lostAtToken _ _ _ _ _ hlost).1 rfl) hroom
    · exact herror
    · obtain ⟨t, w, hw, hexpr, -⟩ := hvalue r hr
      exact absurd ⟨w, _, t, hw, hexpr⟩ hnone

/-- The reader reads by its grammar just where there is a token, the looser rules do not
read the sequence in another way, and each token that is read has its cells. -/
theorem readsGrammar_iff (hfuel : ts.length < fuel) :
    ReadsGrammar atoms room fuel ts ↔
      ts ≠ [] ∧ ¬ Misread ts ∧ ¬ FullElement atoms room 0 ts := by
  constructor
  · intro hreads
    refine ⟨?_, fun hmisread => not_readsGrammar_of_misread hfuel hmisread hreads,
      fun hfull => ?_⟩
    · rintro rfl
      obtain ⟨fuel, rfl⟩ : ∃ k, fuel = k + 1 := ⟨fuel - 1, by omega⟩
      obtain ⟨e, herror⟩ := hreads.rejects fun ⟨w, rest, t, hw, hexpr⟩ =>
        hexpr.ne_nil (List.append_eq_nil_iff.mp hw.symm).1
      cases herror
    · obtain ⟨fuel, rfl⟩ : ∃ k, fuel = k + 1 := ⟨fuel - 1, by omega⟩
      exact hreads.not_undefined (hfull.read ⟨.quote, []⟩ fuel (by omega))
  · rintro ⟨hne, hmisread, hroom⟩
    exact readsGrammar_of_not_misread hfuel hne hmisread hroom

/-- Two cells for `'0)`, which reads as `'0`, and the parenthesis stays. -/
theorem readsGrammar_quote :
    ReadsGrammar (fun _ => 1) 2 4 [.quote, .atom ⟨.long 0, rfl⟩, .rightPar] := by
  refine (readsGrammar_iff (by decide)).mpr ⟨by simp, ?_, ?_⟩
  · change ¬ Misread ([.quote, .atom ⟨.long 0, rfl⟩] ++ [.rightPar])
    exact not_misread_of_expr (.quote (.atom ⟨.long 0, rfl⟩))
  · intro hfull
    have hlost := hfull.read ⟨.quote, []⟩ 3 (by decide)
    have hread : readTokens (fun _ => 1) 2 4 [.quote, .atom ⟨.long 0, rfl⟩, .rightPar] =
        .value ⟨true, ⟨.quote, [.quote (.long 0)]⟩, ([.rightPar], 0), 0⟩ := rfl
    rw [← readTokens, hread] at hlost
    cases hlost

/-- The parenthesis of `(')` closes the list for the quote, `((0) fn 1)` marks the first
element as a lambda, and a list of one element more than there are cells is lost. -/
theorem reader_leaves_grammar :
    (readTokens (fun _ => 1) 2 4 [.leftPar, .quote, .rightPar] =
        .value ⟨true, ⟨.quote, [.expression [.quote .nil]]⟩, ([], 0), 0⟩ ∧
      ¬ ReadsGrammar (fun _ => 1) 2 4 [.leftPar, .quote, .rightPar]) ∧
    (readTokens (fun _ => 1) 4 8 [.leftPar, .leftPar, .atom ⟨.long 0, rfl⟩, .rightPar,
          .keyword .lambda, .atom ⟨.long 1, rfl⟩, .rightPar] =
        .value ⟨true, ⟨.quote, [.expression [.lambda none [.long 0], .long 1]]⟩, ([], 0), 0⟩ ∧
      ¬ ReadsGrammar (fun _ => 1) 4 8 [.leftPar, .leftPar, .atom ⟨.long 0, rfl⟩, .rightPar,
        .keyword .lambda, .atom ⟨.long 1, rfl⟩, .rightPar]) ∧
    ∀ room, ¬ ReadsGrammar (fun _ => 1) room (room + 4)
      (.leftPar :: (List.replicate (room + 1) (.atom ⟨.long 0, rfl⟩) ++ [.rightPar])) := by
  refine ⟨⟨rfl, not_readsGrammar_of_misread (by decide) ?_⟩, ⟨rfl,
    not_readsGrammar_of_misread (by decide) ?_⟩, fun room hreads => ?_⟩
  · exact ⟨_, _, _, .list (.finish .quoteClose)⟩
  · exact ⟨_, _, _, .list (.next (.list (.next .atom .close)) (.keywordAfter
      (.next .atom .close)))⟩
  · have hexprs : ∀ n, Exprs (List.replicate n (.atom ⟨.long 0, rfl⟩))
        (List.replicate n (.long 0)) := by
      intro n
      induction n with
      | zero => exact .nil
      | succ n ih => exact .cons (v := [.atom ⟨.long 0, rfl⟩]) (.atom ⟨.long 0, rfl⟩) ih
    have hfull : ¬ FullElement (fun _ => 1) room 0 (.leftPar ::
        (List.replicate (room + 1) (.atom ⟨.long 0, rfl⟩) ++ [.rightPar]) ++ []) := by
      rw [List.append_nil]
      exact ((readsGrammar_iff (by simp)).mp hreads).2.2
    have hle := cells_le_of_not_full (.list (hexprs (room + 1))) hfull
    rw [cellsOf_cons, cellsOf_append, Lexeme.cells] at hle
    simp [cellsOf, Lexeme.cells] at hle
    omega

end ReadsGrammar

end NewLispNeo
