/-
A dictionary is a finite map from the texts of the keys to the values.
-/
import NewLispNeo.Dictionary
import NewLispNeo.SymbolRuns

namespace NewLispNeo

open SymbolTree Dictionary

/-- The text that a key stands for: a string up to its first zero byte, or a decimal
numeral. -/
def keyText : Cell → Outcome Error (List UInt8)
  | .string contents => .value (contents.takeWhile (· ≠ 0))
  | cell => do
      let number ← getIntegerExt cell
      pure (decimalInt number.toInt)

/-- The map after an association list is loaded. -/
def loadEffect (values : List UInt8 → Cell) : List Cell → List UInt8 → Cell
  | .expression (key :: rest) :: assocs =>
      if isKey key then
        match keyText key with
        | .value text => loadEffect (Function.update values text (rest.headD .nil)) assocs
        | _ => values
      else loadEffect values assocs
  | .expression [] :: assocs => loadEffect values assocs
  | _ => values

/-- The map after a call, where `nil` is what is not stored. -/
def HashArgs.effect (values : List UInt8 → Cell) : HashArgs → List UInt8 → Cell
  | .store key value =>
      match keyText key.val with
      | .value text =>
          match value (values text) with
          | .value cell => Function.update values text (if isNil cell then .nil else cell)
          | _ => values
      | _ => values
  | .get _ => values
  | .load assocs => loadEffect values assocs

def ContextCall.effect (values : List UInt8 → Cell) : ContextCall → List UInt8 → Cell
  | .hash args => args.effect values
  | .assign _ _ => values

/-- The values stored last and not deleted since. -/
def lastStored (values : List UInt8 → Cell) (calls : List ContextCall) : List UInt8 → Cell :=
  calls.foldl ContextCall.effect values

namespace Dictionary

/-- The symbols of the context have these contents. -/
structure Represents (b : UInt8) (D : Dictionary) (order : List Nat)
    (contents : List UInt8 → Cell) : Prop where
  sorted : D.table.Sorted b order
  known : ∀ x ∈ order, D.contents x = some (contents (D.table.bytes x))
  absent : ∀ name, (∀ x ∈ order, D.table.bytes x ≠ name) → contents name = .nil
  unused : ∀ x, D.table.fresh ≤ x → D.contents x = none

variable {b : UInt8} {D : Dictionary} {order : List Nat} {contents : List UInt8 → Cell}
  {token : CString} {x : Nat} {cell : Cell}

/-- A new symbol is `nil`. -/
theorem Represents.create (h : D.Represents b order contents) (htoken : token.FollowedBy b) :
    ∃ x E order', D.translateCreateSymbol token = some (x, E) ∧
      E.Represents b order' contents ∧ x ∈ order' ∧ E.table.bytes x = token.bytes ∧
      E.name = D.name := by
  obtain ⟨x, U, order', hU, hsorted, hx, hmem, hbytes, hcase⟩ :=
    insert_spec h.sorted htoken htoken rfl
  have habsent : ∀ name, (∀ y ∈ order', U.bytes y ≠ name) → contents name = .nil := by
    intro name hname
    apply h.absent
    intro y hy hsame
    exact hname y ((hmem y).2 (.inr hy)) ((hbytes y hy).trans hsame)
  rcases hcase with ⟨hold, hfresh⟩ | ⟨hnew, hfresh⟩
  · refine ⟨x, { D with table := U }, order', ?_, ⟨hsorted, ?_, habsent, ?_⟩,
      (hmem x).2 (.inl rfl), hx, rfl⟩
    · simp [translateCreateSymbol, hU, h.known x hold]
    · intro y hy
      have hy' : y ∈ order := by
        rcases (hmem y).1 hy with rfl | hy
        · exact hold
        · exact hy
      change D.contents y = some (contents (U.bytes y))
      rw [h.known y hy', hbytes y hy']
    · intro y hy
      exact h.unused y (hfresh ▸ hy)
  · subst hnew
    have hnone : D.contents D.table.fresh = none := h.unused _ (Nat.le_refl _)
    have hnil : contents token.bytes = .nil := by
      apply h.absent
      intro y hy hsame
      have hyx : y = D.table.fresh :=
        hsorted.unique ((hmem y).2 (.inr hy)) ((hmem _).2 (.inl rfl))
          ((hbytes y hy).trans (hsame.trans hx.symm))
      exact Nat.lt_irrefl _ (hyx ▸ h.sorted.bound hy)
    refine ⟨_, setContents { D with table := U } D.table.fresh (some .nil), order', ?_,
      ⟨hsorted, ?_, habsent, ?_⟩, (hmem _).2 (.inl rfl), hx, rfl⟩
    · simp [translateCreateSymbol, hU, hnone]
    · intro y hy
      change Function.update D.contents D.table.fresh (some .nil) y = some (contents (U.bytes y))
      rcases (hmem y).1 hy with rfl | hy
      · rw [Function.update_self, hx, hnil]
      · rw [Function.update_of_ne (h.sorted.bound hy).ne, h.known y hy, hbytes y hy]
    · intro y hy
      change U.fresh ≤ y at hy
      change Function.update D.contents D.table.fresh (some .nil) y = none
      rw [Function.update_of_ne (by omega), h.unused y (by omega)]

theorem Represents.set (h : D.Represents b order contents) (hx : x ∈ order) (cell : Cell) :
    (D.setContents x (some cell)).Represents b order
      (Function.update contents (D.table.bytes x) cell) := by
  refine ⟨h.sorted, ?_, ?_, ?_⟩
  · intro y hy
    change Function.update D.contents x (some cell) y =
      some (Function.update contents (D.table.bytes x) cell (D.table.bytes y))
    by_cases hyx : y = x
    · rw [hyx, Function.update_self, Function.update_self]
    · rw [Function.update_of_ne hyx, Function.update_of_ne, h.known y hy]
      intro hsame
      exact hyx (h.sorted.unique hy hx hsame)
  · intro name hname
    change ∀ y ∈ order, D.table.bytes y ≠ name at hname
    rw [Function.update_of_ne (hname x hx).symm]
    exact h.absent name hname
  · intro y hy
    have hne : y ≠ x := by
      rintro rfl
      exact Nat.lt_irrefl _ (Nat.lt_of_lt_of_le (h.sorted.bound hx) hy)
    exact (Function.update_of_ne hne ..).trans (h.unused y hy)

theorem Represents.delete (h : D.Represents b order contents) (hx : x ∈ order) :
    ∃ E order', D.deleteAndFreeSymbol x = some E ∧
      E.Represents b order' (Function.update contents (D.table.bytes x) .nil) ∧
      E.name = D.name := by
  obtain ⟨found, U, order', hU, hsorted, hfound, hmem, hbytes, hfresh⟩ :=
    deleteSymbol_spec h.sorted (h.sorted.names x hx)
  change ∀ y, y ∈ order' ↔ y ∈ order ∧ D.table.bytes y ≠ D.table.bytes x at hmem
  have hgone := hfound.2 ⟨x, hx, rfl⟩
  refine ⟨setContents { D with table := U } x none, order', ?_, ⟨hsorted, ?_, ?_, ?_⟩, rfl⟩
  · simp [deleteAndFreeSymbol, hU, hgone]
  · intro y hy
    obtain ⟨hy, hne⟩ := (hmem y).1 hy
    have hyx : y ≠ x := by
      rintro rfl
      exact hne rfl
    change Function.update D.contents x none y =
      some (Function.update contents (D.table.bytes x) .nil (U.bytes y))
    rw [hbytes, Function.update_of_ne hyx, Function.update_of_ne hne, h.known y hy]
  · intro name hname
    by_cases hsame : name = D.table.bytes x
    · rw [hsame, Function.update_self]
    · rw [Function.update_of_ne hsame]
      apply h.absent
      intro y hy hbytes'
      refine hname y ((hmem y).2 ⟨hy, ?_⟩) ((hbytes y).trans hbytes')
      intro heq
      exact hsame (hbytes'.symm.trans heq)
  · intro y hy
    change U.fresh ≤ y at hy
    have hne : y ≠ x := by
      rintro rfl
      have := h.sorted.bound hx
      omega
    exact (Function.update_of_ne hne ..).trans (h.unused y (hfresh ▸ hy))

theorem Represents.lookup (h : D.Represents b order contents) (htoken : token.FollowedBy b) :
    ∃ found, findInsertSymbol D.table token false token = some (found, D.table) ∧
      (∀ x, found = some x → D.contents x = some (contents token.bytes)) ∧
      (found = none → contents token.bytes = .nil) := by
  obtain ⟨found, hfound, hiff⟩ := lookup_spec token h.sorted htoken
  refine ⟨found, hfound, ?_, ?_⟩
  · intro x hx
    obtain ⟨hx, hname⟩ := (hiff x).1 hx
    rw [h.known x hx, hname]
  · rintro rfl
    apply h.absent
    intro x hx hname
    exact absurd ((hiff x).2 ⟨hx, hname⟩) (by simp)

theorem ofBuffer_takeWhile (contents : List UInt8) :
    CString.ofBuffer (underscore :: contents.takeWhile (· ≠ 0)) =
      CString.ofBuffer (underscore :: contents) := by
  have hbytes : (underscore :: contents.takeWhile (· ≠ 0)).takeWhile (· ≠ 0) =
      (underscore :: contents).takeWhile (· ≠ 0) := by
    simp [List.takeWhile_cons, List.takeWhile_takeWhile]
  unfold CString.ofBuffer
  simp only [hbytes]

/-- The tokens are the texts behind an underscore. -/
theorem safeToken_eq (cell : Cell) :
    safeToken cell = keyText cell >>= fun text => .value (.ofBuffer (underscore :: text)) := by
  cases cell with
  | string contents =>
      rw [keyText, Outcome.value_bind, ofBuffer_takeWhile]
      rfl
  | _ => simp [safeToken, keyText, getIntegerExt]

theorem decimalInt_noZero (n : Int) : 0 ∉ decimalInt n := by
  intro hmem
  have hdigit : ∀ x ∈ decimal n.natAbs, x ≠ 0 := by
    rintro x hx rfl
    exact absurd (isDigit_decimal _ _ hx) (by decide)
  unfold decimalInt at hmem
  by_cases hn : n < 0
  · rw [if_pos hn] at hmem
    rcases List.mem_cons.1 hmem with h | h
    · exact absurd h (by decide)
    · exact hdigit 0 h rfl
  · rw [if_neg hn] at hmem
    exact hdigit 0 hmem rfl

theorem keyText_noZero {cell : Cell} {text : List UInt8} (h : keyText cell = .value text) :
    0 ∉ text := by
  have hnumber : ∀ c, (getIntegerExt c >>= fun n : Word =>
      (pure (decimalInt n.toInt) : Outcome Error (List UInt8))) = .value text → 0 ∉ text := by
    intro c hc
    obtain ⟨n, -, hn⟩ := Outcome.bind_eq_value_iff.1 hc
    obtain rfl := Outcome.value.inj hn
    exact decimalInt_noZero _
  cases cell with
  | string contents =>
      obtain rfl := Outcome.value.inj h
      intro hmem
      simpa using List.mem_takeWhile_imp hmem
  | _ => exact hnumber _ h

theorem ofBuffer_bytes {text : List UInt8} (h : 0 ∉ text) :
    (CString.ofBuffer (underscore :: text)).bytes = underscore :: text := by
  refine List.takeWhile_eq_self_iff.2 ?_
  intro x hx
  rcases List.mem_cons.1 hx with rfl | hx
  · decide
  · have hne : x ≠ 0 := fun h0 => h (h0 ▸ hx)
    simpa using hne

theorem ofBuffer_followedBy (b : UInt8) (text : List UInt8) :
    (CString.ofBuffer (underscore :: text)).FollowedBy b := by
  intro hnil
  have hcons : (CString.ofBuffer (underscore :: text)).bytes =
      underscore :: text.takeWhile (· ≠ 0) := by
    simp only [CString.ofBuffer]
    rw [List.takeWhile_cons_of_pos (by decide)]
  exact absurd (hcons.symm.trans hnil) (by simp)

/-- The values under the keys are these, and the default functor is `nil`. -/
structure Holds (b : UInt8) (name : CString) (D : Dictionary) (values : List UInt8 → Cell) :
    Prop where
  contents : ∃ order contents, D.Represents b order contents ∧
    (∀ text, contents (underscore :: text) = values text) ∧ isNil (contents name.bytes) = true
  named : D.name = name
  followed : name.FollowedBy b
  plain : name.bytes.head? ≠ some underscore

variable {values : List UInt8 → Cell} {text : List UInt8} {name : CString}

/-- The symbol of a key, in the context where it is there. -/
theorem Holds.create (h : D.Holds b name values) (htext : 0 ∉ text) :
    ∃ x E, D.translateCreateSymbol (.ofBuffer (underscore :: text)) = some (x, E) ∧
      E.Holds b name values ∧ E.contents x = some (values text) ∧
      (∀ cell, (E.setContents x (some cell)).Holds b name (Function.update values text cell)) ∧
      ∀ cell, ∃ F, (E.setContents x (some cell)).deleteAndFreeSymbol x = some F ∧
        F.Holds b name (Function.update values text .nil) := by
  obtain ⟨⟨order, contents, hrep, hvalues, hfunctor⟩, rfl, hname, hplain⟩ := h
  have hne : ∀ {t : List UInt8}, D.name.bytes ≠ underscore :: t := by
    intro t ht
    exact hplain (by rw [ht]; rfl)
  obtain ⟨x, E, order', hE, hrepE, hx, hbytes, hnameE⟩ :=
    hrep.create (ofBuffer_followedBy b text)
  rw [ofBuffer_bytes htext] at hbytes
  -- the contents of the other symbols stay
  have hupdate : ∀ (cell : Cell),
      (∀ t, Function.update contents (underscore :: text) cell (underscore :: t) =
        Function.update values text cell t) ∧
      isNil (Function.update contents (underscore :: text) cell D.name.bytes) = true := by
    intro cell
    constructor
    · intro t
      by_cases ht : t = text
      · rw [ht, Function.update_self, Function.update_self]
      · rw [Function.update_of_ne ht, Function.update_of_ne (by simpa using ht), hvalues]
    · rw [Function.update_of_ne hne]
      exact hfunctor
  have hset : ∀ cell, (E.setContents x (some cell)).Represents b order'
      (Function.update contents (underscore :: text) cell) := by
    intro cell
    have hnew := hrepE.set hx cell
    rwa [hbytes] at hnew
  refine ⟨x, E, hE, ⟨⟨order', contents, hrepE, hvalues, hfunctor⟩, hnameE, hname, hplain⟩,
    ?_, ?_, ?_⟩
  · rw [hrepE.known x hx, hbytes, hvalues]
  · intro cell
    exact ⟨⟨order', _, hset cell, hupdate cell⟩, hnameE, hname, hplain⟩
  · intro cell
    obtain ⟨F, order'', hF, hrepF, hnameF⟩ := (hset cell).delete hx
    have hcontents : Function.update (Function.update contents (underscore :: text) cell)
        ((E.setContents x (some cell)).table.bytes x) .nil =
        Function.update contents (underscore :: text) .nil := by
      change Function.update (Function.update contents (underscore :: text) cell)
        (E.table.bytes x) .nil = _
      rw [hbytes, Function.update_idem]
    rw [hcontents] at hrepF
    exact ⟨F, hF, ⟨order'', _, hrepF, hupdate .nil⟩, hnameF.trans hnameE, hname, hplain⟩

theorem Holds.store (h : D.Holds b name values) (key : HashKey)
    (value : Cell → Outcome Error Cell) :
    ∃ result E, D.evaluateNamespaceHash (.store key value) = some (result, E) ∧
      E.Holds b name ((HashArgs.store key value).effect values) := by
  simp only [evaluateNamespaceHash, HashArgs.effect, safeToken_eq]
  cases htext : keyText key.val with
  | value text =>
      obtain ⟨x, E, hE, hholds, hcontents, hset, hdelete⟩ := h.create (keyText_noZero htext)
      simp only [Outcome.value_bind, withValue, hE, Option.bind_eq_bind, Option.bind_some,
        hcontents]
      cases value (values text) with
      | value cell =>
          by_cases hnil : isNil cell = true
          · obtain ⟨F, hF, hholdsF⟩ := hdelete cell
            exact ⟨.value .nil, F, by simp [hnil, hF], by simpa [hnil] using hholdsF⟩
          · exact ⟨.value cell, E.setContents x (some cell), by simp [hnil],
              by simpa [hnil] using hset cell⟩
      | error e => exact ⟨.error e, E, rfl, hholds⟩
      | undefined => exact ⟨.undefined, E, rfl, hholds⟩
      | timeout => exact ⟨.timeout, E, rfl, hholds⟩
  | error e => exact ⟨.error e, D, rfl, h⟩
  | undefined => exact ⟨.undefined, D, rfl, h⟩
  | timeout => exact ⟨.timeout, D, rfl, h⟩

theorem Holds.get (h : D.Holds b name values) (key : HashKey) :
    ∃ result, D.evaluateNamespaceHash (.get key) = some (result, D) ∧
      ∀ text, keyText key.val = .value text → result = .value (values text) := by
  simp only [evaluateNamespaceHash, safeToken_eq]
  cases htext : keyText key.val with
  | value text =>
      obtain ⟨order, contents, hrep, hvalues, -⟩ := h.contents
      have hbytes := ofBuffer_bytes (keyText_noZero htext)
      obtain ⟨found, hfound, hsome, hnone⟩ :=
        hrep.lookup (ofBuffer_followedBy b text)
      rw [hbytes, hvalues] at hsome hnone
      refine ⟨.value (values text), ?_, ?_⟩
      · cases found with
        | none => simp [withValue, hfound, hnone rfl]
        | some x => simp [withValue, hfound, hsome x rfl]
      · rintro _ ⟨⟩
        rfl
  | error e => exact ⟨.error e, rfl, by simp⟩
  | undefined => exact ⟨.undefined, rfl, by simp⟩
  | timeout => exact ⟨.timeout, rfl, by simp⟩

theorem Holds.loadAssocs (h : D.Holds b name values) (assocs : List Cell) :
    ∃ result E, D.loadAssocs assocs = some (result, E) ∧
      E.Holds b name (loadEffect values assocs) := by
  induction assocs generalizing D values with
  | nil => exact ⟨.value (), D, rfl, h⟩
  | cons assoc assocs ih =>
      match assoc with
      | .expression (key :: rest) =>
          simp only [Dictionary.loadAssocs, loadEffect]
          by_cases hkey : isKey key = true
          · simp only [hkey, if_true, safeToken_eq]
            cases htext : keyText key with
            | value text =>
                obtain ⟨x, E, hE, -, -, hset, -⟩ := h.create (keyText_noZero htext)
                obtain ⟨result, F, hF, hholds⟩ := ih (hset (rest.headD .nil))
                refine ⟨result, F, ?_, hholds⟩
                simp only [Outcome.value_bind, withValue, hE, Option.bind_eq_bind,
                  Option.bind_some]
                exact hF
            | error e => exact ⟨.error e, D, rfl, h⟩
            | undefined => exact ⟨.undefined, D, rfl, h⟩
            | timeout => exact ⟨.timeout, D, rfl, h⟩
          · simp only [hkey]
            exact ih h
      | .expression [] => exact ih h
      | .nil | .true_ | .long _ | .bigint _ | .float _ | .string _ | .symbol _ | .context _
      | .primitive _ | .quote _ | .lambda _ _ | .fexpr _ | .array _ | .dynSymbol _ _ =>
          exact ⟨.value (), D, rfl, h⟩

theorem Holds.hash (h : D.Holds b name values) (args : HashArgs) :
    ∃ result E, D.evaluateNamespaceHash args = some (result, E) ∧
      E.Holds b name (args.effect values) := by
  cases args with
  | store key value => exact h.store key value
  | get key =>
      obtain ⟨result, hresult, -⟩ := h.get key
      exact ⟨result, D, hresult, h⟩
  | load assocs =>
      obtain ⟨result, E, hE, hholds⟩ := h.loadAssocs assocs
      simp only [evaluateNamespaceHash, hE, Option.bind_eq_bind, Option.bind_some]
      cases result with
      | value u => exact ⟨_, E, rfl, hholds⟩
      | error e => exact ⟨_, E, rfl, hholds⟩
      | undefined => exact ⟨_, E, rfl, hholds⟩
      | timeout => exact ⟨_, E, rfl, hholds⟩

/-- The default functor is there and `nil`. -/
theorem Holds.functor (h : D.Holds b name values) :
    ∃ x E cell, D.translateCreateSymbol D.name = some (x, E) ∧ E.contents x = some cell ∧
      isNil cell = true ∧ E.Holds b name values := by
  obtain ⟨⟨order, contents, hrep, hvalues, hfunctor⟩, rfl, hname, hplain⟩ := h
  obtain ⟨x, E, order', hE, hrepE, hx, hbytes, hnameE⟩ := hrep.create hname
  refine ⟨x, E, contents D.name.bytes, hE, ?_, hfunctor,
    ⟨order', contents, hrepE, hvalues, hfunctor⟩, hnameE, hname, hplain⟩
  rw [hrepE.known x hx, hbytes]

/-- The assignment of a symbol keeps apart from the keys and from the default functor. -/
def Apart (b : UInt8) (name : CString) : ContextCall → Prop
  | .hash _ => True
  | .assign symbol _ =>
      symbol.FollowedBy b ∧ symbol.bytes.head? ≠ some underscore ∧ symbol.bytes ≠ name.bytes

theorem Holds.assign (h : D.Holds b name values) {symbol : CString}
    (hsymbol : Apart b name (.assign symbol cell)) :
    ∃ result E, D.evaluateCall (.assign symbol cell) = some (result, E) ∧
      E.Holds b name values := by
  obtain ⟨hfollowed, hplain, hother⟩ := hsymbol
  obtain ⟨⟨order, contents, hrep, hvalues, hfunctor⟩, hname, hfollowedName, hplainName⟩ := h
  obtain ⟨x, E, order', hE, hrepE, hx, hbytes, hnameE⟩ := hrep.create hfollowed
  refine ⟨.value cell, E.setContents x (some cell), by simp [evaluateCall, hE],
    ⟨order', _, hrepE.set hx cell, ?_, ?_⟩, hnameE.trans hname, hfollowedName, hplainName⟩
  · intro text
    rw [Function.update_of_ne, hvalues]
    intro hsame
    exact hplain (by rw [← hbytes, ← hsame]; rfl)
  · rw [Function.update_of_ne, hfunctor]
    intro hsame
    exact hother (hbytes.symm.trans hsame.symm)

theorem Holds.call (h : D.Holds b name values) {call : ContextCall} (hcall : Apart b name call) :
    ∃ result E, D.evaluateCall call = some (result, E) ∧
      E.Holds b name (call.effect values) := by
  cases call with
  | hash args =>
      obtain ⟨x, E, functor, hE, hfunctor, hnil, hholds⟩ := h.functor
      obtain ⟨result, F, hF, hholdsF⟩ := hholds.hash args
      refine ⟨result, F, ?_, hholdsF⟩
      simp [evaluateCall, hE, hfunctor, hnil, hF]
  | assign symbol cell => exact h.assign hcall

theorem Holds.calls (h : D.Holds b name values) {calls : List ContextCall}
    (hcalls : ∀ call ∈ calls, Apart b name call) :
    ∃ E, D.evaluateCalls calls = some E ∧ E.Holds b name (lastStored values calls) := by
  induction calls generalizing D values with
  | nil => exact ⟨D, rfl, h⟩
  | cons call calls ih =>
      rw [List.forall_mem_cons] at hcalls
      obtain ⟨result, E, hE, hholds⟩ := h.call hcalls.1
      obtain ⟨F, hF, hresult⟩ := ih hholds hcalls.2
      refine ⟨F, ?_, hresult⟩
      simp [evaluateCalls, hE, hF]

/-- A context without symbols. -/
def new (symbol : Symbol) (name : CString) : Dictionary where
  symbol := symbol
  name := name
  table := SymbolTree.new
  contents := fun _ => none

theorem holds_new (symbol : Symbol) (hname : name.FollowedBy b)
    (hplain : name.bytes.head? ≠ some underscore) :
    (new symbol name).Holds b name fun _ => .nil := by
  obtain ⟨order, hsorted, hnames⟩ := isNew_new.sorted (b := b)
  refine ⟨⟨order, fun _ => .nil, ⟨hsorted, ?_, fun _ _ => rfl, fun _ _ => rfl⟩, fun _ => rfl,
    rfl⟩, rfl, hname, hplain⟩
  intro x hx
  exact absurd ((hnames _).1 ⟨x, hx, rfl⟩) (by simp)

/-- A lookup returns the value under the text of the key. -/
theorem Holds.returns (h : D.Holds b name values) {key : HashKey}
    (htext : keyText key.val = .value text) :
    ∃ E, D.evaluateCall (.hash (.get key)) = some (.value (values text), E) := by
  obtain ⟨x, E, functor, hE, hfunctor, hnil, hholds⟩ := h.functor
  obtain ⟨result, hresult, hvalue⟩ := hholds.get key
  refine ⟨E, ?_⟩
  rw [hvalue text htext] at hresult
  simp [evaluateCall, hE, hfunctor, hnil, hresult]

end Dictionary

theorem decimalInt_injective {n m : Int} (h : decimalInt n = decimalInt m) : n = m := by
  have hdigit : ∀ k l : Nat, decimal k ≠ '-'.toUInt8 :: decimal l := by
    intro k l hkl
    have hminus := isDigit_decimal k '-'.toUInt8 (by rw [hkl]; exact List.mem_cons_self)
    exact absurd hminus (by decide)
  have habs : ∀ k l : Nat, decimal k = decimal l → k = l := by
    intro k l hkl
    rw [← textValue_decimal k, hkl, textValue_decimal]
  unfold decimalInt at h
  by_cases hn : n < 0
  · by_cases hm : m < 0
    · rw [if_pos hn, if_pos hm, List.cons.injEq] at h
      have := habs _ _ h.2
      omega
    · rw [if_pos hn, if_neg hm] at h
      exact absurd h.symm (hdigit _ _)
  · by_cases hm : m < 0
    · rw [if_neg hn, if_pos hm] at h
      exact absurd h (hdigit _ _)
    · rw [if_neg hn, if_neg hm] at h
      have := habs _ _ h
      omega

theorem takeWhile_noZero {text : List UInt8} (h : 0 ∉ text) :
    text.takeWhile (· ≠ 0) = text := by
  refine List.takeWhile_eq_self_iff.2 ?_
  intro x hx
  have hne : x ≠ 0 := fun h0 => h (h0 ▸ hx)
  simpa using hne

theorem lastStored_other (calls : List ContextCall) {key : HashKey} {text : List UInt8}
    (hkey : keyText key.val ≠ .value text) (value : Cell → Outcome Error Cell) :
    lastStored (fun _ => .nil) (calls ++ [.hash (.store key value)]) text =
      lastStored (fun _ => .nil) calls text := by
  simp only [lastStored, List.foldl_append, List.foldl_cons, List.foldl_nil,
    ContextCall.effect, HashArgs.effect]
  cases hk : keyText key.val with
  | value t =>
      have hne : text ≠ t := by
        rintro rfl
        exact hkey hk
      simp only
      cases value _ with
      | value cell => exact Function.update_of_ne hne ..
      | _ => rfl
  | _ => rfl

/-- A context used as a dictionary is a finite map from the texts of the keys: the value
stored last under a key is found, and nothing is changed under the others. -/
theorem dictionary_finite_map (b : UInt8) (symbol : Symbol) {name : CString}
    (hname : name.FollowedBy b) (hplain : name.bytes.head? ≠ some underscore)
    {calls : List ContextCall} (hcalls : ∀ call ∈ calls, Apart b name call) :
    (∃ D, (Dictionary.new symbol name).evaluateCalls calls = some D ∧
      ∀ (key : HashKey) (text : List UInt8), keyText key.val = .value text →
        ∃ E, D.evaluateCall (.hash (.get key)) =
          some (.value (lastStored (fun _ => .nil) calls text), E)) ∧
      (∀ (key : HashKey) (text : List UInt8) (value : Cell → Outcome Error Cell),
        keyText key.val ≠ .value text →
          lastStored (fun _ => .nil) (calls ++ [.hash (.store key value)]) text =
            lastStored (fun _ => .nil) calls text) ∧
      (∀ n m : Word, keyText (.long n) = keyText (.long m) → n = m) ∧
      ∀ s t : List UInt8, 0 ∉ s → 0 ∉ t →
        keyText (.string s) = keyText (.string t) → s = t := by
  refine ⟨?_, ?_, ?_, ?_⟩
  · obtain ⟨D, hD, hholds⟩ := (holds_new symbol hname hplain).calls hcalls
    exact ⟨D, hD, fun key text htext => hholds.returns htext⟩
  · intro key text value hkey
    exact lastStored_other calls hkey value
  · intro n m h
    have htext : decimalInt n.toInt = decimalInt m.toInt := by
      simpa [keyText, getIntegerExt] using h
    exact BitVec.eq_of_toInt_eq (decimalInt_injective htext)
  · intro s t hs ht h
    have htext := Outcome.value.inj h
    rwa [takeWhile_noZero hs, takeWhile_noZero ht] at htext

/-- The context `D` without symbols. -/
def nameD : CString := .letter 68 (by decide)

def newD : Dictionary := .new ⟨"MAIN", "D"⟩ nameD

theorem nameD_followedBy : nameD.FollowedBy 0 := fun h => absurd h (by simp [nameD, CString.letter])

theorem nameD_plain : nameD.bytes.head? ≠ some underscore := by decide

/-- `(D key true)`. -/
def storeTrue (key : HashKey) : ContextCall := .hash (.store key fun _ => .value .true_)

theorem storeTrue_apart (key : HashKey) : ∀ call ∈ [storeTrue key], Apart 0 nameD call := by
  simp [storeTrue, Apart]

def integerKey (n : Word) : HashKey := ⟨.long n, rfl⟩
def stringKey (text : List UInt8) : HashKey := ⟨.string text, rfl⟩

/-- `(D key cell)`. -/
def storeCell (key : HashKey) (cell : Cell) : ContextCall :=
  .hash (.store key fun _ => .value cell)

/-- `(D "a" 1) (D "b" true) (D "a" 7) (D "b" nil)`. -/
def overwriteAndDelete : List ContextCall :=
  [storeCell (stringKey [97]) (.long 1), storeTrue (stringKey [98]),
    storeCell (stringKey [97]) (.long 7), storeCell (stringKey [98]) .nil]

/-- The key `"a"` has the value stored last, and `"b"` is deleted. -/
theorem dictionary_finite_map_keys :
    ∃ D, newD.evaluateCalls overwriteAndDelete = some D ∧
      (∃ E, D.evaluateCall (.hash (.get (stringKey [97]))) = some (.value (.long 7), E)) ∧
      ∃ E, D.evaluateCall (.hash (.get (stringKey [98]))) = some (.value .nil, E) := by
  have hapart : ∀ call ∈ overwriteAndDelete, Apart 0 nameD call := by
    simp [overwriteAndDelete, storeCell, storeTrue, Apart]
  obtain ⟨⟨D, hD, hget⟩, -⟩ := dictionary_finite_map 0 ⟨"MAIN", "D"⟩ nameD_followedBy nameD_plain
    hapart
  exact ⟨D, hD, hget (stringKey [97]) [97] rfl, hget (stringKey [98]) [98] rfl⟩

theorem keyText_five : keyText (integerKey 5).val = .value [53] := by
  have hlog : Nat.log 10 5 = 0 := Nat.log_of_lt (by decide)
  have hdecimal : decimal 5 = [53] := by
    rw [decimal, hlog]
    decide
  have hint : decimalInt (5 : Word).toInt = [53] := hdecimal
  simp only [keyText, integerKey, getIntegerExt, Outcome.value_bind, hint]
  rfl

/-- A value stored under a key is found under another key of the same text. -/
theorem storeTrue_returns {key other : HashKey} {text : List UInt8}
    (hkey : keyText key.val = .value text) (hother : keyText other.val = .value text) :
    ∃ D, newD.evaluateCalls [storeTrue key] = some D ∧
      ∃ E, D.evaluateCall (.hash (.get other)) = some (.value .true_, E) := by
  have hnew := holds_new ⟨"MAIN", "D"⟩ nameD_followedBy nameD_plain
  obtain ⟨D, hD, hholds⟩ := hnew.calls (storeTrue_apart key)
  have hstored : lastStored (fun _ => .nil) [storeTrue key] text = .true_ := by
    change (HashArgs.store key fun _ => .value .true_).effect (fun _ => .nil) text = .true_
    rw [HashArgs.effect, hkey]
    exact Function.update_self ..
  obtain ⟨E, hE⟩ := hholds.returns hother
  exact ⟨D, hD, E, hstored ▸ hE⟩

/-- The integer `5` is the key `"5"`, a string ends at its first zero byte, and the key
`"D"` is the default functor of a context `_D`. -/
theorem different_keys_collide :
    (∃ D, newD.evaluateCalls [storeTrue (integerKey 5)] = some D ∧
      ∃ E, D.evaluateCall (.hash (.get (stringKey [53]))) = some (.value .true_, E)) ∧
    (∃ D, newD.evaluateCalls [storeTrue (stringKey [97, 0, 98])] = some D ∧
      ∃ E, D.evaluateCall (.hash (.get (stringKey [97]))) = some (.value .true_, E)) ∧
    (Dictionary.new ⟨"MAIN", "_D"⟩ (.ofBuffer [underscore, 68])).evaluateCalls
      [storeTrue (stringKey [68]), .hash (.get (stringKey [68]))] = none := by
  have hzero : keyText (stringKey [97, 0, 98]).val = .value [97] := rfl
  refine ⟨storeTrue_returns keyText_five rfl, storeTrue_returns hzero rfl, ?_⟩
  rfl

end NewLispNeo
