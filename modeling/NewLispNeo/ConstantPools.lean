/-
The constants of bytecode objects, which are cells of the memory like any other: what
leaves them alone, and that an object stays as compiled while no step edits one.
-/
import NewLispNeo.Ownership

namespace NewLispNeo

/-- What the compiler makes, with its constants as cells in memory: of a lambda in
them the symbol it is compiled for is left out. -/
def Bytecode.inMemory (bc : Bytecode) : Bytecode :=
  { bc with constants := bc.constants.map fun c => (HeapCell.ofCell c).plain }

namespace HeapCell

variable {s : Symbol}

mutual

/-- Taking out a symbol that a cell does not refer to changes nothing. -/
theorem plain_unlink (c : HeapCell) (h : s ∉ c.plain.symbols) :
    (c.unlink s).plain = c.plain := by
  cases c with
  | atom cell =>
      have hs : s ∉ cell.val.symbols := h
      simp [unlink, hs]
  | quote c => exact congrArg Cell.quote (plain_unlink c h)
  | list type cs =>
      rw [plain, ListEdit.symbols_list] at h
      rw [unlink, plain, plain, plain_unlinkList cs h]
  | lambda aux cs =>
      rw [unlink, plain, plain, plain_unlinkList cs h]

theorem plain_unlinkList (cs : List HeapCell)
    (h : s ∉ Cell.symbolsList (plainList cs)) :
    plainList (unlinkList s cs) = plainList cs := by
  cases cs with
  | nil => rfl
  | cons c cs =>
      rw [plainList, Cell.symbolsList, List.mem_append, not_or] at h
      rw [unlinkList, plainList, plainList, plain_unlink c h.1,
        plain_unlinkList cs h.2]

end

end HeapCell

namespace Heap

/-- An object as it is now, with the constants that its pool holds. -/
def bytecode (h : Heap) (b : Nat) : Option Bytecode :=
  h.objects[b]?.map fun o =>
    { o.bytecode with constants := (h.constants b).map HeapCell.plain }

/-- Every object that holds a constant has been made. -/
def Pooled (h : Heap) : Prop :=
  ∀ held ∈ h.cells, ∀ b, held.1 = some b → b < h.objects.length

/-- A step that edits no constant of an object and swaps none, and deletes no symbol
that one mentions. -/
def SparesConstants (h : Heap) (b : Nat) : Action → Prop
  | .edit i _ e => e = .undo ∨
      ∀ held, h.cells[i]? = some held → held.1 ≠ some b
  | .swap i _ j _ => (∀ held, h.cells[i]? = some held → held.1 ≠ some b) ∧
      ∀ held, h.cells[j]? = some held → held.1 ≠ some b
  | .deleteSymbol s => ∀ held ∈ h.cells, held.1 = some b →
      s ∉ held.2.plain.symbols
  | _ => True

theorem lt_of_bytecode {h : Heap} {b : Nat} {bc : Bytecode}
    (hb : h.bytecode b = some bc) : b < h.objects.length := by
  obtain ⟨o, ho, -⟩ := Option.map_eq_some_iff.mp hb
  exact (List.getElem?_eq_some_iff.mp ho).1

theorem constants_of_bytecode {h : Heap} {b : Nat} {bc : Bytecode}
    (hb : h.bytecode b = some bc) :
    (h.constants b).map HeapCell.plain = bc.constants := by
  obtain ⟨o, -, rfl⟩ := Option.map_eq_some_iff.mp hb
  rfl

section Constants

variable {h h' : Heap} (b : Nat)

theorem bytecode_congr
    (hbytecode : (h'.objects[b]?).map BytecodeObj.bytecode =
      (h.objects[b]?).map BytecodeObj.bytecode)
    (hconstants : (h'.constants b).map HeapCell.plain =
      (h.constants b).map HeapCell.plain) : h'.bytecode b = h.bytecode b := by
  have hmap : ∀ h : Heap, h.bytecode b =
      ((h.objects[b]?).map BytecodeObj.bytecode).map fun bc =>
        { bc with constants := (h.constants b).map HeapCell.plain } := by
    intro h
    rw [Option.map_map]
    rfl
  rw [hmap, hmap, hbytecode, hconstants]

@[simp] theorem constants_push (cs : List HeapCell) :
    (h.push cs).constants b = h.constants b := by
  simp [constants, push, List.filter_eq_nil_iff]

theorem constants_erase {i : Nat} {c : HeapCell}
    (hi : h.cells[i]? = some (none, c)) :
    (h.erase i).constants b = h.constants b := by
  obtain ⟨hlt, hget⟩ := List.getElem?_eq_some_iff.mp hi
  have hcells : h.cells = h.cells.take i ++ (none, c) :: h.cells.drop (i + 1) := by
    rw [← hget, List.getElem_cons_drop, List.take_append_drop]
  unfold constants erase
  rw [List.eraseIdx_eq_take_drop_succ]
  conv_rhs => rw [hcells]
  simp

/-- A write that is not into a constant, or leaves it as it is. -/
theorem constants_put {i : Nat} {path : List Nat} {new : HeapCell}
    (hput : ∀ held, h.cells[i]? = some held → held.1 ≠ some b ∨
      (HeapCell.put new path held.2).plain = held.2.plain) :
    ((h.put i path new).constants b).map HeapCell.plain =
      (h.constants b).map HeapCell.plain := by
  unfold constants put
  generalize h.cells = cells at hput
  induction cells generalizing i with
  | nil => simp
  | cons held cells ih =>
      cases i with
      | zero =>
          by_cases hb : held.1 = some b
          · have hsame := (hput held rfl).resolve_left fun hne => hne hb
            simp [hb, hsame]
          · simp [hb]
      | succ i =>
          have hrest := ih (i := i) hput
          by_cases hb : held.1 = some b
          · simpa [hb] using hrest
          · simpa [hb] using hrest

theorem constants_unlink {s : Symbol}
    (hs : ∀ held ∈ h.cells, held.1 = some b →
      (held.2.unlink s).plain = held.2.plain)
    (hcells : h'.cells = h.cells.map fun held => (held.1, held.2.unlink s)) :
    (h'.constants b).map HeapCell.plain = (h.constants b).map HeapCell.plain := by
  unfold constants
  rw [hcells]
  generalize h.cells = cells at hs
  induction cells with
  | nil => rfl
  | cons held cells ih =>
      have hrest := ih fun held hheld => hs held (List.mem_cons_of_mem _ hheld)
      by_cases hb : held.1 = some b
      · have hsame := hs held List.mem_cons_self hb
        simpa [hb, hsame] using hrest
      · simpa [hb] using hrest

/-- Compiling puts the constants of the new object into the memory. -/
theorem constants_compile {i : Nat} {path : List Nat} {aux : Option Nat}
    {cs : List HeapCell} {selfSymbol : Option Symbol} {bc : Bytecode}
    (hold : h.cellAt i path = some (.lambda aux cs))
    (hbc : compileLambda { h.context with selfSymbol := selfSymbol }
      (HeapCell.plainList cs) = .value bc) :
    ((h.compile i path selfSymbol cs).constants b).map HeapCell.plain =
      (h.constants b).map HeapCell.plain ++
        if b = h.objects.length then bc.inMemory.constants else [] := by
  rw [compile_eq hbc]
  generalize hn : h.objects.length = n
  have hput : ((h.put i path (.lambda (some n) cs)).constants b).map
      HeapCell.plain = (h.constants b).map HeapCell.plain := by
    refine constants_put b fun held hi => .inr ?_
    obtain ⟨held', hi', hat⟩ := Option.bind_eq_some_iff.mp hold
    obtain rfl : held = held' := Option.some.inj (hi.symm.trans hi')
    exact HeapCell.plain_put hat rfl
  rw [← hput]
  unfold constants
  rw [List.filter_append, List.map_append, List.map_append]
  by_cases hb : b = n
  · simp [hb, Bytecode.inMemory, List.filter_map, Function.comp_def]
  · have hne : ¬ n = b := Ne.symm hb
    simp [hb, hne, List.filter_map, Function.comp_def]

end Constants

/-- The new object is what the compiler made. -/
theorem bytecode_compile {h : Heap} {i : Nat} {path : List Nat} {aux : Option Nat}
    {cs : List HeapCell} {selfSymbol : Option Symbol} {bc : Bytecode}
    (hpooled : h.Pooled) (hold : h.cellAt i path = some (.lambda aux cs))
    (hbc : compileLambda { h.context with selfSymbol := selfSymbol }
      (HeapCell.plainList cs) = .value bc) :
    (h.compile i path selfSymbol cs).bytecode h.objects.length =
      some bc.inMemory := by
  have hempty : h.constants h.objects.length = [] := by
    refine List.map_eq_nil_iff.mpr (List.filter_eq_nil_iff.mpr ?_)
    intro held hheld hb
    have hlt := hpooled held hheld _ (of_decide_eq_true hb)
    omega
  have hlast : (h.compile i path selfSymbol cs).objects[h.objects.length]? =
      some ⟨bc, 1, true⟩ := by
    rw [compile_eq hbc]
    simp
  rw [bytecode, hlast, Option.map_some, constants_compile _ hold hbc, hempty,
    if_pos rfl]
  rfl

section Steps

variable {h h' h'' : Heap}

/-- What becomes of the objects in any step: their instructions stay, and none that
has been freed comes back. -/
structure KeepsObjects (h h' : Heap) : Prop where
  bytecode : ∀ b : Nat, b < h.objects.length →
    (h'.objects[b]?).map BytecodeObj.bytecode =
      (h.objects[b]?).map BytecodeObj.bytecode
  valid : ∀ b, b < h.objects.length → h'.valid b = true → h.valid b = true
  length : h.objects.length ≤ h'.objects.length
  pooled : h.Pooled → h'.Pooled

theorem KeepsObjects.trans (h₁ : KeepsObjects h h') (h₂ : KeepsObjects h' h'') :
    KeepsObjects h h'' where
  bytecode b hb :=
    (h₂.bytecode b (Nat.lt_of_lt_of_le hb h₁.length)).trans (h₁.bytecode b hb)
  valid b hb hvalid :=
    h₁.valid b hb (h₂.valid b (Nat.lt_of_lt_of_le hb h₁.length) hvalid)
  length := Nat.le_trans h₁.length h₂.length
  pooled hpooled := h₂.pooled (h₁.pooled hpooled)

theorem length_eq_of_bytecode
    (hbytecode : ∀ b : Nat, (h'.objects[b]?).map BytecodeObj.bytecode =
      (h.objects[b]?).map BytecodeObj.bytecode) :
    h.objects.length ≤ h'.objects.length := by
  by_contra hlt
  have hb := hbytecode h'.objects.length
  rw [List.getElem?_eq_none (Nat.le_refl _),
    List.getElem?_eq_getElem (by omega)] at hb
  cases hb

theorem Pooled.of_held (hlength : h.objects.length ≤ h'.objects.length)
    (hheld : ∀ held ∈ h'.cells, held.1 = none ∨ ∃ c, (held.1, c) ∈ h.cells)
    (hpooled : h.Pooled) : h'.Pooled := by
  intro held hin b hb
  rcases hheld held hin with hnone | ⟨c, hc⟩
  · rw [hb] at hnone
    cases hnone
  · exact Nat.lt_of_lt_of_le (hpooled _ hc b hb) hlength

theorem keepsObjects_of_eq (hobj : h'.objects = h.objects)
    (hheld : ∀ held ∈ h'.cells, held.1 = none ∨ ∃ c, (held.1, c) ∈ h.cells) :
    KeepsObjects h h' :=
  ⟨fun b _ => by rw [hobj], fun b _ hb => valid_objects hobj b ▸ hb,
    by rw [hobj], Pooled.of_held (by rw [hobj]) hheld⟩

theorem Shrinks.keepsObjects (hshrinks : Shrinks h h') : KeepsObjects h h' := by
  have hlength := length_eq_of_bytecode hshrinks.bytecode
  exact ⟨fun b _ => hshrinks.bytecode b, fun b _ => hshrinks.valid b, hlength,
    Pooled.of_held hlength
      fun held hheld => .inr ⟨held.2, hshrinks.cells held hheld⟩⟩

theorem push_keepsObjects (cs : List HeapCell) : KeepsObjects h (h.push cs) := by
  refine keepsObjects_of_eq rfl fun held hheld => ?_
  rcases mem_push _ hheld with hheld | ⟨hnone, -⟩
  · exact .inr ⟨held.2, hheld⟩
  · exact .inl hnone

theorem put_keepsObjects (i : Nat) (path : List Nat) (new : HeapCell) :
    KeepsObjects h (h.put i path new) :=
  keepsObjects_of_eq rfl fun _ hheld => .inr (mem_put_held hheld)

theorem compile_keepsObjects (i : Nat) (path : List Nat)
    (selfSymbol : Option Symbol) (cs : List HeapCell) :
    KeepsObjects h (h.compile i path selfSymbol cs) := by
  cases hbc : compileLambda { h.context with selfSymbol := selfSymbol }
      (HeapCell.plainList cs) with
  | value bc =>
      rw [compile_eq hbc]
      have hbefore : ∀ b, b < h.objects.length →
          (h.objects ++ [⟨bc, 1, true⟩])[b]? = h.objects[b]? :=
        fun b hb => List.getElem?_append_left hb
      refine ⟨fun b hb => by rw [hbefore b hb], fun b hb hvalid => ?_, by simp,
        fun hpooled held hheld b hb => ?_⟩
      · rw [valid, hbefore b hb] at hvalid
        exact hvalid
      · rw [List.length_append, List.length_singleton]
        rcases List.mem_append.mp hheld with hheld | hheld
        · obtain ⟨c, hc⟩ := mem_put_held hheld
          exact Nat.lt_succ_of_lt (hpooled _ hc b hb)
        · obtain ⟨c, -, rfl⟩ := List.mem_map.mp hheld
          obtain rfl : h.objects.length = b := Option.some.inj hb
          exact Nat.lt_succ_self _
  | error e =>
      rw [compile_refused hbc (by simp)]
      exact Shrinks.keepsObjects (Shrinks.refl h)
  | undefined =>
      rw [compile_refused hbc (by simp)]
      exact Shrinks.keepsObjects (Shrinks.refl h)
  | timeout =>
      rw [compile_refused hbc (by simp)]
      exact Shrinks.keepsObjects (Shrinks.refl h)

theorem addRef_keepsObjects (b : Nat) : KeepsObjects h (h.addRef b) := by
  have hmod : ∀ x, (h.addRef b).objects[x]? = (h.objects[x]?).map fun o =>
      if b = x then { o with refCount := o.refCount + 1 } else o := by
    intro x
    simp only [addRef, List.getElem?_modify]
    by_cases hx : b = x <;> cases h.objects[x]? <;> simp [hx]
  have hlength : (h.addRef b).objects.length = h.objects.length :=
    List.length_modify _ _ _
  refine ⟨fun x _ => ?_, fun x _ hx => ?_, by rw [hlength],
    Pooled.of_held (by rw [hlength]) fun held hheld => .inr ⟨held.2, hheld⟩⟩
  · rw [hmod]
    cases h.objects[x]? with
    | none => rfl
    | some o => by_cases hx : b = x <;> simp [hx]
  · unfold valid at hx ⊢
    rw [hmod] at hx
    cases hobj : h.objects[x]? with
    | none =>
        rw [hobj] at hx
        cases hx
    | some o =>
        rw [hobj] at hx
        by_cases hbx : b = x
        · simpa [hbx] using hx
        · simpa [hbx] using hx

mutual

theorem copyCell_keepsObjects (h : Heap) (c : HeapCell) :
    KeepsObjects h (h.copyCell c).2 ∧ (h.copyCell c).2.cells = h.cells := by
  match c with
  | .atom cell => exact ⟨Shrinks.keepsObjects (Shrinks.refl h), rfl⟩
  | .quote c => exact copyCell_keepsObjects h c
  | .list type cs => exact copyCells_keepsObjects h cs
  | .lambda aux [] => exact ⟨Shrinks.keepsObjects (Shrinks.refl h), rfl⟩
  | .lambda aux (d :: ds) =>
      obtain ⟨hkeeps₁, hcells₁⟩ := copyCell_keepsObjects h d
      obtain ⟨hkeeps₂, hcells₂⟩ := copyCells_keepsObjects (h.copyCell d).2 ds
      have hkeeps := hkeeps₁.trans hkeeps₂
      have hcells := hcells₂.trans hcells₁
      cases hbc : h.bytecodeOf aux with
      | none =>
          simp only [copyCell, hbc]
          exact ⟨hkeeps, hcells⟩
      | some b =>
          simp only [copyCell, hbc]
          exact ⟨hkeeps.trans (addRef_keepsObjects b), hcells⟩

theorem copyCells_keepsObjects (h : Heap) (cs : List HeapCell) :
    KeepsObjects h (h.copyCells cs).2 ∧ (h.copyCells cs).2.cells = h.cells := by
  match cs with
  | [] => exact ⟨Shrinks.keepsObjects (Shrinks.refl h), rfl⟩
  | c :: cs =>
      obtain ⟨hkeeps₁, hcells₁⟩ := copyCell_keepsObjects h c
      obtain ⟨hkeeps₂, hcells₂⟩ := copyCells_keepsObjects (h.copyCell c).2 cs
      exact ⟨hkeeps₁.trans hkeeps₂, hcells₂.trans hcells₁⟩

end

theorem deleteList_keepsObjects (cs : List HeapCell) :
    KeepsObjects h (h.deleteList cs) := (deleteList_shrinks h cs).keepsObjects

theorem erase_keepsObjects (i : Nat) : KeepsObjects h (h.erase i) :=
  keepsObjects_of_eq rfl fun held hheld => .inr ⟨held.2, mem_erase hheld⟩

theorem editList_keepsObjects {i : Nat} {path : List Nat} {e : ListEdit}
    {deleted : List HeapCell}
    (hedit : h.editList i path e = some (h', deleted)) : KeepsObjects h h' := by
  obtain ⟨h₁, new, c, r, hedits, rfl, rfl⟩ := editList_cases hedit
  have htake : KeepsObjects h h₁ :=
    keepsObjects_of_eq hedits.objects fun held hheld =>
      .inr ⟨held.2, hedits.mem hheld⟩
  exact (htake.trans (put_keepsObjects i path r.cell)).trans
    (push_keepsObjects r.returned)

theorem step_keepsObjects {a : Action} (hstep : h.step a = some h') :
    KeepsObjects h h' := by
  have hsame : ∀ {h' : Heap}, h'.objects = h.objects → h'.cells = h.cells →
      KeepsObjects h h' := fun hobj hcells =>
    keepsObjects_of_eq hobj fun held hheld => .inr ⟨held.2, hcells ▸ hheld⟩
  cases a with
  | intern s =>
      cases hstep
      exact hsame rfl rfl
  | create c =>
      simp only [Heap.step] at hstep
      split at hstep
      · cases hstep
        exact push_keepsObjects _
      · cases hstep
  | copy i path =>
      obtain ⟨c, -, hstep⟩ := Option.bind_eq_some_iff.mp hstep
      cases hstep
      exact (copyCell_keepsObjects h c).1.trans (push_keepsObjects _)
  | delete i =>
      obtain ⟨c, -, hstep⟩ := Option.bind_eq_some_iff.mp hstep
      cases hstep
      exact (erase_keepsObjects i).trans (deleteList_keepsObjects _)
  | collect i =>
      obtain ⟨c, -, hstep⟩ := Option.bind_eq_some_iff.mp hstep
      cases hstep
      exact erase_keepsObjects i
  | compile i path selfSymbol =>
      simp only [Heap.step] at hstep
      split at hstep
      · split at hstep
        · cases hstep
          exact compile_keepsObjects i path selfSymbol _
        · cases hstep
      · cases hstep
  | edit i path e =>
      obtain ⟨⟨h₂, deleted⟩, hedit, hstep⟩ := Option.bind_eq_some_iff.mp hstep
      cases hstep
      exact (editList_keepsObjects hedit).trans (deleteList_keepsObjects _)
  | swap i path j path' =>
      obtain ⟨c, d, -, rfl⟩ := swap_cases hstep
      exact (put_keepsObjects i path d).trans (put_keepsObjects j path' c)
  | enter i path =>
      obtain ⟨b, -, hstep⟩ := Option.bind_eq_some_iff.mp hstep
      cases hstep
      exact hsame rfl rfl
  | tailCall i path =>
      obtain ⟨b, -, hstep⟩ := Option.bind_eq_some_iff.mp hstep
      split at hstep
      · cases hstep
      · cases hstep
        exact hsame rfl rfl
  | leave =>
      simp only [Heap.step] at hstep
      split at hstep
      · cases hstep
      · cases hstep
        exact hsame rfl rfl
  | deleteSymbol s =>
      simp only [Heap.step] at hstep
      split at hstep
      · cases hstep
      · cases hstep
        refine keepsObjects_of_eq rfl fun held hheld => ?_
        obtain ⟨held', hheld', rfl⟩ := List.mem_map.mp hheld
        exact .inr ⟨held'.2, hheld'⟩
  | redefine context =>
      cases hstep
      exact hsame rfl rfl

theorem undo_plain {new c : HeapCell} {r : Edited}
    (happly : ListEdit.undo.apply new c = some r) : r.cell.plain = c.plain := by
  obtain ⟨cs, hcs, hr⟩ := Option.bind_eq_some_iff.mp happly
  cases hr
  cases c with
  | lambda aux ds =>
      obtain rfl : ds = cs := Option.some.inj hcs
      rfl
  | list type ds => cases type <;> simp_all [HeapCell.elements, HeapCell.withElements]
  | _ => cases hcs

theorem constants_edit {i b : Nat} {path : List Nat} {e : ListEdit}
    {deleted : List HeapCell} (hok : SparesConstants h b (.edit i path e))
    (hedit : h.editList i path e = some (h', deleted)) :
    (h'.constants b).map HeapCell.plain = (h.constants b).map HeapCell.plain := by
  obtain ⟨h₁, new, c, r, hedits, rfl, rfl⟩ := editList_cases hedit
  obtain ⟨held₀, hi, hat⟩ := Option.bind_eq_some_iff.mp hedits.cell
  rw [constants_push, constants_put b fun held hheld => ?_]
  · simp only [constants, hedits.cells]
    split <;> simp
  · obtain rfl : held₀ = held := Option.some.inj (hi.symm.trans hheld)
    rcases hok with rfl | hspares
    · exact .inr (HeapCell.plain_put hat (undo_plain hedits.apply))
    · exact .inl (hspares held₀ (hedits.heldAt hi))

theorem constants_swap {i j b : Nat} {path path' : List Nat}
    (hok : SparesConstants h b (.swap i path j path'))
    (hswap : h.swap i path j path' = some h') :
    (h'.constants b).map HeapCell.plain = (h.constants b).map HeapCell.plain := by
  obtain ⟨c, d, hswaps, rfl⟩ := swap_cases hswap
  rw [constants_put b fun held hheld => .inl ?_,
    constants_put b fun held hheld => .inl (hok.1 held hheld)]
  obtain ⟨held', hj, hholder, -⟩ := hswaps.around held hheld
  exact hholder ▸ hok.2 held' hj

/-- What one step leaves of the constants of an object. -/
theorem constants_step {a : Action} {b : Nat} (hok : SparesConstants h b a)
    (hstep : h.step a = some h') (hlt : b < h.objects.length)
    (hvalid : h'.valid b = true) :
    (h'.constants b).map HeapCell.plain = (h.constants b).map HeapCell.plain := by
  cases a with
  | intern s =>
      cases hstep
      rfl
  | create c =>
      simp only [Heap.step] at hstep
      split at hstep
      · cases hstep
        rw [constants_push]
      · cases hstep
  | copy i path =>
      obtain ⟨c, -, hstep⟩ := Option.bind_eq_some_iff.mp hstep
      cases hstep
      rw [constants_push, constants, (copyCell_keepsObjects h c).2, constants]
  | delete i =>
      obtain ⟨c, hc, hstep⟩ := Option.bind_eq_some_iff.mp hstep
      cases hstep
      rw [(deleteList_shrinks _ _).constants b hvalid,
        constants_erase b (free_eq_some.mp hc)]
  | collect i =>
      obtain ⟨c, hc, hstep⟩ := Option.bind_eq_some_iff.mp hstep
      cases hstep
      rw [constants_erase b (free_eq_some.mp hc)]
  | compile i path selfSymbol =>
      simp only [Heap.step] at hstep
      split at hstep
      · rename_i aux cs hold
        split at hstep
        · cases hstep
          cases hbc : compileLambda { h.context with selfSymbol := selfSymbol }
              (HeapCell.plainList cs) with
          | value bc =>
              rw [constants_compile b hold hbc, if_neg (by omega),
                List.append_nil]
          | error e => rw [compile_refused hbc (by simp)]
          | undefined => rw [compile_refused hbc (by simp)]
          | timeout => rw [compile_refused hbc (by simp)]
        · cases hstep
      · cases hstep
  | edit i path e =>
      obtain ⟨⟨h₂, deleted⟩, hedit, hstep⟩ := Option.bind_eq_some_iff.mp hstep
      cases hstep
      rw [(deleteList_shrinks _ _).constants b hvalid, constants_edit hok hedit]
  | swap i path j path' => exact constants_swap hok hstep
  | enter i path =>
      obtain ⟨b, -, hstep⟩ := Option.bind_eq_some_iff.mp hstep
      cases hstep
      rfl
  | tailCall i path =>
      obtain ⟨b, -, hstep⟩ := Option.bind_eq_some_iff.mp hstep
      split at hstep <;> cases hstep
      rfl
  | leave =>
      simp only [Heap.step] at hstep
      split at hstep <;> cases hstep
      rfl
  | deleteSymbol s =>
      simp only [Heap.step] at hstep
      split at hstep
      · cases hstep
      · cases hstep
        exact constants_unlink b
          (fun held hheld hb => HeapCell.plain_unlink held.2 (hok held hheld hb)) rfl
  | redefine context =>
      cases hstep
      rfl

/-- An object is the same after a step that spares its constants. -/
theorem bytecode_step {a : Action} {b : Nat} (hok : SparesConstants h b a)
    (hstep : h.step a = some h') (hlt : b < h.objects.length)
    (hvalid : h'.valid b = true) : h'.bytecode b = h.bytecode b :=
  bytecode_congr b ((step_keepsObjects hstep).bytecode b hlt)
    (constants_step hok hstep hlt hvalid)

theorem run_keepsObjects {ok : Heap → Action → Prop} (hrun : Run ok h h') :
    KeepsObjects h h' := by
  induction hrun with
  | start => exact Shrinks.keepsObjects (Shrinks.refl h)
  | step _ _ hstep ih => exact ih.trans (step_keepsObjects hstep)

/-- In a run whose steps spare the constants of an object it stays as it is until it
is freed. -/
theorem bytecode_run {b : Nat} (hrun : Run (fun h => SparesConstants h b) h h')
    (hlt : b < h.objects.length) (hvalid : h'.valid b = true) :
    h'.bytecode b = h.bytecode b := by
  induction hrun with
  | start => rfl
  | step hrun hok hstep ih =>
      have hlt' := Nat.lt_of_lt_of_le hlt (run_keepsObjects hrun).length
      have hbefore := (step_keepsObjects hstep).valid b hlt' hvalid
      exact (bytecode_step hok hstep hlt' hvalid).trans (ih hbefore)

/-- Whatever is done, only objects that have been made hold constants. -/
theorem pooled_run {ok : Heap → Action → Prop} {context : CompileContext}
    {symbols : List Symbol} (hrun : Run ok (start context symbols) h) : h.Pooled :=
  (run_keepsObjects hrun).pooled fun _ hheld => by cases hheld

end Steps

end Heap

end NewLispNeo
