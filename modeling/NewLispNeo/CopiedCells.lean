/-
`copyContextCell` translates the symbols of a cell, and fills every symbol that it
creates in the target.
-/
import NewLispNeo.ContextCopy
import NewLispNeo.SymbolCalls
import Mathlib.Tactic.Common

namespace NewLispNeo

namespace CopyCell

mutual

/-- The symbols that a cell refers to in a context are these, and no symbol of the context
is the variable of a `variable:symbol`. -/
def Closed (c : Nat) (order : List Nat) : CopyCell → Prop
  | symbol d s => d = c → s ∈ order
  | dynSymbol _ _ d _ => d ≠ c
  | list _ elements => ClosedList c order elements
  | array _ elements => ClosedList c order elements
  | _ => True

def ClosedList (c : Nat) (order : List Nat) : List CopyCell → Prop
  | [] => True
  | cell :: rest => cell.Closed c order ∧ ClosedList c order rest

end

mutual

/-- The memory of a cell, with or without that of its big integers. -/
def blocks (bigints : Bool) : CopyCell → List Nat
  | string block _ => [block]
  | bigint block _ => if bigints then [block] else []
  | dynSymbol block _ _ _ => [block]
  | list _ elements => blocksList bigints elements
  | array block elements => block :: blocksList bigints elements
  | _ => []

def blocksList (bigints : Bool) : List CopyCell → List Nat
  | [] => []
  | cell :: rest => cell.blocks bigints ++ blocksList bigints rest

end

end CopyCell

section Translation

variable (fromContext toContext : Nat) (source : CopyContext) (table : SymbolTree)
  (order : List Nat)

/-- A symbol that is replaced in a copy. -/
def Replaced (c s : Nat) : Prop :=
  c = fromContext ∧ ¬((source.flags s).builtin || (source.flags s).ffi) = true

mutual

/-- The cells differ in the memory they have and in the symbols of the source, which are
replaced by those of the target with the same name. -/
inductive Translated : CopyCell → CopyCell → Prop
  | nil : Translated .nil .nil
  | atom {type aux contents : UInt64} :
      Translated (.atom type aux contents) (.atom type aux contents)
  | primitive {function : UInt64} : Translated (.primitive function) (.primitive function)
  | string {block block' : Nat} {bytes : List UInt8} :
      Translated (.string block bytes) (.string block' bytes)
  | bigint {block block' : Nat} {digits : List UInt64} :
      Translated (.bigint block digits) (.bigint block' digits)
  | replaced {c s x : Nat} : Replaced fromContext source c s → x ∈ order →
      table.bytes x = source.table.bytes s →
      Translated (.symbol c s) (.symbol toContext x)
  | kept {c s : Nat} : ¬Replaced fromContext source c s →
      Translated (.symbol c s) (.symbol c s)
  | dynSymbol {block block' c s : Nat} {name : List UInt8} :
      Translated (.dynSymbol block name c s) (.dynSymbol block' name c s)
  | list {type : UInt64} {elements elements' : List CopyCell} :
      TranslatedList elements elements' →
      Translated (.list type elements) (.list type elements')
  | array {block block' : Nat} {elements elements' : List CopyCell} :
      TranslatedList elements elements' →
      Translated (.array block elements) (.array block' elements')

inductive TranslatedList : List CopyCell → List CopyCell → Prop
  | nil : TranslatedList [] []
  | cons {cell cell' : CopyCell} {rest rest' : List CopyCell} :
      Translated cell cell' → TranslatedList rest rest' →
      TranslatedList (cell :: rest) (cell' :: rest')

end

end Translation

section Mono

variable {fromContext toContext : Nat} {source : CopyContext} {table table' : SymbolTree}
  {order order' : List Nat}

mutual

/-- A translation stays one when symbols are added to the target. -/
theorem Translated.mono {cell cell' : CopyCell} (hsub : ∀ x ∈ order, x ∈ order')
    (hbytes : ∀ x ∈ order, table'.bytes x = table.bytes x) :
    Translated fromContext toContext source table order cell cell' →
    Translated fromContext toContext source table' order' cell cell'
  | .nil => .nil
  | .atom => .atom
  | .primitive => .primitive
  | .string => .string
  | .bigint => .bigint
  | .replaced hreplaced hx hname =>
      .replaced hreplaced (hsub _ hx) ((hbytes _ hx).trans hname)
  | .kept hkept => .kept hkept
  | .dynSymbol => .dynSymbol
  | .list h => .list (TranslatedList.mono hsub hbytes h)
  | .array h => .array (TranslatedList.mono hsub hbytes h)

theorem TranslatedList.mono {cells cells' : List CopyCell} (hsub : ∀ x ∈ order, x ∈ order')
    (hbytes : ∀ x ∈ order, table'.bytes x = table.bytes x) :
    TranslatedList fromContext toContext source table order cells cells' →
    TranslatedList fromContext toContext source table' order' cells cells'
  | .nil => .nil
  | .cons h hrest =>
      .cons (Translated.mono hsub hbytes h) (TranslatedList.mono hsub hbytes hrest)

end

end Mono

/-- A source context: a search tree of symbols that have contents, in which every symbol of
the context they refer to is. -/
structure SourceContext (b : UInt8) (fromContext : Nat) (source : CopyContext)
    (symbols : List Nat) : Prop where
  sorted : source.table.Sorted b symbols
  known : ∀ s ∈ symbols, ∃ cell, source.contents s = some cell ∧
    cell.Closed fromContext symbols

/-- A target context: a search tree of symbols that have contents. -/
structure TargetContext (b : UInt8) (target : CopyContext) (order : List Nat) : Prop where
  sorted : target.table.Sorted b order
  known : ∀ x ∈ order, (target.contents x).isSome
  unused : ∀ x, target.table.fresh ≤ x → target.contents x = none

/-- The contents and the flags of a symbol are set. -/
theorem TargetContext.write {b : UInt8} {target : CopyContext} {order : List Nat} {x : Nat}
    (h : TargetContext b target order) (hx : x ∈ order) (cell : CopyCell)
    (flags : Nat → CopyFlags) :
    TargetContext b { target with
      contents := Function.update target.contents x (some cell)
      flags := flags } order := by
  refine ⟨h.sorted, fun y hy => ?_, fun y hy => ?_⟩
  · by_cases hyx : y = x
    · simp [hyx]
    · simpa [Function.update_of_ne hyx] using h.known y hy
  · have hyx : y ≠ x := by
      rintro rfl
      exact Nat.not_lt.2 hy (h.sorted.bound hx)
    exact (Function.update_of_ne hyx ..).trans (h.unused y hy)

/-- The contents of a target symbol are a copy of those of a source symbol, in memory of
its own. -/
def CopyOf (fromContext toContext : Nat) (source target : CopyContext) (order : List Nat)
    (block s x : Nat) : Prop :=
  ∃ cell cell', source.contents s = some cell ∧ target.contents x = some cell' ∧
    Translated fromContext toContext source target.table order cell cell' ∧
    ∀ own ∈ cell'.blocks false, block ≤ own

/-- A new target symbol, with a name in memory of its own if it has no primitive. -/
structure CopiedSymbol (fromContext toContext : Nat) (source target : CopyContext)
    (order : List Nat) (block s x : Nat) : Prop where
  copy : CopyOf fromContext toContext source target order block s x
  name : ∀ cell, source.contents s = some cell → cell.isPrimitive = false →
    block ≤ target.symbolBlock x

section Target

variable {fromContext toContext : Nat} {source target target' : CopyContext}
  {order order' : List Nat} {block block' s x : Nat}

theorem CopyOf.mono (h : CopyOf fromContext toContext source target order block s x)
    (hsub : ∀ y ∈ order, y ∈ order')
    (hbytes : ∀ y ∈ order, target'.table.bytes y = target.table.bytes y)
    (hcontents : target'.contents x = target.contents x) (hblock : block' ≤ block) :
    CopyOf fromContext toContext source target' order' block' s x := by
  obtain ⟨cell, cell', hcell, hcell', htranslated, hblocks⟩ := h
  refine ⟨cell, cell', hcell, hcontents.trans hcell', htranslated.mono hsub hbytes, ?_⟩
  exact fun own hown => hblock.trans (hblocks own hown)

theorem CopiedSymbol.mono
    (h : CopiedSymbol fromContext toContext source target order block s x)
    (hsub : ∀ y ∈ order, y ∈ order')
    (hbytes : ∀ y ∈ order, target'.table.bytes y = target.table.bytes y)
    (hcontents : target'.contents x = target.contents x)
    (hname : target'.symbolBlock x = target.symbolBlock x) (hblock : block' ≤ block) :
    CopiedSymbol fromContext toContext source target' order' block' s x where
  copy := h.copy.mono hsub hbytes hcontents hblock
  name := fun cell hcell hprimitive => by
    rw [hname]
    exact hblock.trans (h.name cell hcell hprimitive)

end Target

/-- What a copy does to the memory: the target gets new symbols, which are copies of
source symbols, and all else stays. -/
structure Grows (b : UInt8) (fromContext toContext : Nat) (source : CopyContext)
    (symbols : List Nat) (M M' : CopyMemory) (order order' : List Nat) : Prop where
  target : TargetContext b (M'.context toContext) order'
  others : ∀ c, c ≠ toContext → M'.context c = M.context c
  name : (M'.context toContext).name = (M.context toContext).name
  subset : ∀ x ∈ order, x ∈ order'
  bytes : ∀ x ∈ order,
    (M'.context toContext).table.bytes x = (M.context toContext).table.bytes x
  contents : ∀ x ∈ order,
    (M'.context toContext).contents x = (M.context toContext).contents x
  symbolBlock : ∀ x ∈ order,
    (M'.context toContext).symbolBlock x = (M.context toContext).symbolBlock x
  next : M.nextBlock ≤ M'.nextBlock
  new : ∀ x ∈ order', x ∉ order → ∃ s ∈ symbols, Replaced fromContext source fromContext s ∧
    (M'.context toContext).table.bytes x = source.table.bytes s ∧
    CopiedSymbol fromContext toContext source (M'.context toContext) order' M.nextBlock s x

section Grows

variable {b : UInt8} {fromContext toContext : Nat} {source : CopyContext}
  {symbols order order' order'' : List Nat} {M M' M'' : CopyMemory}

theorem Grows.refl (h : TargetContext b (M.context toContext) order) :
    Grows b fromContext toContext source symbols M M order order where
  target := h
  others := fun _ _ => rfl
  name := rfl
  subset := fun _ => id
  bytes := fun _ _ => rfl
  contents := fun _ _ => rfl
  symbolBlock := fun _ _ => rfl
  next := Nat.le_refl _
  new := fun _ hx hnot => absurd hx hnot

theorem Grows.trans (h : Grows b fromContext toContext source symbols M M' order order')
    (h' : Grows b fromContext toContext source symbols M' M'' order' order'') :
    Grows b fromContext toContext source symbols M M'' order order'' where
  target := h'.target
  others := fun c hc => (h'.others c hc).trans (h.others c hc)
  name := h'.name.trans h.name
  subset := fun x hx => h'.subset x (h.subset x hx)
  bytes := fun x hx => (h'.bytes x (h.subset x hx)).trans (h.bytes x hx)
  contents := fun x hx => (h'.contents x (h.subset x hx)).trans (h.contents x hx)
  symbolBlock := fun x hx => (h'.symbolBlock x (h.subset x hx)).trans (h.symbolBlock x hx)
  next := h.next.trans h'.next
  new := fun x hx hnot => by
    by_cases hx' : x ∈ order'
    · obtain ⟨s, hs, hreplaced, hbytes, hcopied⟩ := h.new x hx' hnot
      exact ⟨s, hs, hreplaced, (h'.bytes x hx').trans hbytes,
        hcopied.mono h'.subset h'.bytes (h'.contents x hx') (h'.symbolBlock x hx') le_rfl⟩
    · obtain ⟨s, hs, hreplaced, hbytes, hcopied⟩ := h'.new x hx hx'
      exact ⟨s, hs, hreplaced, hbytes, hcopied.mono (fun _ hy => hy) (fun _ _ => rfl) rfl rfl
        h.next⟩

/-- Memory that is taken changes nothing else. -/
theorem Grows.allocMemory (h : Grows b fromContext toContext source symbols M M' order order') :
    Grows b fromContext toContext source symbols M M'.allocMemory.2 order order' :=
  { h with next := h.next.trans (Nat.le_succ _) }

theorem Grows.setFlags (h : Grows b fromContext toContext source symbols M M' order order')
    (x : Nat) (flags : CopyFlags) :
    Grows b fromContext toContext source symbols M (M'.setFlags toContext x flags) order
      order' := by
  have hother : ∀ c, c ≠ toContext → (M'.setFlags toContext x flags).context c = M'.context c :=
    fun c hc => M'.context_update_of_ne _ hc
  refine ⟨?_, fun c hc => (hother c hc).trans (h.others c hc), ?_, h.subset, ?_, ?_, ?_, h.next,
    ?_⟩ <;> rw [CopyMemory.setFlags, CopyMemory.context_update_self]
  · exact ⟨h.target.sorted, h.target.known, h.target.unused⟩
  · exact h.name
  · exact h.bytes
  · exact h.contents
  · exact h.symbolBlock
  · intro y hy hnot
    obtain ⟨s, hs, hreplaced, hbytes, hcopied⟩ := h.new y hy hnot
    exact ⟨s, hs, hreplaced, hbytes, hcopied.copy, hcopied.name⟩

end Grows

section Create

variable {b : UInt8} {toContext : Nat} {order : List Nat} {M : CopyMemory} {token : CString}

theorem lookupSymbol_spec (h : TargetContext b (M.context toContext) order)
    (htoken : token.FollowedBy b) :
    ∃ found, M.lookupSymbol token toContext = some found ∧
      ∀ x, found = some x ↔ x ∈ order ∧ (M.context toContext).table.bytes x = token.bytes := by
  obtain ⟨found, hfound, hiff⟩ := SymbolTree.lookup_spec token h.sorted htoken
  exact ⟨found, by simp [CopyMemory.lookupSymbol, hfound], hiff⟩

/-- The symbol of a name, which is `nil` if it is new. -/
structure Created (b : UInt8) (toContext : Nat) (token : CString) (primitive : Bool)
    (M M' : CopyMemory) (order order' : List Nat) (x : Nat) : Prop where
  target : TargetContext b (M'.context toContext) order'
  others : ∀ c, c ≠ toContext → M'.context c = M.context c
  name : (M'.context toContext).name = (M.context toContext).name
  mem : ∀ y, y ∈ order' ↔ y = x ∨ y ∈ order
  token : (M'.context toContext).table.bytes x = token.bytes
  bytes : ∀ y ∈ order,
    (M'.context toContext).table.bytes y = (M.context toContext).table.bytes y
  contents : ∀ y ∈ order,
    (M'.context toContext).contents y = (M.context toContext).contents y
  symbolBlock : ∀ y ∈ order,
    (M'.context toContext).symbolBlock y = (M.context toContext).symbolBlock y
  next : M.nextBlock ≤ M'.nextBlock
  owned : x ∉ order → primitive = false → M.nextBlock ≤ (M'.context toContext).symbolBlock x

theorem translateCreateSymbol_spec (h : TargetContext b (M.context toContext) order)
    (htoken : token.FollowedBy b) (block : Nat) (primitive : Bool) :
    ∃ x M' order', M.translateCreateSymbol token block primitive toContext = some (x, M') ∧
      Created b toContext token primitive M M' order order' x := by
  obtain ⟨x, U, order', hU, hsorted, hx, hmem, hbytes, hcase⟩ :=
    SymbolTree.insert_spec h.sorted htoken htoken rfl
  simp only [CopyMemory.translateCreateSymbol, hU, Option.pure_def, Option.bind_eq_bind,
    Option.bind_some, CopyMemory.context_update_self]
  rcases hcase with ⟨hold, hfresh⟩ | ⟨hnew, hfresh⟩
  · rw [if_pos (h.known x hold)]
    have hsame : ∀ y ∈ order', y ∈ order := by
      intro y hy
      rcases (hmem y).1 hy with rfl | hy
      · exact hold
      · exact hy
    refine ⟨x, _, order', rfl, ?_, fun c hc => M.context_update_of_ne _ hc, ?_, hmem, ?_, ?_, ?_,
      ?_, Nat.le_refl _, fun hnot => absurd hold hnot⟩ <;> rw [CopyMemory.context_update_self]
    · exact ⟨hsorted, fun y hy => h.known y (hsame y hy), fun y hy => h.unused y (hfresh ▸ hy)⟩
    · exact hx
    · exact hbytes
    · exact fun y _ => rfl
    · exact fun y _ => rfl
  · subst hnew
    have hnone := h.unused _ (Nat.le_refl _)
    have hne : ∀ y ∈ order, y ≠ (M.context toContext).table.fresh :=
      fun y hy => (h.sorted.bound hy).ne
    -- The memory, whichever block the name of the new symbol is in.
    have hcreated : ∀ (N : CopyMemory) (nameBlock : Nat), M.nextBlock ≤ N.nextBlock →
        N.context = (M.update toContext ({ · with table := U })).context →
        (primitive = false → M.nextBlock ≤ nameBlock) →
        Created b toContext token primitive M ((N.setSymbolBlock toContext
          (M.context toContext).table.fresh nameBlock).setContents toContext
            (M.context toContext).table.fresh .nil) order order'
          (M.context toContext).table.fresh := by
      intro N nameBlock hnext hN hname
      have hcontext : N.context toContext = { M.context toContext with table := U } := by
        rw [hN, CopyMemory.context_update_self]
      refine ⟨?_, fun c hc => ?_, ?_, hmem, ?_, ?_, ?_, ?_, hnext, fun _ hprimitive => ?_⟩
      · simp only [CopyMemory.setContents, CopyMemory.setSymbolBlock,
          CopyMemory.context_update_self, hcontext]
        refine ⟨hsorted, fun y hy => ?_, fun y hy => ?_⟩
        · rcases (hmem y).1 hy with rfl | hy
          · simp
          · simpa [Function.update_of_ne (hne y hy)] using h.known y hy
        · change U.fresh ≤ y at hy
          change Function.update (M.context toContext).contents _ _ y = none
          rw [Function.update_of_ne (by omega)]
          exact h.unused y (by omega)
      · rw [CopyMemory.setContents, CopyMemory.context_update_of_ne _ _ hc,
          CopyMemory.setSymbolBlock, CopyMemory.context_update_of_ne _ _ hc, hN,
          CopyMemory.context_update_of_ne _ _ hc]
      · simp [CopyMemory.setContents, CopyMemory.setSymbolBlock, hcontext]
      · simpa [CopyMemory.setContents, CopyMemory.setSymbolBlock, hcontext] using hx
      · simpa [CopyMemory.setContents, CopyMemory.setSymbolBlock, hcontext] using hbytes
      · intro y hy
        simp [CopyMemory.setContents, CopyMemory.setSymbolBlock, hcontext, hne y hy]
      · intro y hy
        simp [CopyMemory.setContents, CopyMemory.setSymbolBlock, hcontext, hne y hy]
      · simpa [CopyMemory.setContents, CopyMemory.setSymbolBlock, hcontext] using hname hprimitive
    rw [if_neg (by simp [hnone])]
    cases primitive with
    | true =>
        exact ⟨_, _, order', rfl, hcreated _ block (Nat.le_refl _) rfl (by simp)⟩
    | false =>
        exact ⟨_, _, order', rfl, hcreated (M.update toContext _).allocMemory.2 M.nextBlock
          (Nat.le_succ _) rfl fun _ => Nat.le_refl _⟩

end Create

section Cells

variable {b : UInt8} {fromContext toContext : Nat} {source : CopyContext}
  {symbols order order' : List Nat} {M M' : CopyMemory}

/-- The number of the source symbols whose names the target does not have. -/
def missing (source : CopyContext) (symbols : List Nat) (table : SymbolTree)
    (order : List Nat) : Nat :=
  symbols.countP fun s => decide (∀ x ∈ order, table.bytes x ≠ source.table.bytes s)

theorem missing_le {table table' : SymbolTree} (hsub : ∀ x ∈ order, x ∈ order')
    (hbytes : ∀ x ∈ order, table'.bytes x = table.bytes x) :
    missing source symbols table' order' ≤ missing source symbols table order := by
  refine List.countP_mono_left fun s _ hs => ?_
  simp only [decide_eq_true_eq] at hs ⊢
  intro x hx
  rw [← hbytes x hx]
  exact hs x (hsub x hx)

theorem missing_lt {table table' : SymbolTree} {s x : Nat} (hsub : ∀ y ∈ order, y ∈ order')
    (hbytes : ∀ y ∈ order, table'.bytes y = table.bytes y) (hs : s ∈ symbols)
    (hold : ∀ y ∈ order, table.bytes y ≠ source.table.bytes s) (hx : x ∈ order')
    (hnew : table'.bytes x = source.table.bytes s) :
    missing source symbols table' order' < missing source symbols table order := by
  obtain ⟨before, after, rfl⟩ := List.append_of_mem hs
  have hbefore := @missing_le source before _ _ _ _ hsub hbytes
  have hafter := @missing_le source after _ _ _ _ hsub hbytes
  have hpresent : ¬∀ y ∈ order', table'.bytes y ≠ source.table.bytes s :=
    fun hall => hall x hx hnew
  simp only [missing, List.countP_append, List.countP_cons]
  rw [if_pos (decide_eq_true hold), if_neg (by simpa using hpresent)]
  unfold missing at hbefore hafter
  omega

/-- A copy of a cell: from some fuel on it ends, with a translation of the cell in memory
of its own. -/
def CopiesCell (b : UInt8) (fromContext toContext : Nat) (source : CopyContext)
    (symbols : List Nat) (M : CopyMemory) (order : List Nat) (cell : CopyCell) : Prop :=
  ∃ cell' M' order', Grows b fromContext toContext source symbols M M' order order' ∧
    Translated fromContext toContext source (M'.context toContext).table order' cell cell' ∧
    (∀ own ∈ cell'.blocks false, M.nextBlock ≤ own) ∧
    ∃ fuel, ∀ k, fuel ≤ k → copyContextCell fromContext toContext k cell M = some (cell', M')

def CopiesList (b : UInt8) (fromContext toContext : Nat) (source : CopyContext)
    (symbols : List Nat) (M : CopyMemory) (order : List Nat) (cells : List CopyCell) : Prop :=
  ∃ cells' M' order', Grows b fromContext toContext source symbols M M' order order' ∧
    TranslatedList fromContext toContext source (M'.context toContext).table order' cells
      cells' ∧
    (∀ own ∈ CopyCell.blocksList false cells', M.nextBlock ≤ own) ∧
    ∃ fuel, ∀ k, fuel ≤ k →
      copyContextList fromContext toContext k cells M = some (cells', M')

/-- A memory from which a copy can be made. -/
structure ReadyToCopy (b : UInt8) (fromContext toContext : Nat) (source : CopyContext)
    (M : CopyMemory) (order : List Nat) : Prop where
  source : M.context fromContext = source
  target : TargetContext b (M.context toContext) order

theorem Grows.ready (h : Grows b fromContext toContext source symbols M M' order order')
    (hne : fromContext ≠ toContext) (hready : ReadyToCopy b fromContext toContext source M order) :
    ReadyToCopy b fromContext toContext source M' order' :=
  ⟨(h.others _ hne).trans hready.source, h.target⟩

theorem Grows.missing_le (h : Grows b fromContext toContext source symbols M M' order order') :
    missing source symbols (M'.context toContext).table order' ≤
      missing source symbols (M.context toContext).table order :=
  NewLispNeo.missing_le h.subset h.bytes

theorem copiesCell_self {cell : CopyCell}
    (hready : ReadyToCopy b fromContext toContext source M order)
    (htranslated : Translated fromContext toContext source (M.context toContext).table order
      cell cell)
    (hblocks : cell.blocks false = [])
    (hrun : ∀ k, copyContextCell fromContext toContext (k + 1) cell M = some (cell, M)) :
    CopiesCell b fromContext toContext source symbols M order cell := by
  refine ⟨cell, M, order, .refl hready.target, htranslated, by simp [hblocks], 1, fun k hk => ?_⟩
  obtain ⟨k, rfl⟩ := Nat.exists_eq_add_of_le' hk
  exact hrun k

/-- What a created symbol and its copied contents make of the memory. -/
theorem Created.grows {token : CString} {primitive : Bool} {M₁ M₂ : CopyMemory}
    {order₁ order₂ : List Nat} {x s : Nat} {cell cell' : CopyCell} (flags : CopyFlags)
    (h : Created b toContext token primitive M M₁ order order₁ x) (hx : x ∉ order)
    (hs : s ∈ symbols) (hreplaced : Replaced fromContext source fromContext s)
    (htoken : token.bytes = source.table.bytes s) (hcell : source.contents s = some cell)
    (hprimitive : primitive = cell.isPrimitive)
    (hgrows : Grows b fromContext toContext source symbols M₁ M₂ order₁ order₂)
    (htranslated : Translated fromContext toContext source (M₂.context toContext).table order₂
      cell cell')
    (hblocks : ∀ own ∈ cell'.blocks false, M₁.nextBlock ≤ own) :
    Grows b fromContext toContext source symbols M
      ((M₂.setContents toContext x cell').setFlags toContext x flags) order order₂ := by
  have hin : x ∈ order₁ := (h.mem x).2 (.inl rfl)
  have hold : ∀ y ∈ order, y ∈ order₁ := fun y hy => (h.mem y).2 (.inr hy)
  have hne : ∀ y ∈ order, y ≠ x := by
    rintro y hy rfl
    exact hx hy
  have hcontext := M₂.context_setFlags_setContents toContext x cell' flags
  refine ⟨?_, fun c hc => ?_, ?_, fun y hy => hgrows.subset y (hold y hy), fun y hy => ?_,
    fun y hy => ?_, fun y hy => ?_, h.next.trans hgrows.next, fun y hy hnot => ?_⟩
  · rw [hcontext]
    exact hgrows.target.write (hgrows.subset x hin) cell' _
  · rw [M₂.context_setFlags_setContents_of_ne _ _ _ hc, hgrows.others c hc, h.others c hc]
  · rw [hcontext]
    exact hgrows.name.trans h.name
  · rw [hcontext]
    exact (hgrows.bytes y (hold y hy)).trans (h.bytes y hy)
  · rw [hcontext]
    refine (Function.update_of_ne (hne y hy) ..).trans ?_
    exact (hgrows.contents y (hold y hy)).trans (h.contents y hy)
  · rw [hcontext]
    exact (hgrows.symbolBlock y (hold y hy)).trans (h.symbolBlock y hy)
  · rw [hcontext]
    by_cases hyx : y = x
    · subst hyx
      refine ⟨s, hs, hreplaced, ?_, ⟨cell, cell', hcell, Function.update_self .., htranslated,
        fun own hown => h.next.trans (hblocks own hown)⟩, fun other hother hfalse => ?_⟩
      · exact (hgrows.bytes y hin).trans (h.token.trans htoken)
      · obtain rfl := Option.some.inj (hcell.symm.trans hother)
        change M.nextBlock ≤ (M₂.context toContext).symbolBlock y
        rw [hgrows.symbolBlock y hin]
        exact h.owned hx (hprimitive.trans hfalse)
    · obtain ⟨t, ht, hreplaced', hbytes, hcopied⟩ := hgrows.new y hy fun hy₁ => by
        rcases (h.mem y).1 hy₁ with heq | hold'
        · exact hyx heq
        · exact hnot hold'
      refine ⟨t, ht, hreplaced', hbytes, hcopied.mono (fun _ => id) (fun _ _ => rfl) ?_ rfl h.next⟩
      exact Function.update_of_ne hyx ..

/-- A symbol of the source is looked up in the target, and created if it is not there. -/
theorem copiesCell_symbol (hne : fromContext ≠ toContext)
    (hsource : SourceContext b fromContext source symbols)
    (hready : ReadyToCopy b fromContext toContext source M order)
    (ih : ∀ M' order', ReadyToCopy b fromContext toContext source M' order' →
      missing source symbols (M'.context toContext).table order' <
        missing source symbols (M.context toContext).table order →
      ∀ cell : CopyCell, cell.Closed fromContext symbols →
        CopiesCell b fromContext toContext source symbols M' order' cell)
    {c s : Nat} (hclosed : (CopyCell.symbol c s).Closed fromContext symbols) :
    CopiesCell b fromContext toContext source symbols M order (.symbol c s) := by
  by_cases hreplaced : Replaced fromContext source c s
  · obtain ⟨rfl, hflags⟩ := hreplaced
    have hs : s ∈ symbols := hclosed rfl
    have hkeep : Replaced c source c s := ⟨rfl, hflags⟩
    have hname := hsource.sorted.names s hs
    obtain ⟨found, hfound, hiff⟩ := lookupSymbol_spec hready.target hname
    cases found with
    | some x =>
        obtain ⟨hx, hbytes⟩ := (hiff x).1 rfl
        refine ⟨.symbol toContext x, M.setFlags toContext x (source.flags s), order,
          (Grows.refl hready.target).setFlags .., ?_, by simp [CopyCell.blocks], 1,
          fun k hk => ?_⟩
        · rw [CopyMemory.setFlags, CopyMemory.context_update_self]
          exact .replaced hkeep hx hbytes
        · obtain ⟨k, rfl⟩ := Nat.exists_eq_add_of_le' hk
          simp [copyContextCell, hready.source, hflags, hfound]
    | none =>
        have habsent : ∀ y ∈ order, (M.context toContext).table.bytes y ≠
            source.table.bytes s := by
          intro y hy hbytes
          exact absurd ((hiff y).2 ⟨hy, hbytes⟩) (by simp)
        obtain ⟨cell, hcell, hcellClosed⟩ := hsource.known s hs
        obtain ⟨x, M₁, order₁, hcreate, hcreated⟩ :=
          translateCreateSymbol_spec hready.target hname (source.symbolBlock s) cell.isPrimitive
        have hx : x ∉ order := fun hx =>
          habsent x hx ((hcreated.bytes x hx).symm.trans hcreated.token)
        have hin : x ∈ order₁ := (hcreated.mem x).2 (.inl rfl)
        have hless := missing_lt (fun y hy => (hcreated.mem y).2 (.inr hy)) hcreated.bytes hs
          habsent hin hcreated.token
        have hready₁ : ReadyToCopy b c toContext source M₁ order₁ :=
          ⟨(hcreated.others c hne).trans hready.source, hcreated.target⟩
        obtain ⟨cell', M₂, order₂, hgrows, htranslated, hblocks, fuel, hrun⟩ :=
          ih M₁ order₁ hready₁ hless cell hcellClosed
        refine ⟨.symbol toContext x, _, order₂, hcreated.grows (source.flags s) hx hs hkeep rfl
          hcell rfl hgrows htranslated hblocks, ?_, by simp [CopyCell.blocks], fuel + 1,
          fun k hk => ?_⟩
        · refine .replaced hkeep (hgrows.subset x hin) ?_
          rw [CopyMemory.setFlags, CopyMemory.context_update_self, CopyMemory.setContents,
            CopyMemory.context_update_self]
          exact (hgrows.bytes x hin).trans hcreated.token
        · obtain ⟨k, rfl⟩ : ∃ k', k = k' + 1 := ⟨k - 1, by omega⟩
          simp [copyContextCell, hready.source, hflags, hfound, hcell, hcreate, hrun k (by omega)]
  · refine copiesCell_self hready (.kept hreplaced) rfl fun k => ?_
    have hnot : ¬(c = fromContext ∧
        ¬(((M.context c).flags s).builtin || ((M.context c).flags s).ffi) = true) := by
      rintro ⟨rfl, hflags⟩
      rw [hready.source] at hflags
      exact hreplaced ⟨rfl, hflags⟩
    rw [copyContextCell, if_neg hnot]

mutual

theorem copiesCell_of_symbol {n : Nat} {M : CopyMemory} {order : List Nat}
    (hne : fromContext ≠ toContext)
    (hsymbol : ∀ M order, ReadyToCopy b fromContext toContext source M order →
      missing source symbols (M.context toContext).table order ≤ n →
      ∀ c s, (CopyCell.symbol c s).Closed fromContext symbols →
        CopiesCell b fromContext toContext source symbols M order (.symbol c s))
    (hready : ReadyToCopy b fromContext toContext source M order)
    (hn : missing source symbols (M.context toContext).table order ≤ n) :
    (cell : CopyCell) → cell.Closed fromContext symbols →
      CopiesCell b fromContext toContext source symbols M order cell
  | .nil, _ => copiesCell_self hready .nil rfl fun _ => by rw [copyContextCell] <;> simp
  | .atom .., _ => copiesCell_self hready .atom rfl fun _ => by rw [copyContextCell] <;> simp
  | .primitive _, _ =>
      copiesCell_self hready .primitive rfl fun _ => by rw [copyContextCell] <;> simp
  | .string _ bytes, _ => by
      refine ⟨.string M.nextBlock bytes, M.allocMemory.2, order,
        (Grows.refl hready.target).allocMemory, .string, by simp [CopyCell.blocks], 1,
        fun k hk => ?_⟩
      obtain ⟨k, rfl⟩ := Nat.exists_eq_add_of_le' hk
      rfl
  | .bigint .., _ => copiesCell_self hready .bigint rfl fun _ => by rw [copyContextCell] <;> simp
  | .symbol c s, hclosed => hsymbol M order hready hn c s hclosed
  | .dynSymbol _ name c s, hclosed => by
      have hother : c ≠ fromContext := hclosed
      refine ⟨.dynSymbol M.nextBlock name c s, M.allocMemory.2, order,
        (Grows.refl hready.target).allocMemory, .dynSymbol, by simp [CopyCell.blocks], 1,
        fun k hk => ?_⟩
      obtain ⟨k, rfl⟩ := Nat.exists_eq_add_of_le' hk
      simp [copyContextCell, hother, CopyMemory.allocMemory]
  | .list type elements, hclosed => by
      obtain ⟨cells', M', order', hgrows, htranslated, hblocks, fuel, hrun⟩ :=
        copiesList_of_symbol hne hsymbol hready hn elements hclosed
      refine ⟨.list type cells', M', order', hgrows, .list htranslated, hblocks, fuel + 1,
        fun k hk => ?_⟩
      obtain ⟨k, rfl⟩ : ∃ k', k = k' + 1 := ⟨k - 1, by omega⟩
      simp [copyContextCell, hrun k (by omega)]
  | .array _ elements, hclosed => by
      have hready' : ReadyToCopy b fromContext toContext source M.allocMemory.2 order :=
        ⟨hready.source, hready.target⟩
      obtain ⟨cells', M', order', hgrows, htranslated, hblocks, fuel, hrun⟩ :=
        copiesList_of_symbol hne hsymbol hready' hn elements hclosed
      refine ⟨.array M.nextBlock cells', M', order',
        ((Grows.refl hready.target).allocMemory).trans hgrows, .array htranslated, ?_, fuel + 1,
        fun k hk => ?_⟩
      · intro own hown
        rcases List.mem_cons.1 hown with rfl | hown
        · exact Nat.le_refl _
        · exact (Nat.le_succ _).trans (hblocks own hown)
      · obtain ⟨k, rfl⟩ : ∃ k', k = k' + 1 := ⟨k - 1, by omega⟩
        have hrun' := hrun k (by omega)
        simp only [CopyMemory.allocMemory] at hrun' ⊢
        simp [copyContextCell, CopyMemory.allocMemory, hrun']

theorem copiesList_of_symbol {n : Nat} {M : CopyMemory} {order : List Nat}
    (hne : fromContext ≠ toContext)
    (hsymbol : ∀ M order, ReadyToCopy b fromContext toContext source M order →
      missing source symbols (M.context toContext).table order ≤ n →
      ∀ c s, (CopyCell.symbol c s).Closed fromContext symbols →
        CopiesCell b fromContext toContext source symbols M order (.symbol c s))
    (hready : ReadyToCopy b fromContext toContext source M order)
    (hn : missing source symbols (M.context toContext).table order ≤ n) :
    (cells : List CopyCell) → CopyCell.ClosedList fromContext symbols cells →
      CopiesList b fromContext toContext source symbols M order cells
  | [], _ => by
      refine ⟨[], M, order, .refl hready.target, .nil, by simp [CopyCell.blocksList], 1,
        fun k hk => ?_⟩
      obtain ⟨k, rfl⟩ := Nat.exists_eq_add_of_le' hk
      rfl
  | cell :: rest, hclosed => by
      obtain ⟨cell', M₁, order₁, hgrows₁, htranslated₁, hblocks₁, fuel₁, hrun₁⟩ :=
        copiesCell_of_symbol hne hsymbol hready hn cell hclosed.1
      obtain ⟨rest', M₂, order₂, hgrows₂, htranslated₂, hblocks₂, fuel₂, hrun₂⟩ :=
        copiesList_of_symbol hne hsymbol (hgrows₁.ready hne hready) (hgrows₁.missing_le.trans hn)
          rest hclosed.2
      refine ⟨cell' :: rest', M₂, order₂, hgrows₁.trans hgrows₂,
        .cons (htranslated₁.mono hgrows₂.subset hgrows₂.bytes) htranslated₂, ?_,
        fuel₁ + fuel₂ + 1, fun k hk => ?_⟩
      · intro own hown
        rcases List.mem_append.1 hown with hown | hown
        · exact hblocks₁ own hown
        · exact hgrows₁.next.trans (hblocks₂ own hown)
      · obtain ⟨k, rfl⟩ : ∃ k', k = k' + 1 := ⟨k - 1, by omega⟩
        simp [copyContextList, hrun₁ k (by omega), hrun₂ k (by omega)]

end

/-- `copyContextCell` ends on every cell; each symbol that it creates makes the names
missing in the target fewer. -/
theorem copiesCell (hne : fromContext ≠ toContext)
    (hsource : SourceContext b fromContext source symbols)
    (hready : ReadyToCopy b fromContext toContext source M order) {cell : CopyCell}
    (hclosed : cell.Closed fromContext symbols) :
    CopiesCell b fromContext toContext source symbols M order cell := by
  induction hn : missing source symbols (M.context toContext).table order using
    Nat.strong_induction_on generalizing M order cell with
  | h n ih =>
      refine copiesCell_of_symbol hne (fun M₁ order₁ hready₁ hn₁ c s hclosed₁ => ?_)
        hready hn.le cell hclosed
      refine copiesCell_symbol hne hsource hready₁
        (fun M₂ order₂ hready₂ hless cell₂ hclosed₂ => ?_) hclosed₁
      exact ih _ (hless.trans_le hn₁) hready₂ hclosed₂ rfl

end Cells

end NewLispNeo
