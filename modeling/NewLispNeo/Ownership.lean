/-
Reference counts: the count of an object is the number of live lambda cells that
own it, whatever cells are copied, deleted, compiled and edited.
-/
import NewLispNeo.Copies
import NewLispNeo.Growth
import NewLispNeo.ListEdits
import NewLispNeo.Startup

namespace NewLispNeo

open HeapCell (ownersList)

namespace Heap

/-- No symbol of a table has been freed. -/
def TablesIn (h : Heap) : Prop :=
  ∀ (b : Nat) (o : BytecodeObj), h.objects[b]? = some o → o.magic = true →
    ∀ s ∈ o.bytecode.symbols, s ∈ h.symbols

/-- Every count is the number of live owners, and what frames and objects point
to has not been freed. -/
structure ReferencesSound (h : Heap) : Prop where
  counts : ∀ b, h.refCount b = h.owners b
  frames : ∀ b ∈ h.frames, h.valid b = true
  symbols : h.TablesIn

/-- The invariant of the memory. -/
structure Sound (h : Heap) : Prop extends Counted h [] where
  filled : ∀ held ∈ h.cells, held.2.Filled
  frames : ∀ b ∈ h.frames, h.valid b = true
  tables : h.TablesIn
  spelled : ∀ held ∈ h.cells, ∀ s ∈ held.2.plain.symbols, s ∈ h.symbols
  nil : nilSymbol ∈ h.symbols

/-- A step that frees nothing that is in use and loses no owner: a deletion, also
of what an edit replaces, leaves the objects of all frames rooted; no bytecode
dies with the nursery or under an edit of its own lambda cell; and a deleted
symbol is in no table. -/
def Spares (h : Heap) : Action → Prop
  | .delete i => ∀ b ∈ h.frames, Rooted (h.erase i) b
  | .collect i => ∀ c, h.free i = some c → ∀ b, c.owners b = 0
  | .edit i path e =>
      (∀ c, h.cellAt i path = some c → e.overwrites c = true → c.aux = none) ∧
        ∀ h' deleted, h.editList i path e = some (h', deleted) →
          ∀ b ∈ h.frames, Rooted h' b
  | .deleteSymbol s => ∀ (b : Nat) (o : BytecodeObj), h.objects[b]? = some o →
      o.magic = true → s ∉ o.bytecode.symbols
  | _ => True

section Push

variable {h : Heap} (cs : List HeapCell)

theorem refCount_objects {h h' : Heap} (hobj : h'.objects = h.objects) (b : Nat) :
    h'.refCount b = h.refCount b := by rw [refCount, hobj, refCount]

theorem valid_objects {h h' : Heap} (hobj : h'.objects = h.objects) (b : Nat) :
    h'.valid b = h.valid b := by rw [valid, hobj, valid]

theorem owners_push (b : Nat) :
    (h.push cs).owners b = h.owners b + ownersList b cs := by
  simp [owners, push, Function.comp_def]

theorem mem_push {held : Option Nat × HeapCell} (hheld : held ∈ (h.push cs).cells) :
    held ∈ h.cells ∨ held.1 = none ∧ held.2 ∈ cs := by
  rcases List.mem_append.mp hheld with hheld | hheld
  · exact .inl hheld
  · obtain ⟨c, hc, rfl⟩ := List.mem_map.mp hheld
    exact .inr ⟨rfl, hc⟩

end Push

/-- A deletion keeps the invariant where it spares the frames. -/
theorem Sound.deleteList {h : Heap} {doomed : List HeapCell}
    (hcounted : Counted h doomed)
    (hfilled : ∀ held ∈ h.cells, held.2.Filled)
    (htables : h.TablesIn)
    (hspelled : ∀ held ∈ h.cells, ∀ s ∈ held.2.plain.symbols, s ∈ h.symbols)
    (hnil : nilSymbol ∈ h.symbols) (hframes : ∀ b ∈ h.frames, Rooted h b) :
    Sound (h.deleteList doomed) := by
  have hshrinks := deleteList_shrinks h doomed
  have hcounted' := hcounted.deleteList
  refine ⟨hcounted', fun held hheld => ?_, fun b hb => ?_, fun b o ho hmagic => ?_,
    fun held hheld => ?_, ?_⟩
  · exact hfilled held (hshrinks.cells held hheld)
  · rw [hshrinks.frames] at hb
    exact (hframes b hb).valid hshrinks hcounted'
  · rw [hshrinks.symbols]
    have hvalid := hshrinks.valid b (by rw [valid_eq ho, hmagic])
    have hsame := hshrinks.bytecode b
    rw [ho] at hsame
    cases hobj : h.objects[b]? with
    | none => simp [valid, hobj] at hvalid
    | some o' =>
        rw [hobj] at hsame
        rw [valid_eq hobj] at hvalid
        have hcode : o.bytecode = o'.bytecode := by simpa using hsame
        exact hcode ▸ htables b o' hobj hvalid
  · rw [hshrinks.symbols]
    exact hspelled held (hshrinks.cells held hheld)
  · rw [hshrinks.symbols]
    exact hnil

theorem free_eq_some {h : Heap} {i : Nat} {c : HeapCell} :
    h.free i = some c ↔ h.cells[i]? = some (none, c) := by
  unfold free
  constructor
  · intro hfree
    split at hfree
    · rename_i hi
      cases hfree
      exact hi
    · cases hfree
  · intro hi
    simp [hi]

theorem owners_erase {h : Heap} {i : Nat} {held : Option Nat × HeapCell}
    (hi : h.cells[i]? = some held) (b : Nat) :
    (h.erase i).owners b + held.2.owners b = h.owners b := by
  have hperm := (ListEdit.eraseIdx_perm hi).map Prod.snd
  have howners := HeapCell.ownersList_perm b hperm
  simpa [owners, erase] using howners

theorem mem_erase {h : Heap} {i : Nat} {held : Option Nat × HeapCell}
    (hheld : held ∈ (h.erase i).cells) : held ∈ h.cells :=
  List.mem_of_mem_eraseIdx hheld

theorem Sound.erase {h : Heap} {i : Nat} {c : HeapCell} (hsound : Sound h)
    (hi : h.cells[i]? = some (none, c)) : Counted (h.erase i) [c] := by
  have hobj : (h.erase i).objects = h.objects := rfl
  refine ⟨fun b => ?_, fun b => ?_, fun b c hc => ?_⟩
  · have hcount := hsound.count b
    have howners := owners_erase hi b
    rw [refCount_objects hobj, hcount]
    simp only [HeapCell.ownersList_cons, HeapCell.ownersList_nil] at howners ⊢
    omega
  · rw [valid_objects hobj, refCount_objects hobj]
    exact hsound.valid b
  · rw [valid_objects hobj]
    exact hsound.held b c (mem_erase hc)

/-- A cell is written over by one that owns the same. -/
theorem mem_put {h : Heap} {i : Nat} {path : List Nat} {new : HeapCell}
    {held : Option Nat × HeapCell} (hheld : held ∈ (h.put i path new).cells) :
    held ∈ h.cells ∨ ∃ held', h.cells[i]? = some held' ∧
      held = (held'.1, HeapCell.put new path held'.2) := by
  unfold put at hheld
  simp only at hheld
  cases hi : h.cells[i]? with
  | none =>
      rw [List.modify_eq_set_getElem?, hi] at hheld
      exact .inl hheld
  | some held' =>
      rw [List.modify_eq_set_getElem?, hi] at hheld
      rcases List.mem_or_eq_of_mem_set hheld with hheld | rfl
      · exact .inl hheld
      · exact .inr ⟨held', rfl, rfl⟩

theorem owners_put {h : Heap} {i : Nat} {path : List Nat} {new old : HeapCell}
    (hold : h.cellAt i path = some old) (b : Nat) :
    (h.put i path new).owners b + old.owners b = h.owners b + new.owners b := by
  obtain ⟨held, hi, hat⟩ := Option.bind_eq_some_iff.mp hold
  have hput := @HeapCell.owners_put new _ _ _ b hat
  have hmap : (h.put i path new).cells.map (·.2) =
      (h.cells.map (·.2)).modify i (HeapCell.put new path) := by
    simp [put, List.modify_eq_set_getElem?, hi, List.map_set]
  have hmodify := @HeapCell.ownersList_modify (h.cells.map (·.2)) i held.2
    (HeapCell.put new path) b (by simp [hi])
  unfold owners
  rw [hmap]
  omega

/-- A lambda cell after a write is in the new cell, or was there before, or is
around the place. -/
theorem mem_lambdas_put {h : Heap} {i : Nat} {path : List Nat}
    {new old : HeapCell} (hold : h.cellAt i path = some old)
    {held : Option Nat × HeapCell} (hheld : held ∈ (h.put i path new).cells)
    {x : Option Nat × List Cell} (hx : x ∈ held.2.lambdas) :
    x ∈ new.lambdas ∨ (∃ held' ∈ h.cells, x ∈ held'.2.lambdas) ∨
      ∃ held', h.cells[i]? = some held' ∧ x.1 ∈ HeapCell.around path held'.2 ∧
        x.2 ≠ [] ∧ new.plain ≠ old.plain := by
  obtain ⟨held₀, hi, hat⟩ := Option.bind_eq_some_iff.mp hold
  rcases mem_put hheld with hheld | ⟨held', hi', rfl⟩
  · exact .inr (.inl ⟨held, hheld, hx⟩)
  · obtain rfl : held₀ = held' := Option.some.inj (hi.symm.trans hi')
    rcases HeapCell.mem_lambdas_put hat hx with hx | hx | hx
    · exact .inl hx
    · exact .inr (.inl ⟨held₀, List.mem_of_getElem? hi, hx⟩)
    · exact .inr (.inr ⟨held₀, hi, hx⟩)

section Steps

variable {h h' : Heap}

/-- What is counted without doomed cells stays so when nothing but the frames and
the symbols changes. -/
theorem Sound.of_frames (hsound : Sound h) (hobj : h'.objects = h.objects)
    (hcells : h'.cells = h.cells) (hsymbols : h.symbols ⊆ h'.symbols)
    (hframes : ∀ b ∈ h'.frames, h.valid b = true) : Sound h' := by
  have howners : ∀ b, h'.owners b = h.owners b := fun b => by
    rw [owners, hcells, owners]
  refine ⟨⟨fun b => ?_, fun b => ?_, fun b c hc => ?_⟩, fun held hheld => ?_,
    fun b hb => ?_, fun b o ho hmagic s hs => ?_, fun held hheld s hs => ?_, ?_⟩
  · rw [refCount_objects hobj, howners]
    exact hsound.count b
  · rw [valid_objects hobj, refCount_objects hobj]
    exact hsound.valid b
  · rw [valid_objects hobj]
    exact hsound.held b c (hcells ▸ hc)
  · exact hsound.filled held (hcells ▸ hheld)
  · rw [valid_objects hobj]
    exact hframes b hb
  · exact hsymbols (hsound.tables b o (hobj ▸ ho) hmagic s hs)
  · exact hsymbols (hsound.spelled held (hcells ▸ hheld) s hs)
  · exact hsymbols hsound.nil

theorem target_valid {i : Nat} {path : List Nat} {b : Nat}
    (h₁ : h.target i path = some b) : h.valid b = true := by
  obtain ⟨c, -, hbc⟩ := Option.bind_eq_some_iff.mp h₁
  exact (bytecodeOf_eq_some.mp hbc).2

/-- New cells that own nothing yet uncounted. -/
theorem Sound.push {added : Nat → Nat} {c : HeapCell} (hsound : Sound h)
    (hadds : AddsRefs h h' added) (hadded : ∀ b, c.owners b = added b)
    (hfilled : c.Filled) (hspelled : ∀ s ∈ c.plain.symbols, s ∈ h.symbols) :
    Sound (h'.push [c]) := by
  have hobj : (h'.push [c]).objects = h'.objects := rfl
  have hcells : (h'.push [c]).cells = h.cells ++ [(none, c)] := by
    simp [Heap.push, hadds.cells]
  have howners : ∀ b, (h'.push [c]).owners b = h.owners b + added b := by
    intro b
    rw [owners_push, owners, hadds.cells, ← hadded b]
    simp [owners]
  refine ⟨⟨fun b => ?_, fun b => ?_, fun b d hd => ?_⟩, fun held hheld => ?_,
    fun b hb => ?_, fun b o ho hmagic s hs => ?_, fun held hheld s hs => ?_, ?_⟩
  · rw [refCount_objects hobj, hadds.count, howners, hsound.count b]
    simp
  · rw [valid_objects hobj, refCount_objects hobj, hadds.valid, hadds.count]
    have hvalid := hsound.valid b
    have hvalid' := hadds.valid_added b
    constructor
    · intro hb
      have := hvalid.mp hb
      omega
    · intro hb
      by_cases hzero : added b = 0
      · exact hvalid.mpr (by omega)
      · exact hvalid' (by omega)
  · rw [valid_objects hobj, hadds.valid]
    rw [hcells] at hd
    simp only [List.mem_append, List.mem_singleton, Prod.mk.injEq, reduceCtorEq,
      false_and, or_false] at hd
    exact hsound.held b d hd
  · rw [hcells] at hheld
    rcases List.mem_append.mp hheld with hheld | hheld
    · exact hsound.filled held hheld
    · exact List.mem_singleton.mp hheld ▸ hfilled
  · rw [valid_objects hobj, hadds.valid]
    have hframes : (h'.push [c]).frames = h.frames := hadds.frames
    exact hsound.frames b (hframes ▸ hb)
  · have hsymbols : (h'.push [c]).symbols = h.symbols := hadds.symbols
    rw [hsymbols]
    have hsame := hadds.bytecode b
    rw [hobj] at ho
    rw [ho] at hsame
    cases hob : h.objects[b]? with
    | none => simp [hob] at hsame
    | some o' =>
        rw [hob] at hsame
        have hcode : o.bytecode = o'.bytecode := by simpa using hsame
        have hmagic' : o'.magic = true := by
          rw [← valid_eq hob, ← hadds.valid, valid_eq ho, hmagic]
        exact hsound.tables b o' hob hmagic' s (hcode ▸ hs)
  · have hsymbols : (h'.push [c]).symbols = h.symbols := hadds.symbols
    rw [hsymbols]
    rw [hcells] at hheld
    rcases List.mem_append.mp hheld with hheld | hheld
    · exact hsound.spelled held hheld s hs
    · rw [List.mem_singleton.mp hheld] at hs
      exact hspelled s hs
  · have hsymbols : (h'.push [c]).symbols = h.symbols := hadds.symbols
    rw [hsymbols]
    exact hsound.nil

end Steps

end Heap

mutual

@[simp] theorem HeapCell.symbols_ofCell (c : Cell) :
    (HeapCell.ofCell c).plain.symbols = c.symbols := by
  cases c with
  | quote c => exact HeapCell.symbols_ofCell c
  | expression cs => exact HeapCell.symbols_ofCells cs
  | lambda s cs => exact HeapCell.symbols_ofCells cs
  | fexpr cs => exact HeapCell.symbols_ofCells cs
  | array cs => exact HeapCell.symbols_ofCells cs
  | _ => rfl

theorem HeapCell.symbols_ofCells (cs : List Cell) :
    Cell.symbolsList (HeapCell.plainList (HeapCell.ofCells cs)) =
      Cell.symbolsList cs := by
  cases cs with
  | nil => rfl
  | cons c cs =>
      rw [HeapCell.ofCells, HeapCell.plainList, Cell.symbolsList,
        Cell.symbolsList, HeapCell.symbols_ofCell c, HeapCell.symbols_ofCells cs]

end

theorem HeapCell.filled_ofCell (c : Cell) : (HeapCell.ofCell c).Filled :=
  fun x hx hne => absurd (HeapCell.lambdas_ofCell c x hx) hne

namespace Heap

section Compile

variable {h : Heap} {i : Nat} {path : List Nat} {selfSymbol : Option Symbol}
  {cs : List HeapCell} {bc : Bytecode}

theorem compile_eq (hbc : compileLambda { h.context with selfSymbol := selfSymbol }
      (HeapCell.plainList cs) = .value bc) :
    h.compile i path selfSymbol cs =
      { h with
        objects := h.objects ++ [⟨bc, 1, true⟩]
        cells := (h.put i path (.lambda (some h.objects.length) cs)).cells ++
          bc.constants.map fun c =>
            (some h.objects.length, HeapCell.ofCell c) } := by
  simp only [compile, hbc]
  rfl

theorem compile_refused {o : Outcome Unit Bytecode}
    (hbc : compileLambda { h.context with selfSymbol := selfSymbol }
      (HeapCell.plainList cs) = o) (ho : ∀ bc, o ≠ .value bc) :
    h.compile i path selfSymbol cs = h := by
  cases o with
  | value bc => exact absurd rfl (ho bc)
  | _ => simp only [compile, hbc]

/-- No live lambda cell owns a freed object. -/
theorem Sound.aux_eq_none (hsound : Sound h) {aux : Option Nat}
    (hold : h.cellAt i path = some (.lambda aux cs))
    (haux : h.bytecodeOf aux = none) : aux = none := by
  cases aux with
  | none => rfl
  | some b =>
      obtain ⟨held, hi, hat⟩ := Option.bind_eq_some_iff.mp hold
      have hmem : (some b, HeapCell.plainList cs) ∈ held.2.lambdas :=
        HeapCell.lambdas_at hat List.mem_cons_self
      have hpos := owners_pos_of_mem (List.mem_of_getElem? hi)
        (HeapCell.owners_pos.mpr ⟨_, hmem⟩)
      have hvalid : h.valid b = true := by
        rw [hsound.valid, hsound.count]
        omega
      rw [bytecodeOf_eq_some.mpr ⟨rfl, hvalid⟩] at haux
      cases haux

theorem Sound.compile {aux : Option Nat} (hsound : Sound h)
    (hold : h.cellAt i path = some (.lambda aux cs))
    (haux : h.bytecodeOf aux = none) :
    Sound (h.compile i path selfSymbol cs) := by
  obtain rfl := hsound.aux_eq_none hold haux
  cases hbc : compileLambda { h.context with selfSymbol := selfSymbol }
      (HeapCell.plainList cs) with
  | value bc =>
    rw [compile_eq hbc]
    generalize hn : h.objects.length = n
    obtain ⟨held, hi, hat⟩ := Option.bind_eq_some_iff.mp hold
    have hheld := List.mem_of_getElem? hi
    have hspelled : Spelled (· ∈ h.symbols) (HeapCell.plainList cs) :=
      fun s hs => hsound.spelled held hheld s (ListEdit.symbols_at hat hs)
    obtain ⟨hsymbols, hconstants⟩ := compileLambda_mentions hspelled hbc
    have hne : HeapCell.plainList cs ≠ [] := by
      intro hnil
      rw [hnil] at hbc
      cases hbc
    have hobj : ∀ x : Nat, (h.objects ++ [⟨bc, 1, true⟩])[x]? =
        if x = n then some ⟨bc, 1, true⟩ else h.objects[x]? := by
      intro x
      rw [List.getElem?_append, hn]
      by_cases hlt : x < n
      · rw [if_pos hlt, if_neg (by omega)]
      · rw [if_neg hlt]
        by_cases hx : x = n
        · simp [hx]
        · have hpast : h.objects[x]? = none := List.getElem?_eq_none (by omega)
          rw [if_neg hx, hpast]
          exact List.getElem?_eq_none (by rw [List.length_singleton]; omega)
    have hfresh : h.objects[n]? = none := List.getElem?_eq_none (by omega)
    have hown : ∀ x, ownersList x (((h.put i path (.lambda (some n) cs)).cells ++
        bc.constants.map fun c => (some n, HeapCell.ofCell c)).map (·.2)) =
        h.owners x + if x = n then 1 else 0 := by
      intro x
      have hput := @owners_put _ _ _ (.lambda (some n) cs) _ hold x
      have hzero : ownersList x (bc.constants.map HeapCell.ofCell) = 0 := by
        induction bc.constants with
        | nil => rfl
        | cons c l ih => simp [HeapCell.owners_ofCell, ih]
      have hif : (if n = x then 1 else 0) = if x = n then 1 else 0 := by
        simp [eq_comm]
      simp only [owners, HeapCell.owners_lambda, Option.some.injEq, hif,
        reduceCtorEq, if_false] at hput
      rw [List.map_append, HeapCell.ownersList_append, List.map_map]
      simp only [Function.comp_def, hzero, owners]
      omega
    have hzero : h.owners n = 0 := by
      have hcount := hsound.count n
      simp only [refCount, hfresh, HeapCell.ownersList_nil, Option.map_none,
        Option.getD_none] at hcount
      omega
    refine ⟨⟨fun x => ?_, fun x => ?_, fun x d hd => ?_⟩, fun held' hheld' => ?_,
      fun x hx => ?_, fun x o ho hmagic s hs => ?_, fun held' hheld' s hs => ?_,
      hsound.nil⟩
    · have hcount := hsound.count x
      simp only [owners] at hcount hown hzero ⊢
      rw [hown]
      simp only [refCount, hobj] at hcount ⊢
      by_cases hx : x = n
      · simp [hx, hzero]
      · simpa [hx] using hcount
    · have hvalid := hsound.valid x
      simp only [valid, refCount, hobj] at hvalid ⊢
      by_cases hx : x = n
      · simp [hx]
      · simpa [hx] using hvalid
    · simp only [valid, hobj]
      by_cases hx : x = n
      · simp [hx]
      · rw [if_neg hx]
        rcases List.mem_append.mp hd with hd | hd
        · rcases mem_put hd with hd | ⟨held', hi', hd⟩
          · exact hsound.held x d hd
          · rw [Prod.mk.injEq] at hd
            refine hsound.held x held'.2 ?_
            rw [hd.1]
            exact List.mem_of_getElem? hi'
        · obtain ⟨c, -, hc⟩ := List.mem_map.mp hd
          simp only [Prod.mk.injEq, Option.some.injEq] at hc
          exact absurd hc.1.symm hx
    · rcases List.mem_append.mp hheld' with hheld' | hheld'
      · rcases mem_put hheld' with hheld' | ⟨held'', hi', rfl⟩
        · exact hsound.filled held' hheld'
        · obtain rfl : held = held'' := Option.some.inj (hi.symm.trans hi')
          intro x hx hxne
          rcases HeapCell.mem_lambdas_put hat hx with hx | hx | ⟨-, -, hx⟩
          · rcases List.mem_cons.mp hx with rfl | hx
            · exact hne
            · exact hsound.filled held hheld x
                (HeapCell.lambdas_at hat (List.mem_cons_of_mem _ hx)) hxne
          · exact hsound.filled held hheld x hx hxne
          · exact absurd rfl hx
      · obtain ⟨c, -, rfl⟩ := List.mem_map.mp hheld'
        exact HeapCell.filled_ofCell c
    · have hvalid := hsound.frames x hx
      simp only [valid, hobj] at hvalid ⊢
      by_cases hxn : x = n
      · simp [hxn]
      · simpa [hxn] using hvalid
    · simp only [hobj] at ho
      by_cases hx : x = n
      · rw [if_pos hx] at ho
        cases ho
        exact hsymbols s hs
      · rw [if_neg hx] at ho
        exact hsound.tables x o ho hmagic s hs
    · rcases List.mem_append.mp hheld' with hheld' | hheld'
      · rcases mem_put hheld' with hheld' | ⟨held'', hi', rfl⟩
        · exact hsound.spelled held' hheld' s hs
        · obtain rfl : held = held'' := Option.some.inj (hi.symm.trans hi')
          rcases ListEdit.symbols_put hat hs with hs | hs
          · exact hspelled s hs
          · exact hsound.spelled held hheld s hs
      · obtain ⟨c, hc, rfl⟩ := List.mem_map.mp hheld'
        rw [HeapCell.symbols_ofCell] at hs
        exact spelled_iff.mp hconstants c hc s hs
  | error e => rwa [compile_refused hbc (by simp)]
  | undefined => rwa [compile_refused hbc (by simp)]
  | timeout => rwa [compile_refused hbc (by simp)]

end Compile

section Edit

variable {h h₂ : Heap} {i : Nat} {path : List Nat} {e : ListEdit}
  {deleted : List HeapCell}

/-- What a list primitive has in hand: the new cell, if it takes one, is the last
of the cells. -/
structure Edits (h : Heap) (i : Nat) (path : List Nat) (e : ListEdit)
    (h₁ : Heap) (new c : HeapCell) (r : Edited) : Prop where
  context : h₁.context = h.context
  objects : h₁.objects = h.objects
  frames : h₁.frames = h.frames
  symbols : h₁.symbols = h.symbols
  cells : h.cells = h₁.cells ++ if e.takesNew then [(none, new)] else []
  cell : h₁.cellAt i path = some c
  apply : e.apply new c = some r

theorem editList_cases (hedit : h.editList i path e = some (h₂, deleted)) :
    ∃ h₁ new c r, Edits h i path e h₁ new c r ∧
      h₂ = (h₁.put i path r.cell).push r.returned ∧ deleted = r.deleted := by
  simp only [editList, Option.bind_eq_bind] at hedit
  split at hedit <;> rename_i htakes
  · obtain ⟨⟨new, h₁⟩, htake, hedit⟩ := Option.bind_eq_some_iff.mp hedit
    obtain ⟨c, hcell, hedit⟩ := Option.bind_eq_some_iff.mp hedit
    obtain ⟨r, happly, hedit⟩ := Option.bind_eq_some_iff.mp hedit
    cases hedit
    unfold takeLast at htake
    split at htake
    · rename_i d hlast
      cases htake
      refine ⟨{ h with cells := h.cells.dropLast }, new, c, r,
        ⟨rfl, rfl, rfl, rfl, ?_, hcell, happly⟩, rfl, rfl⟩
      rw [if_pos htakes]
      exact (List.dropLast_append_getLast? _ (by simp [hlast])).symm
    · cases htake
  · obtain ⟨⟨new, h₁⟩, htake, hedit⟩ := Option.bind_eq_some_iff.mp hedit
    obtain ⟨c, hcell, hedit⟩ := Option.bind_eq_some_iff.mp hedit
    obtain ⟨r, happly, hedit⟩ := Option.bind_eq_some_iff.mp hedit
    cases hedit
    cases htake
    exact ⟨h, _, c, r, ⟨rfl, rfl, rfl, rfl, by simp [htakes], hcell, happly⟩,
      rfl, rfl⟩

variable {h₁ : Heap} {new c : HeapCell} {r : Edited}

theorem Edits.mem (hedits : Edits h i path e h₁ new c r)
    {held : Option Nat × HeapCell} (hheld : held ∈ h₁.cells) :
    held ∈ h.cells := by
  rw [hedits.cells]
  exact List.mem_append_left _ hheld

theorem Edits.mem_new (hedits : Edits h i path e h₁ new c r)
    (htakes : e.takesNew = true) : (none, new) ∈ h.cells := by
  rw [hedits.cells, if_pos htakes]
  exact List.mem_append_right _ List.mem_cons_self

theorem Edits.heldAt (hedits : Edits h i path e h₁ new c r)
    {held : Option Nat × HeapCell} (hi : h₁.cells[i]? = some held) :
    h.cells[i]? = some held := by
  have hlt := (List.getElem?_eq_some_iff.mp hi).1
  rw [hedits.cells, List.getElem?_append_left hlt, hi]

theorem Edits.cellAt (hedits : Edits h i path e h₁ new c r) :
    h.cellAt i path = some c := by
  obtain ⟨held, hi, hat⟩ := Option.bind_eq_some_iff.mp hedits.cell
  exact Option.bind_eq_some_iff.mpr ⟨held, hedits.heldAt hi, hat⟩

/-- The counts after an edit, before the deletion of what it took out. -/
theorem Edits.counted (hedits : Edits h i path e h₁ new c r) (hsound : Sound h)
    (hkept : e.overwrites c = true → c.aux = none) :
    Counted ((h₁.put i path r.cell).push r.returned) r.deleted := by
  have hobj : ((h₁.put i path r.cell).push r.returned).objects = h.objects :=
    hedits.objects
  refine ⟨fun b => ?_, fun b => ?_, fun b d hd => ?_⟩
  · have hcount := hsound.count b
    have hput := @owners_put _ _ _ r.cell _ hedits.cell b
    have happly := ListEdit.owners_apply hedits.apply hkept b
    have hold : h.owners b =
        h₁.owners b + if e.takesNew then new.owners b else 0 := by
      rw [owners, hedits.cells, List.map_append, HeapCell.ownersList_append]
      split <;> simp [owners]
    rw [refCount_objects hobj, hcount, owners_push]
    simp only [HeapCell.ownersList_nil]
    omega
  · rw [valid_objects hobj, refCount_objects hobj]
    exact hsound.valid b
  · rw [valid_objects hobj]
    rcases mem_push _ hd with hd | ⟨hd, -⟩
    · rcases mem_put hd with hd | ⟨held, hi, hd⟩
      · exact hsound.held b d (hedits.mem hd)
      · rw [Prod.mk.injEq] at hd
        refine hsound.held b held.2 (hedits.mem ?_)
        rw [hd.1]
        exact List.mem_of_getElem? hi
    · cases hd

/-- A lambda cell with bytecode after an edit was there before, or the edited
list is in it, or it is that list with its `aux` kept. -/
theorem Edits.lambdas (hedits : Edits h i path e h₁ new c r)
    {held : Option Nat × HeapCell}
    (hheld : held ∈ ((h₁.put i path r.cell).push r.returned).cells)
    {x : Option Nat × List Cell} (hx : x ∈ held.2.lambdas) (hne : x.1 ≠ none) :
    (∃ held' ∈ h.cells, x ∈ held'.2.lambdas) ∨ x.2 ≠ [] ∧
      (x.1 = c.aux ∧ e.overwrites c = false ∨
        ∃ held', h.cells[i]? = some held' ∧
          x.1 ∈ HeapCell.around path held'.2 ∧ r.cell.plain ≠ c.plain) := by
  obtain ⟨held₀, hi, hat⟩ := Option.bind_eq_some_iff.mp hedits.cell
  have hi' := hedits.heldAt hi
  have happly : ∀ d ∈ r.cell :: (r.returned ++ r.deleted), x ∈ d.lambdas →
      (∃ held' ∈ h.cells, x ∈ held'.2.lambdas) ∨ x.2 ≠ [] ∧
        x.1 = c.aux ∧ e.overwrites c = false := by
    intro d hd hx
    rcases ListEdit.lambdas_apply hedits.apply hd hx hne with
      hx | ⟨htakes, hx⟩ | ⟨haux, hfill, hover⟩
    · exact .inl ⟨held₀, List.mem_of_getElem? hi', HeapCell.lambdas_at hat hx⟩
    · exact .inl ⟨_, hedits.mem_new htakes, hx⟩
    · exact .inr ⟨hfill, haux, hover⟩
  rcases mem_push _ hheld with hheld | ⟨-, hheld⟩
  · rcases mem_lambdas_put hedits.cell hheld hx with
      hx | ⟨held', hheld', hx⟩ | ⟨held', hi₁, haround, hfill, hplain⟩
    · rcases happly _ List.mem_cons_self hx with hx | ⟨hfill, hx⟩
      · exact .inl hx
      · exact .inr ⟨hfill, .inl hx⟩
    · exact .inl ⟨held', hedits.mem hheld', hx⟩
    · exact .inr ⟨hfill, .inr ⟨held', hedits.heldAt hi₁, haround, hplain⟩⟩
  · rcases happly _ (List.mem_cons_of_mem _ (List.mem_append_left _ hheld)) hx
      with hx | ⟨hfill, hx⟩
    · exact .inl hx
    · exact .inr ⟨hfill, .inl hx⟩

theorem Edits.spelled (hedits : Edits h i path e h₁ new c r) (hsound : Sound h)
    {held : Option Nat × HeapCell}
    (hheld : held ∈ ((h₁.put i path r.cell).push r.returned).cells)
    {s : Symbol} (hs : s ∈ held.2.plain.symbols) : s ∈ h.symbols := by
  obtain ⟨held₀, hi, hat⟩ := Option.bind_eq_some_iff.mp hedits.cell
  have hmem := hedits.mem (List.mem_of_getElem? hi)
  have happly : ∀ d ∈ r.cell :: (r.returned ++ r.deleted),
      s ∈ d.plain.symbols → s ∈ h.symbols := by
    intro d hd hs
    rcases ListEdit.symbols_apply hedits.apply hd hs with hs | ⟨htakes, hs⟩
    · exact hsound.spelled held₀ hmem s (ListEdit.symbols_at hat hs)
    · exact hsound.spelled _ (hedits.mem_new htakes) s hs
  rcases mem_push _ hheld with hheld | ⟨-, hheld⟩
  · rcases mem_put hheld with hheld | ⟨held', hi₁, rfl⟩
    · exact hsound.spelled held (hedits.mem hheld) s hs
    · obtain rfl : held₀ = held' := Option.some.inj (hi.symm.trans hi₁)
      rcases ListEdit.symbols_put hat hs with hs | hs
      · exact happly _ List.mem_cons_self hs
      · exact hsound.spelled held₀ hmem s hs
  · exact happly _ (List.mem_cons_of_mem _ (List.mem_append_left _ hheld)) hs

theorem Sound.edit (hsound : Sound h) (hok : Spares h (.edit i path e))
    (hedit : h.editList i path e = some (h₂, deleted)) :
    Sound (h₂.deleteList deleted) := by
  obtain ⟨hkept, hrooted⟩ := hok
  have hrooted' := hrooted h₂ deleted hedit
  obtain ⟨h₁, new, c, r, hedits, rfl, rfl⟩ := editList_cases hedit
  refine Sound.deleteList (hedits.counted hsound (hkept c hedits.cellAt))
    (fun held hheld x hx hne => ?_) (fun b o ho hmagic s hs => ?_)
    (fun held hheld s hs => ?_) ?_ (fun b hb => ?_)
  · rcases hedits.lambdas hheld hx hne with ⟨held', hheld', hx⟩ | ⟨hfill, -⟩
    · exact hsound.filled held' hheld' x hx hne
    · exact hfill
  · have hobj : h₁.objects[b]? = some o := ho
    rw [hedits.objects] at hobj
    have hsymbols : h₁.symbols = h.symbols := hedits.symbols
    exact hsymbols ▸ hsound.tables b o hobj hmagic s hs
  · have hsymbols : h₁.symbols = h.symbols := hedits.symbols
    exact hsymbols ▸ hedits.spelled hsound hheld hs
  · have hsymbols : h₁.symbols = h.symbols := hedits.symbols
    exact hsymbols ▸ hsound.nil
  · have hframes : h₁.frames = h.frames := hedits.frames
    exact hrooted' b (hframes ▸ hb)

end Edit

section Swap

variable {h h' : Heap} {i j : Nat} {path path' : List Nat} {c d : HeapCell}

/-- What `swap` has in hand: the second cell is still in its place when the first
has been written over. -/
structure Swaps (h : Heap) (i : Nat) (path : List Nat) (j : Nat)
    (path' : List Nat) (c d : HeapCell) : Prop where
  first : h.cellAt i path = some c
  second : h.cellAt j path' = some d
  between : (h.put i path d).cellAt j path' = some d
  around : ∀ held, (h.put i path d).cells[j]? = some held →
    ∃ held', h.cells[j]? = some held' ∧ held.1 = held'.1 ∧
      HeapCell.around path' held.2 = HeapCell.around path' held'.2

theorem swap_cases (hswap : h.swap i path j path' = some h') :
    ∃ c d, Swaps h i path j path' c d ∧
      h' = (h.put i path d).put j path' c := by
  obtain ⟨c, hc, hswap⟩ := Option.bind_eq_some_iff.mp hswap
  obtain ⟨d, hd, hswap⟩ := Option.bind_eq_some_iff.mp hswap
  split at hswap
  · cases hswap
  rename_i hapart
  cases hswap
  obtain ⟨held, hj, hat⟩ := Option.bind_eq_some_iff.mp hd
  have hsame : ∃ held', (h.put i path d).cells[j]? = some held' ∧
      HeapCell.at_ path' held'.2 = some d ∧ held'.1 = held.1 ∧
      HeapCell.around path' held'.2 = HeapCell.around path' held.2 := by
    by_cases hij : i = j
    · subst hij
      have happart : HeapCell.apart path path' held.2 = true := by
        simpa [hj] using hapart
      have hput : HeapCell.at_ path' (HeapCell.put d path held.2) = HeapCell.at_ path' held.2 ∧
          HeapCell.around path' (HeapCell.put d path held.2) =
            HeapCell.around path' held.2 := HeapCell.at_put_apart happart
      obtain ⟨hat', haround⟩ := hput
      refine ⟨(held.1, HeapCell.put d path held.2), ?_, hat'.trans hat, rfl,
        haround⟩
      simp [put, hj]
    · refine ⟨held, ?_, hat, rfl, rfl⟩
      simp [put, hij, hj]
  obtain ⟨held', hj', hat', hsame⟩ := hsame
  refine ⟨c, d, ⟨hc, hd, Option.bind_eq_some_iff.mpr ⟨held', hj', hat'⟩,
    fun held'' hheld'' => ?_⟩, rfl⟩
  obtain rfl : held' = held'' := Option.some.inj (hj'.symm.trans hheld'')
  exact ⟨held, hj, hsame⟩

/-- What holds a cell stays. -/
theorem mem_put_held {new : HeapCell} {held : Option Nat × HeapCell}
    (hheld : held ∈ (h.put i path new).cells) :
    ∃ c, (held.1, c) ∈ h.cells := by
  rcases mem_put hheld with hheld | ⟨held', hi, rfl⟩
  · exact ⟨held.2, hheld⟩
  · exact ⟨held'.2, List.mem_of_getElem? hi⟩

theorem lambdas_cellAt (hc : h.cellAt i path = some c)
    {x : Option Nat × List Cell} (hx : x ∈ c.lambdas) :
    ∃ held ∈ h.cells, x ∈ held.2.lambdas := by
  obtain ⟨held, hi, hat⟩ := Option.bind_eq_some_iff.mp hc
  exact ⟨held, List.mem_of_getElem? hi, HeapCell.lambdas_at hat hx⟩

/-- A lambda cell after a swap was there before, or one of the places is in it. -/
theorem Swaps.lambdas (hswaps : Swaps h i path j path' c d)
    {held : Option Nat × HeapCell}
    (hheld : held ∈ ((h.put i path d).put j path' c).cells)
    {x : Option Nat × List Cell} (hx : x ∈ held.2.lambdas) :
    (∃ held' ∈ h.cells, x ∈ held'.2.lambdas) ∨ x.2 ≠ [] ∧
      ((∃ held', h.cells[i]? = some held' ∧
          x.1 ∈ HeapCell.around path held'.2) ∨
        ∃ held', h.cells[j]? = some held' ∧
          x.1 ∈ HeapCell.around path' held'.2) := by
  rcases mem_lambdas_put hswaps.between hheld hx with
    hx | ⟨held', hheld', hx⟩ | ⟨held', hj, haround, hne, -⟩
  · exact .inl (lambdas_cellAt hswaps.first hx)
  · rcases mem_lambdas_put hswaps.first hheld' hx with
      hx | hx | ⟨held'', hi, haround, hne, -⟩
    · exact .inl (lambdas_cellAt hswaps.second hx)
    · exact .inl hx
    · exact .inr ⟨hne, .inl ⟨held'', hi, haround⟩⟩
  · obtain ⟨held'', hj', -, hsame⟩ := hswaps.around held' hj
    exact .inr ⟨hne, .inr ⟨held'', hj', hsame ▸ haround⟩⟩

theorem spelled_put {new old : HeapCell} (hold : h.cellAt i path = some old)
    {held : Option Nat × HeapCell} (hheld : held ∈ (h.put i path new).cells)
    {s : Symbol} (hs : s ∈ held.2.plain.symbols) :
    s ∈ new.plain.symbols ∨ ∃ held' ∈ h.cells, s ∈ held'.2.plain.symbols := by
  obtain ⟨held₀, hi, hat⟩ := Option.bind_eq_some_iff.mp hold
  rcases mem_put hheld with hheld | ⟨held', hi', rfl⟩
  · exact .inr ⟨held, hheld, hs⟩
  · obtain rfl : held₀ = held' := Option.some.inj (hi.symm.trans hi')
    exact (ListEdit.symbols_put hat hs).imp_right fun hs =>
      ⟨held₀, List.mem_of_getElem? hi, hs⟩

theorem Sound.swap (hsound : Sound h) (hswap : h.swap i path j path' = some h') :
    Sound h' := by
  obtain ⟨c, d, hswaps, rfl⟩ := swap_cases hswap
  have hspelled : ∀ {i : Nat} {path : List Nat} {c : HeapCell},
      h.cellAt i path = some c → ∀ s ∈ c.plain.symbols, s ∈ h.symbols := by
    intro i path c hc s hs
    obtain ⟨held, hi, hat⟩ := Option.bind_eq_some_iff.mp hc
    exact hsound.spelled held (List.mem_of_getElem? hi) s
      (ListEdit.symbols_at hat hs)
  refine ⟨⟨fun b => ?_, hsound.valid, fun b e he => ?_⟩,
    fun held hheld x hx hne => ?_, hsound.frames, hsound.tables,
    fun held hheld s hs => ?_, hsound.nil⟩
  · have hcount := hsound.count b
    have hfirst := @owners_put _ _ _ d _ hswaps.first b
    have hsecond := @owners_put _ _ _ c _ hswaps.between b
    have hobj : ((h.put i path d).put j path' c).objects = h.objects := rfl
    rw [refCount_objects hobj, hcount]
    omega
  · obtain ⟨e', he'⟩ := mem_put_held he
    obtain ⟨e'', he''⟩ := mem_put_held he'
    exact hsound.held b e'' he''
  · rcases hswaps.lambdas hheld hx with ⟨held', hheld', hx⟩ | ⟨hfill, -⟩
    · exact hsound.filled held' hheld' x hx hne
    · exact hfill
  · rcases spelled_put hswaps.between hheld hs with hs | ⟨held', hheld', hs⟩
    · exact hspelled hswaps.first s hs
    · rcases spelled_put hswaps.first hheld' hs with hs | ⟨held'', hheld'', hs⟩
      · exact hspelled hswaps.second s hs
      · exact hsound.spelled held'' hheld'' s hs

end Swap

end Heap

namespace HeapCell

variable (s : Symbol)

mutual

/-- Taking a symbol out of the cells leaves the lambda cells and what they own. -/
theorem owners_unlink (b : Nat) (c : HeapCell) :
    (c.unlink s).owners b = c.owners b := by
  cases c with
  | atom cell =>
      unfold unlink
      split <;> rfl
  | quote c => exact owners_unlink b c
  | list type cs => exact owners_unlinkList b cs
  | lambda aux cs =>
      rw [unlink, owners_lambda, owners_lambda, owners_unlinkList b cs]

theorem owners_unlinkList (b : Nat) (cs : List HeapCell) :
    ownersList b (unlinkList s cs) = ownersList b cs := by
  cases cs with
  | nil => rfl
  | cons c cs =>
      rw [unlinkList, ownersList_cons, ownersList_cons, owners_unlink b c,
        owners_unlinkList b cs]

end

theorem plainList_unlinkList_ne_nil {cs : List HeapCell}
    (h : plainList cs ≠ []) : plainList (unlinkList s cs) ≠ [] := by
  cases cs with
  | nil => exact h
  | cons c cs => simp [unlinkList]

mutual

theorem filled_unlink (c : HeapCell) (h : c.Filled) : (c.unlink s).Filled := by
  cases c with
  | atom cell =>
      unfold unlink
      split <;> exact fun x hx => by cases hx
  | quote c => exact filled_unlink c h
  | list type cs => exact filled_unlinkList cs h
  | lambda aux cs =>
      intro x hx hne
      rcases List.mem_cons.mp hx with rfl | hx
      · exact plainList_unlinkList_ne_nil s (h _ List.mem_cons_self hne)
      · exact filled_unlinkList cs
          (fun x hx => h x (List.mem_cons_of_mem _ hx)) x hx hne

theorem filled_unlinkList (cs : List HeapCell)
    (h : ∀ x ∈ lambdasList cs, x.1 ≠ none → x.2 ≠ []) :
    ∀ x ∈ lambdasList (unlinkList s cs), x.1 ≠ none → x.2 ≠ [] := by
  cases cs with
  | nil => intro x hx; cases hx
  | cons c cs =>
      intro x hx hne
      rcases List.mem_append.mp hx with hx | hx
      · exact filled_unlink c (fun x hx => h x (List.mem_append_left _ hx)) x hx hne
      · exact filled_unlinkList cs
          (fun x hx => h x (List.mem_append_right _ hx)) x hx hne

end

mutual

/-- After `references` no cell refers to the symbol any more. -/
theorem symbols_unlink (c : HeapCell) {t : Symbol}
    (h : t ∈ (c.unlink s).plain.symbols) :
    t = nilSymbol ∨ (t ∈ c.plain.symbols ∧ t ≠ s) := by
  cases c with
  | atom cell =>
      unfold unlink at h
      split at h
      · exact .inl (by simpa [plain, Cell.symbols] using h)
      · rename_i hs
        refine .inr ⟨h, ?_⟩
        rintro rfl
        exact hs h
  | quote c => exact symbols_unlink c h
  | list type cs =>
      rw [unlink, plain, ListEdit.symbols_list] at h
      rw [plain, ListEdit.symbols_list]
      exact symbols_unlinkList cs h
  | lambda aux cs => exact symbols_unlinkList cs h

theorem symbols_unlinkList (cs : List HeapCell) {t : Symbol}
    (h : t ∈ Cell.symbolsList (plainList (unlinkList s cs))) :
    t = nilSymbol ∨ (t ∈ Cell.symbolsList (plainList cs) ∧ t ≠ s) := by
  cases cs with
  | nil => cases h
  | cons c cs =>
      rw [plainList, Cell.symbolsList]
      rcases List.mem_append.mp h with h | h
      · exact (symbols_unlink c h).imp_right fun h =>
          ⟨List.mem_append_left _ h.1, h.2⟩
      · exact (symbols_unlinkList cs h).imp_right fun h =>
          ⟨List.mem_append_right _ h.1, h.2⟩

end

end HeapCell

namespace Heap

theorem Sound.deleteSymbol {h h' : Heap} {s : Symbol} (hsound : Sound h)
    (hok : Spares h (.deleteSymbol s)) (hs : s ≠ nilSymbol)
    (hobj : h'.objects = h.objects) (hframes : h'.frames = h.frames)
    (hcells : h'.cells = h.cells.map fun held => (held.1, held.2.unlink s))
    (hsymbols : h'.symbols = h.symbols.filter (· ≠ s)) : Sound h' := by
  have howners : ∀ b, h'.owners b = h.owners b := by
    intro b
    rw [owners, hcells, List.map_map, owners]
    induction h.cells with
    | nil => rfl
    | cons held l ih =>
        rw [List.map_cons, List.map_cons, HeapCell.ownersList_cons,
          HeapCell.ownersList_cons, ih]
        exact congrArg (· + _) (HeapCell.owners_unlink s b held.2)
  have hmem : ∀ held ∈ h'.cells, ∃ held' ∈ h.cells,
      held = (held'.1, held'.2.unlink s) := by
    intro held hheld
    rw [hcells] at hheld
    obtain ⟨held', hheld', rfl⟩ := List.mem_map.mp hheld
    exact ⟨held', hheld', rfl⟩
  have hkept : ∀ t ∈ h.symbols, t ≠ s → t ∈ h'.symbols := by
    intro t ht hne
    rw [hsymbols]
    exact List.mem_filter.mpr ⟨ht, by simpa using hne⟩
  refine ⟨⟨fun b => ?_, fun b => ?_, fun b c hc => ?_⟩, fun held hheld => ?_,
    fun b hb => ?_, fun b o ho hmagic t ht => ?_, fun held hheld t ht => ?_, ?_⟩
  · rw [refCount_objects hobj, howners]
    exact hsound.count b
  · rw [valid_objects hobj, refCount_objects hobj]
    exact hsound.valid b
  · rw [valid_objects hobj]
    obtain ⟨held', hheld', heq⟩ := hmem _ hc
    rw [Prod.mk.injEq] at heq
    refine hsound.held b held'.2 ?_
    rw [heq.1]
    exact hheld'
  · obtain ⟨held', hheld', rfl⟩ := hmem held hheld
    exact HeapCell.filled_unlink s held'.2 (hsound.filled held' hheld')
  · rw [valid_objects hobj]
    exact hsound.frames b (hframes ▸ hb)
  · rw [hobj] at ho
    refine hkept t (hsound.tables b o ho hmagic t ht) ?_
    rintro rfl
    exact hok b o ho hmagic ht
  · obtain ⟨held', hheld', rfl⟩ := hmem held hheld
    rcases HeapCell.symbols_unlink s held'.2 ht with rfl | ⟨ht, hne⟩
    · exact hkept _ hsound.nil hs.symm
    · exact hkept t (hsound.spelled held' hheld' t ht) hne
  · exact hkept _ hsound.nil hs.symm

/-- What one step preserves. -/
theorem Sound.step {h h' : Heap} {a : Action} (hsound : Sound h)
    (hok : Spares h a) (hstep : h.step a = some h') : Sound h' := by
  cases a with
  | intern s =>
      cases hstep
      exact hsound.of_frames rfl rfl (List.subset_cons_self s h.symbols)
        hsound.frames
  | create c =>
      simp only [Heap.step] at hstep
      split at hstep
      · rename_i hsymbols
        cases hstep
        exact hsound.push (AddsRefs.refl h) (HeapCell.owners_ofCell · c)
          (HeapCell.filled_ofCell c) (by simpa using hsymbols)
      · cases hstep
  | copy i path =>
      obtain ⟨c, hc, hstep⟩ := Option.bind_eq_some_iff.mp hstep
      cases hstep
      obtain ⟨held, hi, hat⟩ := Option.bind_eq_some_iff.mp hc
      have hheld := List.mem_of_getElem? hi
      have hfilled : c.Filled := fun x hx =>
        hsound.filled held hheld x (HeapCell.lambdas_at hat hx)
      obtain ⟨hadds, hcopy⟩ := copyCell_spec h c hfilled
      refine hsound.push hadds (fun _ => rfl) (fun x hx hne => ?_) fun s hs => ?_
      · exact hfilled x (hcopy.lambdas x hx hne) hne
      · rw [hcopy.plain] at hs
        exact hsound.spelled held hheld s (ListEdit.symbols_at hat hs)
  | delete i =>
      obtain ⟨c, hc, hstep⟩ := Option.bind_eq_some_iff.mp hstep
      cases hstep
      exact Sound.deleteList (hsound.erase (free_eq_some.mp hc))
        (fun held hheld => hsound.filled held (mem_erase hheld)) hsound.tables
        (fun held hheld => hsound.spelled held (mem_erase hheld)) hsound.nil hok
  | collect i =>
      obtain ⟨c, hc, hstep⟩ := Option.bind_eq_some_iff.mp hstep
      cases hstep
      have hcounted := hsound.erase (free_eq_some.mp hc)
      have hnone : ∀ b, c.owners b = 0 := hok c hc
      exact ⟨hcounted.congr fun b => by simp [hnone],
        fun held hheld => hsound.filled held (mem_erase hheld), hsound.frames,
        hsound.tables,
        fun held hheld => hsound.spelled held (mem_erase hheld), hsound.nil⟩
  | compile i path selfSymbol =>
      simp only [Heap.step] at hstep
      split at hstep
      · rename_i aux cs hold
        split at hstep
        · rename_i haux
          cases hstep
          exact hsound.compile hold haux
        · cases hstep
      · cases hstep
  | edit i path e =>
      obtain ⟨⟨h₂, deleted⟩, hedit, hstep⟩ := Option.bind_eq_some_iff.mp hstep
      cases hstep
      exact hsound.edit hok hedit
  | swap i path j path' => exact hsound.swap hstep
  | enter i path =>
      obtain ⟨b, hb, hstep⟩ := Option.bind_eq_some_iff.mp hstep
      cases hstep
      refine hsound.of_frames rfl rfl (List.Subset.refl _) fun x hx => ?_
      rcases List.mem_cons.mp hx with rfl | hx
      · exact target_valid hb
      · exact hsound.frames x hx
  | tailCall i path =>
      obtain ⟨b, hb, hstep⟩ := Option.bind_eq_some_iff.mp hstep
      split at hstep
      · cases hstep
      · rename_i hframes
        cases hstep
        refine hsound.of_frames rfl rfl (List.Subset.refl _) fun x hx => ?_
        rcases List.mem_cons.mp hx with rfl | hx
        · exact target_valid hb
        · exact hsound.frames x (hframes ▸ List.mem_cons_of_mem _ hx)
  | leave =>
      simp only [Heap.step] at hstep
      split at hstep
      · cases hstep
      · rename_i hframes
        cases hstep
        refine hsound.of_frames rfl rfl (List.Subset.refl _) fun x hx => ?_
        exact hsound.frames x (hframes ▸ List.mem_cons_of_mem _ hx)
  | deleteSymbol s =>
      simp only [Heap.step] at hstep
      split at hstep
      · cases hstep
      · rename_i hs
        cases hstep
        exact hsound.deleteSymbol hok hs rfl rfl rfl rfl
  | redefine context =>
      cases hstep
      exact hsound.of_frames rfl rfl (List.Subset.refl _) hsound.frames

theorem sound_start (context : CompileContext) (symbols : List Symbol) :
    Sound (start context symbols) := by
  refine ⟨⟨fun b => ?_, fun b => ?_, fun b c hc => ?_⟩, fun held hheld => ?_,
    fun b hb => ?_, fun b o ho => ?_, fun held hheld => ?_, List.mem_cons_self⟩
  · simp [refCount, owners, start]
  · simp [refCount, valid, start]
  · cases hc
  · cases hheld
  · cases hb
  · simp [start] at ho
  · cases hheld

/-- `(lambda () (g) 1)`. -/
def callerFn : List Cell :=
  [.expression [], .expression [.symbol (mainSymbol "g")], .long 1]

/-- The memory when `(define (f) (g) 1)` has been compiled and runs. -/
def callerHeap : Heap :=
  { context := startupContext
    objects := [⟨⟨[8, 0, 0, 27, 0, 4, 38, 14], [], [mainSymbol "g"], 0, 0⟩, 1,
      true⟩]
    cells := [(none, .lambda (some 0)
      [.list .expression [],
        .list .expression [.atom ⟨.symbol (mainSymbol "g"), rfl⟩],
        .atom ⟨.long 1, rfl⟩])]
    frames := [0]
    symbols := [nilSymbol, mainSymbol "g"] }

end Heap

end NewLispNeo
