/-
Bytecode as a cache: the bytecode of a lambda cell is what the compiler makes of
its present contents, as long as no list is edited under it and no constant.
-/
import NewLispNeo.ConstantPools

namespace NewLispNeo

namespace HeapCell

variable {s : Symbol}

mutual

/-- The lambda cells stay, with the symbol taken out of their contents. -/
theorem lambdas_unlink (c : HeapCell) {x : Option Nat × List Cell}
    (h : x ∈ (c.unlink s).lambdas) : ∃ y ∈ c.lambdas, x.1 = y.1 ∧
      (s ∉ Cell.symbolsList y.2 → x.2 = y.2) := by
  cases c with
  | atom cell =>
      unfold unlink at h
      split at h <;> cases h
  | quote c => exact lambdas_unlink c h
  | list type cs => exact lambdas_unlinkList cs h
  | lambda aux cs =>
      rcases List.mem_cons.mp h with rfl | h
      · exact ⟨_, List.mem_cons_self, rfl, plain_unlinkList cs⟩
      · obtain ⟨y, hy, hxy⟩ := lambdas_unlinkList cs h
        exact ⟨y, List.mem_cons_of_mem _ hy, hxy⟩

theorem lambdas_unlinkList (cs : List HeapCell) {x : Option Nat × List Cell}
    (h : x ∈ lambdasList (unlinkList s cs)) : ∃ y ∈ lambdasList cs,
      x.1 = y.1 ∧ (s ∉ Cell.symbolsList y.2 → x.2 = y.2) := by
  cases cs with
  | nil => cases h
  | cons c cs =>
      rcases List.mem_append.mp h with h | h
      · obtain ⟨y, hy, hxy⟩ := lambdas_unlink c h
        exact ⟨y, List.mem_append_left _ hy, hxy⟩
      · obtain ⟨y, hy, hxy⟩ := lambdas_unlinkList cs h
        exact ⟨y, List.mem_append_right _ hy, hxy⟩

end

end HeapCell

namespace Heap

/-- The bytecode of a lambda cell, if it has any, is that of these contents. -/
def Current (h : Heap) (aux : Option Nat) (contents : List Cell) : Prop :=
  ∀ b, h.bytecodeOf aux = some b → ∃ selfSymbol bc,
    compileLambda { h.context with selfSymbol := selfSymbol } contents =
      .value bc ∧ h.bytecode b = some bc.inMemory

/-- Every lambda cell runs what it says. -/
def Coherent (h : Heap) : Prop :=
  ∀ held ∈ h.cells, ∀ x ∈ held.2.lambdas, h.Current x.1 x.2

/-- Coherent, and every `aux` points to an object that has been made. -/
structure Cached (h : Heap) : Prop where
  coherent : h.Coherent
  filled : ∀ held ∈ h.cells, held.2.Filled
  made : ∀ held ∈ h.cells, ∀ x ∈ held.2.lambdas, ∀ b, x.1 = some b →
    b < h.objects.length
  pooled : h.Pooled

/-- No lambda cell around a place has bytecode. -/
def Outside (h : Heap) (i : Nat) (path : List Nat) : Prop :=
  ∀ held, h.cells[i]? = some held →
    ∀ aux ∈ HeapCell.around path held.2, h.bytecodeOf aux = none

/-- A step that edits no list inside a lambda that has bytecode, nor such a lambda
without a reset of its `aux`, and leaves what the compiler reads of the symbols of the
lambdas that have been compiled. -/
def SparesLambdas (h : Heap) : Action → Prop
  | .edit i path e => e = .undo ∨ h.Outside i path ∧
      ∀ c, h.cellAt i path = some c →
        e.overwrites c = true ∨ h.bytecodeOf c.aux = none
  | .swap i path j path' => h.Outside i path ∧ h.Outside j path'
  | .deleteSymbol s => ∀ held ∈ h.cells, ∀ x ∈ held.2.lambdas,
      h.bytecodeOf x.1 ≠ none → s ∉ Cell.symbolsList x.2
  | .redefine context => ∀ held ∈ h.cells, ∀ x ∈ held.2.lambdas,
      h.bytecodeOf x.1 ≠ none → ∀ selfSymbol,
        compileLambda { context with selfSymbol := selfSymbol } x.2 =
          compileLambda { h.context with selfSymbol := selfSymbol } x.2
  | _ => True

/-- A step that leaves no bytecode stale. -/
def Invalidates (h : Heap) (a : Action) : Prop :=
  (∀ b, h.SparesConstants b a) ∧ h.SparesLambdas a

section Steps

variable {h h' : Heap} {a : Action}

theorem Current.step (hok : Invalidates h a) (hstep : h.step a = some h')
    (hcontext : h'.context = h.context) {aux : Option Nat} {contents : List Cell}
    (hmade : ∀ b, aux = some b → b < h.objects.length)
    (hcurrent : h.Current aux contents) : h'.Current aux contents := by
  intro b hb
  obtain ⟨haux, hvalid⟩ := bytecodeOf_eq_some.mp hb
  have hlt := hmade b haux
  have hbefore := (step_keepsObjects hstep).valid b hlt hvalid
  obtain ⟨selfSymbol, bc, hcompile, hcode⟩ :=
    hcurrent b (bytecodeOf_eq_some.mpr ⟨haux, hbefore⟩)
  exact ⟨selfSymbol, bc, by rw [hcontext, hcompile],
    by rw [bytecode_step (hok.1 b) hstep hlt hvalid, hcode]⟩

/-- A step after which each lambda cell with an `aux` was there before, or has got
other contents and had no bytecode. -/
theorem Cached.of_lambdas (hcached : Cached h) (hok : Invalidates h a)
    (hstep : h.step a = some h') (hcontext : h'.context = h.context)
    (hlambdas : ∀ held ∈ h'.cells, ∀ x ∈ held.2.lambdas, x.1 ≠ none →
      (∃ held' ∈ h.cells, x ∈ held'.2.lambdas) ∨ x.2 ≠ [] ∧
        h.bytecodeOf x.1 = none ∧
        ∃ held' ∈ h.cells, ∃ cells, (x.1, cells) ∈ held'.2.lambdas) :
    Cached h' := by
  have hkeeps := step_keepsObjects hstep
  have hmade : ∀ held ∈ h'.cells, ∀ x ∈ held.2.lambdas, ∀ b, x.1 = some b →
      b < h.objects.length := by
    intro held hin x hx b hb
    rcases hlambdas held hin x hx (by simp [hb]) with
      ⟨held', hin', hx'⟩ | ⟨-, -, held', hin', cells, hx'⟩
    · exact hcached.made held' hin' x hx' b hb
    · exact hcached.made held' hin' _ hx' b hb
  refine ⟨fun held hin x hx b hb => ?_, fun held hin x hx hne => ?_,
    fun held hin x hx b hb => ?_, hkeeps.pooled hcached.pooled⟩
  · obtain ⟨haux, hvalid⟩ := bytecodeOf_eq_some.mp hb
    rcases hlambdas held hin x hx (by simp [haux]) with
      ⟨held', hin', hx'⟩ | ⟨-, hnone, -⟩
    · exact Current.step hok hstep hcontext (hcached.made held' hin' x hx')
        (hcached.coherent held' hin' x hx') b hb
    · have hlt := hmade held hin x hx b haux
      rw [bytecodeOf_eq_some.mpr ⟨haux, hkeeps.valid b hlt hvalid⟩] at hnone
      cases hnone
  · rcases hlambdas held hin x hx hne with ⟨held', hin', hx'⟩ | ⟨hfill, -⟩
    · exact hcached.filled held' hin' x hx' hne
    · exact hfill
  · exact Nat.lt_of_lt_of_le (hmade held hin x hx b hb) hkeeps.length

/-- Compiling gives a lambda cell the bytecode of its contents. -/
theorem Cached.compile {i : Nat} {path : List Nat} {aux : Option Nat}
    {cs : List HeapCell} {selfSymbol : Option Symbol} (hcached : Cached h)
    (hold : h.cellAt i path = some (.lambda aux cs))
    (hstep : h.step (.compile i path selfSymbol) =
      some (h.compile i path selfSymbol cs)) :
    Cached (h.compile i path selfSymbol cs) := by
  have hok : Invalidates h (.compile i path selfSymbol) :=
    ⟨fun _ => trivial, trivial⟩
  have hkeeps := step_keepsObjects hstep
  have hpooled := hkeeps.pooled hcached.pooled
  cases hbc : compileLambda { h.context with selfSymbol := selfSymbol }
      (HeapCell.plainList cs) with
  | value bc =>
    have hcode := bytecode_compile hcached.pooled hold hbc
    have hne : HeapCell.plainList cs ≠ [] := by
      intro hnil
      rw [hnil] at hbc
      cases hbc
    have hcontext : (h.compile i path selfSymbol cs).context = h.context := by
      rw [compile_eq hbc]
    have hlast : h.objects.length < (h.compile i path selfSymbol cs).objects.length := by
      rw [compile_eq hbc]
      simp
    have hlambdas : ∀ held ∈ (h.compile i path selfSymbol cs).cells,
        ∀ x ∈ held.2.lambdas, x.1 ≠ none →
        x = (some h.objects.length, HeapCell.plainList cs) ∨
          ∃ held' ∈ h.cells, x ∈ held'.2.lambdas := by
      intro held hheld x hx hxne
      rw [compile_eq hbc] at hheld
      rcases List.mem_append.mp hheld with hheld | hheld
      · rcases mem_lambdas_put hold hheld hx with hx | hx | ⟨-, -, -, -, hx⟩
        · rcases List.mem_cons.mp hx with rfl | hx
          · exact .inl rfl
          · exact .inr (lambdas_cellAt hold (List.mem_cons_of_mem _ hx))
        · exact .inr hx
        · exact absurd rfl hx
      · obtain ⟨c, -, rfl⟩ := List.mem_map.mp hheld
        exact absurd (HeapCell.lambdas_ofCell c x hx) hxne
    refine ⟨fun held hheld x hx b hb => ?_, fun held hheld x hx hxne => ?_,
      fun held hheld x hx b hb => ?_, hpooled⟩
    · obtain ⟨haux, -⟩ := bytecodeOf_eq_some.mp hb
      rcases hlambdas held hheld x hx (by simp [haux]) with
        rfl | ⟨held', hheld', hx'⟩
      · obtain rfl : h.objects.length = b := Option.some.inj haux
        exact ⟨selfSymbol, bc, by rw [hcontext, hbc], hcode⟩
      · exact Current.step hok hstep hcontext (hcached.made held' hheld' x hx')
          (hcached.coherent held' hheld' x hx') b hb
    · rcases hlambdas held hheld x hx hxne with rfl | ⟨held', hheld', hx'⟩
      · exact hne
      · exact hcached.filled held' hheld' x hx' hxne
    · rcases hlambdas held hheld x hx (by simp [hb]) with
        rfl | ⟨held', hheld', hx'⟩
      · exact Option.some.inj hb ▸ hlast
      · exact Nat.lt_of_lt_of_le (hcached.made held' hheld' x hx' b hb)
          hkeeps.length
  | error e => rwa [compile_refused hbc (by simp)]
  | undefined => rwa [compile_refused hbc (by simp)]
  | timeout => rwa [compile_refused hbc (by simp)]

theorem undo_overwrites {new c : HeapCell} {r : Edited}
    (happly : ListEdit.undo.apply new c = some r) :
    ListEdit.undo.overwrites c = true := by
  obtain ⟨cs, hcs, -⟩ := Option.bind_eq_some_iff.mp happly
  simp [ListEdit.overwrites, hcs, ListEdit.resets]

/-- An edit that leaves no bytecode around it or on its list. -/
theorem lambdas_edit {i : Nat} {path : List Nat} {e : ListEdit} {h₂ : Heap}
    {deleted : List HeapCell} (hok : SparesLambdas h (.edit i path e))
    (hedit : h.editList i path e = some (h₂, deleted))
    {held : Option Nat × HeapCell} (hheld : held ∈ h₂.cells)
    {x : Option Nat × List Cell} (hx : x ∈ held.2.lambdas) (hne : x.1 ≠ none) :
    (∃ held' ∈ h.cells, x ∈ held'.2.lambdas) ∨ x.2 ≠ [] ∧
      h.bytecodeOf x.1 = none ∧
      ∃ held' ∈ h.cells, ∃ cells, (x.1, cells) ∈ held'.2.lambdas := by
  obtain ⟨h₁, new, c, r, hedits, rfl, rfl⟩ := editList_cases hedit
  rcases hedits.lambdas hheld hx hne with
    hx | ⟨hfill, ⟨haux, hover⟩ | ⟨held', hi', haux, hplain⟩⟩
  · exact .inl hx
  · refine .inr ⟨hfill, ?_, ?_⟩
    · rcases hok with rfl | ⟨-, hok⟩
      · rw [undo_overwrites hedits.apply] at hover
        cases hover
      · rw [haux]
        rcases hok c hedits.cellAt with hok | hok
        · rw [hok] at hover
          cases hover
        · exact hok
    · cases c with
      | lambda aux cs =>
          obtain ⟨held, hheld, hcs⟩ := lambdas_cellAt hedits.cellAt
            (List.mem_cons_self (a := (aux, HeapCell.plainList cs)))
          exact ⟨held, hheld, HeapCell.plainList cs, haux ▸ hcs⟩
      | _ => exact absurd haux hne
  · obtain ⟨cells, hcells⟩ := HeapCell.mem_around haux
    refine .inr ⟨hfill, ?_, held', List.mem_of_getElem? hi', cells, hcells⟩
    rcases hok with rfl | ⟨houtside, -⟩
    · exact absurd (undo_plain hedits.apply) hplain
    · exact houtside held' hi' x.1 haux

/-- So does a swap of two cells. -/
theorem lambdas_swap {i j : Nat} {path path' : List Nat}
    (hok : SparesLambdas h (.swap i path j path'))
    (hswap : h.swap i path j path' = some h')
    {held : Option Nat × HeapCell} (hheld : held ∈ h'.cells)
    {x : Option Nat × List Cell} (hx : x ∈ held.2.lambdas) :
    (∃ held' ∈ h.cells, x ∈ held'.2.lambdas) ∨ x.2 ≠ [] ∧
      h.bytecodeOf x.1 = none ∧
      ∃ held' ∈ h.cells, ∃ cells, (x.1, cells) ∈ held'.2.lambdas := by
  obtain ⟨c, d, hswaps, rfl⟩ := swap_cases hswap
  obtain ⟨hfirst, hsecond⟩ := hok
  rcases hswaps.lambdas hheld hx with
    hx | ⟨hfill, ⟨held', hi, haux⟩ | ⟨held', hj, haux⟩⟩
  · exact .inl hx
  · obtain ⟨cells, hcells⟩ := HeapCell.mem_around haux
    exact .inr ⟨hfill, hfirst held' hi x.1 haux, held',
      List.mem_of_getElem? hi, cells, hcells⟩
  · obtain ⟨cells, hcells⟩ := HeapCell.mem_around haux
    exact .inr ⟨hfill, hsecond held' hj x.1 haux, held',
      List.mem_of_getElem? hj, cells, hcells⟩

theorem Cached.redefine {context : CompileContext} (hcached : Cached h)
    (hok : SparesLambdas h (.redefine context)) :
    Cached { h with context := context } := by
  refine ⟨fun held hheld x hx b hb => ?_, hcached.filled, hcached.made,
    hcached.pooled⟩
  obtain ⟨selfSymbol, bc, hcompile, hcode⟩ := hcached.coherent held hheld x hx b hb
  have hne : h.bytecodeOf x.1 ≠ none := by
    intro hnone
    have hb' : h.bytecodeOf x.1 = some b := hb
    rw [hnone] at hb'
    cases hb'
  exact ⟨selfSymbol, bc, (hok held hheld x hx hne selfSymbol).trans hcompile,
    hcode⟩

theorem Cached.deleteSymbol {s : Symbol} (hcached : Cached h)
    (hok : Invalidates h (.deleteSymbol s))
    (hstep : h.step (.deleteSymbol s) = some h')
    (hcontext : h'.context = h.context) (hobj : h'.objects = h.objects)
    (hcells : h'.cells = h.cells.map fun held => (held.1, held.2.unlink s)) :
    Cached h' := by
  have hlambdas : ∀ held ∈ h'.cells, ∀ x ∈ held.2.lambdas,
      ∃ held' ∈ h.cells, ∃ y ∈ held'.2.lambdas, x.1 = y.1 ∧
        (s ∉ Cell.symbolsList y.2 → x.2 = y.2) := by
    intro held hheld x hx
    rw [hcells] at hheld
    obtain ⟨held', hheld', rfl⟩ := List.mem_map.mp hheld
    obtain ⟨y, hy, hxy⟩ := HeapCell.lambdas_unlink held'.2 hx
    exact ⟨held', hheld', y, hy, hxy⟩
  refine ⟨fun held hheld x hx b hb => ?_, fun held hheld => ?_,
    fun held hheld x hx b hb => ?_,
    (step_keepsObjects hstep).pooled hcached.pooled⟩
  · obtain ⟨held', hheld', y, hy, haux, hcontents⟩ := hlambdas held hheld x hx
    obtain ⟨hsome, hvalid⟩ := bytecodeOf_eq_some.mp hb
    rw [haux] at hsome
    have hne : h.bytecodeOf y.1 ≠ none := by
      rw [valid_objects hobj] at hvalid
      rw [bytecodeOf_eq_some.mpr ⟨hsome, hvalid⟩]
      exact Option.some_ne_none b
    have hcurrent := Current.step hok hstep hcontext
      (hcached.made held' hheld' y hy) (hcached.coherent held' hheld' y hy)
    rw [hcontents (hok.2 held' hheld' y hy hne)]
    exact hcurrent b (haux ▸ hb)
  · rw [hcells] at hheld
    obtain ⟨held', hheld', rfl⟩ := List.mem_map.mp hheld
    exact HeapCell.filled_unlink s held'.2 (hcached.filled held' hheld')
  · obtain ⟨held', hheld', y, hy, haux, -⟩ := hlambdas held hheld x hx
    rw [hobj]
    exact hcached.made held' hheld' y hy b (haux ▸ hb)

/-- What one step preserves. -/
theorem Cached.step (hcached : Cached h) (hok : Invalidates h a)
    (hstep : h.step a = some h') : Cached h' := by
  have hbefore : ∀ {h' : Heap}, h.step a = some h' → h'.context = h.context →
      (∀ held ∈ h'.cells, ∀ x ∈ held.2.lambdas, x.1 ≠ none →
        ∃ held' ∈ h.cells, x ∈ held'.2.lambdas) → Cached h' :=
    fun hstep hcontext hlambdas =>
      hcached.of_lambdas hok hstep hcontext fun held hheld x hx hne =>
        .inl (hlambdas held hheld x hx hne)
  cases a with
  | intern s =>
      refine hbefore hstep ?_ fun held hheld x hx _ => ?_ <;> cases hstep
      · rfl
      · exact ⟨held, hheld, hx⟩
  | create c =>
      have hcreate := hstep
      simp only [Heap.step] at hstep
      split at hstep
      · cases hstep
        refine hbefore hcreate rfl fun held hheld x hx hne => ?_
        rcases mem_push _ hheld with hheld | ⟨-, hheld⟩
        · exact ⟨held, hheld, hx⟩
        · rw [List.mem_singleton.mp hheld] at hx
          exact absurd (HeapCell.lambdas_ofCell c x hx) hne
      · cases hstep
  | copy i path =>
      have hcopy := hstep
      obtain ⟨c, hc, hstep⟩ := Option.bind_eq_some_iff.mp hstep
      cases hstep
      have hfilled : c.Filled := by
        intro x hx
        obtain ⟨held, hheld, hx⟩ := lambdas_cellAt hc hx
        exact hcached.filled held hheld x hx
      obtain ⟨hadds, hcopies⟩ := copyCell_spec h c hfilled
      refine hbefore hcopy hadds.context fun held hheld x hx hne => ?_
      rcases mem_push _ hheld with hheld | ⟨-, hheld⟩
      · exact ⟨held, hadds.cells ▸ hheld, hx⟩
      · rw [List.mem_singleton.mp hheld] at hx
        exact lambdas_cellAt hc (hcopies.lambdas x hx hne)
  | delete i =>
      have hdelete := hstep
      obtain ⟨c, -, hstep⟩ := Option.bind_eq_some_iff.mp hstep
      cases hstep
      have hshrinks := deleteList_shrinks (h.erase i) [c]
      exact hbefore hdelete hshrinks.context fun held hheld x hx _ =>
        ⟨held, mem_erase (hshrinks.cells held hheld), hx⟩
  | collect i =>
      have hcollect := hstep
      obtain ⟨c, -, hstep⟩ := Option.bind_eq_some_iff.mp hstep
      cases hstep
      exact hbefore hcollect rfl fun held hheld x hx _ => ⟨held, mem_erase hheld, hx⟩
  | compile i path selfSymbol =>
      have hcompile := hstep
      simp only [Heap.step] at hstep
      split at hstep
      · rename_i aux cs hold
        split at hstep
        · cases hstep
          exact hcached.compile hold hcompile
        · cases hstep
      · cases hstep
  | edit i path e =>
      have hedit := hstep
      obtain ⟨⟨h₂, deleted⟩, hlist, hstep⟩ := Option.bind_eq_some_iff.mp hstep
      cases hstep
      have hshrinks := deleteList_shrinks h₂ deleted
      have hcontext : h₂.context = h.context := by
        obtain ⟨h₁, new, c, r, hedits, rfl, -⟩ := editList_cases hlist
        exact hedits.context
      exact hcached.of_lambdas hok hedit (hshrinks.context.trans hcontext)
        fun held hheld x hx hne =>
          lambdas_edit hok.2 hlist (hshrinks.cells held hheld) hx hne
  | swap i path j path' =>
      have hcontext : h'.context = h.context := by
        obtain ⟨c, d, -, rfl⟩ := swap_cases hstep
        rfl
      exact hcached.of_lambdas hok hstep hcontext fun held hheld x hx _ =>
        lambdas_swap hok.2 hstep hheld hx
  | enter i path =>
      have henter := hstep
      obtain ⟨b, -, hstep⟩ := Option.bind_eq_some_iff.mp hstep
      cases hstep
      exact hbefore henter rfl fun held hheld x hx _ => ⟨held, hheld, hx⟩
  | tailCall i path =>
      have hcall := hstep
      obtain ⟨b, -, hstep⟩ := Option.bind_eq_some_iff.mp hstep
      split at hstep
      · cases hstep
      · cases hstep
        exact hbefore hcall rfl fun held hheld x hx _ => ⟨held, hheld, hx⟩
  | leave =>
      have hleave := hstep
      simp only [Heap.step] at hstep
      split at hstep
      · cases hstep
      · cases hstep
        exact hbefore hleave rfl fun held hheld x hx _ => ⟨held, hheld, hx⟩
  | deleteSymbol s =>
      have hdelete := hstep
      simp only [Heap.step] at hstep
      split at hstep
      · cases hstep
      · cases hstep
        exact hcached.deleteSymbol hok hdelete rfl rfl rfl
  | redefine context =>
      cases hstep
      exact hcached.redefine hok.2

end Steps

theorem cached_start (context : CompileContext) (symbols : List Symbol) :
    Cached (start context symbols) := by
  constructor
  · intro held hheld
    cases hheld
  · intro held hheld
    cases hheld
  · intro held hheld
    cases hheld
  · intro held hheld
    cases hheld

/-- `(lambda (s) (s '(3 1 2)))`. -/
def sorterFn : List Cell :=
  [.expression [.symbol (mainSymbol "s")],
    .expression [.symbol (mainSymbol "s"),
      .quote (.expression [.long 3, .long 1, .long 2])]]

end Heap

end NewLispNeo
