/-
Cells with the bytecode that lambda cells own: a lambda is a list like any other,
and its `aux` may point to a `BYTECODE_OBJ`.
-/
import NewLispNeo.Compiler

namespace NewLispNeo

/-- `isEnvelope(cell->type)`: other cells hang off the cell. -/
def isEnvelope : Cell → Bool
  | .quote _ | .expression _ | .lambda _ _ | .fexpr _ | .array _ => true
  | _ => false

/-- A cell that no other cells hang off. -/
abbrev Atom := { cell : Cell // isEnvelope cell = false }

theorem not_isEnvelope_nil : isEnvelope .nil = false := rfl

/-- The envelopes that are no quote and no lambda. -/
inductive ListType where
  | expression
  | fexpr
  | array
deriving DecidableEq

/-- A `CELL` in memory.  The `aux` of a lambda cell is the number of its
`BYTECODE_OBJ`; `none` is `nilCell` or a pointer to the last element. -/
inductive HeapCell where
  | atom (cell : Atom)
  | quote (contents : HeapCell)
  | list (type : ListType) (contents : List HeapCell)
  | lambda (aux : Option Nat) (contents : List HeapCell)

def ListType.cell : ListType → List Cell → Cell
  | .expression, cells => .expression cells
  | .fexpr, cells => .fexpr cells
  | .array, cells => .array cells

namespace HeapCell

mutual

/-- The cell as the compiler and the tree-walker see it. -/
def plain : HeapCell → Cell
  | .atom cell => cell
  | .quote c => .quote c.plain
  | .list type cs => type.cell (plainList cs)
  | .lambda _ cs => .lambda none (plainList cs)

def plainList : List HeapCell → List Cell
  | [] => []
  | c :: cs => c.plain :: plainList cs

end

mutual

/-- A copy in memory of a cell without bytecode. -/
def ofCell : Cell → HeapCell
  | .quote c => .quote (ofCell c)
  | .expression cs => .list .expression (ofCells cs)
  | .lambda _ cs => .lambda none (ofCells cs)
  | .fexpr cs => .list .fexpr (ofCells cs)
  | .array cs => .list .array (ofCells cs)
  | .nil => .atom ⟨.nil, rfl⟩
  | .true_ => .atom ⟨.true_, rfl⟩
  | .long n => .atom ⟨.long n, rfl⟩
  | .bigint n => .atom ⟨.bigint n, rfl⟩
  | .float x => .atom ⟨.float x, rfl⟩
  | .string s => .atom ⟨.string s, rfl⟩
  | .symbol s => .atom ⟨.symbol s, rfl⟩
  | .context s => .atom ⟨.context s, rfl⟩
  | .primitive p => .atom ⟨.primitive p, rfl⟩
  | .dynSymbol s n => .atom ⟨.dynSymbol s n, rfl⟩

def ofCells : List Cell → List HeapCell
  | [] => []
  | c :: cs => ofCell c :: ofCells cs

end

mutual

/-- The lambda cells in a cell, each as its `aux` and its contents. -/
def lambdas : HeapCell → List (Option Nat × List Cell)
  | .atom _ => []
  | .quote c => c.lambdas
  | .list _ cs => lambdasList cs
  | .lambda aux cs => (aux, plainList cs) :: lambdasList cs

def lambdasList : List HeapCell → List (Option Nat × List Cell)
  | [] => []
  | c :: cs => c.lambdas ++ lambdasList cs

end

/-- The lambda cells in a cell that own the object `b`. -/
def owners (b : Nat) (c : HeapCell) : Nat :=
  c.lambdas.countP (·.1 = some b)

def ownersList (b : Nat) (cs : List HeapCell) : Nat :=
  (lambdasList cs).countP (·.1 = some b)

mutual

/-- The number of cells. -/
def size : HeapCell → Nat
  | .atom _ => 1
  | .quote c => c.size + 1
  | .list _ cs => sizeList cs + 1
  | .lambda _ cs => sizeList cs + 1

def sizeList : List HeapCell → Nat
  | [] => 0
  | c :: cs => c.size + sizeList cs

end

@[simp] theorem plainList_eq_map (cs : List HeapCell) :
    plainList cs = cs.map plain := by
  induction cs with
  | nil => rfl
  | cons c cs ih => rw [plainList, ih, List.map_cons]

@[simp] theorem lambdasList_append (cs ds : List HeapCell) :
    lambdasList (cs ++ ds) = lambdasList cs ++ lambdasList ds := by
  induction cs with
  | nil => rfl
  | cons c cs ih =>
      rw [List.cons_append, lambdasList, ih, lambdasList, List.append_assoc]

@[simp] theorem sizeList_append (cs ds : List HeapCell) :
    sizeList (cs ++ ds) = sizeList cs + sizeList ds := by
  induction cs with
  | nil => simp [sizeList]
  | cons c cs ih =>
      rw [List.cons_append, sizeList, ih, sizeList, Nat.add_assoc]

theorem mem_lambdasList {x : Option Nat × List Cell} {cs : List HeapCell} :
    x ∈ lambdasList cs ↔ ∃ c ∈ cs, x ∈ c.lambdas := by
  induction cs with
  | nil => simp [lambdasList]
  | cons c cs ih => simp [lambdasList, ih]

section Owners

variable (b : Nat)

@[simp] theorem ownersList_nil : ownersList b [] = 0 := rfl

@[simp] theorem ownersList_cons (c : HeapCell) (cs : List HeapCell) :
    ownersList b (c :: cs) = c.owners b + ownersList b cs := by
  simp [ownersList, lambdasList, owners]

@[simp] theorem ownersList_append (cs ds : List HeapCell) :
    ownersList b (cs ++ ds) = ownersList b cs + ownersList b ds := by
  simp [ownersList]

@[simp] theorem owners_atom (cell : Atom) : owners b (.atom cell) = 0 := rfl

@[simp] theorem owners_quote (c : HeapCell) :
    owners b (.quote c) = c.owners b := rfl

@[simp] theorem owners_list (type : ListType) (cs : List HeapCell) :
    owners b (.list type cs) = ownersList b cs := rfl

@[simp] theorem owners_lambda (aux : Option Nat) (cs : List HeapCell) :
    owners b (.lambda aux cs) = ownersList b cs + if aux = some b then 1 else 0 := by
  simp [owners, lambdas, ownersList, List.countP_cons]

theorem ownersList_perm {cs ds : List HeapCell} (h : cs.Perm ds) :
    ownersList b cs = ownersList b ds := by
  induction h with
  | nil => rfl
  | cons c _ ih => simp [ih]
  | swap c d cs => simp [Nat.add_left_comm]
  | trans _ _ ih₁ ih₂ => rw [ih₁, ih₂]

end Owners

theorem owners_pos {b : Nat} {c : HeapCell} :
    0 < c.owners b ↔ ∃ cells, (some b, cells) ∈ c.lambdas := by
  simp [owners, List.countP_pos_iff]

mutual

theorem lambdas_ofCell (c : Cell) :
    ∀ x ∈ (ofCell c).lambdas, x.1 = none := by
  cases c with
  | quote c => exact lambdas_ofCell c
  | expression cs => exact lambdas_ofCells cs
  | fexpr cs => exact lambdas_ofCells cs
  | array cs => exact lambdas_ofCells cs
  | lambda s cs =>
      intro x hx
      rcases List.mem_cons.mp hx with rfl | hx
      · rfl
      · exact lambdas_ofCells cs x hx
  | _ => intro x hx; cases hx

theorem lambdas_ofCells (cs : List Cell) :
    ∀ x ∈ lambdasList (ofCells cs), x.1 = none := by
  cases cs with
  | nil => intro x hx; cases hx
  | cons c cs =>
      intro x hx
      rcases List.mem_append.mp hx with hx | hx
      · exact lambdas_ofCell c x hx
      · exact lambdas_ofCells cs x hx

end

theorem owners_ofCell (b : Nat) (c : Cell) : (ofCell c).owners b = 0 := by
  refine List.countP_eq_zero.mpr fun x hx => ?_
  simp [lambdas_ofCell c x hx]

/-- The cell at the end of a path of positions. -/
def at_ : List Nat → HeapCell → Option HeapCell
  | [], c => some c
  | _ :: path, .quote c => at_ path c
  | i :: path, .list _ cs | i :: path, .lambda _ cs => cs[i]?.bind (at_ path)
  | _ :: _, .atom _ => none

/-- Write another cell over it. -/
def put (new : HeapCell) : List Nat → HeapCell → HeapCell
  | [], _ => new
  | _ :: path, .quote c => .quote (put new path c)
  | i :: path, .list type cs => .list type (cs.modify i (put new path))
  | i :: path, .lambda aux cs => .lambda aux (cs.modify i (put new path))
  | _ :: _, .atom cell => .atom cell

/-- The `aux` of the lambda cells around it. -/
def around : List Nat → HeapCell → List (Option Nat)
  | [], _ => []
  | _ :: path, .quote c => around path c
  | i :: path, .list _ cs => (cs[i]?.map (around path)).getD []
  | i :: path, .lambda aux cs => aux :: (cs[i]?.map (around path)).getD []
  | _ :: _, .atom _ => []

/-- Neither of two paths leads to the other's end or through it. -/
def apart : List Nat → List Nat → HeapCell → Bool
  | _ :: path, _ :: path', .quote c => apart path path' c
  | i :: path, j :: path', .list _ cs | i :: path, j :: path', .lambda _ cs =>
      if i = j then (cs[i]?.map (apart path path')).getD false else true
  | _, _, _ => false

section Modify

variable {cs : List HeapCell} {i : Nat} {c : HeapCell} {f : HeapCell → HeapCell}

theorem ownersList_modify (b : Nat) (h : cs[i]? = some c) :
    ownersList b (cs.modify i f) + c.owners b =
      ownersList b cs + (f c).owners b := by
  induction cs generalizing i with
  | nil => cases h
  | cons d cs ih =>
      cases i with
      | zero =>
          obtain rfl : d = c := by simpa using h
          simp only [List.modify_zero_cons, ownersList_cons]
          omega
      | succ i =>
          have hmodify := ih (i := i) (by simpa using h)
          simp only [List.modify_succ_cons, ownersList_cons]
          omega

theorem mem_lambdasList_modify {x : Option Nat × List Cell}
    (h : cs[i]? = some c) (hx : x ∈ lambdasList (cs.modify i f)) :
    x ∈ (f c).lambdas ∨ x ∈ lambdasList cs := by
  induction cs generalizing i with
  | nil => cases h
  | cons d cs ih =>
      cases i with
      | zero =>
          obtain rfl : d = c := by simpa using h
          simp only [List.modify_zero_cons, lambdasList, List.mem_append] at hx ⊢
          exact hx.imp_right .inr
      | succ i =>
          simp only [List.modify_succ_cons, lambdasList, List.mem_append] at hx ⊢
          rcases hx with hx | hx
          · exact .inr (.inl hx)
          · exact (ih (by simpa using h) hx).imp_right .inr

theorem map_plain_modify (h : cs[i]? = some c) (hf : (f c).plain = c.plain) :
    (cs.modify i f).map plain = cs.map plain := by
  induction cs generalizing i with
  | nil => cases h
  | cons d cs ih =>
      cases i with
      | zero =>
          obtain rfl : d = c := by simpa using h
          simp [hf]
      | succ i =>
          rw [List.modify_succ_cons, List.map_cons, List.map_cons,
            ih (by simpa using h)]

end Modify

section Put

variable {new old : HeapCell} {path : List Nat} {c : HeapCell}

attribute [local simp] at_ put around in
/-- Writing over a cell takes its owners away and adds those of the new one. -/
theorem owners_put (b : Nat) (h : at_ path c = some old) :
    (put new path c).owners b + old.owners b = c.owners b + new.owners b := by
  induction path generalizing c with
  | nil =>
      obtain rfl : c = old := by simpa [at_] using h
      exact Nat.add_comm _ _
  | cons i path ih =>
      cases c with
      | atom cell => cases h
      | quote c => exact ih h
      | list type cs =>
          obtain ⟨d, hd, hold⟩ := Option.bind_eq_some_iff.mp h
          have hmodify := ownersList_modify (f := put new path) b hd
          have hput := ih hold
          simp only [put, owners_list]
          omega
      | lambda aux cs =>
          obtain ⟨d, hd, hold⟩ := Option.bind_eq_some_iff.mp h
          have hmodify := ownersList_modify (f := put new path) b hd
          have hput := ih hold
          simp only [put, owners_lambda]
          omega

theorem plain_put (h : at_ path c = some old) (hnew : new.plain = old.plain) :
    (put new path c).plain = c.plain := by
  induction path generalizing c with
  | nil =>
      obtain rfl : c = old := by simpa [at_] using h
      exact hnew
  | cons i path ih =>
      cases c with
      | atom cell => cases h
      | quote c => exact congrArg Cell.quote (ih h)
      | list type cs =>
          obtain ⟨d, hd, hold⟩ := Option.bind_eq_some_iff.mp h
          simp only [put, plain, plainList_eq_map]
          rw [map_plain_modify hd (ih hold)]
      | lambda aux cs =>
          obtain ⟨d, hd, hold⟩ := Option.bind_eq_some_iff.mp h
          simp only [put, plain, plainList_eq_map]
          rw [map_plain_modify hd (ih hold)]

/-- A lambda cell after the write was there before, or is in the new cell, or is
around it. -/
theorem mem_lambdas_put {x : Option Nat × List Cell}
    (h : at_ path c = some old) (hx : x ∈ (put new path c).lambdas) :
    x ∈ new.lambdas ∨ x ∈ c.lambdas ∨
      (x.1 ∈ around path c ∧ x.2 ≠ [] ∧ new.plain ≠ old.plain) := by
  induction path generalizing c with
  | nil => exact .inl hx
  | cons i path ih =>
      cases c with
      | atom cell => cases h
      | quote c => exact ih h hx
      | list type cs =>
          obtain ⟨d, hd, hold⟩ := Option.bind_eq_some_iff.mp h
          rcases mem_lambdasList_modify hd hx with hx | hx
          · rcases ih hold hx with hx | hx | hx
            · exact .inl hx
            · exact .inr (.inl (mem_lambdasList.mpr
                ⟨d, List.mem_of_getElem? hd, hx⟩))
            · exact .inr (.inr (by simpa [around, hd] using hx))
          · exact .inr (.inl hx)
      | lambda aux cs =>
          obtain ⟨d, hd, hold⟩ := Option.bind_eq_some_iff.mp h
          rcases List.mem_cons.mp hx with rfl | hx
          · by_cases hplain : new.plain = old.plain
            · have hsame := map_plain_modify hd
                (f := put new path) (plain_put hold hplain)
              refine .inr (.inl ?_)
              simp [lambdas, hsame]
            · refine .inr (.inr ⟨by simp [around], ?_, hplain⟩)
              have hlen := (List.getElem?_eq_some_iff.mp hd).1
              refine List.ne_nil_of_length_pos ?_
              simp only [plainList_eq_map, List.length_map, List.length_modify]
              exact Nat.zero_lt_of_lt hlen
          rcases mem_lambdasList_modify hd hx with hx | hx
          · rcases ih hold hx with hx | hx | ⟨hx, hne, hplain⟩
            · exact .inl hx
            · exact .inr (.inl (List.mem_cons_of_mem _ (mem_lambdasList.mpr
                ⟨d, List.mem_of_getElem? hd, hx⟩)))
            · exact .inr (.inr ⟨by simp [around, hd, hx], hne, hplain⟩)
          · exact .inr (.inl (List.mem_cons_of_mem _ hx))

/-- A write leaves what stands apart from it, and the lambda cells around that. -/
theorem at_put_apart {path' : List Nat} (h : apart path path' c = true) :
    at_ path' (put new path c) = at_ path' c ∧
      around path' (put new path c) = around path' c := by
  induction path generalizing path' c with
  | nil => cases path' <;> cases c <;> cases h
  | cons i path ih =>
      cases path' with
      | nil => cases c <;> cases h
      | cons j path' =>
          have hmodify : ∀ {cs : List HeapCell},
              (if i = j then (cs[i]?.map (apart path path')).getD false
                else true) = true →
              ((cs.modify i (put new path))[j]?.bind (at_ path') =
                cs[j]?.bind (at_ path')) ∧
              ((cs.modify i (put new path))[j]?.map (around path')) =
                cs[j]?.map (around path') := by
            intro cs happart
            by_cases hij : i = j
            · subst hij
              cases hd : cs[i]? with
              | none => simp [hd]
              | some d =>
                  have hd' : apart path path' d = true := by simpa [hd] using happart
                  obtain ⟨hat, haround⟩ := ih hd'
                  simp [hd, hat, haround]
            · simp [hij]
          cases c with
          | atom cell => exact ⟨rfl, rfl⟩
          | quote c => exact ih h
          | list type cs =>
              obtain ⟨hat, haround⟩ := hmodify h
              exact ⟨hat, congrArg (Option.getD · []) haround⟩
          | lambda aux cs =>
              obtain ⟨hat, haround⟩ := hmodify h
              exact ⟨hat, congrArg (aux :: Option.getD · []) haround⟩

theorem mem_around {aux : Option Nat} (h : aux ∈ around path c) :
    ∃ cells, (aux, cells) ∈ c.lambdas := by
  induction path generalizing c with
  | nil => cases h
  | cons i path ih =>
      cases c with
      | atom cell => cases h
      | quote c =>
          have hin : ∃ cells, (aux, cells) ∈ c.lambdas := ih h
          exact hin
      | list type cs =>
          cases hd : cs[i]? with
          | none => simp [around, hd] at h
          | some d =>
              obtain ⟨cells, hcells⟩ := ih (c := d) (by simpa [around, hd] using h)
              exact ⟨cells, mem_lambdasList.mpr
                ⟨d, List.mem_of_getElem? hd, hcells⟩⟩
      | lambda aux' cs =>
          rcases List.mem_cons.mp h with rfl | h
          · exact ⟨_, List.mem_cons_self⟩
          · cases hd : cs[i]? with
            | none => simp [hd] at h
            | some d =>
                obtain ⟨cells, hcells⟩ := ih (c := d) (by simpa [hd] using h)
                exact ⟨cells, List.mem_cons_of_mem _ (mem_lambdasList.mpr
                  ⟨d, List.mem_of_getElem? hd, hcells⟩)⟩

/-- The lambda cells at a path are among those of the whole. -/
theorem lambdas_at {x : Option Nat × List Cell} (h : at_ path c = some old)
    (hx : x ∈ old.lambdas) : x ∈ c.lambdas := by
  induction path generalizing c with
  | nil =>
      obtain rfl : c = old := by simpa [at_] using h
      exact hx
  | cons i path ih =>
      cases c with
      | atom cell => cases h
      | quote c =>
          have hin : x ∈ c.lambdas := ih h
          exact hin
      | list type cs =>
          obtain ⟨d, hd, hold⟩ := Option.bind_eq_some_iff.mp h
          exact mem_lambdasList.mpr ⟨d, List.mem_of_getElem? hd, ih hold⟩
      | lambda aux cs =>
          obtain ⟨d, hd, hold⟩ := Option.bind_eq_some_iff.mp h
          exact List.mem_cons_of_mem _ (mem_lambdasList.mpr
            ⟨d, List.mem_of_getElem? hd, ih hold⟩)

end Put

end HeapCell

end NewLispNeo
