/-
When `freeCellBlocks` leaves exactly the blocks with a used cell and their free cells.
-/
import NewLispNeo.CellBlocks

namespace NewLispNeo

namespace CellBlocks

variable {M : CellMemory} {b b' k n i : Nat} {a : Addr} {bs : List Nat}

/-! ### Lists of cells -/

section Lists

variable {α : Type} {dst : α → Addr} {next next' : Addr → Option Addr} {l : List α} {x : α}

/-- The links inside of a list do not depend on that of its last cell. -/
theorem isChain_congr (src : α → Addr) (h : l.IsChain fun a a' => next (src a) = some (dst a'))
    (hnodup : l.Nodup) (hlast : x ∈ l.getLast?)
    (hnext : ∀ a, a ≠ x → next' (src a) = next (src a)) :
    l.IsChain fun a a' => next' (src a) = some (dst a') := by
  induction l with
  | nil => exact .nil
  | cons y l ih =>
      cases l with
      | nil => exact .singleton y
      | cons z l =>
          rw [List.getLast?_cons_cons] at hlast
          obtain ⟨hlink, hrest⟩ := List.isChain_cons_cons.mp h
          obtain ⟨hy, hnodup⟩ := List.nodup_cons.mp hnodup
          have hne : y ≠ x := by
            rintro rfl
            exact hy (List.mem_of_getLast? hlast)
          refine List.isChain_cons_cons.mpr ⟨?_, ih hrest hnodup hlast⟩
          rw [hnext y hne]
          exact hlink

theorem linkCell_injective : Function.Injective linkCell := by
  intro b b' h
  exact congrArg Addr.block h

theorem freeFrom_zero (M : CellMemory) (b i : Nat) : freeFrom M b 0 i = [] := rfl

theorem freeFrom_succ (M : CellMemory) (b n i : Nat) :
    freeFrom M b (n + 1) i =
      if M.free ⟨b, i⟩ then ⟨b, i⟩ :: freeFrom M b n (i + 1) else freeFrom M b n (i + 1) := rfl

theorem mem_freeFrom (h : a ∈ freeFrom M b n i) :
    a.block = b ∧ i ≤ a.index ∧ a.index < i + n := by
  induction n generalizing i with
  | zero => cases h
  | succ n ih =>
      rw [freeFrom_succ] at h
      split at h
      · rcases List.mem_cons.mp h with rfl | h
        · exact ⟨rfl, Nat.le_refl _, by simp⟩
        · obtain ⟨hblock, hle, hlt⟩ := ih h
          exact ⟨hblock, by omega, by omega⟩
      · obtain ⟨hblock, hle, hlt⟩ := ih h
        exact ⟨hblock, by omega, by omega⟩

theorem mem_freeCells (h : a ∈ freeCells M b) : a.block = b ∧ a.index < maxBlock := by
  obtain ⟨hblock, -, hlt⟩ := mem_freeFrom h
  exact ⟨hblock, by omega⟩

theorem freeFrom_free (h : M.free ⟨b, i⟩ = true) :
    freeFrom M b (n + 1) i = ⟨b, i⟩ :: freeFrom M b n (i + 1) := if_pos h

theorem freeFrom_used (h : M.free ⟨b, i⟩ = false) :
    freeFrom M b (n + 1) i = freeFrom M b n (i + 1) := if_neg (by simp [h])

theorem freeFrom_congr {M' : CellMemory} (h : M'.free = M.free) (n i : Nat) :
    freeFrom M' b n i = freeFrom M b n i := by
  induction n generalizing i with
  | zero => rfl
  | succ n ih => rw [freeFrom_succ, freeFrom_succ, h, ih]

theorem length_freeFrom_le : (freeFrom M b n i).length ≤ n := by
  induction n generalizing i with
  | zero => exact Nat.le_refl 0
  | succ n ih =>
      have hle := @ih (i + 1)
      rw [freeFrom_succ]
      split
      · rw [List.length_cons]
        omega
      · omega

theorem maxBlock_pos : 0 < maxBlock := by decide

/-- A block without a used cell has free cells. -/
theorem freeCells_ne_nil (h : used M b = false) : freeCells M b ≠ [] := by
  have hlen : (freeCells M b).length = maxBlock := by simpa [used] using h
  have hpos := maxBlock_pos
  exact List.ne_nil_of_length_pos (by omega)

end Lists

/-! ### One block -/

section Block

variable {v v' : Freeing} {F : List Addr}

/-- The list of free cells while it is made: its last cell has no end yet. -/
structure Threaded (v : Freeing) (F : List Addr) : Prop where
  first : v.firstFreeCell = F.head?
  last : v.lastFreeCell = F.getLast?
  links : F.IsChain fun a a' => v.memory.next a = some a'
  nodup : F.Nodup
  cell : ∀ a ∈ F, v.memory.live a.block = true ∧ a.index < maxBlock

/-- Only links of free cells and the list of free cells differ. -/
structure SameBlocks (v v' : Freeing) : Prop where
  free : v'.memory.free = v.memory.free
  live : v'.memory.live = v.memory.live
  next : ∀ b, v'.memory.next (linkCell b) = v.memory.next (linkCell b)
  cellBlock : v'.cellBlock = v.cellBlock
  lastBlockPtr : v'.lastBlockPtr = v.lastBlockPtr
  blockCount : v'.blockCount = v.blockCount

theorem SameBlocks.refl (v : Freeing) : SameBlocks v v := ⟨rfl, rfl, fun _ => rfl, rfl, rfl, rfl⟩

theorem SameBlocks.trans {v'' : Freeing} (h : SameBlocks v v') (h' : SameBlocks v' v'') :
    SameBlocks v v'' :=
  ⟨h'.free.trans h.free, h'.live.trans h.live, fun b => (h'.next b).trans (h.next b),
    h'.cellBlock.trans h.cellBlock, h'.lastBlockPtr.trans h.lastBlockPtr,
    h'.blockCount.trans h.blockCount⟩

theorem valid_iff : M.valid a = true ↔ M.live a.block = true ∧ a.index ≤ maxBlock := by
  simp [CellMemory.valid]

theorem isFree_valid (h : M.valid a = true) : M.isFree a = .value (M.free a) := if_pos h

theorem setNext_some (h : M.valid a = true) (q : Option Addr) :
    M.setNext (some a) q = .value { M with next := Function.update M.next a q } :=
  if_pos h

theorem getNext_some (h : M.valid a = true) : M.getNext (some a) = .value (M.next a) :=
  if_pos h

/-- One free cell more. -/
theorem link_eq (h : Threaded v F) (ha : a ∉ F) (hlive : v.memory.live a.block = true)
    (hlt : a.index < maxBlock) :
    ∃ v', link v a = .value v' ∧ Threaded v' (F ++ [a]) ∧ SameBlocks v v' := by
  have hnodup : (F ++ [a]).Nodup := by
    refine List.nodup_append.mpr ⟨h.nodup, List.pairwise_singleton _ a, fun x hx y hy => ?_⟩
    rw [List.mem_singleton.mp hy]
    rintro rfl
    exact ha hx
  have hcell : ∀ a' ∈ F ++ [a], v.memory.live a'.block = true ∧ a'.index < maxBlock := by
    intro a' ha'
    rcases List.mem_append.mp ha' with ha' | ha'
    · exact h.cell a' ha'
    · rw [List.mem_singleton.mp ha']
      exact ⟨hlive, hlt⟩
  rw [link, h.first]
  cases F with
  | nil =>
      exact ⟨_, rfl, ⟨rfl, rfl, .singleton a, hnodup, hcell⟩, rfl, rfl, fun _ => rfl, rfl, rfl,
        rfl⟩
  | cons f F =>
      obtain ⟨l, hl⟩ := Option.ne_none_iff_exists'.mp
        (mt List.getLast?_eq_none_iff.mp (List.cons_ne_nil f F))
      obtain ⟨hlast, hlastLt⟩ := h.cell l (List.mem_of_getLast? hl)
      have hvalid : v.memory.valid l = true := valid_iff.mpr ⟨hlast, by omega⟩
      simp only [List.head?_cons, h.last, hl, setNext_some hvalid, Outcome.value_bind]
      refine ⟨_, rfl, ⟨?_, ?_, ?_, hnodup, hcell⟩, rfl, rfl, fun b => ?_, rfl, rfl, rfl⟩
      · rfl
      · exact List.getLast?_concat.symm
      · refine List.isChain_append.mpr ⟨isChain_congr id h.links h.nodup hl
          fun a' ha' => Function.update_of_ne ha' _ _, .singleton a, ?_⟩
        intro x hx y hy
        rw [hl] at hx
        cases hx
        cases hy
        exact Function.update_self _ _ _
      · refine Function.update_of_ne ?_ _ _
        rintro rfl
        exact absurd hlastLt (Nat.lt_irrefl _)

theorem scanBlock_succ (n : Nat) (blockPtr : Addr) (freeCount : Nat) (v : Freeing) :
    scanBlock (n + 1) blockPtr freeCount v =
      v.memory.isFree blockPtr >>= fun free =>
        if free then
          link v blockPtr >>= fun v =>
            scanBlock n ⟨blockPtr.block, blockPtr.index + 1⟩ (freeCount + 1) v
        else scanBlock n ⟨blockPtr.block, blockPtr.index + 1⟩ freeCount v := rfl

/-- The free cells of a block go to the end of the list in order. -/
theorem scanBlock_eq (freeCount : Nat) (h : Threaded v F) (hlive : v.memory.live b = true)
    (hroom : i + n ≤ maxBlock) (hF : ∀ a ∈ F, a.block = b → a.index < i) :
    ∃ v', scanBlock n ⟨b, i⟩ freeCount v =
        .value (freeCount + (freeFrom v.memory b n i).length, v') ∧
      Threaded v' (F ++ freeFrom v.memory b n i) ∧ SameBlocks v v' := by
  induction n generalizing i freeCount v F with
  | zero =>
      refine ⟨v, rfl, ?_, .refl v⟩
      rw [freeFrom_zero, List.append_nil]
      exact h
  | succ n ih =>
      have hvalid : v.memory.valid ⟨b, i⟩ = true := valid_iff.mpr ⟨hlive, by
        simp only
        omega⟩
      rw [scanBlock_succ, isFree_valid hvalid, Outcome.value_bind, freeFrom_succ]
      cases hfree : v.memory.free ⟨b, i⟩ with
      | true =>
          rw [if_pos rfl, if_pos rfl]
          have hlt : i < maxBlock := by omega
          obtain ⟨v₁, hlink, hthread, hsame⟩ := link_eq (a := ⟨b, i⟩) h
            (fun hmem => Nat.lt_irrefl i (hF _ hmem rfl)) hlive hlt
          rw [hlink, Outcome.value_bind]
          obtain ⟨v', hscan, hthread', hsame'⟩ := ih (freeCount + 1) hthread
            (by rw [hsame.live]; exact hlive) (i := i + 1) (by omega) (fun a ha hblock => by
              rcases List.mem_append.mp ha with ha | ha
              · exact Nat.lt_succ_of_lt (hF a ha hblock)
              · rw [List.mem_singleton.mp ha]
                exact Nat.lt_succ_self i)
          rw [freeFrom_congr hsame.free] at hscan hthread'
          refine ⟨v', ?_, ?_, hsame.trans hsame'⟩
          · rw [hscan, List.length_cons]
            congr 2
            omega
          · rw [List.append_assoc] at hthread'
            exact hthread'
      | false =>
          rw [if_neg Bool.false_ne_true, if_neg Bool.false_ne_true]
          exact ih freeCount h hlive (i := i + 1) (by omega) fun a ha hblock =>
            Nat.lt_succ_of_lt (hF a ha hblock)

end Block

/-! ### All blocks -/

section Blocks

variable {cellMemory : Option Addr} {blockCount : Int} {P R : List Nat} {v v' : Freeing}

/-- After a block of the chain comes the next, or none. -/
theorem BlockChain.next_eq {l₁ l₂ : List Nat} (h : BlockChain M cellMemory (l₁ ++ b :: l₂)) :
    M.next (linkCell b) = l₂.head?.map base := by
  cases l₂ with
  | nil => exact h.last b (by simp)
  | cons b' l₂ =>
      have hlinks := h.links.right_of_append
      exact (List.isChain_cons_cons.mp hlinks).1

theorem BlockChain.congr {M' : CellMemory} (h : BlockChain M cellMemory bs)
    (hnext : ∀ b, M'.next (linkCell b) = M.next (linkCell b)) (hlive : M'.live = M.live) :
    BlockChain M' cellMemory bs := by
  constructor
  · exact h.head
  · refine h.links.imp fun b b' hb => ?_
    rw [hnext]
    exact hb
  · intro b hb
    rw [hnext]
    exact h.last b hb
  · intro b hb
    rw [hlive]
    exact h.live b hb
  · exact h.nodup

/-- Between two blocks: the blocks of `P` have been passed, those of `R` are left. -/
structure Between (M : CellMemory) (cellMemory : Option Addr) (blockCount : Int)
    (P R : List Nat) (v : Freeing) : Prop where
  chain : BlockChain v.memory cellMemory (P.filter (used M) ++ R)
  threaded : Threaded v ((P.filter (used M)).flatMap (freeCells M))
  lastBlockPtr : v.lastBlockPtr = (P.filter (used M)).getLast?.map linkCell
  cellBlock : P.filter (used M) ≠ [] →
    v.cellBlock = (P.filter (used M)).getLast?.map base
  live : ∀ b, v.memory.live b = true ↔ M.live b = true ∧ (b ∈ P → used M b = true)
  free : v.memory.free = M.free
  blockCount : v.blockCount = blockCount - (P.countP fun b => !used M b)

theorem freeBlocks_succ (fuel : Nat) (blockPtr : Addr) (v : Freeing) :
    freeBlocks (fuel + 1) (some blockPtr) v =
      scanBlock maxBlock blockPtr 0 { v with cellBlock := some blockPtr } >>= fun r =>
        if r.1 = maxBlock then
          r.2.memory.getNext (some ⟨blockPtr.block, blockPtr.index + maxBlock⟩) >>= fun next =>
            r.2.memory.getNext r.2.lastBlockPtr >>= fun released =>
              r.2.memory.freeMemory released >>= fun memory =>
                memory.setNext r.2.lastBlockPtr next >>= fun memory =>
                  freeBlocks fuel next { r.2 with
                    memory
                    lastFreeCell := v.lastFreeCell
                    cellBlock := v.cellBlock
                    blockCount := r.2.blockCount - 1 }
        else
          r.2.memory.getNext (some ⟨blockPtr.block, blockPtr.index + maxBlock⟩) >>= fun next =>
            freeBlocks fuel next
              { r.2 with lastBlockPtr := some ⟨blockPtr.block, blockPtr.index + maxBlock⟩ } := rfl

theorem freeBlocks_none (fuel : Nat) (v : Freeing) :
    freeBlocks (fuel + 1) none v =
      v.memory.setNext v.lastFreeCell none >>= fun memory => .value { v with memory } := rfl

theorem linkCell_base (b : Nat) : (⟨(base b).block, (base b).index + maxBlock⟩ : Addr) =
    linkCell b := by
  simp [base, linkCell]

theorem mem_flatMap_freeCells (h : a ∈ (P.filter (used M)).flatMap (freeCells M)) :
    a.block ∈ P.filter (used M) ∧ a.index < maxBlock := by
  obtain ⟨b, hb, ha⟩ := List.mem_flatMap.mp h
  obtain ⟨hblock, hlt⟩ := mem_freeCells ha
  exact ⟨hblock ▸ hb, hlt⟩

/-- The scan of the next block. -/
theorem Between.scan (h : Between M cellMemory blockCount P (b :: R) v) :
    ∃ v₁, scanBlock maxBlock (base b) 0 { v with cellBlock := some (base b) } =
        .value ((freeCells M b).length, v₁) ∧
      Threaded v₁ ((P.filter (used M)).flatMap (freeCells M) ++ freeCells M b) ∧
      SameBlocks { v with cellBlock := some (base b) } v₁ := by
  have hnot : b ∉ P.filter (used M) := by
    have hnodup := (List.nodup_append.mp h.chain.nodup).2.2
    exact fun hmem => hnodup b hmem b List.mem_cons_self rfl
  have hlive : v.memory.live b = true := h.chain.live b (by simp)
  have hthread : Threaded { v with cellBlock := some (base b) }
      ((P.filter (used M)).flatMap (freeCells M)) := ⟨h.threaded.first, h.threaded.last,
    h.threaded.links, h.threaded.nodup, h.threaded.cell⟩
  obtain ⟨v₁, hscan, hthread₁, hsame⟩ := scanBlock_eq (n := maxBlock) (i := 0) 0 hthread hlive
    (by omega) fun a ha hblock => by
      refine absurd ?_ hnot
      rw [← hblock]
      exact (mem_flatMap_freeCells ha).1
  rw [freeFrom_congr h.free, Nat.zero_add] at hscan
  rw [freeFrom_congr h.free] at hthread₁
  exact ⟨v₁, hscan, hthread₁, hsame⟩

theorem valid_linkCell (h : M.live b = true) : M.valid (linkCell b) = true :=
  valid_iff.mpr ⟨h, Nat.le_refl _⟩

theorem filter_used (h : used M b = true) :
    (P ++ [b]).filter (used M) = P.filter (used M) ++ [b] := by
  rw [List.filter_append, List.filter_cons_of_pos h, List.filter_nil]

theorem filter_unused (h : used M b = false) :
    (P ++ [b]).filter (used M) = P.filter (used M) := by
  rw [List.filter_append, List.filter_cons_of_neg (by simp [h]), List.filter_nil,
    List.append_nil]

/-- A block with a used cell stays. -/
theorem freeBlocks_used (h : Between M cellMemory blockCount P (b :: R) v)
    (hused : used M b = true) :
    ∃ v', (∀ fuel, freeBlocks (fuel + 1) (some (base b)) v =
        freeBlocks fuel (R.head?.map base) v') ∧
      Between M cellMemory blockCount (P ++ [b]) R v' := by
  obtain ⟨v₁, hscan, hthread, hsame⟩ := h.scan
  have hcount : (freeCells M b).length ≠ maxBlock := by simpa [used] using hused
  have hchain : BlockChain v₁.memory cellMemory (P.filter (used M) ++ b :: R) :=
    h.chain.congr hsame.next hsame.live
  have hnext := getNext_some (valid_linkCell (hchain.live b (by simp)))
  rw [hchain.next_eq] at hnext
  refine ⟨{ v₁ with lastBlockPtr := some (linkCell b) }, fun fuel => ?_, ?_⟩
  · rw [freeBlocks_succ, hscan, Outcome.value_bind, linkCell_base, if_neg hcount, hnext,
      Outcome.value_bind]
  constructor
  · rw [filter_used hused, List.append_assoc]
    exact hchain
  · rw [filter_used hused, List.flatMap_append, List.flatMap_singleton]
    exact ⟨hthread.first, hthread.last, hthread.links, hthread.nodup, hthread.cell⟩
  · rw [filter_used hused, List.getLast?_concat]
    rfl
  · intro _
    rw [filter_used hused, List.getLast?_concat]
    exact hsame.cellBlock
  · intro b'
    rw [hsame.live, h.live b']
    refine and_congr_right fun _ => ?_
    rw [List.mem_append, List.mem_singleton]
    constructor
    · rintro hb' (hmem | rfl)
      · exact hb' hmem
      · exact hused
    · exact fun hb' hmem => hb' (.inl hmem)
  · exact hsame.free.trans h.free
  · rw [List.countP_append, List.countP_singleton, if_neg (by simp [hused]), Nat.add_zero]
    exact hsame.blockCount.trans h.blockCount

/-- The chain without the block behind `k`. -/
theorem BlockChain.unlink {M' : CellMemory} {K : List Nat}
    (h : BlockChain M cellMemory (K ++ b :: R)) (hk : k ∈ K.getLast?)
    (hself : M'.next (linkCell k) = R.head?.map base)
    (hother : ∀ x, x ≠ k → M'.next (linkCell x) = M.next (linkCell x))
    (hlive : ∀ x, x ≠ b → M'.live x = M.live x) : BlockChain M' cellMemory (K ++ R) := by
  have hnodup := List.nodup_append.mp h.nodup
  have hRnodup := List.nodup_cons.mp hnodup.2.1
  have hkK : k ∈ K := List.mem_of_getLast? hk
  have hkR : ∀ b' ∈ R, b' ≠ k := fun b' hb' =>
    (hnodup.2.2 k hkK b' (List.mem_cons_of_mem b hb')).symm
  have hb : ∀ b' ∈ K ++ R, b' ≠ b := by
    rintro b' hb' rfl
    rcases List.mem_append.mp hb' with hb' | hb'
    · exact hnodup.2.2 b' hb' b' List.mem_cons_self rfl
    · exact hRnodup.1 hb'
  constructor
  · rw [h.head]
    cases K with
    | nil => cases hkK
    | cons k' K => rfl
  · refine List.isChain_append.mpr
      ⟨isChain_congr linkCell h.links.left_of_append hnodup.1 hk hother, ?_, ?_⟩
    · refine (h.links.right_of_append.tail).imp_of_mem_imp fun x y hx _ hxy => ?_
      rw [hother x (hkR x hx)]
      exact hxy
    · intro x hx y hy
      rw [Option.mem_unique hx hk, hself, hy]
      rfl
  · intro l hl
    cases R with
    | nil =>
        rw [List.append_nil] at hl
        rw [Option.mem_unique hl hk, hself]
        rfl
    | cons r R =>
        rw [List.getLast?_append_cons] at hl
        rw [hother l (hkR l (List.mem_of_getLast? hl))]
        refine h.last l ?_
        rw [List.getLast?_append_cons, List.getLast?_cons_cons]
        exact hl
  · intro b' hb'
    rw [hlive b' (hb b' hb')]
    refine h.live b' ?_
    rcases List.mem_append.mp hb' with hb' | hb'
    · exact List.mem_append_left _ hb'
    · exact List.mem_append_right _ (List.mem_cons_of_mem b hb')
  · exact List.nodup_append.mpr ⟨hnodup.1, hRnodup.2, fun x hx y hy =>
      hnodup.2.2 x hx y (List.mem_cons_of_mem b hy)⟩

/-- A block without a used cell is released, and the list goes back to its last cell before
the block. -/
theorem freeBlocks_unused (h : Between M cellMemory blockCount P (b :: R) v)
    (hunused : used M b = false) (hcells : (P.filter (used M)).flatMap (freeCells M) ≠ []) :
    ∃ v', (∀ fuel, freeBlocks (fuel + 1) (some (base b)) v =
        freeBlocks fuel (R.head?.map base) v') ∧
      Between M cellMemory blockCount (P ++ [b]) R v' := by
  obtain ⟨v₁, hscan, hthread, hsame⟩ := h.scan
  have hcount : (freeCells M b).length = maxBlock := by simpa [used] using hunused
  have hchain : BlockChain v₁.memory cellMemory (P.filter (used M) ++ b :: R) :=
    h.chain.congr hsame.next hsame.live
  generalize hF : (P.filter (used M)).flatMap (freeCells M) = F at hcells hthread
  generalize hK : P.filter (used M) = K at hchain
  have hKne : K ≠ [] := by
    rintro rfl
    rw [hK] at hF
    exact hcells hF.symm
  obtain ⟨k, hk⟩ := Option.ne_none_iff_exists'.mp (mt List.getLast?_eq_none_iff.mp hKne)
  have hlastPtr : v₁.lastBlockPtr = some (linkCell k) := by
    rw [hsame.lastBlockPtr]
    exact h.lastBlockPtr.trans (by rw [hK, hk]; rfl)
  have hnodup := List.nodup_append.mp hchain.nodup
  have hkb : k ≠ b := hnodup.2.2 k (List.mem_of_getLast? hk) b List.mem_cons_self
  have hliveb : v₁.memory.live b = true := hchain.live b (by simp)
  have hlivek : v₁.memory.live k = true :=
    hchain.live k (List.mem_append_left _ (List.mem_of_getLast? hk))
  have hnext := getNext_some (valid_linkCell hliveb)
  rw [hchain.next_eq] at hnext
  have hreleased : v₁.memory.getNext (some (linkCell k)) = .value (some (base b)) := by
    rw [getNext_some (valid_linkCell hlivek)]
    exact congrArg _ ((List.isChain_append.mp hchain.links).2.2 k hk b rfl)
  have hfreed : v₁.memory.freeMemory (some (base b)) =
      .value { v₁.memory with live := Function.update v₁.memory.live b false } :=
    if_pos ⟨hliveb, rfl⟩
  have hset := setNext_some (M := ⟨v₁.memory.free, v₁.memory.next,
    Function.update v₁.memory.live b false⟩) (valid_linkCell (b := k)
      ((Function.update_of_ne hkb _ _).trans hlivek)) (R.head?.map base)
  rw [← hlastPtr] at hreleased hset
  let memory : CellMemory := ⟨v₁.memory.free,
    Function.update v₁.memory.next (linkCell k) (R.head?.map base),
    Function.update v₁.memory.live b false⟩
  refine ⟨⟨memory, v₁.firstFreeCell, v.lastFreeCell, v.cellBlock,
    v₁.lastBlockPtr, v₁.blockCount - 1⟩, fun fuel => ?_, ?_⟩
  · rw [freeBlocks_succ, hscan, Outcome.value_bind, linkCell_base, if_pos hcount, hnext,
      Outcome.value_bind, hreleased, Outcome.value_bind, hfreed, Outcome.value_bind, hset,
      Outcome.value_bind]
  have hcellK : ∀ a ∈ F, a.block ∈ K ∧ a.index < maxBlock := by
    intro a ha
    rw [← hF] at ha
    rw [← hK]
    exact mem_flatMap_freeCells ha
  constructor
  · rw [filter_unused hunused, hK]
    exact hchain.unlink hk (Function.update_self _ _ _)
      (fun x hx => Function.update_of_ne (linkCell_injective.ne hx) _ _)
      fun x hx => Function.update_of_ne hx _ _
  · rw [filter_unused hunused, hF]
    constructor
    · refine hthread.first.trans ?_
      cases F with
      | nil => exact absurd rfl hcells
      | cons f F => rfl
    · rw [← hF]
      exact h.threaded.last
    · refine hthread.links.left_of_append.imp_of_mem_imp fun a a' ha _ haa' => ?_
      refine (Function.update_of_ne ?_ _ _).trans haa'
      rintro rfl
      exact absurd (hcellK _ ha).2 (Nat.lt_irrefl _)
    · exact (List.nodup_append.mp hthread.nodup).1
    · intro a ha
      have hcell := hthread.cell a (List.mem_append_left _ ha)
      refine ⟨(Function.update_of_ne ?_ _ _).trans hcell.1, hcell.2⟩
      exact hnodup.2.2 _ (hcellK a ha).1 b List.mem_cons_self
  · rw [filter_unused hunused, hK, hk]
    exact hlastPtr
  · intro hne
    rw [filter_unused hunused] at hne ⊢
    exact h.cellBlock hne
  · intro b'
    by_cases hb' : b' = b
    · subst hb'
      have hdead : memory.live b' = false := Function.update_self _ _ _
      simp [hdead, hunused]
    · refine (iff_of_eq (congrArg (· = true) (Function.update_of_ne hb' _ _))).trans ?_
      rw [hsame.live, List.mem_append, List.mem_singleton, or_iff_left hb']
      exact h.live b'
  · exact hsame.free.trans h.free
  · have hblocks := hsame.blockCount.trans h.blockCount
    simp only [List.countP_append, List.countP_singleton, hunused, Bool.not_false, if_true]
    omega

/-- After the last block the list of free cells gets its end. -/
theorem Between.finish (h : Between M cellMemory blockCount P [] v)
    (hcells : (P.filter (used M)).flatMap (freeCells M) ≠ []) :
    ∃ v', (∀ fuel, freeBlocks (fuel + 1) none v = .value v') ∧
      Released M cellMemory P blockCount v' := by
  obtain ⟨l, hl⟩ := Option.ne_none_iff_exists'.mp (mt List.getLast?_eq_none_iff.mp hcells)
  obtain ⟨hlive, hlt⟩ := h.threaded.cell l (List.mem_of_getLast? hl)
  have hset := setNext_some (valid_iff.mpr ⟨hlive, Nat.le_of_lt hlt⟩) none
  rw [← hl, ← h.threaded.last] at hset
  have hkept : P.filter (used M) ≠ [] := by
    intro hnil
    rw [hnil] at hcells
    exact hcells rfl
  have hchain := h.chain
  rw [List.append_nil] at hchain
  refine ⟨{ v with memory := ⟨v.memory.free, Function.update v.memory.next l none,
    v.memory.live⟩ }, fun fuel => ?_, ?_⟩
  · rw [freeBlocks_none, hset, Outcome.value_bind]
  constructor
  · refine hchain.congr (fun b => Function.update_of_ne ?_ _ _) rfl
    rintro rfl
    exact absurd hlt (Nat.lt_irrefl _)
  · exact h.cellBlock hkept
  · constructor
    · exact h.threaded.first
    · exact isChain_congr id h.threaded.links h.threaded.nodup hl
        fun a ha => Function.update_of_ne ha _ _
    · intro a ha
      rw [Option.mem_unique ha hl]
      exact Function.update_self _ _ _
    · exact h.threaded.nodup
  · exact h.live
  · exact h.free
  · exact h.blockCount

theorem firstFreeKept_of_ne (h : freeCells M b ≠ []) :
    FirstFreeKept M (b :: R) ↔ used M b = true := by
  rw [FirstFreeKept, List.find?_cons_of_pos (by simpa using h)]
  constructor
  · rintro ⟨b', hb', hused⟩
    cases hb'
    exact hused
  · exact fun hused => ⟨b, rfl, hused⟩

theorem firstFreeKept_of_eq (h : freeCells M b = []) :
    FirstFreeKept M (b :: R) ↔ FirstFreeKept M R := by
  rw [FirstFreeKept, List.find?_cons_of_neg (by simpa using h)]
  rfl

/-- The free cells of the retained blocks with one block more. -/
theorem flatMap_used (h : used M b = true) :
    ((P ++ [b]).filter (used M)).flatMap (freeCells M) =
      (P.filter (used M)).flatMap (freeCells M) ++ freeCells M b := by
  rw [filter_used h, List.flatMap_append, List.flatMap_singleton]

/-- The loop from between two blocks on, once there is a free cell to end the list with. -/
theorem Between.run (h : Between M cellMemory blockCount P R v)
    (hfirst : (P.filter (used M)).flatMap (freeCells M) = [] → FirstFreeKept M R) :
    ∃ v', (∀ fuel, R.length < fuel → freeBlocks fuel (R.head?.map base) v = .value v') ∧
      Released M cellMemory (P ++ R) blockCount v' := by
  induction R generalizing P v with
  | nil =>
      have hcells : (P.filter (used M)).flatMap (freeCells M) ≠ [] := fun hnil => by
        obtain ⟨b, hb, -⟩ := hfirst hnil
        cases hb
      obtain ⟨v', hend, hreleased⟩ := h.finish hcells
      refine ⟨v', fun fuel hfuel => ?_, ?_⟩
      · obtain ⟨fuel, rfl⟩ := Nat.exists_eq_add_one_of_ne_zero (by omega : fuel ≠ 0)
        exact hend fuel
      · rw [List.append_nil]
        exact hreleased
  | cons b R ih =>
      have hstep : ∃ v', (∀ fuel, freeBlocks (fuel + 1) (some (base b)) v =
            freeBlocks fuel (R.head?.map base) v') ∧
          Between M cellMemory blockCount (P ++ [b]) R v' ∧
          (((P ++ [b]).filter (used M)).flatMap (freeCells M) = [] → FirstFreeKept M R) := by
        cases hused : used M b with
        | true =>
            obtain ⟨v', hrun, hbetween⟩ := freeBlocks_used h hused
            refine ⟨v', hrun, hbetween, fun hnil => ?_⟩
            rw [flatMap_used hused] at hnil
            obtain ⟨hP, hb⟩ := List.append_eq_nil_iff.mp hnil
            exact (firstFreeKept_of_eq hb).mp (hfirst hP)
        | false =>
            have hcells : (P.filter (used M)).flatMap (freeCells M) ≠ [] := fun hnil => by
              have hkept := (firstFreeKept_of_ne (freeCells_ne_nil hused)).mp (hfirst hnil)
              rw [hused] at hkept
              cases hkept
            obtain ⟨v', hrun, hbetween⟩ := freeBlocks_unused h hused hcells
            refine ⟨v', hrun, hbetween, fun hnil => absurd ?_ hcells⟩
            rw [filter_unused hused] at hnil
            exact hnil
      obtain ⟨v', hrun, hbetween, hfirst'⟩ := hstep
      obtain ⟨v'', hrest, hreleased⟩ := ih hbetween hfirst'
      refine ⟨v'', fun fuel hfuel => ?_, ?_⟩
      · rw [List.length_cons] at hfuel
        obtain ⟨fuel, rfl⟩ := Nat.exists_eq_add_one_of_ne_zero (by omega : fuel ≠ 0)
        exact (hrun fuel).trans (hrest fuel (by omega))
      · rw [List.append_assoc] at hreleased
        exact hreleased

/-! ### Without a free cell in a block that stays -/

/-- The head of the list is in a released block, and the list has no last cell. -/
def Headless (v : Freeing) : Prop :=
  v.firstFreeCell ≠ none ∧ v.lastFreeCell = none

/-- No cell can be added to a list without a last cell. -/
theorem Headless.link (h : Headless v) (a : Addr) : link v a = .undefined := by
  obtain ⟨f, hf⟩ := Option.ne_none_iff_exists'.mp h.1
  simp only [CellBlocks.link, hf, h.2]
  rfl

theorem Headless.scan (h : Headless v) {c : Nat} {r : Nat × Freeing}
    (hr : scanBlock n a c v = .value r) : r = (c, v) := by
  induction n generalizing a with
  | zero =>
      cases hr
      rfl
  | succ n ih =>
      rw [scanBlock_succ, CellMemory.isFree] at hr
      split at hr
      · rw [Outcome.value_bind, h.link] at hr
        split at hr
        · cases hr
        · exact ih hr
      · cases hr

/-- From there on the loop does not come to an end. -/
theorem Headless.freeBlocks_ne (h : Headless v) (fuel : Nat) (p : Option Addr) :
    freeBlocks fuel p v ≠ .value v' := by
  induction fuel generalizing p v with
  | zero =>
      intro hv
      cases hv
  | succ fuel ih =>
      intro hv
      cases p with
      | none =>
          rw [freeBlocks_none, h.2] at hv
          cases hv
      | some p =>
          rw [freeBlocks_succ] at hv
          obtain ⟨r, hscan, hv⟩ := Outcome.bind_eq_value_iff.mp hv
          have hhead : Headless { v with cellBlock := some p } := h
          rw [hhead.scan hscan, if_neg maxBlock_pos.ne] at hv
          obtain ⟨next, -, hv⟩ := Outcome.bind_eq_value_iff.mp hv
          have hhead' : Headless { v with
              cellBlock := some p
              lastBlockPtr := some ⟨p.block, p.index + maxBlock⟩ } := h
          exact ih hhead' next hv

/-- Without a free cell so far, the loop needs one in a block that stays. -/
theorem Between.stuck (h : Between M cellMemory blockCount P R v)
    (hcells : (P.filter (used M)).flatMap (freeCells M) = []) (hfirst : ¬FirstFreeKept M R)
    (fuel : Nat) : freeBlocks fuel (R.head?.map base) v ≠ .value v' := by
  have hlast : v.lastFreeCell = none := by
    rw [h.threaded.last, hcells]
    rfl
  induction R generalizing P v fuel with
  | nil =>
      intro hv
      cases fuel with
      | zero => cases hv
      | succ fuel =>
          rw [List.head?_nil, Option.map_none, freeBlocks_none, hlast] at hv
          cases hv
  | cons b R ih =>
      intro hv
      cases fuel with
      | zero => cases hv
      | succ fuel =>
          rw [List.head?_cons, Option.map_some] at hv
          cases hused : used M b with
          | true =>
              have hnone : freeCells M b = [] := by
                by_contra hne
                exact hfirst ((firstFreeKept_of_ne hne).mpr hused)
              obtain ⟨v₁, hrun, hbetween⟩ := freeBlocks_used h hused
              have hcells' : ((P ++ [b]).filter (used M)).flatMap (freeCells M) = [] := by
                rw [flatMap_used hused, hcells, hnone, List.append_nil]
              rw [hrun] at hv
              refine ih hbetween hcells' (mt (firstFreeKept_of_eq hnone).mpr hfirst) fuel ?_ hv
              rw [hbetween.threaded.last, hcells']
              rfl
          | false =>
              obtain ⟨v₁, hscan, hthread, -⟩ := h.scan
              have hcount : (freeCells M b).length = maxBlock := by simpa [used] using hused
              have hhead : v₁.firstFreeCell ≠ none := by
                rw [hthread.first, hcells, List.nil_append, ne_eq, List.head?_eq_none_iff]
                exact freeCells_ne_nil hused
              rw [freeBlocks_succ, hscan, Outcome.value_bind, if_pos hcount] at hv
              obtain ⟨next, -, hv⟩ := Outcome.bind_eq_value_iff.mp hv
              obtain ⟨released, -, hv⟩ := Outcome.bind_eq_value_iff.mp hv
              obtain ⟨m, -, hv⟩ := Outcome.bind_eq_value_iff.mp hv
              obtain ⟨m', -, hv⟩ := Outcome.bind_eq_value_iff.mp hv
              have hheadless : Headless { v₁ with
                  memory := m'
                  lastFreeCell := v.lastFreeCell
                  cellBlock := v.cellBlock
                  blockCount := v₁.blockCount - 1 } := ⟨hhead, hlast⟩
              exact hheadless.freeBlocks_ne fuel next hv

/-- Before the first block. -/
theorem BlockChain.between (h : BlockChain M cellMemory bs) (blockCount : Int) :
    Between M cellMemory blockCount [] bs ⟨M, none, none, cellMemory, none, blockCount⟩ := by
  constructor
  · exact h
  · exact ⟨rfl, rfl, .nil, .nil, fun a ha => absurd ha List.not_mem_nil⟩
  · rfl
  · exact fun hne => absurd rfl hne
  · exact fun b => ⟨fun hb => ⟨hb, fun hmem => absurd hmem List.not_mem_nil⟩, And.left⟩
  · rfl
  · exact (Int.sub_zero blockCount).symm

theorem BlockChain.not_releases (h : BlockChain M cellMemory bs) (hfirst : ¬FirstFreeKept M bs) :
    ¬Releases M cellMemory bs blockCount := by
  rintro ⟨v, -, fuel₀, hv⟩
  have hrun := hv fuel₀ (Nat.le_refl fuel₀)
  have hstart := h.between blockCount
  rw [freeCellBlocks, h.head] at hrun
  rw [h.head] at hstart
  exact hstart.stuck rfl hfirst fuel₀ hrun

/-- The unused blocks are released as intended iff the first block with a free cell is not
one of them. -/
theorem releases_iff (h : BlockChain M cellMemory bs) :
    Releases M cellMemory bs blockCount ↔ FirstFreeKept M bs := by
  constructor
  · intro hreleases
    by_contra hfirst
    exact h.not_releases hfirst hreleases
  · intro hfirst
    obtain ⟨v, hrun, hreleased⟩ := (h.between blockCount).run fun _ => hfirst
    refine ⟨v, hreleased, bs.length + 1, fun fuel hfuel => ?_⟩
    rw [← h.head] at hrun
    exact hrun fuel hfuel

end Blocks

/-! ### Memories of one block -/

/-- The block `0`, with the free cells of `free`. -/
def oneBlock (free : Addr → Bool) : CellMemory :=
  ⟨free, fun _ => none, fun b => b = 0⟩

theorem oneBlock_chain (free : Addr → Bool) :
    BlockChain (oneBlock free) (some (base 0)) [0] := by
  constructor
  · rfl
  · exact .singleton 0
  · exact fun _ _ => rfl
  · intro b hb
    rw [List.mem_singleton.mp hb]
    rfl
  · exact List.pairwise_singleton _ 0

/-- Two blocks, where only the first cell of the first one is used. -/
def twoBlocks : CellMemory where
  free a := a.block = 1 || a.index ≠ 0
  next a := if a = linkCell 0 then some (base 1) else none
  live b := b = 0 || b = 1

theorem twoBlocks_chain : BlockChain twoBlocks (some (base 0)) [0, 1] := by
  constructor
  · rfl
  · exact .cons_cons rfl (.singleton 1)
  · intro b hb
    obtain rfl : 1 = b := Option.some.inj hb
    rfl
  · intro b hb
    simp only [List.mem_cons, List.not_mem_nil, or_false] at hb
    rcases hb with rfl | rfl <;> rfl
  · decide

theorem freeCells_twoBlocks : freeCells twoBlocks 0 = ⟨0, 1⟩ :: freeFrom twoBlocks 0 4093 2 :=
  (freeFrom_used (n := 4094) rfl).trans (freeFrom_free (n := 4093) rfl)

theorem used_twoBlocks : used twoBlocks 0 = true ∧ used twoBlocks 1 = false := by
  constructor
  · have hle : (freeFrom twoBlocks 0 4093 2).length ≤ 4093 := length_freeFrom_le
    rw [used, freeCells_twoBlocks, decide_eq_true_iff, List.length_cons, maxBlock]
    omega
  · have hall : ∀ n i, (freeFrom twoBlocks 1 n i).length = n := by
      intro n
      induction n with
      | zero => exact fun _ => rfl
      | succ n ih =>
          intro i
          rw [freeFrom_free rfl, List.length_cons, ih]
    rw [used, freeCells, hall]
    rfl

/-- The second block is released, and the first one is kept. -/
theorem releases_twoBlocks : ∃ v, (∃ fuel₀, ∀ fuel, fuel₀ ≤ fuel →
      freeCellBlocks fuel (some (base 0)) twoBlocks 2 = .value v) ∧
    v.memory.live 0 = true ∧ v.memory.live 1 = false ∧ v.blockCount = 1 := by
  have hne : freeCells twoBlocks 0 ≠ [] := by
    rw [freeCells_twoBlocks]
    exact List.cons_ne_nil _ _
  have hall : Releases _ _ _ 2 :=
    (releases_iff twoBlocks_chain).mpr ((firstFreeKept_of_ne hne).mpr used_twoBlocks.1)
  obtain ⟨v, hv, hrun⟩ := hall
  obtain ⟨hkept, hreleased⟩ := used_twoBlocks
  refine ⟨v, hrun, (hv.live 0).mpr ⟨rfl, fun _ => hkept⟩, ?_, ?_⟩
  · rw [← Bool.not_eq_true, hv.live 1, hreleased]
    simp
  · rw [hv.blockCount]
    simp [hkept, hreleased]

/-- Without a free cell the end of the list is written through `NULL`. -/
theorem not_releases_full :
    BlockChain (oneBlock fun _ => false) (some (base 0)) [0] ∧
      ¬Releases (oneBlock fun _ => false) (some (base 0)) [0] 1 := by
  have hnone (n i : Nat) : freeFrom (oneBlock fun _ => false) 0 n i = [] := by
    induction n generalizing i with
    | zero => rfl
    | succ n ih => exact ih (i + 1)
  refine ⟨oneBlock_chain _, (oneBlock_chain _).not_releases ?_⟩
  rw [firstFreeKept_of_eq (hnone _ _)]
  rintro ⟨b, hb, -⟩
  cases hb

end CellBlocks

end NewLispNeo
