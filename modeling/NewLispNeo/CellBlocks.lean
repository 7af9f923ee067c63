/-
The blocks of cells and the list of free cells: how `freeCellBlocks` of newlisp.c gives
the blocks without a used cell back.
-/
import Mathlib.Data.List.Chain
import Mathlib.Logic.Function.Basic
import NewLispNeo.Outcome

namespace NewLispNeo

namespace CellBlocks

/-- `MAX_BLOCK`.  A block has one cell more, which links it to the next. -/
def maxBlock : Nat := 4095

/-- A cell of a block. -/
structure Addr where
  block : Nat
  index : Nat
deriving DecidableEq

/-- The cells with their type and link, and the blocks that are allocated. -/
structure CellMemory where
  free : Addr → Bool
  next : Addr → Option Addr
  live : Nat → Bool

namespace CellMemory

variable (M : CellMemory)

/-- The address of a cell that can be read and written. -/
def valid (a : Addr) : Bool := M.live a.block && a.index ≤ maxBlock

/-- `*(UINT *)ptr == CELL_FREE` -/
def isFree (a : Addr) : Outcome Unit Bool :=
  if M.valid a then .value (M.free a) else .undefined

/-- `ptr->next` -/
def getNext : Option Addr → Outcome Unit (Option Addr)
  | none => .undefined
  | some a => if M.valid a then .value (M.next a) else .undefined

/-- `ptr->next = next` -/
def setNext (ptr next : Option Addr) : Outcome Unit CellMemory :=
  match ptr with
  | none => .undefined
  | some a =>
      if M.valid a then .value { M with next := Function.update M.next a next } else .undefined

/-- `freeMemory` of a block. -/
def freeMemory : Option Addr → Outcome Unit CellMemory
  | none => .value M
  | some a =>
      if M.live a.block ∧ a.index = 0 then
        .value { M with live := Function.update M.live a.block false }
      else .undefined

end CellMemory

/-- The global and local variables of `freeCellBlocks`. -/
structure Freeing where
  memory : CellMemory
  firstFreeCell : Option Addr
  lastFreeCell : Option Addr
  cellBlock : Option Addr
  lastBlockPtr : Option Addr
  blockCount : Int

/-- A free cell goes to the end of the list. -/
def link (v : Freeing) (blockPtr : Addr) : Outcome Unit Freeing :=
  match v.firstFreeCell with
  | none => .value { v with firstFreeCell := some blockPtr, lastFreeCell := some blockPtr }
  | some _ =>
      v.memory.setNext v.lastFreeCell (some blockPtr) >>= fun memory =>
        .value { v with memory, lastFreeCell := some blockPtr }

/-- `for(i = freeCount = 0; i < MAX_BLOCK; i++)`, with the cells that are left. -/
def scanBlock : Nat → Addr → Nat → Freeing → Outcome Unit (Nat × Freeing)
  | 0, _, freeCount, v => .value (freeCount, v)
  | n + 1, blockPtr, freeCount, v =>
      v.memory.isFree blockPtr >>= fun free =>
        if free then
          link v blockPtr >>= fun v =>
            scanBlock n ⟨blockPtr.block, blockPtr.index + 1⟩ (freeCount + 1) v
        else scanBlock n ⟨blockPtr.block, blockPtr.index + 1⟩ freeCount v

/-- `while(blockPtr != NULL)` and the end of the list. -/
def freeBlocks : Nat → Option Addr → Freeing → Outcome Unit Freeing
  | 0, _, _ => .timeout
  | _ + 1, none, v =>
      v.memory.setNext v.lastFreeCell none >>= fun memory => .value { v with memory }
  | fuel + 1, some blockPtr, v =>
      let prevLastFreeCell := v.lastFreeCell
      let prevCellBlock := v.cellBlock
      scanBlock maxBlock blockPtr 0 { v with cellBlock := some blockPtr } >>= fun (freeCount, v) =>
        let blockPtr : Addr := ⟨blockPtr.block, blockPtr.index + maxBlock⟩
        if freeCount = maxBlock then
          v.memory.getNext (some blockPtr) >>= fun next =>
            v.memory.getNext v.lastBlockPtr >>= fun released =>
              v.memory.freeMemory released >>= fun memory =>
                memory.setNext v.lastBlockPtr next >>= fun memory =>
                  freeBlocks fuel next { v with
                    memory
                    lastFreeCell := prevLastFreeCell
                    cellBlock := prevCellBlock
                    blockCount := v.blockCount - 1 }
        else
          v.memory.getNext (some blockPtr) >>= fun next =>
            freeBlocks fuel next { v with lastBlockPtr := some blockPtr }

/-- `freeCellBlocks` for the blocks from `cellMemory` on. -/
def freeCellBlocks (fuel : Nat) (cellMemory : Option Addr) (M : CellMemory) (blockCount : Int) :
    Outcome Unit Freeing :=
  freeBlocks fuel cellMemory ⟨M, none, none, cellMemory, none, blockCount⟩

/-! ### The chain of blocks and the list of free cells -/

/-- The first cell of a block. -/
def base (b : Nat) : Addr := ⟨b, 0⟩

/-- The last cell of a block, which is a link only. -/
def linkCell (b : Nat) : Addr := ⟨b, maxBlock⟩

/-- The blocks in order from `cellMemory` on. -/
structure BlockChain (M : CellMemory) (cellMemory : Option Addr) (bs : List Nat) : Prop where
  head : cellMemory = bs.head?.map base
  links : bs.IsChain fun b b' => M.next (linkCell b) = some (base b')
  last : ∀ b ∈ bs.getLast?, M.next (linkCell b) = none
  live : ∀ b ∈ bs, M.live b = true
  nodup : bs.Nodup

/-- The cells in order from `first` on, up to `NULL`. -/
structure CellList (M : CellMemory) (first : Option Addr) (cells : List Addr) : Prop where
  head : first = cells.head?
  links : cells.IsChain fun a a' => M.next a = some a'
  last : ∀ a ∈ cells.getLast?, M.next a = none
  nodup : cells.Nodup

/-- The free cells of a block, from one with `n` that are left. -/
def freeFrom (M : CellMemory) (b : Nat) : Nat → Nat → List Addr
  | 0, _ => []
  | n + 1, i =>
      if M.free ⟨b, i⟩ then ⟨b, i⟩ :: freeFrom M b n (i + 1) else freeFrom M b n (i + 1)

/-- The free cells of a block. -/
def freeCells (M : CellMemory) (b : Nat) : List Addr := freeFrom M b maxBlock 0

/-- A block with at least one used cell. -/
def used (M : CellMemory) (b : Nat) : Bool := (freeCells M b).length ≠ maxBlock

/-- What is there after the unused blocks have been released. -/
structure Released (M : CellMemory) (cellMemory : Option Addr) (bs : List Nat)
    (blockCount : Int) (v : Freeing) : Prop where
  chain : BlockChain v.memory cellMemory (bs.filter (used M))
  cellBlock : v.cellBlock = (bs.filter (used M)).getLast?.map base
  cells : CellList v.memory v.firstFreeCell ((bs.filter (used M)).flatMap (freeCells M))
  live : ∀ b, v.memory.live b = true ↔ M.live b = true ∧ (b ∈ bs → used M b = true)
  free : v.memory.free = M.free
  blockCount : v.blockCount = blockCount - (bs.countP fun b => !used M b)

/-- `freeCellBlocks` comes to an end and leaves the chain and the list so. -/
def Releases (M : CellMemory) (cellMemory : Option Addr) (bs : List Nat) (blockCount : Int) :
    Prop :=
  ∃ v, Released M cellMemory bs blockCount v ∧
    ∃ fuel₀, ∀ fuel, fuel₀ ≤ fuel → freeCellBlocks fuel cellMemory M blockCount = .value v

/-- The first block with a free cell has a used cell too. -/
def FirstFreeKept (M : CellMemory) (bs : List Nat) : Prop :=
  ∃ b, (bs.find? fun b => freeCells M b ≠ []) = some b ∧ used M b = true

end CellBlocks

end NewLispNeo
