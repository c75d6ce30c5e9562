/-
  The memory pool of `lib/mem_pool/mem_pool.c` without addresses: blocks of equally sized
  elements, a free list threaded through an `int` table in each block, and the pool's linked
  list of blocks. `RawPool/` has the pool in memory, and shows when it behaves like this one.

  Pointers to block headers are positions in `Heap.blocks`, the headers obtained so far in
  the order of allocation; `none` is NULL. The list of the pool is the one that `head` and
  the `next` fields spell out, not the order of `blocks`. Element addresses are plain
  integers, and the pointer arithmetic on them wraps as on a 64-bit machine.

  What the system `malloc` answers during a call is in that call's `Grant`. A block is a
  value: the words of its table are no part of any other memory (`table : Int → Int`, with the
  granted memory's old contents wherever nothing was stored), and headers, tables and elements
  cannot overwrite each other. The sizes requested are kept in `tableAt` and `dataAt`.
-/
import Mathlib.Logic.Function.Basic
import GameServer.Lib.CInt
import GameServer.Lib.Region

namespace GameServer.Pool

open CInt

/-- `ALLOCATED` -/
def allocated : Int := -1

/-- `ENDOFMEM` -/
def endOfMem : Int := -2

/-- `sizeof(struct mem_block_s)`, `sizeof(mem_pool_t)` and `sizeof(int)`. -/
def sizeofMemBlock : Nat := 40
def sizeofMemPool : Nat := 32
def sizeofInt : Nat := 4

/-- `mem_block_t`, with the regions that `malloc` was asked for. -/
structure MemBlock where
  elemNum : Int
  elemSize : Int
  head : Int
  tail : Int
  table : Int → Int
  next : Option Nat
  headerAt : Region
  tableAt : Region
  dataAt : Region

/-- `block->data` -/
def MemBlock.data (b : MemBlock) : Int := b.dataAt.base

/-- `mem_pool_t` -/
structure MemPool where
  elemSize : Int
  elemNum : Int
  elemTotal : Int
  head : Option Nat
  tail : Option Nat
  deriving DecidableEq, Repr

/-- The pool and the memory behind it. `obtained` and `released` are the regions that went
    through `malloc` and `free`, newest first. -/
structure Heap where
  pool : MemPool
  poolAt : Region
  blocks : List MemBlock
  bytes : Int → UInt8
  obtained : List Region
  released : List Region

/-- Answers of the system `malloc` while one block is built: where it puts the header, the
    table and the data (`none`: it returned NULL), and the old contents of the table. -/
structure Grant where
  header : Option Int
  table : Option Int
  data : Option Int
  residue : Int → Int

inductive Fault where
  | nullDeref
  deriving DecidableEq, Repr

def memset (bytes : Int → UInt8) (p : Int) (v : UInt8) (n : Nat) : Int → UInt8 :=
  fun a => if p ≤ a ∧ a < p + n then v else bytes a

def Heap.obtain (h : Heap) (r : Region) : Heap := { h with obtained := r :: h.obtained }

def Heap.release (h : Heap) (r : Region) : Heap := { h with released := r :: h.released }

/-! ## Blocks -/

/-- The table after the initialisation loop and the store of `ENDOFMEM` behind it. -/
def initTable (residue : Int → Int) (elemNum : Int) : Int → Int :=
  Function.update
    ((List.range elemNum.toNat).foldl
      (fun t (i : Nat) => Function.update t (i : Int) (i32 ((i : Int) + 1))) residue)
    elemNum endOfMem

/-- `__mem_pool_alloc_block`. A call that fails after its first `malloc` returns NULL and
    keeps what it obtained. -/
def memPoolAllocBlock (h : Heap) (g : Grant) (elemSize elemNum : Int) : Option MemBlock × Heap :=
  match g.header with
  | none => (none, h)
  | some header =>
    let headerAt : Region := ⟨header, sizeofMemBlock⟩
    let h := h.obtain headerAt
    match g.table with
    | none => (none, h)
    | some table =>
      let tableAt : Region := ⟨table, sizeT (i32 (elemNum + 1))⟩
      let h := h.obtain tableAt
      match g.data with
      | none => (none, h)
      | some data =>
        let dataAt : Region := ⟨data, sizeT (i32 (elemSize * i32 (elemNum + 1)))⟩
        let h := h.obtain dataAt
        (some { elemNum := elemNum, elemSize := elemSize, head := 0, tail := elemNum,
                table := initTable g.residue elemNum, next := none,
                headerAt := headerAt, tableAt := tableAt, dataAt := dataAt },
          { h with bytes := memset h.bytes data 0 dataAt.size })

/-- `__mem_pool_free_block` -/
def memPoolFreeBlock (h : Heap) (b : MemBlock) : Heap :=
  ((h.release b.tableAt).release b.dataAt).release b.headerAt

/-! ## The block list -/

/-- The blocks that `FOREACH_BLOCK_LIST (pos, head)` visits, at most `fuel` of them. -/
def foreachBlockList (blocks : List MemBlock) : Nat → Option Nat → List Nat
  | 0, _ => []
  | _ + 1, none => []
  | fuel + 1, some pos => pos :: foreachBlockList blocks fuel (blocks[pos]?.bind MemBlock.next)

/-- The blocks of the pool, in list order. A list without a cycle visits every header at
    most once. -/
def Heap.blockList (h : Heap) : List Nat :=
  foreachBlockList h.blocks h.blocks.length h.pool.head

def Heap.poolBlocks (h : Heap) : List MemBlock := h.blockList.filterMap (h.blocks[·]?)

/-- The block at which a search loop with this test breaks. -/
def Heap.search (h : Heap) (test : MemBlock → Bool) : Option Nat :=
  h.blockList.find? fun pos => (h.blocks[pos]?).any test

/-! ## The pool's functions -/

/-- `mem_pool_create`. `poolAt` is the answer of `malloc(sizeof(mem_pool_t))`. -/
def memPoolCreate (poolAt : Option Int) (g : Grant) (elemSize elemNum : Int) : Option Heap :=
  match poolAt with
  | none => none
  | some p =>
    let h : Heap :=
      { pool := { elemSize := elemSize, elemNum := elemNum, elemTotal := elemNum,
                  head := none, tail := none },
        poolAt := ⟨p, sizeofMemPool⟩, blocks := [], bytes := fun _ => 0,
        obtained := [⟨p, sizeofMemPool⟩], released := [] }
    match memPoolAllocBlock h g elemSize elemNum with
    | (none, h) => some h
    | (some blk, h) =>
      some { h with blocks := [blk], pool := { h.pool with head := some 0, tail := some 0 } }

/-- `mem_pool_destroy` on a pool that is not NULL. -/
def memPoolDestroy (h : Heap) : Heap :=
  (h.blockList.foldl (fun h' pos =>
    match h.blocks[pos]? with
    | some b => memPoolFreeBlock h' b
    | none => h') h).release h.poolAt

/-- `pos->head != pos->tail` -/
def MemBlock.hasRoom (b : MemBlock) : Bool := b.head != b.tail

/-- The end of `mem_pool_malloc` on the chosen block: the address returned, and the block
    with its first free slot taken. -/
def MemBlock.take (b : MemBlock) : Int × MemBlock :=
  let offset := i32 (b.head * b.elemSize)
  let head := b.table b.head
  (ptrAdd b.data offset,
    { b with table := Function.update b.table b.head allocated, head := head })

def MemBlock.setNext (pos : Nat) (b : MemBlock) : MemBlock := { b with next := some pos }

/-- `pool->tail->next = block; pool->tail = block; pool->elem_total += pool->elem_num;` -/
def Heap.link (h : Heap) (tail : Nat) (b : MemBlock) : Heap :=
  { h with
    blocks := h.blocks.modify tail (.setNext h.blocks.length) ++ [b],
    pool := { h.pool with
              tail := some h.blocks.length,
              elemTotal := i32 (h.pool.elemTotal + h.pool.elemNum) } }

/-- The slot that `mem_pool_malloc` takes from the block at `pos`. -/
def Heap.takeFrom (h : Heap) (pos : Nat) : Except Fault (Option Int × Heap) :=
  match h.blocks[pos]? with
  | none => .error .nullDeref
  | some b => .ok (some b.take.1, { h with blocks := h.blocks.set pos b.take.2 })

/-- `mem_pool_malloc`. The caller gets an address, or NULL when a block cannot be built. -/
def memPoolMalloc (h : Heap) (g : Grant) : Except Fault (Option Int × Heap) :=
  match h.search MemBlock.hasRoom with
  | some pos => h.takeFrom pos
  | none =>
    match memPoolAllocBlock h g h.pool.elemSize (h.pool.elemNum.tdiv 3) with
    | (none, h) => .ok (none, h)
    | (some b, h) =>
      match h.pool.tail with
      | none => .error .nullDeref
      | some tail => (h.link tail b).takeFrom h.blocks.length

/-- `offset = (block->data - (char *)p)/block->elem_size` -/
def MemBlock.freeOffset (b : MemBlock) (p : Int) : Int :=
  i32 ((ptrDiff b.data p).tdiv b.elemSize)

/-- `offset >= 0 && offset < block->elem_num` -/
def MemBlock.accepts (b : MemBlock) (p : Int) : Bool :=
  decide (0 ≤ b.freeOffset p) && decide (b.freeOffset p < b.elemNum)

/-- `block->table[block->tail] = offset; block->table[offset] = ENDOFMEM;` -/
def MemBlock.putBack (b : MemBlock) (offset : Int) : MemBlock :=
  { b with table := Function.update (Function.update b.table b.tail offset) offset endOfMem }

/-- `mem_pool_free` -/
def memPoolFree (h : Heap) (p : Int) : Heap :=
  match h.search (·.accepts p) with
  | none => h
  | some pos =>
    { h with
      bytes := memset h.bytes p 0 sizeofInt,
      blocks := h.blocks.modify pos fun b => b.putBack (b.freeOffset p) }

/-! ## Runs -/

/-- One call of the pool's user. -/
inductive Call where
  | malloc (g : Grant)
  | free (p : Int)

/-- The pool together with what its user holds: the pointers returned and not freed since.
    After a fault there are no further calls. -/
structure Session where
  heap : Heap
  live : List Int
  fault : Option Fault

def Session.start (h : Heap) : Session := { heap := h, live := [], fault := none }

def Session.step (s : Session) (c : Call) : Session :=
  match s.fault, c with
  | some _, _ => s
  | none, .malloc g =>
    match memPoolMalloc s.heap g with
    | .error f => { s with fault := some f }
    | .ok (none, h) => { s with heap := h }
    | .ok (some p, h) => { s with heap := h, live := p :: s.live }
  | none, .free p => { s with heap := memPoolFree s.heap p, live := s.live.erase p }

end GameServer.Pool
