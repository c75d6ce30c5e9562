/-
  The memory pool of `lib/mem_pool/mem_pool.c` in flat memory.

  Everything the pool keeps lies in one memory of bytes, together with the elements its user
  writes: `mem_pool_t`, the block headers, the tables and the data. A pointer is an address
  (0 is NULL), a field is read and written at its offset, and a table entry at
  `block->table + 4 * i`, whatever lies there: `__mem_pool_alloc_block` asks for
  `elem_num + 1` bytes for a table and then stores `elem_num + 1` `int`s.

  The offsets are those of a 64-bit machine. Memory that `malloc` hands out keeps the bytes it
  had. `MemPool/` has the pool without addresses, its tables in address spaces of their own;
  `Refine` says when this one behaves like it.
-/
import GameServer.Lib.Memory
import GameServer.MemPool.Basic

namespace GameServer.RawPool

open CInt Memory
open Pool (allocated endOfMem sizeofMemBlock sizeofMemPool sizeofInt)

/-- The memory, what `malloc` was asked for and where it put it, and the pointers passed to
    `free`; both newest first. -/
structure World where
  bytes : Mem
  obtained : List Region
  released : List Int

/-- Answers of the system `malloc` while one block is built (`none`: it returned NULL). -/
structure Grant where
  header : Option Int
  table : Option Int
  data : Option Int
  deriving DecidableEq, Repr

/-- A NULL pointer is dereferenced; a division has no result that fits; a loop over the block
    list has met more headers than were ever obtained. -/
inductive Fault where
  | nullDeref
  | divide
  | astray
  deriving DecidableEq, Repr

def World.obtain (w : World) (p : Int) (size : Nat) : World :=
  { w with obtained := ⟨p, size⟩ :: w.obtained }

def World.free (w : World) (p : Int) : World := { w with released := p :: w.released }

def World.memset (w : World) (p : Int) (v : UInt8) (n : Nat) : World :=
  { w with bytes := fill w.bytes p v n }

def World.setInt (w : World) (p v : Int) : World := { w with bytes := storeInt w.bytes p v }

def World.setPtr (w : World) (p v : Int) : World := { w with bytes := storePtr w.bytes p v }

/-! ## The fields of `mem_block_t` and `mem_pool_t` -/

def elemNum (m : Mem) (block : Int) : Int := loadInt m block
def elemSize (m : Mem) (block : Int) : Int := loadInt m (block + 4)
def head (m : Mem) (block : Int) : Int := loadInt m (block + 8)
def tail (m : Mem) (block : Int) : Int := loadInt m (block + 12)
def table (m : Mem) (block : Int) : Int := loadPtr m (block + 16)
def data (m : Mem) (block : Int) : Int := loadPtr m (block + 24)
def next (m : Mem) (block : Int) : Int := loadPtr m (block + 32)

def poolElemSize (m : Mem) (pool : Int) : Int := loadInt m pool
def poolElemNum (m : Mem) (pool : Int) : Int := loadInt m (pool + 4)
def poolElemTotal (m : Mem) (pool : Int) : Int := loadInt m (pool + 8)
def poolHead (m : Mem) (pool : Int) : Int := loadPtr m (pool + 16)
def poolTail (m : Mem) (pool : Int) : Int := loadPtr m (pool + 24)

/-- `block->table[i]` -/
def entry (m : Mem) (block i : Int) : Int := ints m (table m block) i

/-- `block->table[i] = v` -/
def World.setEntry (w : World) (block i v : Int) : World :=
  w.setInt (table w.bytes block + 4 * i) v

/-! ## Blocks -/

/-- The initialisation loop of `__mem_pool_alloc_block`, and the store behind it. -/
def World.initTable (w : World) (block elemNum : Int) : World :=
  ((List.range elemNum.toNat).foldl
    (fun w (i : Nat) => w.setEntry block i (i32 ((i : Int) + 1))) w).setEntry block elemNum
      endOfMem

/-- `__mem_pool_alloc_block` -/
def memPoolAllocBlock (w : World) (g : Grant) (elemSize elemNum : Int) : Option Int × World :=
  match g.header with
  | none => (none, w)
  | some block =>
    let w := (w.obtain block sizeofMemBlock).memset block 0 sizeofMemBlock
    match g.table with
    | none => (none, w.setPtr (block + 16) 0)
    | some table =>
      let w := (w.obtain table (sizeT (i32 (elemNum + 1)))).setPtr (block + 16) table
      let w := w.initTable block elemNum
      match g.data with
      | none => (none, w.setPtr (block + 24) 0)
      | some data =>
        let size := sizeT (i32 (elemSize * i32 (elemNum + 1)))
        let w := ((w.obtain data size).setPtr (block + 24) data).memset data 0 size
        let w := (w.setInt block elemNum).setInt (block + 4) elemSize
        let w := (w.setInt (block + 8) 0).setInt (block + 12) elemNum
        (some block, w.setPtr (block + 32) 0)

/-- `__mem_pool_free_block` -/
def memPoolFreeBlock (w : World) (block : Int) : World :=
  ((w.free (table w.bytes block)).free (data w.bytes block)).free block

/-! ## The pool's functions -/

/-- `mem_pool_t` as `mem_pool_create` fills it in before it asks for a block. -/
def World.initPool (w : World) (pool elemSize elemNum : Int) : World :=
  let w := (w.obtain pool sizeofMemPool).memset pool 0 sizeofMemPool
  ((w.setInt pool elemSize).setInt (pool + 4) elemNum).setInt (pool + 8) elemNum

/-- `mem_pool_create`. `poolAt` is the answer of `malloc(sizeof(mem_pool_t))`. -/
def memPoolCreate (w : World) (poolAt : Option Int) (g : Grant) (elemSize elemNum : Int) :
    Option Int × World :=
  match poolAt with
  | none => (none, w)
  | some pool =>
    let (blk, w) := memPoolAllocBlock (w.initPool pool elemSize elemNum) g elemSize elemNum
    (some pool, (w.setPtr (pool + 16) (blk.getD 0)).setPtr (pool + 24) (blk.getD 0))

/-- `FOREACH_BLOCK_LIST (pos, head)` up to the first block that passes the test. -/
def foreachBlockList (m : Mem) (test : Int → Except Fault Bool) :
    Nat → Int → Except Fault (Option Int)
  | 0, pos => if pos = 0 then .ok none else .error .astray
  | fuel + 1, pos =>
    if pos = 0 then .ok none
    else
      match test pos with
      | .error f => .error f
      | .ok true => .ok (some pos)
      | .ok false => foreachBlockList m test fuel (next m pos)

/-- A loop over the pool's list. A list that ends visits every header at most once. -/
def World.search (w : World) (pool : Int) (test : Int → Except Fault Bool) :
    Except Fault (Option Int) :=
  foreachBlockList w.bytes test w.obtained.length (poolHead w.bytes pool)

/-- The loop of `mem_pool_destroy`. -/
def freeBlocks : Nat → Int → World → Except Fault World
  | 0, block, w => if block = 0 then .ok w else .error .astray
  | fuel + 1, block, w =>
    if block = 0 then .ok w
    else freeBlocks fuel (next w.bytes block) (memPoolFreeBlock w block)

/-- `mem_pool_destroy` on a pool that is not NULL. -/
def memPoolDestroy (w : World) (pool : Int) : Except Fault World :=
  match freeBlocks w.obtained.length (poolHead w.bytes pool) w with
  | .error f => .error f
  | .ok w => .ok (w.free pool)

/-- `pos->head != pos->tail` -/
def hasRoom (m : Mem) (pos : Int) : Bool := head m pos != tail m pos

/-- The end of `mem_pool_malloc` on the chosen block. -/
def World.takeSlot (w : World) (block : Int) : Int × World :=
  let offset := i32 (head w.bytes block * elemSize w.bytes block)
  let head' := entry w.bytes block (head w.bytes block)
  let w := (w.setEntry block (head w.bytes block) allocated).setInt (block + 8) head'
  (ptrAdd (data w.bytes block) offset, w)

/-- `pool->tail->next = block; pool->tail = block; pool->elem_total += pool->elem_num;` -/
def World.link (w : World) (pool block : Int) : World :=
  let w := (w.setPtr (poolTail w.bytes pool + 32) block).setPtr (pool + 24) block
  w.setInt (pool + 8) (i32 (poolElemTotal w.bytes pool + poolElemNum w.bytes pool))

/-- `mem_pool_malloc`. The caller gets an address, or NULL when a block cannot be built. -/
def memPoolMalloc (w : World) (pool : Int) (g : Grant) : Except Fault (Option Int × World) :=
  match w.search pool fun pos => .ok (hasRoom w.bytes pos) with
  | .error f => .error f
  | .ok (some block) => .ok ((w.takeSlot block).map some id)
  | .ok none =>
    match memPoolAllocBlock w g (poolElemSize w.bytes pool)
        ((poolElemNum w.bytes pool).tdiv 3) with
    | (none, w) => .ok (none, w)
    | (some block, w) =>
      if poolTail w.bytes pool = 0 then .error .nullDeref
      else .ok (((w.link pool block).takeSlot block).map some id)

/-- `offset = (block->data - (char *)p)/block->elem_size` -/
def freeOffset (m : Mem) (block p : Int) : Except Fault Int :=
  let diff := ptrDiff (data m block) p
  if elemSize m block = 0 ∨ diff = -2 ^ 63 ∧ elemSize m block = -1 then .error .divide
  else .ok (i32 (diff.tdiv (elemSize m block)))

/-- `offset >= 0 && offset < block->elem_num` -/
def accepts (m : Mem) (p block : Int) : Except Fault Bool :=
  (freeOffset m block p).map fun offset =>
    decide (0 ≤ offset) && decide (offset < elemNum m block)

/-- `memset(p, '\0', sizeof(block->elem_size)); block->table[block->tail] = offset;
    block->table[offset] = ENDOFMEM;` -/
def World.putBack (w : World) (block p offset : Int) : World :=
  let w := w.memset p 0 sizeofInt
  (w.setEntry block (tail w.bytes block) offset).setEntry block offset endOfMem

/-- `mem_pool_free` -/
def memPoolFree (w : World) (pool p : Int) : Except Fault World :=
  match w.search pool (accepts w.bytes p) with
  | .error f => .error f
  | .ok none => .ok w
  | .ok (some block) => (freeOffset w.bytes block p).map (w.putBack block p)

/-! ## Runs -/

/-- What the pool's user does: it calls the pool, or writes a byte. -/
inductive Call where
  | malloc (g : Grant)
  | free (p : Int)
  | store (p : Int) (v : UInt8)
  deriving DecidableEq, Repr

/-- The machine, the pool, and the pointers returned by the pool and not freed since. After a
    fault nothing more happens. -/
structure Session where
  world : World
  pool : Int
  live : List Int
  fault : Option Fault

/-- The session that begins with `mem_pool_create`, if that does not return NULL, on a
    memory with the contents `m`. -/
def Session.create (m : Mem) (poolAt : Option Int) (g : Grant) (elemSize elemNum : Int) :
    Option Session :=
  match memPoolCreate ⟨m, [], []⟩ poolAt g elemSize elemNum with
  | (none, _) => none
  | (some pool, w) => some ⟨w, pool, [], none⟩

def Session.step (s : Session) (c : Call) : Session :=
  match s.fault, c with
  | some _, _ => s
  | none, .malloc g =>
    match memPoolMalloc s.world s.pool g with
    | .error f => { s with fault := some f }
    | .ok (r, w) => { s with world := w, live := r.toList ++ s.live }
  | none, .free p =>
    match memPoolFree s.world s.pool p with
    | .error f => { s with fault := some f }
    | .ok w => { s with world := w, live := s.live.erase p }
  | none, .store p v =>
    { s with world := { s.world with bytes := Function.update s.world.bytes p v } }

end GameServer.RawPool
