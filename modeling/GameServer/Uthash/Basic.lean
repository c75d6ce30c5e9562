/-
  The hash table of uthash/uthash.h: the macros that find, add, delete and clear, and the
  doubling of the buckets.

  The memory is one function for each field of a handle, and a partial map for the tables.
  An element and its handle stand for each other: `ELMT_FROM_HH` and the additions of `hho`
  translate between the two addresses. A key is its bytes, fewer than `2 ^ 32`, so `keylen` is
  their number; the macros keep the address, and the element leaves the bytes alone while it is
  in a table.
  Every `unsigned` wraps (`u32`).

  A run stops in `Halt.exit` where the source calls `uthash_fatal`, and in `Halt.wild` where
  it follows an invalid pointer, indexes outside an array, divides by zero or shifts by the
  width. What `malloc` answers is an argument. The loops over pointers take a number of rounds.

  Left out: the Bloom filter, `HASH_EMIT_KEYS` and the signatures, which are off or unread.
-/
import Mathlib.Algebra.Ring.Nat
import Mathlib.Logic.Function.Basic
import Mathlib.Data.List.Basic

namespace GameServer.Uthash

/-- Why a run does not return. -/
inductive Halt
  | exit
  | wild
  | rounds
  | oops
  deriving DecidableEq, Repr

/-- The value of an `unsigned`. -/
def u32 (n : Nat) : Nat := n % 2 ^ 32

/-- `UT_hash_bucket`. -/
structure Bucket (α : Type) where
  hhHead : Option α
  count : Nat
  expandMult : Nat
  deriving DecidableEq

/-- `UT_hash_table`. -/
structure Table (α : Type) where
  buckets : List (Bucket α)
  numBuckets : Nat
  log2NumBuckets : Nat
  numItems : Nat
  tail : Option α
  idealChainMaxlen : Nat
  nonidealItems : Nat
  ineffExpands : Nat
  noexpand : Bool
  deriving DecidableEq

/-- The fields of the handles `UT_hash_handle` in memory. -/
structure Handles (α τ : Type) where
  tbl : α → Option τ
  prev : α → Option α
  next : α → Option α
  hhPrev : α → Option α
  hhNext : α → Option α
  key : α → List UInt8
  hashv : α → UInt32

structure Store (α τ : Type) where
  hh : Handles α τ
  tables : τ → Option (Table α)

/-- What `malloc` answers: an address for a table, and whether there is room for so many
    buckets. -/
structure Malloc (τ : Type) where
  table : Option τ
  buckets : Nat → Bool

variable {α τ : Type} [DecidableEq α] [DecidableEq τ]

/-- `if (p) p->f = v`. -/
def setAt {β : Type} (f : α → β) : Option α → β → α → β
  | none, _ => f
  | some a, v => Function.update f a v

/-- `head->hh.tbl`, and the table there. -/
def Store.tbl (s : Store α τ) : Option α → Except Halt (τ × Table α)
  | none => .error .wild
  | some head =>
    match s.hh.tbl head with
    | none => .error .wild
    | some t =>
      match s.tables t with
      | none => .error .wild
      | some T => .ok (t, T)

def Store.setTable (s : Store α τ) (t : τ) (T : Option (Table α)) : Store α τ :=
  { s with tables := Function.update s.tables t T }

/-- `tbl->buckets[bkt]`. -/
def Table.bucket (T : Table α) (bkt : Nat) : Except Halt (Bucket α) :=
  match T.buckets[bkt]? with
  | none => .error .wild
  | some b => .ok b

def Table.setBucket (T : Table α) (bkt : Nat) (b : Bucket α) : Table α :=
  { T with buckets := T.buckets.set bkt b }

/-- `HASH_TO_BKT`. -/
def hashToBkt (hashv : UInt32) (numBkts : Nat) : Nat :=
  hashv.toNat &&& u32 (numBkts + (2 ^ 32 - 1))

/-! ## HASH_FIND -/

/-- `HASH_FIND_IN_BKT`. -/
def hashFindInBkt (hh : Handles α τ) (key : List UInt8) : Nat → Option α → Except Halt (Option α)
  | _, none => .ok none
  | 0, some _ => .error .rounds
  | rounds + 1, some out =>
    if hh.key out = key then .ok (some out) else hashFindInBkt hh key rounds (hh.hhNext out)

/-- `HASH_FIND`, where `fcn` is `HASH_FCN`. -/
def hashFind (fcn : List UInt8 → UInt32) (rounds : Nat) (s : Store α τ) (head : Option α)
    (key : List UInt8) : Except Halt (Option α) :=
  match head with
  | none => .ok none
  | some head => do
    let (_, T) ← s.tbl (some head)
    let b ← T.bucket (hashToBkt (fcn key) T.numBuckets)
    hashFindInBkt s.hh key rounds b.hhHead

/-- `HASH_CNT`. -/
def hashCnt (s : Store α τ) (head : Option α) : Except Halt Nat :=
  match head with
  | none => .ok 0
  | some head => do
    let (_, T) ← s.tbl (some head)
    .ok T.numItems

/-! ## HASH_JEN, which is `HASH_FCN` unless a build says otherwise -/

/-- A `char`, which is signed, where an `unsigned` is expected. -/
def charU (c : UInt8) : UInt32 := if c < 128 then c.toUInt32 else c.toUInt32 + 0xffffff00

/-- `HASH_JEN_MIX`. -/
def hashJenMix (a b h : UInt32) : UInt32 × UInt32 × UInt32 :=
  let a := (a - b - h) ^^^ (h >>> 13)
  let b := (b - h - a) ^^^ (a <<< 8)
  let h := (h - a - b) ^^^ (b >>> 13)
  let a := (a - b - h) ^^^ (h >>> 12)
  let b := (b - h - a) ^^^ (a <<< 16)
  let h := (h - a - b) ^^^ (b >>> 5)
  let a := (a - b - h) ^^^ (h >>> 3)
  let b := (b - h - a) ^^^ (a <<< 10)
  let h := (h - a - b) ^^^ (b >>> 15)
  (a, b, h)

/-- Four characters, the first one lowest. -/
def jenWord (key : List UInt8) (n : Nat) : UInt32 :=
  charU (key.getD n 0) + (charU (key.getD (n + 1) 0) <<< 8) +
    (charU (key.getD (n + 2) 0) <<< 16) + (charU (key.getD (n + 3) 0) <<< 24)

/-- The loop over twelve characters at a time; the last ones are left. -/
def jenLoop : Nat → List UInt8 → UInt32 → UInt32 → UInt32 → UInt32 × UInt32 × UInt32 × List UInt8
  | 0, key, i, j, hashv => (i, j, hashv, key)
  | n + 1, key, i, j, hashv =>
    let (i, j, hashv) := hashJenMix (i + jenWord key 0) (j + jenWord key 4) (hashv + jenWord key 8)
    jenLoop n (key.drop 12) i j hashv

/-- `HASH_JEN`. The `switch` adds the characters that are there; the lowest byte of `hashv` is
    left to the length. -/
def hashJen (key : List UInt8) : UInt32 :=
  let (i, j, hashv, key') := jenLoop (key.length / 12) key 0x9e3779b9 0x9e3779b9 0xfeedbeef
  let hashv := hashv + UInt32.ofNat key.length + (charU (key'.getD 10 0) <<< 24) +
    (charU (key'.getD 9 0) <<< 16) + (charU (key'.getD 8 0) <<< 8)
  (hashJenMix (i + jenWord key' 0) (j + jenWord key' 4) hashv).2.2

/-! ## HASH_EXPAND_BUCKETS -/

/-- The links of a handle that goes in front of the chain from `head`. -/
def Handles.linkHh (hh : Handles α τ) (head : Option α) (x : α) : Handles α τ :=
  { hh with
    hhNext := Function.update hh.hhNext x head
    hhPrev := setAt (Function.update hh.hhPrev x none) head (some x) }

/-- What the redistribution has written so far. -/
structure Expansion (α τ : Type) where
  hh : Handles α τ
  newBuckets : List (Bucket α)
  nonideal : Nat

/-- One round of the inner loop: the handle `thh` goes to its new bucket. -/
def expandStep (ideal numBuckets : Nat) (st : Expansion α τ) (thh : α) :
    Except Halt (Expansion α τ) :=
  let bkt := hashToBkt (st.hh.hashv thh) (u32 (numBuckets * 2))
  match st.newBuckets[bkt]? with
  | none => .error .wild
  | some newbkt =>
    let count := u32 (newbkt.count + 1)
    let hh := st.hh.linkHh newbkt.hhHead thh
    if count > ideal then
      if ideal = 0 then .error .wild
      else .ok ⟨hh, st.newBuckets.set bkt ⟨some thh, count, count / ideal⟩, u32 (st.nonideal + 1)⟩
    else .ok ⟨hh, st.newBuckets.set bkt ⟨some thh, count, newbkt.expandMult⟩, st.nonideal⟩

/-- The inner loop over one old bucket. -/
def expandChain (ideal numBuckets : Nat) :
    Nat → Option α → Expansion α τ → Except Halt (Expansion α τ)
  | _, none, st => .ok st
  | 0, some _, _ => .error .rounds
  | rounds + 1, some thh, st => do
    let hhNxt := st.hh.hhNext thh
    let st ← expandStep ideal numBuckets st thh
    expandChain ideal numBuckets rounds hhNxt st

/-- `tbl->ideal_chain_maxlen` for twice the buckets. -/
def idealChain (T : Table α) : Nat :=
  u32 (T.numItems >>> (T.log2NumBuckets + 1) +
    if T.numItems &&& u32 (u32 (T.numBuckets * 2) + (2 ^ 32 - 1)) ≠ 0 then 1 else 0)

/-- `HASH_EXPAND_BUCKETS`. -/
def hashExpandBuckets (mem : Malloc τ) (rounds : Nat) (t : τ) (T : Table α) (s : Store α τ) :
    Except Halt (Store α τ) :=
  if mem.buckets (u32 (2 * T.numBuckets)) = false then .error .exit
  else if 32 ≤ T.log2NumBuckets + 1 then .error .wild
  else do
    let ideal := idealChain T
    let st ← (List.range T.numBuckets).foldlM
      (fun st bktI => do
        let b ← T.bucket bktI
        expandChain ideal T.numBuckets rounds b.hhHead st)
      ⟨s.hh, List.replicate (u32 (2 * T.numBuckets)) ⟨none, 0, 0⟩, 0⟩
    let ineff := if st.nonideal > T.numItems >>> 1 then u32 (T.ineffExpands + 1) else 0
    .ok { hh := st.hh
          tables := Function.update s.tables t (some
            { T with
              buckets := st.newBuckets
              numBuckets := u32 (T.numBuckets * 2)
              log2NumBuckets := u32 (T.log2NumBuckets + 1)
              idealChainMaxlen := ideal
              nonidealItems := st.nonideal
              ineffExpands := ineff
              noexpand := T.noexpand || decide (ineff > 1) }) }

/-! ## HASH_ADD -/

/-- The table that `HASH_MAKE_TABLE` sets up. -/
def newTable (head : α) : Table α where
  buckets := List.replicate 32 ⟨none, 0, 0⟩
  numBuckets := 32
  log2NumBuckets := 5
  numItems := 0
  tail := some head
  idealChainMaxlen := 0
  nonidealItems := 0
  ineffExpands := 0
  noexpand := false

/-- `HASH_MAKE_TABLE`. -/
def hashMakeTable (mem : Malloc τ) (head : α) (s : Store α τ) : Except Halt (Store α τ) :=
  match mem.table with
  | none => .error .exit
  | some t =>
    if mem.buckets 32 = false then .error .exit
    else .ok { hh := { s.hh with tbl := Function.update s.hh.tbl head (some t) }
               tables := Function.update s.tables t (some (newTable head)) }

/-- `HASH_ADD_TO_BKT` for bucket `bkt` of the table at `t`. -/
def hashAddToBkt (mem : Malloc τ) (rounds : Nat) (t : τ) (T : Table α) (bkt : Nat) (addhh : α)
    (s : Store α τ) : Except Halt (Store α τ) := do
  let b ← T.bucket bkt
  let count := u32 (b.count + 1)
  let s := { s with hh := s.hh.linkHh b.hhHead addhh }
  let s := s.setTable t (some (T.setBucket bkt ⟨some addhh, count, b.expandMult⟩))
  let (t, T) ← s.tbl (some addhh)
  if count ≥ u32 (u32 (b.expandMult + 1) * 10) ∧ T.noexpand = false then
    hashExpandBuckets mem rounds t T s
  else .ok s

/-- The link and the key that an element has when it is added. -/
def Handles.setKey (hh : Handles α τ) (add : α) (key : List UInt8) : Handles α τ :=
  { hh with
    next := Function.update hh.next add none
    key := Function.update hh.key add key }

/-- The first part of `HASH_ADD_KEYPTR`: the element goes last in app order. -/
def linkLast (mem : Malloc τ) (head : Option α) (add : α) (s : Store α τ) :
    Except Halt (α × Store α τ) :=
  match head with
  | none => do
    let s := { s with hh := { s.hh with prev := Function.update s.hh.prev add none } }
    let s ← hashMakeTable mem add s
    .ok (add, s)
  | some head => do
    let (t, T) ← s.tbl (some head)
    match T.tail with
    | none => .error .wild
    | some tail =>
      let s := { s with hh := { s.hh with
        next := Function.update s.hh.next tail (some add)
        prev := Function.update s.hh.prev add (some tail) } }
      .ok (head, s.setTable t (some { T with tail := some add }))

/-- `num_items++`. -/
def Table.addItem (T : Table α) : Table α := { T with numItems := u32 (T.numItems + 1) }

/-- The table and the hash value of an element that is added. -/
def Handles.setHash (hh : Handles α τ) (add : α) (t : τ) (hashv : UInt32) : Handles α τ :=
  { hh with
    tbl := Function.update hh.tbl add (some t)
    hashv := Function.update hh.hashv add hashv }

/-- The second part: the element is counted, hashed and put in its bucket. -/
def addHashed (fcn : List UInt8 → UInt32) (mem : Malloc τ) (rounds : Nat) (head : α)
    (key : List UInt8) (add : α) (s : Store α τ) : Except Halt (Store α τ) := do
  let (t, T) ← s.tbl (some head)
  let T := T.addItem
  let s := { s.setTable t (some T) with hh := s.hh.setHash add t (fcn key) }
  hashAddToBkt mem rounds t T (hashToBkt (fcn key) T.numBuckets) add s

/-- `HASH_ADD_KEYPTR`. -/
def hashAddKeyptr (fcn : List UInt8 → UInt32) (mem : Malloc τ) (rounds : Nat)
    (head : Option α) (key : List UInt8) (add : α) (s : Store α τ) :
    Except Halt (Option α × Store α τ) := do
  let s := { s with hh := s.hh.setKey add key }
  let (head, s) ← linkLast mem head add s
  let s ← addHashed fcn mem rounds head key add s
  .ok (some head, s)

/-! ## HASH_DELETE -/

/-- The links around a handle that leaves its bucket. -/
def Handles.unlinkHh (hh : Handles α τ) (x : α) : Handles α τ :=
  let hh := { hh with hhNext := setAt hh.hhNext (hh.hhPrev x) (hh.hhNext x) }
  { hh with hhPrev := setAt hh.hhPrev (hh.hhNext x) (hh.hhPrev x) }

/-- `HASH_DEL_IN_BKT` for bucket `bkt` of the table at `t`. -/
def hashDelInBkt (t : τ) (T : Table α) (bkt : Nat) (hhDel : α) (s : Store α τ) :
    Except Halt (Store α τ) := do
  let b ← T.bucket bkt
  let hhHead := if b.hhHead = some hhDel then s.hh.hhNext hhDel else b.hhHead
  let s := s.setTable t
    (some (T.setBucket bkt ⟨hhHead, u32 (b.count + (2 ^ 32 - 1)), b.expandMult⟩))
  .ok { s with hh := s.hh.unlinkHh hhDel }

/-- The links around an element that leaves the app order. -/
def Handles.unlink (hh : Handles α τ) (x : α) : Handles α τ :=
  let hh := { hh with next := setAt hh.next (hh.prev x) (hh.next x) }
  { hh with prev := setAt hh.prev (hh.next x) (hh.prev x) }

/-- `HASH_DELETE`. -/
def hashDelete (head : Option α) (delptr : α) (s : Store α τ) :
    Except Halt (Option α × Store α τ) := do
  let (t, T) ← s.tbl head
  if s.hh.prev delptr = none ∧ s.hh.next delptr = none then
    .ok (none, s.setTable t none)
  else
    let s := if some delptr = T.tail then
        s.setTable t (some { T with tail := s.hh.prev delptr })
      else s
    let head := if s.hh.prev delptr = none then s.hh.next delptr else head
    let s := { s with hh := s.hh.unlink delptr }
    let (t, T) ← s.tbl head
    let s ← hashDelInBkt t T (hashToBkt (s.hh.hashv delptr) T.numBuckets) delptr s
    let (t, T) ← s.tbl head
    .ok (head, s.setTable t (some { T with numItems := u32 (T.numItems + (2 ^ 32 - 1)) }))

/-- `HASH_CLEAR`. -/
def hashClear (head : Option α) (s : Store α τ) : Except Halt (Option α × Store α τ) :=
  match head with
  | none => .ok (none, s)
  | some head => do
    let (t, _) ← s.tbl (some head)
    .ok (none, s.setTable t none)

end GameServer.Uthash
