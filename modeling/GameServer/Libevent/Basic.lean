/-
  The byte buffers of libevent, `src/3rd/libevent/buffer.c`, as far as the daemons use them:
  a socket is read into one by `evbuffer_read`, the callbacks take bytes out with
  `evbuffer_remove`, append with `evbuffer_add` and move everything with
  `evbuffer_add_buffer`, and `evbuffer_write_atmost` writes to the socket.

  The chains of a buffer are a list in the order of their `next` pointers; `last` is the end
  of the list. `last_with_datap` points to one of the next pointers: 0 stands for
  `&buf->first`, `i + 1` for the `next` of chain `i`, so the pointer it points to is chain
  number `lastWithDatap`, or NULL at the end of the list.

  None of these calls sets a flag of a chain, so the branches for pinned, immutable, mapped
  and sendfile chains are left out. What malloc, readv and writev do is an argument of the
  functions. A `Fault` is the end of the process: an `EVUTIL_ASSERT` that fails, a chain
  pointer that is NULL when it is followed, a copy that leaves the memory of a chain.
-/
import GameServer.Lib.Slice
import Mathlib.Algebra.BigOperators.Group.List.Basic
import Mathlib.Algebra.Ring.Int.Defs
import Mathlib.Algebra.Ring.Nat

namespace GameServer.Libevent

open Slice

inductive Fault where
  | assertion
  | null
  | bounds
  deriving DecidableEq, Repr

/-- The constants that depend on the build. -/
structure Build where
  sizeMax : Nat
  chainMax : Nat
  chainSize : Nat
  minBufferSize : Nat
  chainSize_lt : chainSize < minBufferSize
  minBufferSize_le : 2 * minBufferSize ≤ chainMax
  chainMax_le : chainMax ≤ sizeMax
  sizeMax_lt : sizeMax < 2 ^ 64

/-- A build for 64 bits. -/
def lp64 : Build :=
  ⟨2 ^ 64 - 1, 2 ^ 63 - 1, 48, 1024, by decide, by decide, by decide, by decide⟩

/-- What malloc returns: NULL, or memory with something in it. -/
abbrev Memory := Option (Nat → UInt8)

/-! ## Chains -/

/-- `struct evbuffer_chain`; `buffer_len` is the length of `buffer`. -/
structure EvbufferChain where
  buffer : List UInt8
  misalign : Nat
  off : Nat
  deriving DecidableEq, Repr

namespace EvbufferChain

def bufferLen (chain : EvbufferChain) : Nat := chain.buffer.length

/-- The bytes that the chain holds. -/
def data (chain : EvbufferChain) : List UInt8 := slice chain.buffer chain.misalign chain.off

/-- `CHAIN_SPACE_LEN` -/
def spaceLen (chain : EvbufferChain) : Nat := chain.bufferLen - (chain.misalign + chain.off)

/-- `memcpy(chain->buffer + pos, data, ..)` -/
def write (chain : EvbufferChain) (pos : Nat) (data : List UInt8) : Except Fault EvbufferChain :=
  if pos + data.length ≤ chain.bufferLen then
    .ok { chain with buffer := overwrite chain.buffer pos data }
  else .error .bounds

/-- `memcpy(.., chain->buffer + chain->misalign, n)` -/
def read (chain : EvbufferChain) (n : Nat) : Except Fault (List UInt8) :=
  if chain.misalign + n ≤ chain.bufferLen then .ok (slice chain.buffer chain.misalign n)
  else .error .bounds

/-- `memcpy` to the end of what the chain holds, which then counts as held. -/
def append (chain : EvbufferChain) (data : List UInt8) : Except Fault EvbufferChain := do
  let chain ← chain.write (chain.misalign + chain.off) data
  return { chain with off := chain.off + data.length }

end EvbufferChain

/-- `while (to_alloc < size) to_alloc <<= 1` -/
def doubleUpTo (size : Nat) : Nat → Nat → Nat
  | 0, toAlloc => toAlloc
  | fuel + 1, toAlloc =>
    if toAlloc < size then doubleUpTo size fuel (2 * toAlloc) else toAlloc

/-- The number of bytes that `evbuffer_chain_new` asks for; `size` has the header in it. A
    size has at most 64 bits. -/
def toAlloc (B : Build) (size : Nat) : Nat :=
  if size < B.chainMax / 2 then doubleUpTo size 64 B.minBufferSize else size

/-- `evbuffer_chain_new` -/
def evbufferChainNew (B : Build) (size : Nat) (memory : Memory) : Option EvbufferChain :=
  if size > B.chainMax - B.chainSize then none
  else
    let bufferLen := toAlloc B (size + B.chainSize) - B.chainSize
    memory.map fun contents => ⟨(List.range bufferLen).map contents, 0, 0⟩

/-- `evbuffer_chain_align` -/
def evbufferChainAlign (chain : EvbufferChain) : Except Fault EvbufferChain := do
  let held ← chain.read chain.off
  let chain ← chain.write 0 held
  return { chain with misalign := 0 }

/-- `evbuffer_chain_should_realign` -/
def evbufferChainShouldRealign (chain : EvbufferChain) (datlen : Nat) : Bool :=
  chain.bufferLen - chain.off ≥ datlen ∧ chain.off < chain.bufferLen / 2 ∧ chain.off ≤ 2048

/-! ## Buffers -/

/-- `struct evbuffer`, without locks and reference count. -/
structure Evbuffer where
  chains : List EvbufferChain
  lastWithDatap : Nat
  totalLen : Nat
  nAddForCb : Nat
  nDelForCb : Nat
  freezeStart : Bool
  freezeEnd : Bool
  deriving DecidableEq, Repr

namespace Evbuffer

/-- `evbuffer_new` -/
def new : Evbuffer := ⟨[], 0, 0, 0, 0, false, false⟩

/-- The bytes in the buffer. -/
def contents (buf : Evbuffer) : List UInt8 := buf.chains.flatMap EvbufferChain.data

/-- `ZERO_CHAIN` -/
def zeroChain (buf : Evbuffer) : Evbuffer :=
  { buf with chains := [], lastWithDatap := 0, totalLen := 0 }

/-- `*buf->last = chain` -/
def setLast (buf : Evbuffer) (chain : EvbufferChain) : Evbuffer :=
  { buf with chains := buf.chains.dropLast ++ [chain] }

/-- `buf->total_len += n; buf->n_add_for_cb += n` -/
def grow (buf : Evbuffer) (n : Nat) : Evbuffer :=
  { buf with totalLen := buf.totalLen + n, nAddForCb := buf.nAddForCb + n }

end Evbuffer

/-- `evbuffer_get_length` -/
def evbufferGetLength (buf : Evbuffer) : Nat := buf.totalLen

/-- `evbuffer_freeze` and `evbuffer_unfreeze` -/
def evbufferFreeze (buf : Evbuffer) (start : Bool) : Evbuffer :=
  if start then { buf with freezeStart := true } else { buf with freezeEnd := true }

def evbufferUnfreeze (buf : Evbuffer) (start : Bool) : Evbuffer :=
  if start then { buf with freezeStart := false } else { buf with freezeEnd := false }

def holdsNothing (chain : EvbufferChain) : Bool := chain.off = 0

/-- `evbuffer_chain_insert`. The victims are the chains from the first empty one on, at or
    behind the chain that `last_with_datap` leads to. -/
def evbufferChainInsert (buf : Evbuffer) (chain : EvbufferChain) : Except Fault Evbuffer :=
  let front := buf.chains.take buf.lastWithDatap
  let tail := buf.chains.drop buf.lastWithDatap
  let buf' := { buf with totalLen := buf.totalLen + chain.off }
  if tail = [] then
    if buf.lastWithDatap = 0 ∧ buf.chains = [] then .ok { buf' with chains := [chain] }
    else .error .assertion
  else
    let kept := tail.takeWhile fun c => !holdsNothing c
    let victims := tail.dropWhile fun c => !holdsNothing c
    if victims = [] then
      .ok { buf' with
        chains := buf.chains ++ [chain]
        lastWithDatap := if chain.off ≠ 0 then buf.chains.length else buf.lastWithDatap }
    else if victims.all holdsNothing then .ok { buf' with chains := front ++ kept ++ [chain] }
    else .error .assertion

/-! ## Taking bytes out -/

/-- The loop of `evbuffer_drain`: `i` is the position of the chain at the front, `lwd` the
    slot of `last_with_datap` before the front moves. `buf->first` only changes after the
    loop; then slot `j` is slot `j - i`. -/
def drainLoop : Nat → Nat → Nat → List EvbufferChain →
    Except Fault (Nat × Nat × EvbufferChain × List EvbufferChain)
  | _, _, _, [] => .error .null
  | remaining, i, lwd, chain :: next =>
    if remaining ≥ chain.off then
      let lwd := if i = lwd then 0 else lwd
      let lwd := if i + 1 = lwd then 0 else lwd
      drainLoop (remaining - chain.off) (i + 1) lwd next
    else .ok (remaining, lwd - i, chain, next)

/-- `evbuffer_drain` -/
def evbufferDrain (buf : Evbuffer) (len : Nat) : Except Fault (Int × Evbuffer) :=
  if buf.totalLen = 0 then .ok (0, buf)
  else if buf.freezeStart then .ok (-1, buf)
  else if len ≥ buf.totalLen then
    .ok (0, { buf.zeroChain with nDelForCb := buf.nDelForCb + buf.totalLen })
  else do
    let (remaining, lwd, chain, next) ← drainLoop len 0 buf.lastWithDatap buf.chains
    if remaining ≤ chain.off then
      let chain := { chain with
        misalign := chain.misalign + remaining, off := chain.off - remaining }
      return (0, { buf with
        chains := chain :: next
        lastWithDatap := lwd
        totalLen := buf.totalLen - len
        nDelForCb := buf.nDelForCb + len })
    else throw .assertion

/-- The loop of `evbuffer_copyout` and the copy after it. -/
def copyoutLoop : Nat → List EvbufferChain → Except Fault (List UInt8)
  | datlen, [] => if datlen = 0 then .ok [] else .error .null
  | datlen, chain :: next =>
    if datlen = 0 then .ok []
    else if datlen ≥ chain.off then do
      let bytes ← chain.read chain.off
      if next = [] ∧ datlen - chain.off ≠ 0 then throw .assertion
      let more ← copyoutLoop (datlen - chain.off) next
      return bytes ++ more
    else chain.read datlen

/-- `evbuffer_copyout`: the result and the bytes copied to `data_out`. -/
def evbufferCopyout (buf : Evbuffer) (datlen : Nat) : Except Fault (Int × List UInt8) :=
  let datlen := if datlen ≥ buf.totalLen then buf.totalLen else datlen
  if datlen = 0 then .ok (0, [])
  else if buf.freezeStart then .ok (-1, [])
  else do
    let bytes ← copyoutLoop datlen buf.chains
    return (datlen, bytes)

/-- `evbuffer_remove` -/
def evbufferRemove (buf : Evbuffer) (datlen : Nat) :
    Except Fault (Int × List UInt8 × Evbuffer) := do
  let (n, bytes) ← evbufferCopyout buf datlen
  if n > 0 then
    let (result, buf) ← evbufferDrain buf n.toNat
    return (if result < 0 then -1 else n, bytes, buf)
  else return (n, bytes, buf)

/-! ## Appending -/

/-- The part of `evbuffer_add` behind the first allocation: `chain` is `buf->last`. -/
def addToLast (B : Build) (buf : Evbuffer) (data : List UInt8) (memory : Memory) :
    Except Fault (Int × Evbuffer) :=
  match buf.chains.getLast? with
  | none => .error .null
  | some chain => do
    if ¬ chain.misalign ≤ B.chainMax then throw .assertion
    let remain := chain.bufferLen - chain.misalign - chain.off
    if remain ≥ data.length then
      let chain ← chain.append data
      return (0, (buf.setLast chain).grow data.length)
    else if evbufferChainShouldRealign chain data.length then
      let chain ← evbufferChainAlign chain
      let chain ← chain.append data
      return (0, (buf.setLast chain).grow data.length)
    else
      let wanted := if chain.bufferLen ≤ 4096 / 2 then 2 * chain.bufferLen else chain.bufferLen
      let wanted := if data.length > wanted then data.length else wanted
      match evbufferChainNew B wanted memory with
      | none => return (-1, buf)
      | some tmp =>
        let chain ← chain.append (data.take remain)
        let tmp ← tmp.append (data.drop remain)
        let buf ← evbufferChainInsert ((buf.setLast chain).grow remain) tmp
        return (0, { buf with nAddForCb := buf.nAddForCb + tmp.off })

/-- `evbuffer_add`. It allocates once: a chain made for an empty buffer holds all the data. -/
def evbufferAdd (B : Build) (buf : Evbuffer) (data : List UInt8) (memory : Memory) :
    Except Fault (Int × Evbuffer) :=
  if buf.freezeEnd then .ok (-1, buf)
  else if data.length > B.sizeMax - buf.totalLen then .ok (-1, buf)
  else if buf.chains = [] then
    match evbufferChainNew B data.length memory with
    | none => .ok (-1, buf)
    | some chain => do
      let buf ← evbufferChainInsert buf chain
      addToLast B buf data memory
  else addToLast B buf data memory

/-- `evbuffer_add_buffer` for two different buffers: result, `outbuf`, `inbuf`. -/
def evbufferAddBuffer (outbuf inbuf : Evbuffer) : Except Fault (Int × Evbuffer × Evbuffer) :=
  if inbuf.totalLen = 0 then .ok (0, outbuf, inbuf)
  else if outbuf.freezeEnd ∨ inbuf.freezeStart then .ok (-1, outbuf, inbuf)
  else if outbuf.totalLen ≠ 0 ∧ outbuf.chains = [] then .error .null
  else
    let joined :=
      if outbuf.totalLen = 0 then
        -- COPY_CHAIN
        { outbuf with
          chains := inbuf.chains
          lastWithDatap := inbuf.lastWithDatap
          totalLen := inbuf.totalLen }
      else
        -- APPEND_CHAIN: `&src->first` becomes `&dst->last->next`
        { outbuf with
          chains := outbuf.chains ++ inbuf.chains
          lastWithDatap := outbuf.chains.length + inbuf.lastWithDatap
          totalLen := outbuf.totalLen + inbuf.totalLen }
    .ok (0, { joined with nAddForCb := outbuf.nAddForCb + inbuf.totalLen },
      { inbuf.zeroChain with nDelForCb := inbuf.nDelForCb + inbuf.totalLen })

/-! ## Reading from a socket -/

/-- How the loop of `_evbuffer_expand_fast` ends. -/
inductive Scan where
  | enough
  | ranOff (avail : Nat)
  | full
  deriving DecidableEq, Repr

/-- The loop of `_evbuffer_expand_fast` over the chains from `*buf->last_with_datap` on;
    `atLast` says that the front is that chain. -/
def scanSpace (datlen n : Nat) : Bool → Nat → Nat → List EvbufferChain →
    Except Fault (Scan × List EvbufferChain)
  | _, avail, _, [] => .ok (.ranOff avail, [])
  | atLast, avail, used, chain :: next =>
    if chain.off ≠ 0 ∧ ¬ atLast then .error .assertion
    else
      let space := if chain.off ≠ 0 then chain.spaceLen else chain.bufferLen
      let used := if chain.off ≠ 0 ∧ space = 0 then used else used + 1
      let chain := if chain.off ≠ 0 then chain else { chain with misalign := 0 }
      if avail + space ≥ datlen then .ok (.enough, chain :: next)
      else if used = n then .ok (.full, chain :: next)
      else do
        let (scan, next) ← scanSpace datlen n false (avail + space) used next
        return (scan, chain :: next)

/-- The end of `_evbuffer_expand_fast`, for when `n` chains do not have the space: one new
    chain for all the empty ones. -/
def replaceEmpty (B : Build) (buf : Evbuffer) (datlen : Nat) (memory : Memory) :
    Except Fault (Int × Evbuffer) :=
  match buf.chains.drop buf.lastWithDatap with
  | [] => .error .null
  | chain :: next => do
    let rmvAll := holdsNothing chain
    if rmvAll ∧ buf.lastWithDatap ≠ 0 then throw .assertion
    let avail := if rmvAll then 0 else chain.spaceLen
    if ¬ next.all holdsNothing then throw .assertion
    if datlen < avail then throw .assertion
    let kept := if rmvAll then [] else buf.chains.take buf.lastWithDatap ++ [chain]
    match evbufferChainNew B (datlen - avail) memory with
    | none =>
      return (-1, if rmvAll then buf.zeroChain else { buf with chains := kept })
    | some tmp =>
      return (0, { buf with
        chains := kept ++ [tmp]
        lastWithDatap := if rmvAll then 0 else buf.lastWithDatap })

/-- `_evbuffer_expand_fast` -/
def evbufferExpandFast (B : Build) (buf : Evbuffer) (datlen n : Nat) (memory : Memory) :
    Except Fault (Int × Evbuffer) :=
  if buf.chains = [] then
    match evbufferChainNew B datlen memory with
    | none => .ok (-1, buf)
    | some chain => do
      let buf ← evbufferChainInsert buf chain
      return (0, buf)
  else do
    let (scan, tail) ← scanSpace datlen n true 0 0 (buf.chains.drop buf.lastWithDatap)
    let buf := { buf with chains := buf.chains.take buf.lastWithDatap ++ tail }
    match scan with
    | .enough => return (0, buf)
    | .ranOff avail =>
      match evbufferChainNew B (datlen - avail) memory with
      | none => return (-1, buf)
      | some tmp => return (0, { buf with chains := buf.chains ++ [tmp] })
    | .full => replaceEmpty B buf datlen memory

/-- The slot that `_evbuffer_read_setup_vecs` leaves in `*chainp`: the first chain with
    space. -/
def firstSpace (buf : Evbuffer) : Except Fault Nat :=
  match buf.chains[buf.lastWithDatap]? with
  | none => .error .null
  | some chain =>
    .ok (if chain.spaceLen = 0 then buf.lastWithDatap + 1 else buf.lastWithDatap)

/-- The loop of `_evbuffer_read_setup_vecs`: the lengths of the vectors. -/
def setupVecs (howmuch : Nat) : Nat → Nat → List EvbufferChain → Except Fault (List Nat)
  | 0, _, _ => .ok []
  | n + 1, soFar, chains =>
    if soFar < howmuch then
      match chains with
      | [] => .error .null
      | chain :: next => do
        let avail := if chain.spaceLen > howmuch - soFar then howmuch - soFar else chain.spaceLen
        let vecs ← setupVecs howmuch n (soFar + avail) next
        return avail :: vecs
    else .ok []

/-- readv stores the bytes behind what the chains hold, each vector in turn. -/
def storeVecs : List Nat → List UInt8 → List EvbufferChain → Except Fault (List EvbufferChain)
  | len :: vecs, bytes, chain :: next => do
    let chain ← chain.write (chain.misalign + chain.off) (bytes.take len)
    let next ← storeVecs vecs (bytes.drop len) next
    return chain :: next
  | _, _, chains => .ok chains

/-- The loop of `evbuffer_read` that counts the bytes as held: the new `last_with_datap`
    with the chains. `slot` is `chainp`. -/
def commitVecs (B : Build) : Nat → Nat → Nat → Nat → List EvbufferChain →
    Except Fault (Nat × List EvbufferChain)
  | 0, _, _, lwd, chains => .ok (lwd, chains)
  | _ + 1, _, _, _, [] => .error .null
  | n + 1, remaining, slot, lwd, chain :: next =>
    let space := if chain.spaceLen > B.chainMax then B.chainMax else chain.spaceLen
    if space < remaining then do
      let (lwd, next) ← commitVecs B n (remaining - space) (slot + 1) lwd next
      return (lwd, { chain with off := chain.off + space } :: next)
    else .ok (slot, { chain with off := chain.off + remaining } :: next)

/-- What readv finds: bytes, the end of the stream, or an error. -/
inductive Arrived where
  | bytes (pending : List UInt8) (nonempty : pending ≠ [])
  | eof
  | error

/-- `evbuffer_read`: the result, the buffer and the bytes that left the socket. `readable` is
    what `get_n_bytes_readable_on_socket` says. -/
def evbufferRead (B : Build) (buf : Evbuffer) (readable howmuch : Int) (arrived : Arrived)
    (memory : Memory) : Except Fault (Int × Evbuffer × List UInt8) :=
  if buf.freezeEnd then .ok (-1, buf, [])
  else do
    let n : Int := if readable ≤ 0 ∨ readable > 4096 then 4096 else readable
    let howmuch : Int := if howmuch < 0 ∨ howmuch > n then n else howmuch
    let (expanded, buf) ← evbufferExpandFast B buf howmuch.toNat 4 memory
    if expanded = -1 then return (-1, buf, [])
    let slot ← firstSpace buf
    let vecs ← setupVecs howmuch.toNat 4 0 (buf.chains.drop slot)
    match arrived with
    | .error => return (-1, buf, [])
    | .eof => return (0, buf, [])
    | .bytes pending _ =>
      let bytes := pending.take vecs.sum
      let stored ← storeVecs vecs bytes (buf.chains.drop slot)
      let (lwd, tail) ← commitVecs B vecs.length bytes.length slot buf.lastWithDatap stored
      return (bytes.length, { buf with
          chains := buf.chains.take slot ++ tail
          lastWithDatap := lwd
          totalLen := buf.totalLen + bytes.length
          nAddForCb := buf.nAddForCb + bytes.length }, bytes)

/-! ## Writing to a socket -/

/-- The loop of `evbuffer_write_iovec`: what the vectors hold. -/
def writeVecs : Nat → Nat → List EvbufferChain → Except Fault (List (List UInt8))
  | 0, _, _ => .ok []
  | _ + 1, _, [] => .ok []
  | n + 1, howmuch, chain :: next =>
    if howmuch = 0 then .ok []
    else if howmuch ≥ chain.off then do
      let vec ← chain.read chain.off
      let vecs ← writeVecs n (howmuch - chain.off) next
      return vec :: vecs
    else do
      let vec ← chain.read howmuch
      return [vec]

/-- What writev does: it takes up to so many bytes, or fails. -/
inductive Accepted where
  | upTo (n : Nat)
  | error
  deriving DecidableEq

/-- `evbuffer_write_atmost`: the result, the buffer and the bytes that writev took. -/
def evbufferWriteAtmost (buf : Evbuffer) (howmuch : Int) (accepted : Accepted) :
    Except Fault (Int × Evbuffer × List UInt8) :=
  if buf.freezeStart then .ok (-1, buf, [])
  else do
    let howmuch : Int :=
      if howmuch < 0 ∨ howmuch > buf.totalLen then buf.totalLen else howmuch
    if howmuch > 0 then
      let vecs ← writeVecs 128 howmuch.toNat buf.chains
      if vecs = [] then return (0, buf, [])
      match accepted with
      | .error => return (-1, buf, [])
      | .upTo n =>
        let sent := vecs.flatten.take n
        if sent.length > 0 then
          let (_, buf) ← evbufferDrain buf sent.length
          return (sent.length, buf, sent)
        else return (0, buf, [])
    else return (-1, buf, [])

end GameServer.Libevent
