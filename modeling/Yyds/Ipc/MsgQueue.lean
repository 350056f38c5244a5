import Yyds.Lib.Bytes
import Yyds.Kernel.Sys

/-! One message queue of `messagequeue.c`: a page that holds a list of messages. `struct msg` has
its `next` at 0, `type` at 8, `dataaddr` at 16 and `datasize` at 24. -/
namespace Yyds.Ipc

open Lib

abbrev Byte := BitVec 8

/-- `struct mq` with the memory its messages are in. -/
structure Mq where
  mem : Bytes
  msgs : Nat
  maxbytes : Int
  curbytes : Int

/-! ### Memory -/

/-- An access outside the queue's page stops the machine. -/
def inPage (a n : Nat) : Kern Mq Unit := do
  let q ← Kern.get
  if n = 0 ∨ q.msgs ≤ a ∧ a + n ≤ q.msgs + PGSIZE then pure ()
  else Kern.panic "outside the page"

def load (a n : Nat) : Kern Mq Nat := do
  inPage a n
  let q ← Kern.get
  pure (q.mem.load a n)

def store (a n v : Nat) : Kern Mq Unit := do
  inPage a n
  Kern.modify fun q => { q with mem := q.mem.store a n v }

/-- `memmove` inside the page -/
def memmove (dst src n : Nat) : Kern Mq Unit := do
  inPage src n
  inPage dst n
  Kern.modify fun q => { q with mem := q.mem.move dst src n }

/-- `memmove` out of the page -/
def copyOut (src n : Nat) : Kern Mq (List Byte) := do
  inPage src n
  let q ← Kern.get
  pure (q.mem.get src n)

/-- `memmove` into the page -/
def copyIn (dst : Nat) (bs : List Byte) : Kern Mq Unit := do
  inPage dst bs.length
  Kern.modify fun q => { q with mem := q.mem.put dst bs }

/-- A pointer of 64 bits. -/
def ptr (x : Int) : Nat := (x % 2 ^ 64).toNat

/-- A length that is passed as `uint`. -/
def uint (x : Int) : Nat := (x % 2 ^ 32).toNat

def next (m : Nat) : Kern Mq Nat := load m 8

def type (m : Nat) : Kern Mq (BitVec 64) := do
  let v ← load (m + 8) 8
  pure (BitVec.ofNat 64 v)

def dataaddr (m : Nat) : Kern Mq Nat := load (m + 16) 8

def datasize (m : Nat) : Kern Mq Int := do
  let v ← load (m + 24) 4
  pure (BitVec.ofNat 32 v).toInt

/-! ### Calls -/

/-- The queue after `newmq`; `page` is the page `kalloc` returned. -/
def newmq (mem : Bytes) (page : Nat) : Mq :=
  { mem := ((mem.put page (List.replicate PGSIZE 0)).store page 8 0).store (page + 24) 4 0
    msgs := page, maxbytes := PGSIZE, curbytes := 16 }

/-- No list inside a page is longer than this without a cycle. -/
def FUEL : Nat := PGSIZE + 1

/-- `while (m->next != 0) m = m->next;` -/
def lastMsg : Nat → Nat → Kern Mq Nat
  | 0, _ => Kern.panic "endless loop"
  | fuel + 1, m => do
    let n ← next m
    if n = 0 then pure m else lastMsg fuel n

/-- One round of the loop of `sys_msgsnd`; `false` means that the process sleeps and tries again. -/
def sys_msgsnd (t : BitVec 32) (data : List Byte) : Kern Mq Bool := do
  let q ← Kern.get
  let sz : Int := data.length
  if Kernel.int (q.curbytes + sz + 16) ≤ q.maxbytes then do
    let last ← lastMsg FUEL q.msgs
    let size ← datasize last
    store last 8 (ptr (last + size + 16))
    let m ← next last
    store (m + 8) 8 (t.signExtend 64).toNat
    store m 8 0
    store (m + 16) 8 (ptr (m + 16))
    store (m + 24) 4 (uint sz)
    let d ← dataaddr m
    copyIn d data
    Kern.modify fun q => { q with curbytes := q.curbytes + (sz + 16) }
    pure true
  else pure false

/-- The first message of this type from `m` on, and the one before it. -/
def findMsg (t : BitVec 32) : Nat → Nat → Nat → Kern Mq (Option (Nat × Nat))
  | 0, _, _ => Kern.panic "endless loop"
  | fuel + 1, pre, m =>
    if m = 0 then pure none
    else do
      let k ← type m
      if k = t.signExtend 64 then pure (some (pre, m))
      else do
        let n ← next m
        findMsg t fuel m n

/-- The loop of `reloc`; it returns `pre`. -/
def relocLoop : Nat → Nat → Nat → Nat → Kern Mq Nat
  | 0, _, _, _ => Kern.panic "endless loop"
  | fuel + 1, pages, pre, m =>
    if m = 0 then pure pre
    else do
      let t ← next m
      let size ← datasize m
      memmove pages m (uint (size + 16))
      let size ← datasize pages
      store pages 8 (ptr (pages + size + 16))
      store (pages + 16) 8 (ptr (pages + 16))
      let n ← next pages
      relocLoop fuel n pages t

def reloc : Kern Mq Unit := do
  let q ← Kern.get
  let pre ← relocLoop FUEL q.msgs q.msgs q.msgs
  store pre 8 0

/-- `none` means that the process sleeps and the call returns -1. -/
def sys_msgrcv (t : BitVec 32) (sz : Nat) : Kern Mq (Option (List Byte)) := do
  let q ← Kern.get
  let first ← next q.msgs
  match ← findMsg t FUEL q.msgs first with
  | none => pure none
  | some (pre, m) => do
    let d ← dataaddr m
    let data ← copyOut d sz
    let n ← next m
    store pre 8 n
    let size ← datasize m
    Kern.modify fun q => { q with curbytes := q.curbytes - (size + 16) }
    reloc
    pure (some data)

inductive Act
  | snd (t : BitVec 32) (data : List Byte)
  | rcv (t : BitVec 32) (sz : Nat)
  deriving DecidableEq

/-- What a call returns to its caller. -/
inductive Result
  | sent
  | received (data : List Byte)
  | sleeps
  deriving DecidableEq

def Act.exec : Act → Kern Mq Result
  | .snd t data => do
    let ok ← sys_msgsnd t data
    pure (if ok then .sent else .sleeps)
  | .rcv t sz => do
    match ← sys_msgrcv t sz with
    | none => pure .sleeps
    | some data => pure (.received data)

/-! ### What the queue is for -/

structure Msg where
  type : BitVec 32
  data : List Byte
  deriving DecidableEq

/-- Bytes of the page that the messages take, with the head of the list. -/
def used (q : List Msg) : Nat := 16 + (q.map fun m => m.data.length + 16).sum

/-- A queue per type: a message is sent if it fits, and the oldest of its type is received. -/
def Act.fifo (q : List Msg) : Act → Result × List Msg
  | .snd t data =>
    if used q + data.length + 16 ≤ PGSIZE then (.sent, q ++ [⟨t, data⟩]) else (.sleeps, q)
  | .rcv t _ =>
    match q.find? fun m => m.type = t with
    | none => (.sleeps, q)
    | some m => (.received m.data, q.eraseP fun m => m.type = t)

/-- The address `a` holds the message `m`. -/
structure Mq.Holds (p : Mq) (a : Nat) (m : Msg) : Prop where
  inside : p.msgs ≤ a ∧ a + 32 ≤ p.msgs + PGSIZE
  type : BitVec.ofNat 64 (p.mem.load (a + 8) 8) = m.type.signExtend 64
  size : (BitVec.ofNat 32 (p.mem.load (a + 24) 4)).toInt = m.data.length
  data : p.mem.get (p.mem.load (a + 16) 8) m.data.length = m.data

end Yyds.Ipc
