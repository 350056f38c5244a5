import Yyds.Fs.Log

/-! The buffer cache of `bio.c`: `NBUF` buffers in `NBUCKET` hash buckets, and the log over it. -/
namespace Yyds.Fs

open Lib Function

/-- size of the disk block cache -/
def NBUF : Nat := MAXOPBLOCKS * 3
def NBUCKET : Nat := 13
/-- device number of the file system -/
def ROOTDEV : Nat := 1

instance : NeZero NBUF := ⟨by decide⟩
instance : NeZero NBUCKET := ⟨by decide⟩

abbrev BufId := Fin NBUF
abbrev Bucket := Fin NBUCKET

def HASH (id : Nat) : Bucket := Fin.ofNat NBUCKET id

/-- `struct buf`, without its lock and its links. -/
structure Buf where
  valid : Bool
  dev : Nat
  blockno : Nat
  refcnt : BitVec 32
  data : Block
  timestamp : BitVec 32

/-- The buffers, and those of each bucket from `head.next` on. -/
structure BCache where
  buf : BufId → Buf
  bucket : Bucket → List BufId

namespace BCache

/-- After `binit` all buffers are in bucket 0, the last one first. -/
def binit : BCache where
  buf _ := ⟨false, 0, 0, 0, zeroBlock, 0⟩
  bucket i := if i = 0 then (List.finRange NBUF).reverse else []

def setBuf (c : BCache) (b : BufId) (f : Buf → Buf) : BCache :=
  { c with buf := update c.buf b (f (c.buf b)) }

/-- "Is the block already cached?" -/
def lookup (c : BCache) (dev blockno : Nat) : Option BufId :=
  (c.bucket (HASH blockno)).find? fun b => (c.buf b).dev = dev ∧ (c.buf b).blockno = blockno

/-- One turn of the inner loop of `bget`: `b` is the best buffer so far. -/
def better (c : BCache) (b : Option BufId) (tmp : BufId) : Option BufId :=
  if (c.buf tmp).refcnt = 0 ∧ b.all fun b => (c.buf tmp).timestamp < (c.buf b).timestamp then some tmp
  else b

/-- The least recently used of the unused buffers of a bucket. -/
def lru (c : BCache) (i : Bucket) : Option BufId := (c.bucket i).foldl c.better none

def unlink (c : BCache) (i : Bucket) (b : BufId) : BCache :=
  { c with bucket := update c.bucket i ((c.bucket i).erase b) }

def link (c : BCache) (bid : Bucket) (b : BufId) : BCache :=
  { c with bucket := update c.bucket bid (b :: c.bucket bid) }

/-- Take an unused buffer from bucket `i` to the head of bucket `bid`. -/
def steal (c : BCache) (i bid : Bucket) (b : BufId) : BCache :=
  if i = bid then c else (c.unlink i b).link bid b

/-- The buffer is now for another block. -/
def assign (c : BCache) (b : BufId) (dev blockno : Nat) (ticks : BitVec 32) : BCache :=
  c.setBuf b fun x =>
    { x with dev := dev, blockno := blockno, valid := false, refcnt := 1, timestamp := ticks }

/-- The buckets in the order in which `bget` looks at them. -/
def visits (bid : Bucket) : List Bucket :=
  (List.range NBUCKET).map fun k => bid + Fin.ofNat NBUCKET k

/-- The first of the buckets that has an unused buffer. -/
def unused (c : BCache) : List Bucket → Option (Bucket × BufId)
  | [] => none
  | i :: is =>
    match c.lru i with
    | some b => some (i, b)
    | none => c.unused is

end BCache

/-- The cache, the sleep locks of its buffers, the disk, the log of the file system on `ROOTDEV`
and the clock. `writes` lists the block writes issued to the disk since the boot, oldest first. -/
structure Bio where
  bcache : BCache
  locked : BufId → Bool
  disk : Nat → Block
  writes : List (Nat × Block)
  log : Log
  ticks : BitVec 32

namespace Bio

/-- `b->…` -/
abbrev buf (s : Bio) (b : BufId) : Buf := s.bcache.buf b

def modBuf (s : Bio) (b : BufId) (f : Buf → Buf) : Bio := { s with bcache := s.bcache.setBuf b f }

/-- A caller that would sleep makes no step of its own. -/
def acquiresleep (b : BufId) : Kern Bio Unit := fun s =>
  if s.locked b then .error "acquiresleep: sleeping"
  else .ok ((), { s with locked := update s.locked b true })

def releasesleep (b : BufId) : Kern Bio Unit :=
  Kern.modify fun s => { s with locked := update s.locked b false }

def bget (dev blockno : Nat) : Kern Bio BufId := do
  let s ← Kern.get
  match s.bcache.lookup dev blockno with
  | some b => do
    Kern.modify fun s => s.modBuf b fun x =>
      { x with refcnt := x.refcnt + 1, timestamp := s.ticks }
    acquiresleep b
    pure b
  | none =>
    match s.bcache.unused (BCache.visits (HASH blockno)) with
    | some (i, b) => do
      Kern.modify fun s => { s with
        bcache := (s.bcache.steal i (HASH blockno) b).assign b dev blockno s.ticks }
      acquiresleep b
      pure b
    | none => Kern.panic "bget: no buffers"

/-- `virtio_disk_rw(b, 0)` -/
def diskRead (b : BufId) : Kern Bio Unit :=
  Kern.modify fun s => s.modBuf b fun x => { x with data := s.disk x.blockno }

/-- `virtio_disk_rw(b, 1)` -/
def diskWrite (b : BufId) : Kern Bio Unit :=
  Kern.modify fun s =>
    { s with
      disk := update s.disk (s.buf b).blockno (s.buf b).data
      writes := s.writes ++ [((s.buf b).blockno, (s.buf b).data)] }

def bread (dev blockno : Nat) : Kern Bio BufId := do
  let b ← bget dev blockno
  let s ← Kern.get
  Kern.when ((s.buf b).valid = false) do
    diskRead b
    Kern.modify fun s => s.modBuf b fun x => { x with valid := true }
  pure b

def bwrite (b : BufId) : Kern Bio Unit := do
  let s ← Kern.get
  Kern.when (s.locked b = false) (Kern.panic "bwrite")
  diskWrite b

def brelse (b : BufId) : Kern Bio Unit := do
  let s ← Kern.get
  Kern.when (s.locked b = false) (Kern.panic "brelse")
  releasesleep b
  Kern.modify fun s => s.modBuf b fun x => { x with refcnt := x.refcnt - 1, timestamp := s.ticks }

def bpin (b : BufId) : Kern Bio Unit :=
  Kern.modify fun s => s.modBuf b fun x => { x with refcnt := x.refcnt + 1 }

def bunpin (b : BufId) : Kern Bio Unit :=
  Kern.modify fun s => s.modBuf b fun x => { x with refcnt := x.refcnt - 1 }

/-- Change the data of a held buffer. -/
def setData (b : BufId) (c : Block) : Kern Bio Unit :=
  Kern.modify fun s => s.modBuf b fun x => { x with data := c }

def setLog (f : Log → Log) : Kern Bio Unit := Kern.modify fun s => { s with log := f s.log }

/-! ### The log -/

def readHead : Kern Bio Unit := do
  let s ← Kern.get
  let b ← bread ROOTDEV s.log.start
  let s ← Kern.get
  let c := (s.buf b).data
  setLog fun l => { l with lh := ⟨headCount c, fun i =>
    if i < headCount c then headBlock c i else l.lh.block i⟩ }
  brelse b

def writeHead : Kern Bio Unit := do
  let s ← Kern.get
  let b ← bread ROOTDEV s.log.start
  let s ← Kern.get
  setData b (encodeHead s.log.lh (s.buf b).data)
  bwrite b
  brelse b

/-- One iteration of `install_trans`. -/
def installOne (tail : Nat) : Kern Bio Unit := do
  let s ← Kern.get
  let lbuf ← bread ROOTDEV (s.log.start + tail + 1)
  let dbuf ← bread ROOTDEV (s.log.lh.block tail)
  let s ← Kern.get
  setData dbuf (s.buf lbuf).data
  bwrite dbuf
  bunpin dbuf
  brelse lbuf
  brelse dbuf

/-- One iteration of `write_log`. -/
def writeLogOne (tail : Nat) : Kern Bio Unit := do
  let s ← Kern.get
  let dst ← bread ROOTDEV (s.log.start + tail + 1)
  let src ← bread ROOTDEV (s.log.lh.block tail)
  let s ← Kern.get
  setData dst (s.buf src).data
  bwrite dst
  brelse src
  brelse dst

def installTrans : Kern Bio Unit := do
  let s ← Kern.get
  Kern.forEach (List.range s.log.lh.n) installOne

def writeLog : Kern Bio Unit := do
  let s ← Kern.get
  Kern.forEach (List.range s.log.lh.n) writeLogOne

def clearCount : Kern Bio Unit := setLog fun l => { l with lh := { l.lh with n := 0 } }

def recoverFromLog : Kern Bio Unit := do
  readHead
  installTrans
  clearCount
  writeHead

def commit : Kern Bio Unit := do
  let s ← Kern.get
  if s.log.lh.n > 0 then
    writeLog
    writeHead
    installTrans
    clearCount
    writeHead
  else pure ()

def logWrite (b : BufId) : Kern Bio Unit := fun s =>
  match s.log.checkWrite with
  | .error e => .error e
  | .ok () =>
    let blockno := (s.buf b).blockno
    let t := { s with log := s.log.record blockno }
    -- the block is new in the log
    if s.log.slot blockno = s.log.lh.n then bpin b t else .ok ((), t)

def beginOp : Kern Bio Unit := fun s =>
  if s.log.admits then
    .ok ((), { s with log := { s.log with outstanding := s.log.outstanding + 1 } })
  else .error "begin_op: sleeping"

def endOp : Kern Bio Unit := do
  setLog fun l => { l with outstanding := l.outstanding - 1 }
  let s ← Kern.get
  if s.log.committing then Kern.panic "log.committing"
  else if s.log.outstanding = 0 then
    setLog fun l => { l with committing := true }
    commit
    setLog fun l => { l with committing := false }
  else pure ()

/-- The machine before `recover_from_log`: nothing is cached, and the super block has given the
place of the log. -/
def boot (start : Nat) (size : Int) (disk : Nat → Block) : Bio where
  bcache := .binit
  locked _ := false
  disk := disk
  writes := []
  log := ⟨start, size, 0, false, ⟨0, fun _ => 0⟩⟩
  ticks := 0

end Bio

end Yyds.Fs
