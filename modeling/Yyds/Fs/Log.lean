import Yyds.Lib.Kern
import Yyds.Fs.Block

/-! The redo log of `log.c`: the in-memory header, admission of operations, absorption of
repeated writes, and the header block. -/
namespace Yyds.Fs

/-- `struct logheader`. `n` is an `int` that never goes below zero. -/
structure LogHeader where
  n : Nat
  block : Nat → Nat

/-- `struct log`, without its spin lock. -/
structure Log where
  start : Nat
  size : Int
  outstanding : Int
  committing : Bool
  lh : LogHeader

namespace Log

/-- The two tests at the top of `log_write`, made before the lock is taken. -/
def checkWrite (l : Log) : Except String Unit :=
  if l.lh.n ≥ LOGSIZE ∨ (l.lh.n : Int) ≥ l.size - 1 then .error "too big a transaction"
  else if l.outstanding < 1 then .error "log_write outside of trans"
  else .ok ()

/-- Where the scan of `log_write` stops: the slot that holds `b`, or `n`. -/
def slot (l : Log) (b : Nat) : Nat :=
  ((List.range l.lh.n).find? (fun i => l.lh.block i == b)).getD l.lh.n

/-- The locked section of `log_write`. -/
def record (l : Log) (b : Nat) : Log :=
  let i := l.slot b
  { l with lh :=
    { n := if i = l.lh.n then l.lh.n + 1 else l.lh.n
      block := Function.update l.lh.block i b } }

/-- The test that lets `begin_op` leave its loop. -/
def admits (l : Log) : Prop :=
  l.committing = false ∧ (l.lh.n : Int) + (l.outstanding + 1) * MAXOPBLOCKS ≤ LOGSIZE
  deriving Decidable

/-- The blocks named by the header. -/
def blocks (l : Log) : List Nat := (List.range l.lh.n).map l.lh.block

end Log

/-- `hb->n = n; hb->block[i] = block[i]` for `i < n`, on the header block. -/
def encodeHead (lh : LogHeader) (c : Block) : Block :=
  (List.range lh.n).foldl (fun c i => putU32 c (4 + 4 * i) (lh.block i)) (putU32 c 0 lh.n)

/-- The count in a header block; a negative `int` makes every loop over it empty. -/
def headCount (c : Block) : Nat := if u32At c 0 < 2 ^ 31 then u32At c 0 else 0

def headBlock (c : Block) (i : Nat) : Nat := u32At c (4 + 4 * i)

end Yyds.Fs
