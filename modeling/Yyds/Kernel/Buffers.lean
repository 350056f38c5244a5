import Yyds.Kernel.UserMem

/-! The system calls that copy from or to a buffer of the process: `read`, `write`, `pipe` and
`fstat`. A call that sleeps takes what it finds at each wake-up from a list. -/
namespace Yyds.Kernel

open Lib Kern Mm

/-! ### Sleeping -/

/-- How a `while (...) sleep(...)` ends. -/
inductive Wait (κ : Type)
  | asleep
  | stopped (x : κ)
  | ready (x : κ) (killed : Bool) (later : List (κ × Bool))

/-- Sleep as long as `x` is `busy`, unless the test `stop` inside the loop returns. -/
def wait_until {κ : Type} (busy : κ → Bool) (stop : κ → Bool → Bool) :
    κ → Bool → List (κ × Bool) → Wait κ
  | x, killed, [] =>
    if busy x then if stop x killed then .stopped x else .asleep else .ready x killed []
  | x, killed, (x', killed') :: later =>
    if busy x then
      if stop x killed then .stopped x else wait_until busy stop x' killed' later
    else .ready x killed ((x', killed') :: later)

theorem wait_until_eq {κ : Type} (busy : κ → Bool) (stop : κ → Bool → Bool) (x : κ) (killed : Bool)
    (later : List (κ × Bool)) : wait_until busy stop x killed later =
      if busy x then if stop x killed then .stopped x else
        match later with
        | [] => .asleep
        | (x, killed) :: later => wait_until busy stop x killed later
      else .ready x killed later := by
  cases later <;> rfl

/-! ### Pipes -/

def PIPESIZE : Nat := 512

/-- `struct pipe`; `data` is read at indices below `PIPESIZE`. -/
structure Pipe where
  data : Nat → Byte
  nread : Nat
  nwrite : Nat
  readopen : Bool
  writeopen : Bool

namespace Pipe

def empty (pi : Pipe) : Bool := decide (pi.nread = pi.nwrite)

def full (pi : Pipe) : Bool := decide (pi.nwrite = (pi.nread + PIPESIZE) % 2 ^ 32)

def push (pi : Pipe) (ch : Byte) : Pipe :=
  { pi with
    data := Function.update pi.data (pi.nwrite % PIPESIZE) ch
    nwrite := (pi.nwrite + 1) % 2 ^ 32 }

def pop (pi : Pipe) : Pipe := { pi with nread := (pi.nread + 1) % 2 ^ 32 }

end Pipe

/-- The loop of `pipewrite`, with `n` bytes to go after `i`. -/
def pipewriteFrom (addr : Nat) : Nat → Nat → Pipe → Bool → List (Pipe × Bool) →
    Routine Byte (Option (Int × Pipe))
  | 0, i, pi, _, _ => .done (some (i, pi))
  | n + 1, i, pi, killed, later =>
    match wait_until Pipe.full (fun pi killed => !pi.readopen || killed) pi killed later with
    | .asleep => .done none
    | .stopped pi => .done (some (-1, pi))
    | .ready pi killed later => .load (addr + i) 1 fun r =>
      match r with
      | some [ch] => pipewriteFrom addr n (i + 1) (pi.push ch) killed later
      | _ => .done (some (i, pi))

def pipewrite (pi : Pipe) (killed : Bool) (later : List (Pipe × Bool)) (addr n : Nat) :
    Routine Byte (Option (Int × Pipe)) :=
  pipewriteFrom addr n 0 pi killed later

/-- The loop of `piperead`, with `n` bytes to go after `i`. -/
def pipereadFrom (addr : Nat) : Nat → Nat → Pipe → Routine Byte (Int × Pipe)
  | 0, i, pi => .done (i, pi)
  | n + 1, i, pi =>
    if pi.empty then .done (i, pi)
    else .store (addr + i) [pi.data (pi.nread % PIPESIZE)] fun ok =>
      if ok then pipereadFrom addr n (i + 1) pi.pop else .done (i, pi.pop)

def piperead (pi : Pipe) (killed : Bool) (later : List (Pipe × Bool)) (addr n : Nat) :
    Routine Byte (Option (Int × Pipe)) :=
  match wait_until (fun pi => pi.empty && pi.writeopen) (fun _ killed => killed) pi killed later with
  | .asleep => .done none
  | .stopped pi => .done (some (-1, pi))
  | .ready pi _ _ => (pipereadFrom addr n 0 pi).bind fun r => .done (some r)

/-! ### The console -/

def INPUT_BUF : Nat := 128

/-- The input of the console; `buf` is read at indices below `INPUT_BUF`. -/
structure Console where
  buf : Nat → Byte
  r : Nat
  w : Nat

/-- The loop of `consoleread`, with `n` of `target` bytes to go. -/
def consolereadFrom (target : Nat) : Nat → Nat → Console → Bool → List (Console × Bool) →
    Routine Byte (Option (Int × Console))
  | 0, _, c, _, _ => .done (some (target, c))
  | n + 1, dst, c, killed, later =>
    match wait_until (fun c => decide (c.r = c.w)) (fun _ killed => killed) c killed later with
    | .asleep => .done none
    | .stopped c => .done (some (-1, c))
    | .ready c killed later =>
      let ch := c.buf (c.r % INPUT_BUF)
      let c' := { c with r := (c.r + 1) % 2 ^ 32 }
      -- an end-of-file after other input is left for the next call
      if ch = 4 then .done (some (target - (n + 1), if n + 1 < target then c else c'))
      else .store dst [ch] fun ok =>
        if ok = false then .done (some (target - (n + 1), c'))
        else if ch = 10 then .done (some (target - n, c'))
        else consolereadFrom target n (dst + 1) c' killed later

def consoleread (c : Console) (killed : Bool) (later : List (Console × Bool)) (dst n : Nat) :
    Routine Byte (Option (Int × Console)) :=
  consolereadFrom n n dst c killed later

/-- The loop of `consolewrite`, with `n` bytes to go after `i`; `out` goes to the UART. -/
def consolewriteFrom (src : Nat) : Nat → Nat → List Byte → Routine Byte (Int × List Byte)
  | 0, i, out => .done (i, out)
  | n + 1, i, out => .load (src + i) 1 fun r =>
    match r with
    | some [c] => consolewriteFrom src n (i + 1) (out ++ [c])
    | _ => .done (i, out)

def consolewrite (out : List Byte) (src n : Nat) : Routine Byte (Int × List Byte) :=
  consolewriteFrom src n 0 out

/-! ### Inodes -/

/-- The loop of `readi`, with `n` bytes to go. -/
def readiFrom (data : List Byte) : Nat → Nat → Nat → Nat → Nat → Routine Byte Nat
  | 0, _, _, _, tot => .done tot
  | fuel + 1, dst, off, n, tot =>
    if n = 0 then .done tot
    else
      let m := min n (BSIZE - off % BSIZE)
      .store dst ((data.drop off).take m) fun ok =>
        if ok then readiFrom data fuel (dst + m) (off + m) (n - m) (tot + m) else .done tot

/-- `readi` to the user address `dst` -/
def readiUser (data : List Byte) (dst off n : Nat) : Routine Byte Nat :=
  if off > data.length ∨ off + n ≥ 2 ^ 32 then .done 0
  else readiFrom data n dst off (min n (data.length - off)) 0

/-! ### Sockets -/

def MBUF_SIZE : Nat := 2048

/-- `sockread`, on the queue of packets. -/
def sockread (rxq : List (List Byte)) (killed : Bool) (later : List (List (List Byte) × Bool))
    (addr n : Nat) : Routine Byte (Option (Int × List (List Byte))) :=
  match wait_until (fun q => q.isEmpty) (fun _ killed => killed) rxq killed later with
  | .asleep => .done none
  | .stopped q => .done (some (-1, q))
  | .ready q killed _ =>
    if killed then .done (some (-1, q))
    else
      match q with
      | [] => .done none
      | m :: q => .store addr (m.take n) fun ok =>
        if ok then .done (some ((m.take n).length, q)) else .done (some (-1, q))

/-- `sockwrite`, if there is a buffer for the packet; one that does not fit is a panic. -/
def sockwrite (sent : List (List Byte)) (room : Bool) (addr n : Nat) :
    Routine Byte (Option (Int × List (List Byte))) :=
  if room = false then .done (some (-1, sent))
  else if n > MBUF_SIZE then .done none
  else .load addr n fun r =>
    match r with
    | none => .done (some (-1, sent))
    | some bytes => .done (some (n, sent ++ [bytes]))

/-! ### Open files -/

/-- What an open file stands for. -/
inductive Object
  | pipe (pi : Pipe) (later : List (Pipe × Bool))
  | console (c : Console) (later : List (Console × Bool)) (out : List Byte)
  | device
  | inode (mode : BitVec 8) (data : List Byte) (off : Nat)
  | sock (rxq : List (List Byte)) (later : List (List (List Byte) × Bool)) (sent : List (List Byte))
      (room : Bool)

structure OpenFile where
  readable : Bool
  writable : Bool
  object : Object

/-- The result, if the call returns, and what has become of the file. -/
abbrev Outcome : Type := Option (Int × Object)

def fileread (f : OpenFile) (killed : Bool) (addr n : Nat) : Routine Byte Outcome :=
  if f.readable = false then .done (some (-1, f.object))
  else
    match f.object with
    | .pipe pi later => (piperead pi killed later addr n).bind fun r =>
      .done (r.map fun x => (x.1, .pipe x.2 later))
    | .console c later out => (consoleread c killed later addr n).bind fun r =>
      .done (r.map fun x => (x.1, .console x.2 later out))
    | .device => .done (some (-1, .device))
    | .inode mode data off =>
      if mode &&& 1 = 0 then .done (some (-1, .inode mode data off))
      else (readiUser data addr off n).bind fun r => .done (some (r, .inode mode data (off + r)))
    | .sock rxq later sent room => (sockread rxq killed later addr n).bind fun r =>
      .done (r.map fun x => (x.1, .sock x.2 later sent room))

/-- `filewrite` -/
def filewriteUser (f : OpenFile) (killed : Bool) (addr n : Nat) : Routine Byte Outcome :=
  if f.writable = false then .done (some (-1, f.object))
  else
    match f.object with
    | .pipe pi later => (pipewrite pi killed later addr n).bind fun r =>
      .done (r.map fun x => (x.1, .pipe x.2 later))
    | .console c later out => (consolewrite out addr n).bind fun r =>
      .done (some (r.1, .console c later r.2))
    | .device => .done (some (-1, .device))
    | .inode mode data off =>
      if n = 0 then .done (some (0, .inode mode data off))
      else if mode &&& 2 = 0 then .done (some (-1, .inode mode data off))
      else (filewriteLoop addr n n 0 data off).bind fun x =>
        .done (some (if x.1 = n then n else -1, .inode mode x.2.1 x.2.2))
    | .sock rxq later sent room => (sockwrite sent room addr n).bind fun r =>
      .done (r.map fun x => (x.1, .sock rxq later x.2 room))

/-- `filestat`, with the bytes of the `struct stat` -/
def filestat (f : OpenFile) (st : Fin 24 → Byte) (addr : Nat) : Routine Byte Outcome :=
  match f.object with
  | .inode .. | .device | .console .. => .store addr (List.ofFn st) fun ok =>
    .done (some (if ok then 0 else -1, f.object))
  | .pipe .. | .sock .. => .done (some (-1, f.object))

/-- `sys_pipe` after `pipealloc` and `fdalloc`, which have given the descriptors `fds` -/
def pipeFds (fds : Option (Int × Int)) (addr : Nat) : Routine Byte Int :=
  match fds with
  | none => .done (-1)
  | some (fd0, fd1) => .store addr (intBytes fd0) fun ok =>
    if ok then .store (addr + 4) (intBytes fd1) fun ok => .done (if ok then 0 else -1)
    else .done (-1)

/-! ### The calls -/

/-- The system calls on a buffer. -/
inductive Call
  | read (f : OpenFile) (n : Nat)
  | write (f : OpenFile) (n : Nat)
  | pipe (fds : Option (Int × Int))
  | fstat (f : OpenFile) (st : Fin 24 → Byte)

namespace Call

/-- The length of the buffer. -/
def size : Call → Nat
  | read _ n => n
  | write _ n => n
  | pipe _ => 8
  | fstat _ _ => 24

/-- What the call does after `argaddr`: its result, and what has become of the file. -/
def body (killed : Bool) (addr : Nat) : Call → Routine Byte (Option (Int × Option Object))
  | read f n => (fileread f killed addr n).bind fun r => .done (r.map fun x => (x.1, some x.2))
  | write f n => (filewriteUser f killed addr n).bind fun r => .done (r.map fun x => (x.1, some x.2))
  | pipe fds => (pipeFds fds addr).bind fun r => .done (some (r, none))
  | fstat f st => (filestat f st addr).bind fun r => .done (r.map fun x => (x.1, some x.2))

/-- The file of the call. -/
def object : Call → Option Object
  | read f _ => some f.object
  | write f _ => some f.object
  | pipe _ => none
  | fstat f _ => some f.object

variable [Layout]

/-- The system call of the process `p` with the buffer at `addr`. -/
def sys (p : ProcId) (addr : Nat) (c : Call) : Kern Sys (Option (Int × Option Object)) := do
  let r ← argaddr p addr
  if r < 0 then pure (some (-1, c.object))
  else
    let s ← Kern.get
    onMem ((c.body (s.proc p).killed addr).exec (userOps (s.proc p).pagetable))

end Call

/-! ### The calls stay inside their buffers -/

section
variable {lo hi : Nat}

variable {i dst src fuel off : Nat} {data : List Byte}

theorem pipewriteFrom_within {addr n : Nat} (h : lo ≤ addr ∧ addr + (i + n) ≤ hi) (pi : Pipe)
    (killed : Bool) (later : List (Pipe × Bool)) :
    (pipewriteFrom addr n i pi killed later).Within lo hi := by
  induction n generalizing i pi killed later with
  | zero => trivial
  | succ n ih =>
    rw [pipewriteFrom]
    split
    · trivial
    · trivial
    · refine ⟨by omega, fun r => ?_⟩
      dsimp only
      split
      · exact ih (by omega) _ _ _
      · trivial

theorem pipereadFrom_within {addr n : Nat} (h : lo ≤ addr ∧ addr + (i + n) ≤ hi) (pi : Pipe) :
    (pipereadFrom addr n i pi).Within lo hi := by
  induction n generalizing i pi with
  | zero => trivial
  | succ n ih =>
    rw [pipereadFrom]
    split
    · trivial
    · refine ⟨by simp only [List.length_singleton]; omega, fun ok => ?_⟩
      dsimp only
      split
      · exact ih (by omega) _
      · trivial

theorem piperead_within {addr n : Nat} (h : lo ≤ addr ∧ addr + n ≤ hi) (pi : Pipe) (killed : Bool)
    (later : List (Pipe × Bool)) : (piperead pi killed later addr n).Within lo hi := by
  rw [piperead]
  split
  · trivial
  · trivial
  · exact .bind (pipereadFrom_within (by omega) _)

theorem consolereadFrom_within {target n : Nat} (h : lo ≤ dst ∧ dst + n ≤ hi) (c : Console)
    (killed : Bool) (later : List (Console × Bool)) :
    (consolereadFrom target n dst c killed later).Within lo hi := by
  induction n generalizing dst c killed later with
  | zero => trivial
  | succ n ih =>
    rw [consolereadFrom]
    split
    · trivial
    · trivial
    dsimp only
    split
    · trivial
    refine ⟨by simp only [List.length_singleton]; omega, fun ok => ?_⟩
    dsimp only
    split
    · trivial
    · split
      · trivial
      · exact ih (by omega) _ _ _

theorem consolewriteFrom_within {n : Nat} (h : lo ≤ src ∧ src + (i + n) ≤ hi) (out : List Byte) :
    (consolewriteFrom src n i out).Within lo hi := by
  induction n generalizing i out with
  | zero => trivial
  | succ n ih =>
    refine ⟨by omega, fun r => ?_⟩
    dsimp only
    split
    · exact ih (by omega) _
    · trivial

theorem readiFrom_within {n tot : Nat} (h : lo ≤ dst ∧ dst + n ≤ hi) :
    (readiFrom data fuel dst off n tot).Within lo hi := by
  induction fuel generalizing dst off n tot with
  | zero => trivial
  | succ fuel ih =>
    rw [readiFrom]
    split
    · trivial
    have hlen := List.length_take_le (min n (BSIZE - off % BSIZE)) (data.drop off)
    refine ⟨by omega, fun ok => ?_⟩
    dsimp only
    split
    · exact ih (by omega)
    · trivial

theorem readiUser_within {n : Nat} (h : lo ≤ dst ∧ dst + n ≤ hi) :
    (readiUser data dst off n).Within lo hi := by
  rw [readiUser]
  split
  · trivial
  · exact readiFrom_within (by omega)

theorem writeiLoop_within {n : Nat} (h : lo ≤ src ∧ src + n ≤ hi) (data : List Byte) :
    (writeiLoop fuel src off n data).Within lo hi := by
  induction fuel generalizing src off n data with
  | zero => trivial
  | succ fuel ih =>
    rw [writeiLoop]
    split
    · trivial
    refine ⟨by omega, fun r => ?_⟩
    dsimp only
    split
    · trivial
    · exact ih (by omega) _

theorem writeiUser_within {n : Nat} (h : lo ≤ src ∧ src + n ≤ hi) :
    (writeiUser data src off n).Within lo hi := by
  rw [writeiUser]
  split
  · trivial
  · split
    · trivial
    · exact .bind (writeiLoop_within h _)

section
variable {addr n : Nat} (h : lo ≤ addr ∧ addr + n ≤ hi)
include h

theorem filewriteLoop_within (data : List Byte) (off : Nat) :
    (filewriteLoop addr n fuel i data off).Within lo hi := by
  induction fuel generalizing i data off with
  | zero => trivial
  | succ fuel ih =>
    rw [filewriteLoop]
    split
    · refine .bind (writeiUser_within ?_) fun x => ?_
      · omega
      · split
        · trivial
        · exact ih _ _
    · trivial

theorem sockread_within (rxq : List (List Byte)) (killed : Bool)
    (later : List (List (List Byte) × Bool)) :
    (sockread rxq killed later addr n).Within lo hi := by
  rw [sockread]
  split
  · trivial
  · trivial
  split
  · trivial
  split
  · trivial
  · have hlen : ∀ m : List Byte, addr + (m.take n).length ≤ hi := fun m =>
      Nat.le_trans (Nat.add_le_add_left (List.length_take_le n m) addr) h.2
    refine ⟨⟨h.1, hlen _⟩, fun ok => ?_⟩
    dsimp only
    split <;> trivial

theorem sockwrite_within (sent : List (List Byte)) (room : Bool) :
    (sockwrite sent room addr n).Within lo hi := by
  rw [sockwrite]
  split
  · trivial
  · split
    · trivial
    · refine ⟨by omega, fun r => ?_⟩
      dsimp only
      split <;> trivial

theorem fileread_within (f : OpenFile) (killed : Bool) :
    (fileread f killed addr n).Within lo hi := by
  rw [fileread]
  split
  · trivial
  split
  · exact .bind (piperead_within h _ _ _)
  · exact .bind (consolereadFrom_within h _ _ _)
  · trivial
  · split
    · trivial
    · exact .bind (readiUser_within h)
  · exact .bind (sockread_within h _ _ _)

theorem filewriteUser_within (f : OpenFile) (killed : Bool) :
    (filewriteUser f killed addr n).Within lo hi := by
  rw [filewriteUser]
  split
  · trivial
  split
  · exact .bind (pipewriteFrom_within (by omega) _ _ _)
  · exact .bind (consolewriteFrom_within (by omega) _)
  · trivial
  · split
    · trivial
    · split
      · trivial
      · exact .bind (filewriteLoop_within h _ _)
  · exact .bind (sockwrite_within h _ _)

end

theorem filestat_within {addr : Nat} (h : lo ≤ addr ∧ addr + 24 ≤ hi) (f : OpenFile)
    (st : Fin 24 → Byte) : (filestat f st addr).Within lo hi := by
  have hstore : ∀ o, (Routine.store addr (List.ofFn st) fun ok =>
      .done (some (if ok then (0 : Int) else -1, o)) : Routine Byte Outcome).Within lo hi :=
    fun o => ⟨by rw [List.length_ofFn]; exact h, fun _ => trivial⟩
  rw [filestat]
  split
  · exact hstore _
  · exact hstore _
  · exact hstore _
  · trivial
  · trivial

theorem pipeFds_within {addr : Nat} (h : lo ≤ addr ∧ addr + 8 ≤ hi) (fds : Option (Int × Int)) :
    (pipeFds fds addr).Within lo hi := by
  have hlen : ∀ x, (intBytes x).length = 4 := fun _ => rfl
  cases fds with
  | none => trivial
  | some fds =>
    refine ⟨by rw [hlen]; omega, fun ok => ?_⟩
    dsimp only
    split
    · exact ⟨by rw [hlen]; omega, fun _ => trivial⟩
    · trivial

theorem Call.body_within (c : Call) (killed : Bool) (addr : Nat) :
    (c.body killed addr).Within addr (addr + c.size) := by
  have h : addr ≤ addr ∧ addr + c.size ≤ addr + c.size := ⟨Nat.le_refl _, Nat.le_refl _⟩
  cases c with
  | read f n => exact .bind (fileread_within h f killed)
  | write f n => exact .bind (filewriteUser_within h f killed)
  | pipe fds => exact .bind (pipeFds_within h fds)
  | fstat f st => exact .bind (filestat_within h f st)

end

/-! ### Lazy heaps -/

section
variable [Layout] {s s₀ s' : Sys} {p : ProcId} {own : Nat → Owner} {addr n : Nat}

/-- A buffer below `p->sz` whose pages are there, but for the first one, which `argaddr` can
supply; the pages that are there are for the process to read and write. -/
structure HeapBuffer (s : Sys) (p : ProcId) (addr n : Nat) : Prop where
  start : addr < (s.proc p).sz
  stop : addr + n ≤ (s.proc p).sz
  first : has (s.mem.leaf (s.proc p).pagetable (slot addr)) PTE_V ∨
    ((s.proc p).aboveStack addr ∧ Enough s.mem 3)
  rest : ∀ a, addr ≤ a → a < addr + n → PGROUNDDOWN a ≠ PGROUNDDOWN addr →
    has (s.mem.leaf (s.proc p).pagetable (slot a)) PTE_V
  heap : ∀ a, addr ≤ a → (a = addr ∨ a < addr + n) →
    has (s.mem.leaf (s.proc p).pagetable (slot a)) PTE_V →
    has (s.mem.leaf (s.proc p).pagetable (slot a)) PTE_U ∧
      (has (s.mem.leaf (s.proc p).pagetable (slot a)) PTE_W ∨
        has (s.mem.leaf (s.proc p).pagetable (slot a)) PTE_F)

theorem argaddr_returns (I : Inv s own) (hp : (s.proc p).pagetable ≠ 0) (va : Nat)
    (hnv : ¬ UserEntry s.mem s.root (some p) va → va < (s.proc p).sz →
      has (s.mem.leaf (s.root (some p)) (slot va)) PTE_V = false) : (argaddr p va).Returns s := by
  by_cases hu : UserEntry s.mem s.root (some p) va
  · exact ⟨_, _, argaddr_user I hp hu⟩
  have hwalk : walkaddr (s.proc p).pagetable va s.mem = .ok (0, s.mem) :=
    (walkaddr_none (p := some p) I.counted.space hp hu :)
  rw [argaddr, Kern.Returns, get_bind_apply]
  simp only [bind_of_ok (onMem_of_ok hwalk)]
  rw [if_neg (by simp)]
  split
  case isFalse => exact ⟨_, _, rfl⟩
  case isTrue hc =>
    obtain ⟨r, m1, hk, hcase⟩ := I.counted.kalloc_fill
    rw [bind_of_ok (onMem_of_ok hk)]
    rcases hcase with ⟨hr, _⟩ | ⟨hr, _, hfill⟩
    · rw [if_pos hr]
      exact ⟨_, _, rfl⟩
    rw [if_neg hr]
    have hmax : va < MAXVA := Nat.lt_trans (Nat.lt_of_lt_of_le hc.2 (I.space p hp).size)
      TRAPFRAME_lt_MAXVA
    refine Kern.Returns.bind ⟨(), _, rfl⟩ fun _ t ht => ?_
    cases ht
    refine Kern.Returns.bind (.zoom ?_) fun _ t _ => ?_
    · exact mapFresh_returns (q := some p) (hfill _) hp hmax (hnv hu hc.2) _
    · split <;> exact .pure _ _

omit [Layout] in
/-- A zero page where there was none changes nothing that the process sees. -/
theorem visible_zero {m m' : Memory} {k : Slot} {w : Word} (hk : m k = none)
    (hk' : m' k = some (w, fun _ => 0)) (hother : ∀ j ≠ k, m' j = m j) :
    visible m' = visible m := by
  funext a
  rw [visible, visible, Memory.read, Memory.read]
  by_cases hj : slot a = k
  · rw [hj, hk, hk']
    simp [getByte]
  · rw [hother _ hj]

omit [Layout] in
theorem view_of_entry {m : Phys} {root : TableId → Nat} {q : TableId} {a : Nat} (ha : a < TRAPFRAME)
    (hV : has (m.leaf (root q) (slot a)) PTE_V) : view m root q (slot a) =
      some (permissions (m.leaf (root q) (slot a)), m.page (PTE2PA (m.leaf (root q) (slot a)))) := by
  refine view_of_target (target_eq_some.mpr ⟨?_, hV, rfl⟩)
  rw [slot_va (lt_MAXVA ha)]
  exact Nat.lt_of_le_of_lt (Nat.div_mul_le_self _ _) ha

/-- A page that was mapped is new in the address space, and the others are as they were. -/
theorem Mapped.view_eq {root : TableId → Nat} {q : TableId} {va : Nat} {perm : Word} {pg : Page}
    {m m' : Phys} (M : Mapped root q (PGROUNDDOWN va) perm pg m m') (hperm : IsFlags perm) :
    view m root q (slot va) = none ∧
    (∃ r, view m' root q (slot va) = some (permissions (PA2PTE r ||| perm ||| PTE_V), pg)) ∧
    ∀ k ≠ slot va, view m' root q k = view m root q k := by
  have hlt : va < TRAPFRAME := lt_of_PGROUNDDOWN_lt M.below
  have hslot := slot_PGROUNDDOWN (lt_MAXVA hlt)
  obtain ⟨r, hr, P, hpg⟩ := M.page
  have hfresh := M.fresh
  rw [hslot] at P hfresh
  have hself := P.self
  refine ⟨?_, ⟨r, ?_⟩, fun k hk => M.keeps.view ?_⟩
  · rw [view, target, if_neg (by rw [hfresh]; simp)]
    rfl
  · rw [view_of_entry hlt (by rw [hself]; exact has_mk_V _), hself, PTE2PA_mk_V hr.1 hr.lt hperm,
      hpg]
  · rw [hslot]
    exact fun he => hk (congrArg Prod.snd he)

theorem HeapBuffer.entry (I : Inv s own) (hp : (s.proc p).pagetable ≠ 0) (h : HeapBuffer s p addr n)
    {a : Nat} (h1 : addr ≤ a) (h2 : a < addr + n)
    (hV : has (s.mem.leaf (s.root (some p)) (slot a)) PTE_V) :
    ∃ e, view s.mem s.root (some p) (slot a) = some e ∧ has e.1 PTE_U ∧ has e.1 PTE_W := by
  obtain ⟨hU, hW⟩ := h.heap a h1 (.inr h2) hV
  have ha : a < TRAPFRAME :=
    Nat.lt_of_lt_of_le (Nat.lt_of_lt_of_le h2 h.stop) (I.space p hp).size
  refine ⟨_, view_of_entry ha hV, ?_⟩
  rw [has_U_permissions, has_W_permissions, Bool.or_eq_true]
  exact ⟨hU, hW⟩

/-- After `argaddr` the whole buffer is open, and the process sees what it saw before. -/
theorem HeapBuffer.argaddr (I : Inv s own) (hp : (s.proc p).pagetable ≠ 0)
    (h : HeapBuffer s p addr n) : ∃ m' own', argaddr p addr s = .ok (0, { s with mem := m' }) ∧
      Open s.root own' (some p) addr (addr + n) m' ∧
      visible (view m' s.root (some p)) = visible (view s.mem s.root (some p)) := by
  have hsize := (I.space p hp).size
  have hmax : addr < MAXVA :=
    lt_MAXVA (Nat.lt_of_lt_of_le h.start hsize)
  have huser : has (s.mem.leaf (s.root (some p)) (slot addr)) PTE_V →
      UserEntry s.mem s.root (some p) addr :=
    fun hV => ⟨hmax, hV, (h.heap addr (Nat.le_refl _) (.inl rfl) hV).1⟩
  obtain ⟨e, s1, hrun⟩ := argaddr_returns I hp addr fun hno _ => by
    by_contra hV
    exact hno (huser (by simpa using hV))
  have hbelow : ∀ a, a < addr + n → a < TRAPFRAME := fun a h2 =>
    Nat.lt_of_lt_of_le (Nat.lt_of_lt_of_le h2 h.stop) hsize
  have hpage : ∀ a, a < addr + n → (slot a = slot addr ↔ PGROUNDDOWN a = PGROUNDDOWN addr) :=
    fun a h2 => slot_eq_iff (lt_MAXVA (hbelow a h2)) hmax
  obtain ⟨m', own', rfl, C, G, hcase⟩ := argaddr_spec I hp hrun
  rcases hcase with ⟨rfl, hu, rfl⟩ | ⟨rfl, hst, hsz, M⟩ | ⟨_, hno, K, hfail⟩
  · refine ⟨_, own', hrun, ⟨C, (I.space p hp).reserved, fun a h1 h2 => ?_⟩, rfl⟩
    refine ⟨hbelow a h2, h.entry I hp h1 h2 ?_⟩
    by_cases hd : PGROUNDDOWN a = PGROUNDDOWN addr
    · rw [(hpage a h2).mpr hd]
      exact hu.2.1
    · exact h.rest a h1 h2 hd
  · obtain ⟨hold, ⟨r, hnew⟩, hkeep⟩ := M.view_eq (by decide)
    have I' : Inv { s with mem := m' } own' :=
      (I.mapped C G M (Nat.lt_of_le_of_lt (Nat.div_mul_le_self _ _) hsz) hp).inv
    refine ⟨m', own', hrun, ⟨C, (I'.space p hp).reserved, fun a h1 h2 => ?_⟩,
      visible_zero hold hnew hkeep⟩
    refine ⟨hbelow a h2, ?_⟩
    by_cases hd : PGROUNDDOWN a = PGROUNDDOWN addr
    · rw [(hpage a h2).mpr hd]
      refine ⟨_, hnew, ?_, ?_⟩
      · rw [has_U_permissions]
        exact (has_mk r).trans (by decide)
      · rw [has_W_permissions, Bool.or_eq_true]
        exact .inl ((has_mk r).trans (by decide))
    · rw [hkeep _ fun he => hd ((hpage a h2).mp he)]
      exact h.entry I hp h1 h2 (h.rest a h1 h2 hd)
  · rcases h.first with hV | ⟨hst, hE⟩
    · exact absurd (huser hV) hno
    · exact absurd ⟨hst, h.start⟩ (hfail hE)

/-- A call on a buffer of the heap does what it would do if all pages had been there from the
start, as long as the memory lasts. -/
theorem lazy_heap_invisible {xs : List (ProcId × Action)} (hs : ∃ own, Inv s₀ own)
    (h : Run (Guarded Tame Step) s₀ xs s) (ha : (s.proc p).Active) (c : Call)
    (hb : HeapBuffer s p addr c.size) :
    ∃ r s', c.sys p addr s = .ok (r, s') ∧ (¬ Full s'.mem →
      (c.body (s.proc p).killed addr).run (visible (view s.mem s.root (some p))) =
        (r, visible (view s'.mem s.root (some p)))) := by
  obtain ⟨own, I⟩ := run_inv h hs
  have hp := I.used p ha.1
  obtain ⟨m1, own1, harg, O, hvis⟩ := hb.argaddr I hp
  have hops : (userOps (s.root (some p))).Refines addr (addr + c.size)
      (fun s' => visible (view s' s.root (some p))) (Open s.root own1 (some p) addr (addr + c.size))
      Full := userOps_refines hp addr _
  obtain ⟨r, m', hrun, _, _, heq⟩ := Routine.exec_run hops (c.body_within (s.proc p).killed addr) O
  refine ⟨r, { s with mem := m' }, ?_, fun hno => ?_⟩
  · rw [Call.sys, bind_of_ok harg]
    exact onMem_of_ok hrun
  · rw [← hvis]
    exact heq hno

end

/-- A file, and what `fstat` tells of it. -/
def someFile : OpenFile := ⟨true, true, .inode 3 [] 0⟩
def someStat : Fin 24 → Byte := fun i => BitVec.ofNat 8 i

/-- `fstat` with a buffer over two pages of the heap, the second of which has been touched. -/
theorem lazy_heap_invisible_fstat : let := twentyPages
    ∃ s r s', small noFile noInode Tame [(0, .sbrk 8192), (0, .load 8192)] = some s ∧
      (Call.fstat someFile someStat).sys 0 8180 s = .ok (r, s') ∧
      ((Call.fstat someFile someStat).body (s.proc 0).killed 8180).run
        (visible (view s.mem s.root (some 0))) = (r, visible (view s'.mem s.root (some 0))) := by
  let := twentyPages
  obtain ⟨s, hs, ha, hsz, hst, hfree, hno, hV, hU, hW, r, s', hsys, hleft⟩ : ∃ s,
      small noFile noInode Tame [(0, .sbrk 8192), (0, .load 8192)] = some s ∧
      (s.proc 0).Active ∧ (s.proc 0).sz = 12288 ∧ (s.proc 0).aboveStack 8180 = true ∧
      (∀ q ∈ threePages, Managed q ∧ s.mem.count q = 0) ∧
      has (s.mem.leaf (s.proc 0).pagetable (slot 8180)) PTE_V = false ∧
      has (s.mem.leaf (s.proc 0).pagetable (slot 8192)) PTE_V = true ∧
      has (s.mem.leaf (s.proc 0).pagetable (slot 8192)) PTE_U = true ∧
      has (s.mem.leaf (s.proc 0).pagetable (slot 8192)) PTE_W = true ∧
      ∃ r s', (Call.fstat someFile someStat).sys 0 8180 s = .ok (r, s') ∧
        ∀ q ∈ threePages, Managed q ∧ s'.mem.count q = 0 := by
    decide +kernel +revert
  obtain ⟨s₀, hs0, hrun⟩ := small_run hs
  have hslot : ∀ a, 8180 ≤ a → a < 8180 + 24 → slot a = slot 8180 ∨ slot a = slot 8192 := by
    intro a h1 h2
    have ha : a < MAXVA := by rw [MAXVA_eq]; omega
    rw [slot_eq_iff ha (by decide), slot_eq_iff ha (by decide)]
    simp only [PGROUNDDOWN, PGSIZE]
    omega
  have hb : HeapBuffer s 0 8180 (Call.fstat someFile someStat).size := by
    refine ⟨by rw [hsz]; decide, by rw [hsz]; decide, .inr ⟨hst, threePages, by decide, rfl, hfree⟩,
      fun a h1 h2 hd => ?_, fun a h1 h2 hVa => ?_⟩
    · rcases hslot a h1 h2 with he | he
      · rw [slot_eq_iff (by rw [MAXVA_eq]; simp only [Call.size] at h2; omega) (by decide)] at he
        exact absurd he hd
      · rw [he]
        exact hV
    · have h2' : a < 8180 + 24 := by
        rcases h2 with rfl | h2
        · decide
        · exact h2
      rcases hslot a h1 h2' with he | he
      · rw [he, hno] at hVa
        cases hVa
      · rw [he]
        exact ⟨hU, .inl hW⟩
  obtain ⟨_, _, hsys', heq⟩ := lazy_heap_invisible hs0 hrun ha (Call.fstat someFile someStat) hb
  cases hsys.symm.trans hsys'
  obtain ⟨hm, h0⟩ := hleft _ List.mem_cons_self
  exact ⟨s, r, s', hs, hsys, heq fun hf => hf _ hm h0⟩

/-- `fstat` with a buffer over two pages of the heap that have not been touched fails. -/
theorem fstat_over_untouched_page : let := twentyPages
    ∃ s r s', small noFile noInode Tame [(0, .sbrk 8192)] = some s ∧ (s.proc 0).sz = 12288 ∧
      (Call.fstat someFile someStat).sys 0 8180 s = .ok (r, s') ∧ r.map Prod.fst = some (-1) ∧
      ¬ Full s'.mem ∧
      (((Call.fstat someFile someStat).body (s.proc 0).killed 8180).run
        (visible (view s.mem s.root (some 0)))).1.map Prod.fst = some 0 := by
  let := twentyPages
  obtain ⟨s, hs, hsz, r, s', hsys, hr, hfree⟩ : ∃ s,
      small noFile noInode Tame [(0, .sbrk 8192)] = some s ∧ (s.proc 0).sz = 12288 ∧
      ∃ r s', (Call.fstat someFile someStat).sys 0 8180 s = .ok (r, s') ∧
        r.map Prod.fst = some (-1) ∧ ∀ q ∈ threePages, Managed q ∧ s'.mem.count q = 0 := by
    decide +kernel +revert
  obtain ⟨hm, h0⟩ := hfree _ List.mem_cons_self
  exact ⟨s, r, s', hs, hsz, hsys, hr, fun hf => hf _ hm h0, rfl⟩

end Yyds.Kernel
