import Yyds.Lib.Locks
import Yyds.Fs.Bio

/-! The bucket locks of the buffer cache, one acquire or release at a time, on every CPU. -/
namespace Yyds.Fs

open Lib

/-- The locks of `bio.c` that are spin locks, and `tickslock`, which is taken inside them. -/
inductive BLock
  | bucket (i : Bucket)
  | ticks
  deriving DecidableEq

structure BMem where
  bcache : BCache
  ticks : BitVec 32

inductive BCall
  | bget (dev blockno : Nat)
  | brelse (b : BufId)
  | bpin (b : BufId)
  | bunpin (b : BufId)
  | clockintr

/-- What the three short routines do to `refcnt`. -/
inductive Adjust
  | relse
  | pin
  | unpin
  deriving DecidableEq

/-- Where a CPU is. In `bget`, `i` and `cycle` are the variables of the loop over the buckets; in
the short routines `bid` is the bucket of the buffer. -/
inductive BPc
  | idle
  | lockOwn (dev blockno : Nat)
  | lookup (dev blockno : Nat)
  | scan (dev blockno : Nat) (i : Bucket) (cycle : Nat)
  | testOther (dev blockno : Nat) (i : Bucket) (cycle : Nat)
  | lockOther (dev blockno : Nat) (i : Bucket) (cycle : Nat)
  | search (dev blockno : Nat) (i : Bucket) (cycle : Nat)
  | unlockTaken (dev blockno : Nat) (i : Bucket) (b : BufId)
  | link (dev blockno : Nat) (b : BufId)
  | assign (dev blockno : Nat) (b : BufId)
  | unlockOther (dev blockno : Nat) (i : Bucket) (cycle : Nat)
  | panicked (bid : Bucket)
  | lockTicks (bid : Bucket) (b : BufId)
  | stamp (bid : Bucket) (b : BufId)
  | unlockTicks (bid : Bucket)
  | unlockOwn (bid : Bucket)
  | lockAdjust (how : Adjust) (bid : Bucket) (b : BufId)
  | adjust (how : Adjust) (bid : Bucket) (b : BufId)
  | lockClock
  | clock
  | unlockClock
  deriving DecidableEq

/-- The routines of `bio.c` that take bucket locks; every CPU runs the same code. -/
def bioCode (_cpu : Fin NCPU) : BPc → Op BLock BMem BPc BCall
  | .idle => .act fun call m =>
    let bid b := HASH (m.bcache.buf b).blockno
    match call with
    | .bget dev blockno => some (m, .lockOwn dev blockno)
    | .brelse b => some (m, .lockAdjust .relse (bid b) b)
    | .bpin b => some (m, .lockAdjust .pin (bid b) b)
    | .bunpin b => some (m, .lockAdjust .unpin (bid b) b)
    | .clockintr => some (m, .lockClock)
  | .lockOwn dev blockno => .acquire (.bucket (HASH blockno)) (.lookup dev blockno)
  | .lookup dev blockno => .act fun _ m =>
    match m.bcache.lookup dev blockno with
    | some b => some ({ m with bcache := m.bcache.setBuf b fun x =>
        { x with refcnt := x.refcnt + 1 } }, .lockTicks (HASH blockno) b)
    | none => some (m, .scan dev blockno (HASH blockno) 0)
  | .scan dev blockno i cycle => .act fun _ m =>
    if cycle = NBUCKET then some (m, .panicked (HASH blockno))
    else if i = HASH blockno then some (m, .search dev blockno i (cycle + 1))
    else some (m, .testOther dev blockno i (cycle + 1))
  | .testOther dev blockno i cycle =>
    .holding (.bucket i) (.scan dev blockno (i + 1) cycle) (.lockOther dev blockno i cycle)
  | .lockOther dev blockno i cycle => .acquire (.bucket i) (.search dev blockno i cycle)
  | .search dev blockno i cycle => .act fun _ m =>
    match m.bcache.lru i with
    | some b =>
      if i = HASH blockno then some (m, .assign dev blockno b)
      else some ({ m with bcache := m.bcache.unlink i b }, .unlockTaken dev blockno i b)
    | none =>
      if i = HASH blockno then some (m, .scan dev blockno (i + 1) cycle)
      else some (m, .unlockOther dev blockno i cycle)
  | .unlockTaken dev blockno i b => .release (.bucket i) (.link dev blockno b)
  | .link dev blockno b => .act fun _ m =>
    some ({ m with bcache := m.bcache.link (HASH blockno) b }, .assign dev blockno b)
  | .assign dev blockno b => .act fun _ m =>
    some ({ m with bcache := m.bcache.assign b dev blockno (m.bcache.buf b).timestamp },
      .lockTicks (HASH blockno) b)
  | .unlockOther dev blockno i cycle => .release (.bucket i) (.scan dev blockno (i + 1) cycle)
  | .panicked _ => .act fun _ _ => none
  | .lockTicks bid b => .acquire .ticks (.stamp bid b)
  | .stamp bid b => .act fun _ m =>
    some ({ m with bcache := m.bcache.setBuf b fun x => { x with timestamp := m.ticks } },
      .unlockTicks bid)
  | .unlockTicks bid => .release .ticks (.unlockOwn bid)
  | .unlockOwn bid => .release (.bucket bid) .idle
  | .lockAdjust how bid b => .acquire (.bucket bid) (.adjust how bid b)
  | .adjust how bid b => .act fun _ m =>
    match how with
    | .relse => some ({ m with bcache := m.bcache.setBuf b fun x =>
        { x with refcnt := x.refcnt - 1 } }, .lockTicks bid b)
    | .pin => some ({ m with bcache := m.bcache.setBuf b fun x =>
        { x with refcnt := x.refcnt + 1 } }, .unlockOwn bid)
    | .unpin => some ({ m with bcache := m.bcache.setBuf b fun x =>
        { x with refcnt := x.refcnt - 1 } }, .unlockOwn bid)
  | .lockClock => .acquire .ticks .clock
  | .clock => .act fun _ m => some ({ m with ticks := m.ticks + 1 }, .unlockClock)
  | .unlockClock => .release .ticks .idle

abbrev BState := LockState (Fin NCPU) BLock BMem BPc

/-- The locks that a CPU has at each place. -/
def BPc.held : BPc → List BLock
  | .lookup _ no | .scan _ no _ _ | .testOther _ no _ _ | .lockOther _ no _ _ | .link _ no _
  | .assign _ no _ => [.bucket (HASH no)]
  | .search _ no i _ => if i = HASH no then [.bucket (HASH no)] else [.bucket i, .bucket (HASH no)]
  | .unlockTaken _ no i _ | .unlockOther _ no i _ => [.bucket i, .bucket (HASH no)]
  | .panicked bid | .lockTicks bid _ | .unlockOwn bid | .adjust _ bid _ => [.bucket bid]
  | .stamp bid _ | .unlockTicks bid => [.ticks, .bucket bid]
  | .clock | .unlockClock => [.ticks]
  | .idle | .lockOwn _ _ | .lockAdjust _ _ _ | .lockClock => []

/-- `bget` takes the lock of another bucket than its own only. -/
def BPc.Placed : BPc → Prop
  | .scan _ no i cycle => cycle = 0 → i = HASH no
  | .search _ no i cycle => cycle ≠ 0 ∧ (cycle = 1 → i = HASH no)
  | .testOther _ no i cycle | .lockOther _ no i cycle | .unlockOther _ no i cycle =>
    i ≠ HASH no ∧ cycle ≠ 0 ∧ cycle ≠ 1
  | .unlockTaken _ no i _ => i ≠ HASH no
  | _ => True

/-- `bget` looks for a buffer in other buckets. -/
def BPc.searching : BPc → Bool
  | .scan _ _ _ cycle => cycle != 0
  | .search _ _ _ cycle => cycle != 1
  | .testOther _ _ _ _ | .lockOther _ _ _ _ | .unlockTaken _ _ _ _ | .unlockOther _ _ _ _ => true
  | _ => false

/-- A `bget` that finds no unused buffer in its own bucket finds no other CPU looking into other
buckets. -/
def OneSearcher (s : BState) (a : Fin NCPU × BCall) : Prop :=
  match s.pc a.1 with
  | .search _ _ i 1 =>
    s.mem.bcache.lru i = none → ∀ u, u ≠ a.1 → (s.pc u).searching = false
  | _ => True

instance (s : BState) (a : Fin NCPU × BCall) : Decidable (OneSearcher s a) := by
  unfold OneSearcher
  split <;> infer_instance

open BPc

theorem bioCode_act {cpu : Fin NCPU} {p p' : BPc} {f : BCall → BMem → Option (BMem × BPc)}
    {i : BCall} {m m' : BMem} (hc : bioCode cpu p = .act f) (hf : f i m = some (m', p')) :
    p'.held = p.held ∧ (p.Placed → p'.Placed) ∧
      (p.Placed → p'.searching = true → p.searching = true ∨
        ∃ dev no j, p = .search dev no j 1 ∧ m.bcache.lru j = none) := by
  cases p with
  | idle =>
    cases hc
    cases i <;> cases hf <;> simp [held, BPc.Placed, searching]
  | lookup dev no =>
    cases hc
    dsimp only at hf
    split at hf <;> cases hf <;> simp [held, BPc.Placed, searching]
  | scan dev no j cycle =>
    cases hc
    split at hf
    · cases hf
      simp [held, BPc.Placed, searching]
    · split at hf <;> cases hf
      · simp_all [held, BPc.Placed, searching]
      · simp_all [held, BPc.Placed, searching]
  | search dev no j cycle =>
    cases hc
    dsimp only at hf
    split at hf <;> rename_i hlru <;> split at hf <;> rename_i hj <;> cases hf
    · simp [held, BPc.Placed, searching, hj]
    · simp_all [held, BPc.Placed, searching]
    · refine ⟨by simp [held, hj], by simp +contextual [BPc.Placed], fun _ _ => ?_⟩
      by_cases hcycle : cycle = 1
      · exact .inr ⟨dev, no, j, by rw [hcycle], hlru⟩
      · exact .inl (by simpa [searching] using hcycle)
    · simp_all [held, BPc.Placed, searching]
  | adjust how bid b =>
    cases hc
    cases how <;> cases hf <;> simp [held, BPc.Placed, searching]
  | link dev no b | assign dev no b | stamp bid b | clock =>
    cases hc
    cases hf
    simp [held, BPc.Placed, searching]
  | panicked bid =>
    cases hc
    cases hf
  | _ => cases hc

theorem bioCode_annotation : Annotation bioCode (fun _ p => p.Placed) fun _ p k => k ∈ p.held where
  acquire := by
    intro cpu p l p' hok _ hc
    cases p <;> cases hc <;> simp_all [held, BPc.Placed]
  release := by
    intro cpu p l p' hok hc
    cases p <;> cases hc <;> simp only [held, BPc.Placed] at hok ⊢ <;> grind
  holding := by
    intro cpu p l yes no hok hc
    cases p <;> cases hc
    simp_all [held, BPc.Placed]
  act := by
    intro cpu p f i m m' p' hok hc hf
    obtain ⟨hheld, hplaced, _⟩ := bioCode_act hc hf
    exact ⟨hplaced hok, by simp [hheld]⟩

variable {s s' : BState} {cpu : Fin NCPU} {call : BCall}

/-- A CPU starts to look into other buckets only when its own has no unused buffer. -/
theorem searching_of_next (hp : (s.pc cpu).Placed) (h : LockState.Steps bioCode s (cpu, call) s')
    (hs : (s'.pc cpu).searching = true) :
    (s.pc cpu).searching = true ∨
      ∃ dev no j, s.pc cpu = .search dev no j 1 ∧ s.mem.bcache.lru j = none := by
  obtain ⟨l, p, hc, -, rfl⟩ | ⟨l, p, hc, -, rfl⟩ | ⟨l, yes, no, hc, rfl⟩ | ⟨f, m, p, hc, hf, rfl⟩ :=
    h.cases
  · generalize s.pc cpu = q at hc hp ⊢
    cases q <;> cases hc <;> simp_all [searching]
  · generalize s.pc cpu = q at hc hp ⊢
    cases q <;> cases hc <;> simp_all [searching]
  · generalize s.pc cpu = q at hc hp ⊢
    cases q <;> cases hc
    simp [searching]
  · rw [goto_pc_self] at hs
    exact (bioCode_act hc hf).2.2 hp hs

/-- Every lock is with the CPU that took it, and at most one CPU looks into other buckets. -/
structure BInv (s : BState) : Prop where
  owned : Owned (fun _ p => p.Placed) (fun _ p k => k ∈ p.held) s
  one : ∀ t u, (s.pc t).searching = true → (s.pc u).searching = true → t = u

theorem BInv.next (I : BInv s) (hone : OneSearcher s (cpu, call))
    (h : LockState.Steps bioCode s (cpu, call) s') : BInv s' := by
  refine ⟨I.owned.next bioCode_annotation h, ?_⟩
  refine h.unique (C := fun _ p => p.searching = true) I.one ?_
  intro hs
  rcases searching_of_next (I.owned.place cpu) h hs with hold | ⟨dev, no, j, hpc, hlru⟩
  · exact .inl hold
  · refine .inr ?_
    intro u hu
    simp only [OneSearcher, hpc] at hone
    simp [hone hlru u hu]

/-- A CPU that has `tickslock` waits for nothing. -/
theorem ticks_innermost {p p' : BPc} {l : BLock} (hk : BLock.ticks ∈ p.held) :
    bioCode cpu p ≠ .acquire l p' := by
  intro hl
  cases p <;> cases hl <;> simp [held] at hk

/-- A CPU that has a lock and waits is about to take `tickslock`, or another bucket. -/
theorem bucket_and_wants {p p' : BPc} {k l : BLock} (hp : p.Placed) (hk : k ∈ p.held)
    (hl : bioCode cpu p = .acquire l p') : l = .ticks ∨ p.searching = true ∧ l ∉ p.held := by
  cases p <;> cases hl <;> simp_all [held, searching, BPc.Placed]

theorem BInv.not_deadlocked (I : BInv s) : ¬ s.Deadlocked bioCode := by
  refine I.owned.not_deadlocked (fun l => l = .ticks) (fun t => (s.pc t).searching = true)
    ?_ ?_ I.one
  · intro t k l p hk hmem
    rw [hk] at hmem
    exact ticks_innermost hmem
  · intro t k l p hmem hp
    exact bucket_and_wants (I.owned.place t) hmem hp

/-- No CPU is in the cache's code. -/
def BState.start (m : BMem) : BState := ⟨fun _ => none, fun _ => .idle, m⟩

/-- No reachable state has a circle of waiting CPUs, as long as no two `bget` look into other
buckets at once. -/
theorem bget_never_deadlocks {m : BMem} {as : List (Fin NCPU × BCall)}
    (h : Run (Guarded OneSearcher (LockState.Steps bioCode)) (BState.start m) as s) :
    ¬ s.Deadlocked bioCode := by
  have hstep : ∀ s a s', Guarded OneSearcher (LockState.Steps bioCode) s a s' →
      BInv s → BInv s' := by
    rintro s ⟨cpu, call⟩ s' ⟨hone, hs⟩ I
    exact I.next hone hs
  have hstart : BInv (BState.start m) := by
    refine ⟨⟨fun _ => trivial, ?_⟩, ?_⟩
    · simp [BState.start, held]
    · intro t u ht
      cases ht
  exact (h.invariant hstep hstart).not_deadlocked

/-- Every buffer is in use: buffer `b` has block `b`. -/
def BMem.full : BMem where
  bcache :=
    { buf := fun b => ⟨true, ROOTDEV, b, 1, zeroBlock, 0⟩
      bucket := fun i => (List.finRange NBUF).filter fun b => HASH b = i }
  ticks := 0

/-- `n` steps of a CPU in `bget` for block `blockno`. -/
def bgetSteps (cpu : Fin NCPU) (blockno n : Nat) : List (Fin NCPU × BCall) :=
  List.replicate n (cpu, .bget ROOTDEV blockno)

/-- CPU 0 looks for a buffer in another bucket, and has to wait for CPU 1. -/
theorem bget_never_deadlocks_patient :
    ∃ s, Run (Guarded OneSearcher (LockState.Steps bioCode)) (BState.start .full)
      (bgetSteps 1 40 2 ++ bgetSteps 0 39 7) s ∧ s.wants bioCode 0 = some (.bucket 1) ∧
      s.holder (.bucket 1) = some 1 ∧ ¬ s.Deadlocked bioCode := by
  refine (Run.exists_foldlM (P := fun s => s.wants bioCode 0 = some (.bucket 1) ∧
    s.holder (.bucket 1) = some 1)).imp fun s h => ⟨h.1, h.2.1, h.2.2, bget_never_deadlocks h.1⟩

/-- CPU 0 misses in bucket 0 and CPU 1 in bucket 1; when CPU 1 has left bucket 3, CPU 2 releases
a buffer there. -/
def crossedMisses : List (Fin NCPU × BCall) :=
  bgetSteps 0 39 3 ++ bgetSteps 1 40 62 ++ List.replicate 7 (2, .brelse 3) ++ bgetSteps 0 39 4

theorem bget_deadlocks_crossed :
    ∃ s, Run (LockState.Steps bioCode) (BState.start .full) crossedMisses s ∧
      s.mem.bcache.lru 3 = some 3 ∧ s.Deadlocked bioCode := by
  refine (Run.exists_exec (P := fun s => s.mem.bcache.lru 3 = some 3 ∧
    (s.wants bioCode 0 = some (.bucket 1) ∧ s.holder (.bucket 1) = some 1) ∧
    s.wants bioCode 1 = some (.bucket 0) ∧ s.holder (.bucket 0) = some 0) ?_).imp
    fun s ⟨hrun, hfree, h0, h1⟩ => ⟨hrun, hfree, deadlocked_of_two ⟨_, h0⟩ ⟨_, h1⟩⟩
  decide +kernel

end Yyds.Fs
