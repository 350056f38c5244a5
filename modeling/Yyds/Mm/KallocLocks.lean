import Yyds.Lib.Locks
import Yyds.Mm.KallocHistory

/-! The locks of `kalloc` and `kfree`, one acquire or release at a time, on every CPU. -/
namespace Yyds.Mm

open Lib

inductive KLock
  | kmem (i : Fin NCPU)
  | ref
  deriving DecidableEq

/-- The memory, and the pages whose `kfree` is between its two critical sections: it runs on no
CPU in particular then. -/
structure KMem where
  phys : Phys
  pending : List Nat

inductive KCall
  | kalloc
  | kfree (pa : Nat)
  | put (pa : Nat)

/-- Where a CPU is in `kalloc` or `kfree`; `r` is the variable of that name and `antid` the CPU
whose list `kalloc` looks at. -/
inductive KPc
  | idle
  | lockOwn
  | takeOwn
  | lockRefOwn (r : Nat)
  | setRefOwn (r : Nat)
  | unlockRefOwn (r : Nat)
  | scan (antid : Nat)
  | lockOther (antid : Fin NCPU)
  | takeOther (antid : Fin NCPU)
  | lockRefOther (antid : Fin NCPU) (r : Nat)
  | setRefOther (antid : Fin NCPU) (r : Nat)
  | unlockRefOther (antid : Fin NCPU) (r : Nat)
  | unlockFound (antid : Fin NCPU) (r : Nat)
  | unlockEmpty (antid : Fin NCPU)
  | unlockOwn (r : Nat)
  | fill (r : Nat)
  | lockRefFree (pa : Nat)
  | decRef (pa : Nat)
  | unlockRefFree (pa : Nat) (zero : Bool)
  | freed (pa : Nat) (zero : Bool)
  | lockPut (pa : Nat)
  | put (pa : Nat)
  | unlockPut
  deriving DecidableEq

section
variable [Layout]

/-- The body of `kalloc` and `kfree` on CPU `id`. -/
def kallocCode (id : Fin NCPU) : KPc → Op KLock KMem KPc KCall
  | .idle => .act fun call m =>
    match call with
    | .kalloc => some (m, .lockOwn)
    -- otherwise it panics before it takes a lock
    | .kfree pa => if Managed pa then some (m, .lockRefFree pa) else none
    | .put pa => if pa ∈ m.pending then
        some ({ m with phys := m.phys.setPage pa fun _ => junk1, pending := m.pending.erase pa },
          .lockPut pa)
      else none
  -- kalloc
  | .lockOwn => .acquire (.kmem id) .takeOwn
  | .takeOwn => .act fun _ m =>
    let r := m.phys.freelist id
    if r ≠ 0 then some ({ m with phys := m.phys.setHead id (m.phys.next r) }, .lockRefOwn r)
    else some (m, .scan 0)
  | .lockRefOwn r => .acquire .ref (.setRefOwn r)
  | .setRefOwn r => .act fun _ m => some ({ m with phys := m.phys.setCnt r 1 }, .unlockRefOwn r)
  | .unlockRefOwn r => .release .ref (.unlockOwn r)
  | .scan antid => .act fun _ m =>
    if h : antid < NCPU then
      if antid = id then some (m, .scan (antid + 1)) else some (m, .lockOther ⟨antid, h⟩)
    else some (m, .unlockOwn 0)
  | .lockOther antid => .acquire (.kmem antid) (.takeOther antid)
  | .takeOther antid => .act fun _ m =>
    let r := m.phys.freelist antid
    if r ≠ 0 then
      some ({ m with phys := m.phys.setHead antid (m.phys.next r) }, .lockRefOther antid r)
    else some (m, .unlockEmpty antid)
  | .lockRefOther antid r => .acquire .ref (.setRefOther antid r)
  | .setRefOther antid r => .act fun _ m =>
    some ({ m with phys := m.phys.setCnt r 1 }, .unlockRefOther antid r)
  | .unlockRefOther antid r => .release .ref (.unlockFound antid r)
  | .unlockFound antid r => .release (.kmem antid) (.unlockOwn r)
  | .unlockEmpty antid => .release (.kmem antid) (.scan (antid + 1))
  | .unlockOwn r => .release (.kmem id) (.fill r)
  | .fill r => .act fun _ m =>
    some (if r ≠ 0 then { m with phys := m.phys.setPage r fun _ => junk5 } else m, .idle)
  -- kfree
  | .lockRefFree pa => .acquire .ref (.decRef pa)
  | .decRef pa => .act fun _ m =>
    let n := m.phys.count pa - 1
    some ({ m with phys := m.phys.setCnt pa n }, .unlockRefFree pa (n == 0))
  | .unlockRefFree pa zero => .release .ref (.freed pa zero)
  | .freed pa zero => .act fun _ m =>
    some (if zero then { m with pending := pa :: m.pending } else m, .idle)
  | .lockPut pa => .acquire (.kmem id) (.put pa)
  | .put pa => .act fun _ m =>
    some ({ m with phys := (m.phys.setPage pa (Function.update (m.phys.page pa) 0
      (BitVec.ofNat 64 (m.phys.freelist id)))).setHead id pa }, .unlockPut)
  | .unlockPut => .release (.kmem id) .idle

abbrev KState := LockState (Fin NCPU) KLock KMem KPc

/-- The locks that CPU `id` has at each place. -/
def KPc.held (id : Fin NCPU) : KPc → List KLock
  | .takeOwn | .lockRefOwn _ | .scan _ | .lockOther _ | .unlockOwn _ | .put _ | .unlockPut =>
    [.kmem id]
  | .setRefOwn _ | .unlockRefOwn _ => [.ref, .kmem id]
  | .takeOther antid | .lockRefOther antid _ | .unlockFound antid _ | .unlockEmpty antid =>
    [.kmem antid, .kmem id]
  | .setRefOther antid _ | .unlockRefOther antid _ => [.ref, .kmem antid, .kmem id]
  | .decRef _ | .unlockRefFree _ _ => [.ref]
  | .idle | .lockOwn | .fill _ | .lockRefFree _ | .freed _ _ | .lockPut _ => []

/-- The CPU whose list `kalloc` looks at is another one. -/
def KPc.Placed (id : Fin NCPU) : KPc → Prop
  | .lockOther antid | .takeOther antid | .lockRefOther antid _ | .setRefOther antid _
  | .unlockRefOther antid _ | .unlockFound antid _ | .unlockEmpty antid => antid ≠ id
  | _ => True

/-- `kalloc` looks for a page on the other CPUs' lists. -/
def KPc.stealing : KPc → Bool
  | .scan _ | .lockOther _ | .takeOther _ | .lockRefOther _ _ | .setRefOther _ _
  | .unlockRefOther _ _ | .unlockFound _ _ | .unlockEmpty _ => true
  | _ => false

/-- A CPU whose list is empty finds no other CPU looking at other lists. -/
def OneStealer (s : KState) (a : Fin NCPU × KCall) : Prop :=
  s.pc a.1 = .takeOwn → s.mem.phys.freelist a.1 = 0 → ∀ u, u ≠ a.1 → (s.pc u).stealing = false
  deriving Decidable

open KPc

theorem kallocCode_act {id : Fin NCPU} {p p' : KPc} {f : KCall → KMem → Option (KMem × KPc)}
    {i : KCall} {m m' : KMem} (hc : kallocCode id p = .act f) (hf : f i m = some (m', p')) :
    p'.held id = p.held id ∧ (p.Placed id → p'.Placed id) ∧
      (p'.stealing = true → p.stealing = true ∨ p = .takeOwn ∧ m.phys.freelist id = 0) := by
  cases p with
  | idle =>
    cases hc
    cases i with
    | kalloc =>
      cases hf
      simp [held, KPc.Placed, stealing]
    | kfree pa | put pa =>
      dsimp only at hf
      split at hf <;> cases hf
      simp [held, KPc.Placed, stealing]
  | takeOwn =>
    cases hc
    dsimp only at hf
    split at hf <;> cases hf
    · simp [held, KPc.Placed, stealing]
    · rename_i h
      simpa [held, KPc.Placed, stealing] using h
  | scan antid =>
    cases hc
    split at hf
    · split at hf <;> cases hf
      · simp [held, KPc.Placed, stealing]
      · rename_i hlt hne
        simp only [held, KPc.Placed, stealing, true_and, true_or, implies_true, and_true]
        intro _ he
        exact hne (congrArg Fin.val he)
    · cases hf
      simp [held, KPc.Placed, stealing]
  | takeOther antid =>
    cases hc
    dsimp only at hf
    split at hf <;> cases hf <;> simp [held, KPc.Placed, stealing]
  | setRefOwn r | setRefOther antid r | fill r | decRef pa | freed pa zero | put pa =>
    cases hc
    cases hf
    simp [held, KPc.Placed, stealing]
  | _ => cases hc

theorem kallocCode_annotation :
    Annotation kallocCode KPc.Placed fun id p k => k ∈ p.held id where
  acquire := by
    intro id p l p' hok _ hc
    cases p <;> cases hc <;> exact ⟨hok, by simp [held]⟩
  release := by
    intro id p l p' hok hc
    cases p <;> cases hc <;> refine ⟨by first | exact hok | trivial, ?_⟩ <;>
      simp only [held, KPc.Placed] at hok ⊢ <;> grind
  holding := by
    intro id p l yes no hok hc
    cases p <;> cases hc
  act := by
    intro id p f i m m' p' hok hc hf
    obtain ⟨hheld, hplaced, _⟩ := kallocCode_act hc hf
    exact ⟨hplaced hok, by simp [hheld]⟩

variable {s s' : KState} {id : Fin NCPU} {i : KCall}

/-- A CPU starts to look at other lists only when its own is empty. -/
theorem stealing_of_next (h : LockState.Steps kallocCode s (id, i) s')
    (hs : (s'.pc id).stealing = true) :
    (s.pc id).stealing = true ∨ s.pc id = .takeOwn ∧ s.mem.phys.freelist id = 0 := by
  obtain ⟨l, p, hc, -, rfl⟩ | ⟨l, p, hc, -, rfl⟩ | ⟨l, yes, no, hc, rfl⟩ | ⟨f, m, p, hc, hf, rfl⟩ :=
    h.cases
  · generalize s.pc id = q at hc ⊢
    cases q <;> cases hc <;> simp_all [stealing]
  · generalize s.pc id = q at hc ⊢
    cases q <;> cases hc <;> simp_all [stealing]
  · generalize s.pc id = q at hc
    cases q <;> cases hc
  · rw [goto_pc_self] at hs
    exact (kallocCode_act hc hf).2.2 hs

/-- Every lock is with the CPU that took it, and at most one CPU looks at other lists. -/
structure KInv (s : KState) : Prop where
  owned : Owned KPc.Placed (fun id p k => k ∈ p.held id) s
  one : ∀ t u, (s.pc t).stealing = true → (s.pc u).stealing = true → t = u

theorem KInv.next (I : KInv s) (hone : OneStealer s (id, i))
    (h : LockState.Steps kallocCode s (id, i) s') : KInv s' := by
  refine ⟨I.owned.next kallocCode_annotation h, ?_⟩
  refine h.unique (C := fun _ p => p.stealing = true) I.one ?_
  intro hs
  rcases stealing_of_next h hs with hold | ⟨hpc, hempty⟩
  · exact .inl hold
  · refine .inr ?_
    intro u hu
    simp [hone hpc hempty u hu]

/-- A CPU that has `ref.lock` waits for nothing. -/
theorem ref_innermost {p p' : KPc} {l : KLock} (hk : KLock.ref ∈ p.held id) :
    kallocCode id p ≠ .acquire l p' := by
  intro hl
  cases p <;> cases hl <;> simp [held] at hk

/-- A CPU that has a lock and waits is about to take `ref.lock`, or another CPU's list. -/
theorem held_and_wants {p p' : KPc} {k l : KLock} (hp : p.Placed id) (hk : k ∈ p.held id)
    (hl : kallocCode id p = .acquire l p') : l = .ref ∨ p.stealing = true ∧ l ∉ p.held id := by
  cases p <;> cases hl <;> simp_all [held, stealing, KPc.Placed]

theorem KInv.not_deadlocked (I : KInv s) : ¬ s.Deadlocked kallocCode := by
  refine I.owned.not_deadlocked (fun l => l = .ref) (fun t => (s.pc t).stealing = true) ?_ ?_ I.one
  · intro t k l p hk hmem
    rw [hk] at hmem
    exact ref_innermost hmem
  · intro t k l p hmem hp
    exact held_and_wants (I.owned.place t) hmem hp

/-- No CPU is in `kalloc` or `kfree`. -/
def KState.start (m : KMem) : KState := ⟨fun _ => none, fun _ => .idle, m⟩

/-- No reachable state has a circle of waiting CPUs, as long as no two CPUs look at other CPUs'
lists at once. -/
theorem kalloc_never_deadlocks {m : KMem} {as : List (Fin NCPU × KCall)}
    (h : Run (Guarded OneStealer (LockState.Steps kallocCode)) (KState.start m) as s) :
    ¬ s.Deadlocked kallocCode := by
  have hstep : ∀ s a s', Guarded OneStealer (LockState.Steps kallocCode) s a s' →
      KInv s → KInv s' := by
    rintro s ⟨id, i⟩ s' ⟨hone, hs⟩ I
    exact I.next hone hs
  have hstart : KInv (KState.start m) := by
    refine ⟨⟨fun _ => trivial, ?_⟩, ?_⟩
    · simp [KState.start, held]
    · intro t u ht
      cases ht
  exact (h.invariant hstep hstart).not_deadlocked

end

/-- Memory in which every list is empty. -/
def KMem.empty : KMem := ⟨Phys.boot (fun _ _ => 0) fun _ => 0, []⟩

/-- CPU 0 looks at the other lists, and has to wait for CPU 1. -/
def patientSteal : List (Fin NCPU × KCall) :=
  List.replicate 2 (1, .kalloc) ++ List.replicate 5 (0, .kalloc)

theorem kalloc_never_deadlocks_patient : let := twoPages
    ∃ s, Run (Guarded OneStealer (LockState.Steps kallocCode)) (KState.start .empty)
      patientSteal s ∧ s.wants kallocCode 0 = some (.kmem 1) ∧ s.holder (.kmem 1) = some 1 ∧
      ¬ s.Deadlocked kallocCode := by
  let := twoPages
  obtain ⟨s, hrun, hwants, hholder⟩ : ∃ s, Run (Guarded OneStealer (LockState.Steps kallocCode))
      (KState.start .empty) patientSteal s ∧ s.wants kallocCode 0 = some (.kmem 1) ∧
      s.holder (.kmem 1) = some 1 :=
    Run.exists_foldlM
  exact ⟨s, hrun, hwants, hholder, kalloc_never_deadlocks hrun⟩

/-- CPU 0 and CPU 1 find their lists empty at the same time. -/
def crossedSteals : List (Fin NCPU × KCall) :=
  [(0, .kalloc), (1, .kalloc), (0, .kalloc), (1, .kalloc), (0, .kalloc), (1, .kalloc),
    (0, .kalloc), (0, .kalloc), (1, .kalloc)]

theorem kalloc_deadlocks_crossed : let := twoPages
    ∃ s, Run (LockState.Steps kallocCode) (KState.start .empty) crossedSteals s ∧
      s.Deadlocked kallocCode := by
  let := twoPages
  refine (Run.exists_exec (P := fun s => (s.wants kallocCode 0 = some (.kmem 1) ∧
    s.holder (.kmem 1) = some 1) ∧ s.wants kallocCode 1 = some (.kmem 0) ∧
    s.holder (.kmem 0) = some 0) ?_).imp fun s h => ⟨h.1, ?_⟩
  · decide +kernel
  · exact deadlocked_of_two ⟨_, h.2.1⟩ ⟨_, h.2.2⟩

end Yyds.Mm
