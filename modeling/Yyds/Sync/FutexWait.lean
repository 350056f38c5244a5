import Yyds.Lib.Locks
import Yyds.Sync.Futex

/-! `futex_wait` beside `futex_wake` and `futex_wake_bitset`, one instruction at a time. The lock of
a process that gives up its CPU is released and taken again by the scheduler; these are steps of the
process here. -/
namespace Yyds.Futex

open Lib
open Mm (ProcId)
open Kernel (ProcState)

inductive FLock
  | bucket (b : Bucket)
  | proc (p : ProcId)
  deriving DecidableEq

/-- The arguments of `futex_wake`, or of `futex_wake_bitset`. -/
structure Wake where
  uaddr : Addr
  nr_wake : Int
  bitset : Option (BitVec 32)
  deriving DecidableEq

/-- Which waiters the loop picks. -/
def Wake.picks (k : Wake) (w : Waiter) : Prop :=
  w.On k.uaddr ∧ (k.bitset.all fun bitset => w.bitset &&& bitset ≠ 0) = true
  deriving Decidable

/-- Which processes are made `RUNNABLE`; `futex_wake_bitset` does not look at the channel. -/
def Wake.rouses (k : Wake) (p : FProc) : Prop :=
  p.state = .SLEEPING ∧ (k.bitset = none → p.chan = k.uaddr)
  deriving Decidable

inductive Pc
  | idle
  | waitLock (a : Addr)
  | waitAdd (a : Addr)
  | waitFull (a : Addr)
  | waitAdded (a : Addr) (i : Slot)
  | waitOwn (a : Addr) (i : Slot)
  | waitState (a : Addr) (i : Slot)
  | waitChan (a : Addr) (i : Slot)
  | waitSched (a : Addr) (i : Slot)
  | asleep (a : Addr) (i : Slot)
  | recheck (a : Addr) (i : Slot)
  | stillAsleep (a : Addr) (i : Slot)
  | awake (a : Addr) (i : Slot)
  | waitUnlock (a : Addr) (i : Slot)
  | waitAgain (a : Addr) (i : Slot)
  | waitRemove (a : Addr) (i : Slot)
  | waitDone (a : Addr)
  | wakeLock (k : Wake)
  | wakeLoop (k : Wake) (n : Nat) (woken : Int)
  | wakeOther (k : Wake) (i : Slot) (q : ProcId) (woken : Int)
  | wakeSet (k : Wake) (i : Slot) (q : ProcId) (woken : Int)
  | wakeUnlock (k : Wake) (i : Slot) (q : ProcId) (woken : Int)
  | wakeDone (k : Wake) (woken : Int)
  deriving DecidableEq

/-- What a process calls. -/
inductive Call
  | wait (a : Addr)
  | wake (a : Addr) (nr_wake : Int)
  | wakeBitset (a : Addr) (nr_wake : Int) (bitset : BitVec 32)

def FutexSys.setChan (s : FutexSys) (p : ProcId) (chan : Addr) : FutexSys :=
  { s with proc := Function.update s.proc p { s.proc p with chan } }

def find_free_waiter (s : FutexSys) (b : Bucket) : Option Slot :=
  (List.finRange SLOTS).find? fun i => !(s.waiters b i).used

/-- What process `p` executes. -/
def futexCode (p : ProcId) : Pc → Op FLock FutexSys Pc Call
  | .idle => .act fun c m =>
    match c with
    | .wait a => some (m, .waitLock a)
    | .wake a nr_wake => some (m, .wakeLock ⟨a, nr_wake, none⟩)
    | .wakeBitset a nr_wake bitset =>
      if bitset = 0 then some (m, .idle) else some (m, .wakeLock ⟨a, nr_wake, some bitset⟩)
  -- futex_wait(a)
  | .waitLock a => .acquire (.bucket (futex_hash a)) (.waitAdd a)
  | .waitAdd a => .act fun _ m =>
    match find_free_waiter m (futex_hash a) with
    | none => some (m, .waitFull a)
    | some i =>
      some (m.setWaiter (futex_hash a) i ⟨true, p, a, 0xFFFFFFFF, false⟩, .waitAdded a i)
  | .waitFull a => .release (.bucket (futex_hash a)) .idle
  | .waitAdded a i => .release (.bucket (futex_hash a)) (.waitOwn a i)
  | .waitOwn a i => .acquire (.proc p) (.waitState a i)
  | .waitState a i => .act fun _ m => some (m.setState p .SLEEPING, .waitChan a i)
  | .waitChan a i => .act fun _ m => some (m.setChan p a, .waitSched a i)
  -- the scheduler: release, and now and then a look at the state
  | .waitSched a i => .release (.proc p) (.asleep a i)
  | .asleep a i => .acquire (.proc p) (.recheck a i)
  | .recheck a i => .act fun _ m =>
    if (m.proc p).state = .RUNNABLE then some (m.setState p .RUNNING, .awake a i)
    else some (m, .stillAsleep a i)
  | .stillAsleep a i => .release (.proc p) (.asleep a i)
  -- back in futex_wait
  | .awake a i => .act fun _ m => some (m.setChan p 0, .waitUnlock a i)
  | .waitUnlock a i => .release (.proc p) (.waitAgain a i)
  | .waitAgain a i => .acquire (.bucket (futex_hash a)) (.waitRemove a i)
  | .waitRemove a i => .act fun _ m =>
    some (m.setWaiter (futex_hash a) i { m.waiters (futex_hash a) i with used := false },
      .waitDone a)
  | .waitDone a => .release (.bucket (futex_hash a)) .idle
  -- futex_wake, futex_wake_bitset
  | .wakeLock k => .acquire (.bucket (futex_hash k.uaddr)) (.wakeLoop k 0 0)
  | .wakeLoop k n woken => .act fun _ m =>
    if h : n < SLOTS then
      let w := m.waiters (futex_hash k.uaddr) ⟨n, h⟩
      if ¬ woken < k.nr_wake then some (m, .wakeDone k woken)
      else if k.picks w then
        some (m.setWaiter (futex_hash k.uaddr) ⟨n, h⟩ { w with woken := true },
          .wakeOther k ⟨n, h⟩ w.proc woken)
      else some (m, .wakeLoop k (n + 1) woken)
    else some (m, .wakeDone k woken)
  | .wakeOther k i q woken => .acquire (.proc q) (.wakeSet k i q woken)
  | .wakeSet k i q woken => .act fun _ m =>
    some (if k.rouses (m.proc q) then m.setState q .RUNNABLE else m, .wakeUnlock k i q woken)
  | .wakeUnlock k i q woken => .release (.proc q) (.wakeLoop k (i.val + 1) (woken + 1))
  | .wakeDone k _ => .release (.bucket (futex_hash k.uaddr)) .idle

abbrev FState := LockState ProcId FLock FutexSys Pc

/-- Nobody waits, and all processes run. -/
def FState.init : FState where
  holder _ := none
  pc _ := .idle
  mem := ⟨fun _ _ => ⟨false, 0, 0, 0, false⟩, fun _ => ⟨.RUNNING, 0⟩⟩

/-! ### Locks -/

/-- The locks that a process has at each place. -/
def Pc.Holds (p : ProcId) : Pc → FLock → Prop
  | .waitAdd a, l | .waitFull a, l | .waitAdded a _, l | .waitRemove a _, l | .waitDone a, l =>
    l = .bucket (futex_hash a)
  | .waitState _ _, l | .waitChan _ _, l | .waitSched _ _, l | .recheck _ _, l
  | .stillAsleep _ _, l | .awake _ _, l | .waitUnlock _ _, l => l = .proc p
  | .wakeLoop k _ _, l | .wakeOther k _ _ _, l | .wakeDone k _, l =>
    l = .bucket (futex_hash k.uaddr)
  | .wakeSet k _ q _, l | .wakeUnlock k _ q _, l => l = .proc q ∨ l = .bucket (futex_hash k.uaddr)
  | .idle, _ | .waitLock _, _ | .waitOwn _ _, _ | .asleep _ _, _ | .waitAgain _ _, _
  | .wakeLock _, _ => False

/-- A step that changes no waiter and no process. -/
inductive Quiet : Pc → Pc → Prop
  | none : Quiet .idle .idle
  | wait (a) : Quiet .idle (.waitLock a)
  | wake (k) : Quiet .idle (.wakeLock k)
  | waitLock (a) : Quiet (.waitLock a) (.waitAdd a)
  | waitAdd (a) : Quiet (.waitAdd a) (.waitFull a)
  | waitFull (a) : Quiet (.waitFull a) .idle
  | waitAdded (a i) : Quiet (.waitAdded a i) (.waitOwn a i)
  | waitOwn (a i) : Quiet (.waitOwn a i) (.waitState a i)
  | waitSched (a i) : Quiet (.waitSched a i) (.asleep a i)
  | asleep (a i) : Quiet (.asleep a i) (.recheck a i)
  | stillAsleep (a i) : Quiet (.stillAsleep a i) (.asleep a i)
  | waitUnlock (a i) : Quiet (.waitUnlock a i) (.waitAgain a i)
  | waitAgain (a i) : Quiet (.waitAgain a i) (.waitRemove a i)
  | waitDone (a) : Quiet (.waitDone a) .idle
  | wakeLock (k) : Quiet (.wakeLock k) (.wakeLoop k 0 0)
  | wakeLoop (k n n' woken) : Quiet (.wakeLoop k n woken) (.wakeLoop k n' woken)
  | wakeEnd (k n woken) : Quiet (.wakeLoop k n woken) (.wakeDone k woken)
  | wakeOther (k i q woken) : Quiet (.wakeOther k i q woken) (.wakeSet k i q woken)
  | wakeUnlock (k i q woken) : Quiet (.wakeUnlock k i q woken) (.wakeLoop k (i.val + 1) (woken + 1))
  | wakeDone (k woken) : Quiet (.wakeDone k woken) .idle

/-- What a step of `p` does to the waiters, to the processes and to the place of `p`. -/
inductive Effect (p : ProcId) (m : FutexSys) : Pc → FutexSys → Pc → Prop
  | quiet (pc pc') (h : Quiet pc pc') : Effect p m pc m pc'
  | add (a i) (h : (m.waiters (futex_hash a) i).used = false) :
      Effect p m (.waitAdd a) (m.setWaiter (futex_hash a) i ⟨true, p, a, 0xFFFFFFFF, false⟩)
        (.waitAdded a i)
  | sleep (a i) : Effect p m (.waitState a i) (m.setState p .SLEEPING) (.waitChan a i)
  | chan (a i) : Effect p m (.waitChan a i) (m.setChan p a) (.waitSched a i)
  | dispatch (a i) (h : (m.proc p).state = .RUNNABLE) :
      Effect p m (.recheck a i) (m.setState p .RUNNING) (.awake a i)
  | still (a i) (h : (m.proc p).state ≠ .RUNNABLE) :
      Effect p m (.recheck a i) m (.stillAsleep a i)
  | clear (a i) : Effect p m (.awake a i) (m.setChan p 0) (.waitUnlock a i)
  | remove (a i) :
      Effect p m (.waitRemove a i)
        (m.setWaiter (futex_hash a) i { m.waiters (futex_hash a) i with used := false })
        (.waitDone a)
  | mark (k i woken) (h : (m.waiters (futex_hash k.uaddr) i).On k.uaddr) :
      Effect p m (.wakeLoop k i.val woken)
        (m.setWaiter (futex_hash k.uaddr) i
          { m.waiters (futex_hash k.uaddr) i with woken := true })
        (.wakeOther k i (m.waiters (futex_hash k.uaddr) i).proc woken)
  | rouse (k i q woken) (h : k.rouses (m.proc q)) :
      Effect p m (.wakeSet k i q woken) (m.setState q .RUNNABLE) (.wakeUnlock k i q woken)
  | pass (k i q woken) (h : ¬ k.rouses (m.proc q)) :
      Effect p m (.wakeSet k i q woken) m (.wakeUnlock k i q woken)

section Steps

variable {p : ProcId} {pc pc' : Pc} {l : FLock} {c : Call} {m m' : FutexSys}
  {f : Call → FutexSys → Option (FutexSys × Pc)}

theorem quiet_of_lock (h : futexCode p pc = .acquire l pc' ∨ futexCode p pc = .release l pc') :
    Quiet pc pc' := by
  rcases h with hc | hc <;> cases pc <;> cases hc <;> constructor

theorem effect_of_act (hc : futexCode p pc = .act f) (hf : f c m = some (m', pc')) :
    Effect p m pc m' pc' := by
  cases pc <;> cases hc
  case idle =>
    cases c with
    | wait a =>
      cases hf
      exact .quiet _ _ (.wait a)
    | wake a nr_wake =>
      cases hf
      exact .quiet _ _ (.wake _)
    | wakeBitset a nr_wake bitset =>
      dsimp only at hf
      split at hf <;> cases hf
      · exact .quiet _ _ .none
      · exact .quiet _ _ (.wake _)
  case waitAdd a =>
    dsimp only at hf
    split at hf <;> cases hf
    · exact .quiet _ _ (.waitAdd a)
    · rename_i i hi
      exact .add a i (by simpa using List.find?_some hi)
  case waitState a i =>
    cases hf
    exact .sleep a i
  case waitChan a i =>
    cases hf
    exact .chan a i
  case recheck a i =>
    dsimp only at hf
    split at hf <;> cases hf
    · exact .dispatch a i ‹_›
    · exact .still a i ‹_›
  case awake a i =>
    cases hf
    exact .clear a i
  case waitRemove a i =>
    cases hf
    exact .remove a i
  case wakeLoop k n woken =>
    dsimp only at hf
    split at hf
    · rename_i hn
      split at hf
      · cases hf
        exact .quiet _ _ (.wakeEnd k n woken)
      split at hf
      · rename_i hw
        cases hf
        exact .mark k ⟨n, hn⟩ woken hw.1
      · cases hf
        exact .quiet _ _ (.wakeLoop k n _ woken)
    · cases hf
      exact .quiet _ _ (.wakeEnd k n woken)
  case wakeSet k i q woken =>
    cases hf
    by_cases h : k.rouses (m.proc q)
    · rw [if_pos h]
      exact .rouse k i q woken h
    · rw [if_neg h]
      exact .pass k i q woken h

end Steps

theorem futex_steps {s t : FState} {p : ProcId} {c : Call}
    (h : LockState.Steps futexCode s (p, c) t) :
    Effect p s.mem (s.pc p) t.mem (t.pc p) ∧ ∀ q, q ≠ p → t.pc q = s.pc q := by
  refine ⟨?_, fun q hq => h.pc_of_ne hq⟩
  obtain ⟨l, pc', hc, _, rfl⟩ | ⟨l, pc', hc, _, rfl⟩ | ⟨l, yes, no, hc, _⟩ |
    ⟨f, m, pc', hc, hf, rfl⟩ := h.cases
  · simpa using Effect.quiet _ _ (quiet_of_lock (.inl hc))
  · simpa using Effect.quiet _ _ (quiet_of_lock (.inr hc))
  · generalize s.pc p = pc at hc
    cases pc <;> cases hc
  · simpa using effect_of_act hc hf

theorem futex_annotation : Annotation futexCode (fun _ _ => True) Pc.Holds where
  acquire p pc l pc' _ _ hc := by
    refine ⟨trivial, fun k => ?_⟩
    cases pc <;> cases hc <;> simp [Pc.Holds]
  release p pc l pc' _ hc := by
    refine ⟨trivial, fun k => ?_⟩
    cases pc <;> cases hc <;> simp [Pc.Holds]
    -- only the wake that leaves a process keeps another lock
    constructor
    · rintro rfl
      simp
    · rintro ⟨hne, h⟩
      exact h.resolve_left hne
  holding p pc l yes no _ hc := by cases pc <;> cases hc
  act p pc f i m m' pc' _ hc hf := by
    refine ⟨trivial, fun k => ?_⟩
    cases effect_of_act hc hf
    case quiet h =>
      cases h <;> first | exact Iff.rfl | cases hc
    all_goals exact Iff.rfl

/-! ### Waiters and their processes -/

/-- The place that a process in `futex_wait` has among the waiters. -/
def Pc.slot : Pc → Option (Addr × Slot)
  | .waitAdded a i | .waitOwn a i | .waitState a i | .waitChan a i | .waitSched a i | .asleep a i
  | .recheck a i | .stillAsleep a i | .awake a i | .waitUnlock a i | .waitAgain a i
  | .waitRemove a i => some (a, i)
  | _ => none

/-- The waiter that a wake has marked and whose process it has not yet looked at. -/
def Pc.target : Pc → Option (Wake × Slot × ProcId)
  | .wakeOther k i q _ | .wakeSet k i q _ => some (k, i, q)
  | _ => none

def Pc.inWake : Pc → Bool
  | .wakeLoop _ _ _ | .wakeOther _ _ _ _ | .wakeSet _ _ _ _ | .wakeUnlock _ _ _ _
  | .wakeDone _ _ => true
  | _ => false

/-- What is known of a process from its place. -/
def Pc.Sleeps : Pc → FProc → Prop
  | .waitChan _ _, x => x.state = .SLEEPING
  | .waitSched a _, x | .stillAsleep a _, x => x.On a
  | .asleep a _, x | .recheck a _, x => (x.state = .SLEEPING ∨ x.state = .RUNNABLE) ∧ x.chan = a
  | _, x => x.state ≠ .SLEEPING

/-- A process in `futex_wait` that will not sleep again. -/
def Pc.Roused : Pc → FProc → Prop
  | .asleep _ _, x | .recheck _ _, x => x.state = .RUNNABLE
  | .awake _ _, _ | .waitUnlock _ _, _ | .waitAgain _ _, _ | .waitRemove _ _, _ => True
  | _, _ => False

/-- The process that a wake is about to look at. -/
def Pc.victim : Pc → Option (Wake × ProcId)
  | .wakeOther k _ q _ => some (k, q)
  | _ => none

/-- A wake looks only at processes that are already asleep. -/
def Late (s : FState) (a : ProcId × Call) : Prop :=
  ∀ v ∈ (s.pc a.1).victim, (s.mem.proc v.2).On v.1.uaddr
  deriving Decidable

structure FutexInv (s : FState) : Prop where
  owned : Owned (fun _ _ => True) Pc.Holds s
  used : ∀ b i, (s.mem.waiters b i).used = true →
    ∃ a, (s.pc (s.mem.waiters b i).proc).slot = some (a, i) ∧ futex_hash a = b
  sleeps : ∀ p, (s.pc p).Sleeps (s.mem.proc p)
  target : ∀ r k i q, (s.pc r).target = some (k, i, q) →
    (s.mem.waiters (futex_hash k.uaddr) i).used = true ∧
      (s.mem.waiters (futex_hash k.uaddr) i).proc = q
  ready : ∀ r k i q woken, s.pc r = .wakeSet k i q woken → (s.mem.proc q).On k.uaddr
  roused : ∀ b i, (s.mem.waiters b i).used = true → (s.mem.waiters b i).woken = true →
    (s.pc (s.mem.waiters b i).proc).Roused (s.mem.proc (s.mem.waiters b i).proc) ∨
      ∃ r k, (s.pc r).target = some (k, i, (s.mem.waiters b i).proc) ∧ futex_hash k.uaddr = b

section Frames

variable {m m' : FutexSys} {pc pc' : Pc} {p q : ProcId} {st : ProcState} {a : Addr} {i j : Slot}
  {b b' : Bucket} {w : Waiter}

@[simp] theorem setState_self : (m.setState p st).proc p = { m.proc p with state := st } := by
  simp [FutexSys.setState]

@[simp] theorem setState_of_ne (h : q ≠ p) : (m.setState p st).proc q = m.proc q := by
  simp [FutexSys.setState, h]

@[simp] theorem setChan_self : (m.setChan p a).proc p = { m.proc p with chan := a } := by
  simp [FutexSys.setChan]

@[simp] theorem setChan_of_ne (h : q ≠ p) : (m.setChan p a).proc q = m.proc q := by
  simp [FutexSys.setChan, h]

theorem setWaiter_waiters (b b' : Bucket) (i j : Slot) (w : Waiter) :
    (m.setWaiter b i w).waiters b' j = if b' = b ∧ j = i then w else m.waiters b' j := by
  split
  · rename_i h
    rw [h.1, h.2, setWaiter_self]
  · rename_i h
    exact setWaiter_of_ne (not_and_or.mp h)

theorem Quiet.slot (h : Quiet pc pc') : pc'.slot = pc.slot := by
  cases h <;> rfl

variable {x : FProc}

theorem Quiet.sleeps (h : Quiet pc pc') (hx : pc.Sleeps x) : pc'.Sleeps x := by
  cases h
  case waitSched => exact ⟨.inl hx.1, hx.2⟩
  case stillAsleep => exact ⟨.inl hx.1, hx.2⟩
  all_goals exact hx

/-- A waiter is only changed under the lock of its bucket. -/
theorem Effect.waiters (h : Effect p m pc m' pc') (hb : m'.waiters b i ≠ m.waiters b i) :
    pc.Holds p (.bucket b) := by
  cases h
  case add | remove | mark =>
    rw [setWaiter_waiters] at hb
    split at hb
    · rename_i h
      exact congrArg _ h.1
    · exact absurd rfl hb
  all_goals exact absurd rfl hb

/-- The state and the channel of a process are only changed under its lock. -/
theorem Effect.proc (h : Effect p m pc m' pc') (hq : m'.proc q ≠ m.proc q) :
    pc.Holds p (.proc q) := by
  cases h
  case sleep | chan | dispatch | clear =>
    by_cases he : q = p
    · exact congrArg _ he
    · exact absurd (by simp [he]) hq
  case rouse k j x woken _ =>
    by_cases he : q = x
    · exact .inl (congrArg _ he)
    · exact absurd (by simp [he]) hq
  all_goals exact absurd rfl hq

/-- Another process is left alone or made `RUNNABLE`. -/
theorem Effect.proc_of_ne (h : Effect p m pc m' pc') (hq : q ≠ p) :
    m'.proc q = m.proc q ∨ pc.Holds p (.proc q) ∧ (m.proc q).state = .SLEEPING ∧
      m'.proc q = { m.proc q with state := .RUNNABLE } := by
  cases h
  case sleep | chan | dispatch | clear => exact .inl (by simp [hq])
  case rouse k j x woken hx =>
    by_cases he : q = x
    · subst he
      exact .inr ⟨.inl rfl, hx.1, by simp⟩
    · exact .inl (by simp [he])
  all_goals exact .inl rfl

/-- A process that sleeps and whose lock is free has switched away. -/
theorem Pc.Sleeps.asleep (h : pc.Sleeps x) (hx : x.state = .SLEEPING)
    (hno : ¬ pc.Holds q (.proc q)) : ∃ a i, pc = .asleep a i := by
  cases pc
  case asleep a i => exact ⟨a, i, rfl⟩
  case waitChan | waitSched | recheck | stillAsleep => exact absurd rfl hno
  all_goals exact absurd hx h

theorem Effect.sleeps (h : Effect p m pc m' pc') (hx : pc.Sleeps (m.proc p)) :
    pc'.Sleeps (m'.proc p) := by
  cases h
  case quiet h => exact h.sleeps hx
  case sleep => simp [Pc.Sleeps]
  case chan => exact ⟨by simpa [Pc.Sleeps] using hx, by simp⟩
  case dispatch => simp [Pc.Sleeps]
  case still hne => exact ⟨hx.1.resolve_right hne, hx.2⟩
  case clear => simpa [Pc.Sleeps] using hx
  case rouse k i q woken _ =>
    by_cases he : p = q
    · subst he
      simp [Pc.Sleeps]
    · simpa [Pc.Sleeps, he] using hx
  all_goals exact hx

theorem Effect.roused (h : Effect p m pc m' pc') (hx : pc.Roused (m.proc p)) :
    pc'.Roused (m'.proc p) ∨ ∃ a i, pc = .waitRemove a i := by
  cases h
  case quiet h =>
    cases h <;> first | exact .inl hx | exact hx.elim
  case dispatch => exact .inl trivial
  case still hne => exact absurd hx hne
  case clear => exact .inl trivial
  case remove a i => exact .inr ⟨a, i, rfl⟩
  all_goals exact hx.elim

end Frames

section Step

variable {s t : FState} {p : ProcId} {c : Call}

variable {r : ProcId} {k : Wake} {woken : Int}

theorem FutexInv.unique (h : FutexInv s) {l : FLock} (hr : (s.pc r).Holds r l)
    (hp : (s.pc p).Holds p l) : r = p := by
  have hr' := (h.owned.locks l r).mpr hr
  rw [(h.owned.locks l p).mpr hp] at hr'
  exact (Option.some.inj hr').symm

theorem target_holds {pc : Pc} {i : Slot} {q : ProcId} (h : pc.target = some (k, i, q))
    (r : ProcId) : pc.Holds r (.bucket (futex_hash k.uaddr)) := by
  cases pc <;> cases h
  · rfl
  · exact .inr rfl

section
variable (h : FutexInv s) (hs : LockState.Steps futexCode s (p, c) t)
include h hs

theorem FutexInv.used_step (b : Bucket) (i : Slot) (hu : (t.mem.waiters b i).used = true) :
    ∃ a, (t.pc (t.mem.waiters b i).proc).slot = some (a, i) ∧ futex_hash a = b := by
  obtain ⟨heff, hne⟩ := futex_steps hs
  generalize hpc : s.pc p = pc at heff
  generalize hpc' : t.pc p = pc' at heff
  generalize hm : t.mem = m at heff hu ⊢
  -- a step that keeps the place of p keeps all places
  have hsame : pc'.slot = pc.slot → ∀ q, (t.pc q).slot = (s.pc q).slot := by
    intro he q
    by_cases hq : q = p
    · rw [hq, hpc, hpc', he]
    · rw [hne q hq]
  cases heff
  case quiet hq =>
    rw [hsame hq.slot]
    exact h.used b i hu
  case add a j hfree =>
    rw [setWaiter_waiters] at hu ⊢
    split
    · rename_i he
      exact ⟨a, by rw [hpc', he.2]; rfl, he.1.symm⟩
    rename_i he
    rw [if_neg he] at hu
    obtain ⟨a', hslot, hb⟩ := h.used b i hu
    refine ⟨a', ?_, hb⟩
    rwa [hne]
    intro hp
    rw [hp, hpc] at hslot
    cases hslot
  case remove a j =>
    rw [setWaiter_waiters] at hu ⊢
    split at hu
    · cases hu
    rename_i he
    rw [if_neg he]
    obtain ⟨a', hslot, hb⟩ := h.used b i hu
    refine ⟨a', ?_, hb⟩
    rwa [hne]
    intro hp
    rw [hp, hpc] at hslot
    cases hslot
    exact he ⟨hb.symm, rfl⟩
  case mark k j woken _ =>
    have hw : (s.mem.waiters b i).used = true ∧
        ((s.mem.setWaiter (futex_hash k.uaddr) j
          { s.mem.waiters (futex_hash k.uaddr) j with woken := true }).waiters b i).proc =
          (s.mem.waiters b i).proc := by
      rw [setWaiter_waiters] at hu ⊢
      split at hu
      · rename_i he
        rw [if_pos he, he.1, he.2]
        exact ⟨hu, rfl⟩
      · rename_i he
        rw [if_neg he]
        exact ⟨hu, rfl⟩
    rw [hw.2, hsame rfl]
    exact h.used b i hw.1
  all_goals
    rw [hsame rfl]
    exact h.used b i hu

theorem FutexInv.sleeps_step (q : ProcId) : (t.pc q).Sleeps (t.mem.proc q) := by
  obtain ⟨heff, hne⟩ := futex_steps hs
  by_cases hq : q = p
  · subst hq
    exact heff.sleeps (h.sleeps q)
  rw [hne q hq]
  rcases heff.proc_of_ne hq with he | ⟨hheld, hst, he⟩
  · rw [he]
    exact h.sleeps q
  · obtain ⟨a, i, hpc⟩ := (h.sleeps q).asleep hst fun hh => hq (h.unique hh hheld)
    have hx := h.sleeps q
    rw [hpc] at hx
    rw [hpc, he]
    exact ⟨.inr rfl, hx.2⟩

theorem FutexInv.target_step {i : Slot} {q : ProcId} (ht : (t.pc r).target = some (k, i, q)) :
    (t.mem.waiters (futex_hash k.uaddr) i).used = true ∧
      (t.mem.waiters (futex_hash k.uaddr) i).proc = q := by
  obtain ⟨heff, hne⟩ := futex_steps hs
  by_cases hr : r = p
  · subst hr
    have hold := h.target r k i q
    generalize s.pc r = pc at heff hold
    generalize t.pc r = pc' at heff ht
    generalize t.mem = m at heff ⊢
    cases heff
    case quiet hq =>
      cases hq <;> cases ht
      exact hold rfl
    case mark k j woken hw =>
      cases ht
      rw [setWaiter_self]
      exact ⟨hw.1, rfl⟩
    all_goals cases ht
  · rw [hne r hr] at ht
    have hheld := target_holds ht r
    rw [show t.mem.waiters (futex_hash k.uaddr) i = s.mem.waiters (futex_hash k.uaddr) i from
      not_not.mp fun hw => hr (h.unique hheld (heff.waiters hw))]
    exact h.target r k i q ht

theorem FutexInv.ready_step (hlate : Late s (p, c)) {i : Slot} {q : ProcId}
    (ht : t.pc r = .wakeSet k i q woken) : (t.mem.proc q).On k.uaddr := by
  obtain ⟨heff, hne⟩ := futex_steps hs
  by_cases hr : r = p
  · subst hr
    rw [ht] at heff
    generalize hpc : s.pc r = pc at heff
    generalize hm : t.mem = m at heff ⊢
    cases heff
    rename_i hq
    cases hq
    exact hlate (k, q) (by rw [hpc]; rfl)
  · rw [hne r hr] at ht
    have hheld : (s.pc r).Holds r (.proc q) := by
      rw [ht]
      exact .inl rfl
    rw [show t.mem.proc q = s.mem.proc q from
      not_not.mp fun hw => hr (h.unique hheld (heff.proc hw))]
    exact h.ready r k i q woken ht

end

/-- A process about to be made `RUNNABLE` has switched away. -/
theorem FutexInv.ready_asleep (h : FutexInv s) {i : Slot} {q : ProcId}
    (hr : s.pc r = .wakeSet k i q woken) : q ≠ r ∧ ∃ a j, s.pc q = .asleep a j := by
  have hon := h.ready r k i q woken hr
  have hqr : q ≠ r := by
    rintro rfl
    have hsl := h.sleeps q
    rw [hr] at hsl
    exact hsl hon.1
  refine ⟨hqr, (h.sleeps q).asleep hon.1 fun hh => hqr (h.unique hh ?_)⟩
  rw [hr]
  exact .inl rfl

section
variable (h : FutexInv s) (hs : LockState.Steps futexCode s (p, c) t)
include h hs

/-- The process of a waiter that was woken stays awake until it leaves. -/
theorem FutexInv.keep_roused
    {b : Bucket} {i : Slot} {q : ProcId}
    (hq : (s.pc q).Roused (s.mem.proc q) ∨
      ∃ r k, (s.pc r).target = some (k, i, q) ∧ futex_hash k.uaddr = b)
    (hstay : q = p → ∀ a j, s.pc p ≠ .waitRemove a j) :
    (t.pc q).Roused (t.mem.proc q) ∨
      ∃ r k, (t.pc r).target = some (k, i, q) ∧ futex_hash k.uaddr = b := by
  obtain ⟨heff, hne⟩ := futex_steps hs
  rcases hq with hq | ⟨r, k, ht, hb⟩
  · left
    by_cases hqp : q = p
    · subst hqp
      rcases heff.roused hq with hr | ⟨a, j, hpc⟩
      · exact hr
      · exact absurd hpc (hstay rfl a j)
    rw [hne q hqp]
    rcases heff.proc_of_ne hqp with he | ⟨_, _, he⟩
    · rwa [he]
    · rw [he]
      generalize s.pc q = pc at hq
      cases pc
      case asleep | recheck => rfl
      all_goals exact hq
  · by_cases hr : r = p
    · subst hr
      generalize hpc : s.pc r = pc at heff ht
      generalize hpc' : t.pc r = pc' at heff
      generalize hm : t.mem = m at heff ⊢
      cases heff
      case quiet hqu =>
        cases hqu <;> cases ht
        exact .inr ⟨r, k, by rw [hpc']; rfl, hb⟩
      case rouse woken hro =>
        cases ht
        obtain ⟨hqr, a, j, hpq⟩ := h.ready_asleep hpc
        left
        rw [hne q hqr, hpq, setState_self]
        rfl
      case pass woken hno =>
        cases ht
        have hon := h.ready r k i q woken hpc
        exact absurd ⟨hon.1, fun _ => hon.2⟩ hno
      all_goals cases ht
    · exact .inr ⟨r, k, by rw [hne r hr, ht], hb⟩

theorem FutexInv.roused_step (b : Bucket) (i : Slot) (hu : (t.mem.waiters b i).used = true)
    (hw : (t.mem.waiters b i).woken = true) :
    (t.pc (t.mem.waiters b i).proc).Roused (t.mem.proc (t.mem.waiters b i).proc) ∨
      ∃ r k, (t.pc r).target = some (k, i, (t.mem.waiters b i).proc) ∧ futex_hash k.uaddr = b := by
  have hkeep : t.mem.waiters b i = s.mem.waiters b i →
      ((s.mem.waiters b i).proc = p → ∀ a j, s.pc p ≠ .waitRemove a j) →
      (t.pc (t.mem.waiters b i).proc).Roused (t.mem.proc (t.mem.waiters b i).proc) ∨
      ∃ r k, (t.pc r).target = some (k, i, (t.mem.waiters b i).proc) ∧ futex_hash k.uaddr = b := by
    intro he hstay
    rw [he] at hu hw ⊢
    exact h.keep_roused hs (h.roused b i hu hw) hstay
  obtain ⟨heff, hne⟩ := futex_steps hs
  generalize hpc : s.pc p = pc at heff hkeep
  generalize hpc' : t.pc p = pc' at heff
  generalize hm : t.mem = m at heff hu hw hkeep ⊢
  cases heff
  case quiet hq => exact hkeep rfl fun _ a j he => by subst he; cases hq
  case add a j hfree =>
    by_cases he : b = futex_hash a ∧ i = j
    · rw [he.1, he.2, setWaiter_self] at hw
      cases hw
    · exact hkeep (setWaiter_of_ne (not_and_or.mp he)) nofun
  case remove a j =>
    by_cases he : b = futex_hash a ∧ i = j
    · rw [he.1, he.2, setWaiter_self] at hu
      cases hu
    have hold := setWaiter_of_ne (s := s.mem)
      (w := { s.mem.waiters (futex_hash a) j with used := false }) (not_and_or.mp he)
    refine hkeep hold fun hp => ?_
    rw [hold] at hu
    obtain ⟨a', hslot, hb⟩ := h.used b i hu
    rw [hp, hpc] at hslot
    cases hslot
    exact absurd ⟨hb.symm, rfl⟩ he
  case mark k j woken hon =>
    by_cases he : b = futex_hash k.uaddr ∧ i = j
    · obtain ⟨rfl, rfl⟩ := he
      rw [setWaiter_self]
      exact .inr ⟨p, k, by rw [hpc']; rfl, rfl⟩
    · exact hkeep (setWaiter_of_ne (not_and_or.mp he)) nofun
  all_goals exact hkeep rfl nofun

theorem FutexInv.next (hlate : Late s (p, c)) : FutexInv t where
  owned := h.owned.next futex_annotation hs
  used := h.used_step hs
  sleeps := h.sleeps_step hs
  target _ _ _ _ ht := h.target_step hs ht
  ready _ _ _ _ _ ht := h.ready_step hs hlate ht
  roused := h.roused_step hs

end

theorem futexInv_init : FutexInv FState.init where
  owned := ⟨fun _ => trivial, fun l p => ⟨nofun, fun h => h.elim⟩⟩
  used _ _ hu := by cases hu
  sleeps _ := by simp [FState.init, Pc.Sleeps]
  target _ _ _ _ ht := by cases ht
  ready _ _ _ _ _ ht := by cases ht
  roused _ _ hu := by cases hu

end Step

/-! ### No wakeup is lost -/

/-- A waiter that a wake has counted, asleep on its address, and nobody at work to wake it. -/
def Lost (s : FState) (b : Bucket) (i : Slot) : Prop :=
  (s.mem.waiters b i).used = true ∧ (s.mem.waiters b i).woken = true ∧
    (s.mem.proc (s.mem.waiters b i).proc).On (s.mem.waiters b i).uaddr ∧
    ∀ r, (s.pc r).inWake = false
  deriving Decidable

theorem FutexInv.not_lost {s : FState} (h : FutexInv s) (b : Bucket) (i : Slot) : ¬ Lost s b i := by
  rintro ⟨hu, hw, hon, hno⟩
  rcases h.roused b i hu hw with hr | ⟨r, k, ht, -⟩
  · have hsl := h.sleeps (s.mem.waiters b i).proc
    have hst := hon.1
    generalize s.pc (s.mem.waiters b i).proc = pc at hr hsl
    cases pc
    case asleep | recheck => exact absurd (hst.symm.trans hr) (by decide)
    case awake | waitUnlock | waitAgain | waitRemove => exact hsl hst
    all_goals exact hr
  · have hr := hno r
    generalize s.pc r = pc at ht hr
    cases pc <;> cases ht <;> cases hr

/-- No wakeup is lost in a run where every wake finds the processes it has marked asleep. -/
theorem no_wakeup_lost {s : FState} {as : List (ProcId × Call)}
    (h : Run (Guarded Late (LockState.Steps futexCode)) FState.init as s) (b : Bucket) (i : Slot) :
    ¬ Lost s b i := by
  have hstep : ∀ s a t, Guarded Late (LockState.Steps futexCode) s a t → FutexInv s → FutexInv t :=
    fun _ _ _ hs hi => hi.next hs.2 hs.1
  exact (h.invariant hstep futexInv_init).not_lost b i

/-- `n` steps of process `p`. -/
def stepsOf (p : ProcId) (c : Call) (n : Nat) : List (ProcId × Call) := List.replicate n (p, c)

theorem no_wakeup_lost_one :
    ∃ s, Run (Guarded Late (LockState.Steps futexCode)) FState.init
        (stepsOf 1 (.wait 8) 8 ++ stepsOf 2 (.wake 8 1) 8) s ∧
      (s.mem.waiters 2 0).used = true ∧ (s.mem.waiters 2 0).woken = true ∧ ¬ Lost s 2 0 := by
  refine (Run.exists_foldlM (P := fun s => (s.mem.waiters 2 0).used = true ∧
    (s.mem.waiters 2 0).woken = true) ?_).imp fun s ⟨hrun, hu, hw⟩ => ⟨hrun, hu, hw, ?_⟩
  · decide +kernel
  · exact no_wakeup_lost hrun 2 0

/-- The wake comes after the waiter is entered and before its process sleeps. -/
theorem early_wakeup_lost :
    ∃ s, Run (LockState.Steps futexCode) FState.init
        (stepsOf 1 (.wait 8) 4 ++ stepsOf 2 (.wake 8 1) 8 ++ stepsOf 1 (.wait 8) 4) s ∧
      Lost s 2 0 := by
  exact Run.exists_exec

end Yyds.Futex
