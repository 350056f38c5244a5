import Yyds.Kernel.Sys
import Yyds.Lib.RefCount

/-! The counting semaphores of `sysproc.c`: `sem_p`, `sem_v` and the signals that wake a process
inside `sem_p`. Each critical section is one step. -/
namespace Yyds.Sync

open Lib Kernel Mm Function

/-- number of semaphores -/
def SEM_MAX_NUM : Nat := 128

instance : NeZero SEM_MAX_NUM := ⟨by decide⟩

abbrev SemId := Fin SEM_MAX_NUM

/-- What a process can sleep on: the address of a semaphore or of a process. -/
inductive Chan
  | sem (id : SemId)
  | proc (q : ProcId)
  deriving DecidableEq

def SIGKILL : Int := 9
def SIGTERM : Int := 15

/-- A process; `inP` is the semaphore whose `sem_p` it is in, after the critical section. -/
structure SemProc where
  state : ProcState
  chan : Option Chan
  killed : Bool
  pending_signals : BitVec 32
  paused : Bool
  inP : Option SemId

/-- The semaphores and the processes. `passed` counts the calls of `sem_p` that have returned 0,
and `freed` the calls of `sem_v`, since the semaphore was created. -/
structure SemSys where
  allocated : SemId → Bool
  resource_count : SemId → Int
  proc : ProcId → SemProc
  passed : SemId → Nat
  freed : SemId → Nat

namespace SemSys

def setProc (s : SemSys) (q : ProcId) (f : SemProc → SemProc) : SemSys :=
  { s with proc := update s.proc q (f (s.proc q)) }

/-- `sys_sem_create`; `none` where it returns -1 -/
def sem_create (s : SemSys) (n_sem : BitVec 32) : Option (SemId × SemSys) :=
  if n_sem.toInt ≤ 0 then none
  else
    match (List.finRange SEM_MAX_NUM).find? fun id => s.allocated id = false with
    | none => none
    | some id => some (id, { s with
        allocated := update s.allocated id true
        resource_count := update s.resource_count id n_sem.toInt
        passed := update s.passed id 0
        freed := update s.freed id 0 })

/-- `wakeup` on the channel `c` -/
def wakeup (s : SemSys) (c : Chan) : SemSys :=
  { s with proc := fun q =>
      if (s.proc q).state = .SLEEPING ∧ (s.proc q).chan = some c then
        { s.proc q with state := .RUNNABLE }
      else s.proc q }

/-- The check of the argument in `sys_sem_p` and `sys_sem_v` -/
def semArg (id : BitVec 32) : Option SemId :=
  if h : 0 ≤ id.toInt ∧ id.toInt < SEM_MAX_NUM then some ⟨id.toInt.toNat, by omega⟩ else none

/-- `sys_sem_p` up to its return: without a resource the process goes to sleep. -/
def sem_p (s : SemSys) (q : ProcId) (id : SemId) : SemSys :=
  let n := int (s.resource_count id - 1)
  { s with resource_count := update s.resource_count id n }.setProc q fun pr =>
    if n < 0 then { pr with inP := some id, chan := some (.sem id), state := .SLEEPING }
    else { pr with inP := some id }

/-- `sys_sem_p` returns 0. -/
def sem_p_return (s : SemSys) (q : ProcId) (id : SemId) : SemSys :=
  { s with passed := update s.passed id (s.passed id + 1) }.setProc q fun pr =>
    { pr with inP := none, chan := none }

def sem_v (s : SemSys) (id : SemId) : SemSys :=
  let n := int (s.resource_count id + 1)
  let t := { s with
    resource_count := update s.resource_count id n
    freed := update s.freed id (s.freed id + 1) }
  if n ≤ 0 then t.wakeup (.sem id) else t

/-- `kill` once it has found the process `q` -/
def kill (s : SemSys) (q : ProcId) : SemSys :=
  s.setProc q fun pr =>
    { pr with killed := true, state := if pr.state = .SLEEPING then .RUNNABLE else pr.state }

/-- `sys_sigkill` once it has found the process `q` -/
def sigkill (s : SemSys) (q : ProcId) (signum : BitVec 32) : SemSys :=
  if signum.toInt < 1 ∨ signum.toInt ≥ 32 then s
  else
    let pr := s.proc q
    let wake := pr.paused || decide (pr.state = .SLEEPING)
    let t := s.setProc q fun pr =>
      { pr with
        pending_signals := pr.pending_signals ||| 1#32 <<< signum.toNat
        killed := pr.killed || decide (signum.toInt = SIGKILL ∨ signum.toInt = SIGTERM)
        state := if wake then .RUNNABLE else pr.state }
    if wake then t.wakeup (.proc q) else t

end SemSys

/-- What happens next: the scheduler dispatches a process or takes the CPU from it, a process
calls `sem_p` or `sem_v`, comes back from `sem_p`, or gets a signal. -/
inductive SemAct
  | run (q : ProcId)
  | yield (q : ProcId)
  | sem_p (q : ProcId) (id : BitVec 32)
  | back (q : ProcId)
  | sem_v (q : ProcId) (id : BitVec 32)
  | kill (q : ProcId)
  | sigkill (q : ProcId) (signum : BitVec 32)

open SemSys in
/-- The state after the step, if it is possible. -/
def SemSys.next (s : SemSys) : SemAct → Option SemSys
  | .run q =>
    if (s.proc q).state = .RUNNABLE then some (s.setProc q fun pr => { pr with state := .RUNNING })
    else none
  | .yield q =>
    if (s.proc q).state = .RUNNING then some (s.setProc q fun pr => { pr with state := .RUNNABLE })
    else none
  | .sem_p q i =>
    if (s.proc q).state = .RUNNING ∧ (s.proc q).inP = none then
      match semArg i with
      | some id => some (s.sem_p q id)
      | none => some s
    else none
  | .back q =>
    if (s.proc q).state = .RUNNING then (s.proc q).inP.map fun id => s.sem_p_return q id else none
  | .sem_v q i =>
    if (s.proc q).state = .RUNNING ∧ (s.proc q).inP = none then
      match semArg i with
      | some id => some (s.sem_v id)
      | none => some s
    else none
  | .kill q => some (s.kill q)
  | .sigkill q signum => some (s.sigkill q signum)

/-- The process sleeps on the semaphore. -/
def SemProc.AsleepOn (pr : SemProc) (id : SemId) : Prop :=
  pr.state = .SLEEPING ∧ pr.chan = some (.sem id)
  deriving Decidable

/-- A `sem_v` that wakes finds at most one process asleep, and no signal goes to a process that
sleeps on the semaphore. -/
def SemOk (id : SemId) (s : SemSys) : SemAct → Prop
  | .sem_v _ i => SemSys.semArg i = some id → int (s.resource_count id + 1) ≤ 0 →
      ∀ q r, (s.proc q).AsleepOn id → (s.proc r).AsleepOn id → q = r
  | .kill q | .sigkill q _ => ¬ (s.proc q).AsleepOn id
  | _ => True

instance (id : SemId) (s : SemSys) (a : SemAct) : Decidable (SemOk id s a) := by
  unfold SemOk
  split <;> infer_instance

/-! ### Who is inside `sem_p` -/

/-- Where a process is: asleep in `sem_p`, or on its way out of it. -/
def SemProc.place (pr : SemProc) (id : SemId) : Option Bool :=
  if pr.AsleepOn id then some true else if pr.inP = some id then some false else none

/-- How many processes sleep on the semaphore. -/
def SemSys.asleep (s : SemSys) (id : SemId) : Nat := refs (fun q => (s.proc q).place id) true

/-- How many processes are on their way out of `sem_p`. -/
def SemSys.leaving (s : SemSys) (id : SemId) : Nat := refs (fun q => (s.proc q).place id) false

/-- The bookkeeping of one semaphore that was created with `n`; `c` is `resource_count` without
overflow. -/
structure SemInv (id : SemId) (n c : Int) (s : SemSys) : Prop where
  count : s.resource_count id = int c
  enough : 0 ≤ c + s.asleep id
  balance : (s.passed id : Int) + s.leaving id + s.asleep id + c = n + s.freed id
  inside : ∀ q, (s.proc q).AsleepOn id → (s.proc q).inP = some id

/-- The same place in `sem_p`. -/
def SemProc.Alike (id : SemId) (pr pr' : SemProc) : Prop :=
  (pr'.AsleepOn id ↔ pr.AsleepOn id) ∧ (pr'.inP = some id ↔ pr.inP = some id)

section
variable {id : SemId} {n c : Int} {s t : SemSys} {q : ProcId} {a : SemAct}

theorem SemProc.Alike.refl (pr : SemProc) : pr.Alike id pr := ⟨Iff.rfl, Iff.rfl⟩

variable {pr pr' : SemProc} {i : SemId}

open SemProc

theorem SemProc.Alike.place (h : pr.Alike id pr') : pr'.place id = pr.place id := by
  simp only [SemProc.place, h.1, h.2]

/-- Neither process sleeps on the semaphore. -/
theorem SemProc.Alike.of_awake (h : ¬ pr.AsleepOn id) (h' : ¬ pr'.AsleepOn id)
    (hin : pr'.inP = pr.inP) : pr.Alike id pr' :=
  ⟨iff_of_false h' h, by rw [hin]⟩

theorem not_asleepOn_of_state (h : pr.state ≠ .SLEEPING) : ¬ pr.AsleepOn id :=
  fun hs => h hs.1

theorem alike_update (ht : t.proc = update s.proc q pr) (h : (s.proc q).Alike id pr) (r : ProcId) :
    (s.proc r).Alike id (t.proc r) := by
  rw [ht]
  by_cases hr : r = q
  · subst hr
    rwa [update_self]
  · rw [update_of_ne hr]
    exact .refl _

open SemSys

theorem alike_wakeup {ch : Chan} (hch : ch ≠ .sem id) (r : ProcId) :
    (s.proc r).Alike id ((s.wakeup ch).proc r) := by
  by_cases h : (s.proc r).state = .SLEEPING ∧ (s.proc r).chan = some ch
  · refine .of_awake ?_ ?_ ?_
    · intro hs
      exact hch (Option.some.inj (h.2.symm.trans hs.2))
    · simp [wakeup, h, SemProc.AsleepOn]
    · simp [wakeup, h]
  · simpa only [wakeup, if_neg h] using SemProc.Alike.refl (s.proc r)

/-- A step that touches neither the semaphore nor the places in its `sem_p`. -/
theorem SemInv.frame (I : SemInv id n c s) (hc : t.resource_count id = s.resource_count id)
    (hp : t.passed id = s.passed id) (hf : t.freed id = s.freed id)
    (h : ∀ r, (s.proc r).Alike id (t.proc r)) : SemInv id n c t := by
  have hplace : (fun r => (t.proc r).place id) = fun r => (s.proc r).place id := by
    funext r
    exact (h r).place
  refine ⟨hc.trans I.count, ?_, ?_, ?_⟩
  · simpa only [asleep, hplace] using I.enough
  · simpa only [asleep, leaving, hplace, hp, hf] using I.balance
  · intro r hr
    exact (h r).2.mpr (I.inside r ((h r).1.mp hr))

theorem refs_place (id : SemId) (ht : t.proc = update s.proc q pr) (b : Bool) :
    refs (fun r => (t.proc r).place id) b + (if (s.proc q).place id = some b then 1 else 0) =
      refs (fun r => (s.proc r).place id) b + (if pr.place id = some b then 1 else 0) := by
  have hplace : (fun r => (t.proc r).place id) =
      update (fun r => (s.proc r).place id) q (pr.place id) := by
    rw [ht]
    funext r
    by_cases hr : r = q
    · subst hr
      simp
    · simp [hr]
  rw [hplace]
  exact refs_update _ q _ b

theorem asleep_le (s : SemSys) (id : SemId) : s.asleep id ≤ NPROC := by
  have h := refs_le (f := fun r => (s.proc r).place id) (a := true) (fun r => r) fun _ _ _ _ h => h
  simpa only [asleep, Fintype.card_fin] using h

/-! ### One step -/

theorem int_neg_of_neg {x : Int} (h : x < 0) (hx : -(2 ^ 31) ≤ x) : int x < 0 := by
  unfold int
  rw [Int.bmod_eq_of_le (by omega) (by omega)]
  exact h

theorem int_sub_one (x : Int) : int (int x - 1) = int (x - 1) := by
  unfold int
  simp

theorem int_add_one (x : Int) : int (int x + 1) = int (x + 1) := by
  unfold int
  simp

theorem SemInv.sem_p (I : SemInv id n c s) (hq : (s.proc q).state = .RUNNING)
    (hin : (s.proc q).inP = none) : SemInv id n (c - 1) (s.sem_p q id) := by
  have hplace : (s.proc q).place id = none := by
    simp [place, SemProc.AsleepOn, hq, hin]
  have hn : int (s.resource_count id - 1) = int (c - 1) := by
    rw [I.count, int_sub_one]
  have hle : (s.asleep id : Int) ≤ 64 := by
    exact_mod_cast asleep_le s id
  have henough := I.enough
  have hbalance := I.balance
  have hpassed : (s.sem_p q id).passed id = s.passed id := rfl
  have hfreed : (s.sem_p q id).freed id = s.freed id := rfl
  have hmove : ∀ b, _ := fun b => refs_place id (show (s.sem_p q id).proc = _ from rfl) b
  have ha := hmove true
  have hl := hmove false
  simp only [hplace, hn, reduceCtorEq, if_false] at ha hl
  change (s.sem_p q id).asleep id + 0 = s.asleep id + _ at ha
  change (s.sem_p q id).leaving id + 0 = s.leaving id + _ at hl
  have hinside : ∀ r, ((s.sem_p q id).proc r).AsleepOn id →
      ((s.sem_p q id).proc r).inP = some id := by
    intro r hr
    by_cases hrq : r = q
    · subst hrq
      simp only [sem_p, setProc, update_self]
      split <;> rfl
    · simp only [SemSys.sem_p, SemSys.setProc, update_of_ne hrq] at hr ⊢
      exact I.inside r hr
  have hcount : (s.sem_p q id).resource_count id = int (c - 1) := by
    simpa [SemSys.sem_p, SemSys.setProc] using hn
  by_cases hneg : int (c - 1) < 0
  · -- the process goes to sleep
    simp [hneg, place, SemProc.AsleepOn] at ha hl
    exact ⟨hcount, by omega, by omega, hinside⟩
  -- the count cannot have wrapped, since no more than `NPROC` processes sleep
  have hc : 0 ≤ c - 1 := by
    by_contra hc
    exact hneg (int_neg_of_neg (by omega) (by omega))
  simp [hneg, place, SemProc.AsleepOn, hq] at ha hl
  exact ⟨hcount, by omega, by omega, hinside⟩

theorem SemInv.sem_p_return (I : SemInv id n c s) (hq : (s.proc q).state = .RUNNING)
    (hin : (s.proc q).inP = some id) : SemInv id n c (s.sem_p_return q id) := by
  have hplace : (s.proc q).place id = some false := by
    simp [place, SemProc.AsleepOn, hq, hin]
  have henough := I.enough
  have hbalance := I.balance
  have hpassed : (s.sem_p_return q id).passed id = s.passed id + 1 := by
    simp [SemSys.sem_p_return, SemSys.setProc]
  have hfreed : (s.sem_p_return q id).freed id = s.freed id := rfl
  have hmove : ∀ b, _ := fun b =>
    refs_place id (show (s.sem_p_return q id).proc = _ from rfl) b
  have ha := hmove true
  have hl := hmove false
  rw [hplace] at ha hl
  change (s.sem_p_return q id).asleep id + _ = s.asleep id + _ at ha
  change (s.sem_p_return q id).leaving id + _ = s.leaving id + _ at hl
  simp [place, SemProc.AsleepOn] at ha hl
  refine ⟨I.count, by omega, by omega, ?_⟩
  intro r hr
  by_cases hrq : r = q
  · subst hrq
    simp [sem_p_return, setProc, SemProc.AsleepOn] at hr
  · simp only [SemSys.sem_p_return, SemSys.setProc, update_of_ne hrq] at hr ⊢
    exact I.inside r hr

/-- Waking everyone turns those asleep into those on their way out. -/
theorem place_wakeup (hinside : ∀ r, (s.proc r).AsleepOn id → (s.proc r).inP = some id)
    (r : ProcId) : ((s.wakeup (.sem id)).proc r).place id = ((s.proc r).place id).map fun _ => false := by
  by_cases h : (s.proc r).AsleepOn id
  · have hw : (s.wakeup (.sem id)).proc r = { s.proc r with state := .RUNNABLE } := if_pos h
    rw [hw, place, place, if_pos h,
      if_neg (not_asleepOn_of_state (by simp)), if_pos (hinside r h)]
    rfl
  · have hw : (s.wakeup (.sem id)).proc r = s.proc r := if_neg h
    rw [hw, place, if_neg h]
    split <;> rfl

theorem SemInv.wakeup (I : SemInv id n c s) (hc : 0 ≤ c) : SemInv id n c (s.wakeup (.sem id)) := by
  have hplace := place_wakeup I.inside
  have ha : (s.wakeup (.sem id)).asleep id = 0 := by
    refine refs_eq_zero.mpr ?_
    intro r
    simp [hplace r]
  have hl : (s.wakeup (.sem id)).leaving id = s.leaving id + s.asleep id := by
    refine refs_merge (by decide) ?_
    intro r
    cases h : (s.proc r).place id with
    | none => simp [hplace r, h]
    | some b => cases b <;> simp [hplace r, h]
  have hbalance := I.balance
  have hpassed : (s.wakeup (.sem id)).passed id = s.passed id := rfl
  have hfreed : (s.wakeup (.sem id)).freed id = s.freed id := rfl
  refine ⟨I.count, by omega, by omega, ?_⟩
  intro r hr
  exact absurd (if_pos hr) (refs_eq_zero.mp ha r)

theorem asleep_le_one
    (h : ∀ q r, (s.proc q).AsleepOn id → (s.proc r).AsleepOn id → q = r) : s.asleep id ≤ 1 := by
  have hasleep : ∀ r, (s.proc r).place id = some true → (s.proc r).AsleepOn id := by
    intro r hr
    by_contra hn
    rw [place, if_neg hn] at hr
    split at hr <;> cases hr
  refine refs_le (fun _ => ()) ?_
  intro q r hq hr _
  exact h q r (hasleep q hq) (hasleep r hr)

theorem SemInv.sem_v (I : SemInv id n c s) (h : int (s.resource_count id + 1) ≤ 0 →
    ∀ q r, (s.proc q).AsleepOn id → (s.proc r).AsleepOn id → q = r) :
    SemInv id n (c + 1) (s.sem_v id) := by
  have hn : int (s.resource_count id + 1) = int (c + 1) := by
    rw [I.count, int_add_one]
  have henough := I.enough
  have hbalance := I.balance
  have I' : SemInv id n (c + 1) { s with
      resource_count := update s.resource_count id (int (s.resource_count id + 1))
      freed := update s.freed id (s.freed id + 1) } := by
    refine ⟨by simpa using hn, ?_, ?_, I.inside⟩
    · change 0 ≤ c + 1 + (s.asleep id : Int)
      omega
    · change (s.passed id : Int) + s.leaving id + s.asleep id + (c + 1) =
        n + (update s.freed id (s.freed id + 1) id : Nat)
      rw [update_self]
      omega
  unfold SemSys.sem_v
  dsimp only
  split
  · rename_i hwake
    have hone := asleep_le_one (h hwake)
    exact I'.wakeup (by omega)
  · exact I'

section
variable (hi : i ≠ id) (I : SemInv id n c s)
include hi I

theorem SemInv.sem_p_other (hq : (s.proc q).state = .RUNNING) (hin : (s.proc q).inP = none) :
    SemInv id n c (s.sem_p q i) := by
  refine I.frame ?_ rfl rfl ?_
  · simp [SemSys.sem_p, SemSys.setProc, hi.symm]
  · refine alike_update (show (s.sem_p q i).proc = _ from rfl) ⟨iff_of_false ?_ ?_, ?_⟩
    · split
      · simp [SemProc.AsleepOn, hi]
      · exact not_asleepOn_of_state (by simp [hq])
    · exact not_asleepOn_of_state (by simp [hq])
    · split <;> simp [hin, hi]

theorem SemInv.sem_p_return_other (hq : (s.proc q).state = .RUNNING)
    (hin : (s.proc q).inP = some i) : SemInv id n c (s.sem_p_return q i) := by
  refine I.frame rfl ?_ rfl ?_
  · simp [SemSys.sem_p_return, SemSys.setProc, hi.symm]
  · refine alike_update (show (s.sem_p_return q i).proc = _ from rfl) ⟨iff_of_false ?_ ?_, ?_⟩
    · exact not_asleepOn_of_state (by simp [hq])
    · exact not_asleepOn_of_state (by simp [hq])
    · simp [hin, hi]

theorem SemInv.sem_v_other : SemInv id n c (s.sem_v i) := by
  have hch : Chan.sem i ≠ .sem id := fun h => hi (Chan.sem.inj h)
  unfold SemSys.sem_v
  dsimp only
  split
  · refine I.frame ?_ rfl ?_ fun r => alike_wakeup hch r
    · simp [SemSys.wakeup, hi.symm]
    · simp [SemSys.wakeup, hi.symm]
  · refine I.frame ?_ rfl ?_ fun r => .refl _
    · simp [hi.symm]
    · simp [hi.symm]

end

theorem SemInv.kill (I : SemInv id n c s) (h : ¬ (s.proc q).AsleepOn id) :
    SemInv id n c (s.kill q) := by
  refine I.frame rfl rfl rfl (alike_update (show (s.kill q).proc = _ from rfl) (.of_awake h ?_ rfl))
  rintro ⟨hs, hch⟩
  dsimp only at hs hch
  split at hs
  · cases hs
  · exact h ⟨hs, hch⟩

theorem SemInv.sigkill (I : SemInv id n c s) (signum : BitVec 32)
    (h : ¬ (s.proc q).AsleepOn id) : SemInv id n c (s.sigkill q signum) := by
  unfold SemSys.sigkill
  split
  · exact I
  dsimp only
  have hset : ∀ f : SemProc → SemProc, (f (s.proc q)).inP = (s.proc q).inP →
      (f (s.proc q)).chan = (s.proc q).chan →
      ((f (s.proc q)).state = (s.proc q).state ∨ (f (s.proc q)).state = .RUNNABLE) →
      SemInv id n c (s.setProc q f) := by
    intro f hin hch hst
    refine I.frame rfl rfl rfl (alike_update rfl (.of_awake h ?_ hin))
    rintro ⟨hs, hc⟩
    rcases hst with hst | hst
    · exact h ⟨hst ▸ hs, hch ▸ hc⟩
    · rw [hst] at hs
      cases hs
  split
  · exact (hset _ rfl rfl (by simp)).frame rfl rfl rfl fun r => alike_wakeup (by simp) r
  · exact hset _ rfl rfl (by simp)

theorem SemInv.next (I : SemInv id n c s) (hok : SemOk id s a) (h : s.next a = some t) :
    ∃ c, SemInv id n c t := by
  cases a with
  | run q | yield q =>
    simp only [SemSys.next, Option.ite_none_right_eq_some, Option.some.injEq] at h
    obtain ⟨hq, rfl⟩ := h
    refine ⟨c, I.frame rfl rfl rfl (alike_update rfl (.of_awake ?_ ?_ rfl))⟩
    · exact not_asleepOn_of_state (by simp [hq])
    · exact not_asleepOn_of_state (by simp)
  | sem_p q i =>
    simp only [SemSys.next, Option.ite_none_right_eq_some] at h
    obtain ⟨⟨hq, hin⟩, h⟩ := h
    split at h
    · rename_i i hi
      cases h
      by_cases hid : i = id
      · subst hid
        exact ⟨_, I.sem_p hq hin⟩
      · exact ⟨c, I.sem_p_other hid hq hin⟩
    · cases h
      exact ⟨c, I⟩
  | back q =>
    simp only [SemSys.next, Option.ite_none_right_eq_some, Option.map_eq_some_iff] at h
    obtain ⟨hq, i, hin, rfl⟩ := h
    by_cases hid : i = id
    · subst hid
      exact ⟨c, I.sem_p_return hq hin⟩
    · exact ⟨c, I.sem_p_return_other hid hq hin⟩
  | sem_v q i =>
    simp only [SemSys.next, Option.ite_none_right_eq_some] at h
    obtain ⟨_, h⟩ := h
    split at h
    · rename_i j hj
      cases h
      by_cases hid : j = id
      · subst hid
        exact ⟨_, I.sem_v (hok hj)⟩
      · exact ⟨c, I.sem_v_other hid⟩
    · cases h
      exact ⟨c, I⟩
  | kill q =>
    cases h
    exact ⟨c, I.kill hok⟩
  | sigkill q signum =>
    cases h
    exact ⟨c, I.sigkill signum hok⟩

/-- A semaphore in whose `sem_p` no process is any more has its count right from the start. -/
theorem SemInv.of_sem_create {k : BitVec 32} (h : s.sem_create k = some (id, t))
    (hnone : ∀ q, (s.proc q).place id = none) : SemInv id k.toInt k.toInt t := by
  unfold sem_create at h
  split at h
  · cases h
  split at h
  · cases h
  cases h
  have hrefs : ∀ b, refs (fun r => (s.proc r).place id) b = 0 := by
    intro b
    refine refs_eq_zero.mpr ?_
    intro r
    simp [hnone r]
  refine ⟨?_, ?_, ?_, ?_⟩
  · have hhi := BitVec.toInt_lt (x := k)
    simp only [update_self, int]
    rw [Int.bmod_eq_of_le (by omega) (by omega)]
  · omega
  · simp only [asleep, leaving, hrefs, update_self]
    omega
  · intro r hr
    have := hnone r
    rw [place, if_pos hr] at this
    cases this

/-- A new semaphore lets through no more calls of `sem_p` than it has resources and has had
calls of `sem_v`, as long as no `sem_v` wakes several processes and no signal wakes one. -/
theorem sem_passed_le {k : BitVec 32} {as : List SemAct} {u : SemSys}
    (hnew : s.sem_create k = some (id, t)) (hnone : ∀ q, (s.proc q).place id = none)
    (hrun : Run (Guarded (SemOk id) fun s a t => s.next a = some t) t as u) :
    (u.passed id : Int) - u.freed id ≤ k.toInt := by
  have hstep : ∀ s a t, Guarded (SemOk id) (fun s a t => next s a = some t) s a t →
      (∃ c, SemInv id k.toInt c s) → ∃ c, SemInv id k.toInt c t := by
    rintro s a t ⟨hok, h⟩ ⟨c, I⟩
    exact I.next hok h
  obtain ⟨c, I⟩ := hrun.invariant hstep ⟨_, .of_sem_create hnew hnone⟩
  have henough := I.enough
  have hbalance := I.balance
  omega

end

/-- No semaphore is in use and three processes run. -/
def SemSys.three : SemSys where
  allocated _ := false
  resource_count _ := 0
  proc q := ⟨if q.val < 3 then .RUNNING else .UNUSED, none, false, 0, false, none⟩
  passed _ := 0
  freed _ := 0

/-- The semaphore that `sem_create n` makes, after the calls `as`. -/
def SemSys.runFrom (C : SemId → SemSys → SemAct → Prop) [∀ id s a, Decidable (C id s a)]
    (n : BitVec 32) (as : List SemAct) : Option (SemId × SemSys) := do
  let (id, t) ← SemSys.three.sem_create n
  let u ← as.foldlM (fun s a => if C id s a then s.next a else none) t
  pure (id, u)

theorem SemSys.run_of_runFrom {C : SemId → SemSys → SemAct → Prop}
    [∀ id s a, Decidable (C id s a)] {n : BitVec 32} {as : List SemAct} {id : SemId} {u : SemSys}
    (h : SemSys.runFrom C n as = some (id, u)) :
    ∃ t, SemSys.three.sem_create n = some (id, t) ∧
      Run (Guarded (C id) fun s a t => s.next a = some t) t as u := by
  simp only [runFrom, Option.bind_eq_bind, Option.bind_eq_some_iff] at h
  obtain ⟨⟨i, t⟩, hnew, v, hv, he⟩ := h
  cases he
  exact ⟨t, hnew, .of_foldlM hv⟩

theorem three_place (q : ProcId) (id : SemId) : (SemSys.three.proc q).place id = none := by
  simp [SemSys.three, SemProc.place, SemProc.AsleepOn]

/-- One resource is handed from one process to the next. -/
theorem sem_passed_le_handed : ∃ id t u,
    SemSys.three.sem_create 1 = some (id, t) ∧
    Run (Guarded (SemOk id) fun s a t => s.next a = some t) t
      [.sem_p 0 0, .back 0, .sem_p 1 0, .sem_v 0 0, .run 1, .back 1] u ∧
    u.passed id = 2 ∧ u.freed id = 1 ∧ (u.passed id : Int) - u.freed id ≤ (1 : BitVec 32).toInt := by
  obtain ⟨⟨id, u⟩, hu, hpassed, hfreed⟩ : ∃ r, SemSys.runFrom SemOk 1
      [.sem_p 0 0, .back 0, .sem_p 1 0, .sem_v 0 0, .run 1, .back 1] = some r ∧
      r.2.passed r.1 = 2 ∧ r.2.freed r.1 = 1 := by
    decide +kernel
  obtain ⟨t, hnew, hrun⟩ := SemSys.run_of_runFrom hu
  exact ⟨id, t, u, hnew, hrun, hpassed, hfreed, sem_passed_le hnew (fun q => three_place q id) hrun⟩

/-- One resource, two processes asleep: one `sem_v` lets both of them through. -/
theorem sem_v_passes_two : ∃ id t u,
    SemSys.three.sem_create 1 = some (id, t) ∧
    Run (fun s a t => SemSys.next s a = some t) t
      [.sem_p 0 0, .back 0, .sem_p 1 0, .sem_p 2 0, .sem_v 0 0, .run 1, .back 1, .run 2, .back 2]
      u ∧
    u.passed id = 3 ∧ u.freed id = 1 ∧
    ¬ (u.passed id : Int) - u.freed id ≤ (1 : BitVec 32).toInt := by
  obtain ⟨⟨id, u⟩, hu, hpassed, hfreed⟩ : ∃ r, SemSys.runFrom (fun _ _ _ => True) 1
      [.sem_p 0 0, .back 0, .sem_p 1 0, .sem_p 2 0, .sem_v 0 0, .run 1, .back 1, .run 2,
        .back 2] = some r ∧ r.2.passed r.1 = 3 ∧ r.2.freed r.1 = 1 := by
    decide +kernel
  obtain ⟨t, hnew, hrun⟩ := SemSys.run_of_runFrom hu
  refine ⟨id, t, u, hnew, hrun.mono fun s a t h => h.2, hpassed, hfreed, ?_⟩
  rw [show u.passed id = 3 from hpassed, show u.freed id = 1 from hfreed]
  decide

end Yyds.Sync
