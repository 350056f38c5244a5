import Yyds.Lib.Locks
import Yyds.Kernel.Sys

/-! The locks of the process table, one acquire or release at a time: one CPU looks for a process
to run, and another one is in `wait` or `exit`. -/
namespace Yyds.Sync

open Lib Kernel Mm

inductive Policy
  | SCHED_NORMAL
  | SCHED_FIFO
  | SCHED_RR
  | SCHED_DEADLINE
  deriving DecidableEq

/-- A slot of the process table; `chan` is the process whose address it sleeps on. -/
structure TableProc where
  state : ProcState
  sched_policy : Policy
  rt_priority : Int
  deadline : Nat
  runtime_remaining : Nat
  parent : Option ProcId
  pthread : Option ProcId
  chan : Option ProcId
  killed : Bool

structure Table where
  proc : ProcId → TableProc
  initproc : ProcId

namespace Table

def set (m : Table) (q : ProcId) (f : TableProc → TableProc) : Table :=
  { m with proc := Function.update m.proc q (f (m.proc q)) }

def wakeup1 (m : Table) (q : ProcId) : Table :=
  if (m.proc q).chan = some q ∧ (m.proc q).state = .SLEEPING then
    m.set q fun x => { x with state := .RUNNABLE }
  else m

/-- What `freeproc` does to these fields. -/
def freeproc (m : Table) (q : ProcId) : Table :=
  m.set q fun x => { x with parent := none, chan := none, killed := false, state := .UNUSED }

/-- The process that `exit` wakes. -/
def originalParent (m : Table) (q : ProcId) : Option ProcId :=
  if (m.proc q).parent = none ∧ (m.proc q).pthread ≠ none then (m.proc q).pthread
  else (m.proc q).parent

end Table

/-- `find_rt_process` and `find_deadline_process` -/
inductive Find
  | rt
  | deadline
  deriving DecidableEq

/-- `best_priority` and `earliest_deadline` before the loop. -/
def Find.start : Find → Int
  | .rt => -1
  | .deadline => 0xFFFFFFFFFFFFFFFF

/-- Whether a process is better than the best one so far, and the new bound. -/
def Find.better (x : TableProc) (bound : Int) : Find → Option Int
  | .rt =>
    if x.state = .RUNNABLE ∧ (x.sched_policy = .SCHED_FIFO ∨ x.sched_policy = .SCHED_RR) ∧
      x.rt_priority > bound then some x.rt_priority else none
  | .deadline =>
    if x.state = .RUNNABLE ∧ x.sched_policy = .SCHED_DEADLINE ∧ x.runtime_remaining > 0 ∧
      x.deadline < bound then some x.deadline else none

/-- The two CPUs. -/
inductive TCpu
  | sched
  | call
  deriving DecidableEq

/-- What starts a routine; `copyout` says whether `wait` could store the status. -/
inductive TInput
  | find (k : Find)
  | wait (q : ProcId)
  | exit (q : ProcId)
  | run (q : ProcId)
  | copyout (ok : Bool)
  deriving DecidableEq

/-- Where a CPU is. `q` is the process that calls `wait` or `exit`, and `op` the variable
`original_parent`. -/
inductive TPc
  | idle
  | find (k : Find) (p : Nat) (best : Option ProcId) (bound : Int)
  | findLock (k : Find) (p : ProcId) (best : Option ProcId) (bound : Int)
  | findTest (k : Find) (p : ProcId) (best : Option ProcId) (bound : Int)
  | findSwap (k : Find) (p old : ProcId) (bound : Int)
  | findSkip (k : Find) (p : ProcId) (best : Option ProcId) (bound : Int)
  | findDone (best : ProcId)
  | runLock (q : ProcId)
  | runSet (q : ProcId)
  | runUnlock (q : ProcId)
  | waitLock (q : ProcId)
  | waitScan (q : ProcId) (np : Nat) (havekids : Bool)
  | waitLockChild (q np : ProcId)
  | waitTest (q np : ProcId)
  | waitUnlockChild (q np : ProcId)
  | waitUnlockFound (q np : ProcId)
  | waitUnlock (q : ProcId)
  | exitLockInit (q init : ProcId)
  | exitWakeInit (q init : ProcId)
  | exitUnlockInit (q init : ProcId)
  | exitLockSelf (q : ProcId)
  | exitReadParent (q : ProcId)
  | exitUnlockSelf (q op : ProcId)
  | exitLockParent (q op : ProcId)
  | exitLockAgain (q op : ProcId)
  | reparent (q op : ProcId) (pp : Nat)
  | reparentLock (q op pp : ProcId)
  | reparentSet (q op pp : ProcId)
  | reparentUnlock (q op pp : ProcId)
  | exitZombie (q op : ProcId)
  | exitUnlockParent (q op : ProcId)
  | exitSched (q : ProcId)
  deriving DecidableEq

abbrev TOp := Op ProcId Table TPc TInput

/-- The two searches of the scheduler. -/
def findCode : TPc → TOp
  | .idle => .act fun i m =>
    match i with
    | .find k => some (m, .find k 0 none k.start)
    | _ => none
  | .find k p best bound => .act fun _ m =>
    if h : p < NPROC then some (m, .findLock k ⟨p, h⟩ best bound)
    else
      match best with
      | some b => some (m, .findDone b)
      | none => some (m, .idle)
  | .findLock k p best bound => .acquire p (.findTest k p best bound)
  | .findTest k p best bound => .act fun _ m =>
    match k.better (m.proc p) bound, best with
    | some bound', some old => some (m, .findSwap k p old bound')
    | some bound', none => some (m, .find k (p + 1) (some p) bound')
    | none, _ => some (m, .findSkip k p best bound)
  | .findSwap k p old bound => .release old (.find k (p + 1) (some p) bound)
  | .findSkip k p best bound => .release p (.find k (p + 1) best bound)
  | .findDone best => .release best .idle
  | _ => .act fun _ _ => none

/-- A process on the other CPU: it is dispatched, calls `wait` or `exit`. -/
def callCode : TPc → TOp
  | .idle => .act fun i m =>
    match i with
    | .run q => some (m, .runLock q)
    | .wait q => if (m.proc q).state = .RUNNING then some (m, .waitLock q) else none
    -- "init exiting"
    | .exit q => if (m.proc q).state = .RUNNING ∧ q ≠ m.initproc then
        some (m, .exitLockInit q m.initproc) else none
    | _ => none
  | .runLock q => .acquire q (.runSet q)
  | .runSet q => .act fun _ m =>
    if (m.proc q).state = .RUNNABLE then
      some (m.set q fun x => { x with state := .RUNNING, chan := none }, .runUnlock q)
    else some (m, .runUnlock q)
  | .runUnlock q => .release q .idle
  -- wait
  | .waitLock q => .acquire q (.waitScan q 0 false)
  | .waitScan q np havekids => .act fun _ m =>
    if h : np < NPROC then
      if (m.proc ⟨np, h⟩).parent = some q then some (m, .waitLockChild q ⟨np, h⟩)
      else some (m, .waitScan q (np + 1) havekids)
    else if !havekids || (m.proc q).killed then some (m, .waitUnlock q)
    -- sleep(p, &p->lock): the scheduler of this CPU releases the lock
    else some (m.set q fun x => { x with chan := some q, state := .SLEEPING }, .waitUnlock q)
  | .waitLockChild q np => .acquire np (.waitTest q np)
  | .waitTest q np => .act fun i m =>
    if (m.proc np).state = .ZOMBIE then
      if i = .copyout false then some (m, .waitUnlockFound q np)
      else some (m.freeproc np, .waitUnlockFound q np)
    else some (m, .waitUnlockChild q np)
  | .waitUnlockChild q np => .release np (.waitScan q (np + 1) true)
  | .waitUnlockFound q np => .release np (.waitUnlock q)
  | .waitUnlock q => .release q .idle
  -- exit
  | .exitLockInit q init => .acquire init (.exitWakeInit q init)
  | .exitWakeInit q init => .act fun _ m => some (m.wakeup1 init, .exitUnlockInit q init)
  | .exitUnlockInit q init => .release init (.exitLockSelf q)
  | .exitLockSelf q => .acquire q (.exitReadParent q)
  | .exitReadParent q => .act fun _ m => (m.originalParent q).map fun op => (m, .exitUnlockSelf q op)
  | .exitUnlockSelf q op => .release q (.exitLockParent q op)
  | .exitLockParent q op => .acquire op (.exitLockAgain q op)
  | .exitLockAgain q op => .acquire q (.reparent q op 0)
  | .reparent q op pp => .act fun _ m =>
    if h : pp < NPROC then
      if (m.proc ⟨pp, h⟩).parent = some q then some (m, .reparentLock q op ⟨pp, h⟩)
      else some (m, .reparent q op (pp + 1))
    else some (m, .exitZombie q op)
  | .reparentLock q op pp => .acquire pp (.reparentSet q op pp)
  | .reparentSet q op pp => .act fun _ m =>
    some (m.set pp fun x => { x with parent := some m.initproc }, .reparentUnlock q op pp)
  | .reparentUnlock q op pp => .release pp (.reparent q op (pp + 1))
  | .exitZombie q op => .act fun _ m =>
    some ((m.wakeup1 op).set q fun x => { x with state := .ZOMBIE }, .exitUnlockParent q op)
  | .exitUnlockParent q op => .release op (.exitSched q)
  -- the scheduler of this CPU releases the lock
  | .exitSched q => .release q .idle
  | _ => .act fun _ _ => none

def tableCode : TCpu → TPc → TOp
  | .sched => findCode
  | .call => callCode

abbrev TState := LockState TCpu ProcId Table TPc

/-- The locks that a CPU has at each place. -/
def TPc.held : TPc → List ProcId
  | .find _ _ best _ | .findLock _ _ best _ => best.toList
  | .findTest _ p best _ | .findSkip _ p best _ => p :: best.toList
  | .findSwap _ p old _ => [old, p]
  | .findDone best => [best]
  | .runSet q | .runUnlock q => [q]
  | .waitScan q _ _ | .waitLockChild q _ | .waitUnlock q => [q]
  | .waitTest q np | .waitUnlockChild q np | .waitUnlockFound q np => [np, q]
  | .exitWakeInit _ init | .exitUnlockInit _ init => [init]
  | .exitReadParent q | .exitUnlockSelf q _ | .exitSched q => [q]
  | .exitLockAgain _ op => [op]
  | .reparent q op _ | .reparentLock q op _ | .exitZombie q op | .exitUnlockParent q op => [q, op]
  | .reparentSet q op pp | .reparentUnlock q op pp => [pp, q, op]
  | .idle | .runLock _ | .waitLock _ | .exitLockInit _ _ | .exitLockSelf _ | .exitLockParent _ _ => []

/-- The candidate has a lower slot than the one looked at; the locks of a call are distinct. -/
def TPc.Placed : TCpu → TPc → Prop
  | .sched, .idle | .sched, .findDone _ => True
  | .sched, .find _ p best _ => ∀ b ∈ best, b.val < p
  | .sched, .findLock _ p best _ | .sched, .findTest _ p best _ | .sched, .findSkip _ p best _ =>
    ∀ b ∈ best, b < p
  | .sched, .findSwap _ p old _ => old < p
  | .call, .idle | .call, .runLock _ | .call, .runSet _ | .call, .runUnlock _ => True
  | .call, .waitLock _ | .call, .waitScan _ _ _ | .call, .waitLockChild _ _
  | .call, .waitUnlock _ => True
  | .call, .waitTest q np | .call, .waitUnlockChild q np | .call, .waitUnlockFound q np => np ≠ q
  | .call, .exitLockInit _ _ | .call, .exitWakeInit _ _ | .call, .exitUnlockInit _ _
  | .call, .exitLockSelf _ | .call, .exitReadParent _ | .call, .exitUnlockSelf _ _
  | .call, .exitLockParent _ _ | .call, .exitLockAgain _ _ | .call, .exitSched _ => True
  | .call, .reparent q op _ | .call, .reparentLock q op _ | .call, .exitZombie q op
  | .call, .exitUnlockParent q op => op ≠ q
  | .call, .reparentSet q op pp | .call, .reparentUnlock q op pp => op ≠ q ∧ pp ≠ op ∧ pp ≠ q
  | _, _ => False

open TPc

/-! ### Parents below their real-time children -/

namespace Table

/-- The searches keep the lock of such a process. -/
def RealTime (m : Table) (c : ProcId) : Prop := (m.proc c).sched_policy ≠ .SCHED_NORMAL

/-- `exit` of `q` may wake `r`. -/
def Elder (m : Table) (q r : ProcId) : Prop :=
  (m.proc q).parent = some r ∨ (m.proc q).pthread = some r

/-- Every real-time process has a higher slot than `initproc`, than its parent, and than those
that they wake when they exit. -/
structure RealTimeAbove (m : Table) : Prop where
  init : ∀ c, m.RealTime c → m.initproc < c
  initElder : ∀ c r, m.RealTime c → m.Elder m.initproc r → r < c
  parent : ∀ c q, m.RealTime c → (m.proc c).parent = some q → q < c
  elder : ∀ c q r, m.RealTime c → (m.proc c).parent = some q → m.Elder q r → r < c

/-- What the calls do to the table: policies stay, and parents only change to `initproc`. -/
structure Later (m m' : Table) : Prop where
  initproc : m'.initproc = m.initproc
  policy : ∀ c, (m'.proc c).sched_policy = (m.proc c).sched_policy
  pthread : ∀ c, (m'.proc c).pthread = (m.proc c).pthread
  parent : ∀ c r, (m'.proc c).parent = some r → (m.proc c).parent = some r ∨ r = m.initproc

variable {m m' : Table} {q op c : ProcId}

theorem Later.refl (m : Table) : m.Later m :=
  ⟨rfl, fun _ => rfl, fun _ => rfl, fun _ _ h => .inl h⟩

theorem later_set {f : TableProc → TableProc}
    (hparent : ∀ x r, (f x).parent = some r → x.parent = some r ∨ r = m.initproc)
    (hpolicy : ∀ x, (f x).sched_policy = x.sched_policy := by exact fun _ => rfl)
    (hpthread : ∀ x, (f x).pthread = x.pthread := by exact fun _ => rfl) :
    m.Later (m.set q f) := by
  refine ⟨rfl, ?_, ?_, ?_⟩ <;> intro c <;> by_cases hc : c = q
  · simp [set, hc, hpolicy]
  · simp [set, hc]
  · simp [set, hc, hpthread]
  · simp [set, hc]
  · subst hc
    intro r hr
    exact hparent _ r (by simpa [set] using hr)
  · intro r hr
    exact .inl (by simpa [set, hc] using hr)

theorem Later.trans {m'' : Table} (h : m.Later m') (h' : m'.Later m'') : m.Later m'' := by
  refine ⟨h'.initproc.trans h.initproc, fun c => (h'.policy c).trans (h.policy c),
    fun c => (h'.pthread c).trans (h.pthread c), ?_⟩
  intro c r hr
  rcases h'.parent c r hr with hr | hr
  · exact h.parent c r hr
  · exact .inr (hr.trans h.initproc)

theorem later_wakeup1 (m : Table) (q : ProcId) : m.Later (m.wakeup1 q) := by
  unfold wakeup1
  split
  · exact later_set fun _ _ h => .inl h
  · exact .refl m

theorem Later.realTime (h : m.Later m') (hc : m'.RealTime c) : m.RealTime c := by
  rwa [RealTime, h.policy c] at hc

theorem Later.elder (h : m.Later m') {r : ProcId} (hr : m'.Elder q r) :
    m.Elder q r ∨ r = m.initproc := by
  rcases hr with hr | hr
  · rcases h.parent q r hr with hr | hr
    · exact .inl (.inl hr)
    · exact .inr hr
  · rw [h.pthread q] at hr
    exact .inl (.inr hr)

theorem RealTimeAbove.later (A : m.RealTimeAbove) (h : m.Later m') : m'.RealTimeAbove := by
  have hinit : ∀ c r, m'.RealTime c → m'.Elder m.initproc r → r < c := by
    intro c r hc hr
    rcases h.elder hr with hr | rfl
    · exact A.initElder c r (h.realTime hc) hr
    · exact A.init c (h.realTime hc)
  refine ⟨?_, ?_, ?_, ?_⟩
  · intro c hc
    rw [h.initproc]
    exact A.init c (h.realTime hc)
  · intro c r hc hr
    rw [h.initproc] at hr
    exact hinit c r hc hr
  · intro c q hc hq
    rcases h.parent c q hq with hq | rfl
    · exact A.parent c q (h.realTime hc) hq
    · exact A.init c (h.realTime hc)
  · intro c q r hc hq hr
    rcases h.parent c q hq with hq | rfl
    · rcases h.elder hr with hr | rfl
      · exact A.elder c q r (h.realTime hc) hq hr
      · exact A.init c (h.realTime hc)
    · exact hinit c r hc hr

/-- `op` is below the real-time children of `q`. -/
def BelowChildren (m : Table) (q op : ProcId) : Prop :=
  ∀ c, m.RealTime c → (m.proc c).parent = some q → op < c

theorem BelowChildren.later (hq : q ≠ m.initproc) (hb : m.BelowChildren q op) (h : m.Later m') :
    m'.BelowChildren q op := by
  intro c hc hp
  rcases h.parent c q hp with hp | hp
  · exact hb c (h.realTime hc) hp
  · exact absurd hp hq

theorem elder_of_originalParent (h : m.originalParent q = some op) : m.Elder q op := by
  unfold originalParent at h
  split at h
  · exact .inr h
  · exact .inl h

end Table

open Table

/-- The processes that a search has found so far. -/
def TPc.candidates : TPc → List ProcId
  | .find _ _ best _ | .findLock _ _ best _ | .findTest _ _ best _ | .findSkip _ _ best _ =>
    best.toList
  | .findSwap _ p old _ => [old, p]
  | .findDone best => [best]
  | _ => []

/-- What a call knows of its process and the lock it waits for. -/
def TPc.CallerOk (m : Table) : TPc → Prop
  | .waitLockChild q np => (m.proc np).parent = some q
  | .exitLockInit q _ | .exitWakeInit q _ | .exitUnlockInit q _ | .exitLockSelf q
  | .exitReadParent q => (m.proc q).state = .RUNNING ∧ q ≠ m.initproc
  | .exitUnlockSelf q op | .exitLockParent q op | .exitLockAgain q op =>
    (m.proc q).state = .RUNNING ∧ q ≠ m.initproc ∧ m.BelowChildren q op
  | .reparent q op _ | .reparentSet q op _ | .reparentUnlock q op _ =>
    q ≠ m.initproc ∧ m.BelowChildren q op
  | .reparentLock q op pp =>
    q ≠ m.initproc ∧ m.BelowChildren q op ∧ (m.proc pp).parent = some q
  | _ => True

theorem realTime_of_better {m : Table} {k : Find} {p : ProcId} {bound bound' : Int}
    (h : k.better (m.proc p) bound = some bound') :
    (m.proc p).state = .RUNNABLE ∧ m.RealTime p := by
  unfold RealTime
  cases k <;> simp only [Find.better, Option.ite_none_right_eq_some] at h
  · obtain ⟨⟨hstate, hpolicy | hpolicy, _⟩, _⟩ := h <;> simp [hstate, hpolicy]
  · obtain ⟨⟨hstate, hpolicy, _⟩, _⟩ := h
    simp [hstate, hpolicy]

/-- What a search has found is runnable and real-time. -/
def Candidates (m : Table) (p : TPc) : Prop :=
  ∀ b ∈ p.candidates, (m.proc b).state = .RUNNABLE ∧ m.RealTime b

theorem state_set {m : Table} {q c : ProcId} {f : TableProc → TableProc} (hc : c ≠ q) :
    ((m.set q f).proc c).state = (m.proc c).state := by
  simp [Table.set, hc]

theorem state_wakeup1 {m : Table} {q c : ProcId} (hc : c ≠ q) :
    ((m.wakeup1 q).proc c).state = (m.proc c).state := by
  unfold Table.wakeup1
  split
  · exact state_set hc
  · rfl

section Acts

variable {p p' : TPc} {f : TInput → Table → Option (Table × TPc)} {i : TInput} {m m' : Table}

theorem findCode_act (hok : p.Placed .sched) (hc : findCode p = .act f)
    (hf : f i m = some (m', p')) :
    m' = m ∧ (p'.Placed .sched ∧ ∀ k, k ∈ p'.held ↔ k ∈ p.held) ∧
      (Candidates m p → Candidates m p') := by
  cases p with
  | idle =>
    cases hc
    cases i <;> cases hf
    simp [TPc.Placed, held, Candidates, TPc.candidates]
  | find k p best bound =>
    cases hc
    split at hf
    · cases hf
      exact ⟨rfl, ⟨fun b hb => hok b hb, by simp [held]⟩, id⟩
    · split at hf <;> cases hf <;> exact ⟨rfl, by simp [TPc.Placed, held], id⟩
  | findTest k p best bound =>
    cases hc
    dsimp only at hf
    split at hf <;> cases hf
    · rename_i old hbetter
      refine ⟨rfl, by simp_all [TPc.Placed, held, or_comm], ?_⟩
      intro hcand b hb
      rcases List.mem_cons.mp hb with rfl | hb
      · exact hcand b (by simp [TPc.candidates])
      · rw [List.mem_singleton.mp hb]
        exact realTime_of_better hbetter
    · rename_i hbetter
      refine ⟨rfl, by simp [TPc.Placed, held], ?_⟩
      intro _ b hb
      rw [List.mem_singleton.mp hb]
      exact realTime_of_better hbetter
    · exact ⟨rfl, ⟨hok, by simp [held]⟩, id⟩
  | findLock k p best bound | findSwap k p old bound | findSkip k p best bound | findDone best =>
    cases hc
  | _ => cases hok

/-- What a step of a call does; it changes the state only of processes whose locks it has. -/
structure CallEffect (p : TPc) (m : Table) (p' : TPc) (m' : Table) : Prop where
  placed : p.Placed .call → p'.Placed .call
  held : p'.held = p.held
  later : m.Later m'
  state : ∀ c, c ∉ p.held → (m'.proc c).state = (m.proc c).state
  caller : m.RealTimeAbove → p.CallerOk m → p'.CallerOk m'

theorem CallEffect.still
    (hcaller : m.RealTimeAbove → p.CallerOk m → p'.CallerOk m := by exact fun _ _ => trivial)
    (hplaced : p.Placed .call → p'.Placed .call := by exact id)
    (hheld : p'.held = p.held := by rfl) : CallEffect p m p' m :=
  ⟨hplaced, hheld, .refl m, fun _ _ => rfl, hcaller⟩

theorem CallEffect.set {q : ProcId} {g : TableProc → TableProc}
    (hlater : m.Later (m.set q g))
    (hcaller : p.CallerOk m → p'.CallerOk (m.set q g) := by exact fun _ => trivial)
    (hq : q ∈ p.held := by simp [held]) (hplaced : p.Placed .call → p'.Placed .call := by exact id)
    (hheld : p'.held = p.held := by rfl) : CallEffect p m p' (m.set q g) := by
  refine ⟨hplaced, hheld, hlater, ?_, fun _ => hcaller⟩
  rintro c hc
  exact state_set fun h => hc (h ▸ hq)

theorem callCode_act (hc : callCode p = .act f) (hf : f i m = some (m', p')) :
    CallEffect p m p' m' := by
  cases p with
  | idle =>
    cases hc
    cases i with
    | run q =>
      cases hf
      exact .still
    | wait q =>
      dsimp only at hf
      split at hf <;> cases hf
      exact .still
    | exit q =>
      dsimp only at hf
      split at hf <;> cases hf
      exact .still fun _ _ => ‹_›
    | _ => cases hf
  | waitScan q np havekids =>
    cases hc
    dsimp only at hf
    split at hf
    · split at hf <;> cases hf
      · exact .still fun _ _ => ‹_›
      · exact .still
    · split at hf <;> cases hf
      · exact .still
      · exact .set (later_set fun _ _ h => .inl h)
  | waitTest q np =>
    cases hc
    dsimp only at hf
    split at hf
    · split at hf <;> cases hf
      · exact .still
      · exact .set (later_set (by simp))
    · cases hf
      exact .still
  | exitReadParent q =>
    cases hc
    rw [Option.map_eq_some_iff] at hf
    obtain ⟨op, hop, he⟩ := hf
    cases he
    refine .still fun A hok => ⟨hok.1, hok.2, ?_⟩
    intro c hc hp
    exact A.elder c q op hc hp (elder_of_originalParent hop)
  | reparent q op pp =>
    cases hc
    dsimp only at hf
    split at hf
    · split at hf <;> cases hf
      · exact .still fun _ hok => ⟨hok.1, hok.2, ‹_›⟩
      · exact .still fun _ hok => hok
    · cases hf
      exact .still
  | runSet q =>
    cases hc
    dsimp only at hf
    split at hf <;> cases hf
    · exact .set (later_set fun _ _ h => .inl h)
    · exact .still
  | exitWakeInit q init =>
    cases hc
    cases hf
    have hlater := later_wakeup1 m init
    refine ⟨id, rfl, hlater, ?_, ?_⟩
    · intro c hc
      exact state_wakeup1 (by simpa [held] using hc)
    · -- `wakeup1` is for a sleeping process, and `q` runs
      refine fun _ hok => ⟨?_, by rw [hlater.initproc]; exact hok.2⟩
      by_cases hq : q = init
      · subst hq
        simp [wakeup1, hok.1]
      · rw [state_wakeup1 hq]
        exact hok.1
  | reparentSet q op pp =>
    cases hc
    cases hf
    have hlater : m.Later (m.set pp fun x => { x with parent := some m.initproc }) :=
      later_set fun _ _ hr => .inr (Option.some.inj hr).symm
    exact .set hlater fun hok => ⟨hok.1, hok.2.later hok.1 hlater⟩
  | exitZombie q op =>
    cases hc
    cases hf
    refine ⟨id, rfl, (later_wakeup1 m op).trans
      (later_set fun _ _ h => .inl h), ?_, fun _ _ => trivial⟩
    intro c hc
    simp only [held, List.mem_cons, List.not_mem_nil, or_false, not_or] at hc
    rw [state_set hc.1, state_wakeup1 hc.2]
  | _ =>
    cases hc
    all_goals cases hf

end Acts

theorem tableCode_annotation :
    Annotation tableCode TPc.Placed fun _ p k => k ∈ p.held where
  acquire := by
    intro t p l p' hok hl hc
    cases t <;> cases p <;> cases hc <;> simp_all [held, TPc.Placed, Ne.symm]
  release := by
    intro t p l p' hok hc
    cases t <;> cases p <;> cases hc <;>
      simp only [held, TPc.Placed, List.mem_cons, Option.mem_toList, Option.mem_def] at hok ⊢
    case sched.findSkip best _ => cases best <;> grind
    all_goals grind
  holding := by
    intro t p l yes no hok hc
    cases t <;> cases p <;> cases hc
  act := by
    intro t p f i m m' p' hok hc hf
    cases t with
    | sched => exact (findCode_act hok hc hf).2.1
    | call =>
      have heff := callCode_act hc hf
      exact ⟨heff.placed hok, fun k => by rw [heff.held]⟩

/-! ### Runs -/

structure TInv (s : TState) : Prop where
  owned : Owned TPc.Placed (fun _ p k => k ∈ p.held) s
  above : s.mem.RealTimeAbove
  found : Candidates s.mem (s.pc .sched)
  caller : (s.pc .call).CallerOk s.mem

theorem candidates_held {p : TPc} {b : ProcId} (h : b ∈ p.candidates) : b ∈ p.held := by
  cases p <;> simp_all [TPc.candidates, held]

variable {s s' : TState} {t : TCpu} {i : TInput}

/-- The other CPU has none of the locks of the candidates. -/
theorem TInv.found_later (I : TInv s) {m' : Table} (hlater : s.mem.Later m')
    (hstate : ∀ c, c ∉ (s.pc .call).held → (m'.proc c).state = (s.mem.proc c).state) :
    Candidates m' (s.pc .sched) := by
  intro b hb
  have hsched := (I.owned.locks b .sched).mpr (candidates_held hb)
  have hcall : b ∉ (s.pc .call).held := by
    intro h
    have := (I.owned.locks b .call).mpr h
    rw [hsched] at this
    cases this
  obtain ⟨hrun, hreal⟩ := I.found b hb
  exact ⟨(hstate b hcall).trans hrun, by rwa [RealTime, hlater.policy b]⟩

theorem TInv.next (I : TInv s) (h : LockState.Steps tableCode s (t, i) s') : TInv s' := by
  have howned := I.owned.next tableCode_annotation h
  have hsame : ∀ u, u ≠ t → s'.pc u = s.pc u := fun u hu => h.pc_of_ne hu
  cases t with
  | sched =>
    have hcall : s'.pc .call = s.pc .call := hsame _ (by simp)
    have hmem : s'.mem = s.mem ∧ Candidates s.mem (s'.pc .sched) := by
      have hfound := I.found
      have hplace := I.owned.place .sched
      obtain ⟨l, p, hc, -, rfl⟩ | ⟨l, p, hc, -, rfl⟩ | ⟨l, yes, no, hc, rfl⟩ |
        ⟨f, m, p, hc, hf, rfl⟩ := h.cases
      · refine ⟨rfl, ?_⟩
        generalize s.pc .sched = q at hc hfound
        cases q <;> cases hc
        exact hfound
      · refine ⟨rfl, ?_⟩
        generalize s.pc .sched = q at hc hfound
        cases q <;> cases hc <;> simp_all [Candidates, TPc.candidates]
      · generalize s.pc .sched = q at hc
        cases q <;> cases hc
      · obtain ⟨rfl, -, hnext⟩ := findCode_act hplace hc hf
        exact ⟨rfl, hnext hfound⟩
    obtain ⟨hmem, hfound⟩ := hmem
    exact ⟨howned, hmem ▸ I.above, by rwa [hmem], by rw [hmem, hcall]; exact I.caller⟩
  | call =>
    have hsched : s'.pc .sched = s.pc .sched := hsame _ (by simp)
    have hcaller := I.caller
    obtain ⟨l, p, hc, -, rfl⟩ | ⟨l, p, hc, -, rfl⟩ | ⟨l, yes, no, hc, rfl⟩ |
      ⟨f, m, p, hc, hf, rfl⟩ := h.cases
    · refine ⟨howned, I.above, by rw [hsched]; exact I.found, ?_⟩
      generalize s.pc .call = q at hc hcaller
      cases q <;> cases hc <;> first
        | exact hcaller
        | exact hcaller.2
        | exact ⟨hcaller.1, hcaller.2.1⟩
        | trivial
    · refine ⟨howned, I.above, by rw [hsched]; exact I.found, ?_⟩
      generalize s.pc .call = q at hc hcaller
      cases q <;> cases hc <;> exact hcaller
    · generalize s.pc .call = q at hc
      cases q <;> cases hc
    · have heff := callCode_act hc hf
      refine ⟨howned, I.above.later heff.later, ?_, heff.caller I.above hcaller⟩
      exact I.found_later heff.later heff.state

/-- Each CPU waits for a lock that the other one has. -/
def MutualWait (s : TState) : Prop :=
  s.WaitsFor tableCode .sched .call ∧ s.WaitsFor tableCode .call .sched

/-- A search that has a lock waits for one with a higher slot. -/
theorem find_upward {p p' : TPc} {b l : ProcId} (hok : p.Placed .sched)
    (hc : findCode p = .acquire l p') (hb : b ∈ p.held) : b ∈ p.candidates ∧ b < l := by
  cases p <;> cases hc
  refine ⟨hb, ?_⟩
  exact hok b (by simpa [held] using hb)

theorem TInv.not_mutualWait (I : TInv s) : ¬ MutualWait s := by
  rintro ⟨⟨l, hl, hcall⟩, ⟨b, hb, hsched⟩⟩
  obtain ⟨p, hp⟩ := wants_eq_some.mp hl
  obtain ⟨p', hp'⟩ := wants_eq_some.mp hb
  obtain ⟨hcand, hlt⟩ := find_upward (I.owned.place .sched) hp ((I.owned.locks b .sched).mp hsched)
  obtain ⟨hrun, hreal⟩ := I.found b hcand
  have hheld := (I.owned.locks l .call).mp hcall
  have hcaller := I.caller
  have habove := I.above
  generalize s.pc .call = q at hp' hheld hcaller
  cases q with
  | waitLockChild q np =>
    cases hp'
    have hq : l = q := by simpa [held] using hheld
    subst hq
    exact absurd (habove.parent b l hreal hcaller) (lt_asymm hlt)
  | exitLockAgain q op =>
    -- the process itself runs, so it is no candidate
    cases hp'
    rw [hcaller.1] at hrun
    cases hrun
  | reparentLock q op pp =>
    cases hp'
    have hl : l = q ∨ l = op := by simpa [held] using hheld
    rcases hl with rfl | rfl
    · exact absurd (habove.parent b l hreal hcaller.2.2) (lt_asymm hlt)
    · exact absurd (hcaller.2.1 b hreal hcaller.2.2) (lt_asymm hlt)
  | _ =>
    cases hp'
    all_goals simp [held] at hheld

/-- Both CPUs are outside these routines. -/
def TState.start (m : Table) : TState := ⟨fun _ => none, fun _ => .idle, m⟩

/-- Whatever the table, the two CPUs never wait for each other, if the real-time processes have
higher slots than their parents and those that these wake. -/
theorem scan_and_wait_never_deadlock {m : Table} {as : List (TCpu × TInput)}
    (habove : m.RealTimeAbove) (h : Run (LockState.Steps tableCode) (TState.start m) as s) :
    ¬ MutualWait s := by
  have hstep : ∀ s a s', LockState.Steps tableCode s a s' → TInv s → TInv s' := by
    rintro s ⟨t, i⟩ s' hs I
    exact I.next hs
  have hstart : TInv (TState.start m) := by
    refine ⟨⟨?_, ?_⟩, habove, ?_, trivial⟩
    · intro t
      cases t <;> trivial
    · simp [TState.start, held]
    · intro b hb
      cases hb
  exact (h.invariant hstep hstart).not_mutualWait

/-- A running process and its runnable `SCHED_FIFO` child; `initproc` has slot 0. -/
def Table.family (parent child : ProcId) : Table where
  proc q := ⟨if q = parent then .RUNNING else if q = child then .RUNNABLE else .UNUSED,
    if q = child then .SCHED_FIFO else .SCHED_NORMAL, 5, 0, 0,
    if q = child then some parent else none, none, none, false⟩
  initproc := 0

theorem family_realTimeAbove {parent child : ProcId} (h : parent < child) :
    (Table.family parent child).RealTimeAbove := by
  have hreal : ∀ c, (Table.family parent child).RealTime c → c = child := by
    intro c hc
    by_contra hne
    simp [Table.RealTime, Table.family, hne] at hc
  have hparent : ∀ c q, ((Table.family parent child).proc c).parent = some q →
      c = child ∧ q = parent := by
    intro c q hq
    simp only [Table.family, Option.ite_none_right_eq_some, Option.some.injEq] at hq
    exact ⟨hq.1, hq.2.symm⟩
  have hpos : 0 < child := lt_of_le_of_lt (Fin.zero_le parent) h
  have helder : ∀ q r, (Table.family parent child).Elder q r → q = child := by
    rintro q r (hr | hr)
    · exact (hparent q r hr).1
    · cases hr
  refine ⟨?_, ?_, ?_, ?_⟩
  · intro c hc
    rw [hreal c hc]
    exact hpos
  · intro c r _ hr
    exact absurd (helder _ r hr) (ne_of_lt hpos)
  · intro c q hc hq
    rw [hreal c hc, (hparent c q hq).2]
    exact h
  · intro c q r _ hq hr
    exact absurd ((hparent c q hq).2.symm.trans (helder q r hr)) (ne_of_lt h)

/-- The scheduler takes the child's lock and goes on to slot 3, then the parent waits for it. -/
def orderedScan : List (TCpu × TInput) :=
  List.replicate 13 (.sched, .find .rt) ++ List.replicate 5 (.call, .wait 1)

theorem scan_and_wait_never_deadlock_ordered :
    ∃ s, Run (LockState.Steps tableCode) (TState.start (.family 1 2)) orderedScan s ∧
      s.pc .sched = .findLock .rt 3 (some 2) 5 ∧ s.pc .call = .waitLockChild 1 2 ∧
      ¬ MutualWait s := by
  obtain ⟨s, hrun, hsched, hcall⟩ : ∃ s, Run (LockState.Steps tableCode)
      (TState.start (.family 1 2)) orderedScan s ∧ s.pc .sched = .findLock .rt 3 (some 2) 5 ∧
      s.pc .call = .waitLockChild 1 2 := Run.exists_exec
  exact ⟨s, hrun, hsched, hcall,
    scan_and_wait_never_deadlock (family_realTimeAbove (by decide)) hrun⟩

/-- The parent has its own lock when the scheduler, with the child's lock, comes to its slot. -/
def crossedScan : List (TCpu × TInput) :=
  List.replicate 2 (.call, .wait 3) ++ List.replicate 13 (.sched, .find .rt) ++
    List.replicate 3 (.call, .wait 3)

/-- The child has slot 2 and its parent slot 3. -/
theorem scan_and_wait_deadlock_crossed :
    ∃ s, Run (LockState.Steps tableCode) (TState.start (.family 3 2)) crossedScan s ∧
      MutualWait s := by
  refine (Run.exists_exec (P := fun s => (s.wants tableCode .sched = some 3 ∧
    s.holder 3 = some .call) ∧ s.wants tableCode .call = some 2 ∧ s.holder 2 = some .sched)
    ?_).imp fun s h => ⟨h.1, ⟨_, h.2.1⟩, ⟨_, h.2.2⟩⟩
  decide +kernel

end Yyds.Sync
