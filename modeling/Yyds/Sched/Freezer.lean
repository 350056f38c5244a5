import Yyds.Sched.Inv

/-! The freezer and the CPU affinity masks, beside the scheduler: `freezer.c` and `cpuaffinity.c`. -/
namespace Yyds.Sched

open Lib Function
open Mm (ProcId)

def MAX_FROZEN_PROCS : Nat := 32
def FREEZE_REASON_LOWMEM : Int := 3
def MAX_CPUS : Nat := 8

inductive FreezeState
  | THAWED
  | FREEZING
  | FROZEN
  deriving DecidableEq

/-- `struct frozen_proc` -/
structure FrozenProc where
  used : Bool
  pid : Int
  freeze_state : FreezeState
  freeze_reason : Int
  freeze_time : BitVec 64
  thaw_time : BitVec 64
  frozen_duration : BitVec 64

/-- `struct freezer_manager` -/
structure Freezer where
  frozen : Fin MAX_FROZEN_PROCS → FrozenProc
  frozen_count : Int
  total_freezes : BitVec 64
  total_thaws : BitVec 64
  total_frozen_time : BitVec 64
  oom_freezes : BitVec 64

def freezer_init : Freezer := ⟨fun _ => ⟨false, 0, .THAWED, 0, 0, 0, 0⟩, 0, 0, 0, 0, 0⟩

def find_frozen_record (pid : Int) (fz : Freezer) : Option (Fin MAX_FROZEN_PROCS) :=
  (List.finRange MAX_FROZEN_PROCS).find? fun i => (fz.frozen i).used ∧ (fz.frozen i).pid = pid

def alloc_frozen_record (fz : Freezer) : Option (Fin MAX_FROZEN_PROCS) :=
  (List.finRange MAX_FROZEN_PROCS).find? fun i => !(fz.frozen i).used

/-- The records after `pid` has been frozen. -/
def Freezer.record (pid reason : Int) (ticks : BitVec 32) (fz : Freezer) : Freezer :=
  let fz :=
    match find_frozen_record pid fz <|> alloc_frozen_record fz with
    | none => fz
    | some i =>
      { fz with
        frozen := update fz.frozen i
          { fz.frozen i with
            used := true, pid, freeze_state := .FROZEN, freeze_reason := reason
            freeze_time := ticks.setWidth 64 }
        frozen_count := fz.frozen_count + 1 }
  { fz with
    total_freezes := fz.total_freezes + 1
    oom_freezes := if reason = FREEZE_REASON_LOWMEM then fz.oom_freezes + 1 else fz.oom_freezes }

/-- The records after `pid` has been thawed. -/
def Freezer.erase (pid : Int) (ticks : BitVec 32) (fz : Freezer) : Freezer :=
  let fz :=
    match find_frozen_record pid fz with
    | none => fz
    | some i =>
      let lasted := ticks.setWidth 64 - (fz.frozen i).freeze_time
      { fz with
        frozen := update fz.frozen i
          { fz.frozen i with
            used := false, freeze_state := .THAWED, thaw_time := ticks.setWidth 64
            frozen_duration := (fz.frozen i).frozen_duration + lasted }
        frozen_count := fz.frozen_count - 1
        total_frozen_time := fz.total_frozen_time + lasted }
  { fz with total_thaws := fz.total_thaws + 1 }

/-- The process `pid` that is not unused. -/
def liveProc (pid : Int) (proc : Table) : Option ProcId :=
  firstProc fun p => (proc p).pid = pid ∧ (proc p).state ≠ .UNUSED

def freeze_process (pid reason : Int) (ticks : BitVec 32) (proc : Table) (fz : Freezer) :
    Int × Table × Freezer :=
  match liveProc pid proc with
  | none => (-1, proc, fz)
  | some p =>
    if (proc p).frozen then (0, proc, fz)
    -- `init` cannot be frozen
    else if pid = 1 then (-1, proc, fz)
    else
      (0, update proc p { proc p with frozen := true, freeze_reason := reason },
        fz.record pid reason ticks)

def thaw_process (pid : Int) (ticks : BitVec 32) (proc : Table) (fz : Freezer) :
    Int × Table × Freezer :=
  match liveProc pid proc with
  | none => (-1, proc, fz)
  | some p =>
    if (proc p).frozen then
      (0, update proc p { proc p with frozen := false, freeze_reason := 0 },
        fz.erase pid ticks)
    else (0, proc, fz)

/-- `aff_mgr.num_cpus` after `cpuaffinity_init` -/
def num_cpus : Nat := if NCPU > MAX_CPUS then MAX_CPUS else NCPU

def sched_setaffinity (pid : Int) (mask : BitVec 32) (proc : Table) : Int × Table :=
  if mask = 0 then (-1, proc)
  else
    let valid_mask := (1#32 <<< num_cpus) - 1
    let mask := mask &&& valid_mask
    if mask = 0 then (-1, proc)
    else
      match liveProc pid proc with
      | none => (-1, proc)
      | some p => (0, update proc p { proc p with cpu_affinity := mask })

def cpu_allowed (q : Proc) (cpu : Int) : Bool :=
  if cpu < 0 ∨ cpu ≥ num_cpus then false
  else q.cpu_affinity &&& (1#32 <<< cpu.toNat) != 0

/-! ### The machine -/

/-- The scheduler, the records of the freezer, and the processes that a call of `freeze_process`
which returned 0 has frozen and no call of `thaw_process` has thawed since. -/
structure Machine where
  sched : State
  freezer : Freezer
  held : ProcId → Bool

inductive MAct
  | sched (a : Act)
  | freeze (pid reason : Int) (ticks : BitVec 32)
  | thaw (pid : Int) (ticks : BitVec 32)
  | affinity (pid : Int) (mask : BitVec 32)

def Machine.step (x : Machine) : MAct → Option Machine
  | .sched a => (Sched.step x.sched a).map fun t =>
    -- a process that is gone is held no more
    { x with sched := t, held := fun p => x.held p && (t.proc p).state ≠ .UNUSED }
  | .freeze pid reason ticks =>
    let r := freeze_process pid reason ticks x.sched.proc x.freezer
    some
      { sched := { x.sched with proc := r.2.1 }
        freezer := r.2.2
        held := fun p => x.held p || (r.1 = 0 ∧ liveProc pid x.sched.proc = some p) }
  | .thaw pid ticks =>
    let r := thaw_process pid ticks x.sched.proc x.freezer
    some
      { sched := { x.sched with proc := r.2.1 }
        freezer := r.2.2
        held := fun p => x.held p && liveProc pid x.sched.proc ≠ some p }
  | .affinity pid mask =>
    some { x with sched := { x.sched with proc := (sched_setaffinity pid mask x.sched.proc).2 } }

def MSteps (x : Machine) (a : MAct) (y : Machine) : Prop := x.step a = some y

def Machine.init : Machine := ⟨.init, freezer_init, fun _ => false⟩

/-- A process is not frozen while it is `RUNNABLE`, it does not become `RUNNABLE` before it is
thawed, and a mask names every CPU. -/
def Cautious (x : Machine) : MAct → Prop
  | .freeze pid _ _ => ∀ p ∈ liveProc pid x.sched.proc, (x.sched.proc p).state ≠ .RUNNABLE
  | .affinity _ mask => ∀ c : CpuId, mask &&& (1#32 <<< c.val) ≠ 0
  | .sched (.wakeup p) => (x.sched.proc p).frozen = false
  | .sched (.back c st) =>
    st = .RUNNABLE → ∀ p, x.sched.cproc c = some p → (x.sched.proc p).frozen = false
  | _ => True

instance (x) : DecidablePred (Cautious x) := fun a => by
  cases a with
  | sched a => cases a <;> dsimp only [Cautious] <;> infer_instance
  | _ => dsimp only [Cautious]; infer_instance

/-- What holds of a process, where `held` says whether it is held. -/
structure Sound (held : Bool) (q : Proc) : Prop where
  frozen : held = true → q.state ≠ .UNUSED ∧ q.frozen = true
  runnable : q.state = .RUNNABLE → q.frozen = false
  allowed : q.state ≠ .UNUSED → ∀ c : CpuId, cpu_allowed q c.val = true

structure MInv (x : Machine) : Prop where
  inv : Inv x.sched
  sound : ∀ p, Sound (x.held p) (x.sched.proc p)

variable {s t : State} {a : Act} {p : ProcId} {x y : Machine} {c : CpuId}
  {q : Proc} {proc : Table} {pid : Int} {ticks : BitVec 32}

theorem Sound.mono {b b' : Bool} (h : Sound b q) (hb : b' = true → b = true) : Sound b' q :=
  ⟨fun hb' => h.frozen (hb hb'), h.runnable, h.allowed⟩

/-! ### Steps of the scheduler -/

theorem cpu_allowed_iff : cpu_allowed q c.val = true ↔
    q.cpu_affinity &&& (1#32 <<< c.val) ≠ 0 := by
  have hlt : ¬ ((c.val : Int) < 0 ∨ (c.val : Int) ≥ num_cpus) := by
    have hnum : num_cpus = NCPU := rfl
    omega
  unfold cpu_allowed
  rw [if_neg hlt, Int.toNat_natCast, bne_iff_ne]

theorem sound_allocated (q : Proc) (hq : q.state = .UNUSED) (pid : Int) (r : AllocEnd) :
    Sound false (q.allocated pid r) := by
  cases r with
  | runnable =>
    have hmask : ∀ c : CpuId, (0xFF : BitVec 32) &&& (1#32 <<< c.val) ≠ 0 := by decide
    exact ⟨nofun, fun _ => rfl, fun _ c => cpu_allowed_iff.mpr (hmask c)⟩
  | noPage =>
    refine ⟨nofun, fun hrun => ?_, fun hlive => absurd hq hlive⟩
    cases hq.symm.trans hrun
  | freed => exact ⟨nofun, nofun, fun hlive => absurd rfl hlive⟩

theorem MInv.sched_step (hx : MInv x) (h : Steps x.sched a t) (hc : Cautious x (.sched a))
    (p : ProcId) : Sound (x.held p && (t.proc p).state ≠ .UNUSED) (t.proc p) := by
  have hp := hx.sound p
  rcases step_proc h p with heq | htouch
  · rw [heq]
    exact hp.mono fun hb => (Bool.and_eq_true_iff.mp hb).1
  rcases htouch.moved with ⟨r, hst, heq⟩ | ⟨hmoved, hfrozen, hmask⟩
  · -- the place was free, so that nothing was held there
    have hheld : x.held p = false := Bool.eq_false_iff.mpr fun hheld => (hp.frozen hheld).1 hst
    rw [hheld, Bool.false_and, heq]
    exact sound_allocated _ hst _ r
  refine ⟨fun hb => ?_, fun hrun => ?_, fun hlive c => ?_⟩
  · obtain ⟨hheld, hlive⟩ := Bool.and_eq_true_iff.mp hb
    exact ⟨of_decide_eq_true hlive, hfrozen.trans (hp.frozen hheld).2⟩
  · rw [hfrozen]
    rw [hrun] at hmoved
    generalize hr : Kernel.ProcState.RUNNABLE = st at hmoved
    cases hmoved with
    | same => exact hp.runnable hr.symm
    | freed | started => cases hr
    | woken => exact hc
    | back hcpu => exact hc hr.symm p hcpu
  · have hold : (x.sched.proc p).state ≠ .UNUSED := by
      intro hunused
      generalize (t.proc p).state = st at hmoved hlive
      cases hmoved with
      | same => exact hlive hunused
      | freed => exact hlive rfl
      | woken hst | started hst => cases hst.symm.trans hunused
      | back hcpu => cases (hx.inv.running _ p hcpu).symm.trans hunused
    have hallowed := hp.allowed hold c
    rw [cpu_allowed_iff] at hallowed ⊢
    rw [hmask]
    exact hallowed

/-! ### Steps of the freezer -/

theorem liveProc_some (h : liveProc pid proc = some p) :
    (proc p).pid = pid ∧ (proc p).state ≠ .UNUSED := by
  simpa using firstProc_some h

theorem MInv.release (hx : MInv x) {held : ProcId → Bool} (fz : Freezer)
    (h : ∀ p, held p = true → x.held p = true) : MInv ⟨x.sched, fz, held⟩ :=
  ⟨hx.inv, fun p => (hx.sound p).mono (h p)⟩

/-- The entry of a process changes in its flags, and at most its own hold is new. -/
theorem MInv.replace (hx : MInv x) {held : ProcId → Bool} (fz : Freezer)
    (hq : q.state = (x.sched.proc p).state) (hsound : Sound (held p) q)
    (hheld : ∀ z, z ≠ p → held z = true → x.held z = true) :
    MInv ⟨{ x.sched with proc := update x.sched.proc p q }, fz, held⟩ := by
  have hstate (z : ProcId) : (update x.sched.proc p q z).state = (x.sched.proc z).state := by
    by_cases hz : z = p
    · rw [hz, update_self]
      exact hq
    · rw [update_of_ne hz]
  refine ⟨⟨fun c z hc => (hstate z).trans (hx.inv.running c z hc), hx.inv.one_cpu,
    hx.inv.selecting⟩, fun z => ?_⟩
  dsimp only
  by_cases hz : z = p
  · rw [hz, update_self]
    exact hsound
  · rw [update_of_ne hz]
    exact (hx.sound z).mono (hheld z hz)

theorem MInv.freeze (hx : MInv x) {reason : Int} (h : MSteps x (.freeze pid reason ticks) y)
    (hc : Cautious x (.freeze pid reason ticks)) : MInv y := by
  cases h
  unfold freeze_process
  cases hp : liveProc pid x.sched.proc with
  | none => exact hx.release _ (by simp)
  | some p =>
    have hlive := (liveProc_some hp).2
    have hold := hx.sound p
    dsimp only
    split
    · rename_i hfrozen
      rw [← update_eq_self p x.sched.proc]
      exact hx.replace _ rfl ⟨fun _ => ⟨hlive, hfrozen⟩, hold.runnable, hold.allowed⟩
        fun z hz => by simp [hz.symm]
    · split
      · exact hx.release _ (by simp)
      · exact hx.replace _ rfl
          ⟨fun _ => ⟨hlive, rfl⟩, fun hst => absurd hst (hc p hp), hold.allowed⟩
          fun z hz => by simp [hz.symm]

theorem MInv.thaw (hx : MInv x) (h : MSteps x (.thaw pid ticks) y) : MInv y := by
  have hless (p : ProcId) (h : (x.held p && liveProc pid x.sched.proc ≠ some p) = true) :
      x.held p = true := (Bool.and_eq_true_iff.mp h).1
  cases h
  unfold thaw_process
  split
  · exact hx.release _ hless
  · rename_i p hp
    split
    · exact hx.replace _ rfl ⟨by simp [hp], fun _ => rfl, (hx.sound p).allowed⟩ fun z _ => hless z
    · exact hx.release _ hless

theorem MInv.affinity (hx : MInv x) {mask : BitVec 32} (h : MSteps x (.affinity pid mask) y)
    (hc : Cautious x (.affinity pid mask)) : MInv y := by
  cases h
  unfold sched_setaffinity
  split
  · exact hx
  dsimp only
  split
  · exact hx
  cases hp : liveProc pid x.sched.proc with
  | none => exact hx
  | some p =>
    have hold := hx.sound p
    refine hx.replace _ rfl ⟨hold.frozen, hold.runnable, fun _ c => ?_⟩ fun z _ => id
    have hbit : ((1#32 <<< num_cpus) - 1) &&& (1#32 <<< c.val) = 1#32 <<< c.val := by
      revert c
      decide
    rw [cpu_allowed_iff]
    rw [BitVec.and_assoc, hbit]
    exact hc c

theorem MInv.step (hx : MInv x) {a : MAct} (h : MSteps x a y) (hc : Cautious x a) : MInv y := by
  cases a with
  | sched a =>
    obtain ⟨t, ht, rfl⟩ := Option.map_eq_some_iff.mp h
    exact ⟨hx.inv.step ht, hx.sched_step ht hc⟩
  | freeze pid reason ticks => exact hx.freeze h hc
  | thaw pid ticks => exact hx.thaw h
  | affinity pid mask => exact hx.affinity h hc

/-- If no process is `RUNNABLE` while it is frozen and no mask leaves out a CPU, then a scheduler
switches to no process that `freeze_process` has frozen, and to none that its CPU is not allowed
for. -/
theorem frozen_not_run {xs : List MAct} (h : Run (Guarded Cautious MSteps) .init xs x)
    (hrun : MSteps x (.sched (.run c)) y) (hp : y.sched.cproc c = some p) :
    x.held p = false ∧ cpu_allowed (x.sched.proc p) c.val = true := by
  have hinit : MInv .init := ⟨.init, fun _ => ⟨nofun, nofun, fun h => absurd rfl h⟩⟩
  have hx : MInv x := h.invariant (fun _ _ _ hst hx => hx.step hst.2 hst.1) hinit
  obtain ⟨t, ht, rfl⟩ := Option.map_eq_some_iff.mp hrun
  have hst : (x.sched.proc p).state = .RUNNABLE := by
    cases step_locals ht with
    | other ha => cases ha
    | run _ hst _ hcproc =>
      rw [hcproc, update_self] at hp
      cases hp
      exact hst
    | skip hcproc =>
      obtain ⟨z, hz, _⟩ := Option.map_eq_some_iff.mp ht
      rw [hcproc, hx.inv.selecting c z hz] at hp
      cases hp
  have hsound := hx.sound p
  refine ⟨Bool.eq_false_iff.mpr fun hheld => ?_, hsound.allowed (by rw [hst]; nofun) c⟩
  cases (hsound.frozen hheld).2.symm.trans (hsound.runnable hst)

/-- The first process runs while the second sleeps and is frozen. -/
theorem frozen_not_run_other : ∃ xs x y, Run (Guarded Cautious MSteps) .init xs x ∧
    MSteps x (.sched (.run 0)) y ∧ y.sched.cproc 0 = some 0 ∧ x.held 1 = true ∧
    x.held 0 = false ∧ cpu_allowed (x.sched.proc 0) 0 = true := by
  obtain ⟨x, hrun, hheld, y, hy, hcpu⟩ : ∃ x, Run (Guarded Cautious MSteps) .init
      [.sched (.allocproc .runnable), .sched (.allocproc .runnable),
        .sched (.select 0 0), .sched (.run 0), .sched (.back 0 .SLEEPING),
        .sched (.select 0 0), .sched (.run 0), .sched (.back 0 .SLEEPING),
        .freeze 2 1 0, .sched (.wakeup 0), .affinity 1 0xFF, .sched (.select 0 1)] x ∧
      x.held 1 = true ∧ ∃ y ∈ x.step (.sched (.run 0)), y.sched.cproc 0 = some 0 :=
    Run.exists_foldlM
  exact ⟨_, x, y, hrun, hy, hcpu, hheld, frozen_not_run hrun hy hcpu⟩

/-- The scheduler of CPU 0 switches to a frozen process that is bound to CPU 1. -/
theorem frozen_pinned_process_runs : ∃ xs x y, Run MSteps .init xs x ∧
    MSteps x (.sched (.run 0)) y ∧ y.sched.cproc 0 = some 1 ∧
    x.held 1 = true ∧ cpu_allowed (x.sched.proc 1) 0 = false := by
  obtain ⟨x, hrun, y, hy, h⟩ : ∃ x, Run MSteps .init
      [.sched (.allocproc .runnable), .sched (.allocproc .runnable),
        .sched (.select 0 0), .sched (.run 0), .sched (.back 0 .SLEEPING),
        .freeze 2 1 0, .affinity 2 2, .sched (.select 0 1)] x ∧
      ∃ y ∈ x.step (.sched (.run 0)), y.sched.cproc 0 = some 1 ∧
        x.held 1 = true ∧ cpu_allowed (x.sched.proc 1) 0 = false :=
    Run.exists_exec
  exact ⟨_, x, y, hrun, hy, h⟩

end Yyds.Sched
