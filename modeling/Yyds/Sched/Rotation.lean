import Yyds.Sched.Select

/-! The loop of `scheduler` on one CPU with real-time processes that never wait. -/
namespace Yyds.Sched

open Lib Function
open Mm (ProcId)

/-- One iteration of the loop whose process comes back `RUNNABLE`, and the process it has run. -/
def dispatch (c : CpuId) (s : State) (ticks : BitVec 32) : Option (ProcId × State) := do
  let s ← step s (.select c ticks)
  let s ← step s (.run c)
  let p ← s.cproc c
  let s ← step s (.back c .RUNNABLE)
  pure (p, s)

/-- The processes that iterations at these ticks run. -/
def dispatched (c : CpuId) : State → List (BitVec 32) → List ProcId
  | _, [] => []
  | s, ticks :: rest =>
    match dispatch c s ticks with
    | none => []
    | some (p, t) => p :: dispatched c t rest

/-- Nothing runs on the CPU and there is no deadline process. -/
def Idle (c : CpuId) (s : State) : Prop :=
  s.cproc c = none ∧ s.selected c = none ∧ ∀ p, (s.proc p).sched_policy ≠ .SCHED_DEADLINE
  deriving Decidable

/-- The processes of `R` can all run and have the policy `SCHED_RR` with the highest priority, one
that `sched_setscheduler` accepts. -/
def Robin (R : Finset ProcId) (priority : Int) (proc : Table) : Prop :=
  0 ≤ priority ∧
  (∀ p ∈ R, (proc p).state = .RUNNABLE ∧ (proc p).sched_policy = .SCHED_RR ∧
    (proc p).rt_priority = priority) ∧
  ∀ p ∉ R, (proc p).RealTime → (proc p).rt_priority < priority
  deriving Decidable

variable {c : CpuId} {R : Finset ProcId} {priority : Int} {s : State} {p : ProcId}

/-- The entries are the same for `find_rt_process`. -/
def SameRt (proc proc' : Table) : Prop := ∀ p, (proc' p).state = (proc p).state ∧
  (proc' p).sched_policy = (proc p).sched_policy ∧ (proc' p).rt_priority = (proc p).rt_priority

theorem SameRt.find_eq {proc proc' : Table} (h : SameRt proc proc') :
    find_rt_process proc' = find_rt_process proc := by
  simp only [find_rt_process, Proc.RealTime, (h _).1, (h _).2.1, (h _).2.2]
  congr

theorem selects_sameRt (c : CpuId) (s : State) (ticks : BitVec 32) :
    SameRt s.proc (s.selects c ticks).proc := by
  intro x
  dsimp only [State.selects, update_deadline_periods]
  split
  · obtain ⟨l, m, hb⟩ := (s.proc x).boost_with
    obtain ⟨d, r, hn⟩ := (s.proc x).boost.newPeriod_with ticks
    rw [mlfq_priority_boost, hn, hb]
    exact ⟨rfl, rfl, rfl⟩
  · obtain ⟨d, r, hn⟩ := (s.proc x).newPeriod_with ticks
    rw [hn]
    exact ⟨rfl, rfl, rfl⟩

theorem select_of_rt {proc : Table} (h : ∀ x, (proc x).sched_policy ≠ .SCHED_DEADLINE)
    (hp : find_rt_process proc = some p) : select proc = some p := by
  rcases select_cases proc with ⟨x, hx, _⟩ | ⟨_, x, hx, hsel⟩ | ⟨_, hx, _⟩
  · exact absurd (find_deadline_process_some hx).1.2.1 (h x)
  · rw [hsel, ← hx, hp]
  · cases hp.symm.trans hx

/-- An iteration runs the process the scan finds, and the next scan finds it again. -/
theorem dispatch_eq (h : Idle c s) (hp : find_rt_process s.proc = some p) (ticks : BitVec 32) :
    ∃ t, dispatch c s ticks = some (p, t) ∧ Idle c t ∧ find_rt_process t.proc = some p := by
  obtain ⟨hcproc, hnone, hpol⟩ := h
  have hsame := selects_sameRt c s ticks
  have hrt := (find_rt_process_some hp).1.1
  have hsel : (s.selects c ticks).selected c = some p := (update_self ..).trans <|
    select_of_rt (fun x => (hsame x).2.1 ▸ hpol x) (hsame.find_eq.trans hp)
  set u := s.selects c ticks with hu
  have hruns : u.runs c p = { { u with selected := update u.selected c none }.set p
      { u.proc p with state := .RUNNING } with cproc := update u.cproc c (some p) } :=
    if_pos ((hsame p).1.trans hrt)
  obtain ⟨l, m, r, hcharge⟩ := { u.proc p with state := .RUNNING }.charge_with .RUNNABLE
  have hkeep : SameRt s.proc ((u.runs c p).returns c p .RUNNABLE).proc := by
    intro x
    rw [hruns]
    by_cases hx : x = p
    · subst hx
      simp only [State.returns, State.set, update_self, hcharge]
      exact ⟨hrt.symm, (hsame x).2⟩
    · simp only [State.returns, State.set, update_of_ne hx]
      exact hsame x
  refine ⟨(u.runs c p).returns c p .RUNNABLE, ?_, ⟨update_self .., ?_, fun x => ?_⟩,
    hkeep.find_eq.trans hp⟩
  · simp [dispatch, step, hcproc, hnone, ← hu, hsel, hruns]
  · rw [hruns]
    exact update_self ..
  · rw [(hkeep x).2.1]
    exact hpol x

/-- All iterations run one process. -/
theorem dispatched_eq (h : Idle c s) (hp : find_rt_process s.proc = some p)
    (ticks : List (BitVec 32)) : dispatched c s ticks = List.replicate ticks.length p := by
  induction ticks generalizing s with
  | nil => rfl
  | cons now ticks ih =>
    obtain ⟨t, hd, ht, hpt⟩ := dispatch_eq h hp now
    rw [dispatched, hd]
    exact congrArg _ (ih ht hpt)

theorem Robin.exists_find {proc : Table} (h : Robin R priority proc) (hp : p ∈ R) :
    ∃ x ∈ R, find_rt_process proc = some x := by
  obtain ⟨hnonneg, hready, hhighest⟩ := h
  obtain ⟨hrun, hpol, hprio⟩ := hready p hp
  have hrt : (proc p).RealTime := ⟨hrun, .inr hpol⟩
  cases hx : find_rt_process proc with
  | none =>
    have hle : (proc p).rt_priority ≤ -1 := scanMin_none hx (List.mem_finRange p) hrt
    omega
  | some x =>
    obtain ⟨hxrt, hmax⟩ := find_rt_process_some hx
    refine ⟨x, ?_, rfl⟩
    by_contra hout
    have := hmax p hrt
    have := hhighest x hout hxrt
    omega

/-- The `k` processes take turns, each once in any `k` iterations in a row, only if `k ≤ 1`: the
scan always begins at the first entry of the table. -/
theorem rr_rotates_iff {c : CpuId} {R : Finset ProcId} {priority : Int} {s : State}
    (h : Idle c s) (hR : Robin R priority s.proc) :
    (∀ (ticks : List (BitVec 32)) (n : Nat), n + R.card ≤ ticks.length → ∀ p ∈ R,
      (((dispatched c s ticks).drop n).take R.card).count p = 1) ↔ R.card ≤ 1 := by
  constructor
  · intro hturns
    by_contra hcard
    obtain ⟨p, hp⟩ : R.Nonempty := Finset.card_pos.mp (by omega)
    obtain ⟨x, _, hfind⟩ := hR.exists_find hp
    obtain ⟨y, hy, hne⟩ := Finset.exists_mem_ne (not_le.mp hcard) x
    have hcount := hturns (List.replicate R.card 0) 0 (by simp) y hy
    rw [dispatched_eq h hfind, List.length_replicate, List.drop_zero, List.take_replicate,
      List.count_replicate, if_neg (by simpa using hne.symm)] at hcount
    cases hcount
  · intro hcard ticks n hn p hp
    obtain ⟨x, hx, hfind⟩ := hR.exists_find hp
    obtain rfl : x = p := Finset.card_le_one.mp hcard x hx p hp
    have hpos := Finset.card_pos.mpr ⟨x, hp⟩
    have hmin : min R.card (ticks.length - n) = 1 := by omega
    rw [dispatched_eq h hfind, List.drop_replicate, List.take_replicate, hmin,
      List.count_replicate_self]

theorem rr_rotates_one : ∃ s, Run Steps .init [.allocproc .runnable, .setscheduler 1 2 50] s ∧
    (((dispatched 0 s [7, 8, 9]).drop 2).take 1).count 0 = 1 := by
  obtain ⟨s, hrun, hidle, hrobin⟩ : ∃ s, Run Steps .init
      [.allocproc .runnable, .setscheduler 1 2 50] s ∧ Idle 0 s ∧ Robin {0} 50 s.proc :=
    Run.exists_exec
  exact ⟨s, hrun, (rr_rotates_iff hidle hrobin).mpr (by decide) _ 2 (by decide) 0 (by decide)⟩

/-- Of two `SCHED_RR` processes with one priority the second never runs. -/
theorem rr_starves : ∃ s, Run Steps .init [.allocproc .runnable, .allocproc .runnable,
    .setscheduler 1 2 50, .setscheduler 2 2 50] s ∧ Idle 0 s ∧ Robin {0, 1} 50 s.proc ∧
    dispatched 0 s [0, 1, 2, 3] = [0, 0, 0, 0] := Run.exists_exec

end Yyds.Sched
