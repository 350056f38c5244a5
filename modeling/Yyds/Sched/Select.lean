import Yyds.Sched.Table

/-! What the selection of `scheduler` takes, and what the calls that set policies keep. -/
namespace Yyds.Sched

open Lib
open Mm (ProcId)

/-! ### The three scans -/

/-- The choice is a deadline process with the earliest deadline, else a real-time process with the
highest priority, else a normal process of the lowest level, and there is none only if there is no
process of these three kinds. -/
structure Picks (proc : Table) (r : Option ProcId) : Prop where
  deadline : (∃ p, (proc p).Eligible) →
    ∃ p, r = some p ∧ (proc p).Eligible ∧
      ∀ x, (proc x).Eligible → (proc p).deadline ≤ (proc x).deadline
  realTime : (¬ ∃ p, (proc p).Eligible) → (∃ p, (proc p).RealTime) →
    ∃ p, r = some p ∧ (proc p).RealTime ∧
      ∀ x, (proc x).RealTime → (proc x).rt_priority ≤ (proc p).rt_priority
  normal : (¬ ∃ p, (proc p).Eligible) → (¬ ∃ p, (proc p).RealTime) → (∃ p, (proc p).Normal) →
    ∃ p, r = some p ∧ (proc p).Normal ∧
      ∀ x, (proc x).Normal → (proc p).mlfq_level ≤ (proc x).mlfq_level
  idle : r = none → ∀ p, ¬ (proc p).Eligible ∧ ¬ (proc p).RealTime ∧ ¬ (proc p).Normal

/-- Every deadline that counts is the one `find_deadline_process` begins its scan with. -/
def AllLatest (proc : Table) : Prop :=
  (∃ p, (proc p).Eligible) ∧ ∀ p, (proc p).Eligible → (proc p).deadline = BitVec.allOnes 64

/-- The values the scans of `scheduler` are made for. -/
structure Proc.InRange (q : Proc) : Prop where
  level_nonneg : 0 ≤ q.mlfq_level
  level_lt : q.mlfq_level < MLFQ_LEVELS
  priority_nonneg : 0 ≤ q.rt_priority

theorem levels_pos : (0 : Int) < MLFQ_LEVELS := by decide

variable {proc : Table} {p : ProcId} {q : Proc} {s : State} {a : Act} {xs : List Act}

theorem find_deadline_process_some (h : find_deadline_process proc = some p) :
    (proc p).Eligible ∧ (proc p).deadline ≠ BitVec.allOnes 64 ∧
    ∀ x, (proc x).Eligible → (proc p).deadline ≤ (proc x).deadline := by
  obtain ⟨hel, hlt, hmin⟩ := scanMin_some h
  refine ⟨hel, ?_, fun x hx => hmin x (List.mem_finRange x) hx⟩
  intro heq
  rw [heq] at hlt
  exact absurd hlt (by decide)

theorem find_deadline_process_none (h : find_deadline_process proc = none)
    (hp : (proc p).Eligible) : (proc p).deadline = BitVec.allOnes 64 := by
  have hle := scanMin_none h (List.mem_finRange p) hp
  apply BitVec.eq_of_toNat_eq
  rw [BitVec.toNat_allOnes]
  omega

theorem find_rt_process_some (h : find_rt_process proc = some p) :
    (proc p).RealTime ∧ ∀ x, (proc x).RealTime → (proc x).rt_priority ≤ (proc p).rt_priority := by
  obtain ⟨hrt, _, hmin⟩ := scanMin_some h
  exact ⟨hrt, fun x hx => hmin x (List.mem_finRange x) hx⟩

theorem find_rt_process_none (hin : ∀ p, (proc p).InRange) (h : find_rt_process proc = none)
    (p : ProcId) : ¬ (proc p).RealTime := by
  intro hp
  have hle : (proc p).rt_priority ≤ -1 := scanMin_none h (List.mem_finRange p) hp
  have := (hin p).priority_nonneg
  omega

theorem firstProc_none {f : ProcId → Bool} (h : firstProc f = none) (p : ProcId) : f p = false := by
  simpa using List.find?_eq_none.mp h p (List.mem_finRange p)

theorem find_mlfq_process_some (hin : ∀ p, (proc p).InRange) (h : find_mlfq_process proc = some p) :
    (proc p).Normal ∧ ∀ x, (proc x).Normal → (proc p).mlfq_level ≤ (proc x).mlfq_level := by
  obtain ⟨level, _, hp, hless⟩ := findSome?_range_some h
  obtain ⟨hnormal, hlevel⟩ : (proc p).Normal ∧ (proc p).mlfq_level = level := by
    simpa using firstProc_some hp
  refine ⟨hnormal, fun x hx => ?_⟩
  by_contra hlt
  -- the level of `x` is one of those the loop has passed
  have hx0 := (hin x).level_nonneg
  have hnone := firstProc_none (hless (proc x).mlfq_level.toNat (by omega)) x
  have hxlevel : (proc x).mlfq_level = ((proc x).mlfq_level.toNat : Int) := by omega
  exact absurd ⟨hx, hxlevel⟩ (of_decide_eq_false hnone)

theorem find_mlfq_process_normal (h : find_mlfq_process proc = some p) : (proc p).Normal := by
  obtain ⟨level, _, hp, _⟩ := findSome?_range_some h
  have hboth : (proc p).Normal ∧ (proc p).mlfq_level = level := by simpa using firstProc_some hp
  exact hboth.1

theorem find_mlfq_process_none (hin : ∀ p, (proc p).InRange) (h : find_mlfq_process proc = none)
    (p : ProcId) : ¬ (proc p).Normal := by
  intro hp
  have h0 := (hin p).level_nonneg
  have hlt := (hin p).level_lt
  have hmem : (proc p).mlfq_level.toNat ∈ List.range MLFQ_LEVELS := List.mem_range.mpr (by omega)
  have hnone := firstProc_none (List.findSome?_eq_none_iff.mp h _ hmem) p
  have hlevel : (proc p).mlfq_level = ((proc p).mlfq_level.toNat : Int) := by omega
  exact absurd ⟨hp, hlevel⟩ (of_decide_eq_false hnone)

theorem Proc.RealTime.not_eligible (h : q.RealTime) : ¬ q.Eligible := by
  rintro ⟨_, hpol, _⟩
  rcases h.2 with hrt | hrt <;> rw [hpol] at hrt <;> cases hrt

theorem Proc.Normal.not_eligible (h : q.Normal) : ¬ q.Eligible := by
  rintro ⟨_, hpol, _⟩
  have hnormal := h.2
  rw [hpol] at hnormal
  cases hnormal

theorem Proc.Normal.not_realTime (h : q.Normal) : ¬ q.RealTime := by
  rintro ⟨_, hrt | hrt⟩ <;> rw [h.2] at hrt <;> cases hrt

theorem select_cases (proc : Table) :
    (∃ p, find_deadline_process proc = some p ∧ select proc = some p) ∨
    find_deadline_process proc = none ∧ (∃ p, find_rt_process proc = some p ∧ select proc = some p) ∨
    find_deadline_process proc = none ∧ find_rt_process proc = none ∧
      select proc = find_mlfq_process proc := by
  unfold select
  cases hd : find_deadline_process proc with
  | some p => exact .inl ⟨p, rfl, rfl⟩
  | none =>
    cases hr : find_rt_process proc with
    | some p => exact .inr (.inl ⟨rfl, p, rfl, rfl⟩)
    | none => exact .inr (.inr ⟨rfl, rfl, rfl⟩)

theorem select_picks (hin : ∀ p, (proc p).InRange) :
    Picks proc (select proc) ↔ ¬ AllLatest proc := by
  constructor
  · rintro hpicks ⟨hex, hlate⟩
    obtain ⟨p, hp, hel, _⟩ := hpicks.deadline hex
    rcases select_cases proc with ⟨x, hx, hsel⟩ | ⟨_, x, hx, hsel⟩ | ⟨_, _, hsel⟩
    · obtain ⟨hxel, hne, _⟩ := find_deadline_process_some hx
      exact hne (hlate x hxel)
    · cases hp.symm.trans hsel
      exact (find_rt_process_some hx).1.not_eligible hel
    · exact (find_mlfq_process_some hin (hsel.symm.trans hp)).1.not_eligible hel
  · intro hlate
    have hnone (hd : find_deadline_process proc = none) : ¬ ∃ p, (proc p).Eligible :=
      fun hex => hlate ⟨hex, fun p hp => find_deadline_process_none hd hp⟩
    rcases select_cases proc with ⟨p, hp, hsel⟩ | ⟨hd, p, hp, hsel⟩ | ⟨hd, hr, hsel⟩
    · obtain ⟨hel, _, hmin⟩ := find_deadline_process_some hp
      rw [hsel]
      exact ⟨fun _ => ⟨p, rfl, hel, hmin⟩, fun hno => (hno ⟨p, hel⟩).elim,
        fun hno => (hno ⟨p, hel⟩).elim, fun h => by cases h⟩
    · obtain ⟨hrt, hmax⟩ := find_rt_process_some hp
      rw [hsel]
      exact ⟨fun hex => (hnone hd hex).elim, fun _ _ => ⟨p, rfl, hrt, hmax⟩,
        fun _ hno => (hno ⟨p, hrt⟩).elim, fun h => by cases h⟩
    · have hno := find_rt_process_none hin hr
      rw [hsel]
      refine ⟨fun hex => (hnone hd hex).elim, fun _ ⟨p, hp⟩ => (hno p hp).elim, fun _ _ hex => ?_,
        fun h p => ⟨fun hp => hnone hd ⟨p, hp⟩, hno p, find_mlfq_process_none hin h p⟩⟩
      cases hm : find_mlfq_process proc with
      | some p =>
        obtain ⟨hnormal, hmin⟩ := find_mlfq_process_some hin hm
        exact ⟨p, rfl, hnormal, hmin⟩
      | none =>
        obtain ⟨p, hp⟩ := hex
        exact (find_mlfq_process_none hin hm p hp).elim

/-! ### What every step keeps -/

theorem Proc.InRange.boost (h : q.InRange) : q.boost.InRange := by
  unfold Proc.boost
  split
  · exact ⟨le_rfl, levels_pos, h.priority_nonneg⟩
  · exact h

theorem Proc.InRange.newPeriod (h : q.InRange) (ticks : BitVec 32) :
    (q.newPeriod ticks).InRange := by
  obtain ⟨d, r, heq⟩ := q.newPeriod_with ticks
  rw [heq]
  exact ⟨h.level_nonneg, h.level_lt, h.priority_nonneg⟩

theorem Proc.InRange.charge (h : q.InRange) (st : Kernel.ProcState) : (q.charge st).InRange := by
  have h0 := h.level_nonneg
  have hlt := h.level_lt
  have hprio := h.priority_nonneg
  unfold Proc.charge
  dsimp only
  split
  · split
    · split <;> exact ⟨h0, hlt, hprio⟩
    · split
      · exact ⟨by dsimp only; omega, by dsimp only; omega, hprio⟩
      · exact ⟨h0, hlt, hprio⟩
    · exact ⟨h0, hlt, hprio⟩
    · exact ⟨h0, hlt, hprio⟩
  · exact ⟨h0, hlt, hprio⟩

theorem Touch.inRange (h : Touch s p a q) (hin : (s.proc p).InRange) : q.InRange := by
  have h0 := hin.level_nonneg
  have hlt := hin.level_lt
  have hprio := hin.priority_nonneg
  cases h with
  | allocproc r =>
    cases r with
    | noPage => exact ⟨h0, hlt, hprio⟩
    | runnable | freed => exact ⟨le_rfl, levels_pos, le_rfl⟩
  | freeproc | wakeup | run => exact ⟨h0, hlt, hprio⟩
  | setscheduler _ hrt =>
    unfold Proc.setPolicy
    split
    · rename_i hpol
      exact ⟨h0, hlt, hrt hpol⟩
    · exact ⟨h0, hlt, hprio⟩
  | setdeadline => exact ⟨h0, hlt, hprio⟩
  | select c ticks => exact hin.newPeriod ticks
  | boost c ticks => exact hin.boost.newPeriod ticks
  | back => exact hin.charge _

/-- A deadline process has a budget, and its period is at least that long. -/
def Proc.Budgeted (q : Proc) : Prop :=
  q.sched_policy = .SCHED_DEADLINE → 0 < q.runtime ∧ q.runtime ≤ q.period

/-- A process gets the deadline policy by `sched_setdeadline` only. -/
def NotByNumber (_ : State) : Act → Prop
  | .setscheduler _ policy _ => policy ≠ 3
  | _ => True

instance (s : State) : DecidablePred (NotByNumber s) := fun a => by
  refine a.casesOn ?_ ?_ ?_ ?_ ?_ ?_ ?_ ?_ <;> intros <;> dsimp only [NotByNumber] <;> infer_instance

theorem Policy.ofInt_deadline {policy : Int} (h : Policy.ofInt policy = some .SCHED_DEADLINE) :
    policy = 3 := by
  unfold Policy.ofInt at h
  split_ifs at h <;> first | assumption | cases h

theorem Proc.Budgeted.boost (h : q.Budgeted) : q.boost.Budgeted := by
  obtain ⟨l, m, heq⟩ := q.boost_with
  rw [heq]
  exact h

theorem Proc.Budgeted.newPeriod (h : q.Budgeted) (ticks : BitVec 32) :
    (q.newPeriod ticks).Budgeted := by
  obtain ⟨d, r, heq⟩ := q.newPeriod_with ticks
  rw [heq]
  exact h

theorem Touch.budgeted (h : Touch s p a q) (ha : NotByNumber s a) (hb : (s.proc p).Budgeted) :
    q.Budgeted := by
  cases h with
  | allocproc r =>
    cases r with
    | noPage => exact hb
    | runnable | freed => exact fun h => by cases h
  | freeproc | wakeup | run => exact hb
  | @setscheduler policy priority pol hpol =>
    intro hdl
    have hpol' : pol = .SCHED_DEADLINE := by
      unfold Proc.setPolicy at hdl
      split at hdl <;> exact hdl
    subst hpol'
    exact absurd (Policy.ofInt_deadline hpol) ha
  | setdeadline hpos hle => exact fun _ => ⟨hpos, hle⟩
  | select c ticks => exact hb.newPeriod ticks
  | boost c ticks => exact hb.boost.newPeriod ticks
  | @back c st =>
    obtain ⟨l, m, r, heq⟩ := (s.proc p).charge_with st
    rw [heq]
    exact hb

theorem run_inRange (h : Run Steps .init xs s) (p : ProcId) : (s.proc p).InRange := by
  have hstep : ∀ s a t, Steps s a t → (∀ p, (s.proc p).InRange) → ∀ p, (t.proc p).InRange := by
    intro s a t hst hin p
    rcases step_proc hst p with heq | htouch
    · rw [heq]
      exact hin p
    · exact htouch.inRange (hin p)
  exact h.invariant hstep (fun p => ⟨le_rfl, levels_pos, le_rfl⟩) p

theorem run_budgeted (h : Run (Guarded NotByNumber Steps) .init xs s) (p : ProcId) :
    (s.proc p).Budgeted := by
  have hstep : ∀ s a t, Guarded NotByNumber Steps s a t → (∀ p, (s.proc p).Budgeted) →
      ∀ p, (t.proc p).Budgeted := by
    rintro s a t ⟨ha, hst⟩ hb p
    rcases step_proc hst p with heq | htouch
    · rw [heq]
      exact hb p
    · exact htouch.budgeted ha (hb p)
  exact h.invariant hstep (fun p hp => by cases hp) p

/-- The selection is right unless every deadline that counts is the largest one; and if the deadline
policy comes from `sched_setdeadline` only, a deadline process has a budget again once its period is
over. -/
theorem selection_correct {s : State} {xs : List Act} (h : Run Steps .init xs s)
    (ticks : BitVec 32) :
    (Picks (update_deadline_periods ticks s.proc) (select (update_deadline_periods ticks s.proc)) ↔
      ¬ AllLatest (update_deadline_periods ticks s.proc)) ∧
    (Run (Guarded NotByNumber Steps) .init xs s →
      ∀ p, (s.proc p).sched_policy = .SCHED_DEADLINE →
        (0 < (s.proc p).runtime ∧ (s.proc p).runtime ≤ (s.proc p).period) ∧
        ((s.proc p).state ≠ .UNUSED → (s.proc p).deadline ≤ ticks.setWidth 64 →
          0 < (update_deadline_periods ticks s.proc p).runtime_remaining)) := by
  have hin : ∀ p, (update_deadline_periods ticks s.proc p).InRange :=
    fun p => (run_inRange h p).newPeriod ticks
  refine ⟨select_picks hin, fun hguard p hp => ?_⟩
  have hb := run_budgeted hguard p hp
  refine ⟨hb, fun hused hover => ?_⟩
  have hnew : update_deadline_periods ticks s.proc p = { s.proc p with
        deadline := ticks.setWidth 64 + (s.proc p).period
        runtime_remaining := (s.proc p).runtime } := if_pos ⟨hused, hp, hover⟩
  rw [hnew]
  exact hb.1

/-- A process with budget 2 in every 10 ticks is taken before a real-time one. -/
theorem selection_correct_two : ∃ xs s, Run Steps .init xs s ∧
    (s.proc 0).Eligible ∧ (s.proc 1).RealTime ∧
    Picks (update_deadline_periods 3 s.proc) (select (update_deadline_periods 3 s.proc)) ∧
    0 < (s.proc 0).runtime := by
  obtain ⟨s, hguard, hel, hrt, hel', hne, hpol⟩ : ∃ s, Run (Guarded NotByNumber Steps) .init
      [.allocproc .runnable, .allocproc .runnable, .setdeadline 1 2 10 10 0,
        .setscheduler 2 1 50] s ∧ (s.proc 0).Eligible ∧ (s.proc 1).RealTime ∧
      (update_deadline_periods 3 s.proc 0).Eligible ∧
      (update_deadline_periods 3 s.proc 0).deadline ≠ BitVec.allOnes 64 ∧
      (s.proc 0).sched_policy = .SCHED_DEADLINE := Run.exists_foldlM
  have hrun : Run Steps .init _ s := hguard.mono fun _ _ _ hst => hst.2
  obtain ⟨hpicks, hparams⟩ := selection_correct hrun 3
  exact ⟨_, s, hrun, hel, hrt, hpicks.mpr fun hlate => hne (hlate.2 0 hel'),
    (hparams hguard 0 hpol).1.1⟩

/-- A deadline of `2 ^ 64 - 1` is never taken, and `sched_setscheduler` gives the deadline policy
without a budget. -/
theorem latest_deadline_idles :
    (∃ xs s, Run Steps .init xs s ∧ (s.proc 0).Eligible ∧
      ¬ Picks (update_deadline_periods 0 s.proc) (select (update_deadline_periods 0 s.proc))) ∧
    ∃ xs s, Run Steps .init xs s ∧ (s.proc 0).sched_policy = .SCHED_DEADLINE ∧
      (s.proc 0).runtime = 0 := by
  constructor
  · obtain ⟨s, hrun, hel, hel', hsel⟩ : ∃ s, Run Steps .init
        [.allocproc .runnable, .setdeadline 1 1 (-1) 1 0] s ∧ (s.proc 0).Eligible ∧
        (update_deadline_periods 0 s.proc 0).Eligible ∧
        select (update_deadline_periods 0 s.proc) = none := Run.exists_exec
    exact ⟨_, s, hrun, hel, fun hpicks => (hpicks.idle hsel 0).1 hel'⟩
  · refine ⟨[.allocproc .runnable, .setscheduler 1 3 0], Run.exists_exec ?_⟩
    decide +kernel

end Yyds.Sched
