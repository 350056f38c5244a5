import Yyds.Sched.Inv
import Yyds.Sched.Select

/-! The budget of a deadline process between two refills. -/
namespace Yyds.Sched

open Lib Function
open Mm (ProcId)

/-- The number of dispatches of `p` since its last refill, after a step: `update_deadline_periods`
gives `p` its budget again, or a scheduler switches to `p`. -/
def dispatchesAfter (p : ProcId) (s : State) (n : Nat) : Act → Nat
  | .select _ ticks => if (s.proc p).PeriodOver ticks then 0 else n
  | .run c => if s.selected c = some p ∧ (s.proc p).state = .RUNNABLE then n + 1 else n
  | _ => n

def countStep (p : ProcId) (x : State × Nat) (a : Act) : Option (State × Nat) :=
  (step x.1 a).map fun t => (t, dispatchesAfter p x.1 x.2 a)

/-- One CPU runs its loop, the parameters of `p` are left alone, and `p` does not exit. -/
def OneLoop (c : CpuId) (p : ProcId) (x : State × Nat) : Act → Prop
  | .setscheduler pid _ _ | .setdeadline pid _ _ _ _ => pid ≠ (x.1.proc p).pid
  | .select d _ | .run d => d = c
  | .back d st => d = c ∧ (x.1.cproc c = some p → st ≠ .ZOMBIE)
  | _ => True

/-- A dispatch of `p` ends with `p` still `RUNNABLE`. -/
def ComesBack (p : ProcId) (x : State × Nat) : Act → Prop
  | .back d st => x.1.cproc d = some p → st = .RUNNABLE
  | _ => True

instance (c : CpuId) (p : ProcId) (x) : DecidablePred (OneLoop c p x) := fun a => by
  refine a.casesOn ?_ ?_ ?_ ?_ ?_ ?_ ?_ ?_ <;> intros <;> dsimp only [OneLoop] <;> infer_instance

instance (p : ProcId) (x) : DecidablePred (ComesBack p x) := fun a => by
  refine a.casesOn ?_ ?_ ?_ ?_ ?_ ?_ ?_ ?_ <;> intros <;> dsimp only [ComesBack] <;> infer_instance

/-- What holds of a deadline process `p` with the budget `runtime` on the CPU `c`. -/
structure Charged (c : CpuId) (p : ProcId) (runtime : BitVec 64) (s : State) : Prop where
  inv : Inv s
  alive : (s.proc p).state ≠ .UNUSED ∧ (s.proc p).state ≠ .ZOMBIE
  policy : (s.proc p).sched_policy = .SCHED_DEADLINE
  runtime_eq : (s.proc p).runtime = runtime
  remaining_le : (s.proc p).runtime_remaining ≤ runtime
  selected : s.selected c = some p → 0 < (s.proc p).runtime_remaining

variable {c : CpuId} {p : ProcId} {runtime : BitVec 64} {s t : State} {a : Act}

/-- The budget that is left after a step of the loop. -/
def remainingAfter (p : ProcId) (s : State) : Act → BitVec 64
  | .select _ ticks =>
    if (s.proc p).PeriodOver ticks then (s.proc p).runtime else (s.proc p).runtime_remaining
  | .back d st =>
    if (s.cproc d = some p ∧ st = .RUNNABLE) ∧ 0 < (s.proc p).runtime_remaining then
      (s.proc p).runtime_remaining - 1
    else (s.proc p).runtime_remaining
  | _ => (s.proc p).runtime_remaining

variable {proc : Table} {q : Proc} {n : Nat}

theorem select_deadline (h : select proc = some p) (hp : (proc p).sched_policy = .SCHED_DEADLINE) :
    0 < (proc p).runtime_remaining := by
  rcases select_cases proc with ⟨x, hx, hsel⟩ | ⟨_, x, hx, hsel⟩ | ⟨_, _, hsel⟩
  · cases hsel.symm.trans h
    exact (find_deadline_process_some hx).1.2.2
  · cases hsel.symm.trans h
    have hrt := (find_rt_process_some hx).1.2
    rw [hp] at hrt
    rcases hrt with hrt | hrt <;> cases hrt
  · have hnormal := (find_mlfq_process_normal (hsel.symm.trans h)).2
    rw [hp] at hnormal
    cases hnormal

theorem Proc.newPeriod_remaining (q : Proc) (ticks : BitVec 32) :
    (q.newPeriod ticks).runtime_remaining =
      if q.PeriodOver ticks then q.runtime else q.runtime_remaining := by
  unfold Proc.newPeriod
  split <;> rfl

theorem Proc.charge_remaining (h : q.sched_policy = .SCHED_DEADLINE) (st : Kernel.ProcState) :
    (q.charge st).runtime_remaining =
      if st = .RUNNABLE ∧ 0 < q.runtime_remaining then q.runtime_remaining - 1
      else q.runtime_remaining := by
  unfold Proc.charge
  by_cases hst : st = .RUNNABLE
  · rw [if_pos hst, h]
    dsimp only
    by_cases hpos : 0 < q.runtime_remaining
    · rw [if_pos hpos, if_pos ⟨hst, hpos⟩]
    · rw [if_neg hpos, if_neg fun hboth => hpos hboth.2]
  · rw [if_neg hst, if_neg fun hboth => hst hboth.1]

/-- The entry `q` of the deadline process `p` after a step. -/
structure EntryAfter (p : ProcId) (runtime : BitVec 64) (s : State) (a : Act) (q : Proc) :
    Prop where
  alive : q.state ≠ .UNUSED ∧ q.state ≠ .ZOMBIE
  policy : q.sched_policy = .SCHED_DEADLINE
  runtime_eq : q.runtime = runtime
  remaining_eq : q.runtime_remaining = remainingAfter p s a

theorem Touch.charged (h : Touch s p a q) (hc : Charged c p runtime s) (ha : OneLoop c p (s, n) a) :
    EntryAfter p runtime s a q := by
  have hpol := hc.policy
  have hrun := hc.runtime_eq
  cases h with
  | allocproc r hst => exact absurd hst hc.alive.1
  | freeproc hst => exact absurd hst hc.alive.2
  | wakeup => exact ⟨⟨nofun, nofun⟩, hpol, hrun, rfl⟩
  | setscheduler => exact absurd rfl ha
  | setdeadline => exact absurd rfl ha
  | select d ticks =>
    have hrem := (s.proc p).newPeriod_remaining ticks
    obtain ⟨d, r, heq⟩ := (s.proc p).newPeriod_with ticks
    rw [heq] at hrem ⊢
    exact ⟨hc.alive, hpol, hrun, hrem⟩
  | boost d ticks =>
    have hrem := (s.proc p).boost.newPeriod_remaining ticks
    obtain ⟨d, r, heq⟩ := (s.proc p).boost.newPeriod_with ticks
    obtain ⟨l, m, heq'⟩ := (s.proc p).boost_with
    rw [heq, heq'] at hrem
    rw [heq, heq']
    exact ⟨hc.alive, hpol, hrun, hrem⟩
  | run => exact ⟨⟨nofun, nofun⟩, hpol, hrun, rfl⟩
  | @back d st hd hst =>
    obtain ⟨rfl, hexit⟩ := ha
    have hrem := Proc.charge_remaining hpol st
    obtain ⟨l, m, r, heq⟩ := (s.proc p).charge_with st
    rw [heq] at hrem ⊢
    refine ⟨⟨?_, hexit hd⟩, hpol, hrun, ?_⟩
    · rcases hst with rfl | rfl | rfl <;> nofun
    · simp only [remainingAfter, hd, true_and]
      exact hrem

/-- What a step of the loop does to the entry of a deadline process. -/
theorem Charged.entry (hc : Charged c p runtime s) (h : Steps s a t) (ha : OneLoop c p (s, n) a) :
    EntryAfter p runtime s a (t.proc p) := by
  have hkeep (heq : t.proc p = s.proc p)
      (hrem : (s.proc p).runtime_remaining = remainingAfter p s a) :
      EntryAfter p runtime s a (t.proc p) := by
    rw [heq]
    exact ⟨hc.alive, hc.policy, hc.runtime_eq, hrem⟩
  rcases step_proc h p with heq | htouch
  · cases a with
    | select d ticks =>
      obtain ⟨_, ht⟩ := Option.ite_none_right_eq_some.mp h
      cases ht
      exact (selects_touch s d ticks p).charged hc ha
    | back d st =>
      obtain ⟨hst, ht⟩ := Option.ite_none_right_eq_some.mp h
      obtain ⟨x, hx, rfl⟩ := Option.map_eq_some_iff.mp ht
      by_cases hxp : x = p
      · subst hxp
        have htouch : Touch s x (.back d st) ((s.returns d x st).proc x) := by
          have hself : (s.returns d x st).proc x = (s.proc x).charge st := update_self ..
          rw [hself]
          exact .back hx hst
        exact htouch.charged hc ha
      · refine hkeep heq (if_neg fun hboth => hxp ?_).symm
        exact Option.some.inj (hx.symm.trans hboth.1.1)
    | _ => exact hkeep heq rfl
  · exact htouch.charged hc ha

theorem remainingAfter_le (hc : Charged c p runtime s) (a : Act) :
    remainingAfter p s a ≤ runtime := by
  have hle := hc.remaining_le
  have hrun := hc.runtime_eq
  cases a with
  | select d ticks =>
    simp only [remainingAfter]
    split
    · rw [hrun]
      exact BitVec.le_refl _
    · exact hle
  | back d st =>
    simp only [remainingAfter]
    split
    · bv_omega
    · exact hle
  | _ => exact hle

theorem Charged.step (hc : Charged c p runtime s) (h : Steps s a t) (ha : OneLoop c p (s, n) a) :
    Charged c p runtime t := by
  obtain ⟨halive, hpol, hrun, hrem⟩ := hc.entry h ha
  refine ⟨hc.inv.step h, halive, hpol, hrun, hrem ▸ remainingAfter_le hc a, fun hsel => ?_⟩
  cases step_locals h with
  | other hcpu _ heq =>
    rw [heq] at hsel
    rw [hrem]
    cases a with
    | select | back => cases hcpu
    | _ => exact hc.selected hsel
  | select _ _ heq =>
    cases ha
    rw [heq, update_self] at hsel
    exact select_deadline hsel hpol
  | run _ _ _ _ heq | skip _ heq =>
    cases ha
    rw [heq, update_self] at hsel
    cases hsel
  | back hd _ heq =>
    cases ha.1
    rw [heq] at hsel
    rw [hc.inv.selecting _ p hsel] at hd
    cases hd

/-- The dispatches since the last refill, the present one included, are covered by what has been
charged. -/
def Covered (c : CpuId) (p : ProcId) (runtime : BitVec 64) (x : State × Nat) : Prop :=
  x.2 ≤ runtime.toNat ∧
  x.2 + (x.1.proc p).runtime_remaining.toNat ≤
    runtime.toNat + if x.1.cproc c = some p then 1 else 0

theorem Covered.step {x y : State × Nat} (hc : Charged c p runtime x.1)
    (hv : Covered c p runtime x) (h : countStep p x a = some y) (ha : OneLoop c p x a)
    (hback : ComesBack p x a) : Covered c p runtime y := by
  obtain ⟨s, n⟩ := x
  obtain ⟨t, hst, rfl⟩ := Option.map_eq_some_iff.mp h
  obtain ⟨hle, hsum⟩ := hv
  have hrem := (hc.entry hst ha).remaining_eq
  have hrun := hc.runtime_eq
  dsimp only at hle hsum hst hc hrem ⊢
  unfold Covered
  rw [hrem]
  cases a with
  | select d ticks =>
    obtain ⟨⟨hfree, _⟩, ht⟩ := Option.ite_none_right_eq_some.mp hst
    cases ht
    simp only [dispatchesAfter, remainingAfter]
    split
    · rw [hrun]
      exact ⟨Nat.zero_le _, by omega⟩
    · exact ⟨hle, hsum⟩
  | run d =>
    obtain rfl : d = c := ha
    simp only [dispatchesAfter, remainingAfter]
    obtain ⟨x, hx, rfl⟩ := Option.map_eq_some_iff.mp hst
    have hfree := hc.inv.selecting d x hx
    simp only [hfree, reduceCtorEq, if_false, Nat.add_zero] at hsum
    by_cases hdisp : s.selected d = some p ∧ (s.proc p).state = .RUNNABLE
    · have hpos := hc.selected hdisp.1
      have hcpu : (s.runs d x).cproc d = some p := by
        cases hx.symm.trans hdisp.1
        simp only [State.runs, if_pos hdisp.2]
        exact update_self ..
      have hrem0 : 0 < (s.proc p).runtime_remaining.toNat := hpos
      simp only [hdisp, hcpu, and_self, if_true]
      omega
    · have hcpu : (s.runs d x).cproc d ≠ some p := by
        unfold State.runs
        dsimp only
        split
        · rename_i hrunnable
          simp only [update_self]
          rintro heq
          cases heq
          exact hdisp ⟨hx, hrunnable⟩
        · simp only [hfree]
          rintro ⟨⟩
      simp only [hdisp, hcpu, if_false]
      exact ⟨hle, hsum⟩
  | back d st =>
    obtain ⟨rfl, _⟩ := ha
    obtain ⟨_, ht⟩ := Option.ite_none_right_eq_some.mp hst
    obtain ⟨x, hx, rfl⟩ := Option.map_eq_some_iff.mp ht
    have hcpu : (s.returns d x st).cproc d = none := update_self ..
    simp only [dispatchesAfter, remainingAfter, hcpu, reduceCtorEq, if_false, Nat.add_zero]
    by_cases hxp : x = p
    · subst hxp
      have hrunnable := hback hx
      simp only [hx, if_true] at hsum
      simp only [hx, hrunnable, and_self, true_and]
      by_cases hpos : 0 < (s.proc x).runtime_remaining
      · rw [if_pos hpos]
        have hsub : ((s.proc x).runtime_remaining - 1).toNat + 1 =
            (s.proc x).runtime_remaining.toNat := by bv_omega
        omega
      · rw [if_neg hpos]
        have hzero : (s.proc x).runtime_remaining.toNat = 0 := by bv_omega
        omega
    · have hne : s.cproc d ≠ some p := fun heq => hxp (Option.some.inj (hx.symm.trans heq))
      simp only [hne, if_false] at hsum
      simp only [hne, false_and, if_false]
      exact ⟨hle, hsum⟩
  | allocproc | freeproc | wakeup | setscheduler | setdeadline =>
    cases step_locals hst with
    | other _ hcproc =>
      rw [hcproc]
      exact ⟨hle, hsum⟩

theorem setdeadline_charged {ys : List Act} {pid : Int} {deadline period : BitVec 64}
    {ticks : BitVec 32} (hs : Run Steps .init ys s)
    (hlive : (s.proc p).state ≠ .UNUSED ∧ (s.proc p).state ≠ .ZOMBIE)
    (hp : (firstProc fun x => (s.proc x).pid = pid) = some p)
    (hset : sched_setdeadline pid runtime deadline period ticks s.proc = (0, proc)) :
    Charged c p runtime { s with proc } ∧ (proc p).runtime_remaining = runtime := by
  have hi := run_inv hs
  have hstep : Steps s (.setdeadline pid runtime deadline period ticks) { s with proc } := by
    simp only [Steps, step, hset]
  unfold sched_setdeadline at hset
  rw [hp] at hset
  split at hset
  · cases hset
  obtain ⟨_, rfl⟩ := Prod.mk.inj hset
  have hpos : 0 < runtime := by bv_omega
  refine ⟨⟨hi.step hstep, ?_, ?_, ?_, ?_, fun _ => ?_⟩, ?_⟩ <;>
    simp only [update_self, Proc.setDeadline]
  · exact hlive
  · exact BitVec.le_refl _
  · exact hpos

/-- After `sched_setdeadline` has set the parameters of the process `p` it found, its budget never
exceeds `runtime`, and if every dispatch of `p` ends with `p` still `RUNNABLE`, then `p` is
dispatched at most `runtime` times between two refills. -/
theorem deadline_budget_enforced {ys xs : List Act} {pid : Int} {deadline period : BitVec 64}
    {ticks : BitVec 32} {proc : Table} {x : State × Nat} (hs : Run Steps .init ys s)
    (hlive : (s.proc p).state ≠ .UNUSED ∧ (s.proc p).state ≠ .ZOMBIE)
    (hp : (firstProc fun x => (s.proc x).pid = pid) = some p)
    (hset : sched_setdeadline pid runtime deadline period ticks s.proc = (0, proc))
    (h : Run (Guarded (OneLoop c p) fun x a y => countStep p x a = some y)
      ({ s with proc }, 0) xs x) :
    (x.1.proc p).runtime_remaining ≤ runtime ∧
    (Run (Guarded (ComesBack p) (Guarded (OneLoop c p) fun x a y => countStep p x a = some y))
      ({ s with proc }, 0) xs x → x.2 ≤ runtime.toNat) := by
  obtain ⟨hstart, hfull⟩ := setdeadline_charged hs hlive hp hset
  have hcharged : ∀ x a y, Guarded (OneLoop c p) (fun x a y => countStep p x a = some y) x a y →
      Charged c p runtime x.1 → Charged c p runtime y.1 := by
    rintro x a y ⟨ha, hxy⟩ hx
    obtain ⟨t, hst, rfl⟩ := Option.map_eq_some_iff.mp hxy
    exact hx.step hst ha
  refine ⟨(h.invariant hcharged hstart).remaining_le, fun hback => ?_⟩
  have hcovered : ∀ x a y,
      Guarded (ComesBack p) (Guarded (OneLoop c p) fun x a y => countStep p x a = some y) x a y →
      Charged c p runtime x.1 ∧ Covered c p runtime x →
      Charged c p runtime y.1 ∧ Covered c p runtime y := by
    rintro x a y ⟨hb, ha, hxy⟩ ⟨hx, hv⟩
    exact ⟨hcharged x a y ⟨ha, hxy⟩ hx, hv.step hx hxy ha hb⟩
  refine (hback.invariant hcovered ⟨hstart, Nat.zero_le _, ?_⟩).2.1
  rw [hfull]
  omega

/-- A process with the budget 2 is dispatched twice, and then no more. -/
theorem deadline_budget_enforced_two : ∃ ys xs s proc x, Run Steps .init ys s ∧
    sched_setdeadline 1 2 10 10 0 s.proc = (0, proc) ∧
    (firstProc fun x => (s.proc x).pid = 1) = some 0 ∧
    Run (Guarded (OneLoop 0 0) fun x a y => countStep 0 x a = some y) ({ s with proc }, 0) xs x ∧
    x.1.selected 0 = none ∧ x.2 = 2 ∧ (x.1.proc 0).runtime_remaining ≤ 2 ∧ x.2 ≤ 2 := by
  obtain ⟨s, hs, hlive, hp, hzero, x, hx, hsel, htwo⟩ : ∃ s,
      [.allocproc .runnable].foldlM step .init = some s ∧
      ((s.proc 0).state ≠ .UNUSED ∧ (s.proc 0).state ≠ .ZOMBIE) ∧
      (firstProc fun x => (s.proc x).pid = 1) = some 0 ∧
      (sched_setdeadline 1 2 10 10 0 s.proc).1 = 0 ∧ ∃ x,
      [.select 0 1, .run 0, .back 0 .RUNNABLE, .select 0 2, .run 0, .back 0 .RUNNABLE,
        .select 0 3].foldlM
        (fun x a => if OneLoop 0 0 x a ∧ ComesBack 0 x a then countStep 0 x a else none)
        ({ s with proc := (sched_setdeadline 1 2 10 10 0 s.proc).2 }, 0) = some x ∧
      x.1.selected 0 = none ∧ x.2 = 2 := by
    decide +kernel
  have hrun := Run.of_foldlM hx
  have hloop : Run (Guarded (OneLoop 0 0) fun x a y => countStep 0 x a = some y) _ _ x :=
    hrun.mono fun _ _ _ hst => ⟨hst.1.1, hst.2⟩
  have hset : sched_setdeadline 1 2 10 10 0 s.proc = (0, _) := Prod.ext hzero rfl
  obtain ⟨hrem, hcount⟩ := deadline_budget_enforced (Run.of_exec hs) hlive hp hset hloop
  exact ⟨_, _, s, _, x, Run.of_exec hs, hset, hp, hloop, hsel, htwo, hrem,
    hcount (hrun.mono fun _ _ _ hst => ⟨hst.1.2, hst.1.1, hst.2⟩)⟩

/-- A process with the budget 1 that goes to sleep is dispatched twice before its refill. -/
theorem sleeping_is_not_charged : ∃ ys xs s proc x, Run Steps .init ys s ∧
    sched_setdeadline 1 1 10 10 0 s.proc = (0, proc) ∧
    Run (Guarded (OneLoop 0 0) fun x a y => countStep 0 x a = some y) ({ s with proc }, 0) xs x ∧
    x.2 = 2 := by
  obtain ⟨s, hs, hzero, x, hx, htwo⟩ : ∃ s, [.allocproc .runnable].foldlM step .init = some s ∧
      (sched_setdeadline 1 1 10 10 0 s.proc).1 = 0 ∧ ∃ x,
      [.select 0 1, .run 0, .back 0 .SLEEPING, .wakeup 0, .select 0 2, .run 0].foldlM
        (fun x a => if OneLoop 0 0 x a then countStep 0 x a else none)
        ({ s with proc := (sched_setdeadline 1 1 10 10 0 s.proc).2 }, 0) = some x ∧
      x.2 = 2 := by
    decide +kernel
  exact ⟨_, _, s, _, x, Run.of_exec hs, Prod.ext hzero rfl, Run.of_foldlM hx, htwo⟩

end Yyds.Sched
