import Yyds.Sync.Sched

/-! Mutual exclusion of dispatch: no process runs on two CPUs. -/
namespace Yyds.Sync

open Lib Kernel Mm SMem Function

variable {C : Type} [DecidableEq C] {s s' : SState C} {c : C} {i : SIn}

/-- `c->proc` is the process on the CPU; such a process is `RUNNING` until it gives up the CPU, and
it is on no other CPU. -/
structure DispatchInv (s : SState C) : Prop where
  owned : Owned (fun _ _ => True) (fun _ p l => p.Holds l) s
  cproc : ∀ c, s.mem.cproc c = (s.pc c).cur
  running : ∀ c p, (s.pc c).cur = some p → (s.pc c).isBack = false → s.mem.state p = .RUNNING
  unique : ∀ c d p, (s.pc c).cur = some p → (s.pc d).cur = some p → c = d
  covered : ∀ p, s.mem.state p = .RUNNING → ∃ c, (s.pc c).cur = some p ∧ (s.pc c).isBack = false

section
variable (I : DispatchInv s)
include I

section
variable (howned : Owned (fun _ _ => True) (fun _ p l => SPc.Holds p l) s')
include howned

theorem DispatchInv.of_cpu (hother : ∀ d, d ≠ c → s'.pc d = s.pc d)
    (hcproc : s'.mem.cproc = update s.mem.cproc c (s'.pc c).cur)
    (hself : ∀ p, (s'.pc c).cur = some p → (∀ d, d ≠ c → (s.pc d).cur ≠ some p) ∧
      ((s'.pc c).isBack = false → s'.mem.state p = .RUNNING))
    (hkeep : ∀ d p, d ≠ c → (s.pc d).cur = some p → s.mem.state p = .RUNNING →
      s'.mem.state p = .RUNNING)
    (hcovered : ∀ p, s'.mem.state p = .RUNNING →
      (s'.pc c).cur = some p ∧ (s'.pc c).isBack = false ∨
      s.mem.state p = .RUNNING ∧ ((s.pc c).cur = some p → (s.pc c).isBack = true)) :
    DispatchInv s' := by
  refine ⟨howned, ?_, ?_, ?_, ?_⟩
  · intro d
    rw [hcproc]
    by_cases hd : d = c
    · rw [hd, update_self]
    · rw [update_of_ne hd, hother d hd]
      exact I.cproc d
  · intro d p hd hb
    by_cases hdc : d = c
    · subst hdc
      exact (hself p hd).2 hb
    · rw [hother d hdc] at hd hb
      exact hkeep d p hdc hd (I.running d p hd hb)
  · intro d e p hd he
    by_cases hdc : d = c <;> by_cases hec : e = c
    · exact hdc.trans hec.symm
    · rw [hdc] at hd
      rw [hother e hec] at he
      exact absurd he ((hself p hd).1 e hec)
    · rw [hec] at he
      rw [hother d hdc] at hd
      exact absurd hd ((hself p he).1 d hdc)
    · rw [hother d hdc] at hd
      rw [hother e hec] at he
      exact I.unique d e p hd he
  · intro p hp
    rcases hcovered p hp with hcur | ⟨hold, hback⟩
    · exact ⟨c, hcur⟩
    · obtain ⟨d, hd, hb⟩ := I.covered p hold
      have hdc : d ≠ c := by
        rintro rfl
        rw [hback hd] at hb
        cases hb
      exact ⟨d, by rwa [hother d hdc], by rwa [hother d hdc]⟩

/-- A step that leaves the CPU with its process. -/
theorem DispatchInv.goesOn (hpc : ∀ d, d ≠ c → s'.pc d = s.pc d)
    (hcur : (s'.pc c).cur = (s.pc c).cur)
    (hback : (s.pc c).isBack = false) (hback' : (s'.pc c).isBack = false)
    (hcproc : s'.mem.cproc = s.mem.cproc)
    (hrun : ∀ q, s'.mem.state q = .RUNNING ↔ s.mem.state q = .RUNNING) : DispatchInv s' := by
  refine I.of_cpu howned hpc ?_ (fun p hp => ?_) (fun d p _ _ => (hrun p).mpr) fun p hp => ?_
  · rw [hcproc, hcur, ← I.cproc, update_eq_self]
  · rw [hcur] at hp
    exact ⟨fun d hd h => hd (I.unique d c p h hp), fun _ => (hrun p).mpr (I.running c p hp hback)⟩
  · by_cases hp' : (s.pc c).cur = some p
    · exact .inl ⟨hcur.trans hp', hback'⟩
    · exact .inr ⟨(hrun p).mp hp, fun h => absurd h hp'⟩

omit howned in
omit [DecidableEq C] in
/-- A runnable process whose lock the CPU has is on no CPU. -/
theorem DispatchInv.free {q : ProcId} (hpc : s.pc c = .recheck q) (hq : s.mem.state q = .RUNNABLE)
    (d : C) : (s.pc d).cur ≠ some q := by
  intro hd
  cases hb : (s.pc d).isBack with
  | false =>
    have hrun := I.running d q hd hb
    rw [hq] at hrun
    cases hrun
  | true =>
    -- the CPU that is just back from `q` still has its lock
    have hback : s.pc d = .back q := by
      cases hp : s.pc d <;> simp_all [SPc.isBack, SPc.cur]
    have h1 := (I.owned.locks (.proc q) c).mpr (by rw [hpc]; rfl)
    have h2 := (I.owned.locks (.proc q) d).mpr (by rw [hback]; rfl)
    have hcd : c = d := Option.some.inj (h1.symm.trans h2)
    subst hcd
    rw [hpc] at hback
    cases hback

theorem DispatchInv.dispatch {q : ProcId} (hpc : s.pc c = .recheck q)
    (hq : s.mem.state q = .RUNNABLE)
    (hs' : s' = { s with mem := (s.mem.setState q .RUNNING).setCproc c (some q) }.goto c (.resume q)) :
    DispatchInv s' := by
  have hfree := I.free hpc hq
  subst hs'
  refine I.of_cpu (c := c) howned (fun d hd => by simp [hd]) ?_ (fun p hp => ?_)
    (fun d p _ hd hrun => ?_) fun p hp => ?_
  · simp [setCproc, setState, SPc.cur]
  · rw [goto_pc_self] at hp
    cases hp
    exact ⟨fun d _ => hfree d, fun _ => by simp [setCproc, setState]⟩
  · have hne : p ≠ q := by
      rintro rfl
      exact hfree d hd
    simpa [setCproc, setState, hne] using hrun
  · by_cases hpq : p = q
    · subst hpq
      exact .inl (by simp [SPc.cur, SPc.isBack])
    · exact .inr ⟨by simpa [setCproc, setState, hpq] using hp, fun h => by rw [hpc] at h; cases h⟩

theorem DispatchInv.giveUp {q : ProcId} (hcur : (s.pc c).cur = some q) (hself : s'.pc c = .back q)
    (hother : ∀ d, d ≠ c → s'.pc d = s.pc d)
    (hstate : s'.mem.state q ≠ .RUNNING) (hkeep : ∀ r, r ≠ q → s'.mem.state r = s.mem.state r)
    (hcproc : s'.mem.cproc = s.mem.cproc) : DispatchInv s' := by
  refine I.of_cpu howned hother ?_ (fun p hp => ?_) (fun d p hd hp hrun => ?_) fun p hp => ?_
  · rw [hcproc, hself, SPc.cur, ← hcur, ← I.cproc, update_eq_self]
  · rw [hself] at hp ⊢
    cases hp
    exact ⟨fun d hd h => hd (I.unique d c q h hcur), nofun⟩
  · have hne : p ≠ q := by
      rintro rfl
      exact hd (I.unique d c p hp hcur)
    rwa [hkeep p hne]
  · have hne : p ≠ q := by
      rintro rfl
      exact hstate hp
    rw [hkeep p hne] at hp
    exact .inr ⟨hp, fun h => absurd (Option.some.inj (h.symm.trans hcur)) hne⟩

theorem DispatchInv.clear {q : ProcId} (hpc : s.pc c = .back q)
    (hs' : s' = { s with mem := s.mem.setCproc c none }.goto c (.unlockBack q)) :
    DispatchInv s' := by
  subst hs'
  refine I.of_cpu (c := c) howned (fun d hd => by simp [hd]) ?_ (fun p hp => ?_) (fun _ _ _ _ => id)
    fun p hp => .inr ⟨hp, fun _ => by rw [hpc]; rfl⟩
  · simp [setCproc, SPc.cur]
  · rw [goto_pc_self] at hp
    cases hp

end

theorem DispatchInv.next (h : LockState.Steps schedCode s (c, i) s') : DispatchInv s' := by
  have howned := I.owned.next schedCode_annotation h
  have hother : ∀ d, d ≠ c → s'.pc d = s.pc d := fun d hd => h.pc_of_ne hd
  obtain ⟨hl, hmem⟩ | ⟨f, m, p, hc, hf, rfl⟩ := sched_cases h
  · obtain ⟨hcur, hb, hb'⟩ := hl.cur
    exact I.goesOn howned hother hcur hb hb' (by rw [hmem]) fun _ => by rw [hmem]
  · rcases schedCode_act hc hf with ⟨q, hpc, rfl, hq, rfl⟩ |
      ⟨q, hcur, -, -, rfl, hstate, hkeep, hcproc⟩ | ⟨q, hpc, rfl, rfl⟩ |
      ⟨hcur, hb, hb', -, hcproc, hrun⟩
    · exact I.dispatch howned hpc hq rfl
    · exact I.giveUp howned hcur (by simp) hother hstate hkeep hcproc
    · exact I.clear howned hpc rfl
    · exact I.goesOn howned hother (by simpa using hcur) hb (by simpa using hb') hcproc hrun

end

/-- Every CPU is in the scheduler. -/
def SState.start (m : SMem C) : SState C := ⟨fun _ => none, fun _ => .sched, m⟩

/-- A table in which no process runs. -/
structure Quiet (m : SMem C) : Prop where
  cproc : ∀ c, m.cproc c = none
  state : ∀ p, m.state p ≠ .RUNNING

omit [DecidableEq C] in
theorem dispatchInv_start {m : SMem C} (h : Quiet m) : DispatchInv (SState.start m) := by
  refine ⟨⟨fun _ => trivial, ?_⟩, fun c => h.cproc c, ?_, ?_, fun p hp => absurd hp (h.state p)⟩
  · intro l c
    simp [SState.start, SPc.Holds]
  · intro c p hp
    cases hp
  · intro c d p hp
    cases hp

theorem dispatchInv_run {m : SMem C} {as : List (C × SIn)} (hm : Quiet m)
    (h : Run (LockState.Steps schedCode) (SState.start m) as s) : DispatchInv s := by
  refine h.invariant ?_ (dispatchInv_start hm)
  rintro s ⟨c, i⟩ s' hs I
  exact I.next hs

/-- A process is on at most one CPU; outside the critical sections of its lock it is `RUNNING`
exactly if it is on a CPU; and a CPU switches to a process only if it is `RUNNABLE`. -/
theorem dispatch_exclusive {m : SMem C} {as : List (C × SIn)} (hm : Quiet m)
    (h : Run (LockState.Steps schedCode) (SState.start m) as s) :
    (∀ c d p, s.mem.cproc c = some p → s.mem.cproc d = some p → c = d) ∧
    (∀ p, s.holder (.proc p) = none →
      (s.mem.state p = .RUNNING ↔ ∃ c, s.mem.cproc c = some p)) ∧
    ∀ c i s' p, LockState.Steps schedCode s (c, i) s' → s'.mem.cproc c = some p →
      s.mem.cproc c ≠ some p → s.mem.state p = .RUNNABLE := by
  have I := dispatchInv_run hm h
  refine ⟨?_, ?_, ?_⟩
  · intro c d p hc hd
    rw [I.cproc] at hc hd
    exact I.unique c d p hc hd
  · intro p hfree
    constructor
    · intro hp
      obtain ⟨c, hc, _⟩ := I.covered p hp
      exact ⟨c, (I.cproc c).trans hc⟩
    · rintro ⟨c, hc⟩
      rw [I.cproc] at hc
      cases hb : (s.pc c).isBack with
      | false => exact I.running c p hc hb
      | true =>
        have hback : s.pc c = .back p := by
          cases hp : s.pc c <;> simp_all [SPc.isBack, SPc.cur]
        rw [(I.owned.locks (.proc p) c).mpr (by rw [hback]; rfl)] at hfree
        cases hfree
  · intro c i s' p hs hp hne
    have I' := I.next hs
    rw [I'.cproc] at hp
    rw [I.cproc] at hne
    obtain ⟨hl, -⟩ | ⟨f, m, q, hc, hf, rfl⟩ := sched_cases hs
    · exact absurd (hl.cur.1.symm.trans hp) hne
    · rw [goto_pc_self] at hp
      rcases schedCode_act hc hf with ⟨r, -, rfl, hr, -⟩ | ⟨r, hcur, -, -, rfl, -⟩ |
        ⟨r, -, rfl, -⟩ | ⟨hcur, -⟩
      · cases hp
        exact hr
      · exact absurd (hcur.trans hp) hne
      · cases hp
      · exact absurd (hcur.symm.trans hp) hne

/-- All processes but the first are unused, and it waits for a CPU. -/
def SMem.oneRunnable : SMem (Fin NCPU) where
  state p := if p = 0 then .RUNNABLE else .UNUSED
  chan _ := none
  killed _ := false
  saved _ := none
  cproc _ := none
  sleeps _ := 0
  lk _ := 0

theorem quiet_oneRunnable : Quiet oneRunnable := by
  refine ⟨fun _ => rfl, ?_⟩
  intro p
  dsimp only [oneRunnable]
  split <;> simp

/-- Two CPUs select the same process; CPU 1 comes second. -/
def staleSelection : List (Fin NCPU × SIn) :=
  [(0, .select 0), (1, .select 0), (0, .select 0), (0, .select 0), (0, .select 0),
    (0, .act .release), (0, .own), (1, .select 0), (1, .select 0)]

theorem dispatch_exclusive_stale :
    ∃ s, Run (LockState.Steps schedCode) (SState.start .oneRunnable) staleSelection s ∧
      s.mem.cproc 0 = some 0 ∧ s.pc 1 = .unlockBack 0 ∧
      (∀ c d p, s.mem.cproc c = some p → s.mem.cproc d = some p → c = d) := by
  obtain ⟨s, hrun, hproc, hpc⟩ : ∃ s, Run (LockState.Steps schedCode) (SState.start .oneRunnable)
      staleSelection s ∧ s.mem.cproc 0 = some 0 ∧ s.pc 1 = .unlockBack 0 :=
    Run.exists_exec
  exact ⟨s, hrun, hproc, hpc, (dispatch_exclusive quiet_oneRunnable hrun).1⟩

end Yyds.Sync
