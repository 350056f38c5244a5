import Yyds.Sync.Dispatch

/-! `sleep` and `wakeup`: no wakeup is lost. -/
namespace Yyds.Sync

open Lib Kernel Mm SMem

/-- The two tables agree on process `p`. -/
structure SameProc {C : Type} (p : ProcId) (m m' : SMem C) : Prop where
  state : m'.state p = m.state p
  chan : m'.chan p = m.chan p
  saved : m'.saved p = m.saved p
  sleeps : m'.sleeps p = m.sleeps p
  lk : m'.lk p = m.lk p

/-- What a step on the memory can do to process `p`. -/
inductive Touches {C : Type} [DecidableEq C] (c : C) (p : ProcId) (m : SMem C) :
    SPc → SMem C → SPc → Prop
  | dispatch : m.state p = .RUNNABLE →
      Touches c p m (.recheck p) ((m.setState p .RUNNING).setCproc c (some p)) (.resume p)
  | own : m.saved p = none → Touches c p m (.resume p) (m.setChan p none) (.own p)
  | awake {k : Nat} : m.saved p = some k →
      Touches c p m (.resume p) ((m.setChan p none).setSaved p none) (.sleepUnlock p k)
  | giveUp {a : OwnAct} {m' : SMem C} : m.giveUp p a = some m' →
      Touches c p m (.own p) m' (.back p)
  | sleep {locks : Finset Nat} {ch k : Nat} :
      Touches c p m (.run p locks) (m.startSleep p k) (.sleepLock p ch k)
  | asleep {ch k : Nat} : Touches c p m (.sleepSet p ch k)
      (((m.setChan p (some ch)).setState p .SLEEPING).setSaved p (some k)) (.back p)
  | wake {who : Caller} {ch : Nat} :
      Touches c p m (.wakeSet who ch p) (m.wakeup1 ch p) (.wakeUnlock who ch p)
  | change {who : Caller} {k : Change} :
      Touches c p m (.changeSet who p k) (m.change p k) (.changeUnlock who p)

section
variable {C : Type} {m m' : SMem C} {q r : ProcId}

theorem SameProc.refl (q : ProcId) (m : SMem C) : SameProc q m m := ⟨rfl, rfl, rfl, rfl, rfl⟩

theorem sameProc_setState (st : ProcState) (h : q ≠ r) : SameProc q m (m.setState r st) :=
  ⟨by simp [setState, h], rfl, rfl, rfl, rfl⟩

theorem sameProc_wakeup1 (ch : Nat) (h : q ≠ r) : SameProc q m (m.wakeup1 ch r) := by
  unfold wakeup1
  split
  · exact sameProc_setState _ h
  · exact .refl q m

theorem sameProc_change (k : Change) (h : q ≠ r) : SameProc q m (m.change r k) := by
  cases k <;> dsimp only [SMem.change] <;> split
  · exact { sameProc_setState (m := m) .RUNNABLE h with }
  · exact ⟨rfl, rfl, rfl, rfl, rfl⟩
  · refine ⟨?_, rfl, ?_, rfl, rfl⟩ <;> simp [setState, setSaved, h]
  · exact .refl q m
  · refine ⟨?_, ?_, rfl, rfl, rfl⟩ <;> simp [setState, setChan, h]
  · exact .refl q m

theorem sameProc_giveUp {a : OwnAct} (h : q ≠ r) (hg : m.giveUp r a = some m') :
    SameProc q m m' := by
  cases a <;> cases hg <;> refine ⟨?_, ?_, ?_, rfl, rfl⟩ <;>
    simp [setState, setChan, setSaved, h]

end

section
variable {C : Type} [DecidableEq C] {c : C} {p p' : SPc} {m m' : SMem C} {i : SIn}
  {f : SIn → SMem C → Option (SMem C × SPc)}

theorem schedCode_touches (q : ProcId) (hc : schedCode c p = .act f) (hf : f i m = some (m', p')) :
    SameProc q m m' ∨ Touches c q m p m' p' := by
  cases p with
  | recheck r =>
    cases hc
    dsimp only at hf
    split at hf <;> cases hf
    · rename_i h
      by_cases hr : q = r
      · subst hr
        exact .inr (.dispatch h)
      · refine .inl ⟨?_, rfl, rfl, rfl, rfl⟩
        simp [setCproc, setState, hr]
    · exact .inl (.refl q m)
  | back r =>
    cases hc
    cases hf
    exact .inl ⟨rfl, rfl, rfl, rfl, rfl⟩
  | own r =>
    cases hc
    cases i with
    | act a =>
      dsimp only at hf
      split at hf <;> cases hf
      · rename_i hg
        by_cases hr : q = r
        · subst hr
          exact .inr (.giveUp hg)
        · exact .inl (sameProc_giveUp hr hg)
      · exact .inl (.refl q m)
    | _ => cases hf
  | sleepSet r ch k =>
    cases hc
    cases hf
    by_cases hr : q = r
    · subst hr
      exact .inr .asleep
    · refine .inl ⟨?_, ?_, ?_, rfl, rfl⟩ <;> simp [setState, setChan, setSaved, hr]
  | sched =>
    cases hc
    cases i <;> cases hf <;> exact .inl (.refl q m)
  | resume r =>
    cases hc
    dsimp only at hf
    split at hf <;> cases hf <;> rename_i hsaved <;> by_cases hr : q = r
    · subst hr
      exact .inr (.own hsaved)
    · refine .inl ⟨rfl, ?_, rfl, rfl, rfl⟩
      simp [setChan, hr]
    · subst hr
      exact .inr (.awake hsaved)
    · refine .inl ⟨rfl, ?_, ?_, rfl, rfl⟩ <;> simp [setChan, setSaved, hr]
  | run r locks =>
    cases hc
    cases i with
    | sleep ch k =>
      dsimp only at hf
      split at hf <;> cases hf
      by_cases hr : q = r
      · subst hr
        exact .inr .sleep
      · refine .inl ⟨rfl, rfl, rfl, ?_, ?_⟩ <;> simp [startSleep, hr]
    | own | unlock k =>
      dsimp only at hf
      split at hf <;> cases hf
      exact .inl (.refl q m)
    | lock k | wakeup ch | change r k =>
      cases hf
      exact .inl (.refl q m)
    | _ => cases hf
  | wake who ch n =>
    cases hc
    split at hf <;> cases hf <;> exact .inl (.refl q m)
  | wakeSet who ch r =>
    cases hc
    cases hf
    by_cases hr : q = r
    · subst hr
      exact .inr .wake
    · exact .inl (sameProc_wakeup1 ch hr)
  | changeSet who r k =>
    cases hc
    cases hf
    by_cases hr : q = r
    · subst hr
      exact .inr .change
    · exact .inl (sameProc_change k hr)
  | _ => cases hc

end

/-! ### The lock that `sleep` takes back -/

/-- The call of `sleep` that the CPU is in: the process and the lock it was given. -/
def SPc.sleepLk : SPc → Option (ProcId × Nat)
  | .sleepLock p _ k | .sleepDrop p _ k | .sleepSet p _ k | .sleepUnlock p k | .sleepRelock p k =>
    some (p, k)
  | _ => none

/-- The process has got its own context back. -/
def SPc.restored : SPc → Bool
  | .resume _ | .back _ => false
  | _ => true

section
variable {C : Type} [DecidableEq C] {s s' : SState C} {c d : C} {i : SIn} {p : ProcId}

/-- A process that gave up its CPU in `sleep` has kept the lock it was given. -/
structure SleepInv (s : SState C) : Prop where
  dispatch : DispatchInv s
  saved : ∀ p k, s.mem.saved p = some k → s.mem.lk p = k
  fresh : ∀ c p, (s.pc c).cur = some p → (s.pc c).restored = true → s.mem.saved p = none
  lock : ∀ c p k, (s.pc c).sleepLk = some (p, k) → s.mem.lk p = k

theorem cur_of_sleepLk {p : SPc} {q : ProcId} {k : Nat} (h : p.sleepLk = some (q, k)) :
    p.cur = some q ∧ p.restored = true := by
  cases p <;> cases h <;> exact ⟨rfl, rfl⟩

theorem sleepLk_ret (who : Caller) : (SPc.ret who).sleepLk = none := by
  cases who <;> rfl

section
variable {p p' : SPc} {m m' : SMem C} {f : SIn → SMem C → Option (SMem C × SPc)} {q : ProcId}

variable {x : ProcId × Nat}

theorem LockStep.sleepLk (hl : LockStep c p p') (h : p'.sleepLk = some x) :
    p.sleepLk = some x := by
  obtain ⟨l, hc | hc⟩ := hl <;> cases p <;> cases hc <;> first
    | exact h
    | cases h
    | (rw [sleepLk_ret] at h; cases h)

theorem LockStep.restored (hl : LockStep c p p') : p.restored = true := by
  obtain ⟨l, hc | hc⟩ := hl <;> cases p <;> cases hc <;> rfl

/-- A call of `sleep` begins, or goes on after the process was dispatched. -/
theorem sleepLk_of_act {k : Nat} (hc : schedCode c p = .act f) (hf : f i m = some (m', p'))
    (h : p'.sleepLk = some (q, k)) :
    m'.lk q = k ∨ p = .resume q ∧ m.saved q = some k ∧ m'.lk q = m.lk q := by
  cases p with
  | run r locks =>
    cases hc
    cases i with
    | sleep ch j =>
      dsimp only at hf
      split at hf <;> cases hf
      cases h
      exact .inl (by simp [startSleep])
    | own | unlock j =>
      dsimp only at hf
      split at hf <;> cases hf
      cases h
    | lock j | wakeup ch | change r j =>
      cases hf
      cases h
    | _ => cases hf
  | resume r =>
    cases hc
    dsimp only at hf
    split at hf <;> cases hf
    · cases h
    · cases h
      exact .inr ⟨rfl, ‹_›, rfl⟩
  | wake who ch n =>
    cases hc
    split at hf <;> cases hf
    · cases h
    · rw [sleepLk_ret] at h
      cases h
  | sched =>
    cases hc
    cases i <;> cases hf <;> cases h
  | recheck r =>
    cases hc
    dsimp only at hf
    split at hf <;> cases hf <;> cases h
  | own r =>
    cases hc
    cases i with
    | act a =>
      dsimp only at hf
      split at hf <;> cases hf <;> cases h
    | _ => cases hf
  | back r | sleepSet r ch j | wakeSet who ch r | changeSet who r j =>
    cases hc
    cases hf
    cases h
  | _ => cases hc

theorem restored_of_act (hc : schedCode c p = .act f) (hf : f i m = some (m', p'))
    (hcur : p'.cur = some q) (h : p'.restored = true) :
    m'.saved q = none ∨ p.cur = some q ∧ p.restored = true ∧ ∀ ch k, p ≠ .sleepSet q ch k := by
  rcases schedCode_act hc hf with ⟨r, rfl, rfl, -⟩ | ⟨r, -, -, -, rfl, -⟩ | ⟨r, rfl, rfl, -⟩ |
    ⟨he, hb, hb', -⟩
  · cases h
  · cases h
  · cases hcur
  rw [he] at hcur
  cases p with
  | resume r =>
    cases hcur
    refine .inl ?_
    cases hc
    dsimp only at hf
    split at hf <;> cases hf
    · assumption
    · simp [setSaved]
  | back r => cases hb
  | sleepSet r ch k =>
    cases hc
    cases hf
    cases hb'
  | _ => exact .inr ⟨hcur, rfl, fun _ _ => by simp⟩

section
variable (q : ProcId) (hc : schedCode c p = .act f) (hf : f i m = some (m', p'))
include hc hf

/-- Where the record of a process that sleeps is made. -/
theorem saved_of_act :
    m'.saved q = none ∨ m'.saved q = m.saved q ∨ ∃ ch k, p = .sleepSet q ch k ∧
      m'.saved q = some k ∧ m'.lk q = m.lk q := by
  rcases schedCode_touches q hc hf with h | h
  · exact .inr (.inl h.saved)
  cases h with
  | dispatch _ | sleep => exact .inr (.inl rfl)
  | own h => exact .inl h
  | awake _ => exact .inl (by simp [setSaved])
  | @giveUp a m' h =>
    cases a <;> cases h
    · exact .inl (by simp [setSaved])
    · exact .inl (by simp [setSaved])
    · exact .inr (.inl rfl)
  | @asleep ch k => exact .inr (.inr ⟨ch, k, rfl, by simp [setSaved], rfl⟩)
  | wake =>
    refine .inr (.inl ?_)
    unfold wakeup1
    split <;> rfl
  | @change who k =>
    cases k <;> dsimp only [SMem.change] <;> split
    · exact .inr (.inl rfl)
    · exact .inr (.inl rfl)
    · exact .inl (by simp [setSaved])
    · exact .inr (.inl rfl)
    · exact .inr (.inl rfl)
    · exact .inr (.inl rfl)

/-- Only the process itself begins a call of `sleep`. -/
theorem call_of_act :
    m'.lk q = m.lk q ∧ m'.sleeps q = m.sleeps q ∨ ∃ locks, p = .run q locks := by
  rcases schedCode_touches q hc hf with h | h
  · exact .inl ⟨h.lk, h.sleeps⟩
  cases h with
  | @sleep locks ch k => exact .inr ⟨locks, rfl⟩
  | @giveUp a m' h =>
    cases a <;> cases h <;> exact .inl ⟨rfl, rfl⟩
  | wake =>
    refine .inl ?_
    unfold wakeup1
    split <;> exact ⟨rfl, rfl⟩
  | @change who k =>
    refine .inl ?_
    cases k <;> dsimp only [SMem.change] <;> split <;> exact ⟨rfl, rfl⟩
  | _ => exact .inl ⟨rfl, rfl⟩

end

end

theorem SleepInv.next (I : SleepInv s) (h : LockState.Steps schedCode s (c, i) s') :
    SleepInv s' := by
  have hdispatch := I.dispatch.next h
  have hother : ∀ d, d ≠ c → s'.pc d = s.pc d := fun d hd => h.pc_of_ne hd
  obtain ⟨hl, hmem⟩ | ⟨f, m, p, hc, hf, rfl⟩ := sched_cases h
  · refine ⟨hdispatch, by rw [hmem]; exact I.saved, ?_, ?_⟩
    · intro d p hd hr
      rw [hmem]
      by_cases hdc : d = c
      · subst hdc
        exact I.fresh d p (hl.cur.1 ▸ hd) hl.restored
      · rw [hother d hdc] at hd hr
        exact I.fresh d p hd hr
    · intro d p k hd
      rw [hmem]
      by_cases hdc : d = c
      · subst hdc
        exact I.lock d p k (hl.sleepLk hd)
      · rw [hother d hdc] at hd
        exact I.lock d p k hd
  have huniq := I.dispatch.unique
  have hnone : ∀ q, s.mem.saved q = none → (∀ ch j, s.pc c ≠ .sleepSet q ch j) →
      m.saved q = none := by
    intro q hold hne
    rcases saved_of_act q hc hf with hnone | hkeep | ⟨ch, j, hpc, -⟩
    · exact hnone
    · exact hkeep.trans hold
    · exact absurd hpc (hne ch j)
  refine ⟨hdispatch, ?_, ?_, ?_⟩
  · intro q k hk
    change m.saved q = some k at hk
    change m.lk q = k
    rcases saved_of_act q hc hf with hnone | hkeep | ⟨ch, j, hpc, hj, hlk⟩
    · rw [hnone] at hk
      cases hk
    · rw [hkeep] at hk
      rcases call_of_act q hc hf with ⟨hlk, _⟩ | ⟨locks, hpc⟩
      · rw [hlk]
        exact I.saved q k hk
      · -- a process that runs has no record
        rw [I.fresh c q (by rw [hpc]; rfl) (by rw [hpc]; rfl)] at hk
        cases hk
    · rw [hlk, I.lock c q j (by rw [hpc]; rfl)]
      exact Option.some.inj (hj.symm.trans hk)
  · intro d q hd hr
    change m.saved q = none
    by_cases hdc : d = c
    · subst hdc
      rw [goto_pc_self] at hd hr
      rcases restored_of_act hc hf hd hr with h0 | ⟨hcur, hrest, hne⟩
      · exact h0
      · exact hnone q (I.fresh d q hcur hrest) hne
    · rw [hother d hdc] at hd hr
      exact hnone q (I.fresh d q hd hr) fun ch j hpc => hdc (huniq d c q hd (by rw [hpc]; rfl))
  · intro d q k hd
    change m.lk q = k
    by_cases hdc : d = c
    · subst hdc
      rw [goto_pc_self] at hd
      rcases sleepLk_of_act hc hf hd with hk | ⟨_, hsaved, hlk⟩
      · exact hk
      · rw [hlk]
        exact I.saved q k hsaved
    · rw [hother d hdc] at hd
      rcases call_of_act q hc hf with ⟨hlk, _⟩ | ⟨locks, hpc⟩
      · exact hlk.trans (I.lock d q k hd)
      · exact absurd (huniq d c q (cur_of_sleepLk hd).1 (by rw [hpc]; rfl)) hdc

/-! ### No lost wakeup -/

/-- The `n`th call of `sleep` by `p`, on `ch`, has released its lock and has not been made
`RUNNABLE`. -/
structure Pending (s : SState C) (p : ProcId) (n ch : Nat) : Prop where
  call : s.mem.sleeps p = n
  place : (∃ c k, s.pc c = .sleepSet p ch k) ∨
    s.mem.state p = .SLEEPING ∧ s.mem.chan p = some ch ∧ s.mem.saved p ≠ none

/-- The process is `RUNNABLE` in its `n`th call of `sleep`, or after it. -/
def Runnable (p : ProcId) (n : Nat) (s : SState C) : Prop :=
  s.mem.state p = .RUNNABLE ∧ s.mem.sleeps p = n

variable {n ch : Nat}

omit [DecidableEq C] in
/-- A process that sleeps is on no CPU, unless this CPU is just giving it up. -/
theorem DispatchInv.not_running (I : DispatchInv s) (h : s.mem.state p = .SLEEPING)
    (hcur : (s.pc c).cur = some p) : (s.pc c).isBack = true := by
  cases hb : (s.pc c).isBack with
  | true => rfl
  | false =>
    rw [I.running c p hcur hb] at h
    cases h

/-- What a step does to a process that sleeps. -/
theorem asleep_of_act {m m' : SMem C} {q q' : SPc} {f : SIn → SMem C → Option (SMem C × SPc)}
    (hc : schedCode c q = .act f) (hf : f i m = some (m', q'))
    (hq : q.cur = some p → q.isBack = true) (hs : m.state p = .SLEEPING) :
    SameProc p m m' ∨ m'.state p = .RUNNABLE ∧ m'.sleeps p = m.sleeps p := by
  rcases schedCode_touches p hc hf with h | h
  · exact .inl h
  cases h with
  | dispatch hr =>
    rw [hs] at hr
    cases hr
  | wake =>
    unfold wakeup1
    split
    · exact .inr (by simp [setState])
    · exact .inl (.refl p m)
  | @change who k =>
    cases k <;> simp only [SMem.change, hs, if_true, reduceCtorEq, if_false]
    · exact .inr (by simp [setState])
    · exact .inl (.refl p m)
    · exact .inl (.refl p m)
  | _ => cases hq rfl

/-- A call that is pending stays so until it is made `RUNNABLE`. -/
theorem Pending.next (I : SleepInv s) (hp : Pending s p n ch)
    (h : LockState.Steps schedCode s (c, i) s') (hn : ¬ Runnable p n s') : Pending s' p n ch := by
  have hother : ∀ d, d ≠ c → s'.pc d = s.pc d := fun d hd => h.pc_of_ne hd
  obtain ⟨hcall, ⟨d, k, hd⟩ | hsleep⟩ := hp
  · obtain ⟨hl, hmem⟩ | ⟨f, m, q, hc, hf, rfl⟩ := sched_cases h
    · have hdc : d ≠ c := by
        rintro rfl
        rw [hd] at hl
        obtain ⟨l, hc | hc⟩ := hl <;> cases hc
      exact ⟨hmem ▸ hcall, .inl ⟨d, k, (hother d hdc).trans hd⟩⟩
    by_cases hdc : d = c
    · -- the process goes to sleep
      subst hdc
      rw [hd] at hc
      cases hc
      cases hf
      refine ⟨hcall, .inr ⟨?_, ?_, ?_⟩⟩ <;> simp [setState, setChan, setSaved]
    · -- only the process itself could begin another call
      refine ⟨?_, .inl ⟨d, k, (hother d hdc).trans hd⟩⟩
      rcases call_of_act p hc hf with ⟨_, hs⟩ | ⟨locks, hpc⟩
      · exact hs.trans hcall
      · exact absurd (I.dispatch.unique d c p (by rw [hd]; rfl) (by rw [hpc]; rfl)) hdc
  · obtain ⟨-, hmem⟩ | ⟨f, m, q, hc, hf, rfl⟩ := sched_cases h
    · exact ⟨hmem ▸ hcall, .inr (hmem ▸ hsleep)⟩
    rcases asleep_of_act hc hf (I.dispatch.not_running hsleep.1) hsleep.1 with hsame | ⟨hr, hs⟩
    · exact ⟨hsame.sleeps.trans hcall, .inr ⟨hsame.state.trans hsleep.1,
        hsame.chan.trans hsleep.2.1, fun hn => hsleep.2.2 (hsame.saved.symm.trans hn)⟩⟩
    · exact absurd ⟨hr, hs.trans hcall⟩ hn

/-- The channel of a call of `wakeup`, and how many slots it is done with. -/
def SPc.wakeDone : SPc → Option (Nat × Nat)
  | .wake _ ch i => some (ch, i)
  | .wakeLock _ ch q | .wakeSet _ ch q => some (ch, q)
  | .wakeUnlock _ ch q => some (ch, q + 1)
  | _ => none

/-- The call of `wakeup` on CPU `d` has slots to look at. -/
def InWakeup (d : C) (s : SState C) (_a : C × SIn) : Prop :=
  match s.pc d with
  | .wake _ _ j => j < NPROC
  | _ => True

instance (d : C) (s : SState C) (a : C × SIn) : Decidable (InWakeup d s a) := by
  unfold InWakeup
  split <;> infer_instance

/-- The call of `wakeup` on CPU `d` is not done with the slot of a call of `sleep` that is pending. -/
structure WakeInv (d : C) (p : ProcId) (n ch : Nat) (s : SState C) : Prop where
  sleep : SleepInv s
  pending : Pending s p n ch
  slots : ∃ j ≤ p.val, (s.pc d).wakeDone = some (ch, j)

omit [DecidableEq C] in
/-- `wakeup` has the lock of a process whose call of `sleep` is pending. -/
theorem Pending.woken (I : SleepInv s) (hp : Pending s p n ch) {who : Caller}
    (hpc : s.pc d = .wakeSet who ch p) : (s.mem.wakeup1 ch p).state p = .RUNNABLE ∧
      (s.mem.wakeup1 ch p).sleeps p = n := by
  rcases hp.place with ⟨e, k, he⟩ | ⟨hstate, hchan, -⟩
  · -- the sleeper has kept its lock since before it released the other one
    have h1 := (I.dispatch.owned.locks (.proc p) d).mpr (by rw [hpc]; exact .inl rfl)
    have h2 := (I.dispatch.owned.locks (.proc p) e).mpr (by rw [he]; rfl)
    have hde : d = e := Option.some.inj (h1.symm.trans h2)
    rw [← hde, hpc] at he
    cases he
  · rw [wakeup1, if_pos ⟨hstate, hchan⟩]
    exact ⟨by simp [setState], hp.call⟩

theorem WakeInv.next (W : WakeInv d p n ch s) (hin : InWakeup d s (c, i))
    (h : LockState.Steps schedCode s (c, i) s') (hn : ¬ Runnable p n s') : WakeInv d p n ch s' := by
  refine ⟨W.sleep.next h, W.pending.next W.sleep h hn, ?_⟩
  obtain ⟨j, hle, hj⟩ := W.slots
  by_cases hdc : d = c
  · subst hdc
    obtain ⟨hl, -⟩ | ⟨f, m, q, hc, hf, rfl⟩ := sched_cases h
    · refine ⟨j, hle, ?_⟩
      generalize s.pc d = r at hl hj
      generalize s'.pc d = r' at hl ⊢
      obtain ⟨l, hc | hc⟩ := hl <;> cases r <;> cases hj <;> cases hc <;> rfl
    rw [goto_pc_self]
    cases hpc : s.pc d with
    | wake who ch' k =>
      rw [hpc] at hc hj
      cases hj
      cases hc
      dsimp only at hf
      simp only [InWakeup, hpc] at hin
      rw [dif_pos hin] at hf
      cases hf
      exact ⟨j, hle, rfl⟩
    | wakeSet who ch' r =>
      rw [hpc] at hc hj
      cases hj
      cases hc
      cases hf
      refine ⟨r + 1, Nat.lt_of_le_of_ne hle fun he => ?_, rfl⟩
      obtain rfl : r = p := Fin.ext he
      exact hn (W.pending.woken W.sleep hpc)
    | wakeLock who ch' r | wakeUnlock who ch' r =>
      rw [hpc] at hc
      cases hc
    | _ =>
      rw [hpc] at hj
      cases hj
  · rw [h.pc_of_ne hdc]
    exact ⟨j, hle, hj⟩

/-- A table at boot. -/
structure Booted (m : SMem C) : Prop where
  quiet : Quiet m
  saved : ∀ p, m.saved p = none

theorem sleepInv_run {m : SMem C} {as : List (C × SIn)} (hm : Booted m)
    (h : Run (LockState.Steps schedCode) (SState.start m) as s) : SleepInv s := by
  have hstart : SleepInv (SState.start m) := by
    refine ⟨dispatchInv_start hm.quiet, ?_, fun _ p _ _ => hm.saved p, ?_⟩
    · intro p k hk
      rw [show (SState.start m).mem.saved p = none from hm.saved p] at hk
      cases hk
    · intro c p k hk
      cases hk
  refine h.invariant ?_ hstart
  rintro s ⟨c, i⟩ s' hs I
  exact I.next hs

/-- A call of `sleep` that has released its lock when a call of `wakeup` on its channel begins has
been made `RUNNABLE` on the way when this call is over; and when `sleep` returns, its caller has the
lock it gave to `sleep` and not its own. -/
theorem no_lost_wakeup {m : SMem C} {as : List (C × SIn)} (hm : Booted m)
    (h : Run (LockState.Steps schedCode) (SState.start m) as s) :
    (∀ c p ch k i s₁ bs s₂ d who cs s₃ who' ch', s.pc c = .sleepDrop p ch k →
      LockState.Steps schedCode s (c, i) s₁ → Run (LockState.Steps schedCode) s₁ bs s₂ →
      s₂.pc d = .wake who ch 0 →
      Run (Guarded (InWakeup d) (LockState.Steps schedCode)) s₂ cs s₃ →
      s₃.pc d = .wake who' ch' NPROC → ∃ xs ys t, bs ++ cs = xs ++ ys ∧
        Run (LockState.Steps schedCode) s₁ xs t ∧ Run (LockState.Steps schedCode) t ys s₃ ∧
        t.mem.state p = .RUNNABLE ∧ t.mem.sleeps p = s.mem.sleeps p) ∧
    ∀ c p k i s', s.pc c = .sleepRelock p k → LockState.Steps schedCode s (c, i) s' →
      k = s.mem.lk p ∧ s'.pc c = .run p {k} ∧ s'.holder (.user k) = some c ∧
        s'.holder (.proc p) ≠ some c := by
  have I := sleepInv_run hm h
  refine ⟨?_, ?_⟩
  · intro c p ch k i s₁ bs s₂ d who cs s₃ who' ch' hpc hstep hrun hbegin hcall hend
    have hpend : SleepInv s₁ ∧ Pending s₁ p (s.mem.sleeps p) ch := by
      refine ⟨I.next hstep, ?_⟩
      obtain ⟨l, q, hc, -, rfl⟩ | ⟨l, q, hc, -, rfl⟩ | ⟨l, yes, no, hc, rfl⟩ |
        ⟨f, m, q, hc, hf, rfl⟩ := hstep.cases <;> rw [hpc] at hc <;> cases hc
      exact ⟨rfl, .inl ⟨c, k, by simp⟩⟩
    generalize s.mem.sleeps p = n at hpend ⊢
    have hcall' := hcall.mono fun _ _ _ hs => hs.2
    rcases hrun.passes_or (Runnable p n) with hquiet | ⟨xs, ys, t, rfl, hx, hy, ht⟩
    · obtain ⟨J, hJ⟩ := hquiet.invariant
        (fun s _ _ hs (hp : SleepInv s ∧ Pending s p n ch) =>
          ⟨hp.1.next hs.1, hp.2.next hp.1 hs.1 hs.2⟩) hpend
      rcases hcall.passes_or (Runnable p n) with hquiet' | ⟨xs, ys, t, rfl, hx, hy, ht⟩
      · have hW := hquiet'.invariant (fun _ _ _ hs W => WakeInv.next W hs.1.1 hs.1.2 hs.2)
          ⟨J, hJ, 0, Nat.zero_le _, by rw [hbegin]; rfl⟩
        obtain ⟨j, hle, hj⟩ := hW.slots
        rw [hend] at hj
        cases hj
        exact absurd p.isLt (not_lt.mpr hle)
      · refine ⟨bs ++ xs, ys, t, by simp, hrun.append (hx.mono fun _ _ _ hs => hs.2),
          hy.mono fun _ _ _ hs => hs.2, ht⟩
    · exact ⟨xs, ys ++ cs, t, by simp, hx, hy.append hcall', ht⟩
  · intro c p k i s' hpc hstep
    have howned := (I.next hstep).dispatch.owned
    have hk : k = s.mem.lk p := (I.lock c p k (by rw [hpc]; rfl)).symm
    obtain ⟨l, q, hc, -, rfl⟩ | ⟨l, q, hc, -, rfl⟩ | ⟨l, yes, no, hc, rfl⟩ |
      ⟨f, m, q, hc, hf, rfl⟩ := hstep.cases <;> rw [hpc] at hc <;> cases hc
    refine ⟨hk, by simp, by simp, ?_⟩
    intro hproc
    have hold := (howned.locks (.proc p) c).mp hproc
    rw [goto_pc_self] at hold
    cases hold

end

/-- Two processes wait for a CPU. -/
def SMem.twoRunnable : SMem (Fin NCPU) where
  state p := if p.val < 2 then .RUNNABLE else .UNUSED
  chan _ := none
  killed _ := false
  saved _ := none
  cproc _ := none
  sleeps _ := 0
  lk _ := 0

theorem booted_twoRunnable : Booted twoRunnable := by
  refine ⟨⟨fun _ => rfl, ?_⟩, fun _ => rfl⟩
  intro p
  dsimp only [twoRunnable]
  split <;> simp

/-- The CPU dispatches process `p`, which leaves `sched` or `forkret`. -/
def dispatchSteps (c : Fin NCPU) (p : ProcId) : List (Fin NCPU × SIn) :=
  [(c, .select p), (c, .own), (c, .own), (c, .own), (c, .act .release), (c, .own)]

/-- Process 0 calls `sleep` on channel 5 with lock 7, up to the release of the lock. -/
def beforeRelease : List (Fin NCPU × SIn) :=
  dispatchSteps 0 0 ++ [(0, .lock 7), (0, .own), (0, .sleep 5 7), (0, .own)]

/-- Process 1 calls `wakeup` while process 0 is not asleep yet. -/
def beforeWakeup : List (Fin NCPU × SIn) := dispatchSteps 1 1 ++ [(1, .wakeup 5)]

def duringWakeup : List (Fin NCPU × SIn) :=
  [(1, .own), (0, .own), (0, .own), (0, .own)] ++ List.replicate 255 (1, .own)

theorem no_lost_wakeup_early : ∃ s s₁ s₂ s₃ who,
    Run (LockState.Steps schedCode) (SState.start .twoRunnable) beforeRelease s ∧
    s.pc 0 = .sleepDrop 0 5 7 ∧ LockState.Steps schedCode s (0, .own) s₁ ∧
    Run (LockState.Steps schedCode) s₁ beforeWakeup s₂ ∧ s₂.pc 1 = .wake who 5 0 ∧
    Run (Guarded (InWakeup 1) (LockState.Steps schedCode)) s₂ duringWakeup s₃ ∧
    s₃.pc 1 = .wake who 5 NPROC ∧ ∃ xs ys t, beforeWakeup ++ duringWakeup = xs ++ ys ∧
      Run (LockState.Steps schedCode) s₁ xs t ∧ Run (LockState.Steps schedCode) t ys s₃ ∧
      t.mem.state 0 = .RUNNABLE ∧ t.mem.sleeps 0 = s.mem.sleeps 0 := by
  obtain ⟨s, hs, hpc, s₁, hs1, s₂, hs2, hbegin, s₃, hs3, hend⟩ : ∃ s,
      beforeRelease.foldlM (LockState.next schedCode) (SState.start .twoRunnable) = some s ∧
      s.pc 0 = .sleepDrop 0 5 7 ∧ ∃ s₁,
      s.next schedCode (0, .own) = some s₁ ∧ ∃ s₂,
      beforeWakeup.foldlM (LockState.next schedCode) s₁ = some s₂ ∧
      s₂.pc 1 = .wake (some (1, ∅)) 5 0 ∧ ∃ s₃,
      duringWakeup.foldlM (fun s a => if InWakeup 1 s a then LockState.next schedCode s a else none)
        s₂ = some s₃ ∧ s₃.pc 1 = .wake (some (1, ∅)) 5 NPROC := by
    decide +kernel
  exact ⟨s, s₁, s₂, s₃, _, .of_exec hs, hpc, hs1, .of_exec hs2, hbegin, .of_foldlM hs3, hend,
    (no_lost_wakeup booted_twoRunnable (.of_exec hs)).1 0 0 5 7 .own s₁ _ s₂ 1 _ _ s₃ _ _ hpc hs1
      (.of_exec hs2) hbegin (.of_foldlM hs3) hend⟩

end Yyds.Sync
