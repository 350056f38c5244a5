import Yyds.Sched.Select

/-! The feedback queue under load: one CPU, and processes that use up every dispatch. -/
namespace Yyds.Sched

open Lib Function
open Mm (ProcId)

/-- One iteration of the loop of `scheduler` on the CPU `c`, after which the process is `RUNNABLE`
again, and the process that was switched to. -/
def State.loop (c : CpuId) (ticks : BitVec 32) (s : State) : Option ProcId × State :=
  let s := s.selects c ticks
  match s.selected c with
  | none => (none, s)
  | some p =>
    if (s.proc p).state = .RUNNABLE then (some p, (s.runs c p).returns c p .RUNNABLE)
    else (none, s.runs c p)

/-- The state after `n` iterations; `ticks i` is the time of the `i`-th. -/
def State.loops (c : CpuId) (ticks : Nat → BitVec 32) (s : State) : Nat → State
  | 0 => s
  | n + 1 => ((s.loops c ticks n).loop c (ticks n)).2

/-- The process the `n`-th iteration switches to. -/
def State.dispatched (c : CpuId) (ticks : Nat → BitVec 32) (s : State) (n : Nat) : Option ProcId :=
  ((s.loops c ticks n).loop c (ticks n)).1

/-- The processes of `P` are normal and can run, and no other can run. -/
structure CpuBound (P : Finset ProcId) (proc : Table) : Prop where
  normal : ∀ p ∈ P, (proc p).Normal
  others : ∀ p ∉ P, (proc p).state ≠ .RUNNABLE

/-- In any `B` consecutive iterations every process of `P` is switched to. -/
def NoStarvation (B : Nat) (P : Finset ProcId) : Prop :=
  ∀ (s : State) c ticks, CpuBound P s.proc →
    ∀ n, ∀ p ∈ P, ∃ i < B, s.dispatched c ticks (n + i) = some p

/-- processes that have their first allotment between two boosts -/
def BOOST_SHARE : Nat := 20

variable {P : Finset ProcId} {proc : Table} {s : State} {c : CpuId} {ticks : BitVec 32}

/-! ### One iteration -/

theorem Proc.newPeriod_state (q : Proc) : (q.newPeriod ticks).state = q.state := by
  obtain ⟨d, r, heq⟩ := q.newPeriod_with ticks
  rw [heq]

theorem Proc.boost_state (q : Proc) : q.boost.state = q.state := by
  obtain ⟨l, m, heq⟩ := q.boost_with
  rw [heq]

variable {q : Proc} {p : ProcId} {j : Nat}

theorem Proc.Normal.newPeriod (h : q.Normal) : q.newPeriod ticks = q := by
  refine if_neg fun hover => ?_
  have hpol := hover.2.1
  rw [h.2] at hpol
  cases hpol

theorem Proc.Normal.boost_eq (h : q.Normal) :
    q.boost = { q with mlfq_level := 0, mlfq_allotment := mlfq_allotment_init 0 } := by
  refine if_pos fun hunused => ?_
  rw [h.1] at hunused
  cases hunused

theorem Proc.Normal.boost (h : q.Normal) : q.boost.Normal := by
  rw [h.boost_eq]
  exact h

theorem CpuBound.selects (h : CpuBound P s.proc) : CpuBound P (s.selects c ticks).proc := by
  rcases Nat.lt_or_ge (s.mlfq_boost_counter + 1) MLFQ_BOOST_INTERVAL with hq | hb
  · refine ⟨fun p hp => ?_, fun p hp => ?_⟩
    · rw [selects_quiet hq, (h.normal p hp).newPeriod]
      exact h.normal p hp
    · rw [selects_quiet hq, Proc.newPeriod_state]
      exact h.others p hp
  · refine ⟨fun p hp => ?_, fun p hp => ?_⟩
    · rw [selects_boost hb, (h.normal p hp).boost.newPeriod]
      exact (h.normal p hp).boost
    · rw [selects_boost hb, Proc.newPeriod_state, Proc.boost_state]
      exact h.others p hp

theorem CpuBound.mem (h : CpuBound P proc) (hp : (proc p).state = .RUNNABLE) : p ∈ P := by
  by_contra hno
  exact h.others p hno hp

theorem CpuBound.select (h : CpuBound P proc) : select proc = find_mlfq_process proc := by
  rcases select_cases proc with ⟨p, hp, _⟩ | ⟨_, p, hp, _⟩ | ⟨_, _, hsel⟩
  · have hel := (find_deadline_process_some hp).1
    exact absurd hel (h.normal p (h.mem hel.1)).not_eligible
  · have hrt := (find_rt_process_some hp).1
    exact absurd hrt (h.normal p (h.mem hrt.1)).not_realTime
  · exact hsel

/-- An iteration switches to the process the feedback queue gives, and charges it. -/
theorem CpuBound.loop_some (h : CpuBound P s.proc)
    (hp : find_mlfq_process (s.selects c ticks).proc = some p) :
    (s.loop c ticks).1 = some p ∧
    (s.loop c ticks).2.proc =
      update (s.selects c ticks).proc p
        (((s.selects c ticks).proc p).charge .RUNNABLE) := by
  have hselected : (s.selects c ticks).selected c = some p := by
    rw [← hp, ← h.selects.select]
    exact update_self ..
  have hst := (find_mlfq_process_normal hp).1
  unfold State.loop
  simp only [hselected, if_pos hst]
  refine ⟨trivial, ?_⟩
  simp only [State.returns, State.runs, State.set, if_pos hst, update_self, update_idem]
  rfl

theorem CpuBound.loop_none (h : CpuBound P s.proc)
    (hp : find_mlfq_process (s.selects c ticks).proc = none) :
    (s.loop c ticks).2.proc = (s.selects c ticks).proc := by
  have hselected : (s.selects c ticks).selected c = none := by
    rw [← hp, ← h.selects.select]
    exact update_self ..
  unfold State.loop
  simp only [hselected]

theorem Proc.Normal.charge (h : q.Normal) : (q.charge .RUNNABLE).Normal := by
  obtain ⟨l, m, r, heq⟩ := q.charge_with .RUNNABLE
  rw [heq]
  exact ⟨rfl, h.2⟩

theorem CpuBound.loop (h : CpuBound P s.proc) : CpuBound P (s.loop c ticks).2.proc := by
  have hsel : CpuBound P (s.selects c ticks).proc := h.selects
  cases hp : find_mlfq_process (s.selects c ticks).proc with
  | none =>
    rw [h.loop_none hp]
    exact hsel
  | some p =>
    rw [(h.loop_some hp).2]
    have hnormal := find_mlfq_process_normal hp
    refine ⟨fun x hx => ?_, fun x hx => ?_⟩
    · by_cases hxp : x = p
      · subst hxp
        rw [update_self]
        exact hnormal.charge
      · rw [update_of_ne hxp]
        exact hsel.normal x hx
    · have hxp : x ≠ p := fun heq => hx (heq ▸ hsel.mem hnormal.1)
      rw [update_of_ne hxp]
      exact hsel.others x hx

theorem loop_counter : (s.loop c ticks).2.mlfq_boost_counter =
    if MLFQ_BOOST_INTERVAL ≤ s.mlfq_boost_counter + 1 then 0 else s.mlfq_boost_counter + 1 := by
  unfold State.loop
  dsimp only
  split
  · rfl
  split
  · unfold State.returns State.runs
    dsimp only
    split <;> rfl
  · unfold State.runs
    dsimp only
    split <;> rfl

/-! ### One boost period -/

/-- How the queue stands `j` dispatches after a boost: the processes take their five dispatches in
the order of the table. -/
structure Elapsed (P : Finset ProcId) (j : Nat) (proc : Table) : Prop where
  ahead : ∀ p ∈ P, j < 5 * (rank P p + 1) → (proc p).mlfq_level = 0 ∧
    (proc p).mlfq_allotment = ((5 - (j - 5 * rank P p) : Nat) : Int)
  past : ∀ p ∈ P, 5 * (rank P p + 1) ≤ j → 0 < (proc p).mlfq_level

theorem Elapsed.boost (h : CpuBound P s.proc)
    (hb : MLFQ_BOOST_INTERVAL ≤ s.mlfq_boost_counter + 1) :
    Elapsed P 0 (s.selects c ticks).proc := by
  refine ⟨fun p hp _ => ?_, fun p _ hle => by omega⟩
  rw [selects_boost hb, (h.normal p hp).boost.newPeriod, (h.normal p hp).boost_eq]
  rw [Nat.zero_sub]
  exact ⟨rfl, rfl⟩

theorem Elapsed.quiet (h : CpuBound P s.proc) (he : Elapsed P j s.proc)
    (hq : s.mlfq_boost_counter + 1 < MLFQ_BOOST_INTERVAL) :
    Elapsed P j (s.selects c ticks).proc := by
  have hsame : ∀ p ∈ P, (s.selects c ticks).proc p = s.proc p := by
    intro p hp
    rw [selects_quiet hq, (h.normal p hp).newPeriod]
  refine ⟨fun p hp hlt => ?_, fun p hp hle => ?_⟩
  · rw [hsame p hp]
    exact he.ahead p hp hlt
  · rw [hsame p hp]
    exact he.past p hp hle

/-- The next dispatch goes to the process whose turn it is. -/
theorem Elapsed.next (hb : CpuBound P proc) (he : Elapsed P j proc) (hp : p ∈ P)
    (hrank : rank P p = j / 5) : find_mlfq_process proc = some p := by
  have hfirst : (firstProc fun x => (proc x).Normal ∧ (proc x).mlfq_level = ((0 : Nat) : Int)) =
      some p := by
    unfold firstProc
    rw [find?_finRange_some]
    refine ⟨decide_eq_true ⟨hb.normal p hp, (he.ahead p hp (by omega)).1⟩, fun x hx => ?_⟩
    refine decide_eq_false fun ⟨hnormal, hlevel⟩ => ?_
    have hxP := hb.mem hnormal.1
    have hless := rank_lt_rank hxP hx
    have hpos := he.past x hxP (by omega)
    rw [hlevel] at hpos
    exact absurd hpos (by decide)
  have hrange : List.range MLFQ_LEVELS = [0, 1, 2, 3] := rfl
  unfold find_mlfq_process
  rw [hrange, List.findSome?_cons, hfirst]

theorem Proc.Normal.charge_eq (h : q.Normal) (hlevel : q.mlfq_level = 0) :
    (q.charge .RUNNABLE).mlfq_level = (if q.mlfq_allotment - 1 ≤ 0 then 1 else 0) ∧
    (0 < q.mlfq_allotment - 1 → (q.charge .RUNNABLE).mlfq_allotment = q.mlfq_allotment - 1) := by
  unfold Proc.charge
  rw [if_pos rfl, h.2]
  dsimp only
  have hlow : (0 : Int) < (MLFQ_LEVELS : Int) - 1 := by decide
  by_cases hused : q.mlfq_allotment - 1 ≤ 0
  · rw [if_pos ⟨hused, by rw [hlevel]; exact hlow⟩, if_pos hused]
    exact ⟨by rw [hlevel]; rfl, fun hpos => by omega⟩
  · rw [if_neg fun hboth => hused hboth.1, if_neg hused]
    exact ⟨hlevel, fun _ => rfl⟩

theorem Elapsed.charge (hb : CpuBound P proc) (he : Elapsed P j proc) (hp : p ∈ P)
    (hrank : rank P p = j / 5) : Elapsed P (j + 1) (update proc p ((proc p).charge .RUNNABLE)) := by
  obtain ⟨hlevel, hleft⟩ := he.ahead p hp (by omega)
  obtain ⟨hlevel', hleft'⟩ := (hb.normal p hp).charge_eq hlevel
  refine ⟨fun x hx hlt => ?_, fun x hx hle => ?_⟩
  · by_cases hxp : x = p
    · subst hxp
      rw [update_self, hlevel', if_neg (by omega)]
      exact ⟨rfl, by omega⟩
    rw [update_of_ne hxp]
    obtain ⟨hxlevel, hxleft⟩ := he.ahead x hx (by omega)
    refine ⟨hxlevel, hxleft.trans ?_⟩
    -- the turn of `x` is still to come, so none of its dispatches is used up
    have hne : rank P x ≠ rank P p := fun heq => hxp (eq_of_rank_eq hx hp heq)
    omega
  · by_cases hxp : x = p
    · subst hxp
      rw [update_self, hlevel', if_pos (by omega)]
      decide
    · rw [update_of_ne hxp]
      have hne : rank P x ≠ rank P p := fun heq => hxp (eq_of_rank_eq hx hp heq)
      exact he.past x hx (by omega)

/-- From a boost on, the `i`-th dispatch is that of the process in place `i / 5`. -/
theorem boost_period (tick : Nat → BitVec 32) (h : CpuBound P s.proc)
    (hb : MLFQ_BOOST_INTERVAL ≤ s.mlfq_boost_counter + 1) {i : Nat} (hi : i < MLFQ_BOOST_INTERVAL)
    (hcard : i < 5 * P.card) :
    (∃ p ∈ P, rank P p = i / 5 ∧ s.dispatched c tick i = some p) ∧
    CpuBound P (s.loops c tick (i + 1)).proc ∧ Elapsed P (i + 1) (s.loops c tick (i + 1)).proc ∧
    (s.loops c tick (i + 1)).mlfq_boost_counter = i := by
  have hturn (n : Nat) (hn : CpuBound P (s.loops c tick n).proc) (hcard : n < 5 * P.card)
      (he : Elapsed P n ((s.loops c tick n).selects c (tick n)).proc) :
      (∃ p ∈ P, rank P p = n / 5 ∧ s.dispatched c tick n = some p) ∧
      CpuBound P (s.loops c tick (n + 1)).proc ∧
      Elapsed P (n + 1) (s.loops c tick (n + 1)).proc := by
    obtain ⟨p, hp, hrank⟩ := exists_rank (P := P) (i := n / 5) (by omega)
    have hnext := he.next hn.selects hp hrank
    obtain ⟨hdisp, hproc⟩ := hn.loop_some hnext
    have hcharge := he.charge hn.selects hp hrank
    rw [← hproc] at hcharge
    exact ⟨⟨p, hp, hrank, hdisp⟩, hn.loop, hcharge⟩
  induction i with
  | zero =>
    obtain ⟨hdisp, hbound, helapsed⟩ := hturn 0 h hcard (.boost h hb)
    exact ⟨hdisp, hbound, helapsed, loop_counter.trans (if_pos hb)⟩
  | succ i ih =>
    obtain ⟨_, hbound, helapsed, hcount⟩ := ih (by omega) (by omega)
    have hquiet : (s.loops c tick (i + 1)).mlfq_boost_counter + 1 < MLFQ_BOOST_INTERVAL := by
      rw [hcount]
      exact hi
    obtain ⟨hdisp, hbound', helapsed'⟩ := hturn (i + 1) hbound hcard (helapsed.quiet hbound hquiet)
    refine ⟨hdisp, hbound', helapsed', loop_counter.trans ?_⟩
    rw [if_neg (Nat.not_le.mpr hquiet), hcount]

/-! ### Whole runs -/

theorem loops_add (c : CpuId) (tick : Nat → BitVec 32) (s : State) (n i : Nat) :
    s.loops c tick (n + i) = (s.loops c tick n).loops c (fun j => tick (n + j)) i := by
  induction i with
  | zero => rfl
  | succ i ih =>
    rw [← Nat.add_assoc]
    simp only [State.loops, ih]

theorem dispatched_add (c : CpuId) (tick : Nat → BitVec 32) (s : State) (n i : Nat) :
    s.dispatched c tick (n + i) =
      (s.loops c tick n).dispatched c (fun j => tick (n + j)) i := by
  simp only [State.dispatched, loops_add]

theorem CpuBound.loops {tick : Nat → BitVec 32} (h : CpuBound P s.proc) (n : Nat) :
    CpuBound P (s.loops c tick n).proc := by
  induction n with
  | zero => exact h
  | succ n ih => exact ih.loop

/-- A boost comes after fewer than `MLFQ_BOOST_INTERVAL` iterations. -/
theorem exists_boost (c : CpuId) (tick : Nat → BitVec 32) (s : State) :
    ∃ m < MLFQ_BOOST_INTERVAL,
      MLFQ_BOOST_INTERVAL ≤ (s.loops c tick m).mlfq_boost_counter + 1 := by
  by_contra hno
  have hlow : ∀ m < MLFQ_BOOST_INTERVAL,
      (s.loops c tick m).mlfq_boost_counter + 1 < MLFQ_BOOST_INTERVAL :=
    fun m hm => Nat.not_le.mp fun hle => hno ⟨m, hm, hle⟩
  have hcount : ∀ m < MLFQ_BOOST_INTERVAL, m ≤ (s.loops c tick m).mlfq_boost_counter := by
    intro m
    induction m with
    | zero => exact fun _ => Nat.zero_le _
    | succ m ih =>
      intro hm
      have hbelow := hlow m (by omega)
      have hnext : (s.loops c tick (m + 1)).mlfq_boost_counter = _ := loop_counter
      rw [if_neg (Nat.not_le.mpr hbelow)] at hnext
      omega
  have h99 : 99 < MLFQ_BOOST_INTERVAL := by decide
  have hlast := hlow 99 h99
  have hlast' := hcount 99 h99
  have hval : MLFQ_BOOST_INTERVAL = 100 := rfl
  omega

theorem noStarvation_of_card_le (h : P.card ≤ BOOST_SHARE) :
    NoStarvation (2 * MLFQ_BOOST_INTERVAL) P := by
  intro s c tick hbound n p hp
  obtain ⟨m, hm, hboost⟩ := exists_boost c (fun j => tick (n + j)) (s.loops c tick n)
  have hrank := rank_lt_card hp
  have hshare : BOOST_SHARE = 20 := rfl
  have hval : MLFQ_BOOST_INTERVAL = 100 := rfl
  rw [← loops_add] at hboost
  obtain ⟨⟨x, hx, hxrank, hdisp⟩, _⟩ := boost_period (fun j => tick (n + m + j))
    (hbound.loops (n + m)) hboost (i := 5 * rank P p) (by omega) (by omega)
  rw [Nat.mul_div_cancel_left _ (by decide)] at hxrank
  rw [eq_of_rank_eq hx hp hxrank, ← dispatched_add, Nat.add_assoc] at hdisp
  exact ⟨m + 5 * rank P p, by omega, hdisp⟩

/-- The processes of `P` just made, right before a boost. -/
def loaded (P : Finset ProcId) : State :=
  { State.init with
    proc := fun p => if p ∈ P then Proc.zero.allocated (p.val + 1) .runnable else .zero
    mlfq_boost_counter := MLFQ_BOOST_INTERVAL - 1 }

theorem loaded_cpuBound (P : Finset ProcId) : CpuBound P (loaded P).proc := by
  refine ⟨fun p hp => ?_, fun p hp => ?_⟩
  · simp only [loaded, if_pos hp]
    exact ⟨rfl, rfl⟩
  · simp only [loaded, if_neg hp]
    exact fun h => by cases h

/-- With more processes each boost comes before the turn of the one in place `BOOST_SHARE`. -/
theorem loaded_never (hp : p ∈ P) (hrank : rank P p = BOOST_SHARE) (tick : Nat → BitVec 32)
    (n : Nat) : (loaded P).dispatched 0 tick n ≠ some p := by
  have hcard := rank_lt_card hp
  have hshare : BOOST_SHARE = 20 := rfl
  have hval : MLFQ_BOOST_INTERVAL = 100 := rfl
  have hperiods (k : Nat) : MLFQ_BOOST_INTERVAL ≤
      ((loaded P).loops 0 tick (k * MLFQ_BOOST_INTERVAL)).mlfq_boost_counter + 1 := by
    induction k with
    | zero => rw [Nat.zero_mul]; exact Nat.le_refl _
    | succ k ih =>
      obtain ⟨_, _, _, hcount⟩ := boost_period (fun j => tick (k * MLFQ_BOOST_INTERVAL + j))
        ((loaded_cpuBound P).loops (k * MLFQ_BOOST_INTERVAL)) ih (i := 99) (by omega) (by omega)
      rw [← loops_add] at hcount
      rw [Nat.succ_mul, show k * MLFQ_BOOST_INTERVAL + MLFQ_BOOST_INTERVAL =
        k * MLFQ_BOOST_INTERVAL + (99 + 1) from rfl, hcount]
      exact Nat.le_refl _
  intro hdisp
  have hmod : n % MLFQ_BOOST_INTERVAL < MLFQ_BOOST_INTERVAL := Nat.mod_lt _ (by decide)
  obtain ⟨⟨x, hx, hxrank, hxdisp⟩, _⟩ := boost_period
    (fun j => tick (n / MLFQ_BOOST_INTERVAL * MLFQ_BOOST_INTERVAL + j))
    ((loaded_cpuBound P).loops _) (hperiods (n / MLFQ_BOOST_INTERVAL)) hmod (by omega)
  rw [← dispatched_add, Nat.div_add_mod', hdisp] at hxdisp
  cases hxdisp
  omega

/-- The boost keeps up to `BOOST_SHARE` processes from starving, with a bound that is the same for
all of them, and no more. -/
theorem boost_prevents_starvation (P : Finset ProcId) :
    (P.card ≤ BOOST_SHARE → NoStarvation (2 * MLFQ_BOOST_INTERVAL) P) ∧
    ((∃ B, NoStarvation B P) → P.card ≤ BOOST_SHARE) := by
  refine ⟨noStarvation_of_card_le, ?_⟩
  rintro ⟨B, hB⟩
  by_contra hmany
  obtain ⟨p, hp, hrank⟩ := exists_rank (P := P) (i := BOOST_SHARE) (by omega)
  obtain ⟨i, _, hdisp⟩ := hB (loaded P) 0 (fun _ => 0) (loaded_cpuBound P) 0 p hp
  exact loaded_never hp hrank _ _ hdisp

/-- With the whole table in use some process is never dispatched. -/
theorem full_table_starves : ¬ ∃ B, NoStarvation B Finset.univ := by
  rintro ⟨B, hB⟩
  obtain ⟨p, hp, hrank⟩ := exists_rank (P := (Finset.univ : Finset ProcId)) (i := BOOST_SHARE)
    (by rw [Finset.card_fin]; decide)
  obtain ⟨i, _, hdisp⟩ := hB (loaded Finset.univ) 0 (fun _ => 0) (loaded_cpuBound _) 0 p hp
  exact loaded_never hp hrank _ _ hdisp

end Yyds.Sched
