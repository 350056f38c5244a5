import Yyds.Fs.Log

/-! Admission control of the log over every interleaving of operations. `log_write` takes
its two tests before it holds the lock, so a write is two steps here. -/
namespace Yyds.Fs

open Lib Function

/-- Where an operation stands between its `begin_op` and the end of its `end_op`. -/
inductive Phase
  | idle
  | running
  | writing (b : Nat)
  | committing
  | committed
  deriving DecidableEq

def Phase.active : Phase → Bool
  | .running | .writing _ => true
  | _ => false

def Phase.inCommit : Phase → Bool
  | .committing | .committed => true
  | _ => false

/-- The log shared by operations `0, 1, …`. `wrote i` is the set of blocks that operation
`i` has logged since its `begin_op`. -/
structure Ops where
  log : Log
  phase : Nat → Phase
  wrote : Nat → Finset Nat
  panicked : Option String

inductive Event
  | beginOp (i : Nat)
  | check (i b : Nat)
  | record (i : Nat)
  | endOp (i : Nat)
  | commit (i : Nat)
  | finish (i : Nat)

namespace Ops

def setPhase (s : Ops) (i : Nat) (p : Phase) : Ops :=
  { s with phase := update s.phase i p }

def setWrote (s : Ops) (i : Nat) (w : Finset Nat) : Ops :=
  { s with wrote := update s.wrote i w }

def setLog (s : Ops) (l : Log) : Ops := { s with log := l }

def halt (s : Ops) (msg : String) : Ops := { s with panicked := some msg }

/-- `none`: the step cannot be taken now (the caller sleeps, or is elsewhere). -/
def step (s : Ops) : Event → Option Ops
  | .beginOp i =>
    if s.panicked = none ∧ s.phase i = .idle ∧ s.log.admits then
      some (((s.setLog { s.log with outstanding := s.log.outstanding + 1 }).setPhase i
        .running).setWrote i ∅)
    else none
  | .check i b =>
    if s.panicked = none ∧ s.phase i = .running then
      match s.log.checkWrite with
      | .error e => some (s.halt e)
      | .ok () => some (s.setPhase i (.writing b))
    else none
  | .record i =>
    match s.panicked, s.phase i with
    | none, .writing b =>
      some (((s.setLog (s.log.record b)).setPhase i .running).setWrote i (insert b (s.wrote i)))
    | _, _ => none
  | .endOp i =>
    if s.panicked = none ∧ s.phase i = .running then
      if s.log.committing then some (s.halt "log.committing")
      else if s.log.outstanding - 1 = 0 then
        some ((s.setLog { s.log with
          outstanding := s.log.outstanding - 1, committing := true }).setPhase i .committing)
      else
        some ((s.setLog { s.log with outstanding := s.log.outstanding - 1 }).setPhase i .idle)
    else none
  | .commit i =>
    if s.panicked = none ∧ s.phase i = .committing then
      some ((s.setLog { s.log with lh := { s.log.lh with n := 0 } }).setPhase i .committed)
    else none
  | .finish i =>
    if s.panicked = none ∧ s.phase i = .committed then
      some ((s.setLog { s.log with committing := false }).setPhase i .idle)
    else none

/-- No operation has begun and the log is empty. -/
def init (start : Nat) (size : Int) : Ops where
  log := ⟨start, size, 0, false, ⟨0, fun _ => 0⟩⟩
  phase := fun _ => .idle
  wrote := fun _ => ∅
  panicked := none

/-- Each operation logs at most `MAXOPBLOCKS` distinct blocks. -/
def Budget (s : Ops) : Event → Prop
  | .check i b => (insert b (s.wrote i)).card ≤ MAXOPBLOCKS
  | _ => True

instance (s : Ops) (e : Event) : Decidable (s.Budget e) := by
  cases e <;> dsimp only [Budget] <;> infer_instance

/-- No block that is already in a full log is logged again. -/
def NoRewriteWhenFull (s : Ops) : Event → Prop
  | .check _ b => ¬ (s.log.lh.n = LOGSIZE ∧ b ∈ s.log.blocks)
  | _ => True

/-- What admission control is for. -/
def Safe (s : Ops) : Prop :=
  s.panicked ≠ some "too big a transaction" ∧ s.log.blocks.Nodup ∧ s.log.lh.n ≤ LOGSIZE

def Steps (s : Ops) (e : Event) (t : Ops) : Prop := s.step e = some t

theorem setPhase_self (s : Ops) (i : Nat) (p : Phase) : (s.setPhase i p).phase i = p := by
  simp [setPhase]

theorem setPhase_of_ne (s : Ops) {i j : Nat} (p : Phase) (h : j ≠ i) :
    (s.setPhase i p).phase j = s.phase j := by
  simp [setPhase, h]

end Ops

/-! ### The scan of `log_write` -/

namespace Log

variable {l : Log}

theorem mem_blocks {b : Nat} : b ∈ l.blocks ↔ ∃ i < l.lh.n, l.lh.block i = b := by
  simp [blocks]

/-- The scan either finds the one slot that holds `b`, or runs to the end. -/
theorem slot_cases (l : Log) (b : Nat) :
    (l.slot b < l.lh.n ∧ l.lh.block (l.slot b) = b) ∨ (l.slot b = l.lh.n ∧ b ∉ l.blocks) := by
  unfold slot
  cases h : (List.range l.lh.n).find? (fun i => l.lh.block i == b) with
  | none =>
    right
    refine ⟨rfl, ?_⟩
    rw [mem_blocks]
    rintro ⟨i, hi, hb⟩
    have := List.find?_eq_none.mp h i (List.mem_range.mpr hi)
    simp [hb] at this
  | some i =>
    left
    have hb := List.find?_some h
    have hi := List.mem_of_find?_eq_some h
    exact ⟨by simpa using hi, by simpa using hb⟩

/-- A block already in the log is absorbed. -/
theorem record_of_mem {b : Nat} (h : b ∈ l.blocks) : l.record b = l := by
  rcases l.slot_cases b with ⟨hlt, hb⟩ | ⟨_, hn⟩
  · have hne : l.slot b ≠ l.lh.n := by omega
    have hup : update l.lh.block (l.slot b) b = l.lh.block := by
      rw [update_eq_self_iff, hb]
    simp [record, hne, hup]
  · exact absurd h hn

theorem record_of_not_mem {b : Nat} (h : b ∉ l.blocks) :
    (l.record b).lh.n = l.lh.n + 1 ∧ (l.record b).blocks = l.blocks ++ [b] := by
  rcases l.slot_cases b with ⟨hlt, hb⟩ | ⟨he, _⟩
  · exact absurd (mem_blocks.mpr ⟨_, hlt, hb⟩) h
  refine ⟨by simp [record, he], ?_⟩
  have hmap : (List.range l.lh.n).map (update l.lh.block l.lh.n b) = l.blocks := by
    apply List.map_congr_left
    intro i hi
    have : i ≠ l.lh.n := by have := List.mem_range.mp hi; omega
    simp [this]
  simp [blocks, record, he, List.range_succ, hmap]

@[simp] theorem record_start (l : Log) (b : Nat) : (l.record b).start = l.start := rfl
@[simp] theorem record_size (l : Log) (b : Nat) : (l.record b).size = l.size := rfl
@[simp] theorem record_outstanding (l : Log) (b : Nat) :
    (l.record b).outstanding = l.outstanding := rfl
@[simp] theorem record_committing (l : Log) (b : Nat) :
    (l.record b).committing = l.committing := rfl

end Log

/-! ### The invariant -/

namespace Ops

/-- What operation `i` may still log. -/
def left (s : Ops) (i : Nat) : Nat := MAXOPBLOCKS - (s.wrote i).card

/-- The room the header still has covers what the operations in `act` may still log. -/
structure Reserved (s : Ops) (act : Finset Nat) : Prop where
  active : ∀ i, i ∈ act ↔ (s.phase i).active = true
  count : s.log.outstanding = act.card
  room : s.log.lh.n + ∑ i ∈ act, s.left i ≤ LOGSIZE
  quiet : s.log.committing = true → act = ∅

structure Inv (s : Ops) : Prop where
  size : (LOGSIZE : Int) + 1 ≤ s.log.size
  calm : s.panicked = none
  nodup : s.log.blocks.Nodup
  reserved : ∃ act, Reserved s act
  logged : ∀ i, (s.phase i).active = true → ∀ b ∈ s.wrote i, b ∈ s.log.blocks
  pending : ∀ i b, s.phase i = .writing b → (insert b (s.wrote i)).card ≤ MAXOPBLOCKS
  flagged : ∀ i, (s.phase i).inCommit = true → s.log.committing = true
  alone : ∀ i j, (s.phase i).inCommit = true → (s.phase j).inCommit = true → i = j

variable {s t : Ops} {i b : Nat}

variable {start : Nat} {size : Int} {act : Finset Nat}

open Phase

theorem inv_init (h : (LOGSIZE : Int) + 1 ≤ size) :
    Inv (init start size) where
  size := h
  calm := rfl
  nodup := by simp [init, Log.blocks]
  reserved := ⟨∅, by simp [init, active], by simp [init], by simp [init], by simp [init]⟩
  logged := by simp [init, active]
  pending := by simp [init]
  flagged := by simp [init, inCommit]
  alone := by simp [init, inCommit]

/-- A full log leaves no budget to anyone, so every write then is a rewrite. -/
theorem mem_blocks_of_full (h : Inv s) (hi : (s.phase i).active = true)
    (hb : (insert b (s.wrote i)).card ≤ MAXOPBLOCKS) (hn : LOGSIZE ≤ s.log.lh.n) :
    b ∈ s.log.blocks := by
  obtain ⟨act, hact⟩ := h.reserved
  have hroom := hact.room
  have hle : s.left i ≤ ∑ j ∈ act, s.left j :=
    Finset.single_le_sum (fun _ _ => Nat.zero_le _) ((hact.active i).mpr hi)
  have hleft : s.left i = 0 := by omega
  have hmem : b ∈ s.wrote i := by
    by_contra hne
    rw [Finset.card_insert_of_notMem hne] at hb
    unfold left at hleft
    omega
  exact h.logged i hi b hmem

theorem lh_n_le (h : Inv s) : s.log.lh.n ≤ LOGSIZE := by
  obtain ⟨act, hact⟩ := h.reserved
  have := hact.room
  omega

/-- Under the budget the tests of `log_write` fail only on a rewrite in a full log. -/
theorem checkWrite_iff (h : Inv s) (hi : (s.phase i).active = true)
    (hb : (insert b (s.wrote i)).card ≤ MAXOPBLOCKS) :
    (s.log.checkWrite = .error "too big a transaction" ↔
      s.log.lh.n = LOGSIZE ∧ b ∈ s.log.blocks) ∧
    (s.log.checkWrite = .error "too big a transaction" ∨ s.log.checkWrite = .ok ()) := by
  have hn := lh_n_le h
  have hs := h.size
  obtain ⟨act, hact⟩ := h.reserved
  have hcard : 1 ≤ act.card := Finset.card_pos.mpr ⟨i, (hact.active i).mpr hi⟩
  have hout : ¬ s.log.outstanding < 1 := by
    rw [hact.count]
    omega
  by_cases hfull : LOGSIZE ≤ s.log.lh.n
  · have hmem := mem_blocks_of_full h hi hb hfull
    have he : s.log.checkWrite = .error "too big a transaction" := by
      simp [Log.checkWrite, hfull]
    exact ⟨⟨fun _ => ⟨by omega, hmem⟩, fun _ => he⟩, Or.inl he⟩
  · have hsz : ¬ (s.log.lh.n : Int) ≥ s.log.size - 1 := by omega
    have he : s.log.checkWrite = .ok () := by
      simp [Log.checkWrite, hfull, hsz, hout]
    refine ⟨⟨fun hc => ?_, fun hc => ?_⟩, Or.inr he⟩
    · rw [he] at hc
      cases hc
    · omega

/-- A step of operation `i` leaves the others where they are; what it owes is the state of
`i` itself and the shared header. -/
theorem Inv.of_step (h : Inv s) (hph : ∀ j, j ≠ i → t.phase j = s.phase j)
    (hwr : ∀ j, j ≠ i → t.wrote j = s.wrote j) (hsize : t.log.size = s.log.size)
    (hcalm : t.panicked = none) (hnodup : t.log.blocks.Nodup) (hres : ∃ act, Reserved t act)
    (hlog : (t.phase i).active = true → ∀ c ∈ t.wrote i, c ∈ t.log.blocks)
    (hpend : ∀ c, t.phase i = .writing c → (insert c (t.wrote i)).card ≤ MAXOPBLOCKS)
    (halone : (t.phase i).inCommit = true →
      t.log.committing = true ∧ ∀ j, j ≠ i → (s.phase j).inCommit = false)
    (hkeep : ∀ j, j ≠ i → (s.phase j).active = true → ∀ c ∈ s.log.blocks, c ∈ t.log.blocks)
    (hflag : ∀ j, j ≠ i → (s.phase j).inCommit = true → s.log.committing = true →
      t.log.committing = true) : Inv t := by
  refine ⟨hsize ▸ h.size, hcalm, hnodup, hres, ?_, ?_, ?_, ?_⟩
  · intro j hj c hc
    by_cases hji : j = i
    · subst j
      exact hlog hj c hc
    · rw [hph j hji] at hj
      rw [hwr j hji] at hc
      exact hkeep j hji hj c (h.logged j hj c hc)
  · intro j c hj
    by_cases hji : j = i
    · subst j
      exact hpend c hj
    · rw [hph j hji] at hj
      rw [hwr j hji]
      exact h.pending j c hj
  · intro j hj
    by_cases hji : j = i
    · subst j
      exact (halone hj).1
    · rw [hph j hji] at hj
      exact hflag j hji hj (h.flagged j hj)
  · intro j k hj hk
    by_cases hji : j = i
    · subst j
      by_contra hne
      have hki : k ≠ i := fun he => hne he.symm
      have hfree := (halone hj).2 k hki
      rw [hph k hki, hfree] at hk
      cases hk
    · by_cases hki : k = i
      · subst k
        have hfree := (halone hk).2 j hji
        rw [hph j hji, hfree] at hj
        cases hj
      · rw [hph j hji] at hj
        rw [hph k hki] at hk
        exact h.alone j k hj hk

/-- The reservation after operation `i` alone changed what it may still log. -/
theorem sum_left_insert (hi : i ∉ act) (hwr : ∀ j, j ≠ i → t.wrote j = s.wrote j) :
    ∑ j ∈ insert i act, t.left j = t.left i + ∑ j ∈ act, s.left j := by
  rw [Finset.sum_insert hi]
  congr 1
  apply Finset.sum_congr rfl
  intro j hj
  have hne : j ≠ i := fun he => hi (he ▸ hj)
  simp only [left, hwr j hne]

theorem inv_beginOp (h : Inv s) (hs : s.step (.beginOp i) = some t) : Inv t := by
  simp only [step, Option.ite_none_right_eq_some] at hs
  obtain ⟨⟨hcalm, hidle, hcom, hroom⟩, hs⟩ := hs
  obtain ⟨act, hact⟩ := h.reserved
  have hni : i ∉ act := by simp [hact.active, hidle, active]
  have hsum : ∑ j ∈ act, s.left j ≤ act.card * MAXOPBLOCKS :=
    Finset.sum_le_card_nsmul _ _ _ (fun j _ => Nat.sub_le _ _)
  have hcount := hact.count
  have hwr : ∀ j, j ≠ i → t.wrote j = s.wrote j := by
    cases hs
    intro j hj
    simp [setWrote, setPhase, setLog, hj]
  have hself : t.left i = MAXOPBLOCKS := by
    cases hs
    simp [left, setWrote]
  have hres : Reserved t (insert i act) := by
    refine ⟨?_, ?_, ?_, ?_⟩
    · intro j
      cases hs
      by_cases hj : j = i
      · subst j
        simp [setWrote, setPhase, active]
      · simp [setWrote, setPhase, setLog, hj, hact.active]
    · cases hs
      simp [setWrote, setPhase, setLog, Finset.card_insert_of_notMem hni, hcount]
    · rw [sum_left_insert hni hwr]
      have hn : t.log.lh.n = s.log.lh.n := by
        cases hs
        rfl
      rw [hcount] at hroom
      have hroom' : s.log.lh.n + (act.card + 1) * MAXOPBLOCKS ≤ LOGSIZE := by
        exact_mod_cast hroom
      rw [Nat.add_mul] at hroom'
      omega
    · intro hc
      cases hs
      simp [setWrote, setPhase, setLog, hcom] at hc
  cases hs
  refine h.of_step ?_ hwr rfl hcalm h.nodup ⟨_, hres⟩ ?_ ?_ ?_ (fun _ _ _ _ hc => hc)
    fun _ _ _ hc => hc
  · intro j hj
    simp [setWrote, setPhase, setLog, hj]
  · simp [setWrote]
  · simp [setWrote, setPhase]
  · simp [setWrote, setPhase, inCommit]

theorem inv_check (h : Inv s) (hb : s.Budget (.check i b)) (hf : s.NoRewriteWhenFull (.check i b))
    (hs : s.step (.check i b) = some t) : Inv t := by
  simp only [step, Option.ite_none_right_eq_some] at hs
  obtain ⟨⟨hcalm, hrun⟩, hs⟩ := hs
  have hact : (s.phase i).active = true := by simp [hrun, active]
  obtain ⟨hiff, hor⟩ := checkWrite_iff h hact hb
  have hok : s.log.checkWrite = .ok () := by
    rcases hor with he | hok
    · exact absurd (hiff.mp he) hf
    · exact hok
  rw [hok] at hs
  cases hs
  obtain ⟨act, hres⟩ := h.reserved
  have hphase : ∀ j, ((s.setPhase i (.writing b)).phase j).active = (s.phase j).active := by
    intro j
    by_cases hj : j = i
    · subst j
      simp [setPhase, active, hrun]
    · rw [setPhase_of_ne s _ hj]
  refine h.of_step (fun j hj => setPhase_of_ne _ _ hj) (fun _ _ => rfl) rfl hcalm h.nodup
    ⟨act, ?_, hres.count, hres.room, hres.quiet⟩ ?_ ?_ ?_ (fun _ _ _ _ hc => hc)
    fun _ _ _ hc => hc
  · intro j
    rw [hphase, hres.active]
  · intro _ c hc
    exact h.logged i hact c hc
  · intro c hc
    rw [setPhase_self] at hc
    cases hc
    exact hb
  · simp [setPhase, inCommit]

/-- Appending a block spends one unit of the budget of its writer; absorbing one spends
none of the header. -/
theorem room_record (h : Inv s) (hres : Reserved s act) (hi : s.phase i = .writing b)
    (hn : t.log = s.log.record b) (hwr : t.wrote = update s.wrote i (insert b (s.wrote i))) :
    t.log.lh.n + ∑ j ∈ act, t.left j ≤ LOGSIZE := by
  have hact : (s.phase i).active = true := by simp [hi, active]
  have hmem : i ∈ act := (hres.active i).mpr hact
  have hpend := h.pending i b hi
  have hroom := hres.room
  have hother : ∑ j ∈ act.erase i, t.left j = ∑ j ∈ act.erase i, s.left j := by
    apply Finset.sum_congr rfl
    intro j hj
    simp only [left, hwr, update_of_ne (Finset.ne_of_mem_erase hj)]
  rw [← Finset.add_sum_erase act _ hmem] at hroom ⊢
  rw [hn]
  have hself : t.left i = MAXOPBLOCKS - (insert b (s.wrote i)).card := by simp [left, hwr]
  have hleft : s.left i = MAXOPBLOCKS - (s.wrote i).card := rfl
  by_cases hb : b ∈ s.log.blocks
  · rw [Log.record_of_mem hb]
    have := Finset.card_le_card (Finset.subset_insert b (s.wrote i))
    omega
  · have hnew : b ∉ s.wrote i := fun hc => hb (h.logged i hact b hc)
    rw [(Log.record_of_not_mem hb).1]
    rw [Finset.card_insert_of_notMem hnew] at hself hpend
    omega

theorem inv_record (h : Inv s) (hs : s.step (.record i) = some t) : Inv t := by
  simp only [step] at hs
  split at hs
  case h_2 => cases hs
  rename_i b hcalm hi
  cases hs
  obtain ⟨act, hres⟩ := h.reserved
  have hact : (s.phase i).active = true := by simp [hi, active]
  obtain ⟨hkeep, hbmem, hnodup⟩ : (∀ c ∈ s.log.blocks, c ∈ (s.log.record b).blocks) ∧
      b ∈ (s.log.record b).blocks ∧ (s.log.record b).blocks.Nodup := by
    by_cases hb : b ∈ s.log.blocks
    · rw [Log.record_of_mem hb]
      exact ⟨fun _ => id, hb, h.nodup⟩
    · rw [(Log.record_of_not_mem hb).2]
      exact ⟨fun _ => List.mem_append_left _, by simp,
        List.nodup_append_comm.mp (List.nodup_cons.mpr ⟨hb, h.nodup⟩)⟩
  refine h.of_step (i := i) ?_ ?_ rfl hcalm hnodup ⟨act, ?_, hres.count,
    room_record h hres hi rfl rfl, hres.quiet⟩ ?_ ?_ ?_ (fun _ _ _ c hc => hkeep c hc)
    fun _ _ _ hc => hc
  · intro j hj
    simp [setWrote, setPhase, setLog, hj]
  · intro j hj
    simp [setWrote, setPhase, setLog, hj]
  · intro j
    rw [hres.active]
    by_cases hj : j = i
    · subst j
      simp [setWrote, setPhase, active, hi]
    · simp [setWrote, setPhase, setLog, hj]
  · intro _ c hc
    simp only [setWrote, setPhase, setLog, update_self, Finset.mem_insert] at hc ⊢
    rcases hc with rfl | hc
    · exact hbmem
    · exact hkeep c (h.logged i hact c hc)
  · simp [setWrote, setPhase]
  · simp [setWrote, setPhase, inCommit]

theorem Reserved.erase (hres : Reserved s act) (hi : i ∈ act)
    (hph : ∀ j, j ≠ i → t.phase j = s.phase j) (hself : (t.phase i).active = false)
    (hwr : t.wrote = s.wrote) (hn : t.log.lh.n = s.log.lh.n)
    (hout : t.log.outstanding = s.log.outstanding - 1)
    (hquiet : t.log.committing = true → act.erase i = ∅) : Reserved t (act.erase i) := by
  refine ⟨?_, ?_, ?_, hquiet⟩
  · intro j
    by_cases hj : j = i
    · subst j
      simp [hself]
    · simp [hj, hph j hj, hres.active]
  · have := Finset.card_pos.mpr ⟨i, hi⟩
    rw [hout, hres.count, Finset.card_erase_of_mem hi]
    omega
  · have hroom := hres.room
    have hle : ∑ j ∈ act.erase i, t.left j ≤ ∑ j ∈ act, s.left j := by
      simp only [left, hwr]
      exact Finset.sum_le_sum_of_subset (Finset.erase_subset i act)
    omega

theorem inv_endOp (h : Inv s) (hs : s.step (.endOp i) = some t) : Inv t := by
  simp only [step, Option.ite_none_right_eq_some] at hs
  obtain ⟨⟨hcalm, hrun⟩, hs⟩ := hs
  obtain ⟨act, hres⟩ := h.reserved
  have hmem : i ∈ act := (hres.active i).mpr (by simp [hrun, active])
  have hcom : s.log.committing = false := by
    by_contra hc
    have := hres.quiet (by simpa using hc)
    simp [this] at hmem
  have hfree : ∀ j, (s.phase j).inCommit = false := by
    intro j
    by_contra hj
    have := h.flagged j (by simpa using hj)
    simp [hcom] at this
  rw [if_neg (by simp [hcom])] at hs
  split at hs
  all_goals
    cases hs
    refine h.of_step (fun j hj => setPhase_of_ne _ _ hj) (fun _ _ => rfl) rfl hcalm h.nodup
      ⟨_, hres.erase hmem (fun j hj => setPhase_of_ne _ _ hj) (by simp [setPhase, active]) rfl rfl rfl ?_⟩
      (by simp [setPhase, active]) (by simp [setPhase]) ?_ (fun _ _ _ _ hc => hc) ?_
  · rename_i hlast
    have hc := hres.count
    have hone : act.card = 1 := by omega
    rw [← Finset.card_eq_zero, Finset.card_erase_of_mem hmem, hone]
    exact fun _ => rfl
  · exact fun _ => ⟨rfl, fun j _ => hfree j⟩
  · exact fun _ _ _ _ => rfl
  · simp [setPhase, setLog, hcom]
  · simp [setPhase, inCommit]
  · exact fun _ _ _ hc => hc

/-- While a commit runs nobody is between `begin_op` and `end_op`. -/
theorem no_active_of_inCommit (h : Inv s) (hi : (s.phase i).inCommit = true) (j : Nat) :
    (s.phase j).active = false := by
  obtain ⟨act, hres⟩ := h.reserved
  have hempty := hres.quiet (h.flagged i hi)
  by_contra hj
  have := (hres.active j).mpr (by simpa using hj)
  simp [hempty] at this

theorem reserved_empty (hidle : ∀ j, (s.phase j).active = false)
    (hself : (t.phase i).active = false) (hout : t.log.outstanding = 0) (hn : t.log.lh.n ≤ LOGSIZE)
    (hph : ∀ j, j ≠ i → t.phase j = s.phase j) : Reserved t ∅ := by
  refine ⟨?_, by simp [hout], by simpa using hn, fun _ => rfl⟩
  intro j
  by_cases hj : j = i
  · simp [hj, hself]
  · simp [hph j hj, hidle j]

theorem outstanding_of_inCommit (h : Inv s) (hi : (s.phase i).inCommit = true) :
    s.log.outstanding = 0 := by
  obtain ⟨act, hres⟩ := h.reserved
  rw [hres.count, hres.quiet (h.flagged i hi)]
  simp

theorem inv_commit (h : Inv s) (hs : s.step (.commit i) = some t) : Inv t := by
  simp only [step, Option.ite_none_right_eq_some] at hs
  obtain ⟨⟨hcalm, hcom⟩, hs⟩ := hs
  have hin : (s.phase i).inCommit = true := by simp [hcom, inCommit]
  have hidle := no_active_of_inCommit h hin
  have hout := outstanding_of_inCommit h hin
  cases hs
  refine h.of_step (fun j hj => setPhase_of_ne _ _ hj) (fun _ _ => rfl) rfl hcalm ?_
    ⟨∅, reserved_empty hidle ?_ hout (Nat.zero_le _) fun j hj => setPhase_of_ne _ _ hj⟩ ?_ ?_ ?_ ?_
    fun _ _ _ hc => hc
  · simp [setPhase, setLog, Log.blocks]
  · simp [setPhase, active]
  · simp [setPhase, active]
  · simp [setPhase]
  · intro _
    refine ⟨h.flagged i hin, fun j hj => ?_⟩
    by_contra hjc
    exact hj (h.alone j i (by simpa using hjc) hin)
  · intro j _ hj
    rw [hidle j] at hj
    cases hj

theorem inv_finish (h : Inv s) (hs : s.step (.finish i) = some t) : Inv t := by
  simp only [step, Option.ite_none_right_eq_some] at hs
  obtain ⟨⟨hcalm, hcom⟩, hs⟩ := hs
  have hin : (s.phase i).inCommit = true := by simp [hcom, inCommit]
  have hidle := no_active_of_inCommit h hin
  have hout := outstanding_of_inCommit h hin
  have hn := lh_n_le h
  cases hs
  refine h.of_step (fun j hj => setPhase_of_ne _ _ hj) (fun _ _ => rfl) rfl hcalm h.nodup
    ⟨∅, reserved_empty hidle ?_ hout hn fun j hj => setPhase_of_ne _ _ hj⟩ ?_ ?_ ?_
    (fun _ _ _ _ hc => hc) ?_
  · simp [setPhase, active]
  · simp [setPhase, active]
  · simp [setPhase]
  · simp [setPhase, inCommit]
  · exact fun j hji hj => absurd (h.alone j i hj hin) hji

/-- The steps of a run that keeps to the budget and never rewrites into a full log. -/
def Admitted (s : Ops) (e : Event) : Prop := s.Budget e ∧ s.NoRewriteWhenFull e

theorem inv_step {e : Event} (h : Inv s) (ha : s.Admitted e) (hs : s.step e = some t) : Inv t := by
  cases e with
  | beginOp i => exact inv_beginOp h hs
  | check i b => exact inv_check h ha.1 ha.2 hs
  | record i => exact inv_record h hs
  | endOp i => exact inv_endOp h hs
  | commit i => exact inv_commit h hs
  | finish i => exact inv_finish h hs

theorem inv_run {es : List Event} (hsz : (LOGSIZE : Int) + 1 ≤ size)
    (h : Run (Guarded Admitted Steps) (init start size) es s) : Inv s :=
  h.invariant (fun _ _ _ hst hi => inv_step hi hst.1 hst.2) (inv_init hsz)

instance (s : Ops) (e : Event) : Decidable (s.NoRewriteWhenFull e) := by
  cases e <;> dsimp only [NoRewriteWhenFull] <;> infer_instance

instance (s : Ops) (e : Event) : Decidable (s.Admitted e) := inferInstanceAs (Decidable (_ ∧ _))

/-- Admission control suffices for every interleaving in which no block of a full log is
logged again, and such a rewrite is exactly what makes `log_write` panic. -/
theorem admission_of_no_rewrite {start : Nat} {size : Int} {es : List Event}
    (hsz : (LOGSIZE : Int) + 1 ≤ size)
    (h : Run (Guarded Admitted Steps) (init start size) es s) :
    Safe s ∧ ∀ i b t, s.Budget (.check i b) → Steps s (.check i b) t →
      (t.panicked = some "too big a transaction" ↔
        s.log.lh.n = LOGSIZE ∧ b ∈ s.log.blocks) := by
  have hinv := inv_run hsz h
  refine ⟨⟨?_, hinv.nodup, lh_n_le hinv⟩, ?_⟩
  · rw [hinv.calm]
    exact fun hc => by cases hc
  · intro i b t hb hst
    simp only [Steps, step] at hst
    split at hst
    case isFalse => cases hst
    case isTrue hg =>
      obtain ⟨hiff, hor⟩ := checkWrite_iff hinv (by simp [hg.2, active]) hb
      rw [← hiff]
      rcases hor with he | hok
      · rw [he] at hst
        cases hst
        simp [he, halt]
      · rw [hok] at hst
        cases hst
        simp [hok, setPhase, hinv.calm]

/-- Two operations log the same block; the second to end commits. -/
def sharedBlockTrace : List Event :=
  [.beginOp 0, .beginOp 1, .check 0 50, .check 1 50, .record 1, .record 0, .check 1 51, .record 1,
    .endOp 0, .endOp 1, .commit 1, .finish 1, .beginOp 2, .check 2 50, .record 2]

theorem admission_sharedBlockTrace :
    ∃ s, Run (Guarded Admitted Steps) (init 2 31) sharedBlockTrace s ∧ Safe s := by
  obtain ⟨s, hs⟩ : ∃ s, sharedBlockTrace.foldlM
      (fun s e => if Admitted s e then s.step e else none) (init 2 31) = some s :=
    Option.isSome_iff_exists.mp (by decide +kernel)
  exact ⟨s, Run.of_foldlM hs, (admission_of_no_rewrite (by decide) (Run.of_foldlM hs)).1⟩

/-- Three operations fill the log with thirty blocks; one of them logs its first again. -/
def rewriteTrace : List Event :=
  [.beginOp 0, .beginOp 1, .beginOp 2] ++
    (List.range 30).flatMap (fun k => [.check (k / 10) (50 + k), .record (k / 10)]) ++ [.check 0 50]

theorem admission_fails_on_rewriteTrace :
    ∃ s, Run (Guarded Budget Steps) (init 2 31) rewriteTrace s ∧ ¬ Safe s := by
  have hrun : (rewriteTrace.foldlM (fun s e => if Budget s e then s.step e else none)
      (init 2 31)).map (·.panicked) = some (some "too big a transaction") := by decide +kernel
  rw [Option.map_eq_some_iff] at hrun
  obtain ⟨s, hs, hp⟩ := hrun
  exact ⟨s, Run.of_foldlM hs, fun hsafe => hsafe.1 hp⟩

end Ops

end Yyds.Fs
