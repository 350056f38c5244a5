import Yyds.Fs.BioCounts

/-! Crash atomicity of the log. The block writes of `commit` and `recover_from_log` are those of a
redo log whose header is the block at `log.start`. -/
namespace Yyds.Fs

open Lib Kern RedoLayout.Txn Client Function

/-! ### The header block -/

variable {c : Block} {lh : LogHeader} {l : Log}

theorem u32At_foldl_putU32 {f : Nat → Nat} {j : Nat} (k : Nat)
    (h : ∀ i < k, j + 4 ≤ 4 + 4 * i ∨ 4 + 4 * i + 4 ≤ j) :
    u32At ((List.range k).foldl (fun c i => putU32 c (4 + 4 * i) (f i)) c) j = u32At c j := by
  induction k with
  | zero => rfl
  | succ k ih =>
    rw [List.range_succ, List.foldl_append, List.foldl_cons, List.foldl_nil,
      u32At_putU32_ne (h k (Nat.lt_succ_self k)), ih fun i hi => h i (Nat.lt_succ_of_lt hi)]

theorem headCount_encodeHead (h : lh.n < 2 ^ 31) : headCount (encodeHead lh c) = lh.n := by
  have hword : u32At (encodeHead lh c) 0 = lh.n := by
    unfold encodeHead
    rw [u32At_foldl_putU32 _ (fun i _ => Or.inl (by omega)), u32At_putU32_self (by omega)]
  rw [headCount, hword, if_pos h]

theorem headBlock_encodeHead {i : Nat} (hi : i < lh.n) (hb : lh.block i < 2 ^ 32) :
    headBlock (encodeHead lh c) i = lh.block i := by
  unfold encodeHead headBlock
  generalize putU32 c 0 lh.n = c0
  generalize lh.n = n at hi
  induction n with
  | zero => omega
  | succ k ih =>
    rw [List.range_succ, List.foldl_append, List.foldl_cons, List.foldl_nil]
    by_cases hik : i = k
    · subst hik
      exact u32At_putU32_self hb
    · rw [u32At_putU32_ne (by omega)]
      exact ih (by omega)

/-- The block numbers a header names. -/
def headTargets (c : Block) : List Nat := (List.range (headCount c)).map (headBlock c)

theorem headTargets_eq_nil : headTargets c = [] ↔ headCount c = 0 := by
  simp [headTargets]

/-- The log at `start` as a redo log. With `NBUF` blocks in the header `commit` panics before its
first write. -/
def redoLayout (start : Nat) (size : Int) : RedoLayout Nat Block where
  head := start
  slot i := start + i + 1
  cap := min (size - 1).toNat (NBUF - 1)
  targets := headTargets
  slot_ne_head i := by omega
  slot_injective i j h := by
    simp only at h
    omega

variable {start : Nat} {size : Int} {s : Bio} {c : Client} {v : View} {d data : Nat → Block}
  {as : List Call}

theorem home_of_not_inLog {b : Nat} (hsz : 1 ≤ size) (h : ¬ InLog start size b) :
    (redoLayout start size).Home b := by
  unfold InLog at h
  refine ⟨?_, ?_⟩
  · simp only [redoLayout]
    omega
  · intro i hi
    simp only [redoLayout, lt_min_iff] at hi ⊢
    omega

/-- The header names distinct blocks outside the log, fewer than there are buffers. -/
structure HeaderOk (start : Nat) (size : Int) (l : Log) : Prop where
  start_eq : l.start = start
  home : ∀ b ∈ l.blocks, (redoLayout start size).Home b
  small : ∀ b ∈ l.blocks, b < 2 ^ 32
  nodup : l.blocks.Nodup
  fits : l.lh.n ≤ (redoLayout start size).cap

section
variable (h : HeaderOk start size l)
include h

theorem HeaderOk.lt_nbuf : l.lh.n < NBUF := by
  have hfits := h.fits
  have hpos : 0 < NBUF := by decide
  simp only [redoLayout, le_min_iff] at hfits
  omega

theorem HeaderOk.apart : l.Apart := by
  intro b hb
  rw [h.start_eq]
  exact ⟨(h.home b hb).1, fun i hi he => (h.home b hb).2 i (lt_of_lt_of_le hi h.fits) he.symm⟩

theorem headTargets_encodeHead (c : Block) : headTargets (encodeHead l.lh c) = l.blocks := by
  have hcount : l.lh.n < 2 ^ 31 := h.lt_nbuf.trans (by decide)
  rw [headTargets, headCount_encodeHead hcount]
  apply List.map_congr_left
  intro i hi
  have hi' := List.mem_range.mp hi
  exact headBlock_encodeHead hi' (h.small _ (Log.mem_blocks.mpr ⟨i, hi', rfl⟩))

end

theorem headTargets_clear (lh : LogHeader) (c : Block) :
    headTargets (encodeHead { lh with n := 0 } c) = [] := by
  rw [headTargets_eq_nil, headCount_encodeHead (by simp)]

theorem zipIdx_blocks (l : Log) :
    l.blocks.zipIdx = (List.range l.lh.n).map fun i => (l.lh.block i, i) := by
  apply List.ext_getElem
  · simp [Log.blocks]
  · simp [Log.blocks]

theorem Log.blocks_ne_nil {l : Log} (hn : 0 < l.lh.n) : l.blocks ≠ [] := by
  simp [Log.blocks, hn.ne']

/-- The transaction that `commit` makes of the blocks in the header. -/
def commitTxn (data : Nat → Block) (h : HeaderOk start size l) (hn : 0 < l.lh.n) :
    (redoLayout start size).Txn where
  cells := l.blocks
  data := data
  header := encodeHead l.lh (data start)
  clear := encodeHead { l.lh with n := 0 } (encodeHead l.lh (data start))
  cells_ne := Log.blocks_ne_nil hn
  home := h.home
  fits := by simpa [Log.blocks] using h.fits
  nodup := h.nodup
  header_targets := headTargets_encodeHead h _
  clear_targets := headTargets_clear _ _

theorem HeaderOk.commitWrites_eq (h : HeaderOk start size l) (hn : 0 < l.lh.n)
    (data : Nat → Block) : l.commitWrites data = (commitTxn data h hn).commitWrites := by
  rw [h.apart.commitWrites_eq data hn]
  simp [RedoLayout.Txn.commitWrites, logWrites, homeWrites, commitTxn, zipIdx_blocks, redoLayout,
    comp_def, Log.copied, Log.headed, Log.clear, h.start_eq]

/-! ### Recovery -/

theorem load_blocks (l : Log) (c : Block) : (l.load c).blocks = headTargets c := by
  apply List.map_congr_left
  intro i hi
  exact if_pos (List.mem_range.mp hi)

/-- From a header that `commit` wrote, recovery returns, with these disk writes. -/
theorem recoverFromLog_spec (hwell : (redoLayout start size).WellHeaded d) :
    ∃ s c, Bio.recoverFromLog (Bio.boot start size d) = .ok ((), s) ∧ headTargets c = [] ∧
      s.writes = (redoLayout start size).recoverWrites d c ∧ s.disk = replay d s.writes := by
  obtain ⟨l, hl⟩ : ∃ l, (Bio.boot start size d).log.load (d start) = l := ⟨_, rfl⟩
  have hblocks : l.blocks = headTargets (d start) := by rw [← hl, load_blocks]
  have hlen : l.lh.n = (headTargets (d start)).length := by rw [← hblocks]; simp [Log.blocks]
  have hok : HeaderOk start size l := by
    refine ⟨by rw [← hl]; rfl, hblocks ▸ hwell.1, ?_, hblocks ▸ hwell.2.2, hlen ▸ hwell.2.1⟩
    rw [hblocks]
    intro b hb
    obtain ⟨i, _, rfl⟩ := List.mem_map.mp hb
    exact u32At_lt _ _
  obtain ⟨_, s, hs, hshow⟩ := (Shows.recoverFromLog (v := View.boot start size d) (fun _ => rfl)
    rfl rfl hl hok.nodup hok.apart hok.lt_nbuf).returns (sees_boot start size d).shows
  have hwrites : s.writes = l.recoverWrites d := hshow.writes trivial
  refine ⟨s, (l.clear.headed (replay d (chained l.installed d (List.range l.lh.n)))).2, hs,
    headTargets_clear l.lh _, ?_, ?_⟩
  · rw [hwrites, Log.recoverWrites]
    simp only [hok.apart.chained_installed, RedoLayout.recoverWrites, RedoLayout.redo]
    change _ = ((headTargets (d start)).zipIdx.map fun p => (p.1, d (start + p.2 + 1))) ++ [_]
    rw [← hblocks, zipIdx_blocks, List.map_map]
    have hinst : l.installed d = fun i => (l.lh.block i, d (start + i + 1)) := by
      funext i
      rw [Log.installed, hok.start_eq]
    simp only [Log.headed, Log.clear, hok.start_eq, hinst]
    rfl
  · rw [hwrites]
    exact hshow.disk trivial

/-- `Recovers d r`: from the disk `d`, any number of recoveries are cut short by a crash and
the first one that completes leaves the disk `r`. -/
inductive Recovers (start : Nat) (size : Int) : (Nat → Block) → (Nat → Block) → Prop
  | done {d : Nat → Block} {s : Bio} :
      Bio.recoverFromLog (Bio.boot start size d) = .ok ((), s) → Recovers start size d s.disk
  | crash {d r : Nat → Block} {s : Bio} (k : Nat) :
      Bio.recoverFromLog (Bio.boot start size d) = .ok ((), s) →
      Recovers start size (replay d (s.writes.take k)) r → Recovers start size d r

theorem Recovers.same_home {r : Nat → Block} (h : Recovers start size d r)
    (hwell : (redoLayout start size).WellHeaded d) :
    (redoLayout start size).SameHome r ((redoLayout start size).recovered d) := by
  induction h with
  | @done d s hs =>
    obtain ⟨s', c, hs', hc, hw, hd⟩ := recoverFromLog_spec hwell
    rw [hs] at hs'
    cases hs'
    rw [hd, hw]
    intro a ha
    rw [RedoLayout.recoverWrites, replay_append]
    exact update_of_ne ha.1 _ _
  | @crash d r s k hs _ ih =>
    obtain ⟨s', c, hs', hc, hw, hd⟩ := recoverFromLog_spec hwell
    rw [hs] at hs'
    cases hs'
    obtain ⟨hsame, hwell'⟩ := RedoLayout.recovered_recoverWrites hwell hc k
    rw [← hw] at hsame hwell'
    exact (ih hwell').trans hsame

/-- The header writes with `n > 0` among `ws`. -/
def commitPoints (start : Nat) (ws : List (Nat × Block)) : Nat :=
  ws.countP fun w => w.1 = start && headCount w.2 != 0

theorem commitPoints_eq (ws : List (Nat × Block)) :
    commitPoints start ws = RedoLayout.Txn.committed (redoLayout start size) ws := by
  unfold commitPoints committed
  congr 1
  funext w
  have hempty : (headTargets w.2).isEmpty = (headCount w.2 == 0) := by
    rw [Bool.eq_iff_iff, List.isEmpty_iff, headTargets_eq_nil, beq_iff_eq]
  simp only [redoLayout, hempty]
  rfl

/-! ### Runs -/

/-- What the calls so far ask for: the operations that are open, the blocks logged since the last
commit, and the last data put in each block. -/
structure Pending where
  ops : Int
  logged : List Nat
  last : Nat → Option Block

namespace Pending

def step (p : Pending) : Call → Pending
  | .beginOp => { p with ops := p.ops + 1 }
  | .endOp => { p with ops := p.ops - 1, logged := if p.ops = 1 then [] else p.logged }
  | .logWrite n => { p with logged := if n ∈ p.logged then p.logged else p.logged ++ [n] }
  | .setData n c => { p with last := update p.last n (some c) }
  | _ => p

/-- The group that the last `end_op` has to commit. -/
def group (disk : Nat → Block) (p : Pending) : Call → List (List (Nat × Block))
  | .endOp =>
    if p.ops = 1 ∧ p.logged ≠ [] then [p.logged.map fun b => (b, (p.last b).getD (disk b))] else []
  | _ => []

def groups (disk : Nat → Block) (p : Pending) : List Call → List (List (Nat × Block))
  | [] => []
  | a :: as => p.group disk a ++ (p.step a).groups disk as

variable {p : Pending}

theorem last_step (p : Pending) (a : Call) : (p.step a).last = lastData p.last a := by
  cases a <;> rfl

theorem mem_logged_step {a : Call} {b : Nat} (h : b ∈ (p.step a).logged) :
    b ∈ p.logged ∨ a = .logWrite b := by
  cases a with
  | logWrite n =>
    simp only [step] at h
    split at h
    · exact .inl h
    · rcases List.mem_append.mp h with h | h
      · exact .inl h
      · exact .inr (by rw [List.mem_singleton.mp h])
  | endOp =>
    simp only [step] at h
    split at h
    · cases h
    · exact .inl h
  | _ => exact .inl h

theorem step_log {q : Plain} (hl : q.log.blocks = p.logged) (ho : q.log.outstanding = p.ops)
    (a : Call) : (q.step a).log.blocks = (p.step a).logged ∧
      (q.step a).log.outstanding = (p.step a).ops := by
  cases a with
  | logWrite n =>
    refine ⟨?_, ho⟩
    simp only [Plain.step, step, ← hl]
    split
    · rw [Log.record_of_mem ‹_›]
    · exact (Log.record_of_not_mem ‹_›).2
  | beginOp => exact ⟨hl, congrArg (· + 1) ho⟩
  | endOp =>
    simp only [Plain.step, step, Log.ended, ho, ← hl]
    by_cases h1 : p.ops = 1
    · have h0 : p.ops - 1 = 0 := by omega
      rw [if_pos h0, if_pos h1]
      exact ⟨rfl, h0.symm⟩
    · have h0 : ¬ p.ops - 1 = 0 := by omega
      rw [if_neg h0, if_neg h1]
      exact ⟨rfl, rfl⟩
  | _ => exact ⟨hl, ho⟩

end Pending

/-- Blocks are changed through the log only, and the log area is not logged. -/
def Call.Logs (start : Nat) (size : Int) : Call → Prop
  | .bwrite _ => False
  | .logWrite n => n < 2 ^ 32 ∧ ¬ InLog start size n
  | _ => True

/-- The header that recovery from an empty log writes. -/
def bootHead (disk : Nat → Block) (start : Nat) : Block := encodeHead ⟨0, fun _ => 0⟩ (disk start)

/-- The disk writes since the boot are those of the groups `gs`. -/
structure Durable (start : Nat) (size : Int) (disk : Nat → Block) (p : Pending)
    (gs : List (List (Nat × Block))) (v : View) : Prop where
  home : v.log.Home start size
  small : ∀ b ∈ v.log.blocks, b < 2 ^ 32
  logged : v.log.blocks = p.logged
  ops : v.log.outstanding = p.ops
  data : ∀ b, ¬ InLog start size b → v.data b = (p.last b).getD (disk b)
  disk_eq : v.disk = replay disk v.writes
  txns : ∃ xs : List (redoLayout start size).Txn, xs.map homeWrites = gs ∧
    v.writes = (start, bootHead disk start) :: xs.flatMap commitWrites

namespace Durable

variable {disk : Nat → Block} {p : Pending} {gs : List (List (Nat × Block))} {c' : Client} {a : Call}

section
variable (hsz : 1 ≤ size) (h : Durable start size disk p gs v) (hv : Sees True c v)
  (hs : c.Steps a c')
include hsz h hv hs

/-- A commit that returned had room for its header in the log and in the cache. -/
theorem headerOk (ha : a = .endOp) (ho : p.ops = 1) (hn : 0 < v.log.lh.n) :
    HeaderOk start size v.log := by
  have hlog := hv.shows.log
  have hbuf : v.log.lh.n < NBUF := by
    by_contra hc
    subst ha
    obtain ⟨s, hx, _⟩ := call_some hs
    rw [hv.endOp_panics (hlog ▸ not_lt.mp hc) (hlog ▸ h.ops.trans ho) ?_] at hx
    · cases hx
    · rw [hlog, h.home.start_eq]
      intro hmem
      have hfits := hv.logged.fits
      rw [h.home.size_eq] at hfits
      exact h.home.home _ hmem ⟨by omega, by push_cast; omega⟩
  refine ⟨h.home.start_eq, fun b hb => home_of_not_inLog hsz (h.home.home b hb), h.small,
    hv.logged.nodup, ?_⟩
  have hfits := hv.logged.fits
  rw [h.home.size_eq] at hfits
  simp only [redoLayout, le_min_iff]
  omega

theorem issued (hlogs : a.Logs start size) : ∃ ys : List (redoLayout start size).Txn,
    ys.map homeWrites = p.group disk a ∧ v.issued a = ys.flatMap commitWrites := by
  cases ha : a with
  | bwrite n => exact (ha ▸ hlogs).elim
  | endOp =>
    simp only [View.issued, Pending.group, Log.endWrites, h.ops]
    by_cases ho : p.ops = 1
    · have h0 : p.ops - 1 = 0 := by omega
      rw [if_pos h0]
      by_cases hn : 0 < v.log.lh.n
      · have hok := h.headerOk hsz hv hs ha ho hn
        rw [if_pos ⟨ho, h.logged ▸ Log.blocks_ne_nil hn⟩, hok.commitWrites_eq hn]
        refine ⟨[commitTxn v.data hok hn], ?_, by simp⟩
        have hdata : ∀ b ∈ v.log.blocks, (b, v.data b) = (b, (p.last b).getD (disk b)) :=
          fun b hb => by rw [h.data b (h.home.home b hb)]
        simp only [List.map_cons, List.map_nil, homeWrites, commitTxn, List.map_congr_left hdata,
          ← h.logged]
      · have hz : v.log.lh.n = 0 := Nat.eq_zero_of_not_pos hn
        have hnil : p.logged = [] := by rw [← h.logged, Log.blocks, hz]; rfl
        rw [Log.commitWrites, if_neg hn, hnil, if_neg (by simp)]
        exact ⟨[], rfl, rfl⟩
    · have h0 : ¬ p.ops - 1 = 0 := by omega
      rw [if_neg h0, if_neg (by simp [ho])]
      exact ⟨[], rfl, rfl⟩
  | _ => exact ⟨[], rfl, rfl⟩

theorem step (hlogs : a.Logs start size) (hdis : c.Disciplined a) :
    ∃ v', Sees True c' v' ∧ Durable start size disk (p.step a) (gs ++ p.group disk a) v' := by
  obtain ⟨v', hv', hplain, hw, hdisk⟩ := hv.step (fun _ => hdis) hs
  have hlog : v'.log = (v.plain.step a).log := congrArg Plain.log hplain
  obtain ⟨hblocks, hops⟩ := Pending.step_log (q := v.plain) h.logged h.ops a
  rw [← hlog] at hblocks hops
  obtain ⟨hhome, hdata⟩ := Plain.step_home ⟨hv.logged.fits, hplain⟩ h.home
    (fun n hn => by subst hn; exact hlogs.2) h.data
  obtain ⟨xs, hgs, hxs⟩ := h.txns
  obtain ⟨ys, hys, hissued⟩ := h.issued hsz hv hs hlogs
  refine ⟨v', hv', hhome, ?_, hblocks, hops, p.last_step a ▸ hdata, ?_, xs ++ ys, ?_, ?_⟩
  · intro b hb
    rcases Pending.mem_logged_step (hblocks ▸ hb) with hb | rfl
    · exact h.small b (h.logged ▸ hb)
    · exact hlogs.1
  · rw [hdisk, hw, replay_append, h.disk_eq]
  · rw [List.map_append, hgs, hys]
  · rw [hw, hxs, hissued, List.flatMap_append, List.cons_append]

end

theorem run (hsz : 1 ≤ size) (h : Durable start size disk p gs v) (hv : Sees True c v)
    (hlogs : ∀ a ∈ as, a.Logs start size) (hr : Run (Guarded Disciplined Steps) c as c') :
    ∃ v' p', Sees True c' v' ∧ Durable start size disk p' (gs ++ p.groups disk as) v' := by
  induction hr generalizing v p gs with
  | nil c => exact ⟨v, p, hv, by simpa [Pending.groups] using h⟩
  | cons hst _ ih =>
    obtain ⟨v1, hv1, h1⟩ := h.step hsz hv hst.2 (hlogs _ List.mem_cons_self) hst.1
    obtain ⟨v', p', hv', h'⟩ := ih h1 hv1 fun a ha => hlogs a (List.mem_cons_of_mem _ ha)
    exact ⟨v', p', hv', by rwa [Pending.groups, ← List.append_assoc]⟩

/-- Every disk a crash can leave has a header that recovery can follow, and recovery would
install exactly the groups whose commit point was reached. -/
theorem crash_state (h : Durable start size disk p gs v) (hclean : headCount (disk start) = 0)
    (k : Nat) : (redoLayout start size).WellHeaded (replay disk (v.writes.take k)) ∧
    (redoLayout start size).SameHome
      ((redoLayout start size).recovered (replay disk (v.writes.take k)))
      (replay disk (gs.take (commitPoints start (v.writes.take k))).flatten) := by
  obtain ⟨xs, rfl, hw⟩ := h.txns
  have hboot : headTargets (bootHead disk start) = [] := headTargets_clear ⟨0, fun _ => 0⟩ _
  have hsame : (redoLayout start size).SameHome
      (update disk start (bootHead disk start)) disk :=
    fun b hb => update_of_ne hb.1 _ _
  rw [hw]
  cases k with
  | zero => simpa [commitPoints] using crash_atomic [] (headTargets_eq_nil.mpr hclean) 0
  | succ k =>
    have hcrash := crash_atomic xs (d := update disk start (bootHead disk start))
      (L := redoLayout start size) (by simpa [redoLayout] using hboot) k
    rw [List.take_succ_cons, replay_cons, commitPoints_eq, committed, List.countP_cons_of_neg]
    · refine ⟨hcrash.1, hcrash.2.trans ?_⟩
      rw [← List.map_take, ← List.flatMap_def]
      exact hsame.replay _
    · simp [redoLayout, hboot]

end Durable

/-- Boot from an empty log and make any calls that change blocks through the log. Cut the disk
writes after the first `k`, and cut any number of recoveries after that. Recovery can complete, and
the first one that does leaves every block outside the log as the groups whose header write reached
the disk left it, in order. -/
theorem log_crash_atomic (start : Nat) (size : Int) (disk : Nat → Block) {s₀ : Bio} {as : List Call}
    {c : Client} (k : Nat) (hsz : 1 ≤ size) (hclean : headCount (disk start) = 0)
    (hboot : Bio.recoverFromLog (Bio.boot start size disk) = .ok ((), s₀))
    (hlogs : ∀ a ∈ as, a.Logs start size) (hrun : Run (Guarded Disciplined Steps) (init s₀) as c) :
    c.bio.disk = replay disk c.bio.writes ∧
    (∃ r, Recovers start size (replay disk (c.bio.writes.take k)) r) ∧
    ∀ r, Recovers start size (replay disk (c.bio.writes.take k)) r → ∀ b, ¬ InLog start size b →
      r b = replay disk (((Pending.mk 0 [] fun _ => none).groups disk as).take
        (commitPoints start (c.bio.writes.take k))).flatten b := by
  have hstart : Durable start size disk ⟨0, [], fun _ => none⟩ []
      ((View.boot start size disk).stores [(Bio.boot start size disk).log.headed disk]) := by
    refine ⟨⟨rfl, rfl, ?_⟩, ?_, rfl, rfl, ?_, rfl, [], rfl, rfl⟩
    · simp [View.stores, View.boot, Bio.boot, Log.blocks]
    · simp [View.stores, View.boot, Bio.boot, Log.blocks]
    · intro b hb
      exact update_of_ne (home_of_not_inLog hsz hb).1 _ _
  obtain ⟨v, p, hv, h⟩ := hstart.run hsz (sees_recovered hclean hboot) hlogs hrun
  rw [List.nil_append] at h
  obtain ⟨hwell, hsame⟩ := h.crash_state hclean k
  rw [hv.shows.writes trivial, hv.shows.disk trivial]
  refine ⟨h.disk_eq, ?_, ?_⟩
  · obtain ⟨t, _, ht, _⟩ := recoverFromLog_spec hwell
    exact ⟨t.disk, .done ht⟩
  · intro r hrec b hb
    have hhome := home_of_not_inLog hsz hb
    rw [hrec.same_home hwell b hhome, hsame b hhome]

/-- Modify a block and log it. -/
def putBlock (n : Nat) (x : Byte) : List Call :=
  [.bread n, .setData n fun _ => x, .logWrite n, .brelse n]

/-- Two groups; the first one logs block 50 twice. -/
def twoGroups : List Call :=
  [.beginOp] ++ putBlock 50 1 ++ putBlock 51 2 ++ putBlock 50 3 ++
    [.endOp, .beginOp] ++ putBlock 50 9 ++ [.endOp]

/-- A crash before the header write of the second group, and one after it. -/
theorem log_crash_atomic_two : ∃ c r r', bootRun newDisk twoGroups = some c ∧
    Recovers 2 31 (replay newDisk (c.bio.writes.take 8)) r ∧
    Recovers 2 31 (replay newDisk (c.bio.writes.take 9)) r' ∧
    r 50 = (fun _ => 3) ∧ r 51 = (fun _ => 2) ∧ r' 50 = fun _ => 9 := by
  obtain ⟨c, hc, h8, h9⟩ : ∃ c, bootRun newDisk twoGroups = some c ∧
      commitPoints 2 (c.bio.writes.take 8) = 1 ∧ commitPoints 2 (c.bio.writes.take 9) = 2 := by
    decide +kernel
  obtain ⟨s, hs, hrun⟩ := bootRun_some hc
  have hlogs : ∀ a ∈ twoGroups, a.Logs 2 31 := by
    simp [twoGroups, putBlock, Call.Logs, InLog]
  have hall := fun k => log_crash_atomic 2 31 _ k (by decide) (by decide +kernel) hs hlogs hrun
  obtain ⟨_, ⟨r, hr⟩, hatomic⟩ := hall 8
  obtain ⟨_, ⟨r', hr'⟩, hatomic'⟩ := hall 9
  have hout : ∀ b, 50 ≤ b → ¬ InLog 2 31 b := by
    rintro b hb ⟨_, hlt⟩
    omega
  refine ⟨c, r, r', hc, hr, hr', ?_, ?_, ?_⟩
  · rw [hatomic r hr 50 (hout 50 le_rfl), h8]
    rfl
  · rw [hatomic r hr 51 (hout 51 (by decide)), h8]
    rfl
  · rw [hatomic' r' hr' 50 (hout 50 le_rfl), h9]
    rfl

/-- After a boot that recovered block 50, its buffer has count 0 while the log pins it, and block
63 takes it. -/
def lostUpdate : List Call :=
  [.beginOp] ++ putBlock 50 7 ++ [.bread 63, .brelse 63, .endOp]

/-- The group's header write reaches the disk, and block 50 keeps its old contents. -/
theorem recovered_log_loses_group : ∃ s c r, headCount (crashDisk 2) = 1 ∧
    Bio.recoverFromLog (Bio.boot 2 31 crashDisk) = .ok ((), s) ∧
    (∀ a ∈ lostUpdate, a.Logs 2 31) ∧ Run (Guarded Disciplined Steps) (init s) lostUpdate c ∧
    commitPoints 2 (c.bio.writes.take 6) = 1 ∧
    Recovers 2 31 (replay crashDisk (c.bio.writes.take 6)) r ∧ r 50 0 = 0 ∧
    replay crashDisk (((Pending.mk 0 [] fun _ => none).groups crashDisk lostUpdate).take 1).flatten
      50 0 = 7 := by
  obtain ⟨c, hc, hcount, u, t, ht, h50⟩ : ∃ c, bootRun crashDisk lostUpdate = some c ∧
      commitPoints 2 (c.bio.writes.take 6) = 1 ∧ ∃ u t, Bio.recoverFromLog
        (Bio.boot 2 31 (replay crashDisk (c.bio.writes.take 6))) = .ok (u, t) ∧ t.disk 50 0 = 0 := by
    decide +kernel
  obtain ⟨s, hs, hrun⟩ := bootRun_some hc
  refine ⟨s, c, t.disk, by decide +kernel, hs, ?_, hrun, hcount, .done ht, h50, rfl⟩
  simp [lostUpdate, putBlock, Call.Logs, InLog]

end Yyds.Fs
