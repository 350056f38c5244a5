import Yyds.Fs.BioRuns

/-! The reference counts of the buffers after a clean boot, and the buffers that `commit` needs. -/
namespace Yyds.Fs.Client

open Lib Kern Lib.Kern

variable {start : Nat} {size : Int} {disk : Nat → Block} {s₀ : Bio} {c : Client} {as : List Call}

theorem sees_recovered (hclean : headCount (disk start) = 0)
    (hboot : Bio.recoverFromLog (Bio.boot start size disk) = .ok ((), s₀)) :
    Sees True (init s₀) ((View.boot start size disk).stores
      [(Bio.boot start size disk).log.headed disk]) := by
  have hload : (Bio.boot start size disk).log.load (disk start) = (Bio.boot start size disk).log := by
    simp [Log.load, Bio.boot, hclean]
  have hs := (Shows.recoverFromLog (v := View.boot start size disk) (E := fun _ => False)
    (fun _ => rfl) rfl rfl hload List.nodup_nil (by simp [Log.Apart, Bio.boot, Log.blocks])
    (by simp [Bio.boot, NBUF, MAXOPBLOCKS])).ok (sees_boot start size disk).shows hboot
  exact ⟨hs, rfl, rfl, ⟨rfl, rfl, List.nodup_nil, .inl rfl, rfl⟩⟩

/-- No discipline is needed for the counts. -/
theorem sees_of_run (hclean : headCount (disk start) = 0)
    (hboot : Bio.recoverFromLog (Bio.boot start size disk) = .ok ((), s₀))
    (h : Run Steps (init s₀) as c) : ∃ v, Sees False c v := by
  have hrun : Run (Guarded (fun c a => False → c.Disciplined a) Steps) (init s₀) as c :=
    h.mono fun c a c' hst => ⟨False.elim, hst⟩
  obtain ⟨v, hv, _⟩ := (sees_recovered hclean hboot).forget.run hrun
  exact ⟨v, hv⟩

/-- After a boot with an empty log, a buffer counts its holder and the log header. -/
theorem refcnt_exact (hclean : headCount (disk start) = 0)
    (hboot : Bio.recoverFromLog (Bio.boot start size disk) = .ok ((), s₀))
    (h : Run Steps (init s₀) as c) (b : BufId) :
    (c.bio.locked b = true ↔ ∃ n, c.handle n = some b) ∧
    (c.bio.buf b).refcnt.toNat = (if c.bio.locked b = true then 1 else 0) +
      if (c.bio.buf b).dev = ROOTDEV ∧ (c.bio.buf b).blockno ∈ c.bio.log.blocks then 1 else 0 := by
  obtain ⟨v, hv⟩ := sees_of_run hclean hboot h
  refine ⟨?_, ?_⟩
  · rw [hv.handle]
    exact hv.shows.locked b
  · have hpins : v.pins = c.bio.log.blocks.toFinset := by
      rw [hv.shows.log, hv.logged.pins]
    rw [hv.shows.exact.refcnt b, BCache.users]
    simp only [View.cnt, hpins, hv.logged.sunk, List.mem_toFinset, Finset.notMem_empty, if_false,
      ← ite_and]
    split <;> split <;> rfl

/-- Boot and make the calls, as the discipline allows. -/
def bootRun (disk : Nat → Block) (as : List Call) : Option Client :=
  match Bio.recoverFromLog (Bio.boot 2 31 disk) with
  | .ok (_, s) => as.foldlM (fun c a => if Disciplined c a then c.step a else none) (init s)
  | .error _ => none

theorem bootRun_some (h : bootRun disk as = some c) :
    ∃ s, Bio.recoverFromLog (Bio.boot 2 31 disk) = .ok ((), s) ∧
      Run (Guarded Disciplined Steps) (init s) as c := by
  unfold bootRun at h
  split at h
  · rename_i s hs
    exact ⟨s, hs, .of_foldlM h⟩
  · cases h

theorem bootRun_steps (h : bootRun disk as = some c) :
    ∃ s, Bio.recoverFromLog (Bio.boot 2 31 disk) = .ok ((), s) ∧ Run Steps (init s) as c := by
  obtain ⟨s, hs, hrun⟩ := bootRun_some h
  exact ⟨s, hs, hrun.mono fun _ _ _ hst => hst.2⟩

/-- The disk of a new file system. -/
def newDisk : Nat → Block := fun _ => zeroBlock

def logOne : List Call := [.beginOp, .bread 50, .logWrite 50]

theorem refcnt_exact_held : ∃ c b, bootRun newDisk logOne = some c ∧ (c.bio.buf b).refcnt.toNat = 2 := by
  obtain ⟨c, hc, b, hl, hpin⟩ : ∃ c, bootRun newDisk logOne = some c ∧ ∃ b, c.bio.locked b = true ∧
      (c.bio.buf b).dev = ROOTDEV ∧ (c.bio.buf b).blockno ∈ c.bio.log.blocks := by
    decide +kernel
  obtain ⟨s, hs, hrun⟩ := bootRun_steps hc
  have hcount := (refcnt_exact (by decide +kernel) hs hrun b).2
  rw [if_pos hl, if_pos hpin] at hcount
  exact ⟨c, b, hc, hcount⟩

/-- The header that a crash after `write_head` leaves: block 50 is in the log. -/
def crashDisk (n : Nat) : Block :=
  if n = 2 then encodeHead ⟨1, fun _ => 50⟩ zeroBlock else zeroBlock

/-- Recovery unpins a buffer that was never pinned. -/
theorem recovery_underflows : ∃ s b, headCount (crashDisk 2) = 1 ∧
    Bio.recoverFromLog (Bio.boot 2 31 crashDisk) = .ok ((), s) ∧ s.locked b = false ∧
    s.log.blocks = [] ∧ (s.buf b).blockno = 50 ∧ (s.buf b).refcnt.toNat = 2 ^ 32 - 1 := by
  obtain ⟨_, s, hs, b, hb⟩ : ∃ r s, Bio.recoverFromLog (Bio.boot 2 31 crashDisk) = .ok (r, s) ∧
      ∃ b, s.locked b = false ∧ s.log.blocks = [] ∧ (s.buf b).blockno = 50 ∧
        (s.buf b).refcnt.toNat = 2 ^ 32 - 1 := by
    decide +kernel
  exact ⟨s, b, by decide +kernel, hs, hb⟩

variable {v : View} {s : Bio}

theorem caches_pinned {coh : Prop} (h : Shows coh v s) (hcard : NBUF ≤ v.pins.card) (b : BufId) :
    ∃ n ∈ v.pins, s.bcache.Caches b n := by
  choose f hf using fun n : v.pins => h.exact.counted n.1 (by simp [View.cnt, n.2])
  have hinj : Function.Injective f := by
    intro n m hnm
    exact Subtype.ext ((hf n).2.symm.trans (hnm ▸ (hf m).2))
  have hsurj : Function.Surjective f := by
    have hle : Fintype.card BufId ≤ Fintype.card v.pins := by
      rw [Fintype.card_coe]
      exact hcard
    exact ((Fintype.bijective_iff_injective_and_card f).mpr
      ⟨hinj, le_antisymm (Fintype.card_le_of_injective f hinj) hle⟩).2
  obtain ⟨n, rfl⟩ := hsurj b
  exact ⟨n.1, n.2, hf n⟩

/-- With all buffers pinned, no other block can be read. -/
theorem bread_panics {coh : Prop} {no : Nat} (h : Shows coh v s) (hcard : NBUF ≤ v.pins.card)
    (hno : no ∉ v.pins) : Bio.bread ROOTDEV no s = .error "bget: no buffers" := by
  have hpin := caches_pinned h hcard
  have habsent : ∀ b, ¬ s.bcache.Caches b no := by
    intro b hb
    obtain ⟨n, hn, hbn⟩ := hpin b
    exact hno (hb.2.symm.trans hbn.2 ▸ hn)
  rcases Bio.bread_cases h.exact no with ⟨b, hb, _⟩ | ⟨b, hb, _⟩ | ⟨i, b, _, _, hz, _⟩ | ⟨_, _, hr⟩
  · exact absurd hb (habsent b)
  · exact absurd hb (habsent b)
  · obtain ⟨n, hn, hbn⟩ := hpin b
    exact absurd ((h.exact.unused hz).2 n hbn) (by simp [View.cnt, hn])
  · exact hr

theorem endOp_panics (hc : s.log.committing = false) (ho : s.log.outstanding = 1)
    (hn : 0 < s.log.lh.n)
    (hr : ∀ l, Bio.bread ROOTDEV (s.log.start + 1) { s with log := l } = .error "bget: no buffers")
    : Bio.endOp s = .error "bget: no buffers" := by
  obtain ⟨l, hl⟩ : ∃ l : Log, l = { s.log with outstanding := 0, committing := true } := ⟨_, rfl⟩
  have hone : Bio.writeLogOne 0 { s with log := l } = .error "bget: no buffers" := by
    unfold Bio.writeLogOne
    rw [get_bind_apply]
    apply bind_of_error
    have hstart : l.start = s.log.start := by rw [hl]
    simpa [hstart] using hr l
  have hlog : Bio.writeLog { s with log := l } = .error "bget: no buffers" := by
    obtain ⟨k, hk⟩ : ∃ k, l.lh.n = k + 1 := ⟨l.lh.n - 1, by rw [hl]; dsimp only; omega⟩
    unfold Bio.writeLog
    rw [get_bind_apply]
    rw [hk, List.range_succ_eq_map]
    exact bind_of_error hone
  have hcommit : Bio.commit { s with log := l } = .error "bget: no buffers" := by
    unfold Bio.commit
    rw [get_bind_apply, if_pos (by rw [hl]; exact hn)]
    exact bind_of_error hlog
  unfold Bio.endOp Bio.setLog
  rw [modify_bind_apply, get_bind_apply]
  simp only [hc, ho]
  rw [if_neg (by decide), if_pos (by decide), modify_bind_apply]
  rw [hl] at hcommit
  exact bind_of_error hcommit

section
variable {coh : Prop} (hv : Sees coh c v)
include hv

theorem Sees.card_pins : v.pins.card = c.bio.log.lh.n := by
  rw [hv.logged.pins, List.toFinset_card_of_nodup hv.logged.nodup, hv.shows.log]
  simp [Log.blocks]

/-- The commit of a full header finds every buffer pinned. -/
theorem Sees.endOp_panics (hn : NBUF ≤ c.bio.log.lh.n) (ho : c.bio.log.outstanding = 1)
    (hlog : c.bio.log.start + 1 ∉ c.bio.log.blocks) :
    Bio.endOp c.bio = .error "bget: no buffers" := by
  have hsh := hv.shows
  refine Client.endOp_panics (hsh.log ▸ hv.logged.idle) ho (lt_of_lt_of_le (by decide) hn) fun l => ?_
  have hl : Shows coh (v.setLog fun _ => l) { c.bio with log := l } :=
    (Shows.setLog (E := fun _ => False) v fun _ => l).ok hsh rfl
  refine bread_panics hl (hv.card_pins.symm ▸ hn) ?_
  rw [View.setLog, hv.logged.pins, List.mem_toFinset, ← hsh.log]
  exact hlog

end

/-- With fewer than `NBUF` blocks in the header `commit` finds its buffers; with `NBUF` it does not. -/
theorem commit_finds_buffers (hclean : headCount (disk start) = 0)
    (hboot : Bio.recoverFromLog (Bio.boot start size disk) = .ok ((), s₀))
    (h : Run Steps (init s₀) as c) (hfree : ∀ b, c.bio.locked b = false) :
    (c.bio.log.lh.n < NBUF → Bio.endOp c.bio ≠ .error "bget: no buffers") ∧
    (NBUF ≤ c.bio.log.lh.n → c.bio.log.outstanding = 1 →
      c.bio.log.start + 1 ∉ c.bio.log.blocks → Bio.endOp c.bio = .error "bget: no buffers") := by
  obtain ⟨v, hv⟩ := sees_of_run hclean hboot h
  refine ⟨?_, hv.endOp_panics⟩
  intro hn hend
  have hle := ((Shows.endOp hv.logged).error hv.shows hend rfl).le ∅ fun n b hb => by
    have hl := hv.shows.locked_of_handle hb
    rw [hfree b] at hl
    cases hl
  rw [hv.logged.sunk, Finset.union_empty, Finset.card_empty, hv.card_pins] at hle
  omega

theorem commit_finds_buffers_one : ∃ c, bootRun newDisk (logOne ++ [.brelse 50]) = some c ∧
    c.bio.log.lh.n = 1 ∧ c.bio.log.outstanding = 1 ∧ Bio.endOp c.bio ≠ .error "bget: no buffers" := by
  obtain ⟨c, hc, hfree, hn, ho⟩ : ∃ c, bootRun newDisk (logOne ++ [.brelse 50]) = some c ∧
      (∀ b, c.bio.locked b = false) ∧ c.bio.log.lh.n = 1 ∧ c.bio.log.outstanding = 1 := by
    decide +kernel
  obtain ⟨s, hs, hrun⟩ := bootRun_steps hc
  have hlt : c.bio.log.lh.n < NBUF := by
    rw [hn]
    decide
  exact ⟨c, hc, hn, ho, (commit_finds_buffers (by decide +kernel) hs hrun hfree).1 hlt⟩

/-- Three operations log ten blocks each, and two of them end. -/
def fullLog : List Call :=
  [.beginOp, .beginOp, .beginOp] ++
    ((List.range' 50 30).flatMap fun n => [.bread n, .logWrite n, .brelse n]) ++ [.endOp, .endOp]

/-- The last `end_op` finds every buffer pinned. -/
theorem commit_panics_full : ∃ s c,
    Bio.recoverFromLog (Bio.boot 2 31 newDisk) = .ok ((), s) ∧
    Run Steps (init s) fullLog c ∧ (∀ b, c.bio.locked b = false) ∧
    (LOGSIZE : Int) + 1 ≤ c.bio.log.size ∧ c.bio.log.outstanding = 1 ∧
    Bio.endOp c.bio = .error "bget: no buffers" := by
  obtain ⟨c, hc, hpanic⟩ : ∃ c, bootRun newDisk fullLog = some c ∧ (∀ b, c.bio.locked b = false) ∧
      (LOGSIZE : Int) + 1 ≤ c.bio.log.size ∧ c.bio.log.outstanding = 1 ∧
      Bio.endOp c.bio = .error "bget: no buffers" := by
    decide +kernel
  obtain ⟨s, hs, hrun⟩ := bootRun_steps hc
  exact ⟨s, c, hs, hrun, hpanic⟩

end Yyds.Fs.Client
