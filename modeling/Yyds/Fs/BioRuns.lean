import Yyds.Fs.BioLog

/-! Runs of the buffer cache under its users: coherence, exact reference counts and the supply of
buffers of `commit`. -/
namespace Yyds.Fs

open Lib Lib.Kern Function

/-- What the users of the cache do; a held buffer is named by its block. -/
inductive Call
  | bread (n : Nat)
  | setData (n : Nat) (c : Block)
  | logWrite (n : Nat)
  | bwrite (n : Nat)
  | brelse (n : Nat)
  | beginOp
  | endOp
  | clock

/-- The machine, the buffers that `bread` has handed out, and the blocks that were modified since
they were last logged or written. -/
structure Client where
  bio : Bio
  handle : Nat → Option BufId
  dirty : Finset Nat

namespace Client

def call (c : Client) (x : Kern Bio Unit) : Option Client :=
  match x c.bio with
  | .ok (_, s) => some { c with bio := s }
  | .error _ => none

/-- `none`: the call does not return now, or the caller does not hold the block. -/
def step (c : Client) : Call → Option Client
  | .bread n =>
    match Bio.bread ROOTDEV n c.bio with
    | .ok (b, s) => some { c with bio := s, handle := update c.handle n (some b) }
    | .error _ => none
  | .setData n d => do
    let c' ← c.call (Bio.setData (← c.handle n) d)
    some { c' with dirty := insert n c.dirty }
  | .logWrite n => do
    let c' ← c.call (Bio.logWrite (← c.handle n))
    some { c' with dirty := c.dirty.erase n }
  | .bwrite n => do
    let c' ← c.call (Bio.bwrite (← c.handle n))
    some { c' with dirty := c.dirty.erase n }
  | .brelse n => do
    let c' ← c.call (Bio.brelse (← c.handle n))
    some { c' with handle := update c.handle n none, dirty := c.dirty.erase n }
  | .beginOp => c.call Bio.beginOp
  | .endOp => c.call Bio.endOp
  | .clock => some { c with bio := { c.bio with ticks := c.bio.ticks + 1 } }

def Steps (c : Client) (a : Call) (c' : Client) : Prop := c.step a = some c'

/-- A modified buffer is logged or written before it is released. -/
def Disciplined (c : Client) : Call → Prop
  | .brelse n => n ∉ c.dirty
  | _ => True

instance (c : Client) (a : Call) : Decidable (c.Disciplined a) := by
  cases a <;> unfold Disciplined <;> infer_instance

def init (s : Bio) : Client := ⟨s, fun _ => none, ∅⟩

end Client

/-- The plain map that the cache, the disk and the log stand for, and the log. -/
structure Plain where
  data : Nat → Block
  log : Log

def Plain.step (p : Plain) : Call → Plain
  | .setData n c => { p with data := update p.data n c }
  | .logWrite n => { p with log := p.log.record n }
  | .beginOp => { p with log := { p.log with outstanding := p.log.outstanding + 1 } }
  | .endOp =>
    { data := replay p.data (p.log.endWrites p.data)
      log := p.log.ended }
  | _ => p

/-- The slots of the header are within the log area. -/
def Plain.Steps (p : Plain) (a : Call) (p' : Plain) : Prop :=
  (p.log.lh.n = 0 ∨ (p.log.lh.n : Int) < p.log.size) ∧ p' = p.step a

/-- The last data with which each block was modified. -/
def lastData (last : Nat → Option Block) : Call → Nat → Option Block
  | .setData n c => update last n (some c)
  | _ => last

/-! ### What a commit does to the plain map -/

section Home

variable {start : Nat} {size : Int} {disk : Nat → Block}

/-- The blocks of the log itself. -/
def InLog (start : Nat) (size : Int) (b : Nat) : Prop := start ≤ b ∧ (b : Int) < start + size

/-- The log of the file system, with no block of its own area in the header. -/
structure Log.Home (start : Nat) (size : Int) (l : Log) : Prop where
  start_eq : l.start = start
  size_eq : l.size = size
  home : ∀ b ∈ l.blocks, ¬ InLog start size b

variable {l : Log}

section
variable (h : l.Home start size)
include h

theorem Log.Home.apart (hf : (l.lh.n : Int) < size) : l.Apart := by
  intro b hb
  have hout := h.home b hb
  unfold InLog at hout
  rw [h.start_eq]
  exact ⟨by omega, fun i hi => by omega⟩

/-- Outside the log area, a commit writes what is there already. -/
theorem Log.replay_endWrites (hf : l.lh.n = 0 ∨ (l.lh.n : Int) < l.size) (A : Nat → Block)
    {b : Nat} (hb : ¬ InLog start size b) : replay A (l.endWrites A) b = A b := by
  refine replay_of_agree (fun w hw he => ?_) (.inr rfl)
  subst he
  unfold Log.endWrites at hw
  split at hw
  · by_cases hn : 0 < l.lh.n
    · have hsz : (l.lh.n : Int) < size := by
        rw [← h.size_eq]
        omega
      rw [(h.apart hsz).commitWrites_eq A hn] at hw
      simp only [List.mem_append, List.mem_map, List.mem_range, List.mem_singleton] at hw
      unfold InLog at hb
      rcases hw with ((⟨i, hi, rfl⟩ | rfl) | ⟨b, _, rfl⟩) | rfl
      · simp only [Log.copied, h.start_eq] at hb
        omega
      · simp only [Log.headed, h.start_eq] at hb
        omega
      · rfl
      · simp only [h.start_eq] at hb
        omega
    · rw [Log.commitWrites, if_neg hn] at hw
      cases hw
  · cases hw

end

variable {last : Nat → Option Block}

theorem Plain.step_home {p p' : Plain} {a : Call} (hs : p.Steps a p') (hl : p.log.Home start size)
    (ha : ∀ n, a = .logWrite n → ¬ InLog start size n)
    (hd : ∀ b, ¬ InLog start size b → p.data b = (last b).getD (disk b)) :
    p'.log.Home start size ∧
      ∀ b, ¬ InLog start size b → p'.data b = (lastData last a b).getD (disk b) := by
  obtain ⟨hf, rfl⟩ := hs
  cases a with
  | bread n | bwrite n | brelse n | clock => exact ⟨hl, hd⟩
  | beginOp => exact ⟨{ hl with }, hd⟩
  | setData n c =>
    refine ⟨hl, ?_⟩
    intro b hb
    by_cases hbn : b = n
    · subst hbn
      simp [Plain.step, lastData]
    · simpa [Plain.step, lastData, hbn] using hd b hb
  | logWrite n =>
    refine ⟨{ hl with home := ?_ }, hd⟩
    intro b hb
    by_cases hn : n ∈ p.log.blocks
    · exact hl.home b (Log.record_of_mem hn ▸ hb)
    · rw [Plain.step, (Log.record_of_not_mem hn).2, List.mem_append, List.mem_singleton] at hb
      rcases hb with hb | rfl
      · exact hl.home b hb
      · exact ha b rfl
  | endOp =>
    refine ⟨?_, fun b hb => (Log.replay_endWrites hl hf p.data hb).trans (hd b hb)⟩
    simp only [Plain.step, Log.ended]
    split
    · refine { hl with home := ?_ }
      intro b hb
      simp [Log.blocks, Log.clear] at hb
    · exact { hl with }

theorem Plain.run_home {p p' : Plain} {as : List Call} (h : Run Plain.Steps p as p')
    (hl : p.log.Home start size) (ha : ∀ n, Call.logWrite n ∈ as → ¬ InLog start size n)
    (hd : ∀ b, ¬ InLog start size b → p.data b = (last b).getD (disk b)) {b : Nat}
    (hb : ¬ InLog start size b) : p'.data b = (as.foldl lastData last b).getD (disk b) := by
  induction h generalizing last with
  | nil p => exact hd b hb
  | cons hst _ ih =>
    obtain ⟨hl', hd'⟩ := Plain.step_home hst hl (fun n hn => ha n (hn ▸ List.mem_cons_self)) hd
    exact ih hl' (fun n hn => ha n (List.mem_cons_of_mem _ hn)) hd'

end Home

theorem Plain.run_eq {p p' : Plain} {as : List Call} (h : Run Plain.Steps p as p') :
    p' = as.foldl Plain.step p := by
  induction h with
  | nil p => rfl
  | cons hst _ ih => rw [ih, hst.2, List.foldl_cons]

def View.plain (v : View) : Plain := ⟨v.data, v.log⟩

/-- Nothing is cached, held or logged. -/
def View.boot (start : Nat) (size : Int) (disk : Nat → Block) : View :=
  ⟨fun _ => none, ∅, ∅, ∅, disk, disk, [], (Bio.boot start size disk).log⟩

/-- The block writes that a call issues. -/
def View.issued (v : View) : Call → List (Nat × Block)
  | .bwrite n => [(n, v.data n)]
  | .endOp => v.log.endWrites v.data
  | _ => []

theorem checkWrite_ok {l : Log} (h : l.checkWrite = .ok ()) :
    l.lh.n < LOGSIZE ∧ (l.lh.n : Int) < l.size - 1 ∧ 1 ≤ l.outstanding := by
  unfold Log.checkWrite at h
  split at h
  · cases h
  · split at h
    · cases h
    · omega

namespace Client

variable {coh : Prop} {c c' : Client} {v : View} {a : Call} {as : List Call}

/-- The client and its machine look like `v`, between two calls. -/
structure Sees (coh : Prop) (c : Client) (v : View) : Prop where
  shows : Shows coh v c.bio
  handle : c.handle = v.handle
  dirty : c.dirty = v.dirty
  logged : v.Logged

theorem call_some {x : Kern Bio Unit} (h : c.call x = some c') :
    ∃ s, x c.bio = .ok ((), s) ∧ c' = { c with bio := s } := by
  unfold call at h
  split at h
  · cases h
    exact ⟨_, ‹_›, rfl⟩
  · cases h

theorem checkWrite_of_logWrite {b : BufId} {s t : Bio} (h : Bio.logWrite b s = .ok ((), t)) :
    s.log.checkWrite = .ok () := by
  unfold Bio.logWrite at h
  split at h
  · cases h
  · assumption

variable {n : Nat}

theorem logged_record (h : v.Logged) (hw : v.log.checkWrite = .ok ()) :
    View.Logged { v.pin n with log := v.log.record n } := by
  obtain ⟨_, hsize, _⟩ := checkWrite_ok hw
  by_cases hn : n ∈ v.log.blocks
  · have hp : n ∈ v.pins := by rwa [h.pins, List.mem_toFinset]
    rw [Log.record_of_mem hn]
    exact { h with pins := (Finset.insert_eq_of_mem hp).trans h.pins }
  obtain ⟨hcount, hblocks⟩ := Log.record_of_not_mem hn
  refine ⟨?_, h.sunk, ?_, .inr ?_, h.idle⟩
  · simp only [View.pin, h.pins, hblocks]
    ext m
    simp
  · rw [hblocks, List.nodup_append]
    refine ⟨h.nodup, List.nodup_singleton n, ?_⟩
    rintro m hm k hk rfl
    exact hn (List.mem_singleton.mp hk ▸ hm)
  · rw [hcount, Log.record_size]
    omega

theorem logged_ended (h : v.Logged) (ws : List (Nat × Block)) :
    View.Logged { v.stores ws with
      pins := v.log.ended.blocks.toFinset, log := v.log.ended } := by
  by_cases ho : v.log.outstanding - 1 = 0
  · have hended : v.log.ended = { v.log.clear with outstanding := 0, committing := false } := by
      rw [Log.ended, if_pos ho]
    refine ⟨rfl, h.sunk, ?_, .inl ?_, ?_⟩
    · rw [hended]
      exact List.nodup_nil
    · rw [hended]
      rfl
    · rw [hended]
  · have hended : v.log.ended = { v.log with outstanding := v.log.outstanding - 1 } := by
      rw [Log.ended, if_neg ho]
    rw [hended]
    exact { h with pins := rfl }

theorem Sees.held {x : BufId → Kern Bio Unit} {k : Client → Client} (h : Sees coh c v)
    (hs : (do let c' ← c.call (x (← c.handle n)); some (k c')) = some c') :
    ∃ b s, v.handle n = some b ∧ x b c.bio = .ok ((), s) ∧ c' = k { c with bio := s } := by
  simp only [Option.bind_eq_bind, Option.bind_eq_some_iff] at hs
  obtain ⟨b, hb, c1, hc, hs⟩ := hs
  obtain ⟨s, hx, rfl⟩ := call_some hc
  cases hs
  exact ⟨b, s, h.handle ▸ hb, hx, rfl⟩

theorem Sees.step (h : Sees coh c v) (hd : coh → c.Disciplined a) (hs : c.Steps a c') :
    ∃ v', Sees coh c' v' ∧ v'.plain = v.plain.step a ∧ v'.writes = v.writes ++ v.issued a ∧
      v'.disk = replay v.disk (v.issued a) := by
  have hnil : v.writes = v.writes ++ [] := (List.append_nil _).symm
  cases a with
  | bread n =>
    simp only [Steps, Client.step] at hs
    split at hs
    · rename_i b s hb
      cases hs
      obtain ⟨hshow, _⟩ := (Shows.bread v n (h.logged.not_sunk n)).ok h.shows hb
      refine ⟨v.take n b, ⟨hshow, ?_, h.dirty, h.logged.congr⟩, rfl, hnil, rfl⟩
      exact congrArg (update · n (some b)) h.handle
    · cases hs
  | setData n d =>
    obtain ⟨b, s, hb, hx, rfl⟩ := h.held hs
    refine ⟨v.put n d, ⟨?_, h.handle, ?_, h.logged.congr⟩, rfl, hnil, rfl⟩
    · exact (Shows.setData (E := fun _ => False) d hb fun _ => rfl).ok h.shows hx
    · exact congrArg (insert n) h.dirty
  | logWrite n =>
    obtain ⟨b, s, hb, hx, rfl⟩ := h.held hs
    have hw := checkWrite_of_logWrite hx
    rw [h.shows.log] at hw
    refine ⟨{ v.pin n with log := v.log.record n }, ⟨?_, h.handle, ?_, logged_record h.logged hw⟩,
      rfl, hnil, rfl⟩
    · exact (Shows.logWrite h.logged hb).ok h.shows hx
    · exact congrArg (Finset.erase · n) h.dirty
  | bwrite n =>
    obtain ⟨b, s, hb, hx, rfl⟩ := h.held hs
    refine ⟨v.write n, ⟨?_, h.handle, ?_, h.logged.congr⟩, rfl, rfl, rfl⟩
    · exact (Shows.bwrite (E := fun _ => False) hb).ok h.shows hx
    · exact congrArg (Finset.erase · n) h.dirty
  | brelse n =>
    obtain ⟨b, s, hb, hx, rfl⟩ := h.held hs
    refine ⟨v.drop n, ⟨?_, ?_, ?_, h.logged.congr⟩, rfl, hnil, rfl⟩
    · refine (Shows.brelse (E := fun _ => False) hb fun hcoh => ?_).ok h.shows hx
      exact h.dirty ▸ hd hcoh
    · exact congrArg (update · n none) h.handle
    · exact congrArg (Finset.erase · n) h.dirty
  | beginOp =>
    obtain ⟨s, hx, rfl⟩ := call_some hs
    refine ⟨v.setLog fun l => { l with outstanding := l.outstanding + 1 }, ⟨?_, h.handle, h.dirty,
      { h.logged with }⟩, rfl, hnil, rfl⟩
    exact (Shows.beginOp v).ok h.shows hx
  | endOp =>
    obtain ⟨s, hx, rfl⟩ := call_some hs
    have hshow := (Shows.endOp h.logged).ok h.shows hx
    exact ⟨_, ⟨hshow, h.handle, h.dirty, logged_ended h.logged _⟩, rfl, rfl, rfl⟩
  | clock =>
    cases hs
    exact ⟨v, ⟨{ h.shows with }, h.handle, h.dirty, h.logged⟩, rfl, hnil, rfl⟩

theorem Sees.run (h : Sees coh c v)
    (hr : Run (Guarded (fun c a => coh → c.Disciplined a) Steps) c as c') :
    ∃ v', Sees coh c' v' ∧ Run Plain.Steps v.plain as v'.plain := by
  induction hr generalizing v with
  | nil c => exact ⟨v, h, .nil _⟩
  | cons hst _ ih =>
    obtain ⟨v1, h1, hp, _⟩ := h.step hst.1 hst.2
    obtain ⟨v', h', hp'⟩ := ih h1
    exact ⟨v', h', .cons ⟨h.logged.fits, hp⟩ hp'⟩

variable {start : Nat} {size : Int} {disk : Nat → Block}

theorem sees_boot (start : Nat) (size : Int) (disk : Nat → Block) :
    Sees True (init (Bio.boot start size disk)) (View.boot start size disk) where
  shows := by
    refine ⟨BCache.exact_binit, ?_, ?_, ?_, rfl, fun _ => rfl, fun _ => rfl, ?_,
      fun _ _ _ _ => rfl⟩
    · simp [Bio.boot, View.boot, init]
    · intro n b hb
      cases hb
    · intro n hn
      cases hn
    · intro _ b n hb
      cases hb.1
  handle := rfl
  dirty := rfl
  logged := ⟨rfl, rfl, List.nodup_nil, .inl rfl, rfl⟩

theorem Sees.forget (h : Sees coh c v) : Sees False c v :=
  { h with shows := { h.shows with
      disk := False.elim, writes := False.elim, data := False.elim, synced := False.elim } }

/-- The cache, the log and the disk are a plain map from block numbers to contents; outside the log
area the map holds what was last put there. -/
theorem bread_returns_last (start : Nat) (size : Int) (disk : Nat → Block)
    (h : Run (Guarded Disciplined Steps) (init (Bio.boot start size disk)) as c)
    {no : Nat} {b : BufId} {s : Bio} (hb : Bio.bread ROOTDEV no c.bio = .ok (b, s)) :
    (s.buf b).data = (as.foldl Plain.step ⟨disk, (Bio.boot start size disk).log⟩).data no ∧
    ((∀ n, Call.logWrite n ∈ as → ¬ InLog start size n) → ¬ InLog start size no →
      (s.buf b).data = (as.foldl lastData (fun _ => none) no).getD (disk no)) := by
  have hrun : Run (Guarded (fun c a => True → c.Disciplined a) Steps)
      (init (Bio.boot start size disk)) as c :=
    h.mono fun c a c' hst => ⟨fun _ => hst.1, hst.2⟩
  obtain ⟨v, hv, hplain⟩ := (sees_boot start size disk).run hrun
  obtain ⟨hs, _⟩ := (Shows.bread v no (hv.logged.not_sunk no)).ok hv.shows hb
  have hdata : (s.buf b).data = v.data no := hs.data_of_handle trivial View.take_handle_self
  rw [hdata]
  refine ⟨congrArg (fun p => p.data no) (Plain.run_eq hplain), ?_⟩
  intro hlog hno
  refine Plain.run_home hplain ⟨rfl, rfl, ?_⟩ hlog (fun _ _ => rfl) hno
  intro b hb
  simp [View.plain, View.boot, Bio.boot, Log.blocks] at hb

/-- Block 50 is modified and committed, and then its buffer is used for other blocks. -/
def recycles : List Call :=
  [.beginOp, .bread 50, .setData 50 fun _ => 7, .logWrite 50, .brelse 50, .endOp] ++
    (List.range' 100 30).flatMap fun n => [.bread n, .brelse n]

theorem bread_returns_last_recycled : ∃ c b s,
    Run (Guarded Disciplined Steps) (init (Bio.boot 2 31 fun _ => zeroBlock)) recycles c ∧
    (∀ b, ¬ c.bio.bcache.Caches b 50) ∧ Bio.bread ROOTDEV 50 c.bio = .ok (b, s) ∧
    (s.buf b).data = fun _ => 7 := by
  obtain ⟨c, hc, habsent, b, s, hb, -⟩ : ∃ c,
      recycles.foldlM (fun c a => if Disciplined c a then c.step a else none)
        (init (Bio.boot 2 31 fun _ => zeroBlock)) = some c ∧
      (∀ b, ¬ c.bio.bcache.Caches b 50) ∧ ∃ b s, Bio.bread ROOTDEV 50 c.bio = .ok (b, s) ∧ True := by
    decide +kernel
  have hrun := Run.of_foldlM hc
  refine ⟨c, b, s, hrun, habsent, hb, ?_⟩
  have hhome : ¬ InLog 2 31 50 := by simp [InLog]
  refine (bread_returns_last 2 31 _ hrun hb).2 ?_ hhome
  intro n hn
  obtain rfl : n = 50 := by simpa [recycles] using hn
  exact hhome

end Client

end Yyds.Fs
