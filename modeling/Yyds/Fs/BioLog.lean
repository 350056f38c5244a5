import Yyds.Fs.BioView

/-! The routines of the log over the buffer cache, and what they do to a plain map from block
numbers to contents. -/
namespace Yyds.Fs

open Lib Lib.Kern Function View

namespace Log

/-- `read_head` with the header block `c`. -/
def load (c : Block) (l : Log) : Log :=
  { l with lh := ⟨headCount c, fun i => if i < headCount c then headBlock c i else l.lh.block i⟩ }

def clear (l : Log) : Log := { l with lh := { l.lh with n := 0 } }

/-- What one iteration of `write_log` writes. -/
def copied (l : Log) (data : Nat → Block) (tail : Nat) : Nat × Block :=
  (l.start + tail + 1, data (l.lh.block tail))

/-- What one iteration of `install_trans` writes. -/
def installed (l : Log) (data : Nat → Block) (tail : Nat) : Nat × Block :=
  (l.lh.block tail, data (l.start + tail + 1))

/-- What `write_head` writes. -/
def headed (l : Log) (data : Nat → Block) : Nat × Block :=
  (l.start, encodeHead l.lh (data l.start))

/-- The block writes of `recover_from_log` after `read_head`, in issue order. -/
def recoverWrites (l : Log) (data : Nat → Block) : List (Nat × Block) :=
  let ws := chained l.installed data (List.range l.lh.n)
  ws ++ [l.clear.headed (replay data ws)]

/-- The block writes of `commit`, in issue order. -/
def commitWrites (l : Log) (data : Nat → Block) : List (Nat × Block) :=
  if l.lh.n > 0 then
    let ws := chained l.copied data (List.range l.lh.n)
    let ws := ws ++ [l.headed (replay data ws)]
    ws ++ l.recoverWrites (replay data ws)
  else []

/-- The log after `end_op`. -/
def ended (l : Log) : Log :=
  if l.outstanding - 1 = 0 then { l.clear with outstanding := 0, committing := false }
  else { l with outstanding := l.outstanding - 1 }

/-- The block writes of `end_op`. -/
def endWrites (l : Log) (data : Nat → Block) : List (Nat × Block) :=
  if l.outstanding - 1 = 0 then l.commitWrites data else []

/-- The header names no block of the log. -/
def Apart (l : Log) : Prop :=
  ∀ b ∈ l.blocks, b ≠ l.start ∧ ∀ i < l.lh.n, l.start + i + 1 ≠ b

section
variable {l : Log} (h : l.Apart) (data : Nat → Block)
include h

theorem Apart.block {i : Nat} (hi : i ∈ List.range l.lh.n) :
    l.lh.block i ≠ l.start ∧ ∀ j ∈ List.range l.lh.n, l.start + j + 1 ≠ l.lh.block i := by
  obtain ⟨hs, hne⟩ := h _ (List.mem_map.mpr ⟨i, hi, rfl⟩)
  exact ⟨hs, fun j hj => hne j (List.mem_range.mp hj)⟩

/-- The installation reads the log slots only. -/
theorem Apart.chained_installed : chained l.installed data (List.range l.lh.n) =
    (List.range l.lh.n).map (l.installed data) := by
  refine chained_eq_map (C := fun a => ∃ i ∈ List.range l.lh.n, a = l.start + i + 1) ?_ ?_
  · intro i hi e he
    rw [installed, installed, he _ ⟨i, hi, rfl⟩]
  · rintro j hj ⟨i, hi, he⟩
    exact (h.block hj).2 i hi he.symm

theorem Apart.chained_copied : chained l.copied data (List.range l.lh.n) =
    (List.range l.lh.n).map (l.copied data) := by
  refine chained_eq_map (C := fun a => ∃ i ∈ List.range l.lh.n, a = l.lh.block i) ?_ ?_
  · intro i hi e he
    rw [copied, copied, he _ ⟨i, hi, rfl⟩]
  · rintro j hj ⟨i, hi, he⟩
    exact (h.block hi).2 j hj he

/-- What `commit` installs is what it logged. -/
theorem Apart.commitWrites_eq (hn : 0 < l.lh.n) : l.commitWrites data =
    (List.range l.lh.n).map (l.copied data) ++ [l.headed data] ++
      l.blocks.map (fun b => (b, data b)) ++ [(l.start, encodeHead l.clear.lh (l.headed data).2)] := by
  have hlogs : ∀ w ∈ (List.range l.lh.n).map (l.copied data), w.1 ≠ l.start := by
    intro w hw
    obtain ⟨i, _, rfl⟩ := List.mem_map.mp hw
    simp only [copied]
    omega
  -- nothing but the log was written so far, so the header block is the old one
  have hhead : l.headed (replay data ((List.range l.lh.n).map (l.copied data))) = l.headed data := by
    rw [headed, replay_of_not_mem hlogs, headed]
  obtain ⟨e, he⟩ : ∃ e, e = replay data ((List.range l.lh.n).map (l.copied data) ++
      [l.headed data]) := ⟨_, rfl⟩
  have hstart : e l.start = (l.headed data).2 := by
    rw [he, replay_append]
    simp [headed]
  have hinst : (List.range l.lh.n).map (l.installed e) = l.blocks.map fun b => (b, data b) := by
    rw [blocks, List.map_map]
    refine List.map_congr_left fun i hi => congrArg (l.lh.block i, ·) ?_
    rw [he]
    refine replay_of_agree ?_ (.inl ⟨l.copied data i, ?_, rfl⟩)
    · intro w hw hwi
      rcases List.mem_append.mp hw with hw | hw
      · obtain ⟨j, _, rfl⟩ := List.mem_map.mp hw
        simp only [copied] at hwi ⊢
        rw [show j = i by omega]
      · rw [List.mem_singleton.mp hw] at hwi
        simp only [headed] at hwi
        omega
    · exact List.mem_append_left _ (List.mem_map.mpr ⟨i, hi, rfl⟩)
  have hkeep : replay e (l.blocks.map fun b => (b, data b)) l.start = e l.start := by
    apply replay_of_not_mem
    intro w hw
    obtain ⟨b, hb, rfl⟩ := List.mem_map.mp hw
    exact (h b hb).1
  simp only [commitWrites, if_pos hn, h.chained_copied, hhead, ← he, recoverWrites,
    h.chained_installed, hinst]
  simp [clear, headed, hkeep, hstart]

end

end Log

namespace View

variable {v : View} {n m : Nat} {b b' : BufId} {c : Block}

@[simp] theorem take_handle_self : (v.take n b).handle n = some b := by simp [take]

theorem take_handle_of_ne (h : m ≠ n) : (v.take n b).handle m = v.handle m := by simp [take, h]

theorem stores_nil : v.stores [] = v := by simp [stores]

theorem store_eq (hn : v.handle n = none) (hd : n ∉ v.dirty) :
    (((v.take n b).put n c).write n).drop n = v.stores [(n, c)] := by
  ext1 <;> simp [take, put, write, drop, stores, hn, hd]

theorem take_comm (h : n ≠ m) : (v.take n b).take m b' = (v.take m b').take n b := by
  simp [take, update_comm h]

/-- Two blocks are held for a while, and one of them is written. -/
theorem pair_eq (hne : n ≠ m) (hn : v.handle n = none) (hm : v.handle m = none) (hdn : n ∉ v.dirty)
    (hdm : m ∉ v.dirty) :
    (((((v.take n b).take m b').put m c).write m).drop n).drop m = v.stores [(m, c)] := by
  ext1
  · funext k
    by_cases hk : k = n
    · simp [take, put, write, drop, stores, hk, hne, hn]
    · by_cases hkm : k = m
      · simp [take, put, write, drop, stores, hkm, hm]
      · simp [take, put, write, drop, stores, hk, hkm]
  all_goals simp [take, put, write, drop, stores, hdn, hdm]

/-- Between two calls of the log the pinned blocks are those of the header. -/
structure Logged (v : View) : Prop where
  pins : v.pins = v.log.blocks.toFinset
  sunk : v.sunk = ∅
  nodup : v.log.blocks.Nodup
  fits : v.log.lh.n = 0 ∨ (v.log.lh.n : Int) < v.log.size
  idle : v.log.committing = false

theorem Logged.not_sunk (h : v.Logged) (n : Nat) : n ∉ v.sunk := by simp [h.sunk]

/-- The only panic of `bget` says that too many buffers are in use. -/
def Full (v : View) (e : String) : Prop := e = "bget: no buffers" → v.Crowded

theorem Full.of_noBuf {e : String} (h : v.NoBuf n e) : v.Full e := fun he => (h (.inr he)).2

theorem Logged.congr {v' : View} (h : v.Logged) (hp : v'.pins = v.pins := by rfl)
    (hs : v'.sunk = v.sunk := by rfl) (hl : v'.log = v.log := by rfl) : v'.Logged := by
  refine ⟨?_, hs.trans h.sunk, ?_, ?_, ?_⟩
  · rw [hp, hl, h.pins]
  · exact hl ▸ h.nodup
  · exact hl ▸ h.fits
  · exact hl ▸ h.idle

end View

namespace Shows

variable {coh : Prop} {v : View} {s t : Bio} {n : Nat} {E : String → Prop}

theorem writeHead (v : View) (hs : v.log.start ∉ v.sunk) (hE : ∀ e, v.NoBuf v.log.start e → E e) :
    Triple (Shows coh v) Bio.writeHead (fun _ => Shows coh (v.stores [v.log.headed v.data])) E := by
  refine .get_bind fun s hsh => ?_
  rw [hsh.log]
  refine .bind ((bread v v.log.start hs).conseq hE) fun b => ?_
  refine .assume fun hfree => ?_
  have hd := not_mem_dirty hsh.held hfree
  refine .get_bind fun t ht => ?_
  refine .bind (setData (encodeHead v.log.lh (v.data v.log.start)) take_handle_self ?_)
    fun _ => ?_
  · intro hcoh
    rw [ht.log, ht.data_of_handle hcoh take_handle_self]
    rfl
  refine .bind (bwrite take_handle_self) fun _ => ?_
  rw [Log.headed, ← store_eq hfree hd]
  exact brelse take_handle_self fun _ => by simp [write]

theorem readHead (v : View) (hs : v.log.start ∉ v.sunk) (hE : ∀ e, v.NoBuf v.log.start e → E e) :
    Triple (Shows True v) Bio.readHead
      (fun _ => Shows True (v.setLog (Log.load (v.data v.log.start)))) E := by
  refine .get_bind fun s hsh => ?_
  rw [hsh.log]
  refine .bind ((bread v v.log.start hs).conseq hE) fun b => ?_
  refine .assume fun hfree => ?_
  have hd := not_mem_dirty hsh.held hfree
  refine .get_bind fun t ht => ?_
  have hc : (t.buf b).data = v.data v.log.start := ht.data_of_handle trivial take_handle_self
  rw [hc]
  refine .bind (setLog _ (Log.load (v.data v.log.start))) fun _ => ?_
  have hview : ((v.take v.log.start b).setLog (Log.load (v.data v.log.start))).drop v.log.start =
      v.setLog (Log.load (v.data v.log.start)) := by
    ext1 <;> simp [View.take, View.setLog, View.drop, hfree, hd]
  rw [← hview]
  exact brelse take_handle_self fun _ => hd

/-- A log block and a home block are held together for a while. -/
theorem bread_pair (x y : Nat) (hsx : x ∉ v.sunk) (hsy : y ∉ v.sunk) {f : BufId → BufId → Kern Bio Unit}
    {Q : Unit → Bio → Prop} (hx : ∀ e, v.NoBuf x e → E e) (hy : ∀ b e, (v.take x b).NoBuf y e → E e)
    (hf : ∀ b b', x ≠ y → v.handle x = none → v.handle y = none →
      ((v.take x b).take y b').handle x = some b →
      Triple (Shows coh ((v.take x b).take y b')) (f b b') Q E) :
    Triple (Shows coh v)
      (Bio.bread ROOTDEV x >>= fun b => Bio.bread ROOTDEV y >>= fun b' => f b b') Q E := by
  refine .bind ((bread v x hsx).conseq hx) fun b => ?_
  refine .assume fun hx => ?_
  refine .bind ((bread (v.take x b) y hsy).conseq (hy b)) fun b' => ?_
  refine .assume fun hy => ?_
  have hne : x ≠ y := by
    rintro rfl
    rw [take_handle_self] at hy
    cases hy
  refine hf b b' hne hx (take_handle_of_ne (Ne.symm hne) ▸ hy) ?_
  rw [take_handle_of_ne hne, take_handle_self]

theorem writeLogOne (tail : Nat) (hp : v.log.lh.block tail ∈ v.pins) (hs : v.sunk = ∅) :
    Triple (Shows coh v) (Bio.writeLogOne tail)
      (fun _ => Shows coh (v.stores [v.log.copied v.data tail])) v.Full := by
  refine .get_bind fun s hsh => ?_
  rw [hsh.log, Log.copied]
  generalize v.log.start + tail + 1 = x
  generalize v.log.lh.block tail = y at hp ⊢
  refine bread_pair x y (by simp [hs]) (by simp [hs]) (fun e => Full.of_noBuf)
    (fun b e he h => absurd hp (he (.inr h)).1) fun b b' hne hx hy hb => ?_
  have hdx := not_mem_dirty hsh.held hx
  have hdy := not_mem_dirty hsh.held hy
  refine .get_bind fun t ht => ?_
  refine .bind (setData (v.data y) hb fun hcoh => ht.data_of_handle hcoh take_handle_self)
    fun _ => ?_
  refine .bind (bwrite hb) fun _ => ?_
  refine .bind (brelse take_handle_self fun _ => ?_) fun _ => ?_
  · simpa [write, put, take, Ne.symm hne] using hdy
  rw [take_comm hne, ← pair_eq (Ne.symm hne) hy hx hdy hdx]
  refine brelse (n := x) ?_ fun _ => ?_
  · simp [write, put, take, drop, hne]
  · simp [write, put, take, drop]

/-- In recovery the home block is not pinned. -/
theorem installOne (tail : Nat) (hsx : v.log.start + tail + 1 ∉ v.sunk)
    (hsy : v.log.lh.block tail ∉ v.sunk) (hx : ∀ e, v.NoBuf (v.log.start + tail + 1) e → E e)
    (hy : ∀ b e, (v.take (v.log.start + tail + 1) b).NoBuf (v.log.lh.block tail) e → E e) :
    Triple (Shows coh v) (Bio.installOne tail)
      (fun _ => Shows coh ((v.stores [v.log.installed v.data tail]).unpin (v.log.lh.block tail)))
      E := by
  refine .get_bind fun s hsh => ?_
  rw [hsh.log, Log.installed]
  generalize v.log.start + tail + 1 = x at hsx hx hy ⊢
  generalize v.log.lh.block tail = y at hsy hy ⊢
  refine bread_pair x y hsx hsy hx hy fun b b' hne hx hy hb => ?_
  have hdx := not_mem_dirty hsh.held hx
  have hdy := not_mem_dirty hsh.held hy
  refine .get_bind fun t ht => ?_
  refine .bind (setData (v.data x) take_handle_self fun hcoh => ht.data_of_handle hcoh hb)
    fun _ => ?_
  refine .bind (bwrite take_handle_self) fun _ => ?_
  rw [← pair_eq hne hx hy hdx hdy]
  refine bunpin_brelse (v := (((v.take x b).take y b').put y (v.data x)).write y) hb
    take_handle_self hne ?_ ?_ hsy ?_
  · simpa [write, put, take, hne] using hdx
  · simp [write]
  · simp [write]

theorem writeLogAll (is : List Nat) (v : View) (hp : ∀ i ∈ is, v.log.lh.block i ∈ v.pins)
    (hs : v.sunk = ∅) :
    Triple (Shows coh v) (Kern.forEach is Bio.writeLogOne)
      (fun _ => Shows coh (v.stores (chained v.log.copied v.data is))) v.Full := by
  induction is generalizing v with
  | nil => exact .pure fun s hsh => stores_nil ▸ hsh
  | cons i is ih =>
    refine .bind (writeLogOne i (hp i List.mem_cons_self) hs) fun _ => ?_
    have hrest := ih (v.stores [v.log.copied v.data i])
      (fun j hj => hp j (List.mem_cons_of_mem i hj)) hs
    rwa [stores_stores] at hrest

/-- Every iteration unpins one of the blocks. -/
theorem installAll (is : List Nat) (v : View) (hnd : (is.map v.log.lh.block).Nodup)
    (hp : v.pins = (is.map v.log.lh.block).toFinset) (hs : v.sunk = ∅) :
    Triple (Shows coh v) (Kern.forEach is Bio.installOne)
      (fun _ => Shows coh { v.stores (chained v.log.installed v.data is) with pins := ∅ }) v.Full := by
  induction is generalizing v with
  | nil =>
    refine .pure fun s hsh => ?_
    rw [chained, stores_nil]
    simp only [List.map_nil, List.toFinset_nil] at hp
    rw [← hp]
    exact hsh
  | cons i is ih =>
    rw [List.map_cons, List.nodup_cons] at hnd
    rw [List.map_cons, List.toFinset_cons] at hp
    have hmem : v.log.lh.block i ∈ v.pins := hp ▸ Finset.mem_insert_self _ _
    refine .bind (installOne i (by simp [hs]) (by simp [hs]) (fun e => Full.of_noBuf)
      fun b e he hm => absurd hmem (he (.inr hm)).1) fun _ => ?_
    have hrest := ih ((v.stores [v.log.installed v.data i]).unpin (v.log.lh.block i)) hnd.2 ?_
      ((if_pos hmem).trans hs)
    · refine hrest.conseq (fun e he hm => (he hm).mono rfl (Finset.erase_subset _ _) (if_pos hmem))
        fun _ s hsh => ?_
      simpa [View.unpin, hmem, chained, stores] using hsh
    · simp only [View.unpin, stores, hp]
      rw [Finset.erase_insert (by simpa using hnd.1)]

/-- In recovery every iteration sinks one of the blocks. -/
theorem installAll_sinks (is : List Nat) (v : View) (hfree : ∀ n, v.handle n = none)
    (hp : v.pins = ∅) (hnd : (is.map v.log.lh.block).Nodup)
    (hsunk : ∀ i ∈ is, v.log.start + i + 1 ∉ v.sunk ∧ v.log.lh.block i ∉ v.sunk)
    (hne : ∀ i ∈ is, ∀ j ∈ is, v.log.start + i + 1 ≠ v.log.lh.block j)
    (hcard : v.sunk.card + is.length < NBUF) :
    Triple (Shows coh v) (Kern.forEach is Bio.installOne)
      (fun _ => Shows coh { v.stores (chained v.log.installed v.data is) with
        sunk := v.sunk ∪ (is.map v.log.lh.block).toFinset }) E := by
  induction is generalizing v with
  | nil =>
    refine .pure fun s hsh => ?_
    simpa [chained, stores] using hsh
  | cons i is ih =>
    rw [List.map_cons, List.nodup_cons] at hnd
    obtain ⟨hx, hy⟩ := hsunk i List.mem_cons_self
    rw [List.length_cons] at hcard
    have hii := hne i List.mem_cons_self i List.mem_cons_self
    refine .bind (installOne i hx hy (fun e he => ?_) fun b e he => ?_) fun _ => ?_
    · have hle := (he (.inl (hfree _))).2.le ∅ (by simp [hfree])
      simp [hp] at hle
      omega
    · have hle := (he (.inl ((take_handle_of_ne hii.symm).trans (hfree _)))).2.le {b} fun n b' hn => by
        by_cases hnx : n = v.log.start + i + 1
        · simpa [take, hnx, eq_comm] using hn
        · simp [take, hnx, hfree] at hn
      simp [take, hp] at hle
      omega
    have hsink : ((v.stores [v.log.installed v.data i]).unpin (v.log.lh.block i)).sunk =
        insert (v.log.lh.block i) v.sunk := if_neg (by simp [stores, hp])
    have hrest := ih ((v.stores [v.log.installed v.data i]).unpin (v.log.lh.block i)) hfree
      (by simp [View.unpin, stores, hp]) hnd.2 (fun j hj => ?_)
      (fun j hj k hk => hne j (.tail _ hj) k (.tail _ hk)) ?_
    · refine hrest.conseq (fun _ => id) fun _ s hsh => ?_
      simpa [View.unpin, stores, chained, hp] using hsh
    · obtain ⟨hxj, hyj⟩ := hsunk j (.tail _ hj)
      rw [hsink]
      simp only [Finset.mem_insert, not_or]
      exact ⟨⟨hne j (.tail _ hj) i List.mem_cons_self, hxj⟩,
        fun he => hnd.1 (List.mem_map.mpr ⟨j, hj, he⟩), hyj⟩
    · have hle := Finset.card_insert_le (v.log.lh.block i) v.sunk
      rw [hsink]
      omega

theorem writeLog (v : View) (hp : ∀ b ∈ v.log.blocks, b ∈ v.pins) (hs : v.sunk = ∅) :
    Triple (Shows coh v) Bio.writeLog
      (fun _ => Shows coh (v.stores (chained v.log.copied v.data (List.range v.log.lh.n)))) v.Full := by
  refine .get_bind fun s hsh => ?_
  rw [hsh.log]
  refine writeLogAll _ v (fun i hi => hp _ ?_) hs
  exact Log.mem_blocks.mpr ⟨i, List.mem_range.mp hi, rfl⟩

theorem installTrans (v : View) (hnd : v.log.blocks.Nodup) (hp : v.pins = v.log.blocks.toFinset)
    (hs : v.sunk = ∅) :
    Triple (Shows coh v) Bio.installTrans
      (fun _ => Shows coh { v.stores (chained v.log.installed v.data (List.range v.log.lh.n)) with
        pins := ∅ }) v.Full := by
  refine .get_bind fun s hsh => ?_
  rw [hsh.log]
  exact installAll _ v hnd hp hs

theorem commit (hnd : v.log.blocks.Nodup) (hp : v.pins = v.log.blocks.toFinset) (hs : v.sunk = ∅) :
    Triple (Shows coh v) Bio.commit
      (fun _ => Shows coh { v.stores (v.log.commitWrites v.data) with
        pins := ∅, log := v.log.clear }) v.Full := by
  refine .get_bind fun s hsh => ?_
  rw [hsh.log, Log.commitWrites]
  by_cases hn : v.log.lh.n > 0
  · rw [if_pos hn, if_pos hn]
    have hmem : ∀ b ∈ v.log.blocks, b ∈ v.pins := by
      intro b hb
      rw [hp, List.mem_toFinset]
      exact hb
    refine .bind (writeLog v hmem hs) fun _ => ?_
    refine .bind (writeHead _ ?_ fun e => Full.of_noBuf) fun _ => ?_
    · simp [stores, hs]
    rw [stores_stores]
    refine .bind (installTrans _ hnd hp hs) fun _ => ?_
    refine .bind (setLog _ _) fun _ => ?_
    refine (writeHead _ ?_ ?_).conseq (fun _ => id) ?_
    · simp [View.setLog, stores, hs]
    · exact fun e he hm => (he (.inr hm)).2.mono rfl (Finset.empty_subset _) rfl
    · intro _ s hsh
      simpa [Log.recoverWrites, stores, replay_append, View.setLog, Log.clear] using hsh
  · rw [if_neg hn, if_neg hn]
    have hz : v.log.lh.n = 0 := Nat.eq_zero_of_not_pos hn
    have hclear : v.log.clear = v.log := by
      rw [Log.clear, ← hz]
    have hpins : v.pins = ∅ := by
      rw [hp, Log.blocks, hz]
      rfl
    refine .pure fun s hsh => ?_
    rw [hclear, ← hpins, stores_nil]
    exact hsh

theorem endOp (hl : v.Logged) :
    Triple (Shows coh v) Bio.endOp
      (fun _ => Shows coh { v.stores (v.log.endWrites v.data) with
        pins := v.log.ended.blocks.toFinset
        log := v.log.ended }) v.Full := by
  refine .bind (setLog v _) fun _ => ?_
  refine .get_bind fun s hs => ?_
  have hlog : s.log = { v.log with outstanding := v.log.outstanding - 1 } := hs.log
  rw [hlog, Log.endWrites]
  dsimp only
  split
  · intro t _ hm
    exact absurd hm (by decide)
  split
  · rename_i ho
    refine .bind (setLog _ _) fun _ => ?_
    refine .bind (commit hl.nodup hl.pins hl.sunk) fun _ => ?_
    refine (setLog _ _).conseq (fun _ => id) ?_
    intro _ t ht
    have hended : v.log.ended = { v.log.clear with
        outstanding := v.log.outstanding - 1, committing := false } := by
      rw [Log.ended, if_pos ho, ho]
    rw [hended]
    exact ht
  · rename_i ho
    have hended : v.log.ended = { v.log with outstanding := v.log.outstanding - 1 } := by
      rw [Log.ended, if_neg ho]
    rw [hended, stores_nil]
    exact .pure fun t ht => hl.pins ▸ ht

theorem logged (h : Shows coh v s) (hp : n ∈ v.pins) : Shows coh (v.pin n) s := by
  have hpins : (v.pin n).pins = v.pins := Finset.insert_eq_of_mem hp
  have hcnt : (v.pin n).cnt = v.cnt := by
    funext m
    rw [View.cnt, hpins]
    rfl
  refine ⟨hcnt ▸ h.exact, h.locked, h.caches, ?_, h.log, h.disk, h.writes, h.data, ?_⟩
  · exact fun m hm => h.held m (Finset.mem_of_mem_erase hm)
  · intro hcoh m hm hd
    rw [hpins] at hm
    have hmn : m ≠ n := fun hmn => hm (hmn ▸ hp)
    exact h.synced hcoh m hm fun hdm => hd (Finset.mem_erase.mpr ⟨hmn, hdm⟩)

theorem logWrite {b : BufId} (hl : v.Logged) (hb : v.handle n = some b) :
    Triple (Shows coh v) (Bio.logWrite b)
      (fun _ => Shows coh { v.pin n with log := v.log.record n })
      (fun e => e ≠ "bget: no buffers") := by
  intro s h
  have hn := (h.caches n b hb).2
  unfold Bio.logWrite
  rw [h.log, hn]
  cases hw : v.log.checkWrite with
  | error e =>
    rintro rfl
    unfold Log.checkWrite at hw
    split at hw
    · exact absurd (Except.error.inj hw) (by decide)
    · split at hw
      · exact absurd (Except.error.inj hw) (by decide)
      · cases hw
  | ok u =>
    have ht : Shows coh (v.setLog fun l => l.record n) { s with log := v.log.record n } :=
      { h with log := rfl }
    rcases v.log.slot_cases n with ⟨hlt, hslot⟩ | ⟨hslot, hnew⟩
    · rw [if_neg (Nat.ne_of_lt hlt)]
      have hp : n ∈ v.pins := by
        rw [hl.pins, List.mem_toFinset]
        exact Log.mem_blocks.mpr ⟨_, hlt, hslot⟩
      exact ht.logged hp
    · rw [if_pos hslot]
      have hp : n ∉ v.pins := by
        rw [hl.pins, List.mem_toFinset]
        exact hnew
      exact (bpin (v := v.setLog fun l => l.record n) (E := fun _ => False) hb hp
        (hl.not_sunk n)).ok ht rfl

theorem beginOp (v : View) :
    Triple (Shows coh v) Bio.beginOp
      (fun _ => Shows coh (v.setLog fun l => { l with outstanding := l.outstanding + 1 }))
      (fun e => e ≠ "bget: no buffers") := by
  intro s h
  unfold Bio.beginOp
  by_cases ha : s.log.admits
  · rw [if_pos ha]
    refine { h with log := ?_ }
    rw [h.log]
    rfl
  · rw [if_neg ha]
    exact fun hm => absurd hm (by decide)

section
variable (hfree : ∀ n, v.handle n = none) (hp : v.pins = ∅) (hs : v.sunk = ∅)
include hfree hp hs

theorem installTrans_sinks (hnd : v.log.blocks.Nodup) (hhome : v.log.Apart)
    (hn : v.log.lh.n < NBUF) :
    Triple (Shows coh v) Bio.installTrans
      (fun _ => Shows coh { v.stores (chained v.log.installed v.data (List.range v.log.lh.n)) with
        sunk := v.log.blocks.toFinset }) E := by
  refine .get_bind fun s hsh => ?_
  rw [hsh.log]
  refine (installAll_sinks (List.range v.log.lh.n) v hfree hp hnd (by simp [hs])
    (fun i hi j hj => (hhome.block hj).2 i hi) (by simpa [hs] using hn)).conseq (fun _ => id) ?_
  rw [hs, Finset.empty_union]
  exact fun _ _ => id

/-- Recovery from a header with distinct home blocks, fewer than there are buffers. -/
theorem recoverFromLog {l : Log} (hl : v.log.load (v.data v.log.start) = l) (hnd : l.blocks.Nodup)
    (hhome : l.Apart) (hn : l.lh.n < NBUF) :
    Triple (Shows True v) Bio.recoverFromLog
      (fun _ => Shows True { v.stores (l.recoverWrites v.data) with
        sunk := l.blocks.toFinset, log := l.clear }) E := by
  refine .bind (readHead v (by simp [hs]) fun e he => ?_) fun _ => ?_
  · have := (he (.inl (hfree _))).2.le ∅ (by simp [hfree])
    simp [hp, hs, NBUF, MAXOPBLOCKS] at this
  subst hl
  refine .bind (installTrans_sinks hfree hp hs hnd hhome hn) fun _ => ?_
  refine .bind (setLog _ _) fun _ => ?_
  refine (writeHead _ ?_ fun e he => ?_).conseq (fun _ => id) fun _ s hsh => ?_
  · simp only [View.setLog, stores, List.mem_toFinset]
    exact fun hmem => (hhome _ hmem).1 rfl
  · have hle := (he (.inl (hfree _))).2.le ∅ (by simp [View.setLog, stores, hfree])
    simp only [View.setLog, stores, hp, Finset.card_empty, Finset.empty_union, Nat.zero_add] at hle
    rw [List.toFinset_card_of_nodup hnd] at hle
    exact absurd hle (not_le.mpr (by simpa [Log.blocks] using hn))
  · simpa [Log.recoverWrites, Log.clear, stores, replay_append, View.setLog] using hsh

end

end Shows

end Yyds.Fs
