import Yyds.Fs.BioInv
import Yyds.Fs.LogAdmission
import Yyds.Lib.RedoLog
import Yyds.Lib.Triple

/-! What the users of the buffer cache can see of it, and how each routine changes that. -/
namespace Yyds.Fs

open Lib Lib.Kern Function BCache

/-- The cache without its buckets and counts. `handle n` is the buffer of block `n` while someone
holds it; the blocks in `sunk` were unpinned by recovery, which had not pinned them; the blocks in
`dirty` have been modified since they were last written or logged. -/
@[ext] structure View where
  handle : Nat → Option BufId
  pins : Finset Nat
  sunk : Finset Nat
  dirty : Finset Nat
  data : Nat → Block
  disk : Nat → Block
  writes : List (Nat × Block)
  log : Log

namespace View

def take (v : View) (n : Nat) (b : BufId) : View :=
  { v with handle := update v.handle n (some b) }

def drop (v : View) (n : Nat) : View :=
  { v with handle := update v.handle n none, dirty := v.dirty.erase n }

def put (v : View) (n : Nat) (c : Block) : View :=
  { v with data := update v.data n c, dirty := insert n v.dirty }

def write (v : View) (n : Nat) : View :=
  { v with
    disk := update v.disk n (v.data n)
    writes := v.writes ++ [(n, v.data n)]
    dirty := v.dirty.erase n }

def pin (v : View) (n : Nat) : View :=
  { v with pins := insert n v.pins, dirty := v.dirty.erase n }

/-- An unpin without a pin sinks the block. -/
def unpin (v : View) (n : Nat) : View :=
  { v with pins := v.pins.erase n, sunk := if n ∈ v.pins then v.sunk else insert n v.sunk }

def setLog (v : View) (f : Log → Log) : View := { v with log := f v.log }

/-- Blocks that nobody held have been modified and written, in this order. -/
def stores (v : View) (ws : List (Nat × Block)) : View :=
  { v with data := replay v.data ws, disk := replay v.disk ws, writes := v.writes ++ ws }

/-- What the log has added to the count of a block. -/
def cnt (v : View) (n : Nat) : BitVec 32 := if n ∈ v.pins then 1 else if n ∈ v.sunk then -1 else 0

/-- Every buffer is held, or the log has changed its count. -/
def Crowded (v : View) : Prop :=
  ∃ held : Finset BufId, (∀ b ∈ held, ∃ n, v.handle n = some b) ∧
    NBUF ≤ held.card + (v.pins ∪ v.sunk).card

theorem Crowded.mono {v v' : View} (h : v'.Crowded) (hh : v'.handle = v.handle)
    (hp : v'.pins ⊆ v.pins) (hs : v'.sunk = v.sunk) : v.Crowded := by
  obtain ⟨held, hheld, hcard⟩ := h
  have hle := Finset.card_le_card (Finset.union_subset_union_left (t := v.sunk) hp)
  rw [hs] at hcard
  exact ⟨held, hh ▸ hheld, by omega⟩

theorem Crowded.le {v : View} (h : v.Crowded) (bs : Finset BufId)
    (hb : ∀ n b, v.handle n = some b → b ∈ bs) : NBUF ≤ bs.card + (v.pins ∪ v.sunk).card := by
  obtain ⟨held, hheld, hcard⟩ := h
  have hle : held.card ≤ bs.card := Finset.card_le_card fun b hm => by
    obtain ⟨n, hn⟩ := hheld b hm
    exact hb n b hn
  omega

/-- Why `bread` stops: someone holds the block, or no buffer is left. -/
def NoBuf (v : View) (no : Nat) (e : String) : Prop :=
  v.handle no = none ∨ e = "bget: no buffers" → no ∉ v.pins ∧ v.Crowded

/-- The two views differ in block `n` at most. -/
structure Only (n : Nat) (v v' : View) : Prop where
  handle : ∀ m, m ≠ n → v'.handle m = v.handle m
  pins : ∀ m, m ≠ n → (m ∈ v'.pins ↔ m ∈ v.pins)
  sunk : ∀ m, m ≠ n → (m ∈ v'.sunk ↔ m ∈ v.sunk)
  dirty : ∀ m, m ≠ n → (m ∈ v'.dirty ↔ m ∈ v.dirty)
  data : ∀ m, m ≠ n → v'.data m = v.data m
  disk : ∀ m, m ≠ n → v'.disk m = v.disk m

variable {v : View} {n : Nat}

@[simp] theorem stores_stores (v : View) (ws ws' : List (Nat × Block)) :
    (v.stores ws).stores ws' = v.stores (ws ++ ws') := by
  simp [stores, replay_append]

theorem cnt_ne (h : n ∉ v.sunk) : v.cnt n ≠ -1 := by
  rw [cnt, if_neg h]
  split <;> decide

theorem not_mem_dirty (h : ∀ n ∈ v.dirty, v.handle n ≠ none) (hn : v.handle n = none) :
    n ∉ v.dirty :=
  fun hd => h n hd hn

end View

/-- The machine `s` looks like `v`. What the blocks contain is left open unless `coh` holds: a
modified buffer that is released without being logged or written can be lost. -/
structure Shows (coh : Prop) (v : View) (s : Bio) : Prop where
  exact : BCache.Exact v.cnt s.bcache s.locked
  locked : ∀ b, s.locked b = true ↔ ∃ n, v.handle n = some b
  caches : ∀ n b, v.handle n = some b → s.bcache.Caches b n
  held : ∀ n ∈ v.dirty, v.handle n ≠ none
  log : s.log = v.log
  disk : coh → s.disk = v.disk
  writes : coh → s.writes = v.writes
  data : coh → ∀ b n, s.bcache.Caches b n → (s.buf b).data = v.data n
  synced : coh → ∀ n, n ∉ v.pins → n ∉ v.dirty → v.disk n = v.data n

namespace Shows

variable {coh : Prop} {v v' : View} {s t : Bio} {n no : Nat} {b : BufId} {i : Bucket} {c : Block}
  {E : String → Prop}

section
variable (h : Shows coh v s)
include h

theorem locked_of_handle (hb : v.handle n = some b) : s.locked b = true :=
  (h.locked b).mpr ⟨n, hb⟩

theorem cnt_of_handle (hb : v.handle n = some b) : v.cnt n ≠ -1 := by
  have hc := (h.exact.held b (h.locked_of_handle hb)).2
  rwa [(h.caches n b hb).2] at hc

theorem data_of_handle (hcoh : coh) (hb : v.handle n = some b) : (s.buf b).data = v.data n :=
  h.data hcoh b n (h.caches n b hb)

theorem free_of_unlocked (hb : s.bcache.Caches b no) (hl : s.locked b = false) :
    v.handle no = none := by
  cases hn : v.handle no with
  | none => rfl
  | some x =>
    have hx := h.exact.uniq x b no (h.caches no x hn) hb
    rw [← hx, h.locked_of_handle hn] at hl
    cases hl

theorem free_of_absent (hno : ∀ x, ¬ s.bcache.Caches x no) : v.handle no = none := by
  cases hn : v.handle no with
  | none => rfl
  | some x => exact absurd (h.caches no x hn) (hno x)

theorem not_pinned_of_absent (hno : ∀ x, ¬ s.bcache.Caches x no) : no ∉ v.pins := by
  intro hn
  obtain ⟨x, hx⟩ := h.exact.counted no (by simp [View.cnt, hn])
  exact hno x hx

/-- A buffer that is in use and not held has a block whose count the log has changed. -/
theorem crowded (hfull : ∀ x, (s.buf x).refcnt ≠ 0) : v.Crowded := by
  have hcnt : ∀ x, s.locked x = false → s.bcache.Caches x (s.buf x).blockno ∧
      (s.buf x).blockno ∈ v.pins ∪ v.sunk := by
    intro x hl
    have hx := hfull x
    rw [h.exact.refcnt x, BCache.users, hl, View.cnt] at hx
    by_contra hcon
    refine hx ?_
    simp only [not_and, Finset.mem_union, not_or, BCache.Caches, and_true] at hcon
    rw [if_neg Bool.false_ne_true]
    split
    · rename_i hd
      rw [if_neg (hcon hd).1, if_neg (hcon hd).2]
      rfl
    · rfl
  refine ⟨Finset.univ.filter fun x => s.locked x = true, ?_, ?_⟩
  · intro x hx
    exact (h.locked x).mp (Finset.mem_filter.mp hx).2
  have hle : (Finset.univ.filter fun x => ¬ s.locked x = true).card ≤ (v.pins ∪ v.sunk).card := by
    simp only [Bool.not_eq_true]
    apply Finset.card_le_card_of_injOn fun x => (s.buf x).blockno
    · exact fun x hx => (hcnt x (by simpa using hx)).2
    · intro x hx y hy hxy
      have hcx := (hcnt x (by simpa using hx)).1
      exact h.exact.uniq x y _ hcx ⟨(hcnt y (by simpa using hy)).1.1, hxy.symm⟩
  have hall := Finset.card_filter_add_card_filter_not (s := (Finset.univ : Finset BufId))
    fun x => s.locked x = true
  rw [Finset.card_univ, Fintype.card_fin] at hall
  omega

/-- A routine that touches the buffer of block `n` only. -/
theorem change (hb : s.bcache.Caches b n) (f : Buf → Buf)
    (hid : ∀ x, (f x).valid = x.valid ∧ (f x).dev = x.dev ∧ (f x).blockno = x.blockno)
    (ho : v.Only n v')
    (hc : t.bcache = s.bcache.setBuf b f) (hl : t.locked = update s.locked b (v'.handle n).isSome)
    (hh : ∀ x, v'.handle n = some x → x = b)
    (hr : (f (s.buf b)).refcnt = BCache.users v'.cnt s.bcache t.locked b)
    (hcnt : v'.handle n ≠ none → v'.cnt n ≠ -1)
    (hheld : n ∈ v'.dirty → v'.handle n ≠ none) (hlog : t.log = v'.log)
    (hdisk : coh → t.disk = v'.disk) (hwrites : coh → t.writes = v'.writes)
    (hdata : coh → (f (s.buf b)).data = v'.data n)
    (hsync : coh → n ∉ v'.pins → n ∉ v'.dirty → v'.disk n = v'.data n) : Shows coh v' t := by
  simp only [forall_and] at hid
  obtain ⟨hvalid, hdev, hno⟩ := hid
  have hcaches : ∀ x m, t.bcache.Caches x m ↔ s.bcache.Caches x m := by
    intro x m
    rw [hc]
    exact caches_setBuf hdev hno
  have hlx : ∀ x, x ≠ b → t.locked x = s.locked x := by
    intro x hx
    rw [hl, update_of_ne hx]
  refine ⟨?_, ?_, ?_, ?_, hlog, hdisk, hwrites, ?_, ?_⟩
  · rw [hc]
    refine h.exact.setBuf hb f hvalid hdev hno hlx (fun m hm => ?_) (fun hlb => hcnt ?_) hr
    · simp only [View.cnt, ho.pins m hm, ho.sunk m hm]
    · rw [hl, update_self] at hlb
      exact Option.isSome_iff_ne_none.mp hlb
  · intro x
    by_cases hx : x = b
    · subst hx
      rw [hl, update_self, Option.isSome_iff_exists]
      constructor
      · rintro ⟨y, hy⟩
        exact ⟨n, hh y hy ▸ hy⟩
      · rintro ⟨m, hm⟩
        by_cases hmn : m = n
        · exact ⟨x, hmn ▸ hm⟩
        · -- the buffer is not held for another block
          rw [ho.handle m hmn] at hm
          exact absurd ((h.caches m x hm).2.symm.trans hb.2) hmn
    · rw [hlx x hx, h.locked x]
      refine exists_congr fun m => ?_
      by_cases hmn : m = n
      · subst hmn
        constructor
        · intro hm
          exact absurd (h.exact.uniq x b m (h.caches m x hm) hb) hx
        · intro hm
          exact absurd (hh x hm) hx
      · rw [ho.handle m hmn]
  · intro m x hm
    rw [hcaches]
    by_cases hmn : m = n
    · subst hmn
      exact hh x hm ▸ hb
    · exact h.caches m x (ho.handle m hmn ▸ hm)
  · intro m hm
    by_cases hmn : m = n
    · exact hmn ▸ hheld (hmn ▸ hm)
    · rw [ho.handle m hmn]
      exact h.held m ((ho.dirty m hmn).mp hm)
  · intro hcoh x m hx
    rw [hcaches] at hx
    rw [Bio.buf, hc]
    by_cases hxb : x = b
    · subst hxb
      rw [setBuf_self, hdata hcoh, ← hb.2, hx.2]
    · have hmn : m ≠ n := fun hmn => hxb (h.exact.uniq x b n (hmn ▸ hx) hb)
      rw [setBuf_of_ne f hxb, ho.data m hmn]
      exact h.data hcoh x m hx
  · intro hcoh m hp hd
    by_cases hmn : m = n
    · subst hmn
      exact hsync hcoh hp hd
    · rw [ho.disk m hmn, ho.data m hmn]
      exact h.synced hcoh m (fun hm => hp ((ho.pins m hmn).mpr hm))
        (fun hm => hd ((ho.dirty m hmn).mpr hm))

theorem hit (hb : s.bcache.Caches b n) (hl : s.locked b = false) (hs : n ∉ v.sunk) :
    Shows coh (v.take n b) (s.hit b) := by
  refine h.change hb (fun x => { x with refcnt := x.refcnt + 1, timestamp := s.ticks })
    (fun _ => ⟨rfl, rfl, rfl⟩) ?_ rfl ?_ ?_ ?_ (fun _ => View.cnt_ne hs) ?_ h.log h.disk h.writes
    (fun hcoh => h.data hcoh b n hb) (fun hcoh => h.synced hcoh n)
  · constructor <;> intro m hm <;> simp [View.take, hm]
  · simp [Bio.hit, View.take]
  · simp [View.take]
  · rw [h.exact.refcnt b]
    exact (users_lock hl).symm
  · simp [View.take]

theorem fill (hb : b ∈ s.bcache.bucket i) (hz : (s.buf b).refcnt = 0)
    (hno : ∀ x, ¬ s.bcache.Caches x n) : Shows coh (v.take n b) (s.fill i b n) := by
  have hfree := h.free_of_absent hno
  have hself : (s.fill i b n).bcache.buf b = ⟨true, ROOTDEV, n, 1, s.disk n, s.ticks⟩ := by
    simp [Bio.fill]
  have hother : ∀ x, x ≠ b → (s.fill i b n).bcache.buf x = s.bcache.buf x := by
    intro x hx
    simp [Bio.fill, hx]
  have hunlocked := (h.exact.unused hz).1
  have hne : ∀ m x, v.handle m = some x → x ≠ b := by
    intro m x hx hxb
    rw [← hxb, h.locked_of_handle hx] at hunlocked
    cases hunlocked
  refine ⟨h.exact.fill hb hz hno _ _, ?_, ?_, ?_, h.log, h.disk, h.writes, ?_, h.synced⟩
  · intro x
    by_cases hx : x = b
    · subst hx
      simp only [Bio.fill, update_self, true_iff]
      exact ⟨n, by simp [View.take]⟩
    simp only [Bio.fill]
    rw [update_of_ne hx, h.locked x]
    refine exists_congr fun m => ?_
    by_cases hm : m = n
    · subst hm
      simp [View.take, hfree, Ne.symm hx]
    · simp [View.take, hm]
  · intro m x hm
    by_cases hmn : m = n
    · subst hmn
      simp only [View.take, update_self, Option.some.injEq] at hm
      subst hm
      rw [BCache.Caches, hself]
      exact ⟨rfl, rfl⟩
    · have hx : v.handle m = some x := by simpa [View.take, hmn] using hm
      rw [BCache.Caches, hother x (hne m x hx)]
      exact h.caches m x hx
  · intro m hm
    by_cases hmn : m = n
    · simp [View.take, hmn]
    · simpa [View.take, hmn] using h.held m hm
  · intro hcoh x m hx
    rw [BCache.Caches] at hx
    by_cases hxb : x = b
    · subst hxb
      rw [hself] at hx
      have hm : n = m := hx.2
      subst hm
      rw [Bio.buf, hself]
      have hdirty := View.not_mem_dirty h.held hfree
      calc s.disk n = v.disk n := by rw [h.disk hcoh]
        _ = v.data n := h.synced hcoh n (h.not_pinned_of_absent hno) hdirty
    · rw [hother x hxb] at hx
      rw [Bio.buf, hother x hxb]
      exact h.data hcoh x m hx

end

theorem bread (v : View) (no : Nat) (hs : no ∉ v.sunk) :
    Triple (Shows coh v) (Bio.bread ROOTDEV no)
      (fun b t => Shows coh (v.take no b) t ∧ v.handle no = none) (v.NoBuf no) := by
  intro s h
  rcases Bio.bread_cases h.exact no with ⟨b, hb, hl, hr⟩ | ⟨b, hb, hl, hr⟩ |
    ⟨i, b, hno, hb, hz, hr⟩ | ⟨hno, hfull, hr⟩
  · rw [hr]
    rintro (hn | he)
    · obtain ⟨n, hn'⟩ := (h.locked b).mp hl
      rw [(h.caches n b hn').2.symm.trans hb.2] at hn'
      rw [hn] at hn'
      cases hn'
    · exact absurd he (by decide)
  · rw [hr]
    exact ⟨h.hit hb hl hs, h.free_of_unlocked hb hl⟩
  · rw [hr]
    exact ⟨h.fill hb hz hno, h.free_of_absent hno⟩
  · rw [hr]
    exact fun _ => ⟨h.not_pinned_of_absent hno, h.crowded hfull⟩

/-- Only the contents matter if `coh` holds. -/
theorem setData (c' : Block) (hb : v.handle n = some b) (hc : coh → c = c') :
    Triple (Shows coh v) (Bio.setData b c) (fun _ => Shows coh (v.put n c')) E := by
  refine .of_ok fun s h => ⟨(), _, rfl, ?_⟩
  have hl := h.locked_of_handle hb
  refine h.change (h.caches n b hb) (fun x => { x with data := c }) (fun _ => ⟨rfl, rfl, rfl⟩) ?_ rfl ?_ ?_
    (h.exact.refcnt b) (fun _ => h.cnt_of_handle hb) ?_ h.log h.disk h.writes ?_ ?_
  · constructor <;> intro m hm <;> simp [View.put, hm]
  · simp [View.put, hb, ← hl, Bio.modBuf]
  · simp [View.put, hb]
  · simp [View.put, hb]
  · intro hcoh
    simpa [View.put] using hc hcoh
  · intro _ _ hd
    simp [View.put] at hd

section
variable (hb : v.handle n = some b)
include hb

theorem bwrite : Triple (Shows coh v) (Bio.bwrite b) (fun _ => Shows coh (v.write n)) E := by
  refine .of_ok fun s h => ?_
  have hl := h.locked_of_handle hb
  have hcb := h.caches n b hb
  refine ⟨(), { s with
    disk := update s.disk (s.buf b).blockno (s.buf b).data
    writes := s.writes ++ [((s.buf b).blockno, (s.buf b).data)] }, ?_, ?_⟩
  · simp [Bio.bwrite, Bio.diskWrite, Kern.when, hl]
  refine h.change hcb (fun x => x) (fun _ => ⟨rfl, rfl, rfl⟩) ?_ ?_ ?_ ?_ (h.exact.refcnt b)
    (fun _ => h.cnt_of_handle hb) ?_ h.log ?_ ?_ ?_ ?_
  · constructor <;> intro m hm <;> simp [View.write, hm]
  · simp [setBuf]
  · simp [View.write, hb, ← hl]
  · simp [View.write, hb]
  · simp [View.write, hb]
  · intro hcoh
    rw [View.write, ← h.disk hcoh, ← h.data hcoh b n hcb, hcb.2]
  · intro hcoh
    rw [View.write, ← h.writes hcoh, ← h.data hcoh b n hcb, hcb.2]
  · intro hcoh
    exact h.data hcoh b n hcb
  · simp [View.write]

theorem brelse (hd : coh → n ∉ v.dirty) :
    Triple (Shows coh v) (Bio.brelse b) (fun _ => Shows coh (v.drop n)) E := by
  refine .of_ok fun s h => ?_
  have hl := h.locked_of_handle hb
  have hcb := h.caches n b hb
  refine ⟨(), s.dropped b, Bio.brelse_held hl, ?_⟩
  refine h.change hcb (fun x => { x with refcnt := x.refcnt - 1, timestamp := s.ticks })
    (fun _ => ⟨rfl, rfl, rfl⟩) ?_ rfl ?_ ?_ ?_ (fun _ => h.cnt_of_handle hb) ?_ h.log h.disk h.writes
    ?_ ?_
  · constructor <;> intro m hm <;> simp [View.drop, hm]
  · simp [View.drop, Bio.dropped]
  · intro x hx
    simp [View.drop] at hx
  · rw [h.exact.refcnt b]
    exact (users_unlock hl).symm
  · simp [View.drop]
  · exact fun hcoh => h.data hcoh b n hcb
  · exact fun hcoh hp _ => h.synced hcoh n hp (hd hcoh)

theorem bpin (hp : n ∉ v.pins) (hs : n ∉ v.sunk) :
    Triple (Shows coh v) (Bio.bpin b) (fun _ => Shows coh (v.pin n)) E := by
  refine .of_ok fun s h => ⟨(), _, rfl, ?_⟩
  have hl := h.locked_of_handle hb
  have hcb := h.caches n b hb
  refine h.change hcb (fun x => { x with refcnt := x.refcnt + 1 }) (fun _ => ⟨rfl, rfl, rfl⟩) ?_ rfl ?_ ?_
    ?_ ?_ ?_ h.log h.disk h.writes (fun hcoh => h.data hcoh b n hcb) ?_
  · constructor <;> intro m hm <;> simp [View.pin, hm]
  · simp [View.pin, hb, ← hl, Bio.modBuf]
  · simp [View.pin, hb]
  · rw [h.exact.refcnt b]
    exact (users_add hcb (by simp [View.cnt, View.pin, hp, hs])).symm
  · intro _
    exact View.cnt_ne hs
  · simp [View.pin]
  · intro _ hn
    simp [View.pin] at hn

end

theorem unpin (h : Shows coh v s) (hb : s.bcache.Caches b n) (hn : v.handle n = none)
    (hs : n ∉ v.sunk) (hd : coh → v.disk n = v.data n) :
    Shows coh (v.unpin n) (s.modBuf b fun x => { x with refcnt := x.refcnt - 1 }) := by
  have hl : s.locked b = false := by
    rw [← Bool.not_eq_true, h.locked b]
    rintro ⟨m, hm⟩
    rw [← hb.2, (h.caches m b hm).2, hm] at hn
    cases hn
  refine h.change hb (fun x => { x with refcnt := x.refcnt - 1 }) (fun _ => ⟨rfl, rfl, rfl⟩) ?_ rfl
    ?_ ?_ ?_ ?_ (h.held n) h.log h.disk h.writes (fun hcoh => h.data hcoh b n hb)
    (fun hcoh _ _ => hd hcoh)
  · constructor <;> intro m hm <;> simp [View.unpin, hm]
    split <;> simp [hm]
  · simp [View.unpin, hn, ← hl, Bio.modBuf]
  · simp [View.unpin, hn]
  · dsimp only
    rw [h.exact.refcnt b]
    refine users_sub hb ?_
    by_cases hp : n ∈ v.pins <;> simp [View.cnt, View.unpin, hp, hs]
  · intro hh
    exact absurd hn hh

/-- The end of `install_trans`. In recovery the home block is not pinned: its count is 0 while it is
still held. -/
theorem bunpin_brelse {l d : BufId} {x y : Nat} (hx : v.handle x = some l)
    (hy : v.handle y = some d) (hne : x ≠ y) (hdx : x ∉ v.dirty) (hdy : y ∉ v.dirty)
    (hs : y ∉ v.sunk) (hsync : v.disk y = v.data y) :
    Triple (Shows coh v) (Bio.bunpin d >>= fun _ => Bio.brelse l >>= fun _ => Bio.brelse d)
      (fun _ => Shows coh (((v.drop x).drop y).unpin y)) E := by
  refine .of_ok fun s h => ?_
  have hl := h.locked_of_handle hx
  have hd := h.locked_of_handle hy
  have hld : l ≠ d := by
    rintro rfl
    exact hne ((h.caches x l hx).2.symm.trans (h.caches y l hy).2)
  have hd1 : (s.dropped l).locked d = true := by simp [Bio.dropped, hld.symm, hd]
  have h1 : Shows coh (v.drop x) (s.dropped l) :=
    (brelse (E := fun _ => False) hx fun _ => hdx).ok h (Bio.brelse_held hl)
  have hy1 : (v.drop x).handle y = some d := by simp [View.drop, hne.symm, hy]
  have h2 : Shows coh ((v.drop x).drop y) ((s.dropped l).dropped d) :=
    (brelse (E := fun _ => False) hy1 fun _ => by simp [View.drop, hdy]).ok h1 (Bio.brelse_held hd1)
  have hcaches : ((s.dropped l).dropped d).bcache.Caches d y := by
    simpa [Bio.dropped, Bio.modBuf, BCache.Caches] using h1.caches y d hy1
  -- releasing both and unpinning then comes to the same state
  refine ⟨(), _, ?_, h2.unpin hcaches (by simp [View.drop]) hs fun _ => hsync⟩
  obtain ⟨u, hu⟩ : ∃ u, u = s.modBuf d fun x => { x with refcnt := x.refcnt - 1 } := ⟨_, rfl⟩
  have hl2 : u.locked l = true := by simp [hu, Bio.modBuf, hl]
  have hd2 : (u.dropped l).locked d = true := by simp [hu, Bio.dropped, Bio.modBuf, hld.symm, hd]
  rw [Bio.bunpin, modify_bind_apply, ← hu, bind_of_ok (Bio.brelse_held hl2), Bio.brelse_held hd2, hu]
  simp only [Bio.dropped, Bio.modBuf, BCache.setBuf]
  simp [update_comm hld, hld.symm, hld]

theorem setLog (v : View) (f : Log → Log) :
    Triple (Shows coh v) (Bio.setLog f) (fun _ => Shows coh (v.setLog f)) E := by
  refine .of_ok fun s h => ⟨(), _, rfl, ?_⟩
  exact { h with log := congrArg f h.log }

end Shows

end Yyds.Fs
