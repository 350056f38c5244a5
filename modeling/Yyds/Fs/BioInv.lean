import Yyds.Fs.Bio

/-! What the buffer cache keeps: every buffer is in the bucket of its block, every block has one
buffer at most, and the reference counts are exact. -/
namespace Yyds.Fs

open Lib Kern Function

namespace BCache

variable {c : BCache} {b x : BufId} {i j : Bucket} {dev no : Nat}

/-- Every buffer is in the bucket of its block number, once. -/
structure Sorted (c : BCache) : Prop where
  nodup : ∀ i, (c.bucket i).Nodup
  mem : ∀ i b, b ∈ c.bucket i ↔ HASH (c.buf b).blockno = i

theorem sorted_binit : Sorted binit := by
  refine ⟨?_, ?_⟩
  · intro i
    dsimp only [binit]
    split
    · exact List.nodup_reverse.mpr (List.nodup_finRange _)
    · exact List.nodup_nil
  · intro i b
    dsimp only [binit]
    split
    · rename_i h
      simp [h, HASH]
    · rename_i h
      simpa [HASH] using Ne.symm h

@[simp] theorem setBuf_self (c : BCache) (b : BufId) (f : Buf → Buf) :
    (c.setBuf b f).buf b = f (c.buf b) := by
  simp [setBuf]

@[simp] theorem setBuf_of_ne (f : Buf → Buf) (h : x ≠ b) : (c.setBuf b f).buf x = c.buf x := by
  simp [setBuf, h]

@[simp] theorem setBuf_bucket (c : BCache) (b : BufId) (f : Buf → Buf) :
    (c.setBuf b f).bucket = c.bucket := rfl

variable {f : Buf → Buf} {bs : List BufId} {b0 : Option BufId} {is : List Bucket}

/-- What a change of one buffer leaves alone is as before in all of them. -/
theorem setBuf_field {α : Type} {g : Buf → α} (h : ∀ y, g (f y) = g y) (c : BCache) (b x : BufId) :
    g ((c.setBuf b f).buf x) = g (c.buf x) := by
  by_cases hx : x = b
  · subst hx
    rw [setBuf_self, h]
  · rw [setBuf_of_ne f hx]

theorem Sorted.setBuf (h : c.Sorted) (hf : ∀ x, (f x).blockno = x.blockno) :
    (c.setBuf b f).Sorted := by
  refine ⟨h.nodup, ?_⟩
  intro i x
  rw [setBuf_bucket, h.mem i x, setBuf_field hf]

@[simp] theorem steal_buf (c : BCache) (i bid : Bucket) (b : BufId) :
    (c.steal i bid b).buf = c.buf := by
  unfold steal
  split <;> rfl

/-- A buffer that is taken from bucket `i` and gets another block. -/
theorem Sorted.steal (h : c.Sorted) (hb : b ∈ c.bucket i) (hf : (f (c.buf b)).blockno = no) :
    ((c.steal i (HASH no) b).setBuf b f).Sorted := by
  have hi := (h.mem i b).mp hb
  unfold BCache.steal
  split
  · rename_i hbid
    refine ⟨h.nodup, ?_⟩
    intro j x
    rw [setBuf_bucket, h.mem j x]
    by_cases hx : x = b
    · subst hx
      rw [setBuf_self, hf, hi, hbid]
    · rw [setBuf_of_ne f hx]
  rename_i hbid
  have hother : ∀ x, x ≠ b → (((c.unlink i b).link (HASH no) b).setBuf b f).buf x = c.buf x :=
    fun x hx => setBuf_of_ne f hx
  have hself : ((((c.unlink i b).link (HASH no) b).setBuf b f).buf b).blockno = no := by
    rw [setBuf_self]
    exact hf
  refine ⟨?_, ?_⟩
  · intro j
    simp only [setBuf_bucket, link, unlink]
    by_cases hj : j = HASH no
    · subst hj
      rw [update_self, update_of_ne (Ne.symm hbid)]
      refine List.nodup_cons.mpr ⟨?_, h.nodup _⟩
      intro hmem
      exact hbid (hi.symm.trans ((h.mem _ b).mp hmem))
    · rw [update_of_ne hj]
      by_cases hji : j = i
      · subst hji
        rw [update_self]
        exact (h.nodup _).erase _
      · rw [update_of_ne hji]
        exact h.nodup j
  · intro j x
    by_cases hx : x = b
    · subst hx
      rw [hself]
      simp only [setBuf_bucket, link, unlink]
      by_cases hj : j = HASH no
      · subst hj
        simp
      rw [update_of_ne hj]
      by_cases hji : j = i
      · subst hji
        simp [(h.nodup j).mem_erase_iff, Ne.symm hj]
      · rw [update_of_ne hji, h.mem, hi]
        simp [Ne.symm hji, Ne.symm hj]
    · rw [hother x hx, ← h.mem]
      simp only [setBuf_bucket, link, unlink]
      by_cases hj : j = HASH no
      · subst hj
        rw [update_of_ne (Ne.symm hbid)]
        simp [hx]
      rw [update_of_ne hj]
      by_cases hji : j = i
      · subst hji
        simp [hx]
      · rw [update_of_ne hji]

/-! ### The searches -/

theorem lookup_some (h : c.lookup dev no = some b) :
    (c.buf b).dev = dev ∧ (c.buf b).blockno = no := by
  have := List.find?_some h
  simpa using this

theorem lookup_none (hs : c.Sorted) (h : c.lookup dev no = none) (b : BufId) :
    ¬ ((c.buf b).dev = dev ∧ (c.buf b).blockno = no) := by
  intro hb
  have hmem : b ∈ c.bucket (HASH no) := (hs.mem _ b).mpr (by rw [hb.2])
  have := List.find?_eq_none.mp h b hmem
  simp [hb] at this

theorem foldl_better_some (h : bs.foldl c.better b0 = some b) :
    b0 = some b ∨ b ∈ bs ∧ (c.buf b).refcnt = 0 := by
  induction bs generalizing b0 with
  | nil => exact .inl h
  | cons x bs ih =>
    rcases ih h with hx | ⟨hb, hr⟩
    · unfold better at hx
      split at hx
      · rename_i hc
        cases hx
        exact .inr ⟨List.mem_cons_self, hc.1⟩
      · exact .inl hx
    · exact .inr ⟨List.mem_cons_of_mem _ hb, hr⟩

theorem foldl_better_none (h : bs.foldl c.better b0 = none) :
    b0 = none ∧ ∀ b ∈ bs, (c.buf b).refcnt ≠ 0 := by
  induction bs generalizing b0 with
  | nil => exact ⟨h, by simp⟩
  | cons x bs ih =>
    obtain ⟨hx, hbs⟩ := ih h
    unfold better at hx
    split at hx
    · cases hx
    rename_i hc
    refine ⟨hx, ?_⟩
    intro b hb
    rcases List.mem_cons.mp hb with rfl | hb
    · intro hz
      exact hc ⟨hz, by simp [hx]⟩
    · exact hbs b hb

theorem lru_some (h : c.lru i = some b) : b ∈ c.bucket i ∧ (c.buf b).refcnt = 0 := by
  rcases foldl_better_some h with hn | hb
  · cases hn
  · exact hb

theorem unused_some (h : c.unused is = some (i, b)) : c.lru i = some b := by
  induction is with
  | nil => cases h
  | cons j is ih =>
    unfold unused at h
    split at h
    · rename_i hl
      cases h
      exact hl
    · exact ih h

theorem unused_none (h : c.unused is = none) : ∀ i ∈ is, c.lru i = none := by
  induction is with
  | nil => simp
  | cons j is ih =>
    unfold unused at h
    split at h
    · cases h
    · rename_i hl
      intro i hi
      rcases List.mem_cons.mp hi with rfl | hi
      · exact hl
      · exact ih h i hi

theorem mem_visits (bid i : Bucket) : i ∈ visits bid := by
  revert bid i
  decide

/-- `bget` gives up only if every buffer is in use. -/
theorem all_used (hs : c.Sorted) (h : c.unused (visits i) = none) (b : BufId) :
    (c.buf b).refcnt ≠ 0 := by
  have hmem : b ∈ c.bucket (HASH (c.buf b).blockno) := (hs.mem _ b).mpr rfl
  exact (foldl_better_none (unused_none h _ (mem_visits i _))).2 b hmem

/-- Buffer `b` is the one of block `n` of the file system. -/
def Caches (c : BCache) (b : BufId) (n : Nat) : Prop :=
  (c.buf b).dev = ROOTDEV ∧ (c.buf b).blockno = n
  deriving Decidable

/-- The holder of a buffer, and what the log has added to the count of its block. -/
def users (cnt : Nat → BitVec 32) (c : BCache) (locked : BufId → Bool) (b : BufId) : BitVec 32 :=
  (if locked b = true then 1 else 0) + if (c.buf b).dev = ROOTDEV then cnt (c.buf b).blockno else 0

/-- The cache while the log has added `cnt` to the counts. A block that it has unpinned once too
often is not held: its buffer would have count 0 and could be taken away from the holder. -/
structure Exact (cnt : Nat → BitVec 32) (c : BCache) (locked : BufId → Bool) : Prop where
  sorted : c.Sorted
  valid : ∀ b, (c.buf b).dev = ROOTDEV → (c.buf b).valid = true
  held : ∀ b, locked b = true → (c.buf b).dev = ROOTDEV ∧ cnt (c.buf b).blockno ≠ -1
  uniq : ∀ b b' n, c.Caches b n → c.Caches b' n → b = b'
  counted : ∀ n, cnt n ≠ 0 → ∃ b, c.Caches b n
  refcnt : ∀ b, (c.buf b).refcnt = users cnt c locked b

variable {n : Nat} {cnt cnt' : Nat → BitVec 32} {locked locked' : BufId → Bool}

theorem setBuf_setBuf (c : BCache) (b : BufId) (f g : Buf → Buf) :
    (c.setBuf b f).setBuf b g = c.setBuf b fun x => g (f x) := by
  simp [setBuf]

theorem exact_binit : Exact (fun _ => 0) binit fun _ => false where
  sorted := sorted_binit
  valid b h := by cases h
  held b h := by cases h
  uniq b b' n h := by cases h.1
  counted n h := absurd rfl h
  refcnt b := rfl

theorem users_lock (h : locked b = false) :
    users cnt c (update locked b true) b = users cnt c locked b + 1 := by
  simp only [users, update_self, h, if_true, Bool.false_eq_true, if_false]
  bv_omega

theorem users_unlock (h : locked b = true) :
    users cnt c (update locked b false) b = users cnt c locked b - 1 := by
  simp only [users, update_self, h, if_true, Bool.false_eq_true, if_false]
  bv_omega

theorem users_add {d : BitVec 32} (hb : c.Caches b n) (h : cnt' n = cnt n + d) :
    users cnt' c locked b = users cnt c locked b + d := by
  obtain ⟨hd, rfl⟩ := hb
  simp only [users, hd, h, if_true]
  exact (BitVec.add_assoc _ _ _).symm

theorem users_sub (hb : c.Caches b n) (h : cnt n = cnt' n + 1) :
    users cnt c locked b - 1 = users cnt' c locked b := by
  rw [users_add hb h]
  exact BitVec.add_sub_cancel _ _

theorem Exact.unused (h : Exact cnt c locked) (hz : (c.buf b).refcnt = 0) :
    locked b = false ∧ ∀ n, c.Caches b n → cnt n = 0 := by
  rw [h.refcnt b, users] at hz
  have hfree : locked b = false := by
    rw [← Bool.not_eq_true]
    intro hl
    obtain ⟨hd, hc⟩ := h.held b hl
    rw [if_pos hl, if_pos hd] at hz
    exact hc (by bv_omega)
  refine ⟨hfree, ?_⟩
  rintro n ⟨hd, rfl⟩
  rw [hfree, if_neg Bool.false_ne_true, if_pos hd] at hz
  simpa using hz

theorem caches_setBuf (hdev : ∀ x, (f x).dev = x.dev) (hno : ∀ x, (f x).blockno = x.blockno) :
    (c.setBuf b f).Caches x n ↔ c.Caches x n := by
  rw [Caches, setBuf_field hdev, setBuf_field hno, Caches]

/-- Another count, holder or pin for one buffer of the file system. -/
theorem Exact.setBuf (h : Exact cnt c locked) (hb : c.Caches b n) (f : Buf → Buf)
    (hvalid : ∀ x, (f x).valid = x.valid) (hdev : ∀ x, (f x).dev = x.dev)
    (hno : ∀ x, (f x).blockno = x.blockno) (hl : ∀ x, x ≠ b → locked' x = locked x)
    (hp : ∀ m, m ≠ n → cnt' m = cnt m) (hh : locked' b = true → cnt' n ≠ -1)
    (hr : (f (c.buf b)).refcnt = users cnt' c locked' b) : Exact cnt' (c.setBuf b f) locked' := by
  have hcaches : ∀ x m, (c.setBuf b f).Caches x m ↔ c.Caches x m :=
    fun x m => caches_setBuf hdev hno
  refine ⟨h.sorted.setBuf hno, ?_, ?_, ?_, ?_, ?_⟩
  · intro x hx
    rw [setBuf_field hdev] at hx
    rw [setBuf_field hvalid]
    exact h.valid x hx
  · intro x hx
    rw [setBuf_field hdev, setBuf_field hno]
    by_cases hxb : x = b
    · subst hxb
      exact ⟨hb.1, hb.2 ▸ hh hx⟩
    · obtain ⟨hd, hc⟩ := h.held x (hl x hxb ▸ hx)
      refine ⟨hd, ?_⟩
      rwa [hp]
      exact fun hxn => hxb (h.uniq x b n ⟨hd, hxn⟩ hb)
  · intro x x' m hx hx'
    exact h.uniq x x' m ((hcaches x m).mp hx) ((hcaches x' m).mp hx')
  · intro m hm
    by_cases hmn : m = n
    · exact ⟨b, (hcaches b m).mpr (hmn ▸ hb)⟩
    · obtain ⟨x, hx⟩ := h.counted m (hp m hmn ▸ hm)
      exact ⟨x, (hcaches x m).mpr hx⟩
  · intro x
    have husers : users cnt' (c.setBuf b f) locked' x = users cnt' c locked' x := by
      simp only [users, setBuf_field hdev, setBuf_field hno]
    rw [husers]
    by_cases hx : x = b
    · subst hx
      rw [setBuf_self, hr]
    rw [setBuf_of_ne f hx, h.refcnt x]
    simp only [users, hl x hx]
    congr 1
    split
    · rename_i hd
      rw [hp]
      exact fun hxn => hx (h.uniq x b n ⟨hd, hxn⟩ hb)
    · rfl

theorem Exact.fill (h : Exact cnt c locked) (hb : b ∈ c.bucket i) (hz : (c.buf b).refcnt = 0)
    (hno : ∀ x, ¬ c.Caches x no) (data : Block) (ticks : BitVec 32) :
    Exact cnt ((c.steal i (HASH no) b).setBuf b fun _ => ⟨true, ROOTDEV, no, 1, data, ticks⟩)
      (update locked b true) := by
  obtain ⟨hfree, hpin⟩ := h.unused hz
  obtain ⟨c', hc'⟩ : ∃ c', c' = (c.steal i (HASH no) b).setBuf b fun _ =>
      ⟨true, ROOTDEV, no, 1, data, ticks⟩ := ⟨_, rfl⟩
  rw [← hc']
  have hself : c'.buf b = ⟨true, ROOTDEV, no, 1, data, ticks⟩ := by
    rw [hc', setBuf_self]
  have hother : ∀ x, x ≠ b → c'.buf x = c.buf x := by
    intro x hx
    rw [hc', setBuf_of_ne _ hx, steal_buf]
  have hcaches : ∀ x m, x ≠ b → (c'.Caches x m ↔ c.Caches x m) := by
    intro x m hx
    rw [Caches, hother x hx, Caches]
  have hnew : ∀ m, c'.Caches b m ↔ no = m := by
    intro m
    rw [Caches, hself]
    simp
  have hzero : cnt no = 0 := by
    by_contra hc
    obtain ⟨y, hy⟩ := h.counted no hc
    exact hno y hy
  refine ⟨hc' ▸ h.sorted.steal hb rfl, ?_, ?_, ?_, ?_, ?_⟩
  · intro x hx
    by_cases hxb : x = b
    · rw [hxb, hself]
    · rw [hother x hxb] at hx ⊢
      exact h.valid x hx
  · intro x hx
    by_cases hxb : x = b
    · rw [hxb, hself, hzero]
      exact ⟨rfl, by decide⟩
    · rw [update_of_ne hxb] at hx
      rw [hother x hxb]
      exact h.held x hx
  · intro x x' m hx hx'
    by_cases hxb : x = b <;> by_cases hxb' : x' = b
    · rw [hxb, hxb']
    · subst hxb
      rw [hnew] at hx
      rw [hcaches _ _ hxb', ← hx] at hx'
      exact absurd hx' (hno x')
    · subst hxb'
      rw [hnew] at hx'
      rw [hcaches _ _ hxb, ← hx'] at hx
      exact absurd hx (hno x)
    · rw [hcaches _ _ hxb] at hx
      rw [hcaches _ _ hxb'] at hx'
      exact h.uniq x x' m hx hx'
  · intro m hm
    obtain ⟨x, hx⟩ := h.counted m hm
    have hxb : x ≠ b := by
      intro hxb
      exact hm (hpin m (hxb ▸ hx))
    exact ⟨x, (hcaches x m hxb).mpr hx⟩
  · intro x
    by_cases hxb : x = b
    · subst hxb
      rw [users, hself]
      simp [hzero]
    · rw [hother x hxb, h.refcnt x]
      simp only [users, hother x hxb, update_of_ne hxb]

end BCache

namespace Bio

variable {s t : Bio} {b : BufId} {i : Bucket} {no n : Nat} {cnt : Nat → BitVec 32}

/-- The state in which `bread` leaves a cached block. -/
def hit (s : Bio) (b : BufId) : Bio :=
  { s.modBuf b fun x => { x with refcnt := x.refcnt + 1, timestamp := s.ticks } with
    locked := update s.locked b true }

/-- The state in which `bread` leaves a block that it has read into a buffer of bucket `i`. -/
def fill (s : Bio) (i : Bucket) (b : BufId) (no : Nat) : Bio :=
  { s with
    bcache := (s.bcache.steal i (HASH no) b).setBuf b fun _ =>
      ⟨true, ROOTDEV, no, 1, s.disk no, s.ticks⟩
    locked := update s.locked b true }

/-- The state in which `brelse` leaves a held buffer. -/
def dropped (s : Bio) (b : BufId) : Bio :=
  { s.modBuf b fun x => { x with refcnt := x.refcnt - 1, timestamp := s.ticks } with
    locked := update s.locked b false }

theorem brelse_held (hl : s.locked b = true) : brelse b s = .ok ((), s.dropped b) := by
  simp [brelse, releasesleep, Kern.when, hl, modBuf, dropped]

theorem bread_hit (hb : s.bcache.lookup ROOTDEV no = some b) (hv : (s.buf b).valid = true)
    (hl : s.locked b = false) : bread ROOTDEV no s = .ok (b, s.hit b) := by
  have hget : bget ROOTDEV no s = .ok (b, s.hit b) := by
    simp only [bget, get_bind_apply, hb, modify_bind_apply]
    rw [bind_of_ok (a := ()) (t := s.hit b) (by simp [acquiresleep, modBuf, hl, hit])]
    rfl
  have hvalid : ((s.hit b).buf b).valid = true := by
    simp [hit, modBuf, buf, hv]
  unfold bread
  rw [bind_of_ok hget, get_bind_apply, when_neg (by simp [hvalid])]
  rfl

theorem bread_sleeps (hb : s.bcache.lookup ROOTDEV no = some b) (hl : s.locked b = true) :
    bread ROOTDEV no s = .error "acquiresleep: sleeping" := by
  have hget : bget ROOTDEV no s = .error "acquiresleep: sleeping" := by
    simp only [bget, get_bind_apply, hb, modify_bind_apply]
    rw [bind_of_error (e := "acquiresleep: sleeping") (by simp [acquiresleep, modBuf, hl])]
  unfold bread
  rw [bind_of_error hget]

theorem bread_fills (hb : s.bcache.lookup ROOTDEV no = none)
    (hu : s.bcache.unused (BCache.visits (HASH no)) = some (i, b)) (hl : s.locked b = false) :
    bread ROOTDEV no s = .ok (b, s.fill i b no) := by
  obtain ⟨t, ht⟩ : ∃ t : Bio, t = { s with
      bcache := (s.bcache.steal i (HASH no) b).assign b ROOTDEV no s.ticks
      locked := update s.locked b true } := ⟨_, rfl⟩
  have hget : bget ROOTDEV no s = .ok (b, t) := by
    simp only [bget, get_bind_apply, hb, hu, modify_bind_apply]
    rw [bind_of_ok (a := ()) (t := t) (by simp [acquiresleep, hl, ht])]
    rfl
  have hnew : t.buf b = ⟨false, ROOTDEV, no, 1, (s.buf b).data, s.ticks⟩ := by
    rw [ht]
    simp [buf, BCache.assign]
  unfold bread
  rw [bind_of_ok hget, get_bind_apply, when_pos (by rw [hnew]),
    bind_of_ok (a := ())]
  · rfl
  · subst ht
    simp [diskRead, fill, modBuf, BCache.assign, BCache.setBuf_setBuf]

theorem bread_full (hb : s.bcache.lookup ROOTDEV no = none)
    (hu : s.bcache.unused (BCache.visits (HASH no)) = none) :
    bread ROOTDEV no s = .error "bget: no buffers" := by
  have hget : bget ROOTDEV no s = .error "bget: no buffers" := by
    simp only [bget, get_bind_apply, hb, hu, panic_apply]
  unfold bread
  rw [bind_of_error hget]

theorem bread_cases (h : BCache.Exact cnt s.bcache s.locked) (no : Nat) :
    (∃ b, s.bcache.Caches b no ∧ s.locked b = true ∧
      bread ROOTDEV no s = .error "acquiresleep: sleeping") ∨
    (∃ b, s.bcache.Caches b no ∧ s.locked b = false ∧ bread ROOTDEV no s = .ok (b, s.hit b)) ∨
    (∃ i b, (∀ x, ¬ s.bcache.Caches x no) ∧ b ∈ s.bcache.bucket i ∧ (s.buf b).refcnt = 0 ∧
      bread ROOTDEV no s = .ok (b, s.fill i b no)) ∨
    ((∀ x, ¬ s.bcache.Caches x no) ∧ (∀ x, (s.buf x).refcnt ≠ 0) ∧
      bread ROOTDEV no s = .error "bget: no buffers") := by
  cases hb : s.bcache.lookup ROOTDEV no with
  | some b =>
    have hc : s.bcache.Caches b no := BCache.lookup_some hb
    cases hl : s.locked b with
    | true => exact .inl ⟨b, hc, hl, bread_sleeps hb hl⟩
    | false => exact .inr (.inl ⟨b, hc, hl, bread_hit hb (h.valid b hc.1) hl⟩)
  | none =>
    have hc : ∀ x, ¬ s.bcache.Caches x no := BCache.lookup_none h.sorted hb
    cases hu : s.bcache.unused (BCache.visits (HASH no)) with
    | some ib =>
      obtain ⟨i, b⟩ := ib
      obtain ⟨hmem, hz⟩ := BCache.lru_some (BCache.unused_some hu)
      exact .inr (.inr (.inl ⟨i, b, hc, hmem, hz, bread_fills hb hu (h.unused hz).1⟩))
    | none => exact .inr (.inr (.inr ⟨hc, BCache.all_used h.sorted hu, bread_full hb hu⟩))

end Bio
end Yyds.Fs
