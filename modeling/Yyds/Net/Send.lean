import Yyds.Net.Receive

/-! What `sockwrite` and the mbuf calls do with the bounds of a buffer. -/
namespace Yyds.Net

open Lib Kern
open Kernel (uint uint64)

/-- The data lies inside the buffer. -/
def InBuf (m : Mbuf) : Prop := m.base ≤ m.head ∧ m.head + m.len ≤ m.base + MBUF_SIZE

/-! ### Writing to a socket -/

/-- The write returns -1 with its buffer freed again, or it hands a buffer with its data inside to
the driver and returns `n`. -/
def WriteOk (si : Sock) (user : UserBuf) (n : Int) (w : World) : Prop :=
  ∃ r w', sockwrite si user n w = .ok (r, w') ∧
    ((r = -1 ∧ w' = w) ∨ (r = n ∧ ∃ m, w'.handed = w.handed ++ [m] ∧ InBuf m))

section Write

variable {si : Sock} {user : UserBuf} {n : Int} {w : World} {q : Nat}

/-- The size is no `int` from 0 to 2048. -/
theorem put_error (hn : n < 0 ∨ MBUF_SIZE < n) (hlow : -(2 ^ 31) ≤ n) (hhigh : n < 2 ^ 31) :
    mbufput (newMbuf q MBUF_DEFAULT_HEADROOM) (uint n) = .error "mbufput" := by
  have huint : MBUF_SIZE < uint n ∧ uint n < 2 ^ 32 := by
    unfold uint MBUF_SIZE at *
    omega
  have hlen : add32 0 (uint n) = uint n := (if_pos (by omega)).trans (Nat.zero_add _)
  unfold mbufput newMbuf
  rw [hlen, if_pos huint.1]

theorem sockwriteTo_none (hq : q + 4096 ≤ 2 ^ 64) (h0 : 0 ≤ n) (hn : n ≤ MBUF_SIZE)
    (hu : user (uint64 n) = none) :
    sockwriteTo (newMbuf q MBUF_DEFAULT_HEADROOM) si user n w =
      .ok (-1, { w with free := q :: w.free }) := by
  have huint : uint n ≤ MBUF_SIZE := by
    unfold uint MBUF_SIZE at *
    omega
  obtain ⟨p, m, hput, hpage, _⟩ := put_newMbuf hq huint
  rw [sockwriteTo, onMbuf_bind hput]
  rw [hu]
  simp only [mbuffree, modify_bind_apply, hpage, pure_apply]

theorem sockwriteTo_some (hq : q + 4096 ≤ 2 ^ 64) (h0 : 0 ≤ n) (hn : n ≤ MBUF_SIZE)
    {bs : List Byte} (hu : user (uint64 n) = some bs) (hbs : bs.length = uint64 n) :
    sockwriteTo (newMbuf q MBUF_DEFAULT_HEADROOM) si user n w =
      .ok (n, w.transmit ((filled q bs).datagram si.raddr si.lport si.rport)) := by
  have huint : uint n ≤ MBUF_SIZE ∧ bs.length = uint n := by
    unfold uint uint64 MBUF_SIZE at *
    omega
  obtain ⟨p, m, hput, _, hstore⟩ := put_newMbuf hq huint.1
  have hlen32 : (filled q bs).len + 42 < 2 ^ 32 := by
    have hle := huint.1
    unfold MBUF_SIZE at hle
    change bs.length + 42 < 2 ^ 32
    omega
  rw [sockwriteTo, onMbuf_bind hput]
  rw [hu]
  dsimp only
  rw [hstore bs huint.2, bind_of_ok (net_tx_udp_ok (by rw [filled_head]; omega) hlen32 _ _ _),
    pure_apply]

theorem sockwrite_cons {free : List Nat} (h : w.free = q :: free) :
    sockwrite si user n w =
      sockwriteTo (newMbuf q MBUF_DEFAULT_HEADROOM) si user n { w with free } := by
  rw [sockwrite, bind_of_ok (mbufalloc_some h)]

theorem inBuf_datagram (bs : List Byte) (dip : BitVec 32) (sport dport : BitVec 16) :
    InBuf ((filled q bs).datagram dip sport dport) ↔
      bs.length ≤ MBUF_SIZE - MBUF_DEFAULT_HEADROOM := by
  have hhead : ((filled q bs).datagram dip sport dport).head = q + 20 + 128 - 8 - 20 - 14 := rfl
  have hlen : ((filled q bs).datagram dip sport dport).len = bs.length + 8 + 20 + 14 := rfl
  have hbase : ((filled q bs).datagram dip sport dport).base = q + 20 := rfl
  rw [InBuf]
  unfold MBUF_SIZE MBUF_DEFAULT_HEADROOM
  omega

/-- For which sizes a write keeps to the buffer. -/
theorem writeOk_iff (hlow : -(2 ^ 31) ≤ n) (hhigh : n < 2 ^ 31)
    (huser : ∀ k bs, user k = some bs → bs.length = k) (hfree : ∀ q ∈ w.free, q + 4096 ≤ 2 ^ 64) :
    WriteOk si user n w ↔ w.free = [] ∨
      (0 ≤ n ∧ n ≤ (MBUF_SIZE - MBUF_DEFAULT_HEADROOM : Nat)) ∨
      (0 ≤ n ∧ n ≤ MBUF_SIZE ∧ user (uint64 n) = none) := by
  cases hw : w.free with
  | nil =>
    have hret : sockwrite si user n w = .ok (-1, w) := by
      rw [sockwrite, bind_of_ok (mbufalloc_none hw _)]
      rfl
    simp only [true_or, iff_true]
    exact ⟨-1, w, hret, .inl ⟨rfl, rfl⟩⟩
  | cons q free =>
    have hq : q + 4096 ≤ 2 ^ 64 := hfree q (by rw [hw]; simp)
    simp only [reduceCtorEq, false_or]
    unfold WriteOk
    rw [sockwrite_cons hw]
    by_cases hn : 0 ≤ n ∧ n ≤ MBUF_SIZE
    · cases hu : user (uint64 n) with
      | none =>
        rw [sockwriteTo_none hq hn.1 hn.2 hu]
        refine iff_of_true ⟨-1, _, rfl, .inl ⟨rfl, ?_⟩⟩ (.inr ⟨hn.1, hn.2, rfl⟩)
        rw [← hw]
      | some bs =>
        have hbs := huser _ _ hu
        have hlen : (bs.length : Int) = n := by
          unfold uint64 MBUF_SIZE at *
          omega
        have hin := inBuf_datagram (q := q) bs si.raddr si.lport si.rport
        rw [sockwriteTo_some hq hn.1 hn.2 hu hbs]
        constructor
        · rintro ⟨r, w', hret, hcase⟩
          rw [Except.ok.injEq, Prod.mk.injEq] at hret
          obtain ⟨hr, hw'⟩ := hret
          rcases hcase with ⟨hneg, _⟩ | ⟨_, m, hhanded, hm⟩
          · omega
          · rw [← hw'] at hhanded
            have hmeq := List.append_cancel_left hhanded
            rw [List.cons.injEq] at hmeq
            rw [← hmeq.1, hin] at hm
            exact .inl ⟨hn.1, by omega⟩
        · rintro (⟨_, hle⟩ | ⟨_, _, hnone⟩)
          · exact ⟨n, _, rfl, .inr ⟨rfl, _, rfl, hin.mpr (by omega)⟩⟩
          · exact absurd hnone (by simp)
    · have herr : sockwriteTo (newMbuf q MBUF_DEFAULT_HEADROOM) si user n { w with free } =
          .error "mbufput" := by
        rw [sockwriteTo, put_error (by omega) hlow hhigh]
        rfl
      rw [herr]
      refine iff_of_false ?_ ?_
      · rintro ⟨r, w', hret, _⟩
        exact absurd hret (by simp)
      · omega

end Write

/-! ### Sequences of buffer calls -/

inductive MbufOp
  | put (len : BitVec 32)
  | push (len : BitVec 32)
  | pull (len : BitVec 32)
  | trim (len : BitVec 32)

def MbufOp.apply (m : Mbuf) : MbufOp → Except String Mbuf
  | .put len => (mbufput m len.toNat).map (·.2)
  | .push len => (mbufpush m len.toNat).map (·.2)
  | .pull len => .ok (mbufpull m len.toNat).2
  | .trim len => .ok (mbuftrim m len.toNat).2

def MbufStep (m : Mbuf) (op : MbufOp) (m' : Mbuf) : Prop := op.apply m = .ok m'

/-- `mbufput` is called only if there is room after the data, and `mbufpush` only with a length that
does not take the pointer below address 0. -/
def Fits (m : Mbuf) : MbufOp → Prop
  | .put len => m.head - m.base + add32 m.len len.toNat ≤ MBUF_SIZE
  | .push len => len.toNat ≤ m.head
  | .pull _ => True
  | .trim _ => True

instance (m : Mbuf) : DecidablePred (Fits m) := fun a => by
  cases a <;> dsimp only [Fits] <;> infer_instance

section Sequences

variable {m m' : Mbuf} {op : MbufOp}

theorem map_snd_ok {x : Except String (Nat × Mbuf)} (h : x.map (·.2) = .ok m) :
    ∃ p, x = .ok (p, m) := by
  cases x with
  | error e => exact absurd h (by simp [Except.map])
  | ok r =>
    cases h
    exact ⟨r.1, rfl⟩

theorem InBuf.step (h : InBuf m) (hbase : m.base + MBUF_SIZE < 2 ^ 64)
    (hstep : Guarded Fits MbufStep m op m') : InBuf m' ∧ m'.base = m.base := by
  obtain ⟨hfits, hstep⟩ := hstep
  obtain ⟨hlow, hhigh⟩ := h
  cases op with
  | put len =>
    obtain ⟨p, hput⟩ := map_snd_ok hstep
    have hfits : m.head - m.base + add32 m.len len.toNat ≤ MBUF_SIZE := hfits
    unfold mbufput at hput
    dsimp only at hput
    split at hput
    · exact absurd hput (by simp)
    · obtain ⟨_, rfl⟩ := hput
      refine ⟨⟨hlow, ?_⟩, rfl⟩
      change m.head + add32 m.len len.toNat ≤ m.base + MBUF_SIZE
      omega
  | push len =>
    obtain ⟨p, hpush⟩ := map_snd_ok hstep
    have hhead : sub64 m.head len.toNat = m.head - len.toNat := if_pos hfits
    unfold mbufpush at hpush
    dsimp only at hpush
    rw [hhead] at hpush
    split at hpush
    · exact absurd hpush (by simp)
    rename_i hroom
    obtain ⟨_, rfl⟩ := hpush
    have hfits : len.toNat ≤ m.head := hfits
    have hadd : add32 m.len len.toNat = m.len + len.toNat := by
      unfold MBUF_SIZE at *
      exact if_pos (by omega)
    refine ⟨⟨not_lt.mp hroom, ?_⟩, rfl⟩
    change m.head - len.toNat + add32 m.len len.toNat ≤ m.base + MBUF_SIZE
    omega
  | pull len =>
    cases hstep
    unfold mbufpull
    split
    · exact ⟨⟨hlow, hhigh⟩, rfl⟩
    have hhead : add64 m.head len.toNat = m.head + len.toNat := if_pos (by omega)
    refine ⟨⟨?_, ?_⟩, rfl⟩
    · change m.base ≤ add64 m.head len.toNat
      omega
    · change add64 m.head len.toNat + (m.len - len.toNat) ≤ m.base + MBUF_SIZE
      omega
  | trim len =>
    cases hstep
    unfold mbuftrim
    split
    · exact ⟨⟨hlow, hhigh⟩, rfl⟩
    · refine ⟨⟨hlow, ?_⟩, rfl⟩
      change m.head + (m.len - len.toNat) ≤ m.base + MBUF_SIZE
      omega

theorem InBuf.run {ops : List MbufOp} (h : InBuf m) (hbase : m.base + MBUF_SIZE < 2 ^ 64)
    (hrun : Run (Guarded Fits MbufStep) m ops m') : InBuf m' := by
  have hstep : ∀ x op y, Guarded Fits MbufStep x op y → InBuf x ∧ x.base = m.base →
      InBuf y ∧ y.base = m.base := by
    intro x op y hst hx
    obtain ⟨hy, hyb⟩ := hx.1.step (by rw [hx.2]; exact hbase) hst
    exact ⟨hy, hyb.trans hx.2⟩
  exact (hrun.invariant hstep ⟨h, rfl⟩).1

theorem newMbuf_inBuf {page headroom : Nat} (h : headroom ≤ MBUF_SIZE) :
    InBuf (newMbuf page headroom) := by
  unfold InBuf newMbuf Mbuf.base
  dsimp only
  omega

end Sequences

theorem mbufalloc_eq_some {headroom : Nat} {w w' : World} {m : Mbuf}
    (h : mbufalloc headroom w = .ok (some m, w')) :
    headroom ≤ MBUF_SIZE ∧ ∃ q ∈ w.free, m = newMbuf q headroom := by
  unfold mbufalloc at h
  split at h
  · cases h
  rename_i hle
  refine ⟨not_lt.mp hle, ?_⟩
  cases hw : w.free with
  | nil => simp [kalloc, bind_apply, hw] at h
  | cons q free =>
    simp only [kalloc, bind_apply, hw, get_apply, modify_apply, pure_apply,
      Except.ok.injEq, Prod.mk.injEq, Option.some.injEq] at h
    exact ⟨q, by simp, h.1.symm⟩

/-- A write keeps to the buffer exactly if no page is free, the size fits behind the headroom, or it
fits in the buffer and the user memory cannot be read. A sequence of buffer calls that does not
panic keeps to the buffer if `mbufput` and `mbufpush` are called as `Fits` says. -/
theorem sending_in_bounds {si : Sock} {user : UserBuf} {n : Int} {w : World} (hlow : -(2 ^ 31) ≤ n)
    (hhigh : n < 2 ^ 31) (huser : ∀ k bs, user k = some bs → bs.length = k)
    (hfree : ∀ q ∈ w.free, q + 4096 ≤ 2 ^ 64) :
    (WriteOk si user n w ↔ w.free = [] ∨
      (0 ≤ n ∧ n ≤ (MBUF_SIZE - MBUF_DEFAULT_HEADROOM : Nat)) ∨
      (0 ≤ n ∧ n ≤ MBUF_SIZE ∧ user (uint64 n) = none)) ∧
    ∀ headroom w' m ops m', mbufalloc headroom w = .ok (some m, w') →
      Run (Guarded Fits MbufStep) m ops m' → InBuf m' := by
  refine ⟨writeOk_iff hlow hhigh huser hfree, fun headroom w' m ops m' halloc hrun => ?_⟩
  obtain ⟨hroom, q, hq, rfl⟩ := mbufalloc_eq_some halloc
  have hpage := hfree q hq
  refine (newMbuf_inBuf hroom).run ?_ hrun
  change q + 20 + 2048 < 2 ^ 64
  omega

/-- A world with one free page. -/
def onePage : World := ⟨[0x80001000], [], [], false⟩

/-- A socket to write to. -/
def anySock : Sock := ⟨0x80003000, local_ip, 7, 9, [], 0, false⟩

/-- Zeros in the user memory. -/
def zeros : UserBuf := fun k => some (List.replicate k 0)

theorem sending_in_bounds_small : WriteOk anySock zeros 3 onePage ∧
    InBuf ({ newMbuf 0x80001000 128 with len := 5 } : Mbuf) := by
  have h := @sending_in_bounds anySock zeros 3 onePage (by decide) (by decide) (by simp [zeros])
    (by decide)
  refine ⟨h.1.mpr (.inr (.inl (by decide))), ?_⟩
  exact h.2 128 ⟨[], [], [], false⟩ (newMbuf 0x80001000 128) [.put 5] _ rfl
    (.cons ⟨by decide, rfl⟩ (.nil _))

/-- A write of -1 bytes panics, and one of 2000 bytes hands the driver a buffer that ends behind its
page's buffer; `mbufpush` of a large length wraps the pointer around, and `mbufput` does not look at
the headroom. -/
theorem sending_out_of_bounds :
    sockwrite anySock zeros (-1) onePage = .error "mbufput" ∧
    (∃ w' m, sockwrite anySock zeros 2000 onePage = .ok (2000, w') ∧ w'.handed = [m] ∧ ¬ InBuf m) ∧
    (∃ m, MbufStep (newMbuf 0x80001000 128) (.push 0xf0000000) m ∧ ¬ InBuf m) ∧
    ∃ m, MbufStep (newMbuf 0x80001000 2048) (.put 100) m ∧ ¬ InBuf m := by
  refine ⟨?_, ?_, ⟨_, rfl, ?_⟩, ⟨_, rfl, ?_⟩⟩
  · rw [sockwrite_cons rfl, sockwriteTo, put_error (by decide) (by decide) (by decide)]
    rfl
  · refine ⟨_, _, (sockwrite_cons rfl).trans
      (sockwriteTo_some (by decide) (by decide) (by decide) rfl (by simp)), rfl, ?_⟩
    rw [inBuf_datagram, List.length_replicate]
    decide
  · unfold InBuf
    decide
  · unfold InBuf
    decide

end Yyds.Net
