import Yyds.Ipc.MsgQueue

/-! Sending and receiving as a queue per type. The headers of 16 bytes that the code reckons with
are shorter than `struct msg`, so a message shares its `dataaddr` and `datasize` with its own data and
with the next message. -/
namespace Yyds.Ipc

open Lib Kern Bytes

/-- The list in the page is the queue, in its order. -/
structure Mq.Repr (p : Mq) (q : List Msg) : Prop where
  list : ∃ as, Chain (fun a => p.mem.load a 8) 0 (p.mem.load p.msgs 8) as ∧
    List.Forall₂ p.Holds as q
  curbytes : p.curbytes = used q

/-- The code and the queue it stands for take the same calls. -/
def Steps (x : Mq × List Msg) (a : Act) (y : Mq × List Msg) : Prop :=
  ∃ r, a.exec x.1 = .ok (r, y.1) ∧ y.2 = (a.fifo x.2).2

def step (x : Mq × List Msg) (a : Act) : Option (Mq × List Msg) :=
  (a.exec x.1).toOption.map fun r => (r.2, (a.fifo x.2).2)

theorem steps_of_step {x y : Mq × List Msg} {a : Act} (h : step x a = some y) : Steps x a y := by
  unfold step at h
  cases hexec : a.exec x.1 with
  | error e =>
    rw [hexec] at h
    exact absurd h nofun
  | ok r =>
    rw [hexec] at h
    obtain rfl := Option.some.inj h
    exact ⟨r.1, hexec, rfl⟩

/-- Every message is of type 0 and empty and leaves 16 bytes of the page free, and what is received
is received with the size that was sent. -/
def Plain (x : Mq × List Msg) : Act → Prop
  | .snd t data => t = 0 ∧ data = [] ∧ x.1.curbytes + 16 ≠ x.1.maxbytes
  | .rcv t sz => ∀ m ∈ x.2.find? fun m => m.type = t, sz = m.data.length

instance (x : Mq × List Msg) : DecidablePred (Plain x) := fun a => by
  cases a <;> dsimp only [Plain] <;> infer_instance

/-! ### The page when all messages are empty -/

section

variable {mem : Bytes} {base n k j v : Nat}

/-- Headers follow one another every 16 bytes, and everything but the links is zero. -/
def Zeros (mem : Bytes) (base : Nat) : Prop :=
  ∀ j, 16 ≤ j → j < PGSIZE → 8 ≤ j % 16 → mem (base + j) = 0

namespace Zeros

section
variable (h : Zeros mem base)
include h

theorem type (hk : 1 ≤ k) (hin : 16 * k + 16 ≤ PGSIZE) : mem.load (base + 16 * k + 8) 8 = 0 := by
  refine load_eq_zero fun j hj hlt => ?_
  have hz := h (j - base) (by omega) (by omega) (by omega)
  rwa [Nat.add_sub_cancel' (by omega)] at hz

theorem size (hin : 16 * k + 32 ≤ PGSIZE) : mem.load (base + 16 * k + 24) 4 = 0 := by
  refine load_eq_zero fun j hj hlt => ?_
  have hz := h (j - base) (by omega) (by omega) (by omega)
  rwa [Nat.add_sub_cancel' (by omega)] at hz

theorem link (k v : Nat) : Zeros (mem.store (base + 16 * k) 8 v) base := by
  intro j hj hlt hmod
  rw [store_apply_of_disjoint (by omega)]
  exact h j hj hlt hmod

theorem zero (a n : Nat) : Zeros (mem.store a n 0) base :=
  fun j hj hlt hmod => store_zero_apply (h j hj hlt hmod)

theorem shift (hin : 16 * k + 32 ≤ PGSIZE) :
    Zeros (mem.move (base + 16 * k) (base + 16 * (k + 1)) 16) base := by
  intro j hj hlt hmod
  unfold move
  split
  · have hz := h (j + 16) (by omega) (by omega) (by omega)
    rwa [show base + 16 * (k + 1) + (base + j - (base + 16 * k)) = base + (j + 16) by omega]
  · exact h j hj hlt hmod

end

end Zeros

theorem load_link_self (hv : v < 2 ^ 64) :
    (mem.store (base + 16 * k) 8 v).load (base + 16 * k) 8 = v := by
  rw [load_store]
  exact Nat.mod_eq_of_lt hv

theorem load_link_ne (hne : j ≠ k) :
    (mem.store (base + 16 * k) 8 v).load (base + 16 * j) 8 = mem.load (base + 16 * j) 8 :=
  load_store_of_disjoint (by omega)

/-- The other half of a header is not a link. -/
theorem load_link_zero {i : Nat} (hi : i ≤ 8) :
    (mem.store (base + 16 * k + 8) i v).load (base + 16 * j) 8 = mem.load (base + 16 * j) 8 :=
  load_store_of_disjoint (by omega)

/-- `n` empty messages of type 0 in a row. -/
structure Layout (mem : Bytes) (base n : Nat) : Prop where
  links : ∀ k < n, mem.load (base + 16 * k) 8 = base + 16 * (k + 1)
  stop : mem.load (base + 16 * n) 8 = 0
  zeros : Zeros mem base

/-- The page when `sys_msgsnd` has put one message more into it. -/
def appended (mem : Bytes) (base n : Nat) : Bytes :=
  ((((mem.store (base + 16 * n) 8 (base + 16 * (n + 1))).store
    (base + 16 * (n + 1) + 8) 8 0).store (base + 16 * (n + 1)) 8 0).store
    (base + 16 * (n + 1) + 16) 8 (base + 16 * (n + 1) + 16)).store (base + 16 * (n + 1) + 24) 4 0

theorem Layout.append (h : Layout mem base n) (hin : base + PGSIZE ≤ 2 ^ 64)
    (hn : 16 * n + 48 ≤ PGSIZE) : Layout (appended mem base n) base (n + 1) := by
  have haddr : base + 16 * (n + 1) + 16 = base + 16 * (n + 2) := by omega
  have hsize : base + 16 * (n + 1) + 24 = base + 16 * (n + 2) + 8 := by omega
  rw [appended, haddr, hsize]
  refine ⟨fun k hk => ?_, ?_, ?_⟩
  · rw [load_link_zero (by omega), load_link_ne (by omega), load_link_ne (by omega),
      load_link_zero (by omega)]
    by_cases hkn : k = n
    · subst hkn
      exact load_link_self (by omega)
    · rw [load_link_ne hkn]
      exact h.links k (by omega)
  · rw [load_link_zero (by omega), load_link_ne (by omega)]
    exact load_link_self (by omega)
  · exact ((((h.zeros.link n _).zero _ _).link (n + 1) _).link (n + 2) _).zero _ _

end

/-! ### The calls when all messages are empty -/

variable {p : Mq} {a n k : Nat}

theorem inPage_ok (h : p.msgs ≤ a ∧ a + n ≤ p.msgs + PGSIZE) : inPage a n p = .ok ((), p) := by
  rw [inPage, get_bind_apply, if_pos (.inr h)]
  rfl

theorem inPage_zero (a : Nat) (p : Mq) : inPage a 0 p = .ok ((), p) := by
  rfl

theorem load_ok (h : p.msgs ≤ a ∧ a + n ≤ p.msgs + PGSIZE) :
    load a n p = .ok (p.mem.load a n, p) := by
  rw [load, bind_of_ok (inPage_ok h)]
  rfl

theorem store_ok (v : Nat) (h : p.msgs ≤ a ∧ a + n ≤ p.msgs + PGSIZE) :
    store a n v p = .ok ((), { p with mem := p.mem.store a n v }) := by
  rw [store, bind_of_ok (inPage_ok h)]
  rfl

theorem memmove_ok {b : Nat} (h : p.msgs ≤ a ∧ a + n ≤ p.msgs + PGSIZE)
    (h' : p.msgs ≤ b ∧ b + n ≤ p.msgs + PGSIZE) :
    memmove a b n p = .ok ((), { p with mem := p.mem.move a b n }) := by
  rw [memmove, bind_of_ok (inPage_ok h'), bind_of_ok (inPage_ok h)]
  rfl

theorem copyIn_nil (a : Nat) (p : Mq) : copyIn a [] p = .ok ((), p) := by
  have hput : p.mem.put a [] = p.mem := by
    funext j
    simp [Bytes.put]
  rw [copyIn, List.length_nil, bind_of_ok (inPage_zero a p), modify_apply, hput]

theorem copyOut_zero (a : Nat) (p : Mq) : copyOut a 0 p = .ok ([], p) := by
  rfl

theorem datasize_ok (hz : Zeros p.mem p.msgs) (hk : 16 * k + 32 ≤ PGSIZE) :
    datasize (p.msgs + 16 * k) p = .ok (0, p) := by
  rw [datasize, bind_of_ok (load_ok (by omega)), hz.size hk]
  rfl

/-- The page holds `n` empty messages of type 0. -/
structure Mq.Empties (p : Mq) (n : Nat) : Prop where
  layout : Layout p.mem p.msgs n
  room : 16 * n + 32 ≤ PGSIZE
  bot : 0 < p.msgs
  top : p.msgs + PGSIZE ≤ 2 ^ 64
  maxbytes : p.maxbytes = PGSIZE
  curbytes : p.curbytes = 16 + 16 * n

theorem ptr_eq {x : Int} (h : 0 ≤ x) (hlt : x < 2 ^ 64) : ptr x = x.toNat := by
  rw [ptr, Int.emod_eq_of_lt h hlt]

namespace Mq.Empties

theorem lastMsg_eq (h : p.Empties n) {fuel : Nat} (hk : k ≤ n) (hfuel : n - k < fuel) :
    lastMsg fuel (p.msgs + 16 * k) p = .ok (p.msgs + 16 * n, p) := by
  have hroom := h.room
  induction fuel generalizing k with
  | zero => omega
  | succ fuel ih =>
    rw [lastMsg, next, bind_of_ok (load_ok (by omega))]
    by_cases hkn : k = n
    · subst hkn
      rw [h.layout.stop]
      rfl
    · rw [h.layout.links k (by omega)]
      exact ih (by omega) (by omega)

theorem msgsnd_eq (h : p.Empties n) (hne : p.curbytes + 16 ≠ p.maxbytes) :
    ∃ p', sys_msgsnd 0 [] p = .ok (true, p') ∧ p'.Empties (n + 1) := by
  have hroom := h.room
  have hcur := h.curbytes
  have hmax := h.maxbytes
  have htop := h.top
  have hpg : PGSIZE = 4096 := rfl
  have hn : 16 * n + 48 ≤ PGSIZE := by omega
  have hfits : Kernel.int (p.curbytes + (([] : List Byte).length : Int) + 16) ≤ p.maxbytes := by
    rw [Kernel.int, Int.bmod_eq_of_le] <;> simp <;> omega
  have hlast := h.lastMsg_eq (Nat.zero_le n) (by unfold FUEL; omega : n - 0 < FUEL)
  rw [Nat.add_zero] at hlast
  have hnext : ptr ((p.msgs + 16 * n : Nat) + 0 + 16) = p.msgs + 16 * (n + 1) := by
    rw [ptr_eq] <;> omega
  have hdata : ptr ((p.msgs + 16 * (n + 1) : Nat) + 16) = p.msgs + 16 * (n + 1) + 16 := by
    rw [ptr_eq] <;> omega
  have hlink : (p.mem.store (p.msgs + 16 * n) 8 (p.msgs + 16 * (n + 1))).load (p.msgs + 16 * n) 8 =
      p.msgs + 16 * (n + 1) := load_link_self (by omega)
  have hzero : ((0 : BitVec 32).signExtend 64).toNat = 0 := rfl
  refine ⟨{ p with mem := appended p.mem p.msgs n, curbytes := p.curbytes + (0 + 16) }, ?_,
    ⟨h.layout.append htop hn, ?_, h.bot, h.top, h.maxbytes, ?_⟩⟩
  · rw [sys_msgsnd, get_bind_apply]
    rw [if_pos hfits, bind_of_ok hlast,
      bind_of_ok (datasize_ok h.layout.zeros (by omega)), hnext, bind_of_ok (store_ok _ (by omega)), next,
      bind_of_ok (load_ok (by dsimp only; omega))]
    rw [hlink, hzero, bind_of_ok (store_ok _ (by dsimp only; omega)),
      bind_of_ok (store_ok _ (by dsimp only; omega)), hdata,
      bind_of_ok (store_ok _ (by dsimp only; omega)),
      bind_of_ok (store_ok _ (by dsimp only; omega)), dataaddr,
      bind_of_ok (load_ok (by dsimp only; omega))]
    exact (bind_of_ok (copyIn_nil _ { p with mem := appended p.mem p.msgs n })).trans rfl
  · omega
  · dsimp only
    omega

theorem type_ok (h : p.Empties n) (hk : 1 ≤ k) (hkn : k ≤ n) :
    type (p.msgs + 16 * k) p = .ok (0, p) := by
  have hroom := h.room
  rw [type, bind_of_ok (load_ok (by omega)), h.layout.zeros.type hk (by omega)]
  rfl

theorem findMsg_none (h : p.Empties n) {t : BitVec 32} (ht : t ≠ 0) {fuel pre : Nat} (hk : 1 ≤ k)
    (hkn : k ≤ n) (hfuel : n - k + 1 < fuel) :
    findMsg t fuel pre (p.msgs + 16 * k) p = .ok (none, p) := by
  have hroom := h.room
  have hne : (0 : BitVec 64) ≠ t.signExtend 64 := by
    intro heq
    refine ht (BitVec.eq_of_toInt_eq ?_)
    rw [← BitVec.toInt_signExtend_of_le (v := 64) (by decide), ← heq]
    rfl
  induction fuel generalizing k pre with
  | zero => omega
  | succ fuel ih =>
    rw [findMsg, if_neg (by omega), bind_of_ok (h.type_ok hk hkn), if_neg hne, next,
      bind_of_ok (load_ok (by omega))]
    by_cases hlast : k = n
    · subst hlast
      obtain ⟨fuel, rfl⟩ : ∃ m, fuel = m + 1 := ⟨fuel - 1, by omega⟩
      rw [h.layout.stop]
      rfl
    · rw [h.layout.links k (by omega)]
      exact ih (by omega) (by omega) (by omega)

end Mq.Empties

/-- The page when `reloc` has moved the messages up to the header `j`; the last one is at `n`. -/
structure Moving (p : Mq) (j n : Nat) : Prop where
  before : ∀ k < j, p.mem.load (p.msgs + 16 * k) 8 = p.msgs + 16 * (k + 1)
  after : ∀ k, j < k → k < n → p.mem.load (p.msgs + 16 * k) 8 = p.msgs + 16 * (k + 1)
  stop : j < n → p.mem.load (p.msgs + 16 * n) 8 = 0
  zeros : Zeros p.mem p.msgs
  room : 16 * n + 32 ≤ PGSIZE
  top : p.msgs + PGSIZE ≤ 2 ^ 64

/-- The page after one round of the loop of `reloc`. -/
def moved (mem : Bytes) (base j : Nat) : Bytes :=
  ((mem.move (base + 16 * j) (base + 16 * (j + 1)) 16).store (base + 16 * j) 8
    (base + 16 * (j + 1))).store (base + 16 * j + 16) 8 (base + 16 * j + 16)

namespace Moving

variable {j : Nat}

theorem round (h : Moving p j n) (hjn : j < n) :
    Moving { p with mem := moved p.mem p.msgs j } (j + 1) n := by
  have hroom := h.room
  have htop := h.top
  have haddr : p.msgs + 16 * j + 16 = p.msgs + 16 * (j + 1) := by omega
  have hother : ∀ k, k ≠ j → k ≠ j + 1 →
      (moved p.mem p.msgs j).load (p.msgs + 16 * k) 8 = p.mem.load (p.msgs + 16 * k) 8 := by
    intro k hk hk'
    rw [moved, haddr, load_link_ne hk', load_link_ne hk, load_move_of_disjoint (by omega)]
  refine ⟨fun k hk => ?_, fun k hk hkn => ?_, fun hlt => ?_, ?_, h.room, h.top⟩
  · by_cases hkj : k = j
    · subst hkj
      rw [moved, haddr, load_link_ne (by omega)]
      exact load_link_self (by omega)
    · rw [hother k hkj (by omega)]
      exact h.before k (by omega)
  · rw [hother k (by omega) (by omega)]
    exact h.after k (by omega) hkn
  · rw [hother n (by omega) (by omega)]
    exact h.stop hjn
  · exact ((h.zeros.shift (by omega)).link j _).link (j + 1) _

theorem next_eq (h : Moving p j n) (hjn : j < n) :
    p.mem.load (p.msgs + 16 * (j + 1)) 8 = if j + 1 < n then p.msgs + 16 * (j + 1 + 1) else 0 := by
  split
  · exact h.after (j + 1) (by omega) (by omega)
  · obtain rfl : j + 1 = n := by omega
    exact h.stop hjn

theorem relocLoop_round {fuel pre : Nat} (h : Moving p j n) (hlt : j < n) :
    relocLoop (fuel + 1) (p.msgs + 16 * j) pre (p.msgs + 16 * (j + 1)) p =
      relocLoop fuel (p.msgs + 16 * (j + 1)) (p.msgs + 16 * j)
        (if j + 1 < n then p.msgs + 16 * (j + 1 + 1) else 0)
        { p with mem := moved p.mem p.msgs j } := by
  have hroom := h.room
  have htop := h.top
  have hsize := datasize_ok h.zeros (k := j + 1) (by omega)
  have hsize' : datasize (p.msgs + 16 * j)
      { p with mem := p.mem.move (p.msgs + 16 * j) (p.msgs + 16 * (j + 1)) 16 } = .ok (0, _) :=
    datasize_ok (h.zeros.shift (by omega)) (by omega)
  have hnext : ptr ((p.msgs + 16 * j : Nat) + 0 + 16) = p.msgs + 16 * (j + 1) := by
    rw [ptr_eq] <;> omega
  have hdata : ptr ((p.msgs + 16 * j : Nat) + 16) = p.msgs + 16 * j + 16 := by
    rw [ptr_eq] <;> omega
  have huint : uint (0 + 16) = 16 := rfl
  have hback : next (p.msgs + 16 * j) { p with mem := moved p.mem p.msgs j } =
      .ok (p.msgs + 16 * (j + 1), { p with mem := moved p.mem p.msgs j }) := by
    rw [next, load_ok (by dsimp only; omega)]
    rw [(h.round hlt).before j (by omega)]
  rw [relocLoop, if_neg (by omega), next, bind_of_ok (load_ok (by omega)),
    h.next_eq hlt, bind_of_ok hsize, huint,
    bind_of_ok (memmove_ok (by omega) (by omega)),
    bind_of_ok hsize', hnext,
    bind_of_ok (store_ok _ (by dsimp only; omega)), hdata,
    bind_of_ok (store_ok _ (by dsimp only; omega))]
  exact bind_of_ok hback

theorem relocLoop_eq {fuel : Nat} (h : Moving p j n) (hj : 1 ≤ j) (hjn : j ≤ n)
    (hfuel : n - j < fuel) :
    ∃ mem, relocLoop fuel (p.msgs + 16 * j) (p.msgs + 16 * (j - 1))
        (if j < n then p.msgs + 16 * (j + 1) else 0) p =
      .ok (p.msgs + 16 * (n - 1), { p with mem }) ∧ Moving { p with mem } n n := by
  induction fuel generalizing j p with
  | zero => omega
  | succ fuel ih =>
    by_cases hlt : j < n
    · obtain ⟨mem, hloop, hm⟩ := ih (h.round hlt) (by omega) hlt (by omega)
      refine ⟨mem, ?_, hm⟩
      rw [if_pos hlt, h.relocLoop_round hlt]
      exact hloop
    · obtain rfl : j = n := by omega
      rw [if_neg hlt]
      exact ⟨p.mem, rfl, h⟩

end Moving

namespace Mq.Empties

/-- The page when `reloc` has gone past the head of the list. -/
def headed (mem : Bytes) (base : Nat) : Bytes :=
  ((mem.store base 8 (mem.load (base + 16) 8)).store base 8 (base + 16)).store (base + 16) 8
    (base + 16)

section
variable (h : p.Empties (n + 1))
include h

theorem moving (c : Int) :
    Moving { p with mem := headed p.mem p.msgs, curbytes := c } 1 (n + 1) := by
  have hroom := h.room
  have htop := h.top
  have hhead : headed p.mem p.msgs = ((p.mem.store (p.msgs + 16 * 0) 8
      (p.mem.load (p.msgs + 16) 8)).store (p.msgs + 16 * 0) 8 (p.msgs + 16)).store
      (p.msgs + 16 * 1) 8 (p.msgs + 16) := rfl
  refine ⟨fun k hk => ?_, fun k hk hkn => ?_, fun hlt => ?_, ?_, h.room, h.top⟩
  · obtain rfl : k = 0 := by omega
    rw [hhead, load_link_ne (by omega)]
    exact load_link_self (by omega)
  · rw [hhead, load_link_ne (by omega), load_link_ne (by omega), load_link_ne (by omega)]
    exact h.layout.links k hkn
  · rw [hhead, load_link_ne (by omega), load_link_ne (by omega), load_link_ne (by omega)]
    exact h.layout.stop
  · exact ((h.layout.zeros.link 0 _).link 0 _).link 1 _

theorem next_first :
    p.mem.load (p.msgs + 16) 8 = if 1 < n + 1 then p.msgs + 16 * (1 + 1) else 0 := by
  split
  · exact h.layout.links 1 ‹_›
  · obtain rfl : n = 0 := by omega
    exact h.layout.stop

/-- The first round of `reloc` is about the head of the list, which stays where it is. -/
theorem relocLoop_head (c : Int) {fuel : Nat} :
    relocLoop (fuel + 1) p.msgs p.msgs p.msgs
        { p with mem := p.mem.store p.msgs 8 (p.mem.load (p.msgs + 16) 8), curbytes := c } =
      relocLoop fuel (p.msgs + 16 * 1) (p.msgs + 16 * (1 - 1))
        (if 1 < n + 1 then p.msgs + 16 * (1 + 1) else 0)
        { p with mem := headed p.mem p.msgs, curbytes := c } := by
  have hroom := h.room
  have htop := h.top
  have hbot := h.bot
  have hsize : datasize p.msgs { p with
      mem := p.mem.store p.msgs 8 (p.mem.load (p.msgs + 16) 8), curbytes := c } = .ok (0, _) :=
    datasize_ok (h.layout.zeros.link 0 _) (k := 0) (by omega)
  have hfirst : (p.mem.store p.msgs 8 (p.mem.load (p.msgs + 16) 8)).load p.msgs 8 =
      if 1 < n + 1 then p.msgs + 16 * (1 + 1) else 0 := by
    rw [load_store, h.next_first]
    refine Nat.mod_eq_of_lt ?_
    split <;> omega
  have hnext : ptr ((p.msgs : Nat) + 0 + 16) = p.msgs + 16 := by
    rw [ptr_eq] <;> omega
  have hdata : ptr ((p.msgs : Nat) + 16) = p.msgs + 16 := by
    rw [ptr_eq] <;> omega
  have huint : uint (0 + 16) = 16 := rfl
  have hback : next p.msgs { p with mem := headed p.mem p.msgs, curbytes := c } =
      .ok (p.msgs + 16, { p with mem := headed p.mem p.msgs, curbytes := c }) := by
    rw [next, load_ok (by dsimp only; omega)]
    have hlink : (headed p.mem p.msgs).load p.msgs 8 = p.msgs + 16 :=
      (h.moving c).before 0 (by omega)
    rw [hlink]
  rw [relocLoop, if_neg (by omega), next, bind_of_ok (load_ok (by dsimp only; omega))]
  rw [hfirst, bind_of_ok hsize, huint,
    bind_of_ok (memmove_ok (by dsimp only; omega) (by dsimp only; omega))]
  rw [move_self, bind_of_ok hsize, hnext, bind_of_ok (store_ok _ (by dsimp only; omega)), hdata,
    bind_of_ok (store_ok _ (by dsimp only; omega))]
  exact bind_of_ok hback

theorem reloc_eq (c : Int) :
    ∃ mem, reloc { p with
        mem := p.mem.store p.msgs 8 (p.mem.load (p.msgs + 16) 8), curbytes := c } =
      .ok ((), { p with mem, curbytes := c }) ∧ Layout mem p.msgs n := by
  have hroom := h.room
  obtain ⟨mem, hloop, hm⟩ := (h.moving c).relocLoop_eq (le_refl 1) (by omega)
    (by omega : n + 1 - 1 < PGSIZE)
  refine ⟨mem.store (p.msgs + 16 * n) 8 0, ?_, fun k hk => ?_, ?_, ?_⟩
  · have hhead := (h.relocLoop_head c).trans hloop
    exact (bind_of_ok hhead).trans (store_ok _ (by dsimp only; omega))
  · rw [load_link_ne (by omega)]
    exact hm.before k (by omega)
  · exact load_link_self (by omega)
  · exact hm.zeros.link n 0

theorem msgrcv_eq : ∃ p', sys_msgrcv 0 0 p = .ok (some [], p') ∧ p'.Empties n := by
  have hroom := h.room
  have hcur := h.curbytes
  obtain ⟨mem, hreloc, hlay⟩ := h.reloc_eq (p.curbytes - (0 + 16))
  refine ⟨{ p with mem, curbytes := p.curbytes - (0 + 16) }, ?_,
    hlay, by omega, h.bot, h.top, h.maxbytes, by dsimp only; omega⟩
  have hfirst : p.mem.load p.msgs 8 = p.msgs + 16 * 1 := h.layout.links 0 (by omega)
  have hzero : (0 : BitVec 64) = (0 : BitVec 32).signExtend 64 := rfl
  have hfind : findMsg 0 FUEL p.msgs (p.msgs + 16 * 1) p =
      .ok (some (p.msgs, p.msgs + 16 * 1), p) := by
    rw [FUEL, findMsg, if_neg (by omega), bind_of_ok (h.type_ok (by omega) (by omega)),
      if_pos hzero]
    rfl
  have hsize : datasize (p.msgs + 16 * 1) { p with
      mem := p.mem.store p.msgs 8 (p.mem.load (p.msgs + 16) 8) } = .ok (0, _) :=
    datasize_ok (h.layout.zeros.link 0 _) (k := 1) (by omega)
  rw [sys_msgrcv, get_bind_apply, next, bind_of_ok (load_ok (by omega)), hfirst, bind_of_ok hfind]
  dsimp only
  rw [dataaddr, bind_of_ok (load_ok (by omega)), bind_of_ok (copyOut_zero ..),
    next, bind_of_ok (load_ok (by omega)),
    bind_of_ok (store_ok _ (by omega)), bind_of_ok hsize,
    modify_bind_apply]
  exact bind_of_ok hreloc

end

theorem msgrcv_none (h : p.Empties n) {t : BitVec 32} (ht : n = 0 ∨ t ≠ 0) (sz : Nat) :
    sys_msgrcv t sz p = .ok (none, p) := by
  have hroom := h.room
  rw [sys_msgrcv, get_bind_apply, next, bind_of_ok (load_ok (by omega))]
  by_cases hn : n = 0
  · subst hn
    have hstop : p.mem.load p.msgs 8 = 0 := h.layout.stop
    rw [hstop]
    rfl
  · have hfirst : p.mem.load p.msgs 8 = p.msgs + 16 * 1 := h.layout.links 0 (by omega)
    have hfind : findMsg t FUEL p.msgs (p.msgs + 16 * 1) p = .ok (none, p) :=
      h.findMsg_none (ht.resolve_left hn) (le_refl 1) (by omega) (by unfold FUEL; omega)
    rw [hfirst, bind_of_ok hfind]
    rfl

theorem holds (h : p.Empties n) (hk : 1 ≤ k) (hkn : k ≤ n) : p.Holds (p.msgs + 16 * k) ⟨0, []⟩ := by
  have hroom := h.room
  refine ⟨⟨by omega, by omega⟩, ?_, ?_, rfl⟩
  · rw [h.layout.zeros.type hk (by omega)]
    rfl
  · rw [h.layout.zeros.size (by omega)]
    rfl

theorem chain (h : p.Empties n) {d : Nat} (hk : k + d = n) :
    ∃ as, Chain (fun a => p.mem.load a 8) 0 (p.mem.load (p.msgs + 16 * k) 8) as ∧
      List.Forall₂ p.Holds as (List.replicate d ⟨0, []⟩) := by
  induction d generalizing k with
  | zero =>
    obtain rfl : k = n := hk
    rw [h.layout.stop]
    exact ⟨[], .nil, .nil⟩
  | succ d ih =>
    obtain ⟨as, hchain, hholds⟩ := ih (k := k + 1) (by omega)
    rw [h.layout.links k (by omega)]
    exact ⟨_, .cons (by omega) hchain, .cons (h.holds (by omega) (by omega)) hholds⟩

theorem repr (h : p.Empties n) : p.Repr (List.replicate n ⟨0, []⟩) := by
  have hchain := h.chain (Nat.zero_add n)
  refine ⟨hchain, ?_⟩
  rw [h.curbytes]
  simp [used]
  ring

theorem newmq {page : Nat} (mem : Bytes) (hbot : 0 < page) (htop : page + PGSIZE ≤ 2 ^ 64) :
    (newmq mem page).Empties 0 := by
  have hzero : ∀ j < PGSIZE, mem.put page (List.replicate PGSIZE 0) (page + j) = 0 := by
    intro j hj
    simp [Bytes.put, hj]
  refine ⟨⟨fun k hk => absurd hk (Nat.not_lt_zero k), ?_, fun j _ hj _ => ?_⟩, by decide, hbot, htop,
    rfl, rfl⟩
  · dsimp only [Ipc.newmq]
    rw [load_store_of_disjoint (by omega), Nat.add_zero, load_store, Nat.zero_mod]
  · exact store_zero_apply (store_zero_apply (hzero j hj))

theorem exec_eq (h : p.Empties n) {a : Act} (ha : Plain (p, List.replicate n ⟨0, []⟩) a) :
    ∃ p' n', a.exec p = .ok ((a.fifo (List.replicate n ⟨0, []⟩)).1, p') ∧ p'.Empties n' ∧
      (a.fifo (List.replicate n ⟨0, []⟩)).2 = List.replicate n' ⟨0, []⟩ := by
  have hroom := h.room
  cases a with
  | snd t data =>
    obtain ⟨rfl, rfl, hne⟩ := ha
    obtain ⟨p', heq, hp'⟩ := h.msgsnd_eq hne
    have hfits : used (List.replicate n ⟨0, []⟩) + ([] : List Byte).length + 16 ≤ PGSIZE := by
      simp [used]
      omega
    refine ⟨p', n + 1, ?_, hp', ?_⟩
    · rw [Act.fifo, if_pos hfits]
      exact (bind_of_ok heq).trans rfl
    · rw [Act.fifo, if_pos hfits]
      exact List.replicate_succ'.symm
  | rcv t sz =>
    by_cases ht : n = 0 ∨ t ≠ 0
    · have hfind : (List.replicate n (⟨0, []⟩ : Msg)).find? (fun m => m.type = t) = none := by
        rw [List.find?_eq_none]
        intro m hm
        obtain ⟨hn, rfl⟩ := List.mem_replicate.mp hm
        exact fun heq => ht.resolve_left hn (of_decide_eq_true heq).symm
      refine ⟨p, n, ?_, h, ?_⟩
      · rw [Act.fifo, hfind]
        exact (bind_of_ok (h.msgrcv_none ht sz)).trans rfl
      · rw [Act.fifo, hfind]
    · obtain ⟨hn, ht⟩ := not_or.mp ht
      obtain rfl : t = 0 := not_not.mp ht
      obtain ⟨n, rfl⟩ := Nat.exists_eq_succ_of_ne_zero hn
      obtain rfl : sz = 0 := ha ⟨0, []⟩ (by simp [List.replicate_succ])
      obtain ⟨p', heq, hp'⟩ := h.msgrcv_eq
      have herase : (List.replicate (n + 1) (⟨0, []⟩ : Msg)).eraseP (fun m => m.type = 0) =
          List.replicate n ⟨0, []⟩ := List.eraseP_cons_of_pos (by simp)
      refine ⟨p', n, ?_, hp', ?_⟩
      · exact (bind_of_ok heq).trans rfl
      · exact herase

end Mq.Empties

/-- The queue as a whole. -/
theorem msgqueue_refines_fifo {mem : Bytes} {page : Nat} {xs : List Act} {p : Mq} {q : List Msg}
    (hpage : KERNBASE ≤ page) (htop : page + PGSIZE ≤ PHYSTOP)
    (h : Run (Guarded Plain Steps) (newmq mem page, []) xs (p, q)) :
    p.Repr q ∧ ∀ a, Plain (p, q) a →
      ∃ p', a.exec p = .ok ((a.fifo q).1, p') ∧ p'.Repr (a.fifo q).2 := by
  have hstep : ∀ x a y, Guarded Plain Steps x a y →
      (∃ n, x.1.Empties n ∧ x.2 = List.replicate n ⟨0, []⟩) →
      ∃ n, y.1.Empties n ∧ y.2 = List.replicate n ⟨0, []⟩ := by
    rintro ⟨p, q⟩ a ⟨p', q'⟩ ⟨ha, r, hexec, rfl⟩ ⟨n, hn, rfl⟩
    obtain ⟨p'', n', heq, hn', hq⟩ := hn.exec_eq ha
    obtain rfl : p'' = p' := (Prod.mk.inj (Except.ok.inj (heq.symm.trans hexec))).2
    exact ⟨n', hn', hq⟩
  have hlow : 0 < KERNBASE := by decide
  have hhigh : PHYSTOP ≤ 2 ^ 64 := by decide
  obtain ⟨n, hn, rfl⟩ := h.invariant hstep ⟨0, .newmq mem (by omega) (by omega), rfl⟩
  refine ⟨hn.repr, fun a ha => ?_⟩
  obtain ⟨p', n', heq, hn', hq⟩ := hn.exec_eq ha
  exact ⟨p', heq, hq ▸ hn'.repr⟩

/-- Two empty messages are sent and one is received. -/
theorem msgqueue_refines_fifo_two : ∃ xs p q,
    Run (Guarded Plain Steps) (newmq (fun _ => 0) KERNBASE, []) xs (p, q) ∧ q.length = 1 ∧
    p.Repr q := by
  obtain ⟨⟨p, q⟩, hx, hlen⟩ : ∃ x, [.snd 0 [], .snd 0 [], .rcv 3 7, .rcv 0 0].foldlM
      (fun x a => if Plain x a then step x a else none) (newmq (fun _ => 0) KERNBASE, []) = some x ∧
      x.2.length = 1 := by
    decide +kernel
  have hrun : Run (Guarded Plain Steps) (newmq (fun _ => 0) KERNBASE, []) _ (p, q) :=
    (Run.of_foldlM hx).mono fun _ _ _ hst => ⟨hst.1, steps_of_step hst.2⟩
  exact ⟨_, p, q, hrun, hlen, (msgqueue_refines_fifo (le_refl _) (by decide) hrun).1⟩

/-- One byte is sent and another one is received, for the byte is where `dataaddr` is; and the type
of an empty message is where the `datasize` of the message before it is. -/
theorem payload_overwrites_dataaddr :
    (∃ xs p q, Run Steps (newmq (fun _ => 0) KERNBASE, []) xs (p, q) ∧ q = [⟨1, [65]⟩] ∧
      ∃ p', Act.exec (.rcv 1 1) p = .ok (.received [0], p')) ∧
    ∃ xs p q, Run Steps (newmq (fun _ => 0) KERNBASE, []) xs (p, q) ∧ q = [⟨5, []⟩] ∧
      p.curbytes ≠ used q := by
  constructor
  · obtain ⟨⟨p, q⟩, hx, hq, _, p', hrcv, rfl⟩ : ∃ x,
        [.snd 1 [65]].foldlM step (newmq (fun _ => 0) KERNBASE, []) = some x ∧ x.2 = [⟨1, [65]⟩] ∧
        ∃ r p', Act.exec (.rcv 1 1) x.1 = .ok (r, p') ∧ r = .received [0] := by
      decide +kernel
    exact ⟨_, p, q, (Run.of_exec hx).mono fun _ _ _ => steps_of_step, hq, p', hrcv⟩
  · obtain ⟨⟨p, q⟩, hx, hq, hcur⟩ : ∃ x,
        [.snd 0 [], .snd 5 [], .rcv 0 0].foldlM step (newmq (fun _ => 0) KERNBASE, []) = some x ∧
        x.2 = [⟨5, []⟩] ∧ x.1.curbytes ≠ used x.2 := by
      decide +kernel
    exact ⟨_, p, q, (Run.of_exec hx).mono fun _ _ _ => steps_of_step, hq, hcur⟩

end Yyds.Ipc
