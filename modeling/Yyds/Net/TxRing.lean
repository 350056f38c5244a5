import Yyds.Lib.Run
import Yyds.Net.Stack

/-! The transmit ring of `e1000.c` between `e1000_transmit` and a device that completes the
descriptors in order. -/
namespace Yyds.Net

open Lib Function

def TX_RING_SIZE : Nat := 16

abbrev TxIndex := Fin TX_RING_SIZE

instance : NeZero TX_RING_SIZE := ⟨by decide⟩

/-- `tx_ring` (the status bit `E1000_TXD_STAT_DD` and the buffer that `addr` and `length` describe),
`tx_mbufs`, and the register `E1000_TDT`. Buffers are numbers. -/
structure Ring where
  dd : TxIndex → Bool
  desc : TxIndex → Option Nat
  tx_mbufs : TxIndex → Option Nat
  tdt : TxIndex

namespace Ring

/-- The transmit initialization of `e1000_init` -/
def e1000_init : Ring where
  dd := fun _ => true
  desc := fun _ => none
  tx_mbufs := fun _ => none
  tdt := 0

/-- What it returns, the buffer it frees, and the ring. The status is left as it is. -/
def e1000_transmit (r : Ring) (m : Nat) : Int × Option Nat × Ring :=
  let ind := r.tdt
  if !r.dd ind then (-1, none, r)
  else
    (0, r.tx_mbufs ind,
      { r with
        desc := update r.desc ind (some m)
        tx_mbufs := update r.tx_mbufs ind (some m)
        tdt := r.tdt + 1 })

end Ring

/-- What the network stack asks of the driver: it refuses a buffer exactly if the next descriptor of
the ring is not done, and puts one that it takes into the ring. -/
theorem e1000_transmit_ring {m : Mbuf} {w : World} {r : Ring} (h : w.refuse = !r.dd r.tdt) :
    e1000_transmit m w = .ok (decide ((r.e1000_transmit m.page).1 = -1),
      { w with handed := w.handed ++ [m] }) ∧
    (r.dd r.tdt → (r.e1000_transmit m.page).2.2.tx_mbufs r.tdt = some m.page) := by
  cases hd : r.dd r.tdt <;> simp [e1000_transmit, Ring.e1000_transmit, hd, h]

/-- The ring and the device: the buffers that were accepted, in order, how many of them the device
has completed, and the buffers that `e1000_transmit` has freed. -/
structure TxSys where
  ring : Ring
  accepted : List Nat
  completed : Nat
  freed : List Nat

inductive TxAct
  | transmit (m : Nat)
  | complete
  deriving DecidableEq

namespace TxSys

def init : TxSys := ⟨Ring.e1000_init, [], 0, []⟩

/-- The descriptor that the `k`-th accepted buffer was put in. -/
def slot (k : Nat) : TxIndex := Fin.ofNat TX_RING_SIZE k

/-- A page that is allocated again is a new buffer, so that no number is accepted twice. The device
sets the status of the oldest descriptor that it has not completed. -/
def step (s : TxSys) : TxAct → Option TxSys
  | .transmit m =>
    if m ∈ s.accepted then none
    else
      let (ret, free, ring) := s.ring.e1000_transmit m
      if ret = 0 then
        some { s with ring, accepted := s.accepted ++ [m], freed := s.freed ++ free.toList }
      else some { s with ring }
  | .complete =>
    if s.completed < s.accepted.length then
      some
        { s with
          ring := { s.ring with dd := update s.ring.dd (slot s.completed) true }
          completed := s.completed + 1 }
    else none

/-- The number of descriptors that are queued and not completed. -/
def queued (s : TxSys) : Nat := s.accepted.length - s.completed

/-- The buffers whose descriptors are completed. -/
def done (s : TxSys) : List Nat := s.accepted.take s.completed

/-- A call of `e1000_transmit` refuses the buffer if the ring is full; if it takes it, it overwrites
no descriptor that is queued, and frees only a buffer that is completed and was not freed before. -/
def CallOk (s : TxSys) (m : Nat) : Prop :=
  (s.queued = TX_RING_SIZE → (s.ring.e1000_transmit m).1 = -1) ∧
  ((s.ring.e1000_transmit m).1 = 0 →
    (∀ k, s.completed ≤ k → k < s.accepted.length → slot k ≠ s.ring.tdt) ∧
    ∀ x, (s.ring.e1000_transmit m).2.1 = some x → x ∈ s.done ∧ x ∉ s.freed)

/-- Buffers are sent only while fewer descriptors are queued than the ring has. -/
def NotFull (s : TxSys) : TxAct → Prop
  | .transmit _ => s.queued < TX_RING_SIZE
  | .complete => True

instance (s : TxSys) : DecidablePred (NotFull s) := fun a => by
  cases a <;> dsimp only [NotFull] <;> infer_instance

def Step (s : TxSys) (a : TxAct) (t : TxSys) : Prop := s.step a = some t

/-- Where the accepted buffers are, whether or not the ring was full. -/
structure Inv (s : TxSys) : Prop where
  dd : ∀ i, s.ring.dd i = true
  tdt : s.ring.tdt = slot s.accepted.length
  mbufs : ∀ j < TX_RING_SIZE, s.ring.tx_mbufs (slot (s.accepted.length + j)) =
    if TX_RING_SIZE ≤ s.accepted.length + j then
      s.accepted[s.accepted.length + j - TX_RING_SIZE]? else none
  freed : s.freed = s.accepted.take (s.accepted.length - TX_RING_SIZE)
  nodup : s.accepted.Nodup
  completed : s.completed ≤ s.accepted.length

variable {s t : TxSys} {a : TxAct} {m : Nat}

theorem slot_eq_iff {j k : Nat} : slot j = slot k ↔ j % TX_RING_SIZE = k % TX_RING_SIZE := by
  simp [slot, Fin.ext_iff, Fin.ofNat]

theorem slot_succ (k : Nat) : slot k + 1 = slot (k + 1) := by
  simp [slot, Fin.ext_iff, Fin.ofNat, Fin.val_add]

theorem inv_init : Inv init := by
  refine ⟨fun _ => rfl, rfl, fun j hj => ?_, rfl, List.nodup_nil, le_rfl⟩
  split
  · rename_i h
    exact absurd h (by simp [init]; omega)
  · rfl

/-- The buffer that was accepted one round of the ring ago. -/
def oldest (s : TxSys) : Option Nat :=
  if TX_RING_SIZE ≤ s.accepted.length then s.accepted[s.accepted.length - TX_RING_SIZE]? else none

/-- The status is set on every descriptor, so the call takes every buffer. -/
theorem Inv.transmit_eq (h : Inv s) (m : Nat) : s.ring.e1000_transmit m =
    (0, s.oldest,
      { s.ring with
        desc := update s.ring.desc (slot s.accepted.length) (some m)
        tx_mbufs := update s.ring.tx_mbufs (slot s.accepted.length) (some m)
        tdt := slot (s.accepted.length + 1) }) := by
  have hold := h.mbufs 0 (by decide)
  rw [Nat.add_zero] at hold
  simp only [Ring.e1000_transmit, h.dd, h.tdt, hold, slot_succ, Bool.not_true, Bool.false_eq_true,
    if_false, oldest]

theorem Inv.step_cases (h : Inv s) (hst : Step s a t) :
    (∃ m, a = .transmit m ∧ m ∉ s.accepted ∧
      t = { s with
        ring := (s.ring.e1000_transmit m).2.2
        accepted := s.accepted ++ [m]
        freed := s.freed ++ s.oldest.toList }) ∨
    (a = .complete ∧ s.completed < s.accepted.length ∧
      t = { s with
        ring := { s.ring with dd := update s.ring.dd (slot s.completed) true }
        completed := s.completed + 1 }) := by
  cases a with
  | transmit m =>
    simp only [Step, step] at hst
    split at hst
    · cases hst
    · rename_i hm
      rw [h.transmit_eq m] at hst
      exact .inl ⟨m, rfl, hm, by rw [h.transmit_eq m]; exact (Option.some.inj hst).symm⟩
  | complete =>
    simp only [Step, step] at hst
    split at hst
    · exact .inr ⟨rfl, ‹_›, (Option.some.inj hst).symm⟩
    · cases hst

/-- What is freed so far, with the buffer of the next descriptor. -/
theorem Inv.freed_append (h : Inv s) (m : Nat) : s.freed ++ s.oldest.toList =
    (s.accepted ++ [m]).take ((s.accepted ++ [m]).length - TX_RING_SIZE) := by
  have hlen : (s.accepted ++ [m]).length = s.accepted.length + 1 := List.length_append
  rw [hlen, h.freed, oldest]
  split
  · rename_i hle
    have hlt : s.accepted.length - TX_RING_SIZE < s.accepted.length :=
      Nat.sub_lt (lt_of_lt_of_le (by decide) hle) (by decide)
    rw [Nat.succ_sub hle, List.take_append_of_le_length (Nat.succ_le_of_lt hlt),
      List.getElem?_eq_getElem hlt, List.take_succ_eq_append_getElem hlt]
    rfl
  · have hzero : s.accepted.length + 1 - TX_RING_SIZE = 0 := by omega
    have hzero' : s.accepted.length - TX_RING_SIZE = 0 := by omega
    simp [hzero, hzero']

theorem inv_transmit (h : Inv s) (hm : m ∉ s.accepted) :
    Inv { s with
      ring := (s.ring.e1000_transmit m).2.2
      accepted := s.accepted ++ [m]
      freed := s.freed ++ s.oldest.toList } := by
  have hlen : (s.accepted ++ [m]).length = s.accepted.length + 1 := List.length_append
  rw [h.transmit_eq m]
  refine ⟨h.dd, by rw [hlen], fun j hj => ?_, h.freed_append m, ?_, ?_⟩
  · dsimp only
    rw [hlen]
    -- The descriptor just written is the last of the round that begins after it.
    by_cases hlast : j + 1 = TX_RING_SIZE
    · have hslot : slot (s.accepted.length + 1 + j) = slot s.accepted.length := by
        rw [slot_eq_iff, Nat.add_assoc, Nat.add_comm 1 j, hlast, Nat.add_mod_right]
      have hidx : s.accepted.length + 1 + j - TX_RING_SIZE = s.accepted.length := by omega
      rw [hslot, update_self, hidx, if_pos (by omega), List.getElem?_concat_length]
    have hslot : slot (s.accepted.length + 1 + j) ≠ slot s.accepted.length := by
      rw [Ne, slot_eq_iff]
      unfold TX_RING_SIZE at *
      omega
    have hold := h.mbufs (j + 1) (by omega)
    rw [← Nat.add_assoc, Nat.add_right_comm] at hold
    rw [update_of_ne hslot, hold]
    split
    · rw [List.getElem?_append_left (by omega)]
    · rfl
  · exact List.concat_eq_append ▸ List.Nodup.concat hm h.nodup
  · rw [hlen]
    exact h.completed.trans (Nat.le_succ _)

theorem inv_complete (h : Inv s) (hlt : s.completed < s.accepted.length) :
    Inv { s with
      ring := { s.ring with dd := update s.ring.dd (slot s.completed) true }
      completed := s.completed + 1 } := by
  refine { h with dd := fun i => ?_, completed := hlt }
  dsimp only
  rw [update_apply, h.dd i, ite_self]

theorem inv_step (hst : Step s a t) (h : Inv s) : Inv t := by
  obtain ⟨m, rfl, hm, rfl⟩ | ⟨rfl, hlt, rfl⟩ := h.step_cases hst
  · exact inv_transmit h hm
  · exact inv_complete h hlt

/-- Sending only into a ring that is not full, at most a whole ring is queued. -/
theorem queued_step (hst : Guarded NotFull Step s a t) (h : Inv s)
    (hq : s.queued ≤ TX_RING_SIZE) : t.queued ≤ TX_RING_SIZE := by
  obtain ⟨hC, hst⟩ := hst
  obtain ⟨m, rfl, hm, rfl⟩ | ⟨rfl, hlt, rfl⟩ := h.step_cases hst
  · simp only [NotFull, queued, List.length_append, List.length_singleton] at hC ⊢
    omega
  · simp only [queued] at hq ⊢
    omega

theorem Inv.freed_nodup (h : Inv s) : s.freed.Nodup := by
  rw [h.freed]
  exact h.nodup.sublist (List.take_sublist _ _)

theorem Inv.freed_done (h : Inv s) (hq : s.queued ≤ TX_RING_SIZE) : ∀ x ∈ s.freed, x ∈ s.done := by
  intro x hx
  rw [h.freed] at hx
  unfold queued at hq
  exact List.take_subset_take_left _ (by omega) hx

/-- The buffer of the next descriptor is completed if the ring is not full. -/
theorem Inv.oldest_done (h : Inv s) (hq : s.queued < TX_RING_SIZE) {x : Nat}
    (hx : s.oldest = some x) : x ∈ s.done ∧ x ∉ s.freed := by
  unfold oldest at hx
  rw [Option.ite_none_right_eq_some] at hx
  obtain ⟨hle, hx⟩ := hx
  obtain ⟨hlt, rfl⟩ := List.getElem?_eq_some_iff.mp hx
  constructor
  · unfold queued at hq
    exact List.mem_take_iff_getElem.mpr ⟨_, by omega, rfl⟩
  · rw [h.freed, List.mem_take_iff_getElem]
    rintro ⟨j, hj, hget⟩
    have hjeq : j = s.accepted.length - TX_RING_SIZE :=
      (List.Nodup.getElem_inj_iff h.nodup).mp (hget : s.accepted[j] = _)
    omega

/-- A call with room in the ring meets its contract. -/
theorem Inv.callOk_of_room (h : Inv s) (hq : s.queued < TX_RING_SIZE) : CallOk s m := by
  refine ⟨fun hfull => absurd hfull hq.ne, fun _ => ⟨fun k hk hlt => ?_, fun x hx => ?_⟩⟩
  · rw [h.tdt, Ne, slot_eq_iff]
    unfold queued TX_RING_SIZE at *
    omega
  · rw [h.transmit_eq m] at hx
    exact h.oldest_done hq hx

/-- A call with a full ring takes the buffer all the same. -/
theorem Inv.not_callOk_of_full (h : Inv s) (hq : s.queued = TX_RING_SIZE) : ¬ CallOk s m := by
  rintro ⟨hfull, -⟩
  have hret := hfull hq
  rw [h.transmit_eq m] at hret
  cases hret

/-- The invariant, and a queue that fits the ring. -/
def Fits (s : TxSys) : Prop := Inv s ∧ s.queued ≤ TX_RING_SIZE

theorem fits_of_run {as : List TxAct} (h : Run (Guarded NotFull Step) init as t) : Fits t :=
  h.invariant (fun _ _ _ hst hs => ⟨inv_step hst.2 hs.1, queued_step hst hs.1 hs.2⟩)
    ⟨inv_init, by decide⟩

/-- If buffers are sent only into a ring that is not full, then every freed buffer was completed and
is freed once, and the next call meets its contract as long as the ring is not full. -/
theorem transmit_ring_owned {as : List TxAct} (h : Run (Guarded NotFull Step) init as t) :
    (∀ x ∈ t.freed, x ∈ t.done) ∧ t.freed.Nodup ∧
    ∀ m, CallOk t m ↔ t.queued < TX_RING_SIZE := by
  obtain ⟨hinv, hq⟩ := fits_of_run h
  refine ⟨hinv.freed_done hq, hinv.freed_nodup, fun m => ⟨fun hok => ?_, hinv.callOk_of_room⟩⟩
  exact lt_of_le_of_ne hq fun hfull => hinv.not_callOk_of_full hfull hok

/-- Sixteen buffers, one completion, and a seventeenth buffer that frees the first. -/
def wrapped : List TxAct := (List.range 16).map .transmit ++ [.complete, .transmit 16]

theorem transmit_ring_owned_wrapped : ∃ t, Run (Guarded NotFull Step) init wrapped t ∧
    t.freed = [0] ∧ t.done = [0] ∧ ¬ CallOk t 17 := by
  obtain ⟨t, hrun, hfreed, hdone, hq⟩ : ∃ t, Run (Guarded NotFull Step) init wrapped t ∧
      t.freed = [0] ∧ t.done = [0] ∧ t.queued = 16 :=
    Run.exists_foldlM
  refine ⟨t, hrun, hfreed, hdone, fun hok => ?_⟩
  have hroom := ((transmit_ring_owned hrun).2.2 17).mp hok
  rw [hq] at hroom
  exact absurd hroom (by decide)

/-- With no completion at all, the seventeenth buffer is taken over the descriptor of the first,
which is still queued, and frees it. -/
theorem transmit_ring_overrun : ∃ s t,
    Run Step init ((List.range 16).map .transmit) s ∧ s.queued = TX_RING_SIZE ∧ s.done = [] ∧
    (s.ring.e1000_transmit 16).1 = 0 ∧ slot 0 = s.ring.tdt ∧
    Step s (.transmit 16) t ∧ t.freed = [0] ∧ t.done = [] := by
  obtain ⟨s, hs, hq, hdone, hret, hslot, t, ht⟩ : ∃ s,
      ((List.range 16).map .transmit).foldlM step init = some s ∧ s.queued = TX_RING_SIZE ∧
      s.done = [] ∧ (s.ring.e1000_transmit 16).1 = 0 ∧ slot 0 = s.ring.tdt ∧
      ∃ t, s.step (.transmit 16) = some t ∧ t.freed = [0] ∧ t.done = [] := by
    decide +kernel
  exact ⟨s, t, Run.of_exec hs, hq, hdone, hret, hslot, ht⟩

end TxSys

end Yyds.Net
