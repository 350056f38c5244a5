import Yyds.Sync.Futex

/-! What becomes of requeued waiters: they stay in the bucket and on the channel of their first
address. -/
namespace Yyds.Futex

open Mm (ProcId)
open Kernel (ProcState)

/-! ### The loop that wakes -/

section Wake

variable {pick : Waiter → Bool} {asleep : FProc → Bool} {nr_wake woken : Int} {b b' : Bucket}
  {is : List Slot} {s : FutexSys} {j : Slot} {p : ProcId}

/-- What the loop keeps with every waiter that it wakes, it keeps. -/
theorem wakeLoop_keeps {P : FutexSys → Prop}
    (hstep : ∀ i ∈ is, ∀ t, pick (t.waiters b i) = true → P t → P (t.wake asleep b i)) (h : P s) :
    P (wakeLoop pick asleep nr_wake b is woken s).2 := by
  induction is generalizing woken s with
  | nil => exact h
  | cons i is ih =>
    have hrest := fun j hj => hstep j (List.mem_cons_of_mem i hj)
    rw [wakeLoop]
    split
    · split
      · exact ih hrest (hstep i (List.mem_cons_self ..) s ‹_› h)
      · exact ih hrest h
    · exact h

theorem wakeLoop_of_not_pick (h : b' ≠ b ∨ pick (s.waiters b j) = false) :
    (wakeLoop pick asleep nr_wake b is woken s).2.waiters b' j = s.waiters b' j := by
  refine wakeLoop_keeps (P := fun t => t.waiters b' j = s.waiters b' j)
    (fun i _ t hpick ht => ?_) rfl
  rw [wake_of_ne, ht]
  refine or_iff_not_imp_left.mpr fun hb hij => ?_
  rw [not_not.mp hb] at h ht
  rw [← hij, ht, h.resolve_left (· rfl)] at hpick
  cases hpick

theorem wakeLoop_of_notMem (h : j ∉ is) :
    (wakeLoop pick asleep nr_wake b is woken s).2.waiters b' j = s.waiters b' j :=
  wakeLoop_keeps (P := fun t => t.waiters b' j = s.waiters b' j)
    (fun _ hi _ _ ht => (wake_of_ne (.inr (ne_of_mem_of_not_mem hi h).symm)).trans ht) rfl

theorem wakeLoop_of_not_asleep (h : asleep (s.proc p) = false) :
    (wakeLoop pick asleep nr_wake b is woken s).2.proc p = s.proc p :=
  wakeLoop_keeps (P := fun t => t.proc p = s.proc p)
    (fun _ _ _ _ ht => (wake_proc_of_not_asleep (ht ▸ h)).trans ht) rfl

/-- A process none of whose waiters is picked is left as it is. -/
theorem wakeLoop_of_no_waiter
    (h : ∀ i, pick (s.waiters b i) = true → p ≠ (s.waiters b i).proc) :
    (wakeLoop pick asleep nr_wake b is woken s).2.proc p = s.proc p := by
  refine (wakeLoop_keeps (P := fun t => t.proc p = s.proc p ∧
    ∀ i, pick (t.waiters b i) = true → p ≠ (t.waiters b i).proc) (fun i _ t hpick ht => ?_)
    ⟨rfl, h⟩).1
  refine ⟨(wake_proc_of_ne (ht.2 i hpick)).trans ht.1, fun j hj => ?_⟩
  by_cases hji : j = i
  · rw [hji, wake_self]
    exact ht.2 i hpick
  · rw [wake_of_ne (.inr hji)] at hj ⊢
    exact ht.2 j hj

/-- With enough to wake, every picked waiter is marked, and its process wakes up if it is asleep. -/
theorem wakeLoop_wakes (hasleep : ∀ q : FProc, q.state = .RUNNABLE → asleep q = false)
    (hn : is.Nodup) (hlen : woken + is.length ≤ nr_wake) (hj : j ∈ is)
    (hpick : pick (s.waiters b j) = true) :
    (wakeLoop pick asleep nr_wake b is woken s).2.waiters b j =
        { s.waiters b j with woken := true } ∧
      (asleep (s.proc (s.waiters b j).proc) = true →
        ((wakeLoop pick asleep nr_wake b is woken s).2.proc (s.waiters b j).proc).state =
          .RUNNABLE) := by
  induction is generalizing woken s with
  | nil => exact absurd hj (List.not_mem_nil)
  | cons i is ih =>
    obtain ⟨hi, hn⟩ := List.nodup_cons.mp hn
    rw [List.length_cons] at hlen
    rw [wakeLoop, if_pos (by omega)]
    rcases List.mem_cons.mp hj with rfl | hj
    · rw [if_pos hpick, wakeLoop_of_notMem hi, wake_self]
      refine ⟨rfl, fun hs => ?_⟩
      have hrun := wake_proc_self hs
      rw [wakeLoop_of_not_asleep (hasleep _ hrun)]
      exact hrun
    have hne : j ≠ i := fun he => hi (he ▸ hj)
    split
    · have hw : (s.wake asleep b i).waiters b j = s.waiters b j := wake_of_ne (.inr hne)
      obtain ⟨hmark, hproc⟩ := ih hn
        (by omega : woken + 1 + is.length ≤ nr_wake) hj (by rw [hw]; exact hpick)
      rw [hw] at hmark hproc
      refine ⟨hmark, fun hs => ?_⟩
      have hcases : (s.wake asleep b i).proc (s.waiters b j).proc = s.proc (s.waiters b j).proc ∨
          ((s.wake asleep b i).proc (s.waiters b j).proc).state = .RUNNABLE := wake_proc_cases _
      rcases hcases with hsame | hrun
      · exact hproc (by rw [hsame]; exact hs)
      · -- the waiter before it was one of the same process
        rw [wakeLoop_of_not_asleep (hasleep _ hrun)]
        exact hrun
    · exact ih hn (by omega) hj hpick

/-- The places whose waiters have been marked on the way from `s` to `t`. -/
def marked (s t : FutexSys) (b : Bucket) (is : List Slot) : List Slot :=
  is.filter fun j => (s.waiters b j).woken = false ∧ (t.waiters b j).woken = true

theorem wakeLoop_count (hpick : ∀ w, pick w = true → w.woken = false) (hn : is.Nodup) :
    (wakeLoop pick asleep nr_wake b is woken s).1 =
      woken + (marked s (wakeLoop pick asleep nr_wake b is woken s).2 b is).length := by
  induction is generalizing woken s with
  | nil => simp [wakeLoop, marked]
  | cons i is ih =>
    obtain ⟨hi, hn⟩ := List.nodup_cons.mp hn
    rw [wakeLoop]
    split
    · split
      · rename_i hp
        have htail : ∀ t, marked (s.wake asleep b i) t b is = marked s t b is := by
          intro t
          refine List.filter_congr fun j hj => ?_
          have hne : j ≠ i := fun he => hi (he ▸ hj)
          rw [wake_of_ne (.inr hne)]
        rw [ih hn, htail, marked, marked, List.filter_cons_of_pos]
        · rw [List.length_cons]
          omega
        · rw [wakeLoop_of_notMem hi, wake_self]
          simp [hpick _ hp]
      · rename_i hp
        rw [ih hn, marked, marked, List.filter_cons_of_neg]
        rw [wakeLoop_of_not_pick (.inr (by simpa using hp))]
        simp
    · simp [marked]

end Wake

/-! ### The loop that requeues -/

/-- The waiters on `uaddr` after the first `k`, up to `m` of them. -/
def moved (s : FutexSys) (uaddr : Addr) (b : Bucket) (is : List Slot) (k m : Nat) : List Slot :=
  ((is.filter fun i => (s.waiters b i).On uaddr).drop k).take m

section Requeue

variable {uaddr uaddr2 : Addr} {nr_wake nr_requeue woken requeued : Int} {b b' : Bucket}
  {is : List Slot} {s t : FutexSys} {i j : Slot} {p : ProcId} {k m : Nat}

theorem moved_congr (h : ∀ j ∈ is, t.waiters b j = s.waiters b j) :
    moved t uaddr b is k m = moved s uaddr b is k m := by
  rw [moved, moved, List.filter_congr fun j hj => by rw [h j hj]]

theorem moved_cons_neg (h : ¬ (s.waiters b i).On uaddr) :
    moved s uaddr b (i :: is) k m = moved s uaddr b is k m := by
  rw [moved, List.filter_cons_of_neg (by simpa using h), moved]

theorem moved_cons_succ (h : (s.waiters b i).On uaddr) :
    moved s uaddr b (i :: is) (k + 1) m = moved s uaddr b is k m := by
  rw [moved, List.filter_cons_of_pos (by simpa using h), List.drop_succ_cons, moved]

theorem moved_cons_zero (h : (s.waiters b i).On uaddr) :
    moved s uaddr b (i :: is) 0 (m + 1) = i :: moved s uaddr b is 0 m := by
  rw [moved, List.filter_cons_of_pos (by simpa using h), List.drop_zero, List.take_succ_cons, moved,
    List.drop_zero]

theorem mem_of_mem_moved (h : j ∈ moved s uaddr b is k m) : j ∈ is ∧ (s.waiters b j).On uaddr := by
  have hmem := List.mem_of_mem_drop (List.mem_of_mem_take h)
  simpa using hmem

theorem requeueLoop_of_notMem (h : b' ≠ b ∨ j ∉ is) :
    (requeueLoop uaddr uaddr2 nr_wake nr_requeue b is woken requeued s).2.waiters b' j =
      s.waiters b' j := by
  induction is generalizing woken requeued s with
  | nil => rfl
  | cons i is ih =>
    have hne : b' ≠ b ∨ j ≠ i := h.imp_right fun hj he => hj (he ▸ List.mem_cons_self ..)
    have htail : b' ≠ b ∨ j ∉ is := h.imp_right fun hj hm => hj (List.mem_cons_of_mem i hm)
    rw [requeueLoop]
    split
    · split
      · rw [ih htail, wake_of_ne hne]
      · split
        · rw [ih htail, requeue_of_ne hne]
        · exact ih htail
    · exact ih htail

/-- Neither the process nor the use of a place changes. -/
theorem requeueLoop_keeps (b' : Bucket) (j : Slot) :
    ((requeueLoop uaddr uaddr2 nr_wake nr_requeue b is woken requeued s).2.waiters b' j).used =
        (s.waiters b' j).used ∧
      ((requeueLoop uaddr uaddr2 nr_wake nr_requeue b is woken requeued s).2.waiters b' j).proc =
        (s.waiters b' j).proc := by
  induction is generalizing woken requeued s with
  | nil => exact ⟨rfl, rfl⟩
  | cons i is ih =>
    rw [requeueLoop]
    split
    · split
      · rw [ih.1, ih.2]
        by_cases hne : b' ≠ b ∨ j ≠ i
        · rw [wake_of_ne hne]
          exact ⟨rfl, rfl⟩
        · rw [not_or, not_not, not_not] at hne
          rw [hne.1, hne.2, wake_self]
          exact ⟨rfl, rfl⟩
      · split
        · rw [ih.1, ih.2]
          by_cases hne : b' ≠ b ∨ j ≠ i
          · rw [requeue_of_ne hne]
            exact ⟨rfl, rfl⟩
          · rw [not_or, not_not, not_not] at hne
            rw [hne.1, hne.2, requeue_self]
            exact ⟨rfl, rfl⟩
        · exact ih
    · exact ih

theorem requeueLoop_moved (hn : is.Nodup)
    (hj : j ∈ moved s uaddr b is (nr_wake - woken).toNat (nr_requeue - requeued).toNat) :
    (requeueLoop uaddr uaddr2 nr_wake nr_requeue b is woken requeued s).2.waiters b j =
      { s.waiters b j with uaddr := uaddr2 } := by
  induction is generalizing woken requeued s with
  | nil => simp [moved] at hj
  | cons i is ih =>
    obtain ⟨hi, hn⟩ := List.nodup_cons.mp hn
    have hsame : ∀ {t : FutexSys}, (∀ j, j ≠ i → t.waiters b j = s.waiters b j) →
        ∀ j ∈ is, t.waiters b j = s.waiters b j :=
      fun ht j hj => ht j fun he => hi (he ▸ hj)
    rw [requeueLoop]
    split
    · rename_i hon
      split
      · rw [show (nr_wake - woken).toNat = (nr_wake - (woken + 1)).toNat + 1 by omega,
          moved_cons_succ hon] at hj
        have hne : j ≠ i := fun he => hi (he ▸ (mem_of_mem_moved hj).1)
        rw [ih hn (by rwa [moved_congr (hsame fun j hne => wake_of_ne (.inr hne))]),
          wake_of_ne (.inr hne)]
      rw [show (nr_wake - woken).toNat = 0 by omega] at hj
      split
      · rw [show (nr_requeue - requeued).toNat = (nr_requeue - (requeued + 1)).toNat + 1 by omega,
          moved_cons_zero hon, List.mem_cons] at hj
        rcases hj with rfl | hj
        · rw [requeueLoop_of_notMem (.inr hi), requeue_self]
        · have hne : j ≠ i := fun he => hi (he ▸ (mem_of_mem_moved hj).1)
          rw [ih hn ?_, requeue_of_ne (.inr hne)]
          rw [show (nr_wake - woken).toNat = 0 by omega,
            moved_congr (hsame fun j hne => requeue_of_ne (.inr hne))]
          exact hj
      · rw [show (nr_requeue - requeued).toNat = 0 by omega] at hj
        exact absurd hj List.not_mem_nil
    · rename_i hon
      rw [moved_cons_neg hon] at hj
      exact ih hn hj

/-- A process that none of the woken waiters belongs to is left as it is. -/
theorem requeueLoop_proc (hn : is.Nodup)
    (hp : ∀ i ∈ is, (s.waiters b i).On uaddr →
      i ∉ moved s uaddr b is (nr_wake - woken).toNat (nr_requeue - requeued).toNat →
        p ≠ (s.waiters b i).proc) :
    (requeueLoop uaddr uaddr2 nr_wake nr_requeue b is woken requeued s).2.proc p = s.proc p := by
  induction is generalizing woken requeued s with
  | nil => rfl
  | cons i is ih =>
    obtain ⟨hi, hn⟩ := List.nodup_cons.mp hn
    have hne : ∀ j ∈ is, j ≠ i := fun j hj he => hi (he ▸ hj)
    rw [requeueLoop]
    split
    · rename_i hon
      split
      · rw [show (nr_wake - woken).toNat = (nr_wake - (woken + 1)).toNat + 1 by omega,
          moved_cons_succ hon] at hp
        have hpi := hp i (List.mem_cons_self ..) hon fun hm => hi (mem_of_mem_moved hm).1
        rw [ih hn, wake_proc_of_ne hpi]
        intro j hj hj' hm
        rw [wake_of_ne (.inr (hne j hj))] at hj' ⊢
        rw [moved_congr fun j hj => wake_of_ne (.inr (hne j hj))] at hm
        exact hp j (List.mem_cons_of_mem i hj) hj' hm
      rw [show (nr_wake - woken).toNat = 0 by omega] at hp
      split
      · rw [show (nr_requeue - requeued).toNat = (nr_requeue - (requeued + 1)).toNat + 1 by omega,
          moved_cons_zero hon] at hp
        rw [ih hn]
        · rfl
        · intro j hj hj' hm
          rw [requeue_of_ne (.inr (hne j hj))] at hj' ⊢
          rw [show (nr_wake - woken).toNat = 0 by omega,
            moved_congr fun j hj => requeue_of_ne (.inr (hne j hj))] at hm
          refine hp j (List.mem_cons_of_mem i hj) hj' fun hm' => ?_
          rcases List.mem_cons.mp hm' with he | hm'
          · exact hne j hj he
          · exact hm hm'
      · refine ih hn fun j hj hj' hm => hp j (List.mem_cons_of_mem i hj) hj' ?_
        rw [show (nr_requeue - requeued).toNat = 0 by omega]
        exact List.not_mem_nil
    · rename_i hon
      refine ih hn fun j hj hj' hm => hp j (List.mem_cons_of_mem i hj) hj' ?_
      rw [moved_cons_neg hon]
      exact hm

end Requeue

/-! ### Requeued waiters -/

/-- The waiters on `uaddr` sleep there, and no process waits in two places. -/
structure Parked (s : FutexSys) (uaddr : Addr) : Prop where
  own : ∀ b i b' i', (s.waiters b i).used = true → (s.waiters b' i').used = true →
    (s.waiters b i).proc = (s.waiters b' i').proc → b = b' ∧ i = i'
  asleep : ∀ i, (s.waiters (futex_hash uaddr) i).On uaddr →
    (s.proc (s.waiters (futex_hash uaddr) i).proc).On uaddr

/-- The waiters that `futex_requeue(uaddr, _, nr_wake, nr_requeue)` requeues. -/
def requeued (s : FutexSys) (uaddr : Addr) (nr_wake nr_requeue : Int) : List Slot :=
  moved s uaddr (futex_hash uaddr) (List.finRange SLOTS) nr_wake.toNat nr_requeue.toNat

/-- `futex_wake(uaddr, n)` makes the process of the waiter `RUNNABLE`; the waiter is one of those
that are marked, and their number is returned. -/
def WakesUp (s : FutexSys) (uaddr : Addr) (n : Int) (b : Bucket) (i : Slot) : Prop :=
  ((futex_wake s uaddr n).2.proc (s.waiters b i).proc).state = .RUNNABLE ∧
    b = futex_hash uaddr ∧ i ∈ marked s (futex_wake s uaddr n).2 b (List.finRange SLOTS) ∧
    (futex_wake s uaddr n).1 = (marked s (futex_wake s uaddr n).2 b (List.finRange SLOTS)).length

/-- `futex_wake(uaddr, n)` leaves the waiter and its process alone. -/
def LeftAlone (s : FutexSys) (uaddr : Addr) (n : Int) (b : Bucket) (i : Slot) : Prop :=
  (futex_wake s uaddr n).2.waiters b i = s.waiters b i ∧
    (futex_wake s uaddr n).2.proc (s.waiters b i).proc = s.proc (s.waiters b i).proc

section Main

variable {s : FutexSys} {uaddr uaddr2 : Addr} {nr_wake nr_requeue n : Int} {i : Slot}

theorem futex_wake_count (s : FutexSys) (uaddr : Addr) (n : Int) : (futex_wake s uaddr n).1 =
    (marked s (futex_wake s uaddr n).2 (futex_hash uaddr) (List.finRange SLOTS)).length := by
  rw [futex_wake, wakeLoop_count _ (List.nodup_finRange SLOTS), Int.zero_add]
  intro w hw
  exact (of_decide_eq_true hw).2.2

theorem futex_wake_wakes (hn : (SLOTS : Int) ≤ n)
    (hon : (s.waiters (futex_hash uaddr) i).On uaddr) :
    (futex_wake s uaddr n).2.waiters (futex_hash uaddr) i =
        { s.waiters (futex_hash uaddr) i with woken := true } ∧
      ((s.proc (s.waiters (futex_hash uaddr) i).proc).On uaddr →
        ((futex_wake s uaddr n).2.proc (s.waiters (futex_hash uaddr) i).proc).state =
          .RUNNABLE) := by
  have hlen : 0 + ((List.finRange SLOTS).length : Int) ≤ n := by simpa using hn
  have hrun : ∀ q : FProc, q.state = .RUNNABLE → decide (q.On uaddr) = false := by
    intro q hq
    exact decide_eq_false fun hon => absurd (hq.symm.trans hon.1) nofun
  have hwakes : (futex_wake s uaddr n).2.waiters (futex_hash uaddr) i =
        { s.waiters (futex_hash uaddr) i with woken := true } ∧
      (decide ((s.proc (s.waiters (futex_hash uaddr) i).proc).On uaddr) = true →
        ((futex_wake s uaddr n).2.proc (s.waiters (futex_hash uaddr) i).proc).state =
          .RUNNABLE) := by
    exact wakeLoop_wakes hrun (List.nodup_finRange SLOTS) hlen (List.mem_finRange i)
      (decide_eq_true hon)
  exact ⟨hwakes.1, fun hs => hwakes.2 (decide_eq_true hs)⟩

theorem futex_requeue_keeps (b : Bucket) (j : Slot) :
    ((futex_requeue s uaddr uaddr2 nr_wake nr_requeue).2.waiters b j).used =
        (s.waiters b j).used ∧
      ((futex_requeue s uaddr uaddr2 nr_wake nr_requeue).2.waiters b j).proc =
        (s.waiters b j).proc :=
  requeueLoop_keeps b j

section
variable (h : Parked s uaddr)
include h

/-- A requeued waiter has the new address, and its process sleeps where it slept. -/
theorem Parked.requeued (uaddr2 : Addr) (hi : i ∈ requeued s uaddr nr_wake nr_requeue) :
    let t := (futex_requeue s uaddr uaddr2 nr_wake nr_requeue).2
    let b := futex_hash uaddr
    (s.waiters b i).On uaddr ∧ t.waiters b i = { s.waiters b i with uaddr := uaddr2 } ∧
      (t.proc (s.waiters b i).proc).On uaddr := by
  intro t b
  have hmem : i ∈ moved s uaddr b (List.finRange SLOTS) (nr_wake - 0).toNat
      (nr_requeue - 0).toNat := by
    rw [Int.sub_zero, Int.sub_zero]
    exact hi
  have hon := (mem_of_mem_moved hmem).2
  refine ⟨hon, requeueLoop_moved (List.nodup_finRange SLOTS) hmem, ?_⟩
  have hproc : t.proc (s.waiters b i).proc = s.proc (s.waiters b i).proc := by
    refine requeueLoop_proc (List.nodup_finRange SLOTS) fun j _ hj hm he => hm ?_
    rw [← (h.own b i b j hon.1 hj.1 he).2]
    exact hmem
  rw [hproc]
  exact h.asleep i hon

/-- On another address the process of a requeued waiter is not found asleep. -/
theorem Parked.not_wakesUp (hne : uaddr2 ≠ uaddr)
    (hi : i ∈ Futex.requeued s uaddr nr_wake nr_requeue) :
    ¬ WakesUp (futex_requeue s uaddr uaddr2 nr_wake nr_requeue).2 uaddr2 n (futex_hash uaddr) i := by
  intro hw
  obtain ⟨-, hwaiter, hsleep⟩ := h.requeued uaddr2 hi
  have hstate := hw.1
  rw [hwaiter, futex_wake, wakeLoop_of_not_asleep] at hstate
  · rw [hsleep.1] at hstate
    cases hstate
  · refine decide_eq_false fun hon => hne ?_
    rw [← hon.2, hsleep.2]

theorem Parked.wakesUp (hi : i ∈ Futex.requeued s uaddr nr_wake nr_requeue)
    (hn : (SLOTS : Int) ≤ n) :
    WakesUp (futex_requeue s uaddr uaddr nr_wake nr_requeue).2 uaddr n (futex_hash uaddr) i := by
  obtain ⟨hon, hwaiter, hsleep⟩ := h.requeued uaddr hi
  generalize (futex_requeue s uaddr uaddr nr_wake nr_requeue).2 = t at *
  have hpick : (t.waiters (futex_hash uaddr) i).On uaddr := by
    rw [hwaiter]
    exact ⟨hon.1, rfl, hon.2.2⟩
  obtain ⟨hmark, hrun⟩ := futex_wake_wakes hn hpick
  refine ⟨hrun ?_, rfl, ?_, futex_wake_count t uaddr n⟩
  · rw [hwaiter]
    exact hsleep
  · refine List.mem_filter.mpr ⟨List.mem_finRange i, decide_eq_true ⟨hpick.2.2, ?_⟩⟩
    rw [hmark]

/-- The old address is not the one of a requeued waiter. -/
theorem Parked.leftAlone (hne : uaddr2 ≠ uaddr)
    (hi : i ∈ Futex.requeued s uaddr nr_wake nr_requeue) :
    LeftAlone (futex_requeue s uaddr uaddr2 nr_wake nr_requeue).2 uaddr n (futex_hash uaddr) i := by
  obtain ⟨hon, hwaiter, -⟩ := h.requeued uaddr2 hi
  have hoff : ¬ ((futex_requeue s uaddr uaddr2 nr_wake nr_requeue).2.waiters (futex_hash uaddr) i).On
      uaddr := by
    rw [hwaiter]
    exact fun hno => hne hno.2.1
  constructor
  · exact wakeLoop_of_not_pick (.inr (decide_eq_false hoff))
  · refine wakeLoop_of_no_waiter fun j hpick he => hoff ?_
    have hj := of_decide_eq_true hpick
    rw [(futex_requeue_keeps _ _).2, (futex_requeue_keeps _ _).2] at he
    have hused := hj.1
    rw [(futex_requeue_keeps _ _).1] at hused
    rw [(h.own _ i _ j hon.1 hused he).2]
    exact hj

end

/-- Requeued waiters can be woken on the new address exactly if it is the old one, and the old
address does not wake them exactly if it is not the new one. -/
theorem requeued_waiters (s : FutexSys) (uaddr uaddr2 : Addr) (nr_wake nr_requeue : Int)
    (h : Parked s uaddr) :
    let t := (futex_requeue s uaddr uaddr2 nr_wake nr_requeue).2
    let b := futex_hash uaddr
    let rs := requeued s uaddr nr_wake nr_requeue
    ((∃ N, ∀ n ≥ N, ∀ i ∈ rs, WakesUp t uaddr2 n b i) ↔ rs = [] ∨ uaddr2 = uaddr) ∧
      ((∀ n, ∀ i ∈ rs, LeftAlone t uaddr n b i) ↔ rs = [] ∨ uaddr2 ≠ uaddr) := by
  constructor
  · constructor
    · rintro ⟨N, hN⟩
      by_cases hne : uaddr2 = uaddr
      · exact .inr hne
      · left
        refine List.eq_nil_iff_forall_not_mem.mpr fun i hi => ?_
        exact h.not_wakesUp hne hi (hN N le_rfl i hi)
    · rintro (hnil | rfl)
      · refine ⟨0, fun n _ i hi => ?_⟩
        rw [hnil] at hi
        exact absurd hi List.not_mem_nil
      · exact ⟨SLOTS, fun n hn i hi => h.wakesUp hi hn⟩
  · constructor
    · intro hall
      by_cases heq : uaddr2 = uaddr
      · left
        subst heq
        refine List.eq_nil_iff_forall_not_mem.mpr fun i hi => ?_
        -- enough to wake marks the waiter
        obtain ⟨-, -, hmark, -⟩ := h.wakesUp hi le_rfl
        have hleft := (hall SLOTS i hi).1
        have hwoken := of_decide_eq_true (List.mem_filter.mp hmark).2
        rw [hleft, hwoken.1] at hwoken
        exact absurd hwoken.2 nofun
      · exact .inr heq
    · rintro (hnil | hne) n i hi
      · rw [hnil] at hi
        exact absurd hi List.not_mem_nil
      · exact h.leftAlone hne hi

end Main

/-- The processes 1 and 2 wait at the address `0x1000`. -/
def twoSleepers : FutexSys where
  waiters b i := ⟨b = futex_hash 0x1000, if i.val = 0 then 1 else 2, 0x1000, 0xFFFFFFFF, false⟩
  proc p := if p = 1 ∨ p = 2 then ⟨.SLEEPING, 0x1000⟩ else ⟨.RUNNABLE, 0⟩

theorem parked_twoSleepers : Parked twoSleepers 0x1000 where
  own b i b' i' h h' he := by
    have hb : b = futex_hash 0x1000 := of_decide_eq_true h
    have hb' : b' = futex_hash 0x1000 := of_decide_eq_true h'
    subst hb hb'
    refine ⟨rfl, ?_⟩
    revert i i'
    decide
  asleep := by decide

theorem requeued_waiters_two :
    requeued twoSleepers 0x1000 1 1 = [1] ∧
      ∃ N, ∀ n ≥ N, ∀ i ∈ requeued twoSleepers 0x1000 1 1,
        WakesUp (futex_requeue twoSleepers 0x1000 0x1000 1 1).2 0x1000 n (futex_hash 0x1000) i :=
  ⟨by decide, (requeued_waiters twoSleepers 0x1000 0x1000 1 1 parked_twoSleepers).1.mpr (.inr rfl)⟩

/-- Requeued to an address of another bucket, the waiters are not found; to one of the same bucket,
they are counted and sleep on. -/
theorem requeued_waiters_sleep_on :
    let r := futex_wake (futex_requeue twoSleepers 0x1000 0x1004 0 2).2 0x1004 64
    let r' := futex_wake (futex_requeue twoSleepers 0x1000 0x1080 0 2).2 0x1080 64
    Parked twoSleepers 0x1000 ∧ requeued twoSleepers 0x1000 0 2 = [0, 1] ∧
      (r.1 = 0 ∧ (r.2.proc 1).state = .SLEEPING ∧ (r.2.proc 2).state = .SLEEPING) ∧
      r'.1 = 2 ∧ (r'.2.proc 1).state = .SLEEPING ∧ (r'.2.proc 2).state = .SLEEPING :=
  ⟨parked_twoSleepers, by decide, by decide, by decide⟩

end Yyds.Futex
