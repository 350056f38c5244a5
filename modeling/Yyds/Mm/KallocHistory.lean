import Yyds.Mm.KallocInv

/-! Histories of allocator calls, from `kinit` on and from any CPUs. -/
namespace Yyds.Mm

open Lib Layout Function Phys

variable {s t : Phys}

/-- A call of the allocator, with the page that `kalloc` returned. -/
inductive Call
  | kalloc (r : Nat)
  | kfree (pa : Nat)
  | kaddrefcnt (pa : Nat)
  deriving DecidableEq

namespace Call

/-- The references to `pa` that `es` handed out and has not dropped. -/
def live (es : List Call) (pa : Nat) : Int :=
  es.count (kalloc pa) + es.count (kaddrefcnt pa) - es.count (kfree pa)

theorem live_cons (e : Call) (es : List Call) (pa : Nat) :
    live (e :: es) pa = live [e] pa + live es pa := by
  simp only [live, List.count_cons, List.count_nil]
  omega

variable [Layout]

/-- The state after the call. `none`: it panicked, or returned another page. -/
def exec (s : Phys) : Call → Option Phys
  | kalloc r =>
    match Mm.kalloc s with
    | .ok (r', t) => if r' = r then some t else none
    | .error _ => none
  | kfree pa =>
    match Mm.kfree pa s with
    | .ok (_, t) => some t
    | .error _ => none
  | kaddrefcnt pa =>
    match Mm.kaddrefcnt pa s with
    | .ok (_, t) => some t
    | .error _ => none

/-- `kfree` and `kaddrefcnt` are for pages with a reference. -/
def Allowed (s : Phys) : Call → Prop
  | kalloc _ => True
  | kfree pa => Managed pa ∧ 1 ≤ s.refcnt pa
  | kaddrefcnt pa => Managed pa ∧ 1 ≤ s.refcnt pa

instance (s : Phys) (e : Call) : Decidable (Allowed s e) := by
  cases e <;> dsimp only [Allowed] <;> infer_instance

end Call

section

variable [Layout]

/-- `L` is what each managed page's count says. -/
def Counts (s : Phys) (L : Nat → Int) : Prop :=
  AllocInv s ∧ ∀ pa, Managed pa → L pa = (s.count pa).toNat ∧ (s.count pa).toNat ≤ 2 ^ 31

variable {L : Nat → Int} {lists : Fin NCPU → List Nat} {c : Fin NCPU} {pa : Nat}

/-- Each call changes the count of the page it is about, as the history says. -/
theorem counts_step {e : Call} (h : Counts s L) (ha : Call.Allowed s e) (he : e.exec s = some t) :
    Counts t fun pa => L pa + Call.live [e] pa := by
  obtain ⟨hinv, hL⟩ := h
  cases e with
  | kalloc r =>
    obtain ⟨r', t', hk, ht, hcase⟩ := kalloc_spec hinv
    simp only [Call.exec, hk] at he
    split at he
    case isFalse => cases he
    case isTrue hr =>
      cases he
      subst hr
      refine ⟨ht, fun pa hpa => ?_⟩
      rcases hcase with ⟨rfl, _, hc, _⟩ | ⟨hm, hz, _, hc⟩
      · have hne : (0 : Nat) ≠ pa := hpa.pos.symm
        simpa [Call.live, hne, Phys.count, hc] using hL pa hpa
      rw [count_update hc hm.1 hpa.1]
      by_cases hpr : pa = r'
      · subst hpr
        have := (hL pa hpa).1
        rw [hz] at this
        simp [Call.live, this]
      · rw [if_neg hpr]
        simpa [Call.live, Ne.symm hpr] using hL pa hpa
  | kfree p =>
    obtain ⟨hm, hpos⟩ := ha
    obtain ⟨t', hk, ht, _, hc, _⟩ := kfree_spec hinv hm (count_ne_zero hpos)
    simp only [Call.exec, hk] at he
    cases he
    refine ⟨ht, fun pa hpa => ?_⟩
    rw [count_update hc hm.1 hpa.1]
    by_cases hpr : pa = p
    · subst hpr
      have hb := refcnt_pos hpos
      have := (hL pa hpa).1
      simp only [Call.live, if_true, BitVec.toNat_sub]
      simp
      omega
    · rw [if_neg hpr]
      simpa [Call.live, Ne.symm hpr] using hL pa hpa
  | kaddrefcnt p =>
    obtain ⟨hm, hpos⟩ := ha
    simp only [Call.exec, kaddrefcnt_spec hm] at he
    cases he
    have hb := refcnt_pos hpos
    have hinv' : s.count p + 1 ≠ 0 := by
      intro h0
      have := congrArg BitVec.toNat h0
      simp at this
      omega
    refine ⟨hinv.setCnt hm (count_ne_zero hpos) hinv', fun pa hpa => ?_⟩
    rw [count_update (setCnt_cnt _ _ _) hm.1 hpa.1]
    by_cases hpr : pa = p
    · subst hpr
      have := (hL pa hpa).1
      simp [Call.live]
      omega
    · rw [if_neg hpr]
      simpa [Call.live, Ne.symm hpr] using hL pa hpa

theorem counts_run {es : List Call}
    (h : Run (Guarded Call.Allowed fun s e t => e.exec s = some t) s es t) (hs : Counts s L) :
    Counts t fun pa => L pa + Call.live es pa := by
  induction h generalizing L with
  | nil s => simpa [Call.live] using hs
  | @cons s u t e es hst _ ih =>
    have := ih (counts_step hs hst.1 hst.2)
    simpa only [Call.live_cons e es, Int.add_assoc] using this

/-! ### Conservation -/

/-- `lists c` are the pages met on the free list of CPU `c`. -/
def Follows (s : Phys) (lists : Fin NCPU → List Nat) : Prop :=
  ∀ c, Chain s.next 0 (s.freelist c) (lists c)

/-- No page but `pa` is on another list, or on one more or less often. -/
def MovesOnly (pa : Nat) (lists lists' : Fin NCPU → List Nat) : Prop :=
  ∀ q ≠ pa, ∀ c, (lists' c).count q = (lists c).count q

/-- The managed pages are conserved in `s`, the state after the calls `es`, and by the next
call, whichever it is. -/
structure Conserved (es : List Call) (s : Phys) (lists : Fin NCPU → List Nat) : Prop where
  follows : Follows s lists
  free : ∀ pa, Managed pa → s.refcnt pa = 0 →
    ∃ c, (lists c).count pa = 1 ∧ ∀ d ≠ c, pa ∉ lists d
  used : ∀ pa, Managed pa → s.refcnt pa ≠ 0 → ∀ c, pa ∉ lists c
  kalloc : ∃ r t lists', Mm.kalloc s = .ok (r, t) ∧ Follows t lists' ∧
    (r = 0 ↔ ∀ c, lists c = []) ∧
    (r ≠ 0 → Managed r ∧ (∃ c, r ∈ lists c) ∧ (∀ c, r ∉ lists' c) ∧ t.refcnt r = 1) ∧
    MovesOnly r lists lists' ∧ ∀ q ≠ r, Managed q → t.refcnt q = s.refcnt q
  kfree : ∀ pa, Call.Allowed s (.kfree pa) → ∃ t lists', Mm.kfree pa s = .ok ((), t) ∧
    Follows t lists' ∧ ((∃ c, pa ∈ lists' c) ↔ Call.live es pa = 1) ∧
    MovesOnly pa lists lists'
  kaddrefcnt : ∀ pa, Call.Allowed s (.kaddrefcnt pa) →
    ∃ t, Mm.kaddrefcnt pa s = .ok (0, t) ∧ Follows t lists

omit [Layout] in
theorem movesOnly_cons : MovesOnly pa lists (update lists c (pa :: lists c)) := by
  intro q hq d
  by_cases hd : d = c
  · subst hd
    rw [update_self, List.count_cons_of_ne hq.symm]
  · rw [update_of_ne hd]

omit [Layout] in
theorem movesOnly_tail {l : List Nat} (h : lists c = pa :: l) :
    MovesOnly pa lists (update lists c l) := by
  intro q hq d
  by_cases hd : d = c
  · subst hd
    rw [update_self, h, List.count_cons_of_ne hq.symm]
  · rw [update_of_ne hd]

theorem conserved_kalloc (h : FreeLists Managed s lists) :
    ∃ r t lists', Mm.kalloc s = .ok (r, t) ∧ Follows t lists' ∧ (r = 0 ↔ ∀ c, lists c = []) ∧
      (r ≠ 0 → Managed r ∧ (∃ c, r ∈ lists c) ∧ (∀ c, r ∉ lists' c) ∧ t.refcnt r = 1) ∧
      MovesOnly r lists lists' ∧ ∀ q ≠ r, Managed q → t.refcnt q = s.refcnt q := by
  rcases kalloc_lists h with ⟨t, hk, hz, ht, _, hc⟩ | ⟨c, r, l, t, hk, hl, htook, ht⟩
  · refine ⟨0, t, lists, hk, ht.threads.chain, ⟨fun _ => hz, fun _ => rfl⟩,
      fun hne => absurd rfl hne, fun _ _ _ => rfl, fun q _ _ => ?_⟩
    rw [refcnt, refcnt, Phys.count, Phys.count, hc]
  have hmem : r ∈ lists c := hl ▸ List.mem_cons_self
  obtain ⟨hm, _⟩ := (h.mem_iff r).mp ⟨c, hmem⟩
  have hone : t.count r = 1 := by
    rw [count_update htook.cnt hm.1 hm.1, if_pos rfl]
  refine ⟨r, t, _, hk, ht.threads.chain, ⟨fun h0 => absurd h0 hm.pos, fun he => ?_⟩,
    fun _ => ⟨hm, ⟨c, hmem⟩, fun d hd => ?_, ?_⟩, movesOnly_tail hl, fun q hq hqm => ?_⟩
  · rw [he c] at hl
    cases hl
  · have := ((ht.mem_iff r).mp ⟨d, hd⟩).2
    rw [hone] at this
    cases this
  · rw [refcnt, hone]
    rfl
  · rw [refcnt, count_update htook.cnt hm.1 hqm.1, if_neg hq]
    rfl

theorem conserved_kfree {n : Int} (h : FreeLists Managed s lists)
    (ha : Call.Allowed s (.kfree pa)) (hn : n = (s.count pa).toNat) :
    ∃ t lists', Mm.kfree pa s = .ok ((), t) ∧
    Follows t lists' ∧ ((∃ c, pa ∈ lists' c) ↔ n = 1) ∧ MovesOnly pa lists lists' := by
  obtain ⟨hm, hpos⟩ := ha
  have hnz := count_ne_zero hpos
  rcases kfree_lists h hm hnz with ⟨hne, hk, ht⟩ | ⟨hone, c, t, hk, _, _, ht⟩
  · refine ⟨_, lists, hk, ht.threads.chain, ⟨fun ⟨c, hc⟩ => ?_, fun h1 => ?_⟩, fun _ _ _ => rfl⟩
    · exact absurd ((h.mem_iff pa).mp ⟨c, hc⟩).2 hnz
    · refine absurd (BitVec.eq_of_toNat_eq ?_) hne
      change _ = 1
      omega
  · refine ⟨t, _, hk, ht.threads.chain, ⟨fun _ => ?_, fun _ => ⟨c, by simp⟩⟩, movesOnly_cons⟩
    rw [hn, hone]
    rfl

/-- Physical pages are conserved over every history of calls. -/
theorem allocator_conserves_pages {page : Nat → Page} {cpus : Nat → Fin NCPU} {s₀ s : Phys}
    {es : List Call} (h₀ : kinit (Phys.boot page cpus) = .ok ((), s₀))
    (h : Run (Guarded Call.Allowed fun s e t => e.exec s = some t) s₀ es s) :
    ∃ lists, Conserved es s lists := by
  obtain ⟨t, ht, hz, hinit⟩ := kinit_spec page cpus
  rw [h₀] at ht
  cases ht
  have hstart : Counts s₀ fun _ => 0 := by
    refine ⟨hinit, fun pa _ => ?_⟩
    simp [Phys.count, hz]
  obtain ⟨⟨lists, hl⟩, hlive⟩ := counts_run h hstart
  refine ⟨lists, hl.threads.chain, fun pa hm h0 => ?_, fun pa hm h0 c hc => ?_,
    conserved_kalloc hl, fun pa ha => ?_, fun pa ha => ?_⟩
  · obtain ⟨c, hc⟩ := (hl.mem_iff pa).mpr ⟨hm, refcnt_eq_zero.mp h0⟩
    refine ⟨c, List.count_eq_one_of_mem (hl.threads.chain c).nodup hc, fun d hd hmem => ?_⟩
    exact hd (hl.threads.disjoint d c pa hmem hc)
  · exact h0 (refcnt_eq_zero.mpr ((hl.mem_iff pa).mp ⟨c, hc⟩).2)
  · have hn : 0 + Call.live es pa = (s.count pa).toNat := (hlive pa ha.1).1
    rw [Int.zero_add] at hn
    exact conserved_kfree hl ha hn
  · exact ⟨_, kaddrefcnt_spec ha.1, hl.threads.chain⟩

end

/-- A kernel that leaves two pages to the allocator. -/
@[reducible] def twoPages : Layout where
  kend := PHYSTOP - 2 * PGSIZE
  trampoline := KERNBASE
  kernbase_le := Nat.le_refl _
  trampoline_aligned := by decide
  trampoline_lt := by decide
  kend_le := by decide

/-- The machine with two pages, each call on the next CPU, when `kinit` is done. -/
def twoPagesBooted : Phys :=
  match @kinit twoPages (Phys.boot (fun _ _ => 0) fun n => Fin.ofNat NCPU n) with
  | .ok (_, t) => t
  | .error _ => Phys.boot (fun _ _ => 0) fun n => Fin.ofNat NCPU n

/-- A page is taken, shared, dropped twice and taken again. -/
def sharedPageCalls : List Call :=
  let p := PHYSTOP - PGSIZE
  [.kalloc (p - PGSIZE), .kaddrefcnt (p - PGSIZE), .kalloc p, .kalloc 0, .kfree (p - PGSIZE),
    .kfree (p - PGSIZE), .kalloc (p - PGSIZE)]

theorem allocator_conserves_sharedPageCalls : let := twoPages
    kinit (Phys.boot (fun _ _ => 0) fun n => Fin.ofNat NCPU n) = .ok ((), twoPagesBooted) ∧
      ∃ s, Run (Guarded Call.Allowed fun s e t => e.exec s = some t) twoPagesBooted
        sharedPageCalls s ∧ ∃ lists, Conserved sharedPageCalls s lists := by
  let := twoPages
  have h0 : kinit (boot (fun _ _ => 0) fun n => Fin.ofNat NCPU n) = .ok ((), twoPagesBooted) := by
    obtain ⟨s0, h0, -⟩ := kinit_spec (fun _ _ => 0) fun n => Fin.ofNat NCPU n
    rw [twoPagesBooted, h0]
  have hrun : (sharedPageCalls.foldlM (fun s e => if Call.Allowed s e then e.exec s else none)
      twoPagesBooted).isSome := by decide +kernel
  obtain ⟨s, hs⟩ := Option.isSome_iff_exists.mp hrun
  have hr := Run.of_foldlM hs
  exact ⟨h0, s, hr, allocator_conserves_pages h0 hr⟩

end Yyds.Mm
