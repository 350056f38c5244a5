import Yyds.Mm.Kalloc

/-! Conservation of physical pages: the managed pages with count 0 are exactly the pages on
the free lists, each on one list. -/
namespace Yyds.Mm

open Lib Kern Layout Function Phys

variable {s t : Phys} {lists : Fin NCPU → List Nat} {region : Nat → Prop} {pa r : Nat}
  {c : Fin NCPU} {l : List Nat}

/-- The lists `lists` are threaded through memory, and hold exactly the pages of `region`
whose count is 0. -/
structure FreeLists (region : Nat → Prop) (s : Phys) (lists : Fin NCPU → List Nat) : Prop where
  threads : Threads s.next 0 s.freelist lists
  mem_iff : ∀ pa, (∃ c, pa ∈ lists c) ↔ region pa ∧ s.count pa = 0

namespace FreeLists

/-- Pages that are not free may change in any way. -/
theorem congr (h : FreeLists region s lists) (hf : t.freelist = s.freelist)
    (hcnt : ∀ q, region q → (t.count q = 0 ↔ s.count q = 0))
    (hpage : ∀ q, region q → s.count q = 0 → t.page q = s.page q) : FreeLists region t lists := by
  refine ⟨?_, fun q => ?_⟩
  · rw [hf]
    refine h.threads.congr ?_
    intro c b hb
    obtain ⟨hr, hz⟩ := (h.mem_iff b).mp ⟨c, hb⟩
    exact next_congr (hpage b hr hz)
  · rw [h.mem_iff]
    exact ⟨fun ⟨hr, hz⟩ => ⟨hr, (hcnt q hr).mpr hz⟩, fun ⟨hr, hz⟩ => ⟨hr, (hcnt q hr).mp hz⟩⟩

end FreeLists

/-! ### What `kalloc` does -/

/-- `t` is `s` with the page `r` taken off the list of `c`. -/
structure Took (s : Phys) (c : Fin NCPU) (r : Nat) (t : Phys) : Prop where
  page : ∀ q ≠ r, t.page q = s.page q
  cnt : t.cnt = update s.cnt (r / PGSIZE) 1
  freelist : t.freelist = update s.freelist c (s.next r)
  junk : t.page r = fun _ => junk5

theorem steal_spec (id : Fin NCPU) (cs : List (Fin NCPU)) (s : Phys) :
    (steal id cs s = .ok (0, s) ∧ ∀ c ∈ cs, c ≠ id → s.freelist c = 0) ∨
    ∃ c t, steal id cs s = .ok (s.freelist c, t) ∧ s.freelist c ≠ 0 ∧
      t = (s.setHead c (s.next (s.freelist c))).setCnt (s.freelist c) 1 := by
  induction cs with
  | nil => exact .inl ⟨rfl, by simp⟩
  | cons antid rest ih =>
    rw [steal]
    by_cases hid : antid = id
    · rw [if_pos hid]
      exact ih.imp_left fun h => ⟨h.1, List.forall_mem_cons.mpr ⟨absurd hid, h.2⟩⟩
    · rw [if_neg hid, get_bind_apply]
      by_cases hz : s.freelist antid = 0
      · rw [if_neg (not_not.mpr hz)]
        exact ih.imp_left fun h => ⟨h.1, List.forall_mem_cons.mpr ⟨fun _ => hz, h.2⟩⟩
      · rw [if_pos hz]
        exact .inr ⟨antid, _, rfl, hz, rfl⟩

theorem popRun_spec (id : Fin NCPU) (s : Phys) :
    (popRun id s = .ok (0, s) ∧ ∀ c, s.freelist c = 0) ∨
    ∃ c t, popRun id s = .ok (s.freelist c, t) ∧ s.freelist c ≠ 0 ∧
      t = (s.setHead c (s.next (s.freelist c))).setCnt (s.freelist c) 1 := by
  rw [popRun, get_bind_apply]
  by_cases hz : s.freelist id = 0
  · rw [if_neg (not_not.mpr hz)]
    rcases steal_spec id (List.finRange NCPU) s with ⟨h, hall⟩ | hsome
    · refine .inl ⟨h, fun c => ?_⟩
      by_cases hc : c = id
      · rw [hc, hz]
      · exact hall c (List.mem_finRange c) hc
    · exact .inr hsome
  · rw [if_pos hz]
    exact .inr ⟨id, _, rfl, hz, rfl⟩

/-- `kalloc` finds every list empty, or takes the first page of some list. -/
theorem kalloc_cases (s : Phys) :
    (∃ t, kalloc s = .ok (0, t) ∧ (∀ c, s.freelist c = 0) ∧
      t.page = s.page ∧ t.cnt = s.cnt ∧ t.freelist = s.freelist) ∨
    ∃ c t, kalloc s = .ok (s.freelist c, t) ∧ s.freelist c ≠ 0 ∧ Took s c (s.freelist c) t := by
  let s1 : Phys := { s with cpus := fun n => s.cpus (n + 1) }
  have hid : cpuid s = .ok (s.cpus 0, s1) := rfl
  rw [kalloc, bind_of_ok hid]
  rcases popRun_spec (s.cpus 0) s1 with ⟨h, hall⟩ | ⟨c, t, h, hc, rfl⟩
  · refine .inl ⟨s1, ?_, hall, rfl, rfl, rfl⟩
    rw [bind_of_ok h]
    rfl
  · let u := (s1.setHead c (s1.next (s1.freelist c))).setCnt (s1.freelist c) 1
    refine .inr ⟨c, u.setPage (s.freelist c) fun _ => junk5, ?_, hc, ?_⟩
    · rw [bind_of_ok h, when_pos hc]
      rfl
    · exact ⟨fun q hq => update_of_ne hq _ _, rfl, rfl, update_self _ _ _⟩

theorem pushRun_spec (r : Nat) (s : Phys) : ∃ c t, pushRun r s = .ok ((), t) ∧
    t.next r = s.freelist c % 2 ^ 64 ∧ (∀ q ≠ r, t.page q = s.page q) ∧ t.cnt = s.cnt ∧
    t.freelist = update s.freelist c r := by
  refine ⟨s.cpus 0, _, rfl, ?_, ?_, rfl, rfl⟩
  · simp [next]
  · intro q hq
    exact update_of_ne hq _ _

theorem FreeLists.head_lt (h : FreeLists region s lists) (hr : ∀ q, region q → q < 2 ^ 64)
    (c : Fin NCPU) : s.freelist c < 2 ^ 64 := by
  by_cases hz : s.freelist c = 0
  · omega
  · obtain ⟨l, hl⟩ := h.threads.exists_cons hz
    exact hr _ ((h.mem_iff _).mp ⟨c, hl ▸ List.mem_cons_self⟩).1

theorem mem_update_cons (a q : Nat) (c : Fin NCPU) :
    (∃ d, q ∈ update lists c (a :: lists c) d) ↔ q = a ∨ ∃ d, q ∈ lists d := by
  refine ⟨?_, ?_⟩
  · rintro ⟨d, hd⟩
    by_cases hdc : d = c
    · subst hdc
      rw [update_self] at hd
      rcases List.mem_cons.mp hd with rfl | hd
      · exact .inl rfl
      · exact .inr ⟨d, hd⟩
    · rw [update_of_ne hdc] at hd
      exact .inr ⟨d, hd⟩
  · rintro (rfl | ⟨d, hd⟩)
    · exact ⟨c, by simp⟩
    · refine ⟨d, ?_⟩
      by_cases hdc : d = c
      · subst hdc
        rw [update_self]
        exact List.mem_cons_of_mem _ hd
      · rwa [update_of_ne hdc]

variable [Layout]

theorem Managed.pos (h : Managed pa) : pa ≠ 0 := by
  have h2 := trampoline_lt
  have h3 := h.2.1
  omega

theorem Managed.lt (h : Managed pa) : pa < 2 ^ 64 := Nat.lt_trans h.2.2 (by decide)

/-- The allocator is in order: its lists hold exactly the managed pages with count 0. -/
def AllocInv (s : Phys) : Prop := ∃ lists, FreeLists Managed s lists

theorem FreeLists.take (h : FreeLists Managed s lists) (hl : lists c = r :: l) (ht : Took s c r t) :
    FreeLists Managed t (update lists c l) := by
  have hr := (h.mem_iff r).mp ⟨c, hl ▸ List.mem_cons_self⟩
  have hnd : r ∉ l := by
    have := (h.threads.chain c).nodup
    rw [hl] at this
    exact (List.nodup_cons.mp this).1
  have hmem : ∀ q, (∃ d, q ∈ update lists c l d) ↔ q ≠ r ∧ ∃ d, q ∈ lists d := by
    intro q
    refine ⟨?_, ?_⟩
    · rintro ⟨d, hd⟩
      by_cases hdc : d = c
      · subst hdc
        rw [update_self] at hd
        exact ⟨fun he => hnd (he ▸ hd), d, hl ▸ List.mem_cons_of_mem _ hd⟩
      · rw [update_of_ne hdc] at hd
        refine ⟨fun he => hdc ?_, d, hd⟩
        subst he
        exact h.threads.disjoint d c q hd (hl ▸ List.mem_cons_self)
    · rintro ⟨hne, d, hd⟩
      refine ⟨d, ?_⟩
      by_cases hdc : d = c
      · subst hdc
        rw [hl] at hd
        rw [update_self]
        exact (List.mem_cons.mp hd).resolve_left hne
      · rwa [update_of_ne hdc]
  refine ⟨?_, fun q => ?_⟩
  · rw [ht.freelist]
    refine (h.threads.pop hl).congr ?_
    intro d b hb
    exact next_congr (ht.page b ((hmem b).mp ⟨d, hb⟩).1)
  · rw [hmem, h.mem_iff]
    refine ⟨?_, ?_⟩
    · rintro ⟨hne, hm, hz⟩
      rw [count_update ht.cnt hr.1.1 hm.1, if_neg hne]
      exact ⟨hm, hz⟩
    · rintro ⟨hm, hz⟩
      rw [count_update ht.cnt hr.1.1 hm.1] at hz
      by_cases hne : q = r
      · rw [if_pos hne] at hz
        cases hz
      · rw [if_neg hne] at hz
        exact ⟨hne, hm, hz⟩

theorem kalloc_lists (h : FreeLists Managed s lists) :
    (∃ t, kalloc s = .ok (0, t) ∧ (∀ c, lists c = []) ∧ FreeLists Managed t lists ∧
      t.page = s.page ∧ t.cnt = s.cnt) ∨
    ∃ c r l t, kalloc s = .ok (r, t) ∧ lists c = r :: l ∧ Took s c r t ∧
      FreeLists Managed t (update lists c l) := by
  rcases kalloc_cases s with ⟨t, hk, hz, hp, hc, hf⟩ | ⟨c, t, hk, hne, ht⟩
  · refine .inl ⟨t, hk, h.threads.empty_iff.mp hz, h.congr hf ?_ ?_, hp, hc⟩
    · intro q _
      rw [Phys.count, Phys.count, hc]
    · intro q _ _
      rw [hp]
  · obtain ⟨l, hl⟩ := h.threads.exists_cons hne
    exact .inr ⟨c, _, l, t, hk, hl, ht, h.take hl ht⟩

/-! ### What `kfree` does -/

theorem Managed.not_bad (hm : Managed pa) : ¬ (pa % PGSIZE ≠ 0 ∨ pa < kend ∨ pa ≥ PHYSTOP) := by
  obtain ⟨h1, h2, h3⟩ := hm
  omega

theorem kfree_last (h : FreeLists region s lists) (hr : ∀ q, region q → q < 2 ^ 64)
    (hfresh : ∀ d, pa ∉ lists d) (hm : Managed pa) (hone : s.count pa = 1) :
    ∃ c t, kfree pa s = .ok ((), t) ∧ (∀ q ≠ pa, t.page q = s.page q) ∧
      t.cnt = update s.cnt (pa / PGSIZE) 0 ∧
      Threads t.next 0 t.freelist (update lists c (pa :: lists c)) := by
  let s1 : Phys := (s.setCnt pa (s.cnt (pa / PGSIZE) - 1)).setPage pa fun _ => junk1
  have hzero : s.cnt (pa / PGSIZE) - 1 = 0 := by
    rw [show s.cnt (pa / PGSIZE) = 1 from hone]
    rfl
  obtain ⟨c, t, hpush, hnext, hpage, hcnt, hhead⟩ := pushRun_spec pa s1
  refine ⟨c, t, ?_, ?_, ?_, ?_⟩
  · rw [kfree, when_neg hm.not_bad, pure_bind_apply, modify_bind_apply, get_bind_apply,
      when_pos (by rw [setCnt_cnt, update_self]; exact hzero)]
    exact hpush
  · intro q hq
    rw [hpage q hq]
    exact update_of_ne hq _ _
  · rw [hcnt]
    change update s.cnt (pa / PGSIZE) (s.cnt (pa / PGSIZE) - 1) = _
    rw [hzero]
  · rw [hhead]
    refine h.threads.push hm.pos hfresh ?_ ?_
    · rw [hnext]
      exact Nat.mod_eq_of_lt (h.head_lt hr c)
    · intro b hb
      refine next_congr ?_
      rw [hpage b hb]
      exact update_of_ne hb _ _

theorem kfree_not_last (hm : Managed pa) (hne : s.count pa ≠ 1) :
    kfree pa s = .ok ((), s.setCnt pa (s.count pa - 1)) := by
  have hnz : s.count pa - 1 ≠ 0 := by
    intro h
    exact hne (by rw [← BitVec.sub_add_cancel (s.count pa) 1, h]; rfl)
  rw [kfree, when_neg hm.not_bad, pure_bind_apply, modify_bind_apply, get_bind_apply,
    when_neg (by rw [setCnt_cnt, update_self]; exact hnz)]
  rfl

theorem kfree_lists (h : FreeLists Managed s lists) (hm : Managed pa) (hnz : s.count pa ≠ 0) :
    (s.count pa ≠ 1 ∧ kfree pa s = .ok ((), s.setCnt pa (s.count pa - 1)) ∧
      FreeLists Managed (s.setCnt pa (s.count pa - 1)) lists) ∨
    (s.count pa = 1 ∧ ∃ c t, kfree pa s = .ok ((), t) ∧ (∀ q ≠ pa, t.page q = s.page q) ∧
      t.cnt = update s.cnt (pa / PGSIZE) 0 ∧
      FreeLists Managed t (update lists c (pa :: lists c))) := by
  have hfresh : ∀ d, pa ∉ lists d := fun d hd => hnz ((h.mem_iff pa).mp ⟨d, hd⟩).2
  by_cases hone : s.count pa = 1
  · obtain ⟨c, t, hk, hp, hc, hth⟩ := kfree_last h (fun _ hq => hq.lt) hfresh hm hone
    refine .inr ⟨hone, c, t, hk, hp, hc, hth, fun q => ?_⟩
    rw [mem_update_cons, h.mem_iff]
    refine ⟨?_, ?_⟩
    · rintro (rfl | ⟨hq, hz⟩)
      · exact ⟨hm, by rw [count_update hc hm.1 hm.1, if_pos rfl]⟩
      · rw [count_update hc hm.1 hq.1, hz, ite_self]
        exact ⟨hq, rfl⟩
    · rintro ⟨hq, hz⟩
      by_cases he : q = pa
      · exact .inl he
      · rw [count_update hc hm.1 hq.1, if_neg he] at hz
        exact .inr ⟨hq, hz⟩
  · have hk := kfree_not_last hm hone
    refine .inl ⟨hone, hk, h.congr rfl ?_ fun _ _ _ => rfl⟩
    intro q hq
    rw [count_update (setCnt_cnt _ _ _) hm.1 hq.1]
    by_cases he : q = pa
    · subst he
      rw [if_pos rfl]
      refine ⟨fun h0 => absurd ?_ hone, fun h0 => absurd h0 hnz⟩
      rw [← BitVec.sub_add_cancel (s.count q) 1, h0]
      rfl
    · rw [if_neg he]

/-! ### The allocator as its callers see it -/

/-- No page is free. -/
def Full (s : Phys) : Prop := ∀ q, Managed q → s.count q ≠ 0

theorem Full.congr (h : Full s) (hc : t.cnt = s.cnt) : Full t := by
  intro q hq
  rw [Phys.count, hc]
  exact h q hq

theorem kalloc_spec (h : AllocInv s) : ∃ r t, kalloc s = .ok (r, t) ∧ AllocInv t ∧
    ((r = 0 ∧ t.page = s.page ∧ t.cnt = s.cnt ∧ Full s) ∨
      (Managed r ∧ s.count r = 0 ∧ (∀ q ≠ r, t.page q = s.page q) ∧
        t.cnt = update s.cnt (r / PGSIZE) 1)) := by
  obtain ⟨lists, hl⟩ := h
  rcases kalloc_lists hl with ⟨t, hk, hz, ht, hp, hc⟩ | ⟨c, r, l, t, hk, hcons, htook, ht⟩
  · refine ⟨0, t, hk, ⟨lists, ht⟩, .inl ⟨rfl, hp, hc, fun q hq h0 => ?_⟩⟩
    obtain ⟨c, hc⟩ := (hl.mem_iff q).mpr ⟨hq, h0⟩
    rw [hz c] at hc
    cases hc
  · obtain ⟨hm, h0⟩ := (hl.mem_iff r).mp ⟨c, hcons ▸ List.mem_cons_self⟩
    exact ⟨r, t, hk, ⟨_, ht⟩, .inr ⟨hm, h0, htook.page, htook.cnt⟩⟩

theorem kfree_spec (h : AllocInv s) (hm : Managed pa) (hnz : s.count pa ≠ 0) :
    ∃ t, kfree pa s = .ok ((), t) ∧ AllocInv t ∧ (∀ q ≠ pa, t.page q = s.page q) ∧
      t.cnt = update s.cnt (pa / PGSIZE) (s.count pa - 1) ∧
      (s.count pa ≠ 1 → t.page = s.page) := by
  obtain ⟨lists, hl⟩ := h
  rcases kfree_lists hl hm hnz with ⟨hne, hk, ht⟩ | ⟨hone, c, t, hk, hp, hc, ht⟩
  · exact ⟨_, hk, ⟨lists, ht⟩, fun _ _ => rfl, rfl, fun _ => rfl⟩
  · refine ⟨t, hk, ⟨_, ht⟩, hp, ?_, fun hne => absurd hone hne⟩
    rw [hc, hone]
    rfl

theorem kaddrefcnt_spec (hm : Managed pa) :
    kaddrefcnt pa s = .ok (0, s.setCnt pa (s.count pa + 1)) := by
  rw [kaddrefcnt, if_neg hm.not_bad]
  rfl

/-- Writing to a page in use, or to memory the allocator does not manage. -/
theorem AllocInv.setPage (h : AllocInv s) {p : Page} (hpa : Managed pa → s.count pa ≠ 0) :
    AllocInv (s.setPage pa p) := by
  obtain ⟨lists, hl⟩ := h
  refine ⟨lists, hl.congr rfl (fun _ _ => Iff.rfl) ?_⟩
  intro q hq hz
  have hne : q ≠ pa := by
    rintro rfl
    exact hpa hq hz
  exact update_of_ne hne _ _

theorem AllocInv.setCnt (h : AllocInv s) {v : BitVec 32} (hm : Managed pa)
    (hnz : s.count pa ≠ 0) (hv : v ≠ 0) : AllocInv (s.setCnt pa v) := by
  obtain ⟨lists, hl⟩ := h
  refine ⟨lists, hl.congr rfl ?_ fun _ _ _ => rfl⟩
  intro q hq
  rw [count_update (setCnt_cnt _ _ _) hm.1 hq.1]
  by_cases he : q = pa
  · subst he
    rw [if_pos rfl]
    exact ⟨fun h0 => absurd h0 hv, fun h0 => absurd h0 hnz⟩
  · rw [if_neg he]

/-! ### `kinit` -/

/-- Page addresses from `lo` up to `p`. -/
def Between (lo p q : Nat) : Prop := q % PGSIZE = 0 ∧ lo ≤ q ∧ q < p

theorem freerangeFrom_spec {lo : Nat} (n : Nat) {p : Nat} {s : Phys}
    (hp : p % PGSIZE = 0) (hlo : kend ≤ lo) (hlop : lo ≤ p) (hn : p + n * PGSIZE ≤ PHYSTOP)
    (h : FreeLists (Between lo p) s lists) (hz : s.cnt = fun _ => 0) :
    ∃ t lists', freerangeFrom n p s = .ok ((), t) ∧ t.cnt = (fun _ => 0) ∧
      FreeLists (Between lo (p + n * PGSIZE)) t lists' := by
  induction n generalizing p s lists with
  | zero => exact ⟨s, lists, rfl, hz, by simpa using h⟩
  | succ n ih =>
    have hm : Managed p := ⟨hp, Nat.le_trans hlo hlop, by simp only [PGSIZE] at *; omega⟩
    let s1 := s.setCnt p 1
    have h1 : FreeLists (Between lo p) s1 lists := by
      refine h.congr rfl ?_ fun _ _ _ => rfl
      intro q hq
      rw [count_update (setCnt_cnt _ _ _) hp hq.1, if_neg (Nat.ne_of_lt hq.2.2)]
    have hfresh : ∀ d, p ∉ lists d := by
      intro d hd
      exact absurd ((h.mem_iff p).mp ⟨d, hd⟩).1.2.2 (Nat.lt_irrefl p)
    have hone : s1.count p = 1 := by
      rw [count_update (setCnt_cnt _ _ _) hp hp, if_pos rfl]
    have hsmall : ∀ q, Between lo p q → q < 2 ^ 64 := by
      intro q hq
      exact Nat.lt_trans hq.2.2 hm.lt
    obtain ⟨c, t, hk, hpage, hcnt, hth⟩ := kfree_last h1 hsmall hfresh hm hone
    have hcnt' : t.cnt = fun _ => 0 := by
      rw [hcnt, setCnt_cnt, update_idem, hz]
      exact update_eq_self (f := fun _ => (0 : BitVec 32)) _
    have ht : FreeLists (Between lo (p + PGSIZE)) t (update lists c (p :: lists c)) := by
      refine ⟨hth, fun q => ?_⟩
      have hzero : ∀ u : Phys, u.cnt = (fun _ => 0) → u.count q = 0 := by
        intro u hu
        rw [Phys.count, hu]
      rw [mem_update_cons, h.mem_iff]
      simp only [hzero s hz, hzero t hcnt', Between, and_true, PGSIZE] at *
      omega
    have hp' : (p + PGSIZE) % PGSIZE = 0 := by
      simp only [PGSIZE] at *
      omega
    have hn' : p + PGSIZE + n * PGSIZE ≤ PHYSTOP := by
      simp only [PGSIZE] at *
      omega
    obtain ⟨u, lists', hu, huz, hul⟩ := ih hp' (by omega) hn' ht hcnt'
    refine ⟨u, lists', ?_, huz, ?_⟩
    · rw [freerangeFrom, modify_bind_apply, bind_of_ok hk]
      exact hu
    · have he : p + (n + 1) * PGSIZE = p + PGSIZE + n * PGSIZE := by
        simp only [PGSIZE]
        omega
      rw [he]
      exact hul

theorem kinit_spec (page : Nat → Page) (cpus : Nat → Fin NCPU) :
    ∃ t, kinit (boot page cpus) = .ok ((), t) ∧ t.cnt = (fun _ => 0) ∧ AllocInv t := by
  have hle := kend_le
  have hup : PGROUNDUP kend % PGSIZE = 0 ∧ kend ≤ PGROUNDUP kend ∧
      PGROUNDUP kend < kend + PGSIZE ∧ PGROUNDUP kend ≤ PHYSTOP := by
    simp only [PGROUNDUP, PGSIZE, PHYSTOP_eq] at *
    omega
  have hempty : FreeLists (Between (PGROUNDUP kend) (PGROUNDUP kend)) (boot page cpus)
      fun _ => [] := by
    refine ⟨⟨fun _ => .nil, by simp⟩, fun q => ?_⟩
    simp only [List.not_mem_nil, exists_false, Between, false_iff]
    omega
  obtain ⟨t, lists, ht, hz, hl⟩ := freerangeFrom_spec ((PHYSTOP - PGROUNDUP kend) / PGSIZE)
    hup.1 hup.2.1 (Nat.le_refl _) (by simp only [PGSIZE] at *; omega) hempty rfl
  refine ⟨t, ht, hz, lists, hl.threads, fun q => ?_⟩
  have hregion : Between (PGROUNDUP kend)
      (PGROUNDUP kend + (PHYSTOP - PGROUNDUP kend) / PGSIZE * PGSIZE) q ↔ Managed q := by
    simp only [Between, Managed, PGSIZE, PHYSTOP_eq] at *
    omega
  rw [hl.mem_iff, hregion]

end Yyds.Mm
