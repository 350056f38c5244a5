import Yyds.Mm.UvmSpec

/-! How many free pages the routines of `vm.c` need in order not to run out of memory. -/
namespace Yyds.Mm

open Lib Kern Layout Function

variable [Layout] {s s' : Phys} {root : TableId → Nat} {own : Nat → Owner} {p : TableId}
  {path : List (Fin 512)} {t r n va level : Nat}

/-- There are `n` free pages. -/
def Enough (s : Phys) (n : Nat) : Prop :=
  ∃ l : List Nat, l.Nodup ∧ l.length = n ∧ ∀ q ∈ l, Managed q ∧ s.count q = 0

namespace Enough

theorem congr (h : Enough s n) (hc : s'.cnt = s.cnt) : Enough s' n := by
  obtain ⟨l, hl, hn, hfree⟩ := h
  refine ⟨l, hl, hn, fun q hq => ⟨(hfree q hq).1, ?_⟩⟩
  rw [Phys.count, hc]
  exact (hfree q hq).2

theorem not_full (h : Enough s (n + 1)) : ¬ Full s := by
  obtain ⟨l, _, hn, hfree⟩ := h
  intro hfull
  cases l with
  | nil => cases hn
  | cons q l => exact hfull q (hfree q (by simp)).1 (hfree q (by simp)).2

theorem take (h : Enough s (n + 1)) (hm : Managed r)
    (hc : s'.cnt = update s.cnt (r / PGSIZE) 1) : Enough s' n := by
  obtain ⟨l, hl, hn, hfree⟩ := h
  refine ⟨(l.erase r).take n, (hl.erase r).sublist (List.take_sublist _ _), ?_, ?_⟩
  · have hle : n ≤ (l.erase r).length := by
      by_cases hr : r ∈ l
      · rw [List.length_erase_of_mem hr]
        omega
      · rw [List.erase_of_not_mem hr]
        omega
    rw [List.length_take]
    omega
  · intro q hq
    have hq' := List.mem_of_mem_take hq
    obtain ⟨hmq, hz⟩ := hfree q (List.mem_of_mem_erase hq')
    refine ⟨hmq, ?_⟩
    rw [Space.count_kept hm hc hmq, hz]
    rintro rfl
    exact (hl.not_mem_erase) hq'

theorem mono {k : Nat} (h : Enough s n) (hk : k ≤ n) : Enough s k := by
  obtain ⟨l, hl, hn, hfree⟩ := h
  refine ⟨l.take k, hl.sublist (List.take_sublist _ _), ?_, ?_⟩
  · rw [List.length_take]
    omega
  · exact fun q hq => hfree q (List.mem_of_mem_take hq)

theorem kalloc (h : Enough s (n + 1)) (ha : AllocInv s) (hk : Mm.kalloc s = .ok (r, s')) :
    r ≠ 0 ∧ Enough s' n := by
  obtain ⟨r', t, hk', _, hcase⟩ := kalloc_spec ha
  rw [hk] at hk'
  cases hk'
  rcases hcase with ⟨_, _, _, hfull⟩ | ⟨hm, _, _, hc⟩
  · exact absurd hfull h.not_full
  · exact ⟨hm.pos, h.take hm hc⟩

end Enough

/-- `walk` takes at most a page for each level that it goes down. -/
theorem Space.walkFrom_enough (h : Space s root own) (ht : own t = .table p path)
    (hlen : path.length + level = 2) (he : Enough s (n + level)) {x : Option PtePtr}
    (hw : walkFrom va true level t s = .ok (x, s')) : x ≠ none ∧ Enough s' n := by
  induction level generalizing t path s own with
  | zero =>
    cases hw
    exact ⟨by simp, he⟩
  | succ level ih =>
    rw [walkFrom, get_bind_apply] at hw
    by_cases hv : has (s.pte (t, PX (level + 1) va)) PTE_V
    · obtain ⟨t', ht', hpte⟩ := h.entry t p path _ ht (by omega) hv
      rw [if_pos hv, hpte, pte2pa (h.table _ _ _ ht').1] at hw
      exact ih h ht' (by simp; omega) (he.mono (by omega)) hw
    rw [if_neg hv, if_neg (by decide)] at hw
    obtain ⟨r, s1, hk, hcase⟩ := h.kalloc
    obtain ⟨hr0, he1⟩ := Enough.kalloc he h.alloc hk
    rw [bind_of_ok hk, if_neg hr0] at hw
    rcases hcase with ⟨hr, _⟩ | ⟨_, _, hu, hp, _, h1⟩
    · exact absurd hr hr0
    have htr : t ≠ r := by
      rintro rfl
      rw [ht] at hu
      cases hu
    have ht1 : update own r .held t = .table p path := by
      rw [update_of_ne htr, ht]
    have hv1 : has (s1.pte (t, PX (level + 1) va)) PTE_V = false := by
      rw [Phys.pte_congr (hp t htr)]
      simpa using hv
    have h2 := h1.addTable ht1 (by omega) hv1 (update_self r Owner.held own)
    exact ih h2 (update_self _ _ _) (by simp; omega) (he1.congr rfl) hw

variable {pa : Nat} {perm : Word} {e : Int}

theorem Space.mappages_enough (h : Space s root own) (hp : root p ≠ 0) (hva : va < MAXVA)
    (hal : va % PGSIZE = 0) (he : Enough s (n + 2))
    (hm : mappages (root p) va PGSIZE pa perm s = .ok (e, s')) : e = 0 ∧ Enough s' n := by
  rw [mappages_eq hva hal, mappagesFrom, walk_eq hva] at hm
  obtain ⟨x, s1, hw, hrest⟩ := bind_ok hm
  obtain ⟨hx, he1⟩ := h.walkFrom_enough (h.root_own p hp) rfl he hw
  cases x with
  | none => exact absurd rfl hx
  | some x =>
    simp only [get_bind_apply] at hrest
    by_cases hv : has (s1.pte x) PTE_V
    · rw [when_pos hv] at hrest
      cases hrest
    · rw [when_neg hv] at hrest
      cases hrest
      exact ⟨rfl, he1.congr rfl⟩

theorem Space.mapOrFree_enough (h : Space s root own) (hp : root p ≠ 0) (hva : va < MAXVA)
    (hal : va % PGSIZE = 0) (he : Enough s (n + 2))
    (hm : mapOrFree (root p) va pa perm s = .ok (e, s')) : e = 0 ∧ Enough s' n := by
  obtain ⟨e', s1, hmap, hrest⟩ := bind_ok hm
  obtain ⟨rfl, he1⟩ := h.mappages_enough hp hva hal he hmap
  cases hrest
  exact ⟨rfl, he1⟩

/-! ### Out of memory -/

/-- Without free pages before, without free pages after. -/
def StaysFull (s s' : Phys) : Prop := AllocInv s → Full s → AllocInv s' ∧ Full s'

instance : IsPreorder Phys StaysFull where
  refl _ ha hf := ⟨ha, hf⟩
  trans _ _ _ h₁ h₂ ha hf := by
    obtain ⟨ha₁, hf₁⟩ := h₁ ha hf
    exact h₂ ha₁ hf₁

theorem setPage_staysFull (f : Phys → Nat × Page) :
    Moves StaysFull (Kern.modify fun s => s.setPage (f s).1 (f s).2) :=
  .modify fun _ ha hf => ⟨ha.setPage fun hm => hf _ hm, hf⟩

/-- Without memory, only the branch for the null pointer matters. -/
theorem kalloc_staysFull {α : Type} {f : Nat → Kern Phys α} (h : Moves StaysFull (f 0)) :
    Moves StaysFull (kalloc >>= f) := by
  intro s a s' hx ha hf
  obtain ⟨r, s1, hk, hrest⟩ := bind_ok hx
  obtain ⟨r', t, hk', ha1, hcase⟩ := kalloc_spec ha
  rw [hk] at hk'
  cases hk'
  rcases hcase with ⟨rfl, _, hc, _⟩ | ⟨hm, hz, _⟩
  · exact h s1 a s' hrest ha1 (hf.congr hc)
  · exact absurd hz (hf _ hm)

section
omit [Layout]

theorem walk_read (pagetable va : Nat) : Calm Eq "walk" (walk pagetable va false) := by
  refine .bind (.when .panic) fun _ => ?_
  generalize hlev : 2 = level
  clear hlev
  induction level generalizing pagetable with
  | zero => exact .pure _
  | succ level ih =>
    refine .bind .get fun s => ?_
    split
    · exact ih _
    · exact .pure _

theorem walkaddr_read (pagetable va : Nat) : Calm Eq "walk" (walkaddr pagetable va) := by
  rw [walkaddr]
  split
  · exact .pure _
  refine .bind (walk_read _ _) fun x => ?_
  cases x with
  | none => exact .pure _
  | some x =>
    refine .bind .get fun s => ?_
    split
    · exact .pure _
    · split <;> exact .pure _

theorem cowpage_read (pagetable va : Nat) : Calm Eq "walk" (cowpage pagetable va) := by
  rw [cowpage]
  split
  · exact .pure _
  refine .bind (walk_read _ _) fun x => ?_
  cases x with
  | none => exact .pure _
  | some x =>
    refine .bind .get fun s => ?_
    split <;> exact .pure _

end

theorem cowalloc_staysFull (pagetable va : Nat) : Moves StaysFull (cowalloc pagetable va) := by
  rw [cowalloc]
  split
  · exact .pure _
  refine .bind (walkaddr_read _ _).1.of_eq fun pa => ?_
  split
  · exact .pure _
  refine .bind (walk_read _ _).1.of_eq fun x => ?_
  cases x with
  | none => exact .pure _
  | some x =>
    refine .bind (.bind .get fun s => .pure _) fun n => ?_
    split
    · exact .bind (setPage_staysFull fun s => (x.1, _)) fun _ =>
        .bind (setPage_staysFull fun s => (x.1, _)) fun _ => .pure _
    · exact kalloc_staysFull (.pure _)

theorem copyout_staysFull (pagetable va : Nat) (src : List Byte) :
    Moves StaysFull (copyout pagetable va src) := by
  rw [copyout]
  generalize src.length = fuel
  induction fuel generalizing va src with
  | zero =>
    cases src with
    | nil => exact .pure _
    | cons b bs => exact .pure _
  | succ fuel ih =>
    cases src with
    | nil => exact .pure _
    | cons b bs =>
      refine .bind (.bind (walkaddr_read _ _).1.of_eq fun pa =>
        .bind (cowpage_read _ _).1.of_eq fun c => ?_) fun pa => ?_
      · split
        · exact cowalloc_staysFull _ _
        · exact .pure _
      · split
        · exact .pure _
        · exact .bind (setPage_staysFull fun s => (pa, _)) fun _ => ih _ _

end Yyds.Mm
