import Yyds.Kernel.Access
import Yyds.Mm.Bytes

/-! User memory as plain bytes: what `copyin` and `copyout` do to pages that a process can read
and write. -/
namespace Yyds.Kernel

open Lib Kern Mm Function Routine

/-- The byte that a process sees at `a`, zero where it has no page. -/
def visible (m : Memory) (a : Nat) : Byte := if a < MAXVA then (m.read a).getD 0 else 0

/-- The pages from `lo` up to `hi` are open to the process for reading. -/
def Readable (m : Memory) (lo hi : Nat) : Prop :=
  ∀ a, lo ≤ a → a < hi → a < TRAPFRAME ∧ ∃ e, m (slot a) = some e ∧ has e.1 PTE_U

/-- The pages from `lo` up to `hi` are open to the process. -/
def Ready (m : Memory) (lo hi : Nat) : Prop :=
  ∀ a, lo ≤ a → a < hi → a < TRAPFRAME ∧ ∃ e, m (slot a) = some e ∧ has e.1 PTE_U ∧ has e.1 PTE_W

variable {m : Memory} {lo hi a : Nat} {e : Word × Page}

theorem Ready.readable (h : Ready m lo hi) : Readable m lo hi := by
  intro a hlo hhi
  obtain ⟨ha, e, he, hU, _⟩ := h a hlo hhi
  exact ⟨ha, e, he, hU⟩

theorem slot_eq_iff {b : Nat} (ha : a < MAXVA) (hb : b < MAXVA) :
    slot a = slot b ↔ PGROUNDDOWN a = PGROUNDDOWN b := by
  refine ⟨fun h => ?_, fun h => ?_⟩
  · rw [← slot_va ha, ← slot_va hb, h]
  · rw [← slot_PGROUNDDOWN ha, ← slot_PGROUNDDOWN hb, h]

theorem visible_of_page (ha : a < MAXVA) (he : m (slot a) = some e) :
    visible m a = getByte e.2 (a % PGSIZE) := by
  rw [visible, if_pos ha, Memory.read, he]
  rfl

/-! ### Reading -/

section
variable [Layout] {s s' : Phys} {root : TableId → Nat} {own : Nat → Owner} {p : TableId}

variable {va : Nat} {src : List Byte} {m' : Memory}

omit [Layout] in
theorem get_visible_page {n : Nat} (hva : va < TRAPFRAME) (he : m (slot va) = some e)
    (hn : n ≤ PGSIZE - va % PGSIZE) :
    get (visible m) va n =
      (List.range n).map fun i => getByte e.2 (va - PGROUNDDOWN va + i) := by
  refine List.map_congr_left fun i hi => ?_
  rw [List.mem_range] at hi
  simp only [PGROUNDDOWN, PGSIZE, TRAPFRAME_eq] at *
  have hmax : va + i < MAXVA := by
    rw [MAXVA_eq]
    omega
  have hslot : slot (va + i) = slot va := by
    rw [slot_eq_iff hmax (by rw [MAXVA_eq]; omega)]
    simp only [PGROUNDDOWN, PGSIZE]
    omega
  rw [visible_of_page hmax (by rw [hslot]; exact he)]
  congr 1
  simp only [PGSIZE]
  omega

theorem copyinFrom_visible (C : Counted s root own) (hp : root p ≠ 0) {fuel len : Nat}
    (hr : Readable (view s root p) va (va + len)) (hf : len ≤ fuel) :
    copyinFrom (root p) fuel va len s =
      .ok (some (get (visible (view s root p)) va len), s) := by
  induction fuel generalizing va len with
  | zero =>
    obtain rfl : len = 0 := by omega
    rfl
  | succ fuel ih =>
    cases len with
    | zero => rfl
    | succ len =>
      obtain ⟨hva, e, he, hU⟩ := hr va (Nat.le_refl _) (by omega)
      have hmax : va < MAXVA := lt_MAXVA hva
      have hdown : PGROUNDDOWN va < MAXVA := Nat.lt_of_le_of_lt (Nat.div_mul_le_self _ _) hmax
      obtain ⟨t, ht, rfl⟩ := Option.map_eq_some_iff.mp he
      rw [has_U_permissions] at hU
      obtain ⟨_, hV, hpa⟩ := target_eq_some.mp ht
      have hwalk : walkaddr (root p) (PGROUNDDOWN va) s = .ok (t, s) := by
        have hslot := slot_PGROUNDDOWN hmax
        rw [walkaddr_user C.space hp hdown (by rw [hslot]; exact hV) (by rw [hslot]; exact hU),
          hslot, hpa]
      have ht0 : t ≠ 0 := (C.user _ _ ht).1.pos
      rw [copyinFrom, bind_of_ok hwalk, if_neg ht0, get_bind_apply]
      obtain ⟨n, hn⟩ : ∃ n, n = min (PGSIZE - (va - PGROUNDDOWN va)) (len + 1) := ⟨_, rfl⟩
      rw [← hn]
      have hoff : va - PGROUNDDOWN va = va % PGSIZE := by
        simp only [PGROUNDDOWN, PGSIZE]
        omega
      have hle : n ≤ PGSIZE - va % PGSIZE ∧ 0 < n ∧ n ≤ len + 1 := by
        simp only [PGSIZE] at *
        omega
      -- the next round starts where this one ends, or there is none
      have hnext : len + 1 - n = 0 ∨ PGROUNDDOWN va + PGSIZE = va + n := by
        simp only [PGROUNDDOWN, PGSIZE] at *
        omega
      have hrest : copyinFrom (root p) fuel (PGROUNDDOWN va + PGSIZE) (len + 1 - n) s =
          .ok (some (get (visible (view s root p)) (va + n) (len + 1 - n)), s) := by
        rcases hnext with h0 | hnext
        · rw [h0]
          cases fuel <;> rfl
        · rw [hnext]
          exact ih (fun a h1 h2 => hr a (by omega) (by omega)) (by omega)
      rw [bind_of_ok hrest]
      have hsum : len + 1 = n + (len + 1 - n) := by omega
      rw [show get (visible (view s root p)) va (len + 1) =
        get (visible (view s root p)) va (n + (len + 1 - n)) by rw [← hsum], get_add,
        get_visible_page hva he hle.1]
      rfl

/-! ### Writing -/

omit [Layout] in
theorem visible_write (hva : va < TRAPFRAME) (he : m (slot va) = some e)
    (hn : src.length ≤ PGSIZE - va % PGSIZE) :
    visible (m.write va src) = put (visible m) va src := by
  have hmax : va < MAXVA := lt_MAXVA hva
  have hpg : PGSIZE = 4096 := rfl
  have hfit : va % PGSIZE + src.length ≤ PGSIZE := by
    have := Nat.mod_lt va (show 0 < PGSIZE by decide)
    omega
  funext a
  by_cases ha : a < MAXVA
  · by_cases hs : slot a = slot va
    · have hpage := (slot_eq_iff ha hmax).mp hs
      have hw : m.write va src (slot a) = some (e.1, setBytes e.2 (va % PGSIZE) src) := by
        rw [Memory.write, hs, update_self, he]
        rfl
      rw [visible_of_page ha hw, getByte_setBytes src hfit (Nat.mod_lt _ (by decide)),
        put, visible_of_page ha (by rw [hs]; exact he)]
      simp only [PGROUNDDOWN, hpg] at hpage ⊢
      by_cases hle : va ≤ a
      · rw [if_pos (by omega), if_pos hle, show a % 4096 - va % 4096 = a - va by omega]
      · rw [if_neg (by omega), if_neg hle]
    · have hpage : PGROUNDDOWN a ≠ PGROUNDDOWN va := fun h => hs ((slot_eq_iff ha hmax).mpr h)
      have hkeep : visible (m.write va src) a = visible m a := by
        rw [visible, visible, Memory.read, Memory.read, Memory.write, update_of_ne hs]
      rw [hkeep, put]
      simp only [PGROUNDDOWN, hpg] at hpage hn
      by_cases hle : va ≤ a
      · rw [if_pos hle, List.getElem?_eq_none (by omega), Option.getD_none]
      · rw [if_neg hle]
  · rw [put, visible, if_neg ha, visible, if_neg ha]
    rw [MAXVA_eq] at ha hmax
    have hlim : va + src.length ≤ 274877906944 := by
      rw [hpg] at hn
      omega
    rw [if_pos (by omega), List.getElem?_eq_none (by omega), Option.getD_none]

/-- The pages are the same, with the same permissions. -/
def SamePages (m m' : Memory) : Prop := ∀ k, (m' k).map Prod.fst = (m k).map Prod.fst

section
omit [Layout]

theorem SamePages.ready (h : SamePages m m') (hr : Ready m lo hi) : Ready m' lo hi := by
  intro a hlo hhi
  obtain ⟨ha, e, he, hU, hW⟩ := hr a hlo hhi
  have hk := h (slot a)
  rw [he, Option.map_some] at hk
  obtain ⟨e', he', h'⟩ := Option.map_eq_some_iff.mp hk
  exact ⟨ha, e', he', by rw [h']; exact hU, by rw [h']; exact hW⟩

theorem samePages_write (m : Memory) (va : Nat) (src : List Byte) : SamePages m (m.write va src) := by
  intro k
  rw [Memory.write]
  by_cases hk : k = slot va
  · subst hk
    rw [update_self, Option.map_map]
    rfl
  · rw [update_of_ne hk]

/-- Where all pages are open and there is memory, the bytes arrive. -/
theorem copied_visible {oom : Prop} {r : Int} (h : Copied oom m va src r m') (hno : ¬ oom)
    (hr : Ready m va (va + src.length)) :
    r = 0 ∧ SamePages m m' ∧ visible m' = put (visible m) va src := by
  have hpg : PGSIZE = 4096 := rfl
  induction h with
  | done m va => exact ⟨rfl, fun _ => rfl, (put_nil _ _).symm⟩
  | @refused m va src hne h =>
    have hpos := List.length_pos_iff.mpr hne
    obtain ⟨ha, e, he, hU, _⟩ := hr va (Nat.le_refl _) (by omega)
    have hdown : PGROUNDDOWN va ≤ va := Nat.div_mul_le_self _ _
    refine absurd ⟨Nat.lt_of_le_of_lt hdown ha, e, ?_, hU⟩ h
    rw [slot_PGROUNDDOWN (lt_MAXVA ha)]
    exact he
  | exhausted hne h => exact absurd h hno
  | @page m m' va src r hne h rest ih =>
    have hpos := List.length_pos_iff.mpr hne
    obtain ⟨ha, e, he, hU, _⟩ := hr va (Nat.le_refl _) (by omega)
    have hsame := samePages_write m va (src.take (PGSIZE - va % PGSIZE))
    have hlen : (src.take (PGSIZE - va % PGSIZE)).length = min (PGSIZE - va % PGSIZE) src.length :=
      List.length_take
    have hdrop : (src.drop (PGSIZE - va % PGSIZE)).length = src.length - (PGSIZE - va % PGSIZE) :=
      List.length_drop
    have hend : PGROUNDDOWN va + PGSIZE = va + (PGSIZE - va % PGSIZE) := by
      simp only [PGROUNDDOWN, hpg]
      omega
    obtain ⟨hr0, hsame', hvis⟩ := ih (fun a h1 h2 => hsame.ready hr a (by omega) (by omega))
    refine ⟨hr0, fun k => (hsame' k).trans (hsame k), ?_⟩
    rw [hvis, visible_write ha he (by omega)]
    -- either the bytes reach into the next page, or there are no more
    by_cases hlong : PGSIZE - va % PGSIZE ≤ src.length
    · have hn : (src.take (PGSIZE - va % PGSIZE)).length = PGSIZE - va % PGSIZE := by omega
      nth_rewrite 1 [← hn] at hend
      rw [hend, put_append, List.take_append_drop]
    · rw [List.drop_eq_nil_of_le (by omega), put_nil, List.take_of_length_le (by omega)]

end

/-! ### `copyin` and `copyout` as the copies of a routine -/

/-- The pages of the process `p` from `lo` up to `hi` are open to it, in a memory that is in
order. -/
structure Open (root : TableId → Nat) (own : Nat → Owner) (p : TableId) (lo hi : Nat) (s : Phys) :
    Prop where
  counted : Counted s root own
  reserved : Reserved s root p
  ready : Ready (view s root p) lo hi

omit [Layout] in
theorem refreshed_ready (h : Refreshed root p s s') (hr : Ready (view s root p) lo hi) :
    Ready (view s' root p) lo hi := by
  intro a hlo hhi
  obtain ⟨ha, e, he, hU, hW⟩ := hr a hlo hhi
  obtain ⟨t, ht, rfl⟩ := Option.map_eq_some_iff.mp he
  obtain ⟨hlt, hV, _⟩ := target_eq_some.mp ht
  have hV' : has (s'.leaf (root p) (slot a)) PTE_V := by
    rcases h (p, slot a) with heq | ⟨_, _, _, hpriv⟩
    · rw [heq]
      exact hV
    · rw [hpriv.has_V]
      exact hV
  have hperm : permissions (s'.leaf (root p) (slot a)) = permissions (s.leaf (root p) (slot a)) := by
    rcases h (p, slot a) with heq | ⟨_, _, hF, hpriv⟩
    · rw [heq]
    · exact Opened.permissions (.inr ⟨hF, hpriv⟩)
  refine ⟨ha, _, view_of_target (target_eq_some.mpr ⟨hlt, hV', rfl⟩), ?_⟩
  rw [hperm]
  exact ⟨hU, hW⟩

/-- Where the pages are open, the kernel copies as from and to plain memory, until it runs out of
memory. -/
theorem userOps_refines (hp : root p ≠ 0) (lo hi : Nat) :
    (userOps (root p)).Refines lo hi (fun s => visible (view s root p)) (Open root own p lo hi)
      Full := by
  refine ⟨fun s va len h hlo hhi => ?_, fun s va bs h hlo hhi => ?_⟩
  · exact copyinFrom_visible h.counted hp
      (fun a h1 h2 => h.ready.readable a (by omega) (by omega)) (Nat.le_refl _)
  · have hready : Ready (view s root p) va (va + bs.length) :=
      fun a h1 h2 => h.ready a (by omega) (by omega)
    obtain ⟨r, s', hc, C, R, _, hcop⟩ := copyout_spec h.counted hp h.reserved va bs
    refine ⟨decide (r = 0), s', ?_, ⟨C, R.reserved h.reserved, refreshed_ready R h.ready⟩,
      fun hf => (copyout_staysFull _ _ _ s r s' hc h.counted.space.alloc hf).2, fun hno => ?_⟩
    · simp only [userOps]
      rw [bind_of_ok hc]
      rfl
    · have hw : (view s root p).Writable va bs.length := by
        intro a h1 h2 e he _
        obtain ⟨_, e', he', _, hW⟩ := hready a h1 h2
        rw [he] at he'
        cases he'
        exact hW
      obtain ⟨hr0, _, hvis⟩ := copied_visible (hcop hw).2 hno hready
      exact ⟨by simp [hr0], hvis⟩

end

end Yyds.Kernel
