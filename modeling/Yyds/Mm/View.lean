import Yyds.Mm.CowSpec

/-! The memory of each process as the process sees it: a map from its pages to permissions
and contents, with no trace of who shares which physical page. -/
namespace Yyds.Mm

open Lib Layout Function

/-- User memory of one process: the permissions and the contents of each mapped page. -/
abbrev Memory := Slot → Option (Word × Page)

/-- The permissions of an entry: a copy-on-write page counts as writable. -/
def permissions (w : Word) : Word :=
  (PTE_FLAGS w ||| if has w PTE_F then PTE_W else 0) &&& ~~~PTE_F

theorem getLsbD_permissions (w : Word) {i : Nat} (hi : i < 10) : (permissions w).getLsbD i =
    ((w.getLsbD i || (has w PTE_F && decide (2 = i))) && decide (8 ≠ i)) := by
  have hif : (if has w PTE_F then PTE_W else 0).getLsbD i = (has w PTE_F && decide (2 = i)) := by
    split
    case isTrue h => simp [h]
    case isFalse h => simp [h]
  rw [permissions, BitVec.getLsbD_and, BitVec.getLsbD_or, BitVec.getLsbD_not,
    getLsbD_PTE_FLAGS _ hi, hif, getLsbD_PTE_F]
  simp [show i < 64 by omega]

theorem isFlags_permissions (w : Word) : IsFlags (permissions w) := by
  refine ((isFlags_PTE_FLAGS w).or ?_).and _
  split <;> decide

variable {w w' : Word} {k : Slot} {va : Nat}

theorem permissions_ext (h : ∀ i < 10, (permissions w).getLsbD i = (permissions w').getLsbD i) :
    permissions w = permissions w' := by
  refine BitVec.eq_of_getLsbD_eq fun i _ => ?_
  by_cases hi : i < 10
  · exact h i hi
  · rw [(isFlags_permissions w).high (by omega), (isFlags_permissions w').high (by omega)]

theorem has_U_permissions (w : Word) : has (permissions w) PTE_U = has w PTE_U := by
  rw [has_U, getLsbD_permissions w (by decide)]
  simp

theorem has_W_permissions (w : Word) :
    has (permissions w) PTE_W = (has w PTE_W || has w PTE_F) := by
  rw [has_W, getLsbD_permissions w (by decide)]
  simp

theorem Opened.permissions (h : Opened w w') : permissions w' = permissions w := by
  rcases h with ⟨rfl, _⟩ | ⟨hF, hp⟩
  · rfl
  have hF' : has w' PTE_F = false := by
    rw [has_F, hp 8 (by decide)]
    simp
  refine permissions_ext fun i hi => ?_
  rw [getLsbD_permissions w hi, getLsbD_permissions w' hi, hp i hi, hF, hF']
  cases w.getLsbD i <;> cases decide (2 = i) <;> cases decide (8 ≠ i) <;> rfl

/-- The memory of the processes in the machine. -/
def view (s : Phys) (root : TableId → Nat) (p : TableId) : Memory := fun k =>
  (target s root (p, k)).map fun t => (permissions (s.leaf (root p) k), s.page t)

/-- The byte that `p` reads at `va`. -/
def Memory.read (m : Memory) (va : Nat) : Option Byte :=
  (m (slot va)).map fun e => getByte e.2 (va % PGSIZE)

/-- A user address: below the pages that the kernel keeps for itself. -/
def Memory.User (m : Memory) (va : Nat) : Prop :=
  va < TRAPFRAME ∧ ∃ e, m (slot va) = some e ∧ has e.1 PTE_U

/-- The bytes of `src` reach the page at `va`. -/
def Memory.write (m : Memory) (va : Nat) (src : List Byte) : Memory :=
  update m (slot va)
    ((m (slot va)).map fun e => (e.1, setBytes e.2 (va % PGSIZE) src))

/-- What a copy to user memory does when the process has the memory to itself: page after
page up to the end or up to the first page it may not touch. `oom` tells that memory may run
out. -/
inductive Copied (oom : Prop) : Memory → Nat → List Byte → Int → Memory → Prop
  | done (m : Memory) (va : Nat) : Copied oom m va [] 0 m
  | refused {m : Memory} {va : Nat} {src : List Byte} (hne : src ≠ [])
    (h : ¬ m.User (PGROUNDDOWN va)) : Copied oom m va src (-1) m
  | exhausted {m : Memory} {va : Nat} {src : List Byte} (hne : src ≠ []) (h : oom) :
    Copied oom m va src (-1) m
  | page {m m' : Memory} {va : Nat} {src : List Byte} {r : Int} (hne : src ≠ [])
    (h : m.User (PGROUNDDOWN va))
    (rest : Copied oom (m.write va (src.take (PGSIZE - va % PGSIZE)))
      (PGROUNDDOWN va + PGSIZE) (src.drop (PGSIZE - va % PGSIZE)) r m') : Copied oom m va src r m'

variable {s s' s1 : Phys} {root : TableId → Nat} {own own' : Nat → Owner}
  {p q : TableId} {K : TableId × Slot → Prop}

theorem Keeps.view (h : Keeps root K s s') (hk : ¬ K (p, k)) :
    view s' root p k = view s root p k := by
  rw [Mm.view, Mm.view, h.target hk]
  cases ht : Mm.target s root (p, k) with
  | none => rfl
  | some t =>
    rw [Option.map_some, Option.map_some, (h _ hk).1, (h _ hk).2 t ht]

/-- The entries are as they were, up to copy-on-write entries of `p` that have become
private. -/
def Refreshed (root : TableId → Nat) (p : TableId) (s s' : Phys) : Prop :=
  ∀ x : TableId × Slot, s'.leaf (root x.1) x.2 = s.leaf (root x.1) x.2 ∨
    (x.1 = p ∧ x.2.va < TRAPFRAME ∧ has (s.leaf (root x.1) x.2) PTE_F ∧
      Privatized (s.leaf (root x.1) x.2) (s'.leaf (root x.1) x.2))

namespace Refreshed

theorem refl (root : TableId → Nat) (p : TableId) (s : Phys) : Refreshed root p s s :=
  fun _ => .inl rfl

theorem trans (h1 : Refreshed root p s s1) (h2 : Refreshed root p s1 s') :
    Refreshed root p s s' := by
  intro x
  rcases h2 x with he2 | ⟨hp, hx, hF2, hw2⟩
  · rw [he2]
    exact h1 x
  rcases h1 x with he1 | ⟨_, _, _, hw1⟩
  · rw [he1] at hF2 hw2
    exact .inr ⟨hp, hx, hF2, hw2⟩
  · -- an entry made private is no copy-on-write entry any more
    rw [has_F, hw1 8 (by decide)] at hF2
    simp at hF2

theorem reserved (h : Refreshed root p s s') (R : Reserved s root p) : Reserved s' root p := by
  intro k hk
  rcases h (p, k) with he | ⟨_, hlt, _⟩
  · rw [he]
    exact R k hk
  · exact absurd hlt (Nat.not_lt.mpr hk)

end Refreshed

/-- No entries but those of `p` for the `len` bytes at `va` have changed. -/
def OnlyAt (root : TableId → Nat) (p : TableId) (va len : Nat) (s s' : Phys) : Prop :=
  ∀ x : TableId × Slot, (x.1 = p → ∀ i < len, slot (va + i) ≠ x.2) →
    s'.leaf (root x.1) x.2 = s.leaf (root x.1) x.2

theorem OnlyAt.refl (root : TableId → Nat) (p : TableId) (va len : Nat) (s : Phys) :
    OnlyAt root p va len s s := fun _ _ => rfl

theorem OnlyAt.trans {len : Nat} (h : OnlyAt root p va len s s1) (h' : OnlyAt root p va len s1 s') :
    OnlyAt root p va len s s' :=
  fun x hx => (h' x hx).trans (h x hx)

theorem OnlyAt.mono {va' len len' : Nat} (h : OnlyAt root p va' len' s s')
    (hsub : ∀ i < len', va ≤ va' + i ∧ va' + i < va + len) : OnlyAt root p va len s s' := by
  refine fun x hx => h x fun hxp i hi => ?_
  obtain ⟨h1, h2⟩ := hsub i hi
  have hne := hx hxp (va' + i - va) (by omega)
  rwa [Nat.add_sub_cancel' h1] at hne

/-- The pages from `va` on that `p` may touch are writable. -/
def Memory.Writable (m : Memory) (va len : Nat) : Prop :=
  ∀ a, va ≤ a → a < va + len → ∀ e, m (slot a) = some e → has e.1 PTE_U → has e.1 PTE_W

theorem Memory.Writable.mono {m : Memory} {va' len len' : Nat} (h : m.Writable va len)
    (hsub : ∀ i < len', va ≤ va' + i ∧ va' + i < va + len) : m.Writable va' len' := by
  intro a h1 h2
  have ha := hsub (a - va') (by omega)
  rw [Nat.add_sub_cancel' h1] at ha
  exact h a ha.1 ha.2

theorem Memory.Writable.write {m : Memory} {len : Nat} (h : m.Writable va len) (b : Nat)
    (src : List Byte) : (m.write b src).Writable va len := by
  intro a ha hb e he hU
  rw [Memory.write] at he
  by_cases hs : slot a = slot b
  · rw [← hs, update_self] at he
    obtain ⟨e', he', rfl⟩ := Option.map_eq_some_iff.mp he
    exact h a ha hb e' he' hU
  · rw [update_of_ne hs] at he
    exact h a ha hb e he hU

theorem slot_PGROUNDDOWN (h : va < MAXVA) : slot (PGROUNDDOWN va) = slot va := by
  rw [← slot_va h, slot_of_va]

theorem view_of_target {t : Nat} (h : target s root (p, k) = some t) :
    view s root p k = some (permissions (s.leaf (root p) k), s.page t) := by
  rw [view, h, Option.map_some]

/-- What `walkaddr` asks for is what makes a user address. -/
theorem valid_of_user (h : (view s root p).User va) : va < TRAPFRAME ∧
    has (s.leaf (root p) (slot va)) PTE_V ∧ has (s.leaf (root p) (slot va)) PTE_U := by
  obtain ⟨hva, e, he, hU⟩ := h
  obtain ⟨t, ht, rfl⟩ := Option.map_eq_some_iff.mp he
  rw [has_U_permissions] at hU
  exact ⟨hva, (target_eq_some.mp ht).2.1, hU⟩

theorem Keeps.refreshed (h : Keeps root (fun _ => False) s s') : Refreshed root p s s' :=
  fun x => .inl (h x fun hx => hx).1

theorem refreshed_opened (K : Keeps root (· = (p, slot va)) s s')
    (ho : Opened (s.leaf (root p) (slot va)) (s'.leaf (root p) (slot va)))
    (hva : (slot va).va < TRAPFRAME) : Refreshed root p s s' := by
  intro x
  by_cases hx : x = (p, slot va)
  · subst hx
    rcases ho with ⟨he, _⟩ | ⟨hF, hw⟩
    · exact .inl he
    · exact .inr ⟨rfl, hva, hF, hw⟩
  · exact .inl (K x hx).1

theorem take_drop_min {α : Type} {src : List α} {m n : Nat} (hn : n = min m src.length) :
    src.take m = src.take n ∧ src.drop m = src.drop n := by
  subst hn
  rcases Nat.le_total m src.length with h | h
  · rw [Nat.min_eq_left h]
    exact ⟨rfl, rfl⟩
  · rw [Nat.min_eq_right h, List.take_of_length_le h, List.take_length, List.drop_length,
      List.drop_eq_nil_of_le h]
    exact ⟨rfl, rfl⟩

/-- One round of `copyout`: the bytes go to the page `r` that was found. -/
theorem copyout_round [Layout] (C : Counted s1 root own) (pg : Page) {r : Nat}
    (hk : Keeps root (· = (p, slot va)) s s1) (hr : target s1 root (p, slot va) = some r)
    (ho : Opened (s.leaf (root p) (slot va)) (s1.leaf (root p) (slot va)))
    (hw : has (permissions (s.leaf (root p) (slot va))) PTE_W) (q : TableId) (k : Slot) :
    view (s1.setPage r pg) root q k = if q = p ∧ k = slot va then
      some (permissions (s.leaf (root p) (slot va)), pg) else view s root q k := by
  have hor := (C.user _ r hr).2
  obtain ⟨_, hl⟩ := C.setPage pg (Owner.user_ne_table hor) fun _ => C.count_ne_zero hr
  have hW : has (s1.leaf (root p) (slot va)) PTE_W := by
    rcases ho with ⟨he, hF⟩ | ⟨_, hpriv⟩
    · rw [has_W_permissions, hF, Bool.or_false] at hw
      rw [he, hw]
    · exact hpriv.has_W
  have hone := C.writable _ r hr hW
  have ht : target (s1.setPage r pg) root (q, k) = target s1 root (q, k) := target_congr (hl q k)
  by_cases hx : q = p ∧ k = slot va
  · obtain ⟨rfl, rfl⟩ := hx
    rw [view, ht, hr, hl, ho.permissions]
    simp
  have hne : (q, k) ≠ (p, slot va) := fun h => hx ⟨congrArg Prod.fst h, congrArg Prod.snd h⟩
  rw [if_neg hx, ← hk.view hne, view, view, ht, hl]
  cases hu : target s1 root (q, k) with
  | none => rfl
  | some u =>
    have hur : u ≠ r := by
      rintro rfl
      exact hne (eq_of_refs_eq_one hone hu hr)
    simp [update_of_ne hur]

/-- `copyout` returns. It keeps the counts, and where it goes to writable pages only it does
what a copy to private memory does, and nothing to the other processes. -/
theorem copyoutFrom_spec [Layout] (C : Counted s root own) (hp : root p ≠ 0) (R : Reserved s root p)
    {fuel : Nat} (va : Nat) (src : List Byte) (hfuel : src.length ≤ fuel) :
    ∃ r s', copyoutFrom (root p) fuel va src s = .ok (r, s') ∧ Counted s' root own ∧
      Refreshed root p s s' ∧ OnlyAt root p va src.length s s' ∧
      ((view s root p).Writable va src.length → (∀ q ≠ p, view s' root q = view s root q) ∧
        Copied (Full s') (view s root p) va src r (view s' root p)) := by
  induction fuel generalizing s va src with
  | zero =>
    obtain rfl : src = [] := List.eq_nil_of_length_eq_zero (by omega)
    exact ⟨0, s, rfl, C, .refl _ _ _, .refl _ _ _ _ _, fun _ => ⟨fun _ _ => rfl, .done _ _⟩⟩
  | succ fuel ih =>
    cases src with
    | nil => exact ⟨0, s, rfl, C, .refl _ _ _, .refl _ _ _ _ _, fun _ => ⟨fun _ _ => rfl, .done _ _⟩⟩
    | cons b bs =>
      have hal : PGROUNDDOWN va % PGSIZE = 0 := by simp [PGROUNDDOWN]
      obtain ⟨r, s1, hpage, C1, K, hfound⟩ := copyoutPage_spec C hp R hal
      rw [copyoutFrom, Kern.bind_of_ok hpage]
      rcases hfound with ⟨rfl, K0, hwhy⟩ | ⟨hr, hva, t, ht, hU, hr', hsame, ho⟩
      · refine ⟨-1, s1, rfl, C1, K0.refreshed, fun x _ => (K0 x id).1, fun _ => ⟨fun q _ => ?_, ?_⟩⟩
        · exact funext fun k => K0.view fun h => h
        · have hsame : view s1 root p = view s root p := funext fun k => K0.view fun h => h
          rw [hsame]
          rcases hwhy with hfull | hno
          · exact .exhausted (by simp) hfull
          · exact .refused (by simp) fun hu => hno (valid_of_user hu)
      rw [if_neg hr]
      have hoff : va - PGROUNDDOWN va = va % PGSIZE := by
        simp only [PGROUNDDOWN, PGSIZE]
        omega
      have hmax : va < MAXVA := by
        simp only [PGROUNDDOWN, PGSIZE, TRAPFRAME_eq, MAXVA_eq] at *
        omega
      have hslot := slot_PGROUNDDOWN hmax
      simp only [hslot] at ht hU hr' ho K
      rw [hoff]
      have hn : ∃ n, n = min (PGSIZE - va % PGSIZE) (b :: bs).length := ⟨_, rfl⟩
      obtain ⟨n, hn⟩ := hn
      rw [← hn]
      obtain ⟨htake, hdrop⟩ := take_drop_min hn
      have hpos : 0 < n ∧ (n < PGSIZE - va % PGSIZE → n = (b :: bs).length) := by
        simp only [PGSIZE, List.length_cons] at *
        omega
      have hor := (C1.user _ r hr').2
      let pg : Page := setBytes (s1.page r) (va % PGSIZE) ((b :: bs).take n)
      obtain ⟨C2, hl2⟩ := C1.setPage pg (Owner.user_ne_table hor) fun _ => C1.count_ne_zero hr'
      have F1 : Refreshed root p s (s1.setPage r pg) :=
        fun x => (refreshed_opened K ho (target_eq_some.mp ht).1 x).imp
          (hl2 x.1 x.2).trans (fun h => (hl2 x.1 x.2).symm ▸ h)
      obtain ⟨r', s', h', C', F', T', hview⟩ := ih C2 (F1.reserved R) (PGROUNDDOWN va + PGSIZE)
        ((b :: bs).drop n) (by rw [List.length_drop]; omega)
      have hrest : ∀ i < ((b :: bs).drop n).length, va ≤ PGROUNDDOWN va + PGSIZE + i ∧
          PGROUNDDOWN va + PGSIZE + i < va + (b :: bs).length := by
        intro i hi
        rw [List.length_drop] at hi
        simp only [PGROUNDDOWN, PGSIZE] at *
        omega
      have T1 : OnlyAt root p va (b :: bs).length s (s1.setPage r pg) :=
        fun x hx => (hl2 x.1 x.2).trans (K x fun he => hx (congrArg Prod.fst he) 0 (by simp)
          (congrArg Prod.snd he).symm).1
      refine ⟨r', s', h', C', F1.trans F', T1.trans (T'.mono hrest), fun hW => ?_⟩
      have hw := hW va (Nat.le_refl _) (by simp) _ (view_of_target ht)
        ((has_U_permissions _).trans hU)
      have hv := copyout_round C1 pg K hr' ho hw
      have hm : view (s1.setPage r pg) root p = (view s root p).write va ((b :: bs).take n) := by
        funext k
        simp only [hv p k, Memory.write, view_of_target ht, ← hsame, pg]
        by_cases hk : k = slot va
        · subst hk
          simp
        · rw [if_neg (fun h => hk h.2), update_of_ne hk]
      rw [hm] at hview
      obtain ⟨hiso, hcop⟩ := hview ((hW.write va _).mono hrest)
      have huser : (view s root p).User (PGROUNDDOWN va) :=
        ⟨hva, (permissions (s.leaf (root p) (slot va)), s.page t),
          (congrArg (view s root p) hslot).trans (view_of_target ht),
          (has_U_permissions _).trans hU⟩
      refine ⟨fun q hq => ?_, .page (by simp) huser ?_⟩
      · rw [hiso q hq]
        funext k
        rw [hv q k, if_neg fun h => hq h.1]
      · rw [htake, hdrop]
        exact hcop

theorem copyout_spec [Layout] (C : Counted s root own) (hp : root p ≠ 0) (R : Reserved s root p)
    (va : Nat) (src : List Byte) :
    ∃ r s', copyout (root p) va src s = .ok (r, s') ∧ Counted s' root own ∧
      Refreshed root p s s' ∧ OnlyAt root p va src.length s s' ∧
      ((view s root p).Writable va src.length → (∀ q ≠ p, view s' root q = view s root q) ∧
        Copied (Full s') (view s root p) va src r (view s' root p)) :=
  copyoutFrom_spec C hp R va src (Nat.le_refl _)

end Yyds.Mm
