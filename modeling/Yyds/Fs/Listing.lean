import Mathlib

/-! Listing a directory with `sys_getdents` and `sys_readdir`, whose place is kept in `f->off`. -/
namespace Yyds.Listing

def DIRSIZ : Nat := 14
/-- `sizeof(struct dirent)` -/
def DIRENT : Nat := 16
/-- `sizeof(struct linux_dirent)` -/
def LINUX_DIRENT : Nat := 28

abbrev Name (n : Nat) := Fin n → BitVec 8

structure Dirent where
  inum : BitVec 16
  name : Name DIRSIZ
  deriving DecidableEq

/-- A directory is its slots; those with `inum = 0` are free. -/
abbrev Dir := List Dirent

structure LinuxDirent where
  ino : BitVec 32
  off : Nat
  reclen : Nat
  name : Name (DIRSIZ + 1)
  deriving DecidableEq

/-- The loop of both calls, for as long as there is room for an entry, over the slots from `k` on,
which is `f->off / sizeof(de)`: what is copied out, and the slot where it stops. -/
def listLoop {α : Type} (entry : Dirent → Nat → α) : Nat → Dir → Nat → List α × Nat
  | _, [], k => ([], k)
  | 0, _ :: _, k => ([], k)
  | room + 1, de :: slots, k =>
    if de.inum = 0 then listLoop entry (room + 1) slots (k + 1)
    else (listLoop entry room slots (k + 1)).map (entry de (k + 1) :: ·) id

/-- While `nread + sizeof(ld) <= count`, compared as `unsigned long` -/
def sys_getdents (dir : Dir) (k : Nat) (count : BitVec 32) : List LinuxDirent × Nat :=
  listLoop (fun de k => ⟨de.inum.setWidth 32, k * DIRENT, LINUX_DIRENT, Fin.snoc de.name 0⟩)
    ((count.signExtend 64).toNat / LINUX_DIRENT) (dir.drop k) k

/-- While `nread < count` -/
def sys_readdir (dir : Dir) (k : Nat) (count : BitVec 32) : List Dirent × Nat :=
  listLoop (fun de _ => de) count.toInt.toNat (dir.drop k) k

/-- What the calls on one descriptor copy out, one after another. -/
def results {α : Type} (call : Nat → BitVec 32 → List α × Nat) :
    Nat → List (BitVec 32) → List (List α)
  | _, [] => []
  | k, count :: counts => (call k count).1 :: results call (call k count).2 counts

def live (dir : Dir) : List Dirent := dir.filter (·.inum ≠ 0)

/-- The inode number and the name of an entry. -/
def Dirent.shown (de : Dirent) : BitVec 32 × Name (DIRSIZ + 1) :=
  (de.inum.setWidth 32, Fin.snoc de.name 0)

def LinuxDirent.shown (ld : LinuxDirent) : BitVec 32 × Name (DIRSIZ + 1) := (ld.ino, ld.name)

/-- One of the calls lists nothing, and then all live entries have been listed, once and in order;
no call writes more than it was asked for, in units of `size`. -/
structure Complete {α : Type} (dir : Dir) (shown : α → BitVec 32 × Name (DIRSIZ + 1)) (size : Nat)
    (call : Nat → BitVec 32 → List α × Nat) (counts : List (BitVec 32)) : Prop where
  ends : (live dir).length < counts.length → [] ∈ results call 0 counts
  lists : [] ∈ results call 0 counts →
    (results call 0 counts).flatten.map shown = (live dir).map Dirent.shown
  bounded : ∀ c ∈ counts, ∀ k, ((call k c).1.length * size : Nat) ≤ c.toInt

/-- A list, cut into pieces of these lengths. -/
def pieces {β : Type} : List β → List Nat → List (List β)
  | _, [] => []
  | l, n :: ns => l.take n :: pieces (l.drop n) ns

section

variable {α β : Type} {l : List β} {ns : List Nat} {entry : Dirent → Nat → α} {dir : Dir}
  {shown : α → BitVec 32 × Name (DIRSIZ + 1)} {size : Nat} {rooms : BitVec 32 → Nat}
  {call : Nat → BitVec 32 → List α × Nat} {counts : List (BitVec 32)}

theorem nil_mem_pieces (hns : ∀ n ∈ ns, 0 < n) (h : l.length < ns.length) : [] ∈ pieces l ns := by
  induction ns generalizing l with
  | nil => exact absurd h (Nat.not_lt_zero _)
  | cons n ns ih =>
    have hn := hns n (List.mem_cons_self ..)
    cases l with
    | nil => simp [pieces]
    | cons a l =>
      refine List.mem_cons_of_mem _ (ih (fun n hn => hns n (List.mem_cons_of_mem _ hn)) ?_)
      simp only [List.length_drop, List.length_cons] at h ⊢
      omega

theorem flatten_pieces (hns : ∀ n ∈ ns, 0 < n) (h : [] ∈ pieces l ns) :
    (pieces l ns).flatten = l := by
  induction ns generalizing l with
  | nil => cases h
  | cons n ns ih =>
    have htail := fun m hm => hns m (List.mem_cons_of_mem n hm)
    rw [pieces, List.flatten_cons]
    rcases List.mem_cons.mp h with hnil | h
    · obtain rfl : l = [] := by
        simpa [List.take_eq_nil_iff, (hns n (List.mem_cons_self ..)).ne'] using hnil.symm
      cases ns with
      | nil => simp [pieces]
      | cons m ns => simpa using ih (l := []) htail (nil_mem_pieces htail (by simp))
    · rw [ih htail h, List.take_append_drop]

/-- A call lists as many live entries as there is room for, and stops before the next one. -/
theorem listLoop_live (hshown : ∀ de k, shown (entry de k) = de.shown) (room : Nat) (slots : Dir)
    (k : Nat) :
    (listLoop entry room slots k).1.map shown = ((live slots).map Dirent.shown).take room ∧
      ∃ j, (listLoop entry room slots k).2 = k + j ∧
        live (slots.drop j) = (live slots).drop room := by
  fun_induction listLoop entry room slots k with
  | case1 => exact ⟨by simp [live], 0, rfl, by simp [live]⟩
  | case2 => exact ⟨by simp, 0, rfl, rfl⟩
  | case3 room de slots k hfree ih =>
    obtain ⟨hlist, j, hk, hrest⟩ := ih
    have hlive : live (de :: slots) = live slots := List.filter_cons_of_neg (by simpa using hfree)
    rw [hlive]
    exact ⟨hlist, j + 1, by omega, hrest⟩
  | case4 room de slots k hused ih =>
    obtain ⟨hlist, j, hk, hrest⟩ := ih
    have hlive : live (de :: slots) = de :: live slots :=
      List.filter_cons_of_pos (by simpa using hused)
    rw [hlive]
    refine ⟨by simp [hlist, hshown], j + 1, ?_, hrest⟩
    rw [Prod.map_snd, id]
    omega

theorem results_eq (hshown : ∀ de k, shown (entry de k) = de.shown)
    (hcall : ∀ k c, call k c = listLoop entry (rooms c) (dir.drop k) k)
    (counts : List (BitVec 32)) (k : Nat) : (results call k counts).map (List.map shown) =
      pieces ((live (dir.drop k)).map Dirent.shown) (counts.map rooms) := by
  induction counts generalizing k with
  | nil => rfl
  | cons c counts ih =>
    obtain ⟨hlist, j, hk, hrest⟩ := listLoop_live hshown (rooms c) (dir.drop k) k
    rw [← hcall] at hlist hk
    rw [List.drop_drop] at hrest
    rw [results, List.map_cons, ih, hlist, hk, hrest, List.map_drop]
    rfl

theorem complete_of_room (hshown : ∀ de k, shown (entry de k) = de.shown)
    (hcall : ∀ k c, call k c = listLoop entry (rooms c) (dir.drop k) k)
    (hpos : ∀ c ∈ counts, 0 < rooms c)
    (hle : ∀ c ∈ counts, (rooms c * size : Nat) ≤ c.toInt) :
    Complete dir shown size call counts := by
  have heq := results_eq hshown hcall counts 0
  have hns : ∀ n ∈ counts.map rooms, 0 < n := by simpa using hpos
  have hnil : [] ∈ results call 0 counts ↔
      [] ∈ pieces ((live dir).map Dirent.shown) (counts.map rooms) := by
    rw [List.drop_zero] at heq
    simp [← heq]
  refine ⟨fun h => hnil.mpr (nil_mem_pieces hns (by simpa using h)), fun h => ?_, fun c hc k => ?_⟩
  · rw [List.map_flatten, heq]
    exact flatten_pieces hns (hnil.mp h)
  · have hlen := congrArg List.length (listLoop_live hshown (rooms c) (dir.drop k) k).1
    rw [← hcall, List.length_map, List.length_take] at hlen
    have := hle c hc
    have := Nat.mul_le_mul_right size (hlen.trans_le (Nat.min_le_left _ _))
    omega

end

/-- However large the buffers, both calls list each live entry once, with its inode number and
name, in the order of the directory. -/
theorem listing_complete (dir : Dir) (counts counts' : List (BitVec 32))
    (h : ∀ c ∈ counts, (LINUX_DIRENT : Int) ≤ c.toInt) (h' : ∀ c ∈ counts', 1 ≤ c.toInt) :
    Complete dir LinuxDirent.shown LINUX_DIRENT (sys_getdents dir) counts ∧
      Complete dir Dirent.shown 1 (sys_readdir dir) counts' := by
  have hwidth : ∀ c ∈ counts, ((c.signExtend 64).toNat : Int) = c.toInt := by
    intro c hc
    have hmsb : c.msb = false := by
      have := h c hc
      rw [BitVec.msb_eq_toInt]
      exact decide_eq_false (by omega)
    rw [BitVec.signExtend_eq_setWidth_of_msb_false hmsb, BitVec.toInt_eq_toNat_of_msb hmsb,
      BitVec.toNat_setWidth_of_le (by decide)]
  constructor
  · refine complete_of_room (fun _ _ => rfl) (fun _ _ => rfl) (fun c hc => ?_) fun c hc => ?_
    · have := h c hc
      have := hwidth c hc
      exact Nat.div_pos (by omega) (by decide)
    · have := hwidth c hc
      have := Nat.div_mul_le_self (c.signExtend 64).toNat LINUX_DIRENT
      omega
  · refine complete_of_room (fun _ _ => rfl) (fun _ _ => rfl) (fun c hc => ?_) fun c hc => ?_ <;>
      have := h' c hc <;> omega

/-- A file in the first and the last of three slots; the middle one is free. -/
def sparse : Dir := [⟨5, fun _ => 97⟩, ⟨0, fun _ => 98⟩, ⟨7, fun _ => 99⟩]

theorem listing_complete_sparse :
    (results (sys_getdents sparse) 0 [30, 60, 28]).map (List.map LinuxDirent.off) =
        [[16], [48], []] ∧
      (results (sys_getdents sparse) 0 [30, 60, 28]).flatten.map LinuxDirent.shown =
        (live sparse).map Dirent.shown :=
  ⟨by decide +kernel, (listing_complete sparse [30, 60, 28] [9, 1] (by simp [LINUX_DIRENT])
    (by simp)).1.lists (by decide +kernel)⟩

end Yyds.Listing
