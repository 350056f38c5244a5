import Yyds.Kernel.Files
import Yyds.Kernel.Calls

/-! The reference counts of the open files. -/
namespace Yyds.Files

open Lib Kern Mm Kernel Function FileSys

/-- Where a reference to a file can be: a descriptor or a mapped file of a process. -/
abbrev Place := ProcId × (Fin NOFILE ⊕ Fin NVMA)

/-- The file of a used area. -/
def areaFile (a : VmArea) : Option Nat := if a.used then some a.vfile else none

def FileSys.points (s : FileSys) : Place → Option Nat
  | (p, .inl fd) => (s.proc p).ofile fd
  | (p, .inr i) => areaFile ((s.proc p).vma i)

/-- Every count is the number of references, together with those in `l` that the running call still
has in its hands, and a process that is gone has none. -/
structure Inv (l : List Nat) (s : FileSys) : Prop where
  ref : ∀ f, s.ref f = refs s.points f + l.count f
  idle : ∀ p, ¬ (s.proc p).Active → ∀ x, s.points (p, x) = none

/-- One reference more or less. -/
def FileSys.addRef (s : FileSys) (f : Nat) (n : Int) : FileSys :=
  { s with ref := update s.ref f (s.ref f + n) }

section
variable {s t : FileSys} {p q : ProcId} {x : Place} {v : Option Nat} {f g : Nat}
  {fd : Fin NOFILE} {i : Fin NVMA} {l : List Nat}

theorem refs_points_le (s : FileSys) (f : Nat) : refs s.points f ≤ 2048 := by
  have h := refs_le (f := s.points) (a := f) id fun _ _ _ _ hxy => hxy
  have hcard : Fintype.card Place = 2048 := by
    rw [Fintype.card_prod]
    rfl
  omega

/-! ### The file table -/

theorem filedup_ok (h : 1 ≤ s.ref f) (hlt : s.ref f ≤ 4096) :
    filedup f s = .ok ((), s.addRef f 1) := by
  have hint : int (s.ref f + 1) = s.ref f + 1 := int_of_small
  simp [filedup, Kern.when, setRef, addRef, hint, show ¬ s.ref f < 1 by omega]

theorem fileclose_ok (h : 1 ≤ s.ref f) (hlt : s.ref f ≤ 4096) :
    fileclose f s = .ok ((), s.addRef f (-1)) := by
  have hint : int (s.ref f - 1) = s.ref f + -1 := int_of_small
  simp [fileclose, Kern.when, setRef, addRef, hint, show ¬ s.ref f < 1 by omega]

theorem filealloc_cases (s : FileSys) : filealloc s = .ok (none, s) ∨
    ∃ f, s.ref f = 0 ∧ filealloc s = .ok (some f, s.addRef f 1) := by
  unfold filealloc
  rw [get_bind_apply]
  cases hf : (List.range NFILE).find? fun f => s.ref f = 0 with
  | none => exact .inl rfl
  | some f =>
    have hz : s.ref f = 0 := by simpa using List.find?_some hf
    refine .inr ⟨f, hz, ?_⟩
    simp [setRef, addRef, hz]

@[simp] theorem addRef_points (s : FileSys) (f : Nat) (n : Int) :
    (s.addRef f n).points = s.points := rfl

@[simp] theorem addRef_proc (s : FileSys) (f : Nat) (n : Int) : (s.addRef f n).proc = s.proc := rfl

theorem addRef_self (s : FileSys) (f : Nat) (n : Int) : (s.addRef f n).ref f = s.ref f + n := by
  simp [addRef]

theorem addRef_of_ne (h : g ≠ f) (n : Int) : (s.addRef f n).ref g = s.ref g := by
  simp [addRef, h]

theorem addRef_undo (s : FileSys) (f : Nat) (n : Int) : (s.addRef f n).addRef f (-n) = s := by
  simp [addRef]

/-! ### Places -/

theorem points_setOfile (s : FileSys) (p : ProcId) (fd : Fin NOFILE) (v : Option Nat) :
    (s.setProc p fun pr => { pr with ofile := update pr.ofile fd v }).points =
      update s.points (p, .inl fd) v := by
  funext ⟨q, x⟩
  by_cases hq : q = p
  · subst hq
    cases x with
    | inl j =>
      by_cases hj : j = fd
      · subst hj
        simp [points, setProc]
      · simp [points, setProc, hj]
    | inr j => simp [points, setProc]
  · cases x <;> simp [points, setProc, hq]

theorem points_setVma (s : FileSys) (p : ProcId) (i : Fin NVMA) (a : VmArea) :
    (s.setProc p fun pr => { pr with vma := update pr.vma i a }).points =
      update s.points (p, .inr i) (areaFile a) := by
  funext ⟨q, x⟩
  by_cases hq : q = p
  · subst hq
    cases x with
    | inl j => simp [points, setProc]
    | inr j =>
      by_cases hj : j = i
      · subst hj
        simp [points, setProc]
      · simp [points, setProc, hj]
  · cases x <;> simp [points, setProc, hq]

/-- From `s` to `t` the place `x` has been redirected to `v`, and the counts have followed. -/
structure Redirect (s : FileSys) (x : Place) (v : Option Nat) (t : FileSys) : Prop where
  points : t.points = update s.points x v
  ref : ∀ f, t.ref f + (if s.points x = some f then 1 else 0) =
    s.ref f + if v = some f then 1 else 0
  state : ∀ q, (t.proc q).state = (s.proc q).state

theorem Redirect.counts (hr : Redirect s x v t)
    (h : ∀ f, s.ref f = refs s.points f + l.count f) (f : Nat) :
    t.ref f = refs t.points f + l.count f := by
  have hrefs := refs_update s.points x v f
  have hf := hr.ref f
  rw [h f] at hf
  rw [hr.points]
  generalize refs (update s.points x v) f = k at hrefs ⊢
  by_cases hx : s.points x = some f <;> by_cases hv : v = some f <;>
    simp only [hx, hv, if_true, if_false] at hf hrefs <;> omega

theorem Inv.redirect (h : Inv l s) (hr : Redirect s x v t) (ha : (s.proc x.1).Active) :
    Inv l t := by
  refine ⟨hr.counts h.ref, ?_⟩
  · intro q hq y
    have hqs : ¬ (s.proc q).Active := by
      rw [FProc.Active, hr.state q] at hq
      exact hq
    have hne : (q, y) ≠ x := by
      rintro rfl
      exact hqs ha
    rw [hr.points, update_of_ne hne]
    exact h.idle q hqs y

theorem Redirect.take (hx : s.points x = none)
    (hp : t.points = update s.points x (some f)) (hr : t.ref = s.ref)
    (hs : ∀ q, (t.proc q).state = (s.proc q).state) : Redirect s x (some f) (t.addRef f 1) := by
  refine ⟨hp, ?_, hs⟩
  intro g
  by_cases hg : g = f
  · subst hg
    simp [addRef, hx, hr]
  · simp [addRef, hx, hr, hg, Ne.symm hg]

theorem Redirect.drop (hx : s.points x = some f)
    (hp : t.points = update s.points x none) (hr : t.ref = s.ref)
    (hs : ∀ q, (t.proc q).state = (s.proc q).state) : Redirect s x none (t.addRef f (-1)) := by
  refine ⟨hp, ?_, hs⟩
  intro g
  by_cases hg : g = f
  · subst hg
    simp [addRef, hx, hr]
  · simp [addRef, hx, hr, hg, Ne.symm hg]

def FileSys.setFd (s : FileSys) (p : ProcId) (fd : Fin NOFILE) (v : Option Nat) : FileSys :=
  s.setProc p fun pr => { pr with ofile := update pr.ofile fd v }

def FileSys.setArea (s : FileSys) (p : ProcId) (i : Fin NVMA) (a : VmArea) : FileSys :=
  s.setProc p fun pr => { pr with vma := update pr.vma i a }

theorem state_setProc {h : FProc → FProc} (hs : ∀ pr, (h pr).state = pr.state) (q : ProcId) :
    ((s.setProc p h).proc q).state = (s.proc q).state := by
  by_cases hq : q = p
  · subst hq
    simp [setProc, hs]
  · simp [setProc, hq]

theorem active_setProc {h : FProc → FProc} (hs : ∀ pr, (h pr).state = pr.state) :
    ((s.setProc p h).proc q).Active ↔ (s.proc q).Active := by
  rw [FProc.Active, state_setProc hs, FProc.Active]

theorem Redirect.takeFd (hx : (s.proc p).ofile fd = none) :
    Redirect s (p, .inl fd) (some f) ((s.setFd p fd (some f)).addRef f 1) :=
  .take hx (points_setOfile s p fd _) rfl (state_setProc fun _ => rfl)

theorem Redirect.dropFd (hx : (s.proc p).ofile fd = some f) :
    Redirect s (p, .inl fd) none ((s.setFd p fd none).addRef f (-1)) :=
  .drop hx (points_setOfile s p fd _) rfl (state_setProc fun _ => rfl)

theorem Redirect.takeArea {a : VmArea} (hx : s.points (p, .inr i) = none) (hu : a.used = true) :
    Redirect s (p, .inr i) (some a.vfile) ((s.setArea p i a).addRef a.vfile 1) := by
  have hsome : areaFile a = some a.vfile := by simp [areaFile, hu]
  exact .take hx (hsome ▸ points_setVma s p i a) rfl (state_setProc fun _ => rfl)

theorem Redirect.dropArea {a : VmArea} (hx : s.points (p, .inr i) = some f)
    (hu : a.used = false) : Redirect s (p, .inr i) none ((s.setArea p i a).addRef f (-1)) := by
  have hnone : areaFile a = none := by simp [areaFile, hu]
  exact .drop hx (hnone ▸ points_setVma s p i a) rfl (state_setProc fun _ => rfl)

theorem Inv.same (h : Inv l s) (hp : t.points = s.points) (hr : t.ref = s.ref)
    (hs : ∀ q, (t.proc q).Active ↔ (s.proc q).Active) : Inv l t := by
  refine ⟨?_, ?_⟩
  · intro f
    rw [hr, hp, h.ref f]
  · intro q hq y
    rw [hp]
    exact h.idle q (fun hs' => hq ((hs q).mpr hs')) y

theorem Inv.keepArea {a : VmArea} (h : Inv l s)
    (ha : areaFile a = areaFile ((s.proc p).vma i)) : Inv l (s.setArea p i a) := by
  refine h.same ?_ rfl ?_
  · rw [setArea, points_setVma, ha]
    exact update_eq_self _ _
  · exact fun q => active_setProc fun _ => rfl

theorem points_setProc {k : FProc → FProc} (ho : ∀ pr, (k pr).ofile = pr.ofile)
    (hv : ∀ pr, (k pr).vma = pr.vma) : (s.setProc p k).points = s.points := by
  funext ⟨q, x⟩
  by_cases hq : q = p
  · subst hq
    cases x <;> simp [points, setProc, ho, hv]
  · cases x <;> simp [points, setProc, hq]

theorem Inv.setSz (h : Inv l s) (p : ProcId) (k : Nat → Nat) :
    Inv l (s.setProc p fun pr => { pr with sz := k pr.sz }) := by
  exact h.same (points_setProc (fun _ => rfl) fun _ => rfl) rfl fun q => active_setProc fun _ => rfl

theorem Inv.ref_le (h : Inv l s) (f : Nat) (hl : l.length ≤ 2) : s.ref f ≤ 4096 := by
  have := refs_points_le s f
  have := l.count_le_length (a := f)
  rw [h.ref f]
  omega

theorem Inv.ref_pos (h : Inv l s) (hx : s.points x = some f) : 1 ≤ s.ref f := by
  have := refs_pos hx
  rw [h.ref f]
  omega

/-! References in the hands of the call. -/

theorem Inv.perm {l' : List Nat} (h : Inv l s) (hl : l.Perm l') : Inv l' s :=
  ⟨fun f => by rw [h.ref f, hl.count_eq], h.idle⟩

theorem Inv.count {l' : List Nat} {d : Int} (h : Inv l s)
    (hf : (l'.count f : Int) = l.count f + d) (hother : ∀ g ≠ f, l'.count g = l.count g) :
    Inv l' (s.addRef f d) := by
  refine ⟨fun g => ?_, h.idle⟩
  by_cases hg : g = f
  · subst hg
    rw [addRef_self, addRef_points, h.ref g, hf]
    omega
  · rw [addRef_of_ne hg, addRef_points, h.ref g, hother g hg]

theorem Inv.alloc (h : Inv l s) : Inv (f :: l) (s.addRef f 1) :=
  h.count (by simp) fun _ hg => List.count_cons_of_ne (Ne.symm hg)

theorem Inv.close (h : Inv (f :: l) s) : Inv l (s.addRef f (-1)) :=
  h.count (by simp) fun _ hg => (List.count_cons_of_ne (Ne.symm hg)).symm

theorem Inv.attach (h : Inv (f :: l) s) (ha : (s.proc p).Active)
    (hx : (s.proc p).ofile fd = none) : Inv l (s.setFd p fd (some f)) := by
  have hundo : ((s.setFd p fd (some f)).addRef f 1).addRef f (-1) = s.setFd p fd (some f) :=
    addRef_undo _ f 1
  exact hundo ▸ (h.redirect (.takeFd hx) ha).close

theorem Inv.detach (h : Inv l s) (ha : (s.proc p).Active)
    (hx : (s.proc p).ofile fd = some f) : Inv (f :: l) (s.setFd p fd none) := by
  have hundo : ((s.setFd p fd none).addRef f (-1)).addRef f 1 = s.setFd p fd none :=
    addRef_undo _ f (-1)
  exact hundo ▸ (h.redirect (.dropFd hx) ha).alloc

theorem Inv.fileclose_ok (h : Inv (f :: l) s) (hl : l.length ≤ 1) :
    fileclose f s = .ok ((), s.addRef f (-1)) := by
  refine Files.fileclose_ok ?_ (h.ref_le f (by simp only [List.length_cons]; omega))
  rw [h.ref f, List.count_cons_self]
  omega

/-! ### The calls -/

theorem fdalloc_cases (s : FileSys) (p : ProcId) (f : Nat) : fdalloc p f s = .ok (none, s) ∨
    ∃ fd, (s.proc p).ofile fd = none ∧ fdalloc p f s = .ok (some fd, s.setFd p fd (some f)) := by
  unfold fdalloc
  rw [get_bind_apply]
  cases hf : (List.finRange NOFILE).find? fun fd => (s.proc p).ofile fd = none with
  | none => exact .inl rfl
  | some fd =>
    have hz : (s.proc p).ofile fd = none := by simpa using List.find?_some hf
    exact .inr ⟨fd, hz, rfl⟩

theorem argfd_some {pr : FProc} {n : Int} (h : argfd pr n = some (fd, f)) :
    pr.ofile fd = some f := by
  simp only [argfd, Option.bind_eq_some_iff, Option.map_eq_some_iff] at h
  obtain ⟨i, _, g, hg, hig⟩ := h
  cases hig
  exact hg

/-- The call returns, and the counts are right again. -/
def Sound {α : Type} (x : Kern FileSys α) (s : FileSys) : Prop := ∃ r t, x s = .ok (r, t) ∧ Inv [] t

theorem Sound.pure {α : Type} {a : α} (h : Inv [] s) : Sound (Pure.pure a) s := ⟨a, s, rfl, h⟩

theorem Sound.get {α : Type} {k : FileSys → Kern FileSys α} (h : Sound (k s) s) :
    Sound (Kern.get >>= k) s := h

theorem Sound.bind {α β : Type} {x : Kern FileSys α} {k : α → Kern FileSys β} {a : α}
    (hx : x s = .ok (a, t)) (h : Sound (k a) t) : Sound (x >>= k) s := by
  rw [Sound, bind_of_ok hx]
  exact h

theorem setOfile_ok : setOfile p fd v s = .ok ((), s.setFd p fd v) := rfl

theorem setVma_ok {a : VmArea} : setVma p i a s = .ok ((), s.setArea p i a) := rfl

section
variable (h : Inv [] s) (ha : (s.proc p).Active)
include h ha

/-- The common end of `dup` and `dup_new`. -/
theorem fdalloc_filedup_sound (hx : s.points x = some f) :
    Sound (fdalloc p f >>= fun r => match r with
      | none => pure (-1)
      | some fd => filedup f >>= fun _ => pure (fd.val : Int)) s := by
  rcases fdalloc_cases s p f with hr | ⟨fd, hn, hr⟩
  · exact .bind hr (.pure h)
  · refine .bind hr (.bind (filedup_ok ?_ ?_) (.pure (h.redirect (.takeFd hn) ha)))
    · exact h.ref_pos hx
    · exact h.ref_le f (by decide)

theorem takeFd_filedup_sound {n : Int} (hn : (s.proc p).ofile fd = none)
    (hx : s.points x = some f) :
    Sound (setOfile p fd (some f) >>= fun _ => filedup f >>= fun _ => pure n) s := by
  refine .bind setOfile_ok (.bind (filedup_ok ?_ ?_) (.pure (h.redirect (.takeFd hn) ha)))
  · exact h.ref_pos hx
  · exact h.ref_le f (by decide)

theorem sys_dup_sound (n : Int) : Sound (sys_dup p n) s := by
  refine .get ?_
  cases hfd : argfd (s.proc p) n with
  | none => exact .pure h
  | some r => exact fdalloc_filedup_sound (x := (p, .inl r.1)) h ha (argfd_some hfd)

theorem sys_close_sound (n : Int) : Sound (sys_close p n) s := by
  refine .get ?_
  cases hfd : argfd (s.proc p) n with
  | none => exact .pure h
  | some r =>
    obtain ⟨fd, f⟩ := r
    have hpt : s.points (p, .inl fd) = some f := argfd_some hfd
    refine .bind setOfile_ok (.bind (fileclose_ok ?_ ?_) (.pure (h.redirect (.dropFd hpt) ha)))
    · exact h.ref_pos hpt
    · exact h.ref_le f (by decide)

end

/-- The descriptor `newfd` is free, unless `dup_new` fails before it looks at it. -/
def FreeTarget (s : FileSys) (x : ProcId × Call) : Prop :=
  match x.2 with
  | .dup_new fd newfd => (argfd (s.proc x.1) fd).isSome → ∀ i, slotOf newfd = some i →
      (s.proc x.1).ofile i = none
  | _ => True

instance (s : FileSys) : DecidablePred (FreeTarget s) := fun (_, a) => by
  cases a <;> dsimp only [FreeTarget] <;> infer_instance

theorem sys_dup_new_sound (h : Inv [] s) (ha : (s.proc p).Active) {n m : Int}
    (hf : FreeTarget s (p, .dup_new n m)) : Sound (sys_dup_new p n m) s := by
  refine .get ?_
  cases hfd : argfd (s.proc p) n with
  | none => exact .pure h
  | some r =>
    cases hm : slotOf m with
    | none => exact .pure h
    | some i =>
      have hfree : (s.proc p).ofile i = none := hf (by simp [hfd]) i hm
      simp only [hfree]
      exact fdalloc_filedup_sound (x := (p, .inl r.1)) h ha (argfd_some hfd)

theorem slotOf_inj {n m : Int} (hn : slotOf n = some fd) (hm : slotOf m = some fd) : n = m := by
  unfold slotOf at hn hm
  split at hn
  · split at hm
    · have h := congrArg Fin.val ((Option.some.inj hn).trans (Option.some.inj hm).symm)
      simp only at h
      omega
    · cases hm
  · cases hn

theorem sys_dup2_sound (h : Inv [] s) (ha : (s.proc p).Active) (n m : Int) :
    Sound (sys_dup2 p n m) s := by
  refine .get ?_
  cases hi : slotOf n with
  | none => exact .pure h
  | some i =>
    cases hj : slotOf m with
    | none => exact .pure h
    | some j =>
      dsimp only
      cases hpt : (s.proc p).ofile i with
      | none => exact .pure h
      | some f =>
        dsimp only
        by_cases hnm : n = m
        · rw [if_pos hnm]
          exact .pure h
        rw [if_neg hnm]
        have hij : i ≠ j := by
          rintro rfl
          exact hnm (slotOf_inj hi hj)
        cases hg : (s.proc p).ofile j with
        | none => exact takeFd_filedup_sound (x := (p, .inl i)) h ha hg hpt
        | some g =>
          have h1 := h.redirect (.dropFd hg) ha
          have hfree : (((s.setFd p j none).addRef g (-1)).proc p).ofile j = none := by
            simp [setFd, setProc]
          have hpt1 : ((s.setFd p j none).addRef g (-1)).points (p, .inl i) = some f := by
            simp [points, setFd, setProc, hij, hpt]
          have ha1 : (((s.setFd p j none).addRef g (-1)).proc p).Active := by
            simpa [setFd, setProc, FProc.Active] using ha
          have hr := takeFd_filedup_sound (n := m) h1 ha1 hfree hpt1
          have hover : ((s.setFd p j none).addRef g (-1)).setFd p j (some f) =
              (s.addRef g (-1)).setFd p j (some f) := by
            simp [setFd, setProc, addRef]
          rw [Sound, bind_of_ok setOfile_ok, hover] at hr
          refine .bind (fileclose_ok ?_ ?_) (.bind setOfile_ok hr)
          · exact h.ref_pos (x := (p, .inl j)) hg
          · exact h.ref_le g (by decide)

theorem sys_open_sound (h : Inv [] s) (ha : (s.proc p).Active) (found : Bool)
    (omode : BitVec 32) : Sound (sys_open p found omode) s := by
  cases found with
  | false => exact .pure h
  | true =>
    rcases filealloc_cases s with hr | ⟨f, _, hr⟩
    · exact .bind hr (.pure h)
    · refine .bind hr ?_
      have h1 : Inv [f] (s.addRef f 1) := h.alloc
      rcases fdalloc_cases (s.addRef f 1) p f with hr2 | ⟨fd, hn, hr2⟩
      · exact .bind hr2 (.bind (h1.fileclose_ok (by decide)) (.pure h1.close))
      · exact .bind hr2 ⟨_, _, rfl, (h1.attach ha hn).same rfl rfl fun _ => .rfl⟩

theorem pipealloc_spec (h : Inv [] s) (mem : Bool) :
    ∃ r t, pipealloc mem s = .ok (r, t) ∧ t.proc = s.proc ∧
      match r with
      | none => Inv [] t
      | some (rf, wf) => Inv [rf, wf] t := by
  unfold pipealloc
  rcases filealloc_cases s with hr | ⟨f0, _, hr⟩
  · rw [bind_of_ok hr]
    exact ⟨_, _, rfl, rfl, h⟩
  rw [bind_of_ok hr]
  have h1 : Inv [f0] (s.addRef f0 1) := h.alloc
  dsimp only
  rcases filealloc_cases (s.addRef f0 1) with hr2 | ⟨f1, _, hr2⟩
  · rw [bind_of_ok hr2]
    dsimp only
    rw [bind_of_ok (h1.fileclose_ok (by decide))]
    exact ⟨_, _, rfl, rfl, h1.close⟩
  rw [bind_of_ok hr2]
  have h2 : Inv [f0, f1] ((s.addRef f0 1).addRef f1 1) := h1.alloc.perm (List.Perm.swap _ _ _)
  dsimp only
  cases mem with
  | true => exact ⟨_, _, rfl, rfl, h2.same rfl rfl fun _ => .rfl⟩
  | false =>
    have h3 := h2.close
    rw [if_neg (by decide), bind_of_ok (h2.fileclose_ok (Nat.le_refl _)),
      bind_of_ok (h3.fileclose_ok (Nat.zero_le _))]
    exact ⟨_, _, rfl, rfl, h3.close⟩

theorem close_both {rf wf : Nat} (h : Inv [rf, wf] s) :
    Sound (fileclose rf >>= fun _ => fileclose wf >>= fun _ => pure (-1 : Int)) s := by
  have h1 := h.close
  exact .bind (h.fileclose_ok (Nat.le_refl _))
    (.bind (h1.fileclose_ok (Nat.zero_le _)) (.pure h1.close))

theorem setFd_self (s : FileSys) (p : ProcId) (fd : Fin NOFILE) (v : Option Nat) :
    ((s.setFd p fd v).proc p).ofile fd = v := by
  simp [setFd, setProc]

theorem setFd_of_ne {fd' : Fin NOFILE} (hne : fd' ≠ fd) :
    ((s.setFd p fd v).proc p).ofile fd' = (s.proc p).ofile fd' := by
  simp [setFd, setProc, hne]

theorem Active.setFd (h : (s.proc q).Active) (p : ProcId) (fd : Fin NOFILE) (v : Option Nat) :
    ((s.setFd p fd v).proc q).Active := by
  refine (active_setProc ?_).mpr h
  exact fun _ => rfl

theorem sys_pipe_sound (h : Inv [] s) (ha : (s.proc p).Active) (mem copied : Bool) :
    Sound (sys_pipe p mem copied) s := by
  obtain ⟨r, t, hr, hproc, ht⟩ := pipealloc_spec h mem
  refine .bind hr ?_
  have ha1 : (t.proc p).Active := hproc ▸ ha
  cases r with
  | none => exact .pure ht
  | some ends =>
    obtain ⟨rf, wf⟩ := ends
    rcases fdalloc_cases t p rf with hr0 | ⟨fd0, hn0, hr0⟩
    · exact .bind hr0 (close_both ht)
    refine .bind hr0 ?_
    have h2 := ht.attach ha1 hn0
    have ha2 := Active.setFd ha1 p fd0 (some rf)
    rcases fdalloc_cases (t.setFd p fd0 (some rf)) p wf with hr1 | ⟨fd1, hn1, hr1⟩
    · exact .bind hr1 (.bind setOfile_ok (close_both (h2.detach ha2 (setFd_self _ _ _ _))))
    refine .bind hr1 ?_
    have h3 := h2.attach ha2 hn1
    cases copied with
    | true => exact .pure h3
    | false =>
      have hne : fd0 ≠ fd1 := by
        rintro rfl
        rw [setFd_self] at hn1
        cases hn1
      have ha3 := Active.setFd ha2 p fd1 (some wf)
      have h4 := h3.detach ha3 ((setFd_of_ne hne).trans (setFd_self _ _ fd0 _))
      have h5 := h4.detach (Active.setFd ha3 p fd0 none)
        ((setFd_of_ne hne.symm).trans (setFd_self _ _ fd1 _))
      refine .bind setOfile_ok (.bind setOfile_ok ?_)
      exact close_both (h5.perm (List.Perm.swap _ _ _))

theorem sys_mmap_sound (h : Inv [] s) (ha : (s.proc p).Active) (addr : Nat) (length : Int)
    (prot : BitVec 32) (flags n offset : Int) :
    Sound (sys_mmap p addr length prot flags n offset) s := by
  refine .get ?_
  dsimp only
  cases hfd : argfd (s.proc p) n with
  | none => exact .pure h
  | some r =>
    obtain ⟨fd, f⟩ := r
    have hpt : s.points (p, .inl fd) = some f := argfd_some hfd
    dsimp only
    split
    · exact .pure h
    · rename_i i hi
      obtain ⟨-, -, -, -, -, hunused⟩ := mmapSlot_some hi
      have hnone : s.points (p, .inr i) = none := by simp [points, areaFile, hunused]
      have hnew := h.redirect
        (.takeArea (a := ⟨true, (s.proc p).sz, length, prot, flags, f, offset⟩) hnone rfl) ha
      refine .bind setVma_ok (.bind (filedup_ok ?_ ?_) ⟨_, _, rfl, ?_⟩)
      · exact h.ref_pos hpt
      · exact h.ref_le f (by decide)
      · exact hnew.setSz p fun sz => (sz + uint64 length) % 2 ^ 64

theorem cut_keeps {a b : VmArea} {addr : Nat} {length : Int} (h : a.cut addr length = some b) :
    a.used = true ∧ b.used = true ∧ b.vfile = a.vfile := by
  unfold VmArea.cut at h
  split at h
  · cases h
  rename_i hu
  have hused : a.used = true := by simpa using fun hf => hu (.inl hf)
  split at h
  · cases h
    exact ⟨hused, hused, rfl⟩
  · split at h
    · cases h
      exact ⟨hused, hused, rfl⟩
    · cases h

theorem sys_munmap_sound (h : Inv [] s) (ha : (s.proc p).Active) (addr : Nat) (length : Int) :
    Sound (sys_munmap p addr length) s := by
  refine .get ?_
  cases hc : findCut (s.proc p).vma addr length with
  | none => exact .pure h
  | some r =>
    obtain ⟨i, a⟩ := r
    obtain ⟨hu, hua, hfile⟩ := cut_keeps (findCut_some hc)
    have hpt : s.points (p, .inr i) = some a.vfile := by simp [points, areaFile, hu, hfile]
    refine .bind setVma_ok ?_
    have h1 : Inv [] (s.setArea p i a) := h.keepArea (by simp [areaFile, hu, hua, hfile])
    by_cases hz : a.len = 0
    · have ha1 : ((s.setArea p i a).proc p).Active := by
        refine (active_setProc ?_).mpr ha
        exact fun _ => rfl
      have hx : areaFile (((s.setArea p i a).proc p).vma i) = some a.vfile := by
        simp [setArea, setProc, areaFile, hua]
      have hclose : fileclose a.vfile (s.setArea p i a) =
          .ok ((), (s.setArea p i a).addRef a.vfile (-1)) :=
        fileclose_ok (h.ref_pos hpt) (h.ref_le _ (by decide))
      rw [when_pos hz]
      refine .bind (bind_of_ok hclose) (.pure ?_)
      exact h1.redirect (.dropArea hx rfl) ha1
    · rw [when_neg hz]
      exact .pure h1

/-! ### Loops over the places of a process -/

/-- The counts are right. -/
def Counts (s : FileSys) : Prop := ∀ f, s.ref f = refs s.points f

theorem Counts.ref_pos (h : Counts s) (hx : s.points x = some f) : 1 ≤ s.ref f := by
  have := refs_pos hx
  rw [h f]
  omega

theorem Counts.ref_le (h : Counts s) (f : Nat) : s.ref f ≤ 4096 := by
  have := refs_points_le s f
  rw [h f]
  omega

theorem counts_iff : Counts s ↔ ∀ f, s.ref f = refs s.points f + ([] : List Nat).count f := by
  simp only [Counts, List.count_nil, Int.natCast_zero, Int.add_zero]

theorem Counts.redirect (h : Counts s) (hr : Redirect s x v t) : Counts t :=
  counts_iff.mpr (hr.counts (counts_iff.mp h))

/-- Only the place `x` has changed. -/
structure Touch (s : FileSys) (x : Place) (t : FileSys) : Prop where
  counts : Counts t
  others : ∀ y, y ≠ x → t.points y = s.points y
  state : ∀ q, (t.proc q).state = (s.proc q).state

theorem Counts.touch (h : Counts s) (hr : Redirect s x v t) : Touch s x t := by
  refine ⟨h.redirect hr, ?_, hr.state⟩
  intro y hy
  rw [hr.points, update_of_ne hy]

theorem Touch.refl (h : Counts s) (x : Place) : Touch s x s := ⟨h, fun _ _ => rfl, fun _ => rfl⟩

/-- A loop over places: each round needs `A` of its place and leaves it with `B`. -/
theorem touchAll {ι : Type} {y : ι → Kern FileSys Unit} {k : ι → Place}
    {A B : Option Nat → Prop} (hinj : Injective k)
    (hstep : ∀ i s, Counts s → A (s.points (k i)) →
      ∃ t, y i s = .ok ((), t) ∧ Touch s (k i) t ∧ B (t.points (k i)))
    {is : List ι} (hnd : is.Nodup) (hs : Counts s) (hpre : ∀ i ∈ is, A (s.points (k i))) :
    ∃ t, Kern.forEach is y s = .ok ((), t) ∧ Counts t ∧
      (∀ q, (t.proc q).state = (s.proc q).state) ∧
      (∀ x, (∀ i ∈ is, x ≠ k i) → t.points x = s.points x) ∧
      ∀ i ∈ is, B (t.points (k i)) := by
  induction is generalizing s with
  | nil => exact ⟨s, rfl, hs, fun _ => rfl, fun _ _ => rfl, by simp⟩
  | cons i is ih =>
    obtain ⟨hi, hnd⟩ := List.nodup_cons.mp hnd
    obtain ⟨t, ht, htouch, hpost⟩ := hstep i s hs (hpre i List.mem_cons_self)
    have hne : ∀ j ∈ is, k j ≠ k i := by
      intro j hj hji
      exact hi (hinj hji ▸ hj)
    have hpre' : ∀ j ∈ is, A (t.points (k j)) := by
      intro j hj
      rw [htouch.others _ (hne j hj)]
      exact hpre j (List.mem_cons_of_mem i hj)
    obtain ⟨u, hu, hc, hstate, hothers, hall⟩ := ih hnd htouch.counts hpre'
    refine ⟨u, ?_, hc, fun q => (hstate q).trans (htouch.state q), ?_, ?_⟩
    · rw [Kern.forEach, bind_of_ok ht]
      exact hu
    · intro x hx
      rw [hothers x fun j hj => hx j (List.mem_cons_of_mem i hj),
        htouch.others x (hx i List.mem_cons_self)]
    · intro j hj
      rcases List.mem_cons.mp hj with rfl | hj
      · rw [hothers (k j) fun l hl hjl => hne l hl hjl.symm]
        exact hpost
      · exact hall j hj

theorem exitFile_spec (h : Counts s) (p : ProcId) (fd : Fin NOFILE) :
    ∃ t, exitFile p fd s = .ok ((), t) ∧ Touch s (p, .inl fd) t ∧
      t.points (p, .inl fd) = none := by
  unfold exitFile
  rw [get_bind_apply]
  cases hf : (s.proc p).ofile fd with
  | none => exact ⟨s, rfl, .refl h _, hf⟩
  | some f =>
    have hclose : fileclose f s = .ok ((), s.addRef f (-1)) :=
      fileclose_ok (h.ref_pos (x := (p, .inl fd)) hf) (h.ref_le f)
    have hr := Redirect.dropFd hf
    dsimp only
    refine ⟨_, ?_, h.touch hr, ?_⟩
    · rw [bind_of_ok hclose]
      rfl
    · rw [hr.points, update_self]

theorem exitVma_spec (h : Counts s) (p : ProcId) (i : Fin NVMA) :
    ∃ t, exitVma p i s = .ok ((), t) ∧ Touch s (p, .inr i) t ∧
      t.points (p, .inr i) = none := by
  unfold exitVma
  rw [get_bind_apply]
  by_cases hu : ((s.proc p).vma i).used = true
  · rw [when_pos hu]
    have hpt : s.points (p, .inr i) = some ((s.proc p).vma i).vfile := by
      simp [points, areaFile, hu]
    have hclose : fileclose ((s.proc p).vma i).vfile s =
        .ok ((), s.addRef ((s.proc p).vma i).vfile (-1)) :=
      fileclose_ok (h.ref_pos hpt) (h.ref_le _)
    have hr := Redirect.dropArea (a := { (s.proc p).vma i with used := false }) hpt rfl
    refine ⟨_, ?_, h.touch hr, ?_⟩
    · rw [bind_of_ok hclose]
      rfl
    · rw [hr.points, update_self]
  · rw [when_neg hu]
    exact ⟨s, rfl, .refl h _, by simp [points, areaFile, hu]⟩

theorem forkFile_spec {np : ProcId} (h : Counts s) (i : Fin NOFILE)
    (hn : s.points (np, .inl i) = none) :
    ∃ t, forkFile p np i s = .ok ((), t) ∧ Touch s (np, .inl i) t := by
  unfold forkFile
  rw [get_bind_apply]
  cases hf : (s.proc p).ofile i with
  | none => exact ⟨s, rfl, .refl h _⟩
  | some f =>
    have hdup : filedup f s = .ok ((), s.addRef f 1) :=
      filedup_ok (h.ref_pos (x := (p, .inl i)) hf) (h.ref_le f)
    dsimp only
    refine ⟨_, ?_, h.touch (.takeFd (f := f) hn)⟩
    rw [bind_of_ok hdup]
    rfl

theorem forkVma_spec {np : ProcId} (h : Counts s) (i : Fin NVMA)
    (hn : s.points (np, .inr i) = none) :
    ∃ t, forkVma p np i s = .ok ((), t) ∧ Touch s (np, .inr i) t := by
  unfold forkVma
  rw [get_bind_apply]
  by_cases hu : ((s.proc p).vma i).used = true
  · rw [when_pos hu]
    have hpt : s.points (p, .inr i) = some ((s.proc p).vma i).vfile := by
      simp [points, areaFile, hu]
    exact ⟨_, filedup_ok (h.ref_pos hpt) (h.ref_le _), h.touch (.takeArea hn hu)⟩
  · rw [when_neg hu]
    exact ⟨s, rfl, .refl h _⟩

theorem Inv.counts (h : Inv [] s) : Counts s := counts_iff.mpr h.ref

/-- Every descriptor, and then every area, of the process `q` is gone through. -/
theorem touchProc {x : Fin NOFILE → Kern FileSys Unit} {y : Fin NVMA → Kern FileSys Unit}
    {A B : Option Nat → Prop}
    (hx : ∀ fd s, Counts s → A (s.points (q, .inl fd)) →
      ∃ t, x fd s = .ok ((), t) ∧ Touch s (q, .inl fd) t ∧ B (t.points (q, .inl fd)))
    (hy : ∀ i s, Counts s → A (s.points (q, .inr i)) →
      ∃ t, y i s = .ok ((), t) ∧ Touch s (q, .inr i) t ∧ B (t.points (q, .inr i)))
    (hs : Counts s) (hpre : ∀ z, A (s.points (q, z))) :
    ∃ t u, Kern.forEach (List.finRange NOFILE) x s = .ok ((), t) ∧
      Kern.forEach (List.finRange NVMA) y t = .ok ((), u) ∧ Counts u ∧
      (∀ r, (u.proc r).state = (s.proc r).state) ∧
      (∀ r, r ≠ q → ∀ z, u.points (r, z) = s.points (r, z)) ∧ ∀ z, B (u.points (q, z)) := by
  obtain ⟨t, ht, htc, hts, hto, htp⟩ := touchAll
    ((Prod.mk_right_injective q).comp Sum.inl_injective) hx (List.nodup_finRange _) hs
    fun fd _ => hpre (.inl fd)
  have hpre' : ∀ i ∈ List.finRange NVMA, A (t.points (q, .inr i)) := by
    intro i _
    rw [hto (q, .inr i) (by simp)]
    exact hpre (.inr i)
  obtain ⟨u, hu, huc, hus, huo, hup⟩ := touchAll
    ((Prod.mk_right_injective q).comp Sum.inr_injective) hy (List.nodup_finRange _) htc hpre'
  refine ⟨t, u, ht, hu, huc, fun r => (hus r).trans (hts r), ?_, ?_⟩
  · intro r hr z
    rw [huo (r, z) (by simp [hr]), hto (r, z) (by simp [hr])]
  · rintro (fd | i)
    · rw [huo (q, .inl fd) (by simp)]
      exact htp fd (List.mem_finRange fd)
    · exact hup i (List.mem_finRange i)

/-- After a loop over the places of `q`, when its state is set. -/
theorem Inv.of_others {u : FileSys} (h : Inv [] s) (st : ProcState) (n : Nat → Nat) (hc : Counts u)
    (hstate : ∀ r, (u.proc r).state = (s.proc r).state)
    (hothers : ∀ r, r ≠ q → ∀ z, u.points (r, z) = s.points (r, z))
    (hq : (st = .UNUSED ∨ st = .ZOMBIE) → ∀ z, u.points (q, z) = none) :
    Inv [] (u.setProc q fun pr => { pr with state := st, sz := n pr.sz }) := by
  have hpoints : (u.setProc q fun pr => { pr with state := st, sz := n pr.sz }).points =
      u.points := by
    refine points_setProc ?_ ?_ <;> exact fun _ => rfl
  refine ⟨?_, ?_⟩
  · intro f
    rw [hpoints, List.count_nil, Int.ofNat_zero, add_zero]
    exact hc f
  · intro r hr z
    rw [hpoints]
    by_cases hrq : r = q
    · subst hrq
      refine hq ?_ z
      simpa [FProc.Active, setProc, -not_and, not_and_or] using hr
    · rw [hothers r hrq z]
      refine h.idle r ?_ z
      simpa [FProc.Active, setProc, hrq, hstate r] using hr

theorem exit_sound (h : Inv [] s) (hp : p ≠ s.initproc) : Sound (exit p) s := by
  obtain ⟨t, u, ht, hu, hc, hstate, hothers, hnone⟩ := touchProc (A := fun _ => True)
    (B := (· = none)) (fun fd s h _ => exitFile_spec h p fd)
    (fun i s h _ => exitVma_spec h p i) h.counts fun _ => trivial
  refine .get ?_
  rw [if_neg hp]
  exact .bind ht (.bind hu ⟨_, _, rfl, h.of_others .ZOMBIE id hc hstate hothers fun _ => hnone⟩)

theorem Inv.clearVma {np : ProcId} (h : Inv l s) (hn : ¬ (s.proc np).Active) :
    Inv l (s.setProc np fun pr => { pr with vma := fun _ => VmArea.unused }) := by
  refine h.same ?_ rfl ?_
  · funext ⟨q, x⟩
    by_cases hq : q = np
    · subst hq
      cases x with
      | inl fd => simp [points, setProc]
      | inr i =>
        rw [h.idle q hn (.inr i)]
        simp [points, setProc, areaFile, VmArea.unused]
    · cases x <;> simp [points, setProc, hq]
  · exact fun q => active_setProc fun _ => rfl

theorem fork_sound (h : Inv [] s) (p : ProcId) (alloc copy : Bool) :
    Sound (fork p alloc copy) s := by
  refine .get ?_
  cases hnp : (List.finRange NPROC).find? fun q => (s.proc q).state = .UNUSED with
  | none => exact .pure h
  | some np =>
    have hunused : (s.proc np).state = .UNUSED := by simpa using List.find?_some hnp
    have hidle : ¬ (s.proc np).Active := fun ha => ha.1 hunused
    cases alloc with
    | false => exact .pure h
    | true =>
      refine .bind rfl ?_
      have h1 := h.clearVma hidle
      cases copy with
      | false => exact .pure h1
      | true =>
        refine .bind rfl ?_
        have h2 := h1.setSz np fun _ =>
          ((s.setProc np fun pr => { pr with vma := fun _ => VmArea.unused }).proc p).sz
        have hnone : ∀ z, _ = none := h2.idle np (by simpa [FProc.Active, setProc] using hidle)
        obtain ⟨t, u, ht, hu, hc, hstate, hothers, -⟩ := touchProc (A := (· = none))
          (B := fun _ => True)
          (fun fd s h hs => (forkFile_spec h fd hs).imp fun _ ht => ⟨ht.1, ht.2, trivial⟩)
          (fun i s h hs => (forkVma_spec h i hs).imp fun _ ht => ⟨ht.1, ht.2, trivial⟩)
          h2.counts hnone
        refine .bind ht (.bind hu ⟨_, _, rfl, ?_⟩)
        exact h2.of_others .RUNNABLE id hc hstate hothers (by simp)

theorem reap_sound (h : Inv [] s) (q : ProcId) : Sound (reap q) s := by
  refine .get ?_
  by_cases hq : (s.proc q).state = .ZOMBIE
  · rw [when_pos hq]
    have hidle : ¬ (s.proc q).Active := fun ha => ha.2 hq
    exact ⟨_, _, rfl, h.of_others .UNUSED (fun _ => 0) h.counts (fun _ => rfl) (fun _ _ _ => rfl)
      fun _ => h.idle q hidle⟩
  · rw [when_neg hq]
    exact .pure h

/-! ### Runs -/

theorem Sound.ignore {α : Type} {x : Kern FileSys α} (h : Sound x s) :
    Sound (x >>= fun _ => Pure.pure ()) s := by
  obtain ⟨r, t, hr, ht⟩ := h
  exact .bind hr (.pure ht)

/-- A call keeps the counts, or it is the exit of the first process. -/
theorem Call.run_sound (h : Inv [] s) (ha : (s.proc p).Active) {c : Call}
    (hf : FreeTarget s (p, c)) : Sound (c.run p) s ∨ c.run p s = .error "init exiting" := by
  cases c with
  | opens found omode => exact .inl (sys_open_sound h ha found omode).ignore
  | close n => exact .inl (sys_close_sound h ha n).ignore
  | dup n => exact .inl (sys_dup_sound h ha n).ignore
  | dup_new n m => exact .inl (sys_dup_new_sound h ha hf).ignore
  | dup2 n m => exact .inl (sys_dup2_sound h ha n m).ignore
  | pipe mem copied => exact .inl (sys_pipe_sound h ha mem copied).ignore
  | fork alloc copy => exact .inl (fork_sound h p alloc copy).ignore
  | exit =>
    by_cases hp : p = s.initproc
    · refine .inr ?_
      rw [Call.run, Files.exit, get_bind_apply, if_pos hp]
      rfl
    · exact .inl (exit_sound h hp)
  | wait q => exact .inl (reap_sound h q)
  | mmap addr length prot flags n offset =>
    exact .inl (sys_mmap_sound h ha addr length prot flags n offset).ignore
  | munmap addr length => exact .inl (sys_munmap_sound h ha addr length).ignore
  | resize sz => exact .inl ⟨_, _, rfl, h.setSz p fun _ => sz⟩

theorem Inv.step {a : ProcId × Call} (h : Inv [] s) (hst : Guarded FreeTarget FileSys.Steps s a t) :
    Inv [] t := by
  obtain ⟨hf, hst⟩ := hst
  unfold FileSys.Steps next at hst
  by_cases ha : (s.proc a.1).Active
  · rw [if_pos ha] at hst
    rcases Call.run_sound h ha hf with ⟨r, u, hr, hu⟩ | herr
    · rw [hr] at hst
      cases hst
      exact hu
    · rw [herr] at hst
      cases hst
  · rw [if_neg ha] at hst
    cases hst

theorem boot_inv (initproc : ProcId) : Inv [] (.boot initproc) := by
  have hnone : ∀ x, (boot initproc).points x = none := by
    rintro ⟨p, fd | i⟩
    · by_cases hp : p = initproc <;> simp [points, boot, FProc.empty, hp]
    · by_cases hp : p = initproc <;>
        simp [points, boot, FProc.empty, areaFile, VmArea.unused, hp]
  refine ⟨?_, fun p _ x => hnone (p, x)⟩
  intro f
  have : refs (boot initproc).points f = 0 := refs_eq_zero.mpr fun x => by simp [hnone x]
  rw [this]
  rfl

/-- In every run in which `dup_new` is never given an open descriptor as its target, the counts are
exact, no descriptor and no mapped file has lost its file, and no call runs into the panics of
`filedup` and `fileclose`. -/
theorem file_refs_exact {initproc : ProcId} {as : List (ProcId × Call)} {s : FileSys}
    (h : Run (Guarded FreeTarget FileSys.Steps) (.boot initproc) as s) :
    (∀ f, s.ref f = refs s.points f) ∧ (∀ x f, s.points x = some f → 1 ≤ s.ref f) ∧
      ∀ p c, (s.proc p).Active → FreeTarget s (p, c) →
        c.run p s ≠ .error "filedup" ∧ c.run p s ≠ .error "fileclose" := by
  have hstep : ∀ s a t, Guarded FreeTarget FileSys.Steps s a t → Inv [] s → Inv [] t :=
    fun _ _ _ hst hs => hs.step hst
  have hinv : Inv [] s := h.invariant hstep (boot_inv initproc)
  refine ⟨hinv.counts, fun x f hx => hinv.counts.ref_pos hx, ?_⟩
  intro p c ha hf
  rcases Call.run_sound hinv ha hf with ⟨r, t, hr, -⟩ | herr
  · rw [hr]
    exact ⟨nofun, nofun⟩
  · rw [herr]
    exact ⟨fun he => absurd (Except.error.inj he) (by decide),
      fun he => absurd (Except.error.inj he) (by decide)⟩

end

/-- Copies by each call, a pipe, a mapped file that a child shares, and a child that is gone. -/
theorem file_refs_exact_shared : ∃ s, Run (Guarded FreeTarget FileSys.Steps) (.boot 0)
    [(0, .opens true O_RDWR), (0, .dup 0), (0, .dup2 0 1), (0, .dup_new 0 5), (0, .pipe true true),
      (0, .mmap 0 4096 PROT_READ MAP_SHARED 0 0), (0, .fork true true), (1, .munmap 0 4096),
      (0, .close 0), (0, .fork true true), (2, .exit), (0, .wait 2)] s ∧
    s.ref 0 = 6 ∧ s.ref 0 = refs s.points 0 := by
  refine (Run.exists_foldlM).imp
    fun s ⟨hrun, href⟩ => ⟨hrun, href, (file_refs_exact hrun).1 0⟩

/-- A process opens a file and calls `dup_new(0, 0)`: the file is closed before it is duplicated,
and `filedup` panics. After `dup` the same call only loses a count. -/
theorem dup_new_open_target :
    (∃ s, FileSys.Steps (.boot 0) (0, .opens true O_RDWR) s ∧ (s.proc 0).Active ∧
      (Call.dup_new 0 0).run 0 s = .error "filedup") ∧
    ∃ s, Run FileSys.Steps (.boot 0)
      [(0, .opens true O_RDWR), (0, .dup 0), (0, .dup_new 0 1)] s ∧
      s.ref 0 = 2 ∧ refs s.points 0 = 3 := by
  constructor
  · unfold FileSys.Steps
    decide +kernel
  · exact Run.exists_exec

end Yyds.Files
