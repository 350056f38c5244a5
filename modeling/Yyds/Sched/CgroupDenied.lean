import Yyds.Sched.CgroupLimits

/-! What a bandwidth check that is refused costs the calls after it. -/
namespace Yyds.Cgroups

open Lib

/-- The process `pid` asks for `bytes` at a tick. -/
structure Ask where
  ticks : BitVec 32
  pid : Int
  bytes : BitVec 64
  deriving DecidableEq

/-- A call of the check for the limit `k`: `cgroup_check_io_read` and the three others. -/
def ask (k : Band) (s : State) (a : Ask) : Int × State :=
  cgroup_ask a.pid (.check k a.bytes) a.ticks s

def asks (k : Band) (s : State) (l : List Ask) : State := l.foldl (fun s a => (ask k s a).2) s

/-- The calls that are granted. -/
def granted (k : Band) : State → List Ask → List Ask
  | _, [] => []
  | s, a :: l =>
    if (ask k s a).1 = 1 then a :: granted k (ask k s a).2 l else granted k (ask k s a).2 l

/-- The bucket of a group with the limit `L`, filled up to it at most. -/
structure Filled (g : Slot) (k : Band) (L : BitVec 64) (s : State) : Prop where
  on : (s.groups g).enabled k = true
  limit : ((s.groups g).bucket k).bps_limit = L
  tokens : (level g k s).tokens ≤ L.toNat

/-- The calls come from processes of the group, in the order of their ticks. -/
structure InOrder (g : Slot) (k : Band) (s : State) (l : List Ask) : Prop where
  member : ∀ a ∈ l, charged a.pid s = some g
  later : ∀ a ∈ l, (level g k s).last ≤ a.ticks.toNat
  sorted : l.Pairwise fun a b => a.ticks.toNat ≤ b.ticks.toNat

/-- Every tick brings a whole number of tokens, and no product of the refill wraps around. -/
def Whole (L : BitVec 64) : Prop := 100 ∣ L.toNat ∧ L.toNat ≤ 2 ^ 32 + 1

section

variable {g : Slot} {k : Band} {L : BitVec 64} {s t : State} {a : Ask} {l m : List Ask}

theorem refill_level {b : Bucket} {ticks : BitVec 32} (hw : Whole b.bps_limit)
    (htokens : b.tokens.toNat ≤ b.bps_limit.toNat) (hlast : b.last_time.toNat ≤ ticks.toNat) :
    (b.refill ticks).level = b.level.fill b.bps_limit.toNat b.bps_limit.toNat 100 ticks.toNat := by
  have hprod : (ticks.toNat - b.last_time.toNat) * b.bps_limit.toNat ≤ (2 ^ 32 - 1) * (2 ^ 32 + 1) :=
    Nat.mul_le_mul (by omega) hw.2
  have hlimit := hw.2
  rw [Bucket.level, refill_tokens_eq b ticks hlast, Nat.mod_eq_of_lt (by omega),
    Nat.mod_eq_of_lt (by omega)]
  refine congrArg (Level.mk _) ?_
  simp only [Bucket.refill, BitVec.toNat_setWidth]
  omega

theorem check_keeps (cg : Cgroup) (bytes : BitVec 64) (ticks : BitVec 32) :
    let r := (cg.check k bytes ticks).2
    r.used = cg.used ∧ r.members = cg.members ∧ r.enabled k = cg.enabled k ∧
      (r.bucket k).bps_limit = (cg.bucket k).bps_limit := by
  dsimp only [Cgroup.check]
  split
  · exact ⟨rfl, rfl, rfl, rfl⟩
  · split <;> cases k <;> exact ⟨rfl, rfl, rfl, rfl⟩

/-- What the bucket holds when a call comes. -/
def filled (g : Slot) (k : Band) (L : BitVec 64) (s : State) (a : Ask) : Level :=
  (level g k s).fill L.toNat L.toNat 100 a.ticks.toNat

/-- A call fills the bucket up, and takes its bytes out if there are so many. -/
theorem ask_spec (hL : L ≠ 0) (hw : Whole L) (hs : Filled g k L s) (hpid : charged a.pid s = some g)
    (hlast : (level g k s).last ≤ a.ticks.toNat) :
    Filled g k L (ask k s a).2 ∧ (∀ pid, charged pid (ask k s a).2 = charged pid s) ∧
    (a.bytes.toNat ≤ (filled g k L s a).tokens ∧ (ask k s a).1 = 1 ∧ level g k (ask k s a).2 =
        ⟨(filled g k L s a).tokens - a.bytes.toNat, (filled g k L s a).last⟩ ∨
      (filled g k L s a).tokens < a.bytes.toNat ∧ (ask k s a).1 = 0 ∧
        level g k (ask k s a).2 = filled g k L s a) := by
  obtain ⟨hon, hlimit, htokens⟩ := hs
  have hask : ask k s a = (((s.groups g).check k a.bytes a.ticks).1,
      s.set g ((s.groups g).check k a.bytes a.ticks).2) := by
    simp only [ask, cgroup_ask, hpid, Query.answer]
  obtain ⟨hused, hmem, hen, hlim⟩ := check_keeps (s.groups g) a.bytes a.ticks
  have hcases := check_level a.ticks a.bytes hon (hlimit ▸ hL)
  have hfill : _ = filled g k L s a := hlimit ▸ refill_level (hlimit ▸ hw) (hlimit ▸ htokens) hlast
  rw [hfill] at hcases
  have hle : (filled g k L s a).tokens ≤ L.toNat := min_le_left _ _
  rw [hask]
  refine ⟨⟨?_, ?_, ?_⟩, fun pid => charged_set pid hused hmem, ?_⟩
  · rw [set_groups_self, hen, hon]
  · rw [set_groups_self, hlim, hlimit]
  · rw [level, set_groups_self]
    rcases hcases with ⟨_, _, hl⟩ | ⟨_, _, hl⟩
    · rw [hl]
      exact (Nat.sub_le _ _).trans hle
    · rw [hl]
      exact hle
  · rw [level, set_groups_self]
    exact hcases

/-- `t` is `s` without the calls that were refused. -/
structure Spared (g : Slot) (k : Band) (L : BitVec 64) (s t : State) : Prop where
  left : Filled g k L s
  right : Filled g k L t
  group : ∀ pid, charged pid t = charged pid s
  last : (level g k t).last ≤ (level g k s).last
  fills : level g k s = (level g k t).fill L.toNat L.toNat 100 (level g k s).last

theorem Spared.of_eq (hs : Filled g k L s) (ht : Filled g k L t)
    (hgroup : ∀ pid, charged pid t = charged pid s) (h : level g k t = level g k s) :
    Spared g k L s t := by
  refine ⟨hs, ht, hgroup, (congrArg Level.last h).le, ?_⟩
  rw [h, Level.fill, Nat.sub_self, Nat.zero_mul, Nat.add_zero, min_eq_right hs.tokens]

section
variable (hL : L ≠ 0) (hw : Whole L)
include hL hw

/-- The same bytes are there in both runs when a call comes. -/
theorem Spared.ask (h : Spared g k L s t) (hpid : charged a.pid s = some g)
    (hlast : (level g k s).last ≤ a.ticks.toNat) :
    (ask k s a).1 = (ask k t a).1 ∧ ((ask k s a).1 = 1 → Spared g k L (ask k s a).2 (ask k t a).2) ∧
      ((ask k s a).1 ≠ 1 → Spared g k L (ask k s a).2 t) := by
  obtain ⟨hs, hsgroup, hscases⟩ := ask_spec hL hw h.left hpid hlast
  obtain ⟨ht, htgroup, htcases⟩ :=
    ask_spec hL hw h.right ((h.group a.pid).trans hpid) (h.last.trans hlast)
  have hfill : filled g k L s a = filled g k L t a := by
    rw [filled, h.fills]
    exact Level.fill_fill hw.1 h.last hlast
  have hgroup (pid : Int) : charged pid (Cgroups.ask k t a).2 = charged pid (Cgroups.ask k s a).2 :=
    (htgroup pid).trans ((h.group pid).trans (hsgroup pid).symm)
  rw [← hfill] at htcases
  rcases hscases with ⟨hle, hs1, hsl⟩ | ⟨hlt, hs0, hsl⟩
  · obtain ⟨_, ht1, htl⟩ := htcases.resolve_right fun hlt => by omega
    exact ⟨hs1.trans ht1.symm, fun _ => .of_eq hs ht hgroup (htl.trans hsl.symm),
      fun hne => absurd hs1 hne⟩
  · obtain ⟨_, ht0, _⟩ := htcases.resolve_left fun hle => by omega
    refine ⟨hs0.trans ht0.symm, fun hone => by omega,
      fun _ => ⟨hs, h.right, fun pid => (h.group pid).trans (hsgroup pid).symm, ?_, ?_⟩⟩
    · rw [hsl]
      exact h.last.trans hlast
    · rw [hsl, hfill]
      rfl

theorem Spared.asks (h : Spared g k L s t) (hl : InOrder g k s (l ++ m)) :
    granted k t (granted k s l) = granted k s l ∧
      Spared g k L (asks k s l) (asks k t (granted k s l)) ∧ InOrder g k (asks k s l) m := by
  induction l generalizing s t with
  | nil => exact ⟨rfl, h, hl⟩
  | cons a l ih =>
    obtain ⟨hmem, hlater, hsorted⟩ := hl
    obtain ⟨hfirst, hsorted⟩ := List.pairwise_cons.mp hsorted
    have hpid := hmem a List.mem_cons_self
    have hlast := hlater a List.mem_cons_self
    obtain ⟨heq, hone, hzero⟩ := h.ask hL hw hpid hlast
    obtain ⟨_, hgroup, hcases⟩ := ask_spec hL hw h.left hpid hlast
    have hnow : (level g k (Cgroups.ask k s a).2).last = a.ticks.toNat := by
      rcases hcases with ⟨_, _, hl⟩ | ⟨_, _, hl⟩ <;> rw [hl] <;> rfl
    have hrest : InOrder g k (Cgroups.ask k s a).2 (l ++ m) :=
      ⟨fun b hb => (hgroup b.pid).trans (hmem b (List.mem_cons_of_mem _ hb)),
        fun b hb => hnow.trans_le (hfirst b hb), hsorted⟩
    by_cases hg : (Cgroups.ask k s a).1 = 1
    · obtain ⟨hsame, hspared⟩ := ih (hone hg) hrest
      rw [granted, if_pos hg, granted, if_pos (heq.symm.trans hg), hsame]
      exact ⟨rfl, hspared⟩
    · rw [granted, if_neg hg]
      exact ih (hzero hg) hrest

end

end

/-- The calls that were refused can be left out: the others are granted as before, and so is every
later call. -/
theorem denied_cost_nothing {g : Slot} {k : Band} {L : BitVec 64} {s : State} {l : List Ask}
    {a : Ask} (hL : L ≠ 0) (hw : Whole L) (hs : Filled g k L s) (hl : InOrder g k s (l ++ [a])) :
    granted k s (granted k s l) = granted k s l ∧
      (ask k (asks k s l) a).1 = (ask k (asks k s (granted k s l)) a).1 := by
  obtain ⟨hsame, hspared, hlast⟩ := Spared.asks hL hw (.of_eq hs hs (fun _ => rfl) rfl) hl
  have ha : a ∈ [a] := List.mem_singleton_self a
  exact ⟨hsame, (hspared.ask hL hw (hlast.member a ha) (hlast.later a ha)).1⟩

/-- The process 5 is in the root group, which may read `L` bytes a second. -/
def reader (L : BitVec 64) : State :=
  (cgroup_set_io_limit 0 L 0 0 (cgroup_attach 0 5 cgroups_init).2).2

/-- A call that asks too early is granted as soon as one that waits. -/
theorem denied_cost_nothing_early : (ask .read (reader 100) ⟨50, 5, 70⟩).1 = 0 ∧
    (ask .read (asks .read (reader 100) [⟨50, 5, 70⟩]) ⟨70, 5, 70⟩).1 =
      (ask .read (reader 100) ⟨70, 5, 70⟩).1 :=
  ⟨by decide +kernel, (denied_cost_nothing (g := 0) (L := 100) (by decide) ⟨by decide, by decide⟩
    ⟨by decide +kernel, by decide +kernel, by decide +kernel⟩
    ⟨by decide +kernel, by decide +kernel, by decide +kernel⟩).2⟩

/-- With 50 bytes a second, two calls that are refused cost the next one a token: it is refused as
well, and without them it would have been granted. -/
theorem denied_costs : granted .read (reader 50) [⟨50, 5, 50⟩, ⟨99, 5, 50⟩] = [] ∧
    (ask .read (asks .read (reader 50) [⟨50, 5, 50⟩, ⟨99, 5, 50⟩]) ⟨100, 5, 50⟩).1 = 0 ∧
    (ask .read (reader 50) ⟨100, 5, 50⟩).1 = 1 := by decide +kernel

end Yyds.Cgroups
