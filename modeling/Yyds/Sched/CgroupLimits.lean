import Yyds.Lib.TokenBucket
import Yyds.Sched.Cgroups

/-! What the limits of a control group bound: the bytes that the bandwidth checks let through, and
the memory that is in use. -/
namespace Yyds.Cgroups

open Lib
open Function (update_of_ne)

/-! ### Buckets -/

section Buckets

variable {cg : Cgroup} {k k' : Band}

@[simp] theorem bucket_setBucket (cg : Cgroup) (k : Band) (b : Bucket) :
    (cg.setBucket k b).bucket k = b := by
  cases k <;> rfl

theorem bucket_setBucket_of_ne (h : k' ≠ k) (b : Bucket) :
    (cg.setBucket k' b).bucket k = cg.bucket k := by
  cases k <;> cases k' <;> first | rfl | exact absurd rfl h

@[simp] theorem bucket_throttle (cg : Cgroup) (k k' : Band) :
    (cg.throttle k').bucket k = cg.bucket k := by
  cases k <;> cases k' <;> rfl

/-- What is in a bucket, in numbers. -/
def Bucket.level (b : Bucket) : Level := ⟨b.tokens.toNat, b.last_time.toNat⟩

theorem level_apply (x : Setting) : ((x.apply cg).bucket k).level = (cg.bucket k).level := by
  cases x <;> cases k <;> rfl

variable (b : Bucket) (ticks : BitVec 32)

theorem refill_tokens_le : (b.refill ticks).tokens.toNat ≤ b.bps_limit.toNat := by
  dsimp only [Bucket.refill]
  split
  · exact le_rfl
  · rename_i h
    exact BitVec.le_def.mp (BitVec.not_lt.mp h)

theorem refill_tokens_eq (h : b.last_time.toNat ≤ ticks.toNat) :
    (b.refill ticks).tokens.toNat = min b.bps_limit.toNat ((b.tokens.toNat +
      (ticks.toNat - b.last_time.toNat) * b.bps_limit.toNat % 2 ^ 64 / 100) % 2 ^ 64) := by
  have helapsed : (ticks.setWidth 64 - b.last_time).toNat = ticks.toNat - b.last_time.toNat := by
    rw [BitVec.toNat_sub, BitVec.toNat_setWidth]
    omega
  have hsum : (b.tokens + (ticks.setWidth 64 - b.last_time) * b.bps_limit / 100).toNat =
      (b.tokens.toNat +
        (ticks.toNat - b.last_time.toNat) * b.bps_limit.toNat % 2 ^ 64 / 100) % 2 ^ 64 := by
    rw [BitVec.toNat_add, BitVec.toNat_udiv, BitVec.toNat_mul, helapsed]
    rfl
  rw [← hsum]
  dsimp only [Bucket.refill]
  split
  · rename_i hgt
    exact (min_eq_left (BitVec.lt_def.mp hgt).le).symm
  · rename_i hgt
    exact (min_eq_right (BitVec.le_def.mp (BitVec.not_lt.mp hgt))).symm

/-- Every operation of the refill can wrap around, and then there are fewer tokens. -/
theorem refill_tokens_rate (h : b.last_time.toNat ≤ ticks.toNat) :
    (b.refill ticks).tokens.toNat ≤
      b.tokens.toNat + (ticks.toNat - b.last_time.toNat) * b.bps_limit.toNat / 100 := by
  rw [refill_tokens_eq b ticks h]
  refine (min_le_right _ _).trans ((Nat.mod_le _ _).trans (Nat.add_le_add_left ?_ _))
  exact Nat.div_le_div_right (Nat.mod_le _ _)

/-- A call fills the bucket up, and takes its bytes out if there are so many. -/
theorem check_level (bytes : BitVec 64) (hen : cg.enabled k = true)
    (hlim : (cg.bucket k).bps_limit ≠ 0) :
    let f := ((cg.bucket k).refill ticks).level
    let r := cg.check k bytes ticks
    bytes.toNat ≤ f.tokens ∧ r.1 = 1 ∧ (r.2.bucket k).level = ⟨f.tokens - bytes.toNat, f.last⟩ ∨
    f.tokens < bytes.toNat ∧ r.1 = 0 ∧ (r.2.bucket k).level = f := by
  have hopen : ¬ (cg.enabled k = false ∨ (cg.bucket k).bps_limit = 0) := by
    simpa [hen] using hlim
  intro f r
  simp only [r, Cgroup.check, if_neg hopen]
  by_cases henough : ((cg.bucket k).refill ticks).tokens ≥ bytes
  · rw [if_pos henough, bucket_setBucket]
    refine .inl ⟨BitVec.le_def.mp henough, rfl, ?_⟩
    simp only [f, Bucket.level, Bucket.spend, BitVec.toNat_sub_of_le henough]
  · rw [if_neg henough, bucket_throttle, bucket_setBucket]
    exact .inr ⟨BitVec.lt_def.mp (BitVec.not_le.mp henough), rfl, rfl⟩

theorem take_check (bytes : BitVec 64) (hen : cg.enabled k = true)
    (hlim : (cg.bucket k).bps_limit ≠ 0) :
    Take (cg.bucket k).bps_limit.toNat (cg.bucket k).bps_limit.toNat 100 (cg.bucket k).level
      ticks.toNat (if (cg.check k bytes ticks).1 = 1 then bytes.toNat else 0)
      ((cg.check k bytes ticks).2.bucket k).level := by
  have hsize : ((cg.bucket k).refill ticks).level.tokens ≤ _ := refill_tokens_le _ ticks
  have hrate : _ → ((cg.bucket k).refill ticks).level.tokens ≤ _ :=
    refill_tokens_rate (cg.bucket k) ticks
  have hlast : ((cg.bucket k).refill ticks).level.last = ticks.toNat := by
    simp [Bucket.refill, Bucket.level]
    omega
  rcases check_level ticks bytes hen hlim with ⟨hle, hone, hlevel⟩ | ⟨_, hzero, hlevel⟩
  · rw [hone, hlevel]
    refine ⟨hlast, ?_, fun h => ?_⟩
    · exact (Nat.sub_add_cancel hle).trans_le hsize
    · exact (Nat.sub_add_cancel hle).trans_le (hrate h)
  · rw [hzero, hlevel]
    exact ⟨hlast, hsize, hrate⟩

end Buckets

/-! ### The rate bound -/

/-- The bytes that a call is let through with, from the bucket `k` of group `g`. -/
def admits (g : Slot) (k : Band) (s : State) (a : Call) : Nat :=
  match a.2 with
  | .ask pid (.check k' bytes) =>
    if k' = k ∧ charged pid s = some g ∧ (exec a.1 a.2 s).1 = 1 then bytes.toNat else 0
  | _ => 0

/-- The bytes of all calls made at a tick from `t₁` to `t₂`. -/
def admitted (g : Slot) (k : Band) (t₁ t₂ : BitVec 32) : State → List Call → Nat
  | _, [] => 0
  | s, a :: as =>
    (if t₁ ≤ a.1 ∧ a.1 ≤ t₂ then admits g k s a else 0) +
      admitted g k t₁ t₂ (exec a.1 a.2 s).2 as

/-- The group stays, and its limit stays `L`; calls for it, for others and other calls may come. -/
def LimitKept (g : Slot) (k : Band) (L : BitVec 64) (s : State) (a : Call) : Prop :=
  ((exec a.1 a.2 s).2.groups g).used = true ∧
    (((exec a.1 a.2 s).2.groups g).bucket k).bps_limit = L
  deriving Decidable

/-- The table with other tokens in one bucket. -/
def State.setTokens (s : State) (g : Slot) (k : Band) (tokens : BitVec 64) : State :=
  s.set g ((s.groups g).setBucket k { (s.groups g).bucket k with tokens })

/-- The bucket of a used group with the limit `L`, and all controllers on. -/
structure Limited (g : Slot) (k : Band) (L : BitVec 64) (s : State) : Prop where
  used : (s.groups g).used = true
  limit : ((s.groups g).bucket k).bps_limit = L
  on : AllOn s

section Rate

variable {g : Slot} {k : Band} {L : BitVec 64} {s t : State} {a : Call}

def level (g : Slot) (k : Band) (s : State) : Level := ((s.groups g).bucket k).level

/-- A change of one group that leaves its buckets is nothing to the bucket. -/
theorem idle_of_set {i : Slot} {cg : Cgroup} (now : Nat)
    (h : i = g → (cg.bucket k).level = level g k s) :
    BucketStep L.toNat L.toNat 100 (level g k s) (now, none) (level g k (s.set i cg)) := by
  have hsame : level g k (s.set i cg) = level g k s := by
    by_cases hi : i = g
    · subst hi
      rw [level, set_groups_self]
      exact h rfl
    · rw [level, set_groups_of_ne _ fun hg => hi hg.symm]
      rfl
  rw [hsame]
  exact .idle now

/-- Only a check takes from a bucket. -/
theorem idle_of_effect {op : Op} {ticks : BitVec 32} (h : Effect s (ticks, op) t) (now : Nat)
    (hop : ∀ pid q, op ≠ .ask pid q) (hs : (s.groups g).used = true)
    (ht : (t.groups g).used = true) :
    BucketStep L.toNat L.toNat 100 (level g k s) (now, none) (level g k t) := by
  cases h with
  | none => exact .idle now
  | create _ hfree =>
    refine idle_of_set now fun hi => ?_
    have hfalse := freeSlot_eq_some hfree
    rw [hi, hs] at hfalse
    exact absurd hfalse (by simp)
  | @delete _ id i hfind _ =>
    refine idle_of_set now fun hi => ?_
    rw [hi] at ht
    exact absurd ht (by simp)
  | attach => exact idle_of_set now fun hi => by rw [← hi]; rfl
  | detach => exact idle_of_set now fun hi => by rw [← hi]; rfl
  | set => exact idle_of_set now fun hi => by rw [← hi]; exact level_apply _
  | @ask _ pid q _ _ => exact absurd rfl (hop pid q)

section
variable (hs : Limited g k L s) (hL : L ≠ 0)
include hs hL

/-- A query that reaches the group takes what it is let through with. -/
theorem take_of_ask {pid : Int} {q : Query} {i : Slot} {ticks : BitVec 32}
    (hch : charged pid s = some i) :
    ∃ spent : Option Nat, spent.getD 0 = admits g k s (ticks, .ask pid q) ∧
      BucketStep L.toNat L.toNat 100 (level g k s) (ticks.toNat, spent)
        (level g k (s.set i (q.answer ticks (s.groups i)).2)) := by
  have hlim := hs.limit
  cases q with
  | checkMemory size => exact ⟨none, rfl, idle_of_set _ fun hi => by rw [← hi]; rfl⟩
  | updateMemory delta =>
    refine ⟨none, rfl, idle_of_set _ fun hi => ?_⟩
    rw [← hi]
    cases k <;> rfl
  | check k' bytes =>
    have hret : (exec ticks (.ask pid (.check k' bytes)) s).1 =
        ((s.groups i).check k' bytes ticks).1 := by
      simp only [exec, cgroup_ask, hch]
      rfl
    by_cases hhere : i = g ∧ k' = k
    · obtain ⟨rfl, rfl⟩ := hhere
      have hon := (hs.on i hs.used).enabled (by rw [hlim]; exact hL)
      have htake := take_check ticks bytes hon (by rw [hlim]; exact hL)
      rw [hlim] at htake
      refine ⟨some (if ((s.groups i).check k' bytes ticks).1 = 1 then bytes.toNat else 0), ?_,
        .take ?_⟩
      · simp only [Option.getD_some, admits, hch, hret, true_and]
      · rw [level, level, set_groups_self]
        exact htake
    · refine ⟨none, ?_, idle_of_set _ fun hi => ?_⟩
      · have hno : ¬ (k' = k ∧ charged pid s = some g ∧
            (exec ticks (.ask pid (.check k' bytes)) s).1 = 1) := by
          rintro ⟨hk, hg, _⟩
          rw [hch] at hg
          exact hhere ⟨Option.some.inj hg, hk⟩
        simp only [admits, if_neg hno, Option.getD_none]
      · subst hi
        have hk : k' ≠ k := fun hk => hhere ⟨rfl, hk⟩
        dsimp only [Query.answer, Cgroup.check]
        split
        · rfl
        · split
          · rw [bucket_setBucket_of_ne hk]
            rfl
          · rw [bucket_throttle, bucket_setBucket_of_ne hk]
            rfl

/-- Every call takes from the bucket what it is let through with, or leaves the bucket. -/
theorem Limited.step (h : Guarded (LimitKept g k L) Step s a t) :
    Limited g k L t ∧ ∃ spent : Option Nat, spent.getD 0 = admits g k s a ∧
      BucketStep L.toNat L.toNat 100 (level g k s) (a.1.toNat, spent) (level g k t) := by
  obtain ⟨⟨hused, hlimit⟩, hstep⟩ := h
  rw [show (exec a.1 a.2 s).2 = t from hstep] at hused hlimit
  refine ⟨⟨hused, hlimit, hs.on.step hstep⟩, ?_⟩
  obtain ⟨ticks, op⟩ := a
  cases op with
  | ask pid q =>
    cases hch : charged pid s with
    | none =>
      have ht : t = s := by
        rw [← show (exec ticks (.ask pid q) s).2 = t from hstep]
        simp only [exec, cgroup_ask, hch]
      rw [ht]
      refine ⟨none, ?_, .idle _⟩
      cases q <;> simp [admits, hch]
    | some i =>
      have ht : t = s.set i (q.answer ticks (s.groups i)).2 := by
        rw [← show (exec ticks (.ask pid q) s).2 = t from hstep]
        simp only [exec, cgroup_ask, hch]
      rw [ht]
      exact take_of_ask hs hL hch
  | _ => exact ⟨none, rfl, idle_of_effect hstep.effect _ (by simp) hs.used hused⟩

/-- A run is a run of an abstract bucket that takes the same in every window. -/
theorem Limited.run {ops : List Call} (h : Run (Guarded (LimitKept g k L) Step) s ops t)
    (t1 t2 : BitVec 32) :
    ∃ as, Run (BucketStep L.toNat L.toNat 100) (level g k s) as (level g k t) ∧
      as.map Prod.fst = ops.map (fun a => a.1.toNat) ∧
      spentIn t1.toNat t2.toNat as = admitted g k t1 t2 s ops := by
  induction h with
  | nil s => exact ⟨[], .nil _, rfl, rfl⟩
  | @cons s u t a ops hstep _ ih =>
    obtain ⟨hu, spent, hspent, hbucket⟩ := hs.step hL hstep
    obtain ⟨as, hrun, htimes, hsum⟩ := ih hu
    refine ⟨(a.1.toNat, spent) :: as, .cons hbucket hrun, ?_, ?_⟩
    · rw [List.map_cons, htimes, List.map_cons]
    · rw [spentIn, admitted, hsum, hspent, show (exec a.1 a.2 s).2 = u from hstep.2]
      rfl

end

theorem Limited.setTokens (hs : Limited g k L s) (tokens : BitVec 64) :
    Limited g k L (s.setTokens g k tokens) := by
  have hon := (hs.on g hs.used).setBucket (b := { (s.groups g).bucket k with tokens }) rfl
  refine ⟨?_, ?_, hs.on.set fun _ => hon⟩
  · have hkeep : ∀ b, ((s.groups g).setBucket k b).used = (s.groups g).used := by
      cases k <;> exact fun _ => rfl
    rw [State.setTokens, set_groups_self, hkeep]
    exact hs.used
  · rw [State.setTokens, set_groups_self, bucket_setBucket]
    exact hs.limit

end Rate

/-- Whatever was called before and however full the bucket is: while the limit of a group stays
`L`, the calls made from tick `t₁` to tick `t₂` are let through with at most `L` bytes and the
hundredth part of `L` for every tick of the window. -/
theorem bandwidth_le {before ops : List Call} {s t : State} {g : Slot} {k : Band}
    {L tokens : BitVec 64} {t₁ t₂ : BitVec 32} (hbefore : Run Step cgroups_init before s)
    (hused : (s.groups g).used = true) (hlimit : ((s.groups g).bucket k).bps_limit = L)
    (hL : L ≠ 0) (hops : Run (Guarded (LimitKept g k L) Step) (s.setTokens g k tokens) ops t)
    (hticks : (ops.map fun a => a.1.toNat).Pairwise (· ≤ ·)) :
    admitted g k t₁ t₂ (s.setTokens g k tokens) ops ≤
      L.toNat + (t₂.toNat - t₁.toNat) * L.toNat / 100 := by
  have hs : Limited g k L s := ⟨hused, hlimit, allOn_of_run hbefore⟩
  obtain ⟨as, hrun, htimes, hsum⟩ := (hs.setTokens tokens).run hL hops t₁ t₂
  rw [← hsum]
  exact spentIn_le hrun (by rw [htimes]; exact hticks)

/-- A reader of the root group with a limit of 200 bytes takes 220 bytes in ten ticks. -/
theorem bandwidth_le_tight : ∃ s t,
    Run Step cgroups_init [(0, .attach 0 5), (0, .set 0 (.ioLimit 200 0 0))] s ∧
    Run (Guarded (LimitKept 0 .read 200) Step) (s.setTokens 0 .read 1000)
      [(10, .ask 5 (.check .read 150)), (20, .ask 5 (.check .read 70))] t ∧
    admitted 0 .read 10 20 (s.setTokens 0 .read 1000)
      [(10, .ask 5 (.check .read 150)), (20, .ask 5 (.check .read 70))] = 220 ∧
    admitted 0 .read 10 20 (s.setTokens 0 .read 1000)
      [(10, .ask 5 (.check .read 150)), (20, .ask 5 (.check .read 70))] ≤
        200 + (20 - 10) * 200 / 100 := by
  let s := ([(0, .attach 0 5), (0, .set 0 (.ioLimit 200 0 0))] : List Call).foldl
    (fun s a => (exec a.1 a.2 s).2) cgroups_init
  have hs : Run Step cgroups_init _ s := Run.of_foldl _ _ _
  have h : (([(10, .ask 5 (.check .read 150)), (20, .ask 5 (.check .read 70))] : List Call).foldlM
      (fun s a => if LimitKept 0 .read 200 s a then some (exec a.1 a.2 s).2 else none)
      (s.setTokens 0 .read 1000)).isSome = true := by decide +kernel
  obtain ⟨t, ht⟩ := Option.isSome_iff_exists.mp h
  have hrun : Run (Guarded (LimitKept 0 .read 200) Step) _ _ t := Run.of_guards ht
  exact ⟨s, t, hs, hrun, by decide +kernel,
    bandwidth_le hs (by decide +kernel) (by decide +kernel) (by decide) hrun (by decide)⟩

/-! ### Memory -/

/-- A process that asks for memory: it makes a check and, if that was granted, an update. -/
inductive MemAct
  | check (pid : Int) (size : BitVec 64)
  | update (pid : Int)

/-- The groups, and for each process the size it was granted and has not yet added. -/
structure MemSys where
  table : State
  granted : Int → Option Nat

/-- Only a size that is a positive `int` can be passed on to `cgroup_update_memory`. The tick is
not read by these calls. -/
def MemSys.step (s : MemSys) : MemAct → Option MemSys
  | .check pid size =>
    let ok := (cgroup_check_memory pid size 0 s.table).1 = 1 ∧ 0 < size.toNat ∧ size.toNat < 2 ^ 31
    some
      { table := (cgroup_check_memory pid size 0 s.table).2
        granted := Function.update s.granted pid (if ok then some size.toNat else none) }
  | .update pid =>
    match s.granted pid with
    | none => none
    | some size =>
      some
        { table := (cgroup_update_memory pid size 0 s.table).2
          granted := Function.update s.granted pid none }

def MemStep (s : MemSys) (a : MemAct) (t : MemSys) : Prop := s.step a = some t

/-- A check against `g` is made when the sum does not wrap around, and while no other process of
`g` is between its check and its update. -/
def Serial (g : Slot) (s : MemSys) : MemAct → Prop
  | .check pid size =>
    charged pid s.table = some g →
      (s.table.groups g).memory.memory_usage.toNat + size.toNat < 2 ^ 64 ∧
      ∀ q ∈ (s.table.groups g).members, q ≠ pid → charged q s.table = some g → s.granted q = none
  | .update _ => True

instance (g : Slot) (s : MemSys) : DecidablePred (Serial g s) := fun a => by
  cases a <;> dsimp only [Serial] <;> infer_instance

/-- What a check and an update leave to the limit `L` of group `g`. -/
structure MemInv (g : Slot) (L : BitVec 64) (s : MemSys) : Prop where
  enabled : (s.table.groups g).memory.enabled = true
  limit : (s.table.groups g).memory.memory_limit = L
  usage : (s.table.groups g).memory.memory_usage.toNat ≤ L.toNat
  grant : ∀ pid size, charged pid s.table = some g → s.granted pid = some size →
    0 < size ∧ size < 2 ^ 31 ∧
      (s.table.groups g).memory.memory_usage.toNat + size ≤ L.toNat
  single : ∀ p q, charged p s.table = some g → charged q s.table = some g →
    s.granted p ≠ none → s.granted q ≠ none → p = q

section Memory

variable {g : Slot} {L : BitVec 64} {s t : MemSys}

/-- A check that is granted without the sum wrapping around leaves room for the size. -/
theorem MemInv.room (hs : MemInv g L s) (hL : 0 < L.toNat) {pid : Int} {size : BitVec 64}
    (hch : charged pid s.table = some g)
    (hwrap : (s.table.groups g).memory.memory_usage.toNat + size.toNat < 2 ^ 64)
    (hok : (cgroup_check_memory pid size 0 s.table).1 = 1) :
    (s.table.groups g).memory.memory_usage.toNat + size.toNat ≤ L.toNat := by
  have hret : (cgroup_check_memory pid size 0 s.table).1 =
      (s.table.groups g).memory.check size := by
    simp only [cgroup_check_memory, cgroup_ask, hch]
    rfl
  rw [hret, MemoryController.check, hs.enabled, hs.limit] at hok
  split at hok
  · exact absurd hok (by decide)
  · rename_i hno
    have hpos : L > 0 := BitVec.lt_def.mpr (by simpa using hL)
    have hle := BitVec.not_lt.mp fun hgt => hno ⟨rfl, hpos, hgt⟩
    have hle := BitVec.le_def.mp hle
    rwa [BitVec.toNat_add, Nat.mod_eq_of_lt hwrap] at hle

theorem check_table (pid : Int) (size : BitVec 64) (s : State) :
    (cgroup_check_memory pid size 0 s).2 = s := by
  unfold cgroup_check_memory cgroup_ask
  split
  · rfl
  · simp [Query.answer, State.set]

theorem MemInv.check (hs : MemInv g L s) (hL : 0 < L.toNat) {pid : Int} {size : BitVec 64}
    (hguard : Serial g s (.check pid size)) (h : MemStep s (.check pid size) t) : MemInv g L t := by
  cases h
  rw [check_table]
  refine ⟨hs.enabled, hs.limit, hs.usage, fun p d hp hd => ?_, fun p q hp hq hgp hgq => ?_⟩
  · dsimp only at hp hd
    by_cases hpp : p = pid
    · subst hpp
      rw [Function.update_self, Option.ite_none_right_eq_some] at hd
      obtain ⟨⟨hok, hpos, hlt⟩, hd⟩ := hd
      cases hd
      exact ⟨hpos, hlt, hs.room hL hp (hguard hp).1 hok⟩
    · rw [update_of_ne hpp] at hd
      exact hs.grant p d hp hd
  -- another process of the group holds no grant when the check is made
  · dsimp only at hp hq hgp hgq
    have hother : ∀ r, charged r s.table = some g → charged pid s.table = some g → r ≠ pid →
        s.granted r = none := fun r hr hpid hne =>
      (hguard hpid).2 r (charged_eq_some hr).2 hne hr
    by_cases hpp : p = pid
    · by_cases hqp : q = pid
      · rw [hpp, hqp]
      · rw [update_of_ne hqp] at hgq
        exact absurd (hother q hq (hpp ▸ hp) hqp) hgq
    · rw [update_of_ne hpp] at hgp
      by_cases hqp : q = pid
      · exact absurd (hother p hp (hqp ▸ hq) hpp) hgp
      · rw [update_of_ne hqp] at hgq
        exact hs.single p q hp hq hgp hgq

theorem update_enabled_limit (m : MemoryController) (delta : Int) :
    (m.update delta).enabled = m.enabled ∧ (m.update delta).memory_limit = m.memory_limit := by
  unfold MemoryController.update
  split
  · exact ⟨rfl, rfl⟩
  · split <;> exact ⟨rfl, rfl⟩

theorem update_usage {m : MemoryController} {size : Nat} (hpos : 0 < size) (hlt : size < 2 ^ 31)
    (hfit : m.memory_usage.toNat + size < 2 ^ 64) :
    (m.update size).memory_usage.toNat = m.memory_usage.toNat + size := by
  have hdelta : (BitVec.ofInt 64 size).toNat = size := by
    simp only [BitVec.toNat_ofInt]
    omega
  rw [MemoryController.update, if_pos (by omega)]
  rw [BitVec.toNat_add, hdelta, Nat.mod_eq_of_lt hfit]

/-- An update charged to another group is nothing to `g`. -/
theorem update_table_of_ne {pid : Int} {size : Nat} {s : State} (h : charged pid s ≠ some g) :
    (cgroup_update_memory pid size 0 s).2.groups g = s.groups g := by
  unfold cgroup_update_memory cgroup_ask
  split
  · rfl
  · rename_i i hi
    exact set_groups_of_ne _ fun hg => h (hg ▸ hi)

theorem update_table {pid : Int} {size : Nat} {s : State} (h : charged pid s = some g) :
    (cgroup_update_memory pid size 0 s).2.groups g =
      { s.groups g with memory := (s.groups g).memory.update size } := by
  unfold cgroup_update_memory cgroup_ask
  rw [h]
  exact set_groups_self _ _ _

theorem charged_update (p pid : Int) (size : Nat) (s : State) :
    charged p (cgroup_update_memory pid size 0 s).2 = charged p s := by
  unfold cgroup_update_memory cgroup_ask
  split
  · rfl
  · exact charged_set p rfl rfl

theorem MemInv.update (hs : MemInv g L s) {pid : Int} (h : MemStep s (.update pid) t) :
    MemInv g L t := by
  unfold MemStep MemSys.step at h
  cases hgr : s.granted pid with
  | none => simp [hgr] at h
  | some size =>
    simp only [hgr, Option.some.injEq] at h
    subst h
    -- who still holds a grant held it before
    have hleft : ∀ p, Function.update s.granted pid none p ≠ none →
        p ≠ pid ∧ s.granted p ≠ none := by
      intro p hp
      by_cases hpp : p = pid
      · subst hpp
        exact absurd (by simp) hp
      · rw [update_of_ne hpp] at hp
        exact ⟨hpp, hp⟩
    have hsingle : ∀ p q, charged p s.table = some g → charged q s.table = some g →
        Function.update s.granted pid none p ≠ none →
        Function.update s.granted pid none q ≠ none → p = q := fun p q hp hq hgp hgq =>
      hs.single p q hp hq (hleft p hgp).2 (hleft q hgq).2
    by_cases hch : charged pid s.table = some g
    · obtain ⟨hpos, hlt, hfit⟩ := hs.grant pid size hch hgr
      have husage := update_usage hpos hlt (hfit.trans_lt L.isLt)
      obtain ⟨hen, hlim⟩ := update_enabled_limit (s.table.groups g).memory size
      constructor
      all_goals simp only [charged_update, update_table hch]
      · exact hen.trans hs.enabled
      · exact hlim.trans hs.limit
      · rw [husage]
        exact hfit
      · intro p d hp hd
        obtain ⟨hne, hgp⟩ := hleft p (by rw [hd]; simp)
        exact absurd (hs.single p pid hp hch hgp (by rw [hgr]; simp)) hne
      · exact hsingle
    · constructor
      all_goals simp only [charged_update, update_table_of_ne hch]
      · exact hs.enabled
      · exact hs.limit
      · exact hs.usage
      · intro p d hp hd
        obtain ⟨hne, _⟩ := hleft p (by rw [hd]; simp)
        rw [update_of_ne hne] at hd
        exact hs.grant p d hp hd
      · exact hsingle

theorem MemInv.step (hs : MemInv g L s) (hL : 0 < L.toNat) {a : MemAct}
    (h : Guarded (Serial g) MemStep s a t) : MemInv g L t := by
  cases a with
  | check pid size => exact hs.check hL h.1 h.2
  | update pid => exact hs.update h.2

end Memory

/-- Processes check and update one after the other. Then a check is granted only if the size still
fits, and the memory in use stays within the limit. -/
theorem memory_limit_kept {before : List Call} {acts : List MemAct} {s : State} {t : MemSys}
    {g : Slot} (hbefore : Run Step cgroups_init before s) (hused : (s.groups g).used = true)
    (hlimit : 0 < (s.groups g).memory.memory_limit.toNat)
    (hstart : (s.groups g).memory.memory_usage.toNat ≤ (s.groups g).memory.memory_limit.toNat)
    (hrun : Run (Guarded (Serial g) MemStep) ⟨s, fun _ => none⟩ acts t) :
    (t.table.groups g).memory.memory_limit = (s.groups g).memory.memory_limit ∧
    (t.table.groups g).memory.memory_usage.toNat ≤ (s.groups g).memory.memory_limit.toNat ∧
    ∀ pid size, Serial g t (.check pid size) → charged pid t.table = some g →
      (cgroup_check_memory pid size 0 t.table).1 = 1 →
      (t.table.groups g).memory.memory_usage.toNat + size.toNat ≤
        (s.groups g).memory.memory_limit.toNat := by
  have hon := allOn_of_run hbefore g hused
  have hs : MemInv g (s.groups g).memory.memory_limit ⟨s, fun _ => none⟩ :=
    ⟨hon.memory, rfl, hstart, fun _ _ _ h => absurd h (by simp), fun _ _ _ _ h => absurd rfl h⟩
  have ht : MemInv g (s.groups g).memory.memory_limit t :=
    hrun.invariant (fun _ _ _ hstep hinv => hinv.step hlimit hstep) hs
  exact ⟨ht.limit, ht.usage, fun pid size hserial hch => ht.room hlimit hch (hserial hch).1⟩

/-- Two processes in the root group with a limit of 100 bytes. -/
def twoMembers : List Call :=
  [(0, .attach 0 5), (0, .attach 0 6), (0, .set 0 (.memory 100))]

/-- The second process is refused until its size fits. -/
theorem memory_limit_kept_two : ∃ s t, Run Step cgroups_init twoMembers s ∧
    Run (Guarded (Serial 0) MemStep) ⟨s, fun _ => none⟩
      [.check 5 60, .update 5, .check 6 60, .check 6 40, .update 6] t ∧
    (t.table.groups 0).memory.memory_usage = 100 ∧
    (t.table.groups 0).memory.memory_usage.toNat ≤ (s.groups 0).memory.memory_limit.toNat := by
  let s := twoMembers.foldl (fun s a => (exec a.1 a.2 s).2) cgroups_init
  have hs : Run Step cgroups_init twoMembers s := Run.of_foldl _ _ _
  refine ⟨s, (Run.exists_foldlM).imp
    fun t ⟨hrun, husage⟩ => ⟨hs, hrun, husage, ?_⟩⟩
  exact (memory_limit_kept hs (by decide +kernel) (by decide +kernel) (by decide +kernel) hrun).2.1

/-- Both processes check before either updates, and the limit is exceeded; and a size whose sum
with the memory in use wraps around is granted. -/
theorem memory_limit_exceeded :
    (∃ s t, Run Step cgroups_init twoMembers s ∧
      Run MemStep ⟨s, fun _ => none⟩ [.check 5 60, .check 6 60, .update 5, .update 6] t ∧
      (t.table.groups 0).memory.memory_limit = 100 ∧
      (t.table.groups 0).memory.memory_usage = 120) ∧
    ∃ s, Run Step cgroups_init (twoMembers ++ [(0, .ask 5 (.updateMemory 50))]) s ∧
      charged 5 s = some 0 ∧ (cgroup_check_memory 5 (2 ^ 64 - 10) 0 s).1 = 1 ∧
      (s.groups 0).memory.memory_limit.toNat <
        (s.groups 0).memory.memory_usage.toNat + (2 ^ 64 - 10 : BitVec 64).toNat := by
  constructor
  · let s := twoMembers.foldl (fun s a => (exec a.1 a.2 s).2) cgroups_init
    refine ⟨s, (Run.exists_exec).imp fun t h => ⟨Run.of_foldl _ _ _, h⟩⟩
  · exact ⟨_, Run.of_foldl _ _ _, by decide +kernel, by decide +kernel, by decide +kernel⟩

end Yyds.Cgroups
