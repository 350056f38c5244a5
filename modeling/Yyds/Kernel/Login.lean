import Yyds.Lib.Run

/-! `sys_login` and `sys_sudo`: the table of users and the loops that compare strings with it. -/
namespace Yyds.Login

open Lib

abbrev Byte := BitVec 8

abbrev MAX_USERS : Nat := 8

/-- An entry of `users`. -/
structure User where
  uid : Int
  gid : Int
  username : Vector Byte 16
  password : Vector Byte 16
  active : Bool

abbrev Users := Vector User MAX_USERS

/-- A string in the memory of the process, without its terminator. -/
abbrev Text := { s : List Byte // 0 ∉ s }

/-- The `uid` and the `gid` of the process. -/
structure Ids where
  uid : Int
  gid : Int
  deriving DecidableEq

/-- `argstr(n, buf, 16)`, where `buf` is `stack` before: what is in `buf` after it. -/
def argstr (s : Text) (stack : Vector Byte 16) : Option (List Byte) :=
  if s.1.length < 16 then some (s.1 ++ 0 :: stack.toList.drop (s.1.length + 1)) else none

/-- The loop over a stored string: it ends at the end of the array or at its terminator. -/
def matchLoop : List Byte → List Byte → Bool
  | c :: stored, d :: given => if c = 0 then true else if c ≠ d then false else matchLoop stored given
  | _, _ => true

def sys_login (users : Users) (p : Ids) (name pass : Text) (st st' : Vector Byte 16) : Int × Ids :=
  match argstr name st, argstr pass st' with
  | some username, some password =>
    match users.toList.find? fun u => u.active && matchLoop u.username.toList username &&
        matchLoop u.password.toList password with
    | some u => (u.uid, ⟨u.uid, u.gid⟩)
    | none => (-1, p)
  | _, _ => (-1, p)

def sys_sudo (users : Users) (p : Ids) (pass : Text) (st : Vector Byte 16) : Int × Ids :=
  match argstr pass st with
  | some password =>
    if matchLoop users[0].password.toList password then (0, ⟨0, 0⟩) else (-1, p)
  | none => (-1, p)

/-- A call, with what its buffers hold before. -/
inductive Call
  | loginCall (name pass : Text) (st st' : Vector Byte 16)
  | sudoCall (pass : Text) (st : Vector Byte 16)

def Call.sys (users : Users) (p : Ids) : Call → Int × Ids
  | loginCall name pass st st' => sys_login users p name pass st st'
  | sudoCall pass st => sys_sudo users p pass st

def Step (users : Users) (p : Ids) (c : Call) (q : Ids) : Prop := (c.sys users p).2 = q

/-! ### Exactness -/

/-- The string in an array. -/
def text (stored : Vector Byte 16) : List Byte := stored.toList.takeWhile (· ≠ 0)

/-- Exactly this name and this password are those of `u`. -/
def User.Has (u : User) (name pass : Text) : Prop :=
  u.active ∧ text u.username = name.1 ∧ text u.password = pass.1
  deriving Decidable

/-- The answer `r` to a call is the one that the table demands. -/
def Exact (users : Users) (p : Ids) (r : Int × Ids) : Call → Prop
  | .loginCall name pass _ _ => (r.1 ≠ -1 ↔ ∃ u ∈ users.toList, u.Has name pass) ∧
      (r.1 ≠ -1 → ∃ u ∈ users.toList, u.Has name pass ∧ r.2 = ⟨u.uid, u.gid⟩) ∧
      (r.1 = -1 → r.2 = p)
  | .sudoCall pass _ => (r.1 ≠ -1 ↔ text users[0].password = pass.1) ∧ (r.1 = -1 → r.2 = p)

/-- The password of an account with `uid` 0, or of `users[0]` to `sudo`. -/
def Call.GivesRoot (users : Users) : Call → Prop
  | .loginCall name pass _ _ => ∃ u ∈ users.toList, u.uid = 0 ∧ u.Has name pass
  | .sudoCall pass _ => text users[0].password = pass.1

/-- The first account with a name and a password that the given ones begin with. -/
def opened (users : Users) (name pass : Text) : Option User :=
  users.toList.find? fun u =>
    u.active ∧ text u.username <+: name.1 ∧ text u.password <+: pass.1

/-- If the strings fit into the buffers, an account that they open has the ids of one with exactly
these strings; only if there is none can it have the `uid` that stands for an error, and the process
the same ids. No account has strings that do not fit. -/
def Call.Clear (users : Users) (p : Ids) : Call → Prop
  | .loginCall name pass _ _ =>
    if name.1.length < 16 ∧ pass.1.length < 16 then ∀ u ∈ opened users name pass,
      if u.uid = -1 then p = ⟨u.uid, u.gid⟩ ∧ ∀ v ∈ users.toList, ¬ v.Has name pass
      else ∃ v ∈ users.toList, v.Has name pass ∧ v.uid = u.uid ∧ v.gid = u.gid
    else ∀ v ∈ users.toList, ¬ v.Has name pass
  | .sudoCall pass _ =>
    if pass.1.length < 16 then text users[0].password <+: pass.1 → text users[0].password = pass.1
    else text users[0].password ≠ pass.1

instance (users : Users) (p : Ids) (a : Call) : Decidable (a.Clear users p) := by
  cases a <;> dsimp only [Call.Clear] <;> infer_instance

variable {users : Users} {p q : Ids} {c : Call} {name pass : Text} {st st' : Vector Byte 16}

/-- The loop only finds out whether the given string begins with the stored one. -/
theorem matchLoop_iff (stored s rest : List Byte) :
    matchLoop stored (s ++ 0 :: rest) ↔ stored.takeWhile (· ≠ 0) <+: s := by
  induction s generalizing stored with
  | nil =>
    cases stored with
    | nil => simp [matchLoop]
    | cons c stored => by_cases hc : c = 0#8 <;> simp [matchLoop, hc]
  | cons d s ih =>
    cases stored with
    | nil => simp [matchLoop]
    | cons c stored =>
      by_cases hc : c = 0#8
      · simp [matchLoop, hc]
      · by_cases hd : c = d <;> simp_all [matchLoop, List.cons_prefix_cons]

theorem sys_login_eq : sys_login users p name pass st st' =
    if name.1.length < 16 ∧ pass.1.length < 16 then
      match opened users name pass with
      | some u => (u.uid, ⟨u.uid, u.gid⟩)
      | none => (-1, p)
    else (-1, p) := by
  have hmatch (a b : List Byte) :
      (fun u : User => u.active && matchLoop u.username.toList (name.1 ++ 0 :: a) &&
        matchLoop u.password.toList (pass.1 ++ 0 :: b)) =
      fun u => decide (u.active ∧ text u.username <+: name.1 ∧ text u.password <+: pass.1) := by
    funext u
    rw [Bool.eq_iff_iff, decide_eq_true_iff]
    simp only [Bool.and_eq_true, matchLoop_iff, and_assoc, text]
  by_cases hn : name.1.length < 16 <;> by_cases hp : pass.1.length < 16 <;>
    simp only [sys_login, argstr, hn, hp, and_true, and_false, if_true, if_false, hmatch, opened]

theorem opened_ne_none {u : User} (hu : u ∈ users.toList) (h : u.Has name pass) :
    opened users name pass ≠ none := by
  intro hnone
  have hno := List.find?_eq_none.mp hnone u hu
  exact hno (decide_eq_true ⟨h.1, h.2.1 ▸ List.prefix_rfl, h.2.2 ▸ List.prefix_rfl⟩)

theorem login_exact_iff :
    Exact users p (sys_login users p name pass st st') (.loginCall name pass st st') ↔
      (Call.loginCall name pass st st').Clear users p := by
  simp only [Exact, Call.Clear, sys_login_eq]
  split
  · cases ho : opened users name pass with
    | none =>
      have hno : ¬ ∃ u ∈ users.toList, u.Has name pass :=
        fun ⟨u, hu, h⟩ => opened_ne_none hu h ho
      simpa using hno
    | some u =>
      by_cases hu : u.uid = -1
      · simp [hu, and_comm, eq_comm]
      · simp only [hu, Option.mem_some_iff, forall_eq', if_false, Ids.mk.injEq]
        grind
  · simp

/-- Every call is exact under its condition, and under no other. -/
theorem exact_iff (c : Call) : Exact users p (c.sys users p) c ↔ c.Clear users p := by
  cases c with
  | loginCall name pass st st' => exact login_exact_iff
  | sudoCall pass st =>
    by_cases hp : pass.1.length < 16
    · simp only [Exact, Call.Clear, Call.sys, sys_sudo, argstr, if_pos hp, matchLoop_iff]
      rw [← text]
      split
      · simp_all
      · rename_i hno
        have hne : text users[0].password ≠ pass.1 := fun h => hno (h ▸ List.prefix_rfl)
        simp [hno, hne]
    · simp [Exact, Call.Clear, Call.sys, sys_sudo, argstr, hp]

/-- Only a call with the right password makes the process root. -/
theorem root_step (h : Exact users p (c.sys users p) c) (hp : p.uid ≠ 0)
    (hq : (c.sys users p).2.uid = 0) : c.GivesRoot users := by
  have hr : (c.sys users p).1 = -1 → (c.sys users p).2 ≠ p := fun _ he => hp (he ▸ hq)
  cases c with
  | loginCall name pass st st' =>
    obtain ⟨-, hids, hsame⟩ := h
    obtain ⟨u, hu, hhas, heq⟩ := hids fun he => hr he (hsame he)
    exact ⟨u, hu, by rwa [heq] at hq, hhas⟩
  | sudoCall pass st => exact h.1.mp fun he => hr he (h.2 he)

/-- Login and sudo are exact if and only if no account is opened with strings that are not its own,
and while they are, root's password is needed to become root. -/
theorem authentication_exact {calls : List Call}
    (h : Run (Guarded (fun p c => c.Clear users p) (Step users)) p calls q) :
    (∀ c, Exact users q (c.sys users q) c ↔ c.Clear users q) ∧
      (p.uid ≠ 0 → q.uid = 0 → ∃ c ∈ calls, c.GivesRoot users) := by
  refine ⟨exact_iff, fun hp hq => ?_⟩
  induction h with
  | nil p => exact absurd hq hp
  | @cons p p' q c calls hstep _ ih =>
    obtain ⟨hc, rfl⟩ := hstep
    by_cases hroot : (c.sys users p).2.uid = 0
    · exact ⟨c, List.mem_cons_self, root_step ((exact_iff c).mpr hc) hp hroot⟩
    · obtain ⟨c', hmem, hgives⟩ := ih hroot hq
      exact ⟨c', List.mem_cons_of_mem _ hmem, hgives⟩

/-! ### The table of the source -/

def array (s : List Byte) : Vector Byte 16 := Vector.ofFn fun i => s.getD i 0

def root : List Byte := [0x72, 0x6f, 0x6f, 0x74]
def user : List Byte := [0x75, 0x73, 0x65, 0x72]
def guest : List Byte := [0x67, 0x75, 0x65, 0x73, 0x74]

/-- `users`, as it is initialised. -/
def users₀ : Users := Vector.ofFn fun i => [⟨0, 0, array root, array root, true⟩,
  ⟨1000, 1000, array user, array user, true⟩,
  ⟨1001, 1000, array guest, array guest, true⟩].getD i ⟨0, 0, array [], array [], false⟩

/-- From `guest` to `user`, and with root's password to root. -/
theorem authentication_exact_users :
    let calls : List Call := [.loginCall ⟨user, by decide⟩ ⟨guest, by decide⟩ (array []) (array []),
      .loginCall ⟨user, by decide⟩ ⟨user, by decide⟩ (array guest) (array root),
      .sudoCall ⟨root, by decide⟩ (array [])]
    ∃ q, Run (Guarded (fun p c => c.Clear users₀ p) (Step users₀)) ⟨1001, 1000⟩ calls q ∧ q.uid = 0 ∧
      ∃ c ∈ calls, c.GivesRoot users₀ := by
  refine (Run.exists_guards).imp fun q ⟨hrun, hq⟩ =>
    ⟨hrun, hq, (authentication_exact hrun).2 (by decide) hq⟩

/-- `sudo("rootx")` makes `guest` root. -/
theorem sudo_extended_password : let call := Call.sudoCall ⟨root ++ [0x78], by decide⟩ (array [])
    call.sys users₀ ⟨1001, 1000⟩ = (0, ⟨0, 0⟩) ∧ ¬ call.GivesRoot users₀ ∧
      ¬ Exact users₀ ⟨1001, 1000⟩ (call.sys users₀ ⟨1001, 1000⟩) call := by
  intro call
  have hno : text users₀[0].password ≠ root ++ [0x78] := by decide +kernel
  have hsys : call.sys users₀ ⟨1001, 1000⟩ = (0, ⟨0, 0⟩) := by decide +kernel
  refine ⟨hsys, hno, fun hexact => ?_⟩
  exact hno (hexact.1.1 (by decide))

end Yyds.Login
