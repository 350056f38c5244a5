import Yyds.Ipc.BinderCalls

/-! The end of transactions: a place is never given back, and `binder_reply` does not ask who
replies. -/
namespace Yyds.Binder

open Lib Function BinderState
open Kernel (int)

variable {s t : BinderState} {c : Call} {as bs : List Call} {i : Fin BINDER_MAX_TRANSACTIONS}
  {x y : Transaction} {q : Int}

/-! ### Places -/

/-- How many requests have been successful from `s` on. -/
def successes : BinderState → List Call → Nat
  | _, [] => 0
  | s, c :: cs =>
    successes (exec s c).2 cs +
      match c.2, (exec s c).1 with
      | .call .., .ret n => if n = -1 then 0 else 1
      | _, _ => 0

theorem next_exec (h : Filled s) (c : Call) :
    (exec s c).2.next_trans_id = s.next_trans_id + successes s [c] := by
  have heff := exec_effect s c
  have hlow := h.low
  simp only [successes]
  generalize exec s c = r at *
  cases heff with
  | @none c n t hu hcall =>
    obtain ⟨pid, op⟩ := c
    have hzero : (match op, (Answer.ret n) with
        | .call .., .ret n => if n = -1 then 0 else 1
        | _, _ => 0) = 0 := by
      cases op with
      | call => simp [hcall _ _ _ _ _ _ _ rfl]
      | _ => rfl
    simp only [hzero, hu.2]
    simp
  | made _ _ _ =>
    simp only [show s.next_trans_id ≠ -1 by omega, if_false, int_succ (by omega) h.high]
    simp
  | completed _ _ _ => simp [setTrans]
  | delivered _ _ => simp [setTrans]

theorem next_foldl (h : Filled s) (cs : List Call) :
    (cs.foldl (fun s c => (exec s c).2) s).next_trans_id = s.next_trans_id + successes s cs := by
  induction cs generalizing s with
  | nil => simp [successes]
  | cons c cs ih =>
    rw [List.foldl_cons, ih (h.exec c), next_exec h c]
    simp only [successes]
    omega

/-- Every successful request takes a place for good. -/
theorem next_after (as : List Call) :
    (binder.after as).next_trans_id = 1 + successes binder_init as :=
  next_foldl filled_init as

theorem full_iff (as : List Call) : (∀ i, ((binder.after as).transactions i).used = true) ↔
    ¬ successes binder_init as < BINDER_MAX_TRANSACTIONS := by
  have hfill := filled_after as
  have hnext := next_after as
  constructor
  · intro h
    have hlast := (hfill.used_iff ⟨BINDER_MAX_TRANSACTIONS - 1, by decide⟩).mp (h _)
    simp only [BINDER_MAX_TRANSACTIONS] at hlast ⊢
    omega
  · intro h i
    rw [hfill.used_iff]
    omega

/-- A request to an owner that is not too long fails exactly if no place is left. -/
theorem request_fails_iff {r : Request} (howner : (binder.after as).owner r.handle ≠ none)
    (hsize : r.size ≤ BINDER_MAX_DATA) :
    binder.answer as r.call = .ret (-1) ↔ ∀ i, ((binder.after as).transactions i).used = true := by
  rw [answer_eq, Request.call, exec]
  rcases binder_call_cases (binder.after as) r.pid r.handle r.code r.data r.size r.reply r.reply_size
    with ⟨hwhy, heq⟩ | ⟨to_pid, i, -, -, hfree, -, heq⟩
  · rw [heq]
    rcases hwhy with hlong | hnone | hall
    · exact absurd hsize (by omega)
    · exact absurd hnone howner
    · exact ⟨fun _ => hall, fun _ => rfl⟩
  · rw [heq]
    have hlow := (filled_after as).low
    constructor
    · intro h
      simp only [Prod.map, Answer.ret.injEq] at h
      omega
    · intro hall
      rw [hall i] at hfree
      cases hfree

/-- A request fails only if all places hold transactions that have not ended, exactly as long as
fewer requests than places have been successful, or none of them has ended. -/
theorem request_fails_only_if_busy (as : List Call) (r : Request)
    (howner : (binder.after as).owner r.handle ≠ none) (hsize : r.size ≤ BINDER_MAX_DATA) :
    (binder.answer as r.call = .ret (-1) → ∀ i, ((binder.after as).transactions i).used = true ∧
        ((binder.after as).transactions i).status ≠ .COMPLETED) ↔
      successes binder_init as < BINDER_MAX_TRANSACTIONS ∨
        ∀ i, ((binder.after as).transactions i).status ≠ .COMPLETED := by
  rw [request_fails_iff howner hsize]
  constructor
  · intro h
    by_cases hfull : ∀ i, ((binder.after as).transactions i).used = true
    · exact .inr fun i => (h hfull i).2
    · left
      by_contra hno
      exact hfull ((full_iff as).mpr hno)
  · rintro (hlt | hnone) hfull i
    · exact absurd hlt ((full_iff as).mp hfull)
    · exact ⟨hfull i, hnone i⟩

theorem request_fails_only_if_busy_two :
    successes binder_init twoRequests < BINDER_MAX_TRANSACTIONS ∧
      (binder.answer twoRequests (Request.call ⟨8, 1, 5, none, 0, 0, 0⟩) = .ret (-1) →
        ∀ i, ((binder.after twoRequests).transactions i).used = true ∧
          ((binder.after twoRequests).transactions i).status ≠ .COMPLETED) :=
  have hfew : successes binder_init twoRequests < BINDER_MAX_TRANSACTIONS := by decide
  ⟨hfew, (request_fails_only_if_busy twoRequests ⟨8, 1, 5, none, 0, 0, 0⟩ (by decide)
    (by decide)).mpr (.inl hfew)⟩

theorem Filled.found_eq (h : Filled s) (hi : (s.transactions i).used = true) :
    s.found (i.val + 1) = some i := by
  refine find?_finRange_some.mpr ⟨decide_eq_true ⟨hi, h.id_eq i hi⟩, fun j hj => ?_⟩
  refine decide_eq_false fun ⟨hused, hid⟩ => ?_
  rw [h.id_eq j hused] at hid
  omega

/-- Process 7 has the service 1, and all requests so far have been replied to. -/
structure Served (s : BinderState) (n : Nat) : Prop where
  filled : Filled s
  owner : s.owner 1 = some 7
  next : s.next_trans_id = n + 1
  completed : ∀ i, (s.transactions i).used = true → (s.transactions i).status = .COMPLETED

/-- A request, its delivery, and the reply. -/
def round (n : Nat) : List Call :=
  [(8, .call 1 0 none 0 0 0), (7, .receive false), (7, .reply (n + 1) none 0)]

theorem Served.call {n : Nat} (h : Served s n) (hn : n < BINDER_MAX_TRANSACTIONS) :
    ∃ x : Transaction, x.Waits 7 ∧ (exec s (8, .call 1 0 none 0 0 0)).2 =
      { s.setTrans ⟨n, hn⟩ x with next_trans_id := n + 2 } := by
  have hnext := h.next
  rcases binder_call_cases s 8 1 0 none 0 0 0 with ⟨hwhy, -⟩ | ⟨to_pid, i, -, ho, hfree, hbelow, heq⟩
  · rcases hwhy with hlong | hnone | hall
    · exact absurd hlong (by decide)
    · exact absurd (h.owner.symm.trans hnone) nofun
    · have hlt := (h.filled.used_iff ⟨n, hn⟩).mp (hall _)
      exact absurd hlt (by simp only; omega)
  · have hi := h.filled.next_eq hfree hbelow
    obtain rfl : i = ⟨n, hn⟩ := Fin.ext (by simp only; omega)
    refine ⟨s.made ⟨n, hn⟩ 8 to_pid 1 0 none 0 0 0,
      ⟨rfl, Option.some.inj (ho.symm.trans h.owner), rfl⟩, ?_⟩
    rw [exec, heq, int_succ (by omega) h.filled.high, hnext]
    rfl

theorem receive_only (hw : (s.transactions i).Waits 7)
    (hothers : ∀ j, j ≠ i → ¬ (s.transactions j).Waits 7) :
    (exec s (7, .receive false)).2 =
      s.setTrans i { s.transactions i with status := .PROCESSING } := by
  rw [exec]
  rcases binder_receive_cases s 7 false with ⟨hnone, -⟩ | ⟨j, hw', -, heq⟩
  · exact absurd hw (hnone i)
  · by_cases hj : j = i
    · rw [heq, hj]
    · exact absurd hw' (hothers j hj)

theorem reply_only (h : Filled s) (hi : (s.transactions i).used = true)
    (hstatus : (s.transactions i).status = .PROCESSING) :
    (exec s (7, .reply (i.val + 1) none 0)).2 =
      s.setTrans i { s.transactions i with status := .COMPLETED } := by
  rw [exec, binder_reply, if_neg (by decide), h.found_eq hi]
  simp [hstatus]

theorem Served.round {n : Nat} (h : Served s n) (hn : n < BINDER_MAX_TRANSACTIONS) :
    Served ((round n).foldl (fun s c => (exec s c).2) s) (n + 1) := by
  obtain ⟨x, hx, hcall⟩ := h.call hn
  have hfill := h.filled.exec (8, .call 1 0 none 0 0 0)
  rw [hcall] at hfill
  have hreceive := receive_only (i := ⟨n, hn⟩)
    (s := { s.setTrans ⟨n, hn⟩ x with next_trans_id := n + 2 })
    (by simpa [setTrans] using hx) fun j hj hw => by
      simp only [setTrans, update_of_ne hj] at hw
      exact absurd ((h.completed j hw.1).symm.trans hw.2.2) (by simp)
  have hfill' := hfill.exec (7, .receive false)
  rw [hreceive] at hfill'
  have hreply := reply_only hfill' (i := ⟨n, hn⟩) (by simp [setTrans, hx.1])
    (by simp [setTrans])
  have hfill'' := hfill'.exec (7, .reply (n + 1) none 0)
  rw [Binder.round, List.foldl_cons, hcall, List.foldl_cons, hreceive, List.foldl_cons,
    List.foldl_nil]
  refine ⟨hfill'', ?_, ?_, fun j hj => ?_⟩
  · rw [hreply]
    exact h.owner
  · rw [hreply]
    simp only [setTrans]
    omega
  · rw [hreply] at hj ⊢
    by_cases hjn : j = ⟨n, hn⟩
    · simp [setTrans, hjn]
    · simp only [setTrans, update_of_ne hjn] at hj ⊢
      exact h.completed j hj

/-- A service of process 7, and `n` requests to it, each received and replied to. -/
def served : Nat → List Call
  | 0 => [(7, .register [0x61] 0)]
  | n + 1 => served n ++ round n

theorem served_after (n : Nat) (hn : n ≤ BINDER_MAX_TRANSACTIONS) :
    Served (binder.after (served n)) n := by
  induction n with
  | zero =>
    refine ⟨filled_after _, by decide, by decide, fun i hi => ?_⟩
    cases hi
  | succ n ih =>
    have hround := (ih (by omega)).round hn
    rw [served, Server.after, List.foldl_append]
    exact hround

/-- When as many requests as there are places have been served, the next one fails. -/
theorem request_fails_after_served :
    (binder.after (served BINDER_MAX_TRANSACTIONS)).owner 1 = some 7 ∧
      (∀ i, ((binder.after (served BINDER_MAX_TRANSACTIONS)).transactions i).status = .COMPLETED) ∧
      binder.answer (served BINDER_MAX_TRANSACTIONS) (Request.call ⟨8, 1, 0, none, 0, 0, 0⟩) =
        .ret (-1) := by
  have h := served_after BINDER_MAX_TRANSACTIONS le_rfl
  have hall : ∀ i,
      ((binder.after (served BINDER_MAX_TRANSACTIONS)).transactions i).used = true := by
    intro i
    have hnext := h.next
    rw [h.filled.used_iff]
    omega
  refine ⟨h.owner, fun i => h.completed i (hall i), ?_⟩
  refine (request_fails_iff ?_ (by decide)).mpr hall
  rw [h.owner]
  exact Option.some_ne_none 7

/-! ### Who replies -/

/-- Replies to transactions that are being processed come from the processes they are for. -/
def OwnReplies (as : List Call) : Prop :=
  ∀ before pid trans_id data size, before ++ [(pid, .reply trans_id data size)] <+: as →
    ∀ i, ((binder.after before).transactions i).used = true →
      ((binder.after before).transactions i).id = trans_id →
      ((binder.after before).transactions i).status = .PROCESSING →
        ((binder.after before).transactions i).to_pid = pid

theorem OwnReplies.mono (h : OwnReplies bs) (hp : as <+: bs) : OwnReplies as := by
  intro before pid trans_id data size hpre
  exact h before pid trans_id data size (hpre.trans hp)

theorem OwnReplies.of_no_reply
    (h : ∀ c ∈ as, ∀ trans_id data size, c.2 ≠ .reply trans_id data size) : OwnReplies as := by
  intro before pid trans_id data size hpre
  have hmem : (pid, Op.reply trans_id data size) ∈ as :=
    hpre.subset (List.mem_append_right before (List.mem_singleton_self _))
  exact absurd rfl (h _ hmem trans_id data size)

theorem OwnReplies.snoc (h : OwnReplies as) (hc : ∀ pid trans_id data size,
    c = (pid, .reply trans_id data size) → ∀ i, ((binder.after as).transactions i).used = true →
      ((binder.after as).transactions i).id = trans_id →
      ((binder.after as).transactions i).status = .PROCESSING →
        ((binder.after as).transactions i).to_pid = pid) : OwnReplies (as ++ [c]) := by
  intro before pid trans_id data size hpre
  rcases List.prefix_concat_iff.mp hpre with heq | hpre
  · obtain ⟨rfl, hc'⟩ := List.append_inj' heq rfl
    exact hc pid trans_id data size (List.singleton_inj.mp hc').symm
  · exact h before pid trans_id data size hpre

/-- All calls but the replies of other processes than `q`. -/
def concerns (q : Int) : Call → Bool
  | (pid, .reply ..) => pid = q
  | _ => true

/-- A transaction in two runs: the same, or one for another process that waits in neither. -/
def Same (q : Int) (x y : Transaction) : Prop :=
  y = x ∨ x.used = true ∧ y.used = true ∧ y.id = x.id ∧ y.to_pid = x.to_pid ∧ x.to_pid ≠ q ∧
    x.status ≠ .PENDING ∧ y.status ≠ .PENDING

theorem Same.used (h : Same q x y) : y.used = x.used := by
  rcases h with rfl | ⟨hx, hy, _⟩
  · rfl
  · rw [hx, hy]

theorem Same.id (h : Same q x y) : y.id = x.id := by
  rcases h with rfl | ⟨_, _, hid, _⟩
  · rfl
  · exact hid

theorem Same.waits {pid : Int} (h : Same q x y) : y.Waits pid ↔ x.Waits pid := by
  rcases h with rfl | ⟨_, _, _, _, _, hx, hy⟩
  · rfl
  · exact ⟨fun hw => absurd hw.2.2 hy, fun hw => absurd hw.2.2 hx⟩

/-- Two runs that look alike to the process `q`. -/
structure Alike (q : Int) (s t : BinderState) : Prop where
  services : t.services = s.services
  service_count : t.service_count = s.service_count
  next_handle : t.next_handle = s.next_handle
  next_trans_id : t.next_trans_id = s.next_trans_id
  each : ∀ i, Same q (s.transactions i) (t.transactions i)

theorem Alike.refl (q : Int) (s : BinderState) : Alike q s s :=
  ⟨rfl, rfl, rfl, rfl, fun _ => .inl rfl⟩

theorem Alike.setTrans (h : Alike q s t) (hxy : Same q x y) :
    Alike q (s.setTrans i x) (t.setTrans i y) := by
  refine { h with each := fun j => ?_ }
  by_cases hj : j = i
  · subst hj
    simpa [setTrans] using hxy
  · simpa [BinderState.setTrans, hj] using h.each j

/-- The same state with other transactions. -/
def BinderState.withTrans (s : BinderState) (τ : Fin BINDER_MAX_TRANSACTIONS → Transaction) :
    BinderState :=
  { s with transactions := τ }

theorem Alike.eq_withTrans (h : Alike q s t) : t = s.withTrans t.transactions := by
  obtain ⟨services, count, handle, transactions, next⟩ := t
  obtain ⟨hs, hc, hh, hn, -⟩ := h
  cases hs
  cases hc
  cases hh
  cases hn
  rfl

theorem alike_withTrans {τ : Fin BINDER_MAX_TRANSACTIONS → Transaction} (hu : Untouched s t)
    (h : Alike q s (s.withTrans τ)) : Alike q t (t.withTrans τ) := by
  refine ⟨rfl, rfl, rfl, rfl, fun i => ?_⟩
  rw [hu.1]
  exact h.each i

section Services

variable (s) (τ : Fin BINDER_MAX_TRANSACTIONS → Transaction)

/-- What is done to the services does not depend on the transactions. -/
theorem register_withTrans (pid : Int) (name : List Byte) (ptr : BitVec 64) :
    (binder_register_service (s.withTrans τ) pid name ptr).2 =
      (binder_register_service s pid name ptr).2.withTrans τ := by
  rw [binder_register_service, binder_register_service,
    show (s.withTrans τ).named name = s.named name from rfl]
  cases s.named name with
  | some i => rfl
  | none =>
    rw [show (s.withTrans τ).services = s.services from rfl]
    cases (List.finRange BINDER_MAX_SERVICES).find? fun i => !(s.services i).used with
    | none => rfl
    | some slot => rfl

theorem lookup_withTrans (name : List Byte) :
    (binder_lookup_service (s.withTrans τ) name).2 =
      (binder_lookup_service s name).2.withTrans τ := by
  rw [binder_lookup_service, binder_lookup_service,
    show (s.withTrans τ).named name = s.named name from rfl]
  cases s.named name with
  | some i => rfl
  | none => rfl

theorem release_withTrans (handle : Int) :
    (binder_release_service (s.withTrans τ) handle).2 =
      (binder_release_service s handle).2.withTrans τ := by
  rw [binder_release_service, binder_release_service,
    show (s.withTrans τ).target handle = s.target handle from rfl,
    show (s.withTrans τ).services = s.services from rfl]
  cases s.target handle with
  | none => rfl
  | some i =>
    dsimp only
    split
    · rfl
    · rfl

end Services

theorem Alike.call (h : Alike q s t) (pid handle code : Int) (data : Buf) (size : Int)
    (reply : BitVec 64) (reply_size : Int) :
    Alike q (binder_call s pid handle code data size reply reply_size).2
      (binder_call t pid handle code data size reply reply_size).2 := by
  have hused : (fun i => !(t.transactions i).used) = fun i => !(s.transactions i).used :=
    funext fun i => by rw [(h.each i).used]
  have htarget : t.target handle = s.target handle := by rw [h.eq_withTrans]; rfl
  rw [binder_call, binder_call]
  split
  · exact h
  rw [htarget]
  cases s.target handle with
  | none => exact h
  | some svc =>
    rw [alloc_transaction, alloc_transaction, hused]
    cases hf : (List.finRange BINDER_MAX_TRANSACTIONS).find? fun i => !(s.transactions i).used with
    | none => exact h
    | some i =>
      -- a free place holds the same in both
      have hfree : (s.transactions i).used = false := by
        simpa using (find?_finRange_some.mp hf).1
      have heq : t.transactions i = s.transactions i := by
        rcases h.each i with heq | ⟨hx, _⟩
        · exact heq
        · exact absurd (hfree.symm.trans hx) (by simp)
      refine Alike.setTrans ?_ (.inl ?_)
      · rw [heq, h.next_trans_id]
        exact { h with next_trans_id := rfl, each := (h.setTrans (.inl rfl)).each }
      · simp [BinderState.setTrans, heq, h.next_trans_id, h.services]

theorem Alike.found (h : Alike q s t) (trans_id : Int) : t.found trans_id = s.found trans_id := by
  rw [BinderState.found]
  congr 1
  funext i
  rw [(h.each i).used, (h.each i).id]

theorem Alike.reply_left (h : Alike q s t) {trans_id : Int} {data : Buf} {size : Int}
    (hq : ∀ i, s.found trans_id = some i → (s.transactions i).status = .PROCESSING →
      (s.transactions i).to_pid ≠ q) : Alike q (binder_reply s trans_id data size).2 t := by
  rcases binder_reply_cases s trans_id data size with heq | ⟨i, d, n, hfound, hstatus, heq⟩
  · rw [heq]
    exact h
  rw [heq]
  have hto := hq i hfound hstatus
  refine { h with each := fun j => ?_ }
  by_cases hj : j = i
  · subst hj
    have hused := (found_some hfound).1
    simp only [BinderState.setTrans, update_self]
    rcases h.each j with hsame | ⟨_, hy, hid, hto', _, _, hpend⟩
    · rw [hsame]
      exact .inr ⟨hused, hused, rfl, rfl, hto, by simp, by simp [hstatus]⟩
    · exact .inr ⟨hused, hy, hid, hto', hto, by simp, hpend⟩
  · simpa [BinderState.setTrans, hj] using h.each j

theorem Same.symm (h : Same q x y) : Same q y x := by
  rcases h with rfl | ⟨hx, hy, hid, hto, hq, hpx, hpy⟩
  · exact .inl rfl
  · exact .inr ⟨hy, hx, hid.symm, hto.symm, hto ▸ hq, hpy, hpx⟩

theorem Alike.symm (h : Alike q s t) : Alike q t s :=
  ⟨h.services.symm, h.service_count.symm, h.next_handle.symm, h.next_trans_id.symm,
    fun i => (h.each i).symm⟩

theorem Alike.reply (h : Alike q s t) (trans_id : Int) (data : Buf) (size : Int) :
    Alike q (binder_reply s trans_id data size).2 (binder_reply t trans_id data size).2 := by
  cases hf : s.found trans_id with
  | none =>
    rw [binder_reply, binder_reply, h.found, hf]
    split
    · exact h
    · exact h
  | some i =>
    rcases h.each i with heq | ⟨_, _, _, hto, hq, _, _⟩
    · rw [binder_reply, binder_reply, h.found, hf]
      split
      · exact h
      · dsimp only
        rw [heq]
        split
        · exact h
        · exact h.setTrans (.inl rfl)
    · have hleft : Alike q (binder_reply s trans_id data size).2 t := by
        refine h.reply_left fun j hj _ => ?_
        cases hf.symm.trans hj
        exact hq
      refine (hleft.symm.reply_left fun j hj _ => ?_).symm
      rw [h.found] at hj
      cases hf.symm.trans hj
      rw [hto]
      exact hq

theorem Alike.receive (h : Alike q s t) (pid : Int) (data : Bool) :
    Alike q (binder_receive s pid data).2 (binder_receive t pid data).2 := by
  have hwaits : ∀ j, (t.transactions j).Waits pid ↔ (s.transactions j).Waits pid :=
    fun j => (h.each j).waits
  rcases binder_receive_cases s pid data with ⟨hnone, heq⟩ | ⟨i, hw, hfirst, heq⟩
  · rcases binder_receive_cases t pid data with ⟨_, heq'⟩ | ⟨j, hw', _, _⟩
    · rw [heq, heq']
      exact h
    · exact absurd ((hwaits j).mp hw') (hnone j)
  rcases binder_receive_cases t pid data with ⟨hnone', _⟩ | ⟨j, hw', hfirst', heq'⟩
  · exact absurd ((hwaits i).mpr hw) (hnone' i)
  have hij : i = j := by
    rcases lt_trichotomy i j with hlt | heq | hlt
    · exact absurd ((hwaits i).mpr hw) (hfirst' i hlt)
    · exact heq
    · exact absurd ((hwaits j).mp hw') (hfirst j hlt)
  subst hij
  rw [heq, heq']
  refine h.setTrans (.inl ?_)
  -- what waits is the same in both
  rcases h.each i with hsame | ⟨_, _, _, _, _, hpend, _⟩
  · rw [hsame]
  · exact absurd hw.2.2 hpend

theorem Alike.exec (h : Alike q s t) (c : Call) : Alike q (exec s c).2 (exec t c).2 := by
  have hwith := h.eq_withTrans
  obtain ⟨pid, op⟩ := c
  cases op with
  | register name ptr =>
    rw [hwith] at h ⊢
    change Alike q _ (binder_register_service (s.withTrans t.transactions) pid name ptr).2
    rw [register_withTrans]
    exact alike_withTrans (register_untouched s pid name ptr) h
  | lookup name =>
    rw [hwith] at h ⊢
    change Alike q _ (binder_lookup_service (s.withTrans t.transactions) name).2
    rw [lookup_withTrans]
    exact alike_withTrans (lookup_untouched s name) h
  | release handle =>
    rw [hwith] at h ⊢
    change Alike q _ (binder_release_service (s.withTrans t.transactions) handle).2
    rw [release_withTrans]
    exact alike_withTrans (release_untouched s handle) h
  | call handle code data size reply reply_size =>
    exact h.call pid handle code data size reply reply_size
  | reply trans_id data size => exact h.reply trans_id data size
  | receive data => exact h.receive pid data

/-- Without the replies of other processes the calls come to a state that is alike. -/
theorem alike_filter (q : Int) (as : List Call) (hown : OwnReplies as) :
    Alike q (binder.after as) (binder.after (as.filter (concerns q))) := by
  induction as using List.reverseRecOn with
  | nil => exact .refl q _
  | append_singleton as c ih =>
    have h := ih (hown.mono (List.prefix_append _ _))
    rw [List.filter_append, after_snoc]
    cases hc : concerns q c with
    | true =>
      rw [List.filter_singleton, hc, cond_true, after_snoc]
      exact h.exec c
    | false =>
      rw [List.filter_singleton, hc, cond_false, List.append_nil]
      obtain ⟨pid, op⟩ := c
      cases op with
      | reply trans_id data size =>
        have hpid : pid ≠ q := by simpa [concerns] using hc
        refine h.reply_left fun i hi hstatus => ?_
        obtain ⟨hused, hid⟩ := found_some hi
        rw [hown as pid trans_id data size List.prefix_rfl i hused hid hstatus]
        exact hpid
      | _ => cases hc

/-- A transaction that ends, or whose data change, has been replied to. -/
theorem changed_by_reply (hi : (s.transactions i).used = true)
    (hch : (s.transactions i).status ≠ .COMPLETED ∧
        ((exec s c).2.transactions i).status = .COMPLETED ∨
      ((exec s c).2.transactions i).data ≠ (s.transactions i).data ∨
      ((exec s c).2.transactions i).data_size ≠ (s.transactions i).data_size) :
    (s.transactions i).status = .PROCESSING ∧
      ∃ pid data size, c = (pid, .reply (s.transactions i).id data size) := by
  rcases place_cases c hi with h | ⟨-, -, h⟩ | ⟨hstatus, h, -⟩
  · rw [h] at hch
    simp at hch
  · rw [h] at hch
    simp at hch
  · exact ⟨hstatus, h⟩

/-- If replies come from the processes that the transactions are for, a transaction ends and its
data change only by a reply of the process it was delivered to, and the replies of other processes
make no difference to it. -/
theorem addressee_completes (as : List Call) :
    (∀ c, OwnReplies (as ++ [c]) → ∀ i, ((binder.after as).transactions i).used = true →
      (((binder.after as).transactions i).status ≠ .COMPLETED ∧
          ((binder.after (as ++ [c])).transactions i).status = .COMPLETED ∨
        ((binder.after (as ++ [c])).transactions i).data ≠ ((binder.after as).transactions i).data ∨
        ((binder.after (as ++ [c])).transactions i).data_size ≠
          ((binder.after as).transactions i).data_size) →
      ∃ pid data size, c = (pid, .reply ((binder.after as).transactions i).id data size) ∧
        Delivered as pid ((binder.after as).transactions i).id) ∧
    ∀ q bs, OwnReplies as → OwnReplies bs → as.filter (concerns q) = bs.filter (concerns q) →
      ∀ i, ((binder.after as).transactions i).used = true →
        ((binder.after as).transactions i).to_pid = q →
        (binder.after bs).transactions i = (binder.after as).transactions i := by
  constructor
  · intro c hown i hi hch
    rw [after_snoc] at hch
    obtain ⟨hstatus, pid, data, size, rfl⟩ := changed_by_reply hi hch
    refine ⟨pid, data, size, rfl, ?_⟩
    have hto := hown as pid _ data size List.prefix_rfl i hi rfl hstatus
    have hdel := delivered_after as i hi (by rw [hstatus]; nofun)
    rw [hto, ← (filled_after as).id_eq i hi] at hdel
    exact hdel
  · intro q bs ha hb heq i hi hq
    have h1 := (alike_filter q as ha).each i
    have h2 := (alike_filter q bs hb).each i
    rw [heq] at h1
    rcases h1 with h1 | ⟨_, _, _, _, hne, _, _⟩
    · rcases h2 with h2 | ⟨_, _, _, hto, hne, _, _⟩
      · rw [← h2, h1]
      · rw [← hto, h1] at hne
        exact absurd hq hne
    · exact absurd hq hne

/-- Services of the processes 7 and 9, with one request each that is being processed. -/
def twoServices : List Call :=
  [(7, .register [0x61] 0), (9, .register [0x62] 0), (8, .call 1 5 none 2 1 2),
    (8, .call 2 6 none 0 1 2), (7, .receive true), (9, .receive true)]

theorem ownReplies_twoServices : OwnReplies twoServices :=
  .of_no_reply (by simp [twoServices])

theorem addressee_completes_two :
    (∃ pid, Delivered twoServices pid 1) ∧
      (binder.after (twoServices ++ [(7, .reply 1 none 0)])).transactions 0 =
        (binder.after (twoServices ++ [(9, .reply 2 none 0)] ++ [(7, .reply 1 none 0)])).transactions
          0 := by
  have hone : OwnReplies (twoServices ++ [(7, .reply 1 none 0)]) := by
    refine ownReplies_twoServices.snoc fun pid trans_id data size hc => ?_
    cases hc
    decide +kernel
  have hother : OwnReplies (twoServices ++ [(9, .reply 2 none 0)]) := by
    refine ownReplies_twoServices.snoc fun pid trans_id data size hc => ?_
    cases hc
    decide +kernel
  have hboth : OwnReplies (twoServices ++ [(9, .reply 2 none 0)] ++ [(7, .reply 1 none 0)]) := by
    refine hother.snoc fun pid trans_id data size hc => ?_
    cases hc
    decide +kernel
  constructor
  · obtain ⟨pid, _, _, _, hdel⟩ := (addressee_completes twoServices).1 (7, .reply 1 none 0)
      hone 0 (by decide +kernel) (.inl (by decide +kernel))
    exact ⟨pid, hdel⟩
  · exact (addressee_completes _).2 7 _ hboth hone rfl 0 (by decide +kernel) (by decide +kernel)

/-- Process 66 ends the transaction that process 7 has received, and changes its data. -/
theorem stranger_completes :
    let before := (binder.after twoServices).transactions 0
    let after := (binder.after (twoServices ++ [(66, .reply 1 (some fun _ => 65) 1)])).transactions 0
    before.to_pid = 7 ∧ before.status = .PROCESSING ∧ before.data 0 = 0 ∧ before.data_size = 2 ∧
      after.id = before.id ∧ after.status = .COMPLETED ∧ after.data 0 = 65 ∧ after.data_size = 1 := by
  decide +kernel

end Yyds.Binder
