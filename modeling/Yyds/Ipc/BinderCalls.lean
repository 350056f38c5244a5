import Yyds.Ipc.Binder

/-! What becomes of a transaction: places are taken in order and never given back, so the first
place that waits holds the oldest transaction that waits. -/
namespace Yyds.Binder

open Lib Function BinderState
open Kernel (int)

variable {s t u : BinderState} {c : Call} {as bs : List Call} {i j : Fin BINDER_MAX_TRANSACTIONS}
  {x y z : Transaction}

/-! ### One call -/

/-- What a call of the interface does to the transactions: nothing, or one new transaction in the
first free place, or the end of one that is being processed, or the delivery of the first one that
waits. -/
inductive Effect (s : BinderState) : Call → Answer × BinderState → Prop
  | none {c : Call} {n : Int} {t : BinderState} (h : Untouched s t)
      (hcall : ∀ pid handle code data size reply reply_size,
        c = (pid, .call handle code data size reply reply_size) → n = -1) :
      Effect s c (.ret n, t)
  | made {pid handle code : Int} {data : Buf} {size : Int} {reply : BitVec 64} {reply_size : Int}
      {to_pid : Int} {i : Fin BINDER_MAX_TRANSACTIONS} (howner : s.owner handle = some to_pid)
      (hfree : (s.transactions i).used = false) (hbelow : ∀ j < i, (s.transactions j).used = true) :
      Effect s (pid, .call handle code data size reply reply_size) (.ret s.next_trans_id,
        { s.setTrans i (s.made i pid to_pid handle code data size reply reply_size) with
          next_trans_id := int (s.next_trans_id + 1) })
  | completed {pid trans_id : Int} {data : Buf} {size : Int} {i : Fin BINDER_MAX_TRANSACTIONS}
      {d : Nat → Byte} {n : Int} (hused : (s.transactions i).used = true)
      (hid : (s.transactions i).id = trans_id) (hstatus : (s.transactions i).status = .PROCESSING) :
      Effect s (pid, .reply trans_id data size) (.ret 0, s.setTrans i
        { s.transactions i with data := d, data_size := n, status := .COMPLETED })
  | delivered {pid : Int} {data : Bool} {i : Fin BINDER_MAX_TRANSACTIONS}
      (hwaits : (s.transactions i).Waits pid) (hfirst : ∀ j < i, ¬ (s.transactions j).Waits pid) :
      Effect s (pid, .receive data)
        (.got (s.transactions i).id (s.transactions i).code ((s.transactions i).copied data)
            (s.transactions i).data_size,
          s.setTrans i { s.transactions i with status := .PROCESSING })

theorem exec_effect (s : BinderState) (c : Call) : Effect s c (exec s c) := by
  obtain ⟨pid, op⟩ := c
  cases op with
  | register name ptr => exact .none (register_untouched s pid name ptr) nofun
  | lookup name => exact .none (lookup_untouched s name) nofun
  | release handle => exact .none (release_untouched s handle) nofun
  | call handle code data size reply reply_size =>
    rw [exec]
    rcases binder_call_cases s pid handle code data size reply reply_size with
      ⟨-, heq⟩ | ⟨to_pid, i, -, howner, hfree, hbelow, heq⟩
    · rw [heq]
      exact .none ⟨rfl, rfl⟩ fun _ _ _ _ _ _ _ _ => rfl
    · rw [heq]
      exact .made howner hfree hbelow
  | reply trans_id data size =>
    rw [exec]
    rcases binder_reply_cases s trans_id data size with heq | ⟨i, d, n, hfound, hstatus, heq⟩
    · rw [heq]
      exact .none ⟨rfl, rfl⟩ nofun
    · rw [heq]
      exact .completed (found_some hfound).1 (found_some hfound).2 hstatus
  | receive data =>
    rw [exec]
    rcases binder_receive_cases s pid data with ⟨-, heq⟩ | ⟨i, hwaits, hfirst, heq⟩
    · rw [heq]
      exact .none ⟨rfl, rfl⟩ nofun
    · rw [heq]
      exact .delivered hwaits hfirst

/-! ### The places -/

/-- The places are taken in order, and the ids are their numbers. -/
structure Filled (s : BinderState) : Prop where
  low : 1 ≤ s.next_trans_id
  high : s.next_trans_id ≤ BINDER_MAX_TRANSACTIONS + 1
  used_iff : ∀ i, (s.transactions i).used = true ↔ (i.val : Int) + 1 < s.next_trans_id
  id_eq : ∀ i, (s.transactions i).used = true → (s.transactions i).id = i.val + 1
  zero : ∀ i, (s.transactions i).used = false → (s.transactions i).data = fun _ => 0

theorem filled_init : Filled binder_init where
  low := by decide
  high := by decide
  used_iff i := by simp [binder_init, Transaction.zero]
  id_eq i h := by cases h
  zero i _ := rfl

theorem Filled.untouched (h : Filled s) (hu : Untouched s t) : Filled t := by
  obtain ⟨htrans, hnext⟩ := hu
  constructor
  · rw [hnext]; exact h.low
  · rw [hnext]; exact h.high
  · rw [hnext, htrans]; exact h.used_iff
  · rw [htrans]; exact h.id_eq
  · rw [htrans]; exact h.zero

theorem Filled.setTrans (h : Filled s) (hused : (s.transactions i).used = true)
    (hx : x.used = true) (hid : x.id = (s.transactions i).id) : Filled (s.setTrans i x) := by
  have hkeep : ∀ j, ((s.setTrans i x).transactions j).used = (s.transactions j).used := by
    intro j
    by_cases hj : j = i
    · subst hj
      simp [setTrans, hused, hx]
    · simp [BinderState.setTrans, hj]
  refine ⟨h.low, h.high, fun j => by rw [hkeep]; exact h.used_iff j, fun j hj => ?_, fun j hj => ?_⟩
  · rw [hkeep] at hj
    by_cases heq : j = i
    · subst heq
      simpa [setTrans, hid] using h.id_eq j hj
    · simpa [BinderState.setTrans, heq] using h.id_eq j hj
  · rw [hkeep] at hj
    have heq : j ≠ i := by
      rintro rfl
      rw [hused] at hj
      cases hj
    simpa [BinderState.setTrans, heq] using h.zero j hj

theorem Filled.next_eq (h : Filled s) (hfree : (s.transactions i).used = false)
    (hbelow : ∀ j < i, (s.transactions j).used = true) : s.next_trans_id = i.val + 1 := by
  have hi : ¬ (i.val : Int) + 1 < s.next_trans_id := by
    rw [← h.used_iff i, hfree]
    exact Bool.false_ne_true
  have hlow := h.low
  by_contra hne
  have hlt : i.val - 1 < i.val := by omega
  have hpred := (h.used_iff ⟨i.val - 1, by omega⟩).mp (hbelow _ (Fin.lt_def.mpr hlt))
  simp only at hpred
  omega

theorem int_succ {n : Int} (h0 : 0 ≤ n) (h1 : n ≤ BINDER_MAX_TRANSACTIONS + 1) :
    int (n + 1) = n + 1 := by
  simp only [BINDER_MAX_TRANSACTIONS] at h1
  rw [int, Int.bmod_eq_of_le] <;> omega

theorem Filled.made (h : Filled s) (hfree : (s.transactions i).used = false)
    (hbelow : ∀ j < i, (s.transactions j).used = true) (hx : x.used = true)
    (hid : x.id = s.next_trans_id) :
    Filled { s.setTrans i x with next_trans_id := int (s.next_trans_id + 1) } := by
  have hnext := h.next_eq hfree hbelow
  have hint : int (s.next_trans_id + 1) = i.val + 2 := by
    rw [int_succ (by omega) h.high]
    omega
  have hoff : ∀ j, j ≠ i → ((s.setTrans i x).transactions j) = s.transactions j := by
    intro j hj
    simp [BinderState.setTrans, hj]
  have hon : (s.setTrans i x).transactions i = x := by simp [BinderState.setTrans]
  refine ⟨?_, ?_, fun j => ?_, fun j hj => ?_, fun j hj => ?_⟩
  · simp only [hint]
    omega
  · simp only [hint]
    omega
  · by_cases hj : j = i
    · subst hj
      simp only [hon, hx, hint, true_iff]
      omega
    · simp only [hoff j hj, h.used_iff j, hint]
      omega
  · by_cases heq : j = i
    · subst heq
      simp only [hon, hid]
      omega
    · simp only [hoff j heq] at hj ⊢
      exact h.id_eq j hj
  · by_cases heq : j = i
    · subst heq
      simp only [hon, hx] at hj
      cases hj
    · simp only [hoff j heq] at hj ⊢
      exact h.zero j hj

theorem Filled.exec (h : Filled s) (c : Call) : Filled (exec s c).2 := by
  have heff := exec_effect s c
  generalize Binder.exec s c = r at heff
  cases heff with
  | none hu _ => exact h.untouched hu
  | made _ hfree hbelow => exact h.made hfree hbelow rfl rfl
  | completed hused _ _ => exact h.setTrans hused hused rfl
  | delivered hwaits _ => exact h.setTrans hwaits.1 hwaits.1 rfl

theorem filled_after (as : List Call) : Filled (binder.after as) :=
  Server.after_invariant (P := fun _ s => Filled s) filled_init (fun _ c h => h.exec c) as

/-! ### A transaction over time -/

/-- The ways of a transaction. -/
inductive Advance (x : Transaction) : Transaction → Prop
  | same : Advance x x
  | delivered (h : x.status = .PENDING) : Advance x { x with status := .PROCESSING }
  | completed (h : x.status = .PROCESSING) (d : Nat → Byte) (n : Int) :
      Advance x { x with data := d, data_size := n, status := .COMPLETED }

theorem place_cases (c : Call) (hi : (s.transactions i).used = true) :
    (exec s c).2.transactions i = s.transactions i ∨
    ((s.transactions i).status = .PENDING ∧
      (∃ data code bytes size, c = ((s.transactions i).to_pid, .receive data) ∧
        (exec s c).1 = .got (s.transactions i).id code bytes size) ∧
      (exec s c).2.transactions i = { s.transactions i with status := .PROCESSING }) ∨
    (s.transactions i).status = .PROCESSING ∧
      (∃ pid data size, c = (pid, .reply (s.transactions i).id data size)) ∧
      ∃ d n, (exec s c).2.transactions i =
        { s.transactions i with data := d, data_size := n, status := .COMPLETED } := by
  have heff := exec_effect s c
  generalize exec s c = r at heff
  cases heff with
  | none hu _ => exact .inl (by rw [hu.1])
  | @made _ _ _ _ _ _ _ _ j _ hfree _ =>
    refine .inl (update_of_ne ?_ ..)
    rintro rfl
    exact absurd (hi.symm.trans hfree) nofun
  | @completed pid _ data size j d n _ hid hstatus =>
    by_cases hij : i = j
    · subst hij
      exact .inr (.inr ⟨hstatus, ⟨pid, data, size, by rw [hid]⟩, d, n, update_self ..⟩)
    · exact .inl (update_of_ne hij ..)
  | @delivered pid data j hwaits _ =>
    by_cases hij : i = j
    · subst hij
      exact .inr (.inl ⟨hwaits.2.2, ⟨data, _, _, _, by rw [hwaits.2.1], rfl⟩, update_self ..⟩)
    · exact .inl (update_of_ne hij ..)

theorem exec_advance (c : Call) (hi : (s.transactions i).used = true) :
    Advance (s.transactions i) ((exec s c).2.transactions i) := by
  rcases place_cases c hi with h | ⟨hstatus, -, h⟩ | ⟨hstatus, -, d, n, h⟩ <;> rw [h]
  · exact .same
  · exact .delivered hstatus
  · exact .completed hstatus d n

def Status.rank : Status → Nat
  | .FREE => 0
  | .PENDING => 1
  | .PROCESSING => 2
  | .COMPLETED => 3

/-- The same transaction later on. -/
structure Kept (x y : Transaction) : Prop where
  used : y.used = x.used
  id : y.id = x.id
  to_pid : y.to_pid = x.to_pid
  code : y.code = x.code
  rank : x.status.rank ≤ y.status.rank
  pending : y.status = .PENDING → y = x

theorem Kept.refl (x : Transaction) : Kept x x := ⟨rfl, rfl, rfl, rfl, le_rfl, fun _ => rfl⟩

theorem Kept.trans (h : Kept x y) (h' : Kept y z) : Kept x z where
  used := h'.used.trans h.used
  id := h'.id.trans h.id
  to_pid := h'.to_pid.trans h.to_pid
  code := h'.code.trans h.code
  rank := h.rank.trans h'.rank
  pending hz := by
    have hzy := h'.pending hz
    rw [hzy] at hz ⊢
    exact h.pending hz

theorem Advance.kept (h : Advance x y) : Kept x y := by
  cases h with
  | same => exact .refl x
  | delivered h => exact ⟨rfl, rfl, rfl, rfl, by simp [h, Status.rank], nofun⟩
  | completed h d n => exact ⟨rfl, rfl, rfl, rfl, by simp [h, Status.rank], nofun⟩

/-- The transactions of `s` are there in `t`. -/
def Grows (s t : BinderState) : Prop :=
  s.next_trans_id ≤ t.next_trans_id ∧ ∀ i, (s.transactions i).used = true →
    Kept (s.transactions i) (t.transactions i)

theorem Grows.trans (h : Grows s t) (h' : Grows t u) : Grows s u := by
  refine ⟨h.1.trans h'.1, fun i hi => ?_⟩
  have hkept := h.2 i hi
  exact hkept.trans (h'.2 i (hkept.used.trans hi))

theorem Filled.grows (h : Filled s) (c : Call) : Grows s (Binder.exec s c).2 := by
  refine ⟨?_, fun i hi => (exec_advance c hi).kept⟩
  have heff := exec_effect s c
  generalize Binder.exec s c = r at heff
  cases heff with
  | none hu _ => exact hu.2.ge
  | made _ _ _ =>
    have hlow := h.low
    dsimp only
    rw [int_succ (by omega) h.high]
    omega
  | completed _ _ _ => exact le_rfl
  | delivered _ _ => exact le_rfl

theorem grows_after (h : as <+: bs) : Grows (binder.after as) (binder.after bs) :=
  Server.after_mono (fun _ => ⟨le_rfl, fun _ _ => .refl _⟩) (fun _ _ _ h h' => h.trans h')
    (fun as c => (filled_after as).grows c) h

/-! ### Calls and deliveries -/

theorem answer_eq (as : List Call) (c : Call) :
    binder.answer as c = (exec (binder.after as) c).1 := rfl

theorem after_snoc (as : List Call) (c : Call) :
    binder.after (as ++ [c]) = (exec (binder.after as) c).2 := Server.after_snoc ..

/-- The arguments of `binder_call` and its caller. -/
structure Request where
  pid : Int
  handle : Int
  code : Int
  data : Buf
  size : Int
  reply : BitVec 64
  reply_size : Int

def Request.call (r : Request) : Call :=
  (r.pid, .call r.handle r.code r.data r.size r.reply r.reply_size)

/-- The bytes that go with a request; without a buffer they are zero. -/
def Request.bytes (r : Request) : List Byte :=
  (List.range r.size.toNat).map fun k => r.data.elim 0 fun d => d k

/-- The request, made after `before`, is the transaction `id`. -/
def Issued (before : List Call) (r : Request) (id : Int) : Prop :=
  binder.answer before r.call = .ret id ∧ 0 ≤ id

/-- The process `pid` has received the transaction `id` by one of the calls. -/
def Delivered (as : List Call) (pid id : Int) : Prop :=
  ∃ earlier data code bytes size, earlier ++ [(pid, .receive data)] <+: as ∧
    binder.answer earlier (pid, .receive data) = .got id code bytes size

variable {r r₁ r₂ : Request} {id pid code size id₁ : Int} {data : Bool} {bytes : List Byte}
  {b₁ b₂ : List Call}

theorem Issued.made (h : Issued bs r id) :
    ∃ to_pid i, (binder.after bs).owner r.handle = some to_pid ∧ id = i.val + 1 ∧
      (binder.after bs).next_trans_id = id ∧ (binder.after (bs ++ [r.call])).next_trans_id = id + 1 ∧
      (binder.after (bs ++ [r.call])).transactions i =
        (binder.after bs).made i r.pid to_pid r.handle r.code r.data r.size r.reply r.reply_size := by
  obtain ⟨hans, hid⟩ := h
  have hfill := filled_after bs
  have heff := exec_effect (binder.after bs) r.call
  rw [answer_eq] at hans
  rw [after_snoc]
  generalize hr : r.call = c at *
  generalize exec (binder.after bs) c = res at *
  cases heff with
  | none _ hcall =>
    cases hans
    exact absurd (hcall _ _ _ _ _ _ _ hr.symm) (by omega)
  | @made _ _ _ _ _ _ _ to_pid i howner hfree hbelow =>
    cases hr
    cases hans
    have hnext := hfill.next_eq hfree hbelow
    refine ⟨to_pid, i, howner, hnext, rfl, int_succ hid hfill.high, ?_⟩
    simp [setTrans]
  | completed _ _ _ => cases hr
  | delivered _ _ => cases hr

theorem received (h : binder.answer as (pid, .receive data) = .got id code bytes size) :
    ∃ i, id = i.val + 1 ∧ ((binder.after as).transactions i).Waits pid ∧
      (∀ j < i, ¬ ((binder.after as).transactions j).Waits pid) ∧
      code = ((binder.after as).transactions i).code ∧
      bytes = ((binder.after as).transactions i).copied data ∧
      size = ((binder.after as).transactions i).data_size ∧
      ((binder.after (as ++ [(pid, .receive data)])).transactions i).status = .PROCESSING := by
  have hfill := filled_after as
  have heff := exec_effect (binder.after as) (pid, .receive data)
  rw [answer_eq] at h
  rw [after_snoc]
  generalize exec (binder.after as) (pid, .receive data) = res at *
  cases heff with
  | none _ _ => cases h
  | @delivered _ _ i hwaits hfirst =>
    cases h
    refine ⟨i, hfill.id_eq i hwaits.1, hwaits, hfirst, rfl, rfl, rfl, ?_⟩
    simp [setTrans]

/-- The transaction at place `i` comes from one of the calls, for the owner of its handle. As long
as it waits it has the data of the request. -/
def Requested (as : List Call) (i : Fin BINDER_MAX_TRANSACTIONS) (x : Transaction) : Prop :=
  ∃ before r, before ++ [r.call] <+: as ∧ Issued before r (i.val + 1) ∧
    (binder.after before).owner r.handle = some x.to_pid ∧ r.code = x.code ∧
    (x.status = .PENDING → r.size = x.data_size ∧ r.bytes = x.copied true)

theorem Requested.kept (h : Requested as i x) (hk : Kept x y) (hp : as <+: bs) :
    Requested bs i y := by
  obtain ⟨before, r, hpre, hissued, howner, hcode, hdata⟩ := h
  refine ⟨before, r, hpre.trans hp, hissued, hk.to_pid ▸ howner, hk.code ▸ hcode, fun hy => ?_⟩
  have heq := hk.pending hy
  subst heq
  exact hdata hy

theorem fill_bytes (r : Request) :
    (List.range r.size.toNat).map (fill (fun _ => 0) r.data r.size) = r.bytes := by
  refine List.map_congr_left fun k hk => ?_
  have hlt : (k : Int) < r.size := by
    have := List.mem_range.mp hk
    omega
  cases hd : r.data with
  | none => simp [fill]
  | some d => simp [fill, hlt]

theorem requested_new (hfree : ((binder.after as).transactions i).used = false)
    (hbelow : ∀ j < i, ((binder.after as).transactions j).used = true) {to_pid : Int}
    (howner : (binder.after as).owner r.handle = some to_pid)
    (hans : binder.answer as r.call = .ret (binder.after as).next_trans_id) :
    Requested (as ++ [r.call]) i ((binder.after as).made i r.pid to_pid r.handle r.code r.data r.size
      r.reply r.reply_size) := by
  have hfill := filled_after as
  have hnext := hfill.next_eq hfree hbelow
  refine ⟨as, r, List.prefix_rfl, ⟨hnext ▸ hans, by omega⟩, howner, rfl, fun _ => ⟨rfl, ?_⟩⟩
  rw [← fill_bytes]
  simp [Transaction.copied, made, hfill.zero i hfree]

/-- A place that a call has taken holds the transaction of a request. -/
theorem new_place (hold : (s.transactions i).used = false)
    (hi : ((exec s c).2.transactions i).used = true) :
    ∃ (r : Request) (to_pid : Int), c = r.call ∧ s.owner r.handle = some to_pid ∧
      (∀ j < i, (s.transactions j).used = true) ∧ (exec s c).1 = .ret s.next_trans_id ∧
      (exec s c).2.transactions i =
        s.made i r.pid to_pid r.handle r.code r.data r.size r.reply r.reply_size := by
  have heff := exec_effect s c
  generalize exec s c = res at *
  have hother : ∀ {j x}, i ≠ j → ((s.setTrans j x).transactions i).used = false := by
    intro j x hij
    simpa [setTrans, hij] using hold
  cases heff with
  | none hu _ =>
    rw [hu.1, hold] at hi
    cases hi
  | @made pid handle code data size reply reply_size to_pid j howner hfree hbelow =>
    by_cases hij : i = j
    · subst hij
      refine ⟨⟨pid, handle, code, data, size, reply, reply_size⟩, to_pid, rfl, howner, hbelow, rfl, ?_⟩
      simp [setTrans]
    · exact absurd ((hother hij).symm.trans hi) (by simp)
  | @completed _ _ _ _ j _ _ hused _ _ =>
    have hij : i ≠ j := by
      rintro rfl
      exact absurd (hold.symm.trans hused) (by simp)
    exact absurd ((hother hij).symm.trans hi) (by simp)
  | @delivered _ _ j hwaits _ =>
    have hij : i ≠ j := by
      rintro rfl
      exact absurd (hold.symm.trans hwaits.1) (by simp)
    exact absurd ((hother hij).symm.trans hi) (by simp)

theorem requested_after (as : List Call) : ∀ i, ((binder.after as).transactions i).used = true →
    Requested as i ((binder.after as).transactions i) := by
  refine Server.after_invariant (M := binder) (P := fun as s => ∀ i,
    (s.transactions i).used = true → Requested as i (s.transactions i)) nofun ?_ as
  intro as c ih i hi
  cases hold : ((binder.after as).transactions i).used with
  | true => exact (ih i hold).kept (exec_advance c hold).kept (List.prefix_append _ _)
  | false =>
    obtain ⟨r, to_pid, rfl, howner, hbelow, hans, hmade⟩ := new_place hold hi
    change Requested _ i ((exec (binder.after as) r.call).2.transactions i)
    rw [hmade]
    exact requested_new hold hbelow howner hans

theorem Delivered.mono (h : Delivered as pid id) (hp : as <+: bs) : Delivered bs pid id := by
  obtain ⟨earlier, data, code, bytes, size, hpre, hans⟩ := h
  exact ⟨earlier, data, code, bytes, size, hpre.trans hp, hans⟩

/-- A transaction that waits no more has been delivered. -/
theorem delivered_of_left (hi : (s.transactions i).used = true)
    (hold : (s.transactions i).status = .PENDING)
    (hnew : ((exec s c).2.transactions i).status ≠ .PENDING) :
    ∃ data code bytes size, c = ((s.transactions i).to_pid, .receive data) ∧
      (exec s c).1 = .got (s.transactions i).id code bytes size := by
  rcases place_cases c hi with h | ⟨-, h, -⟩ | ⟨hstatus, -⟩
  · rw [h] at hnew
    exact absurd hold hnew
  · exact h
  · exact absurd (hold.symm.trans hstatus) nofun

theorem delivered_after (as : List Call) : ∀ i, ((binder.after as).transactions i).used = true →
    ((binder.after as).transactions i).status ≠ .PENDING →
      Delivered as ((binder.after as).transactions i).to_pid (i.val + 1) := by
  refine Server.after_invariant (M := binder) (P := fun as s => ∀ i,
    (s.transactions i).used = true → (s.transactions i).status ≠ .PENDING →
      Delivered as (s.transactions i).to_pid (i.val + 1)) nofun ?_ as
  intro as c ih i hi hstatus
  cases hold : ((binder.after as).transactions i).used with
  | true =>
    have hto := (exec_advance c hold).kept.to_pid
    change Delivered _ ((exec (binder.after as) c).2.transactions i).to_pid _
    rw [hto]
    by_cases hpend : ((binder.after as).transactions i).status = .PENDING
    · obtain ⟨data, code, bytes, size, rfl, hans⟩ := delivered_of_left hold hpend hstatus
      rw [(filled_after as).id_eq i hold] at hans
      exact ⟨as, data, code, bytes, size, List.prefix_rfl, hans⟩
    · exact (ih i hold hpend).mono (List.prefix_append _ _)
  | false =>
    obtain ⟨r, to_pid, rfl, -, -, -, hmade⟩ := new_place hold hi
    change ((exec (binder.after as) r.call).2.transactions i).status ≠ _ at hstatus
    rw [hmade] at hstatus
    exact absurd rfl hstatus

theorem Issued.lt {id2 : Int} (h1 : Issued b₁ r₁ id₁) (h2 : Issued b₂ r₂ id2)
    (hp : b₁ ++ [r₁.call] <+: b₂) : id₁ < id2 := by
  obtain ⟨_, _, _, _, _, hnext1, _⟩ := h1.made
  obtain ⟨_, _, _, _, hnext2, _, _⟩ := h2.made
  have hle := (grows_after hp).1
  omega

theorem received_once {pid' code' size' : Int} {data' : Bool} {bytes' : List Byte}
    (h : binder.answer as (pid, .receive data) = .got id code bytes size)
    (hp : as ++ [(pid, .receive data)] <+: bs) :
    binder.answer bs (pid', .receive data') ≠ .got id code' bytes' size' := by
  intro h'
  obtain ⟨i, hi, hold, -, -, -, -, hproc⟩ := received h
  obtain ⟨j, hj, hwaits, -⟩ := received h'
  have hij : i = j := Fin.ext (by omega)
  subst hij
  have hkept := (grows_after (List.prefix_append as [(pid, .receive data)])).2 i hold.1
  have hrank := ((grows_after hp).2 i (hkept.used.trans hold.1)).rank
  rw [hproc, hwaits.2.2] at hrank
  exact absurd hrank (by decide)

/-- A request to the same process that came earlier has been received earlier. -/
theorem received_in_order (h : binder.answer as (pid, .receive data) = .got id code bytes size)
    (hp1 : b₁ ++ [r₁.call] <+: b₂) (hp2 : b₂ ++ [r₂.call] <+: as) (h1 : Issued b₁ r₁ id₁)
    (h2 : Issued b₂ r₂ id) (howner : (binder.after b₁).owner r₁.handle = some pid) :
    Delivered as pid id₁ := by
  obtain ⟨i, hi, -, hfirst, -⟩ := received h
  have hlt := h1.lt h2 hp1
  obtain ⟨to_pid, j, howner', hj, -, -, hmade⟩ := h1.made
  have hto : to_pid = pid := Option.some.inj (howner'.symm.trans howner)
  have hpre : b₁ ++ [r₁.call] <+: as := hp1.trans ((List.prefix_append _ _).trans hp2)
  have hkept := (grows_after hpre).2 j (by rw [hmade]; rfl)
  have hused : ((binder.after as).transactions j).used = true := by
    rw [hkept.used, hmade]
    rfl
  have hpid : ((binder.after as).transactions j).to_pid = pid := by
    rw [hkept.to_pid, hmade]
    exact hto
  rw [hj, ← hpid]
  refine delivered_after as j hused fun hpend => ?_
  exact hfirst j (Fin.lt_def.mpr (by omega)) ⟨hused, hpid, hpend⟩

/-- The status stays, or goes on from waiting to being processed, or from that to the end. -/
def Status.Next (a b : Status) : Prop :=
  b = a ∨ a = .PENDING ∧ b = .PROCESSING ∨ a = .PROCESSING ∧ b = .COMPLETED

theorem Advance.next (h : Advance x y) : x.status.Next y.status := by
  cases h with
  | same => exact .inl rfl
  | delivered h => exact .inr (.inl ⟨h, rfl⟩)
  | completed h d n => exact .inr (.inr ⟨h, rfl⟩)

/-- What is received is a request of an earlier call, whole, at the owner of its handle, for the
first time, and after all earlier requests to that process. No two requests are one transaction, and
the status of a transaction only goes on. -/
theorem binder_delivers_once_in_order :
    (∀ as pid data id code bytes size,
      binder.answer as (pid, .receive data) = .got id code bytes size →
        (∃ before r, before ++ [r.call] <+: as ∧ Issued before r id ∧
          (binder.after before).owner r.handle = some pid ∧ r.code = code ∧ r.size = size ∧
          (data = true → bytes = r.bytes)) ∧
        (∀ later pid' data' code' bytes' size', as ++ [(pid, .receive data)] <+: later →
          binder.answer later (pid', .receive data') ≠ .got id code' bytes' size') ∧
        ∀ b₁ r₁ b₂ r₂ id₁, b₁ ++ [r₁.call] <+: b₂ → b₂ ++ [r₂.call] <+: as → Issued b₁ r₁ id₁ →
          Issued b₂ r₂ id → (binder.after b₁).owner r₁.handle = some pid →
            Delivered as pid id₁) ∧
    (∀ b₁ r₁ b₂ r₂ id₁ id₂, b₁ ++ [r₁.call] <+: b₂ → Issued b₁ r₁ id₁ → Issued b₂ r₂ id₂ →
      id₁ ≠ id₂) ∧
    ∀ as c i, ((binder.after as).transactions i).used = true →
      ((binder.after as).transactions i).status.Next
        ((binder.after (as ++ [c])).transactions i).status := by
  refine ⟨?_, ?_, ?_⟩
  · intro as pid data id code bytes size h
    refine ⟨?_, fun later pid' data' code' bytes' size' hp => received_once h hp,
      fun b₁ r₁ b₂ r₂ id₁ hp1 hp2 h1 h2 howner => received_in_order h hp1 hp2 h1 h2 howner⟩
    obtain ⟨i, rfl, ⟨hused, hto, hpend⟩, -, rfl, rfl, rfl, -⟩ := received h
    obtain ⟨before, r, hpre, hissued, howner, hcode, hdata⟩ := requested_after as i hused
    obtain ⟨hsize, hbytes⟩ := hdata hpend
    refine ⟨before, r, hpre, hissued, hto ▸ howner, hcode, hsize, ?_⟩
    rintro rfl
    exact hbytes.symm
  · intro b₁ r₁ b₂ r₂ id₁ id₂ hp h1 h2
    exact (h1.lt h2 hp).ne
  · intro as c i hi
    rw [after_snoc]
    exact (exec_advance c hi).next

/-- A service of process 7 and two requests to it, the second one received after the first. -/
def twoRequests : List Call :=
  [(7, .register [0x61] 0), (8, .call 1 5 (some fun k => if k = 0 then 9 else 0) 2 0 0),
    (9, .call 1 6 none (-1) 0 0), (7, .receive true)]

theorem binder_delivers_once_in_order_two :
    binder.answer (twoRequests.take 3) (7, .receive true) = .got 1 5 [9, 0] 2 ∧
    binder.answer twoRequests (7, .receive true) = .got 2 6 [] (-1) ∧
    binder.answer (twoRequests ++ [(7, .receive true)]) (7, .receive true) ≠ .got 1 5 [9, 0] 2 := by
  refine ⟨by rfl, by rfl, ?_⟩
  have hfirst : binder.answer (twoRequests.take 3) (7, .receive true) = .got 1 5 [9, 0] 2 := by rfl
  exact (binder_delivers_once_in_order.1 _ 7 true 1 5 [9, 0] 2 hfirst).2.1 _ 7 true 5 [9, 0] 2
    ⟨[(7, .receive true)], rfl⟩

end Yyds.Binder
