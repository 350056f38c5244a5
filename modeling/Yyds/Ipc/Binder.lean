import Yyds.Lib.Scan
import Yyds.Lib.Trace
import Yyds.Kernel.Sys

/-! Services and transactions of `binder.c`. All of a call runs under `binder.lock`. -/
namespace Yyds.Binder

open Lib
open Kernel (int)

abbrev Byte := BitVec 8

/-- What a pointer leads to; `none` is a null pointer. -/
abbrev Buf := Option (Nat → Byte)

def BINDER_MAX_SERVICES : Nat := 32
def BINDER_MAX_TRANSACTIONS : Nat := 64
def BINDER_MAX_DATA : Int := 1024
def BINDER_SERVICE_NAME_LEN : Nat := 32

instance : NeZero BINDER_MAX_TRANSACTIONS := ⟨by decide⟩

/-- `strncmp`; a string is the list of its bytes before the first zero. -/
def strncmp : List Byte → List Byte → Nat → Int
  | _, _, 0 => 0
  | [], [], _ + 1 => 0
  | [], q :: _, _ + 1 => -q.toNat
  | p :: _, [], _ + 1 => p.toNat
  | p :: ps, q :: qs, n + 1 => if p = q then strncmp ps qs n else p.toNat - q.toNat

/-- `struct binder_service` -/
structure Service where
  used : Bool
  name : List Byte
  owner_pid : Int
  handle : Int
  ptr : BitVec 64
  ref_count : Int

inductive Status
  | FREE
  | PENDING
  | PROCESSING
  | COMPLETED
  deriving DecidableEq

/-- `struct binder_transaction`; `data` has `BINDER_MAX_DATA` bytes. -/
structure Transaction where
  used : Bool
  id : Int
  from_pid : Int
  to_pid : Int
  target_handle : Int
  code : Int
  data : Nat → Byte
  data_size : Int
  status : Status
  reply_data : BitVec 64
  reply_size : Int

/-- `struct binder_state` -/
structure BinderState where
  services : Fin BINDER_MAX_SERVICES → Service
  service_count : Int
  next_handle : Int
  transactions : Fin BINDER_MAX_TRANSACTIONS → Transaction
  next_trans_id : Int

def Service.zero : Service := ⟨false, [], 0, 0, 0, 0⟩

def Transaction.zero : Transaction := ⟨false, 0, 0, 0, 0, 0, fun _ => 0, 0, .FREE, 0, 0⟩

def binder_init : BinderState := ⟨fun _ => .zero, 0, 1, fun _ => .zero, 1⟩

def BinderState.setService (s : BinderState) (i : Fin BINDER_MAX_SERVICES) (v : Service) : BinderState :=
  { s with services := Function.update s.services i v }

def BinderState.setTrans (s : BinderState) (i : Fin BINDER_MAX_TRANSACTIONS) (v : Transaction) : BinderState :=
  { s with transactions := Function.update s.transactions i v }

/-! ### Services -/

def BinderState.named (s : BinderState) (name : List Byte) : Option (Fin BINDER_MAX_SERVICES) :=
  (List.finRange _).find? fun i =>
    (s.services i).used ∧ strncmp (s.services i).name name BINDER_SERVICE_NAME_LEN = 0

/-- The service the loops find for a handle. -/
def BinderState.target (s : BinderState) (handle : Int) : Option (Fin BINDER_MAX_SERVICES) :=
  (List.finRange _).find? fun i => (s.services i).used ∧ (s.services i).handle = handle

/-- The process that owns a handle. -/
def BinderState.owner (s : BinderState) (handle : Int) : Option Int :=
  (s.target handle).map fun i => (s.services i).owner_pid

def binder_register_service (s : BinderState) (pid : Int) (name : List Byte) (ptr : BitVec 64) :
    Int × BinderState :=
  match s.named name with
  | some _ => (-1, s)
  | none =>
    match (List.finRange _).find? fun i => !(s.services i).used with
    | none => (-1, s)
    | some slot =>
      let svc : Service :=
        { used := true, name := name.take BINDER_SERVICE_NAME_LEN, owner_pid := pid
          handle := s.next_handle, ptr, ref_count := 1 }
      (s.next_handle,
        { s.setService slot svc with
          next_handle := int (s.next_handle + 1), service_count := s.service_count + 1 })

def binder_lookup_service (s : BinderState) (name : List Byte) : Int × BinderState :=
  match s.named name with
  | none => (-1, s)
  | some i =>
    let svc := s.services i
    (svc.handle, s.setService i { svc with ref_count := int (svc.ref_count + 1) })

def binder_release_service (s : BinderState) (handle : Int) : Int × BinderState :=
  match s.target handle with
  | none => (-1, s)
  | some i =>
    let svc := { s.services i with ref_count := int ((s.services i).ref_count - 1) }
    if svc.ref_count ≤ 0 then
      (0, { s.setService i { svc with used := false } with service_count := s.service_count - 1 })
    else (0, s.setService i svc)

/-! ### Transactions -/

/-- `memmove(old, data, size)`, if there are data -/
def fill (old : Nat → Byte) (data : Buf) (size : Int) : Nat → Byte :=
  match data with
  | none => old
  | some d => fun k => if (k : Int) < size then d k else old k

def alloc_transaction (s : BinderState) : Option (Fin BINDER_MAX_TRANSACTIONS) × BinderState :=
  match (List.finRange _).find? fun i => !(s.transactions i).used with
  | none => (none, s)
  | some i =>
    (some i,
      { s.setTrans i { s.transactions i with used := true, id := s.next_trans_id } with
        next_trans_id := int (s.next_trans_id + 1) })

def binder_call (s : BinderState) (pid handle code : Int) (data : Buf) (size : Int)
    (reply : BitVec 64) (reply_size : Int) : Int × BinderState :=
  if size > BINDER_MAX_DATA then (-1, s)
  else
    match s.target handle with
    | none => (-1, s)
    | some svc =>
      match alloc_transaction s with
      | (none, s) => (-1, s)
      | (some i, s) =>
        let trans :=
          { s.transactions i with
            from_pid := pid, to_pid := (s.services svc).owner_pid, target_handle := handle, code
            data_size := size, reply_data := reply, reply_size, status := .PENDING
            data := fill (s.transactions i).data data size }
        (trans.id, s.setTrans i trans)

/-- The transaction the loop finds for an id. -/
def BinderState.found (s : BinderState) (trans_id : Int) : Option (Fin BINDER_MAX_TRANSACTIONS) :=
  (List.finRange _).find? fun i => (s.transactions i).used ∧ (s.transactions i).id = trans_id

def binder_reply (s : BinderState) (trans_id : Int) (data : Buf) (size : Int) : Int × BinderState :=
  if size > BINDER_MAX_DATA then (-1, s)
  else
    match s.found trans_id with
    | none => (-1, s)
    | some i =>
      let trans := s.transactions i
      if trans.status ≠ .PROCESSING then (-1, s)
      else
        let trans :=
          if data.isSome ∧ size > 0 ∧ trans.reply_data ≠ 0 then
            { trans with data := fill trans.data data size, data_size := size }
          else trans
        (0, s.setTrans i { trans with status := .COMPLETED })

/-- What a call of the interface answers: a number, or a received transaction. -/
inductive Answer
  | ret (n : Int)
  | got (trans_id code : Int) (data : List Byte) (size : Int)

/-- `data`: there is a buffer for the data. -/
def binder_receive (s : BinderState) (pid : Int) (data : Bool) : Answer × BinderState :=
  match (List.finRange _).find? fun i =>
      (s.transactions i).used ∧ (s.transactions i).to_pid = pid ∧
        (s.transactions i).status = .PENDING with
  | none => (.ret (-1), s)
  | some i =>
    let trans := s.transactions i
    let copied :=
      if data = true ∧ trans.data_size > 0 then (List.range trans.data_size.toNat).map trans.data
      else []
    (.got trans.id trans.code copied trans.data_size,
      s.setTrans i { trans with status := .PROCESSING })

/-! ### Sequences of calls -/

inductive Op
  | register (name : List Byte) (ptr : BitVec 64)
  | lookup (name : List Byte)
  | release (handle : Int)
  | call (handle code : Int) (data : Buf) (size : Int) (reply : BitVec 64) (reply_size : Int)
  | reply (trans_id : Int) (data : Buf) (size : Int)
  | receive (data : Bool)

/-- An operation by the process of this id. -/
abbrev Call := Int × Op

def exec (s : BinderState) : Call → Answer × BinderState
  | (pid, .register name ptr) => (binder_register_service s pid name ptr).map .ret id
  | (_, .lookup name) => (binder_lookup_service s name).map .ret id
  | (_, .release handle) => (binder_release_service s handle).map .ret id
  | (pid, .call handle code data size reply reply_size) =>
    (binder_call s pid handle code data size reply reply_size).map .ret id
  | (_, .reply trans_id data size) => (binder_reply s trans_id data size).map .ret id
  | (pid, .receive data) => binder_receive s pid data

def binder : Server BinderState Call Answer := ⟨binder_init, exec⟩

/-! ### What one call does -/

variable {s : BinderState} {pid : Int}

/-- The transactions as they were. -/
def Untouched (s t : BinderState) : Prop :=
  t.transactions = s.transactions ∧ t.next_trans_id = s.next_trans_id

theorem register_untouched (s : BinderState) (pid : Int) (name : List Byte) (ptr : BitVec 64) :
    Untouched s (binder_register_service s pid name ptr).2 := by
  rw [binder_register_service]
  split
  · exact ⟨rfl, rfl⟩
  · split
    · exact ⟨rfl, rfl⟩
    · exact ⟨rfl, rfl⟩

theorem lookup_untouched (s : BinderState) (name : List Byte) :
    Untouched s (binder_lookup_service s name).2 := by
  rw [binder_lookup_service]
  split
  · exact ⟨rfl, rfl⟩
  · exact ⟨rfl, rfl⟩

theorem release_untouched (s : BinderState) (handle : Int) :
    Untouched s (binder_release_service s handle).2 := by
  rw [binder_release_service]
  split
  · exact ⟨rfl, rfl⟩
  · dsimp only
    split
    · exact ⟨rfl, rfl⟩
    · exact ⟨rfl, rfl⟩

/-- The transaction a call makes in a free place. -/
def BinderState.made (s : BinderState) (i : Fin BINDER_MAX_TRANSACTIONS) (pid to_pid handle code : Int)
    (data : Buf) (size : Int) (reply : BitVec 64) (reply_size : Int) : Transaction :=
  { s.transactions i with
    used := true, id := s.next_trans_id, from_pid := pid, to_pid, target_handle := handle, code
    data_size := size, reply_data := reply, reply_size, status := .PENDING
    data := fill (s.transactions i).data data size }

theorem binder_call_cases (s : BinderState) (pid handle code : Int) (data : Buf) (size : Int)
    (reply : BitVec 64) (reply_size : Int) :
    ((size > BINDER_MAX_DATA ∨ s.owner handle = none ∨ ∀ i, (s.transactions i).used = true) ∧
      binder_call s pid handle code data size reply reply_size = (-1, s)) ∨
    ∃ to_pid i, size ≤ BINDER_MAX_DATA ∧ s.owner handle = some to_pid ∧
      (s.transactions i).used = false ∧ (∀ j < i, (s.transactions j).used = true) ∧
      binder_call s pid handle code data size reply reply_size = (s.next_trans_id,
        { s.setTrans i (s.made i pid to_pid handle code data size reply reply_size) with
          next_trans_id := int (s.next_trans_id + 1) }) := by
  rw [binder_call]
  split
  · exact .inl ⟨.inl ‹_›, rfl⟩
  cases ht : s.target handle with
  | none => exact .inl ⟨.inr (.inl (by rw [BinderState.owner, ht]; rfl)), rfl⟩
  | some svc =>
    rw [alloc_transaction]
    cases hf : (List.finRange BINDER_MAX_TRANSACTIONS).find? fun i => !(s.transactions i).used with
    | none =>
      refine .inl ⟨.inr (.inr fun i => ?_), rfl⟩
      simpa using List.find?_eq_none.mp hf i (List.mem_finRange i)
    | some i =>
      obtain ⟨hfree, hbelow⟩ := find?_finRange_some.mp hf
      refine .inr ⟨(s.services svc).owner_pid, i, by omega, by rw [BinderState.owner, ht]; rfl,
        by simpa using hfree, fun j hj => by simpa using hbelow j hj, ?_⟩
      simp [BinderState.setTrans, BinderState.made]

theorem found_some {i : Fin BINDER_MAX_TRANSACTIONS} {trans_id : Int}
    (h : s.found trans_id = some i) :
    (s.transactions i).used = true ∧ (s.transactions i).id = trans_id :=
  of_decide_eq_true (find?_finRange_some.mp h).1

theorem binder_reply_cases (s : BinderState) (trans_id : Int) (data : Buf) (size : Int) :
    binder_reply s trans_id data size = (-1, s) ∨
    ∃ i d n, s.found trans_id = some i ∧ (s.transactions i).status = .PROCESSING ∧
      binder_reply s trans_id data size = (0, s.setTrans i
        { s.transactions i with data := d, data_size := n, status := .COMPLETED }) := by
  rw [binder_reply]
  split
  · exact .inl rfl
  split
  · exact .inl rfl
  rename_i i hf
  dsimp only
  split
  · exact .inl rfl
  · rename_i hstatus
    have hproc : (s.transactions i).status = .PROCESSING := not_not.mp hstatus
    split
    · exact .inr ⟨i, _, _, hf, hproc, rfl⟩
    · exact .inr ⟨i, _, _, hf, hproc, rfl⟩

/-- What a process can receive. -/
def Transaction.Waits (t : Transaction) (pid : Int) : Prop :=
  t.used = true ∧ t.to_pid = pid ∧ t.status = .PENDING
  deriving Decidable

/-- What is copied out of a transaction. -/
def Transaction.copied (t : Transaction) (data : Bool) : List Byte :=
  if data = true then (List.range t.data_size.toNat).map t.data else []

theorem binder_receive_cases (s : BinderState) (pid : Int) (data : Bool) :
    ((∀ i, ¬ (s.transactions i).Waits pid) ∧ binder_receive s pid data = (.ret (-1), s)) ∨
    ∃ i, (s.transactions i).Waits pid ∧ (∀ j < i, ¬ (s.transactions j).Waits pid) ∧
      binder_receive s pid data =
        (.got (s.transactions i).id (s.transactions i).code ((s.transactions i).copied data)
            (s.transactions i).data_size,
          s.setTrans i { s.transactions i with status := .PROCESSING }) := by
  rw [binder_receive]
  split
  · rename_i hf
    refine .inl ⟨fun i hw => ?_, rfl⟩
    exact List.find?_eq_none.mp hf i (List.mem_finRange i) (decide_eq_true hw)
  rename_i i hf
  obtain ⟨hw, hbelow⟩ := find?_finRange_some.mp hf
  refine .inr ⟨i, of_decide_eq_true hw, fun j hj => of_decide_eq_false (hbelow j hj), ?_⟩
  have hcopied : (if data = true ∧ (s.transactions i).data_size > 0 then
      (List.range (s.transactions i).data_size.toNat).map (s.transactions i).data else []) =
      (s.transactions i).copied data := by
    rw [Transaction.copied]
    by_cases hpos : (s.transactions i).data_size > 0
    · simp [hpos]
    · have : (s.transactions i).data_size.toNat = 0 := by omega
      simp [hpos, this]
  rw [← hcopied]

end Yyds.Binder
