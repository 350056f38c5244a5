import Yyds.Ipc.Binder

/-! Messages between abilities (`ability.c`). All abilities share one table of messages. -/
namespace Yyds.Ability

open Lib Function
open Kernel (int)
open Binder (Byte Buf fill)

def MAX_ABILITY_MESSAGES : Nat := 64
def MAX_MESSAGE_DATA : Int := 256

def MSG_REQUEST : Int := 1
def MSG_RESPONSE : Int := 2

instance : NeZero MAX_ABILITY_MESSAGES := ⟨by decide⟩

abbrev Slot := Fin MAX_ABILITY_MESSAGES

/-- `struct ability_message`; `data` has `MAX_MESSAGE_DATA` bytes. -/
structure Message where
  used : Bool
  id : Int
  type : Int
  src_ability : Int
  dst_ability : Int
  request_id : Int
  data : Nat → Byte
  data_len : Int
  processed : Bool

structure AbilityMq where
  messages : Slot → Message
  next_msg_id : Int
  next_request_id : Int

def Message.zero : Message := ⟨false, 0, 0, 0, 0, 0, fun _ => 0, 0, false⟩

/-- No message yet. The numbers start with 0 at boot; nothing calls `ability_mq_init`. -/
def AbilityMq.start (n : Int) : AbilityMq := ⟨fun _ => .zero, n, n⟩

def AbilityMq.put (s : AbilityMq) (i : Slot) (msg : Message) : AbilityMq :=
  { s with messages := update s.messages i msg }

/-- The place for a message of length `len`. -/
def AbilityMq.room (s : AbilityMq) (len : Int) : Option Slot :=
  if len > MAX_MESSAGE_DATA then none else (List.finRange _).find? fun i => !(s.messages i).used

/-- What `ability_send_message` writes to its place. -/
def AbilityMq.newMessage (s : AbilityMq) (slot : Slot) (src_id dst_id type : Int) (data : Buf)
    (len : Int) : Message where
  used := true
  id := s.next_msg_id
  type := type
  src_ability := src_id
  dst_ability := dst_id
  request_id := if type = MSG_REQUEST then s.next_request_id else 0
  data := fill (s.messages slot).data data len
  data_len := if data.isSome ∧ len > 0 then len else 0
  processed := false

def ability_send_message (s : AbilityMq) (src_id dst_id type : Int) (data : Buf) (len : Int) :
    Int × AbilityMq :=
  match s.room len with
  | none => (-1, s)
  | some slot =>
    let msg := s.newMessage slot src_id dst_id type data len
    (msg.id,
      { s.put slot msg with
        next_msg_id := int (s.next_msg_id + 1)
        next_request_id :=
          if type = MSG_REQUEST then int (s.next_request_id + 1) else s.next_request_id })

/-- What `ability_reply` writes to its place. Without data the old `data_len` stays. -/
def AbilityMq.newReply (s : AbilityMq) (slot : Slot) (src_id dst_id request_id : Int) (data : Buf)
    (len : Int) : Message where
  used := true
  id := s.next_msg_id
  type := MSG_RESPONSE
  src_ability := src_id
  dst_ability := dst_id
  request_id := request_id
  data := fill (s.messages slot).data data len
  data_len := if data.isSome ∧ len > 0 then len else (s.messages slot).data_len
  processed := false

def ability_reply (s : AbilityMq) (src_id dst_id request_id : Int) (data : Buf) (len : Int) :
    Int × AbilityMq :=
  match s.room len with
  | none => (-1, s)
  | some slot =>
    let msg := s.newReply slot src_id dst_id request_id data len
    (msg.id, { s.put slot msg with next_msg_id := int (s.next_msg_id + 1) })

/-- What is copied to the receiver: `out` is what `*src_id` and `*type` are set to. -/
structure Received where
  ret : Int
  buf : Buf
  out : Option (Int × Int)

/-- The message that `ability_id` receives next. -/
def AbilityMq.incoming (s : AbilityMq) (ability_id : Int) : Option Slot :=
  (List.finRange _).find? fun i =>
    (s.messages i).used ∧ (s.messages i).dst_ability = ability_id ∧ !(s.messages i).processed

def ability_recv_message (s : AbilityMq) (ability_id : Int) (buf : Buf) (buflen : Int) :
    Received × AbilityMq :=
  match s.incoming ability_id with
  | none => (⟨-1, buf, none⟩, s)
  | some i =>
    let msg := s.messages i
    let copy_len := if msg.data_len < buflen then msg.data_len else buflen
    (⟨copy_len, buf.map fun b => fill b (some msg.data) copy_len,
        some (msg.src_ability, msg.type)⟩,
      s.put i { msg with processed := true, used := false })

/-- What `ability_call` reads back after it has sent its request. -/
def AbilityMq.requestOf (s : AbilityMq) (msg_id : Int) : Int :=
  match (List.finRange _).find? fun i => (s.messages i).id = msg_id with
  | none => 0
  | some i => (s.messages i).request_id

/-- The response that `ability_call` finds. -/
def AbilityMq.response (s : AbilityMq) (src_id request_id : Int) : Option Slot :=
  (List.finRange _).find? fun i =>
    (s.messages i).used ∧ (s.messages i).type = MSG_RESPONSE ∧
      (s.messages i).dst_ability = src_id ∧ (s.messages i).request_id = request_id

section Tables

variable {s : AbilityMq} {i : Slot} {src_id dst_id type request_id ability_id len buflen : Int}
  {data buf : Buf}

theorem room_some (h : s.room len = some i) :
    len ≤ MAX_MESSAGE_DATA ∧ (s.messages i).used = false := by
  unfold AbilityMq.room at h
  split at h
  · cases h
  · rename_i hlen
    exact ⟨not_lt.mp hlen, by simpa using List.find?_some h⟩

theorem send_messages (h : s.room len = some i) :
    (ability_send_message s src_id dst_id type data len).2.messages =
      update s.messages i (s.newMessage i src_id dst_id type data len) := by
  rw [ability_send_message, h]
  rfl

theorem send_none (h : s.room len = none) :
    ability_send_message s src_id dst_id type data len = (-1, s) := by
  rw [ability_send_message, h]

theorem reply_messages (h : s.room len = some i) :
    (ability_reply s src_id dst_id request_id data len).2.messages =
      update s.messages i (s.newReply i src_id dst_id request_id data len) := by
  rw [ability_reply, h]
  rfl

theorem reply_none (h : s.room len = none) :
    ability_reply s src_id dst_id request_id data len = (-1, s) := by
  rw [ability_reply, h]

theorem recv_messages (h : s.incoming ability_id = some i) :
    (ability_recv_message s ability_id buf buflen).2.messages =
      update s.messages i { s.messages i with processed := true, used := false } := by
  rw [ability_recv_message, h]
  rfl

theorem recv_none (h : s.incoming ability_id = none) :
    ability_recv_message s ability_id buf buflen = (⟨-1, buf, none⟩, s) := by
  rw [ability_recv_message, h]

end Tables

end Yyds.Ability
