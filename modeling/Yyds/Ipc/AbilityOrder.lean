import Yyds.Ipc.Ability

/-! In which order messages arrive, and what is in them. -/
namespace Yyds.Ability

open Lib Function AbilityMq
open Binder (Byte Buf fill)

/-- A receiver has a buffer for the longest message. -/
inductive Op
  | send (src_id dst_id type : Int) (data : Buf) (len : Int)
  | reply (src_id dst_id request_id : Int) (data : Buf) (len : Int)
  | recv (ability_id : Int) (buf : Nat → Byte) (buflen : Int) (h : MAX_MESSAGE_DATA ≤ buflen)

inductive Answer
  | ret (n : Int)
  | message (r : Received)

def exec (s : AbilityMq) : Op → Answer × AbilityMq
  | .send src_id dst_id type data len =>
    let r := ability_send_message s src_id dst_id type data len
    (.ret r.1, r.2)
  | .reply src_id dst_id request_id data len =>
    let r := ability_reply s src_id dst_id request_id data len
    (.ret r.1, r.2)
  | .recv ability_id buf buflen _ =>
    let r := ability_recv_message s ability_id (some buf) buflen
    (.message r.1, r.2)

/-- The numbers of messages and requests start with `n`. -/
def abilities (n : Int) : Server AbilityMq Op Answer := ⟨.start n, exec⟩

/-! ### What is sent and what is received -/

structure Packet where
  type : Int
  len : Int
  bytes : List Byte
  deriving DecidableEq

/-- What a sender hands over; without data the message is empty. -/
def packet (type : Int) (data : Buf) (len : Int) : Packet :=
  match data with
  | none => ⟨type, 0, []⟩
  | some d => if len > 0 then ⟨type, len, (List.range len.toNat).map d⟩ else ⟨type, 0, []⟩

/-- What a receiver finds in its buffer. -/
def Received.packet (r : Received) (src : Int) : Option Packet :=
  match r.buf, r.out with
  | some b, some (src_id, type) =>
    if src_id = src then some ⟨type, r.ret, (List.range r.ret.toNat).map b⟩ else none
  | _, _ => none

/-- The message from `src` to `dst` that a call puts into the table. -/
def Op.sent (s : AbilityMq) (src dst : Int) : Op → Option Packet
  | .send src_id dst_id type data len =>
    if src_id = src ∧ dst_id = dst ∧ (s.room len).isSome then some (Ability.packet type data len)
    else none
  | .reply src_id dst_id _ data len =>
    if src_id = src ∧ dst_id = dst ∧ (s.room len).isSome then
      some (Ability.packet MSG_RESPONSE data len)
    else none
  | .recv _ _ _ _ => none

/-- The message from `src` to `dst` that a call returns. -/
def Op.received (s : AbilityMq) (src dst : Int) : Op → Option Packet
  | .recv ability_id buf buflen _ =>
    if ability_id = dst then (ability_recv_message s ability_id (some buf) buflen).1.packet src
    else none
  | .send .. | .reply .. => none

/-- The messages sent from `src` to `dst` in the calls `as`. -/
def sent (n : Int) (as : List Op) (src dst : Int) : List Packet :=
  ((abilities n).history as).filterMap fun x => x.2.sent x.1 src dst

/-- The messages from `src` received by `dst` in the calls `as`. -/
def received (n : Int) (as : List Op) (src dst : Int) : List Packet :=
  ((abilities n).history as).filterMap fun x => x.2.received x.1 src dst

/-! ### When the order is kept -/

/-- The messages of a pair that wait all stand before place `i`. -/
def AbilityMq.Last (s : AbilityMq) (src dst : Int) (i : Slot) : Prop :=
  ∀ j, (s.messages j).used = true → (s.messages j).src_ability = src →
    (s.messages j).dst_ability = dst → j < i
  deriving Decidable

/-- A new message comes behind those of its pair, and an empty reply meets no old length. -/
def Orderly (s : AbilityMq) : Op → Prop
  | .send src_id dst_id _ _ len => (s.room len).all fun i => s.Last src_id dst_id i
  | .reply src_id dst_id _ data len => (s.room len).all fun i =>
      s.Last src_id dst_id i ∧ (data.isSome ∧ len > 0 ∨ (s.messages i).data_len = 0)
  | .recv _ _ _ _ => True

instance (s : AbilityMq) : DecidablePred (Orderly s) := fun a => by
  cases a <;> dsimp only [Orderly] <;> infer_instance

/-! ### The messages that wait -/

def AbilityMq.waits (s : AbilityMq) (src dst : Int) (i : Slot) : Bool :=
  (s.messages i).used ∧ (s.messages i).src_ability = src ∧ (s.messages i).dst_ability = dst

def Message.packet (msg : Message) : Packet :=
  ⟨msg.type, msg.data_len, (List.range msg.data_len.toNat).map msg.data⟩

def AbilityMq.waiting (s : AbilityMq) (src dst : Int) : List Packet :=
  ((List.finRange _).filter (s.waits src dst)).map fun i => (s.messages i).packet

structure Sound (s : AbilityMq) : Prop where
  fresh : ∀ i, (s.messages i).used = true → (s.messages i).processed = false
  len : ∀ i, 0 ≤ (s.messages i).data_len ∧ (s.messages i).data_len ≤ MAX_MESSAGE_DATA

section Waiting

variable {s t : AbilityMq} {i : Slot} {msg : Message}

open AbilityMq

/-- Only a slot that does not wait is changed. -/
theorem waiting_map {src dst : Int} (hother : ∀ j, j ≠ i → t.messages j = s.messages j)
    (hi : s.waits src dst i = false) :
    ((List.finRange _).filter (s.waits src dst)).map (fun j => (t.messages j).packet) =
      s.waiting src dst := by
  refine List.map_congr_left fun j hj => ?_
  have hne : j ≠ i := by
    rintro rfl
    simp [hi] at hj
  rw [hother j hne]

theorem waiting_same {src dst : Int} (hother : ∀ j, j ≠ i → t.messages j = s.messages j)
    (hs : s.waits src dst i = false) (ht : t.waits src dst i = false) :
    t.waiting src dst = s.waiting src dst := by
  have hsame : t.waits src dst = s.waits src dst := by
    funext j
    by_cases hj : j = i
    · rw [hj, hs, ht]
    · simp [waits, hother j hj]
  rw [waiting, hsame, waiting_map hother hs]

theorem waiting_post (src dst : Int) (ht : t.messages = update s.messages i msg)
    (hi : (s.messages i).used = false) (hu : msg.used = true)
    (hlast : s.Last msg.src_ability msg.dst_ability i) :
    t.waiting src dst = s.waiting src dst ++
      if msg.src_ability = src ∧ msg.dst_ability = dst then [msg.packet] else [] := by
  have hself : t.messages i = msg := by simp [ht]
  have hother : ∀ j, j ≠ i → t.messages j = s.messages j := fun j hj => by simp [ht, hj]
  have hold : s.waits src dst i = false := by simp [waits, hi]
  split
  · rename_i hpair
    have hfilter : (List.finRange _).filter (t.waits src dst) =
        (List.finRange _).filter (s.waits src dst) ++ [i] := by
      apply filter_finRange_snoc hold
      · simp [waits, hself, hu, hpair]
      · intro j hj
        simp only [waits, decide_eq_true_eq] at hj
        exact hlast j hj.1 (hj.2.1.trans hpair.1.symm) (hj.2.2.trans hpair.2.symm)
      · intro j hj
        simp [waits, hother j hj]
    rw [waiting, hfilter, List.map_append, waiting_map hother hold, List.map_singleton, hself]
  · rename_i hpair
    rw [waiting_same hother hold (by simp [waits, hself, hpair]), List.append_nil]

theorem waiting_take (src dst : Int) (ht : t.messages = update s.messages i msg)
    (hu : msg.used = false) (hi : (s.messages i).used = true)
    (hfirst : ∀ j < i, (s.messages j).used = true →
      (s.messages j).dst_ability ≠ (s.messages i).dst_ability) :
    s.waiting src dst =
      (if (s.messages i).src_ability = src ∧ (s.messages i).dst_ability = dst then
        [(s.messages i).packet] else []) ++ t.waiting src dst := by
  have hother : ∀ j, j ≠ i → s.messages j = t.messages j := fun j hj => by simp [ht, hj]
  have hgone : t.waits src dst i = false := by simp [waits, ht, hu]
  split
  · rename_i hpair
    have hfilter : (List.finRange _).filter (s.waits src dst) =
        i :: (List.finRange _).filter (t.waits src dst) := by
      refine filter_finRange_cons ?_ hgone ?_ ?_
      · simp [waits, hi, hpair]
      · intro j hj
        have hne := hfirst j hj
        rw [hpair.2] at hne
        simp only [waits, decide_eq_false_iff_not]
        exact fun h => hne h.1 h.2.2
      · intro j hj
        simp [waits, hother j hj]
    rw [waiting, hfilter, List.map_cons, waiting_map hother hgone, List.singleton_append]
  · rename_i hpair
    rw [List.nil_append, waiting_same hother hgone (by simp [waits, hpair])]

end Waiting

section Step

variable {s : AbilityMq} {op : Op} {src dst type len : Int} {data : Buf} {i : Slot} {msg : Message}

/-- The bytes that are copied into a message are those that were handed over. -/
theorem packet_fill (old : Nat → Byte) {n : Int} (hn : ¬ (data.isSome ∧ len > 0) → n = 0)
    (htype : msg.type = type) (hdata : msg.data = fill old data len)
    (hlen : msg.data_len = if data.isSome ∧ len > 0 then len else n) :
    msg.packet = packet type data len := by
  rw [Message.packet, htype, hdata, hlen]
  by_cases hd : data.isSome ∧ len > 0
  · obtain ⟨d, rfl⟩ := Option.isSome_iff_exists.mp hd.1
    simp only [if_pos hd, packet, if_pos hd.2, fill, Packet.mk.injEq, true_and]
    refine List.map_congr_left fun k hk => ?_
    have hk' := List.mem_range.mp hk
    rw [if_pos (by omega)]
  · rw [if_neg hd, hn hd]
    cases data with
    | none => rfl
    | some d =>
      rw [packet, if_neg fun hl => hd ⟨rfl, hl⟩]
      rfl

theorem Sound.put (h : Sound s) {t : AbilityMq} (ht : t.messages = update s.messages i msg)
    (hfresh : msg.used = true → msg.processed = false)
    (hlen : 0 ≤ msg.data_len ∧ msg.data_len ≤ MAX_MESSAGE_DATA) : Sound t := by
  constructor
  · intro j hj
    by_cases hji : j = i
    · subst hji
      simp only [ht, update_self] at hj ⊢
      exact hfresh hj
    · simp only [ht, update_of_ne hji] at hj ⊢
      exact h.fresh j hj
  · intro j
    by_cases hji : j = i
    · subst hji
      simpa only [ht, update_self] using hlen
    · simpa only [ht, update_of_ne hji] using h.len j

theorem Sound.exec (h : Sound s) (op : Op) : Sound (exec s op).2 := by
  cases op with
  | send src_id dst_id type data len =>
    rw [Ability.exec]
    cases hroom : s.room len with
    | none => rwa [send_none hroom]
    | some slot =>
      refine h.put (send_messages hroom) (fun _ => rfl) ?_
      have hmax := (room_some hroom).1
      simp only [newMessage, MAX_MESSAGE_DATA] at hmax ⊢
      split <;> omega
  | reply src_id dst_id request_id data len =>
    rw [Ability.exec]
    cases hroom : s.room len with
    | none => rwa [reply_none hroom]
    | some slot =>
      refine h.put (reply_messages hroom) (fun _ => rfl) ?_
      have hmax := (room_some hroom).1
      have hold := h.len slot
      simp only [newReply, MAX_MESSAGE_DATA] at hmax hold ⊢
      split <;> omega
  | recv ability_id buf buflen _ =>
    rw [Ability.exec]
    cases hin : s.incoming ability_id with
    | none => rwa [recv_none hin]
    | some slot => exact h.put (recv_messages hin) nofun (h.len slot)

theorem Sound.incoming_some (h : Sound s) (hin : s.incoming dst = some i) :
    ((s.messages i).used = true ∧ (s.messages i).dst_ability = dst) ∧
      ∀ j < i, (s.messages j).used = true →
        (s.messages j).dst_ability ≠ (s.messages i).dst_ability := by
  obtain ⟨hi, hfirst⟩ := find?_finRange_some.mp hin
  simp only [decide_eq_true_eq] at hi
  refine ⟨⟨hi.1, hi.2.1⟩, fun j hj hu he => ?_⟩
  have hno := hfirst j hj
  simp [hu, h.fresh j hu, he, hi.2.1] at hno

theorem Sound.packet_recv (h : Sound s) {buf : Nat → Byte} {buflen : Int}
    (hin : s.incoming dst = some i) (hbuf : MAX_MESSAGE_DATA ≤ buflen) :
    (ability_recv_message s dst (some buf) buflen).1.packet src =
      if (s.messages i).src_ability = src then some (s.messages i).packet else none := by
  have hlen : (if (s.messages i).data_len < buflen then (s.messages i).data_len else buflen) =
      (s.messages i).data_len := by
    have hmax := (h.len i).2
    split <;> omega
  rw [ability_recv_message, hin]
  simp only [hlen, Received.packet, Option.map_some, fill, Message.packet]
  congr 3
  refine List.map_congr_left fun k hk => ?_
  have hk' := List.mem_range.mp hk
  rw [if_pos (by omega)]

/-- What waits and what comes in is what goes out and what then waits. -/
theorem Sound.conserve (h : Sound s) (ho : Orderly s op) (src dst : Int) :
    s.waiting src dst ++ (op.sent s src dst).toList =
      (op.received s src dst).toList ++ (Ability.exec s op).2.waiting src dst := by
  cases op with
  | send src_id dst_id type data len =>
    rw [Ability.exec, Op.sent, Op.received]
    cases hroom : s.room len with
    | none => simp [send_none hroom]
    | some slot =>
      simp only [Orderly, hroom, Option.all_some, decide_eq_true_eq] at ho
      have hpacket : (s.newMessage slot src_id dst_id type data len).packet =
          packet type data len := packet_fill _ (fun _ => rfl) rfl rfl rfl
      rw [waiting_post src dst (send_messages hroom) (room_some hroom).2 rfl ho, hpacket]
      simp only [newMessage, Option.isSome_some, and_true, Option.toList_none, List.nil_append]
      by_cases hp : src_id = src ∧ dst_id = dst <;> simp [hp]
  | reply src_id dst_id request_id data len =>
    rw [Ability.exec, Op.sent, Op.received]
    cases hroom : s.room len with
    | none => simp [reply_none hroom]
    | some slot =>
      simp only [Orderly, hroom, Option.all_some, decide_eq_true_eq] at ho
      have hpacket : (s.newReply slot src_id dst_id request_id data len).packet =
          packet MSG_RESPONSE data len :=
        packet_fill _ (fun hno => ho.2.resolve_left hno) rfl rfl rfl
      rw [waiting_post src dst (reply_messages hroom) (room_some hroom).2 rfl ho.1, hpacket]
      simp only [newReply, Option.isSome_some, and_true, Option.toList_none, List.nil_append]
      by_cases hp : src_id = src ∧ dst_id = dst <;> simp [hp]
  | recv ability_id buf buflen hbuf =>
    rw [Ability.exec, Op.sent, Op.received]
    cases hin : s.incoming ability_id with
    | none => simp [recv_none hin, Received.packet]
    | some slot =>
      obtain ⟨⟨hu, hdst⟩, hfirst⟩ := h.incoming_some hin
      rw [waiting_take src dst (recv_messages hin) rfl hu hfirst, h.packet_recv hin hbuf, hdst]
      simp only [Option.toList_none, List.append_nil]
      congr 1
      by_cases hd : ability_id = dst <;> by_cases hs : (s.messages slot).src_ability = src <;>
        simp [hd, hs]

end Step

/-! ### Sequences of calls -/

theorem sound_start (n : Int) : Sound (.start n) := by
  constructor
  · intro i hi
    cases hi
  · intro i
    exact ⟨le_rfl, show (0 : Int) ≤ MAX_MESSAGE_DATA by decide⟩

variable {n : Int} {as : List Op}

theorem sound_after (n : Int) (as : List Op) : Sound ((abilities n).after as) :=
  Server.after_invariant (P := fun _ s => Sound s) (sound_start n) (fun _ a h => h.exec a) as

/-- What was sent is what was received and what waits. -/
theorem sent_eq (h : ∀ x ∈ (abilities n).history as, Orderly x.1 x.2) (src dst : Int) :
    sent n as src dst = received n as src dst ++ ((abilities n).after as).waiting src dst := by
  induction as using List.reverseRecOn with
  | nil => simp [sent, received, waiting, waits, abilities, start,
      Message.zero]
  | append_singleton as a ih =>
    rw [Server.history_snoc] at h
    have hpast := ih fun x hx => h x (List.mem_append_left _ hx)
    have hnow := (sound_after n as).conserve (h ((abilities n).after as, a) (by simp)) src dst
    have hone : ∀ f : AbilityMq × Op → Option Packet,
        ((abilities n).history (as ++ [a])).filterMap f =
          ((abilities n).history as).filterMap f ++ (f ((abilities n).after as, a)).toList := by
      intro f
      cases hf : f ((abilities n).after as, a) <;> simp [hf]
    unfold sent received at hpast ⊢
    rw [hone, hone, hpast, Server.after_snoc, List.append_assoc, hnow, List.append_assoc]
    rfl

/-- In calls that keep the order, messages arrive in the order in which they were sent, once and
unchanged, and a receiver that finds none has received all. -/
theorem ability_messages_in_order (h : ∀ x ∈ (abilities n).history as, Orderly x.1 x.2)
    (src dst : Int) :
    received n as src dst <+: sent n as src dst ∧
      ∀ buf buflen, (ability_recv_message ((abilities n).after as) dst buf buflen).1.out = none →
        received n as src dst = sent n as src dst := by
  rw [sent_eq h]
  refine ⟨List.prefix_append _ _, fun buf buflen hnone => ?_⟩
  have hwaiting : ((abilities n).after as).waiting src dst = [] := by
    have hs := sound_after n as
    generalize (abilities n).after as = s at hnone hs
    cases hin : s.incoming dst with
    | some i => simp [ability_recv_message, hin] at hnone
    | none =>
      simp only [waiting, List.map_eq_nil_iff, List.filter_eq_nil_iff, waits,
        decide_eq_true_eq]
      intro i _ hi
      have hno := List.find?_eq_none.mp hin i (List.mem_finRange i)
      simp [hi.1, hi.2.2, hs.fresh i hi.1] at hno
  rw [hwaiting, List.append_nil]

/-- A buffer full of the byte `b`. -/
def bytes (b : Byte) : Nat → Byte := fun _ => b

def sendTo2 (b : Byte) : Op := .send 1 2 3 (some (bytes b)) 1

def recvAt2 : Op := .recv 2 (bytes 0) 256 (by decide)

theorem ability_messages_in_order_two :
    received 0 [sendTo2 7, sendTo2 8, recvAt2, recvAt2] 1 2 <+:
        sent 0 [sendTo2 7, sendTo2 8, recvAt2, recvAt2] 1 2 ∧
      received 0 [sendTo2 7, sendTo2 8, recvAt2, recvAt2] 1 2 = [⟨3, 1, [7]⟩, ⟨3, 1, [8]⟩] := by
  have horder : ∀ x ∈ (abilities 0).history [sendTo2 7, sendTo2 8, recvAt2, recvAt2],
      Orderly x.1 x.2 := by
    decide +kernel
  exact ⟨(ability_messages_in_order horder 1 2).1, by decide +kernel⟩

/-- A message that takes a free place before an older one overtakes it, and an empty reply brings
the bytes of the message that was at its place before. -/
theorem messages_overtaken_and_stale :
    let overtaken := [sendTo2 7, sendTo2 8, recvAt2, sendTo2 9, recvAt2]
    let stale := [sendTo2 7, recvAt2, .reply 3 2 5 none 0, recvAt2]
    received 0 overtaken 1 2 = [⟨3, 1, [7]⟩, ⟨3, 1, [9]⟩] ∧
      sent 0 overtaken 1 2 = [⟨3, 1, [7]⟩, ⟨3, 1, [8]⟩, ⟨3, 1, [9]⟩] ∧
      received 0 stale 3 2 = [⟨2, 1, [7]⟩] ∧ sent 0 stale 3 2 = [⟨2, 0, []⟩] := by
  decide +kernel

end Yyds.Ability
