import Yyds.Ipc.Ability

/-! `ability_call` in any interleaving with other calls: which response it takes. -/
namespace Yyds.Ability

open Lib Function
open Kernel (int)
open Mm (ProcId)
open Binder (Byte Buf fill)

/-- The arguments of `ability_call` that it needs to the end. -/
structure Caller where
  src_id : Int
  response : Buf
  resp_len : Int

/-- Where a process is in `ability_call`. `given` is the request id that its message got; the code
does not keep it. -/
inductive CallPc
  | idle
  | sent (c : Caller) (slot : Slot) (given : Int)
  | find (c : Caller) (slot : Slot) (given msg_id : Int)
  | wait (c : Caller) (given request_id : Int)

/-- Who wrote a message. -/
inductive Origin
  | nobody
  | send
  | reply (src_id dst_id request_id : Int)
  deriving DecidableEq

/-- A call that has come back with a response. -/
structure Done where
  src_id : Int
  given : Int
  origin : Origin
  ret : Int
  response : Buf

/-- Beside the table: who wrote each message, the request ids given so far, and the calls done. -/
structure CallSys where
  mq : AbilityMq
  origin : Slot → Origin
  requests : List Int
  pc : ProcId → CallPc
  done : List Done

def CallSys.start (n : Int) : CallSys := ⟨.start n, fun _ => .nobody, [], fun _ => .idle, []⟩

inductive Act
  | send (src_id dst_id type : Int) (data : Buf) (len : Int)
  | reply (src_id dst_id request_id : Int) (data : Buf) (len : Int)
  | recv (ability_id : Int) (buf : Buf) (buflen : Int)
  | call (p : ProcId) (dst_id : Int) (request : Buf) (req_len : Int) (c : Caller)
  | readId (p : ProcId)
  | findRequest (p : ProcId)
  | poll (p : ProcId)
  | timeout (p : ProcId)

def CallSys.goto (s : CallSys) (p : ProcId) (pc : CallPc) : CallSys :=
  { s with pc := update s.pc p pc }

def CallSys.sendAt (s : CallSys) (slot : Slot) (src_id dst_id type : Int) (data : Buf) (len : Int) :
    CallSys :=
  { s with
    mq := (ability_send_message s.mq src_id dst_id type data len).2
    origin := update s.origin slot .send
    requests := if type = MSG_REQUEST then s.mq.next_request_id :: s.requests else s.requests }

def CallSys.replyAt (s : CallSys) (slot : Slot) (src_id dst_id request_id : Int) (data : Buf)
    (len : Int) : CallSys :=
  { s with
    mq := (ability_reply s.mq src_id dst_id request_id data len).2
    origin := update s.origin slot (.reply src_id dst_id request_id) }

/-- A response is taken out of place `i`. -/
def CallSys.finish (s : CallSys) (p : ProcId) (c : Caller) (given : Int) (i : Slot) : CallSys :=
  let msg := s.mq.messages i
  let copy_len := if msg.data_len < c.resp_len then msg.data_len else c.resp_len
  { s with
    mq := s.mq.put i { msg with used := false }
    done := ⟨c.src_id, given, s.origin i, copy_len,
      c.response.map fun b => fill b (some msg.data) copy_len⟩ :: s.done }.goto p .idle

/-- A section under the lock is one step, and so is the reading of `msg->id` after it. -/
def CallSys.next (s : CallSys) : Act → Option CallSys
  | .send src_id dst_id type data len =>
    match s.mq.room len with
    | none => some s
    | some slot => some (s.sendAt slot src_id dst_id type data len)
  | .reply src_id dst_id request_id data len =>
    match s.mq.room len with
    | none => some s
    | some slot => some (s.replyAt slot src_id dst_id request_id data len)
  | .recv ability_id buf buflen =>
    some { s with mq := (ability_recv_message s.mq ability_id buf buflen).2 }
  | .call p dst_id request req_len c =>
    match s.pc p, s.mq.room req_len with
    | .idle, none => some s
    | .idle, some slot =>
      some ((s.sendAt slot c.src_id dst_id MSG_REQUEST request req_len).goto p
        (.sent c slot s.mq.next_request_id))
    | _, _ => none
  | .readId p =>
    match s.pc p with
    | .sent c slot given =>
      let msg_id := (s.mq.messages slot).id
      some (s.goto p (if msg_id < 0 then .idle else .find c slot given msg_id))
    | _ => none
  | .findRequest p =>
    match s.pc p with
    | .find c _ given msg_id => some (s.goto p (.wait c given (s.mq.requestOf msg_id)))
    | _ => none
  | .poll p =>
    match s.pc p with
    | .wait c given request_id =>
      match s.mq.response c.src_id request_id with
      | none => some s
      | some i => some (s.finish p c given i)
    | _ => none
  | .timeout p =>
    match s.pc p with
    | .wait _ _ _ => some (s.goto p .idle)
    | _ => none

def CallSys.Steps (s : CallSys) (a : Act) (t : CallSys) : Prop := s.next a = some t

/-! ### When a call finds its own request again -/

/-- The place of a request that its call has not yet looked up. -/
def CallPc.slot : CallPc → Option Slot
  | .sent _ slot _ | .find _ slot _ _ => some slot
  | _ => none

/-- Place `i` is not that of a request still to be looked up, and the number of the next message
does not overflow. -/
def CallSys.Spare (s : CallSys) (i : Slot) : Prop :=
  int (s.mq.next_msg_id + 1) = s.mq.next_msg_id + 1 ∧ ∀ p, (s.pc p).slot ≠ some i
  deriving Decidable

/-- The number of the next request does not overflow. -/
def CallSys.Counts (s : CallSys) : Prop :=
  int (s.mq.next_request_id + 1) = s.mq.next_request_id + 1
  deriving Decidable

/-- No message is put where a request was that is still to be looked up, and no call has the
request id 0. -/
def Careful (s : CallSys) : Act → Prop
  | .send _ _ type _ len =>
    (s.mq.room len).all fun i => s.Spare i ∧ (type = MSG_REQUEST → s.Counts)
  | .reply _ _ _ _ len => (s.mq.room len).all fun i => s.Spare i
  | .call _ _ _ req_len _ =>
    (s.mq.room req_len).all fun i => s.Spare i ∧ s.Counts ∧ s.mq.next_request_id ≠ 0
  | _ => True

instance (s : CallSys) : DecidablePred (Careful s) := fun a => by
  cases a <;> dsimp only [Careful] <;> infer_instance

/-! ### Requests and responses -/

/-- The request at place `i` can be found by its number, and has the request id `given`. -/
structure AbilityMq.Holds (mq : AbilityMq) (i : Slot) (given : Int) : Prop where
  request : (mq.messages i).request_id = given
  old : (mq.messages i).id < mq.next_msg_id
  first : ∀ j < i, (mq.messages j).id ≠ (mq.messages i).id

/-- What is known of a call from its place. -/
def CallSys.Known (s : CallSys) : CallPc → Prop
  | .idle => True
  | .sent _ slot given => s.mq.Holds slot given ∧ given ≠ 0 ∧ given ∈ s.requests
  | .find _ slot given msg_id =>
    s.mq.Holds slot given ∧ (s.mq.messages slot).id = msg_id ∧ given ≠ 0 ∧ given ∈ s.requests
  | .wait _ given request_id => request_id = given ∧ given ≠ 0 ∧ given ∈ s.requests

/-- A response with a request id comes from `ability_reply`. -/
def CallSys.Replied (s : CallSys) (i : Slot) : Prop :=
  (s.mq.messages i).used = true → (s.mq.messages i).type = MSG_RESPONSE →
    (s.mq.messages i).request_id ≠ 0 →
      ∃ src_id, s.origin i =
        .reply src_id (s.mq.messages i).dst_ability (s.mq.messages i).request_id

/-- The response came from a reply to this very request. -/
def CallSys.Own (s : CallSys) (d : Done) : Prop :=
  (∃ src_id, d.origin = .reply src_id d.src_id d.given) ∧ d.given ≠ 0 ∧ s.requests.count d.given = 1

structure CallInv (s : CallSys) : Prop where
  ids : ∀ i, (s.mq.messages i).used = true → (s.mq.messages i).id < s.mq.next_msg_id
  nodup : s.requests.Nodup
  given : ∀ r ∈ s.requests, r < s.mq.next_request_id
  replied : ∀ i, s.Replied i
  known : ∀ p, s.Known (s.pc p)
  done : ∀ d ∈ s.done, (∃ src_id, d.origin = .reply src_id d.src_id d.given) ∧ d.given ≠ 0 ∧
    d.given ∈ s.requests

section Step

variable {s t : CallSys} {i : Slot} {given : Int} {p : ProcId} {pc : CallPc} {msg : Message}

theorem requestOf_eq {mq : AbilityMq} (h : mq.Holds i given) :
    mq.requestOf (mq.messages i).id = given := by
  have hfind : ((List.finRange _).find? fun j => (mq.messages j).id = (mq.messages i).id) =
      some i := by
    rw [find?_finRange_some]
    exact ⟨by simp, fun j hj => by simpa using h.first j hj⟩
  rw [AbilityMq.requestOf, hfind]
  exact h.request

/-- A message is written to place `i`. -/
structure CallSys.Writes (s : CallSys) (i : Slot) (msg : Message) (t : CallSys) : Prop where
  spare : s.Spare i
  messages : t.mq.messages = update s.mq.messages i msg
  id : msg.id = s.mq.next_msg_id
  next_id : t.mq.next_msg_id = s.mq.next_msg_id + 1
  origin : ∀ j, j ≠ i → t.origin j = s.origin j
  requests : s.requests ⊆ t.requests
  done : t.done = s.done

theorem CallSys.Writes.holds (h : s.Writes i msg t) {j : Slot} (hj : j ≠ i)
    (hs : s.mq.Holds j given) : t.mq.Holds j given := by
  have hother : ∀ k, k ≠ i → t.mq.messages k = s.mq.messages k := by
    intro k hk
    rw [h.messages, update_of_ne hk]
  constructor
  · rw [hother j hj]
    exact hs.request
  · have hold := hs.old
    rw [hother j hj, h.next_id]
    omega
  · intro k hk
    rw [hother j hj]
    by_cases hki : k = i
    · have hold := hs.old
      rw [hki, h.messages, update_self, h.id]
      omega
    · rw [hother k hki]
      exact hs.first k hk

theorem CallSys.Writes.known (h : s.Writes i msg t) (hi : pc.slot ≠ some i) (hs : s.Known pc) :
    t.Known pc := by
  cases pc with
  | idle => trivial
  | sent c slot given =>
    have hne : slot ≠ i := fun he => hi (congrArg some he)
    exact ⟨h.holds hne hs.1, hs.2.1, h.requests hs.2.2⟩
  | find c slot given msg_id =>
    have hne : slot ≠ i := fun he => hi (congrArg some he)
    refine ⟨h.holds hne hs.1, ?_, hs.2.2.1, h.requests hs.2.2.2⟩
    rw [h.messages, update_of_ne hne]
    exact hs.2.1
  | wait c given request_id => exact ⟨hs.1, hs.2.1, h.requests hs.2.2⟩

theorem CallSys.Writes.new_holds (h : s.Writes i msg t) (hinv : CallInv s)
    (hfirst : ∀ j < i, (s.mq.messages j).used = true) : t.mq.Holds i msg.request_id := by
  constructor
  · rw [h.messages, update_self]
  · rw [h.messages, update_self, h.id, h.next_id]
    omega
  · intro j hj
    have hold := hinv.ids j (hfirst j hj)
    rw [h.messages, update_self, update_of_ne hj.ne, h.id]
    omega

theorem CallInv.writes (hinv : CallInv s) (h : s.Writes i msg t) (hpc : t.pc = s.pc)
    (hnodup : t.requests.Nodup) (hgiven : ∀ r ∈ t.requests, r < t.mq.next_request_id)
    (hreplied : t.Replied i) : CallInv t where
  ids j hj := by
    by_cases hji : j = i
    · rw [hji, h.messages, update_self, h.id, h.next_id]
      omega
    · rw [h.messages, update_of_ne hji] at hj ⊢
      have hold := hinv.ids j hj
      rw [h.next_id]
      omega
  nodup := hnodup
  given := hgiven
  replied j := by
    by_cases hji : j = i
    · rw [hji]
      exact hreplied
    · have hold := hinv.replied j
      unfold CallSys.Replied at hold ⊢
      rwa [h.messages, update_of_ne hji, h.origin j hji]
  known p := by
    rw [hpc]
    exact h.known (h.spare.2 p) (hinv.known p)
  done d hd := by
    rw [h.done] at hd
    obtain ⟨hfrom, hne, hmem⟩ := hinv.done d hd
    exact ⟨hfrom, hne, h.requests hmem⟩

theorem room_first {mq : AbilityMq} {len : Int} (h : mq.room len = some i) :
    ∀ j < i, (mq.messages j).used = true := by
  unfold AbilityMq.room at h
  split at h
  · cases h
  · intro j hj
    simpa using (find?_finRange_some.mp h).2 j hj

section Send

variable {src_id dst_id type request_id len : Int} {data : Buf}

theorem sendAt_writes (hroom : s.mq.room len = some i) (hspare : s.Spare i) :
    s.Writes i (s.mq.newMessage i src_id dst_id type data len)
      (s.sendAt i src_id dst_id type data len) where
  spare := hspare
  messages := send_messages hroom
  id := rfl
  next_id := by
    simp only [CallSys.sendAt, ability_send_message, hroom]
    exact hspare.1
  origin j hj := update_of_ne hj _ _
  requests := by
    unfold CallSys.sendAt
    split
    · exact List.subset_cons_self _ _
    · exact List.Subset.refl _
  done := rfl

theorem CallInv.sendAt (hinv : CallInv s) (hroom : s.mq.room len = some i) (hspare : s.Spare i)
    (hcount : type = MSG_REQUEST → s.Counts) :
    CallInv (s.sendAt i src_id dst_id type data len) := by
  apply hinv.writes (sendAt_writes hroom hspare) rfl
  · unfold CallSys.sendAt
    split
    · exact List.nodup_cons.mpr ⟨fun hmem => lt_irrefl _ (hinv.given _ hmem), hinv.nodup⟩
    · exact hinv.nodup
  · simp only [CallSys.sendAt, ability_send_message, hroom]
    split
    · rename_i htype
      rw [hcount htype]
      intro r hr
      rcases List.mem_cons.mp hr with rfl | hr
      · omega
      · have hold := hinv.given r hr
        omega
    · exact hinv.given
  · -- a message of this kind has a request id only if it is a request
    intro _ htype hid
    simp only [CallSys.sendAt, send_messages hroom, update_self, AbilityMq.newMessage] at htype hid
    rw [htype] at hid
    exact absurd rfl hid

theorem replyAt_writes (hroom : s.mq.room len = some i) (hspare : s.Spare i) :
    s.Writes i (s.mq.newReply i src_id dst_id request_id data len)
      (s.replyAt i src_id dst_id request_id data len) where
  spare := hspare
  messages := reply_messages hroom
  id := rfl
  next_id := by
    simp only [CallSys.replyAt, ability_reply, hroom]
    exact hspare.1
  origin j hj := update_of_ne hj _ _
  requests := List.Subset.refl _
  done := rfl

theorem CallInv.replyAt (hinv : CallInv s) (hroom : s.mq.room len = some i) (hspare : s.Spare i) :
    CallInv (s.replyAt i src_id dst_id request_id data len) := by
  apply hinv.writes (replyAt_writes hroom hspare) rfl hinv.nodup
  · simp only [CallSys.replyAt, ability_reply, hroom]
    exact hinv.given
  · intro _ _ _
    refine ⟨src_id, ?_⟩
    simp only [CallSys.replyAt, reply_messages hroom, update_self, AbilityMq.newReply]

end Send

theorem known_goto (pc' : CallPc) : (s.goto p pc).Known pc' ↔ s.Known pc' := by
  cases pc' <;> rfl

theorem CallInv.goto (hinv : CallInv s) (hpc : s.Known pc) : CallInv (s.goto p pc) where
  ids := hinv.ids
  nodup := hinv.nodup
  given := hinv.given
  replied := hinv.replied
  known q := by
    rw [known_goto]
    by_cases hq : q = p
    · subst hq
      simpa [CallSys.goto] using hpc
    · simpa [CallSys.goto, hq] using hinv.known q
  done := hinv.done

/-- A place is given back; what is written there stays. -/
structure CallSys.Frees (s : CallSys) (i : Slot) (t : CallSys) : Prop where
  gone : (t.mq.messages i).used = false
  id : (t.mq.messages i).id = (s.mq.messages i).id
  request_id : (t.mq.messages i).request_id = (s.mq.messages i).request_id
  messages : ∀ j, j ≠ i → t.mq.messages j = s.mq.messages j
  next_id : t.mq.next_msg_id = s.mq.next_msg_id
  next_request : t.mq.next_request_id = s.mq.next_request_id
  origin : t.origin = s.origin
  requests : t.requests = s.requests

theorem CallSys.Frees.same (h : s.Frees i t) (j : Slot) :
    (t.mq.messages j).id = (s.mq.messages j).id ∧
      (t.mq.messages j).request_id = (s.mq.messages j).request_id := by
  by_cases hj : j = i
  · subst hj
    exact ⟨h.id, h.request_id⟩
  · rw [h.messages j hj]
    exact ⟨rfl, rfl⟩

theorem CallSys.Frees.holds (h : s.Frees i t) {j : Slot} (hs : s.mq.Holds j given) :
    t.mq.Holds j given := by
  constructor
  · rw [(h.same j).2]
    exact hs.request
  · rw [(h.same j).1, h.next_id]
    exact hs.old
  · intro k hk
    rw [(h.same j).1, (h.same k).1]
    exact hs.first k hk

theorem CallSys.Frees.known (h : s.Frees i t) (hs : s.Known pc) : t.Known pc := by
  cases pc with
  | idle => trivial
  | sent c slot given => exact ⟨h.holds hs.1, hs.2.1, h.requests ▸ hs.2.2⟩
  | find c slot given msg_id =>
    exact ⟨h.holds hs.1, (h.same slot).1.trans hs.2.1, hs.2.2.1, h.requests ▸ hs.2.2.2⟩
  | wait c given request_id => exact ⟨hs.1, hs.2.1, h.requests ▸ hs.2.2⟩

theorem CallInv.frees (hinv : CallInv s) (h : s.Frees i t) (hpc : t.pc = s.pc)
    (hdone : ∀ d ∈ t.done, d ∈ s.done ∨
      (∃ src_id, d.origin = .reply src_id d.src_id d.given) ∧ d.given ≠ 0 ∧ d.given ∈ s.requests) :
    CallInv t where
  ids j hj := by
    have hne : j ≠ i := by
      rintro rfl
      rw [h.gone] at hj
      cases hj
    rw [h.messages j hne] at hj ⊢
    rw [h.next_id]
    exact hinv.ids j hj
  nodup := by
    rw [h.requests]
    exact hinv.nodup
  given := by
    rw [h.requests, h.next_request]
    exact hinv.given
  replied j hj := by
    have hne : j ≠ i := by
      rintro rfl
      rw [h.gone] at hj
      cases hj
    rw [h.messages j hne] at hj ⊢
    rw [h.origin]
    exact hinv.replied j hj
  known p := by
    rw [hpc]
    exact h.known (hinv.known p)
  done d hd := by
    rw [h.requests]
    rcases hdone d hd with hold | hnew
    · exact hinv.done d hold
    · exact hnew

theorem recv_frees {ability_id buflen : Int} {buf : Buf} (hin : s.mq.incoming ability_id = some i) :
    s.Frees i { s with mq := (ability_recv_message s.mq ability_id buf buflen).2 } := by
  have hm : (ability_recv_message s.mq ability_id buf buflen).2.messages = _ := recv_messages hin
  constructor <;> simp only [hm, update_self]
  · intro j hj
    rw [update_of_ne hj]
  · rw [ability_recv_message, hin]
    rfl
  · rw [ability_recv_message, hin]
    rfl

theorem CallInv.recv (hinv : CallInv s) (ability_id : Int) (buf : Buf) (buflen : Int) :
    CallInv { s with mq := (ability_recv_message s.mq ability_id buf buflen).2 } := by
  cases hin : s.mq.incoming ability_id with
  | none =>
    rw [recv_none hin]
    exact hinv
  | some i => exact hinv.frees (recv_frees hin) rfl fun d hd => .inl hd

theorem CallInv.finish (hinv : CallInv s) {c : Caller} {request_id : Int}
    (hpc : s.pc p = .wait c given request_id)
    (hfound : s.mq.response c.src_id request_id = some i) : CallInv (s.finish p c given i) := by
  have hi := (find?_finRange_some.mp hfound).1
  simp only [decide_eq_true_eq] at hi
  obtain ⟨hused, htype, hdst, hid⟩ := hi
  have hknown := hinv.known p
  rw [hpc] at hknown
  obtain ⟨hsame, hne, hmem⟩ := hknown
  rw [hsame] at hid
  obtain ⟨src_id, horigin⟩ := hinv.replied i hused htype (hid ▸ hne)
  rw [hdst, hid] at horigin
  refine CallInv.goto (hinv.frees (i := i) ?_ rfl ?_) trivial
  · constructor <;> simp only [AbilityMq.put, update_self]
    intro j hj
    rw [update_of_ne hj]
  · intro d hd
    rcases List.mem_cons.mp hd with rfl | hold
    · exact .inr ⟨⟨src_id, horigin⟩, hne, hmem⟩
    · exact .inl hold

theorem CallInv.next (hinv : CallInv s) {a : Act} (hs : s.Steps a t) (hc : Careful s a) :
    CallInv t := by
  unfold CallSys.Steps at hs
  cases a with
  | send src_id dst_id type data len =>
    rw [CallSys.next] at hs
    cases hroom : s.mq.room len with
    | none =>
      rw [hroom] at hs
      cases hs
      exact hinv
    | some slot =>
      simp only [Careful, hroom, Option.all_some, decide_eq_true_eq] at hc
      rw [hroom] at hs
      cases hs
      exact hinv.sendAt hroom hc.1 hc.2
  | reply src_id dst_id request_id data len =>
    rw [CallSys.next] at hs
    cases hroom : s.mq.room len with
    | none =>
      rw [hroom] at hs
      cases hs
      exact hinv
    | some slot =>
      simp only [Careful, hroom, Option.all_some, decide_eq_true_eq] at hc
      rw [hroom] at hs
      cases hs
      exact hinv.replyAt hroom hc
  | recv ability_id buf buflen =>
    cases hs
    exact hinv.recv ability_id buf buflen
  | call p dst_id request req_len c =>
    rw [CallSys.next] at hs
    split at hs
    · cases hs
      exact hinv
    · rename_i slot _ hroom
      simp only [Careful, hroom, Option.all_some, decide_eq_true_eq] at hc
      obtain ⟨hspare, hcount, hne⟩ := hc
      cases hs
      have hholds : (s.sendAt slot c.src_id dst_id MSG_REQUEST request req_len).mq.Holds slot
          s.mq.next_request_id :=
        (sendAt_writes hroom hspare).new_holds hinv (room_first hroom)
      exact (hinv.sendAt hroom hspare fun _ => hcount).goto ⟨hholds, hne, by simp [CallSys.sendAt]⟩
    · cases hs
  | readId p =>
    rw [CallSys.next] at hs
    split at hs
    · rename_i c slot given hpc
      have hknown := hinv.known p
      rw [hpc] at hknown
      cases hs
      apply hinv.goto
      split
      · trivial
      · exact ⟨hknown.1, rfl, hknown.2⟩
    · cases hs
  | findRequest p =>
    rw [CallSys.next] at hs
    split at hs
    · rename_i c slot given msg_id hpc
      have hknown := hinv.known p
      rw [hpc] at hknown
      obtain ⟨hholds, rfl, hrest⟩ := hknown
      cases hs
      exact hinv.goto ⟨requestOf_eq hholds, hrest⟩
    · cases hs
  | poll p =>
    rw [CallSys.next] at hs
    split at hs
    · rename_i c given request_id hpc
      split at hs
      · cases hs
        exact hinv
      · rename_i i hfound
        cases hs
        exact hinv.finish hpc hfound
    · cases hs
  | timeout p =>
    rw [CallSys.next] at hs
    split at hs
    · cases hs
      exact hinv.goto trivial
    · cases hs

theorem callInv_start (n : Int) : CallInv (.start n) where
  ids i hi := by cases hi
  nodup := List.nodup_nil
  given r hr := by cases hr
  replied i hi := by cases hi
  known p := trivial
  done d hd := by cases hd

end Step

/-- In a run that is careful, a call that comes back with a response took a reply to its own
request: `ability_reply` was called for its ability with the request id that this call was given,
which is not 0 and was given to no other request. -/
theorem call_gets_own_answer {n : Int} {as : List Act} {s : CallSys}
    (h : Run (Guarded Careful CallSys.Steps) (.start n) as s) : ∀ d ∈ s.done, s.Own d := by
  have hstep : ∀ s a t, Guarded Careful CallSys.Steps s a t → CallInv s → CallInv t :=
    fun _ _ _ hs hi => hi.next hs.2 hs.1
  have hinv := h.invariant hstep (callInv_start n)
  intro d hd
  obtain ⟨hfrom, hne, hmem⟩ := hinv.done d hd
  exact ⟨hfrom, hne, List.count_eq_one_of_mem hinv.nodup hmem⟩

def caller1 : Caller := ⟨1, some fun _ => 0, 16⟩

/-- The request id 0, which is given first, goes to a message that no call waits for. -/
def answered : List Act :=
  [.send 5 6 MSG_REQUEST none 0, .call 3 2 none 0 caller1, .readId 3, .recv 2 none 0, .findRequest 3,
    .reply 2 1 1 (some fun _ => 7) 4, .poll 3]

theorem call_gets_own_answer_one :
    ∃ s, Run (Guarded Careful CallSys.Steps) (.start 0) answered s ∧
      ∃ d ∈ s.done, d.src_id = 1 ∧ d.ret = 4 ∧ s.Own d := by
  obtain ⟨s, hrun, d, hd, hsrc, hret⟩ : ∃ s, Run (Guarded Careful CallSys.Steps) (.start 0)
      answered s ∧ ∃ d ∈ s.done, d.src_id = 1 ∧ d.ret = 4 :=
    Run.exists_foldlM
  exact ⟨s, hrun, d, hd, hsrc, hret, call_gets_own_answer hrun d hd⟩

/-- The request is received and its place reused before the call looks it up; the call then takes
the message that was put there. -/
def raced : List Act :=
  [.call 3 2 none 0 caller1, .recv 2 none 0, .send 4 1 MSG_RESPONSE (some fun _ => 7) 4, .readId 3,
    .findRequest 3, .poll 3]

theorem call_takes_other_message :
    ∃ s, Run CallSys.Steps (.start 1) raced s ∧
      ∃ d ∈ s.done, 0 ≤ d.ret ∧ d.given = 1 ∧ d.origin = .send ∧ ¬ s.Own d := by
  obtain ⟨s, hrun, d, hd, hret, hgiven, hsend⟩ : ∃ s, Run CallSys.Steps (.start 1) raced s ∧
      ∃ d ∈ s.done, 0 ≤ d.ret ∧ d.given = 1 ∧ d.origin = .send :=
    Run.exists_exec
  refine ⟨s, hrun, d, hd, hret, hgiven, hsend, ?_⟩
  rintro ⟨⟨src_id, hreply⟩, _⟩
  cases hsend.symm.trans hreply

end Yyds.Ability
