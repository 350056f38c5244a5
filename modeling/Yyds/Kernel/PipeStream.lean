import Yyds.Kernel.Buffers
import Yyds.Lib.Ring
import Yyds.Lib.Trace

/-! A pipe between any number of readers and writers whose buffers can be accessed. A call runs
until it returns or sleeps, and goes on where it was when it is woken. -/
namespace Yyds.Pipes

open Lib Lib.Ring Mm Kernel Function

/-- The pipe, with what it has accepted from writers and delivered to readers so far. -/
structure Stream extends Pipe where
  accepted : List Byte
  delivered : List Byte

/-- A call that has not returned: `pipewrite` with the bytes to go after `i`, or `piperead`. -/
inductive Call
  | writing (rest : List Byte) (i : Nat)
  | reading (n : Int)

/-- What a call returns, and what it has copied to the buffer of a reader. -/
abbrev Result := Int × List Byte

namespace Stream

/-- `pi->data[pi->nwrite++ % PIPESIZE] = ch` -/
def accept (st : Stream) (ch : Byte) : Stream :=
  { st with toPipe := st.push ch, accepted := st.accepted ++ [ch] }

/-- `ch = pi->data[pi->nread++ % PIPESIZE]` -/
def deliver (st : Stream) : Byte × Stream :=
  let ch := st.data (st.nread % PIPESIZE)
  (ch, { st with toPipe := st.pop, delivered := st.delivered ++ [ch] })

/-- The loop of `pipewrite`, up to its return or to `sleep`. -/
def pipewrite (killed : Bool) : List Byte → Nat → Stream → (Call ⊕ Result) × Stream
  | [], i, st => (.inr (i, []), st)
  | ch :: rest, i, st =>
    if st.full then
      if st.readopen = false ∨ killed then (.inr (-1, []), st)
      else (.inl (.writing (ch :: rest) i), st)
    else pipewrite killed rest (i + 1) (st.accept ch)

/-- The second loop of `piperead`, with `n` bytes to go. -/
def readLoop : Nat → Stream → List Byte × Stream
  | 0, st => ([], st)
  | n + 1, st =>
    if st.empty then ([], st)
    else
      let (out, st') := readLoop n st.deliver.2
      (st.deliver.1 :: out, st')

def piperead (killed : Bool) (n : Int) (st : Stream) : (Call ⊕ Result) × Stream :=
  if st.empty ∧ st.writeopen then
    if killed then (.inr (-1, []), st) else (.inl (.reading n), st)
  else
    let (out, st) := readLoop n.toNat st
    (.inr (out.length, out), st)

def pipeclose (writable : Bool) (st : Stream) : Stream :=
  if writable then { st with writeopen := false } else { st with readopen := false }

def content (st : Stream) : List Byte := Ring.content st.data PIPESIZE (2 ^ 32) st.nread st.nwrite

end Stream

/-- The pipe that `pipealloc` makes in a page with these bytes. -/
def pipealloc (data : Nat → Byte) : Stream := ⟨⟨data, 0, 0, true, true⟩, [], []⟩

def Call.run (killed : Bool) : Call → Stream → (Call ⊕ Result) × Stream
  | .writing rest i => Stream.pipewrite killed rest i
  | .reading n => Stream.piperead killed n

/-- The calls that sleep, by process. -/
structure Sys where
  stream : Stream
  asleep : Nat → Option Call

/-- `killed` is `pr->killed` when it is tested. -/
inductive Event
  | write (p : Nat) (bytes : List Byte) (killed : Bool)
  | read (p : Nat) (n : Int) (killed : Bool)
  | wake (p : Nat) (killed : Bool)
  | close (writable : Bool)

/-- The call that goes on with the event: its process, the call and `killed`. -/
def Event.call (s : Sys) : Event → Option (Nat × Call × Bool)
  | .write p bytes killed =>
    if (s.asleep p).isNone then some (p, .writing bytes 0, killed) else none
  | .read p n killed => if (s.asleep p).isNone then some (p, .reading n, killed) else none
  | .wake p killed => (s.asleep p).map fun c => (p, c, killed)
  | .close _ => none

/-- The call goes on; the answer is what it returns, if it does. -/
def Sys.run (s : Sys) (p : Nat) (c : Call) (killed : Bool) : Option Result × Sys :=
  match c.run killed s.stream with
  | (.inl c', st) => (none, ⟨st, update s.asleep p (some c')⟩)
  | (.inr r, st) => (some r, ⟨st, update s.asleep p none⟩)

def exec (s : Sys) (e : Event) : Option Result × Sys :=
  match e.call s with
  | some (p, c, killed) => s.run p c killed
  | none =>
    match e with
    | .close writable => (none, { s with stream := s.stream.pipeclose writable })
    | _ => (none, s)

def pipe (data : Nat → Byte) : Server Sys Event (Option Result) :=
  ⟨⟨pipealloc data, fun _ => none⟩, exec⟩

/-! ### What a call does -/

/-- A writer puts in what there is room for; it returns when all of its bytes are in. A reader takes
what is there, up to `n` bytes, and gets these bytes; it waits for the first one while there can be
a writer. -/
def Stream.Does (st : Stream) (killed : Bool) (r : Call ⊕ Result) (st' : Stream) : Call → Prop
  | .writing rest i =>
    let k := min rest.length (PIPESIZE - st.content.length)
    st'.accepted = st.accepted ++ rest.take k ∧ st'.delivered = st.delivered ∧
      r = if k = rest.length then .inr (↑(i + k), [])
        else if st.readopen = false ∨ killed then .inr (-1, [])
        else .inl (.writing (rest.drop k) (i + k))
  | .reading n =>
    if st.content = [] ∧ st.writeopen then
      st' = st ∧ r = if killed then .inr (-1, []) else .inl (.reading n)
    else
      let bytes := st.content.take n.toNat
      st'.accepted = st.accepted ∧ st'.delivered = st.delivered ++ bytes ∧
        r = .inr (bytes.length, bytes)

/-- What is not delivered yet is in the ring. -/
structure Stream.Inv (st : Stream) : Prop where
  ring : Holds st.data PIPESIZE (2 ^ 32) st.nread st.nwrite st.content
  le : st.content.length ≤ PIPESIZE
  accepted : st.accepted = st.delivered ++ st.content

variable {st : Stream} {s : Sys} {killed : Bool}

theorem PIPESIZE_dvd : PIPESIZE ∣ 2 ^ 32 := by decide

namespace Stream

theorem inv_of_holds {l : List Byte} (hl : Holds st.data PIPESIZE (2 ^ 32) st.nread st.nwrite l)
    (hle : l.length ≤ PIPESIZE) (hacc : st.accepted = st.delivered ++ l) :
    st.Inv ∧ st.content = l := by
  have hcontent : st.content = l := hl.content_eq PIPESIZE_dvd (hle.trans_lt (by decide))
  exact ⟨⟨hcontent.symm ▸ hl, hcontent.symm ▸ hle, hcontent.symm ▸ hacc⟩, hcontent⟩

namespace Inv

section
variable (h : st.Inv)
include h

theorem lt : st.content.length < 2 ^ 32 := h.le.trans_lt (by decide)

theorem empty_iff : st.empty ↔ st.content = [] := by
  rw [← h.ring.eq_iff h.lt]
  simp [Pipe.empty]

theorem full_iff : st.full ↔ st.content.length = PIPESIZE := by
  have hadd := gap_add h.ring.lt (show PIPESIZE < 2 ^ 32 by decide)
  rw [Pipe.full, decide_eq_true_iff]
  refine ⟨fun he => ?_, fun he => by rw [h.ring.last, he]⟩
  rw [← h.ring.gap_eq h.lt, he, hadd]

theorem accept (hfull : ¬ st.full) (ch : Byte) :
    (st.accept ch).Inv ∧ (st.accept ch).content = st.content ++ [ch] := by
  have hlt := Nat.lt_of_le_of_ne h.le fun he => hfull (h.full_iff.mpr he)
  refine inv_of_holds (h.ring.push PIPESIZE_dvd hlt) ?_ ?_
  · rw [List.length_append]
    exact hlt
  · simp only [Stream.accept, h.accepted, List.append_assoc]

theorem deliver {c : Byte} {l : List Byte} (hl : st.content = c :: l) :
    st.deliver.1 = c ∧ st.deliver.2.Inv ∧ st.deliver.2.content = l := by
  have hring := hl ▸ h.ring
  refine ⟨hring.head, inv_of_holds (hring.pop PIPESIZE_dvd) ?_ ?_⟩
  · exact Nat.le_of_succ_le (hl ▸ h.le : (c :: l).length ≤ PIPESIZE)
  · simp only [Stream.deliver, hring.head, h.accepted, hl, List.append_assoc, List.singleton_append]

theorem pipewrite (rest : List Byte) (i : Nat) : (st.pipewrite killed rest i).2.Inv ∧
    st.Does killed (st.pipewrite killed rest i).1 (st.pipewrite killed rest i).2
      (.writing rest i) := by
  induction rest generalizing st i with
  | nil => exact ⟨h, by simp [Stream.pipewrite, Does]⟩
  | cons ch rest ih =>
    unfold Stream.pipewrite
    by_cases hfull : st.full
    · have hroom : PIPESIZE - st.content.length = 0 := by rw [h.full_iff.mp hfull, Nat.sub_self]
      rw [if_pos hfull]
      split <;> exact ⟨h, by simp [Does, *]⟩
    · rw [if_neg hfull]
      obtain ⟨hinv, hcontent⟩ := h.accept hfull ch
      obtain ⟨hinv', hacc, hdel, hr⟩ := ih hinv (i + 1)
      refine ⟨hinv', ?_⟩
      have hlt := Nat.lt_of_le_of_ne h.le fun he => hfull (h.full_iff.mpr he)
      have hk : min (ch :: rest).length (PIPESIZE - st.content.length) =
          min rest.length (PIPESIZE - (st.accept ch).content.length) + 1 := by
        rw [hcontent, List.length_cons, List.length_append, List.length_singleton]
        omega
      generalize min rest.length (PIPESIZE - (st.accept ch).content.length) = k at hacc hr hk
      simp only [Does, hk]
      refine ⟨?_, hdel, ?_⟩
      · rw [hacc]
        simp [Stream.accept]
      · rw [hr]
        simp [Stream.accept, Pipe.push, Nat.add_assoc, Nat.add_comm 1]

theorem readLoop (n : Nat) : (st.readLoop n).2.Inv ∧ (st.readLoop n).1 = st.content.take n ∧
    (st.readLoop n).2.accepted = st.accepted ∧
    (st.readLoop n).2.delivered = st.delivered ++ st.content.take n := by
  induction n generalizing st with
  | zero => exact ⟨h, by simp [Stream.readLoop]⟩
  | succ n ih =>
    unfold Stream.readLoop
    cases hl : st.content with
    | nil =>
      rw [if_pos (h.empty_iff.mpr hl)]
      exact ⟨h, by simp⟩
    | cons c l =>
      rw [if_neg (by simp [h.empty_iff, hl])]
      obtain ⟨hc, hinv, hcontent⟩ := h.deliver hl
      obtain ⟨hinv', hout, hacc, hdel⟩ := ih hinv
      refine ⟨hinv', ?_, hacc, ?_⟩
      · simp [hc, hout, hcontent]
      · rw [hdel, hcontent, ← hc]
        simp [Stream.deliver]

theorem run (c : Call) : (c.run killed st).2.Inv ∧
    st.Does killed (c.run killed st).1 (c.run killed st).2 c := by
  cases c with
  | writing rest i => exact h.pipewrite rest i
  | reading n =>
    change (st.piperead killed n).2.Inv ∧ st.Does killed (st.piperead killed n).1
      (st.piperead killed n).2 (.reading n)
    unfold Stream.piperead
    simp only [Does, h.empty_iff]
    split
    · split <;> exact ⟨h, by simp [*]⟩
    · obtain ⟨hinv, hout, hacc, hdel⟩ := h.readLoop n.toNat
      exact ⟨hinv, hacc, hdel, by rw [hout]⟩

end

theorem exec (h : s.stream.Inv) (e : Event) : (Pipes.exec s e).2.stream.Inv := by
  unfold Pipes.exec
  split
  · rename_i p c killed _
    have hrun : (c.run killed s.stream).2.Inv := (h.run c).1
    unfold Sys.run
    split <;> simp_all
  · split
    · rename_i writable _
      cases writable <;> exact { h with }
    · exact h

end Inv

end Stream

/-- What the event makes of the call of `p`: it sleeps, or it returns. -/
def outcome (s : Sys) (e : Event) (p : Nat) : Call ⊕ Result → Prop
  | .inl c => (exec s e).1 = none ∧ (exec s e).2.asleep p = some c
  | .inr r => (exec s e).1 = some r ∧ (exec s e).2.asleep p = none

theorem outcome_run {e : Event} {p : Nat} {c : Call} (h : e.call s = some (p, c, killed)) :
    outcome s e p (c.run killed s.stream).1 ∧
      (exec s e).2.stream = (c.run killed s.stream).2 := by
  have hexec : exec s e = s.run p c killed := by simp only [exec, h]
  rw [outcome.eq_def, hexec, Sys.run]
  rcases c.run killed s.stream with ⟨_ | _, st⟩ <;> simp

/-- What was accepted is what was delivered and what is in the buffer, which holds at most
`PIPESIZE` bytes. A writer has its bytes accepted and a reader gets those that are delivered; and
a reader that asks for bytes gets 0 only at the end of the stream. -/
theorem pipe_fifo (data : Nat → Byte) (as : List Event) :
    let s := (pipe data).after as
    s.stream.accepted = s.stream.delivered ++ s.stream.content ∧
      gap (2 ^ 32) s.stream.nread s.stream.nwrite ≤ PIPESIZE ∧
      ∀ e p c killed, e.call s = some (p, c, killed) →
        ∃ r, outcome s e p r ∧ s.stream.Does killed r (exec s e).2.stream c ∧
          ∀ n out, c = .reading n → r = .inr (0, out) →
            n ≤ 0 ∨ s.stream.content = [] ∧ s.stream.writeopen = false := by
  have hinv : ((pipe data).after as).stream.Inv :=
    Server.after_invariant (M := pipe data) (P := fun _ s => s.stream.Inv)
      (Stream.inv_of_holds (.nil _ _ (Nat.two_pow_pos 32)) (Nat.zero_le _) rfl).1
      (fun _ e h => h.exec e) as
  refine ⟨hinv.accepted, hinv.ring.gap_eq hinv.lt ▸ hinv.le, fun e p c killed hcall => ?_⟩
  obtain ⟨hout, hst⟩ := outcome_run hcall
  obtain ⟨-, hdoes⟩ : _ ∧ Stream.Does _ killed _ _ c := hinv.run c
  refine ⟨_, hout, hst ▸ hdoes, ?_⟩
  rintro n out rfl hr
  rw [hr] at hdoes
  simp only [Stream.Does] at hdoes
  split at hdoes
  · cases killed <;> simp at hdoes
  · rename_i hwait
    have hlen := (Prod.mk.inj (Sum.inr.inj hdoes.2.2)).1
    rw [List.length_take] at hlen
    by_cases hn : n ≤ 0
    · exact .inl hn
    · have hzero : ((pipe data).after as).stream.content.length = 0 := by omega
      have hnil := List.length_eq_zero_iff.mp hzero
      exact .inr ⟨hnil, by simpa [hnil] using hwait⟩

/-- A reader sleeps until a writer comes, and gets the first two of its three bytes. -/
theorem pipe_fifo_woken :
    (exec ((pipe fun _ => 0).after [.read 1 2 false, .write 0 [7, 8, 9] false]) (.wake 1 false)).1 =
      some (2, [7, 8]) := by
  obtain ⟨r, hout, hdoes, -⟩ := (pipe_fifo (fun _ => 0)
    [.read 1 2 false, .write 0 [7, 8, 9] false]).2.2 (.wake 1 false) 1 (.reading 2) false rfl
  obtain ⟨-, -, rfl⟩ := hdoes
  exact hout.1

/-! ### The same calls on the memory of a process -/

/-- The call as a routine on the buffer at `addr`; `later` is what it finds when it is woken. -/
def Call.routine (addr : Nat) (pi : Pipe) (killed : Bool) (later : List (Pipe × Bool)) :
    Call → Routine Byte (Option (Int × Pipe))
  | .writing rest i => pipewriteFrom addr rest.length i pi killed later
  | .reading n => Kernel.piperead pi killed later addr n.toNat

/-- What the routine comes to after the first part of the call. -/
def goOn (addr : Nat) (m : Nat → Byte) (later : List (Pipe × Bool)) :
    (Call ⊕ Result) × Stream → Option (Int × Pipe) × (Nat → Byte)
  | (.inr r, st) => (some (r.1, st.toPipe), Routine.put m addr r.2)
  | (.inl c, _) =>
    match later with
    | [] => (none, m)
    | (pi, killed) :: later => (c.routine addr pi killed later).run m

theorem pipewriteFrom_run {m : Nat → Byte} {addr i : Nat} {rest : List Byte}
    {later : List (Pipe × Bool)} (hm : Routine.get m (addr + i) rest.length = rest) :
    (pipewriteFrom addr rest.length i st.toPipe killed later).run m =
      goOn addr m later (st.pipewrite killed rest i) := by
  induction rest generalizing i st with
  | nil => simp [pipewriteFrom, Stream.pipewrite, goOn, Routine.run, Routine.put_nil]
  | cons ch rest ih =>
    rw [List.length_cons, Nat.add_comm rest.length, Routine.get_add] at hm
    obtain ⟨hch, hrest⟩ := List.cons.inj hm
    rw [List.length_cons, pipewriteFrom, wait_until_eq, Stream.pipewrite]
    by_cases hfull : st.full
    · by_cases hstop : st.readopen = false ∨ killed
      · simp [hfull, hstop, goOn, Routine.run, Routine.put_nil]
      · cases later <;> simp [hfull, hstop, goOn, Routine.run, Call.routine, pipewriteFrom]
    · rw [if_neg hfull, if_neg hfull, ← ih (i := i + 1) hrest, ← hch]
      rfl

theorem pipereadFrom_run (m : Nat → Byte) (addr n i : Nat) (st : Stream) :
    (pipereadFrom addr n i st.toPipe).run m =
      ((↑(i + (st.readLoop n).1.length), (st.readLoop n).2.toPipe),
        Routine.put m (addr + i) (st.readLoop n).1) := by
  induction n generalizing i st m with
  | zero => simp [pipereadFrom, Stream.readLoop, Routine.run, Routine.put_nil]
  | succ n ih =>
    rw [pipereadFrom, Stream.readLoop]
    by_cases hempty : st.empty
    · simp [hempty, Routine.run, Routine.put_nil]
    · have h := ih (Routine.put m (addr + i) [st.deliver.1]) (i + 1) st.deliver.2
      have happ := Routine.put_append m (addr + i) [st.deliver.1] (st.deliver.2.readLoop n).1
      rw [if_neg hempty, if_neg hempty]
      refine h.trans (Prod.ext ?_ happ)
      simp [Nat.add_assoc, Nat.add_comm 1]

/-- The routines of `read` and `write` do the same to the pipe, on any memory with the bytes of a
writer, and return, sleep and go on as the call does. -/
theorem Call.routine_run {m : Nat → Byte} {addr : Nat} {later : List (Pipe × Bool)} (c : Call)
    (hm : ∀ rest i, c = .writing rest i → Routine.get m (addr + i) rest.length = rest) :
    (c.routine addr st.toPipe killed later).run m = goOn addr m later (c.run killed st) := by
  cases c with
  | writing rest i => exact pipewriteFrom_run (hm rest i rfl)
  | reading n =>
    rw [Call.routine, Kernel.piperead, wait_until_eq, Call.run, Stream.piperead]
    by_cases hwait : st.empty ∧ st.writeopen
    · cases killed <;> cases later <;>
        simp [hwait, goOn, Routine.run, Routine.put_nil, Call.routine, Kernel.piperead]
    · simp only [Bool.and_eq_true, if_neg hwait]
      rw [Routine.run_bind_done, pipereadFrom_run]
      simp [goOn]

end Yyds.Pipes
