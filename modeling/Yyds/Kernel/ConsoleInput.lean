import Yyds.Kernel.Buffers
import Yyds.Lib.Ring

/-! The input of the console between `consoleintr` and `consoleread`. -/
namespace Yyds.ConsoleInput

open Lib Lib.Ring Mm Kernel Function

/-- `cons`, with what was typed and committed, the rest of the line, and what `consoleread` has
returned so far; an end-of-file counts as returned. -/
structure Input extends Console where
  e : Nat
  raw_mode : Int
  typed : List Byte
  line : List Byte
  returned : List Byte

namespace Input

/-- `cons.buf[cons.e++ % INPUT_BUF] = c` -/
def store (s : Input) (c : Byte) : Input :=
  { s with
    buf := update s.buf (s.e % INPUT_BUF) c
    e := (s.e + 1) % 2 ^ 32
    line := s.line ++ [c] }

/-- `cons.w = cons.e` -/
def commit (s : Input) : Input := { s with w := s.e, typed := s.typed ++ s.line, line := [] }

/-- `cons.e--` -/
def erase (s : Input) : Input := { s with e := (s.e + 2 ^ 32 - 1) % 2 ^ 32, line := s.line.dropLast }

/-- The loop for `C('U')`; it goes round at most as often as `e` is ahead of `w`. -/
def killLine : Nat → Input → Input
  | 0, s => s
  | k + 1, s =>
    if s.e ≠ s.w ∧ s.buf ((s.e + 2 ^ 32 - 1) % 2 ^ 32 % INPUT_BUF) ≠ 10 then killLine k s.erase
    else s

/-- A character that has room: it is committed at once, or with the end of the line. -/
def enter (s : Input) (c : Byte) : Input :=
  if s.raw_mode ≠ 0 ∨ c = 10 ∨ c = 4 ∨ (s.store c).e = (s.r + INPUT_BUF) % 2 ^ 32 then
    (s.store c).commit
  else s.store c

def consoleintr (s : Input) (c : Byte) : Input :=
  -- C('C') sends a signal, and C('P') prints the processes
  if c = 3 ∨ c = 16 then s
  else if c = 21 then s.killLine (gap (2 ^ 32) s.w s.e)
  else if c = 9 then if s.raw_mode ≠ 0 then (s.store c).commit else s
  else if c = 8 ∨ c = 127 then
    if s.raw_mode ≠ 0 then (s.store c).commit else if s.e ≠ s.w then s.erase else s
  else if c ≠ 0 ∧ gap (2 ^ 32) s.r s.e < INPUT_BUF then s.enter (if c = 13 then 10 else c)
  else s

/-- `cons.r++` -/
def take (s : Input) : Input := { s with r := (s.r + 1) % 2 ^ 32 }

/-- The byte that is taken goes to the reader. -/
def give (s : Input) : Input :=
  { s.take with returned := s.returned ++ [s.buf (s.r % INPUT_BUF)] }

/-- `consoleread` with `n` bytes to go after `i`, until it returns or sleeps; `ok` tells which
bytes of its buffer can be written. -/
def consoleread (ok : Nat → Bool) : Nat → Nat → Input → Input
  | 0, _, s => s
  | n + 1, i, s =>
    if s.r = s.w then s
    else if s.buf (s.r % INPUT_BUF) = 4 then if 0 < i then s else s.give
    else if ok i = false then s.take
    else if s.buf (s.r % INPUT_BUF) = 10 then s.give
    else consoleread ok n (i + 1) s.give

end Input

inductive Event
  | key (c : Byte)
  | mode (mode : Int)
  | read (ok : Nat → Bool) (n i : Nat)

def step (s : Input) : Event → Input
  | .key c => s.consoleintr c
  | .mode mode => { s with raw_mode := mode }
  | .read ok n i => s.consoleread ok n i

def boot : Input := ⟨⟨fun _ => 0, 0, 0⟩, 0, 0, [], [], []⟩

/-- In raw mode Tab, Backspace and Delete come only while there is room, and readers have buffers
that can be written to. -/
def Clear (s : Input) : Event → Prop
  | .key c => c ∈ [9, 8, 127] → s.raw_mode ≠ 0 → gap (2 ^ 32) s.r s.e < INPUT_BUF
  | .mode _ => True
  | .read ok n i => ∀ j < i + n, ok j

instance (s : Input) : DecidablePred (Clear s) := fun a => by
  cases a <;> dsimp only [Clear] <;> infer_instance

namespace Input

/-- `r <= w <= e <= r + INPUT_BUF` -/
def Ordered (s : Input) : Prop :=
  gap (2 ^ 32) s.r s.w ≤ gap (2 ^ 32) s.r s.e ∧ gap (2 ^ 32) s.r s.e ≤ INPUT_BUF

/-- What was committed has been returned, in order, or is still in the buffer. -/
def Intact (s : Input) : Prop :=
  s.typed = s.returned ++ content s.buf INPUT_BUF (2 ^ 32) s.r s.w

/-- The ring holds what is to be returned and then the line. -/
def Inv (s : Input) : Prop := ∃ l, Holds s.buf INPUT_BUF (2 ^ 32) s.r s.e (l ++ s.line) ∧
  s.w = (s.r + l.length) % 2 ^ 32 ∧ (l ++ s.line).length ≤ INPUT_BUF ∧ s.typed = s.returned ++ l

end Input

theorem INPUT_BUF_dvd : INPUT_BUF ∣ 2 ^ 32 := by decide

theorem lt_of_le_INPUT_BUF {n : Nat} (h : n ≤ INPUT_BUF) : n < 2 ^ 32 :=
  Nat.lt_of_le_of_lt h (by decide)

variable {s t : Input} {a : Event}

namespace Input.Inv

variable (h : s.Inv)
include h

theorem store (hroom : gap (2 ^ 32) s.r s.e < INPUT_BUF) (c : Byte) :
    (s.store c).Inv := by
  obtain ⟨l, hl, hw, hle, htyped⟩ := h
  rw [hl.gap_eq (lt_of_le_INPUT_BUF hle)] at hroom
  have hpush := hl.push (c := c) INPUT_BUF_dvd hroom
  rw [List.append_assoc] at hpush
  refine ⟨l, hpush, hw, ?_, htyped⟩
  rw [Input.store, ← List.append_assoc, List.length_append]
  exact hroom

theorem commit : s.commit.Inv := by
  obtain ⟨l, hl, -, hle, htyped⟩ := h
  refine ⟨l ++ s.line, ?_, hl.last, ?_, ?_⟩
  · rwa [Input.commit, List.append_nil]
  · rwa [Input.commit, List.append_nil]
  · simp only [Input.commit, htyped, List.append_assoc]

theorem erase (he : s.e ≠ s.w) : s.erase.Inv := by
  obtain ⟨l, hl, hw, hle, htyped⟩ := h
  rcases List.eq_nil_or_concat s.line with hline | ⟨line, c, hline⟩
  · rw [hline, List.append_nil] at hl
    exact absurd (hl.last.trans hw.symm) he
  · rw [List.concat_eq_append] at hline
    rw [hline, ← List.append_assoc] at hl hle
    rw [Input.erase, hline, List.dropLast_concat]
    exact ⟨l, hl.unpush, hw, Nat.le_trans (by simp) hle, htyped⟩

theorem killLine (k : Nat) : (s.killLine k).Inv := by
  induction k generalizing s with
  | zero => exact h
  | succ k ih =>
    unfold Input.killLine
    split
    · exact ih (h.erase ‹_ ∧ _›.1)
    · exact h

theorem enter (hroom : gap (2 ^ 32) s.r s.e < INPUT_BUF) (c : Byte) :
    (s.enter c).Inv := by
  unfold Input.enter
  split
  · exact (h.store hroom c).commit
  · exact h.store hroom c

theorem consoleintr {c : Byte} (hc : Clear s (.key c)) : (s.consoleintr c).Inv := by
  unfold Input.consoleintr
  split_ifs with hsig hkill htab hraw hback hraw hne hroom hcr
  · exact h
  · exact h.killLine _
  · exact (h.store (hc (by simp [htab]) hraw) c).commit
  · exact h
  · exact (h.store (hc (by rcases hback with rfl | rfl <;> simp) hraw) c).commit
  · exact h.erase hne
  · exact h
  · exact h.enter hroom.2 _
  · exact h.enter hroom.2 _
  · exact h

theorem give (hne : s.r ≠ s.w) : s.give.Inv := by
  obtain ⟨l, hl, hw, hle, htyped⟩ := h
  cases l with
  | nil => exact absurd (by rw [hw]; exact (Nat.mod_eq_of_lt hl.lt).symm) hne
  | cons c l =>
    refine ⟨l, hl.pop INPUT_BUF_dvd, ?_, Nat.le_of_succ_le hle, ?_⟩
    · exact hw.trans (hl.take.pop INPUT_BUF_dvd).last
    · have hhead : s.buf (s.r % INPUT_BUF) = c := hl.head
      simp only [Input.give, Input.take, hhead, htyped, List.append_assoc, List.singleton_append]

theorem consoleread {ok : Nat → Bool} {n i : Nat} (hok : ∀ j < i + n, ok j) :
    (s.consoleread ok n i).Inv := by
  induction n generalizing s i with
  | zero => exact h
  | succ n ih =>
    unfold Input.consoleread
    split_ifs with hempty heof hagain hbad hline
    · exact h
    · exact h
    · exact h.give hempty
    · exact absurd (hok i (by omega)) (by simp [hbad])
    · exact h.give hempty
    · exact ih (h.give hempty) fun j hj => hok j (by omega)

theorem step (hclear : Clear s a) : (step s a).Inv := by
  cases a with
  | key c => exact h.consoleintr hclear
  | mode mode => exact h
  | read ok n i => exact h.consoleread hclear

end Input.Inv

/-- While every step is `Clear`, nothing that was typed is lost, and it is returned in order. -/
theorem input_kept {as : List Event} (h : Run (Guarded Clear fun s a t => step s a = t) boot as s) :
    s.Ordered ∧ s.Intact := by
  have hinv : s.Inv := by
    refine h.invariant ?_ ⟨[], .nil _ _ (Nat.two_pow_pos 32), rfl, Nat.zero_le _, rfl⟩
    rintro s a _ ⟨hclear, rfl⟩ hs
    exact hs.step hclear
  obtain ⟨l, hl, hw, hle, htyped⟩ := hinv
  have htake := hl.take
  rw [← hw] at htake
  have hlen : l.length ≤ (l ++ s.line).length := by simp
  have hlt := lt_of_le_INPUT_BUF (Nat.le_trans hlen hle)
  refine ⟨⟨?_, ?_⟩, ?_⟩
  · rwa [htake.gap_eq hlt, hl.gap_eq (lt_of_le_INPUT_BUF hle)]
  · rwa [hl.gap_eq (lt_of_le_INPUT_BUF hle)]
  · rw [Input.Intact, htake.content_eq INPUT_BUF_dvd hlt, htyped]

/-- A line is typed and corrected, and read in two parts, with a Tab in raw mode after it. -/
theorem input_kept_line : ∃ s, Run (Guarded Clear fun s a t => step s a = t) boot
    [.key 97, .key 98, .key 8, .key 13, .read (fun _ => true) 1 0, .mode 1, .key 9] s ∧
      s.returned = [97] ∧ s.typed = [97, 10, 9] ∧ s.Ordered ∧ s.Intact := by
  refine (Run.exists_guards (P := fun s => s.returned = [97] ∧ s.typed = [97, 10, 9]) ?_).imp
    fun s ⟨hrun, hret, htyped⟩ => ⟨hrun, hret, htyped, input_kept hrun⟩
  decide +kernel

/-- In raw mode 128 Tabs fill the buffer, and Delete overwrites the first of them. -/
theorem delete_overwrites_tab : ∃ s, Run (fun s a t => step s a = t) boot
    (Event.mode 1 :: List.replicate 128 (.key 9) ++ [.key 127]) s ∧ s.returned = [] ∧
      s.typed.head? = some 9 ∧ s.buf (s.r % INPUT_BUF) = 127 ∧ INPUT_BUF < gap (2 ^ 32) s.r s.e :=
  ⟨_, .of_foldl step boot _, by decide +kernel⟩

end Yyds.ConsoleInput
