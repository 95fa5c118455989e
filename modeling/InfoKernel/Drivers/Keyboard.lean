import InfoKernel.Lib.Ring
import Mathlib.Data.List.Basic

/-!
# The keyboard queue

`InputQueue` of `keyboard.h` and `keyboard.cc`, a ring that the interrupt handler fills with
`Insert` and that two consumers empty: `Peek` takes one character, `ReadBuffer` as many as are there
and fit.  Each call is one step.

A run is any sequence of calls from `Init` on.  It records the characters that `Insert` has
accepted, those by which the count has gone up, and the characters that a consumer finds in its
memory behind a call.  The queue loses none of them and keeps their order (`inputQueue_fifo`).
-/

namespace InfoKernel.Drivers.Keyboard

open Lib

/-- `KBD_BUFFER_SIZE` -/
def kbdBufferSize : Nat := 128

/-- `keyboard::InputQueue` -/
structure InputQueue where
  buffer : Nat → UInt8
  head : Nat
  tail : Nat
  count : Nat

namespace InputQueue

/-- `InputQueue::Init` -/
def init : InputQueue := ⟨fun _ => 0, 0, 0, 0⟩

/-- `InputQueue::Insert` -/
def insert (q : InputQueue) (c : UInt8) : InputQueue :=
  if q.count < kbdBufferSize - 1 then
    { q with
      buffer := Function.update q.buffer q.tail c
      tail := (q.tail + 1) % kbdBufferSize
      count := q.count + 1 }
  else q

/-- `head` goes one on, and `count` one down. -/
def advance (q : InputQueue) : InputQueue :=
  { q with
    head := (q.head + 1) % kbdBufferSize
    count := q.count - 1 }

/-- `InputQueue::Peek`: what it returns, the queue, and the memory with the character at `c`. -/
def peek (q : InputQueue) (mem : Nat → UInt8) (c : Nat) : Bool × InputQueue × (Nat → UInt8) :=
  if q.count = 0 then (false, q, mem)
  else (true, q.advance, Function.update mem c (q.buffer q.head))

/-- `InputQueue::HasData` -/
def hasData (q : InputQueue) : Bool := 0 < q.count

/-- The loop of `ReadBuffer` with room for `n` more characters, behind `bytesRead` of them. -/
def readLoop (dest : Nat) : Nat → Nat → InputQueue → (Nat → UInt8) →
    Nat × InputQueue × (Nat → UInt8)
  | 0, bytesRead, q, mem => (bytesRead, q, mem)
  | n + 1, bytesRead, q, mem =>
      if 0 < q.count then
        readLoop dest n (bytesRead + 1) q.advance
          (Function.update mem (dest + bytesRead) (q.buffer q.head))
      else (bytesRead, q, mem)

/-- `InputQueue::ReadBuffer`: what it returns, the queue, and the memory with the characters. -/
def readBuffer (q : InputQueue) (mem : Nat → UInt8) (buf size : Nat) :
    Nat × InputQueue × (Nat → UInt8) :=
  readLoop buf size 0 q mem

/-- The characters in the ring, the next one first. -/
def buffered (q : InputQueue) : List UInt8 := ringList kbdBufferSize q.buffer q.head q.count

/-- `Insert` counts the character. -/
def Accepts (q : InputQueue) (c : UInt8) : Prop := q.count < (q.insert c).count

instance (q : InputQueue) (c : UInt8) : Decidable (q.Accepts c) :=
  inferInstanceAs (Decidable (_ < _))

/-- The positions of the ring, of which one slot stays free. -/
structure InRange (q : InputQueue) : Prop where
  head : q.head < kbdBufferSize
  count : q.count < kbdBufferSize
  tail : q.tail = (q.head + q.count) % kbdBufferSize

end InputQueue

/-! ## The system -/

/-- A call, with the place that a consumer gives for the characters. -/
inductive Call where
  | insert (c : UInt8)
  | peek (c : Nat)
  | readBuffer (buf size : Nat)

/-- The queue and the memory, and what has been accepted and delivered. -/
structure Sys where
  queue : InputQueue
  memory : Nat → UInt8
  accepted : List UInt8
  delivered : List UInt8

namespace Sys

/-- Behind `Init`. -/
def init (memory : Nat → UInt8) : Sys := ⟨.init, memory, [], []⟩

/-- A call is made. -/
def call (s : Sys) : Call → Sys
  | .insert c =>
      { s with
        queue := s.queue.insert c
        accepted := if s.queue.Accepts c then s.accepted ++ [c] else s.accepted }
  | .peek c =>
      let (found, queue, memory) := s.queue.peek s.memory c
      { s with
        queue := queue
        memory := memory
        delivered := if found then s.delivered ++ [memory c] else s.delivered }
  | .readBuffer buf size =>
      let (bytesRead, queue, memory) := s.queue.readBuffer s.memory buf size
      { s with
        queue := queue
        memory := memory
        delivered := s.delivered ++ window memory buf bytesRead }

/-- Calls are made, one behind the other. -/
def calls (s : Sys) (cs : List Call) : Sys := cs.foldl call s

/-- The queue is in range, and nothing is lost or out of order. -/
structure Fifo (s : Sys) : Prop where
  range : s.queue.InRange
  fifo : s.delivered ++ s.queue.buffered = s.accepted

end Sys

/-! ## The queue -/

namespace InputQueue

variable {q : InputQueue}

theorem length_buffered (q : InputQueue) : q.buffered.length = q.count := length_ringList _ _ _

theorem hasData_iff (q : InputQueue) : q.hasData = true ↔ q.buffered ≠ [] := by
  rw [hasData, decide_eq_true_iff, ← length_buffered, List.length_pos_iff]

theorem accepts_iff (q : InputQueue) (c : UInt8) :
    q.Accepts c ↔ q.buffered.length < kbdBufferSize - 1 := by
  unfold Accepts insert
  rw [length_buffered]
  split
  · rename_i hroom
    exact iff_of_true (Nat.lt_succ_self q.count) hroom
  · rename_i hfull
    exact iff_of_false (Nat.lt_irrefl _) hfull

/-- A character that is not accepted changes nothing. -/
theorem insert_of_not_accepts {c : UInt8} (h : ¬ q.Accepts c) : q.insert c = q := by
  rw [accepts_iff, length_buffered] at h
  exact if_neg h

theorem init_inRange : init.InRange := ⟨by decide, by decide, by decide⟩

/-- **An accepted character** comes to the back of the queue. -/
theorem insert_of_accepts (h : q.InRange) {c : UInt8} (hc : q.Accepts c) :
    (q.insert c).InRange ∧ (q.insert c).buffered = q.buffered ++ [c] := by
  rw [accepts_iff, length_buffered] at hc
  rw [insert, if_pos hc]
  refine ⟨⟨h.head, ?_, ?_⟩, ?_⟩
  · unfold kbdBufferSize at hc ⊢
    dsimp only
    omega
  · dsimp only
    rw [h.tail, Nat.mod_add_mod, Nat.add_assoc]
  · unfold buffered
    dsimp only
    rw [h.tail]
    exact ringList_put _ _ _ h.count

/-- **The character at `head`** is the first of the queue. -/
theorem advance_spec (h : q.InRange) (hsome : 0 < q.count) :
    q.advance.InRange ∧ q.buffered = q.buffer q.head :: q.advance.buffered := by
  obtain ⟨n, hn⟩ := Nat.exists_eq_add_of_lt hsome
  have hcount : q.count = 1 + n := by omega
  refine ⟨⟨Nat.mod_lt _ (by decide), ?_, ?_⟩, ?_⟩
  · have hlt := h.count
    unfold advance
    dsimp only
    omega
  · unfold advance
    dsimp only
    rw [h.tail, Nat.mod_add_mod]
    congr 1
    omega
  · have hfirst : ringList kbdBufferSize q.buffer q.head 1 = [q.buffer q.head] := by
      rw [ringList_succ, ringList_zero, Nat.add_zero, Nat.mod_eq_of_lt h.head, List.nil_append]
    have hrest : q.advance.buffered = ringList kbdBufferSize q.buffer (q.head + 1) n := by
      unfold advance buffered
      dsimp only
      rw [ringList_mod, hcount, Nat.add_sub_cancel_left]
    rw [buffered, hcount, ringList_add, hfirst, hrest, List.singleton_append]

/-- What `Peek` does: it delivers the first character if there is one. -/
theorem peek_cases (h : q.InRange) (mem : Nat → UInt8) (c : Nat) :
    (q.buffered = [] ∧ q.peek mem c = (false, q, mem)) ∨
      ∃ q' mem', q.peek mem c = (true, q', mem') ∧ q'.InRange ∧
        q.buffered = mem' c :: q'.buffered := by
  by_cases hzero : q.count = 0
  · refine .inl ⟨?_, if_pos hzero⟩
    exact List.eq_nil_of_length_eq_zero ((length_buffered q).trans hzero)
  · obtain ⟨hrange, hlist⟩ := advance_spec h (Nat.pos_of_ne_zero hzero)
    refine .inr ⟨q.advance, _, if_neg hzero, hrange, ?_⟩
    rw [Function.update_self, hlist]

/-- The loop of `ReadBuffer` delivers the first characters, as many as there is room for, and stores
nothing in front of them. -/
theorem readLoop_spec (dest n : Nat) (h : q.InRange) (bytesRead : Nat) (mem : Nat → UInt8) :
    ∃ q' mem', readLoop dest n bytesRead q mem = (bytesRead + min n q.count, q', mem') ∧
      q'.InRange ∧
      q.buffered = window mem' (dest + bytesRead) (min n q.count) ++ q'.buffered ∧
      ∀ a < dest + bytesRead, mem' a = mem a := by
  induction n generalizing q bytesRead mem with
  | zero =>
      refine ⟨q, mem, ?_, h, ?_, fun _ _ => rfl⟩
      · rw [Nat.zero_min]
        rfl
      · rw [Nat.zero_min, window_zero, List.nil_append]
  | succ n ih =>
      rw [readLoop]
      split
      · rename_i hsome
        obtain ⟨hrange, hlist⟩ := advance_spec h hsome
        obtain ⟨q', mem', hloop, hrange', hlist', hbefore⟩ := ih hrange (bytesRead + 1)
          (Function.update mem (dest + bytesRead) (q.buffer q.head))
        have hmin : min (n + 1) q.count = min n q.advance.count + 1 := by
          unfold advance
          dsimp only
          omega
        have hfirst : mem' (dest + bytesRead) = q.buffer q.head := by
          rw [hbefore (dest + bytesRead) (by omega), Function.update_self]
        refine ⟨q', mem', ?_, hrange', ?_, fun a ha => ?_⟩
        · rw [hloop, hmin, Nat.add_assoc, Nat.add_comm 1]
        · rw [hlist, hlist', hmin, window_cons, hfirst, List.cons_append, Nat.add_assoc]
        · rw [hbefore a (by omega), Function.update_of_ne (by omega)]
      · rename_i hnone
        have hmin : min (n + 1) q.count = 0 := by omega
        refine ⟨q, mem, ?_, h, ?_, fun _ _ => rfl⟩
        · rw [hmin, Nat.add_zero]
        · rw [hmin, window_zero, List.nil_append]

/-- **What `ReadBuffer` does**: it delivers the first characters, as many as there is room for. -/
theorem readBuffer_spec (h : q.InRange) (mem : Nat → UInt8) (buf size : Nat) :
    ∃ q' mem', q.readBuffer mem buf size = (min size q.count, q', mem') ∧ q'.InRange ∧
      q.buffered = window mem' buf (min size q.count) ++ q'.buffered := by
  obtain ⟨q', mem', hloop, hrange, hlist, -⟩ := readLoop_spec buf size h 0 mem
  rw [Nat.zero_add] at hloop
  exact ⟨q', mem', hloop, hrange, hlist⟩

end InputQueue

/-! ## Runs -/

namespace Sys

variable {s : Sys}

theorem init_fifo (memory : Nat → UInt8) : (init memory).Fifo := ⟨InputQueue.init_inRange, rfl⟩

/-- A call keeps the order. -/
theorem Fifo.call (h : s.Fifo) (c : Call) : (s.call c).Fifo := by
  cases c with
  | insert c =>
      by_cases hc : s.queue.Accepts c
      · obtain ⟨hrange, hlist⟩ := InputQueue.insert_of_accepts h.range hc
        refine ⟨hrange, ?_⟩
        show s.delivered ++ (s.queue.insert c).buffered = if s.queue.Accepts c then _ else _
        rw [hlist, if_pos hc, ← List.append_assoc, h.fifo]
      · have hsame := InputQueue.insert_of_not_accepts hc
        refine ⟨?_, ?_⟩
        · show (s.queue.insert c).InRange
          rw [hsame]
          exact h.range
        · show s.delivered ++ (s.queue.insert c).buffered = if s.queue.Accepts c then _ else _
          rw [hsame, if_neg hc]
          exact h.fifo
  | peek c =>
      obtain ⟨-, hpeek⟩ | ⟨q', mem', hpeek, hrange, hlist⟩ :=
        InputQueue.peek_cases h.range s.memory c
      · rw [Sys.call, hpeek]
        exact ⟨h.range, h.fifo⟩
      · rw [Sys.call, hpeek]
        refine ⟨hrange, ?_⟩
        show s.delivered ++ [mem' c] ++ q'.buffered = s.accepted
        rw [List.append_assoc, List.singleton_append, ← hlist, h.fifo]
  | readBuffer buf size =>
      obtain ⟨q', mem', hread, hrange, hlist⟩ :=
        InputQueue.readBuffer_spec h.range s.memory buf size
      rw [Sys.call, hread]
      refine ⟨hrange, ?_⟩
      show s.delivered ++ window mem' buf (min size s.queue.count) ++ q'.buffered = s.accepted
      rw [List.append_assoc, ← hlist, h.fifo]

theorem Fifo.calls (h : s.Fifo) (cs : List Call) : (s.calls cs).Fifo := by
  induction cs generalizing s with
  | nil => exact h
  | cons c cs ih => exact ih (h.call c)

/-- **The keyboard queue** delivers the characters that `Insert` has accepted, each once and in
order, whatever calls are made.  It accepts a character exactly if fewer than 127 are buffered, and
otherwise stays as it is; and its positions stay in range, `tail` where `head` and `count` say. -/
theorem inputQueue_fifo (memory : Nat → UInt8) (cs : List Call) :
    ((init memory).calls cs).delivered ++ ((init memory).calls cs).queue.buffered =
        ((init memory).calls cs).accepted ∧
      (∀ c, (((init memory).calls cs).queue.Accepts c ↔
          ((init memory).calls cs).queue.buffered.length < kbdBufferSize - 1) ∧
        (¬ ((init memory).calls cs).queue.Accepts c →
          ((init memory).calls cs).queue.insert c = ((init memory).calls cs).queue)) ∧
      ((init memory).calls cs).queue.head < kbdBufferSize ∧
      ((init memory).calls cs).queue.tail < kbdBufferSize ∧
      ((init memory).calls cs).queue.tail = (((init memory).calls cs).queue.head +
        ((init memory).calls cs).queue.count) % kbdBufferSize := by
  have hfifo := (init_fifo memory).calls cs
  refine ⟨hfifo.fifo, fun c => ⟨InputQueue.accepts_iff _ c, InputQueue.insert_of_not_accepts⟩,
    hfifo.range.head, ?_, hfifo.range.tail⟩
  rw [hfifo.range.tail]
  exact Nat.mod_lt _ (by decide)

example : ((init fun _ => 0).calls [.insert 104, .insert 105, .peek 7, .insert 10,
    .readBuffer 16 80]).delivered = [104, 105, 10] := by decide

end Sys

end InfoKernel.Drivers.Keyboard
