import InfoKernel.Lib.Run
import Mathlib.Logic.Function.Basic
import Mathlib.Tactic.Common

/-!
# The spinlock

`lock.cc`: `SpinLock::lock`, `try_lock` and `unlock`, called by any number of threads.  The
exchange and the unlocking store are single steps, and so is the test behind the exchange;
between any two steps of a thread the others may take any number of theirs.

The register that the exchange stores is `%1`, which is the output for `new_value` and no input:
what it holds before is left open, and the exchange has it as a parameter.  The exchange puts the
old value of the lock into `new_value`.  What is tested behind it is the local `expected`, which is
`0` from its declaration on, so that every test succeeds: two threads can be inside at once
(`lock_returns_twice`).  Exclusion holds in the runs in which the exchanges find a lock that is `0`
and store another value, and a lock that is not `0` is released from inside
(`exclusive_of_uncontended`).
-/

namespace InfoKernel.Task.Lock

open Lib

/-- Where a thread is in the code of the lock. -/
inductive Point where
  /-- in none of the three functions -/
  | out
  /-- before the exchange of `lock` -/
  | lockXchg
  /-- before the test of `lock` -/
  | lockTest
  /-- before the exchange of `try_lock` -/
  | tryXchg
  /-- before the test of `try_lock` -/
  | tryTest
  deriving DecidableEq

/-- A thread, with its local variables. -/
structure Thread where
  point : Point
  expected : UInt32
  newValue : UInt32
  /-- it is between a `lock` or a `try_lock` that has succeeded and its `unlock` -/
  inside : Bool

/-- The lock and the threads. -/
structure Sys (ι : Type*) where
  state : UInt32
  thread : ι → Thread

/-- What a thread does next. -/
inductive Act (ι : Type*) where
  | lock (t : ι)
  | tryLock (t : ι)
  | unlock (t : ι)
  /-- the exchange, with what the register `%1` holds -/
  | xchg (t : ι) (register : UInt32)
  | test (t : ι)

/-- The declarations of the locals, in front of an exchange. -/
def Thread.declare (th : Thread) (point : Point) : Thread :=
  { th with point := point, expected := 0, newValue := 1 }

/-- A call that has taken the lock returns. -/
def Thread.enter (th : Thread) : Thread := { th with point := .out, inside := true }

variable {ι : Type*} [DecidableEq ι]

/-- Thread `t` changes. -/
def Sys.set (s : Sys ι) (t : ι) (th : Thread) : Sys ι :=
  { s with thread := Function.update s.thread t th }

/-- One step of a thread, if it can take it. -/
def step (s : Sys ι) : Act ι → Option (Sys ι)
  | .lock t =>
      if (s.thread t).point = .out then some (s.set t ((s.thread t).declare .lockXchg)) else none
  | .tryLock t =>
      if (s.thread t).point = .out then some (s.set t ((s.thread t).declare .tryXchg)) else none
  | .unlock t =>
      if (s.thread t).point = .out then
        some { s.set t { s.thread t with inside := false } with state := 0 }
      else none
  | .xchg t register =>
      match (s.thread t).point with
      | .lockXchg => some { s.set t { s.thread t with point := .lockTest, newValue := s.state } with
          state := register }
      | .tryXchg => some { s.set t { s.thread t with point := .tryTest, newValue := s.state } with
          state := register }
      | _ => none
  | .test t =>
      match (s.thread t).point with
      | .lockTest =>
          if (s.thread t).expected = 0 then some (s.set t (s.thread t).enter)
          else some (s.set t ((s.thread t).declare .lockXchg))
      | .tryTest =>
          if (s.thread t).expected = 0 then some (s.set t (s.thread t).enter)
          else some (s.set t { s.thread t with point := .out })
      | _ => none

/-- A new lock, and threads that have not used it yet. -/
def Sys.init : Sys ι where
  state := 0
  thread _ := ⟨.out, 0, 0, false⟩

/-- At most one thread is inside. -/
def Exclusive (s : Sys ι) : Prop :=
  ∀ t u, (s.thread t).inside = true → (s.thread u).inside = true → t = u

/-- An exchange finds the lock free and stores a value that says that it is taken; and a lock that
is taken is released by a thread inside. -/
def Uncontended (s : Sys ι) : Act ι → Prop
  | .xchg _ register => s.state = 0 ∧ register ≠ 0
  | .unlock t => s.state = 0 ∨ (s.thread t).inside = true
  | _ => True

instance (s : Sys ι) (a : Act ι) : Decidable (Uncontended s a) :=
  match a with
  | .xchg _ register => inferInstanceAs (Decidable (s.state = 0 ∧ register ≠ 0))
  | .unlock t => inferInstanceAs (Decidable (s.state = 0 ∨ (s.thread t).inside = true))
  | .lock _ | .tryLock _ | .test _ => isTrue trivial

/-! ## The thread that has the lock -/

/-- The thread is inside, or its exchange has been made and the test comes next. -/
def Thread.Has (th : Thread) : Prop :=
  th.inside = true ∨ th.point = .lockTest ∨ th.point = .tryTest

/-- At most one thread has the lock, and then its state is not `0`. -/
structure Safe (s : Sys ι) : Prop where
  unique {t u : ι} : (s.thread t).Has → (s.thread u).Has → t = u
  taken {t : ι} : (s.thread t).Has → s.state ≠ 0

variable {s s' : Sys ι} {t : ι} {th : Thread}

@[simp] theorem Sys.set_state : (s.set t th).state = s.state := rfl

@[simp] theorem Sys.set_self : (s.set t th).thread t = th := by
  simp [Sys.set]

theorem Sys.set_of_ne {u : ι} (h : u ≠ t) : (s.set t th).thread u = s.thread u := by
  simp [Sys.set, h]

/-- Before the exchange of a call a thread has the lock only where it is inside already. -/
theorem Thread.has_declare {point : Point} (hpoint : point = .lockXchg ∨ point = .tryXchg)
    (h : (th.declare point).Has) : th.Has := by
  rcases h with hin | hp | hp
  · exact .inl hin
  · rw [Thread.declare] at hp
    rcases hpoint with rfl | rfl <;> cases hp
  · rw [Thread.declare] at hp
    rcases hpoint with rfl | rfl <;> cases hp

namespace Safe

omit [DecidableEq ι] in
theorem init : Safe (Sys.init : Sys ι) where
  unique h _ := by
    rcases h with h | h | h <;> cases h
  taken h := by
    rcases h with h | h | h <;> cases h

/-- A thread changes that does not come to have the lock. -/
theorem set (hs : Safe s) (hhas : th.Has → (s.thread t).Has) : Safe (s.set t th) := by
  have hold : ∀ u, ((s.set t th).thread u).Has → (s.thread u).Has := by
    intro u hu
    by_cases hut : u = t
    · rw [hut, Sys.set_self] at hu
      rw [hut]
      exact hhas hu
    · rwa [Sys.set_of_ne hut] at hu
  exact ⟨fun hu hv => hs.unique (hold _ hu) (hold _ hv), fun hu => hs.taken (hold _ hu)⟩

/-- The exchange: where the lock is `0` no thread has it, and this one comes to have it. -/
theorem xchg (hs : Safe s) {register : UInt32} (hfree : s.state = 0) (hne : register ≠ 0) :
    Safe { s.set t th with state := register } := by
  have hthis : ∀ u, ((s.set t th).thread u).Has → u = t := by
    intro u hu
    by_contra hut
    rw [Sys.set_of_ne hut] at hu
    exact hs.taken hu hfree
  exact ⟨fun hu hv => (hthis _ hu).trans (hthis _ hv).symm, fun _ => hne⟩

/-- The store: of the thread that has the lock, or where no thread has it. -/
theorem unlock (hs : Safe s) (hok : s.state = 0 ∨ (s.thread t).inside = true)
    (hout : (s.thread t).point = .out) :
    Safe { s.set t { s.thread t with inside := false } with state := 0 } := by
  have hno : ∀ u, ¬ ((s.set t { s.thread t with inside := false }).thread u).Has := by
    intro u hu
    by_cases hut : u = t
    · rw [hut, Sys.set_self] at hu
      rcases hu with hu | hu | hu
      · cases hu
      · exact absurd (hout.symm.trans hu) (by decide)
      · exact absurd (hout.symm.trans hu) (by decide)
    · rw [Sys.set_of_ne hut] at hu
      rcases hok with hfree | hin
      · exact hs.taken hu hfree
      · exact hut (hs.unique hu (.inl hin))
  exact ⟨fun hu _ => absurd hu (hno _), fun hu => absurd hu (hno _)⟩

/-- The step lemma. -/
theorem step (hs : Safe s) {a : Act ι} (hok : Uncontended s a) (h : Lock.step s a = some s') :
    Safe s' := by
  cases a with
  | lock t =>
      rw [Lock.step] at h
      split at h
      · injection h with h
        rw [← h]
        exact hs.set (Thread.has_declare (.inl rfl))
      · cases h
  | tryLock t =>
      rw [Lock.step] at h
      split at h
      · injection h with h
        rw [← h]
        exact hs.set (Thread.has_declare (.inr rfl))
      · cases h
  | unlock t =>
      rw [Lock.step] at h
      split at h
      · next hout =>
        injection h with h
        rw [← h]
        exact hs.unlock hok hout
      · cases h
  | xchg t register =>
      rw [Lock.step] at h
      split at h
      · injection h with h
        rw [← h]
        exact hs.xchg hok.1 hok.2
      · injection h with h
        rw [← h]
        exact hs.xchg hok.1 hok.2
      · cases h
  | test t =>
      rw [Lock.step] at h
      split at h
      · next hat =>
        split at h
        · injection h with h
          rw [← h]
          exact hs.set fun _ => .inr (.inl hat)
        · injection h with h
          rw [← h]
          exact hs.set (Thread.has_declare (.inl rfl))
      · next hat =>
        split at h
        · injection h with h
          rw [← h]
          exact hs.set fun _ => .inr (.inr hat)
        · injection h with h
          rw [← h]
          exact hs.set fun _ => .inr (.inr hat)
      · cases h

end Safe

/-- **Exclusion without contention.**  In the runs in which every exchange finds the lock `0` and
stores another value, and no thread that is not inside calls `unlock` while it is not `0`, at most
one thread is inside at any time. -/
theorem exclusive_of_uncontended {acts : List (Act ι)} {s : Sys ι}
    (h : Run (Guarded Uncontended (ofOption step)) Sys.init acts s) : Exclusive s := by
  have hsafe : Safe s := h.invariant Safe.init fun _ _ _ hs hstep => hs.step hstep.1 hstep.2
  exact fun t u ht hu => hsafe.unique (.inl ht) (.inl hu)

/-- Two threads call `lock`, the register holds what `new_value` has been declared with, and both
calls return. -/
theorem lock_returns_twice : ∃ s : Sys Nat, Run (ofOption step) Sys.init
    [.lock 0, .xchg 0 1, .test 0, .lock 1, .xchg 1 1, .test 1] s ∧ ¬ Exclusive s := by
  have hexec : ((exec (fun _ _ => true) step (Sys.init : Sys Nat)
      [.lock 0, .xchg 0 1, .test 0, .lock 1, .xchg 1 1, .test 1]).map fun s =>
        ((s.thread 0).inside, (s.thread 1).inside)) = some (true, true) := by
    decide
  rw [Option.map_eq_some_iff] at hexec
  obtain ⟨s, hs, hboth⟩ := hexec
  injection hboth with h0 h1
  exact ⟨s, (run_of_exec hs).mono fun _ _ _ h => h.2, fun hex => absurd (hex 0 1 h0 h1) (by decide)⟩

/-- One thread after the other. -/
theorem exclusive_of_uncontended_turns : ∃ s : Sys Nat, Run (Guarded Uncontended (ofOption step))
    Sys.init [.lock 0, .xchg 0 1, .test 0, .unlock 0, .lock 1, .xchg 1 1, .test 1] s ∧
      Exclusive s := by
  have hexec : (exec (fun s a => decide (Uncontended s a)) step (Sys.init : Sys Nat)
      [.lock 0, .xchg 0 1, .test 0, .unlock 0, .lock 1, .xchg 1 1, .test 1]).isSome = true := by
    decide
  obtain ⟨s, hs⟩ := Option.isSome_iff_exists.mp hexec
  have hrun := (run_of_exec hs).mono fun _ _ _ h =>
    (⟨of_decide_eq_true h.1, h.2⟩ : Guarded Uncontended (ofOption step) _ _ _)
  exact ⟨s, hrun, exclusive_of_uncontended hrun⟩

end InfoKernel.Task.Lock
