import InfoKernel.Lib.Program
import Mathlib.Logic.Function.Basic

/-!
# Programs that take locks

A program on data of type `σ` that takes and gives back locks named by `L`.  Its state is the
data together with the locks that the thread running it holds, and `acquire` of a lock that the
thread holds already stops it: with a lock that is not recursive this is where the thread would
wait for itself.

`Disciplined x s` is the discipline for a whole operation, entered with no lock held: it never
stops at a lock that it holds, and if it returns it holds none.  What stops it otherwise, a fault
of the data, is no concern of the locks.
-/

namespace InfoKernel.Lib

universe u

/-- Data, and the locks that the thread holds. -/
structure Owned (L : Type*) (σ : Type*) where
  data : σ
  held : L → Bool

/-- Why a program stops: it takes a lock that it holds, or the data fails it. -/
inductive Stop (L ε : Type*) where
  | relock (l : L)
  | fault (e : ε)

/-- Programs that take locks. -/
abbrev Locking (L : Type u) (σ : Type u) (ε : Type*) (α : Type u) :=
  Program (Owned L σ) (Stop L ε) α

variable {L σ α β : Type u} {ε : Type*}

/-- No lock is held. -/
abbrev Owned.free (s : σ) : Owned L σ := ⟨s, fun _ => false⟩

/-- A part of a program that uses no lock. -/
def inside (f : σ → Except ε (α × σ)) : Locking L σ ε α := fun s =>
  match f s.data with
  | .error e => .error (.fault e)
  | .ok (a, t) => .ok (a, { s with data := t })

/-- The data changes. -/
def assign (f : σ → σ) : Locking L σ ε PUnit := inside fun s => .ok (.unit, f s)

/-- The data changes, or fails. -/
def change (f : σ → Except ε σ) : Locking L σ ε PUnit :=
  inside fun s => (f s).map fun t => (.unit, t)

/-- The data is read. -/
def look : Locking L σ ε σ := inside fun s => .ok (s, s)

theorem look_bind (f : σ → Locking L σ ε β) (t : Owned L σ) :
    (look >>= f) t = f t.data t := rfl

theorem assign_bind (g : σ → σ) (f : PUnit → Locking L σ ε β) (t : Owned L σ) :
    (assign g >>= f) t = f .unit { t with data := g t.data } := rfl

section Locks

variable [DecidableEq L]

/-- `lock()` -/
def acquire (l : L) : Locking L σ ε PUnit := fun s =>
  if s.held l then .error (.relock l)
  else .ok (.unit, { s with held := Function.update s.held l true })

/-- `unlock()` -/
def release (l : L) : Locking L σ ε PUnit := fun s =>
  .ok (.unit, { s with held := Function.update s.held l false })

end Locks

/-- The program stops at no lock that it holds. -/
def Stop.Apart : Stop L ε → Prop
  | .relock _ => False
  | .fault _ => True

/-- **The lock discipline**, for an operation that is entered with no lock held. -/
def Disciplined (x : Locking L σ ε α) (s : σ) : Prop :=
  Ends x (Owned.free s) Stop.Apart fun _ t => t.held = fun _ => false

/-- The program stops at no lock that it holds, and leaves the locks alone. -/
def Keeps (x : Locking L σ ε α) : Prop :=
  ∀ s, Ends x s Stop.Apart fun _ t => t.held = s.held

variable {x : Locking L σ ε α} {s : σ} {t : Owned L σ} {l : L}

namespace Keeps

theorem pure (a : α) : Keeps (pure a : Locking L σ ε α) := fun _ => Ends.pure rfl

theorem inside (f : σ → Except ε (α × σ)) : Keeps (inside f : Locking L σ ε α) := by
  intro s
  rw [Ends, Lib.inside]
  cases f s.data with
  | error e => exact True.intro
  | ok r => exact (rfl : s.held = s.held)

theorem assign (f : σ → σ) : Keeps (assign f : Locking L σ ε PUnit) := inside _

theorem change (f : σ → Except ε σ) : Keeps (change f : Locking L σ ε PUnit) := inside _

theorem look : Keeps (look : Locking L σ ε σ) := inside _

theorem bind {f : α → Locking L σ ε β} (hx : Keeps x) (hf : ∀ a, Keeps (f a)) :
    Keeps (x >>= f) := fun s =>
  Ends.bind (hx s) fun a t ht => (hf a t).mono fun _ _ hu => hu.trans ht

/-- Such a program is disciplined. -/
theorem disciplined (h : Keeps x) : Disciplined x s := h _

end Keeps

/-- An operation that stops at a lock that it holds is not disciplined. -/
theorem not_disciplined_of_relock (h : x (Owned.free s) = .error (.relock l)) :
    ¬ Disciplined x s := by
  intro hd
  rw [Disciplined, Ends, h] at hd
  exact hd

/-- Nor is one that returns with a lock. -/
theorem not_disciplined_of_held {a : α} (h : x (Owned.free s) = .ok (a, t))
    (hl : t.held l = true) : ¬ Disciplined x s := by
  intro hd
  have hheld : t.held = fun _ => false := hd.of_result h
  rw [hheld] at hl
  cases hl

variable [DecidableEq L]

theorem acquire_of_free (h : t.held l = false) : (acquire l : Locking L σ ε PUnit) t =
    .ok (.unit, { t with held := Function.update t.held l true }) := by
  rw [acquire, h]
  rfl

theorem acquire_bind_of_free (h : t.held l = false) (f : PUnit → Locking L σ ε β) :
    (acquire l >>= f) t = f .unit { t with held := Function.update t.held l true } :=
  bind_apply_of_ok (acquire_of_free h)

theorem acquire_of_held (h : t.held l = true) :
    (acquire l : Locking L σ ε PUnit) t = .error (.relock l) := by
  rw [acquire, if_pos h]

/-- Taking a free lock and giving it back leaves what is held. -/
theorem release_acquire {held : L → Bool} (h : held l = false) :
    Function.update (Function.update held l true) l false = held := by
  rw [Function.update_idem, ← h, Function.update_eq_self]

/-- The program gives the lock back on each way out, and leaves the others alone. -/
def Releases (l : L) (x : Locking L σ ε α) : Prop :=
  ∀ s, Ends x s Stop.Apart fun _ t => t.held = Function.update s.held l false

theorem Releases.unlock (l : L) {f : PUnit → Locking L σ ε β} (hf : Keeps (f .unit)) :
    Releases l (release l >>= f) := fun s =>
  Ends.step (rfl : release l s = .ok (_, _)) (hf _)

theorem Releases.bind {f : α → Locking L σ ε β} (hx : Keeps x) (hf : ∀ a, Releases l (f a)) :
    Releases l (x >>= f) := fun s =>
  Ends.bind (hx s) fun a t ht => (hf a t).mono fun _ u hu => by rw [hu, ht]

/-- **An operation that takes a lock** and gives it back on each way out is disciplined. -/
theorem Disciplined.lock {f : PUnit → Locking L σ ε β} (hf : Releases l (f .unit)) :
    Disciplined (acquire l >>= f) s := by
  refine Ends.step (acquire_of_free rfl) ((hf _).mono fun _ t ht => ht.trans ?_)
  exact release_acquire rfl

/-- The end of a critical section that changes the data. -/
theorem change_release {f : σ → Except ε σ} {held : L → Bool} (h : held l = false) (d : σ) :
    (do change f; release l : Locking L σ ε PUnit) ⟨d, Function.update held l true⟩ =
      match f d with
      | .error e => .error (.fault e)
      | .ok d' => .ok (.unit, ⟨d', held⟩) := by
  rw [bind_apply, change, inside]
  cases f d with
  | error e => rfl
  | ok d' =>
      show Except.ok (PUnit.unit,
        Owned.mk d' (Function.update (Function.update held l true) l false)) = _
      rw [release_acquire h]

/-- What a critical section that only changes the data returns. -/
theorem critical_change {f : σ → Except ε σ} (h : t.held l = false) :
    (do acquire l; change f; release l : Locking L σ ε PUnit) t =
      match f t.data with
      | .error e => .error (.fault e)
      | .ok d => .ok (.unit, { t with data := d }) := by
  rw [bind_apply_of_ok (acquire_of_free h)]
  exact change_release h t.data

/-- An operation that is one critical section is disciplined. -/
theorem Disciplined.critical {f : α → Locking L σ ε β} (hx : Keeps x)
    (hf : ∀ a, Keeps (f a)) : Disciplined (do acquire l; let a ← x; release l; f a) s :=
  .lock (.bind hx fun a => .unlock l (hf a))

end InfoKernel.Lib
