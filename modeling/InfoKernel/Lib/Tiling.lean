import InfoKernel.Lib.Loop
import Mathlib.Data.List.Basic
import Mathlib.Tactic.Common

/-!
# Tilings by records

Records of varying length lie one behind the other in a buffer: the first begins at some offset,
each of the others where the one before it ends, and the last one ends with the buffer.  `Tiling`
says so of the offsets at which they begin, for any function `len` that gives the length of the
record at an offset.

A tiling is changed in the middle by leading its front to another rest (`Tiling.splice`), and two
records that lie side by side can become one (`Tiling.merge`).  A loop that goes from record to
record meets exactly the records of the tiling, in their order (`Tiling.loop_find`).
-/

namespace InfoKernel.Lib

variable {len len' : Nat → Nat} {size o a b : Nat} {os front back : List Nat}

/-- The records that begin at these offsets lie one behind the other from `o` up to `size`. -/
inductive Tiling (len : Nat → Nat) (size : Nat) : Nat → List Nat → Prop
  | nil : Tiling len size size []
  | cons {o : Nat} {os : List Nat} : o < size → Tiling len size (o + len o) os →
      Tiling len size o (o :: os)

namespace Tiling

theorem le (h : Tiling len size o os) : o ≤ size := by
  cases h with
  | nil => exact Nat.le_refl size
  | cons hlt _ => exact Nat.le_of_lt hlt

/-- The record at the start, where there is one. -/
theorem head (h : Tiling len size o os) (hlt : o < size) :
    ∃ rest, os = o :: rest ∧ o + len o ≤ size ∧ Tiling len size (o + len o) rest := by
  cases h with
  | nil => exact absurd hlt (Nat.lt_irrefl _)
  | cons _ hrest => exact ⟨_, rfl, hrest.le, hrest⟩

/-- The first offset of a tiling is where it starts. -/
theorem eq_of_cons (h : Tiling len size o (a :: os)) :
    o = a ∧ a < size ∧ Tiling len size (a + len a) os := by
  cases h with
  | cons hlt hrest => exact ⟨rfl, hlt, hrest⟩

theorem unique {os' : List Nat} (h : Tiling len size o os) (h' : Tiling len size o os') :
    os = os' := by
  induction h generalizing os' with
  | nil =>
      cases h' with
      | nil => rfl
      | cons hlt _ => exact absurd hlt (Nat.lt_irrefl _)
  | cons hlt _ ih =>
      obtain ⟨rest, rfl, -, hrest⟩ := h'.head hlt
      rw [ih hrest]

/-- Where the records lie. -/
theorem mem (h : Tiling len size o os) (ha : a ∈ os) : o ≤ a ∧ a < size ∧ a + len a ≤ size := by
  induction h with
  | nil => cases ha
  | cons hlt hrest ih =>
      rcases List.mem_cons.mp ha with rfl | ha
      · exact ⟨Nat.le_refl a, hlt, hrest.le⟩
      · obtain ⟨hle, hlt', hend⟩ := ih ha
        exact ⟨by omega, hlt', hend⟩

/-- Records of at least `m` bytes are few. -/
theorem length_le {m : Nat} (h : Tiling len size o os) (hm : ∀ a ∈ os, m ≤ len a) :
    o + m * os.length ≤ size := by
  induction h with
  | nil => exact Nat.le_refl size
  | @cons o os hlt _ ih =>
      have hhead := hm o List.mem_cons_self
      have hrest := ih fun a ha => hm a (List.mem_cons_of_mem _ ha)
      rw [List.length_cons, Nat.mul_succ]
      omega

theorem congr (h : Tiling len size o os) (hlen : ∀ a ∈ os, len' a = len a) :
    Tiling len' size o os := by
  induction h with
  | nil => exact .nil
  | @cons o os hlt _ ih =>
      refine .cons hlt ?_
      rw [hlen o List.mem_cons_self]
      exact ih fun a ha => hlen a (List.mem_cons_of_mem _ ha)

/-! ## Changes in the middle -/

/-- The front of a tiling leads to its rest, whatever becomes of the rest. -/
theorem splice (h : Tiling len size o (front ++ a :: back)) :
    Tiling len size a (a :: back) ∧ (∀ b ∈ front, b + len b ≤ a) ∧
      ∀ {len' : Nat → Nat} {back' : List Nat}, (∀ b ∈ front, len' b = len b) →
        Tiling len' size a back' → Tiling len' size o (front ++ back') := by
  induction front generalizing o with
  | nil =>
      obtain ⟨rfl, hlt, hrest⟩ := h.eq_of_cons
      exact ⟨h, nofun, fun _ hback => hback⟩
  | cons c front ih =>
      obtain ⟨rfl, hlt, hrest⟩ := h.eq_of_cons
      obtain ⟨hback, hfront, hsplice⟩ := ih hrest
      have hle : o + len o ≤ a := (hrest.mem (List.mem_append_right front List.mem_cons_self)).1
      refine ⟨hback, fun b hb => ?_, fun hlen hback' => .cons hlt ?_⟩
      · rcases List.mem_cons.mp hb with rfl | hb
        · exact hle
        · exact hfront b hb
      · rw [hlen o List.mem_cons_self]
        exact hsplice (fun b hb => hlen b (List.mem_cons_of_mem o hb)) hback'

/-- A tiling with the same front is the same up to its end. -/
theorem follow {l : List Nat} (h : Tiling len size o (front ++ a :: back))
    (hlen : ∀ b ∈ front, len' b = len b) (h' : Tiling len' size o l) :
    ∃ rest, l = front ++ rest ∧ Tiling len' size a rest := by
  induction front generalizing o l with
  | nil =>
      obtain ⟨rfl, -, -⟩ := h.eq_of_cons
      exact ⟨l, rfl, h'⟩
  | cons c front ih =>
      obtain ⟨rfl, hlt, hrest⟩ := h.eq_of_cons
      obtain ⟨l', rfl, -, hl'⟩ := h'.head hlt
      rw [hlen o List.mem_cons_self] at hl'
      obtain ⟨rest, rfl, hr⟩ := ih hrest (fun b hb => hlen b (List.mem_cons_of_mem o hb)) hl'
      exact ⟨rest, rfl, hr⟩

/-- The records behind the first lie behind its end. -/
theorem behind (h : Tiling len size a (a :: back)) (hb : b ∈ back) : a + len a ≤ b :=
  (h.eq_of_cons.2.2.mem hb).1

/-- **A record takes over the one behind it.** -/
theorem merge (h : Tiling len size o (front ++ a :: b :: back))
    (hfront : ∀ c ∈ front, len' c = len c) (ha : len' a = len a + len b)
    (hback : ∀ c ∈ back, len' c = len c) : Tiling len' size o (front ++ a :: back) := by
  obtain ⟨hhere, -, hsplice⟩ := h.splice
  obtain ⟨-, hlt, hrest⟩ := hhere.eq_of_cons
  obtain ⟨hb, -, htail⟩ := hrest.eq_of_cons
  refine hsplice hfront (.cons hlt ?_)
  rw [ha, show a + (len a + len b) = b + len b by omega]
  exact htail.congr hback

/-! ## Walks -/

/-- **The walk from record to record**, with what it remembers of them, stops at the first record
with `p`. -/
theorem loop_find {σ τ ρ ε : Type*} {body : τ → Except ε (Turn τ (Option ρ))} {out : ε} {n : Nat}
    (st : σ → Nat → τ) (next : σ → Nat → σ) (p : Nat → Prop) [DecidablePred p]
    (r : σ → Nat → ρ) (h : Tiling len size o os) (hend : ∀ c, body (st c size) = .ok (.leave none))
    (hturn : ∀ c, ∀ a ∈ os, body (st c a) =
      if p a then .ok (.leave (some (r c a))) else .ok (.again (st (next c a) (a + len a))))
    (hn : os.length < n) (c : σ) : loop body out n (st c o) =
      .ok ((os.find? fun a => p a).map
        (r ((os.takeWhile fun a => ¬ p a).foldl next c))) := by
  obtain ⟨n, rfl⟩ := Nat.exists_eq_add_of_lt hn
  clear hn
  induction h generalizing c with
  | nil => exact loop_of_leave (hend c)
  | @cons o os hlt _ ih =>
      have hhead := hturn c o List.mem_cons_self
      rw [List.length_cons, show os.length + 1 + n + 1 = os.length + n + 1 + 1 by omega]
      by_cases hp : p o
      · rw [if_pos hp] at hhead
        rw [loop_of_leave hhead, List.find?_cons_of_pos (by simpa using hp),
          List.takeWhile_cons_of_neg (by simpa using hp)]
        rfl
      · rw [if_neg hp] at hhead
        rw [loop_of_again hhead, ih (fun c a ha => hturn c a (List.mem_cons_of_mem _ ha)),
          List.find?_cons_of_neg (by simpa using hp),
            List.takeWhile_cons_of_pos (by simpa using hp)]
        rfl

end Tiling

end InfoKernel.Lib
