import Mathlib.Data.List.Nodup
import Mathlib.Data.List.Perm.Basic

/-!
# Association lists with distinct keys

A list of keys with values is searched from the front.  When no key occurs twice, the order does
not matter: a search finds a pair exactly when the pair is in the list.
-/

namespace InfoKernel.Lib

variable {α β : Type*} [BEq α] [LawfulBEq α] {l l' : List (α × β)} {a : α} {b : β}

/-- No key occurs twice. -/
def Distinct (l : List (α × β)) : Prop := (l.map Prod.fst).Nodup

omit [BEq α] [LawfulBEq α] in
theorem distinct_cons : Distinct ((a, b) :: l) ↔ a ∉ l.map Prod.fst ∧ Distinct l := List.nodup_cons

omit [BEq α] [LawfulBEq α] in
theorem Distinct.perm (h : Distinct l) (hp : l.Perm l') : Distinct l' :=
  (hp.map Prod.fst).nodup h

theorem lookup_isNone_iff : l.lookup a = none ↔ a ∉ l.map Prod.fst := by
  induction l with
  | nil => simp only [List.lookup_nil, List.map_nil, List.not_mem_nil, not_false_eq_true]
  | cons p l ih =>
      obtain ⟨c, d⟩ := p
      rw [List.lookup_cons, List.map_cons, List.mem_cons, not_or]
      by_cases hac : a = c
      · rw [hac, beq_self_eq_true]
        exact ⟨nofun, fun h => absurd rfl h.1⟩
      · rw [beq_false_of_ne hac]
        exact ih.trans ⟨fun h => ⟨hac, h⟩, fun h => h.2⟩

/-- **A search finds what is in the list.** -/
theorem lookup_eq_some_iff (h : Distinct l) : l.lookup a = some b ↔ (a, b) ∈ l := by
  induction l with
  | nil => exact ⟨nofun, nofun⟩
  | cons p l ih =>
      obtain ⟨c, d⟩ := p
      obtain ⟨hc, hl⟩ := distinct_cons.mp h
      rw [List.lookup_cons, List.mem_cons, Prod.mk.injEq]
      by_cases hac : a = c
      · rw [hac, beq_self_eq_true]
        have hno : (c, b) ∉ l := fun hm => hc (List.mem_map.mpr ⟨(c, b), hm, rfl⟩)
        exact ⟨fun hd => .inl ⟨rfl, (Option.some.inj hd).symm⟩, fun hd => by
          rcases hd with hd | hd
          · rw [hd.2]
          · exact absurd hd hno⟩
      · rw [beq_false_of_ne hac]
        exact (ih hl).trans ⟨.inr, fun hd => hd.resolve_left fun hd => hac hd.1⟩

/-- What the searches find determines the pairs. -/
theorem perm_of_lookup (h : Distinct l) (h' : Distinct l')
    (hlookup : ∀ a, l'.lookup a = l.lookup a) : l'.Perm l := by
  refine (List.perm_ext_iff_of_nodup (List.Nodup.of_map _ h') (List.Nodup.of_map _ h)).mpr ?_
  rintro ⟨a, b⟩
  rw [← lookup_eq_some_iff h, ← lookup_eq_some_iff h', hlookup a]

/-- The order of the list does not matter. -/
theorem lookup_perm (h : Distinct l) (hp : l.Perm l') (a : α) : l.lookup a = l'.lookup a := by
  refine Option.ext fun b => ?_
  rw [lookup_eq_some_iff h, lookup_eq_some_iff (h.perm hp), hp.mem_iff]

/-! ## Tables in parts -/

section Parts

variable {γ : Type*} {F G : Nat → List γ} {n i : Nat} {p : γ}

/-- Different parts have no key in common. -/
theorem Distinct.part_unique {α β : Type*} {F : Nat → List (α × β)} {j : Nat} {p : α × β}
    (h : Distinct ((List.range n).flatMap F)) (hi : i < n) (hj : j < n) (hpi : p ∈ F i)
    (hpj : p ∈ F j) : i = j := by
  rw [Distinct, List.map_flatMap, List.nodup_flatMap] at h
  have hdisjoint := List.pairwise_iff_getElem.mp h.2
  have hkey : ∀ {i j : Nat}, p ∈ F i → p ∈ F j → i < j → j < n → False := by
    intro i j hpi hpj hlt hj
    have hij := hdisjoint i j (by simpa using Nat.lt_trans hlt hj) (by simpa using hj) hlt
    simp only [Function.onFun, List.getElem_range] at hij
    exact hij (List.mem_map_of_mem hpi) (List.mem_map_of_mem hpj)
  rcases Nat.lt_trichotomy i j with hlt | heq | hlt
  · exact (hkey hpi hpj hlt hj).elim
  · exact heq
  · exact (hkey hpj hpi hlt hi).elim

/-- A table of `n` parts of which one changes has gained `p` when that part has. -/
theorem perm_cons_flatMap_iff (hi : i < n) (h : ∀ j, j < n → j ≠ i → G j = F j) :
    ((List.range n).flatMap G).Perm (p :: (List.range n).flatMap F) ↔ (G i).Perm (p :: F i) := by
  obtain ⟨front, back, hsplit⟩ := List.append_of_mem (List.mem_range.mpr hi)
  have hnodup := List.nodup_range (n := n)
  rw [hsplit, List.nodup_append, List.nodup_cons] at hnodup
  obtain ⟨-, ⟨hback, -⟩, hfront⟩ := hnodup
  have hmem : ∀ j, j ∈ front ∨ j ∈ i :: back → j < n := fun j hj =>
    List.mem_range.mp (hsplit ▸ List.mem_append.mpr hj)
  have hf : front.flatMap G = front.flatMap F := List.flatMap_congr fun j hj =>
    h j (hmem j (.inl hj)) (hfront j hj i List.mem_cons_self)
  have hb : back.flatMap G = back.flatMap F := List.flatMap_congr fun j hj =>
    h j (hmem j (.inr (List.mem_cons_of_mem i hj))) fun heq => hback (heq ▸ hj)
  rw [hsplit, List.flatMap_append, List.flatMap_append, List.flatMap_cons, List.flatMap_cons, hf,
    hb, (List.perm_middle.symm).congr_right, List.perm_append_left_iff, ← List.cons_append,
    List.perm_append_right_iff]

end Parts

end InfoKernel.Lib
