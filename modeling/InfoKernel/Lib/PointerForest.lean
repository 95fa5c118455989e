import Mathlib.Data.List.Basic
import Mathlib.Tactic.Common

/-!
# Forests of pointer blocks

A memory of blocks holds words, and a word may be the number of another block, `0` standing for
none.  A family of roots, each with a depth, spans a forest: the reference at the position
`(r, is)` is what is reached from root `r` by reading the words with the indices `is` one behind
the other.  An inner position is one above the depth of its root; what it refers to is a pointer
block.

What is proved is what changing one word does.  When no pointer block is referred to twice, storing
a word in one of them changes the reference at the position of that word and, for a word that is
no pointer block of old and holds no references itself, at no other (`Forest.updates_word`); and
likewise for a root (`Forest.updates_root`).
-/

namespace InfoKernel.Lib

variable {ι : Type*}

/-- Words, by block and index. -/
abbrev Words := Nat → Nat → Nat

/-- What is reached from block `x` along the indices. -/
def walk (mem : Words) (x : Nat) : List Nat → Nat
  | [] => x
  | i :: is => if x = 0 then 0 else walk mem (mem x i) is

/-- The roots there are, how deep each of them is, and how many words a block has. -/
structure Shape (ι : Type*) where
  arity : Nat
  root : ι → Prop
  depth : ι → Nat

/-- Positions: a root, and indices into the blocks below it. -/
structure Shape.Pos (S : Shape ι) (p : ι × List Nat) : Prop where
  root : S.root p.1
  index : ∀ i ∈ p.2, i < S.arity
  length : p.2.length ≤ S.depth p.1

/-- Positions of pointer blocks. -/
structure Shape.Inner (S : Shape ι) (p : ι × List Nat) : Prop where
  pos : S.Pos p
  lt : p.2.length < S.depth p.1

/-- Positions at the depth of their root. -/
structure Shape.Leaf (S : Shape ι) (p : ι × List Nat) : Prop where
  pos : S.Pos p
  eq : p.2.length = S.depth p.1

/-- A memory and the roots in it. -/
structure Forest (ι : Type*) where
  mem : Words
  root : ι → Nat

/-- The reference at a position. -/
def Forest.ref (F : Forest ι) (p : ι × List Nat) : Nat := walk F.mem (F.root p.1) p.2

/-- No two of the positions refer to the same block. -/
def Forest.Unshared (F : Forest ι) (K : ι × List Nat → Prop) : Prop :=
  ∀ p q, K p → K q → F.ref p ≠ 0 → F.ref p = F.ref q → p = q

/-- The reference at one position becomes `v`, and the others stay. -/
def Forest.Updates (S : Shape ι) (F F' : Forest ι) (p : ι × List Nat) (v : Nat) : Prop :=
  (S.Pos p → F'.ref p = v) ∧ ∀ q, S.Pos q → q ≠ p → F'.ref q = F.ref q

/-! ## Walks -/

section Walk

variable {mem mem' : Words} {x i : Nat} {is js : List Nat}

@[simp] theorem walk_nil : walk mem x [] = x := rfl

@[simp] theorem walk_zero : walk mem 0 is = 0 := by
  cases is with
  | nil => rfl
  | cons i is => rw [walk, if_pos rfl]

theorem walk_cons (h : x ≠ 0) : walk mem x (i :: is) = walk mem (mem x i) is := by
  rw [walk, if_neg h]

theorem walk_append : walk mem x (is ++ js) = walk mem (walk mem x is) js := by
  induction is generalizing x with
  | nil => rfl
  | cons i is ih =>
      by_cases hx : x = 0
      · rw [hx, walk_zero, walk_zero, walk_zero]
      · rw [List.cons_append, walk_cons hx, walk_cons hx, ih]

/-- The words that a walk reads determine where it leads. -/
theorem walk_congr (h : ∀ js i, js ++ [i] <+: is → walk mem x js ≠ 0 →
    mem' (walk mem x js) i = mem (walk mem x js) i) : walk mem' x is = walk mem x is := by
  induction is generalizing x with
  | nil => rfl
  | cons i is ih =>
      by_cases hx : x = 0
      · rw [hx, walk_zero, walk_zero]
      · have hword : mem' x i = mem x i :=
          h [] i ⟨is, rfl⟩ hx
        rw [walk_cons hx, walk_cons hx, hword]
        refine ih fun js j hpre hne => ?_
        have hstep : walk mem x (i :: js) = walk mem (mem x i) js := walk_cons hx
        have hpre' : (i :: js) ++ [j] <+: i :: is := List.cons_prefix_cons.mpr ⟨rfl, hpre⟩
        have hword := h (i :: js) j hpre' (by rwa [hstep])
        rwa [hstep] at hword

end Walk

/-! ## Positions -/

namespace Shape

variable {S : Shape ι} {r : ι} {is js : List Nat} {i : Nat}

theorem Pos.of_prefix (h : S.Pos (r, is)) (hpre : js <+: is) : S.Pos (r, js) where
  root := h.root
  index i hi := h.index i (hpre.subset hi)
  length := Nat.le_trans hpre.length_le h.length

theorem Pos.inner_of_prefix (h : S.Pos (r, is)) (hpre : js ++ [i] <+: is) : S.Inner (r, js) where
  pos := h.of_prefix ((List.prefix_append js [i]).trans hpre)
  lt := by
    have hlen := hpre.length_le
    have hle : is.length ≤ S.depth r := h.length
    rw [List.length_append, List.length_singleton] at hlen
    show js.length < S.depth r
    omega

theorem Pos.lt_of_prefix (h : S.Pos (r, is)) (hpre : js ++ [i] <+: is) : i < S.arity :=
  h.index i (hpre.subset (List.mem_append_right _ (List.mem_singleton.mpr rfl)))

theorem Pos.inner_or_leaf {p : ι × List Nat} (h : S.Pos p) : S.Inner p ∨ S.Leaf p := by
  rcases Nat.lt_or_eq_of_le h.length with hlt | heq
  · exact .inl ⟨h, hlt⟩
  · exact .inr ⟨h, heq⟩

theorem Inner.pos_snoc (h : S.Inner (r, js)) (hi : i < S.arity) : S.Pos (r, js ++ [i]) where
  root := h.pos.root
  index j hj := by
    rcases List.mem_append.mp hj with hj | hj
    · exact h.pos.index j hj
    · rw [List.mem_singleton.mp hj]
      exact hi
  length := by
    rw [List.length_append, List.length_singleton]
    exact h.lt

theorem Inner.snoc (h : S.Inner (r, js)) (hi : i < S.arity) (hlt : js.length + 1 < S.depth r) :
    S.Inner (r, js ++ [i]) where
  pos := h.pos_snoc hi
  lt := by
    rw [List.length_append, List.length_singleton]
    exact hlt

theorem Inner.leaf_append (h : S.Inner (r, js)) (his : ∀ i ∈ is, i < S.arity)
    (hlen : js.length + is.length = S.depth r) : S.Leaf (r, js ++ is) := by
  have heq : (js ++ is).length = S.depth r := List.length_append.trans hlen
  refine ⟨⟨h.pos.root, fun i hi => ?_, Nat.le_of_eq heq⟩, heq⟩
  rcases List.mem_append.mp hi with hi | hi
  · exact h.pos.index i hi
  · exact his i hi

theorem Inner.not_leaf {p : ι × List Nat} (h : S.Inner p) : ¬ S.Leaf p := by
  intro hl
  have := h.lt
  have := hl.eq
  omega

end Shape

/-! ## Changing one word, or one root -/

namespace Forest

variable {S : Shape ι} {F F' : Forest ι} {r : ι} {is js : List Nat} {i v : Nat}

/-- What is below a position. -/
theorem ref_append : F.ref (r, is ++ js) = walk F.mem (F.ref (r, is)) js := walk_append

/-- The words of pointer blocks determine the references. -/
theorem ref_congr (hroot : F'.root r = F.root r) (h : S.Pos (r, is))
    (hmem : ∀ js i, js ++ [i] <+: is → S.Inner (r, js) → F.ref (r, js) ≠ 0 → i < S.arity →
      F'.mem (F.ref (r, js)) i = F.mem (F.ref (r, js)) i) : F'.ref (r, is) = F.ref (r, is) := by
  rw [ref, ref, hroot]
  refine walk_congr fun js i hpre hne => ?_
  exact hmem js i hpre (h.inner_of_prefix hpre) hne (h.lt_of_prefix hpre)

/-- The memory may change where there are no pointer blocks. -/
theorem ref_of_same (hroot : F'.root = F.root)
    (hmem : ∀ p, S.Inner p → F.ref p ≠ 0 → ∀ i, i < S.arity →
      F'.mem (F.ref p) i = F.mem (F.ref p) i) {p : ι × List Nat} (hp : S.Pos p) :
    F'.ref p = F.ref p :=
  ref_congr (congrFun hroot p.1) hp fun _ i _ hin hne hi =>
    hmem _ hin hne i hi

/-- **Changing a word.**  The word with index `i` of the pointer block at `(r, js)` becomes `v`.
The reference at `(r, js ++ [i])` becomes `v`, and the others stay, when that position is a leaf
or when there was no reference and `v` holds none. -/
theorem updates_word (hroot : F'.root = F.root) (hun : F.Unshared S.Inner) (hin : S.Inner (r, js))
    (hne : F.ref (r, js) ≠ 0)
    (hmem : ∀ p, S.Inner p → F.ref p ≠ 0 → ∀ j, j < S.arity →
      F'.mem (F.ref p) j = if F.ref p = F.ref (r, js) ∧ j = i then v else F.mem (F.ref p) j)
    (hi : i < S.arity) (hbelow : S.depth r ≤ js.length + 1 ∨
      (F.ref (r, js ++ [i]) = 0 ∧ ∀ j, j < S.arity → F'.mem v j = 0)) :
    Updates S F F' (r, js ++ [i]) v := by
  have hblock : ∀ ks, S.Pos (r, ks) → ¬ js ++ [i] <+: ks → F'.ref (r, ks) = F.ref (r, ks) := by
    intro ks hks hpre
    refine ref_congr (congrFun hroot r) hks fun ls j hls hinner hne' hj => ?_
    rw [hmem _ hinner hne' j hj, if_neg]
    rintro ⟨hp, rfl⟩
    have hp := hun _ _ hinner hin hne' hp
    injection hp with _ hp
    exact hpre (hp ▸ hls)
  have hx : F'.ref (r, js) = F.ref (r, js) := by
    refine hblock js hin.pos fun hpre => ?_
    have hlen := hpre.length_le
    rw [List.length_append, List.length_singleton] at hlen
    omega
  have hword : F'.mem (F.ref (r, js)) i = v := by
    rw [hmem _ hin hne i hi, if_pos ⟨rfl, rfl⟩]
  have hself : F'.ref (r, js ++ [i]) = v := by
    rw [ref_append, hx, walk_cons hne, hword, walk_nil]
  refine ⟨fun _ => hself, ?_⟩
  rintro ⟨t, ks⟩ hks hnot
  by_cases hsub : t = r ∧ js ++ [i] <+: ks
  · obtain ⟨rfl, rest, rfl⟩ := hsub
    rcases hbelow with hdepth | ⟨hzero, hwords⟩
    · have hlen : (js ++ [i] ++ rest).length ≤ S.depth t := hks.length
      rw [List.length_append, List.length_append, List.length_singleton] at hlen
      have hrest : rest = [] := List.eq_nil_of_length_eq_zero (by omega)
      rw [hrest, List.append_nil] at hnot
      exact absurd rfl hnot
    · have hold : F.ref (t, js ++ [i] ++ rest) = walk F.mem (F.ref (t, js ++ [i])) rest :=
        ref_append
      have hnew : F'.ref (t, js ++ [i] ++ rest) = walk F'.mem (F'.ref (t, js ++ [i])) rest :=
        ref_append
      rw [hold, hnew, hself, hzero, walk_zero]
      cases rest with
      | nil =>
          rw [List.append_nil] at hnot
          exact absurd rfl hnot
      | cons j rest =>
          have hj : j < S.arity := hks.index j
            (List.mem_append_right _ List.mem_cons_self)
          rw [walk, hwords j hj, walk_zero, ite_self]
  · by_cases ht : t = r
    · subst ht
      exact hblock ks hks fun hpre => hsub ⟨rfl, hpre⟩
    · refine ref_congr (congrFun hroot t) hks fun ls j hls hinner hne' hj => ?_
      rw [hmem _ hinner hne' j hj, if_neg]
      rintro ⟨hp, -⟩
      have hp := hun _ _ hinner hin hne' hp
      injection hp with hp _
      exact ht hp

/-- **Changing a root.** -/
theorem updates_root (hroot : ∀ t, t ≠ r → F'.root t = F.root t) (hself : F'.root r = v)
    (hmem : ∀ p, S.Inner p → F.ref p ≠ 0 → ∀ j, j < S.arity →
      F'.mem (F.ref p) j = F.mem (F.ref p) j)
    (hbelow : S.depth r = 0 ∨ (F.root r = 0 ∧
      ∀ j, j < S.arity → v ≠ 0 → F'.mem v j = 0)) :
    Updates S F F' (r, []) v := by
  refine ⟨fun _ => hself, ?_⟩
  rintro ⟨t, ks⟩ hks hnot
  by_cases ht : t = r
  · subst ht
    cases ks with
    | nil => exact absurd rfl hnot
    | cons j rest =>
        rcases hbelow with hdepth | ⟨hzero, hwords⟩
        · have hlen : rest.length + 1 ≤ S.depth t := hks.length
          omega
        · have hj : j < S.arity := hks.index j List.mem_cons_self
          rw [ref, ref, hself, hzero, walk_zero]
          by_cases hv : v = 0
          · rw [hv, walk_zero]
          · rw [walk_cons hv, hwords j hj hv, walk_zero]
  · exact ref_congr (hroot t ht) hks fun _ j _ hinner hne hj => hmem _ hinner hne j hj

/-- Nothing is shared after an update with a block that was not referred to. -/
theorem Updates.unshared {p : ι × List Nat} {K : ι × List Nat → Prop} (h : Updates S F F' p v)
    (hK : ∀ q, K q → S.Pos q) (hun : F.Unshared K)
    (hv : K p → v = 0 ∨ ∀ q, K q → F.ref q ≠ v) : F'.Unshared K := by
  intro a b ha hb hne heq
  by_cases hap : a = p
  · by_cases hbp : b = p
    · rw [hap, hbp]
    · rw [hap] at hne heq ha
      rw [h.1 (hK _ ha)] at hne heq
      rw [h.2 b (hK _ hb) hbp] at heq
      rcases hv ha with hv | hv
      · exact absurd hv hne
      · exact absurd heq.symm (hv b hb)
  · rw [h.2 a (hK _ ha) hap] at hne heq
    by_cases hbp : b = p
    · rw [hbp] at heq hb
      rw [h.1 (hK _ hb)] at heq
      rcases hv hb with hv | hv
      · rw [hv] at heq
        exact absurd heq hne
      · exact absurd heq (hv a ha)
    · rw [h.2 b (hK _ hb) hbp] at heq
      exact hun a b ha hb hne heq

end Forest

end InfoKernel.Lib
