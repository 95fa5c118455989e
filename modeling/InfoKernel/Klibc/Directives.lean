import InfoKernel.Klibc.Printf

/-!
# What a directive reads

A directive reads flags, a width, a precision and a qualifier, and then one more character, which
says what to do.  It looks at nothing behind that character; and how far it reads, and how many
arguments it takes, does not depend on the arguments.

* `directive_reads`: the part of a format that a directive reads before that character;
* `directive_cases`: the format ends there, or the directive takes one argument, or it takes none
and stores the character; * `Comes`: the places in a format that the loop of `vsprintf` comes to,
with the text before them and the number of arguments that have been taken.
-/

namespace InfoKernel.Klibc

/-- The list behind its next `k` arguments. -/
def VaList.drop (args : VaList) (k : Nat) : VaList := fun i => args (i + k)

/-- The arguments that are their own numbers. -/
def VaList.numbered : VaList := fun i => i

/-- The number of arguments that a character or a directive takes. -/
def takes (c : UInt8) (fmt : List UInt8) : Nat :=
  (turn (fun _ => []) c fmt VaList.numbered).args 0

/-- The number of arguments that a format of at most `n` characters takes. -/
def takenFrom : Nat → List UInt8 → Nat
  | _, [] => 0
  | 0, _ :: _ => 0
  | n + 1, c :: fmt =>
      takes c fmt + takenFrom n (turn (fun _ => []) c fmt VaList.numbered).rest

/-- The number of arguments that a format takes. -/
def taken (fmt : List UInt8) : Nat := takenFrom fmt.length fmt

/-- The characters that a format stores. -/
def output (strings : Nat → List UInt8) (fmt : List UInt8) (args : VaList) : List UInt8 :=
  textOf (pieces strings fmt args)

/-- The format from behind the precision on. -/
def behindPrecision (fmt : List UInt8) : List UInt8 :=
  let (flags, fmt) := readFlags fmt ⟨false, false, false, false, false, false, false⟩
  let (_, _, fmt, args) := readWidth fmt flags VaList.numbered
  (readPrecision fmt args).2.1

/-- The characters that make a directive take an argument. -/
def taking : List UInt8 := "csopxXdiun".toList.map chr

/-- The loop of `vsprintf` comes to a place in a format, behind a text and some arguments. -/
inductive Comes (strings : Nat → List UInt8) (args : VaList) (fmt : List UInt8) :
    List UInt8 → Nat → List UInt8 → Prop
  | start : Comes strings args fmt [] 0 fmt
  | next {text : List UInt8} {i : Nat} {c : UInt8} {s : List UInt8} :
      Comes strings args fmt text i (c :: s) →
      Comes strings args fmt (text ++ (turn strings c s (args.drop i)).text) (i + takes c s)
        (turn strings c s (args.drop i)).rest

@[simp] theorem VaList.drop_zero (args : VaList) : args.drop 0 = args := rfl

theorem VaList.drop_drop (args : VaList) (i k : Nat) :
    (args.drop i).drop k = args.drop (i + k) := by
  funext n
  show args (n + k + i) = args (n + (i + k))
  rw [Nat.add_assoc, Nat.add_comm k]

/-! ## Reading -/

section Readers

variable {fmt u s s' : List UInt8} {flags : Flags} {args : VaList} {strings : Nat → List UInt8}

theorem isDigit_ne_percent {c : UInt8} (h : isDigit c = true) : c ≠ chr '%' := by
  rintro rfl
  exact absurd h (by decide)

theorem readFlags_cons (c : UInt8) : (c ≠ chr '%' ∧ ∃ set : Flags → Flags, ∀ s flags,
    readFlags (c :: s) flags = readFlags s (set flags)) ∨
      ∀ s flags, readFlags (c :: s) flags = (flags, c :: s) := by
  by_cases hleft : c = chr '-'
  · exact .inl ⟨hleft ▸ by decide, _, fun s flags => by rw [readFlags, if_pos hleft]⟩
  by_cases hplus : c = chr '+'
  · exact .inl ⟨hplus ▸ by decide, _, fun s flags => by
      rw [readFlags, if_neg hleft, if_pos hplus]⟩
  by_cases hspace : c = chr ' '
  · exact .inl ⟨hspace ▸ by decide, _, fun s flags => by
      rw [readFlags, if_neg hleft, if_neg hplus, if_pos hspace]⟩
  by_cases hspecial : c = chr '#'
  · exact .inl ⟨hspecial ▸ by decide, _, fun s flags => by
      rw [readFlags, if_neg hleft, if_neg hplus, if_neg hspace, if_pos hspecial]⟩
  by_cases hzero : c = chr '0'
  · exact .inl ⟨hzero ▸ by decide, _, fun s flags => by
      rw [readFlags, if_neg hleft, if_neg hplus, if_neg hspace, if_neg hspecial, if_pos hzero]⟩
  exact .inr fun s flags => by
    rw [readFlags, if_neg hleft, if_neg hplus, if_neg hspace, if_neg hspecial, if_neg hzero]

theorem readFlags_reads (fmt : List UInt8) (flags : Flags) :
    ∃ u s flags', fmt = u ++ s ∧ chr '%' ∉ u ∧
      ∀ s', s'.head? = s.head? → readFlags (u ++ s') flags = (flags', s') := by
  induction fmt generalizing flags with
  | nil =>
      refine ⟨[], [], flags, rfl, List.not_mem_nil, fun s' hs' => ?_⟩
      rw [List.head?_eq_none_iff.mp hs']
      rfl
  | cons c fmt ih =>
      obtain ⟨hc, set, hset⟩ | hstop := readFlags_cons c
      · obtain ⟨u, s, flags', hfmt, hu, hread⟩ := ih (set flags)
        refine ⟨c :: u, s, flags', by rw [hfmt, List.cons_append], ?_, fun s' hs' => ?_⟩
        · rw [List.mem_cons]
          exact not_or.mpr ⟨hc.symm, hu⟩
        · rw [List.cons_append, hset, hread s' hs']
      · refine ⟨[], c :: fmt, flags, rfl, List.not_mem_nil, fun s' hs' => ?_⟩
        obtain ⟨t', rfl⟩ := List.head?_eq_some_iff.mp hs'
        exact hstop t' flags

theorem skipAtoi_reads (fmt : List UInt8) (i : Int) :
    ∃ u s n, fmt = u ++ s ∧ chr '%' ∉ u ∧
      ∀ s', s'.head? = s.head? → skipAtoi (u ++ s') i = (n, s') := by
  induction fmt generalizing i with
  | nil =>
      refine ⟨[], [], i, rfl, List.not_mem_nil, fun s' hs' => ?_⟩
      rw [List.head?_eq_none_iff.mp hs']
      rfl
  | cons c fmt ih =>
      by_cases hc : isDigit c = true
      · obtain ⟨u, s, n, hfmt, hu, hread⟩ := ih (i * 10 + c.toNat - 48)
        refine ⟨c :: u, s, n, by rw [hfmt, List.cons_append], ?_, fun s' hs' => ?_⟩
        · rw [List.mem_cons]
          exact not_or.mpr ⟨(isDigit_ne_percent hc).symm, hu⟩
        · rw [List.cons_append, skipAtoi, if_pos hc, hread s' hs']
      · refine ⟨[], c :: fmt, i, rfl, List.not_mem_nil, fun s' hs' => ?_⟩
        obtain ⟨t', rfl⟩ := List.head?_eq_some_iff.mp hs'
        rw [List.nil_append, skipAtoi, if_neg hc]

/-- Digits are read by `skip_atoi`, and at least one is there. -/
theorem skipAtoi_reads_cons {c : UInt8} (hc : isDigit c = true) (fmt : List UInt8) :
    ∃ u s n, c :: fmt = c :: u ++ s ∧ chr '%' ∉ c :: u ∧
      ∀ s', s'.head? = s.head? → skipAtoi (c :: u ++ s') 0 = (n, s') := by
  obtain ⟨u, s, n, hfmt, hu, hread⟩ := skipAtoi_reads fmt (0 * 10 + c.toNat - 48)
  refine ⟨u, s, n, by rw [hfmt, List.cons_append], ?_, fun s' hs' => ?_⟩
  · rw [List.mem_cons]
    exact not_or.mpr ⟨(isDigit_ne_percent hc).symm, hu⟩
  · rw [List.cons_append, skipAtoi, if_pos hc, hread s' hs']

theorem readWidth_reads (fmt : List UInt8) (flags : Flags) :
    (∃ u s width, fmt = u ++ s ∧ chr '%' ∉ u ∧ ∀ s' args, s'.head? = s.head? →
      readWidth (u ++ s') flags args = (width, flags, s', args)) ∨
    (fmt.head? = some (chr '*') ∧ ∀ s' args, s'.head? = some (chr '*') →
      ∃ width flags', readWidth s' flags args = (width, flags', s', args.drop 1)) := by
  cases fmt with
  | nil =>
      refine .inl ⟨[], [], -1, rfl, List.not_mem_nil, fun s' args hs' => ?_⟩
      rw [List.head?_eq_none_iff.mp hs']
      rfl
  | cons c fmt =>
      by_cases hdigit : isDigit c = true
      · obtain ⟨u, s, n, hfmt, hu, hread⟩ := skipAtoi_reads_cons hdigit fmt
        refine .inl ⟨c :: u, s, n, hfmt, hu, fun s' args hs' => ?_⟩
        rw [List.cons_append, readWidth, if_pos hdigit, ← List.cons_append, hread s' hs']
      · by_cases hstar : c = chr '*'
        · refine .inr ⟨by rw [hstar]; rfl, fun s' args hs' => ?_⟩
          obtain ⟨t', rfl⟩ := List.head?_eq_some_iff.mp hs'
          rw [readWidth, if_neg (hstar ▸ hdigit), if_pos rfl]
          split
          · exact ⟨_, _, rfl⟩
          · exact ⟨_, _, rfl⟩
        · refine .inl ⟨[], c :: fmt, -1, rfl, List.not_mem_nil, fun s' args hs' => ?_⟩
          obtain ⟨t', rfl⟩ := List.head?_eq_some_iff.mp hs'
          rw [List.nil_append, readWidth, if_neg hdigit, if_neg hstar]

theorem readPrecision_reads (fmt : List UInt8) :
    (∃ u s precision, fmt = u ++ s ∧ chr '%' ∉ u ∧ ∀ s' args, s'.head? = s.head? →
      readPrecision (u ++ s') args = (precision, s', args)) ∨
    (∃ u s, fmt = u ++ s ∧ chr '%' ∉ u ∧ s.head? = some (chr '*') ∧
      ∀ s' args, s'.head? = some (chr '*') →
        ∃ precision, readPrecision (u ++ s') args = (precision, s', args.drop 1)) := by
  have hpoint : chr '%' ∉ [chr '.'] := by decide
  cases fmt with
  | nil =>
      refine .inl ⟨[], [], -1, rfl, List.not_mem_nil, fun s' args hs' => ?_⟩
      rw [List.head?_eq_none_iff.mp hs']
      rfl
  | cons c fmt =>
      by_cases hc : c = chr '.'
      · rw [hc]
        cases fmt with
        | nil =>
            refine .inl ⟨[chr '.'], [], 0, rfl, hpoint, fun s' args hs' => ?_⟩
            rw [List.head?_eq_none_iff.mp hs']
            rfl
        | cons d fmt =>
            by_cases hdigit : isDigit d = true
            · obtain ⟨u, s, n, hfmt, hu, hread⟩ := skipAtoi_reads_cons hdigit fmt
              refine .inl ⟨chr '.' :: d :: u, s, if n < 0 then 0 else n,
                by rw [List.cons_append, ← hfmt], ?_, fun s' args hs' => ?_⟩
              · rw [List.mem_cons]
                exact not_or.mpr ⟨by decide, hu⟩
              · have hdigits := hread s' hs'
                rw [List.cons_append] at hdigits
                simp only [List.cons_append, readPrecision, if_true, if_pos hdigit, hdigits]
            · by_cases hstar : d = chr '*'
              · refine .inr ⟨[chr '.'], d :: fmt, rfl, hpoint, by rw [hstar]; rfl,
                  fun s' args hs' => ?_⟩
                obtain ⟨t', rfl⟩ := List.head?_eq_some_iff.mp hs'
                rw [hstar] at hdigit
                refine ⟨if asInt (args 0) < 0 then 0 else asInt (args 0), ?_⟩
                simp only [List.cons_append, List.nil_append, readPrecision, if_true,
                  if_neg hdigit]
                rfl
              · refine .inl ⟨[chr '.'], d :: fmt, 0, rfl, hpoint, fun s' args hs' => ?_⟩
                obtain ⟨t', rfl⟩ := List.head?_eq_some_iff.mp hs'
                simp only [List.cons_append, List.nil_append, readPrecision, if_true,
                  if_neg hdigit, if_neg hstar]
                rfl
      · refine .inl ⟨[], c :: fmt, -1, rfl, List.not_mem_nil, fun s' args hs' => ?_⟩
        obtain ⟨t', rfl⟩ := List.head?_eq_some_iff.mp hs'
        rw [List.nil_append]
        simp only [readPrecision, if_neg hc]

theorem skipQualifier_reads (fmt : List UInt8) :
    ∃ u s, fmt = u ++ s ∧ chr '%' ∉ u ∧
      ∀ s', s'.head? = s.head? → skipQualifier (u ++ s') = s' := by
  cases fmt with
  | nil =>
      refine ⟨[], [], rfl, List.not_mem_nil, fun s' hs' => ?_⟩
      rw [List.head?_eq_none_iff.mp hs']
      rfl
  | cons c fmt =>
      by_cases hc : c = chr 'h' ∨ c = chr 'l' ∨ c = chr 'L'
      · refine ⟨[c], fmt, rfl, ?_, fun s' _ => ?_⟩
        · rw [List.mem_singleton]
          rintro rfl
          exact absurd hc (by decide)
        · rw [List.singleton_append, skipQualifier, if_pos hc]
      · refine ⟨[], c :: fmt, rfl, List.not_mem_nil, fun s' hs' => ?_⟩
        obtain ⟨t', rfl⟩ := List.head?_eq_some_iff.mp hs'
        rw [List.nil_append, skipQualifier, if_neg hc]

theorem head?_append_congr (u : List UInt8) (h : s'.head? = s.head?) :
    (u ++ s').head? = (u ++ s).head? := by
  rw [List.head?_append, List.head?_append, h]

/-- At a `*`, there is no precision and no qualifier. -/
theorem readPrecision_star (h : s'.head? = some (chr '*')) (args : VaList) :
    readPrecision s' args = (-1, s', args) ∧ skipQualifier s' = s' := by
  have hpoint : chr '*' ≠ chr '.' := by decide
  have hnone : ¬ (chr '*' = chr 'h' ∨ chr '*' = chr 'l' ∨ chr '*' = chr 'L') := by decide
  obtain ⟨t', rfl⟩ := List.head?_eq_some_iff.mp h
  refine ⟨?_, ?_⟩
  · simp only [readPrecision, if_neg hpoint]
  · rw [skipQualifier, if_neg hnone]

/-- **What a directive reads** in front of the character that says what to do: it looks at no
character behind that one, and goes on there with no argument taken, or at a `*` with one. -/
theorem directive_reads (fmt : List UInt8) : ∃ u s, fmt = u ++ s ∧ chr '%' ∉ u ∧
    ((∃ width precision flags, ∀ s', s'.head? = s.head? →
      skipQualifier (behindPrecision (u ++ s')) = s' ∧ ∀ strings args,
        directive strings (u ++ s') args = convert strings s' width precision flags args) ∨
    (s.head? = some (chr '*') ∧ ∀ s', s'.head? = some (chr '*') →
      skipQualifier (behindPrecision (u ++ s')) = s' ∧ ∀ strings args,
        ∃ width precision flags, directive strings (u ++ s') args =
          convert strings s' width precision flags (args.drop 1))) := by
  obtain ⟨u₁, s₁, flags, rfl, hu₁, hflags⟩ :=
    readFlags_reads fmt ⟨false, false, false, false, false, false, false⟩
  obtain ⟨u₂, s₂, width, rfl, hu₂, hwidth⟩ | ⟨hstar, hwidth⟩ := readWidth_reads s₁ flags
  · obtain ⟨u₃, s₃, precision, rfl, hu₃, hprecision⟩ | ⟨u₃, s₃, rfl, hu₃, hstar, hprecision⟩ :=
      readPrecision_reads s₂
    · obtain ⟨u₄, s, rfl, hu₄, hskip⟩ := skipQualifier_reads s₃
      refine ⟨u₁ ++ (u₂ ++ (u₃ ++ u₄)), s, by simp only [List.append_assoc], ?_, .inl
        ⟨width, precision, flags, fun s' hs' => ?_⟩⟩
      · simp only [List.mem_append]
        exact not_or.mpr ⟨hu₁, not_or.mpr ⟨hu₂, not_or.mpr ⟨hu₃, hu₄⟩⟩⟩
      · have h₃ := head?_append_congr u₄ hs'
        have h₂ := head?_append_congr u₃ h₃
        have h₁ := head?_append_congr u₂ h₂
        simp only [List.append_assoc, behindPrecision, directive, hflags _ h₁, hwidth _ _ h₂,
          hprecision _ _ h₃, hskip _ hs', implies_true, and_self]
    · refine ⟨u₁ ++ (u₂ ++ u₃), s₃, by simp only [List.append_assoc], ?_, .inr
        ⟨hstar, fun s' hs' => ?_⟩⟩
      · simp only [List.mem_append]
        exact not_or.mpr ⟨hu₁, not_or.mpr ⟨hu₂, hu₃⟩⟩
      · have h₂ := head?_append_congr u₃ (hs'.trans hstar.symm)
        have h₁ := head?_append_congr u₂ h₂
        obtain ⟨p, hp⟩ := hprecision s' VaList.numbered hs'
        refine ⟨?_, fun strings args => ?_⟩
        · simp only [List.append_assoc, behindPrecision, hflags _ h₁, hwidth _ _ h₂, hp,
            (readPrecision_star hs' VaList.numbered).2]
        · obtain ⟨q, hq⟩ := hprecision s' args hs'
          refine ⟨width, q, flags, ?_⟩
          simp only [List.append_assoc, directive, hflags _ h₁, hwidth _ _ h₂, hq,
            (readPrecision_star hs' VaList.numbered).2]
  · refine ⟨u₁, s₁, rfl, hu₁, .inr ⟨hstar, fun s' hs' => ?_⟩⟩
    have h₁ := hs'.trans hstar.symm
    obtain ⟨w, flags', hw⟩ := hwidth s' VaList.numbered hs'
    refine ⟨?_, fun strings args => ?_⟩
    · simp only [behindPrecision, hflags _ h₁, hw, (readPrecision_star hs' _).1,
        (readPrecision_star hs' VaList.numbered).2]
    · obtain ⟨v, flags'', hv⟩ := hwidth s' args hs'
      refine ⟨v, -1, flags'', ?_⟩
      simp only [directive, hflags _ h₁, hv, (readPrecision_star hs' _).1,
        (readPrecision_star hs' VaList.numbered).2]

end Readers

/-! ## What a directive does -/

section Shape

variable {c x : UInt8} {fmt s : List UInt8} {width precision : Int} {flags : Flags}

theorem mem_taking : x ∈ taking ↔ x = chr 'c' ∨ x = chr 's' ∨ x = chr 'o' ∨ x = chr 'p' ∨
    x = chr 'x' ∨ x = chr 'X' ∨ x = chr 'd' ∨ x = chr 'i' ∨ x = chr 'u' ∨ x = chr 'n' := by
  have hlist : taking = [chr 'c', chr 's', chr 'o', chr 'p', chr 'x', chr 'X', chr 'd', chr 'i',
      chr 'u', chr 'n'] := rfl
  simp only [hlist, List.mem_cons, List.not_mem_nil, or_false]

/-- A character that takes an argument stores what depends on this argument. -/
theorem convert_taking (hx : x ∈ taking) : ∃ render : (Nat → List UInt8) → Nat →
    List UInt8 × Option Nat, ∀ strings s args, convert strings (x :: s) width precision flags args =
      ⟨(render strings (args 0)).1, (render strings (args 0)).2, s, args.drop 1⟩ := by
  refine ⟨fun strings word =>
    ((convert strings [x] width precision flags fun _ => word).text,
      (convert strings [x] width precision flags fun _ => word).count), fun strings s args => ?_⟩
  rw [mem_taking] at hx
  rcases hx with rfl | rfl | rfl | rfl | rfl | rfl | rfl | rfl | rfl | rfl
  iterate 3 rfl
  · simp only [convert]
    split_ifs
    all_goals rfl
  iterate 6 rfl

/-- Any other character is stored, behind a `%` if it is none. -/
theorem convert_keeping (hx : x ∉ taking) (strings : Nat → List UInt8) (s : List UInt8)
    (args : VaList) : convert strings (x :: s) width precision flags args =
      ⟨(if x = chr '%' then [] else [chr '%']) ++ [x], none, s, args⟩ := by
  simp only [mem_taking, not_or] at hx
  simp only [convert, hx, or_self, if_false]

/-- **What a directive does**: the format ends before it says so, or it takes one argument, or it
takes none and the character that it ends with is stored. -/
theorem directive_cases (fmt : List UInt8) : ∃ u, chr '%' ∉ u ∧
    ((fmt = u ∧ ∀ strings args, directive strings fmt args = ⟨[chr '%'], none, [], args⟩) ∨
    (∃ x s, fmt = u ++ x :: s ∧ (x ∈ taking ∨ x = chr '*') ∧
      ∃ render : (Nat → List UInt8) → Nat → List UInt8 × Option Nat, ∀ strings args s',
        directive strings (u ++ x :: s') args =
          ⟨(render strings (args 0)).1, (render strings (args 0)).2, s', args.drop 1⟩) ∨
    (∃ x s, fmt = u ++ x :: s ∧ x ∉ taking ∧ ∀ strings args s',
      directive strings (u ++ x :: s') args =
        ⟨(if x = chr '%' then [] else [chr '%']) ++ [x], none, s', args⟩)) := by
  obtain ⟨u, s, rfl, hu, ⟨width, precision, flags, hread⟩ | ⟨hstar, hread⟩⟩ := directive_reads fmt
  · refine ⟨u, hu, ?_⟩
    cases s with
    | nil =>
        refine .inl ⟨List.append_nil u, fun strings args => ?_⟩
        rw [(hread [] rfl).2 strings args]
        rfl
    | cons x s =>
        by_cases hx : x ∈ taking
        · obtain ⟨render, hrender⟩ := @convert_taking x width precision flags hx
          refine .inr (.inl ⟨x, s, rfl, .inl hx, render, fun strings args s' => ?_⟩)
          rw [(hread (x :: s') rfl).2 strings args, hrender]
        · refine .inr (.inr ⟨x, s, rfl, hx, fun strings args s' => ?_⟩)
          rw [(hread (x :: s') rfl).2 strings args, convert_keeping hx]
  · have hkeep : chr '*' ∉ taking := by decide
    obtain ⟨s, rfl⟩ := List.head?_eq_some_iff.mp hstar
    refine ⟨u, hu, .inr (.inl ⟨chr '*', s, rfl, .inr rfl, fun _ _ => ([chr '%', chr '*'], none),
      fun strings args s' => ?_⟩)⟩
    obtain ⟨w, p, f, hdirective⟩ := (hread (chr '*' :: s') rfl).2 strings args
    rw [hdirective, convert_keeping hkeep]
    rfl

/-- **What is done with a character or a directive** does not depend on what follows, and on the
arguments only if one is taken; if the format ends in a directive, its `%` is stored. -/
theorem turn_cases (c : UInt8) (fmt : List UInt8) :
    (∃ u s, ∃ render : (Nat → List UInt8) → VaList → List UInt8 × Option Nat, fmt = u ++ s ∧
      (∀ strings (args args' : VaList), (0 < takes c fmt → args 0 = args' 0) →
        render strings args = render strings args') ∧
      ∀ s' strings (args : VaList), turn strings c (u ++ s') args =
        ⟨(render strings args).1, (render strings args).2, s', args.drop (takes c fmt)⟩) ∨
    ∀ strings args, turn strings c fmt args = ⟨[chr '%'], none, [], args⟩ := by
  by_cases hc : c = chr '%'
  · obtain ⟨u, -, ⟨-, hend⟩ | ⟨x, s, hfmt, -, render, htake⟩ | ⟨x, s, hfmt, -, hkeep⟩⟩ :=
      directive_cases fmt
    · exact .inr fun strings args => (if_pos hc).trans (hend strings args)
    · have htakes : takes c fmt = 1 := by
        rw [takes, turn, if_pos hc, hfmt, htake]
        rfl
      refine .inl ⟨u ++ [x], s, fun strings args => render strings (args 0),
        by rw [hfmt, List.append_assoc, List.singleton_append], fun strings args args' heq => ?_,
        fun s' strings args => ?_⟩
      · have hfirst : args 0 = args' 0 := heq (by rw [htakes]; exact Nat.one_pos)
        exact congrArg (render strings) hfirst
      · rw [turn, if_pos hc, List.append_assoc, List.singleton_append, htake, htakes]
    · have htakes : takes c fmt = 0 := by
        rw [takes, turn, if_pos hc, hfmt, hkeep]
        rfl
      refine .inl ⟨u ++ [x], s, fun _ _ => ((if x = chr '%' then [] else [chr '%']) ++ [x], none),
        by rw [hfmt, List.append_assoc, List.singleton_append], fun _ _ _ _ => rfl,
        fun s' strings args => ?_⟩
      rw [turn, if_pos hc, List.append_assoc, List.singleton_append, hkeep, htakes]
      rfl
  · have htakes : takes c fmt = 0 := by
      rw [takes, turn, if_neg hc]
      rfl
    refine .inl ⟨[], fmt, fun _ _ => ([c], none), rfl,
      fun _ _ _ _ => rfl, fun s' strings args => ?_⟩
    rw [turn, if_neg hc, htakes]
    rfl

end Shape

/-! ## Runs -/

section Runs

variable {strings : Nat → List UInt8} {args args' : VaList} {c : UInt8} {fmt s text : List UInt8}
  {i : Nat}

theorem turn_rest (strings : Nat → List UInt8) (c : UInt8) (fmt : List UInt8) (args : VaList) :
    (turn strings c fmt args).rest = (turn (fun _ => []) c fmt VaList.numbered).rest := by
  obtain ⟨u, s, render, hfmt, -, hturn⟩ | hend := turn_cases c fmt
  · rw [hfmt, hturn, hturn]
  · rw [hend, hend]

theorem turn_args (strings : Nat → List UInt8) (c : UInt8) (fmt : List UInt8) (args : VaList) :
    (turn strings c fmt args).args = args.drop (takes c fmt) := by
  obtain ⟨u, s, render, hfmt, -, hturn⟩ | hend := turn_cases c fmt
  · have hsame := hturn s strings args
    rw [← hfmt] at hsame
    rw [hsame]
  · have htakes : takes c fmt = 0 := by
      rw [takes, hend]
      rfl
    rw [hend, htakes]
    rfl

theorem turn_text_congr (h : 0 < takes c fmt → args 0 = args' 0) :
    (turn strings c fmt args).text = (turn strings c fmt args').text := by
  obtain ⟨u, s, render, hfmt, hsame, hturn⟩ | hend := turn_cases c fmt
  · have hargs := hturn s strings args
    have hargs' := hturn s strings args'
    rw [← hfmt] at hargs hargs'
    rw [hargs, hargs']
    exact congrArg Prod.fst (hsame strings args args' h)
  · rw [hend, hend]

/-- More fuel than characters cuts the same pieces. -/
theorem piecesFrom_eq {n m : Nat} (hn : fmt.length ≤ n) (hm : fmt.length ≤ m) (args : VaList) :
    piecesFrom strings n fmt args = piecesFrom strings m fmt args := by
  induction n generalizing m fmt args with
  | zero =>
      rw [List.eq_nil_of_length_eq_zero (Nat.le_zero.mp hn)]
      cases m <;> rfl
  | succ n ih =>
      cases fmt with
      | nil => cases m <;> rfl
      | cons c fmt =>
          obtain ⟨m, rfl⟩ := Nat.exists_eq_succ_of_ne_zero (Nat.ne_zero_of_lt hm)
          have hrest := @length_turn_le strings c fmt args
          rw [piecesFrom, piecesFrom, ih (hrest.trans (Nat.le_of_succ_le_succ hn))
            (hrest.trans (Nat.le_of_succ_le_succ hm))]

theorem takenFrom_eq {n m : Nat} (hn : fmt.length ≤ n) (hm : fmt.length ≤ m) :
    takenFrom n fmt = takenFrom m fmt := by
  induction n generalizing m fmt with
  | zero =>
      rw [List.eq_nil_of_length_eq_zero (Nat.le_zero.mp hn)]
      cases m <;> rfl
  | succ n ih =>
      cases fmt with
      | nil => cases m <;> rfl
      | cons c fmt =>
          obtain ⟨m, rfl⟩ := Nat.exists_eq_succ_of_ne_zero (Nat.ne_zero_of_lt hm)
          have hrest := @length_turn_le (fun _ => []) c fmt VaList.numbered
          rw [takenFrom, takenFrom, ih (hrest.trans (Nat.le_of_succ_le_succ hn))
            (hrest.trans (Nat.le_of_succ_le_succ hm))]

@[simp] theorem output_nil (args : VaList) : output strings [] args = [] := rfl

@[simp] theorem taken_nil : taken [] = 0 := rfl

/-- The characters of a format are those of its first piece and those of what is behind it. -/
theorem output_cons (c : UInt8) (fmt : List UInt8) (args : VaList) :
    output strings (c :: fmt) args = (turn strings c fmt args).text ++
      output strings (turn strings c fmt args).rest (args.drop (takes c fmt)) := by
  rw [output, output, pieces, pieces, List.length_cons, piecesFrom, textOf_cons,
    ← turn_args strings]
  rw [piecesFrom_eq (length_turn_le c fmt args) le_rfl]

theorem taken_cons (strings : Nat → List UInt8) (c : UInt8) (fmt : List UInt8) (args : VaList) :
    taken (c :: fmt) = takes c fmt + taken (turn strings c fmt args).rest := by
  rw [taken, taken, List.length_cons, takenFrom, turn_rest strings c fmt args]
  rw [takenFrom_eq (@length_turn_le (fun _ => []) c fmt VaList.numbered) le_rfl]

/-- What a format stores and takes that begins with a directive. -/
theorem output_directive {rest : List UInt8} {k : Nat} (h : ∀ strings args,
    (directive strings fmt args).rest = rest ∧ (directive strings fmt args).args = args.drop k) :
    taken (chr '%' :: fmt) = k + taken rest ∧ ∀ strings args, output strings (chr '%' :: fmt) args =
      (directive strings fmt args).text ++ output strings rest (args.drop k) := by
  have hturn (strings : Nat → List UInt8) (args : VaList) :
      turn strings (chr '%') fmt args = directive strings fmt args := if_pos rfl
  have htakes : takes (chr '%') fmt = k := by
    rw [takes, hturn, (h _ _).2]
    exact Nat.zero_add k
  refine ⟨?_, fun strings args => ?_⟩
  · rw [taken_cons (fun _ => []) _ _ VaList.numbered, htakes, hturn, (h _ _).1]
  · rw [output_cons, htakes, hturn, (h _ _).1]

/-- Characters that are no `%` are stored. -/
theorem output_append (h : chr '%' ∉ s) (fmt : List UInt8) (args : VaList) :
    output strings (s ++ fmt) args = s ++ output strings fmt args ∧ taken (s ++ fmt) =
      taken fmt := by
  induction s with
  | nil => exact ⟨rfl, rfl⟩
  | cons c s ih =>
      rw [List.mem_cons, not_or] at h
      have hturn (strings : Nat → List UInt8) (args : VaList) :
          turn strings c (s ++ fmt) args = ⟨[c], none, s ++ fmt, args⟩ := if_neg (Ne.symm h.1)
      have htakes : takes c (s ++ fmt) = 0 := by
        rw [takes, hturn]
        rfl
      refine ⟨?_, ?_⟩
      · rw [List.cons_append, output_cons, htakes, hturn, VaList.drop_zero, (ih h.2).1]
        rfl
      · rw [List.cons_append, taken_cons strings _ _ args, htakes, hturn, Nat.zero_add, (ih h.2).2]

/-- What is stored behind a place in the format, and taken. -/
theorem Comes.output_eq (h : Comes strings args fmt text i s) :
    output strings fmt args = text ++ output strings s (args.drop i) ∧
      taken fmt = i + taken s := by
  induction h with
  | start => exact ⟨rfl, (Nat.zero_add _).symm⟩
  | @next text i c s _ ih =>
      rw [ih.1, ih.2, output_cons, taken_cons strings c s (args.drop i), VaList.drop_drop,
        List.append_assoc, Nat.add_assoc]
      exact ⟨rfl, rfl⟩

/-- Only the arguments that have been taken matter. -/
theorem Comes.congr (h : Comes strings args fmt text i s) (heq : ∀ j < i, args j = args' j) :
    Comes strings args' fmt text i s := by
  induction h with
  | start => exact Comes.start
  | @next text i c s _ ih =>
      have hnext := (ih fun j hj => heq j (Nat.lt_add_right _ hj)).next
      have htext : (turn strings c s (args'.drop i)).text = (turn strings c s (args.drop i)).text :=
        turn_text_congr fun hpos => by
          show args' (0 + i) = args (0 + i)
          rw [Nat.zero_add, heq i (Nat.lt_add_of_pos_right hpos)]
      rw [htext, turn_rest, ← turn_rest strings c s (args.drop i)] at hnext
      exact hnext

/-- What follows does not matter. -/
theorem Comes.replace {front behind place : List UInt8} (h : Comes strings args fmt text i place)
    (hfmt : fmt = front ++ behind) (hbehind : behind ≠ []) (behind' middle : List UInt8)
    (hplace : place = middle ++ behind) :
    Comes strings args (front ++ behind') text i (middle ++ behind') := by
  induction h generalizing middle with
  | start =>
      rw [hfmt, List.append_cancel_right_eq] at hplace
      rw [hplace]
      exact Comes.start
  | @next text i c s _ ih =>
      obtain ⟨u, s', render, rfl, -, hturn⟩ | hend := turn_cases c s
      · rw [hturn] at hplace
        dsimp only at hplace
        have hbefore := ih (c :: (u ++ middle)) (by rw [hplace]; simp)
        rw [List.cons_append, List.append_assoc] at hbefore
        have hnext := hbefore.next
        have hpiece := hturn (middle ++ behind') (fun _ => []) VaList.numbered
        have htakes : takes c (u ++ (middle ++ behind')) = takes c (u ++ s') :=
          (congrArg (fun p => Piece.args p 0) hpiece).trans (Nat.zero_add _)
        rw [hturn, htakes] at hnext
        rw [hturn]
        exact hnext
      · rw [hend] at hplace
        exact absurd (List.append_eq_nil_iff.mp hplace.symm).2 hbehind

/-- Two formats that store the same store the same characters. -/
theorem output_of_vsprintf {fmt' : List UInt8}
    (h : vsprintf strings fmt args = vsprintf strings fmt' args') :
    output strings fmt args = output strings fmt' args' := by
  rw [vsprintf_eq, vsprintf_eq] at h
  have hstores := congrArg (fun r => Out.stores r.2) (Except.ok.inj h)
  dsimp only [Out.terminate] at hstores
  rw [stores_ofPieces, stores_ofPieces] at hstores
  have hbytes := congrArg (List.map Prod.fst) hstores
  rw [List.map_append, List.map_append, List.zipIdx_map_fst, List.zipIdx_map_fst] at hbytes
  exact List.append_cancel_right hbytes

end Runs

end InfoKernel.Klibc
