import InfoKernel.Klibc.Directives

/-!
# A width or a precision from an argument

At a `*` the width or the precision is taken from the arguments, but `fmt` stays at the `*`, where
`skip_atoi` would have moved it behind the digits.  So the `*` is the character that says what to
do: it is stored behind a `%`, and what follows is text.

With the digits in place of the `*`, the same format takes one argument less, or prints something
else: `star_never`, for every format and every argument list.
-/

namespace InfoKernel.Klibc

/-- The characters of the flags. -/
def flagChars : List UInt8 := "-+ #0".toList.map chr

/-- The decimal digits of a number. -/
def decimal (n : Nat) : List UInt8 :=
  if n = 0 then [chr '0'] else ((Nat.digits 10 n).map fun d => UInt8.ofNat (48 + d)).reverse

example : decimal 120 = "120".toList.map chr := by decide

/-- The list without argument `i`. -/
def VaList.remove (args : VaList) (i : Nat) : VaList := fun j =>
    if j < i then args j else args (j + 1)

/-- What stands between the `%` and a `*`, and how many arguments there are before the one of the
`*`: flags, if it is the width, and flags, a width and a point, if it is the precision. -/
inductive Front : List UInt8 → Nat → Prop
  | width {flags : List UInt8} : (∀ c ∈ flags, c ∈ flagChars) → Front flags 0
  | precision {flags width : List UInt8} : (∀ c ∈ flags, c ∈ flagChars) →
      (∀ c ∈ width, isDigit c = true) → Front (flags ++ (width ++ [chr '.'])) 0
  | both {flags : List UInt8} : (∀ c ∈ flags, c ∈ flagChars) → Front (flags ++ [chr '*', chr '.']) 1

/-- Two calls of `vsprintf` do the same, but that the first takes one argument more. -/
def SameButOne (strings : Nat → List UInt8) (starred : List UInt8) (args : VaList)
    (written : List UInt8) (args' : VaList) : Prop :=
  vsprintf strings starred args = vsprintf strings written args' ∧
    taken starred = taken written + 1

section Star

variable {strings : Nat → List UInt8} {args : VaList}
  {fmt s front text rest : List UInt8} {i k : Nat}

/-! ## What is read in front of a `*` -/

theorem mem_flagChars {c : UInt8} : c ∈ flagChars ↔
    c = chr '-' ∨ c = chr '+' ∨ c = chr ' ' ∨ c = chr '#' ∨ c = chr '0' := by
  have hlist : flagChars = [chr '-', chr '+', chr ' ', chr '#', chr '0'] := rfl
  simp only [hlist, List.mem_cons, List.not_mem_nil, or_false]

theorem readFlags_flagChars {flags : List UInt8} (h : ∀ c ∈ flags, c ∈ flagChars) (before : Flags) :
    ∃ after, ∀ s, readFlags (flags ++ s) before = readFlags s after := by
  induction flags generalizing before with
  | nil => exact ⟨before, fun _ => rfl⟩
  | cons c flags ih =>
      rw [List.forall_mem_cons] at h
      have hset : ∃ next, ∀ s, readFlags (c :: s) before = readFlags s next := by
        rcases mem_flagChars.mp h.1 with rfl | rfl | rfl | rfl | rfl
        all_goals exact ⟨_, fun _ => rfl⟩
      obtain ⟨next, hnext⟩ := hset
      obtain ⟨after, hafter⟩ := ih h.2 next
      refine ⟨after, fun s => ?_⟩
      rw [List.cons_append, hnext, hafter]

/-- A point or a `*` ends the flags. -/
theorem readFlags_stop {c : UInt8} (hc : c = chr '.' ∨ c = chr '*') (s : List UInt8)
    (flags : Flags) :
    readFlags (c :: s) flags = (flags, c :: s) := by
  rcases hc with rfl | rfl
  · rfl
  · rfl

/-- Zeros in front of a width are read as flags. -/
theorem readFlags_digits {width : List UInt8} (h : ∀ c ∈ width, isDigit c = true) (before : Flags) :
    ∃ after digits, (∀ c ∈ digits, isDigit c = true) ∧ ∀ s,
      readFlags (width ++ chr '.' :: s) before = (after, digits ++ chr '.' :: s) := by
  induction width generalizing before with
  | nil => exact ⟨before, [], fun _ hc => absurd hc List.not_mem_nil, fun s => rfl⟩
  | cons c width ih =>
      rw [List.forall_mem_cons] at h
      obtain ⟨-, set, hset⟩ | hstop := readFlags_cons c
      · obtain ⟨after, digits, hdigits, hread⟩ := ih h.2 (set before)
        refine ⟨after, digits, hdigits, fun s => ?_⟩
        rw [List.cons_append, hset, hread]
      · exact ⟨before, c :: width, List.forall_mem_cons.mpr h, fun s => hstop _ before⟩

theorem skipAtoi_digits {digits : List UInt8} (h : ∀ c ∈ digits, isDigit c = true) (i : Int) :
    ∃ n, ∀ s, skipAtoi (digits ++ chr '.' :: s) i = (n, chr '.' :: s) := by
  induction digits generalizing i with
  | nil => exact ⟨i, fun s => if_neg (by decide)⟩
  | cons c digits ih =>
      rw [List.forall_mem_cons] at h
      obtain ⟨n, hn⟩ := ih h.2 (i * 10 + c.toNat - 48)
      exact ⟨n, fun s => by rw [List.cons_append, skipAtoi, if_pos h.1, hn]⟩

theorem readWidth_digits {digits : List UInt8} (h : ∀ c ∈ digits, isDigit c = true)
    (flags : Flags) : ∃ width, ∀ s args,
      readWidth (digits ++ chr '.' :: s) flags args = (width, flags, chr '.' :: s, args) := by
  cases digits with
  | nil => exact ⟨-1, fun s args => rfl⟩
  | cons c digits =>
      obtain ⟨n, hn⟩ := skipAtoi_digits h 0
      refine ⟨n, fun s args => ?_⟩
      have hread := hn s
      rw [List.cons_append] at hread
      rw [List.cons_append, readWidth, if_pos (h c List.mem_cons_self), hread]

/-- **A `*`** is stored behind a `%`, one argument is taken, and what is behind the `*` is left. -/
theorem directive_star (h : Front front 0) (strings : Nat → List UInt8) (args : VaList)
    (rest : List UInt8) : directive strings (front ++ chr '*' :: rest) args =
      ⟨[chr '%', chr '*'], none, rest, args.drop 1⟩ := by
  have hkeep : chr '*' ∉ taking := by decide
  have hstar : (chr '*' :: rest).head? = some (chr '*') := rfl
  generalize hzero : 0 = t at h
  cases h with
  | width hflags =>
      obtain ⟨flags, hread⟩ :=
        readFlags_flagChars hflags ⟨false, false, false, false, false, false, false⟩
      have hwidth : ∃ width flags', readWidth (chr '*' :: rest) flags args =
          (width, flags', chr '*' :: rest, args.drop 1) := by
        rw [readWidth, if_neg (by decide), if_pos rfl]
        split
        · exact ⟨_, _, rfl⟩
        · exact ⟨_, _, rfl⟩
      obtain ⟨width, flags', hwidth⟩ := hwidth
      simp only [directive, hread, readFlags_stop (.inr rfl), hwidth,
        (readPrecision_star hstar _).1,
        (readPrecision_star hstar VaList.numbered).2, convert_keeping hkeep]
      rfl
  | @precision flagList widthList hflags hwidth =>
      obtain ⟨flags, hread⟩ :=
        readFlags_flagChars hflags ⟨false, false, false, false, false, false, false⟩
      obtain ⟨flags', digits, hdigits, hread'⟩ := readFlags_digits hwidth flags
      obtain ⟨width, hwidth⟩ := readWidth_digits hdigits flags'
      have hprecision : ∃ precision, readPrecision (chr '.' :: chr '*' :: rest) args =
          (precision, chr '*' :: rest, args.drop 1) := ⟨_, rfl⟩
      obtain ⟨precision, hprecision⟩ := hprecision
      have hfmt : flagList ++ (widthList ++ [chr '.']) ++ chr '*' :: rest =
          flagList ++ (widthList ++ chr '.' :: chr '*' :: rest) := by
        simp only [List.append_assoc, List.singleton_append]
      rw [hfmt]
      simp only [directive, hread, hread', hwidth, hprecision,
        (readPrecision_star hstar VaList.numbered).2, convert_keeping hkeep]
      rfl
  | both => exact absurd hzero (by decide)

/-! ## Why nothing can make up for it -/

/-- **A directive** takes an argument that its characters do not, or it stores a `%` first. -/
theorem percent_or_taken (fmt : List UInt8) : taken (chr '%' :: fmt) = taken fmt + 1 ∨
    ∀ strings args, (output strings (chr '%' :: fmt) args).head? = some (chr '%') := by
  obtain ⟨u, hu, ⟨-, hend⟩ | ⟨x, s, rfl, hx, render, htake⟩ | ⟨x, s, rfl, -, hkeep⟩⟩ :=
    directive_cases fmt
  · refine .inr fun strings args => ?_
    rw [output_cons, turn, if_pos rfl, hend]
    rfl
  · have hne : x ≠ chr '%' := by
      rintro rfl
      exact absurd hx (by decide)
    have htaken := (@output_directive (u ++ x :: s) s 1 fun strings args =>
      ⟨congrArg Piece.rest (htake strings args s), congrArg Piece.args (htake strings args s)⟩).1
    have hplain : chr '%' ∉ u ++ [x] := by
      rw [List.mem_append, List.mem_singleton]
      exact not_or.mpr ⟨hu, hne.symm⟩
    have hrest := (@output_append (fun _ => []) (u ++ [x]) hplain s VaList.numbered).2
    rw [List.append_assoc, List.singleton_append] at hrest
    exact .inl (by rw [htaken, hrest, Nat.add_comm])
  · refine .inr fun strings args => ?_
    rw [output_cons, turn, if_pos rfl, hkeep]
    by_cases hx : x = chr '%'
    · rw [hx]
      rfl
    · rw [if_neg hx]
      rfl

/-- **A `%` in front of a format** takes one argument more, or the format stores no `*` first. -/
theorem no_star_first (h : taken (chr '%' :: fmt) = taken fmt) (strings : Nat → List UInt8)
    (args : VaList) : (output strings fmt args).head? ≠ some (chr '*') := by
  cases fmt with
  | nil => exact nofun
  | cons c fmt =>
      by_cases hc : c = chr '%'
      · -- of two `%`, the first directive is the second `%`
        rw [hc] at h ⊢
        have htwice := (@output_directive (chr '%' :: fmt) fmt 0 fun strings args =>
          ⟨rfl, rfl⟩).1
        obtain hmore | hpercent := percent_or_taken fmt
        · omega
        · rw [hpercent]
          decide
      · have hchar : chr '%' ∉ [c] := by
          rw [List.mem_singleton]
          exact Ne.symm hc
        obtain ⟨hout, htaken⟩ := @output_append strings [c] hchar fmt args
        rw [List.singleton_append] at hout htaken
        rw [hout]
        rintro hstar
        obtain rfl : c = chr '*' := Option.some.inj hstar
        -- a directive that begins with a `*` takes an argument
        have hfront : Front [] 0 := Front.width fun c hc => absurd hc List.not_mem_nil
        have hmore := (@output_directive (chr '*' :: fmt) fmt 1 fun strings args =>
          ⟨congrArg Piece.rest (directive_star hfront strings args fmt),
            congrArg Piece.args (directive_star hfront strings args fmt)⟩).1
        omega

/-- A character of a format that does not stand in its first part stands in the rest. -/
theorem split_behind {front u s rest : List UInt8} {x : UInt8} (h : front ++ rest = u ++ x :: s)
    (hx : x ∉ front) : ∃ v, u = front ++ v ∧ rest = v ++ x :: s := by
  obtain ⟨v, hu, hrest⟩ | ⟨v, hfront, hs⟩ := List.append_eq_append_iff.mp h
  · exact ⟨v, hu, hrest⟩
  · cases v with
    | nil => exact ⟨[], by rw [hfront, List.append_nil, List.append_nil], hs.symm⟩
    | cons y v =>
        rw [List.cons_append] at hs
        obtain ⟨rfl, -⟩ := List.cons.inj hs
        rw [hfront] at hx
        exact absurd (List.mem_append_right _ List.mem_cons_self) hx

/-- **A directive that begins with digits** and flags does not store a `%` and a `*` and then what
stands behind them, unless it takes an argument. -/
theorem digits_not_star {digits : List UInt8}
    (hdigits : ∀ c ∈ digits, c ∉ taking ∧ c ≠ chr '*' ∧ c ≠ chr '%')
    (htaken : taken (chr '%' :: (digits ++ rest)) = taken rest) :
    output strings (chr '%' :: (digits ++ rest)) args ≠
      chr '%' :: chr '*' :: output strings rest args := by
  intro hout
  obtain ⟨u, hu, ⟨-, hend⟩ | ⟨x, s, hfmt, hx, render, htake⟩ | ⟨x, s, hfmt, hx, hkeep⟩⟩ :=
    directive_cases (digits ++ rest)
  · -- the format ends in the directive: only a `%` is stored
    have hpiece := (@output_directive (digits ++ rest) [] 0 fun strings args =>
      ⟨congrArg Piece.rest (hend strings args), congrArg Piece.args (hend strings args)⟩).2
    rw [hpiece strings args, hend] at hout
    cases hout
  · -- the directive takes an argument
    have hne : x ≠ chr '%' := by
      rintro rfl
      exact absurd hx (by decide)
    obtain ⟨v, rfl, rfl⟩ := split_behind hfmt fun hmem =>
      hx.elim (hdigits x hmem).1 (hdigits x hmem).2.1
    have hplain : chr '%' ∉ v ++ [x] := by
      rw [List.mem_append, List.mem_singleton]
      exact not_or.mpr ⟨fun hmem => hu (List.mem_append_right _ hmem), hne.symm⟩
    have hmore := (@output_directive (digits ++ v ++ x :: s) s 1 fun strings args =>
      ⟨congrArg Piece.rest (htake strings args s), congrArg Piece.args (htake strings args s)⟩).1
    have hrest := (@output_append strings (v ++ [x]) hplain s args).2
    rw [List.append_assoc, List.singleton_append] at hrest
    rw [hfmt] at htaken
    omega
  · have hpiece := @output_directive (u ++ x :: s) s 0 fun strings args =>
      ⟨congrArg Piece.rest (hkeep strings args s), congrArg Piece.args (hkeep strings args s)⟩
    rw [hfmt] at hout htaken
    rw [hpiece.2 strings args, hkeep] at hout
    rw [hpiece.1] at htaken
    by_cases hpercent : x = chr '%'
    · -- the directive is a `%`: a `*` comes first in what is behind it
      obtain ⟨v, rfl, rfl⟩ := split_behind hfmt fun hmem => (hdigits x hmem).2.2 hpercent
      have hv : chr '%' ∉ v := fun hmem => hu (List.mem_append_right _ hmem)
      have hrest := (@output_append strings v hv (x :: s) args).2
      rw [hrest, hpercent, Nat.zero_add] at htaken
      rw [if_pos hpercent, hpercent] at hout
      obtain ⟨-, hbehind⟩ := List.cons.inj hout
      exact no_star_first htaken.symm strings (args.drop 0) (congrArg List.head? hbehind)
    · -- the directive stores its character, which then is a `*` of the rest
      rw [if_neg hpercent] at hout
      obtain ⟨-, hbehind⟩ := List.cons.inj hout
      obtain ⟨rfl, hlater⟩ := List.cons.inj hbehind
      obtain ⟨v, rfl, rfl⟩ := split_behind hfmt fun hmem => (hdigits _ hmem).2.1 rfl
      have hplain : chr '%' ∉ v ++ [chr '*'] := by
        rw [List.mem_append, List.mem_singleton]
        exact not_or.mpr ⟨fun hmem => hu (List.mem_append_right _ hmem), by decide⟩
      have hrest := (@output_append strings (v ++ [chr '*']) hplain s args).1
      rw [List.append_assoc, List.singleton_append] at hrest
      have hsame : output strings s args = output strings (v ++ chr '*' :: s) args := hlater
      have hlength := congrArg List.length hsame
      rw [hrest, List.length_append, List.length_append, List.length_singleton] at hlength
      omega

/-! ## The digits of the argument in place of the `*` -/

theorem decimal_digits (n : Nat) : ∀ c ∈ decimal n, isDigit c = true := by
  have hdigit : ∀ d < 10, isDigit (UInt8.ofNat (48 + d)) = true := by decide
  intro c hc
  rw [decimal] at hc
  split at hc
  · rw [List.mem_singleton.mp hc]
    decide
  · rw [List.mem_reverse, List.mem_map] at hc
    obtain ⟨d, hd, rfl⟩ := hc
    exact hdigit d (Nat.digits_lt_base (by decide) hd)

theorem decimal_ne_nil (n : Nat) : decimal n ≠ [] := by
  rw [decimal]
  split
  · exact List.cons_ne_nil _ _
  · rename_i hn
    rw [ne_eq, List.reverse_eq_nil_iff, List.map_eq_nil_iff]
    exact Nat.digits_ne_nil_iff_ne_zero.mpr hn

/-- Digits do not say what to do. -/
theorem not_taking_of_isDigit {c : UInt8} (hc : isDigit c = true) :
    c ∉ taking ∧ c ≠ chr '*' ∧ c ≠ chr '%' := by
  refine ⟨fun h => ?_, ?_, isDigit_ne_percent hc⟩
  · rcases mem_taking.mp h with rfl | rfl | rfl | rfl | rfl | rfl | rfl | rfl | rfl | rfl
    all_goals exact absurd hc (by decide)
  · rintro rfl
    exact absurd hc (by decide)

/-- What stands before a `*` does not say what to do, unless there is another `*`. -/
theorem Front.chars {t : Nat} (h : Front front t) :
    (t = 0 ∧ ∀ c ∈ front, c ∉ taking ∧ c ≠ chr '*' ∧ c ≠ chr '%') ∨
      (t = 1 ∧ ∃ flags, Front flags 0 ∧ front = flags ++ [chr '*', chr '.']) := by
  have hflag (c : UInt8) (hc : c ∈ flagChars) : c ∉ taking ∧ c ≠ chr '*' ∧ c ≠ chr '%' := by
    rcases mem_flagChars.mp hc with rfl | rfl | rfl | rfl | rfl
    all_goals decide
  cases h with
  | width hflags => exact .inl ⟨rfl, fun c hc => hflag c (hflags c hc)⟩
  | precision hflags hwidth =>
      refine .inl ⟨rfl, fun c hc => ?_⟩
      rw [List.mem_append, List.mem_append, List.mem_singleton] at hc
      obtain hc | hc | rfl := hc
      · exact hflag c (hflags c hc)
      · exact not_taking_of_isDigit (hwidth c hc)
      · decide
  | both hflags => exact .inr ⟨rfl, _, Front.width hflags, rfl⟩

/-- The arguments behind the one of a `*`. -/
theorem drop_remove (args : VaList) (i : Nat) : (args.remove i).drop i = args.drop (i + 1) := by
  funext n
  show (if n + i < i then args (n + i) else args (n + i + 1)) = args (n + (i + 1))
  rw [if_neg (by omega), Nat.add_assoc]

/-- **A `*` is never the same as the digits of its argument**: wherever the loop of `vsprintf` comes
to a directive whose width or precision is a `*`, the output differs from the one with the digits in
place of the `*` and without the argument, or the arguments that are taken do. -/
theorem star_never {before : List UInt8} {t : Nat} (hfront : Front front t)
    (h : Comes strings args (before ++ chr '%' :: (front ++ chr '*' :: rest)) text i
      (chr '%' :: (front ++ chr '*' :: rest))) :
    ¬ SameButOne strings (before ++ chr '%' :: (front ++ chr '*' :: rest)) args
      (before ++ chr '%' :: (front ++ (decimal (asInt (args (i + t))).toNat ++ rest)))
      (args.remove (i + t)) := by
  rintro ⟨hsame, htaken⟩
  have hout := output_of_vsprintf hsame
  have hdecimal := decimal_digits (asInt (args (i + t))).toNat
  have hnonempty := decimal_ne_nil (asInt (args (i + t))).toNat
  generalize decimal (asInt (args (i + t))).toNat = digits at hout htaken hdecimal hnonempty
  -- up to the directive, both calls do the same
  have hagree : ∀ j < i, args j = args.remove (i + t) j := fun j hj =>
    (if_pos (Nat.lt_add_right t hj)).symm
  have hwritten := (h.replace rfl (List.cons_ne_nil _ _) (chr '%' :: (front ++ (digits ++ rest))) []
    rfl).congr hagree
  rw [List.nil_append] at hwritten
  rw [h.output_eq.1, hwritten.output_eq.1] at hout
  rw [h.output_eq.2, hwritten.output_eq.2] at htaken
  replace hout := List.append_cancel_left hout
  obtain ⟨rfl, hchars⟩ | ⟨rfl, flags, hflags, rfl⟩ := hfront.chars
  · have hpiece := @output_directive (front ++ chr '*' :: rest) rest 1 fun strings args =>
      ⟨congrArg Piece.rest (directive_star hfront strings args rest),
        congrArg Piece.args (directive_star hfront strings args rest)⟩
    rw [hpiece.2, directive_star hfront, Nat.add_zero, drop_remove, VaList.drop_drop,
      ← List.append_assoc] at hout
    rw [hpiece.1, ← List.append_assoc] at htaken
    refine digits_not_star (fun c hc => ?_) (by omega) hout.symm
    obtain hc | hc := List.mem_append.mp hc
    · exact hchars c hc
    · exact not_taking_of_isDigit (hdecimal c hc)
  · -- the width is a `*` too, and what stands behind it is text
    have hstored (s : List UInt8) (args : VaList) :
        output strings (chr '%' :: (flags ++ [chr '*', chr '.'] ++ s)) args =
          chr '%' :: chr '*' :: chr '.' :: output strings s (args.drop 1) := by
      have hpiece := @output_directive (flags ++ chr '*' :: (chr '.' :: s)) (chr '.' :: s) 1
        fun strings args => ⟨congrArg Piece.rest (directive_star hflags strings args _),
          congrArg Piece.args (directive_star hflags strings args _)⟩
      have hpoint := (@output_append strings [chr '.'] (by decide) s (args.drop 1)).1
      rw [List.singleton_append] at hpoint
      rw [List.append_assoc, List.cons_append, List.singleton_append, hpiece.2,
        directive_star hflags,
        hpoint]
      rfl
    have hstar := (@output_append strings [chr '*'] (by decide) rest ((args.drop i).drop 1)).1
    have hplain : chr '%' ∉ digits := fun hmem => isDigit_ne_percent (hdecimal _ hmem) rfl
    rw [List.singleton_append] at hstar
    rw [hstored, hstored, hstar, (output_append hplain rest _).1] at hout
    obtain ⟨c, digits, rfl⟩ := List.exists_cons_of_ne_nil hnonempty
    have hfirst := congrArg (fun l => l[3]?) hout
    obtain rfl : chr '*' = c := Option.some.inj hfirst
    exact (not_taking_of_isDigit (hdecimal _ List.mem_cons_self)).2.1 rfl

/-- A width from an argument. -/
theorem star_never_small : ¬ SameButOne (fun _ => []) ("%-*d".toList.map chr)
    (fun i => if i = 0 then 5 else 7) ("%-5d".toList.map chr)
    (VaList.remove (fun i => if i = 0 then 5 else 7) 0) :=
  @star_never (fun _ => []) (fun i => if i = 0 then 5 else 7) [chr '-'] [] [chr 'd'] 0 [] 0
    (Front.width (List.forall_mem_singleton.mpr (by decide))) Comes.start

/-- The `*` is printed, and the number is not. -/
theorem star_printed : ¬ SameButOne (fun _ => []) ("%*d".toList.map chr)
    (fun i => if i = 0 then 5 else 7) ("%5d".toList.map chr)
    (VaList.remove (fun i => if i = 0 then 5 else 7) 0) := by
  rintro ⟨hsame, -⟩
  exact absurd (output_of_vsprintf hsame) (by decide)

end Star

end InfoKernel.Klibc
