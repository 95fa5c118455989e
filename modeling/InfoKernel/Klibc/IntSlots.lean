import InfoKernel.Klibc.Directives

/-!
# The slots of `int` arguments

`vsprintf` reads the argument of `%d`, `%i`, `%u`, `%x`, `%X` and `%o` as an `unsigned long`,
whether an `l` stands there or not.  The slot of an `int` has that many bits, and the upper half of
them may be anything.

What a text of `number` shows can be read off it (`shown_number`), so any two slots are told apart
by it.  Then the output of `vsprintf` depends on the upper halves whenever there is such a
conversion (`independent_iff`), and a signed one is right exactly if its slot is the sign-extension
of the lower half (`signedDecimal_iff`).
-/

namespace InfoKernel.Klibc

/-! ## What should not matter -/

/-- The directive does one of the conversions, without an `l`. -/
def Converts (letters : String) (fmt : List UInt8) : Prop :=
  (behindPrecision fmt).head? ≠ some (chr 'l') ∧
    ∃ c ∈ letters.toList.map chr, (skipQualifier (behindPrecision fmt)).head? = some c

/-- The loop of `vsprintf` comes to one of the conversions with its argument in slot `i`.  This does
not depend on the arguments. -/
def Slot (letters : String) (fmt : List UInt8) (i : Nat) : Prop :=
  ∃ text s, Comes (fun _ => []) VaList.numbered fmt text i (chr '%' :: s) ∧ Converts letters s

/-- The conversions of an `int` or an `unsigned int`. -/
abbrev IntSlot : List UInt8 → Nat → Prop := Slot "diuxXo"

/-- The conversions of an `int`. -/
abbrev SignedSlot : List UInt8 → Nat → Prop := Slot "di"

/-- **The upper halves of the slots do not matter**: with others, the output is the same. -/
def Independent (strings : Nat → List UInt8) (fmt : List UInt8) (args : VaList) : Prop :=
  ∀ args' : VaList,
    (∀ i, args' i = args i ∨ IntSlot fmt i ∧ args' i < 2 ^ 64 ∧ u32 (args' i) = u32 (args i)) →
    vsprintf strings fmt args' = vsprintf strings fmt args

/-- What a character stands for in a number. -/
def figure (c : UInt8) : Nat :=
  if isDigit c then c.toNat - 48
  else if chr 'a' ≤ c ∧ c ≤ chr 'z' then c.toNat - 87
  else if chr 'A' ≤ c ∧ c ≤ chr 'Z' then c.toNat - 55
  else 36

/-- The figures in a text. -/
def figures (base : Nat) (text : List UInt8) : List Nat := (text.map figure).filter (· < base)

/-- The number that the figures of a text show, negative if there is a minus. -/
def shown (base : Nat) (text : List UInt8) : Int :=
  let n : Nat := Nat.ofDigits base (figures base text).reverse
  if chr '-' ∈ text then -n else n

/-- **The signed conversions** show the lower halves of their slots, as an `int`. -/
def SignedDecimal (strings : Nat → List UInt8) (fmt : List UInt8) (args : VaList) : Prop :=
  ∀ text i s, Comes strings args fmt text i (chr '%' :: s) → Converts "di" s →
    shown 10 (turn strings (chr '%') s (args.drop i)).text = asInt (args i)

/-! ## Reading a number -/

section Shown

variable {num num' base : Nat} {size precision : Int} {flags : Flags} {text text' : List UInt8}

theorem figure_digit (small : Bool) : ∀ d < 36, figure ((digits small).getD d 0) = d := by
  cases small <;> decide

theorem figures_append (base : Nat) (text text' : List UInt8) :
    figures base (text ++ text') = figures base text ++ figures base text' := by
  rw [figures, List.map_append, List.filter_append]
  rfl

theorem figures_spaces (hhi : base ≤ 36) (n : Nat) :
    figures base (List.replicate n (chr ' ')) = [] := by
  have hfigure : ¬ figure (chr ' ') < base := by
    rw [show figure (chr ' ') = 36 by decide]
    omega
  rw [figures, List.map_replicate, List.filter_replicate, decide_eq_false hfigure]
  rfl

theorem figures_zeros (hlo : 2 ≤ base) (n : Nat) :
    figures base (List.replicate n (chr '0')) = List.replicate n 0 := by
  have hfigure : figure (chr '0') = 0 := by decide
  have hpos : 0 < base := by omega
  rw [figures, List.map_replicate, hfigure, List.filter_replicate, decide_eq_true hpos]
  rfl

theorem figures_signOf (hhi : base ≤ 36) (num : Nat) (flags : Flags) :
    figures base (signOf num flags) = [] := by
  have hnone (c : UInt8) (hc : figure c = 36) : figures base [c] = [] := by
    have hfigure : ¬ figure c < base := by omega
    rw [figures, List.map_singleton, List.filter_singleton, decide_eq_false hfigure]
    rfl
  unfold signOf
  split
  · split
    · exact hnone _ (by decide)
    · split
      · exact hnone _ (by decide)
      · split
        · exact hnone _ (by decide)
        · rfl
  · rfl

/-- A prefix shows zero. -/
theorem figures_specialOf (hlo : 2 ≤ base) (hhi : base ≤ 33) (flags : Flags) :
    ∃ n, figures base (specialOf base flags) = List.replicate n 0 := by
  have hzero : figures base [chr '0'] = [0] := figures_zeros hlo 1
  have hx : figures base [if flags.small then chr 'x' else chr 'X'] = [] := by
    have hfigure : figure (if flags.small then chr 'x' else chr 'X') = 33 := by
      split <;> decide
    have hge : ¬ figure (if flags.small then chr 'x' else chr 'X') < base := by omega
    rw [figures, List.map_singleton, List.filter_singleton, decide_eq_false hge]
    rfl
  unfold specialOf
  split
  · split
    · exact ⟨1, hzero⟩
    · split
      · refine ⟨1, ?_⟩
        rw [← List.singleton_append, figures_append, hzero, hx]
        rfl
      · exact ⟨0, rfl⟩
  · exact ⟨0, rfl⟩

/-- The figures of a number are its digits. -/
theorem figures_tmpOf (hlo : 2 ≤ base) (hhi : base ≤ 36) (n : Nat) (flags : Flags) :
    Nat.ofDigits base (figures base (tmpOf n base flags)) = n := by
  rw [tmpOf]
  split
  · rename_i hn
    have hzero : figures base [chr '0'] = [0] := figures_zeros hlo 1
    rw [hzero, hn]
    rfl
  · have hdigits : figures base ((Nat.digits base n).map fun d => (digits flags.small).getD d 0) =
        Nat.digits base n := by
      have hlt : ∀ d ∈ Nat.digits base n, d < base := fun d hd =>
        Nat.digits_lt_base (Nat.lt_of_lt_of_le Nat.one_lt_two hlo) hd
      have hmap : ((Nat.digits base n).map fun d => (digits flags.small).getD d 0).map figure =
          Nat.digits base n := by
        rw [List.map_map]
        refine (List.map_congr_left fun d hd => ?_).trans (List.map_id' _)
        exact figure_digit flags.small d (Nat.lt_of_lt_of_le (hlt d hd) hhi)
      rw [figures, hmap]
      exact List.filter_eq_self.mpr fun d hd => decide_eq_true (hlt d hd)
    rw [hdigits, Nat.ofDigits_digits]

theorem figures_reverse (base : Nat) (text : List UInt8) :
    figures base text.reverse = (figures base text).reverse := by
  rw [figures, List.map_reverse, List.filter_reverse]
  rfl

/-- **A text of `number`** has the figures of the number, with zeros in front. -/
theorem figures_number (hlo : 2 ≤ base) (hhi : base ≤ 33)
    (h : number num base size precision flags = some text) : ∃ n, figures base text =
      List.replicate n 0 ++ (figures base (tmpOf (magnitude num flags) base flags)).reverse := by
  obtain ⟨s, hspecial⟩ := figures_specialOf hlo hhi flags
  rw [number_eq hlo (by omega)] at h
  rw [← Option.some.inj h, digitsOf]
  split
  · refine ⟨s + (precision - digitCount base (magnitude num flags)).toNat, ?_⟩
    simp only [figures_append, figures_signOf (by omega : base ≤ 36), hspecial, figures_zeros hlo,
      figures_spaces (by omega : base ≤ 36), figures_reverse, List.nil_append, List.append_nil,
      ← List.append_assoc, List.replicate_append_replicate]
  · split
    · refine ⟨s + padding num base size precision flags +
        (precision - digitCount base (magnitude num flags)).toNat, ?_⟩
      simp only [figures_append, figures_signOf (by omega : base ≤ 36), hspecial,
        figures_zeros hlo, figures_reverse, List.nil_append, ← List.append_assoc,
        List.replicate_append_replicate]
    · refine ⟨s + (precision - digitCount base (magnitude num flags)).toNat, ?_⟩
      simp only [figures_append, figures_signOf (by omega : base ≤ 36), hspecial,
        figures_zeros hlo, figures_spaces (by omega : base ≤ 36), figures_reverse,
        List.nil_append, ← List.append_assoc, List.replicate_append_replicate]

/-- **What a text of `number` shows** is the number that it was made from. -/
theorem shown_number (hnum : num < 2 ^ 64) (hlo : 2 ≤ base) (hhi : base ≤ 33)
    (h : number num base size precision flags = some text) :
    shown base text = if flags.sign then asLong num else num := by
  obtain ⟨text', htext', hprints⟩ :=
    @number_prints num base size precision flags hnum hlo (by omega)
  obtain rfl : text = text' := Option.some.inj (h.symm.trans htext')
  obtain ⟨n, hfigures⟩ := figures_number hlo hhi h
  have hvalue : Nat.ofDigits base (figures base text).reverse = absOf num flags := by
    rw [hfigures, List.reverse_append, List.reverse_reverse, List.reverse_replicate,
      Nat.ofDigits_append_replicate_zero, figures_tmpOf hlo (by omega), magnitude_eq hnum]
  rw [shown, hvalue, absOf]
  by_cases hsign : flags.sign = true
  · rw [if_pos hsign, if_pos hsign]
    by_cases hneg : asLong num < 0
    · rw [if_pos (hprints.minus.mpr ⟨hsign, hneg⟩)]
      omega
    · rw [if_neg fun hmem => hneg (hprints.minus.mp hmem).2]
      omega
  · rw [if_neg hsign, if_neg hsign, if_neg fun hmem => hsign (hprints.minus.mp hmem).1]

theorem asLong_inj (hnum : num < 2 ^ 64) (hnum' : num' < 2 ^ 64) (h : asLong num = asLong num') :
    num = num' := by
  unfold asLong at h
  split at h <;> split at h <;> omega

/-- **Different numbers are printed differently.** -/
theorem number_inj (hnum : num < 2 ^ 64) (hnum' : num' < 2 ^ 64) (hlo : 2 ≤ base) (hhi : base ≤ 33)
    (h : number num base size precision flags = some text)
    (h' : number num' base size precision flags = some text) : num = num' := by
  have heq := (shown_number hnum hlo hhi h).symm.trans (shown_number hnum' hlo hhi h')
  split at heq
  · exact asLong_inj hnum hnum' heq
  · exact Int.ofNat.inj heq

end Shown

/-! ## The conversions -/

section Conversions

variable {strings : Nat → List UInt8} {fmt s text : List UInt8} {args : VaList} {i : Nat}

theorem mem_ints {c : UInt8} : c ∈ "diuxXo".toList.map chr ↔ c = chr 'd' ∨ c = chr 'i' ∨
    c = chr 'u' ∨ c = chr 'x' ∨ c = chr 'X' ∨ c = chr 'o' := by
  have hlist : "diuxXo".toList.map chr = [chr 'd', chr 'i', chr 'u', chr 'x', chr 'X', chr 'o'] :=
    rfl
  simp only [hlist, List.mem_cons, List.not_mem_nil, or_false]

/-- What the conversions print: the whole slot. -/
theorem convert_int {c : UInt8} (hc : c ∈ "diuxXo".toList.map chr) (width precision : Int)
    (flags : Flags) : ∃ base flags', 2 ≤ base ∧ base ≤ 33 ∧
      (c ∈ "di".toList.map chr → base = 10 ∧ flags'.sign = true) ∧
      ∀ strings s args, (convert strings (c :: s) width precision flags args).text =
        (number (u64 (args 0)) base width precision flags').getD [] := by
  rw [mem_ints] at hc
  rcases hc with rfl | rfl | rfl | rfl | rfl | rfl
  · exact ⟨10, { flags with sign := true }, by decide, by decide, fun _ => ⟨rfl, rfl⟩,
      fun _ _ _ => rfl⟩
  · exact ⟨10, { flags with sign := true }, by decide, by decide, fun _ => ⟨rfl, rfl⟩,
      fun _ _ _ => rfl⟩
  · exact ⟨10, flags, by decide, by decide, fun h => absurd h (by decide), fun _ _ _ => rfl⟩
  · exact ⟨16, { flags with small := true }, by decide, by decide, fun h => absurd h (by decide),
      fun _ _ _ => rfl⟩
  · exact ⟨16, flags, by decide, by decide, fun h => absurd h (by decide), fun _ _ _ => rfl⟩
  · exact ⟨8, flags, by decide, by decide, fun h => absurd h (by decide), fun _ _ _ => rfl⟩

/-- A signed conversion is one of the conversions of integers. -/
theorem Converts.int (h : Converts "di" s) : Converts "diuxXo" s := by
  obtain ⟨hl, c, hc, hhead⟩ := h
  have hsub : ("di".toList.map chr).Sublist ("diuxXo".toList.map chr) := by decide
  exact ⟨hl, c, hsub.subset hc, hhead⟩

/-- **One conversion** takes one argument, and prints the whole slot. -/
theorem turn_int (h : Converts "diuxXo" s) : takes (chr '%') s = 1 ∧
    ∃ base width precision flags, 2 ≤ base ∧ base ≤ 33 ∧
      (Converts "di" s → base = 10 ∧ flags.sign = true) ∧
      ∀ strings args, number (u64 (args 0)) base width precision flags =
        some (turn strings (chr '%') s args).text := by
  obtain ⟨-, c, hc, hhead⟩ := h
  have hstar : chr '*' ∉ "diuxXo".toList.map chr := by decide
  have htaking : c ∈ taking := by
    rcases mem_ints.mp hc with rfl | rfl | rfl | rfl | rfl | rfl
    all_goals decide
  obtain ⟨u, s, rfl, -, ⟨width, precision, flags, hread⟩ | ⟨hs, hread⟩⟩ := directive_reads s
  · obtain ⟨hbehind, hdirective⟩ := hread s rfl
    rw [hbehind] at hhead
    obtain ⟨s, rfl⟩ := List.head?_eq_some_iff.mp hhead
    obtain ⟨render, hrender⟩ := @convert_taking c width precision flags htaking
    obtain ⟨base, flags', hlo, hhi, hsigned, htext⟩ := convert_int hc width precision flags
    refine ⟨?_, base, width, precision, flags', hlo, hhi, fun hdi => ?_, fun strings args => ?_⟩
    · rw [takes, turn, if_pos rfl, hdirective, hrender]
      rfl
    · obtain ⟨-, d, hd, hheadD⟩ := hdi
      rw [hbehind] at hheadD
      obtain rfl : c = d := Option.some.inj (hhead.symm.trans hheadD)
      exact hsigned hd
    · rw [turn, if_pos rfl, hdirective, htext, number_eq hlo (by omega)]
      rfl
  · obtain ⟨hbehind, -⟩ := hread s hs
    rw [hbehind, hs] at hhead
    rw [← Option.some.inj hhead] at hc
    exact absurd hc hstar

/-- Which places the loop comes to does not depend on the arguments. -/
theorem Comes.any (h : Comes strings args fmt text i s) (strings' : Nat → List UInt8)
    (args' : VaList) : ∃ text', Comes strings' args' fmt text' i s := by
  induction h with
  | start => exact ⟨[], Comes.start⟩
  | @next text i c s _ ih =>
      obtain ⟨text', hcomes⟩ := ih
      have hnext := hcomes.next
      rw [turn_rest, ← turn_rest strings c s (args.drop i)] at hnext
      exact ⟨_, hnext⟩

theorem slot_iff {letters : String} (strings : Nat → List UInt8) (args : VaList) :
    Slot letters fmt i ↔
      ∃ text s, Comes strings args fmt text i (chr '%' :: s) ∧ Converts letters s := by
  constructor
  · rintro ⟨text, s, hcomes, hconverts⟩
    obtain ⟨text', hcomes'⟩ := hcomes.any strings args
    exact ⟨text', s, hcomes', hconverts⟩
  · rintro ⟨text, s, hcomes, hconverts⟩
    obtain ⟨text', hcomes'⟩ := hcomes.any (fun _ => []) VaList.numbered
    exact ⟨text', s, hcomes', hconverts⟩

/-- The slot with another upper half. -/
theorem exists_other_half (word : Nat) : ∃ v, v < 2 ^ 64 ∧ u32 v = u32 word ∧ v ≠ u64 word := by
  unfold u32 u64
  by_cases hlow : word % 2 ^ 64 < 2 ^ 32
  · exact ⟨word % 2 ^ 64 + 2 ^ 32, by omega, by omega, by omega⟩
  · exact ⟨word % 2 ^ 32, by omega, by omega, by omega⟩

/-- **The output depends on the upper halves** of the slots whenever there is a conversion of an
`int` in the format. -/
theorem independent_iff : Independent strings fmt args ↔ ∀ i, ¬ IntSlot fmt i := by
  constructor
  · intro h i hslot
    obtain ⟨text, s, hcomes, hconverts⟩ := (slot_iff strings args).mp hslot
    obtain ⟨v, hv, hlow, hne⟩ := exists_other_half (args i)
    have hargs (j : Nat) (hj : j ≠ i) : Function.update args i v j = args j :=
      Function.update_of_ne hj v args
    have hsame : output strings fmt (Function.update args i v) = output strings fmt args := by
      refine output_of_vsprintf (h _ fun j => ?_)
      by_cases hj : j = i
      · rw [hj, Function.update_self]
        exact .inr ⟨hslot, hv, hlow⟩
      · exact .inl (hargs j hj)
    have hcomes' : Comes strings (Function.update args i v) fmt text i (chr '%' :: s) :=
      hcomes.congr fun j hj => (hargs j hj.ne).symm
    obtain ⟨htakes, base, width, precision, flags, hlo, hhi, -, htext⟩ := turn_int hconverts
    -- what is behind the conversion is printed from the same arguments
    have hbehind : VaList.drop (Function.update args i v) (i + 1) = args.drop (i + 1) := by
      funext j
      exact hargs (j + (i + 1)) (by omega)
    rw [hcomes'.output_eq.1, hcomes.output_eq.1, output_cons, output_cons, htakes,
      VaList.drop_drop, VaList.drop_drop, hbehind, turn_rest,
      turn_rest strings (chr '%') s (args.drop i)] at hsame
    have hpiece := List.append_cancel_right (List.append_cancel_left hsame)
    have hnew := htext strings (VaList.drop (Function.update args i v) i)
    have hold := htext strings (args.drop i)
    have hfirst : VaList.drop (Function.update args i v) i 0 = v := by
      show Function.update args i v (0 + i) = v
      rw [Nat.zero_add, Function.update_self]
    have hfirst' : args.drop i 0 = args i := congrArg args (Nat.zero_add i)
    rw [hpiece, hfirst, u64, Nat.mod_eq_of_lt hv] at hnew
    rw [hfirst'] at hold
    exact hne (number_inj hv (Nat.mod_lt _ (by decide)) hlo hhi hnew hold)
  · intro h args' heq
    have hargs : args' = args := funext fun i => (heq i).resolve_right fun hslot => h i hslot.1
    rw [hargs]

/-- A signed conversion shows the whole slot, as a `long`. -/
theorem shown_signed (hconverts : Converts "di" s) (strings : Nat → List UInt8) (args : VaList)
    (i : Nat) :
    shown 10 (turn strings (chr '%') s (args.drop i)).text = asLong (u64 (args i)) := by
  obtain ⟨-, base, width, precision, flags, hlo, hhi, hsigned, htext⟩ := turn_int hconverts.int
  obtain ⟨rfl, hsign⟩ := hsigned hconverts
  have hslot : u64 (args i) < 2 ^ 64 := Nat.mod_lt _ (by decide)
  have hfirst : args.drop i 0 = args i := congrArg args (Nat.zero_add i)
  have hnumber := htext strings (args.drop i)
  rw [hfirst] at hnumber
  rw [shown_number hslot hlo hhi hnumber, if_pos hsign]

/-- **A signed conversion is right** exactly if its slot is the sign-extension of its lower half. -/
theorem signedDecimal_iff : SignedDecimal strings fmt args ↔
    ∀ i, SignedSlot fmt i → asLong (u64 (args i)) = asInt (args i) := by
  constructor
  · intro h i hslot
    obtain ⟨text, s, hcomes, hconverts⟩ := (slot_iff strings args).mp hslot
    rw [← h text i s hcomes hconverts, shown_signed hconverts]
  · intro h text i s hcomes hconverts
    rw [shown_signed hconverts]
    exact h i ((slot_iff strings args).mpr ⟨text, s, hcomes, hconverts⟩)

/-- **When the upper halves do not matter**: only if the format has no conversion of an `int`.  The
signed conversions alone are right whenever their slots are sign-extended. -/
theorem int_slots_iff (strings : Nat → List UInt8) (fmt : List UInt8) (args : VaList) :
    (Independent strings fmt args ∧ SignedDecimal strings fmt args ↔ ∀ i, ¬ IntSlot fmt i) ∧
    (SignedDecimal strings fmt args ↔
      ∀ i, SignedSlot fmt i → asLong (u64 (args i)) = asInt (args i)) := by
  refine ⟨⟨fun h => independent_iff.mp h.1, fun h => ⟨independent_iff.mpr h, ?_⟩⟩,
    signedDecimal_iff⟩
  refine signedDecimal_iff.mpr fun i hslot => ?_
  obtain ⟨text, s, hcomes, hconverts⟩ := hslot
  exact absurd ⟨text, s, hcomes, hconverts.int⟩ (h i)

/-- The `int` -1 in a slot with zeros in its upper half is printed as 4294967295. -/
theorem minus_one_printed_unsigned :
    ¬ (Independent (fun _ => []) ("%d".toList.map chr) (fun _ => 0xffffffff) ∧
      SignedDecimal (fun _ => []) ("%d".toList.map chr) fun _ => 0xffffffff) := by
  rintro ⟨-, hsigned⟩
  have hshown := hsigned [] 0 [chr 'd'] Comes.start
    ⟨by decide, chr 'd', by decide, by decide⟩
  exact absurd hshown (by decide)

end Conversions

end InfoKernel.Klibc
