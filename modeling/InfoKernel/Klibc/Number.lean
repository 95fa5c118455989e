import InfoKernel.Machine
import Mathlib.Data.Nat.Digits.Defs
import Mathlib.Data.Nat.Digits.Lemmas

/-!
# Printing a number

`number` of `sprintf.c`.  The sign, the prefix of the base, the digits and what pads them to a width
are put one behind the other by loops that share one counter, `size`: it starts as the width, what
is printed anyway is subtracted from it, and each loop that pads counts it down.  So the first of
them that is run pads, and leaves it below zero for the others.

An `int` is an integer here: the model is one of calls in which none overflows.

* `countDown_eq`: what such a loop prints and leaves;
* `number_prints`: how long the text is, which number it shows, and where it is padded.
-/

namespace InfoKernel.Klibc

/-- The flags of a directive, `LEFT` to `SMALL`. -/
structure Flags where
  left : Bool
  plus : Bool
  space : Bool
  special : Bool
  zeropad : Bool
  sign : Bool
  small : Bool
  deriving DecidableEq, Repr

/-- The code of a character. -/
def chr (c : Char) : UInt8 := UInt8.ofNat c.toNat

/-- `digits` -/
def digits (small : Bool) : List UInt8 :=
  (if small then "0123456789abcdefghijklmnopqrstuvwxyz"
    else "0123456789ABCDEFGHIJKLMNOPQRSTUVWXYZ").toList.map chr

/-- A turn of `while (size-- > 0) *str++ = c` for each number down from `n`, and the last. -/
def countFrom (c : UInt8) : Nat → List UInt8 × Int
  | 0 => ([], -1)
  | n + 1 => (c :: (countFrom c n).1, (countFrom c n).2)

/-- `while (size-- > 0) *str++ = c`: what is stored, and `size` behind it. -/
def countDown (c : UInt8) (size : Int) : List UInt8 × Int :=
  if 0 < size then countFrom c size.toNat else ([], size - 1)

/-- `(long)num` -/
def asLong (num : Nat) : Int := if num < 2 ^ 63 then num else num - 2 ^ 64

/-- The sign, or nothing: a minus for a negative `long`, and what the flags say otherwise. -/
def signOf (num : Nat) (flags : Flags) : List UInt8 :=
  if flags.sign then
    if asLong num < 0 then [chr '-']
    else if flags.plus then [chr '+']
    else if flags.space then [chr ' ']
    else []
  else []

/-- The number that is printed behind the sign: `num`, or `-num`. -/
def magnitude (num : Nat) (flags : Flags) : Nat :=
  if flags.sign ∧ asLong num < 0 then sub64 0 num else num

/-- What `SPECIAL` puts before a number. -/
def specialOf (base : Nat) (flags : Flags) : List UInt8 :=
  if flags.special then
    if base = 8 then [chr '0']
    else if base = 16 then [chr '0', if flags.small then chr 'x' else chr 'X']
    else []
  else []

/-- `tmp`, the digits with the last one first. -/
def tmpOf (num base : Nat) (flags : Flags) : List UInt8 :=
  if num = 0 then [chr '0']
  else (Nat.digits base num).map fun d => (digits flags.small).getD d 0

/-- `if (flags & LEFT) flags &= ~ZEROPAD` -/
def Flags.leftFirst (flags : Flags) : Flags :=
  if flags.left then { flags with zeropad := false } else flags

/-- The three loops that pad: what they store before the sign, behind the prefix and at the end. -/
def pads (flags : Flags) (size : Int) : List UInt8 × List UInt8 × List UInt8 :=
  let c := if flags.zeropad then chr '0' else chr ' '
  let (before, size) :=
    if ¬ flags.zeropad ∧ ¬ flags.left then countDown (chr ' ') size else ([], size)
  let (between, size) := if ¬ flags.left then countDown c size else ([], size)
  let (behind, _) := countDown (chr ' ') size
  (before, between, behind)

/-- `number`: what it stores, if it does not return null. -/
def number (num base : Nat) (size precision : Int) (flags : Flags) : Option (List UInt8) :=
  let flags := flags.leftFirst
  if base < 2 ∨ 36 < base then none
  else
    let sign := signOf num flags
    let special := specialOf base flags
    let tmp := tmpOf (magnitude num flags) base flags
    let i : Int := tmp.length
    let precision := if precision < i then i else precision
    let size := size - sign.length - special.length - precision
    let (before, between, behind) := pads flags size
    let zeros := (countDown (chr '0') (precision - i)).1
    some (before ++ sign ++ special ++ between ++ zeros ++ tmp.reverse ++ behind)

/-! ## What it should print -/

/-- The number of digits of a number. -/
def digitCount (base n : Nat) : Nat := if n = 0 then 1 else (Nat.digits base n).length

/-- The number without its sign. -/
def absOf (num : Nat) (flags : Flags) : Nat := if flags.sign then (asLong num).natAbs else num

/-- The number that a text shows. -/
def valueOf (base : Nat) (small : Bool) (text : List UInt8) : Nat :=
  Nat.ofDigits base (text.map fun c => (digits small).idxOf c).reverse

/-- **What `number` prints**: a text as long as the width, the sign, the prefix and the digits need
it; the digits, filled up with zeros to the precision, show the number; there is a minus exactly for
a negative number that is printed as one; and what pads the text to its width are spaces at the
right, zeros before the digits, or spaces at the left. -/
structure Prints (num base : Nat) (size precision : Int) (flags : Flags) (text : List UInt8) :
    Prop where
  length : (text.length : Int) = max size
    ((signOf num flags ++ specialOf base flags).length +
      max precision (digitCount base (absOf num flags)))
  minus : chr '-' ∈ text ↔ flags.sign = true ∧ asLong num < 0
  layout : ∃ number n, valueOf base flags.small number = absOf num flags ∧
    (number.length : Int) = max precision (digitCount base (absOf num flags)) ∧
    text = if flags.left then
        signOf num flags ++ specialOf base flags ++ number ++ List.replicate n (chr ' ')
      else if flags.zeropad then
        signOf num flags ++ specialOf base flags ++ List.replicate n (chr '0') ++ number
      else List.replicate n (chr ' ') ++ signOf num flags ++ specialOf base flags ++ number

/-! ## The loops that pad -/

section Padding

variable {c : UInt8} {size : Int}

theorem countFrom_eq (c : UInt8) (n : Nat) : countFrom c n = (List.replicate n c, -1) := by
  induction n with
  | zero => rfl
  | succ n ih => rw [countFrom, ih, List.replicate_succ]

/-- **A loop that pads** stores as many characters as `size` says, and leaves it below zero. -/
theorem countDown_eq (c : UInt8) (size : Int) :
    countDown c size = (List.replicate size.toNat c, min size 0 - 1) := by
  rw [countDown]
  split
  · rename_i h
    rw [countFrom_eq, min_eq_right h.le]
    rfl
  · rename_i h
    rw [min_eq_left (not_lt.mp h), Int.toNat_of_nonpos (not_lt.mp h)]
    rfl

@[simp] theorem countDown_fst (c : UInt8) (size : Int) :
    (countDown c size).1 = List.replicate size.toNat c := by
  rw [countDown_eq]

/-- Behind a loop that pads, there is nothing to pad. -/
@[simp] theorem toNat_countDown_snd (c : UInt8) (size : Int) : (countDown c size).2.toNat = 0 := by
  rw [countDown_eq]
  exact Int.toNat_of_nonpos (by omega)

/-- **Where the padding goes**: to the end, behind the prefix or to the front. -/
theorem pads_eq (flags : Flags) (size : Int) : pads flags.leftFirst size =
    if flags.left then ([], [], List.replicate size.toNat (chr ' '))
    else if flags.zeropad then ([], List.replicate size.toNat (chr '0'), [])
    else (List.replicate size.toNat (chr ' '), [], []) := by
  by_cases hleft : flags.left = true
  · simp [pads, Flags.leftFirst, hleft]
  · by_cases hzero : flags.zeropad = true
    · simp [pads, Flags.leftFirst, hleft, hzero]
    · simp [pads, Flags.leftFirst, hleft, hzero]

end Padding

/-! ## The digits -/

section Digits

variable {num base n : Nat} {flags : Flags} {small : Bool}

/-- The characters of `digits` are distinct. -/
theorem idxOf_digit (small : Bool) :
    ∀ d < 36, (digits small).idxOf ((digits small).getD d 0) = d := by
  cases small <;> decide

theorem idxOf_zero (small : Bool) : (digits small).idxOf (chr '0') = 0 := by
  cases small <;> decide

theorem digit_ne_minus (small : Bool) : ∀ d < 36, (digits small).getD d 0 ≠ chr '-' := by
  cases small <;> decide

theorem length_tmpOf : (tmpOf num base flags).length = digitCount base num := by
  rw [tmpOf, digitCount]
  split
  · rfl
  · rw [List.length_map]

/-- The digits of a number in `tmp`, as numbers. -/
theorem map_tmpOf (hlo : 2 ≤ base) (hhi : base ≤ 36) :
    Nat.ofDigits base ((tmpOf num base flags).map fun c => (digits flags.small).idxOf c) = num := by
  rw [tmpOf]
  split
  · rename_i h
    rw [List.map_singleton, idxOf_zero, Nat.ofDigits_singleton, h]
  · have hdigits : (Nat.digits base num).map (fun d =>
        (digits flags.small).idxOf ((digits flags.small).getD d 0)) = Nat.digits base num := by
      refine (List.map_congr_left fun d hd => ?_).trans (List.map_id' _)
      have hlt := Nat.digits_lt_base (Nat.lt_of_lt_of_le Nat.one_lt_two hlo) hd
      exact idxOf_digit flags.small d (Nat.lt_of_lt_of_le hlt hhi)
    rw [List.map_map]
    exact (congrArg (Nat.ofDigits base) hdigits).trans (Nat.ofDigits_digits base num)

/-- **Digits with zeros in front** show the number of the digits. -/
theorem valueOf_zeros (hlo : 2 ≤ base) (hhi : base ≤ 36) (zeros : Nat) :
    valueOf base flags.small (List.replicate zeros (chr '0') ++ (tmpOf num base flags).reverse) =
      num := by
  rw [valueOf, List.map_append, List.reverse_append, List.map_replicate, List.reverse_replicate,
    idxOf_zero, List.map_reverse, List.reverse_reverse, Nat.ofDigits_append_replicate_zero,
    map_tmpOf hlo hhi]

end Digits

/-! ## The text -/

section Text

variable {num base : Nat} {size precision : Int} {flags : Flags}

/-- The digits, filled up to the precision. -/
def digitsOf (num base : Nat) (precision : Int) (flags : Flags) : List UInt8 :=
  List.replicate (precision - digitCount base (magnitude num flags)).toNat (chr '0') ++
    (tmpOf (magnitude num flags) base flags).reverse

/-- How much there is to pad. -/
def padding (num base : Nat) (size precision : Int) (flags : Flags) : Nat :=
  (size - (signOf num flags ++ specialOf base flags).length -
    (digitsOf num base precision flags).length).toNat

theorem length_digitsOf : ((digitsOf num base precision flags).length : Int) =
    max precision (digitCount base (magnitude num flags)) := by
  rw [digitsOf, List.length_append, List.length_replicate, List.length_reverse, length_tmpOf]
  omega

/-- The number behind the sign is `num` without its sign. -/
theorem magnitude_eq (hnum : num < 2 ^ 64) (flags : Flags) :
    magnitude num flags = absOf num flags := by
  rw [magnitude, absOf]
  unfold asLong sub64 u64
  by_cases hsign : flags.sign = true
  · simp only [hsign, true_and, if_true]
    split <;> split <;> omega
  · rw [if_neg hsign, if_neg fun h => hsign h.1]

/-- The sign, the prefix and the digits do not look at `ZEROPAD`. -/
theorem leftFirst_eq (num base : Nat) (flags : Flags) :
    signOf num flags.leftFirst = signOf num flags ∧
      specialOf base flags.leftFirst = specialOf base flags ∧
      magnitude num flags.leftFirst = magnitude num flags ∧
      ∀ n, tmpOf n base flags.leftFirst = tmpOf n base flags := by
  unfold Flags.leftFirst
  split
  · exact ⟨rfl, rfl, rfl, fun _ => rfl⟩
  · exact ⟨rfl, rfl, rfl, fun _ => rfl⟩

/-- **What `number` stores.** -/
theorem number_eq (hlo : 2 ≤ base) (hhi : base ≤ 36) : number num base size precision flags = some
    (if flags.left then
      signOf num flags ++ specialOf base flags ++ digitsOf num base precision flags ++
        List.replicate (padding num base size precision flags) (chr ' ')
    else if flags.zeropad then
      signOf num flags ++ specialOf base flags ++
        List.replicate (padding num base size precision flags) (chr '0') ++
          digitsOf num base precision flags
    else
      List.replicate (padding num base size precision flags) (chr ' ') ++ signOf num flags ++
        specialOf base flags ++ digitsOf num base precision flags) := by
  obtain ⟨hsign, hspecial, hmagnitude, htmp⟩ := leftFirst_eq num base flags
  have hprecision : (if precision < (digitCount base (magnitude num flags) : Int) then
      (digitCount base (magnitude num flags) : Int) else precision) =
        (digitsOf num base precision flags).length := by
    rw [length_digitsOf]
    split <;> omega
  have hzeros : ((digitsOf num base precision flags).length -
      (digitCount base (magnitude num flags) : Int)).toNat =
        (precision - digitCount base (magnitude num flags)).toNat := by
    rw [length_digitsOf]
    omega
  have hpadding : (size - (signOf num flags).length - (specialOf base flags).length -
      (digitsOf num base precision flags).length).toNat =
        padding num base size precision flags := by
    rw [padding, List.length_append, Nat.cast_add, Int.sub_sub size]
  rw [number, if_neg (by omega)]
  simp only [hsign, hspecial, hmagnitude, htmp, length_tmpOf, hprecision, pads_eq, countDown_fst,
    hzeros, hpadding]
  rw [digitsOf]
  split
  · simp only [List.nil_append, List.append_nil, List.append_assoc]
  · split
    · simp only [List.nil_append, List.append_nil, List.append_assoc]
    · simp only [List.append_nil, List.append_assoc]

theorem minus_mem_signOf : chr '-' ∈ signOf num flags ↔ flags.sign = true ∧ asLong num < 0 := by
  have hplus : chr '-' ≠ chr '+' := by decide
  have hspace : chr '-' ≠ chr ' ' := by decide
  rw [signOf]
  by_cases hsign : flags.sign = true
  · rw [if_pos hsign]
    by_cases hneg : asLong num < 0
    · rw [if_pos hneg]
      exact iff_of_true (List.mem_singleton_self _) ⟨hsign, hneg⟩
    · rw [if_neg hneg]
      refine iff_of_false ?_ fun h => hneg h.2
      split
      · simpa using hplus
      · split
        · simpa using hspace
        · exact List.not_mem_nil
  · rw [if_neg hsign]
    exact iff_of_false List.not_mem_nil fun h => hsign h.1

theorem minus_notMem_specialOf : chr '-' ∉ specialOf base flags := by
  have hzero : chr '-' ≠ chr '0' := by decide
  have hsmall : chr '-' ≠ if flags.small then chr 'x' else chr 'X' := by
    split <;> decide
  unfold specialOf
  split
  · split
    · simpa using hzero
    · split
      · simpa using ⟨hzero, hsmall⟩
      · exact List.not_mem_nil
  · exact List.not_mem_nil

theorem minus_notMem_digitsOf (hlo : 2 ≤ base) (hhi : base ≤ 36) :
    chr '-' ∉ digitsOf num base precision flags := by
  have hzero : chr '-' ≠ chr '0' := by decide
  have htmp (n : Nat) : chr '-' ∉ tmpOf n base flags := by
    rw [tmpOf]
    split
    · simpa using hzero
    · intro hmem
      obtain ⟨d, hd, hchar⟩ := List.mem_map.mp hmem
      have hlt := Nat.digits_lt_base (Nat.lt_of_lt_of_le Nat.one_lt_two hlo) hd
      exact digit_ne_minus flags.small d (Nat.lt_of_lt_of_le hlt hhi) hchar
  rw [digitsOf, List.mem_append, List.mem_reverse, List.mem_replicate]
  rintro (⟨-, h⟩ | h)
  · exact hzero h
  · exact htmp _ h

/-- **`number` prints what it should**, for all numbers, bases, widths, precisions and flags. -/
theorem number_prints (hnum : num < 2 ^ 64) (hlo : 2 ≤ base) (hhi : base ≤ 36) :
    ∃ text, number num base size precision flags = some text ∧
      Prints num base size precision flags text := by
  have habs := magnitude_eq hnum flags
  refine ⟨_, number_eq hlo hhi, ?_, ?_, digitsOf num base precision flags,
    padding num base size precision flags, ?_, ?_, ?_⟩
  · rw [← habs, ← length_digitsOf]
    have hpadding : (padding num base size precision flags : Int) = max 0 (size -
        (signOf num flags ++ specialOf base flags).length -
          (digitsOf num base precision flags).length) := by
      rw [padding]
      omega
    rw [List.length_append] at hpadding ⊢
    split
    · simp only [List.length_append, List.length_replicate]
      omega
    · split
      · simp only [List.length_append, List.length_replicate]
        omega
      · simp only [List.length_append, List.length_replicate]
        omega
  · have hspace : chr '-' ≠ chr ' ' := by decide
    have hzero : chr '-' ≠ chr '0' := by decide
    rw [← minus_mem_signOf]
    split
    · simp only [List.mem_append, List.mem_replicate, hspace, minus_notMem_specialOf,
        minus_notMem_digitsOf hlo hhi, and_false, or_false]
    · split
      · simp only [List.mem_append, List.mem_replicate, hzero, minus_notMem_specialOf,
          minus_notMem_digitsOf hlo hhi, and_false, or_false]
      · simp only [List.mem_append, List.mem_replicate, hspace, minus_notMem_specialOf,
          minus_notMem_digitsOf hlo hhi, and_false, or_false, false_or]
  · rw [← habs]
    exact valueOf_zeros hlo hhi _
  · rw [← habs]
    exact length_digitsOf
  · rfl

/-- A negative number in hexadecimal with a prefix, zeros up to the width and a precision. -/
theorem number_prints_small : ∃ text,
    number (2 ^ 64 - 26) 16 9 4 ⟨false, false, false, true, true, true, true⟩ = some text ∧
      Prints (2 ^ 64 - 26) 16 9 4 ⟨false, false, false, true, true, true, true⟩ text :=
  number_prints (by decide) (by decide) (by decide)

example : number (2 ^ 64 - 26) 16 9 4 ⟨false, false, false, true, true, true, true⟩ =
    some ("-0x00001a".toList.map chr) := by decide

end Text

end InfoKernel.Klibc
