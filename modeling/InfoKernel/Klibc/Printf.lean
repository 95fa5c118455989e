import InfoKernel.Fault
import InfoKernel.Klibc.Number

/-!
# Formatted output

`vsprintf` and `vsnprintf` of `sprintf.c`.  Their loops are the same, letter by letter, but that
`vsnprintf` looks at the room in the buffer before each character of the format; what both do with a
character, and with a directive, is `turn`.

A format is cut into `pieces`, one for each character or directive, whatever room there is.  Then
`vsprintf` stores all pieces, and `vsnprintf` stores pieces as long as there is room for one
character more.  So what a directive stores is not held back, however long it is, and with no room
at all the end of the string is stored in the byte that is not there (`vsnprintf_inside_iff`).  With
room for the whole string, both do the same (`vsnprintf_eq_vsprintf`).

A format is the list of the characters before its end, and an `int` does not overflow, as in
`number`.  The strings among the arguments are apart from the buffer, and so is what `%n` stores to.
-/

namespace InfoKernel.Klibc

/-! ## The model -/

/-- A variable argument list: its words, the next one first. -/
abbrev VaList := Nat → Nat

/-- The list behind its next argument. -/
def VaList.rest (args : VaList) : VaList := fun i => args (i + 1)

/-- A word as an `int`. -/
def asInt (word : Nat) : Int := Int.bmod word (2 ^ 32)

/-- `is_digit` -/
def isDigit (c : UInt8) : Bool := chr '0' ≤ c ∧ c ≤ chr '9'

/-- `skip_atoi`, with the number so far: the number, and the format behind it. -/
def skipAtoi : List UInt8 → Int → Int × List UInt8
  | [], i => (i, [])
  | c :: s, i => if isDigit c then skipAtoi s (i * 10 + c.toNat - 48) else (i, c :: s)

/-- The loop `repeat` over the flags. -/
def readFlags : List UInt8 → Flags → Flags × List UInt8
  | [], flags => (flags, [])
  | c :: fmt, flags =>
      if c = chr '-' then readFlags fmt { flags with left := true }
      else if c = chr '+' then readFlags fmt { flags with plus := true }
      else if c = chr ' ' then readFlags fmt { flags with space := true }
      else if c = chr '#' then readFlags fmt { flags with special := true }
      else if c = chr '0' then readFlags fmt { flags with zeropad := true }
      else (flags, c :: fmt)

/-- The field width, with the flags behind it.  A `*` takes an argument and stays in the format. -/
def readWidth (fmt : List UInt8) (flags : Flags) (args : VaList) :
    Int × Flags × List UInt8 × VaList :=
  match fmt with
  | [] => (-1, flags, [], args)
  | c :: s =>
      if isDigit c then ((skipAtoi (c :: s) 0).1, flags, (skipAtoi (c :: s) 0).2, args)
      else if c = chr '*' then
        if asInt (args 0) < 0 then (-asInt (args 0), { flags with left := true }, c :: s, args.rest)
        else (asInt (args 0), flags, c :: s, args.rest)
      else (-1, flags, c :: s, args)

/-- The precision. -/
def readPrecision (fmt : List UInt8) (args : VaList) : Int × List UInt8 × VaList :=
  match fmt with
  | [] => (-1, [], args)
  | c :: s =>
      if c = chr '.' then
        let (precision, s, args) : Int × List UInt8 × VaList :=
          match s with
          | [] => (-1, [], args)
          | d :: s =>
              if isDigit d then ((skipAtoi (d :: s) 0).1, (skipAtoi (d :: s) 0).2, args)
              else if d = chr '*' then (asInt (args 0), d :: s, args.rest)
              else (-1, d :: s, args)
        (if precision < 0 then 0 else precision, s, args)
      else (-1, c :: s, args)

/-- A qualifier is left out. -/
def skipQualifier (fmt : List UInt8) : List UInt8 :=
  match fmt with
  | [] => []
  | c :: s => if c = chr 'h' ∨ c = chr 'l' ∨ c = chr 'L' then s else c :: s

/-- What is done with a character or a directive of a format: the characters that are stored, where
`%n` stores how many there are, and the format and the arguments behind it. -/
structure Piece where
  text : List UInt8
  count : Option Nat
  rest : List UInt8
  args : VaList

/-- `%c`: both loops are `while (--field_width > 0)`. -/
def putChar (c : UInt8) (width : Int) (flags : Flags) : List UInt8 :=
  let (before, width) :=
    if ¬ flags.left then
      ((countDown (chr ' ') (width - 1)).1, (countDown (chr ' ') (width - 1)).2 + 1)
    else ([], width)
  before ++ [c] ++ (countDown (chr ' ') (width - 1)).1

/-- `%s`: both loops are `while (len < field_width--)`. -/
def putString (s : List UInt8) (width precision : Int) (flags : Flags) : List UInt8 :=
  let len : Int := s.length
  let len := if precision < 0 then len else if precision < len then precision else len
  let (before, room) :=
    if ¬ flags.left then countDown (chr ' ') (width - len) else ([], width - len)
  before ++ s.take len.toNat ++ (countDown (chr ' ') room).1

/-- The last `switch`.  The C string at an address is `strings` of it. -/
def convert (strings : Nat → List UInt8) (fmt : List UInt8) (width precision : Int) (flags : Flags)
    (args : VaList) : Piece :=
  let print (base : Nat) (width : Int) (flags : Flags) : List UInt8 :=
    (number (u64 (args 0)) base width precision flags).getD []
  match fmt with
  | [] => ⟨[chr '%'], none, [], args⟩
  | c :: s =>
      if c = chr 'c' then ⟨putChar (UInt8.ofNat (args 0)) width flags, none, s, args.rest⟩
      else if c = chr 's' then
        ⟨putString (strings (args 0)) width precision flags, none, s, args.rest⟩
      else if c = chr 'o' then ⟨print 8 width flags, none, s, args.rest⟩
      else if c = chr 'p' then
        if width = -1 then ⟨print 16 8 { flags with zeropad := true }, none, s, args.rest⟩
        else ⟨print 16 width flags, none, s, args.rest⟩
      else if c = chr 'x' then ⟨print 16 width { flags with small := true }, none, s, args.rest⟩
      else if c = chr 'X' then ⟨print 16 width flags, none, s, args.rest⟩
      else if c = chr 'd' ∨ c = chr 'i' then
        ⟨print 10 width { flags with sign := true }, none, s, args.rest⟩
      else if c = chr 'u' then ⟨print 10 width flags, none, s, args.rest⟩
      else if c = chr 'n' then ⟨[], some (args 0), s, args.rest⟩
      else ⟨(if c = chr '%' then [] else [chr '%']) ++ [c], none, s, args⟩

/-- A directive, from behind its `%` on. -/
def directive (strings : Nat → List UInt8) (fmt : List UInt8) (args : VaList) : Piece :=
  let (flags, fmt) := readFlags fmt ⟨false, false, false, false, false, false, false⟩
  let (width, flags, fmt, args) := readWidth fmt flags args
  let (precision, fmt, args) := readPrecision fmt args
  convert strings (skipQualifier fmt) width precision flags args

/-- The body of both loops, for a format that begins with `c`. -/
def turn (strings : Nat → List UInt8) (c : UInt8) (fmt : List UInt8) (args : VaList) : Piece :=
  if c = chr '%' then directive strings fmt args else ⟨[c], none, fmt, args⟩

/-- What has been stored: bytes with their index in the buffer, and by `%n` numbers with their
address; and the index where the next byte goes. -/
structure Out where
  stores : List (UInt8 × Nat)
  counts : List (Nat × Int)
  pos : Nat
  deriving DecidableEq, Repr

/-- Nothing has been stored. -/
def Out.start : Out := ⟨[], [], 0⟩

/-- The characters of a piece are stored, one behind the other, or `%n` stores. -/
def Out.emit (s : Out) (p : Piece) : Out where
  stores := s.stores ++ p.text.zipIdx s.pos
  counts := s.counts ++ (p.count.map fun address => (address, asInt s.pos)).toList
  pos := s.pos + p.text.length

/-- The end of the string is stored. -/
def Out.terminate (s : Out) : Out := { s with stores := s.stores ++ [(0, s.pos)] }

/-- The loop of `vsprintf`. -/
def vsprintfLoop (strings : Nat → List UInt8) : Nat → List UInt8 → VaList → Out → Except Fault Out
  | _, [], _, s => .ok s
  | 0, _ :: _, _, _ => .error .outOfFuel
  | n + 1, c :: fmt, args, s =>
      let p := turn strings c fmt args
      vsprintfLoop strings n p.rest p.args (s.emit p)

/-- `vsprintf`: what it returns, and what it has stored. -/
def vsprintf (strings : Nat → List UInt8) (fmt : List UInt8) (args : VaList) :
    Except Fault (Int × Out) := do
  let s ← vsprintfLoop strings fmt.length fmt args Out.start
  return (asInt s.pos, s.terminate)

/-- `(ssize_t)(size - 1)` -/
def roomOf (size : Nat) : Int := asLong (sub64 size 1)

/-- The loop of `vsnprintf`. -/
def vsnprintfLoop (strings : Nat → List UInt8) (size : Nat) :
    Nat → List UInt8 → VaList → Out → Except Fault Out
  | _, [], _, s => .ok s
  | 0, _ :: _, _, _ => .error .outOfFuel
  | n + 1, c :: fmt, args, s =>
      if roomOf size ≤ s.pos then .ok s
      else
        let p := turn strings c fmt args
        vsnprintfLoop strings size n p.rest p.args (s.emit p)

/-- `vsnprintf`: what it returns, and what it has stored. -/
def vsnprintf (strings : Nat → List UInt8) (size : Nat) (fmt : List UInt8) (args : VaList) :
    Except Fault (Int × Out) := do
  let s ← vsnprintfLoop strings size fmt.length fmt args Out.start
  return (asInt s.pos, s.terminate)

/-! ## What it should do -/

/-- The pieces of a format, of which there are at most `n`. -/
def piecesFrom (strings : Nat → List UInt8) : Nat → List UInt8 → VaList → List Piece
  | _, [], _ => []
  | 0, _ :: _, _ => []
  | n + 1, c :: fmt, args =>
      let p := turn strings c fmt args
      p :: piecesFrom strings n p.rest p.args

/-- The pieces of a format. -/
def pieces (strings : Nat → List UInt8) (fmt : List UInt8) (args : VaList) : List Piece :=
  piecesFrom strings fmt.length fmt args

/-- The characters of pieces. -/
def textOf (ps : List Piece) : List UInt8 := ps.flatMap Piece.text

/-- All stores are into a buffer of `size` bytes, and the last one ends the string there. -/
structure Inside (size : Nat) (s : Out) : Prop where
  bound : ∀ e ∈ s.stores, e.2 < size
  terminated : 0 < size → s.pos < size ∧ s.stores.getLast? = some (0, s.pos)

/-- The `k`-th piece begins where there is room for one character more. -/
def Reached (size : Nat) (ps : List Piece) (k : Nat) : Prop :=
  size ≤ 2 ^ 63 ∧ k < ps.length ∧ (textOf (ps.take k)).length < size - 1

/-! ## Cutting a format into pieces -/

section Pieces

variable {strings : Nat → List UInt8} {fmt : List UInt8} {args : VaList} {flags : Flags}

theorem length_skipAtoi_le (s : List UInt8) (i : Int) : (skipAtoi s i).2.length ≤ s.length := by
  induction s generalizing i with
  | nil => exact le_rfl
  | cons c s ih =>
      rw [skipAtoi]
      split
      · exact (ih _).trans (Nat.le_succ _)
      · exact le_rfl

theorem length_readFlags_le (fmt : List UInt8) (flags : Flags) :
    (readFlags fmt flags).2.length ≤ fmt.length := by
  induction fmt generalizing flags with
  | nil => exact le_rfl
  | cons c fmt ih =>
      have hskip (flags : Flags) : (readFlags fmt flags).2.length ≤ (c :: fmt).length :=
        (ih flags).trans (Nat.le_succ _)
      rw [readFlags]
      split_ifs
      iterate 5 exact hskip _
      exact le_rfl

theorem length_readWidth_le (fmt : List UInt8) (flags : Flags) (args : VaList) :
    (readWidth fmt flags args).2.2.1.length ≤ fmt.length := by
  cases fmt with
  | nil => exact le_rfl
  | cons c s =>
      rw [readWidth]
      split_ifs
      · exact length_skipAtoi_le _ _
      iterate 3 exact le_rfl

theorem length_readPrecision_le (fmt : List UInt8) (args : VaList) :
    (readPrecision fmt args).2.1.length ≤ fmt.length := by
  unfold readPrecision
  cases fmt with
  | nil => exact le_rfl
  | cons c s =>
      dsimp only
      split
      · cases s with
        | nil => exact Nat.zero_le _
        | cons d s =>
            dsimp only
            split_ifs
            · exact (length_skipAtoi_le _ _).trans (Nat.le_succ _)
            iterate 2 exact Nat.le_succ _
      · exact le_rfl

theorem length_skipQualifier_le (fmt : List UInt8) : (skipQualifier fmt).length ≤ fmt.length := by
  cases fmt with
  | nil => exact le_rfl
  | cons c s =>
      rw [skipQualifier]
      split
      · exact Nat.le_succ _
      · exact le_rfl

/-- Whatever is done with a character, the format goes on behind it. -/
theorem convert_rest (c : UInt8) (s : List UInt8) (width precision : Int) (flags : Flags)
    (args : VaList) : (convert strings (c :: s) width precision flags args).rest = s := by
  simp only [convert, apply_ite Piece.rest, ite_self]

theorem length_convert_le (fmt : List UInt8) (width precision : Int) (flags : Flags)
    (args : VaList) :
    (convert strings fmt width precision flags args).rest.length ≤ fmt.length := by
  cases fmt with
  | nil => exact le_rfl
  | cons c s =>
      rw [convert_rest]
      exact Nat.le_succ _

/-- A directive goes no way back in the format. -/
theorem length_directive_le (fmt : List UInt8) (args : VaList) :
    (directive strings fmt args).rest.length ≤ fmt.length :=
  (length_convert_le _ _ _ _ _).trans <| (length_skipQualifier_le _).trans <|
    (length_readPrecision_le _ _).trans <| (length_readWidth_le _ _ _).trans <|
      length_readFlags_le _ _

theorem length_turn_le (c : UInt8) (fmt : List UInt8) (args : VaList) :
    (turn strings c fmt args).rest.length ≤ fmt.length := by
  rw [turn]
  split
  · exact length_directive_le fmt args
  · exact le_rfl

end Pieces

/-! ## The loops -/

section Loops

variable {strings : Nat → List UInt8} {size : Nat}

/-- All pieces are stored. -/
def Out.ofPieces (ps : List Piece) : Out := ps.foldl Out.emit Out.start

/-- Pieces are stored as long as less than `room` has been. -/
def emitWhile (room : Int) : List Piece → Out → Out
  | [], s => s
  | p :: ps, s => if room ≤ s.pos then s else emitWhile room ps (s.emit p)

/-- `vsprintf` stores all pieces. -/
theorem vsprintfLoop_eq (n : Nat) (fmt : List UInt8) (args : VaList) (s : Out)
    (hn : fmt.length ≤ n) : vsprintfLoop strings n fmt args s =
      .ok ((piecesFrom strings n fmt args).foldl Out.emit s) := by
  induction n generalizing fmt args s with
  | zero =>
      rw [List.eq_nil_of_length_eq_zero (Nat.le_zero.mp hn)]
      rfl
  | succ n ih =>
      cases fmt with
      | nil => rfl
      | cons c fmt =>
          have hrest : (turn strings c fmt args).rest.length ≤ n :=
            (length_turn_le c fmt args).trans (Nat.le_of_succ_le_succ hn)
          exact ih _ _ _ hrest

/-- **`vsnprintf` stores pieces** as long as there is room. -/
theorem vsnprintfLoop_eq (n : Nat) (fmt : List UInt8) (args : VaList) (s : Out)
    (hn : fmt.length ≤ n) : vsnprintfLoop strings size n fmt args s =
      .ok (emitWhile (roomOf size) (piecesFrom strings n fmt args) s) := by
  induction n generalizing fmt args s with
  | zero =>
      rw [List.eq_nil_of_length_eq_zero (Nat.le_zero.mp hn)]
      rfl
  | succ n ih =>
      cases fmt with
      | nil => rfl
      | cons c fmt =>
          rw [vsnprintfLoop, piecesFrom, emitWhile]
          split
          · rfl
          · have hrest : (turn strings c fmt args).rest.length ≤ n :=
              (length_turn_le c fmt args).trans (Nat.le_of_succ_le_succ hn)
            exact ih _ _ _ hrest

theorem vsprintf_eq (fmt : List UInt8) (args : VaList) : vsprintf strings fmt args =
    .ok (asInt (Out.ofPieces (pieces strings fmt args)).pos,
      (Out.ofPieces (pieces strings fmt args)).terminate) := by
  rw [vsprintf, vsprintfLoop_eq _ _ _ _ le_rfl]
  rfl

theorem vsnprintf_eq (fmt : List UInt8) (args : VaList) : vsnprintf strings size fmt args =
    .ok (asInt (emitWhile (roomOf size) (pieces strings fmt args) Out.start).pos,
      (emitWhile (roomOf size) (pieces strings fmt args) Out.start).terminate) := by
  rw [vsnprintf, vsnprintfLoop_eq _ _ _ _ le_rfl]
  rfl

end Loops

/-! ## What has been stored -/

section Stored

variable {ps : List Piece} {s : Out} {size : Nat} {room : Int}

theorem textOf_cons (p : Piece) (ps : List Piece) : textOf (p :: ps) = p.text ++ textOf ps :=
  List.flatMap_cons

theorem pos_foldl (ps : List Piece) (s : Out) :
    (ps.foldl Out.emit s).pos = s.pos + (textOf ps).length := by
  induction ps generalizing s with
  | nil => rfl
  | cons p ps ih =>
      rw [List.foldl_cons, ih, textOf_cons, List.length_append, ← Nat.add_assoc]
      rfl

theorem stores_foldl (ps : List Piece) (s : Out) :
    (ps.foldl Out.emit s).stores = s.stores ++ (textOf ps).zipIdx s.pos := by
  induction ps generalizing s with
  | nil => exact (List.append_nil _).symm
  | cons p ps ih =>
      rw [List.foldl_cons, ih, textOf_cons, List.zipIdx_append, ← List.append_assoc]
      rfl

/-- What `%n` has stored stays. -/
theorem counts_prefix_foldl (ps : List Piece) (s : Out) :
    s.counts <+: (ps.foldl Out.emit s).counts := by
  induction ps generalizing s with
  | nil => exact List.prefix_rfl
  | cons p ps ih => exact (List.prefix_append _ _).trans (ih (s.emit p))

/-- Only a `%n` stores a number. -/
theorem counts_foldl_eq_nil (ps : List Piece) (s : Out) : (ps.foldl Out.emit s).counts = [] ↔
    s.counts = [] ∧ ∀ p ∈ ps, p.count = none := by
  induction ps generalizing s with
  | nil => simp
  | cons p ps ih =>
      have hemit : (s.emit p).counts = [] ↔ s.counts = [] ∧ p.count = none := by
        simp [Out.emit]
      rw [List.foldl_cons, ih, hemit, and_assoc, List.forall_mem_cons]

theorem counts_ofPieces (ps : List Piece) :
    (Out.ofPieces ps).counts = [] ↔ ∀ p ∈ ps, p.count = none :=
  (counts_foldl_eq_nil ps Out.start).trans (and_iff_right rfl)

theorem stores_ofPieces (ps : List Piece) : (Out.ofPieces ps).stores = (textOf ps).zipIdx :=
  stores_foldl ps Out.start

theorem pos_ofPieces (ps : List Piece) : (Out.ofPieces ps).pos = (textOf ps).length := by
  rw [Out.ofPieces, pos_foldl]
  exact Nat.zero_add _

theorem length_textOf_take_mono {j k : Nat} (h : j ≤ k) :
    (textOf (ps.take j)).length ≤ (textOf (ps.take k)).length :=
  ((List.take_prefix_take_left h).flatMap _).length_le

/-- The pieces that are left out store nothing if there is no room missing. -/
theorem textOf_take {k : Nat} (h : (textOf ps).length ≤ (textOf (ps.take k)).length) :
    textOf (ps.take k) = textOf ps :=
  ((List.take_prefix k ps).flatMap _).eq_of_length_le h

/-- **Stores stop at a piece** before which the room is used up; none before it uses it up. -/
theorem emitWhile_spec (room : Int) (ps : List Piece) (s : Out) :
    ∃ k ≤ ps.length, emitWhile room ps s = (ps.take k).foldl Out.emit s ∧
      (∀ j < k, (((ps.take j).foldl Out.emit s).pos : Int) < room) ∧
      (k < ps.length → room ≤ ((ps.take k).foldl Out.emit s).pos) := by
  induction ps generalizing s with
  | nil => exact ⟨0, le_rfl, rfl, fun j hj => absurd hj (Nat.not_lt_zero j), fun h => absurd h
      (lt_irrefl 0)⟩
  | cons p ps ih =>
      rw [emitWhile]
      split
      · rename_i hfull
        exact ⟨0, Nat.zero_le _, rfl, fun j hj => absurd hj (Nat.not_lt_zero j), fun _ => hfull⟩
      · rename_i hroom
        obtain ⟨k, hk, heq, hbefore, hstop⟩ := ih (s.emit p)
        refine ⟨k + 1, Nat.succ_le_succ hk, heq, fun j hj => ?_, fun h =>
          hstop (Nat.lt_of_succ_lt_succ h)⟩
        cases j with
        | zero => exact not_le.mp hroom
        | succ j => exact hbefore j (Nat.lt_of_succ_lt_succ hj)

/-- All stores are inside exactly if the end of the string is. -/
theorem inside_iff (ps : List Piece) :
    Inside size (Out.ofPieces ps).terminate ↔ (textOf ps).length < size := by
  have hstores : (Out.ofPieces ps).terminate.stores =
      (textOf ps).zipIdx ++ [(0, (textOf ps).length)] := by
    rw [Out.terminate, stores_ofPieces, pos_ofPieces]
  have hpos : (Out.ofPieces ps).terminate.pos = (textOf ps).length := pos_ofPieces ps
  constructor
  · intro h
    exact h.bound _ (hstores ▸ List.mem_append_right _ (List.mem_singleton_self _))
  · intro h
    refine ⟨fun e he => ?_, fun _ => ⟨hpos ▸ h, ?_⟩⟩
    · rw [hstores, List.mem_append, List.mem_singleton] at he
      obtain he | rfl := he
      · have hlt := List.snd_lt_of_mem_zipIdx he
        omega
      · exact h
    · rw [hstores, hpos, List.getLast?_append, List.getLast?_singleton, Option.some_or]

/-- The room in a buffer of at most `2 ^ 63` bytes, without the end of the string. -/
theorem roomOf_eq (hlo : 0 < size) (hhi : size ≤ 2 ^ 63) : roomOf size = size - 1 := by
  unfold roomOf asLong sub64 u64
  split <;> omega

/-- There is no room in a buffer of no size, and none in a buffer of more than `2 ^ 63` bytes. -/
theorem roomOf_neg (hsize : size < 2 ^ 64) (h : size = 0 ∨ 2 ^ 63 < size) : roomOf size < 0 := by
  unfold roomOf asLong sub64 u64
  split <;> omega

/-- **What `vsnprintf` stores** are the pieces that begin where there is room. -/
theorem emitWhile_reached (hsize : size < 2 ^ 64) (ps : List Piece) :
    ∃ k ≤ ps.length, emitWhile (roomOf size) ps Out.start = Out.ofPieces (ps.take k) ∧
      ∀ j, j < k ↔ Reached size ps j := by
  obtain ⟨k, hk, heq, hbefore, hstop⟩ := emitWhile_spec (roomOf size) ps Out.start
  have hpos (j : Nat) : ((ps.take j).foldl Out.emit Out.start).pos = (textOf (ps.take j)).length :=
    pos_ofPieces (ps.take j)
  simp only [hpos] at hbefore hstop
  refine ⟨k, hk, heq, fun j => ⟨fun hj => ?_, ?_⟩⟩
  · have hlt := hbefore j hj
    have hfit : 0 < size ∧ size ≤ 2 ^ 63 := by
      by_contra hunfit
      have hneg := roomOf_neg hsize (by omega)
      omega
    rw [roomOf_eq hfit.1 hfit.2] at hlt
    exact ⟨hfit.2, hj.trans_le hk, by omega⟩
  · rintro ⟨hhi, hj, hroom⟩
    by_contra hkj
    have hfull := hstop ((not_lt.mp hkj).trans_lt hj)
    have hmono : (textOf (ps.take k)).length ≤ (textOf (ps.take j)).length :=
      length_textOf_take_mono (not_lt.mp hkj)
    rw [roomOf_eq (by omega) hhi] at hfull
    omega

end Stored

/-! ## `vsnprintf` -/

section Vsnprintf

variable {strings : Nat → List UInt8} {size : Nat} {fmt : List UInt8} {args : VaList}

/-- **When `vsnprintf` stays inside the buffer**: there is a byte for the end of the string, and no
piece that begins before the last byte goes on to behind it.  It stores nothing elsewhere exactly if
no such piece is a `%n`. -/
theorem vsnprintf_inside_iff (hsize : size < 2 ^ 64) :
    ∃ r s, vsnprintf strings size fmt args = .ok (r, s) ∧
      (Inside size s ↔ 0 < size ∧ ∀ k, Reached size (pieces strings fmt args) k →
        (textOf ((pieces strings fmt args).take (k + 1))).length < size) ∧
      (s.counts = [] ↔ ∀ k p, Reached size (pieces strings fmt args) k →
        (pieces strings fmt args)[k]? = some p → p.count = none) := by
  obtain ⟨n, hn, heq, hreached⟩ := emitWhile_reached hsize (pieces strings fmt args)
  refine ⟨_, _, vsnprintf_eq fmt args, ?_, ?_⟩
  · rw [heq, inside_iff]
    constructor
    · intro hlt
      refine ⟨Nat.zero_lt_of_lt hlt, fun k hk => ?_⟩
      exact (length_textOf_take_mono ((hreached k).mpr hk)).trans_lt hlt
    · rintro ⟨hpos, hfits⟩
      cases n with
      | zero => exact hpos
      | succ n => exact hfits n ((hreached n).mp (Nat.lt_succ_self n))
  · have hcounts : (emitWhile (roomOf size) (pieces strings fmt args) Out.start).terminate.counts =
        (Out.ofPieces ((pieces strings fmt args).take n)).counts := by
      rw [heq]
      rfl
    rw [hcounts, counts_ofPieces]
    constructor
    · intro hnone k p hk hp
      refine hnone p (List.mem_iff_getElem?.mpr ⟨k, ?_⟩)
      rw [List.getElem?_take_of_lt ((hreached k).mpr hk), hp]
    · intro hnone p hp
      obtain ⟨k, hk⟩ := List.mem_iff_getElem?.mp hp
      rw [List.getElem?_take] at hk
      split at hk
      · rename_i hkn
        exact hnone k p ((hreached k).mp hkn) hk
      · exact absurd hk (by simp)

/-- A number of one digit in a buffer of three bytes. -/
theorem vsnprintf_inside_small : ∃ r s,
    vsnprintf (fun _ => []) 3 ("%d".toList.map chr) (fun _ => 7) = .ok (r, s) ∧
      (Inside 3 s ↔ 0 < 3 ∧
        ∀ k, Reached 3 (pieces (fun _ => []) ("%d".toList.map chr) fun _ => 7) k →
          (textOf ((pieces (fun _ => []) ("%d".toList.map chr) fun _ => 7).take (k + 1))).length
            < 3) ∧
      (s.counts = [] ↔
        ∀ k p, Reached 3 (pieces (fun _ => []) ("%d".toList.map chr) fun _ => 7) k →
          (pieces (fun _ => []) ("%d".toList.map chr) fun _ => 7)[k]? = some p → p.count = none) :=
  vsnprintf_inside_iff (by decide)

/-- A number of one digit with a width of five is stored to five bytes, whatever the size. -/
theorem vsnprintf_outside : ∃ r s,
    vsnprintf (fun _ => []) 3 ("%5d".toList.map chr) (fun _ => 7) = .ok (r, s) ∧ ¬ Inside 3 s := by
  refine ⟨_, _, vsnprintf_eq _ _, fun h => ?_⟩
  have hbound := h.bound (0, 5) (by decide)
  exact absurd hbound (by decide)

/-- **`vsnprintf` does what `vsprintf` does** if there is room for the whole string.  Only a `%n`
behind the string may be missing. -/
theorem vsnprintf_eq_vsprintf {r : Int} {s : Out} (hrun : vsprintf strings fmt args = .ok (r, s))
    (hlen : s.pos < size) (hsize : size ≤ 2 ^ 63) :
    ∃ s', vsnprintf strings size fmt args = .ok (r, s') ∧ s'.stores = s.stores ∧
      s'.counts <+: s.counts := by
  rw [vsprintf_eq] at hrun
  obtain ⟨rfl, rfl⟩ := Prod.mk.inj (Except.ok.inj hrun)
  have hfits : (textOf (pieces strings fmt args)).length < size :=
    (pos_ofPieces (pieces strings fmt args)).symm.trans_lt hlen
  obtain ⟨n, hn, heq, hreached⟩ :=
    emitWhile_reached (hsize.trans_lt (by decide)) (pieces strings fmt args)
  have htext : textOf ((pieces strings fmt args).take n) = textOf (pieces strings fmt args) := by
    obtain hall | hsome := hn.eq_or_lt
    · rw [hall, List.take_length]
    · -- the loop has stopped, so there is no room behind what has been stored
      refine textOf_take ?_
      by_contra hmore
      have hstop : Reached size (pieces strings fmt args) n := ⟨hsize, hsome, by omega⟩
      exact lt_irrefl n ((hreached n).mpr hstop)
  have hpos : (Out.ofPieces ((pieces strings fmt args).take n)).pos =
      (Out.ofPieces (pieces strings fmt args)).pos := by
    rw [pos_ofPieces, pos_ofPieces, htext]
  have hstores : (Out.ofPieces ((pieces strings fmt args).take n)).stores =
      (Out.ofPieces (pieces strings fmt args)).stores := by
    rw [stores_ofPieces, stores_ofPieces, htext]
  have hcounts : (Out.ofPieces ((pieces strings fmt args).take n)).counts <+:
      (Out.ofPieces (pieces strings fmt args)).counts := by
    have hsplit := List.take_append_drop n (pieces strings fmt args)
    nth_rewrite 2 [← hsplit]
    rw [Out.ofPieces, Out.ofPieces, List.foldl_append]
    exact counts_prefix_foldl _ _
  refine ⟨(Out.ofPieces ((pieces strings fmt args).take n)).terminate, ?_, ?_, hcounts⟩
  · rw [vsnprintf_eq, heq, hpos]
  · rw [Out.terminate, Out.terminate, hpos, hstores]

/-- A number of one digit with a width of three, and a character, in a buffer of eight bytes. -/
theorem vsnprintf_eq_vsprintf_small : ∃ s',
    vsnprintf (fun _ => []) 8 ("%-3d|".toList.map chr) (fun _ => 7) = .ok (4, s') ∧
      s'.stores = [(55, 0), (32, 1), (32, 2), (124, 3), (0, 4)] ∧ s'.counts <+: [] :=
  vsnprintf_eq_vsprintf
    (s := ⟨[(55, 0), (32, 1), (32, 2), (124, 3), (0, 4)], [], 4⟩)
    (by rw [vsprintf_eq]; decide +kernel) (by decide) (by decide)

end Vsnprintf

end InfoKernel.Klibc
