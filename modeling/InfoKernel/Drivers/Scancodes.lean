import InfoKernel.Drivers.Keyboard
import Mathlib.Data.List.Infix

/-!
# Typing

`InputQueue::ProcessScancode` of `keyboard.cc` with the keymaps of `keyboard.h`: the interrupt
handler gives it one byte after the other, it keeps in four flags which keys are down, and it puts
characters into the queue that `Peek` and `ReadBuffer` empty.

What a byte means depends on all bytes before it.  `held` and `capsOn` say this with the list of
these bytes and no flags, and `typed` is the text that a list of bytes types.  `typing_run` says
that this is the text that comes out of the queue, however the bytes and the calls of the consumers
follow each other: always in order and with nothing added, and all of it as long as fewer than 127
characters wait.

In the other direction, `strokes` gives the bytes that type a text, key by key and with the shift
key where it is needed; `typing_strokes` says that it comes out again.
-/

namespace InfoKernel.Drivers.Keyboard

open Lib

/-! ## The model -/

/-- `keymap_normal` -/
def keymapNormal : List UInt8 :=
  [0, 0, 49, 50, 51, 52, 53, 54, 55, 56, 57, 48, 45, 61, 8, 9, 113, 119, 101, 114, 116, 121, 117,
    105, 111, 112, 91, 93, 10, 0, 97, 115, 100, 102, 103, 104, 106, 107, 108, 59, 39, 96, 0, 92,
    122, 120, 99, 118, 98, 110, 109, 44, 46, 47, 0, 42, 0, 32, 0, 0, 0, 0, 0, 0, 0, 0, 0, 0, 0, 0,
    0, 55, 56, 57, 45, 52, 53, 54, 43, 49, 50, 51, 48, 46, 0, 0, 0, 0]

/-- `keymap_shift` -/
def keymapShift : List UInt8 :=
  [0, 0, 33, 64, 35, 36, 37, 94, 38, 42, 40, 41, 95, 43, 8, 9, 81, 87, 69, 82, 84, 89, 85, 73, 79,
    80, 123, 125, 10, 0, 65, 83, 68, 70, 71, 72, 74, 75, 76, 58, 34, 126, 0, 124, 90, 88, 67, 86,
    66, 78, 77, 60, 62, 63, 0, 42, 0, 32, 0, 0, 0, 0, 0, 0, 0, 0, 0, 0, 0, 0, 0, 55, 56, 57, 45, 52,
    53, 54, 43, 49, 50, 51, 48, 46, 0, 0, 0, 0]

/-- `NUM_TTYS` -/
def numTtys : UInt8 := 6

/-- The flags of the keyboard, and whether there is a `tty_switch_callback`. -/
structure Flags where
  shiftPressed : Bool
  ctrlPressed : Bool
  altPressed : Bool
  capsLock : Bool
  ttySwitchCallback : Bool

/-- The flags at first. -/
def Flags.init (ttySwitchCallback : Bool) : Flags := ⟨false, false, false, false, ttySwitchCallback⟩

/-- `release` -/
def release (sc : UInt8) : Bool := sc &&& 0x80 != 0

/-- `code` -/
def code (sc : UInt8) : UInt8 := sc &&& 0x7f

/-- The character with the control key. -/
def controlChar (c : UInt8) : UInt8 :=
  if 97 ≤ c ∧ c ≤ 122 then c - 97 + 1
  else if c = 91 then 0x1b
  else if c = 92 then 0x1c
  else if c = 93 then 0x1d
  else if c = 47 then 0x1f
  else if c = 51 then 0x1b
  else c

/-- The character of a key, from the keymap on. -/
def keyChar (shift ctrl caps : Bool) (code : UInt8) : Option UInt8 :=
  let keymap := if shift then keymapShift else keymapNormal
  let c := keymap.getD code.toNat 0
  if c = 0 then none
  else
    let c := if 97 ≤ c ∧ c ≤ 122 then if caps || shift then c - 97 + 65 else c else c
    some (if ctrl then controlChar c else c)

/-- `InputQueue::ProcessScancode`: the flags, the queue, and the number that `tty_switch_callback`
is called with. -/
def processScancode (k : Flags) (q : InputQueue) (sc : UInt8) : Flags × InputQueue × Option UInt8 :=
  if keymapNormal.length ≤ (code sc).toNat then (k, q, none)
  else if code sc = 0x2a ∨ code sc = 0x36 then ({ k with shiftPressed := !release sc }, q, none)
  else if code sc = 0x1d then ({ k with ctrlPressed := !release sc }, q, none)
  else if code sc = 0x38 then ({ k with altPressed := !release sc }, q, none)
  else if code sc = 0x3a then
    (if release sc then k else { k with capsLock := !k.capsLock }, q, none)
  else if release sc then (k, q, none)
  else if (k.ttySwitchCallback && k.altPressed && k.ctrlPressed) = true ∧
      0x3b ≤ code sc ∧ code sc ≤ 0x3b + numTtys then
    (k, q, some (code sc - 0x3b + 1))
  else
    match keyChar k.shiftPressed k.ctrlPressed k.capsLock (code sc) with
    | none => (k, q, none)
    | some c => (k, q.insert c, none)

/-! ## What the bytes mean -/

/-- One of the keys is down, as far as the bytes tell: the last one of them that is about such a key
is that of a press. -/
def held (keys : List UInt8) (h : List UInt8) : Bool :=
  match (h.filter fun sc => code sc ∈ keys).getLast? with
  | none => false
  | some sc => !release sc

/-- The shift keys. -/
def shiftKeys : List UInt8 := [0x2a, 0x36]

/-- The caps lock key has been pressed an odd number of times. -/
def capsOn (h : List UInt8) : Bool := h.count 0x3a % 2 == 1

/-- The bytes that are about no character. -/
def modifierKeys : List UInt8 := [0x2a, 0x36, 0x1d, 0x38, 0x3a]

/-- The terminal that a byte asks for behind the bytes `h`: that of a function key, with the control
and the alt key. -/
def request (callback : Bool) (h : List UInt8) (sc : UInt8) : Option UInt8 :=
  if callback ∧ held [0x38] h ∧ held [0x1d] h ∧ 0x3b ≤ sc ∧ sc ≤
    0x41 then some (sc - 0x3a) else none

/-- The character that a byte types behind the bytes `h`. -/
def stroke (callback : Bool) (h : List UInt8) (sc : UInt8) : Option UInt8 :=
  if sc < 88 ∧ sc ∉ modifierKeys ∧ request callback h sc = none then
    keyChar (held shiftKeys h) (held [0x1d] h) (capsOn h) sc
  else none

/-- What the bytes `scs` type behind the bytes `h`. -/
def typedFrom (callback : Bool) : List UInt8 → List UInt8 → List UInt8
  | _, [] => []
  | h, sc :: scs => (stroke callback h sc).toList ++ typedFrom callback (h ++ [sc]) scs

/-- **The text that the bytes type.** -/
def typed (callback : Bool) (scs : List UInt8) : List UInt8 := typedFrom callback [] scs

/-- The terminals that the bytes ask for behind the bytes `h`. -/
def requestedFrom (callback : Bool) : List UInt8 → List UInt8 → List UInt8
  | _, [] => []
  | h, sc :: scs => (request callback h sc).toList ++ requestedFrom callback (h ++ [sc]) scs

/-- The terminals that the bytes ask for. -/
def requested (callback : Bool) (scs : List UInt8) : List UInt8 := requestedFrom callback [] scs

section History

variable {callback : Bool} {h scs : List UInt8} {sc : UInt8} {keys : List UInt8}

@[simp] theorem held_nil : held keys [] = false := rfl

theorem held_snoc : held keys (h ++ [sc]) =
    if code sc ∈ keys then !release sc else held keys h := by
  unfold held
  by_cases hsc : code sc ∈ keys
  · simp [hsc]
  · simp [hsc]

@[simp] theorem capsOn_nil : capsOn [] = false := rfl

theorem capsOn_snoc : capsOn (h ++ [sc]) = if sc = 0x3a then !capsOn h else capsOn h := by
  unfold capsOn
  by_cases hsc : sc = 0x3a
  · simp only [hsc, List.count_append, List.count_singleton_self, if_true]
    rcases Nat.mod_two_eq_zero_or_one (h.count 0x3a) with heven | hodd
    · simp [Nat.add_mod, heven]
    · simp [Nat.add_mod, hodd]
  · simp [hsc, List.count_append]

theorem typedFrom_snoc (h scs : List UInt8) (sc : UInt8) : typedFrom callback h (scs ++ [sc]) =
    typedFrom callback h scs ++ (stroke callback (h ++ scs) sc).toList := by
  induction scs generalizing h with
  | nil => simp [typedFrom]
  | cons x scs ih => simp [typedFrom, ih]

theorem requestedFrom_snoc (h scs : List UInt8) (sc : UInt8) :
    requestedFrom callback h (scs ++ [sc]) =
      requestedFrom callback h scs ++ (request callback (h ++ scs) sc).toList := by
  induction scs generalizing h with
  | nil => simp [requestedFrom]
  | cons x scs ih => simp [requestedFrom, ih]

theorem typedFrom_append (h scs scs' : List UInt8) : typedFrom callback h (scs ++ scs') =
    typedFrom callback h scs ++ typedFrom callback (h ++ scs) scs' := by
  induction scs generalizing h with
  | nil => simp [typedFrom]
  | cons x scs ih => simp [typedFrom, ih]

end History

/-! ## The flags tell what the bytes have been -/

/-- The flags are those of the bytes `h`. -/
structure Flags.Tells (callback : Bool) (k : Flags) (h : List UInt8) : Prop where
  shift : k.shiftPressed = held shiftKeys h
  ctrl : k.ctrlPressed = held [0x1d] h
  alt : k.altPressed = held [0x38] h
  caps : k.capsLock = capsOn h
  callback : k.ttySwitchCallback = callback

section Flags

variable {callback : Bool} {h : List UInt8} {sc : UInt8} {k k' : Flags}

theorem Flags.init_tells : (Flags.init callback).Tells callback [] := ⟨rfl, rfl, rfl, rfl, rfl⟩

/-- What holds of all bytes. -/
theorem forall_byte {P : UInt8 → Prop} (hall : ∀ n < 256, P (UInt8.ofNat n))
    (sc : UInt8) : P sc := by
  have hsc := hall sc.toNat sc.toNat_lt
  rwa [UInt8.ofNat_toNat] at hsc

/-- The byte of a press is the code. -/
theorem code_of_press (hsc : release sc = false) : code sc = sc := by
  revert hsc
  exact forall_byte (P := fun sc => release sc = false → code sc = sc) (by decide +kernel) sc

/-- A byte that is no press of a key with a character types nothing and asks for nothing. -/
theorem idle_of_byte (callback : Bool) (h : List UInt8) (hsc : ¬ (sc < 88 ∧ sc ∉ modifierKeys))
    (hkey : ¬ (0x3b ≤ sc ∧ sc ≤ 0x41)) :
    stroke callback h sc = none ∧ request callback h sc = none :=
  ⟨if_neg fun hall => hsc ⟨hall.1, hall.2.1⟩, if_neg fun hall => hkey hall.2.2.2⟩

/-- A byte about a modifier key. -/
theorem modifier_idle (callback : Bool) (h : List UInt8) (hsc : code sc ∈ modifierKeys) :
    stroke callback h sc = none ∧ request callback h sc = none := by
  have hbyte : ¬ (sc < 88 ∧ sc ∉ modifierKeys) ∧ ¬ (0x3b ≤ sc ∧ sc ≤ 0x41) := by
    revert hsc
    exact forall_byte (P := fun sc => code sc ∈ modifierKeys →
      ¬ (sc < 88 ∧ sc ∉ modifierKeys) ∧ ¬ (0x3b ≤ sc ∧ sc ≤ 0x41)) (by decide +kernel) sc
  exact idle_of_byte callback h hbyte.1 hbyte.2

/-- The release of a key. -/
theorem release_idle (callback : Bool) (h : List UInt8) (hsc : release sc = true) :
    stroke callback h sc = none ∧ request callback h sc = none := by
  have hbyte : ¬ (sc < 88 ∧ sc ∉ modifierKeys) ∧ ¬ (0x3b ≤ sc ∧ sc ≤ 0x41) := by
    revert hsc
    exact forall_byte (P := fun sc => release sc = true →
      ¬ (sc < 88 ∧ sc ∉ modifierKeys) ∧ ¬ (0x3b ≤ sc ∧ sc ≤ 0x41)) (by decide +kernel) sc
  exact idle_of_byte callback h hbyte.1 hbyte.2

/-- A code that is not in the keymaps. -/
theorem outside_idle (callback : Bool) (h : List UInt8)
    (hsc : keymapNormal.length ≤ (code sc).toNat) : code sc ∉ modifierKeys ∧
    stroke callback h sc = none ∧ request callback h sc = none := by
  have hbyte : code sc ∉ modifierKeys ∧ ¬ (sc < 88 ∧ sc ∉ modifierKeys) ∧
      ¬ (0x3b ≤ sc ∧ sc ≤ 0x41) := by
    revert hsc
    exact forall_byte (P := fun sc => keymapNormal.length ≤ (code sc).toNat →
      code sc ∉ modifierKeys ∧ ¬ (sc < 88 ∧ sc ∉ modifierKeys) ∧ ¬ (0x3b ≤ sc ∧ sc ≤ 0x41))
      (by decide +kernel) sc
  exact ⟨hbyte.1, idle_of_byte callback h hbyte.2.1 hbyte.2.2⟩

/-- **How the flags change.** -/
theorem Flags.Tells.snoc (hk : k.Tells callback h)
    (hshift : k'.shiftPressed = if code sc ∈ shiftKeys then !release sc else k.shiftPressed)
    (hctrl : k'.ctrlPressed = if code sc = 0x1d then !release sc else k.ctrlPressed)
    (halt : k'.altPressed = if code sc = 0x38 then !release sc else k.altPressed)
    (hcaps : k'.capsLock = if sc = 0x3a then !k.capsLock else k.capsLock)
    (hcallback : k'.ttySwitchCallback = k.ttySwitchCallback) : k'.Tells callback (h ++ [sc]) where
  shift := by rw [held_snoc, hshift, hk.shift]
  ctrl := by simp only [held_snoc, hctrl, hk.ctrl, List.mem_singleton]
  alt := by simp only [held_snoc, halt, hk.alt, List.mem_singleton]
  caps := by rw [capsOn_snoc, hcaps, hk.caps]
  callback := hcallback.trans hk.callback

/-- A byte that is about no modifier key. -/
theorem Flags.Tells.snoc_of_not_mem (hk : k.Tells callback h) (hsc : code sc ∉ modifierKeys) :
    k.Tells callback (h ++ [sc]) := by
  have hcaps : sc ≠ 0x3a := by
    rintro rfl
    exact hsc (by decide)
  simp only [modifierKeys, List.mem_cons, List.not_mem_nil, or_false, not_or] at hsc
  obtain ⟨hleft, hright, hctrl, halt, -⟩ := hsc
  exact hk.snoc (by simp [shiftKeys, hleft, hright]) (by simp [hctrl]) (by simp [halt])
    (by simp [hcaps]) rfl

/-- A byte about another key is not the press of the caps lock key. -/
theorem ne_caps (hsc : code sc ≠ 0x3a) : sc ≠ 0x3a := by
  rintro rfl
  exact hsc (by decide)

/-- The press of the caps lock key. -/
theorem caps_iff (hsc : code sc = 0x3a) : sc = 0x3a ↔ release sc = false := by
  revert hsc
  exact forall_byte (P := fun sc => code sc = 0x3a → (sc = 0x3a ↔ release sc = false))
    (by decide +kernel) sc

/-- The number of the terminal of a function key. -/
theorem tty_num (sc : UInt8) : sc - 0x3b + 1 = sc - 0x3a :=
  forall_byte (P := fun sc => sc - 0x3b + 1 = sc - 0x3a) (by decide +kernel) sc

/-- **A byte**: the flags tell what it was, and it types what it means. -/
theorem processScancode_spec (hk : k.Tells callback h) (q : InputQueue) (sc : UInt8) :
    ∃ k', processScancode k q sc =
        (k', (stroke callback h sc).elim q q.insert, request callback h sc) ∧
      k'.Tells callback (h ++ [sc]) := by
  rw [processScancode]
  by_cases hlen : keymapNormal.length ≤ (code sc).toNat
  · obtain ⟨hmod, hstroke, hrequest⟩ := outside_idle callback h hlen
    rw [if_pos hlen, hstroke, hrequest]
    exact ⟨k, rfl, hk.snoc_of_not_mem hmod⟩
  rw [if_neg hlen]
  by_cases hshift : code sc = 0x2a ∨ code sc = 0x36
  · have hmod : code sc ∈ modifierKeys := by rcases hshift with heq | heq <;> rw [heq] <;> decide
    obtain ⟨hstroke, hrequest⟩ := modifier_idle callback h hmod
    rw [if_pos hshift, hstroke, hrequest]
    refine ⟨_, rfl, hk.snoc ?_ ?_ ?_ ?_ rfl⟩
    · exact (if_pos (by simpa [shiftKeys] using hshift)).symm
    · exact (if_neg (by rcases hshift with heq | heq <;> rw [heq] <;> decide)).symm
    · exact (if_neg (by rcases hshift with heq | heq <;> rw [heq] <;> decide)).symm
    · exact (if_neg (ne_caps (by rcases hshift with heq | heq <;> rw [heq] <;> decide))).symm
  rw [if_neg hshift]
  rw [not_or] at hshift
  by_cases hctrl : code sc = 0x1d
  · obtain ⟨hstroke, hrequest⟩ := modifier_idle callback h (show code sc ∈ modifierKeys by
      rw [hctrl]
      decide)
    rw [if_pos hctrl, hstroke, hrequest]
    refine ⟨_, rfl, hk.snoc ?_ (if_pos hctrl).symm ?_ ?_ rfl⟩
    · exact (if_neg (by simp [shiftKeys, hshift])).symm
    · exact (if_neg (by rw [hctrl]; decide)).symm
    · exact (if_neg (ne_caps (by rw [hctrl]; decide))).symm
  rw [if_neg hctrl]
  by_cases halt : code sc = 0x38
  · obtain ⟨hstroke, hrequest⟩ := modifier_idle callback h (show code sc ∈ modifierKeys by
      rw [halt]
      decide)
    rw [if_pos halt, hstroke, hrequest]
    refine ⟨_, rfl, hk.snoc ?_ (if_neg hctrl).symm (if_pos halt).symm ?_ rfl⟩
    · exact (if_neg (by simp [shiftKeys, hshift])).symm
    · exact (if_neg (ne_caps (by rw [halt]; decide))).symm
  rw [if_neg halt]
  by_cases hcaps : code sc = 0x3a
  · obtain ⟨hstroke, hrequest⟩ := modifier_idle callback h (show code sc ∈ modifierKeys by
      rw [hcaps]
      decide)
    have hleft : code sc ∉ shiftKeys := by
      rw [hcaps]
      decide
    rw [if_pos hcaps, hstroke, hrequest]
    by_cases hrel : release sc = true
    · have hkept : sc ≠ 0x3a := fun heq => by simp [(caps_iff hcaps).mp heq] at hrel
      rw [if_pos hrel]
      exact ⟨_, rfl, hk.snoc (if_neg hleft).symm (if_neg hctrl).symm (if_neg halt).symm
        (if_neg hkept).symm rfl⟩
    · rw [if_neg hrel]
      exact ⟨_, rfl, hk.snoc (if_neg hleft).symm (if_neg hctrl).symm (if_neg halt).symm
        (if_pos ((caps_iff hcaps).mpr (eq_false_of_ne_true hrel))).symm rfl⟩
  rw [if_neg hcaps]
  have hmod : code sc ∉ modifierKeys := by simp [modifierKeys, hshift, hctrl, halt, hcaps]
  by_cases hrel : release sc = true
  · obtain ⟨hstroke, hrequest⟩ := release_idle callback h hrel
    rw [if_pos hrel, hstroke, hrequest]
    exact ⟨k, rfl, hk.snoc_of_not_mem hmod⟩
  rw [if_neg hrel]
  have hcode : code sc = sc := code_of_press (eq_false_of_ne_true hrel)
  rw [hcode] at hlen hmod ⊢
  have hsc : sc < 88 := UInt8.lt_iff_toNat_lt.mpr (Nat.not_le.mp hlen)
  refine ⟨k, ?_, hk.snoc_of_not_mem (hcode.symm ▸ hmod)⟩
  rw [hk.callback, hk.alt, hk.ctrl, hk.shift, hk.caps]
  by_cases hkey : (callback && held [0x38] h && held [0x1d] h) = true ∧ 0x3b ≤ sc ∧
      sc ≤ 0x3b + numTtys
  · have hrequest : request callback h sc = some (sc - 0x3a) :=
      if_pos (by simpa [and_assoc, numTtys] using hkey)
    have hstroke : stroke callback h sc = none :=
      if_neg fun hall => by rw [hrequest] at hall; cases hall.2.2
    rw [if_pos hkey, hstroke, hrequest, tty_num]
    rfl
  · have hrequest : request callback h sc = none :=
      if_neg fun hall => hkey (by simpa [and_assoc, numTtys] using hall)
    have hstroke :
      stroke callback h sc = keyChar (held shiftKeys h) (held [0x1d] h) (capsOn h) sc :=
      if_pos ⟨hsc, hmod, hrequest⟩
    rw [if_neg hkey, hstroke, hrequest]
    cases keyChar (held shiftKeys h) (held [0x1d] h) (capsOn h) sc <;> rfl

end Flags

/-! ## The system -/

/-- A byte of the keyboard, or the call of a consumer. -/
inductive Event where
  | scancode (sc : UInt8)
  | peek (c : Nat)
  | readBuffer (buf size : Nat)

/-- The bytes among the events. -/
def scancodes (es : List Event) : List UInt8 :=
  es.filterMap fun
    | .scancode sc => some sc
    | _ => none

/-- The keyboard, the queue and the memory, what has been delivered, and the terminals that have
been asked for. -/
structure Desk where
  flags : Flags
  queue : InputQueue
  memory : Nat → UInt8
  delivered : List UInt8
  switched : List UInt8

namespace Desk

/-- Behind `Init`. -/
def init (callback : Bool) (memory : Nat → UInt8) : Desk := ⟨.init callback, .init, memory, [], []⟩

/-- An event. -/
def event (d : Desk) : Event → Desk
  | .scancode sc =>
      let (flags, queue, tty) := processScancode d.flags d.queue sc
      { d with flags := flags, queue := queue, switched := d.switched ++ tty.toList }
  | .peek c =>
      let (found, queue, memory) := d.queue.peek d.memory c
      { d with
        queue := queue
        memory := memory
        delivered := if found then d.delivered ++ [memory c] else d.delivered }
  | .readBuffer buf size =>
      let (bytesRead, queue, memory) := d.queue.readBuffer d.memory buf size
      { d with
        queue := queue
        memory := memory
        delivered := d.delivered ++ window memory buf bytesRead }

/-- The events, one behind the other. -/
def events (d : Desk) (es : List Event) : Desk := es.foldl event d

@[simp] theorem events_nil (d : Desk) : d.events [] = d := rfl

@[simp] theorem events_snoc (d : Desk) (es : List Event) (e : Event) :
    d.events (es ++ [e]) = (d.events es).event e := List.foldl_concat ..

/-- The characters that have been typed and not been lost. -/
def text (d : Desk) : List UInt8 := d.delivered ++ d.queue.buffered

/-- What holds behind the bytes `h`; nothing has been lost if `all` holds. -/
structure Types (callback : Bool) (all : Prop) (d : Desk) (h : List UInt8) : Prop where
  flags : d.flags.Tells callback h
  range : d.queue.InRange
  sublist : d.text.Sublist (typed callback h)
  exact : all → d.text = typed callback h
  switched : d.switched = requested callback h

end Desk

section Runs

variable {all : Prop} {b : Bool} {d d' : Desk} {h : List UInt8}

theorem Desk.init_types (b : Bool) (memory : Nat → UInt8) (all : Prop) :
    (Desk.init b memory).Types b all [] :=
  ⟨Flags.init_tells, InputQueue.init_inRange, List.Sublist.refl [], fun _ => rfl, rfl⟩

/-- A byte has come that typed `cs`, and the text is longer by `cs'`. -/
theorem Desk.Types.snoc {sc : UInt8} {cs' : List UInt8} (hd : d.Types b all h)
    (hflags : d'.flags.Tells b (h ++ [sc])) (hrange : d'.queue.InRange)
    (htext : d'.text = d.text ++ cs') (hsub : cs'.Sublist (stroke b h sc).toList)
    (hall : all → cs' = (stroke b h sc).toList)
    (hswitched : d'.switched = d.switched ++ (request b h sc).toList) :
    d'.Types b all (h ++ [sc]) := by
  have htyped : typed b (h ++ [sc]) = typed b h ++ (stroke b h sc).toList := typedFrom_snoc [] h sc
  have hrequested : requested b (h ++ [sc]) = requested b h ++ (request b h sc).toList :=
    requestedFrom_snoc [] h sc
  refine ⟨hflags, hrange, ?_, fun hall' => ?_, ?_⟩
  · rw [htext, htyped]
    exact hd.sublist.append hsub
  · rw [htext, htyped, hd.exact hall', hall hall']
  · rw [hswitched, hrequested, hd.switched]

/-- Nothing but the place of the text has changed. -/
theorem Desk.Types.consumed (hd : d.Types b all h) (hflags : d'.flags = d.flags)
    (hrange : d'.queue.InRange) (htext : d'.text = d.text) (hswitched : d'.switched = d.switched) :
    d'.Types b all h := by
  refine ⟨?_, hrange, ?_, ?_, ?_⟩
  · rw [hflags]
    exact hd.flags
  · rw [htext]
    exact hd.sublist
  · rw [htext]
    exact hd.exact
  · rw [hswitched]
    exact hd.switched

/-- A byte comes. -/
theorem Desk.Types.scancode (hd : d.Types b all h) (sc : UInt8)
    (hroom : all → d.queue.buffered.length < kbdBufferSize - 1) :
    (d.event (.scancode sc)).Types b all (h ++ [sc]) := by
  obtain ⟨k, hrun, hk⟩ := processScancode_spec hd.flags d.queue sc
  have hevent : d.event (.scancode sc) = { d with
      flags := k
      queue := (stroke b h sc).elim d.queue d.queue.insert
      switched := d.switched ++ (request b h sc).toList } := by
    rw [Desk.event, hrun]
  rw [hevent]
  cases hstroke : stroke b h sc with
  | none =>
      refine hd.snoc hk hd.range (List.append_nil _).symm (List.nil_sublist _) (fun _ => ?_) rfl
      rw [hstroke, Option.toList_none]
  | some c =>
      by_cases hc : d.queue.Accepts c
      · obtain ⟨hrange, hlist⟩ := InputQueue.insert_of_accepts hd.range hc
        have htext : d.delivered ++ (d.queue.insert c).buffered = d.text ++ [c] := by
          rw [hlist, ← List.append_assoc, Desk.text]
        have hchar : [c] = (stroke b h sc).toList := by rw [hstroke, Option.toList_some]
        exact hd.snoc hk hrange htext (hchar ▸ List.Sublist.refl _) (fun _ => hchar) rfl
      · -- the queue is full
        have hsame : (some c).elim d.queue d.queue.insert = d.queue :=
          InputQueue.insert_of_not_accepts hc
        rw [hsame]
        exact hd.snoc hk hd.range (List.append_nil _).symm (List.nil_sublist _)
          (fun hall => absurd ((InputQueue.accepts_iff d.queue c).mpr (hroom hall)) hc) rfl

/-- A consumer takes a character. -/
theorem Desk.Types.peek (hd : d.Types b all h) (c : Nat) : (d.event (.peek c)).Types b all h := by
  obtain ⟨-, hpeek⟩ | ⟨q, mem, hpeek, hrange, hlist⟩ :=
    InputQueue.peek_cases hd.range d.memory c
  · rw [Desk.event, hpeek]
    exact hd.consumed rfl hd.range rfl rfl
  · have htext : d.delivered ++ [mem c] ++ q.buffered = d.text := by
      rw [List.append_assoc, List.singleton_append, ← hlist, Desk.text]
    rw [Desk.event, hpeek]
    exact hd.consumed rfl hrange htext rfl

/-- A consumer takes what is there. -/
theorem Desk.Types.readBuffer (hd : d.Types b all h) (buf size : Nat) :
    (d.event (.readBuffer buf size)).Types b all h := by
  obtain ⟨q, mem, hread, hrange, hlist⟩ :=
    InputQueue.readBuffer_spec hd.range d.memory buf size
  have htext : d.delivered ++ window mem buf (min size d.queue.count) ++ q.buffered = d.text := by
    rw [List.append_assoc, ← hlist, Desk.text]
  rw [Desk.event, hread]
  exact hd.consumed rfl hrange htext rfl

/-- There is room for a character whenever a byte comes. -/
def Desk.HasRoom (d : Desk) (es : List Event) : Prop :=
  ∀ es₁ sc es₂, es = es₁ ++ .scancode sc :: es₂ →
    (d.events es₁).queue.buffered.length < kbdBufferSize - 1

theorem Desk.events_types (b : Bool) (memory : Nat → UInt8) (es : List Event) :
    ((Desk.init b memory).events es).Types b ((Desk.init b memory).HasRoom es) (scancodes es) := by
  induction es using List.reverseRecOn with
  | nil => exact Desk.init_types b memory _
  | append_singleton es e ih =>
      have hmono : (Desk.init b memory).HasRoom (es ++ [e]) → (Desk.init b memory).HasRoom es := by
        intro hroom es₁ sc es₂ heq
        exact hroom es₁ sc (es₂ ++ [e]) (by rw [heq, List.append_assoc, List.cons_append])
      have hd : ((Desk.init b memory).events es).Types b ((Desk.init b memory).HasRoom (es ++ [e]))
          (scancodes es) := ⟨ih.flags, ih.range, ih.sublist, fun hall => ih.exact (hmono hall),
            ih.switched⟩
      rw [Desk.events_snoc]
      cases e with
      | scancode sc =>
          have hbytes : scancodes (es ++ [.scancode sc]) = scancodes es ++ [sc] :=
            List.filterMap_append ..
          rw [hbytes]
          exact hd.scancode sc fun hroom => hroom es sc [] rfl
      | peek c =>
          have hbytes : scancodes (es ++ [.peek c]) = scancodes es := by
            simp [scancodes]
          rw [hbytes]
          exact hd.peek c
      | readBuffer buf size =>
          have hbytes : scancodes (es ++ [.readBuffer buf size]) = scancodes es := by
            simp [scancodes]
          rw [hbytes]
          exact hd.readBuffer buf size

theorem length_stroke_le (b : Bool) (h : List UInt8) (sc : UInt8) :
    (stroke b h sc).toList.length ≤ 1 := by
  cases stroke b h sc <;> simp

/-- A byte types at most one character. -/
theorem length_typedFrom_le (b : Bool) (h scs : List UInt8) :
    (typedFrom b h scs).length ≤ scs.length := by
  induction scs generalizing h with
  | nil => exact Nat.le_refl 0
  | cons sc scs ih =>
      have hfirst := length_stroke_le b h sc
      have hrest := ih (h ++ [sc])
      simp only [typedFrom, List.length_append, List.length_cons]
      omega

/-- There is room for as many bytes as the queue has slots. -/
theorem Desk.hasRoom_of_short (b : Bool) (memory : Nat → UInt8) {es : List Event}
    (hes : (scancodes es).length < kbdBufferSize) : (Desk.init b memory).HasRoom es := by
  rintro es₁ sc es₂ rfl
  have htext := (Desk.events_types b memory es₁).sublist.length_le
  have hbytes := length_typedFrom_le b [] (scancodes es₁)
  have hcount : (scancodes (es₁ ++ .scancode sc :: es₂)).length =
      (scancodes es₁).length + ((scancodes es₂).length + 1) := by
    simp [scancodes, List.filterMap_append]
  rw [Desk.text, List.length_append] at htext
  unfold typed at htext
  omega

/-- **What is typed comes out.**  Whatever bytes come and whatever the consumers call, in any order:
what they have been given and what waits in the queue is, in order, a part of the text that the
bytes type, and all of it if there has always been room in the queue.  And the terminals that
`tty_switch_callback` has been called with are those that the bytes ask for. -/
theorem typing_run (b : Bool) (memory : Nat → UInt8) (es : List Event) :
    ((Desk.init b memory).events es).text.Sublist (typed b (scancodes es)) ∧
      ((Desk.init b memory).HasRoom es →
        ((Desk.init b memory).events es).text = typed b (scancodes es)) ∧
      ((Desk.init b memory).events es).switched = requested b (scancodes es) :=
  have htypes := Desk.events_types b memory es
  ⟨htypes.sublist, htypes.exact, htypes.switched⟩

end Runs

/-! ## Typing a text -/

/-- There is a key for the character: it is printable, or a backspace, a tab or a newline. -/
def Typeable (c : UInt8) : Prop := 32 ≤ c ∧ c ≤ 126 ∨ c = 8 ∨ c = 9 ∨ c = 10

instance (c : UInt8) : Decidable (Typeable c) := inferInstanceAs (Decidable (_ ∨ _))

/-- The key of the character in a keymap. -/
def keyOf (keymap : List UInt8) (c : UInt8) : UInt8 := UInt8.ofNat (keymap.idxOf c)

/-- The key is pressed and released. -/
def tap (key : UInt8) : List UInt8 := [key, key + 0x80]

/-- The bytes that type a character, with the shift key where only this has it. -/
def strokesOf (c : UInt8) : List UInt8 :=
  if c ∈ keymapNormal then tap (keyOf keymapNormal c)
  else [0x2a] ++ tap (keyOf keymapShift c) ++ [0xaa]

/-- The bytes that type a text. -/
def strokes (str : List UInt8) : List UInt8 := str.flatMap strokesOf

/-- No modifier is on. -/
structure Calm (h : List UInt8) : Prop where
  shift : held shiftKeys h = false
  ctrl : held [0x1d] h = false
  caps : capsOn h = false

section Strokes

variable {b : Bool} {h : List UInt8} {c key : UInt8}

theorem Calm.nil : Calm [] := ⟨rfl, rfl, rfl⟩

/-- The key gives the character with the keymap, and is none of the modifiers. -/
structure Gives (shift : Bool) (key c : UInt8) : Prop where
  press : key < 88
  code : code key = key
  release : Keyboard.code (key + 0x80) = key
  after : 88 ≤ key + 0x80
  other : key ∉ modifierKeys
  char : keyChar shift false false key = some c

/-- A key types its character, and its release nothing. -/
theorem Gives.tap {shift : Bool} (hkey : Gives shift key c) (hshift : held shiftKeys h = shift)
    (hctrl : held [0x1d] h = false) (hcaps : capsOn h = false) :
    typedFrom b h (tap key) = [c] ∧ held shiftKeys (h ++ tap key) = shift ∧
      held [0x1d] (h ++ tap key) = false ∧ capsOn (h ++ tap key) = false := by
  have hrequest : request b h key = none := if_neg fun hall => by simp [hctrl] at hall
  have hpress : stroke b h key = some c := by
    rw [stroke, if_pos ⟨hkey.press, hkey.other, hrequest⟩, hshift, hctrl, hcaps]
    exact hkey.char
  have hrelease : stroke b (h ++ [key]) (key + 0x80) = none :=
    if_neg fun hall => absurd hall.1 (UInt8.not_lt.mpr hkey.after)
  have hother := hkey.other
  simp only [modifierKeys, List.mem_cons, List.not_mem_nil, or_false, not_or] at hother
  obtain ⟨hleft, hright, hctrl', -, hcaps'⟩ := hother
  have hnot : key ∉ shiftKeys := by simp [shiftKeys, hleft, hright]
  have hsplit : h ++ Keyboard.tap key = h ++ [key] ++ [key + 0x80] := by simp [Keyboard.tap]
  have hbyte : key + 0x80 ≠ 0x3a := fun heq => by
    have hafter := hkey.after
    rw [heq] at hafter
    exact absurd hafter (by decide)
  refine ⟨?_, ?_, ?_, ?_⟩
  · simp [Keyboard.tap, typedFrom, hpress, hrelease]
  · rw [hsplit, held_snoc, hkey.release, if_neg hnot, held_snoc, hkey.code, if_neg hnot, hshift]
  · rw [hsplit, held_snoc, hkey.release, if_neg (by simpa using hctrl'), held_snoc, hkey.code,
      if_neg (by simpa using hctrl'), hctrl]
  · rw [hsplit, capsOn_snoc, if_neg hbyte, capsOn_snoc, if_neg hcaps', hcaps]

instance (shift : Bool) (key c : UInt8) : Decidable (Gives shift key c) :=
  decidable_of_iff (key < 88 ∧ code key = key ∧ code (key + 0x80) = key ∧ 88 ≤ key + 0x80 ∧
      key ∉ modifierKeys ∧ keyChar shift false false key = some c)
    ⟨fun ⟨h1, h2, h3, h4, h5, h6⟩ => ⟨h1, h2, h3, h4, h5, h6⟩, fun h =>
      ⟨h.press, h.code, h.release, h.after, h.other, h.char⟩⟩

/-- **Each character has its key.** -/
theorem gives_key (hc : Typeable c) : c ∈ keymapNormal ∧ Gives false (keyOf keymapNormal c) c ∨
    c ∉ keymapNormal ∧ Gives true (keyOf keymapShift c) c := by
  revert hc
  exact forall_byte (P := fun c => Typeable c →
    c ∈ keymapNormal ∧ Gives false (keyOf keymapNormal c) c ∨
      c ∉ keymapNormal ∧ Gives true (keyOf keymapShift c) c) (by decide +kernel) c

/-- The bytes of a character type it, and leave no modifier on. -/
theorem Calm.strokesOf (hh : Calm h) (hc : Typeable c) :
    typedFrom b h (strokesOf c) = [c] ∧ Calm (h ++ strokesOf c) := by
  unfold Keyboard.strokesOf
  obtain ⟨hmem, hkey⟩ | ⟨hmem, hkey⟩ := gives_key hc
  · rw [if_pos hmem]
    obtain ⟨htyped, hshift, hctrl, hcaps⟩ := hkey.tap (b := b) hh.shift hh.ctrl hh.caps
    exact ⟨htyped, hshift, hctrl, hcaps⟩
  · rw [if_neg hmem]
    have hshift : held shiftKeys (h ++ [0x2a]) = true := by
      rw [held_snoc]
      rfl
    have hctrl : held [0x1d] (h ++ [0x2a]) = false := by
      rw [held_snoc, if_neg (by decide)]
      exact hh.ctrl
    have hcaps : capsOn (h ++ [0x2a]) = false := by
      rw [capsOn_snoc, if_neg (by decide)]
      exact hh.caps
    obtain ⟨htyped, -, hctrl', hcaps'⟩ := hkey.tap (b := b) hshift hctrl hcaps
    have hdown : stroke b h 0x2a = none := if_neg fun hall => absurd hall.2.1 (by decide)
    have hup (h' : List UInt8) : stroke b h' 0xaa = none := if_neg fun hall =>
      absurd hall.1 (by decide)
    have hsplit : h ++ ([0x2a] ++ tap (keyOf keymapShift c) ++ [0xaa]) =
        h ++ [0x2a] ++ tap (keyOf keymapShift c) ++ [0xaa] := by simp
    refine ⟨?_, ?_, ?_, ?_⟩
    · rw [typedFrom_append, typedFrom_append, htyped]
      simp [typedFrom, hdown, hup]
    · rw [hsplit, held_snoc]
      rfl
    · rw [hsplit, held_snoc, if_neg (by decide)]
      exact hctrl'
    · rw [hsplit, capsOn_snoc, if_neg (by decide)]
      exact hcaps'

/-- The bytes of a text type it. -/
theorem Calm.strokes {str : List UInt8} (hh : Calm h) (hstr : ∀ c ∈ str, Typeable c) :
    typedFrom b h (strokes str) = str := by
  induction str generalizing h with
  | nil => rfl
  | cons c str ih =>
      obtain ⟨hc, hrest⟩ := List.forall_mem_cons.mp hstr
      obtain ⟨htyped, hcalm⟩ := hh.strokesOf (b := b) hc
      rw [Keyboard.strokes, List.flatMap_cons, typedFrom_append, htyped, ← Keyboard.strokes,
        ih hcalm hrest]
      rfl

/-- **A text that is typed comes out again**, whatever the consumers do in between, if there is
always room in the queue. -/
theorem typing_strokes {memory : Nat → UInt8} {es : List Event} {str : List UInt8}
    (hstr : ∀ c ∈ str, Typeable c) (hes : scancodes es = strokes str)
    (hroom : (Desk.init b memory).HasRoom es) :
    ((Desk.init b memory).events es).text = str := by
  rw [(Desk.events_types b memory es).exact hroom, hes]
  exact Calm.nil.strokes hstr

/-- Two characters are typed, and one is taken while the second is. -/
theorem typing_strokes_two :
    ((Desk.init true fun _ => 0).events [.scancode 0x2a, .scancode 0x23, .scancode 0xa3,
      .scancode 0xaa, .scancode 0x17, .peek 40, .scancode 0x97]).text = [72, 105] := by
  refine typing_strokes (fun c hc => ?_) (by decide) (Desk.hasRoom_of_short _ _ (by decide))
  simp only [List.mem_cons, List.not_mem_nil, or_false] at hc
  rcases hc with rfl | rfl <;> decide

end Strokes

end InfoKernel.Drivers.Keyboard
