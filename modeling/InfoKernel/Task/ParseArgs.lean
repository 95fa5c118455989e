import InfoKernel.Fault
import Mathlib.Algebra.Order.Ring.Nat
import Mathlib.Data.List.Basic

/-!
# The arguments of a thread

`ParseArgs` in `thread.cc` cuts the argument string of a thread into words.  It goes over the string
twice: the first pass counts the words and gives the array its size, the second copies them.

The memory that `page::Alloc` gives is a list of cells that hold nothing yet, and a store outside of
it is a fault.  `parseArgs_parses` says that there is none, and what is in the array at the end: the
words for which there was memory, and behind them the null pointer.

The string is in memory, so that it is far shorter than `2 ^ 61` bytes and no size is cut to 64 bits
(`arraySize_lt`).
-/

namespace InfoKernel.Task.Thread

/-- `' '` -/
def space : UInt8 := 32

/-- The words of a string: the longest stretches without a space. -/
def words (arg : List UInt8) : List (List UInt8) := (arg.splitOn space).filter (· ≠ [])

/-! ## The model -/

/-- Memory for a string, each byte as far as it has been stored. -/
abbrev Buffer := List (Option UInt8)

/-- A pointer of `argv`: not yet stored, null, or to a string. -/
inductive Pointer where
  | unset
  | null
  | to (buffer : Buffer)
  deriving DecidableEq, Repr

/-- Store at a place of some memory. -/
def store {α : Type} (memory : List α) (i : Nat) (a : α) : Except Fault (List α) :=
  if i < memory.length then .ok (memory.set i a) else .error .outOfBounds

/-- `std::memcpy` to the beginning of a buffer. -/
def memcpy (buffer : Buffer) (bytes : List UInt8) : Except Fault Buffer :=
  if bytes.length ≤ buffer.length then .ok (bytes.map some ++ buffer.drop bytes.length)
  else .error .outOfBounds

/-- Which calls of `page::Alloc` give memory: for the number of the call and its size. -/
abbrev Alloc := Nat → Nat → Bool

/-- The first pass, with `in_arg` and `argc`. -/
def countArgs : List UInt8 → Bool → Nat → Nat
  | [], _, argc => argc
  | c :: rest, inArg, argc =>
      if c = space then countArgs rest false argc
      else if inArg = false then countArgs rest true (argc + 1)
      else countArgs rest inArg argc

/-- What the second pass fills: the array, `arg_index`, and how often `page::Alloc` has been
called. -/
structure Args where
  argv : List Pointer
  argIndex : Nat
  calls : Nat
  deriving DecidableEq, Repr

/-- A word is copied, `len` bytes of the string from `start` on. -/
def copyArg (alloc : Alloc) (arg : List UInt8) (start len : Nat) (s : Args) :
    Except Fault Args := do
  if alloc s.calls (len + 1) then
    let buffer ← memcpy (List.replicate (len + 1) none) ((arg.drop start).take len)
    let buffer ← store buffer len (some 0)
    let argv ← store s.argv s.argIndex (.to buffer)
    return ⟨argv, s.argIndex + 1, s.calls + 1⟩
  else
    let argv ← store s.argv s.argIndex .null
    return ⟨argv, s.argIndex, s.calls + 1⟩

/-- Where the second pass is: `ptr`, `in_arg` and `arg_start`. -/
structure Scan where
  ptr : Nat
  inArg : Bool
  argStart : Nat
  args : Args
  deriving DecidableEq, Repr

/-- The loop of the second pass.  The list is what the string holds from `ptr` on. -/
def copyArgs (alloc : Alloc) (arg : List UInt8) (argc : Nat) :
    List UInt8 → Scan → Except Fault Scan
  | [], s => .ok s
  | c :: rest, s =>
      if s.args.argIndex < argc then
        if c = space then
          if s.inArg then do
            let args ← copyArg alloc arg s.argStart (s.ptr - s.argStart) s.args
            copyArgs alloc arg argc rest ⟨s.ptr + 1, false, s.argStart, args⟩
          else copyArgs alloc arg argc rest { s with ptr := s.ptr + 1 }
        else if s.inArg = false then
          copyArgs alloc arg argc rest ⟨s.ptr + 1, true, s.ptr, s.args⟩
        else copyArgs alloc arg argc rest { s with ptr := s.ptr + 1 }
      else .ok s

/-- The last word, which no space ends. -/
def copyLast (alloc : Alloc) (arg : List UInt8) (argc : Nat) (s : Scan) : Except Fault Args :=
  if s.inArg ∧ s.args.argIndex < argc then
    copyArg alloc arg s.argStart (s.ptr - s.argStart) s.args
  else .ok s.args

/-- What `ParseArgs` returns, the array if there is one, and how often `page::Alloc` has been
called. -/
structure Parsed where
  argc : Nat
  argv : Option (List Pointer)
  calls : Nat
  deriving DecidableEq, Repr

/-- `ParseArgs` -/
def parseArgs (alloc : Alloc) (arg : Option (List UInt8)) : Except Fault Parsed :=
  match arg with
  | none => .ok ⟨0, none, 0⟩
  | some [] => .ok ⟨0, none, 0⟩
  | some arg =>
      let argc := countArgs arg false 0
      if argc = 0 then .ok ⟨0, none, 0⟩
      else if alloc 0 ((argc + 1) * 8) = false then .ok ⟨0, none, 1⟩
      else do
        let s ← copyArgs alloc arg argc arg
          ⟨0, false, 0, ⟨List.replicate (argc + 1) .unset, 0, 1⟩⟩
        let args ← copyLast alloc arg argc s
        let argv ← store args.argv args.argIndex .null
        return ⟨args.argIndex, some argv, args.calls⟩

/-! ## What it should do -/

/-- A word as a C string. -/
def stored (word : List UInt8) : Buffer := (word ++ [0]).map some

/-- The words for which there is memory, where `calls` calls come before them. -/
def kept (alloc : Alloc) : Nat → List (List UInt8) → List (List UInt8)
  | _, [] => []
  | calls, word :: rest =>
      if alloc calls (word.length + 1) then word :: kept alloc (calls + 1) rest
      else kept alloc (calls + 1) rest

/-- What `ParseArgs` should make of a string.  Without a word, it returns `0` and does not ask for
memory; and when there is no memory for the array, it returns `0`.  Otherwise the array has a place
for each word and one more.  It holds the words for which there is memory, as C strings and in their
order, and then the null pointer; and `argc` is their number. -/
structure Parses (alloc : Alloc) (arg : List UInt8) (r : Parsed) : Prop where
  empty : (∀ c ∈ arg, c = space) → r = ⟨0, none, 0⟩
  refused : (∃ c ∈ arg, c ≠ space) → alloc 0 (((words arg).length + 1) * 8) = false →
    r = ⟨0, none, 1⟩
  filled : (∃ c ∈ arg, c ≠ space) → alloc 0 (((words arg).length + 1) * 8) = true →
    ∃ args rest, args.Sublist (words arg) ∧
      r.argv = some (args.map (fun w => .to (stored w)) ++ .null :: rest) ∧
      args.length + 1 + rest.length = (words arg).length + 1 ∧ r.argc = args.length ∧
      ((∀ k < (words arg).length, ∀ n, alloc (k + 1) n = true) → args = words arg)

/-! ## Words -/

section Words

variable {carry rest : List UInt8} {c : UInt8}

@[simp] theorem words_nil : words [] = [] := by
  simp [words, List.splitOn_eq_singleton]

/-- A space ends a word. -/
theorem words_append_space (hne : carry ≠ []) (hcarry : space ∉ carry) :
    words (carry ++ space :: rest) = carry :: words rest := by
  rw [words, List.splitOn_append_cons_self_of_not_mem hcarry, List.filter_cons_of_pos (by simpa)]
  rfl

@[simp] theorem words_space (rest : List UInt8) : words (space :: rest) = words rest := by
  have h := List.splitOn_append_cons_self_of_not_mem (a := space) (List.not_mem_nil) rest
  rw [List.nil_append] at h
  rw [words, h, List.filter_cons_of_neg (by simp)]
  rfl

theorem words_singleton (hne : carry ≠ []) (hcarry : space ∉ carry) : words carry = [carry] := by
  rw [words, List.splitOn_eq_singleton hcarry, List.filter_cons_of_pos (by simpa), List.filter_nil]

/-- What begins with something else than a space has a word. -/
theorem words_append_ne_nil (hne : carry ≠ []) (hcarry : space ∉ carry) (rest : List UInt8) :
    words (carry ++ rest) ≠ [] := by
  induction rest generalizing carry with
  | nil =>
      rw [List.append_nil, words_singleton hne hcarry]
      exact List.cons_ne_nil _ _
  | cons c rest ih =>
      by_cases hc : c = space
      · rw [hc, words_append_space hne hcarry]
        exact List.cons_ne_nil _ _
      · rw [List.append_cons]
        exact ih (by simp) (by simpa using ⟨hcarry, fun h => hc h.symm⟩)

/-- A string has no words exactly when there is nothing but spaces in it. -/
theorem words_eq_nil_iff (arg : List UInt8) : words arg = [] ↔ ∀ c ∈ arg, c = space := by
  induction arg with
  | nil => simp
  | cons c rest ih =>
      rw [List.forall_mem_cons]
      by_cases hc : c = space
      · rw [hc, words_space, ih]
        exact (and_iff_right rfl).symm
      · refine iff_of_false ?_ fun h => hc h.1
        exact words_append_ne_nil (List.cons_ne_nil c []) (by simpa using fun h => hc h.symm) rest

end Words

/-! ## The first pass -/

section Counting

variable {arg : List UInt8}

theorem countArgs_words (rest : List UInt8) :
    (∀ argc, countArgs rest false argc = argc + (words rest).length) ∧
      ∀ argc carry, carry ≠ [] → space ∉ carry →
        countArgs rest true argc + 1 = argc + (words (carry ++ rest)).length := by
  induction rest with
  | nil =>
      refine ⟨fun argc => by simp [countArgs], fun argc carry hne hcarry => ?_⟩
      rw [List.append_nil, words_singleton hne hcarry]
      rfl
  | cons c rest ih =>
      obtain ⟨houtside, hinside⟩ := ih
      by_cases hc : c = space
      · subst hc
        refine ⟨fun argc => ?_, fun argc carry hne hcarry => ?_⟩
        · rw [countArgs, if_pos rfl, words_space, houtside]
        · rw [countArgs, if_pos rfl, words_append_space hne hcarry, houtside, List.length_cons]
          omega
      · refine ⟨fun argc => ?_, fun argc carry hne hcarry => ?_⟩
        · have h := hinside (argc + 1) [c] (List.cons_ne_nil c [])
            (by simpa using fun h => hc h.symm)
          rw [List.singleton_append] at h
          rw [countArgs, if_neg hc, if_pos rfl]
          omega
        · rw [countArgs, if_neg hc, if_neg (by simp), List.append_cons]
          exact hinside argc _ (by simp) (by simpa using ⟨hcarry, fun h => hc h.symm⟩)

/-- **The first pass** counts the words. -/
theorem countArgs_eq (arg : List UInt8) : countArgs arg false 0 = (words arg).length := by
  rw [(countArgs_words arg).1, Nat.zero_add]

/-- Behind each word but the last there is a space. -/
theorem countArgs_le (rest : List UInt8) :
    (∀ argc, 2 * countArgs rest false argc ≤ 2 * argc + rest.length + 1) ∧
      ∀ argc, 2 * countArgs rest true argc ≤ 2 * argc + rest.length := by
  induction rest with
  | nil => exact ⟨fun argc => Nat.le_succ _, fun argc => Nat.le_refl _⟩
  | cons c rest ih =>
      rw [List.length_cons]
      constructor
      · intro argc
        have houtside := ih.1 argc
        have hinside := ih.2 (argc + 1)
        rw [countArgs, if_pos (rfl : false = false)]
        split <;> omega
      · intro argc
        have houtside := ih.1 argc
        have hinside := ih.2 argc
        rw [countArgs, if_neg (by simp : ¬ true = false)]
        split <;> omega

/-- The size of the array is a number of 64 bits. -/
theorem arraySize_lt (h : arg.length < 2 ^ 61) : (countArgs arg false 0 + 1) * 8 < 2 ^ 64 := by
  have hle := (countArgs_le arg).1 0
  omega

end Counting

/-! ## The second pass -/

section Kept

variable {alloc : Alloc}

theorem kept_sublist (alloc : Alloc) (calls : Nat) (l : List (List UInt8)) :
    (kept alloc calls l).Sublist l := by
  induction l generalizing calls with
  | nil => exact List.Sublist.refl _
  | cons word rest ih =>
      rw [kept]
      split
      · exact (ih (calls + 1)).cons_cons word
      · exact (ih (calls + 1)).cons word

theorem kept_cons (alloc : Alloc) (calls : Nat) (word : List UInt8) (rest : List (List UInt8)) :
    kept alloc calls (word :: rest) = kept alloc calls [word] ++ kept alloc (calls + 1) rest := by
  rw [kept, kept]
  split
  · rfl
  · rfl

/-- With memory for each of them, all words are kept. -/
theorem kept_eq {calls : Nat} {l : List (List UInt8)}
    (h : ∀ k < l.length, ∀ n, alloc (calls + k) n = true) : kept alloc calls l = l := by
  induction l generalizing calls with
  | nil => rfl
  | cons word rest ih =>
      have hrest : kept alloc (calls + 1) rest = rest := ih fun k hk n => by
        rw [Nat.add_assoc, Nat.add_comm 1]
        exact h (k + 1) (Nat.succ_lt_succ hk) n
      rw [kept, hrest]
      exact if_pos (h 0 (Nat.succ_pos _) _)

end Kept

/-- The array, where `args` have been copied. -/
structure Holds (argc : Nat) (args : List (List UInt8)) (s : Args) : Prop where
  argIndex : s.argIndex = args.length
  length : s.argv.length = argc + 1
  argv : s.argv.take args.length = args.map fun w => .to (stored w)

section Copying

variable {alloc : Alloc} {arg word : List UInt8} {argc : Nat} {args : List (List UInt8)} {s : Args}

theorem store_of_lt {α : Type} {memory : List α} {i : Nat} (h : i < memory.length) (a : α) :
    store memory i a = .ok (memory.set i a) := if_pos h

/-- **A word is copied**, if there is a place for it: it comes behind the others if there is memory
for it. -/
theorem Holds.copyArg (alloc : Alloc) (hs : Holds argc args s) (hlt : args.length <
    argc) {start : Nat}
    (hword : (arg.drop start).take word.length = word) :
    ∃ s', Thread.copyArg alloc arg start word.length s = .ok s' ∧
      Holds argc (args ++ kept alloc s.calls [word]) s' ∧ s'.calls = s.calls + 1 := by
  obtain ⟨hindex, hlength, hargv⟩ := hs
  have hplace : s.argIndex < s.argv.length := by omega
  rw [Thread.copyArg, kept, kept, hword]
  by_cases hmem : alloc s.calls (word.length + 1) = true
  · have hbuffer : (word.map some ++ [none]).set word.length (some 0) = stored word := by
      rw [List.set_append_right _ _ (by simp)]
      simp [stored]
    have hcopy : memcpy (List.replicate (word.length + 1) none) word =
        .ok (word.map some ++ [none]) := by
      rw [memcpy, if_pos (by simp), List.drop_replicate, Nat.add_sub_cancel_left]
      rfl
    rw [if_pos hmem, if_pos hmem, hcopy]
    simp only [bind, Except.bind]
    rw [store_of_lt (by simp), hbuffer]
    simp only []
    rw [store_of_lt hplace]
    refine ⟨_, rfl, ⟨?_, ?_, ?_⟩, rfl⟩
    · simp [hindex]
    · simpa using hlength
    · rw [List.length_append, List.length_singleton, List.map_append, List.map_singleton, hindex,
        List.take_set, List.take_succ_eq_append_getElem (by omega), hargv]
      rw [List.set_append_right _ _ (by simp)]
      simp
  · rw [if_neg hmem, if_neg hmem, store_of_lt hplace]
    refine ⟨_, rfl, ⟨?_, ?_, ?_⟩, rfl⟩
    · simp [hindex]
    · simpa using hlength
    · rw [List.append_nil, hindex, List.take_set,
        List.set_eq_of_length_le (List.length_take_le _ _), hargv]

end Copying

/-- Where the second pass stands: behind `done`, with the letters `carry` of a word that has not
ended, and before `rest`.  There is a place for each word that is still to come. -/
structure Stands (arg : List UInt8) (argc : Nat) (done carry rest : List UInt8)
    (args : List (List UInt8)) (s : Scan) : Prop where
  split : arg = done ++ carry ++ rest
  noSpace : space ∉ carry
  ptr : s.ptr = done.length + carry.length
  inArg : s.inArg = decide (carry ≠ [])
  argStart : carry ≠ [] → s.argStart = done.length
  holds : Holds argc args s.args
  fits : args.length + (words (carry ++ rest)).length ≤ argc

section Scanning

variable {alloc : Alloc} {arg done carry rest : List UInt8} {argc : Nat} {args : List (List UInt8)}
  {s : Scan} {c : UInt8}

/-- The word that has not ended, as the source finds it in the string. -/
theorem Stands.word (h : Stands arg argc done carry rest args s) (hne : carry ≠ []) :
    s.ptr - s.argStart = carry.length ∧ (arg.drop s.argStart).take carry.length = carry := by
  rw [h.argStart hne, h.ptr, h.split, List.append_assoc, List.drop_left, List.take_left]
  exact ⟨Nat.add_sub_cancel_left _ _, rfl⟩

/-- A space behind a word: the word is copied. -/
theorem Stands.ends (alloc : Alloc) (h : Stands arg argc done carry (space :: rest) args s)
    (hne : carry ≠ []) :
    ∃ args', Thread.copyArg alloc arg s.argStart (s.ptr - s.argStart) s.args = .ok args' ∧
      Stands arg argc (done ++ carry ++ [space]) [] rest (args ++ kept alloc s.args.calls [carry])
        ⟨s.ptr + 1, false, s.argStart, args'⟩ ∧ args'.calls = s.args.calls + 1 := by
  have hfits := h.fits
  rw [words_append_space hne h.noSpace, List.length_cons] at hfits
  obtain ⟨hlen, hword⟩ := h.word hne
  obtain ⟨args', hrun, hholds, hcalls⟩ := h.holds.copyArg alloc (by omega) hword
  rw [← hlen] at hrun
  refine ⟨args', hrun, ⟨?_, List.not_mem_nil, ?_, rfl, fun h => absurd rfl h, hholds, ?_⟩, hcalls⟩
  · rw [h.split, List.append_nil, List.append_assoc _ [space]]
    rfl
  · simp [h.ptr, Nat.add_assoc]
  · have hle := (kept_sublist alloc s.args.calls [carry]).length_le
    rw [List.length_singleton] at hle
    rw [List.length_append, List.nil_append]
    omega

/-- A space where there is no word. -/
theorem Stands.skip (h : Stands arg argc done [] (space :: rest) args s) :
    Stands arg argc (done ++ [space]) [] rest args { s with ptr := s.ptr + 1 } where
  split := by rw [h.split, List.append_nil, List.append_nil, List.append_assoc]; rfl
  noSpace := List.not_mem_nil
  ptr := by simp [h.ptr]
  inArg := h.inArg
  argStart hne := absurd rfl hne
  holds := h.holds
  fits := by
    have hfits := h.fits
    rwa [List.nil_append, words_space] at hfits

/-- A letter begins a word. -/
theorem Stands.begin (h : Stands arg argc done [] (c :: rest) args s) (hc : c ≠ space) :
    Stands arg argc done [c] rest args ⟨s.ptr + 1, true, s.ptr, s.args⟩ where
  split := by rw [h.split, List.append_nil, List.append_assoc]; rfl
  noSpace := by simpa using fun h => hc h.symm
  ptr := by rw [h.ptr]; rfl
  inArg := by simp
  argStart _ := h.ptr
  holds := h.holds
  fits := h.fits

/-- A letter in a word. -/
theorem Stands.letter (h : Stands arg argc done carry (c :: rest) args s) (hne : carry ≠ [])
    (hc : c ≠ space) :
    Stands arg argc done (carry ++ [c]) rest args { s with ptr := s.ptr + 1 } where
  split := by rw [h.split]; simp
  noSpace := by simpa using ⟨h.noSpace, fun h => hc h.symm⟩
  ptr := by simp [h.ptr, Nat.add_assoc]
  inArg := by simp [h.inArg, hne]
  argStart _ := h.argStart hne
  holds := h.holds
  fits := by
    have hfits := h.fits
    rwa [List.append_cons] at hfits

/-- **The loop of the second pass** ends with a word that has not ended, or with none, and what is
copied then and later is what was to be copied at its beginning. -/
theorem Stands.copyArgs (alloc : Alloc) (h : Stands arg argc done carry rest args s) :
    ∃ s' done' carry' rest' args', Thread.copyArgs alloc arg argc rest s = .ok s' ∧
      Stands arg argc done' carry' rest' args' s' ∧ words (carry' ++ rest') = words carry' ∧
      args' ++ kept alloc s'.args.calls (words carry') =
        args ++ kept alloc s.args.calls (words (carry ++ rest)) ∧
      s'.args.calls + (words carry').length =
        s.args.calls + (words (carry ++ rest)).length := by
  induction rest generalizing done carry args s with
  | nil =>
      refine ⟨s, done, carry, [], args, rfl, h, ?_, ?_, ?_⟩
      · rw [List.append_nil]
      · rw [List.append_nil]
      · rw [List.append_nil]
  | cons c rest ih =>
      rw [Thread.copyArgs]
      have hindex := h.holds.argIndex
      by_cases hlt : s.args.argIndex < argc
      · rw [if_pos hlt]
        by_cases hne : carry = []
        · subst hne
          have hinArg : s.inArg = false := h.inArg
          by_cases hc : c = space
          · subst hc
            rw [if_pos rfl, if_neg (by simp [hinArg]), List.nil_append, words_space]
            exact ih h.skip
          · rw [if_neg hc, if_pos hinArg]
            exact ih (h.begin hc)
        · have hinArg : s.inArg = true := by rw [h.inArg]; exact decide_eq_true hne
          by_cases hc : c = space
          · subst hc
            obtain ⟨args', hrun, hstands, hcalls⟩ := h.ends alloc hne
            obtain ⟨s', done', carry', rest', copied, hloop, hstands', hend, hkept, hcalls'⟩ :=
              ih hstands
            rw [if_pos rfl, if_pos hinArg, hrun]
            refine ⟨s', done', carry', rest', copied, hloop, hstands', hend, ?_, ?_⟩
            · rw [hkept, words_append_space hne h.noSpace, hcalls, List.append_assoc,
                List.nil_append, ← kept_cons]
            · rw [hcalls', words_append_space hne h.noSpace, hcalls, List.length_cons,
                List.nil_append]
              omega
          · rw [if_neg hc, if_neg (by simp [hinArg]), List.append_cons]
            exact ih (h.letter hne hc)
      · have hwords : words (carry ++ c :: rest) = [] := by
          have hfits := h.fits
          exact List.eq_nil_of_length_eq_zero (by omega)
        have hne : carry = [] := by
          by_contra hne
          exact words_append_ne_nil hne h.noSpace _ hwords
        rw [if_neg hlt]
        refine ⟨s, done, carry, c :: rest, args, rfl, h, ?_, ?_, ?_⟩
        · rw [hwords, hne, words_nil]
        · rw [hwords, hne, words_nil]
        · rw [hwords, hne, words_nil]

end Scanning

/-! ## The whole -/

section Parsing

variable {alloc : Alloc} {arg done carry rest : List UInt8} {argc : Nat} {args : List (List UInt8)}
  {s : Scan}

/-- **The last word** is copied behind the loop. -/
theorem Stands.copyLast (alloc : Alloc) (h : Stands arg argc done carry rest args s)
    (hend : words (carry ++ rest) = words carry) :
    ∃ s', Thread.copyLast alloc arg argc s = .ok s' ∧
      Holds argc (args ++ kept alloc s.args.calls (words carry)) s' ∧
      s'.calls = s.args.calls + (words carry).length := by
  rw [Thread.copyLast]
  by_cases hne : carry = []
  · subst hne
    rw [if_neg (by simp [h.inArg]), words_nil]
    refine ⟨s.args, rfl, ?_, rfl⟩
    rw [kept, List.append_nil]
    exact h.holds
  · have hfits := h.fits
    rw [hend, words_singleton hne h.noSpace, List.length_singleton] at hfits
    have hindex := h.holds.argIndex
    obtain ⟨hlen, hword⟩ := h.word hne
    rw [if_pos ⟨by simp [h.inArg, hne], by omega⟩, hlen, words_singleton hne h.noSpace]
    exact h.holds.copyArg alloc (by omega) hword

/-- The empty string has no words, as the source says apart. -/
theorem parseArgs_eq (alloc : Alloc) (arg : List UInt8) :
    parseArgs alloc (some arg) =
      if (words arg).length = 0 then .ok ⟨0, none, 0⟩
      else if alloc 0 (((words arg).length + 1) * 8) = false then .ok ⟨0, none, 1⟩
      else do
        let s ← Thread.copyArgs alloc arg (words arg).length arg
          ⟨0, false, 0, ⟨List.replicate ((words arg).length + 1) .unset, 0, 1⟩⟩
        let args ← Thread.copyLast alloc arg (words arg).length s
        let argv ← store args.argv args.argIndex .null
        return ⟨args.argIndex, some argv, args.calls⟩ := by
  rw [← countArgs_eq]
  cases arg with
  | nil => rfl
  | cons c rest => rfl

/-- The second pass and what comes behind it. -/
theorem parseArgs_filled (hwords : words arg ≠ [])
    (halloc : alloc 0 (((words arg).length + 1) * 8) = true) :
    ∃ rest, parseArgs alloc (some arg) = .ok ⟨(kept alloc 1 (words arg)).length,
        some ((kept alloc 1 (words arg)).map (fun w => .to (stored w)) ++ .null :: rest),
        1 + (words arg).length⟩ ∧
      (kept alloc 1 (words arg)).length + 1 + rest.length = (words arg).length + 1 := by
  have hlen : (words arg).length ≠ 0 := fun h => hwords (List.eq_nil_of_length_eq_zero h)
  have hstart : Stands arg (words arg).length [] [] arg []
      ⟨0, false, 0, ⟨List.replicate ((words arg).length + 1) .unset, 0, 1⟩⟩ :=
    ⟨rfl, List.not_mem_nil, rfl, rfl, fun h => absurd rfl h, ⟨rfl, List.length_replicate, rfl⟩,
      Nat.le_of_eq (Nat.zero_add _)⟩
  obtain ⟨s, done, carry, rest, args, hloop, hstands, hend, hkept, hcalls⟩ :=
    hstart.copyArgs alloc
  obtain ⟨s', hlast, hholds, hcalls'⟩ := hstands.copyLast alloc hend
  have hkept' : args ++ kept alloc s.args.calls (words carry) = kept alloc 1 (words arg) := hkept
  have hcalls'' : s.args.calls + (words carry).length = 1 + (words arg).length := hcalls
  rw [hkept'] at hholds
  obtain ⟨hindex, hlength, hargv⟩ := hholds
  have hle := (kept_sublist alloc 1 (words arg)).length_le
  rw [parseArgs_eq, if_neg hlen, if_neg (by simp [halloc]), hloop]
  simp only [bind, Except.bind]
  rw [hlast]
  simp only []
  rw [store_of_lt (by omega), hcalls', hcalls'', hindex]
  refine ⟨s'.argv.drop ((kept alloc 1 (words arg)).length + 1), ?_, ?_⟩
  · rw [List.set_eq_take_append_cons_drop, if_pos (by omega), hargv]
    rfl
  · rw [List.length_drop]
    omega

end Parsing

/-- **`ParseArgs` gives the words of a string**, for all strings and whatever calls of `page::Alloc`
give no memory, and it stores nothing outside of the memory it has got. -/
theorem parseArgs_parses (alloc : Alloc) (arg : List UInt8) :
    ∃ r, parseArgs alloc (some arg) = .ok r ∧ Parses alloc arg r := by
  have hword : (∃ c ∈ arg, c ≠ space) ↔ words arg ≠ [] := by
    rw [Ne, words_eq_nil_iff]
    simp only [not_forall, exists_prop]
  by_cases hnil : words arg = []
  · refine ⟨⟨0, none, 0⟩, ?_, fun _ => rfl, fun h => ?_, fun h => ?_⟩
    · rw [parseArgs_eq, hnil]
      rfl
    · exact absurd hnil (hword.mp h)
    · exact absurd hnil (hword.mp h)
  · have hlen : (words arg).length ≠ 0 := fun h => hnil (List.eq_nil_of_length_eq_zero h)
    have hempty : ¬ ∀ c ∈ arg, c = space := fun h => hnil ((words_eq_nil_iff arg).mpr h)
    by_cases halloc : alloc 0 (((words arg).length + 1) * 8) = true
    · obtain ⟨rest, hrun, hrest⟩ := parseArgs_filled hnil halloc
      refine ⟨_, hrun, fun h => absurd h hempty, fun _ h => ?_, fun _ _ => ?_⟩
      · rw [halloc] at h
        cases h
      · refine ⟨kept alloc 1 (words arg), rest, kept_sublist alloc 1 _, rfl, hrest, rfl, ?_⟩
        intro hall
        exact kept_eq fun k hk n => by
          rw [Nat.add_comm]
          exact hall k hk n
    · rw [Bool.not_eq_true] at halloc
      refine ⟨⟨0, none, 1⟩, ?_, fun h => absurd h hempty, fun _ _ => rfl, fun _ h => ?_⟩
      · rw [parseArgs_eq, if_neg hlen, if_pos halloc]
      · rw [halloc] at h
        cases h

/-- Two words, and no memory for the first. -/
example : parseArgs (fun calls _ => calls ≠ 1) (some [32, 97, 32, 32, 98, 99]) =
    .ok ⟨1, some [.to [some 98, some 99, some 0], .null, .unset], 3⟩ := by decide

end InfoKernel.Task.Thread
