import InfoKernel.Fs.Inode
import InfoKernel.Fs.File
import InfoKernel.Fs.Volume

/-!
# Calls that only look

When device and memory do not fail, the functions that read inodes, directories and paths change
nothing but the clock, and their outcome does not depend on it.  `Looks` says this of a program;
it is closed under sequencing, branching and loops, and it holds of `GetBlockNum`, `ReadInode`,
`FindEntry` and `LookupPath`.

So a call that is made twice in a row has the same outcome both times (`Looks.again`).
-/

namespace InfoKernel.Ext2

open Lib

variable {α β τ ρ : Type} {e : Env} {s t : State}

/-- From any state the program has the same outcome at any time, and only the clock goes on. -/
def Looks (x : Io α) : Prop :=
  ∀ s : State, ∃ r : Except Fault α, ∀ c, ∃ c', x (s.at c) = r.map fun a => (a, s.at c')

namespace Looks

variable {x : Io α} {f : α → Io β}

theorem pure (a : α) : Looks (pure a : Io α) := fun _ => ⟨.ok a, fun c => ⟨c, rfl⟩⟩

theorem throw (err : Fault) : Looks (throw err : Io α) := fun _ => ⟨.error err, fun c => ⟨c, rfl⟩⟩

theorem super : Looks super := fun s => ⟨.ok s.super, fun c => ⟨c, rfl⟩⟩

theorem bind (hx : Looks x) (hf : ∀ a, Looks (f a)) : Looks (x >>= f) := fun s => by
  obtain ⟨r, hr⟩ := hx s
  cases r with
  | error err =>
      refine ⟨.error err, fun c => ⟨c, ?_⟩⟩
      obtain ⟨c', h⟩ := hr c
      rw [bind_apply, h]
      rfl
  | ok a =>
      obtain ⟨r', hr'⟩ := hf a s
      refine ⟨r', fun c => ?_⟩
      obtain ⟨c', h⟩ := hr c
      obtain ⟨c'', h'⟩ := hr' c'
      exact ⟨c'', by rw [bind_apply_of_ok h, h']⟩

theorem ite {p : Prop} [Decidable p] {y : Io α} (hx : p → Looks x) (hy : ¬ p → Looks y) :
    Looks (if p then x else y) := by
  by_cases h : p
  · rw [if_pos h]
    exact hx h
  · rw [if_neg h]
    exact hy h

theorem loop {body : τ → Io (Turn τ ρ)} (hbody : ∀ t, Looks (body t)) (out : Fault) (n : Nat)
    (t : τ) : Looks (Program.loop body out n t) := by
  induction n generalizing t with
  | zero => exact throw out
  | succ n ih =>
      refine (hbody t).bind fun u => ?_
      cases u with
      | again t' => exact ih t'
      | leave r => exact pure r

/-- **A result that is had once is had again**, and only the clock has gone on. -/
theorem again (hx : Looks x) {a : α} (h : x s = .ok (a, t)) :
    t = s.at t.clock ∧ ∀ c, ∃ c', x (s.at c) = .ok (a, s.at c') := by
  obtain ⟨r, hr⟩ := hx s
  obtain ⟨c', hc'⟩ := hr s.clock
  rw [show s.at s.clock = s from rfl, h] at hc'
  cases r with
  | error err => cases hc'
  | ok b =>
      obtain ⟨rfl, rfl⟩ : a = b ∧ t = s.at c' := Prod.mk.inj (Except.ok.inj hc')
      exact ⟨rfl, hr⟩

end Looks

/-! ## The calls -/

section Calls

variable (he : e.Reliable)

include he

theorem looks_pageAlloc : Looks (pageAlloc e) := fun s =>
  ⟨.ok true, fun c => ⟨c + 1, pageAlloc_run (s := s.at c) he⟩⟩

theorem looks_readBlock (x : Nat) : Looks (readBlock e x) := fun s =>
  ⟨.ok (some (copyOut e s.disk (s.origin e x) s.super.blockSize)),
    fun c => ⟨c + 1, readBlock_run (s := s.at c) he x⟩⟩

theorem looks_readGroupDesc (g : Nat) : Looks (readGroupDesc e g) := fun s => by
  by_cases h : descThere e s.super g = true
  · refine ⟨.ok (.ok ⟨fun i => copyOut e s.disk (s.origin e gdBlock) s.super.blockSize
      (GroupDesc.size * g + i)⟩), fun c => ⟨c + 2, ?_⟩⟩
    rw [readGroupDesc_run (s := s.at c) he g,
      if_pos (show descThere e (s.at c).super g = true from h)]
    rfl
  · refine ⟨.error .outOfBounds, fun c => ⟨c + 2, ?_⟩⟩
    rw [readGroupDesc_run (s := s.at c) he g,
      if_neg (show ¬ descThere e (s.at c).super g = true from h)]
    rfl

theorem looks_inodeSlot (num : Nat) : Looks (inodeSlot e num) := by
  refine Looks.super.bind fun sb => Looks.ite (fun _ => Looks.throw _) fun _ => ?_
  refine Looks.ite (fun _ => Looks.throw _) fun _ => (looks_readGroupDesc he _).bind fun r => ?_
  cases r with
  | error code => exact Looks.pure _
  | ok gd => exact Looks.ite (fun _ => Looks.throw _) fun _ => Looks.pure _

theorem looks_readInode (num : Nat) : Looks (readInode e num) := by
  refine Looks.ite (fun _ => Looks.pure _) fun _ => (looks_inodeSlot he num).bind fun r => ?_
  rcases r with code | ⟨tableBlock, offset⟩
  · exact Looks.pure _
  · refine (looks_pageAlloc he).bind fun _ => Looks.ite (fun _ => Looks.pure _) fun _ => ?_
    refine (looks_readBlock he tableBlock).bind fun buf => ?_
    cases buf with
    | none => exact Looks.pure _
    | some buf =>
        exact Looks.super.bind fun sb => Looks.ite (fun _ => Looks.pure _) fun _ => Looks.throw _

theorem looks_readPtr (x : Nat) (index : Except Fault Nat) : Looks (readPtr e x index) := by
  refine Looks.ite (fun _ => Looks.pure _) fun _ => (looks_pageAlloc he).bind fun _ => ?_
  refine Looks.ite (fun _ => Looks.pure _) fun _ => (looks_readBlock he x).bind fun buf => ?_
  cases buf with
  | none => exact Looks.pure _
  | some buf =>
      refine Looks.super.bind fun sb => ?_
      cases pointerAt sb.blockSize index with
      | error f => exact Looks.throw f
      | ok i => exact Looks.pure _

theorem looks_getLevel (x : Nat) (path : List (Except Fault Nat)) : Looks (getLevel e x path) := by
  induction path generalizing x with
  | nil => exact Looks.pure x
  | cons index path ih => exact (looks_readPtr he x index).bind ih

theorem looks_getBlockNum (inode : Inode) (block : Nat) : Looks (getBlockNum e inode block) :=
  Looks.super.bind fun _ => looks_getLevel he _ _

theorem looks_findFrom (inode : Inode) (name : List UInt8) (n left block : Nat) :
    Looks (findFrom e inode name n left block) := by
  induction left generalizing block with
  | zero => exact Looks.pure _
  | succ left ih =>
      refine (looks_getBlockNum he inode block).bind fun blockNum => ?_
      refine Looks.ite (fun _ => ih (block + 1)) fun _ => (looks_readBlock he _).bind fun buf => ?_
      cases buf with
      | none => exact ih (block + 1)
      | some buf =>
          refine Looks.super.bind fun sb => ?_
          cases Lib.loop (findTurn e buf sb.blockSize name) .outOfFuel n 0 with
          | error f => exact Looks.throw f
          | ok found =>
              cases found with
              | none => exact ih (block + 1)
              | some entry => exact Looks.pure _

theorem looks_findEntry (inode : Inode) (name : List UInt8) (n : Nat) :
    Looks (findEntry e inode name n) := by
  refine Looks.super.bind fun sb => Looks.ite (fun _ => Looks.pure _) fun _ => ?_
  refine Looks.ite (fun _ => Looks.throw _) fun _ => (looks_pageAlloc he).bind fun _ => ?_
  exact Looks.ite (fun _ => Looks.pure _) fun _ => looks_findFrom he inode name n _ 0

theorem looks_lookupTurn (n : Nat) (st : List UInt8 × Nat × Inode) :
    Looks (lookupTurn e n st) := by
  obtain ⟨start, num, inode⟩ := st
  cases start with
  | nil => exact Looks.pure _
  | cons c start =>
      refine Looks.ite (fun _ => Looks.pure _) fun _ => ?_
      refine (looks_findEntry he inode _ n).bind fun r => ?_
      cases r with
      | error code => exact Looks.pure _
      | ok entry =>
          refine (looks_readInode he _).bind fun r => ?_
          cases r with
          | error code => exact Looks.pure _
          | ok inode => exact Looks.ite (fun _ => Looks.pure _) fun _ => Looks.pure _

theorem looks_lookupPath (path : List UInt8) (n : Nat) : Looks (lookupPath e path n) := by
  refine Looks.ite (fun _ => Looks.pure _) fun _ => (looks_readInode he rootIno).bind fun r => ?_
  cases r with
  | error code => exact Looks.pure _
  | ok inode => exact Looks.loop (looks_lookupTurn he n) _ n _

end Calls

end InfoKernel.Ext2
