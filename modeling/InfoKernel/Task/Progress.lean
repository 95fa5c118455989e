import InfoKernel.Task.Rpc

/-!
# Nobody waits for nothing

The clients and services of `Rpc` do not deadlock.  A client that is blocked has something with a
service that goes on: the service is not blocked, or it is replying to a client that is not blocked.
A service that is blocked waits for a request and none is on its way, or it is such a replying one.

Two facts about the queues of `ipc.cc` carry this.  A queue never records a sender and a receiver at
the same time, since `Send` looks for the receiver and `Receive` for the sender first; and a task
that is blocked in `Receive` is the receiver that its queue records, until a `Send` wakes it.
-/

namespace InfoKernel.Task.Ipc

open InfoKernel.Lib

namespace Sys

variable {tasks : List PcbId} {s s' : Sys} {p q r : PcbId} {d : Nat}

/-! ## The queues -/

/-- Where the blocked tasks are. -/
structure Parked (tasks : List PcbId) (s : Sys) : Prop where
  one : ∀ d, (s.ipc.msgQueues d).waitingReceiver = none ∨ (s.ipc.msgQueues d).waitingSender = none
  receiver : ∀ r ∈ tasks, ∀ k, s.call r = some (.receiving k) → s.ipc.pcbs.stat r = .blocked →
    (s.ipc.msgQueues (s.ipc.pcbs.pid r).toNat).waitingReceiver = some r
  called : ∀ r ∈ tasks, s.ipc.pcbs.stat r = .blocked → s.call r ≠ none

namespace Parked

theorem deliver (h : Parked tasks s) (hr : (s.ipc.msgQueues d).waitingReceiver = some r)
    (hpid : s'.ipc.pcbs.pid = s.ipc.pcbs.pid) (hcall : s'.call = s.call)
    (hstat : s'.ipc.pcbs.stat = Function.update s.ipc.pcbs.stat r .ready)
    (hqueues : s'.ipc.msgQueues = Function.update s.ipc.msgQueues d
      { s.ipc.msgQueues d with waitingReceiver := none }) : Parked tasks s' := by
  have hother : ∀ p, s'.ipc.pcbs.stat p = .blocked → p ≠ r ∧ s.ipc.pcbs.stat p = .blocked := by
    intro p hp
    rw [hstat] at hp
    have hne : p ≠ r := by
      rintro rfl
      rw [Function.update_self] at hp
      cases hp
    rw [Function.update_of_ne hne] at hp
    exact ⟨hne, hp⟩
  refine ⟨fun e => ?_, fun p hp k hreceiving hblocked => ?_, fun p hp hblocked => ?_⟩
  · rw [hqueues]
    by_cases he : e = d
    · subst he
      rw [Function.update_self]
      exact .inl rfl
    · rw [Function.update_of_ne he]
      exact h.one e
  · obtain ⟨hne, hold⟩ := hother p hblocked
    have hwaits := h.receiver p hp k (by rw [← hcall]; exact hreceiving) hold
    rw [hpid, hqueues, Function.update_of_ne]
    · exact hwaits
    · intro heq
      rw [heq, hr] at hwaits
      exact hne (Option.some.inj hwaits).symm
  · rw [hcall]
    exact h.called p hp (hother p hblocked).2

theorem park {slot : Nat} (h : Parked tasks s) (hfree : (s.ipc.msgQueues d).waitingReceiver = none)
    (hpid : s'.ipc.pcbs.pid = s.ipc.pcbs.pid)
    (hcall : s'.call = Function.update s.call p (some (.sending slot)))
    (hstat : s'.ipc.pcbs.stat = Function.update s.ipc.pcbs.stat p .blocked)
    (hqueues : s'.ipc.msgQueues = Function.update s.ipc.msgQueues d
      { s.ipc.msgQueues d with waitingSender := some p }) : Parked tasks s' := by
  refine ⟨fun e => ?_, fun q hq k hreceiving hblocked => ?_, fun q hq hblocked => ?_⟩
  · rw [hqueues]
    by_cases he : e = d
    · subst he
      rw [Function.update_self]
      exact .inl hfree
    · rw [Function.update_of_ne he]
      exact h.one e
  · have hne : q ≠ p := by
      rintro rfl
      rw [hcall, Function.update_self] at hreceiving
      cases hreceiving
    rw [hcall, Function.update_of_ne hne] at hreceiving
    rw [hstat, Function.update_of_ne hne] at hblocked
    have hwaits := h.receiver q hq k hreceiving hblocked
    rw [hpid, hqueues]
    by_cases he : (s.ipc.pcbs.pid q).toNat = d
    · rw [he, hfree] at hwaits
      cases hwaits
    · rw [Function.update_of_ne he]
      exact hwaits
  · rw [hcall]
    by_cases hqp : q = p
    · rw [hqp, Function.update_self]
      nofun
    · rw [hstat, Function.update_of_ne hqp] at hblocked
      rw [Function.update_of_ne hqp]
      exact h.called q hq hblocked

theorem collect (h : Parked tasks s) (hpid : s'.ipc.pcbs.pid = s.ipc.pcbs.pid)
    (hcall : s'.call = s.call)
    (hstat : s'.ipc.pcbs.stat = Function.update s.ipc.pcbs.stat q .ready)
    (hqueues : s'.ipc.msgQueues = Function.update s.ipc.msgQueues d
      { s.ipc.msgQueues d with waitingSender := none }) : Parked tasks s' := by
  have hother : ∀ p, s'.ipc.pcbs.stat p = .blocked → s.ipc.pcbs.stat p = .blocked := by
    intro p hp
    rw [hstat] at hp
    have hne : p ≠ q := by
      rintro rfl
      rw [Function.update_self] at hp
      cases hp
    rwa [Function.update_of_ne hne] at hp
  refine ⟨fun e => ?_, fun p hp k hreceiving hblocked => ?_, fun p hp hblocked => ?_⟩
  · rw [hqueues]
    by_cases he : e = d
    · subst he
      rw [Function.update_self]
      exact .inr rfl
    · rw [Function.update_of_ne he]
      exact h.one e
  · have hwaits := h.receiver p hp k (by rw [← hcall]; exact hreceiving) (hother p hblocked)
    rw [hpid, hqueues]
    by_cases he : (s.ipc.pcbs.pid p).toNat = d
    · rw [he] at hwaits ⊢
      rw [Function.update_self]
      exact hwaits
    · rw [Function.update_of_ne he]
      exact hwaits
  · rw [hcall]
    exact h.called p hp (hother p hblocked)

theorem await {slot : Nat} (h : Parked tasks s) (hinv : Inv tasks s) (hp : p ∈ tasks)
    (hfree : (s.ipc.msgQueues (s.ipc.pcbs.pid p).toNat).waitingSender = none)
    (hpid : s'.ipc.pcbs.pid = s.ipc.pcbs.pid)
    (hcall : s'.call = Function.update s.call p (some (.receiving slot)))
    (hstat : s'.ipc.pcbs.stat = Function.update s.ipc.pcbs.stat p .blocked)
    (hqueues : s'.ipc.msgQueues = Function.update s.ipc.msgQueues (s.ipc.pcbs.pid p).toNat
      { s.ipc.msgQueues (s.ipc.pcbs.pid p).toNat with waitingReceiver := some p }) :
    Parked tasks s' := by
  refine ⟨fun e => ?_, fun q hq k hreceiving hblocked => ?_, fun q hq hblocked => ?_⟩
  · rw [hqueues]
    by_cases he : e = (s.ipc.pcbs.pid p).toNat
    · rw [he, Function.update_self]
      exact .inr hfree
    · rw [Function.update_of_ne he]
      exact h.one e
  · rw [hpid, hqueues]
    by_cases hqp : q = p
    · rw [hqp, Function.update_self]
    · rw [hcall, Function.update_of_ne hqp] at hreceiving
      rw [hstat, Function.update_of_ne hqp] at hblocked
      have hne : (s.ipc.pcbs.pid q).toNat ≠ (s.ipc.pcbs.pid p).toNat := by
        intro heq
        refine hqp (hinv.pid_inj q hq p hp ?_)
        rw [← Int.toNat_of_nonneg (hinv.pid_range q hq).1, heq,
          Int.toNat_of_nonneg (hinv.pid_range p hp).1]
      rw [Function.update_of_ne hne]
      exact h.receiver q hq k hreceiving hblocked
  · rw [hcall]
    by_cases hqp : q = p
    · rw [hqp, Function.update_self]
      nofun
    · rw [hstat, Function.update_of_ne hqp] at hblocked
      rw [Function.update_of_ne hqp]
      exact h.called q hq hblocked

theorem resume (h : Parked tasks s) (hready : s.ipc.pcbs.stat p ≠ .blocked)
    (hipc : s'.ipc = s.ipc) (hcall : s'.call = Function.update s.call p none) :
    Parked tasks s' := by
  have hother : ∀ q, s'.ipc.pcbs.stat q = .blocked → s'.call q = s.call q := by
    intro q hq
    rw [hipc] at hq
    rw [hcall, Function.update_of_ne]
    rintro rfl
    exact hready hq
  refine ⟨fun e => ?_, fun q hq k hreceiving hblocked => ?_, fun q hq hblocked => ?_⟩
  · rw [hipc]
    exact h.one e
  · rw [hother q hblocked] at hreceiving
    rw [hipc] at hblocked ⊢
    exact h.receiver q hq k hreceiving hblocked
  · rw [hother q hblocked]
    rw [hipc] at hblocked
    exact h.called q hq hblocked

/-- **A step.** -/
theorem step (h : Parked tasks s) (hinv : Inv tasks s) {op : Op}
    (hs : Sys.step tasks s op = some s') : Parked tasks s' := by
  obtain ⟨htask, hrunning, hstep⟩ := step_cases hs
  cases hstep with
  | write hcall => exact ⟨h.one, h.receiver, h.called⟩
  | send hcall hsend =>
      unfold IpcState.send at hsend
      dsimp only at hsend
      split at hsend
      · rw [← Except.ok.inj hsend]
        exact ⟨h.one, h.receiver, h.called⟩
      · split at hsend
        · next receiver hwaiting =>
          unfold IpcState.deliver at hsend
          split at hsend
          · cases hsend
          · rw [← Except.ok.inj hsend]
            exact h.deliver hwaiting rfl rfl rfl rfl
        · next hwaiting =>
          rw [← Except.ok.inj hsend]
          exact h.park hwaiting rfl rfl rfl rfl
  | receive hcall hreceive =>
      unfold IpcState.receive at hreceive
      simp only [hinv.ring, ne_eq, not_true_eq_false, if_false] at hreceive
      split at hreceive
      · cases hreceive
      · split at hreceive
        · next sender hwaiting =>
          unfold IpcState.collect at hreceive
          split at hreceive
          · cases hreceive
          · rw [← Except.ok.inj hreceive]
            exact h.collect rfl rfl rfl rfl
        · next hwaiting =>
          rw [← Except.ok.inj hreceive]
          exact h.await hinv htask hwaiting rfl rfl rfl rfl
  | @resume p c hcall =>
      cases c with
      | sending slot => exact h.resume hrunning rfl rfl
      | receiving slot => exact h.resume hrunning rfl rfl

/-- A blocked task whose queue records a sender is blocked in a `Send` itself. -/
theorem sending (h : Parked tasks s) (hr : r ∈ tasks) (hblocked : s.ipc.pcbs.stat r = .blocked)
    (hq : (s.ipc.msgQueues (s.ipc.pcbs.pid r).toNat).waitingSender = some q) :
    ∃ k, s.BlockedInSend r k := by
  cases hcall : s.call r with
  | none => exact absurd hcall (h.called r hr hblocked)
  | some c =>
      cases c with
      | sending k => exact ⟨k, hcall, hblocked⟩
      | receiving k =>
          have hwaits := h.receiver r hr k hcall hblocked
          rcases h.one (s.ipc.pcbs.pid r).toNat with hnone | hnone
          · exact absurd (hwaits.symm.trans hnone) (Option.some_ne_none _)
          · exact absurd (hq.symm.trans hnone) (Option.some_ne_none _)

end Parked

/-- The message of a task in a `Send` is in its object: nobody else writes there. -/
theorem step_sending (hinv : Inv tasks s) {op : Op} (hs : step tasks s op = some s') {k : Nat}
    (hcall : s'.call q = some (.sending k)) :
    (s.call q = some (.sending k) ∧ q ≠ op.task ∧ s'.ipc.mem ⟨q, k⟩ = s.ipc.mem ⟨q, k⟩) ∨
      (op = .send q k ∧ s'.ipc.mem ⟨q, k⟩ = s.message q k) := by
  have hslot : ∀ {p slot} {m : Message}, q ≠ p →
      Function.update s.ipc.mem ⟨p, slot⟩ m ⟨q, k⟩ = s.ipc.mem ⟨q, k⟩ := fun hne =>
    Function.update_of_ne (fun heq => hne (congrArg MsgPtr.owner heq)) ..
  have hupdate : ∀ {p c}, Function.update s.call p c q = some (.sending k) →
      (q = p ∧ c = some (.sending k)) ∨ (q ≠ p ∧ s.call q = some (.sending k)) := by
    intro p c hq
    by_cases hqp : q = p
    · subst hqp
      exact .inl ⟨rfl, (Function.update_self q c s.call).symm.trans hq⟩
    · exact .inr ⟨hqp, (Function.update_of_ne hqp c s.call).symm.trans hq⟩
  have hne : ∀ {p}, s.call p = none → s.call q = some (.sending k) → q ≠ p := by
    rintro _ hc hq rfl
    exact Option.some_ne_none _ (hq.symm.trans hc)
  obtain ⟨-, -, hstep⟩ := step_cases hs
  cases hstep with
  | write hc => exact .inl ⟨hcall, hne hc hcall, hslot (hne hc hcall)⟩
  | @send p slot r hc hsend =>
      unfold IpcState.send at hsend
      dsimp only at hsend
      split at hsend
      · obtain rfl := Except.ok.inj hsend
        exact .inl ⟨hcall, hne hc hcall, hslot (hne hc hcall)⟩
      · split at hsend
        · next receiver hwaiting =>
          unfold IpcState.deliver at hsend
          split at hsend
          · cases hsend
          · next buf hbuf =>
            obtain rfl := Except.ok.inj hsend
            -- the buffer is an object of the receiver, which is in a `Receive`
            obtain ⟨-, -, k', hreceiving, -, hmsg⟩ := hinv.receiver _ _ hwaiting
            obtain rfl : buf = ⟨receiver, k'⟩ := Option.some.inj (hbuf.symm.trans hmsg)
            have hnr : q ≠ receiver := by
              rintro rfl
              have hboth := hreceiving.symm.trans hcall
              cases hboth
            refine .inl ⟨hcall, hne hc hcall, ?_⟩
            exact (Function.update_of_ne (fun heq => hnr (congrArg MsgPtr.owner heq)) ..).trans
              (hslot (hne hc hcall))
        · obtain rfl := Except.ok.inj hsend
          rcases hupdate hcall with ⟨rfl, hsent⟩ | ⟨hqp, hold⟩
          · obtain rfl : slot = k := by
              injection hsent with hsent
              injection hsent
            exact .inr ⟨rfl, Function.update_self ..⟩
          · exact .inl ⟨hold, hqp, hslot hqp⟩
  | @receive p slot r hc hreceive =>
      unfold IpcState.receive at hreceive
      simp only [hinv.ring, ne_eq, not_true_eq_false, if_false] at hreceive
      split at hreceive
      · cases hreceive
      · split at hreceive
        · next sender hwaiting =>
          unfold IpcState.collect at hreceive
          split at hreceive
          · cases hreceive
          · obtain rfl := Except.ok.inj hreceive
            exact .inl ⟨hcall, hne hc hcall, hslot (hne hc hcall)⟩
        · obtain rfl := Except.ok.inj hreceive
          rcases hupdate hcall with ⟨rfl, hsent⟩ | ⟨hqp, hold⟩
          · cases hsent
          · exact .inl ⟨hold, hqp, rfl⟩
  | @resume p c hc =>
      have hnone : Function.update s.call p none q = some (.sending k) := by
        cases c with
        | sending slot => exact hcall
        | receiving slot => exact hcall
      rcases hupdate hnone with ⟨-, hsent⟩ | ⟨hqp, hold⟩
      · cases hsent
      · refine .inl ⟨hold, hqp, ?_⟩
        cases c with
        | sending slot => rfl
        | receiving slot => rfl

/-- What a task is blocked with has been accepted, and is on its way to the task that it is for. -/
theorem Inv.accepted_of_blocked (h : Inv tasks s) {k : Nat} (hb : s.BlockedInSend q k) :
    s.ipc.mem ⟨q, k⟩ ∈ s.accepted ∧ (s.ipc.mem ⟨q, k⟩).sender = some q := by
  have hsender := h.referred q k hb
  have hmem : s.ipc.mem ⟨q, k⟩ ∈ s.acceptedFor (s.ipc.mem ⟨q, k⟩).dstPid := by
    refine (h.ledger _).mem_iff.mpr (List.mem_append_right _ ?_)
    rw [h.recorded_eq hsender hb.1]
    exact List.mem_singleton_self _
  obtain ⟨k', hb', -, hfrom, -⟩ := h.sender _ q hsender
  have hk : k' = k := by
    have hcalls := hb'.1.symm.trans hb.1
    injection hcalls with hcalls
    injection hcalls
  rw [hk] at hfrom
  exact ⟨(List.mem_filter.mp hmem).1, hfrom⟩

theorem Inv.mem_inbox_of_blocked (h : Inv tasks s) {k : Nat} (hb : s.BlockedInSend q k)
    (hdst : ((s.ipc.mem ⟨q, k⟩).dstPid : Int) = s.ipc.pcbs.pid p) :
    s.ipc.mem ⟨q, k⟩ ∈ s.inbox tasks p ∧
      (s.ipc.msgQueues (s.ipc.pcbs.pid p).toNat).waitingSender = some q := by
  have hsender := h.referred q k hb
  unfold inbox
  rw [← hdst, Int.toNat_natCast]
  refine ⟨List.mem_append_right _ ?_, hsender⟩
  rw [h.recorded_eq hsender hb.1]
  exact List.mem_singleton_self _

end Sys

/-! ## The invariant -/

namespace Rpc

variable (net : Net) (tasks : List PcbId)

/-- **What every step preserves**, besides that the replies are right. -/
structure Lively (x : Rpc) : Prop where
  safe : x.Safe net tasks
  parked : Sys.Parked tasks x.sys
  /-- clients send to services, and services to clients -/
  between : ∀ m ∈ x.sys.accepted, ∀ p, m.sender = some p → ∃ d ∈ tasks,
    (m.dstPid : Int) = x.sys.ipc.pcbs.pid d ∧ net.server d = !net.server p
  /-- a client that is in a `Send` and waits is in the `Send` of its request -/
  own : ∀ c k, x.sys.call c = some (.sending k) → net.server c = false →
    ∀ req, x.waiting c = some req → req = x.sys.ipc.mem ⟨c, k⟩
  /-- a client that is in a `Receive` waits -/
  asked : ∀ c k, x.sys.call c = some (.receiving k) → net.server c = false → x.waiting c ≠ none

/-- A service goes on: it is not blocked, or it is replying to a client that is not. -/
def Goes (x : Rpc) (v : PcbId) : Prop :=
  x.sys.ipc.pcbs.stat v ≠ .blocked ∨ ∃ c, Client net tasks c ∧ x.sys.ipc.pcbs.stat c ≠ .blocked ∧
    ∃ d, x.sys.sendingTo v = some d ∧ (d : Int) = x.sys.ipc.pcbs.pid c

variable {net : Net} {tasks : List PcbId} {x y : Rpc} {s' : Sys} {p q v c : PcbId} {m req : Message}

/-- A step changes what its own task waits for only. -/
theorem waiting_of_ne {op : Op} (hs : Sys.step tasks x.sys op = some s') (hc : c ≠ op.task) :
    (x.after net op s').waiting c = x.waiting c := by
  by_cases hsend : ∃ p slot, op = .send p slot
  · obtain ⟨p, slot, rfl⟩ := hsend
    unfold after sent
    dsimp only
    split
    · rfl
    · split
      · exact Function.update_of_ne hc ..
      · rfl
  · have hop : ∀ p slot, op ≠ .send p slot := fun p slot heq => hsend ⟨p, slot, heq⟩
    obtain ⟨-, -, -, hret⟩ := Sys.step_other hs hop
    rw [after_other hop]
    rcases hret with hret | ⟨-, m, hret⟩
    · rw [hret, List.drop_length]
    · rw [hret, List.drop_left]
      unfold received
      dsimp only
      split
      · rfl
      · exact Function.update_of_ne hc ..

namespace Lively

theorem step (h : x.Lively net tasks) {op : Op} (halone : x.Alone net tasks op)
    (hstep : x.Step net tasks op y) : y.Lively net tasks := by
  have hsafe := h.safe.step halone hstep
  obtain ⟨hfollows, hnext⟩ := hstep
  obtain ⟨s', hs, rfl⟩ := Option.map_eq_some_iff.mp hnext
  have hsys : (x.after net op s').sys = s' := by
    by_cases hsend : ∃ p slot, op = .send p slot
    · obtain ⟨p, slot, rfl⟩ := hsend
      rfl
    · rw [after_other fun p slot heq => hsend ⟨p, slot, heq⟩]
      split <;> rfl
  refine ⟨hsafe, ?_, ?_, ?_, ?_⟩
  · rw [hsys]
    exact h.parked.step h.safe.base hs
  · rw [hsys]
    intro m hm p hp
    by_cases hsend : ∃ p slot, op = .send p slot
    · obtain ⟨p', slot, rfl⟩ := hsend
      obtain ⟨d, hd, hdst, hserves⟩ := h.safe.target (p := p') (Sys.step_cases hs).1 hfollows
      have hrange := (h.safe.base.pid_range d hd).2
      obtain ⟨-, -, hpid, hacc, -⟩ := Sys.step_send hs (by omega)
      rw [hpid]
      rw [hacc] at hm
      rcases List.mem_append.mp hm with hold | hnew
      · exact h.between m hold p hp
      · rw [List.mem_singleton] at hnew
        subst hnew
        obtain rfl : p' = p := Option.some.inj hp
        exact ⟨d, hd, hdst, hserves⟩
    · obtain ⟨-, hpid, hacc, -⟩ := Sys.step_other hs fun p slot heq => hsend ⟨p, slot, heq⟩
      rw [hpid]
      rw [hacc] at hm
      exact h.between m hm p hp
  · rw [hsys]
    intro c k hcall hclient req hwait
    rcases Sys.step_sending h.safe.base hs hcall with ⟨hold, hne, hmem⟩ | ⟨rfl, hmem⟩
    · rw [waiting_of_ne hs hne] at hwait
      rw [hmem]
      exact h.own c k hold hclient req hwait
    · rw [hmem]
      unfold Follows at hfollows
      dsimp only at hfollows
      rw [if_neg (by rw [hclient]; exact Bool.false_ne_true)] at hfollows
      unfold after sent at hwait
      dsimp only at hwait
      rw [if_neg (by rw [hclient]; exact Bool.false_ne_true)] at hwait
      split at hwait
      · have hself : Function.update x.waiting c (some (x.sys.message c k)) c = some req := hwait
        rw [Function.update_self] at hself
        exact (Option.some.inj hself).symm
      · exact absurd (hwait.symm.trans hfollows.1) (Option.some_ne_none _)
  · rw [hsys]
    intro c k hcall hclient
    obtain ⟨call, hcalls, hreceiving⟩ := Sys.step_call hs
    rw [hcalls] at hcall
    by_cases hc : c = op.task
    · subst hc
      rw [Function.update_self] at hcall
      obtain ⟨hop, hret⟩ := hreceiving k hcall
      have hkeep : (x.after net op s').waiting op.task = x.waiting op.task := by
        rw [after_other (by rw [hop]; nofun), hret, List.drop_length]
      rw [hkeep]
      rw [hop] at hfollows
      unfold Follows at hfollows
      dsimp only at hfollows
      rw [if_neg (by rw [hclient]; exact Bool.false_ne_true)] at hfollows
      exact hfollows
    · rw [waiting_of_ne hs hc]
      rw [Function.update_of_ne hc] at hcall
      exact h.asked c k hcall hclient

/-- What a task is blocked with is on its way to one of the other kind. -/
theorem towards (h : x.Lively net tasks) {k : Nat} (hb : x.sys.BlockedInSend q k) :
    ∃ d ∈ tasks, net.server d = !net.server q ∧
      ((x.sys.ipc.mem ⟨q, k⟩).dstPid : Int) = x.sys.ipc.pcbs.pid d ∧
      x.sys.ipc.mem ⟨q, k⟩ ∈ x.sys.inbox tasks d ∧
      (x.sys.ipc.msgQueues (x.sys.ipc.pcbs.pid d).toNat).waitingSender = some q := by
  obtain ⟨hacc, hfrom⟩ := h.safe.base.accepted_of_blocked hb
  obtain ⟨d, hd, hdst, hserves⟩ := h.between _ hacc q hfrom
  obtain ⟨hinbox, hqueue⟩ := h.safe.base.mem_inbox_of_blocked hb hdst
  exact ⟨d, hd, hserves, hdst, hinbox, hqueue⟩

/-- **A service that is blocked in a reply goes on.**  The client waits for the reply, which is on
its way, so that the request is nowhere any more and the client cannot be blocked with it. -/
theorem replying (h : x.Lively net tasks) {k : Nat} (hv : Server net tasks v)
    (hb : x.sys.BlockedInSend v k) : x.Goes net tasks v := by
  obtain ⟨c, hc, hserves, hdst, hinbox, hqueue⟩ := h.towards hb
  have hclient : Client net tasks c := ⟨hc, by rw [hserves, hv.2]; rfl⟩
  refine .inr ⟨c, hclient, fun hblocked => ?_, (x.sys.ipc.mem ⟨v, k⟩).dstPid, ?_, hdst⟩
  · obtain ⟨k', hb'⟩ := h.parked.sending hc hblocked hqueue
    obtain ⟨req, -, hwait, -⟩ := h.safe.replies c hclient _ hinbox
    obtain rfl := h.own c k' hb'.1 hclient.2 req hwait
    obtain ⟨w, hw, -, hdst', hmem, -⟩ := h.towards hb'
    obtain ⟨-, -, w', hw', hdst₂, hplaces⟩ := h.safe.once c _ hclient hwait
    obtain rfl : w' = w := h.safe.base.pid_inj w' hw'.1 w hw (hdst₂.symm.trans hdst')
    unfold places at hplaces
    have hone := List.count_pos_iff.mpr hmem
    have htwo := List.length_pos_of_mem hinbox
    omega
  · unfold Sys.sendingTo
    rw [hb.1]
    exact if_pos hb.2

/-- A service to which something is on its way goes on. -/
theorem goes_of_inbox (h : x.Lively net tasks) (hv : Server net tasks v)
    (hm : m ∈ x.sys.inbox tasks v) : x.Goes net tasks v := by
  by_cases hblocked : x.sys.ipc.pcbs.stat v = .blocked
  · have hrecorded : m ∈ x.sys.recorded (x.sys.ipc.pcbs.pid v).toNat := by
      rcases List.mem_append.mp hm with hhand | hrecorded
      · -- one that is blocked has nothing in hand
        rw [h.safe.base.inHand_eq hv.1 (Int.toNat_of_nonneg (h.safe.base.pid_range v hv.1).1).symm]
          at hhand
        unfold Sys.inHandOf at hhand
        split at hhand
        · rw [if_pos hblocked] at hhand
          cases hhand
        · cases hhand
      · exact hrecorded
    unfold Sys.recorded at hrecorded
    split at hrecorded
    · next q hqueue =>
      obtain ⟨k, hb⟩ := h.parked.sending hv.1 hblocked hqueue
      exact h.replying hv hb
    · cases hrecorded
  · exact .inl hblocked

/-- A client that is blocked has something with a service that goes on. -/
theorem client (h : x.Lively net tasks) (hc : Client net tasks c)
    (hblocked : x.sys.ipc.pcbs.stat c = .blocked) :
    ∃ v, Server net tasks v ∧ x.Goes net tasks v ∧
      ((∃ d, x.sys.sendingTo c = some d ∧ (d : Int) = x.sys.ipc.pcbs.pid v) ∨
        ∃ req, x.waiting c = some req ∧ (req.dstPid : Int) = x.sys.ipc.pcbs.pid v) := by
  obtain ⟨call, hcall⟩ := Option.ne_none_iff_exists'.mp (h.parked.called c hc.1 hblocked)
  cases call with
  | sending k =>
      obtain ⟨v, hv, hserves, hdst, hinbox, -⟩ := h.towards ⟨hcall, hblocked⟩
      have hserver : Server net tasks v := ⟨hv, by rw [hserves, hc.2]; rfl⟩
      refine ⟨v, hserver, h.goes_of_inbox hserver hinbox, .inl ⟨_, ?_, hdst⟩⟩
      unfold Sys.sendingTo
      rw [hcall]
      exact if_pos hblocked
  | receiving k =>
      obtain ⟨req, hwait⟩ := Option.ne_none_iff_exists'.mp (h.asked c k hcall hc.2)
      obtain ⟨-, -, v, hv, hdst, hplaces⟩ := h.safe.once c req hc hwait
      refine ⟨v, hv, ?_, .inr ⟨req, hwait, hdst⟩⟩
      unfold places at hplaces
      by_cases hserve : x.serving v = some req
      · -- it handles the request: it is in no `Receive`
        by_cases hstat : x.sys.ipc.pcbs.stat v = .blocked
        · obtain ⟨call, hcallv⟩ := Option.ne_none_iff_exists'.mp (h.parked.called v hv.1 hstat)
          cases call with
          | sending k' => exact h.replying hv ⟨hcallv, hstat⟩
          | receiving k' =>
              have hidle := h.safe.receiving v k' hcallv hv.2
              exact absurd (hserve.symm.trans hidle) (Option.some_ne_none _)
        · exact .inl hstat
      · rw [if_neg hserve] at hplaces
        by_cases hmem : req ∈ x.sys.inbox tasks v
        · exact h.goes_of_inbox hv hmem
        · -- the reply is on its way, and the client is not blocked
          rw [List.count_eq_zero.mpr hmem] at hplaces
          obtain ⟨rep, hrep⟩ := List.exists_mem_of_length_pos
            (by omega : 0 < (x.sys.inbox tasks c).length)
          exfalso
          rcases List.mem_append.mp hrep with hhand | hrecorded
          · rw [h.safe.base.inHand_eq hc.1
              (Int.toNat_of_nonneg (h.safe.base.pid_range c hc.1).1).symm] at hhand
            unfold Sys.inHandOf at hhand
            rw [hcall] at hhand
            dsimp only at hhand
            rw [if_pos hblocked] at hhand
            cases hhand
          · unfold Sys.recorded at hrecorded
            split at hrecorded
            · next q hqueue =>
              obtain ⟨k', hb⟩ := h.parked.sending hc.1 hblocked hqueue
              have hboth := hcall.symm.trans hb.1
              cases hboth
            · cases hrecorded

/-- A service that is blocked goes on, unless it waits for a request and none is on its way. -/
theorem server (h : x.Lively net tasks) (hv : Server net tasks v)
    (hblocked : x.sys.ipc.pcbs.stat v = .blocked) :
    x.Goes net tasks v ∨
      (∃ k, x.sys.call v = some (.receiving k)) ∧ x.sys.inbox tasks v = [] ∧
        x.serving v = none := by
  obtain ⟨call, hcall⟩ := Option.ne_none_iff_exists'.mp (h.parked.called v hv.1 hblocked)
  cases call with
  | sending k => exact .inl (h.replying hv ⟨hcall, hblocked⟩)
  | receiving k =>
      cases hinbox : x.sys.inbox tasks v with
      | nil => exact .inr ⟨⟨k, hcall⟩, rfl, h.safe.receiving v k hcall hv.2⟩
      | cons m ms =>
          refine .inl (h.goes_of_inbox (m := m) hv ?_)
          rw [hinbox]
          exact List.mem_cons_self

end Lively

/-- Before anybody has said anything. -/
theorem start_lively {s : Sys} (hinit : Sys.Init tasks s)
    (hready : ∀ p ∈ tasks, s.ipc.pcbs.stat p ≠ .blocked) : (start s).Lively net tasks where
  safe := start_safe hinit
  parked := ⟨fun d => .inl (hinit.receiver d),
    fun r hr _ _ hblocked => absurd hblocked (hready r hr),
    fun r hr hblocked => absurd hblocked (hready r hr)⟩
  between := fun m hm => by
    have hnil : m ∈ ([] : List Message) := hinit.accepted ▸ hm
    cases hnil
  own := fun c k _ _ req hwait => nomatch hwait
  asked := fun c k hcall _ => absurd (hcall.symm.trans (hinit.call c)) (Option.some_ne_none _)

/-- **No deadlock.**  In every run of clients and services in which no client overwrites another
one's `Send`: a client that is blocked is sending to, or waits for the reply of, a service that goes
on; and a service that is blocked goes on too, unless it waits for a request and none is on its
way. -/
theorem rpc_progress {s : Sys} {ops : List Op} (hinit : Sys.Init tasks s)
    (hready : ∀ p ∈ tasks, s.ipc.pcbs.stat p ≠ .blocked)
    (hrun : Run (Guarded (Alone net tasks) (Step net tasks)) (start s) ops x) :
    (∀ c, Client net tasks c → x.sys.ipc.pcbs.stat c = .blocked →
      ∃ v, Server net tasks v ∧ x.Goes net tasks v ∧
        ((∃ d, x.sys.sendingTo c = some d ∧ (d : Int) = x.sys.ipc.pcbs.pid v) ∨
          ∃ req, x.waiting c = some req ∧ (req.dstPid : Int) = x.sys.ipc.pcbs.pid v)) ∧
      ∀ v, Server net tasks v → x.sys.ipc.pcbs.stat v = .blocked → x.Goes net tasks v ∨
        (∃ k, x.sys.call v = some (.receiving k)) ∧ x.sys.inbox tasks v = [] ∧
          x.serving v = none := by
  have h : x.Lively net tasks := hrun.invariant (start_lively hinit hready)
    fun _ _ _ hlively hstep => hlively.step hstep.1 hstep.2
  exact ⟨fun _ hc hblocked => h.client hc hblocked, fun _ hv hblocked => h.server hv hblocked⟩

/-- Task 1 is blocked and waits for a reply, and task 2 is blocked in a `Send`; task 3 goes on. -/
theorem rpc_progress_asking : ∃ x : Rpc, x.sys.ipc.pcbs.stat 1 = .blocked ∧
    x.sys.ipc.pcbs.stat 2 = .blocked ∧ ∀ c, Client echoNet [1, 2, 3] c →
      x.sys.ipc.pcbs.stat c = .blocked → ∃ v, Server echoNet [1, 2, 3] v ∧
        x.Goes echoNet [1, 2, 3] v := by
  obtain ⟨x, hx, hstat⟩ := Option.map_eq_some_iff.mp
    (by decide : (echo asking).map (fun x => (x.sys.ipc.pcbs.stat 1, x.sys.ipc.pcbs.stat 2)) =
      some (.blocked, .blocked))
  obtain ⟨hone, htwo⟩ := Prod.mk.inj hstat
  refine ⟨x, hone, htwo, fun c hc hblocked => ?_⟩
  obtain ⟨v, hv, hgoes, -⟩ := (rpc_progress threeTasks_init
    (fun _ _ => (by decide : State.ready ≠ .blocked)) (run_of_echo hx)).1 c hc hblocked
  exact ⟨v, hv, hgoes⟩

end Rpc

end InfoKernel.Task.Ipc
