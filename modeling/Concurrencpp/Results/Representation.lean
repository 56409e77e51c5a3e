import Concurrencpp.Results.Protocol

/-!
# The representation invariant of `result_state`

`Inv s` says, for every program point of the consumer, what `m_pc_state` and the consumer context
hold there, and for every program point of the producer, which registration it is about to serve:

* until the producer exchanges `m_pc_state`, the value is determined by the consumer alone
  (`ConsumerOk`); afterwards it is `producer_done`, or `consumer_done` between the exchange and the
  `delete_self` of `complete_consumer`;
* whatever is registered is what the context holds (`context`), and the context, when it is not
  idle, is the one stored last (`stored`);
* once `consumer_set` has been exchanged, the registration is frozen: the producer finds the
  context it expects, and a coroutine it is about to resume is still suspended (`ProducerOk`).

`Inv` is preserved by each operation of the source (`inv_waitStep`, `inv_awaitStep`, …), hence
by every step (`inv_step`) and along every interleaving (`inv_of_reachable`).
-/

namespace Concurrencpp
namespace Protocol

variable {α ε : Type}

/-! ### What holds at each program point -/

/-- The value of `m_pc_state` where it is `before` until the producer exchanges it. -/
def expected (published : Bool) (before : PcState) : PcState :=
  if published then .producerDone else before

section

variable (published : Bool) (st : PcState) (ctx : ConsumerContext) (reg : Option Waiter)

/-- Unless the producer is done, nothing is registered and nothing is stored. -/
def Quiet : Prop :=
  st = expected published .idle ∧ (published = false → ctx = .idle ∧ reg = none)

/-- The context `c` is stored and not published; no exchange has published another one. -/
def Prepared (c : ConsumerContext) : Prop :=
  st = expected published .idle ∧ ctx = c ∧ reg = none

/-- The waiter `w` is registered, with `before` as its mark in `m_pc_state`. -/
def Registered (before : PcState) (w : Waiter) : Prop :=
  st = expected published before ∧ reg = some w

/-- Unless the producer is done, some waiter of the given kind is registered. -/
def MaybeRegistered (kind : Waiter → Prop) : Prop :=
  st = expected published .consumerSet ∧ (published = false → ∃ w, reg = some w ∧ kind w)

/-- The compare-exchange back to `idle` has succeeded, the context is not yet cleared. -/
def Rewound : Prop := st = expected published .idle ∧ reg = none

/-- The producer is done. -/
def Done : Prop := published = true ∧ st = .producerDone

/-- Between two calls. A fresh result, and one whose last `wait_for` timed out, has no registration
left. -/
def ReadyOk (last : Option Ret) : Prop :=
  Quiet published st ctx reg ∧ (last = none ∨ last = some (.waitFor .idle) → reg = none)

/-- Inside `wait`. -/
def WaitOk : WaitPc → Prop
  | .load => Quiet published st ctx reg
  | .cas => Prepared published st ctx reg .idle
  | .loop | .block => Registered published st reg .consumerWaiting .thread
  | .assertDone => Done published st

/-- Inside `await`. -/
def AwaitOk : AwaitPc → Prop
  | .load => Quiet published st ctx reg
  | .set => Prepared published st ctx reg .idle
  | .cas h => Prepared published st ctx reg (.await h)
  | .assertDone => Done published st
  | .suspended h => Registered published st reg .consumerSet (.coroutine h)

/-- Inside `wait_for`. -/
def WaitForOk : WaitForPc → Prop
  | .load => Quiet published st ctx reg
  | .set => Prepared published st ctx reg .idle
  | .cas i => Prepared published st ctx reg (.waitFor i)
  | .acquire i | .rewind i => Registered published st reg .consumerSet (.semaphore i)
  | .sync | .assertDone => Done published st
  | .clear => Rewound published st reg

/-- Inside `when_any`. -/
def WhenAnyOk : WhenAnyPc → Prop
  | .load => Quiet published st ctx reg
  | .set => Prepared published st ctx reg .idle
  | .cas c => Prepared published st ctx reg (.whenAny c)
  | .assertDone => Done published st
  | .pending => MaybeRegistered published st reg fun w => ∃ c, w = .whenAny c

/-- The waiter that `try_rewind_consumer` takes back. -/
def RewindKind : AfterRewind → Waiter → Prop
  | .ret, w => ∃ c, w = .whenAny c
  | .complete, w => ∃ p, w = .sharedState p

/-- Inside `try_rewind_consumer`, which may find that nothing has been registered. -/
def RewindOk (k : AfterRewind) : RewindPc → Prop
  | .load => MaybeRegistered published st reg (RewindKind k) ∨ Quiet published st ctx reg
  | .cas => MaybeRegistered published st reg (RewindKind k)
  | .assertDone => Done published st
  | .clear => Rewound published st reg

/-- Inside `share`, and while the shared state lives. -/
def ShareOk : SharePc → Prop
  | .load => Quiet published st ctx reg
  | .set => Prepared published st ctx reg .idle
  | .cas p => Prepared published st ctx reg (.shared p)
  | .assertDone | .finish | .dropped => Done published st
  | .sharing => MaybeRegistered published st reg fun w => ∃ p, w = .sharedState p

/-- Inside `complete_consumer`; its exchange may have replaced `producer_done`. -/
def CompleteOk : CompletePc → Prop
  | .load | .exchange => Quiet published st ctx reg
  | .delete => published = true ∧ (st = .producerDone ∨ st = .consumerDone)

/-- What the cell holds at each program point of the consumer. -/
def ConsumerOk : ConsumerPc → Prop
  | .ready last => ReadyOk published st ctx reg last
  | .status => Quiet published st ctx reg
  | .wait pc _ => WaitOk published st ctx reg pc
  | .await pc _ => AwaitOk published st ctx reg pc
  | .waitFor pc => WaitForOk published st ctx reg pc
  | .whenAny pc => WhenAnyOk published st ctx reg pc
  | .rewind pc k => RewindOk published st ctx reg k pc
  | .share pc => ShareOk published st ctx reg pc
  | .joined _ => Done published st
  | .complete pc => CompleteOk published st ctx reg pc
  | .finished => (published = false → st = .consumerDone ∧ reg = none) ∧
      (published = true → st = .producerDone ∨ st = .consumerDone)

end

/-- The program points at which the consumer has no step of its own. -/
def Parked : ConsumerPc → Prop
  | .await (.suspended _) _ | .share .sharing | .share .dropped | .finished => True
  | _ => False

/-- The program points that only a shared result reaches. -/
def AfterShare : ConsumerPc → Prop
  | .share .sharing | .share .dropped | .rewind _ .complete | .complete _ | .finished => True
  | _ => False

/-- The registration that the producer serves at each of its program points. -/
def ProducerOk (c : ConsumerPc) (reg : Option Waiter) : ProducerPc → Prop
  | .building | .built | .exchange | .done => True
  | .resume => ∃ w, reg = some w ∧ w ≠ .thread ∧
      ∀ h, w = .coroutine h → ∃ k, c = .await (.suspended h) k
  | .resumeAwait => ∃ h k, reg = some (.coroutine h) ∧ c = .await (.suspended h) k
  | .callHandle h => ∃ k, reg = some (.coroutine h) ∧ c = .await (.suspended h) k
  | .resumeWaitFor => ∃ i, reg = some (.semaphore i)
  | .releaseSemaphore i => reg = some (.semaphore i)
  | .resumeWhenAny => ∃ c, reg = some (.whenAny c)
  | .tryResume c => reg = some (.whenAny c)
  | .resumeShared => ∃ p, reg = some (.sharedState p)
  | .lockShared p => reg = some (.sharedState p)
  | .onResultFinished p => reg = some (.sharedState p) ∧ (c = .share .sharing ∨ c = .share .dropped)
  | .dropShared => (∃ p, reg = some (.sharedState p)) ∧ (c = .share .sharing ∨ c = .share .dropped)
  | .notify => reg = some .thread
  | .delete => reg = none ∧ c = .finished

/-- The representation invariant. -/
structure Inv (s : Protocol α ε) : Prop where
  consumer :
    ConsumerOk s.producer.published s.state.pcState s.state.consumer s.registered s.consumer
  producer : ProducerOk s.consumer s.registered s.producer
  context : ∀ w, s.registered = some w → s.state.consumer = w.context
  stored : s.state.consumer ≠ .idle → s.state.consumer = s.stored
  shared : ∀ p, s.registered = some (.sharedState p) → AfterShare s.consumer
  finished : s.sharedStatus ≠ .idle → s.producer.published = true
  permits : s.producer.published = false → ∀ i, s.permits i = 0
  built : s.producer ≠ .building → s.state.producer ≠ .idle
  handle : s.state.doneHandle.all CoroutineHandle.done = true
  asserts : s.assertFailed = false

theorem inv_initial : Inv (initial : Protocol α ε) where
  consumer := ⟨⟨rfl, fun _ => ⟨rfl, rfl⟩⟩, fun _ => rfl⟩
  producer := trivial
  context := nofun
  stored := fun h => absurd rfl h
  shared := nofun
  finished := fun h => absurd rfl h
  permits := fun _ _ => rfl
  built := fun h => absurd rfl h
  handle := rfl
  asserts := rfl

/-! ### Reading the value of `m_pc_state` -/

section

variable {published : Bool} {st before : PcState} {ctx : ConsumerContext} {reg : Option Waiter}

/-- Only the producer makes the value `producer_done`. -/
theorem done_of_eq (hst : st = expected published before) (hb : before ≠ .producerDone)
    (hd : st = .producerDone) : Done published st := by
  cases published with
  | false => exact absurd (hst.symm.trans hd) hb
  | true => exact ⟨rfl, hd⟩

/-- A compare-exchange that expects `before` fails only on a finished result. -/
theorem done_of_ne (hst : st = expected published before) (hne : st ≠ before) :
    Done published st := by
  cases published with
  | false => exact absurd hst hne
  | true => exact ⟨rfl, hst⟩

/-- A compare-exchange that expects `before` succeeds only before the producer's exchange. -/
theorem unpublished_of_eq (hst : st = expected published before) (hb : before ≠ .producerDone)
    (h : st = before) : published = false := by
  cases published with
  | false => rfl
  | true => exact absurd (h.symm.trans hst) hb

theorem Done.quiet (h : Done published st) : Quiet published st ctx reg := by
  obtain ⟨rfl, rfl⟩ := h
  exact ⟨rfl, nofun⟩

theorem Done.maybeRegistered {kind : Waiter → Prop} (h : Done published st) :
    MaybeRegistered published st reg kind := by
  obtain ⟨rfl, rfl⟩ := h
  exact ⟨rfl, nofun⟩

/-- After a first load that did not find `producer_done`, the context is still free. -/
theorem Quiet.prepared (h : Quiet published st ctx reg) (hne : st ≠ .producerDone) :
    Prepared published st ctx reg .idle := by
  cases published with
  | false => exact ⟨h.1, h.2 rfl⟩
  | true => exact absurd h.1 hne

/-- A call other than a timed-out `wait_for` has returned. -/
theorem Quiet.ready {r : Ret} (h : Quiet published st ctx reg) (hr : r ≠ .waitFor .idle) :
    ConsumerOk published st ctx reg (.ready (some r)) :=
  ⟨h, fun hl => by rcases hl with hl | hl <;> cases hl; exact absurd rfl hr⟩

theorem consumerOk_afterWait {r : Ret} (h : Done published st) (k : AfterWait)
    (hr : r ≠ .waitFor .idle) : ConsumerOk published st ctx reg (k.next r) := by
  cases k with
  | ret => exact h.quiet.ready hr
  | get => exact h

theorem consumerOk_afterRewind (h : Quiet published st ctx reg) (k : AfterRewind) :
    ConsumerOk published st ctx reg k.next := by
  cases k with
  | ret => exact h.ready nofun
  | complete => exact h

theorem consumerOk_entry (h : Quiet published st ctx reg) (op : Op) :
    ConsumerOk published st ctx reg op.entry := by
  cases op with
  | waitUntil expired => cases expired <;> exact h
  | tryRewind => exact .inr h
  | _ => exact h

/-- What the value of `m_pc_state` stands for until the producer exchanges it: `idle` for no
registration, `consumer_waiting` for a thread in `wait`, `consumer_set` for a registration whose
coroutine, if it is one, is suspended, and `consumer_done` for a consumer that has finished. -/
inductive Unpublished (reg : Option Waiter) (pc : ConsumerPc) : PcState → Prop
  | idle (hreg : reg = none) : Unpublished reg pc .idle
  | consumerWaiting (hreg : reg = some .thread) : Unpublished reg pc .consumerWaiting
  | consumerSet (hok : ProducerOk pc reg .resume) : Unpublished reg pc .consumerSet
  | consumerDone (hreg : reg = none) (hpc : pc = .finished) : Unpublished reg pc .consumerDone

section

variable {pc : ConsumerPc}

theorem Quiet.unpublished (h : Quiet false st ctx reg) : Unpublished reg pc st := by
  obtain ⟨rfl, h⟩ := h
  exact .idle (h rfl).2

theorem Prepared.unpublished {c : ConsumerContext} (h : Prepared false st ctx reg c) :
    Unpublished reg pc st := by
  obtain ⟨rfl, -, hreg⟩ := h
  exact .idle hreg

theorem Rewound.unpublished (h : Rewound false st reg) : Unpublished reg pc st := by
  obtain ⟨rfl, hreg⟩ := h
  exact .idle hreg

theorem Done.unpublished (h : Done false st) : Unpublished reg pc st := by cases h.1

theorem Registered.unpublished {w : Waiter} (h : Registered false st reg .consumerSet w)
    (hw : w ≠ .thread)
    (hc : ∀ i, w = .coroutine i → ∃ k, pc = .await (.suspended i) k) : Unpublished reg pc st := by
  obtain ⟨rfl, hreg⟩ := h
  exact .consumerSet ⟨w, hreg, hw, hc⟩

theorem MaybeRegistered.unpublished {kind : Waiter → Prop} (h : MaybeRegistered false st reg kind)
    (hkind : ∀ w, kind w → w ≠ .thread ∧ ∀ i, w ≠ .coroutine i) : Unpublished reg pc st := by
  obtain ⟨rfl, h⟩ := h
  obtain ⟨w, hw, hk⟩ := h rfl
  exact .consumerSet ⟨w, hw, (hkind w hk).1, fun i hi => absurd hi ((hkind w hk).2 i)⟩

theorem RewindKind.ne {k : AfterRewind} {w : Waiter} (h : RewindKind k w) :
    w ≠ .thread ∧ ∀ i, w ≠ .coroutine i := by
  cases k <;> obtain ⟨i, rfl⟩ := h <;> exact ⟨nofun, nofun⟩

theorem ConsumerOk.unpublished (h : ConsumerOk false st ctx reg pc) : Unpublished reg pc st := by
  cases pc with
  | ready => exact h.1.unpublished
  | status => exact Quiet.unpublished h
  | wait pc =>
    cases pc with
    | load => exact Quiet.unpublished h
    | cas => exact Prepared.unpublished h
    | loop | block =>
      obtain ⟨rfl, hreg⟩ := h
      exact .consumerWaiting hreg
    | assertDone => exact Done.unpublished h
  | await pc k =>
    cases pc with
    | load => exact Quiet.unpublished h
    | set | cas => exact Prepared.unpublished h
    | assertDone => exact Done.unpublished h
    | suspended =>
      refine Registered.unpublished h nofun fun j hj => ?_
      cases hj
      exact ⟨k, rfl⟩
  | waitFor pc =>
    cases pc with
    | load => exact Quiet.unpublished h
    | set | cas => exact Prepared.unpublished h
    | acquire | rewind => exact Registered.unpublished h nofun nofun
    | sync | assertDone => exact Done.unpublished h
    | clear => exact Rewound.unpublished h
  | whenAny pc =>
    cases pc with
    | load => exact Quiet.unpublished h
    | set | cas => exact Prepared.unpublished h
    | assertDone => exact Done.unpublished h
    | pending => exact MaybeRegistered.unpublished h fun _ => RewindKind.ne (k := .ret)
  | rewind pc =>
    cases pc with
    | load =>
      rcases h with h | h
      · exact h.unpublished fun _ => RewindKind.ne
      · exact h.unpublished
    | cas => exact MaybeRegistered.unpublished h fun _ => RewindKind.ne
    | assertDone => exact Done.unpublished h
    | clear => exact Rewound.unpublished h
  | share pc =>
    cases pc with
    | load => exact Quiet.unpublished h
    | set | cas => exact Prepared.unpublished h
    | assertDone | finish | dropped => exact Done.unpublished h
    | sharing => exact MaybeRegistered.unpublished h fun _ => RewindKind.ne (k := .complete)
  | joined => exact Done.unpublished h
  | complete pc =>
    cases pc with
    | load | exchange => exact Quiet.unpublished h
    | delete => cases h.1
  | finished =>
    obtain ⟨rfl, hreg⟩ := h.1 rfl
    exact .consumerDone hreg rfl

theorem ConsumerOk.ne_producerDone (h : ConsumerOk false st ctx reg pc) : st ≠ .producerDone := by
  rintro rfl
  cases h.unpublished

theorem ConsumerOk.of_idle (h : ConsumerOk false .idle ctx reg pc) : reg = none := by
  cases h.unpublished with
  | idle hreg => exact hreg

theorem ConsumerOk.of_consumerSet (h : ConsumerOk false .consumerSet ctx reg pc) :
    ProducerOk pc reg .resume := by
  cases h.unpublished with
  | consumerSet hok => exact hok

theorem ConsumerOk.of_consumerWaiting (h : ConsumerOk false .consumerWaiting ctx reg pc) :
    reg = some .thread := by
  cases h.unpublished with
  | consumerWaiting hreg => exact hreg

theorem ConsumerOk.of_consumerDone (h : ConsumerOk false .consumerDone ctx reg pc) :
    reg = none ∧ pc = .finished := by
  cases h.unpublished with
  | consumerDone hreg hpc => exact ⟨hreg, hpc⟩

end

end

/-! ### Elementary operations of the consumer -/

section

variable {s : Protocol α ε} {c pc : ConsumerPc} {pp : ProducerPc} {reg : Option Waiter}

/-- What the producer relies on concerns a parked consumer only. -/
theorem ProducerOk.of_not_parked {c' : ConsumerPc} (h : ProducerOk c reg pp) (hc : ¬ Parked c) :
    ProducerOk c' reg pp := by
  cases pp with
  | resume =>
    obtain ⟨w, hw, hne, hk⟩ := h
    refine ⟨w, hw, hne, fun i hi => ?_⟩
    obtain ⟨k, rfl⟩ := hk i hi
    exact absurd trivial hc
  | resumeAwait => obtain ⟨i, k, -, rfl⟩ := h; exact absurd trivial hc
  | callHandle => obtain ⟨k, -, rfl⟩ := h; exact absurd trivial hc
  | onResultFinished | dropShared => obtain ⟨-, rfl | rfl⟩ := h <;> exact absurd trivial hc
  | delete => obtain ⟨-, rfl⟩ := h; exact absurd trivial hc
  | _ => exact h

/-- While the producer owns no copy of the shared pointer, it does not mind a holder going away. -/
theorem ProducerOk.of_sharing {c' : ConsumerPc} (h : ProducerOk (.share .sharing) reg pp)
    (hp : pp.holdsShared = false) : ProducerOk c' reg pp := by
  cases pp with
  | resume =>
    obtain ⟨w, hw, hne, hk⟩ := h
    exact ⟨w, hw, hne, fun i hi => by obtain ⟨k, hk⟩ := hk i hi; cases hk⟩
  | resumeAwait => obtain ⟨i, k, -, hk⟩ := h; cases hk
  | callHandle => obtain ⟨k, -, hk⟩ := h; cases hk
  | onResultFinished => cases hp
  | dropShared => cases hp
  | delete => obtain ⟨-, hk⟩ := h; cases hk
  | _ => exact h

/-- While it owns one, the shared state outlives its holders. -/
theorem ProducerOk.of_holdsShared (h : ProducerOk c reg pp) (hp : pp.holdsShared = true) :
    ProducerOk (.share .dropped) reg pp := by
  cases pp with
  | onResultFinished | dropShared => exact ⟨h.1, .inr rfl⟩
  | _ => cases hp

theorem ProducerPc.published_of_holdsShared (hp : pp.holdsShared = true) : pp.published = true := by
  cases pp <;> first | rfl | cases hp

theorem ProducerOk.of_unpublished (h : pp.published = false) : ProducerOk c reg pp := by
  cases pp <;> trivial

/-- A step that only moves the consumer. -/
theorem Inv.goto (h : Inv s) (hpc : s.consumer = c) (hc : ¬ Parked c)
    (hs : AfterShare c → AfterShare pc)
    (hok : ConsumerOk s.producer.published s.state.pcState s.state.consumer s.registered pc) :
    Inv (s.goto pc) :=
  { h with
    consumer := hok
    producer := h.producer.of_not_parked (hpc ▸ hc)
    shared := fun p hp => hs (hpc ▸ h.shared p hp) }

theorem Inv.check {b : Bool} (h : Inv s) (hb : b = true) : Inv (s.check b) :=
  { h with asserts := by simp [Protocol.check, h.asserts, hb] }

theorem Inv.assertDone (h : Inv s) (hd : s.state.pcState = .producerDone) : Inv s.assertDone :=
  h.check (by simp [hd])

/-- A compare-exchange that publishes `w`. -/
theorem Inv.register {w : Waiter} {st : PcState} (h : Inv s) (hp : s.producer.published = false)
    (hctx : s.state.consumer = w.context) (hs : ∀ p, w = .sharedState p → AfterShare pc)
    (hok : ConsumerOk s.producer.published st s.state.consumer (some w) pc) :
    Inv ((s.register w st).goto pc) :=
  { h with
    consumer := hok
    producer := ProducerOk.of_unpublished hp
    context := by rintro w' ⟨⟩; exact hctx
    shared := by rintro p ⟨⟩; exact hs p rfl }

/-- A compare-exchange that takes a registration back. -/
theorem Inv.unregister (h : Inv s) (hp : s.producer.published = false)
    (hok : ConsumerOk s.producer.published .idle s.state.consumer none pc) :
    Inv (s.unregister.goto pc) :=
  { h with
    consumer := hok
    producer := ProducerOk.of_unpublished hp
    context := by rintro w ⟨⟩
    shared := by rintro p ⟨⟩ }

/-- The exchange of `complete_consumer`. -/
theorem Inv.setPcState {st : PcState} (h : Inv s) (hpc : s.consumer = c) (hc : ¬ Parked c)
    (hs : AfterShare c → AfterShare pc)
    (hok : ConsumerOk s.producer.published st s.state.consumer s.registered pc) :
    Inv ((s.setPcState st).goto pc) :=
  { h with
    consumer := hok
    producer := h.producer.of_not_parked (hpc ▸ hc)
    shared := fun p hp => hs (hpc ▸ h.shared p hp) }

/-- The stores of `set_await_handle` and its siblings. -/
theorem Inv.setContext {ctx : ConsumerContext} (h : Inv s) (hpc : s.consumer = c) (hc : ¬ Parked c)
    (hctx : s.state.consumer = .idle) (hreg : s.registered = none)
    (hok : ConsumerOk s.producer.published s.state.pcState ctx s.registered pc) :
    Inv ((s.setContext ctx).goto pc) :=
  { h with
    consumer := hok
    producer := h.producer.of_not_parked (hpc ▸ hc)
    context := fun w hw => by cases hreg.symm.trans hw
    stored := fun _ => rfl
    shared := fun p hp => by cases hreg.symm.trans hp
    asserts := by simp [Protocol.goto, Protocol.setContext, Protocol.check, h.asserts, hctx] }

/-- `clear`, after the registration has been taken back. -/
theorem Inv.clearContext (h : Inv s) (hpc : s.consumer = c) (hc : ¬ Parked c)
    (hreg : s.registered = none)
    (hok : ConsumerOk s.producer.published s.state.pcState .idle s.registered pc) :
    Inv (s.clearContext.goto pc) :=
  { h with
    consumer := hok
    producer := h.producer.of_not_parked (hpc ▸ hc)
    context := fun w hw => by cases hreg.symm.trans hw
    stored := fun hne => absurd rfl hne
    shared := fun p hp => by cases hreg.symm.trans hp }

/-- A finished `wait_for` does not answer `idle`. -/
theorem Inv.waitFor_ne (h : Inv s) (hp : s.producer.published = true) :
    Ret.waitFor s.state.producer.status ≠ .waitFor .idle := by
  intro he
  refine h.built (fun hb => ?_) ((s.state.producer.status_eq_idle_iff).1 (Ret.waitFor.inj he))
  rw [hb] at hp
  cases hp

theorem Inv.deleteSelf (h : Inv s) : Inv s.deleteSelf :=
  { h with asserts := by simp [Protocol.deleteSelf, Protocol.check, h.asserts, h.handle] }

/-- `on_result_finished` reads the status of a finished result. -/
theorem Inv.onResultFinished (h : Inv s) (hd : Done s.producer.published s.state.pcState) :
    Inv s.onResultFinished :=
  { h with
    finished := fun _ => hd.1
    asserts := by simp [Protocol.onResultFinished, Protocol.check, h.asserts, hd.2] }

end

end Protocol
end Concurrencpp
