import Concurrencpp.Results.SharedResultInvariant

/-!
# A shared result finishes once and agrees with its source

The holders keep the invariant of `SharedResultInvariant`, so every run does (`inv_of_reachable`).
`finished_exactly_once` reads from it what the users of a `shared_result` see:

* `on_result_finished` runs at most once, and once, to its end, if the producer completes while
  there are holders;
* `m_status` is idle or the status of a finished source;
* `get_ref` is reached with a finished result only;
* two observations that are not idle are the same.
-/

namespace Concurrencpp

open Interleaving
namespace SharedResult

variable {α ε : Type} {s t : SharedResult α ε} {k : ℕ}

/-! ### The holders -/

theorem Inv.alive_of_holder (h : Inv s) (hk : s.holders k ≠ .absent) :
    s.constructed = true ∧ s.result.consumer = .share .sharing :=
  h.alive (Finset.ne_empty_of_mem ((h.owners k).1 hk))

/-- Holder `k` comes or goes. -/
theorem Inv.setOwners {pc : HolderPc} {owners : Finset ℕ} (h : Inv s) (hpc : pc ≠ .get)
    (hk : pc ≠ .absent ↔ k ∈ owners) (hne : ∀ j, j ≠ k → (j ∈ s.owners ↔ j ∈ owners))
    (halive : s.owners ≠ ∅) : Inv { s.setHolder k pc with owners := owners } :=
  { h with
    owners := (Function.forall_update_iff _ fun j (pc : HolderPc) => pc ≠ .absent ↔ j ∈ owners).2
      ⟨hk, fun j hj => (h.owners j).trans (hne j hj)⟩
    alive := fun _ => h.alive halive
    get := (Function.forall_update_iff _ fun _ (pc : HolderPc) => pc = .get → s.status ≠ .idle).2
      ⟨fun hget => absurd hget hpc, fun j _ => h.get j⟩ }

/-- The call of `get_ref` is one that the source admits. -/
theorem Inv.getRef (h : Inv s) (hk : s.holders k ≠ .absent) (hne : s.status ≠ .idle) :
    Inv (s.setResult s.result.assertDone) := by
  have hs : s.result.step (.call .get) = some s.result.assertDone := by
    simp only [Protocol.step, Protocol.call, (h.alive_of_holder hk).2]
    exact if_neg hne
  exact h.setResult hs rfl id (fun ho => (h.alive ho).2) .inl

/-- The ready constant stands for a status that is not idle. -/
theorem Inv.status_of_ready (h : Inv s) (hready : s.awaiters.awaiters = .ready) :
    s.status ≠ .idle := fun hidle =>
  (SharedAwaiters.inv_of_reachable h.awaiters).finish_of_ready hready (h.started.2 hidle)

/-- So `await` returns only once the status is not idle. -/
theorem Inv.status_of_returned {n : ℕ} (h : Inv s) (hn : s.awaiters.awaitables n = .returned) :
    s.status ≠ .idle :=
  h.status_of_ready (((SharedAwaiters.inv_of_reachable h.awaiters).awaitable n).ready (.inl hn))

theorem inv_await {address : ℕ} {after : AfterWait} (h : Inv s) (hk : s.holders k ≠ .absent)
    (hs : s.await k address after = some t) : Inv t := by
  obtain ⟨a, ha, rfl⟩ := Option.map_eq_some_iff.1 hs
  have hcreate : s.awaiters.step (.create s.fresh address) = some a := ha
  have hi := h.setAwaiters (m := .create s.fresh address) nofun hcreate s.semaphore (s.fresh + 1)
  exact hi.setHolder hk nofun nofun

theorem inv_destroy (h : Inv s) (hk : s.holders k ≠ .absent) (hs : s.destroy k = some t) :
    Inv t := by
  have hmem := (h.owners k).1 hk
  have hgone : Inv { s.setHolder k .absent with owners := s.owners.erase k } := by
    refine h.setOwners nofun ?_ (fun j hj => ?_) (Finset.ne_empty_of_mem hmem)
    · simp
    · simp [hj]
  simp only [destroy] at hs
  split_ifs at hs with hlast
  · obtain ⟨r, hr, rfl⟩ := Option.map_eq_some_iff.1 hs
    have hcall : s.result.step (.call .destroy) = some r := hr
    simp only [Protocol.call, (h.alive_of_holder hk).2] at hr
    cases hr
    refine hgone.setResult hcall rfl (fun _ => ?_) (fun ho => absurd hlast ho) .inl
    show Protocol.AfterShare (if _ then _ else _)
    split_ifs <;> trivial
  · cases hs
    exact hgone

theorem inv_call {op : HolderOp} (h : Inv s) (hs : s.call k op = some t) : Inv t := by
  unfold call at hs
  split_ifs at hs with hready
  have hk : s.holders k ≠ .absent := by
    rw [hready]
    nofun
  cases op with
  | status =>
    cases hs
    exact h.observe
  | wait | waitUntil | get =>
    cases hs
    exact h.setHolder hk nofun nofun
  | coAwait | resolve => exact inv_await h hk hs
  | copy =>
    simp only at hs
    split_ifs at hs with hj
    cases hs
    refine h.setOwners nofun ?_ (fun i hi => ?_) (Finset.ne_empty_of_mem ((h.owners k).1 hk))
    · simp
    · simp [hi]
  | destroy => exact inv_destroy h hk hs

theorem inv_awaitStep {n : ℕ} {after : AfterWait} (h : Inv s) (hk : s.holders k ≠ .absent)
    (hs : s.awaitStep k n after = some t) : Inv t := by
  obtain ⟨a, ha, rfl⟩ := Option.map_eq_some_iff.1 hs
  have hstep : s.awaiters.step (.awaitable n) = some a := ha
  have hi := h.setAwaiters (m := .awaitable n) nofun hstep s.semaphore s.fresh
  split_ifs with hret hget
  · exact (hi.getRef hk (h.status_of_returned hret)).setHolder hk nofun nofun
  · exact hi.setHolder hk nofun nofun
  · exact hi

theorem inv_holderStep (h : Inv s) (hs : s.holderStep k = some t) : Inv t := by
  unfold holderStep at hs
  have hafter : ∀ after, afterWait after ≠ .absent := fun after => by cases after <;> nofun
  cases hpc : s.holders k <;> simp only [hpc] at hs
  case absent | ready => simp at hs
  case wait after =>
    cases hs
    refine h.observe.setHolder (by rw [show s.observe.holders k = _ from hpc]; nofun) ?_ ?_
    · split_ifs
      · nofun
      · exact hafter after
    · split_ifs with hidle
      · nofun
      · exact fun _ => hidle
  case block after =>
    split_ifs at hs with hidle
    cases hs
    exact h.setHolder (by rw [hpc]; nofun) (hafter after) fun _ => hidle
  case waitUntil =>
    cases hs
    refine h.observe.setHolder (by rw [show s.observe.holders k = _ from hpc]; nofun) ?_ ?_ <;>
      split_ifs <;> nofun
  case acquire =>
    split_ifs at hs
    cases hs
    have hwait : Inv (s.setHolder k .waitUntil) := h.setHolder (by rw [hpc]; nofun) nofun nofun
    exact { hwait with }
  case lastLoad =>
    cases hs
    exact h.observe.setHolder (by rw [show s.observe.holders k = _ from hpc]; nofun) nofun nofun
  case get =>
    cases hs
    have hk : s.holders k ≠ .absent := by
      rw [hpc]
      nofun
    exact (h.getRef hk (h.get k hpc)).setHolder hk nofun nofun
  case await => exact inv_awaitStep h (by rw [hpc]; nofun) hs

/-! ### Every run -/

theorem inv_step {m : SharedMove α ε} (h : Inv s) (hs : s.step m = some t) : Inv t := by
  cases m with
  | construct => exact inv_construct h hs
  | share => exact inv_shareStep h hs
  | constructed => exact inv_finishConstruct h hs
  | setResult v => exact inv_build (m := .setResult v) h rfl hs
  | setException e => exact inv_build (m := .setException e) h rfl hs
  | completeProducer => exact inv_completeProducer h hs
  | producer => exact inv_producerStep h hs
  | finish =>
    obtain ⟨a, ha, rfl⟩ := Option.map_eq_some_iff.1 hs
    have hstep : s.awaiters.step .finish = some a := ha
    exact h.setAwaiters (m := .finish) nofun hstep _ s.fresh
  | call => exact inv_call h hs
  | holder => exact inv_holderStep h hs
  | deadline k =>
    simp only [step, deadline] at hs
    split at hs
    case h_1 hpc =>
      cases hs
      exact h.observe.setHolder (by rw [show s.observe.holders k = _ from hpc]; nofun) nofun nofun
    case h_2 hpc =>
      cases hs
      exact h.setHolder (by rw [hpc]; nofun) nofun nofun
    case h_3 => cases hs
  | spurious =>
    simp only [step, spurious] at hs
    split at hs
    case h_1 n after hpc =>
      obtain ⟨a, ha, rfl⟩ := Option.map_eq_some_iff.1 hs
      have hstep : s.awaiters.step (.spurious n) = some a := ha
      exact h.setAwaiters (m := .spurious n) nofun hstep s.semaphore s.fresh
    case h_2 => cases hs
  | destructor => exact inv_destructorStep h hs

theorem inv_of_reachable (h : Reachable s) : Inv s := by
  refine Reach.invariant ?_ (fun _ _ _ hi _ hs => inv_step hi hs) h
  rintro _ ⟨r, last, hr, hc, rfl⟩
  exact inv_start hr hc

/-- No step takes a call of `on_result_finished` back. -/
theorem step_finishes {m : SharedMove α ε} (hs : s.step m = some t) : s.finishes ≤ t.finishes := by
  cases m
  all_goals
    simp only [step, construct, shareStep, finishConstruct, producerStep, finishStep, call, await,
      destroy, holderStep, awaitStep, deadline, spurious, destructorStep] at hs
    repeat' split at hs
  all_goals first | cases hs | obtain ⟨r, -, rfl⟩ := Option.map_eq_some_iff.1 hs
  all_goals first | exact le_rfl | exact Nat.le_succ _

theorem run_finishes {ms : List (SharedMove α ε)} (hs : run step s ms = some t) :
    s.finishes ≤ t.finishes :=
  run_invariant (fun u => s.finishes ≤ u.finishes)
    (fun _ _ _ hle hstep => hle.trans (step_finishes hstep)) le_rfl hs

/-- The producer has left a shared state that it found alive: `on_result_finished` has been
called. -/
theorem Inv.status_of_producer (h : Inv s)
    (hp : s.result.producer = .dropShared ∨
      s.result.producer = .done ∧ s.result.consumer = .share .sharing) : s.status ≠ .idle := by
  have hi := Protocol.inv_of_reachable h.result
  have hd := Protocol.delivery_of_reachable h.result
  have hbuilt : s.result.state.producer ≠ .idle :=
    hi.built (by rcases hp with hp | ⟨hp, -⟩ <;> rw [hp] <;> nofun)
  -- the shared state that is registered has been woken
  have hwoken : ∀ p, s.result.registered = some (.sharedState p) →
      s.result.woken = s.result.registered.toList → s.status ≠ .idle := fun p hreg hw hidle => by
    have heq := hd.shared p (by rw [hw, hreg]; exact List.mem_singleton_self _)
    exact hbuilt ((s.result.state.producer.status_eq_idle_iff).1 (heq.symm.trans hidle))
  have hok := hd.woken
  rcases hp with hp | ⟨hp, hc⟩
  · have hpr := hi.producer
    rw [hp] at hpr hok
    obtain ⟨⟨p, hreg⟩, -⟩ := hpr
    exact hwoken p hreg hok
  · rcases (Protocol.sharedOk_of_reachable h.result).sharing hc with hne | ⟨p, hreg⟩
    · exact hne
    · rw [hp, hc] at hok
      rcases hok with hw | ⟨-, -, hh⟩
      · exact hwoken p hreg hw
      · cases hh

/-- The caller of `on_result_finished` has left it once the producer is done and there are
holders. -/
theorem Inv.finish_of_done (h : Inv s) (hp : s.result.producer = .done) (ho : s.owners ≠ ∅) :
    s.awaiters.finish = .done := by
  obtain ⟨hcon, hc⟩ := h.alive ho
  have hne := h.status_of_producer (.inr ⟨hp, hc⟩)
  cases hr : s.runner with
  | none => exact absurd (h.runner.1 hr) hne
  | some who =>
    cases who with
    | constructor => exact h.byConstructor hr hcon
    | producer =>
      refine (h.byProducer hr).resolve_left fun hdrop => ?_
      cases hp.symm.trans hdrop

/-- What a status that is not idle says about the source. -/
theorem Inv.source_of_status (h : Inv s) (hne : s.status ≠ .idle) :
    s.result.state.pcState = .producerDone ∧ s.status = s.result.state.producer.status :=
  have hf := (Protocol.sharedOk_of_reachable h.result).finished hne
  ⟨hf.done, hf.status⟩

/-- The holder is about to call `get_ref`: behind the wait of `get`, or in `await_resume`. -/
def atGetRef (s : SharedResult α ε) (k : ℕ) : Bool :=
  match s.holders k with
  | .get => true
  | .await n .get => s.awaiters.awaitables n = .returned
  | _ => false

theorem Inv.status_of_atGetRef (h : Inv s) (hk : s.atGetRef k = true) : s.status ≠ .idle := by
  unfold atGetRef at hk
  split at hk
  case h_1 hpc => exact h.get k hpc
  case h_2 n hpc => exact h.status_of_returned (of_decide_eq_true hk)
  case h_3 => cases hk

/-- **A shared result finishes once and agrees with its source.**  `on_result_finished` is called at
most once; it has been called, once and for all, when the producer has left a shared state that it
found alive, and it has returned when there are still holders then.  A status that is not idle is
the producer's, and the source is finished; so it is for an awaiter that finds the ready constant,
and `get` and `await_resume` reach `get_ref` with a finished result only.  What is observed after a
status that is not idle is the same. -/
theorem finished_exactly_once (h : Reachable s) :
    s.finishes ≤ 1 ∧
    (s.result.producer = .dropShared ∨
        s.result.producer = .done ∧ s.result.consumer = .share .sharing →
      ∀ ms u, run step s ms = some u → u.finishes = 1) ∧
    (s.result.producer = .done → s.owners ≠ ∅ → s.awaiters.finish = .done) ∧
    (s.status ≠ .idle →
      s.result.state.pcState = .producerDone ∧ s.status = s.result.state.producer.status) ∧
    (s.awaiters.awaiters = .ready → s.status ≠ .idle) ∧
    (∀ k, s.atGetRef k = true →
      s.result.state.pcState = .producerDone ∧ s.result.state.producer ≠ .idle) ∧
    s.result.assertFailed = false ∧
    s.observed.Pairwise fun a b => a ≠ .idle → b = a := by
  have hi := inv_of_reachable h
  have hle : ∀ {u : SharedResult α ε}, Inv u → u.finishes ≤ 1 := fun {u} hu => by
    rw [hu.finishes]
    split_ifs <;> decide
  refine ⟨hle hi, fun hp ms u hu => ?_, fun hp ho => hi.finish_of_done hp ho, hi.source_of_status,
    hi.status_of_ready, fun k hk => ?_, (Protocol.inv_of_reachable hi.result).asserts, hi.agree⟩
  · have hone : s.finishes = 1 := hi.finishes.trans (if_neg (hi.status_of_producer hp))
    exact le_antisymm (hle (inv_of_reachable (h.run hu))) (hone ▸ run_finishes hu)
  · have hne := hi.status_of_atGetRef hk
    obtain ⟨hdone, heq⟩ := hi.source_of_status hne
    refine ⟨hdone, fun hidle => hne (heq.trans ?_)⟩
    exact (s.result.state.producer.status_eq_idle_iff).2 hidle

/-- One holder gets and one awaits before the producer completes; the coroutine has been resumed and
is about to call `get_ref`. -/
theorem finished_exactly_once_of_await :
    ∃ s : SharedResult ℕ ℕ, Reachable s ∧ s.result.producer = .done ∧ s.owners = {1, 0} ∧
      s.atGetRef 0 = true ∧ s.finishes = 1 ∧ s.awaiters.finish = .done ∧
      s.result.state.pcState = .producerDone ∧ s.observed = [.idle, .value] := by
  let schedule : List (SharedMove ℕ ℕ) := [.construct, .share, .share, .share, .constructed,
    .call 0 (.copy 1), .call 0 (.coAwait 40), .holder 0, .holder 0, .holder 0, .call 1 .get,
    .holder 1, .setResult 7, .completeProducer none, .producer, .producer, .producer, .producer,
    .producer, .holder 1, .holder 1, .call 1 .status, .finish, .finish, .finish, .finish, .finish,
    .finish, .finish, .finish, .producer]
  let s := (run step (start Protocol.initial) schedule).get rfl
  have h : Reachable s := Reachable.of_run
    ⟨_, none, .start rfl, rfl, rfl⟩ (Option.some_get _).symm
  have hget : s.atGetRef 0 = true := rfl
  obtain ⟨-, hone, hdone, -, -, hpc, -⟩ := finished_exactly_once h
  exact ⟨s, h, rfl, rfl, hget, hone (Or.inr ⟨rfl, rfl⟩) [] s rfl,
    hdone rfl (Finset.insert_ne_empty 1 {0}), (hpc 0 hget).1, rfl⟩

end SharedResult
end Concurrencpp
