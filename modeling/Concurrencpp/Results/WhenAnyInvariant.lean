import Concurrencpp.Results.WhenAnyInputs

/-!
# The invariant of `when_any`

`Inv` says what ties the inputs to the context:

* where the consumer of each input stands, for every program point of the coroutine (`InputOk`);
* the value of `m_status`: never `k_done_processing` before the coroutine suspends, never
  `k_processing` after it, and the address of an input once it goes on (`StatusOk`);
* a producer about to call the handle has written `m_status` itself, and the coroutine is suspended
  (`handle`), so that no two producers call it;
* a producer that has served a registration in this context has left a completed result behind
  (`delivered`).

This module shows that the coroutine's steps preserve it, one lemma for each part of `await_suspend`
and `await_resume`.
-/

namespace Concurrencpp
namespace WhenAny

variable {α ε : Type} {n : ℕ} {s t : WhenAny α ε n}

/-- Not yet reached by `await_suspend`; the next context to be stored will get the name `id`. -/
def Untouched (id : ℕ) (p : Protocol α ε) : Prop :=
  (∃ last, p.consumer = .ready last) ∧ p.fresh = id

/-- `when_any` has returned. -/
def Waiting (p : Protocol α ε) : Prop := p.consumer = .whenAny .pending

/-- Inside `when_any`, whose first load has found `state`. -/
def Registering (id : ℕ) (state : PcState) (p : Protocol α ε) : Prop :=
  ∃ pc, p.consumer = .whenAny pc ∧
    match pc with
    | .load => p.fresh = id
    | .set => p.fresh = id ∧ state ≠ .producerDone
    | .cas c => c = id ∧ state ≠ .producerDone
    | .assertDone => state ≠ .producerDone
    | .pending => False

/-- Not yet reached by `await_resume`. -/
def Unrewound (p : Protocol α ε) : Prop := Waiting p ∨ ∃ last, p.consumer = .ready last

/-- Where the consumer of the input `i` stands. -/
def InputOk (i id : ℕ) (p : Protocol α ε) : AwaiterPc → Prop
  | .check j => if i < j then Waiting p else Untouched id p
  | .registering j state =>
      if i < j then Waiting p else if i = j then Registering id state p else Untouched id p
  | .inlineLoad j | .inlineCas j =>
      Unrewound p ∧ (i = j → p.producer.published = true)
  | .finishCas | .suspended => Waiting p
  | .completedResult => Unrewound p
  | .rewinding j _ _ =>
      if i < j then p.consumer = .ready (some .whenAny)
      else if i = j then Unrewound p ∨ ∃ pc, p.consumer = .rewind pc .ret else Unrewound p
  | .returned _ => p.consumer = .ready (some .whenAny)

/-- The value of `m_status`, and how often the coroutine has gone on. -/
def StatusOk (n : ℕ) (st : WhenAnyStatus) (continuations : ℕ) : AwaiterPc → Prop
  | .check _ | .registering _ _ | .finishCas => st ≠ .doneProcessing ∧ continuations = 0
  | .inlineLoad i | .inlineCas i => i < n ∧ st ≠ .doneProcessing ∧ continuations = 0
  | .suspended => st ≠ .processing ∧ continuations = 0
  | .completedResult => (∃ k, st = .completed k) ∧ continuations = 1
  | .rewinding j completed index => continuations = 1 ∧
      ∃ k, st = .completed k ∧ completed = st ∧ index = if k < j then some k else none
  | .returned index => continuations = 1 ∧ ∃ k, st = .completed k ∧ index = some k

/-- The invariant. -/
structure Inv (s : WhenAny α ε n) : Prop where
  point : ∀ i : Fin n, InputOk i (s.ids i) (s.inputs i) s.awaiter
  status : StatusOk n s.status s.continuations s.awaiter
  result : ∀ k, s.status = .completed k →
    ∃ h : k < n, (s.inputs ⟨k, h⟩).producer.published = true
  casDone : ∀ i, s.tries i = .casDone → s.status ≠ .processing
  handle : ∀ i : Fin n, s.tries i = .callHandle → s.status = .completed i ∧
    s.awaiter = .suspended ∧ (s.inputs i).producer = .tryResume (s.ids i)
  resumer : s.awaiter = .suspended → s.status = .doneProcessing ∨ ∃ i, s.tries i = .callHandle
  delivered : ∀ i, (s.inputs i).registered = some (.whenAny (s.ids i)) →
    (s.inputs i).producer = .done → ∃ k, s.status = .completed k
  asserts : s.assertFailed = false

theorem inv_initial (h : IsInitial s) : Inv s := by
  obtain ⟨inputs, hin, rfl⟩ := h
  exact {
    point := fun i => ⟨(hin i).2, rfl⟩
    status := ⟨nofun, rfl⟩
    result := nofun
    casDone := nofun
    handle := nofun
    resumer := nofun
    delivered := fun i hreg => absurd hreg (Protocol.registered_ne_fresh (hin i).1)
    asserts := rfl }

theorem Inv.located {pc : AwaiterPc} (h : Inv s) (hpc : s.awaiter = pc) :
    (∀ i : Fin n, InputOk i (s.ids i) (s.inputs i) pc) ∧ StatusOk n s.status s.continuations pc :=
  hpc ▸ ⟨h.point, h.status⟩

/-! ### Steps of the coroutine -/

theorem Inv.check {b : Bool} (h : Inv s) (hb : b = true) : Inv (s.check b) :=
  { h with asserts := by simp [WhenAny.check, h.asserts, hb] }

/-- The coroutine takes a step that concerns no input. -/
theorem Inv.move {pc : AwaiterPc} (h : Inv s) (hsusp : s.awaiter ≠ .suspended)
    (hsusp' : pc ≠ .suspended) (hpoint : ∀ i : Fin n, InputOk i (s.ids i) (s.inputs i) pc)
    (hstatus : StatusOk n s.status s.continuations pc) : Inv (s.goto pc) :=
  { h with
    point := hpoint
    status := hstatus
    handle := fun i hi => absurd (h.handle i hi).2.1 hsusp
    resumer := fun hs => absurd hs hsusp' }

/-- `await_suspend` returns `false`, on a completed result. -/
theorem Inv.proceed {k : ℕ} (h : Inv s) (hsusp : s.awaiter ≠ .suspended)
    (hst : s.status = .completed k) (hc : s.continuations = 0)
    (hpoint : ∀ i : Fin n, Unrewound (s.inputs i)) : Inv s.proceed :=
  { h with
    point := hpoint
    status := ⟨⟨k, hst⟩, congrArg (· + 1) hc⟩
    handle := fun i hi => absurd (h.handle i hi).2.1 hsusp
    resumer := nofun }

/-- The coroutine takes a step of the consumer of the input `i`. -/
theorem Inv.moveInput {i : Fin n} {q : Protocol α ε} {m : Move α ε} {pc : AwaiterPc} (h : Inv s)
    (hr : Protocol.Reachable (s.inputs i)) (hq : (s.inputs i).step m = some q)
    (hprod : q.producer = (s.inputs i).producer) (hsusp : s.awaiter ≠ .suspended)
    (hsusp' : pc ≠ .suspended) (hi : InputOk i (s.ids i) q pc)
    (hpoint : ∀ j, j ≠ i → InputOk j (s.ids j) (s.inputs j) pc)
    (hstatus : StatusOk n s.status s.continuations pc) : Inv ((s.setInput i q).goto pc) := by
  have hinputs : ∀ j, ((s.setInput i q).goto pc).inputs j = if j = i then q else s.inputs j :=
    fun j => Function.update_apply ..
  exact { h with
    point := fun j => by
      rw [hinputs]
      split_ifs with hj
      · subst hj; exact hi
      · exact hpoint j hj
    status := hstatus
    result := fun k hk => by
      obtain ⟨hkn, hp⟩ := h.result k hk
      refine ⟨hkn, ?_⟩
      rw [hinputs]
      split_ifs with hj
      · rw [hprod, ← hj]; exact hp
      · exact hp
    handle := fun j hj => absurd (h.handle j hj).2.1 hsusp
    resumer := fun hs => absurd hs hsusp'
    delivered := fun j hreg hdone => by
      rw [hinputs] at hreg hdone
      split_ifs at hreg hdone with hj
      · -- the producer is done, so the registration is not new
        subst hj
        rw [hprod] at hdone
        refine h.delivered j (Eq.trans ?_ hreg) hdone
        refine ((Protocol.registered_step (Protocol.inv_of_reachable hr) hq).1 ?_).symm
        rw [hdone]
        rfl
      · exact h.delivered j hreg hdone }

/-- Before it suspends, the coroutine finds `k_processing` or a completed result. -/
theorem completed_of_ne {st : WhenAnyStatus} (hd : st ≠ .doneProcessing) (hp : st ≠ .processing) :
    ∃ k, st = .completed k := by
  cases st with
  | processing => exact absurd rfl hp
  | doneProcessing => exact absurd rfl hd
  | completed k => exact ⟨k, rfl⟩

theorem InputOk.unrewound_of_check {i j id : ℕ} {p : Protocol α ε} (h : InputOk i id p (.check j)) :
    Unrewound p := by
  simp only [InputOk] at h
  split_ifs at h
  · exact .inl h
  · exact .inr h.1

theorem inv_checkStep {i : ℕ} (h : Inv s) (hr : ∀ j, Protocol.Reachable (s.inputs j))
    (hpc : s.awaiter = .check i) (hs : s.checkStep i = some t) : Inv t := by
  obtain ⟨hpoint, hstatus⟩ := h.located hpc
  have hsusp : s.awaiter ≠ .suspended := by rw [hpc]; simp
  have hchk : Inv (s.check (s.status ≠ .doneProcessing)) := h.check (by simp [hstatus.1])
  unfold checkStep at hs
  split_ifs at hs with hi hst
  · -- the call of `when_any` on the next input
    obtain ⟨q, hq, rfl⟩ := Option.map_eq_some_iff.1 hs
    have hin := hpoint ⟨i, hi⟩
    rw [InputOk, if_neg (lt_irrefl i)] at hin
    obtain ⟨⟨last, hlast⟩, hfresh⟩ := hin
    have hcall := hq
    simp only [Protocol.call, hlast] at hcall
    cases hcall
    refine hchk.moveInput (m := .call .whenAny) (hr _) hq rfl hsusp (by simp) ?_
      (fun j hj => ?_) hstatus
    · rw [InputOk, if_neg (lt_irrefl i), if_pos rfl]
      exact ⟨.load, rfl, hfresh⟩
    · have hj' : (j : ℕ) ≠ i := fun he => hj (Fin.ext he)
      have hin := hpoint j
      simp only [InputOk] at hin ⊢
      rwa [if_neg hj']
  · -- `any_result_finished`
    cases hs
    obtain ⟨k, hk⟩ := completed_of_ne hstatus.1 hst
    exact hchk.proceed hsusp hk hstatus.2 fun j => (hpoint j).unrewound_of_check
  · cases hs
    refine hchk.move hsusp (by simp) (fun j => ?_) hstatus
    have hin := hpoint j
    rwa [InputOk, if_pos (by omega)] at hin

/-- While the coroutine is at the input `i`, the others do not see where it goes next. -/
theorem InputOk.of_registering {i j id : ℕ} {state : PcState} {p : Protocol α ε}
    (h : InputOk j id p (.registering i state)) (hj : j ≠ i) :
    (∀ state', InputOk j id p (.registering i state')) ∧ InputOk j id p (.check (i + 1)) ∧
      InputOk j id p (.inlineLoad i) := by
  simp only [InputOk, if_neg hj] at h ⊢
  split_ifs at h with hlt
  · exact ⟨fun _ => by rwa [if_pos hlt], by rwa [if_pos (by omega)], .inl h, fun he => absurd he hj⟩
  · exact ⟨fun _ => by rwa [if_neg hlt], by rwa [if_neg (by omega)], .inr h.1,
      fun he => absurd he hj⟩

theorem inv_registerStep {i : ℕ} {state : PcState} (h : Inv s)
    (hr : ∀ j, Protocol.Reachable (s.inputs j)) (hpc : s.awaiter = .registering i state)
    (hs : s.registerStep i state = some t) : Inv t := by
  obtain ⟨hpoint, hstatus⟩ := h.located hpc
  have hsusp : s.awaiter ≠ .suspended := by rw [hpc]; simp
  unfold registerStep at hs
  split at hs
  case isFalse => cases hs
  case isTrue hi =>
    obtain ⟨q, hq, rfl⟩ := Option.map_eq_some_iff.1 hs
    have hin := hpoint ⟨i, hi⟩
    have hinv := Protocol.inv_of_reachable (hr ⟨i, hi⟩)
    have hprod := (Protocol.consumerStep_effect hq).producer
    rw [InputOk, if_neg (lt_irrefl i), if_pos rfl] at hin
    obtain ⟨pc, hc, hpcok⟩ := hin
    have hothers : ∀ j : Fin n, j ≠ ⟨i, hi⟩ → _ := fun j hj =>
      (hpoint j).of_registering fun he => hj (Fin.ext he)
    -- every outcome is one of three: still inside, back in the loop, or found finished
    have hinside : ∀ state', Registering (s.ids ⟨i, hi⟩) state' q →
        Inv ((s.setInput ⟨i, hi⟩ q).goto (.registering i state')) := fun state' hreg =>
      h.moveInput (m := .consumer) (hr _) hq hprod hsusp (by simp)
        (by rw [InputOk, if_neg (lt_irrefl i), if_pos rfl]; exact hreg)
        (fun j hj => (hothers j hj).1 state') hstatus
    have hback : Waiting q → Inv ((s.setInput ⟨i, hi⟩ q).goto (.check (i + 1))) := fun hw =>
      h.moveInput (m := .consumer) (hr _) hq hprod hsusp (by simp)
        (by rw [InputOk, if_pos (Nat.lt_succ_self i)]; exact hw)
        (fun j hj => (hothers j hj).2.1) hstatus
    have hfound : Waiting q → q.producer.published = true →
        Inv ((s.setInput ⟨i, hi⟩ q).goto (.inlineLoad i)) := fun hw hp =>
      h.moveInput (m := .consumer) (hr _) hq hprod hsusp (by simp) ⟨.inl hw, fun _ => hp⟩
        (fun j hj => (hothers j hj).2.2) ⟨hi, hstatus⟩
    simp only [Protocol.consumerStep, hc] at hq
    cases pc with
    | load =>
      simp only [hc, if_true]
      simp only [Protocol.whenAnyStep] at hq
      split_ifs at hq with hd <;> cases hq
      · have hp : (s.inputs ⟨i, hi⟩).producer.published = true := by
          cases hp : (s.inputs ⟨i, hi⟩).producer.published with
          | true => rfl
          | false =>
            have hok := hinv.consumer
            rw [hp] at hok
            exact absurd hd hok.ne_producerDone
        rw [Protocol.goto_consumer, if_pos rfl, afterWhenAny, if_pos hd]
        exact hfound rfl hp
      · rw [if_neg (by simp)]
        exact hinside _ ⟨.set, rfl, hpcok, hd⟩
    | set =>
      simp only [hc, reduceCtorEq, if_false, ConsumerPc.whenAny.injEq]
      cases hq
      rw [if_neg (by simp)]
      exact hinside _ ⟨.cas _, rfl, hpcok⟩
    | cas =>
      simp only [hc, reduceCtorEq, if_false, ConsumerPc.whenAny.injEq]
      simp only [Protocol.whenAnyStep] at hq
      split_ifs at hq with hidle <;> cases hq
      · -- the value that `when_any` returns is the one of its first load
        rw [Protocol.goto_consumer, if_pos rfl, afterWhenAny, if_neg hpcok.2]
        exact hback rfl
      · rw [if_neg (by simp)]
        exact hinside _ ⟨.assertDone, rfl, hpcok.2⟩
    | assertDone =>
      simp only [hc, reduceCtorEq, if_false, ConsumerPc.whenAny.injEq]
      cases hq
      rw [Protocol.goto_consumer, if_pos rfl, afterWhenAny, if_neg hpcok]
      exact hback rfl
    | pending => exact absurd hpcok id

/-- `m_status` goes from `k_processing` to the address of a finished input. -/
theorem Inv.complete {i : Fin n} (h : Inv s) (hsusp : s.awaiter ≠ .suspended)
    (hp : (s.inputs i).producer.published = true)
    (hstatus : StatusOk n (.completed i) s.continuations s.awaiter) :
    Inv (s.setStatus (.completed i)) :=
  { h with
    status := hstatus
    result := fun k hk => by cases hk; exact ⟨i.2, hp⟩
    casDone := nofun
    handle := fun j hj => absurd (h.handle j hj).2.1 hsusp
    resumer := fun hs => absurd hs hsusp
    delivered := fun _ _ _ => ⟨i, rfl⟩ }

theorem inv_inlineLoadStep {i : ℕ} (h : Inv s) (hpc : s.awaiter = .inlineLoad i) :
    Inv (s.inlineLoadStep i) := by
  obtain ⟨hpoint, hi, hne, hc⟩ := h.located hpc
  have hsusp : s.awaiter ≠ .suspended := by rw [hpc]; nofun
  have hchk : Inv (s.check (s.status ≠ .doneProcessing)) := h.check (by simp [hne])
  unfold inlineLoadStep
  split_ifs with hst
  · exact hchk.move hsusp nofun hpoint ⟨hi, hne, hc⟩
  · obtain ⟨k, hk⟩ := completed_of_ne hne hst
    exact hchk.proceed hsusp hk hc fun j => (hpoint j).1

theorem inv_inlineCasStep {i : ℕ} (h : Inv s) (hpc : s.awaiter = .inlineCas i) :
    Inv (s.inlineCasStep i) := by
  obtain ⟨hpoint, hi, hne, hc⟩ := h.located hpc
  have hsusp : s.awaiter ≠ .suspended := by rw [hpc]; nofun
  unfold inlineCasStep
  split_ifs with hst
  · have hdone : Inv (s.setStatus (.completed i)) :=
      h.complete (i := ⟨i, hi⟩) hsusp ((hpoint ⟨i, hi⟩).2 rfl) (by rw [hpc]; exact ⟨hi, nofun, hc⟩)
    exact hdone.proceed hsusp rfl hc fun j => (hpoint j).1
  · obtain ⟨k, hk⟩ := completed_of_ne hne hst
    exact h.proceed hsusp hk hc fun j => (hpoint j).1

theorem inv_finishStep (h : Inv s) (hpc : s.awaiter = .finishCas) : Inv s.finishStep := by
  obtain ⟨hpoint, hstatus⟩ := h.located hpc
  have hsusp : s.awaiter ≠ .suspended := by rw [hpc]; nofun
  unfold finishStep
  split_ifs with hst
  · exact { h with
      point := hpoint
      status := ⟨nofun, hstatus.2⟩
      result := nofun
      casDone := nofun
      handle := fun j hj => absurd (h.handle j hj).2.1 hsusp
      resumer := fun _ => .inl rfl
      delivered := fun j hreg hdone => by
        obtain ⟨k, hk⟩ := h.delivered j hreg hdone
        cases hst.symm.trans hk }
  · obtain ⟨k, hk⟩ := completed_of_ne hstatus.1 hst
    exact h.proceed hsusp hk hstatus.2 fun j => .inl (hpoint j)

theorem inv_completedResult (h : Inv s) (hpc : s.awaiter = .completedResult) :
    Inv (s.goto (.rewinding 0 s.status none)) := by
  obtain ⟨hpoint, ⟨k, hk⟩, hc⟩ := h.located hpc
  refine h.move (by rw [hpc]; nofun) nofun (fun j => ?_) ⟨hc, k, hk, rfl, by simp⟩
  rw [InputOk, if_neg (Nat.not_lt_zero _)]
  split_ifs
  · exact .inl (hpoint j)
  · exact hpoint j

/-- The steps of `try_rewind_consumer` stay inside it or return. -/
theorem consumer_of_rewind {p q : Protocol α ε} (hq : p.consumerStep = some q)
    (hc : Waiting p ∨ ∃ pc, p.consumer = .rewind pc .ret) :
    q.consumer = .ready (some .whenAny) ∨ ∃ pc, q.consumer = .rewind pc .ret := by
  rcases hc with hc | ⟨pc, hc⟩
  · simp only [Protocol.consumerStep, show p.consumer = _ from hc] at hq
    cases hq
    exact .inr ⟨.load, rfl⟩
  · simp only [Protocol.consumerStep, hc] at hq
    cases pc with
    | load | cas =>
      simp only [Protocol.rewindStep] at hq
      split_ifs at hq <;> cases hq
      · exact .inr ⟨_, rfl⟩
      · first | exact .inl rfl | exact .inr ⟨_, rfl⟩
    | assertDone | clear =>
      cases hq
      exact .inl rfl

theorem inv_rewindStep {i : ℕ} {completed : WhenAnyStatus} {index : Option ℕ} (h : Inv s)
    (hr : ∀ j, Protocol.Reachable (s.inputs j)) (hpc : s.awaiter = .rewinding i completed index)
    (hs : s.rewindStep i completed index = some t) : Inv t := by
  obtain ⟨hpoint, hc, k, hk, hcomp, hidx⟩ := h.located hpc
  have hsusp : s.awaiter ≠ .suspended := by rw [hpc]; simp
  unfold rewindStep at hs
  split at hs
  case isFalse hi =>
    obtain ⟨hkn, -⟩ := h.result k hk
    have hidx' : index = some k := hidx.trans (if_pos (by omega))
    cases hs
    refine (h.check (by rw [hidx']; rfl)).move hsusp (by simp) (fun j => ?_) ⟨hc, k, hk, hidx'⟩
    have hin := hpoint j
    rwa [InputOk, if_pos (by omega)] at hin
  case isTrue hi =>
    have hin := hpoint ⟨i, hi⟩
    rw [InputOk, if_neg (lt_irrefl i), if_pos rfl] at hin
    have hsame : ∀ {q : Protocol α ε} {m : Move α ε}, (s.inputs ⟨i, hi⟩).step m = some q →
        q.producer = (s.inputs ⟨i, hi⟩).producer → (∃ pc, q.consumer = .rewind pc .ret) →
        Inv ((s.setInput ⟨i, hi⟩ q).goto (.rewinding i completed index)) := fun hq hprod hin' =>
      h.moveInput (hr _) hq hprod hsusp (by simp)
        (by rw [InputOk, if_neg (lt_irrefl i), if_pos rfl]; exact .inr hin')
        (fun j _ => hpoint j) ⟨hc, k, hk, hcomp, hidx⟩
    split at hs
    case h_1 last hlast =>
      obtain ⟨q, hq, rfl⟩ := Option.map_eq_some_iff.1 hs
      have hcall := hq
      simp only [Protocol.call, hlast] at hcall
      cases hcall
      have hmove := hsame (m := .call .tryRewind) hq rfl ⟨.load, rfl⟩
      rwa [← hpc] at hmove
    case h_2 hnot =>
      obtain ⟨q, hq, rfl⟩ := Option.map_eq_some_iff.1 hs
      have hprod := (Protocol.consumerStep_effect hq).producer
      have hinside : Waiting (s.inputs ⟨i, hi⟩) ∨
          ∃ pc, (s.inputs ⟨i, hi⟩).consumer = .rewind pc .ret :=
        hin.imp_left fun hu => hu.resolve_right fun hex => hex.elim hnot
      rcases consumer_of_rewind hq hinside with hq' | ⟨pc, hq'⟩
      · rw [if_pos hq']
        refine h.moveInput (m := .consumer) (hr _) hq hprod hsusp (by simp)
          (by rw [InputOk, if_pos (Nat.lt_succ_self i)]; exact hq') (fun j hj => ?_)
            ⟨hc, k, hk, hcomp, ?_⟩
        · have hj' : (j : ℕ) ≠ i := fun he => hj (Fin.ext he)
          have hin' := hpoint j
          simp only [InputOk, if_neg hj'] at hin' ⊢
          split_ifs at hin' with hlt
          · rwa [if_pos (by omega)]
          · rw [if_neg (by omega)]
            split_ifs
            · exact .inl hin'
            · exact hin'
        · -- the comparison with the completed result
          simp only [hcomp, hk, hidx, WhenAnyStatus.completed.injEq]
          by_cases hki : k = i
          · rw [if_pos hki, if_pos (by omega), hki]
          · rw [if_neg hki, if_congr (show k < i ↔ k < i + 1 by omega) rfl rfl]
      · rw [if_neg (by rw [hq']; simp)]
        exact hsame (m := .consumer) hq hprod ⟨pc, hq'⟩

theorem inv_awaiterStep (h : Inv s) (hr : ∀ j, Protocol.Reachable (s.inputs j))
    (hs : s.awaiterStep = some t) : Inv t := by
  unfold awaiterStep at hs
  split at hs
  case h_1 hpc => exact inv_checkStep h hr hpc hs
  case h_2 hpc => exact inv_registerStep h hr hpc hs
  case h_3 hpc => cases hs; exact inv_inlineLoadStep h hpc
  case h_4 hpc => cases hs; exact inv_inlineCasStep h hpc
  case h_5 hpc => cases hs; exact inv_finishStep h hpc
  case h_6 => cases hs
  case h_7 hpc => cases hs; exact inv_completedResult h hpc
  case h_8 hpc => exact inv_rewindStep h hr hpc hs
  case h_9 => cases hs

end WhenAny
end Concurrencpp
