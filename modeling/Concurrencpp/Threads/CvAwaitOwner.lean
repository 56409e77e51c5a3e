import Concurrencpp.Threads.CvAwaitPlaces

/-!
# A wait ends with the lock, or without it and without a trace

The calls of `await` in every run, from the creation of the coroutine to what its caller gets.

* `CallOk`: a call in each of its phases; `Lent`: the wrappers that are lent.
* `Ok`: the invariant of the calls.  `Ok.systemStep` is a step of the condition variable or the
  lock, the others are the steps of a call.
* `await_returns_owning`: how a call of either overload can end.
-/

namespace Concurrencpp

open AsyncLock (SameWrapper)
open Function (update update_eq_self update_self update_of_ne)
open Slist (Spells)

/-- The call of `await` of the task `n`, which is at `pc`; `ts` are the evaluations of its
predicate. -/
inductive CallOk (l : AsyncLock) (n : ℕ) (pc : CvPc) (ts : List PredicateTest) : AwaitCall → Prop
  | none : CallOk l n pc ts .none
  | created {o : AwaitOverload} {w : ℕ} (ho : l.Owns w) : CallOk l n pc ts (.created o w)
  | testing {w : ℕ} (ho : l.Owns w) : CallOk l n pc ts (.testing w)
  | waiting {o : AwaitOverload} {w : ℕ} (hp : AwaitPlace l n w pc) : CallOk l n pc ts (.waiting o w)
  | returned {o : AwaitOverload} {w : ℕ} (ho : l.Owns w)
      (ht : o = .predicate → ts.getLast? = some ⟨true, true⟩) : CallOk l n pc ts (.returned o w)
  | threw {w : ℕ} (ho : l.Owns w) : CallOk l n pc ts (.threw .predicate w .predicate)
  | failed {o : AwaitOverload} {w : ℕ} {e : AwaitError} (hr : l.Released w) (hl : l.pcs n = .idle)
      (hpc : pc = .outside) (he : e = .cv .brokenTask ∨ e = .lock .brokenTask) :
      CallOk l n pc ts (.threw o w e)

namespace CvAwaits

variable {s s' : CvAwaits} {mv : CvMove} {k n w : ℕ}

/-! ### The wrappers that are lent -/

/-- The wrappers of the calls are lent to them, and no others are lent. -/
def Lent (calls : ℕ → AwaitCall) (lender : ℕ → Option ℕ) : Prop :=
  Placement.Paired AwaitCall.wrapper calls lender

/-! ### The invariant -/

/-- The calls of `await`. -/
structure Ok (s : CvAwaits) : Prop where
  system : s.system.Reachable
  lent : Lent s.calls s.lender
  inside : ∀ n w, (s.system.pcs n).awaits = some w → (s.calls n).awaits = some w
  call : ∀ n, CallOk s.lock n (s.system.pcs n) (s.tests n) (s.calls n)

theorem AwaitCall.wrapper_of_awaits {c : AwaitCall} (h : c.awaits = some w) :
    c.wrapper = some w := by
  cases c <;> cases h
  rfl

/-- A step that changes the call of one task and its program point in the condition variable. -/
theorem Ok.of_task (h : s.Ok) (n : ℕ) (hr : s'.system.Reachable) (hl : s'.lock = s.lock)
    (hlent : Lent s'.calls s'.lender) (hpcs : ∀ k, k ≠ n → s'.system.pcs k = s.system.pcs k)
    (hts : ∀ k, k ≠ n → s'.tests k = s.tests k) (hcalls : ∀ k, k ≠ n → s'.calls k = s.calls k)
    (hin : ∀ w, (s'.system.pcs n).awaits = some w → (s'.calls n).awaits = some w)
    (hc : CallOk s'.lock n (s'.system.pcs n) (s'.tests n) (s'.calls n)) : s'.Ok where
  system := hr
  lent := hlent
  inside k v := by
    by_cases hk : k = n
    · rw [hk]
      exact hin v
    · rw [hpcs k hk, hcalls k hk]
      exact h.inside k v
  call k := by
    by_cases hk : k = n
    · rw [hk]
      exact hc
    · rw [hl, hpcs k hk, hts k hk, hcalls k hk]
      exact h.call k

/-- A task whose call is not inside `await_impl` is not there. -/
theorem Ok.awaits_eq_none (h : s.Ok) (hn : (s.calls n).awaits = none) :
    (s.system.pcs n).awaits = none := by
  cases hv : (s.system.pcs n).awaits with
  | none => rfl
  | some v => cases hn.symm.trans (h.inside n v hv)

/-! ### Steps of the system -/

variable {sys : CvSystem}

theorem afterStep_of_awaits (h : (s.calls n).awaits = none) : s.afterStep sys n = s.calls n := by
  unfold afterStep
  cases hc : s.calls n with
  | waiting =>
    rw [hc] at h
    cases h
  | _ => rfl

variable {o : AwaitOverload}

theorem wrapper_completion : (completion sys n o w).wrapper = some w := by
  unfold completion
  cases sys.pcs n with
  | threw => rfl
  | _ => cases sys.lock.pcs n <;> cases o <;> rfl

theorem wrapper_afterStep : (s.afterStep sys n).wrapper = (s.calls n).wrapper := by
  unfold afterStep
  cases s.calls n with
  | waiting =>
    simp only
    split_ifs
    · exact wrapper_completion
    · rfl
  | _ => rfl

/-- What a step of the system does to the calls. -/
structure SystemStep (s s' : CvAwaits) (mv : CvMove) : Prop where
  may : s.mayStep mv = true
  step : s.system.step mv = some s'.system
  lender : s'.lender = s.lender
  tests : s'.tests = s.tests
  top : ∀ n, (s.system.frames mv.thread).head? = some n → s'.calls n = s.afterStep s'.system n
  others : ∀ n, (s.system.frames mv.thread).head? ≠ some n → s'.calls n = s.calls n

theorem systemStep_eq_some (hs : s.systemStep mv = some s') : SystemStep s s' mv := by
  unfold systemStep at hs
  split_ifs at hs with hmay
  obtain ⟨sys, hsys, rfl⟩ := Option.map_eq_some_iff.1 hs
  cases hhead : (s.system.frames mv.thread).head? with
  | none =>
    refine ⟨hmay, hsys, rfl, rfl, fun n hn => ?_, fun n _ => rfl⟩
    cases hhead.symm.trans hn
  | some m =>
    refine ⟨hmay, hsys, rfl, rfl, fun n hn => ?_, fun n hn => ?_⟩
    · cases hhead.symm.trans hn
      exact update_self ..
    · have hnm : n ≠ m := by
        rintro rfl
        exact hn hhead
      exact update_of_ne hnm ..

theorem SystemStep.calls_of_awaits (h : SystemStep s s' mv) (hn : (s.calls n).awaits = none) :
    s'.calls n = s.calls n := by
  by_cases hhead : (s.system.frames mv.thread).head? = some n
  · rw [h.top n hhead, afterStep_of_awaits hn]
  · exact h.others n hhead

/-- A task that is still inside `await_impl` behind the step. -/
theorem SystemStep.calls_of_place (h : SystemStep s s' mv) (hn : s.calls n = .waiting o w)
    (hp : AwaitPlace s'.lock n w (s'.system.pcs n)) : s'.calls n = .waiting o w := by
  by_cases hhead : (s.system.frames mv.thread).head? = some n
  · rw [h.top n hhead, afterStep, hn]
    exact if_neg (CvSystem.not_userCode_of_place hp)
  · exact (h.others n hhead).trans hn

theorem SystemStep.lent (h : SystemStep s s' mv) (hl : Lent s.calls s.lender) :
    Lent s'.calls s'.lender := by
  intro n w
  have hw : (s'.calls n).wrapper = (s.calls n).wrapper := by
    by_cases hhead : (s.system.frames mv.thread).head? = some n
    · rw [h.top n hhead, wrapper_afterStep]
    · rw [h.others n hhead]
  rw [hw, h.lender]
  exact hl n w

/-- The wrapper of a call is left alone, but by the call itself inside `await_impl`. -/
theorem Ok.sameWrapper (h : s.Ok) (hs : SystemStep s s' mv) (hk : (s.calls k).wrapper = some w)
    (hn : (s.calls k).awaits = none ∨ mv.actor s.system ≠ some k) :
    SameWrapper w s.lock s'.lock := by
  have hlender : s.lender w = some k := (h.lent k w).1 hk
  -- who is inside `await_impl` on the wrapper has it, so it is the call itself
  have hawaits : ∀ n, mv.actor s.system = some n → (s.calls n).awaits ≠ some w := by
    intro n hact hw
    have hnk : n = k :=
      Option.some.inj (((h.lent n w).1 (AwaitCall.wrapper_of_awaits hw)).symm.trans hlender)
    rw [hnk] at hw hact
    rcases hn with hn | hn
    · cases hn.symm.trans hw
    · exact hn hact
  refine (CvSystem.taken_of_step hs.step).sameWrapper ?_ fun n hact hw => hawaits n hact
    (h.inside n w hw)
  rintro t a n rfl hact
  have hhead : (s.system.frames t).head? = some n := hact
  have hmay := hs.may
  simp only [mayStep, hhead, Option.all_some, Bool.and_eq_true, mayTouch] at hmay
  obtain ⟨⟨ha, hwrites⟩, -⟩ := hmay
  refine ⟨fun hmem => ?_, fun hw => ?_⟩
  · have hnone := of_decide_eq_true (List.all_eq_true.1 ha w hmem)
    cases hlender.symm.trans hnone
  · have hw : (s.lock.pcs n).writes = some w := hw
    rw [hw, Option.all_some, Bool.or_eq_true] at hwrites
    rcases hwrites with hnone | hw
    · cases hlender.symm.trans (of_decide_eq_true hnone)
    · exact hawaits n hact (of_decide_eq_true hw)

/-- Steps of the system do not begin an `await`. -/
theorem SystemStep.awaits (h : SystemStep s s' mv) (hk : (s.system.pcs k).awaits = none) :
    (s'.system.pcs k).awaits = none := by
  by_cases hcall : ∀ t c, mv ≠ .call t c
  · exact (CvSystem.taken_of_step h.step).awaits hcall hk
  · push Not at hcall
    obtain ⟨t, c, rfl⟩ := hcall
    obtain ⟨n, rest, hf, hs⟩ := CvSystem.ofTop_eq_some h.step
    have hhead : (s.system.frames t).head? = some n := congrArg List.head? hf
    have hmay := h.may
    simp only [mayStep, hhead, Option.all_some, Bool.and_eq_true] at hmay
    split_ifs at hs
    have hpcs : ∃ pc : CvPc, pc.awaits = none ∧ s'.system.pcs = update s.system.pcs n pc := by
      rcases of_decide_eq_true hmay.2 with rfl | rfl
      · exact ⟨.enterNotifyOne, rfl, by rw [← Option.some.inj hs]; rfl⟩
      · exact ⟨.enterNotifyAll, rfl, by rw [← Option.some.inj hs]; rfl⟩
    obtain ⟨pc, hpc, hpcs⟩ := hpcs
    rw [hpcs]
    by_cases hkn : k = n
    · rw [hkn, update_self]
      exact hpc
    · rw [update_of_ne hkn]
      exact hk

/-- A task whose call is over stays in user code. -/
theorem SystemStep.userCode (h : SystemStep s s' mv) (hc : (s.calls k).completed = true)
    (hk : s.system.UserCode k) : s'.system.UserCode k := by
  refine (CvSystem.taken_of_step h.step).userCode hk ?_ ?_
  · rintro t a rfl hact
    have hhead : (s.system.frames t).head? = some k := hact
    have hmay := h.may
    simp [mayStep, hhead, hc] at hmay
  · rintro t c rfl hact
    have hhead : (s.system.frames t).head? = some k := hact
    have hmay := h.may
    simp [mayStep, hhead, hc] at hmay

/-- The call of a task behind a step of the system. -/
def TaskOk (s : CvAwaits) (n : ℕ) : Prop :=
  (∀ w, (s.system.pcs n).awaits = some w → (s.calls n).awaits = some w) ∧
    CallOk s.lock n (s.system.pcs n) (s.tests n) (s.calls n)

/-- A call that is not inside `await_impl`. -/
theorem Ok.taskOk_outside (h : s.Ok) (hs : SystemStep s s' mv) (hn : (s.calls n).awaits = none) :
    s'.TaskOk n := by
  have hpc := hs.awaits (h.awaits_eq_none hn)
  have hcall := h.call n
  have hsame : ∀ w, (s.calls n).wrapper = some w → SameWrapper w s.lock s'.lock :=
    fun w hw => h.sameWrapper hs hw (.inl hn)
  refine ⟨fun w hw => (by cases hpc.symm.trans hw), ?_⟩
  rw [hs.calls_of_awaits hn, hs.tests]
  generalize hc : s.calls n = c at hcall hn hsame
  cases hcall with
  | none => exact .none
  | created ho => exact .created ((hsame _ rfl).owns ho)
  | testing ho => exact .testing ((hsame _ rfl).owns ho)
  | waiting => cases hn
  | returned ho ht => exact .returned ((hsame _ rfl).owns ho) ht
  | threw ho => exact .threw ((hsame _ rfl).owns ho)
  | failed hr hl hpc he =>
    obtain ⟨hl', hpc'⟩ := hs.userCode (by rw [hc]; rfl) ⟨hl, hpc⟩
    exact .failed ((hsame _ rfl).released hr) hl' hpc' he

/-- A call that goes on inside `await_impl`. -/
theorem SystemStep.taskOk_place (hs : SystemStep s s' mv) (hn : s.calls n = .waiting o w)
    (hp : AwaitPlace s'.lock n w (s'.system.pcs n)) : s'.TaskOk n := by
  unfold TaskOk
  rw [hs.calls_of_place hn hp]
  exact ⟨fun v hv => congrArg some (hp.awaits hv).symm, .waiting hp⟩

/-- A call that comes out of `await_impl`. -/
theorem SystemStep.taskOk_ended (hs : SystemStep s s' mv) (hn : s.calls n = .waiting o w)
    (hhead : (s.system.frames mv.thread).head? = some n)
    (he : CvSystem.Ended s.system s'.system n w) : s'.TaskOk n := by
  obtain ⟨hl, hpc⟩ := he.userCode
  have hcalls : s'.calls n = completion s.system n o w := by
    rw [hs.top n hhead, afterStep, hn]
    exact if_pos he.userCode
  have hawaits : (s'.system.pcs n).awaits = none := by rw [hpc]; rfl
  refine ⟨fun v hv => (by cases hawaits.symm.trans hv), ?_⟩
  rw [hcalls]
  obtain ⟨hpc₀, hl₀, ho⟩ | ⟨hr, hpc₀ | ⟨hpc₀, hl₀⟩⟩ := he.outcome
  · cases o with
    | plain =>
      have hc : completion s.system n .plain w = .returned .plain w := by
        simp only [completion, hpc₀, hl₀]
      rw [hc]
      exact .returned ho fun ho => by cases ho
    | predicate =>
      have hc : completion s.system n .predicate w = .testing w := by
        simp only [completion, hpc₀, hl₀]
      rw [hc]
      exact .testing ho
  · have hc : completion s.system n o w = .threw o w (.cv .brokenTask) := by
      simp only [completion, hpc₀]
    rw [hc]
    exact .failed hr hl hpc (.inl rfl)
  · have hc : completion s.system n o w = .threw o w (.lock .brokenTask) := by
      simp only [completion, hpc₀, hl₀]
    rw [hc]
    exact .failed hr hl hpc (.inr rfl)

theorem Ok.place (h : s.Ok) (hn : s.calls n = .waiting o w) :
    AwaitPlace s.lock n w (s.system.pcs n) := by
  have hcall := h.call n
  rw [hn] at hcall
  cases hcall with
  | waiting hp => exact hp

theorem Ok.taskOk (h : s.Ok) (hs : SystemStep s s' mv) : s'.TaskOk n := by
  by_cases hn : ∃ o w, s.calls n = .waiting o w
  · obtain ⟨o, w, hn⟩ := hn
    have hp := h.place hn
    have htaken := CvSystem.taken_of_step hs.step
    by_cases hact : mv.actor s.system = some n
    · have hstep := htaken.placeStep (CvSystem.lock_reachable h.system) hact hp
      rcases hstep.place with hp' | ⟨hhead, he⟩
      · exact hs.taskOk_place hn hp'
      · exact hs.taskOk_ended hn hhead he
    · have hapart := htaken.apart hact
      have hw := h.sameWrapper hs (w := w) (by rw [hn]; rfl) (.inr hact)
      exact hs.taskOk_place hn (hp.apart hapart.pcs hapart.lock hw)
  · refine h.taskOk_outside hs ?_
    cases hc : s.calls n with
    | waiting o w => exact absurd ⟨o, w, hc⟩ hn
    | _ => rfl

theorem Ok.systemStep (h : s.Ok) (hs : SystemStep s s' mv) : s'.Ok where
  system := h.system.next trivial hs.step
  lent := hs.lent h.lent
  inside _ := (h.taskOk hs).1
  call _ := (h.taskOk hs).2

/-! ### Steps of a call -/

/-- A call of the condition variable by the innermost task of a thread. -/
theorem call_eq_some {sys sys' : CvSystem} {t : ℕ} {c : CvCall} (hn : (sys.frames t).head? = some n)
    (hs : sys.step (.call t c) = some sys') : sys.UserCode n ∧ sys.call n c = some sys' := by
  obtain ⟨m, rest, hf, hs⟩ := CvSystem.ofTop_eq_some hs
  cases (congrArg List.head? hf).symm.trans hn
  split_ifs at hs with hu
  exact ⟨hu, hs⟩

/-- `verify_await_params` accepts a wrapper that owns the lock. -/
theorem owns_of_verify {executor : Bool} {l : AsyncLock} {x : ScopedLock}
    (hx : l.wrapper w = some x) (hlock : x.lock = true)
    (hv : CvSystem.verifyAwaitParams executor x = .outside) : l.Owns w := by
  obtain ⟨hw, hr⟩ := AsyncLock.wrapper_eq_some.1 hx
  obtain ⟨lock, owns⟩ := x
  cases hlock
  cases owns with
  | true => exact ⟨hw, hr⟩
  | false => cases executor <;> cases hv

theorem verifyAwaitParams_awaits {executor : Bool} {x : ScopedLock} :
    (CvSystem.verifyAwaitParams executor x).awaits = none := by
  unfold CvSystem.verifyAwaitParams
  split_ifs <;> rfl

theorem Ok.create {t : ℕ} {executor : Bool} (h : s.Ok) (hn : (s.system.frames t).head? = some n)
    (hs : s.create t n w o executor = some s') : s'.Ok := by
  unfold CvAwaits.create at hs
  split_ifs at hs with hc
  obtain ⟨hnone, hlender, hlock⟩ := hc
  obtain ⟨sys, hsys, rfl⟩ := Option.map_eq_some_iff.1 hs
  obtain ⟨hu, hcall⟩ := call_eq_some hn hsys
  obtain ⟨x, hx, rfl⟩ := Option.map_eq_some_iff.1 hcall
  have hreach := h.system.next trivial hsys
  have hself : (s.system.setPc n (CvSystem.verifyAwaitParams executor x)).pcs n =
      CvSystem.verifyAwaitParams executor x := update_self ..
  have hawaits := (congrArg CvPc.awaits hself).trans verifyAwaitParams_awaits
  have hne : ∀ {k}, k ≠ n → (s.system.setPc n (CvSystem.verifyAwaitParams executor x)).pcs k =
      s.system.pcs k := fun hk => update_of_ne hk ..
  split_ifs with hpc
  · have hxlock : x.lock = true := by
      rw [show s.lock.wrapper w = some x from hx] at hlock
      exact hlock
    have howns : s.lock.Owns w := owns_of_verify hx hxlock (hself.symm.trans hpc)
    refine h.of_task n hreach rfl ?_ (fun k hk => hne hk) (fun k hk => update_of_ne hk ..)
      (fun k hk => update_of_ne hk ..) (fun v hv => ?_) ?_
    · exact h.lent.start (by rw [hnone]; rfl) hlender rfl
    · cases hawaits.symm.trans hv
    · rw [show CvAwaits.calls _ n = _ from update_self ..]
      exact .created howns
  · refine h.of_task n hreach rfl h.lent (fun k hk => hne hk) (fun k hk => rfl) (fun k hk => rfl)
      (fun v hv => ?_) ?_
    · cases hawaits.symm.trans hv
    · rw [show CvAwaits.calls _ n = _ from hnone]
      exact .none

/-- The call of a task is over, and nothing else changes. -/
theorem Ok.giveBack (h : s.Ok) (hn : (s.calls n).awaits = none) (hs : s.giveBack n = some s') :
    s'.Ok := by
  obtain ⟨w, hw, rfl⟩ := Option.map_eq_some_iff.1 hs
  refine h.of_task n h.system rfl (h.lent.finish hw rfl) (fun k hk => rfl) (fun k hk => rfl)
    (fun k hk => update_of_ne hk ..) (fun v hv => ?_) ?_
  · cases (h.awaits_eq_none hn).symm.trans hv
  · rw [show CvAwaits.calls _ n = _ from update_self ..]
    exact .none

theorem Ok.drop (h : s.Ok) (hs : s.drop n = some s') : s'.Ok := by
  unfold CvAwaits.drop at hs
  split at hs
  next o w hn => exact h.giveBack (by rw [hn]; rfl) hs
  · cases hs

theorem Ok.finish (h : s.Ok) (hs : s.finish n = some s') : s'.Ok := by
  unfold CvAwaits.finish at hs
  split_ifs at hs with hc
  refine h.giveBack ?_ hs
  cases hn : s.calls n with
  | waiting =>
    rw [hn] at hc
    cases hc
  | _ => rfl

/-- `await_impl` begins with the lock; `ts` are the evaluations of the predicate so far. -/
theorem Ok.coAwait {t : ℕ} {ts : List PredicateTest} (h : s.Ok)
    (hn : (s.system.frames t).head? = some n) (hw : (s.calls n).wrapper = some w)
    (ho : s.lock.Owns w) (hs : { s with tests := update s.tests n ts }.coAwait t n w o = some s') :
    s'.Ok := by
  obtain ⟨sys, hsys, rfl⟩ := Option.map_eq_some_iff.1 hs
  obtain ⟨hu, hcall⟩ := call_eq_some hn hsys
  cases hcall
  refine h.of_task n (h.system.next trivial hsys) rfl (h.lent.goto hw.symm)
    (fun k hk => update_of_ne hk ..) (fun k hk => update_of_ne hk ..)
    (fun k hk => update_of_ne hk ..) (fun v hv => ?_) ?_
  · rw [show CvSystem.pcs _ n = _ from update_self ..] at hv
    cases hv
    rw [show CvAwaits.calls _ n = _ from update_self ..]
    rfl
  · rw [show CvAwaits.calls _ n = _ from update_self ..,
      show CvSystem.pcs _ n = _ from update_self ..]
    exact .waiting (.enterAwait hu.1 ho)

/-- The call of a task in user code goes on there, with the same wrapper. -/
theorem Ok.setCall {ts : List PredicateTest} {c : AwaitCall} (h : s.Ok)
    (hn : (s.calls n).awaits = none) (hw : c.wrapper = (s.calls n).wrapper)
    (hc : CallOk s.lock n (s.system.pcs n) ts c) :
    ({ s with tests := update s.tests n ts }.setCall n c).Ok := by
  refine h.of_task n h.system rfl (h.lent.goto hw) (fun k hk => rfl)
    (fun k hk => update_of_ne hk ..) (fun k hk => update_of_ne hk ..) (fun v hv => ?_) ?_
  · cases (h.awaits_eq_none hn).symm.trans hv
  · rw [show CvAwaits.calls _ n = _ from update_self ..,
      show CvAwaits.tests _ n = _ from update_self ..]
    exact hc

theorem Ok.owns_of_created (h : s.Ok) (hn : s.calls n = .created o w) : s.lock.Owns w := by
  have hcall := h.call n
  rw [hn] at hcall
  cases hcall with
  | created ho => exact ho

theorem Ok.owns_of_testing (h : s.Ok) (hn : s.calls n = .testing w) : s.lock.Owns w := by
  have hcall := h.call n
  rw [hn] at hcall
  cases hcall with
  | testing ho => exact ho

theorem update_tests_self : { s with tests := update s.tests n (s.tests n) } = s := by
  rw [update_eq_self]

theorem Ok.start {t : ℕ} (h : s.Ok) (hhead : (s.system.frames t).head? = some n)
    (hs : s.start t n = some s') : s'.Ok := by
  unfold CvAwaits.start at hs
  split at hs
  next w hn =>
    rw [← update_tests_self (s := s) (n := n)] at hs
    exact h.coAwait hhead (by rw [hn]; rfl) (h.owns_of_created hn) hs
  next w hn =>
    split_ifs at hs
    cases hs
    rw [← update_tests_self (s := s) (n := n)]
    exact h.setCall (by rw [hn]; rfl) (by rw [hn]; rfl) (.testing (h.owns_of_created hn))
  · cases hs

theorem Ok.test {t : ℕ} {result : Option Bool} (h : s.Ok)
    (hhead : (s.system.frames t).head? = some n) (hs : s.test t n result = some s') : s'.Ok := by
  unfold CvAwaits.test at hs
  split at hs
  next w hn =>
    have hawaits : (s.calls n).awaits = none := by rw [hn]; rfl
    have hwrapper : (s.calls n).wrapper = some w := by rw [hn]; rfl
    have howns := h.owns_of_testing hn
    split_ifs at hs with hu
    cases result with
    | none =>
      cases hs
      rw [← update_tests_self (s := s) (n := n)]
      exact h.setCall hawaits hwrapper.symm (.threw howns)
    | some b =>
      cases b with
      | true =>
        cases hs
        refine h.setCall hawaits hwrapper.symm (.returned howns fun _ => ?_)
        -- the wrapper owns the lock while the predicate is evaluated
        have howned : s.owns w = true := by
          refine decide_eq_true ?_
          unfold AsyncLock.wrapper
          rw [howns.2]
          exact howns.1
        rw [List.getLast?_concat, howned]
      | false => exact h.coAwait hhead hwrapper howns hs
  · cases hs

theorem Ok.step {mv : AwaitMove} (h : s.Ok) (hs : s.step mv = some s') : s'.Ok := by
  cases mv with
  | system => exact h.systemStep (systemStep_eq_some hs)
  | create =>
    obtain ⟨n, hn, hs⟩ := Option.bind_eq_some_iff.1 hs
    exact h.create hn hs
  | drop =>
    obtain ⟨n, -, hs⟩ := Option.bind_eq_some_iff.1 hs
    exact h.drop hs
  | start =>
    obtain ⟨n, hn, hs⟩ := Option.bind_eq_some_iff.1 hs
    exact h.start hn hs
  | test =>
    obtain ⟨n, hn, hs⟩ := Option.bind_eq_some_iff.1 hs
    exact h.test hn hs
  | finish =>
    obtain ⟨n, -, hs⟩ := Option.bind_eq_some_iff.1 hs
    exact h.finish hs

theorem ok_initial : initial.Ok where
  system := .start rfl
  lent _ _ := iff_of_false (fun h => by cases h) (fun h => by cases h)
  inside _ _ h := by cases h
  call _ := .none

theorem ok_of_reachable (h : Reachable s) : s.Ok := by
  induction h with
  | start hs =>
    cases hs
    exact ok_initial
  | next _ _ hs ih => exact ih.step hs

/-! ### How a call ends -/

/-- How the call of `await` of the task can have ended, while its caller does not know yet. -/
structure Outcome (s : CvAwaits) (n : ℕ) : Prop where
  returned : ∀ o w, s.calls n = .returned o w →
    s.lock.Outstanding (.wrapper w) ∧ s.lock.locked = true ∧
    (o = .predicate → (s.tests n).getLast? = some ⟨true, true⟩)
  failed : ∀ o w e, s.calls n = .threw o w e → e ≠ .predicate →
    s.lock.wrapper w = some ⟨true, false⟩ ∧
    (∀ g, s.lock.Outstanding g → g ≠ .wrapper w ∧ g ≠ .call n) ∧
    ∀ xs, Spells s.system.next s.system.awaiters xs → n ∉ xs
  threw : ∀ o w, s.calls n = .threw o w .predicate → s.lock.Outstanding (.wrapper w)

/-- A task that is queued in the condition variable waits there. -/
theorem not_queued (hr : sys.Reachable) (hn : sys.pcs n = .outside) {xs : List ℕ}
    (hxs : Spells sys.next sys.awaiters xs) : n ∉ xs := by
  intro hmem
  obtain ⟨ys, hq⟩ := CvSystem.queueOk_of_reachable hr
  have hx : xs = sys.queue := LinkedChain.Chain.unique hxs.chain hq.awaiters.spells.chain
  have hwaiting := (hq.awaiters.waiting n).2 (.inl (hx ▸ hmem))
  rw [hn] at hwaiting
  cases hwaiting

/-- **Waiting on a condition variable returns holding the lock, or not at all.**  A call of `await`
that has returned has a scoped lock that owns the lock, and its predicate, if it has one, was true
at its last evaluation, made with the lock.  One that a failed resume executor has ended has a
scoped lock that does not own the lock, no grant of the lock is its own, and its awaiter is not
queued; one whose predicate has thrown still has the lock.  Nor does a step of the wait put the lock
into a place outside the wrappers.

Nobody but the wait touches its scoped lock meanwhile, not even its predicate: `mayTouch` leaves out
a predicate that unlocks or moves it. -/
theorem await_returns_owning (s : CvAwaits) (h : Reachable s) (n : ℕ) :
    s.Outcome n ∧ ∀ mv s', s.step (.system mv) = some s' → mv.actor s.system = some n →
      (s.calls n).awaits ≠ none → s'.lock.raw = s.lock.raw := by
  have hok := ok_of_reachable h
  have hcall := hok.call n
  refine ⟨⟨fun o w hn => ?_, fun o w e hn he => ?_, fun o w hn => ?_⟩, fun mv s' hs hact hn => ?_⟩
  · rw [hn] at hcall
    cases hcall with
    | returned ho ht =>
      obtain ⟨g, hg⟩ := AsyncLock.ownedBy_of_reachable (CvSystem.lock_reachable hok.system)
      exact ⟨ho, hg.locked_of (g := .wrapper w) ho, ht⟩
  · rw [hn] at hcall
    cases hcall with
    | threw => exact absurd rfl he
    | failed hr hl hpc =>
      refine ⟨?_, fun g hg => ⟨?_, ?_⟩, fun xs hxs => not_queued hok.system hpc hxs⟩
      · unfold AsyncLock.wrapper
        rw [hr.2]
        exact hr.1
      · rintro rfl
        cases hr.1.symm.trans hg.1
      · rintro rfl
        have hholds : (s.lock.pcs n).holds = true := hg
        rw [hl] at hholds
        cases hholds
  · rw [hn] at hcall
    cases hcall with
    | threw ho => exact ho
    | failed _ _ _ he => rcases he with he | he <;> cases he
  · have hstep := systemStep_eq_some hs
    cases hc : s.calls n with
    | waiting o w =>
      have htaken := CvSystem.taken_of_step hstep.step
      exact (htaken.placeStep (CvSystem.lock_reachable hok.system) hact (hok.place hc)).raw
    | _ =>
      rw [hc] at hn
      exact absurd rfl hn

/-- A thread runs its innermost task through `await_suspend`. -/
def awaitSuspend (t : ℕ) : List AwaitMove :=
  ([.step t, .step t, .lock t .advance, .lock t .advance, .lock t .advance, .lock t .advance,
    .step t] : List CvMove).map .system

/-- One task waits for its predicate and another one for a notification.  A `notify_all` resumes
both: the first one locks again and finds its predicate true, the executor of the second one
throws. -/
theorem await_returns_owning_of_notify_all :
    ∃ s : CvAwaits, s.calls 0 = .returned .predicate 0 ∧
      s.calls 1 = .threw .plain 1 (.cv .brokenTask) ∧ s.Outcome 0 ∧ s.Outcome 1 := by
  let schedule := (CvSystem.lockGuard 0 0 0).map .system ++
    [.create 0 0 .predicate true, .start 0, .test 0 (some false)] ++ awaitSuspend 0 ++
    (CvSystem.lockGuard 0 1 1).map .system ++
    [.create 0 1 .plain true, .start 0] ++ awaitSuspend 0 ++
    ([.enter 1 2, .call 1 .notifyAll, .step 1, .step 1, .step 1, .inline 1, .step 1] ++
      List.replicate 3 (.lock 1 .advance) : List CvMove).map .system ++ [.test 1 (some true)] ++
    ([.leave 1, .step 1, .throw 1, .step 1] : List CvMove).map .system
  have h : Reachable _ := .lastState (by rfl) schedule
  exact ⟨_, by decide +kernel, by decide +kernel, (await_returns_owning _ h 0).1,
    (await_returns_owning _ h 1).1⟩

end CvAwaits

end Concurrencpp
