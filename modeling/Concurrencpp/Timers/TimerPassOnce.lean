import Concurrencpp.Timers.TimerPassContainers

/-!
# A pass ends, and fires each timer at most once

The loop of `process_timers` takes timers out of the set that it puts them back into.  It ends
because a timer that goes back has a deadline behind the time of the pass.

* `Timely`: the clock does not go back; `Advances`: a regular timer that is fired is next due behind
  the time of the pass.
* `Once`: what a pass has fired is not due again in it.
* `stepsLeft`: a bound on the steps of the worker to the end of the pass.
* `pass_fires_once`: the pass, for steps that advance; `pass_never_ends` is one with a negative
  frequency.
-/

namespace Concurrencpp

open Interleaving

/-! ### Time -/

/-- Arithmetic that stays in range does not wrap around. -/
theorem wrap_eq {x : ℤ} (hlo : -2 ^ 63 ≤ x) (hhi : x < 2 ^ 63) : wrap x = x := by
  unfold wrap
  rw [Int.bmod_eq_of_le]
  · omega
  · omega

theorem addMilliseconds_eq {t ms : ℤ} (hlo : -2 ^ 63 ≤ t + ms * 10 ^ 6)
    (hhi : t + ms * 10 ^ 6 < 2 ^ 63) : addMilliseconds t ms = t + ms * 10 ^ 6 := by
  have hwrap : addMilliseconds t ms = wrap (t + ms * 10 ^ 6) := by
    unfold addMilliseconds wrap
    rw [Int.add_bmod_bmod]
  rw [hwrap, wrap_eq hlo hhi]

/-- The time of the pass that the worker is in. -/
def PassPc.time : PassPc → Option ℤ
  | .loop now | .extracted now _ _ | .fire now _ _ | .fired now _ _ _ | .finish now => some now
  | _ => none

/-- The worker has not returned from `process_timers`. -/
def PassPc.inPass : PassPc → Bool
  | .returned _ => false
  | _ => true

/-- The worker takes the step. -/
def PassMove.isWork : PassMove → Bool
  | .work _ => true
  | _ => false

/-- The step begins a pass. -/
def PassMove.isBegins : PassMove → Bool
  | .begins _ => true
  | _ => false

namespace TimerPasses

variable {s s' : TimerPasses} {now reading : ℤ} {node x : ℕ}

/-- The requests are well formed, and the clock does not go back. -/
def Timely (s : TimerPasses) : PassMove → Prop
  | .work reading => s.clock ≤ reading
  | mv => s.WellFormed mv

instance (s : TimerPasses) : (mv : PassMove) → Decidable (s.Timely mv)
  | .work reading => inferInstanceAs (Decidable (s.clock ≤ reading))
  | .begins rs => inferInstanceAs (Decidable (s.WellFormed (.begins rs)))
  | .makeTimer .. | .makeOneShotTimer .. | .cancel _ | .setFrequency .. => .isTrue trivial

/-- The timer that is fired is a one-shot timer, or its next deadline is behind the time of the
pass; by `Once.advances` a positive frequency is enough. -/
def Advances (s : TimerPasses) : PassMove → Prop
  | .work reading =>
      match s.pc with
      | .fire now _ x => (s.timers x).isOneshot = true ∨ now < ((s.timers x).rearm reading).deadline
      | _ => True
  | _ => True

instance (s : TimerPasses) : (mv : PassMove) → Decidable (s.Advances mv)
  | .work _ => by
      dsimp only [Advances]
      split <;> infer_instance
  | .begins _ | .makeTimer .. | .makeOneShotTimer .. | .cancel _ | .setFrequency .. =>
      .isTrue trivial

/-- The steps under which a pass ends. -/
def Regular (s : TimerPasses) (mv : PassMove) : Prop := s.Timely mv ∧ s.Advances mv

instance (s : TimerPasses) (mv : PassMove) : Decidable (s.Regular mv) :=
  inferInstanceAs (Decidable (_ ∧ _))

theorem Timely.wellFormed {mv : PassMove} (h : s.Timely mv) : s.WellFormed mv := by
  cases mv with
  | work => trivial
  | _ => exact h

/-! ### What has been fired -/

/-- What a pass has fired is not due again in it. -/
structure Once (s : TimerPasses) : Prop where
  clock : -2 ^ 63 ≤ s.clock
  time : ∀ now ∈ s.pc.time, now ≤ s.clock
  once : ∀ x, s.fired x ≤ 1
  start : ∀ rs, s.pc = .requests rs → ∀ x, s.fired x = 0
  due : ∀ now ∈ s.pc.time, ∀ e ∈ s.queue.timers, s.deadlines e.2 ≤ now → s.fired e.2 = 0
  hand : ∀ now node x, s.pc = .extracted now node x ∨ s.pc = .fire now node x → s.fired x = 0
  later : ∀ now node x cancelled, s.pc = .fired now node x cancelled →
    (s.timers x).isOneshot = true ∨ cancelled = true ∨ now < s.deadlines x

theorem once_initial : initial.Once where
  clock := le_rfl
  time now hnow := by cases hnow
  once x := Nat.zero_le _
  start rs heq := by cases heq
  due now hnow := by cases hnow
  hand now node x heq := by rcases heq with heq | heq <;> cases heq
  later now node x cancelled heq := by cases heq

/-- Other threads change no deadline and no kind of a timer that the worker has. -/
theorem Once.of_timers (h : s.Once) (hok : s.Ok) (hq : s'.queue = s.queue) (hpc : s'.pc = s.pc)
    (hf : s'.fired = s.fired) (hclock : s'.clock = s.clock)
    (hd : ∀ x, x < s.created → s'.deadlines x = s.deadlines x)
    (ho : ∀ x, x < s.created → (s'.timers x).isOneshot = (s.timers x).isOneshot) : s'.Once where
  clock := hclock ▸ h.clock
  time := by
    rw [hpc, hclock]
    exact h.time
  once := hf ▸ h.once
  start := by
    rw [hpc, hf]
    exact h.start
  due := by
    rw [hpc, hq, hf]
    intro now hnow e he
    rw [hd e.2 (hok.known e (List.mem_append_right _ he))]
    exact h.due now hnow e he
  hand := by
    rw [hpc, hf]
    exact h.hand
  later := by
    rw [hpc]
    intro now node x cancelled heq
    have hknown : x < s.created :=
      hok.known (node, x) (List.mem_append_left _ (by rw [heq]; exact List.mem_cons_self))
    rw [hd x hknown, ho x hknown]
    exact h.later now node x cancelled heq

theorem Once.check {b : Bool} (h : s.Once) : (s.check b).Once :=
  ⟨h.clock, h.time, h.once, h.start, h.due, h.hand, h.later⟩

variable {q : TimerQueueInternal}

/-- The worker goes on at another point. -/
theorem Once.goto {pc : PassPc} (h : s.Once) (htime : ∀ now ∈ pc.time, now ≤ s.clock)
    (hstart : ∀ rs, pc = .requests rs → ∀ x, s.fired x = 0)
    (hdue : ∀ now ∈ pc.time, ∀ e ∈ q.timers, s.deadlines e.2 ≤ now → s.fired e.2 = 0)
    (hhand : ∀ now node x, pc = .extracted now node x ∨ pc = .fire now node x → s.fired x = 0)
    (hlater : ∀ now node x cancelled, pc = .fired now node x cancelled →
      (s.timers x).isOneshot = true ∨ cancelled = true ∨ now < s.deadlines x) :
    (s.goto pc q).Once :=
  ⟨h.clock, htime, h.once, hstart, hdue, hhand, hlater⟩

/-- The worker processes a request. -/
theorem Once.goto_requests {rs rs' : List (ℕ × TimerRequest)} (h : s.Once)
    (hpc : s.pc = .requests rs) : (s.goto (.requests rs') q).Once := by
  refine h.goto (fun now hnow => ?_) (fun _ _ => h.start rs hpc) (fun now hnow => ?_)
    (fun now node x heq => ?_) fun now node x cancelled heq => ?_
  · cases hnow
  · cases hnow
  · rcases heq with heq | heq <;> cases heq
  · cases heq

/-- The worker goes on inside the pass. -/
theorem Once.goto_time {pc : PassPc} (h : s.Once) (htime : s.pc.time = some now)
    (hpc : pc.time = some now) (hdue : ∀ e ∈ q.timers, s.deadlines e.2 ≤ now → s.fired e.2 = 0)
    (hhand : ∀ now node x, pc = .extracted now node x ∨ pc = .fire now node x → s.fired x = 0)
    (hlater : ∀ now node x cancelled, pc = .fired now node x cancelled →
      (s.timers x).isOneshot = true ∨ cancelled = true ∨ now < s.deadlines x) :
    (s.goto pc q).Once := by
  refine h.goto (fun n hn => ?_) (fun rs heq => ?_) (fun n hn => ?_) hhand hlater
  · cases hpc.symm.trans hn
    exact h.time now htime
  · rw [heq] at hpc
    cases hpc
  · cases hpc.symm.trans hn
    exact hdue

/-- The worker goes on at the head of the loop, or behind it. -/
theorem Once.goto_loop {pc : PassPc} (h : s.Once) (htime : s.pc.time = some now)
    (hpc : pc = .loop now ∨ pc = .finish now)
    (hdue : ∀ e ∈ q.timers, s.deadlines e.2 ≤ now → s.fired e.2 = 0) : (s.goto pc q).Once := by
  refine h.goto_time htime ?_ hdue (fun n node x heq => ?_) fun n node x cancelled heq => ?_
  · rcases hpc with rfl | rfl <;> rfl
  · rcases hpc with rfl | rfl <;> rcases heq with heq | heq <;> cases heq
  · rcases hpc with rfl | rfl <;> cases heq

theorem Once.loop (h : s.Once) (hpc : s.pc = .loop now) : (s.loop now).Once := by
  have htime : s.pc.time = some now := by rw [hpc]; rfl
  have hdue := h.due now htime
  unfold TimerPasses.loop
  split
  · exact h.goto_loop htime (.inr rfl) hdue
  next node x ts hq =>
    have hfirst : (node, x) ∈ s.queue.timers := by rw [hq]; exact List.mem_cons_self
    split_ifs with hexpired
    · have hzero : s.fired x = 0 := hdue (node, x) hfirst (of_decide_eq_true hexpired)
      refine h.goto_time htime rfl (fun e he => hdue e ((List.tail_sublist _).subset he))
        (fun n node' y heq => ?_) fun n node' y cancelled heq => ?_
      · rcases heq with heq | heq <;> cases heq
        exact hzero
      · cases heq
    · exact h.goto_loop htime (.inr rfl) hdue

/-- The cancellation is read. -/
theorem Once.extracted (h : s.Once) (hpc : s.pc = .extracted now node x) :
    (s.goto (if (s.timers x).cancelled then .fired now node x true else .fire now node x)
      s.queue).Once := by
  have htime : s.pc.time = some now := by rw [hpc]; rfl
  split_ifs
  · refine h.goto_time htime rfl (h.due now htime) (fun n node' y heq => ?_)
      fun n node' y cancelled heq => ?_
    · rcases heq with heq | heq <;> cases heq
    · cases heq
      exact .inr (.inl rfl)
  · refine h.goto_time htime rfl (h.due now htime) (fun n node' y heq => ?_)
      fun n node' y cancelled heq => ?_
    · rcases heq with heq | heq <;> cases heq
      exact h.hand now node x (.inl hpc)
    · cases heq

/-- A positive frequency is enough, if the sum of it and the clock is a time point. -/
theorem Once.advances (h : s.Once) (hreading : s.clock ≤ reading)
    (hf : ∀ now node x, s.pc = .fire now node x → 0 < fromSize (s.timers x).frequency ∧
      reading + fromSize (s.timers x).frequency * 10 ^ 6 < 2 ^ 63) :
    s.Advances (.work reading) := by
  dsimp only [Advances]
  split
  next now node x hpc =>
    obtain ⟨hpos, hrange⟩ := hf now node x hpc
    have hnow : now ≤ s.clock := h.time now (by rw [hpc]; rfl)
    have hclock := h.clock
    have hsum : ((s.timers x).rearm reading).deadline =
        reading + fromSize (s.timers x).frequency * 10 ^ 6 := addMilliseconds_eq (by omega) hrange
    exact .inr (by omega)
  · trivial

theorem fire_timers_self : (s.fire reading now node x).timers x = (s.timers x).rearm reading :=
  Function.update_self ..

theorem fire_fired_self : (s.fire reading now node x).fired x = s.fired x + 1 :=
  Function.update_self ..

theorem fire_deadlines_of_ne {y : ℕ} (hy : y ≠ x) :
    (s.fire reading now node x).deadlines y = s.deadlines y :=
  congrArg TimerStateBase.deadline (Function.update_of_ne hy ..)

theorem Once.fire (h : s.Once) (hok : s.Ok) (hpc : s.pc = .fire now node x)
    (hreading : s.clock ≤ reading)
    (hadv : (s.timers x).isOneshot = true ∨ now < ((s.timers x).rearm reading).deadline) :
    (s.fire reading now node x).Once := by
  have htime : s.pc.time = some now := by rw [hpc]; rfl
  have hzero : s.fired x = 0 := h.hand now node x (.inr hpc)
  have hagrees := hok.agrees
  rw [hpc] at hagrees
  constructor
  case clock => exact h.clock.trans hreading
  case time =>
    intro n hn
    cases hn
    exact (h.time now htime).trans hreading
  case once =>
    refine (Function.forall_update_iff s.fired fun _ k => k ≤ 1).2 ⟨?_, fun y _ => h.once y⟩
    rw [hzero]
  case start => exact fun rs heq => by cases heq
  case due =>
    intro n hn e he hle
    cases hn
    have hne : e.2 ≠ x := fun hex => hagrees.not_mem_timers (hex ▸ List.mem_map_of_mem he)
    rw [fire_deadlines_of_ne hne] at hle
    exact (Function.update_of_ne hne ..).trans (h.due now htime e he hle)
  case hand => exact fun n node' y heq => by rcases heq with heq | heq <;> cases heq
  case later =>
    intro n node' y cancelled heq
    cases heq
    rw [deadlines, fire_timers_self]
    exact hadv.imp_right .inr

/-- A timer that goes back into the multiset is due behind the time of the pass. -/
theorem Once.lt_deadlines {cancelled : Bool} (h : s.Once) (hpc : s.pc = .fired now node x cancelled)
    (hdies : ¬((s.timers x).isOneshot || cancelled) = true) : now < s.deadlines x := by
  rw [Bool.or_eq_true, not_or] at hdies
  rcases h.later now node x cancelled hpc with hone | hc | hlt
  · exact absurd hone hdies.1
  · exact absurd hc hdies.2
  · exact hlt

theorem Once.afterFire {cancelled : Bool} (h : s.Once) (hpc : s.pc = .fired now node x cancelled) :
    (s.afterFire now node x cancelled).Once := by
  have htime : s.pc.time = some now := by rw [hpc]; rfl
  unfold TimerPasses.afterFire
  split_ifs with hdies
  · exact h.goto_loop htime (.inl rfl) (h.due now htime)
  · refine h.check.goto_loop htime (.inl rfl) fun e he hle => ?_
    have hmem := (TimerQueueInternal.perm_insert s.deadlines (node, x) s.queue.timers).mem_iff.1 he
    rcases List.mem_cons.1 hmem with rfl | he
    · exact absurd hle (not_le.2 (h.lt_deadlines hpc hdies))
    · exact h.due now htime e he hle

/-- The worker returns. -/
theorem Once.returned {last : Option (ℤ × ℤ)} (h : s.Once) : (s.goto (.returned last) q).Once := by
  refine h.goto (fun n hn => ?_) (fun rs heq => ?_) (fun n hn => ?_) (fun n node' y heq => ?_)
    fun n node' y cancelled heq => ?_
  · cases hn
  · cases heq
  · cases hn
  · rcases heq with heq | heq <;> cases heq
  · cases heq

theorem Once.begins {rs : List (ℕ × TimerRequest)} (h : s.Once) (hs : s.begins rs = some s') :
    s'.Once := by
  unfold TimerPasses.begins at hs
  split at hs
  · cases hs
    refine ⟨h.clock, fun n hn => ?_, fun x => Nat.zero_le _, fun _ _ _ => rfl, fun n hn => ?_,
      fun n node x heq => ?_, fun n node x cancelled heq => ?_⟩
    · cases hn
    · cases hn
    · rcases heq with heq | heq <;> cases heq
    · cases heq
  · cases hs

/-- The clock is read, and the loop begins. -/
theorem Once.read (h : s.Once) (hpc : s.pc = .requests []) (hreading : s.clock ≤ reading) :
    Once { s.goto (.loop reading) s.queue with clock := reading } := by
  refine ⟨h.clock.trans hreading, fun n hn => ?_, h.once, fun rs heq => ?_, fun n hn e he hle => ?_,
    fun n node x heq => ?_, fun n node x cancelled heq => ?_⟩
  · cases hn
    exact le_rfl
  · cases heq
  · exact h.start [] hpc e.2
  · rcases heq with heq | heq <;> cases heq
  · cases heq

theorem Once.work (h : s.Once) (hok : s.Ok) (hc : s.Regular (.work reading))
    (hs : s.work reading = some s') : s'.Once := by
  have hreading : s.clock ≤ reading := hc.1
  unfold TimerPasses.work at hs
  split at hs
  · cases hs
  next x rs hpc =>
    cases hs
    exact h.check.goto_requests hpc
  next x rs hpc =>
    cases hs
    unfold TimerPasses.removeTimerInternal
    split
    · exact h.check.goto_requests hpc
    · exact h.goto_requests hpc
  next hpc =>
    cases hs
    exact h.read hpc hreading
  next now hpc =>
    cases hs
    exact h.loop hpc
  next now node x hpc =>
    cases hs
    exact h.extracted hpc
  next now node x hpc =>
    cases hs
    have hadv := hc.2
    simp only [Advances, hpc] at hadv
    exact h.fire hok hpc hreading hadv
  next now node x cancelled hpc =>
    cases hs
    exact h.afterFire hpc
  next now hpc =>
    cases hs
    unfold TimerPasses.finish
    split
    · exact h.check.returned
    · exact h.returned

/-- A timer keeps its deadline and its kind. -/
theorem Once.setTimer {timer : TimerStateBase} (h : s.Once) (hok : s.Ok)
    (hd : timer.deadline = (s.timers x).deadline) (ho : timer.isOneshot = (s.timers x).isOneshot) :
    (s.setTimer x timer).Once := by
  refine h.of_timers hok rfl rfl rfl rfl (fun y _ => ?_) fun y _ => ?_
  · by_cases hyx : y = x
    · rw [deadlines, deadlines, hyx, setTimer_self, hd]
    · rw [deadlines, deadlines, setTimer_of_ne hyx]
  · by_cases hyx : y = x
    · rw [hyx, setTimer_self, ho]
    · rw [setTimer_of_ne hyx]

theorem Once.makeTimerImpl {dueTime frequency : ℕ} {isOneshot : Bool} (h : s.Once) (hok : s.Ok) :
    (s.makeTimerImpl reading dueTime frequency isOneshot).Once := by
  refine h.of_timers hok rfl rfl rfl rfl (fun x hx => ?_) fun x hx => ?_
  · rw [deadlines, deadlines, makeTimerImpl_of_lt hx]
  · rw [makeTimerImpl_of_lt hx]

theorem Once.step {mv : PassMove} (h : s.Once) (hok : s.Ok) (hc : s.Regular mv)
    (hs : s.step mv = some s') : s'.Once := by
  cases mv with
  | makeTimer | makeOneShotTimer =>
    cases hs
    exact h.makeTimerImpl hok
  | cancel | setFrequency =>
    cases hs
    exact h.setTimer hok rfl rfl
  | begins => exact h.begins hs
  | work => exact h.work hok hc hs

theorem once_of_reach (h : Reach step IsInitial Regular s) : s.Once := by
  induction h with
  | start hs =>
    cases hs
    exact once_initial
  | next hr hc hs ih => exact ih.step (ok_of_reach (fun _ _ hw => hw.1.wellFormed) hr) hc hs

/-! ### The steps of a pass -/

/-- How many timers of the multiset are expired at the time. -/
def dueCount (s : TimerPasses) (now : ℤ) : ℕ :=
  s.queue.timers.countP fun e => (s.timers e.2).expired now

/-- A bound on the steps of the worker to the end of its pass. -/
def stepsLeft (s : TimerPasses) : ℕ :=
  match s.pc with
  | .returned _ => 0
  | .finish _ => 1
  | .loop now => 4 * s.dueCount now + 2
  | .fired now _ _ _ => 4 * s.dueCount now + 3
  | .fire now _ _ => 4 * s.dueCount now + 4
  | .extracted now _ _ => 4 * s.dueCount now + 5
  | .requests rs => 5 * rs.length + 4 * s.queue.timers.length + 3

theorem dueCount_congr (hq : s'.queue.timers = s.queue.timers)
    (hd : ∀ e ∈ s.queue.timers, s'.deadlines e.2 = s.deadlines e.2) :
    s'.dueCount now = s.dueCount now := by
  unfold dueCount
  rw [hq]
  refine List.countP_congr fun e he => ?_
  have hdead : (s'.timers e.2).deadline = (s.timers e.2).deadline := hd e he
  unfold TimerStateBase.expired
  rw [hdead]

theorem stepsLeft_congr (hq : s'.queue = s.queue) (hpc : s'.pc = s.pc)
    (hd : ∀ e ∈ s.queue.timers, s'.deadlines e.2 = s.deadlines e.2) :
    s'.stepsLeft = s.stepsLeft := by
  have hcount : ∀ now, s'.dueCount now = s.dueCount now := fun now => dueCount_congr (by rw [hq]) hd
  unfold stepsLeft
  rw [hpc, hq]
  cases s.pc <;> simp only [hcount]

theorem dueCount_le : s.dueCount now ≤ s.queue.timers.length := List.countP_le_length

/-- The first timer leaves the multiset. -/
theorem stepsLeft_loop (hpc : s.pc = .loop now) : (s.loop now).stepsLeft + 1 ≤ s.stepsLeft := by
  have hleft : s.stepsLeft = 4 * s.dueCount now + 2 := by simp only [stepsLeft, hpc]
  rw [hleft]
  unfold TimerPasses.loop
  split
  · change 1 + 1 ≤ _
    omega
  next node x ts hq =>
    split_ifs with hexpired
    · have hcount : s.dueCount now =
          (s.goto (.extracted now node x) s.queue.extract).dueCount now + 1 := by
        unfold dueCount
        rw [hq, List.countP_cons_of_pos (by exact hexpired)]
        change _ = (s.queue.timers.tail.countP _) + 1
        rw [hq]
        rfl
      change 4 * (s.goto (.extracted now node x) s.queue.extract).dueCount now + 5 + 1 ≤ _
      omega
    · change 1 + 1 ≤ _
      omega

/-- A timer that goes back into the multiset is not due. -/
theorem stepsLeft_afterFire {cancelled : Bool} (h : s.Once)
    (hpc : s.pc = .fired now node x cancelled) :
    (s.afterFire now node x cancelled).stepsLeft + 1 ≤ s.stepsLeft := by
  have hleft : s.stepsLeft = 4 * s.dueCount now + 3 := by simp only [stepsLeft, hpc]
  rw [hleft]
  unfold TimerPasses.afterFire
  split_ifs with hdies
  · exact le_rfl
  · have hcount : ((s.check (s.queue.find x).isSome).goto (.loop now)
        (s.queue.reinsert s.deadlines node x)).dueCount now = s.dueCount now := by
      unfold dueCount
      refine ((TimerQueueInternal.perm_insert s.deadlines (node, x) s.queue.timers).countP_eq
        _).trans ?_
      rw [List.countP_cons_of_neg]
      · rfl
      · exact fun hexpired => absurd (of_decide_eq_true hexpired)
          (not_le.2 (h.lt_deadlines hpc hdies))
    change 4 * ((s.check (s.queue.find x).isSome).goto (.loop now)
      (s.queue.reinsert s.deadlines node x)).dueCount now + 2 + 1 ≤ _
    omega

/-- **Every step of the worker brings the end of the pass closer.** -/
theorem stepsLeft_work (h : s.Once) (hok : s.Ok) (hs : s.work reading = some s') :
    s'.stepsLeft + 1 ≤ s.stepsLeft := by
  unfold TimerPasses.work at hs
  split at hs
  · cases hs
  next x rs hpc =>
    cases hs
    have hlength :
        (TimerQueueInternal.insert s.deadlines (s.queue.nodes, x) s.queue.timers).length =
        s.queue.timers.length + 1 := (TimerQueueInternal.perm_insert _ _ _).length_eq
    have hleft : s.stepsLeft = 5 * (rs.length + 1) + 4 * s.queue.timers.length + 3 := by
      simp only [stepsLeft, hpc, List.length_cons]
    change 5 * rs.length + 4 *
      (TimerQueueInternal.insert s.deadlines (s.queue.nodes, x) s.queue.timers).length + 3 + 1 ≤ _
    omega
  next x rs hpc =>
    cases hs
    have hleft : s.stepsLeft = 5 * (rs.length + 1) + 4 * s.queue.timers.length + 3 := by
      simp only [stepsLeft, hpc, List.length_cons]
    unfold TimerPasses.removeTimerInternal
    split
    · change 5 * rs.length + 4 * s.queue.timers.length + 3 + 1 ≤ _
      omega
    next node hfind =>
      have hlength : ((s.queue.eraseNode node).unmap x).timers.length ≤ s.queue.timers.length :=
        List.length_filter_le _ _
      change 5 * rs.length + 4 * ((s.queue.eraseNode node).unmap x).timers.length + 3 + 1 ≤ _
      omega
  next hpc =>
    cases hs
    have hleft : s.stepsLeft = 4 * s.queue.timers.length + 3 := by
      simp only [stepsLeft, hpc, List.length_nil, Nat.mul_zero, Nat.zero_add]
    have hle : s.dueCount reading ≤ s.queue.timers.length := dueCount_le
    change 4 * s.dueCount reading + 2 + 1 ≤ _
    omega
  next now hpc =>
    cases hs
    exact stepsLeft_loop hpc
  next now node x hpc =>
    cases hs
    have hleft : s.stepsLeft = 4 * s.dueCount now + 5 := by simp only [stepsLeft, hpc]
    rw [hleft]
    split_ifs
    · change 4 * s.dueCount now + 3 + 1 ≤ _
      omega
    · exact le_rfl
  next now node x hpc =>
    cases hs
    have hleft : s.stepsLeft = 4 * s.dueCount now + 4 := by simp only [stepsLeft, hpc]
    have hagrees := hok.agrees
    rw [hpc] at hagrees
    -- the timer that gets a new deadline is not in the multiset
    have hcount : (s.fire reading now node x).dueCount now = s.dueCount now := by
      refine dueCount_congr rfl fun e he => ?_
      have hne : e.2 ≠ x := fun hex => hagrees.not_mem_timers (hex ▸ List.mem_map_of_mem he)
      exact fire_deadlines_of_ne hne
    change 4 * (s.fire reading now node x).dueCount now + 3 + 1 ≤ _
    omega
  next now node x cancelled hpc =>
    cases hs
    exact stepsLeft_afterFire h hpc
  next now hpc =>
    cases hs
    have hleft : s.stepsLeft = 1 := by simp only [stepsLeft, hpc]
    rw [hleft]
    unfold TimerPasses.finish
    split <;> exact le_rfl

/-- A step of the same pass. -/
def Continues (s : TimerPasses) (mv : PassMove) : Prop := s.Regular mv ∧ mv.isBegins = false

instance (s : TimerPasses) (mv : PassMove) : Decidable (s.Continues mv) :=
  inferInstanceAs (Decidable (_ ∧ _))

theorem stepsLeft_step {mv : PassMove} (h : s.Once) (hok : s.Ok) (hb : mv.isBegins = false)
    (hs : s.step mv = some s') : s'.stepsLeft + (if mv.isWork then 1 else 0) ≤ s.stepsLeft := by
  cases mv with
  | makeTimer | makeOneShotTimer =>
    cases hs
    refine (Nat.add_zero _).le.trans (le_of_eq (stepsLeft_congr rfl rfl fun e he => ?_))
    exact congrArg TimerStateBase.deadline
      (makeTimerImpl_of_lt (hok.known e (List.mem_append_right _ he)))
  | cancel x | setFrequency x =>
    cases hs
    refine (Nat.add_zero _).le.trans (le_of_eq (stepsLeft_congr rfl rfl fun e he => ?_))
    by_cases hex : e.2 = x
    · rw [deadlines, deadlines, hex, setTimer_self]
      rfl
    · rw [deadlines, deadlines, setTimer_of_ne hex]
  | begins => cases hb
  | work => exact stepsLeft_work h hok hs

/-- **A pass ends, and fires each timer at most once**, when every regular timer that is fired is
next due behind the time of the pass.  In every state that such steps reach no timer has been fired
twice in the current pass, the worker can go on until it has returned, and it returns in at most
`stepsLeft` steps, whatever the other threads do. -/
theorem pass_fires_once (s : TimerPasses) (h : Reach step IsInitial Regular s) :
    (∀ x, s.fired x ≤ 1) ∧
      (s.pc.inPass = true → ∀ reading, (s.step (.work reading)).isSome = true) ∧
      ∀ as t, run (restrict step Continues) s as = some t →
        as.countP PassMove.isWork ≤ s.stepsLeft := by
  have hok := ok_of_reach (fun _ _ hc => hc.1.wellFormed) h
  have honce := once_of_reach h
  refine ⟨honce.once, fun hin reading => ?_, fun as t hr => ?_⟩
  · simp only [step, TimerPasses.work]
    cases hpc : s.pc with
    | returned last =>
      rw [hpc] at hin
      cases hin
    | requests rs =>
      rcases rs with _ | ⟨⟨x, r⟩, rs⟩
      · rfl
      · cases r <;> rfl
    | _ => rfl
  · refine le_trans (Nat.le_add_right _ t.stepsLeft)
      (run_countP_add_le (fun s => s.Ok ∧ s.Once) stepsLeft PassMove.isWork ?_ ⟨hok, honce⟩ hr)
    rintro u mv v ⟨hok, honce⟩ hs
    obtain ⟨⟨hc, hb⟩, hs⟩ := Interleaving.restrict_eq_some hs
    exact ⟨⟨hok.step hc.1.wellFormed hs, honce.step hok hc hs⟩, stepsLeft_step honce hok hb hs⟩

/-- Two timers fire in one pass, one of them regular. -/
theorem pass_fires_once_of_two_timers :
    ∃ s : TimerPasses, s.fired 0 = 1 ∧ s.fired 1 = 1 ∧ (∀ x, s.fired x ≤ 1) ∧
      ∀ as t, run (restrict step Continues) s as = some t →
        as.countP PassMove.isWork ≤ s.stepsLeft := by
  let schedule : List PassMove :=
    [.makeTimer 0 0 1000, .makeOneShotTimer 0 0, .begins [(0, .add), (1, .add)]] ++
    List.replicate 10 (.work 20)
  obtain ⟨honce, -, hbound⟩ := pass_fires_once _ (.lastState (by rfl) schedule)
  exact ⟨_, by decide +kernel, by decide +kernel, honce, hbound⟩

/-! ### A negative frequency -/

/-- The worker is at the head of the loop; the only timer is due, and its next deadline is not
behind the time of the pass if the clock stands still. -/
structure Stuck (s : TimerPasses) (now : ℤ) : Prop where
  pc : s.pc = .loop now
  timers : s.queue.timers = [(0, 0)]
  clock : s.clock = now
  due : s.deadlines 0 ≤ now
  back : addMilliseconds now (fromSize (s.timers 0).frequency) ≤ now
  cancelled : (s.timers 0).cancelled = false
  regular : (s.timers 0).isOneshot = false

theorem Stuck.round (h : s.Stuck now) : ∃ t, run (restrict step Timely) s
    (List.replicate 4 (.work now)) = some t ∧ t.Stuck now ∧ t.fired 0 = s.fired 0 + 1 := by
  have hclock : s.clock ≤ now := h.clock.le
  have hexpired : (s.timers 0).expired now = true := decide_eq_true h.due
  have h₁ : s.step (.work now) = some (s.goto (.extracted now 0 0) s.queue.extract) := by
    simp only [step, TimerPasses.work, h.pc, TimerPasses.loop, h.timers, hexpired, if_true]
  have h₂ : (s.goto (.extracted now 0 0) s.queue.extract).step (.work now) =
      some (s.goto (.fire now 0 0) s.queue.extract) := by
    change some ((s.goto (.extracted now 0 0) s.queue.extract).goto
      (if (s.timers 0).cancelled then .fired now 0 0 true else .fire now 0 0) s.queue.extract) = _
    rw [h.cancelled]
    rfl
  generalize hv : s.goto (.fire now 0 0) s.queue.extract = v at h₂
  have hvtimers : v.timers = s.timers := by rw [← hv]; rfl
  have hvclock : v.clock ≤ now := by rw [← hv]; exact hclock
  have hvfired : v.fired = s.fired := by rw [← hv]; rfl
  have hvqueue : v.queue.timers = [] := by
    rw [← hv]
    change s.queue.timers.tail = []
    rw [h.timers]
    rfl
  have h₃ : v.step (.work now) = some (v.fire now now 0 0) := by
    have hpc : v.pc = .fire now 0 0 := by rw [← hv]; rfl
    simp only [step, TimerPasses.work, hpc]
  have h₄ : (v.fire now now 0 0).step (.work now) =
      some ((v.fire now now 0 0).afterFire now 0 0 false) := rfl
  refine ⟨_, run_cons_of_step (Interleaving.restrict_of_step hclock h₁)
    (run_cons_of_step (Interleaving.restrict_of_step hclock h₂)
      (run_cons_of_step (Interleaving.restrict_of_step hvclock h₃)
        (run_cons_of_step (Interleaving.restrict_of_step le_rfl h₄) rfl))), ?_⟩
  -- the timer goes back into the multiset, with a deadline that is not behind the time of the pass
  have hself : (v.fire now now 0 0).timers 0 = (s.timers 0).rearm now := by
    rw [fire_timers_self, hvtimers]
  have hregular : (((v.fire now now 0 0).timers 0).isOneshot || false) = false := by
    rw [hself, Bool.or_false]
    exact h.regular
  unfold TimerPasses.afterFire
  rw [hregular, if_neg Bool.false_ne_true]
  refine ⟨⟨rfl, ?_, rfl, ?_, ?_, ?_, ?_⟩, ?_⟩
  · change TimerQueueInternal.insert _ (0, 0) v.queue.timers = _
    rw [hvqueue]
    rfl
  · exact (congrArg TimerStateBase.deadline hself).trans_le h.back
  · have hfrequency := congrArg TimerStateBase.frequency hself
    exact (congrArg (fun f => addMilliseconds now (fromSize f)) hfrequency).trans_le h.back
  · exact (congrArg TimerStateBase.cancelled hself).trans h.cancelled
  · exact (congrArg TimerStateBase.isOneshot hself).trans h.regular
  · change (v.fire now now 0 0).fired 0 = _
    rw [fire_fired_self, hvfired]

theorem Stuck.rounds (h : s.Stuck now) (k : ℕ) : ∃ as t, run (restrict step Timely) s as =
    some t ∧ t.Stuck now ∧ t.fired 0 = s.fired 0 + k := by
  induction k generalizing s with
  | zero => exact ⟨[], s, rfl, h, rfl⟩
  | succ _ ih =>
    obtain ⟨u, hu, hstuck, hfired⟩ := h.round
    obtain ⟨as, t, ht, htstuck, htfired⟩ := ih hstuck
    refine ⟨List.replicate 4 (.work now) ++ as, t, run_append hu ht, htstuck, ?_⟩
    rw [htfired, hfired]
    omega

/-- A timer with a frequency of minus one millisecond, and a clock that stands still: the pass fires
the timer as often as one likes, and does not end. -/
theorem pass_never_ends :
    ∃ s : TimerPasses, Reach step IsInitial Timely s ∧ s.pc = .loop 0 ∧ s.fired 0 = 0 ∧
      ∀ k, ∃ as t, run (restrict step Timely) s as = some t ∧ t.pc = .loop 0 ∧
        t.fired 0 = k := by
  let schedule : List PassMove := [.makeTimer 0 0 (-1), .begins [(0, .add)], .work 0, .work 0]
  let s := lastState (restrict step Timely) initial schedule
  have hstuck : s.Stuck 0 := by constructor <;> decide +kernel
  have hfired : s.fired 0 = 0 := by decide +kernel
  refine ⟨s, .lastState (by rfl) schedule, hstuck.pc, hfired, fun k => ?_⟩
  obtain ⟨as, t, ht, htstuck, htfired⟩ := hstuck.rounds k
  exact ⟨as, t, ht, htstuck.pc, by rw [htfired, hfired, Nat.zero_add]⟩

end TimerPasses

end Concurrencpp
