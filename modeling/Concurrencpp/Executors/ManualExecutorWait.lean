import Concurrencpp.Executors.ManualExecutorOrder

/-!
# What the waits of the manual executor report

Six waits stand over the two forms of `wait_for_tasks_impl`.  While a thread waits, others enqueue,
take tasks out and shut the executor down; the wait looks at the queue and at its flag once more
when it ends.

* `Reports`: what a wait owes to its caller in the state in which it ends.
* `waitStep_eq`, `frameTimeout_eq`: how a wait ends.
* `waits_report_availability`: the waits keep to it, but for the two that return a truth value and
  find more than one task; `two_tasks_reported_as_none` is a run in which this happens.
-/

namespace Concurrencpp

open Interleaving

/-- `wait_for_task_for` and `wait_for_task_until`. -/
def WaitCall.boolean : WaitCall → Bool
  | .waitForTaskFor | .waitForTaskUntil => true
  | .waitForTask | .waitForTasks _ | .waitForTasksFor _ | .waitForTasksUntil _ => false

/-- What a wait should make of `m_tasks.size()`: a truth value says whether there is a task. -/
def WaitCall.report (call : WaitCall) (size : ℕ) : WaitValue :=
  match call with
  | .waitForTask | .waitForTasks _ => .void
  | .waitForTaskFor | .waitForTaskUntil => .bool (0 < size)
  | .waitForTasksFor _ | .waitForTasksUntil _ => .size size

/-- The comparison with 1 is right as long as there are not more tasks. -/
theorem WaitCall.value_eq_report_iff (call : WaitCall) (size : ℕ) :
    call.value size = call.report size ↔ (call.boolean = true → size ≤ 1) := by
  cases call with
  | waitForTaskFor | waitForTaskUntil =>
    simp only [WaitCall.value, WaitCall.report, WaitCall.boolean, WaitValue.bool.injEq,
      decide_eq_decide, forall_const]
    omega
  | _ =>
    simp [WaitCall.value, WaitCall.report, WaitCall.boolean]

namespace ManualSystem

variable {τ : Type} {s s' : ManualSystem τ} {t : ℕ} {below : List (ManualFrame τ)} {call : WaitCall}

/-- The flag that a wait looks at last. -/
def lastCheck (s : ManualSystem τ) (call : WaitCall) : Bool :=
  if call.timed = false ∧ call.count = 0 then s.atomicAbort else s.abort

/-- A wait ends with `r` in the state `s`, behind its deadline if `late` says so. -/
structure Reports (s : ManualSystem τ) (call : WaitCall) (late : Bool) (r : ManualReturn τ) :
    Prop where
  ends : r = .threw ∨ r = .waited call (call.report s.tasks.length)
  /-- It throws exactly when its flag is set. -/
  throws : r = .threw ↔ s.lastCheck call = true
  /-- It returns without a shutdown, and with its tasks unless the deadline has passed. -/
  available : r ≠ .threw →
    s.abort = false ∧ (call.count ≤ s.tasks.length ∨ call.timed = true ∧ late = true)

/-- How a wait ends. -/
def outcome (s : ManualSystem τ) (call : WaitCall) : ManualReturn τ :=
  if s.lastCheck call then .threw else .waited call (call.value s.tasks.length)

theorem waitReturn_eq (hzero : ¬ (call.timed = false ∧ call.count = 0)) :
    s.waitReturn t below call = s.finish t below (s.outcome call) := by
  unfold waitReturn outcome lastCheck
  rw [if_neg hzero]
  split
  · rfl
  · rfl

theorem waitStep_eq (hs : s.waitStep t below call = some s') :
    s' = s.finish t below (s.outcome call) ∧
    (s.lastCheck call = false → call.count ≤ s.tasks.length) := by
  unfold waitStep at hs
  split_ifs at hs with hzero hatomic hready
  · cases hs
    have hcheck : s.lastCheck call = true := (if_pos hzero).trans hatomic
    refine ⟨?_, fun h => (by cases hcheck.symm.trans h)⟩
    rw [outcome, if_pos hcheck]
  · cases hs
    have hcheck : s.lastCheck call = false := (if_pos hzero).trans (Bool.eq_false_iff.2 hatomic)
    refine ⟨?_, fun _ => hzero.2 ▸ Nat.zero_le _⟩
    rw [outcome, hcheck]
    cases call with
    | waitForTask | waitForTasks => rfl
    | _ => cases hzero.1
  · cases hs
    refine ⟨waitReturn_eq hzero, fun h => hready.resolve_right fun ha => ?_⟩
    rw [lastCheck, if_neg hzero, ha] at h
    cases h

theorem frameTimeout_eq (hf : s.frames t = .wait call :: below) (hs : s.frameTimeout t = some s') :
    call.timed = true ∧ s' = s.finish t below (s.outcome call) := by
  unfold frameTimeout at hs
  rw [hf] at hs
  dsimp only at hs
  split_ifs at hs with htimed
  cases hs
  refine ⟨htimed, waitReturn_eq ?_⟩
  rintro ⟨huntimed, -⟩
  cases huntimed.symm.trans htimed

/-- The outcome of a wait is what it owes, as far as the size of the queue goes. -/
theorem reports_outcome_iff {late : Bool} (h : s.Ok)
    (hready : s.lastCheck call = false →
      call.count ≤ s.tasks.length ∨ call.timed = true ∧ late = true) :
    s.Reports call late (s.outcome call) ↔ (call.boolean = true → s.tasks.length ≤ 1) := by
  unfold outcome
  cases hcheck : s.lastCheck call with
  | true =>
    rw [if_pos rfl]
    refine iff_of_true ⟨.inl rfl, iff_of_true rfl hcheck, fun hne => absurd rfl hne⟩ fun hbool => ?_
    -- a truth value comes from a timed wait, and the queue of an aborted executor is empty
    have habort : s.abort = true := by
      unfold lastCheck at hcheck
      rwa [if_neg] at hcheck
      rintro ⟨htimed, -⟩
      cases call with
      | waitForTaskFor | waitForTaskUntil => cases htimed
      | _ => cases hbool
    rw [(h.abort habort).2]
    exact Nat.zero_le 1
  | false =>
    rw [if_neg Bool.false_ne_true, ← WaitCall.value_eq_report_iff]
    have hne : ∀ v, (.waited call v : ManualReturn τ) ≠ .threw := fun v hv => (by cases hv)
    have habort : s.abort = false := by
      unfold lastCheck at hcheck
      split_ifs at hcheck with hzero
      · refine Bool.eq_false_iff.2 fun ha => ?_
        cases hcheck.symm.trans (h.abort ha).1
      · exact hcheck
    constructor
    · intro hreports
      rcases hreports.ends with hends | hends
      · exact absurd hends (hne _)
      · exact (ManualReturn.waited.inj hends).2
    · intro hvalue
      refine ⟨.inr (by rw [hvalue]), iff_of_false (hne _) ?_, fun _ => ⟨habort, hready hcheck⟩⟩
      rw [hcheck]
      exact Bool.false_ne_true

/-- **The waits report availability, but for a truth value about more than one task.**  In every
state that is reached and for every thread in a wait, whatever the others have done in the meantime:
when the wait ends, with a look at the queue or at its deadline, it leaves the queue as it is and
gives what it owes to its caller, exactly when it returns no truth value or finds at most one
task. -/
theorem waits_report_availability (h : s.Reachable) (hf : s.frames t = .wait call :: below)
    (late : Bool) (hs : s.step (if late then .timeout t else .step t) = some s') :
    ∃ r, s'.returns = s.returns ++ [r] ∧ s'.frames t = below ∧ s'.tasks = s.tasks ∧
      (s.Reports call late r ↔ (call.boolean = true → s.tasks.length ≤ 1)) := by
  have hok := ok_of_reachable h
  refine ⟨s.outcome call, ?_⟩
  have hends : s' = s.finish t below (s.outcome call) ∧ (s.lastCheck call = false →
      call.count ≤ s.tasks.length ∨ call.timed = true ∧ late = true) := by
    cases late with
    | true =>
      obtain ⟨htimed, rfl⟩ := frameTimeout_eq hf hs
      exact ⟨rfl, fun _ => .inr ⟨htimed, rfl⟩⟩
    | false =>
      have hs : s.frameStep t = some s' := hs
      unfold frameStep at hs
      rw [hf] at hs
      obtain ⟨rfl, hcount⟩ := waitStep_eq hs
      exact ⟨rfl, fun hcheck => .inl (hcount hcheck)⟩
  obtain ⟨rfl, hready⟩ := hends
  exact ⟨rfl, Function.update_self .., rfl, reports_outcome_iff hok hready⟩

/-- One task comes while a thread waits. -/
theorem waits_report_availability_of_one :
    ∃ s s' : ManualSystem ℕ, s.Reachable ∧ s.step (.step 0) = some s' ∧
      ∃ r, s'.returns = s.returns ++ [r] ∧ s.Reports .waitForTaskFor false r := by
  have hreach : Reachable _ := .lastState (by rfl) [.wait 0 .waitForTaskFor, .enqueue 1 [7]]
  obtain ⟨r, hr, -, -, hreports⟩ := waits_report_availability hreach (t := 0) rfl false rfl
  exact ⟨_, _, hreach, rfl, r, hr, hreports.2 fun _ => le_rfl⟩

/-- Two tasks come while a thread waits, and it is told that there is none. -/
theorem two_tasks_reported_as_none :
    ∃ s s' : ManualSystem ℕ, s.Reachable ∧ s.frames 0 = [.wait .waitForTaskFor] ∧
      s.tasks.length = 2 ∧
      s.step (.step 0) = some s' ∧ s'.returns = [.waited .waitForTaskFor (.bool false)] := by
  exact ⟨_, _, .lastState (by rfl) [.wait 0 .waitForTaskFor, .enqueue 1 [7, 8]], rfl, rfl, rfl, rfl⟩

end ManualSystem
end Concurrencpp
