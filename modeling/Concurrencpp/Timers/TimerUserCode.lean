import Concurrencpp.Timers.TimerLockSteps

/-!
# User code under the lock of the timer queue

`shutdown` clears `m_request_queue` under `m_lock`.  An entry that is the last reference to its
timer destroys the timer there, and with it a callable of the user or an `await_via_functor`, which
resumes its coroutine.

* `NoUserCode`: the owner of `m_lock` runs nothing but its critical section.
* `no_user_code_under_lock`: there is no other way to run user code under the lock.
-/

namespace Concurrencpp

open Interleaving
namespace TimerSystem

variable {s s' : TimerSystem} {t : TimerThread} {f : Frame} {rest : List Frame} {x : ℕ}

/-! ### Critical sections -/

/-- The innermost frame of the owner of the lock takes the next step. -/
theorem nextStep_of_holds {m : TimerMove} (hm : m.thread = some t) (hf : s.frames t = f :: rest)
    (hh : f.holds = true) (hs : s.step m = some s') :
    s.nextStep t rest f = some s' ∨
      ∃ x, f = .makeTimer x .addTimer ∧ s'.owners = s.owners := by
  unfold step at hs
  split_ifs at hs
  cases m with
  | step =>
    cases hm
    simp only [liveStep, hf] at hs
    exact .inl hs
  | fail =>
    cases hm
    simp only [liveStep, hf] at hs
    split at hs
    next x rest' heq =>
      cases heq
      refine .inr ⟨x, rfl, ?_⟩
      unfold failToStart at hs
      split_ifs at hs
      split at hs <;> cases hs <;> rfl
    · cases hs
  | enter =>
    cases hm
    simp [liveStep, hf] at hs
  | leave | call =>
    cases hm
    simp only [liveStep, hf] at hs
    split at hs
    next heq =>
      cases heq
      cases hh
    · cases hs
  | timeout =>
    cases hm
    simp only [liveStep, timeout, hf] at hs
    split at hs
    next heq =>
      cases heq
      cases hh
    · cases hs
  | store | inline | throw =>
    cases hm
    simp only [liveStep] at hs
    obtain ⟨now, node, x, k, q, deadline, rest', hf', -⟩ := post_eq_some hs
    cases hf.symm.trans hf'
    cases hh
  | run | discard =>
    cases hm
    simp only [liveStep, takeTask] at hs
    split_ifs at hs with hhosts
    have hhosts := hhosts.1
    unfold hosts at hhosts
    split at hhosts
    next n hf' => cases hf.symm.trans hf'
    next rest' hf' =>
      cases hf.symm.trans hf'
      cases hh
    · cases hhosts
  | tick => cases hm

theorem update_ne_nil {owners : ℕ → List Owner} {os : List Owner} (hos : os ≠ []) {y : ℕ}
    (hy : owners y ≠ []) : Function.update owners x os y ≠ [] :=
  (Function.forall_update_iff owners fun y l => owners y ≠ [] → l ≠ []).2
    ⟨fun _ => hos, fun _ _ => id⟩ y hy

/-- A step in a critical section destroys no timer. -/
theorem owners_ne_nil_of_holds (h : s.LockInv) (hf : s.frames t = f :: rest) (hh : f.holds = true)
    (hc : s.ClearsShared (.step t)) (hs : s.nextStep t rest f = some s') {y : ℕ}
    (hy : s.owners y ≠ []) : s'.owners y ≠ [] := by
  cases f with
  | user => cases hh
  | task => cases hh
  | makeTimer x pc =>
    have howned := h.owned t
    rw [hf] at howned
    have hx : .timerState t rest.length ∈ s.owners x := howned.1
    cases pc with
    | addTimer =>
      simp only [nextStep, makeTimerStep, ensureWorkerThread] at hs
      split_ifs at hs <;> cases hs <;> exact hy
    | unwind =>
      cases hs
      rw [drop_owners]
      refine update_ne_nil (List.ne_nil_of_mem (a := .timerState t rest.length) ?_) hy
      exact (List.mem_erase_of_ne (by simp)).2 hx
    | unlock =>
      cases hs
      exact hy
    | addInternalTimer =>
      cases hs
      exact update_ne_nil (List.cons_ne_nil _ _) hy
    | _ => cases hh
  | cancel _ pc =>
    cases pc with
    | push =>
      cases hs
      exact update_ne_nil (List.cons_ne_nil _ _) hy
    | _ => cases hh
  | shutdown pc =>
    cases pc with
    | check =>
      simp only [nextStep, shutdownStep] at hs
      split at hs <;> cases hs <;> exact hy
    | clear =>
      simp only [nextStep, shutdownStep] at hs
      split at hs
      · cases hs
        exact hy
      next x r requests hq =>
        cases hs
        rw [drop_owners]
        refine update_ne_nil ?_ hy
        exact hc t rfl (by rw [hf]; rfl) (x, r) (by rw [hq]; rfl)
    | _ => cases hh
  | workLoop pc =>
    cases pc with
    | locked | timedOut =>
      simp only [nextStep, workLoopStep] at hs
      split_ifs at hs <;> cases hs <;> exact hy
    | woken =>
      simp only [nextStep, workLoopStep] at hs
      split_ifs at hs
      · cases hs
        exact hy
      · cases hs
        exact fun hnil => hy (List.map_eq_nil_iff.1 hnil)
    | _ => cases hh

/-- No user code runs under `m_lock`: the innermost frame of its owner is in its critical section,
and no frame locks `m_lock` on a thread that owns it. -/
structure NoUserCode (s : TimerSystem) : Prop where
  critical : ∀ t, s.lock = some t → ∃ f rest, s.frames t = f :: rest ∧ f.holds = true
  relock : ∀ t f rest, s.frames t = f :: rest → f.locks = true → s.lock ≠ some t

/-- A step of the owner of `m_lock` leaves every timer with an owner. -/
def DestroysNothing (s : TimerSystem) (m : TimerMove) (s' : TimerSystem) : Prop :=
  ∀ t, m.thread = some t → s.lock = some t → ∀ x, s.owners x ≠ [] → s'.owners x ≠ []

theorem LockInv.noUserCode (h : s.LockInv) : s.NoUserCode where
  critical := by
    intro t ht
    have hhead := (h.lock t).1 ht
    cases hf : s.frames t with
    | nil =>
      rw [hf] at hhead
      cases hhead
    | cons f rest =>
      rw [hf] at hhead
      exact ⟨f, rest, rfl, hhead⟩
  relock := by
    intro t f rest hf hl ht
    rw [h.lock_iff hf, Frame.not_holds_of_locks hl] at ht
    cases ht

theorem LockInv.destroysNothing {m : TimerMove} (h : s.LockInv) (hc : s.ClearsShared m)
    (hs : s.step m = some s') : s.DestroysNothing m s' := by
  intro t hm ht x hx
  obtain ⟨f, rest, hf, hh⟩ := h.noUserCode.critical t ht
  rcases nextStep_of_holds hm hf hh hs with hs | ⟨y, -, howners⟩
  · exact owners_ne_nil_of_holds h hf hh (fun u hu => hc u (by rw [hm]; exact hu)) hs hx
  · rw [howners]
    exact hx

/-- An entry that is the last reference to its timer is cleared under the lock, and user code
begins. -/
theorem not_noUserCode_of_clear {m : TimerMove} (h : s.LockInv) (hc : ¬ s.ClearsShared m)
    (hs : s.step m = some s') : ¬ s'.NoUserCode := by
  unfold ClearsShared at hc
  push Not at hc
  obtain ⟨t, hm, hhead, ⟨x, r⟩, hp, hlast⟩ := hc
  obtain ⟨rest, hf⟩ := List.head?_eq_some_iff.1 hhead
  obtain ⟨requests, hq⟩ := List.head?_eq_some_iff.1 hp
  rcases nextStep_of_holds hm hf rfl hs with hs | ⟨y, heq, -⟩
  · simp only [nextStep, shutdownStep, hq] at hs
    cases hs
    intro hno
    have hlock : s.lock = some t := (h.lock_iff hf).2 rfl
    obtain ⟨g, rest', hg, hh⟩ := hno.critical t (drop_lock.trans hlock)
    rw [drop_frames, Function.update_self, if_pos hlast] at hg
    cases hg
    cases hh
  · cases heq

/-- **No user code runs under the lock of the timer queue** in a run in which no entry that
`shutdown` clears is the last reference to its timer: the owner of `m_lock` is always in its
critical section with its innermost frame, destroys no timer there, and never locks `m_lock` again.
The first step outside the condition runs user code under the lock. -/
theorem no_user_code_under_lock (s : TimerSystem)
    (h : Reach step IsInitial ClearsShared s) :
    s.NoUserCode ∧
    (∀ m s', s.step m = some s' → s.ClearsShared m → s.DestroysNothing m s') ∧
    (∀ m s', s.step m = some s' → ¬ s.ClearsShared m → ¬ s'.NoUserCode) := by
  have hinv := lockInv_of_reach h
  exact ⟨hinv.noUserCode, fun m s' hs hc => hinv.destroysNothing hc hs,
    fun m s' hs hc => not_noUserCode_of_clear hinv hc hs⟩

/-- A thread makes a timer or a delay object, and comes back from the call. -/
def makeTimerCall (n : ℕ) (c : TimerCall) : List TimerMove :=
  [.enter n, .call (.caller n) c] ++ List.replicate 6 (.step (.caller n))

/-- A regular timer is in the request queue when the queue is shut down; its `timer` still refers to
it when the entry has been cleared. -/
theorem no_user_code_under_lock_of_timer :
    ∃ s, Reach step IsInitial ClearsShared s ∧ s.lock = some (.caller 1) ∧
      s.requestQueue = [] ∧ s.owners 0 = [.handle] ∧ s.NoUserCode := by
  let schedule : List TimerMove := makeTimerCall 0 (.makeTimer true 5 3) ++
    [.enter 1, .call (.caller 1) .shutdown] ++ List.replicate 4 (.step (.caller 1))
  have h : Reach step IsInitial ClearsShared _ := .lastState (by rfl) schedule
  exact ⟨_, h, by decide +kernel, by decide +kernel, by decide +kernel,
    (no_user_code_under_lock _ h).1⟩

/-- A delay object is in the request queue, and nobody else refers to it, when another thread shuts
the queue down: the coroutine is resumed under `m_lock`, makes a delay object and locks `m_lock`
again. -/
theorem user_code_under_lock :
    ∃ s, Reachable s ∧ s.lock = some (.caller 1) ∧
      s.frames (.caller 1) = [.makeTimer 1 .lock, .user, .shutdown .clear, .user] ∧
      ¬ s.NoUserCode := by
  let schedule : List TimerMove := makeTimerCall 0 (.makeDelayObject true 5) ++
    [.enter 1, .call (.caller 1) .shutdown] ++ List.replicate 4 (.step (.caller 1)) ++
    [.call (.caller 1) (.makeDelayObject true 5)]
  let s := lastState step initial schedule
  have hl : s.lock = some (.caller 1) := by decide +kernel
  have hf : s.frames (.caller 1) = [.makeTimer 1 .lock, .user, .shutdown .clear, .user] := by
    decide +kernel
  exact ⟨s, .lastState (by rfl) schedule, hl, hf, fun hno => hno.relock _ _ _ hf rfl hl⟩

end TimerSystem
end Concurrencpp
