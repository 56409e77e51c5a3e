import Concurrencpp.Threads.CvThreads
import Concurrencpp.Threads.AsyncLockOwner

/-!
# Resumption under the mutex of the condition variable

`cv_awaiter::await_suspend` holds `m_lock` while it unlocks the asynchronous lock, and that unlock
resumes a queued locker inside `retry`.  The locker then runs on a thread that holds `m_lock`; if it
notifies the condition variable, this thread locks the mutex a second time.

* `NoReentry`: no thread resumes a coroutine while it holds one of the two mutexes, and none locks a
  mutex that it holds.
* `ReleasesAlone`: the condition on the steps; `await_suspend` unlocks while no locker is queued.
* `InnermostOk`: under the condition, the holder of `m_lock` is the innermost task of its thread and
  has nobody to retry.
-/

namespace Concurrencpp

open Interleaving

/-- The task is about to lock `m_awaiter_lock`. -/
def LockPc.acquires : LockPc → Bool
  | .loop _ _ | .broken | .tryLock _ | .unlock _ => true
  | _ => false

theorem LockPc.of_inside {pc : LockPc} (h : pc.inside = true) :
    pc.acquires = false ∧ pc.awaiter = none := by
  cases pc <;> first | exact ⟨rfl, rfl⟩ | cases h

theorem CvPc.acquires_eq_none {pc : CvPc} (h : pc.holds = true) : pc.acquires = none := by
  cases pc <;> first | rfl | cases h

namespace CvSystem

variable {s s' : CvSystem} {t n m : ℕ} {pc : CvPc} {rest : List ℕ}

/-- A task on the stack of the thread has locked `async_condition_variable::m_lock`. -/
def HoldsCvLock (s : CvSystem) (t : ℕ) : Prop := ∃ n ∈ s.frames t, s.cvLock = some n

/-- A task on the stack of the thread has locked `async_lock::m_awaiter_lock`. -/
def HoldsAwaiterLock (s : CvSystem) (t : ℕ) : Prop :=
  ∃ n ∈ s.frames t, s.lock.awaiterLock = some n

/-- The next step of the task is `async_lock_awaiter::retry` or `cv_awaiter::resume`. -/
def Resumes (s : CvSystem) (n : ℕ) : Prop :=
  ∃ m, (s.lock.pcs n).awaiter = some m ∨ ∃ pc, s.Takes n m pc

/-- No coroutine is resumed under a mutex, and no thread locks a mutex that it holds. -/
structure NoReentry (s : CvSystem) : Prop where
  resume : ∀ t n rest, s.frames t = n :: rest → s.Resumes n →
    ¬ s.HoldsCvLock t ∧ ¬ s.HoldsAwaiterLock t
  cvLock : ∀ t n rest, s.frames t = n :: rest → (s.pcs n).acquires.isSome = true → ¬ s.HoldsCvLock t
  awaiterLock : ∀ t n rest, s.frames t = n :: rest → (s.lock.pcs n).acquires = true →
    ¬ s.HoldsAwaiterLock t

/-- `await_suspend` of the task is about to run the critical section of `async_lock::unlock`. -/
def unlocksInAwait (s : CvSystem) (n : ℕ) : Bool :=
  match s.pcs n, s.lock.pcs n with
  | .releasing _, .unlocking _ => true
  | _, _ => false

/-- The step runs the critical section of `async_lock::unlock` inside `await_suspend`. -/
def isRelease (s : CvSystem) : CvMove → Bool
  | .lock t .advance => (s.frames t).head?.any s.unlocksInAwait
  | _ => false

/-- The critical section of `async_lock::unlock` inside `await_suspend` finds no queued locker. -/
def ReleasesAlone (s : CvSystem) (mv : CvMove) : Prop :=
  s.isRelease mv = true → s.lock.awaiters.head = none

instance (s : CvSystem) (mv : CvMove) : Decidable (s.ReleasesAlone mv) :=
  inferInstanceAs (Decidable (_ → _))

/-! ### The holder of `m_lock` -/

/-- The holder of `m_lock` is the innermost task of its thread, and `await_suspend` retries
nobody. -/
structure InnermostOk (s : CvSystem) : Prop where
  holds : ∀ n, (s.pcs n).holds = true → OnTop s.frames n
  quiet : ∀ n w, s.pcs n = .releasing w → (s.lock.pcs n).awaiter = none

theorem InnermostOk.goto (h : s.InnermostOk) (hh : pc.holds = true → OnTop s.frames n)
    (hw : ∀ w, pc = .releasing w → (s.lock.pcs n).awaiter = none) : (s.setPc n pc).InnermostOk where
  holds := (Function.forall_update_iff _ fun k (pc : CvPc) => pc.holds = true → OnTop s.frames k).2
    ⟨hh, fun k _ => h.holds k⟩
  quiet := (Function.forall_update_iff _ fun k (pc : CvPc) =>
    ∀ w, pc = .releasing w → (s.lock.pcs k).awaiter = none).2 ⟨hw, fun k _ => h.quiet k⟩

/-- A step to a program point outside the critical sections. -/
theorem InnermostOk.leave (h : s.InnermostOk) (hh : pc.holds = false) :
    (s.setPc n pc).InnermostOk := by
  refine h.goto (fun hh' => absurd (hh.symm.trans hh') Bool.false_ne_true) fun w hw => ?_
  rw [hw] at hh
  cases hh

theorem InnermostOk.setLock {l : AsyncLock} {q : LockPc} (h : s.InnermostOk)
    (hl : l.pcs = Function.update s.lock.pcs n q)
    (hq : ∀ w, s.pcs n = .releasing w → q.awaiter = none) : { s with lock := l }.InnermostOk where
  holds := h.holds
  quiet := by
    change ∀ k w, s.pcs k = .releasing w → (l.pcs k).awaiter = none
    rw [hl]
    exact (Function.forall_update_iff _ fun k (q : LockPc) =>
      ∀ w, s.pcs k = .releasing w → q.awaiter = none).2 ⟨hq, fun k _ => h.quiet k⟩

theorem InnermostOk.push (h : s.InnermostOk)
    (ht : ∀ n rest, s.frames t = n :: rest → (s.pcs n).holds = false) :
    (s.push t m).InnermostOk where
  holds := fun k hk => (h.holds k hk).push fun rest hf => by cases (ht k rest hf).symm.trans hk
  quiet := h.quiet

theorem InnermostOk.pop (h : s.InnermostOk) (hf : s.frames t = n :: rest)
    (hn : (s.pcs n).holds = false) : (s.pop t n).InnermostOk where
  holds := fun k hk => (h.holds k hk).pop hf fun hkn => by
    rw [hkn] at hk
    cases hn.symm.trans hk
  quiet := h.quiet

theorem not_holds_setPc {k : ℕ} (hpc : pc.holds = false) (hk : (s.pcs k).holds = false) :
    ((s.setPc n pc).pcs k).holds = false := by
  by_cases hkn : k = n
  · rw [hkn, setPc_pcs_self]
    exact hpc
  · rw [setPc_pcs_of_ne hkn]
    exact hk

/-! ### Steps -/

/-- A step inside `scoped_async_lock::unlock`, called by `await_suspend`, leaves nobody to retry. -/
theorem quiet_lock {a : LockAction} {l : AsyncLock} {w : ℕ} (hT : s.ThreadsOk) (h : s.InnermostOk)
    (hf : s.frames t = n :: rest) (ha : s.mayLock n a = true) (hl : s.lock.step (n, a) = some l)
    (hcond : s.ReleasesAlone (.lock t a)) (hn : s.pcs n = .releasing w) :
    (l.pcs n).awaiter = none := by
  have hw := h.quiet n w hn
  obtain hout | ⟨w', -, rfl, hne⟩ := mayLock_cases ha
  · cases hn.symm.trans hout
  have hl := AsyncLock.advance_of_step hl
  obtain ⟨h₁, -, h₃, h₄⟩ := AsyncLock.advance_unlock (u := .ofScoped w) hl
  have hc := hT.coupled n
  rw [hn] at hc
  obtain hpc | hpc | ⟨m, hpc⟩ | hpc | hpc | ⟨e, hpc⟩ := hc
  · rw [h₁ hpc]
    rfl
  · -- the critical section pops from an empty queue
    have hhead : s.lock.awaiters.head = none :=
      hcond (by simp [isRelease, unlocksInAwait, hf, hn, hpc])
    unfold AsyncLock.advance at hl
    simp only [hpc] at hl
    cases hl
    rw [AsyncLock.unlocking_pcs, Function.update_self]
    simp only [Slist.popFront, hhead]
    split_ifs <;> rfl
  · rw [hpc] at hw
    cases hw
    rw [h₃ hpc]
    rfl
  · rw [h₄ hpc]
    rfl
  · cases (AsyncLock.advance_idle hpc).symm.trans hl
  · exact absurd hpc (hne e)

theorem innermostOk_lock {a : LockAction} {l : AsyncLock} (hT : s.ThreadsOk) (h : s.InnermostOk)
    (hf : s.frames t = n :: rest) (ha : s.mayLock n a = true) (hl : s.lock.step (n, a) = some l)
    (hcond : s.ReleasesAlone (.lock t a)) : (s.afterLock t n l).InnermostOk := by
  rw [afterLock_eq]
  cases hw : (s.lock.pcs n).awaiter with
  | none =>
    obtain ⟨q, hpcs⟩ := AsyncLock.step_pcs hw hl
    have hln : l.pcs n = q := by rw [hpcs, Function.update_self]
    have h' : { s with lock := l }.InnermostOk :=
      h.setLock hpcs fun w hn => hln ▸ quiet_lock hT h hf ha hl hcond hn
    split_ifs with hp
    · refine h'.pop hf ?_
      have hout : s.pcs n = .outside := CvPc.eq_outside_of_parked (coupled_step hT ha hw hl) hp
      exact congrArg CvPc.holds hout
    · exact h'
  | some m =>
    -- whoever retries an awaiter is not in `await_suspend`
    have hout : s.pcs n = .outside := by
      rcases mayLock_cases ha with hn | ⟨w, hn, -⟩
      · exact hn
      · cases hw.symm.trans (h.quiet n w hn)
    obtain ⟨c, q, hqa, -, -, hqpc, hln, hpcs⟩ :=
      AsyncLock.advance_awaiter hw (AsyncLock.step_awaiter hw hl)
    have h₁ : { s with lock := s.lock.setPc n q }.InnermostOk := h.setLock rfl fun w _ => hqa
    have h₂ : { s with lock := l }.InnermostOk := h₁.setLock hpcs fun w _ => rfl
    have hparked : (l.pcs n).parked = false := by
      rw [hln]
      rcases hqpc with ⟨u, -, rfl⟩ | ⟨-, rfl⟩ <;> rfl
    rw [hparked]
    refine h₂.push fun k rest' hf' => ?_
    cases hf.symm.trans hf'
    exact congrArg CvPc.holds hout

theorem innermostOk_step {mv : CvMove} (hT : s.ThreadsOk) (h : s.InnermostOk)
    (hcond : s.ReleasesAlone mv) (hs : Taken s mv s') : s'.InnermostOk := by
  cases hs with
  | lock hf ha hl => exact innermostOk_lock hT h hf ha hl hcond
  | call _ _ hpc => exact h.leave (CvPc.of_entry hpc).2
  | @acquire t n rest pc hf _ hpc =>
    have h' : (s.setPc n pc).InnermostOk := by
      refine h.goto (fun _ => ⟨t, rest, hf⟩) fun w hw => ?_
      subst hw
      cases hn : s.pcs n <;> rw [hn] at hpc <;> cases hpc
    exact ⟨h'.holds, h'.quiet⟩
  | @release t n w rest _ hf hn hl =>
    have hi := hT.lock_idle hn rfl
    have h' : (s.setPc n (.releasing w)).InnermostOk :=
      h.goto (fun _ => ⟨t, rest, hf⟩) fun w _ => by rw [hi]; rfl
    obtain ⟨q, hpcs, hq⟩ := AsyncLock.step_scopedUnlock hl
    refine h'.setLock hpcs fun w' _ => ?_
    rcases hq with rfl | rfl | rfl <;> rfl
  | @pushAwaiter _ n w _ hf =>
    have h₁ : (s.setPc n (.waiting w)).InnermostOk := h.leave rfl
    have h₂ := h₁.pop hf (by rw [setPc_pcs_self]; rfl)
    exact ⟨h₂.holds, h₂.quiet⟩
  | @unwind _ n =>
    have h' : (s.setPc n .outside).InnermostOk := h.leave rfl
    exact ⟨h'.holds, h'.quiet⟩
  | @relock _ n _ _ _ _ _ hl =>
    have h' : (s.setPc n .outside).InnermostOk := h.leave rfl
    obtain ⟨q, hpcs, hq⟩ := AsyncLock.step_scopedLock hl
    refine h'.setLock hpcs fun w' hw' => ?_
    rw [setPc_pcs_self] at hw'
    cases hw'
  | @notifyOne _ n =>
    have h' : (s.setPc n (.resumeOne (s.awaiters.popFront s.next).1)).InnermostOk := h.leave rfl
    exact ⟨h'.holds, h'.quiet⟩
  | @notifyAll _ n =>
    have h' : (s.setPc n (.resumeAll s.awaiters)).InnermostOk := h.leave rfl
    exact ⟨h'.holds, h'.quiet⟩
  | done | inline | throw => exact h.leave rfl
  | @resume _ n m w _ pc hf hn =>
    have hpc : pc.holds = false := by rcases hn with ⟨-, rfl⟩ | ⟨l, l', -, -, rfl⟩ <;> rfl
    have h' : ((s.setPc n pc).setPc m (.resumeOn w)).InnermostOk := (h.leave hpc).leave rfl
    refine h'.push fun k rest' hf' => ?_
    cases hf.symm.trans hf'
    exact not_holds_setPc rfl (by rw [setPc_pcs_self]; exact hpc)
  | @post _ n w _ hf =>
    have h' : (s.setPc n (.posted w)).InnermostOk := h.leave rfl
    exact h'.pop hf (by rw [setPc_pcs_self]; rfl)
  | @inlineLock _ _ _ _ _ _ _ hl hl' =>
    obtain ⟨c, -, rfl⟩ := AsyncLock.step_post hl
    obtain ⟨c', -, rfl⟩ := AsyncLock.step_execute (b := true) hl'
    exact h.setLock (Function.update_idem ..) fun w _ => rfl
  | @execute _ _ w invoked ht =>
    have hpc : (if invoked then CvPc.relock w else .threw .brokenTask).holds = false := by
      cases invoked <;> rfl
    exact (h.leave hpc).push fun k rest hf => not_holds_setPc hpc (hosts_not_holds ht k rest hf)
  | @executeLock _ n invoked _ ht _ hl =>
    obtain ⟨c, -, rfl⟩ := AsyncLock.step_execute hl
    have h' :
        { s with lock := s.lock.setPc n (if invoked then .granted c else .broken) }.InnermostOk :=
      h.setLock rfl fun w _ => by cases invoked <;> rfl
    exact h'.push fun k rest hf => hosts_not_holds (s := s) ht k rest hf
  | enter ht => exact h.push (hosts_not_holds ht)
  | leave hf hu => exact h.pop hf (by rw [hu.2]; rfl)

theorem innermostOk_of_reach (h : Reach step IsInitial ReleasesAlone s) : s.InnermostOk := by
  induction h with
  | start hs =>
    cases hs
    exact ⟨by simp [initial, CvPc.holds], by simp [initial]⟩
  | next hr hc hs ih =>
    exact innermostOk_step (threadsOk_of_reachable hr.reachable) ih hc (taken_of_step hs)

/-! ### No resumption under a mutex -/

theorem noReentry_of_innermostOk {xs : List ℕ} (hT : s.ThreadsOk) (hq : s.lock.ChainOk xs)
    (h : s.InnermostOk) : s.NoReentry := by
  -- a thread that holds a mutex holds it with its innermost task
  have htop : ∀ {t n k rest}, s.frames t = n :: rest → k ∈ s.frames t → OnTop s.frames k →
      k = n := by
    rintro t n k rest hf hk ⟨t', rest', hf'⟩
    obtain rfl : t = t' := hT.frames.unique t t' k hk (by rw [hf']; exact List.mem_cons_self)
    cases hf.symm.trans hf'
    rfl
  have hcv : ∀ {t n rest}, s.frames t = n :: rest → s.HoldsCvLock t → (s.pcs n).holds = true := by
    rintro t n rest hf ⟨k, hk, hlock⟩
    have hholds := (hT.mutex k).2 hlock
    rw [← htop hf hk (h.holds k hholds)]
    exact hholds
  have haw : ∀ {t n rest}, s.frames t = n :: rest → s.HoldsAwaiterLock t →
      (s.lock.pcs n).inside = true := by
    rintro t n rest hf ⟨k, hk, hlock⟩
    have hinside := (hq.mutex k).2 hlock
    rw [← htop hf hk (hT.inside k hinside)]
    exact hinside
  constructor
  case resume =>
    rintro t n rest hf ⟨m, hm | ⟨pc, hm⟩⟩
    · refine ⟨fun hl => ?_, fun hl => ?_⟩
      · have hh := hcv hf hl
        cases hn : s.pcs n with
        | outside =>
          rw [hn] at hh
          cases hh
        | releasing w => cases (h.quiet n w hn).symm.trans hm
        | _ =>
          rw [hT.lock_idle hn rfl] at hm
          cases hm
      · cases (LockPc.of_inside (haw hf hl)).2.symm.trans hm
    · have hn : (s.pcs n).holds = false ∧ s.lock.pcs n = .idle := by
        rcases hm with ⟨hn, -⟩ | ⟨l, l', hn, -⟩
        · exact ⟨by rw [hn]; rfl, hT.lock_idle hn rfl⟩
        · exact ⟨by rw [hn]; rfl, hT.lock_idle hn rfl⟩
      refine ⟨fun hl => ?_, fun hl => ?_⟩
      · cases hn.1.symm.trans (hcv hf hl)
      · have hi := haw hf hl
        rw [hn.2] at hi
        cases hi
  case cvLock =>
    intro t n rest hf ha hl
    rw [CvPc.acquires_eq_none (hcv hf hl)] at ha
    cases ha
  case awaiterLock =>
    intro t n rest hf ha hl
    cases (LockPc.of_inside (haw hf hl)).1.symm.trans ha

/-- A queued locker that `await_suspend` pops is retried under `m_lock`. -/
theorem not_noReentry_of_release {mv : CvMove} (hr : Reachable s) (hs : s.step mv = some s')
    (hrel : s.isRelease mv = true) (hhead : s.lock.awaiters.head ≠ none) : ¬ s'.NoReentry := by
  intro hno
  have hT := threadsOk_of_reachable hr
  obtain ⟨o, ho⟩ := AsyncLock.ownedBy_of_reachable (lock_reachable hr)
  cases taken_of_step hs with
  | @lock t n rest a l hf _ hl =>
    cases a with
    | advance =>
      simp only [isRelease, hf, List.head?_cons, Option.any_some, unlocksInAwait] at hrel
      split at hrel
      next w u hn hu =>
        have hw : (s.lock.pcs n).awaiter = none := by rw [hu]; rfl
        have hlocked : s.lock.locked = true :=
          ho.locked_of (g := .call n) (congrArg LockPc.holds hu)
        obtain ⟨m, hm⟩ := Option.ne_none_iff_exists'.1 hhead
        have hl : some (s.lock.unlocking n u) = some l := by
          rw [← AsyncLock.advance_of_step hl]
          simp only [AsyncLock.advance, hu]
        cases hl
        have hln : (s.lock.unlocking n u).pcs n = .retry u (some m) := by
          rw [AsyncLock.unlocking_pcs, Function.update_self, hlocked]
          simp only [Slist.popFront, hm, if_true]
          split <;> rfl
        rw [afterLock_eq, hln, hw] at hno
        refine (hno.resume t n rest hf ⟨m, .inl ?_⟩).1 ⟨n, ?_, ?_⟩
        · exact congrArg LockPc.awaiter hln
        · exact hf ▸ List.mem_cons_self
        · exact (hT.mutex n).1 (by rw [hn]; rfl)
      · cases hrel
    | _ => cases hrel
  | _ => cases hrel

/-- **No coroutine is resumed under a mutex** in a run in which `await_suspend` always unlocks the
asynchronous lock while no locker is queued: no thread that holds `m_lock` or `m_awaiter_lock`
resumes a coroutine or locks the same mutex again.  Every step outside the condition is followed by
a resumption under `m_lock`. -/
theorem no_reentry (s : CvSystem) :
    (Reach step IsInitial ReleasesAlone s → s.NoReentry) ∧
    (Reachable s → ∀ mv s', s.step mv = some s' → ¬ s.ReleasesAlone mv → ¬ s'.NoReentry) := by
  refine ⟨fun h => ?_, fun hr mv s' hs hc => ?_⟩
  · obtain ⟨xs, hq⟩ := AsyncLock.chainOk_of_reachable (lock_reachable h.reachable)
    exact noReentry_of_innermostOk (threadsOk_of_reachable h.reachable) hq (innermostOk_of_reach h)
  · obtain ⟨hrel, hhead⟩ := Classical.not_imp.1 hc
    exact not_noReentry_of_release hr hs hrel hhead

/-- A run within the condition: task 0 waits; task 1 takes the lock, notifies inside its critical
section, and task 0 is resumed on its thread, by an executor that runs it inside `post`. -/
theorem no_reentry_of_notify :
    ∃ s, Reach step IsInitial ReleasesAlone s ∧ s.frames 1 = [0, 1] ∧
      (s.lock.pcs 0).acquires = true ∧ s.NoReentry := by
  let schedule : List CvMove := lockGuard 0 0 0 ++
    [.call 0 (.await 0 true), .call 0 (.coAwait 0), .step 0, .step 0, .lock 0 .advance,
      .lock 0 .advance, .lock 0 .advance, .lock 0 .advance, .step 0] ++
    lockGuard 1 1 1 ++ [.call 1 .notifyOne, .step 1, .step 1, .step 1, .inline 1, .step 1]
  have h : Reach step IsInitial ReleasesAlone _ := .lastState (by rfl) schedule
  exact ⟨_, h, by decide +kernel, by decide +kernel, (no_reentry _).1 h⟩

/-- Task 0 owns the lock, task 1 is queued.  Task 0 waits on the condition variable: its
`await_suspend` pops task 1 and is about to `retry` it with `m_lock` held.  Task 1 runs on the
thread of task 0, its executor runs it inside `post`, and it calls `notify_one`: the thread locks
`m_lock`, which it holds. -/
theorem reentry_of_queued_locker :
    (∃ s, Reachable s ∧ s.frames 0 = [0] ∧ (s.lock.pcs 0).awaiter = some 1 ∧ s.cvLock = some 0 ∧
      ¬ s.NoReentry) ∧
    ∃ s, Reachable s ∧ s.frames 0 = [1, 0] ∧ s.pcs 1 = .enterNotifyOne ∧ s.cvLock = some 0 ∧
      ¬ s.NoReentry := by
  let release : List CvMove := lockGuard 0 0 0 ++
    [.enter 1 1, .lock 1 (.lock true), .lock 1 .advance, .lock 1 .advance,
      .call 0 (.await 0 true), .call 0 (.coAwait 0), .step 0, .step 0, .lock 0 .advance,
      .lock 0 .advance]
  let notify : List CvMove := release ++
    [.lock 0 .advance, .lock 0 .advance, .lock 0 .advance, .inline 0, .lock 0 (.finish 1),
      .call 0 .notifyOne]
  constructor
  · let s := lastState step initial release
    have hf : s.frames 0 = [0] := by decide +kernel
    have ha : (s.lock.pcs 0).awaiter = some 1 := by decide +kernel
    have hl : s.cvLock = some 0 := by decide +kernel
    refine ⟨s, .lastState (by rfl) release, hf, ha, hl, fun hno => ?_⟩
    exact (hno.resume 0 0 [] hf ⟨1, Or.inl ha⟩).1 ⟨0, by simp [hf], hl⟩
  · let s := lastState step initial notify
    have hf : s.frames 0 = [1, 0] := by decide +kernel
    have hn : s.pcs 1 = .enterNotifyOne := by decide +kernel
    have hl : s.cvLock = some 0 := by decide +kernel
    refine ⟨s, .lastState (by rfl) notify, hf, hn, hl, fun hno => ?_⟩
    exact hno.cvLock 0 1 [0] hf (by rw [hn]; rfl) ⟨0, by simp [hf], hl⟩

end CvSystem
end Concurrencpp
