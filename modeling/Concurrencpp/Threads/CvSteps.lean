import Concurrencpp.Threads.AsyncConditionVariable
import Concurrencpp.Threads.AsyncLockSteps

/-!
# What a step on the condition variable does

`Taken s m s'` lists the steps of `CvSystem.step` by what they change, each with the thread that
takes it and the conditions under which it does; `taken_of_step` says that there are no others.

* `CvPc.parked`, `CvPc.holds`, `CvPc.acquires`: what a program point says about the thread and
  `m_lock`.
* `lock_reachable`: the lock inside the system takes the steps of `AsyncLock.step` only.
-/

namespace Concurrencpp

/-- The coroutine is suspended in the lock or in its resume executor. -/
def LockPc.parked : LockPc → Bool
  | .suspended _ | .posted _ => true
  | _ => false

theorem LockPc.parked_of_isSuspended {pc : LockPc} (h : pc.isSuspended = true) :
    pc.parked = true := by
  cases pc <;> first | rfl | cases h

/-- The coroutine is suspended in the condition variable or in its resume executor. -/
def CvPc.parked : CvPc → Bool
  | .waiting _ | .posted _ => true
  | _ => false

/-- The task holds `m_lock` of the condition variable. -/
def CvPc.holds : CvPc → Bool
  | .release _ | .releasing _ | .notifyOne | .notifyAll => true
  | _ => false

/-- The critical section that the task is about to enter. -/
def CvPc.acquires : CvPc → Option CvPc
  | .enterAwait w => some (.release w)
  | .enterNotifyOne => some .notifyOne
  | .enterNotifyAll => some .notifyAll
  | _ => none

/-- A program point behind a call from user code. -/
def CvPc.entry : CvPc → Bool
  | .outside | .enterAwait _ | .enterNotifyOne | .enterNotifyAll | .threw _ => true
  | _ => false

/-- The thread that takes the step. -/
def CvMove.thread : CvMove → ℕ
  | .lock t _ | .call t _ | .step t | .post t | .inline t | .throw t | .execute t _ _ | .enter t _
  | .leave t => t

theorem CvPc.of_entry {pc : CvPc} (h : pc.entry = true) : pc.parked = false ∧ pc.holds = false := by
  cases pc <;> first | exact ⟨rfl, rfl⟩ | cases h

theorem CvPc.of_acquires {pc pc' : CvPc} (h : pc.acquires = some pc') :
    pc'.parked = false ∧ pc'.holds = true := by
  cases pc <;> cases h <;> exact ⟨rfl, rfl⟩

namespace CvSystem

variable {s s' : CvSystem} {t n : ℕ}

@[simp] theorem setPc_pcs_self {pc : CvPc} : (s.setPc n pc).pcs n = pc := Function.update_self ..

theorem setPc_pcs_of_ne {pc : CvPc} {k : ℕ} (hk : k ≠ n) : (s.setPc n pc).pcs k = s.pcs k :=
  Function.update_of_ne hk ..

/-- The task takes `m` out of the awaiters that it has dequeued; it is at `pc` then. -/
def Takes (s : CvSystem) (n m : ℕ) (pc : CvPc) : Prop :=
  (s.pcs n = .resumeOne (some m) ∧ pc = .outside) ∨
  ∃ l l', s.pcs n = .resumeAll l ∧ l.popFront s.next = (some m, l') ∧ pc = .resumeAll l'

/-- The task returns from the condition variable. -/
def Returns (s : CvSystem) (n : ℕ) : Prop :=
  s.pcs n = .resumeOne none ∨ (∃ e, s.pcs n = .threw e) ∨
  ∃ l, s.pcs n = .resumeAll l ∧ (l.popFront s.next).1 = none

/-- The steps of the system. -/
inductive Taken (s : CvSystem) : CvMove → CvSystem → Prop
  | lock {t n : ℕ} {rest : List ℕ} {a : LockAction} {l : AsyncLock} (hf : s.frames t = n :: rest)
      (ha : s.mayLock n a = true) (hl : s.lock.step (n, a) = some l) :
      Taken s (.lock t a) (s.afterLock t n l)
  | call {t n : ℕ} {rest : List ℕ} {c : CvCall} {pc : CvPc} (hf : s.frames t = n :: rest)
      (hu : s.UserCode n) (hpc : pc.entry = true) : Taken s (.call t c) (s.setPc n pc)
  | acquire {t n : ℕ} {rest : List ℕ} {pc : CvPc} (hf : s.frames t = n :: rest)
      (hfree : s.cvLock = none) (hpc : (s.pcs n).acquires = some pc) :
      Taken s (.step t) { s.setPc n pc with cvLock := some n }
  | release {t n w : ℕ} {rest : List ℕ} {l : AsyncLock} (hf : s.frames t = n :: rest)
      (hn : s.pcs n = .release w) (hl : s.lock.step (n, .scopedUnlock w) = some l) :
      Taken s (.step t) { s.setPc n (.releasing w) with lock := l }
  | pushAwaiter {t n w : ℕ} {rest : List ℕ} (hf : s.frames t = n :: rest)
      (hn : s.pcs n = .releasing w) (hi : s.lock.pcs n = .idle) :
      Taken s (.step t) (s.pushAwaiter t n w)
  | unwind {t n w : ℕ} {rest : List ℕ} {e : LockError} (hf : s.frames t = n :: rest)
      (hn : s.pcs n = .releasing w) (he : s.lock.pcs n = .threw e) :
      Taken s (.step t) { s.setPc n .outside with cvLock := none }
  | relock {t n w : ℕ} {rest : List ℕ} {l : AsyncLock} (hf : s.frames t = n :: rest)
      (hn : s.pcs n = .relock w) (hl : s.lock.step (n, .scopedLock w true) = some l) :
      Taken s (.step t) { s.setPc n .outside with lock := l }
  | notifyOne {t n : ℕ} {rest : List ℕ} (hf : s.frames t = n :: rest) (hn : s.pcs n = .notifyOne) :
      Taken s (.step t) (s.notifyOne n)
  | notifyAll {t n : ℕ} {rest : List ℕ} (hf : s.frames t = n :: rest) (hn : s.pcs n = .notifyAll) :
      Taken s (.step t) (s.notifyAll n)
  | done {t n : ℕ} {rest : List ℕ} (hf : s.frames t = n :: rest) (hn : s.Returns n) :
      Taken s (.step t) (s.setPc n .outside)
  | resume {t n m w : ℕ} {rest : List ℕ} {pc : CvPc} (hf : s.frames t = n :: rest)
      (hn : s.Takes n m pc) (hm : (s.setPc n pc).pcs m = .waiting w) :
      Taken s (.step t) (((s.setPc n pc).setPc m (.resumeOn w)).push t m)
  | post {t n w : ℕ} {rest : List ℕ} (hf : s.frames t = n :: rest) (hn : s.pcs n = .resumeOn w) :
      Taken s (.post t) ((s.setPc n (.posted w)).pop t n)
  | inline {t n w : ℕ} {rest : List ℕ} (hf : s.frames t = n :: rest) (hn : s.pcs n = .resumeOn w) :
      Taken s (.inline t) (s.setPc n (.relock w))
  | inlineLock {t n : ℕ} {rest : List ℕ} {l l' : AsyncLock} (hf : s.frames t = n :: rest)
      (hn : s.pcs n = .outside) (hl : s.lock.step (n, .post) = some l)
      (hl' : l.step (n, .run) = some l') : Taken s (.inline t) { s with lock := l' }
  | throw {t n w : ℕ} {rest : List ℕ} (hf : s.frames t = n :: rest) (hn : s.pcs n = .resumeOn w) :
      Taken s (.throw t) (s.setPc n (.threw .brokenTask))
  | execute {t n w : ℕ} {invoked : Bool} (ht : s.hosts t = true) (hn : s.pcs n = .posted w) :
      Taken s (.execute t n invoked)
        ((s.setPc n (if invoked then .relock w else .threw .brokenTask)).push t n)
  | executeLock {t n : ℕ} {invoked : Bool} {l : AsyncLock} (ht : s.hosts t = true)
      (hn : s.pcs n = .outside)
      (hl : s.lock.step (n, if invoked then .run else .drop) = some l) :
      Taken s (.execute t n invoked) ({ s with lock := l }.push t n)
  | enter {t n : ℕ} (ht : s.hosts t = true) (hu : s.UserCode n) (hr : s.running n = false) :
      Taken s (.enter t n) (s.push t n)
  | leave {t n : ℕ} {rest : List ℕ} (hf : s.frames t = n :: rest) (hu : s.UserCode n) :
      Taken s (.leave t) (s.pop t n)

theorem ofTop_eq_some {f : ℕ → Option CvSystem} (hs : s.ofTop t f = some s') :
    ∃ n rest, s.frames t = n :: rest ∧ f n = some s' := by
  unfold ofTop at hs
  split at hs
  · cases hs
  next n rest hf => exact ⟨n, rest, hf, hs⟩

theorem lockMutex_eq_some {pc : CvPc} (hs : s.lockMutex n pc = some s') :
    s.cvLock = none ∧ s' = { s.setPc n pc with cvLock := some n } := by
  unfold lockMutex at hs
  split at hs
  next hfree => exact ⟨hfree, (Option.some.inj hs).symm⟩
  · cases hs

theorem resume_eq_some {m : ℕ} (hs : s.resume t m = some s') :
    ∃ w, s.pcs m = .waiting w ∧ s' = (s.setPc m (.resumeOn w)).push t m := by
  unfold resume at hs
  split at hs
  next w hm => exact ⟨w, hm, (Option.some.inj hs).symm⟩
  · cases hs

theorem taken_of_nextStep {rest : List ℕ} (hf : s.frames t = n :: rest)
    (hs : s.nextStep t n = some s') : Taken s (.step t) s' := by
  unfold nextStep at hs
  cases hn : s.pcs n <;> simp only [hn] at hs
  case outside | waiting | resumeOn | posted => cases hs
  case enterAwait | enterNotifyOne | enterNotifyAll =>
    obtain ⟨hfree, rfl⟩ := lockMutex_eq_some hs
    exact .acquire hf hfree (by rw [hn]; rfl)
  case release =>
    obtain ⟨l, hl, rfl⟩ := Option.map_eq_some_iff.1 hs
    exact .release hf hn hl
  case releasing =>
    cases hi : s.lock.pcs n with
    | idle =>
      simp only [hi] at hs
      cases hs
      exact .pushAwaiter hf hn hi
    | threw =>
      simp only [hi] at hs
      cases hs
      exact .unwind hf hn hi
    | _ => simp only [hi] at hs; cases hs
  case relock =>
    obtain ⟨l, hl, rfl⟩ := Option.map_eq_some_iff.1 hs
    exact .relock hf hn hl
  case notifyOne =>
    cases hs
    exact .notifyOne hf hn
  case notifyAll =>
    cases hs
    exact .notifyAll hf hn
  case resumeOne a =>
    cases a with
    | none =>
      simp only at hs
      cases hs
      exact .done hf (.inl hn)
    | some =>
      simp only at hs
      obtain ⟨w, hm, rfl⟩ := resume_eq_some hs
      exact .resume hf (.inl ⟨hn, rfl⟩) hm
  case resumeAll l =>
    simp only [resumeAll] at hs
    split at hs
    next l' hp =>
      cases hs
      exact .done hf (.inr (.inr ⟨l, hn, by rw [hp]⟩))
    next m l' hp =>
      obtain ⟨w, hm, rfl⟩ := resume_eq_some hs
      exact .resume hf (.inr ⟨l, l', hn, hp, rfl⟩) hm
  case threw e =>
    cases hs
    exact .done hf (.inr (.inl ⟨e, hn⟩))

theorem taken_of_call {rest : List ℕ} {c : CvCall} (hf : s.frames t = n :: rest) (hu : s.UserCode n)
    (hs : s.call n c = some s') : Taken s (.call t c) s' := by
  cases c with
  | await =>
    obtain ⟨x, -, rfl⟩ := Option.map_eq_some_iff.1 hs
    refine .call hf hu ?_
    unfold verifyAwaitParams
    split_ifs <;> rfl
  | _ =>
    cases hs
    exact .call hf hu rfl

/-- There are no other steps. -/
theorem taken_of_step {m : CvMove} (hs : s.step m = some s') : Taken s m s' := by
  cases m with
  | lock =>
    obtain ⟨n, rest, hf, hs⟩ := ofTop_eq_some hs
    unfold lockStep at hs
    split_ifs at hs with ha
    obtain ⟨l, hl, rfl⟩ := Option.map_eq_some_iff.1 hs
    exact .lock hf ha hl
  | call =>
    obtain ⟨n, rest, hf, hs⟩ := ofTop_eq_some hs
    split_ifs at hs with hu
    exact taken_of_call hf hu hs
  | step =>
    obtain ⟨n, rest, hf, hs⟩ := ofTop_eq_some hs
    exact taken_of_nextStep hf hs
  | post =>
    obtain ⟨n, rest, hf, hs⟩ := ofTop_eq_some hs
    simp only [post] at hs
    split at hs
    next w hn =>
      cases hs
      exact .post hf hn
    · cases hs
  | inline =>
    obtain ⟨n, rest, hf, hs⟩ := ofTop_eq_some hs
    simp only [inline] at hs
    split at hs
    next w hn =>
      cases hs
      exact .inline hf hn
    next hn =>
      obtain ⟨l', hl, rfl⟩ := Option.map_eq_some_iff.1 hs
      obtain ⟨l, hl, hl'⟩ := Option.bind_eq_some_iff.1 hl
      exact .inlineLock hf hn hl hl'
    · cases hs
  | throw =>
    obtain ⟨n, rest, hf, hs⟩ := ofTop_eq_some hs
    simp only [throw] at hs
    split at hs
    next w hn =>
      cases hs
      exact .throw hf hn
    · cases hs
  | execute =>
    simp only [step] at hs
    split_ifs at hs with ht
    simp only [execute] at hs
    split at hs
    next w hn =>
      cases hs
      exact .execute ht hn
    next hn =>
      obtain ⟨l, hl, rfl⟩ := Option.map_eq_some_iff.1 hs
      exact .executeLock ht hn hl
    · cases hs
  | enter =>
    simp only [step] at hs
    split_ifs at hs with h
    cases hs
    exact .enter h.1 h.2.1 h.2.2
  | leave =>
    obtain ⟨n, rest, hf, hs⟩ := ofTop_eq_some hs
    split_ifs at hs with hu
    cases hs
    exact .leave hf hu

/-! ### The lock inside the system -/

theorem afterLock_eq {l : AsyncLock} : s.afterLock t n l =
    if (l.pcs n).parked then { s with lock := l }.pop t n
    else (s.lock.pcs n).awaiter.elim { s with lock := l } ({ s with lock := l }.push t) := by
  unfold afterLock
  cases l.pcs n with
  | suspended | posted => rfl
  | _ =>
    cases s.lock.pcs n with
    | retry _ a | rethrow a => cases a <;> rfl
    | _ => rfl

/-- A step on the lock leaves the condition variable as it is. -/
theorem afterLock_frame {l : AsyncLock} : (s.afterLock t n l).pcs = s.pcs ∧
    (s.afterLock t n l).next = s.next ∧ (s.afterLock t n l).awaiters = s.awaiters ∧
    (s.afterLock t n l).arrivals = s.arrivals ∧ (s.afterLock t n l).departed = s.departed ∧
    (s.afterLock t n l).cvLock = s.cvLock := by
  unfold afterLock
  split
  · exact ⟨rfl, rfl, rfl, rfl, rfl, rfl⟩
  · exact ⟨rfl, rfl, rfl, rfl, rfl, rfl⟩
  · split <;> exact ⟨rfl, rfl, rfl, rfl, rfl, rfl⟩

@[simp] theorem afterLock_lock {l : AsyncLock} : (s.afterLock t n l).lock = l := by
  unfold afterLock
  split
  · rfl
  · rfl
  · split <;> rfl

theorem lock_reachable (h : Reachable s) : s.lock.Reachable := by
  induction h with
  | start hs =>
    cases hs
    exact .start rfl
  | next _ _ hs ih =>
    cases taken_of_step hs with
    | lock _ _ hl =>
      rw [afterLock_lock]
      exact ih.next trivial hl
    | release _ _ hl | relock _ _ hl | executeLock _ _ hl => exact ih.next trivial hl
    | inlineLock _ _ hl hl' => exact (ih.next trivial hl).next trivial hl'
    | _ => exact ih

end CvSystem
end Concurrencpp
