import Concurrencpp.Threads.AsyncLock

/-!
# What a step on the asynchronous lock does

* `LockPc.isSuspended`, `LockPc.awaiter`, `LockPc.retrying`, `LockPc.inside`, `LockPc.releases`:
  what a program point says about the queue, the mutex and the wrappers.
* `AsyncLock.step_cases`, `AsyncLock.callOf`: the kinds of steps, and of calls.
* `AsyncLock.step_pcs`, `AsyncLock.advance_awaiter`: a step moves its own task, and the awaiter that
  it retries.
-/

namespace Concurrencpp

open Function (update update_self update_of_ne update_eq_self)

/-- The coroutine is suspended in `co_await async_lock_awaiter`. -/
def LockPc.isSuspended : LockPc → Bool
  | .suspended _ => true
  | _ => false

/-- The awaiter that the task has popped and is about to `retry`. -/
def LockPc.awaiter : LockPc → Option ℕ
  | .retry _ a | .rethrow a => a
  | _ => none

/-- The locker has been resumed by `retry` and has not yet made its next attempt. -/
def LockPc.retrying : LockPc → Bool
  | .loop _ false | .attempt _ false => true
  | _ => false

/-- The task holds `m_awaiter_lock`. -/
def LockPc.inside : LockPc → Bool
  | .attempt _ _ | .giveBack | .tryAttempt _ | .unlocking _ => true
  | _ => false

/-- The wrapper of a call of `async_lock::unlock`. -/
def Unlocker.wrapper : Unlocker → Option ℕ
  | .direct => none
  | .ofScoped w | .ofDestructor w => some w

/-- The wrapper on which the task is inside `scoped_async_lock::unlock` or the destructor. -/
def LockPc.releases : LockPc → Option ℕ
  | .unlock u | .unlocking u | .retry u _ | .unlocked u => u.wrapper
  | _ => none

theorem LockPc.awaiter_eq_none {pc : LockPc} (h : pc.isSuspended = true) : pc.awaiter = none := by
  cases pc <;> first | rfl | cases h

namespace AsyncLock

variable {s t : AsyncLock} {n w : ℕ} {pc : LockPc}

theorem wrapper_eq_some {x : ScopedLock} :
    s.wrapper w = some x ↔ s.wrappers w = some x ∧ s.releasing w = none := by
  unfold wrapper
  cases hr : s.releasing w <;> simp

variable {a : LockAction}

theorem step_eq_some :
    s.step (n, a) = some t ↔ s.Undisturbed (n, a) ∧ s.codeStep (n, a) = some t := by
  simp [step, Interleaving.restrict]

theorem Undisturbed.touched (h : s.Undisturbed (n, a)) (hw : w ∈ a.wrappers) :
    s.releasing w = none :=
  h w (List.mem_append_left _ hw)

theorem Undisturbed.stored (h : s.Undisturbed (n, a)) (hw : (s.pcs n).stores = some w) :
    s.releasing w = none :=
  h w (List.mem_append_right _ (by simp [hw]))

theorem advance_of_step (hs : s.step (n, .advance) = some t) : s.advance n = some t :=
  (step_eq_some.1 hs).2

/-- A step that has no wrapper to touch. -/
theorem step_of_codeStep (ha : a.wrappers = []) (hpc : (s.pcs n).stores = none)
    (hs : s.codeStep (n, a) = some t) : s.step (n, a) = some t :=
  step_eq_some.2 ⟨by simp [Undisturbed, ha, hpc], hs⟩

theorem post_eq_some {b : Bool} (hs : s.post n b = some t) :
    ∃ c, s.pcs n = .resumeOn c ∧ t = s.setPc n (if b then .posted c else .broken) := by
  unfold post at hs
  split at hs
  next c hn => exact ⟨c, hn, (Option.some.inj hs).symm⟩
  · cases hs

theorem execute_eq_some {b : Bool} (hs : s.execute n b = some t) :
    ∃ c, s.pcs n = .posted c ∧ t = s.setPc n (if b then .granted c else .broken) := by
  unfold execute at hs
  split at hs
  next c hn => exact ⟨c, hn, (Option.some.inj hs).symm⟩
  · cases hs

/-- What a step can be: a call from user code, the next step of a function, the return of a guard,
or a step of the resume executor. -/
theorem step_cases (hs : s.step (n, a) = some t) :
    (s.pcs n = .idle ∧ s.call n a = some t) ∨ (a = .advance ∧ s.advance n = some t) ∨
    (∃ w, a = .finish w ∧ s.pcs n = .granted .direct ∧ s.vacant w ∧
      t = (s.setPc n .idle).setWrapper w (some ⟨true, true⟩)) ∨
    (∃ c, s.pcs n = .resumeOn c ∧ (a = .post ∧ t = s.setPc n (.posted c) ∨
      a = .throw ∧ t = s.setPc n .broken)) ∨
    (∃ c, s.pcs n = .posted c ∧ (a = .run ∧ t = s.setPc n (.granted c) ∨
      a = .drop ∧ t = s.setPc n .broken)) := by
  replace hs := (step_eq_some.1 hs).2
  have hcall : (if s.pcs n = .idle then s.call n a else none) = some t →
      s.pcs n = .idle ∧ s.call n a = some t := by
    intro hs
    split_ifs at hs with hn
    exact ⟨hn, hs⟩
  cases a with
  | advance => exact .inr (.inl ⟨rfl, hs⟩)
  | finish w =>
    simp only [codeStep, finish] at hs
    split at hs
    next hn =>
      split_ifs at hs with hv
      cases hs
      exact .inr (.inr (.inl ⟨w, rfl, hn, hv, rfl⟩))
    · cases hs
  | post =>
    obtain ⟨c, hn, rfl⟩ := post_eq_some hs
    exact .inr (.inr (.inr (.inl ⟨c, hn, .inl ⟨rfl, rfl⟩⟩)))
  | throw =>
    obtain ⟨c, hn, rfl⟩ := post_eq_some hs
    exact .inr (.inr (.inr (.inl ⟨c, hn, .inr ⟨rfl, rfl⟩⟩)))
  | run =>
    obtain ⟨c, hn, rfl⟩ := execute_eq_some hs
    exact .inr (.inr (.inr (.inr ⟨c, hn, .inl ⟨rfl, rfl⟩⟩)))
  | drop =>
    obtain ⟨c, hn, rfl⟩ := execute_eq_some hs
    exact .inr (.inr (.inr (.inr ⟨c, hn, .inr ⟨rfl, rfl⟩⟩)))
  | _ => exact .inl (hcall hs)

/-- What a call from user code does: it enters a function or throws, takes one of the grants outside
the wrappers, starts to unlock a wrapper, or has done with the wrappers at once. -/
inductive CallOf (s : AsyncLock) (n : ℕ) : LockAction → AsyncLock → Prop
  | enter {a : LockAction} {pc : LockPc} :
      (∃ e, pc = .threw e) ∨ (∃ c, pc = .loop c true) ∨ (∃ c, pc = .tryLock c) →
      CallOf s n a (s.setPc n pc)
  | unlock : 0 < s.raw → CallOf s n .unlock { s.setPc n (.unlock .direct) with raw := s.raw - 1 }
  | startRelease {a : LockAction} {u : Unlocker} {w : ℕ} : u.wrapper = some w → w ∈ a.wrappers →
      s.wrappers w = some ⟨true, true⟩ →
      CallOf s n a ((s.setPc n (.unlock u)).setReleasing w (some n))
  | nothing {w : ℕ} : CallOf s n (.scopedUnlock w) s
  | destroy {w : ℕ} {x : ScopedLock} : s.wrappers w = some x → x ≠ ⟨true, true⟩ →
      CallOf s n (.destroy w) (s.setWrapper w none)
  | construct {a : LockAction} {w : ℕ} {x : ScopedLock} :
      w ∈ a.wrappers → s.vacant w → x.owns = false → CallOf s n a (s.setWrapper w (some x))
  | adoptLock {w : ℕ} : s.vacant w → 0 < s.raw →
      CallOf s n (.adoptLock w) { s.setWrapper w (some ⟨true, true⟩) with raw := s.raw - 1 }
  | exchange {a : LockAction} {w w' : ℕ} {x y : ScopedLock} : w ∈ a.wrappers → w' ∈ a.wrappers →
      s.wrappers w = some x → s.vacant w' ∧ y = ⟨false, false⟩ ∨ s.wrappers w' = some y →
      CallOf s n a ((s.setWrapper w (some y)).setWrapper w' (some x))
  | release {w : ℕ} {x : ScopedLock} : s.wrappers w = some x →
      CallOf s n (.release w) ((s.setWrapper w (some ⟨false, false⟩)).addRaw (x.owns && x.lock))

theorem callOf (hs : s.call n a = some t) : CallOf s n a t := by
  cases a with
  | lock executor =>
    cases hs
    cases executor with
    | false => exact .enter (.inl ⟨_, rfl⟩)
    | true => exact .enter (.inr (.inl ⟨_, rfl⟩))
  | tryLock =>
    cases hs
    exact .enter (.inr (.inr ⟨_, rfl⟩))
  | unlock =>
    simp only [call] at hs
    split_ifs at hs with hr
    cases hs
    exact .unlock hr
  | scopedLock =>
    obtain ⟨x, -, rfl⟩ := Option.map_eq_some_iff.1 hs
    refine .enter ?_
    unfold scopedLock
    split_ifs <;> simp
  | scopedTryLock =>
    obtain ⟨x, -, rfl⟩ := Option.map_eq_some_iff.1 hs
    refine .enter ?_
    unfold scopedTryLock
    split_ifs <;> simp
  | scopedUnlock =>
    obtain ⟨⟨lock, owns⟩, hx, rfl⟩ := Option.map_eq_some_iff.1 hs
    cases owns with
    | false => exact .enter (.inl ⟨_, rfl⟩)
    | true =>
      cases lock with
      | false => exact .nothing
      | true => exact .startRelease rfl List.mem_cons_self hx
  | destroy =>
    obtain ⟨⟨lock, owns⟩, hx, rfl⟩ := Option.map_eq_some_iff.1 hs
    unfold destroy
    split_ifs with howns
    · obtain ⟨rfl, rfl⟩ : owns = true ∧ lock = true := by simpa using howns
      exact .startRelease rfl List.mem_cons_self hx
    · refine .destroy hx ?_
      rintro ⟨rfl, rfl⟩
      exact howns rfl
  | construct | deferLock =>
    simp only [call] at hs
    split_ifs at hs with hv
    cases hs
    exact .construct List.mem_cons_self hv rfl
  | adoptLock =>
    simp only [call] at hs
    split_ifs at hs with hv
    cases hs
    exact .adoptLock hv.1 hv.2
  | move =>
    simp only [call] at hs
    split_ifs at hs with hv
    obtain ⟨x, hx, rfl⟩ := Option.map_eq_some_iff.1 hs
    exact .exchange List.mem_cons_self (by simp [LockAction.wrappers]) hx (.inl ⟨hv, rfl⟩)
  | swap =>
    obtain ⟨x, hx, hs⟩ := Option.bind_eq_some_iff.1 hs
    obtain ⟨y, hy, rfl⟩ := Option.map_eq_some_iff.1 hs
    exact .exchange List.mem_cons_self (by simp [LockAction.wrappers]) hx (.inr hy)
  | release =>
    obtain ⟨x, hx, rfl⟩ := Option.map_eq_some_iff.1 hs
    exact .release hx
  | _ => cases hs

theorem advance_idle (hn : s.pcs n = .idle) : s.advance n = none := by
  simp only [advance, hn]

/-- The next step of a function, by where its task stands. -/
inductive Advance (s : AsyncLock) (n : ℕ) : AsyncLock → Prop
  | loop {t : AsyncLock} {c : LockCaller} {first : Bool} (hn : s.pcs n = .loop c first)
      (hs : s.lockMutex n (.attempt c first) = some t) : Advance s n t
  | attempt {c : LockCaller} {first : Bool} (hn : s.pcs n = .attempt c first) :
      Advance s n (s.attempt n c first)
  | broken {t : AsyncLock} (hn : s.pcs n = .broken) (hs : s.lockMutex n .giveBack = some t) :
      Advance s n t
  | giveBack (hn : s.pcs n = .giveBack) : Advance s n (s.handOver n .rethrow)
  | rethrow {t : AsyncLock} {m : ℕ} (hn : s.pcs n = .rethrow (some m))
      (hs : (s.setPc n (.rethrow none)).resume m = some t) : Advance s n t
  | rethrown (hn : s.pcs n = .rethrow none) : Advance s n (s.setPc n (.threw .brokenTask))
  | granted {w : ℕ} (hn : s.pcs n = .granted (.ofScoped w)) :
      Advance s n ((s.setPc n .idle).setOwns w true)
  | tryLock {t : AsyncLock} {c : LockCaller} (hn : s.pcs n = .tryLock c)
      (hs : s.lockMutex n (.tryAttempt c) = some t) : Advance s n t
  | tryAttempt {c : LockCaller} (hn : s.pcs n = .tryAttempt c) : Advance s n (s.tryAttempt n c)
  | tried {res : Bool} (hn : s.pcs n = .tried .direct res) :
      Advance s n ((s.setPc n .idle).addRaw res)
  | triedScoped {w : ℕ} {res : Bool} (hn : s.pcs n = .tried (.ofScoped w) res) :
      Advance s n ((s.setPc n .idle).setOwns w res)
  | unlock {t : AsyncLock} {u : Unlocker} (hn : s.pcs n = .unlock u)
      (hs : s.lockMutex n (.unlocking u) = some t) : Advance s n t
  | unlocking {u : Unlocker} (hn : s.pcs n = .unlocking u) : Advance s n (s.unlocking n u)
  | retry {t : AsyncLock} {u : Unlocker} {m : ℕ} (hn : s.pcs n = .retry u (some m))
      (hs : (s.setPc n (.unlocked u)).resume m = some t) : Advance s n t
  | retried {u : Unlocker} (hn : s.pcs n = .retry u none) : Advance s n (s.setPc n (.unlocked u))
  | unlocked {u : Unlocker} (hn : s.pcs n = .unlocked u) : Advance s n (s.unlocked n u)
  | threw {e : LockError} (hn : s.pcs n = .threw e) : Advance s n (s.setPc n .idle)

theorem advance_cases (hs : s.advance n = some t) : Advance s n t := by
  unfold advance at hs
  split at hs
  any_goals cases hs
  exacts [.loop ‹_› hs, .attempt ‹_›, .broken ‹_› hs, .giveBack ‹_›, .rethrow ‹_› hs, .rethrown ‹_›,
    .granted ‹_›, .tryLock ‹_› hs, .tryAttempt ‹_›, .tried ‹_›, .triedScoped ‹_›, .unlock ‹_› hs,
    .unlocking ‹_›, .retry ‹_› hs, .retried ‹_›, .unlocked ‹_›, .threw ‹_›]

/-! ### The program points behind a step -/

theorem lockMutex_pcs (hs : s.lockMutex n pc = some t) : t.pcs = update s.pcs n pc := by
  unfold lockMutex at hs
  split at hs
  · cases hs
    rfl
  · cases hs

theorem resume_eq_some {m : ℕ} (hs : s.resume m = some t) :
    ∃ c, s.pcs m = .suspended c ∧ t = s.setPc m (.loop c false) := by
  unfold resume at hs
  split at hs
  next c hm => exact ⟨c, hm, (Option.some.inj hs).symm⟩
  · cases hs

theorem setOwns_pcs {b : Bool} : (s.setOwns w b).pcs = s.pcs := by
  unfold setOwns
  split <;> rfl

theorem unlocked_pcs {u : Unlocker} : (s.unlocked n u).pcs = update s.pcs n .idle := by
  cases u <;> rfl

theorem unlocking_pcs {u : Unlocker} : (s.unlocking n u).pcs = update s.pcs n
    (if s.locked then .retry u (s.awaiters.popFront s.next).1 else .threw .unlockInvalidLock) := by
  unfold unlocking
  cases s.locked with
  | true => rfl
  | false => cases u <;> rfl

/-- A task that retries an awaiter moves this one and itself. -/
theorem advance_awaiter {m : ℕ} (ha : (s.pcs n).awaiter = some m) (hs : s.advance n = some t) :
    ∃ c pc, pc.awaiter = none ∧ n ≠ m ∧ s.pcs m = .suspended c ∧
      ((∃ u, s.pcs n = .retry u (some m) ∧ pc = .unlocked u) ∨
        (s.pcs n = .rethrow (some m) ∧ pc = .rethrow none)) ∧
      t.pcs n = pc ∧ t.pcs = update (update s.pcs n pc) m (.loop c false) := by
  obtain ⟨pc, hpc, hs⟩ : ∃ pc, ((∃ u, s.pcs n = .retry u (some m) ∧ pc = .unlocked u) ∨
      s.pcs n = .rethrow (some m) ∧ pc = .rethrow none) ∧ (s.setPc n pc).resume m = some t := by
    cases advance_cases hs with
    | retry hn hs =>
      rw [hn] at ha
      cases ha
      exact ⟨_, .inl ⟨_, hn, rfl⟩, hs⟩
    | rethrow hn hs =>
      rw [hn] at ha
      cases ha
      exact ⟨_, .inr ⟨hn, rfl⟩, hs⟩
    | loop hn | attempt hn | broken hn | giveBack hn | rethrown hn | granted hn | tryLock hn
    | tryAttempt hn | tried hn | triedScoped hn | unlock hn | unlocking hn | retried hn
    | unlocked hn | threw hn =>
      rw [hn] at ha
      cases ha
  obtain ⟨c, hm, rfl⟩ := resume_eq_some hs
  have hnm : n ≠ m := by
    rintro rfl
    rw [show (s.setPc n pc).pcs n = pc from update_self ..] at hm
    rcases hpc with ⟨u, -, rfl⟩ | ⟨-, rfl⟩ <;> cases hm
  refine ⟨c, pc, ?_, hnm, (update_of_ne hnm.symm ..).symm.trans hm, hpc, ?_, rfl⟩
  · rcases hpc with ⟨u, -, rfl⟩ | ⟨-, rfl⟩ <;> rfl
  · exact (update_of_ne hnm ..).trans (update_self ..)

/-- Every other step moves its own task only. -/
theorem advance_pcs (ha : (s.pcs n).awaiter = none) (hs : s.advance n = some t) :
    ∃ pc, t.pcs = update s.pcs n pc := by
  cases advance_cases hs with
  | loop _ hs | broken _ hs | tryLock _ hs | unlock _ hs => exact ⟨_, lockMutex_pcs hs⟩
  | attempt =>
    unfold attempt
    split <;> exact ⟨_, rfl⟩
  | rethrow hn | retry hn =>
    rw [hn] at ha
    cases ha
  | granted | triedScoped => exact ⟨_, setOwns_pcs⟩
  | unlocking => exact ⟨_, unlocking_pcs⟩
  | unlocked => exact ⟨_, unlocked_pcs⟩
  | _ => exact ⟨_, rfl⟩

theorem CallOf.pcs (h : CallOf s n a t) : ∃ pc, t.pcs = update s.pcs n pc := by
  have hself : s.pcs = update s.pcs n (s.pcs n) := (update_eq_self ..).symm
  cases h with
  | enter | unlock | startRelease => exact ⟨_, rfl⟩
  | _ => exact ⟨_, hself⟩

theorem step_pcs (ha : (s.pcs n).awaiter = none) (hs : s.step (n, a) = some t) :
    ∃ pc, t.pcs = update s.pcs n pc := by
  obtain ⟨-, hs⟩ | ⟨-, hs⟩ | ⟨w, -, -, -, rfl⟩ | ⟨c, -, ⟨-, rfl⟩ | ⟨-, rfl⟩⟩ |
    ⟨c, -, ⟨-, rfl⟩ | ⟨-, rfl⟩⟩ := step_cases hs
  · exact (callOf hs).pcs
  · exact advance_pcs ha hs
  all_goals exact ⟨_, rfl⟩

theorem step_awaiter {m : ℕ} (ha : (s.pcs n).awaiter = some m) (hs : s.step (n, a) = some t) :
    s.advance n = some t := by
  obtain ⟨hn, hs⟩ | ⟨-, hs⟩ | ⟨w, -, hn, -, rfl⟩ | ⟨c, hn, -⟩ | ⟨c, hn, -⟩ := step_cases hs
  · rw [hn] at ha
    cases ha
  · exact hs
  all_goals
    rw [hn] at ha
    cases ha

/-! ### Single actions -/

/-- `scoped_async_lock::unlock` throws, does nothing, or calls `async_lock::unlock`. -/
theorem step_scopedUnlock (hs : s.step (n, .scopedUnlock w) = some t) :
    ∃ pc, t.pcs = update s.pcs n pc ∧
      (pc = .threw .scopedUnlockInvalidLock ∨ pc = .unlock (.ofScoped w) ∨ pc = .idle) := by
  simp only [step_eq_some, codeStep] at hs
  obtain ⟨-, hs⟩ := hs
  split_ifs at hs with hn
  obtain ⟨x, -, rfl⟩ := Option.map_eq_some_iff.1 hs
  unfold scopedUnlock
  split_ifs
  · exact ⟨_, rfl, .inl rfl⟩
  · exact ⟨_, rfl, .inr (.inl rfl)⟩
  · refine ⟨.idle, ?_, .inr (.inr rfl)⟩
    rw [← hn, update_eq_self]

theorem step_scopedLock {executor : Bool} (hs : s.step (n, .scopedLock w executor) = some t) :
    ∃ pc, t.pcs = update s.pcs n pc ∧ ((∃ e, pc = .threw e) ∨ pc = .loop (.ofScoped w) true) := by
  simp only [step_eq_some, codeStep] at hs
  obtain ⟨-, hs⟩ := hs
  split_ifs at hs
  obtain ⟨x, -, rfl⟩ := Option.map_eq_some_iff.1 hs
  refine ⟨scopedLock x w executor, rfl, ?_⟩
  unfold scopedLock
  split_ifs
  · exact .inl ⟨_, rfl⟩
  · exact .inl ⟨_, rfl⟩
  · exact .inl ⟨_, rfl⟩
  · exact .inr rfl

theorem step_post (hs : s.step (n, .post) = some t) :
    ∃ c, s.pcs n = .resumeOn c ∧ t = s.setPc n (.posted c) :=
  post_eq_some (b := true) (step_eq_some.1 hs).2

theorem step_execute {b : Bool} (hs : s.step (n, if b then .run else .drop) = some t) :
    ∃ c, s.pcs n = .posted c ∧ t = s.setPc n (if b then .granted c else .broken) :=
  execute_eq_some (by cases b <;> exact (step_eq_some.1 hs).2)

/-- The next step of a task inside `unlock`, unless it retries an awaiter. -/
theorem advance_unlock {u : Unlocker} (hs : s.advance n = some t) :
    (s.pcs n = .unlock u → t.pcs n = .unlocking u) ∧
    (s.pcs n = .unlocking u → (∃ a, t.pcs n = .retry u a) ∨ ∃ e, t.pcs n = .threw e) ∧
    (s.pcs n = .retry u none → t.pcs n = .unlocked u) ∧
    (s.pcs n = .unlocked u → t.pcs n = .idle) := by
  unfold advance at hs
  refine ⟨fun hn => ?_, fun hn => ?_, fun hn => ?_, fun hn => ?_⟩
  · simp only [hn] at hs
    rw [lockMutex_pcs hs, update_self]
  · simp only [hn] at hs
    cases hs
    rw [unlocking_pcs, update_self]
    split_ifs
    · exact .inl ⟨_, rfl⟩
    · exact .inr ⟨_, rfl⟩
  · simp only [hn] at hs
    cases hs
    exact update_self ..
  · simp only [hn] at hs
    cases hs
    rw [unlocked_pcs, update_self]

end AsyncLock
end Concurrencpp
