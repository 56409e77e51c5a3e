import Concurrencpp.Threads.CvQueue

/-!
# No notification is lost

`await` releases the asynchronous lock and queues its task under one lock of `m_lock`, so that a
notification between the two is impossible.

* `HasReleased`: the task has released the lock inside `await` and is not queued yet.  Nobody is in
  a critical section of the condition variable until it is (`Unqueued.step`).
* `Delivery`: what every reachable state says about the queue, its steps and the lists that
  notifications have detached.
* `QueueOnly`: the executors only queue tasks.  Then a thread in the loop of `notify_all` is never
  blocked and is done after two steps for each awaiter (`Finishes`).
-/

namespace Concurrencpp

open Interleaving
open Function (update_self update_of_ne)

/-- The task is inside `notify_one` or `notify_all`, and has locked `m_lock`. -/
def CvPc.notifying : CvPc → Bool
  | .notifyOne | .notifyAll | .resumeOne _ | .resumeAll _ => true
  | _ => false

namespace CvSystem

open Slist

variable {s s' : CvSystem} {t n m a k : ℕ} {ys : ℕ → List ℕ} {mv : CvMove}

/-! ### Tasks that a step does not move -/

/-- A step changes the stack of its own thread only. -/
theorem Taken.frames_of_ne (hs : Taken s mv s') (ht : t ≠ mv.thread) :
    s'.frames t = s.frames t := by
  cases hs with
  | lock =>
    rw [afterLock_eq]
    split_ifs
    · exact update_of_ne ht ..
    · cases (s.lock.pcs _).awaiter with
      | none => rfl
      | some => exact update_of_ne ht ..
  | pushAwaiter | resume | post | execute | executeLock | enter | leave =>
    exact update_of_ne ht ..
  | _ => rfl

variable {xs : List ℕ}

/-- A step moves the innermost task of its thread, and tasks that are suspended. -/
theorem Taken.pcs_of_ne (hs : Taken s mv s') (hq : s.lock.ChainOk xs)
    (hk : ∀ rest, s.frames mv.thread ≠ k :: rest) (hp : (s.pcs k).parked = false)
    (hl : (s.lock.pcs k).parked = false) : s'.pcs k = s.pcs k ∧ s'.lock.pcs k = s.lock.pcs k := by
  have hne : ∀ {t n : ℕ} {rest : List ℕ}, mv.thread = t → s.frames t = n :: rest → k ≠ n := by
    rintro t n rest rfl hf rfl
    exact hk rest hf
  cases hs with
  | @lock _ n _ _ _ hf _ hstep =>
    refine ⟨congrFun afterLock_frame.1 k, ?_⟩
    rw [afterLock_lock]
    have hkn := hne rfl hf
    cases hw : (s.lock.pcs n).awaiter with
    | none =>
      obtain ⟨q, hpcs⟩ := AsyncLock.step_pcs hw hstep
      rw [hpcs, update_of_ne hkn]
    | some m =>
      obtain ⟨c, q, -, -, -, -, -, hpcs⟩ :=
        AsyncLock.advance_awaiter hw (AsyncLock.step_awaiter hw hstep)
      have hkm : k ≠ m := by
        rintro rfl
        cases hl.symm.trans (LockPc.parked_of_isSuspended (hq.queue.popped n k hw).1)
      rw [hpcs, update_of_ne hkm, update_of_ne hkn]
  | call hf | acquire hf | pushAwaiter hf | unwind hf | notifyOne hf
    | notifyAll hf | done hf | post hf | inline hf | throw hf =>
    exact ⟨setPc_pcs_of_ne (hne rfl hf), rfl⟩
  | release hf _ hstep =>
    obtain ⟨q, hpcs, -⟩ := AsyncLock.step_scopedUnlock hstep
    exact ⟨setPc_pcs_of_ne (hne rfl hf), by rw [hpcs, update_of_ne (hne rfl hf)]⟩
  | relock hf _ hstep =>
    obtain ⟨q, hpcs, -⟩ := AsyncLock.step_scopedLock hstep
    exact ⟨setPc_pcs_of_ne (hne rfl hf), by rw [hpcs, update_of_ne (hne rfl hf)]⟩
  | @resume _ _ m _ _ _ hf _ hm =>
    have hkm : k ≠ m := by
      rintro rfl
      rw [setPc_pcs_of_ne (hne rfl hf)] at hm
      rw [hm] at hp
      cases hp
    exact ⟨(setPc_pcs_of_ne hkm).trans (setPc_pcs_of_ne (hne rfl hf)), rfl⟩
  | inlineLock hf _ hl₁ hl₂ =>
    obtain ⟨c, -, rfl⟩ := AsyncLock.step_post hl₁
    obtain ⟨c', -, rfl⟩ := AsyncLock.step_execute (b := true) hl₂
    have hkn := hne rfl hf
    exact ⟨rfl, (update_of_ne hkn ..).trans (update_of_ne hkn ..)⟩
  | @execute _ n _ _ _ hn =>
    have hkn : k ≠ n := by
      rintro rfl
      rw [hn] at hp
      cases hp
    exact ⟨setPc_pcs_of_ne hkn, rfl⟩
  | @executeLock _ n _ _ _ _ hstep =>
    obtain ⟨c, hc, rfl⟩ := AsyncLock.step_execute hstep
    have hkn : k ≠ n := by
      rintro rfl
      rw [hc] at hl
      cases hl
    exact ⟨rfl, update_of_ne hkn ..⟩
  | enter | leave => exact ⟨rfl, rfl⟩

/-! ### From the release of the lock to the queue -/

/-- The task has released the lock inside `await`; the critical section of `unlock` is behind it. -/
def HasReleased (s : CvSystem) (a : ℕ) : Prop :=
  ∃ w, s.pcs a = .releasing w ∧
    ((∃ m, s.lock.pcs a = .retry (.ofScoped w) m) ∨ s.lock.pcs a = .unlocked (.ofScoped w))

/-- The task is behind the critical section of `unlock` inside `await`, and not queued yet. -/
def Unqueued (s : CvSystem) (a : ℕ) : Prop :=
  ∃ w, s.pcs a = .releasing w ∧ ((∃ m, s.lock.pcs a = .retry (.ofScoped w) m) ∨
    s.lock.pcs a = .unlocked (.ofScoped w) ∨ s.lock.pcs a = .idle)

theorem HasReleased.unqueued (h : s.HasReleased a) : s.Unqueued a := by
  obtain ⟨w, hn, hl⟩ := h
  exact ⟨w, hn, hl.imp_right .inl⟩

/-- While the task is not queued, it holds `m_lock`. -/
theorem Unqueued.not_notifies (h : s.Unqueued a) (hT : s.ThreadsOk) : ¬ s.Notifies n := by
  intro hn
  obtain ⟨w, ha, -⟩ := h
  have hcv : s.cvLock = some a := (hT.mutex a).1 (by rw [ha]; rfl)
  have hholds : (s.pcs n).holds = true := by rcases hn with hn | hn <;> rw [hn] <;> rfl
  cases hcv.symm.trans ((hT.mutex n).1 hholds)
  rcases hn with hn | hn <;> cases ha.symm.trans hn

theorem Taken.arrivals (hs : Taken s mv s') : s'.arrivals = s.arrivals ∨
    ∃ n w, s.pcs n = .releasing w ∧ s'.pcs n = .waiting w ∧ s'.arrivals = s.arrivals ++ [n] := by
  cases hs with
  | lock => exact .inl afterLock_frame.2.2.2.1
  | pushAwaiter _ hn => exact .inr ⟨_, _, hn, setPc_pcs_self, rfl⟩
  | _ => exact .inl rfl

/-- The task stays where it is, goes on in `unlock`, or is queued. -/
theorem Unqueued.step (h : s.Unqueued a) (hq : s.lock.ChainOk xs) (hs : Taken s mv s') :
    s'.Unqueued a ∨ s'.arrivals = s.arrivals ++ [a] := by
  obtain ⟨w, ha, hpc⟩ := h
  by_cases htop : ∃ rest, s.frames mv.thread = a :: rest
  · obtain ⟨rest, htop⟩ := htop
    cases hs with
    | @lock _ _ _ _ l hf hmay hl =>
      cases htop.symm.trans hf
      left
      obtain hout | ⟨w', -, rfl, -⟩ := mayLock_cases hmay
      · cases ha.symm.trans hout
      have hl := AsyncLock.advance_of_step hl
      refine ⟨w, (congrFun afterLock_frame.1 a).trans ha, ?_⟩
      rw [afterLock_lock]
      obtain ⟨-, -, hretry, hunlocked⟩ := AsyncLock.advance_unlock (u := .ofScoped w) hl
      rcases hpc with ⟨m, hm⟩ | hpc | hpc
      · cases m with
        | none => exact .inr (.inl (hretry hm))
        | some m =>
          have hw : (s.lock.pcs a).awaiter = some m := by rw [hm]; rfl
          obtain ⟨c, q, -, -, -, hq', hself, -⟩ := AsyncLock.advance_awaiter hw hl
          rcases hq' with ⟨u, hu, rfl⟩ | ⟨hu, -⟩ <;> cases hm.symm.trans hu
          exact .inr (.inl hself)
      · exact .inr (.inr (hunlocked hpc))
      · cases (AsyncLock.advance_idle hpc).symm.trans hl
    | pushAwaiter hf =>
      cases htop.symm.trans hf
      exact .inr rfl
    | unwind hf _ he =>
      cases htop.symm.trans hf
      exfalso
      rcases hpc with ⟨m, hm⟩ | hpc | hpc
      · cases hm.symm.trans he
      · cases hpc.symm.trans he
      · cases hpc.symm.trans he
    | call hf hu | leave hf hu =>
      cases htop.symm.trans hf
      cases ha.symm.trans hu.2
    | acquire hf _ hpc' =>
      cases htop.symm.trans hf
      rw [ha] at hpc'
      cases hpc'
    | release hf hn | relock hf hn | notifyOne hf hn | notifyAll hf hn | post hf hn | inline hf hn
      | inlineLock hf hn | throw hf hn => cases htop.symm.trans hf; cases ha.symm.trans hn
    | done hf hn =>
      cases htop.symm.trans hf
      rcases hn with hn | ⟨e, hn⟩ | ⟨l, hn, -⟩ <;> cases ha.symm.trans hn
    | resume hf hn =>
      cases htop.symm.trans hf
      rcases hn with ⟨hn, -⟩ | ⟨l, l', hn, -⟩ <;> cases ha.symm.trans hn
    | execute ht | executeLock ht | enter ht =>
      cases (hosts_not_holds ht a rest htop).symm.trans (congrArg CvPc.holds ha)
  · have hk : ∀ rest, s.frames mv.thread ≠ a :: rest := fun rest hf => htop ⟨rest, hf⟩
    have hlp : (s.lock.pcs a).parked = false := by
      rcases hpc with ⟨m, hm⟩ | hpc | hpc
      · rw [hm]; rfl
      · rw [hpc]; rfl
      · rw [hpc]; rfl
    obtain ⟨hp, hl⟩ := hs.pcs_of_ne hq hk (by rw [ha]; rfl) hlp
    refine .inl ⟨w, hp.trans ha, ?_⟩
    rw [hl]
    exact hpc

/-- Behind the release, the task is queued before anybody notifies. -/
theorem released_run {as : List CvMove} (hr : Reachable s) (h : s.HasReleased a)
    (hrun : run step s as = some s') :
    s'.Unqueued a ∨ ∃ i, s.arrivals.length ≤ i ∧ s'.arrivals[i]? = some a := by
  have hinv := run_invariant (fun u => Reachable u ∧ s.arrivals.length ≤ u.arrivals.length ∧
    (u.Unqueued a ∨ ∃ i, s.arrivals.length ≤ i ∧ u.arrivals[i]? = some a)) ?_
    ⟨hr, le_rfl, .inl h.unqueued⟩ hrun
  · exact hinv.2.2
  rintro u mv v ⟨hu, hlen, hcase⟩ hs
  have hv : Reachable v := Reach.next hu trivial hs
  have htaken := taken_of_step hs
  obtain ⟨xs, hq⟩ := AsyncLock.chainOk_of_reachable (lock_reachable hu)
  refine ⟨hv, ?_, ?_⟩
  · rcases htaken.arrivals with harr | ⟨n, w, -, -, harr⟩ <;> rw [harr]
    · exact hlen
    · rw [List.length_append]
      omega
  rcases hcase with hun | ⟨i, hi, hia⟩
  · rcases hun.step hq htaken with hun | harr
    · exact .inl hun
    · exact .inr ⟨u.arrivals.length, hlen, by rw [harr]; exact List.getElem?_concat_length⟩
  · refine .inr ⟨i, hi, ?_⟩
    rcases htaken.arrivals with harr | ⟨n, w, -, -, harr⟩ <;> rw [harr]
    · exact hia
    · have hlt : i < u.arrivals.length := (List.getElem?_eq_some_iff.1 hia).1
      rw [List.getElem?_append_left hlt]
      exact hia

/-! ### Notifications -/

/-- The innermost task of a thread goes on with its notification. -/
theorem nextStep_of_notifying {rest : List ℕ} (hf : s.frames mv.thread = n :: rest)
    (hn : (s.pcs n).notifying = true) (hs : s.step mv = some s') :
    s.nextStep mv.thread n = some s' := by
  have hne : ∀ {pc : CvPc}, pc.notifying = false → s.pcs n ≠ pc := by
    rintro _ hpc rfl
    cases hn.symm.trans hpc
  have hout : s.pcs n ≠ .outside := hne rfl
  have hresume : ∀ w, s.pcs n ≠ .resumeOn w := fun _ => hne rfl
  have hrelease : ∀ w, s.pcs n ≠ .releasing w := fun _ => hne rfl
  have hhosts : s.hosts mv.thread = false := by simp [hosts, hf, UserCode, posting, hout]
  cases mv with
  | step =>
    simp only [CvMove.thread] at hf ⊢
    simp only [step, ofTop, hf] at hs
    exact hs
  | _ =>
    simp only [CvMove.thread] at hf hhosts
    simp [step, ofTop, hf, lockStep, mayLock, UserCode, post, inline, throw, hout, hhosts] at hs

theorem departed_notifyOne (h : s.QueueOk ys) (hn : s.pcs n = .notifyOne) :
    (s.notifyOne n).departed = s.departed + (s.dequeues n).length := by
  have hhead : (s.awaiters.popFront s.next).1 = s.queue.head? := h.awaiters.spells.popFront.1
  simp only [dequeues, hn]
  exact congrArg (fun a => s.departed + a.toList.length) hhead

theorem departed_notifyAll (h : s.QueueOk ys) (hn : s.pcs n = .notifyAll) :
    (s.notifyAll n).departed = s.departed + (s.dequeues n).length := by
  have hdep := h.departed
  simp only [dequeues, hn, notifyAll, queue, List.length_drop]
  omega

/-- The critical section of a notification takes its awaiters off the front of the queue. -/
theorem notify_step (hT : s.ThreadsOk) (hq : s.lock.ChainOk xs) (h : s.QueueOk ys)
    (hn : s.Notifies n) (hs : s.step mv = some s') :
    s'.pcs n = s.pcs n ∨ (s.queue = s.dequeues n ++ s'.queue ∧
      s'.departed = s.departed + (s.dequeues n).length ∧
      (s'.pcs n).ToResume s'.next (s.dequeues n)) := by
  by_cases htop : ∃ rest, s.frames mv.thread = n :: rest
  · obtain ⟨rest, hf⟩ := htop
    right
    rcases hn with hn | hn
    · have hs := nextStep_of_notifying hf (by rw [hn]; rfl) hs
      simp only [nextStep, hn] at hs
      cases hs
      obtain ⟨hqueue, hpc, -⟩ := h.notifyOne hn
      refine ⟨?_, departed_notifyOne h hn, ?_⟩ <;> simp only [dequeues, hn]
      · rw [hqueue]
        cases s.queue <;> rfl
      · rw [hpc]
        rfl
    · have hs := nextStep_of_notifying hf (by rw [hn]; rfl) hs
      simp only [nextStep, hn] at hs
      cases hs
      refine ⟨?_, departed_notifyAll h hn, ?_⟩ <;> simp only [dequeues, hn]
      · rw [(h.notifyAll hn).1, List.append_nil]
      · have hpc : (s.notifyAll n).pcs n = .resumeAll s.awaiters := setPc_pcs_self
        rw [hpc]
        exact h.awaiters.spells
  · left
    have hk : ∀ rest, s.frames mv.thread ≠ n :: rest := fun rest hf => htop ⟨rest, hf⟩
    have hidle : s.lock.pcs n = .idle := by rcases hn with hn | hn <;> exact hT.lock_idle hn rfl
    have hpark : (s.pcs n).parked = false := by rcases hn with hn | hn <;> rw [hn] <;> rfl
    exact ((taken_of_step hs).pcs_of_ne hq hk hpark (by rw [hidle]; rfl)).1

/-- Nothing but the critical section of a notification takes awaiters off the queue. -/
theorem departed_step (h : s.QueueOk ys) (hs : Taken s mv s') :
    s'.departed = s.departed ∨
      ∃ n, s.Notifies n ∧ s'.departed = s.departed + (s.dequeues n).length := by
  cases hs with
  | lock => exact .inl afterLock_frame.2.2.2.2.1
  | notifyOne _ hn => exact .inr ⟨_, .inl hn, departed_notifyOne h hn⟩
  | notifyAll _ hn => exact .inr ⟨_, .inr hn, departed_notifyAll h hn⟩
  | _ => exact .inl rfl

/-- A round takes the first of the detached awaiters. -/
theorem loop_round {rest : List ℕ} {l : Slist ℕ} (h : s.QueueOk ys) (hn : s.pcs n = .resumeAll l)
    (hf : s.frames mv.thread = n :: rest) (hs : s.step mv = some s') :
    (ys n = [] ∧ s'.pcs n = .outside) ∨
    ∃ m zs l' w, ys n = m :: zs ∧ s'.pcs n = .resumeAll l' ∧ Spells s'.next l' zs ∧
      s.pcs m = .waiting w ∧ s'.pcs m = .resumeOn w ∧ s'.frames mv.thread = m :: n :: rest := by
  have hspells := h.awaiters.toResume n
  rw [hn] at hspells
  obtain ⟨hhead, htail⟩ := Spells.popFront hspells
  have hs := nextStep_of_notifying hf (by rw [hn]; rfl) hs
  simp only [nextStep, hn, resumeAll] at hs
  split at hs
  next l' hpop =>
    cases hs
    rw [hpop] at hhead
    exact .inl ⟨List.head?_eq_none_iff.1 hhead.symm, setPc_pcs_self⟩
  next m l' hpop =>
    rw [hpop] at hhead htail
    obtain ⟨zs, hzs⟩ := List.head?_eq_some_iff.1 hhead.symm
    obtain ⟨w, hm, rfl⟩ := resume_eq_some hs
    have hmn : n ≠ m := by
      rintro rfl
      rw [setPc_pcs_self] at hm
      cases hm
    rw [setPc_pcs_of_ne hmn.symm] at hm
    rw [hzs] at htail
    refine .inr ⟨m, zs, l', w, hzs, ?_, htail, hm, setPc_pcs_self, ?_⟩
    · exact (setPc_pcs_of_ne hmn).trans setPc_pcs_self
    · exact (update_self ..).trans (congrArg (m :: ·) hf)

/-- No other step touches the detached awaiters. -/
theorem loop_other {l : Slist ℕ} (hT : s.ThreadsOk) (hq : s.lock.ChainOk xs) (h : s.QueueOk ys)
    (hn : s.pcs n = .resumeAll l) (hk : ∀ rest, s.frames mv.thread ≠ n :: rest)
    (hs : s.step mv = some s') : s'.pcs n = .resumeAll l ∧ Spells s'.next l (ys n) := by
  have hidle := hT.lock_idle hn rfl
  have htaken := taken_of_step hs
  obtain ⟨hp, -⟩ := htaken.pcs_of_ne hq hk (by rw [hn]; rfl) (by rw [hidle]; rfl)
  obtain ⟨ys', h', hys⟩ := queueOk_step h htaken
  have hspells := h'.awaiters.toResume n
  rw [hp, hn, (hys n).eq_of_ne hk] at hspells
  exact ⟨hp.trans hn, hspells⟩

/-! ### Executors that only queue tasks -/

/-- No `post` runs a task or throws, and no thread runs other tasks inside a `post`. -/
def queueOnly (s : CvSystem) : CvMove → Bool
  | .inline _ | .throw _ | .lock _ .throw => false
  | .execute t _ _ | .enter t _ => (s.frames t).head?.all fun n => !s.posting n
  | _ => true

def QueueOnly (s : CvSystem) (mv : CvMove) : Prop := s.queueOnly mv = true

instance (s : CvSystem) (mv : CvMove) : Decidable (s.QueueOnly mv) :=
  inferInstanceAs (Decidable (_ = true))

/-- The task is in the loop of `notify_all`; at most the awaiter that it has resumed runs inside
it. -/
def AtLoop (s : CvSystem) (t n : ℕ) : Prop :=
  (∃ rest, s.frames t = n :: rest) ∨
  ∃ m w rest, s.frames t = m :: n :: rest ∧ s.pcs m = .resumeOn w

/-- The steps that the thread has still to take, without the last one. -/
def stepsLeft (s : CvSystem) (t n : ℕ) (ms : List ℕ) : ℕ :=
  2 * ms.length + if (s.frames t).head? = some n then 0 else 1

/-- A resumed awaiter is queued by its executor. -/
theorem step_of_resumeOn {w : ℕ} {rest : List ℕ} (hf : s.frames mv.thread = m :: rest)
    (hm : s.pcs m = .resumeOn w) (hc : s.QueueOnly mv) (hs : s.step mv = some s') :
    s' = (s.setPc m (.posted w)).pop mv.thread m := by
  have hpost : s.posting m = true := by simp [posting, hm]
  unfold QueueOnly at hc
  cases mv with
  | post =>
    simp only [CvMove.thread] at hf
    simp only [step, ofTop, hf, post, hm] at hs
    exact (Option.some.inj hs).symm
  | inline | throw => cases hc
  | execute | enter =>
    simp only [CvMove.thread] at hf
    simp [queueOnly, hf, hpost] at hc
  | _ =>
    simp only [CvMove.thread] at hf
    simp [step, ofTop, hf, lockStep, mayLock, nextStep, UserCode, hm] at hs

/-- A step of another thread leaves the loop alone; a step of the thread itself brings it nearer to
its end. -/
theorem atLoop_step {xs : List ℕ} {l : Slist ℕ} (hT : s.ThreadsOk) (hq : s.lock.ChainOk xs)
    (h : s.QueueOk ys) (hn : s.pcs n = .resumeAll l) (hat : s.AtLoop t n) (hc : s.QueueOnly mv)
    (hs : s.step mv = some s') :
    s'.pcs n = .outside ∨
    ∃ l' ms, s'.pcs n = .resumeAll l' ∧ Spells s'.next l' ms ∧ s'.AtLoop t n ∧
      s'.stepsLeft t n ms + (if mv.thread = t then 1 else 0) = s.stepsLeft t n (ys n) := by
  by_cases ht : mv.thread = t
  · subst ht
    rcases hat with ⟨rest, hf⟩ | ⟨m, w, rest, hf, hm⟩
    · rcases loop_round h hn hf hs with ⟨-, hout⟩ | ⟨m, zs, l', w, hys, hn', hspells, -, hm', hf'⟩
      · exact .inl hout
      · have hmn : m ≠ n := by
          rintro rfl
          cases hm'.symm.trans hn'
        refine .inr ⟨l', zs, hn', hspells, .inr ⟨m, w, rest, hf', hm'⟩, ?_⟩
        simp [stepsLeft, hf, hf', hys, hmn]
        omega
    · -- the resumed awaiter posts itself and leaves the thread
      have hnd := hT.frames.nodup mv.thread
      rw [hf] at hnd
      have hmn : m ≠ n := fun hmn => (List.nodup_cons.1 hnd).1 (hmn ▸ List.mem_cons_self)
      have hk : ∀ rest, s.frames mv.thread ≠ n :: rest := by
        intro rest' hf'
        cases hf.symm.trans hf'
        exact hmn rfl
      obtain ⟨hn', hspells⟩ := loop_other hT hq h hn hk hs
      cases step_of_resumeOn hf hm hc hs
      have hf' : ((s.setPc m (.posted w)).pop mv.thread m).frames mv.thread = n :: rest :=
        (update_self ..).trans (congrArg List.tail hf)
      refine .inr ⟨l, ys n, hn', hspells, .inl ⟨rest, hf'⟩, ?_⟩
      simp [stepsLeft, hf, hf', hmn]
  · have hframes := (taken_of_step hs).frames_of_ne (Ne.symm ht)
    -- whoever runs on this thread is not the innermost task of the other one
    have hnot : ∀ k ∈ s.frames t, ∀ rest, s.frames mv.thread ≠ k :: rest := by
      intro k hk rest hf
      exact ht (hT.frames.unique mv.thread t k (by rw [hf]; exact List.mem_cons_self) hk)
    have hmem : n ∈ s.frames t := by
      rcases hat with ⟨rest, hf⟩ | ⟨m, w, rest, hf, -⟩ <;> rw [hf] <;> simp
    obtain ⟨hn', hspells⟩ := loop_other hT hq h hn (hnot n hmem) hs
    refine .inr ⟨l, ys n, hn', hspells, ?_, ?_⟩
    · rcases hat with ⟨rest, hf⟩ | ⟨m, w, rest, hf, hm⟩
      · exact .inl ⟨rest, hframes.trans hf⟩
      · have hidle := hT.lock_idle hm rfl
        have hm' := (taken_of_step hs).pcs_of_ne hq (hnot m (by rw [hf]; simp)) (by rw [hm]; rfl)
          (by rw [hidle]; rfl)
        exact .inr ⟨m, w, rest, hframes.trans hf, hm'.1.trans hm⟩
    · simp [stepsLeft, hframes, ht]

/-- The thread of the loop is not blocked. -/
theorem atLoop_enabled {l : Slist ℕ} (h : s.QueueOk ys) (hn : s.pcs n = .resumeAll l)
    (hat : s.AtLoop t n) : ∃ mv, mv.thread = t ∧ s.QueueOnly mv ∧ (s.step mv).isSome = true := by
  rcases hat with ⟨rest, hf⟩ | ⟨m, w, rest, hf, hm⟩
  · refine ⟨.step t, rfl, rfl, ?_⟩
    have hspells := h.awaiters.toResume n
    rw [hn] at hspells
    have hhead := (Spells.popFront hspells).1
    simp only [step, ofTop, hf, nextStep, hn, resumeAll]
    split
    · rfl
    next m l' hpop =>
      rw [hpop] at hhead
      have hm : m ∈ ys n := List.mem_of_head? hhead.symm
      have hwait : (s.pcs m).isWaiting = true := (h.awaiters.waiting m).2 (.inr ⟨n, hm⟩)
      have hmn : m ≠ n := by
        rintro rfl
        rw [hn] at hwait
        cases hwait
      simp only [resume, setPc_pcs_of_ne hmn]
      cases hpc : s.pcs m with
      | waiting => rfl
      | _ =>
        rw [hpc] at hwait
        cases hwait
  · refine ⟨.post t, rfl, rfl, ?_⟩
    simp only [step, ofTop, hf, post, hm]
    rfl

theorem setPc_resumeAll {pc : CvPc} {l : Slist ℕ} (hpc : ∀ l, pc ≠ .resumeAll l)
    (h : (s.setPc k pc).pcs n = .resumeAll l) : s.pcs n = .resumeAll l := by
  by_cases hn : n = k
  · rw [hn, setPc_pcs_self] at h
    exact absurd h (hpc l)
  · rw [setPc_pcs_of_ne hn] at h
    exact h

/-- The loop begins behind the critical section of `notify_all`. -/
theorem resumeAll_step {l : Slist ℕ} (hs : Taken s mv s') (hn : s'.pcs n = .resumeAll l) :
    (∃ l, s.pcs n = .resumeAll l) ∨ ∃ rest, s'.frames mv.thread = n :: rest := by
  cases hs with
  | lock =>
    rw [afterLock_frame.1] at hn
    exact .inl ⟨l, hn⟩
  | call _ _ hpc =>
    refine .inl ⟨l, setPc_resumeAll ?_ hn⟩
    rintro l' rfl
    cases hpc
  | acquire _ _ hpc =>
    refine .inl ⟨l, setPc_resumeAll ?_ hn⟩
    rintro l' rfl
    cases (CvPc.of_acquires hpc).2
  | @notifyAll _ k rest hf =>
    by_cases hnk : n = k
    · subst hnk
      exact .inr ⟨rest, hf⟩
    · exact .inl ⟨l, (setPc_pcs_of_ne hnk).symm.trans hn⟩
  | @resume _ k _ _ _ _ _ hk =>
    have hn := setPc_resumeAll (by simp) hn
    rcases hk with ⟨-, rfl⟩ | ⟨l₁, l₂, hk, -⟩
    · exact .inl ⟨l, setPc_resumeAll (by simp) hn⟩
    · by_cases hnk : n = k
      · exact .inl ⟨l₁, hnk ▸ hk⟩
      · exact .inl ⟨l, (setPc_pcs_of_ne hnk).symm.trans hn⟩
  | @execute _ _ _ invoked =>
    refine .inl ⟨l, setPc_resumeAll ?_ hn⟩
    cases invoked <;> simp
  | executeLock | enter | leave | inlineLock => exact .inl ⟨l, hn⟩
  | _ =>
    exact .inl ⟨l, setPc_resumeAll (by simp) hn⟩

/-- Nobody else runs inside the loop of `notify_all`. -/
theorem atLoop_of_reach {l : Slist ℕ} (h : Reach step IsInitial QueueOnly s)
    (hn : s.pcs n = .resumeAll l) : ∃ t, s.AtLoop t n := by
  induction h generalizing l with
  | start hs =>
    cases hs
    cases hn
  | next hr hc hs ih =>
    rcases resumeAll_step (taken_of_step hs) hn with ⟨l', hn'⟩ | ⟨rest, hf⟩
    · obtain ⟨t, hat⟩ := ih hn'
      obtain ⟨xs, hq⟩ := AsyncLock.chainOk_of_reachable (lock_reachable hr.reachable)
      obtain ⟨ys, hys⟩ := queueOk_of_reachable hr.reachable
      have hT := threadsOk_of_reachable hr.reachable
      rcases atLoop_step hT hq hys hn' hat hc hs with hout | ⟨l', ms, -, -, hat', -⟩
      · cases hn.symm.trans hout
      · exact ⟨t, hat'⟩
    · exact ⟨_, .inl ⟨rest, hf⟩⟩

/-- In a whole run, the loop has come to its end or every step of its thread has been counted. -/
theorem atLoop_run {l : Slist ℕ} {ms : List ℕ} {as : List CvMove}
    (hr : Reach step IsInitial QueueOnly s) (hn : s.pcs n = .resumeAll l) (hl : Spells s.next l ms)
    (hat : s.AtLoop t n) (hrun : run (restrict step QueueOnly) s as = some s') :
    (∃ as₁ s₁, as₁ <+: as ∧ run (restrict step QueueOnly) s as₁ = some s₁ ∧
      s₁.pcs n = .outside) ∨
    as.countP (fun mv => mv.thread = t) ≤ s.stepsLeft t n ms := by
  induction as generalizing s l ms with
  | nil => exact .inr (Nat.zero_le _)
  | cons mv as ih =>
    obtain ⟨u, hu, hrun'⟩ := run_cons hrun
    obtain ⟨hc, hs⟩ := Interleaving.restrict_eq_some hu
    obtain ⟨xs, hq⟩ := AsyncLock.chainOk_of_reachable (lock_reachable hr.reachable)
    obtain ⟨ys, hys⟩ := queueOk_of_reachable hr.reachable
    have hlist := hys.awaiters.toResume n
    rw [hn] at hlist
    have hms : ms = ys n := @ToResume.unique s.next (.resumeAll l) ms (ys n) hl hlist
    subst hms
    rcases atLoop_step (threadsOk_of_reachable hr.reachable) hq hys hn hat hc hs with
      hout | ⟨l', ms, hn', hl', hat', hcount⟩
    · exact .inl ⟨[mv], u, List.prefix_append [mv] as, run_cons_of_step hu rfl, hout⟩
    · rcases ih (hr.next hc hs) hn' hl' hat' hrun' with ⟨as₁, s₁, hpre, hrun₁, hout⟩ | hle
      · exact .inl ⟨mv :: as₁, s₁, List.cons_prefix_cons.2 ⟨rfl, hpre⟩,
          run_cons_of_step hu hrun₁, hout⟩
      · right
        rw [List.countP_cons]
        simp only [decide_eq_true_eq]
        omega

/-! ### Delivery -/

/-- What a state says about awaiters and notifications. -/
structure Delivery (s : CvSystem) : Prop where
  /-- `m_awaiters` reads what has been queued and not dequeued, in the order of arrival. -/
  queue : Spells s.next s.awaiters s.queue
  /-- A task that has released the lock inside `await` is queued before anybody notifies: the next
  notification finds it, unless one before has dequeued it. -/
  released : ∀ a, s.HasReleased a → ∀ as s', run step s as = some s' →
    ∀ n, s'.Notifies n → ∃ i, s.arrivals.length ≤ i ∧ s'.arrivals[i]? = some a ∧
      (a ∈ s'.queue ∨ i < s'.departed)
  /-- Awaiters are queued by `await` only, at the end. -/
  arrivals : ∀ mv s', s.step mv = some s' → s'.arrivals = s.arrivals ∨
    ∃ n w, s.pcs n = .releasing w ∧ s'.pcs n = .waiting w ∧ s'.arrivals = s.arrivals ++ [n]
  /-- Awaiters are dequeued by notifications only, at the front. -/
  departed : ∀ mv s', s.step mv = some s' → s'.departed = s.departed ∨
    ∃ n, s.Notifies n ∧ s'.departed = s.departed + (s.dequeues n).length
  /-- A notification dequeues its awaiters, and has them to resume then. -/
  notify : ∀ n, s.Notifies n → ∀ mv s', s.step mv = some s' → s'.pcs n = s.pcs n ∨
    (s.queue = s.dequeues n ++ s'.queue ∧ s'.departed = s.departed + (s.dequeues n).length ∧
      (s'.pcs n).ToResume s'.next (s.dequeues n))
  /-- A waiting task is in the queue, or one notification has it to resume. -/
  place : ∀ a, (s.pcs a).isWaiting = true →
    (a ∈ s.queue ∧ ∀ n ms, (s.pcs n).ToResume s.next ms → a ∉ ms) ∨
    (a ∉ s.queue ∧ ∃! n, ∃ ms, (s.pcs n).ToResume s.next ms ∧ a ∈ ms)
  /-- A notification resumes its awaiters in their order, and nobody joins them. -/
  resume : ∀ n ms, (s.pcs n).ToResume s.next ms → ¬ s.Notifies n → ∀ mv s', s.step mv = some s' →
    ∃ ms', (s'.pcs n).ToResume s'.next ms' ∧
      (ms' = ms ∨ ∃ m w, ms = m :: ms' ∧ s.pcs m = .waiting w ∧ s'.pcs m = .resumeOn w)

/-- Every loop of `notify_all` comes to its end: its thread is not blocked, and the task has
returned after two steps of the thread for each awaiter, and two more. -/
def Finishes (s : CvSystem) : Prop :=
  ∀ n l, s.pcs n = .resumeAll l → ∃ t ms, Spells s.next l ms ∧
    (∃ mv, mv.thread = t ∧ s.QueueOnly mv ∧ (s.step mv).isSome = true) ∧
    ∀ as s', run (restrict step QueueOnly) s as = some s' →
      2 * ms.length + 2 ≤ as.countP (fun mv => mv.thread = t) →
      ∃ as₁ s₁, as₁ <+: as ∧ run (restrict step QueueOnly) s as₁ = some s₁ ∧
        s₁.pcs n = .outside

theorem QueueOk.place (h : s.QueueOk ys) (ha : (s.pcs a).isWaiting = true) :
    (a ∈ s.queue ∧ ∀ n ms, (s.pcs n).ToResume s.next ms → a ∉ ms) ∨
    (a ∉ s.queue ∧ ∃! n, ∃ ms, (s.pcs n).ToResume s.next ms ∧ a ∈ ms) := by
  have hlist : ∀ n ms, (s.pcs n).ToResume s.next ms → ms = ys n :=
    fun n ms hms => ToResume.unique hms (h.awaiters.toResume n)
  rcases (h.awaiters.waiting a).1 ha with hq | ⟨n, hn⟩
  · refine .inl ⟨hq, fun n ms hms hmem => ?_⟩
    rw [hlist n ms hms] at hmem
    exact h.awaiters.disjoint a n hmem hq
  · refine .inr ⟨h.awaiters.disjoint a n hn, n, ⟨ys n, h.awaiters.toResume n, hn⟩, ?_⟩
    rintro k ⟨ms, hms, hmem⟩
    rw [hlist k ms hms] at hmem
    exact h.awaiters.once a k n hmem hn

theorem delivery_of_reachable (hr : Reachable s) : s.Delivery := by
  obtain ⟨xs, hq⟩ := AsyncLock.chainOk_of_reachable (lock_reachable hr)
  obtain ⟨ys, hys⟩ := queueOk_of_reachable hr
  have hT := threadsOk_of_reachable hr
  constructor
  case queue => exact hys.awaiters.spells
  case released =>
    intro a ha as s' hrun n hn
    have hr' : Reachable s' := Reachable.run hr hrun
    rcases released_run hr ha hrun with hun | ⟨i, hi, hia⟩
    · exact absurd hn (hun.not_notifies (threadsOk_of_reachable hr'))
    · refine ⟨i, hi, hia, ?_⟩
      by_cases hdep : i < s'.departed
      · exact .inr hdep
      · left
        refine List.mem_of_getElem? (i := i - s'.departed) ?_
        rw [CvSystem.queue, List.getElem?_drop, Nat.add_sub_cancel' (not_lt.1 hdep)]
        exact hia
  case arrivals => exact fun mv s' hs => (taken_of_step hs).arrivals
  case departed => exact fun mv s' hs => departed_step hys (taken_of_step hs)
  case notify => exact fun n hn mv s' hs => notify_step hT hq hys hn hs
  case place => exact fun a ha => hys.place ha
  case resume =>
    intro n ms hms hn mv s' hs
    obtain ⟨ys', hys', hlist⟩ := queueOk_step hys (taken_of_step hs)
    cases ToResume.unique hms (hys.awaiters.toResume n)
    refine ⟨ys' n, hys'.awaiters.toResume n, ?_⟩
    rcases hlist n with heq | ⟨-, ⟨hn', -⟩ | htake⟩
    · exact .inl heq
    · exact absurd hn' hn
    · exact .inr htake

theorem finishes_of_reach (h : Reach step IsInitial QueueOnly s) : s.Finishes := by
  intro n l hn
  obtain ⟨t, hat⟩ := atLoop_of_reach h hn
  obtain ⟨ys, hys⟩ := queueOk_of_reachable h.reachable
  have hlist := hys.awaiters.toResume n
  rw [hn] at hlist
  refine ⟨t, ys n, hlist, atLoop_enabled hys hn hat, fun as s' hrun hcount => ?_⟩
  rcases atLoop_run h hn hlist hat hrun with hdone | hle
  · exact hdone
  · exfalso
    unfold stepsLeft at hle
    split_ifs at hle <;> omega

/-- **No notification is lost.**  In every reachable state a task that has released the lock inside
`await` is queued before the next notification; `notify_one` dequeues the awaiter that has waited
longest, `notify_all` those that are queued when it holds `m_lock`; each is resumed by the
notification that dequeued it, in the order of the queue, and by no other.  When executors only
queue tasks, every `notify_all` finishes. -/
theorem no_lost_notification (s : CvSystem) :
    (Reachable s → s.Delivery) ∧
    (Reach step IsInitial QueueOnly s → s.Finishes) :=
  ⟨delivery_of_reachable, finishes_of_reach⟩

/-- Task 0 waits and task 1 has it to resume in `notify_all`, when task 2 has released the lock
inside `await` and is not queued yet. -/
theorem no_lost_notification_of_late_awaiter :
    ∃ s, Reach step IsInitial QueueOnly s ∧ s.pcs 1 = .resumeAll ⟨some 0, some 0⟩ ∧
      s.HasReleased 2 ∧ s.Delivery ∧ s.Finishes := by
  let schedule : List CvMove := lockGuard 0 0 0 ++
    [.call 0 (.await 0 true), .call 0 (.coAwait 0), .step 0, .step 0, .lock 0 .advance,
      .lock 0 .advance, .lock 0 .advance, .lock 0 .advance, .step 0] ++
    [.enter 1 1, .call 1 .notifyAll, .step 1, .step 1] ++ lockGuard 2 2 2 ++
    [.call 2 (.await 2 true), .call 2 (.coAwait 2), .step 2, .step 2, .lock 2 .advance,
      .lock 2 .advance]
  have h : Reach step IsInitial QueueOnly _ := .lastState (by rfl) schedule
  have hlock : (lastState (restrict step QueueOnly) initial schedule).lock.pcs 2 =
      .retry (.ofScoped 2) none := by
    decide +kernel
  exact ⟨_, h, by decide +kernel, ⟨2, by decide +kernel, Or.inl ⟨none, hlock⟩⟩,
    (no_lost_notification _).1 h.reachable, (no_lost_notification _).2 h⟩

end CvSystem
end Concurrencpp
