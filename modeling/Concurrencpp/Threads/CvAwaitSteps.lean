import Concurrencpp.Threads.CvAwait
import Concurrencpp.Threads.CvQueue
import Concurrencpp.Threads.AsyncLockOwner

/-!
# What a step does to a call of `await`

* `AsyncLock.step_wrappers`: a step on the lock touches the wrappers that its action names and the
  one that its task writes, and no other.
* `LockPc.Unlocks`, `LockPc.Relocks`: the two parts of `await` that run inside the lock, and their
  steps (`AsyncLock.unlocks_step`, `AsyncLock.relocks_step`).
* `CvSystem.Taken.apart`: what a step does to a task that is not the one that takes it: it resumes
  it, or leaves it where it is.
-/

namespace Concurrencpp

open Function (update update_self update_of_ne)

/-- Inside `scoped_async_lock::unlock` of the wrapper `w`. -/
def LockPc.Unlocks (w : ℕ) (pc : LockPc) : Prop :=
  pc = .unlock (.ofScoped w) ∨ pc = .unlocking (.ofScoped w) ∨ (∃ a, pc = .retry (.ofScoped w) a) ∨
    pc = .unlocked (.ofScoped w)

/-- Inside `scoped_async_lock::lock` of the wrapper `w`, behind its checks. -/
def LockPc.Relocks (w : ℕ) : LockPc → Prop
  | .loop c _ | .attempt c _ | .suspended c | .resumeOn c | .posted c | .granted c =>
      c = .ofScoped w
  | .broken | .giveBack | .rethrow _ => True
  | .threw e => e = .brokenTask
  | _ => False

namespace AsyncLock

variable {s t : AsyncLock} {n m w : ℕ} {a : LockAction}

/-! ### The wrappers that a step touches -/

/-- The wrapper `w` is as it was. -/
def SameWrapper (w : ℕ) (s t : AsyncLock) : Prop :=
  t.wrappers w = s.wrappers w ∧ t.releasing w = s.releasing w

theorem SameWrapper.of_eq (hw : t.wrappers = s.wrappers) (hr : t.releasing = s.releasing) :
    SameWrapper w s t :=
  ⟨congrFun hw w, congrFun hr w⟩

theorem lockMutex_frame {pc : LockPc} (hs : s.lockMutex n pc = some t) :
    t.wrappers = s.wrappers ∧ t.releasing = s.releasing ∧ t.raw = s.raw := by
  unfold lockMutex at hs
  split at hs
  · cases hs
    exact ⟨rfl, rfl, rfl⟩
  · cases hs

theorem attempt_frame {c : LockCaller} {first : Bool} :
    (s.attempt n c first).wrappers = s.wrappers ∧
    (s.attempt n c first).releasing = s.releasing ∧ (s.attempt n c first).raw = s.raw := by
  unfold attempt
  split <;> exact ⟨rfl, rfl, rfl⟩

theorem resume_frame (hs : s.resume m = some t) :
    t.wrappers = s.wrappers ∧ t.releasing = s.releasing ∧ t.raw = s.raw := by
  obtain ⟨c, -, rfl⟩ := resume_eq_some hs
  exact ⟨rfl, rfl, rfl⟩

theorem sameWrapper_setWrapper {v : ℕ} {x : Option ScopedLock} (hv : w ≠ v) :
    SameWrapper w s (s.setWrapper v x) :=
  ⟨update_of_ne hv .., rfl⟩

theorem sameWrapper_setReleasing {v : ℕ} {x : Option ℕ} (hv : w ≠ v) :
    SameWrapper w s (s.setReleasing v x) :=
  ⟨rfl, update_of_ne hv ..⟩

theorem SameWrapper.trans {u : AsyncLock} (h : SameWrapper w s t) (h' : SameWrapper w t u) :
    SameWrapper w s u :=
  ⟨h'.1.trans h.1, h'.2.trans h.2⟩

theorem setOwns_sameWrapper {v : ℕ} {b : Bool} (hv : w ≠ v) : SameWrapper w s (s.setOwns v b) := by
  unfold setOwns
  split
  · exact ⟨rfl, rfl⟩
  · exact sameWrapper_setWrapper hv

theorem call_wrappers (hs : s.call n a = some t) (ha : w ∉ a.wrappers) : SameWrapper w s t := by
  have hne : ∀ {v}, v ∈ a.wrappers → w ≠ v := fun hv hw => ha (hw ▸ hv)
  cases callOf hs with
  | enter | unlock | nothing => exact ⟨rfl, rfl⟩
  | startRelease _ hv => exact ⟨rfl, update_of_ne (hne hv) ..⟩
  | destroy | adoptLock | release => exact sameWrapper_setWrapper (hne List.mem_cons_self)
  | construct hv => exact sameWrapper_setWrapper (hne hv)
  | exchange hv hv' =>
    exact (sameWrapper_setWrapper (hne hv)).trans (sameWrapper_setWrapper (hne hv'))

theorem unlocking_wrappers {u : Unlocker} (hw : u.wrapper ≠ some w) :
    SameWrapper w s (s.unlocking n u) := by
  unfold unlocking
  cases s.locked with
  | true => exact ⟨rfl, rfl⟩
  | false =>
    cases u with
    | direct => exact ⟨rfl, rfl⟩
    | ofScoped v | ofDestructor v =>
      have hv : w ≠ v := fun hv => hw (congrArg some hv.symm)
      exact ⟨rfl, update_of_ne hv ..⟩

theorem unlocked_wrappers {u : Unlocker} (hw : u.wrapper ≠ some w) :
    SameWrapper w s (s.unlocked n u) := by
  cases u with
  | direct => exact ⟨rfl, rfl⟩
  | ofScoped v | ofDestructor v =>
    have hv : w ≠ v := fun hv => hw (congrArg some hv.symm)
    exact (sameWrapper_setWrapper hv).trans (sameWrapper_setReleasing hv)

theorem writes_unlock {u : Unlocker} : (LockPc.unlocking u).writes = u.wrapper ∧
    (LockPc.unlocked u).writes = u.wrapper := by
  cases u <;> exact ⟨rfl, rfl⟩

theorem advance_wrappers (hs : s.advance n = some t) (hw : (s.pcs n).writes ≠ some w) :
    SameWrapper w s t := by
  cases advance_cases hs with
  | loop _ hs | tryLock _ hs | broken _ hs | unlock _ hs =>
    have hframe := lockMutex_frame hs
    exact .of_eq hframe.1 hframe.2.1
  | attempt => exact .of_eq attempt_frame.1 attempt_frame.2.1
  | rethrow _ hs | retry _ hs =>
    have hframe := resume_frame hs
    exact .of_eq hframe.1 hframe.2.1
  | unlocking hn =>
    rw [hn, writes_unlock.1] at hw
    exact unlocking_wrappers hw
  | unlocked hn =>
    rw [hn, writes_unlock.2] at hw
    exact unlocked_wrappers hw
  | granted hn | triedScoped hn =>
    exact setOwns_sameWrapper (s := s.setPc n .idle) fun hv => hw (by rw [hn, hv]; rfl)
  | _ => exact ⟨rfl, rfl⟩

/-- **A step leaves the other wrappers alone.** -/
theorem step_wrappers (hs : s.step (n, a) = some t) (ha : w ∉ a.wrappers)
    (hw : (s.pcs n).writes ≠ some w) : SameWrapper w s t := by
  obtain ⟨-, hs⟩ | ⟨rfl, hs⟩ | ⟨v, rfl, -, -, rfl⟩ | ⟨c, -, ⟨-, rfl⟩ | ⟨-, rfl⟩⟩ |
    ⟨c, -, ⟨-, rfl⟩ | ⟨-, rfl⟩⟩ := step_cases hs
  · exact call_wrappers hs ha
  · exact advance_wrappers (advance_of_step hs) hw
  · have hv : w ≠ v := fun hv => ha (hv ▸ List.mem_cons_self)
    exact sameWrapper_setWrapper hv
  all_goals exact ⟨rfl, rfl⟩

/-! ### Unlocking and locking a wrapper -/

/-- The wrapper owns the lock. -/
def Owns (s : AsyncLock) (w : ℕ) : Prop := s.wrappers w = some ⟨true, true⟩ ∧ s.releasing w = none

/-- The wrapper does not own the lock, and nobody is at work on it. -/
def Released (s : AsyncLock) (w : ℕ) : Prop :=
  s.wrappers w = some ⟨true, false⟩ ∧ s.releasing w = none

/-- The task `n` is giving up the lock that the wrapper owns. -/
def Releasing (s : AsyncLock) (n w : ℕ) : Prop :=
  s.wrappers w = some ⟨true, true⟩ ∧ s.releasing w = some n

theorem SameWrapper.owns (h : SameWrapper w s t) (ho : s.Owns w) : t.Owns w :=
  ⟨h.1.trans ho.1, h.2.trans ho.2⟩

theorem SameWrapper.released (h : SameWrapper w s t) (ho : s.Released w) : t.Released w :=
  ⟨h.1.trans ho.1, h.2.trans ho.2⟩

theorem SameWrapper.releasing (h : SameWrapper w s t) (ho : s.Releasing n w) : t.Releasing n w :=
  ⟨h.1.trans ho.1, h.2.trans ho.2⟩

/-- `scoped_async_lock::unlock` begins. -/
theorem scopedUnlock_step (h : s.Owns w) (hs : s.step (n, .scopedUnlock w) = some t) :
    (t.pcs n).Unlocks w ∧ t.Releasing n w ∧ t.raw = s.raw := by
  simp only [step_eq_some, codeStep] at hs
  obtain ⟨-, hs⟩ := hs
  split_ifs at hs
  obtain ⟨x, hx, rfl⟩ := Option.map_eq_some_iff.1 hs
  cases h.1.symm.trans hx
  exact ⟨.inl (update_self ..), ⟨h.1, update_self ..⟩, rfl⟩

/-- A step inside `scoped_async_lock::unlock`. -/
theorem unlocks_step (hr : Reachable s) (hn : (s.pcs n).Unlocks w) (h : s.Releasing n w)
    (hs : s.advance n = some t) :
    (((t.pcs n).Unlocks w ∧ t.Releasing n w) ∨ (t.pcs n = .idle ∧ t.Released w)) ∧
    t.raw = s.raw := by
  have hsame : (s.pcs n).writes ≠ some w → t.Releasing n w :=
    fun hw => (advance_wrappers hs hw).releasing h
  have hstep := hs
  unfold advance at hs
  obtain hpc | hpc | ⟨a, hpc⟩ | hpc := hn
  · have hw := hsame (by rw [hpc]; exact fun hw => by cases hw)
    simp only [hpc] at hs
    refine ⟨.inl ⟨.inr (.inl ?_), hw⟩, (lockMutex_frame hs).2.2⟩
    rw [lockMutex_pcs hs, update_self]
  · -- the lock is locked, so that `async_lock::unlock` does not throw
    obtain ⟨o, ho⟩ := ownedBy_of_reachable hr
    have hlocked : s.locked = true := ho.locked_of (g := .call n) (by
      change (s.pcs n).holds = true
      rw [hpc]
      rfl)
    simp only [hpc, unlocking, hlocked] at hs
    cases hs
    refine ⟨.inl ⟨.inr (.inr (.inl ⟨_, update_self ..⟩)), h⟩, rfl⟩
  · have hw := hsame (by rw [hpc]; exact fun hw => by cases hw)
    cases a with
    | none =>
      simp only [hpc] at hs
      cases hs
      exact ⟨.inl ⟨.inr (.inr (.inr (update_self ..))), hw⟩, rfl⟩
    | some m =>
      obtain ⟨c, pc, -, -, -, hpc', hself, -⟩ := advance_awaiter (by rw [hpc]; rfl) hstep
      rcases hpc' with ⟨u, hu, rfl⟩ | ⟨hu, -⟩ <;> cases hpc.symm.trans hu
      simp only [hpc] at hs
      exact ⟨.inl ⟨.inr (.inr (.inr hself)), hw⟩, (resume_frame hs).2.2⟩
  · simp only [hpc] at hs
    cases hs
    refine ⟨.inr ⟨update_self .., ?_, update_self ..⟩, rfl⟩
    change update s.wrappers w _ w = _
    rw [update_self, h.1]
    rfl

/-- `scoped_async_lock::lock` begins. -/
theorem scopedLock_step (h : s.Released w) (hs : s.step (n, .scopedLock w true) = some t) :
    (t.pcs n).Relocks w ∧ t.Released w ∧ t.raw = s.raw := by
  simp only [step_eq_some, codeStep] at hs
  obtain ⟨-, hs⟩ := hs
  split_ifs at hs
  obtain ⟨x, hx, rfl⟩ := Option.map_eq_some_iff.1 hs
  cases h.1.symm.trans hx
  refine ⟨?_, h, rfl⟩
  rw [show (s.setPc n _).pcs n = _ from update_self ..]
  rfl

/-- What a step inside `scoped_async_lock::lock` leads to: its next point, its return with the lock,
or its end by an exception without it. -/
def RelocksOn (s t : AsyncLock) (n w : ℕ) : Prop :=
  (((t.pcs n).Relocks w ∧ t.Released w) ∨
    (s.pcs n = .granted (.ofScoped w) ∧ t.pcs n = .idle ∧ t.Owns w) ∨
    (s.pcs n = .threw .brokenTask ∧ t.pcs n = .idle ∧ t.Released w)) ∧ t.raw = s.raw

theorem relocks_advance (hn : (s.pcs n).Relocks w) (h : s.Released w) (hs : s.advance n = some t) :
    RelocksOn s t n w := by
  have hstep := hs
  have hkeep : ∀ pc, t.pcs n = pc → pc.Relocks w → (s.pcs n).writes = none → t.raw = s.raw →
      RelocksOn s t n w := by
    rintro pc rfl hpc hw hraw
    refine ⟨.inl ⟨hpc, (advance_wrappers hstep ?_).released h⟩, hraw⟩
    rw [hw]
    exact fun hw => by cases hw
  unfold advance at hs
  cases hpc : s.pcs n with
  | loop c first =>
    rw [hpc] at hn hkeep
    simp only [hpc] at hs
    exact hkeep (.attempt c first) (by rw [lockMutex_pcs hs, update_self]) hn rfl
      (lockMutex_frame hs).2.2
  | attempt =>
    rw [hpc] at hn hkeep
    simp only [hpc] at hs
    cases hs
    refine hkeep _ rfl ?_ rfl attempt_frame.2.2
    unfold attempt
    split
    · rw [show (s.setPc n _).pcs n = _ from update_self ..]
      split_ifs <;> exact hn
    · rw [show (s.setPc n _).pcs n = _ from update_self ..]
      exact hn
  | suspended | resumeOn | posted => simp only [hpc] at hs; cases hs
  | granted =>
    rw [hpc] at hn
    cases hn
    simp only [hpc] at hs
    cases hs
    have hx : (s.setPc n .idle).wrappers w = some ⟨true, false⟩ := h.1
    refine ⟨.inr (.inl ⟨hpc, ?_, ?_, ?_⟩), ?_⟩
    · rw [setOwns_pcs]
      exact update_self ..
    · unfold setOwns
      rw [hx]
      exact update_self ..
    · unfold setOwns
      rw [hx]
      exact h.2
    · unfold setOwns
      rw [hx]
      rfl
  | broken =>
    rw [hpc] at hkeep
    simp only [hpc] at hs
    exact hkeep .giveBack (by rw [lockMutex_pcs hs, update_self]) trivial rfl
      (lockMutex_frame hs).2.2
  | giveBack =>
    rw [hpc] at hkeep
    simp only [hpc] at hs
    cases hs
    exact hkeep (.rethrow _) (update_self ..) trivial rfl rfl
  | rethrow a =>
    rw [hpc] at hkeep
    cases a with
    | none =>
      simp only [hpc] at hs
      cases hs
      exact hkeep (.threw .brokenTask) (update_self ..) rfl rfl rfl
    | some m =>
      obtain ⟨c, pc, -, -, -, hpc', hself, -⟩ := advance_awaiter (by rw [hpc]; rfl) hstep
      rcases hpc' with ⟨u, hu, -⟩ | ⟨-, rfl⟩
      · cases hpc.symm.trans hu
      simp only [hpc] at hs
      exact hkeep _ hself trivial rfl (resume_frame hs).2.2
  | threw =>
    rw [hpc] at hn
    cases hn
    simp only [hpc] at hs
    cases hs
    exact ⟨.inr (.inr ⟨hpc, update_self .., h⟩), rfl⟩
  | _ =>
    rw [hpc] at hn
    exact hn.elim

/-- A step inside `scoped_async_lock::lock`. -/
theorem relocks_step (hn : (s.pcs n).Relocks w) (h : s.Released w) (hs : s.step (n, a) = some t) :
    RelocksOn s t n w := by
  obtain ⟨hidle, -⟩ | ⟨-, hs⟩ | ⟨v, -, hgranted, -, -⟩ | ⟨c, hc, ⟨-, rfl⟩ | ⟨-, rfl⟩⟩ |
    ⟨c, hc, ⟨-, rfl⟩ | ⟨-, rfl⟩⟩ := step_cases hs
  · rw [hidle] at hn
    exact hn.elim
  · exact relocks_advance hn h hs
  · rw [hgranted] at hn
    cases hn
  all_goals
    rw [hc] at hn
    refine ⟨.inl ⟨?_, h⟩, rfl⟩
    rw [show (s.setPc n _).pcs n = _ from update_self ..]
    first | exact hn | trivial

/-! ### The other tasks -/

/-- The task is where it was, or has been resumed. -/
def PcApart (k : ℕ) (s t : AsyncLock) : Prop :=
  t.pcs k = s.pcs k ∨ ∃ c, s.pcs k = .suspended c ∧ t.pcs k = .loop c false

/-- A step on the lock leaves the other tasks alone, or resumes them. -/
theorem step_pcApart {k : ℕ} (hs : s.step (n, a) = some t) (hk : k ≠ n) : PcApart k s t := by
  cases ha : (s.pcs n).awaiter with
  | none =>
    obtain ⟨pc, hpcs⟩ := step_pcs ha hs
    exact .inl (by rw [hpcs, update_of_ne hk])
  | some m =>
    obtain ⟨c, pc, -, -, hm, -, -, hpcs⟩ := advance_awaiter ha (step_awaiter ha hs)
    by_cases hkm : k = m
    · exact .inr ⟨c, hkm ▸ hm, by rw [hpcs, hkm, update_self]⟩
    · exact .inl (by rw [hpcs, update_of_ne hkm, update_of_ne hk])

end AsyncLock

/-! ### The task that takes a step -/

/-- The task that takes the step, or begins to run with it. -/
def CvMove.actor (s : CvSystem) : CvMove → Option ℕ
  | .execute _ n _ | .enter _ n => some n
  | mv => (s.frames mv.thread).head?

/-- The scoped lock on which the task is inside `await_impl`, before it locks it again. -/
def CvPc.awaits : CvPc → Option ℕ
  | .enterAwait w | .release w | .releasing w | .waiting w | .resumeOn w | .posted w | .relock w =>
      some w
  | _ => none

namespace CvSystem

open AsyncLock (SameWrapper PcApart)

variable {s s' : CvSystem} {mv : CvMove} {k n w : ℕ}

/-- The task is where it was, or has been resumed by the condition variable or by the lock. -/
structure Apart (k : ℕ) (s s' : CvSystem) : Prop where
  pcs : s'.pcs k = s.pcs k ∨ ∃ w, s.pcs k = .waiting w ∧ s'.pcs k = .resumeOn w
  lock : PcApart k s.lock s'.lock

theorem Apart.of_setPc {pc : CvPc} (hk : k ≠ n) (hpcs : s'.pcs = update s.pcs n pc)
    (hlock : PcApart k s.lock s'.lock) : Apart k s s' :=
  ⟨.inl (by rw [hpcs, update_of_ne hk]), hlock⟩

/-- **A step leaves the tasks that do not take it alone, or resumes them.** -/
theorem Taken.apart (h : Taken s mv s') (hk : mv.actor s ≠ some k) : Apart k s s' := by
  -- the innermost task of the thread takes every step but those that put a task on the thread
  have hne : ∀ {t n : ℕ} {rest : List ℕ}, s.frames t = n :: rest → (s.frames t).head? ≠ some k →
      k ≠ n := by
    rintro t n rest hf hk rfl
    exact hk (congrArg List.head? hf)
  cases h with
  | lock hf _ hl =>
    refine ⟨.inl (by rw [afterLock_frame.1]), ?_⟩
    rw [afterLock_lock]
    exact AsyncLock.step_pcApart hl (hne hf hk)
  | release hf _ hl | relock hf _ hl =>
    exact .of_setPc (hne hf hk) rfl (AsyncLock.step_pcApart hl (hne hf hk))
  | call hf | acquire hf | pushAwaiter hf | unwind hf | notifyOne hf | notifyAll hf | done hf
  | post hf
  | inline hf | throw hf => exact .of_setPc (hne hf hk) rfl (.inl rfl)
  | resume hf hn hm =>
    rename_i t n m w rest pc
    have hkn := hne hf hk
    refine ⟨?_, .inl rfl⟩
    change update (update s.pcs n pc) m (.resumeOn w) k = _ ∨ _
    by_cases hkm : k = m
    · exact .inr ⟨w, hkm ▸ hn.resumed hm, by rw [hkm]; exact update_self ..⟩
    · exact .inl (by rw [update_of_ne hkm, update_of_ne hkn])
  | inlineLock hf _ hl hl' =>
    obtain ⟨c, -, rfl⟩ := AsyncLock.step_post hl
    have hkn := hne hf hk
    refine ⟨.inl rfl, ?_⟩
    have happ := AsyncLock.step_pcApart hl' hkn
    unfold PcApart at happ ⊢
    rw [show (s.lock.setPc _ _).pcs k = _ from update_of_ne hkn ..] at happ
    exact happ
  | execute =>
    have hkn : k ≠ _ := fun hkn => hk (congrArg some hkn.symm)
    exact .of_setPc hkn rfl (.inl rfl)
  | executeLock _ _ hl =>
    have hkn : k ≠ _ := fun hkn => hk (congrArg some hkn.symm)
    exact ⟨.inl rfl, AsyncLock.step_pcApart hl hkn⟩
  | enter | leave => exact ⟨.inl rfl, .inl rfl⟩

/-- **A step leaves a wrapper alone** unless its task gets it in an action, writes it at the end of
a function of the lock, or is at the `unlock` or `lock` of an `await` on it. -/
theorem Taken.sameWrapper (h : Taken s mv s')
    (hlock : ∀ t a n, mv = .lock t a → mv.actor s = some n →
      w ∉ a.wrappers ∧ (s.lock.pcs n).writes ≠ some w)
    (hcv : ∀ n, mv.actor s = some n → (s.pcs n).awaits ≠ some w) :
    SameWrapper w s.lock s'.lock := by
  cases h with
  | lock hf ha hl =>
    rw [afterLock_lock]
    obtain ⟨ha, hw⟩ := hlock _ _ _ rfl (congrArg List.head? hf)
    exact AsyncLock.step_wrappers hl ha hw
  | release hf hn hl | relock hf hn hl =>
    have hw := hcv _ (congrArg List.head? hf)
    rw [hn] at hw
    refine AsyncLock.step_wrappers hl
      (fun hmem => hw (congrArg some (List.mem_singleton.1 hmem).symm)) ?_
    have hl := (AsyncLock.step_eq_some.1 hl).2
    simp only [AsyncLock.codeStep] at hl
    split_ifs at hl with hidle
    rw [hidle]
    exact fun hw => by cases hw
  | inlineLock _ _ hl hl' =>
    obtain ⟨c, -, rfl⟩ := AsyncLock.step_post hl
    obtain ⟨c', -, rfl⟩ := AsyncLock.step_execute (b := true) hl'
    exact ⟨rfl, rfl⟩
  | executeLock _ _ hl =>
    obtain ⟨c, -, rfl⟩ := AsyncLock.step_execute hl
    exact ⟨rfl, rfl⟩
  | _ => exact ⟨rfl, rfl⟩

/-- A task that is not inside `await_impl` enters it by a call only. -/
theorem Taken.awaits (h : Taken s mv s') (hcall : ∀ t c, mv ≠ .call t c)
    (hk : (s.pcs k).awaits = none) : (s'.pcs k).awaits = none := by
  -- the new program point of the task that takes the step
  have hset : ∀ {n : ℕ} {pc : CvPc}, (k = n → pc.awaits = none) →
      (update s.pcs n pc k).awaits = none := by
    intro n pc hpc
    by_cases hkn : k = n
    · rw [← hkn, update_self]
      exact hpc hkn
    · rw [update_of_ne hkn]
      exact hk
  have hin : ∀ {n : ℕ} {pc : CvPc}, s.pcs n = pc → pc.awaits ≠ none → k ≠ n := by
    rintro n pc hn hpc rfl
    rw [hn] at hk
    exact hpc hk
  have hsome : ∀ {v : ℕ}, some v ≠ none := fun h => by cases h
  cases h with
  | lock =>
    rw [afterLock_frame.1]
    exact hk
  | call => exact absurd rfl (hcall _ _)
  | acquire _ _ hpc =>
    refine hset ?_
    rintro rfl
    cases hn : s.pcs k with
    | enterAwait => exact absurd rfl (hin hn hsome)
    | enterNotifyOne | enterNotifyAll =>
      rw [hn] at hpc
      cases hpc
      rfl
    | _ =>
      rw [hn] at hpc
      cases hpc
  | release _ hn | pushAwaiter _ hn | post _ hn | inline _ hn | execute _ hn =>
    exact hset fun hkn => absurd hkn (hin hn hsome)
  | unwind | relock | notifyOne | notifyAll | done | throw => exact hset fun _ => rfl
  | @resume t n m w rest pc _ hn hm =>
    have hkm := hin (hn.resumed hm) hsome
    change (update (update s.pcs n pc) m (.resumeOn w) k).awaits = none
    rw [update_of_ne hkm]
    refine hset fun _ => ?_
    rcases hn with ⟨-, rfl⟩ | ⟨l, l', -, -, rfl⟩ <;> rfl
  | _ => exact hk

/-- A task in user code stays there unless it calls something. -/
theorem Taken.userCode (h : Taken s mv s') (hk : s.UserCode k)
    (hlock : ∀ t a, mv = .lock t a → mv.actor s ≠ some k)
    (hcall : ∀ t c, mv = .call t c → mv.actor s ≠ some k) : s'.UserCode k := by
  have hapart : mv.actor s ≠ some k → s'.UserCode k := by
    intro hne
    obtain ⟨hpcs | ⟨w, hw, -⟩, hl | ⟨c, hc, -⟩⟩ := h.apart hne
    · exact ⟨hl.trans hk.1, hpcs.trans hk.2⟩
    · cases hk.1.symm.trans hc
    · cases hk.2.symm.trans hw
    · cases hk.2.symm.trans hw
  -- whoever takes another step is inside one of the two classes
  have hin : ∀ {t n : ℕ} {rest : List ℕ}, s.frames t = n :: rest → s.pcs n ≠ .outside →
      (s.frames t).head? ≠ some k := by
    intro t n rest hf hn hhead
    cases (congrArg List.head? hf).symm.trans hhead
    exact hn hk.2
  cases h with
  | lock => exact hapart (hlock _ _ rfl)
  | call => exact hapart (hcall _ _ rfl)
  | acquire hf _ hpc => exact hapart (hin hf fun hn => by rw [hn] at hpc; cases hpc)
  | release hf hn | pushAwaiter hf hn | unwind hf hn | relock hf hn | notifyOne hf hn
  | notifyAll hf hn
  | post hf hn | inline hf hn | throw hf hn =>
    exact hapart (hin hf fun ho => by cases hn.symm.trans ho)
  | done hf hn =>
    refine hapart (hin hf fun ho => ?_)
    unfold Returns at hn
    rw [ho] at hn
    rcases hn with hn | ⟨e, hn⟩ | ⟨l, hn, -⟩ <;> cases hn
  | resume hf hn =>
    refine hapart (hin hf fun ho => ?_)
    unfold Takes at hn
    rw [ho] at hn
    rcases hn with ⟨hn, -⟩ | ⟨l, l', hn, -⟩ <;> cases hn
  | inlineLock hf _ hl =>
    obtain ⟨c, hc, -⟩ := AsyncLock.step_post hl
    refine hapart fun hhead => ?_
    cases (congrArg List.head? hf).symm.trans hhead
    cases hk.1.symm.trans hc
  | execute _ hn =>
    refine hapart fun hact => ?_
    cases hact
    cases hk.2.symm.trans hn
  | executeLock _ _ hl =>
    obtain ⟨c, hc, -⟩ := AsyncLock.step_execute hl
    refine hapart fun hact => ?_
    cases hact
    cases hk.1.symm.trans hc
  | enter | leave => exact hk

end CvSystem

end Concurrencpp
