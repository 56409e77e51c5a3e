import Concurrencpp.Threads.CvAwaitSteps

/-!
# Inside `await_impl`

What the scoped lock of a wait is worth at each of its program points: it owns the lock up to the
`unlock` in `await_suspend`, and not at all from there to the end of the `lock` in `await_impl`.

* `AwaitPlace l n w pc`: the task `n` is inside `await_impl` on the wrapper `w`, at `pc` in the
  condition variable.
* `AwaitPlace.apart`: the steps of the others.
* `CvSystem.Taken.placeStep`: its own steps; `CvSystem.Ended` is how it comes out.
-/

namespace Concurrencpp

open AsyncLock (SameWrapper PcApart RelocksOn)
open Function (update_self)

/-- The task `n` is inside `await_impl` on the wrapper `w`. -/
inductive AwaitPlace (l : AsyncLock) (n w : ℕ) : CvPc → Prop
  | enterAwait (hi : l.pcs n = .idle) (ho : l.Owns w) : AwaitPlace l n w (.enterAwait w)
  | release (hi : l.pcs n = .idle) (ho : l.Owns w) : AwaitPlace l n w (.release w)
  | unlocks (hu : (l.pcs n).Unlocks w) (hr : l.Releasing n w) : AwaitPlace l n w (.releasing w)
  | releasing (hi : l.pcs n = .idle) (hr : l.Released w) : AwaitPlace l n w (.releasing w)
  | waiting (hi : l.pcs n = .idle) (hr : l.Released w) : AwaitPlace l n w (.waiting w)
  | resumeOn (hi : l.pcs n = .idle) (hr : l.Released w) : AwaitPlace l n w (.resumeOn w)
  | posted (hi : l.pcs n = .idle) (hr : l.Released w) : AwaitPlace l n w (.posted w)
  | relock (hi : l.pcs n = .idle) (hr : l.Released w) : AwaitPlace l n w (.relock w)
  | relocks (hl : (l.pcs n).Relocks w) (hr : l.Released w) : AwaitPlace l n w .outside
  | threw (hi : l.pcs n = .idle) (hr : l.Released w) : AwaitPlace l n w (.threw .brokenTask)

variable {l l' : AsyncLock} {n v w : ℕ} {pc pc' : CvPc}

theorem AwaitPlace.awaits (h : AwaitPlace l n w pc) (hv : pc.awaits = some v) : v = w := by
  cases h <;> cases hv <;> rfl

theorem AwaitPlace.acquires (h : AwaitPlace l n w pc) (hpc : pc.acquires = some pc') :
    AwaitPlace l n w pc' := by
  cases h with
  | enterAwait hi ho =>
    cases hpc
    exact .release hi ho
  | _ => cases hpc

/-- `await_suspend` is behind `scoped_async_lock::unlock`. -/
theorem AwaitPlace.of_releasing (h : AwaitPlace l n w (.releasing v))
    (hl : (l.pcs n).releases = none) : v = w ∧ l.pcs n = .idle ∧ l.Released w := by
  cases h with
  | unlocks hu => rcases hu with hu | hu | ⟨a, hu⟩ | hu <;> (rw [hu] at hl; cases hl)
  | releasing hi hr => exact ⟨rfl, hi, hr⟩

/-- The task is on its way to the resume executor. -/
theorem AwaitPlace.of_hop (h : AwaitPlace l n w pc) (hpc : pc = .resumeOn v ∨ pc = .posted v) :
    v = w ∧ l.pcs n = .idle ∧ l.Released w := by
  cases h with
  | resumeOn hi hr | posted hi hr =>
    rcases hpc with hpc | hpc <;> cases hpc
    exact ⟨rfl, hi, hr⟩
  | _ => rcases hpc with hpc | hpc <;> cases hpc

/-- A step of somebody else that leaves the wrapper alone. -/
theorem AwaitPlace.apart (h : AwaitPlace l n w pc)
    (hpc : pc' = pc ∨ ∃ v, pc = .waiting v ∧ pc' = .resumeOn v) (hl : PcApart n l l')
    (hw : SameWrapper w l l') : AwaitPlace l' n w pc' := by
  -- only a task that is suspended in the lock can be moved there
  have hidle : l.pcs n = .idle → l'.pcs n = .idle := by
    intro hi
    rcases hl with hl | ⟨c, hc, -⟩
    · exact hl.trans hi
    · cases hi.symm.trans hc
  rcases hpc with rfl | ⟨v, rfl, rfl⟩
  · cases h with
    | enterAwait hi ho => exact .enterAwait (hidle hi) (hw.owns ho)
    | release hi ho => exact .release (hidle hi) (hw.owns ho)
    | unlocks hu hr =>
      refine .unlocks ?_ (hw.releasing hr)
      rcases hl with hl | ⟨c, hc, -⟩
      · rw [hl]
        exact hu
      · rw [hc] at hu
        rcases hu with hu | hu | ⟨a, hu⟩ | hu <;> cases hu
    | releasing hi hr => exact .releasing (hidle hi) (hw.released hr)
    | waiting hi hr => exact .waiting (hidle hi) (hw.released hr)
    | resumeOn hi hr => exact .resumeOn (hidle hi) (hw.released hr)
    | posted hi hr => exact .posted (hidle hi) (hw.released hr)
    | relock hi hr => exact .relock (hidle hi) (hw.released hr)
    | relocks hu hr =>
      refine .relocks ?_ (hw.released hr)
      rcases hl with hl | ⟨c, hc, hc'⟩
      · rw [hl]
        exact hu
      · rw [hc] at hu
        rw [hc']
        exact hu
    | threw hi hr => exact .threw (hidle hi) (hw.released hr)
  · cases h with
    | waiting hi hr => exact .resumeOn (hidle hi) (hw.released hr)

namespace CvSystem

variable {s s' : CvSystem} {mv : CvMove}

theorem not_userCode_of_place (h : AwaitPlace s.lock n w (s.pcs n)) : ¬ s.UserCode n := by
  rintro ⟨hl, hpc⟩
  rw [hpc] at h
  cases h with
  | relocks hr =>
    rw [hl] at hr
    exact hr

/-- A step with which the task comes out of `await_impl`: with the lock, or without it by the
exception of one of the two `resume_on`s. -/
structure Ended (s s' : CvSystem) (n w : ℕ) : Prop where
  userCode : s'.UserCode n
  outcome : (s.pcs n = .outside ∧ s.lock.pcs n = .granted (.ofScoped w) ∧ s'.lock.Owns w) ∨
    (s'.lock.Released w ∧
      (s.pcs n = .threw .brokenTask ∨ (s.pcs n = .outside ∧ s.lock.pcs n = .threw .brokenTask)))

/-- What a step of the task does inside `await_impl`: it goes on there, or comes out of it as the
innermost task of its thread; it never hands the lock to a place outside every wrapper. -/
structure PlaceStep (s s' : CvSystem) (mv : CvMove) (n w : ℕ) : Prop where
  raw : s'.lock.raw = s.lock.raw
  place : AwaitPlace s'.lock n w (s'.pcs n) ∨
    ((s.frames mv.thread).head? = some n ∧ Ended s s' n w)

theorem placeStep_of_relocksOn {l : AsyncLock} (hn : s.pcs n = .outside) (hn' : s'.pcs n = .outside)
    (hl : s'.lock = l) (hf : (s.frames mv.thread).head? = some n) (h : RelocksOn s.lock l n w) :
    PlaceStep s s' mv n w := by
  subst hl
  obtain ⟨⟨hr, hw⟩ | ⟨hg, hi, ho⟩ | ⟨ht, hi, hr⟩, hraw⟩ := h
  · exact ⟨hraw, .inl (by rw [hn']; exact .relocks hr hw)⟩
  · exact ⟨hraw, .inr ⟨hf, ⟨hi, hn'⟩, .inl ⟨hn, hg, ho⟩⟩⟩
  · exact ⟨hraw, .inr ⟨hf, ⟨hi, hn'⟩, .inr ⟨hr, .inr ⟨hn, ht⟩⟩⟩⟩

theorem placeStep_lock {t : ℕ} {rest : List ℕ} {a : LockAction} {l : AsyncLock}
    (hr : s.lock.Reachable) (h : AwaitPlace s.lock n w (s.pcs n)) (hf : s.frames t = n :: rest)
    (ha : s.mayLock n a = true) (hl : s.lock.step (n, a) = some l) :
    PlaceStep s (s.afterLock t n l) (.lock t a) n w := by
  have hpcs : (s.afterLock t n l).pcs n = s.pcs n := congrFun afterLock_frame.1 n
  rcases mayLock_cases ha with hn | ⟨v, hn, rfl, hne⟩
  · rw [hn] at h
    cases h with
    | relocks hu hw =>
      exact placeStep_of_relocksOn hn (hpcs.trans hn) afterLock_lock (congrArg List.head? hf)
        (AsyncLock.relocks_step hu hw hl)
  · have hadv := AsyncLock.advance_of_step hl
    rw [hn] at h
    cases h with
    | unlocks hu hw =>
      obtain ⟨hon | ⟨hi, hreleased⟩, hraw⟩ := AsyncLock.unlocks_step hr hu hw hadv
      · refine ⟨by rw [afterLock_lock, hraw], .inl ?_⟩
        rw [hpcs, hn, afterLock_lock]
        exact .unlocks hon.1 hon.2
      · refine ⟨by rw [afterLock_lock, hraw], .inl ?_⟩
        rw [hpcs, hn, afterLock_lock]
        exact .releasing hi hreleased
    | releasing hi => cases (AsyncLock.advance_idle hi).symm.trans hadv

/-- The task goes on inside `await_impl`, and nothing happens to the lock. -/
theorem placeStep_goto {pc : CvPc} (hpcs : s'.pcs = Function.update s.pcs n pc)
    (hl : s'.lock = s.lock) (hp : AwaitPlace s.lock n w pc) : PlaceStep s s' mv n w := by
  refine ⟨by rw [hl], .inl ?_⟩
  rw [hpcs, hl, update_self]
  exact hp

/-- `scoped_async_lock::unlock` or `lock` begins. -/
theorem placeStep_begin {pc : CvPc} (hpcs : s'.pcs = Function.update s.pcs n pc)
    (hraw : s'.lock.raw = s.lock.raw) (hp : AwaitPlace s'.lock n w pc) : PlaceStep s s' mv n w := by
  refine ⟨hraw, .inl ?_⟩
  rw [hpcs, update_self]
  exact hp

/-- The resume executor moves a task that is inside `scoped_async_lock::lock`. -/
theorem placeStep_hop (hn : s.pcs n = .outside) (hpcs : s'.pcs = s.pcs)
    (hp : AwaitPlace s.lock n w (s.pcs n)) (hsame : SameWrapper w s.lock s'.lock)
    (hraw : s'.lock.raw = s.lock.raw) (hpc : (s.lock.pcs n).Relocks w → (s'.lock.pcs n).Relocks w) :
    PlaceStep s s' mv n w := by
  refine ⟨hraw, .inl ?_⟩
  rw [hn] at hp
  rw [hpcs, hn]
  cases hp with
  | relocks hu hr => exact .relocks (hpc hu) (hsame.released hr)

theorem placeStep_done (hp : AwaitPlace s.lock n w (s.pcs n)) (hn : s.Returns n)
    (ha : (s.frames mv.thread).head? = some n) : PlaceStep s (s.setPc n .outside) mv n w := by
  unfold Returns at hn
  generalize hpc : s.pcs n = pc at hp hn
  cases hp with
  | threw hi hrel => exact ⟨rfl, .inr ⟨ha, ⟨hi, update_self ..⟩, .inr ⟨hrel, .inl hpc⟩⟩⟩
  | _ => rcases hn with hn | ⟨e, hn⟩ | ⟨l, hn, -⟩ <;> cases hn

/-- **A step of a task inside `await_impl`.** -/
theorem Taken.placeStep (h : Taken s mv s') (hr : s.lock.Reachable) (ha : mv.actor s = some n)
    (hp : AwaitPlace s.lock n w (s.pcs n)) : PlaceStep s s' mv n w := by
  have huser := not_userCode_of_place hp
  -- the task on top of the thread is the one that acts
  have htop : ∀ {t m : ℕ} {rest : List ℕ}, s.frames t = m :: rest → (s.frames t).head? = some n →
      m = n :=
    fun hf hhead => Option.some.inj ((congrArg List.head? hf).symm.trans hhead)
  cases h with
  | lock hf hmay hl =>
    cases htop hf ha
    exact placeStep_lock hr hp hf hmay hl
  | call hf hu | leave hf hu =>
    cases htop hf ha
    exact absurd hu huser
  | acquire hf _ hpc =>
    cases htop hf ha
    exact placeStep_goto rfl rfl (hp.acquires hpc)
  | release hf hn hl =>
    cases htop hf ha
    rw [hn] at hp
    cases hp with
    | release _ ho =>
      obtain ⟨hu, hrel, hraw⟩ := AsyncLock.scopedUnlock_step ho hl
      exact placeStep_begin rfl hraw (.unlocks hu hrel)
  | pushAwaiter hf hn hi =>
    cases htop hf ha
    rw [hn] at hp
    obtain ⟨rfl, -, hrel⟩ := hp.of_releasing (by rw [hi]; rfl)
    exact placeStep_goto rfl rfl (.waiting hi hrel)
  | unwind hf hn he =>
    cases htop hf ha
    rw [hn] at hp
    obtain ⟨-, hi, -⟩ := hp.of_releasing (by rw [he]; rfl)
    cases hi.symm.trans he
  | relock hf hn hl =>
    cases htop hf ha
    rw [hn] at hp
    cases hp with
    | relock _ hrel =>
      obtain ⟨hu, hrel, hraw⟩ := AsyncLock.scopedLock_step hrel hl
      exact placeStep_begin rfl hraw (.relocks hu hrel)
  | notifyOne hf hn | notifyAll hf hn =>
    cases htop hf ha
    rw [hn] at hp
    cases hp
  | done hf hn =>
    cases htop hf ha
    exact placeStep_done hp hn ha
  | resume hf hn =>
    cases htop hf ha
    unfold Takes at hn
    generalize s.pcs n = pc at hp hn
    cases hp <;> rcases hn with ⟨hn, -⟩ | ⟨l, l', hn, -⟩ <;> cases hn
  | post hf hn =>
    cases htop hf ha
    obtain ⟨rfl, hi, hrel⟩ := hp.of_hop (.inl hn)
    exact placeStep_goto rfl rfl (.posted hi hrel)
  | inline hf hn =>
    cases htop hf ha
    obtain ⟨rfl, hi, hrel⟩ := hp.of_hop (.inl hn)
    exact placeStep_goto rfl rfl (.relock hi hrel)
  | throw hf hn =>
    cases htop hf ha
    obtain ⟨rfl, hi, hrel⟩ := hp.of_hop (.inl hn)
    exact placeStep_goto rfl rfl (.threw hi hrel)
  | inlineLock hf hn hl hl' =>
    cases htop hf ha
    obtain ⟨c, hc, rfl⟩ := AsyncLock.step_post hl
    obtain ⟨c', hc', rfl⟩ := AsyncLock.step_execute (b := true) hl'
    cases (update_self ..).symm.trans hc'
    refine placeStep_hop hn rfl hp ⟨rfl, rfl⟩ rfl fun hu => ?_
    rw [hc] at hu
    rw [show (AsyncLock.setPc _ n _).pcs n = _ from update_self ..]
    exact hu
  | @execute _ _ _ invoked _ hn =>
    cases ha
    obtain ⟨rfl, hi, hrel⟩ := hp.of_hop (.inr hn)
    refine placeStep_goto rfl rfl ?_
    cases invoked with
    | true => exact .relock hi hrel
    | false => exact .threw hi hrel
  | executeLock _ hn hl =>
    cases ha
    obtain ⟨c, hc, rfl⟩ := AsyncLock.step_execute hl
    refine placeStep_hop hn rfl hp ⟨rfl, rfl⟩ rfl fun hu => ?_
    rw [hc] at hu
    change ((s.lock.setPc n _).pcs n).Relocks w
    rw [show (AsyncLock.setPc _ n _).pcs n = _ from update_self ..]
    split_ifs
    · exact hu
    · trivial
  | enter _ hu =>
    cases ha
    exact absurd hu huser

end CvSystem

end Concurrencpp
