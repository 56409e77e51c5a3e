import Concurrencpp.Threads.CvSteps
import Concurrencpp.Threads.AsyncLockChain

/-!
# Tasks, threads and mutexes of the condition variable

What holds in every run, whatever the resume executors do: a task runs on one thread at a time and
not at all while it is suspended, the holder of `m_awaiter_lock` is the innermost task of its
thread, and the holder of the condition variable's `m_lock` is in one of its critical sections.

* `FramesOk`: the stacks of the threads; `OnTop`: the task is the innermost one of some thread.
* `CvPc.Coupled`: where a task can be in the lock while it is in the condition variable.
* `ThreadsOk`: the invariant.  `goto`, `setLock`, `push` and `pop` are the changes of which a step
  is made.
-/

namespace Concurrencpp

open Function (update update_eq_self update_idem update_self update_of_ne forall_update_iff)

/-- Where a task is in the lock while it is in the condition variable: in
`scoped_async_lock::unlock` inside `await_suspend`, and nowhere at all other points. -/
def CvPc.Coupled : CvPc → LockPc → Prop
  | .outside, _ => True
  | .releasing w, pc => pc = .unlock (.ofScoped w) ∨ pc = .unlocking (.ofScoped w) ∨
      (∃ a, pc = .retry (.ofScoped w) a) ∨ pc = .unlocked (.ofScoped w) ∨ pc = .idle ∨
      ∃ e, pc = .threw e
  | _, pc => pc = .idle

theorem CvPc.coupled_idle (pc : CvPc) : pc.Coupled .idle := by
  cases pc with
  | outside => trivial
  | releasing => exact .inr (.inr (.inr (.inr (.inl rfl))))
  | _ => rfl

/-- A task that is suspended in the lock, or in its resume executor, is outside the condition
variable. -/
theorem CvPc.eq_outside_of_parked {cv : CvPc} {pc : LockPc} (h : cv.Coupled pc)
    (hp : pc.parked = true) : cv = .outside := by
  cases cv with
  | outside => rfl
  | releasing =>
    obtain rfl | rfl | ⟨a, rfl⟩ | rfl | rfl | ⟨e, rfl⟩ := h <;> cases hp
  | _ =>
    cases h
    cases hp

namespace CvSystem

/-! ### Stacks -/

section Frames

variable {frames : ℕ → List ℕ} {running : ℕ → Bool} {t n m : ℕ} {rest : List ℕ}

/-- A task is on at most one stack, once, and is marked as running if it is. -/
structure FramesOk (frames : ℕ → List ℕ) (running : ℕ → Bool) : Prop where
  nodup : ∀ t, (frames t).Nodup
  running : ∀ t n, n ∈ frames t → running n = true
  unique : ∀ t t' n, n ∈ frames t → n ∈ frames t' → t = t'

/-- The task is the innermost one of a thread. -/
def OnTop (frames : ℕ → List ℕ) (n : ℕ) : Prop := ∃ t rest, frames t = n :: rest

theorem FramesOk.push (h : FramesOk frames running) (hm : running m = false) :
    FramesOk (update frames t (m :: frames t)) (update running m true) := by
  have hnot : ∀ t, m ∉ frames t := fun t ht => by cases hm.symm.trans (h.running t m ht)
  have hmem : ∀ t' n, n ∈ update frames t (m :: frames t) t' →
      (n = m ∧ t' = t) ∨ (n ≠ m ∧ n ∈ frames t') := by
    intro t' n hn
    by_cases ht : t' = t
    · subst ht
      rw [update_self] at hn
      rcases List.mem_cons.1 hn with rfl | hn
      · exact .inl ⟨rfl, rfl⟩
      · exact .inr ⟨fun hnm => hnot t' (hnm ▸ hn), hn⟩
    · rw [update_of_ne ht] at hn
      exact .inr ⟨fun hnm => hnot t' (hnm ▸ hn), hn⟩
  constructor
  case nodup =>
    exact (forall_update_iff frames fun _ l => l.Nodup).2
      ⟨List.nodup_cons.2 ⟨hnot t, h.nodup t⟩, fun t' _ => h.nodup t'⟩
  case running =>
    intro t' n hn
    rcases hmem t' n hn with ⟨rfl, -⟩ | ⟨hnm, hn⟩
    · exact update_self ..
    · rw [update_of_ne hnm]
      exact h.running t' n hn
  case unique =>
    intro t₁ t₂ n h₁ h₂
    rcases hmem t₁ n h₁ with ⟨hnm, ht₁⟩ | ⟨hnm, h₁⟩ <;>
      rcases hmem t₂ n h₂ with ⟨hnm', ht₂⟩ | ⟨hnm', h₂⟩
    · rw [ht₁, ht₂]
    · exact absurd hnm hnm'
    · exact absurd hnm' hnm
    · exact h.unique t₁ t₂ n h₁ h₂

theorem FramesOk.pop (h : FramesOk frames running) (hf : frames t = n :: rest) :
    FramesOk (update frames t (frames t).tail) (update running n false) := by
  have hnd := h.nodup t
  rw [hf] at hnd
  have hmem : ∀ t' k, k ∈ update frames t (frames t).tail t' → k ≠ n ∧ k ∈ frames t' := by
    intro t' k hk
    have hk' : k ∈ frames t' := by
      by_cases ht : t' = t
      · subst ht
        rw [update_self] at hk
        exact List.mem_of_mem_tail hk
      · rwa [update_of_ne ht] at hk
    refine ⟨?_, hk'⟩
    rintro rfl
    obtain rfl : t' = t := h.unique t' t k hk' (by rw [hf]; exact List.mem_cons_self)
    rw [update_self, hf] at hk
    exact (List.nodup_cons.1 hnd).1 hk
  constructor
  case nodup =>
    exact (forall_update_iff frames fun _ l => l.Nodup).2 ⟨(h.nodup t).tail, fun t' _ => h.nodup t'⟩
  case running =>
    intro t' k hk
    obtain ⟨hkn, hk⟩ := hmem t' k hk
    rw [update_of_ne hkn]
    exact h.running t' k hk
  case unique =>
    intro t₁ t₂ k h₁ h₂
    exact h.unique t₁ t₂ k (hmem t₁ k h₁).2 (hmem t₂ k h₂).2

theorem OnTop.push (h : OnTop frames n) (hn : ∀ rest, frames t ≠ n :: rest) :
    OnTop (update frames t (m :: frames t)) n := by
  obtain ⟨t', rest, hf⟩ := h
  have ht : t' ≠ t := by
    rintro rfl
    exact hn rest hf
  exact ⟨t', rest, by rw [update_of_ne ht, hf]⟩

theorem OnTop.pop (h : OnTop frames n) (hf : frames t = m :: rest) (hnm : n ≠ m) :
    OnTop (update frames t (frames t).tail) n := by
  obtain ⟨t', rest', hf'⟩ := h
  have ht : t' ≠ t := by
    rintro rfl
    rw [hf] at hf'
    cases hf'
    exact hnm rfl
  exact ⟨t', rest', by rw [update_of_ne ht, hf']⟩

end Frames

/-! ### The invariant -/

variable {s s' : CvSystem} {t n m : ℕ} {pc : CvPc} {rest : List ℕ}

/-- Threads, program points and mutexes. -/
structure ThreadsOk (s : CvSystem) : Prop where
  frames : FramesOk s.frames s.running
  parkedLock : ∀ n, (s.lock.pcs n).parked = true → s.running n = false
  parked : ∀ n, (s.pcs n).parked = true → s.running n = false
  coupled : ∀ n, (s.pcs n).Coupled (s.lock.pcs n)
  mutex : ∀ n, (s.pcs n).holds = true ↔ s.cvLock = some n
  inside : ∀ n, (s.lock.pcs n).inside = true → OnTop s.frames n

/-- A step of the task `n` that leaves `cvLock` at `c`. -/
theorem ThreadsOk.setPc {c : Option ℕ} (h : s.ThreadsOk)
    (hp : pc.parked = true → s.running n = false) (hc : pc.Coupled (s.lock.pcs n))
    (hh : pc.holds = true ↔ c = some n)
    (hother : ∀ k, k ≠ n → ((s.pcs k).holds = true ↔ c = some k)) :
    { s.setPc n pc with cvLock := c }.ThreadsOk :=
  { h with
    parked := (forall_update_iff _ fun k (pc : CvPc) => pc.parked = true → s.running k = false).2
      ⟨hp, fun k _ => h.parked k⟩
    coupled := (forall_update_iff _ fun k (pc : CvPc) => pc.Coupled (s.lock.pcs k)).2
      ⟨hc, fun k _ => h.coupled k⟩
    mutex :=
      (forall_update_iff _ fun k (pc : CvPc) => pc.holds = true ↔ c = some k).2 ⟨hh, hother⟩ }

theorem ThreadsOk.goto (h : s.ThreadsOk) (hp : pc.parked = true → s.running n = false)
    (hc : pc.Coupled (s.lock.pcs n)) (hh : pc.holds = (s.pcs n).holds) : (s.setPc n pc).ThreadsOk :=
  h.setPc hp hc (by rw [hh]; exact h.mutex n) fun k _ => h.mutex k

theorem ThreadsOk.acquire (h : s.ThreadsOk) (hfree : s.cvLock = none) (hp : pc.parked = false)
    (hc : pc.Coupled (s.lock.pcs n)) (hh : pc.holds = true) :
    { s.setPc n pc with cvLock := some n }.ThreadsOk :=
  h.setPc (fun hp' => absurd (hp.symm.trans hp') Bool.false_ne_true) hc (by simp [hh])
    fun k hk => by rw [h.mutex k, hfree]; simp [hk.symm]

theorem ThreadsOk.unlock (h : s.ThreadsOk) (hn : (s.pcs n).holds = true)
    (hp : pc.parked = true → s.running n = false) (hc : pc.Coupled (s.lock.pcs n))
    (hh : pc.holds = false) : { s.setPc n pc with cvLock := none }.ThreadsOk :=
  h.setPc hp hc (by simp [hh]) fun k hk => by rw [h.mutex k, (h.mutex n).1 hn]; simp [hk.symm]

variable {l : AsyncLock} {q : LockPc}

theorem ThreadsOk.coupled_update (h : s.ThreadsOk) (hl : l.pcs = update s.lock.pcs n q)
    (hc : (s.pcs n).Coupled q) (k : ℕ) : (s.pcs k).Coupled (l.pcs k) := by
  rw [hl]
  exact (forall_update_iff _ fun k (q : LockPc) => (s.pcs k).Coupled q).2
    ⟨hc, fun k _ => h.coupled k⟩ k

/-- A step on the lock that moves one task. -/
theorem ThreadsOk.setLock (h : s.ThreadsOk) (hl : l.pcs = update s.lock.pcs n q)
    (hp : q.parked = true → s.running n = false) (hc : (s.pcs n).Coupled q)
    (hi : q.inside = true → OnTop s.frames n) : { s with lock := l }.ThreadsOk := by
  refine { h with parkedLock := ?parkedLock, coupled := ?coupled, inside := ?inside }
  case parkedLock =>
    change ∀ k, (l.pcs k).parked = true → s.running k = false
    rw [hl]
    exact (forall_update_iff _ fun k (q : LockPc) => q.parked = true → s.running k = false).2
      ⟨hp, fun k _ => h.parkedLock k⟩
  case coupled => exact h.coupled_update hl hc
  case inside =>
    change ∀ k, (l.pcs k).inside = true → OnTop s.frames k
    rw [hl]
    exact (forall_update_iff _ fun k (q : LockPc) => q.inside = true → OnTop s.frames k).2
      ⟨hi, fun k _ => h.inside k⟩

theorem ThreadsOk.push (h : s.ThreadsOk) (hm : s.running m = false)
    (hpl : (s.lock.pcs m).parked = false) (hp : (s.pcs m).parked = false)
    (ht : ∀ n rest, s.frames t = n :: rest → (s.lock.pcs n).inside = false) :
    (s.push t m).ThreadsOk :=
  { h with
    frames := h.frames.push hm
    parkedLock :=
      (forall_update_iff s.running fun k b => (s.lock.pcs k).parked = true → b = false).2
      ⟨fun hp' => absurd (hpl.symm.trans hp') Bool.false_ne_true, fun k _ => h.parkedLock k⟩
    parked := (forall_update_iff s.running fun k b => (s.pcs k).parked = true → b = false).2
      ⟨fun hp' => absurd (hp.symm.trans hp') Bool.false_ne_true, fun k _ => h.parked k⟩
    inside :=
      fun k hk => (h.inside k hk).push fun rest hf => by cases (ht k rest hf).symm.trans hk }

/-- A step on the lock with which its task suspends. -/
theorem ThreadsOk.suspend (h : s.ThreadsOk) (hl : l.pcs = update s.lock.pcs n q)
    (hf : s.frames t = n :: rest) (hc : (s.pcs n).Coupled q) (hi : q.inside = false) :
    ({ s with lock := l }.pop t n).ThreadsOk := by
  refine { h with
    frames := h.frames.pop hf
    parkedLock := ?parkedLock
    parked := (forall_update_iff s.running fun k b => (s.pcs k).parked = true → b = false).2
      ⟨fun _ => rfl, fun k _ => h.parked k⟩
    coupled := ?coupled
    inside := ?inside }
  case parkedLock =>
    intro k hk
    by_cases hkn : k = n
    · rw [hkn]
      exact update_self ..
    · have hk : (l.pcs k).parked = true := hk
      rw [hl, update_of_ne hkn] at hk
      exact (update_of_ne hkn ..).trans (h.parkedLock k hk)
  case coupled => exact h.coupled_update hl hc
  case inside =>
    change ∀ k, (l.pcs k).inside = true → _
    intro k hk
    have hkn : k ≠ n := by
      rintro rfl
      rw [hl, update_self] at hk
      cases hi.symm.trans hk
    rw [hl, update_of_ne hkn] at hk
    exact (h.inside k hk).pop hf hkn

theorem ThreadsOk.pop (h : s.ThreadsOk) (hf : s.frames t = n :: rest)
    (hi : (s.lock.pcs n).inside = false) : (s.pop t n).ThreadsOk :=
  h.suspend (update_eq_self ..).symm hf (h.coupled n) hi

/-! ### Steps on the lock -/

theorem mayLock_cases {a : LockAction} (ha : s.mayLock n a = true) :
    s.pcs n = .outside ∨
    ∃ w, s.pcs n = .releasing w ∧ a = .advance ∧ ∀ e, s.lock.pcs n ≠ .threw e := by
  unfold mayLock at ha
  cases hn : s.pcs n with
  | outside => exact .inl rfl
  | releasing w =>
    simp only [hn] at ha
    refine .inr ⟨w, rfl, ?_⟩
    split at ha
    · cases ha
    next hpc => exact ⟨rfl, fun e he => hpc e he⟩
    · cases ha
  | _ =>
    simp only [hn] at ha
    cases ha

/-- `await_suspend` stays in `scoped_async_lock::unlock` until it has returned. -/
theorem coupled_step {a : LockAction} (h : s.ThreadsOk) (ha : s.mayLock n a = true)
    (hw : (s.lock.pcs n).awaiter = none) (hl : s.lock.step (n, a) = some l) :
    (s.pcs n).Coupled (l.pcs n) := by
  rcases mayLock_cases ha with hn | ⟨w, hn, rfl, hne⟩
  · rw [hn]
    trivial
  · have hc := h.coupled n
    rw [hn] at hc ⊢
    obtain ⟨h₁, h₂, h₃, h₄⟩ :=
      AsyncLock.advance_unlock (u := .ofScoped w) (AsyncLock.advance_of_step hl)
    obtain hpc | hpc | ⟨m, hpc⟩ | hpc | hpc | ⟨e, hpc⟩ := hc
    · exact .inr (.inl (h₁ hpc))
    · rcases h₂ hpc with ⟨m, hm⟩ | ⟨e, he⟩
      · exact .inr (.inr (.inl ⟨m, hm⟩))
      · exact .inr (.inr (.inr (.inr (.inr ⟨e, he⟩))))
    · rw [hpc] at hw
      cases hw
      exact .inr (.inr (.inr (.inl (h₃ hpc))))
    · exact .inr (.inr (.inr (.inr (.inl (h₄ hpc)))))
    · cases (AsyncLock.advance_idle hpc).symm.trans (AsyncLock.advance_of_step hl)
    · exact absurd hpc (hne e)

theorem threadsOk_lock {a : LockAction} (h : s.ThreadsOk) (hf : s.frames t = n :: rest)
    (ha : s.mayLock n a = true) (hl : s.lock.step (n, a) = some l) :
    (s.afterLock t n l).ThreadsOk := by
  rw [afterLock_eq]
  cases hw : (s.lock.pcs n).awaiter with
  | none =>
    obtain ⟨q, hpcs⟩ := AsyncLock.step_pcs hw hl
    have hln : l.pcs n = q := by rw [hpcs, update_self]
    have hc : (s.pcs n).Coupled q := hln ▸ coupled_step h ha hw hl
    rw [hln]
    split_ifs with hp
    · exact h.suspend hpcs hf hc (by cases q <;> first | rfl | cases hp)
    · exact h.setLock hpcs (fun hp' => absurd hp' hp) hc fun _ => ⟨t, rest, hf⟩
  | some m =>
    -- the task that `retry` resumes runs on this thread
    obtain ⟨c, q, -, -, hms, hqpc, hln, hpcs⟩ :=
      AsyncLock.advance_awaiter hw (AsyncLock.step_awaiter hw hl)
    have hqp : q.parked = false ∧ q.inside = false := by
      rcases hqpc with ⟨u, -, rfl⟩ | ⟨-, rfl⟩ <;> exact ⟨rfl, rfl⟩
    have hc : (s.pcs n).Coupled q := by
      rcases mayLock_cases ha with hn | ⟨w, hn, -, -⟩
      · rw [hn]
        trivial
      · have hc := h.coupled n
        rw [hn] at hc ⊢
        rcases hqpc with ⟨u, hu, rfl⟩ | ⟨hu, rfl⟩
        · rw [hu] at hc
          obtain hc | hc | ⟨a, hc⟩ | hc | hc | ⟨e, hc⟩ := hc <;> cases hc
          exact .inr (.inr (.inr (.inl rfl)))
        · rw [hu] at hc
          obtain hc | hc | ⟨a, hc⟩ | hc | hc | ⟨e, hc⟩ := hc <;> cases hc
    have hmout : s.pcs m = .outside := CvPc.eq_outside_of_parked (h.coupled m) (by rw [hms]; rfl)
    have hrun : s.running m = false := h.parkedLock m (by rw [hms]; rfl)
    have h₁ : { s with lock := s.lock.setPc n q }.ThreadsOk :=
      h.setLock rfl (fun hp => absurd (hqp.1.symm.trans hp) Bool.false_ne_true) hc fun hi =>
        absurd (hqp.2.symm.trans hi) Bool.false_ne_true
    have h₂ : { s with lock := l }.ThreadsOk :=
      h₁.setLock hpcs (by simp [LockPc.parked])
        (by rw [show CvSystem.pcs _ m = _ from hmout]; trivial) (by simp [LockPc.inside])
    rw [hln, hqp.1]
    refine h₂.push hrun ?_ ?_ fun k rest' hf' => ?_
    · rw [show AsyncLock.pcs l m = _ from congrFun hpcs m, update_self]
      rfl
    · rw [show CvSystem.pcs _ m = _ from hmout]
      rfl
    · have hkn : k = n := by
        have := hf.symm.trans hf'
        cases this
        rfl
      rw [hkn]
      exact (congrArg LockPc.inside hln).trans hqp.2

/-! ### The other steps -/

/-- Outside the condition variable, or in `scoped_async_lock::unlock`: where a task may be in the
lock. -/
def CvPc.maybeInLock : CvPc → Bool
  | .outside | .releasing _ => true
  | _ => false

theorem ThreadsOk.lock_idle (h : s.ThreadsOk) (hn : s.pcs n = pc)
    (hpc : CvPc.maybeInLock pc = false) : s.lock.pcs n = .idle := by
  have hc := h.coupled n
  rw [hn] at hc
  cases pc with
  | outside | releasing => cases hpc
  | _ => exact hc

/-- A thread that may begin to run another task is in user code or inside `executor::post`. -/
theorem hosts_cases (ht : s.hosts t = true) (hf : s.frames t = n :: rest) :
    s.UserCode n ∨ (∃ w, s.pcs n = .resumeOn w) ∨
    (s.pcs n = .outside ∧ ∃ c, s.lock.pcs n = .resumeOn c) := by
  simp only [hosts, hf, Bool.or_eq_true, decide_eq_true_eq] at ht
  refine ht.imp_right fun hp => ?_
  unfold posting at hp
  split at hp
  next w hn => exact .inl ⟨w, hn⟩
  next c hn hl => exact .inr ⟨hn, c, hl⟩
  · cases hp

theorem hosts_not_holds (ht : s.hosts t = true) :
    ∀ n rest, s.frames t = n :: rest → (s.pcs n).holds = false := by
  intro n rest hf
  obtain ⟨-, hn⟩ | ⟨w, hn⟩ | ⟨hn, -⟩ := hosts_cases ht hf <;> rw [hn] <;> rfl

theorem ThreadsOk.hosts_not_inside (h : s.ThreadsOk) (ht : s.hosts t = true) :
    ∀ n rest, s.frames t = n :: rest → (s.lock.pcs n).inside = false := by
  intro n rest hf
  obtain ⟨hl, -⟩ | ⟨w, hn⟩ | ⟨-, c, hl⟩ := hosts_cases ht hf
  · rw [hl]
    rfl
  · rw [h.lock_idle hn rfl]
    rfl
  · rw [hl]
    rfl

/-- `notify_one` and `notify_all` resume an awaiter on their own thread. -/
theorem ThreadsOk.resume {w : ℕ} (h : s.ThreadsOk) (hf : s.frames t = n :: rest)
    (hn : s.Takes n m pc) (hm : (s.setPc n pc).pcs m = .waiting w) :
    (((s.setPc n pc).setPc m (.resumeOn w)).push t m).ThreadsOk := by
  have hi : s.lock.pcs n = .idle := by
    rcases hn with ⟨hn, -⟩ | ⟨l, l', hn, -⟩ <;> exact h.lock_idle hn rfl
  have hpc : pc.parked = false ∧ pc.holds = (s.pcs n).holds := by
    rcases hn with ⟨hn, rfl⟩ | ⟨l, l', hn, -, rfl⟩ <;> rw [hn] <;> exact ⟨rfl, rfl⟩
  have h₁ : (s.setPc n pc).ThreadsOk :=
    h.goto (fun hp => absurd (hpc.1.symm.trans hp) Bool.false_ne_true)
      (hi ▸ CvPc.coupled_idle pc) hpc.2
  have him : s.lock.pcs m = .idle := h₁.lock_idle hm rfl
  have hrun : s.running m = false := h₁.parked m (by rw [hm]; rfl)
  have h₂ : ((s.setPc n pc).setPc m (.resumeOn w)).ThreadsOk :=
    h₁.goto (by simp [CvPc.parked]) him (by rw [hm]; rfl)
  refine h₂.push hrun (congrArg LockPc.parked him) ?_ fun k rest' hf' => ?_
  · rw [show CvSystem.pcs _ m = _ from update_self ..]
    rfl
  · cases hf.symm.trans hf'
    exact congrArg LockPc.inside hi

/-- The resume executor of a locker runs its task, or destroys it. -/
theorem ThreadsOk.executeLock {invoked : Bool} (h : s.ThreadsOk) (ht : s.hosts t = true)
    (hn : s.pcs n = .outside) (hl : s.lock.step (n, if invoked then .run else .drop) = some l) :
    ({ s with lock := l }.push t n).ThreadsOk := by
  obtain ⟨c, hc, rfl⟩ := AsyncLock.step_execute hl
  have hrun : s.running n = false := h.parkedLock n (by rw [hc]; rfl)
  set q : LockPc := if invoked then .granted c else .broken with hq'
  have hqp : q.parked = false ∧ q.inside = false := by
    rw [hq']
    cases invoked <;> exact ⟨rfl, rfl⟩
  have h' : { s with lock := s.lock.setPc n q }.ThreadsOk :=
    h.setLock rfl (fun _ => hrun) (by rw [hn]; trivial) fun hi =>
      absurd (hqp.2.symm.trans hi) Bool.false_ne_true
  refine h'.push hrun ?_ (congrArg CvPc.parked hn) fun k rest hf => ?_
  · exact (congrArg LockPc.parked (update_self ..)).trans hqp.1
  · refine (AsyncLock.apply_update (f := LockPc.inside) ?_ k).trans
      (h.hosts_not_inside ht k rest hf)
    rw [hqp.2, hc]
    rfl

theorem threadsOk_step {mv : CvMove} (h : s.ThreadsOk) (hs : Taken s mv s') : s'.ThreadsOk := by
  cases hs with
  | lock hf ha hl => exact threadsOk_lock h hf ha hl
  | @call _ _ _ _ pc _ hu hpc =>
    obtain ⟨hp, hh⟩ := CvPc.of_entry hpc
    refine h.goto (fun hp' => absurd (hp.symm.trans hp') Bool.false_ne_true)
      (hu.1 ▸ CvPc.coupled_idle pc) ?_
    rw [hh, hu.2]
    rfl
  | @acquire _ n _ pc _ hfree hpc =>
    have hi : s.lock.pcs n = .idle := by
      refine h.lock_idle rfl ?_
      cases hn : s.pcs n <;> rw [hn] at hpc <;> first | rfl | cases hpc
    obtain ⟨hp, hh⟩ := CvPc.of_acquires hpc
    exact h.acquire hfree hp (hi ▸ CvPc.coupled_idle pc) hh
  | @release _ n w _ _ _ hn hl =>
    have hi := h.lock_idle hn rfl
    have h' : (s.setPc n (.releasing w)).ThreadsOk :=
      h.goto (by simp [CvPc.parked]) (hi ▸ CvPc.coupled_idle _) (by rw [hn]; rfl)
    obtain ⟨q, hpcs, hq⟩ := AsyncLock.step_scopedUnlock hl
    have hself : (s.setPc n (.releasing w)).pcs n = .releasing w := update_self ..
    refine h'.setLock hpcs ?_ ?_ ?_
    · rcases hq with rfl | rfl | rfl <;> simp [LockPc.parked]
    · rw [hself]
      rcases hq with rfl | rfl | rfl <;> simp [CvPc.Coupled]
    · rcases hq with rfl | rfl | rfl <;> simp [LockPc.inside]
  | @pushAwaiter t n w _ hf hn hi =>
    have h₁ : (s.pop t n).ThreadsOk := h.pop hf (by rw [hi]; rfl)
    have h₂ : { (s.pop t n).setPc n (.waiting w) with cvLock := none }.ThreadsOk :=
      h₁.unlock (by rw [show (s.pop t n).pcs n = _ from hn]; rfl) (fun _ => update_self ..) hi rfl
    exact { h₂ with }
  | @unwind _ _ _ _ _ _ hn =>
    exact h.unlock (by rw [hn]; rfl) (by simp [CvPc.parked]) trivial rfl
  | @relock _ n _ _ _ _ hn hl =>
    have h' : (s.setPc n .outside).ThreadsOk :=
      h.goto (by simp [CvPc.parked]) trivial (by rw [hn]; rfl)
    obtain ⟨q, hpcs, hq⟩ := AsyncLock.step_scopedLock hl
    refine h'.setLock hpcs ?_ ?_ ?_
    · rcases hq with ⟨e, rfl⟩ | rfl <;> simp [LockPc.parked]
    · rw [show (s.setPc n .outside).pcs n = .outside from update_self ..]
      trivial
    · rcases hq with ⟨e, rfl⟩ | rfl <;> simp [LockPc.inside]
  | @notifyOne _ n _ _ hn =>
    have hi := h.lock_idle hn rfl
    have h' :
        { s.setPc n (.resumeOne (s.awaiters.popFront s.next).1) with cvLock := none }.ThreadsOk :=
      h.unlock (by rw [hn]; rfl) (by simp [CvPc.parked]) hi rfl
    exact { h' with }
  | @notifyAll _ n _ _ hn =>
    have hi := h.lock_idle hn rfl
    have h' : { s.setPc n (.resumeAll s.awaiters) with cvLock := none }.ThreadsOk :=
      h.unlock (by rw [hn]; rfl) (by simp [CvPc.parked]) hi rfl
    exact { h' with }
  | @done _ _ _ _ hn =>
    refine h.goto (by simp [CvPc.parked]) trivial ?_
    rcases hn with hn | ⟨e, hn⟩ | ⟨l, hn, -⟩ <;> rw [hn] <;> rfl
  | resume hf hn hm => exact h.resume hf hn hm
  | @post t n _ _ hf hn =>
    have hi := h.lock_idle hn rfl
    have h₁ : (s.pop t n).ThreadsOk := h.pop hf (by rw [hi]; rfl)
    exact h₁.goto (fun _ => update_self ..) hi (by rw [show (s.pop t n).pcs n = _ from hn]; rfl)
  | @inline _ _ _ _ _ hn | @throw _ _ _ _ _ hn =>
    have hi := h.lock_idle hn rfl
    exact h.goto (by simp [CvPc.parked]) hi (by rw [hn]; rfl)
  | @inlineLock _ _ _ _ _ _ hn hl hl' =>
    obtain ⟨c, -, rfl⟩ := AsyncLock.step_post hl
    obtain ⟨c', -, rfl⟩ := AsyncLock.step_execute (b := true) hl'
    refine h.setLock (update_idem ..) (by simp [LockPc.parked]) (by rw [hn]; trivial)
      (by simp [LockPc.inside])
  | @execute _ n w invoked ht hn =>
    have hi := h.lock_idle hn rfl
    have hrun : s.running n = false := h.parked n (by rw [hn]; rfl)
    have h' : (s.setPc n (if invoked then .relock w else .threw .brokenTask)).ThreadsOk := by
      refine h.goto (fun _ => hrun) (hi ▸ CvPc.coupled_idle _) ?_
      rw [hn]
      cases invoked <;> rfl
    refine h'.push hrun (congrArg LockPc.parked hi) ?_ (h.hosts_not_inside ht)
    rw [show CvSystem.pcs _ n = _ from update_self ..]
    cases invoked <;> rfl
  | executeLock ht hn hl => exact h.executeLock ht hn hl
  | @enter _ _ ht hu hr =>
    exact h.push hr (by rw [hu.1]; rfl) (by rw [hu.2]; rfl) (h.hosts_not_inside ht)
  | @leave _ _ _ hf hu => exact h.pop hf (by rw [hu.1]; rfl)

theorem threadsOk_initial : initial.ThreadsOk where
  frames :=
    { nodup := fun _ => List.nodup_nil
      running := by simp [initial]
      unique := by simp [initial] }
  parkedLock := by simp [initial]
  parked := by simp [initial]
  coupled := fun _ => trivial
  mutex := by simp [initial, CvPc.holds]
  inside := by simp [initial, AsyncLock.initial, LockPc.inside]

theorem threadsOk_of_reachable (h : Reachable s) : s.ThreadsOk := by
  induction h with
  | start hs =>
    cases hs
    exact threadsOk_initial
  | next _ _ hs ih => exact threadsOk_step ih (taken_of_step hs)

end CvSystem
end Concurrencpp
