import Concurrencpp.Threads.AsyncLockSteps
import Concurrencpp.Placement

/-!
# The hand-over chain of the asynchronous lock

Who will wake the lockers that wait.  `unlock` and the handler in `lock_impl` clear `m_locked`
before the awaiter that they pop has taken it, so the lock may be free while others are queued; then
the popped one is still to come.

* `QueueOk`: `m_awaiters` reads `xs`, every suspended locker is in it or popped by exactly one task,
  and a free lock with a queue has somebody on the way to it.
* `MutexOk`, `ReleasingOk`: who is inside a critical section, and who is inside `unlock` or the
  destructor of a wrapper.
* `ChainOk.goto`: a step between two program points that others do not tell apart keeps all three;
  the critical sections and `retry` have a lemma each.
-/

namespace Concurrencpp

namespace AsyncLock

open Slist
open Function (update update_self update_of_ne forall_update_iff)

variable {next : ℕ → Option ℕ} {awaiters : Slist ℕ} {pcs : ℕ → LockPc} {locked : Bool}
  {xs : List ℕ} {n : ℕ} {pc : LockPc}

/-- The queue and the popped awaiters. -/
structure QueueOk (next : ℕ → Option ℕ) (awaiters : Slist ℕ) (pcs : ℕ → LockPc) (locked : Bool)
    (xs : List ℕ) : Prop where
  spells : Spells next awaiters xs
  queued : ∀ n ∈ xs, (pcs n).isSuspended = true
  popped : ∀ p m, (pcs p).awaiter = some m → (pcs m).isSuspended = true ∧ m ∉ xs
  popper : ∀ p q m, (pcs p).awaiter = some m → (pcs q).awaiter = some m → p = q
  suspended : ∀ n, (pcs n).isSuspended = true → n ∈ xs ∨ ∃ p, (pcs p).awaiter = some n
  inFlight : locked = false → xs ≠ [] →
    ∃ m, (∃ p, (pcs p).awaiter = some m) ∨ (pcs m).retrying = true

/-- The holder of `m_awaiter_lock` is inside a critical section, and nobody else is. -/
def MutexOk (pcs : ℕ → LockPc) (awaiterLock : Option ℕ) : Prop :=
  ∀ n, (pcs n).inside = true ↔ awaiterLock = some n

/-- `releasing` names the tasks that are inside `unlock` or the destructor of a wrapper. -/
def ReleasingOk (pcs : ℕ → LockPc) (releasing : ℕ → Option ℕ) : Prop :=
  Placement.Paired LockPc.releases pcs releasing

/-! ### The queue -/

/-- A function of the program points does not see a step between two on which it agrees. -/
theorem apply_update {β : Type} {f : LockPc → β} (h : f pc = f (pcs n)) (k : ℕ) :
    f (update pcs n pc k) = f (pcs k) :=
  (forall_update_iff pcs fun k x => f x = f (pcs k)).2 ⟨h, fun _ _ => rfl⟩ k

section

variable (h : QueueOk next awaiters pcs locked xs)
include h

theorem QueueOk.goto (hs : pc.isSuspended = (pcs n).isSuspended) (ha : pc.awaiter = (pcs n).awaiter)
    (hr : pc.retrying = (pcs n).retrying) : QueueOk next awaiters (update pcs n pc) locked xs := by
  have hs := apply_update hs
  have ha := apply_update ha
  have hr := apply_update hr
  obtain ⟨h₁, h₂, h₃, h₄, h₅, h₆⟩ := h
  constructor <;> simpa only [hs, ha, hr]

/-- A locked lock needs nobody on the way to it. -/
theorem QueueOk.lock
    (hs : pc.isSuspended = (pcs n).isSuspended) (ha : pc.awaiter = (pcs n).awaiter) :
    QueueOk next awaiters (update pcs n pc) true xs := by
  have hs := apply_update hs
  have ha := apply_update ha
  obtain ⟨h₁, h₂, h₃, h₄, h₅, -⟩ := h
  constructor
  case inFlight => intro hl; cases hl
  all_goals simpa only [hs, ha]

/-- A locker queues a new awaiter behind the others. -/
theorem QueueOk.push {c : LockCaller} (hl : locked = true) (hs : (pcs n).isSuspended = false)
    (ha : (pcs n).awaiter = none) :
    QueueOk (awaiters.pushBack (update next n none) n).2
      (awaiters.pushBack (update next n none) n).1 (update pcs n (.suspended c))
      locked (xs ++ [n]) := by
  have hn : n ∉ xs := fun hn => by cases hs.symm.trans (h.queued n hn)
  have hother : ∀ k, k ≠ n → update pcs n (.suspended c) k = pcs k :=
    fun k hk => update_of_ne hk ..
  have ha : ∀ k, (update pcs n (.suspended c) k).awaiter = (pcs k).awaiter :=
    apply_update ha.symm
  constructor
  case spells =>
    refine Spells.pushBack (h.spells.congr fun b hb => ?_) (update_self ..) hn
    have hbn : b ≠ n := fun hbn => hn (hbn ▸ hb)
    exact update_of_ne hbn ..
  case queued =>
    intro k hk
    by_cases hkn : k = n
    · rw [hkn, update_self]
      rfl
    · rw [hother k hkn]
      exact h.queued k (by simpa [hkn] using hk)
  case popped =>
    intro p m hp
    rw [ha] at hp
    obtain ⟨hm, hmx⟩ := h.popped p m hp
    have hmn : m ≠ n := by
      rintro rfl
      cases hs.symm.trans hm
    exact ⟨by rw [hother m hmn]; exact hm, by simp [hmx, hmn]⟩
  case popper =>
    simpa only [ha] using h.popper
  case suspended =>
    intro k hk
    by_cases hkn : k = n
    · exact .inl (by simp [hkn])
    · rw [hother k hkn] at hk
      rcases h.suspended k hk with hx | ⟨p, hp⟩
      · exact .inl (by simp [hx])
      · exact .inr ⟨p, by rw [ha]; exact hp⟩
  case inFlight =>
    intro hl'
    cases hl.symm.trans hl'

/-- The lock is given back and the first awaiter is popped. -/
theorem QueueOk.handOver {f : Option ℕ → LockPc} (hs : (pcs n).isSuspended = false)
    (ha : (pcs n).awaiter = none) (hf : ∀ a, (f a).isSuspended = false ∧ (f a).awaiter = a) :
    QueueOk next (awaiters.popFront next).2
      (update pcs n (f (awaiters.popFront next).1)) false xs.tail := by
  obtain ⟨hhead, hspells⟩ := h.spells.popFront
  rw [hhead]
  have hother : ∀ k, k ≠ n → update pcs n (f xs.head?) k = pcs k :=
    fun k hk => update_of_ne hk ..
  have hsus := apply_update (n := n) (f := LockPc.isSuspended) ((hf xs.head?).1.trans hs.symm)
  have hself : (update pcs n (f xs.head?) n).awaiter = xs.head? := by
    rw [update_self]
    exact (hf _).2
  have hnd := h.spells.nodup
  -- who is about to retry `m`: the task that has popped it just now, or one that had before
  have hcases : ∀ p m, (update pcs n (f xs.head?) p).awaiter = some m →
      (p = n ∧ xs.head? = some m) ∨ (p ≠ n ∧ (pcs p).awaiter = some m) := by
    intro p m hp
    by_cases hpn : p = n
    · subst hpn
      exact .inl ⟨rfl, hself.symm.trans hp⟩
    · rw [hother p hpn] at hp
      exact .inr ⟨hpn, hp⟩
  constructor
  case spells => exact hspells
  case queued =>
    intro k hk
    rw [hsus]
    exact h.queued k (List.mem_of_mem_tail hk)
  case popped =>
    intro p m hp
    rw [hsus]
    rcases hcases p m hp with ⟨-, hm⟩ | ⟨-, hm⟩
    · obtain ⟨ys, rfl⟩ := List.head?_eq_some_iff.1 hm
      exact ⟨h.queued m List.mem_cons_self, (List.nodup_cons.1 hnd).1⟩
    · obtain ⟨hm, hmx⟩ := h.popped p m hm
      exact ⟨hm, fun hmt => hmx (List.mem_of_mem_tail hmt)⟩
  case popper =>
    intro p q m hp hq
    rcases hcases p m hp with ⟨hpn, hm⟩ | ⟨-, hm⟩ <;>
      rcases hcases q m hq with ⟨hqn, hm'⟩ | ⟨-, hm'⟩
    · rw [hpn, hqn]
    · exact absurd (List.mem_of_head? hm) (h.popped q m hm').2
    · exact absurd (List.mem_of_head? hm') (h.popped p m hm).2
    · exact h.popper p q m hm hm'
  case suspended =>
    intro k hk
    rw [hsus] at hk
    rcases h.suspended k hk with hx | ⟨p, hp⟩
    · cases xs with
      | nil => cases hx
      | cons =>
        rcases List.mem_cons.1 hx with rfl | hx
        · exact .inr ⟨n, hself⟩
        · exact .inl hx
    · have hpn : p ≠ n := by
        rintro rfl
        cases ha.symm.trans hp
      exact .inr ⟨p, by rw [hother p hpn]; exact hp⟩
  case inFlight =>
    intro _ hne
    cases xs with
    | nil => exact absurd rfl hne
    | cons a => exact ⟨a, .inl ⟨n, hself⟩⟩

/-- The popped locker is back at the head of its loop. -/
theorem QueueOk.resume {m : ℕ} {c : LockCaller} (ha : (pcs n).awaiter = some m)
    (hm : pcs m = .suspended c) (hs : pc.isSuspended = false) (ha' : pc.awaiter = none) :
    QueueOk next awaiters (update (update pcs n pc) m (.loop c false)) locked xs := by
  have hmn : m ≠ n := by
    rintro rfl
    rw [hm] at ha
    cases ha
  set pcs' := update (update pcs n pc) m (.loop c false) with hpcs'
  have hself : pcs' m = .loop c false := update_self ..
  have hn : pcs' n = pc := by
    rw [hpcs', update_of_ne hmn.symm, update_self]
  have hother : ∀ k, k ≠ n → k ≠ m → pcs' k = pcs k := by
    intro k hkn hkm
    rw [hpcs', update_of_ne hkm, update_of_ne hkn]
  have hawait : ∀ p k, (pcs' p).awaiter = some k → p ≠ n ∧ p ≠ m ∧ (pcs p).awaiter = some k := by
    intro p k hp
    have hpn : p ≠ n := by
      rintro rfl
      rw [hn, ha'] at hp
      cases hp
    have hpm : p ≠ m := by
      rintro rfl
      rw [hself] at hp
      cases hp
    rw [hother p hpn hpm] at hp
    exact ⟨hpn, hpm, hp⟩
  have hsus : ∀ k, k ≠ m → (pcs k).isSuspended = true → (pcs' k).isSuspended = true := by
    intro k hkm hk
    have hkn : k ≠ n := by
      rintro rfl
      cases (LockPc.awaiter_eq_none hk).symm.trans ha
    rw [hother k hkn hkm]
    exact hk
  constructor
  case spells => exact h.spells
  case queued =>
    intro k hk
    exact hsus k (fun hkm => (h.popped n m ha).2 (hkm ▸ hk)) (h.queued k hk)
  case popped =>
    intro p k hp
    obtain ⟨hpn, -, hpk⟩ := hawait p k hp
    have hkm : k ≠ m := by
      rintro rfl
      exact hpn (h.popper p n k hpk ha)
    exact ⟨hsus k hkm (h.popped p k hpk).1, (h.popped p k hpk).2⟩
  case popper =>
    intro p q k hp hq
    exact h.popper p q k (hawait p k hp).2.2 (hawait q k hq).2.2
  case suspended =>
    intro k hk
    have hkn : k ≠ n := by
      rintro rfl
      rw [hn, hs] at hk
      cases hk
    have hkm : k ≠ m := by
      rintro rfl
      rw [hself] at hk
      cases hk
    rw [hother k hkn hkm] at hk
    rcases h.suspended k hk with hx | ⟨p, hp⟩
    · exact .inl hx
    · have hpn : p ≠ n := by
        rintro rfl
        exact hkm (Option.some.inj (hp.symm.trans ha))
      have hpm : p ≠ m := by
        rintro rfl
        rw [hm] at hp
        cases hp
      exact .inr ⟨p, by rw [hother p hpn hpm]; exact hp⟩
  case inFlight =>
    intro _ _
    exact ⟨m, .inr (by rw [hself]; rfl)⟩

end

/-! ### The mutex and the wrappers -/

variable {awaiterLock : Option ℕ} {releasing : ℕ → Option ℕ}

theorem MutexOk.goto (h : MutexOk pcs awaiterLock) (hi : pc.inside = (pcs n).inside) :
    MutexOk (update pcs n pc) awaiterLock := by
  intro k
  rw [apply_update hi]
  exact h k

theorem MutexOk.enter (h : MutexOk pcs none) (hi : pc.inside = true) :
    MutexOk (update pcs n pc) (some n) := by
  intro k
  by_cases hk : k = n
  · simp [hk, hi]
  · rw [update_of_ne hk, h k]
    simp [Ne.symm hk]

theorem MutexOk.leave (h : MutexOk pcs awaiterLock) (hn : (pcs n).inside = true)
    (hi : pc.inside = false) : MutexOk (update pcs n pc) none := by
  intro k
  by_cases hk : k = n
  · simp [hk, hi]
  · rw [update_of_ne hk, h k, (h n).1 hn]
    simp [Ne.symm hk]

/-! ### Steps -/

variable {s t : AsyncLock} {w : ℕ}

/-- The queue, the mutex and the wrappers that are being released. -/
structure ChainOk (s : AsyncLock) (xs : List ℕ) : Prop where
  queue : QueueOk s.next s.awaiters s.pcs s.locked xs
  mutex : MutexOk s.pcs s.awaiterLock
  releasing : ReleasingOk s.pcs s.releasing

/-- The two program points differ in nothing that others see. -/
structure Like (pc pc' : LockPc) : Prop where
  isSuspended : pc.isSuspended = pc'.isSuspended
  awaiter : pc.awaiter = pc'.awaiter
  retrying : pc.retrying = pc'.retrying
  inside : pc.inside = pc'.inside
  releases : pc.releases = pc'.releases

section

variable (h : s.ChainOk xs)
include h

theorem ChainOk.goto (hpc : Like pc (s.pcs n)) : (s.setPc n pc).ChainOk xs :=
  ⟨h.queue.goto hpc.isSuspended hpc.awaiter hpc.retrying, h.mutex.goto hpc.inside,
    h.releasing.goto hpc.releases⟩

theorem ChainOk.lockMutex (hs : pc.isSuspended = (s.pcs n).isSuspended)
    (ha : pc.awaiter = (s.pcs n).awaiter) (hr : pc.retrying = (s.pcs n).retrying)
    (hw : pc.releases = (s.pcs n).releases) (hi : pc.inside = true)
    (hstep : s.lockMutex n pc = some t) : t.ChainOk xs := by
  unfold AsyncLock.lockMutex at hstep
  split at hstep
  next hfree =>
    cases hstep
    have hm := h.mutex
    rw [hfree] at hm
    exact ⟨h.queue.goto hs ha hr, hm.enter hi, h.releasing.goto hw⟩
  · cases hstep

theorem ChainOk.attempt {c : LockCaller} {first : Bool} (hn : s.pcs n = .attempt c first) :
    ∃ xs, (s.attempt n c first).ChainOk xs := by
  have hm : ∀ pc : LockPc, pc.inside = false → MutexOk (update s.pcs n pc) none :=
    fun pc hi => h.mutex.leave (by rw [hn]; rfl) hi
  have hr : ∀ pc : LockPc, pc.releases = none →
      ReleasingOk (update s.pcs n pc) s.releasing :=
    fun pc hr => h.releasing.goto (hr.trans (by rw [hn]; rfl))
  unfold AsyncLock.attempt
  cases hl : s.locked with
  | false =>
    refine ⟨xs, h.queue.lock ?_ ?_, hm _ ?_, hr _ ?_⟩ <;> cases first <;>
      first | rfl | (rw [hn]; rfl)
  | true =>
    exact ⟨xs ++ [n], h.queue.push hl (by rw [hn]; rfl) (by rw [hn]; rfl), hm _ rfl, hr _ rfl⟩

theorem ChainOk.handOver {f : Option ℕ → LockPc} (hs : (s.pcs n).isSuspended = false)
    (ha : (s.pcs n).awaiter = none) (hi : (s.pcs n).inside = true)
    (hf : ∀ a, (f a).isSuspended = false ∧ (f a).awaiter = a) (hfi : ∀ a, (f a).inside = false)
    (hfr : ∀ a, (f a).releases = (s.pcs n).releases) : (s.handOver n f).ChainOk xs.tail :=
  ⟨h.queue.handOver hs ha hf, h.mutex.leave hi (hfi _), h.releasing.goto (hfr _)⟩

theorem ChainOk.resume {m : ℕ} (ha : (s.pcs n).awaiter = some m) (hs : pc.isSuspended = false)
    (ha' : pc.awaiter = none) (hi : pc.inside = (s.pcs n).inside)
    (hr : pc.releases = (s.pcs n).releases) (hstep : (s.setPc n pc).resume m = some t) :
    t.ChainOk xs := by
  have hmn : m ≠ n := by
    rintro rfl
    cases (LockPc.awaiter_eq_none (h.queue.popped _ _ ha).1).symm.trans ha
  unfold AsyncLock.resume at hstep
  split at hstep
  next c hm =>
    cases hstep
    have hm : update s.pcs n pc m = .suspended c := hm
    have hm' : s.pcs m = .suspended c := (update_of_ne hmn ..).symm.trans hm
    exact ⟨h.queue.resume ha hm' hs ha', (h.mutex.goto hi).goto (by rw [hm]; rfl),
      (h.releasing.goto hr).goto (by rw [hm]; rfl)⟩
  · cases hstep

theorem ChainOk.unlocking {u : Unlocker} (hn : s.pcs n = .unlocking u) :
    ∃ xs, (s.unlocking n u).ChainOk xs := by
  unfold AsyncLock.unlocking
  cases hl : s.locked with
  | true =>
    exact ⟨_, h.handOver (by rw [hn]; rfl) (by rw [hn]; rfl) (by rw [hn]; rfl) (fun _ => ⟨rfl, rfl⟩)
      (fun _ => rfl) fun _ => by rw [hn]; rfl⟩
  | false =>
    have hq : QueueOk s.next s.awaiters (update s.pcs n (.threw .unlockInvalidLock)) s.locked
        xs := h.queue.goto (by rw [hn]; rfl) (by rw [hn]; rfl) (by rw [hn]; rfl)
    have hm : MutexOk (update s.pcs n (.threw .unlockInvalidLock)) none :=
      h.mutex.leave (by rw [hn]; rfl) rfl
    have hu : (s.pcs n).releases = u.wrapper := by rw [hn]; rfl
    cases u with
    | direct => exact ⟨xs, hq, hm, h.releasing.goto hu.symm⟩
    | ofScoped | ofDestructor => exact ⟨xs, hq, hm, h.releasing.finish hu rfl⟩

theorem ChainOk.unlocked {u : Unlocker} (hn : s.pcs n = .unlocked u) :
    (s.unlocked n u).ChainOk xs := by
  have hq : QueueOk s.next s.awaiters (update s.pcs n .idle) s.locked xs :=
    h.queue.goto (by rw [hn]; rfl) (by rw [hn]; rfl) (by rw [hn]; rfl)
  have hm : MutexOk (update s.pcs n .idle) s.awaiterLock := h.mutex.goto (by rw [hn]; rfl)
  have hu : (s.pcs n).releases = u.wrapper := by rw [hn]; rfl
  cases u with
  | direct => exact ⟨hq, hm, h.releasing.goto hu.symm⟩
  | ofScoped | ofDestructor => exact ⟨hq, hm, h.releasing.finish hu rfl⟩

theorem ChainOk.setOwns {b : Bool} : (s.setOwns w b).ChainOk xs := by
  unfold AsyncLock.setOwns
  split <;> exact ⟨h.queue, h.mutex, h.releasing⟩

theorem ChainOk.startRelease {u : Unlocker} (hn : s.pcs n = .idle) (hw : s.releasing w = none)
    (hu : u.wrapper = some w) : ((s.setPc n (.unlock u)).setReleasing w (some n)).ChainOk xs :=
  ⟨h.queue.goto (by rw [hn]; rfl) (by rw [hn]; rfl) (by rw [hn]; rfl),
    h.mutex.goto (by rw [hn]; rfl), h.releasing.start (by rw [hn]; rfl) hw hu⟩

theorem chainOk_call {a : LockAction} (hn : s.pcs n = .idle) (hu : s.Undisturbed (n, a))
    (hs : s.call n a = some t) : t.ChainOk xs := by
  cases callOf hs with
  | enter hpc =>
    refine h.goto ?_
    rw [hn]
    obtain ⟨e, rfl⟩ | ⟨c, rfl⟩ | ⟨c, rfl⟩ := hpc <;> exact ⟨rfl, rfl, rfl, rfl, rfl⟩
  | unlock =>
    have h' : (s.setPc n (.unlock .direct)).ChainOk xs :=
      h.goto (by rw [hn]; exact ⟨rfl, rfl, rfl, rfl, rfl⟩)
    exact ⟨h'.queue, h'.mutex, h'.releasing⟩
  | startRelease hw hmem => exact h.startRelease hn (hu.touched hmem) hw
  | _ => exact ⟨h.queue, h.mutex, h.releasing⟩

theorem chainOk_advance (hs : s.advance n = some t) : ∃ xs, t.ChainOk xs := by
  cases advance_cases hs with
  | @loop _ _ first hn hs =>
    refine ⟨xs, h.lockMutex ?_ ?_ ?_ ?_ rfl hs⟩ <;> rw [hn] <;> cases first <;> rfl
  | tryLock hn hs | broken hn hs | unlock hn hs =>
    refine ⟨xs, h.lockMutex ?_ ?_ ?_ ?_ rfl hs⟩ <;> rw [hn] <;> rfl
  | attempt hn => exact h.attempt hn
  | giveBack hn =>
    exact ⟨_, h.handOver (by rw [hn]; rfl) (by rw [hn]; rfl) (by rw [hn]; rfl) (fun _ => ⟨rfl, rfl⟩)
      (fun _ => rfl) fun _ => by rw [hn]; rfl⟩
  | rethrow hn hs | retry hn hs =>
    exact ⟨xs, h.resume (by rw [hn]; rfl) rfl rfl (by rw [hn]; rfl) (by rw [hn]; rfl) hs⟩
  | tryAttempt hn =>
    exact ⟨xs, h.queue.lock (by rw [hn]; rfl) (by rw [hn]; rfl),
      h.mutex.leave (by rw [hn]; rfl) rfl, h.releasing.goto (by rw [hn]; rfl)⟩
  | granted hn | triedScoped hn =>
    exact ⟨xs, (h.goto (by rw [hn]; exact ⟨rfl, rfl, rfl, rfl, rfl⟩)).setOwns⟩
  | tried hn =>
    have h' : (s.setPc n .idle).ChainOk xs := h.goto (by rw [hn]; exact ⟨rfl, rfl, rfl, rfl, rfl⟩)
    exact ⟨xs, h'.queue, h'.mutex, h'.releasing⟩
  | unlocking hn => exact h.unlocking hn
  | unlocked hn => exact ⟨xs, h.unlocked hn⟩
  | rethrown hn | retried hn | threw hn =>
    exact ⟨xs, h.goto (by rw [hn]; exact ⟨rfl, rfl, rfl, rfl, rfl⟩)⟩

theorem chainOk_step {m : ℕ × LockAction} (hs : s.step m = some t) : ∃ xs, t.ChainOk xs := by
  obtain ⟨n, a⟩ := m
  have hu := (step_eq_some.1 hs).1
  obtain ⟨hn, hs⟩ | ⟨-, hs⟩ | ⟨w, -, hn, -, rfl⟩ | ⟨c, hn, ⟨-, rfl⟩ | ⟨-, rfl⟩⟩ |
    ⟨c, hn, ⟨-, rfl⟩ | ⟨-, rfl⟩⟩ := step_cases hs
  · exact ⟨xs, chainOk_call h hn hu hs⟩
  · exact chainOk_advance h hs
  · have h' : (s.setPc n .idle).ChainOk xs := h.goto (by rw [hn]; exact ⟨rfl, rfl, rfl, rfl, rfl⟩)
    exact ⟨xs, h'.queue, h'.mutex, h'.releasing⟩
  all_goals exact ⟨xs, h.goto (by rw [hn]; exact ⟨rfl, rfl, rfl, rfl, rfl⟩)⟩

end

theorem chainOk_initial : ChainOk initial [] where
  queue :=
    { spells := spells_empty
      queued := by simp
      popped := by simp [initial, LockPc.awaiter]
      popper := by simp [initial, LockPc.awaiter]
      suspended := by simp [initial, LockPc.isSuspended]
      inFlight := by simp }
  mutex := by simp [MutexOk, initial, LockPc.inside]
  releasing := by simp [ReleasingOk, Placement.Paired, initial, LockPc.releases]

theorem chainOk_of_reachable (h : Reachable s) : ∃ xs, s.ChainOk xs := by
  induction h with
  | start hs =>
    cases hs
    exact ⟨[], chainOk_initial⟩
  | next _ _ hs ih =>
    obtain ⟨xs, ih⟩ := ih
    exact chainOk_step ih hs

/-! ### The chain -/

/-- The locker has been popped and has not yet run its lock attempt again. -/
def OnTheWay (s : AsyncLock) (m : ℕ) : Prop :=
  (∃ p, (s.pcs p).awaiter = some m) ∨ (s.pcs m).retrying = true

/-- **The hand-over chain does not break.**  `m_awaiters` reads some list `xs`; if it is not empty
while the lock is free, some popped locker has not yet run its attempt again; a suspended locker is
in `xs` exactly once and popped by nobody, or not in `xs` and popped by exactly one task, which is
about to `retry` it; and nobody else is ever retried. -/
theorem hand_over_chain (s : AsyncLock) (h : Reachable s) :
    ∃ xs, Spells s.next s.awaiters xs ∧
      (s.locked = false → xs ≠ [] → ∃ m, s.OnTheWay m) ∧
      (∀ n, (s.pcs n).isSuspended = true →
        (xs.count n = 1 ∧ ∀ p, (s.pcs p).awaiter ≠ some n) ∨
        (xs.count n = 0 ∧ ∃! p, (s.pcs p).awaiter = some n)) ∧
      ∀ p n, (s.pcs p).awaiter = some n → (s.pcs n).isSuspended = true := by
  obtain ⟨xs, h⟩ := chainOk_of_reachable h
  refine ⟨xs, h.queue.spells, h.queue.inFlight, fun n hn => ?_,
    fun p n hp => (h.queue.popped p n hp).1⟩
  rcases h.queue.suspended n hn with hx | ⟨p, hp⟩
  · refine Or.inl ⟨List.count_eq_one_of_mem h.queue.spells.nodup hx, fun p hp => ?_⟩
    exact (h.queue.popped p n hp).2 hx
  · refine Or.inr ⟨List.count_eq_zero.2 (h.queue.popped p n hp).2, p, hp, fun q hq => ?_⟩
    exact h.queue.popper q p n hq hp

/-- Task 0 owns the lock and tasks 1, 2 and 3 are queued; task 0 unlocks, which pops task 1, and
before its `retry` task 4 barges in with `try_lock` and unlocks, which pops task 2. -/
theorem hand_over_chain_of_barging :
    ∃ s, Reachable s ∧ s.locked = false ∧ s.awaiters.head = some 3 ∧
      ∃ xs, Spells s.next s.awaiters xs ∧ (xs ≠ [] → ∃ m, s.OnTheWay m) := by
  let lock (n : ℕ) : List (ℕ × LockAction) := [(n, .lock true), (n, .advance), (n, .advance)]
  let schedule : List (ℕ × LockAction) :=
    lock 0 ++ [(0, .finish 0)] ++ lock 1 ++ lock 2 ++ lock 3 ++
    [(0, .scopedUnlock 0), (0, .advance), (0, .advance),
      (4, .tryLock), (4, .advance), (4, .advance), (4, .advance),
      (4, .unlock), (4, .advance), (4, .advance)]
  have h : Reachable _ := .lastState (by rfl) schedule
  have hl : (Interleaving.lastState step initial schedule).locked = false := by decide +kernel
  obtain ⟨xs, hxs, hway, -⟩ := hand_over_chain _ h
  exact ⟨_, h, hl, by decide +kernel, xs, hxs, hway hl⟩

end AsyncLock
end Concurrencpp
