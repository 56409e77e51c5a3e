import Concurrencpp.Threads.AsyncLockOwner

/-!
# The chain of an unlock

An `unlock` by the owner while nobody else uses the lock: `unlock` pops a waiter and resumes it; the
waiter locks the lock and hops to its executor; where this fails, it gives the lock back from inside
its `catch`, pops the next one and resumes that, and so on.  Which executors work is given
(`works`).

* `unlockStep works`: the steps of such an `unlock`, of the coroutines that it resumes and of their
  executors, in any order that the program points allow;
* `LockPc.weight`, `work`: what is left to do;
* `UnlockPhase`, `Passing`: how far the chain has come: the waiters that have failed, the one whose
  turn it is, and those that still wait, in the order of the queue.  There is one lemma for each
  thing that a step can do to it: `side`, `turn`, `enter`, `pop` and `retry`.
-/

namespace Concurrencpp

open Function (update update_self update_of_ne forall_update_iff)

/-- The `unlock` has popped a waiter, or none, and is on its way back to its caller. -/
def Unlocker.Returning (u : Unlocker) (pc : LockPc) : Prop :=
  (∃ a, pc = .retry u a) ∨ pc = .unlocked u ∨ pc = .idle

/-- How far the chain of an `unlock` has come: `unlock` itself, a waiter that is popped and still
suspended, the stations of a resumed waiter, and its two ends. -/
inductive UnlockPhase
  | unlock
  | unlocking
  | popped (m : ℕ)
  | loop (m : ℕ)
  | attempt (m : ℕ)
  | resumeOn (m : ℕ)
  | broken (m : ℕ)
  | giveBack (m : ℕ)
  | posted (m : ℕ)
  | free
  deriving DecidableEq, Repr

namespace UnlockPhase

/-- The waiter whose turn it is. -/
def current : UnlockPhase → Option ℕ
  | .unlock | .unlocking | .free => none
  | .popped m | .loop m | .attempt m | .resumeOn m | .broken m | .giveBack m | .posted m => some m

/-- `m_locked`. -/
def locked : UnlockPhase → Bool
  | .popped _ | .loop _ | .attempt _ | .free => false
  | _ => true

/-- Who has locked `m_awaiter_lock`. -/
def mutex (n : ℕ) : UnlockPhase → Option ℕ
  | .unlocking => some n
  | .attempt m | .giveBack m => some m
  | _ => none

/-- Where the current waiter is. -/
def pc (c : LockCaller) : UnlockPhase → LockPc
  | .loop _ => .loop c false
  | .attempt _ => .attempt c false
  | .resumeOn _ => .resumeOn c
  | .broken _ => .broken
  | .giveBack _ => .giveBack
  | .posted _ => .posted c
  | .unlock | .unlocking | .popped _ | .free => .suspended c

/-- Where the task is that has called `unlock`. -/
def Owner (u : Unlocker) (pc : LockPc) : UnlockPhase → Prop
  | .unlock => pc = .unlock u
  | .unlocking => pc = .unlocking u
  | _ => u.Returning pc

/-- The executor of the current waiter is one that leads to this phase. -/
def Fits (works : ℕ → Bool) : UnlockPhase → Prop
  | .posted m => works m = true
  | .broken m | .giveBack m => works m = false
  | _ => True

/-- The phase behind `pop_front` on this queue. -/
def afterPop (queue : List ℕ) : UnlockPhase := queue.head?.elim .free .popped

theorem current_afterPop (queue : List ℕ) :
    (afterPop queue).current.toList ++ queue.tail = queue := by
  cases queue <;> rfl

theorem owner_afterPop {u : Unlocker} {pc : LockPc} (queue : List ℕ) :
    (afterPop queue).Owner u pc ↔ u.Returning pc := by
  cases queue <;> exact Iff.rfl

theorem owner_of_current {phase : UnlockPhase} {u : Unlocker} {pc : LockPc} {w : ℕ}
    (h : phase.current = some w) : phase.Owner u pc ↔ u.Returning pc := by
  cases phase with
  | unlock | unlocking | free => cases h
  | _ => exact Iff.rfl

theorem afterPop_eq_popped {queue : List ℕ} {m : ℕ} :
    afterPop queue = .popped m ↔ queue.head? = some m := by
  cases queue with
  | nil => simp [afterPop]
  | cons => simp [afterPop]

end UnlockPhase

/-- How many steps a task takes at most until the chain has passed it. -/
def LockPc.weight : LockPc → ℕ
  | .suspended _ => 9
  | .loop _ _ => 8
  | .attempt _ _ => 7
  | .resumeOn _ | .unlock _ => 6
  | .broken | .unlocking _ => 5
  | .giveBack => 4
  | .rethrow (some _) | .retry _ (some _) => 3
  | .rethrow none | .retry _ none => 2
  | .unlocked _ => 1
  | _ => 0

/-- Who has called the `lock_impl` that is suspended. -/
def LockPc.caller : LockPc → LockCaller
  | .suspended c => c
  | _ => .direct

theorem LockPc.eq_suspended {pc : LockPc} (h : pc.isSuspended = true) :
    pc = .suspended pc.caller := by
  cases pc with
  | suspended => rfl
  | _ => cases h

/-- The call has ended with an exception. -/
def LockPc.hasThrown : LockPc → Bool
  | .threw _ => true
  | _ => false

namespace AsyncLock

open Slist

variable {s t : AsyncLock} {k m : ℕ} {pc : LockPc}

/-- A step of an `unlock`, of a coroutine that it has resumed, or of the executor of one: a working
executor takes the task, one that is shut down throws.  A call that has thrown is over. -/
def ofUnlock (works : ℕ → Bool) (s : AsyncLock) : ℕ × LockAction → Bool
  | (k, .advance) => !(s.pcs k).hasThrown
  | (k, .post) => works k
  | (k, .throw) => !works k
  | _ => false

/-- The steps of an `unlock` alone. -/
def unlockStep (works : ℕ → Bool) : AsyncLock → ℕ × LockAction → Option AsyncLock :=
  Interleaving.restrict step fun s m => ofUnlock works s m = true

/-! ### The work that is left -/

/-- No task has more to do, and `k` has less. -/
def Lighter (k : ℕ) (s t : AsyncLock) : Prop :=
  (∀ j, (t.pcs j).weight ≤ (s.pcs j).weight) ∧ (t.pcs k).weight < (s.pcs k).weight

theorem lighter_of_update (hpcs : t.pcs = update s.pcs k pc) (hpc : pc.weight < (s.pcs k).weight) :
    Lighter k s t := by
  constructor
  · intro j
    rw [hpcs]
    by_cases hj : j = k
    · rw [hj, update_self]
      exact hpc.le
    · rw [update_of_ne hj]
  · rw [hpcs, update_self]
    exact hpc

theorem lighter_of_retry {pc' : LockPc} (hpcs : t.pcs = update (update s.pcs k pc) m pc')
    (hkm : k ≠ m) (hpc : pc.weight < (s.pcs k).weight) (hpc' : pc'.weight ≤ (s.pcs m).weight) :
    Lighter k s t := by
  constructor
  · intro j
    rw [hpcs]
    by_cases hjm : j = m
    · rw [hjm, update_self]
      exact hpc'
    by_cases hjk : j = k
    · rw [update_of_ne hjm, hjk, update_self]
      exact hpc.le
    · rw [update_of_ne hjm, update_of_ne hjk]
  · rw [hpcs, update_of_ne hkm, update_self]
    exact hpc

/-- The work that is left for `tasks`. -/
def work (tasks : List ℕ) (s : AsyncLock) : ℕ := (tasks.map fun k => (s.pcs k).weight).sum

theorem Lighter.work_lt {tasks : List ℕ} (h : Lighter k s t) (hk : k ∈ tasks) :
    work tasks t < work tasks s :=
  List.sum_lt_sum _ _ (fun j _ => h.1 j) ⟨k, hk, h.2⟩

/-! ### The chain -/

section chain

variable (works : ℕ → Bool) (callers : ℕ → LockCaller) (n : ℕ) (u : Unlocker) (xs : List ℕ)

/-- The part of the task `k`, at `pc`, while the waiters `failed` have failed and those of `queue`
wait. -/
structure Part (failed : List ℕ) (phase : UnlockPhase) (queue : List ℕ) (k : ℕ) (pc : LockPc) :
    Prop where
  owner : k = n → phase.Owner u pc
  broken : k ∈ failed → works k = false ∧ (pc = .threw .brokenTask ∨ ∃ a, pc = .rethrow a)
  active : k ∈ phase.current → pc = phase.pc (callers k)
  waiting : k ∈ queue → pc = .suspended (callers k)
  other : k ≠ n → k ∉ xs → pc = .idle
  popped : ∀ m, pc.awaiter = some m → phase = .popped m

/-- The waiters `xs` of an `unlock` by `n`, from the first one on: those whose executors have
failed, the one whose turn it is, those that wait. -/
structure Passing (s : AsyncLock) (failed : List ℕ) (phase : UnlockPhase) (queue : List ℕ) :
    Prop where
  order : xs = failed ++ (phase.current.toList ++ queue)
  spells : Spells s.next s.awaiters queue
  locked : s.locked = phase.locked
  mutex : s.awaiterLock = phase.mutex n
  parts : ∀ k, Part works callers n u xs failed phase queue k (s.pcs k)
  popper : ∀ m, phase = .popped m → ∃ k, (s.pcs k).awaiter = some m
  fits : phase.Fits works
  rest : phase = .free → queue = []

variable {works callers n u xs} {failed queue : List ℕ} {phase phase' : UnlockPhase}

section

variable (h : Passing works callers n u xs s failed phase queue)
include h

theorem Passing.owner : phase.Owner u (s.pcs n) := (h.parts n).owner rfl

theorem Passing.active : ∀ w ∈ phase.current, s.pcs w = phase.pc (callers w) :=
  fun w hw => (h.parts w).active hw

theorem Passing.mem_xs {w : ℕ} (hw : w ∈ failed ∨ phase.current = some w) : w ∈ xs := by
  rw [h.order, List.mem_append, List.mem_append, Option.mem_toList]
  exact hw.imp_right .inl

/-- Each task has one part in the chain. -/
theorem Passing.disjoint (hnd : (n :: xs).Nodup) :
    n ∉ failed ∧ n ∉ phase.current ∧ n ∉ queue ∧ (∀ w ∈ failed, w ∉ phase.current ∧ w ∉ queue) ∧
      ∀ w ∈ phase.current, w ∉ queue := by
  rw [h.order, List.nodup_cons, List.nodup_append', List.nodup_append'] at hnd
  obtain ⟨hn, -, ⟨-, -, hcurrent⟩, hfailed⟩ := hnd
  simp only [List.mem_append, Option.mem_toList, not_or] at hn
  refine ⟨hn.1, hn.2.1, hn.2.2, fun w hw => ?_, fun w hw hq => ?_⟩
  · have hnot := fun hw' => hfailed hw hw'
    simp only [List.mem_append, Option.mem_toList] at hnot
    exact ⟨fun hw' => hnot (.inl hw'), fun hw' => hnot (.inr hw')⟩
  · exact hcurrent (Option.mem_toList.2 hw) hq

/-- A task that is done with its part. -/
theorem Passing.done (hcurrent : k ∉ phase.current) (hqueue : k ∉ queue) (ha : pc.awaiter = none)
    (hown : k = n → phase.Owner u pc)
    (hfailed : k ∈ failed → pc = .threw .brokenTask ∨ ∃ a, pc = .rethrow a)
    (hother : k ≠ n → k ∈ xs) : Part works callers n u xs failed phase queue k pc where
  owner := hown
  broken hk := ⟨((h.parts k).broken hk).1, hfailed hk⟩
  active hk := absurd hk hcurrent
  waiting hk := absurd hk hqueue
  other hn hk := absurd (hother hn) hk
  popped m hm := by cases ha.symm.trans hm

/-- It goes on, and nobody minds. -/
theorem Passing.side (hpcs : t.pcs = update s.pcs k pc) (hnext : t.next = s.next)
    (hawaiters : t.awaiters = s.awaiters) (hlocked : t.locked = s.locked)
    (hmutex : t.awaiterLock = s.awaiterLock) (ha : (s.pcs k).awaiter = none)
    (hpart : Part works callers n u xs failed phase queue k pc) :
    Passing works callers n u xs t failed phase queue := by
  constructor
  case order => exact h.order
  case spells => rw [hnext, hawaiters]; exact h.spells
  case locked => exact hlocked.trans h.locked
  case mutex => exact hmutex.trans h.mutex
  case parts =>
    rw [hpcs]
    exact (forall_update_iff s.pcs _).2 ⟨hpart, fun j _ => h.parts j⟩
  case popper =>
    intro m hm
    obtain ⟨j, hj⟩ := h.popper m hm
    have hjk : j ≠ k := by
      rintro rfl
      cases ha.symm.trans hj
    exact ⟨j, by rw [hpcs, update_of_ne hjk, hj]⟩
  case fits => exact h.fits
  case rest => exact h.rest

/-- The waiter whose turn it is goes on. -/
theorem Passing.turn {w : ℕ} (hnd : (n :: xs).Nodup) (hw : phase.current = some w)
    (hw' : phase'.current = some w) (hpcs : t.pcs = update s.pcs w (phase'.pc (callers w)))
    (hnext : t.next = s.next) (hawaiters : t.awaiters = s.awaiters)
    (hlocked : t.locked = phase'.locked) (hmutex : t.awaiterLock = phase'.mutex n)
    (hphase : phase ≠ .popped w) (hphase' : phase' ≠ .popped w)
    (ha : (phase'.pc (callers w)).awaiter = none) (hfits : phase'.Fits works) :
    Passing works callers n u xs t failed phase' queue := by
  obtain ⟨-, hncurrent, -, hfailed, hqueue⟩ := h.disjoint hnd
  constructor
  case order => rw [hw', ← hw]; exact h.order
  case spells => rw [hnext, hawaiters]; exact h.spells
  case locked => exact hlocked
  case mutex => exact hmutex
  case parts =>
    rw [hpcs]
    refine (forall_update_iff s.pcs _).2 ⟨?_, fun j hj => { h.parts j with
      owner := fun hn => ?_, active := fun hj' => ?_, popped := fun m hm => ?_ }⟩
    · exact {
        owner := by rintro rfl; exact absurd hw hncurrent
        broken := fun hk => absurd hw (hfailed w hk).1
        active := fun _ => rfl
        waiting := fun hk => absurd hk (hqueue w hw)
        other := fun _ hk => absurd (h.mem_xs (.inr hw)) hk
        popped := fun m hm => by cases ha.symm.trans hm }
    · rw [UnlockPhase.owner_of_current hw']
      exact (UnlockPhase.owner_of_current hw).1 ((h.parts j).owner hn)
    · cases hw'.symm.trans hj'
      exact absurd rfl hj
    · -- the last waiter that was popped has its turn
      have hpopped := (h.parts j).popped m hm
      rw [hpopped] at hw
      exact absurd (hpopped.trans (congrArg _ (Option.some.inj hw))) hphase
  case popper =>
    rintro m rfl
    cases hw'
    exact absurd rfl hphase'
  case fits => exact hfits
  case rest =>
    rintro rfl
    cases hw'

end

/-- `unlock` enters its critical section. -/
theorem Passing.enter (h : Passing works callers n u xs s failed .unlock queue)
    (hnd : (n :: xs).Nodup) (hpcs : t.pcs = update s.pcs n (.unlocking u)) (hnext : t.next = s.next)
    (hawaiters : t.awaiters = s.awaiters) (hlocked : t.locked = s.locked)
    (hmutex : t.awaiterLock = some n) : Passing works callers n u xs t failed .unlocking queue := by
  obtain ⟨hnfailed, -, hnqueue, -⟩ := h.disjoint hnd
  constructor
  case order => exact h.order
  case spells => rw [hnext, hawaiters]; exact h.spells
  case locked => exact hlocked.trans h.locked
  case mutex => exact hmutex
  case parts =>
    rw [hpcs]
    refine (forall_update_iff s.pcs _).2 ⟨?_, fun j hj => { h.parts j with
      owner := fun hn => absurd hn hj
      popped := fun m hm => by cases (h.parts j).popped m hm }⟩
    exact {
      owner := fun _ => rfl
      broken := fun hk => absurd hk hnfailed
      active := fun hk => by cases hk
      waiting := fun hk => absurd hk hnqueue
      other := fun hn => absurd rfl hn
      popped := fun m hm => by cases hm }
  case popper =>
    intro m hm
    cases hm
  case fits => trivial
  case rest =>
    intro hfree
    cases hfree

/-- The lock is given back and the first waiter of the queue is popped, by `unlock` or by the waiter
whose executor has failed. -/
theorem Passing.pop {f : Option ℕ → LockPc} (h : Passing works callers n u xs s failed phase queue)
    (hnd : (n :: xs).Nodup)
    (hgiver : (k = n ∧ phase.current = none ∧ f = .retry u) ∨
      (phase.current = some k ∧ works k = false ∧ f = .rethrow))
    (hphase : ∀ m, phase ≠ .popped m) :
    Passing works callers n u xs (s.handOver k f) (failed ++ phase.current.toList)
      (UnlockPhase.afterPop queue) queue.tail := by
  obtain ⟨hnfailed, hncurrent, hnqueue, hfailed, hqueue⟩ := h.disjoint hnd
  obtain ⟨hhead, hspells⟩ := h.spells.popFront
  have hpcs : (s.handOver k f).pcs = update s.pcs k (f queue.head?) := by
    rw [← hhead]
    rfl
  have hawaiter : (f queue.head?).awaiter = queue.head? := by
    rcases hgiver with ⟨-, -, rfl⟩ | ⟨-, -, rfl⟩ <;> rfl
  have hcurrent : ∀ w ∈ (UnlockPhase.afterPop queue).current, w ∈ queue := by
    intro w hw
    cases queue with
    | nil => cases hw
    | cons => cases hw; exact List.mem_cons_self
  constructor
  case order =>
    rw [UnlockPhase.current_afterPop, List.append_assoc]
    exact h.order
  case spells => exact hspells
  case locked => cases queue <;> rfl
  case mutex => cases queue <;> rfl
  case parts =>
    rw [hpcs]
    refine (forall_update_iff s.pcs _).2 ⟨?_, fun j hj => ?_⟩
    · have hkqueue : k ∉ queue := by
        rcases hgiver with ⟨rfl, -⟩ | ⟨hk, -⟩
        · exact hnqueue
        · exact hqueue k hk
      constructor
      case owner =>
        rintro rfl
        rw [UnlockPhase.owner_afterPop]
        rcases hgiver with ⟨-, -, rfl⟩ | ⟨hk, -⟩
        · exact .inl ⟨_, rfl⟩
        · exact absurd hk hncurrent
      case broken =>
        intro hk
        rcases hgiver with ⟨rfl, hnone, -⟩ | ⟨-, hworks, rfl⟩
        · rw [hnone] at hk
          exact absurd (List.append_nil failed ▸ hk) hnfailed
        · exact ⟨hworks, .inr ⟨_, rfl⟩⟩
      case active => exact fun hk => absurd (hcurrent k hk) hkqueue
      case waiting => exact fun hk => absurd (List.mem_of_mem_tail hk) hkqueue
      case other =>
        intro hn hk
        rcases hgiver with ⟨rfl, -⟩ | ⟨hcur, -⟩
        · exact absurd rfl hn
        · exact absurd (h.mem_xs (.inr hcur)) hk
      case popped =>
        intro m hm
        rw [UnlockPhase.afterPop_eq_popped, ← hawaiter, hm]
    · have hpart := h.parts j
      constructor
      case owner =>
        intro hn
        rw [UnlockPhase.owner_afterPop]
        rcases hgiver with ⟨rfl, -⟩ | ⟨hk, -, -⟩
        · exact absurd hn hj
        · exact (UnlockPhase.owner_of_current hk).1 (hpart.owner hn)
      case broken =>
        intro hw
        rcases List.mem_append.1 hw with hw | hw
        · exact hpart.broken hw
        · rw [Option.mem_toList] at hw
          rcases hgiver with ⟨-, hnone, -⟩ | ⟨hk, -⟩
          · cases hnone.symm.trans hw
          · exact absurd (Option.some.inj (hw.symm.trans hk)) hj
      case active =>
        intro hw
        rw [hpart.waiting (hcurrent j hw)]
        cases queue <;> rfl
      case waiting => exact fun hw => hpart.waiting (List.mem_of_mem_tail hw)
      case other => exact hpart.other
      case popped => exact fun m hm => absurd (hpart.popped m hm) (hphase m)
  case popper =>
    intro m hm
    rw [UnlockPhase.afterPop_eq_popped] at hm
    exact ⟨k, by rw [hpcs, update_self, hawaiter, hm]⟩
  case fits => cases queue <;> trivial
  case rest =>
    cases queue with
    | nil => exact fun _ => rfl
    | cons => intro hfree; cases hfree

/-- The popped waiter is resumed. -/
theorem Passing.retry (h : Passing works callers n u xs s failed (.popped m) queue)
    (hnd : (n :: xs).Nodup) (hpcs : t.pcs = update (update s.pcs k pc) m (.loop (callers m) false))
    (hnext : t.next = s.next) (hawaiters : t.awaiters = s.awaiters) (hlocked : t.locked = s.locked)
    (hmutex : t.awaiterLock = s.awaiterLock) (hk : k = n ∨ k ∈ failed)
    (hunique : ∀ j, (s.pcs j).awaiter = some m → j = k) (ha : pc.awaiter = none)
    (hown : k = n → (UnlockPhase.loop m).Owner u pc)
    (hfailed : k ∈ failed → pc = .threw .brokenTask ∨ ∃ a, pc = .rethrow a) :
    Passing works callers n u xs t failed (.loop m) queue := by
  obtain ⟨-, hncurrent, hnqueue, hfailed', hqueue⟩ := h.disjoint hnd
  have hkqueue : k ∉ queue := by
    rcases hk with rfl | hk
    · exact hnqueue
    · exact (hfailed' k hk).2
  have hxs : k ≠ n → k ∈ xs := fun hn => h.mem_xs (.inl (hk.resolve_left hn))
  constructor
  case order => exact h.order
  case spells => rw [hnext, hawaiters]; exact h.spells
  case locked => exact hlocked.trans h.locked
  case mutex => exact hmutex.trans h.mutex
  case parts =>
    rw [hpcs]
    refine (forall_update_iff (update s.pcs k pc) _).2 ⟨?_, fun j hjm => ?_⟩
    · exact {
        owner := by rintro rfl; exact absurd rfl hncurrent
        broken := fun hm => absurd rfl (hfailed' m hm).1
        active := fun _ => rfl
        waiting := fun hm => absurd hm (hqueue m rfl)
        other := fun _ hm => absurd (h.mem_xs (.inr rfl)) hm
        popped := fun m' hm => by cases hm }
    have hactive : ∀ {pc' : LockPc}, j ∈ (UnlockPhase.loop m).current →
        pc' = .loop (callers j) false :=
      fun hj => absurd (Option.some.inj hj).symm hjm
    by_cases hjk : j = k
    · subst hjk
      rw [update_self]
      exact { h.done (fun hj => hjm (Option.some.inj hj).symm) hkqueue ha hown hfailed hxs with
        active := hactive, popped := fun m' hm => by cases ha.symm.trans hm }
    · rw [update_of_ne hjk]
      refine { h.parts j with active := hactive, popped := fun m' hm => ?_ }
      cases (h.parts j).popped m' hm
      exact absurd (hunique j hm) hjk
  case popper =>
    intro m' hm
    cases hm
  case fits => trivial
  case rest =>
    intro hfree
    cases hfree

end chain

end AsyncLock

end Concurrencpp
