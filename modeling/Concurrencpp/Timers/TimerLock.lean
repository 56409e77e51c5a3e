import Concurrencpp.Timers.TimerQueue

/-!
# The owner of the lock of the timer queue

* `Frame.holds`: the frame is in a critical section of `m_lock`; `Frame.locks`: its next step locks
  `m_lock`.
* `LockOk`: the thread that owns `m_lock` is inside a critical section with its innermost frame,
  nobody else is, and `make_timer_impl` holds a reference to its timer until the end.
* `LockOk.outside`, `acquire`, `within` and `release` are the ways in which a thread goes on.
-/

namespace Concurrencpp

open Function (update update_self update_of_ne forall_update_iff)

def MakePc.holds : MakePc → Bool
  | .addTimer | .unwind | .unlock | .addInternalTimer _ => true
  | _ => false

def TimerShutdownPc.holds : TimerShutdownPc → Bool
  | .check | .clear => true
  | _ => false

def WorkLoopPc.holds : WorkLoopPc → Bool
  | .locked | .timedOut | .woken => true
  | _ => false

/-- The frame is in a critical section. -/
def Frame.holds : Frame → Bool
  | .makeTimer _ pc => pc.holds
  | .cancel _ pc => pc = .push
  | .shutdown pc => pc.holds
  | .workLoop pc _ _ => pc.holds
  | _ => false

/-- The next step of the frame locks `m_lock`. -/
def Frame.locks : Frame → Bool
  | .makeTimer _ pc => pc = .lock
  | .cancel _ pc => pc = .lock
  | .shutdown pc => pc = .lock
  | .workLoop pc _ _ => pc = .lock ∨ pc = .waiting
  | _ => false

theorem Frame.not_holds_of_locks {f : Frame} (h : f.locks = true) : f.holds = false := by
  cases f with
  | makeTimer | cancel | shutdown => cases of_decide_eq_true h; rfl
  | workLoop => rcases of_decide_eq_true h with rfl | rfl <;> rfl
  | _ => cases h

/-- The thread that takes the step. -/
def TimerMove.thread : TimerMove → Option TimerThread
  | .enter n => some (.caller n)
  | .leave t | .call t _ | .step t | .timeout t | .fail t | .store t | .inline t | .throw t
  | .run t _ _ | .discard t _ _ => some t
  | .tick => none

namespace TimerSystem

/-! ### References of local variables -/

/-- A frame of `make_timer_impl` at the given depth owns its timer. -/
def Owned (owners : ℕ → List Owner) (t : TimerThread) (depth : ℕ) : Frame → Prop
  | .makeTimer x _ => .timerState t depth ∈ owners x
  | _ => True

def StackOwned (owners : ℕ → List Owner) (t : TimerThread) : List Frame → Prop
  | [] => True
  | f :: rest => Owned owners t rest.length f ∧ StackOwned owners t rest

/-- The references of the variables of other threads, and of the frames of `t` below `depth`,
stay. -/
def Keeps (t : TimerThread) (depth : ℕ) (owners owners' : ℕ → List Owner) : Prop :=
  ∀ x u d, (u ≠ t ∨ d < depth) → .timerState u d ∈ owners x → .timerState u d ∈ owners' x

/-- The name is not that of a variable of another thread or of a frame below `depth`. -/
def Above (t : TimerThread) (depth : ℕ) (o : Owner) : Prop :=
  ∀ u d, (u ≠ t ∨ d < depth) → .timerState u d ≠ o

section Owners

variable {owners owners' owners'' : ℕ → List Owner} {t u : TimerThread} {depth x : ℕ} {o o' : Owner}
  {fs : List Frame}

theorem above_timerState : Above t depth (.timerState t depth) := by
  rintro u d hd heq
  cases heq
  rcases hd with hd | hd
  · exact hd rfl
  · exact lt_irrefl _ hd

theorem Keeps.refl : Keeps t depth owners owners := fun _ _ _ _ h => h

theorem Keeps.trans (h : Keeps t depth owners owners') (h' : Keeps t depth owners' owners'') :
    Keeps t depth owners owners'' :=
  fun x u d hd ho => h' x u d hd (h x u d hd ho)

theorem keeps_update {os : List Owner}
    (h : ∀ u d, (u ≠ t ∨ d < depth) → .timerState u d ∈ owners x → .timerState u d ∈ os) :
    Keeps t depth owners (update owners x os) := by
  intro y u d hd ho
  by_cases hy : y = x
  · subst hy
    rw [update_self]
    exact h u d hd ho
  · rw [update_of_ne hy]
    exact ho

theorem keeps_copy : Keeps t depth owners (update owners x (o :: owners x)) :=
  keeps_update fun _ _ _ ho => List.mem_cons_of_mem _ ho

theorem keeps_erase (h : Above t depth o) :
    Keeps t depth owners (update owners x ((owners x).erase o)) :=
  keeps_update fun u d hd ho => (List.mem_erase_of_ne (h u d hd)).2 ho

theorem keeps_move (h : Above t depth o) :
    Keeps t depth owners (update owners x (o' :: (owners x).erase o)) :=
  keeps_update fun u d hd ho => List.mem_cons_of_mem _ ((List.mem_erase_of_ne (h u d hd)).2 ho)

theorem StackOwned.mono (h : StackOwned owners t fs)
    (hk : ∀ x, ∀ d < fs.length, .timerState t d ∈ owners x → .timerState t d ∈ owners' x) :
    StackOwned owners' t fs := by
  induction fs with
  | nil => trivial
  | cons f _ ih =>
    refine ⟨?_, ih h.2 fun x d hd => hk x d (Nat.lt_succ_of_lt hd)⟩
    cases f with
    | makeTimer x => exact hk x _ (Nat.lt_succ_self _) h.1
    | _ => trivial

theorem StackOwned.keeps (h : StackOwned owners t fs) (hk : Keeps t fs.length owners owners') :
    StackOwned owners' t fs :=
  h.mono fun x d hd => hk x t d (.inr hd)

end Owners

/-! ### Who owns the lock -/

/-- The innermost frame of the stack is in a critical section. -/
def headHolds (fs : List Frame) : Bool := fs.head?.any Frame.holds

structure LockOk (lock : Option TimerThread) (frames : TimerThread → List Frame)
    (owners : ℕ → List Owner) (workers : ℕ) : Prop where
  owned : ∀ t, StackOwned owners t (frames t)
  outer : ∀ t, ∀ g ∈ (frames t).tail, g.holds = false
  lock : ∀ t, lock = some t ↔ headHolds (frames t) = true
  fresh : ∀ w, workers ≤ w → frames (.worker w) = []

section LockOk

variable {lock lock' : Option TimerThread} {frames : TimerThread → List Frame}
  {owners owners' : ℕ → List Owner} {workers : ℕ} {t : TimerThread} {f g : Frame}
  {fs rest : List Frame}

section

variable (h : LockOk lock frames owners workers)
include h

/-- The thread goes on with another stack. -/
theorem LockOk.replace {depth : ℕ} (hne : ∀ w, workers ≤ w → t ≠ .worker w)
    (hk : Keeps t depth owners owners') (howned : StackOwned owners' t fs)
    (houter : ∀ g ∈ fs.tail, g.holds = false) (hlock : lock' = some t ↔ headHolds fs = true)
    (hother : ∀ u, u ≠ t → (lock' = some u ↔ lock = some u)) :
    LockOk lock' (update frames t fs) owners' workers := by
  constructor
  case owned =>
    exact (forall_update_iff frames _).2
      ⟨howned, fun u hu => (h.owned u).mono fun x d _ => hk x u d (.inl hu)⟩
  case outer =>
    exact (forall_update_iff frames fun _ fs => ∀ g ∈ fs.tail, g.holds = false).2
      ⟨houter, fun u _ => h.outer u⟩
  case lock =>
    exact (forall_update_iff frames fun u fs => lock' = some u ↔ headHolds fs = true).2
      ⟨hlock, fun u hu => (hother u hu).trans (h.lock u)⟩
  case fresh =>
    intro w hw
    rw [update_of_ne (hne w hw).symm]
    exact h.fresh w hw

theorem LockOk.not_fresh (hf : frames t = f :: rest) : ∀ w, workers ≤ w → t ≠ .worker w := by
  rintro w hw rfl
  cases hf.symm.trans (h.fresh w hw)

theorem LockOk.rest_owned (hf : frames t = f :: rest) : StackOwned owners t rest := by
  have := h.owned t
  rw [hf] at this
  exact this.2

theorem LockOk.rest_outer (hf : frames t = f :: rest) : ∀ g ∈ rest, g.holds = false := by
  have := h.outer t
  rw [hf] at this
  exact this

theorem LockOk.lock_iff (hf : frames t = f :: rest) : lock = some t ↔ f.holds = true := by
  rw [h.lock t, hf]
  rfl

end

theorem not_headHolds (h : ∀ g ∈ fs, g.holds = false) : headHolds fs = false := by
  cases fs with
  | nil => rfl
  | cons f => exact h f List.mem_cons_self

section

variable (h : LockOk lock frames owners workers) (hf : frames t = f :: rest)
  (hk : Keeps t rest.length owners owners')
include h hf hk

/-- A step outside the critical sections. -/
theorem LockOk.outside (hh : f.holds = false)
    (howned : StackOwned owners' t rest → StackOwned owners' t fs)
    (hfs : (∀ g ∈ rest, g.holds = false) → ∀ g ∈ fs, g.holds = false) :
    LockOk lock (update frames t fs) owners' workers := by
  have hfs := hfs (h.rest_outer hf)
  refine h.replace (h.not_fresh hf) hk
    (howned ((h.rest_owned hf).keeps hk)) ?_ ?_ fun u _ => Iff.rfl
  · exact fun g hg => hfs g (List.mem_of_mem_tail hg)
  · rw [h.lock_iff hf, hh, not_headHolds hfs]

/-- The thread enters a critical section. -/
theorem LockOk.acquire (hfree : lock = none) (hg : g.holds = true)
    (hown : Owned owners' t rest.length g) :
    LockOk (some t) (update frames t (g :: rest)) owners' workers := by
  refine h.replace (h.not_fresh hf) hk ⟨hown, (h.rest_owned hf).keeps hk⟩ (h.rest_outer hf) ?_ ?_
  · exact iff_of_true rfl hg
  · intro u hu
    refine iff_of_false (fun hut => hu (Option.some.inj hut).symm) ?_
    rw [hfree]
    simp

/-- The thread stays in its critical section. -/
theorem LockOk.within (hh : f.holds = true) (hg : g.holds = true)
    (hown : Owned owners' t rest.length g) :
    LockOk lock (update frames t (g :: rest)) owners' workers := by
  refine h.replace (h.not_fresh hf) hk ⟨hown, (h.rest_owned hf).keeps hk⟩ (h.rest_outer hf) ?_
    fun u _ => Iff.rfl
  exact iff_of_true ((h.lock_iff hf).2 hh) hg

/-- The thread leaves its critical section. -/
theorem LockOk.release (hh : f.holds = true)
    (howned : StackOwned owners' t rest → StackOwned owners' t fs)
    (hfs : (∀ g ∈ rest, g.holds = false) → ∀ g ∈ fs, g.holds = false) :
    LockOk none (update frames t fs) owners' workers := by
  have hfs := hfs (h.rest_outer hf)
  refine h.replace (h.not_fresh hf) hk (howned ((h.rest_owned hf).keeps hk)) ?_ ?_ ?_
  · exact fun g hg => hfs g (List.mem_of_mem_tail hg)
  · rw [not_headHolds hfs]
    simp
  · intro u hu
    rw [(h.lock_iff hf).2 hh]
    simp [hu.symm]

end

end LockOk

end TimerSystem
end Concurrencpp
