import Mathlib.Tactic

/-!
# The permits of a binary semaphore

A semaphore with one consumer, any number of threads `ι` that release it after a critical section,
and a last caller that releases it once.  A permit is outstanding as soon as somebody has left the
critical section that promises it, even before the count has been raised.

* `Permits.Free`: no permit is outstanding.
* `Permits.AtMostOne`: at most one is.  A release that meets this finds the count at zero
  (`AtMostOne.count_of_releasing`, `AtMostOne.count_of_closing`), and the consumer that takes a
  permit leaves none (`AtMostOne.acquire`).
* `Permits.Guards`: the invariant of a consumer that is woken up to look at a queue.  A permit is
  outstanding only while something is pending, unless the queue has been closed; and a consumer that
  has taken the permit finds it so.
-/

/-- The count, the threads that are about to release, and the last caller. -/
structure Permits (ι : Type*) where
  count : ℕ
  releasing : ι → Bool
  closing : Bool

namespace Permits

variable {ι : Type*} {p : Permits ι} {t : ι}

structure Free (p : Permits ι) : Prop where
  count : p.count = 0
  releasing : ∀ t, p.releasing t = false
  closing : p.closing = false

/-- No permit, one in the count, one promised by a thread, or one promised by the last caller. -/
inductive AtMostOne (p : Permits ι) : Prop
  | free (h : p.Free)
  | counted (hcount : p.count = 1) (hreleasing : ∀ t, p.releasing t = false)
      (hclosing : p.closing = false)
  | releasing (t : ι) (hcount : p.count = 0) (ht : p.releasing t = true)
      (hother : ∀ k, k ≠ t → p.releasing k = false) (hclosing : p.closing = false)
  | closing (hcount : p.count = 0) (hreleasing : ∀ t, p.releasing t = false)
      (hclosing : p.closing = true)

theorem AtMostOne.count_of_releasing (h : p.AtMostOne) (ht : p.releasing t = true) :
    p.count = 0 := by
  cases h with
  | free h => exact h.count
  | counted _ hreleasing => cases (hreleasing t).symm.trans ht
  | releasing _ hcount => exact hcount
  | closing hcount => exact hcount

theorem AtMostOne.count_of_closing (h : p.AtMostOne) (hc : p.closing = true) : p.count = 0 := by
  cases h with
  | free h => exact h.count
  | counted _ _ hclosing => cases hclosing.symm.trans hc
  | releasing _ hcount => exact hcount
  | closing hcount => exact hcount

/-- The consumer takes a permit, and none is left. -/
theorem AtMostOne.acquire (h : p.AtMostOne) (hcount : p.count ≠ 0) :
    Free { p with count := p.count - 1 } := by
  cases h with
  | free h => exact absurd h.count hcount
  | counted _ hreleasing hclosing =>
    refine ⟨?_, hreleasing, hclosing⟩
    change p.count - 1 = 0
    omega
  | releasing _ hzero | closing hzero => exact absurd hzero hcount

section threads

variable [DecidableEq ι]

/-- A thread promises a permit while none is outstanding. -/
theorem Free.promise (h : p.Free) :
    AtMostOne { p with releasing := Function.update p.releasing t true } :=
  .releasing t h.count (Function.update_self ..)
    (fun k hk => (Function.update_of_ne hk ..).trans (h.releasing k)) h.closing

/-- A thread keeps its promise. -/
theorem AtMostOne.release (h : p.AtMostOne) (ht : p.releasing t = true) :
    AtMostOne { p with
      count := p.count + 1
      releasing := Function.update p.releasing t false } := by
  cases h with
  | free h => cases (h.releasing t).symm.trans ht
  | counted _ hreleasing | closing _ hreleasing => cases (hreleasing t).symm.trans ht
  | releasing k _ _ hother hclosing =>
    have hkt : k = t := by
      by_contra hne
      cases (hother t (Ne.symm hne)).symm.trans ht
    subst hkt
    refine .counted ?_ (fun j => ?_) hclosing
    · change p.count + 1 = 1
      omega
    · by_cases hj : j = k
      · subst hj
        exact Function.update_self ..
      · exact (Function.update_of_ne hj ..).trans (hother j hj)

end threads

/-- The last caller promises a permit while none is outstanding. -/
theorem Free.close (h : p.Free) : AtMostOne { p with closing := true } :=
  .closing h.count h.releasing rfl

/-- The last caller keeps its promise. -/
theorem AtMostOne.closed (h : p.AtMostOne) (hc : p.closing = true) :
    AtMostOne { p with
      count := p.count + 1
      closing := false } := by
  cases h with
  | free h => cases h.closing.symm.trans hc
  | counted _ _ hclosing | releasing _ _ _ _ hclosing => cases hclosing.symm.trans hc
  | closing _ hreleasing =>
    refine .counted ?_ hreleasing rfl
    change p.count + 1 = 1
    omega

/-! ### A queue behind the semaphore -/

/-- `pending`: the queue is not empty; `closed`: nothing is added to it any more; `woken`: the
consumer has taken a permit and has not looked at the queue yet. -/
structure Guards (p : Permits ι) (pending closed woken : Prop) : Prop where
  atMostOne : p.AtMostOne
  free : ¬ pending → ¬ closed → p.Free
  woken : woken → ¬ closed → p.Free ∧ pending

variable {pending pending' closed closed' woken woken' : Prop}

theorem Free.guards (h : p.Free) (hw : ¬ woken) : p.Guards pending closed woken :=
  ⟨.free h, fun _ _ => h, fun hwoken => absurd hwoken hw⟩

theorem Guards.of_closed (h : p.AtMostOne) (hc : closed) : p.Guards pending closed woken :=
  ⟨h, fun _ hopen => absurd hc hopen, fun _ hopen => absurd hc hopen⟩

/-- Nothing is taken out of the queue, and the consumer is not woken up. -/
theorem Guards.mono (h : p.Guards pending closed woken) (hp : pending → pending')
    (hc : closed → closed') (hw : woken' → woken) : p.Guards pending' closed' woken' where
  atMostOne := h.atMostOne
  free := fun hpending hopen => h.free (mt hp hpending) (mt hc hopen)
  woken := fun hwoken hopen => (h.woken (hw hwoken) (mt hc hopen)).imp_right hp

/-- The consumer takes the permit. -/
theorem Guards.acquire (h : p.Guards pending closed woken) (hcount : p.count ≠ 0) :
    Guards { p with count := p.count - 1 } pending closed woken' := by
  have hfree := h.atMostOne.acquire hcount
  refine ⟨.free hfree, fun _ _ => hfree, fun _ hopen => ⟨hfree, ?_⟩⟩
  by_contra hpending
  exact hcount (h.free hpending hopen).count

/-- A thread that has put something into the empty queue promises a permit. -/
theorem Guards.promise [DecidableEq ι] (h : p.Guards pending closed woken) (hempty : ¬ pending)
    (hopen : ¬ closed) (hp : pending') :
    Guards { p with releasing := Function.update p.releasing t true } pending' closed woken where
  atMostOne := (h.free hempty hopen).promise
  free := fun hnone _ => absurd hp hnone
  woken := fun hwoken _ => absurd (h.woken hwoken hopen).2 hempty

/-- A thread keeps its promise. -/
theorem Guards.release [DecidableEq ι] (h : p.Guards pending closed woken)
    (ht : p.releasing t = true) :
    Guards { p with
      count := p.count + 1
      releasing := Function.update p.releasing t false } pending closed woken where
  atMostOne := h.atMostOne.release ht
  free := fun hempty hopen => by cases ((h.free hempty hopen).releasing t).symm.trans ht
  woken := fun hwoken hopen => by cases ((h.woken hwoken hopen).1.releasing t).symm.trans ht

end Permits
