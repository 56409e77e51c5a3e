import Concurrencpp.Threads.AsyncLockPassing

/-!
# One unlock hands the lock to the first waiter that can run

* `Passing.step`: every step of an `unlock` and of what it resumes leads from one phase of the chain
  to the next, and makes the remaining work smaller;
* `Passing.progress`: the chain stops only at its end;
* `unlock_hands_over`: so it ends, and where it ends.
-/

namespace Concurrencpp

namespace AsyncLock

open Interleaving
open Slist

variable {s t : AsyncLock} {k m : ℕ} {pc : LockPc}

section chain

variable {works : ℕ → Bool} {callers : ℕ → LockCaller} {n : ℕ} {u : Unlocker}
  {xs failed queue : List ℕ} {phase : UnlockPhase}

/-! ### The steps of the chain -/

/-- The chain goes on, with less to do. -/
def PassesOn (works : ℕ → Bool) (callers : ℕ → LockCaller) (n : ℕ) (u : Unlocker) (xs : List ℕ)
    (k : ℕ) (s t : AsyncLock) : Prop :=
  (∃ failed phase queue, Passing works callers n u xs t failed phase queue) ∧ Lighter k s t

/-- The popped waiter goes on behind its `co_await`. -/
theorem Passing.resume (h : Passing works callers n u xs s failed (.popped m) queue)
    (hr : Reachable s) (hnd : (n :: xs).Nodup) (hk : k = n ∨ k ∈ failed)
    (hawaiter : (s.pcs k).awaiter = some m) (ha : pc.awaiter = none)
    (hpc : pc.weight < (s.pcs k).weight) (hown : k = n → (UnlockPhase.loop m).Owner u pc)
    (hfailed : k ∈ failed → pc = .threw .brokenTask ∨ ∃ a, pc = .rethrow a)
    (hs : (s.setPc k pc).resume m = some t) : PassesOn works callers n u xs k s t := by
  obtain ⟨-, hncurrent, -, hfailed', -⟩ := h.disjoint hnd
  have hkm : k ≠ m := by
    rintro rfl
    rcases hk with rfl | hk
    · exact hncurrent rfl
    · exact (hfailed' k hk).1 rfl
  have hm : s.pcs m = .suspended (callers m) := h.active m rfl
  obtain ⟨c, hc, rfl⟩ := resume_eq_some hs
  have hcaller : callers m = c := by
    rw [show (s.setPc k pc).pcs m = s.pcs m from Function.update_of_ne hkm.symm .., hm] at hc
    cases hc
    rfl
  rw [← hcaller]
  obtain ⟨ys, hchain⟩ := chainOk_of_reachable hr
  have hpassing :=
    h.retry (t := (s.setPc k pc).setPc m (.loop (callers m) false)) hnd rfl rfl rfl rfl rfl hk
    (fun j hj => hchain.queue.popper j k m hj hawaiter) ha hown hfailed
  refine ⟨⟨_, _, _, hpassing⟩, lighter_of_retry rfl hkm hpc ?_⟩
  rw [hm]
  exact Nat.le_succ 8

/-- The task that has called `unlock`, behind its critical section. -/
theorem Passing.advance_returning (h : Passing works callers n u xs s failed phase queue)
    (hr : Reachable s) (hnd : (n :: xs).Nodup) (hret : u.Returning (s.pcs n))
    (howner : ∀ pc, u.Returning pc → phase.Owner u pc) (hs : s.advance n = some t) :
    PassesOn works callers n u xs n s t := by
  obtain ⟨hnfailed, hncurrent, hnqueue, -⟩ := h.disjoint hnd
  rcases hret with ⟨a, hpc⟩ | hpc | hpc
  · cases a with
    | none =>
      simp only [advance, hpc] at hs
      cases hs
      have hpcs : (s.setPc n (.unlocked u)).pcs = Function.update s.pcs n (.unlocked u) := rfl
      refine ⟨⟨_, _, _, h.side hpcs rfl rfl rfl rfl ?_ (h.done hncurrent hnqueue rfl
        (fun _ => howner _ (.inr (.inl rfl))) (fun hn => absurd hn hnfailed)
        (fun hn => absurd rfl hn))⟩, lighter_of_update rfl ?_⟩
      · rw [hpc]
        rfl
      · rw [hpc]
        exact Nat.lt_succ_self 1
    | some m =>
      simp only [advance, hpc] at hs
      have hawaiter : (s.pcs n).awaiter = some m := by rw [hpc]; rfl
      obtain rfl := (h.parts n).popped m hawaiter
      refine h.resume hr hnd (.inl rfl) hawaiter rfl ?_ (fun _ => .inr (.inl rfl))
        (fun hn => absurd hn hnfailed) hs
      rw [hpc]
      exact Nat.lt_succ_of_lt (Nat.lt_succ_self 1)
  · simp only [advance, hpc] at hs
    have hpcs : t.pcs = Function.update s.pcs n .idle := by
      cases hs
      exact unlocked_pcs
    have hrest : t.next = s.next ∧ t.awaiters = s.awaiters ∧ t.locked = s.locked ∧
        t.awaiterLock = s.awaiterLock := by
      cases hs
      cases u <;> exact ⟨rfl, rfl, rfl, rfl⟩
    refine ⟨⟨_, _, _,
      h.side hpcs hrest.1 hrest.2.1 hrest.2.2.1 hrest.2.2.2 ?_ (h.done hncurrent hnqueue
      rfl (fun _ => howner _ (.inr (.inr rfl))) (fun hn => absurd hn hnfailed)
      (fun hn => absurd rfl hn))⟩, lighter_of_update hpcs ?_⟩
    · rw [hpc]
      rfl
    · rw [hpc]
      exact Nat.lt_succ_self 0
  · cases (advance_idle hpc).symm.trans hs

/-- A waiter whose executor has failed, behind its `catch`. -/
theorem Passing.advance_failed (h : Passing works callers n u xs s failed phase queue)
    (hr : Reachable s) (hnd : (n :: xs).Nodup) (hk : k ∈ failed)
    (hthrew : (s.pcs k).hasThrown = false) (hs : s.advance k = some t) :
    PassesOn works callers n u xs k s t := by
  obtain ⟨hnfailed, -, -, hfailed, -⟩ := h.disjoint hnd
  have hkn : k ≠ n := by
    rintro rfl
    exact hnfailed hk
  rcases ((h.parts k).broken hk).2 with hpc | ⟨a, hpc⟩
  · rw [hpc] at hthrew
    cases hthrew
  cases a with
  | none =>
    simp only [advance, hpc] at hs
    cases hs
    have hpcs : (s.setPc k (.threw .brokenTask)).pcs =
        Function.update s.pcs k (.threw .brokenTask) := rfl
    refine ⟨⟨_, _, _, h.side hpcs rfl rfl rfl rfl ?_ (h.done (hfailed k hk).1 (hfailed k hk).2 rfl
      (fun hn => absurd hn hkn) (fun _ => .inl rfl) (fun _ => h.mem_xs (.inl hk)))⟩,
      lighter_of_update rfl ?_⟩
    · rw [hpc]
      rfl
    · rw [hpc]
      exact Nat.succ_pos 1
  | some m =>
    simp only [advance, hpc] at hs
    have hawaiter : (s.pcs k).awaiter = some m := by rw [hpc]; rfl
    obtain rfl := (h.parts k).popped m hawaiter
    refine h.resume hr hnd (.inr hk) hawaiter rfl ?_ (fun hn => absurd hn hkn)
      (fun _ => .inr ⟨none, rfl⟩) hs
    rw [hpc]
    exact Nat.lt_succ_self 2

theorem lockMutex_eq_some (hs : s.lockMutex k pc = some t) :
    t = { s.setPc k pc with awaiterLock := some k } := by
  unfold lockMutex at hs
  split at hs
  · cases hs
    rfl
  · cases hs

section

variable (h : Passing works callers n u xs s failed phase queue)
include h

/-- The waiter whose turn it is, on its way to its executor and back. -/
theorem Passing.advance_current (hnd : (n :: xs).Nodup) (hk : phase.current = some k)
    (hs : s.advance k = some t) : PassesOn works callers n u xs k s t := by
  have hpc := h.active k hk
  cases phase with
  | unlock | unlocking | free => cases hk
  | popped | resumeOn | posted =>
    -- suspended, or in the hands of the executor
    simp only [advance, hpc, UnlockPhase.pc] at hs
    cases hs
  | loop =>
    cases hk
    simp only [advance, hpc, UnlockPhase.pc] at hs
    have ht := lockMutex_eq_some hs
    subst ht
    refine ⟨⟨_, .attempt k, _, h.turn hnd rfl rfl rfl rfl rfl h.locked rfl UnlockPhase.noConfusion
      UnlockPhase.noConfusion rfl trivial⟩, lighter_of_update rfl ?_⟩
    rw [hpc]
    exact Nat.lt_succ_self 7
  | attempt =>
    cases hk
    simp only [advance, hpc, UnlockPhase.pc] at hs
    -- the lock is free: the waiter takes it at its first attempt
    have hlocked : s.locked = false := h.locked
    simp only [attempt, hlocked] at hs
    cases hs
    refine ⟨⟨_, .resumeOn k, _, h.turn hnd rfl rfl rfl rfl rfl rfl rfl UnlockPhase.noConfusion
      UnlockPhase.noConfusion rfl trivial⟩, lighter_of_update rfl ?_⟩
    rw [hpc]
    exact Nat.lt_succ_self 6
  | broken =>
    cases hk
    simp only [advance, hpc, UnlockPhase.pc] at hs
    have ht := lockMutex_eq_some hs
    subst ht
    refine ⟨⟨_, .giveBack k, _, h.turn hnd rfl rfl rfl rfl rfl h.locked rfl UnlockPhase.noConfusion
      UnlockPhase.noConfusion rfl h.fits⟩, lighter_of_update rfl ?_⟩
    rw [hpc]
    exact Nat.lt_succ_self 4
  | giveBack m =>
    cases hk
    simp only [advance, hpc, UnlockPhase.pc] at hs
    cases hs
    refine ⟨⟨_, _, _, h.pop hnd (.inr ⟨rfl, h.fits, rfl⟩) fun m hm => UnlockPhase.noConfusion hm⟩,
      lighter_of_update rfl ?_⟩
    rw [hpc]
    cases (s.awaiters.popFront s.next).1 with
    | none => exact Nat.lt_succ_of_lt (Nat.lt_succ_self 2)
    | some => exact Nat.lt_succ_self 3

/-- What the executor of the current waiter does: it takes the task, or throws. -/
theorem Passing.execute {b : Bool} (hnd : (n :: xs).Nodup) (hworks : works k = b)
    (hk : phase.current = some k) (hs : s.post k b = some t) :
    PassesOn works callers n u xs k s t := by
  have hpc := h.active k hk
  cases phase with
  | unlock | unlocking | free => cases hk
  | resumeOn =>
    cases hk
    simp only [post, hpc, UnlockPhase.pc] at hs
    cases hs
    cases b with
    | true =>
      refine ⟨⟨_, .posted k, _,
        h.turn hnd rfl rfl rfl rfl rfl h.locked h.mutex UnlockPhase.noConfusion
        UnlockPhase.noConfusion rfl hworks⟩, lighter_of_update rfl ?_⟩
      rw [hpc]
      exact Nat.succ_pos 5
    | false =>
      refine ⟨⟨_, .broken k, _,
        h.turn hnd rfl rfl rfl rfl rfl h.locked h.mutex UnlockPhase.noConfusion
        UnlockPhase.noConfusion rfl hworks⟩, lighter_of_update rfl ?_⟩
      rw [hpc]
      exact Nat.lt_succ_self 5
  | _ =>
    simp only [post, hpc, UnlockPhase.pc] at hs
    cases hs

/-- Where a task can be. -/
theorem Passing.part (k : ℕ) :
    k = n ∨ k ∈ failed ∨ phase.current = some k ∨ (s.pcs k).isSuspended = true ∨
    s.pcs k = .idle := by
  by_cases hn : k = n
  · exact .inl hn
  by_cases hk : k ∈ xs
  · rw [h.order, List.mem_append, List.mem_append, Option.mem_toList] at hk
    rcases hk with hk | hk | hk
    · exact .inr (.inl hk)
    · exact .inr (.inr (.inl hk))
    · refine .inr (.inr (.inr (.inl ?_)))
      rw [(h.parts k).waiting hk]
      rfl
  · exact .inr (.inr (.inr (.inr ((h.parts k).other hn hk))))

theorem Passing.advance (hr : Reachable s) (hnd : (n :: xs).Nodup)
    (hthrew : (s.pcs k).hasThrown = false) (hs : s.advance k = some t) :
    PassesOn works callers n u xs k s t := by
  rcases h.part k with rfl | hk | hk | hk | hk
  · have howner := h.owner
    cases phase with
    | unlock =>
      have hpc : s.pcs k = .unlock u := howner
      simp only [AsyncLock.advance, hpc] at hs
      have ht := lockMutex_eq_some hs
      subst ht
      exact ⟨⟨_, _, _, h.enter hnd rfl rfl rfl rfl rfl⟩,
        lighter_of_update rfl (by rw [hpc]; exact Nat.lt_succ_self 5)⟩
    | unlocking =>
      have hpc : s.pcs k = .unlocking u := howner
      have hlocked : s.locked = true := h.locked
      simp only [AsyncLock.advance, hpc, unlocking, hlocked] at hs
      cases hs
      refine ⟨⟨_, _, _, h.pop hnd (.inl ⟨rfl, rfl, rfl⟩) fun m hm => UnlockPhase.noConfusion hm⟩,
        lighter_of_update rfl ?_⟩
      rw [hpc]
      cases (s.awaiters.popFront s.next).1 with
      | none => exact Nat.lt_succ_of_lt (Nat.lt_succ_of_lt (Nat.lt_succ_self 2))
      | some => exact Nat.lt_succ_of_lt (Nat.lt_succ_self 3)
    | _ => exact h.advance_returning hr hnd howner (fun _ => id) hs
  · exact h.advance_failed hr hnd hk hthrew hs
  · exact h.advance_current hnd hk hs
  · cases hpc : s.pcs k with
    | suspended =>
      simp only [AsyncLock.advance, hpc] at hs
      cases hs
    | _ =>
      rw [hpc] at hk
      cases hk
  · cases (advance_idle hk).symm.trans hs

/-- Only the waiter whose turn it is stands at its executor. -/
theorem Passing.current_of_resumeOn {c : LockCaller} (hpc : s.pcs k = .resumeOn c) :
    phase.current = some k := by
  rcases h.part k with rfl | hk | hk | hk | hk
  · have howner := h.owner
    rw [hpc] at howner
    cases phase with
    | unlock | unlocking => cases howner
    | _ => rcases howner with ⟨a, ha⟩ | ha | ha <;> cases ha
  · rcases ((h.parts k).broken hk).2 with hb | ⟨a, hb⟩ <;> cases hpc.symm.trans hb
  · exact hk
  · rw [hpc] at hk
    cases hk
  · cases hpc.symm.trans hk

/-- **The chain goes on** with every step, and has less to do. -/
theorem Passing.step {a : LockAction} (hr : Reachable s) (hnd : (n :: xs).Nodup)
    (hs : unlockStep works s (k, a) = some t) : PassesOn works callers n u xs k s t := by
  obtain ⟨hm, hs⟩ := Interleaving.restrict_eq_some hs
  cases a with
  | advance =>
    have hthrew : (s.pcs k).hasThrown = false := by simpa [ofUnlock] using hm
    exact h.advance hr hnd hthrew (advance_of_step hs)
  | post =>
    replace hs : s.post k true = some t := (step_eq_some.1 hs).2
    have hpost := hs
    unfold AsyncLock.post at hpost
    split at hpost
    · next c hpc => exact h.execute hnd hm (h.current_of_resumeOn hpc) hs
    · cases hpost
  | throw =>
    replace hs : s.post k false = some t := (step_eq_some.1 hs).2
    have hworks : works k = false := by simpa [ofUnlock] using hm
    have hpost := hs
    unfold AsyncLock.post at hpost
    split at hpost
    · next c hpc => exact h.execute hnd hworks (h.current_of_resumeOn hpc) hs
    · cases hpost
  | _ => cases hm

end

/-! ### The end of the chain -/

/-- The chain has ended: the lock is with the executor of a waiter or free, everybody else has
returned. -/
def Ended (n : ℕ) (failed : List ℕ) (phase : UnlockPhase) (s : AsyncLock) : Prop :=
  (phase = .free ∨ ∃ m, phase = .posted m) ∧ s.pcs n = .idle ∧
    ∀ w ∈ failed, s.pcs w = .threw .brokenTask

theorem unlockStep_advance (hpc : s.pcs k = pc) (hadvance : pc.hasThrown = false ∧ pc.stores = none)
    (hs : s.advance k = some t) : ∃ k a t, unlockStep works s (k, a) = some t := by
  subst hpc
  refine ⟨k, .advance, t, ?_⟩
  have hof : ofUnlock works s (k, .advance) = true := by simp [ofUnlock, hadvance.1]
  rw [unlockStep, restrict, if_pos hof]
  exact step_of_codeStep rfl hadvance.2 hs

/-- Once nobody is popped, `unlock` returns and those that have failed throw. -/
theorem Passing.ends (h : Passing works callers n u xs s failed phase queue)
    (hphase : phase = .free ∨ ∃ m, phase = .posted m) (hret : u.Returning (s.pcs n)) :
    (∃ k a t, unlockStep works s (k, a) = some t) ∨ Ended n failed phase s := by
  have hnone : ∀ k, (s.pcs k).awaiter = none := by
    intro k
    cases ha : (s.pcs k).awaiter with
    | none => rfl
    | some m =>
      have hpopped := (h.parts k).popped m ha
      rcases hphase with hfree | ⟨m', hposted⟩
      · cases hpopped.symm.trans hfree
      · cases hpopped.symm.trans hposted
  by_cases hidle : s.pcs n = .idle
  · by_cases hthrew : ∀ w ∈ failed, s.pcs w = .threw .brokenTask
    · exact .inr ⟨hphase, hidle, hthrew⟩
    · push Not at hthrew
      obtain ⟨w, hw, hne⟩ := hthrew
      obtain ⟨a, ha⟩ := ((h.parts w).broken hw).2.resolve_left hne
      have hawaiter := hnone w
      rw [ha] at hawaiter
      cases hawaiter
      exact .inl (unlockStep_advance ha ⟨rfl, rfl⟩ (by simp only [AsyncLock.advance, ha]; rfl))
  · rcases hret with ⟨a, ha⟩ | ha | ha
    · have hawaiter := hnone n
      rw [ha] at hawaiter
      cases hawaiter
      exact .inl (unlockStep_advance ha ⟨rfl, rfl⟩ (by simp only [AsyncLock.advance, ha]; rfl))
    · exact .inl (unlockStep_advance ha ⟨rfl, rfl⟩ (by simp only [AsyncLock.advance, ha]; rfl))
    · exact absurd ha hidle

/-- **The chain is never stuck** before its end. -/
theorem Passing.progress (h : Passing works callers n u xs s failed phase queue) :
    (∃ k a t, unlockStep works s (k, a) = some t) ∨ Ended n failed phase s := by
  have howner := h.owner
  have hactive := h.active
  have hmutex := h.mutex
  cases phase with
  | unlock =>
    have hpc : s.pcs n = .unlock u := howner
    have hlock : s.awaiterLock = none := hmutex
    exact .inl (unlockStep_advance hpc ⟨rfl, rfl⟩
      (by simp only [AsyncLock.advance, hpc, lockMutex, hlock]; rfl))
  | unlocking =>
    have hpc : s.pcs n = .unlocking u := howner
    exact .inl (unlockStep_advance hpc ⟨rfl, rfl⟩ (by simp only [AsyncLock.advance, hpc]; rfl))
  | popped m =>
    obtain ⟨k, hk⟩ := h.popper m rfl
    have hm : s.pcs m = .suspended (callers m) := hactive m rfl
    have hmk : m ≠ k := by
      rintro rfl
      rw [hm] at hk
      cases hk
    have hresume : ∀ pc,
        (s.setPc k pc).resume m = some ((s.setPc k pc).setPc m (.loop (callers m) false)) := by
      intro pc
      have hpcs : (s.setPc k pc).pcs m = .suspended (callers m) :=
        (Function.update_of_ne hmk ..).trans hm
      simp only [AsyncLock.resume, hpcs]
    cases hpc : s.pcs k with
    | retry | rethrow =>
      rw [hpc] at hk
      cases hk
      exact .inl (unlockStep_advance hpc ⟨rfl, rfl⟩
        (by simp only [AsyncLock.advance, hpc]; exact hresume _))
    | _ =>
      rw [hpc] at hk
      cases hk
  | loop m =>
    have hpc : s.pcs m = .loop (callers m) false := hactive m rfl
    have hlock : s.awaiterLock = none := hmutex
    exact .inl (unlockStep_advance hpc ⟨rfl, rfl⟩
      (by simp only [AsyncLock.advance, hpc, lockMutex, hlock]; rfl))
  | attempt m =>
    have hpc : s.pcs m = .attempt (callers m) false := hactive m rfl
    exact .inl (unlockStep_advance hpc ⟨rfl, rfl⟩ (by simp only [AsyncLock.advance, hpc]; rfl))
  | resumeOn m =>
    have hpc : s.pcs m = .resumeOn (callers m) := hactive m rfl
    cases hworks : works m with
    | true =>
      refine .inl ⟨m, .post, s.setPc m (.posted (callers m)), ?_⟩
      rw [unlockStep, restrict, if_pos (show ofUnlock works s (m, .post) = true from hworks)]
      exact step_of_codeStep rfl (by rw [hpc]; rfl) (by simp [codeStep, AsyncLock.post, hpc])
    | false =>
      have hof : ofUnlock works s (m, .throw) = true := by simp [ofUnlock, hworks]
      refine .inl ⟨m, .throw, s.setPc m .broken, ?_⟩
      rw [unlockStep, restrict, if_pos hof]
      exact step_of_codeStep rfl (by rw [hpc]; rfl) (by simp [codeStep, AsyncLock.post, hpc])
  | broken m =>
    have hpc : s.pcs m = .broken := hactive m rfl
    have hlock : s.awaiterLock = none := hmutex
    exact .inl (unlockStep_advance hpc ⟨rfl, rfl⟩
      (by simp only [AsyncLock.advance, hpc, lockMutex, hlock]; rfl))
  | giveBack m =>
    have hpc : s.pcs m = .giveBack := hactive m rfl
    exact .inl (unlockStep_advance hpc ⟨rfl, rfl⟩ (by simp only [AsyncLock.advance, hpc]; rfl))
  | posted m => exact h.ends (.inr ⟨m, rfl⟩) howner
  | free => exact h.ends (.inl rfl) howner

end chain

/-! ### `unlock` -/

/-- Where the `unlock` of `n` leaves the waiters `xs`. -/
structure HandedOver (works : ℕ → Bool) (n : ℕ) (xs : List ℕ) (s : AsyncLock) : Prop where
  /-- `unlock` has returned. -/
  returned : s.pcs n = .idle
  /-- The first waiter with a working executor owns the lock and is scheduled there; those before it
  have got `broken_task`, and those behind it wait as before. -/
  granted : ∀ failed w rest, xs = failed ++ w :: rest → (∀ v ∈ failed, works v = false) →
    works w = true →
    (∀ v ∈ failed, s.pcs v = .threw .brokenTask) ∧ (∃ c, s.pcs w = .posted c) ∧ s.locked = true ∧
      s.OwnedBy (some (.call w)) ∧ Spells s.next s.awaiters rest ∧
      ∀ v ∈ rest, (s.pcs v).isSuspended = true
  /-- Without a working executor every waiter has got `broken_task`, and the lock is free. -/
  free : (∀ v ∈ xs, works v = false) → (∀ v ∈ xs, s.pcs v = .threw .brokenTask) ∧ s.locked = false ∧
    s.OwnedBy none ∧ s.awaiters = .empty

theorem Passing.handedOver {works : ℕ → Bool} {callers : ℕ → LockCaller} {n : ℕ} {u : Unlocker}
    {xs failed queue : List ℕ} {phase : UnlockPhase}
    (h : Passing works callers n u xs s failed phase queue) (hr : Reachable s)
    (hend : Ended n failed phase s) : HandedOver works n xs s := by
  obtain ⟨hphase, hidle, hthrew⟩ := hend
  obtain ⟨o, ho⟩ := ownedBy_of_reachable hr
  have hfailed : ∀ v ∈ failed, works v = false := fun v hv => ((h.parts v).broken hv).1
  have horder := h.order
  refine ⟨hidle, fun failed' w rest hxs hbroken hworks => ?_, fun hbroken => ?_⟩
  · rcases hphase with rfl | ⟨m, rfl⟩
    · -- nobody is left, so that `w` is among those that have failed
      have hqueue := h.rest rfl
      rw [hqueue, hxs] at horder
      have hw : w ∈ failed := by
        rw [show failed = failed' ++ w :: rest by simpa [UnlockPhase.current] using horder.symm]
        simp
      cases (hfailed w hw).symm.trans hworks
    · have hm : works m = true := h.fits
      have hsplit : failed' = failed ∧ w :: rest = m :: queue := by
        have heq : failed' ++ w :: rest = failed ++ m :: queue := hxs.symm.trans horder
        -- both are the waiters before the first one that works
        have hleft : ∀ {l : List ℕ} {v : ℕ} {r : List ℕ}, (∀ x ∈ l, works x = false) →
            works v = true → (l ++ v :: r).takeWhile (fun x => !works x) = l := by
          intro l v r hl hv
          rw [List.takeWhile_append_of_pos fun x hx => by rw [hl x hx]; rfl, List.takeWhile_cons,
            hv]
          simp
        have hfirst : failed' = failed := by
          rw [← hleft (r := rest) hbroken hworks, heq, hleft hfailed hm]
        rw [hfirst] at heq
        exact ⟨hfirst, List.append_cancel_left heq⟩
      obtain ⟨rfl, hcons⟩ := hsplit
      cases hcons
      have hpc : s.pcs w = .posted (callers w) := h.active w rfl
      have hout : s.Outstanding (.call w) := by
        change (s.pcs w).holds = true
        rw [hpc]
        rfl
      have howner := (ho.outstanding _).1 hout
      refine ⟨hthrew, ⟨_, hpc⟩, h.locked, howner ▸ ho, h.spells, fun v hv => ?_⟩
      rw [(h.parts v).waiting hv]
      rfl
  · rcases hphase with rfl | ⟨m, rfl⟩
    · have hqueue := h.rest rfl
      have hspells := h.spells
      rw [hqueue] at horder hspells
      have hxs : xs = failed := by simpa [UnlockPhase.current] using horder
      have hlocked : s.locked = false := h.locked
      have howner : o = none := by
        have hnone := ho.locked
        rw [hlocked] at hnone
        exact Option.not_isSome_iff_eq_none.1 (by rw [← hnone]; decide)
      refine ⟨hxs ▸ hthrew, hlocked, howner ▸ ho, ?_⟩
      obtain ⟨hchain, htail⟩ := hspells
      cases hawaiters : s.awaiters with
      | mk =>
        rw [hawaiters] at hchain htail
        cases hchain
        cases htail
        rfl
    · have hm : works m = true := h.fits
      have hmem : m ∈ xs := by
        rw [horder]
        simp [UnlockPhase.current]
      cases (hbroken m hmem).symm.trans hm

/-- An `unlock` that begins while nobody but the waiters is inside a call. -/
theorem passing_start {n : ℕ} {u : Unlocker} {xs : List ℕ} (works : ℕ → Bool) (hr : Reachable s)
    (hn : s.pcs n = .unlock u) (hxs : Spells s.next s.awaiters xs)
    (hquiet : ∀ k, k ≠ n → k ∉ xs → s.pcs k = .idle) :
    (n :: xs).Nodup ∧ Passing works (fun k => (s.pcs k).caller) n u xs s [] .unlock xs := by
  obtain ⟨ys, hok⟩ := chainOk_of_reachable hr
  obtain ⟨o, ho⟩ := ownedBy_of_reachable hr
  obtain rfl : ys = xs := hok.queue.spells.chain.unique hxs.chain
  have hwaiting : ∀ w ∈ ys, s.pcs w = .suspended (s.pcs w).caller :=
    fun w hw => LockPc.eq_suspended (hok.queue.queued w hw)
  have hnx : n ∉ ys := by
    intro hnx
    cases hn.symm.trans (hwaiting n hnx)
  -- a task is the owner, a waiter, or outside of every call
  have hcases : ∀ k, s.pcs k = .unlock u ∨ (s.pcs k).isSuspended = true ∨ s.pcs k = .idle := by
    intro k
    by_cases hkn : k = n
    · exact .inl (hkn ▸ hn)
    by_cases hkx : k ∈ ys
    · exact .inr (.inl (hok.queue.queued k hkx))
    · exact .inr (.inr (hquiet k hkn hkx))
  have hmutex : s.awaiterLock = none := by
    cases hlock : s.awaiterLock with
    | none => rfl
    | some k =>
      have hinside := (hok.mutex k).2 hlock
      rcases hcases k with hk | hk | hk
      · rw [hk] at hinside
        cases hinside
      · rw [LockPc.eq_suspended hk] at hinside
        cases hinside
      · rw [hk] at hinside
        cases hinside
  have hlocked : s.locked = true := by
    refine ho.locked_of (g := .call n) ?_
    change (s.pcs n).holds = true
    rw [hn]
    rfl
  refine ⟨List.nodup_cons.2 ⟨hnx, hxs.nodup⟩, ?_⟩
  exact {
    order := rfl
    spells := hxs
    locked := hlocked
    mutex := hmutex
    parts := fun k => {
      owner := by rintro rfl; exact hn
      broken := fun hw => by cases hw
      active := fun hw => by cases hw
      waiting := hwaiting k
      other := hquiet k
      popped := fun m hk => by
        rcases hcases k with hpc | hpc | hpc
        · rw [hpc] at hk
          cases hk
        · rw [LockPc.awaiter_eq_none hpc] at hk
          cases hk
        · rw [hpc] at hk
          cases hk }
    popper := fun m hm => by cases hm
    fits := trivial
    rest := fun hfree => by cases hfree }

/-- The work that an `unlock` and its waiters have at most. -/
theorem work_start {n : ℕ} {u : Unlocker} {xs : List ℕ} (hn : s.pcs n = .unlock u)
    (hxs : ∀ w ∈ xs, (s.pcs w).isSuspended = true) : work (n :: xs) s = 9 * xs.length + 6 := by
  have hsum : ∀ {l : List ℕ}, (∀ w ∈ l, (s.pcs w).isSuspended = true) →
      work l s = 9 * l.length := by
    intro l hl
    induction l with
    | nil => rfl
    | cons w _ ih =>
      have hw : (s.pcs w).weight = 9 := by
        rw [LockPc.eq_suspended (hl w List.mem_cons_self)]
        rfl
      have hrest := ih fun v hv => hl v (List.mem_cons_of_mem w hv)
      unfold work at hrest ⊢
      rw [List.map_cons, List.sum_cons, hw, hrest, List.length_cons]
      omega
  have hrest := hsum hxs
  unfold work at hrest ⊢
  rw [List.map_cons, List.sum_cons, hrest, hn]
  exact Nat.add_comm ..

/-- A state on the way of an `unlock` by `n` through the waiters `xs`. -/
def OnCourse (works : ℕ → Bool) (callers : ℕ → LockCaller) (n : ℕ) (u : Unlocker) (xs : List ℕ)
    (s : AsyncLock) : Prop :=
  Reachable s ∧ ∃ failed phase queue, Passing works callers n u xs s failed phase queue

theorem OnCourse.step {works : ℕ → Bool} {callers : ℕ → LockCaller} {n : ℕ} {u : Unlocker}
    {xs : List ℕ} {move : ℕ × LockAction} (h : OnCourse works callers n u xs s)
    (hnd : (n :: xs).Nodup) (hs : unlockStep works s move = some t) :
    OnCourse works callers n u xs t ∧ work (n :: xs) t + 1 ≤ work (n :: xs) s := by
  obtain ⟨k, action⟩ := move
  obtain ⟨hr, failed, phase, queue, h⟩ := h
  obtain ⟨hpassing, hlighter⟩ := h.step hr hnd hs
  -- who moves has work left, and the others are idle
  have hk : k ∈ n :: xs := by
    by_contra hk
    rw [List.mem_cons, not_or] at hk
    have hweight := hlighter.2
    rw [(h.parts k).other hk.1 hk.2] at hweight
    exact absurd hweight (Nat.not_lt_zero _)
  exact ⟨⟨hr.next trivial (Interleaving.restrict_eq_some hs).2, hpassing⟩, hlighter.work_lt hk⟩

/-- **One unlock hands the lock to the first waiter that can run.**  The owner calls `unlock` with
the waiters `xs` in the queue and nobody else inside a call; `works` says whose executor is not shut
down.  Then `unlock` and what it resumes take at most `9 * xs.length + 6` steps, in whatever order,
and when none is left the waiters before the first one with a working executor have got
`broken_task`, that one owns the lock and is scheduled on its executor, and those behind it are in
the queue as before; without a working executor the lock is free and the queue empty. -/
theorem unlock_hands_over {n : ℕ} {u : Unlocker} {xs : List ℕ} (works : ℕ → Bool) (hr : Reachable s)
    (hn : s.pcs n = .unlock u) (hxs : Spells s.next s.awaiters xs)
    (hquiet : ∀ k, k ≠ n → k ∉ xs → s.pcs k = .idle) (moves : List (ℕ × LockAction))
    (hrun : run (unlockStep works) s moves = some t) :
    moves.length ≤ 9 * xs.length + 6 ∧
      ((∃ m v, unlockStep works t m = some v) ∨ HandedOver works n xs t) := by
  obtain ⟨hnd, hstart⟩ := passing_start works hr hn hxs hquiet
  have hinv : OnCourse works (fun k => (s.pcs k).caller) n u xs s := ⟨hr, _, _, _, hstart⟩
  have hcount := run_countP_add_le _ (work (n :: xs)) (fun _ => true)
    (fun _ _ _ ha hs => ha.step hnd hs) hinv hrun
  obtain ⟨ht, failed, phase, queue, h⟩ :=
    run_invariant _ (fun _ _ _ ha hs => (ha.step hnd hs).1) hinv hrun
  have hwork : work (n :: xs) s = 9 * xs.length + 6 :=
    work_start hn fun w hw => by rw [(hstart.parts w).waiting hw]; rfl
  rw [List.countP_true, hwork] at hcount
  refine ⟨by omega, ?_⟩
  rcases h.progress with ⟨k, a, v, hs⟩ | hend
  · exact Or.inl ⟨(k, a), v, hs⟩
  · exact Or.inr (h.handedOver ht hend)

/-- Task 0 unlocks its guard while the tasks 1, 2 and 3 wait; the executor of task 1 is shut
down. -/
theorem unlock_hands_over_of_shut_down_executor :
    ∃ t : AsyncLock, t.locked = true ∧ t.pcs 1 = .threw .brokenTask ∧ (∃ c, t.pcs 2 = .posted c) ∧
      Spells t.next t.awaiters [3] := by
  let lock (n : ℕ) : List (ℕ × LockAction) := [(n, .lock true), (n, .advance), (n, .advance)]
  let schedule : List (ℕ × LockAction) :=
    lock 0 ++ [(0, .finish 0)] ++ lock 1 ++ lock 2 ++ lock 3 ++ [(0, .scopedUnlock 0)]
  let moves : List (ℕ × LockAction) :=
    List.replicate 3 (0, .advance) ++ [(1, .advance), (1, .advance), (1, .throw)] ++
      List.replicate 3 (1, .advance) ++
      [(0, .advance), (2, .advance), (2, .advance), (2, .post), (1, .advance)]
  have hrun : ∃ s t, run step initial schedule = some s ∧ s.pcs 0 = .unlock (.ofScoped 0) ∧
      Spells s.next s.awaiters [1, 2, 3] ∧ (∀ k, k ≠ 0 → k ∉ [1, 2, 3] → s.pcs k = .idle) ∧
      run (unlockStep (· ≠ 1)) s moves = some t ∧
      ∀ k a, unlockStep (· ≠ 1) t (k, a) = none := by
    refine ⟨_, _, rfl, rfl, ⟨⟨rfl, rfl, rfl, rfl⟩, rfl⟩, fun k h0 hk => ?_, rfl, fun k a => ?_⟩
    · rcases k with _ | _ | _ | _ | k
      · exact absurd rfl h0
      · exact absurd (by decide) hk
      · exact absurd (by decide) hk
      · exact absurd (by decide) hk
      · rfl
    · rcases k with _ | _ | _ | _ | k <;> cases a <;> rfl
  obtain ⟨s, t, hs, hn, hxs, hquiet, ht, hstuck⟩ := hrun
  have hr : Reachable s := Reachable.of_run rfl hs
  obtain ⟨-, ⟨⟨k, a⟩, v, hv⟩ | hend⟩ := unlock_hands_over (· ≠ 1) hr hn hxs hquiet moves ht
  · cases (hstuck k a).symm.trans hv
  · obtain ⟨hbroken, hposted, hlocked, -, hspells, -⟩ :=
      hend.granted [1] 2 [3] rfl (by decide) (by decide)
    exact ⟨t, hlocked, hbroken 1 (by decide), hposted, hspells⟩

end AsyncLock

end Concurrencpp
