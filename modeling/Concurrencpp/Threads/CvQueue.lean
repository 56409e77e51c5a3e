import Concurrencpp.Threads.CvThreads

/-!
# The suspension queue of the condition variable

`m_awaiters` and the lists that notifications have detached from it share the links of their
`cv_awaiter`s.  A waiting task is in exactly one of them.

* `CvPc.ToResume next pc ms`: a task at `pc` has still to resume exactly `ms`, in this order.
* `AwaitersOk`: `m_awaiters` reads `xs`, the task `n` has to resume `ys n`, and all these lists
  together hold every waiting task once.
* `enqueue`, `dequeue` and `take` are the three changes of the lists; `queueOk_step` says which step
  makes which.
* `QueueOk`: the queue is what has arrived and not departed, in the order of arrival.
-/

namespace Concurrencpp

open Slist
open Function (update forall_update_iff update_self update_of_ne)

def CvPc.isWaiting : CvPc → Bool
  | .waiting _ => true
  | _ => false

/-- What a task that has notified the condition variable has still to resume. -/
def CvPc.ToResume (next : ℕ → Option ℕ) : CvPc → List ℕ → Prop
  | .resumeOne a, ms => ms = a.toList
  | .resumeAll l, ms => Spells next l ms
  | _, ms => ms = []

/-- The task neither waits nor has anybody to resume. -/
def CvPc.plain : CvPc → Bool
  | .waiting _ | .resumeOne _ | .resumeAll _ => false
  | _ => true

theorem CvPc.isWaiting_of_plain {pc : CvPc} (h : pc.plain = true) : pc.isWaiting = false := by
  cases pc <;> first | rfl | cases h

theorem CvPc.toResume_of_plain {pc : CvPc} {next : ℕ → Option ℕ} {ms : List ℕ}
    (h : pc.plain = true) : pc.ToResume next ms ↔ ms = [] := by
  cases pc <;> first | rfl | cases h

namespace CvSystem

/-! ### The lists -/

section Lists

variable {next next' : ℕ → Option ℕ} {awaiters awaiters' : Slist ℕ} {pcs : ℕ → CvPc}
  {xs xs' zs : List ℕ} {ys : ℕ → List ℕ} {n m : ℕ} {pc pc' : CvPc}

theorem ToResume.congr {ms : List ℕ} (h : pc.ToResume next ms) (heq : ∀ b ∈ ms, next' b = next b) :
    pc.ToResume next' ms := by
  cases pc with
  | resumeAll => exact Spells.congr h heq
  | _ => exact h

theorem ToResume.unique {ms ms' : List ℕ} (h : pc.ToResume next ms) (h' : pc.ToResume next ms') :
    ms = ms' := by
  cases pc with
  | resumeAll => exact LinkedChain.Chain.unique (Spells.chain h) (Spells.chain h')
  | _ => exact h.trans h'.symm

theorem ToResume.nodup {ms : List ℕ} (h : pc.ToResume next ms) : ms.Nodup := by
  cases pc with
  | resumeAll => exact Spells.nodup h
  | resumeOne a =>
    cases h
    cases a with
    | none => exact List.nodup_nil
    | some a => exact List.nodup_singleton a
  | _ =>
    cases h
    exact List.nodup_nil

/-- The queue, and what the notifying tasks have to resume. -/
structure AwaitersOk (next : ℕ → Option ℕ) (awaiters : Slist ℕ) (pcs : ℕ → CvPc) (xs : List ℕ)
    (ys : ℕ → List ℕ) : Prop where
  spells : Spells next awaiters xs
  toResume : ∀ n, (pcs n).ToResume next (ys n)
  waiting : ∀ m, (pcs m).isWaiting = true ↔ m ∈ xs ∨ ∃ n, m ∈ ys n
  disjoint : ∀ m n, m ∈ ys n → m ∉ xs
  once : ∀ m n n', m ∈ ys n → m ∈ ys n' → n = n'

theorem AwaitersOk.goto (h : AwaitersOk next awaiters pcs xs ys)
    (hw : pc.isWaiting = (pcs n).isWaiting) (hr : pc.ToResume next (ys n)) :
    AwaitersOk next awaiters (update pcs n pc) xs ys where
  spells := h.spells
  toResume := (forall_update_iff _ fun k (pc : CvPc) => pc.ToResume next (ys k)).2
    ⟨hr, fun k _ => h.toResume k⟩
  waiting := (forall_update_iff _ fun m (pc : CvPc) =>
    pc.isWaiting = true ↔ m ∈ xs ∨ ∃ n, m ∈ ys n).2
      ⟨by rw [hw]; exact h.waiting n, fun k _ => h.waiting k⟩
  disjoint := h.disjoint
  once := h.once

/-- A task with nothing to resume queues a new awaiter. -/
theorem AwaitersOk.enqueue {w : ℕ} (h : AwaitersOk next awaiters pcs xs ys)
    (hw : (pcs n).isWaiting = false) (hn : ys n = []) :
    AwaitersOk (awaiters.pushBack (update next n none) n).2
      (awaiters.pushBack (update next n none) n).1 (update pcs n (.waiting w))
      (xs ++ [n]) ys := by
  have hnot : n ∉ xs ∧ ∀ k, n ∉ ys k := by
    constructor
    · intro hx
      cases hw.symm.trans ((h.waiting n).2 (.inl hx))
    · intro k hk
      cases hw.symm.trans ((h.waiting n).2 (.inr ⟨k, hk⟩))
  have hfresh : ∀ b, b ≠ n → update next n none b = next b :=
    fun b hb => update_of_ne hb ..
  have hspells : Spells (update next n none) awaiters xs :=
    h.spells.congr fun b hb => hfresh b fun hbn => hnot.1 (hbn ▸ hb)
  -- the links of the detached lists are neither that of the new awaiter nor that of the old tail
  have hlinks : ∀ k, ∀ b ∈ ys k, (awaiters.pushBack (update next n none) n).2 b = next b := by
    intro k b hb
    rw [pushBack_next hspells (h.disjoint b k hb)]
    exact hfresh b fun hbn => hnot.2 k (hbn ▸ hb)
  constructor
  case spells => exact hspells.pushBack (update_self ..) hnot.1
  case toResume =>
    intro k
    by_cases hk : k = n
    · rw [hk, update_self]
      exact hn
    · rw [update_of_ne hk]
      exact ToResume.congr (h.toResume k) (hlinks k)
  case waiting =>
    intro k
    by_cases hk : k = n
    · simp [hk, CvPc.isWaiting]
    · rw [update_of_ne hk, h.waiting k]
      simp [hk]
  case disjoint =>
    intro m k hm
    have hmn : m ≠ n := by
      rintro rfl
      exact hnot.2 k hm
    simp [h.disjoint m k hm, hmn]
  case once => exact h.once

/-- A notification takes the front of the queue. -/
theorem AwaitersOk.dequeue (h : AwaitersOk next awaiters pcs (zs ++ xs') ys)
    (hw : pc.isWaiting = (pcs n).isWaiting) (hn : ys n = []) (hr : pc.ToResume next zs)
    (hs : Spells next awaiters' xs') :
    AwaitersOk next awaiters' (update pcs n pc) xs' (update ys n zs) := by
  have hnd := h.spells.nodup
  have hmem : ∀ m k, m ∈ update ys n zs k ↔ (k = n ∧ m ∈ zs) ∨ m ∈ ys k := by
    intro m k
    by_cases hk : k = n
    · subst hk
      simp [hn]
    · simp [hk]
  constructor
  case spells => exact hs
  case toResume =>
    intro k
    by_cases hk : k = n
    · rw [hk, update_self, update_self]
      exact hr
    · rw [update_of_ne hk, update_of_ne hk]
      exact h.toResume k
  case waiting =>
    intro m
    have hm : (update pcs n pc m).isWaiting = (pcs m).isWaiting := by
      by_cases hmn : m = n
      · rw [hmn, update_self, hw]
      · rw [update_of_ne hmn]
    rw [hm, h.waiting m]
    simp only [hmem, List.mem_append]
    constructor
    · rintro ((hz | hx) | ⟨k, hk⟩)
      · exact .inr ⟨n, .inl ⟨rfl, hz⟩⟩
      · exact .inl hx
      · exact .inr ⟨k, .inr hk⟩
    · rintro (hx | ⟨k, ⟨-, hz⟩ | hk⟩)
      · exact .inl (.inr hx)
      · exact .inl (.inl hz)
      · exact .inr ⟨k, hk⟩
  case disjoint =>
    intro m k hm hx
    rcases (hmem m k).1 hm with ⟨-, hz⟩ | hk
    · exact (List.disjoint_of_nodup_append hnd) hz hx
    · exact h.disjoint m k hk (List.mem_append_right _ hx)
  case once =>
    intro m k k' hm hm'
    rcases (hmem m k).1 hm with ⟨hk, hz⟩ | hk <;> rcases (hmem m k').1 hm' with ⟨hk', hz'⟩ | hk'
    · rw [hk, hk']
    · exact absurd (List.mem_append_left _ hz) (h.disjoint m k' hk')
    · exact absurd (List.mem_append_left _ hz') (h.disjoint m k hk)
    · exact h.once m k k' hk hk'

/-- A notifying task resumes the first of its awaiters. -/
theorem AwaitersOk.take {w : ℕ} (h : AwaitersOk next awaiters pcs xs ys) (hn : ys n = m :: zs)
    (hw : pc.isWaiting = (pcs n).isWaiting) (hr : pc.ToResume next zs) :
    AwaitersOk next awaiters (update (update pcs n pc) m (.resumeOn w)) xs
      (update ys n zs) := by
  have hmn : m ∈ ys n := by rw [hn]; exact List.mem_cons_self
  have hwait : (pcs m).isWaiting = true := (h.waiting m).2 (.inr ⟨n, hmn⟩)
  have hys : ys m = [] := by
    have hm := h.toResume m
    cases hpc : pcs m with
    | waiting =>
      rw [hpc] at hm
      exact hm
    | _ =>
      rw [hpc] at hwait
      cases hwait
  have hne : m ≠ n := by
    rintro rfl
    cases hys.symm.trans hn
  have hnd := ToResume.nodup (h.toResume n)
  rw [hn] at hnd
  have hmem : ∀ k j, k ∈ update ys n zs j ↔ k ≠ m ∧ k ∈ ys j := by
    intro k j
    by_cases hj : j = n
    · subst hj
      rw [update_self, hn, List.mem_cons]
      constructor
      · intro hk
        exact ⟨fun hkm => (List.nodup_cons.1 hnd).1 (hkm ▸ hk), .inr hk⟩
      · rintro ⟨hkm, hk⟩
        exact hk.resolve_left hkm
    · rw [update_of_ne hj]
      constructor
      · intro hk
        refine ⟨?_, hk⟩
        rintro rfl
        exact hj (h.once k j n hk hmn)
      · exact fun hk => hk.2
  constructor
  case spells => exact h.spells
  case toResume =>
    intro j
    by_cases hjm : j = m
    · rw [hjm, update_self, update_of_ne hne]
      exact hys
    · rw [update_of_ne hjm]
      by_cases hjn : j = n
      · rw [hjn, update_self, update_self]
        exact hr
      · rw [update_of_ne hjn, update_of_ne hjn]
        exact h.toResume j
  case waiting =>
    intro k
    simp only [hmem]
    by_cases hkm : k = m
    · subst hkm
      simp [CvPc.isWaiting, h.disjoint k n hmn]
    · have hk : (update pcs n pc k).isWaiting = (pcs k).isWaiting := by
        by_cases hkn : k = n
        · rw [hkn, update_self, hw]
        · rw [update_of_ne hkn]
      rw [update_of_ne hkm, hk, h.waiting k]
      simp [hkm]
  case disjoint =>
    intro k j hk
    exact h.disjoint k j ((hmem k j).1 hk).2
  case once =>
    intro k j j' hk hk'
    exact h.once k j j' ((hmem k j).1 hk).2 ((hmem k j').1 hk').2

end Lists

/-! ### Steps -/

variable {s s' : CvSystem} {t n m : ℕ} {ys : ℕ → List ℕ}

/-- The tasks that have been queued and not dequeued, in the order of their arrival. -/
def queue (s : CvSystem) : List ℕ := s.arrivals.drop s.departed

/-- `m_awaiters` reads the queue. -/
structure QueueOk (s : CvSystem) (ys : ℕ → List ℕ) : Prop where
  awaiters : AwaitersOk s.next s.awaiters s.pcs s.queue ys
  departed : s.departed ≤ s.arrivals.length

theorem QueueOk.goto {pc : CvPc} (h : s.QueueOk ys) (hn : (s.pcs n).plain = true)
    (hpc : pc.plain = true) : (s.setPc n pc).QueueOk ys where
  awaiters := by
    refine h.awaiters.goto ?_ ?_
    · rw [CvPc.isWaiting_of_plain hpc, CvPc.isWaiting_of_plain hn]
    · exact (CvPc.toResume_of_plain hpc).2 ((CvPc.toResume_of_plain hn).1 (h.awaiters.toResume n))
  departed := h.departed

theorem QueueOk.eq_nil (h : s.QueueOk ys) (hn : (s.pcs n).plain = true) : ys n = [] :=
  (CvPc.toResume_of_plain hn).1 (h.awaiters.toResume n)

theorem QueueOk.pushAwaiter {w : ℕ} (h : s.QueueOk ys) (hn : (s.pcs n).plain = true) :
    (s.pushAwaiter t n w).QueueOk ys where
  awaiters := by
    have h' := h.awaiters.enqueue (w := w) (CvPc.isWaiting_of_plain hn) (h.eq_nil hn)
    unfold queue at h' ⊢
    rw [← List.drop_append_of_le_length h.departed] at h'
    exact h'
  departed := by
    have := h.departed
    simp only [CvSystem.pushAwaiter, List.length_append, List.length_singleton, pop, setPc]
    omega

/-- `notify_one` takes the awaiter that has waited longest. -/
theorem QueueOk.notifyOne (h : s.QueueOk ys) (hn : s.pcs n = .notifyOne) :
    (s.notifyOne n).queue = s.queue.tail ∧ (s.notifyOne n).pcs n = .resumeOne s.queue.head? ∧
    (s.notifyOne n).QueueOk (update ys n s.queue.head?.toList) := by
  have hplain : (s.pcs n).plain = true := by rw [hn]; rfl
  obtain ⟨hhead, hspells⟩ := h.awaiters.spells.popFront
  have hsplit : s.queue.head?.toList ++ s.queue.tail = s.queue := by
    cases s.queue <;> rfl
  have hqueue : (s.notifyOne n).queue = s.queue.tail := by
    change s.arrivals.drop (s.departed + (s.awaiters.popFront s.next).1.toList.length) = _
    rw [← List.drop_drop, hhead]
    change s.queue.drop _ = _
    cases s.queue <;> rfl
  refine ⟨hqueue, ?_, ?_, ?_⟩
  · exact (update_self ..).trans (congrArg CvPc.resumeOne hhead)
  · rw [hqueue]
    refine AwaitersOk.dequeue (hsplit.symm ▸ h.awaiters) ?_ (h.eq_nil hplain) ?_ hspells
    · rw [hn]
      rfl
    · exact congrArg Option.toList hhead.symm
  · change s.departed + (s.awaiters.popFront s.next).1.toList.length ≤ s.arrivals.length
    have hlen : s.queue.head?.toList.length ≤ s.arrivals.length - s.departed := by
      rw [← List.length_drop]
      change _ ≤ s.queue.length
      cases s.queue <;> simp
    have hdep := h.departed
    rw [hhead]
    omega

/-- `notify_all` takes the whole queue. -/
theorem QueueOk.notifyAll (h : s.QueueOk ys) (hn : s.pcs n = .notifyAll) :
    (s.notifyAll n).queue = [] ∧
    (s.notifyAll n).QueueOk (update ys n s.queue) := by
  have hplain : (s.pcs n).plain = true := by rw [hn]; rfl
  have hqueue : (s.notifyAll n).queue = [] := List.drop_length
  refine ⟨hqueue, ?_, le_rfl⟩
  rw [hqueue]
  refine AwaitersOk.dequeue (by rw [List.append_nil]; exact h.awaiters) ?_ (h.eq_nil hplain)
    h.awaiters.spells spells_empty
  rw [hn]
  rfl

/-- The next awaiter of a notifying task, and what it has to resume behind it. -/
theorem QueueOk.takes {pc : CvPc} (h : s.QueueOk ys) (hn : s.Takes n m pc) :
    ∃ zs, ys n = m :: zs ∧ pc.ToResume s.next zs ∧ pc.isWaiting = (s.pcs n).isWaiting := by
  have hr := h.awaiters.toResume n
  rcases hn with ⟨hn, rfl⟩ | ⟨l, l', hn, hpop, rfl⟩
  · rw [hn] at hr ⊢
    exact ⟨[], hr, rfl, rfl⟩
  · rw [hn] at hr ⊢
    obtain ⟨hhead, htail⟩ := Spells.popFront hr
    rw [hpop] at hhead htail
    obtain ⟨zs, hzs⟩ := List.head?_eq_some_iff.1 hhead.symm
    rw [hzs] at htail
    exact ⟨zs, hzs, htail, rfl⟩

theorem QueueOk.returns (h : s.QueueOk ys) (hn : s.Returns n) :
    ys n = [] ∧ (s.pcs n).isWaiting = false := by
  have hr := h.awaiters.toResume n
  rcases hn with hn | ⟨e, hn⟩ | ⟨l, hn, hpop⟩
  · rw [hn] at hr ⊢
    exact ⟨hr, rfl⟩
  · rw [hn] at hr ⊢
    exact ⟨hr, rfl⟩
  · rw [hn] at hr ⊢
    have hhead := (Spells.popFront hr).1
    rw [hpop] at hhead
    exact ⟨List.head?_eq_none_iff.1 hhead.symm, rfl⟩

theorem QueueOk.frame (h : s.QueueOk ys) (hp : s'.pcs = s.pcs) (hn : s'.next = s.next)
    (ha : s'.awaiters = s.awaiters) (hr : s'.arrivals = s.arrivals)
    (hd : s'.departed = s.departed) : s'.QueueOk ys := by
  constructor
  · unfold queue
    rw [hp, hn, ha, hr, hd]
    exact h.awaiters
  · rw [hr, hd]
    exact h.departed

/-- The task is in the critical section of `notify_one` or `notify_all`. -/
def Notifies (s : CvSystem) (n : ℕ) : Prop := s.pcs n = .notifyOne ∨ s.pcs n = .notifyAll

/-- The awaiters that the critical section takes out of the queue. -/
def dequeues (s : CvSystem) (n : ℕ) : List ℕ :=
  match s.pcs n with
  | .notifyOne => s.queue.head?.toList
  | .notifyAll => s.queue
  | _ => []

/-- The list `xs` behind the task `k` is `xs'` after a step: the task has not been the one to step
or has left its list alone, it has dequeued awaiters, or it has resumed the first of them. -/
def ListStep (s s' : CvSystem) (t k : ℕ) (xs xs' : List ℕ) : Prop :=
  xs' = xs ∨ ((∃ rest, s.frames t = k :: rest) ∧ ((s.Notifies k ∧ xs' = s.dequeues k) ∨
    ∃ m w, xs = m :: xs' ∧ s.pcs m = .waiting w ∧ s'.pcs m = .resumeOn w))

theorem ListStep.update {rest zs : List ℕ} (hf : s.frames t = n :: rest)
    (h : (s.Notifies n ∧ zs = s.dequeues n) ∨
      ∃ m w, ys n = m :: zs ∧ s.pcs m = .waiting w ∧ s'.pcs m = .resumeOn w) (k : ℕ) :
    s.ListStep s' t k (ys k) (update ys n zs k) := by
  by_cases hk : k = n
  · subst hk
    rw [update_self]
    exact .inr ⟨⟨rest, hf⟩, h⟩
  · exact .inl (update_of_ne hk ..)

theorem ListStep.eq_of_ne {k : ℕ} {xs xs' : List ℕ} (h : s.ListStep s' t k xs xs')
    (hk : ∀ rest, s.frames t ≠ k :: rest) : xs' = xs := by
  rcases h with h | ⟨⟨rest, hf⟩, -⟩
  · exact h
  · exact absurd hf (hk rest)

theorem Takes.resumed {pc : CvPc} {w : ℕ} (h : s.Takes n m pc)
    (hm : (s.setPc n pc).pcs m = .waiting w) : s.pcs m = .waiting w := by
  have hmn : m ≠ n := by
    rintro rfl
    rw [setPc_pcs_self] at hm
    subst hm
    rcases h with ⟨-, h⟩ | ⟨l, l', -, -, h⟩ <;> cases h
  rw [setPc_pcs_of_ne hmn] at hm
  exact hm

/-- Every step keeps the lists; only the innermost task of the thread has another list behind it. -/
theorem queueOk_step {mv : CvMove} (h : s.QueueOk ys) (hs : Taken s mv s') :
    ∃ ys', s'.QueueOk ys' ∧ ∀ k, s.ListStep s' mv.thread k (ys k) (ys' k) := by
  cases hs with
  | lock _ ha =>
    obtain ⟨hp, hn, ha, hr, hd, -⟩ := afterLock_frame
    exact ⟨ys, h.frame hp hn ha hr hd, fun k => .inl rfl⟩
  | @call _ _ _ _ pc _ hu hpc =>
    refine ⟨ys, h.goto (by rw [hu.2]; rfl) ?_, fun k => .inl rfl⟩
    cases pc <;> first | rfl | cases hpc
  | @acquire _ n _ pc _ _ hpc =>
    have h' : (s.setPc n pc).QueueOk ys := by
      cases hn : s.pcs n <;> rw [hn] at hpc <;> cases hpc <;> exact h.goto (by rw [hn]; rfl) rfl
    exact ⟨ys, ⟨h'.awaiters, h'.departed⟩, fun k => .inl rfl⟩
  | @release _ n w _ _ _ hn =>
    have h' : (s.setPc n (.releasing w)).QueueOk ys := h.goto (by rw [hn]; rfl) rfl
    exact ⟨ys, ⟨h'.awaiters, h'.departed⟩, fun k => .inl rfl⟩
  | @pushAwaiter _ _ _ _ _ hn =>
    exact ⟨ys, h.pushAwaiter (by rw [hn]; rfl), fun k => .inl rfl⟩
  | @unwind _ n _ _ _ _ hn | @relock _ n _ _ _ _ hn =>
    have h' : (s.setPc n .outside).QueueOk ys := h.goto (by rw [hn]; rfl) rfl
    exact ⟨ys, ⟨h'.awaiters, h'.departed⟩, fun k => .inl rfl⟩
  | notifyOne hf hn =>
    refine ⟨_, (h.notifyOne hn).2.2, ListStep.update hf (.inl ⟨.inl hn, ?_⟩)⟩
    simp only [dequeues, hn]
  | notifyAll hf hn =>
    refine ⟨_, (h.notifyAll hn).2, ListStep.update hf (.inl ⟨.inr hn, ?_⟩)⟩
    simp only [dequeues, hn]
  | @done _ _ _ _ hn =>
    obtain ⟨hys, hw⟩ := h.returns hn
    exact ⟨ys, ⟨h.awaiters.goto hw.symm hys, h.departed⟩, fun k => .inl rfl⟩
  | @resume _ _ m w _ _ hf hn hm =>
    obtain ⟨zs, hys, hr, hw⟩ := h.takes hn
    refine ⟨_, ⟨h.awaiters.take hys hw hr, h.departed⟩, ListStep.update hf (.inr ?_)⟩
    exact ⟨m, w, hys, hn.resumed hm, setPc_pcs_self⟩
  | @post _ n w _ _ hn =>
    have h' : (s.setPc n (.posted w)).QueueOk ys := h.goto (by rw [hn]; rfl) rfl
    exact ⟨ys, ⟨h'.awaiters, h'.departed⟩, fun k => .inl rfl⟩
  | @inline _ _ _ _ _ hn | @throw _ _ _ _ _ hn =>
    exact ⟨ys, h.goto (by rw [hn]; rfl) rfl, fun k => .inl rfl⟩
  | @execute _ n w invoked _ hn =>
    have h' : (s.setPc n (if invoked then .relock w else .threw .brokenTask)).QueueOk ys :=
      h.goto (by rw [hn]; rfl) (by cases invoked <;> rfl)
    exact ⟨ys, ⟨h'.awaiters, h'.departed⟩, fun k => .inl rfl⟩
  | _ =>
    exact ⟨ys, ⟨h.awaiters, h.departed⟩, fun k => .inl rfl⟩

theorem queueOk_of_reachable (h : Reachable s) : ∃ ys, s.QueueOk ys := by
  induction h with
  | start hs =>
    cases hs
    refine ⟨fun _ => [], ⟨spells_empty, fun _ => rfl, ?_, ?_, ?_⟩, le_rfl⟩
    · simp [initial, CvPc.isWaiting, queue]
    · simp
    · simp
  | next _ _ hs ih =>
    obtain ⟨ys, ih⟩ := ih
    obtain ⟨ys', h, -⟩ := queueOk_step ih (taken_of_step hs)
    exact ⟨ys', h⟩

end CvSystem
end Concurrencpp
