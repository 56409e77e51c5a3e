import Concurrencpp.Executors.PoolRange

/-!
# Which workers `enqueue` selects

`enqueue(task)`, `enqueue(span)` and `find_idle_worker` choose a worker in four ways: by the hashed
id of the thread, by its index and the loop variable, by the wrapping cursor, and by the number of
the range.  All of them divide by the size of the pool, which the constructor takes as it is.

* `Access`: a division, or an element of `m_workers` or `m_idle_flags`; `ThreadPools.accesses` are
  those of a step.
* `accesses_in_range_iff`: they are in range, in every run, exactly for a pool with workers;
  `empty_pool_divides_by_zero` is a run with a pool that has none.
-/

namespace Concurrencpp

inductive Access
  | divides (divisor : ℕ)
  | worker (index : ℕ)
  | flag (index : ℕ)
  deriving DecidableEq, Repr

/-- The divisor is not zero, and the element exists in a pool of this size. -/
def Access.InRange (size : ℕ) : Access → Prop
  | .divides divisor => divisor ≠ 0
  | .worker index | .flag index => index < size

/-- The next step of `find_idle_worker`. -/
def IdleWorkerSet.searchAccesses (s : IdleWorkerSet) (q : Search) : List Access :=
  let index := (q.start + q.i) % s.size
  match q.pc with
  -- `starting_pos`
  | .loadSize => if s.approxSize ≤ 0 ∨ q.caller ≠ none then [] else [.divides s.size]
  | .loadFlag =>
      if q.i < s.size ∧ q.found.length < q.limit then
        if q.caller = some index then [.divides s.size] else [.divides s.size, .flag index]
      else []
  | .exchange => [.flag index]
  | .decrement | .done => []

namespace ThreadPools

variable {P τ : Type}

/-- The next step of a call, with the pool that is called. -/
def callAccesses (s : ThreadPools P τ) : Call P τ → List (P × Access)
  | .find p _ _ q => ((s.pools p).idleWorkers.searchAccesses q).map (Prod.mk p)
  | .nextWorker p _ _ => [(p, .divides (s.pools p).size)]
  | .enqueueForeign p index _ _ => [(p, .worker index)]
  | .outside | .enqueueLocal _ _ | .enqueued _ _ _ _ | .shutdown _ _ _ => []

/-- What a step of `enqueue` divides by and refers to. -/
def accesses (s : ThreadPools P τ) : PoolMove P τ → List (P × Access)
  | .enqueueSpan t p tasks =>
      if t.thisWorker.isNone ∧ (s.pools p).size ≤ tasks.length then [(p, .divides (s.pools p).size)]
      else []
  | .call t => s.callAccesses (s.calls t)
  | .worker _ _ | .timeout _ _ | .throw _ _ | .enqueue _ _ _ | .shutdown _ _ | .joinThrows _ => []

/-- New pools of these sizes, with any values of `m_round_robin_cursor`. -/
def StartsAt (size : P → ℕ) (s : ThreadPools P τ) : Prop :=
  ∃ cursor : P → ℕ, s =
    { pools := fun p => { ThreadPool.initial (size p) with roundRobinCursor := cursor p % 2 ^ 64 }
      calls := fun _ => .outside }

variable {s : ThreadPools P τ} {size : P → ℕ} {p : P} {a : Access}

theorem StartsAt.inRange (h : StartsAt size s) : InRange size s := by
  obtain ⟨cursor, rfl⟩ := h
  exact ⟨fun _ => rfl, fun p => (ThreadPool.inRange_initial (size p)).setCursor _, fun _ => trivial⟩

theorem searchAccesses_in_range {set : IdleWorkerSet} {q : Search} (hpos : set.size ≠ 0)
    (ha : a ∈ set.searchAccesses q) : a.InRange set.size := by
  have hindex : (q.start + q.i) % set.size < set.size := Nat.mod_lt _ (Nat.pos_of_ne_zero hpos)
  unfold IdleWorkerSet.searchAccesses at ha
  dsimp only at ha
  split at ha
  · split_ifs at ha
    · cases ha
    · rw [List.mem_singleton.1 ha]
      exact hpos
  · split_ifs at ha
    · rw [List.mem_singleton.1 ha]
      exact hpos
    · rcases List.mem_pair.1 ha with rfl | rfl
      · exact hpos
      · exact hindex
    · cases ha
  · rw [List.mem_singleton.1 ha]
    exact hindex
  · cases ha
  · cases ha

/-- The steps on a pool with workers. -/
theorem InRange.accesses (h : InRange size s) (hpos : size p ≠ 0) {m : PoolMove P τ}
    (ha : (p, a) ∈ s.accesses m) : a.InRange (size p) := by
  have hsize : (s.pools p).idleWorkers.size = size p := h.size_eq p
  cases m with
  | enqueueSpan =>
    simp only [ThreadPools.accesses] at ha
    split_ifs at ha
    · cases List.mem_singleton.1 ha
      exact hsize.trans_ne hpos
    · cases ha
  | call t =>
    have hcall := h.calls t
    have ha : (p, a) ∈ s.callAccesses (s.calls t) := ha
    cases hc : s.calls t with
    | find =>
      rw [hc] at ha
      obtain ⟨b, hb, heq⟩ := List.mem_map.1 ha
      cases heq
      rw [← hsize]
      exact searchAccesses_in_range (hsize.trans_ne hpos) hb
    | nextWorker =>
      rw [hc] at ha
      cases List.mem_singleton.1 ha
      exact hsize.trans_ne hpos
    | enqueueForeign =>
      rw [hc] at ha hcall
      cases List.mem_singleton.1 ha
      exact hcall
    | _ =>
      rw [hc] at ha
      cases ha
  | _ => cases ha

variable [DecidableEq P]

/-- **Selection is in range exactly in pools with workers.**  The divisions and the elements of a
step of `enqueue(task)`, `enqueue(span)` or `find_idle_worker` on the pool `p`, in every state that
any interleaving reaches with any values of the cursors, by any thread and for any span, are in
range if and only if `p` has a worker. -/
theorem accesses_in_range_iff (size : P → ℕ) (p : P) :
    (∀ s : ThreadPools P τ, Interleaving.Reachable step (StartsAt size) s →
      ∀ m a, (p, a) ∈ s.accesses m → a.InRange (size p)) ↔ size p ≠ 0 := by
  constructor
  · intro h hzero
    have hstart : StartsAt size (initial size : ThreadPools P τ) := ⟨fun _ => 0, rfl⟩
    -- an empty span is not shorter than an empty pool
    have ha : (p, .divides 0) ∈ (initial size : ThreadPools P τ).accesses
        (.enqueueSpan (.foreign 0 0) p []) := by
      have hsize : ((initial size : ThreadPools P τ).pools p).size = 0 := hzero
      simp [accesses, Thread.thisWorker, hsize]
    exact h _ (.start hstart) _ _ ha rfl
  · intro hpos s hs m a ha
    have hrange : InRange size s :=
      hs.invariant (fun _ h => h.inRange) fun _ _ _ h _ hstep => h.step hstep
    exact hrange.accesses hpos ha

/-- A thread enqueues a task in a pool without workers: `find_idle_worker` finds nobody, and the
cursor is divided by zero.  For a span, this comes at once. -/
theorem empty_pool_divides_by_zero :
    ∃ s : ThreadPools Unit ℕ, Reachable s ∧
      s.accesses (.call (.foreign 0 0)) = [((), .divides 0)] ∧
      s.accesses (.enqueueSpan (.foreign 1 0) () [some 7]) = [((), .divides 0)] := by
  let schedule : List (PoolMove Unit ℕ) :=
    [.enqueue (.foreign 0 0) () (some 7), .call (.foreign 0 0), .call (.foreign 0 0)]
  exact ⟨_, .lastState ⟨fun _ => 0, rfl⟩ schedule, by decide +kernel⟩

end ThreadPools
end Concurrencpp
