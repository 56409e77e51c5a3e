import Concurrencpp.Interleaving

/-!
# The set of idle workers

`idle_worker_set`: one flag for each worker of a pool, and a counter that follows the flags with a
delay.  Every atomic operation is one step.

* `IdleWorkerSet.exchange`, `IdleWorkerSet.add`: the two operations of `set_idle` and `set_active`.
* `Search`: a call of `find_idle_worker` or `find_idle_workers` on its way.  The two run the same
  loop: the first asks for one worker, the second for `max_count`, and `IdleWorkerSet.searchStep` is
  the next step of either, with `try_acquire_flag` in it.  `IdleWorkerSet.searchStep_stepsLeft`: it
  ends.
-/

namespace Concurrencpp

/-- `idle_worker_set`; a flag is `true` while its status is `idle`. -/
structure IdleWorkerSet where
  approxSize : ℤ
  idleFlags : ℕ → Bool
  size : ℕ

/-- The next operation of a search. -/
inductive SearchPc
  | loadSize
  | loadFlag
  | exchange
  | decrement
  | done
  deriving DecidableEq, Repr

/-- A search: `caller_index` (`none` is `static_cast<size_t>(-1)`), the starting position, how many
workers it may take, the loop variable, and the workers it has taken. -/
structure Search where
  caller : Option ℕ
  start : ℕ
  limit : ℕ
  i : ℕ
  found : List ℕ
  pc : SearchPc
  deriving DecidableEq, Repr

namespace Search

def goto (q : Search) (pc : SearchPc) : Search := { q with pc := pc }

/-- The next iteration. -/
def advance (q : Search) : Search := { q with i := q.i + 1, pc := .loadFlag }

end Search

namespace IdleWorkerSet

/-- The set of a new pool: `set_idle` has been called for each worker. -/
def initial (size : ℕ) : IdleWorkerSet where
  approxSize := size
  idleFlags := fun i => decide (i < size)
  size := size

/-- `exchange` on the flag of a worker; what the flag was is read before. -/
def exchange (s : IdleWorkerSet) (index : ℕ) (idle : Bool) : IdleWorkerSet :=
  { s with idleFlags := Function.update s.idleFlags index idle }

/-- `fetch_add` and `fetch_sub` on `m_approx_size`. -/
def add (s : IdleWorkerSet) (d : ℤ) : IdleWorkerSet := { s with approxSize := s.approxSize + d }

/-- `find_idle_worker`. -/
def findIdleWorker (s : IdleWorkerSet) (caller : Option ℕ) (hashedId : ℕ) : Search where
  caller := caller
  start := caller.getD (hashedId % s.size)
  limit := 1
  i := 0
  found := []
  pc := .loadSize

/-- `find_idle_workers`. -/
def findIdleWorkers (caller maxCount : ℕ) : Search where
  caller := some caller
  start := caller
  limit := maxCount
  i := 0
  found := []
  pc := .loadSize

/-- The next step of a search. -/
def searchStep (s : IdleWorkerSet) (q : Search) : IdleWorkerSet × Search :=
  let index := (q.start + q.i) % s.size
  match q.pc with
  | .loadSize =>
      if s.approxSize ≤ 0 then (s, q.goto .done)
      else (s, { q.goto .loadFlag with limit := min s.approxSize.toNat q.limit })
  -- the head of the loop, and the load of `try_acquire_flag`
  | .loadFlag =>
      if q.i < s.size ∧ q.found.length < q.limit then
        if q.caller = some index then (s, q.advance)
        else if s.idleFlags index then (s, q.goto .exchange)
        else (s, q.advance)
      else (s, q.goto .done)
  | .exchange =>
      (s.exchange index false, if s.idleFlags index then q.goto .decrement else q.advance)
  | .decrement => (s.add (-1), { q.advance with found := q.found ++ [index] })
  | .done => (s, q)

/-! ### What a search finds -/

@[simp] theorem exchange_size (s : IdleWorkerSet) (index : ℕ) (idle : Bool) :
    (s.exchange index idle).size = s.size := rfl

@[simp] theorem add_size (s : IdleWorkerSet) (d : ℤ) : (s.add d).size = s.size := rfl

/-- A search has found workers of its set only, and holds a position while it tries a flag. -/
structure SearchOk (size : ℕ) (q : Search) : Prop where
  found_lt : ∀ index ∈ q.found, index < size
  pos : q.pc = .exchange ∨ q.pc = .decrement → 0 < size

variable {q : Search}

theorem SearchOk.start {size : ℕ} (hfound : q.found = []) (hpc : q.pc = .loadSize) :
    SearchOk size q where
  found_lt := by simp [hfound]
  pos := by simp [hpc]

theorem searchStep_size (s : IdleWorkerSet) (q : Search) : (s.searchStep q).1.size = s.size := by
  unfold searchStep
  cases q.pc with
  | loadSize | loadFlag => dsimp only; split_ifs <;> rfl
  | exchange | decrement | done => rfl

theorem SearchOk.searchStep {s : IdleWorkerSet} (h : SearchOk s.size q) :
    SearchOk s.size (s.searchStep q).2 := by
  unfold IdleWorkerSet.searchStep
  cases hpc : q.pc with
  | loadSize =>
    dsimp only
    split_ifs
    · exact ⟨h.found_lt, nofun⟩
    · exact ⟨h.found_lt, nofun⟩
  | loadFlag =>
    dsimp only
    split_ifs with hloop
    · exact ⟨h.found_lt, nofun⟩
    · exact ⟨h.found_lt, fun _ => Nat.zero_lt_of_lt hloop.1⟩
    · exact ⟨h.found_lt, nofun⟩
    · exact ⟨h.found_lt, nofun⟩
  | exchange =>
    dsimp only
    split_ifs
    · exact ⟨h.found_lt, fun _ => h.pos (.inl hpc)⟩
    · exact ⟨h.found_lt, nofun⟩
  | decrement =>
    refine ⟨fun index hindex => ?_, nofun⟩
    rcases List.mem_append.1 hindex with hindex | hindex
    · exact h.found_lt index hindex
    · rw [List.mem_singleton.1 hindex]
      exact Nat.mod_lt _ (h.pos (.inr hpc))
  | done => exact h

/-- A search takes at most `max` workers. -/
structure SearchBound (max : ℕ) (q : Search) : Prop where
  start : q.pc = .loadSize → q.found = []
  found_le : q.found.length ≤ q.limit
  room : q.pc = .exchange ∨ q.pc = .decrement → q.found.length < q.limit
  limit_le : q.limit ≤ max

theorem SearchBound.begin (hfound : q.found = []) (hpc : q.pc = .loadSize) :
    SearchBound q.limit q where
  start := fun _ => hfound
  found_le := by simp [hfound]
  room := by simp [hpc]
  limit_le := le_rfl

/-- The search goes to the head of its loop, or ends. -/
theorem SearchBound.goes {q q' : Search} {max : ℕ} (h : SearchBound max q)
    (hpc : q'.pc = .loadFlag ∨ q'.pc = .done) (hfound : q'.found = q.found)
    (hlimit : q'.limit = q.limit) : SearchBound max q' where
  start := fun hstart => by
    rw [hstart] at hpc
    rcases hpc with hpc | hpc <;> cases hpc
  found_le := by
    rw [hfound, hlimit]
    exact h.found_le
  room := fun hroom => by
    rcases hpc with hpc | hpc <;> rw [hpc] at hroom <;> rcases hroom with hroom | hroom <;>
      cases hroom
  limit_le := hlimit.trans_le h.limit_le

theorem SearchBound.searchStep {s : IdleWorkerSet} {max : ℕ} (h : SearchBound max q) :
    SearchBound max (s.searchStep q).2 := by
  unfold IdleWorkerSet.searchStep
  cases hpc : q.pc with
  | loadSize =>
    dsimp only
    split_ifs
    · exact h.goes (.inr rfl) rfl rfl
    · have hnone : SearchBound max { q with limit := min s.approxSize.toNat q.limit } :=
        ⟨h.start, by simp [h.start hpc], by simp [hpc], (min_le_right _ _).trans h.limit_le⟩
      exact hnone.goes (.inl rfl) rfl rfl
  | loadFlag =>
    dsimp only
    split_ifs with hloop
    · exact h.goes (.inl rfl) rfl rfl
    · exact ⟨fun hstart => (by cases hstart), h.found_le, fun _ => hloop.2, h.limit_le⟩
    · exact h.goes (.inl rfl) rfl rfl
    · exact h.goes (.inr rfl) rfl rfl
  | exchange =>
    dsimp only
    split_ifs
    · exact ⟨fun hstart => (by cases hstart), h.found_le, fun _ => h.room (.inl hpc), h.limit_le⟩
    · exact h.goes (.inl rfl) rfl rfl
  | decrement =>
    have hroom := h.room (.inr hpc)
    have hmore : SearchBound max { q.goto .loadFlag with
        found := q.found ++ [(q.start + q.i) % s.size] } :=
      ⟨fun hstart => (by cases hstart), by simpa [Search.goto] using hroom, by simp [Search.goto],
        h.limit_le⟩
    exact hmore.goes (.inl rfl) rfl rfl
  | done => exact h

/-! ### A search comes to its end -/

/-- How many steps a search has left at most. -/
def stepsLeft (size : ℕ) (q : Search) : ℕ :=
  match q.pc with
  | .loadSize => 3 * (size - q.i) + 2
  | .loadFlag => 3 * (size - q.i) + 1
  | .exchange => 3 * (size - (q.i + 1)) + 3
  | .decrement => 3 * (size - (q.i + 1)) + 2
  | .done => 0

theorem searchStep_stepsLeft (s : IdleWorkerSet) (hq : q.pc ≠ .done) :
    stepsLeft s.size (s.searchStep q).2 < stepsLeft s.size q := by
  have hadvance : stepsLeft s.size q.advance = 3 * (s.size - (q.i + 1)) + 1 := rfl
  unfold searchStep
  cases hpc : q.pc with
  | loadSize =>
    dsimp only
    split_ifs <;> simp [stepsLeft, hpc, Search.goto]
  | loadFlag =>
    dsimp only
    have hbefore : stepsLeft s.size q = 3 * (s.size - q.i) + 1 := by simp [stepsLeft, hpc]
    have hexchange : stepsLeft s.size (q.goto .exchange) = 3 * (s.size - (q.i + 1)) + 3 := rfl
    split_ifs with hloop <;> dsimp only
    · omega
    · omega
    · omega
    · simp [stepsLeft, hpc, Search.goto]
  | exchange =>
    dsimp only
    split_ifs <;> simp [stepsLeft, hpc, Search.goto, Search.advance]
  | decrement => simp [stepsLeft, hpc, Search.advance]
  | done => exact absurd hpc hq

end IdleWorkerSet
end Concurrencpp
