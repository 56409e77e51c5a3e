import Concurrencpp.Executors.IdleWorkerSet

/-!
# The counter of idle workers

Any number of calls on one `idle_worker_set`, step by step in any order.  A flag and `m_approx_size`
are changed by two atomic operations, so that the counter runs behind the flags.

* `IdleCall`: a call of `set_idle`, `set_active`, `try_acquire_flag`, `find_idle_worker` or
  `find_idle_workers`; `IdleCall.step` is its next atomic operation.
* `IdleSystem`: the set and all calls so far.  `wins` records which call has turned which flag from
  idle to active.
* `CallStep`: what the next operation of a call does to the flags, the counter and the record.
* `FindOk`: what a search has found, on its way.
* `idle_accounting_exact`: the counter is exact up to the operations in flight, and a flag is won by
  one call.
-/

namespace Concurrencpp

/-! ### Calls -/

/-- The next operation on a flag.  `count` is behind an exchange that has turned it. -/
inductive FlagPc
  | load
  | exchange
  | count
  | done (turned : Bool)
  deriving DecidableEq, Repr

/-- A call that turns the flag `index` to idle or to active, or a search for at most `maxCount`
workers. -/
inductive IdleCall
  | flag (idle : Bool) (index : ℕ) (pc : FlagPc)
  | find (maxCount : ℕ) (q : Search)
  deriving DecidableEq, Repr

namespace IdleCall

def setIdle (index : ℕ) : IdleCall := .flag true index .exchange

def setActive (index : ℕ) : IdleCall := .flag false index .exchange

/-- `try_acquire_flag` looks at the flag first; what it returns is whether it has turned it. -/
def tryAcquireFlag (index : ℕ) : IdleCall := .flag false index .load

/-- The next operation. -/
def step (s : IdleWorkerSet) : IdleCall → IdleWorkerSet × IdleCall
  | .flag idle index .load =>
      (s, .flag idle index (if s.idleFlags index then .exchange else .done false))
  | .flag idle index .exchange =>
      (s.exchange index idle,
        .flag idle index (if s.idleFlags index = idle then .done false else .count))
  | .flag idle index .count => (s.add (if idle then 1 else -1), .flag idle index (.done true))
  | .flag idle index (.done turned) => (s, .flag idle index (.done turned))
  | .find maxCount q => ((s.searchStep q).1, .find maxCount (s.searchStep q).2)

/-- A `set_idle` that has turned its flag and has not added yet. -/
@[simp]
def adding : IdleCall → Bool
  | .flag true _ .count => true
  | _ => false

/-- A call that has turned a flag to active and has not subtracted yet. -/
@[simp]
def subtracting : IdleCall → Bool
  | .flag false _ .count => true
  | .find _ q => decide (q.pc = .decrement)
  | _ => false

/-- The flag that the next operation turns from idle to active. -/
@[simp]
def wins (s : IdleWorkerSet) : IdleCall → Option ℕ
  | .flag false index .exchange => if s.idleFlags index then some index else none
  | .find _ q =>
      if q.pc = .exchange ∧ s.idleFlags ((q.start + q.i) % s.size) = true then
        some ((q.start + q.i) % s.size)
      else none
  | _ => none

/-- The flags that the call has turned from idle to active, in a set of this size. -/
@[simp]
def acquired (size : ℕ) : IdleCall → List ℕ
  | .flag false index .count | .flag false index (.done true) => [index]
  | .find _ q => q.found ++ if q.pc = .decrement then [(q.start + q.i) % size] else []
  | _ => []

end IdleCall

/-- A set, the calls on it, and the flags that each call has turned from idle to active. -/
structure IdleSystem where
  set : IdleWorkerSet
  calls : List IdleCall
  wins : List (ℕ × ℕ)

inductive IdleMove
  | setIdle (index : ℕ)
  | setActive (index : ℕ)
  | tryAcquireFlag (index : ℕ)
  | findIdleWorker (caller : Option ℕ) (hashedId : ℕ)
  | findIdleWorkers (caller maxCount : ℕ)
  | step (c : ℕ)
  deriving DecidableEq, Repr

namespace IdleSystem

def start (s : IdleSystem) (call : IdleCall) : IdleSystem := { s with calls := s.calls ++ [call] }

/-- The next operation of the call `c`. -/
def next (s : IdleSystem) (c : ℕ) (call : IdleCall) : IdleSystem where
  set := (call.step s.set).1
  calls := s.calls.set c (call.step s.set).2
  wins := s.wins ++ (call.wins s.set).toList.map (Prod.mk c)

/-- A call begins, on a worker of the set, or the call `c` goes on. -/
def step (s : IdleSystem) : IdleMove → Option IdleSystem
  | .setIdle index => if index < s.set.size then some (s.start (.setIdle index)) else none
  | .setActive index => if index < s.set.size then some (s.start (.setActive index)) else none
  | .tryAcquireFlag index =>
      if index < s.set.size then some (s.start (.tryAcquireFlag index)) else none
  | .findIdleWorker caller hashedId =>
      some (s.start (.find 1 (s.set.findIdleWorker caller hashedId)))
  | .findIdleWorkers caller maxCount =>
      some (s.start (.find maxCount (IdleWorkerSet.findIdleWorkers caller maxCount)))
  | .step c => s.calls[c]?.map (s.next c)

/-- A new set, of any size. -/
def IsInitial (s : IdleSystem) : Prop := ∃ size, s = ⟨⟨0, fun _ => false, size⟩, [], []⟩

def Reachable : IdleSystem → Prop := Interleaving.Reachable step IsInitial

end IdleSystem

/-! ### One operation -/

namespace IdleWorkerSet

variable {s : IdleWorkerSet} {i : ℕ}

/-- How many flags are idle. -/
def idleCount (s : IdleWorkerSet) : ℕ := ∑ i ∈ Finset.range s.size, (s.idleFlags i).toNat

theorem idleCount_exchange (hi : i < s.size) (idle : Bool) :
    (s.exchange i idle).idleCount + (s.idleFlags i).toNat = s.idleCount + idle.toNat := by
  have hmem : i ∈ Finset.range s.size := Finset.mem_range.2 hi
  have hupdate : (fun j => ((s.exchange i idle).idleFlags j).toNat) =
      Function.update (fun j => (s.idleFlags j).toNat) i idle.toNat :=
    Function.comp_update Bool.toNat s.idleFlags i idle
  have hrest := Finset.sum_update_of_mem hmem (fun j => (s.idleFlags j).toNat) idle.toNat
  have hall := Finset.add_sum_erase (Finset.range s.size) (fun j => (s.idleFlags j).toNat) hmem
  unfold idleCount
  rw [hupdate, exchange_size, hrest, Finset.sdiff_singleton_eq_erase]
  omega

theorem exchange_turns_iff (idle : Bool) (j : ℕ) :
    (s.idleFlags j = true ∧ (s.exchange i idle).idleFlags j = false) ↔
      j = i ∧ s.idleFlags i = true ∧ idle = false := by
  by_cases hj : j = i
  · subst hj
    simp [exchange]
  · simp [exchange, hj]

end IdleWorkerSet

/-- What the next operation of a call does. -/
structure CallStep (s s' : IdleWorkerSet) (call call' : IdleCall) : Prop where
  size : s'.size = s.size
  /-- The counter follows the flags and the operations in flight. -/
  count : s'.approxSize - s'.idleCount + call'.adding.toNat - call'.subtracting.toNat =
    s.approxSize - s.idleCount + call.adding.toNat - call.subtracting.toNat
  acquired : call'.acquired s.size = call.acquired s.size ++ (call.wins s).toList
  turns : ∀ i, (s.idleFlags i = true ∧ s'.idleFlags i = false) ↔ call.wins s = some i

section CallStep

variable {s : IdleWorkerSet} {call call' : IdleCall} {i : ℕ}

/-- A load, or no operation at all. -/
theorem CallStep.read (hadd : call'.adding = call.adding)
    (hsub : call'.subtracting = call.subtracting)
    (hacquired : call'.acquired s.size = call.acquired s.size) (hwins : call.wins s = none) :
    CallStep s s call call' where
  size := rfl
  count := by rw [hadd, hsub]
  acquired := by rw [hacquired, hwins, Option.toList_none, List.append_nil]
  turns := by
    intro i
    rw [hwins]
    refine iff_of_false ?_ fun h => (by cases h)
    rintro ⟨hidle, hactive⟩
    cases hidle.symm.trans hactive

/-- A `fetch_add` or `fetch_sub`. -/
theorem CallStep.add {d : ℤ} (hd : d + call'.adding.toNat - call'.subtracting.toNat =
      call.adding.toNat - call.subtracting.toNat)
    (hacquired : call'.acquired s.size = call.acquired s.size) (hwins : call.wins s = none) :
    CallStep s (s.add d) call call' := by
  have hread : CallStep s s call call := .read rfl rfl rfl hwins
  refine ⟨rfl, ?_, hread.acquired ▸ hacquired, hread.turns⟩
  have hcount : (s.add d).idleCount = s.idleCount := rfl
  have hsize : (s.add d).approxSize = s.approxSize + d := rfl
  rw [hcount, hsize]
  omega

/-- An exchange. -/
theorem CallStep.exchange {idle : Bool} (hi : i < s.size)
    (hpending : call.adding = false ∧ call.subtracting = false)
    (hwins : call.wins s = if s.idleFlags i = true ∧ idle = false then some i else none)
    (hadd : call'.adding = (!s.idleFlags i && idle))
    (hsub : call'.subtracting = (s.idleFlags i && !idle))
    (hacquired : call'.acquired s.size = call.acquired s.size ++ (call.wins s).toList) :
    CallStep s (s.exchange i idle) call call' where
  size := rfl
  count := by
    have hcount := IdleWorkerSet.idleCount_exchange hi idle
    have hsize : (s.exchange i idle).approxSize = s.approxSize := rfl
    rw [hadd, hsub, hpending.1, hpending.2, hsize]
    cases hflag : s.idleFlags i <;> cases idle <;> simp [hflag] at hcount ⊢ <;> omega
  acquired := hacquired
  turns := by
    intro j
    rw [IdleWorkerSet.exchange_turns_iff, hwins]
    by_cases hturn : s.idleFlags i = true ∧ idle = false
    · simp only [hturn, and_self, and_true, if_true, Option.some.injEq]
      exact eq_comm
    · rw [if_neg hturn]
      exact iff_of_false (fun h => hturn h.2) fun h => (by cases h)

theorem callStep_flag {idle : Bool} {pc : FlagPc} (hi : i < s.size) :
    CallStep s ((IdleCall.flag idle i pc).step s).1 (.flag idle i pc)
      ((IdleCall.flag idle i pc).step s).2 := by
  cases pc with
  | load =>
    refine .read ?_ ?_ ?_ ?_ <;> cases idle <;> cases hflag : s.idleFlags i <;>
      simp [IdleCall.step, hflag]
  | exchange =>
    refine .exchange hi ?_ ?_ ?_ ?_ ?_ <;> cases idle <;> cases hflag : s.idleFlags i <;>
      simp [IdleCall.step, hflag]
  | count =>
    refine .add ?_ ?_ ?_ <;> cases idle <;>
      simp [IdleCall.step]
  | done =>
    refine .read rfl rfl rfl ?_
    cases idle <;> rfl

end CallStep

/-! ### Searches -/

/-- What a search has found: workers at different positions behind its start, never the caller.
While it tries a flag, it is at a position inside the loop. -/
structure FindOk (size maxCount : ℕ) (q : Search) : Prop where
  range : IdleWorkerSet.SearchOk size q
  bound : IdleWorkerSet.SearchBound maxCount q
  before : ∀ index ∈ q.found, ∃ j < q.i, index = (q.start + j) % size
  nodup : q.found.Nodup
  other : ∀ index ∈ q.found, q.caller ≠ some index
  trying : q.pc = .exchange ∨ q.pc = .decrement →
    q.i < size ∧ q.caller ≠ some ((q.start + q.i) % size)

section FindOk

variable {s : IdleWorkerSet} {q q' : Search} {maxCount : ℕ}

theorem FindOk.begin {size : ℕ} (q : Search) (hfound : q.found = []) (hpc : q.pc = .loadSize) :
    FindOk size q.limit q where
  range := .start hfound hpc
  bound := .begin hfound hpc
  before := by simp [hfound]
  nodup := by simp [hfound]
  other := by simp [hfound]
  trying := by simp [hpc]

/-- The search goes to the head of its loop, or ends. -/
theorem FindOk.goes {size : ℕ} (h : FindOk size maxCount q)
    (hrange : IdleWorkerSet.SearchOk size q') (hbound : IdleWorkerSet.SearchBound maxCount q')
    (hpc : q'.pc = .loadFlag ∨ q'.pc = .done) (hfound : q'.found = q.found)
    (hstart : q'.start = q.start) (hcaller : q'.caller = q.caller) (hi : q.i ≤ q'.i) :
    FindOk size maxCount q' where
  range := hrange
  bound := hbound
  before := by
    intro index hindex
    rw [hfound] at hindex
    obtain ⟨j, hj, heq⟩ := h.before index hindex
    exact ⟨j, hj.trans_le hi, hstart ▸ heq⟩
  nodup := hfound ▸ h.nodup
  other := by
    rw [hfound, hcaller]
    exact h.other
  trying := by
    intro htrying
    rcases hpc with hpc | hpc <;> rw [hpc] at htrying <;> rcases htrying with htrying | htrying <;>
      cases htrying

/-- Two positions of the loop are different workers. -/
theorem position_injective {a size i j : ℕ} (hi : i < size) (hj : j < size)
    (h : (a + i) % size = (a + j) % size) : i = j := by
  have hmod : i % size = j % size := Nat.ModEq.add_left_cancel' a h
  rwa [Nat.mod_eq_of_lt hi, Nat.mod_eq_of_lt hj] at hmod

theorem FindOk.searchStep (h : FindOk s.size maxCount q) :
    FindOk s.size maxCount (s.searchStep q).2 := by
  have hrange := h.range.searchStep
  have hbound := h.bound.searchStep (s := s)
  unfold IdleWorkerSet.searchStep at hrange hbound ⊢
  cases hpc : q.pc with
  | loadSize =>
    simp only [hpc] at hrange hbound ⊢
    split_ifs at hrange hbound ⊢
    · exact h.goes hrange hbound (.inr rfl) rfl rfl rfl le_rfl
    · exact h.goes hrange hbound (.inl rfl) rfl rfl rfl le_rfl
  | loadFlag =>
    simp only [hpc] at hrange hbound ⊢
    split_ifs at hrange hbound ⊢ with hloop hself hidle
    · exact h.goes hrange hbound (.inl rfl) rfl rfl rfl (Nat.le_succ _)
    · exact ⟨hrange, hbound, h.before, h.nodup, h.other, fun _ => ⟨hloop.1, hself⟩⟩
    · exact h.goes hrange hbound (.inl rfl) rfl rfl rfl (Nat.le_succ _)
    · exact h.goes hrange hbound (.inr rfl) rfl rfl rfl le_rfl
  | exchange =>
    simp only [hpc] at hrange hbound ⊢
    split_ifs at hrange hbound ⊢
    · exact ⟨hrange, hbound, h.before, h.nodup, h.other, fun _ => h.trying (.inl hpc)⟩
    · exact h.goes hrange hbound (.inl rfl) rfl rfl rfl (Nat.le_succ _)
  | decrement =>
    simp only [hpc] at hrange hbound ⊢
    obtain ⟨hi, hself⟩ := h.trying (.inr hpc)
    have hnew : (q.start + q.i) % s.size ∉ q.found := by
      intro hmem
      obtain ⟨j, hj, heq⟩ := h.before _ hmem
      exact hj.ne' (position_injective hi (hj.trans hi) heq)
    refine ⟨hrange, hbound, fun index hindex => ?_, ?_, fun index hindex => ?_, ?_⟩
    · rcases List.mem_append.1 hindex with hindex | hindex
      · obtain ⟨j, hj, heq⟩ := h.before index hindex
        exact ⟨j, hj.trans (Nat.lt_succ_self _), heq⟩
      · exact ⟨q.i, Nat.lt_succ_self _, List.mem_singleton.1 hindex⟩
    · exact List.nodup_append.2 ⟨h.nodup, List.nodup_singleton _, fun x hx y hy heq =>
        hnew (List.mem_singleton.1 hy ▸ heq ▸ hx)⟩
    · rcases List.mem_append.1 hindex with hindex | hindex
      · exact h.other index hindex
      · rw [List.mem_singleton.1 hindex]
        exact hself
    · rintro (htrying | htrying) <;> cases htrying
  | done => exact h

theorem callStep_find (h : FindOk s.size maxCount q) :
    CallStep s (s.searchStep q).1 (.find maxCount q) (.find maxCount (s.searchStep q).2) := by
  unfold IdleWorkerSet.searchStep
  cases hpc : q.pc with
  | loadSize | loadFlag =>
    dsimp only
    split_ifs <;> refine .read ?_ ?_ ?_ ?_ <;>
      simp [hpc, Search.goto, Search.advance]
  | exchange =>
    have hlt : (q.start + q.i) % s.size < s.size := Nat.mod_lt _ (h.range.pos (.inl hpc))
    refine .exchange hlt ?_ ?_ ?_ ?_ ?_ <;> cases hflag : s.idleFlags ((q.start + q.i) % s.size) <;>
      simp [hpc, hflag, Search.goto, Search.advance]
  | decrement =>
    refine .add ?_ ?_ ?_ <;> simp [hpc, Search.advance]
  | done => exact .read rfl rfl rfl (by simp [hpc])

end FindOk

/-! ### All calls -/

theorem countP_set_add {β : Type} {p : β → Bool} {l : List β} {c : ℕ} {x y : β}
    (hx : l[c]? = some x) : (l.set c y).countP p + (p x).toNat = l.countP p + (p y).toNat := by
  induction l generalizing c with
  | nil => cases hx
  | cons _ _ ih =>
    cases c with
    | zero =>
      cases hx
      rw [List.set_cons_zero, List.countP_cons, List.countP_cons]
      cases p x <;> cases p y <;> simp
    | succ =>
      rw [List.set_cons_succ, List.countP_cons, List.countP_cons]
      have hrest := ih hx
      omega

/-- The call is over. -/
def IdleCall.isDone : IdleCall → Bool
  | .flag _ _ (.done _) => true
  | .flag _ _ _ => false
  | .find _ q => decide (q.pc = .done)

theorem IdleCall.not_pending {call : IdleCall} (h : call.isDone = true) :
    call.adding = false ∧ call.subtracting = false := by
  cases call with
  | flag idle _ pc =>
    cases pc with
    | done => cases idle <;> exact ⟨rfl, rfl⟩
    | _ => cases h
  | find _ q =>
    have hpc : q.pc = .done := of_decide_eq_true h
    exact ⟨rfl, by simp [hpc]⟩

namespace IdleSystem

variable {s t : IdleSystem} {call : IdleCall}

/-- A call is on a worker of the set. -/
def CallOk (size : ℕ) : IdleCall → Prop
  | .flag _ index _ => index < size
  | .find maxCount q => FindOk size maxCount q

theorem CallOk.step {set : IdleWorkerSet} (h : CallOk set.size call) :
    CallStep set (call.step set).1 call (call.step set).2 ∧ CallOk set.size (call.step set).2 := by
  cases call with
  | flag _ _ pc =>
    refine ⟨callStep_flag h, ?_⟩
    cases pc <;> exact h
  | find => exact ⟨callStep_find h, h.searchStep⟩

structure Ok (s : IdleSystem) : Prop where
  calls : ∀ call ∈ s.calls, CallOk s.set.size call
  count : s.set.approxSize =
    s.set.idleCount - s.calls.countP IdleCall.adding + s.calls.countP IdleCall.subtracting
  wins : ∀ c call, s.calls[c]? = some call →
    (s.wins.filter fun w => w.1 = c).map Prod.snd = call.acquired s.set.size
  fresh : ∀ w ∈ s.wins, w.1 < s.calls.length

theorem Ok.start (h : s.Ok) (hcall : CallOk s.set.size call)
    (hpending : call.adding = false ∧ call.subtracting = false)
    (hacquired : call.acquired s.set.size = []) : (s.start call).Ok where
  calls := by
    intro c hc
    rcases List.mem_append.1 hc with hc | hc
    · exact h.calls c hc
    · rw [List.mem_singleton.1 hc]
      exact hcall
  count := by
    have hcalls : (s.start call).calls = s.calls ++ [call] := rfl
    rw [hcalls, List.countP_append, List.countP_append, List.countP_singleton,
      List.countP_singleton, hpending.1, hpending.2]
    exact (by simpa using h.count : s.set.approxSize = _)
  wins := by
    intro c x hx
    have hx : (s.calls ++ [call])[c]? = some x := hx
    by_cases hc : c < s.calls.length
    · rw [List.getElem?_append_left hc] at hx
      exact h.wins c x hx
    · -- the new call has won nothing
      rw [List.getElem?_append_right (not_lt.1 hc)] at hx
      have hmem : x ∈ [call] := List.mem_of_getElem? hx
      have hnone : (s.wins.filter fun w => w.1 = c) = [] := by
        refine List.filter_eq_nil_iff.2 fun w hw hwc => hc ?_
        rw [← of_decide_eq_true hwc]
        exact h.fresh w hw
      rw [List.mem_singleton.1 hmem]
      exact (congrArg (List.map Prod.snd) hnone).trans hacquired.symm
  fresh := by
    intro w hw
    have hlength : (s.start call).calls.length = s.calls.length + 1 := List.length_append ..
    rw [hlength]
    exact (h.fresh w hw).trans (Nat.lt_succ_self _)

theorem Ok.next {c : ℕ} (h : s.Ok) (hc : s.calls[c]? = some call) : (s.next c call).Ok := by
  obtain ⟨hstep, hcall⟩ := (h.calls call (List.mem_of_getElem? hc)).step
  have hlt : c < s.calls.length := (List.getElem?_eq_some_iff.1 hc).1
  constructor
  case calls =>
    intro x hx
    change CallOk (call.step s.set).1.size x
    rw [hstep.size]
    rcases List.mem_or_eq_of_mem_set hx with hx | rfl
    · exact h.calls x hx
    · exact hcall
  case count =>
    have hadd := countP_set_add (p := IdleCall.adding) (y := (call.step s.set).2) hc
    have hsub := countP_set_add (p := IdleCall.subtracting) (y := (call.step s.set).2) hc
    have hcount := hstep.count
    have hold := h.count
    change (call.step s.set).1.approxSize = (call.step s.set).1.idleCount -
      (s.calls.set c (call.step s.set).2).countP _ + (s.calls.set c (call.step s.set).2).countP _
    omega
  case wins =>
    intro d x hx
    have hx : (s.calls.set c (call.step s.set).2)[d]? = some x := hx
    change ((s.wins ++ _).filter _).map _ = x.acquired (call.step s.set).1.size
    rw [List.filter_append, List.map_append, hstep.size]
    by_cases hd : d = c
    · subst hd
      rw [List.getElem?_set_self hlt] at hx
      cases hx
      rw [h.wins d call hc, hstep.acquired]
      cases call.wins s.set <;> simp
    · rw [List.getElem?_set_ne (Ne.symm hd)] at hx
      rw [h.wins d x hx]
      cases call.wins s.set <;> simp [Ne.symm hd]
  case fresh =>
    intro w hw
    have hlength : (s.next c call).calls.length = s.calls.length := List.length_set ..
    rw [hlength]
    rcases List.mem_append.1 hw with hw | hw
    · exact h.fresh w hw
    · obtain ⟨i, -, rfl⟩ := List.mem_map.1 hw
      exact hlt

theorem Ok.step {m : IdleMove} (h : s.Ok) (hs : s.step m = some t) : t.Ok := by
  cases m with
  | setIdle | setActive | tryAcquireFlag =>
    simp only [IdleSystem.step] at hs
    split_ifs at hs with hi
    cases hs
    exact h.start hi ⟨rfl, rfl⟩ rfl
  | findIdleWorker caller hashedId =>
    cases hs
    exact h.start (FindOk.begin (s.set.findIdleWorker caller hashedId) rfl rfl) ⟨rfl, rfl⟩ rfl
  | findIdleWorkers caller maxCount =>
    cases hs
    exact h.start (FindOk.begin (IdleWorkerSet.findIdleWorkers caller maxCount) rfl rfl)
      ⟨rfl, rfl⟩ rfl
  | step =>
    obtain ⟨call, hc, rfl⟩ := Option.map_eq_some_iff.1 hs
    exact h.next hc

theorem ok_of_reachable (h : s.Reachable) : s.Ok := by
  refine h.invariant ?_ fun _ _ _ hok _ hs => hok.step hs
  rintro s ⟨size, rfl⟩
  refine ⟨fun call hc => (by cases hc), ?_, fun c call hc => (by cases hc),
    fun w hw => (by cases hw)⟩
  simp [IdleWorkerSet.idleCount]

/-- A flag turns from idle to active in the step of the call that wins it. -/
theorem Ok.turns_iff {m : IdleMove} (h : s.Ok) (hs : s.step m = some t) (i : ℕ) :
    (s.set.idleFlags i = true ∧ t.set.idleFlags i = false) ↔
      ∃ c, m = .step c ∧ t.wins = s.wins ++ [(c, i)] := by
  have hbegin : t.set = s.set → (∀ c, m ≠ .step c) →
      ((s.set.idleFlags i = true ∧ t.set.idleFlags i = false) ↔
        ∃ c, m = .step c ∧ t.wins = s.wins ++ [(c, i)]) := by
    intro hset hm
    refine iff_of_false ?_ fun ⟨c, hc, _⟩ => hm c hc
    rw [hset]
    rintro ⟨hidle, hactive⟩
    cases hidle.symm.trans hactive
  cases m with
  | setIdle | setActive | tryAcquireFlag =>
    simp only [IdleSystem.step] at hs
    split_ifs at hs
    cases hs
    exact hbegin rfl fun c hc => (by cases hc)
  | findIdleWorker | findIdleWorkers =>
    cases hs
    exact hbegin rfl fun c hc => (by cases hc)
  | step c =>
    obtain ⟨call, hc, rfl⟩ := Option.map_eq_some_iff.1 hs
    obtain ⟨hstep, -⟩ := (h.calls call (List.mem_of_getElem? hc)).step
    refine (hstep.turns i).trans ?_
    change _ ↔ ∃ d, IdleMove.step c = .step d ∧ s.wins ++ _ = s.wins ++ [(d, i)]
    cases hwin : call.wins s.set with
    | none => simp
    | some => simp

/-- **Idle workers are accounted for exactly, up to the operations in flight.**  The counter is the
number of idle flags, less the `set_idle` calls that have turned a flag and not added yet, and with
the calls that have turned one to active and not subtracted yet.  A flag is turned to active by one
call, which wins it, and a call has won what it says.  A search that is over has found different
workers of the set, not its caller and not more than it may, and has won each of them. -/
theorem idle_accounting_exact (h : s.Reachable) :
    s.set.approxSize =
      s.set.idleCount - s.calls.countP IdleCall.adding + s.calls.countP IdleCall.subtracting ∧
    ((∀ call ∈ s.calls, call.isDone = true) → s.set.approxSize = s.set.idleCount) ∧
    (∀ m t i, s.step m = some t → ((s.set.idleFlags i = true ∧ t.set.idleFlags i = false) ↔
      ∃ c, m = .step c ∧ t.wins = s.wins ++ [(c, i)])) ∧
    (∀ c call, s.calls[c]? = some call →
      (s.wins.filter fun w => w.1 = c).map Prod.snd = call.acquired s.set.size) ∧
    ∀ c maxCount q, s.calls[c]? = some (.find maxCount q) → q.pc = .done →
      q.found.Nodup ∧ q.found.length ≤ maxCount ∧
      (∀ i ∈ q.found, i < s.set.size ∧ q.caller ≠ some i) ∧
      (s.wins.filter fun w => w.1 = c).map Prod.snd = q.found := by
  have hok := ok_of_reachable h
  refine ⟨hok.count, fun hdone => ?_, fun m t i hs => hok.turns_iff hs i, hok.wins, ?_⟩
  · have hadd : s.calls.countP IdleCall.adding = 0 := List.countP_eq_zero.2 fun call hc =>
      Bool.eq_false_iff.1 (IdleCall.not_pending (hdone call hc)).1
    have hsub : s.calls.countP IdleCall.subtracting = 0 := List.countP_eq_zero.2 fun call hc =>
      Bool.eq_false_iff.1 (IdleCall.not_pending (hdone call hc)).2
    have hcount := hok.count
    omega
  · intro c maxCount q hc hpc
    have hfind : FindOk s.set.size maxCount q := hok.calls _ (List.mem_of_getElem? hc)
    refine ⟨hfind.nodup, hfind.bound.found_le.trans hfind.bound.limit_le,
      fun i hi => ⟨hfind.range.found_lt i hi, hfind.other i hi⟩, (hok.wins c _ hc).trans ?_⟩
    simp [hpc]

/-- The workers 0 and 2 of three are idle.  A search by the worker 1 and a `set_active` on the
worker 2 run at the same time, and the search loses the race for this flag. -/
theorem idle_accounting_exact_of_race :
    ∃ s, Reachable s ∧ s.calls[2]? = some (.find 2 ⟨some 1, 1, 2, 3, [0], .done⟩) ∧
      s.wins = [(3, 2), (2, 0)] ∧ s.set.approxSize = s.set.idleCount := by
  let schedule : List IdleMove :=
    [.setIdle 0, .setIdle 2, .step 0, .step 1, .step 1, .step 0, .findIdleWorkers 1 2, .setActive 2,
      .step 2, .step 2, .step 2, .step 3, .step 2, .step 3, .step 2, .step 2, .step 2, .step 2]
  have h : Reachable _ := .lastState ⟨3, rfl⟩ schedule
  exact ⟨_, h, by decide +kernel, by decide +kernel,
    (idle_accounting_exact h).2.1 (by decide +kernel)⟩

end IdleSystem
end Concurrencpp
