import Concurrencpp.Threads.AsyncLockChain

/-!
# Mutual exclusion of the asynchronous lock

What the lock is for: it has an owner or none.  The owner is a grant: a call that has locked the
lock and has not handed the grant on, a wrapper that owns it, or a grant outside every wrapper.

* `Outstanding s g`: the grant `g`, read off the program points, the wrappers and `raw`.
* `OwnedBy s o`: exactly the grant `o` is outstanding, or none, and `m_locked` says which.  `keep`,
  `transfer`, `grant` and `release` are the four things that a step can do to the owner.
* `ownedBy_step`: every step does one of them.
-/

namespace Concurrencpp

/-- Where a grant of the lock can be. -/
inductive Grant
  | call (n : ℕ)
  | wrapper (w : ℕ)
  | raw (i : ℕ)
  deriving DecidableEq, Repr

/-- The call has set `m_locked`, or is about to clear it, and nobody else has the grant. -/
def LockPc.holds : LockPc → Bool
  | .resumeOn _ | .posted _ | .broken | .giveBack | .granted _ | .tried _ true | .unlock _
  | .unlocking _ => true
  | _ => false

namespace AsyncLock

variable {s t : AsyncLock} {n w : ℕ} {o : Option Grant}

/-- The grant has been given and not been returned. -/
def Outstanding (s : AsyncLock) : Grant → Prop
  | .call n => (s.pcs n).holds = true
  | .wrapper w => s.wrappers w = some ⟨true, true⟩ ∧ s.releasing w = none
  | .raw i => i < s.raw

/-- The owner of the lock. -/
structure OwnedBy (s : AsyncLock) (o : Option Grant) : Prop where
  outstanding : ∀ g, s.Outstanding g ↔ o = some g
  locked : s.locked = o.isSome

/-! ### What a step can do to the owner -/

theorem OwnedBy.unique (h : s.OwnedBy o) {g k : Grant} (hg : s.Outstanding g)
    (hk : s.Outstanding k) : g = k :=
  Option.some.inj (((h.outstanding g).1 hg).symm.trans ((h.outstanding k).1 hk))

variable {g : Grant}

theorem OwnedBy.locked_of (h : s.OwnedBy o) (hg : s.Outstanding g) : s.locked = true := by
  rw [h.locked, (h.outstanding g).1 hg]
  rfl

theorem OwnedBy.keep (h : s.OwnedBy o) (hl : t.locked = s.locked)
    (hx : ∀ x, t.Outstanding x ↔ s.Outstanding x) : t.OwnedBy o :=
  ⟨fun g => (hx g).trans (h.outstanding g), hl.trans h.locked⟩

theorem OwnedBy.transfer (h : s.OwnedBy o) (g g' : Grant) (hg : s.Outstanding g)
    (hl : t.locked = s.locked) (hx : ∀ x, t.Outstanding x ↔ x = g' ∨ (s.Outstanding x ∧ x ≠ g)) :
    t.OwnedBy (some g') := by
  refine ⟨fun x => (hx x).trans ?_, hl.trans (h.locked_of hg)⟩
  constructor
  · rintro (rfl | ⟨hx, hne⟩)
    · rfl
    · exact absurd (h.unique hx hg) hne
  · intro hx
    exact .inl (Option.some.inj hx).symm

/-- Two places exchange what they have. -/
theorem OwnedBy.swap (h : s.OwnedBy o) (g g' : Grant) (hl : t.locked = s.locked)
    (hx : ∀ x, t.Outstanding x ↔ s.Outstanding (Equiv.swap g g' x)) :
    t.OwnedBy (o.map (Equiv.swap g g')) := by
  refine ⟨fun x => (hx x).trans ((h.outstanding _).trans ?_), ?_⟩
  · rw [Option.map_eq_some_iff]
    constructor
    · intro ho
      exact ⟨_, ho, Equiv.swap_apply_self g g' x⟩
    · rintro ⟨y, rfl, rfl⟩
      rw [Equiv.swap_apply_self]
  · rw [hl, h.locked, Option.isSome_map]

theorem OwnedBy.grant (h : s.OwnedBy o) (hl : s.locked = false) (hl' : t.locked = true)
    (hx : ∀ x, t.Outstanding x ↔ x = g ∨ s.Outstanding x) : t.OwnedBy (some g) := by
  refine ⟨fun x => (hx x).trans ?_, hl'⟩
  constructor
  · rintro (rfl | hx)
    · rfl
    · cases hl.symm.trans (h.locked_of hx)
  · intro hx
    exact .inl (Option.some.inj hx).symm

theorem OwnedBy.release (h : s.OwnedBy o) (hg : s.Outstanding g) (hl : t.locked = false)
    (hx : ∀ x, t.Outstanding x ↔ s.Outstanding x ∧ x ≠ g) : t.OwnedBy none := by
  refine ⟨fun x => (hx x).trans ?_, hl⟩
  constructor
  · rintro ⟨hx, hne⟩
    exact absurd (h.unique hx hg) hne
  · intro hx
    cases hx

/-! ### The grants behind an update -/

variable {pc : LockPc}

theorem outstanding_setPc :
    (s.setPc n pc).Outstanding g ↔ if g = .call n then pc.holds = true else s.Outstanding g := by
  cases g with
  | call k => by_cases hk : k = n <;> simp [Outstanding, setPc, hk]
  | wrapper => rfl
  | raw => rfl

theorem outstanding_setWrapper {x : Option ScopedLock} : (s.setWrapper w x).Outstanding g ↔
      if g = .wrapper w then x = some ⟨true, true⟩ ∧ s.releasing w = none else s.Outstanding g := by
  cases g with
  | call => rfl
  | wrapper v => by_cases hv : v = w <;> simp [Outstanding, setWrapper, hv]
  | raw => rfl

theorem outstanding_setReleasing {m : Option ℕ} : (s.setReleasing w m).Outstanding g ↔
      if g = .wrapper w then s.wrappers w = some ⟨true, true⟩ ∧ m = none else s.Outstanding g := by
  cases g with
  | call => rfl
  | wrapper v => by_cases hv : v = w <;> simp [Outstanding, setReleasing, hv]
  | raw => rfl

theorem outstanding_addRaw {b : Bool} :
    (s.addRaw b).Outstanding g ↔ (b = true ∧ g = .raw s.raw) ∨ s.Outstanding g := by
  cases g with
  | call | wrapper => simp [Outstanding, addRaw]
  | raw => cases b <;> simp [Outstanding, addRaw]; omega

/-- One of the grants outside the wrappers is taken. -/
theorem outstanding_takeRaw (hr : 0 < s.raw) :
    { s with raw := s.raw - 1 }.Outstanding g ↔ s.Outstanding g ∧ g ≠ .raw (s.raw - 1) := by
  cases g with
  | call => simp [Outstanding]
  | wrapper => simp [Outstanding]
  | raw => simp [Outstanding]; omega

/-! ### A task that goes on -/

theorem OwnedBy.setPc (h : s.OwnedBy o) (hpc : pc.holds = (s.pcs n).holds) :
    (s.setPc n pc).OwnedBy o := by
  refine h.keep rfl fun x => outstanding_setPc.trans ?_
  split_ifs with hx
  · rw [hx, hpc]
    rfl
  · rfl

theorem OwnedBy.lockMutex (h : s.OwnedBy o) (hpc : pc.holds = (s.pcs n).holds)
    (hs : s.lockMutex n pc = some t) : t.OwnedBy o := by
  unfold AsyncLock.lockMutex at hs
  split at hs
  · cases hs
    exact ⟨(h.setPc hpc).outstanding, h.locked⟩
  · cases hs

theorem OwnedBy.resume {m : ℕ} (h : s.OwnedBy o) (hs : s.resume m = some t) : t.OwnedBy o := by
  unfold AsyncLock.resume at hs
  split at hs
  next c hm =>
    cases hs
    exact h.setPc (by rw [hm]; rfl)
  · cases hs

/-! ### Critical sections -/

theorem OwnedBy.lock (h : s.OwnedBy o) (hl : s.locked = false) (hpc : pc.holds = true) :
    { s.setPc n pc with awaiterLock := none, locked := true }.OwnedBy (some (.call n)) := by
  refine h.grant hl rfl fun x => (show _ ↔ (s.setPc n pc).Outstanding x from Iff.rfl).trans ?_
  rw [outstanding_setPc]
  split_ifs with hx
  · simp [hx, hpc]
  · simp [hx]

theorem ownedBy_attempt (h : s.OwnedBy o) {c : LockCaller} {first : Bool}
    (hn : s.pcs n = .attempt c first) : ∃ o, (s.attempt n c first).OwnedBy o := by
  unfold attempt
  cases hl : s.locked with
  | false => exact ⟨_, h.lock hl (by cases first <;> rfl)⟩
  | true =>
    have h' : (s.setPc n (.suspended c)).OwnedBy o := h.setPc (by rw [hn]; rfl)
    exact ⟨o, h'.outstanding, h.locked⟩

theorem ownedBy_tryAttempt (h : s.OwnedBy o) {c : LockCaller} (hn : s.pcs n = .tryAttempt c) :
    ∃ o, (s.tryAttempt n c).OwnedBy o := by
  unfold tryAttempt
  cases hl : s.locked with
  | false => exact ⟨_, h.lock hl rfl⟩
  | true =>
    have h' : (s.setPc n (.tried c false)).OwnedBy o := h.setPc (by rw [hn]; rfl)
    exact ⟨o, h'.outstanding, hl.symm.trans h.locked⟩

theorem OwnedBy.handOver {pc : Option ℕ → LockPc} (h : s.OwnedBy o) (hn : (s.pcs n).holds = true)
    (hpc : ∀ a, (pc a).holds = false) : (s.handOver n pc).OwnedBy none := by
  refine h.release (g := .call n) hn rfl fun x => ?_
  refine (show _ ↔ (s.setPc n _).Outstanding x from Iff.rfl).trans ?_
  rw [outstanding_setPc]
  split_ifs with hx
  · simp [hx, hpc]
  · simp [hx]

theorem OwnedBy.unlocking {u : Unlocker} (h : s.OwnedBy o) (hn : s.pcs n = .unlocking u) :
    (s.unlocking n u).OwnedBy none := by
  have hh : (s.pcs n).holds = true := by rw [hn]; rfl
  unfold AsyncLock.unlocking
  rw [h.locked_of (g := .call n) hh]
  exact h.handOver hh fun _ => rfl

/-! ### Wrappers -/

variable {x : ScopedLock}

theorem outstanding_wrapper (hw : s.wrappers w = some x) (hr : s.releasing w = none) :
    s.Outstanding (.wrapper w) ↔ (x.owns && x.lock) = true := by
  obtain ⟨lock, owns⟩ := x
  cases lock <;> cases owns <;> simp [Outstanding, hw, hr]

/-- `m_owns = true`: the grant of the call lies in the wrapper, or in none. -/
theorem ownedBy_setOwns_true (h : s.OwnedBy o) (hn : (s.pcs n).holds = true)
    (hr : s.releasing w = none) : ∃ o, ((s.setPc n .idle).setOwns w true).OwnedBy o := by
  have hcall : s.Outstanding (.call n) := hn
  unfold setOwns
  cases hw : s.wrappers w with
  | none =>
    simp only [show (s.setPc n .idle).wrappers w = none from hw]
    refine ⟨_, h.transfer (.call n) (.raw s.raw) hn rfl fun x => ?_⟩
    rw [outstanding_addRaw, outstanding_setPc]
    by_cases hx : x = .call n <;> simp [hx, LockPc.holds, AsyncLock.setPc]
  | some x =>
    simp only [show (s.setPc n .idle).wrappers w = some x from hw]
    obtain ⟨lock, owns⟩ := x
    have hnw : ¬ s.Outstanding (.wrapper w) := fun hx => by cases h.unique hcall hx
    cases lock with
    | false =>
      refine ⟨_, h.transfer (.call n) (.raw s.raw) hn rfl fun x => ?_⟩
      rw [outstanding_addRaw, outstanding_setWrapper, outstanding_setPc]
      by_cases hx : x = .call n
      · simp [hx, LockPc.holds, setWrapper, AsyncLock.setPc]
      · by_cases hx' : x = .wrapper w <;> simp [hx, hx', hnw, setWrapper, AsyncLock.setPc]
    | true =>
      -- the wrapper does not own the lock already: that would be a second grant
      have howns : owns = false := by
        cases owns with
        | false => rfl
        | true => exact absurd ⟨hw, hr⟩ hnw
      refine ⟨_, h.transfer (.call n) (.wrapper w) hn rfl fun x => ?_⟩
      rw [outstanding_addRaw, outstanding_setWrapper, outstanding_setPc]
      by_cases hx : x = .call n
      · simp [hx, LockPc.holds, setWrapper, AsyncLock.setPc, howns]
      · by_cases hx' : x = .wrapper w <;> simp [hx, hx', hr, setWrapper, AsyncLock.setPc, howns]

/-- `m_owns = false` behind a `try_lock` that failed. -/
theorem ownedBy_setOwns_false (h : s.OwnedBy o) (hr : s.releasing w = none) :
    ∃ o, (s.setOwns w false).OwnedBy o := by
  unfold setOwns
  cases hw : s.wrappers w with
  | none => exact ⟨o, h.keep rfl fun x => by simp [outstanding_addRaw]⟩
  | some x =>
    obtain ⟨lock, owns⟩ := x
    by_cases hx : lock = true ∧ owns = true
    · obtain ⟨rfl, rfl⟩ := hx
      refine ⟨_, h.transfer (.wrapper w) (.raw s.raw) ⟨hw, hr⟩ rfl fun x => ?_⟩
      rw [outstanding_addRaw, outstanding_setWrapper]
      by_cases hx' : x = .wrapper w <;> simp [hx', setWrapper]
    · have hnw : ¬ s.Outstanding (.wrapper w) := by
        rintro ⟨hx', -⟩
        cases hw.symm.trans hx'
        exact hx ⟨rfl, rfl⟩
      have hb : (if lock = true then owns && !false else false) = false := by
        cases lock <;> cases owns <;> simp_all
      refine ⟨o, h.keep rfl fun x => ?_⟩
      rw [outstanding_addRaw, outstanding_setWrapper, hb]
      by_cases hx' : x = .wrapper w <;> simp [hx', hnw]

/-- The grant of a wrapper passes to the `unlock` or the destructor of it. -/
theorem OwnedBy.startRelease (h : s.OwnedBy o) (hw : s.Outstanding (.wrapper w))
    (hpc : pc.holds = true) :
    ((s.setPc n pc).setReleasing w (some n)).OwnedBy (some (.call n)) := by
  refine h.transfer _ _ hw rfl fun x => ?_
  rw [outstanding_setReleasing, outstanding_setPc]
  by_cases hx : x = .wrapper w
  · simp [hx]
  · by_cases hx' : x = .call n <;> simp [hx, hx', hpc]

/-- A wrapper that has no grant is changed into another that has none. -/
theorem OwnedBy.setWrapper {x : Option ScopedLock} (h : s.OwnedBy o)
    (hw : ¬ s.Outstanding (.wrapper w)) (hx : x ≠ some ⟨true, true⟩) :
    (s.setWrapper w x).OwnedBy o := by
  refine h.keep rfl fun g => outstanding_setWrapper.trans ?_
  by_cases hg : g = .wrapper w <;> simp [hg, hx, hw]

theorem not_outstanding_of_none (hw : s.wrappers w = none) : ¬ s.Outstanding (.wrapper w) := by
  rintro ⟨hw', -⟩
  cases hw.symm.trans hw'

/-- The constructors that take no grant. -/
theorem OwnedBy.construct (h : s.OwnedBy o) (hw : s.vacant w) (hx : x.owns = false) :
    (s.setWrapper w (some x)).OwnedBy o := by
  refine h.setWrapper (not_outstanding_of_none hw.1) fun hx' => ?_
  cases Option.some.inj hx'
  cases hx

/-- A wrapper that takes the grant of a call or one outside the wrappers. -/
theorem ownedBy_adopt (h : s.OwnedBy o) (hw : s.vacant w) (hr : 0 < s.raw) :
    { s.setWrapper w (some ⟨true, true⟩) with raw := s.raw - 1 }.OwnedBy (some (.wrapper w)) := by
  have hraw : s.Outstanding (.raw (s.raw - 1)) := Nat.sub_lt hr Nat.one_pos
  refine h.transfer _ _ hraw rfl fun x => ?_
  refine (outstanding_takeRaw (s := s.setWrapper w (some ⟨true, true⟩)) hr).trans ?_
  rw [outstanding_setWrapper]
  by_cases hx : x = .wrapper w <;> simp [hx, hw.2, AsyncLock.setWrapper]

theorem ownedBy_unlock (h : s.OwnedBy o) (hr : 0 < s.raw) :
    { s.setPc n (.unlock .direct) with raw := s.raw - 1 }.OwnedBy (some (.call n)) := by
  have hraw : s.Outstanding (.raw (s.raw - 1)) := Nat.sub_lt hr Nat.one_pos
  refine h.transfer _ _ hraw rfl fun x => ?_
  refine (outstanding_takeRaw (s := s.setPc n (.unlock .direct)) hr).trans ?_
  rw [outstanding_setPc]
  by_cases hx : x = .call n <;> simp [hx, LockPc.holds, AsyncLock.setPc]

/-- The move constructor leaves an empty wrapper behind, `swap` the other one. -/
theorem OwnedBy.exchange {w' : ℕ} {y : ScopedLock} (h : s.OwnedBy o) (hw : s.wrappers w = some x)
    (hw' : s.vacant w' ∧ y = ⟨false, false⟩ ∨ s.wrappers w' = some y) (hr : s.releasing w = none)
    (hr' : s.releasing w' = none) : ((s.setWrapper w (some y)).setWrapper w' (some x)).OwnedBy
      (o.map (Equiv.swap (.wrapper w') (.wrapper w))) := by
  refine h.swap _ _ rfl fun g => ?_
  rw [outstanding_setWrapper, outstanding_setWrapper, Equiv.swap_apply_def]
  split_ifs
  · simp [Outstanding, AsyncLock.setWrapper, hw, hr, hr']
  · obtain ⟨hv, rfl⟩ | hw' := hw'
    · simp [Outstanding, hv.1]
    · simp [Outstanding, hw', hr, hr']
  · rfl

/-- `release`: the grant of the wrapper is the caller's. -/
theorem ownedBy_releaseWrapper (h : s.OwnedBy o) (hw : s.wrappers w = some x)
    (hr : s.releasing w = none) :
    ∃ o, ((s.setWrapper w (some ⟨false, false⟩)).addRaw (x.owns && x.lock)).OwnedBy o := by
  have hiff := outstanding_wrapper hw hr
  cases hx : x.owns && x.lock with
  | true =>
    refine ⟨_, h.transfer (.wrapper w) (.raw s.raw) (hiff.2 hx) rfl fun g => ?_⟩
    rw [outstanding_addRaw, outstanding_setWrapper]
    by_cases hg : g = .wrapper w <;> simp [hg, AsyncLock.setWrapper]
  | false =>
    refine ⟨o, (h.setWrapper (x := some ⟨false, false⟩) (by simp [hiff, hx]) (by simp)).keep rfl
      fun g => ?_⟩
    simp [outstanding_addRaw]

/-! ### Steps -/

theorem ownedBy_call {a : LockAction} (h : s.OwnedBy o) (hn : s.pcs n = .idle)
    (hu : s.Undisturbed (n, a)) (hs : s.call n a = some t) : ∃ o, t.OwnedBy o := by
  cases callOf hs with
  | enter hpc =>
    refine ⟨o, h.setPc ?_⟩
    rw [hn]
    obtain ⟨e, rfl⟩ | ⟨c, rfl⟩ | ⟨c, rfl⟩ := hpc <;> rfl
  | unlock hr => exact ⟨_, ownedBy_unlock h hr⟩
  | startRelease _ hmem hw => exact ⟨_, h.startRelease ⟨hw, hu.touched hmem⟩ rfl⟩
  | nothing => exact ⟨o, h⟩
  | destroy hw hx =>
    exact ⟨o, h.setWrapper (fun hg => hx (Option.some.inj (hw.symm.trans hg.1))) (by simp)⟩
  | construct _ hv hx => exact ⟨o, h.construct hv hx⟩
  | adoptLock hv hr => exact ⟨_, ownedBy_adopt h hv hr⟩
  | exchange hmem hmem' hw hw' => exact ⟨_, h.exchange hw hw' (hu.touched hmem) (hu.touched hmem')⟩
  | release hw => exact ownedBy_releaseWrapper h hw (hu.touched List.mem_cons_self)

/-- Behind `async_lock::unlock`, the wrapper of the call has no grant any more. -/
theorem OwnedBy.endRelease {x : Option ScopedLock} (h : s.OwnedBy o)
    (hw : ¬ s.Outstanding (.wrapper w)) (hx : x ≠ some ⟨true, true⟩) :
    ((s.setWrapper w x).setReleasing w none).OwnedBy o := by
  refine h.keep rfl fun g => ?_
  rw [outstanding_setReleasing, outstanding_setWrapper]
  by_cases hg : g = .wrapper w <;> simp [hg, hw, hx, AsyncLock.setWrapper]

theorem OwnedBy.unlocked {u : Unlocker} (h : s.OwnedBy o) (hok : ReleasingOk s.pcs s.releasing)
    (hn : s.pcs n = .unlocked u) : (s.unlocked n u).OwnedBy o := by
  have hidle : (s.setPc n .idle).OwnedBy o := h.setPc (by rw [hn]; rfl)
  have hrel : ∀ w, u.wrapper = some w → ¬ (s.setPc n .idle).Outstanding (.wrapper w) := by
    rintro w hu ⟨-, hr⟩
    have hw : s.releasing w = some n := (hok n w).1 (by rw [hn]; exact hu)
    cases hr.symm.trans hw
  cases u with
  | direct => exact hidle
  | ofScoped w =>
    refine hidle.endRelease (hrel w rfl) fun hx => ?_
    obtain ⟨y, -, hy⟩ := Option.map_eq_some_iff.1 hx
    exact absurd (congrArg ScopedLock.owns hy) (by simp)
  | ofDestructor w => exact hidle.endRelease (hrel w rfl) (by simp)

theorem ownedBy_advance (h : s.OwnedBy o) (hok : ReleasingOk s.pcs s.releasing)
    (hu : ∀ w, (s.pcs n).stores = some w → s.releasing w = none) (hs : s.advance n = some t) :
    ∃ o, t.OwnedBy o := by
  cases advance_cases hs with
  | loop hn hs | tryLock hn hs | broken hn hs | unlock hn hs =>
    exact ⟨o, h.lockMutex (by rw [hn]; rfl) hs⟩
  | attempt hn => exact ownedBy_attempt h hn
  | giveBack hn => exact ⟨none, h.handOver (by rw [hn]; rfl) fun _ => rfl⟩
  | rethrow hn hs | retry hn hs => exact ⟨o, (h.setPc (by rw [hn]; rfl)).resume hs⟩
  | granted hn => exact ownedBy_setOwns_true h (by rw [hn]; rfl) (hu _ (by rw [hn]; rfl))
  | tryAttempt hn => exact ownedBy_tryAttempt h hn
  | @tried res hn =>
    cases res with
    | false =>
      have h' : (s.setPc n .idle).OwnedBy o := h.setPc (by rw [hn]; rfl)
      exact ⟨o, h'.keep rfl fun x => by simp [outstanding_addRaw]⟩
    | true =>
      refine ⟨_, h.transfer (.call n) (.raw s.raw) (by simp [Outstanding, hn, LockPc.holds])
        rfl fun x => ?_⟩
      rw [outstanding_addRaw, outstanding_setPc]
      by_cases hx : x = .call n <;> simp [hx, LockPc.holds, AsyncLock.setPc]
  | @triedScoped w res hn =>
    have hr := hu w (by rw [hn]; rfl)
    cases res with
    | false => exact ownedBy_setOwns_false (h.setPc (by rw [hn]; rfl)) hr
    | true => exact ownedBy_setOwns_true h (by rw [hn]; rfl) hr
  | unlocking hn => exact ⟨none, h.unlocking hn⟩
  | unlocked hn => exact ⟨o, h.unlocked hok hn⟩
  | rethrown hn | retried hn | threw hn => exact ⟨o, h.setPc (by rw [hn]; rfl)⟩

theorem ownedBy_step {m : ℕ × LockAction} (h : s.OwnedBy o) (hok : ReleasingOk s.pcs s.releasing)
    (hs : s.step m = some t) : ∃ o, t.OwnedBy o := by
  obtain ⟨n, a⟩ := m
  have hu := (step_eq_some.1 hs).1
  obtain ⟨hn, hs⟩ | ⟨-, hs⟩ | ⟨w, -, hn, hv, rfl⟩ | ⟨c, hn, ⟨-, rfl⟩ | ⟨-, rfl⟩⟩ |
    ⟨c, hn, ⟨-, rfl⟩ | ⟨-, rfl⟩⟩ := step_cases hs
  · exact ownedBy_call h hn hu hs
  · exact ownedBy_advance h hok (fun w => hu.stored) hs
  · refine ⟨_, h.transfer (.call n) (.wrapper w) (by simp [Outstanding, hn, LockPc.holds])
      rfl fun x => ?_⟩
    rw [outstanding_setWrapper, outstanding_setPc]
    by_cases hx : x = .wrapper w
    · simp [hx, AsyncLock.setPc, hv.2]
    · by_cases hx' : x = .call n <;> simp [hx, hx', LockPc.holds]
  all_goals exact ⟨o, h.setPc (by rw [hn]; rfl)⟩

theorem ownedBy_initial : initial.OwnedBy none := by
  refine ⟨fun g => ?_, rfl⟩
  cases g <;> simp [Outstanding, initial, LockPc.holds]

theorem ownedBy_of_reachable (h : Reachable s) : ∃ o, s.OwnedBy o := by
  induction h with
  | start hs =>
    cases hs
    exact ⟨none, ownedBy_initial⟩
  | next hr _ hs ih =>
    obtain ⟨o, ih⟩ := ih
    obtain ⟨xs, hok⟩ := chainOk_of_reachable hr
    exact ownedBy_step ih hok.releasing hs

/-! ### Mutual exclusion -/

end AsyncLock
end Concurrencpp
