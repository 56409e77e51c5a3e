import Concurrencpp.Placement
import Concurrencpp.Results.ResultPromise

/-!
# The states behind the promises

`pe p` is the producer end that the promise `p` holds, `ce` the consumer ends of the promises
(`inl`) and of the results (`inr`).  `ResultMemory.Core pe ce m` says that every end has one holder,
and that what the memory knows about a state is decided by which of its two ends are held:

* `CellOk.idle`: both; nothing has been stored;
* `CellOk.consumerDone`: only the producer's;
* `CellOk.producerDone`: only the consumer's; the state has been published, and a result finds in it
  what has been set, or `broken_task`;
* `CellOk.freed`: none; the state has been published once and freed once.

There is one lemma for each thing that can happen to an end: `Core.complete`, `Core.consume`,
`Core.transfer` and `Core.allocate`.
-/

namespace Concurrencpp

open Placement
open Function (update update_self update_of_ne)

variable {α ε : Type}

/-- What the memory knows about one state; `published` and `freed` are how often it has become
`producer_done` and has been freed. -/
structure CellView (α ε : Type) where
  state : Option (ResultState α (PromiseException ε))
  allocated : Bool
  published : ℕ
  freed : ℕ
  set : Option (ProducerContext α (PromiseException ε))

/-- The state is `new`, used or freed according to its ends: `hp` says that some promise holds the
end of the producer, `hc` that the end of the consumer is held, `hr` that a result holds it. -/
inductive CellOk (hp hc hr : Prop) : CellView α ε → Prop
  | unallocated : ¬ hp → ¬ hc → CellOk hp hc hr ⟨none, false, 0, 0, none⟩
  | idle (consumer doneHandle) : hp → hc →
      CellOk hp hc hr ⟨some ⟨.idle, consumer, .idle, doneHandle⟩, true, 0, 0, none⟩
  | consumerDone (consumer doneHandle) : hp → ¬ hc →
      CellOk hp hc hr ⟨some ⟨.consumerDone, consumer, .idle, doneHandle⟩, true, 0, 0, none⟩
  | producerDone (consumer producer doneHandle set) : ¬ hp → hc →
      (hr → producer ≠ .idle ∧ producer = set.getD ResultPromises.brokenTask) →
      CellOk hp hc hr ⟨some ⟨.producerDone, consumer, producer, doneHandle⟩, true, 1, 0, set⟩
  | freed (set) : ¬ hp → ¬ hc → CellOk hp hc hr ⟨none, true, 1, 1, set⟩

/-- The ends may be described in other words; a result may also take over a consumer end while the
producer's is still held. -/
theorem CellOk.congr {hp hp' hc hc' hr hr' : Prop} {v : CellView α ε} (h : CellOk hp hc hr v)
    (hpp : hp' ↔ hp) (hcc : hc' ↔ hc) (hrr : hr' → hr ∨ hp) : CellOk hp' hc' hr' v := by
  cases h with
  | unallocated h₁ h₂ => exact .unallocated (hpp.not.2 h₁) (hcc.not.2 h₂)
  | idle c d h₁ h₂ => exact .idle c d (hpp.2 h₁) (hcc.2 h₂)
  | consumerDone c d h₁ h₂ => exact .consumerDone c d (hpp.2 h₁) (hcc.not.2 h₂)
  | producerDone c v d set h₁ h₂ h₃ =>
    exact .producerDone c v d set (hpp.not.2 h₁) (hcc.2 h₂) fun h => h₃ ((hrr h).resolve_right h₁)
  | freed set h₁ h₂ => exact .freed set (hpp.not.2 h₁) (hcc.not.2 h₂)

namespace ResultMemory

def view (m : ResultMemory α ε) (id : ℕ) : CellView α ε where
  state := m.states id
  allocated := id.blt m.allocated
  published := m.published.count id
  freed := m.freed.count id
  set := m.sets id

/-- Some result holds the consumer end. -/
def Retrieved (ce : ℕ ⊕ ℕ → List ℕ) (id : ℕ) : Prop := ∃ r, id ∈ ce (.inr r)

structure Core (pe : ℕ → List ℕ) (ce : ℕ ⊕ ℕ → List ℕ) (m : ResultMemory α ε) : Prop where
  producers : Placed pe
  consumers : Placed ce
  cell : ∀ id, CellOk (Held pe id) (Held ce id) (Retrieved ce id) (m.view id)
  failed : m.failed = false

variable {pe pe' : ℕ → List ℕ} {ce ce' : ℕ ⊕ ℕ → List ℕ} {m m' : ResultMemory α ε} {id : ℕ}

theorem Core.initial : Core (fun _ => []) (fun _ => []) (.initial : ResultMemory α ε) := by
  constructor
  case producers | consumers => exact .of_eq_nil fun _ => rfl
  case cell =>
    exact fun id => .unallocated (not_held_of_eq_nil fun _ => rfl) (not_held_of_eq_nil fun _ => rfl)
  case failed => rfl

/-! ### What an operation leaves alone -/

/-- Only the contents of the state `id` differ. -/
structure SameBut (id : ℕ) (m m' : ResultMemory α ε) : Prop where
  states : ∀ j, j ≠ id → m'.states j = m.states j
  sets : ∀ j, j ≠ id → m'.sets j = m.sets j
  allocated : m'.allocated = m.allocated
  published : m'.published = m.published
  freed : m'.freed = m.freed
  failed : m'.failed = m.failed

theorem SameBut.view {j : ℕ} (h : SameBut id m m') (hj : j ≠ id) : m'.view j = m.view j := by
  simp only [ResultMemory.view, h.states j hj, h.sets j hj, h.allocated, h.published, h.freed]

theorem sameBut_refl : SameBut id m m := ⟨fun _ _ => rfl, fun _ _ => rfl, rfl, rfl, rfl, rfl⟩

theorem sameBut_set {st : Option (ResultState α (PromiseException ε))} :
    SameBut id m (m.set id st) :=
  ⟨fun _ hj => update_of_ne hj _ _, fun _ _ => rfl, rfl, rfl, rfl, rfl⟩

theorem SameBut.record {v : ProducerContext α (PromiseException ε)} (h : SameBut id m m') :
    SameBut id m (m'.record id v) :=
  ⟨h.states, fun j hj => (update_of_ne hj _ _).trans (h.sets j hj), h.allocated, h.published,
    h.freed, h.failed⟩

variable {st : ResultState α (PromiseException ε)}

/-- `build_result` and `build_exception` find a state in which nothing is stored. -/
theorem build_eq {v : ProducerContext α (PromiseException ε)} (hst : m.states id = some st)
    (hidle : st.producer = .idle) : m.build id v = m.set id (some { st with producer := v }) := by
  unfold build
  rw [hst]
  simp [check, set, hidle, ProducerContext.status]

theorem view_deleteSelf_of_ne {j : ℕ} (hj : j ≠ id) : (m.deleteSelf id).view j = m.view j := by
  have hcount : (m.freed ++ [id]).count j = m.freed.count j := by simp [Ne.symm hj]
  simp only [view, deleteSelf, set, update_of_ne hj, hcount]

theorem view_deleteSelf : (m.deleteSelf id).view id = { m.view id with
    state := none
    freed := m.freed.count id + 1 } := by
  simp [view, deleteSelf, set]

/-! ### The producer -/

/-- The state after the producer end has been reset. -/
theorem view_completeProducer (hst : m.states id = some st)
    (hpc : st.pcState = .idle ∨ st.pcState = .consumerDone) :
    (m.completeProducer id).failed = m.failed ∧
      (∀ j, j ≠ id → (m.completeProducer id).view j = m.view j) ∧
      (st.pcState = .idle → (m.completeProducer id).view id = { m.view id with
        state := some { st with
          pcState := .producerDone
          doneHandle := none }
        published := m.published.count id + 1 }) ∧
      (st.pcState = .consumerDone → (m.completeProducer id).view id = { m.view id with
        state := none
        published := m.published.count id + 1
        freed := m.freed.count id + 1 }) := by
  have hcount : ∀ j, j ≠ id → (m.published ++ [id]).count j = m.published.count j := by
    intro j hj
    simp [Ne.symm hj]
  have hview : ∀ {st' : ResultState α (PromiseException ε)} (j), j ≠ id →
      { m.set id (some st') with published := m.published ++ [id] }.view j = m.view j := by
    intro st' j hj
    simp only [view, set, update_of_ne hj, hcount j hj]
  unfold completeProducer
  rw [hst]
  rcases hpc with hpc | hpc
  · simp only [hpc]
    refine ⟨rfl, hview, fun _ => ?_, fun h => (by cases h)⟩
    simp [view, set]
  · simp only [hpc]
    refine ⟨rfl, fun j hj => (view_deleteSelf_of_ne hj).trans (hview j hj), fun h => (by cases h),
      fun _ => ?_⟩
    rw [view_deleteSelf]
    simp [view, set]

/-- A promise gives up the producer end of `id`, after something may have been stored in the state.
When a result holds the other end it finds what has been set, or `broken_task`. -/
theorem Core.complete {p : ℕ} {v : ProducerContext α (PromiseException ε)} (h : Core pe ce m)
    (hp : pe p = [id]) (hst : m.states id = some st) (hsame : SameBut id m m')
    (hst' : m'.states id = some { st with producer := v })
    (hv : Retrieved ce id → v ≠ .idle ∧ v = (m'.sets id).getD ResultPromises.brokenTask) :
    Core (update pe p []) ce (m'.completeProducer id) := by
  obtain ⟨hplaced, hheld⟩ := h.producers.clear p
  have hid : Held pe id := held_of_eq_singleton hp
  have hgone : ¬ Held (update pe p []) id := fun hi => ((hheld id).1 hi).2 (by simp [hp])
  -- as long as the producer end is held the state is `idle` or `consumer_done`
  have hcell := h.cell id
  have hview : m'.view id = { m.view id with
      state := some { st with producer := v }
      set := m'.sets id } := by
    simp only [view, hst', hsame.allocated, hsame.published, hsame.freed]
  have hspec := view_completeProducer hst'
  have hcases : (st.pcState = .idle ∧ Held ce id ∨ st.pcState = .consumerDone ∧ ¬ Held ce id) ∧
      (m.view id).allocated = true ∧ m.published.count id = 0 ∧ m.freed.count id = 0 := by
    generalize hw : m.view id = w at hcell
    have hstate : w.state = some st := hw ▸ hst
    have hpub : m.published.count id = w.published := hw ▸ rfl
    have hfreed : m.freed.count id = w.freed := hw ▸ rfl
    rw [hpub, hfreed]
    cases hcell with
    | unallocated h₁ | producerDone _ _ _ _ h₁ | freed _ h₁ => exact absurd hid h₁
    | idle _ _ _ h₂ =>
      cases hstate
      exact ⟨.inl ⟨rfl, h₂⟩, rfl, rfl, rfl⟩
    | consumerDone _ _ _ h₂ =>
      cases hstate
      exact ⟨.inr ⟨rfl, h₂⟩, rfl, rfl, rfl⟩
  obtain ⟨hpc, halloc, hpub, hfreed⟩ := hcases
  have hviewfreed : (m.view id).freed = 0 := hfreed
  have hpc' : st.pcState = .idle ∨ st.pcState = .consumerDone := hpc.imp And.left And.left
  obtain ⟨hfail, hother, hidle, hdone⟩ := hspec hpc'
  constructor
  case producers => exact hplaced
  case consumers => exact h.consumers
  case failed => rw [hfail, hsame.failed, h.failed]
  case cell =>
    intro j
    by_cases hj : j = id
    · subst hj
      rw [hsame.published, hsame.freed, hpub] at *
      rcases hpc with ⟨hpc, hc⟩ | ⟨hpc, hc⟩
      · rw [hidle hpc, hview]
        simp only [halloc, hviewfreed]
        exact .producerDone _ _ _ _ hgone hc hv
      · rw [hdone hpc, hview, hfreed]
        simp only [halloc]
        exact .freed _ hgone hc
    · rw [hother j hj, hsame.view hj]
      have hne : j ∉ pe p := by simpa [hp] using hj
      exact (h.cell j).congr ((hheld j).trans (and_iff_left hne)) Iff.rfl .inl

/-- As long as a promise holds the producer end, nothing has been stored or published. -/
theorem Core.unset (h : Core pe ce m) (hid : Held pe id) :
    (∃ st, m.states id = some st ∧ st.producer = .idle) ∧ m.sets id = none ∧ id ∉ m.published := by
  have hcell := h.cell id
  generalize hw : m.view id = w at hcell
  have hstate : m.states id = w.state := hw ▸ rfl
  have hset : m.sets id = w.set := hw ▸ rfl
  have hpub : m.published.count id = w.published := hw ▸ rfl
  rw [hstate, hset, ← List.count_eq_zero, hpub]
  cases hcell with
  | idle | consumerDone => exact ⟨⟨_, rfl, rfl⟩, rfl, rfl⟩
  | unallocated h₁ | producerDone _ _ _ _ h₁ | freed _ h₁ => exact absurd hid h₁

/-- What a result sees: its state lives, and it is `producer_done` when no promise holds the other
end. -/
theorem Core.retrieved (h : Core pe ce m) (hr : Retrieved ce id) :
    ∃ st, m.states id = some st ∧ (st.pcState = .producerDone →
      ¬ Held pe id ∧ st.producer ≠ .idle ∧
        st.producer = (m.sets id).getD ResultPromises.brokenTask) ∧
      (¬ Held pe id → st.pcState = .producerDone ∧ id ∈ m.published) := by
  have hid : Held ce id := hr.elim fun r hr => ⟨.inr r, hr⟩
  have hcell := h.cell id
  generalize hw : m.view id = w at hcell
  have hstate : m.states id = w.state := hw ▸ rfl
  have hset : m.sets id = w.set := hw ▸ rfl
  have hpub : m.published.count id = w.published := hw ▸ rfl
  rw [hstate, hset, ← List.count_pos_iff, hpub]
  cases hcell with
  | idle _ _ h₁ => exact ⟨_, rfl, fun h => (by cases h), fun h => absurd h₁ h⟩
  | producerDone _ _ _ _ h₁ _ h₃ =>
    exact ⟨_, rfl, fun _ => ⟨h₁, h₃ hr⟩, fun _ => ⟨rfl, Nat.one_pos⟩⟩
  | unallocated _ h₂ | consumerDone _ _ _ h₂ | freed _ _ h₂ => exact absurd hid h₂

/-- What has happened to a state can be told from its ends. -/
theorem Core.ends (h : Core pe ce m) (id : ℕ) : m.published.count id ≤ 1 ∧ m.freed.count id ≤ 1 ∧
    (id < m.allocated → ¬ Held pe id → id ∈ m.published) ∧ (Held pe id → id < m.allocated) ∧
    (id ∈ m.freed ↔ id < m.allocated ∧ ¬ Held pe id ∧ ¬ Held ce id) := by
  have hcell := h.cell id
  generalize hw : m.view id = w at hcell
  have halloc : id < m.allocated ↔ w.allocated = true := by
    rw [← hw, ← Nat.blt_eq]
    rfl
  have hpub : m.published.count id = w.published := hw ▸ rfl
  have hfreed : m.freed.count id = w.freed := hw ▸ rfl
  rw [halloc, ← List.count_pos_iff, ← List.count_pos_iff, hpub, hfreed]
  cases hcell with
  | unallocated h₁ | idle _ _ h₁ | consumerDone _ _ h₁ => simp [h₁]
  | producerDone _ _ _ _ h₁ h₂ => simp [h₁, h₂]
  | freed _ h₁ h₂ => simp [h₁, h₂]

section ends

variable {p : ℕ} {v : ProducerContext α (PromiseException ε)}

/-- The deleter of the producer end alone: no result may wait for the state. -/
theorem Core.reset (h : Core pe ce m) (hp : pe p = [id]) (hr : ¬ Retrieved ce id) :
    Core (update pe p []) ce (m.completeProducer id) := by
  obtain ⟨⟨st, hst, hidle⟩, -⟩ := h.unset (held_of_eq_singleton hp)
  have hsame : m.states id = some { st with producer := .idle } := by
    rw [hst, ← hidle]
  exact h.complete hp hst sameBut_refl hsame fun h => absurd h hr

/-- `break_task_if_needed`. -/
theorem Core.broken (h : Core pe ce m) (hp : pe p = [id]) : Core (update pe p []) ce
    ((m.build id ResultPromises.brokenTask).completeProducer id) := by
  obtain ⟨⟨st, hst, hidle⟩, hset, -⟩ := h.unset (held_of_eq_singleton hp)
  rw [build_eq hst hidle]
  refine h.complete hp hst sameBut_set (update_self ..) fun _ => ⟨?_, ?_⟩
  · intro hv
    cases hv
  · exact (congrArg (Option.getD · ResultPromises.brokenTask) hset).symm

/-- `set_result`, `set_exception` and `set_from_function`. -/
theorem Core.store (h : Core pe ce m) (hp : pe p = [id]) (hv : v ≠ .idle) :
    Core (update pe p []) ce (((m.build id v).record id v).completeProducer id) := by
  obtain ⟨⟨st, hst, hidle⟩, -⟩ := h.unset (held_of_eq_singleton hp)
  rw [build_eq hst hidle]
  refine h.complete hp hst sameBut_set.record (update_self ..) fun _ => ⟨hv, ?_⟩
  simp [record]

end ends

/-! ### The consumer -/

/-- A promise or a result gives up the consumer end of `id`. -/
theorem Core.consume {q : ℕ ⊕ ℕ} (h : Core pe ce m) (hq : ce q = [id]) :
    Core pe (update ce q []) (m.completeConsumer id) := by
  obtain ⟨hplaced, hheld⟩ := h.consumers.clear q
  have hid : Held ce id := held_of_eq_singleton hq
  have hgone : ¬ Held (update ce q []) id := fun hi => ((hheld id).1 hi).2 (by simp [hq])
  have hback : ∀ {j}, Retrieved (update ce q []) j → Retrieved ce j := by
    rintro j ⟨r, hr⟩
    by_cases hrq : Sum.inr r = q
    · rw [hrq, update_self] at hr
      cases hr
    · rw [update_of_ne hrq] at hr
      exact ⟨r, hr⟩
  -- the other states keep their ends, so it is enough to look at `id`
  suffices hspec : (m.completeConsumer id).failed = false ∧
      (∀ j, j ≠ id → (m.completeConsumer id).view j = m.view j) ∧
      CellOk (Held pe id) False False ((m.completeConsumer id).view id) by
    obtain ⟨hfail, hother, hcell⟩ := hspec
    refine ⟨h.producers, hplaced, fun j => ?_, hfail⟩
    by_cases hj : j = id
    · subst hj
      refine hcell.congr Iff.rfl (iff_false_intro hgone) ?_
      rintro ⟨r, hr⟩
      exact absurd ⟨.inr r, hr⟩ hgone
    · rw [hother j hj]
      have hne : j ∉ ce q := by simpa [hq] using hj
      exact (h.cell j).congr Iff.rfl ((hheld j).trans (and_iff_left hne)) fun hr => .inl (hback hr)
  have hcell := h.cell id
  generalize hw : m.view id = w at hcell
  have hstate : m.states id = w.state := hw ▸ rfl
  unfold completeConsumer
  rw [hstate]
  cases hcell with
  | unallocated _ h₂ | consumerDone _ _ _ h₂ | freed _ _ h₂ => exact absurd hid h₂
  | idle c d h₁ =>
    refine ⟨by simp [check, set, h.failed], fun j hj => sameBut_set.view hj, ?_⟩
    have hview : (m.set id (some ⟨.consumerDone, c, .idle, d⟩)).view id = { m.view id with
        state := some ⟨.consumerDone, c, .idle, d⟩ } := by
      simp [view, set]
    refine (congrArg (CellOk _ _ _) (hview.trans ?_)).mpr (.consumerDone c d h₁ not_false)
    rw [hw]
  | producerDone _ _ _ set h₁ =>
    refine ⟨by simp [deleteSelf, ResultMemory.set, h.failed], fun j hj => view_deleteSelf_of_ne hj,
      ?_⟩
    have hfreed : m.freed.count id = 0 := congrArg CellView.freed hw
    have hview : (m.deleteSelf id).view id = ⟨none, true, 1, 1, set⟩ := by
      rw [view_deleteSelf, hw, hfreed]
    refine (congrArg (CellOk _ _ _) hview).mpr (.freed set h₁ not_false)

/-! ### Moves and allocation -/

/-- Ends that only change their holders.  A result may take an end from a promise that has not been
set. -/
theorem Core.transfer (h : Core pe ce m) (hpe : Placed pe') (hce : Placed ce')
    (hp : ∀ j, Held pe' j ↔ Held pe j) (hc : ∀ j, Held ce' j ↔ Held ce j)
    (hr : ∀ j, Retrieved ce' j → Retrieved ce j ∨ Held pe j) : Core pe' ce' m :=
  ⟨hpe, hce, fun j => (h.cell j).congr (hp j) (hc j) (hr j), h.failed⟩

/-- A promise takes over both ends of another one. -/
theorem Core.move {p q : ℕ} (h : Core pe ce m) (hpq : p ≠ q) (hp : pe p = [])
    (hc : ce (.inl p) = []) :
    Core (update (update pe p (pe q)) q [])
      (update (update ce (.inl p) (ce (.inl q))) (.inl q) []) m := by
  obtain ⟨hpe, hheldp⟩ := h.producers.transfer hpq hp
  obtain ⟨hce, hheldc⟩ := h.consumers.transfer (Sum.inl_injective.ne hpq) hc
  refine h.transfer hpe hce hheldp hheldc ?_
  rintro j ⟨r, hr⟩
  exact .inl ⟨r, hr⟩

/-- A result takes over the end of another result, or of a promise whose state has not been set. -/
theorem Core.retrieve {q : ℕ ⊕ ℕ} {r : ℕ} (h : Core pe ce m) (hrq : .inr r ≠ q)
    (hr : ce (.inr r) = []) (hq : ∀ j ∈ ce q, Retrieved ce j ∨ Held pe j) :
    Core pe (update (update ce (.inr r) (ce q)) q []) m := by
  obtain ⟨hce, hheld⟩ := h.consumers.transfer hrq hr
  refine h.transfer h.producers hce (fun _ => Iff.rfl) hheld ?_
  rintro j ⟨t, ht⟩
  by_cases htq : .inr t = q
  · rw [htq, update_self] at ht
    cases ht
  rw [update_of_ne htq] at ht
  by_cases htr : t = r
  · subst htr
    rw [update_self] at ht
    exact hq j ht
  · rw [update_of_ne (Sum.inr_injective.ne htr)] at ht
    exact .inl ⟨t, ht⟩

/-- A new promise holds both ends of a new state. -/
theorem Core.allocate {p : ℕ} (h : Core pe ce m) (hp : pe p = []) (hc : ce (.inl p) = []) :
    Core (update pe p [m.allocated]) (update ce (.inl p) [m.allocated])
      m.allocate := by
  have hcell := h.cell m.allocated
  generalize hw : m.view m.allocated = w at hcell
  have halloc : w.allocated = false := by
    rw [← hw]
    exact Bool.eq_false_iff.2 fun hlt => absurd (Nat.blt_eq.mp hlt) (lt_irrefl _)
  -- nobody holds an end of the new state, and nothing is known about it
  have hfresh : ¬ Held pe m.allocated ∧ ¬ Held ce m.allocated ∧ w = ⟨none, false, 0, 0, none⟩ := by
    cases hcell with
    | unallocated h₁ h₂ => exact ⟨h₁, h₂, rfl⟩
    | _ => cases halloc
  obtain ⟨hnp, hnc, rfl⟩ := hfresh
  have hpe : (update pe p [m.allocated] p).Perm ([m.allocated] ++ pe p) := by simp [hp]
  have hce : (update ce (.inl p) [m.allocated] (.inl p)).Perm
      ([m.allocated] ++ ce (.inl p)) := by simp [hc]
  have hpo : ∀ r, r ≠ p → update pe p [m.allocated] r = pe r :=
    fun r hr => update_of_ne hr _ _
  have hco : ∀ r, r ≠ .inl p → update ce (.inl p) [m.allocated] r = ce r :=
    fun r hr => update_of_ne hr _ _
  have hheldp : ∀ j, Held (update pe p [m.allocated]) j ↔ Held pe j ∨ j ∈ [m.allocated] :=
    fun j => held_append hpe hpo
  have hheldc : ∀ j, Held (update ce (.inl p) [m.allocated]) j ↔
      Held ce j ∨ j ∈ [m.allocated] := fun j => held_append hce hco
  constructor
  case producers => exact h.producers.insert hnp hpe hpo
  case consumers => exact h.consumers.insert hnc hce hco
  case failed => exact h.failed
  case cell =>
    intro j
    by_cases hj : j = m.allocated
    · subst hj
      have hview : m.allocate.view m.allocated = ⟨some .initial, true, 0, 0, none⟩ := by
        have hpub : m.published.count m.allocated = 0 := congrArg CellView.published hw
        have hfreed : m.freed.count m.allocated = 0 := congrArg CellView.freed hw
        have hset : m.sets m.allocated = none := congrArg CellView.set hw
        simp [view, ResultMemory.allocate, set, hpub, hfreed, hset]
      rw [hview]
      exact .idle _ _ ((hheldp _).2 (.inr (by simp))) ((hheldc _).2 (.inr (by simp)))
    · have hview : m.allocate.view j = m.view j := by
        have hlt : j.blt (m.allocated + 1) = j.blt m.allocated := by
          rw [Bool.eq_iff_iff, Nat.blt_eq, Nat.blt_eq]
          omega
        simp [view, ResultMemory.allocate, set, update_of_ne hj, hlt]
      rw [hview]
      have hmem : j ∉ [m.allocated] := by simpa using hj
      refine (h.cell j).congr ((hheldp j).trans (or_iff_left hmem))
        ((hheldc j).trans (or_iff_left hmem)) ?_
      rintro ⟨r, hr⟩
      exact .inl ⟨r, hr⟩

end ResultMemory
end Concurrencpp
