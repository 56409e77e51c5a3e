import Concurrencpp.Placement
import Concurrencpp.Executors.ThreadExecutor

/-!
# Every thread is joined once

The threads that have retired and have not been joined form a chain: each of them joins the one that
retired before it, and the last one is in `m_last_retired`.  Only the first of the chain can have
finished, so the threads are joined in the order in which they retire, and `shutdown` joins the
last.

* `ThreadExecutor.content`: the lists in which the handle of a thread can be, and the record of
  those that have been joined.
* `ThreadExecutor.Waits`: who waits for whom, in a join or for the mutex that `shutdown` holds.
* `ThreadExecutor.Ok s pending`: the invariant, with the chain `pending`.
-/

namespace Concurrencpp

open Interleaving
open Placement
open Function (forall_update_iff)

namespace ThreadExecutor

variable {τ : Type} {s s' : ThreadExecutor τ} {i j : ℕ} {pending : List ℕ} {pc : RetirePc τ}

/-- Where the handle of a thread is. -/
inductive HandlePlace
  | workers
  | lastRetired
  | retiring (i : ℕ)
  | joined

def content (s : ThreadExecutor τ) : HandlePlace → List ℕ
  | .workers => s.workers
  | .lastRetired => s.lastRetired
  | .retiring i => (s.threads i).lastRetired
  | .joined => s.joined

/-- A party waits for another: a thread or `shutdown` (`none`) for a thread that it joins, and a
thread that needs the mutex for the `shutdown` that holds it. -/
inductive Waits (s : ThreadExecutor τ) : Option ℕ → Option ℕ → Prop
  | join {i j : ℕ} (hj : j ∈ (s.threads i).lastRetired) : Waits s (some i) (some j)
  | shutdown {j : ℕ} (hs : s.shutdown = .joining) (hj : j ∈ s.lastRetired) : Waits s none (some j)
  | lock {i : ℕ} (hs : s.shutdown = .joining) (hi : (s.threads i).busy = true) :
      Waits s (some i) none

/-- The invariant.  `pending` are the threads that have retired and have not been joined. -/
structure Ok (s : ThreadExecutor τ) (pending : List ℕ) : Prop where
  placed : Placed s.content
  held : ∀ i, Held s.content i ↔ i < s.elements
  busy : ∀ i, i ∈ s.workers ↔ (s.threads i).busy = true
  nodup : pending.Nodup
  mem : ∀ i l, s.threads i = .join l → i ∈ pending
  retired : ∀ i ∈ pending, i < s.elements ∧ (s.threads i).busy = false
  head : ∀ i ∈ pending.head?, s.threads i = .join [] ∨ s.threads i = .finished
  chain : pending.IsChain fun j i => s.threads i = .join [j]
  last : s.lastRetired = pending.getLast?.toList
  shut : s.shutdown = .joining ∨ s.shutdown = .done → s.abort = true ∧ s.workers = []
  waiting : s.shutdown = .waiting → s.abort = true
  done : s.shutdown = .done → pending = []
  terminated : s.terminated = false

/-! ### The chain -/

/-- A thread of the chain is its first, or joins the one before it. -/
theorem Ok.split (h : s.Ok pending) (hi : i ∈ pending) :
    pending.head? = some i ∨ ∃ a j b, pending = a ++ j :: i :: b ∧ s.threads i = .join [j] := by
  obtain ⟨a, b, hab⟩ := List.append_of_mem hi
  rcases List.eq_nil_or_concat a with rfl | ⟨a, j, rfl⟩
  · left
    rw [hab]
    rfl
  · right
    rw [List.concat_eq_append, List.append_assoc, List.singleton_append] at hab
    exact ⟨a, j, b, hab, List.isChain_iff_forall_rel_of_append_cons_cons.1 h.chain hab⟩

/-- A thread that joins another is right behind it in the chain. -/
theorem Ok.join_split {l : List ℕ} (h : s.Ok pending) (hi : s.threads i = .join l) (hj : j ∈ l) :
    l = [j] ∧ ∃ a b, pending = a ++ j :: i :: b := by
  rcases h.split (h.mem i l hi) with hhead | ⟨a, k, b, hab, hk⟩
  · rcases h.head i hhead with hnil | hfin
    · cases hi.symm.trans hnil
      cases hj
    · cases hi.symm.trans hfin
  · cases hi.symm.trans hk
    rw [List.mem_singleton.1 hj]
    exact ⟨rfl, a, b, hab⟩

/-- A thread of the chain that has finished is its first. -/
theorem Ok.finished_head (h : s.Ok pending) (hi : i ∈ pending) (hfin : s.threads i = .finished) :
    pending.head? = some i := by
  rcases h.split hi with hhead | ⟨a, j, b, -, hj⟩
  · exact hhead
  · cases hfin.symm.trans hj

theorem eq_finished (h : pc.isFinished = true) : pc = .finished := by
  cases pc with
  | finished => rfl
  | _ => cases h

/-! ### Small steps -/

@[simp] theorem setThread_self : (s.setThread i pc).threads i = pc := Function.update_self ..

theorem setThread_of_ne (hj : j ≠ i) : (s.setThread i pc).threads j = s.threads j :=
  Function.update_of_ne hj ..

theorem lastRetired_of_busy (hpc : pc.busy = true) : pc.lastRetired = [] := by
  cases pc with
  | join => cases hpc
  | _ => rfl

/-- The threads of the chain are not touched by a step of another thread. -/
theorem Ok.setThread_pending (h : s.Ok pending) (hi : i ∉ pending) (pc : RetirePc τ) :
    (∀ k ∈ pending, (s.setThread i pc).threads k = s.threads k) ∧
    (∀ k ∈ pending.head?, (s.setThread i pc).threads k = .join [] ∨
      (s.setThread i pc).threads k = .finished) ∧
    pending.IsChain fun j k => (s.setThread i pc).threads k = .join [j] := by
  have hsame : ∀ k ∈ pending, (s.setThread i pc).threads k = s.threads k :=
    fun k hk => setThread_of_ne fun hki => hi (hki ▸ hk)
  refine ⟨hsame, fun k hk => ?_, List.IsChain.imp_of_mem_imp ?_ h.chain⟩
  · rw [hsame k (List.mem_of_mem_head? hk)]
    exact h.head k hk
  · intro j k _ hk hjk
    rw [hsame k hk]
    exact hjk

/-- A thread goes to a point where it joins nobody and has the same handles: it moves on before it
retires, or it is the first of the chain and finishes. -/
theorem Ok.setThread (h : s.Ok pending) (hlocal : pc.lastRetired = (s.threads i).lastRetired)
    (hbusy : pc.busy = (s.threads i).busy) (hjoin : ∀ l, pc ≠ .join l)
    (hpending : i ∈ pending → s.threads i = .join [] ∧ pc = .finished) :
    (s.setThread i pc).Ok pending := by
  have hthreads : ∀ j, (s.setThread i pc).threads j = s.threads j ∨
      j = i ∧ (s.setThread i pc).threads j = pc := by
    intro j
    by_cases hj : j = i
    · subst hj
      exact .inr ⟨rfl, setThread_self⟩
    · exact .inl (setThread_of_ne hj)
  have hcontent : (s.setThread i pc).content = s.content := by
    funext p
    cases p with
    | retiring j =>
      exact (forall_update_iff s.threads fun j pc => pc.lastRetired = (s.threads j).lastRetired).2
        ⟨hlocal, fun _ _ => rfl⟩ j
    | _ => rfl
  have hbusy' : ∀ j, ((s.setThread i pc).threads j).busy = (s.threads j).busy :=
    (forall_update_iff s.threads fun j pc => pc.busy = (s.threads j).busy).2 ⟨hbusy, fun _ _ => rfl⟩
  refine { h with
    placed := hcontent ▸ h.placed
    held := hcontent ▸ h.held
    busy := fun j => (hbusy' j).symm ▸ h.busy j
    mem := ?mem
    retired := fun j hj => (hbusy' j).symm ▸ h.retired j hj
    head := ?head
    chain := ?chain }
  case mem =>
    exact (forall_update_iff s.threads fun j pc => ∀ l, pc = .join l → j ∈ pending).2
      ⟨fun l hl => absurd hl (hjoin l), fun j _ => h.mem j⟩
  case head =>
    intro j hj
    rcases hthreads j with hsame | ⟨rfl, hpc⟩
    · rw [hsame]
      exact h.head j hj
    · exact .inr (hpc.trans (hpending (List.mem_of_mem_head? hj)).2)
  case chain =>
    refine List.IsChain.imp_of_mem_imp ?_ h.chain
    intro j k _ hk hjk
    rcases hthreads k with hsame | ⟨rfl, -⟩
    · exact hsame.trans hjk
    · cases (hpending hk).1.symm.trans hjk

theorem Ok.goto (h : s.Ok pending) (hi : (s.threads i).busy = true) (hpc : pc.busy = true) :
    (s.setThread i pc).Ok pending := by
  refine h.setThread ?_ (hpc.trans hi.symm) ?_ fun hmem => ?_
  · rw [lastRetired_of_busy hi, lastRetired_of_busy hpc]
  · rintro l rfl
    cases hpc
  · cases hi.symm.trans (h.retired i hmem).2

/-! ### Retirement -/

theorem Ok.retireWorker (h : s.Ok pending) (hi : s.threads i = .retire) :
    (s.retireWorker i).Ok (pending ++ [i]) := by
  have hbusy : (s.threads i).busy = true := by rw [hi]; rfl
  have hworker : i ∈ s.workers := (h.busy i).2 hbusy
  have hnot : i ∉ pending := fun hmem => by cases hbusy.symm.trans (h.retired i hmem).2
  have hidle : ¬ (s.shutdown = .joining ∨ s.shutdown = .done) := by
    intro hshut
    rw [(h.shut hshut).2] at hworker
    cases hworker
  have hnodup : s.workers.Nodup := h.placed.nodup .workers
  obtain ⟨hsame, hhead, hchain⟩ := h.setThread_pending hnot (.join s.lastRetired)
  -- the handle of `i` goes to `m_last_retired`, and what was there to the thread `i`
  have hother : ∀ p, p ∉ [HandlePlace.workers, .lastRetired, .retiring i] →
      (s.retireWorker i).content p = s.content p := by
    intro p hp
    cases p with
    | retiring k =>
      have hk : k ≠ i := by
        rintro rfl
        exact hp (by simp)
      exact congrArg RetirePc.lastRetired (setThread_of_ne hk)
    | workers | lastRetired => exact absurd (by simp) hp
    | joined => rfl
  have hperm :
      ([HandlePlace.workers, .lastRetired, .retiring i].flatMap (s.retireWorker i).content).Perm
      ([HandlePlace.workers, .lastRetired, .retiring i].flatMap s.content) := by
    have hlocal : ((s.retireWorker i).threads i).lastRetired = s.lastRetired :=
      congrArg RetirePc.lastRetired setThread_self
    simp only [List.flatMap_cons, List.flatMap_nil, content, hlocal, lastRetired_of_busy hbusy,
      List.append_nil]
    have hback : (s.workers.erase i ++ (i :: s.lastRetired)).Perm
        (i :: s.workers.erase i ++ s.lastRetired) :=
      List.perm_middle
    exact hback.trans (List.Perm.append_right _ (List.perm_cons_erase hworker).symm)
  obtain ⟨hplaced, hheld⟩ := h.placed.moved _ (by simp) hperm hother
  refine { h with
    placed := hplaced
    held := fun k => (hheld k).trans (h.held k)
    busy := ?busy
    nodup := ?nodup
    mem := ?mem
    retired := ?retired
    head := ?first
    chain := ?chain
    last := ?last
    shut := fun hshut => absurd hshut hidle
    done := fun hdone => absurd (.inr hdone) hidle }
  case busy =>
    refine (forall_update_iff s.threads fun k pc => k ∈ s.workers.erase i ↔ pc.busy = true).2
      ⟨?_, ?_⟩
    · exact ⟨fun hmem => absurd hmem hnodup.not_mem_erase, Bool.noConfusion⟩
    · exact fun k hk => (List.mem_erase_of_ne hk).trans (h.busy k)
  case nodup =>
    refine h.nodup.append (List.nodup_singleton i) ?_
    intro k hk hki
    exact hnot (List.mem_singleton.1 hki ▸ hk)
  case mem =>
    exact (forall_update_iff s.threads fun k pc => ∀ l, pc = .join l → k ∈ pending ++ [i]).2
      ⟨fun _ _ => by simp, fun k _ l hk => List.mem_append_left _ (h.mem k l hk)⟩
  case retired =>
    intro k hk
    rcases List.mem_append.1 hk with hk | hk
    · have hthread : (s.retireWorker i).threads k = s.threads k := hsame k hk
      rw [hthread]
      exact h.retired k hk
    · rw [List.mem_singleton.1 hk]
      exact ⟨(h.held i).1 ⟨.workers, hworker⟩, congrArg RetirePc.busy setThread_self⟩
  case first =>
    intro k hk
    cases hp : pending with
    | nil =>
      rw [hp] at hk
      cases hk
      left
      have hlast : s.lastRetired = [] := by rw [h.last, hp]; rfl
      exact setThread_self.trans (by rw [hlast])
    | cons =>
      rw [hp] at hk
      refine hhead k ?_
      rw [hp]
      exact hk
  case chain =>
    refine hchain.append (List.isChain_singleton i) ?_
    intro j hj k hk
    cases hk
    refine setThread_self.trans ?_
    rw [h.last, Option.mem_def.1 hj]
    rfl
  case last => simp [ThreadExecutor.retireWorker]

/-! ### Joins -/

/-- The first thread of the chain, which had nobody to join, has finished. -/
theorem Ok.leave (h : s.Ok pending) (hi : s.threads i = .join []) :
    (s.setThread i .finished).Ok pending :=
  h.setThread (by rw [hi]; rfl) (by rw [hi]; rfl) (fun l hl => by cases hl) fun _ => ⟨hi, rfl⟩

/-- A handle goes to the record of the joined threads. -/
theorem placed_join {p : HandlePlace} (s' : ThreadExecutor τ) (h : Placed s.content)
    (hp : s.content p = [j]) (hp' : s'.content p = []) (hjoined : s'.joined = s.joined ++ [j])
    (hne : p ≠ .joined) (hother : ∀ q, q ≠ p → q ≠ .joined → s'.content q = s.content q) :
    Placed s'.content ∧ ∀ i, Held s'.content i ↔ Held s.content i := by
  have hrest : ∀ q, q ∉ [p, HandlePlace.joined] → s'.content q = s.content q := by
    intro q hq
    simp only [List.mem_cons, List.not_mem_nil, or_false, not_or] at hq
    exact hother q hq.1 hq.2
  have hperm : ([p, HandlePlace.joined].flatMap s'.content).Perm
      ([p, HandlePlace.joined].flatMap s.content) := by
    simp only [List.flatMap_cons, List.flatMap_nil, hp, hp', List.append_nil, List.nil_append]
    change s'.joined.Perm ([j] ++ s.joined)
    rw [hjoined]
    exact List.perm_append_comm
  exact h.moved _ (by simpa using hne) hperm hrest

/-- A thread joins the first of the chain; it is the next. -/
theorem Ok.join {rest : List ℕ} (h : s.Ok pending) (hi : s.threads i = .join (j :: rest))
    (hj : s.threads j = .finished) :
    ∃ pending', ((s.join j rest).setThread i .finished).Ok pending' := by
  obtain ⟨hrest, a, b, rfl⟩ := h.join_split hi List.mem_cons_self
  cases hrest
  have hhead : (a ++ j :: i :: b).head? = some j := h.finished_head (by simp) hj
  -- `j` is the first of the chain and `i` the second
  obtain rfl : a = [] := by
    cases a with
    | nil => rfl
    | cons =>
      cases hhead
      simpa using h.nodup
  have h : s.Ok (j :: i :: b) := h
  have hnodup : (i :: b).Nodup := (List.nodup_cons.1 h.nodup).2
  have hne : ∀ k ∈ b, k ≠ i := fun k hk hki => (List.nodup_cons.1 hnodup).1 (hki ▸ hk)
  have hsame : ∀ k, k ≠ i → ((s.join j []).setThread i .finished).threads k = s.threads k :=
    fun k hk => setThread_of_ne hk
  have hself : ((s.join j []).setThread i .finished).threads i = .finished := setThread_self
  have hplaced := placed_join ((s.join j []).setThread i .finished) (p := .retiring i) h.placed
    (by rw [content, hi]; rfl) (by rw [content, hself]; rfl) rfl HandlePlace.noConfusion
    (by
      intro q hq hq'
      cases q with
      | retiring k =>
        have hk : k ≠ i := fun hki => hq (hki ▸ rfl)
        exact congrArg RetirePc.lastRetired (hsame k hk)
      | workers | lastRetired => rfl
      | joined => exact absurd rfl hq')
  refine ⟨i :: b, ?_⟩
  constructor
  case placed => exact hplaced.1
  case held => exact fun k => (hplaced.2 k).trans (h.held k)
  case busy =>
    exact (forall_update_iff s.threads fun k pc => k ∈ s.workers ↔ pc.busy = true).2
      ⟨(h.busy i).trans (by rw [hi]; rfl), fun k _ => h.busy k⟩
  case nodup => exact hnodup
  case mem =>
    refine (forall_update_iff s.threads fun k pc => ∀ l, pc = .join l → k ∈ i :: b).2
      ⟨fun _ _ => List.mem_cons_self, fun k _ l hk => ?_⟩
    rcases List.mem_cons.1 (h.mem k l hk) with rfl | hkp
    · cases hj.symm.trans hk
    · exact hkp
  case retired =>
    intro k hk
    obtain ⟨hlt, hbusy⟩ := h.retired k (List.mem_cons_of_mem _ hk)
    refine ⟨hlt, ?_⟩
    rcases List.mem_cons.1 hk with rfl | hk
    · rw [hself]
      rfl
    · rw [hsame k (hne k hk)]
      exact hbusy
  case head =>
    intro k hk
    cases hk
    exact .inr hself
  case chain =>
    have htail : (i :: b).IsChain fun j k => s.threads k = .join [j] := h.chain.tail
    refine List.IsChain.imp_of_mem_tail_imp ?_ htail
    intro k l _ hl hkl
    rw [hsame l (hne l hl)]
    exact hkl
  case last => exact h.last
  case shut => exact h.shut
  case waiting => exact h.waiting
  case done => exact fun hdone => by cases h.done hdone
  case terminated => exact (Bool.or_false _).trans h.terminated

/-! ### Shutdown -/

/-- `shutdown` joins the last thread, when all others have been joined. -/
theorem Ok.shutdownJoin {rest : List ℕ} (h : s.Ok pending) (hs : s.shutdown = .joining)
    (hlast : s.lastRetired = j :: rest) (hj : s.threads j = .finished) :
    Ok { s.join j rest with
      lastRetired := []
      shutdown := .done } [] := by
  obtain ⟨hget, rfl⟩ : pending.getLast? = some j ∧ rest = [] := by
    have hl := hlast.symm.trans h.last
    cases hp : pending.getLast? <;> rw [hp] at hl <;> cases hl
    exact ⟨rfl, rfl⟩
  have hhead : pending.head? = some j := h.finished_head (List.mem_of_getLast? hget) hj
  -- the chain has `j` at both ends
  obtain rfl : pending = [j] := by
    cases pending with
    | nil => cases hhead
    | cons _ b =>
      cases hhead
      cases b with
      | nil => rfl
      | cons =>
        rw [List.getLast?_cons_cons] at hget
        exact absurd (List.mem_of_getLast? hget) (List.nodup_cons.1 h.nodup).1
  have hplaced := placed_join { s.join j [] with
      lastRetired := []
      shutdown := .done } (p := .lastRetired) h.placed hlast rfl rfl HandlePlace.noConfusion
    (by
      intro q hq hq'
      cases q with
      | lastRetired => exact absurd rfl hq
      | joined => exact absurd rfl hq'
      | workers | retiring => rfl)
  have hnone : ∀ k l, s.threads k ≠ .join l := by
    intro k l hk
    obtain rfl := List.mem_singleton.1 (h.mem k l hk)
    cases hj.symm.trans hk
  have hshut := h.shut (.inl hs)
  constructor
  case placed => exact hplaced.1
  case held => exact fun k => (hplaced.2 k).trans (h.held k)
  case busy => exact h.busy
  case nodup => exact List.nodup_nil
  case mem => exact fun k l hk => absurd hk (hnone k l)
  case retired => exact fun k hk => by cases hk
  case head => exact fun k hk => by cases hk
  case chain => exact List.isChain_nil
  case last => rfl
  case shut => exact fun _ => hshut
  case waiting => exact fun hw => by cases hw
  case done => exact fun _ => rfl
  case terminated => exact (Bool.or_false _).trans h.terminated

theorem Ok.shutdownStep (h : s.Ok pending) (hstep : s.shutdownStep = some s') :
    ∃ pending', s'.Ok pending' := by
  unfold ThreadExecutor.shutdownStep at hstep
  cases hpc : s.shutdown <;> simp only [hpc] at hstep
  case before =>
    cases hstep
    refine ⟨pending, { h with shut := ?_, waiting := ?_, done := ?_ }⟩
    · rintro (hs | hs) <;> cases hs
    · exact fun hs => by cases hs
    · exact fun hs => by cases hs
  case lock =>
    cases hstep
    refine ⟨pending, { h with shut := ?_, waiting := ?_, done := ?_ }⟩
    · rintro (hs | hs) <;> cases hs
    · exact fun _ => rfl
    · exact fun hs => by cases hs
  case waiting =>
    split_ifs at hstep with hworkers hlast <;> cases hstep
    · have hpending : pending = [] := by
        rw [h.last] at hlast
        cases hp : pending.getLast? with
        | none => exact List.getLast?_eq_none_iff.1 hp
        | some =>
          rw [hp] at hlast
          cases hlast
      refine ⟨pending, { h with shut := ?_, waiting := ?_, done := ?_ }⟩
      · exact fun _ => ⟨h.waiting hpc, hworkers⟩
      · exact fun hs => by cases hs
      · exact fun _ => hpending
    · refine ⟨pending, { h with shut := ?_, waiting := ?_, done := ?_ }⟩
      · exact fun _ => ⟨h.waiting hpc, hworkers⟩
      · exact fun hs => by cases hs
      · exact fun hs => by cases hs
  case joining =>
    split at hstep
    next => cases hstep
    next j rest hlast =>
      split_ifs at hstep with hfin
      cases hstep
      exact ⟨[], h.shutdownJoin hpc hlast (eq_finished hfin)⟩
  case done => cases hstep

/-! ### New threads -/

theorem Ok.enqueueImpl {task : τ} (h : s.Ok pending) (habort : s.abort = false) :
    (s.enqueueImpl task).Ok pending := by
  have hnew : ¬ Held s.content s.elements := fun hheld => lt_irrefl _ ((h.held _).1 hheld)
  have hnot : s.elements ∉ pending := fun hmem => lt_irrefl _ (h.retired _ hmem).1
  have hlocal : (s.threads s.elements).lastRetired = [] := by
    cases hpc : s.threads s.elements with
    | join l => exact absurd (h.mem _ l hpc) hnot
    | _ => rfl
  have hself : (s.enqueueImpl task).threads s.elements = .task task := setThread_self
  have hsame : ∀ k, k ≠ s.elements → (s.enqueueImpl task).threads k = s.threads k :=
    fun k hk => setThread_of_ne hk
  have hother : ∀ p, p ≠ HandlePlace.workers → (s.enqueueImpl task).content p = s.content p := by
    intro p hp
    cases p with
    | workers => exact absurd rfl hp
    | lastRetired | joined => rfl
    | retiring k =>
      by_cases hk : k = s.elements
      · subst hk
        rw [content, content, hself, hlocal]
        rfl
      · exact congrArg RetirePc.lastRetired (hsame k hk)
  obtain ⟨hpending, hhead, hchain⟩ := h.setThread_pending hnot (.task task)
  refine { h with
    placed := h.placed.insert hnew (List.Perm.refl _) hother
    held := ?held
    busy := ?busy
    mem := ?mem
    retired := ?retired
    head := hhead
    chain := hchain
    shut := fun hshut => by cases habort.symm.trans (h.shut hshut).1 }
  case held =>
    intro k
    have happend : Held (s.enqueueImpl task).content k ↔ Held s.content k ∨ k ∈ [s.elements] :=
      held_append (p := HandlePlace.workers) (List.Perm.refl _) hother
    rw [happend, h.held, List.mem_singleton]
    exact Nat.lt_succ_iff_lt_or_eq.symm
  case busy =>
    refine (forall_update_iff s.threads fun k pc => k ∈ s.elements :: s.workers ↔ pc.busy = true).2
      ⟨⟨fun _ => rfl, fun _ => List.mem_cons_self⟩, fun k hk => ?_⟩
    rw [List.mem_cons, or_iff_right hk]
    exact h.busy k
  case mem =>
    exact (forall_update_iff s.threads fun k pc => ∀ l, pc = .join l → k ∈ pending).2
      ⟨nofun, fun k _ => h.mem k⟩
  case retired =>
    intro k hk
    have hthread : (s.enqueueImpl task).threads k = s.threads k := hpending k hk
    rw [hthread]
    exact ⟨Nat.lt_succ_of_lt (h.retired k hk).1, (h.retired k hk).2⟩

theorem Ok.enqueueAll {tasks : List τ} {available : ℕ} (h : s.Ok pending) (habort : s.abort = false)
    (hlen : tasks.length ≤ available) : (s.enqueueAll tasks available).Ok pending := by
  induction tasks generalizing s available with
  | nil =>
    cases available <;> exact h
  | cons _ _ ih =>
    cases available with
    | zero => cases hlen
    | succ => exact ih (h.enqueueImpl habort) habort (Nat.le_of_succ_le_succ hlen)

/-! ### All runs -/

theorem Ok.step {m : RetireMove τ} (h : s.Ok pending) (hm : Starts s m)
    (hstep : s.step m = some s') : ∃ pending', s'.Ok pending' := by
  cases m with
  | enqueue =>
    simp only [ThreadExecutor.step] at hstep
    split_ifs at hstep
    cases hstep
    unfold ThreadExecutor.enqueue
    split_ifs with habort
    · exact ⟨pending, h⟩
    · exact ⟨pending, h.enqueueAll (Bool.eq_false_iff.2 habort) hm⟩
  | thread i =>
    simp only [ThreadExecutor.step, threadStep] at hstep
    split at hstep
    next => cases hstep
    next => cases hstep
    next task hpc =>
      cases hstep
      have hok : (s.setThread i .running).Ok pending := h.goto (by rw [hpc]; rfl) rfl
      exact ⟨pending, { hok with }⟩
    next hpc =>
      cases hstep
      exact ⟨pending, h.goto (by rw [hpc]; rfl) rfl⟩
    next hpc =>
      split_ifs at hstep
      cases hstep
      exact ⟨_, h.retireWorker hpc⟩
    next hpc =>
      cases hstep
      exact ⟨pending, h.leave hpc⟩
    next j rest hpc =>
      split_ifs at hstep with hfin
      cases hstep
      exact h.join hpc (eq_finished hfin)
  | shutdown => exact h.shutdownStep hstep

theorem ok_initial : (initial : ThreadExecutor τ).Ok [] where
  placed := .of_eq_nil fun p => by cases p <;> rfl
  held := by
    intro k
    refine ⟨?_, fun hk => absurd hk (Nat.not_lt_zero k)⟩
    rintro ⟨p, hp⟩
    cases p <;> cases hp
  busy := fun k => ⟨fun hk => (by cases hk), fun hk => (by cases hk)⟩
  nodup := List.nodup_nil
  mem := fun k l hk => by cases hk
  retired := fun k hk => by cases hk
  head := fun k hk => by cases hk
  chain := List.isChain_nil
  last := rfl
  shut := by rintro (hs | hs) <;> cases hs
  waiting := fun hs => by cases hs
  done := fun hs => by cases hs
  terminated := rfl

theorem ok_of_reach (h : Reach step IsInitial Starts s) : ∃ pending, s.Ok pending := by
  induction h with
  | start hs =>
    obtain rfl := hs
    exact ⟨[], ok_initial⟩
  | next _ hm hstep ih =>
    obtain ⟨pending, hok⟩ := ih
    exact hok.step hm hstep

/-- The place of a party in the chain, with `shutdown` at its end. -/
def rank (pending : List ℕ) : Option ℕ → ℕ
  | some i => pending.idxOf i
  | none => pending.length

/-- Who waits is behind the one that it waits for. -/
theorem Ok.rank_lt (h : s.Ok pending) {a b : Option ℕ} (hw : s.Waits a b) :
    rank pending b < rank pending a := by
  cases hw with
  | @join i j hj =>
    cases hpc : s.threads i with
    | join =>
      rw [hpc] at hj
      obtain ⟨-, p, q, hpq⟩ := h.join_split hpc hj
      have hnodup := h.nodup
      rw [hpq] at hnodup ⊢
      have hp : j ∉ p ∧ i ∉ p ∧ j ≠ i := by
        simp only [List.nodup_append, List.nodup_cons, List.mem_cons, not_or] at hnodup
        refine ⟨fun hj => ?_, fun hi => ?_, hnodup.2.1.1.1⟩
        · exact hnodup.2.2 j hj j (.inl rfl) rfl
        · exact hnodup.2.2 i hi i (.inr (.inl rfl)) rfl
      obtain ⟨hjp, hip, hji⟩ := hp
      simp only [rank, List.idxOf_append_of_notMem hjp, List.idxOf_append_of_notMem hip,
        List.idxOf_cons_self, List.idxOf_cons_ne _ hji]
      omega
    | _ =>
      rw [hpc] at hj
      cases hj
  | @shutdown _ _ hj =>
    rw [h.last] at hj
    exact List.idxOf_lt_length_of_mem (List.mem_of_getLast? (Option.mem_toList.1 hj))
  | @lock i hs hi =>
    have hmem := (h.busy i).2 hi
    rw [(h.shut (.inl hs)).2] at hmem
    cases hmem

theorem Ok.acyclic (h : s.Ok pending) (a : Option ℕ) : ¬ Relation.TransGen s.Waits a a := by
  have hlt : ∀ {a b}, Relation.TransGen s.Waits a b → rank pending b < rank pending a := by
    intro a b hab
    induction hab with
    | single hw => exact h.rank_lt hw
    | tail _ hw ih => exact (h.rank_lt hw).trans ih
  exact fun ha => lt_irrefl _ (hlt ha)

/-- When `shutdown` has returned, every thread has been joined. -/
theorem Ok.all_joined (h : s.Ok pending) (hs : s.shutdown = .done) :
    s.workers = [] ∧ s.lastRetired = [] ∧ ∀ i < s.elements, i ∈ s.joined := by
  have hpending := h.done hs
  have hworkers := (h.shut (.inr hs)).2
  have hlast : s.lastRetired = [] := by
    rw [h.last, hpending]
    rfl
  refine ⟨hworkers, hlast, fun i hi => ?_⟩
  obtain ⟨p, hp⟩ := (h.held i).2 hi
  cases p with
  | workers =>
    rw [content, hworkers] at hp
    cases hp
  | lastRetired =>
    rw [content, hlast] at hp
    cases hp
  | retiring k =>
    cases hpc : s.threads k with
    | join l =>
      have hk := h.mem k l hpc
      rw [hpending] at hk
      cases hk
    | _ =>
      rw [content, hpc] at hp
      cases hp
  | joined => exact hp

/-- **Every thread is joined exactly once.**  When every thread can be started, `m_last_retired` has
at most one element, and the handle of every thread is in exactly one of `m_workers`,
`m_last_retired` and the local list of one retiring thread, or it has been joined, once.  No handle
of a running thread is destroyed, no thread joins itself, nobody waits in a circle, and when
`shutdown` has returned both lists are empty and every thread has been joined. -/
theorem threads_joined_once (h : Reach step IsInitial Starts s) :
    s.lastRetired.length ≤ 1 ∧
    Placed s.content ∧ (∀ i, Held s.content i ↔ i < s.elements) ∧
    s.terminated = false ∧
    (∀ i, i ∉ (s.threads i).lastRetired) ∧
    (∀ a, ¬ Relation.TransGen s.Waits a a) ∧
    (s.shutdown = .done →
      s.workers = [] ∧ s.lastRetired = [] ∧ ∀ i < s.elements, i ∈ s.joined) := by
  obtain ⟨pending, hok⟩ := ok_of_reach h
  refine ⟨?_, hok.placed, hok.held, hok.terminated, fun i hi => ?_, hok.acyclic, hok.all_joined⟩
  · rw [hok.last]
    cases pending.getLast? with
    | none => exact Nat.zero_le 1
    | some k => exact le_refl 1
  · exact hok.acyclic (some i) (.single (.join hi))

/-- Three threads retire in another order than they were started in, the second while the first has
not been joined yet; then the executor is shut down. -/
theorem threads_joined_once_of_shutdown :
    ∃ s : ThreadExecutor ℕ, Reach step IsInitial Starts s ∧ s.shutdown = .done ∧
      s.joined = [2, 0, 1] ∧ ∀ i < s.elements, i ∈ s.joined := by
  let schedule : List (RetireMove ℕ) :=
    [.enqueue none [10, 20] 2, .thread 0, .enqueue (some 0) [30] 1, .thread 1, .thread 2, .thread 2,
      .thread 2, .thread 0, .thread 0, .thread 1, .shutdown, .shutdown, .thread 1, .shutdown,
      .thread 2, .thread 0, .thread 1, .shutdown]
  have h : Reach step IsInitial Starts _ := .lastState (by rfl) schedule
  have hdone : (lastState (restrict step Starts) initial schedule).shutdown = .done := by
    decide +kernel
  obtain ⟨-, -, -, -, -, -, hall⟩ := threads_joined_once h
  exact ⟨_, h, hdone, by decide +kernel, (hall hdone).2.2⟩

end ThreadExecutor
end Concurrencpp
