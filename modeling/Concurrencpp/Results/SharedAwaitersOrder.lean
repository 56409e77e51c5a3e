import Concurrencpp.Results.SharedAwaitersInvariant

/-!
# The awaiters of a shared result are resumed once, in order

The steps of `on_result_finished` find the chains that `Inv` describes (`inv_finishStep`), so `Inv`
holds in every run, and from any point `on_result_finished` comes to its end by its own steps
(`finishes_of_inv`).  `resumed_in_order` puts together what follows for the awaiters.
-/

namespace Concurrencpp
namespace SharedAwaiters

open Interleaving
open LinkedChain
open Function (update update_self update_of_ne)

variable {s t u : SharedAwaiters} {n : ℕ}

/-! ### The steps of `on_result_finished` -/

/-- A step that only moves `on_result_finished` on. -/
theorem inv_setFinish {pc : FinishPc} (h : Inv s)
    (hlinks : Links s.Spells s.awaiters s.pushed s.resumed pc) : Inv { s with finish := pc } :=
  ⟨fun m => (h.awaitable m).frame rfl (fun _ => rfl) Iff.rfl Iff.rfl Iff.rfl id, h.nodup, hlinks,
    h.fault⟩

/-- The exchange detaches the stack. -/
theorem inv_detach {first : Option ℕ} (h : Inv s) (hptr : s.awaiters = .list first) :
    Inv { s with awaiters := .ready, finish := .reverse first none } := by
  obtain ⟨hresumed, hspells, -⟩ := h.stack hptr
  refine ⟨fun m => (h.awaitable m).frame rfl (fun _ => rfl) Iff.rfl Iff.rfl Iff.rfl fun _ => rfl,
    h.nodup, ⟨hresumed, rfl, s.pushed.reverse, [], by simp, hspells, rfl⟩, h.fault⟩

/-- The first awaitable of a chain: its context is at the pointer. -/
theorem Inv.first {a : ℕ} {l : List ℕ} (h : Inv s) (hspells : s.Spells (some a) l)
    (hl : ∀ m ∈ l, m ∈ s.pushed ∧ m ∉ s.resumed) :
    ∃ n k next, l = n :: k ∧ s.address n = a ∧ s.awaitables n = .suspended ∧
      s.contexts a = some ⟨next, some n⟩ ∧ s.Spells next k := by
  obtain ⟨as, has, hchain⟩ := Chain.exists_tail hspells
  obtain ⟨n, k, rfl, rfl, rfl⟩ := List.map_eq_cons_iff.1 has
  have hsuspended := (h.awaitable n).suspended.2 (hl n List.mem_cons_self)
  obtain ⟨next, hnext⟩ := (h.awaitable n).owner (by rw [hsuspended]; rfl)
  rw [nextAt, hnext] at hchain
  exact ⟨n, k, next, rfl, rfl, hsuspended, hnext, hchain⟩

/-- One iteration of the reversal moves the first context of one chain to the front of the other. -/
theorem Inv.reverse_spells {l k : List ℕ} {next prev : Option ℕ} (h : Inv s)
    (hresumed : s.resumed = []) (hpushed : s.pushed = l.reverse ++ n :: k) (hl : s.Spells next l)
    (hk : s.Spells prev k) :
    (s.setContext (s.address n) (some ⟨prev, some n⟩)).Spells next l ∧
      (s.setContext (s.address n) (some ⟨prev, some n⟩)).Spells (some (s.address n)) (n :: k) := by
  have hsuspended : ∀ m ∈ s.pushed, s.awaitables m = .suspended := fun m hm =>
    (h.awaitable m).suspended.2 ⟨hm, by simp [hresumed]⟩
  -- `n` is in neither of the other parts of the record, so their contexts stay
  have hnot : n ∉ l.reverse ++ k := by
    have hnodup := h.nodup
    rw [hpushed] at hnodup
    exact (List.nodup_cons.1 (List.nodup_middle.1 hnodup)).1
  have hother : ∀ m ∈ l.reverse ++ k, s.address m ≠ s.address n := fun m hm => by
    have hmem : m ∈ s.pushed := by
      rw [hpushed]
      exact (List.mem_append.1 hm).elim (List.mem_append_left _)
        fun hm => List.mem_append_right _ (List.mem_cons_of_mem n hm)
    have hn : n ∈ s.pushed := by simp [hpushed]
    refine h.address_ne ?_ ?_ fun hmn => hnot (hmn ▸ hm)
    · rw [hsuspended n hn]
      rfl
    · rw [hsuspended m hmem]
      rfl
  refine ⟨hl.congr (fun _ _ => rfl) fun m hm => update_of_ne (hother m (by simp [hm])) _ _, ?_⟩
  refine Chain.push hk (fun b hb => ?_) ?_
  · obtain ⟨m, hm, rfl⟩ := List.mem_map.1 hb
    show (update s.contexts (s.address n) _ (s.address m)).bind _ = _
    rw [update_of_ne (hother m (by simp [hm]))]
    rfl
  · show (update s.contexts (s.address n) _ (s.address n)).bind _ = _
    rw [update_self]
    rfl

theorem inv_reverse {a : ℕ} {prev : Option ℕ} {c : SharedAwaitContext} (h : Inv s)
    (hf : s.finish = .reverse (some a) prev) (hc : s.contexts a = some c) :
    Inv { s.setContext a (some { c with next := prev }) with
      finish := .reverse c.next (some a) } := by
  have hlinks := h.links
  rw [hf] at hlinks
  obtain ⟨hresumed, hptr, l, k, hpushed, hl, hk⟩ := hlinks
  obtain ⟨n, l, next, rfl, rfl, hsuspended, hc', hl⟩ := h.first hl fun m hm =>
    ⟨by rw [hpushed]; exact List.mem_append_left _ (List.mem_reverse.2 hm), by simp [hresumed]⟩
  obtain rfl : c = ⟨next, some n⟩ := Option.some.inj (hc.symm.trans hc')
  have hlive : (s.awaitables n).alive = true := by rw [hsuspended]; rfl
  have hpushed' : s.pushed = l.reverse ++ n :: k := by simp [hpushed]
  obtain ⟨hl', hk'⟩ := h.reverse_spells hresumed hpushed' hl hk
  refine ⟨fun m => ?_, h.nodup, ⟨hresumed, hptr, l, n :: k, hpushed', hl', hk'⟩, h.fault⟩
  rcases eq_or_ne m n with rfl | hmn
  · have hok := h.awaitable m
    rw [hsuspended] at hok
    show AwaitableOk _ m (s.awaitables m)
    rw [hsuspended]
    exact ⟨fun _ => ⟨prev, update_self ..⟩, nofun, hok.suspended, hok.past, hok.declined,
      nofun⟩
  · exact h.frame (t := { s.setContext (s.address n) _ with finish := _ }) hlive
      (fun a ha => update_of_ne ha _ _) rfl (fun _ _ => Iff.rfl) (fun _ _ => Iff.rfl)
      (fun _ _ => Iff.rfl) id m hmn

/-- The handle is invoked. -/
theorem inv_resume {awaiters : Option ℕ} (h : Inv s) (hf : s.finish = .call (some n) awaiters)
    (hn : s.awaitables n = .suspended) :
    Inv { s.setPc n .returned with
      resumed := s.resumed ++ [n]
      finish := .resume awaiters } := by
  have hlive : (s.awaitables n).alive = true := by rw [hn]; rfl
  have hok := h.awaitable n
  rw [hn] at hok
  have hlinks := h.links
  rw [hf] at hlinks
  obtain ⟨hptr, m, l, hm, hpushed, hl⟩ := hlinks
  cases hm
  have hpushed' : s.pushed = (s.resumed ++ [n]) ++ l := by simp [hpushed]
  refine ⟨(Function.forall_update_iff _ _).2 ⟨?_, ?_⟩, h.nodup, ⟨hptr, l, hpushed', hl⟩, h.fault⟩
  · exact ⟨fun _ => hok.owner rfl, nofun, ⟨nofun, fun hm => absurd hm.2 (by simp)⟩, hok.past,
      hok.declined, fun _ => hptr⟩
  · exact h.frame hlive (fun _ _ => rfl) rfl (fun _ _ => Iff.rfl) (fun m hmn => by simp [hmn])
      (fun _ _ => Iff.rfl) id

/-- The awaitables of a chain behind the resumed ones are still to be resumed. -/
theorem Inv.pending {l : List ℕ} (h : Inv s) (hpushed : s.pushed = s.resumed ++ l) :
    ∀ m ∈ l, m ∈ s.pushed ∧ m ∉ s.resumed := by
  intro m hm
  have hnodup := h.nodup
  rw [hpushed] at hnodup ⊢
  exact ⟨List.mem_append_right _ hm, fun hr => (List.nodup_append.1 hnodup).2.2 m hr m hm rfl⟩

/-- Every step of `on_result_finished` finds what it expects. -/
theorem inv_finishStep (h : Inv s) (hs : s.finishStep = some t) : Inv t := by
  have hlinks := h.links
  unfold finishStep at hs
  cases hf : s.finish with
  | before | done => simp [hf] at hs
  | notify | release =>
    simp only [hf] at hs
    cases hs
    rw [hf] at hlinks
    exact inv_setFinish h hlinks
  | exchange =>
    rw [hf] at hlinks
    obtain ⟨-, p, hptr, -⟩ := hlinks
    simp only [hf, hptr] at hs
    cases hs
    exact inv_detach h hptr
  | reverse current =>
    rw [hf] at hlinks
    obtain ⟨hresumed, hptr, l, k, hpushed, hl, hk⟩ := hlinks
    cases current with
    | none =>
      simp only [hf] at hs
      cases hs
      have hnil : l = [] := List.map_eq_nil_iff.1 hl.eq_nil
      exact inv_setFinish h ⟨hptr, k, by simp [hpushed, hnil, hresumed], hk⟩
    | some =>
      obtain ⟨n, l, next, rfl, -, -, hc, -⟩ := h.first hl fun m hm =>
        ⟨by simp [hpushed, hm], by simp [hresumed]⟩
      simp only [hf, hc] at hs
      cases hs
      exact inv_reverse h hf hc
  | resume awaiters =>
    rw [hf] at hlinks
    obtain ⟨hptr, l, hpushed, hl⟩ := hlinks
    cases awaiters with
    | none =>
      simp only [hf] at hs
      cases hs
      have hnil : l = [] := List.map_eq_nil_iff.1 hl.eq_nil
      exact inv_setFinish h ⟨hptr, by simp [hpushed, hnil]⟩
    | some =>
      obtain ⟨n, l, next, rfl, -, -, hc, hl⟩ := h.first hl (h.pending hpushed)
      simp only [hf, hc] at hs
      cases hs
      exact inv_setFinish h ⟨hptr, n, l, rfl, hpushed, hl⟩
  | call =>
    rw [hf] at hlinks
    obtain ⟨hptr, n, l, rfl, hpushed, hl⟩ := hlinks
    have hn := (h.awaitable n).suspended.2 (h.pending hpushed n List.mem_cons_self)
    simp only [hf, hn, if_true] at hs
    cases hs
    exact inv_resume h hf hn

theorem inv_step {m : AwaiterMove} (h : Inv s) (hs : s.step m = some t) : Inv t := by
  cases m with
  | create => exact inv_create h hs
  | awaitable => exact inv_awaitableStep h hs
  | spurious => exact inv_spurious h hs
  | start =>
    simp only [step] at hs
    split_ifs at hs with hf
    cases hs
    have hlinks := h.links
    rw [hf] at hlinks
    exact inv_setFinish h hlinks
  | finish => exact inv_finishStep h hs

theorem inv_of_reachable (h : Reachable s) : Inv s := by
  refine Reach.invariant ?_ (fun _ _ _ hi _ hs => inv_step hi hs) h
  rintro _ rfl
  exact inv_initial

/-! ### `on_result_finished` comes to its end -/

/-- By steps of `on_result_finished` alone, its end is reached. -/
def Finishes (s : SharedAwaiters) : Prop :=
  ∃ k t, run step s (List.replicate k .finish) = some t ∧ t.finish = .done ∧
    t.pushed = s.pushed

theorem Finishes.of_step (hs : s.finishStep = some u) (hpushed : u.pushed = s.pushed)
    (h : Finishes u) : Finishes s := by
  obtain ⟨k, t, hrun, hdone, ht⟩ := h
  refine ⟨k + 1, t, ?_, hdone, ht.trans hpushed⟩
  rw [List.replicate_succ, run, show s.step .finish = some u from hs]
  exact hrun

/-- The loop that resumes, by induction on the awaitables that are left. -/
theorem finishes_of_resume (l : List ℕ) : ∀ (s : SharedAwaiters) (p : Option ℕ), Inv s →
    s.finish = .resume p → s.pushed = s.resumed ++ l → s.Spells p l → Finishes s := by
  induction l with
  | nil =>
    intro s p h hf hpushed hl
    obtain rfl : p = none := hl
    have hs : s.finishStep = some { s with finish := .done } := by simp [finishStep, hf]
    exact Finishes.of_step hs rfl ⟨0, _, rfl, rfl, rfl⟩
  | cons n l ih =>
    intro s p h hf hpushed hl
    obtain rfl : p = some (s.address n) := hl.1
    obtain ⟨n', l', next, hnl, -, hn, hc, hl'⟩ := h.first hl (h.pending hpushed)
    cases hnl
    have hs : s.finishStep = some { s with finish := .call (some n) next } := by
      simp [finishStep, hf, hc]
    refine Finishes.of_step hs rfl ?_
    have h' := inv_finishStep h hs
    have hs' : finishStep { s with finish := .call (some n) next } =
        some { s.setPc n .returned with resumed := s.resumed ++ [n], finish := .resume next } := by
      simp [finishStep, hn, setPc]
    exact Finishes.of_step hs' rfl (ih _ next (inv_finishStep h' hs') rfl
      (show s.pushed = (s.resumed ++ [n]) ++ l by simp [hpushed]) hl')

/-- The loop that reverses, by induction on the rest of the stack. -/
theorem finishes_of_reverse (l : List ℕ) :
    ∀ (s : SharedAwaiters) (current prev : Option ℕ) (m : List ℕ),
    Inv s → s.finish = .reverse current prev → s.resumed = [] → s.pushed = l.reverse ++ m →
    s.Spells current l → s.Spells prev m → Finishes s := by
  induction l with
  | nil =>
    intro s current prev m h hf hresumed hpushed hl hm
    obtain rfl : current = none := hl
    have hs : s.finishStep = some { s with finish := .resume prev } := by simp [finishStep, hf]
    exact Finishes.of_step hs rfl (finishes_of_resume m _ prev (inv_finishStep h hs) rfl
      (show s.pushed = s.resumed ++ m by simp [hpushed, hresumed]) hm)
  | cons n l ih =>
    intro s current prev m h hf hresumed hpushed hl hm
    obtain rfl : current = some (s.address n) := hl.1
    obtain ⟨n', l', next, hnl, -, -, hc, hl'⟩ := h.first hl fun k hk =>
      ⟨by rw [hpushed]; exact List.mem_append_left _ (List.mem_reverse.2 hk), by simp [hresumed]⟩
    cases hnl
    have hpushed' : s.pushed = l.reverse ++ n :: m := by simp [hpushed]
    obtain ⟨hl', hm'⟩ := h.reverse_spells hresumed hpushed' hl' hm
    have hs : s.finishStep = some { s.setContext (s.address n) (some ⟨prev, some n⟩) with
        finish := .reverse next (some (s.address n)) } := by
      simp [finishStep, hf, hc]
    exact Finishes.of_step hs rfl
      (ih _ next _ (n :: m) (inv_finishStep h hs) rfl hresumed hpushed' hl' hm')

/-- Once it is called, `on_result_finished` comes to its end. -/
theorem finishes_of_inv (h : Inv s) (hf : s.finish ≠ .before) : Finishes s := by
  have hexchange : ∀ s, Inv s → s.finish = .exchange → Finishes s := fun s h hf => by
    have hlinks := h.links
    rw [hf] at hlinks
    obtain ⟨hresumed, p, hptr, hp⟩ := hlinks
    have hs : s.finishStep = some { s with awaiters := .ready, finish := .reverse p none } := by
      simp [finishStep, hf, hptr]
    exact Finishes.of_step hs rfl (finishes_of_reverse s.pushed.reverse _ p none []
      (inv_finishStep h hs) rfl hresumed (by simp) hp rfl)
  have hrelease : ∀ s, Inv s → s.finish = .release → Finishes s := fun s h hf => by
    have hs : s.finishStep = some { s with finish := .exchange } := by simp [finishStep, hf]
    exact Finishes.of_step hs rfl (hexchange _ (inv_finishStep h hs) rfl)
  have hlinks := h.links
  cases hpc : s.finish with
  | before => exact absurd hpc hf
  | notify =>
    have hs : s.finishStep = some { s with finish := .release } := by simp [finishStep, hpc]
    exact Finishes.of_step hs rfl (hrelease _ (inv_finishStep h hs) rfl)
  | release => exact hrelease s h hpc
  | exchange => exact hexchange s h hpc
  | reverse current prev =>
    rw [hpc] at hlinks
    obtain ⟨hresumed, -, l, m, hpushed, hl, hm⟩ := hlinks
    exact finishes_of_reverse l s current prev m h hpc hresumed hpushed hl hm
  | resume p =>
    rw [hpc] at hlinks
    obtain ⟨-, l, hpushed, hl⟩ := hlinks
    exact finishes_of_resume l s p h hpc hpushed hl
  | call _ p =>
    rw [hpc] at hlinks
    obtain ⟨-, n, l, rfl, hpushed, hl⟩ := hlinks
    have hn := (h.awaitable n).suspended.2 (h.pending hpushed n List.mem_cons_self)
    have hs : s.finishStep = some { s.setPc n .returned with
        resumed := s.resumed ++ [n], finish := .resume p } := by
      simp [finishStep, hpc, hn]
    exact Finishes.of_step hs rfl (finishes_of_resume l _ p (inv_finishStep h hs) rfl
      (show s.pushed = (s.resumed ++ [n]) ++ l by simp [hpushed]) hl)
  | done => exact ⟨0, s, rfl, hpc, rfl⟩

/-! ### The outcome for the awaiters -/

theorem Inv.resumed_eq (h : Inv s) (hf : s.finish = .done) : s.resumed = s.pushed := by
  have hlinks := h.links
  rw [hf] at hlinks
  exact hlinks.2.symm

/-- The resumed awaitables are the first of the pushed ones. -/
theorem Inv.resumed_first (h : Inv s) : s.resumed <+: s.pushed := by
  have hlinks := h.links
  cases hf : s.finish with
  | before | notify | release | exchange | reverse =>
    rw [hf] at hlinks
    rw [hlinks.1]
    exact List.nil_prefix
  | resume =>
    rw [hf] at hlinks
    obtain ⟨-, l, hpushed, -⟩ := hlinks
    exact ⟨l, hpushed.symm⟩
  | call =>
    rw [hf] at hlinks
    obtain ⟨-, n, l, -, hpushed, -⟩ := hlinks
    exact ⟨n :: l, hpushed.symm⟩
  | done => rw [h.resumed_eq hf]

/-- **Every awaiter of a shared result is resumed exactly once, in order.**  In every reachable
state:

* no context is used that is not there, and no coroutine is invoked that is not suspended;
* an awaitable is suspended exactly when its push has succeeded and it has not been resumed, and
  every `await` that has returned has either pushed or declined;
* each awaitable is pushed at most once, and the resumed ones are the first of the pushed ones;
* an awaitable whose `await` has returned `false` is not among them;
* the context that the loop visits next belongs to a suspended awaitable, which has not been
  resumed;
* once `on_result_finished` is called, it comes to its end by its own steps, and then everyone who
  had been pushed has been resumed. -/
theorem resumed_in_order (h : Reachable s) :
    s.fault = false ∧
    (∀ n, (s.awaitables n = .suspended ↔ n ∈ s.pushed ∧ n ∉ s.resumed) ∧
      ((s.awaitables n).past = true ↔ n ∈ s.pushed ∨ n ∈ s.declined)) ∧
    s.pushed.Nodup ∧ s.resumed <+: s.pushed ∧
    (∀ n ∈ s.declined, n ∉ s.pushed ∧ n ∉ s.resumed) ∧
    (∀ a, s.finish = .resume (some a) → ∃ n next, s.awaitables n = .suspended ∧ n ∉ s.resumed ∧
      s.address n = a ∧ s.contexts a = some ⟨next, some n⟩) ∧
    (s.finish ≠ .before → ∃ k t, run step s (List.replicate k .finish) = some t ∧
      t.finish = .done ∧ t.pushed = s.pushed ∧ t.resumed = s.pushed) := by
  have hi := inv_of_reachable h
  refine ⟨hi.fault, fun n => ⟨(hi.awaitable n).suspended, (hi.awaitable n).past.symm⟩, hi.nodup,
    hi.resumed_first, fun n hn => ?_, fun a ha => ?_, fun hf => ?_⟩
  · have hnp := (hi.awaitable n).declined hn
    exact ⟨hnp, fun hr => hnp (hi.resumed_first.subset hr)⟩
  · have hlinks := hi.links
    rw [ha] at hlinks
    obtain ⟨-, l, hpushed, hl⟩ := hlinks
    obtain ⟨n, k, next, rfl, haddress, hn, hc, -⟩ := hi.first hl (hi.pending hpushed)
    exact ⟨n, next, hn, ((hi.awaitable n).suspended.1 hn).2, haddress, hc⟩
  · obtain ⟨k, t, hrun, hdone, hpushed⟩ := finishes_of_inv hi hf
    have ht := inv_of_reachable (Reachable.run h hrun)
    exact ⟨k, t, hrun, hdone, hpushed, (ht.resumed_eq hdone).trans hpushed⟩

/-- Two coroutines await; the second is pushed after a compare-exchange that failed without cause.
The result is finished, the first coroutine is resumed and destroys its awaitable, a third one takes
its address and is declined, and then the second coroutine is resumed. -/
theorem resumed_in_order_of_reused_context :
    ∃ s, Reachable s ∧ s.pushed = [0, 1] ∧ s.resumed = [0, 1] ∧ s.declined = [2] ∧
      s.address 2 = s.address 0 ∧ s.fault = false := by
  let schedule : List AwaiterMove := [.create 0 7, .awaitable 0, .awaitable 0, .awaitable 0,
    .create 1 8, .awaitable 1, .awaitable 1, .spurious 1, .awaitable 1, .awaitable 1, .awaitable 1,
    .start, .finish, .finish, .finish, .finish, .finish, .finish, .finish, .finish,
    .awaitable 0, .create 2 7, .awaitable 2, .finish, .finish, .finish]
  let s := lastState step initial schedule
  have h : Reachable s := .lastState (by rfl) schedule
  exact ⟨s, h, rfl, rfl, rfl, rfl, (resumed_in_order h).1⟩

end SharedAwaiters
end Concurrencpp
