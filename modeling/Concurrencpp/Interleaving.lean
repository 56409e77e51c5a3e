import Mathlib.Tactic

/-!
# Interleavings of labelled partial steps

A concurrent program is a partial function `step : σ → α → Option σ` on its global states.  A
label says which party moves and how the scheduler resolves its choices; `none` says that this
party cannot move that way.  Every interleaving of the parties is then a list of labels.

* `run step s as` follows the schedule `as` from `s`;
* `Reach step init cond s`: some run from an initial state, all of whose steps meet `cond` in the
  state before them, ends in `s`; `Reachable` is the case without a condition;
* `Reach.invariant` and `Reach.invariant_of_reach` are the two induction rules: an invariant that
  is preserved by every step, and one whose preservation needs facts already known of every
  state reached;
* `run_simulation`: a forward simulation matches whole runs;
* `Reachable.lastState` and `Reach.lastState` turn a schedule into the reached state it ends in, and
  `run_invariant` is the induction rule for the states that follow a given one;
* `run_countP_add_le` bounds the steps of one party by a measure.
-/

namespace Interleaving

variable {σ α : Type*}

/-- Follow a schedule; `none` as soon as one of its labels is not enabled. -/
def run (step : σ → α → Option σ) (s : σ) : List α → Option σ
  | [] => some s
  | a :: as => (step s a).bind fun t => run step t as

/-- The state a schedule ends in; one that is not enabled is not followed at all. -/
def lastState (step : σ → α → Option σ) (s : σ) (as : List α) : σ :=
  (run step s as).getD s

/-- States reached from `init` by steps that all meet `cond`. -/
inductive Reach (step : σ → α → Option σ) (init : σ → Prop) (cond : σ → α → Prop) : σ → Prop
  | start {s : σ} : init s → Reach step init cond s
  | next {s t : σ} {a : α} : Reach step init cond s → cond s a → step s a = some t →
      Reach step init cond t

/-- States reached by any steps at all. -/
def Reachable (step : σ → α → Option σ) (init : σ → Prop) : σ → Prop :=
  Reach step init fun _ _ => True

/-- The steps that meet `cond`, as a step function of its own. -/
def restrict (step : σ → α → Option σ) (cond : σ → α → Prop) [∀ s a, Decidable (cond s a)]
    (s : σ) (a : α) : Option σ :=
  if cond s a then step s a else none

variable {step : σ → α → Option σ} {init : σ → Prop} {cond : σ → α → Prop} {s t : σ} {as : List α}

theorem run_cons {a : α} (h : run step s (a :: as) = some t) :
    ∃ u, step s a = some u ∧ run step u as = some t :=
  Option.bind_eq_some_iff.1 h

theorem run_cons_of_step {a : α} {u : σ} (hs : step s a = some u) (h : run step u as = some t) :
    run step s (a :: as) = some t :=
  Option.bind_eq_some_iff.2 ⟨u, hs, h⟩

theorem run_append {as bs : List α} {u : σ} (h : run step s as = some t)
    (h' : run step t bs = some u) : run step s (as ++ bs) = some u := by
  induction as generalizing s with
  | nil =>
    cases h
    exact h'
  | cons _ _ ih =>
    obtain ⟨v, hv, h⟩ := run_cons h
    exact run_cons_of_step hv (ih h)

theorem restrict_of_step [∀ s a, Decidable (cond s a)] {a : α} (hc : cond s a)
    (hs : step s a = some t) : restrict step cond s a = some t :=
  (if_pos hc).trans hs

theorem restrict_eq_some [∀ s a, Decidable (cond s a)] {a : α}
    (h : restrict step cond s a = some t) : cond s a ∧ step s a = some t := by
  unfold restrict at h
  split_ifs at h with hc
  exact ⟨hc, h⟩

/-- A predicate that holds initially and is preserved by every admitted step holds throughout. -/
theorem Reach.invariant {Inv : σ → Prop} (hinit : ∀ s, init s → Inv s)
    (hstep : ∀ s a t, Inv s → cond s a → step s a = some t → Inv t) (h : Reach step init cond s) :
    Inv s := by
  induction h with
  | start hs => exact hinit _ hs
  | next _ hc hs ih => exact hstep _ _ _ ih hc hs

/-- The same rule when preservation may use that the state before the step is itself reached. -/
theorem Reach.invariant_of_reach {Inv : σ → Prop} (hinit : ∀ s, init s → Inv s)
    (hstep : ∀ s a t, Reach step init cond s → Inv s → cond s a → step s a = some t → Inv t)
    (h : Reach step init cond s) : Inv s := by
  induction h with
  | start hs => exact hinit _ hs
  | next hr hc hs ih => exact hstep _ _ _ hr ih hc hs

/-- Weakening the condition on the steps keeps every state reached. -/
theorem Reach.mono {cond' : σ → α → Prop} (hc : ∀ s a, cond s a → cond' s a)
    (h : Reach step init cond s) : Reach step init cond' s := by
  induction h with
  | start hs => exact .start hs
  | next _ ha hs ih => exact ih.next (hc _ _ ha) hs

theorem Reach.reachable (h : Reach step init cond s) : Reachable step init s :=
  h.mono fun _ _ _ => trivial

/-- Following a schedule from a reached state ends in a reached state. -/
theorem Reachable.run (h : Reachable step init s) (hr : Interleaving.run step s as = some t) :
    Reachable step init t := by
  induction as generalizing s with
  | nil => cases hr; exact h
  | cons _ _ ih =>
    obtain ⟨u, hu, hr⟩ := run_cons hr
    exact ih (Reach.next h trivial hu) hr

theorem Reachable.of_run (hs : init s) (hr : Interleaving.run step s as = some t) :
    Reachable step init t :=
  Reachable.run (.start hs) hr

theorem Reachable.lastState (hs : init s) (as : List α) :
    Reachable step init (Interleaving.lastState step s as) := by
  unfold Interleaving.lastState
  cases hr : Interleaving.run step s as with
  | none => exact .start hs
  | some t => exact .of_run hs hr

/-- What every step preserves holds along every schedule. -/
theorem run_invariant (Inv : σ → Prop) (hstep : ∀ s a t, Inv s → step s a = some t → Inv t)
    (hs : Inv s) (hr : Interleaving.run step s as = some t) : Inv t :=
  Reach.invariant (fun _ h => h) (fun s a t h _ => hstep s a t h) (Reachable.of_run hs hr)

/-- A measure that no step increases, and that the steps of one party decrease, bounds how many
steps that party takes along any schedule. -/
theorem run_countP_add_le (Inv : σ → Prop) (μ : σ → ℕ) (p : α → Bool)
    (hstep : ∀ s a t, Inv s → step s a = some t → Inv t ∧ μ t + (if p a then 1 else 0) ≤ μ s)
    (hs : Inv s) (hr : Interleaving.run step s as = some t) : as.countP p + μ t ≤ μ s := by
  induction as generalizing s with
  | nil =>
    cases hr
    simp
  | cons a _ ih =>
    obtain ⟨u, hu, hr⟩ := run_cons hr
    obtain ⟨hinv, hle⟩ := hstep s a u hs hu
    have hrest := ih hinv hr
    rw [List.countP_cons]
    omega

/-- A schedule of the restricted step function only takes admitted steps. -/
theorem Reach.run_restrict [∀ s a, Decidable (cond s a)] (h : Reach step init cond s)
    (hr : Interleaving.run (restrict step cond) s as = some t) : Reach step init cond t := by
  induction as generalizing s with
  | nil => cases hr; exact h
  | cons _ _ ih =>
    obtain ⟨u, hu, hr⟩ := run_cons hr
    obtain ⟨hc, hu⟩ := restrict_eq_some hu
    exact ih (h.next hc hu) hr

theorem Reach.lastState [∀ s a, Decidable (cond s a)] (hs : init s) (as : List α) :
    Reach step init cond (Interleaving.lastState (restrict step cond) s as) := by
  unfold Interleaving.lastState
  cases hr : Interleaving.run (restrict step cond) s as with
  | none => exact .start hs
  | some t => exact Reach.run_restrict (.start hs) hr

/-- Runs of admitted steps are runs of the restricted step function. -/
theorem Reach.reachable_restrict [∀ s a, Decidable (cond s a)] (h : Reach step init cond s) :
    Reachable (restrict step cond) init s := by
  induction h with
  | start hs => exact .start hs
  | next _ ha hs ih => exact ih.next trivial ((if_pos ha).trans hs)

/-- **Forward simulation.**  If every step of one system is matched by a step of another with the
same label, then so is every run. -/
theorem run_simulation {σ' : Type*} {step' : σ' → α → Option σ'} (Sim : σ → σ' → Prop)
    (hstep : ∀ s s' a t, a ∈ as → Sim s s' → step s a = some t →
      ∃ t', step' s' a = some t' ∧ Sim t t')
    {s' : σ'} (hs : Sim s s') (hr : run step s as = some t) :
    ∃ t', run step' s' as = some t' ∧ Sim t t' := by
  induction as generalizing s s' with
  | nil =>
    cases hr
    exact ⟨s', rfl, hs⟩
  | cons a _ ih =>
    obtain ⟨u, hu, hr⟩ := run_cons hr
    obtain ⟨u', hu', hsim⟩ := hstep s s' a u List.mem_cons_self hs hu
    obtain ⟨t', ht', hsim⟩ :=
      ih (fun s s' b t hb => hstep s s' b t (List.mem_cons_of_mem _ hb)) hsim hr
    exact ⟨t', run_cons_of_step hu' ht', hsim⟩

end Interleaving
