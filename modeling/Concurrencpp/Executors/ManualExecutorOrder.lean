import Concurrencpp.Placement
import Concurrencpp.Executors.ManualExecutor

/-!
# First in, first out

* `ManualSystem.content`: where an accepted task can be: in the queue, in the hands of a thread that
  has taken it out, called, or destroyed without a call.  It is in one of these places at every
  moment.
* `LoopFrame.Ok`: the variables of a loop, against what the loop has done.
* `ManualSystem.Ok`: the invariant.  All steps but `enqueue` only move tasks between the places of
  one thread and keep the tasks dequeued so far, followed by the queue, as they are (`Ok.change`).
-/

namespace Concurrencpp

open Placement

variable {τ : Type}

/-! ### What holds of a call -/

/-- The task that a thread runs, which its loop has not counted yet. -/
def LoopPc.uncounted : LoopPc τ → ℕ
  | .running => 1
  | _ => 0

/-- The task that a loop has taken out of the queue and not called yet. -/
def LoopPc.taken : LoopPc τ → List (τ × ℕ)
  | .invoke task => [task]
  | _ => []

/-- The loop is over. -/
def LoopPc.over : LoopPc τ → Bool
  | .exit => true
  | _ => false

/-- The loop has found that it may execute one more task. -/
def LoopPc.inside : LoopPc τ → Bool
  | .lock | .wait | .invoke _ | .running => true
  | .head | .exit => false

/-- The variables of a loop, when `executed` are the tasks that have been called and `atomicAbort`
says whether a shutdown has begun. -/
structure LoopFrame.Ok (f : LoopFrame τ) (executed : List (τ × ℕ)) (atomicAbort : Bool) : Prop where
  ran : f.ran.Sublist executed
  count : f.ran.length = f.executed + f.pc.uncounted
  le : f.executed ≤ f.call.maxCount
  lt : f.pc.inside = true → f.executed < f.call.maxCount
  exit : f.pc.over = true → f.call.waits = false →
    f.executed = f.call.maxCount ∨ f.sawEmpty = true ∨ atomicAbort = true

theorem LoopFrame.Ok.mono {f : LoopFrame τ} {executed executed' : List (τ × ℕ)} {b b' : Bool}
    (h : f.Ok executed b) (he : executed.Sublist executed') (hb : b = true → b' = true) :
    f.Ok executed' b' where
  ran := h.ran.trans he
  count := h.count
  le := h.le
  lt := h.lt
  exit := fun hpc hw => (h.exit hpc hw).imp_right (Or.imp_right hb)

/-- A call that has not returned. -/
def ManualFrame.Ok (executed : List (τ × ℕ)) (abort atomicAbort : Bool) : ManualFrame τ → Prop
  | .loop f => f.Ok executed atomicAbort
  | .wait _ => True
  | .clear size removed _ => size = removed.length
  | .shutdown => atomicAbort = true
  | .shutdownClear _ => abort = true

/-- A call that has returned: a loop has executed as many tasks as it says, and no more than it was
asked for; without a deadline it has stopped short only before an empty queue.  `clear` has said how
many tasks it removed.  The `shutdown` that came first has set `m_abort`. -/
def ManualReturn.Ok (executed : List (τ × ℕ)) (abort : Bool) : ManualReturn τ → Prop
  | .looped call value ran sawEmpty => ran.Sublist executed ∧ ran.length = value ∧
      value ≤ call.maxCount ∧ (call.waits = false → value < call.maxCount → sawEmpty = true)
  | .waited _ _ => True
  | .cleared value removed => value = removed.length
  | .shutDown first => first = true → abort = true
  | .threw => True

section mono

variable {executed executed' : List (τ × ℕ)} {a a' b b' : Bool}

theorem ManualFrame.Ok.mono {f : ManualFrame τ} (h : f.Ok executed a b)
    (he : executed.Sublist executed') (ha : a = true → a' = true) (hb : b = true → b' = true) :
    f.Ok executed' a' b' := by
  cases f with
  | loop => exact LoopFrame.Ok.mono h he hb
  | wait => trivial
  | clear => exact h
  | shutdown => exact hb h
  | shutdownClear => exact ha h

theorem ManualReturn.Ok.mono {r : ManualReturn τ} (h : r.Ok executed a)
    (he : executed.Sublist executed') (ha : a = true → a' = true) : r.Ok executed' a' := by
  cases r with
  | looped => exact ⟨h.1.trans he, h.2⟩
  | waited => trivial
  | cleared => exact h
  | shutDown => exact fun hf => ha (h hf)
  | threw => trivial

end mono

namespace ManualSystem

variable {s s' : ManualSystem τ} {t : ℕ} {below : List (ManualFrame τ)} {f : LoopFrame τ}

/-! ### Where the tasks are -/

/-- The tasks that a call has taken out of the queue and neither called nor destroyed. -/
def holds : ManualFrame τ → List (τ × ℕ)
  | .loop f => f.pc.taken
  | .clear _ _ rest | .shutdownClear rest => rest
  | .wait _ | .shutdown => []

/-- The tasks in the hands of a thread. -/
def hand (s : ManualSystem τ) (t : ℕ) : List (τ × ℕ) := (s.frames t).flatMap holds

/-- The places of a task. -/
inductive TaskPlace
  | queue
  | hand (t : ℕ)
  | executed
  | destroyed

def content (s : ManualSystem τ) : TaskPlace → List (τ × ℕ)
  | .queue => s.tasks
  | .hand t => s.hand t
  | .executed => s.executed
  | .destroyed => s.destroyed

/-- The invariant. -/
structure Ok (s : ManualSystem τ) : Prop where
  order : s.dequeued ++ s.tasks = s.accepted.zipIdx
  placed : Placed s.content
  held : ∀ x, Held s.content x ↔ x ∈ s.accepted.zipIdx
  abort : s.abort = true → s.atomicAbort = true ∧ s.tasks = []
  frames : ∀ t, ∀ f ∈ s.frames t, f.Ok s.executed s.abort s.atomicAbort
  returns : ∀ r ∈ s.returns, r.Ok s.executed s.abort

/-- What a step of the thread `t` may change when it accepts no task. -/
structure Changes (s s' : ManualSystem τ) (t : ℕ) : Prop where
  moved : (s'.tasks ++ s'.hand t ++ s'.executed ++ s'.destroyed).Perm
    (s.tasks ++ s.hand t ++ s.executed ++ s.destroyed)
  others : ∀ r, r ≠ t → s'.frames r = s.frames r
  accepted : s'.accepted = s.accepted
  order : s'.dequeued ++ s'.tasks = s.dequeued ++ s.tasks
  executed : s.executed.Sublist s'.executed
  abort : s.abort = true → s'.abort = true
  atomicAbort : s.atomicAbort = true → s'.atomicAbort = true

theorem Ok.change (h : s.Ok) (hc : Changes s s' t)
    (habort : s'.abort = true → s'.atomicAbort = true ∧ s'.tasks = [])
    (hframes : ∀ f ∈ s'.frames t, f ∈ s.frames t ∨ f.Ok s'.executed s'.abort s'.atomicAbort)
    (hreturns : ∀ r ∈ s'.returns, r ∈ s.returns ∨ r.Ok s'.executed s'.abort) : s'.Ok := by
  have hps : [TaskPlace.queue, .hand t, .executed, .destroyed].Nodup := by simp
  have hother : ∀ p, p ∉ [TaskPlace.queue, .hand t, .executed, .destroyed] →
      s'.content p = s.content p := by
    intro p hp
    cases p with
    | hand r =>
      have hr : r ≠ t := by
        rintro rfl
        exact hp (by simp)
      simp only [content, hand, hc.others r hr]
    | _ => exact absurd (by simp) hp
  have hflat : ∀ u : ManualSystem τ,
      [TaskPlace.queue, .hand t, .executed, .destroyed].flatMap u.content =
      u.tasks ++ u.hand t ++ u.executed ++ u.destroyed := by
    intro u
    simp [content]
  have hperm : ([TaskPlace.queue, .hand t, .executed, .destroyed].flatMap s'.content).Perm
      ([TaskPlace.queue, .hand t, .executed, .destroyed].flatMap s.content) := by
    rw [hflat, hflat]
    exact hc.moved
  constructor
  case order => rw [hc.order, hc.accepted, h.order]
  case placed => exact h.placed.rearrange hps hperm.subperm hother
  case held =>
    intro x
    rw [hc.accepted, ← h.held x]
    exact held_congr hperm.mem_iff hother
  case abort => exact habort
  case frames =>
    intro r f hf
    by_cases hr : r = t
    · subst hr
      rcases hframes f hf with hf | hf
      · exact (h.frames r f hf).mono hc.executed hc.abort hc.atomicAbort
      · exact hf
    · rw [hc.others r hr] at hf
      exact (h.frames r f hf).mono hc.executed hc.abort hc.atomicAbort
  case returns =>
    intro r hr
    rcases hreturns r hr with hr | hr
    · exact (h.returns r hr).mono hc.executed hc.abort
    · exact hr

/-! ### The stack of a thread -/

variable {stack : List (ManualFrame τ)}

@[simp] theorem setStack_self : (s.setStack t stack).frames t = stack :=
  Function.update_self ..

theorem setStack_of_ne {r : ℕ} (hr : r ≠ t) : (s.setStack t stack).frames r = s.frames r :=
  Function.update_of_ne hr ..

theorem hand_setStack : (s.setStack t stack).hand t = stack.flatMap holds := by
  simp [hand]

/-- Only the stack of the thread changes, and it holds the same tasks. -/
theorem Ok.restack (h : s.Ok) (hhand : stack.flatMap holds = (s.frames t).flatMap holds)
    (hframes : ∀ f ∈ stack, f ∈ s.frames t ∨ f.Ok s.executed s.abort s.atomicAbort) :
    (s.setStack t stack).Ok := by
  have hc : Changes s (s.setStack t stack) t := by
    refine ⟨?_, fun r hr => setStack_of_ne hr, rfl, rfl, List.Sublist.refl _, id, id⟩
    rw [hand_setStack, hhand]
    exact List.Perm.refl _
  refine h.change hc h.abort ?_ fun r hr => .inl hr
  rw [setStack_self]
  exact hframes

/-- The call that is on top of the stack, and holds no task, ends. -/
theorem Ok.finish {r : ManualReturn τ} (h : s.Ok)
    (hhand : stack.flatMap holds = (s.frames t).flatMap holds)
    (hframes : ∀ f ∈ stack, f ∈ s.frames t) (hr : r.Ok s.executed s.abort) :
    (s.finish t stack r).Ok := by
  have hok := h.restack hhand fun f hf => .inl (hframes f hf)
  refine ⟨hok.order, hok.placed, hok.held, hok.abort, hok.frames, fun q hq => ?_⟩
  rcases List.mem_append.1 hq with hq | hq
  · exact h.returns q hq
  · rw [List.mem_singleton.1 hq]
    exact hr

/-! ### The loops -/

section

variable (h : s.Ok) (hs : s.frames t = .loop f :: below)
include h hs

/-- The frame of a loop is replaced by another that holds no task either. -/
theorem Ok.reloop {g : LoopFrame τ} (hf : f.pc.taken = []) (hg : g.pc.taken = [])
    (hok : g.Ok s.executed s.atomicAbort) : (s.setStack t (.loop g :: below)).Ok := by
  refine h.restack ?_ fun k hk => ?_
  · rw [hs, List.flatMap_cons, List.flatMap_cons, holds, holds, hf, hg]
  · rcases List.mem_cons.1 hk with rfl | hk
    · exact .inr hok
    · rw [hs]
      exact .inl (List.mem_cons_of_mem _ hk)

theorem Ok.top : f.Ok s.executed s.atomicAbort :=
  h.frames t (.loop f) (by rw [hs]; exact List.mem_cons_self)

theorem Ok.takeTask (hpc : f.pc = .lock ∨ f.pc = .wait) : (s.takeTask t below f).Ok := by
  have hf := h.top hs
  have hnone : f.pc.taken = [] := by
    rcases hpc with hpc | hpc <;> rw [hpc] <;> rfl
  have huncounted : f.pc.uncounted = 0 := by
    rcases hpc with hpc | hpc <;> rw [hpc] <;> rfl
  have hcount : f.ran.length = f.executed + 0 := huncounted ▸ hf.count
  unfold ManualSystem.takeTask
  split_ifs with habort
  · refine h.reloop hs hnone rfl ?_
    exact ⟨hf.ran, hcount, hf.le, Bool.noConfusion, fun _ _ => .inr (.inr (h.abort habort).1)⟩
  · split
    next htasks =>
      refine h.reloop hs hnone rfl ?_
      exact ⟨hf.ran, hcount, hf.le, Bool.noConfusion, fun _ _ => .inr (.inl rfl)⟩
    next task tasks htasks =>
      have hlt : f.executed < f.call.maxCount := by
        refine hf.lt ?_
        rcases hpc with hpc | hpc <;> rw [hpc] <;> rfl
      refine h.change (t := t) ?_ (fun ha => absurd ha habort) ?_ fun r hr => .inl hr
      · refine ⟨?_, fun r hr => setStack_of_ne hr, rfl, ?_, List.Sublist.refl _, id, id⟩
        · -- the task leaves the queue for the hand of the thread
          rw [hand_setStack, List.flatMap_cons, hand, hs, List.flatMap_cons, holds, holds, hnone,
            htasks]
          refine List.Perm.append_right _ (List.Perm.append_right _ ?_)
          exact List.perm_middle
        · rw [htasks, setStack]
          simp
      · rw [setStack_self, hs]
        intro k hk
        rcases List.mem_cons.1 hk with rfl | hk
        · exact .inr ⟨hf.ran, hcount, hf.le, fun _ => hlt, Bool.noConfusion⟩
        · exact .inl (List.mem_cons_of_mem _ hk)

theorem Ok.loopStep (hstep : s.loopStep t below f = some s') : s'.Ok := by
  have hf := h.top hs
  unfold ManualSystem.loopStep at hstep
  cases hpc : f.pc with
  | head =>
    have hcount : f.ran.length = f.executed + 0 := by
      have hcount := hf.count
      rw [hpc] at hcount
      exact hcount
    have hnone : f.pc.taken = [] := by rw [hpc]; rfl
    simp only [hpc] at hstep
    split_ifs at hstep with hmax hwaits <;> cases hstep
    · refine h.reloop hs hnone rfl ?_
      exact ⟨hf.ran, hcount, hf.le, Bool.noConfusion, fun _ _ => .inl hmax⟩
    all_goals
      refine h.reloop hs hnone rfl ?_
      exact ⟨hf.ran, hcount, hf.le, fun _ => lt_of_le_of_ne hf.le hmax, Bool.noConfusion⟩
  | lock =>
    simp only [hpc] at hstep
    cases hstep
    exact h.takeTask hs (.inl hpc)
  | wait =>
    simp only [hpc] at hstep
    split_ifs at hstep
    cases hstep
    exact h.takeTask hs (.inr hpc)
  | invoke task =>
    simp only [hpc] at hstep
    cases hstep
    have hcount := hf.count
    have hlt := hf.lt
    rw [hpc] at hcount hlt
    have hsub : s.executed.Sublist (s.executed ++ [task]) := List.sublist_append_left ..
    refine h.change (t := t) ?_ h.abort ?_ fun r hr => .inl hr
    · refine ⟨?_, fun r hr => setStack_of_ne hr, rfl, rfl, hsub, id, id⟩
      -- the task leaves the hand of the thread and is executed
      have hhold : holds (.loop f) = [task] := by
        rw [holds, hpc]
        rfl
      rw [hand_setStack, List.flatMap_cons, hand, hs, List.flatMap_cons, hhold]
      refine List.Perm.append_right _ ?_
      change (s.tasks ++ below.flatMap holds ++ (s.executed ++ [task])).Perm
        (s.tasks ++ (task :: below.flatMap holds) ++ s.executed)
      rw [← List.append_assoc]
      exact List.perm_append_singleton .. |>.trans
        (List.Perm.append_right s.executed (List.perm_middle (a := task))).symm
    · rw [setStack_self, hs]
      intro k hk
      rcases List.mem_cons.1 hk with rfl | hk
      · refine .inr ⟨hf.ran.append (List.Sublist.refl [task]), ?_, hf.le, fun _ => hlt rfl,
          Bool.noConfusion⟩
        rw [List.length_append]
        exact congrArg (· + 1) hcount
      · exact .inl (List.mem_cons_of_mem _ hk)
  | running =>
    simp only [hpc] at hstep
    cases hstep
    have hcount := hf.count
    have hlt := hf.lt
    rw [hpc] at hcount hlt
    refine h.reloop hs (by rw [hpc]; rfl) rfl ?_
    exact ⟨hf.ran, hcount, hlt rfl, Bool.noConfusion, Bool.noConfusion⟩
  | exit =>
    have hhand : below.flatMap holds = (s.frames t).flatMap holds := by
      rw [hs, List.flatMap_cons, holds, hpc]
      rfl
    have hbelow : ∀ k ∈ below, k ∈ s.frames t := by
      rw [hs]
      exact fun k hk => List.mem_cons_of_mem _ hk
    simp only [hpc] at hstep
    split_ifs at hstep with habort <;> cases hstep
    · exact h.finish hhand hbelow trivial
    · refine h.finish hhand hbelow ⟨hf.ran, ?_, hf.le, fun hw hlt => ?_⟩
      · have hcount := hf.count
        rw [hpc] at hcount
        exact hcount
      · rcases hf.exit (by rw [hpc]; rfl) hw with hmax | hempty | hatomic
        · exact absurd hmax (Nat.ne_of_lt hlt)
        · exact hempty
        · exact absurd hatomic habort

theorem Ok.loopTimeout (hstep : s.loopTimeout t below f = some s') : s'.Ok := by
  have hf := h.top hs
  unfold ManualSystem.loopTimeout at hstep
  split at hstep
  next hpc =>
    split_ifs at hstep with hwaits
    cases hstep
    have hcount := hf.count
    rw [hpc] at hcount
    refine h.reloop hs (by rw [hpc]; rfl) rfl ?_
    exact ⟨hf.ran, hcount, hf.le, Bool.noConfusion, fun _ hw => by cases hwaits.symm.trans hw⟩
  next hpc =>
    cases hstep
    exact h.takeTask hs (.inr hpc)
  next => cases hstep

end

/-! ### The other functions -/

variable {k : ManualFrame τ}

/-- A call begins. -/
theorem Ok.push (h : s.Ok) (hhold : holds k = []) (hk : k.Ok s.executed s.abort s.atomicAbort) :
    (s.setStack t (k :: s.frames t)).Ok := by
  refine h.restack ?_ fun g hg => ?_
  · rw [List.flatMap_cons, hhold, List.nil_append]
  · rcases List.mem_cons.1 hg with rfl | hg
    · exact .inr hk
    · exact .inl hg

/-- The innermost call, which holds no task, ends. -/
theorem Ok.pop {r : ManualReturn τ} (h : s.Ok) (hs : s.frames t = k :: below) (hhold : holds k = [])
    (hr : r.Ok s.executed s.abort) : (s.finish t below r).Ok := by
  refine h.finish ?_ ?_ hr
  · rw [hs, List.flatMap_cons, hhold, List.nil_append]
  · rw [hs]
    exact fun g hg => List.mem_cons_of_mem _ hg

/-- The innermost call destroys the next of the tasks that it holds. -/
theorem Ok.destroy {k k' : ManualFrame τ} {task : τ × ℕ} (h : s.Ok) (hs : s.frames t = k :: below)
    (hhold : holds k = task :: holds k') (hk : k'.Ok s.executed s.abort s.atomicAbort) :
    ((s.destroy task).setStack t (k' :: below)).Ok := by
  refine h.change (t := t) ?_ h.abort ?_ fun r hr => .inl hr
  · refine ⟨?_, fun r hr => setStack_of_ne hr, rfl, rfl, List.Sublist.refl _, id, id⟩
    rw [hand_setStack, List.flatMap_cons, hand, hs, List.flatMap_cons, hhold]
    change (s.tasks ++ (holds k' ++ below.flatMap holds) ++ s.executed ++
      (s.destroyed ++ [task])).Perm
      (s.tasks ++ (task :: (holds k' ++ below.flatMap holds)) ++ s.executed ++ s.destroyed)
    rw [← List.append_assoc]
    refine (List.perm_append_singleton ..).trans ?_
    exact (List.Perm.append_right _ (List.Perm.append_right _ List.perm_middle)).symm
  · rw [setStack_self, hs]
    intro g hg
    rcases List.mem_cons.1 hg with rfl | hg
    · exact .inr hk
    · exact .inl (List.mem_cons_of_mem _ hg)

/-- The queue is moved into the hand of the thread, in the order that it has. -/
theorem Ok.moveTasks {a : Bool} (h : s.Ok) (hs : (s.frames t).flatMap holds = below.flatMap holds)
    (hbelow : ∀ g ∈ below, g ∈ s.frames t) (ha : s.abort = true → a = true)
    (hatomic : a = true → s.atomicAbort = true) (hhold : holds k = s.tasks)
    (hk : k.Ok s.executed a s.atomicAbort) :
    ({ s.moveTasks with abort := a }.setStack t (k :: below)).Ok := by
  refine h.change (t := t) ?_ (fun ha => ⟨hatomic ha, rfl⟩) ?_ fun r hr => .inl hr
  · refine ⟨?_, fun r hr => setStack_of_ne hr, rfl, ?_, List.Sublist.refl _, ha, id⟩
    · rw [hand_setStack, List.flatMap_cons, hhold, hand, hs]
      refine List.Perm.append_right _ (List.Perm.append_right _ ?_)
      exact List.Perm.refl _
    · exact List.append_nil _
  · rw [setStack_self]
    intro g hg
    rcases List.mem_cons.1 hg with rfl | hg
    · exact .inr hk
    · exact .inl (hbelow g hg)

theorem Ok.waitReturn {call : WaitCall} (h : s.Ok) (hs : s.frames t = .wait call :: below) :
    (s.waitReturn t below call).Ok := by
  unfold ManualSystem.waitReturn
  split_ifs
  · exact h.pop hs rfl trivial
  · exact h.pop hs rfl trivial

theorem Ok.frameStep (h : s.Ok) (hstep : s.frameStep t = some s') : s'.Ok := by
  unfold ManualSystem.frameStep at hstep
  split at hstep
  next => cases hstep
  next f below hs => exact h.loopStep hs hstep
  next call below hs =>
    unfold ManualSystem.waitStep at hstep
    split_ifs at hstep <;> cases hstep
    · exact h.pop hs rfl trivial
    · exact h.pop hs rfl trivial
    · exact h.waitReturn hs
  next size removed task rest below hs =>
    cases hstep
    refine h.destroy hs rfl ?_
    exact h.frames t (.clear size removed (task :: rest)) (by rw [hs]; exact List.mem_cons_self)
  next size removed below hs =>
    cases hstep
    refine h.pop hs rfl ?_
    exact h.frames t (.clear size removed []) (by rw [hs]; exact List.mem_cons_self)
  next below hs =>
    cases hstep
    have hatomic : s.atomicAbort = true :=
      h.frames t .shutdown (by rw [hs]; exact List.mem_cons_self)
    refine h.moveTasks ?_ ?_ (fun _ => rfl) (fun _ => hatomic) rfl rfl
    · rw [hs]
      rfl
    · rw [hs]
      exact fun g hg => List.mem_cons_of_mem _ hg
  next task rest below hs =>
    cases hstep
    refine h.destroy hs rfl ?_
    exact h.frames t (.shutdownClear (task :: rest)) (by rw [hs]; exact List.mem_cons_self)
  next below hs =>
    cases hstep
    refine h.pop hs rfl ?_
    exact fun _ => h.frames t (.shutdownClear []) (by rw [hs]; exact List.mem_cons_self)

theorem nodup_zipIdx (tasks : List τ) (n : ℕ) : (tasks.zipIdx n).Nodup := by
  refine List.Nodup.of_map Prod.snd ?_
  rw [List.zipIdx_map_snd]
  exact List.nodup_range' ..

theorem Ok.enqueue {tasks : List τ} (h : s.Ok) : (s.enqueue tasks).Ok := by
  unfold ManualSystem.enqueue
  split_ifs with habort
  · exact h
  have hindex : ∀ x ∈ tasks.zipIdx s.accepted.length, x ∉ s.accepted.zipIdx := by
    intro x hx hold
    exact absurd (List.le_snd_of_mem_zipIdx hx) (not_le.2 (List.snd_lt_of_mem_zipIdx hold))
  have hother : ∀ p, p ≠ TaskPlace.queue → content { s with
      tasks := s.tasks ++ tasks.zipIdx s.accepted.length
      accepted := s.accepted ++ tasks } p = s.content p := by
    intro p hp
    cases p with
    | queue => exact absurd rfl hp
    | _ => rfl
  constructor
  case order => rw [List.zipIdx_append, ← h.order, List.append_assoc, Nat.zero_add]
  case placed =>
    refine h.placed.append (fun x hx => ?_) (nodup_zipIdx ..) List.perm_append_comm hother
    rw [h.held]
    exact hindex x hx
  case held =>
    intro x
    refine (held_append (p := TaskPlace.queue) List.perm_append_comm hother).trans ?_
    rw [h.held, List.zipIdx_append, List.mem_append, Nat.zero_add]
  case abort => exact fun ha => absurd ha habort
  case frames => exact h.frames
  case returns => exact h.returns

/-! ### All runs -/

theorem Ok.step {m : ManualMove τ} (h : s.Ok) (hstep : s.step m = some s') : s'.Ok := by
  cases m <;> simp only [ManualSystem.step] at hstep
  case enqueue =>
    split_ifs at hstep
    cases hstep
    exact h.enqueue
  case loop =>
    split_ifs at hstep
    cases hstep
    unfold ManualSystem.loop
    split_ifs with hmax
    · exact h.finish rfl (fun _ hf => hf)
        ⟨List.nil_sublist _, rfl, Nat.zero_le _, fun _ hlt => absurd hlt (by simp [hmax])⟩
    · exact h.push rfl ⟨List.nil_sublist _, rfl, Nat.zero_le _, Bool.noConfusion, Bool.noConfusion⟩
  case wait =>
    split_ifs at hstep
    cases hstep
    exact h.push rfl trivial
  case clear =>
    split_ifs at hstep
    cases hstep
    unfold ManualSystem.clear
    split_ifs with habort
    · exact h.finish rfl (fun _ hf => hf) trivial
    · exact h.moveTasks rfl (fun _ hg => hg) id (fun ha => (h.abort ha).1) rfl rfl
  case shutdown t =>
    split_ifs at hstep
    cases hstep
    unfold ManualSystem.shutdown
    split_ifs with hatomic
    · exact h.finish rfl (fun _ hf => hf) Bool.noConfusion
    · have hstart : Ok { s with atomicAbort := true } := by
        refine ⟨h.order, h.placed, h.held, fun ha => ⟨rfl, (h.abort ha).2⟩, ?_, h.returns⟩
        exact fun t f hf => (h.frames t f hf).mono (List.Sublist.refl _) id fun _ => rfl
      exact hstart.push rfl rfl
  case step => exact h.frameStep hstep
  case timeout =>
    simp only [ManualSystem.frameTimeout] at hstep
    split at hstep
    next f below hs => exact h.loopTimeout hs hstep
    next call below hs =>
      split_ifs at hstep
      cases hstep
      exact h.waitReturn hs
    next => cases hstep
  case throw =>
    simp only [ManualSystem.frameThrow] at hstep
    split at hstep
    next f below hs =>
      split at hstep
      next hpc =>
        cases hstep
        refine h.pop hs ?_ trivial
        rw [holds, hpc]
        rfl
      next => cases hstep
    next => cases hstep

theorem ok_initial : (initial : ManualSystem τ).Ok where
  order := rfl
  placed := .of_eq_nil fun p => by cases p <;> rfl
  held := by
    intro x
    refine ⟨?_, fun hx => by cases hx⟩
    rintro ⟨p, hp⟩
    cases p <;> cases hp
  abort := Bool.noConfusion
  frames := by
    intro t f hf
    cases hf
  returns := by
    intro r hr
    cases hr

theorem ok_of_reachable (h : s.Reachable) : s.Ok := by
  refine Interleaving.Reach.invariant ?_ (fun s m s' hok _ hs => hok.step hs) h
  rintro s rfl
  exact ok_initial

/-- A dequeued task has been called or destroyed, or is in the hands of a thread. -/
theorem Ok.mem_dequeued (h : s.Ok) (x : τ × ℕ) :
    x ∈ s.dequeued ↔ x ∈ s.executed ∨ x ∈ s.destroyed ∨ ∃ t, x ∈ s.hand t := by
  have hnodup : (s.dequeued ++ s.tasks).Nodup := by
    rw [h.order]
    exact nodup_zipIdx ..
  have hqueue : ∀ p, x ∈ s.content p → p ≠ TaskPlace.queue → x ∈ s.dequeued := by
    intro p hp hne
    have hmem : x ∈ s.dequeued ++ s.tasks := by
      rw [h.order]
      exact (h.held x).1 ⟨p, hp⟩
    rcases List.mem_append.1 hmem with hx | hx
    · exact hx
    · exact absurd (h.placed.unique (q := .queue) hp hx) hne
  constructor
  · intro hx
    have hmem : x ∈ s.accepted.zipIdx := by
      rw [← h.order]
      exact List.mem_append_left _ hx
    obtain ⟨p, hp⟩ := (h.held x).2 hmem
    cases p with
    | queue => exact absurd hp (List.disjoint_of_nodup_append hnodup hx)
    | hand t => exact .inr (.inr ⟨t, hp⟩)
    | executed => exact .inl hp
    | destroyed => exact .inr (.inl hp)
  · rintro (hx | hx | ⟨t, hx⟩)
    · exact hqueue .executed hx TaskPlace.noConfusion
    · exact hqueue .destroyed hx TaskPlace.noConfusion
    · exact hqueue (.hand t) hx TaskPlace.noConfusion

/-! ### Early returns of `shutdown` -/

/-- A `shutdown` that finds `m_atomic_abort` set finds `m_abort` set as well: the first `shutdown`
has come through its critical section. -/
def ShutdownSettled (s : ManualSystem τ) : ManualMove τ → Prop
  | .shutdown _ => s.atomicAbort = true → s.abort = true
  | _ => True

instance (s : ManualSystem τ) : (m : ManualMove τ) → Decidable (ShutdownSettled s m)
  | .shutdown _ => inferInstanceAs (Decidable (s.atomicAbort = true → s.abort = true))
  | .enqueue _ _ | .loop _ _ | .wait _ _ | .clear _ | .step _ | .timeout _ | .throw _ =>
      .isTrue trivial

/-- `m_abort` stays set, and only a `shutdown` that finds `m_atomic_abort` set returns early. -/
theorem step_early {m : ManualMove τ} (hs : s.step m = some s') :
    (s.abort = true → s'.abort = true) ∧
    (.shutDown false ∈ s'.returns → .shutDown false ∈ s.returns ∨
      s.atomicAbort = true ∧ s'.abort = s.abort ∧ ∃ t, m = .shutdown t) := by
  cases m <;> simp only [ManualSystem.step] at hs
  case step =>
    simp only [frameStep, loopStep, takeTask, waitStep, waitReturn] at hs
    grind [finish, setStack, moveTasks, destroy]
  case timeout | throw =>
    simp only [frameTimeout, frameThrow, loopTimeout, takeTask, waitReturn] at hs
    grind [finish, setStack]
  all_goals grind [enqueue, loop, clear, shutdown, finish, setStack, moveTasks]

theorem abort_of_early_return (h : Interleaving.Reach step IsInitial ShutdownSettled s) :
    .shutDown false ∈ s.returns → s.abort = true := by
  induction h with
  | start hinit =>
    cases hinit
    simp [initial]
  | next _ hm hs ih =>
    intro hr
    obtain ⟨hmono, hnew⟩ := step_early hs
    rcases hnew hr with hold | ⟨hatomic, habort, t, rfl⟩
    · exact hmono (ih hold)
    · exact habort.trans (hm hatomic)

/-- **The executor is a queue and loses nothing.**  What has been dequeued, followed by `m_tasks`,
is what has been accepted, in the order of acceptance.  No task is called twice, destroyed twice or
both; a dequeued task has been called or destroyed or is in the hands of the thread that took it.
Every call has returned what `ManualReturn.Ok` says, and behind the critical section of `shutdown`
the queue is empty.  Where no `shutdown` returns early before that critical section, the queue is
empty from the return of any `shutdown` on. -/
theorem dequeued_in_order (h : s.Reachable) :
    s.dequeued ++ s.tasks = s.accepted.zipIdx ∧
    (s.executed ++ s.destroyed).Nodup ∧
    (∀ x, x ∈ s.dequeued ↔ x ∈ s.executed ∨ x ∈ s.destroyed ∨ ∃ t, x ∈ s.hand t) ∧
    (∀ r ∈ s.returns, r.Ok s.executed s.abort) ∧
    (s.abort = true ∨ .shutDown true ∈ s.returns → s.tasks = []) ∧
    (Interleaving.Reach step IsInitial ShutdownSettled s →
      ∀ first, .shutDown first ∈ s.returns → s.tasks = []) := by
  have hok := ok_of_reachable h
  have hshut : .shutDown true ∈ s.returns → s.tasks = [] :=
    fun hret => (hok.abort (hok.returns _ hret rfl)).2
  refine ⟨hok.order, ?_, hok.mem_dequeued, hok.returns, ?_, ?_⟩
  · refine (hok.placed.nodup .executed).append (hok.placed.nodup .destroyed) fun x hx hx' => ?_
    exact TaskPlace.noConfusion (hok.placed.unique (p := .executed) (q := .destroyed) hx hx')
  · rintro (habort | hret)
    · exact (hok.abort habort).2
    · exact hshut hret
  · intro hsettled first hret
    cases first with
    | true => exact hshut hret
    | false => exact (hok.abort (abort_of_early_return hsettled hret)).2

/-- One thread runs a task that enqueues another, a second clears the queue; then the second shuts
the executor down with a task left, and the `shutdown` of a third returns before it. -/
theorem dequeued_in_order_of_reentry :
    ∃ s : ManualSystem ℕ, s.Reachable ∧ s.accepted = [10, 20, 30, 40] ∧
      s.executed = [(10, 0)] ∧ s.destroyed = [(20, 1), (30, 2)] ∧ s.hand 0 = [(40, 3)] ∧
      .shutDown false ∈ s.returns ∧ s.dequeued ++ s.tasks = s.accepted.zipIdx ∧ s.tasks = [] := by
  let schedule : List (ManualMove ℕ) := [.enqueue 0 [10, 20], .loop 1 (.loop 5), .step 1, .step 1,
    .step 1, .enqueue 1 [30], .clear 0, .step 0, .step 0, .step 0, .enqueue 0 [40], .step 1,
    .shutdown 0, .step 0, .shutdown 2]
  have h : Interleaving.Reach step IsInitial ShutdownSettled _ := .lastState (by rfl) schedule
  have hall := dequeued_in_order h.reachable
  refine ⟨_, h.reachable, ?_, ?_, ?_, ?_, ?_, hall.1, hall.2.2.2.2.2 h false ?_⟩ <;> decide +kernel

/-- **A `shutdown` that returns early leaves an executor that accepts tasks.**  One thread is
stopped behind its exchange on `m_atomic_abort`; the `shutdown` of another returns, and a task is
enqueued behind it. -/
theorem accepts_behind_early_shutdown :
    ∃ s : ManualSystem ℕ, s.Reachable ∧ .shutDown false ∈ s.returns ∧ s.tasks = [(10, 0)] := by
  let schedule : List (ManualMove ℕ) := [.shutdown 1, .shutdown 2, .enqueue 2 [10]]
  exact ⟨_, .lastState (by rfl) schedule, by decide +kernel⟩

end ManualSystem
end Concurrencpp
