import Concurrencpp.Timers.TimerLoop

/-!
# Requests of the timer queue

A timer is put into `m_request_queue` by `make_timer_impl`, and again, to be removed, by
`timer::cancel`.  Between the two its `timer` object is handed to the user, so that the worker,
which takes the requests in their order, never sees the removal first.

* `TokensOk`: a timer is being made, is held by its `timer`, is being cancelled, or is to be
  removed: only one of these at a time.
* `OrderOk`: no request to add a timer stands behind the request to remove it.
* `ToAdd`: the timer has not been given to the containers yet.  This never comes back.
* `timers_survive_idle`: an idle queue has nothing to do, and what it accepts is consumed once.
-/

namespace Concurrencpp

open Interleaving
open Placement
open Function (update update_self update_of_ne)

variable {rs : List (ℕ × TimerRequest)}

theorem mem_removals {x : ℕ} : x ∈ removals rs ↔ (x, .remove) ∈ rs := by
  simp [removals]

theorem Acquires.tokens {f g : Frame} (h : Acquires f g) : g.tokens = f.tokens := by
  cases h <;> rfl

/-- `make_timer_impl` has not pushed its request yet. -/
def Frame.makes (x : ℕ) : Frame → Bool
  | .makeTimer y pc => y = x ∧ pc.pending
  | _ => false

theorem Frame.busy_of_makes {x : ℕ} (f : Frame) (h : Frame.makes x f = true) : f.busy = true := by
  cases f with
  | makeTimer => exact Bool.or_eq_true_iff.2 (.inl (of_decide_eq_true h).2)
  | _ => cases h

theorem Acquires.makes {f g : Frame} {x : ℕ} (h : Acquires f g) (hg : Frame.makes x g = true) :
    Frame.makes x f = true := by
  cases h with
  | makeTimer => exact hg
  | _ => cases hg

namespace TimerMachine

variable {v v' : TimerMachine} {t : TimerThread} {x : ℕ}

/-- The timers that are being made, cancelled or removed: by a thread, or in `m_request_queue`. -/
def tokens (v : TimerMachine) : Option TimerThread → List ℕ
  | none => removals v.requestQueue
  | some t => (v.frames t).flatMap Frame.tokens

structure TokensOk (v : TimerMachine) : Prop where
  placed : Placed v.tokens
  handles : ∀ x, 0 < v.handles x → v.handles x = 1 ∧ ¬ Held v.tokens x
  old : ∀ x, Held v.tokens x ∨ 0 < v.handles x → x < v.created

/-- A timer is not added behind its removal. -/
def Ordered (a b : ℕ × TimerRequest) : Prop := a.2 = .remove → b ≠ (a.1, .add)

structure OrderOk (v : TimerMachine) : Prop where
  queue : v.requestQueue.Pairwise Ordered
  taken : ∀ pc q, v.Loop pc q → (pc.requests ++ v.requestQueue).Pairwise Ordered

/-! ### One token for each timer -/

section Tokens

variable {f g : Frame} {rest fs : List Frame}

/-- The tokens of the thread move between its stack and the queue, or they are gone. -/
theorem TokensOk.move (h : v.TokensOk) (hframes : v'.frames = update v.frames t fs)
    (hhandles : v'.handles = v.handles) (hcreated : v'.created = v.created)
    (hsub : (removals v'.requestQueue ++ fs.flatMap Frame.tokens).Subperm
      (removals v.requestQueue ++ (v.frames t).flatMap Frame.tokens)) : v'.TokensOk := by
  have hself : v'.tokens (some t) = fs.flatMap Frame.tokens := by
    simp only [tokens, hframes, update_self]
  have hother : ∀ p, p ∉ [none, some t] → v'.tokens p = v.tokens p := by
    intro p hp
    cases p with
    | none => simp at hp
    | some u =>
      have hne : u ≠ t := by
        rintro rfl
        simp at hp
      simp only [tokens, hframes, update_of_ne hne]
  have hsub : ([none, some t].flatMap v'.tokens).Subperm ([none, some t].flatMap v.tokens) := by
    simp only [List.flatMap_cons, List.flatMap_nil, List.append_nil, hself]
    exact hsub
  have hheld : ∀ x, Held v'.tokens x → Held v.tokens x := fun x =>
    .of_mem (fun hx => hsub.subset hx) hother
  constructor
  case placed => exact h.placed.rearrange (by simp) hsub hother
  case handles =>
    intro x hx
    rw [hhandles] at hx ⊢
    exact ⟨(h.handles x hx).1, fun hx' => (h.handles x hx).2 (hheld x hx')⟩
  case old =>
    intro x hx
    rw [hhandles] at hx
    rw [hcreated]
    exact h.old x (hx.imp_left (hheld x))

/-- The thread keeps some of its tokens. -/
theorem TokensOk.goto (h : v.TokensOk) (hframes : v'.frames = update v.frames t fs)
    (hhandles : v'.handles = v.handles) (hcreated : v'.created = v.created)
    (hqueue : v'.requestQueue = v.requestQueue)
    (hsub : (fs.flatMap Frame.tokens).Sublist ((v.frames t).flatMap Frame.tokens)) :
    v'.TokensOk := by
  refine h.move hframes hhandles hcreated ?_
  rw [hqueue]
  exact (List.Sublist.append_left hsub _).subperm

/-- The innermost frame changes, and keeps its tokens. -/
theorem tokens_head (hf : v.frames t = f :: rest) (hg : g.tokens = f.tokens) :
    ((g :: rest).flatMap Frame.tokens).Sublist ((v.frames t).flatMap Frame.tokens) := by
  rw [hf, List.flatMap_cons, List.flatMap_cons, hg]

theorem tokens_pop (hf : v.frames t = f :: rest) :
    (rest.flatMap Frame.tokens).Sublist ((v.frames t).flatMap Frame.tokens) := by
  rw [hf, List.flatMap_cons]
  exact List.sublist_append_right _ _

theorem tokens_covers (hf : v.frames t = f :: rest) (hc : Covers (g :: rest) fs)
    (hg : g.tokens.Sublist f.tokens) :
    (fs.flatMap Frame.tokens).Sublist ((v.frames t).flatMap Frame.tokens) := by
  refine hc.quiet.tokens.trans ?_
  rw [hf, List.flatMap_cons, List.flatMap_cons]
  exact hg.append (.refl _)

theorem WorkStep.requests {pc pc' : WorkLoopPc} {q q' : TimerQueueInternal}
    (h : WorkStep v pc q pc' q') : pc'.requests.Sublist pc.requests := by
  cases h with
  | add | removed => exact .cons _ (.refl _)
  | _ => exact .refl _

/-- At most the token of one timer is new, or goes to its `timer` or comes from it. -/
theorem TokensOk.change (h : v.TokensOk) (hplaced : Placed v'.tokens)
    (hheld : ∀ y, y ≠ x → Held v'.tokens y → Held v.tokens y)
    (hhandles : ∀ y, y ≠ x → v'.handles y = v.handles y) (hcreated : v.created ≤ v'.created)
    (hone : 0 < v'.handles x → v'.handles x = 1 ∧ ¬ Held v'.tokens x) (hx : x < v'.created) :
    v'.TokensOk := by
  constructor
  case placed => exact hplaced
  case handles =>
    intro y hy
    by_cases hyx : y = x
    · subst hyx
      exact hone hy
    · rw [hhandles y hyx] at hy ⊢
      exact ⟨(h.handles y hy).1, fun hy' => (h.handles y hy).2 (hheld y hyx hy')⟩
  case old =>
    intro y hy
    by_cases hyx : y = x
    · exact hyx ▸ hx
    · rw [hhandles y hyx] at hy
      exact (h.old y (hy.imp_left (hheld y hyx))).trans_le hcreated

/-- The thread gets the token of a timer that has none. -/
theorem TokensOk.gain (h : v.TokensOk) (hf : f.tokens = [x]) (hx : ¬ Held v.tokens x)
    (hframes : v'.frames = update v.frames t (f :: v.frames t))
    (hqueue : v'.requestQueue = v.requestQueue) :
    Placed v'.tokens ∧ ∀ y, Held v'.tokens y ↔ Held v.tokens y ∨ y = x := by
  have hself : (v'.tokens (some t)).Perm (x :: v.tokens (some t)) := by
    simp only [tokens, hframes, update_self, List.flatMap_cons, hf]
    exact .refl _
  have hother : ∀ p, p ≠ some t → v'.tokens p = v.tokens p := by
    intro p hp
    cases p with
    | none => simp only [tokens, hqueue]
    | some u =>
      have hne : u ≠ t := fun hu => hp (congrArg some hu)
      simp only [tokens, hframes, update_of_ne hne]
  refine ⟨h.placed.insert hx hself hother, fun y => ?_⟩
  have hself' : (v'.tokens (some t)).Perm ([x] ++ v.tokens (some t)) := hself
  rw [held_append hself' hother, List.mem_singleton]

/-- `make_timer_impl`: the token of a new timer. -/
theorem TokensOk.make {pc : MakePc} (h : v.TokensOk)
    (hframes : v'.frames = update v.frames t (.makeTimer v.created pc :: v.frames t))
    (hqueue : v'.requestQueue = v.requestQueue) (hhandles : v'.handles = v.handles)
    (hcreated : v'.created = v.created + 1) : v'.TokensOk := by
  have hnew : ¬ Held v.tokens v.created := fun hheld => lt_irrefl _ (h.old _ (.inl hheld))
  obtain ⟨hplaced, hheld⟩ := h.gain (f := .makeTimer v.created pc) rfl hnew hframes hqueue
  refine h.change hplaced (fun y hy hy' => ((hheld y).1 hy').resolve_right hy)
    (fun y _ => congrFun hhandles y) (by omega) (fun hpos => ?_) (by omega)
  rw [hhandles] at hpos
  exact absurd (h.old _ (.inr hpos)) (lt_irrefl _)

/-- `make_timer` returns: the `timer` has the token. -/
theorem TokensOk.publish (h : v.TokensOk) (hf : v.frames t = .makeTimer x .done :: rest) :
    ({ v.setFrames t rest with
      handles := update v.handles x (v.handles x + 1) } : TimerMachine).TokensOk := by
  have hmem : x ∈ v.tokens (some t) := by
    simp [tokens, hf, Frame.tokens]
  have hzero : v.handles x = 0 := by
    by_contra hne
    exact (h.handles x (Nat.pos_of_ne_zero hne)).2 ⟨_, hmem⟩
  have hgone : TokensOk (v.setFrames t rest) := h.goto rfl rfl rfl rfl (tokens_pop hf)
  -- the token was the only one
  have hx : ¬ Held (v.setFrames t rest).tokens x := by
    have hnd := h.placed.nodup (some t)
    rintro ⟨p, hp⟩
    cases p with
    | none => cases h.placed.unique (p := none) hp hmem
    | some u =>
      by_cases hu : u = t
      · subst hu
        simp only [tokens, hf, List.flatMap_cons] at hnd
        simp only [tokens, setFrames, update_self] at hp
        exact (List.nodup_cons.1 hnd).1 hp
      · simp only [tokens, setFrames, update_of_ne hu] at hp
        cases h.placed.unique (p := some u) hp hmem
        exact hu rfl
  refine hgone.change hgone.placed (fun y _ hy => hy) (fun y hy => update_of_ne hy ..) le_rfl
    (fun _ => ⟨?_, hx⟩) (h.old x (.inl ⟨_, hmem⟩))
  simp [hzero]

/-- `timer::cancel` takes the token of the `timer`. -/
theorem TokensOk.beginCancel (h : v.TokensOk) (hx : 0 < v.handles x) :
    ({ v.setFrames t (.cancel x .flag :: v.frames t) with
      handles := update v.handles x (v.handles x - 1) } : TimerMachine).TokensOk := by
  obtain ⟨hone, hnot⟩ := h.handles x hx
  have hgain : Placed (v.setFrames t (.cancel x .flag :: v.frames t)).tokens ∧ ∀ y,
      Held (v.setFrames t (.cancel x .flag :: v.frames t)).tokens y ↔ Held v.tokens y ∨ y = x :=
    h.gain (f := .cancel x .flag) rfl hnot rfl rfl
  obtain ⟨hplaced, hheld⟩ := hgain
  refine h.change hplaced (fun y hy hy' => ((hheld y).1 hy').resolve_right hy)
    (fun y hy => update_of_ne hy ..) le_rfl (fun hpos => ?_) (h.old x (.inr hx))
  simp [hone] at hpos

theorem TokensOk.step (h : v.TokensOk) (hs : Step v v') : v'.TokensOk := by
  cases hs with
  | stay => exact h
  | tick | setFrequency => exact ⟨h.placed, h.handles, h.old⟩
  | quiet hq => exact h.goto rfl rfl rfl rfl hq.tokens
  | make => exact h.make rfl rfl rfl rfl
  | publish hf => exact h.publish hf
  | beginCancel _ hx => exact h.beginCancel hx
  | flag hf | refuse hf | accept hf | unlock hf | abortWorker hf | cleared hf | wait hf | fire hf
  | goIdle hf | exit hf | seeAbort hf => exact h.goto rfl rfl rfl rfl (tokens_head hf rfl)
  | wake hf hpc =>
    refine h.goto rfl rfl rfl rfl (tokens_head hf ?_)
    rcases hpc with rfl | rfl <;> rfl
  | acquire hf ha => exact h.goto rfl rfl rfl rfl (tokens_head hf ha.tokens)
  | @start _ _ w _ _ hf _ _ hw =>
    have hworker : TokensOk (v.setFrames (.worker w) [.user, .workLoop .lock .init 0]) :=
      h.goto rfl rfl rfl rfl (List.nil_sublist _)
    exact hworker.goto rfl rfl rfl rfl (tokens_head (frames_of_start hf hw) rfl)
  | unwind hf hc => exact h.goto rfl rfl rfl rfl (tokens_covers hf hc (.refl _))
  | work hf hw hc =>
    exact h.goto rfl rfl rfl rfl (tokens_covers hf hc (hw.requests.filterMap _))
  | add hf | remove hf =>
    refine h.move rfl rfl rfl (List.Perm.of_eq ?_).subperm
    simp [hf, removals, Frame.tokens]
  | abortIdle hf => exact h.goto rfl rfl rfl rfl (tokens_pop hf)
  | clear hf hq hc =>
    refine h.move rfl rfl rfl ?_
    have hsub := tokens_covers hf hc (.refl _)
    rw [hq]
    exact (List.Sublist.append ((List.sublist_cons_self _ _).filterMap _) hsub).subperm
  | take hf =>
    refine h.move rfl rfl rfl (List.Perm.of_eq ?_).subperm
    simp [hf, removals, Frame.tokens, WorkLoopPc.requests]

/-- No two frames have the token of a timer. -/
theorem TokensOk.frame_unique {u : TimerThread} (h : v.TokensOk) (hf : f ∈ v.frames t)
    (hg : g ∈ v.frames u) (hxf : x ∈ f.tokens) (hxg : x ∈ g.tokens) : f = g := by
  have hmem : ∀ {t f}, f ∈ v.frames t → x ∈ f.tokens → x ∈ v.tokens (some t) := fun hf hx =>
    List.mem_flatMap.2 ⟨_, hf, hx⟩
  obtain rfl : t = u := Option.some.inj (h.placed.unique (hmem hf hxf) (hmem hg hxg))
  by_contra hne
  have hpair := (List.nodup_flatMap.1 (h.placed.nodup (some t))).2
  have hsymm : Std.Symm (Function.onFun List.Disjoint Frame.tokens) := ⟨fun _ _ hd => hd.symm⟩
  exact hpair.forall hf hg hne hxf hxg

theorem TokensOk.not_mem_queue (h : v.TokensOk) (hf : f ∈ v.frames t) (hx : x ∈ f.tokens) :
    (x, .remove) ∉ v.requestQueue := by
  intro hmem
  have hq : x ∈ v.tokens none := mem_removals.2 hmem
  have ht : x ∈ v.tokens (some t) := List.mem_flatMap.2 ⟨f, hf, hx⟩
  cases h.placed.unique hq ht

/-- A timer that is being made is not to be removed. -/
theorem TokensOk.not_removed {pc : MakePc} {pc' : WorkLoopPc} {q : TimerQueueInternal}
    (h : v.TokensOk) (hf : .makeTimer x pc ∈ v.frames t) (hl : v.Loop pc' q) :
    (x, .remove) ∉ pc'.requests := by
  intro hmem
  obtain ⟨u, d, hu⟩ := hl
  have hx : x ∈ (Frame.workLoop pc' q d).tokens := mem_removals.2 hmem
  cases h.frame_unique hf hu List.mem_cons_self hx

end Tokens

/-! ### The order of the requests -/

theorem QueueStep.ordered (hq : QueueStep v v') {l : List (ℕ × TimerRequest)}
    (hl : (l ++ v.requestQueue).Pairwise Ordered)
    (hnot : ∀ t x pc, .makeTimer x pc ∈ v.frames t → (x, .remove) ∉ l ++ v.requestQueue) :
    (l ++ v'.requestQueue).Pairwise Ordered := by
  cases hq with
  | same heq => rwa [heq]
  | add hf heq =>
    rw [heq, ← List.append_assoc, List.pairwise_append]
    refine ⟨hl, List.pairwise_singleton _ _, ?_⟩
    rintro ⟨y, r⟩ ha b hb hr heq
    cases List.mem_singleton.1 hb
    cases heq
    cases hr
    exact hnot _ _ _ (hf ▸ List.mem_cons_self) ha
  | remove heq =>
    rw [heq, ← List.append_assoc, List.pairwise_append]
    refine ⟨hl, List.pairwise_singleton _ _, ?_⟩
    rintro a ha b hb hr heq
    cases (List.mem_singleton.1 hb).symm.trans heq
  | clear _ heq =>
    rw [heq] at hl
    exact hl.sublist (.append_left (List.sublist_cons_self _ _) _)
  | take _ _ _ heq =>
    rw [heq, List.append_nil]
    exact hl.sublist (List.sublist_append_left _ _)

theorem requests_of_waits {pc : WorkLoopPc} (h : pc.waits = true) : pc.requests = [] := by
  cases pc <;> first | rfl | cases h

theorem OrderOk.step (h : v.OrderOk) (ht : v.TokensOk) (hsingle : v.SingleLoop) (hs : Step v v') :
    v'.OrderOk := by
  have hqueue : v'.requestQueue.Pairwise Ordered := by
    refine hs.queue.ordered (l := []) h.queue fun t x pc hf => ?_
    exact ht.not_mem_queue hf List.mem_cons_self
  refine ⟨hqueue, fun pc q hl => ?_⟩
  cases hs.loop hsingle hl with
  | same hl =>
    refine hs.queue.ordered (h.taken pc q hl) fun t x pc' hf hmem => ?_
    rcases List.mem_append.1 hmem with hmem | hmem
    · exact ht.not_removed hf hl hmem
    · exact ht.not_mem_queue hf List.mem_cons_self hmem
  | start hpc =>
    rw [hpc]
    exact hqueue
  | step hl hstep =>
    cases hstep with
    | wait _ hpc =>
      rw [requests_of_waits hpc]
      exact hqueue
    | abort | fire => exact hqueue
    | take heq =>
      rw [heq, List.append_nil]
      exact h.queue
    | work hw heq =>
      rw [heq]
      exact (h.taken _ _ hl).sublist (hw.requests.append (.refl _))

/-! ### Timers that are still to be added -/

/-- The timer has not been given to the containers yet. -/
def ToAdd (v : TimerMachine) (x : ℕ) : Prop :=
  (∃ t, ∃ f ∈ v.frames t, Frame.makes x f = true) ∨ (x, .add) ∈ v.requestQueue ∨
    ∃ pc q, v.Loop pc q ∧ (x, .add) ∈ pc.requests

section ToAdd

variable {f g : Frame} {rest fs : List Frame} {p : Frame → Bool}

theorem any_of_update (hfs : ∀ g ∈ fs, p g = true → ∃ f ∈ v.frames t, p f = true)
    (h : ∃ u, ∃ g ∈ update v.frames t fs u, p g = true) : ∃ u, ∃ f ∈ v.frames u, p f = true := by
  obtain ⟨u, g, hg, hp⟩ := h
  by_cases hu : u = t
  · subst hu
    rw [update_self] at hg
    exact ⟨u, hfs g hg hp⟩
  · rw [update_of_ne hu] at hg
    exact ⟨u, g, hg, hp⟩

theorem any_head (hf : v.frames t = f :: rest) (hp : p g = true → p f = true) :
    ∀ g' ∈ g :: rest, p g' = true → ∃ f ∈ v.frames t, p f = true := by
  intro g' hg' hpg
  rw [hf]
  rcases List.mem_cons.1 hg' with rfl | hg'
  · exact ⟨f, List.mem_cons_self, hp hpg⟩
  · exact ⟨g', List.mem_cons_of_mem _ hg', hpg⟩

theorem any_pop (hf : v.frames t = f :: rest) :
    ∀ g ∈ rest, p g = true → ∃ f ∈ v.frames t, p f = true := by
  intro g hg hpg
  exact ⟨g, hf ▸ List.mem_cons_of_mem _ hg, hpg⟩

theorem any_push (hp : p g = false) :
    ∀ g' ∈ g :: v.frames t, p g' = true → ∃ f ∈ v.frames t, p f = true := by
  intro g' hg' hpg
  rcases List.mem_cons.1 hg' with rfl | hg'
  · cases hp.symm.trans hpg
  · exact ⟨g', hg', hpg⟩

theorem any_covers (hf : v.frames t = f :: rest) (hc : Covers (g :: rest) fs)
    (hb : ∀ f, p f = true → f.busy = true) (hp : p g = true → p f = true) :
    ∀ g' ∈ fs, p g' = true → ∃ f ∈ v.frames t, p f = true := by
  intro g' hg' hpg
  exact any_head hf hp g' ((hc.quiet.mem_iff (hb g' hpg)).1 hg') hpg

theorem Step.makes (hs : Step v v') (hx : x ≠ v.created)
    (h : ∃ t, ∃ f ∈ v'.frames t, Frame.makes x f = true) :
    ∃ t, ∃ f ∈ v.frames t, Frame.makes x f = true := by
  have hb := Frame.busy_of_makes (x := x)
  cases hs with
  | stay | tick | setFrequency => exact h
  | quiet hq =>
    refine any_of_update (fun g hg hp => ?_) h
    exact ⟨g, (hq.mem_iff (hb g hp)).1 hg, hp⟩
  | make => exact any_of_update (any_push (by simp [Frame.makes, hx.symm])) h
  | beginCancel => exact any_of_update (any_push rfl) h
  | publish hf | remove hf | abortIdle hf => exact any_of_update (any_pop hf) h
  | acquire hf ha => exact any_of_update (any_head hf ha.makes) h
  | @start _ y w old _ hf _ _ hw =>
    have h' := any_of_update (v := v.setFrames (.worker w) [.user, .workLoop .lock .init 0])
      (p := Frame.makes x)
        (any_head (g := .makeTimer y (.addInternalTimer old)) (frames_of_start hf hw)
        fun hg => hg) h
    refine any_of_update (fun g hg hp => ?_) h'
    simp only [List.mem_cons, List.not_mem_nil, or_false] at hg
    rcases hg with rfl | rfl <;> cases hp
  | unwind hf hc =>
    exact any_of_update (any_covers hf hc hb (by simp [Frame.makes, MakePc.pending])) h
  | clear hf _ hc | work hf _ hc =>
    exact any_of_update (any_covers hf hc hb (by simp [Frame.makes])) h
  | accept hf =>
    exact any_of_update (any_head (g := .makeTimer _ (.addInternalTimer none)) hf fun hg => hg) h
  | flag hf | refuse hf | unlock hf | add hf | abortWorker hf | cleared hf | wake hf | wait hf
  | goIdle hf | seeAbort hf | take hf | fire hf | exit hf =>
    exact any_of_update (any_head hf (by simp [Frame.makes, MakePc.pending])) h

/-- A timer that has been added is not to be added again. -/
theorem Step.toAdd (hs : Step v v') (hsingle : v.SingleLoop) (hx : x ≠ v.created) (h : v'.ToAdd x) :
    v.ToAdd x := by
  have hqueue : (x, .add) ∈ v'.requestQueue → v.ToAdd x := by
    intro hmem
    cases hs.queue with
    | same heq => exact .inr (.inl (heq ▸ hmem))
    | add hf heq =>
      rw [heq] at hmem
      rcases List.mem_append.1 hmem with hmem | hmem
      · exact .inr (.inl hmem)
      · cases List.mem_singleton.1 hmem
        exact .inl ⟨_, _, hf ▸ List.mem_cons_self, by simp [Frame.makes, MakePc.pending]⟩
    | remove heq =>
      rw [heq] at hmem
      rcases List.mem_append.1 hmem with hmem | hmem
      · exact .inr (.inl hmem)
      · cases List.mem_singleton.1 hmem
    | clear _ heq => exact .inr (.inl (heq ▸ List.mem_cons_of_mem _ hmem))
    | take _ _ _ heq => cases heq ▸ hmem
  rcases h with h | h | ⟨pc, q, hl, hmem⟩
  · exact .inl (hs.makes hx h)
  · exact hqueue h
  · cases hs.loop hsingle hl with
    | same hl => exact .inr (.inr ⟨pc, q, hl, hmem⟩)
    | start hpc =>
      rw [hpc] at hmem
      cases hmem
    | step hl hstep =>
      cases hstep with
      | wait _ hpc =>
        rw [requests_of_waits hpc] at hmem
        cases hmem
      | abort | fire => cases hmem
      | take => exact .inr (.inl hmem)
      | work hw => exact .inr (.inr ⟨_, _, hl, hw.requests.subset hmem⟩)

theorem Step.created_le (hs : Step v v') : v.created ≤ v'.created := by
  cases hs with
  | make => exact Nat.le_succ _
  | _ => exact le_rfl

/-- When a timer is removed, it is not to be added any more. -/
theorem OrderOk.not_toAdd {pc : WorkLoopPc} {q : TimerQueueInternal} (h : v.OrderOk)
    (ht : v.TokensOk) (hsingle : v.SingleLoop) (hl : v.Loop pc q)
    (hpc : pc.requests = (x, .remove) :: rs) : ¬ v.ToAdd x := by
  have hpair := h.taken pc q hl
  rw [hpc, List.cons_append, List.pairwise_cons] at hpair
  have hnot : (x, .add) ∉ rs ++ v.requestQueue := fun hmem => hpair.1 _ hmem rfl rfl
  rintro (⟨t, f, hf, hmakes⟩ | hmem | ⟨pc', q', hl', hmem⟩)
  · cases f with
    | makeTimer =>
      obtain ⟨rfl, -⟩ := of_decide_eq_true hmakes
      exact ht.not_removed hf hl (hpc ▸ List.mem_cons_self)
    | _ => cases hmakes
  · exact hnot (List.mem_append_right _ hmem)
  · obtain ⟨rfl, rfl⟩ := hsingle.unique hl hl'
    rw [hpc] at hmem
    rcases List.mem_cons.1 hmem with heq | hmem
    · cases heq
    · exact hnot (List.mem_append_left _ hmem)

end ToAdd

end TimerMachine

/-! ### Timers in the containers are not to be added -/

namespace TimerSystem

open TimerMachine

variable {s s' : TimerSystem} {t u : TimerThread} {x : ℕ}

/-- The frame has the ticket of a timer that may still be fired. -/
def HasTicket (t : TimerThread) (f : Frame) (x : ℕ) : Prop :=
  ∀ depth, (x, none) ∈ (f.tickets t depth).map Ticket.key

theorem HasTicket.stack {f : Frame} {fs : List Frame} (h : HasTicket t f x) (hf : f ∈ fs) :
    (x, none) ∈ (stackTickets t fs).map Ticket.key := by
  induction fs with
  | nil => cases hf
  | cons _ rest ih =>
    rw [stackTickets, List.map_append, List.mem_append]
    rcases List.mem_cons.1 hf with rfl | hf
    · exact .inl (h rest.length)
    · exact .inr (ih hf)

/-- No two frames of a stack have the ticket. -/
theorem HasTicket.eq {f g : Frame} {fs : List Frame}
    (hnd : ((stackTickets t fs).map Ticket.key).Nodup) (hf : f ∈ fs) (hg : g ∈ fs)
    (hxf : HasTicket t f x) (hxg : HasTicket t g x) : f = g := by
  induction fs with
  | nil => cases hf
  | cons _ rest ih =>
    rw [stackTickets, List.map_append, List.nodup_append'] at hnd
    obtain ⟨-, hrest, hdisj⟩ := hnd
    rcases List.mem_cons.1 hf with hfk | hf' <;> rcases List.mem_cons.1 hg with hgk | hg'
    · exact hfk.trans hgk.symm
    · exact (hdisj (hfk ▸ hxf rest.length) (hxg.stack hg')).elim
    · exact (hdisj (hgk ▸ hxg rest.length) (hxf.stack hf')).elim
    · exact ih hrest hf' hg'

theorem DelayInv.ticket_unique {f g : Frame} (h : s.DelayInv) (hf : f ∈ s.frames t)
    (hg : g ∈ s.frames u) (hxf : HasTicket t f x) (hxg : HasTicket u g x) : f = g := by
  have hplaced := h.ok.unique
  have htu : some t = some u := hplaced.unique (hxf.stack hf) (hxg.stack hg)
  cases htu
  exact hxf.eq (hplaced.nodup (some t)) hf hg hxg

theorem mem_addTickets {o : Owner} (h : (x, .add) ∈ rs) :
    (x, none) ∈ (addTickets o rs).map Ticket.key := by
  induction rs with
  | nil => cases h
  | cons p _ ih =>
    obtain ⟨y, r⟩ := p
    cases r with
    | add =>
      rcases List.mem_cons.1 h with heq | h
      · cases heq
        exact List.mem_cons_self
      · exact List.mem_cons_of_mem _ (ih h)
    | remove =>
      rcases List.mem_cons.1 h with heq | h
      · cases heq
      · exact ih h

theorem mem_tickets_of_requests {pc : WorkLoopPc} (h : (x, .add) ∈ pc.requests) :
    (x, none) ∈ (pc.tickets t).map Ticket.key := by
  cases pc with
  | process => exact mem_addTickets h
  | erase | unmap | removed =>
    rcases List.mem_cons.1 h with heq | h
    · cases heq
    · exact mem_addTickets h
  | _ => cases h

theorem mem_elements {q : TimerQueueInternal} (h : x ∈ q.timers.map Prod.snd) :
    (x, none) ∈ (q.elements t).map Ticket.key := by
  obtain ⟨e, he, rfl⟩ := List.mem_map.1 h
  exact List.mem_map.2 ⟨_, List.mem_map.2 ⟨e, he, rfl⟩, rfl⟩

/-- A timer of the multiset is not to be added. -/
theorem DelayInv.not_toAdd {pc : WorkLoopPc} {q : TimerQueueInternal} (h : s.DelayInv)
    (hsingle : s.machine.SingleLoop) (hl : s.machine.Loop pc q) (hx : x ∈ q.timers.map Prod.snd) :
    ¬ s.machine.ToAdd x := by
  have hloop := hl
  obtain ⟨u, d, hu⟩ := hl
  have hticket : HasTicket u (.workLoop pc q d) x := fun depth => by
    rw [Frame.tickets, List.map_append]
    exact List.mem_append_right _ (mem_elements hx)
  rintro (⟨t, f, hf, hmakes⟩ | hmem | ⟨pc', q', hl', hmem⟩)
  · cases f with
    | makeTimer y pc' =>
      obtain ⟨rfl, hpend⟩ := of_decide_eq_true hmakes
      have hmake : HasTicket t (.makeTimer y pc') y := fun depth => by
        simp [Frame.tickets, hpend, Ticket.key]
      cases h.ticket_unique hf hu hmake hticket
    | _ => cases hmakes
  · have hqueue : (x, none) ∈ (ticketsAt s.frames s.requestQueue s.stored none).map Ticket.key := by
      rw [ticketsAt, List.map_append]
      exact List.mem_append_left _ (mem_addTickets hmem)
    cases h.ok.unique.unique (p := none) (q := some u) hqueue (hticket.stack hu)
  · obtain ⟨rfl, rfl⟩ := hsingle.unique hloop hl'
    -- the worker has taken the request, and the timer is in its multiset
    have hnd : ∀ {fs : List Frame}, ((stackTickets u fs).map Ticket.key).Nodup →
        .workLoop pc q d ∈ fs → ((pc.tickets u ++ q.elements u).map Ticket.key).Nodup := by
      intro fs hnd hmem
      induction fs with
      | nil => cases hmem
      | cons _ _ ih =>
        rw [stackTickets, List.map_append, List.nodup_append'] at hnd
        rcases List.mem_cons.1 hmem with rfl | hmem
        · exact hnd.1
        · exact ih hnd.2.1 hmem
    have hnd := hnd (h.ok.unique.nodup (some u)) hu
    rw [List.map_append, List.nodup_append'] at hnd
    exact hnd.2.2 (mem_tickets_of_requests hmem) (mem_elements hx)

structure RequestsInv (v : TimerMachine) : Prop where
  tokens : v.TokensOk
  order : v.OrderOk

theorem requestsInv_of_reachable (h : Reachable s) : RequestsInv s.machine := by
  induction h with
  | start hs =>
    cases hs
    have htokens : ∀ p, initial.machine.tokens p = [] := by
      intro p
      cases p <;> rfl
    refine ⟨⟨.of_eq_nil htokens, fun x hx => ?_, fun x hx => ?_⟩, ⟨.nil, ?_⟩⟩
    · cases hx
    · rcases hx with hx | hx
      · exact absurd hx (not_held_of_eq_nil htokens)
      · cases hx
    · rintro pc q ⟨t, d, hmem⟩
      cases hmem
  | next hr _ hs ih =>
    have hstep := step_machine (delayInv_of_reachable hr) hs
    exact ⟨ih.tokens.step hstep, ih.order.step ih.tokens (loopInv_of_reachable hr).single hstep⟩

/-- From now on, the timer is not to be added. -/
theorem not_toAdd_of_run {as : List TimerMove} (h : Reachable s) (hx : x < s.created)
    (hnot : ¬ s.machine.ToAdd x) (hr : run step s as = some s') : ¬ s'.machine.ToAdd x := by
  have hinv := run_invariant
    (fun s : TimerSystem => s.Reachable ∧ x < s.created ∧ ¬ s.machine.ToAdd x)
    (fun s m s' ⟨h, hx, hnot⟩ hs => by
      have hstep := step_machine (delayInv_of_reachable h) hs
      exact ⟨.next h trivial hs, hx.trans_le hstep.created_le, fun h' =>
        hnot (hstep.toAdd (loopInv_of_reachable h).single (ne_of_lt hx) h')⟩) ⟨h, hx, hnot⟩ hr
  exact hinv.2.2

/-! ### The idle queue -/

/-- The next step of the thread consumes the request. -/
def Consumes (s : TimerSystem) (t : TimerThread) (x : ℕ) (r : TimerRequest) : Prop :=
  ∃ rs q deadline rest, s.frames t = .workLoop (.process ((x, r) :: rs)) q deadline :: rest

theorem Consumes.toAdd (h : s.Consumes t x .add) : s.machine.ToAdd x := by
  obtain ⟨rs, q, deadline, rest, hf⟩ := h
  exact .inr (.inr ⟨_, q, loop_of_head (v := s.machine) hf, List.mem_cons_self⟩)

/-- Behind the step that consumes it, the timer is in the multiset. -/
theorem Consumes.not_toAdd (h : Reachable s) (hc : s.Consumes t x .add)
    (hs : s.step (.step t) = some s') : x < s'.created ∧ ¬ s'.machine.ToAdd x := by
  obtain ⟨rs, q, deadline, rest, hf⟩ := hc
  have hr : Reachable s' := .next h trivial hs
  have hinv := delayInv_of_reachable h
  have hx : x < s.created := by
    have hmem : (⟨x, none, .taken t .add, true⟩ : Ticket) ∈ stackTickets t (s.frames t) := by
      rw [hf]
      exact List.mem_cons_self
    exact hinv.ok.old (some t) _ hmem
  have hx' := hx.trans_le (step_machine hinv hs).created_le
  unfold step at hs
  split_ifs at hs
  simp only [liveStep, hf, nextStep, workLoopStep, processTimersStep, Option.some.injEq] at hs
  have hloop : s'.machine.Loop (.process rs) (q.addTimerInternal s.deadlines x) := by
    refine ⟨t, deadline, ?_⟩
    have hf' : s'.frames t =
        .workLoop (.process rs) (q.addTimerInternal s.deadlines x) deadline :: rest := by
      rw [← hs]
      exact update_self ..
    change _ ∈ s'.frames t
    rw [hf']
    exact List.mem_cons_self
  refine ⟨hx', (delayInv_of_reachable hr).not_toAdd (loopInv_of_reachable hr).single hloop ?_⟩
  refine List.mem_map.2 ⟨(q.nodes, x), ?_, rfl⟩
  exact (List.perm_orderedInsert _ _ _).mem_iff.2 List.mem_cons_self

theorem Consumes.removed_not_toAdd (h : Reachable s) (hc : s.Consumes t x .remove) :
    x < s.created ∧ ¬ s.machine.ToAdd x := by
  obtain ⟨rs, q, deadline, rest, hf⟩ := hc
  have hloop : s.machine.Loop (.process ((x, .remove) :: rs)) q := loop_of_head hf
  have hinv := requestsInv_of_reachable h
  refine ⟨?_, hinv.order.not_toAdd hinv.tokens (loopInv_of_reachable h).single hloop rfl⟩
  refine hinv.tokens.old x (.inl ⟨some t, List.mem_flatMap.2 ⟨_, hf ▸ List.mem_cons_self, ?_⟩⟩)
  exact mem_removals.2 List.mem_cons_self

/-- **The timer queue drops no timer when its worker goes idle.**

While `m_idle` is set, no timer waits to be added, and nobody is in `work_loop`.  At most one thread
at a time is there.  A request to add a timer leaves `m_request_queue` with the worker that takes
all requests to process them, or when `shutdown` clears it; it is consumed once, and not behind a
request to remove the timer. -/
theorem timers_survive_idle (h : Reachable s) :
    (s.idle = true → (∀ x, (x, .add) ∉ s.requestQueue) ∧
      ∀ t pc q deadline, .workLoop pc q deadline ∉ s.frames t) ∧
    (∀ t u f g, f ∈ s.frames t → g ∈ s.frames u → f.isWorkLoop = true → g.isWorkLoop = true →
      t = u ∧ f = g) ∧
    (∀ m s' x, s.step m = some s' → (x, .add) ∈ s.requestQueue → (x, .add) ∉ s'.requestQueue →
      (∃ t q deadline rest, s.abort = false ∧ s.frames t = .workLoop .woken q deadline :: rest ∧
        s'.frames t = .workLoop (.process s.requestQueue) q deadline :: rest) ∨
      ∃ t rest, s.frames t = .shutdown .clear :: rest) ∧
    (∀ t x s', s.Consumes t x .add → s.step (.step t) = some s' →
      ∀ as s'', run step s' as = some s'' → ∀ u, ¬ s''.Consumes u x .add) ∧
    (∀ t x, s.Consumes t x .remove →
      ∀ as s', run step s as = some s' → ∀ u, ¬ s'.Consumes u x .add) := by
  have hinv := loopInv_of_reachable h
  obtain ⟨loop, hsole, hidle⟩ := hinv.single
  refine ⟨fun hid => ⟨(hinv.idle hid).2, fun t pc q d hmem => ?_⟩, ?_, ?_, ?_, ?_⟩
  · have hnone : Sole Frame.isWorkLoop s.frames none := hidle hid ▸ hsole
    exact hnone.none_not_mem rfl hmem
  · intro t u f g hf hg hfl hgl
    exact hsole.eq hf hg hfl hgl
  · intro m s' x hs hmem hnot
    change (x, .add) ∈ s.machine.requestQueue at hmem
    change (x, .add) ∉ s'.machine.requestQueue at hnot
    cases (step_machine (delayInv_of_reachable h) hs).queue with
    | same heq => exact (hnot (heq ▸ hmem)).elim
    | add _ heq | remove heq => exact (hnot (heq ▸ List.mem_append_left _ hmem)).elim
    | clear hf => exact Or.inr ⟨_, _, hf⟩
    | take hf habort hf' => exact Or.inl ⟨_, _, _, _, habort, hf, hf'⟩
  · intro t x s' hc hs as s'' hr u hc'
    obtain ⟨hx, hnot⟩ := hc.not_toAdd h hs
    exact not_toAdd_of_run (.next h trivial hs) hx hnot hr hc'.toAdd
  · intro t x hc as s' hr u hc'
    obtain ⟨hx, hnot⟩ := hc.removed_not_toAdd h
    exact not_toAdd_of_run h hx hnot hr hc'.toAdd

/-- The first timer is made, and the worker takes its request. -/
def firstTimer : List TimerMove :=
  [.enter 0, .call (.caller 0) (.makeTimer true 5 5), .step (.caller 0), .step (.caller 0),
    .step (.caller 0), .leave (.worker 0), .step (.worker 0), .step (.worker 0), .step (.worker 0)]

theorem timers_survive_idle_of_first_timer :
    ∃ s, Reachable s ∧ s.Consumes (.worker 0) 0 .add ∧
      ∀ s', s.step (.step (.worker 0)) = some s' → ∀ as s'', run step s' as = some s'' →
        ∀ u, ¬ s''.Consumes u 0 .add := by
  have h : Reachable _ := .lastState (by rfl) firstTimer
  have hc : (lastState step initial firstTimer).Consumes (.worker 0) 0 .add :=
    ⟨[], .init, 0, [], by decide +kernel⟩
  obtain ⟨-, -, -, honce, -⟩ := timers_survive_idle h
  exact ⟨_, h, hc, fun s' hstep => honce (.worker 0) 0 s' hc hstep⟩

end TimerSystem
end Concurrencpp
