import Concurrencpp.Timers.TimerMachine

/-!
# One worker at a time

`m_idle` and `m_lock` decide who may run `work_loop`.

* `Mutex`: the owner of `m_lock` has the only frame in a critical section.
* `SingleLoop`: at most one frame of all threads is a `work_loop`, and none while `m_idle` is set.
* `IdleOk`: while `m_idle` is set, no timer waits to be added, and none is about to be put into
  `m_request_queue`.
* `Step.loop` and `Step.queue`: what a step may do to the worker, and to the requests.
-/

namespace Concurrencpp

open Placement
open Function (update update_self update_of_ne)

/-- `add_internal_timer` is about to push a request. -/
def Frame.adds : Frame → Bool
  | .makeTimer _ (.addInternalTimer _) => true
  | _ => false

/-- The worker locks or waits. -/
def WorkLoopPc.waits : WorkLoopPc → Bool
  | .lock | .locked | .waiting | .timedOut | .woken => true
  | _ => false

theorem Frame.holds_of_adds (f : Frame) (h : f.adds = true) : f.holds = true := by
  cases f with
  | makeTimer _ pc =>
    cases pc with
    | addInternalTimer => rfl
    | _ => cases h
  | _ => cases h

theorem Frame.busy_of_holds (f : Frame) (h : f.holds = true) : f.busy = true := by
  cases f with
  | makeTimer => exact Bool.or_eq_true_iff.2 (.inr h)
  | shutdown => exact h
  | cancel => rfl
  | workLoop => rfl
  | _ => cases h

theorem Frame.busy_of_isWorkLoop (f : Frame) (h : f.isWorkLoop = true) : f.busy = true := by
  cases f with
  | workLoop => rfl
  | _ => cases h

theorem Acquires.holds {f g : Frame} (h : Acquires f g) : f.holds = false ∧ g.holds = true := by
  cases h <;> exact ⟨rfl, rfl⟩

theorem Acquires.isWorkLoop {f g : Frame} (h : Acquires f g) : g.isWorkLoop = f.isWorkLoop := by
  cases h <;> rfl

theorem Acquires.adds {f g : Frame} (h : Acquires f g) : g.adds = f.adds := by
  cases h <;> rfl

section Quiet

variable {fs fs' : List Frame} {p : Frame → Bool}

theorem Quiet.countP (h : Quiet fs fs') (hp : ∀ f, p f = true → f.busy = true) :
    fs'.countP p = fs.countP p := by
  have hfilter : ∀ l : List Frame, l.countP p = (l.filter Frame.busy).countP p := by
    intro l
    rw [List.countP_filter]
    refine List.countP_congr fun f _ => ?_
    simp only [Bool.and_eq_true]
    exact ⟨fun hf => ⟨hf, hp f hf⟩, And.left⟩
  rw [hfilter fs', hfilter fs, h.busy]

theorem Quiet.mem_iff {f : Frame} (h : Quiet fs fs') (hf : f.busy = true) : f ∈ fs' ↔ f ∈ fs := by
  have hmem : ∀ l : List Frame, f ∈ l ↔ f ∈ l.filter Frame.busy := fun l => by
    rw [List.mem_filter, and_iff_left hf]
  rw [hmem fs', hmem fs, h.busy]

end Quiet

namespace TimerMachine

variable {v v' : TimerMachine} {t u : TimerThread}

def Mutex (v : TimerMachine) : Prop := Sole Frame.holds v.frames v.lock

def SingleLoop (v : TimerMachine) : Prop :=
  ∃ loop, Sole Frame.isWorkLoop v.frames loop ∧ (v.idle = true → loop = none)

def IdleOk (v : TimerMachine) : Prop :=
  v.idle = true → Sole Frame.adds v.frames none ∧ ∀ x, (x, TimerRequest.add) ∉ v.requestQueue

/-! ### Who owns the lock -/

section Change

variable {p : Frame → Bool} {o : Option TimerThread} {f g : Frame} {rest fs : List Frame}

/-- The innermost frame changes, and user code may begin. -/
theorem sole_covered (h : Sole p v.frames o) (hf : v.frames t = f :: rest)
    (hc : Covers (g :: rest) fs) (hp : ∀ f, p f = true → f.busy = true) (hg : p g = p f) :
    Sole p (update v.frames t fs) o := by
  refine h.update_same ?_
  rw [hc.quiet.countP hp, hf, List.countP_cons, List.countP_cons, hg]

theorem sole_head (h : Sole p v.frames o) (hf : v.frames t = f :: rest) (hg : p g = p f) :
    Sole p (update v.frames t (g :: rest)) o := by
  refine h.update_same ?_
  rw [hf, List.countP_cons, List.countP_cons, hg]

theorem sole_pop (h : Sole p v.frames o) (hf : v.frames t = f :: rest) (hpf : p f = false) :
    Sole p (update v.frames t rest) o := by
  refine h.update_same ?_
  rw [hf, List.countP_cons_of_neg (by simp [hpf])]

theorem sole_push (h : Sole p v.frames o) (hpf : p f = false) :
    Sole p (update v.frames t (f :: v.frames t)) o :=
  h.update_same (List.countP_cons_of_neg (by simp [hpf]))

/-- The innermost frame becomes the only one. -/
theorem sole_enter (h : Sole p v.frames none) (hf : v.frames t = f :: rest) (hpf : p f = false)
    (hg : p g = true) : Sole p (update v.frames t (g :: rest)) (some t) := by
  refine h.gain ?_
  have hzero := h t
  rw [hf, List.countP_cons_of_neg (by simp [hpf]), if_neg (by simp)] at hzero
  rw [List.countP_cons_of_pos hg, hzero]

/-- The innermost frame was the only one. -/
theorem sole_leave (h : Sole p v.frames o) (hf : v.frames t = f :: rest) (hpf : p f = true)
    (hfs : fs.countP p = rest.countP p) : Sole p (update v.frames t fs) none := by
  refine h.lose (hf ▸ List.mem_cons_self) hpf ?_
  rw [hfs]
  exact h.countP_rest hf hpf

end Change

theorem WorkStep.holds {pc pc' : WorkLoopPc} {q q' : TimerQueueInternal}
    (h : WorkStep v pc q pc' q') : pc.holds = false ∧ pc'.holds = false := by
  cases h <;> exact ⟨rfl, rfl⟩

/-- The thread that starts a worker is another one. -/
theorem frames_of_start {f : Frame} {rest fs : List Frame} {w : ℕ} (hf : v.frames t = f :: rest)
    (hw : v.frames (.worker w) = []) : (v.setFrames (.worker w) fs).frames t = f :: rest := by
  have hne : t ≠ .worker w := by
    rintro rfl
    cases hf.symm.trans hw
  exact (update_of_ne hne ..).trans hf

theorem Mutex.step (h : v.Mutex) (hs : Step v v') : v'.Mutex := by
  have hb := Frame.busy_of_holds
  cases hs with
  | stay | tick | setFrequency => exact h
  | quiet hq => exact h.update_same (hq.countP hb)
  | make | beginCancel => exact sole_push h rfl
  | publish hf => exact sole_pop h hf rfl
  | flag hf | refuse hf | accept hf | abortWorker hf | fire hf | exit hf => exact sole_head h hf rfl
  | acquire hf ha hfree =>
    obtain ⟨hholds, hholds'⟩ := ha.holds
    have hnone : Sole Frame.holds v.frames none := hfree ▸ h
    exact sole_enter hnone hf hholds hholds'
  | start hf _ _ hw =>
    have hworker :
        Sole Frame.holds (v.setFrames (.worker _) [.user, .workLoop .lock .init 0]).frames
        v.lock := h.update_same (by rw [hw]; rfl)
    exact sole_head (v := v.setFrames _ _) hworker (frames_of_start hf hw) rfl
  | unwind hf hc | clear hf _ hc => exact sole_covered h hf hc hb rfl
  | unlock hf | add hf | cleared hf | wait hf | goIdle hf | seeAbort hf | take hf =>
    exact sole_leave h hf rfl (List.countP_cons_of_neg (by simp [Frame.holds, MakePc.holds,
      TimerShutdownPc.holds, WorkLoopPc.holds]))
  | remove hf | abortIdle hf => exact sole_leave h hf rfl rfl
  | wake hf hpc => rcases hpc with rfl | rfl <;> exact sole_head h hf rfl
  | work hf hw hc =>
    obtain ⟨hpc, hpc'⟩ := hw.holds
    exact sole_covered h hf hc hb (hpc'.trans hpc.symm)

/-! ### Who runs `work_loop` -/

/-- What a step does to the number of workers, when the thread `loop` has the only one. -/
inductive LoopCount (v v' : TimerMachine) (loop : Option TimerThread) : Prop
  | same : Sole Frame.isWorkLoop v'.frames loop → v'.idle = v.idle → LoopCount v v' loop
  | start {w : ℕ} : Sole Frame.isWorkLoop v'.frames (some (.worker w)) → v.idle = true →
      v'.idle = false → LoopCount v v' loop
  | leave {t : TimerThread} {pc : WorkLoopPc} {q : TimerQueueInternal} {deadline : ℕ}
      {rest : List Frame} : Sole Frame.isWorkLoop v'.frames none →
      v.frames t = .workLoop pc q deadline :: rest → pc = .timedOut ∨ pc = .aborted →
      LoopCount v v' loop

theorem Step.loopCount {loop : Option TimerThread} (hs : Step v v')
    (hsole : Sole Frame.isWorkLoop v.frames loop) (hidle : v.idle = true → loop = none) :
    LoopCount v v' loop := by
  have hb := Frame.busy_of_isWorkLoop
  cases hs with
  | stay | tick | setFrequency => exact .same hsole rfl
  | quiet hq => exact .same (hsole.update_same (hq.countP hb)) rfl
  | make | beginCancel => exact .same (sole_push hsole rfl) rfl
  | flag hf | refuse hf | accept hf | abortWorker hf | fire hf | unlock hf | add hf | cleared hf
  | wait hf | seeAbort hf | take hf | wake hf => exact .same (sole_head hsole hf rfl) rfl
  | acquire hf ha => exact .same (sole_head hsole hf ha.isWorkLoop) rfl
  | @start _ _ w _ _ hf _ hid hw =>
    -- `m_idle` was set, so nobody was in `work_loop`
    have hnone : Sole Frame.isWorkLoop v.frames none := hidle hid ▸ hsole
    have hworker : Sole Frame.isWorkLoop
        (v.setFrames (.worker w) [.user, .workLoop .lock .init 0]).frames (some (.worker w)) :=
      hnone.gain rfl
    exact .start (sole_head (v := v.setFrames _ _) hworker (frames_of_start hf hw) rfl) hid rfl
  | unwind hf hc | clear hf _ hc | work hf _ hc => exact .same (sole_covered hsole hf hc hb rfl) rfl
  | publish hf | remove hf | abortIdle hf => exact .same (sole_pop hsole hf rfl) rfl
  | goIdle hf => exact .leave (sole_leave hsole hf rfl rfl) hf (.inl rfl)
  | exit hf => exact .leave (sole_leave hsole hf rfl rfl) hf (.inr rfl)

theorem SingleLoop.step (h : v.SingleLoop) (hs : Step v v') : v'.SingleLoop := by
  obtain ⟨loop, hsole, hidle⟩ := h
  cases hs.loopCount hsole hidle with
  | same hsole' heq => exact ⟨loop, hsole', fun hid => hidle (heq ▸ hid)⟩
  | start hsole' _ hfalse => exact ⟨_, hsole', fun hid => by cases hid.symm.trans hfalse⟩
  | leave hsole' => exact ⟨none, hsole', fun _ => rfl⟩

/-! ### What waits while the queue is idle -/

theorem IdleOk.step (h : v.IdleOk) (hm : v.Mutex) (hs : Step v v') : v'.IdleOk := by
  have hb : ∀ f : Frame, f.adds = true → f.busy = true := fun f hf =>
    f.busy_of_holds (f.holds_of_adds hf)
  intro hidle
  cases hs with
  | stay | tick | setFrequency => exact h hidle
  | quiet hq => exact ⟨(h hidle).1.update_same (hq.countP hb), (h hidle).2⟩
  | make | beginCancel => exact ⟨sole_push (h hidle).1 rfl, (h hidle).2⟩
  | flag hf | refuse hf | abortWorker hf | fire hf | unlock hf | cleared hf | wait hf | seeAbort hf
  | wake hf | exit hf => exact ⟨sole_head (h hidle).1 hf rfl, (h hidle).2⟩
  | acquire hf ha => exact ⟨sole_head (h hidle).1 hf ha.adds, (h hidle).2⟩
  | accept _ _ hfalse => cases hfalse.symm.trans hidle
  | start => cases hidle
  | unwind hf hc | work hf _ hc => exact ⟨sole_covered (h hidle).1 hf hc hb rfl, (h hidle).2⟩
  | clear hf hq hc =>
    refine ⟨sole_covered (h hidle).1 hf hc hb rfl, fun x hx => (h hidle).2 x ?_⟩
    rw [hq]
    exact List.mem_cons_of_mem _ hx
  | add hf => exact ((h hidle).1.none_not_mem rfl (hf ▸ List.mem_cons_self)).elim
  | remove hf =>
    refine ⟨sole_pop (h hidle).1 hf rfl, fun x hx => ?_⟩
    rcases List.mem_append.1 hx with hx | hx
    · exact (h hidle).2 x hx
    · simp at hx
  | publish hf | abortIdle hf => exact ⟨sole_pop (h hidle).1 hf rfl, (h hidle).2⟩
  | @goIdle t _ _ rest hf hq =>
    -- the worker was in its critical section, so `add_timer` was not
    have hnone : Sole Frame.holds (v.release t (.user :: rest)).frames none :=
      sole_leave hm hf rfl rfl
    refine ⟨hnone.none_of_imp Frame.holds_of_adds, fun x hx => ?_⟩
    cases hq ▸ hx
  | take hf => exact ⟨sole_head (h hidle).1 hf rfl, by simp⟩

/-! ### What a step does to the worker -/

/-- Some thread is in `work_loop`, at `pc` and with the containers `q`. -/
def Loop (v : TimerMachine) (pc : WorkLoopPc) (q : TimerQueueInternal) : Prop :=
  ∃ t deadline, .workLoop pc q deadline ∈ v.frames t

theorem loop_of_head {pc : WorkLoopPc} {q : TimerQueueInternal} {deadline : ℕ} {rest : List Frame}
    (hf : v.frames t = .workLoop pc q deadline :: rest) : v.Loop pc q :=
  ⟨t, deadline, hf ▸ List.mem_cons_self⟩

theorem SingleLoop.unique (h : v.SingleLoop) {pc pc' : WorkLoopPc} {q q' : TimerQueueInternal}
    (hl : v.Loop pc q) (hl' : v.Loop pc' q') : pc = pc' ∧ q = q' := by
  obtain ⟨loop, hsole, -⟩ := h
  obtain ⟨t, d, hmem⟩ := hl
  obtain ⟨t', d', hmem'⟩ := hl'
  obtain ⟨hpc, hq, -⟩ := Frame.workLoop.inj (hsole.eq hmem hmem' rfl rfl).2
  exact ⟨hpc, hq⟩

theorem SingleLoop.not_idle (h : v.SingleLoop) {pc : WorkLoopPc} {q : TimerQueueInternal}
    (hl : v.Loop pc q) : v.idle = false := by
  obtain ⟨loop, hsole, hidle⟩ := h
  obtain ⟨t, d, hmem⟩ := hl
  refine Bool.eq_false_iff.2 fun hid => ?_
  have hnone : Sole Frame.isWorkLoop v.frames none := hidle hid ▸ hsole
  exact hnone.none_not_mem rfl hmem

/-- The worker is still there, unless it leaves `work_loop`. -/
theorem Step.exists_loop (hs : Step v v') (hsingle : v.SingleLoop) {pc : WorkLoopPc}
    {q : TimerQueueInternal} (hl : v.Loop pc q) (hpc : pc ≠ .timedOut ∧ pc ≠ .aborted) :
    ∃ pc' q', v'.Loop pc' q' := by
  obtain ⟨loop, hsole, hidle⟩ := id hsingle
  obtain ⟨t, d, hmem⟩ := id hl
  obtain rfl := hsole.eq_some hmem rfl
  cases hs.loopCount hsole hidle with
  | same hsole' =>
    have hpos : 0 < (v'.frames t).countP Frame.isWorkLoop := by
      rw [hsole' t, if_pos rfl]
      exact Nat.one_pos
    obtain ⟨f, hf, hloop⟩ := List.countP_pos_iff.1 hpos
    cases f with
    | workLoop pc' q' d' => exact ⟨pc', q', t, d', hf⟩
    | _ => cases hloop
  | start _ hid => cases hid.symm.trans (hsingle.not_idle hl)
  | leave _ hf hpc' =>
    obtain ⟨rfl, rfl⟩ := hsingle.unique (loop_of_head hf) hl
    exact (hpc'.elim hpc.1 hpc.2).elim

/-- The timers are as before, but for one that is new, and none is fired. -/
structure Calm (v v' : TimerMachine) : Prop where
  deadlines : ∀ x, x ≠ v.created → v'.deadlines x = v.deadlines x
  isOneshot : ∀ x, x ≠ v.created → (v'.schedule x).isOneshot = (v.schedule x).isOneshot
  posts : v'.posts = v.posts

/-- How the worker goes on. -/
inductive LoopStep (v v' : TimerMachine) :
    WorkLoopPc → TimerQueueInternal → WorkLoopPc → TimerQueueInternal → Prop
  | wait {pc pc' : WorkLoopPc} {q : TimerQueueInternal} : pc.waits = true → pc'.waits = true →
      Calm v v' → LoopStep v v' pc q pc' q
  | abort {q : TimerQueueInternal} : Calm v v' → LoopStep v v' .woken q .aborted q
  | take {q : TimerQueueInternal} : v'.requestQueue = [] → Calm v v' →
      LoopStep v v' .woken q (.process v.requestQueue) q
  | work {pc pc' : WorkLoopPc} {q q' : TimerQueueInternal} : WorkStep v pc q pc' q' →
      v'.requestQueue = v.requestQueue → v'.schedule = v.schedule → v'.posts = v.posts →
      LoopStep v v' pc q pc' q'
  | fire {now node x : ℕ} {q : TimerQueueInternal} : v'.requestQueue = v.requestQueue →
      v'.schedule = update v.schedule x { v.schedule x with
        deadline := v.now + (v.schedule x).frequency } →
      v'.posts = update v.posts x (v.posts x + 1) →
      LoopStep v v' (.extracted now node x) q (.post now node x (v.posts x)) q

/-- Where the worker of the new state comes from. -/
inductive LoopOrigin (v v' : TimerMachine) (pc' : WorkLoopPc) (q' : TimerQueueInternal) : Prop
  | same : v.Loop pc' q' → Calm v v' → LoopOrigin v v' pc' q'
  | start : pc' = .lock → q' = .init → v.idle = true → LoopOrigin v v' pc' q'
  | step {pc : WorkLoopPc} {q : TimerQueueInternal} : v.Loop pc q → LoopStep v v' pc q pc' q' →
      LoopOrigin v v' pc' q'

section Loops

variable {pc pc' : WorkLoopPc} {q q' : TimerQueueInternal} {deadline : ℕ} {f g : Frame}
  {rest fs : List Frame}

theorem Calm.of_eq (hs : v'.schedule = v.schedule) (hp : v'.posts = v.posts) : Calm v v' :=
  ⟨fun x _ => congrArg Schedule.deadline (congrFun hs x),
    fun x _ => congrArg Schedule.isOneshot (congrFun hs x), hp⟩

/-- One timer changes, and keeps its deadline. -/
theorem Calm.of_update {x : ℕ} {c : Schedule} (hs : v'.schedule = update v.schedule x c)
    (hp : v'.posts = v.posts)
    (hc : x ≠ v.created →
      c.deadline = (v.schedule x).deadline ∧ c.isOneshot = (v.schedule x).isOneshot) :
    Calm v v' := by
  have hsame : ∀ y, y ≠ v.created → (v'.schedule y).deadline = (v.schedule y).deadline ∧
      (v'.schedule y).isOneshot = (v.schedule y).isOneshot := by
    intro y hy
    rw [hs]
    by_cases hyx : y = x
    · subst hyx
      rw [update_self]
      exact hc hy
    · rw [update_of_ne hyx]
      exact ⟨rfl, rfl⟩
  exact ⟨fun y hy => (hsame y hy).1, fun y hy => (hsame y hy).2, hp⟩

/-- A worker of the new state is one of the changed stack, or it was there before. -/
theorem loop_of_update (h : ∃ u d, .workLoop pc q d ∈ update v.frames t fs u) :
    v.Loop pc q ∨ ∃ d, .workLoop pc q d ∈ fs := by
  obtain ⟨u, d, hmem⟩ := h
  by_cases hu : u = t
  · subst hu
    rw [update_self] at hmem
    exact .inr ⟨d, hmem⟩
  · rw [update_of_ne hu] at hmem
    exact .inl ⟨u, d, hmem⟩

theorem loop_of_rest (hf : v.frames t = f :: rest)
    (h : ∃ u d, .workLoop pc q d ∈ update v.frames t rest u) : v.Loop pc q := by
  rcases loop_of_update h with hl | ⟨d, hmem⟩
  · exact hl
  · exact ⟨t, d, hf ▸ List.mem_cons_of_mem _ hmem⟩

/-- The innermost frame becomes another one that is not the worker. -/
theorem loop_of_head_update (hf : v.frames t = f :: rest) (hg : g.isWorkLoop = false)
    (h : ∃ u d, .workLoop pc q d ∈ update v.frames t (g :: rest) u) : v.Loop pc q := by
  rcases loop_of_update h with hl | ⟨d, hmem⟩
  · exact hl
  · rcases List.mem_cons.1 hmem with rfl | hmem
    · cases hg
    · exact ⟨t, d, hf ▸ List.mem_cons_of_mem _ hmem⟩

theorem loop_of_push (hg : g.isWorkLoop = false)
    (h : ∃ u d, .workLoop pc q d ∈ update v.frames t (g :: v.frames t) u) : v.Loop pc q := by
  rcases loop_of_update h with hl | ⟨d, hmem⟩
  · exact hl
  · rcases List.mem_cons.1 hmem with rfl | hmem
    · cases hg
    · exact ⟨t, d, hmem⟩

theorem loop_of_quiet (hq : Quiet (v.frames t) fs)
    (h : ∃ u d, .workLoop pc q d ∈ update v.frames t fs u) : v.Loop pc q := by
  rcases loop_of_update h with hl | ⟨d, hmem⟩
  · exact hl
  · exact ⟨t, d, (hq.mem_iff rfl).1 hmem⟩

/-- The innermost frame becomes another one that is not the worker, and user code may begin. -/
theorem loop_of_covers (hf : v.frames t = f :: rest) (hc : Covers (g :: rest) fs)
    (hg : g.isWorkLoop = false) (h : ∃ u d, .workLoop pc q d ∈ update v.frames t fs u) :
    v.Loop pc q := by
  rcases loop_of_update h with hl | ⟨d, hmem⟩
  · exact hl
  · rcases List.mem_cons.1 ((hc.quiet.mem_iff rfl).1 hmem) with rfl | hmem
    · cases hg
    · exact ⟨t, d, hf ▸ List.mem_cons_of_mem _ hmem⟩

/-- The worker goes on, and there is no other. -/
theorem origin_of_worker {pc'' : WorkLoopPc} {q'' : TimerQueueInternal} {deadline' : ℕ}
    (hsingle : v'.SingleLoop) (hl : v'.Loop pc' q')
    (hf : v.frames t = .workLoop pc q deadline :: rest)
    (hc : Covers (.workLoop pc'' q'' deadline' :: rest) fs) (hf' : v'.frames t = fs)
    (hstep : LoopStep v v' pc q pc'' q'') : LoopOrigin v v' pc' q' := by
  have hnew : v'.Loop pc'' q'' :=
    ⟨t, deadline', hf'.symm ▸ (hc.quiet.mem_iff rfl).2 List.mem_cons_self⟩
  obtain ⟨rfl, rfl⟩ := hsingle.unique hnew hl
  exact .step (loop_of_head hf) hstep

theorem Step.loop (hs : Step v v') (hsingle : v.SingleLoop) (hl : v'.Loop pc' q') :
    LoopOrigin v v' pc' q' := by
  have hsingle' := hsingle.step hs
  cases hs with
  | stay | tick => exact .same hl (.of_eq rfl rfl)
  | setFrequency => exact .same hl (.of_update rfl rfl fun _ => ⟨rfl, rfl⟩)
  | quiet hq => exact .same (loop_of_quiet hq hl) (.of_eq rfl rfl)
  | make => exact .same (loop_of_push rfl hl) (.of_update rfl rfl fun hx => (hx rfl).elim)
  | beginCancel => exact .same (loop_of_push rfl hl) (.of_eq rfl rfl)
  | publish hf | remove hf | abortIdle hf => exact .same (loop_of_rest hf hl) (.of_eq rfl rfl)
  | flag hf => exact .same (loop_of_head_update hf rfl hl) (.of_update rfl rfl fun _ => ⟨rfl, rfl⟩)
  | refuse hf | accept hf | unlock hf | add hf | abortWorker hf | cleared hf | goIdle hf
  | exit hf =>
    exact .same (loop_of_head_update hf rfl hl) (.of_eq rfl rfl)
  | acquire hf ha =>
    cases ha with
    | makeTimer | cancel | shutdown => exact .same (loop_of_head_update hf rfl hl) (.of_eq rfl rfl)
    | _ =>
      exact origin_of_worker hsingle' hl hf .bare (update_self ..)
        (.wait rfl rfl (.of_eq rfl rfl))
  | start hf _ hid hw =>
    rcases loop_of_update
      (loop_of_head_update (v := v.setFrames _ _) (frames_of_start hf hw) rfl hl)
      with hl | ⟨d, hmem⟩
    · exact .same hl (.of_eq rfl rfl)
    · simp only [List.mem_cons, Frame.workLoop.injEq, List.not_mem_nil, or_false, reduceCtorEq,
        false_or] at hmem
      exact .start hmem.1 hmem.2.1 hid
  | unwind hf hc | clear hf _ hc => exact .same (loop_of_covers hf hc rfl hl) (.of_eq rfl rfl)
  | wake hf hpc =>
    refine origin_of_worker hsingle' hl hf .bare (update_self ..)
      (.wait ?_ rfl (.of_eq rfl rfl))
    rcases hpc with rfl | rfl <;> rfl
  | wait hf =>
    exact origin_of_worker hsingle' hl hf .bare (update_self ..)
      (.wait rfl rfl (.of_eq rfl rfl))
  | seeAbort hf =>
    exact origin_of_worker hsingle' hl hf .bare (update_self ..) (.abort (.of_eq rfl rfl))
  | take hf =>
    exact origin_of_worker hsingle' hl hf .bare (update_self ..) (.take rfl (.of_eq rfl rfl))
  | work hf hw hc =>
    exact origin_of_worker hsingle' hl hf hc (update_self ..) (.work hw rfl rfl rfl)
  | fire hf =>
    exact origin_of_worker hsingle' hl hf .bare (update_self ..) (.fire rfl rfl rfl)

end Loops

/-! ### What a step does to the requests -/

/-- The ways into and out of `m_request_queue`. -/
inductive QueueStep (v v' : TimerMachine) : Prop
  | same : v'.requestQueue = v.requestQueue → QueueStep v v'
  | add {t : TimerThread} {x : ℕ} {old : Option ℕ} {rest : List Frame} :
      v.frames t = .makeTimer x (.addInternalTimer old) :: rest →
      v'.requestQueue = v.requestQueue ++ [(x, .add)] → QueueStep v v'
  | remove {x : ℕ} : v'.requestQueue = v.requestQueue ++ [(x, .remove)] → QueueStep v v'
  | clear {t : TimerThread} {rest : List Frame} {r : ℕ × TimerRequest} :
      v.frames t = .shutdown .clear :: rest → v.requestQueue = r :: v'.requestQueue → QueueStep v v'
  | take {t : TimerThread} {q : TimerQueueInternal} {deadline : ℕ} {rest : List Frame} :
      v.frames t = .workLoop .woken q deadline :: rest → v.abort = false →
      v'.frames t = .workLoop (.process v.requestQueue) q deadline :: rest → v'.requestQueue = [] →
      QueueStep v v'

theorem Step.queue (hs : Step v v') : QueueStep v v' := by
  cases hs with
  | add hf => exact .add hf rfl
  | remove => exact .remove rfl
  | clear hf hq => exact .clear hf hq
  | take hf habort => exact .take hf habort (update_self ..) rfl
  | _ => exact .same rfl

end TimerMachine

namespace TimerSystem

open TimerMachine

variable {s s' : TimerSystem}

/-- What holds of the machine of every reachable state. -/
structure LoopInv (v : TimerMachine) : Prop where
  mutex : v.Mutex
  single : v.SingleLoop
  idle : v.IdleOk

theorem loopInv_of_reachable (h : Reachable s) : LoopInv s.machine := by
  induction h with
  | start hs =>
    cases hs
    exact ⟨fun _ => rfl, ⟨none, fun _ => rfl, fun _ => rfl⟩,
      fun _ => ⟨fun _ => rfl, by simp [machine, initial]⟩⟩
  | next hr _ hs ih =>
    have hstep := step_machine (delayInv_of_reachable hr) hs
    exact ⟨ih.mutex.step hstep, ih.single.step hstep, ih.idle.step ih.mutex hstep⟩

end TimerSystem
end Concurrencpp
