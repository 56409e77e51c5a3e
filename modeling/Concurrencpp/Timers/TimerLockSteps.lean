import Concurrencpp.Timers.TimerLock

/-!
# Every step of the timer queue keeps the lock in order

One lemma for each function of the model says that it keeps `LockInv`, as long as no entry that
`shutdown` clears is the last reference to its timer (`ClearsShared`).
-/

namespace Concurrencpp
namespace TimerSystem

open Function (update update_self update_of_ne forall_update_iff)

variable {s s' : TimerSystem} {t : TimerThread} {f g : Frame} {rest fs : List Frame} {x : ℕ}
  {o o' : Owner}

def LockInv (s : TimerSystem) : Prop := LockOk s.lock s.frames s.owners s.workers

theorem acquire_eq_some (hs : s.acquire t fs = some s') :
    s.lock = none ∧ s' = { s.setFrames t fs with lock := some t } := by
  unfold acquire at hs
  split at hs
  next hfree => exact ⟨hfree, (Option.some.inj hs).symm⟩
  · cases hs

section Callables

@[simp] theorem destroyTimer_lock : (s.destroyTimer x).lock = s.lock := by
  unfold destroyTimer; split <;> rfl

@[simp] theorem destroyTimer_frames : (s.destroyTimer x).frames = s.frames := by
  unfold destroyTimer; split <;> rfl

@[simp] theorem destroyTimer_owners : (s.destroyTimer x).owners = s.owners := by
  unfold destroyTimer; split <;> rfl

@[simp] theorem destroyTimer_workers : (s.destroyTimer x).workers = s.workers := by
  unfold destroyTimer; split <;> rfl

/-- The callable of a timer touches neither the queue nor the threads. -/
theorem invokeCallable_frame : (s.invokeCallable x).lock = s.lock ∧
    (s.invokeCallable x).frames = s.frames ∧ (s.invokeCallable x).owners = s.owners ∧
    (s.invokeCallable x).workers = s.workers := by
  unfold invokeCallable
  split
  · exact ⟨rfl, rfl, rfl, rfl⟩
  · split <;> exact ⟨rfl, rfl, rfl, rfl⟩

theorem drop_owners : (s.drop t x o fs).owners = update s.owners x ((s.owners x).erase o) := by
  unfold drop
  simp only
  split_ifs
  · exact destroyTimer_owners
  · rfl

theorem drop_frames : (s.drop t x o fs).frames =
    update s.frames t (if (s.owners x).erase o = [] then .user :: fs else fs) := by
  unfold drop
  simp only
  split_ifs
  · exact congrArg (update · t (.user :: fs)) destroyTimer_frames
  · rfl

theorem drop_lock : (s.drop t x o fs).lock = s.lock := by
  unfold drop
  simp only
  split_ifs
  · exact destroyTimer_lock
  · rfl

theorem drop_workers : (s.drop t x o fs).workers = s.workers := by
  unfold drop
  simp only
  split_ifs
  · exact destroyTimer_workers
  · rfl

end Callables

theorem not_holds_cons (hg : g.holds = false) (hr : ∀ g ∈ rest, g.holds = false) :
    ∀ g' ∈ g :: rest, g'.holds = false := by
  intro g' hg'
  rcases List.mem_cons.1 hg' with rfl | hg'
  · exact hg
  · exact hr g' hg'

variable {owners : ℕ → List Owner}

/-- The frame goes on outside the critical sections. -/
theorem LockInv.goto (h : s.LockInv) (hf : s.frames t = f :: rest) (hh : f.holds = false)
    (hg : g.holds = false) (hk : Keeps t rest.length s.owners owners)
    (hown : Owned owners t rest.length g) :
    LockOk s.lock (update s.frames t (g :: rest)) owners s.workers :=
  h.outside hf hk hh (fun hr => ⟨hown, hr⟩) fun hr => not_holds_cons hg hr

/-- The frame ends outside the critical sections. -/
theorem LockInv.finish (h : s.LockInv) (hf : s.frames t = f :: rest) (hh : f.holds = false)
    (hk : Keeps t rest.length s.owners owners) :
    LockOk s.lock (update s.frames t rest) owners s.workers :=
  h.outside hf hk hh id id

/-- User code begins outside the critical sections. -/
theorem LockInv.drop (h : s.LockInv) (hf : s.frames t = f :: rest) (hh : f.holds = false)
    (ho : Above t rest.length o)
    (howned : StackOwned (update s.owners x ((s.owners x).erase o)) t rest →
      StackOwned (update s.owners x ((s.owners x).erase o)) t fs)
    (hfs : (∀ g ∈ rest, g.holds = false) → ∀ g ∈ fs, g.holds = false) :
    (s.drop t x o fs).LockInv := by
  unfold LockInv
  rw [drop_lock, drop_frames, drop_owners, drop_workers]
  refine h.outside hf (keeps_erase ho) hh (fun hr => ?_) fun hr => ?_
  · split_ifs
    · exact ⟨trivial, howned hr⟩
    · exact howned hr
  · split_ifs
    · exact not_holds_cons rfl (hfs hr)
    · exact hfs hr

variable {deadline : ℕ} {q : TimerQueueInternal}

/-- A worker thread is started. -/
theorem LockInv.start (h : s.LockInv) :
    LockOk s.lock (update s.frames (.worker s.workers) [.user, .workLoop .lock q deadline])
      s.owners (s.workers + 1) := by
  have hnil : s.frames (.worker s.workers) = [] := h.fresh _ le_rfl
  constructor
  case owned =>
    exact (forall_update_iff s.frames _).2 ⟨⟨trivial, trivial, trivial⟩, fun u _ => h.owned u⟩
  case outer =>
    exact (forall_update_iff s.frames fun _ fs => ∀ g ∈ fs.tail, g.holds = false).2
      ⟨not_holds_cons rfl (by simp), fun u _ => h.outer u⟩
  case lock =>
    intro u
    by_cases hu : u = .worker s.workers
    · rw [hu, update_self, h.lock, hnil]
      rfl
    · rw [update_of_ne hu]
      exact h.lock u
  case fresh =>
    intro w hw
    have hne : TimerThread.worker w ≠ .worker s.workers := by
      intro heq
      cases heq
      omega
    rw [update_of_ne hne]
    exact h.fresh w (by omega)

theorem mem_update_copy (h : o ∈ owners x) : o ∈ update owners x (o' :: owners x) x := by
  rw [update_self]
  exact List.mem_cons_of_mem _ h

theorem mem_update_erase (h : o ∈ owners x) (hne : o ≠ o') :
    o ∈ update owners x ((owners x).erase o') x := by
  rw [update_self]
  exact (List.mem_erase_of_ne hne).2 h

theorem above_of_ne (h : ∀ u d, .timerState u d ≠ o) : Above t rest.length o := fun u d _ => h u d

theorem keeps_take {depth : ℕ} : Keeps t depth owners fun x => (owners x).map (Owner.take t) :=
  fun _ _ _ _ ho => List.mem_map.2 ⟨_, ho, rfl⟩

theorem makeTimerStep_lockInv {pc : MakePc} (h : s.LockInv)
    (hf : s.frames t = .makeTimer x pc :: rest) (hs : s.makeTimerStep t x rest pc = some s') :
    s'.LockInv := by
  have howned := h.owned t
  rw [hf] at howned
  have hx : .timerState t rest.length ∈ s.owners x := howned.1
  have hnew : Above t rest.length (.newTimer t rest.length) := above_of_ne (by simp)
  cases pc with
  | lock =>
    obtain ⟨hfree, rfl⟩ := acquire_eq_some hs
    exact LockOk.acquire h hf keeps_copy hfree rfl (mem_update_copy hx)
  | addTimer =>
    simp only [makeTimerStep] at hs
    split_ifs at hs with habort
    · cases hs
      exact LockOk.within h hf .refl rfl rfl hx
    · cases hs
      by_cases hidle : s.idle = true
      · simp only [ensureWorkerThread, hidle, if_true]
        have hne : t ≠ .worker s.workers := h.not_fresh hf _ le_rfl
        exact LockOk.within (f := .makeTimer x .addTimer) h.start
          ((update_of_ne hne ..).trans hf) .refl rfl rfl hx
      · simp only [ensureWorkerThread, hidle]
        exact LockOk.within h hf .refl rfl rfl hx
  | unwind =>
    cases hs
    -- the variable of `make_timer_impl` still owns the timer
    have hmem : .timerState t rest.length ∈
        update s.owners x ((s.owners x).erase (.newTimer t rest.length)) x :=
      mem_update_erase hx (by simp)
    have hne : (s.owners x).erase (.newTimer t rest.length) ≠ [] := by
      rw [update_self] at hmem
      exact List.ne_nil_of_mem hmem
    have hw :=
      LockOk.within (g := .makeTimer x .unlock) h hf (keeps_erase (x := x) hnew) rfl rfl hmem
    unfold LockInv
    rw [drop_lock, drop_frames, drop_owners, drop_workers, if_neg hne]
    exact hw
  | unlock =>
    cases hs
    refine LockOk.release h hf .refl rfl (fun hr => ⟨hx, hr⟩) fun hr => not_holds_cons rfl hr
  | destroy =>
    cases hs
    exact h.drop hf rfl above_timerState id id
  | addInternalTimer =>
    cases hs
    refine LockOk.release h hf keeps_copy rfl (fun hr => ⟨?_, hr⟩) fun hr => not_holds_cons rfl hr
    exact mem_update_copy hx
  | join old =>
    cases old with
    | none =>
      cases hs
      exact h.goto hf rfl rfl .refl hx
    | some =>
      simp only [makeTimerStep] at hs
      split_ifs at hs
      cases hs
      exact h.goto hf rfl rfl .refl hx
  | endAddTimer =>
    cases hs
    refine h.drop hf rfl hnew (fun hr => ⟨?_, hr⟩) fun hr => not_holds_cons rfl hr
    exact mem_update_erase hx (by simp)
  | done =>
    simp only [makeTimerStep] at hs
    split at hs
    · cases hs
      exact h.finish hf rfl (keeps_move above_timerState)
    · cases hs
      exact h.drop hf rfl above_timerState id id

theorem cancelStep_lockInv {pc : CancelPc} (h : s.LockInv) (hf : s.frames t = .cancel x pc :: rest)
    (hs : s.cancelStep t x rest pc = some s') : s'.LockInv := by
  cases pc with
  | flag =>
    cases hs
    exact h.goto hf rfl rfl .refl trivial
  | lock =>
    obtain ⟨hfree, rfl⟩ := acquire_eq_some hs
    exact LockOk.acquire h hf .refl hfree rfl trivial
  | push =>
    cases hs
    exact LockOk.release h hf (keeps_move (above_of_ne (by simp))) rfl id id

/-- Where `shutdown` clears an entry, the timer of the entry has another owner. -/
def ClearsShared (s : TimerSystem) (m : TimerMove) : Prop :=
  ∀ t ∈ m.thread, (s.frames t).head? = some (.shutdown .clear) →
    ∀ p ∈ s.requestQueue.head?, (s.owners p.1).erase (.request p.2) ≠ []

instance (s : TimerSystem) (m : TimerMove) : Decidable (s.ClearsShared m) :=
  inferInstanceAs (Decidable (∀ t ∈ m.thread, _ → ∀ p ∈ s.requestQueue.head?, _))

theorem shutdownStep_lockInv {pc : TimerShutdownPc} (h : s.LockInv)
    (hf : s.frames t = .shutdown pc :: rest) (hc : s.ClearsShared (.step t))
    (hs : s.shutdownStep t rest pc = some s') : s'.LockInv := by
  cases pc with
  | exchange =>
    simp only [shutdownStep] at hs
    split_ifs at hs
    · cases hs
      exact h.finish hf rfl .refl
    · cases hs
      exact h.goto hf rfl rfl .refl trivial
  | lock =>
    obtain ⟨hfree, rfl⟩ := acquire_eq_some hs
    exact LockOk.acquire h hf .refl hfree rfl trivial
  | check =>
    simp only [shutdownStep] at hs
    split at hs
    · cases hs
      exact LockOk.release h hf .refl rfl id id
    · cases hs
      exact LockOk.within h hf .refl rfl rfl trivial
  | clear =>
    simp only [shutdownStep] at hs
    split at hs
    next hq =>
      cases hs
      exact LockOk.release h hf .refl rfl (fun hr => ⟨trivial, hr⟩) fun hr => not_holds_cons rfl hr
    next y r requests hq =>
      cases hs
      have hne : (s.owners y).erase (.request r) ≠ [] :=
        hc t rfl (by rw [hf]; rfl) (y, r) (by rw [hq]; rfl)
      unfold LockInv
      rw [drop_lock, drop_frames, drop_owners, drop_workers, if_neg hne]
      exact LockOk.within h hf (keeps_erase (above_of_ne (by simp))) rfl rfl trivial
  | join =>
    simp only [shutdownStep] at hs
    split at hs
    · cases hs
      exact h.finish hf rfl .refl
    · split_ifs at hs <;> cases hs
      · exact h.finish hf rfl .refl
      · exact h.finish hf rfl .refl

/-- Outside the critical sections a worker drops references of its containers and of requests
only. -/
theorem LockInv.dropWorker {pc pc' : WorkLoopPc} {q q' : TimerQueueInternal} (h : s.LockInv)
    (hf : s.frames t = .workLoop pc q deadline :: rest) (hpc : pc.holds = false)
    (hpc' : pc'.holds = false) (ho : ∀ u d, .timerState u d ≠ o) :
    (s.drop t x o (workLoopFrame q' deadline rest pc')).LockInv :=
  h.drop hf hpc (above_of_ne ho) (fun hr => ⟨trivial, hr⟩) fun hr => not_holds_cons hpc' hr

theorem processTimersStep_lockInv {pc : WorkLoopPc} (h : s.LockInv)
    (hf : s.frames t = .workLoop pc q deadline :: rest)
    (hs : s.processTimersStep t q deadline rest pc = some s') : s'.LockInv := by
  cases pc with
  | process requests =>
    cases requests with
    | nil =>
      cases hs
      exact h.goto hf rfl rfl .refl trivial
    | cons p =>
      obtain ⟨x, r⟩ := p
      cases r with
      | add =>
        cases hs
        exact h.goto hf rfl rfl ((keeps_move (above_of_ne (by simp))).trans keeps_copy) trivial
      | remove =>
        cases hs
        refine h.goto hf rfl ?_ (keeps_move (above_of_ne (by simp))) trivial
        change WorkLoopPc.holds _ = false
        split_ifs <;> rfl
  | erase | unmap | removed | notExpired | unmapped
  | dying | reinserted =>
    cases hs
    exact h.dropWorker hf rfl rfl (by simp)
  | pass =>
    simp only [processTimersStep] at hs
    split at hs
    · cases hs
      exact h.goto hf rfl rfl .refl trivial
    · split_ifs at hs
      · cases hs
        exact h.goto hf rfl rfl keeps_copy trivial
      · cases hs
        exact h.goto hf rfl rfl keeps_copy trivial
  | extracted =>
    simp only [processTimersStep] at hs
    split_ifs at hs
    · cases hs
      exact h.goto hf rfl rfl .refl trivial
    · cases hs
      exact h.goto hf rfl rfl keeps_copy trivial
  | fired =>
    simp only [processTimersStep] at hs
    split_ifs at hs
    · cases hs
      exact h.dropWorker hf rfl rfl (by simp)
    · cases hs
      exact h.goto hf rfl rfl .refl trivial
  | finish =>
    cases hs
    exact h.goto hf rfl rfl .refl trivial
  | _ => cases hs

theorem workLoopStep_lockInv {pc : WorkLoopPc} (h : s.LockInv)
    (hf : s.frames t = .workLoop pc q deadline :: rest)
    (hs : s.workLoopStep t q deadline rest pc = some s') : s'.LockInv := by
  cases pc with
  | lock | waiting =>
    obtain ⟨hfree, rfl⟩ := acquire_eq_some hs
    exact LockOk.acquire h hf .refl hfree rfl trivial
  | locked | timedOut =>
    simp only [workLoopStep] at hs
    split_ifs at hs
    · cases hs
      exact LockOk.within h hf .refl rfl rfl trivial
    · cases hs
      exact LockOk.release h hf .refl rfl (fun hr => ⟨trivial, hr⟩) fun hr => not_holds_cons rfl hr
  | woken =>
    simp only [workLoopStep] at hs
    split_ifs at hs
    · cases hs
      exact LockOk.release h hf .refl rfl (fun hr => ⟨trivial, hr⟩) fun hr => not_holds_cons rfl hr
    · cases hs
      exact LockOk.release h hf keeps_take rfl (fun hr => ⟨trivial, hr⟩)
        fun hr => not_holds_cons rfl hr
  | aborted =>
    simp only [workLoopStep] at hs
    split at hs
    · cases hs
      exact h.dropWorker hf rfl rfl (by simp)
    · cases hs
      exact h.dropWorker hf rfl rfl (by simp)
    · cases hs
      exact h.goto hf rfl rfl .refl trivial
  | _ => exact processTimersStep_lockInv h hf hs

theorem taskStep_lockInv {k : ℕ} {pc : TimerTaskPc} (h : s.LockInv)
    (hf : s.frames t = .task x k pc :: rest) (hs : s.taskStep t x k rest pc = some s') :
    s'.LockInv := by
  cases pc with
  | execute =>
    simp only [taskStep] at hs
    split_ifs at hs
    · cases hs
      exact h.goto hf rfl rfl .refl trivial
    · cases hs
      obtain ⟨hlock, hframes, howners, hworkers⟩ := invokeCallable_frame (s := s) (x := x)
      unfold LockInv setFrames
      rw [hlock, hframes, howners, hworkers]
      refine LockOk.outside h hf .refl rfl (fun hr => ⟨trivial, trivial, hr⟩) fun hr => ?_
      exact not_holds_cons rfl (not_holds_cons rfl hr)
  | destroy =>
    cases hs
    exact h.drop hf rfl (above_of_ne (by simp)) id id

/-- A frame is pushed on user code. -/
theorem LockInv.push (h : s.LockInv) (hf : s.frames t = .user :: rest) (hg : g.holds = false)
    (hk : Keeps t (s.frames t).length s.owners owners)
    (hown : Owned owners t (s.frames t).length g) :
    LockOk s.lock (update s.frames t (g :: s.frames t)) owners s.workers := by
  rw [hf] at hk hown ⊢
  have hk' : Keeps t rest.length s.owners owners :=
    fun x u d hd => hk x u d (hd.imp_right Nat.lt_succ_of_lt)
  refine LockOk.outside h hf hk' rfl (fun hr => ⟨hown, trivial, hr⟩) fun hr => ?_
  exact not_holds_cons hg (not_holds_cons rfl hr)

theorem makeTimerImpl_lockInv {dueTime frequency : ℕ} {isOneshot : Bool} {callable : TimerCallable}
    (h : s.LockInv) (hf : s.frames t = .user :: rest) :
    (s.makeTimerImpl t dueTime frequency isOneshot callable).LockInv := by
  refine h.push hf rfl keeps_copy ?_
  change _ ∈ update s.owners s.created _ s.created
  rw [update_self]
  exact List.mem_cons_self

theorem call_lockInv {c : TimerCall} (h : s.LockInv) (hf : s.frames t = .user :: rest)
    (hs : s.call t c = some s') : s'.LockInv := by
  cases c with
  | makeTimer executor | makeOneShotTimer executor
  | makeDelayObject executor =>
    cases executor with
    | false =>
      cases hs
      exact h
    | true =>
      cases hs
      exact makeTimerImpl_lockInv h hf
  | cancel =>
    simp only [call] at hs
    split_ifs at hs
    cases hs
    exact h.push hf rfl (keeps_move (fun u d _ => by simp)) trivial
  | setFrequency =>
    simp only [call] at hs
    split_ifs at hs
    cases hs
    exact h
  | shutdown =>
    cases hs
    exact h.push hf rfl .refl trivial

theorem nextStep_lockInv (h : s.LockInv) (hf : s.frames t = f :: rest)
    (hc : s.ClearsShared (.step t)) (hs : s.nextStep t rest f = some s') : s'.LockInv := by
  cases f with
  | user => cases hs
  | makeTimer => exact makeTimerStep_lockInv h hf hs
  | cancel => exact cancelStep_lockInv h hf hs
  | shutdown => exact shutdownStep_lockInv h hf hc hs
  | workLoop => exact workLoopStep_lockInv h hf hs
  | task => exact taskStep_lockInv h hf hs

theorem post_eq_some {φ : List Frame → ℕ → ℕ → TimerSystem} (hs : s.post t φ = some s') :
    ∃ now node x k q deadline rest,
      s.frames t = .workLoop (.post now node x k) q deadline :: rest ∧
      s' = φ (workLoopFrame q deadline rest (.fired now node x false)) x k := by
  unfold post at hs
  split at hs
  next now node x k q deadline rest hf =>
    exact ⟨now, node, x, k, q, deadline, rest, hf, (Option.some.inj hs).symm⟩
  · cases hs

/-- A thread of an executor that runs nothing begins to run. -/
theorem LockInv.begin (h : s.LockInv) {n : ℕ} (hf : s.frames (.caller n) = [])
    (hg : g.holds = false) (hk : Keeps (.caller n) 0 s.owners owners)
    (hown : Owned owners (.caller n) 0 g) :
    LockOk s.lock (update s.frames (.caller n) [g]) owners s.workers := by
  refine LockOk.replace h (by simp) hk ⟨hown, trivial⟩ (by simp) ?_ fun u _ => Iff.rfl
  rw [h.lock, hf]
  simp [headHolds, hg]

theorem takeTask_lockInv {k : ℕ} {pc : TimerTaskPc} (h : s.LockInv)
    (hs : s.takeTask t x k pc = some s') : s'.LockInv := by
  unfold takeTask at hs
  split_ifs at hs with hhosts
  cases hs
  have hhosts := hhosts.1
  unfold hosts at hhosts
  split at hhosts
  next n hf =>
    rw [hf]
    exact h.begin hf rfl (keeps_move (fun u d _ => by simp)) trivial
  next rest hf => exact h.push hf rfl (keeps_move (fun u d _ => by simp)) trivial
  · cases hhosts

theorem step_lockInv {m : TimerMove} (h : s.LockInv) (hc : s.ClearsShared m)
    (hs : s.step m = some s') : s'.LockInv := by
  unfold step at hs
  split_ifs at hs
  cases m <;> simp only [liveStep] at hs
  case enter =>
    split_ifs at hs with hf
    cases hs
    exact h.begin hf rfl .refl trivial
  case leave =>
    split at hs
    next rest hf =>
      cases hs
      exact h.finish hf rfl .refl
    · cases hs
  case call =>
    split at hs
    next rest hf => exact call_lockInv h hf hs
    · cases hs
  case step =>
    split at hs
    · cases hs
    next f rest hf => exact nextStep_lockInv h hf hc hs
  case timeout =>
    simp only [timeout] at hs
    split at hs
    next q deadline rest hf =>
      split_ifs at hs
      obtain ⟨hfree, rfl⟩ := acquire_eq_some hs
      exact LockOk.acquire h hf .refl hfree rfl trivial
    · cases hs
  case fail t =>
    split at hs
    next x rest hf =>
      have howned := h.owned t
      rw [hf] at howned
      unfold failToStart at hs
      split_ifs at hs
      split at hs
      · cases hs
        exact h
      · cases hs
        exact LockOk.within h hf .refl rfl rfl howned.1
    · cases hs
  case store =>
    obtain ⟨now, node, x, k, q, deadline, rest, hf, rfl⟩ := post_eq_some hs
    exact h.goto hf rfl rfl (keeps_move (above_of_ne (by simp))) trivial
  case inline =>
    obtain ⟨now, node, x, k, q, deadline, rest, hf, rfl⟩ := post_eq_some hs
    refine LockOk.outside h hf (keeps_move (above_of_ne (by simp))) rfl
      (fun hr => ⟨trivial, trivial, hr⟩) fun hr => ?_
    exact not_holds_cons rfl (not_holds_cons rfl hr)
  case throw =>
    obtain ⟨now, node, x, k, q, deadline, rest, hf, rfl⟩ := post_eq_some hs
    exact h
  case run | discard => exact takeTask_lockInv h hs
  case tick =>
    cases hs
    exact h

theorem lockInv_of_reach (h : Interleaving.Reach step IsInitial ClearsShared s) : s.LockInv := by
  refine h.invariant (fun s hs => ?_) fun s m s' h hc hs => step_lockInv h hc hs
  cases hs
  exact ⟨fun _ => trivial, by simp [initial], by simp [initial, headHolds], fun _ _ => rfl⟩

end TimerSystem
end Concurrencpp
