import Concurrencpp.Timers.DelaySteps

/-!
# Every function keeps the tickets in order

One lemma for each function of the timer queue says that it keeps `DelayInv`, which therefore holds
in every state that can be reached.
-/

namespace Concurrencpp

open Placement
open Function (update update_idem update_self update_of_ne update_eq_self)

namespace TimerSystem

variable {s s' : TimerSystem} {t : TimerThread} {f g : Frame} {rest fs : List Frame} {n : Ticket}
  {x k : ℕ} {o : Owner} {q : TimerQueueInternal} {deadline : ℕ}

/-- A worker thread is started. -/
theorem DelayInv.start (h : s.DelayInv) :
    DelayInv { s.setFrames (.worker s.workers) [.user, .workLoop .lock .init 0] with
      worker := some s.workers, workers := s.workers + 1, idle := false } := by
  refine ⟨h.begin (h.fresh _ le_rfl) rfl rfl, fun n hn => ?_, h.assert⟩
  have hne : TimerThread.worker n ≠ .worker s.workers := by
    intro heq
    cases heq
    exact absurd hn (Nat.not_succ_le_self _)
  exact (update_of_ne hne ..).trans (h.fresh n (Nat.le_of_succ_le hn))

/-- The variable of a frame dies with the frame. -/
theorem DelayInv.dropFrame (h : s.DelayInv) (hf : s.frames t = f :: rest)
    (ho : o = .timerState t rest.length ∨ o = .running t rest.length) :
    (s.drop t x o rest).DelayInv := by
  refine h.drop hf .pop fun p n hn _ _ => ?_
  obtain ⟨htimer, hrun⟩ := name_ne_of_depth (update_self ..) hn
  rcases ho with rfl | rfl
  · exact htimer
  · exact hrun

/-- The references to a timer that is no delay object change. -/
theorem DelayInv.reown (h : s.DelayInv) (hf : s.frames t = f :: rest)
    (hb : StackBelow s.timers t fs (f :: rest)) (hx : x < s.created)
    (hdelay : (s.timers x).isDelay = false) {os : List Owner} :
    ((s.setOwners x os).setFrames t fs).DelayInv := by
  refine h.goto hf hb (fun y hy => ?_) (fun y hy => ?_) fun _ => ⟨rfl, rfl⟩
  · refine update_of_ne ?_ ..
    rintro rfl
    rw [hdelay] at hy
    cases hy
  · exact (update_of_ne (by omega) ..).trans (h.ok.ownersNew y hy)

theorem isDelay_of_bound {x : TimerState} (h : x.callable = .bound) : x.isDelay = false := by
  unfold TimerState.isDelay
  rw [h]

theorem makeTimerStep_delayInv {pc : MakePc} (h : s.DelayInv)
    (hf : s.frames t = .makeTimer x pc :: rest) (hs : s.makeTimerStep t x rest pc = some s') :
    s'.DelayInv := by
  have hx : x < s.created := (h.stackMentioned hf (x, false) List.mem_cons_self).1
  cases pc with
  | lock =>
    obtain ⟨-, rfl⟩ := acquire_eq_some hs
    exact h.copy hf (.same rfl rfl) hx (by simp)
  | addTimer =>
    simp only [makeTimerStep] at hs
    split_ifs at hs with habort
    · cases hs
      exact h.next hf (.sub List.nil_subperm fun _ hm => hm)
    · cases hs
      by_cases hidle : s.idle = true
      · simp only [ensureWorkerThread, hidle, if_true]
        have hne : t ≠ .worker s.workers := by
          rintro rfl
          rw [h.fresh _ le_rfl] at hf
          cases hf
        exact h.start.next ((update_of_ne hne ..).trans hf) (.same rfl rfl)
      · simp only [ensureWorkerThread, hidle]
        exact h.next hf (.same rfl rfl)
  | unwind | endAddTimer =>
    cases hs
    exact h.dropSpare hf (.same rfl rfl) rfl
  | unlock =>
    cases hs
    exact h.next hf (.same rfl rfl)
  | destroy =>
    cases hs
    exact h.dropFrame hf (.inl rfl)
  | addInternalTimer =>
    cases hs
    exact h.pushAdd hf
  | join old =>
    cases old with
    | none =>
      cases hs
      exact h.next hf (.same rfl rfl)
    | some =>
      simp only [makeTimerStep] at hs
      split_ifs at hs
      cases hs
      exact h.next hf (.same rfl rfl)
  | done =>
    simp only [makeTimerStep] at hs
    split at hs
    next hbound =>
      cases hs
      exact h.reown hf .pop hx (isDelay_of_bound hbound)
    · cases hs
      exact h.dropFrame hf (.inl rfl)

/-- A timer that is cancelled is no delay object. -/
theorem cancelStep_delayInv {pc : CancelPc} (h : s.DelayInv)
    (hf : s.frames t = .cancel x pc :: rest) (hs : s.cancelStep t x rest pc = some s') :
    s'.DelayInv := by
  have hx := h.stackMentioned hf (x, true) List.mem_cons_self
  cases pc with
  | flag =>
    cases hs
    have hb : StackBelow s.timers t (.cancel x .lock :: rest) (.cancel x .flag :: rest) :=
      .same rfl rfl
    exact h.goto hf hb (fun _ _ => rfl) h.ok.ownersNew (s.sameKind x (s.timers x).cancel rfl rfl)
  | lock =>
    obtain ⟨-, rfl⟩ := acquire_eq_some hs
    exact h.next hf (.same rfl rfl)
  | push =>
    cases hs
    have hmove : ((s.move x (.state t rest.length) (.request .remove)).setFrames t rest).DelayInv :=
      h.reown hf .pop hx.1 (hx.2 rfl)
    -- the request is no ticket, and mentions what the frame has mentioned
    have htickets : ticketsAt (update s.frames t rest) (s.requestQueue ++ [(x, .remove)])
        s.stored = ticketsAt (update s.frames t rest) s.requestQueue s.stored := by
      funext p
      cases p with
      | none => simp only [ticketsAt, addTickets_append, addTickets, List.append_nil]
      | some => rfl
    have hmention : ∀ m ∈ removeMentions (s.requestQueue ++ [(x, .remove)]),
        MentionOk s.created s.timers m := by
      intro m hm
      rw [removeMentions_append] at hm
      rcases List.mem_append.1 hm with hm | hm
      · exact h.queueMentioned m hm
      · obtain rfl := List.mem_singleton.1 hm
        exact hx
    have hok : DelayOk
        (ticketsAt (update s.frames t rest) (s.requestQueue ++ [(x, .remove)]) s.stored)
        (mentionsAt (update s.frames t rest) (s.requestQueue ++ [(x, .remove)])) s.created
        s.timers (update s.owners x
          (.request .remove :: (s.owners x).erase (.state t rest.length))) s.posts
            s.coroutines := by
      rw [htickets]
      exact hmove.ok.remention (h.mentioned
        (fun m hm => h.stackMentioned hf m (List.mem_append_right _ hm)) hmention)
    exact ⟨hok, hmove.fresh, hmove.assert⟩

/-- A timer is made. -/
theorem makeTimerImpl_delayInv {dueTime frequency : ℕ} {isOneshot : Bool} {callable : TimerCallable}
    (h : s.DelayInv) (hf : s.frames t = f :: rest)
    (hcall : ∀ f, callable = .functor f → f.interrupted = some s.created ∧ isOneshot = true) :
    (s.makeTimerImpl t dueTime frequency isOneshot callable).DelayInv := by
  have hissue : Issued (ticketsAt s.frames s.requestQueue s.stored)
      (ticketsAt (update s.frames t (.makeTimer s.created .lock :: s.frames t))
        s.requestQueue s.stored) (some t)
      ⟨s.created, none, .timerState t (s.frames t).length, true⟩ :=
    issued_of_push (by rw [update_self]; rfl) fun u hut => update_of_ne hut ..
  have hmention : ∀ p, ∀ m ∈ mentionsAt
      (update s.frames t (.makeTimer s.created .lock :: s.frames t)) s.requestQueue p,
      m ∈ mentionsAt s.frames s.requestQueue p ∨ m = (s.created, false) := by
    intro p m hm
    cases p with
    | none => exact .inl hm
    | some u =>
      by_cases hut : u = t
      · subst hut
        simp only [mentionsAt, update_self] at hm
        exact (List.mem_cons.1 hm).symm
      · simp only [mentionsAt, update_of_ne hut] at hm
        exact .inl hm
  have htimer : ∀ f,
      (TimerState.make s.now dueTime frequency isOneshot callable).callable = .functor f →
      f.interrupted = some s.created ∧
        (TimerState.make s.now dueTime frequency isOneshot callable).isOneshot = true := hcall
  have hok := h.ok.make hissue hmention htimer (by simp)
  unfold makeTimerImpl DelayInv
  exact ⟨hok, h.fresh_update hf, h.assert⟩

theorem call_delayInv {c : TimerCall} (h : s.DelayInv) (hf : s.frames t = .user :: rest)
    (hs : s.call t c = some s') : s'.DelayInv := by
  cases c with
  | makeTimer | makeOneShotTimer =>
    simp only [call] at hs
    split_ifs at hs <;> cases hs
    · exact makeTimerImpl_delayInv h hf (by simp)
    · exact h
  | makeDelayObject =>
    simp only [call] at hs
    split_ifs at hs <;> cases hs
    · refine makeTimerImpl_delayInv h hf fun f hfun => ?_
      cases hfun
      exact ⟨rfl, rfl⟩
    · exact h
  | cancel x =>
    simp only [call] at hs
    split_ifs at hs with hmem
    cases hs
    -- a handle belongs to a timer that is no delay object
    have hdelay : (s.timers x).isDelay = false :=
      Bool.eq_false_iff.2 fun hx => h.ok.noHandle x hx hmem
    have hx : x < s.created := by
      by_contra hx
      rw [h.ok.ownersNew x (by omega)] at hmem
      exact List.not_mem_nil hmem
    have hmove : ((s.move x .handle (.state t (s.frames t).length)).setFrames t
        (.user :: rest)).DelayInv := h.reown hf .refl hx hdelay
    have htickets : ticketsAt (update s.frames t (.cancel x .flag :: s.frames t))
        s.requestQueue s.stored =
        ticketsAt (update s.frames t (.user :: rest)) s.requestQueue s.stored :=
      ticketsAt_congr (by rw [hf]; rfl)
    have hok : DelayOk
        (ticketsAt (update s.frames t (.cancel x .flag :: s.frames t)) s.requestQueue s.stored)
        (mentionsAt (update s.frames t (.cancel x .flag :: s.frames t)) s.requestQueue)
        s.created s.timers (update s.owners x
          (.state t (s.frames t).length :: (s.owners x).erase .handle)) s.posts s.coroutines := by
      rw [htickets]
      refine hmove.ok.remention (h.mentioned (fun m hm => ?_) h.queueMentioned)
      rcases List.mem_cons.1 hm with rfl | hm
      · exact ⟨hx, fun _ => hdelay⟩
      · exact h.stackMentioned rfl m hm
    exact ⟨hok, h.fresh_update hf, h.assert⟩
  | setFrequency x frequency =>
    simp only [call] at hs
    split_ifs at hs with hmem
    cases hs
    have hgoto := h.goto hf .refl (fun _ _ => rfl) h.ok.ownersNew
      (s.sameKind x ((s.timers x).setNewFrequency frequency) rfl rfl)
    rw [← hf, update_eq_self] at hgoto
    exact hgoto
  | shutdown =>
    cases hs
    refine h.next hf ?_
    rw [hf]
    exact .of_eq rfl rfl

/-- `m_request_queue.clear()`: a request dies, and the ticket that it was. -/
theorem clear_delayInv {r : TimerRequest} {requests : List (ℕ × TimerRequest)} (h : s.DelayInv)
    (hf : s.frames t = .shutdown .clear :: rest) (hq : s.requestQueue = (x, r) :: requests) :
    ({ s with requestQueue := requests }.drop t x (.request r)
      (.shutdown .clear :: rest)).DelayInv := by
  have hsub : (addTickets (.request .add) requests).Sublist
      (addTickets (.request .add) s.requestQueue) := by
    rw [hq]
    cases r with
    | add => exact List.sublist_cons_self ..
    | remove => exact List.Sublist.refl _
  have hmention : ∀ m ∈ removeMentions requests, m ∈ removeMentions s.requestQueue := by
    intro m hm
    rw [hq]
    cases r with
    | add => exact hm
    | remove => exact List.mem_cons_of_mem _ hm
  -- without the request
  have hpop : DelayInv { s with requestQueue := requests } := by
    have hfew : Fewer s.timers (within requests s.stored t (s.frames t))
        (within s.requestQueue s.stored t (s.frames t)) :=
      ((Fewer.of_subperm hsub.subperm).append .refl).append .refl
    have howned : ∀ p, ∀ n ∈ ticketsAt (update s.frames t (s.frames t)) requests s.stored p,
        (s.timers n.timer).isDelay = true → n.name ∈ s.owners n.timer := by
      intro p n hn hdelay
      rw [update_eq_self] at hn
      cases p with
      | none =>
        rcases List.mem_append.1 hn with hn | hn
        · exact h.ok.owned none n (List.mem_append_left _ (hsub.subset hn)) hdelay
        · exact h.ok.owned none n (List.mem_append_right _ hn) hdelay
      | some u => exact h.ok.owned (some u) n hn hdelay
    have hr := h.relocated hfew howned
      (h.mentioned (h.stackMentioned rfl) fun m hm => h.queueMentioned m (hmention m hm))
    have hok := h.ok.calm hr (fun _ => ⟨rfl, rfl⟩) (fun _ _ => rfl) h.ok.ownersNew
    rw [update_eq_self] at hok
    exact ⟨hok, h.fresh, h.assert⟩
  refine hpop.drop hf (.same rfl rfl) fun p n hn hdelay hx heq => ?_
  cases r with
  | remove =>
    have := name_not_spare hn
    rw [heq] at this
    cases this
  | add =>
    have hl : (within s.requestQueue s.stored t (s.frames t)).Perm
        (⟨x, none, .request .add, true⟩ :: within requests s.stored t (s.frames t)) := by
      rw [hq]
      exact .refl _
    refine h.name_ne_elsewhere hl ?_ hdelay hx heq
    rcases mem_ticketsAt_update hn with hn | hn
    · refine .inl ?_
      rw [hf]
      exact hn
    · exact .inr hn

theorem shutdownStep_delayInv {pc : TimerShutdownPc} (h : s.DelayInv)
    (hf : s.frames t = .shutdown pc :: rest) (hs : s.shutdownStep t rest pc = some s') :
    s'.DelayInv := by
  cases pc with
  | exchange =>
    simp only [shutdownStep] at hs
    split_ifs at hs
    · cases hs
      exact h.next hf .pop
    · cases hs
      exact h.next hf (.same rfl rfl)
  | lock =>
    obtain ⟨-, rfl⟩ := acquire_eq_some hs
    exact h.next hf (.same rfl rfl)
  | check =>
    simp only [shutdownStep] at hs
    split at hs
    · cases hs
      exact h.next hf .pop
    · cases hs
      exact h.next hf (.same rfl rfl)
  | clear =>
    simp only [shutdownStep] at hs
    split at hs
    next hq =>
      cases hs
      exact h.next hf (.same rfl rfl)
    next y r requests hq =>
      cases hs
      exact clear_delayInv h hf hq
  | join =>
    simp only [shutdownStep] at hs
    split at hs
    · cases hs
      exact h.next hf .pop
    · split_ifs at hs <;> cases hs
      · exact h.next hf .pop
      · exact h.next hf .pop

/-! ### The worker -/

theorem stackTickets_workLoop (pc : WorkLoopPc) :
    stackTickets t (workLoopFrame q deadline rest pc) =
      pc.tickets t ++ (q.elements t ++ stackTickets t rest) :=
  List.append_assoc ..

/-- The element of a timer dies, and the ticket that it was. -/
theorem DelayInv.dropElement {b : Bool} {l : List Ticket} (h : s.DelayInv)
    (hf : s.frames t = f :: rest)
    (hold : stackTickets t (f :: rest) = ⟨x, none, .element t, b⟩ :: l)
    (hnew : stackTickets t fs = l) (hm : ∀ m ∈ stackMentions fs, m ∈ stackMentions (f :: rest)) :
    (s.drop t x (.element t) fs).DelayInv := by
  have hb : StackBelow s.timers t fs (f :: rest) := by
    constructor
    case keys =>
      rw [hold, hnew]
      exact keys_subperm (List.sublist_cons_self ..).subperm
    case origin =>
      intro n hn
      rw [hnew] at hn
      rw [hold]
      exact ⟨n, List.mem_cons_of_mem _ hn, rfl, rfl, fun hp _ => hp⟩
    case mentions => exact hm
  have hstack : stackTickets t (s.frames t) = ⟨x, none, .element t, b⟩ :: l := by rw [hf, hold]
  refine h.drop hf hb fun p n hn hdelay hx => ?_
  refine h.name_ne_elsewhere (within_cons hstack) ?_ hdelay hx
  rcases mem_ticketsAt_update hn with hn | hn
  · unfold within at hn
    rw [hnew] at hn
    exact .inl hn
  · exact .inr hn

/-- The element of a timer that is removed dies: the timer is no delay object. -/
theorem DelayInv.dropRemoved (h : s.DelayInv) (hf : s.frames t = f :: rest)
    (hb : StackBelow s.timers t fs (f :: rest)) (hx : (x, true) ∈ f.mentions) :
    (s.drop t x o fs).DelayInv := by
  have hnot := (h.stackMentioned hf (x, true) (List.mem_append_left _ hx)).2 rfl
  refine h.drop hf hb fun p n _ hdelay hnx => ?_
  rw [hnx, hnot] at hdelay
  cases hdelay

theorem processTimersStep_delayInv {pc : WorkLoopPc} (h : s.DelayInv)
    (hf : s.frames t = .workLoop pc q deadline :: rest)
    (hs : s.processTimersStep t q deadline rest pc = some s') : s'.DelayInv := by
  cases pc with
  | process requests =>
    cases requests with
    | nil =>
      cases hs
      exact h.next hf (.same rfl rfl)
    | cons p =>
      obtain ⟨x, r⟩ := p
      cases r with
      | add =>
        cases hs
        have hadd := h.addTimer hf
        unfold DelayInv
        simp only [setFrames, TimerSystem.copy, move, setOwners, update_self,
          update_idem]
        exact hadd
      | remove =>
        cases hs
        obtain ⟨hx, hdelay⟩ := h.stackMentioned hf (x, true) List.mem_cons_self
        refine h.reown hf ?_ hx (hdelay rfl)
        by_cases hfind : (q.find x).isSome = true
        · rw [if_pos hfind]
          exact .same rfl rfl
        · rw [if_neg hfind]
          exact .same rfl rfl
  | erase x =>
    cases hs
    refine h.dropRemoved hf (.sub ?_ fun _ hm => hm) List.mem_cons_self
    refine (List.subperm_append_left _).2 (List.Sublist.subperm (List.Sublist.map _ ?_))
    cases q.find x with
    | none => exact List.Sublist.refl _
    | some => exact List.filter_sublist
  | unmap | notExpired | unmapped | reinserted =>
    cases hs
    exact h.dropSpare hf (.same rfl rfl) rfl
  | removed =>
    cases hs
    exact h.dropSpare hf (.sub (.refl _) fun _ hm => List.mem_cons_of_mem _ hm) rfl
  | pass now =>
    simp only [processTimersStep] at hs
    split at hs
    · cases hs
      exact h.next hf (.same rfl rfl)
    next node x ts hq =>
      have helements : q.elements t = ⟨x, none, .element t, true⟩ :: q.extract.elements t := by
        unfold TimerQueueInternal.elements TimerQueueInternal.extract
        rw [hq]
        rfl
      have hx : x < s.created := by
        refine h.old_of_head (t := t) (n := ⟨x, none, .element t, true⟩)
          (l := q.extract.elements t ++ stackTickets t rest) ?_
        rw [hf]
        exact (stackTickets_workLoop (.pass now)).trans (by rw [helements]; rfl)
      split_ifs at hs
      · cases hs
        exact h.copy hf (.same helements.symm rfl) hx (by simp)
      · cases hs
        exact h.copy hf (.same rfl rfl) hx (by simp)
  | extracted _ _ x =>
    simp only [processTimersStep] at hs
    split_ifs at hs
    · cases hs
      exact h.next hf (.flip (n := ⟨x, none, .element t, true⟩) rfl rfl rfl rfl rfl fun m hm => hm)
    · cases hs
      exact h.fire hf
  | fired _ node x =>
    simp only [processTimersStep] at hs
    split_ifs at hs with hone
    · cases hs
      exact h.dropSpare hf (.same rfl rfl) rfl
    · cases hs
      -- a regular timer goes back into the multiset
      have hregular : (s.timers x).isOneshot = false := by
        rw [Bool.or_eq_true, not_or] at hone
        exact Bool.eq_false_iff.2 hone.1
      have hperm : ((q.reinsert s.deadlines node x).elements t).Perm
          (⟨x, none, .element t, true⟩ :: q.elements t) := insert_elements
      refine h.next hf (.head ?_ (fun n hn => ?_) fun m hm => hm)
      · exact (hperm.map Ticket.key).subperm
      · rcases List.mem_cons.1 (hperm.mem_iff.1 hn) with rfl | hn
        · refine ⟨⟨x, none, .element t, false⟩, List.mem_cons_self, rfl, rfl, fun _ hone => ?_⟩
          rw [hregular] at hone
          cases hone
        · exact ⟨n, List.mem_cons_of_mem _ hn, rfl, rfl, fun hp _ => hp⟩
  | dying =>
    cases hs
    exact h.dropElement hf rfl rfl fun m hm => hm
  | finish =>
    cases hs
    exact h.next hf (.same rfl rfl)
  | _ => cases hs

theorem workLoopStep_delayInv {pc : WorkLoopPc} (h : s.DelayInv)
    (hf : s.frames t = .workLoop pc q deadline :: rest)
    (hs : s.workLoopStep t q deadline rest pc = some s') : s'.DelayInv := by
  cases pc with
  | lock | waiting =>
    obtain ⟨-, rfl⟩ := acquire_eq_some hs
    exact h.next hf (.same rfl rfl)
  | locked =>
    simp only [workLoopStep] at hs
    split_ifs at hs <;> cases hs
    · exact h.next hf (.same rfl rfl)
    · exact h.next hf (.same rfl rfl)
  | timedOut =>
    simp only [workLoopStep] at hs
    split_ifs at hs <;> cases hs
    · exact h.next hf (.same rfl rfl)
    · exact h.next hf (.sub List.nil_subperm fun _ hm => hm)
  | woken =>
    simp only [workLoopStep] at hs
    split_ifs at hs <;> cases hs
    · exact h.next hf (.same rfl rfl)
    · exact h.take hf
  | aborted =>
    simp only [workLoopStep] at hs
    split at hs
    · cases hs
      exact h.dropSpare hf (.same rfl rfl) rfl
    next e ts hm hq =>
      cases hs
      refine h.dropElement (b := true) hf ?_ rfl fun m hm => hm
      refine (stackTickets_workLoop .aborted).trans ?_
      unfold TimerQueueInternal.elements
      rw [hq]
      rfl
    · cases hs
      exact h.next hf (.sub List.nil_subperm fun _ hm => hm)
  | _ => exact processTimersStep_delayInv h hf hs

theorem taskStep_delayInv {pc : TimerTaskPc} (h : s.DelayInv)
    (hf : s.frames t = .task x k pc :: rest) (hs : s.taskStep t x k rest pc = some s') :
    s'.DelayInv := by
  cases pc with
  | execute =>
    simp only [taskStep] at hs
    split_ifs at hs <;> cases hs
    · exact h.next hf
        (.flip (n := ⟨x, some k, .running t rest.length, true⟩) rfl rfl rfl rfl rfl fun m hm => hm)
    · exact h.execute hf
  | destroy =>
    cases hs
    exact h.dropFrame hf (.inr rfl)

/-! ### Steps and runs -/

theorem nextStep_delayInv (h : s.DelayInv) (hf : s.frames t = f :: rest)
    (hs : s.nextStep t rest f = some s') : s'.DelayInv := by
  cases f with
  | user => cases hs
  | makeTimer => exact makeTimerStep_delayInv h hf hs
  | cancel => exact cancelStep_delayInv h hf hs
  | shutdown => exact shutdownStep_delayInv h hf hs
  | workLoop => exact workLoopStep_delayInv h hf hs
  | task => exact taskStep_delayInv h hf hs

/-- A thread that runs nothing begins with user code. -/
theorem DelayInv.enter {n : ℕ} (h : s.DelayInv) (hf : s.frames (.caller n) = []) :
    (s.setFrames (.caller n) [.user]).DelayInv := by
  refine ⟨h.begin hf rfl rfl, fun m hm => ?_, h.assert⟩
  have hne : TimerThread.worker m ≠ .caller n := by simp
  change update s.frames (.caller n) [.user] (.worker m) = []
  rw [update_of_ne hne]
  exact h.fresh m hm

theorem step_delayInv {m : TimerMove} (h : s.DelayInv) (hs : s.step m = some s') : s'.DelayInv := by
  unfold step at hs
  split_ifs at hs
  cases m <;> simp only [liveStep] at hs
  case enter =>
    split_ifs at hs with hf
    cases hs
    exact h.enter hf
  case leave =>
    split at hs
    next rest hf =>
      cases hs
      exact h.next hf .pop
    · cases hs
  case call =>
    split at hs
    next rest hf => exact call_delayInv h hf hs
    · cases hs
  case step =>
    split at hs
    · cases hs
    next f rest hf => exact nextStep_delayInv h hf hs
  case timeout =>
    simp only [timeout] at hs
    split at hs
    next q deadline rest hf =>
      split_ifs at hs
      obtain ⟨-, rfl⟩ := acquire_eq_some hs
      exact h.next hf (.same rfl rfl)
    · cases hs
  case fail =>
    split at hs
    next x rest hf =>
      unfold failToStart at hs
      split_ifs at hs
      split at hs
      · cases hs
        exact h
      · cases hs
        exact h.next hf (.sub List.nil_subperm fun _ hm => hm)
    · cases hs
  case store =>
    obtain ⟨now, node, x, k, q, deadline, rest, hf, rfl⟩ := post_eq_some hs
    exact h.store hf
  case inline =>
    obtain ⟨now, node, x, k, q, deadline, rest, hf, rfl⟩ := post_eq_some hs
    exact h.inline hf rfl
  case throw =>
    obtain ⟨now, node, x, k, q, deadline, rest, hf, rfl⟩ := post_eq_some hs
    exact h
  case run | discard => exact h.takeTask hs
  case tick =>
    cases hs
    exact h

theorem delayInv_initial : initial.DelayInv := by
  have htickets : ∀ p, ticketsAt initial.frames initial.requestQueue initial.stored p = [] := by
    intro p
    cases p with
    | none => rfl
    | some => rfl
  have hmentions : ∀ p, mentionsAt initial.frames initial.requestQueue p = [] := by
    intro p
    cases p with
    | none => rfl
    | some => rfl
  refine ⟨?_, fun _ _ => rfl, rfl⟩
  constructor
  case unique => exact .of_eq_nil fun p => congrArg (List.map Ticket.key) (htickets p)
  case mentioned =>
    intro p m hm
    rw [hmentions p] at hm
    cases hm
  case postsNew => exact fun _ _ => rfl
  case ownersNew => exact fun _ _ => rfl
  case timersNew => exact fun _ _ => rfl
  case bound => exact fun _ _ => ⟨rfl, rfl, rfl, rfl⟩
  case once => exact fun _ hone => Nat.zero_le _
  case oneshot | noHandle =>
    intro x hx
    cases hx
  case functor =>
    intro x f hf
    cases hf
  all_goals
    intro p n hn
    rw [htickets p] at hn
    cases hn

theorem delayInv_of_reachable (h : Reachable s) : s.DelayInv := by
  refine Interleaving.Reach.invariant (fun s hs => ?_) (fun s m s' h _ hs => step_delayInv h hs) h
  cases hs
  exact delayInv_initial

end TimerSystem
end Concurrencpp
