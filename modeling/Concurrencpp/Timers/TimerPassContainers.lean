import Concurrencpp.Timers.TimerPasses
import Concurrencpp.Timers.TimerNodes

/-!
# The timer set and its iterator map stay in step

The containers over the passes of `process_timers`, for every clock.

* `PassPc.hand`: the element that the worker has taken out of the multiset; `PassPc.left`: the
  requests that it has not processed yet.
* `Ok`: the containers agree but for the element in hand, the multiset is in order, and no request
  adds a timer that the containers have.  `Ok.of_timers` is what other threads do, `Ok.work` a step
  of the worker.
* `containers_in_step`: what holds between the passes.
-/

namespace Concurrencpp

open Interleaving

/-- The element that is in the map but not in the multiset. -/
def PassPc.hand : PassPc → List (ℕ × ℕ)
  | .extracted _ node x | .fire _ node x | .fired _ node x _ => [(node, x)]
  | _ => []

/-- The requests that have not been processed. -/
def PassPc.left : PassPc → List (ℕ × TimerRequest)
  | .requests rs => rs
  | _ => []

/-- The pass is over, or about to return: its time. -/
def PassPc.ends : PassPc → Option ℤ
  | .finish now => some now
  | .returned (some (now, _)) => some now
  | _ => none

namespace TimerPasses

open TimerQueueInternal (InOrder)

variable {s s' : TimerPasses} {now reading : ℤ} {node x : ℕ} {timer : TimerStateBase}

theorem setTimer_self : (s.setTimer x timer).timers x = timer := Function.update_self ..

theorem setTimer_of_ne {y : ℕ} (hy : y ≠ x) : (s.setTimer x timer).timers y = s.timers y :=
  Function.update_of_ne hy ..

/-- The timers that exist already keep their states. -/
theorem makeTimerImpl_of_lt {dueTime frequency : ℕ} {isOneshot : Bool} (hx : x < s.created) :
    (s.makeTimerImpl reading dueTime frequency isOneshot).timers x = s.timers x :=
  Function.update_of_ne hx.ne ..

/-- What a pass at the time `now` returns: the least deadline, or a time in a day. -/
def Soonest (s : TimerPasses) (now time : ℤ) : Prop :=
  (s.queue.timers = [] ∧ time = addMilliseconds now dayInMilliseconds) ∨
    ((∃ e ∈ s.queue.timers, s.deadlines e.2 = time) ∧ ∀ e ∈ s.queue.timers, time ≤ s.deadlines e.2)

/-- The containers and the requests. -/
structure Ok (s : TimerPasses) : Prop where
  agrees : s.queue.Agrees s.pc.hand
  sorted : InOrder s.deadlines s.queue.timers
  known : ∀ e ∈ s.pc.hand ++ s.queue.timers, e.2 < s.created
  old : ∀ e ∈ s.pc.hand ++ s.queue.timers, e.2 ∈ s.added ∧ e.2 ∉ addedBy s.pc.left
  new : (addedBy s.pc.left).Nodup ∧ ∀ x ∈ addedBy s.pc.left, x ∈ s.added
  requests : ∀ r ∈ s.pc.left, r.1 < s.created ∧ (r.2 = .remove → (s.timers r.1).cancelled = true)
  late : ∀ now ∈ s.pc.ends, ∀ e ∈ s.queue.timers, now < s.deadlines e.2
  soonest : ∀ now time, s.pc = .returned (some (now, time)) → s.Soonest now time
  asserts : s.assertFailed = false

theorem ok_initial : initial.Ok where
  agrees := TimerQueueInternal.agrees_init
  sorted := .nil
  known e he := by cases he
  old e he := by cases he
  new := ⟨List.nodup_nil, fun x hx => by cases hx⟩
  requests r hr := by cases hr
  late now hnow := by cases hnow
  soonest now time h := by cases h
  asserts := rfl

/-! ### Other threads -/

theorem Soonest.congr {time : ℤ} (h : s.Soonest now time) (hq : s'.queue = s.queue)
    (hd : ∀ e ∈ s.queue.timers, s'.deadlines e.2 = s.deadlines e.2) : s'.Soonest now time := by
  unfold Soonest
  rw [hq]
  rcases h with h | ⟨⟨e, he, htime⟩, hle⟩
  · exact .inl h
  · exact .inr ⟨⟨e, he, (hd e he).trans htime⟩, fun e he => (hle e he).trans_eq (hd e he).symm⟩

/-- A step that changes no deadline by which the multiset is ordered, and revokes no
cancellation. -/
theorem Ok.of_timers (h : s.Ok) (hq : s'.queue = s.queue) (hpc : s'.pc = s.pc)
    (ha : s'.added = s.added) (hassert : s'.assertFailed = s.assertFailed)
    (hcreated : s.created ≤ s'.created)
    (hdead : ∀ e ∈ s.queue.timers, s'.deadlines e.2 = s.deadlines e.2)
    (hc : ∀ x, x < s.created → (s.timers x).cancelled = true → (s'.timers x).cancelled = true) :
    s'.Ok := by
  constructor
  case agrees =>
    rw [hq, hpc]
    exact h.agrees
  case sorted =>
    rw [hq]
    exact h.sorted.congr hdead
  case known =>
    rw [hq, hpc]
    exact fun e he => (h.known e he).trans_le hcreated
  case old =>
    rw [hq, hpc, ha]
    exact h.old
  case new =>
    rw [hpc, ha]
    exact h.new
  case requests =>
    rw [hpc]
    intro r hr
    obtain ⟨hlt, hcancelled⟩ := h.requests r hr
    exact ⟨hlt.trans_le hcreated, fun hremove => hc r.1 hlt (hcancelled hremove)⟩
  case late =>
    rw [hpc, hq]
    exact fun now hnow e he => (h.late now hnow e he).trans_eq (hdead e he).symm
  case soonest =>
    rw [hpc]
    exact fun now time heq => (h.soonest now time heq).congr hq hdead
  case asserts => exact hassert.trans h.asserts

/-- A new timer leaves the other ones alone. -/
theorem Ok.makeTimerImpl {dueTime frequency : ℕ} {isOneshot : Bool} (h : s.Ok) :
    (s.makeTimerImpl reading dueTime frequency isOneshot).Ok := by
  refine h.of_timers rfl rfl rfl rfl (Nat.le_succ _) (fun e he => ?_) fun x hx hc => ?_
  · rw [deadlines, deadlines, makeTimerImpl_of_lt (h.known e (List.mem_append_right _ he))]
  · rw [makeTimerImpl_of_lt hx]
    exact hc

/-- A timer keeps its deadline or is not in the multiset, and it stays cancelled. -/
theorem Ok.setTimer (h : s.Ok)
    (hd : timer.deadline = (s.timers x).deadline ∨ x ∉ s.queue.timers.map Prod.snd)
    (hc : (s.timers x).cancelled = true → timer.cancelled = true) : (s.setTimer x timer).Ok := by
  refine h.of_timers rfl rfl rfl rfl le_rfl (fun e he => ?_) fun y _ hy => ?_
  · by_cases hex : e.2 = x
    · rcases hd with hd | hd
      · rw [deadlines, deadlines, hex, setTimer_self, hd]
      · exact absurd (hex ▸ List.mem_map_of_mem he) hd
    · rw [deadlines, deadlines, setTimer_of_ne hex]
  · by_cases hyx : y = x
    · rw [hyx, setTimer_self]
      exact hc (hyx ▸ hy)
    · rw [setTimer_of_ne hyx]
      exact hy

/-! ### Requests -/

variable {rs : List (ℕ × TimerRequest)}

/-- `add_timer_internal` finds no entry. -/
theorem Ok.addTimerInternal (h : s.Ok) (hpc : s.pc = .requests ((x, .add) :: rs)) :
    (s.addTimerInternal x rs).Ok := by
  have hagrees := h.agrees
  have hold := h.old
  have hknown := h.known
  have hnew := h.new
  have hrequests := h.requests
  rw [hpc] at hagrees hold hknown hnew hrequests
  have hadded : ∀ y ∈ x :: addedBy rs, y ∈ s.added := hnew.2
  obtain ⟨hx, hnodup⟩ := List.nodup_cons.1 (show (x :: addedBy rs).Nodup from hnew.1)
  have hnot : x ∉ s.queue.timers.map Prod.snd := by
    intro hmem
    obtain ⟨e, he, rfl⟩ := List.mem_map.1 hmem
    exact (hold e he).2 List.mem_cons_self
  have hperm := TimerQueueInternal.perm_insert s.deadlines (s.queue.nodes, x) s.queue.timers
  -- an element is the new one or has been there
  have hcases : ∀ e ∈ (s.addTimerInternal x rs).queue.timers,
      e = (s.queue.nodes, x) ∨ e ∈ s.queue.timers :=
    fun e he => List.mem_cons.1 (hperm.mem_iff.1 he)
  constructor
  case agrees => exact hagrees.add hnot
  case sorted => exact h.sorted.insert
  case known =>
    intro e he
    rcases hcases e he with rfl | he
    · exact (hrequests _ List.mem_cons_self).1
    · exact hknown e he
  case old =>
    intro e he
    rcases hcases e he with rfl | he
    · exact ⟨hadded x List.mem_cons_self, hx⟩
    · exact ⟨(hold e he).1, fun hmem => (hold e he).2 (List.mem_cons_of_mem _ hmem)⟩
  case new => exact ⟨hnodup, fun y hy => hadded y (List.mem_cons_of_mem _ hy)⟩
  case requests => exact fun r hr => hrequests r (List.mem_cons_of_mem _ hr)
  case late => exact fun now hnow => by cases hnow
  case soonest => exact fun now time heq => by cases heq
  case asserts =>
    have hfind : s.queue.find x = none :=
      TimerQueueInternal.find_eq_none.2 fun hmem => hnot (hagrees.mem_keys.1 hmem)
    change (s.assertFailed || !(s.queue.find x).isNone) = false
    rw [h.asserts, hfind]
    rfl

/-- `remove_timer_internal` finds an entry, or the timer is cancelled. -/
theorem Ok.removeTimerInternal (h : s.Ok) (hpc : s.pc = .requests ((x, .remove) :: rs)) :
    (s.removeTimerInternal x rs).Ok := by
  have hagrees := h.agrees
  have hold := h.old
  have hknown := h.known
  have hnew := h.new
  have hrequests := h.requests
  rw [hpc] at hagrees hold hknown hnew hrequests
  have hrest : ∀ r ∈ rs, r.1 < s.created ∧ (r.2 = .remove → (s.timers r.1).cancelled = true) :=
    fun r hr => hrequests r (List.mem_cons_of_mem _ hr)
  unfold TimerPasses.removeTimerInternal
  cases hfind : s.queue.find x with
  | none =>
    refine ⟨hagrees, h.sorted, hknown, hold, hnew, hrest, fun now hnow => (by cases hnow),
      fun now time heq => (by cases heq), ?_⟩
    have hcancelled : (s.timers x).cancelled = true := (hrequests _ List.mem_cons_self).2 rfl
    change (s.assertFailed || !((s.timers x).isOneshot || (s.timers x).cancelled)) = false
    rw [h.asserts, hcancelled, Bool.or_true]
    rfl
  | some node =>
    have hsub : ((s.queue.eraseNode node).unmap x).timers.Sublist s.queue.timers :=
      List.filter_sublist
    exact ⟨(hagrees.eraseNode hfind).unmap, h.sorted.sublist hsub,
      fun e he => hknown e (hsub.subset he),
      fun e he => hold e (hsub.subset he), hnew, hrest, fun now hnow => (by cases hnow),
      fun now time heq => (by cases heq), h.asserts⟩

/-! ### The loop -/

theorem Ok.check {b : Bool} (h : s.Ok) (hb : b = true) : (s.check b).Ok := by
  have hassert : (s.check b).assertFailed = false := by
    change (s.assertFailed || !b) = false
    rw [h.asserts, hb]
    rfl
  exact { h with asserts := hassert }

variable {q : TimerQueueInternal}

/-- The worker has processed all requests, and goes on at another point. -/
theorem Ok.goto {pc : PassPc} (h : s.Ok) (hagrees : q.Agrees pc.hand)
    (hsorted : InOrder s.deadlines q.timers)
    (hsub : ∀ e ∈ pc.hand ++ q.timers, e ∈ s.pc.hand ++ s.queue.timers) (hleft : pc.left = [])
    (hlate : ∀ now ∈ pc.ends, ∀ e ∈ q.timers, now < s.deadlines e.2)
    (hsoonest : ∀ now time, pc = .returned (some (now, time)) → (s.goto pc q).Soonest now time) :
    (s.goto pc q).Ok := by
  have hadded : addedBy (s.goto pc q).pc.left = [] := congrArg addedBy hleft
  constructor
  case agrees => exact hagrees
  case sorted => exact hsorted
  case known => exact fun e he => h.known e (hsub e he)
  case old =>
    rw [hadded]
    exact fun e he => ⟨(h.old e (hsub e he)).1, List.not_mem_nil⟩
  case new =>
    rw [hadded]
    exact ⟨List.nodup_nil, fun x hx => (by cases hx)⟩
  case requests =>
    rw [show (s.goto pc q).pc.left = [] from hleft]
    exact fun r hr => by cases hr
  case late => exact hlate
  case soonest => exact hsoonest
  case asserts => exact h.asserts

/-- The same, inside the pass. -/
theorem Ok.goto_inside {pc : PassPc} (h : s.Ok) (hagrees : q.Agrees pc.hand)
    (hsorted : InOrder s.deadlines q.timers)
    (hsub : ∀ e ∈ pc.hand ++ q.timers, e ∈ s.pc.hand ++ s.queue.timers) (hleft : pc.left = [])
    (hends : pc.ends = none) : (s.goto pc q).Ok := by
  refine h.goto hagrees hsorted hsub hleft (fun now hnow => ?_) fun now time heq => ?_
  · rw [hends] at hnow
    cases hnow
  · rw [heq] at hends
    cases hends

/-- At the head of the loop the first timer is taken, or no timer is due. -/
theorem Ok.loop (h : s.Ok) (hpc : s.pc = .loop now) : (s.loop now).Ok := by
  have hagrees := h.agrees
  rw [hpc] at hagrees
  have hfinish : (∀ e ∈ s.queue.timers, now < s.deadlines e.2) →
      (s.goto (.finish now) s.queue).Ok := by
    intro hlate
    refine h.goto hagrees h.sorted (fun e he => by rw [hpc]; exact he) rfl
      (fun n hn => ?_) fun n time heq => ?_
    · cases hn
      exact hlate
    · cases heq
  unfold TimerPasses.loop
  split
  next hq => exact hfinish fun e he => by rw [hq] at he; cases he
  next node x ts hq =>
    split_ifs with hexpired
    · refine h.goto_inside (hagrees.extract hq) (h.sorted.sublist (List.tail_sublist _))
        (fun e he => ?_) rfl rfl
      rw [hpc, hq]
      rw [TimerQueueInternal.extract, hq] at he
      exact he
    · -- the others are not before the first one
      have hlt : now < s.deadlines x := not_le.1 fun hle => hexpired (decide_eq_true hle)
      refine hfinish fun e he => ?_
      have hsorted := h.sorted
      rw [hq] at hsorted he
      rcases List.mem_cons.1 he with rfl | he
      · exact hlt
      · exact hlt.trans_le ((List.pairwise_cons.1 hsorted).1 e he)

/-- The timer that is fired is not in the multiset. -/
theorem Ok.fire (h : s.Ok) (hpc : s.pc = .fire now node x) : (s.fire reading now node x).Ok := by
  have hagrees := h.agrees
  rw [hpc] at hagrees
  have hset : (s.setTimer x ((s.timers x).rearm reading)).Ok :=
    h.setTimer (.inr hagrees.not_mem_timers) fun hc => hc
  have hgoto :
      ((s.setTimer x ((s.timers x).rearm reading)).goto (.fired now node x false) s.queue).Ok :=
    hset.goto_inside hagrees hset.sorted
      (fun e he => by rw [show (s.setTimer x _).pc = _ from hpc]; exact he) rfl rfl
  exact hgoto.of_timers rfl rfl rfl rfl le_rfl (fun e he => rfl) fun y hy hc => hc

theorem Ok.afterFire {cancelled : Bool} (h : s.Ok) (hpc : s.pc = .fired now node x cancelled) :
    (s.afterFire now node x cancelled).Ok := by
  have hagrees := h.agrees
  rw [hpc] at hagrees
  unfold TimerPasses.afterFire
  split_ifs
  · refine h.goto_inside hagrees.unmap h.sorted (fun e he => ?_) rfl rfl
    rw [hpc]
    exact List.mem_cons_of_mem _ he
  · have hfind : (s.queue.find x).isSome = true := by
      rw [Option.isSome_iff_ne_none]
      intro hnone
      refine TimerQueueInternal.find_eq_none.1 hnone ?_
      exact List.mem_map_of_mem (f := Prod.fst) (hagrees.mem_iff.2 List.mem_cons_self)
    refine (h.check hfind).goto_inside hagrees.reinsert h.sorted.insert (fun e he => ?_) rfl rfl
    rw [show (s.check _).pc = _ from hpc]
    exact (TimerQueueInternal.perm_insert s.deadlines (node, x) s.queue.timers).mem_iff.1 he

theorem sizesAgree_of_agrees (h : q.Agrees []) : sizesAgree q = true := by
  have hlength := h.perm.length_eq
  rw [List.length_map] at hlength
  exact decide_eq_true hlength

theorem Ok.finish (h : s.Ok) (hpc : s.pc = .finish now) : (s.finish now).Ok := by
  have hagrees := h.agrees
  have hlate := h.late
  rw [hpc] at hagrees hlate
  unfold TimerPasses.finish
  split
  next hq =>
    refine (h.check (sizesAgree_of_agrees hagrees)).goto ?_ .nil (fun e he => (by cases he)) rfl
      (fun n hn e he => (by cases he)) fun n time heq => ?_
    · exact ⟨.nil, .nil, .nil, fun e he => (by cases he)⟩
    · cases heq
      exact .inl ⟨rfl, rfl⟩
  next node x ts hq =>
    refine h.goto hagrees h.sorted (fun e he => by rw [hpc]; exact he) rfl
      (fun n hn => ?_) fun n time heq => ?_
    · cases hn
      exact hlate now rfl
    · cases heq
      have hfirst : (node, x) ∈ s.queue.timers := by
        rw [hq]
        exact List.mem_cons_self
      refine .inr ⟨⟨_, hfirst, rfl⟩, fun e he => ?_⟩
      have hsorted := h.sorted
      have he : e ∈ s.queue.timers := he
      rw [hq] at hsorted he
      rcases List.mem_cons.1 he with rfl | he
      · exact le_rfl
      · exact (List.pairwise_cons.1 hsorted).1 e he

/-! ### Runs -/

theorem Ok.work (h : s.Ok) (hs : s.work reading = some s') : s'.Ok := by
  unfold TimerPasses.work at hs
  have hagrees := h.agrees
  split at hs
  · cases hs
  next x rs hpc =>
    cases hs
    exact h.addTimerInternal hpc
  next x rs hpc =>
    cases hs
    exact h.removeTimerInternal hpc
  next hpc =>
    cases hs
    rw [hpc] at hagrees
    have hgoto : (s.goto (.loop reading) s.queue).Ok :=
      h.goto_inside hagrees h.sorted (fun e he => by rw [hpc]; exact he) rfl rfl
    exact hgoto.of_timers rfl rfl rfl rfl le_rfl (fun e he => rfl) fun y hy hc => hc
  next now hpc =>
    cases hs
    exact h.loop hpc
  next now node x hpc =>
    cases hs
    rw [hpc] at hagrees
    split_ifs
    · exact h.goto_inside hagrees h.sorted (fun e he => by rw [hpc]; exact he) rfl rfl
    · exact h.goto_inside hagrees h.sorted (fun e he => by rw [hpc]; exact he) rfl rfl
  next now node x hpc =>
    cases hs
    exact h.fire hpc
  next now node x cancelled hpc =>
    cases hs
    exact h.afterFire hpc
  next now hpc =>
    cases hs
    exact h.finish hpc

theorem Ok.begins (h : s.Ok) (hw : s.WellFormed (.begins rs)) (hs : s.begins rs = some s') :
    s'.Ok := by
  unfold TimerPasses.begins at hs
  split at hs
  next last hpc =>
    cases hs
    obtain ⟨hnodup, hrequests⟩ := hw
    obtain ⟨-, hnew, hdisjoint⟩ := List.nodup_append.1 hnodup
    have hagrees := h.agrees
    have hold := h.old
    have hknown := h.known
    rw [hpc] at hagrees hold hknown
    have hcheck := h.check (sizesAgree_of_agrees hagrees)
    constructor
    case agrees => exact hagrees
    case sorted => exact h.sorted
    case known => exact hknown
    case old =>
      intro e he
      have hadded := (hold e he).1
      exact ⟨List.mem_append_left _ hadded, fun hmem => hdisjoint _ hadded _ hmem rfl⟩
    case new => exact ⟨hnew, fun x hx => List.mem_append_right _ hx⟩
    case requests => exact hrequests
    case late => exact fun now hnow => by cases hnow
    case soonest => exact fun now time heq => by cases heq
    case asserts => exact hcheck.asserts
  · cases hs

theorem Ok.step {mv : PassMove} (h : s.Ok) (hw : s.WellFormed mv) (hs : s.step mv = some s') :
    s'.Ok := by
  cases mv with
  | makeTimer | makeOneShotTimer =>
    cases hs
    exact h.makeTimerImpl
  | cancel =>
    cases hs
    exact h.setTimer (.inl rfl) fun _ => rfl
  | setFrequency =>
    cases hs
    exact h.setTimer (.inl rfl) fun hc => hc
  | begins => exact h.begins hw hs
  | work => exact h.work hs

theorem ok_of_reach {cond : TimerPasses → PassMove → Prop}
    (hc : ∀ s mv, cond s mv → s.WellFormed mv) (h : Reach step IsInitial cond s) : s.Ok := by
  induction h with
  | start hs =>
    cases hs
    exact ok_initial
  | next _ hcond hs ih => exact ih.step (hc _ _ hcond) hs

/-- The map has exactly the timers of the multiset, each with its own element, and the multiset is
ordered by the deadlines of its timers, none of which is in it twice. -/
structure InStep (s : TimerPasses) : Prop where
  mapped : (s.queue.iteratorMapper.map Prod.swap).Perm s.queue.timers
  timers : (s.queue.timers.map Prod.snd).Nodup
  elements : (s.queue.timers.map Prod.fst).Nodup
  sorted : InOrder s.deadlines s.queue.timers

/-- **The timer set and its iterator map stay in step.**  For every stream of requests, however it
is split into passes, and every clock, no assertion fails, the containers are in step between the
passes, and a pass leaves no timer that is expired at its time and returns the least deadline, or a
time in a day when no timer is left. -/
theorem containers_in_step (s : TimerPasses) (h : Reach step IsInitial WellFormed s) :
    s.assertFailed = false ∧ ∀ last, s.pc = .returned last → s.InStep ∧
      ∀ now time, last = some (now, time) →
        (∀ e ∈ s.queue.timers, (s.timers e.2).expired now = false) ∧ s.Soonest now time := by
  have hok := ok_of_reach (fun _ _ hw => hw) h
  refine ⟨hok.asserts, fun last hpc => ?_⟩
  have hagrees := hok.agrees
  rw [hpc] at hagrees
  refine ⟨⟨hagrees.perm, hagrees.timers_nodup, hagrees.nodes_nodup, hok.sorted⟩, ?_⟩
  rintro now time rfl
  refine ⟨fun e he => decide_eq_false (not_le.2 ?_), hok.soonest now time hpc⟩
  exact hok.late now (by rw [hpc]; rfl) e he

/-- Two regular timers and a one-shot timer are added; one of the regular ones and the one-shot
timer are due at the first pass.  The other regular timer is the only one left behind the second
pass. -/
theorem containers_in_step_of_cancel :
    ∃ s : TimerPasses, s.pc = .returned (some (50, 5000000000)) ∧
      s.queue.timers.map Prod.snd = [2] ∧ s.InStep ∧ s.Soonest 50 5000000000 := by
  let schedule : List PassMove :=
    [.makeTimer 0 0 1000, .makeOneShotTimer 0 0, .makeTimer 0 5000 1000,
    .begins [(0, .add), (1, .add), (2, .add)]] ++ List.replicate 14 (.work 20) ++
    [.cancel 0, .begins [(0, .remove)]] ++ List.replicate 4 (.work 50)
  have h : Reach step IsInitial WellFormed _ := .lastState (by rfl) schedule
  have hpc : (lastState (restrict step WellFormed) initial schedule).pc =
      .returned (some (50, 5000000000)) := by
    decide +kernel
  obtain ⟨hstep, hreturn⟩ := (containers_in_step _ h).2 _ hpc
  exact ⟨_, hpc, by decide +kernel, hstep, (hreturn _ _ rfl).2⟩

end TimerPasses

end Concurrencpp
