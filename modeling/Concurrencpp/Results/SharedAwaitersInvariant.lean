import Concurrencpp.Results.SharedAwaiters

/-!
# The contexts of the awaiters in memory

`Inv` ties the contexts in memory to the record of the run: the chain that `m_awaiters` or
`on_result_finished` holds spells the awaitables that are still to be resumed (`Links`).

* Until the exchange it is the stack of all pushed awaitables.
* In the loop that reverses it there are two chains, the rest of the stack and the reversed part.
* In the loop that resumes it spells, in the order of their pushes, the awaitables that have not
  been resumed.

All of them are suspended, so nobody else writes to their contexts (`Links.mono`), and the context
of a resumed awaitable is in no chain.
-/

namespace Concurrencpp

open Function (update_of_ne forall_update_iff)

/-- The awaitable has a context in memory. -/
def AwaitablePc.alive : AwaitablePc → Bool
  | .unborn | .destroyed => false
  | _ => true

/-- `await` has returned. -/
def AwaitablePc.past : AwaitablePc → Bool
  | .suspended | .returned | .destroyed => true
  | _ => false

namespace SharedAwaiters

open LinkedChain

variable {s t : SharedAwaiters} {n m : ℕ} {pc : AwaitablePc}

/-- The pointer in the context at an address. -/
def nextAt (s : SharedAwaiters) (a : ℕ) : Option ℕ := (s.contexts a).bind SharedAwaitContext.next

/-- From `p` on, the contexts in memory are those of the awaitables `l`. -/
def Spells (s : SharedAwaiters) (p : Option ℕ) (l : List ℕ) : Prop :=
  Chain s.nextAt p (l.map s.address)

/-- What memory and the records say of the awaitable `m` when it is at `pc`. -/
structure AwaitableOk (s : SharedAwaiters) (m : ℕ) (pc : AwaitablePc) : Prop where
  owner : pc.alive = true → ∃ next, s.contexts (s.address m) = some ⟨next, some m⟩
  cas : ∀ before, pc = .cas before → s.nextAt (s.address m) = before
  suspended : pc = .suspended ↔ m ∈ s.pushed ∧ m ∉ s.resumed
  past : m ∈ s.pushed ∨ m ∈ s.declined ↔ pc.past = true
  declined : m ∈ s.declined → m ∉ s.pushed
  ready : pc = .returned ∨ pc = .destroyed → s.awaiters = .ready

/-- The chains at each point of `on_result_finished`. -/
def Links (spells : Option ℕ → List ℕ → Prop) (ptr : AwaitersPtr) (pushed resumed : List ℕ) :
    FinishPc → Prop
  | .before | .notify | .release | .exchange =>
      resumed = [] ∧ ∃ p, ptr = .list p ∧ spells p pushed.reverse
  | .reverse current prev => resumed = [] ∧ ptr = .ready ∧
      ∃ l m, pushed = l.reverse ++ m ∧ spells current l ∧ spells prev m
  | .resume p => ptr = .ready ∧ ∃ l, pushed = resumed ++ l ∧ spells p l
  | .call h p => ptr = .ready ∧ ∃ m l, h = some m ∧ pushed = resumed ++ m :: l ∧ spells p l
  | .done => ptr = .ready ∧ pushed = resumed

/-- The invariant. -/
structure Inv (s : SharedAwaiters) : Prop where
  awaitable : ∀ m, AwaitableOk s m (s.awaitables m)
  nodup : s.pushed.Nodup
  links : Links s.Spells s.awaiters s.pushed s.resumed s.finish
  fault : s.fault = false

theorem inv_initial : Inv initial where
  awaitable := fun _ => ⟨nofun, nofun, ⟨nofun, fun h => absurd h.1 List.not_mem_nil⟩,
    ⟨fun h => absurd h (by simp [initial]), nofun⟩, fun h => absurd h List.not_mem_nil, nofun⟩
  nodup := List.nodup_nil
  links := ⟨rfl, none, rfl, rfl⟩
  fault := rfl

/-! ### The steps of others -/

/-- A step that leaves the context of `m` and the records of `m` alone. -/
theorem AwaitableOk.frame (h : AwaitableOk s m pc) (haddress : t.address m = s.address m)
    (hcontext : pc.alive = true → t.contexts (s.address m) = s.contexts (s.address m))
    (hpushed : m ∈ t.pushed ↔ m ∈ s.pushed) (hresumed : m ∈ t.resumed ↔ m ∈ s.resumed)
    (hdeclined : m ∈ t.declined ↔ m ∈ s.declined)
    (hready : s.awaiters = .ready → t.awaiters = .ready) : AwaitableOk t m pc where
  owner := fun hpc => by rw [haddress, hcontext hpc]; exact h.owner hpc
  cas := fun before hpc => by
    have hlive : pc.alive = true := by rw [hpc]; rfl
    rw [haddress, nextAt, hcontext hlive]
    exact h.cas before hpc
  suspended := by rw [hpushed, hresumed]; exact h.suspended
  past := by rw [hpushed, hdeclined]; exact h.past
  declined := by rw [hpushed, hdeclined]; exact h.declined
  ready := fun hpc => hready (h.ready hpc)

/-- Two awaitables with contexts have them at different addresses. -/
theorem Inv.address_ne (h : Inv s) (hn : (s.awaitables n).alive = true)
    (hm : (s.awaitables m).alive = true) (hmn : m ≠ n) : s.address m ≠ s.address n := by
  intro heq
  obtain ⟨p, hp⟩ := (h.awaitable n).owner hn
  obtain ⟨q, hq⟩ := (h.awaitable m).owner hm
  rw [heq, hp] at hq
  cases hq
  exact hmn rfl

/-- The others, when `n` moves and no context but its own changes. -/
theorem Inv.frame (h : Inv s) (hn : (s.awaitables n).alive = true)
    (hcontexts : ∀ a, a ≠ s.address n → t.contexts a = s.contexts a)
    (haddress : t.address = s.address)
    (hpushed : ∀ m, m ≠ n → (m ∈ t.pushed ↔ m ∈ s.pushed))
    (hresumed : ∀ m, m ≠ n → (m ∈ t.resumed ↔ m ∈ s.resumed))
    (hdeclined : ∀ m, m ≠ n → (m ∈ t.declined ↔ m ∈ s.declined))
    (hready : s.awaiters = .ready → t.awaiters = .ready) :
    ∀ m, m ≠ n → AwaitableOk t m (s.awaitables m) := fun m hmn =>
  (h.awaitable m).frame (by rw [haddress]) (fun hm => hcontexts _ (h.address_ne hn hm hmn))
    (hpushed m hmn) (hresumed m hmn) (hdeclined m hmn) hready

theorem Spells.congr {p : Option ℕ} {l : List ℕ} (h : s.Spells p l)
    (haddress : ∀ m ∈ l, t.address m = s.address m)
    (hcontexts : ∀ m ∈ l, t.contexts (s.address m) = s.contexts (s.address m)) : t.Spells p l := by
  unfold Spells
  rw [List.map_congr_left haddress]
  refine Chain.congr h fun a ha => ?_
  obtain ⟨m, hm, rfl⟩ := List.mem_map.1 ha
  rw [nextAt, hcontexts m hm]
  rfl

/-- The chains at a point survive what keeps the chains of awaitables that are still to be
resumed. -/
theorem Links.mono {spells spells' : Option ℕ → List ℕ → Prop} {ptr : AwaitersPtr}
    {pushed resumed : List ℕ} {pc : FinishPc} (h : Links spells ptr pushed resumed pc)
    (hnodup : pushed.Nodup)
    (hmono : ∀ p l, (∀ m ∈ l, m ∈ pushed ∧ m ∉ resumed) → spells p l → spells' p l) :
    Links spells' ptr pushed resumed pc := by
  have hrest : ∀ l, pushed = resumed ++ l → ∀ m ∈ l, m ∈ pushed ∧ m ∉ resumed := by
    rintro l rfl m hm
    exact ⟨List.mem_append_right _ hm, fun hr => (List.nodup_append.1 hnodup).2.2 m hr m hm rfl⟩
  cases pc with
  | before | notify | release | exchange =>
    obtain ⟨rfl, p, hptr, hp⟩ := h
    exact ⟨rfl, p, hptr, hmono p _ (fun m hm => ⟨List.mem_reverse.1 hm, List.not_mem_nil⟩) hp⟩
  | reverse current prev =>
    obtain ⟨rfl, hptr, l, m, rfl, hl, hm⟩ := h
    refine ⟨rfl, hptr, l, m, rfl, hmono current l (fun k hk => ?_) hl,
      hmono prev m (fun k hk => ?_) hm⟩
    · exact ⟨List.mem_append_left _ (List.mem_reverse.2 hk), List.not_mem_nil⟩
    · exact ⟨List.mem_append_right _ hk, List.not_mem_nil⟩
  | resume p =>
    obtain ⟨hptr, l, heq, hl⟩ := h
    exact ⟨hptr, l, heq, hmono p l (hrest l heq) hl⟩
  | call _ p =>
    obtain ⟨hptr, m, l, hh, heq, hl⟩ := h
    exact ⟨hptr, m, l, hh, heq, hmono p l
      (fun k hk => hrest (m :: l) heq k (List.mem_cons_of_mem m hk)) hl⟩
  | done => exact h

/-- The chains, when no context changes but that of an awaitable which is not suspended. -/
theorem Inv.links_frame (h : Inv s) (hn : (s.awaitables n).alive = true)
    (hns : s.awaitables n ≠ .suspended)
    (hcontexts : ∀ a, a ≠ s.address n → t.contexts a = s.contexts a)
    (haddress : t.address = s.address) : Links t.Spells s.awaiters s.pushed s.resumed s.finish := by
  refine h.links.mono h.nodup fun p l hpending hp => ?_
  refine hp.congr (fun m _ => by rw [haddress]) fun m hm => hcontexts _ ?_
  have hsuspended := (h.awaitable m).suspended.2 (hpending m hm)
  refine h.address_ne hn (by rw [hsuspended]; rfl) ?_
  rintro rfl
  exact hns hsuspended

/-! ### The steps of an awaitable -/

theorem Inv.not_mem (h : Inv s) (hpc : (s.awaitables n).past = false) :
    n ∉ s.pushed ∧ n ∉ s.declined := by
  refine ⟨fun hn => ?_, fun hn => ?_⟩
  · simp [(h.awaitable n).past.1 (.inl hn)] at hpc
  · simp [(h.awaitable n).past.1 (.inr hn)] at hpc

/-- The awaitable is at a point of `await` with a context of its own. -/
theorem AwaitableOk.of_not_past {p : Option ℕ} (hpc : pc.past = false)
    (howner : t.contexts (t.address n) = some ⟨p, some n⟩)
    (hcas : ∀ before, pc = .cas before → p = before) (hpushed : n ∉ t.pushed)
    (hdeclined : n ∉ t.declined) : AwaitableOk t n pc where
  owner := fun _ => ⟨p, howner⟩
  cas := fun before hbefore => by rw [nextAt, howner]; exact hcas before hbefore
  suspended := ⟨fun h => by (rw [h] at hpc; cases hpc), fun h => absurd h.1 hpushed⟩
  past := ⟨fun h => (h.elim hpushed hdeclined).elim, fun h => by simp [hpc] at h⟩
  declined := fun h => absurd h hdeclined
  ready := fun h => by rcases h with rfl | rfl <;> cases hpc

theorem inv_create {a : ℕ} (h : Inv s) (hs : s.create n a = some t) : Inv t := by
  unfold create at hs
  split_ifs at hs with hguard
  cases hs
  obtain ⟨hn, ha⟩ := hguard
  obtain ⟨hpushed, hdeclined⟩ := h.not_mem (n := n) (by rw [hn]; rfl)
  -- the contexts that there are lie at other addresses
  have hne : ∀ m, (s.awaitables m).alive = true → s.address m ≠ a := fun m hm heq => by
    obtain ⟨p, hp⟩ := (h.awaitable m).owner hm
    rw [heq, ha] at hp
    cases hp
  refine ⟨(forall_update_iff _ _).2 ⟨?_, fun m hmn => ?_⟩, h.nodup,
    h.links.mono h.nodup fun p l hl hp => ?_, h.fault⟩
  · exact AwaitableOk.of_not_past (p := none) rfl (by simp [setContext]) nofun hpushed hdeclined
  · exact (h.awaitable m).frame (update_of_ne hmn _ _)
      (fun hm => update_of_ne (hne m hm) _ _) Iff.rfl Iff.rfl Iff.rfl id
  · have hsuspended : ∀ m ∈ l, s.awaitables m = .suspended := fun m hm =>
      (h.awaitable m).suspended.2 (hl m hm)
    refine hp.congr (fun m hm => update_of_ne ?_ _ _) fun m hm =>
      update_of_ne (hne m (by rw [hsuspended m hm]; rfl)) _ _
    rintro rfl
    cases hn.symm.trans (hsuspended m hm)

/-- An awaitable moves on inside `await`, with no access to memory. -/
theorem inv_setPc (h : Inv s) (hn : (s.awaitables n).past = false)
    (hlive : (s.awaitables n).alive = true) (hpc : pc.past = false)
    (hcas : ∀ before, pc ≠ .cas before) : Inv (s.setPc n pc) := by
  obtain ⟨hpushed, hdeclined⟩ := h.not_mem hn
  obtain ⟨next, hnext⟩ := (h.awaitable n).owner hlive
  refine ⟨(forall_update_iff _ _).2 ⟨?_, ?_⟩, h.nodup, h.links, h.fault⟩
  · exact AwaitableOk.of_not_past hpc hnext (fun before hb => absurd hb (hcas before)) hpushed
      hdeclined
  · exact h.frame hlive (fun _ _ => rfl) rfl (fun _ _ => Iff.rfl) (fun _ _ => Iff.rfl)
      (fun _ _ => Iff.rfl) id

/-- An awaitable that is not suspended moves on, and writes its own context. -/
theorem Inv.writeContext {c : Option SharedAwaitContext} (h : Inv s)
    (hlive : (s.awaitables n).alive = true) (hns : s.awaitables n ≠ .suspended)
    (hok : AwaitableOk ((s.setPc n pc).setContext (s.address n) c) n pc) :
    Inv ((s.setPc n pc).setContext (s.address n) c) := by
  have hother : ∀ a, a ≠ s.address n →
      ((s.setPc n pc).setContext (s.address n) c).contexts a = s.contexts a :=
    fun a ha => update_of_ne ha _ _
  refine ⟨(forall_update_iff _ _).2 ⟨hok, ?_⟩, h.nodup, h.links_frame hlive hns hother rfl, h.fault⟩
  exact h.frame hlive hother rfl (fun _ _ => Iff.rfl) (fun _ _ => Iff.rfl) (fun _ _ => Iff.rfl) id

/-- `awaiter.next = awaiter_before`. -/
theorem inv_setNext {before : Option ℕ} {c : SharedAwaitContext} (h : Inv s)
    (hn : s.awaitables n = .setNext before) (hc : s.contexts (s.address n) = some c) :
    Inv ((s.setPc n (.cas before)).setContext (s.address n) (some { c with next := before })) := by
  have hlive : (s.awaitables n).alive = true := by rw [hn]; rfl
  obtain ⟨hpushed, hdeclined⟩ := h.not_mem (n := n) (by rw [hn]; rfl)
  refine h.writeContext hlive (by rw [hn]; nofun) ?_
  obtain ⟨next, hnext⟩ := (h.awaitable n).owner hlive
  obtain rfl : c = ⟨next, some n⟩ := Option.some.inj (hc.symm.trans hnext)
  refine AwaitableOk.of_not_past rfl (Function.update_self ..) ?_ hpushed hdeclined
  rintro _ ⟨⟩
  rfl

/-- `await` finds the ready constant. -/
theorem inv_decline (h : Inv s) (hn : s.awaitables n = .load) (hready : s.awaiters = .ready) :
    Inv { s.setPc n .returned with declined := s.declined ++ [n] } := by
  have hlive : (s.awaitables n).alive = true := by rw [hn]; rfl
  obtain ⟨hpushed, hdeclined⟩ := h.not_mem (n := n) (by rw [hn]; rfl)
  refine ⟨(forall_update_iff _ _).2 ⟨?_, ?_⟩, h.nodup, h.links, h.fault⟩
  · exact ⟨fun _ => (h.awaitable n).owner hlive, nofun, ⟨nofun, fun hm => absurd hm.1 hpushed⟩,
      ⟨fun _ => rfl, fun _ => by simp⟩, fun _ => hpushed, fun _ => hready⟩
  · exact h.frame hlive (fun _ _ => rfl) rfl (fun _ _ => Iff.rfl) (fun _ _ => Iff.rfl)
      (fun m hmn => by simp [hmn]) id

/-- As long as `m_awaiters` is a list, it has not been detached. -/
theorem Inv.stack {p : Option ℕ} (h : Inv s) (hptr : s.awaiters = .list p) :
    s.resumed = [] ∧ s.Spells p s.pushed.reverse ∧
      ∀ spells ptr pushed, spells ptr pushed.reverse →
        Links spells (.list ptr) pushed s.resumed s.finish := by
  have hl := h.links
  rw [hptr] at hl
  cases hf : s.finish with
  | before | notify | release | exchange =>
    rw [hf] at hl
    obtain ⟨hr, q, hq, hl⟩ := hl
    cases hq
    exact ⟨hr, hl, fun spells ptr pushed hp => ⟨hr, ptr, rfl, hp⟩⟩
  | reverse =>
    rw [hf] at hl
    cases hl.2.1
  | _ =>
    rw [hf] at hl
    cases hl.1

/-- The compare-exchange succeeds: the context is in front of the stack. -/
theorem inv_push {before : Option ℕ} (h : Inv s) (hn : s.awaitables n = .cas before)
    (hptr : s.awaiters = .list before) :
    Inv { s.setPc n .suspended with
      awaiters := .list (some (s.address n))
      pushed := s.pushed ++ [n] } := by
  have hlive : (s.awaitables n).alive = true := by rw [hn]; rfl
  obtain ⟨hpushed, hdeclined⟩ := h.not_mem (n := n) (by rw [hn]; rfl)
  obtain ⟨hresumed, hspells, hlinks⟩ := h.stack hptr
  have hready : s.awaiters ≠ .ready := by rw [hptr]; nofun
  refine ⟨(forall_update_iff _ _).2 ⟨?_, ?_⟩, ?_, hlinks _ _ _ ?_, h.fault⟩
  · have hnr : n ∉ s.resumed := by simp [hresumed]
    exact ⟨fun _ => (h.awaitable n).owner hlive, nofun, ⟨fun _ => ⟨by simp, hnr⟩, fun _ => rfl⟩,
      ⟨fun _ => rfl, fun _ => by simp⟩, fun hm => absurd hm hdeclined, nofun⟩
  · exact h.frame hlive (fun _ _ => rfl) rfl (fun m hmn => by simp [hmn]) (fun _ _ => Iff.rfl)
      (fun _ _ => Iff.rfl) (fun hr => absurd hr hready)
  · exact List.Nodup.append h.nodup (List.nodup_singleton n) (List.disjoint_singleton.2 hpushed)
  · unfold Spells
    rw [List.reverse_append, List.map_append]
    exact hspells.push (fun _ _ => rfl) ((h.awaitable n).cas before hn)

/-- The awaitable is destroyed, with its context. -/
theorem inv_destroy (h : Inv s) (hn : s.awaitables n = .returned) :
    Inv ((s.setPc n .destroyed).setContext (s.address n) none) := by
  have hlive : (s.awaitables n).alive = true := by rw [hn]; rfl
  have hok := h.awaitable n
  rw [hn] at hok
  refine h.writeContext hlive (by rw [hn]; nofun) ?_
  exact ⟨nofun, nofun, ⟨nofun, fun hm => by cases hok.suspended.2 hm⟩, hok.past, hok.declined,
    fun _ => hok.ready (.inl rfl)⟩

theorem inv_awaitableStep (h : Inv s) (hs : s.awaitableStep n = some t) : Inv t := by
  unfold awaitableStep at hs
  cases hn : s.awaitables n with
  | unborn | suspended | destroyed => simp [hn] at hs
  | load =>
    simp only [hn] at hs
    cases hptr : s.awaiters with
    | ready =>
      simp only [hptr] at hs
      cases hs
      exact inv_decline h hn hptr
    | list =>
      simp only [hptr] at hs
      cases hs
      exact inv_setPc h (by rw [hn]; rfl) (by rw [hn]; rfl) rfl nofun
  | setNext =>
    obtain ⟨next, hc⟩ := (h.awaitable n).owner (by rw [hn]; rfl)
    simp only [hn, hc] at hs
    cases hs
    exact inv_setNext h hn hc
  | cas =>
    simp only [hn] at hs
    split_ifs at hs with hptr <;> cases hs
    · exact inv_push h hn hptr
    · exact inv_setPc h (by rw [hn]; rfl) (by rw [hn]; rfl) rfl nofun
  | returned =>
    simp only [hn] at hs
    cases hs
    exact inv_destroy h hn

theorem inv_spurious (h : Inv s) (hs : s.spurious n = some t) : Inv t := by
  unfold spurious at hs
  split at hs
  case h_1 before hn =>
    cases hs
    exact inv_setPc h (by rw [hn]; rfl) (by rw [hn]; rfl) rfl nofun
  case h_2 => cases hs

end SharedAwaiters
end Concurrencpp
