import Concurrencpp.Placement
import Concurrencpp.Results.HandOff

/-!
# A functor is in one object until its coroutine is resumed

* `Callable.armed c`: the suspension whose functor the object carries.  A move leaves nothing behind
  (`move_eq`), the destructor and the call of an object settle the suspension that it carries.
* `OnceOk`: every suspension is carried by one object and pending, or by none and settled.
-/

namespace Concurrencpp

open Placement
open Function (update update_self update_of_ne forall_update_iff)

namespace Callable

variable {c c' : Callable} {w w' : Suspensions} {k : ℕ}

/-- The suspension whose functor is in the object. -/
def armed : Callable → Option ℕ
  | .functor f => f.interrupted
  | .emptyTask => none
  | .task _ c => c.armed
  | .closure c => c.armed

/-- What a move leaves behind. -/
def leftBehind : Callable → Callable
  | .functor _ => .functor .moved
  | .emptyTask => .emptyTask
  | .task _ _ => .emptyTask
  | .closure c => .closure c.leftBehind

/-- Every task in the object has been made from a usable callable. -/
def Valid : Callable → Prop
  | .task _ c => c.usable = true ∧ c.Valid
  | .closure c => c.Valid
  | _ => True

@[simp] theorem armed_leftBehind : c.leftBehind.armed = none := by
  induction c with
  | functor => rfl
  | emptyTask => rfl
  | task => rfl
  | closure _ ih => exact ih

theorem valid_leftBehind : c.leftBehind.Valid := by
  induction c with
  | functor | emptyTask | task => trivial
  | closure _ ih => exact ih

theorem destroy_of_not_armed (h : c.armed = none) : c.destroy w = w := by
  induction c with
  | functor => exact Suspensions.destroy_of_disarmed h
  | emptyTask => rfl
  | task _ _ ih => exact ih h
  | closure _ ih => exact ih h

/-- A move takes everything along: the destructor of what is left does nothing. -/
theorem move_eq : c.move w = (c, c.leftBehind, w) := by
  induction c with
  | functor => rfl
  | emptyTask => rfl
  | task st _ ih =>
    cases st with
    | inlined =>
      simp only [move, ih, leftBehind]
      rw [destroy_of_not_armed armed_leftBehind]
    | allocated => rfl
  | closure _ ih =>
    simp only [move, ih, leftBehind]

theorem destroy_of_armed (h : c.armed = some k) (hw : w.Pending k) :
    (c.destroy w).Settled k ∧ w.SameBut (c.destroy w) k := by
  induction c with
  | functor => exact Suspensions.destroy_of_armed h hw
  | emptyTask => cases h
  | task _ _ ih => exact ih h
  | closure _ ih => exact ih h

/-- What a call leaves of an object. -/
structure Called (c c' : Callable) (w w' : Suspensions) : Prop where
  armed : c'.armed = none
  valid : c'.Valid
  idle : c.armed = none → w' = w
  settled : ∀ k, c.armed = some k → w.Pending k → w'.Settled k ∧ w.SameBut w' k

theorem call_eq_some (hv : c.Valid) (hu : c.usable = true)
    (hw : ∀ k, c.armed = some k → w.Pending k) :
    ∃ c' w', c.call w = some (c', w') ∧ Called c c' w w' := by
  induction c with
  | functor f =>
    obtain ⟨k, hk⟩ := Option.isSome_iff_exists.1 hu
    obtain ⟨w', hcall, hsettled, hsame⟩ := Suspensions.call_of_armed hk (hw k hk)
    refine ⟨.functor f.disarm, w', by simp [call, hcall], rfl, trivial, ?_, ?_⟩
    · intro h
      cases hk.symm.trans h
    · intro j hj _
      cases hk.symm.trans hj
      exact ⟨hsettled, hsame⟩
  | emptyTask => exact ⟨.emptyTask, w, rfl, rfl, trivial, fun _ => rfl, by simp [armed]⟩
  | task _ _ ih =>
    obtain ⟨c', w', hcall, h⟩ := ih hv.2 hv.1 hw
    refine ⟨.emptyTask, w', ?_, rfl, trivial, h.idle, h.settled⟩
    simp [call, hcall, destroy_of_not_armed h.armed]
  | closure _ ih =>
    obtain ⟨c', w', hcall, h⟩ := ih hv hu hw
    exact ⟨.closure c', w', by simp [call, hcall], h.armed, h.valid, h.idle, h.settled⟩

end Callable

namespace HandOff

variable {s s' : HandOff} {o o' k : ℕ} {c : Callable}

/-- The suspension that the object carries. -/
def contents (objects : ℕ → Option Callable) (o : ℕ) : List ℕ :=
  ((objects o).bind Callable.armed).toList

structure OnceOk (objects : ℕ → Option Callable) (suspended : ℕ) (w : Suspensions) : Prop where
  placed : Placed (contents objects)
  pending : ∀ k, Held (contents objects) k → k < suspended ∧ w.Pending k
  settled : ∀ k, k < suspended → ¬ Held (contents objects) k → w.Settled k
  fresh : ∀ k, suspended ≤ k → w.Pending k
  valid : ∀ o c, objects o = some c → c.Valid

section OnceOk

variable {objects objects' : ℕ → Option Callable} {n : ℕ} {w w' : Suspensions} {x : Option Callable}

theorem contents_update : contents (update objects o x) o = (x.bind Callable.armed).toList := by
  simp [contents]

theorem contents_update_of_ne {r : ℕ} (hr : r ≠ o) :
    contents (update objects o x) r = contents objects r := by
  simp [contents, update_of_ne hr]

theorem mem_contents (ho : objects o = some c) : k ∈ contents objects o ↔ c.armed = some k := by
  simp [contents, ho]

theorem valid_update (h : ∀ o c, objects o = some c → c.Valid) (hx : ∀ c ∈ x, c.Valid) :
    ∀ r c, update objects o x r = some c → c.Valid :=
  (forall_update_iff objects fun _ x => ∀ c, x = some c → c.Valid).2 ⟨hx, fun r _ => h r⟩

/-- Functors are moved between objects. -/
theorem OnceOk.rearrange (h : OnceOk objects n w) {ps : List ℕ} (hps : ps.Nodup)
    (hperm : (ps.flatMap (contents objects')).Perm (ps.flatMap (contents objects)))
    (hother : ∀ r, r ∉ ps → contents objects' r = contents objects r)
    (hvalid : ∀ o c, objects' o = some c → c.Valid) : OnceOk objects' n w := by
  have hheld : ∀ k, Held (contents objects') k ↔ Held (contents objects) k :=
    fun k => held_congr hperm.mem_iff hother
  constructor
  case placed => exact h.placed.rearrange hps hperm.subperm hother
  case pending => exact fun k hk => h.pending k ((hheld k).1 hk)
  case settled => exact fun k hk hnot => h.settled k hk fun hk' => hnot ((hheld k).2 hk')
  case fresh => exact h.fresh
  case valid => exact hvalid

/-- An object loses its functor, and the suspension is settled. -/
theorem OnceOk.settle (h : OnceOk objects n w) (ho : objects o = some c)
    (hx : x.bind Callable.armed = none) (hxv : ∀ c ∈ x, c.Valid) (hidle : c.armed = none → w' = w)
    (hset : ∀ k, c.armed = some k → w.Pending k → w'.Settled k ∧ w.SameBut w' k) :
    OnceOk (update objects o x) n w' := by
  have hother : ∀ r, r ∉ [o] → contents (update objects o x) r = contents objects r :=
    fun r hr => contents_update_of_ne (by simpa using hr)
  have hnil : contents (update objects o x) o = [] := by rw [contents_update, hx]; rfl
  cases harmed : c.armed with
  | none =>
    rw [hidle harmed]
    refine h.rearrange (List.nodup_singleton o) ?_ hother (valid_update h.valid hxv)
    simp only [List.flatMap_cons, List.flatMap_nil, hnil]
    simp [contents, ho, harmed]
  | some k =>
    have hk : k ∈ contents objects o := (mem_contents ho).2 harmed
    obtain ⟨hlt, hpend⟩ := h.pending k ⟨o, hk⟩
    obtain ⟨hsettled, hsame⟩ := hset k harmed hpend
    -- the other suspensions are where they were
    have hheld : ∀ j, Held (contents (update objects o x)) j ↔
        Held (contents objects) j ∧ j ≠ k := by
      intro j
      constructor
      · rintro ⟨r, hr⟩
        have hro : r ≠ o := by
          rintro rfl
          rw [hnil] at hr
          cases hr
        rw [contents_update_of_ne hro] at hr
        refine ⟨⟨r, hr⟩, ?_⟩
        rintro rfl
        exact hro (h.placed.unique hr hk)
      · rintro ⟨⟨r, hr⟩, hjk⟩
        have hro : r ≠ o := by
          rintro rfl
          cases harmed.symm.trans ((mem_contents ho).1 hr)
          exact hjk rfl
        exact ⟨r, by rw [contents_update_of_ne hro]; exact hr⟩
    constructor
    case placed =>
      refine h.placed.rearrange (List.nodup_singleton o) ?_ hother
      simp only [List.flatMap_cons, hnil]
      exact List.nil_subperm
    case pending =>
      intro j hj
      obtain ⟨hj, hjk⟩ := (hheld j).1 hj
      exact ⟨(h.pending j hj).1, (h.pending j hj).2.congr hsame hjk⟩
    case settled =>
      intro j hj hnot
      by_cases hjk : j = k
      · rw [hjk]
        exact hsettled
      · exact (h.settled j hj fun hheld' => hnot ((hheld j).2 ⟨hheld', hjk⟩)).congr hsame hjk
    case fresh => exact fun j hj => (h.fresh j hj).congr hsame (by omega)
    case valid => exact valid_update h.valid hxv

/-- A coroutine suspends. -/
theorem OnceOk.suspend (h : OnceOk objects n w) (ho : objects o = none) :
    OnceOk (update objects o (some (.functor (.make n)))) (n + 1) w := by
  have hnew : ¬ Held (contents objects) n := fun hn => lt_irrefl _ (h.pending n hn).1
  have hself : contents (update objects o (some (.functor (.make n)))) o = [n] :=
    contents_update
  have hheld : ∀ k, Held (contents (update objects o (some (.functor (.make n))))) k ↔
      Held (contents objects) k ∨ k = n := by
    intro k
    constructor
    · rintro ⟨r, hr⟩
      by_cases hro : r = o
      · rw [hro, hself] at hr
        exact .inr (List.mem_singleton.1 hr)
      · rw [contents_update_of_ne hro] at hr
        exact .inl ⟨r, hr⟩
    · rintro (⟨r, hr⟩ | rfl)
      · have hro : r ≠ o := by
          rintro rfl
          simp [contents, ho] at hr
        exact ⟨r, by rw [contents_update_of_ne hro]; exact hr⟩
      · exact ⟨o, by rw [hself]; exact List.mem_singleton_self _⟩
  constructor
  case placed =>
    refine h.placed.insert hnew (p := o) ?_ fun r hr => contents_update_of_ne hr
    rw [hself]
    simp [contents, ho]
  case pending =>
    intro k hk
    rcases (hheld k).1 hk with hk | rfl
    · exact ⟨Nat.lt_succ_of_lt (h.pending k hk).1, (h.pending k hk).2⟩
    · exact ⟨Nat.lt_succ_self k, h.fresh k le_rfl⟩
  case settled =>
    intro k hk hnot
    have hne : k ≠ n := fun hkn => hnot ((hheld k).2 (.inr hkn))
    exact h.settled k (by omega) fun hk' => hnot ((hheld k).2 (.inl hk'))
  case fresh => exact fun k hk => h.fresh k (by omega)
  case valid =>
    refine valid_update h.valid fun c hc => ?_
    cases hc
    trivial

end OnceOk

/-! ### Steps -/

/-- Every suspension is carried by one object and pending, or by none and settled; no assertion has
failed. -/
structure HandOffOk (s : HandOff) : Prop where
  once : OnceOk s.objects s.suspended s.coroutines
  assertFailed : s.assertFailed = false

/-- A new object takes over what another one carries. -/
theorem OnceOk.build {objects : ℕ → Option Callable} {n : ℕ} {w : Suspensions} {c' : Callable}
    (h : OnceOk objects n w) (hne : o ≠ o') (ho : objects o = some c)
    (ho' : (objects o').bind Callable.armed = none) (harmed : c'.armed = c.armed) (hv : c'.Valid) :
    OnceOk (update (update objects o (some c.leftBehind)) o' (some c')) n w := by
  have hps : [o, o'].Nodup := by simp [hne]
  refine h.rearrange hps ?_ (fun r hr => ?_) ?_
  · simp [contents, update_of_ne hne, ho, ho', harmed]
  · rw [contents_update_of_ne fun heq => hr (by simp [heq]),
      contents_update_of_ne fun heq => hr (by simp [heq])]
  · refine valid_update (valid_update h.valid ?_) ?_
    · rintro c₁ ⟨⟩
      exact Callable.valid_leftBehind
    · rintro c₁ ⟨⟩
      exact hv

theorem build_ok {f : Callable → Callable} (h : s.HandOffOk) (hf : ∀ c, (f c).armed = c.armed)
    (hv : ∀ c, s.objects o = some c → c.Valid → (f c).Valid) (hs : s.build o o' f = some s') :
    s'.HandOffOk := by
  unfold build at hs
  split at hs
  next c ho ho' =>
    simp only [Callable.move_eq] at hs
    cases hs
    have hne : o ≠ o' := by
      rintro rfl
      cases ho.symm.trans ho'
    refine ⟨?_, h.assertFailed⟩
    exact h.once.build hne ho (by rw [ho']; rfl) (hf c) (hv c ho (h.once.valid o c ho))
  · cases hs

theorem clear_ok (h : s.HandOffOk) (hs : s.clear o = some s') :
    s'.HandOffOk ∧ s'.objects o = some .emptyTask := by
  unfold clear at hs
  split at hs
  next c ho =>
    split_ifs at hs
    cases hs
    refine ⟨⟨?_, h.assertFailed⟩, update_self ..⟩
    refine h.once.settle ho rfl ?_ (fun hc => Callable.destroy_of_not_armed hc)
      fun k hk hw => Callable.destroy_of_armed hk hw
    rintro c₁ ⟨⟩
    trivial
  · cases hs

theorem rebuild_ok (h : s.HandOffOk) (hne : o ≠ o') (ho : s.objects o = some .emptyTask)
    (hs : s.rebuild o o' = some s') : s'.HandOffOk := by
  unfold rebuild at hs
  split at hs
  next c ho' =>
    split_ifs at hs
    simp only [Callable.move_eq] at hs
    cases hs
    exact ⟨h.once.build hne.symm ho' (by rw [ho]; rfl) rfl (h.once.valid o' c ho'), h.assertFailed⟩
  · cases hs

theorem destroy_ok (h : s.HandOffOk) (hs : s.destroy o = some s') : s'.HandOffOk := by
  unfold destroy at hs
  split at hs
  next c ho =>
    cases hs
    refine ⟨?_, h.assertFailed⟩
    exact h.once.settle ho rfl (by simp) (fun hc => Callable.destroy_of_not_armed hc)
      fun k hk hw => Callable.destroy_of_armed hk hw
  · cases hs

theorem invoke_ok {kind : Callable → Bool} (h : s.HandOffOk)
    (hu : ∀ c, s.objects o = some c → kind c = true → c.usable = true)
    (hs : s.invoke o kind = some s') : s'.HandOffOk := by
  unfold invoke at hs
  split at hs
  next c ho =>
    split_ifs at hs with hkind
    have hpend : ∀ k, c.armed = some k → s.coroutines.Pending k :=
      fun k hk => (h.once.pending k ⟨o, (mem_contents ho).2 hk⟩).2
    obtain ⟨c', w', hcall, hc⟩ := Callable.call_eq_some (h.once.valid o c ho) (hu c ho hkind) hpend
    simp only [hcall] at hs
    cases hs
    refine ⟨h.once.settle ho hc.armed ?_ hc.idle hc.settled, h.assertFailed⟩
    rintro c₁ ⟨⟩
    exact hc.valid
  · cases hs

theorem usable_of_isTask (h : c.isTask = true) : c.usable = true := by
  cases c with
  | emptyTask => rfl
  | task => rfl
  | functor => cases h
  | closure => cases h

theorem step_ok {m : HandOffMove} (h : s.HandOffOk) (hs : s.step m = some s') : s'.HandOffOk := by
  cases m with
  | suspend =>
    simp only [step] at hs
    split at hs
    next ho =>
      cases hs
      exact ⟨h.once.suspend ho, h.assertFailed⟩
    · cases hs
  | construct _ _ st =>
    simp only [step] at hs
    split_ifs at hs with hu
    refine build_ok (f := .task st) h (fun c => rfl) (fun c ho hv => ⟨?_, hv⟩) hs
    rw [ho] at hu
    exact hu
  | capture =>
    simp only [step] at hs
    split_ifs at hs
    exact build_ok (f := .closure) h (fun c => rfl) (fun c ho hv => hv) hs
  | move => exact build_ok (f := id) h (fun c => rfl) (fun c ho hv => hv) hs
  | assign =>
    simp only [step] at hs
    split_ifs at hs with hne
    · cases hs
      exact h
    · obtain ⟨u, hu, hs⟩ := Option.bind_eq_some_iff.1 hs
      obtain ⟨h', ho⟩ := clear_ok h hu
      exact rebuild_ok h' hne ho hs
  | invoke => exact invoke_ok h (fun c _ hc => usable_of_isTask hc) hs
  | clear => exact (clear_ok h hs).1
  | runThread =>
    simp only [step] at hs
    split_ifs at hs with hu
    obtain ⟨u, hinv, hs⟩ := Option.bind_eq_some_iff.1 hs
    refine destroy_ok (invoke_ok h (fun c ho _ => ?_) hinv) hs
    rw [ho] at hu
    exact hu
  | destroy => exact destroy_ok h hs

theorem handOffOk_of_reachable (h : Reachable s) : s.HandOffOk := by
  refine Interleaving.Reach.invariant (fun s hs => ?_) (fun s m s' h _ hs => step_ok h hs) h
  cases hs
  refine ⟨⟨.of_eq_nil fun _ => rfl, ?_, ?_, fun _ _ => ⟨rfl, rfl, rfl, rfl⟩, ?_⟩, rfl⟩
  · rintro k ⟨o, ho⟩
    cases ho
  · intro k hk
    exact absurd hk (Nat.not_lt_zero k)
  · intro o c ho
    cases ho

/-- The object carries the functor of the suspension. -/
def Carries (s : HandOff) (o k : ℕ) : Prop := ∃ c, s.objects o = some c ∧ c.armed = some k

/-- The suspension is carried by exactly one object and nothing has happened to it, or it is carried
by none and its coroutine has been resumed exactly once. -/
def HandedOff (s : HandOff) (k : ℕ) : Prop :=
  (s.coroutines.Pending k ∧ ∃! o, s.Carries o k) ∨
  (ResumedOnce s.coroutines k ∧ ∀ o, ¬ s.Carries o k)

theorem carries_iff : s.Carries o k ↔ k ∈ contents s.objects o := by
  unfold Carries contents
  simp [Option.bind_eq_some_iff]

theorem HandOffOk.handedOff (h : s.HandOffOk) (hk : k < s.suspended) : s.HandedOff k := by
  by_cases hheld : Held (contents s.objects) k
  · obtain ⟨o, ho⟩ := hheld
    refine .inl ⟨(h.once.pending k ⟨o, ho⟩).2, o, carries_iff.2 ho, fun o' ho' => ?_⟩
    exact h.once.placed.unique (carries_iff.1 ho') ho
  · refine .inr ⟨(h.once.settled k hk hheld).resumedOnce, fun o ho => ?_⟩
    exact hheld ⟨o, carries_iff.1 ho⟩

end HandOff
end Concurrencpp
