import Mathlib.Tactic

/-!
# Items in places

`c p` lists the items that lie in the place `p`.  Nothing is assumed about the places; there may be
infinitely many.

* `Placed c`: every item lies in at most one place, and there only once.
* `Held c i`: the item lies in some place.
* `Placed.rearrange`: items that are moved between finitely many places, or taken out of them, stay
  in at most one place; `held_congr` says when none is lost, and `Placed.moved` is both.
* `Placed.clear`, `Placed.transfer`: one place is emptied, or its items go to another.
* `Placed.append`, `Placed.insert`, `Placed.collect`: new items are put somewhere.
* `Sole b c o`: of all items, the only one with the property `b` lies in the place `o`, if there is
  one.
* `Paired f g owner`: what the places say of the items that they use is what the items say of their
  owners.
-/

namespace Placement

open Function (update update_eq_self_iff update_self update_of_ne forall_update_iff)

variable {P ι : Type*}

structure Placed (c : P → List ι) : Prop where
  nodup : ∀ p, (c p).Nodup
  unique : ∀ {p q : P} {i : ι}, i ∈ c p → i ∈ c q → p = q

def Held (c : P → List ι) (i : ι) : Prop := ∃ p, i ∈ c p

variable {c c' : P → List ι} {ps : List P} {p q : P} {i : ι}

theorem Placed.of_eq_nil (h : ∀ p, c p = []) : Placed c := by
  refine ⟨fun p => h p ▸ List.nodup_nil, fun {p q i} hi => ?_⟩
  rw [h p] at hi
  cases hi

theorem not_held_of_eq_nil (h : ∀ p, c p = []) : ¬ Held c i := by
  rintro ⟨p, hp⟩
  rw [h p] at hp
  cases hp

theorem held_of_eq_singleton (hp : c p = [i]) : Held c i := ⟨p, by simp [hp]⟩

theorem Placed.nodup_flatMap (h : Placed c) (hps : ps.Nodup) : (ps.flatMap c).Nodup := by
  refine List.nodup_flatMap.2 ⟨fun p _ => h.nodup p, ?_⟩
  refine hps.imp_of_mem fun {p q} _ _ hpq => ?_
  intro i hp hq
  exact hpq (h.unique hp hq)

/-- Items that are moved between the places `ps`, or taken out of them. -/
theorem Placed.rearrange (h : Placed c) (hps : ps.Nodup)
    (hsub : (ps.flatMap c').Subperm (ps.flatMap c)) (hother : ∀ r, r ∉ ps → c' r = c r) :
    Placed c' := by
  have hnd : (ps.flatMap c').Nodup := by
    obtain ⟨l, hl, hsub⟩ := hsub
    exact hl.nodup_iff.1 (hsub.nodup (h.nodup_flatMap hps))
  obtain ⟨hnodup, hdisj⟩ := List.nodup_flatMap.1 hnd
  -- an item of a place in `ps` was in a place in `ps` before
  have hback : ∀ {p i}, p ∈ ps → i ∈ c' p → ∃ p' ∈ ps, i ∈ c p' := by
    intro p i hp hi
    exact List.mem_flatMap.1 (hsub.subset (List.mem_flatMap.2 ⟨p, hp, hi⟩))
  constructor
  case nodup =>
    intro p
    by_cases hp : p ∈ ps
    · exact hnodup p hp
    · rw [hother p hp]
      exact h.nodup p
  case unique =>
    intro p q i hi hj
    by_cases hp : p ∈ ps <;> by_cases hq : q ∈ ps
    · by_contra hpq
      have : Std.Symm (Function.onFun List.Disjoint c') := ⟨fun _ _ hab => hab.symm⟩
      exact hdisj.forall hp hq hpq hi hj
    · obtain ⟨p', hp', hi'⟩ := hback hp hi
      rw [hother q hq] at hj
      exact absurd (h.unique hi' hj ▸ hp') hq
    · obtain ⟨q', hq', hj'⟩ := hback hq hj
      rw [hother p hp] at hi
      exact absurd (h.unique hj' hi ▸ hq') hp
    · rw [hother p hp] at hi
      rw [hother q hq] at hj
      exact h.unique hi hj

/-- No item is new when the places `ps` hold none but those they held. -/
theorem Held.of_mem (hmem : i ∈ ps.flatMap c' → i ∈ ps.flatMap c)
    (hother : ∀ r, r ∉ ps → c' r = c r) : Held c' i → Held c i := by
  rintro ⟨p, hp⟩
  by_cases hps : p ∈ ps
  · obtain ⟨q, -, hq⟩ := List.mem_flatMap.1 (hmem (List.mem_flatMap.2 ⟨p, hps, hp⟩))
    exact ⟨q, hq⟩
  · rw [hother p hps] at hp
    exact ⟨p, hp⟩

/-- Nothing is lost when the places `ps` hold the same items as before. -/
theorem held_congr (hmem : i ∈ ps.flatMap c' ↔ i ∈ ps.flatMap c)
    (hother : ∀ r, r ∉ ps → c' r = c r) : Held c' i ↔ Held c i :=
  ⟨.of_mem hmem.1 hother, .of_mem hmem.2 fun r hr => (hother r hr).symm⟩

/-- Items that are moved between the places `ps` stay in one place, and none is lost. -/
theorem Placed.moved (h : Placed c) (ps : List P) (hps : ps.Nodup)
    (hperm : (ps.flatMap c').Perm (ps.flatMap c)) (hother : ∀ r, r ∉ ps → c' r = c r) :
    Placed c' ∧ ∀ i, Held c' i ↔ Held c i :=
  ⟨h.rearrange hps hperm.subperm hother, fun _ => held_congr hperm.mem_iff hother⟩

/-- New items are put into the place `p`. -/
theorem Placed.append {new : List ι} (h : Placed c) (hnew : ∀ i ∈ new, ¬ Held c i) (hnd : new.Nodup)
    (hp : (c' p).Perm (new ++ c p)) (hother : ∀ r, r ≠ p → c' r = c r) : Placed c' := by
  have hmem : ∀ {r j}, j ∈ c' r → j ∈ c r ∨ (r = p ∧ j ∈ new) := by
    intro r j hj
    by_cases hr : r = p
    · subst hr
      rcases List.mem_append.1 (hp.mem_iff.1 hj) with hj | hj
      · exact .inr ⟨rfl, hj⟩
      · exact .inl hj
    · rw [hother r hr] at hj
      exact .inl hj
  constructor
  case nodup =>
    intro r
    by_cases hr : r = p
    · subst hr
      exact hp.nodup_iff.2 (hnd.append (h.nodup r) fun i hi hc => hnew i hi ⟨r, hc⟩)
    · rw [hother r hr]
      exact h.nodup r
  case unique =>
    intro r r' j hj hj'
    rcases hmem hj with hj | ⟨hr, hji⟩ <;> rcases hmem hj' with hj' | ⟨hr', hji'⟩
    · exact h.unique hj hj'
    · exact absurd ⟨r, hj⟩ (hnew j hji')
    · exact absurd ⟨r', hj'⟩ (hnew j hji)
    · rw [hr, hr']

theorem held_append {new : List ι} (hp : (c' p).Perm (new ++ c p))
    (hother : ∀ r, r ≠ p → c' r = c r) : Held c' i ↔ Held c i ∨ i ∈ new := by
  constructor
  · rintro ⟨r, hr⟩
    by_cases hrp : r = p
    · subst hrp
      rcases List.mem_append.1 (hp.mem_iff.1 hr) with hi | hi
      · exact .inr hi
      · exact .inl ⟨r, hi⟩
    · rw [hother r hrp] at hr
      exact .inl ⟨r, hr⟩
  · rintro (⟨r, hr⟩ | hi)
    · by_cases hrp : r = p
      · subst hrp
        exact ⟨r, hp.mem_iff.2 (List.mem_append_right _ hr)⟩
      · exact ⟨r, (hother r hrp).symm ▸ hr⟩
    · exact ⟨p, hp.mem_iff.2 (List.mem_append_left _ hi)⟩

section update

variable [DecidableEq P]

theorem update_of_eq_nil (hp : c p = []) : update c p [] = c :=
  update_eq_self_iff.2 hp.symm

/-- A place is emptied. -/
theorem Placed.clear (h : Placed c) (p : P) :
    Placed (update c p []) ∧ ∀ i, Held (update c p []) i ↔ Held c i ∧ i ∉ c p := by
  have hmem : ∀ {q i}, i ∈ update c p [] q → q ≠ p ∧ i ∈ c q := by
    intro q i hi
    by_cases hq : q = p
    · subst hq
      rw [update_self] at hi
      cases hi
    · rw [update_of_ne hq] at hi
      exact ⟨hq, hi⟩
  refine ⟨⟨fun q => ?_, fun hi hj => h.unique (hmem hi).2 (hmem hj).2⟩, fun i => ⟨?_, ?_⟩⟩
  · exact (forall_update_iff c fun _ l => l.Nodup).2 ⟨List.nodup_nil, fun q _ => h.nodup q⟩ q
  · rintro ⟨q, hi⟩
    obtain ⟨hq, hi⟩ := hmem hi
    exact ⟨⟨q, hi⟩, fun hip => hq (h.unique hi hip)⟩
  · rintro ⟨⟨q, hi⟩, hip⟩
    have hq : q ≠ p := fun hqp => hip (hqp ▸ hi)
    exact ⟨q, by rwa [update_of_ne hq]⟩

/-- What lies in `q` is moved to the empty place `p`. -/
theorem Placed.transfer (h : Placed c) (hpq : p ≠ q) (hp : c p = []) :
    Placed (update (update c p (c q)) q []) ∧
      ∀ i, Held (update (update c p (c q)) q []) i ↔ Held c i := by
  have hother : ∀ r, r ∉ [p, q] → update (update c p (c q)) q [] r = c r := by
    intro r hr
    simp only [List.mem_cons, List.not_mem_nil, or_false, not_or] at hr
    rw [update_of_ne hr.2, update_of_ne hr.1]
  have hflat : [p, q].flatMap (update (update c p (c q)) q []) = [p, q].flatMap c := by
    simp [update_of_ne hpq, hp]
  refine ⟨h.rearrange (by simp [hpq]) (List.Perm.of_eq hflat).subperm hother, fun i => ?_⟩
  exact held_congr (by rw [hflat]) hother

end update

/-- A new item is put into the place `p`. -/
theorem Placed.insert (h : Placed c) (hnew : ¬ Held c i) (hp : (c' p).Perm (i :: c p))
    (hother : ∀ r, r ≠ p → c' r = c r) : Placed c' := by
  refine h.append ?_ (List.nodup_singleton i) hp hother
  intro j hj
  rw [List.mem_singleton.1 hj]
  exact hnew

/-- The items `l` are put into the empty place `p`; some of them are new, the others are taken out
of `q`. -/
theorem Placed.collect {l : List ι} (h : Placed c) (hnd : l.Nodup)
    (hl : ∀ i ∈ l, ¬ Held c i ∨ i ∈ c q) (hp : c p = []) (hp' : c' p = l)
    (hq : (c' q).Sublist (c q)) (hmem : ∀ i, i ∈ c' q ↔ i ∈ c q ∧ i ∉ l) (hpq : p ≠ q)
    (hother : ∀ r, r ≠ p → r ≠ q → c' r = c r) : Placed c' ∧ ∀ i, Held c' i ↔ Held c i ∨ i ∈ l := by
  -- outside of `p` an item lies where it lay, and is none of `l`
  have hback : ∀ {r i}, r ≠ p → i ∈ c' r → i ∈ c r ∧ i ∉ l := by
    intro r i hr hi
    by_cases hrq : r = q
    · rw [hrq] at hi ⊢
      exact (hmem i).1 hi
    · rw [hother r hr hrq] at hi
      refine ⟨hi, fun hil => ?_⟩
      rcases hl i hil with hnew | hiq
      · exact hnew ⟨r, hi⟩
      · exact hrq (h.unique hi hiq)
  refine ⟨⟨fun r => ?_, fun {r r' i} hi hj => ?_⟩, fun i => ⟨?_, ?_⟩⟩
  · by_cases hr : r = p
    · rw [hr, hp']
      exact hnd
    · by_cases hrq : r = q
      · rw [hrq]
        exact (h.nodup q).sublist hq
      · rw [hother r hr hrq]
        exact h.nodup r
  · by_cases hr : r = p <;> by_cases hr' : r' = p
    · rw [hr, hr']
    · rw [hr, hp'] at hi
      exact absurd hi (hback hr' hj).2
    · rw [hr', hp'] at hj
      exact absurd hj (hback hr hi).2
    · exact h.unique (hback hr hi).1 (hback hr' hj).1
  · rintro ⟨r, hi⟩
    by_cases hr : r = p
    · rw [hr, hp'] at hi
      exact .inr hi
    · exact .inl ⟨r, (hback hr hi).1⟩
  · intro hi
    by_cases hil : i ∈ l
    · exact ⟨p, hp' ▸ hil⟩
    · obtain ⟨r, hir⟩ := hi.resolve_right hil
      have hr : r ≠ p := by
        rintro rfl
        rw [hp] at hir
        cases hir
      by_cases hrq : r = q
      · exact ⟨q, (hmem i).2 ⟨hrq ▸ hir, hil⟩⟩
      · exact ⟨r, (hother r hr hrq).symm ▸ hir⟩

/-! ### The only item with a property -/

def Sole [DecidableEq P] (b : ι → Bool) (c : P → List ι) (o : Option P) : Prop :=
  ∀ p, (c p).countP b = if o = some p then 1 else 0

section Sole

variable [DecidableEq P] {b b' : ι → Bool} {o : Option P} {l rest : List ι}

theorem Sole.eq_some (h : Sole b c o) (hi : i ∈ c p) (hb : b i = true) : o = some p := by
  have hpos : 0 < (c p).countP b := List.countP_pos_iff.2 ⟨i, hi, hb⟩
  rw [h p] at hpos
  by_contra hne
  rw [if_neg hne] at hpos
  exact lt_irrefl _ hpos

theorem Sole.none_not_mem (h : Sole b c none) (hb : b i = true) : i ∉ c p := by
  intro hi
  cases h.eq_some hi hb

theorem Sole.eq {j : ι} (h : Sole b c o) (hi : i ∈ c p) (hj : j ∈ c q) (hbi : b i = true)
    (hbj : b j = true) : p = q ∧ i = j := by
  have ho := h.eq_some hi hbi
  obtain rfl : p = q := Option.some.inj (ho.symm.trans (h.eq_some hj hbj))
  refine ⟨rfl, ?_⟩
  have hcount := h p
  rw [if_pos ho, List.countP_eq_length_filter] at hcount
  obtain ⟨k, hk⟩ := List.length_eq_one_iff.1 hcount
  have hall : ∀ {l}, l ∈ c p → b l = true → l = k := fun hl hbl =>
    List.mem_singleton.1 (hk ▸ List.mem_filter.2 ⟨hl, hbl⟩)
  exact (hall hi hbi).trans (hall hj hbj).symm

/-- Behind the only item there is no other. -/
theorem Sole.countP_rest (h : Sole b c o) (hp : c p = i :: rest) (hb : b i = true) :
    rest.countP b = 0 := by
  have ho := h.eq_some (hp ▸ List.mem_cons_self) hb
  have hcount := h p
  rw [if_pos ho, hp, List.countP_cons_of_pos hb] at hcount
  exact Nat.succ_injective hcount

/-- A place changes in other items. -/
theorem Sole.update_same (h : Sole b c o) (hl : l.countP b = (c p).countP b) :
    Sole b (update c p l) o :=
  (forall_update_iff c fun q l => l.countP b = if o = some q then 1 else 0).2
    ⟨hl.trans (h p), fun q _ => h q⟩

/-- There was none, and now there is one. -/
theorem Sole.gain (h : Sole b c none) (hl : l.countP b = 1) : Sole b (update c p l) (some p) := by
  intro q
  by_cases hq : q = p
  · rw [hq, update_self, hl, if_pos rfl]
  · rw [update_of_ne hq, h q, if_neg (by simp), if_neg fun heq => hq (Option.some.inj heq).symm]

/-- There was one, and now there is none. -/
theorem Sole.lose (h : Sole b c o) (hi : i ∈ c p) (hb : b i = true) (hl : l.countP b = 0) :
    Sole b (update c p l) none := by
  have ho := h.eq_some hi hb
  intro q
  by_cases hq : q = p
  · rw [hq, update_self, hl, if_neg (by simp)]
  · rw [update_of_ne hq, h q, ho, if_neg fun heq => hq (Option.some.inj heq).symm,
      if_neg (by simp)]

theorem Sole.none_of_imp (h : Sole b c none) (himp : ∀ i, b' i = true → b i = true) :
    Sole b' c none := by
  intro p
  have hzero := h p
  rw [if_neg (by simp), List.countP_eq_zero] at hzero
  rw [if_neg (by simp), List.countP_eq_zero]
  exact fun i hi hb => hzero i hi (himp i hb)

end Sole

/-! ### Users and owners -/

section Paired

variable {κ γ : Type*} {f : γ → Option κ} {g : P → γ} {owner : κ → Option P} {x : γ} {w : κ}
  [DecidableEq P]

/-- What `p` uses, in the state `g p`, has the owner `p`, and nothing else has. -/
def Paired (f : γ → Option κ) (g : P → γ) (owner : κ → Option P) : Prop :=
  ∀ p w, f (g p) = some w ↔ owner w = some p

theorem Paired.goto (h : Paired f g owner) (hx : f x = f (g p)) : Paired f (update g p x) owner :=
  (forall_update_iff g fun q x => ∀ w, f x = some w ↔ owner w = some q).2
    ⟨fun w => hx ▸ h p w, fun q _ => h q⟩

variable [DecidableEq κ]

theorem Paired.start (h : Paired f g owner) (hp : f (g p) = none) (hw : owner w = none)
    (hx : f x = some w) : Paired f (update g p x) (update owner w (some p)) := by
  intro q v
  by_cases hq : q = p <;> by_cases hv : v = w
  · rw [hq, hv, update_self, update_self]
    exact iff_of_true hx rfl
  · rw [hq, update_self, update_of_ne hv, ← h p v, hp, hx]
    exact iff_of_false (fun heq => hv (Option.some.inj heq).symm) fun heq => by cases heq
  · rw [hv, update_of_ne hq, update_self, h q w, hw]
    exact iff_of_false (fun heq => by cases heq) fun heq => hq (Option.some.inj heq).symm
  · rw [update_of_ne hq, update_of_ne hv]
    exact h q v

theorem Paired.finish (h : Paired f g owner) (hp : f (g p) = some w) (hx : f x = none) :
    Paired f (update g p x) (update owner w none) := by
  intro q v
  by_cases hq : q = p <;> by_cases hv : v = w
  · rw [hq, hv, update_self, update_self, hx]
    exact iff_of_false (fun heq => by cases heq) fun heq => by cases heq
  · rw [hq, update_self, update_of_ne hv, ← h p v, hp, hx]
    exact iff_of_false (fun heq => by cases heq) fun heq => hv (Option.some.inj heq).symm
  · rw [hv, update_of_ne hq, update_self, h q w, (h p w).1 hp]
    exact iff_of_false (fun heq => hq (Option.some.inj heq).symm) fun heq => by cases heq
  · rw [update_of_ne hq, update_of_ne hv]
    exact h q v

end Paired

end Placement
