import Mathlib.Algebra.BigOperators.Fin

/-!
# Resources held at places

An assignment `f : R → Option α` says which resource, if any, a place holds.  `held f` is the
multiset of the resources that are held: it has no duplicates exactly when no resource is held at
two places.
-/

universe u v

variable {R : Type u} {α : Type v} [Fintype R]

/-- The resources held at the places of an assignment. -/
@[irreducible]
def held (f : R → Option α) : Multiset α :=
  ∑ r, (f r).elim 0 ({·})

section

variable {f : R → Option α} {r : R} {a : α}

theorem mem_held :
  a ∈ held f ↔ ∃ r, f r = some a
  := by
  rw [held, Multiset.mem_sum]
  constructor
  · rintro ⟨r, -, hr⟩
    cases hf : f r with
    | none => simp [hf] at hr
    | some b =>
      rw [hf, Option.elim_some, Multiset.mem_singleton] at hr
      exact ⟨r, hr ▸ hf⟩
  · rintro ⟨r, hr⟩
    use r, Finset.mem_univ r
    rw [hr]
    apply Multiset.mem_singleton_self

theorem held_eq_zero (h : ∀ r, f r = none) :
  held f = 0
  := by
  apply Multiset.eq_zero_of_forall_notMem
  intro a ha
  obtain ⟨r, hr⟩ := mem_held.mp ha
  rw [h r] at hr
  cases hr

/-- The number of resources that are held. -/
theorem card_held (f : R → Option α) :
  Multiset.card (held f) = (Finset.univ.filter fun r => (f r).isSome).card
  := by
  rw [held, Multiset.card_sum, Finset.card_filter]
  apply Finset.sum_congr rfl
  intro r _
  cases f r with
  | none | some a => rfl

/-- The resources held at numbered places, in order. -/
theorem held_fin {n : Nat} (f : Fin n → Option α) :
  held f = ↑((List.finRange n).filterMap f)
  := by
  rw [held, Fin.univ_def]
  change ((List.finRange n).map fun r => (f r).elim 0 ({·})).sum = _
  induction List.finRange n with
  | nil => rfl
  | cons r l ih =>
    rw [List.map_cons, List.sum_cons, ih]
    cases h : f r with
    | none | some a => simp [h]

variable [DecidableEq R]

/-- The resource at one place, and those at the others. -/
theorem held_eq_add (f : R → Option α) (r : R) :
  held f = (f r).elim 0 ({·}) + held (Function.update f r none)
  := by
  rw [held, held, ← Finset.add_sum_erase _ _ (Finset.mem_univ r),
    ← Finset.add_sum_erase _ (fun i => (Function.update f r none i).elim 0 ({·}))
      (Finset.mem_univ r)]
  congr 1
  rw [Function.update_self, Option.elim_none, zero_add]
  apply Finset.sum_congr rfl
  intro i hi
  rw [Function.update_of_ne (Finset.ne_of_mem_erase hi)]

/-- A resource given to an empty place. -/
theorem held_update_some (h : f r = none) :
  held (Function.update f r (some a)) = a ::ₘ held f
  := by
  have hf := held_eq_add f r
  rw [h, Option.elim_none, zero_add] at hf
  rw [held_eq_add _ r, Function.update_self, Option.elim_some, Function.update_idem, ← hf,
    Multiset.singleton_add]

/-- A resource taken from its place. -/
theorem held_eq_cons (h : f r = some a) :
  held f = a ::ₘ held (Function.update f r none)
  := by
  rw [held_eq_add f r, h, Option.elim_some, Multiset.singleton_add]

/-- Without duplicates, a resource is held at one place only. -/
theorem eq_of_nodup_held
    (h : (held f).Nodup) {r r' : R} (hr : f r = some a) (hr' : f r' = some a) :
  r = r'
  := by
  by_contra hne
  rw [held_eq_cons hr] at h
  apply (Multiset.nodup_cons.mp h).1
  apply mem_held.mpr
  use r'
  rw [Function.update_of_ne (Ne.symm hne), hr']

end

/-! ### Counting places -/

section

variable {p q : R → Prop} [DecidablePred p] [DecidablePred q]

theorem card_filter_le (h : ∀ r, p r → q r) :
  (Finset.univ.filter p).card ≤ (Finset.univ.filter q).card
  := Finset.card_le_card (Finset.monotone_filter_right _ fun r _ => h r)

theorem card_filter_lt (h : ∀ r, p r → q r) {r : R} (hp : ¬ p r) (hq : q r) :
  (Finset.univ.filter p).card < (Finset.univ.filter q).card
  := by
  apply Finset.card_lt_card
  rw [Finset.ssubset_iff_of_subset]
  · use r
    simp only [Finset.mem_filter, Finset.mem_univ, true_and]
    exact ⟨hq, hp⟩
  · exact Finset.monotone_filter_right _ fun r _ => h r

theorem card_filter_or :
  (Finset.univ.filter fun r => p r ∨ q r).card =
    (Finset.univ.filter p).card + (Finset.univ.filter fun r => ¬ p r ∧ q r).card
  := by
  classical
  rw [← Finset.card_union_of_disjoint]
  · congr 1
    ext r
    simp only [Finset.mem_filter, Finset.mem_univ, true_and, Finset.mem_union]
    tauto
  · rw [Finset.disjoint_filter]
    intro r _ hp hq
    exact hq.1 hp

end
