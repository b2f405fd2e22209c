import Mathlib.Data.List.Nodup

/-!
# Sequences of writes to a map

`applyWrites f ws` is the map `f` after the writes `ws`, each a key with its new value, in order.
A sequence of writes can be repeated after any prefix of it: the result is the same as writing it
once.
-/

variable {α β : Type*} [DecidableEq α]

/-- The map `f` after the writes `ws`, in order. -/
def applyWrites (f : α → β) : List (α × β) → α → β
  | [] => f
  | (a, v) :: ws => applyWrites (Function.update f a v) ws

@[simp]
theorem applyWrites_nil (f : α → β) :
  applyWrites f [] = f
  := rfl

@[simp]
theorem applyWrites_cons (f : α → β) (a : α) (v : β) (ws : List (α × β)) :
  applyWrites f ((a, v) :: ws) = applyWrites (Function.update f a v) ws
  := rfl

theorem applyWrites_append (f : α → β) (ws ws' : List (α × β)) :
  applyWrites f (ws ++ ws') = applyWrites (applyWrites f ws) ws'
  := by
  induction ws generalizing f with
  | nil => rfl
  | cons w ws ih => apply ih

/-- A key that is not written keeps its value. -/
theorem applyWrites_of_notMem
    {f : α → β} {ws : List (α × β)} {a : α} (h : ∀ w ∈ ws, w.1 ≠ a) :
  applyWrites f ws a = f a
  := by
  induction ws generalizing f with
  | nil => rfl
  | cons w ws ih =>
    obtain ⟨b, v⟩ := w
    rw [applyWrites_cons, ih (fun w hw => h w (List.mem_cons_of_mem _ hw))]
    apply Function.update_of_ne
    apply Ne.symm (h (b, v) List.mem_cons_self)

/-- With distinct keys, a written key has the value that was written. -/
theorem applyWrites_of_mem
    {f : α → β} {ws : List (α × β)} (hnd : (ws.map Prod.fst).Nodup) {a : α} {v : β}
    (h : (a, v) ∈ ws) :
  applyWrites f ws a = v
  := by
  induction ws generalizing f with
  | nil => cases h
  | cons w ws ih =>
    obtain ⟨b, u⟩ := w
    rw [List.map_cons, List.nodup_cons] at hnd
    rcases List.mem_cons.mp h with heq | h
    · obtain ⟨rfl, rfl⟩ := Prod.mk.inj heq
      rw [applyWrites_cons, applyWrites_of_notMem]
      · apply Function.update_self
      · intro w hw hwa
        apply hnd.1
        rw [← hwa]
        apply List.mem_map_of_mem hw
    · apply ih hnd.2 h

/-- The value of a key after some writes depends on the map before only if the key is not
written. -/
theorem applyWrites_congr
    {f g : α → β} {ws : List (α × β)} {a : α} (h : (∀ w ∈ ws, w.1 ≠ a) → f a = g a) :
  applyWrites f ws a = applyWrites g ws a
  := by
  induction ws generalizing f g with
  | nil => apply h (by simp)
  | cons w ws ih =>
    obtain ⟨b, v⟩ := w
    apply ih
    intro hws
    rcases eq_or_ne a b with rfl | hab
    · simp
    · rw [Function.update_of_ne hab, Function.update_of_ne hab]
      apply h
      intro w hw
      rcases List.mem_cons.mp hw with rfl | hw
      · apply Ne.symm hab
      · apply hws w hw

/-- Writing a sequence after a prefix of it is writing it once. -/
theorem applyWrites_take (f : α → β) (ws : List (α × β)) (k : Nat) :
  applyWrites (applyWrites f (ws.take k)) ws = applyWrites f ws
  := by
  funext a
  apply applyWrites_congr
  intro h
  apply applyWrites_of_notMem
  intro w hw
  apply h w (List.mem_of_mem_take hw)
