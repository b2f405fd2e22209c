import Mathlib.Data.List.Nodup

/-!
# Singly linked queues

The nodes of a heap are linked by a map `next : α → Option α`.  `Seg next h l k` says that
following `next` from the link `h` visits the nodes `l` in order and arrives at the link `k`.
`IsQueue next head tail l` says that a queue with the given head and tail links holds exactly
the nodes `l`: it ends in the null link, and its tail is its last node.
-/

variable {α : Type*} {next next' : α → Option α}

/-- Following `next` from `h` visits the nodes `l` in order and arrives at `k`. -/
def Seg (next : α → Option α) : Option α → List α → Option α → Prop
  | h, [], k => h = k
  | h, a :: l, k => h = some a ∧ Seg next (next a) l k

@[simp]
theorem seg_nil {h k : Option α} :
  Seg next h [] k ↔ h = k
  := Iff.rfl

@[simp]
theorem seg_cons {h k : Option α} {a : α} {l : List α} :
  Seg next h (a :: l) k ↔ h = some a ∧ Seg next (next a) l k
  := Iff.rfl

/-- A segment of a concatenation consists of two segments that share a link. -/
theorem seg_append {l l' : List α} {h k : Option α} :
  Seg next h (l ++ l') k ↔ ∃ m, Seg next h l m ∧ Seg next m l' k
  := by
  induction l generalizing h with
  | nil => simp
  | cons a l ih => simp [ih, and_assoc]

/-- A segment depends only on the links of its own nodes. -/
theorem Seg.congr
    {l : List α} {h k : Option α} (hs : Seg next h l k)
    (heq : ∀ a ∈ l, next' a = next a) :
  Seg next' h l k
  := by
  induction l generalizing h with
  | nil => apply hs
  | cons a l ih =>
    obtain ⟨rfl, hs⟩ := hs
    use rfl
    rw [heq a List.mem_cons_self]
    apply ih hs
    intro b hb
    apply heq b (List.mem_cons_of_mem a hb)

/-- A null-terminated segment starts at its first node. -/
theorem Seg.head_eq {l : List α} {h : Option α} (hs : Seg next h l none) :
  h = l.head?
  := by
  cases l with
  | nil => apply hs
  | cons a l => apply hs.1

/-- Two null-terminated segments from the same link visit the same nodes. -/
theorem Seg.unique
    {l l' : List α} {h : Option α} (hs : Seg next h l none) (hs' : Seg next h l' none) :
  l = l'
  := by
  induction l generalizing h l' with
  | nil =>
    obtain rfl := hs
    cases l' with
    | nil => rfl
    | cons b l' => cases hs'.1
  | cons a l ih =>
    obtain ⟨rfl, hs⟩ := hs
    cases l' with
    | nil => cases hs'
    | cons b l' =>
      obtain ⟨hab, hs'⟩ := hs'
      obtain rfl : a = b := Option.some.inj hab
      rw [ih hs hs']

/-- A null-terminated segment visits no node twice. -/
theorem Seg.nodup {l : List α} {h : Option α} (hs : Seg next h l none) :
  l.Nodup
  := by
  induction l generalizing h with
  | nil => apply List.nodup_nil
  | cons a l ih =>
    obtain ⟨-, hs⟩ := hs
    apply List.nodup_cons.mpr
    constructor
    · -- a second visit of `a` would continue with `l` itself, a proper suffix of `l`
      intro ha
      obtain ⟨l₁, l₂, rfl⟩ := List.append_of_mem ha
      obtain ⟨m, -, rfl, hm⟩ := seg_append.mp hs
      have hl := congrArg List.length (Seg.unique hs hm)
      simp at hl
      omega
    · apply ih hs

section Update

variable [DecidableEq α]

/-- Redirecting the link of a node outside the segment keeps the segment. -/
theorem Seg.update_of_notMem
    {l : List α} {h k : Option α} (hs : Seg next h l k) {a : α} (ha : a ∉ l) (m : Option α) :
  Seg (Function.update next a m) h l k
  := by
  apply Seg.congr hs
  intro b hb
  apply Function.update_of_ne
  rintro rfl
  apply ha hb

/-- Redirecting the link of the last node of a segment redirects the segment. -/
theorem Seg.redirect
    {l : List α} {h k : Option α} {a : α} (hs : Seg next h (l ++ [a]) k) (ha : a ∉ l)
    (m : Option α) :
  Seg (Function.update next a m) h (l ++ [a]) m
  := by
  obtain ⟨j, hl, rfl, -⟩ := seg_append.mp hs
  apply seg_append.mpr
  use some a, Seg.update_of_notMem hl ha m, rfl
  simp

end Update

/-- The queue with head link `head` and tail link `tail` holds exactly the nodes `l`, in order:
it is null-terminated and its tail is its last node. -/
structure IsQueue (next : α → Option α) (head tail : Option α) (l : List α) : Prop where
  seg : Seg next head l none
  last : tail = l.getLast?

namespace IsQueue

variable {head tail : Option α} {l : List α}

section

variable (h : IsQueue next head tail l)

include h

theorem nodup :
  l.Nodup
  := h.seg.nodup

theorem head_eq :
  head = l.head?
  := h.seg.head_eq

/-- The head is null exactly when the queue is empty. -/
theorem head_eq_none :
  head = none ↔ l = []
  := by
  rw [h.head_eq, List.head?_eq_none_iff]

/-- The head is null exactly when the tail is. -/
theorem head_none_iff_tail_none :
  head = none ↔ tail = none
  := by
  rw [h.head_eq_none, h.last, List.getLast?_eq_none_iff]

/-- A queue depends only on the links of its own nodes. -/
theorem congr (heq : ∀ a ∈ l, next' a = next a) :
  IsQueue next' head tail l
  := ⟨h.seg.congr heq, h.last⟩

end

/-- The link out of a node of a queue is the node after it. -/
theorem next_eq {l₁ l₂ : List α} {a : α} (h : IsQueue next head tail (l₁ ++ a :: l₂)) :
  next a = l₂.head?
  := by
  obtain ⟨m, -, -, hs⟩ := seg_append.mp h.seg
  cases l₂ with
  | nil => apply hs
  | cons b l₂ => apply hs.1

/-- Moving the head to the second node removes the first. -/
theorem remove_head {a : α} (h : IsQueue next (some a) tail (a :: l)) :
  IsQueue next (next a) (if l = [] then none else tail) l
  := by
  obtain ⟨⟨-, hs⟩, hlast⟩ := h
  use hs
  cases l with
  | nil => rfl
  | cons b l => simpa using hlast

section Update

variable [DecidableEq α]

/-- A queue keeps its nodes when the link of a node outside it changes. -/
theorem update_of_notMem (h : IsQueue next head tail l) {a : α} (ha : a ∉ l) (m : Option α) :
  IsQueue (Function.update next a m) head tail l
  := ⟨h.seg.update_of_notMem ha m, h.last⟩

/-- The queue of a single node with a null link. -/
theorem singleton (next : α → Option α) (a : α) :
  IsQueue (Function.update next a none) (some a) (some a) [a]
  := by
  constructor
  · simp
  · rfl

/-- Linking the last node of a queue to a node outside it, and that node to null, appends the
node. -/
theorem append
    {a b : α} (h : IsQueue next head (some a) l) (hb : b ∉ l) :
  IsQueue (Function.update (Function.update next a (some b)) b none) head (some b) (l ++ [b])
  := by
  have hlast : l.getLast? = some a := h.last.symm
  obtain ⟨l₀, rfl⟩ := List.getLast?_eq_some_iff.mp hlast
  have hnd := h.nodup
  have ha : a ∉ l₀ := by
    intro ha
    have := List.disjoint_of_nodup_append hnd ha
    simp at this
  constructor
  · apply seg_append.mpr
    use some b, (h.seg.redirect ha (some b)).update_of_notMem hb none, rfl
    simp
  · simp

/-- Redirecting the link of the node before the last to null removes the last. -/
theorem remove_last
    {l : List α} {a b : α} (h : IsQueue next head tail (l ++ [a, b])) :
  IsQueue (Function.update next a none) head (some a) (l ++ [a])
  := by
  have hnd := h.nodup
  have hs : Seg next head ((l ++ [a]) ++ [b]) none := by
    simpa using h.seg
  obtain ⟨m, hm, -⟩ := seg_append.mp hs
  constructor
  · apply hm.redirect
    intro ha
    have := List.disjoint_of_nodup_append hnd ha
    simp at this
  · simp

/-- Redirecting the link of a node past its successor removes the successor, when this is not
the last. -/
theorem remove_between
    {l l' : List α} {a b : α} (h : IsQueue next head tail (l ++ a :: b :: l')) (hl' : l' ≠ []) :
  IsQueue (Function.update next a (next b)) head tail (l ++ a :: l')
  := by
  have hnd := h.nodup
  have hs : Seg next head ((l ++ [a]) ++ (b :: l')) none := by
    simpa using h.seg
  obtain ⟨m, hm, -, htl⟩ := seg_append.mp hs
  have ha : a ∉ l := by
    intro ha
    have := List.disjoint_of_nodup_append hnd ha
    simp at this
  have ha' : a ∉ l' := by
    have := (List.nodup_append.mp hnd).2.1
    simp only [List.nodup_cons, List.mem_cons, not_or] at this
    apply this.1.2
  constructor
  · have : l ++ a :: l' = (l ++ [a]) ++ l' := by simp
    rw [this]
    apply seg_append.mpr
    use next b, hm.redirect ha (next b), htl.update_of_notMem ha' (next b)
  · rw [h.last]
    cases l' with
    | nil => cases hl' rfl
    | cons c l' => simp [List.getLast?_append, List.getLast?_cons_cons]

end Update

end IsQueue
