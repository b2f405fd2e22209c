import Xv6.Proc.Table

/-!
# The lists of the process table

`Lists t q` says that the list `id` of the table `t` holds the slots `q id` in order.  On such a
table `stateListAdd` appends a slot and `stateListRemove` erases one; both change links, heads and
tails only.  `Linked t q` says moreover that every slot is on the list `home` that its state and
priority call for, and on no other.
-/

namespace Xv6.Ptable

open Function

variable {t : PTable} {q : ListId → List Slot} {p : Slot}

/-- The list `id` of `t` holds the slots `l`. -/
def HoldsList (t : PTable) (id : ListId) (l : List Slot) : Prop :=
  IsQueue t.next (t.ptrs id).head (t.ptrs id).tail l

/-- The lists of `t` hold the slots `q`. -/
def Lists (t : PTable) (q : ListId → List Slot) : Prop :=
  ∀ id, HoldsList t id (q id)

/-- A list without repetitions has at most `NPROC` slots. -/
theorem length_le_NPROC {l : List Slot} (h : l.Nodup) :
  l.length ≤ NPROC
  := by
  have := h.length_le_card
  simpa using this

@[simp]
theorem PTable.setPtrs_ptrs (t : PTable) (id : ListId) :
  t.setPtrs id (t.ptrs id) = t
  := by
  cases id
  · simp [PTable.setPtrs, PTable.ptrs]
  · simp [PTable.setPtrs, PTable.ptrs]

/-! ### Appending -/

/-- `stateListAdd` of a slot outside a list appends it, and keeps the links of all slots outside
the list. -/
theorem stateListAdd_of_notMem
    {id : ListId} {l : List Slot} (h : HoldsList t id l) (hp : p ∉ l) :
  ∃ nx e, stateListAdd t id p = .ok ({ t with next := nx }.setPtrs id e) ∧
    IsQueue nx e.head e.tail (l ++ [p]) ∧ ∀ x, x ≠ p → x ∉ l → nx x = t.next x
  := by
  cases hh : (t.ptrs id).head with
  | none =>
    have hl : l = [] := h.head_eq_none.mp hh
    subst hl
    use update t.next p none, ⟨some p, some p⟩
    and_intros
    · simp [stateListAdd, hh]
    · apply IsQueue.singleton
    · intro x hx _
      apply update_of_ne hx
  | some a =>
    cases ht : (t.ptrs id).tail with
    | none =>
      have := h.head_none_iff_tail_none.mpr ht
      rw [hh] at this
      cases this
    | some b =>
      use update (update t.next b (some p)) p none, ⟨some a, some p⟩
      have hq : IsQueue t.next (some a) (some b) l := by
        rw [← hh, ← ht]
        apply h
      and_intros
      · simp [stateListAdd, hh, ht]
      · apply hq.append hp
      · intro x hx hxl
        have hb : b ∈ l := List.mem_of_getLast? hq.last.symm
        rw [update_of_ne hx, update_of_ne]
        rintro rfl
        apply hxl hb

/-! ### Removing -/

/-- The search loop stops at a slot of the list, with the slot before it as `previous`. -/
theorem findLoop_of_mem
    {next : Slot → Option Slot} {l₁ l₂ : List Slot} {fuel : Nat} {previous current : Option Slot}
    (hs : Seg next current (l₁ ++ p :: l₂) none) (hp : p ∉ l₁) (hf : l₁.length < fuel) :
  findLoop next p fuel previous current = .ok (l₁.getLast?.or previous, some p)
  := by
  induction l₁ generalizing fuel previous current with
  | nil =>
    obtain ⟨rfl, -⟩ := hs
    obtain ⟨fuel, rfl⟩ := Nat.exists_eq_add_of_lt hf
    simp [findLoop]
  | cons a l ih =>
    obtain ⟨rfl, hs⟩ := hs
    simp only [List.mem_cons, not_or] at hp
    obtain _ | fuel := fuel
    · cases hf
    simp only [List.length_cons, Nat.add_lt_add_iff_right] at hf
    rw [findLoop, if_neg (Ne.symm hp.1), ih hs hp.2 hf]
    cases l with
    | nil => rfl
    | cons b l =>
      obtain ⟨c, hc⟩ : ∃ c, (b :: l).getLast? = some c := by
        simp [List.getLast?_eq_some_getLast]
      rw [List.getLast?_cons_cons, hc]
      rfl

/-- The search loop reaches the end of a list without the slot it looks for. -/
theorem findLoop_of_notMem
    {next : Slot → Option Slot} {l : List Slot} {fuel : Nat} {previous current : Option Slot}
    (hs : Seg next current l none) (hp : p ∉ l) (hf : l.length < fuel) :
  ∃ v, findLoop next p fuel previous current = .ok (v, none)
  := by
  induction l generalizing fuel previous current with
  | nil =>
    obtain rfl := hs
    obtain _ | fuel := fuel
    · cases hf
    use previous
    rfl
  | cons a l ih =>
    obtain ⟨rfl, hs⟩ := hs
    simp only [List.mem_cons, not_or] at hp
    obtain _ | fuel := fuel
    · cases hf
    simp only [List.length_cons, Nat.add_lt_add_iff_right] at hf
    rw [findLoop, if_neg (Ne.symm hp.1)]
    apply ih hs hp.2 hf

/-- `stateListRemove` of the first slot of a list moves the head. -/
theorem stateListRemove_head
    {id : ListId} {l : List Slot} (h : HoldsList t id (p :: l)) :
  ∃ e, stateListRemove t id p = .ok (0, t.setPtrs id e) ∧ IsQueue t.next e.head e.tail l
  := by
  obtain ⟨b, hb⟩ : ∃ b, (p :: l).getLast? = some b := by
    simp [List.getLast?_eq_some_getLast]
  have hh : (t.ptrs id).head = some p := h.head_eq
  have ht : (t.ptrs id).tail = some b := h.last.trans hb
  have hq : IsQueue t.next (some p) (some b) (p :: l) := by
    rw [← hh, ← ht]
    apply h
  use ⟨t.next p, if b = p then none else some b⟩
  constructor
  · simp [stateListRemove, hh, ht]
  · convert hq.remove_head using 1
    cases l with
    | nil =>
      simp only [List.getLast?_singleton, Option.some.injEq] at hb
      simp [hb]
    | cons c l =>
      have hbp : b ≠ p := by
        rintro rfl
        apply (List.nodup_cons.mp h.nodup).1
        apply List.mem_of_getLast?
        rw [← hb, List.getLast?_cons_cons]
      simp [hbp]

/-- The search of `stateListRemove` for a slot `p` that comes right after `v`. -/
theorem findLoop_after
    {id : ListId} {l₁ l₂ : List Slot} {v : Slot} (h : HoldsList t id (l₁ ++ v :: p :: l₂)) :
  p ≠ v ∧ p ∉ l₁ ∧ p ∉ l₂ ∧ ∃ a, (t.ptrs id).head = some a ∧ a ≠ p ∧
    findLoop t.next p (NPROC + 1) none (some a) = .ok (some v, some p)
  := by
  have hsplit : l₁ ++ v :: p :: l₂ = (l₁ ++ [v]) ++ p :: l₂ := by simp
  have hnd := h.nodup
  have hlen := length_le_NPROC hnd
  simp only [List.length_append, List.length_cons] at hlen
  rw [hsplit, List.nodup_append] at hnd
  obtain ⟨-, hnd₂, hdisj⟩ := hnd
  have hp : p ∉ l₁ ++ [v] := by
    intro hp
    apply hdisj p hp p List.mem_cons_self rfl
  obtain ⟨a, l, hl⟩ := List.exists_cons_of_ne_nil (l := l₁ ++ [v]) (by simp)
  have hh : (t.ptrs id).head = some a := by
    rw [h.head_eq, hsplit, hl]
    rfl
  simp only [List.mem_append, List.mem_singleton, not_or] at hp
  use hp.2, hp.1, (List.nodup_cons.mp hnd₂).1, a, hh
  constructor
  · rintro rfl
    have : a ∈ l₁ ++ [v] := by simp [hl]
    simp only [List.mem_append, List.mem_singleton] at this
    rcases this with h₁ | h₂
    · apply hp.1 h₁
    · apply hp.2 h₂
  · have hs := h.seg
    rw [hh, hsplit] at hs
    rw [findLoop_of_mem hs (by simp [hp]) (by simp; omega)]
    simp

/-- `stateListRemove` of the last slot of a list, after `v`, moves the tail to `v`. -/
theorem stateListRemove_last
    {id : ListId} {l : List Slot} {v : Slot} (h : HoldsList t id (l ++ [v, p])) :
  ∃ nx e, stateListRemove t id p = .ok (0, { t with next := nx }.setPtrs id e) ∧
    IsQueue nx e.head e.tail (l ++ [v]) ∧ ∀ x, x ≠ v → x ≠ p → nx x = t.next x
  := by
  obtain ⟨hpv, hpl, -, a, hh, hap, hfind⟩ := findLoop_after h
  have ht : (t.ptrs id).tail = some p := by
    rw [h.last]
    simp
  have hq : IsQueue t.next (some a) (some p) (l ++ [v, p]) := by
    rw [← hh, ← ht]
    apply h
  use update (update t.next v none) p none, ⟨some a, some v⟩
  and_intros
  · simp [stateListRemove, hh, ht, hap, hfind, bind, Except.bind]
  · apply hq.remove_last.update_of_notMem
    simp [hpl, hpv]
  · intro x hxv hxp
    rw [update_of_ne hxp, update_of_ne hxv]

/-- `stateListRemove` of a slot between `v` and a later slot links `v` past it. -/
theorem stateListRemove_between
    {id : ListId} {l₁ l₂ : List Slot} {v : Slot} (h : HoldsList t id (l₁ ++ v :: p :: l₂))
    (hl₂ : l₂ ≠ []) :
  ∃ nx, stateListRemove t id p = .ok (0, { t with next := nx }) ∧
    IsQueue nx (t.ptrs id).head (t.ptrs id).tail (l₁ ++ v :: l₂) ∧
    ∀ x, x ≠ v → x ≠ p → nx x = t.next x
  := by
  obtain ⟨hpv, hpl₁, hpl₂, a, hh, hap, hfind⟩ := findLoop_after h
  obtain ⟨b, hb⟩ : ∃ b, l₂.getLast? = some b := by
    use l₂.getLast hl₂
    apply List.getLast?_eq_some_getLast
  have ht : (t.ptrs id).tail = some b := by
    rw [h.last, ← hb, List.getLast?_append_of_ne_nil _ (List.cons_ne_nil _ _)]
    cases l₂ with
    | nil => cases hl₂ rfl
    | cons c l₂ => rw [List.getLast?_cons_cons, List.getLast?_cons_cons]
  have hpb : p ≠ b := by
    rintro rfl
    apply hpl₂ (List.mem_of_getLast? hb)
  use update (update t.next v (t.next p)) p none
  and_intros
  · simp [stateListRemove, hh, ht, hap, hfind, hpb, bind, Except.bind]
  · apply (IsQueue.remove_between h hl₂).update_of_notMem
    simp [hpl₁, hpv, hpl₂]
  · intro x hxv hxp
    rw [update_of_ne hxp, update_of_ne hxv]

/-- `stateListRemove` of a slot of a list erases it, returns `0`, and keeps the links of all slots
outside the list. -/
theorem stateListRemove_of_mem
    {id : ListId} {l : List Slot} (h : HoldsList t id l) (hp : p ∈ l) :
  ∃ nx e, stateListRemove t id p = .ok (0, { t with next := nx }.setPtrs id e) ∧
    IsQueue nx e.head e.tail (l.erase p) ∧ ∀ x ∉ l, nx x = t.next x
  := by
  obtain ⟨l₁, l₂, rfl⟩ := List.append_of_mem hp
  rcases List.eq_nil_or_concat l₁ with rfl | ⟨l₀, v, rfl⟩
  · obtain ⟨e, he, hq⟩ := stateListRemove_head h
    use t.next, e, he
    constructor
    · simpa using hq
    · intro x _
      rfl
  · have hl : l₀.concat v ++ p :: l₂ = l₀ ++ v :: p :: l₂ := by simp
    rw [hl] at h ⊢
    obtain ⟨hpv, hpl₀, -⟩ := findLoop_after h
    have herase : (l₀ ++ v :: p :: l₂).erase p = l₀ ++ v :: l₂ := by
      rw [List.erase_append_right _ hpl₀, List.erase_cons_tail (by simpa using Ne.symm hpv),
        List.erase_cons_head]
    rw [herase]
    rcases eq_or_ne l₂ [] with rfl | hl₂
    · obtain ⟨nx, e, he, hq, hnx⟩ := stateListRemove_last h
      use nx, e, he, hq
      intro x hx
      simp only [List.mem_append, List.mem_cons, not_or] at hx
      apply hnx x hx.2.1 hx.2.2.1
    · obtain ⟨nx, he, hq, hnx⟩ := stateListRemove_between h hl₂
      use nx, t.ptrs id
      and_intros
      · rw [he]
        congr 2
        exact (PTable.setPtrs_ptrs { t with next := nx } id).symm
      · apply hq
      · intro x hx
        simp only [List.mem_append, List.mem_cons, not_or] at hx
        apply hnx x hx.2.1 hx.2.2.1

/-- `stateListRemove` of a slot outside a list returns `-1` and changes nothing. -/
theorem stateListRemove_of_notMem
    {id : ListId} {l : List Slot} (h : HoldsList t id l) (hp : p ∉ l) :
  stateListRemove t id p = .ok (-1, t)
  := by
  cases hh : (t.ptrs id).head with
  | none => simp [stateListRemove, hh]
  | some a =>
    cases ht : (t.ptrs id).tail with
    | none => simp [stateListRemove, hh, ht]
    | some b =>
      have ha : a ∈ l := by
        apply List.mem_of_head?
        rw [← h.head_eq, hh]
      have hap : a ≠ p := by
        rintro rfl
        apply hp ha
      have hs : Seg t.next (some a) l none := by
        rw [← hh]
        apply h.seg
      have hlen := length_le_NPROC h.nodup
      obtain ⟨v, hv⟩ : ∃ v, findLoop t.next p (NPROC + 1) none (some a) = .ok (v, none) :=
        findLoop_of_notMem hs hp (by omega)
      simp [stateListRemove, hh, ht, hap, hv, bind, Except.bind]

/-! ### Lists that hold every slot -/

/-- `t` and `t'` have the same variables beside the slots and the lists. -/
structure SameVars (t t' : PTable) : Prop where
  promoteAtTime : t'.promoteAtTime = t.promoteAtTime
  nextpid : t'.nextpid = t.nextpid
  initproc : t'.initproc = t.initproc
  ticks : t'.ticks = t.ticks

theorem SameVars.refl (t : PTable) :
  SameVars t t
  := ⟨rfl, rfl, rfl, rfl⟩

theorem SameVars.trans {t₁ t₂ t₃ : PTable} (h : SameVars t₁ t₂) (h' : SameVars t₂ t₃) :
  SameVars t₁ t₃
  := ⟨h'.promoteAtTime.trans h.promoteAtTime, h'.nextpid.trans h.nextpid,
    h'.initproc.trans h.initproc, h'.ticks.trans h.ticks⟩

theorem SameVars.modify (t : PTable) (p : Slot) (f : Proc → Proc) :
  SameVars t (t.modify p f)
  := ⟨rfl, rfl, rfl, rfl⟩

/-- `t'` differs from `t` at most in links, heads and tails. -/
structure Relinked (t t' : PTable) : Prop extends SameVars t t' where
  proc : t'.proc = t.proc

theorem Relinked.setPtrs (t : PTable) (nx : Slot → Option Slot) (id : ListId) (e : Ptrs) :
  Relinked t ({ t with next := nx }.setPtrs id e)
  := by
  cases id
  · exact ⟨⟨rfl, rfl, rfl, rfl⟩, rfl⟩
  · exact ⟨⟨rfl, rfl, rfl, rfl⟩, rfl⟩

/-- The list that the state and the priority of a slot call for. -/
def home (x : Proc) : Option ListId :=
  if x.state = .runnable then
    if h : x.priority < maxPrio + 1 then some (.ready ⟨x.priority, h⟩) else none
  else some (.list x.state)

/-- The lists of `t` hold the slots `q`, and a slot is on the list `home` calls for and on no
other. -/
structure Linked (t : PTable) (q : ListId → List Slot) : Prop where
  lists : Lists t q
  mem_iff : ∀ p id, p ∈ q id ↔ home (t.proc p) = some id

/-- The contents of the lists after `p` leaves the list `a` and joins the list `b`. -/
def move (q : ListId → List Slot) (p : Slot) (a b : ListId) : ListId → List Slot :=
  fun id => (if id = a then (q a).erase p else q id) ++ (if id = b then [p] else [])

/-- Lists without a common slot stay as they are when one of them changes. -/
theorem Lists.change
    (h : Lists t q) (hdisj : ∀ x id id', x ∈ q id → x ∈ q id' → id = id')
    {a : ListId} {l : List Slot} {nx : Slot → Option Slot} {e : Ptrs}
    (hl : IsQueue nx e.head e.tail l)
    (hnx : ∀ id, id ≠ a → ∀ x ∈ q id, x ∉ q a → nx x = t.next x) :
  Lists ({ t with next := nx }.setPtrs a e) (fun id => if id = a then l else q id)
  := by
  intro id
  rcases eq_or_ne id a with rfl | hid
  · simpa [HoldsList] using hl
  · have hq : IsQueue nx (t.ptrs id).head (t.ptrs id).tail (q id) := by
      apply (h id).congr
      intro x hx
      apply hnx id hid x hx
      intro hxa
      apply hid (hdisj x id a hx hxa)
    rw [HoldsList, PTable.ptrs_setPtrs_of_ne _ _ hid, PTable.setPtrs_next]
    simp only [if_neg hid]
    cases id
    · apply hq
    · apply hq

/-- Removing a slot from its list succeeds and relinks the table. -/
theorem Linked.remove
    (h : Linked t q) {a : ListId} (ha : home (t.proc p) = some a) :
  ∃ t', removeOrPanic t a p = .ok t' ∧ Relinked t t' ∧
    Lists t' (fun id => if id = a then (q a).erase p else q id)
  := by
  obtain ⟨nx, e, hrem, hq, hnx⟩ := stateListRemove_of_mem (h.lists a) ((h.mem_iff p a).mpr ha)
  use { t with next := nx }.setPtrs a e
  and_intros
  · simp [removeOrPanic, hrem, bind, Except.bind]
  · apply Relinked.setPtrs
  · apply h.lists.change _ hq
    · intro id _ x _ hx
      apply hnx x hx
    · intro x id id' hx hx'
      apply Option.some.inj
      rw [← (h.mem_iff x id).mp hx, ← (h.mem_iff x id').mp hx']

/-- Appending a slot that is on no list succeeds and relinks the table. -/
theorem Lists.add
    (h : Lists t q) (hdisj : ∀ x id id', x ∈ q id → x ∈ q id' → id = id')
    (hp : ∀ id, p ∉ q id) (b : ListId) :
  ∃ t', stateListAdd t b p = .ok t' ∧ Relinked t t' ∧
    Lists t' (fun id => if id = b then q b ++ [p] else q id)
  := by
  obtain ⟨nx, e, hadd, hq, hnx⟩ := stateListAdd_of_notMem (h b) (hp b)
  use { t with next := nx }.setPtrs b e, hadd, Relinked.setPtrs t nx b e
  apply h.change hdisj hq
  intro id _ x hx hxb
  apply hnx x _ hxb
  rintro rfl
  apply hp id hx

/-- A slot taken off its list `a`, changed and appended to the list `b` that the change calls for
leaves a linked table. -/
theorem Linked.append_changed
    {t' : PTable} (h : Linked t q) {a b : ListId} (ha : home (t.proc p) = some a)
    (hrel : Relinked t t') (hl : Lists t' (fun id => if id = a then (q a).erase p else q id))
    (f : Proc → Proc) (hb : home (f (t.proc p)) = some b) :
  ∃ t'', stateListAdd (t'.modify p f) b p = .ok t'' ∧ Relinked (t.modify p f) t'' ∧
    Linked t'' (move q p a b)
  := by
  have hmem : ∀ x id, x ∈ (if id = a then (q a).erase p else q id) ↔
      x ≠ p ∧ home (t.proc x) = some id := by
    intro x id
    split
    · subst id
      rw [(h.lists a).nodup.mem_erase_iff, h.mem_iff]
    · rename_i hid
      rw [h.mem_iff]
      constructor
      · intro hx
        refine ⟨?_, hx⟩
        rintro rfl
        rw [ha] at hx
        apply hid (Option.some.inj hx).symm
      · rintro ⟨-, hx⟩
        apply hx
  have hl' : Lists (t'.modify p f) (fun id => if id = a then (q a).erase p else q id) := by
    intro id
    rw [HoldsList, PTable.modify_ptrs]
    apply hl id
  obtain ⟨t'', hadd, hrel', hl''⟩ := hl'.add (p := p) (b := b)
    (by
      intro x id id' hx hx'
      apply Option.some.inj
      rw [← ((hmem x id).mp hx).2, ← ((hmem x id').mp hx').2])
    (by
      intro id hp
      apply ((hmem p id).mp hp).1 rfl)
  have hmodify : SameVars (t.modify p f) (t'.modify p f) :=
    ⟨hrel.promoteAtTime, hrel.nextpid, hrel.initproc, hrel.ticks⟩
  have hproc : (t'.modify p f).proc = (t.modify p f).proc := by
    simp [PTable.modify, hrel.proc]
  use t'', hadd, ⟨hmodify.trans hrel'.toSameVars, hrel'.proc.trans hproc⟩
  have hmove : (fun id => if id = b then (if b = a then (q a).erase p else q b) ++ [p]
      else if id = a then (q a).erase p else q id) = move q p a b := by
    funext id
    rw [move]
    split
    · subst id
      rfl
    · rw [List.append_nil]
  rw [hmove] at hl''
  constructor
  · apply hl''
  · intro x id
    rw [hrel'.proc]
    rcases eq_or_ne x p with rfl | hx
    · have hnot : x ∉ (if id = a then (q a).erase x else q id) := by
        intro hx
        apply ((hmem x id).mp hx).1 rfl
      rw [move, List.mem_append, PTable.modify_proc_self, hrel.proc, hb, Option.some.injEq]
      constructor
      · rintro (hx | hx)
        · cases hnot hx
        · split at hx
          · rename_i hid
            exact hid.symm
          · cases hx
      · rintro rfl
        simp
    · rw [move, List.mem_append, hmem, PTable.modify_proc_of_ne _ _ hx, hrel.proc]
      constructor
      · rintro (hx' | hx')
        · apply hx'.2
        · split at hx'
          · cases hx (List.mem_singleton.mp hx')
          · cases hx'
      · intro hx'
        left
        use hx

end Xv6.Ptable
