import Xv6.Proc.Slot

/-!
# `exit` and `wait` on a good table

The loops of `exit` over the lists pass every child of the exiting process to `initproc`, and the
scan of `wait` looks at every slot that is not free.  The results say what each of them does to
every slot.
-/

namespace Xv6.Ptable

variable {t : PTable} {q : ListId → List Slot} {p : Slot}

/-! ### Changing all slots -/

/-- Change the fields of every slot. -/
def PTable.map (t : PTable) (f : Proc → Proc) : PTable :=
  { t with proc := fun x => f (t.proc x) }

theorem PTable.map_map (t : PTable) (f g : Proc → Proc) :
  (t.map f).map g = t.map (fun x => g (f x))
  := rfl

theorem SameVars.map (t : PTable) (f : Proc → Proc) :
  SameVars t (t.map f)
  := ⟨rfl, rfl, rfl, rfl⟩

/-- A change of all slots that keeps the states and the priorities of the runnable slots keeps the
lists. -/
theorem Linked.map
    (h : Linked t q) {f : Proc → Proc} (hs : ∀ x, (f x).state = x.state)
    (hp : ∀ x, x.state = .runnable → (f x).priority = x.priority) :
  Linked (t.map f) q
  := by
  constructor
  · intro id
    have hid := h.lists id
    cases id <;> exact hid
  · intro x id
    rw [h.mem_iff]
    by_cases hr : (t.proc x).state = .runnable
    · rw [PTable.map, home_congr (hs _) (hp _ hr)]
    · rw [PTable.map, home_of_ne_runnable hr, home_of_ne_runnable (hs (t.proc x) ▸ hr), hs]

/-- A change of all slots that keeps states and priorities keeps the table good. -/
theorem Good.map
    (h : Good t q) {f : Proc → Proc}
    (hf : ∀ x, (f x).state = x.state ∧ (f x).priority = x.priority) :
  Good (t.map f) q
  := by
  use h.toLinked.map (fun x => (hf x).1) (fun x _ => (hf x).2)
  intro x hx
  rw [PTable.map, (hf _).1] at hx
  rw [PTable.map, (hf _).2]
  apply h.bounded x hx

/-- A walk whose body changes the fields of the visited slot changes the slots of the list. -/
theorem walk_modify
    {body : PTable → Slot → Except Fault PTable} {g : Proc → Proc} {l : List Slot}
    (hbody : ∀ t' p, p ∈ l → SameVars t t' → t'.proc p = t.proc p →
      body t' p = .ok (t'.modify p g))
    (hs : Seg t.next l.head? l none) {fuel : Nat} (hf : l.length < fuel) :
  walk body fuel t l.head?
    = .ok { t with proc := fun x => if x ∈ l then g (t.proc x) else t.proc x }
  := by
  induction l generalizing t fuel with
  | nil =>
    obtain _ | fuel := fuel
    · cases hf
    simp [walk]
  | cons p l ih =>
    obtain _ | fuel := fuel
    · cases hf
    have hpl : p ∉ l := (List.nodup_cons.mp hs.nodup).1
    have hnext : t.next p = l.head? := hs.2.head_eq
    have hs' : Seg (t.modify p g).next l.head? l none := hnext ▸ hs.2
    have hbody' : ∀ t' x, x ∈ l → SameVars (t.modify p g) t' →
        t'.proc x = (t.modify p g).proc x → body t' x = .ok (t'.modify x g) := by
      intro t' x hx hv hproc
      apply hbody t' x (List.mem_cons_of_mem p hx) ((SameVars.modify t p g).trans hv)
      rw [hproc, PTable.modify_proc_of_ne]
      rintro rfl
      apply hpl hx
    rw [List.head?_cons, walk, hbody t p List.mem_cons_self (SameVars.refl t) rfl]
    simp only [bind, Except.bind, PTable.modify_next, hnext]
    rw [ih hbody' hs' (by simpa using hf)]
    simp only [PTable.modify, Except.ok.injEq, PTable.mk.injEq, and_true]
    funext x
    rcases eq_or_ne x p with rfl | hx
    · simp [hpl]
    · simp [hx]

theorem PTable.map_congr {f g : Proc → Proc} (h : ∀ x, f (t.proc x) = g (t.proc x)) :
  t.map f = t.map g
  := by
  simp only [PTable.map, h]

/-- A walk along a list whose body changes the fields of the visited slot changes the slots whose
home is the list. -/
theorem Linked.walk_modify
    (h : Linked t q) (id : ListId) {body : PTable → Slot → Except Fault PTable} {g : Proc → Proc}
    (hbody : ∀ t' p, home (t.proc p) = some id → SameVars t t' → t'.proc p = t.proc p →
      body t' p = .ok (t'.modify p g)) :
  walk body (NPROC + 1) t (t.ptrs id).head
    = .ok (t.map fun x => if home x = some id then g x else x)
  := by
  rw [h.head_eq, Ptable.walk_modify _ _ (h.length_lt id)]
  · simp only [h.mem_iff]
    rfl
  · intro t' p hp
    apply hbody t' p ((h.mem_iff p id).mp hp)
  · rw [← h.head_eq]
    apply (h.lists id).seg

/-- The walks along some of the ready lists, for a body that changes the fields of the visited
slot and keeps its home. -/
theorem Good.foldlM_ready
    {js : List (Fin (maxPrio + 1))} (hnd : js.Nodup)
    {body : PTable → Slot → Except Fault PTable} {g : Proc → Proc}
    (hg : ∀ x, (g x).state = x.state ∧ (g x).priority = x.priority)
    (hbody : ∀ t' p, SameVars t t' → body t' p = .ok (t'.modify p g)) (h : Good t q) :
  js.foldlM (fun t j => walk body (NPROC + 1) t (t.ready j).head) t
    = .ok (t.map fun x => if ∃ j ∈ js, home x = some (.ready j) then g x else x)
  := by
  induction js generalizing t with
  | nil => simp [pure, Except.pure, PTable.map]
  | cons j js ih =>
    obtain ⟨hj, hnd⟩ := List.nodup_cons.mp hnd
    let f : Proc → Proc := fun x => if home x = some (.ready j) then g x else x
    have hf : ∀ x, (f x).state = x.state ∧ (f x).priority = x.priority := by
      intro x
      simp only [f]
      split
      · apply hg
      · exact ⟨rfl, rfl⟩
    have hgood : Good (t.map f) q := h.map hf
    have hwalk : walk body (NPROC + 1) t (t.ready j).head = .ok (t.map f) :=
      h.toLinked.walk_modify (.ready j) (fun t' p _ hv _ => hbody t' p hv)
    have hbody' : ∀ t' p, SameVars (t.map f) t' → body t' p = .ok (t'.modify p g) := by
      intro t' p hv
      apply hbody t' p ((SameVars.map t f).trans hv)
    rw [List.foldlM_cons, hwalk]
    simp only [bind, Except.bind]
    rw [ih hnd hbody' hgood, PTable.map_map]
    congr 1
    apply PTable.map_congr
    intro x
    rw [home_congr (hf _).1 (hf _).2]
    by_cases hx : home (t.proc x) = some (.ready j)
    · have : ¬ ∃ i ∈ js, home (t.proc x) = some (.ready i) := by
        rintro ⟨i, hi, hxi⟩
        rw [hx, Option.some.injEq, ListId.ready.injEq] at hxi
        apply hj (hxi ▸ hi)
      have hor : ∃ i ∈ j :: js, home (t.proc x) = some (.ready i) :=
        ⟨j, List.mem_cons_self, hx⟩
      simp only [if_neg this, if_pos hor, f, if_pos hx]
    · simp [f, hx]

/-- The slots on the ready lists are the runnable ones. -/
theorem Linked.exists_ready_iff
    (h : Linked t q) (hb : (t.proc p).state = .runnable → (t.proc p).priority ≤ maxPrio) :
  (∃ j ∈ readyDown, home (t.proc p) = some (.ready j)) ↔ (t.proc p).state = .runnable
  := by
  constructor
  · rintro ⟨j, -, hj⟩
    apply (h.of_mem_ready ((h.mem_iff p _).mpr hj)).1
  · intro hr
    have hall : ∀ j : Fin (maxPrio + 1), j ∈ readyDown := by decide
    exact ⟨_, hall _, home_of_runnable hr (hb hr)⟩

theorem Good.exists_ready_iff (h : Good t q) :
  (∃ j ∈ readyDown, home (t.proc p) = some (.ready j)) ↔ (t.proc p).state = .runnable
  := h.toLinked.exists_ready_iff h.homed

/-! ### Passing the children on -/

/-- What `exit` does to a slot it visits: a child of `curproc` becomes a child of `initproc`. -/
def adopted (curproc : Slot) (initproc : Option Slot) (x : Proc) : Proc :=
  if x.parent = some curproc then { x with parent := initproc } else x

@[simp]
theorem adopted_state (curproc : Slot) (initproc : Option Slot) (x : Proc) :
  (adopted curproc initproc x).state = x.state
  := by
  simp only [adopted]
  split <;> rfl

@[simp]
theorem adopted_priority (curproc : Slot) (initproc : Option Slot) (x : Proc) :
  (adopted curproc initproc x).priority = x.priority
  := by
  simp only [adopted]
  split <;> rfl

theorem adoptReady_eq (curproc : Slot) (t : PTable) (p : Slot) :
  adoptReady curproc t p = .ok (t.modify p (adopted curproc t.initproc))
  := by
  rw [adoptReady]
  split
  · rename_i h
    simp only [PTable.modify, adopted, if_pos h]
  · rename_i h
    simp [PTable.modify, adopted, h]

theorem adopt_eq
    (curproc : Slot) (hp : (t.proc p).state ≠ .zombie) :
  adopt curproc t p = .ok (t.modify p (adopted curproc t.initproc))
  := by
  rw [← adoptReady_eq, adopt, adoptReady]
  simp [hp]

/-- The pass of `exit` over the lists of a state other than `ZOMBIE`. -/
theorem adoptState_eq
    (h : Good t q) (curproc : Slot) {s : ProcState} (hs : s ≠ .zombie) :
  adoptState curproc t s
    = .ok (t.map fun x => if x.state = s then adopted curproc t.initproc x else x)
  := by
  rw [adoptState]
  split
  · subst s
    rw [h.toLinked.checkRunnableEmpty]
    simp only [bind, Except.bind]
    rw [h.foldlM_ready (g := adopted curproc t.initproc) (by decide) (by simp)]
    · congr 1
      apply PTable.map_congr
      intro x
      simp only [h.exists_ready_iff]
    · intro t' p hv
      rw [adoptReady_eq, hv.initproc]
  · rename_i hr
    have hbody : ∀ t' x, home (t.proc x) = some (.list s) → SameVars t t' →
        t'.proc x = t.proc x →
          adopt curproc t' x = .ok (t'.modify x (adopted curproc t.initproc)) := by
      intro t' x hx hv hproc
      rw [adopt_eq curproc, hv.initproc]
      rw [hproc, (home_eq_list_iff hr).mp hx]
      apply hs
    have hwalk := h.toLinked.walk_modify (.list s) hbody
    rw [PTable.ptrs] at hwalk
    rw [hwalk]
    simp only [home_eq_list_iff hr]

/-- The lists after some sleeping slots have been appended to ready lists. -/
structure Woken (q q' : ListId → List Slot) : Prop where
  list : ∀ s, s ≠ .sleeping → q' (.list s) = q (.list s)
  ready : ∀ j, q (.ready j) <+: q' (.ready j)

theorem Woken.refl (q : ListId → List Slot) :
  Woken q q
  := ⟨fun _ _ => rfl, fun _ => List.prefix_rfl⟩

theorem Woken.trans {q₁ q₂ q₃ : ListId → List Slot} (h : Woken q₁ q₂) (h' : Woken q₂ q₃) :
  Woken q₁ q₃
  := ⟨fun s hs => (h'.list s hs).trans (h.list s hs), fun j => (h.ready j).trans (h'.ready j)⟩

/-- What `wakeup1` does to the slots and the lists. -/
theorem wakeup1_woken (h : Good t q) (chan : Chan) :
  ∃ t' q', wakeup1 t chan = .ok t' ∧ Good t' q' ∧ Woken q q' ∧
    (∀ x, t'.proc x = woken chan (t.proc x)) ∧ SameVars t t'
  := by
  obtain ⟨t', ht', hq', hproc, hvars⟩ := wakeup1_spec h chan
  exact ⟨t', _, ht', hq', ⟨fun _ hs => if_neg hs, fun _ => List.prefix_append _ _⟩, hproc, hvars⟩

/-- Whether some of the slots `l` is a child of `curproc`. -/
def hasChild (t : PTable) (curproc : Slot) (l : List Slot) : Bool :=
  l.any fun x => (t.proc x).parent = some curproc

/-- A slot when `exit` has given away the children of `curproc` among the slots `done`. -/
def adoptedIn (t : PTable) (curproc : Slot) (done : List Slot) (x : Slot) : Proc :=
  if done.contains x then adopted curproc t.initproc (t.proc x) else t.proc x

theorem adoptedIn_eq (t : PTable) (curproc : Slot) (done : List Slot) (x : Slot) :
  adoptedIn t curproc done x
    = if x ∈ done then adopted curproc t.initproc (t.proc x) else t.proc x
  := by
  simp only [adoptedIn, List.contains_iff_mem]

/-- What `exit` has done to a slot when it has visited the zombies `done`. -/
def afterZombies (t : PTable) (curproc : Slot) (done : List Slot) (x : Slot) : Proc :=
  let y := adoptedIn t curproc done x
  if hasChild t curproc done then woken (Chan.ofPtr t.initproc) y else y

theorem woken_of_ne_sleeping {chan : Chan} {x : Proc} (h : x.state ≠ .sleeping) :
  woken chan x = x
  := if_neg fun h' => h h'.1

theorem woken_idem (chan : Chan) (x : Proc) :
  woken chan (woken chan x) = woken chan x
  := by
  by_cases h : x.state = .sleeping ∧ x.chan = chan
  · simp [woken, h]
  · simp [woken, h]

/-- A visited slot that is no child of `curproc` is left as it is. -/
theorem afterZombies_append_of_ne
    {curproc : Slot} {done : List Slot} (hp : (t.proc p).parent ≠ some curproc) (x : Slot) :
  afterZombies t curproc (done ++ [p]) x = afterZombies t curproc done x
  := by
  have hx : adoptedIn t curproc (done ++ [p]) x = adoptedIn t curproc done x := by
    rcases eq_or_ne x p with rfl | hx
    · simp [adoptedIn_eq, adopted, hp]
    · simp [adoptedIn_eq, hx]
  have hc : hasChild t curproc (done ++ [p]) = hasChild t curproc done := by
    simp [hasChild, hp]
  rw [afterZombies, hx, hc, afterZombies]

/-- A visited child of `curproc` is adopted, and `initproc` is woken. -/
theorem afterZombies_append_of_eq
    {curproc : Slot} {done : List Slot} (hp : (t.proc p).parent = some curproc) (x : Slot) :
  afterZombies t curproc (done ++ [p]) x
    = woken (Chan.ofPtr t.initproc)
      (if x = p then { t.proc p with parent := t.initproc } else afterZombies t curproc done x)
  := by
  have hc : hasChild t curproc (done ++ [p]) = true := by
    simp [hasChild, hp]
  simp only [afterZombies, hc, if_true]
  rcases eq_or_ne x p with rfl | hx
  · simp [adoptedIn_eq, adopted, hp]
  · simp only [adoptedIn_eq, List.mem_append, List.mem_singleton, hx, or_false, if_false]
    generalize (if x ∈ done then adopted curproc t.initproc (t.proc x) else t.proc x) = y
    cases hasChild t curproc done with
    | false => rfl
    | true =>
      rw [if_pos rfl, woken_idem]

/-- The invariant of the pass of `exit` over the list of the zombies, with the slots `l` to
visit. -/
structure ZombieLoop (t₀ : PTable) (q₀ : ListId → List Slot) (curproc : Slot) (l : List Slot)
    (t : PTable) : Prop where
  lists : ∃ done q, q₀ (.list .zombie) = done ++ l ∧ Good t q ∧ Woken q₀ q ∧
    ∀ x, t.proc x = afterZombies t₀ curproc done x
  vars : SameVars t₀ t

theorem adopt_step
    {t₀ : PTable} {q₀ : ListId → List Slot} {curproc : Slot} {l : List Slot} (h₀ : Good t₀ q₀)
    (h : ZombieLoop t₀ q₀ curproc (p :: l) t) :
  ∃ t', adopt curproc t p = .ok t' ∧ t'.next p = l.head? ∧ ZombieLoop t₀ q₀ curproc l t'
  := by
  obtain ⟨⟨done, q, hdone, hq, hw, hproc⟩, hvars⟩ := h
  have hnd := (h₀.lists (.list .zombie)).nodup
  rw [hdone, List.nodup_middle, List.nodup_cons, List.mem_append, not_or] at hnd
  obtain ⟨⟨hpd, hpl⟩, -⟩ := hnd
  have hz₀ : (t₀.proc p).state = .zombie := by
    apply (h₀.state_of_mem_list (s := .zombie) _).1
    simp [hdone]
  have hp₀ : t.proc p = t₀.proc p := by
    rw [hproc, afterZombies, adoptedIn_eq, if_neg hpd]
    split
    · apply woken_of_ne_sleeping
      simp [hz₀]
    · rfl
  have hnext : ∀ {t' q'}, Good t' q' → Woken q₀ q' → t'.next p = l.head? := by
    intro t' q' hq' hw'
    have hqueue := hq'.lists (.list .zombie)
    rw [hw'.list .zombie (by simp), hdone] at hqueue
    apply hqueue.next_eq
  by_cases hc : (t₀.proc p).parent = some curproc
  · have hq₁ : Good (t.modify p ({ · with parent := t.initproc })) q :=
      hq.modify_same rfl rfl
    obtain ⟨t', q', ht', hq', hw', hproc', hvars'⟩ :=
      wakeup1_woken hq₁ (Chan.ofPtr t.initproc)
    refine ⟨t', ?_, hnext hq' (hw.trans hw'),
      ⟨done ++ [p], q', by simp [hdone], hq', hw.trans hw', ?_⟩, ?_⟩
    · rw [adopt, hp₀, if_pos hc]
      simp only [PTable.modify_proc_self, hp₀, hz₀, if_true]
      apply ht'
    · intro x
      rw [hproc', afterZombies_append_of_eq hc, hvars.initproc]
      rcases eq_or_ne x p with rfl | hx
      · rw [PTable.modify_proc_self, hp₀, if_pos rfl]
      · rw [PTable.modify_proc_of_ne _ _ hx, if_neg hx, hproc]
    · apply hvars.trans ((SameVars.modify _ _ _).trans hvars')
  · refine ⟨t, ?_, hnext hq hw, ⟨done ++ [p], q, by simp [hdone], hq, hw, ?_⟩, hvars⟩
    · rw [adopt, hp₀, if_neg hc]
    · intro x
      rw [afterZombies_append_of_ne hc]
      apply hproc

/-- The pass of `exit` over the list of the zombies. -/
theorem adoptState_zombie (h : Good t q) (curproc : Slot) :
  ∃ t' q', adoptState curproc t .zombie = .ok t' ∧ Good t' q' ∧ Woken q q' ∧
    (∀ x, t'.proc x = afterZombies t curproc (q (.list .zombie)) x) ∧ SameVars t t'
  := by
  have hinit : ZombieLoop t q curproc (q (.list .zombie)) t :=
    ⟨⟨[], q, rfl, h, Woken.refl q, by simp [afterZombies, adoptedIn, hasChild]⟩, SameVars.refl t⟩
  obtain ⟨t', ht', ⟨done, q', hdone, hq', hw, hproc⟩, hvars⟩ :=
    walk_rule (fun p l t hI => adopt_step h hI) hinit (h.length_lt _)
  rw [List.append_nil] at hdone
  refine ⟨t', q', ?_, hq', hw, hdone ▸ hproc, hvars⟩
  rw [adoptState, if_neg (by simp)]
  rw [← h.head_eq] at ht'
  apply ht'

/-- The passes of `exit` over the lists of some states other than `ZOMBIE`. -/
theorem foldlM_adoptState
    {ss : List ProcState} (hnd : ss.Nodup) (hz : .zombie ∉ ss) (h : Good t q) (curproc : Slot) :
  ss.foldlM (adoptState curproc) t
    = .ok (t.map fun x => if x.state ∈ ss then adopted curproc t.initproc x else x)
  := by
  induction ss generalizing t with
  | nil => simp [pure, Except.pure, PTable.map]
  | cons s ss ih =>
    obtain ⟨hs, hnd⟩ := List.nodup_cons.mp hnd
    rw [List.mem_cons, not_or] at hz
    let f : Proc → Proc := fun x => if x.state = s then adopted curproc t.initproc x else x
    have hf : ∀ x, (f x).state = x.state ∧ (f x).priority = x.priority := by
      intro x
      simp only [f]
      split
      · simp
      · exact ⟨rfl, rfl⟩
    have hgood : Good (t.map f) q := h.map hf
    rw [List.foldlM_cons, adoptState_eq h curproc (Ne.symm hz.1)]
    simp only [bind, Except.bind]
    rw [ih hnd hz.2 hgood, PTable.map_map]
    congr 1
    apply PTable.map_congr
    intro x
    rw [(hf _).1]
    by_cases hx : (t.proc x).state = s
    · simp only [f, hx, if_neg hs, if_true, List.mem_cons_self]
    · simp [f, hx, PTable.map]

/-- Whether `curproc` has a zombie child. -/
def zombieChild (t : PTable) (curproc : Slot) : Bool :=
  (List.finRange NPROC).any fun x =>
    (t.proc x).state = .zombie ∧ (t.proc x).parent = some curproc

/-- What the loops of `exit` do to a slot: the parent of `curproc` wakes up, the children of
`curproc` pass to `initproc`, and `initproc` wakes up if one of them is a zombie. -/
def bereaved (t : PTable) (curproc : Slot) (x : Proc) : Proc :=
  let y := woken (Chan.ofPtr (t.proc curproc).parent) x
  let z := if y.state ≠ .unused then adopted curproc t.initproc y else y
  if zombieChild t curproc then woken (Chan.ofPtr t.initproc) z else z

theorem woken_state_eq_zombie_iff (chan : Chan) (x : Proc) :
  (woken chan x).state = .zombie ↔ x.state = .zombie
  := by
  simp only [woken]
  split
  · rename_i h
    simp [h.1]
  · rfl

theorem woken_parent (chan : Chan) (x : Proc) :
  (woken chan x).parent = x.parent
  := by
  simp only [woken]
  split <;> rfl

/-- What the loop of `exit` over the children does to a slot. -/
def reparented (t : PTable) (curproc : Slot) (x : Proc) : Proc :=
  let z := if x.state ≠ .unused then adopted curproc t.initproc x else x
  if zombieChild t curproc then woken (Chan.ofPtr t.initproc) z else z

/-- The loop of `exit` over the children. -/
theorem reparent_spec (h : Good t q) (curproc : Slot) :
  ∃ t' q', scanStates.foldlM (adoptState curproc) t = .ok t' ∧ Good t' q' ∧ Woken q q' ∧
    (∀ x, t'.proc x = reparented t curproc (t.proc x)) ∧ SameVars t t'
  := by
  let ss : List ProcState := [.embryo, .sleeping, .runnable, .running]
  let f : Proc → Proc := fun x => if x.state ∈ ss then adopted curproc t.initproc x else x
  have hf : ∀ x, (f x).state = x.state ∧ (f x).priority = x.priority := by
    intro x
    simp only [f]
    split
    · simp
    · exact ⟨rfl, rfl⟩
  have hpasses : ss.foldlM (adoptState curproc) t = .ok (t.map f) :=
    foldlM_adoptState (by decide) (by decide) h curproc
  obtain ⟨t', q', ht', hq', hw, hproc, hvars⟩ := adoptState_zombie (h.map hf) curproc
  refine ⟨t', q', ?_, hq', hw, ?_, (SameVars.map _ _).trans hvars⟩
  · have : scanStates = ss ++ [.zombie] := rfl
    rw [this, List.foldlM_append, hpasses]
    simp [bind, Except.bind, ht', pure, Except.pure]
  -- the list of the zombies of the last pass holds the zombies of `t`
  have hmem : ∀ x, x ∈ q (.list .zombie) ↔ (t.proc x).state = .zombie := by
    intro x
    rw [h.mem_iff, home_eq_list_iff (by simp)]
  have hchild : hasChild (t.map f) curproc (q (.list .zombie)) = zombieChild t curproc := by
    have hparent : ∀ x, (t.proc x).state = .zombie →
        ((t.map f).proc x).parent = (t.proc x).parent := by
      intro x hx
      simp only [PTable.map, f, hx]
      rw [if_neg (by decide)]
    rw [Bool.eq_iff_iff]
    simp only [hasChild, zombieChild, List.any_eq_true, decide_eq_true_eq, hmem]
    constructor
    · rintro ⟨x, hx, hp⟩
      exact ⟨x, List.mem_finRange x, hx, hparent x hx ▸ hp⟩
    · rintro ⟨x, -, hx, hp⟩
      exact ⟨x, hx, (hparent x hx).trans hp⟩
  intro x
  have hinit : (t.map f).initproc = t.initproc := rfl
  rw [hproc, afterZombies, hchild, hinit, reparented]
  have hstep : adoptedIn (t.map f) curproc (q (.list .zombie)) x
      = if (t.proc x).state ≠ .unused then adopted curproc t.initproc (t.proc x)
        else t.proc x := by
    simp only [adoptedIn_eq, hmem, PTable.map, f, ss]
    cases (t.proc x).state <;> simp
  rw [hstep]

/-- The loops of `exit`. -/
theorem exit_loops (h : Good t q) (curproc : Slot) :
  ∃ t₁ t₂ q', wakeup1 t (Chan.ofPtr (t.proc curproc).parent) = .ok t₁ ∧
    scanStates.foldlM (adoptState curproc) t₁ = .ok t₂ ∧ Good t₂ q' ∧ Woken q q' ∧
    (∀ x, t₂.proc x = bereaved t curproc (t.proc x)) ∧ SameVars t t₂
  := by
  obtain ⟨t₁, q₁, ht₁, hq₁, hw₁, hproc₁, hvars₁⟩ :=
    wakeup1_woken h (Chan.ofPtr (t.proc curproc).parent)
  obtain ⟨t₂, q₂, ht₂, hq₂, hw₂, hproc₂, hvars₂⟩ := reparent_spec hq₁ curproc
  refine ⟨t₁, t₂, q₂, ht₁, ht₂, hq₂, hw₁.trans hw₂, ?_, hvars₁.trans hvars₂⟩
  -- waking up the parent makes no zombie and no child
  have hchild : zombieChild t₁ curproc = zombieChild t curproc := by
    simp only [zombieChild, hproc₁, woken_state_eq_zombie_iff, woken_parent]
  intro x
  rw [hproc₂, reparented, hchild, hvars₁.initproc, hproc₁]
  rfl

/-- A slot that is not asleep keeps its state in the loops of `exit`. -/
theorem bereaved_state_of_ne_sleeping
    (curproc : Slot) {x : Proc} (hx : x.state ≠ .sleeping) :
  (bereaved t curproc x).state = x.state
  := by
  have hz : ∀ y : Proc, y.state = x.state → (if y.state ≠ .unused then
      adopted curproc t.initproc y else y).state = x.state := by
    intro y hy
    split
    · rw [adopted_state, hy]
    · apply hy
  rw [bereaved, woken_of_ne_sleeping hx]
  split
  · rw [woken_of_ne_sleeping, hz x rfl]
    rw [hz x rfl]
    apply hx
  · apply hz x rfl

/-- `exit` succeeds on a good table for a running slot. -/
theorem exit_spec (h : Good t q) (hp : (t.proc p).state = .running) :
  ∃ t' q', exit t p = .ok t' ∧ Good t' q' ∧ (∀ j, q (.ready j) <+: q' (.ready j)) ∧
    (∀ x, x ≠ p → t'.proc x = bereaved t p (t.proc x)) ∧
    t'.proc p = tallied t.ticks { bereaved t p (t.proc p) with state := .zombie } ∧
    SameVars t t'
  := by
  obtain ⟨t₁, t₂, q₂, ht₁, ht₂, hq₂, hw, hproc, hvars⟩ := exit_loops h p
  have hrun : (t₂.proc p).state = .running := by
    rw [hproc, bereaved_state_of_ne_sleeping p (by simp [hp]), hp]
  obtain ⟨t₃, ht₃, hrel, hq₃⟩ := hq₂.toState (p := p) ({ · with state := .zombie })
    (by simp [hrun]) (by simp) (by simp [Active])
  have hvars₃ := hvars.trans ((SameVars.modify _ _ _).trans hrel.toSameVars)
  have hsched : sched t₃ p = .ok (t₃.modify p (tallied t.ticks)) := by
    rw [sched_eq (by simp [hrel.proc]), hvars₃.ticks]
  refine ⟨t₃.modify p (tallied t.ticks), _, ?_, hq₃.modify_same rfl rfl, ?_, ?_, ?_,
    hvars₃.trans (SameVars.modify _ _ _)⟩
  · rw [hrun] at ht₃
    simp [exit, ht₁, ht₂, ht₃, hsched, bind, Except.bind]
  · intro j
    simpa [move] using hw.ready j
  · intro x hx
    rw [PTable.modify_proc_of_ne _ _ hx, hrel.proc, PTable.modify_proc_of_ne _ _ hx, hproc]
  · rw [PTable.modify_proc_self, hrel.proc, PTable.modify_proc_self, hproc]

/-! ### Waiting -/

/-- Whether a slot in one of the states `ss` is a child of `curproc`. -/
def childIn (t : PTable) (curproc : Slot) (ss : List ProcState) : Bool :=
  (List.finRange NPROC).any fun x => (t.proc x).state ∈ ss ∧ (t.proc x).parent = some curproc

theorem childIn_cons (t : PTable) (curproc : Slot) (s : ProcState) (ss : List ProcState) :
  childIn t curproc (s :: ss) = (childIn t curproc [s] || childIn t curproc ss)
  := by
  rw [Bool.eq_iff_iff]
  simp only [childIn, Bool.or_eq_true, List.any_eq_true, decide_eq_true_eq, List.mem_cons,
    List.not_mem_nil, or_false]
  constructor
  · rintro ⟨x, hx, hs | hs, hp⟩
    · exact Or.inl ⟨x, hx, hs, hp⟩
    · exact Or.inr ⟨x, hx, hs, hp⟩
  · rintro (⟨x, hx, hs, hp⟩ | ⟨x, hx, hs, hp⟩)
    · exact ⟨x, hx, Or.inl hs, hp⟩
    · exact ⟨x, hx, Or.inr hs, hp⟩

/-- The scan over ready lists finds whether one of them holds a child. -/
theorem readyKids_eq
    (h : Linked t q) (curproc : Slot) (js : List (Fin (maxPrio + 1))) (havekids : Bool) :
  readyKids t curproc js havekids
    = .ok (havekids || js.any fun j => hasChild t curproc (q (.ready j)))
  := by
  induction js generalizing havekids with
  | nil => simp [readyKids]
  | cons j js ih =>
    have hfind := h.findFirst_eq (fun x => x.parent = some curproc) (.ready j)
    rw [PTable.ptrs] at hfind
    rw [readyKids, hfind]
    simp only [bind, Except.bind, ih, List.any_cons]
    cases hf : (q (.ready j)).find? fun x => (t.proc x).parent = some curproc with
    | none =>
      have : hasChild t curproc (q (.ready j)) = false := by
        simpa [hasChild] using hf
      simp [this]
    | some x =>
      have : hasChild t curproc (q (.ready j)) = true := by
        rw [hasChild, List.any_eq_true]
        refine ⟨x, List.mem_of_find?_eq_some hf, ?_⟩
        apply List.find?_some hf
      simp [this]

/-- The runnable children are those on the ready lists. -/
theorem childIn_runnable (h : Good t q) (curproc : Slot) :
  readyDown.any (fun j => hasChild t curproc (q (.ready j))) = childIn t curproc [.runnable]
  := by
  rw [Bool.eq_iff_iff]
  simp only [childIn, hasChild, List.any_eq_true, decide_eq_true_eq, List.mem_singleton]
  constructor
  · rintro ⟨j, -, x, hx, hp⟩
    exact ⟨x, List.mem_finRange x, (h.of_mem_ready hx).1, hp⟩
  · rintro ⟨x, -, hx, hp⟩
    obtain ⟨j, hj, hhome⟩ := h.exists_ready_iff.mpr hx
    exact ⟨j, hj, x, (h.mem_iff x _).mpr hhome, hp⟩

/-- The search of `wait` on the list of a state finds nothing exactly when no slot of the state is
a child. -/
theorem find?_child_eq_none_iff
    (h : Linked t q) (curproc : Slot) {s : ProcState} (hs : s ≠ .runnable) :
  (q (.list s)).find? (fun x => (t.proc x).parent = some curproc) = none ↔
    childIn t curproc [s] = false
  := by
  rw [List.find?_eq_none, ← Bool.not_eq_true]
  simp only [childIn, List.any_eq_true, decide_eq_true_eq, List.mem_singleton, h.mem_iff,
    home_eq_list_iff hs]
  constructor
  · rintro hnone ⟨x, -, hx, hp⟩
    apply hnone x hx hp
  · intro hnone x hx hp
    apply hnone ⟨x, List.mem_finRange x, hx, hp⟩

/-- The scan of `wait` over states other than `ZOMBIE` only looks for children. -/
theorem waitLoop_append
    (h : Good t q) (curproc : Slot) {ss : List ProcState} (hz : .zombie ∉ ss)
    (rest : List ProcState) (havekids : Bool) :
  waitLoop t curproc (ss ++ rest) havekids
    = waitLoop t curproc rest (havekids || childIn t curproc ss)
  := by
  induction ss generalizing havekids with
  | nil =>
    have : childIn t curproc [] = false := by
      rw [childIn, List.any_eq_false]
      simp
    rw [List.nil_append, this, Bool.or_false]
  | cons s ss ih =>
    rw [List.mem_cons, not_or] at hz
    rw [List.cons_append, waitLoop, childIn_cons]
    split
    · subst s
      rw [h.toLinked.checkRunnableEmpty]
      simp only [bind, Except.bind, readyKids_eq h.toLinked, childIn_runnable h, ih hz.2,
        Bool.or_assoc]
    · rename_i hr
      have hfind := h.findFirst_eq (fun x => x.parent = some curproc) (.list s)
      rw [PTable.ptrs] at hfind
      rw [hfind]
      simp only [bind, Except.bind]
      cases hf : (q (.list s)).find? fun x => (t.proc x).parent = some curproc with
      | none =>
        rw [find?_child_eq_none_iff h.toLinked curproc hr] at hf
        simp only [ih hz.2, hf, Bool.false_or]
      | some x =>
        have hst := (h.state_of_mem_list (List.mem_of_find?_eq_some hf)).1
        have hc : childIn t curproc [s] = true := by
          rw [← Bool.not_eq_false, ← find?_child_eq_none_iff h.toLinked curproc hr, hf]
          simp
        simp only [hst, if_neg (Ne.symm hz.1), ih hz.2, hc, Bool.true_or, Bool.or_true]

/-- A pass of the loop of `wait`: it reaps the first zombie child of the list of the zombies; with
no zombie child it fails if there is no child at all or the caller is killed, and otherwise it
sleeps. -/
theorem wait_eq (h : Good t q) (curproc : Slot) :
  wait t curproc =
    match (q (.list .zombie)).find? (fun x => (t.proc x).parent = some curproc) with
    | some c => (reap t c).map fun t' => (.reaped (t.proc c).pid, t')
    | none =>
        if !childIn t curproc [.embryo, .sleeping, .runnable, .running] ∨
            (t.proc curproc).killed then .ok (.failed, t)
        else (sleep t curproc (.proc curproc)).map fun t' => (.asleep, t')
  := by
  have hscan : scanStates = [.embryo, .sleeping, .runnable, .running] ++ [.zombie] := rfl
  have hfind := h.findFirst_eq (fun x => x.parent = some curproc) (.list .zombie)
  rw [PTable.ptrs] at hfind
  rw [wait, hscan, waitLoop_append h curproc (by decide), waitLoop, if_neg (by simp), hfind]
  simp only [bind, Except.bind, Bool.false_or]
  cases hf : (q (.list .zombie)).find? fun x => (t.proc x).parent = some curproc with
  | none =>
    simp only [waitLoop, Bool.or_eq_true]
    rfl
  | some c =>
    have hst := (h.state_of_mem_list (List.mem_of_find?_eq_some hf)).1
    simp only [hst, if_true]
    rfl

end Xv6.Ptable
