import Xv6.Proc.Exit

/-!
# Finding a process by its pid, and promotion

`kill` and `setpriority` look for a slot with a given pid on the lists, and the promotion of
`scheduler` raises the priority of every active slot.  The results say what each of them does to
every slot and to the lists.
-/

namespace Xv6.Ptable

variable {t : PTable} {q : ListId → List Slot} {p : Slot}

/-! ### Finding a process -/

/-- The result of a search over the lists of the states `ss`: the first slot with the pid, or none
if there is no such slot. -/
def Finds (t : PTable) (pid : UInt32) (ss : List ProcState) : Option (ListId × Slot) → Prop
  | some (id, p) => home (t.proc p) = some id ∧ (t.proc p).state ∈ ss ∧ (t.proc p).pid = pid
  | none => ∀ p, (t.proc p).state ∈ ss → (t.proc p).pid ≠ pid

theorem findReady_spec (h : Linked t q) (pid : UInt32) (js : List (Fin (maxPrio + 1))) :
  ∃ o, findReady t pid js = .ok o ∧
    (∀ id p, o = some (id, p) → home (t.proc p) = some id ∧ (t.proc p).state = .runnable ∧
      (t.proc p).pid = pid) ∧
    (o = none → ∀ j ∈ js, ∀ p, home (t.proc p) = some (.ready j) → (t.proc p).pid ≠ pid)
  := by
  induction js with
  | nil => exact ⟨none, rfl, by simp, by simp⟩
  | cons j js ih =>
    have hfind := h.findFirst_eq (fun x => x.pid = pid) (.ready j)
    rw [PTable.ptrs] at hfind
    rw [findReady, hfind]
    simp only [bind, Except.bind]
    cases hf : (q (.ready j)).find? fun x => (t.proc x).pid = pid with
    | some p =>
      refine ⟨some (.ready j, p), rfl, ?_, by simp⟩
      rintro id p' ⟨⟩
      have hp := List.mem_of_find?_eq_some hf
      refine ⟨(h.mem_iff p _).mp hp, (h.of_mem_ready hp).1, ?_⟩
      simpa using List.find?_some hf
    | none =>
      obtain ⟨o, ho, hsome, hnone⟩ := ih
      refine ⟨o, ho, hsome, ?_⟩
      intro hn i hi p hp
      rcases List.mem_cons.mp hi with rfl | hi
      · rw [List.find?_eq_none] at hf
        simpa using hf p ((h.mem_iff p _).mpr hp)
      · apply hnone hn i hi p hp

/-- The search over the lists of some states succeeds if every runnable slot is on a ready list. -/
theorem findPid_spec
    (h : Linked t q) (hb : ∀ p, (t.proc p).state = .runnable → (t.proc p).priority ≤ maxPrio)
    (pid : UInt32) (ss : List ProcState) :
  ∃ o, findPid t pid ss = .ok o ∧ Finds t pid ss o
  := by
  induction ss with
  | nil => exact ⟨none, rfl, by simp [Finds]⟩
  | cons s ss ih =>
    obtain ⟨o, ho, hfinds⟩ := ih
    have hskip : (∀ p, (t.proc p).state = s → (t.proc p).pid ≠ pid) → Finds t pid (s :: ss) o := by
      intro hs
      cases o with
      | none =>
        intro p hp
        rcases List.mem_cons.mp hp with hp | hp
        · apply hs p hp
        · apply hfinds p hp
      | some r => exact ⟨hfinds.1, List.mem_cons_of_mem s hfinds.2.1, hfinds.2.2⟩
    rw [findPid]
    split
    · subst s
      obtain ⟨r, hr, hsome, hnone⟩ := findReady_spec h pid readyDown
      rw [h.checkRunnableEmpty, hr]
      simp only [bind, Except.bind]
      cases r with
      | none =>
        refine ⟨o, ho, hskip ?_⟩
        intro p hp
        obtain ⟨j, hj, hhome⟩ := (h.exists_ready_iff (hb p)).mpr hp
        apply hnone rfl j hj p hhome
      | some r =>
        obtain ⟨hhome, hst, hpid⟩ := hsome r.1 r.2 rfl
        exact ⟨some r, rfl, hhome, by simp [hst], hpid⟩
    · rename_i hr
      have hfind := h.findFirst_eq (fun x => x.pid = pid) (.list s)
      rw [PTable.ptrs] at hfind
      rw [hfind]
      simp only [bind, Except.bind]
      cases hf : (q (.list s)).find? fun x => (t.proc x).pid = pid with
      | none =>
        refine ⟨o, ho, hskip ?_⟩
        intro p hp
        rw [List.find?_eq_none] at hf
        simpa using hf p ((h.mem_iff p _).mpr ((home_eq_list_iff hr).mpr hp))
      | some p =>
        have hp := List.mem_of_find?_eq_some hf
        refine ⟨some (.list s, p), rfl, (h.mem_iff p _).mp hp, ?_, ?_⟩
        · simp [(h.state_of_mem_list hp).1]
        · simpa using List.find?_some hf

/-! ### Killing -/

/-- What `kill` does to the slot it finds. -/
def killed (x : Proc) : Proc :=
  { x with killed := true, state := if x.state = .sleeping then .runnable else x.state }

/-- `kill` fails when no slot in use has the pid; otherwise it marks such a slot, and a sleeping
one wakes up. -/
theorem kill_spec (h : Good t q) (pid : Int32) :
  (kill t pid = .ok (-1, t) ∧ Finds t pid.toUInt32 scanStates none) ∨
  ∃ p id t' q', kill t pid = .ok (0, t') ∧ Finds t pid.toUInt32 scanStates (some (id, p)) ∧
    Good t' q' ∧ Woken q q' ∧ t'.proc p = killed (t.proc p) ∧ ChangesOnly p t t'
  := by
  obtain ⟨o, ho, hfinds⟩ := findPid_spec h.toLinked (fun _ => h.homed) pid.toUInt32 scanStates
  rw [kill, ho]
  simp only [bind, Except.bind]
  cases o with
  | none =>
    left
    exact ⟨rfl, hfinds⟩
  | some r =>
    right
    obtain ⟨id, p⟩ := r
    have h₁ : Good (t.modify p ({ · with killed := true })) q := h.modify_same rfl rfl
    by_cases hs : (t.proc p).state = .sleeping
    · -- a sleeping slot is on the list of the sleeping slots and moves to its ready list
      obtain rfl : id = .list .sleeping := by
        have := hfinds.1
        rw [home_of_ne_runnable (by simp [hs]), hs] at this
        exact (Option.some.inj this).symm
      have hprio := h.bounded p (by simp [Active, hs])
      obtain ⟨t', ht', hrel, hq'⟩ := h₁.toReady (p := p) ({ · with state := .runnable })
        priorityList (by simp [hs]) rfl (by simpa using hprio) rfl
      simp only [PTable.modify_proc_self, hs] at ht' hq'
      refine ⟨p, _, t', _, ?_, hfinds, hq', ⟨?_, ?_⟩, ?_,
        (ChangesOnly.modify t p _).trans hrel.changesOnly⟩
      · simp [hs, ht']
      · intro s hs
        simp [move, hs]
      · intro j
        rw [move, if_neg (by simp)]
        apply List.prefix_append
      · rw [hrel.proc_self, PTable.modify_proc_self, killed, if_pos hs]
    · have hproc : (t.modify p ({ · with killed := true })).proc p = killed (t.proc p) := by
        rw [PTable.modify_proc_self, killed, if_neg hs]
      refine ⟨p, id, _, q, ?_, hfinds, h₁, Woken.refl q, hproc, ChangesOnly.modify t p _⟩
      cases id with
      | list s => simp [hs]
      | ready j => rfl

/-! ### Setting the priority -/

/-- What `setpriority` does to the slot it finds. -/
def reprioritized (priority : Nat) (x : Proc) : Proc :=
  if x.priority ≠ priority then { x with priority := priority, budget := BUDGET } else x

@[simp]
theorem reprioritized_state (priority : Nat) (x : Proc) :
  (reprioritized priority x).state = x.state
  := by
  simp only [reprioritized]
  split <;> rfl

theorem reprioritized_priority (priority : Nat) (x : Proc) :
  (reprioritized priority x).priority = priority
  := by
  unfold reprioritized
  split
  · rfl
  · rename_i h
    exact not_not.mp h

/-- The arguments that `setpriority` accepts. -/
def ValidPriority (pid priority : Int32) : Prop :=
  ¬ (pid < 0 ∨ pid > 32767) ∧ ¬ (priority < 0 ∨ priority.toInt > maxPrio)

/-- A runnable slot leaves its ready list, changes its priority, and joins the ready list of the
new one. -/
theorem Linked.requeue
    (h : Linked t q) (hs : (t.proc p).state = .runnable) (hold : (t.proc p).priority ≤ maxPrio)
    (f : Proc → Proc) (hf : (f (t.proc p)).state = .runnable)
    (hprio : (f (t.proc p)).priority ≤ maxPrio) :
  ∃ t₁ t₂ i, removeOrPanic t (.ready i) p = .ok t₁ ∧ Relinked t t₁ ∧
    readyList (t.proc p).priority = .ok (.ready i) ∧ i = (t.proc p).priority ∧
    stateListAdd (t₁.modify p f) (.ready ⟨(f (t.proc p)).priority, Nat.lt_succ_of_le hprio⟩) p
      = .ok t₂ ∧
    Relinked (t.modify p f) t₂ ∧
    Linked t₂ (move q p (.ready i)
      (.ready ⟨(f (t.proc p)).priority, Nat.lt_succ_of_le hprio⟩))
  := by
  have hhome := home_of_runnable hs hold
  obtain ⟨t₁, hrem, hrel, hl⟩ := h.remove hhome
  obtain ⟨t₂, hadd, hrel', hl'⟩ := h.append_changed hhome hrel hl f (home_of_runnable hf hprio)
  exact ⟨t₁, t₂, _, hrem, hrel, dif_pos _, rfl, hadd, hrel', hl'⟩

theorem ValidPriority.toNat_le {pid priority : Int32} (h : ValidPriority pid priority) :
  priority.toInt.toNat ≤ maxPrio
  := by
  have := not_or.mp h.2
  omega

/-- `setpriority` fails on arguments out of range and when no active slot has the pid; otherwise
it changes the priority of such a slot, and a runnable one changes its ready list. -/
theorem Linked.setpriority
    (h : Linked t q) (hb : ∀ p, (t.proc p).state = .runnable → (t.proc p).priority ≤ maxPrio)
    (pid priority : Int32) :
  (setpriority t pid priority = .ok (-1, t) ∧
    (ValidPriority pid priority →
      Finds t pid.toUInt32 [.sleeping, .runnable, .running] none)) ∨
  ∃ p id t' q', setpriority t pid priority = .ok (0, t') ∧ ValidPriority pid priority ∧
    Finds t pid.toUInt32 [.sleeping, .runnable, .running] (some (id, p)) ∧ Linked t' q' ∧
    t'.proc p = reprioritized priority.toInt.toNat (t.proc p) ∧ ChangesOnly p t t' ∧
    q' = if (t.proc p).state = .runnable ∧ (t.proc p).priority ≠ priority.toInt.toNat then
        move q p (.ready (Fin.ofNat _ (t.proc p).priority))
          (.ready (Fin.ofNat _ priority.toInt.toNat))
      else q
  := by
  rw [Ptable.setpriority]
  by_cases hpid : pid < 0 ∨ pid > 32767
  · left
    rw [if_pos hpid]
    exact ⟨rfl, fun hv => absurd hpid hv.1⟩
  rw [if_neg hpid]
  by_cases hpri : priority < 0 ∨ priority.toInt > maxPrio
  · left
    rw [if_pos hpri]
    exact ⟨rfl, fun hv => absurd hpri hv.2⟩
  rw [if_neg hpri]
  have hv : ValidPriority pid priority := ⟨hpid, hpri⟩
  have hle := hv.toNat_le
  generalize priority.toInt.toNat = prio at hle
  obtain ⟨o, ho, hfinds⟩ := findPid_spec h hb pid.toUInt32 [.sleeping, .runnable, .running]
  rw [ho]
  simp only [bind, Except.bind]
  cases o with
  | none =>
    left
    exact ⟨rfl, fun _ => hfinds⟩
  | some r =>
    right
    obtain ⟨id, p⟩ := r
    by_cases heq : (t.proc p).priority = prio
    · refine ⟨p, id, t, q, ?_, hv, hfinds, h, ?_, ⟨SameVars.refl t, fun _ _ => rfl⟩, ?_⟩
      · cases id <;> simp [heq]
      · simp [reprioritized, heq]
      · rw [if_neg (fun hne => hne.2 heq)]
    have hset : reprioritized prio (t.proc p)
        = { t.proc p with priority := prio, budget := BUDGET } := if_pos heq
    cases id with
    | list s =>
      have hs : (t.proc p).state ≠ .runnable := by
        intro hs
        have := hfinds.1
        rw [home_of_runnable hs (hb p hs)] at this
        cases this
      refine ⟨p, .list s, t.modify p ({ · with priority := prio, budget := BUDGET }), q, ?_, hv,
        hfinds, ?_, ?_, ChangesOnly.modify _ _ _, ?_⟩
      · simp [heq]
      · apply h.modify
        rw [home_of_ne_runnable hs]
        exact if_neg hs
      · rw [PTable.modify_proc_self, hset]
      · rw [if_neg (fun hr => hs hr.1)]
    | ready j =>
      obtain ⟨hs, hj⟩ := h.of_mem_ready ((h.mem_iff p _).mpr hfinds.1)
      obtain ⟨t₁, t₂, i, hrem, hrel, hready, hi, hadd, hrel₂, hq₂⟩ :=
        h.requeue hs (hb p hs) ({ · with priority := prio, budget := BUDGET }) hs hle
      have hready' : readyList prio = .ok (.ready ⟨prio, Nat.lt_succ_of_le hle⟩) := dif_pos _
      refine ⟨p, .ready j, t₂, _, ?_, hv, hfinds, hq₂, ?_, hrel₂.changesOnly, ?_⟩
      · rw [hj] at heq hready
        simp [hj, heq, hready, hrem, assertState, hrel.proc, hs, hready', hadd]
      · rw [hrel₂.proc_self, hset]
      · rw [if_pos ⟨hs, heq⟩, ← hi]
        congr 2
        · apply Fin.ext
          exact (Nat.mod_eq_of_lt i.isLt).symm
        · apply Fin.ext
          exact (Nat.mod_eq_of_lt (Nat.lt_succ_of_le hle)).symm

/-! ### Promotion -/

/-- What the promotion does to a slot it visits. -/
def promoted (x : Proc) : Proc :=
  { x with budget := BUDGET,
           priority := if x.priority < maxPrio then x.priority + 1 else x.priority }

/-- What the lists hold after the slots of `ready[j]` have moved to `ready[j + 1]`. -/
def raised (q : ListId → List Slot) (j : Fin (maxPrio + 1)) (done l : List Slot) :
    ListId → List Slot
  | .list s => q (.list s)
  | .ready i =>
      if i = j then l else if (i : Nat) = j + 1 then q (.ready i) ++ done else q (.ready i)

theorem stateListAdd_modify (t : PTable) (id : ListId) (p x : Slot) (f : Proc → Proc) :
  stateListAdd (t.modify x f) id p = (stateListAdd t id p).map (·.modify x f)
  := by
  rw [stateListAdd, stateListAdd, PTable.modify_ptrs]
  cases (t.ptrs id).head with
  | none => cases id <;> rfl
  | some h =>
    cases (t.ptrs id).tail with
    | none => rfl
    | some l => cases id <;> rfl

/-- The invariant of the promotion of `ready[j]`, with the slots `l` to visit. -/
structure PromoteLoop (t₀ : PTable) (q₀ : ListId → List Slot) (j : Fin (maxPrio + 1))
    (l : List Slot) (t : PTable) : Prop where
  lists : ∃ done, q₀ (.ready j) = done ++ l ∧ Linked t (raised q₀ j done l) ∧
    ∀ x, t.proc x = if x ∈ done then promoted (t₀.proc x) else t₀.proc x
  vars : SameVars t₀ t

theorem move_raised
    {j j' : Fin (maxPrio + 1)} (hj : (j' : Nat) = j + 1) (done l : List Slot) :
  move (raised q j done (p :: l)) p (.ready j) (.ready j') = raised q j (done ++ [p]) l
  := by
  have hne : j' ≠ j := by
    rintro rfl
    omega
  funext id
  cases id with
  | list s => simp [move, raised]
  | ready i =>
    rcases eq_or_ne i j with rfl | hi
    · simp [move, raised, Ne.symm hne]
    · rcases eq_or_ne i j' with rfl | hi'
      · simp [move, raised, hne, hj]
      · have : ¬ (i : Nat) = j + 1 := by
          intro h
          apply hi' (Fin.ext (h.trans hj.symm))
        simp [move, raised, hi, hi', this]

theorem promoteReady_step
    {t₀ : PTable} {q₀ : ListId → List Slot} {j : Fin (maxPrio + 1)} (hj : (j : Nat) < maxPrio)
    {l : List Slot} (h₀ : Linked t₀ q₀) (h : PromoteLoop t₀ q₀ j (p :: l) t) :
  t.next p = l.head? ∧ ∃ t', promoteReady j t p = .ok t' ∧ PromoteLoop t₀ q₀ j l t'
  := by
  obtain ⟨⟨done, hdone, hq, hproc⟩, hvars⟩ := h
  have hnd := (h₀.lists (.ready j)).nodup
  rw [hdone, List.nodup_middle, List.nodup_cons, List.mem_append, not_or] at hnd
  obtain ⟨⟨hpd, hpl⟩, -⟩ := hnd
  have hp₀ : t.proc p = t₀.proc p := by
    rw [hproc, if_neg hpd]
  have hmem : p ∈ raised q₀ j done (p :: l) (.ready j) := by
    simp [raised]
  obtain ⟨hs, hprio⟩ := hq.of_mem_ready hmem
  constructor
  · have hqueue := hq.lists (.ready j)
    rw [raised, if_pos rfl, ← List.nil_append (p :: l)] at hqueue
    apply hqueue.next_eq
  have h₁ : Linked (t.modify p ({ · with budget := BUDGET })) (raised q₀ j done (p :: l)) :=
    hq.modify rfl
  have hle : (t.proc p).priority + 1 ≤ maxPrio := by
    omega
  obtain ⟨t₁, t₂, i, hrem, hrel, hready, hi, hadd, hrel₂, hq₂⟩ :=
    h₁.requeue (p := p) (by simpa using hs) (by simp; omega)
      (fun x => { x with priority := x.priority + 1 }) (by simpa using hs) (by simpa using hle)
  simp only [PTable.modify_proc_self] at hready hi hadd hq₂
  obtain rfl : i = j := Fin.ext (hi.trans hprio)
  rw [stateListAdd_modify] at hadd
  cases hadd₃ : stateListAdd t₁ (.ready ⟨(t.proc p).priority + 1, Nat.lt_succ_of_le hle⟩) p with
  | error e =>
    rw [hadd₃] at hadd
    cases hadd
  | ok t₃ =>
    rw [hadd₃, Except.map, Except.ok.injEq] at hadd
    have hnext : readyList ((t.proc p).priority + 1)
        = .ok (.ready ⟨(t.proc p).priority + 1, Nat.lt_succ_of_le hle⟩) := dif_pos _
    rw [move_raised (by simpa using hprio)] at hq₂
    refine ⟨t₂, ?_, ⟨done ++ [p], by simp [hdone], hq₂, ?_⟩, ?_⟩
    · have hlt : (t.proc p).priority < maxPrio := by
        omega
      have hp₁ : t₁.proc p = { t.proc p with budget := BUDGET } := by
        rw [hrel.proc, PTable.modify_proc_self]
      simp [promoteReady, hlt, hready, hrem, assertState, hp₁, hs, hi, hnext, hadd₃, ← hadd,
        bind, Except.bind]
    · intro x
      rcases eq_or_ne x p with rfl | hx
      · rw [hrel₂.proc_self, PTable.modify_proc_self, ← hp₀]
        simp [promoted, hprio, hj]
      · rw [hrel₂.changesOnly.others x hx, PTable.modify_proc_of_ne _ _ hx, hproc]
        simp [hx]
    · apply hvars.trans ((SameVars.modify _ _ _).trans hrel₂.changesOnly.toSameVars)

/-- The promotion of one ready list moves its slots to the end of the next higher one. -/
theorem promoteReady_spec (h : Linked t q) {j : Fin (maxPrio + 1)} (hj : (j : Nat) < maxPrio) :
  ∃ t', walkSaved (promoteReady j) (NPROC + 1) t (t.ready j).head = .ok t' ∧
    Linked t' (raised q j (q (.ready j)) []) ∧
    (∀ x, t'.proc x = if x ∈ q (.ready j) then promoted (t.proc x) else t.proc x) ∧
    SameVars t t'
  := by
  have hinit : PromoteLoop t q j (q (.ready j)) t := by
    refine ⟨⟨[], rfl, ?_, by simp⟩, SameVars.refl t⟩
    convert h using 1
    funext id
    cases id with
    | list s => rfl
    | ready i =>
      rcases eq_or_ne i j with rfl | hi
      · simp [raised]
      · simp [raised, hi]
  obtain ⟨t', ht', ⟨done, hdone, hq', hproc⟩, hvars⟩ :=
    walkSaved_rule (fun p l t hI => promoteReady_step hj h hI) hinit (h.length_lt _)
  rw [List.append_nil] at hdone
  rw [← h.head_eq] at ht'
  exact ⟨t', ht', hdone ▸ hq', hdone ▸ hproc, hvars⟩

/-- The lists after the promotion of the ready lists `js`, in that order. -/
def raisedAll (q : ListId → List Slot) (js : List (Fin (maxPrio + 1))) : ListId → List Slot :=
  js.foldl (fun q j => raised q j (q (.ready j)) []) q

/-- The promotion of several ready lists, from higher priorities to lower ones. -/
theorem promoteReady_foldlM
    (js : List (Fin (maxPrio + 1))) (hdown : js.Pairwise (· > ·))
    (hlt : ∀ j ∈ js, (j : Nat) < maxPrio) (h : Linked t q) :
  ∃ t', js.foldlM (fun t j => walkSaved (promoteReady j) (NPROC + 1) t (t.ready j).head) t
      = .ok t' ∧
    Linked t' (raisedAll q js) ∧
    (∀ x, t'.proc x = if ∃ j ∈ js, x ∈ q (.ready j) then promoted (t.proc x) else t.proc x) ∧
    SameVars t t'
  := by
  induction js generalizing t q with
  | nil => exact ⟨t, rfl, h, by simp, SameVars.refl t⟩
  | cons j js ih =>
    rw [List.pairwise_cons] at hdown
    obtain ⟨t₁, ht₁, hq₁, hproc₁, hvars₁⟩ := promoteReady_spec h (hlt j List.mem_cons_self)
    obtain ⟨t₂, ht₂, hq₂, hproc₂, hvars₂⟩ :=
      ih hdown.2 (fun i hi => hlt i (List.mem_cons_of_mem j hi)) hq₁
    refine ⟨t₂, ?_, hq₂, ?_, hvars₁.trans hvars₂⟩
    · rw [List.foldlM_cons, ht₁]
      apply ht₂
    · intro x
      -- the lists still to promote are below `ready[j]` and have not changed
      have hsame : ∀ i ∈ js, raised q j (q (.ready j)) [] (.ready i) = q (.ready i) := by
        intro i hi
        have hij : i < j := hdown.1 i hi
        have hne : ¬ (i : Nat) = j + 1 := by
          omega
        simp [raised, hij.ne, hne]
      have hiff : (∃ i ∈ js, x ∈ raised q j (q (.ready j)) [] (.ready i)) ↔
          ∃ i ∈ js, x ∈ q (.ready i) := by
        constructor
        · rintro ⟨i, hi, hx⟩
          exact ⟨i, hi, hsame i hi ▸ hx⟩
        · rintro ⟨i, hi, hx⟩
          exact ⟨i, hi, (hsame i hi).symm ▸ hx⟩
      rw [hproc₂, hproc₁]
      by_cases hx : x ∈ q (.ready j)
      · have hnot : ¬ ∃ i ∈ js, x ∈ q (.ready i) := by
          rintro ⟨i, hi, hxi⟩
          have hij : i < j := hdown.1 i hi
          have := (h.of_mem_ready hx).2.symm.trans (h.of_mem_ready hxi).2
          omega
        have hor : ∃ i ∈ j :: js, x ∈ q (.ready i) := ⟨j, List.mem_cons_self, hx⟩
        rw [if_neg (hiff.not.mpr hnot), if_pos hx, if_pos hor]
      · simp only [hiff, List.exists_mem_cons_iff, hx, false_or, if_false]

/-- The promotion of the slots of a state other than `RUNNABLE`. -/
theorem promoteState_eq (h : Linked t q) {s : ProcState} (hs : s ≠ .runnable) :
  promoteState t s = .ok (t.map fun x => if x.state = s then promoted x else x) ∧
    Linked (t.map fun x => if x.state = s then promoted x else x) q
  := by
  constructor
  · have hwalk : walk promoteOther (NPROC + 1) t (t.ptrs (.list s)).head
        = .ok (t.map fun x => if home x = some (.list s) then promoted x else x) :=
      h.walk_modify (.list s) (fun _ _ _ _ _ => rfl)
    rw [PTable.ptrs] at hwalk
    rw [promoteState, if_neg hs, hwalk]
    simp only [home_eq_list_iff hs]
  · apply h.map
    · intro x
      split <;> rfl
    · intro x hx
      rw [if_neg]
      rw [hx]
      apply Ne.symm hs

/-- What a promotion does to a slot: a slot on `ready[MAXPRIO]` is not visited. -/
def promotion (x : Proc) : Proc :=
  if x.state = .sleeping ∨ x.state = .running ∨ x.state = .runnable ∧ x.priority < maxPrio then
    promoted x
  else x

theorem Linked.exists_promotedPrios_iff (h : Linked t q) (x : Slot) :
  (∃ j ∈ promotedPrios, x ∈ q (.ready j)) ↔
    (t.proc x).state = .runnable ∧ (t.proc x).priority < maxPrio
  := by
  constructor
  · rintro ⟨j, hj, hx⟩
    have hlt : ∀ j ∈ promotedPrios, (j : Nat) < maxPrio := by decide
    obtain ⟨hs, hp⟩ := h.of_mem_ready hx
    exact ⟨hs, hp ▸ hlt j hj⟩
  · rintro ⟨hs, hp⟩
    have hall : ∀ j : Fin (maxPrio + 1), (j : Nat) < maxPrio → j ∈ promotedPrios := by decide
    refine ⟨⟨(t.proc x).priority, by omega⟩, hall _ hp, (h.mem_iff x _).mpr ?_⟩
    apply home_of_runnable hs (by omega)

/-- When the time for a promotion has come, the slots on the ready lists below the highest one
move up by one list in their order, and every other active slot gets its priority and budget
raised in place. -/
theorem Linked.promoteAll (h : Linked t q) (ht : t.ticks ≥ t.promoteAtTime) :
  ∃ t', promoteAll t = .ok t' ∧ Linked t' (raisedAll q promotedPrios) ∧
    (∀ x, t'.proc x = promotion (t.proc x)) ∧
    SameVars { t with promoteAtTime := t.ticks + TICKS_TO_PROMOTE } t'
  := by
  obtain ⟨hpass₁, hq₁⟩ := promoteState_eq h (s := .sleeping) (by simp)
  obtain ⟨t₂, hpass₂, hq₂, hproc₂, hvars₂⟩ :=
    promoteReady_foldlM promotedPrios (by decide) (by decide) hq₁
  obtain ⟨hpass₃, hq₃⟩ := promoteState_eq hq₂ (s := .running) (by simp)
  have hrunnable : promoteState
      (t.map fun x => if x.state = .sleeping then promoted x else x) .runnable = .ok t₂ := by
    rw [promoteState, if_pos rfl, hq₁.checkRunnableEmpty]
    apply hpass₂
  refine ⟨_, ?_, hq₃.setPromoteAtTime (t.ticks + TICKS_TO_PROMOTE), ?_, ?_⟩
  · have hticks : t₂.ticks = t.ticks := hvars₂.ticks
    simp only [Ptable.promoteAll, if_pos ht, List.foldlM_cons, List.foldlM_nil, hpass₁, hrunnable,
      hpass₃, bind, Except.bind, pure, Except.pure]
    rw [← hticks]
    rfl
  · intro x
    simp only [PTable.map, hproc₂, hq₁.exists_promotedPrios_iff, promotion]
    cases hs : (t.proc x).state <;> simp [hs, promoted]
    split <;> simp [hs]
  · exact ⟨rfl, hvars₂.nextpid, hvars₂.initproc, hvars₂.ticks⟩

@[simp]
theorem promotion_state (x : Proc) :
  (promotion x).state = x.state
  := by
  simp only [promotion]
  split <;> rfl

theorem promotion_priority (x : Proc) (h : Active x.state) :
  (promotion x).priority = if x.priority < maxPrio then x.priority + 1 else x.priority
  := by
  unfold promotion
  rcases h with h | h | h
  · rw [if_pos (.inl h), promoted]
  · by_cases hlt : x.priority < maxPrio
    · rw [if_pos (.inr (.inr ⟨h, hlt⟩)), promoted]
    · rw [if_neg, if_neg hlt]
      simp [h, hlt]
  · rw [if_pos (.inr (.inl h)), promoted]

/-- The promotion of a good table. -/
theorem promoteAll_spec (h : Good t q) (ht : t.ticks ≥ t.promoteAtTime) :
  ∃ t', promoteAll t = .ok t' ∧ Good t' (raisedAll q promotedPrios) ∧
    (∀ x, t'.proc x = promotion (t.proc x)) ∧
    SameVars { t with promoteAtTime := t.ticks + TICKS_TO_PROMOTE } t'
  := by
  obtain ⟨t', hok, hl, hproc, hvars⟩ := h.toLinked.promoteAll ht
  refine ⟨t', hok, ⟨hl, ?_⟩, hproc, hvars⟩
  intro x hx
  rw [hproc] at hx ⊢
  rw [promotion_state] at hx
  have := h.bounded x hx
  rw [promotion_priority _ hx]
  split <;> omega

end Xv6.Ptable
