import Xv6.Proc.Clean

/-!
# The operations that scan the table

`wakeup1`, `kill`, the loop of `exit` over the children, and `wait`, as they are without the lists:
they visit the slots of `ptable.proc` in order.  The versions with lists do the same to the slots.
-/

namespace Xv6.Ptable

namespace Scan

/-- The slots in the order of `for(p = ptable.proc; p < &ptable.proc[NPROC]; p++)`. -/
def slots : List Slot := List.finRange NPROC

/-- The body of the loop of `wakeup1`. -/
def wakeupOne (chan : Chan) (t : PTable) (p : Slot) : PTable :=
  if (t.proc p).state = .sleeping ∧ (t.proc p).chan = chan then
    t.modify p ({ · with state := .runnable })
  else t

/-- `wakeup1`. -/
def wakeup1 (t : PTable) (chan : Chan) : PTable :=
  slots.foldl (wakeupOne chan) t

/-- The loop of `kill`. -/
def killLoop (t : PTable) (pid : UInt32) : List Slot → Int × PTable
  | [] => (-1, t)
  | p :: ps =>
      if (t.proc p).pid = pid then
        let t := t.modify p ({ · with killed := true })
        if (t.proc p).state = .sleeping then (0, t.modify p ({ · with state := .runnable }))
        else (0, t)
      else killLoop t pid ps

/-- `kill`. -/
def kill (t : PTable) (pid : Int32) : Int × PTable :=
  killLoop t pid.toUInt32 slots

/-- The body of the loop of `exit` over the children. -/
def adopt (curproc : Slot) (t : PTable) (p : Slot) : PTable :=
  if (t.proc p).parent = some curproc then
    let t := t.modify p ({ · with parent := t.initproc })
    if (t.proc p).state = .zombie then wakeup1 t (Chan.ofPtr t.initproc) else t
  else t

/-- The loop of `exit` over the children. -/
def reparent (t : PTable) (curproc : Slot) : PTable :=
  slots.foldl (adopt curproc) t

/-- `sleep`, up to the context switch. -/
def sleep (t : PTable) (p : Slot) (chan : Chan) : Except Fault PTable :=
  sched (t.modify p fun x => { x with chan := chan, state := .sleeping }) p

/-- A pass of the loop of `wait`. -/
def waitLoop (t : PTable) (curproc : Slot) :
    List Slot → Bool → Except Fault (WaitResult × PTable)
  | [], havekids =>
      if !havekids || (t.proc curproc).killed then .ok (.failed, t)
      else do
        let t ← sleep t curproc (.proc curproc)
        .ok (.asleep, t)
  | p :: ps, havekids =>
      if (t.proc p).parent ≠ some curproc then waitLoop t curproc ps havekids
      else if (t.proc p).state = .zombie then
        .ok (.reaped (t.proc p).pid, t.modify p fun x =>
          { x with kstack := false, pid := 0, parent := none, killed := false, state := .unused })
      else waitLoop t curproc ps true

/-- A pass of `wait`. -/
def wait (t : PTable) (curproc : Slot) : Except Fault (WaitResult × PTable) :=
  waitLoop t curproc slots false

/-! ### What the scans do to the slots -/

theorem mem_slots (x : Slot) :
  x ∈ slots
  := List.mem_finRange x

section

variable (chan : Chan) (t : PTable)

include chan t

theorem wakeupOne_proc (p x : Slot) :
  (wakeupOne chan t p).proc x = if x = p then woken chan (t.proc x) else t.proc x
  := by
  rw [wakeupOne]
  rcases eq_or_ne x p with rfl | hx
  · rw [if_pos rfl, woken]
    split
    · rw [PTable.modify_proc_self]
    · rfl
  · rw [if_neg hx]
    split
    · rw [PTable.modify_proc_of_ne _ _ hx]
    · rfl

theorem wakeupOne_initproc (p : Slot) :
  (wakeupOne chan t p).initproc = t.initproc
  := by
  rw [wakeupOne]
  split <;> rfl

/-- The loop of `wakeup1` wakes the slots that it visits. -/
theorem foldl_wakeupOne (l : List Slot) :
  (l.foldl (wakeupOne chan) t).initproc = t.initproc ∧
    ∀ x, (l.foldl (wakeupOne chan) t).proc x =
      if x ∈ l then woken chan (t.proc x) else t.proc x
  := by
  induction l generalizing t with
  | nil => simp
  | cons p ps ih =>
    obtain ⟨hinit, hproc⟩ := ih (wakeupOne chan t p)
    refine ⟨hinit.trans (wakeupOne_initproc ..), ?_⟩
    intro x
    rw [List.foldl_cons, hproc, wakeupOne_proc]
    by_cases hx : x = p
    · subst hx
      simp only [if_true, List.mem_cons_self, woken_idem, ite_self]
    · simp only [hx, if_false, List.mem_cons, false_or]

theorem wakeup1_proc (x : Slot) :
  (wakeup1 t chan).proc x = woken chan (t.proc x)
  := by
  rw [wakeup1, (foldl_wakeupOne chan t slots).2, if_pos (mem_slots x)]

theorem wakeup1_initproc :
  (wakeup1 t chan).initproc = t.initproc
  := (foldl_wakeupOne chan t slots).1

end

/-- The loop of `kill` fails when no slot has the pid; otherwise it kills such a slot. -/
theorem killLoop_spec (t : PTable) (pid : UInt32) (l : List Slot) :
  (killLoop t pid l = (-1, t) ∧ ∀ x ∈ l, (t.proc x).pid ≠ pid) ∨
  ∃ p ∈ l, (t.proc p).pid = pid ∧ (killLoop t pid l).1 = 0 ∧
    (killLoop t pid l).2.proc = Function.update t.proc p (killed (t.proc p))
  := by
  induction l with
  | nil =>
    left
    exact ⟨rfl, by simp⟩
  | cons p ps ih =>
    by_cases hp : (t.proc p).pid = pid
    · right
      refine ⟨p, List.mem_cons_self, hp, ?_⟩
      rw [killLoop, if_pos hp]
      by_cases hs : (t.proc p).state = .sleeping
      · simp [PTable.modify, hs, killed]
      · simp [PTable.modify, hs, killed]
    · rw [killLoop, if_neg hp]
      rcases ih with ⟨hk, hno⟩ | ⟨p', hp', hpid, hk, hproc⟩
      · left
        refine ⟨hk, ?_⟩
        intro x hx
        rcases List.mem_cons.mp hx with rfl | hx
        · exact hp
        · apply hno x hx
      · right
        exact ⟨p', List.mem_cons_of_mem p hp', hpid, hk, hproc⟩

theorem adopted_woken (curproc : Slot) (init : Option Slot) (chan : Chan) (x : Proc) :
  adopted curproc init (woken chan x) = woken chan (adopted curproc init x)
  := by
  by_cases hp : x.parent = some curproc <;> by_cases hs : x.state = .sleeping ∧ x.chan = chan <;>
    simp [adopted, woken, hp, hs]

/-- Whether some of the slots `l` is a zombie child of `curproc`. -/
def zombieIn (t : PTable) (curproc : Slot) (l : List Slot) : Bool :=
  l.any fun x => (t.proc x).state = .zombie ∧ (t.proc x).parent = some curproc

/-- What the loop of `exit` has done to a slot when it has visited the slots `l`. -/
def visited (t : PTable) (curproc : Slot) (l : List Slot) (x : Slot) : Proc :=
  let y := adoptedIn t curproc l x
  if zombieIn t curproc l then woken (Chan.ofPtr t.initproc) y else y

theorem adopt_initproc (curproc : Slot) (t : PTable) (p : Slot) :
  (adopt curproc t p).initproc = t.initproc
  := by
  simp only [adopt]
  split
  · split
    · rw [wakeup1_initproc]
      rfl
    · rfl
  · rfl

theorem adopt_proc (curproc : Slot) (t : PTable) (p x : Slot) :
  (adopt curproc t p).proc x = visited t curproc [p] x
  := by
  have hself : ∀ y, (t.modify p ({ · with parent := t.initproc })).proc y =
      if y = p then { t.proc y with parent := t.initproc } else t.proc y := by
    intro y
    rcases eq_or_ne y p with rfl | hy
    · rw [PTable.modify_proc_self, if_pos rfl]
    · rw [PTable.modify_proc_of_ne _ _ hy, if_neg hy]
  by_cases hp : (t.proc p).parent = some curproc
  · have hadopt : (if x = p then { t.proc x with parent := t.initproc } else t.proc x) =
        adoptedIn t curproc [p] x := by
      rcases eq_or_ne x p with rfl | hx
      · simp [adoptedIn_eq, adopted, hp]
      · simp [adoptedIn_eq, hx]
    by_cases hz : (t.proc p).state = .zombie
    · have hin : zombieIn t curproc [p] = true := by
        simp [zombieIn, hp, hz]
      simp only [adopt, if_pos hp, PTable.modify_proc_self, if_pos hz, wakeup1_proc, hself, visited,
        hin, if_true, hadopt]
      rfl
    · have hin : zombieIn t curproc [p] = false := by
        simp [zombieIn, hz]
      simp only [adopt, if_pos hp, PTable.modify_proc_self, if_neg hz, hself, visited, hin,
        Bool.false_eq_true, if_false, hadopt]
  · have hin : zombieIn t curproc [p] = false := by
      simp [zombieIn, hp]
    simp only [adopt, if_neg hp, visited, adoptedIn_eq, hin, Bool.false_eq_true, if_false]
    rcases eq_or_ne x p with rfl | hx
    · simp [adopted, hp]
    · simp [hx]

/-- The loop of `exit` over the children, on the slots `l`. -/
theorem foldl_adopt (curproc : Slot) (l : List Slot) (hl : l.Nodup) (t : PTable) (x : Slot) :
  (l.foldl (adopt curproc) t).proc x = visited t curproc l x
  := by
  induction l generalizing t with
  | nil => simp [visited, adoptedIn, zombieIn]
  | cons p ps ih =>
    obtain ⟨hp, hps⟩ := List.nodup_cons.mp hl
    -- a visit makes no zombie, and takes no child from a slot to visit
    have hkeeps : ∀ z ∈ ps, (((adopt curproc t p).proc z).state = .zombie ↔
        (t.proc z).state = .zombie) ∧ ((adopt curproc t p).proc z).parent = (t.proc z).parent := by
      intro z hz
      have hzp : z ∉ [p] := by
        rintro hmem
        rw [List.mem_singleton] at hmem
        apply hp (hmem ▸ hz)
      simp only [adopt_proc, visited, adoptedIn_eq, if_neg hzp]
      split
      · exact ⟨woken_state_eq_zombie_iff _ _, woken_parent _ _⟩
      · exact ⟨Iff.rfl, rfl⟩
    have hin : zombieIn (adopt curproc t p) curproc ps = zombieIn t curproc ps := by
      rw [Bool.eq_iff_iff]
      simp only [zombieIn, List.any_eq_true, decide_eq_true_eq]
      apply exists_congr
      intro z
      apply and_congr_right
      intro hz
      rw [(hkeeps z hz).1, (hkeeps z hz).2]
    have hcons : zombieIn t curproc (p :: ps) =
        (zombieIn t curproc [p] || zombieIn t curproc ps) := by
      simp [zombieIn]
    have hmem : x ∈ [p] → x ∉ ps := by
      rintro hx hxs
      rw [List.mem_singleton] at hx
      apply hp (hx ▸ hxs)
    have hmem' : x ∈ p :: ps ↔ x ∈ [p] ∨ x ∈ ps := by
      rw [List.mem_cons, List.mem_singleton]
    rw [List.foldl_cons, ih hps, visited, adoptedIn_eq, adopt_initproc, hin, adopt_proc]
    simp only [visited, adoptedIn_eq, hcons, hmem']
    by_cases hx : x ∈ [p]
    · cases zombieIn t curproc [p] <;> cases zombieIn t curproc ps <;>
        simp [hx, hmem hx, woken_idem]
    · cases zombieIn t curproc [p] <;> cases zombieIn t curproc ps <;>
        simp [hx, adopted_woken, woken_idem, ← apply_ite]

/-- A pass of `wait` over the slots `l` reaps a zombie child; if there is none, then it ends with
whether one of them is a child. -/
theorem waitLoop_spec (t : PTable) (curproc : Slot) (l : List Slot) (havekids : Bool) :
  (∃ y, (t.proc y).state = .zombie ∧ (t.proc y).parent = some curproc ∧
    waitLoop t curproc l havekids = .ok (.reaped (t.proc y).pid, t.modify y View.reaped)) ∨
  (∀ y ∈ l, (t.proc y).parent = some curproc → (t.proc y).state ≠ .zombie) ∧
    waitLoop t curproc l havekids =
      waitLoop t curproc [] (havekids || l.any fun y => (t.proc y).parent = some curproc)
  := by
  induction l generalizing havekids with
  | nil =>
    right
    simp
  | cons p ps ih =>
    by_cases hp : (t.proc p).parent = some curproc
    · by_cases hz : (t.proc p).state = .zombie
      · left
        refine ⟨p, hz, hp, ?_⟩
        rw [waitLoop, if_neg (not_not.mpr hp), if_pos hz]
        rfl
      · have hstep : waitLoop t curproc (p :: ps) havekids = waitLoop t curproc ps true := by
          rw [waitLoop, if_neg (not_not.mpr hp), if_neg hz]
        rw [hstep]
        rcases ih true with hr | ⟨hno, heq⟩
        · left
          exact hr
        · right
          constructor
          · intro y hy hpar
            rcases List.mem_cons.mp hy with rfl | hy
            · exact hz
            · apply hno y hy hpar
          · rw [heq]
            simp [hp]
    · have hstep : waitLoop t curproc (p :: ps) havekids = waitLoop t curproc ps havekids := by
        rw [waitLoop, if_pos hp]
      rw [hstep]
      rcases ih havekids with hr | ⟨hno, heq⟩
      · left
        exact hr
      · right
        constructor
        · intro y hy hpar
          rcases List.mem_cons.mp hy with rfl | hy
          · cases hp hpar
          · apply hno y hy hpar
        · rw [heq]
          simp [hp]

end Scan

/-! ### The lists refine the scans -/

section

variable {t : PTable} {q : ListId → List Slot}

theorem wakeup1_refines (h : Good t q) (chan : Chan) :
  ∃ t', wakeup1 t chan = .ok t' ∧ t'.proc = (Scan.wakeup1 t chan).proc
  := by
  obtain ⟨t', ht', -, hproc, -⟩ := wakeup1_spec h chan
  refine ⟨t', ht', ?_⟩
  funext x
  rw [hproc, Scan.wakeup1_proc]

theorem mem_scanStates (s : ProcState) :
  s ∈ scanStates ↔ s ≠ .unused
  := by
  cases s <;> decide

theorem kill_refines
    (h : Good t q)
    (hpids : ∀ x y, (t.proc x).state ≠ .unused → (t.proc y).state ≠ .unused →
      (t.proc x).pid = (t.proc y).pid → x = y)
    {pid : Int32} (hfree : ∀ x, (t.proc x).state = .unused → (t.proc x).pid ≠ pid.toUInt32) :
  ∃ t', kill t pid = .ok ((Scan.kill t pid).1, t') ∧ t'.proc = (Scan.kill t pid).2.proc
  := by
  -- a slot with the pid is in use
  have hused : ∀ x, (t.proc x).pid = pid.toUInt32 → (t.proc x).state ≠ .unused := by
    intro x hx hs
    apply hfree x hs hx
  rw [Scan.kill]
  rcases kill_spec h pid with ⟨hk, hfinds⟩ | ⟨p, id, t', q', hk, hfinds, -, -, hproc, honly⟩
  · rcases Scan.killLoop_spec t pid.toUInt32 Scan.slots with ⟨hs, -⟩ | ⟨x, -, hx, -⟩
    · rw [hs]
      exact ⟨t, hk, rfl⟩
    · cases hfinds x ((mem_scanStates _).mpr (hused x hx)) hx
  · obtain ⟨-, -, hpid⟩ := hfinds
    rcases Scan.killLoop_spec t pid.toUInt32 Scan.slots with ⟨-, hno⟩ | ⟨x, -, hx, hzero, hs⟩
    · cases hno p (Scan.mem_slots p) hpid
    · obtain rfl := hpids p x (hused p hpid) (hused x hx) (hpid.trans hx.symm)
      rw [hzero, hs]
      exact ⟨t', hk, honly.proc_eq hproc⟩

theorem reparent_refines
    (h : Good t q) {curproc : Slot}
    (hfree : ∀ x, (t.proc x).state = .unused → (t.proc x).parent ≠ some curproc) :
  ∃ t', scanStates.foldlM (adoptState curproc) t = .ok t' ∧
    t'.proc = (Scan.reparent t curproc).proc
  := by
  obtain ⟨t', q', ht', -, -, hproc, -⟩ := reparent_spec h curproc
  refine ⟨t', ht', ?_⟩
  funext x
  have hadopt : (if (t.proc x).state ≠ .unused then adopted curproc t.initproc (t.proc x)
      else t.proc x) = adopted curproc t.initproc (t.proc x) := by
    split
    · rfl
    · rename_i hs
      rw [adopted, if_neg (hfree x (not_not.mp hs))]
  rw [hproc, Scan.reparent, Scan.foldl_adopt curproc Scan.slots (List.nodup_finRange NPROC),
    reparented, hadopt, Scan.visited, adoptedIn_eq, if_pos (Scan.mem_slots x)]
  rfl

/-- Both versions of `wait` reap a child, fail, or sleep. -/
def SameWait (t : PTable) (curproc : Slot) : Prop :=
  (∃ x y t₁ t₂, wait t curproc = .ok (.reaped (t.proc x).pid, t₁) ∧
    Scan.wait t curproc = .ok (.reaped (t.proc y).pid, t₂) ∧
    ((t.proc x).state = .zombie ∧ (t.proc x).parent = some curproc) ∧
    (t.proc y).state = .zombie ∧ (t.proc y).parent = some curproc) ∨
  (wait t curproc = .ok (.failed, t) ∧ Scan.wait t curproc = .ok (.failed, t)) ∨
  ∃ t₁ t₂, wait t curproc = .ok (.asleep, t₁) ∧ Scan.wait t curproc = .ok (.asleep, t₂)

theorem wait_refines
    (h : Good t q) {curproc : Slot} (hrun : (t.proc curproc).state = .running)
    (hfree : ∀ x, (t.proc x).state = .unused → (t.proc x).parent ≠ some curproc) :
  SameWait t curproc
  := by
  rcases Scan.waitLoop_spec t curproc Scan.slots false with ⟨y, hy, hypar, hs⟩ | ⟨hno, hs⟩
  · rcases wait_spec h hrun with ⟨x, t', hw, hx, hxpar, -⟩ | ⟨hno, -⟩
    · left
      exact ⟨x, y, t', _, hw, hs, ⟨hx, hxpar⟩, hy, hypar⟩
    · cases hno y hy hypar
  · -- neither version finds a zombie child
    rw [Bool.false_or] at hs
    rcases wait_spec h hrun with ⟨x, t', -, hx, hxpar, -⟩ |
      ⟨-, ⟨hw, hkids⟩ | ⟨t', hw, -, ⟨x, -, hxpar⟩, hkilled⟩⟩
    · cases hno x (Scan.mem_slots x) hxpar hx
    · right
      left
      refine ⟨hw, ?_⟩
      rw [Scan.wait, hs, Scan.waitLoop, if_pos]
      rw [Bool.or_eq_true, Bool.not_eq_true', List.any_eq_false]
      rcases hkids with hkids | hkilled
      · left
        intro x _
        rw [decide_eq_true_eq]
        by_cases hx : (t.proc x).state = .unused
        · apply hfree x hx
        · apply hkids x hx
      · right
        exact hkilled
    · right
      right
      have hany : (Scan.slots.any fun y => (t.proc y).parent = some curproc) = true := by
        rw [List.any_eq_true]
        exact ⟨x, Scan.mem_slots x, decide_eq_true hxpar⟩
      have hsleep : ∃ t₂, Scan.sleep t curproc (.proc curproc) = .ok t₂ := by
        rw [Scan.sleep, sched_eq]
        · exact ⟨_, rfl⟩
        · rw [PTable.modify_proc_self]
          simp
      obtain ⟨t₂, ht₂⟩ := hsleep
      refine ⟨t', t₂, hw, ?_⟩
      rw [Scan.wait, hs, Scan.waitLoop, hany, hkilled, ht₂]
      rfl

/-- The operations with lists refine those that scan the table.  On every table with the list
invariant, with priorities in range and distinct pids: `wakeup1` does the same to every slot; so do
`kill`, with the same result, if no free slot holds the pid, and the loop of `exit` over the
children, if no free slot has the process as its parent; and then `wait` of a running process reaps
a child, fails or sleeps in the same cases. -/
theorem lists_refine_scans
    (h : ListInvariant t q)
    (hprio : ∀ p, Active (t.proc p).state → (t.proc p).priority ≤ maxPrio)
    (hpids : ∀ x y, (t.proc x).state ≠ .unused → (t.proc y).state ≠ .unused →
      (t.proc x).pid = (t.proc y).pid → x = y) :
  (∀ chan, ∃ t', wakeup1 t chan = .ok t' ∧ t'.proc = (Scan.wakeup1 t chan).proc) ∧
  (∀ pid : Int32, (∀ x, (t.proc x).state = .unused → (t.proc x).pid ≠ pid.toUInt32) →
    ∃ t', kill t pid = .ok ((Scan.kill t pid).1, t') ∧ t'.proc = (Scan.kill t pid).2.proc) ∧
  ∀ curproc, (∀ x, (t.proc x).state = .unused → (t.proc x).parent ≠ some curproc) →
    (∃ t', scanStates.foldlM (adoptState curproc) t = .ok t' ∧
      t'.proc = (Scan.reparent t curproc).proc) ∧
    ((t.proc curproc).state = .running → SameWait t curproc)
  := by
  have hgood : Good t q := ⟨h.linked, hprio⟩
  refine ⟨fun chan => wakeup1_refines hgood chan, fun pid => kill_refines hgood hpids, ?_⟩
  intro curproc hfree
  exact ⟨reparent_refines hgood hfree, fun hrun => wait_refines hgood hrun hfree⟩

instance (s : ProcState) : Decidable (Active s) :=
  inferInstanceAs (Decidable (_ ∨ _ ∨ _))

/-- `init` has forked, and its child sleeps.  It can be woken up or killed, and `init` can wait for
it. -/
theorem lists_refine_scans_of_child :
  ∃ (t : PTable) (q : ListId → List Slot) (t₁ t₂ : PTable), ListInvariant t q ∧
    (t.proc 1).state = .sleeping ∧ (t.proc 1).parent = some 0 ∧
    (wakeup1 t .null = .ok t₁ ∧ t₁.proc = (Scan.wakeup1 t .null).proc) ∧
    (kill t 2 = .ok ((Scan.kill t 2).1, t₂) ∧ t₂.proc = (Scan.kill t 2).2.proc) ∧ SameWait t 0
  := by
  obtain ⟨t, q, hq, ⟨hrunning, hsleeping, hparent⟩, hprio, hpids, hpid, hfree⟩ :=
    exists_good (forkRun ++ [.sleep 1 .null])
      (fun t => ((t.proc 0).state = .running ∧ (t.proc 1).state = .sleeping ∧
          (t.proc 1).parent = some 0) ∧
        (∀ p, Active (t.proc p).state → (t.proc p).priority ≤ maxPrio) ∧
        (∀ x y, (t.proc x).state ≠ .unused → (t.proc y).state ≠ .unused →
          (t.proc x).pid = (t.proc y).pid → x = y) ∧
        (∀ x, (t.proc x).state = .unused → (t.proc x).pid ≠ (2 : Int32).toUInt32) ∧
        ∀ x, (t.proc x).state = .unused → (t.proc x).parent ≠ some 0) (by decide +kernel)
  obtain ⟨hwakeup, hkill, hrest⟩ := lists_refine_scans hq.listInvariant hprio hpids
  obtain ⟨t₁, ht₁⟩ := hwakeup .null
  obtain ⟨t₂, ht₂⟩ := hkill 2 hpid
  exact ⟨t, q, t₁, t₂, hq.listInvariant, hsleeping, hparent, ht₁, ht₂, (hrest 0 hfree).2 hrunning⟩

/-- The pids are distinct, and the slot `5` has the running process `1` as its parent.  The versions
without lists take it for a child: the loop of `exit` changes its parent, and `wait` sleeps, where
the version with lists fails. -/
def SeesChild (t : PTable) : Prop :=
  (∀ x y, (t.proc x).state ≠ .unused → (t.proc y).state ≠ .unused →
    (t.proc x).pid = (t.proc y).pid → x = y) ∧
  (t.proc 1).state = .running ∧
  (scanStates.foldlM (adoptState 1) t).toOption.map (fun t' => (t'.proc 5).parent) =
    some (some 1) ∧
  ((Scan.reparent t 1).proc 5).parent = some 0 ∧
  (wait t 1).toOption.map (·.1) = some .failed ∧
  (Scan.wait t 1).toOption.map (·.1) = some .asleep

/-- The pids are distinct, and the process `1` sleeps.  Only the version without lists wakes it
up. -/
def WakesAbove (t : PTable) : Prop :=
  (∀ x y, (t.proc x).state ≠ .unused → (t.proc y).state ≠ .unused →
    (t.proc x).pid = (t.proc y).pid → x = y) ∧
  (t.proc 1).state = .sleeping ∧ (wakeup1 t .null).toOption.isNone ∧
  ((Scan.wakeup1 t .null).proc 1).state = .runnable

instance (t : PTable) : Decidable (SeesChild t) :=
  inferInstanceAs (Decidable (_ ∧ _ ∧ _ ∧ _ ∧ _ ∧ _))

instance (t : PTable) : Decidable (WakesAbove t) :=
  inferInstanceAs (Decidable (_ ∧ _ ∧ _ ∧ _))

/-- The versions differ when a free slot keeps a running process as its parent, and when the
priority of a sleeping process is above `MAXPRIO`. -/
theorem scans_see_free_children :
  (∃ (t : PTable) (q : ListId → List Slot), ListInvariant t q ∧
    (∀ p, Active (t.proc p).state → (t.proc p).priority ≤ maxPrio) ∧
    (t.proc 5).state = .unused ∧ SeesChild t) ∧
  ∃ (t : PTable) (q : ListId → List Slot), ListInvariant t q ∧
    (∀ x, (t.proc x).state = .unused → (t.proc x).parent = none) ∧ WakesAbove t
  := by
  constructor
  · obtain ⟨t, q, hq, hfree, hdiff⟩ := exists_good forkRun
      (fun t => ((t.modify 5 ({ · with parent := some 1 })).proc 5).state = .unused ∧
        SeesChild (t.modify 5 ({ · with parent := some 1 }))) (by decide +kernel)
    have hq' : Good (t.modify 5 ({ · with parent := some 1 })) q := hq.modify_same rfl rfl
    exact ⟨_, q, hq'.listInvariant, hq'.bounded, hfree, hdiff⟩
  · obtain ⟨t, q, hq, hne, hdiff⟩ := exists_good (forkRun ++ [.sleep 1 .null])
      (fun t => (t.proc 1).state ≠ .runnable ∧
        (∀ x, ((t.modify 1 ({ · with priority := maxPrio + 1 })).proc x).state = .unused →
          ((t.modify 1 ({ · with priority := maxPrio + 1 })).proc x).parent = none) ∧
        WakesAbove (t.modify 1 ({ · with priority := maxPrio + 1 }))) (by decide +kernel)
    exact ⟨_, q, hq.listInvariant_priority hne, hdiff⟩

end

end Xv6.Ptable
