import Xv6.Proc.Returns

/-!
# `setpriority` and `getpriority`

The calls find a process by its pid, and they accept pids up to 32767 only, while `allocproc` gives
out pids without a bound.  As long as it gives out no pid above 32767, every live process can be
found.
-/

namespace Xv6.Ptable

variable {t : PTable} {q : ListId → List Slot} {p : Slot} {pid priority : Int32}

/-! ### What the calls do -/

/-- The only slot with the pid, among those that `getpriority` looks at, is the one it finds. -/
theorem getpriority_eq
    (h : ListInvariant t q) (hpid : ¬ (pid < 0 ∨ pid > 32767)) (hp : Active (t.proc p).state)
    (hpp : (t.proc p).pid = pid.toUInt32)
    (hunique : ∀ x, (t.proc x).state ≠ .unused → (t.proc x).pid = pid.toUInt32 → x = p) :
  getpriority t pid = .ok (.ofNat (t.proc p).priority)
  := by
  obtain ⟨o, ho, hfinds⟩ := findPid_spec h.linked (fun _ => h.homed) pid.toUInt32
    [.sleeping, .runnable, .running, .zombie]
  rw [getpriority, if_neg hpid, ho]
  simp only [bind, Except.bind]
  cases o with
  | none =>
    refine absurd hpp (hfinds p ?_)
    rcases hp with hs | hs | hs <;> simp [hs]
  | some r =>
    obtain ⟨id, x⟩ := r
    obtain ⟨-, hstate, hx⟩ := hfinds
    have hne : (t.proc x).state ≠ .unused := by
      intro hs
      simp [hs] at hstate
    rw [hunique x hne hx]

/-- The ready lists when a slot moves from one to another. -/
theorem move_ready_ready
    (q : ListId → List Slot) (p : Slot) {i j : Fin (maxPrio + 1)} (hij : i ≠ j)
    (k : Fin (maxPrio + 1)) :
  move q p (.ready i) (.ready j) (.ready k) =
    if k = j then q (.ready k) ++ [p] else if k = i then (q (.ready k)).erase p else q (.ready k)
  := by
  rcases eq_or_ne k j with rfl | hj
  · simp [move, hij.symm]
  · rcases eq_or_ne k i with rfl | hi
    · simp [move, hj]
    · simp [move, hj, hi]

/-- What the argument checks of the calls accept. -/
theorem validPriority_iff :
  ValidPriority pid priority ↔
    (0 ≤ pid ∧ pid ≤ 32767) ∧ 0 ≤ priority ∧ priority.toInt ≤ maxPrio
  := by
  simp only [ValidPriority, not_or, Int32.not_lt, gt_iff_lt, not_lt]

/-- No two slots in use have the same pid. -/
def DistinctPids (t : PTable) : Prop :=
  ∀ x y, (t.proc x).state ≠ .unused → (t.proc y).state ≠ .unused →
    (t.proc x).pid = (t.proc y).pid → x = y

theorem Active.ne_unused {s : ProcState} (h : Active s) : s ≠ .unused := by
  rintro rfl
  simp [Active] at h

theorem active_iff_mem {s : ProcState} :
  Active s ↔ s ∈ [ProcState.sleeping, .runnable, .running]
  := by
  simp [Active]

/-- `setpriority` with the pid of an active process and a priority in range. -/
theorem ListInvariant.setpriority_ok
    (h : ListInvariant t q) (hpids : DistinctPids t) (hv : ValidPriority pid priority)
    (hp : Active (t.proc p).state) (hpp : (t.proc p).pid = pid.toUInt32) :
  ∃ t' q', setpriority t pid priority = .ok (0, t') ∧ ListInvariant t' q' ∧
    getpriority t' pid = .ok priority ∧
    t'.proc p = reprioritized priority.toInt.toNat (t.proc p) ∧ ChangesOnly p t t' ∧
    q' = if (t.proc p).state = .runnable ∧ (t.proc p).priority ≠ priority.toInt.toNat then
        move q p (.ready (Fin.ofNat _ (t.proc p).priority))
          (.ready (Fin.ofNat _ priority.toInt.toNat))
      else q
  := by
  rcases h.linked.setpriority (fun _ => h.homed) pid priority with
    ⟨-, hnone⟩ | ⟨x, id, t', q', hok, -, hfinds, hl, hproc, hch, hq'⟩
  · exact absurd hpp (hnone hv p (active_iff_mem.mp hp))
  obtain ⟨-, hstate, hxp⟩ := hfinds
  obtain rfl : x = p :=
    hpids x p (active_iff_mem.mpr hstate).ne_unused hp.ne_unused (hxp.trans hpp.symm)
  have hlists : ListInvariant t' q' := by
    apply hl.listInvariant
    intro y hy
    rcases eq_or_ne y x with rfl | hne
    · rw [hproc, reprioritized_priority]
      apply hv.toNat_le
    · rw [hch.others y hne] at hy ⊢
      apply h.homed hy
  refine ⟨t', q', hok, hlists, ?_, hproc, hch, hq'⟩
  have hget : getpriority t' pid = .ok (.ofNat (t'.proc x).priority) := by
    apply getpriority_eq hlists hv.1
    · rw [hproc, reprioritized_state]
      exact hp
    · rw [hproc, (Stays.reprioritized _ _).pid, hpp]
    · intro y hy hyp
      by_contra hne
      rw [hch.others y hne] at hy hyp
      exact hne (hpids y x hy hp.ne_unused (hyp.trans hpp.symm))
  rw [hget, hproc, reprioritized_priority]
  exact congrArg Except.ok (Int32.ofNat_toNatClampNeg _ (validPriority_iff.mp hv).2.1)

/-- `setpriority` succeeds exactly on arguments in range with the pid of a sleeping, runnable or
running process.  Then `getpriority` returns the new priority; only the priority and the budget of
that process change, the budget exactly if the priority does; and a runnable process whose
priority changes moves to the end of its new ready list, with all lists else in their order.  If
`setpriority` fails then nothing changes. -/
theorem setpriority_getpriority
    (h : ListInvariant t q) (hpids : DistinctPids t) (pid priority : Int32) :
  ∃ r t' q', setpriority t pid priority = .ok (r, t') ∧ ListInvariant t' q' ∧
    (r = 0 ↔ (0 ≤ pid ∧ pid ≤ 32767) ∧ (0 ≤ priority ∧ priority.toInt ≤ maxPrio) ∧
      ∃ p, Active (t.proc p).state ∧ (t.proc p).pid = pid.toUInt32) ∧
    (r ≠ 0 → r = -1 ∧ t' = t ∧ q' = q) ∧
    ∀ p, r = 0 → Active (t.proc p).state → (t.proc p).pid = pid.toUInt32 →
      getpriority t' pid = .ok priority ∧
      t'.proc p = { t.proc p with
        priority := priority.toInt.toNat
        budget := if (t.proc p).priority = priority.toInt.toNat then (t.proc p).budget
          else BUDGET } ∧
      ChangesOnly p t t' ∧
      (∀ s, q' (.list s) = q (.list s)) ∧
      if (t.proc p).state = .runnable ∧ (t.proc p).priority ≠ priority.toInt.toNat then
        ∀ j : Fin (maxPrio + 1), q' (.ready j) =
          if (j : Nat) = priority.toInt.toNat then q (.ready j) ++ [p]
          else if (j : Nat) = (t.proc p).priority then (q (.ready j)).erase p
          else q (.ready j)
      else q' = q
  := by
  by_cases hcalls : ValidPriority pid priority ∧
      ∃ p, Active (t.proc p).state ∧ (t.proc p).pid = pid.toUInt32
  · obtain ⟨hv, p, hp, hpp⟩ := hcalls
    obtain ⟨t', q', hok, hlists, hget, hproc, hch, hq'⟩ := h.setpriority_ok hpids hv hp hpp
    obtain ⟨hpid, hprio⟩ := validPriority_iff.mp hv
    refine ⟨0, t', q', hok, hlists, ⟨fun _ => ⟨hpid, hprio, p, hp, hpp⟩, fun _ => rfl⟩,
      fun hr => absurd rfl hr, ?_⟩
    intro x _ hx hxp
    obtain rfl : p = x := hpids p x hp.ne_unused hx.ne_unused (hpp.trans hxp.symm)
    refine ⟨hget, ?_, hch, ?_, ?_⟩
    · rw [hproc]
      generalize priority.toInt.toNat = n
      by_cases heq : (t.proc p).priority = n
      · simp [reprioritized, ← heq]
      · simp [reprioritized, heq]
    · intro s
      rw [hq']
      split
      · simp [move]
      · rfl
    · rw [hq']
      split
      · rename_i hmoved
        intro j
        have hold := Nat.mod_eq_of_lt (Nat.lt_succ_of_le (h.homed hmoved.1))
        have hnew := Nat.mod_eq_of_lt (Nat.lt_succ_of_le hv.toNat_le)
        rw [move_ready_ready]
        · simp only [Fin.ext_iff, Fin.val_ofNat, hold, hnew]
        · intro heq
          apply hmoved.2
          rw [← hold, ← hnew]
          exact congrArg Fin.val heq
      · rfl
  · have hfail : setpriority t pid priority = .ok (-1, t) := by
      rcases h.linked.setpriority (fun _ => h.homed) pid priority with
        ⟨hfail, -⟩ | ⟨p, id, -, -, -, hv, ⟨-, hstate, hpp⟩, -⟩
      · exact hfail
      · exact absurd ⟨hv, p, active_iff_mem.mpr hstate, hpp⟩ hcalls
    refine ⟨-1, t, q, hfail, h, ⟨by simp, ?_⟩, fun _ => ⟨rfl, rfl, rfl⟩, by simp⟩
    rintro ⟨hpid, hprio, hp⟩
    exact absurd ⟨validPriority_iff.mpr ⟨hpid, hprio⟩, hp⟩ hcalls

/-- After `init` has forked, the calls work on the child. -/
theorem setpriority_getpriority_child :
  ∃ (t : PTable) (q : ListId → List Slot), ListInvariant t q ∧ DistinctPids t ∧
    ∃ t', setpriority t 2 3 = .ok (0, t') ∧ getpriority t' 2 = .ok 3 ∧ (t'.proc 1).budget = BUDGET
  := by
  obtain ⟨t, q, hq, hstate, hpid, hprio, hpids⟩ := exists_good forkRun
    (fun t => (t.proc 1).state = .running ∧ (t.proc 1).pid = 2 ∧ (t.proc 1).priority = 6 ∧
      ∀ x y, (t.proc x).state ≠ .unused → (t.proc y).state ≠ .unused →
        (t.proc x).pid = (t.proc y).pid → x = y) (by decide +kernel)
  obtain ⟨r, t', q', hok, -, hiff, -, hset⟩ := setpriority_getpriority hq.listInvariant hpids 2 3
  have hactive : Active (t.proc 1).state := .inr (.inr hstate)
  obtain rfl : r = 0 := hiff.mpr ⟨by decide, by decide, 1, hactive, hpid⟩
  obtain ⟨hget, hproc, -⟩ := hset 1 rfl hactive hpid
  refine ⟨t, q, hq.listInvariant, hpids, t', hok, hget, ?_⟩
  rw [hproc, hprio]
  rfl

/-! ### Pids -/

section

variable {v v' : View} {l : Label} {d : Option Slot}

theorem View.Waited.nextpid {c : Cpu} (h : View.Waited v c p v') :
  v'.nextpid = v.nextpid
  := by
  cases h <;> rfl

theorem View.Resumed.nextpid {c : Cpu} (h : View.Resumed v c p v') :
  v'.nextpid = v.nextpid
  := by
  have htidy : (v.tidy p).nextpid = v.nextpid := by
    rw [View.tidy]
    split <;> rfl
  rw [View.Resumed] at h
  split at h
  · rw [h.nextpid, htidy]
  · rw [h, htidy]

/-- A step takes the next pid for a slot, or it leaves the next pid and allocates no slot. -/
theorem View.Step.nextpid (h : View.Step v l d v') :
  (∃ np, l.allocates ∧ v'.nextpid = v.nextpid + 1 ∧
    ∀ x, x ≠ np → v'.proc x = v.proc x) ∨
  v'.nextpid = v.nextpid ∧ (l.allocates → v'.proc = v.proc)
  := by
  have hpromote : v.promote.nextpid = v.nextpid := by
    rw [View.promote]
    split <;> rfl
  have hno {P : Prop} : false = true → P := by
    intro h
    cases h
  cases h with
  | tick => exact .inr ⟨rfl, hno⟩
  | idle => exact .inr ⟨hpromote, hno⟩
  | dispatch hc hp hmax hres => exact .inr ⟨hres.nextpid.trans hpromote, hno⟩
  | wakeup | killNone | kill | setpriorityNone | setpriority => exact .inr ⟨rfl, hno⟩
  | boot h =>
    cases h with
    | @alloc np => exact .inl ⟨np, rfl, rfl, fun x hx => View.alloc_proc_of_ne v hx⟩
    | kalloc | setup | enqueue => exact .inr ⟨rfl, hno⟩
  | on hc h =>
    cases h with
    | wait hcall hw => exact .inr ⟨hw.nextpid, hno⟩
    | allocNone => exact .inr ⟨rfl, fun _ => rfl⟩
    | @alloc _ np hl hnp =>
      left
      refine ⟨np, ?_, rfl, ?_⟩
      · rcases hl with ⟨rfl, -⟩ | ⟨rfl, -⟩ <;> rfl
      · intro x hx
        rw [View.setCall_proc, View.alloc_proc_of_ne v hx]
    | rollback hl =>
      right
      rcases hl with ⟨rfl, -⟩ | ⟨rfl, -⟩ <;> exact ⟨rfl, hno⟩
    | _ => exact .inr ⟨rfl, hno⟩

end

/-- A step does not give out a pid that the calls reject. -/
def PidFits (s : Sys) (l : Label) : Prop :=
  l.allocates = true → s.pt.nextpid ≤ 32767

instance (s : Sys) (l : Label) : Decidable (PidFits s l) :=
  inferInstanceAs (Decidable (_ → _))

/-- The pids given out so far are below the next pid, and no two slots in use share one. -/
structure PidsBelow (v : View) : Prop where
  next : v.nextpid.toNat ≤ 32768
  below : ∀ x, (v.proc x).state ≠ .unused → (v.proc x).pid.toNat < v.nextpid.toNat
  distinct : ∀ x y, (v.proc x).state ≠ .unused → (v.proc y).state ≠ .unused →
    (v.proc x).pid = (v.proc y).pid → x = y

/-- The slots in use keep their pids, apart from at most one, which gets the next pid. -/
theorem PidsBelow.of_kept
    {v v' : View} (h : PidsBelow v) (np : Slot) (hle : v'.nextpid.toNat ≤ 32768)
    (hnext : v.nextpid.toNat ≤ v'.nextpid.toNat)
    (hkept : ∀ x, (v'.proc x).state ≠ .unused →
      ((v.proc x).state ≠ .unused ∧ (v'.proc x).pid = (v.proc x).pid) ∨
        x = np ∧ (v'.proc x).pid = v.nextpid ∧ v.nextpid.toNat < v'.nextpid.toNat) :
  PidsBelow v'
  := by
  refine ⟨hle, ?_, ?_⟩
  · intro x hx
    rcases hkept x hx with ⟨hs, hpid⟩ | ⟨-, hpid, hlt⟩
    · rw [hpid]
      exact (h.below x hs).trans_le hnext
    · rw [hpid]
      exact hlt
  · intro x y hx hy hxy
    rcases hkept x hx with ⟨hsx, hpx⟩ | ⟨rfl, hpx, -⟩
    · rcases hkept y hy with ⟨hsy, hpy⟩ | ⟨rfl, hpy, -⟩
      · rw [hpx, hpy] at hxy
        apply h.distinct x y hsx hsy hxy
      · rw [hpx, hpy] at hxy
        have := h.below x hsx
        rw [hxy] at this
        omega
    · rcases hkept y hy with ⟨hsy, hpy⟩ | ⟨rfl, -⟩
      · rw [hpx, hpy] at hxy
        have := h.below y hsy
        rw [← hxy] at this
        omega
      · rfl

theorem PidsBelow.step
    {s : Sys} {v' : View} {l : Label} {d : Option Slot} (h : PidsBelow s.view) (hinv : Inv s)
    (hok : PidFits s l) (hstep : View.Step s.view l d v') :
  PidsBelow v'
  := by
  have hturns := turns_of_step hinv hstep
  rcases hstep.nextpid with ⟨np, hl, hnext, hothers⟩ | ⟨hnext, hsame⟩
  · have hle : s.view.nextpid.toNat ≤ 32767 := UInt32.le_iff_toNat_le.mp (hok hl)
    have hsucc : v'.nextpid.toNat = s.view.nextpid.toNat + 1 := by
      rw [hnext, UInt32.toNat_add, UInt32.toNat_one]
      omega
    apply h.of_kept np (by omega) (by omega)
    intro x hx
    rcases eq_or_ne x np with rfl | hne
    · rcases (hturns x).used hx with hold | ⟨hpid, -⟩
      · exact .inl hold
      · exact .inr ⟨rfl, hpid, by omega⟩
    · left
      rw [hothers x hne] at hx ⊢
      exact ⟨hx, rfl⟩
  · apply h.of_kept 0 (hnext ▸ h.next) (by rw [hnext])
    intro x hx
    left
    rcases (hturns x).used hx with hold | ⟨-, hl⟩
    · exact hold
    · rw [hsame hl] at hx ⊢
      exact ⟨hx, rfl⟩

theorem pidsBelow_of_reach {s : Sys} (h : kernel.Reach PidFits s) :
  PidsBelow s.view ∧ Inv s
  := by
  induction h with
  | @init s h =>
    refine ⟨⟨?_, ?_, ?_⟩, inv_of_booted h⟩
    · change s.pt.nextpid.toNat ≤ 32768
      obtain ⟨_, _, -, -, hvars⟩ := h.table
      rw [show s.pt.nextpid = 1 from hvars.nextpid]
      decide
    · intro x hx
      cases hx (congrArg Proc.state (h.proc_eq x))
    · intro x y hx
      cases hx (congrArg Proc.state (h.proc_eq x))
  | step hreach hok hstep ih =>
    obtain ⟨hpids, hinv⟩ := ih
    exact ⟨hpids.step hinv hok (hinv.view_step hstep),
      inv_of_reachable (.step (hreach.mono fun _ _ _ => trivial) trivial hstep)⟩

/-- A small pid passes the check of the calls. -/
theorem toInt32_in_range {pid : UInt32} (h : pid.toNat < 32768) :
  0 ≤ pid.toInt32 ∧ pid.toInt32 ≤ 32767
  := by
  have hpid : pid.toInt32.toInt = pid.toNat := by
    apply BitVec.toInt_eq_toNat_of_lt (x := pid.toBitVec)
    rw [UInt32.toNat_toBitVec]
    omega
  have hmax : (32767 : Int32).toInt = 32767 := by
    decide
  rw [Int32.le_iff_toInt_le, Int32.le_iff_toInt_le, hpid, hmax, Int32.toInt_zero]
  omega

/-- In every run in which `allocproc` gives out no pid above 32767, the priority of every
sleeping, runnable or running process can be set and read. -/
theorem live_process_addressable
    {s : Sys} (h : kernel.Reach PidFits s) {p : Slot} (hp : Active (s.pt.proc p).state)
    {priority : Int32} (hlow : 0 ≤ priority) (hhigh : priority.toInt ≤ maxPrio) :
  ∃ t', setpriority s.pt (s.pt.proc p).pid.toInt32 priority = .ok (0, t') ∧
    getpriority t' (s.pt.proc p).pid.toInt32 = .ok priority
  := by
  obtain ⟨hpids, hinv⟩ := pidsBelow_of_reach h
  obtain ⟨q, hq⟩ := hinv.good
  have hbound : (s.pt.proc p).pid.toNat < 32768 :=
    (hpids.below p hp.ne_unused).trans_le hpids.next
  have hv : ValidPriority (s.pt.proc p).pid.toInt32 priority := by
    apply validPriority_iff.mpr
    exact ⟨toInt32_in_range hbound, hlow, hhigh⟩
  obtain ⟨t', -, hok, -, hget, -⟩ := hq.listInvariant.setpriority_ok hpids.distinct hv hp
    (UInt32.toUInt32_toInt32 _).symm
  exact ⟨t', hok, hget⟩

/-- The priority of `init` can be set and read. -/
theorem live_process_addressable_init :
  ∃ s t', kernel.Reach PidFits s ∧ (s.pt.proc 0).state = .running ∧
    setpriority s.pt (s.pt.proc 0).pid.toInt32 0 = .ok (0, t') ∧
    getpriority t' (s.pt.proc 0).pid.toInt32 = .ok 0
  := by
  obtain ⟨s, hreach, hstate⟩ := System.exists_of_guard PidFits kernel booted_firstSys
    initRun (fun s => (s.pt.proc 0).state = .running) (by decide +kernel)
  obtain ⟨t', hset, hget⟩ := live_process_addressable hreach (p := 0)
    (.inr (.inr hstate)) (show (0 : Int32) ≤ 0 by decide) (by decide)
  exact ⟨s, t', hreach, hstate, hset, hget⟩

/-- `init` calls `fork` without success until the next pid is 32768.  Then `fork` succeeds, and the
priority of the child can be neither set nor read. -/
theorem child_not_addressable :
  ∃ s p, kernel.Reachable s ∧ (s.pt.proc p).state = .runnable ∧
    setpriority s.pt (s.pt.proc p).pid.toInt32 0 = .ok (-1, s.pt) ∧
    getpriority s.pt (s.pt.proc p).pid.toInt32 = .ok (-1)
  := by
  obtain ⟨s, g, hreach, halone, hpid⟩ := InitAlone.of_initRun
  obtain ⟨s₁, g₁, hreach₁, halone₁, hpid₁⟩ := halone.failedForks hreach 32766
  obtain ⟨np, s₂, g₂, hreach₂, hparent₂, -⟩ := halone₁.fork hreach₁
  have hchild : (s₂.pt.proc np).pid = 32768 := by
    rw [show (s₂.pt.proc np).pid = _ from hparent₂.pid, hpid₁, hpid]
    decide
  refine ⟨s₂, np, hreach₂.observed, hparent₂.state, ?_, ?_⟩
  · rw [hchild, setpriority, if_pos (by decide)]
  · rw [hchild, getpriority, if_pos (by decide)]

end Xv6.Ptable
