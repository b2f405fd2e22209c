import Xv6.Proc.SleepLoop

/-!
# The invariant of the sleeping and waking processes

The invariant has four parts: the locks are held by the agents whose program says so, the
processors have the processes that do not wait for one, the table is what the critical section in
progress makes of a well-formed one (`Snapshot`), and whoever fell asleep after testing `cond` as
false did so before a `wakeup` that is still to come (`Heard`).  It is kept by the moves of a
process outside the critical sections on the table.
-/

namespace Xv6.Ptable.SleepLoop

variable {lk : LockName} {chan : Chan}

/-! ### Who holds which lock -/

/-- The locks that an agent holds. -/
def St.holds (lk : LockName) (s : St) : Agent → LockName → Prop
  | .proc p, l => (s.pc p).holds lk l
  | .scheduler c, l => l = .ptable ∧
      match s.sched c with
      | .inside _ | .back => True
      | .idle | .away => False
  | .killer, l => l = .ptable ∧ s.killer.isSome

/-- The agent is in a critical section on the table. -/
def St.busy (s : St) : Agent → Prop
  | .proc p => ∃ k m, s.pc p = .inside k m
  | .scheduler c => ∃ m, s.sched c = .inside m
  | .killer => s.killer.isSome

theorem St.busy.holds {s : St} {a : Agent} (h : s.busy a) :
  s.holds lk a .ptable
  := by
  cases a with
  | proc p =>
    obtain ⟨k, m, hk⟩ := h
    change (s.pc p).holds lk .ptable
    rw [hk]
    cases k with
    | sleep => rfl
    | wakeup => exact Or.inr rfl
    | yield mid => rfl
  | scheduler c =>
    obtain ⟨m, hm⟩ := h
    refine ⟨rfl, ?_⟩
    rw [hm]
    trivial
  | killer => exact ⟨rfl, h⟩

/-- What an operation does to the locks of a process. -/
def Op.locks (holds : LockName → Prop) : Op → LockName → Prop
  | .acquire l, k => holds k ∨ k = l
  | .release l, k => holds k ∧ k ≠ l
  | _, k => holds k

variable {p : Slot} {cond : Bool} {k k' : Pc} {ch : Choice} {op : Op}

/-- The process tested `cond` as false and holds `lk` since. -/
def Pc.committed (lk : LockName) : Pc → Prop
  | .sleepAcquire | .sleepRelease => True
  | .inside .sleep _ => lk = .ptable
  | _ => False

theorem Pc.committed.holds (h : k.committed lk) : k.holds lk lk
  := by
  cases k with
  | sleepAcquire => rfl
  | sleepRelease => exact Or.inl rfl
  | inside j m =>
    cases j with
    | sleep => exact h
    | wakeup | yield mid => cases h
  | _ => cases h

theorem Pc.not_holds_of_parked (h : k.parked = true) (l : LockName) : ¬ k.holds lk l
  := by
  cases k with
  | switched | yielded | dozing => exact id
  | _ => cases h

section

variable (h : move lk chan p cond k ch = some (op, k'))

include h

theorem move_holds (l : LockName) :
  k'.holds lk l ↔ op.locks (k.holds lk) l
  := by
  revert h
  fun_cases move lk chan p cond k ch <;> rintro ⟨⟩ <;> cases lk <;> cases l <;>
    (try split_ifs) <;> simp_all [Pc.holds, Op.locks, enter]

theorem move_not_parked : k.parked = false ∧ k'.parked = false
  := by
  revert h
  fun_cases move lk chan p cond k ch <;> rintro ⟨⟩ <;> (try split_ifs) <;> exact ⟨rfl, rfl⟩

theorem move_not_inside (j : Section) (m : Prog) : k ≠ .inside j m
  := by
  rintro rfl
  cases h

theorem move_inside {j : Section} {m : Prog} (hk' : k' = .inside j m) : m = j.prog chan p
  := by
  revert h
  fun_cases move lk chan p cond k ch <;> rintro ⟨⟩ <;> (try split_ifs at hk') <;> cases hk' <;> rfl

theorem move_held {l : LockName} (hop : op = .release l) : k.holds lk l
  := by
  revert h
  fun_cases move lk chan p cond k ch <;> rintro ⟨⟩ <;> cases hop <;> simp_all [Pc.holds]

/-- A process goes to sleep only after it tested `cond` as false, and then holds `lk` until it
has `ptable.lock`. -/
theorem move_to_sleep (hk' : k'.committed lk ∨ ∃ m, k' = .inside .sleep m) :
  (cond = false ∨ k.committed lk) ∧ ∀ b, op ≠ .setCond b
  := by
  revert h
  fun_cases move lk chan p cond k ch <;> rintro ⟨⟩ <;> (try split_ifs at hk') <;>
    simp_all [Pc.committed, enter]

theorem move_wake_acquires (hk : k = .wakeAcquire) : op = .acquire .ptable
  := by
  subst hk
  cases ch <;> cases h
  rfl

theorem move_waking (hk : k.waking = true) : k'.waking = true
  := by
  revert h
  fun_cases move lk chan p cond k ch <;> rintro ⟨⟩ <;> first | rfl | cases hk

theorem move_setTrue (hop : op = .setCond true) :
  k.holds lk lk ∧ k'.waking = true ∧ (lk ≠ .ptable → k' = .wakeAcquire)
  := by
  revert h
  fun_cases move lk chan p cond k ch <;> rintro ⟨⟩ <;> cases hop
  split_ifs <;> simp_all [Pc.holds, Pc.waking, enter]

theorem move_clearChan (hop : op = .clearChan) :
  k'.holds lk .ptable ∧ ∀ j m, k' ≠ .inside j m
  := by
  revert h
  fun_cases move lk chan p cond k ch <;> rintro ⟨⟩ <;> cases hop <;> (try split_ifs) <;>
    simp_all [Pc.holds]

end

/-! ### The critical sections on the table -/

/-- What a section computes. -/
def Section.run (chan : Chan) (p : Slot) (t : PTable) : Section → Except Fault PTable
  | .sleep => Ptable.sleep t p chan
  | .wakeup => Ptable.wakeup1 t chan
  | .yield _ => Ptable.yield t p

/-- The process that a section puts to sleep. -/
def Section.sleeper (p : Slot) : Section → Option Slot
  | .sleep => some p
  | .wakeup | .yield _ => none

theorem Section.prog_computes (j : Section) :
  Stepwise.Computes (j.prog chan p) (j.run chan p ·)
  := by
  cases j with
  | sleep => apply Stepwise.sleep_computes
  | wakeup => apply Stepwise.wakeup1_computes
  | yield mid => apply Stepwise.yield_computes

theorem Section.prog_along (j : Section) (t : PTable) :
  (j.prog chan p).Along (Stepwise.SleepsOnly chan (j.sleeper p)) t
  := by
  cases j with
  | sleep => apply Stepwise.sleep_along
  | wakeup => apply Stepwise.wakeup1_along
  | yield mid => apply Stepwise.yield_along

/-- The table `t'` is well formed, and the processes satisfying `P` that run in `t` run in it. -/
structure Keeps (P : Slot → Prop) (t t' : PTable) : Prop where
  good : ∃ q, Good t' q
  running : ∀ x, P x → (t.proc x).state = .running → (t'.proc x).state = .running

variable {t : PTable} {q : ListId → List Slot}

theorem Keeps.of_changesOnly
    {t' : PTable} {q' : ListId → List Slot} (h : ChangesOnly p t t') (hq : Good t' q') :
  Keeps (· ≠ p) t t'
  := by
  constructor
  · exact ⟨q', hq⟩
  · intro x hx hrun
    rw [h.others x hx]
    exact hrun

/-- What a section has made of the table `t` at its end. -/
def Section.Ends (chan : Chan) (p : Slot) (t t' : PTable) : Section → Prop
  | .sleep => Keeps (· ≠ p) t t'
  | .wakeup => Keeps (fun _ => True) t t' ∧ ∀ x, ¬ Asleep chan t' x
  | .yield _ => Keeps (· ≠ p) t t' ∧ ¬ Asleep chan t' p

theorem Section.run_ends (h : Good t q) (hp : (t.proc p).state = .running) (j : Section) :
  ∃ t', j.run chan p t = .ok t' ∧ j.Ends chan p t t'
  := by
  cases j with
  | sleep =>
    obtain ⟨t', ht', hq, -, honly⟩ := sleep_spec h hp chan
    exact ⟨t', ht', Keeps.of_changesOnly honly hq⟩
  | wakeup =>
    obtain ⟨t', ht', hq, hproc, -⟩ := wakeup1_spec h chan
    refine ⟨t', ht', ⟨⟨_, hq⟩, ?_⟩, ?_⟩
    · intro x _ hx
      rw [hproc, woken, if_neg]
      · exact hx
      · rintro ⟨hs, -⟩
        cases hx.symm.trans hs
    · rintro x ⟨hs, hc⟩
      rw [hproc, woken] at hs hc
      split at hs
      · cases hs
      · rename_i hnot
        rw [if_neg hnot] at hc
        exact hnot ⟨hs, hc⟩
  | yield mid =>
    obtain ⟨t', _, ht', hq, -, hproc, honly⟩ := yield_spec h hp
    refine ⟨t', ht', Keeps.of_changesOnly honly hq, ?_⟩
    rintro ⟨hs, -⟩
    rw [hproc] at hs
    cases hs

theorem kill_keeps (h : Good t q) (pid : Int32) :
  ∃ r t', Ptable.kill t pid = .ok (r, t') ∧ Keeps (fun _ => True) t t'
  := by
  obtain ⟨hkill, -⟩ | ⟨p, id, t', q', hkill, -, hq', -, hp, honly⟩ := kill_spec h pid
  · exact ⟨-1, t, hkill, ⟨q, h⟩, fun _ _ hx => hx⟩
  · refine ⟨0, t', hkill, ⟨q', hq'⟩, ?_⟩
    intro x _ hx
    by_cases hxp : x = p
    · subst hxp
      rw [hp, killed, if_neg]
      · exact hx
      · rw [hx]
        decide
    · rw [honly.others x hxp]
      exact hx

theorem promoteAll_keeps (h : Good t q) :
  ∃ t' q', promoteAll t = .ok t' ∧ Good t' q' ∧
    ∀ x, (t'.proc x).state = (t.proc x).state
  := by
  by_cases ht : t.ticks ≥ t.promoteAtTime
  · obtain ⟨t', ht', hq', hproc, -⟩ := promoteAll_spec h ht
    refine ⟨t', _, ht', hq', ?_⟩
    intro x
    rw [hproc, promotion]
    split <;> rfl
  · exact ⟨t, q, if_neg ht, h, fun _ => rfl⟩

/-- A pass of `scheduler` takes a runnable process, if there is one, and makes it run. -/
theorem scheduler_keeps (h : Good t q) :
  ∃ r t', Ptable.scheduler t = .ok (r, t') ∧ Keeps (fun _ => True) t t' ∧
    ∀ p, r = some p → (t.proc p).state = .runnable ∧ (t'.proc p).state = .running
  := by
  obtain ⟨t₁, q₁, ht₁, hq₁, hstate⟩ := promoteAll_keeps h
  have hsched : Ptable.scheduler t = Ptable.dispatch t₁ readyDown := by
    rw [Ptable.scheduler, ht₁]
    rfl
  rw [hsched]
  obtain ⟨hnone, -⟩ | ⟨t', p, j, hd, -, hhead, hq', hproc, honly⟩ := dispatch_spec hq₁ readyDown
  · refine ⟨none, t₁, hnone, ⟨⟨q₁, hq₁⟩, ?_⟩, by simp⟩
    intro x _ hx
    rw [hstate, hx]
  · have hp : (t₁.proc p).state = .runnable :=
      (hq₁.of_mem_ready (List.mem_of_head? hhead)).1
    have hrun : (t'.proc p).state = .running := by
      rw [hproc]
      rfl
    refine ⟨some p, t', hd, ⟨⟨_, hq'⟩, ?_⟩, ?_⟩
    · intro x _ hx
      by_cases hxp : x = p
      · rw [hxp, hrun]
      · rw [honly.others x hxp, hstate, hx]
    · rintro _ ⟨⟩
      rw [← hstate]
      exact ⟨hp, hrun⟩

/-! ### The table during a critical section -/

/-- The rest `m` of a critical section: from the current table it gives the result `r`, and its
steps put nobody to sleep on the channel except `o`. -/
structure Doing {α : Type} (chan : Chan) (o : Option Slot) (m : Micro PTable Fault α)
    (r : Except Fault (α × PTable)) (t : PTable) : Prop where
  exec : m.exec t = r
  along : m.Along (Stepwise.SleepsOnly chan o) t

section

variable {α : Type} {o : Option Slot} {m m' : Micro PTable Fault α}
  {r : Except Fault (α × PTable)} {t' : PTable}

theorem Doing.step (h : Doing chan o m r t) (hstep : m.step t = some (.ok (m', t'))) :
  Doing chan o m' r t' ∧ Stepwise.SleepsOnly chan o t t'
  := by
  obtain ⟨hP, halong⟩ := h.along.step hstep
  exact ⟨⟨(Micro.exec_of_step hstep).trans h.exec, halong⟩, hP⟩

theorem Doing.not_error
    {a : α} (h : Doing chan o m (.ok (a, t')) t) (f : Fault) :
  m.step t ≠ some (.error f)
  := by
  intro hstep
  cases (Micro.exec_of_step_error hstep).symm.trans h.exec

end

/-- What an agent has left to do in its critical section that started on the table `t₀`. -/
def St.Works (chan : Chan) (s : St) (t₀ : PTable) : Agent → Prop
  | .proc p => ∀ j m, s.pc p = .inside j m →
      Doing chan (j.sleeper p) m ((j.run chan p t₀).map (Prod.mk ())) s.pt
  | .scheduler c => ∀ m, s.sched c = .inside m →
      Doing chan none m (Ptable.scheduler t₀) s.pt
  | .killer => ∀ m, s.killer = some m →
      ∃ pid, Doing chan none m (Ptable.kill t₀ pid) s.pt

/-- The table is well formed between critical sections.  During one it is what the section made of
the well-formed table `t₀` up to now. -/
structure Snapshot (chan : Chan) (s : St) (t₀ : PTable) : Prop where
  good : ∃ q, Good t₀ q
  running : ∀ c p, s.cpu c = some p → (t₀.proc p).state = .running
  works : ∀ a, s.Works chan t₀ a
  rest : (∀ a, ¬ s.busy a) → s.pt = t₀
  asleep : ∀ x, Asleep chan s.pt x → Asleep chan t₀ x ∨ ∃ m, s.pc x = .inside .sleep m

variable {s s' : St}

theorem St.works_of_not_busy {t₀ : PTable} {a : Agent} (h : ¬ s.busy a) :
  s.Works chan t₀ a
  := by
  cases a with
  | proc p =>
    intro j m hm
    exact absurd ⟨j, m, hm⟩ h
  | scheduler c =>
    intro m hm
    exact absurd ⟨m, hm⟩ h
  | killer =>
    intro m hm
    exact absurd (by rw [St.busy, hm]; rfl) h

section

variable (hgood : ∃ q, Good s.pt q)
  (hrun : ∀ c p, s.cpu c = some p → (s.pt.proc p).state = .running)

include hgood hrun

/-- At the start of a critical section. -/
theorem Snapshot.of_start
    {a : Agent} (hothers : ∀ b, b ≠ a → ¬ s.busy b) (hworks : s.Works chan s.pt a) :
  Snapshot chan s s.pt
  := by
  constructor
  · exact hgood
  · exact hrun
  · intro b
    by_cases hb : b = a
    · rw [hb]
      exact hworks
    · exact St.works_of_not_busy (hothers b hb)
  · exact fun _ => rfl
  · exact fun _ hx => Or.inl hx

/-- Between critical sections. -/
theorem Snapshot.of_idle (hidle : ∀ a, ¬ s.busy a) :
  Snapshot chan s s.pt
  := .of_start (a := .killer) hgood hrun (fun b _ => hidle b) (St.works_of_not_busy (hidle _))

end

/-- During a critical section. -/
theorem Snapshot.of_step
    {a : Agent} {t₀ : PTable} (h : Snapshot chan s t₀) (hcpu : s'.cpu = s.cpu)
    (hbusy : s'.busy a) (hothers : ∀ b, b ≠ a → ¬ s'.busy b) (hworks : s'.Works chan t₀ a)
    (hasleep : ∀ x, Asleep chan s'.pt x → Asleep chan s.pt x ∨ ∃ m, s'.pc x = .inside .sleep m)
    (hpc : ∀ x m, s.pc x = .inside .sleep m → ∃ m', s'.pc x = .inside .sleep m') :
  Snapshot chan s' t₀
  := by
  constructor
  · exact h.good
  · rw [hcpu]
    exact h.running
  · intro b
    by_cases hb : b = a
    · rw [hb]
      exact hworks
    · exact St.works_of_not_busy (hothers b hb)
  · intro hidle
    exact absurd hbusy (hidle a)
  · intro x hx
    obtain hx | hx := hasleep x hx
    · obtain hx | ⟨m, hm⟩ := h.asleep x hx
      · exact Or.inl hx
      · exact Or.inr (hpc x m hm)
    · exact Or.inr hx

/-! ### The wake-ups that are to come -/

/-- Whoever sleeps on the channel, or is about to, while `cond` is true will be woken. -/
structure Heard (lk : LockName) (chan : Chan) (s : St) : Prop where
  committed : ∀ p, (s.pc p).committed lk → s.cond = false
  /-- In `sleep`, after `release(lk)`: a waker may have set `cond`, but it cannot have
  `ptable.lock`. -/
  pending : ∀ p m, s.pc p = .inside .sleep m → s.cond = true → ∃ w, s.pc w = .wakeAcquire
  asleep : ∀ p, s.pc p = .switched → Asleep chan s.pt p → s.cond = true →
    ∃ w, (s.pc w).waking = true
  yielded : ∀ p, s.pc p = .yielded true → ¬ Asleep chan s.pt p

/-- One process moves from where it was to `k'`. -/
theorem Heard.of_update
    (h : Heard lk chan s) (hcond : s'.cond = s.cond) (hpc : s'.pc = Function.update s.pc p k')
    (hasleep : ∀ x, x ≠ p → Asleep chan s'.pt x → Asleep chan s.pt x)
    (hfalse : k'.committed lk ∨ (∃ m, k' = .inside .sleep m) → s.cond = false)
    (hacquire : s.pc p = .wakeAcquire → ∀ x m, s.pc x ≠ .inside .sleep m)
    (hwaking : (s.pc p).waking = true → k'.waking = true ∨ ∀ x, ¬ Asleep chan s'.pt x)
    (hswitched : k' = .switched → s.cond = true → ∃ w, s.pc w = .wakeAcquire)
    (hyielded : k' = .yielded true → ¬ Asleep chan s'.pt p) :
  Heard lk chan s'
  := by
  have hself : s'.pc p = k' := by rw [hpc, Function.update_self]
  have hne {x : Slot} (hx : x ≠ p) : s'.pc x = s.pc x := by rw [hpc, Function.update_of_ne hx]
  have hwaker {x w : Slot} (hs : Asleep chan s'.pt x) (hw : (s.pc w).waking = true) :
      ∃ w, (s'.pc w).waking = true := by
    use w
    by_cases hwp : w = p
    · subst hwp
      rw [hself]
      exact (hwaking hw).resolve_right fun hnone => hnone x hs
    · rw [hne hwp, hw]
  constructor
  · intro x hx
    rw [hcond]
    by_cases hxp : x = p
    · rw [hxp, hself] at hx
      exact hfalse (Or.inl hx)
    · rw [hne hxp] at hx
      exact h.committed x hx
  · intro x m hx hc
    rw [hcond] at hc
    by_cases hxp : x = p
    · rw [hxp, hself] at hx
      cases (hfalse (Or.inr ⟨m, hx⟩)).symm.trans hc
    · rw [hne hxp] at hx
      obtain ⟨w, hw⟩ := h.pending x m hx hc
      use w
      rw [hne, hw]
      rintro rfl
      exact hacquire hw x m hx
  · intro x hx hs hc
    rw [hcond] at hc
    by_cases hxp : x = p
    · rw [hxp, hself] at hx
      obtain ⟨w, hw⟩ := hswitched hx hc
      exact hwaker hs (by rw [hw]; rfl)
    · rw [hne hxp] at hx
      obtain ⟨w, hw⟩ := h.asleep x hx (hasleep x hxp hs) hc
      exact hwaker hs hw
  · intro x hx hs
    by_cases hxp : x = p
    · rw [hxp, hself] at hx
      rw [hxp] at hs
      exact hyielded hx hs
    · rw [hne hxp] at hx
      exact h.yielded x hx (hasleep x hxp hs)

/-- The invariant of the system. -/
structure Inv (lk : LockName) (chan : Chan) (s : St) : Prop where
  locks : Guarded s.lock (s.holds lk)
  once : ∀ c c' p, s.cpu c = some p → s.cpu c' = some p → c = c'
  parked : ∀ p, (s.pc p).parked = true ↔ ∀ c, s.cpu c ≠ some p
  away : ∀ c p, s.cpu c = some p → s.sched c = .away
  table : ∃ t₀, Snapshot chan s t₀
  heard : Heard lk chan s

section

variable (h : Inv lk chan s)

include h

/-- Nobody is in a critical section while `ptable.lock` is free. -/
theorem Inv.idle_of_free (hfree : s.lock .ptable = none) (a : Agent) :
  ¬ s.busy a
  := by
  intro hbusy
  exact h.locks.not_holds hfree a hbusy.holds

/-- The table between critical sections. -/
theorem Inv.quiet (hidle : ∀ a, ¬ s.busy a) :
  (∃ q, Good s.pt q) ∧ ∀ c p, s.cpu c = some p → (s.pt.proc p).state = .running
  := by
  obtain ⟨t₀, ht₀⟩ := h.table
  rw [ht₀.rest hidle]
  exact ⟨ht₀.good, ht₀.running⟩

/-- While a process that tested `cond` as false sleeps on the channel and `cond` is true, a waker is
on its way. -/
theorem Inv.waker
    {p : Slot} (hp : (s.pc p).tested = true) (hs : Asleep chan s.pt p) (hcond : s.cond = true) :
  ∃ w, (s.pc w).waking = true
  := by
  -- A process with a processor, not in `sleep`, does not sleep.
  have hawake : (s.pc p).parked = false → ∃ m, s.pc p = .inside .sleep m := by
    intro hpark
    obtain ⟨c, hc⟩ : ∃ c, s.cpu c = some p := by
      by_contra hno
      have := (h.parked p).mpr fun c hc => hno ⟨c, hc⟩
      cases hpark.symm.trans this
    obtain ⟨t₀, ht₀⟩ := h.table
    obtain ⟨hs₀, -⟩ | hm := ht₀.asleep p hs
    · cases (ht₀.running c p hc).symm.trans hs₀
    · exact hm
  cases hpc : s.pc p with
  | switched => exact h.heard.asleep p hpc hs hcond
  | yielded mid =>
    cases mid with
    | false =>
      rw [hpc] at hp
      cases hp
    | true => exact absurd hs (h.heard.yielded p hpc)
  | dozing =>
    rw [hpc] at hp
    cases hp
  | _ =>
    obtain ⟨m, hm⟩ := hawake (by rw [hpc]; rfl)
    obtain ⟨w, hw⟩ := h.heard.pending p m hm hcond
    exact ⟨w, by rw [hw]; rfl⟩

end

/-! ### A process moves -/

section

variable {s₁ : St} {c : Cpu}

/-- An operation does not move anybody. -/
theorem St.perform_frame (h : s.perform p op = some s₁) :
  s₁.pc = s.pc ∧ s₁.cpu = s.cpu ∧ s₁.sched = s.sched ∧ s₁.killer = s.killer ∧
    (op ≠ .clearChan → s₁.pt = s.pt) ∧ ((∀ b, op ≠ .setCond b) → s₁.cond = s.cond)
  := by
  cases op with
  | acquire l =>
    rw [perform] at h
    split at h
    · cases h
      exact ⟨rfl, rfl, rfl, rfl, fun _ => rfl, fun _ => rfl⟩
    · cases h
  | clearChan =>
    cases h
    exact ⟨rfl, rfl, rfl, rfl, fun hop => absurd rfl hop, fun _ => rfl⟩
  | setCond b =>
    cases h
    exact ⟨rfl, rfl, rfl, rfl, fun _ => rfl, fun hop => absurd rfl (hop b)⟩
  | _ =>
    cases h
    exact ⟨rfl, rfl, rfl, rfl, fun _ => rfl, fun _ => rfl⟩

theorem St.goto_pc_self (s : St) (p : Slot) (k : Pc) : (s.goto p k).pc p = k :=
  Function.update_self ..

theorem St.goto_pc_of_ne (s : St) {p x : Slot} (k : Pc) (h : x ≠ p) : (s.goto p k).pc x = s.pc x :=
  Function.update_of_ne h ..

theorem St.perform_pc_of_ne (h : s.perform p op = some s₁) {x : Slot} (hx : x ≠ p) :
  (s₁.goto p k').pc x = s.pc x
  := by rw [goto_pc_of_ne s₁ k' hx, (perform_frame h).1]

/-- An operation of `p` does not put anybody else to sleep. -/
theorem St.perform_asleep_of_ne
    (h : s.perform p op = some s₁) {x : Slot} (hx : x ≠ p) (hs : Asleep chan (s₁.goto p k').pt x) :
  Asleep chan s.pt x
  := by
  by_cases hop : op = .clearChan
  · subst hop
    cases h
    change Asleep chan (s.pt.modify p ({ · with chan := .null })) x at hs
    rw [Asleep, PTable.modify_proc_of_ne _ _ hx] at hs
    exact hs
  · obtain ⟨-, -, -, -, hpt, -⟩ := perform_frame h
    rw [← hpt hop]
    exact hs

/-- The agent is where it was. -/
def St.SameAt (s s' : St) : Agent → Prop
  | .proc p => s'.pc p = s.pc p
  | .scheduler c => s'.sched c = s.sched c
  | .killer => s'.killer = s.killer

section

variable {b : Agent} (h : s.SameAt s' b)

include h

theorem St.SameAt.holds (l : LockName) :
  s'.holds lk b l ↔ s.holds lk b l
  := by
  cases b <;> simp only [St.SameAt] at h <;> simp only [St.holds, h]

theorem St.SameAt.busy :
  s'.busy b ↔ s.busy b
  := by
  cases b <;> simp only [St.SameAt] at h <;> simp only [St.busy, h]

theorem St.SameAt.works {t₀ : PTable} (hpt : s'.pt = s.pt) (hworks : s.Works chan t₀ b) :
  s'.Works chan t₀ b
  := by
  cases b <;> simp only [St.SameAt] at h <;> simpa only [St.Works, h, hpt] using hworks

end

/-- The others stay where they are. -/
theorem St.perform_sameAt (h : s.perform p op = some s₁) {b : Agent} (hb : b ≠ .proc p) :
  s.SameAt (s₁.goto p k') b
  := by
  obtain ⟨-, -, hsched, hkiller, -⟩ := perform_frame h
  cases b with
  | proc x => exact perform_pc_of_ne h fun e => hb (by rw [e])
  | scheduler c => exact congrFun hsched c
  | killer => exact hkiller

section

variable (h : Inv lk chan s)

include h

section

variable (hm : move lk chan p s.cond (s.pc p) ch = some (op, k'))

include hm

section

variable (hperf : s.perform p op = some s₁)

include hperf

theorem Inv.move_locks :
  Guarded (s₁.goto p k').lock ((s₁.goto p k').holds lk)
  := by
  have hself (l : LockName) :
      (s₁.goto p k').holds lk (.proc p) l ↔ op.locks (s.holds lk (.proc p)) l := by
    change ((s₁.goto p k').pc p).holds lk l ↔ _
    rw [St.goto_pc_self]
    exact move_holds hm l
  have hothers (b : Agent) (hb : b ≠ .proc p) (l : LockName) :
      (s₁.goto p k').holds lk b l ↔ s.holds lk b l :=
    (St.perform_sameAt hperf hb).holds l
  have hsame (hop : ∀ holds l, op.locks holds l ↔ holds l) (hlock : s₁.lock = s.lock) :
      Guarded (s₁.goto p k').lock ((s₁.goto p k').holds lk) := by
    change Guarded s₁.lock _
    rw [hlock]
    apply h.locks.congr
    intro b l
    by_cases hb : b = .proc p
    · subst hb
      rw [hself, hop]
    · exact hothers b hb l
  cases op with
  | acquire l =>
    rw [St.perform] at hperf
    split at hperf
    · rename_i hfree
      cases hperf
      exact h.locks.acquire hfree hself hothers
    · cases hperf
  | release l =>
    cases hperf
    have hheld : s.holds lk (.proc p) l := move_held hm rfl
    exact h.locks.release hheld hself hothers
  | skip | setCond b | clearChan =>
    cases hperf
    exact hsame (fun _ _ => Iff.rfl) rfl

theorem Inv.move_parked (x : Slot) :
  ((s₁.goto p k').pc x).parked = true ↔ ∀ c, (s₁.goto p k').cpu c ≠ some x
  := by
  have hcpu : (s₁.goto p k').cpu = s.cpu := (St.perform_frame hperf).2.1
  rw [hcpu, ← h.parked x]
  by_cases hx : x = p
  · subst hx
    rw [St.goto_pc_self, (move_not_parked hm).1, (move_not_parked hm).2]
  · rw [St.perform_pc_of_ne hperf hx]

theorem Inv.move_table :
  ∃ t₀, Snapshot chan (s₁.goto p k') t₀
  := by
  have hlocks := h.move_locks hm hperf
  obtain ⟨-, hcpu, -, -, hpt, -⟩ := St.perform_frame hperf
  have hout : ¬ s.busy (.proc p) := fun ⟨j, m, hj⟩ => move_not_inside hm j m hj
  -- The process holds `ptable.lock` afterwards: nobody else is in a critical section.
  have halone (hk' : (s₁.goto p k').holds lk (.proc p) .ptable) (a : Agent) : ¬ s.busy a := by
    intro ha
    by_cases hap : a = .proc p
    · exact hout (hap ▸ ha)
    · have : (s₁.goto p k').busy a := (St.perform_sameAt hperf hap).busy.mpr ha
      exact hap (hlocks.unique this.holds hk')
  have hself : (s₁.goto p k').holds lk (.proc p) .ptable ↔ k'.holds lk .ptable := by
    change ((s₁.goto p k').pc p).holds lk .ptable ↔ _
    rw [St.goto_pc_self]
  have hbusy : (s₁.goto p k').busy (.proc p) ↔ ∃ j m, k' = .inside j m := by
    change (∃ j m, (s₁.goto p k').pc p = .inside j m) ↔ _
    rw [St.goto_pc_self]
  by_cases hop : op = .clearChan
  · subst hop
    obtain ⟨hholds, hnot⟩ := move_clearChan hm rfl
    have hidle := halone (hself.mpr hholds)
    obtain ⟨⟨q, hq⟩, hrun⟩ := h.quiet hidle
    have hpt : (s₁.goto p k').pt = s.pt.modify p ({ · with chan := .null }) := by
      cases hperf
      rfl
    refine ⟨_, Snapshot.of_idle ⟨q, ?_⟩ ?_ ?_⟩
    · rw [hpt]
      exact hq.modify_same rfl rfl
    · intro c x hx
      rw [hpt, ← hrun c x (hcpu ▸ hx)]
      by_cases hxp : x = p
      · rw [hxp, PTable.modify_proc_self]
      · rw [PTable.modify_proc_of_ne _ _ hxp]
    · intro a ha
      by_cases hap : a = .proc p
      · subst hap
        obtain ⟨j, m, hj⟩ := hbusy.mp ha
        exact hnot j m hj
      · exact hidle a ((St.perform_sameAt hperf hap).busy.mp ha)
  · have hpt : (s₁.goto p k').pt = s.pt := hpt hop
    by_cases hk' : ∃ j m, k' = .inside j m
    · obtain ⟨j, m, rfl⟩ := hk'
      obtain rfl := move_inside hm rfl
      have hidle := halone (hbusy.mpr ⟨j, _, rfl⟩).holds
      obtain ⟨hgood, hrun⟩ := h.quiet hidle
      refine ⟨_, Snapshot.of_start (a := .proc p) ?_ ?_ ?_ ?_⟩
      · rw [hpt]
        exact hgood
      · intro c x hx
        rw [hpt]
        exact hrun c x (hcpu ▸ hx)
      · intro b hb hbb
        exact hidle b ((St.perform_sameAt hperf hb).busy.mp hbb)
      · intro j' m' hj'
        rw [St.goto_pc_self] at hj'
        cases hj'
        exact ⟨j.prog_computes _, j.prog_along _⟩
    · obtain ⟨t₀, ht₀⟩ := h.table
      refine ⟨t₀, ht₀.good, fun c x hx => ht₀.running c x (hcpu ▸ hx), ?_, ?_, ?_⟩
      · intro a
        by_cases hap : a = .proc p
        · subst hap
          exact St.works_of_not_busy fun ha => hk' (hbusy.mp ha)
        · exact (St.perform_sameAt hperf hap).works hpt (ht₀.works a)
      · intro hidle
        rw [hpt]
        apply ht₀.rest
        intro a ha
        by_cases hap : a = .proc p
        · exact hout (hap ▸ ha)
        · exact hidle a ((St.perform_sameAt hperf hap).busy.mpr ha)
      · intro x hx
        rw [hpt] at hx
        obtain hx | ⟨m, hx⟩ := ht₀.asleep x hx
        · exact Or.inl hx
        · right
          use m
          rw [St.perform_pc_of_ne hperf, hx]
          rintro rfl
          exact move_not_inside hm _ _ hx

theorem Inv.move_yielded (x : Slot) (hx : (s₁.goto p k').pc x = .yielded true) :
  ¬ Asleep chan (s₁.goto p k').pt x
  := by
  have hxp : x ≠ p := by
    rintro rfl
    rw [St.goto_pc_self] at hx
    cases hx ▸ (move_not_parked hm).2
  rw [St.perform_pc_of_ne hperf hxp] at hx
  exact fun hs => h.heard.yielded x hx (St.perform_asleep_of_ne hperf hxp hs)

/-- A process sets `cond`. -/
theorem Inv.move_heard_set (hop : op = .setCond true) :
  Heard lk chan (s₁.goto p k')
  := by
  obtain ⟨hlk, hwaking, hother⟩ := move_setTrue hm hop
  have hself : (s₁.goto p k').pc p = k' := St.goto_pc_self ..
  -- The process holds `lk`, so no other process tested `cond` as false and holds it.
  have hnone (x : Slot) : ¬ ((s₁.goto p k').pc x).committed lk := by
    intro hx
    by_cases hxp : x = p
    · rw [hxp, hself] at hx
      exact (move_to_sleep hm (Or.inl hx)).2 true hop
    · rw [St.perform_pc_of_ne hperf hxp] at hx
      have hhold : s.holds lk (.proc x) lk := hx.holds
      have hp : s.holds lk (.proc p) lk := hlk
      exact hxp (Agent.proc.inj (h.locks.unique hhold hp))
  constructor
  · intro x hx
    exact absurd hx (hnone x)
  · intro x m hx _
    use p
    rw [hself]
    apply hother
    rintro rfl
    apply hnone x
    rw [hx]
    rfl
  · intro x _ _ _
    use p
    rw [hself]
    exact hwaking
  · exact h.move_yielded hm hperf

theorem Inv.move_heard :
  Heard lk chan (s₁.goto p k')
  := by
  by_cases hset : ∃ b, op = .setCond b
  · obtain ⟨b, rfl⟩ := hset
    cases b with
    | true => exact h.move_heard_set hm hperf rfl
    | false =>
      have hcond : (s₁.goto p k').cond = false := by
        cases hperf
        rfl
      refine ⟨fun _ _ => hcond, ?_, ?_, h.move_yielded hm hperf⟩
      · intro x m _ hc
        cases hcond.symm.trans hc
      · intro x _ _ hc
        cases hcond.symm.trans hc
  · obtain ⟨hpc₁, -, -, -, -, hcond⟩ := St.perform_frame hperf
    have hcond' : (s₁.goto p k').cond = s.cond := hcond fun b hb => hset ⟨b, hb⟩
    apply h.heard.of_update hcond' (by rw [St.goto, hpc₁])
    · exact fun x hx hs => St.perform_asleep_of_ne hperf hx hs
    · intro hk'
      obtain hc | hc := (move_to_sleep hm hk').1
      · exact hc
      · exact h.heard.committed p hc
    · -- The waker cannot take `ptable.lock` from a process in `sleep`.
      intro hw x m hx
      obtain rfl := move_wake_acquires hm hw
      rw [St.perform] at hperf
      split at hperf
      · have hbusy : s.busy (.proc x) := ⟨_, _, hx⟩
        exact h.idle_of_free ‹_› _ hbusy
      · cases hperf
    · exact fun hw => Or.inl (move_waking hm hw)
    · rintro rfl
      cases (move_not_parked hm).2
    · rintro rfl
      cases (move_not_parked hm).2

theorem Inv.move :
  Inv lk chan (s₁.goto p k')
  := by
  obtain ⟨-, hcpu, hsched, -⟩ := St.perform_frame hperf
  constructor
  · exact h.move_locks hm hperf
  · change ∀ c c' x, s₁.cpu c = some x → s₁.cpu c' = some x → c = c'
    rw [hcpu]
    exact h.once
  · exact h.move_parked hm hperf
  · change ∀ c x, s₁.cpu c = some x → s₁.sched c = .away
    rw [hcpu, hsched]
    exact h.away
  · exact h.move_table hm hperf
  · exact h.move_heard hm hperf

end

end

end

end

end Xv6.Ptable.SleepLoop
