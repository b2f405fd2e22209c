import Xv6.Proc.Reachable
import Xv6.Proc.SleepInvariant

/-!
# No wake-up is lost

While `cond` is true and no process is between setting it and the end of its `wakeup`, no process
that tested `cond` as false sleeps on the channel (`no_lost_wakeup`).
-/

namespace Xv6.Ptable.SleepLoop

open Function

variable {lk : LockName} {chan : Chan} {p : Slot} {k k' : Pc} {t : PTable}
  {q : ListId → List Slot} {s s' : St}

/-! ### A step in a critical section -/

/-- The two places differ at most in what is left of a critical section. -/
inductive Pc.Alike : Pc → Pc → Prop where
  | refl (k : Pc) : Alike k k
  | inside (j : Section) (m m' : Prog) : Alike (.inside j m) (.inside j m')

namespace Pc.Alike

variable (h : Pc.Alike k k')

include h

theorem parked : k'.parked = k.parked
  := by cases h <;> rfl

theorem waking : k'.waking = k.waking
  := by
  cases h with
  | refl => rfl
  | inside j => cases j <;> rfl

theorem holds (l : LockName) : k'.holds lk l ↔ k.holds lk l
  := by
  cases h with
  | refl => rfl
  | inside j => cases j <;> rfl

theorem committed (hk : k'.committed lk) : k.committed lk
  := by
  cases h with
  | refl => exact hk
  | inside j => cases j <;> exact hk

theorem symm : k'.Alike k
  := by
  cases h with
  | refl => exact .refl k
  | inside j m m' => exact .inside j m' m

theorem eq_of_not_inside (hk : ∀ j m, k ≠ .inside j m) : k' = k
  := by
  cases h with
  | refl => rfl
  | inside j m m' => exact absurd rfl (hk j m)

theorem exists_inside {j : Section} {m : Prog} (hk : k = .inside j m) : ∃ m', k' = .inside j m'
  := by
  cases h with
  | refl => exact ⟨m, hk⟩
  | inside j' m₁ m₂ =>
    cases hk
    exact ⟨m₂, rfl⟩

end Pc.Alike

/-- An agent makes a step in its critical section. -/
theorem Inv.section_step
    {a : Agent} {o : Option Slot} {t₀ : PTable} (h : Inv lk chan s)
    (hcond : s'.cond = s.cond) (hlock : s'.lock = s.lock) (hcpu : s'.cpu = s.cpu)
    (haway : ∀ c, s.sched c = .away → s'.sched c = .away)
    (hpc : ∀ x, (s.pc x).Alike (s'.pc x)) (hholds : ∀ b l, s'.holds lk b l ↔ s.holds lk b l)
    (ha : s'.busy a) (ht₀ : Snapshot chan s t₀) (hworks : s'.Works chan t₀ a)
    (honly : Stepwise.SleepsOnly chan o s.pt s'.pt)
    (ho : ∀ x, o = some x → ∃ m, s'.pc x = .inside .sleep m) :
  Inv lk chan s'
  := by
  have hasleep (x : Slot) (hx : (s'.pc x).parked = true) (hs : Asleep chan s'.pt x) :
      Asleep chan s.pt x := by
    obtain hs | hs := honly x hs
    · exact hs
    · obtain ⟨m, hm⟩ := ho x hs
      rw [hm] at hx
      cases hx
  have hlocks : Guarded s'.lock (s'.holds lk) := by
    rw [hlock]
    exact h.locks.congr hholds
  constructor
  · exact hlocks
  · rw [hcpu]
    exact h.once
  · intro x
    rw [hcpu, (hpc x).parked]
    exact h.parked x
  · intro c x hc
    rw [hcpu] at hc
    exact haway c (h.away c x hc)
  · use t₀
    apply ht₀.of_step hcpu ha _ hworks
    · intro x hs
      obtain hs | hs := honly x hs
      · exact Or.inl hs
      · exact Or.inr (ho x hs)
    · intro x m hx
      exact (hpc x).exists_inside hx
    · intro b hb hbb
      exact hb (hlocks.unique hbb.holds ha.holds)
  · constructor
    · intro x hx
      rw [hcond]
      exact h.heard.committed x ((hpc x).committed hx)
    · intro x m hx hc
      obtain ⟨m', hm'⟩ := (hpc x).symm.exists_inside hx
      rw [hcond] at hc
      obtain ⟨w, hw⟩ := h.heard.pending x m' hm' hc
      use w
      rw [(hpc w).eq_of_not_inside, hw]
      rw [hw]
      simp
    · intro x hx hs hc
      have hx' : s.pc x = .switched := by
        rw [(hpc x).symm.eq_of_not_inside, hx]
        rw [hx]
        simp
      rw [hcond] at hc
      obtain ⟨w, hw⟩ := h.heard.asleep x hx' (hasleep x (by rw [hx]; rfl) hs) hc
      use w
      rw [(hpc w).waking]
      exact hw
    · intro x hx hs
      have hx' : s.pc x = .yielded true := by
        rw [(hpc x).symm.eq_of_not_inside, hx]
        rw [hx]
        simp
      exact h.heard.yielded x hx' (hasleep x (by rw [hx]; rfl) hs)

/-! ### A process in a critical section -/

section

variable {c : Cpu} {j : Section} {m m' : Prog} {t' : PTable}

/-- What a process in a critical section can rely on. -/
theorem Inv.doing (h : Inv lk chan s) (hc : s.cpu c = some p) (hp : s.pc p = .inside j m) :
  ∃ t₀ t₁, Snapshot chan s t₀ ∧ Doing chan (j.sleeper p) m (.ok ((), t₁)) s.pt ∧
    j.run chan p t₀ = .ok t₁ ∧ j.Ends chan p t₀ t₁
  := by
  obtain ⟨t₀, ht₀⟩ := h.table
  obtain ⟨q, hq⟩ := ht₀.good
  obtain ⟨t₁, ht₁, hends⟩ := Section.run_ends hq (ht₀.running c p hc) j
  have hdo := ht₀.works (.proc p) j m hp
  rw [ht₁] at hdo
  exact ⟨t₀, t₁, ht₀, hdo, ht₁, hends⟩

theorem Inv.run_step
    (h : Inv lk chan s) (hc : s.cpu c = some p) (hp : s.pc p = .inside j m)
    (hstep : m.step s.pt = some (.ok (m', t'))) :
  Inv lk chan ({ s with pt := t' }.goto p (.inside j m'))
  := by
  have hself : ({ s with pt := t' }.goto p (.inside j m')).pc p = .inside j m' :=
    St.goto_pc_self ..
  have hpc (x : Slot) : (s.pc x).Alike (({ s with pt := t' }.goto p (.inside j m')).pc x) := by
    by_cases hx : x = p
    · rw [hx, hself, hp]
      exact .inside j m m'
    · rw [St.goto_pc_of_ne _ _ hx]
      exact .refl _
  obtain ⟨t₀, t₁, ht₀, hdo, ht₁, -⟩ := h.doing hc hp
  obtain ⟨hdo', honly⟩ := hdo.step hstep
  apply Inv.section_step (a := .proc p) h
  · rfl
  · rfl
  · rfl
  · exact fun _ hc => hc
  · exact hpc
  · intro b l
    cases b with
    | proc x => exact (hpc x).holds l
    | scheduler c | killer => rfl
  · exact ⟨j, m', hself⟩
  · exact ht₀
  · intro j' m'' hj
    rw [hself] at hj
    cases hj
    rw [ht₁]
    exact hdo'
  · exact honly
  · intro x hx
    cases j with
    | sleep =>
      cases hx
      exact ⟨m', hself⟩
    | wakeup | yield mid => cases hx

end

/-! ### The context switches -/

section

variable {c : Cpu} {j : Section} {m : Prog} {t₀ : PTable}

theorem St.switch_pc_of_ne (s : St) (c : Cpu) (k : Pc) {x : Slot} (hx : x ≠ p) :
  (s.switch c p k).pc x = s.pc x
  := update_of_ne hx ..

theorem St.switch_pc_self (s : St) (c : Cpu) (k : Pc) :
  (s.switch c p k).pc p = k
  := update_self ..

theorem St.switch_sched_self (s : St) (c : Cpu) (p : Slot) (k : Pc) :
  (s.switch c p k).sched c = .back
  := update_self ..

theorem St.switch_sched_of_ne (s : St) {c c' : Cpu} (p : Slot) (k : Pc) (hc : c' ≠ c) :
  (s.switch c p k).sched c' = s.sched c'
  := update_of_ne hc ..

theorem St.switch_cpu {c' : Cpu} {x : Slot} :
  (s.switch c p k).cpu c' = some x ↔ c' ≠ c ∧ s.cpu c' = some x
  := by
  by_cases hc : c' = c
  · subst hc
    have : (s.switch c' p k).cpu c' = none := update_self ..
    simp [this]
  · have : (s.switch c p k).cpu c' = s.cpu c' := update_of_ne hc ..
    simp [this, hc]

section

variable (h : Inv lk chan s)

include h

theorem Inv.switch_locks
    (hc : s.cpu c = some p) (hp : s.pc p = .inside j m) (hj : j ≠ .wakeup) (hk : k.parked = true) :
  Guarded (s.switch c p k).lock ((s.switch c p k).holds lk)
  := by
  have hbusy : s.busy (.proc p) := ⟨j, m, hp⟩
  have hnone (l : LockName) : ¬ k.holds lk l := Pc.not_holds_of_parked hk l
  apply h.locks.pass hbusy.holds (b := .scheduler c) (by simp)
  · intro l
    change ((s.switch c p k).pc p).holds lk l ↔ (s.pc p).holds lk l ∧ _
    rw [St.switch_pc_self, hp]
    cases j with
    | sleep => exact iff_of_false (hnone l) fun ⟨hl, hne⟩ => hne hl
    | wakeup => exact absurd rfl hj
    | yield mid => exact iff_of_false (hnone l) fun ⟨hl, hne⟩ => hne hl
  · intro l
    rw [St.holds, St.holds, St.switch_sched_self, h.away c p hc]
    simp
  · intro b hb hb' l
    cases b with
    | proc x =>
      change ((s.switch c p k).pc x).holds lk l ↔ _
      rw [St.switch_pc_of_ne s c k fun e => hb (by rw [e])]
      rfl
    | scheduler c' =>
      rw [St.holds, St.holds, St.switch_sched_of_ne s p k fun e => hb' (by rw [e])]
    | killer => rfl

/-- A process at the end of `sleep` or `yield` gives up the processor. -/
theorem Inv.switch
    (hc : s.cpu c = some p) (hp : s.pc p = .inside j m) (hj : j ≠ .wakeup) (hk : k.parked = true)
    (ht₀ : Snapshot chan s t₀) (hkeeps : Keeps (· ≠ p) t₀ s.pt)
    (hsleep : k = .switched → s.cond = true → ∃ w, s.pc w = .wakeAcquire)
    (hyield : k = .yielded true → ¬ Asleep chan s.pt p) :
  Inv lk chan (s.switch c p k)
  := by
  have hself := St.switch_pc_self (p := p) s c k
  have hne {x : Slot} (hx : x ≠ p) := St.switch_pc_of_ne s c k hx
  have hbusy : s.busy (.proc p) := ⟨j, m, hp⟩
  have hlocks := h.switch_locks hc hp hj hk
  have hback : (s.switch c p k).holds lk (.scheduler c) .ptable := by
    rw [St.holds, St.switch_sched_self]
    exact ⟨rfl, trivial⟩
  constructor
  · exact hlocks
  · intro c₁ c₂ x h₁ h₂
    exact h.once c₁ c₂ x (St.switch_cpu.mp h₁).2 (St.switch_cpu.mp h₂).2
  · intro x
    by_cases hx : x = p
    · subst hx
      rw [hself, hk]
      refine iff_of_true rfl ?_
      intro c' hc'
      obtain ⟨hne, hc'⟩ := St.switch_cpu.mp hc'
      exact hne (h.once c' c x hc' hc)
    · rw [hne hx, h.parked x]
      apply forall_congr'
      intro c'
      apply not_congr
      rw [St.switch_cpu]
      refine ⟨fun hc' => ⟨?_, hc'⟩, And.right⟩
      rintro rfl
      exact hx (Option.some.inj (hc'.symm.trans hc))
  · intro c' x hc'
    obtain ⟨hne, hc'⟩ := St.switch_cpu.mp hc'
    rw [St.switch_sched_of_ne s p k hne]
    exact h.away c' x hc'
  · refine ⟨_, Snapshot.of_idle hkeeps.good ?_ ?_⟩
    · intro c' x hx
      obtain ⟨hcne, hc'⟩ := St.switch_cpu.mp hx
      apply hkeeps.running x _ (ht₀.running c' x hc')
      rintro rfl
      exact hcne (h.once c' c x hc' hc)
    · -- The scheduler of `c` holds `ptable.lock`, and it is not in a critical section.
      intro b hb
      obtain rfl : b = .scheduler c := hlocks.unique hb.holds hback
      obtain ⟨n, hn⟩ := hb
      rw [St.switch_sched_self] at hn
      cases hn
  · have hpc : (s.switch c p k).pc = update s.pc p k := rfl
    apply h.heard.of_update (rfl : (s.switch c p k).cond = s.cond) hpc
    · exact fun x _ hs => hs
    · rintro (hcommit | ⟨n, rfl⟩)
      · exact absurd hcommit.holds (Pc.not_holds_of_parked hk lk)
      · cases hk
    · intro hw
      cases hp.symm.trans hw
    · intro hw
      rw [hp] at hw
      cases j with
      | sleep => cases hw
      | wakeup => exact absurd rfl hj
      | yield mid => cases hw
    · exact hsleep
    · exact hyield

/-- A process at the end of `wakeup1`: nobody sleeps on the channel. -/
theorem Inv.woke
    (hp : s.pc p = .inside .wakeup m) (ht₀ : Snapshot chan s t₀)
    (hkeeps : Keeps (fun _ => True) t₀ s.pt) (hnone : ∀ x, ¬ Asleep chan s.pt x) :
  Inv lk chan (s.goto p .wakeUnlock)
  := by
  have hself : (s.goto p .wakeUnlock).pc p = .wakeUnlock := St.goto_pc_self ..
  have hne {x : Slot} (hx : x ≠ p) : (s.goto p .wakeUnlock).pc x = s.pc x :=
    St.goto_pc_of_ne s _ hx
  have hlocks : Guarded (s.goto p .wakeUnlock).lock ((s.goto p .wakeUnlock).holds lk) := by
    apply h.locks.congr
    intro b l
    cases b with
    | proc x =>
      change ((s.goto p .wakeUnlock).pc x).holds lk l ↔ (s.pc x).holds lk l
      by_cases hx : x = p
      · rw [hx, hself, hp]
        rfl
      · rw [hne hx]
    | scheduler c | killer => rfl
  have hheld : (s.goto p .wakeUnlock).holds lk (.proc p) .ptable := by
    rw [St.holds, hself]
    exact Or.inr rfl
  constructor
  · exact hlocks
  · exact h.once
  · intro x
    by_cases hx : x = p
    · subst hx
      rw [hself]
      have := h.parked x
      rw [hp] at this
      exact this
    · rw [hne hx]
      exact h.parked x
  · exact h.away
  · refine ⟨_, Snapshot.of_idle hkeeps.good ?_ ?_⟩
    · intro c x hx
      exact hkeeps.running x trivial (ht₀.running c x hx)
    · intro b hb
      obtain rfl : b = .proc p := hlocks.unique hb.holds hheld
      obtain ⟨j', m', hm'⟩ := hb
      cases hself.symm.trans hm'
  · have hpc : (s.goto p .wakeUnlock).pc = update s.pc p .wakeUnlock := rfl
    apply h.heard.of_update (rfl : (s.goto p .wakeUnlock).cond = s.cond) hpc
    · exact fun x _ hs => hs
    · rintro (hcommit | ⟨n, hn⟩)
      · cases hcommit
      · cases hn
    · intro hw
      cases hp.symm.trans hw
    · exact fun _ => Or.inr hnone
    · simp
    · simp

/-- A process at the end of a critical section. -/
theorem Inv.finish (hc : s.cpu c = some p) (hp : s.pc p = .inside j (.ret ())) :
  Inv lk chan (s.finish c p j)
  := by
  obtain ⟨t₀, t₁, ht₀, hdo, -, hends⟩ := h.doing hc hp
  cases hdo.exec
  cases j with
  | sleep =>
    apply h.switch hc hp (by simp) rfl ht₀ hends
    · intro _ hcond
      exact h.heard.pending p _ hp hcond
    · simp
  | wakeup => exact h.woke hp ht₀ hends.1 hends.2
  | yield mid => exact h.switch hc hp (by simp) rfl ht₀ hends.1 (by simp) fun _ => hends.2

end

end

/-! ### `scheduler` and `kill` -/

section

variable {c : Cpu} {t₀ : PTable} {k' : SchedPc}

/-- A step in which no process moves and the table stays as it is. -/
structure Still (s s' : St) : Prop where
  pt : s'.pt = s.pt
  cond : s'.cond = s.cond
  cpu : s'.cpu = s.cpu
  pc : s'.pc = s.pc
  away : ∀ c, s.sched c = .away → s'.sched c = .away

theorem Inv.still
    (h : Inv lk chan s) (hstill : Still s s') (hlocks : Guarded s'.lock (s'.holds lk))
    (htable : ∃ t₀, Snapshot chan s' t₀) :
  Inv lk chan s'
  := by
  obtain ⟨hpt, hcond, hcpu, hpc, haway⟩ := hstill
  constructor
  · exact hlocks
  · rw [hcpu]
    exact h.once
  · rw [hcpu, hpc]
    exact h.parked
  · rw [hcpu]
    exact fun c x hx => haway c (h.away c x hx)
  · exact htable
  · constructor
    · rw [hpc, hcond]
      exact h.heard.committed
    · rw [hpc, hcond]
      exact h.heard.pending
    · rw [hpc, hcond, hpt]
      exact h.heard.asleep
    · rw [hpc, hpt]
      exact h.heard.yielded

/-- An agent that is not a process enters a critical section. -/
theorem Inv.start
    {a : Agent} (h : Inv lk chan s) (hfree : s.lock .ptable = none)
    (hlock : s'.lock = update s.lock .ptable (some a))
    (hstill : Still s s')
    (hself : ∀ l, s'.holds lk a l ↔ s.holds lk a l ∨ l = .ptable)
    (hothers : ∀ b, b ≠ a → ∀ l, s'.holds lk b l ↔ s.holds lk b l)
    (hworks : ∀ q, Good s.pt q → s'.Works chan s.pt a) :
  Inv lk chan s'
  := by
  obtain ⟨hgood, hrun⟩ := h.quiet (h.idle_of_free hfree)
  have hlocks : Guarded s'.lock (s'.holds lk) := by
    rw [hlock]
    exact h.locks.acquire hfree hself hothers
  apply h.still hstill hlocks
  refine ⟨_, Snapshot.of_start (a := a) ?_ ?_ ?_ ?_⟩
  · rw [hstill.pt]
    exact hgood
  · rw [hstill.pt, hstill.cpu]
    exact hrun
  · intro b hb hbusy
    exact hb (hlocks.unique hbusy.holds ((hself _).mpr (Or.inr rfl)))
  · obtain ⟨q, hq⟩ := hgood
    rw [hstill.pt]
    exact hworks q hq

/-- An agent that is not a process leaves a critical section. -/
theorem Inv.stop
    {a : Agent} (h : Inv lk chan s) (hheld : s.holds lk a .ptable)
    (hlock : s'.lock = update s.lock .ptable none)
    (hstill : Still s s')
    (hself : ∀ l, s'.holds lk a l ↔ s.holds lk a l ∧ l ≠ .ptable)
    (hothers : ∀ b, b ≠ a → ∀ l, s'.holds lk b l ↔ s.holds lk b l)
    (hgood : ∃ q, Good s.pt q)
    (hrun : ∀ c p, s.cpu c = some p → (s.pt.proc p).state = .running) :
  Inv lk chan s'
  := by
  have hlocks : Guarded s'.lock (s'.holds lk) := by
    rw [hlock]
    exact h.locks.release hheld hself hothers
  apply h.still hstill hlocks
  refine ⟨_, Snapshot.of_idle ?_ ?_ ?_⟩
  · rw [hstill.pt]
    exact hgood
  · rw [hstill.pt, hstill.cpu]
    exact hrun
  · intro b hbusy
    apply hlocks.not_holds _ b hbusy.holds
    rw [hlock, update_self]

/-- The scheduler of `c` moves: the others are where they were. -/
theorem St.away_setSched (hk : s.sched c ≠ .away) {c' : Cpu} (hc' : s.sched c' = .away) :
  update s.sched c k' c' = .away
  := by
  rw [update_of_ne, hc']
  rintro rfl
  exact hk hc'

theorem St.setSched_holds_of_ne
    (s s' : St) (c : Cpu) (k' : SchedPc) (hsched : s'.sched = update s.sched c k')
    (hpc : s'.pc = s.pc) (hkiller : s'.killer = s.killer) (b : Agent) (hb : b ≠ .scheduler c)
    (l : LockName) :
  s'.holds lk b l ↔ s.holds lk b l
  := by
  cases b with
  | proc x => rw [holds, holds, hpc]
  | scheduler c' =>
    rw [holds, holds, hsched, update_of_ne fun e => hb (by rw [e])]
  | killer => rw [holds, holds, hkiller]

theorem Inv.sched_enter
    (h : Inv lk chan s) (hs : s.sched c = .idle) (hfree : s.lock .ptable = none) :
  Inv lk chan ((s.setSched c (.inside Stepwise.scheduler)).setLock .ptable (some (.scheduler c)))
  := by
  apply Inv.start (a := .scheduler c) h hfree
  · rfl
  · exact ⟨rfl, rfl, rfl, rfl, fun c' => St.away_setSched (by rw [hs]; simp)⟩
  · intro l
    simp [St.holds, St.setLock, St.setSched, hs]
  · exact St.setSched_holds_of_ne _ _ c _ rfl rfl rfl
  · intro q hq m hm
    obtain rfl : Stepwise.scheduler = m := by
      simpa [St.setLock, St.setSched] using hm
    exact ⟨Stepwise.exec_scheduler _, Stepwise.scheduler_along hq⟩

variable {m m' : Micro PTable Fault (Option Slot)} {t' : PTable}

section

variable (h : Inv lk chan s)

include h

section

variable (hs : s.sched c = .inside m)

include hs

/-- What the scheduler can rely on before its context switch. -/
theorem Inv.choosing :
  ∃ t₀ r t₁, Snapshot chan s t₀ ∧ Doing chan none m (.ok (r, t₁)) s.pt ∧
    Ptable.scheduler t₀ = .ok (r, t₁) ∧ Keeps (fun _ => True) t₀ t₁ ∧
    ∀ p, r = some p → (t₀.proc p).state = .runnable ∧ (t₁.proc p).state = .running
  := by
  obtain ⟨t₀, ht₀⟩ := h.table
  obtain ⟨q, hq⟩ := ht₀.good
  obtain ⟨r, t₁, ht₁, hkeeps, hsome⟩ := scheduler_keeps hq
  exact ⟨t₀, r, t₁, ht₀, ht₁ ▸ ht₀.works (.scheduler c) m hs, ht₁, hkeeps, hsome⟩

theorem Inv.sched_step (hstep : m.step s.pt = some (.ok (m', t'))) :
  Inv lk chan ({ s with pt := t' }.setSched c (.inside m'))
  := by
  obtain ⟨t₀, r, t₁, ht₀, hdo, ht₁, -⟩ := h.choosing hs
  obtain ⟨hdo', honly⟩ := hdo.step hstep
  have hself : ({ s with pt := t' }.setSched c (.inside m')).sched c = .inside m' :=
    update_self ..
  apply Inv.section_step (a := .scheduler c) h
  · rfl
  · rfl
  · rfl
  · exact fun c' => St.away_setSched (by rw [hs]; simp)
  · exact fun x => .refl _
  · intro b l
    by_cases hb : b = .scheduler c
    · subst hb
      rw [St.holds, St.holds, hself, hs]
    · exact St.setSched_holds_of_ne s ({ s with pt := t' }.setSched c (.inside m')) c (.inside m')
        rfl rfl rfl b hb l
  · exact ⟨m', hself⟩
  · exact ht₀
  · intro m'' hm''
    rw [hself] at hm''
    cases hm''
    rw [ht₁]
    exact hdo'
  · exact honly
  · simp

end

/-- The scheduler ends its pass. -/
theorem Inv.sched_end
    (hs : s.sched c ≠ .away) (hheld : s.holds lk (.scheduler c) .ptable) (hgood : ∃ q, Good s.pt q)
    (hrun : ∀ c p, s.cpu c = some p → (s.pt.proc p).state = .running) :
  Inv lk chan ((s.setSched c .idle).setLock .ptable none)
  := by
  apply Inv.stop h hheld
  · rfl
  · exact ⟨rfl, rfl, rfl, rfl, fun c' => St.away_setSched hs⟩
  · intro l
    simp only [St.holds, St.setLock, St.setSched, update_self, and_false, false_iff]
    exact fun hl => hl.2 hl.1.1
  · exact St.setSched_holds_of_ne _ _ c _ rfl rfl rfl
  · exact hgood
  · exact hrun

/-- A pass of `scheduler` that finds no process. -/
theorem Inv.sched_none (hs : s.sched c = .inside (.ret none)) :
  Inv lk chan ((s.setSched c .idle).setLock .ptable none)
  := by
  obtain ⟨t₀, r, t₁, ht₀, hdo, -, hkeeps, -⟩ := h.choosing hs
  cases hdo.exec
  have hbusy : s.busy (.scheduler c) := ⟨_, hs⟩
  apply h.sched_end (by rw [hs]; simp) hbusy.holds hkeeps.good
  intro c' x hx
  exact hkeeps.running x trivial (ht₀.running c' x hx)

/-- The scheduler after a process gave up the processor. -/
theorem Inv.sched_back (hs : s.sched c = .back) :
  Inv lk chan ((s.setSched c .idle).setLock .ptable none)
  := by
  have hheld : s.holds lk (.scheduler c) .ptable := by
    rw [St.holds, hs]
    exact ⟨rfl, trivial⟩
  have hidle (b : Agent) : ¬ s.busy b := by
    by_cases hb : b = .scheduler c
    · subst hb
      rintro ⟨m, hm⟩
      cases hs.symm.trans hm
    · exact fun hbusy => hb (h.locks.unique hbusy.holds hheld)
  obtain ⟨hgood, hrun⟩ := h.quiet hidle
  exact h.sched_end (by rw [hs]; simp) hheld hgood hrun

theorem Inv.kill_enter (hfree : s.lock .ptable = none) (pid : Int32) :
  Inv lk chan ({ s with killer := some (Stepwise.kill pid) }.setLock .ptable (some .killer))
  := by
  apply Inv.start (a := .killer) h hfree
  · rfl
  · exact ⟨rfl, rfl, rfl, rfl, fun _ hc => hc⟩
  · intro l
    simp only [St.holds, St.setLock, Option.isSome_some, and_true]
    exact ⟨Or.inr, fun hl => hl.elim And.left id⟩
  · intro b hb l
    cases b with
    | proc x | scheduler c => rfl
    | killer => exact absurd rfl hb
  · intro q _ m hm
    cases hm
    exact ⟨pid, Stepwise.exec_kill pid _, Stepwise.kill_along pid⟩

end

variable {n n' : Micro PTable Fault Int}

section

variable (h : Inv lk chan s)

include h

section

variable (hk : s.killer = some n)

include hk

/-- What `kill` can rely on. -/
theorem Inv.killing :
  ∃ t₀ pid r t₁, Snapshot chan s t₀ ∧ Doing chan none n (.ok (r, t₁)) s.pt ∧
    Ptable.kill t₀ pid = .ok (r, t₁) ∧ Keeps (fun _ => True) t₀ t₁
  := by
  obtain ⟨t₀, ht₀⟩ := h.table
  obtain ⟨q, hq⟩ := ht₀.good
  obtain ⟨pid, hdo⟩ := ht₀.works .killer n hk
  obtain ⟨r, t₁, ht₁, hkeeps⟩ := kill_keeps hq pid
  exact ⟨t₀, pid, r, t₁, ht₀, ht₁ ▸ hdo, ht₁, hkeeps⟩

theorem Inv.kill_step (hstep : n.step s.pt = some (.ok (n', t'))) :
  Inv lk chan { s with pt := t', killer := some n' }
  := by
  obtain ⟨t₀, pid, r, t₁, ht₀, hdo, ht₁, -⟩ := h.killing hk
  obtain ⟨hdo', honly⟩ := hdo.step hstep
  apply Inv.section_step (a := .killer) h
  · rfl
  · rfl
  · rfl
  · exact fun _ hc => hc
  · exact fun x => .refl _
  · intro b l
    cases b with
    | proc x | scheduler c => rfl
    | killer => rw [St.holds, St.holds, hk]; rfl
  · rfl
  · exact ht₀
  · intro m hm
    cases hm
    exact ⟨pid, ht₁ ▸ hdo'⟩
  · exact honly
  · simp

end

theorem Inv.kill_exit {r : Int} (hk : s.killer = some (.ret r)) :
  Inv lk chan ({ s with killer := none }.setLock .ptable none)
  := by
  obtain ⟨t₀, pid, r, t₁, ht₀, hdo, -, hkeeps⟩ := h.killing hk
  cases hdo.exec
  have hbusy : s.busy .killer := by
    rw [St.busy, hk]
    rfl
  apply Inv.stop h hbusy.holds
  · rfl
  · exact ⟨rfl, rfl, rfl, rfl, fun _ hc => hc⟩
  · intro l
    simp only [St.holds, St.setLock, Option.isSome_none, Bool.false_eq_true, and_false, false_iff]
    exact fun hl => hl.2 hl.1.1
  · intro b hb l
    cases b with
    | proc x | scheduler c => rfl
    | killer => exact absurd rfl hb
  · exact hkeeps.good
  · intro c x hx
    exact hkeeps.running x trivial (ht₀.running c x hx)

omit h in
/-- A process that gets a processor holds `ptable.lock` and nothing else. -/
theorem Pc.resume_holds (hk : k.parked = true) (l : LockName) :
  k.resume.holds lk l ↔ l = .ptable
  := by
  cases k with
  | switched | yielded mid | dozing => rfl
  | _ => cases hk

omit h in
theorem Pc.resume_not (lk : LockName) (hk : k.parked = true) :
  k.resume.parked = false ∧ ¬ k.resume.committed lk ∧ (∀ j m, k.resume ≠ .inside j m) ∧
    k.waking = false ∧ k ≠ .wakeAcquire
  := by
  cases k with
  | switched | yielded mid | dozing => exact ⟨rfl, id, by simp [Pc.resume], rfl, by simp⟩
  | _ => cases hk

theorem Inv.dispatch_locks (hs : s.sched c = .inside m) (hp : (s.pc p).parked = true) :
  Guarded (s.dispatch c p).lock ((s.dispatch c p).holds lk)
  := by
  have hbusy : s.busy (.scheduler c) := ⟨m, hs⟩
  have hsched : (s.dispatch c p).sched = update s.sched c .away := rfl
  have hpc : (s.dispatch c p).pc = update s.pc p (s.pc p).resume := rfl
  apply h.locks.pass hbusy.holds (b := .proc p) (by simp)
  · intro l
    simp only [St.holds, hsched, update_self, and_false, false_iff]
    exact fun hl => hl.2 hl.1.1
  · intro l
    rw [St.holds, St.holds, hpc, update_self, Pc.resume_holds hp]
    exact ⟨Or.inr, fun hl => hl.elim (fun hl => absurd hl (Pc.not_holds_of_parked hp l)) id⟩
  · intro b hb hb' l
    cases b with
    | proc x => rw [St.holds, St.holds, hpc, update_of_ne fun e => hb' (by rw [e])]
    | scheduler c' =>
      rw [St.holds, St.holds, hsched, update_of_ne fun e => hb (by rw [e])]
    | killer => rfl

theorem Inv.dispatch (hs : s.sched c = .inside (.ret (some p))) :
  Inv lk chan (s.dispatch c p)
  := by
  obtain ⟨t₀, r, t₁, ht₀, hdo, -, hkeeps, hsome⟩ := h.choosing hs
  cases hdo.exec
  obtain ⟨hrunnable, hrunning⟩ := hsome p rfl
  have hnone (c' : Cpu) : s.cpu c' ≠ some p := by
    intro hc'
    cases (ht₀.running c' p hc').symm.trans hrunnable
  have hfree (x : Slot) : s.cpu c ≠ some x := by
    intro hx
    cases hs.symm.trans (h.away c x hx)
  have hpark : (s.pc p).parked = true := (h.parked p).mpr hnone
  obtain ⟨hrpark, hrcommit, hrinside, hwaking, hacquire⟩ := Pc.resume_not lk hpark
  have hself : (s.dispatch c p).pc p = (s.pc p).resume := update_self ..
  have hne {x : Slot} (hx : x ≠ p) : (s.dispatch c p).pc x = s.pc x :=
    update_of_ne hx ..
  have hcpu (c' : Cpu) (x : Slot) :
      (s.dispatch c p).cpu c' = some x ↔ (c' = c ∧ x = p) ∨ s.cpu c' = some x := by
    change update s.cpu c (some p) c' = some x ↔ _
    by_cases hc' : c' = c
    · subst hc'
      rw [update_self, Option.some.injEq]
      simp [hfree x, eq_comm]
    · rw [update_of_ne hc']
      simp [hc']
  have hlocks := h.dispatch_locks hs hpark
  have hheld : (s.dispatch c p).holds lk (.proc p) .ptable := by
    rw [St.holds, hself]
    exact (Pc.resume_holds hpark _).mpr rfl
  constructor
  · exact hlocks
  · intro c₁ c₂ x h₁ h₂
    rw [hcpu] at h₁ h₂
    obtain ⟨rfl, rfl⟩ | h₁ := h₁
    · obtain ⟨rfl, -⟩ | h₂ := h₂
      · rfl
      · exact absurd h₂ (hnone c₂)
    · obtain ⟨rfl, rfl⟩ | h₂ := h₂
      · exact absurd h₁ (hnone c₁)
      · exact h.once c₁ c₂ x h₁ h₂
  · intro x
    by_cases hx : x = p
    · subst hx
      rw [hself, hrpark]
      refine iff_of_false (by simp) fun hall => hall c ?_
      rw [hcpu]
      exact Or.inl ⟨rfl, rfl⟩
    · rw [hne hx, h.parked x]
      apply forall_congr'
      intro c'
      apply not_congr
      rw [hcpu]
      simp [hx]
  · intro c' x hc'
    change update s.sched c .away c' = .away
    by_cases hcc : c' = c
    · rw [hcc, update_self]
    · rw [update_of_ne hcc]
      obtain ⟨hc, -⟩ | hc' := (hcpu c' x).mp hc'
      · exact absurd hc hcc
      · exact h.away c' x hc'
  · refine ⟨_, Snapshot.of_idle hkeeps.good ?_ ?_⟩
    · intro c' x hc'
      obtain ⟨-, rfl⟩ | hc' := (hcpu c' x).mp hc'
      · exact hrunning
      · exact hkeeps.running x trivial (ht₀.running c' x hc')
    · intro b hb
      obtain rfl : b = .proc p := hlocks.unique hb.holds hheld
      obtain ⟨j, n, hn⟩ := hb
      exact hrinside j n (hself.symm.trans hn)
  · have hpc : (s.dispatch c p).pc = update s.pc p (s.pc p).resume := rfl
    apply h.heard.of_update (rfl : (s.dispatch c p).cond = s.cond) hpc
    · exact fun x _ hs => hs
    · rintro (hcommit | ⟨n, hn⟩)
      · exact absurd hcommit hrcommit
      · exact absurd hn (hrinside _ _)
    · intro hw
      rw [hw] at hpark
      cases hpark
    · intro hw
      cases hwaking.symm.trans hw
    · intro hswitched
      rw [hswitched] at hrpark
      cases hrpark
    · intro hyielded
      rw [hyielded] at hrpark
      cases hrpark

end

end

/-! ### All runs -/

section

variable (h : Initial s)

include h

theorem Initial.pc_cases (p : Slot) :
  ((∃ c, s.cpu c = some p) ∧ s.pc p = .idle) ∨
    ((∀ c, s.cpu c ≠ some p) ∧ (s.pc p = .dozing ∨ s.pc p = .yielded false))
  := by
  have hpc := h.pc p
  by_cases hcpu : ∃ c, s.cpu c = some p
  · rw [if_pos hcpu] at hpc
    exact Or.inl ⟨hcpu, hpc⟩
  · rw [if_neg hcpu] at hpc
    refine Or.inr ⟨fun c hc => hcpu ⟨c, hc⟩, ?_⟩
    split at hpc
    · exact Or.inl hpc
    · exact Or.inr hpc

theorem Initial.sched_cases (c : Cpu) :
  s.sched c = .idle ∨ s.sched c = .away
  := by
  have hsched := h.sched c
  split at hsched
  · exact Or.inr hsched
  · exact Or.inl hsched

theorem Initial.not_holds (a : Agent) (l : LockName) :
  ¬ s.holds lk a l
  := by
  cases a with
  | proc p =>
    change ¬ (s.pc p).holds lk l
    obtain ⟨-, hpc⟩ | ⟨-, hpc | hpc⟩ := h.pc_cases p
    · rw [hpc]
      exact id
    · rw [hpc]
      exact id
    · rw [hpc]
      exact id
  | scheduler c =>
    rintro ⟨-, hc⟩
    obtain hs | hs := h.sched_cases c
    · rw [hs] at hc
      exact hc
    · rw [hs] at hc
      exact hc
  | killer =>
    rintro ⟨-, hk⟩
    rw [h.killer] at hk
    cases hk

theorem Initial.not_busy (a : Agent) :
  ¬ s.busy a
  := by
  intro hbusy
  apply h.not_holds a .ptable (hbusy.holds : s.holds .own a .ptable)

theorem inv_of_initial :
  Inv lk chan s
  := by
  constructor
  · intro l a
    rw [h.lock l]
    exact iff_of_false (by simp) (h.not_holds a l)
  · exact h.once
  · intro p
    obtain ⟨⟨c, hc⟩, hpc⟩ | ⟨hcpu, hpc | hpc⟩ := h.pc_cases p
    · rw [hpc]
      exact iff_of_false (by simp [Pc.parked]) fun hno => hno c hc
    · rw [hpc]
      exact iff_of_true rfl hcpu
    · rw [hpc]
      exact iff_of_true rfl hcpu
  · intro c p hc
    have hsched := h.sched c
    rw [hc] at hsched
    exact hsched
  · exact ⟨s.pt, Snapshot.of_idle h.good h.running h.not_busy⟩
  · constructor
    · intro p hp
      exact absurd hp.holds (h.not_holds (.proc p) lk)
    · intro p m hp
      exact absurd ⟨_, m, hp⟩ (h.not_busy (.proc p))
    all_goals
      intro p hp
      obtain ⟨-, hpc⟩ | ⟨-, hpc | hpc⟩ := h.pc_cases p <;> cases hpc.symm.trans hp

end

section

variable (h : Inv lk chan s)

include h

theorem Inv.run {c : Cpu} (hc : s.cpu c = some p) :
  System.Outcome (fun _ => True) (Inv lk chan) (s.run c p)
  := by
  rw [St.run]
  cases hp : s.pc p with
  | inside j m =>
    cases hstep : m.step s.pt with
    | none =>
      obtain ⟨⟨⟩, rfl⟩ := Micro.exec_of_step_none hstep
      exact h.finish hc hp
    | some r =>
      cases r with
      | error f =>
        obtain ⟨_, _, -, hdo, -⟩ := h.doing hc hp
        exact absurd hstep (hdo.not_error f)
      | ok r =>
        simp only [hstep]
        exact h.run_step hc hp hstep
  | _ => trivial

theorem Inv.runSched {c : Cpu} :
  System.Outcome (fun _ => True) (Inv lk chan) (s.runSched c)
  := by
  rw [St.runSched]
  cases hs : s.sched c with
  | idle =>
    apply System.Outcome.guard
    exact h.sched_enter hs
  | inside m =>
    obtain ⟨_, _, _, -, hdo, -⟩ := h.choosing hs
    match m with
    | .ret none => exact h.sched_none hs
    | .ret (some p) => exact h.dispatch hs
    | .fail f => exact absurd rfl (hdo.not_error f)
    | .act f k =>
      cases hstep : (Micro.act f k).step s.pt with
      | none => cases hstep
      | some r =>
        cases r with
        | error e => exact absurd hstep (hdo.not_error e)
        | ok r =>
          simp only [hstep]
          exact h.sched_step hs hstep
  | away => trivial
  | back => exact h.sched_back hs

theorem Inv.runKill :
  System.Outcome (fun _ => True) (Inv lk chan) s.runKill
  := by
  rw [St.runKill]
  cases hk : s.killer with
  | none => trivial
  | some m =>
    cases hstep : m.step s.pt with
    | none =>
      obtain ⟨r, rfl⟩ := Micro.exec_of_step_none hstep
      simp only [hstep]
      exact h.kill_exit hk
    | some r =>
      cases r with
      | error f =>
        obtain ⟨_, _, _, _, -, hdo, -⟩ := h.killing hk
        exact absurd hstep (hdo.not_error f)
      | ok r =>
        simp only [hstep]
        exact h.kill_step hk hstep

/-- Every step keeps the invariant, and none fails. -/
theorem Inv.step (l : Step) :
  System.Outcome (fun _ => True) (Inv lk chan) (s.step lk chan l)
  := by
  cases l with
  | move c ch =>
    rw [St.step]
    cases hc : s.cpu c with
    | none => trivial
    | some p =>
      cases hm : SleepLoop.move lk chan p s.cond (s.pc p) ch with
      | none =>
        simp only [hm]
        trivial
      | some r =>
        obtain ⟨op, k⟩ := r
        simp only [hm]
        cases hperf : s.perform p op with
        | none => trivial
        | some s₁ => exact h.move hm hperf
  | run c =>
    rw [St.step]
    cases hc : s.cpu c with
    | none => trivial
    | some p => exact h.run hc
  | sched c => exact h.runSched
  | kill pid =>
    apply System.Outcome.guard
    exact fun hfree => h.kill_enter hfree pid
  | runKill => exact h.runKill

end

/-- No wake-up is lost. -/
theorem no_lost_wakeup
    (lk : LockName) (chan : Chan) (s : St) (h : (loop lk chan).Reachable s)
    (hwaker : ∀ w, (s.pc w).waking = false) (hcond : s.cond = true) (p : Slot)
    (hp : (s.pc p).tested = true) :
  ¬ Asleep chan s.pt p
  := by
  have hinv : Inv lk chan s :=
    (System.Reach.outcome (fun _ => inv_of_initial) (fun s l h _ => h.step l) h).1
  intro hs
  obtain ⟨w, hw⟩ := hinv.waker hp hs hcond
  cases (hwaker w).symm.trans hw

/-! ### The kernel's states as initial states -/

/-- The state in which the running processes of a state of the kernel start. -/
def ofSys (s : Sys) : St where
  pt := s.pt
  cond := false
  lock := fun _ => none
  cpu := s.cpu
  pc := fun p =>
    if (∃ c, s.cpu c = some p) then .idle
    else if (s.pt.proc p).state = .sleeping then .dozing else .yielded false
  sched := fun c => if (s.cpu c).isSome then .away else .idle
  killer := none

theorem initial_ofSys {s : Sys} (h : Ptable.Inv s) :
  Initial (ofSys s)
  := by
  constructor
  · exact h.good
  · exact fun _ => rfl
  · exact h.running
  · exact h.cpu_inj
  · intro p
    change if ∃ c, s.cpu c = some p then _ else _
    split
    · exact if_pos ‹_›
    · rename_i hcpu
      split
      · exact (if_neg hcpu).trans (if_pos ‹_›)
      · exact (if_neg hcpu).trans (if_neg ‹_›)
  · intro c
    change if (s.cpu c).isSome then _ else _
    split
    · exact if_pos ‹_›
    · exact if_neg ‹_›
  · rfl

/-- The process on the processor 0 goes to sleep, and the one on the processor 1 wakes it up. -/
def wakeRun : List Step :=
  [.move 0 .wait, .move 0 .go, .move 0 .go, .move 0 .go] ++ List.replicate 15 (.run 0) ++
    [.sched 0, .move 1 .wake, .move 1 .go, .move 1 .go] ++ List.replicate 16 (.run 1)

/-- `init` tests `cond` as false and sleeps; its child sets `cond` and wakes it up. -/
theorem no_lost_wakeup_of_child :
  ∃ s, (loop .own (.other 7)).Reachable s ∧ s.cond = true ∧ (s.pc 0).tested = true ∧
    ¬ Asleep (.other 7) s.pt 0
  := by
  have hrun : ((kernel.run firstSys forkRun).bind fun s₀ =>
      (loop .own (.other 7)).run (ofSys s₀) wakeRun).any
        (fun s => s.cond && (s.pc 0).tested && decide (∀ w, (s.pc w).waking = false)) = true := by
    decide +kernel
  obtain ⟨s, hs, hx⟩ := (Option.any_eq_true ..).mp hrun
  obtain ⟨s₀, hs₀, hs⟩ := Option.bind_eq_some_iff.mp hs
  simp only [Bool.and_eq_true, decide_eq_true_eq] at hx
  obtain ⟨⟨hcond, htested⟩, hwaker⟩ := hx
  have hinv : Ptable.Inv s₀ := by
    apply (reach_inv (.run (.init booted_firstSys) _ hs₀)).1
    intro l hl s
    apply AllocFresh.of_atomic
    revert l
    decide
  have hreach : (loop .own (.other 7)).Reachable s :=
    .run (.init (initial_ofSys hinv)) (fun _ _ _ => trivial) hs
  exact ⟨s, hreach, hcond, htested, no_lost_wakeup _ _ s hreach hwaker hcond 0 htested⟩

end Xv6.Ptable.SleepLoop
