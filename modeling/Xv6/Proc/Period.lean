import Xv6.Proc.Reachable

/-!
# The time between promotions

`ptable.PromoteAtTime` is a point in time, and a pass of `scheduler` promotes when `ticks` has
reached it.  A history variable counts the ticks since the last promotion.  As long as neither
`ticks` nor a new `PromoteAtTime` passes the largest `uint`, a pass promotes exactly if
`TICKS_TO_PROMOTE` ticks have gone by.
-/

namespace Xv6.Ptable

/-- A pass of `scheduler` that starts on the table promotes. -/
def Promotes (t : PTable) : Prop := t.ticks ≥ t.promoteAtTime

instance (t : PTable) : Decidable (Promotes t) :=
  inferInstanceAs (Decidable (_ ≥ _))

/-- The number of ticks since the last promotion, if there was one. -/
def sincePromotion (s : Sys) (l : Label) (_ : Sys) (g : Option Nat) : Option Nat :=
  match l with
  | .tick => g.map (· + 1)
  | .schedule _ => if Promotes s.pt then some 0 else g
  | _ => g

/-- The kernel with the number of ticks since the last promotion. -/
def promotionClock : System (Sys × Option Nat) Label Fault :=
  kernel.observe (fun _ => none) sincePromotion

/-- The times before and after a step do not pass the largest `uint`, and the timer counts no tick
before `userinit` is done. -/
def TimesFit (x : Sys × Option Nat) : Label → Prop
  | .tick => x.1.pt.ticks ≠ 0xffffffff ∧ x.1.boot = .done
  | .schedule _ => Promotes x.1.pt → x.1.pt.ticks.toNat + TICKS_TO_PROMOTE.toNat < 2 ^ 32
  | .bootEnqueue => x.1.pt.ticks.toNat + TICKS_TO_PROMOTE.toNat < 2 ^ 32
  | _ => True

instance (x : Sys × Option Nat) (l : Label) : Decidable (TimesFit x l) :=
  match l with
  | .tick => inferInstanceAs (Decidable (_ ∧ _))
  | .schedule _ => inferInstanceAs (Decidable (_ → _))
  | .bootEnqueue => inferInstanceAs (Decidable (_ < _))
  | .yield _ | .sleep _ _ | .wakeup _ | .exitClose _ | .exit _ | .wait _ | .kill _
  | .setpriority _ _ | .allocproc _ | .allocRead _ | .allocLock _ | .kalloc _ _ | .copyuvm _ _
  | .forkEnqueue _ | .bootAlloc | .bootKalloc _ | .bootSetup _ _ => .isTrue trivial

/-! ### What steps do to the times -/

section

variable {v v' : View} {l : Label} {d : Option Slot} {c : Cpu} {p : Slot}

/-- The times do not change, and `userinit` does not become undone. -/
structure SameClock (v v' : View) : Prop where
  ticks : v'.ticks = v.ticks
  promoteAtTime : v'.promoteAtTime = v.promoteAtTime
  boot : v.boot = .done → v'.boot = .done

namespace SameClock

theorem refl (v : View) : SameClock v v := ⟨rfl, rfl, id⟩

theorem trans {v₁ v₂ v₃ : View} (h : SameClock v₁ v₂) (h' : SameClock v₂ v₃) :
  SameClock v₁ v₃
  := ⟨h'.ticks.trans h.ticks, h'.promoteAtTime.trans h.promoteAtTime, fun hb => h'.boot (h.boot hb)⟩

theorem tidy (v : View) (p : Slot) : SameClock v (v.tidy p) := by
  rw [View.tidy]
  split
  · exact ⟨rfl, rfl, id⟩
  · exact refl v

theorem waited (h : View.Waited v c p v') : SameClock v v' := by
  cases h <;> exact ⟨rfl, rfl, id⟩

theorem resumed (h : View.Resumed v c p v') : SameClock v v' := by
  rw [View.Resumed] at h
  split at h
  · exact (tidy v p).trans (waited h)
  · rw [h]
    exact tidy v p

theorem stepOn (h : View.StepOn v c p l v') : SameClock v v' := by
  cases h with
  | wait hcall hw => exact waited hw
  | _ => exact ⟨rfl, rfl, id⟩

end SameClock

/-- What a step does to the times. -/
inductive Clocked (v : View) : Label → View → Prop where
  | tick : Clocked v .tick { v with ticks := v.ticks + 1 }
  | pass {v' : View} (c : Cpu) (h : SameClock v.promote v') : Clocked v (.schedule c) v'
  | boot {v' : View} (hboot : v.boot ≠ .done) (hticks : v'.ticks = v.ticks)
      (htime : v'.promoteAtTime = v.ticks + TICKS_TO_PROMOTE) : Clocked v .bootEnqueue v'
  | same {l : Label} {v' : View} (h : SameClock v v') (hl : ∀ c, l ≠ .schedule c)
      (hl' : l ≠ .tick) : Clocked v l v'

theorem View.Step.clocked (h : View.Step v l d v') :
  Clocked v l v'
  := by
  cases h with
  | tick => exact .tick
  | idle hc hno => exact .pass _ (.refl _)
  | dispatch hc hp hmax hres =>
    refine .pass _ (SameClock.trans ?_ (.resumed hres))
    exact ⟨rfl, rfl, id⟩
  | wakeup => exact .same ⟨rfl, rfl, id⟩ nofun nofun
  | killNone => exact .same (.refl _) nofun nofun
  | kill => exact .same ⟨rfl, rfl, id⟩ nofun nofun
  | setpriorityNone => exact .same (.refl _) nofun nofun
  | setpriority => exact .same ⟨rfl, rfl, id⟩ nofun nofun
  | boot h =>
    cases h with
    | alloc hboot | kalloc hboot | setup hboot =>
      exact .same ⟨rfl, rfl, fun hd => by cases hboot.symm.trans hd⟩ nofun nofun
    | enqueue hboot =>
      refine .boot ?_ rfl rfl
      rw [hboot]
      nofun
  | on hc h =>
    refine .same (.stepOn h) ?_ ?_
    · rintro c rfl
      cases h.cpu
    · rintro rfl
      cases h.cpu

/-- Only the timer changes `ticks`. -/
theorem View.Step.ticks_eq (h : View.Step v l d v') (hl : l ≠ .tick) :
  v'.ticks = v.ticks
  := by
  cases h.clocked with
  | tick => cases hl rfl
  | pass c hsame =>
    rw [hsame.ticks, View.promote]
    split <;> rfl
  | boot _ hticks => exact hticks
  | same hsame => exact hsame.ticks

end

/-! ### The period -/

/-- The number of ticks that the history counts agrees with the times of the table. -/
def Timing (s : Sys) (g : Option Nat) : Prop :=
  ∀ n, g = some n →
    s.pt.promoteAtTime.toNat + n = s.pt.ticks.toNat + TICKS_TO_PROMOTE.toNat ∧
      (s.boot ≠ .done → n = 0)

theorem Timing.of_same
    {s s' : Sys} {g : Option Nat} (h : Timing s g) (hsame : SameClock s.view s'.view) :
  Timing s' g
  := by
  intro n hn
  obtain ⟨htime, hboot⟩ := h n hn
  have hticks : s'.pt.ticks = s.pt.ticks := hsame.ticks
  have hpromote : s'.pt.promoteAtTime = s.pt.promoteAtTime := hsame.promoteAtTime
  refine ⟨by rw [hticks, hpromote, htime], ?_⟩
  intro hb
  apply hboot
  intro hd
  exact hb (hsame.boot hd)

/-- The times when `PromoteAtTime` is set anew. -/
theorem Timing.of_set
    {s s' : Sys} (hticks : s'.pt.ticks = s.pt.ticks)
    (htime : s'.pt.promoteAtTime = s.pt.ticks + TICKS_TO_PROMOTE)
    (hfit : s.pt.ticks.toNat + TICKS_TO_PROMOTE.toNat < 2 ^ 32) :
  Timing s' (some 0)
  := by
  rintro n ⟨⟩
  refine ⟨?_, fun _ => rfl⟩
  rw [hticks, htime, UInt32.toNat_add, Nat.mod_eq_of_lt hfit, Nat.add_zero]

theorem Timing.step
    {s s' : Sys} {g : Option Nat} {l : Label} (h : Timing s g) (hinv : Inv s)
    (hok : TimesFit (s, g) l) (hstep : kernel.step s l = some (.ok s')) :
  Timing s' (sincePromotion s l s' g)
  := by
  have hclock := (hinv.view_step hstep).clocked
  generalize hv : s'.view = v' at hclock
  cases hclock with
  | tick =>
    obtain ⟨hmax, hdone⟩ := hok
    have hticks : s'.pt.ticks = s.pt.ticks + 1 := congrArg View.ticks hv
    have htime : s'.pt.promoteAtTime = s.pt.promoteAtTime := congrArg View.promoteAtTime hv
    have hboot : s'.boot = s.boot := congrArg View.boot hv
    have hsucc : s'.pt.ticks.toNat = s.pt.ticks.toNat + 1 := by
      have hne : s.pt.ticks.toNat ≠ 4294967295 := fun heq => hmax (UInt32.toNat_inj.mp heq)
      have hlt := s.pt.ticks.toNat_lt
      rw [hticks, UInt32.toNat_add, UInt32.toNat_one]
      omega
    intro n hn
    rw [sincePromotion, Option.map_eq_some_iff] at hn
    obtain ⟨m, hm, rfl⟩ := hn
    obtain ⟨heq, -⟩ := h m hm
    refine ⟨by rw [htime, hsucc]; omega, ?_⟩
    intro hb
    rw [hboot] at hb
    exact absurd hdone hb
  | pass c hsame =>
    subst hv
    rw [View.promote] at hsame
    rw [sincePromotion]
    by_cases hdue : s.view.Due
    · rw [if_pos hdue] at hsame
      rw [if_pos (by exact hdue)]
      exact .of_set hsame.ticks hsame.promoteAtTime (hok hdue)
    · rw [if_neg hdue] at hsame
      rw [if_neg (by exact hdue)]
      exact h.of_same hsame
  | boot hboot hticks htime =>
    subst hv
    intro n hn
    have hset : Timing s' (some 0) := .of_set hticks htime hok
    apply hset
    rw [(h n hn).2 hboot]
  | same hsame hl hl' =>
    subst hv
    have hg : sincePromotion s l s' g = g := by
      unfold sincePromotion
      split
      · exact absurd rfl hl'
      · exact absurd rfl (hl _)
      · rfl
    rw [hg]
    exact h.of_same hsame

/-- In every run in which the times do not pass the largest `uint`, a pass of `scheduler` promotes
exactly if at least `TICKS_TO_PROMOTE` ticks have gone by since the last promotion. -/
theorem promotion_period
    {x : Sys × Option Nat} (h : promotionClock.Reach TimesFit x) {n : Nat} (hn : x.2 = some n) :
  Promotes x.1.pt ↔ TICKS_TO_PROMOTE.toNat ≤ n
  := by
  have htiming : Timing x.1 x.2 := by
    apply h.observe_invariant
    · intro s _ n hn
      cases hn
    · intro s g l s' hreach hI hok hstep
      apply hI.step (inv_of_reachable hreach) hok hstep
  obtain ⟨htime, -⟩ := htiming n hn
  rw [Promotes, ge_iff_le, UInt32.le_iff_toNat_le]
  omega

/-! ### Runs -/

/-- The kernel after `n` more ticks. -/
def Sys.after (s : Sys) (n : UInt32) : Sys :=
  { s with pt := { s.pt with ticks := s.pt.ticks + n } }

theorem Sys.after_zero (s : Sys) : s.after 0 = s := by
  rw [Sys.after, UInt32.add_zero]

theorem Sys.after_add (s : Sys) (m n : UInt32) : (s.after m).after n = s.after (m + n) := by
  simp only [Sys.after, UInt32.add_assoc]

/-- Any number of ticks can go by. -/
theorem reach_after
    {ok : Sys × Option Nat → Label → Prop} {s : Sys} {g : Option Nat}
    (h : promotionClock.Reach ok (s, g)) (n : Nat)
    (hok : ∀ m < n, ok (s.after (.ofNat m), g.map (· + m)) .tick) :
  promotionClock.Reach ok (s.after (.ofNat n), g.map (· + n))
  := by
  induction n with
  | zero =>
    rw [show UInt32.ofNat 0 = 0 from rfl, Sys.after_zero]
    cases g <;> exact h
  | succ n ih =>
    refine (ih fun m hm => hok m (by omega)).step (hok n (by omega))
      (System.observe_step.mpr ⟨?_, ?_⟩)
    · rw [UInt32.ofNat_add, ← Sys.after_add]
      rfl
    · cases g <;> rfl

/-- The states after `init` has started, `n` ticks have gone by, and an idle processor has made a
pass of `scheduler`. -/
theorem exists_pass
    {ok : Sys × Option Nat → Label → Prop} [∀ x l, Decidable (ok x l)] (n : Nat)
    (P : Sys × Option Nat → Prop) [DecidablePred P]
    (hok : ∀ s : Sys, s.boot = .done → s.pt.ticks = 0 →
      ∀ m < n, ok (s.after (.ofNat m), none) .tick)
    (h : ((promotionClock.guard ok).run (firstSys, none) initRun).any (fun x => decide (
      x.1.boot = .done ∧ x.1.pt.ticks = 0 ∧ x.2 = none ∧
      ((promotionClock.guard ok).step (x.1.after (.ofNat n), none) (.schedule 1)).any
        (fun r => r.toOption.any fun y => decide (P y)) = true)) = true) :
  ∃ x, promotionClock.Reach ok x ∧ P x
  := by
  have hstart : (promotionClock.guard ok).init (firstSys, none) := ⟨booted_firstSys, rfl⟩
  obtain ⟨⟨s, g⟩, -, hreach, hboot, hticks, hg, hpass⟩ := System.exists_of_run _ hstart initRun _ h
  obtain rfl : g = none := hg
  have hlater := reach_after (.of_guard hreach) n (hok s hboot hticks)
  obtain ⟨r, hr, hy⟩ := (Option.any_eq_true ..).mp hpass
  cases r with
  | error f => cases hy
  | ok y =>
    obtain ⟨hok', hstep⟩ := System.guard_step.mp hr
    exact ⟨y, hlater.step hok' hstep, of_decide_eq_true hy⟩

/-- The first promotion after `TICKS_TO_PROMOTE` ticks. -/
theorem promotion_period_init :
  ∃ x, promotionClock.Reach TimesFit x ∧ x.2 = some 0 ∧ ¬ Promotes x.1.pt
  := by
  have hticks : ∀ s : Sys, s.boot = .done → s.pt.ticks = 0 →
      ∀ m < 4000, TimesFit (s.after (.ofNat m), none) .tick := by
    intro s hboot hticks m hm
    refine ⟨?_, hboot⟩
    intro heq
    have hmax : (UInt32.ofNat m).toNat = 4294967295 := by
      rw [← UInt32.zero_add (UInt32.ofNat m), ← hticks]
      exact congrArg UInt32.toNat heq
    rw [UInt32.toNat_ofNat'] at hmax
    omega
  obtain ⟨x, hreach, hx⟩ :=
    exists_pass 4000 (fun x => x.2 = some 0) hticks (by decide +kernel)
  refine ⟨x, hreach, hx, ?_⟩
  rw [promotion_period hreach hx]
  decide

/-- The largest `uint` is near, and the new `PromoteAtTime` passes it.  The next pass of `scheduler`
promotes again, although no tick has gone by. -/
theorem promotion_without_tick :
  ∃ x, promotionClock.Reachable x ∧ x.1.cpu 1 = none ∧ x.2 = some 0 ∧ Promotes x.1.pt
  := exists_pass 4294967295 (fun x => x.1.cpu 1 = none ∧ x.2 = some 0 ∧ Promotes x.1.pt)
    (fun _ _ _ _ _ => trivial) (by decide +kernel)

end Xv6.Ptable
