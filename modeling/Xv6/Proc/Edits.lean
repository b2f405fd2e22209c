import Xv6.Proc.View

/-!
# What a step does to one slot

Every step of the kernel changes a slot by a few edits, one after another.  Facts that hold for
every edit, whatever the rest of the state, follow for the steps.
-/

namespace Xv6.Ptable.View

variable {v v₁ v' : View} {l : Label} {d : Option Slot} {c : Cpu} {p x : Slot}

/-- The edits of the slot `x` in a step with the label `l`. -/
inductive Edit (v : View) (l : Label) (x : Slot) (y : Proc) : Proc → Prop where
  | promotion : Edit v l x y (promotion y)
  | resumed (ticks : UInt32) (chan : Chan) : Edit v l x y { dispatched ticks y with chan := chan }
  | yield (ticks : UInt32) : Edit v l x y (tallied ticks { charge ticks y with state := .runnable })
  | sleep (ticks : UInt32) (chan : Chan)
      (h : chan = .proc x ∨ ∃ c, l = .sleep c chan ∧ v.cpu c = some x) :
      Edit v l x y (tallied ticks (charge ticks { y with chan := chan, state := .sleeping }))
  | woken {st : ProcState} (h : st = y.state ∨ y.state = .sleeping ∧ st = .runnable)
      (parent : Option Slot) : Edit v l x y { y with state := st, parent := parent }
  | exitClose : Edit v l x y { y with ofile := fun _ => none, cwd := none }
  | exit (ticks : UInt32) : Edit v l x y (tallied ticks { y with state := .zombie })
  | reaped : Edit v l x y (reaped y)
  | killed {pid : Int32} (hl : l = .kill pid) : Edit v l x y (killed y)
  | reprioritized (priority : Nat) : Edit v l x y (reprioritized priority y)
  | alloc (pid : UInt32) : Edit v l x y { y with state := .embryo, pid := pid }
  | prepared : Edit v l x y (preparedProc y)
  | filled (p : Slot) (z : Proc) : Edit v l x y (filledProc p z y)
  | rolledBack : Edit v l x y (rolledBack y)
  | setup (root : Nat) : Edit v l x y { y with sz := PGSIZE, cwd := some root }
  | enqueue (uid gid : UInt32) : Edit v l x y { y with state := .runnable, uid := uid, gid := gid }

/-- Some edits of a slot, one after another. -/
abbrev Edits (v : View) (l : Label) (x : Slot) : Proc → Proc → Prop :=
  Relation.ReflTransGen (Edit v l x)

namespace Edits

/-- An edit of one slot. -/
theorem modify
    {f f' : Slot → Proc} {y : Proc} (h : Edit v l p (f p) y) (hf : f' = Function.update f p y)
    (x : Slot) :
  Edits v l x (f x) (f' x)
  := by
  rw [hf]
  rcases eq_or_ne x p with rfl | hx
  · rw [Function.update_self]
    exact .single h
  · rw [Function.update_of_ne hx]

theorem waited (h : Waited v₁ c p v') (x : Slot) :
  Edits v l x (v₁.proc x) (v'.proc x)
  := by
  cases h with
  | reaped y => exact modify .reaped rfl x
  | failed => exact .refl
  | asleep => exact modify (.sleep v₁.ticks _ (.inl rfl)) rfl x

theorem promote (x : Slot) :
  Edits v l x (v.proc x) (v.promote.proc x)
  := by
  rw [View.promote]
  split
  · exact .single .promotion
  · exact .refl

theorem dispatch (v v₁ : View) (l : Label) (c : Cpu) (p x : Slot) :
  Edits v l x (v₁.proc x) (((v₁.dispatch c p).tidy p).proc x)
  := by
  rcases eq_or_ne x p with rfl | hx
  · obtain ⟨chan, htidy⟩ := (v₁.dispatch c x).tidy_proc x x
    rw [htidy, dispatch_proc_self]
    exact .single (.resumed _ chan)
  · rw [tidy_proc_of_ne _ hx, dispatch_proc_of_ne _ _ hx]

theorem stepOn (h : StepOn v c p l v') (hc : v.cpu c = some p) (x : Slot) :
  Edits v l x (v.proc x) (v'.proc x)
  := by
  cases h with
  | yield => exact modify (.yield v.ticks) rfl x
  | sleep chan => exact modify (.sleep v.ticks chan (.inr ⟨c, rfl, hc⟩)) rfl x
  | exitClose => exact modify .exitClose rfl x
  | exit =>
    obtain ⟨st, parent, heq, hst, -⟩ := v.bereaved_eq p (v.proc x)
    have hbereaved : Edit v (.exit c) x (v.proc x) (v.bereaved p (v.proc x)) := by
      rw [heq]
      exact .woken hst parent
    apply Relation.ReflTransGen.head hbereaved
    exact modify (f := fun x => v.bereaved p (v.proc x)) (.exit v.ticks) rfl x
  | wait _ hw => exact waited hw x
  | allocNone | allocRead => exact .refl
  | alloc => exact modify (.alloc v.nextpid) rfl x
  | kalloc => exact modify .prepared rfl x
  | copyuvm => exact modify (.filled p _) rfl x
  | rollback => exact modify .rolledBack rfl x
  | forkEnqueue => exact modify (.enqueue _ _) rfl x

theorem stepBoot (h : StepBoot v l v') (x : Slot) :
  Edits v l x (v.proc x) (v'.proc x)
  := by
  cases h with
  | alloc => exact modify (.alloc v.nextpid) rfl x
  | kalloc => exact modify .prepared rfl x
  | setup _ root => exact modify (.setup root) rfl x
  | enqueue => exact modify (.enqueue _ _) rfl x

end Edits

/-- A step makes edits of the slots only. -/
theorem Step.edits (h : Step v l d v') (x : Slot) :
  Edits v l x (v.proc x) (v'.proc x)
  := by
  cases h with
  | tick | killNone | setpriorityNone => exact .refl
  | idle => exact .promote x
  | @dispatch c p _ _ _ _ hres =>
    have hdispatch := (Edits.promote x).trans (Edits.dispatch v v.promote (.schedule c) c p x)
    rw [Resumed] at hres
    split at hres
    · exact hdispatch.trans (Edits.waited hres x)
    · rw [hres]
      exact hdispatch
  | wakeup chan =>
    obtain ⟨st, heq, hst⟩ := woken_eq chan (v.proc x)
    change Edits v _ x (v.proc x) (Ptable.woken chan (v.proc x))
    rw [heq]
    exact .single (.woken hst _)
  | kill => exact .modify (.killed rfl) rfl x
  | setpriority => exact .modify (.reprioritized _) rfl x
  | boot h => exact .stepBoot h x
  | on hc h => exact .stepOn h hc x

end Xv6.Ptable.View
