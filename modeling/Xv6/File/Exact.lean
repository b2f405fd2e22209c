import Xv6.File.Refs

/-!
# The reference counts are exact

Every step of the system keeps the invariant of the open files, and none fails.  Between the calls
the count of a file is the number of descriptors that point to it.
-/

namespace Xv6.Ftable

open Ptable (Slot NOFILE)
open Function

variable {s s' : St} {p : Slot} {f : FileId}

/-! ### Steps -/

theorem Inv.active (h : Inv s) (hk : s.pc p ≠ .user) : s.life p = .active
  := by
  by_contra hp
  exact hk (h.idle p hp)

theorem St.fdalloc_eq_some {fd : Fin NOFILE} (h : s.fdalloc p = some fd) :
  s.ofile p fd = none
  := by
  have := List.find?_some h
  simpa using this

theorem St.argfd_eq_some {fd : Int} {i : Fin NOFILE} (h : s.argfd p fd = some (i, f)) :
  s.ofile p i = some f
  := by
  rw [St.argfd] at h
  split at h
  · obtain ⟨g, hg, heq⟩ := Option.map_eq_some_iff.mp h
    cases heq
    exact hg
  · cases h

section

variable (h : Inv s)

include h

section

variable (hp : s.life p = .active) (page : Option Nat)

include hp

/-- The step of `fileclose` after its critical section. -/
theorem Inv.dropped {ff : File} {j : After} (hk : s.pc p = .dropped ff j) :
  Fine (s.stepProc p page)
  := by
  rw [St.stepProc, hk]
  dsimp only
  by_cases htype : ff.type = .pipe
  · rw [if_pos htype]
    exact h.pipeclose hp hk htype
  · rw [if_neg htype]
    have hplace := h.place p
    rw [hk] at hplace
    apply h.goto hp hk
    · intro g
      rw [j.next_extra]
      rfl
    · funext e
      rw [j.next_ends]
      exact (if_neg (File.not_isEnd htype e)).symm
    · exact fun g hg => absurd hg (j.next_fresh g)
    · exact .of_child (After.next_at hplace) j.next_child

theorem Inv.openFd
    {ip : Nat} {omode : UInt32} (hk : s.pc p = .openFd f ip omode) :
  Fine (s.stepProc p page)
  := by
  rw [St.stepProc, hk]
  dsimp only
  cases hfd : s.fdalloc p with
  | none =>
    exact h.goto hp hk _ (fun _ => add_zero _) rfl (fun _ => False.elim)
      (.of_child ⟨trivial, by simp⟩ rfl)
  | some fd =>
    refine h.setFd hp hk fd _ _ ?_ ?_ rfl (fun _ => id) rfl
    · intro g
      rw [St.fdalloc_eq_some hfd]
      simp [Pc.extra, eq_comm]
    · exact ⟨fd, by rw [St.setFd_ofile_self, update_self]⟩

theorem Inv.pipeAlloc₂ (hk : s.pc p = .pipeAlloc₂ f) :
  Fine (s.stepProc p page)
  := by
  rw [St.stepProc, hk]
  dsimp only
  cases hg : s.filealloc with
  | none =>
    exact h.goto hp hk _ (fun _ => add_zero _) rfl (fun _ => False.elim)
      (.of_child ⟨trivial, by simp⟩ rfl)
  | some g =>
    apply h.filealloc hp hk hg
    · exact fun i => add_sub_cancel_left ..
    · rfl
    · -- The first file is counted already.
      rintro rfl
      have hone := (h.fresh p f (by rw [hk]; rfl)).ref
      have hzero := St.filealloc_eq_some hg
      omega
    · exact fun i hi => hi.symm
    · rfl

theorem Inv.pipePage {f₀ f₁ : FileId} (hk : s.pc p = .pipeKalloc f₀ f₁) :
  Fine (s.stepProc p page)
  := by
  rw [St.stepProc, hk]
  dsimp only
  cases page with
  | none =>
    exact h.goto hp hk _ (fun _ => rfl) rfl (fun _ => False.elim)
      (.of_child ⟨trivial, by simp⟩ rfl)
  | some a =>
    dsimp only
    by_cases ha : s.pipe a = none
    · rw [if_pos ha]
      exact h.pipeKalloc hp hk ha _ _ rfl rfl ⟨rfl, rfl, rfl⟩ ⟨rfl, rfl, rfl⟩
    · rw [if_neg ha]
      trivial

theorem Inv.pipeFd {f₀ f₁ : FileId} (hk : s.pc p = .pipeFd f₀ f₁) :
  Fine (s.stepProc p page)
  := by
  rw [St.stepProc, hk]
  dsimp only
  cases hfd : s.fdalloc p with
  | none =>
    exact h.goto hp hk _ (fun _ => rfl) rfl (fun _ => False.elim)
      (.of_child ⟨trivial, by simp⟩ rfl)
  | some fd =>
    refine h.setFd hp hk fd _ _ ?_ ?_ rfl (fun _ => False.elim) rfl
    · intro g
      rw [St.fdalloc_eq_some hfd]
      simp [Pc.extra, eq_comm]
    · change (s.setFd p fd _).ofile p fd = _
      rw [St.setFd_ofile_self, update_self]

theorem Inv.pipeFd₂
    {f₀ f₁ : FileId} {fd₀ : Fin NOFILE} (hk : s.pc p = .pipeFd₂ f₀ f₁ fd₀) :
  Fine (s.stepProc p page)
  := by
  have hplace := h.place p
  rw [hk] at hplace
  rw [St.stepProc, hk]
  dsimp only
  cases hfd : s.fdalloc p with
  | none =>
    refine h.setFd hp hk fd₀ _ _ ?_ ⟨trivial, by simp⟩ rfl (fun _ => False.elim) rfl
    intro g
    rw [show s.ofile p fd₀ = some f₀ from hplace]
    simp [Pc.extra, After.extra, eq_comm]
  | some fd =>
    refine h.setFd hp hk fd _ _ ?_ trivial rfl (fun _ => False.elim) rfl
    intro g
    rw [St.fdalloc_eq_some hfd]
    simp [Pc.extra, eq_comm]

theorem Inv.dup (hk : s.pc p = .dup f) :
  Fine (s.stepProc p page)
  := by
  have hplace := h.place p
  rw [hk] at hplace
  obtain ⟨fd, fd', hne, hfd, hfd'⟩ := hplace
  have hshare : 1 ≤ s.share p f := by
    rw [St.share, hk]
    have := St.two_le_slots hne hfd hfd'
    simp only [Pc.extra, if_true]
    omega
  rw [St.stepProc, hk]
  refine h.filedup hp hk hshare .user ?_ rfl (fun _ => id) (.of_child trivial rfl)
  intro g
  simp only [Pc.extra]
  split <;> rfl

/-- `fork` gives up the child, or starts to copy the descriptors. -/
theorem Inv.forkCopy {np : Slot} (hk : s.pc p = .forkCopy np) :
  Fine (s.stepProc p page)
  := by
  have hchild : (s.pc p).child = some np := by
    rw [hk]
    rfl
  have hlife := h.child p np hchild
  have hprep := h.prepares p
  rw [hk] at hprep
  rw [St.stepProc, hk]
  dsimp only
  cases page with
  | none =>
    have hnp : np ≠ p := by
      rintro rfl
      cases hp.symm.trans hlife
    refine h.setLife hk np _ _ (fun _ => .inl hp) ?_ (fun _ => hprep) ?_ (by simp [Pc.child])
      trivial rfl rfl trivial fun _ => id
    · intro _
      rw [St.goto_pc_of_ne s _ hnp]
      apply h.idle
      rw [hlife]
      simp
    · exact fun q hq hqn => hq (h.unique q p np hqn hchild)
  | some a =>
    exact h.goto hp hk _ (fun _ => rfl) rfl (fun _ => False.elim)
      ⟨trivial, fun _ => id, fun j _ => hprep j⟩

/-- `fork` copies a descriptor, or makes the child runnable. -/
theorem Inv.forkDup {np : Slot} {i : Nat} (hk : s.pc p = .forkDup np i) :
  Fine (s.stepProc p page)
  := by
  have hchild : (s.pc p).child = some np := by
    rw [hk]
    rfl
  have hprep := h.prepares p
  rw [hk] at hprep
  rw [St.stepProc, hk]
  dsimp only
  by_cases hi : i < NOFILE
  · rw [dif_pos hi]
    cases hf : s.ofile p ⟨i, hi⟩ with
    | none =>
      refine h.goto hp hk _ (fun _ => rfl) rfl (fun _ => False.elim) ⟨trivial, fun _ => id, ?_⟩
      intro j hj
      apply hprep
      omega
    | some f =>
      have hshare : 1 ≤ s.share p f := by
        rw [St.share, hk]
        exact (St.one_le_slots hf).trans_eq (add_zero _).symm
      exact h.filedup hp hk hshare (.forkStore np ⟨i, hi⟩ f) (fun g => sub_zero _) rfl
        (fun _ => id) ⟨trivial, fun _ => id, hprep⟩
  · rw [dif_neg hi]
    refine h.setLife hk np _ _ (fun _ => .inl hp) (fun hl => absurd rfl hl) (by simp) ?_
      (by simp [Pc.child]) trivial rfl rfl trivial fun _ => id
    exact fun q hq hqn => hq (h.unique q p np hqn hchild)

/-- `exit` closes a descriptor, or ends. -/
theorem Inv.exitScan {i : Nat} (hk : s.pc p = .exitScan i) :
  Fine (s.stepProc p page)
  := by
  have hplace := h.place p
  rw [hk] at hplace
  rw [St.stepProc, hk]
  dsimp only
  by_cases hi : i < NOFILE
  · rw [dif_pos hi]
    cases hf : s.ofile p ⟨i, hi⟩ with
    | none =>
      refine h.goto hp hk _ (fun _ => rfl) rfl (fun _ => False.elim) (.of_child ?_ rfl)
      intro j hj
      obtain hj | hj := Nat.lt_succ_iff_lt_or_eq.mp hj
      · exact hplace j hj
      · cases hj
        exact hf
    | some f =>
      refine h.goto hp hk _ ?_ rfl (fun _ => False.elim)
        (.of_child ⟨⟨hf, hplace⟩, by rintro _ _ ⟨⟩; rfl⟩ rfl)
      intro g
      simp only [Pc.extra, After.extra]
      split <;> rfl
  · rw [dif_neg hi]
    refine h.setLife hk p _ _ (fun _ => .inl hp) (fun _ => St.goto_pc ..) ?_ ?_
      (by simp [Pc.child]) trivial rfl rfl trivial fun _ => id
    · intro _ fd
      apply hplace
      omega
    · intro q hq hqn
      cases hp.symm.trans (h.child q p hqn)

theorem Inv.exitStore {i : Fin NOFILE} (hk : s.pc p = .exitStore i f) :
  Fine (s.stepProc p page)
  := by
  have hplace := h.place p
  rw [hk] at hplace
  rw [St.stepProc, hk]
  refine h.setFd hp hk i _ _ ?_ ?_ rfl (fun _ => False.elim) rfl
  · intro g
    rw [hplace.1]
    simp only [Pc.extra, Option.some.injEq, reduceCtorEq, if_false, eq_comm (a := g)]
    split <;> rfl
  · intro j hj
    rw [St.setFd_ofile_self]
    obtain hj | hj := Nat.lt_succ_iff_lt_or_eq.mp hj
    · rw [update_of_ne (Fin.ne_of_lt hj)]
      exact hplace.2 j hj
    · rw [Fin.ext hj, update_self]

end

/-- A step of a process in a call. -/
theorem Inv.stepProc (p : Slot) (page : Option Nat) :
  Fine (s.stepProc p page)
  := by
  by_cases huser : s.pc p = .user
  · rw [St.stepProc, huser]
    trivial
  have hp := h.active huser
  cases hk : s.pc p with
  | user => exact absurd hk huser
  | closing f j =>
    have hclose := h.fileclose hp hk
    rw [St.stepProc, hk]
    exact hclose
  | dropped ff j => exact h.dropped hp page hk
  | openAlloc | pipeAlloc =>
    rw [St.stepProc, hk]
    dsimp only
    cases hf : s.filealloc with
    | none => exact h.goto hp hk _ (fun _ => rfl) rfl (fun _ => False.elim) (.of_child trivial rfl)
    | some f => exact h.filealloc hp hk hf _ (fun _ => sub_zero _) rfl trivial (fun _ => .inl) rfl
  | openFd f ip omode => exact h.openFd hp page hk
  | openSet f ip omode =>
    rw [St.stepProc, hk]
    exact h.openSet hp hk _ rfl rfl
  | dup f => exact h.dup hp page hk
  | pipeAlloc₂ f₀ => exact h.pipeAlloc₂ hp page hk
  | pipeKalloc f₀ f₁ => exact h.pipePage hp page hk
  | pipeFd f₀ f₁ => exact h.pipeFd hp page hk
  | pipeFd₂ f₀ f₁ fd₀ => exact h.pipeFd₂ hp page hk
  | forkCopy np => exact h.forkCopy hp page hk
  | forkDup np i => exact h.forkDup hp page hk
  | forkStore np i f =>
    rw [St.stepProc, hk]
    exact h.forkStore hp hk
  | exitScan i => exact h.exitScan hp page hk
  | exitStore i f => exact h.exitStore hp page hk

omit h in
theorem St.ready_iff : s.ready p = true ↔ s.life p = .active ∧ s.pc p = .user
  := decide_eq_true_iff

section

variable (hready : s.ready p)

include hready

/-- `sys_dup` points a free descriptor to a file that another one points to. -/
theorem Inv.sysDup {i fd : Fin NOFILE} (hi : s.ofile p i = some f) (hfd : s.ofile p fd = none) :
  Inv ((s.setFd p fd (some f)).goto p (.dup f))
  := by
  obtain ⟨hp, hk⟩ := St.ready_iff.mp hready
  have hne : fd ≠ i := by
    rintro rfl
    cases hfd.symm.trans hi
  refine h.setFd hp hk fd _ _ ?_ ?_ rfl (fun _ => False.elim) rfl
  · intro g
    rw [hfd]
    simp only [Pc.extra, Option.some.injEq, reduceCtorEq, if_false, eq_comm (a := g)]
    split <;> rfl
  · use fd, i, hne
    rw [St.setFd_ofile_self, update_self, update_of_ne hne.symm]
    exact ⟨rfl, hi⟩

/-- `sys_close` clears a descriptor. -/
theorem Inv.sysClose {i : Fin NOFILE} (hi : s.ofile p i = some f) :
  Inv ((s.setFd p i none).goto p (.closing f .ret))
  := by
  obtain ⟨hp, hk⟩ := St.ready_iff.mp hready
  refine h.setFd hp hk i _ _ ?_ ⟨trivial, by simp⟩ rfl (fun _ => False.elim) rfl
  intro g
  rw [hi]
  simp [Pc.extra, After.extra, eq_comm]

/-- `fork` takes a free slot. -/
theorem Inv.fork {np : Slot} (hnp : s.life np = .unused) :
  Inv ((s.setLife np .embryo).goto p (.forkCopy np))
  := by
  obtain ⟨hp, hk⟩ := St.ready_iff.mp hready
  have hne : np ≠ p := by
    rintro rfl
    cases hp.symm.trans hnp
  refine h.setLife hk np _ _ (fun _ => .inl hp) ?_ (by simp) ?_ ?_ (h.empty np (.inl hnp)) rfl rfl
    trivial fun _ => id
  · intro _
    rw [St.goto_pc_of_ne s _ hne]
    apply h.idle
    rw [hnp]
    simp
  · intro q _ hq
    cases hnp.symm.trans (h.child q np hq)
  · rintro x ⟨⟩
    exact ⟨rfl, rfl⟩

/-- `wait` frees the slot of a zombie. -/
theorem Inv.wait {z : Slot} (hz : s.life z = .zombie) :
  Inv (s.setLife z .unused)
  := by
  obtain ⟨hp, hk⟩ := St.ready_iff.mp hready
  have hsame : s.setLife z .unused = (s.setLife z .unused).goto p .user := by
    rw [St.goto, ← hk]
    exact congrArg (fun pc => { s.setLife z .unused with pc := pc }) (update_eq_self ..).symm
  have hne : z ≠ p := by
    rintro rfl
    cases hp.symm.trans hz
  rw [hsame]
  refine h.setLife hk z _ _ (fun _ => .inl hp) ?_ (fun _ => h.empty z (.inr hz)) ?_
    (by simp [Pc.child]) trivial rfl rfl trivial fun _ => id
  · intro _
    rw [St.goto_pc_of_ne s _ hne]
    apply h.idle
    rw [hz]
    simp
  · intro q _ hq
    cases hz.symm.trans (h.child q z hq)

end

/-- Every step keeps the invariant, and none fails. -/
theorem Inv.next (l : Label) :
  Fine (s.next l)
  := by
  cases l with
  | sysOpen p ip omode =>
    apply System.Outcome.guard
    intro hready
    cases ip with
    | none => exact h
    | some ip =>
      obtain ⟨hp, hk⟩ := St.ready_iff.mp hready
      exact h.goto hp hk _ (fun _ => rfl) rfl (fun _ => False.elim) (.of_child trivial rfl)
  | sysDup p fd =>
    apply System.Outcome.guard
    intro hready
    cases hi : s.argfd p fd with
    | none => exact h
    | some x =>
      cases hfd : s.fdalloc p with
      | none => exact h
      | some j => exact h.sysDup hready (St.argfd_eq_some hi) (St.fdalloc_eq_some hfd)
  | sysClose p fd =>
    apply System.Outcome.guard
    intro hready
    cases hi : s.argfd p fd with
    | none => exact h
    | some x => exact h.sysClose hready (St.argfd_eq_some hi)
  | sysPipe p valid =>
    apply System.Outcome.guard
    intro hready
    cases valid with
    | false => exact h
    | true =>
      obtain ⟨hp, hk⟩ := St.ready_iff.mp hready
      exact h.goto hp hk _ (fun _ => rfl) rfl (fun _ => False.elim) (.of_child trivial rfl)
  | fork p np =>
    apply System.Outcome.guard
    exact fun hready => h.fork hready.1 hready.2
  | exit p =>
    apply System.Outcome.guard
    intro hready
    obtain ⟨hp, hk⟩ := St.ready_iff.mp hready
    exact h.goto hp hk _ (fun _ => rfl) rfl (fun _ => False.elim)
      (.of_child (fun j hj => absurd hj (Nat.not_lt_zero _)) rfl)
  | wait p z =>
    apply System.Outcome.guard
    exact fun hready => h.wait hready.1 hready.2
  | step p page => exact h.stepProc p page

end

theorem inv_of_initial (h : Initial s) : Inv s
  := by
  obtain ⟨hfile, hpipe, ⟨i, hlife⟩, hofile, hpc⟩ := h
  have hchild (q np : Slot) : (s.pc q).child ≠ some np := by
    rw [hpc q]
    simp [Pc.child]
  constructor
  · intro f
    rw [Finset.sum_eq_zero]
    · exact congrArg Nat.cast (hfile f).1
    · intro q _
      rw [St.share, hpc q, St.slots_eq_zero]
      · rfl
      · intro fd
        rw [hofile]
        simp
  · intro e
    rw [Finset.sum_eq_zero, St.opens, hpipe]
    rintro (f | q) _
    · apply if_neg
      apply File.not_isEnd
      rw [(hfile f).2]
      simp
    · rw [St.endShare, hpc q]
      rfl
  · exact fun f _ => (hfile f).2
  · intro a b hb
    rw [hpipe] at hb
    cases hb
  · intro q
    rw [hpc q]
    trivial
  · intro q f hf
    rw [hpc q] at hf
    exact hf.elim
  · exact fun q _ => hpc q
  · exact fun q _ => hofile q
  · exact fun q np hq => absurd hq (hchild q np)
  · intro q
    rw [hpc q]
    trivial
  · exact fun q _ np hq => absurd hq (hchild q np)

/-- Every reachable state satisfies the invariant, and no step from it fails. -/
theorem Inv.of_reachable (h : files.Reachable s) :
  Inv s ∧ ∀ l e, files.step s l ≠ some (.error e)
  := by
  have hstep : ∀ s l, Inv s → True → System.Outcome (fun _ => True) Inv (files.step s l) :=
    fun s l hs _ => hs.next l
  obtain ⟨hinv, hfail⟩ := h.outcome (fun _ => inv_of_initial) hstep
  use hinv
  exact fun l e he => hfail l trivial e he trivial

/-! ### The pages of pipes -/

/-- A file, or a call of `fileclose` in progress, refers to an end of the pipe on the page `a`. -/
def St.refers (s : St) (a : Nat) : Prop :=
  (∃ f, (s.file f).type = .pipe ∧ (s.file f).pipe = a) ∨
    ∃ p ff k, s.pc p = .dropped ff k ∧ ff.type = .pipe ∧ ff.pipe = a

/-- An end of a pipe is open if and only if somebody has a share in it. -/
theorem Inv.opens_pos_iff (h : Inv s) (e : Nat × Bool) :
  0 < s.opens e ↔ ∃ c, 0 < s.endShare c e
  := by
  have hnonneg (c : FileId ⊕ Slot) : 0 ≤ s.endShare c e := by
    cases c with
    | inl f =>
      rw [St.endShare]
      split <;> omega
    | inr q =>
      rw [St.endShare]
      cases s.pc q with
      | dropped ff j =>
        rw [Pc.ends]
        split <;> omega
      | _ => exact le_rfl
  constructor
  · intro hpos
    by_contra hnone
    have hzero : ∀ c, s.endShare c e = 0 := by
      intro c
      have := hnonneg c
      have := not_exists.mp hnone c
      omega
    have := h.ends.eq_zero hzero
    omega
  · rintro ⟨c, hc⟩
    exact hc.trans_le (h.ends.le hnonneg c)

theorem St.endShare_inl_pos {e : Nat × Bool} : 0 < s.endShare (.inl f) e ↔ (s.file f).isEnd e
  := by
  rw [endShare]
  split <;> simp_all

theorem St.endShare_inr_pos {e : Nat × Bool} :
  0 < s.endShare (.inr p) e ↔ ∃ ff k, s.pc p = .dropped ff k ∧ ff.isEnd e
  := by
  rw [endShare]
  cases hk : s.pc p with
  | dropped ff j =>
    rw [Pc.ends]
    split <;> simp_all
  | _ => simp [Pc.ends]

/-- A page holds a pipe as long as somebody refers to one of its ends. -/
theorem Inv.pipe_isSome_iff (h : Inv s) (a : Nat) :
  (s.pipe a).isSome ↔ s.refers a
  := by
  have hopen : (s.pipe a).isSome ↔ ∃ w, 0 < s.opens (a, w) := by
    cases hb : s.pipe a with
    | none => simp [St.opens, hb]
    | some b =>
      have hused := h.used a b hb
      simp only [Option.isSome_some, true_iff, St.opens, hb, Pipe.isOpen]
      obtain hr | hw := hused
      · exact ⟨false, by simp [hr]⟩
      · exact ⟨true, by simp [hw]⟩
  rw [hopen]
  constructor
  · rintro ⟨w, hw⟩
    obtain ⟨c, hc⟩ := (h.opens_pos_iff (a, w)).mp hw
    cases c with
    | inl f =>
      have hf := St.endShare_inl_pos.mp hc
      exact .inl ⟨f, hf.1, hf.2.1⟩
    | inr q =>
      obtain ⟨ff, k, hk, hff⟩ := St.endShare_inr_pos.mp hc
      exact .inr ⟨q, ff, k, hk, hff.1, hff.2.1⟩
  · rintro (⟨f, htype, ha⟩ | ⟨q, ff, k, hk, htype, ha⟩)
    · use (s.file f).writable
      apply (h.opens_pos_iff _).mpr
      exact ⟨.inl f, St.endShare_inl_pos.mpr ⟨htype, ha, rfl⟩⟩
    · use ff.writable
      apply (h.opens_pos_iff _).mpr
      exact ⟨.inr q, St.endShare_inr_pos.mpr ⟨ff, k, hk, htype, ha, rfl⟩⟩

theorem St.filedup_pipe {s₁ : St} (h : s.filedup f = .ok s₁) : s₁.pipe = s.pipe
  := by
  rw [St.filedup] at h
  split at h
  · cases h
  · cases h
    rfl

theorem St.fileclose_pipe {k : After} (h : s.fileclose p f k = .ok s') : s'.pipe = s.pipe
  := by
  rw [St.fileclose] at h
  split at h
  · cases h
  · split at h
    · cases h
      rfl
    · cases h
      rfl

theorem St.pipeclose_pipe {a : Nat} {w : Bool} {s₁ : St} (h : s.pipeclose a w = .ok s₁) :
  ∃ x, s₁.pipe = update s.pipe a x
  := by
  rw [St.pipeclose] at h
  split at h
  · cases h
  · rename_i b _
    generalize (if w then { b with writeopen := false } else { b with readopen := false }) = b' at h
    dsimp only at h
    split at h
    · cases h
      exact ⟨_, rfl⟩
    · cases h
      exact ⟨_, rfl⟩

/-- The steps of a process in a call that change a page of a pipe. -/
theorem St.stepProc_pipe {page : Option Nat} (h : s.stepProc p page = some (.ok s')) :
  s'.pipe = s.pipe ∨ (∃ a b, s'.pipe = update s.pipe a (some b)) ∨
    ∃ ff k x, s.pc p = .dropped ff k ∧ ff.type = .pipe ∧
      s'.pipe = update s.pipe ff.pipe x
  := by
  rw [St.stepProc] at h
  cases hk : s.pc p with
  | closing f j =>
    rw [hk] at h
    exact .inl (St.fileclose_pipe (Option.some.inj h))
  | dropped ff j =>
    rw [hk] at h
    dsimp only at h
    split at h
    · rename_i htype
      obtain ⟨s₁, hs₁, rfl⟩ := System.ok_of_map (x := some _) h
      obtain ⟨x, hx⟩ := St.pipeclose_pipe (Option.some.inj hs₁)
      exact .inr (.inr ⟨ff, j, x, rfl, htype, hx⟩)
    · cases h
      exact .inl rfl
  | dup f =>
    rw [hk] at h
    obtain ⟨s₁, hs₁, rfl⟩ := System.ok_of_map (x := some _) h
    have hsame : s₁.pipe = s.pipe := St.filedup_pipe (Option.some.inj hs₁)
    exact .inl hsame
  | pipeKalloc f₀ f₁ =>
    rw [hk] at h
    dsimp only at h
    split at h
    · cases h
      exact .inl rfl
    · split at h
      · cases h
        exact .inr (.inl ⟨_, _, rfl⟩)
      · cases h
  | forkDup np i =>
    rw [hk] at h
    dsimp only at h
    split at h
    · split at h
      · cases h
        exact .inl rfl
      · obtain ⟨s₁, hs₁, rfl⟩ := System.ok_of_map (x := some _) h
        have hsame : s₁.pipe = s.pipe := St.filedup_pipe (Option.some.inj hs₁)
        exact .inl hsame
    · cases h
      exact .inl rfl
  | _ =>
    left
    rw [hk] at h
    dsimp only at h
    repeat' split at h
    all_goals
      cases h
      try rfl

/-- Only the end of `fileclose` frees the page of a pipe. -/
theorem St.next_frees
    {l : Label} {a : Nat} (h : s.next l = some (.ok s')) (ha : (s.pipe a).isSome)
    (ha' : s'.pipe a = none) :
  ∃ p page ff k, l = .step p page ∧ s.pc p = .dropped ff k ∧ ff.type = .pipe ∧ ff.pipe = a
  := by
  have hne (hsame : s'.pipe = s.pipe) : False := by
    rw [hsame] at ha'
    rw [ha'] at ha
    cases ha
  cases l with
  | step p page =>
    obtain hsame | ⟨b, x, hx⟩ | ⟨ff, k, x, hk, htype, hx⟩ := St.stepProc_pipe h
    · exact (hne hsame).elim
    · rw [hx, update_apply] at ha'
      split at ha'
      · cases ha'
      · rw [ha'] at ha
        cases ha
    · use p, page, ff, k, rfl, hk, htype
      by_contra hff
      rw [hx, update_of_ne (Ne.symm hff)] at ha'
      rw [ha'] at ha
      cases ha
  | _ =>
    exfalso
    apply hne
    rw [St.next.eq_def] at h
    dsimp only at h
    repeat' split at h
    all_goals
      cases h
      try rfl

/-! ### Between the calls -/

section

variable (h : Inv s) (hidle : ∀ p, s.pc p = .user)

include h hidle

theorem Inv.ref_eq (f : FileId) :
  (s.file f).ref
    = (Finset.univ.filter fun x : Slot × Fin NOFILE => s.ofile x.1 x.2 = some f).card
  := by
  have hsum := h.refs f
  have hshare : ∀ p ∈ Finset.univ, s.share p f = s.slots p f := by
    intro p _
    rw [St.share, hidle p]
    exact add_zero _
  rw [Finset.sum_congr rfl hshare] at hsum
  simp only [St.slots] at hsum
  rw [← Fintype.sum_prod_type' fun p fd => if s.ofile p fd = some f then (1 : ℤ) else 0,
    Finset.sum_boole] at hsum
  exact Int.ofNat_inj.mp hsum

theorem Inv.ref_eq_zero_iff (f : FileId) :
  (s.file f).ref = 0 ↔ ∀ p fd, s.ofile p fd ≠ some f
  := by
  rw [h.ref_eq hidle, Finset.card_eq_zero, Finset.filter_eq_empty_iff]
  simp

/-- Between the calls a page holds a pipe if a descriptor refers to one of its ends. -/
theorem Inv.refers_iff (a : Nat) :
  s.refers a ↔ ∃ p fd f, s.ofile p fd = some f ∧ (s.file f).type = .pipe ∧ (s.file f).pipe = a
  := by
  constructor
  · rintro (⟨f, htype, ha⟩ | ⟨p, ff, k, hk, -⟩)
    · have href : (s.file f).ref ≠ 0 := by
        intro hzero
        rw [h.closed f hzero] at htype
        cases htype
      rw [Ne, h.ref_eq_zero_iff hidle] at href
      push Not at href
      obtain ⟨p, fd, hfd⟩ := href
      exact ⟨p, fd, f, hfd, htype, ha⟩
    · rw [hidle p] at hk
      cases hk
  · rintro ⟨_, _, f, _, htype, ha⟩
    exact .inl ⟨f, htype, ha⟩

end

/-- The reference counts of open files are exact.  No step of a reachable state panics or works on a
freed pipe.  The page of a pipe is in use as long as somebody refers to an end, and the call of
`fileclose` that closes the last one frees it.  Between the calls the count of a file is the number
of descriptors that point to it, and the slots that are not in use have no open files. -/
theorem file_refs_exact (h : files.Reachable s) :
  (∀ l e, files.step s l ≠ some (.error e)) ∧
  (∀ a, (s.pipe a).isSome ↔ s.refers a) ∧
  (∀ l s' a, files.step s l = some (.ok s') → (s.pipe a).isSome → s'.pipe a = none →
    (∃ p page ff k, l = .step p page ∧ s.pc p = .dropped ff k ∧ ff.type = .pipe ∧ ff.pipe = a) ∧
      ¬ s'.refers a) ∧
  ((∀ p, s.pc p = .user) →
    (∀ f, (s.file f).ref
      = (Finset.univ.filter fun x : Slot × Fin NOFILE => s.ofile x.1 x.2 = some f).card) ∧
    (∀ f, (s.file f).ref = 0 ↔ ∀ p fd, s.ofile p fd ≠ some f) ∧
    (∀ p, s.life p = .unused → ∀ fd, s.ofile p fd = none) ∧
    ∀ a, (s.pipe a).isSome ↔
      ∃ p fd f, s.ofile p fd = some f ∧ (s.file f).type = .pipe ∧ (s.file f).pipe = a)
  := by
  obtain ⟨hinv, hfail⟩ := Inv.of_reachable h
  use hfail, hinv.pipe_isSome_iff
  constructor
  · intro l s' a hstep ha ha'
    use St.next_frees hstep ha ha'
    have hinv' := (Inv.of_reachable (h.step trivial hstep)).1
    rw [← hinv'.pipe_isSome_iff a, ha']
    exact Bool.false_ne_true
  · intro hidle
    use hinv.ref_eq hidle, hinv.ref_eq_zero_iff hidle, fun p hp => hinv.empty p (.inl hp)
    intro a
    rw [hinv.pipe_isSome_iff a, hinv.refers_iff hidle]

/-- Only `init` is in use. -/
def firstSt : St where
  file _ := ⟨.none, 0, false, false, 0, 0, 0⟩
  pipe _ := none
  life p := if p = 0 then .active else .unused
  ofile _ _ := none
  pc _ := .user

theorem firstSt_initial : Initial firstSt
  := ⟨fun _ => ⟨rfl, rfl⟩, fun _ => rfl, ⟨0, fun _ => rfl⟩, fun _ _ => rfl, fun _ => rfl⟩

/-- `init` opens a pipe and forks, and the child closes the end to write to. -/
def pipeRun : List Label :=
  [.sysPipe 0 true, .step 0 none, .step 0 none, .step 0 (some 7), .step 0 none, .step 0 none,
    .fork 0 1, .step 0 (some 8)] ++ List.replicate 19 (.step 0 none) ++
    [.sysClose 1 1, .step 1 none]

/-- After a pipe, a `fork` and a `close` the two ends have two references and one. -/
theorem file_refs_exact_of_pipe :
  ∃ s, files.run firstSt pipeRun = some s ∧ (s.file 0).ref = 2 ∧ (s.file 1).ref = 1 ∧
    (Finset.univ.filter fun x : Slot × Fin NOFILE => s.ofile x.1 x.2 = some 0).card = 2
  := by
  obtain ⟨s, hs, hreach, hidle, hread, hwrite⟩ := System.exists_of_run files firstSt_initial pipeRun
    (fun s => (∀ p, s.pc p = .user) ∧ (s.file 0).ref = 2 ∧ (s.file 1).ref = 1) (by decide +kernel)
  have hcount := ((file_refs_exact hreach).2.2.2 hidle).1 0
  exact ⟨s, hs, hread, hwrite, hcount.symm.trans hread⟩

end Xv6.Ftable
