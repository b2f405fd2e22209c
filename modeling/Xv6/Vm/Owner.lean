import Mathlib.Tactic.DeriveFintype
import Xv6.Vm.Image
import Xv6.Vm.Kernel

/-!
# Who owns a physical page

The owners are the kernel itself, for its own page directory, the other processors, for their
stacks, the pipes, and the processes.  In every state of the kernel the pages that they hold and
the pages on the free list are distinct.
-/

namespace Xv6.Vm

open Ptable (Slot)

/-- An owner of pages. -/
inductive Owner where
  | kernel
  | cpus
  | pipes
  | proc (p : Slot)
  deriving DecidableEq, Fintype

/-- The page of the pipe that a file belongs to. -/
def File.page : File → Option Nat
  | .closed | .other => none
  | .pipe f _ => some f

/-- The pages of the pipes that a file belongs to. -/
def pipePages (file : Fin NFILE → File) : Finset Nat :=
  (Finset.univ.image fun i => (file i).page).eraseNone

/-- The process has memory of its own. -/
def Proc.HasImage (pr : Proc) : Prop :=
  pr.state ≠ .unused ∧ pr.state ≠ .embryo

/-- The pages of a process: its kernel stack, and those of its page directory. -/
def Proc.pages (m : Memory) (pr : Proc) : Multiset Nat :=
  match pr.state with
  | .unused => 0
  | .embryo => {pr.kstack}
  | .sleeping | .runnable | .running | .zombie => pr.kstack ::ₘ m.owned pr.pgdir

/-- The pages that an owner holds. -/
def holding (s : Kernel) : Owner → Multiset Nat
  | .kernel => s.kpgdir.elim 0 s.mem.owned
  | .cpus => s.cpustack
  | .pipes => (pipePages s.file).val
  | .proc p => (s.proc p).pages s.mem

/-- What holds in every state of the kernel. -/
structure Inv (L : Layout) (s : Kernel) : Prop where
  pool : Pool L s.mem (∑ o, holding s o)
  refreed : s.mem.refreed = []
  user : ∀ p, (s.proc p).HasImage → User s.mem (s.proc p).pgdir (s.proc p).sz
  unused_nodup : s.unused.Nodup
  unused : ∀ p ∈ s.unused, (s.proc p).state = .unused
  file_inj : ∀ i j f w, s.file i = .pipe f w → s.file j = .pipe f w → i = j
  ends : ∀ i f w, s.file i = .pipe f w →
    ∀ w', (s.pipe f).isOpen w' ↔ ∃ j, s.file j = .pipe f w'

/-- A computation of the kernel keeps the invariant.  Of the pages on the free list and of those
that are held, it loses `X`. -/
structure Moves (L : Layout) (s : Kernel) (X : Multiset Nat) (s' : Kernel) : Prop where
  inv : Inv L s'
  balance : ↑s'.mem.freelist + ∑ o, holding s' o + X = ↑s.mem.freelist + ∑ o, holding s o

variable {L : Layout} {s s' s'' : Kernel} {m m' : Memory} {X Y : Multiset Nat} {f : Nat}
  {p : Slot} {o o' : Owner}

theorem Moves.refl (h : Inv L s) :
  Moves L s 0 s
  := ⟨h, add_zero _⟩

theorem Moves.trans (h : Moves L s X s') (h' : Moves L s' Y s'') :
  Moves L s (X + Y) s''
  := by
  use h'.inv
  rw [← h.balance, ← h'.balance, add_comm X, ← add_assoc]

/-! ### One owner trades pages -/

section

variable {ι : Type} [Fintype ι] [DecidableEq ι] {g g' : ι → Multiset Nat} {i j : ι}

theorem Trade.sum
    (h : Trade (g i) m (X + g' i) m') (hother : ∀ j, j ≠ i → g' j = g j) :
  Trade (∑ j, g j) m (X + ∑ j, g' j) m'
  := by
  have hrest : ∑ j ∈ Finset.univ.erase i, g' j = ∑ j ∈ Finset.univ.erase i, g j := by
    apply Finset.sum_congr rfl
    intro j hj
    apply hother j (Finset.ne_of_mem_erase hj)
  rw [← Finset.add_sum_erase _ g (Finset.mem_univ i),
    ← Finset.add_sum_erase _ g' (Finset.mem_univ i), hrest, ← add_assoc]
  apply h.frame

section

variable (hp : Pool L m (∑ j, g j))

include hp

theorem Pool.of_sum (i : ι) :
  Pool L m (g i)
  := by
  rw [← Finset.add_sum_erase _ g (Finset.mem_univ i)] at hp
  apply hp.left

/-- No page has two owners. -/
theorem Pool.eq_of_mem (hi : f ∈ g i) (hj : f ∈ g j) :
  i = j
  := by
  by_contra hne
  rw [← Finset.add_sum_erase _ g (Finset.mem_univ i)] at hp
  apply Multiset.disjoint_left.mp (Multiset.nodup_add.mp hp.nodup_right).2.2 hi
  rw [Multiset.mem_sum]
  exact ⟨j, Finset.mem_erase.mpr ⟨Ne.symm hne, Finset.mem_univ j⟩, hj⟩

end

end

/-! ### What a process holds -/

namespace Proc

variable {pr : Proc}

theorem pages_of_unused (h : pr.state = .unused) :
  pr.pages m = 0
  := by
  rw [pages, h]

theorem pages_of_embryo (h : pr.state = .embryo) :
  pr.pages m = {pr.kstack}
  := by
  rw [pages, h]

theorem pages_of_hasImage (h : pr.HasImage) :
  pr.pages m = pr.kstack ::ₘ m.owned pr.pgdir
  := by
  obtain ⟨hunused, hembryo⟩ := h
  rw [pages]
  split
  · contradiction
  · contradiction
  · rfl
  · rfl
  · rfl
  · rfl

theorem HasImage.of_live (h : Live pr.state) :
  pr.HasImage
  := by
  rcases h with h | h | h
  all_goals
    rw [HasImage, h]
    decide

theorem HasImage.of_running (h : pr.state = .running) :
  pr.HasImage
  := .of_live (.inr (.inr h))

theorem pages_congr (h : ∀ f ∈ pr.pages m, m'.page f = m.page f) :
  pr.pages m' = pr.pages m
  := by
  by_cases hi : pr.HasImage
  · rw [pages_of_hasImage hi] at h
    rw [pages_of_hasImage hi, pages_of_hasImage hi, Memory.owned_congr]
    intro f hf
    apply h f
    rw [Multiset.mem_cons, Memory.owned, Multiset.mem_add]
    exact .inr (.inl hf)
  · rw [HasImage, not_and_or, not_not, not_not] at hi
    rcases hi with hi | hi
    · rw [pages_of_unused hi, pages_of_unused hi]
    · rw [pages_of_embryo hi, pages_of_embryo hi]

theorem mem_pages_of_tree (hi : pr.HasImage) (hf : f ∈ m.tree pr.pgdir) :
  f ∈ pr.pages m
  := by
  rw [pages_of_hasImage hi, Multiset.mem_cons, Memory.owned, Multiset.mem_add]
  exact .inr (.inl hf)

end Proc

/-- The pages that an owner holds do not change when their contents do not. -/
theorem holding_mem (h : ∀ f ∈ holding s o, m'.page f = s.mem.page f) :
  holding { s with mem := m' } o = holding s o
  := by
  cases o with
  | kernel =>
    simp only [holding] at h ⊢
    cases hd : s.kpgdir with
    | none => rw [Option.elim_none, Option.elim_none]
    | some d =>
      rw [hd, Option.elim_some] at h
      rw [Option.elim_some, Option.elim_some, Memory.owned_congr]
      intro f hf
      apply h f
      rw [Memory.owned, Multiset.mem_add]
      exact .inl hf
  | cpus | pipes => simp only [holding]
  | proc q =>
    simp only [holding] at h ⊢
    apply Proc.pages_congr h

namespace Inv

section

variable (h : Inv L s)

include h

theorem pages (p : Slot) :
  Pool L s.mem ((s.proc p).pages s.mem)
  := h.pool.of_sum (.proc p)

/-- The pages of a process with memory. -/
theorem owned (hi : (s.proc p).HasImage) :
  Pool L s.mem (s.mem.owned (s.proc p).pgdir)
  := by
  have := h.pages p
  rw [Proc.pages_of_hasImage hi] at this
  apply this.of_le (Multiset.le_cons_self _ _)

/-- One owner trades pages, and nothing changes for the other owners. -/
theorem moves
    (htrade : Trade (holding s o) s.mem (X + holding s' o) s'.mem)
    (hother : ∀ o' ≠ o, holding s' o' = holding { s with mem := s'.mem } o')
    (hproc : ∀ q, Owner.proc q ≠ o → s'.proc q = s.proc q)
    (huser : ∀ q, Owner.proc q = o → (s'.proc q).HasImage →
      User s'.mem (s'.proc q).pgdir (s'.proc q).sz)
    (hnodup : s'.unused.Nodup) (hunused : ∀ q ∈ s'.unused, (s'.proc q).state = .unused)
    (hinj : ∀ i j f w, s'.file i = .pipe f w → s'.file j = .pipe f w → i = j)
    (hends : ∀ i f w, s'.file i = .pipe f w →
      ∀ w', (s'.pipe f).isOpen w' ↔ ∃ j, s'.file j = .pipe f w') :
  Moves L s X s'
  := by
  have hsame : ∀ o' ≠ o, ∀ f ∈ holding s o', s'.mem.page f = s.mem.page f := by
    intro o' ho f hf
    have hpool := h.pool
    rw [← Finset.add_sum_erase _ _ (Finset.mem_univ o)] at hpool
    apply hpool.same_of_mem htrade
    rw [Multiset.mem_sum]
    exact ⟨o', Finset.mem_erase.mpr ⟨ho, Finset.mem_univ o'⟩, hf⟩
  have hsum : Trade (∑ o, holding s o) s.mem (X + ∑ o, holding s' o) s'.mem := by
    apply Trade.sum htrade
    intro o' ho
    rw [hother o' ho, holding_mem (hsame o' ho)]
  constructor
  · refine ⟨(h.pool.trade hsum).right, ?_, ?_, hnodup, hunused, hinj, hends⟩
    · rw [hsum.refreed, h.refreed]
    · intro q hq
      by_cases ho : Owner.proc q = o
      · apply huser q ho hq
      · rw [hproc q ho] at hq ⊢
        apply (h.user q hq).congr
        intro f hf
        apply hsame _ ho
        apply Proc.mem_pages_of_tree hq hf
  · rw [← hsum.balance, add_assoc, add_comm X]

/-- A process trades its pages, and goes on with the slot `pr`. -/
theorem setProc
    {pr : Proc} {l : List Slot} (htrade : Trade ((s.proc p).pages s.mem) s.mem (X + pr.pages m') m')
    (huser : pr.HasImage → User m' pr.pgdir pr.sz) (hnodup : l.Nodup)
    (hunused : ∀ q ∈ l, if q = p then pr.state = .unused else q ∈ s.unused) :
  Moves L s X { s with mem := m', proc := Function.update s.proc p pr, unused := l }
  := by
  have hself : Function.update s.proc p pr p = pr := Function.update_self ..
  have hproc : ∀ q ≠ p, Function.update s.proc p pr q = s.proc q :=
    fun q hq => Function.update_of_ne hq _ _
  apply h.moves (o := .proc p)
  · simp only [holding, hself]
    apply htrade
  · intro o ho
    cases o with
    | kernel | cpus | pipes => rfl
    | proc q => simp only [holding, hproc q fun hq => ho (congrArg _ hq)]
  · intro q hq
    apply hproc q fun h => hq (congrArg _ h)
  · rintro q ⟨⟩
    simp only [hself]
    apply huser
  · apply hnodup
  · intro q hq
    have := hunused q hq
    split at this
    · rename_i hqp
      simp only [hqp, hself, this]
    · rename_i hqp
      simp only [hproc q hqp, h.unused q this]
  · apply h.file_inj
  · apply h.ends

theorem notMem_unused (hp : (s.proc p).state ≠ .unused) :
  p ∉ s.unused
  := by
  intro hmem
  apply hp (h.unused p hmem)

/-- A process trades its pages, and is not listed as unused before and after. -/
theorem update
    {n : Memory} {c : Proc} (hp : p ∉ s.unused)
    (htrade : Trade ((s.proc p).pages s.mem) s.mem (X + c.pages n) n)
    (huser : c.HasImage → User n c.pgdir c.sz) :
  Moves L s X { s with mem := n, proc := Function.update s.proc p c }
  := by
  apply h.setProc htrade huser h.unused_nodup
  intro q hq
  rw [if_neg]
  · apply hq
  · rintro rfl
    apply hp hq

/-- The memory of a process changes, but not its slot. -/
theorem remap
    (hi : (s.proc p).HasImage)
    (htrade : Trade (s.mem.owned (s.proc p).pgdir) s.mem (m'.owned (s.proc p).pgdir) m')
    (huser : User m' (s.proc p).pgdir (s.proc p).sz) :
  Moves L s 0 { s with mem := m' }
  := by
  have hpages := fun m => Proc.pages_of_hasImage (m := m) hi
  have hmoves := h.update (c := s.proc p) (n := m') (X := 0) (h.notMem_unused hi.1)
    (by
      rw [zero_add, hpages, hpages]
      apply htrade.cons)
    (fun _ => huser)
  rw [Function.update_eq_self] at hmoves
  apply hmoves

/-- A process gives up its pages, and its slot goes to the end of the unused ones. -/
theorem retire
    {pr : Proc} (hp : p ∉ s.unused) (hpr : pr.state = .unused)
    (htrade : Trade ((s.proc p).pages s.mem) s.mem X m') :
  Moves L s X
    { s with
      mem := m'
      proc := Function.update s.proc p pr
      unused := s.unused ++ [p] }
  := by
  apply h.setProc
  · rw [Proc.pages_of_unused hpr, add_zero]
    apply htrade
  · intro hi
    exact absurd hpr hi.1
  · rw [List.nodup_append_comm, List.singleton_append, List.nodup_cons]
    exact ⟨hp, h.unused_nodup⟩
  · intro q hq
    split
    · apply hpr
    · rename_i hqp
      rcases List.mem_append.mp hq with hq | hq
      · apply hq
      · rw [List.mem_singleton] at hq
        contradiction

/-- The pipes trade their pages. -/
theorem setFiles
    {file : Fin NFILE → File} {pipe : Nat → Pipe}
    (htrade : Trade (pipePages s.file).val s.mem (X + (pipePages file).val) m')
    (hinj : ∀ i j f w, file i = .pipe f w → file j = .pipe f w → i = j)
    (hends : ∀ i f w, file i = .pipe f w →
      ∀ w', (pipe f).isOpen w' ↔ ∃ j, file j = .pipe f w') :
  Moves L s X { s with mem := m', file := file, pipe := pipe }
  := by
  apply h.moves (o := .pipes)
  · simp only [holding]
    apply htrade
  · intro o ho
    cases o with
    | pipes => contradiction
    | _ => rfl
  · intro _ _
    rfl
  · rintro q ⟨⟩
  · apply h.unused_nodup
  · apply h.unused
  · apply hinj
  · apply hends

/-- A computation on the memory takes pages that no owner gets. -/
theorem setMem (htrade : Trade 0 s.mem X m') :
  Moves L s X { s with mem := m' }
  := by
  apply h.setFiles _ h.file_inj h.ends
  have := htrade.frame (pipePages s.file).val
  rw [zero_add] at this
  apply this

end

end Inv

end Xv6.Vm
