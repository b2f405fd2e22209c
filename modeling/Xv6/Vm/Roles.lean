import Xv6.Vm.Boot

/-!
# The roles of physical pages

From `main` on every physical page has at most one role.
-/

namespace Xv6.Vm

open Ptable (Slot ProcState)

variable {L : Layout} {s s' : Kernel} {m m' : Memory} {d f : Nat} {p : Slot} {l : Label}

/-! ### The invariant holds in every state -/

theorem sched_spec {state : ProcState} (h : Inv L s) (hp : Live (s.proc p).state)
    (hstate : Live state) :
  Wp NoFault (setProc p ({ · with state })) (fun _ s' => Moves L s 0 s') s
  := by
  have hi := Proc.HasImage.of_live hp
  have hi' : Proc.HasImage { s.proc p with state } := .of_live hstate
  rw [wp_setProc]
  apply h.update (h.notMem_unused hi.1)
  · rw [zero_add, Proc.pages_of_hasImage hi, Proc.pages_of_hasImage hi']
    apply Trade.refl
  · intro _
    apply h.user p hi

/-- A process writes to its own pages only. -/
theorem write_spec
    {e : Entry} {c : Page} (h : Inv L s) (hi : (s.proc p).HasImage)
    (hP : isP (s.mem.entry (s.proc p).pgdir e)) (hU : isU (s.mem.entry (s.proc p).pgdir e)) :
  Moves L s 0 { s with mem := s.mem.setPage (pteAddr (s.mem.entry (s.proc p).pgdir e)) c }
  := by
  have huser := h.user p hi
  have he : e.1 < pdx KERNBASE := by
    by_contra he
    rw [huser.supervisor e he hP] at hU
    cases hU
  have hstores := Stores.setPage (c := c) (h.owned hi) (Space.mem_frames he hP)
  apply h.remap hi hstores.trade_owned (huser.of_entry hstores.entry)

/-- A step keeps the invariant, if `exec` does. -/
theorem perform_spec
    {null : NullRead} (h : Inv L s) (he : Enabled s l)
    (hexec : ∀ {p path ip argv}, l = .exec p path ip argv →
      Wp (fun _ => True) (exec L null p path ip argv) (fun _ s' => Moves L s 0 s') s) :
  Wp (fun _ => True) (perform L null l) (fun _ s' => Inv L s') s
  := by
  cases l with
  | allocproc =>
    rw [perform]
    apply (allocproc_spec h).noFail.bind
    intro _ _ hm
    apply hm.inv
  | fork p =>
    rw [perform]
    apply ((fork_spec h (.of_running he)).fail fun _ _ => trivial).bind
    rintro _ _ ⟨X, hm, -⟩
    apply hm.inv
  | exec p path ip argv =>
    rw [perform]
    apply (hexec rfl).bind
    intro _ _ hm
    apply hm.inv
  | growproc p n =>
    rw [perform]
    apply (growproc_spec h (.of_running he)).noFail.bind
    intro _ _ hm
    apply hm.1.inv
  | exit p =>
    apply ((exit_spec h (.of_running he)).fail fun _ _ => trivial).mono
    intro _ _ hm
    apply hm.inv
  | wait p =>
    have hi : (s.proc p).HasImage := by
      have he : (s.proc p).state = .zombie := he
      rw [Proc.HasImage, he]
      decide
    apply (wait_spec h hi).noFail.mono
    intro _ _ hm
    apply hm.inv
  | filealloc =>
    rw [perform]
    apply (filealloc_spec h).bind
    intro _ _ hm
    apply hm.1.inv
  | fileclose i =>
    apply (fileclose_spec h he).noFail.mono
    intro _ _ hm
    apply hm.inv
  | pipealloc =>
    rw [perform]
    apply (pipealloc_spec h).noFail.bind
    intro _ _ hm
    apply hm.inv
  | sched p state =>
    apply (sched_spec h he.1 he.2).noFail.mono
    intro _ _ hm
    apply hm.inv
  | write p e c =>
    rw [perform, wp_modify]
    apply (write_spec h (.of_running he.1) he.2.1 he.2.2).inv

theorem Inv.of_reach
    {null : NullRead} {ok : Kernel → Label → Prop}
    (hexec : ∀ {s p path ip argv}, Inv L s → (s.proc p).HasImage → ok s (.exec p path ip argv) →
      Wp (fun _ => True) (exec L null p path ip argv) (fun _ s' => Moves L s 0 s') s)
    (h : (systemOf L null).Reach ok s) :
  Inv L s
  := by
  apply h.invariant
  · rintro s ⟨page, pipe, n, initcode, hmain⟩
    apply ((main_spec _ _ _ _).of_ok hmain).1
  · intro s l s' hs hok hstep
    simp only [systemOf] at hstep
    split at hstep
    · rename_i he
      have hspec : Wp _ (perform L null l) _ s := perform_spec hs he (by
        rintro p path ip argv rfl
        exact hexec hs (.of_running he) hok)
      cases hperform : perform L null l s with
      | error f =>
        rw [hperform] at hstep
        cases hstep
      | ok r =>
        rw [hperform] at hstep
        cases hstep
        apply hspec.of_ok hperform
    · cases hstep

theorem Inv.of_reachable (h : (kernelSys L).Reachable s) :
  Inv L s
  := Inv.of_reach (fun hs hp _ => (exec_spec hs hp).fail fun _ _ => trivial) h

/-! ### The parts of a page directory -/

/-- What a page is for a page directory: the directory itself, the page table of a directory
index, or the user page at an entry. -/
inductive Part where
  | dir
  | table (j : Fin 1024)
  | user (e : Entry)

/-- The page of a part. -/
def Memory.part (m : Memory) (d : Nat) : Part → Option Nat
  | .dir => some d
  | .table j => m.table d j
  | .user e => m.frame d e

theorem mem_owned_of_part {x : Part} (h : m.part d x = some f) :
  f ∈ m.owned d
  := by
  rw [Memory.owned, Multiset.mem_add]
  cases x with
  | dir =>
    cases h
    exact .inl Memory.mem_tree_self
  | table j => exact .inl (Memory.mem_tree_of_table h)
  | user e =>
    right
    rw [Memory.frames, mem_held]
    exact ⟨e, h⟩

/-- A page is one part of a page directory only. -/
theorem part_unique
    {x y : Part} (hp : Pool L m (m.owned d)) (hx : m.part d x = some f)
    (hy : m.part d y = some f) :
  x = y
  := by
  obtain ⟨htree, hframes, hdisjoint⟩ := Multiset.nodup_add.mp hp.nodup_right
  rw [Memory.tree, Multiset.nodup_cons] at htree
  obtain ⟨hdir, htables⟩ := htree
  have hdirUser : ∀ e, m.part d .dir = some f → m.part d (.user e) ≠ some f := by
    intro e hx he
    cases hx
    apply Multiset.disjoint_left.mp hdisjoint Memory.mem_tree_self
    rw [Memory.frames, mem_held]
    exact ⟨e, he⟩
  have htableUser : ∀ j e, m.part d (.table j) = some f → m.part d (.user e) ≠ some f := by
    intro j e hj he
    apply Multiset.disjoint_left.mp hdisjoint (Memory.mem_tree_of_table hj)
    rw [Memory.frames, mem_held]
    exact ⟨e, he⟩
  have hdirTable : ∀ j, m.part d .dir = some f → m.part d (.table j) ≠ some f := by
    intro j hx hj
    cases hx
    apply hdir
    rw [mem_held]
    exact ⟨j, hj⟩
  cases x with
  | dir =>
    cases y with
    | dir => rfl
    | table j => exact absurd hy (hdirTable j hx)
    | user e => exact absurd hy (hdirUser e hx)
  | table j =>
    cases y with
    | dir => exact absurd hx (hdirTable j hy)
    | table j' => rw [eq_of_nodup_held htables hx hy]
    | user e => exact absurd hy (htableUser j e hx)
  | user e =>
    cases y with
    | dir => exact absurd hx (hdirUser e hy)
    | table j => exact absurd hx (htableUser j e hy)
    | user e' => rw [eq_of_nodup_held hframes hx hy]

/-! ### The roles -/

/-- A role of a page: at a place of the free list, the kernel stack of a process, the stack on
which another processor starts, a part of the page directory of the kernel or of a process, or
the buffer of a pipe. -/
inductive Role where
  | free (k : Nat)
  | kstack (p : Slot)
  | cpustack (k : Nat)
  | image (p : Option Slot) (x : Part)
  | pipe

/-- The page directory of the kernel, or of a process that has one. -/
def Kernel.pgdir (s : Kernel) : Option Slot → Option Nat
  | none => s.kpgdir
  | some p =>
    match (s.proc p).state with
    | .unused | .embryo => none
    | .sleeping | .runnable | .running | .zombie => some (s.proc p).pgdir

/-- The page `f` has a role. -/
def HasRole (s : Kernel) (f : Nat) : Role → Prop
  | .free k => s.mem.freelist[k]? = some f
  | .kstack p => (s.proc p).state ≠ .unused ∧ (s.proc p).kstack = f
  | .cpustack k => s.cpustack[k]? = some f
  | .image p x => ∃ d, s.pgdir p = some d ∧ s.mem.part d x = some f
  | .pipe => ∃ i w, s.file i = .pipe f w

/-- The owner of a page with a role, if it is not free. -/
def Role.owner : Role → Option Owner
  | .free _ => none
  | .kstack p => some (.proc p)
  | .cpustack _ => some .cpus
  | .image none _ => some .kernel
  | .image (some p) _ => some (.proc p)
  | .pipe => some .pipes

theorem Role.cases_owner (r : Role) :
  match r.owner with
  | none => ∃ k, r = .free k
  | some .kernel => ∃ x, r = .image none x
  | some .cpus => ∃ k, r = .cpustack k
  | some .pipes => r = .pipe
  | some (.proc p) => r = .kstack p ∨ ∃ x, r = .image (some p) x
  := by
  cases r with
  | free k => exact ⟨k, rfl⟩
  | kstack p => exact .inl rfl
  | cpustack k => exact ⟨k, rfl⟩
  | image q x =>
    cases q with
    | none => exact ⟨x, rfl⟩
    | some p => exact .inr ⟨x, rfl⟩
  | pipe => rfl

theorem pgdir_eq_some :
  s.pgdir (some p) = some d ↔ (s.proc p).HasImage ∧ (s.proc p).pgdir = d
  := by
  rw [Kernel.pgdir, Proc.HasImage]
  split
  all_goals simp [*]

/-- A page that is not free is held by its owner. -/
theorem HasRole.mem_holding {r : Role} {o : Owner} (h : HasRole s f r) (ho : r.owner = some o) :
  f ∈ holding s o
  := by
  cases r with
  | free k => cases ho
  | kstack p =>
    cases ho
    obtain ⟨hne, rfl⟩ := h
    rw [holding]
    by_cases he : (s.proc p).state = .embryo
    · rw [Proc.pages_of_embryo he]
      apply Multiset.mem_singleton_self
    · rw [Proc.pages_of_hasImage ⟨hne, he⟩]
      apply Multiset.mem_cons_self
  | cpustack k =>
    cases ho
    exact List.mem_of_getElem? h
  | image p x =>
    obtain ⟨d, hd, hx⟩ := h
    cases p with
    | none =>
      cases ho
      have hd : s.kpgdir = some d := hd
      rw [holding, hd, Option.elim_some]
      apply mem_owned_of_part hx
    | some p =>
      cases ho
      obtain ⟨hi, rfl⟩ := pgdir_eq_some.mp hd
      rw [holding, Proc.pages_of_hasImage hi]
      apply Multiset.mem_cons_of_mem
      apply mem_owned_of_part hx
  | pipe =>
    cases ho
    rw [holding, Finset.mem_val, mem_pipePages]
    apply h

namespace Inv

variable {r r' : Role}

/-- A page with two roles has the same owner in both. -/
theorem owner_unique (h : Inv L s) (hr : HasRole s f r) (hr' : HasRole s f r') :
  r.owner = r'.owner
  := by
  have hfree : ∀ {r r'}, HasRole s f r → r.owner = none → HasRole s f r' → r'.owner = none := by
    intro r r' hr hnone hr'
    have hcases := r.cases_owner
    rw [hnone] at hcases
    obtain ⟨k, rfl⟩ := hcases
    have hf : f ∈ s.mem.freelist := List.mem_of_getElem? hr
    rw [Option.eq_none_iff_forall_ne_some]
    intro o ho
    apply (h.pool.of_sum o).notMem_freelist (hr'.mem_holding ho) hf
  cases ho : r.owner with
  | none => rw [hfree hr ho hr']
  | some o =>
    cases ho' : r'.owner with
    | none => rw [← ho, hfree hr' ho' hr]
    | some o' => rw [h.pool.eq_of_mem (hr.mem_holding ho) (hr'.mem_holding ho')]

/-- The kernel stack of a process is no part of its page directory. -/
theorem kstack_ne {x : Part} (h : Inv L s) (hr : HasRole s f (.kstack p)) :
  ¬ HasRole s f (.image (some p) x)
  := by
  rintro ⟨d, hd, hx⟩
  obtain ⟨hi, rfl⟩ := pgdir_eq_some.mp hd
  have hnodup := (h.pages p).nodup_right
  rw [Proc.pages_of_hasImage hi, hr.2, Multiset.nodup_cons] at hnodup
  apply hnodup.1 (mem_owned_of_part hx)

theorem part_unique
    {q : Option Slot} {x y : Part} (h : Inv L s) (hx : HasRole s f (.image q x))
    (hy : HasRole s f (.image q y)) :
  x = y
  := by
  obtain ⟨d, hd, hx⟩ := hx
  obtain ⟨d', hd', hy⟩ := hy
  rw [hd] at hd'
  obtain rfl := Option.some.inj hd'
  cases q with
  | none =>
    have hpool := h.pool.of_sum .kernel
    have hd : s.kpgdir = some d := hd
    rw [holding, hd, Option.elim_some] at hpool
    apply Vm.part_unique hpool hx hy
  | some p =>
    obtain ⟨hi, rfl⟩ := pgdir_eq_some.mp hd
    apply Vm.part_unique (h.owned hi) hx hy

/-- A page has one role only. -/
theorem role_unique (h : Inv L s) (hr : HasRole s f r) (hr' : HasRole s f r') :
  r = r'
  := by
  have howner := h.owner_unique hr hr'
  have hcases := r.cases_owner
  have hcases' := r'.cases_owner
  rw [← howner] at hcases'
  cases ho : r.owner with
  | none =>
    rw [ho] at hcases hcases'
    obtain ⟨k, rfl⟩ := hcases
    obtain ⟨k', rfl⟩ := hcases'
    have hnodup : s.mem.freelist.Nodup := (Multiset.nodup_add.mp h.pool.nodup).1
    have hlt := (List.getElem?_eq_some_iff.mp hr).1
    rw [(List.getElem?_inj hlt hnodup).mp (hr.trans hr'.symm)]
  | some o =>
    rw [ho] at hcases hcases'
    cases o with
    | kernel =>
      obtain ⟨x, rfl⟩ := hcases
      obtain ⟨y, rfl⟩ := hcases'
      rw [h.part_unique hr hr']
    | cpus =>
      obtain ⟨k, rfl⟩ := hcases
      obtain ⟨k', rfl⟩ := hcases'
      have hnodup : s.cpustack.Nodup := (h.pool.of_sum .cpus).nodup_right
      have hlt := (List.getElem?_eq_some_iff.mp hr).1
      rw [(List.getElem?_inj hlt hnodup).mp (hr.trans hr'.symm)]
    | pipes =>
      obtain rfl := hcases
      obtain rfl := hcases'
      rfl
    | proc p =>
      rcases hcases with rfl | ⟨x, rfl⟩
      · rcases hcases' with rfl | ⟨y, rfl⟩
        · rfl
        · exact absurd hr' (h.kstack_ne hr)
      · rcases hcases' with rfl | ⟨y, rfl⟩
        · exact absurd hr (h.kstack_ne hr')
        · rw [h.part_unique hr hr']

end Inv

end Xv6.Vm
