import Xv6.Vm.Roles

/-!
# What `growproc` leaves when it fails

`growproc` takes a size of `0` that `deallocuvm` returns for a failure.  So it fails after it has
freed all memory of the process, when it shrinks it by exactly its size.
-/

namespace Xv6.Vm

open Ptable (NPROC Slot)

variable {L : Layout} {s s' : Kernel} {p : Slot} {n : Int32}

/-- The size of a process and its user pages with their contents are the same. -/
def Unchanged (s s' : Kernel) (p : Slot) : Prop :=
  (s'.proc p).sz = (s.proc p).sz ∧
    userPage s'.mem (s'.proc p).pgdir = userPage s.mem (s.proc p).pgdir

/-- `growproc` that fails has changed nothing, unless it was to take away all memory of a process
that had some. -/
theorem growproc_fails_unchanged_iff
    (h : (kernelSys L).Reachable s) (hp : (s.proc p).state = .running)
    (hfail : growproc L p n s = .ok (false, s')) :
  Unchanged s s' p ↔
    ¬ (n.toInt = - (s.proc p).sz ∧ ∃ e, (userPage s.mem (s.proc p).pgdir e).isSome)
  := by
  have hi : (s.proc p).HasImage := .of_running hp
  obtain ⟨-, hproc, hsame, hgone⟩ := (growproc_spec (Inv.of_reachable h) hi).of_ok hfail
  rw [Unchanged, hproc]
  constructor
  · rintro ⟨-, hpages⟩ ⟨hn, e, he⟩
    rw [← hpages, hgone hn] at he
    cases he
  · intro hnot
    refine ⟨rfl, ?_⟩
    by_cases hn : n.toInt = - (s.proc p).sz
    · have hnone : ∀ e, userPage s.mem (s.proc p).pgdir e = none := by
        intro e
        rw [← Option.not_isSome_iff_eq_none]
        intro he
        apply hnot ⟨hn, e, he⟩
      funext e
      rw [hnone, hgone hn]
    · apply hsame hn

/-- A size that is not below `KERNBASE` is refused. -/
theorem growproc_of_ge
    (hn : 0 < n) (hge : KERNBASE ≤ ((s.proc p).sz + n.toUInt32.toNat) % 2 ^ 32) :
  growproc L p n s = .ok (false, s)
  := by
  have hspec : Wp (fun _ => False) (growproc L p n) (fun r s' => r = false ∧ s' = s) s := by
    rw [growproc, wp_bind, wp_get, wp_bind, wp_onMemory, growuvm, if_pos hn, wp_bind,
      wp_allocuvm_of_ge hge, wp_pure, if_pos rfl]
    exact ⟨rfl, rfl⟩
  obtain ⟨r, s', hs', rfl, rfl⟩ := hspec.exists_ok
  apply hs'

/-- The state is reached without a call of `exec`, so whatever a null pointer gives. -/
def WithoutExec (L : Layout) (s : Kernel) : Prop :=
  ∀ null, (systemOf L null).Reach (fun _ l => l.NoExec) s

theorem WithoutExec.step
    {l : Label} (h : WithoutExec L s) (hl : l.NoExec) (he : Enabled s l)
    (hperform : ∀ null, perform L null l s = .ok ((), s')) :
  WithoutExec L s'
  := by
  intro null
  apply System.Reach.step (h null) hl
  simp only [systemOf, if_pos he, hperform]
  rfl

theorem WithoutExec.reachable (h : WithoutExec L s) :
  (kernelSys L).Reachable s
  := (h nullFault).mono fun _ _ _ => trivial

/-- The first process runs. -/
theorem exists_running :
  ∃ s, WithoutExec .sample s ∧ Inv .sample s ∧ (s.proc 0).state = .running ∧
    (s.proc 0).sz = PGSIZE ∧ OnePage .sample s.mem (s.proc 0).pgdir ∧
    s.unused = (List.finRange NPROC).tail ∧ s.mem.freelist.length = 56699
  := by
  obtain ⟨s, hs, hinv, hfirst, hunused, hlen⟩ := exists_main
  obtain ⟨s', hs'⟩ : ∃ s', s' = { s with
      proc := Function.update s.proc 0 { s.proc 0 with state := .running } } := ⟨_, rfl⟩
  have hproc : s'.proc 0 = { s.proc 0 with state := .running } := by
    simp only [hs', Function.update_self]
  have hreach : WithoutExec .sample s' := by
    have hinit : WithoutExec .sample s := fun null => .init hs
    apply hinit.step (l := .sched 0 .running) trivial
    · exact ⟨.inr (.inl hfirst.state), .inr (.inr rfl)⟩
    · intro null
      rw [hs']
      rfl
  refine ⟨s', hreach, .of_reachable hreach.reachable, ?_⟩
  rw [hproc]
  have hmem : s'.mem = s.mem := by
    rw [hs']
  have hun : s'.unused = s.unused := by
    rw [hs']
  rw [hmem, hun]
  exact ⟨rfl, hfirst.sz, hfirst.page, hunused, hlen⟩

/-- From the first byte up to `KERNBASE` the first process has a page and one page table. -/
theorem deallocuvm_skips_exactly_running :
  ∃ s m' F, (kernelSys .sample).Reachable s ∧
    deallocuvm .sample (s.proc 0).pgdir KERNBASE 0 s.mem = .ok (0, m') ∧
    isP (s.mem.entry (s.proc 0).pgdir (.ofVa 0)) ∧ s.mem.table (s.proc 0).pgdir 1 = none ∧
    isP (m'.entry (s.proc 0).pgdir (.ofVa 0)) = false ∧
    (↑m'.freelist : Multiset Nat) = F + ↑s.mem.freelist
  := by
  obtain ⟨s, hreach, hinv, hstate, -, hpage, -⟩ := exists_running
  obtain ⟨m', F, hrun, hgone, -, -, hfree, -⟩ :=
    (deallocuvm_skips_exactly .sample s.mem (s.proc 0).pgdir KERNBASE 0 (by decide)
      le_rfl).2.2 (hinv.owned (.of_running hstate))
  refine ⟨s, m', F, hreach.reachable, hrun, hpage.space.full _ (by decide), ?_,
    hgone _ (by decide), hfree⟩
  rw [← Option.not_isSome_iff_eq_none, hpage.table]
  decide

theorem growproc_fails_unchanged_iff_large :
  ∃ s, (kernelSys .sample).Reachable s ∧ growproc .sample 0 0x7fffffff s = .ok (false, s) ∧
    Unchanged s s 0
  := by
  obtain ⟨s, hreach, -, hstate, hsz, -⟩ := exists_running
  have hfail : growproc .sample 0 0x7fffffff s = .ok (false, s) := by
    apply growproc_of_ge (by decide)
    rw [hsz]
    decide
  refine ⟨s, hreach.reachable, hfail, ?_⟩
  apply (growproc_fails_unchanged_iff hreach.reachable hstate hfail).mpr
  rintro ⟨hn, -⟩
  rw [hsz] at hn
  revert hn
  decide

/-- `sbrk(-4096)` in the first process returns `-1`, and the memory of the process is gone. -/
theorem growproc_fails_changed :
  ∃ s s', (kernelSys .sample).Reachable s ∧ (s.proc 0).state = .running ∧
    growproc .sample 0 (-4096) s = .ok (false, s') ∧ (s'.proc 0).sz = PGSIZE ∧
    (userPage s.mem (s.proc 0).pgdir (.ofVa 0)).isSome ∧
    ∀ e, userPage s'.mem (s'.proc 0).pgdir e = none
  := by
  obtain ⟨s, hreach, hinv, hstate, hsz, hpage₀, -⟩ := exists_running
  have hi : (s.proc 0).HasImage := .of_running hstate
  obtain ⟨r, s', hgrow, -, hr⟩ := (growproc_spec (n := -4096) hinv hi).exists_ok
  have hn : (-4096 : Int32).toInt = - (s.proc 0).sz := by
    rw [hsz]
    decide
  cases r with
  | true =>
    have hzero : (-4096 : Int32).toInt ≠ 0 := by
      decide
    exact absurd (hr hn) hzero
  | false =>
    obtain ⟨hproc, -, hgone⟩ := hr
    have hpage : (userPage s.mem (s.proc 0).pgdir (.ofVa 0)).isSome := by
      rw [userPage, if_pos]
      · rfl
      · exact ⟨by decide, hpage₀.space.full (.ofVa 0) (by decide)⟩
    refine ⟨s, s', hreach.reachable, hstate, hgrow, ?_, hpage, ?_⟩
    · rw [hproc, hsz]
    · rw [hproc]
      apply hgone hn

/-! ### A process that takes many pages -/

/-- `growproc` with enough free pages. -/
theorem growproc_adds
    {n : Int32} (h : Inv L s) (hi : (s.proc p).HasImage) (hn : 0 < n)
    (hnew : (s.proc p).sz + n.toUInt32.toNat < KERNBASE)
    (henough : ¬ Lacks s.mem (s.proc p).pgdir (npages (s.proc p).sz)
      (npages ((s.proc p).sz + n.toUInt32.toNat))) :
  Wp NoFault (growproc L p n)
    (fun _ s' => ∃ F m', AddsZeros (s.proc p).pgdir (npages (s.proc p).sz)
        (npages ((s.proc p).sz + n.toUInt32.toNat)) F s.mem m' ∧
      s' = { s with
        mem := m'
        proc := Function.update s.proc p
          { s.proc p with sz := (s.proc p).sz + n.toUInt32.toNat } }) s
  := by
  have huser := h.user p hi
  have hmod : ((s.proc p).sz + n.toUInt32.toNat) % 2 ^ 32 = (s.proc p).sz + n.toUInt32.toNat := by
    simp only [KERNBASE] at hnew
    omega
  have hpos : (s.proc p).sz + n.toUInt32.toNat ≠ 0 := by
    have hcast := toNat_toUInt32 n
    rw [Int32.lt_iff_toInt_lt, Int32.toInt_zero] at hn
    rw [if_neg (by omega)] at hcast
    omega
  rw [growproc, wp_bind, wp_get, wp_bind, wp_onMemory, growuvm, if_pos hn, hmod]
  apply (allocuvm_spec (h.owned hi) hnew (Nat.le_add_right _ _) fun _ => huser.empty hnew).bind
  rintro r m' (⟨rfl, F, hadds⟩ | ⟨-, -, -, hlacks⟩)
  · rw [wp_pure, if_neg hpos]
    apply (wp_resize h hi hadds.trade_owned (huser.adds hnew hadds)).mono
    rintro _ s' ⟨-, -, rfl⟩
    exact ⟨F, m', hadds, rfl⟩
  · exact absurd hlacks henough

/-- The tables that a process with one page needs for `i` pages. -/
theorem newTables_of_one
    {m : Memory} {d i : Nat}
    (htable : ∀ j : Fin 1024, (m.table d j).isSome ↔
      j.val = 0 ∨ 512 ≤ j.val ∧ j.val < 568 ∨ 1016 ≤ j.val)
    (hi : 0 < i) (hle : i < 2 ^ 19) :
  newTables m d 1 i = (i - 1) / 1024
  := by
  have hiff : ∀ j : Fin 1024, m.table d j = none ∧ NeedsTable 1 i j ↔
      j ∈ Finset.Ico (1 : Fin 1024) ⟨(i - 1) / 1024 + 1, by omega⟩ := by
    intro j
    rw [← Option.not_isSome_iff_eq_none, htable, NeedsTable, Finset.mem_Ico, Fin.le_def, Fin.lt_def]
    change _ ↔ 1 ≤ j.val ∧ j.val < (i - 1) / 1024 + 1
    omega
  simp only [newTables, hiff, Finset.filter_univ_mem, Fin.card_Ico]
  change (i - 1) / 1024 + 1 - 1 = _
  rw [Nat.add_sub_cancel]

/-- The first process, grown by `i` pages. -/
theorem exists_grown
    {i : Nat} {n : Int32} (hpos : 0 < n) (hn : n.toUInt32.toNat = PGSIZE * i) (hi : i ≤ 56644) :
  ∃ s, WithoutExec .sample s ∧ (s.proc 0).state = .running ∧
    (s.proc 0).sz = PGSIZE * (i + 1) ∧ Space .sample s.mem (s.proc 0).pgdir (s.proc 0).sz ∧
    isU (s.mem.entry (s.proc 0).pgdir (.ofVa 0)) ∧ s.unused ≠ [] ∧
    s.mem.freelist.length + i + i / 1024 = 56699
  := by
  obtain ⟨s, hreach, hinv, hstate, hsz, hpage, hunused, hlen⟩ := exists_running
  have himage : (s.proc 0).HasImage := .of_running hstate
  have hlo : npages (s.proc 0).sz = 1 := by
    rw [hsz]
    decide
  have hhi : npages ((s.proc 0).sz + n.toUInt32.toNat) = i + 1 := by
    rw [hsz, hn]
    simp only [npages, PGSIZE]
    omega
  have htables : newTables s.mem (s.proc 0).pgdir 1 (i + 1) = i / 1024 := by
    apply newTables_of_one hpage.table (Nat.succ_pos i)
    omega
  have hnew : (s.proc 0).sz + n.toUInt32.toNat < KERNBASE := by
    rw [hsz, hn]
    simp only [KERNBASE, PGSIZE]
    omega
  have hspec := growproc_adds hinv himage hpos hnew
  rw [hlo, hhi, Lacks, htables, hlen] at hspec
  obtain ⟨r, s', hgrow, F, m', hadds, hs'⟩ := (hspec (by omega)).exists_ok
  have hlength := hadds.length_freelist
  rw [htables, hlen] at hlength
  have hproc : s'.proc 0 = { s.proc 0 with sz := (s.proc 0).sz + n.toUInt32.toNat } := by
    simp only [hs', Function.update_self]
  have hmem : s'.mem = m' := by
    rw [hs']
  have hspace' : Space .sample m' (s.proc 0).pgdir ((s.proc 0).sz + n.toUInt32.toNat) := by
    have hspace := hpage.space
    rw [← hsz] at hspace
    apply hspace.adds (hinv.owned himage) hnew
    rw [hlo, hhi]
    apply hadds
  refine ⟨s', ?_, ?_, ?_, ?_, ?_, ?_, ?_⟩
  · apply hreach.step (l := .growproc 0 n) trivial hstate
    intro null
    simp only [perform, bind, StateT.bind, Except.bind, hgrow]
    rfl
  · rw [hproc, hstate]
  · rw [hproc]
    simp only [hsz, hn]
    rw [Nat.mul_succ, Nat.add_comm]
  · rw [hproc, hmem]
    exact hspace'
  · rw [hproc, hmem, hadds.outside _ fun h => absurd h.1 (by decide)]
    exact hpage.user
  · rw [hs']
    simp only [hunused]
    decide
  · rw [hmem]
    omega

end Xv6.Vm
