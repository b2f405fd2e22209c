import Xv6.Vm.Robust

/-!
# Pages that a failing call loses

The calls that take pages from the free list give them back when they fail, or leave them with an
owner.  `copyuvm` does not free a page that it could not map, and so neither does `fork`.  A call of
`exec` whose arguments overrun the image may overwrite any page, and is left out here.
-/

namespace Xv6.Vm

open Ptable (Slot)

variable {L : Layout} {s s' : Kernel} {p : Slot} {f : Nat} {X : Multiset Nat}

/-- A call that takes pages, by the process that runs. -/
inductive Call where
  | setupkvm
  | copyuvm (p : Slot)
  | allocuvm (p : Slot) (newsz : UInt32)
  | fork (p : Slot)
  | exec (p : Slot) (path : List UInt8) (ip : Option Inode) (argv : List (List UInt8))
  | pipealloc

/-- The process that makes the call runs. -/
def Call.Enabled (s : Kernel) : Call → Prop
  | .setupkvm | .pipealloc => True
  | .copyuvm p | .allocuvm p _ | .fork p | .exec p _ _ _ => (s.proc p).state = .running

/-- Make the call; `none` is its failure. -/
def Call.perform (L : Layout) : Call → Krn (Option Unit)
  | .setupkvm => do return (← onMemory (Vm.setupkvm L)).map fun _ => ()
  | .copyuvm p => do
    let curproc := (← get).proc p
    return (← onMemory (Vm.copyuvm L curproc.pgdir curproc.sz)).map fun _ => ()
  | .allocuvm p newsz => do
    let curproc := (← get).proc p
    let sz ← onMemory (Vm.allocuvm L curproc.pgdir curproc.sz newsz.toNat)
    return if sz = 0 then none else some ()
  | .fork p => do return (← Vm.fork L p).map fun _ => ()
  | .exec p path ip argv => do return if ← Vm.exec L readNull p path ip argv then some () else none
  | .pipealloc => do return if ← Vm.pipealloc L then some () else none

/-- Every page that was free has a role: it is free again, or it has an owner.  The pages that a
call gets from `kalloc` were free before it. -/
def NoLeak (s s' : Kernel) : Prop :=
  ∀ f ∈ s.mem.freelist, ∃ r, HasRole s' f r

/-- With so many free pages the call, when it runs alone, gets a page for a user page but none for
its page table. -/
def Call.Strands (s : Kernel) : Call → Prop
  | .copyuvm p => FailsAtTable s.mem.freelist.length (npages (s.proc p).sz)
  | .fork p => ForkLoses s p
  | .setupkvm | .allocuvm _ _ | .exec _ _ _ _ | .pipealloc => False

/-- The arguments of a call of `exec` do not overrun the image. -/
def Call.Fits : Call → Prop
  | .exec p path ip argv => (Label.exec p path ip argv).Fits
  | .setupkvm | .copyuvm _ | .allocuvm _ _ | .fork _ | .pipealloc => True

/-! ### Pages with an owner have a role -/

theorem exists_part {m : Memory} {d : Nat} (h : f ∈ m.owned d) :
  ∃ x, m.part d x = some f
  := by
  rw [Memory.owned, Multiset.mem_add, Memory.tree, Multiset.mem_cons, Memory.frames, mem_held,
    mem_held] at h
  rcases h with (rfl | ⟨j, hj⟩) | ⟨e, he⟩
  · exact ⟨.dir, rfl⟩
  · exact ⟨.table j, hj⟩
  · exact ⟨.user e, he⟩

theorem exists_role {o : Owner} (h : f ∈ holding s o) :
  ∃ r, HasRole s f r
  := by
  cases o with
  | kernel =>
    rw [holding] at h
    cases hd : s.kpgdir with
    | none =>
      rw [hd, Option.elim_none] at h
      cases h
    | some d =>
      rw [hd, Option.elim_some] at h
      obtain ⟨x, hx⟩ := exists_part h
      exact ⟨.image none x, d, hd, hx⟩
  | cpus =>
    obtain ⟨k, hk⟩ := List.mem_iff_getElem?.mp h
    exact ⟨.cpustack k, hk⟩
  | pipes =>
    rw [holding, Finset.mem_val, mem_pipePages] at h
    exact ⟨.pipe, h⟩
  | proc p =>
    rw [holding] at h
    by_cases hi : (s.proc p).HasImage
    · rw [Proc.pages_of_hasImage hi, Multiset.mem_cons] at h
      rcases h with rfl | h
      · exact ⟨.kstack p, hi.1, rfl⟩
      · obtain ⟨x, hx⟩ := exists_part h
        exact ⟨.image (some p) x, _, pgdir_eq_some.mpr ⟨hi, rfl⟩, hx⟩
    · rw [Proc.HasImage, not_and_or, not_not, not_not] at hi
      rcases hi with hi | hi
      · rw [Proc.pages_of_unused hi] at h
        cases h
      · rw [Proc.pages_of_embryo hi, Multiset.mem_singleton] at h
        exact ⟨.kstack p, by rw [hi]; simp, h.symm⟩

namespace Moves

theorem noLeak (h : Moves L s 0 s') :
  NoLeak s s'
  := by
  intro f hf
  have hmem : f ∈ ↑s.mem.freelist + ∑ o, holding s o := Multiset.mem_add.mpr (.inl hf)
  rw [← h.balance, add_zero, Multiset.mem_add, Multiset.mem_sum] at hmem
  rcases hmem with hmem | ⟨o, -, hmem⟩
  · obtain ⟨k, hk⟩ := List.mem_iff_getElem?.mp hmem
    exact ⟨.free k, hk⟩
  · apply exists_role hmem

/-- A page that is lost has no role. -/
theorem no_role (h : Moves L s {f} s') (hs : Inv L s) (r : Role) :
  ¬ HasRole s' f r
  := by
  intro hr
  have hnodup := hs.pool.nodup
  rw [← h.balance, add_comm _ ({f} : Multiset Nat), Multiset.singleton_add, Multiset.nodup_cons,
    Multiset.mem_add] at hnodup
  apply hnodup.1
  cases ho : r.owner with
  | none =>
    have hcases := r.cases_owner
    rw [ho] at hcases
    obtain ⟨k, rfl⟩ := hcases
    exact .inl (List.mem_of_getElem? hr)
  | some o =>
    right
    rw [Multiset.mem_sum]
    exact ⟨o, Finset.mem_univ o, hr.mem_holding ho⟩

end Moves

/-! ### The calls -/

/-- A call that fails loses one page, or none. -/
def FailsWith (L : Layout) (s : Kernel) (leak : Prop) (r : Option Unit) (s' : Kernel) : Prop :=
  r = none → ∃ X, Moves L s X s' ∧ Loses s r.isNone leak X

theorem FailsWith.clean {r : Option Unit} (h : Moves L s 0 s') :
  FailsWith L s False r s'
  := fun _ => ⟨0, h, .inl ⟨rfl, id⟩⟩

theorem Call.perform_spec {c : Call} (h : Inv L s) (he : c.Enabled s) (hfits : c.Fits) :
  Wp (fun _ => True) (c.perform L) (FailsWith L s (c.Strands s)) s
  := by
  cases c with
  | setupkvm =>
    rw [perform, wp_bind, wp_onMemory]
    apply (setupkvm_spec (h.pool.of_le (Multiset.zero_le _))).noFail.mono
    rintro (_ | d) m' hm'
    · apply FailsWith.clean (h.setMem hm'.1)
    · rintro ⟨⟩
  | copyuvm p =>
    rw [perform, wp_bind, wp_get, wp_bind, wp_onMemory]
    have hi : (s.proc p).HasImage := .of_running he
    apply ((copyuvm_spec (h.owned hi) (h.user p hi).lt.le).fail fun _ _ => trivial).mono
    rintro (_ | d) m' hm'
    · intro _
      rcases hm' with ⟨htrade, hclean⟩ | ⟨f, htrade, hleak⟩
      · exact ⟨0, h.setMem htrade, .inl ⟨rfl, hclean.not_atTable⟩⟩
      · have hf : f ∈ s.mem.freelist := by
          have := htrade.mem_iff.mp (.inr (Multiset.mem_singleton_self f))
          simpa using this
        exact ⟨{f}, h.setMem htrade, .inr ⟨rfl, ⟨f, hf, rfl⟩, hleak⟩⟩
    · rintro ⟨⟩
  | allocuvm p newsz =>
    rw [perform, wp_bind, wp_get, wp_bind, wp_onMemory]
    have hi : (s.proc p).HasImage := .of_running he
    have huser := h.user p hi
    rcases Nat.lt_or_ge newsz.toNat KERNBASE with hnew | hnew
    · rcases Nat.lt_or_ge newsz.toNat (s.proc p).sz with hlt | hle
      · rw [wp_allocuvm_of_lt hnew hlt]
        apply FailsWith.clean (.refl h)
      · apply (allocuvm_spec (h.owned hi) hnew hle fun _ => huser.empty hnew).noFail.mono
        rintro r m' (⟨rfl, F, hadds⟩ | ⟨rfl, hsame, htrade, -⟩)
        · intro hnone
          have hzero : newsz.toNat = 0 := by
            by_contra hne
            rw [if_neg hne] at hnone
            cases hnone
          have hsz : (s.proc p).sz = newsz.toNat := by
            omega
          have huser' := huser.adds hnew hadds
          rw [← hsz] at huser'
          exact FailsWith.clean (h.remap hi hadds.trade_owned huser') hnone
        · apply FailsWith.clean
          apply h.remap hi (htrade.owned hsame.frame) (huser.samePages hsame)
    · rw [wp_allocuvm_of_ge hnew]
      apply FailsWith.clean (.refl h)
  | fork p =>
    rw [perform]
    apply ((fork_spec h (.of_running he)).fail fun _ _ => trivial).bind
    rintro (_ | q) s' hs'
    · intro _
      apply hs'
    · rintro ⟨⟩
  | exec p path ip argv =>
    rw [perform]
    apply (exec_of_fits h (.of_running he) hfits).noFail.bind
    intro _ s' hm
    apply FailsWith.clean hm
  | pipealloc =>
    rw [perform]
    apply (pipealloc_spec h).noFail.bind
    intro _ s' hm
    apply FailsWith.clean hm

/-- A call that fails, while no other call takes or frees pages, loses no page, unless it got a page
for a user page but none for its page table. -/
theorem failing_call_leaks_iff
    {c : Call} (h : (machineSys L).Reach (fun _ l => l.Fits) s) (he : c.Enabled s)
    (hfits : c.Fits) (hfail : c.perform L s = .ok (none, s')) :
  NoLeak s s' ↔ ¬ c.Strands s
  := by
  have hinv := Inv.of_fits h
  obtain ⟨X, hmoves, hX⟩ := (Call.perform_spec hinv he hfits).of_ok hfail rfl
  rcases hX with ⟨rfl, hnot⟩ | ⟨-, ⟨f, hf, rfl⟩, hstrands⟩
  · exact ⟨fun _ => hnot, fun _ => hmoves.noLeak⟩
  · constructor
    · intro hno
      obtain ⟨r, hr⟩ := hno f hf
      exact absurd hr (hmoves.no_role hinv r)
    · intro hnot
      exact absurd hstrands hnot

/-- `setupkvm` takes the ten pages that are free, and then fails. -/
theorem failing_call_leaks_iff_setupkvm :
  ∃ s s', (machineSys .sample).Reach (fun _ l => l.Fits) s ∧ s.mem.freelist.length = 10 ∧
    Call.setupkvm.perform .sample s = .ok (none, s') ∧ NoLeak s s'
  := by
  obtain ⟨s, hreach, -, -, -, -, -, hlen⟩ :=
    exists_grown (n := 231972864) (i := 56634) (by decide) (by decide) (by decide)
  have hspec : Wp NoFault (Call.setupkvm.perform .sample) (fun r _ => r = none) s := by
    rw [Call.perform, wp_bind, wp_onMemory]
    apply (setupkvm_spec ((Inv.of_fits hreach.fits).pool.of_le (Multiset.zero_le _))).mono
    rintro (_ | d) m' hm'
    · rfl
    · have := hm'.1.card
      rw [hm'.2.card_tree, Multiset.card_zero] at this
      omega
  obtain ⟨_, s', hfail, rfl⟩ := hspec.exists_ok
  refine ⟨s, s', hreach.fits, by omega, hfail, ?_⟩
  exact (failing_call_leaks_iff (c := .setupkvm) hreach.fits trivial trivial hfail).mpr id

/-- With 67 free pages `fork` fails and loses a page. -/
theorem failing_fork_leaks :
  ∃ s s' f, (machineSys .sample).Reach (fun _ l => l.Fits) s ∧ (s.proc 0).state = .running ∧
    fork .sample 0 s = .ok (none, s') ∧ f ∈ s.mem.freelist ∧ ∀ r, ¬ HasRole s' f r
  := by
  -- the process leaves 67 free pages
  obtain ⟨s, hreach, hstate, hsz, hspace, -, hunused, hlen⟩ :=
    exists_grown (n := 231739392) (i := 56577) (by decide) (by decide) (by decide)
  have hfull : ¬ Missing s 0 := by
    rintro ⟨e, he, hP⟩
    rw [hspace.full e he] at hP
    cases hP
  have hpages : 0 < npages (s.proc 0).sz := by
    rw [hsz]
    decide
  have hi : (s.proc 0).HasImage := .of_running hstate
  have hinv := Inv.of_fits hreach.fits
  obtain ⟨r, s', hfork, X, hmoves, hX⟩ :=
    ((fork_spec hinv hi).fail fun _ hmissing => hfull hmissing).exists_ok
  rcases hX with ⟨-, hnot⟩ | ⟨hnone, ⟨f, hf, rfl⟩, -⟩
  · exact absurd ⟨hunused, 0, hpages, by omega⟩ hnot
  · obtain rfl := Option.isNone_iff_eq_none.mp hnone
    exact ⟨s, s', f, hreach.fits, hstate, hfork, hf, hmoves.no_role hinv⟩

end Xv6.Vm
