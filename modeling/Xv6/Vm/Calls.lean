import Xv6.Vm.Owner

/-!
# The calls of the kernel keep the owners apart

Each call trades the pages of one owner with the free list.  Only `fork` may lose a page, when
`copyuvm` gets a page for the copy but no page for the page table.
-/

namespace Xv6.Vm

open Ptable (Slot)
open Function

variable {L : Layout} {s s' : Kernel} {m m' : Memory} {p : Slot} {E : Fault → Prop}

/-! ### Computations of the kernel -/

theorem wp_onMemory {α : Type} {x : Mem α} {Q : α → Kernel → Prop} :
  Wp E (onMemory x) Q s ↔ Wp E x (fun a m => Q a { s with mem := m }) s.mem
  := by
  simp only [Wp, onMemory, bind, Except.bind]
  cases x s.mem with
  | error f | ok r => rfl

theorem wp_setProc {f : Proc → Proc} {Q : Unit → Kernel → Prop} :
  Wp E (setProc p f) Q s ↔
    Q () { s with proc := update s.proc p (f (s.proc p)) }
  := Iff.rfl

theorem wp_setFile {i : Fin NFILE} {f : File} {Q : Unit → Kernel → Prop} :
  Wp E (setFile i f) Q s ↔ Q () { s with file := update s.file i f }
  := Iff.rfl

theorem wp_setPipe {f : Nat} {c : Pipe} {Q : Unit → Kernel → Prop} :
  Wp E (setPipe f c) Q s ↔ Q () { s with pipe := update s.pipe f c }
  := Iff.rfl

theorem wp_retire {Q : Unit → Kernel → Prop} :
  Wp E (retire p) Q s ↔
    Q () { s with
      proc := update s.proc p { s.proc p with state := .unused }
      unused := s.unused ++ [p] }
  := Iff.rfl

/-! ### `allocproc` -/

/-- The slot `p` gets the page `f` for its kernel stack. -/
def Kernel.embryo (s : Kernel) (p : Slot) (us : List Slot) (f : Nat) (l : List Nat) : Kernel :=
  { s with
    mem := { s.mem with freelist := l }
    proc := Function.update s.proc p { s.proc p with state := .embryo, kstack := f }
    unused := us }

/-- The slot `p` goes to the end of the list of unused slots. -/
def Kernel.putBack (s : Kernel) (p : Slot) (us : List Slot) : Kernel :=
  { s with
    proc := Function.update s.proc p { s.proc p with state := .unused, kstack := 0 }
    unused := us ++ [p] }

theorem wp_allocproc {Q : Option Slot → Kernel → Prop} :
  Wp E allocproc Q s ↔
    match s.unused, s.mem.freelist with
    | [], _ => Q none s
    | p :: us, [] => Q none (s.putBack p us)
    | p :: us, f :: l => Q (some p) (s.embryo p us f l)
  := by
  simp only [allocproc, wp_bind, wp_get]
  split
  · rename_i h
    simp only [h, wp_pure]
  · rename_i q us h
    simp only [wp_bind, wp_modify, wp_setProc, wp_onMemory, wp_kalloc]
    cases hf : s.mem.freelist with
    | nil =>
      simp only [h, wp_retire, wp_pure, Kernel.putBack, update_self,
        update_idem, true_implies]
      constructor
      · intro hQ
        apply hQ.1
      · intro hQ
        exact ⟨hQ, by simp⟩
    | cons f l =>
      simp only [h, wp_pure, Kernel.embryo, update_self, update_idem]
      constructor
      · intro hQ
        apply hQ.2 f l rfl
      · intro hQ
        refine ⟨by simp, ?_⟩
        intro f' l' hl
        obtain ⟨rfl, rfl⟩ := List.cons.inj hl
        apply hQ

namespace Inv

section

variable {us : List Slot} (h : Inv L s) (hus : s.unused = p :: us)

include h hus

/-- A slot on the list of unused slots holds nothing. -/
theorem pages_head :
  (s.proc p).pages m = 0
  := by
  apply Proc.pages_of_unused
  apply h.unused
  rw [hus]
  apply List.mem_cons_self

theorem embryo {f : Nat} {l : List Nat} (hf : s.mem.freelist = f :: l) :
  Moves L s 0 (s.embryo p us f l)
  := by
  have hnodup := h.unused_nodup
  rw [hus, List.nodup_cons] at hnodup
  apply h.setProc
  · rw [h.pages_head hus, zero_add, Proc.pages_of_embryo rfl]
    apply Trade.kalloc hf
  · intro hi
    exact absurd rfl hi.2
  · apply hnodup.2
  · intro q hq
    rw [if_neg, hus]
    · apply List.mem_cons_of_mem p hq
    · rintro rfl
      apply hnodup.1 hq

theorem putBack :
  Moves L s 0 (s.putBack p us)
  := by
  have hnodup := h.unused_nodup
  rw [hus, List.nodup_cons] at hnodup
  apply h.setProc
  · rw [h.pages_head hus, zero_add, Proc.pages_of_unused rfl]
    apply Trade.refl
  · intro hi
    exact absurd rfl hi.1
  · rw [List.nodup_append_comm, List.singleton_append, List.nodup_cons]
    apply hnodup
  · intro q hq
    split
    · rfl
    · rename_i hqp
      rw [hus]
      rcases List.mem_append.mp hq with hq | hq
      · apply List.mem_cons_of_mem p hq
      · rw [List.mem_singleton] at hq
        contradiction

end

end Inv

theorem allocproc_spec (h : Inv L s) :
  Wp NoFault allocproc (fun _ s' => Moves L s 0 s') s
  := by
  rw [wp_allocproc]
  split
  · apply Moves.refl h
  · rename_i p us hus _
    apply h.putBack hus
  · rename_i p us f l hus hf
    apply h.embryo hus hf

/-! ### `fork` -/

/-- With so many free pages `fork` of a process with `n` pages gets a kernel stack and, for the
last page that it copies, a page but no page table. -/
def ForkLoses (s : Kernel) (p : Slot) : Prop :=
  s.unused ≠ [] ∧
    ∃ j, 1024 * j < npages (s.proc p).sz ∧ s.mem.freelist.length = 67 + 1025 * j

/-- The copy of the memory of a process. -/
theorem Copies.user
    {src n d sz : Nat} (h : Copies L src n d m m') (hn : n = npages sz) (hsz : sz < KERNBASE) :
  User m' d sz
  := by
  subst hn
  have hlt := npages_lt hsz
  constructor
  · apply hsz
  · intro e he hP
    by_contra hge
    rw [h.outside e (by omega), kernelPte_of_lt] at hP
    · cases hP
    · rw [user_iff] at he
      simp only [PGSIZE, KERNBASE]
      omega
  · intro e he _
    rw [user_iff] at he
    rw [h.outside e (by omega), isU_kernelPte L e.vpn_lt]

/-- A page of the process is missing. -/
def Missing (s : Kernel) (p : Slot) : Prop :=
  ∃ e : Entry, e.vpn < npages (s.proc p).sz ∧ isP (s.mem.entry (s.proc p).pgdir e) = false

/-- A call loses one page if it fails and the condition `leak` holds, and no page otherwise.  With
the condition it does fail. -/
def Loses (s : Kernel) (failed : Bool) (leak : Prop) (X : Multiset Nat) : Prop :=
  X = 0 ∧ ¬ leak ∨ failed ∧ (∃ f ∈ s.mem.freelist, X = {f}) ∧ leak

theorem forkCopy_spec
    {np : Slot} (h : Inv L s) (hp : (s.proc p).HasImage) (hnp : (s.proc np).state = .embryo)
    (hnot : np ∉ s.unused) :
  Wp (fun _ => Missing s p) (forkCopy L p np)
    (fun r s' => ∃ X, Moves L s X s' ∧
      Loses s r.isNone (FailsAtTable s.mem.freelist.length (npages (s.proc p).sz)) X) s
  := by
  have hpages : (s.proc np).pages s.mem = {(s.proc np).kstack} := Proc.pages_of_embryo hnp
  have huser := h.user p hp
  rw [forkCopy, wp_bind, wp_get, wp_bind, wp_onMemory]
  apply (copyuvm_spec (h.owned hp) huser.lt.le).mono
  rintro (_ | d) m₁ hm₁
  · have hfree : ∀ {X}, Trade 0 s.mem X m₁ →
        Wp (fun _ => Missing s p) (kfree L (s.proc np).kstack)
          (fun _ m' => Moves L s X
            { s with
              mem := m'
              proc := update s.proc np
                { s.proc np with pgdir := 0, kstack := 0, state := .unused }
              unused := s.unused ++ [np] }) m₁ := by
      intro X hX
      have htrade := hX.frame_left {(s.proc np).kstack}
      rw [add_zero, Multiset.singleton_add] at htrade
      have hpool := h.pages np
      rw [hpages] at hpool
      apply wp_kfree_of_mem (hpool.trade htrade)
      intro hkfree
      apply h.retire hnot rfl
      rw [hpages]
      apply htrade.trans hkfree
    simp only [wp_bind, wp_get, wp_onMemory, wp_setProc, wp_retire, update_self,
      update_idem]
    rcases hm₁ with ⟨htrade, hclean⟩ | ⟨f, htrade, hleak⟩
    · apply (hfree htrade).mono
      intro _ m₂ hm₂
      exact ⟨0, hm₂, .inl ⟨rfl, hclean.not_atTable⟩⟩
    · have hf : f ∈ s.mem.freelist := by
        have := htrade.mem_iff.mp (.inr (Multiset.mem_singleton_self f))
        simpa using this
      apply (hfree htrade).mono
      intro _ m₂ hm₂
      exact ⟨{f}, hm₂, .inr ⟨rfl, ⟨f, hf, rfl⟩, hleak⟩⟩
  · refine ⟨0, ?_, .inl ⟨rfl, hm₁.not_atTable⟩⟩
    apply h.update hnot
    · rw [hpages, Proc.pages_of_hasImage (.of_live (.inr (.inl rfl))), zero_add]
      have := hm₁.trade.frame_left {(s.proc np).kstack}
      rw [add_zero, Multiset.singleton_add] at this
      apply this
    · intro _
      apply hm₁.user rfl huser.lt

/-- `fork` loses a page when it fails for want of a page table, and no page otherwise. -/
theorem fork_spec (h : Inv L s) (hp : (s.proc p).HasImage) :
  Wp (fun _ => Missing s p) (fork L p)
    (fun r s' => ∃ X, Moves L s X s' ∧ Loses s r.isNone (ForkLoses s p) X) s
  := by
  rw [fork, wp_bind, wp_allocproc]
  split
  · rename_i hus
    refine ⟨0, Moves.refl h, .inl ⟨rfl, ?_⟩⟩
    intro hl
    apply hl.1 hus
  · rename_i us hus hfree
    refine ⟨0, h.putBack hus, .inl ⟨rfl, ?_⟩⟩
    rintro ⟨-, j, -, hj⟩
    rw [hfree, List.length_nil] at hj
    omega
  · rename_i np us f l hus hfree
    have hm := h.embryo hus hfree
    have hne : p ≠ np := by
      rintro rfl
      apply hp.1
      apply h.unused
      rw [hus]
      apply List.mem_cons_self
    have hproc : (s.embryo np us f l).proc p = s.proc p := update_of_ne hne _ _
    have hproc' : ((s.embryo np us f l).proc np).state = .embryo := by
      simp only [Kernel.embryo, update_self]
    have hnodup := h.unused_nodup
    rw [hus, List.nodup_cons] at hnodup
    have hiff : FailsAtTable l.length (npages (s.proc p).sz) ↔ ForkLoses s p := by
      rw [FailsAtTable, ForkLoses, hus, hfree, List.length_cons]
      simp only [ne_eq, reduceCtorEq, not_false_eq_true, true_and]
      constructor
      · rintro ⟨j, hj, hl⟩
        exact ⟨j, hj, by omega⟩
      · rintro ⟨j, hj, hl⟩
        exact ⟨j, hj, by omega⟩
    have hspec := forkCopy_spec hm.inv (hproc ▸ hp) hproc' hnodup.1
    rw [Missing, hproc] at hspec
    apply hspec.mono
    rintro r s' ⟨X, hX, hr⟩
    refine ⟨X, ?_, ?_⟩
    · rw [← zero_add X]
      apply hm.trans hX
    · rw [Loses, ← hiff]
      apply hr.imp_right
      rintro ⟨hnone, ⟨g, hg, hX⟩, hleak⟩
      refine ⟨hnone, ⟨g, ?_, hX⟩, hleak⟩
      rw [hfree]
      apply List.mem_cons_of_mem f hg

/-! ### `exec` -/

/-- Pages that are not part of a trade are held as before. -/
theorem Pool.owned_of_trade
    {d : Nat} {A B : Multiset Nat} (hp : Pool L m (A + m.owned d)) (h : Trade A m B m') :
  m'.owned d = m.owned d
  := by
  apply Memory.owned_congr
  intro f hf
  apply hp.same_of_mem h
  rw [Memory.owned, Multiset.mem_add]
  exact .inl hf

theorem switchuvm_spec (h : Inv L s) (hp : (s.proc p).HasImage) :
  Wp NoFault (switchuvm p) (fun _ s' => s' = s) s
  := by
  have hpool := h.pages p
  rw [Proc.pages_of_hasImage hp] at hpool
  have hkstack := (hpool.inRange (Multiset.mem_cons_self _ _)).ne_zero
  have hpgdir : (s.proc p).pgdir ≠ 0 := by
    apply Layout.InRange.ne_zero (L := L)
    apply (h.owned hp).inRange
    rw [Memory.owned, Multiset.mem_add]
    exact .inl Memory.mem_tree_self
  simp only [switchuvm, wp_bind, wp_get, if_neg hkstack, if_neg hpgdir, wp_pure]

/-- `exec` puts the new image in place of the old one, and then frees the old one. -/
theorem exec_of_image
    {E : Fault → Prop} {Q : Option Image → Memory → Prop} {null : NullRead} {path : List UInt8}
    {ip : Inode} {argv : List (List UInt8)} (h : Inv L s) (hp : (s.proc p).HasImage)
    (himage : Wp E (execImage L (null (s.proc p).pgdir) ip argv)
      (fun r m' => Builds L s.mem r m' ∧ Q r m') s.mem) :
  Wp E (exec L null p path (some ip) argv)
    (fun ok s' => Moves L s 0 s' ∧
      match ok with
      | false => s'.proc = s.proc ∧ Trade 0 s.mem 0 s'.mem ∧ Q none s'.mem
      | true => ∃ img m₁, Q (some img) m₁ ∧ s'.proc p = (s.proc p).withImage path img ∧
          ∀ f ∈ m₁.owned img.pgdir, s'.mem.page f = m₁.page f) s
  := by
  have hpages := Proc.pages_of_hasImage (m := s.mem) hp
  have hpool := h.pages p
  have hus := h.notMem_unused hp.1
  rw [exec, wp_bind, wp_get, wp_bind, wp_onMemory]
  apply himage.mono
  rintro (_ | img) m₁ ⟨hm₁, hQ⟩
  · exact ⟨h.setMem hm₁, rfl, hm₁, hQ⟩
  · obtain ⟨hbuild, hspace⟩ := hm₁
    obtain ⟨pr, hpr⟩ : ∃ pr, pr = (s.proc p).withImage path img := ⟨_, rfl⟩
    have hi : pr.HasImage := by
      rw [hpr]
      apply hp
    have hpages' : ∀ m, pr.pages m = (s.proc p).kstack ::ₘ m.owned img.pgdir := by
      intro m
      rw [Proc.pages_of_hasImage hi, hpr]
      rfl
    have htrade : Trade ((s.proc p).pages s.mem) s.mem
        (s.mem.owned (s.proc p).pgdir + pr.pages m₁) m₁ := by
      have := hbuild.frame_left ((s.proc p).pages s.mem)
      rw [add_zero] at this
      rw [hpages, hpages', Multiset.add_cons, ← Multiset.cons_add, ← hpages]
      apply this
    have hmoves := h.update hus htrade (fun _ => hpr ▸ hspace.toUser)
    simp only [wp_bind, wp_setProc, ← hpr]
    apply (switchuvm_spec hmoves.inv _).noFail.mono
    · rintro _ _ rfl
      rw [wp_onMemory]
      have hpool₁ := hpool.trade htrade
      have hold : m₁.owned (s.proc p).pgdir = s.mem.owned (s.proc p).pgdir := by
        apply Pool.owned_of_trade (L := L) _ hbuild
        rw [zero_add]
        apply h.owned hp
      rw [← hold] at hpool₁ htrade
      apply (freevm_spec hpool₁.left).noFail.mono
      intro _ m₂ hm₂
      have hsame : ∀ f ∈ pr.pages m₁, m₂.page f = m₁.page f := by
        intro f hf
        apply hpool₁.same_of_mem hm₂ hf
      rw [wp_pure]
      constructor
      · apply h.update hus
        · have := htrade.trans (hm₂.frame (pr.pages m₁))
          rw [← Proc.pages_congr hsame] at this
          apply this
        · intro _
          rw [hpr]
          apply hspace.toUser.congr
          intro f hf
          apply hsame
          apply Proc.mem_pages_of_tree hi
          rw [hpr]
          apply hf
      · refine ⟨img, m₁, hQ, ?_, ?_⟩
        · change update s.proc p pr p = _
          rw [update_self, hpr]
        · intro f hf
          apply hsame
          rw [hpages']
          exact Multiset.mem_cons_of_mem hf
    · change (update s.proc p pr p).HasImage
      rw [update_self]
      apply hi

theorem exec_spec
    {path : List UInt8} {ip : Option Inode} {argv : List (List UInt8)} (h : Inv L s)
    (hp : (s.proc p).HasImage) :
  Wp (· = .nullDeref) (exec L nullFault p path ip argv) (fun _ s' => Moves L s 0 s') s
  := by
  cases ip with
  | none => apply Moves.refl h
  | some ip =>
    have himage : Wp _ (execImage L (nullFault (s.proc p).pgdir) ip argv) _ s.mem :=
      execImage_spec ((h.pages p).of_le (Multiset.zero_le _))
    apply (exec_of_image (Q := fun _ _ => True) h hp
      (himage.mono fun _ _ hm => ⟨hm, trivial⟩)).mono
    intro _ _ hs'
    exact hs'.1

/-! ### `growproc` -/

/-- The user page that a page directory maps at an entry: the entry and the contents. -/
def userPage (m : Memory) (d : Nat) (e : Entry) : Option (UInt32 × Page) :=
  if e.1 < pdx KERNBASE ∧ isP (m.entry d e) then
    some (m.entry d e, m.page (pteAddr (m.entry d e)))
  else none

theorem userPage_eq_none
    {d : Nat} {e : Entry} (h : e.1 < pdx KERNBASE → isP (m.entry d e) = false) :
  userPage m d e = none
  := by
  apply if_neg
  rintro ⟨he, hP⟩
  rw [h he] at hP
  cases hP

/-- The same pages are mapped, and their contents are the same. -/
theorem SamePages.userPage
    {d : Nat} (h : SamePages d m m') (hp : Pool L m (m.owned d))
    (htrade : Trade (m.tree d) m (m'.tree d) m') :
  userPage m' d = userPage m d
  := by
  funext e
  by_cases hP : isP (m.entry d e)
  · rw [Vm.userPage, Vm.userPage, h.kept e hP]
    by_cases he : e.1 < pdx KERNBASE
    · rw [hp.same_of_mem htrade (Space.mem_frames he hP)]
    · rw [if_neg fun h => he h.1, if_neg fun h => he h.1]
  · rw [userPage_eq_none fun _ => ?_, userPage_eq_none fun _ => ?_]
    · rwa [Bool.not_eq_true] at hP
    · rw [← Bool.not_eq_true]
      intro hP'
      apply hP (h.gone e hP')

/-- The signed number `n` as an unsigned one. -/
theorem toNat_toUInt32 (n : Int32) :
  (n.toUInt32.toNat : Int) = if n.toInt < 0 then n.toInt + 2 ^ 32 else n.toInt
  := by
  have hlt := n.toBitVec.isLt
  have h : n.toInt = _ := BitVec.toInt_eq_toNat_cond n.toBitVec
  change (n.toBitVec.toNat : Int) = _
  split at h
  · rw [h, if_neg (by omega)]
  · rw [h, if_pos (by omega)]
    omega

/-- What `growproc` did when it returns `-1`. -/
structure GrowFails (m : Memory) (d sz : Nat) (n : Int32) (m' : Memory) : Prop where
  same : n.toInt ≠ - sz → userPage m' d = userPage m d
  gone : n.toInt = - sz → ∀ e, userPage m' d e = none

theorem growuvm_spec
    {d sz : Nat} {n : Int32} (hp : Pool L m (m.owned d)) (hu : User m d sz) :
  Wp NoFault (growuvm L d sz n)
    (fun r m' => Trade (m.owned d) m (m'.owned d) m' ∧
      match r with
      | none => User m' d sz ∧ GrowFails m d sz n m'
      | some sz' => User m' d sz' ∧ (n.toInt = - sz → n.toInt = 0)) m
  := by
  have hlt := n.toInt_lt
  have hge := n.le_toInt
  have hcast := toNat_toUInt32 n
  have hsz := hu.lt
  rw [growuvm]
  split
  · rename_i hpos
    rw [Int32.lt_iff_toInt_lt, Int32.toInt_zero] at hpos
    rw [if_neg (by omega)] at hcast
    have hnew : (sz + n.toUInt32.toNat) % 2 ^ 32 = sz + n.toUInt32.toNat := by
      simp only [KERNBASE] at hsz
      omega
    rw [hnew, wp_bind]
    by_cases hge' : KERNBASE ≤ sz + n.toUInt32.toNat
    · rw [wp_allocuvm_of_ge hge', wp_pure, if_pos rfl]
      exact ⟨.refl _ _, hu, fun _ => rfl, by omega⟩
    · rw [Nat.not_le] at hge'
      apply (allocuvm_spec hp hge' (Nat.le_add_right _ _) fun _ => hu.empty hge').mono
      rintro r m' (⟨rfl, F, hadds⟩ | ⟨rfl, hsame, htrade, -⟩)
      · rw [wp_pure, if_neg (by omega)]
        exact ⟨hadds.trade_owned, hu.adds hge' hadds, by omega⟩
      · rw [wp_pure, if_pos rfl]
        refine ⟨htrade.owned hsame.frame, hu.samePages hsame, fun _ => ?_, by omega⟩
        apply hsame.userPage hp htrade
  · rename_i hpos
    split
    · rename_i hneg
      rw [Int32.lt_iff_toInt_lt, Int32.toInt_zero] at hneg
      rw [if_pos hneg] at hcast
      rw [wp_bind]
      generalize hnew : (sz + n.toUInt32.toNat) % 2 ^ 32 = newsz
      have hzero : newsz = 0 ↔ n.toInt = - sz := by
        simp only [KERNBASE] at hsz
        omega
      by_cases hle : sz ≤ newsz
      · rw [wp_deallocuvm_of_le hle, wp_pure]
        by_cases hr : sz = 0
        · rw [if_pos hr]
          exact ⟨.refl _ _, hu, fun _ => rfl, by omega⟩
        · rw [if_neg hr]
          exact ⟨.refl _ _, hu, by omega⟩
      · rw [Nat.not_le] at hle
        apply (deallocuvm_spec hp hsz.le hle).mono
        rintro r m' ⟨rfl, hclears⟩
        have hu' := hu.clears hle hclears
        rw [wp_pure]
        by_cases hr : r = 0
        · rw [if_pos hr]
          refine ⟨hclears.trade_owned, hu'.mono hle.le hsz, fun h => ?_, fun _ e => ?_⟩
          · exact absurd (hzero.mp hr) h
          · apply userPage_eq_none
            intro he
            by_contra hP
            rw [Bool.not_eq_false] at hP
            have := hu'.below e he hP
            rw [hr, lt_npages_iff] at this
            omega
        · rw [if_neg hr]
          exact ⟨hclears.trade_owned, hu', fun h => absurd (hzero.mpr h) hr⟩
    · rename_i hneg
      rw [Int32.lt_iff_toInt_lt, Int32.toInt_zero] at hpos hneg
      exact ⟨.refl _ _, hu, fun _ => by omega⟩

section

variable (h : Inv L s) (hp : (s.proc p).HasImage)

include h hp

/-- The end of `growproc`, with the new size. -/
theorem wp_resize
    {m' : Memory} {sz : Nat}
    (htrade : Trade (s.mem.owned (s.proc p).pgdir) s.mem (m'.owned (s.proc p).pgdir) m')
    (huser : User m' (s.proc p).pgdir sz) :
  Wp NoFault (do setProc p ({ · with sz }); switchuvm p; return true)
    (fun r s' => Moves L s 0 s' ∧ r = true ∧ s' = { s with
      mem := m'
      proc := update s.proc p { s.proc p with sz } }) { s with mem := m' }
  := by
  have hmoves := h.update (c := { s.proc p with sz }) (X := 0) (h.notMem_unused hp.1)
    (by
      rw [zero_add, Proc.pages_of_hasImage hp,
        Proc.pages_of_hasImage (show Proc.HasImage { s.proc p with sz } from hp)]
      apply htrade.cons)
    (fun _ => huser)
  simp only [wp_bind, wp_setProc]
  apply (switchuvm_spec hmoves.inv _).mono
  · rintro _ _ rfl
    exact ⟨hmoves, rfl, rfl⟩
  · change (update s.proc p { s.proc p with sz } p).HasImage
    rw [update_self]
    apply hp

/-- `growproc` that returns `-1` has changed no slot. -/
theorem growproc_spec {n : Int32} :
  Wp NoFault (growproc L p n)
    (fun r s' => Moves L s 0 s' ∧
      match r with
      | false => s'.proc = s.proc ∧ GrowFails s.mem (s.proc p).pgdir (s.proc p).sz n s'.mem
      | true => n.toInt = - (s.proc p).sz → n.toInt = 0) s
  := by
  rw [growproc, wp_bind, wp_get, wp_bind, wp_onMemory]
  apply (growuvm_spec (h.owned hp) (h.user p hp)).mono
  rintro (_ | sz) m' ⟨htrade, hm'⟩
  · exact ⟨h.remap hp htrade hm'.1, rfl, hm'.2⟩
  · apply (wp_resize h hp htrade hm'.1).mono
    rintro _ s' ⟨hmoves, rfl, -⟩
    exact ⟨hmoves, hm'.2⟩

/-! ### `exit` and `wait` -/

theorem exit_spec :
  Wp (· = .panic "init exiting") (exit p) (fun _ s' => Moves L s 0 s') s
  := by
  rw [exit, wp_bind, wp_get]
  split
  · rfl
  · apply h.update (h.notMem_unused hp.1)
    · rw [zero_add, Proc.pages_of_hasImage hp, Proc.pages_of_hasImage ⟨by simp, by simp⟩]
      apply Trade.refl
    · intro _
      apply h.user p hp

theorem wait_spec :
  Wp NoFault (wait L p) (fun _ s' => Moves L s 0 s') s
  := by
  have hpool := h.pages p
  rw [Proc.pages_of_hasImage hp] at hpool
  simp only [wait, wp_bind, wp_get, wp_onMemory, wp_setProc, wp_retire, update_self,
    update_idem]
  apply wp_kfree_of_mem hpool
  intro htrade
  have howned : (s.mem.free (s.proc p).kstack).owned (s.proc p).pgdir =
      s.mem.owned (s.proc p).pgdir := by
    apply Pool.owned_of_trade (L := L) (A := {(s.proc p).kstack}) (B := 0)
    · rw [Multiset.singleton_add]
      apply hpool
    · apply Trade.kfree
      apply hpool.notMem_freelist (Multiset.mem_cons_self _ _)
  have hpool' := hpool.trade htrade
  rw [← howned] at hpool' htrade
  apply (freevm_spec hpool').mono
  intro _ m' hm'
  apply h.retire (h.notMem_unused hp.1) rfl
  rw [Proc.pages_of_hasImage hp, ← howned]
  apply htrade.trans hm'

end

end Xv6.Vm
