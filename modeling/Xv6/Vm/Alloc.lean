import Xv6.Vm.Pages

/-!
# Growing user memory

`allocuvm` adds zeroed pages to a page directory.  When it runs out of pages it gives back those
that it added; only the page tables that it added stay.
-/

namespace Xv6.Vm

/-- The loop of `allocuvm`, with `n` pages from `a` on. -/
def allocLoop (L : Layout) (pgdir oldsz newsz : Nat) : (n a : Nat) → Mem Nat
  | 0, _ => return newsz
  | n + 1, a => do
    match ← kalloc with
    | none =>
      let _ ← deallocuvm L pgdir newsz oldsz
      return 0
    | some mem =>
      modify (·.setPage mem (.fill 0))
      if ← mappages pgdir a PGSIZE (PGSIZE * mem) (PTE_W ||| PTE_U) then
        allocLoop L pgdir oldsz newsz n (a + PGSIZE)
      else
        let _ ← deallocuvm L pgdir newsz oldsz
        kfree L mem
        return 0

/-- `allocuvm` -/
@[irreducible]
def allocuvm (L : Layout) (pgdir oldsz newsz : Nat) : Mem Nat := do
  if newsz ≥ KERNBASE then
    return 0
  if newsz < oldsz then
    return oldsz
  allocLoop L pgdir oldsz newsz ((pgroundup newsz - pgroundup oldsz) / PGSIZE) (pgroundup oldsz)

variable {L : Layout} {m m₁ m₂ : Memory} {d : Nat}

/-- The same pages are mapped before and after. -/
structure SamePages (d : Nat) (m m' : Memory) : Prop where
  kept : ∀ e, isP (m.entry d e) → m'.entry d e = m.entry d e
  gone : ∀ e, isP (m'.entry d e) → isP (m.entry d e)

theorem SamePages.frame (h : SamePages d m m₁) :
  m₁.frame d = m.frame d
  := by
  funext e
  rw [Memory.frame, Memory.frame]
  by_cases hP : isP (m.entry d e)
  · rw [h.kept e hP]
  · have hP₁ : ¬ isP (m₁.entry d e) := fun h' => hP (h.gone e h')
    rw [Entry.frame, if_neg fun h => hP₁ h.2, Entry.frame, if_neg fun h => hP h.2]

/-- Pages that were added in a range that was empty are taken away again. -/
theorem SamePages.of_clears
    {S : Entry → Prop} {F : Multiset Nat} (hempty : ∀ e, S e → isP (m.entry d e) = false)
    (hout : ∀ e, ¬ S e → m₁.entry d e = m.entry d e) (hframes : m₁.frames d = F + m.frames d)
    (hc : Clears d S m₁ m₂) :
  SamePages d m m₂ ∧ Trade (m₁.tree d + F) m₁ (m₂.tree d) m₂
  := by
  have hsame : SamePages d m m₂ := by
    constructor
    · intro e he
      have hS : ¬ S e := by
        intro hS
        rw [hempty e hS] at he
        cases he
      rw [hc.kept e fun h => absurd h hS, hout e hS]
    · intro e he
      obtain ⟨hP, hS⟩ := hc.isP_of_isP he
      rwa [hout e hS] at hP
  refine ⟨hsame, ?_⟩
  obtain ⟨G, hG, htrade⟩ := hc.trade
  have hframe : m₂.frames d = m.frames d := by
    rw [Memory.frames, hsame.frame, Memory.frames]
  rw [hframes, hframe] at hG
  rwa [add_right_cancel hG]

/-- There are too few free pages to map the virtual pages from `lo` to `hi`. -/
def Lacks (m : Memory) (d lo hi : Nat) : Prop :=
  m.freelist.length < hi - lo + newTables m d lo hi

/-- The contents of new pages, and how they are mapped. -/
abbrev AddsZeros (d lo hi : Nat) (F : Multiset Nat) (m m' : Memory) : Prop :=
  AddsPages d lo hi (fun _ => PTE_W ||| PTE_U) (fun _ => .fill 0) F m m'

/-- The loop of `allocuvm` adds all pages, or it lacks pages and undoes what it did. -/
theorem allocLoop_spec
    {oldsz newsz n i : Nat} {F : Multiset Nat} (hp : Pool L m (m.owned d))
    (hnew : newsz ≤ KERNBASE)
    (hempty : ∀ e : Entry, npages oldsz ≤ e.vpn ∧ e.vpn < npages newsz →
      isP (m.entry d e) = false)
    (hm₁ : AddsZeros d (npages oldsz) i F m m₁) (hn : i + n = npages newsz) :
  Wp NoFault (allocLoop L d oldsz newsz n (PGSIZE * i))
    (fun r m' =>
      r = newsz ∧ (∃ F, AddsZeros d (npages oldsz) (npages newsz) F m m') ∨
      r = 0 ∧ SamePages d m m' ∧ Trade (m.tree d) m (m'.tree d) m' ∧
        Lacks m d (npages oldsz) (npages newsz)) m₁
  := by
  have hle := hm₁.le
  induction n generalizing i F m₁ with
  | zero =>
    left
    refine ⟨rfl, F, ?_⟩
    rw [← hn]
    apply hm₁
  | succ n ih =>
    have hp₁ := hp.trade hm₁.trade_owned
    have hlt : i < npages newsz := by
      omega
    have hi : PGSIZE * i < KERNBASE := by
      rw [lt_npages_iff] at hlt
      omega
    have hlt' : i < 2 ^ 20 := by
      simp only [PGSIZE, KERNBASE] at hi
      omega
    have hsz : oldsz < newsz := by
      have : npages oldsz < npages newsz := by
        omega
      simp only [npages, PGSIZE] at this
      omega
    have hlen := hm₁.length_freelist
    have hout : ∀ e : Entry, ¬ (npages oldsz ≤ e.vpn ∧ e.vpn < npages newsz) →
        m₁.entry d e = m.entry d e := by
      intro e he
      apply hm₁.outside
      omega
    rw [allocLoop, wp_bind, wp_kalloc]
    constructor
    · intro hfree
      apply (deallocuvm_spec hp₁ hnew hsz).bind
      intro _ m₂ hm₂
      obtain ⟨hsame, htrade⟩ := SamePages.of_clears hempty hout hm₁.frames hm₂.2
      rw [add_comm] at htrade
      right
      refine ⟨rfl, hsame, hm₁.trade.trans htrade, ?_⟩
      have hmono := newTables_mono m d (npages oldsz) hlt.le
      rw [hfree, List.length_nil] at hlen
      rw [Lacks]
      omega
    · intro f l hf
      have hnot : isP (m₁.entry d (.ofVa (PGSIZE * i))) = false := by
        have hvpn := Entry.vpn_ofVa hlt'
        rw [hm₁.outside _ (by omega)]
        apply hempty
        omega
      rw [wp_bind, wp_modify]
      apply (mapFresh_spec hp₁.left hf hi (by decide) hnot).bind
      rintro (_ | _) m₂ hm₂
      · have hframes₂ : m₂.frames d = m₁.frames d := Memory.frames_congr hm₂.entry
        have hp₂ := hp₁.trade hm₂.trade_owned
        rw [if_neg Bool.false_ne_true]
        apply (deallocuvm_spec (hp₂.of_le (Multiset.le_cons_self _ f)) hnew hsz).bind
        intro _ m₃ hm₃
        obtain ⟨hsame, htrade⟩ := SamePages.of_clears hempty
          (fun e he => (congrFun hm₂.entry e).trans (hout e he))
          (hframes₂.trans hm₁.frames) hm₃.2
        have htrade' : Trade (m.tree d) m (f ::ₘ m₃.tree d) m₃ := by
          have h₂ := hm₂.trade.frame F
          rw [Multiset.cons_add, add_comm] at h₂
          apply (hm₁.trade.trans h₂).trans (htrade.cons f)
        rw [wp_bind]
        apply wp_kfree_of_mem (hp.left.trade htrade')
        intro hfree
        have htree : (m₃.free f).tree d = m₃.tree d ∧ (m₃.free f).entry d = m₃.entry d := by
          have hnot : f ∉ m₃.tree d :=
            (Multiset.nodup_cons.mp (hp.left.trade htrade').nodup_right).1
          exact ⟨Memory.tree_congr (entry_free hnot).1, (entry_free hnot).2⟩
        right
        refine ⟨rfl, ?_, ?_, ?_⟩
        · constructor
          · intro e he
            rw [htree.2]
            apply hsame.kept e he
          · intro e he
            rw [htree.2] at he
            apply hsame.gone e he
        · rw [htree.1]
          apply htrade'.trans hfree
        · have hmissing := newTables_lt hm₁ hlt hlt' hm₂.missing
          have hlen₁ := hm₂.trade.card
          rw [Multiset.card_cons, hm₂.freelist, List.length_nil,
            Memory.tree_congr hm₂.table] at hlen₁
          rw [Lacks]
          omega
      · rw [if_pos rfl, ← Nat.mul_succ]
        have hsnoc := hm₁.snoc hp hm₂ hlt'
        apply ih hsnoc
        · omega
        · omega

theorem wp_allocuvm_of_ge
    {E : Fault → Prop} {Q : Nat → Memory → Prop} {oldsz newsz : Nat} (h : KERNBASE ≤ newsz) :
  Wp E (allocuvm L d oldsz newsz) Q m ↔ Q 0 m
  := by
  rw [allocuvm, if_pos h, wp_pure]

theorem wp_allocuvm_of_lt
    {E : Fault → Prop} {Q : Nat → Memory → Prop} {oldsz newsz : Nat} (h : newsz < KERNBASE)
    (hlt : newsz < oldsz) :
  Wp E (allocuvm L d oldsz newsz) Q m ↔ Q oldsz m
  := by
  rw [allocuvm, if_neg (by omega), if_pos hlt, wp_pure]

/-- `allocuvm` to a larger size adds the pages that the larger size needs, or it lacks pages and
leaves the same pages mapped. -/
theorem allocuvm_spec
    {oldsz newsz : Nat} (hp : Pool L m (m.owned d)) (hnew : newsz < KERNBASE)
    (hle : oldsz ≤ newsz)
    (hempty : ∀ e : Entry, npages oldsz ≤ e.vpn ∧ e.vpn < npages newsz →
      isP (m.entry d e) = false) :
  Wp NoFault (allocuvm L d oldsz newsz)
    (fun r m' =>
      r = newsz ∧ (∃ F, AddsZeros d (npages oldsz) (npages newsz) F m m') ∨
      r = 0 ∧ SamePages d m m' ∧ Trade (m.tree d) m (m'.tree d) m' ∧
        Lacks m d (npages oldsz) (npages newsz)) m
  := by
  rw [allocuvm, if_neg (by omega), if_neg (by omega), pgroundup_eq, pgroundup_eq, ← Nat.mul_sub,
    Nat.mul_div_cancel_left _ (by decide)]
  apply allocLoop_spec hp hnew.le hempty (.refl d _ _ _ m)
  have : npages oldsz ≤ npages newsz := by
    simp only [npages]
    apply Nat.div_le_div_right
    omega
  omega

end Xv6.Vm
