import Xv6.Vm.PageTable

/-!
# Giving user memory back

`deallocuvm` unmaps a range of user pages and frees them, and `freevm` frees all pages of a page
directory.
-/

namespace Xv6.Vm

/-- Free the page of the entry `k` of the page table `t`, if it is present. -/
def deallocPage (L : Layout) (t : Nat) (k : Fin 1024) : Mem Unit := do
  let pte := (← get).page t k
  if isP pte then
    if pteAddr pte = 0 then
      throw (.panic "kfree")
    kfree L (pteAddr pte)
    modify (·.setWord t k 0)

/-- The loop of `deallocuvm`.  Each turn passes one page at least, so `n` turns are enough for
`n` pages. -/
def deallocLoop (L : Layout) (pgdir oldsz : Nat) : (n a : Nat) → Mem Unit
  | 0, _ => return ()
  | n + 1, a => do
    if a < oldsz then
      match ← walkpgdir pgdir a false with
      | none =>
        let a := ((pdx a).val + 1) * 2 ^ 22 - PGSIZE
        deallocLoop L pgdir oldsz n (a + PGSIZE)
      | some (t, k) =>
        deallocPage L t k
        deallocLoop L pgdir oldsz n (a + PGSIZE)

/-- `deallocuvm` -/
def deallocuvm (L : Layout) (pgdir oldsz newsz : Nat) : Mem Nat := do
  if newsz ≥ oldsz then
    return oldsz
  deallocLoop L pgdir oldsz ((pgroundup oldsz - pgroundup newsz) / PGSIZE) (pgroundup newsz)
  return newsz

/-- The loop of `freevm` over the entries of the page directory. -/
def freeTables (L : Layout) (pgdir : Nat) (is : List (Fin 1024)) : Mem Unit :=
  is.forM fun i => do
    let pde := (← get).page pgdir i
    if isP pde then
      kfree L (pteAddr pde)

/-- `freevm` -/
def freevm (L : Layout) (pgdir : Nat) : Mem Unit := do
  if pgdir = 0 then
    throw (.panic "freevm: no pgdir")
  let _ ← deallocuvm L pgdir KERNBASE 0
  freeTables L pgdir (List.finRange 1024)
  kfree L pgdir

variable {L : Layout} {m m' m'' : Memory} {d : Nat} {S S' : Entry → Prop}

/-! ### Clearing entries -/

/-- The present entries in `S` are cleared and their pages are freed. -/
structure Clears (d : Nat) (S : Entry → Prop) (m m' : Memory) : Prop where
  table : m'.table d = m.table d
  cleared : ∀ e, S e → isP (m.entry d e) → m'.entry d e = 0
  kept : ∀ e, (S e → isP (m.entry d e) = false) → m'.entry d e = m.entry d e
  trade : ∃ F, m.frames d = F + m'.frames d ∧ Trade (m.tree d + F) m (m'.tree d) m'

theorem isP_zero :
  isP 0 = false
  := by
  decide

namespace Clears

/-- Nothing to clear. -/
theorem of_forall (h : ∀ e, S e → isP (m.entry d e) = false) :
  Clears d S m m
  := by
  constructor
  · rfl
  · intro e he hP
    rw [h e he] at hP
    cases hP
  · intro _ _
    rfl
  · use 0
    rw [zero_add, add_zero]
    exact ⟨rfl, .refl _ _⟩

/-- Entries that are not present do not matter. -/
theorem congr (h : Clears d S m m') (hS : ∀ e, isP (m.entry d e) → (S' e ↔ S e)) :
  Clears d S' m m'
  := by
  constructor
  · apply h.table
  · intro e he hP
    apply h.cleared e ((hS e hP).mp he) hP
  · intro e he
    apply h.kept
    intro hSe
    by_contra hP
    rw [Bool.not_eq_false] at hP
    rw [he ((hS e hP).mpr hSe)] at hP
    cases hP
  · apply h.trade

theorem isP_of_isP {e : Entry} (h : Clears d S m m') (he : isP (m'.entry d e)) :
  isP (m.entry d e) ∧ ¬ S e
  := by
  by_cases hS : S e
  · by_cases hP : isP (m.entry d e)
    · rw [h.cleared e hS hP] at he
      cases he
    · rw [h.kept e fun _ => by simpa using hP] at he
      exact absurd he hP
  · rw [h.kept e fun h => absurd h hS] at he
    exact ⟨he, hS⟩

theorem trans (h : Clears d S m m') (h' : Clears d S' m' m'') :
  Clears d (fun e => S e ∨ S' e) m m''
  := by
  obtain ⟨F, hF, htrade⟩ := h.trade
  obtain ⟨F', hF', htrade'⟩ := h'.trade
  constructor
  · rw [h'.table, h.table]
  · intro e he hP
    by_cases hP' : isP (m'.entry d e)
    · have hS := (h.isP_of_isP hP').2
      apply h'.cleared e (he.resolve_left hS) hP'
    · rw [h'.kept e fun _ => by simpa using hP']
      by_contra hne
      apply hP'
      rw [h.kept e _]
      · apply hP
      · intro hS
        exact absurd (h.cleared e hS hP) hne
  · intro e he
    have hkept : m'.entry d e = m.entry d e := h.kept e fun hS => he (.inl hS)
    rw [h'.kept e _, hkept]
    intro hS
    rw [hkept]
    apply he (.inr hS)
  · use F + F'
    constructor
    · rw [hF, hF', add_assoc]
    · have := htrade.frame F'
      rw [add_assoc] at this
      apply this.trans htrade'

/-- All pages of the directory are traded. -/
theorem trade_owned (h : Clears d S m m') :
  Trade (m.owned d) m (m'.owned d) m'
  := by
  obtain ⟨F, hF, htrade⟩ := h.trade
  have := htrade.frame (m'.frames d)
  rw [add_assoc, ← hF] at this
  apply this

end Clears

/-- Freeing a page that is not part of the page tables. -/
theorem entry_free {f : Nat} (hf : f ∉ m.tree d) :
  (m.free f).table d = m.table d ∧ (m.free f).entry d = m.entry d
  := by
  have hpage : ∀ g ∈ m.tree d, (m.free f).page g = m.page g := by
    intro g hg
    apply Function.update_of_ne
    rintro rfl
    apply hf hg
  exact ⟨Memory.table_congr (hpage d Memory.mem_tree_self), Memory.entry_congr hpage⟩

theorem deallocPage_spec
    {j k : Fin 1024} {t : Nat} (hp : Pool L m (m.owned d)) (ht : m.table d j = some t)
    (hj : j < pdx KERNBASE) :
  Wp NoFault (deallocPage L t k) (fun _ m' => Clears d (· = (j, k)) m m') m
  := by
  have hentry := Memory.entry_eq ht k
  simp only [deallocPage, wp_bind, wp_get]
  split
  · rename_i hP
    rw [← hentry] at hP ⊢
    have hframe : m.frame d (j, k) = some (pteAddr (m.entry d (j, k))) := by
      rw [Memory.frame, Entry.frame, if_pos ⟨hj, hP⟩]
    generalize pteAddr (m.entry d (j, k)) = f at hframe ⊢
    have hframes : m.frames d = f ::ₘ held (Function.update (m.frame d) (j, k) none) := by
      rw [Memory.frames, held_eq_cons hframe]
    have hmem : f ∈ m.frames d := by
      rw [hframes]
      apply Multiset.mem_cons_self
    have howned : f ∈ m.owned d := Multiset.mem_add.mpr (.inr hmem)
    have hnot : f ∉ m.tree d := by
      intro h
      apply Multiset.disjoint_left.mp (Multiset.nodup_add.mp hp.nodup_right).2.2 h hmem
    obtain ⟨htable, hentries⟩ := entry_free hnot
    have hfree := (Trade.kfree (hp.notMem_freelist howned)).frame (m.tree d)
    rw [zero_add, add_comm] at hfree
    have hp' : Pool L (m.free f) ((m.free f).tree d) := by
      rw [Memory.tree_congr htable]
      apply Pool.trade (hp.of_le _) hfree
      rw [Memory.owned]
      apply Multiset.add_le_add_left
      rw [Multiset.singleton_le]
      apply hmem
    have hset := SetsEntry.setWord hp' (htable ▸ ht) k 0
    rw [if_neg (hp.inRange howned).ne_zero, wp_bind, wp_kfree (hp.inRange howned), wp_modify]
    constructor
    · rw [hset.table, htable]
    · rintro e rfl -
      rw [hset.entry, Function.update_self]
    · intro e he
      rw [hset.entry, hentries]
      apply Function.update_of_ne
      rintro rfl
      rw [he rfl] at hP
      cases hP
    · use {f}
      constructor
      · have hzero : Entry.frame (j, k) 0 = none := by
          rw [Entry.frame, if_neg]
          rw [isP_zero]
          simp
        rw [hframes, Multiset.singleton_add, Memory.frames, Memory.frame_update hset.entry,
          Memory.frame_congr hentries, hzero]
      · apply hfree.trans
        have := hset.trade
        rw [Memory.tree_congr htable] at this
        apply this
  · rename_i hP
    apply Clears.of_forall
    rintro e rfl
    rw [hentry]
    simpa using hP

theorem pdx_kernbase :
  (pdx KERNBASE).val = 512
  := by
  decide

theorem pdx_lt_kernbase {v : Nat} (hv : PGSIZE * v < KERNBASE) :
  pdx (PGSIZE * v) < pdx KERNBASE
  := by
  simp only [Fin.lt_def, pdx, Fin.val_ofNat, PGSIZE, KERNBASE] at hv ⊢
  omega

/-- The loop of `deallocuvm` from the page `v` on. -/
theorem deallocLoop_spec
    {oldsz n v : Nat} (hp : Pool L m (m.owned d)) (hold : oldsz ≤ KERNBASE)
    (hn : oldsz ≤ PGSIZE * (v + n)) :
  Wp NoFault (deallocLoop L d oldsz n (PGSIZE * v))
    (fun _ m' => Clears d (fun e => v ≤ e.vpn ∧ PGSIZE * e.vpn < oldsz) m m') m
  := by
  induction n generalizing v m with
  | zero =>
    apply Clears.of_forall
    intro e he
    simp only [PGSIZE] at hn he
    omega
  | succ n ih =>
    rw [deallocLoop]
    split
    · rename_i hlt
      have hpdx := Entry.pdx_val (v := v) (by simp only [PGSIZE, KERNBASE] at hlt hold; omega)
      rw [wp_bind, wp_walkpgdir]
      cases ht : m.table d (pdx (PGSIZE * v)) with
      | none =>
        -- No page of this table is present, so the pages that are skipped do not matter.
        have hskip : ((pdx (PGSIZE * v)).val + 1) * 2 ^ 22 - PGSIZE + PGSIZE
            = PGSIZE * (1024 * (v / 1024 + 1)) := by
          simp only [hpdx, PGSIZE]
          omega
        simp only [Option.map_none, hskip]
        apply (ih hp _).mono
        · intro _ m' hm'
          apply hm'.congr
          intro e he
          have hne : e.1.val ≠ v / 1024 := by
            intro heq
            have : e.1 = pdx (PGSIZE * v) := Fin.ext (by omega)
            rw [Memory.entry_of_none (this ▸ ht)] at he
            cases he
          have := e.vpn_div
          omega
        · simp only [PGSIZE] at hn ⊢
          omega
      | some t =>
        have hj := pdx_lt_kernbase (show PGSIZE * v < KERNBASE by omega)
        simp only [Option.map_some, wp_bind]
        apply (deallocPage_spec hp ht hj).mono
        intro _ m₁ hm₁
        rw [← Nat.mul_succ]
        apply (ih (hp.trade hm₁.trade_owned) _).mono
        · intro _ m' hm'
          apply (hm₁.trans hm').congr
          intro e _
          have heq := Entry.ofVa_eq_iff (v := v)
            (by simp only [PGSIZE, KERNBASE] at hlt hold; omega) e
          rw [show (pdx (PGSIZE * v), ptx (PGSIZE * v)) = Entry.ofVa (PGSIZE * v) from rfl, heq]
          simp only [PGSIZE] at hlt ⊢
          omega
        · simp only [PGSIZE] at hn ⊢
          omega
    · rename_i hge
      apply Clears.of_forall
      intro e he
      simp only [PGSIZE] at hge he
      omega

/-- `deallocuvm` to a smaller size frees the pages that the smaller size does not need. -/
theorem deallocuvm_spec
    {oldsz newsz : Nat} (hp : Pool L m (m.owned d)) (hold : oldsz ≤ KERNBASE)
    (hlt : newsz < oldsz) :
  Wp NoFault (deallocuvm L d oldsz newsz)
    (fun r m' => r = newsz ∧
      Clears d (fun e => npages newsz ≤ e.vpn ∧ e.vpn < npages oldsz) m m') m
  := by
  rw [deallocuvm, if_neg (by omega), wp_bind, pgroundup_eq, pgroundup_eq, ← Nat.mul_sub,
    Nat.mul_div_cancel_left _ (by decide)]
  apply (deallocLoop_spec hp hold _).mono
  · intro _ m' hm'
    simp only [lt_npages_iff]
    exact ⟨rfl, hm'⟩
  · simp only [npages, PGSIZE]
    omega

theorem wp_deallocuvm_of_le
    {E : Fault → Prop} {Q : Nat → Memory → Prop} {oldsz newsz : Nat} (h : oldsz ≤ newsz) :
  Wp E (deallocuvm L d oldsz newsz) Q m ↔ Q oldsz m
  := by
  rw [deallocuvm, if_pos h, wp_pure]

/-! ### Freeing a page directory -/

theorem freeTables_spec
    {is : List (Fin 1024)} (hp : Pool L m (d ::ₘ ↑(is.filterMap (m.table d)))) :
  Wp NoFault (freeTables L d is)
    (fun _ m' => Trade (d ::ₘ ↑(is.filterMap (m.table d))) m {d} m') m
  := by
  induction is generalizing m with
  | nil =>
    apply Trade.refl
  | cons i is ih =>
    rw [freeTables, List.forM, wp_bind, wp_bind, wp_get]
    by_cases hi : isP (m.page d i)
    · have ht : m.table d i = some (pteAddr (m.page d i)) := by
        simp only [Memory.table, hi, if_true]
      rw [List.filterMap_cons, ht, ← Multiset.cons_coe, Multiset.cons_swap] at hp ⊢
      have hne : d ≠ pteAddr (m.page d i) := by
        intro h
        apply (Multiset.nodup_cons.mp hp.nodup_right).1
        rw [← h]
        apply Multiset.mem_cons_self
      rw [if_pos hi]
      apply wp_kfree_of_mem hp
      intro htrade
      have htable : (m.free (pteAddr (m.page d i))).table d = m.table d := by
        apply Memory.table_congr
        apply Function.update_of_ne hne
      rw [← htable] at htrade hp ⊢
      apply (ih (hp.trade htrade)).mono
      intro _ m' hm'
      apply htrade.trans hm'
    · have ht : m.table d i = none := by
        simp [Memory.table, hi]
      rw [if_neg hi, wp_pure]
      rw [List.filterMap_cons, ht] at hp ⊢
      apply ih hp

/-- `freevm` gives all pages of a page directory back. -/
theorem freevm_spec (hp : Pool L m (m.owned d)) :
  Wp NoFault (freevm L d) (fun _ m' => Trade (m.owned d) m 0 m') m
  := by
  have hd : d ∈ m.owned d := Multiset.mem_add.mpr (.inl Memory.mem_tree_self)
  obtain ⟨is, his⟩ : ∃ is, is = List.finRange 1024 := ⟨_, rfl⟩
  rw [freevm, if_neg (hp.inRange hd).ne_zero, wp_bind, ← his]
  apply (deallocuvm_spec hp (le_refl _) (by decide)).mono
  intro _ m₁ hm₁
  have hclear := hm₁.2
  have htrade := hclear.trade_owned
  have hp₁ := hp.trade htrade
  have hframes : m₁.frames d = 0 := by
    apply held_eq_zero
    intro e
    rw [Memory.frame, Entry.frame, if_neg]
    rintro ⟨hlt, hP⟩
    apply (hclear.isP_of_isP hP).2
    have hdiv := e.vpn_div
    rw [Fin.lt_def, pdx_kernbase] at hlt
    simp only [npages, PGSIZE, KERNBASE]
    omega
  have howned : m₁.owned d = d ::ₘ ↑(is.filterMap (m₁.table d)) := by
    rw [Memory.owned, hframes, add_zero, Memory.tree, held_fin, his]
  rw [howned] at htrade hp₁
  apply (freeTables_spec hp₁).bind
  intro _ m₂ htrade₂
  have hp₂ := hp₁.trade htrade₂
  apply wp_kfree_of_mem hp₂
  intro htrade₃
  apply (htrade.trans htrade₂).trans htrade₃

/-! ### The loop that visits every page -/

/-- Visit the page `v`, and free it if it is present. -/
def visitPage (L : Layout) (pgdir v : Nat) : Mem Unit := do
  match ← walkpgdir pgdir (PGSIZE * v) false with
  | none => return ()
  | some (t, k) => deallocPage L t k

/-- Visit the pages from `v` up to `w`, one after the other. -/
def visitPages (L : Layout) (pgdir v w : Nat) : Mem Unit :=
  (List.range' v (w - v)).forM (visitPage L pgdir)

theorem visitPages_of_le {v w : Nat} (h : w ≤ v) :
  visitPages L d v w m = .ok ((), m)
  := by
  rw [visitPages, Nat.sub_eq_zero_of_le h]
  rfl

theorem visitPages_eq {v w : Nat} (h : v < w) :
  visitPages L d v w = visitPage L d v >>= fun _ => visitPages L d (v + 1) w
  := by
  obtain ⟨n, hn⟩ : ∃ n, w - v = n + 1 := ⟨w - v - 1, by omega⟩
  rw [visitPages, hn, List.range'_succ, List.forM, visitPages, show w - (v + 1) = n by omega]

theorem walkpgdir_eq (va : Nat) :
  walkpgdir d va false m = .ok ((m.table d (pdx va)).map (·, ptx va), m)
  := by
  obtain ⟨r, m', hr, rfl, rfl⟩ :=
    Wp.exists_ok (wp_walkpgdir.mpr ⟨rfl, rfl⟩ : Wp _ (walkpgdir d va false)
      (fun r m' => r = (m.table d (pdx va)).map (·, ptx va) ∧ m' = m) m)
  exact hr

/-- A visit of a page without a page table does nothing. -/
theorem visitPages_skip
    {v v' w : Nat} (hle : v ≤ v')
    (h : ∀ x, v ≤ x → x < v' → x < w → m.table d (pdx (PGSIZE * x)) = none) :
  visitPages L d v w m = visitPages L d v' w m
  := by
  induction v', hle using Nat.le_induction with
  | base => rfl
  | succ v' hle ih =>
    rw [ih fun x hx hx' => h x hx (by omega)]
    by_cases hv' : v' < w
    · rw [visitPages_eq hv']
      change (visitPage L d v' m >>= _) = _
      have hvisit : visitPage L d v' m = .ok ((), m) := by
        change (walkpgdir d (PGSIZE * v') false m >>= _) = _
        rw [walkpgdir_eq, h v' hle (Nat.lt_succ_self v') hv']
        rfl
      rw [hvisit]
      rfl
    · rw [visitPages_of_le (by omega), visitPages_of_le (by omega)]

/-- The loop of `deallocuvm` does what the visits of all pages do. -/
theorem deallocLoop_eq
    {oldsz n v : Nat} (hold : oldsz ≤ KERNBASE) (hn : npages oldsz ≤ v + n) :
  deallocLoop L d oldsz n (PGSIZE * v) m = visitPages L d v (npages oldsz) m
  := by
  induction n generalizing v m with
  | zero =>
    rw [visitPages_of_le (show npages oldsz ≤ v from hn)]
    rfl
  | succ n ih =>
    rw [deallocLoop]
    split
    · rename_i hlt
      have hsmall : v < 2 ^ 20 := by
        simp only [PGSIZE, KERNBASE] at hlt hold
        omega
      change (walkpgdir d (PGSIZE * v) false m >>= _) = _
      rw [walkpgdir_eq]
      cases ht : m.table d (pdx (PGSIZE * v)) with
      | none =>
        have hskip : ((pdx (PGSIZE * v)).val + 1) * 2 ^ 22 - PGSIZE + PGSIZE
            = PGSIZE * (1024 * (v / 1024 + 1)) := by
          simp only [Entry.pdx_val hsmall, PGSIZE]
          omega
        change deallocLoop L d oldsz n _ m = _
        rw [hskip, ih (by omega)]
        symm
        apply visitPages_skip (by omega)
        intro x hx hx' hxw
        have hsame : pdx (PGSIZE * x) = pdx (PGSIZE * v) := by
          apply Fin.ext
          rw [Entry.pdx_val hsmall, Entry.pdx_val]
          · omega
          · rw [lt_npages_iff] at hxw
            simp only [PGSIZE, KERNBASE] at hxw hold
            omega
        rw [hsame, ht]
      | some t =>
        rw [visitPages_eq (lt_npages_iff.mpr hlt)]
        change (deallocPage L t _ m >>= _) = (visitPage L d v m >>= _)
        have hvisit : visitPage L d v m = deallocPage L t (ptx (PGSIZE * v)) m := by
          change (walkpgdir d (PGSIZE * v) false m >>= _) = _
          rw [walkpgdir_eq, ht]
          rfl
        rw [hvisit]
        apply congrArg
        funext r
        change deallocLoop L d oldsz n (PGSIZE * (v + 1)) r.2 = visitPages L d (v + 1) _ r.2
        rw [ih (by omega)]
    · rename_i hge
      rw [visitPages_of_le (not_lt.mp fun h => hge (lt_npages_iff.mp h))]
      rfl

/-- `deallocuvm` does what the visits of all pages do, with any number of turns that is enough for
them.  It frees the pages of the range that are present, once each, and touches nothing else. -/
theorem deallocuvm_skips_exactly
    (L : Layout) (m : Memory) (d oldsz newsz : Nat) (hlt : newsz < oldsz)
    (hold : oldsz ≤ KERNBASE) :
  deallocuvm L d oldsz newsz m
      = (visitPages L d (npages newsz) (npages oldsz) m).map (fun r => (newsz, r.2)) ∧
    (∀ n, npages oldsz - npages newsz ≤ n → deallocLoop L d oldsz n (pgroundup newsz) m
      = visitPages L d (npages newsz) (npages oldsz) m) ∧
    (Pool L m (m.owned d) → ∃ m' F, deallocuvm L d oldsz newsz m = .ok (newsz, m') ∧
      (∀ e, npages newsz ≤ e.vpn ∧ e.vpn < npages oldsz → isP (m'.entry d e) = false) ∧
      (∀ e, ¬ (npages newsz ≤ e.vpn ∧ e.vpn < npages oldsz) → m'.entry d e = m.entry d e) ∧
      m.frames d = F + m'.frames d ∧ (↑m'.freelist : Multiset Nat) = F + ↑m.freelist ∧
      m'.refreed = m.refreed ∧ (∀ f ∈ m'.frames d, m'.page f = m.page f) ∧
      m'.tree d = m.tree d ∧ ∀ t ∈ m.tree d, t ∉ m'.freelist)
  := by
  have hloop (n : Nat) (hn : npages oldsz - npages newsz ≤ n) :
      deallocLoop L d oldsz n (pgroundup newsz) m
        = visitPages L d (npages newsz) (npages oldsz) m := by
    rw [pgroundup_eq]
    exact deallocLoop_eq hold (by omega)
  refine ⟨?_, hloop, ?_⟩
  · rw [deallocuvm, if_neg (by omega), pgroundup_eq oldsz, pgroundup_eq newsz, ← Nat.mul_sub,
      Nat.mul_div_cancel_left _ (by decide), ← pgroundup_eq newsz]
    change (deallocLoop L d oldsz _ (pgroundup newsz) m >>= _) = _
    rw [hloop _ le_rfl]
    cases visitPages L d (npages newsz) (npages oldsz) m <;> rfl
  · intro hp
    obtain ⟨r, m', hrun, rfl, hclears⟩ := Wp.exists_ok (deallocuvm_spec hp hold hlt)
    obtain ⟨F, hF, htrade⟩ := hclears.trade
    have htree : m'.tree d = m.tree d := Memory.tree_congr hclears.table
    have hp' := hp.trade hclears.trade_owned
    have hpool : Pool L m (m.tree d + F + m'.frames d) := by
      rw [add_assoc, ← hF]
      exact hp
    use m', F, hrun
    and_intros
    · intro e he
      by_contra hP
      exact (hclears.isP_of_isP (by simpa using hP)).2 he
    · exact fun e he => hclears.kept e fun h => absurd h he
    · exact hF
    · have hbalance := htrade.balance
      rw [htree, add_comm (m.tree d), ← add_assoc] at hbalance
      rw [add_right_cancel hbalance, add_comm]
    · exact htrade.refreed
    · exact fun f hf => hpool.same_of_mem htrade hf
    · exact htree
    · intro t ht
      apply hp'.notMem_freelist
      rw [Memory.owned, htree]
      exact Multiset.mem_add.mpr (.inl ht)

end Xv6.Vm
