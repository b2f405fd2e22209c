import Xv6.Vm.Exec

/-!
# The memory that `exec` builds

`exec` builds the new image in a page directory of its own.  It takes pages from the free list
for it, writes into those only, and gives them back when it fails.
-/

namespace Xv6.Vm

open Function

variable {L : Layout} {m m' m'' : Memory} {d f sz : Nat} {c : Page}

/-! ### The bytes of a page -/

namespace Page

theorem byte_ofBytes (b : Nat → UInt8) {k : Nat} (hk : k < PGSIZE) :
  (ofBytes b).byte k = b k
  := by
  simp only [PGSIZE] at hk
  obtain ⟨i, r, hr, rfl⟩ : ∃ i r, r < 4 ∧ k = 4 * i + r :=
    ⟨k / 4, k % 4, Nat.mod_lt _ (by decide), (Nat.div_add_mod k 4).symm⟩
  have hdiv : (4 * i + r) / 4 = i := by
    omega
  have hmod : (4 * i + r) % 4 = r := by
    omega
  have hi : (Fin.ofNat 1024 i).val = i := by
    rw [Fin.val_ofNat]
    omega
  have h₀ := (b (4 * i)).toNat_lt
  have h₁ := (b (4 * i + 1)).toNat_lt
  have h₂ := (b (4 * i + 2)).toNat_lt
  have h₃ := (b (4 * i + 3)).toNat_lt
  apply UInt8.toNat_inj.mp
  rw [byte, hdiv, hmod, ofBytes, hi, UInt8.toNat_ofNat', UInt32.toNat_ofNat']
  obtain rfl | rfl | rfl | rfl : r = 0 ∨ r = 1 ∨ r = 2 ∨ r = 3 := by
    omega
  · simp only [Nat.add_zero]
    omega
  all_goals omega

end Page

/-! ### Writing into user pages -/

/-- Only the contents of the user pages of `d` change. -/
structure Stores (d : Nat) (m m' : Memory) : Prop where
  table : m'.table d = m.table d
  entry : m'.entry d = m.entry d
  trade : Trade (m.frames d) m (m'.frames d) m'

namespace Stores

theorem refl (d : Nat) (m : Memory) :
  Stores d m m
  := ⟨rfl, rfl, .refl _ _⟩

theorem trans (h : Stores d m m') (h' : Stores d m' m'') :
  Stores d m m''
  := by
  constructor
  · rw [h'.table, h.table]
  · rw [h'.entry, h.entry]
  · apply h.trade.trans h'.trade

/-- All pages of the directory are traded. -/
theorem trade_owned (h : Stores d m m') :
  Trade (m.owned d) m (m'.owned d) m'
  := by
  have := h.trade.frame_left (m.tree d)
  rw [← Memory.tree_congr h.table] at this
  rw [Memory.owned, Memory.owned, ← Memory.tree_congr h.table]
  apply this

/-- Overwriting a user page. -/
theorem setPage (hp : Pool L m (m.owned d)) (hf : f ∈ m.frames d) :
  Stores d m (m.setPage f c)
  := by
  have hpage : ∀ g ∈ m.tree d, (m.setPage f c).page g = m.page g := by
    intro g hg
    apply update_of_ne
    rintro rfl
    apply Multiset.disjoint_left.mp (Multiset.nodup_add.mp hp.nodup_right).2.2 hg hf
  have hentry := Memory.entry_congr hpage
  refine ⟨Memory.table_congr (hpage d Memory.mem_tree_self), hentry, ?_⟩
  rw [Memory.frames_congr hentry]
  apply Trade.setPage hf

end Stores

/-! ### The address space of an image -/

theorem user_iff (e : Entry) :
  e.1 < pdx KERNBASE ↔ e.vpn < 2 ^ 19
  := by
  have := e.vpn_div
  rw [Fin.lt_def, pdx_kernbase]
  omega

theorem npages_lt (h : sz < KERNBASE) :
  npages sz ≤ 2 ^ 19
  := by
  simp only [npages, PGSIZE, KERNBASE] at h ⊢
  omega

/-- The page directory `d` maps user pages below the size `sz` only, and what it maps for the
kernel the user cannot access. -/
structure User (m : Memory) (d sz : Nat) : Prop where
  lt : sz < KERNBASE
  below : ∀ e : Entry, e.1 < pdx KERNBASE → isP (m.entry d e) → e.vpn < npages sz
  supervisor : ∀ e : Entry, ¬ e.1 < pdx KERNBASE → isP (m.entry d e) → isU (m.entry d e) = false

namespace User

variable {newsz : Nat} {F : Multiset Nat}

section

variable (h : User m d sz)

include h

theorem of_entry (hentry : m'.entry d = m.entry d) :
  User m' d sz
  := by
  constructor
  · apply h.lt
  · rw [hentry]
    apply h.below
  · rw [hentry]
    apply h.supervisor

theorem congr (hpage : ∀ f ∈ m.tree d, m'.page f = m.page f) :
  User m' d sz
  := h.of_entry (Memory.entry_congr hpage)

theorem mono (hle : sz ≤ newsz) (hnew : newsz < KERNBASE) :
  User m d newsz
  := by
  constructor
  · apply hnew
  · intro e he hP
    have := h.below e he hP
    rw [lt_npages_iff] at this ⊢
    omega
  · apply h.supervisor

/-- No page is mapped above the size. -/
theorem empty
    (hnew : newsz < KERNBASE) {e : Entry} (he : npages sz ≤ e.vpn ∧ e.vpn < npages newsz) :
  isP (m.entry d e) = false
  := by
  by_contra hP
  rw [Bool.not_eq_false] at hP
  have hlt := npages_lt hnew
  have := h.below e ((user_iff e).mpr (by omega)) hP
  omega

/-- A larger memory. -/
theorem adds (hnew : newsz < KERNBASE) (ha : AddsZeros d (npages sz) (npages newsz) F m m') :
  User m' d newsz
  := by
  have hle := ha.le
  have hlt := npages_lt hnew
  constructor
  · apply hnew
  · intro e he hP
    by_cases hin : npages sz ≤ e.vpn ∧ e.vpn < npages newsz
    · apply hin.2
    · rw [ha.outside e hin] at hP
      have := h.below e he hP
      omega
  · intro e he
    rw [ha.outside e]
    · apply h.supervisor e he
    · rw [user_iff] at he
      omega

/-- A smaller memory. -/
theorem clears
    (hlt : newsz < sz) (hc : Clears d (fun e => npages newsz ≤ e.vpn ∧ e.vpn < npages sz) m m') :
  User m' d newsz
  := by
  have hsz := npages_lt h.lt
  have hle : npages newsz ≤ npages sz := by
    simp only [npages]
    apply Nat.div_le_div_right
    omega
  constructor
  · have := h.lt
    omega
  · intro e he hP'
    by_contra hge
    have hP : isP (m.entry d e) = true → False := by
      intro hP
      rw [hc.cleared e ⟨by omega, h.below e he hP⟩ hP] at hP'
      cases hP'
    rw [hc.kept e fun _ => (Bool.not_eq_true _).mp hP] at hP'
    apply hP hP'
  · intro e he
    rw [hc.kept e]
    · apply h.supervisor e he
    · rw [user_iff] at he
      omega

/-- The same memory. -/
theorem samePages (hs : SamePages d m m') :
  User m' d sz
  := by
  constructor
  · apply h.lt
  · intro e he hP
    apply h.below e he (hs.gone e hP)
  · intro e he hP
    have hP' := hs.gone e hP
    rw [hs.kept e hP']
    apply h.supervisor e he hP'

end

end User

/-- The page directory `d` maps the kernel and the user pages of a memory of `sz` bytes. -/
structure Space (L : Layout) (m : Memory) (d sz : Nat) : Prop extends User m d sz where
  full : ∀ e : Entry, e.vpn < npages sz → isP (m.entry d e)
  kernel : ∀ e : Entry, ¬ e.1 < pdx KERNBASE → m.entry d e = kernelPte L e.vpn
  table : ∀ j : Fin 1024, 512 ≤ j.val →
    ((m.table d j).isSome ↔ j.val < 568 ∨ 1016 ≤ j.val)

theorem isU_mkPte {perm : Nat} (hf : f < 2 ^ 20) (hperm : perm < PGSIZE) :
  isU (mkPte (PGSIZE * f) perm) = perm.testBit 2
  := testBit_mkPte hf hperm (by decide)

theorem perm_of_mem_kmap {k : Kmap} (h : k ∈ kmap L) :
  k.perm = PTE_W ∨ k.perm = 0
  := by
  simp only [kmap, List.mem_cons, List.not_mem_nil, or_false] at h
  obtain rfl | rfl | rfl | rfl := h
  all_goals simp

/-- The kernel's pages are not the user's. -/
theorem isU_kernelPte (L : Layout) {v : Nat} (hv : v < 2 ^ 20) :
  isU (kernelPte L v) = false
  := by
  rw [kernelPte]
  cases hk : (kmap L).find? (·.Covers v) with
  | none => simp [isU]
  | some k =>
    have hmem := List.mem_of_find?_eq_some hk
    have hcovers : k.Covers v := by
      simpa using List.find?_some hk
    obtain ⟨q, hq⟩ := (wf_of_mem_kmap hmem).phys
    obtain ⟨w, hw⟩ := (wf_of_mem_kmap hmem).virt
    have hle : q + (v - w) < 2 ^ 20 := by
      have hdata := L.data_le
      have hend := L.kend_le
      obtain ⟨hge, hlt⟩ := hcovers
      simp only [kmap, List.mem_cons, List.not_mem_nil, or_false] at hmem
      obtain rfl | rfl | rfl | rfl := hmem
      all_goals
        simp only [Kmap.size, PGSIZE, EXTMEM, PHYSTOP, KERNBASE, DEVSPACE] at *
        omega
    have hperm : k.perm < PGSIZE ∧ k.perm.testBit 2 = false := by
      rcases perm_of_mem_kmap hmem with h | h
      · rw [h]
        decide
      · rw [h]
        decide
    rw [Option.elim_some, Kmap.pte, hq, hw, ← Nat.mul_sub, ← Nat.mul_add,
      isU_mkPte hle hperm.1, hperm.2]

theorem KernelOnly.space (h : KernelOnly L m d) :
  Space L m d 0
  := by
  constructor
  · constructor
    · decide
    · intro e he hP
      have hva : PGSIZE * e.vpn < KERNBASE := by
        rw [user_iff] at he
        simp only [PGSIZE, KERNBASE]
        omega
      rw [h.entry, kernelPte_of_lt hva] at hP
      cases hP
    · intro e _ _
      rw [h.entry, isU_kernelPte L e.vpn_lt]
  · intro e he
    rw [lt_npages_iff] at he
    omega
  · intro e _
    apply h.entry
  · intro j hj
    rw [h.table]
    omega

namespace Space

theorem of_entry
    (h : Space L m d sz) (htable : m'.table d = m.table d) (hentry : m'.entry d = m.entry d) :
  Space L m' d sz
  := by
  constructor
  · apply h.toUser.of_entry hentry
  · rw [hentry]
    apply h.full
  · rw [hentry]
    apply h.kernel
  · rw [htable]
    apply h.table

theorem stores (h : Space L m d sz) (hs : Stores d m m') :
  Space L m' d sz
  := h.of_entry hs.table hs.entry

/-- A larger memory. -/
theorem adds
    {newsz : Nat} {F : Multiset Nat} (hp : Pool L m (m.owned d)) (h : Space L m d sz)
    (hnew : newsz < KERNBASE) (ha : AddsZeros d (npages sz) (npages newsz) F m m') :
  Space L m' d newsz
  := by
  have hlt := npages_lt hnew
  constructor
  · apply h.toUser.adds hnew ha
  · intro e he
    by_cases hge : npages sz ≤ e.vpn
    · obtain ⟨f, hf, hentry, -⟩ := ha.inside e hge he
      have hrange : f < 2 ^ 20 := by
        apply Layout.InRange.lt (L := L)
        apply (hp.left.trade ha.trade).left.inRange hf
      rw [hentry, isP_mkPte hrange (by decide)]
    · rw [ha.outside e (by omega)]
      apply h.full e
      omega
  · intro e he
    rw [ha.outside e, h.kernel e he]
    rw [user_iff] at he
    omega
  · intro j hj
    rw [ha.table, h.table j hj]
    simp only [NeedsTable]
    omega

/-- A user page that is present belongs to its page directory. -/
theorem mem_frames {e : Entry} (he : e.1 < pdx KERNBASE) (hP : isP (m.entry d e)) :
  pteAddr (m.entry d e) ∈ m.frames d
  := by
  rw [Memory.frames, mem_held]
  use e
  rw [Memory.frame, Entry.frame, if_pos ⟨he, hP⟩]

/-- The kernel's part is not accessible for the user. -/
theorem user_of_isU (h : Space L m d sz) {e : Entry} (hU : isU (m.entry d e)) :
  e.1 < pdx KERNBASE
  := by
  by_contra he
  rw [h.kernel e he, isU_kernelPte L e.vpn_lt] at hU
  cases hU

end Space

/-! ### Addresses -/

theorem ofVa_pgrounddown (va : Nat) :
  Entry.ofVa (PGSIZE * (va / PGSIZE)) = Entry.ofVa va
  := by
  simp only [Entry.ofVa, pdx, ptx, PGSIZE]
  congr 2
  · omega
  · omega

/-- The page of a user address. -/
theorem vpn_ofVa_lt {va : Nat} (hva : va < KERNBASE) :
  (Entry.ofVa va).vpn = va / PGSIZE ∧ (Entry.ofVa va).1 < pdx KERNBASE
  := by
  simp only [KERNBASE] at hva
  rw [← ofVa_pgrounddown va]
  constructor
  · apply Entry.vpn_ofVa
    simp only [PGSIZE]
    omega
  · apply pdx_lt_kernbase
    simp only [PGSIZE, KERNBASE]
    omega

/-- The byte at a user address. -/
def load (m : Memory) (d va : Nat) : Option UInt8 :=
  if va < KERNBASE ∧ isP (m.entry d (.ofVa va)) then
    some ((m.page (pteAddr (m.entry d (.ofVa va)))).byte (va % PGSIZE))
  else none

/-- Of the user memory of `d` only the bytes from `lo` to `hi` change. -/
structure Writes (d lo hi : Nat) (m m' : Memory) : Prop extends Stores d m m' where
  outside : ∀ va, ¬ (lo ≤ va ∧ va < hi) → load m' d va = load m d va

namespace Writes

variable {lo hi : Nat}

theorem refl (d lo hi : Nat) (m : Memory) :
  Writes d lo hi m m
  := ⟨.refl d m, fun _ _ => rfl⟩

theorem trans (h : Writes d lo hi m m') (h' : Writes d lo hi m' m'') :
  Writes d lo hi m m''
  := by
  refine ⟨h.toStores.trans h'.toStores, ?_⟩
  intro va hva
  rw [h'.outside va hva, h.outside va hva]

/-- Bytes are stored at the start of a page. -/
theorem setPage
    {v : Nat} {bs : List UInt8} (hp : Pool L m (m.owned d)) (hv : PGSIZE * v < KERNBASE)
    (hP : isP (m.entry d (.ofVa (PGSIZE * v)))) (hlo : lo ≤ PGSIZE * v)
    (hhi : PGSIZE * v + bs.length ≤ hi) :
  Writes d lo hi m (m.setPage (pteAddr (m.entry d (.ofVa (PGSIZE * v))))
    ((m.page (pteAddr (m.entry d (.ofVa (PGSIZE * v))))).store 0 bs))
  := by
  have hframe : m.frame d (.ofVa (PGSIZE * v)) = some (pteAddr (m.entry d (.ofVa (PGSIZE * v)))) :=
    if_pos ⟨pdx_lt_kernbase hv, hP⟩
  have hset := Stores.setPage (c := (m.page (pteAddr (m.entry d (.ofVa (PGSIZE * v))))).store 0 bs)
    hp (Space.mem_frames (pdx_lt_kernbase hv) hP)
  refine ⟨hset, ?_⟩
  intro va hva
  rw [load, load, hset.entry]
  by_cases h : va < KERNBASE ∧ isP (m.entry d (.ofVa va))
  · rw [if_pos h, if_pos h]
    by_cases heq : va / PGSIZE = v
    · -- the same page, but not one of the bytes that are stored
      have hent : Entry.ofVa va = Entry.ofVa (PGSIZE * v) := by
        rw [← heq, ofVa_pgrounddown]
      have hnot : ¬ (0 ≤ va % PGSIZE ∧ va % PGSIZE < 0 + bs.length) := by
        simp only [PGSIZE] at heq hlo hhi ⊢
        omega
      rw [hent]
      simp only [Memory.setPage, update_self]
      rw [Page.store, Page.byte_ofBytes _ (Nat.mod_lt _ (by decide)), if_neg hnot]
    · have hne : pteAddr (m.entry d (.ofVa va)) ≠ pteAddr (m.entry d (.ofVa (PGSIZE * v))) := by
        intro heq'
        have hframe' : m.frame d (.ofVa va) = some (pteAddr (m.entry d (.ofVa (PGSIZE * v)))) := by
          rw [← heq']
          exact if_pos ⟨(vpn_ofVa_lt h.1).2, h.2⟩
        have hent := eq_of_nodup_held (Multiset.nodup_add.mp hp.nodup_right).2.1 hframe' hframe
        have hvpn := congrArg Entry.vpn hent
        rw [(vpn_ofVa_lt h.1).1, (vpn_ofVa_lt hv).1] at hvpn
        simp only [PGSIZE] at hvpn heq
        omega
      simp only [Memory.setPage, update_of_ne hne]
  · rw [if_neg h, if_neg h]

end Writes

/-! ### `copyout` and `loaduvm` -/

section

variable {E : Fault → Prop} {Q : Option Nat → Memory → Prop} {null : Mem UInt32} {va : Nat}

/-- `uva2ka` gives the page of an entry that is present and the user's. -/
theorem wp_uva2ka :
  Wp E (uva2ka null d va) Q m ↔
    match m.table d (pdx va) with
    | none => Wp E null (fun pte m' =>
        if isP pte ∧ isU pte then Q (some (pteAddr pte)) m' else Q none m') m
    | some _ =>
      if isP (m.entry d (.ofVa va)) ∧ isU (m.entry d (.ofVa va)) then
        Q (some (pteAddr (m.entry d (.ofVa va)))) m
      else Q none m
  := by
  have hpte : ∀ pte m', Wp E (do
      if !isP pte then
        return none
      if !isU pte then
        return none
      return some (pteAddr pte)) Q m' ↔
        if isP pte ∧ isU pte then Q (some (pteAddr pte)) m' else Q none m' := by
    intro pte m'
    cases isP pte with
    | false => simp
    | true =>
      cases isU pte with
      | false | true => simp
  rw [uva2ka, wp_bind, wp_walkpgdir]
  cases ht : m.table d (pdx va) with
  | none =>
    simp only [Option.map_none, wp_bind, hpte]
  | some t =>
    have hentry : m.page t (ptx va) = m.entry d (.ofVa va) := (Memory.entry_eq ht _).symm
    simp only [Option.map_some, wp_bind, wp_get, wp_pure, hentry, hpte]

end

section

variable (hp : Pool L m (m.owned d))

include hp

section

variable (hs : Space L m d sz)

include hs

/-- `copyout` writes into user pages only. -/
theorem copyoutLoop_spec {n va : Nat} {buf : List UInt8} :
  Wp (· = .nullDeref) (copyoutLoop (throw .nullDeref) d n va buf) (fun _ m' => Stores d m m') m
  := by
  induction n generalizing va buf m with
  | zero => apply Stores.refl
  | succ n ih =>
    rw [copyoutLoop]
    split
    · rw [wp_bind, wp_uva2ka]
      split
      · rfl
      · split
        · rename_i hacc
          have hmem := Space.mem_frames (hs.user_of_isU hacc.2) hacc.1
          have hset : ∀ c, Stores d m (m.setPage _ c) := fun c => Stores.setPage hp hmem
          rw [wp_bind, wp_modify]
          apply (ih (hp.trade (hset _).trade_owned) (hs.stores (hset _))).mono
          intro _ m' hm'
          apply (hset _).trans hm'
        · apply Stores.refl
    · apply Stores.refl

/-- `loaduvm` into pages of the image writes into the segment only. -/
theorem loadLoop_spec
    {ip : Inode} {v offset filesz n i : Nat} (hle : PGSIZE * v + filesz ≤ sz)
    (hn : i + n = npages filesz) :
  Wp NoFault (loadLoop d (PGSIZE * v) ip offset filesz n (PGSIZE * i))
    (fun _ m' => Writes d (PGSIZE * v) (PGSIZE * v + filesz) m m') m
  := by
  induction n generalizing i m with
  | zero => apply Writes.refl
  | succ n ih =>
    have hi : PGSIZE * i < filesz := by
      rw [← lt_npages_iff]
      omega
    have hv : v + i < npages sz := by
      rw [lt_npages_iff, Nat.mul_add]
      omega
    have hlt : v + i < 2 ^ 19 := by
      have := npages_lt hs.lt
      omega
    have hvpn := Entry.vpn_ofVa (show v + i < 2 ^ 20 by omega)
    have hP := hs.full (.ofVa (PGSIZE * (v + i))) (by omega)
    obtain ⟨t, ht, hentry⟩ := Memory.exists_table hP
    rw [loadLoop, wp_bind, wp_walkpgdir, ← Nat.mul_add]
    have hva : PGSIZE * (v + i) < KERNBASE := by
      simp only [PGSIZE, KERNBASE]
      omega
    simp only [ht, Option.map_some, wp_bind, wp_get, hentry]
    have hlen : (if filesz - PGSIZE * i < PGSIZE then filesz - PGSIZE * i else PGSIZE)
        ≤ filesz - PGSIZE * i := by
      split <;> omega
    generalize (if filesz - PGSIZE * i < PGSIZE then filesz - PGSIZE * i else PGSIZE) = len
      at hlen ⊢
    split
    · apply Writes.refl
    · rename_i bs hread
      have hbs := ip.length_le hread
      have hhi : PGSIZE * (v + i) + bs.length ≤ PGSIZE * v + filesz := by
        rw [Nat.mul_add]
        omega
      have hset : Writes d (PGSIZE * v) (PGSIZE * v + filesz) m _ :=
        Writes.setPage hp hva hP (by rw [Nat.mul_add]; omega) hhi
      rw [wp_bind, wp_modify]
      split
      · apply hset
      · rw [← Nat.mul_succ]
        apply (ih (hp.trade hset.trade_owned) (hs.stores hset.toStores) (by omega)).mono
        intro _ m' hm'
        apply hset.trans hm'

theorem loaduvm_spec
    {ip : Inode} {addr offset filesz : Nat} (haddr : addr % PGSIZE = 0) (hle : addr + filesz ≤ sz) :
  Wp NoFault (loaduvm d addr ip offset filesz)
    (fun _ m' => Writes d addr (addr + filesz) m m') m
  := by
  obtain ⟨v, rfl⟩ := Nat.dvd_of_mod_eq_zero haddr
  rw [loaduvm, if_neg (not_not.mpr haddr)]
  apply loadLoop_spec (i := 0) hp hs hle (Nat.zero_add _)

/-- `allocuvm` from the size of the image. -/
theorem allocuvm_space (newsz : Nat) :
  Wp NoFault (allocuvm L d sz newsz)
    (fun r m' => Trade (m.owned d) m (m'.owned d) m' ∧
      (r ≠ 0 → newsz ≤ r ∧ Space L m' d r)) m
  := by
  rcases Nat.lt_or_ge newsz KERNBASE with hnew | hnew
  · rcases Nat.lt_or_ge newsz sz with hlt | hle
    · rw [wp_allocuvm_of_lt hnew hlt]
      exact ⟨.refl _ _, fun _ => ⟨hlt.le, hs⟩⟩
    · apply (allocuvm_spec hp hnew hle fun _ => hs.empty hnew).mono
      rintro r m' (⟨rfl, F, hadds⟩ | ⟨rfl, hsame, htrade, -⟩)
      · exact ⟨hadds.trade_owned, fun _ => ⟨le_refl _, hs.adds hp hnew hadds⟩⟩
      · exact ⟨htrade.owned hsame.frame, fun h => absurd rfl h⟩
  · rw [wp_allocuvm_of_ge hnew]
    exact ⟨.refl _ _, fun h => absurd rfl h⟩

end

end

theorem field_lt (bs : List UInt8) (k n : Nat) :
  field bs k n < 2 ^ (8 * n)
  := by
  have h : ∀ l : List UInt8, l.foldr (fun b x => b.toNat + 2 ^ 8 * x) 0 < 2 ^ (8 * l.length) := by
    intro l
    induction l with
    | nil => decide
    | cons b l ih =>
      have hb := b.toNat_lt
      rw [List.foldr_cons, List.length_cons, Nat.mul_succ, Nat.pow_add]
      omega
  apply Nat.lt_of_lt_of_le (h _)
  apply Nat.pow_le_pow_right (by decide)
  rw [List.length_take]
  omega

/-- The image in the page directory `d` is complete up to a size, or it is to be freed. -/
def Loads (L : Layout) (d : Nat) (m : Memory) (r : Option Nat) (m' : Memory) : Prop :=
  Trade (m.owned d) m (m'.owned d) m' ∧ ∀ sz ∈ r, Space L m' d sz

theorem Loads.none (h : Trade (m.owned d) m (m'.owned d) m') :
  Loads L d m none m'
  := ⟨h, by simp⟩

theorem Loads.some (h : Trade (m.owned d) m (m'.owned d) m') (hs : Space L m' d sz) :
  Loads L d m (some sz) m'
  := ⟨h, by simpa using hs⟩

theorem loadSegment_spec
    {ip : Inode} {bs : List UInt8} (hp : Pool L m (m.owned d)) (hs : Space L m d sz) :
  Wp NoFault (loadSegment L ip d (.ofBytes bs) sz) (Loads L d m) m
  := by
  have hrefl : Trade (m.owned d) m (m.owned d) m := .refl _ _
  rw [loadSegment]
  split
  · apply Loads.some hrefl hs
  split
  · apply Loads.none hrefl
  split
  · apply Loads.none hrefl
  rename_i hfilesz hwrap
  apply (allocuvm_space hp hs _).bind
  rintro r m₁ ⟨htrade, hr⟩
  split
  · apply Loads.none htrade
  rename_i hne
  obtain ⟨hle, hs₁⟩ := hr hne
  split
  · apply Loads.none htrade
  rename_i haddr
  have hvaddr := field_lt bs 8 4
  have hmemsz := field_lt bs 20 4
  apply (loaduvm_spec (hp.trade htrade) hs₁ (not_not.mp haddr) _).bind
  · intro ok m₂ hm₂
    have htrade₂ := htrade.trans hm₂.trade_owned
    split
    · apply Loads.some htrade₂ (hs₁.stores hm₂.toStores)
    · apply Loads.none htrade₂
  · simp only [Proghdr.ofBytes] at hfilesz hwrap hle ⊢
    omega

/-- The loop of `exec` over the program headers keeps an address space. -/
theorem loadSegments_spec
    {ip : Inode} {n off : Nat} (hp : Pool L m (m.owned d)) (hs : Space L m d sz) :
  Wp NoFault (loadSegments L ip d n off sz) (Loads L d m) m
  := by
  induction n generalizing off sz m with
  | zero => apply Loads.some (.refl _ _) hs
  | succ n ih =>
    rw [loadSegments]
    split
    · apply Loads.none (.refl _ _)
    split
    · apply Loads.none (.refl _ _)
    apply (loadSegment_spec hp hs).bind
    rintro (_ | sz₁) m₁ hm₁
    · apply hm₁
    · apply (ih (hp.trade hm₁.1) (hm₁.2 sz₁ rfl)).mono
      intro r m₂ hm₂
      exact ⟨hm₁.1.trans hm₂.1, hm₂.2⟩

/-! ### The stack -/

section

variable (pte : UInt32)

/-- `pte & ~PTE_U` -/
abbrev noU : UInt32 :=
  pte &&& ~~~ (.ofNat PTE_U)

theorem toNat_noU :
  (noU pte).toNat = pte.toNat &&& 0xFFFFFFFB
  := UInt32.toNat_and _ _

theorem isP_noU :
  isP (noU pte) = isP pte
  := by
  rw [isP, isP, toNat_noU, Nat.testBit_and]
  have : Nat.testBit 0xFFFFFFFB 0 = true := by
    decide
  rw [this, Bool.and_true]

theorem isU_noU :
  isU (noU pte) = false
  := by
  rw [isU, toNat_noU, Nat.testBit_and]
  have : Nat.testBit 0xFFFFFFFB 2 = false := by
    decide
  rw [this, Bool.and_false]

theorem pteAddr_noU :
  pteAddr (noU pte) = pteAddr pte
  := by
  have hlt := pte.toNat_lt
  have hmask : 0xFFFFFFFB >>> 12 = 2 ^ 20 - 1 := by
    decide
  rw [pteAddr, pteAddr, toNat_noU]
  change (_ &&& _) / 2 ^ 12 = _ / 2 ^ 12
  rw [← Nat.shiftRight_eq_div_pow, ← Nat.shiftRight_eq_div_pow, Nat.shiftRight_and_distrib, hmask,
    Nat.and_two_pow_sub_one_eq_mod, Nat.shiftRight_eq_div_pow]
  omega

end

/-- The last page of the image is the user's, the one before it is not. -/
structure Stack (m : Memory) (d sz : Nat) : Prop where
  dvd : PGSIZE ∣ sz
  le : 2 * PGSIZE ≤ sz
  stack : isP (m.entry d (.ofVa (sz - PGSIZE))) ∧ isU (m.entry d (.ofVa (sz - PGSIZE)))
  guard : isU (m.entry d (.ofVa (sz - 2 * PGSIZE))) = false

theorem Stack.stores (hk : Stack m d sz) (hs : Stores d m m') :
  Stack m' d sz
  := by
  constructor
  · apply hk.dvd
  · apply hk.le
  · rw [hs.entry]
    apply hk.stack
  · rw [hs.entry]
    apply hk.guard

section

variable (hp : Pool L m (m.owned d))

include hp

theorem clearpteu_spec {v : Nat} (hs : Space L m d sz) (hv : v < npages sz) :
  Wp NoFault (clearpteu d (PGSIZE * v))
    (fun _ m' => Trade (m.owned d) m (m'.owned d) m' ∧ Space L m' d sz ∧
      m'.entry d = update (m.entry d) (.ofVa (PGSIZE * v))
        (noU (m.entry d (.ofVa (PGSIZE * v))))) m
  := by
  have hlt := npages_lt hs.lt
  have hvpn := Entry.vpn_ofVa (show v < 2 ^ 20 by omega)
  have huser := (user_iff (.ofVa (PGSIZE * v))).mpr (by omega)
  have hP := hs.full (.ofVa (PGSIZE * v)) (by omega)
  obtain ⟨t, ht, hentry⟩ := Memory.exists_table hP
  rw [clearpteu, wp_bind, wp_walkpgdir]
  simp only [ht, Option.map_some, wp_modify, hentry]
  have hset := SetsEntry.setWord hp.left ht (ptx (PGSIZE * v))
    (noU (m.entry d (.ofVa (PGSIZE * v))))
  generalize m.setWord t (ptx (PGSIZE * v)) (noU (m.entry d (.ofVa (PGSIZE * v)))) = m' at hset
  change SetsEntry d (.ofVa (PGSIZE * v)) _ m m' at hset
  have hisP : ∀ e, isP (m'.entry d e) = isP (m.entry d e) := by
    intro e
    rw [hset.entry, update_apply]
    split
    · subst_vars
      apply isP_noU
    · rfl
  have hframe : m'.frame d = m.frame d := by
    rw [Memory.frame_update hset.entry, Entry.frame, isP_noU, pteAddr_noU]
    apply update_eq_self
  refine ⟨hset.trade.owned hframe, ?_, hset.entry⟩
  have hkernel : ∀ e : Entry, ¬ e.1 < pdx KERNBASE → m'.entry d e = m.entry d e := by
    intro e he
    rw [hset.entry, update_of_ne]
    rintro rfl
    apply he huser
  constructor
  · constructor
    · apply hs.lt
    · intro e he hPe
      rw [hisP] at hPe
      apply hs.below e he hPe
    · intro e he
      rw [hkernel e he]
      apply hs.supervisor e he
  · intro e he
    rw [hisP]
    apply hs.full e he
  · intro e he
    rw [hkernel e he, hs.kernel e he]
  · rw [hset.table]
    apply hs.table

/-- `exec` loads the program and makes room for the stack. -/
theorem loadImage_spec {ip : Inode} {elf : Elfhdr} (hs : Space L m d 0) :
  Wp NoFault (loadImage L ip elf d)
    (fun r m' => Loads L d m r m' ∧ ∀ sz ∈ r, Stack m' d sz) m
  := by
  rw [loadImage]
  apply (loadSegments_spec hp hs).bind
  rintro (_ | sz) m₁ hm₁
  · exact ⟨hm₁, by simp⟩
  · have hs₁ := hm₁.2 sz rfl
    have hp₁ := hp.trade hm₁.1
    have hup : npages (pgroundup sz) = npages sz := by
      simp only [npages, pgroundup, PGSIZE]
      omega
    rw [wp_bind]
    by_cases hnew : pgroundup sz + 2 * PGSIZE < KERNBASE
    · have hs₁' : Space L m₁ d (pgroundup sz) := by
        constructor
        · apply hs₁.mono _ (by omega)
          simp only [pgroundup, PGSIZE]
          omega
        · rw [hup]
          apply hs₁.full
        · apply hs₁.kernel
        · apply hs₁.table
      have hlt := npages_lt hnew
      have hnpages : npages (pgroundup sz + 2 * PGSIZE) = npages sz + 2 := by
        simp only [npages, pgroundup, PGSIZE]
        omega
      apply (allocuvm_spec hp₁ hnew (Nat.le_add_right _ _) fun _ => hs₁'.empty hnew).mono
      rintro r m₂ (⟨rfl, F, hadds⟩ | ⟨rfl, hsame, htrade, -⟩)
      · have hp₂ := hp₁.trade hadds.trade_owned
        have hs₂ := hs₁'.adds hp₁ hnew hadds
        have hguard : pgroundup sz + 2 * PGSIZE - 2 * PGSIZE = PGSIZE * npages sz := by
          rw [Nat.add_sub_cancel, pgroundup_eq]
        have hstack : pgroundup sz + 2 * PGSIZE - PGSIZE = PGSIZE * (npages sz + 1) := by
          rw [Nat.two_mul, ← Nat.add_assoc, Nat.add_sub_cancel, pgroundup_eq, Nat.mul_succ]
        rw [if_neg (by simp), wp_bind, hguard]
        apply (clearpteu_spec hp₂ hs₂ (by omega)).mono
        rintro _ m₃ ⟨htrade₃, hs₃, hentry₃⟩
        refine ⟨Loads.some ((hm₁.1.trans hadds.trade_owned).trans htrade₃) hs₃, ?_⟩
        rintro _ ⟨⟩
        constructor
        · rw [pgroundup_eq]
          apply Nat.dvd_add
          · apply Nat.dvd_mul_right
          · apply Nat.dvd_mul_left
        · apply Nat.le_add_left
        · have hvpn := Entry.vpn_ofVa (show npages sz + 1 < 2 ^ 20 by omega)
          obtain ⟨f, hf, hentry, -⟩ :=
            hadds.inside (.ofVa (PGSIZE * (npages sz + 1))) (by omega) (by omega)
          have hrange : f < 2 ^ 20 := by
            apply Layout.InRange.lt (L := L)
            apply (hp₁.left.trade hadds.trade).left.inRange hf
          rw [hstack, hentry₃, update_of_ne, hentry, isP_mkPte hrange (by decide),
            isU_mkPte hrange (by decide)]
          · decide
          · rw [ne_eq, Entry.ofVa_eq_iff (by omega)]
            omega
        · rw [hguard, hentry₃, update_self, isU_noU]
      · rw [if_pos rfl]
        exact ⟨Loads.none (hm₁.1.trans (htrade.owned hsame.frame)), by simp⟩
    · rw [wp_allocuvm_of_ge (Nat.le_of_not_lt hnew), if_pos rfl]
      exact ⟨Loads.none hm₁.1, by simp⟩

/-! ### Pushing the arguments -/

/-- Pushing the argument strings writes into user pages only. -/
theorem pushStrings_spec
    {argv : List (List UInt8)} {argc sp : Nat} {ustack : List Nat} (hs : Space L m d sz) :
  Wp (· = .nullDeref) (pushStrings (throw .nullDeref) d argv argc sp ustack)
    (fun _ m' => Stores d m m') m
  := by
  induction argv generalizing argc sp ustack m with
  | nil => apply Stores.refl
  | cons s argv ih =>
    rw [pushStrings]
    split
    · apply Stores.refl
    · rw [wp_bind, copyout]
      apply (copyoutLoop_spec hp hs).mono
      rintro (_ | _) m₁ hm₁
      · apply hm₁
      · apply (ih (hp.trade hm₁.trade_owned) (hs.stores hm₁)).mono
        intro _ m' hm'
        apply hm₁.trans hm'

theorem pushArgs_spec {argv : List (List UInt8)} (hs : Space L m d sz) :
  Wp (· = .nullDeref) (pushArgs (throw .nullDeref) d sz argv) (fun _ m' => Stores d m m') m
  := by
  rw [pushArgs]
  apply (pushStrings_spec hp hs).bind
  rintro (_ | ⟨sp, args⟩) m₁ hm₁
  · apply hm₁
  · have hp₁ := hp.trade hm₁.trade_owned
    rw [wp_bind, copyout]
    apply (copyoutLoop_spec hp₁ (hs.stores hm₁)).mono
    rintro (_ | _) m₂ hm₂
    · apply hm₁.trans hm₂
    · apply hm₁.trans hm₂

end

/-! ### The image as a whole -/

/-- `exec` builds an image of its own, or it gives back all pages it took. -/
def Builds (L : Layout) (m : Memory) : Option Image → Memory → Prop
  | none, m' => Trade 0 m 0 m'
  | some img, m' => Trade 0 m (m'.owned img.pgdir) m' ∧ Space L m' img.pgdir img.sz

/-- Freeing the image. -/
theorem wp_freevm_none
    {E : Fault → Prop} {Q : Option Image → Memory → Prop} (hp : Pool L m 0)
    (h : Trade 0 m (m'.owned d) m') (hQ : ∀ {m''}, Builds L m none m'' → Q none m'') :
  Wp E (do freevm L d; return none) Q m'
  := by
  apply (freevm_spec (hp.trade h)).noFail.bind
  intro _ m'' hm''
  apply hQ (h.trans hm'')

/-- `exec` builds an image, when it pushes the arguments into pages of the image. -/
theorem execImage_of_pushArgs
    {E : Fault → Prop} {null : Mem UInt32} {ip : Inode} {argv : List (List UInt8)}
    (hp : Pool L m 0)
    (hpush : ∀ bs d m₁ sz m₂, ip.readi 0 Elfhdr.size = some bs →
      loadImage L ip (.ofBytes bs) d m₁ = .ok (some sz, m₂) → Trade 0 m (m₂.owned d) m₂ →
      Space L m₂ d sz → Stack m₂ d sz →
      Wp E (pushArgs null d sz argv) (fun _ m' => Stores d m₂ m') m₂) :
  Wp E (execImage L null ip argv)
    (fun r m' => Builds L m r m' ∧ ∀ img ∈ r, Stack m' img.pgdir img.sz) m
  := by
  have hnone : ∀ {m'}, Builds L m none m' →
      Builds L m none m' ∧ ∀ img ∈ none, Stack m' (Image.pgdir img) img.sz :=
    fun h => ⟨h, by simp⟩
  have hrefl : Builds L m none m := Trade.refl _ _
  rw [execImage]
  split
  · apply hnone hrefl
  rename_i bs hread
  split
  · apply hnone hrefl
  dsimp only
  split
  · apply hnone hrefl
  apply (setupkvm_spec hp).noFail.bind
  rintro (_ | d) m₁ hm₁
  · apply hnone hm₁.1
  obtain ⟨htree, hkernel⟩ := hm₁
  have htrade : Trade 0 m (m₁.owned d) m₁ := by
    rw [Memory.owned, hkernel.frames, add_zero]
    apply htree
  have hloads : Wp NoFault (loadImage L ip (.ofBytes bs) d) _ m₁ :=
    loadImage_spec (hp.trade htrade) hkernel.space
  obtain ⟨r, m₂, hload, ⟨htrade₂, hspace⟩, hstack⟩ := hloads.exists_ok
  have htrade₂ := htrade.trans htrade₂
  dsimp only
  rw [wp_bind, Wp, hload]
  cases r with
  | none => apply wp_freevm_none hp htrade₂ hnone
  | some sz =>
    have hs := hspace sz rfl
    have hk := hstack sz rfl
    apply (hpush bs d m₁ sz m₂ hread hload htrade₂ hs hk).bind
    rintro (_ | sp) m₃ hm₃
    · apply wp_freevm_none hp (htrade₂.trans hm₃.trade_owned) hnone
    · refine ⟨⟨htrade₂.trans hm₃.trade_owned, hs.stores hm₃⟩, ?_⟩
      rintro img ⟨⟩
      exact hk.stores hm₃

theorem execImage_spec {ip : Inode} {argv : List (List UInt8)} (hp : Pool L m 0) :
  Wp (· = .nullDeref) (execImage L (throw .nullDeref) ip argv) (Builds L m) m
  := by
  apply (execImage_of_pushArgs hp _).mono fun _ _ h => h.1
  intro bs d m₁ sz m₂ _ _ htrade hs _
  exact pushArgs_spec (hp.trade htrade) hs

end Xv6.Vm
