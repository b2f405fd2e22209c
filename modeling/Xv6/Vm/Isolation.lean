import Xv6.Vm.Growproc

/-!
# A child has memory of its own

`copyuvm` gives the child a copy of every page of the parent.  The two page directories share no
frame, so what is written through one of them is not seen through the other.
-/

namespace Xv6.Vm

/-! ### Accessing memory through a page directory -/

/-- A byte is written at a user address. -/
def store (m : Memory) (d : Nat) (w : Nat × UInt8) : Memory :=
  let f := pteAddr (m.entry d (.ofVa w.1))
  if w.1 < KERNBASE ∧ isP (m.entry d (.ofVa w.1)) then
    m.setPage f ((m.page f).store (w.1 % PGSIZE) [w.2])
  else m

/-- Several bytes are written. -/
def storeAll (m : Memory) (d : Nat) (ws : List (Nat × UInt8)) : Memory :=
  ws.foldl (store · d) m

variable {L : Layout} {m m' m₁ m₂ : Memory} {s d sz : Nat}

/-- Writing through a page directory keeps its page tables. -/
theorem Stores.storeAll (hp : Pool L m (m.owned d)) (ws : List (Nat × UInt8)) :
  Stores d m (Vm.storeAll m d ws)
  := by
  induction ws generalizing m with
  | nil => exact .refl d m
  | cons w ws ih =>
    have hw : Stores d m (Vm.store m d w) := by
      rw [Vm.store]
      split
      · rename_i h
        exact .setPage hp (Space.mem_frames (vpn_ofVa_lt h.1).2 h.2)
      · exact .refl d m
    exact hw.trans (ih (hp.trade hw.trade_owned))

/-- What is written through one page directory is not seen through another one that shares no page
with it. -/
theorem load_storeAll (hp : Pool L m (m.owned d + m.owned s)) (ws : List (Nat × UInt8)) (va : Nat) :
  load (storeAll m d ws) s va = load m s va
  := by
  have hpage : ∀ f ∈ m.owned s, (storeAll m d ws).page f = m.page f := fun f hf =>
    hp.same_of_mem (Stores.storeAll hp.left ws).trade_owned hf
  have hentry : (storeAll m d ws).entry s = m.entry s :=
    Memory.entry_congr fun f hf => hpage f (Multiset.mem_add.mpr (.inl hf))
  rw [load, load, hentry]
  split
  · rename_i hva
    rw [hpage _ (Multiset.mem_add.mpr (.inr (Space.mem_frames (vpn_ofVa_lt hva.1).2 hva.2)))]
  · rfl

/-! ### `copyuvm` -/

/-- The loop of `copyuvm` in two parts. -/
theorem copyLoop_add (L : Layout) (pgdir d n k i : Nat) :
  copyLoop L pgdir d (n + k) i = (do
    match ← copyLoop L pgdir d n i with
    | none => return none
    | some d => copyLoop L pgdir d k (i + n * PGSIZE))
  := by
  induction n generalizing i with
  | zero => simp [copyLoop]
  | succ n ih =>
    have hi : i + (n + 1) * PGSIZE = i + PGSIZE + n * PGSIZE := by
      rw [Nat.succ_mul]
      omega
    rw [Nat.add_right_comm, copyLoop, copyLoop, hi]
    simp only [bind_assoc]
    congr 1
    funext r
    cases r with
    | none => rfl
    | some tk =>
      obtain ⟨t, k⟩ := tk
      simp only [bind_assoc]
      congr 1
      funext m
      split
      · rfl
      · simp only [bind_assoc]
        congr 1
        funext r
        cases r with
        | none => simp
        | some mem =>
          simp only [bind_assoc]
          congr 1
          funext u
          congr 1
          funext ok
          split
          · exact ih _
          · simp

/-- A page that is mapped is not mapped again. -/
theorem wp_mapPage_of_isP
    {E : Fault → Prop} {Q : Bool → Memory → Prop} {va pa perm : Nat}
    (hP : isP (m.entry d (.ofVa va))) (hE : E (.panic "remap")) :
  Wp E (mapPage d va pa perm) Q m
  := by
  obtain ⟨t, ht, hentry⟩ := Memory.exists_table hP
  have hpde : isP (m.page d (pdx va)) ∧ pteAddr (m.page d (pdx va)) = t := by
    rw [Memory.table] at ht
    split at ht
    · rename_i h
      exact ⟨h, Option.some.inj ht⟩
    · cases ht
  simp only [mapPage, walkpgdir, wp_bind, wp_get, hpde.1, if_true, wp_pure, hpde.2, hentry, hP]
  exact hE

theorem isP_kernelPte_kernbase (L : Layout) :
  isP (kernelPte L (KERNBASE / PGSIZE)) = true
  := by
  have hcovers : Kmap.Covers
      { virt := KERNBASE, physStart := 0, physEnd := EXTMEM, perm := PTE_W }
      (KERNBASE / PGSIZE) := by
    decide
  rw [kernelPte, kmap, List.find?_cons, decide_eq_true hcovers]
  dsimp only [Option.elim]
  decide

/-- `copyuvm` of more than the user part does not return a page directory. -/
theorem copyuvm_of_lt (hp : Pool L m (m.owned s)) (hlt : KERNBASE < sz) :
  Wp (fun _ => True) (copyuvm L s sz) (fun r _ => r = none) m
  := by
  obtain ⟨k, hk⟩ : ∃ k, npages sz = 2 ^ 19 + (k + 1) := by
    use npages sz - 2 ^ 19 - 1
    simp only [npages, PGSIZE, KERNBASE] at hlt ⊢
    omega
  rw [copyuvm]
  apply (setupkvm_spec (hp.of_le (Multiset.zero_le _))).noFail.bind
  rintro (_ | d) m₁ hm₁
  · rfl
  obtain ⟨hsetup, hkernel⟩ := hm₁
  dsimp only
  rw [hk, copyLoop_add, wp_bind]
  apply ((copyLoop_spec hp le_rfl ⟨hkernel, hsetup, .refl d 0 _ _ m₁⟩ (Nat.zero_add _)).fail
    fun _ _ => trivial).mono
  rintro (_ | d') m₂ hm₂
  · rfl
  obtain ⟨rfl, F, h⟩ := hm₂
  have hpool : Pool L m₂ (m₂.owned d') := (hp.of_le (Multiset.zero_le _)).trade h.trade
  -- the page at `KERNBASE` is mapped by `setupkvm`
  have hP : isP (m₂.entry d' (.ofVa KERNBASE)) := by
    rw [h.pages.outside _ (by decide), h.kernel.entry]
    exact isP_kernelPte_kernbase L
  have hva : 0 + 2 ^ 19 * PGSIZE = KERNBASE := by
    decide
  dsimp only
  rw [hva, copyLoop, wp_bind, wp_walkpgdir]
  cases m₂.table s (pdx KERNBASE) with
  | none => trivial
  | some t =>
    simp only [Option.map_some, wp_bind, wp_get]
    split
    · trivial
    · rw [wp_bind, wp_kalloc]
      constructor
      · intro _
        rw [wp_bind]
        exact (freevm_spec hpool).noFail.mono fun _ _ _ => rfl
      · intro f l hf
        obtain ⟨-, hentry, -⟩ := Trade.fill
          (c := m₂.page (pteAddr (m₂.page t (ptx KERNBASE)))) hpool.left hf
        rw [wp_bind, wp_modify, wp_bind]
        apply wp_mapPage_of_isP _ trivial
        rw [← hentry] at hP
        exact hP

/-! ### The copy -/

/-- The page directory `d` in `m'` is a copy of the first `sz` bytes of the page directory `s` in
`m`. -/
structure DeepCopy (L : Layout) (s sz d : Nat) (m m' : Memory) : Prop where
  flags : ∀ va < sz, pteFlags (m'.entry d (.ofVa va)) = pteFlags (m.entry s (.ofVa va))
  bytes : ∀ va < sz, ∃ b, load m' d va = some b ∧ load m s va = some b
  distinct : (m'.frames d).Nodup
  apart : ∀ f ∈ m'.owned d, f ∉ m.owned s
  /-- The page tables and the frames of `s` are as they were. -/
  parent : m'.owned s = m.owned s ∧ ∀ f ∈ m.owned s, m'.page f = m.page f
  above : ∀ e : Entry, e.1 < pdx KERNBASE → pgroundup sz ≤ PGSIZE * e.vpn →
    isP (m'.entry d e) = false
  /-- The kernel part is what `setupkvm` makes. -/
  kernel : ∀ m₀ d₀ m₁, Pool L m₀ 0 → setupkvm L m₀ = .ok (some d₀, m₁) →
    ∀ e : Entry, ¬ e.1 < pdx KERNBASE → m'.entry d e = m₁.entry d₀ e
  /-- What is written through one of them is not seen through the other. -/
  isolated : ∀ ws va, load (storeAll m' d ws) s va = load m' s va ∧
    load (storeAll m' s ws) d va = load m' d va

theorem pteFlags_or_of_isP {pte : UInt32} (h : isP pte) :
  pteFlags pte ||| PTE_P = pteFlags pte
  := by
  have hbit : (pteFlags pte).testBit 0 = true := by
    rw [pteFlags, show PGSIZE = 2 ^ 12 from rfl, Nat.testBit_mod_two_pow,
      decide_eq_true (by decide : 0 < 12), Bool.true_and]
    exact h
  apply Nat.eq_of_testBit_eq
  intro i
  rw [Nat.testBit_or]
  cases i with
  | zero => rw [hbit, Bool.true_or]
  | succ i =>
    rw [show PTE_P = 2 ^ 0 from rfl, Nat.testBit_two_pow_of_ne (Nat.succ_ne_zero i).symm,
      Bool.or_false]

/-- The pages of the parent and of the child. -/
theorem Copies.pool
    {n : Nat} (hp : Pool L m (m.owned s)) (h : Copies L s n d m m') :
  (m'.owned s = m.owned s ∧ ∀ f ∈ m.owned s, m'.page f = m.page f) ∧
    Pool L m' (m'.owned d + m'.owned s)
  := by
  obtain ⟨-, -, hpage⟩ := hp.entry_of_trade h.trade
  have howned : m'.owned s = m.owned s :=
    Memory.owned_congr fun f hf => hpage f (Multiset.mem_add.mpr (.inl hf))
  refine ⟨⟨howned, hpage⟩, ?_⟩
  have htrade := h.trade.frame (m.owned s)
  rw [zero_add] at htrade
  rw [howned]
  exact hp.trade htrade

/-- If `copyuvm` returns a page directory, it is a copy of the parent's memory that shares nothing
with it. -/
theorem copyuvm_deep
    (hp : Pool L m (m.owned s))
    (hpres : ∀ e : Entry, PGSIZE * e.vpn < pgroundup sz → isP (m.entry s e))
    (hcopy : copyuvm L s sz m = .ok (some d, m')) :
  DeepCopy L s sz d m m'
  := by
  rcases Nat.lt_or_ge KERNBASE sz with hlt | hsz
  · cases (copyuvm_of_lt hp hlt).of_ok hcopy
  have h : Copies L s (npages sz) d m m' := (copyuvm_spec hp hsz).of_ok hcopy
  obtain ⟨hparent, hpool⟩ := h.pool hp
  have hcopy : ∀ e : Entry, e.vpn < npages sz → isP (m.entry s e) ∧ isP (m'.entry d e) ∧
      pteFlags (m'.entry d e) = pteFlags (m.entry s e) ∧
      m'.page (pteAddr (m'.entry d e)) = m.page (pteAddr (m.entry s e)) := by
    intro e he
    obtain ⟨f, hf, hentry, hpage⟩ := h.inside e he
    have hrange : f < 2 ^ 20 :=
      (hpool.left.inRange (Multiset.mem_add.mpr (.inr hf))).lt
    have hperm := pteFlags_lt (m.entry s e)
    have hP : isP (m.entry s e) := by
      apply hpres
      rw [pgroundup_eq]
      simp only [PGSIZE]
      omega
    rw [hentry, isP_mkPte hrange hperm, pteFlags_mkPte hrange hperm, pteAddr_mkPte hrange hperm,
      pteFlags_or_of_isP hP]
    exact ⟨hP, rfl, rfl, hpage⟩
  have hvpn : ∀ va < sz, va < KERNBASE ∧ (Entry.ofVa va).vpn < npages sz := by
    intro va hva
    have hlt : va < KERNBASE := by
      omega
    use hlt
    rw [(vpn_ofVa_lt hlt).1, lt_npages_iff]
    simp only [PGSIZE]
    omega
  constructor
  · exact fun va hva => (hcopy _ (hvpn va hva).2).2.2.1
  · intro va hva
    obtain ⟨hlt, hv⟩ := hvpn va hva
    obtain ⟨hP, hP', -, hpage⟩ := hcopy _ hv
    rw [load, if_pos ⟨hlt, hP'⟩, load, if_pos ⟨hlt, hP⟩, hpage]
    exact ⟨_, rfl, rfl⟩
  · exact (Multiset.nodup_add.mp hpool.left.nodup_right).2.1
  · intro f hf
    rw [← hparent.1]
    exact Multiset.disjoint_left.mp (Multiset.nodup_add.mp hpool.nodup_right).2.2 hf
  · exact hparent
  · intro e he hge
    rw [user_iff] at he
    rw [pgroundup_eq] at hge
    rw [h.outside e (by simp only [PGSIZE] at hge; omega), kernelPte_of_lt, isP_zero]
    simp only [PGSIZE, KERNBASE]
    omega
  · intro m₀ d₀ m₁ hp₀ hsetup e he
    have hspec := (setupkvm_spec hp₀).of_ok hsetup
    have hle : npages sz ≤ 2 ^ 19 := by
      simp only [npages, PGSIZE, KERNBASE] at hsz ⊢
      omega
    rw [user_iff] at he
    rw [h.outside e (by omega), hspec.2.entry]
  · intro ws va
    have hpool' := hpool
    rw [add_comm] at hpool'
    exact ⟨load_storeAll hpool ws va, load_storeAll hpool' ws va⟩

/-- The memory of the first process is copied. -/
theorem copyuvm_deep_first :
  ∃ s d m', (kernelSys .sample).Reachable s ∧
    copyuvm .sample (s.proc 0).pgdir PGSIZE s.mem = .ok (some d, m') ∧
    DeepCopy .sample (s.proc 0).pgdir PGSIZE d s.mem m'
  := by
  obtain ⟨s, hreach, hinv, hstate, -, ⟨hspace, -, -⟩, -, hlen⟩ := exists_running
  have hi : (s.proc 0).HasImage := .of_running hstate
  have hp := hinv.owned hi
  have hpages : npages PGSIZE = 1 := by
    decide
  have hnot : ¬ ∃ e : Entry, e.vpn < npages PGSIZE ∧
      isP (s.mem.entry (s.proc 0).pgdir e) = false := by
    rintro ⟨e, he, hP⟩
    rw [hspace.full e he] at hP
    cases hP
  have hspec := (copyuvm_spec hp (by decide : PGSIZE ≤ KERNBASE)).fail fun _ h => hnot h
  obtain ⟨r, m', hcopy, hr⟩ := hspec.exists_ok
  cases r with
  | none =>
    rw [CopyFails, hlen, hpages] at hr
    obtain ⟨-, hr⟩ | ⟨-, -, j, hj, hr⟩ := hr
    · obtain hr | ⟨i, hi, hr⟩ := hr
      · omega
      · omega
    · omega
  | some d =>
    refine ⟨s, d, m', hreach.reachable, hcopy, copyuvm_deep hp ?_ hcopy⟩
    intro e he
    apply hspace.full
    rw [pgroundup_eq, hpages] at he
    simp only [PGSIZE] at he
    omega

end Xv6.Vm
