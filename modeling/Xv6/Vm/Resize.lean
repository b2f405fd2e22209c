import Xv6.Vm.Boot

/-!
# The user memory follows the size

A page directory whose user memory `allocuvm` and `deallocuvm` resize, each call from the size that
the last one left.  Between the calls the rest of the kernel takes and gives back pages, and the
contents of pages that are in use change.
-/

namespace Xv6.Vm

/-- `pte & PTE_W` -/
def isW (pte : UInt32) : Bool :=
  pte.toNat.testBit 1

/-- The memory and the size of the user memory. -/
structure Uvm where
  mem : Memory
  size : Nat

namespace Uvm

/-- What happens to the user memory and around it. -/
inductive Label where
  | alloc (newsz : Nat)
  | dealloc (newsz : Nat)
  /-- Another part of the kernel calls `kalloc`. -/
  | take
  /-- Another part of the kernel calls `kfree`. -/
  | give (f : Nat)
  /-- A page in use is overwritten. -/
  | write (f : Nat) (c : Page)

variable (L : Layout) (d : Nat)

/-- One step.  A call of `allocuvm` that fails keeps the size. -/
def next (s : Uvm) : Label → Option (Except Fault Uvm)
  | .alloc newsz =>
      match allocuvm L d s.size newsz s.mem with
      | .error f => some (.error f)
      | .ok (r, m) => some (.ok { mem := m, size := if r = 0 then s.size else r })
  | .dealloc newsz =>
      match deallocuvm L d s.size newsz s.mem with
      | .error f => some (.error f)
      | .ok (r, m) => some (.ok { mem := m, size := r })
  | .take =>
      match s.mem.freelist with
      | [] => none
      | _ :: l => some (.ok { s with mem := { s.mem with freelist := l } })
  | .give f =>
      if L.InRange f ∧ f ∉ s.mem.freelist ∧ f ∉ s.mem.owned d then
        some (.ok { s with mem := s.mem.free f })
      else none
  | .write f c =>
      if f ∉ s.mem.freelist ∧ f ∉ s.mem.tree d then
        some (.ok { s with mem := s.mem.setPage f c })
      else none

/-- Before the first call. -/
structure Initial (s : Uvm) : Prop where
  size : s.size = 0
  pool : Pool L s.mem (s.mem.owned d)
  empty : ∀ e : Entry, e.1 < pdx KERNBASE → isP (s.mem.entry d e) = false

/-- The page directory `d`. -/
def system : System Uvm Label Fault where
  init := Initial L d
  step := next L d

end Uvm

variable {L : Layout} {m m' : Memory} {d sz : Nat}

/-! ### The invariant -/

/-- The user pages are those below the size, and the user can write to them. -/
structure Tracks (L : Layout) (d : Nat) (m : Memory) (sz : Nat) : Prop where
  lt : sz < KERNBASE
  pool : Pool L m (m.owned d)
  mapped : ∀ e : Entry, e.1 < pdx KERNBASE → (isP (m.entry d e) ↔ e.vpn < npages sz)
  writable : ∀ e : Entry, e.1 < pdx KERNBASE → isP (m.entry d e) →
    isW (m.entry d e) ∧ isU (m.entry d e)

/-- The same entry and the same contents. -/
theorem userPage_congr
    {e : Entry} (hentry : m'.entry d e = m.entry d e)
    (hpage : isP (m.entry d e) → e.1 < pdx KERNBASE →
      m'.page (pteAddr (m.entry d e)) = m.page (pteAddr (m.entry d e))) :
  userPage m' d e = userPage m d e
  := by
  rw [userPage, userPage, hentry]
  split
  · rename_i h
    rw [hpage h.2 h.1]
  · rfl

theorem user_of_vpn_lt {e : Entry} (hsz : sz < KERNBASE) (he : e.vpn < npages sz) :
  e.1 < pdx KERNBASE
  := by
  have := npages_lt hsz
  exact (user_iff e).mpr (by omega)

namespace Tracks

section

variable (h : Tracks L d m sz)

include h

/-- The same entries. -/
theorem congr (hpool : Pool L m' (m'.owned d)) (hentry : m'.entry d = m.entry d) :
  Tracks L d m' sz
  := by
  constructor
  · exact h.lt
  · exact hpool
  · rw [hentry]
    exact h.mapped
  · rw [hentry]
    exact h.writable

/-- The pages that `allocuvm` adds. -/
theorem adds
    {newsz : Nat} {F : Multiset Nat} (hnew : newsz < KERNBASE)
    (ha : AddsZeros d (npages sz) (npages newsz) F m m') :
  Tracks L d m' newsz
  := by
  have hpool := h.pool.trade ha.trade_owned
  have hle := ha.le
  have hinside : ∀ e : Entry, npages sz ≤ e.vpn → e.vpn < npages newsz →
      isP (m'.entry d e) ∧ isW (m'.entry d e) ∧ isU (m'.entry d e) := by
    intro e hge hlt
    obtain ⟨f, hf, hentry, -⟩ := ha.inside e hge hlt
    have hmem : f ∈ m'.owned d := by
      rw [Memory.owned, ha.frames]
      simp [hf]
    have hrange := (hpool.inRange hmem).lt
    rw [hentry, isP_mkPte hrange (by decide), isW, testBit_mkPte hrange (by decide) (by decide),
      isU_mkPte hrange (by decide)]
    decide
  constructor
  · exact hnew
  · exact hpool
  · intro e he
    by_cases hin : npages sz ≤ e.vpn ∧ e.vpn < npages newsz
    · exact iff_of_true (hinside e hin.1 hin.2).1 hin.2
    · rw [ha.outside e hin, h.mapped e he]
      omega
  · intro e he hP
    by_cases hin : npages sz ≤ e.vpn ∧ e.vpn < npages newsz
    · exact (hinside e hin.1 hin.2).2
    · rw [ha.outside e hin] at hP ⊢
      exact h.writable e he hP

/-- The pages that `deallocuvm` takes away. -/
theorem clears
    {newsz : Nat} (hlt : newsz < sz)
    (hc : Clears d (fun e => npages newsz ≤ e.vpn ∧ e.vpn < npages sz) m m') :
  Tracks L d m' newsz
  := by
  have hle : npages newsz ≤ npages sz := by
    simp only [npages]
    exact Nat.div_le_div_right (by omega)
  have hsz := h.lt
  have hsub : ∀ e : Entry, isP (m'.entry d e) → m'.entry d e = m.entry d e := by
    intro e hP
    obtain ⟨-, hnot⟩ := hc.isP_of_isP hP
    exact hc.kept e fun hS => absurd hS hnot
  constructor
  · omega
  · exact h.pool.trade hc.trade_owned
  · intro e he
    constructor
    · intro hP
      obtain ⟨hP, hnot⟩ := hc.isP_of_isP hP
      rw [h.mapped e he] at hP
      omega
    · intro hv
      rw [hc.kept e fun hS => by omega, h.mapped e he]
      omega
  · intro e he hP
    have heq := hsub e hP
    rw [heq] at hP ⊢
    exact h.writable e he hP

/-- A call of `allocuvm` that fails. -/
theorem samePages (hs : SamePages d m m') (htrade : Trade (m.tree d) m (m'.tree d) m') :
  Tracks L d m' sz
  := by
  have hiff : ∀ e, isP (m'.entry d e) ↔ isP (m.entry d e) := by
    intro e
    constructor
    · exact hs.gone e
    · intro hP
      rw [hs.kept e hP]
      exact hP
  constructor
  · exact h.lt
  · exact h.pool.trade (htrade.owned hs.frame)
  · intro e he
    rw [hiff, h.mapped e he]
  · intro e he hP
    have hP' := (hiff e).mp hP
    rw [hs.kept e hP']
    exact h.writable e he hP'

end

/-- No page is mapped where the size is `0`. -/
theorem userPage_of_zero (h : Tracks L d m 0) (e : Entry) :
  userPage m d e = none
  := by
  apply userPage_eq_none
  intro he
  rw [← Bool.not_eq_true, h.mapped e he]
  exact Nat.not_lt_zero _

end Tracks

/-! ### The calls -/

/-- What `allocuvm` returns and does.  `0` is the failure. -/
structure Allocs (L : Layout) (d sz newsz r : Nat) (m m' : Memory) : Prop where
  tracks : Tracks L d m' (if r = 0 then sz else r)
  fails : r = 0 → userPage m' d = userPage m d
  size : r ≠ 0 → r = max sz newsz
  same : ∀ e : Entry, e.vpn < npages sz → userPage m' d e = userPage m d e
  zero : r ≠ 0 → ∀ e : Entry, npages sz ≤ e.vpn → e.vpn < npages r →
    ∃ pte, userPage m' d e = some (pte, .fill 0)

/-- Nothing was done. -/
theorem Allocs.refl {newsz r : Nat} (h : Tracks L d m sz) (hr : r ≠ 0 → r = sz ∧ newsz ≤ sz) :
  Allocs L d sz newsz r m m
  := by
  constructor
  · split
    · exact h
    · rename_i hne
      rw [(hr hne).1]
      exact h
  · exact fun _ => rfl
  · intro hne
    obtain ⟨rfl, hle⟩ := hr hne
    rw [Nat.max_eq_left hle]
  · exact fun _ _ => rfl
  · intro hne e hge hlt
    rw [(hr hne).1] at hlt
    omega

theorem Tracks.allocuvm_spec (h : Tracks L d m sz) (newsz : Nat) :
  Wp NoFault (allocuvm L d sz newsz) (fun r m' => Allocs L d sz newsz r m m') m
  := by
  rcases Nat.lt_or_ge newsz KERNBASE with hnew | hnew
  · rcases Nat.lt_or_ge newsz sz with hlt | hle
    · rw [wp_allocuvm_of_lt hnew hlt]
      exact .refl h fun _ => ⟨rfl, hlt.le⟩
    · have hempty : ∀ e : Entry, npages sz ≤ e.vpn ∧ e.vpn < npages newsz →
          isP (m.entry d e) = false := by
        intro e he
        rw [← Bool.not_eq_true, h.mapped e (user_of_vpn_lt hnew he.2)]
        omega
      apply (Vm.allocuvm_spec h.pool hnew hle hempty).mono
      rintro r m' (⟨rfl, F, hadds⟩ | ⟨rfl, hsame, htrade, -⟩)
      · have htracks := h.adds hnew hadds
        constructor
        · split
          · rename_i hr
            obtain rfl : sz = r := by
              omega
            exact htracks
          · exact htracks
        · rintro rfl
          obtain rfl : sz = 0 := by
            omega
          funext e
          rw [h.userPage_of_zero, htracks.userPage_of_zero]
        · exact fun _ => (Nat.max_eq_right hle).symm
        · intro e he
          apply userPage_congr (hadds.outside e (by omega))
          intro hP hu
          exact h.pool.same_of_mem hadds.trade (Space.mem_frames hu hP)
        · intro _ e hge hlt
          have he := user_of_vpn_lt hnew hlt
          obtain ⟨f, hf, hentry, hpage⟩ := hadds.inside e hge hlt
          have hmem : f ∈ m'.owned d := by
            rw [Memory.owned, hadds.frames]
            simp [hf]
          use m'.entry d e
          rw [userPage, if_pos ⟨he, (htracks.mapped e he).mpr hlt⟩, ← hpage, hentry,
            pteAddr_mkPte (htracks.pool.inRange hmem).lt (by decide)]
      · have hpages := hsame.userPage h.pool htrade
        constructor
        · rw [if_pos rfl]
          exact h.samePages hsame htrade
        · exact fun _ => hpages
        · exact fun hne => absurd rfl hne
        · exact fun e _ => congrFun hpages e
        · exact fun hne => absurd rfl hne
  · rw [wp_allocuvm_of_ge hnew]
    exact .refl h fun hne => absurd rfl hne

/-- What `deallocuvm` returns and does. -/
structure Deallocs (L : Layout) (d sz newsz r : Nat) (m m' : Memory) : Prop where
  tracks : Tracks L d m' r
  size : r = min sz newsz
  same : ∀ e : Entry, e.vpn < npages r → userPage m' d e = userPage m d e

theorem Tracks.deallocuvm_spec (h : Tracks L d m sz) (newsz : Nat) :
  Wp NoFault (deallocuvm L d sz newsz) (fun r m' => Deallocs L d sz newsz r m m') m
  := by
  rcases Nat.lt_or_ge newsz sz with hlt | hle
  · apply (Vm.deallocuvm_spec h.pool h.lt.le hlt).mono
    rintro r m' ⟨rfl, hc⟩
    have htracks := h.clears hlt hc
    refine ⟨htracks, (Nat.min_eq_right hlt.le).symm, ?_⟩
    intro e hv
    have hentry : m'.entry d e = m.entry d e := hc.kept e fun hS => by omega
    apply userPage_congr hentry
    intro hP he
    -- a page that stays mapped is not among those that are freed
    obtain ⟨F, hF, htrade⟩ := hc.trade
    have hpool := h.pool
    rw [Memory.owned, hF, ← add_assoc] at hpool
    apply hpool.same_of_mem htrade
    rw [← hentry] at hP ⊢
    exact Space.mem_frames he hP
  · rw [wp_deallocuvm_of_le hle]
    exact ⟨h, (Nat.min_eq_left hle).symm, fun _ _ => rfl⟩

/-! ### Runs -/

namespace Tracks

variable {f : Nat}

/-- Another part of the kernel calls `kalloc`. -/
theorem take {l : List Nat} (h : Tracks L d m sz) (hf : m.freelist = f :: l) :
  Tracks L d { m with freelist := l } sz
  := by
  have hle : (l : Multiset Nat) + m.owned d ≤ ↑m.freelist + m.owned d := by
    rw [hf, ← Multiset.cons_coe]
    exact Multiset.add_le_add_right (Multiset.le_cons_self _ f)
  have hpool : Pool L { m with freelist := l } (({ m with freelist := l } : Memory).owned d) :=
    ⟨Multiset.nodup_of_le hle h.pool.nodup,
      fun g hg => h.pool.range g (Multiset.mem_of_le hle hg)⟩
  exact h.congr hpool rfl

/-- Another part of the kernel calls `kfree`. -/
theorem give
    (h : Tracks L d m sz) (hrange : L.InRange f) (hfree : f ∉ m.freelist)
    (howned : f ∉ m.owned d) :
  Tracks L d (m.free f) sz
  := by
  have hpage : ∀ g ∈ m.tree d, (m.free f).page g = m.page g := by
    intro g hg
    apply Function.update_of_ne
    rintro rfl
    exact howned (Multiset.mem_add.mpr (.inl hg))
  apply h.congr _ (Memory.entry_congr hpage)
  rw [Memory.owned_congr hpage]
  have heq : (↑(m.free f).freelist : Multiset Nat) + m.owned d
      = f ::ₘ (↑m.freelist + m.owned d) := by
    rw [← Multiset.cons_add, Multiset.cons_coe]
    rfl
  constructor
  · rw [heq]
    apply Multiset.nodup_cons.mpr
    use fun hmem => (Multiset.mem_add.mp hmem).elim hfree howned
    exact h.pool.nodup
  · rw [heq]
    intro g hg
    obtain rfl | hg := Multiset.mem_cons.mp hg
    · exact hrange
    · exact h.pool.range g hg

/-- A page that is not part of the page tables is overwritten. -/
theorem write {c : Page} (h : Tracks L d m sz) (htree : f ∉ m.tree d) :
  Tracks L d (m.setPage f c) sz
  := by
  have hpage : ∀ g ∈ m.tree d, (m.setPage f c).page g = m.page g := by
    intro g hg
    apply Function.update_of_ne
    rintro rfl
    exact htree hg
  apply h.congr _ (Memory.entry_congr hpage)
  rw [Memory.owned_congr hpage]
  exact ⟨h.pool.nodup, h.pool.range⟩

end Tracks

/-- Every step keeps the invariant. -/
theorem Tracks.step {s : Uvm} (h : Tracks L d s.mem s.size) (l : Uvm.Label) :
  System.Outcome (fun _ => True) (fun s' => Tracks L d s'.mem s'.size) (s.next L d l)
  := by
  cases l with
  | alloc newsz =>
    obtain ⟨r, m', hcall, halloc⟩ := (h.allocuvm_spec newsz).exists_ok
    rw [Uvm.next.eq_def]
    dsimp only
    rw [hcall]
    exact halloc.tracks
  | dealloc newsz =>
    obtain ⟨r, m', hcall, hdealloc⟩ := (h.deallocuvm_spec newsz).exists_ok
    rw [Uvm.next.eq_def]
    dsimp only
    rw [hcall]
    exact hdealloc.tracks
  | take =>
    rw [Uvm.next.eq_def]
    dsimp only
    split
    · trivial
    · rename_i f l hf
      exact h.take hf
  | give f =>
    apply System.Outcome.guard
    exact fun hf => h.give hf.1 hf.2.1 hf.2.2
  | write f c =>
    apply System.Outcome.guard
    exact fun hf => h.write hf.2

theorem Uvm.Initial.tracks {s : Uvm} (h : Uvm.Initial L d s) :
  Tracks L d s.mem s.size
  := by
  have hzero : npages s.size = 0 := by
    rw [h.size]
    rfl
  constructor
  · rw [h.size]
    decide
  · exact h.pool
  · intro e he
    rw [h.empty e he, hzero]
    simp
  · intro e he hP
    rw [h.empty e he] at hP
    cases hP

/-- The user memory of a page directory. -/
structure UserMemory (L : Layout) (d : Nat) (m : Memory) (sz : Nat) : Prop where
  /-- The pages below the size are present, and no others. -/
  present : ∀ e : Entry, e.1 < pdx KERNBASE →
    (isP (m.entry d e) ↔ PGSIZE * e.vpn < pgroundup sz)
  /-- The user may write to them. -/
  writable : ∀ e : Entry, e.1 < pdx KERNBASE → isP (m.entry d e) →
    isW (m.entry d e) ∧ isU (m.entry d e)
  /-- Their frames are pages that `kalloc` gives out. -/
  allocated : ∀ e : Entry, e.1 < pdx KERNBASE → isP (m.entry d e) →
    L.InRange (pteAddr (m.entry d e)) ∧ pteAddr (m.entry d e) ∉ m.freelist ∧
      pteAddr (m.entry d e) ∉ m.tree d
  /-- No two of them have the same frame. -/
  own : ∀ e e' : Entry, e.1 < pdx KERNBASE → e'.1 < pdx KERNBASE →
    isP (m.entry d e) → isP (m.entry d e') → pteAddr (m.entry d e) = pteAddr (m.entry d e') → e = e'

theorem Tracks.userMemory (h : Tracks L d m sz) :
  UserMemory L d m sz
  := by
  have hnodup := Multiset.nodup_add.mp h.pool.nodup_right
  constructor
  · intro e he
    rw [h.mapped e he, pgroundup_eq]
    simp only [PGSIZE]
    omega
  · exact h.writable
  · intro e he hP
    have hmem := Space.mem_frames he hP
    have hmem' := Multiset.mem_add.mpr (.inr hmem : _ ∈ m.tree d ∨ _)
    refine ⟨h.pool.inRange hmem', h.pool.notMem_freelist hmem', ?_⟩
    exact fun hx => Multiset.disjoint_left.mp hnodup.2.2 hx hmem
  · intro e e' he he' hP hP' heq
    have hframe : m.frame d e = some (pteAddr (m.entry d e)) := if_pos ⟨he, hP⟩
    have hframe' : m.frame d e' = some (pteAddr (m.entry d e)) := by
      rw [heq]
      exact if_pos ⟨he', hP'⟩
    exact eq_of_nodup_held hnodup.2.1 hframe hframe'

/-- However `allocuvm` and `deallocuvm` resize a user memory that starts empty: its pages are those
below the size, with frames of their own; new pages are zero; pages that stay keep their contents; a
call of `allocuvm` that fails changes no page; and neither these calls nor `copyuvm` panic. -/
theorem uvm_tracks_size {s : Uvm} (h : (Uvm.system L d).Reachable s) :
  UserMemory L d s.mem s.size ∧
  (∀ newsz r m', allocuvm L d s.size newsz s.mem = .ok (r, m') →
    (r = 0 → userPage m' d = userPage s.mem d) ∧
    (r ≠ 0 → r = max s.size newsz ∧
      (∀ e : Entry, e.vpn < npages s.size → userPage m' d e = userPage s.mem d e) ∧
      ∀ e : Entry, npages s.size ≤ e.vpn → e.vpn < npages r →
        ∃ pte, userPage m' d e = some (pte, .fill 0))) ∧
  (∀ newsz r m', deallocuvm L d s.size newsz s.mem = .ok (r, m') →
    r = min s.size newsz ∧
      ∀ e : Entry, e.vpn < npages r → userPage m' d e = userPage s.mem d e) ∧
  (∀ l f, (Uvm.system L d).step s l ≠ some (.error f)) ∧
  ∀ f, copyuvm L d s.size s.mem ≠ .error f
  := by
  obtain ⟨htracks, hstep⟩ :=
    System.Reach.outcome (fun _ hs => Uvm.Initial.tracks hs) (fun _ l hs _ => Tracks.step hs l) h
  refine ⟨htracks.userMemory, ?_, ?_, ?_, ?_⟩
  · intro newsz r m' hcall
    have halloc := (htracks.allocuvm_spec newsz).of_ok hcall
    exact ⟨halloc.fails, fun hr => ⟨halloc.size hr, halloc.same, halloc.zero hr⟩⟩
  · intro newsz r m' hcall
    have hdealloc := (htracks.deallocuvm_spec newsz).of_ok hcall
    exact ⟨hdealloc.size, hdealloc.same⟩
  · exact fun l f hf => hstep l trivial f hf trivial
  · intro f hf
    have hcopy := copyuvm_spec htracks.pool htracks.lt.le
    rw [Wp, hf] at hcopy
    obtain ⟨e, hv, hP⟩ := hcopy
    rw [(htracks.mapped e (user_of_vpn_lt htracks.lt hv)).mpr hv] at hP
    cases hP

/-- A page directory without any page tables, and eight free pages. -/
def Uvm.small : Uvm where
  mem := { page := fun _ => .fill 0, freelist := List.range' 601 8, refreed := [] }
  size := 0

theorem Uvm.small_initial : Uvm.Initial .sample 600 Uvm.small
  := by
  have htable : ∀ j, Uvm.small.mem.table 600 j = none := table_of_fill rfl
  have hentry : ∀ e, Uvm.small.mem.entry 600 e = 0 := fun e => Memory.entry_of_none (htable e.1)
  have hframe : ∀ e, Uvm.small.mem.frame 600 e = none := by
    intro e
    rw [Memory.frame, hentry, Entry.frame, isP_zero, if_neg]
    simp
  have howned : Uvm.small.mem.owned 600 = {600} := by
    rw [Memory.owned, Memory.tree, held_eq_zero htable, Memory.frames, held_eq_zero hframe]
    rfl
  constructor
  · rfl
  · rw [howned]
    constructor
    · decide
    · decide
  · intro e _
    rw [hentry, isP_zero]

/-- Two pages are added and one is taken away; then a call fails at the last of the pages it
needs. -/
theorem uvm_tracks_size_small :
  ∃ s, (Uvm.system .sample 600).Reachable s ∧ s.size = 100 ∧ UserMemory .sample 600 s.mem 100
  := by
  obtain ⟨s, -, hs, hsize⟩ := System.exists_of_run (Uvm.system .sample 600) Uvm.small_initial
    [.alloc 5000, .dealloc 100, .alloc 32768] (·.size = 100) (by decide +kernel)
  refine ⟨s, hs, hsize, ?_⟩
  rw [← hsize]
  exact (uvm_tracks_size hs).1

end Xv6.Vm
