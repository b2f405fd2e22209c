import Mathlib.Data.List.Range
import Xv6.Log.Commit

/-!
# Crash atomicity of the log

A transaction that loses power at any block write, followed by recoveries that may lose power as
well, leaves the home blocks as they were or with all updates of the transaction, and the log
empty.  The disk is at every moment in one of three conditions: the log is empty and the home
blocks are old, the log holds the transaction, or the log is empty and the home blocks are new.
-/

namespace Xv6.Log

variable {L : Region} {m : Machine} {disk : Disk}

/-! ### The loops -/

/-- The writes of copying buffers, when no source is a target. -/
theorem foldl_copy
    {ps : List (Nat × Nat)} (h : ∀ p ∈ ps, ∀ p' ∈ ps, p.1 ≠ p'.2) (m : Machine) :
  ps.foldl (fun m p => m.copy p.1 p.2) m =
    { m with buf := applyWrites m.buf (ps.map fun p => (p.2, m.buf p.1)),
             writes := m.writes ++ ps.map fun p => (p.2, m.buf p.1) }
  := by
  induction ps generalizing m with
  | nil => simp
  | cons p ps ih =>
    have hbuf : ∀ p' ∈ ps, (m.copy p.1 p.2).buf p'.1 = m.buf p'.1 := by
      intro p' hp'
      apply Function.update_of_ne
      apply h p' (List.mem_cons_of_mem p hp') p List.mem_cons_self
    have hmap : (ps.map fun p' => (p'.2, (m.copy p.1 p.2).buf p'.1))
        = ps.map fun p' => (p'.2, m.buf p'.1) := by
      apply List.map_congr_left
      intro p' hp'
      rw [hbuf p' hp']
    rw [List.foldl_cons, ih]
    · rw [hmap]
      simp [Machine.copy, Machine.bwrite, Machine.setBuf]
    · intro p₁ h₁ p₂ h₂
      apply h p₁ (List.mem_cons_of_mem p h₁) p₂ (List.mem_cons_of_mem p h₂)

theorem storeHeader_zero (m : Machine) (hb : Block) :
  (storeHeader m hb).word 0 = m.n.toUInt32
  := by
  rw [storeHeader]
  induction m.tails using List.reverseRecOn with
  | nil => apply Block.word_setWord_self (by decide)
  | append_singleton is i ih =>
    rw [List.foldl_append, List.foldl_cons, List.foldl_nil, Block.word_setWord_of_ne (by omega), ih]

/-- The entries of the header are stored behind the first word. -/
theorem storeHeader_succ
    (hb : Block) (hn : m.n.toInt ≤ LOGSIZE) {i : Nat} (hi : i ∈ m.tails) :
  (storeHeader m hb).word (i + 1) = m.block i
  := by
  have hbound : ∀ j ∈ m.tails, j + 1 < Block.nwords := by
    intro j hj
    rw [Machine.tails, List.mem_range] at hj
    simp only [LOGSIZE, MAXOPBLOCKS, Block.nwords, BSIZE] at hn ⊢
    omega
  rw [storeHeader]
  generalize m.tails = is at hi hbound ⊢
  induction is using List.reverseRecOn with
  | nil => cases hi
  | append_singleton is j ih =>
    rw [List.foldl_append, List.foldl_cons, List.foldl_nil]
    rcases eq_or_ne i j with rfl | hij
    · apply Block.word_setWord_self (hbound i hi)
    · rw [Block.word_setWord_of_ne (by omega)]
      apply ih
      · simpa [hij] using hi
      · intro k hk
        apply hbound k (List.mem_append_left _ hk)

/-! ### The transaction in memory -/

/-- The blocks of a transaction with their contents. -/
abbrev Updates : Type := List (UInt32 × Block)

variable {us : Updates}

/-- What a transaction may log: distinct blocks outside the log, and not more than fit. -/
structure Loggable (L : Region) (us : Updates) : Prop where
  nodup : (us.map Prod.fst).Nodup
  home : ∀ u ∈ us, L.Home u.1.toNat
  size : us.length + 1 ≤ L.size
  entries : us.length ≤ LOGSIZE

/-- The in-memory header lists the blocks of `us`. -/
structure Listed (us : Updates) (m : Machine) : Prop where
  n : m.n.toInt = us.length
  block : ∀ i (hi : i < us.length), m.block i = us[i].1

theorem Listed.tails (h : Listed us m) :
  m.tails = List.range us.length
  := by
  rw [Machine.tails, h.n, Int.toNat_natCast]

/-- The writes of `write_log` for the blocks of `us`. -/
def logWrites (L : Region) (us : Updates) : List (Nat × Block) :=
  us.mapIdx fun i u => (L.start + i + 1, u.2)

/-- The writes of `install_trans` for the blocks of `us`. -/
def homeWrites (us : Updates) : List (Nat × Block) :=
  us.map fun u => (u.1.toNat, u.2)

theorem not_home_of_mem_logWrites
    (hl : Loggable L us) {w : Nat × Block} (h : w ∈ logWrites L us) :
  L.start < w.1 ∧ ¬ L.Home w.1
  := by
  obtain ⟨i, hi, rfl⟩ := List.mem_mapIdx.mp h
  have := hl.size
  simp only [Region.Home]
  omega

/-- An entry of the header is the number of a home block. -/
theorem Listed.home (h : Listed us m) (hl : Loggable L us) {i : Nat} (hi : i < us.length) :
  L.Home (m.block i).toNat
  := by
  rw [h.block i hi]
  apply hl.home _ (List.getElem_mem hi)

/-- The copying loops run over the entries of the header, which they do not change. -/
theorem Listed.foldl_copy
    (h : Listed us m) (src dst : (Nat → UInt32) → Nat → Nat) {ws : List (Nat × Block)}
    (hne : ∀ i < us.length, ∀ j < us.length, src m.block i ≠ dst m.block j)
    (hlen : ws.length = us.length)
    (hws : ∀ i (hi : i < ws.length), ws[i] = (dst m.block i, m.buf (src m.block i))) :
  m.tails.foldl (fun m i => m.copy (src m.block i) (dst m.block i)) m
    = { m with buf := applyWrites m.buf ws, writes := m.writes ++ ws }
  := by
  have hfold : ∀ (is : List Nat) (m : Machine),
      is.foldl (fun m i => m.copy (src m.block i) (dst m.block i)) m
        = (is.map fun i => (src m.block i, dst m.block i)).foldl (fun m p => m.copy p.1 p.2) m := by
    intro is
    induction is with
    | nil => exact fun _ => rfl
    | cons i is ih => exact fun m => ih _
  have hmap : ws = (List.range us.length).map fun i => (dst m.block i, m.buf (src m.block i)) := by
    apply List.ext_getElem
    · simp [hlen]
    · intro i hi hi'
      simp [hws i hi]
  rw [hfold, h.tails, Log.foldl_copy, List.map_map, hmap]
  · rfl
  · intro p hp p' hp'
    obtain ⟨i, hi, rfl⟩ := List.mem_map.mp hp
    obtain ⟨j, hj, rfl⟩ := List.mem_map.mp hp'
    exact hne i (List.mem_range.mp hi) j (List.mem_range.mp hj)

/-- `write_log` writes the contents of the blocks to the log. -/
theorem writeLog_eq
    (h : Listed us m) (hl : Loggable L us)
    (hbuf : ∀ i (hi : i < us.length), m.buf us[i].1.toNat = us[i].2) :
  writeLog L m = { m with buf := applyWrites m.buf (logWrites L us),
                          writes := m.writes ++ logWrites L us }
  := by
  apply h.foldl_copy (fun block i => (block i).toNat) (fun _ i => L.start + i + 1)
  · intro i hi j hj
    have := h.home hl hi
    have := hl.size
    simp only [Region.Home] at *
    omega
  · simp [logWrites]
  · intro i hi
    have hlt : i < us.length := by
      simpa [logWrites] using hi
    simp [logWrites, h.block i hlt, hbuf i hlt]

/-- `install_trans` writes the logged contents to the home locations. -/
theorem installTrans_eq
    (h : Listed us m) (hl : Loggable L us)
    (hbuf : ∀ i (hi : i < us.length), m.buf (L.start + i + 1) = us[i].2) :
  installTrans L m = { m with buf := applyWrites m.buf (homeWrites us),
                              writes := m.writes ++ homeWrites us }
  := by
  apply h.foldl_copy (fun _ i => L.start + i + 1) (fun block i => (block i).toNat)
  · intro i hi j hj
    have := h.home hl hj
    have := hl.size
    simp only [Region.Home] at *
    omega
  · simp [homeWrites]
  · intro i hi
    have hlt : i < us.length := by
      simpa [homeWrites] using hi
    simp [homeWrites, h.block i hlt, hbuf i hlt]

/-! ### Conditions of the disk -/

/-- The header on the disk lists no block. -/
def Empty (L : Region) (disk : Disk) : Prop :=
  (disk L.start).word 0 = 0

/-- The log on the disk holds the transaction `us`. -/
structure Committed (L : Region) (us : Updates) (disk : Disk) : Prop where
  n : (disk L.start).word 0 = UInt32.ofNat us.length
  block : ∀ i (hi : i < us.length), (disk L.start).word (i + 1) = us[i].1
  data : ∀ i (hi : i < us.length), disk (L.start + i + 1) = us[i].2

/-- The two disks have the same home blocks. -/
def HomeEq (L : Region) (disk disk' : Disk) : Prop :=
  ∀ b, L.Home b → disk' b = disk b

/-- Nothing is pending: the log is empty and the buffers agree with the disk. -/
structure Idle (L : Region) (disk : Disk) (m : Machine) : Prop where
  empty : Empty L disk
  n : m.n = 0
  buf : m.buf = disk
  writes : m.writes = []

theorem HomeEq.trans {d₁ d₂ d₃ : Disk} (h : HomeEq L d₁ d₂) (h' : HomeEq L d₂ d₃) :
  HomeEq L d₁ d₃
  := by
  intro b hb
  rw [h' b hb, h b hb]

/-- An empty log holds the transaction without updates. -/
theorem Empty.committed (h : Empty L disk) :
  Committed L [] disk
  := by
  constructor
  · apply h
  · intro i hi
    cases hi
  · intro i hi
    cases hi

/-- Writes outside the home blocks keep the home blocks. -/
theorem homeEq_applyWrites {ws : List (Nat × Block)} (h : ∀ w ∈ ws, ¬ L.Home w.1) :
  HomeEq L disk (applyWrites disk ws)
  := by
  intro b hb
  apply applyWrites_of_notMem
  rintro w hw rfl
  apply h w hw hb

theorem not_home_start (hl : Loggable L us) :
  ¬ L.Home L.start
  := by
  have := hl.size
  simp only [Region.Home]
  omega

/-- Writing the header keeps the home blocks. -/
theorem homeEq_head (hl : Loggable L us) (disk : Disk) (hb : Block) :
  HomeEq L disk (applyWrites disk [(L.start, hb)])
  := by
  apply homeEq_applyWrites
  intro w hw
  rw [List.mem_singleton.mp hw]
  apply not_home_start hl

/-- Writes to home blocks keep the log. -/
theorem Committed.of_homeWrites
    (h : Committed L us disk) (hl : Loggable L us) {ws : List (Nat × Block)}
    (hws : ∀ w ∈ ws, L.Home w.1) :
  Committed L us (applyWrites disk ws)
  := by
  have hkeep : ∀ b, ¬ L.Home b → applyWrites disk ws b = disk b := by
    intro b hb
    apply applyWrites_of_notMem
    rintro w hw rfl
    apply hb (hws w hw)
  have hsize := hl.size
  constructor
  · rw [hkeep _ (not_home_start hl), h.n]
  · intro i hi
    rw [hkeep _ (not_home_start hl), h.block i hi]
  · intro i hi
    rw [hkeep _, h.data i hi]
    simp only [Region.Home]
    omega

theorem Loggable.of_append {us us' : Updates} (h : Loggable L (us ++ us')) :
  Loggable L us
  := by
  have hsize := h.size
  have hentries := h.entries
  rw [List.length_append] at hsize hentries
  constructor
  · have hnd := h.nodup
    rw [List.map_append, List.nodup_append] at hnd
    apply hnd.1
  · intro u hu
    apply h.home u (List.mem_append_left _ hu)
  · omega
  · omega

theorem loggable_nil (hl : Loggable L us) :
  Loggable L []
  := by
  rw [← List.nil_append us] at hl
  apply hl.of_append

/-- Wherever the installation of a transaction stops, the log holds what is left to install. -/
theorem Committed.take
    (h : Committed L us disk) (hl : Loggable L us) {hb : Block} (hzero : hb.word 0 = 0) (k : Nat) :
  ∃ us', Loggable L us' ∧
    Committed L us' (applyWrites disk ((homeWrites us ++ [(L.start, hb)]).take k)) ∧
    HomeEq L (applyWrites disk (homeWrites us))
      (applyWrites (applyWrites disk ((homeWrites us ++ [(L.start, hb)]).take k)) (homeWrites us'))
  := by
  by_cases hk : k ≤ (homeWrites us).length
  · -- the log still holds the transaction
    rw [List.take_append_of_le_length hk]
    refine ⟨us, hl, h.of_homeWrites hl ?_, ?_⟩
    · intro w hw
      obtain ⟨u, hu, rfl⟩ := List.mem_map.mp (List.mem_of_mem_take hw)
      apply hl.home u hu
    · rw [applyWrites_take]
      exact fun _ _ => rfl
  · -- the log is empty again
    rw [List.take_of_length_le (by simp; omega), applyWrites_append]
    refine ⟨[], loggable_nil hl, Empty.committed ?_, homeEq_head hl _ hb⟩
    simp [Empty, hzero]

/-! ### Recovery -/

theorem toInt_ofNat_toInt32 {k : Nat} (hk : k ≤ LOGSIZE) :
  (UInt32.ofNat k).toInt32.toInt = k
  := by
  have hlt : k < 2 ^ 31 := by
    simp only [LOGSIZE, MAXOPBLOCKS] at hk
    omega
  rw [UInt32.toInt32_ofNat']
  apply Int32.toInt_ofNat_of_lt hlt

theorem writeHead_eq (m : Machine) :
  writeHead L m =
    { m with buf := Function.update m.buf L.start (storeHeader m (m.buf L.start)),
             writes := m.writes ++ [(L.start, storeHeader m (m.buf L.start))] }
  := by
  simp [writeHead, Machine.setBuf, Machine.bwrite]

/-- Recovery installs the transaction in the log and then empties the log. -/
theorem recoverFromLog_spec (hl : Loggable L us) (h : Committed L us disk) :
  ∃ m hb, recoverFromLog L (restarted disk) = .ok m ∧ m.n = 0 ∧
    m.writes = homeWrites us ++ [(L.start, hb)] ∧ hb.word 0 = 0 ∧
    m.buf = applyWrites disk m.writes
  := by
  have hn : ((disk L.start).word 0).toInt32.toInt = us.length := by
    rw [h.n, toInt_ofNat_toInt32 hl.entries]
  let m₁ : Machine :=
    { restarted disk with
      n := ((disk L.start).word 0).toInt32,
      block := fun i => if i < us.length then (disk L.start).word (i + 1) else 0 }
  have hread : readHead L (restarted disk) = .ok m₁ := by
    have hle : ¬ (us.length : Int) > LOGSIZE := by
      have := hl.entries
      omega
    simp only [readHead, restarted, hn, if_neg hle, Int.toNat_natCast, m₁]
  have hlisted : Listed us m₁ := by
    constructor
    · apply hn
    · intro i hi
      simp only [m₁, if_pos hi]
      apply h.block i hi
  have hinstall := installTrans_eq hlisted hl h.data
  let m₂ : Machine := { installTrans L m₁ with n := 0 }
  have hwrites₂ : m₂.writes = homeWrites us := by
    simp only [m₂]
    rw [hinstall]
    rfl
  have hbuf₂ : m₂.buf = applyWrites disk (homeWrites us) := by
    simp only [m₂]
    rw [hinstall]
    rfl
  use writeHead L m₂, storeHeader m₂ (m₂.buf L.start)
  and_intros
  · rw [recoverFromLog, hread]
    rfl
  · rfl
  · rw [writeHead_eq, hwrites₂]
  · rw [storeHeader_zero]
    rfl
  · simp only [writeHead_eq, hwrites₂, hbuf₂, applyWrites_append, applyWrites_cons,
      applyWrites_nil]

/-- A completed recovery leaves the log empty and the home blocks with the transaction. -/
theorem idle_of_recovered
    (hl : Loggable L us) {hb : Block} (hzero : hb.word 0 = 0) (hm : m.n = 0)
    (hbuf : m.buf = applyWrites disk (homeWrites us ++ [(L.start, hb)])) :
  Idle L (applyWrites disk (homeWrites us ++ [(L.start, hb)])) { m with writes := [] } ∧
    HomeEq L (applyWrites disk (homeWrites us))
      (applyWrites disk (homeWrites us ++ [(L.start, hb)]))
  := by
  constructor
  · constructor
    · rw [Empty, applyWrites_append]
      simp [hzero]
    · apply hm
    · apply hbuf
    · rfl
  · rw [applyWrites_append]
    apply homeEq_head hl

/-- Restarting on a disk whose log holds a transaction installs the transaction, no matter how
often recovery is interrupted. -/
theorem reboot_spec (ks : List Nat) :
  ∀ {us disk}, Loggable L us → Committed L us disk →
    ∃ disk' m, reboot L disk ks = .ok (disk', m) ∧ Idle L disk' m ∧
      HomeEq L (applyWrites disk (homeWrites us)) disk'
  := by
  induction ks with
  | nil =>
    intro us disk hl h
    obtain ⟨m, hb, hm, hn, hwrites, hzero, hbuf⟩ := recoverFromLog_spec hl h
    rw [hwrites] at hbuf
    obtain ⟨hidle, hhome⟩ := idle_of_recovered hl hzero hn hbuf
    refine ⟨_, _, ?_, hidle, hhome⟩
    simp only [reboot, hm, bind, Except.bind, hwrites]
  | cons k ks ih =>
    intro us disk hl h
    obtain ⟨m, hb, hm, hn, hwrites, hzero, hbuf⟩ := recoverFromLog_spec hl h
    have hstep : reboot L disk (k :: ks) = reboot L (applyWrites disk (m.writes.take k)) ks := by
      simp only [reboot, hm, bind, Except.bind]
    obtain ⟨us', hl', hc, hhome⟩ := h.take hl hzero k
    rw [← hwrites] at hc hhome
    obtain ⟨disk', m', hr, hidle, hhome'⟩ := ih hl' hc
    exact ⟨disk', m', hstep.trans hr, hidle, hhome.trans hhome'⟩

/-! ### Logging and committing -/

theorem toInt_add_one {x : Int32} {k : Nat} (hx : x.toInt = k) (hk : k < LOGSIZE) :
  (x + 1).toInt = (k + 1 : Nat)
  := by
  simp only [LOGSIZE, MAXOPBLOCKS] at hk
  rw [Int32.toInt_add, hx, Int32.toInt_one]
  rw [Int.bmod_eq_of_le] <;> omega

/-- `log_write` of a block that is not yet listed lists it. -/
theorem update_spec
    {u : UInt32 × Block} (h : Listed us m) (hl : Loggable L (us ++ [u]))  :
  ∃ m', update L m u = .ok m' ∧ Listed (us ++ [u]) m' ∧
    m'.buf = Function.update m.buf u.1.toNat u.2 ∧ m'.writes = m.writes
  := by
  have hsize := hl.size
  have hentries := hl.entries
  rw [List.length_append, List.length_singleton] at hsize hentries
  have hroom : ¬ (m.n.toInt ≥ LOGSIZE ∨ m.n.toInt ≥ (L.size : Int) - 1) := by
    rw [h.n]
    omega
  have hnew : u.1 ∉ us.map Prod.fst := by
    have hnd := hl.nodup
    rw [List.map_append, List.map_singleton, List.nodup_append] at hnd
    intro hu
    apply hnd.2.2 _ hu _ (List.mem_singleton_self _) rfl
  have hfind : findEntry (m.setBuf u.1.toNat u.2) u.1 = us.length := by
    have hnone : (List.range us.length).find? (fun i => m.block i = u.1) = none := by
      rw [List.find?_eq_none]
      intro i hi heq
      rw [List.mem_range] at hi
      apply hnew
      rw [← of_decide_eq_true heq, h.block i hi]
      apply List.mem_map_of_mem (List.getElem_mem hi)
    have htails : (m.setBuf u.1.toNat u.2).tails = List.range us.length := h.tails
    simp only [findEntry, htails]
    rw [show (m.setBuf u.1.toNat u.2).block = m.block from rfl, hnone, Option.getD_none]
    simp [Machine.setBuf, h.n]
  have hn : (m.setBuf u.1.toNat u.2).n = m.n := rfl
  refine ⟨{ m.setBuf u.1.toNat u.2 with
      block := Function.update m.block us.length u.1, n := m.n + 1 }, ?_, ?_, rfl, rfl⟩
  · rw [update, logWrite, hn, if_neg hroom]
    simp only [hfind, h.n, Int.toNat_natCast, if_true]
    rfl
  · constructor
    · rw [List.length_append, List.length_singleton]
      apply toInt_add_one h.n (by omega)
    · intro i hi
      rw [List.length_append, List.length_singleton] at hi
      rcases eq_or_ne i us.length with rfl | hne
      · simp
      · have hlt : i < us.length := by
          omega
        simp [hne, List.getElem_append_left hlt, h.block i hlt]

/-- Modifying and logging blocks lists them, and only the buffers change. -/
theorem foldlM_update (hl : Loggable L us) (hidle : Idle L disk m) :
  ∃ m', us.foldlM (update L) m = .ok m' ∧ Listed us m' ∧
    m'.buf = applyWrites disk (homeWrites us) ∧ m'.writes = []
  := by
  induction us using List.reverseRecOn with
  | nil =>
    refine ⟨m, rfl, ⟨?_, ?_⟩, hidle.buf, hidle.writes⟩
    · rw [hidle.n]
      rfl
    · intro i hi
      cases hi
  | append_singleton us u ih =>
    obtain ⟨m₁, hm₁, hlisted, hbuf, hwrites⟩ := ih hl.of_append
    obtain ⟨m₂, hm₂, hlisted₂, hbuf₂, hwrites₂⟩ := update_spec hlisted hl
    refine ⟨m₂, ?_, hlisted₂, ?_, hwrites₂.trans hwrites⟩
    · rw [List.foldlM_append, hm₁]
      simp [bind, Except.bind, hm₂, pure, Except.pure]
    · have happ : homeWrites (us ++ [u]) = homeWrites us ++ [(u.1.toNat, u.2)] := by
        simp [homeWrites]
      rw [hbuf₂, hbuf, happ, applyWrites_append]
      rfl

theorem homeWrites_nodup (hl : Loggable L us) :
  ((homeWrites us).map Prod.fst).Nodup
  := by
  have hmap : (homeWrites us).map Prod.fst = (us.map Prod.fst).map UInt32.toNat := by
    simp [homeWrites]
  rw [hmap]
  apply hl.nodup.map
  intro a b hab
  apply UInt32.toNat_inj.mp hab

theorem logWrites_nodup (L : Region) (us : Updates) :
  ((logWrites L us).map Prod.fst).Nodup
  := by
  have hmap : (logWrites L us).map Prod.fst
      = (List.range us.length).map fun i => L.start + i + 1 := by
    apply List.ext_getElem
    · simp [logWrites]
    · intro i hi hi'
      simp [logWrites]
  rw [hmap]
  apply List.nodup_range.map
  intro i j hij
  simpa using hij

/-- The log blocks after `write_log`. -/
theorem applyWrites_logWrites {f : Nat → Block} {i : Nat} (hi : i < us.length) :
  applyWrites f (logWrites L us) (L.start + i + 1) = us[i].2
  := by
  apply applyWrites_of_mem (logWrites_nodup L us)
  rw [logWrites, List.mem_mapIdx]
  use i, hi

theorem pos_of_listed (h : Listed us m) (hne : us ≠ []) :
  m.n > 0
  := by
  have := List.length_pos_iff.mpr hne
  rw [gt_iff_lt, Int32.lt_iff_toInt_lt, h.n]
  simpa using this

theorem toUInt32_of_toInt {x : Int32} {k : Nat} (hx : x.toInt = k) (hk : k ≤ LOGSIZE) :
  x.toUInt32 = UInt32.ofNat k
  := by
  have heq : x = (UInt32.ofNat k).toInt32 := by
    apply Int32.toInt_inj.mp
    rw [hx, toInt_ofNat_toInt32 hk]
  rw [heq, UInt32.toUInt32_toInt32]

/-- The block writes of `commit`. -/
theorem commit_spec
    (hl : Loggable L us) (hne : us ≠ []) (h : Listed us m)
    (hbuf : m.buf = applyWrites disk (homeWrites us)) (hwrites : m.writes = []) :
  ∃ hb hb', (commit L m).writes
      = logWrites L us ++ (L.start, hb) :: (homeWrites us ++ [(L.start, hb')]) ∧
    hb.word 0 = UInt32.ofNat us.length ∧
    (∀ i (hi : i < us.length), hb.word (i + 1) = us[i].1) ∧ hb'.word 0 = 0 ∧
    (commit L m).n = 0 ∧
    (commit L m).buf = applyWrites m.buf (commit L m).writes
  := by
  have hhome : ∀ i (hi : i < us.length), m.buf us[i].1.toNat = us[i].2 := by
    intro i hi
    rw [hbuf]
    apply applyWrites_of_mem (homeWrites_nodup hl)
    apply List.mem_map_of_mem (List.getElem_mem hi)
  have h₁ := writeLog_eq h hl hhome
  have hlisted₁ : Listed us (writeLog L m) := by
    rw [h₁]
    exact ⟨h.n, h.block⟩
  let hb := storeHeader (writeLog L m) ((writeLog L m).buf L.start)
  let m₂ := writeHead L (writeLog L m)
  have h₂ : m₂ = { m with buf := Function.update (applyWrites m.buf (logWrites L us)) L.start hb,
                          writes := logWrites L us ++ [(L.start, hb)] } := by
    simp only [m₂, hb, writeHead_eq, h₁, hwrites, List.nil_append]
  have hlisted₂ : Listed us m₂ := by
    rw [h₂]
    exact ⟨h.n, h.block⟩
  have hlog : ∀ i (hi : i < us.length), m₂.buf (L.start + i + 1) = us[i].2 := by
    intro i hi
    have hbuf₂ : m₂.buf = Function.update (applyWrites m.buf (logWrites L us)) L.start hb := by
      rw [h₂]
    rw [hbuf₂, Function.update_of_ne (by omega)]
    apply applyWrites_logWrites hi
  have h₃ := installTrans_eq hlisted₂ hl hlog
  let m₃ : Machine := { installTrans L m₂ with n := 0 }
  have hcommit : commit L m = writeHead L m₃ := by
    rw [commit, if_pos (pos_of_listed h hne)]
  have hwrites₃ : m₃.writes = logWrites L us ++ (L.start, hb) :: homeWrites us := by
    simp only [m₃]
    rw [h₃, h₂]
    simp
  have hbuf₃ : m₃.buf = applyWrites m.buf m₃.writes := by
    rw [hwrites₃, applyWrites_append, applyWrites_cons]
    simp only [m₃]
    rw [h₃, h₂]
  use hb, storeHeader m₃ (m₃.buf L.start)
  and_intros
  · rw [hcommit, writeHead_eq, hwrites₃]
    simp
  · rw [storeHeader_zero]
    apply toUInt32_of_toInt hlisted₁.n hl.entries
  · intro i hi
    rw [storeHeader_succ, hlisted₁.block i hi]
    · rw [hlisted₁.n]
      have := hl.entries
      omega
    · rw [hlisted₁.tails, List.mem_range]
      apply hi
  · rw [storeHeader_zero]
    rfl
  · rw [hcommit, writeHead_eq]
  · rw [hcommit, writeHead_eq, applyWrites_append, ← hbuf₃]
    rfl

/-! ### Transactions -/

/-- The log blocks and the header after the commit point. -/
theorem committed_of_writes
    (disk : Disk) {hb : Block} (hn : hb.word 0 = UInt32.ofNat us.length)
    (hblock : ∀ i (hi : i < us.length), hb.word (i + 1) = us[i].1) :
  Committed L us (applyWrites disk (logWrites L us ++ [(L.start, hb)]))
  := by
  rw [applyWrites_append, applyWrites_cons, applyWrites_nil]
  constructor
  · rw [Function.update_self, hn]
  · intro i hi
    rw [Function.update_self, hblock i hi]
  · intro i hi
    rw [Function.update_of_ne (by omega)]
    apply applyWrites_logWrites hi

/-- Up to the commit point no home block is written. -/
theorem homeEq_logWrites (hl : Loggable L us) (disk : Disk) (hb : Block) :
  HomeEq L disk (applyWrites disk (logWrites L us ++ [(L.start, hb)]))
  := by
  apply homeEq_applyWrites
  intro w hw
  rcases List.mem_append.mp hw with hw | hw
  · apply (not_home_of_mem_logWrites hl hw).2
  · rw [List.mem_singleton.mp hw]
    apply not_home_start hl

/-- Disks with the same home blocks have the same home blocks after the same writes. -/
theorem HomeEq.applyWrites {d d' : Disk} (h : HomeEq L d d') (ws : List (Nat × Block)) :
  HomeEq L (applyWrites d ws) (applyWrites d' ws)
  := by
  intro b hb
  apply applyWrites_congr
  intro _
  apply h b hb

/-- A transaction that loses power leaves the home blocks old or new. -/
theorem outage_spec
    (hl : Loggable L us) (hempty : Empty L disk) {hb hb' : Block} {ws : List (Nat × Block)}
    (hws : ws = logWrites L us ++ (L.start, hb) :: (homeWrites us ++ [(L.start, hb')]))
    (hn : hb.word 0 = UInt32.ofNat us.length)
    (hblock : ∀ i (hi : i < us.length), hb.word (i + 1) = us[i].1) (hzero : hb'.word 0 = 0)
    (o : Outage) :
  ∃ disk' m, reboot L (applyWrites disk (ws.take o.commit)) o.recoveries = .ok (disk', m) ∧
    Idle L disk' m ∧
    (HomeEq L disk disk' ∨ HomeEq L (applyWrites disk (homeWrites us)) disk')
  := by
  by_cases hk : o.commit ≤ (logWrites L us).length
  · -- before the commit point the log is still empty
    rw [hws, List.take_append_of_le_length hk]
    have hlog : ∀ w ∈ (logWrites L us).take o.commit, L.start < w.1 ∧ ¬ L.Home w.1 := by
      intro w hw
      apply not_home_of_mem_logWrites hl (List.mem_of_mem_take hw)
    have hempty' : Empty L (applyWrites disk ((logWrites L us).take o.commit)) := by
      rw [Empty, applyWrites_of_notMem]
      · apply hempty
      · intro w hw
        apply Nat.ne_of_gt (hlog w hw).1
    obtain ⟨disk', m, hr, hidle, hhome⟩ :=
      reboot_spec o.recoveries (loggable_nil hl) hempty'.committed
    refine ⟨disk', m, hr, hidle, Or.inl ?_⟩
    apply HomeEq.trans _ hhome
    apply homeEq_applyWrites
    intro w hw
    apply (hlog w hw).2
  -- from the commit point on the log holds the transaction, until it is emptied
  have hcommitted := committed_of_writes (L := L) disk hn hblock
  have hws' : ws = (logWrites L us ++ [(L.start, hb)]) ++ (homeWrites us ++ [(L.start, hb')]) := by
    simp [hws]
  have hlen : (logWrites L us ++ [(L.start, hb)]).length ≤ o.commit := by
    rw [List.length_append, List.length_singleton]
    omega
  rw [hws', List.take_append, List.take_of_length_le hlen, applyWrites_append]
  obtain ⟨us', hl', hc, hhome⟩ := hcommitted.take hl hzero _
  obtain ⟨disk', m, hr, hidle, hhome'⟩ := reboot_spec o.recoveries hl' hc
  have hnew := (homeEq_logWrites hl disk hb).applyWrites (homeWrites us)
  exact ⟨disk', m, hr, hidle, Or.inr (hnew.trans (hhome.trans hhome'))⟩

/-- A transaction on an idle machine: without an outage the home blocks are new, and with an
outage they are old or new. -/
theorem transact_spec (hl : Loggable L us) (hidle : Idle L disk m) (outage : Option Outage) :
  ∃ disk' m', transact L disk m us outage = .ok (disk', m') ∧ Idle L disk' m' ∧
    (HomeEq L (applyWrites disk (homeWrites us)) disk' ∨ outage ≠ none ∧ HomeEq L disk disk')
  := by
  obtain ⟨m₁, hm₁, hlisted, hbuf, hwrites⟩ := foldlM_update hl hidle
  rcases eq_or_ne us [] with rfl | hne
  · -- without updates `commit` does nothing
    have hn : ¬ m₁.n > 0 := by
      rw [gt_iff_lt, Int32.lt_iff_toInt_lt, hlisted.n]
      simp
    have hcommit : commit L m₁ = m₁ := if_neg hn
    have hn₀ : m₁.n = 0 := Int32.toInt_inj.mp hlisted.n
    cases outage with
    | none =>
      refine ⟨disk, { m₁ with writes := [] }, ?_, ⟨hidle.empty, hn₀, hbuf, rfl⟩, Or.inl ?_⟩
      · simp [transact, hm₁, hcommit, hwrites, bind, Except.bind]
      · intro b _
        rfl
    | some o =>
      obtain ⟨disk', m', hr, hidle', hhome⟩ :=
        reboot_spec o.recoveries hl hidle.empty.committed
      refine ⟨disk', m', ?_, hidle', Or.inl hhome⟩
      simp only [transact, hm₁, hcommit, hwrites, bind, Except.bind, List.take_nil,
        applyWrites_nil]
      apply hr
  · obtain ⟨hb, hb', hws, hword, hblock, hzero, hn, hbuf'⟩ :=
      commit_spec hl hne hlisted hbuf hwrites
    cases outage with
    | none =>
      -- the buffers already hold the new contents, so they agree with the disk
      have hsame : (commit L m₁).buf = applyWrites disk (commit L m₁).writes := by
        rw [hbuf', hbuf]
        funext b
        apply applyWrites_congr
        intro hb
        apply applyWrites_of_notMem
        intro w hw
        apply hb w
        rw [hws]
        simp [hw]
      have happ : (commit L m₁).writes
          = (logWrites L us ++ [(L.start, hb)]) ++ (homeWrites us ++ [(L.start, hb')]) := by
        simp [hws]
      refine ⟨applyWrites disk (commit L m₁).writes, { commit L m₁ with writes := [] }, ?_,
        ⟨?_, hn, hsame, rfl⟩, Or.inl ?_⟩
      · simp only [transact, hm₁, bind, Except.bind]
      · simp [Empty, happ, applyWrites_append, hzero]
      · rw [happ, applyWrites_append, applyWrites_append]
        apply HomeEq.trans ((homeEq_logWrites hl _ hb).applyWrites _)
        apply homeEq_head hl
    | some o =>
      obtain ⟨disk', m', hr, hidle', hhome⟩ :=
        outage_spec hl hidle.empty hws hword hblock hzero o
      refine ⟨disk', m', ?_, hidle', ?_⟩
      · simp only [transact, hm₁, bind, Except.bind]
        apply hr
      · rcases hhome with hhome | hhome
        · exact Or.inr ⟨by simp, hhome⟩
        · exact Or.inl hhome

/-- Transactions one after the other leave an idle machine. -/
theorem transactions_spec
    {ts : List (Updates × Option Outage)} (hts : ∀ t ∈ ts, Loggable L t.1)
    (hidle : Idle L disk m) :
  ∃ disk' m', transactions L disk m ts = .ok (disk', m') ∧ Idle L disk' m'
  := by
  induction ts generalizing disk m with
  | nil => exact ⟨disk, m, rfl, hidle⟩
  | cons t ts ih =>
    obtain ⟨us, outage⟩ := t
    obtain ⟨disk₁, m₁, h₁, hidle₁, -⟩ :=
      transact_spec (hts (us, outage) List.mem_cons_self) hidle outage
    obtain ⟨disk₂, m₂, h₂, hidle₂⟩ := ih (fun t ht => hts t (List.mem_cons_of_mem _ ht)) hidle₁
    refine ⟨disk₂, m₂, ?_, hidle₂⟩
    simp only [transactions, h₁, bind, Except.bind]
    apply h₂

/-- After any sequence of transactions, each of which may lose power during `commit` and during any
number of recoveries, the log is empty, and the next transaction leaves either every home block as
it was or every block it logged with its new contents and all other home blocks as they were; the
first is possible only if the power goes. -/
theorem crash_atomic
    (L : Region) (disk : Disk) (hempty : Empty L disk)
    (ts : List (Updates × Option Outage)) (hts : ∀ t ∈ ts, Loggable L t.1) :
  ∃ disk₁ m₁, transactions L disk (restarted disk) ts = .ok (disk₁, m₁) ∧ Empty L disk₁ ∧
    ∀ us, Loggable L us → ∀ outage,
      ∃ disk₂ m₂, transact L disk₁ m₁ us outage = .ok (disk₂, m₂) ∧ Empty L disk₂ ∧
        ((outage ≠ none ∧ ∀ b, L.Home b → disk₂ b = disk₁ b) ∨
          (∀ u ∈ us, disk₂ u.1.toNat = u.2) ∧
            ∀ b, L.Home b → (∀ u ∈ us, u.1.toNat ≠ b) → disk₂ b = disk₁ b)
  := by
  have hidle : Idle L disk (restarted disk) := ⟨hempty, rfl, rfl, rfl⟩
  obtain ⟨disk₁, m₁, h₁, hidle₁⟩ := transactions_spec hts hidle
  refine ⟨disk₁, m₁, h₁, hidle₁.empty, ?_⟩
  intro us hl outage
  obtain ⟨disk₂, m₂, h₂, hidle₂, hhome⟩ := transact_spec hl hidle₁ outage
  refine ⟨disk₂, m₂, h₂, hidle₂.empty, ?_⟩
  rcases hhome with hnew | ⟨hout, hold⟩
  · right
    constructor
    · intro u hu
      rw [hnew _ (hl.home u hu)]
      apply applyWrites_of_mem (homeWrites_nodup hl)
      apply List.mem_map_of_mem hu
    · intro b hb hne
      rw [hnew b hb]
      apply applyWrites_of_notMem
      intro w hw
      obtain ⟨u, hu, rfl⟩ := List.mem_map.mp hw
      apply hne u hu
  · left
    exact ⟨hout, hold⟩

/-- A transaction that loses power at the commit point and again in the first recovery. -/
theorem crash_atomic_at_commit :
  ∃ disk₁ m₁, transactions ⟨2, LOGSIZE⟩ (fun _ _ => 0) (restarted fun _ _ => 0)
      [([(100, fun _ => 7)], some ⟨2, [1]⟩)] = .ok (disk₁, m₁) ∧ Empty ⟨2, LOGSIZE⟩ disk₁
  := by
  have hl : Loggable ⟨2, LOGSIZE⟩ [(100, fun _ => 7)] := by
    constructor
    · simp
    · intro u hu
      rw [List.mem_singleton.mp hu]
      right
      decide
    · decide
    · decide
  obtain ⟨disk₁, m₁, h₁, hempty, -⟩ :=
    crash_atomic ⟨2, LOGSIZE⟩ (fun _ _ => 0) rfl
      [([(100, fun _ => 7)], some ⟨2, [1]⟩)] (by simpa using hl)
  exact ⟨disk₁, m₁, h₁, hempty⟩

end Xv6.Log
