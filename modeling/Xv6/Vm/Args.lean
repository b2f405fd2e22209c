import Xv6.Syscall.Args
import Xv6.Vm.Growproc

/-!
# The arguments of `exec`

`exec` moves the stack pointer down by the length of a string before it checks anything.  A string
that is much longer than the image makes the stack pointer wrap around to addresses of the kernel
that no page table covers, and `uva2ka` follows the null pointer that `walkpgdir` returns there.
-/

namespace Xv6.Vm

open Syscall (Caller)

/-! ### `sys_exec` -/

/-- The loop of `sys_exec`, with `n` elements of `argv` left. -/
def argvLoop (u : Caller) (uargv : UInt32) : (n i : Nat) → Option (List (List UInt8))
  | 0, _ => none
  | n + 1, i => do
    let uarg ← u.fetchint (uargv + 4 * .ofNat i)
    if uarg = 0 then
      return []
    let s ← u.fetchstr uarg
    let argv ← argvLoop u uargv n (i + 1)
    return s :: argv

/-- `sys_exec` up to the call of `exec`: the path and the arguments. -/
def sysExec (u : Caller) : Option (List UInt8 × List (List UInt8)) := do
  let path ← u.argstr 0
  let uargv ← u.argint 1
  let argv ← argvLoop u uargv MAXARG 0
  return (path, argv)

variable {L : Layout} {m m' : Memory} {d sz sp : Nat} {u : Caller} {argv : List (List UInt8)}
  {E : Fault → Prop} {null : Mem UInt32}

theorem argvLoop_spec {uargv : UInt32} {n i : Nat} (h : argvLoop u uargv n i = some argv) :
  argv.length < n ∧ ∀ s ∈ argv, s.length < u.sz.toNat
  := by
  induction n generalizing i argv with
  | zero => cases h
  | succ n ih =>
    simp only [argvLoop, Option.bind_eq_bind, Option.bind_eq_some_iff] at h
    obtain ⟨uarg, -, h⟩ := h
    split at h
    · cases h
      simp
    · simp only [Option.bind_eq_some_iff] at h
      obtain ⟨s, hs, argv', hargv', h⟩ := h
      cases h
      obtain ⟨hlen, hall⟩ := ih hargv'
      rw [List.length_cons]
      refine ⟨by omega, ?_⟩
      intro t ht
      rcases List.mem_cons.mp ht with rfl | ht
      · have hcovers := (Caller.hasString_of_fetchstr hs).1
        rw [Caller.Covers] at hcovers
        omega
      · apply hall t ht

/-- What `sys_exec` accepts. -/
theorem sysExec_spec {path : List UInt8} (h : sysExec u = some (path, argv)) :
  argv.length < MAXARG ∧ ∀ s ∈ argv, s.length < u.sz.toNat
  := by
  simp only [sysExec, Option.bind_eq_bind, Option.bind_eq_some_iff] at h
  obtain ⟨_, -, uargv, -, argv', hargv, h⟩ := h
  cases h
  apply argvLoop_spec hargv

/-! ### `copyout` below the size of the image -/

/-- The user may access a virtual page. -/
def Accessible (m : Memory) (d v : Nat) : Prop :=
  isP (m.entry d (.ofVa (PGSIZE * v))) ∧ isU (m.entry d (.ofVa (PGSIZE * v)))

theorem Stores.accessible {v : Nat} (h : Stores d m m') :
  Accessible m' d v ↔ Accessible m d v
  := by
  rw [Accessible, Accessible, h.entry]

/-- The pages of the image have page tables. -/
theorem Space.isSome_table {v : Nat} (h : Space L m d sz) (hv : v < npages sz) :
  (m.table d (pdx (PGSIZE * v))).isSome
  := by
  have hlt := npages_lt h.lt
  have hvpn := Entry.vpn_ofVa (show v < 2 ^ 20 by omega)
  have hP := h.full (.ofVa (PGSIZE * v)) (by omega)
  obtain ⟨t, ht, -⟩ := Memory.exists_table hP
  rw [ht]
  rfl

section

variable {Q : Option Nat → Memory → Prop} {v : Nat}

theorem wp_uva2ka_of_accessible
    (ht : (m.table d (pdx (PGSIZE * v))).isSome) (hacc : Accessible m d v) :
  Wp E (uva2ka null d (PGSIZE * v)) Q m ↔ Q (some (pteAddr (m.entry d (.ofVa (PGSIZE * v))))) m
  := by
  obtain ⟨t, ht⟩ := Option.isSome_iff_exists.mp ht
  rw [wp_uva2ka, ht]
  apply iff_of_eq (if_pos hacc)

theorem wp_uva2ka_of_not_accessible
    (ht : (m.table d (pdx (PGSIZE * v))).isSome) (hacc : ¬ Accessible m d v) :
  Wp E (uva2ka null d (PGSIZE * v)) Q m ↔ Q none m
  := by
  obtain ⟨t, ht⟩ := Option.isSome_iff_exists.mp ht
  rw [wp_uva2ka, ht]
  apply iff_of_eq (if_neg hacc)

end

theorem pgrounddown_eq (va : Nat) :
  pgrounddown va = PGSIZE * (va / PGSIZE)
  := by
  simp only [pgrounddown, PGSIZE]
  omega

/-- `copyout` below the size of the image does not fail, and it returns `-1` when it meets a page
that the user may not access. -/
theorem copyoutLoop_below
    {n va : Nat} {buf : List UInt8} (hp : Pool L m (m.owned d)) (hs : Space L m d sz)
    (hle : ∀ i < buf.length, va + i < sz) (hn : buf.length ≤ n) :
  Wp NoFault (copyoutLoop null d n va buf)
    (fun r m' => Stores d m m' ∧
      (r = true ↔ ∀ i < buf.length, Accessible m d ((va + i) / PGSIZE))) m
  := by
  induction n generalizing va buf m with
  | zero =>
    obtain rfl := List.length_eq_zero_iff.mp (Nat.le_zero.mp hn)
    refine ⟨.refl d m, ?_⟩
    simp
  | succ n ih =>
    rw [copyoutLoop]
    split
    · rename_i hpos
      have hfirst := hle 0 hpos
      have hv : va / PGSIZE < npages sz := by
        rw [lt_npages_iff]
        simp only [PGSIZE]
        omega
      have ht := hs.isSome_table hv
      rw [wp_bind, pgrounddown_eq]
      by_cases hacc : Accessible m d (va / PGSIZE)
      · rw [wp_uva2ka_of_accessible ht hacc]
        have hmem := Space.mem_frames (hs.user_of_isU hacc.2) hacc.1
        have hset : ∀ c, Stores d m (m.setPage _ c) := fun c => Stores.setPage hp hmem
        simp only [wp_bind, wp_modify]
        obtain ⟨len, hlen⟩ : ∃ len, len =
            min (PGSIZE - (va - PGSIZE * (va / PGSIZE))) buf.length := ⟨_, rfl⟩
        have hlen0 : 1 ≤ len := by
          simp only [PGSIZE] at hlen
          omega
        have hnext : ∀ i < buf.length - len,
            (PGSIZE * (va / PGSIZE) + PGSIZE) % 2 ^ 32 + i = va + (len + i) := by
          intro i hi
          have hlast := hle (len + i) (by omega)
          have hlt := hs.lt
          simp only [PGSIZE, KERNBASE] at hlen hlt ⊢
          omega
        have hsame : ∀ i < len, (va + i) / PGSIZE = va / PGSIZE := by
          intro i hi
          simp only [PGSIZE] at hlen ⊢
          omega
        rw [← hlen]
        apply (ih (hp.trade (hset _).trade_owned) (hs.stores (hset _)) _ _).mono
        · rintro r m' ⟨hm', hr⟩
          refine ⟨(hset _).trans hm', ?_⟩
          simp only [hr, (hset _).accessible, List.length_drop]
          constructor
          · intro hall i hi
            by_cases hlt : i < len
            · rw [hsame i hlt]
              apply hacc
            · have := hall (i - len) (by omega)
              rw [hnext (i - len) (by omega), Nat.add_sub_cancel' (by omega)] at this
              apply this
          · intro hall i hi
            rw [hnext i hi]
            apply hall
            omega
        · intro i hi
          rw [List.length_drop] at hi
          rw [hnext i hi]
          apply hle
          omega
        · rw [List.length_drop]
          omega
      · rw [wp_uva2ka_of_not_accessible ht hacc]
        refine ⟨.refl d m, ?_⟩
        simp only [Bool.false_eq_true, false_iff]
        intro hall
        apply hacc (hall 0 hpos)
    · rename_i hpos
      refine ⟨.refl d m, ?_⟩
      simp only [true_iff]
      intro i hi
      omega

/-! ### `copyout` above `KERNBASE` -/

/-- The addresses that the page directory of the kernel has no page table for: from the end of the
physical memory to the devices. -/
def Uncovered (va : Nat) : Prop :=
  KERNBASE + PHYSTOP ≤ va ∧ va < DEVSPACE

/-- A null pointer that is followed in `m` ends the run, if `E` allows it, or leads to an entry that
the user may not access; then `N` holds. -/
def Harmless (E : Fault → Prop) (N : Prop) (null : Mem UInt32) (m : Memory) : Prop :=
  Wp E null (fun pte m' => m' = m ∧ ¬ (isP pte ∧ isU pte) ∧ N) m

variable {N : Prop}

/-- `copyout` to the kernel returns `-1`; it follows a null pointer where there is no page table. -/
theorem copyoutLoop_kernel
    {n va : Nat} {buf : List UInt8} (hs : Space L m d sz) (hva : KERNBASE ≤ va)
    (hlt : va < 2 ^ 32) (hpos : 0 < buf.length) (hn : buf.length ≤ n)
    (hnull : Uncovered va → Harmless E N null m) :
  Wp E (copyoutLoop null d n va buf) (fun r m' => m' = m ∧ r = false ∧ (Uncovered va → N)) m
  := by
  obtain ⟨n, rfl⟩ : ∃ n', n = n' + 1 := ⟨n - 1, by omega⟩
  have hv : va / PGSIZE < 2 ^ 20 := by
    simp only [PGSIZE]
    omega
  have hj := Entry.pdx_val hv
  have hge : 512 ≤ (pdx (PGSIZE * (va / PGSIZE))).val := by
    simp only [KERNBASE, PGSIZE] at hva hj ⊢
    omega
  have hcovered : (m.table d (pdx (PGSIZE * (va / PGSIZE)))).isSome ↔ ¬ Uncovered va := by
    rw [hs.table _ hge, Uncovered, hj]
    simp only [KERNBASE, PHYSTOP, DEVSPACE, PGSIZE] at hva ⊢
    omega
  rw [copyoutLoop, if_pos hpos, wp_bind, pgrounddown_eq]
  by_cases hu : Uncovered va
  · have hnone : m.table d (pdx (PGSIZE * (va / PGSIZE))) = none := by
      rw [← Option.not_isSome_iff_eq_none, hcovered, not_not]
      apply hu
    rw [wp_uva2ka, hnone]
    apply (hnull hu).mono
    rintro pte m' ⟨rfl, hpte, hN⟩
    rw [if_neg hpte]
    exact ⟨rfl, rfl, fun _ => hN⟩
  · have hacc : ¬ Accessible m d (va / PGSIZE) := by
      intro hacc
      have huser := hs.user_of_isU hacc.2
      rw [user_iff, Entry.vpn_ofVa hv] at huser
      simp only [KERNBASE, PGSIZE] at hva huser
      omega
    rw [wp_uva2ka_of_not_accessible (hcovered.mpr hu) hacc]
    exact ⟨rfl, rfl, fun h => absurd h hu⟩

/-! ### Pushing the strings -/

/-- The bytes that a string takes on the stack. -/
def strSize (str : List UInt8) : Nat :=
  (str.length + 4) / 4 * 4

/-- The new stack pointer, which may wrap around. -/
theorem sub32_strSize
    {str : List UInt8} (hsp : sp < 2 ^ 32) (hdvd : 4 ∣ sp) (hlen : str.length + 1 < 2 ^ 31) :
  sub32 sp (str.length + 1) / 4 * 4 =
    if strSize str ≤ sp then sp - strSize str else sp + 2 ^ 32 - strSize str
  := by
  by_cases h : strSize str ≤ sp
  · rw [if_pos h]
    simp only [sub32, strSize] at h ⊢
    omega
  · rw [if_neg h]
    simp only [sub32, strSize] at h ⊢
    omega

/-- The stack pointer is in the stack page, or at its end. -/
structure InStack (sz sp : Nat) : Prop where
  ge : sz ≤ sp + PGSIZE
  le : sp ≤ sz
  dvd : 4 ∣ sp

theorem InStack.push {str : List UInt8} (h : InStack sz sp) (hle : sz + strSize str ≤ sp + PGSIZE)
    (hsz : 2 * PGSIZE ≤ sz) :
  strSize str ≤ sp ∧ InStack sz (sp - strSize str)
  := by
  have hfit : strSize str ≤ sp := by
    have := h.le
    omega
  refine ⟨hfit, by omega, ?_, ?_⟩
  · have := h.le
    omega
  · have := h.dvd
    simp only [strSize] at hfit ⊢
    omega

/-- The string takes the stack pointer to addresses without a page table. -/
def Wraps (sp : Nat) (str : List UInt8) : Prop :=
  sp + 0x2000000 < strSize str ∧ strSize str ≤ sp + 0x72000000

theorem Stack.accessible (hk : Stack m d sz) {a : Nat} (hlo : sz ≤ a + PGSIZE) (hhi : a < sz) :
  Accessible m d (a / PGSIZE)
  := by
  have hstack := hk.stack
  have heq : sz - PGSIZE = PGSIZE * (a / PGSIZE) := by
    have hdvd := hk.dvd
    simp only [PGSIZE] at hdvd hlo ⊢
    omega
  rw [heq] at hstack
  apply hstack

/-- A range of bytes from below the stack page to its start meets the page that the user may not
access. -/
theorem Stack.not_accessible_guard
    (hk : Stack m d sz) (va len : Nat) (hlo : va + PGSIZE < sz) (hhi : sz ≤ va + len + PGSIZE + 4) :
  ¬ ∀ i ≤ len, Accessible m d ((va + i) / PGSIZE)
  := by
  intro hall
  have hdvd := hk.dvd
  have hle := hk.le
  have hguard := hk.guard
  have hU := (hall (sz - 2 * PGSIZE - va) (by simp only [PGSIZE] at *; omega)).2
  have heq : sz - 2 * PGSIZE = PGSIZE * ((va + (sz - 2 * PGSIZE - va)) / PGSIZE) := by
    simp only [PGSIZE] at hdvd hle hlo ⊢
    omega
  rw [← heq, hguard] at hU
  cases hU

theorem copyout_push
    {str : List UInt8} (hp : Pool L m (m.owned d)) (hs : Space L m d sz) (hk : Stack m d sz)
    (hsp : InStack sz sp) (hlen : str.length + 1 < KERNBASE)
    (hnull : Wraps sp str → Harmless E N null m) :
  Wp E (copyout null d (sub32 sp (str.length + 1) / 4 * 4) (str ++ [0]))
    (fun r m' => Stores d m m' ∧ (Wraps sp str → N) ∧
      (r = true → strSize str ≤ sp ∧ InStack sz (sp - strSize str)) ∧
      (r = false → PGSIZE < sz - sp + strSize str)) m
  := by
  have hlt := hs.lt
  have hle := hsp.le
  have hsize : (str ++ [0]).length = str.length + 1 := by
    rw [List.length_append, List.length_singleton]
  rw [sub32_strSize (by simp only [KERNBASE] at hlt; omega) hsp.dvd hlen]
  split
  · rename_i hfit
    have hsz := hsp.ge
    have hsmall : strSize str ≤ str.length + 4 ∧ str.length + 1 ≤ strSize str := by
      simp only [strSize]
      omega
    have hbelow : ∀ i < (str ++ [0]).length, sp - strSize str + i < sz := by
      intro i hi
      omega
    have hno : ¬ Wraps sp str := by
      simp only [Wraps]
      omega
    apply (copyoutLoop_below hp hs hbelow (le_refl _)).noFail.mono
    rintro r m' ⟨hm', hr⟩
    refine ⟨hm', fun h => absurd h hno, ?_, ?_⟩
    · intro hr'
      apply hsp.push _ hk.le
      by_contra hge
      apply hk.not_accessible_guard (sp - strSize str) str.length
      · omega
      · omega
      · rw [hsize] at hr
        intro i hi
        apply hr.mp hr' i (by omega)
    · intro hr'
      by_contra hge
      rw [Nat.not_lt] at hge
      rw [hr'] at hr
      apply Bool.false_ne_true
      apply hr.mpr
      intro i hi
      apply hk.accessible
      · omega
      · apply hbelow i hi
  · rename_i hwrap
    have hva : KERNBASE ≤ sp + 2 ^ 32 - strSize str := by
      simp only [KERNBASE, strSize] at hlen ⊢
      omega
    have hiff : Uncovered (sp + 2 ^ 32 - strSize str) ↔ Wraps sp str := by
      simp only [Uncovered, Wraps, strSize, KERNBASE, PHYSTOP, DEVSPACE] at hwrap hlen ⊢
      omega
    rw [← hiff] at hnull ⊢
    apply (copyoutLoop_kernel hs hva (by omega) (by omega) (le_refl _) hnull).mono
    rintro r m' ⟨rfl, rfl, hN⟩
    refine ⟨.refl d m', hN, nofun, ?_⟩
    intro _
    have hdvd := hk.le
    simp only [PGSIZE] at hdvd ⊢
    omega

/-- The bytes that strings take on the stack. -/
def pushed (argv : List (List UInt8)) : Nat :=
  (argv.map strSize).sum

theorem pushed_cons (str : List UInt8) (argv : List (List UInt8)) :
  pushed (str :: argv) = strSize str + pushed argv
  := by
  rw [pushed, List.map_cons, List.sum_cons, pushed]

/-- Some string, after strings that fit into the stack page, is longer than the rest of the image
by more than the 32 Mbyte of device addresses at the top, but not so long that it reaches down to
the physical memory that the kernel maps. -/
def Overruns (sz sp : Nat) (argv : List (List UInt8)) : Prop :=
  ∃ pre str post, argv = pre ++ str :: post ∧ sz + pushed pre ≤ sp + PGSIZE ∧
    sp + 0x2000000 < pushed (pre ++ [str]) ∧ pushed (pre ++ [str]) ≤ sp + 0x72000000

theorem not_overruns (h : pushed argv ≤ 0x2000000) :
  ¬ Overruns sz sp argv
  := by
  rintro ⟨pre, str, post, rfl, -, hlo, -⟩
  simp only [pushed, List.map_append, List.map_cons, List.map_nil, List.sum_append, List.sum_cons,
    List.sum_nil] at h hlo
  omega

theorem overruns_cons
    (str : List UInt8) (argv : List (List UInt8)) (hsp : InStack sz sp) (hsz : 2 * PGSIZE ≤ sz) :
  Overruns sz sp (str :: argv) ↔
    Wraps sp str ∨
      sz + strSize str ≤ sp + PGSIZE ∧ Overruns sz (sp - strSize str) argv
  := by
  constructor
  · rintro ⟨pre, s, post, hargv, hpre, hlo, hhi⟩
    cases pre with
    | nil =>
      obtain ⟨rfl, -⟩ := List.cons.inj hargv
      left
      rw [List.nil_append, pushed_cons] at hlo hhi
      exact ⟨hlo, hhi⟩
    | cons t pre =>
      obtain ⟨rfl, rfl⟩ := List.cons.inj hargv
      rw [List.cons_append, pushed_cons] at hlo hhi
      rw [pushed_cons] at hpre
      have hle : sz + strSize str ≤ sp + PGSIZE := by
        omega
      obtain ⟨hfit, -⟩ := hsp.push hle hsz
      exact .inr ⟨hle, pre, s, post, rfl, by omega, by omega, by omega⟩
  · rintro (⟨hlo, hhi⟩ | ⟨hle, pre, s, post, rfl, hpre, hlo, hhi⟩)
    · refine ⟨[], str, argv, rfl, ?_, ?_, ?_⟩
      · apply hsp.ge
      · rw [List.nil_append, pushed_cons]
        apply hlo
      · rw [List.nil_append, pushed_cons]
        apply hhi
    · obtain ⟨hfit, -⟩ := hsp.push hle hsz
      refine ⟨str :: pre, s, post, rfl, ?_, ?_, ?_⟩
      · rw [pushed_cons]
        omega
      · rw [List.cons_append, pushed_cons]
        omega
      · rw [List.cons_append, pushed_cons]
        omega

/-- The strings are pushed into the image, where a null pointer that is followed does no harm.  It
is followed if they overrun the image. -/
theorem pushStrings_fault
    {argc : Nat} {ustack : List Nat} (hp : Pool L m (m.owned d)) (hs : Space L m d sz)
    (hk : Stack m d sz) (hsp : InStack sz sp) (hlen : ∀ str ∈ argv, str.length + 1 < KERNBASE)
    (hnull : Overruns sz sp argv → ∀ m', Stores d m m' → Harmless E N null m') :
  Wp E (pushStrings null d argv argc sp ustack)
    (fun r m' => Stores d m m' ∧ (argc + argv.length ≤ MAXARG → Overruns sz sp argv → N) ∧
      ∀ x ∈ r, InStack sz x.1 ∧ x.2.length = ustack.length + argv.length) m
  := by
  induction argv generalizing argc sp ustack m with
  | nil =>
    rw [pushStrings]
    refine ⟨.refl d m, fun _ h => absurd h (not_overruns (Nat.zero_le _)), ?_⟩
    rintro x ⟨⟩
    exact ⟨hsp, rfl⟩
  | cons str argv ih =>
    rw [pushStrings]
    split
    · refine ⟨.refl d m, ?_, by simp⟩
      rw [List.length_cons]
      omega
    · have hcons := overruns_cons str argv hsp hk.le
      have hstr := hlen str List.mem_cons_self
      apply (copyout_push hp hs hk hsp hstr
        fun hwraps => hnull (hcons.mpr (.inl hwraps)) m (.refl d m)).bind
      rintro (_ | _) m₁ ⟨hm₁, hN, htrue, hfalse⟩
      · refine ⟨hm₁, fun _ hover => ?_, by simp⟩
        have := hfalse rfl
        have hle := hsp.le
        rcases hcons.mp hover with hwraps | ⟨h, -⟩
        · exact hN hwraps
        · omega
      · obtain ⟨hfit, hsp'⟩ := htrue rfl
        have hle := hsp'.ge
        have hiff : Overruns sz sp (str :: argv) ↔ Overruns sz (sp - strSize str) argv := by
          rw [hcons, Wraps]
          constructor
          · rintro (h | h)
            · omega
            · apply h.2
          · intro h
            exact .inr ⟨by omega, h⟩
        have heq : sub32 sp (str.length + 1) / 4 * 4 = sp - strSize str := by
          have hlt := hs.lt
          have := hsp.le
          rw [sub32_strSize (by simp only [KERNBASE] at hlt; omega) hsp.dvd hstr, if_pos hfit]
        simp only [heq, hiff] at hnull ⊢
        apply (ih (hp.trade hm₁.trade_owned) (hs.stores hm₁) (hk.stores hm₁) hsp' _ _).mono
        · rintro r m₂ ⟨hm₂, hN', hr⟩
          refine ⟨hm₁.trans hm₂, ?_, ?_⟩
          · rw [List.length_cons]
            intro h
            apply hN'
            omega
          · intro x hx
            obtain ⟨hx₁, hx₂⟩ := hr x hx
            rw [List.length_append, List.length_singleton] at hx₂
            rw [List.length_cons]
            exact ⟨hx₁, by omega⟩
        · intro t ht
          apply hlen t (List.mem_cons_of_mem str ht)
        · intro hover m' hm'
          exact hnull hover m' (hm₁.trans hm')

theorem length_flatMap_wordBytes (ws : List Nat) :
  (ws.flatMap wordBytes).length = 4 * ws.length
  := by
  induction ws with
  | nil => rfl
  | cons w ws ih =>
    rw [List.flatMap_cons, List.length_append, ih, List.length_cons]
    change 4 + _ = _
    omega

/-- `exec` pushes the arguments into the image, where a null pointer that is followed does no
harm. -/
theorem pushArgs_fault
    (hp : Pool L m (m.owned d)) (hs : Space L m d sz) (hk : Stack m d sz)
    (hargc : argv.length < MAXARG) (hlen : ∀ str ∈ argv, str.length + 1 < KERNBASE)
    (hnull : Overruns sz sz argv → ∀ m', Stores d m m' → Harmless E N null m') :
  Wp E (pushArgs null d sz argv)
    (fun _ m' => Stores d m m' ∧ (Overruns sz sz argv → N)) m
  := by
  have hsp : InStack sz sz := by
    have hdvd := hk.dvd
    simp only [PGSIZE] at hdvd
    exact ⟨by omega, le_refl _, by omega⟩
  rw [pushArgs]
  apply (pushStrings_fault hp hs hk hsp hlen hnull).bind
  rintro r m₁ ⟨hm₁, hN, hr⟩
  have hN := hN (by omega)
  cases r with
  | none => exact ⟨hm₁, hN⟩
  | some x =>
    obtain ⟨sp, args⟩ := x
    obtain ⟨hsp', hargs⟩ := hr _ rfl
    rw [List.length_nil, Nat.zero_add] at hargs
    have hle := hk.le
    have hsub : sub32 sp ((3 + args.length + 1) * 4) + 4 * (args.length + 4) = sp := by
      have hlt := hs.lt
      have hge := hsp'.ge
      have hle' := hsp'.le
      simp only [sub32, MAXARG, PGSIZE, KERNBASE] at *
      omega
    simp only [wp_bind]
    apply (copyoutLoop_below (hp.trade hm₁.trade_owned) (hs.stores hm₁) _ (le_refl _)).noFail.mono
    · rintro (_ | _) m₂ ⟨hm₂, -⟩
      · exact ⟨hm₁.trans hm₂, hN⟩
      · exact ⟨hm₁.trans hm₂, hN⟩
    · intro i hi
      rw [length_flatMap_wordBytes] at hi
      simp only [List.length_append, List.length_cons, List.length_nil] at hi
      have hle' := hsp'.le
      omega

/-- The image that `exec` has built before it pushes the arguments. -/
theorem image_of_loadImage
    {ip : Inode} {elf : Elfhdr} {m₁ m₂ : Memory} (hp : Pool L m 0)
    (hsetup : setupkvm L m = .ok (some d, m₁))
    (hload : loadImage L ip elf d m₁ = .ok (some sz, m₂)) :
  Trade 0 m (m₂.owned d) m₂ ∧ Space L m₂ d sz ∧ Stack m₂ d sz
  := by
  obtain ⟨htree, hkernel⟩ := (setupkvm_spec hp).of_ok hsetup
  have htrade₁ : Trade 0 m (m₁.owned d) m₁ := by
    rw [Memory.owned, hkernel.frames, add_zero]
    apply htree
  obtain ⟨⟨htrade, hspace⟩, hstack⟩ :=
    (loadImage_spec (hp.trade htrade₁) hkernel.space).of_ok hload
  exact ⟨htrade₁.trans htrade, hspace sz rfl, hstack sz rfl⟩

/-- The copy of the arguments into a new image. -/
theorem pushArgs_nullDeref_iff
    {s : Kernel} {ip : Inode} {elf : Elfhdr} {m₁ m₂ : Memory}
    (h : (kernelSys L).Reachable s) (hsetup : setupkvm L s.mem = .ok (some d, m₁))
    (hload : loadImage L ip elf d m₁ = .ok (some sz, m₂)) (hargc : argv.length < MAXARG)
    (hlen : ∀ str ∈ argv, str.length + 1 < KERNBASE) :
  pushArgs (throw .nullDeref) d sz argv m₂ = .error .nullDeref ↔ Overruns sz sz argv
  := by
  have hp := (Inv.of_reachable h).pool.of_le (Multiset.zero_le _)
  obtain ⟨htrade, hspace, hstack⟩ := image_of_loadImage hp hsetup hload
  have hspec : Wp (fun f => f = .nullDeref ∧ Overruns sz sz argv)
      (pushArgs (throw .nullDeref) d sz argv) (fun _ m' => Stores d m₂ m' ∧ _) m₂ :=
    pushArgs_fault (N := False) (hp.trade htrade) hspace hstack hargc hlen
      fun hover _ _ => ⟨rfl, hover⟩
  rw [Wp] at hspec
  split at hspec
  · rename_i hok
    rw [hok]
    simp only [reduceCtorEq, false_iff]
    apply hspec.2
  · rename_i hfault
    obtain ⟨rfl, hover⟩ := hspec
    simp only [hfault, true_iff]
    apply hover

/-- `exec` follows a null pointer while it copies the arguments exactly if they overrun the new
image. -/
theorem exec_args_fault_iff
    {s : Kernel} {path : List UInt8} {ip : Inode} {elf : Elfhdr} {m₁ m₂ : Memory}
    (h : (kernelSys L).Reachable s) (hsz : u.sz.toNat < KERNBASE)
    (hargv : sysExec u = some (path, argv)) (hsetup : setupkvm L s.mem = .ok (some d, m₁))
    (hload : loadImage L ip elf d m₁ = .ok (some sz, m₂)) :
  pushArgs (throw .nullDeref) d sz argv m₂ = .error .nullDeref ↔ Overruns sz sz argv
  := by
  obtain ⟨hargc, hlen⟩ := sysExec_spec hargv
  apply pushArgs_nullDeref_iff h hsetup hload hargc
  intro str hstr
  have := hlen str hstr
  omega

/-! ### A program without segments -/

/-- `exec` of a program without segments, with enough free pages. -/
theorem exists_image
    (ip : Inode) (elf : Elfhdr) (hp : Pool L m 0) (hlen : 68 ≤ m.freelist.length)
    (hphnum : elf.phnum = 0) :
  ∃ d m₁ m₂, setupkvm L m = .ok (some d, m₁) ∧
    loadImage L ip elf d m₁ = .ok (some (2 * PGSIZE), m₂)
  := by
  obtain ⟨r, m₁, hsetup, hr⟩ := (setupkvm_spec hp).exists_ok
  cases r with
  | none =>
    have := hr.2
    omega
  | some d =>
    obtain ⟨htree, hkernel⟩ := hr
    have hp₁ : Pool L m₁ (m₁.owned d) := by
      rw [Memory.owned, hkernel.frames, add_zero]
      apply hp.trade htree
    have hcard := htree.card
    rw [hkernel.card_tree, Multiset.card_zero] at hcard
    have hpages : npages (pgroundup 0 + 2 * PGSIZE) = 2 := by
      decide
    have htables : newTables m₁ d (npages 0) 2 = 1 := hkernel.newTables (by decide)
    have hspec : Wp NoFault (loadImage L ip elf d) (fun r _ => r = some (2 * PGSIZE)) m₁ := by
      rw [loadImage, wp_bind, hphnum, loadSegments, wp_pure, wp_bind]
      apply (allocuvm_spec hp₁ (by decide) (Nat.zero_le _)
        fun e => hkernel.space.empty (by decide)).mono
      rintro r m₂ (⟨rfl, F, hadds⟩ | ⟨-, -, -, hlacks⟩)
      · rw [if_neg (by decide), wp_bind]
        have hs₂ := hkernel.space.adds hp₁ (by decide) hadds
        apply (clearpteu_spec (v := 0) (hp₁.trade hadds.trade_owned) hs₂ (by decide)).mono
        intro _ _ _
        rfl
      · rw [Lacks, hpages, htables] at hlacks
        omega
    obtain ⟨r, m₂, hload, rfl⟩ := hspec.exists_ok
    exact ⟨d, m₁, m₂, hsetup, hload⟩

/-- A program without segments. -/
def noSegments : Inode where
  readi off n :=
    some ((([0x7f, 0x45, 0x4c, 0x46] ++ List.replicate 48 0 : List UInt8).drop off).take n)
  length_le h := by
    cases h
    apply List.length_take_le

/-- `exec` of the program without segments goes on with the arguments. -/
theorem execImage_noSegments
    {m₁ m₂ : Memory} (hsetup : setupkvm L m = .ok (some d, m₁))
    (hload : loadImage L noSegments ⟨ELF_MAGIC, 0, 0, 0⟩ d m₁ = .ok (some sz, m₂)) :
  execImage L null noSegments argv m = (do
    match ← pushArgs null d sz argv with
    | none => do
      freevm L d
      return none
    | some sp => return some (Image.mk d sz 0 sp)) m₂
  := by
  have hread : noSegments.readi 0 Elfhdr.size =
      some ([0x7f, 0x45, 0x4c, 0x46] ++ List.replicate 48 0) := by
    decide
  have helf : Elfhdr.ofBytes ([0x7f, 0x45, 0x4c, 0x46] ++ List.replicate 48 0) =
      ⟨ELF_MAGIC, 0, 0, 0⟩ := by
    rfl
  rw [execImage, hread]
  dsimp only
  rw [if_neg (by decide), helf, if_neg (by decide)]
  have hbind {α β : Type} {x : Mem α} {f : α → Mem β} {m m' : Memory} {a : α}
      (h : x m = .ok (a, m')) : (x >>= f) m = f a m' := by
    simp only [bind, StateT.bind, Except.bind, h]
  exact (hbind hsetup).trans (hbind hload)

/-- A process that calls `exec("", {str, 0})` with a string of one byte. -/
def oneArg : Caller where
  sz := 16
  esp := 0
  mem addr := if addr = 8 then 8 else 0

theorem exec_args_fault_iff_oneArg :
  ∃ s d m₁ m₂, (kernelSys .sample).Reachable s ∧ sysExec oneArg = some ([], [[8]]) ∧
    setupkvm .sample s.mem = .ok (some d, m₁) ∧
    loadImage .sample noSegments ⟨ELF_MAGIC, 0, 0, 0⟩ d m₁ = .ok (some (2 * PGSIZE), m₂) ∧
    pushArgs (throw .nullDeref) d (2 * PGSIZE) [[8]] m₂ ≠ .error .nullDeref
  := by
  obtain ⟨s, hreach, hinv, -, -, -, -, hlen⟩ := exists_running
  have hp := hinv.pool.of_le (Multiset.zero_le _)
  have hargv : sysExec oneArg = some ([], [[8]]) := by
    decide
  obtain ⟨d, m₁, m₂, hsetup, hload⟩ :=
    exists_image noSegments ⟨ELF_MAGIC, 0, 0, 0⟩ hp (by omega) rfl
  refine ⟨s, d, m₁, m₂, hreach.reachable, hargv, hsetup, hload, ?_⟩
  rw [ne_eq, exec_args_fault_iff hreach.reachable (by decide) hargv hsetup hload]
  apply not_overruns (by decide)

/-- A process that calls `exec("a", {str, 0})` with a string of 32 Mbyte at address 4, and has the
word `w` at address 0. -/
def longArg (w : UInt32) : Caller where
  sz := 0x4000000
  esp := 0x3000020
  mem addr :=
    if addr < 4 then .ofNat (w.toNat / 2 ^ (8 * addr.toNat))
    else if addr < 0x200200b then 7
    else if addr = 0x3000000 then 97
    else if addr = 0x3000010 then 4
    else if addr = 0x3000027 then 3
    else if addr = 0x3000028 then 16
    else if addr = 0x300002b then 3
    else 0

theorem fetchstr_longArg (w : UInt32) :
  (longArg w).fetchstr 4 = some (List.replicate 0x2002007 7)
  := by
  rw [Caller.fetchstr, if_neg (by simp [longArg])]
  apply Caller.fetchstrLoop_replicate (by decide)
  · intro i hi
    have hi' : (UInt32.ofNat i).toNat = i := UInt32.toNat_ofNat_of_lt' (by change i < 2 ^ 32; omega)
    have hsum : (4 + UInt32.ofNat i).toNat = 4 + i := by
      rw [UInt32.toNat_add, hi']
      change (4 + i) % 2 ^ 32 = _
      omega
    change (if _ then _ else if _ then _ else _) = _
    rw [if_neg, if_pos]
    · rw [UInt32.lt_iff_toNat_lt, hsum]
      change 4 + i < 0x200200b
      omega
    · rw [UInt32.lt_iff_toNat_lt, hsum]
      change ¬ 4 + i < 4
      omega
  · simp [longArg]
  · simp [longArg]

theorem sysExec_eq_some
    (pathp uargv : UInt32) {path : List UInt8} (hpath : u.argint 0 = some pathp)
    (huargv : u.argint 1 = some uargv) (hname : u.fetchstr pathp = some path)
    (hargv : argvLoop u uargv MAXARG 0 = some argv) :
  sysExec u = some (path, argv)
  := by
  rw [sysExec, Caller.argstr, hpath, huargv]
  simp only [Option.bind_eq_bind, Option.bind_some, hname, hargv]
  rfl

theorem sysExec_longArg (w : UInt32) :
  sysExec (longArg w) = some ([97], [List.replicate 0x2002007 7])
  := by
  have hfirst : (longArg w).fetchint (0x3000010 + 4 * .ofNat 0) = some 4 := by
    simp [longArg, Caller.fetchint, Caller.word]
  have hsecond : (longArg w).fetchint (0x3000010 + 4 * .ofNat (0 + 1)) = some 0 := by
    simp [longArg, Caller.fetchint, Caller.word]
  have hend : argvLoop (longArg w) 0x3000010 31 (0 + 1) = some [] := by
    rw [argvLoop, hsecond]
    rfl
  apply sysExec_eq_some 0x3000000 0x3000010
  · simp [longArg, Caller.argint, Caller.fetchint, Caller.word]
    decide
  · simp [longArg, Caller.argint, Caller.fetchint, Caller.word]
    decide
  · rw [Caller.fetchstr, if_neg (by simp [longArg])]
    apply Caller.fetchstrLoop_replicate (k := 1) (by decide)
    · intro i hi
      obtain rfl := Nat.lt_one_iff.mp hi
      simp [longArg]
    · simp [longArg]
    · change 1 < 0x4000000 - 0x3000000
      decide
  · rw [argvLoop, hfirst, hend, Option.bind_eq_bind, Option.bind_some, if_neg (by decide),
      fetchstr_longArg]
    rfl

/-- `exec` follows a null pointer. -/
theorem exec_follows_null :
  ∃ s path argv, (kernelSys .sample).Reachable s ∧ (s.proc 0).state = .running ∧
    (s.proc 0).sz = (longArg 0).sz.toNat ∧ sysExec (longArg 0) = some (path, argv) ∧
    exec .sample nullFault 0 path (some noSegments) argv s = .error .nullDeref
  := by
  obtain ⟨s, hreach, hstate, hsz, -, -, -, hlen⟩ :=
    exists_grown (n := 0x3fff000) (i := 0x3fff) (by decide) (by decide) (by decide)
  have hreach := hreach.reachable
  have hp := (Inv.of_reachable hreach).pool.of_le (Multiset.zero_le _)
  obtain ⟨d, m₁, m₂, hsetup, hload⟩ :=
    exists_image noSegments ⟨ELF_MAGIC, 0, 0, 0⟩ hp (by omega) rfl
  have hargv := sysExec_longArg 0
  obtain ⟨str, hstr⟩ : ∃ str, str = List.replicate 0x2002007 (7 : UInt8) := ⟨_, rfl⟩
  rw [← hstr] at hargv
  have hlength : str.length = 0x2002007 := by
    rw [hstr, List.length_replicate]
  refine ⟨s, [97], [str], hreach, hstate, hsz, hargv, ?_⟩
  have hfault : pushArgs (throw .nullDeref) d (2 * PGSIZE) [str] m₂ = .error .nullDeref := by
    rw [pushArgs_nullDeref_iff hreach hsetup hload]
    · refine ⟨[], str, [], rfl, ?_⟩
      rw [List.nil_append, pushed_cons, strSize, hlength]
      decide
    · rw [List.length_singleton]
      decide
    · intro t ht
      obtain rfl := List.mem_singleton.mp ht
      rw [hlength]
      decide
  have himage : execImage .sample (nullFault (s.proc 0).pgdir) noSegments [str] s.mem =
      .error .nullDeref := by
    rw [nullFault, execImage_noSegments hsetup hload]
    simp only [bind, StateT.bind, Except.bind, hfault]
  simp only [exec, onMemory, bind, StateT.bind, Except.bind, get, getThe, MonadStateOf.get,
    StateT.get, pure, Except.pure, himage]

end Xv6.Vm
