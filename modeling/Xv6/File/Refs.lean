import Xv6.File.Table
import Xv6.Lib.Ledger

/-!
# The reference counts of the open files

The count of a file is the sum of the shares of the processes: its descriptors that point to the
file, and the references that a call in progress has taken or not yet counted.  In the same way the
open ends of a pipe are the files that refer to them and the calls of `fileclose` that are about to
close them.
-/

namespace Xv6.Ftable

open Ptable (Slot NOFILE)
open Function

/-! ### Shares -/

/-- The references of a call beyond the descriptors, after `fileclose` returned. -/
def After.extra : After → FileId → ℤ
  | .ret, _ => 0
  | .close f, g => if g = f then 1 else 0
  | .exit _ f, g => if g = f then -1 else 0

/-- The references of a call beyond the descriptors of the process. -/
def Pc.extra : Pc → FileId → ℤ
  | .closing f k, g => (if g = f then 1 else 0) + k.extra g
  | .dropped _ k, g => k.extra g
  | .openFd f _ _, g => if g = f then 1 else 0
  | .dup f, g => if g = f then -1 else 0
  | .pipeAlloc₂ f₀, g => if g = f₀ then 1 else 0
  | .pipeKalloc f₀ f₁, g | .pipeFd f₀ f₁, g =>
      (if g = f₀ then 1 else 0) + if g = f₁ then 1 else 0
  | .pipeFd₂ _ f₁ _, g => if g = f₁ then 1 else 0
  | .forkStore _ _ f, g => if g = f then 1 else 0
  | .exitStore _ f, g => if g = f then -1 else 0
  | .user, _ | .openAlloc _ _, _ | .openSet _ _ _, _ | .pipeAlloc, _ | .forkCopy _, _
  | .forkDup _ _, _ | .exitScan _, _ => 0

/-- The descriptors of a process that point to a file. -/
def St.slots (s : St) (p : Slot) (f : FileId) : ℤ :=
  ∑ fd, if s.ofile p fd = some f then 1 else 0

/-- The share of a process in a file. -/
def St.share (s : St) (p : Slot) (f : FileId) : ℤ :=
  s.slots p f + (s.pc p).extra f

/-- The file is an end of a pipe: `e` has the page and whether it is the end to write to. -/
def File.isEnd (x : File) (e : Nat × Bool) : Prop :=
  x.type = .pipe ∧ x.pipe = e.1 ∧ x.writable = e.2

instance (x : File) (e : Nat × Bool) : Decidable (x.isEnd e) :=
  inferInstanceAs (Decidable (_ ∧ _ ∧ _))

/-- Whether an end of a pipe is open. -/
def Pipe.isOpen (b : Pipe) (w : Bool) : Bool :=
  if w then b.writeopen else b.readopen

/-- One if the end `e` of a pipe is open. -/
def St.opens (s : St) (e : Nat × Bool) : ℤ :=
  match s.pipe e.1 with
  | none => 0
  | some b => if b.isOpen e.2 then 1 else 0

/-- The calls of `fileclose` that are about to close an end of a pipe. -/
def Pc.ends : Pc → Nat × Bool → ℤ
  | .dropped ff _, e => if ff.isEnd e then 1 else 0
  | _, _ => 0

/-- The shares in the open ends of pipes: of the files, and of the processes. -/
def St.endShare (s : St) : FileId ⊕ Slot → Nat × Bool → ℤ
  | .inl f, e => if (s.file f).isEnd e then 1 else 0
  | .inr p, e => (s.pc p).ends e

/-! ### The invariant -/

/-- Only one process refers to the file, and its fields are not set yet. -/
structure Fresh (s : St) (f : FileId) : Prop where
  ref : (s.file f).ref = 1
  type : (s.file f).type = .none

theorem Fresh.congr {s s' : St} {f : FileId} (h : Fresh s f) (hfile : s'.file f = s.file f) :
  Fresh s' f
  := by
  constructor
  · rw [hfile, h.ref]
  · rw [hfile, h.type]

/-- The files whose fields a call is about to set. -/
def Pc.fresh : Pc → FileId → Prop
  | .openFd f _ _, g | .openSet f _ _, g | .pipeAlloc₂ f, g => g = f
  | .pipeKalloc f₀ f₁, g => g = f₀ ∨ g = f₁
  | _, _ => False

/-- The slot that a call of `fork` prepares. -/
def Pc.child : Pc → Option Slot
  | .forkCopy np | .forkDup np _ | .forkStore np _ _ => some np
  | _ => none

/-- `exit` has cleared the descriptors before `i`. -/
def St.cleared (s : St) (p : Slot) (i : Nat) : Prop :=
  ∀ j : Fin NOFILE, j < i → s.ofile p j = none

/-- What holds of the descriptors of a process in a call of `exit`. -/
def After.At (s : St) (p : Slot) : After → Prop
  | .exit i f => s.ofile p i = some f ∧ s.cleared p i
  | _ => True

/-- What holds of the descriptors of a process in a call. -/
def Pc.At (s : St) (p : Slot) : Pc → Prop
  | .closing f k => k.At s p ∧ ∀ i g, k = .exit i g → g = f
  | .dropped _ k => k.At s p
  | .openSet f _ _ => ∃ fd, s.ofile p fd = some f
  | .dup f => ∃ fd fd', fd ≠ fd' ∧ s.ofile p fd = some f ∧ s.ofile p fd' = some f
  | .pipeKalloc f₀ f₁ => f₀ ≠ f₁
  | .pipeFd₂ f₀ _ fd₀ => s.ofile p fd₀ = some f₀
  | .exitScan i => s.cleared p i
  | .exitStore i f => s.ofile p i = some f ∧ s.cleared p i
  | _ => True

/-- The descriptors of the child that `fork` has not assigned yet are empty. -/
def Pc.Prepares (s : St) : Pc → Prop
  | .forkCopy np => ∀ fd, s.ofile np fd = none
  | .forkDup np i => ∀ j : Fin NOFILE, i ≤ j → s.ofile np j = none
  | .forkStore np i _ => ∀ j : Fin NOFILE, i ≤ j → s.ofile np j = none
  | _ => True

/-- The invariant of the open files. -/
structure Inv (s : St) : Prop where
  refs : Ledger (fun f => ((s.file f).ref : ℤ)) s.share
  ends : Ledger s.opens s.endShare
  closed : ∀ f, (s.file f).ref = 0 → (s.file f).type = .none
  used : ∀ a b, s.pipe a = some b → b.readopen = true ∨ b.writeopen = true
  place : ∀ p, (s.pc p).At s p
  fresh : ∀ p f, (s.pc p).fresh f → Fresh s f
  idle : ∀ p, s.life p ≠ .active → s.pc p = .user
  empty : ∀ p, s.life p = .unused ∨ s.life p = .zombie → ∀ fd, s.ofile p fd = none
  child : ∀ p np, (s.pc p).child = some np → s.life np = .embryo
  prepares : ∀ p, (s.pc p).Prepares s
  unique : ∀ p q np, (s.pc p).child = some np → (s.pc q).child = some np → p = q

variable {s s' : St} {p : Slot} {f : FileId} {k k₀ : Pc}

/-! ### Counting descriptors -/

theorem St.slots_nonneg (s : St) (p : Slot) (f : FileId) :
  0 ≤ s.slots p f
  := by
  apply Finset.sum_nonneg
  intro fd _
  split <;> omega

theorem St.one_le_slots {fd : Fin NOFILE} (h : s.ofile p fd = some f) :
  1 ≤ s.slots p f
  := by
  have hle := Finset.single_le_sum
    (f := fun fd => if s.ofile p fd = some f then (1 : ℤ) else 0) (s := Finset.univ)
    (fun fd _ => by split <;> omega) (Finset.mem_univ fd)
  rw [if_pos h] at hle
  exact hle

theorem St.two_le_slots
    {fd fd' : Fin NOFILE} (hne : fd ≠ fd') (h : s.ofile p fd = some f)
    (h' : s.ofile p fd' = some f) :
  2 ≤ s.slots p f
  := by
  rw [slots, ← Finset.add_sum_erase _ _ (Finset.mem_univ fd), if_pos h]
  have hle := Finset.single_le_sum
    (f := fun fd => if s.ofile p fd = some f then (1 : ℤ) else 0) (s := Finset.univ.erase fd)
    (fun fd _ => by split <;> omega) (Finset.mem_erase.mpr ⟨hne.symm, Finset.mem_univ fd'⟩)
  rw [if_pos h'] at hle
  omega

theorem St.slots_eq_zero (h : ∀ fd, s.ofile p fd ≠ some f) :
  s.slots p f = 0
  := by
  apply Finset.sum_eq_zero
  intro fd _
  exact if_neg (h fd)

theorem St.slots_congr (h : s'.ofile p = s.ofile p) (f : FileId) :
  s'.slots p f = s.slots p f
  := by rw [slots, slots, h]

theorem St.setFd_ofile_self (s : St) (p : Slot) (fd : Fin NOFILE) (x : Option FileId) :
  (s.setFd p fd x).ofile p = update (s.ofile p) fd x
  := update_self ..

/-- Assigning to a descriptor. -/
theorem St.slots_setFd
    {fd : Fin NOFILE} {x : Option FileId} (h : s'.ofile p = update (s.ofile p) fd x)
    (f : FileId) :
  s'.slots p f - s.slots p f
    = (if x = some f then 1 else 0) - if s.ofile p fd = some f then 1 else 0
  := by
  rw [slots, slots, h, ← Finset.add_sum_erase _ _ (Finset.mem_univ fd),
    ← Finset.add_sum_erase Finset.univ (fun fd => if s.ofile p fd = some f then (1 : ℤ) else 0)
      (Finset.mem_univ fd), update_self]
  have hrest : ∀ i ∈ Finset.univ.erase fd,
      (if update (s.ofile p) fd x i = some f then (1 : ℤ) else 0)
        = if s.ofile p i = some f then 1 else 0 := by
    intro i hi
    rw [update_of_ne (Finset.ne_of_mem_erase hi)]
  rw [Finset.sum_congr rfl hrest]
  omega

/-! ### What a process in a call may rely on -/

theorem Pc.At.congr (h : s'.ofile p = s.ofile p) (hk : k.At s p) :
  k.At s' p
  := by
  cases k with
  | closing f j | dropped ff j => cases j <;> simp_all [Pc.At, After.At, St.cleared]
  | _ => simp_all [Pc.At, St.cleared]

theorem Pc.Prepares.congr
    (h : ∀ np, k.child = some np → s'.ofile np = s.ofile np) (hk : k.Prepares s) :
  k.Prepares s'
  := by
  cases k with
  | forkCopy np | forkDup np i | forkStore np i f => simp_all [Pc.Prepares, Pc.child]
  | _ => trivial

theorem Pc.prepares_of_child (h : k.child = none) : k.Prepares s
  := by
  cases k with
  | forkCopy np | forkDup np i | forkStore np i f => cases h
  | _ => trivial

/-- What a process that goes from `k₀` to `k` needs of the descriptors. -/
structure Pc.Fits (k₀ k : Pc) (s : St) (p : Slot) : Prop where
  place : k.At s p
  child : ∀ np, k.child = some np → k₀.child = some np
  prepares : k.Prepares s

theorem Pc.Fits.congr (h : k₀.Fits k s p) (hofile : s'.ofile = s.ofile) : k₀.Fits k s' p
  := by
  constructor
  · apply h.place.congr
    rw [hofile]
  · exact h.child
  · apply h.prepares.congr
    intro np _
    rw [hofile]

theorem Pc.Fits.of_child (hplace : k.At s p) (hchild : k.child = none) : k₀.Fits k s p
  := by
  refine ⟨hplace, ?_, Pc.prepares_of_child hchild⟩
  rw [hchild]
  exact nofun

/-- A descriptor covers a reference that is owed. -/
theorem St.slots_owed {fd : Fin NOFILE} {g : FileId} (h : s.ofile p fd = some g) (f : FileId) :
  0 ≤ s.slots p f + if f = g then -1 else 0
  := by
  split
  · subst f
    have := one_le_slots h
    omega
  · have := s.slots_nonneg p f
    omega

/-- The shares are not negative: a call that owes a reference has the descriptors for it. -/
theorem Pc.At.share_nonneg (h : (s.pc p).At s p) (f : FileId) :
  0 ≤ s.share p f
  := by
  have hpos := s.slots_nonneg p f
  rw [St.share]
  cases hk : s.pc p with
  | closing g j =>
    rw [hk] at h
    cases j with
    | ret | close g' =>
      simp only [Pc.extra, After.extra]
      omega
    | exit i g' =>
      cases h.2 i g' rfl
      simp only [Pc.extra, After.extra]
      split <;> omega
  | dropped ff j =>
    rw [hk] at h
    cases j with
    | ret | close g' =>
      simp only [Pc.extra, After.extra]
      omega
    | exit i g' => exact St.slots_owed h.1 f
  | dup g =>
    rw [hk] at h
    obtain ⟨fd, -, -, hfd, -⟩ := h
    exact St.slots_owed hfd f
  | exitStore i g =>
    rw [hk] at h
    exact St.slots_owed h.1 f
  | _ =>
    simp only [Pc.extra]
    omega

/-- A process has a share in a file whose fields it is about to set. -/
theorem Pc.At.share_of_fresh (h : (s.pc p).At s p) (hf : (s.pc p).fresh f) :
  1 ≤ s.share p f
  := by
  have hpos := s.slots_nonneg p f
  rw [St.share]
  cases hk : s.pc p with
  | openFd g ip omode | pipeAlloc₂ g =>
    rw [hk] at hf
    cases hf
    simp only [Pc.extra, if_true]
    omega
  | openSet g ip omode =>
    rw [hk] at hf h
    cases hf
    obtain ⟨fd, hfd⟩ := h
    have := St.one_le_slots hfd
    simp only [Pc.extra]
    omega
  | pipeKalloc f₀ f₁ =>
    rw [hk] at hf
    simp only [Pc.extra]
    obtain hf | hf := hf
    · rw [if_pos hf]
      omega
    · rw [if_pos hf]
      omega
  | _ =>
    rw [hk] at hf
    cases hf

namespace Inv

theorem share_nonneg (h : Inv s) (f : FileId) (p : Slot) :
  0 ≤ s.share p f
  := (h.place p).share_nonneg f

/-- A file in which a process has a share is open. -/
theorem ref_pos (h : Inv s) (hp : 1 ≤ s.share p f) :
  1 ≤ (s.file f).ref
  := by
  have := h.refs.le (h.share_nonneg f) p
  omega

/-- No other process is about to set the fields of a file in which `p` has a share. -/
theorem not_fresh (h : Inv s) (hp : 1 ≤ s.share p f) {q : Slot} (hq : q ≠ p) :
  ¬ (s.pc q).fresh f
  := by
  intro hf
  have hshare := (h.place q).share_of_fresh hf
  have hle := h.refs.add_le (h.share_nonneg f) hq
  have hone := (h.fresh q f hf).ref
  omega

/-- A step of the process `p` from `k₀` to `k` in a call, which may change its descriptors and those
of the process that it prepares. -/
theorem of_step
    (h : Inv s) (hp : s.life p = .active) (hk₀ : s.pc p = k₀) (hk : s'.pc p = k)
    (hpc : ∀ q, q ≠ p → s'.pc q = s.pc q) (hlife : s'.life = s.life)
    (hofile : ∀ q, q ≠ p → k₀.child ≠ some q → s'.ofile q = s.ofile q)
    (hfile : ∀ q f, q ≠ p → (s.pc q).fresh f → s'.file f = s.file f)
    (hrefs : Ledger (fun f => ((s'.file f).ref : ℤ)) s'.share)
    (hends : Ledger s'.opens s'.endShare)
    (hclosed : ∀ f, (s'.file f).ref = 0 → (s'.file f).type = .none)
    (hused : ∀ a b, s'.pipe a = some b → b.readopen = true ∨ b.writeopen = true)
    (hfresh : ∀ f, k.fresh f → Fresh s' f) (hfits : k₀.Fits k s' p) :
  Inv s'
  := by
  subst hk₀ hk
  have hnot (q : Slot) (hq : s.life q ≠ .active) : q ≠ p := by
    rintro rfl
    exact hq hp
  have hold (q np : Slot) (hq : (s'.pc q).child = some np) : (s.pc q).child = some np := by
    by_cases hqp : q = p
    · subst hqp
      exact hfits.child np hq
    · rw [← hpc q hqp]
      exact hq
  constructor
  · exact hrefs
  · exact hends
  · exact hclosed
  · exact hused
  · intro q
    by_cases hq : q = p
    · subst hq
      exact hfits.place
    · rw [hpc q hq]
      by_cases hchild : (s.pc p).child = some q
      · -- The process that `fork` prepares makes no steps.
        rw [h.idle q (by rw [h.child p q hchild]; exact nofun)]
        trivial
      · exact (h.place q).congr (hofile q hq hchild)
  · intro q f hf
    by_cases hq : q = p
    · subst hq
      exact hfresh f hf
    · rw [hpc q hq] at hf
      exact (h.fresh q f hf).congr (hfile q f hq hf)
  · intro q hq
    rw [hlife] at hq
    rw [hpc q (hnot q hq)]
    exact h.idle q hq
  · intro q hq fd
    rw [hlife] at hq
    have hidle : s.life q ≠ .active ∧ s.life q ≠ .embryo := by
      obtain hq | hq := hq <;> rw [hq] <;> exact ⟨nofun, nofun⟩
    rw [hofile q (hnot q hidle.1)]
    · exact h.empty q hq fd
    · exact fun hchild => hidle.2 (h.child p q hchild)
  · intro q np hq
    rw [hlife]
    exact h.child q np (hold q np hq)
  · intro q
    by_cases hqp : q = p
    · subst hqp
      exact hfits.prepares
    · rw [hpc q hqp]
      apply (h.prepares q).congr
      intro np hnp
      apply hofile
      · apply hnot
        rw [h.child q np hnp]
        exact nofun
      · intro hchild
        exact hqp (h.unique q p np hnp hchild)
  · exact fun q r np hq hr => h.unique q r np (hold q np hq) (hold r np hr)

end Inv

/-! ### The steps of a call -/

theorem St.share_congr (hpc : s'.pc p = s.pc p) (hofile : s'.ofile p = s.ofile p) (f : FileId) :
  s'.share p f = s.share p f
  := by rw [share, share, hpc, slots_congr hofile]

theorem St.opens_congr (h : s'.pipe = s.pipe) : s'.opens = s.opens
  := by
  funext e
  rw [opens, opens, h]

section

variable (h : Inv s) (hk₀ : s.pc p = k₀) (hk : s'.pc p = k) (hpc : ∀ q, q ≠ p → s'.pc q = s.pc q)

include h hk₀ hk hpc

/-- The references after a step that changes no descriptor. -/
theorem Inv.refs_update
    (hofile : s'.ofile = s.ofile)
    (href : ∀ g, ((s'.file g).ref : ℤ) - ((s.file g).ref : ℤ) = k.extra g - k₀.extra g) :
  Ledger (fun f => ((s'.file f).ref : ℤ)) s'.share
  := by
  apply h.refs.update p
  · exact fun q hq => St.share_congr (hpc q hq) (by rw [hofile])
  · intro g
    have hslots : s'.slots p g = s.slots p g := St.slots_congr (by rw [hofile]) g
    rw [href, St.share, St.share, hk₀, hk, hslots]
    omega

/-- The open ends of pipes after a step that changes none. -/
theorem Inv.ends_congr
    (hpipe : s'.pipe = s.pipe) (hfile : ∀ g e, (s'.file g).isEnd e ↔ (s.file g).isEnd e)
    (hends : k.ends = k₀.ends) :
  Ledger s'.opens s'.endShare
  := by
  rw [St.opens_congr hpipe]
  apply h.ends.update (.inr p)
  · intro c hc e
    cases c with
    | inl g => simp only [St.endShare, hfile]
    | inr q => rw [St.endShare, St.endShare, hpc q fun hq => hc (by rw [hq])]
  · intro e
    rw [St.endShare, St.endShare, hk₀, hk, hends]
    omega

end

/-- A step that changes neither files nor pipes, and nobody but `p`. -/
structure Private (p : Slot) (s s' : St) : Prop where
  file : s'.file = s.file
  pipe : s'.pipe = s.pipe
  life : s'.life = s.life
  pc : ∀ q, q ≠ p → s'.pc q = s.pc q
  ofile : ∀ q, q ≠ p → s'.ofile q = s.ofile q

theorem St.goto_pc (s : St) (p : Slot) (k : Pc) : (s.goto p k).pc p = k
  := update_self ..

theorem St.goto_pc_of_ne (s : St) {p q : Slot} (k : Pc) (h : q ≠ p) : (s.goto p k).pc q = s.pc q
  := update_of_ne h ..

theorem Inv.private
    (h : Inv s) (hp : s.life p = .active) (hs : Private p s s') (hk₀ : s.pc p = k₀)
    (hk : s'.pc p = k) (hshare : ∀ f, s'.share p f = s.share p f) (hends : k.ends = k₀.ends)
    (hfresh : ∀ f, k.fresh f → k₀.fresh f) (hfits : k₀.Fits k s' p) :
  Inv s'
  := by
  obtain ⟨hfile, hpipe, hlife, hpc, hofile⟩ := hs
  apply h.of_step hp hk₀ hk hpc hlife
  · exact fun q hq _ => hofile q hq
  · intro q f _ _
    rw [hfile]
  · rw [hfile]
    apply h.refs.update p
    · exact fun q hq => St.share_congr (hpc q hq) (hofile q hq)
    · intro f
      rw [hshare]
      omega
  · apply h.ends_congr hk₀ hk hpc hpipe _ hends
    intro g e
    rw [hfile]
  · rw [hfile]
    exact h.closed
  · rw [hpipe]
    exact h.used
  · intro f hf
    apply (h.fresh p f (by rw [hk₀]; exact hfresh f hf)).congr
    rw [hfile]
  · exact hfits

theorem St.setFile_self (s : St) (f : FileId) (x : File) : (s.setFile f x).file f = x
  := update_self ..

theorem St.setFile_of_ne (s : St) {f g : FileId} (x : File) (hg : g ≠ f) :
  (s.setFile f x).file g = s.file g
  := update_of_ne hg ..

theorem St.filealloc_eq_some (h : s.filealloc = some f) :
  (s.file f).ref = 0
  := by simpa using List.find?_some h

/-- No step of the system fails, and the invariant holds afterwards. -/
abbrev Fine : Option (Except Fault St) → Prop := System.Outcome (fun _ => True) Inv

section

variable (h : Inv s) (hp : s.life p = .active) (hk : s.pc p = k₀)

include h hp hk

/-- A process goes on without changing anything else. -/
theorem Inv.goto
    (k : Pc) (hextra : ∀ g, k.extra g = k₀.extra g) (hends : k.ends = k₀.ends)
    (hfresh : ∀ f, k.fresh f → k₀.fresh f) (hfits : k₀.Fits k s p) :
  Inv (s.goto p k)
  := by
  have hs : Private p s (s.goto p k) :=
    ⟨rfl, rfl, rfl, fun _ => St.goto_pc_of_ne s k, fun _ _ => rfl⟩
  apply h.private hp hs hk (St.goto_pc ..)
  · intro f
    rw [St.share, St.share, St.goto_pc, hk, hextra]
    rfl
  · exact hends
  · exact hfresh
  · exact hfits.congr rfl

/-- A process assigns to one of its descriptors and goes on. -/
theorem Inv.setFd
    (fd : Fin NOFILE) (x : Option FileId) (k : Pc)
    (hextra : ∀ f, k.extra f - k₀.extra f
      = (if s.ofile p fd = some f then 1 else 0) - if x = some f then 1 else 0)
    (hplace : k.At (s.setFd p fd x) p) (hends : k.ends = k₀.ends)
    (hfresh : ∀ f, k.fresh f → k₀.fresh f) (hchild : k.child = none) :
  Inv ((s.setFd p fd x).goto p k)
  := by
  have hs : Private p s ((s.setFd p fd x).goto p k) :=
    ⟨rfl, rfl, rfl, fun _ => St.goto_pc_of_ne _ k, fun _ hq => update_of_ne hq ..⟩
  apply h.private hp hs hk (St.goto_pc ..)
  · intro f
    have hslots : ((s.setFd p fd x).goto p k).slots p f - s.slots p f
        = (if x = some f then 1 else 0) - if s.ofile p fd = some f then 1 else 0 :=
      St.slots_setFd (s.setFd_ofile_self p fd x) f
    have := hextra f
    rw [St.share, St.share, St.goto_pc, hk]
    omega
  · exact hends
  · exact hfresh
  · exact .of_child (hplace.congr rfl) hchild

/-- A process assigns to a file that nobody else is about to set, and goes on. -/
theorem Inv.setFile
    (f : FileId) (x : File) (k : Pc)
    (hextra : ∀ g, k.extra g - k₀.extra g
      = if g = f then (x.ref : ℤ) - ((s.file f).ref : ℤ) else 0)
    (hothers : ∀ q, q ≠ p → ¬ (s.pc q).fresh f) (hclosed : x.ref = 0 → x.type = .none)
    (hends : Ledger ((s.setFile f x).goto p k).opens ((s.setFile f x).goto p k).endShare)
    (hfresh : ∀ g, k.fresh g → Fresh (s.setFile f x) g) (hfits : k₀.Fits k s p) :
  Inv ((s.setFile f x).goto p k)
  := by
  have hpc (q : Slot) (hq : q ≠ p) : ((s.setFile f x).goto p k).pc q = s.pc q :=
    St.goto_pc_of_ne _ k hq
  apply h.of_step hp hk (St.goto_pc ..) hpc rfl
  · exact fun q _ _ => rfl
  · intro q g hq hg
    apply St.setFile_of_ne
    rintro rfl
    exact hothers q hq hg
  · apply h.refs_update hk (St.goto_pc ..) hpc rfl
    intro g
    rw [hextra]
    change (((s.setFile f x).file g).ref : ℤ) - _ = _
    by_cases hg : g = f
    · rw [hg, if_pos rfl, St.setFile_self]
    · rw [if_neg hg, St.setFile_of_ne s x hg, sub_self]
  · exact hends
  · intro g hg
    change ((s.setFile f x).file g).type = _
    change ((s.setFile f x).file g).ref = _ at hg
    by_cases hgf : g = f
    · rw [hgf, St.setFile_self] at hg ⊢
      exact hclosed hg
    · rw [St.setFile_of_ne s x hgf] at hg ⊢
      exact h.closed g hg
  · exact h.used
  · exact fun g hg => (hfresh g hg).congr rfl
  · exact hfits.congr rfl

/-- A process changes the count of a file that stays open, and goes on. -/
theorem Inv.recount
    (f : FileId) (n : Nat) (hn : 1 ≤ n) (k : Pc)
    (hextra : ∀ g, k.extra g - k₀.extra g
      = if g = f then (n : ℤ) - ((s.file f).ref : ℤ) else 0)
    (hends : k.ends = k₀.ends) (hothers : ∀ q, q ≠ p → ¬ (s.pc q).fresh f)
    (hfresh : ∀ g, k.fresh g → Fresh (s.setFile f { s.file f with ref := n }) g)
    (hfits : k₀.Fits k s p) :
  Inv ((s.setFile f { s.file f with ref := n }).goto p k)
  := by
  apply h.setFile hp hk f _ k hextra hothers
  · intro hzero
    change n = 0 at hzero
    omega
  · refine h.ends_congr hk (St.goto_pc ..) (fun _ => St.goto_pc_of_ne _ k) rfl ?_ hends
    intro g e
    change ((s.setFile f _).file g).isEnd e ↔ _
    by_cases hg : g = f
    · rw [hg, St.setFile_self]
      rfl
    · rw [St.setFile_of_ne s _ hg]
  · exact hfresh
  · exact hfits

/-- A process with a share in a file counts another reference to it. -/
theorem Inv.filedup
    (hshare : 1 ≤ s.share p f) (k : Pc)
    (hextra : ∀ g, k.extra g - k₀.extra g = if g = f then 1 else 0)
    (hends : k.ends = k₀.ends) (hfresh : ∀ g, ¬ k.fresh g) (hfits : k₀.Fits k s p) :
  Fine (some ((s.filedup f).map fun s => s.goto p k))
  := by
  have href := h.ref_pos hshare
  rw [St.filedup, if_neg (by omega)]
  apply h.recount hp hk f _ (by omega) k
  · intro g
    rw [hextra]
    push_cast
    rw [add_sub_cancel_left]
  · exact hends
  · exact fun q hq => h.not_fresh hshare hq
  · exact fun g hg => absurd hg (hfresh g)
  · exact hfits

/-- A process takes a free file. -/
theorem Inv.filealloc
    (hf : s.filealloc = some f) (k : Pc)
    (hextra : ∀ g, k.extra g - k₀.extra g = if g = f then 1 else 0)
    (hends : k.ends = k₀.ends) (hplace : k.At s p)
    (hfresh : ∀ g, k.fresh g → g = f ∨ k₀.fresh g) (hchild : k.child = none) :
  Inv ((s.setFile f { s.file f with ref := 1 }).goto p k)
  := by
  have href := St.filealloc_eq_some hf
  apply h.recount hp hk f 1 le_rfl k
  · intro g
    rw [hextra, href]
    rfl
  · exact hends
  · intro q _ hq
    have := (h.fresh q f hq).ref
    omega
  · intro g hg
    by_cases hgf : g = f
    · subst hgf
      constructor
      · rw [St.setFile_self]
      · rw [St.setFile_self]
        exact h.closed g href
    · apply (h.fresh p g (by rw [hk]; exact (hfresh g hg).resolve_left hgf)).congr
      rw [St.setFile_of_ne s _ hgf]
  · exact .of_child hplace hchild

end

/-! ### Closing a file -/

/-- A process that is about to close a file has a share in it. -/
theorem Inv.share_closing {j : After} (h : Inv s) (hk : s.pc p = .closing f j) :
  1 ≤ s.share p f
  := by
  have hplace := h.place p
  have hpos := s.slots_nonneg p f
  rw [hk] at hplace
  rw [St.share, hk]
  cases j with
  | ret | close g =>
    simp only [Pc.extra, After.extra, if_true]
    omega
  | exit i g =>
    cases hplace.2 i g rfl
    have := St.one_le_slots hplace.1.1
    simp only [Pc.extra, After.extra, if_true]
    omega

theorem After.next_extra (j : After) : j.next.extra = j.extra
  := by
  cases j with
  | ret => rfl
  | close f =>
    funext g
    simp [After.next, Pc.extra, After.extra]
  | exit i f => rfl

theorem After.next_ends (j : After) (e : Nat × Bool) : j.next.ends e = 0
  := by cases j <;> rfl

theorem After.next_at {j : After} (h : j.At s p) : j.next.At s p
  := by
  cases j with
  | ret => trivial
  | close f => exact ⟨trivial, nofun⟩
  | exit i f => exact h

theorem After.next_fresh (j : After) (g : FileId) : ¬ j.next.fresh g
  := by cases j <;> exact id

theorem After.next_child (j : After) : j.next.child = none
  := by cases j <;> rfl

section

variable {j : After} (h : Inv s) (hp : s.life p = .active)

include h hp

/-- The last reference to a file is closed. -/
theorem Inv.drop (hk : s.pc p = .closing f j) (href : (s.file f).ref = 1) :
  Inv ((s.setFile f { s.file f with ref := 0, type := .none }).goto p (.dropped (s.file f) j))
  := by
  have hplace := h.place p
  rw [hk] at hplace
  apply h.setFile hp hk
  · intro g
    rw [href]
    simp only [Pc.extra]
    split
    · push_cast
      omega
    · omega
  · exact fun q hq => h.not_fresh (h.share_closing hk) hq
  · exact fun _ => rfl
  · apply h.ends.update₂ (a := .inl f) (b := .inr p) nofun
    · intro c hc hc' e
      cases c with
      | inl g =>
        change (if ((s.setFile f _).file g).isEnd e then (1 : ℤ) else 0) = _
        rw [St.setFile_of_ne s _ fun hg => hc (by rw [hg])]
        rfl
      | inr q =>
        rw [St.endShare, St.endShare, St.goto_pc_of_ne _ _ fun hq => hc' (by rw [hq])]
        rfl
    · intro e
      have hgone : ¬ File.isEnd { s.file f with ref := 0, type := .none } e :=
        fun he => nomatch he.1
      have hfile : ((s.setFile f { s.file f with ref := 0, type := .none }).goto p
          (.dropped (s.file f) j)).file f = { s.file f with ref := 0, type := .none } :=
        St.setFile_self ..
      change s.opens e - s.opens e = _
      simp only [St.endShare, St.goto_pc, hk, hfile, if_neg hgone, Pc.ends]
      omega
  · exact fun _ => False.elim
  · exact .of_child hplace.1 rfl

/-- The critical section of `fileclose`. -/
theorem Inv.fileclose (hk : s.pc p = .closing f j) :
  Fine (some (s.fileclose p f j))
  := by
  have hshare := h.share_closing hk
  have href := h.ref_pos hshare
  have hplace := h.place p
  rw [hk] at hplace
  rw [St.fileclose, if_neg (by omega)]
  split
  · apply h.recount hp hk f _ (by omega) j.next
    · intro g
      rw [After.next_extra]
      simp only [Pc.extra]
      split
      · push_cast [Nat.cast_sub href]
        omega
      · omega
    · funext e
      exact j.next_ends e
    · exact fun q hq => h.not_fresh hshare hq
    · exact fun g hg => absurd hg (j.next_fresh g)
    · exact .of_child (After.next_at hplace.1) j.next_child
  · exact h.drop hp hk (by omega)

/-- A process closes its end of a pipe. -/
theorem Inv.closeEnd
    {ff : File} {b : Pipe} (hk : s.pc p = .dropped ff j) (htype : ff.type = .pipe)
    (hb : s.pipe ff.pipe = some b) (hopen : b.isOpen ff.writable = true) (b' : Option Pipe)
    (hb' : ∀ w, (match b' with | none => false | some x => x.isOpen w)
      = (b.isOpen w && decide (w ≠ ff.writable)))
    (hused : ∀ x, b' = some x → x.readopen = true ∨ x.writeopen = true) :
  Inv ((s.setPipe ff.pipe b').goto p j.next)
  := by
  have hplace := h.place p
  rw [hk] at hplace
  have hpc (q : Slot) (hq : q ≠ p) : ((s.setPipe ff.pipe b').goto p j.next).pc q = s.pc q :=
    St.goto_pc_of_ne _ _ hq
  have hpipe : ((s.setPipe ff.pipe b').goto p j.next).pipe = update s.pipe ff.pipe b' := rfl
  apply h.of_step hp hk (St.goto_pc ..) hpc rfl
  · exact fun q _ _ => rfl
  · exact fun q g _ _ => rfl
  · apply h.refs_update hk (St.goto_pc ..) hpc rfl
    intro g
    rw [After.next_extra]
    change ((s.file g).ref : ℤ) - ((s.file g).ref : ℤ) = j.extra g - j.extra g
    omega
  · apply h.ends.update (.inr p)
    · intro c hc e
      cases c with
      | inl g => rfl
      | inr q => rw [St.endShare, St.endShare, hpc q fun hq => hc (by rw [hq])]
    · intro e
      obtain ⟨a, w⟩ := e
      rw [St.endShare, St.endShare, St.goto_pc, hk, After.next_ends, St.opens, St.opens, hpipe]
      simp only [Pc.ends]
      by_cases ha : a = ff.pipe
      · subst ha
        have hw := hb' w
        rw [update_self, hb]
        by_cases hww : w = ff.writable
        · subst hww
          rw [if_pos ⟨htype, rfl, rfl⟩]
          simp only [ne_eq, not_true_eq_false, decide_false, Bool.and_false] at hw
          cases b' with
          | none => simp [hopen]
          | some x =>
            simp only at hw
            simp [hw, hopen]
        · rw [if_neg fun he => hww he.2.2.symm]
          simp only [ne_eq, hww, not_false_eq_true, decide_true, Bool.and_true] at hw
          cases b' with
          | none =>
            simp only at hw
            simp [← hw]
          | some x =>
            simp only at hw
            simp [hw]
      · rw [update_of_ne ha, if_neg fun he => ha he.2.1.symm]
        omega
  · exact h.closed
  · intro a x ha
    rw [hpipe] at ha
    by_cases haf : a = ff.pipe
    · rw [haf, update_self] at ha
      exact hused x ha
    · rw [update_of_ne haf] at ha
      exact h.used a x ha
  · exact fun g hg => absurd hg (j.next_fresh g)
  · exact .of_child ((After.next_at hplace).congr rfl) j.next_child

/-- The critical section of `pipeclose`. -/
theorem Inv.pipeclose {ff : File} (hk : s.pc p = .dropped ff j) (htype : ff.type = .pipe) :
  Fine (some ((s.pipeclose ff.pipe ff.writable).map fun s => s.goto p j.next))
  := by
  -- The process has a share in the end of the pipe, so the page holds the pipe.
  have hopens : 1 ≤ s.opens (ff.pipe, ff.writable) := by
    have hle := h.ends.le (r := (ff.pipe, ff.writable)) ?_ (.inr p)
    · rw [St.endShare, hk, Pc.ends, if_pos ⟨htype, rfl, rfl⟩] at hle
      exact hle
    · intro c
      cases c with
      | inl g =>
        rw [St.endShare]
        split <;> omega
      | inr q =>
        rw [St.endShare]
        cases s.pc q with
        | dropped ff k =>
          rw [Pc.ends]
          split <;> omega
        | _ => exact le_rfl
  rw [St.opens] at hopens
  cases hb : s.pipe ff.pipe with
  | none =>
    simp [hb] at hopens
  | some b =>
    have hopen : b.isOpen ff.writable = true := by
      by_contra hno
      simp [hb, hno] at hopens
    obtain ⟨r, w⟩ := b
    have hclose := h.closeEnd hp hk htype hb hopen
    rw [St.pipeclose, hb]
    cases hw : ff.writable with
    | true =>
      rw [hw] at hopen hclose
      obtain rfl : w = true := hopen
      cases r with
      | true => exact hclose (some ⟨true, false⟩) (by decide) (by simp)
      | false => exact hclose none (by decide) nofun
    | false =>
      rw [hw] at hopen hclose
      obtain rfl : r = true := hopen
      cases w with
      | true => exact hclose (some ⟨false, true⟩) (by decide) (by simp)
      | false => exact hclose none (by decide) nofun

end

/-! ### Setting the fields of new files -/

theorem File.not_isEnd {x : File} (h : x.type ≠ .pipe) (e : Nat × Bool) : ¬ x.isEnd e
  := fun he => h he.1

theorem Fresh.not_isEnd (h : Fresh s f) (e : Nat × Bool) : ¬ (s.file f).isEnd e
  := File.not_isEnd (by rw [h.type]; exact nofun) e

/-- The end of `sys_open`. -/
theorem Inv.openSet
    {ip : Nat} {omode : UInt32} (h : Inv s) (hp : s.life p = .active)
    (hk : s.pc p = .openSet f ip omode) (x : File) (href : x.ref = (s.file f).ref)
    (htype : x.type = .inode) :
  Inv ((s.setFile f x).goto p .user)
  := by
  have hself : (s.pc p).fresh f := by
    rw [hk]
    rfl
  have hfresh := h.fresh p f hself
  apply h.setFile hp hk
  · intro g
    rw [href, sub_self, ite_self]
    rfl
  · exact fun q hq => h.not_fresh ((h.place p).share_of_fresh hself) hq
  · intro hzero
    have := hfresh.ref
    omega
  · refine h.ends_congr hk (St.goto_pc ..) (fun _ => St.goto_pc_of_ne _ _) rfl ?_ rfl
    intro g e
    change ((s.setFile f x).file g).isEnd e ↔ _
    by_cases hg : g = f
    · rw [hg, St.setFile_self]
      exact iff_of_false (File.not_isEnd (by rw [htype]; exact nofun) e) (hfresh.not_isEnd e)
    · rw [St.setFile_of_ne s x hg]
  · exact fun _ => False.elim
  · exact .of_child trivial rfl

/-- The end of `pipealloc`. -/
theorem Inv.pipeKalloc
    {f₀ f₁ : FileId} {a : Nat} (h : Inv s) (hp : s.life p = .active)
    (hk : s.pc p = .pipeKalloc f₀ f₁) (ha : s.pipe a = none) (x₀ x₁ : File)
    (href₀ : x₀.ref = (s.file f₀).ref) (href₁ : x₁.ref = (s.file f₁).ref)
    (hx₀ : x₀.isEnd (a, false)) (hx₁ : x₁.isEnd (a, true)) :
  Inv ((((s.setPipe a (some ⟨true, true⟩)).setFile f₀ x₀).setFile f₁ x₁).goto p (.pipeFd f₀ f₁))
  := by
  have hne : f₀ ≠ f₁ := by
    have := h.place p
    rw [hk] at this
    exact this
  have hself₀ : (s.pc p).fresh f₀ := by
    rw [hk]
    exact Or.inl rfl
  have hself₁ : (s.pc p).fresh f₁ := by
    rw [hk]
    exact Or.inr rfl
  have hfresh₀ := h.fresh p f₀ hself₀
  have hfresh₁ := h.fresh p f₁ hself₁
  generalize hs' : (((s.setPipe a (some ⟨true, true⟩)).setFile f₀ x₀).setFile f₁ x₁).goto p
    (.pipeFd f₀ f₁) = s'
  obtain ⟨hpc, hself, hfile, hpipe, hofile, hlife⟩ : (∀ q, q ≠ p → s'.pc q = s.pc q) ∧
      s'.pc p = .pipeFd f₀ f₁ ∧ s'.file = update (update s.file f₀ x₀) f₁ x₁ ∧
      s'.pipe = update s.pipe a (some ⟨true, true⟩) ∧ s'.ofile = s.ofile ∧
      s'.life = s.life := by
    subst hs'
    exact ⟨fun _ => St.goto_pc_of_ne _ _, St.goto_pc .., rfl, rfl, rfl, rfl⟩
  have hfile₀ : s'.file f₀ = x₀ := by
    rw [hfile, update_of_ne hne, update_self]
  have hfile₁ : s'.file f₁ = x₁ := by
    rw [hfile, update_self]
  have hother (g : FileId) (hg₀ : g ≠ f₀) (hg₁ : g ≠ f₁) : s'.file g = s.file g := by
    rw [hfile, update_of_ne hg₁, update_of_ne hg₀]
  have href (g : FileId) : (s'.file g).ref = (s.file g).ref := by
    by_cases hg₀ : g = f₀
    · rw [hg₀, hfile₀, href₀]
    · by_cases hg₁ : g = f₁
      · rw [hg₁, hfile₁, href₁]
      · rw [hother g hg₀ hg₁]
  apply h.of_step hp hk hself hpc hlife
  · intro q _ _
    rw [hofile]
  · intro q g hq hg
    apply hother
    · rintro rfl
      exact h.not_fresh ((h.place p).share_of_fresh hself₀) hq hg
    · rintro rfl
      exact h.not_fresh ((h.place p).share_of_fresh hself₁) hq hg
  · apply h.refs_update hk hself hpc hofile
    intro g
    rw [href, sub_self]
    exact (sub_self _).symm
  · apply h.ends.update₂ (a := .inl f₀) (b := .inl f₁) (fun e => hne (Sum.inl.inj e))
    · intro c hc hc' e
      cases c with
      | inl g =>
        rw [St.endShare, St.endShare, hother g (fun e => hc (by rw [e])) fun e => hc' (by rw [e])]
      | inr q =>
        rw [St.endShare, St.endShare]
        by_cases hq : q = p
        · rw [hq, hself, hk]
          rfl
        · rw [hpc q hq]
    · intro e
      obtain ⟨b, w⟩ := e
      simp only [St.endShare, hfile₀, hfile₁, St.opens, hpipe, if_neg (hfresh₀.not_isEnd (b, w)),
        if_neg (hfresh₁.not_isEnd (b, w))]
      obtain ⟨ht₀, hp₀, hw₀⟩ := hx₀
      obtain ⟨ht₁, hp₁, hw₁⟩ := hx₁
      by_cases hb : b = a
      · subst hb
        cases w <;> simp [ha, File.isEnd, Pipe.isOpen, ht₀, hp₀, hw₀, ht₁, hp₁, hw₁]
      · rw [update_of_ne hb, if_neg fun he => hb (he.2.1.symm.trans hp₀),
          if_neg fun he => hb (he.2.1.symm.trans hp₁)]
        omega
  · intro g hg
    rw [href] at hg
    rw [hother]
    · exact h.closed g hg
    · rintro rfl
      have := hfresh₀.ref
      omega
    · rintro rfl
      have := hfresh₁.ref
      omega
  · intro b x hb
    rw [hpipe] at hb
    by_cases hba : b = a
    · rw [hba, update_self] at hb
      cases hb
      exact Or.inl rfl
    · rw [update_of_ne hba] at hb
      exact h.used b x hb
  · exact fun _ => False.elim
  · exact .of_child trivial rfl

/-! ### Slots of the process table -/

/-- The slot `x` changes its state, and the process `p` goes to `k`. -/
theorem Inv.setLife
    (h : Inv s) (hk : s.pc p = k₀) (x : Slot) (l : Life) (k : Pc)
    (hp : p ≠ x → s.life p = .active ∨ k = .user)
    (hx : l ≠ .active → (s.goto p k).pc x = .user)
    (hempty : l = .unused ∨ l = .zombie → ∀ fd, s.ofile x fd = none)
    (hothers : ∀ q, q ≠ p → (s.pc q).child ≠ some x)
    (hchild : ∀ np, k.child = some np → np = x ∧ l = .embryo) (hprepares : k.Prepares s)
    (hextra : k.extra = k₀.extra) (hends : k.ends = k₀.ends) (hplace : k.At s p)
    (hfresh : ∀ f, ¬ k.fresh f) :
  Inv ((s.setLife x l).goto p k)
  := by
  have hself := (s.setLife x l).goto_pc p k
  have hpc (q : Slot) (hq : q ≠ p) : ((s.setLife x l).goto p k).pc q = s.pc q :=
    St.goto_pc_of_ne _ k hq
  have hlife : ((s.setLife x l).goto p k).life = update s.life x l := rfl
  constructor
  · apply h.refs_update hk hself hpc rfl
    intro g
    rw [hextra]
    change ((s.file g).ref : ℤ) - ((s.file g).ref : ℤ) = _
    omega
  · exact h.ends_congr hk hself hpc rfl (fun _ _ => Iff.rfl) hends
  · exact h.closed
  · exact h.used
  · intro q
    by_cases hq : q = p
    · rw [hq, hself]
      exact hplace.congr rfl
    · rw [hpc q hq]
      exact (h.place q).congr rfl
  · intro q f hf
    by_cases hq : q = p
    · rw [hq, hself] at hf
      exact absurd hf (hfresh f)
    · rw [hpc q hq] at hf
      exact (h.fresh q f hf).congr rfl
  · intro q hq
    rw [hlife] at hq
    by_cases hqx : q = x
    · subst hqx
      rw [update_self] at hq
      exact hx hq
    · rw [update_of_ne hqx] at hq
      by_cases hqp : q = p
      · subst hqp
        rw [hself]
        exact (hp hqx).resolve_left hq
      · rw [hpc q hqp]
        exact h.idle q hq
  · intro q hq
    rw [hlife] at hq
    by_cases hqx : q = x
    · subst hqx
      rw [update_self] at hq
      exact hempty hq
    · rw [update_of_ne hqx] at hq
      exact h.empty q hq
  · intro q np hq
    rw [hlife]
    by_cases hqp : q = p
    · rw [hqp, hself] at hq
      obtain ⟨rfl, rfl⟩ := hchild np hq
      rw [update_self]
    · rw [hpc q hqp] at hq
      rw [update_of_ne]
      · exact h.child q np hq
      · rintro rfl
        exact hothers q hqp hq
  · intro q
    by_cases hqp : q = p
    · rw [hqp, hself]
      exact hprepares.congr fun _ _ => rfl
    · rw [hpc q hqp]
      exact (h.prepares q).congr fun _ _ => rfl
  · intro q r np hq hr
    by_cases hqp : q = p
    · by_cases hrp : r = p
      · rw [hqp, hrp]
      · rw [hqp, hself] at hq
        rw [hpc r hrp, (hchild np hq).1] at hr
        exact absurd hr (hothers r hrp)
    · rw [hpc q hqp] at hq
      by_cases hrp : r = p
      · rw [hrp, hself] at hr
        rw [(hchild np hr).1] at hq
        exact absurd hq (hothers q hqp)
      · rw [hpc r hrp] at hr
        exact h.unique q r np hq hr

/-- `fork` assigns to a descriptor of the child. -/
theorem Inv.forkStore
    {np : Slot} {i : Fin NOFILE} (h : Inv s) (hp : s.life p = .active)
    (hk : s.pc p = .forkStore np i f) :
  Inv ((s.setFd np i (some f)).goto p (.forkDup np (i + 1)))
  := by
  have hchild := h.child p np (by rw [hk]; rfl)
  have hnp : np ≠ p := by
    rintro rfl
    cases hp.symm.trans hchild
  have hprep := h.prepares p
  rw [hk] at hprep
  generalize hs' : (s.setFd np i (some f)).goto p (.forkDup np (i + 1)) = s'
  obtain ⟨hpc, hself, hofile, hofileSelf, hfile, hpipe, hlife⟩ : (∀ q, q ≠ p → s'.pc q = s.pc q) ∧
      s'.pc p = .forkDup np (i + 1) ∧ (∀ q, q ≠ np → s'.ofile q = s.ofile q) ∧
      s'.ofile np = update (s.ofile np) i (some f) ∧ s'.file = s.file ∧
      s'.pipe = s.pipe ∧ s'.life = s.life := by
    subst hs'
    exact ⟨fun _ => St.goto_pc_of_ne _ _, St.goto_pc .., fun _ hq => update_of_ne hq ..,
      update_self .., rfl, rfl, rfl⟩
  apply h.of_step hp hk hself hpc hlife
  · intro q _ hq
    apply hofile
    rintro rfl
    exact hq rfl
  · intro q g _ _
    rw [hfile]
  · rw [hfile]
    apply h.refs.update₂ hnp.symm
    · exact fun q hq hq' => St.share_congr (hpc q hq) (hofile q hq')
    · intro g
      have hslots := St.slots_setFd hofileSelf g
      have hslots' : s'.slots p g = s.slots p g := St.slots_congr (hofile p hnp.symm) g
      rw [hprep i le_rfl] at hslots
      rw [St.share, St.share, St.share, St.share, hself, hk, hpc np hnp, hslots']
      simp only [Pc.extra, Option.some.injEq, reduceCtorEq, if_false] at hslots ⊢
      simp only [eq_comm (a := g)]
      omega
  · apply h.ends_congr hk hself hpc hpipe _ rfl
    intro g e
    rw [hfile]
  · rw [hfile]
    exact h.closed
  · rw [hpipe]
    exact h.used
  · exact fun _ => False.elim
  · refine ⟨trivial, fun _ => id, ?_⟩
    intro j hj
    rw [hofileSelf, update_of_ne]
    · apply hprep
      omega
    · rintro rfl
      omega

end Xv6.Ftable
