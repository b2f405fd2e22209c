import Xv6.Log.Exclusion

/-!
# The reservation of `begin_op`

`begin_op` reserves `MAXOPBLOCKS` blocks of a log of `LOGSIZE` blocks for an operation.  The log
that `mkfs` makes has `LOGSIZE` blocks with the header, and `log_write` wants a free one even for
a block that is in the log already, so the reservation is two blocks too generous.
-/

namespace Xv6.Log

section

variable {P : Type} [DecidableEq P]

/-- The promise of the callers: an operation logs at most `MAXOPBLOCKS` distinct blocks. -/
def Promise (s : LogSys P) : Label P → Prop
  | .logCheck p b => ∀ o ∈ (s.phase p).op?, b ∈ o.blocks ∨ o.blocks.length < MAXOPBLOCKS
  | _ => True

instance (s : LogSys P) : (l : Label P) → Decidable (Promise s l)
  | .logCheck p b =>
      inferInstanceAs (Decidable (∀ o ∈ (s.phase p).op?,
        b ∈ o.blocks ∨ o.blocks.length < MAXOPBLOCKS))
  | .beginOp _ | .logAppend _ | .endOp _ | .commit _ | .finish _ => .isTrue trivial

/-- `begin_op` admits an operation only when the log, without the header and one more block, has
room for everything reserved. -/
def Roomy (s : LogSys P) : Label P → Prop
  | .beginOp _ =>
      s.committing = false → s.full = false →
        (s.lh.length : Int) + (s.outstanding + 1) * MAXOPBLOCKS ≤ LOGSIZE - 2
  | _ => True

instance (s : LogSys P) : (l : Label P) → Decidable (Roomy s l)
  | .beginOp _ =>
      inferInstanceAs (Decidable (s.committing = false → s.full = false →
        (s.lh.length : Int) + (s.outstanding + 1) * MAXOPBLOCKS ≤ LOGSIZE - 2))
  | .logCheck _ _ | .logAppend _ | .endOp _ | .commit _ | .finish _ => .isTrue trivial

/-! ### What operations may still log -/

/-- How many blocks a process may still log. -/
def Phase.due (ph : Phase) : Int :=
  match ph.op? with
  | some o => (MAXOPBLOCKS - o.blocks.length : Nat)
  | none => 0

theorem Phase.due_nonneg (ph : Phase) :
  0 ≤ ph.due
  := by
  rw [due]
  split
  · omega
  · omega

theorem Phase.due_le (ph : Phase) :
  ph.due ≤ MAXOPBLOCKS * ph.active
  := by
  cases hop : ph.op? with
  | none => simp [due, active, hop]
  | some o =>
    rw [active_of_op? hop]
    simp only [due, hop]
    omega

/-- The operation of a process is within the promise, with the block it is about to log. -/
def Phase.Within : Phase → Prop
  | .op o => o.blocks.length ≤ MAXOPBLOCKS
  | .logging o b => o.blocks.length ≤ MAXOPBLOCKS ∧
      (b ∈ o.blocks ∨ o.blocks.length < MAXOPBLOCKS)
  | _ => True

end

section

variable {P : Type} [Fintype P]

/-- The log has room for all blocks that active operations may still log. -/
structure Room (s : LogSys P) : Prop where
  room : (s.lh.length : Int) + ∑ p, (s.phase p).due ≤ LOGSIZE - 2
  within : ∀ p, (s.phase p).Within

theorem Room.init :
  Room (LogSys.init : LogSys P)
  := by
  constructor
  · simp [LogSys.init, Phase.due, Phase.op?, LOGSIZE, MAXOPBLOCKS]
  · intro p
    trivial

theorem Room.length_le {s : LogSys P} (h : Room s) :
  (s.lh.length : Int) ≤ LOGSIZE - 2
  := by
  have := Finset.sum_nonneg (fun p (_ : p ∈ Finset.univ) => (s.phase p).due_nonneg)
  have := h.room
  omega

variable [DecidableEq P] {s : LogSys P} {p : P}

/-- A process changes its phase and the header its length. -/
theorem Room.setPhase
    (h : Room s) {s₁ : LogSys P} {ph : Phase} (hphase : s₁.phase = s.phase)
    (hroom : (s₁.lh.length : Int) + ∑ x, (s.phase x).due - (s.phase p).due + ph.due ≤ LOGSIZE - 2)
    (hph : ph.Within) :
  Room (s₁.setPhase p ph)
  := by
  constructor
  · rw [sum_setPhase, hphase]
    have : (s₁.setPhase p ph).lh = s₁.lh := rfl
    rw [this]
    omega
  · intro x
    rcases LogSys.setPhase_cases s₁ p ph x with ⟨rfl, hx⟩ | ⟨-, hx⟩
    · rw [hx]
      apply hph
    · rw [hx, hphase]
      apply h.within

/-- A process gives up what it may still log. -/
theorem Room.giveUp
    (h : Room s) {s₁ : LogSys P} {ph : Phase} (hphase : s₁.phase = s.phase)
    (hlh : s₁.lh.length ≤ s.lh.length) (hop : ph.op? = none) :
  Room (s₁.setPhase p ph)
  := by
  have hdue : ph.due = 0 := by
    rw [Phase.due, hop]
  apply h.setPhase hphase
  · have := h.room
    have := (s.phase p).due_nonneg
    omega
  · cases ph <;> trivial

/-- An operation logs a block, which takes a block of the log if it is new. -/
theorem Room.logAppend
    (h : Room s) (hinv : Inv s) {s₁ : LogSys P} {o : Op} {b : UInt32}
    (hp : s.phase p = .logging o b) (hphase : s₁.phase = s.phase)
    (hlh : s₁.lh = s.lh ∨ b ∉ s.lh ∧ s₁.lh = s.lh ++ [b]) :
  Room (s₁.setPhase p (.op (o.add b)))
  := by
  have hroom := h.room
  obtain ⟨hle, hb⟩ : (Phase.logging o b).Within := hp ▸ h.within p
  have hdue : (s.phase p).due = (MAXOPBLOCKS - o.blocks.length : Nat) := by
    rw [hp]
    rfl
  have hdue' : (Phase.op (o.add b)).due = (MAXOPBLOCKS - (o.add b).blocks.length : Nat) := rfl
  have hmem : b ∈ o.blocks → b ∈ s.lh := by
    apply (hinv.active p o (by rw [hp]; rfl)).2
  have hadd : b ∈ o.blocks ∧ (o.add b).blocks.length = o.blocks.length ∨
      b ∉ o.blocks ∧ (o.add b).blocks.length = o.blocks.length + 1 := by
    by_cases hmem : b ∈ o.blocks
    · simp [Op.add, hmem]
    · simp [Op.add, hmem]
  have hlen : s₁.lh.length = s.lh.length ∨ b ∉ s.lh ∧ s₁.lh.length = s.lh.length + 1 := by
    rcases hlh with hlh | ⟨hnew, hlh⟩
    · simp [hlh]
    · simp [hlh, hnew]
  have hlen' : s₁.lh.length + (MAXOPBLOCKS - (o.add b).blocks.length)
      ≤ s.lh.length + (MAXOPBLOCKS - o.blocks.length) ∧
      (o.add b).blocks.length ≤ MAXOPBLOCKS := by
    grind
  apply h.setPhase hphase
  · omega
  · apply hlen'.2

/-- `log_write` starts on a block the operation may log. -/
theorem Room.logCheck
    (h : Room s) {o : Op} {b : UInt32} (hp : s.phase p = .op o)
    (hb : b ∈ o.blocks ∨ o.blocks.length < MAXOPBLOCKS) :
  Room (s.setPhase p (.logging o b))
  := by
  have hroom := h.room
  have hdue : (Phase.logging o b).due = (s.phase p).due := by
    rw [hp]
    rfl
  apply h.setPhase rfl
  · omega
  · have hle : (Phase.op o).Within := hp ▸ h.within p
    use hle

/-- `begin_op` admits an operation when there is room for it. -/
theorem Room.beginOp
    (h : Room s) (hinv : Inv s) {k : Nat}
    (hroom : (s.lh.length : Int) + (s.outstanding + 1) * MAXOPBLOCKS ≤ LOGSIZE - 2) :
  Room ({ s with outstanding := s.outstanding + 1 }.setPhase p (.op ⟨[], k⟩))
  := by
  refine h.setPhase rfl ?_ ?_
  · have hsum : ∑ p, (s.phase p).due ≤ MAXOPBLOCKS * s.outstanding := by
      rw [hinv.outstanding, Finset.mul_sum]
      exact Finset.sum_le_sum fun p _ => (s.phase p).due_le
    have := (s.phase p).due_nonneg
    have hdue : (Phase.op ⟨[], k⟩).due = MAXOPBLOCKS := rfl
    rw [add_mul, mul_comm s.outstanding] at hroom
    simp only
    omega
  · apply Nat.zero_le

theorem Room.commitStep (h : Room s) (stage : Stage) :
  Room (s.commitStep p stage)
  := by
  cases stage with
  | start | log | install =>
    simp only [LogSys.commitStep]
    split
    · exact h.giveUp rfl (Nat.le_refl _) rfl
    · exact h.giveUp rfl (Nat.le_refl _) rfl
  | head | erase => exact h.giveUp rfl (Nat.le_refl _) rfl
  | clear => exact h.giveUp rfl (Nat.zero_le _) rfl
  | done => apply h

/-- A step that keeps the promise of the callers, and in which `begin_op` leaves room, does not
exceed the log. -/
theorem Room.step
    (h : Room s) (hinv : Inv s) {l : Label P} (hpromise : Promise s l) (hroomy : Roomy s l) :
  System.Outcome (fun f => f = .tooBig ∨ f = .outOfRange) Room (s.step LOGSIZE l)
  := by
  have hlen := h.length_le
  cases l with
  | beginOp p =>
    apply System.Outcome.guard
    intro _
    split
    · exact h.giveUp rfl (Nat.le_refl _) rfl
    · rename_i hc
      split
      · exact h.giveUp rfl (Nat.le_refl _) rfl
      · rename_i hf
        apply h.beginOp hinv (hroomy (by simpa using hc) (by simpa using hf))
  | logCheck p b =>
    simp only [LogSys.step]
    split
    · rename_i o hp
      split
      · omega
      · split
        · simp [System.Outcome]
        · apply h.logCheck hp
          apply hpromise
          rw [hp]
          rfl
    · trivial
  | logAppend p =>
    simp only [LogSys.step]
    split
    · rename_i o b hp
      split
      · exact h.logAppend hinv hp rfl (Or.inl rfl)
      · rename_i hb
        split
        · exact h.logAppend hinv hp rfl (Or.inr ⟨hb, rfl⟩)
        · omega
    · trivial
  | endOp p =>
    simp only [LogSys.step]
    split
    · split
      · simp [System.Outcome]
      · split
        · exact h.giveUp rfl (Nat.le_refl _) rfl
        · exact h.giveUp rfl (Nat.le_refl _) rfl
    · trivial
  | commit p =>
    simp only [LogSys.step]
    split
    · trivial
    · apply h.commitStep
    · trivial
  | finish p =>
    simp only [LogSys.step]
    split
    · exact h.giveUp rfl (Nat.le_refl _) rfl
    · trivial

/-- In every run in which operations keep their promise and `begin_op` admits an operation only
while `n + (outstanding + 1) * MAXOPBLOCKS ≤ LOGSIZE - 2`, `log_write` does not panic with
"too big a transaction", and it stays inside the header. -/
theorem log_reservation
    (h : (logSystem P LOGSIZE).Reach (fun s l => Promise s l ∧ Roomy s l) s) {l : Label P}
    (hpromise : Promise s l) (hroomy : Roomy s l) :
  s.step LOGSIZE l ≠ some (.error .tooBig) ∧ s.step LOGSIZE l ≠ some (.error .outOfRange)
  := by
  have hinit : ∀ s, (logSystem P LOGSIZE).init s → Inv s ∧ Room s := by
    rintro s rfl
    exact ⟨Inv.init, Room.init⟩
  obtain ⟨-, hfault⟩ := h.outcome hinit
    (fun s l hs hl => (hs.1.fine_step LOGSIZE l).and (hs.2.step hs.1 hl.1 hl.2))
  constructor
  · intro hl
    apply hfault l ⟨hpromise, hroomy⟩ _ hl
    simp
  · intro hl
    apply hfault l ⟨hpromise, hroomy⟩ _ hl
    simp

end

/-- Two operations log ten blocks each, and one of them logs its last block again. -/
theorem log_reservation_of_two :
  ∃ s, (logSystem (Fin 2) LOGSIZE).Reach (fun s l => Promise s l ∧ Roomy s l) s ∧
    s.lh.length = 20 ∧ s.step LOGSIZE (.logCheck 1 19) ≠ some (.error .tooBig)
  := by
  obtain ⟨s, hreach, hlen, hpromise⟩ := System.exists_of_guard
    (fun s l => Promise s l ∧ Roomy s l) (logSystem (Fin 2) LOGSIZE) rfl
    ([.beginOp 0, .beginOp 1] ++ (List.range 10).flatMap (fun b =>
      [.logCheck 0 (.ofNat b), .logAppend 0, .logCheck 1 (.ofNat (10 + b)), .logAppend 1]))
    (fun s => s.lh.length = 20 ∧ Promise s (.logCheck 1 19)) (by decide +kernel)
  use s, hreach, hlen
  apply (log_reservation hreach hpromise trivial).1

/-- Three operations are admitted.  They log ten, ten and nine blocks, and the tenth block of the
third operation is too many. -/
theorem log_reservation_exceeded :
  ∃ s, (logSystem (Fin 3) LOGSIZE).Reach Promise s ∧
    Promise s (.logCheck 2 29) ∧ s.step LOGSIZE (.logCheck 2 29) = some (.error .tooBig)
  := by
  have hfails : ((logSystem (Fin 3) LOGSIZE).guard Promise).runFails .init
      ([.beginOp 0, .beginOp 1, .beginOp 2]
        ++ (List.range 10).flatMap (fun b => [.logCheck 0 (.ofNat b), .logAppend 0])
        ++ (List.range 10).flatMap (fun b => [.logCheck 1 (.ofNat (10 + b)), .logAppend 1])
        ++ (List.range 9).flatMap (fun b => [.logCheck 2 (.ofNat (20 + b)), .logAppend 2]))
      (.logCheck 2 29) = some .tooBig := by
    decide +kernel
  obtain ⟨s, hs, -, hstep⟩ := System.exists_of_runFails rfl hfails
  obtain ⟨hpromise, hstep⟩ := System.guard_step.mp hstep
  use s, .of_guard hs, hpromise
  apply hstep

end Xv6.Log
