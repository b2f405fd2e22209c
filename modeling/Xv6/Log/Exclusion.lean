import Mathlib.Algebra.Order.BigOperators.Group.Finset
import Xv6.Log.Protocol

/-!
# Commit excludes active operations

In every reachable state of the log at most one process is in `commit`, no operation is active
then, and `log.outstanding` counts the active operations.  An operation is never split: the
blocks it logs stay in the header until the first commit after its `end_op`, which writes all of
them.
-/

namespace Xv6.Log

section

variable {P : Type} [Fintype P]

/-! ### Counting processes -/

/-- A sum over the processes when one process changes its phase. -/
theorem sum_setPhase [DecidableEq P] (w : Phase → Int) (s : LogSys P) (p : P) (ph : Phase) :
  ∑ x, w ((s.setPhase p ph).phase x) = ∑ x, w (s.phase x) - w (s.phase p) + w ph
  := by
  have hupdate : (fun x => w ((s.setPhase p ph).phase x))
      = Function.update (fun x => w (s.phase x)) p (w ph) := by
    funext x
    rcases eq_or_ne x p with rfl | hx
    · simp [LogSys.setPhase]
    · simp [LogSys.setPhase, hx]
  rw [hupdate, Finset.sum_update_of_mem (Finset.mem_univ p)]
  have := Finset.add_sum_erase Finset.univ (fun x => w (s.phase x)) (Finset.mem_univ p)
  rw [Finset.sdiff_singleton_eq_erase]
  omega

/-- `1` for a process with an active operation, and `0` for the others. -/
def Phase.active (ph : Phase) : Int :=
  if ph.op?.isSome then 1 else 0

theorem Phase.active_nonneg (ph : Phase) :
  0 ≤ ph.active
  := by
  rw [active]
  split
  · omega
  · omega

theorem Phase.active_of_op? {ph : Phase} {o : Op} (h : ph.op? = some o) :
  ph.active = 1
  := by
  simp [active, h]

theorem Phase.active_of_none {ph : Phase} (h : ph.op? = none) :
  ph.active = 0
  := by
  simp [active, h]

/-! ### The invariant -/

/-- Whether `commit` has written the header. -/
def Stage.pastHead : Stage → Bool
  | .install _ | .clear | .erase | .done => true
  | _ => false

/-- The invariant of the log. -/
structure Inv (s : LogSys P) : Prop where
  outstanding : s.outstanding = ∑ p, (s.phase p).active
  quiet : s.committing = true → s.outstanding = 0
  committer : s.committing = true → ∃! p, (s.phase p).inCommit = true
  nobody : s.committing = false → ∀ p, (s.phase p).inCommit = false
  nodup : s.lh.Nodup
  active : ∀ p o, (s.phase p).op? = some o →
    o.since = s.commits.length ∧ ∀ b ∈ o.blocks, b ∈ s.lh
  ended : ∀ o k, (o, k) ∈ s.ended → o.since = k ∧ k ≤ s.commits.length ∧
    (∀ c, s.commits[k]? = some c → ∀ b ∈ o.blocks, b ∈ c) ∧
    (k = s.commits.length → ∀ b ∈ o.blocks, b ∈ s.lh)
  written : ∀ p stage, s.phase p = .commit stage → stage.pastHead = true →
    ∀ o k, (o, k) ∈ s.ended → k < s.commits.length

namespace Inv

variable {s : LogSys P} {p : P}

theorem init :
  Inv (LogSys.init : LogSys P)
  := by
  constructor <;> simp [LogSys.init, Phase.active, Phase.op?, Phase.inCommit]

/-- While a process commits, no operation is active. -/
theorem op?_eq_none (h : Inv s) (hc : s.committing = true) (x : P) :
  (s.phase x).op? = none
  := by
  have hsum : ∑ y, (s.phase y).active = 0 := by
    rw [← h.outstanding, h.quiet hc]
  have hzero := (Finset.sum_eq_zero_iff_of_nonneg fun y _ => (s.phase y).active_nonneg).mp hsum x
    (Finset.mem_univ x)
  cases hop : (s.phase x).op? with
  | none => rfl
  | some o =>
    rw [Phase.active_of_op? hop] at hzero
    cases hzero

theorem committing_of_inCommit (h : Inv s) (hp : (s.phase p).inCommit = true) :
  s.committing = true
  := by
  cases hc : s.committing with
  | true => rfl
  | false =>
    rw [h.nobody hc p] at hp
    cases hp

/-- Only one process commits. -/
theorem not_inCommit (h : Inv s) (hp : (s.phase p).inCommit = true) (x : P) (hx : x ≠ p) :
  (s.phase x).inCommit = false
  := by
  rw [← Bool.not_eq_true]
  intro hx'
  apply hx ((h.committer (h.committing_of_inCommit hp)).unique hx' hp)

/-- An active operation is counted, so no commit is going on. -/
theorem not_committing_of_op? (h : Inv s) {o : Op} (hp : (s.phase p).op? = some o) :
  s.committing = false
  := by
  cases hc : s.committing with
  | false => rfl
  | true =>
    rw [h.op?_eq_none hc p] at hp
    cases hp

end Inv

/-! ### The steps -/

variable [DecidableEq P] {s : LogSys P} {p : P}

/-- A process goes to another phase, and the rest of the state `t` is new. -/
theorem Inv.setPhase
    (h : Inv s) {t : LogSys P} {ph : Phase}
    (hout : t.outstanding = s.outstanding - (s.phase p).active + ph.active)
    (hquiet : t.committing = true → t.outstanding = 0)
    (hcommit : t.committing = s.committing ∧ ph.inCommit = (s.phase p).inCommit ∨
      t.committing = ph.inCommit ∧ ∀ x, x ≠ p → (s.phase x).inCommit = false)
    (hnodup : t.lh.Nodup)
    (hself : ∀ o, ph.op? = some o → o.since = t.commits.length ∧ ∀ b ∈ o.blocks, b ∈ t.lh)
    (hactive : ∀ x o, (s.phase x).op? = some o →
      o.since = t.commits.length ∧ ∀ b ∈ o.blocks, b ∈ t.lh)
    (hended : ∀ o k, (o, k) ∈ t.ended → o.since = k ∧ k ≤ t.commits.length ∧
      (∀ c, t.commits[k]? = some c → ∀ b ∈ o.blocks, b ∈ c) ∧
      (k = t.commits.length → ∀ b ∈ o.blocks, b ∈ t.lh))
    (hwritten : ∀ stage, ph = .commit stage → stage.pastHead = true →
      ∀ o k, (o, k) ∈ t.ended → k < t.commits.length)
    (hothers : (∀ x, x ≠ p → (s.phase x).inCommit = false) ∨
      t.ended = s.ended ∧ t.commits = s.commits)
    (hphase : t.phase = s.phase) :
  Inv (t.setPhase p ph)
  := by
  have hcases := t.setPhase_cases p ph
  simp only [hphase] at hcases
  have hsame (hp : ph.inCommit = (s.phase p).inCommit) (x : P) :
      ((t.setPhase p ph).phase x).inCommit = (s.phase x).inCommit := by
    rcases hcases x with ⟨rfl, hx⟩ | ⟨-, hx⟩
    · rw [hx, hp]
    · rw [hx]
  constructor
  · rw [sum_setPhase, hphase, ← h.outstanding]
    exact hout
  · exact hquiet
  · intro hc
    rcases hcommit with ⟨hcom, hp⟩ | ⟨hcom, hnobody⟩
    · simp only [hsame hp]
      exact h.committer (hcom.symm.trans hc)
    · refine ⟨p, ?_, ?_⟩
      · simp only [LogSys.setPhase_self]
        exact hcom.symm.trans hc
      · intro x hx
        rcases hcases x with ⟨rfl, -⟩ | ⟨hne, hx'⟩
        · rfl
        · simp only [hx', hnobody x hne] at hx
          cases hx
  · intro hc x
    rcases hcommit with ⟨hcom, hp⟩ | ⟨hcom, hnobody⟩
    · rw [hsame hp]
      exact h.nobody (hcom.symm.trans hc) x
    · rcases hcases x with ⟨rfl, hx⟩ | ⟨hne, hx⟩
      · rw [hx]
        exact hcom.symm.trans hc
      · rw [hx, hnobody x hne]
  · exact hnodup
  · intro x o ho
    rcases hcases x with ⟨rfl, hx⟩ | ⟨-, hx⟩
    · rw [hx] at ho
      exact hself o ho
    · rw [hx] at ho
      exact hactive x o ho
  · exact hended
  · intro x stage hst hpast
    rcases hcases x with ⟨rfl, hx⟩ | ⟨hne, hx⟩
    · exact hwritten stage (hx.symm.trans hst) hpast
    · rw [hx] at hst
      rcases hothers with hnobody | ⟨hended, hcommits⟩
      · have := hnobody x hne
        rw [hst] at this
        cases this
      · simp only [LogSys.setPhase, hended, hcommits]
        exact h.written x stage hst hpast

/-- A process without an operation goes to another phase without one. -/
theorem Inv.rest
    (h : Inv s) {ph : Phase} (hop : (s.phase p).op? = none) (hc : (s.phase p).inCommit = false)
    (hop' : ph.op? = none) (hc' : ph.inCommit = false) :
  Inv (s.setPhase p ph)
  := by
  apply h.setPhase
  · rw [Phase.active_of_none hop, Phase.active_of_none hop']
    omega
  · exact h.quiet
  · exact .inl ⟨rfl, hc'.trans hc.symm⟩
  · exact h.nodup
  · intro o ho
    cases hop'.symm.trans ho
  · exact h.active
  · exact h.ended
  · rintro stage rfl
    cases hc'
  · exact .inr ⟨rfl, rfl⟩
  · rfl

/-- `begin_op` returns: a new operation starts. -/
theorem Inv.start
    (h : Inv s) (hop : (s.phase p).op? = none) (hcom : s.committing = false) :
  Inv ({ s with outstanding := s.outstanding + 1 }.setPhase p (.op ⟨[], s.commits.length⟩))
  := by
  apply h.setPhase
  · rw [Phase.active_of_none hop]
    simp [Phase.active, Phase.op?]
  · intro hc
    cases hcom.symm.trans hc
  · exact .inl ⟨rfl, (h.nobody hcom p).symm⟩
  · exact h.nodup
  · rintro o ⟨⟩
    exact ⟨rfl, by simp⟩
  · exact h.active
  · exact h.ended
  · exact nofun
  · exact .inr ⟨rfl, rfl⟩
  · rfl

/-- A process with an operation goes on with it: the header may get a new block, and the operation
a block of the header. -/
theorem Inv.goOn
    (h : Inv s) {o o' : Op} (hop : (s.phase p).op? = some o) {ph : Phase} (hop' : ph.op? = some o')
    {lh : List UInt32} (hnd : lh.Nodup) (hlh : ∀ b ∈ s.lh, b ∈ lh) (hsince : o'.since = o.since)
    (hblocks : ∀ b ∈ o'.blocks, b ∈ lh) :
  Inv ({ s with lh := lh }.setPhase p ph)
  := by
  have hcom := h.not_committing_of_op? hop
  have hin : ph.inCommit = false := by
    cases ph with
    | commit stage => cases hop'
    | _ => rfl
  apply h.setPhase
  · rw [Phase.active_of_op? hop, Phase.active_of_op? hop']
    simp
  · exact h.quiet
  · exact .inl ⟨rfl, hin.trans (h.nobody hcom p).symm⟩
  · exact hnd
  · intro o₁ ho₁
    obtain rfl := Option.some.inj (hop'.symm.trans ho₁)
    exact ⟨hsince.trans (h.active p o hop).1, hblocks⟩
  · intro x o₁ ho₁
    use (h.active x o₁ ho₁).1
    intro b hb
    apply hlh b ((h.active x o₁ ho₁).2 b hb)
  · intro o₁ k hk
    obtain ⟨hsince, hle, hold, hnew⟩ := h.ended o₁ k hk
    refine ⟨hsince, hle, hold, ?_⟩
    intro heq b hb
    apply hlh b (hnew heq b hb)
  · rintro stage rfl
    cases hin
  · exact .inr ⟨rfl, rfl⟩
  · rfl

/-- `end_op` decrements `outstanding`, and the process commits if no operation is left. -/
theorem Inv.stop
    (h : Inv s) {o : Op} (hop : (s.phase p).op? = some o) {ph : Phase} {committing : Bool}
    (hph : committing = true ∧ ph = .commit .start ∧ s.outstanding - 1 = 0 ∨
      committing = false ∧ ph = .idle) :
  Inv ({ s with outstanding := s.outstanding - 1, committing := committing,
                ended := s.ended ++ [(o, s.commits.length)] }.setPhase p ph)
  := by
  have hcom := h.not_committing_of_op? hop
  have hop' : ph.op? = none := by
    rcases hph with ⟨-, rfl, -⟩ | ⟨-, rfl⟩
    · rfl
    · rfl
  apply h.setPhase
  · rw [Phase.active_of_op? hop, Phase.active_of_none hop']
    simp
  · rintro rfl
    rcases hph with ⟨-, -, hout⟩ | ⟨hc, -⟩
    · exact hout
    · cases hc
  · refine .inr ⟨?_, fun x _ => h.nobody hcom x⟩
    rcases hph with ⟨rfl, rfl, -⟩ | ⟨rfl, rfl⟩
    · rfl
    · rfl
  · exact h.nodup
  · intro o₁ ho₁
    cases hop'.symm.trans ho₁
  · exact h.active
  · intro o₁ k hk
    rcases List.mem_append.mp hk with hk | hk
    · apply h.ended o₁ k hk
    · obtain ⟨rfl, rfl⟩ := Prod.mk.inj (List.mem_singleton.mp hk)
      obtain ⟨hsince, hblocks⟩ := h.active p o₁ hop
      refine ⟨hsince, le_refl _, ?_, fun _ => hblocks⟩
      intro c hc
      simp at hc
  · rintro stage rfl hpast
    rcases hph with ⟨-, ⟨⟩, -⟩ | ⟨-, ⟨⟩⟩
    cases hpast
  · exact .inl fun x _ => h.nobody hcom x
  · rfl

section

variable {stage stage' : Stage} (h : Inv s) (hp : s.phase p = .commit stage)

include h hp

/-- A step of `commit`, which may write or clear the header. -/
theorem Inv.commitStep
    {commits : List (List UInt32)} {lh : List UInt32} (hnd : lh.Nodup)
    (hended : ∀ o k, (o, k) ∈ s.ended → k ≤ commits.length ∧
      (∀ c, commits[k]? = some c → ∀ b ∈ o.blocks, b ∈ c) ∧
      (k = commits.length → ∀ b ∈ o.blocks, b ∈ lh))
    (hwritten : stage'.pastHead = true → ∀ o k, (o, k) ∈ s.ended → k < commits.length) :
  Inv ({ s with commits := commits, lh := lh }.setPhase p (.commit stage'))
  := by
  have hin : (s.phase p).inCommit = true := by
    rw [hp]
    rfl
  have hcom := h.committing_of_inCommit hin
  have hnone := h.op?_eq_none hcom
  apply h.setPhase
  · rw [Phase.active_of_none (hnone p)]
    simp [Phase.active, Phase.op?]
  · exact h.quiet
  · exact .inl ⟨rfl, hin.symm⟩
  · exact hnd
  · exact nofun
  · intro x o ho
    cases (hnone x).symm.trans ho
  · intro o k hk
    exact ⟨(h.ended o k hk).1, hended o k hk⟩
  · rintro _ ⟨⟩ hpast
    exact hwritten hpast
  · exact .inl (h.not_inCommit hin)
  · rfl

/-- A step of `commit` that changes neither the header nor what has been committed. -/
theorem Inv.commitMove (hpast : stage'.pastHead = true → stage.pastHead = true) :
  Inv (s.setPhase p (.commit stage'))
  := by
  apply h.commitStep hp h.nodup
  · intro o k hk
    apply (h.ended o k hk).2
  · intro hpast'
    apply h.written p stage hp (hpast hpast')

/-- The commit point: the header is written. -/
theorem Inv.commitPoint :
  Inv ({ s with commits := s.commits ++ [s.lh] }.setPhase p (.commit stage'))
  := by
  apply h.commitStep hp h.nodup
  · intro o k hk
    obtain ⟨-, hle, hold, hnew⟩ := h.ended o k hk
    refine ⟨by simp; omega, ?_, by simp; omega⟩
    intro c hc
    rcases Nat.lt_or_ge k s.commits.length with hlt | hge
    · rw [List.getElem?_append_left hlt] at hc
      apply hold c hc
    · obtain rfl : k = s.commits.length := le_antisymm hle hge
      rw [List.getElem?_concat_length] at hc
      obtain rfl := Option.some.inj hc
      apply hnew rfl
  · intro _ o k hk
    have := (h.ended o k hk).2.1
    simp
    omega

/-- The header is cleared after it has been written. -/
theorem Inv.clear (hpast : stage.pastHead = true) :
  Inv ({ s with lh := [] }.setPhase p (.commit stage'))
  := by
  apply h.commitStep hp List.nodup_nil
  · intro o k hk
    obtain ⟨-, hle, hold, -⟩ := h.ended o k hk
    refine ⟨hle, hold, ?_⟩
    intro heq
    have := h.written p stage hp hpast o k hk
    omega
  · intro _
    apply h.written p stage hp hpast

/-- The process that committed clears `committing`. -/
theorem Inv.finish :
  Inv ({ s with committing := false }.setPhase p .idle)
  := by
  have hin : (s.phase p).inCommit = true := by
    rw [hp]
    rfl
  have hcom := h.committing_of_inCommit hin
  have hnone := h.op?_eq_none hcom
  apply h.setPhase
  · rw [Phase.active_of_none (hnone p)]
    simp [Phase.active, Phase.op?]
  · exact nofun
  · exact .inr ⟨rfl, h.not_inCommit hin⟩
  · exact h.nodup
  · exact nofun
  · exact h.active
  · exact h.ended
  · exact nofun
  · exact .inr ⟨rfl, rfl⟩
  · rfl

end

/-- A step keeps the invariant, or it fails otherwise than by a broken count of operations. -/
abbrev Fine : Option (Except Fault (LogSys P)) → Prop :=
  System.Outcome (fun f => f = .committing ∨ f = .outsideTrans) Inv

theorem Inv.fine_beginOp (h : Inv s) (size : Nat) (p : P) :
  Fine (s.step size (.beginOp p))
  := by
  apply System.Outcome.guard
  intro hp
  have hop : (s.phase p).op? = none := by
    rcases hp with hp | hp <;> rw [hp] <;> rfl
  have hin : (s.phase p).inCommit = false := by
    rcases hp with hp | hp <;> rw [hp] <;> rfl
  split
  · apply h.rest hop hin rfl rfl
  · rename_i hcom
    split
    · apply h.rest hop hin rfl rfl
    · apply h.start hop (by simpa using hcom)

theorem Inv.fine_logCheck (h : Inv s) (size : Nat) (p : P) (b : UInt32) :
  Fine (s.step size (.logCheck p b))
  := by
  simp only [LogSys.step]
  split
  · rename_i o hp
    have hop : (s.phase p).op? = some o := by
      rw [hp]
      rfl
    split
    · simp [System.Outcome]
    · split
      · -- the operation of the process is counted
        have hle : (s.phase p).active ≤ ∑ x, (s.phase x).active :=
          Finset.single_le_sum (fun x _ => (s.phase x).active_nonneg) (Finset.mem_univ p)
        rw [Phase.active_of_op? hop, ← h.outstanding] at hle
        omega
      · apply h.goOn hop rfl h.nodup (fun _ hb => hb) rfl (h.active p o hop).2
  · trivial

theorem mem_add_blocks {o : Op} {b x : UInt32} :
  x ∈ (o.add b).blocks ↔ x ∈ o.blocks ∨ x = b
  := by
  rw [Op.add]
  split
  · rename_i hb
    constructor
    · apply Or.inl
    · rintro (hx | rfl)
      · apply hx
      · apply hb
  · simp

section

variable (h : Inv s) (size : Nat)

include h size

theorem Inv.fine_logAppend (p : P) :
  Fine (s.step size (.logAppend p))
  := by
  simp only [LogSys.step]
  split
  · rename_i o b hp
    have hop : (s.phase p).op? = some o := by
      rw [hp]
      rfl
    have hop' : (Phase.op (o.add b)).op? = some (o.add b) := rfl
    have hblocks := (h.active p o hop).2
    split
    · rename_i hb
      apply h.goOn hop hop' h.nodup (fun _ hx => hx) rfl
      intro x hx
      rcases mem_add_blocks.mp hx with hx | rfl
      · apply hblocks x hx
      · apply hb
    · rename_i hb
      split
      · apply h.goOn hop hop' _ (fun _ hx => List.mem_append_left _ hx) rfl
        · intro x hx
          rcases mem_add_blocks.mp hx with hx | rfl
          · apply List.mem_append_left _ (hblocks x hx)
          · simp
        · rw [List.nodup_append]
          refine ⟨h.nodup, List.nodup_singleton b, ?_⟩
          rintro x hx y hy rfl
          rw [List.mem_singleton] at hy
          apply hb (hy ▸ hx)
      · simp [System.Outcome]
  · trivial

theorem Inv.fine_endOp (p : P) :
  Fine (s.step size (.endOp p))
  := by
  simp only [LogSys.step]
  split
  · rename_i o hp
    have hop : (s.phase p).op? = some o := by
      rw [hp]
      rfl
    have hcom := h.not_committing_of_op? hop
    split
    · rename_i hc
      cases hcom.symm.trans hc
    · split
      · rename_i hout
        apply h.stop hop (Or.inl ⟨rfl, rfl, hout⟩)
      · have := h.stop hop (Or.inr ⟨rfl, rfl⟩)
        rw [← hcom] at this
        apply this
  · trivial

theorem Inv.fine_commit (p : P) :
  Fine (s.step size (.commit p))
  := by
  simp only [LogSys.step]
  split
  · trivial
  · rename_i stage _ hp
    cases stage with
    | start =>
      simp only [LogSys.commitStep]
      split
      · apply h.commitMove hp
        simp [Stage.pastHead]
      · rename_i hlen
        have hlh : s.commits ++ [[]] = s.commits ++ [s.lh] := by
          rw [List.eq_nil_of_length_eq_zero (Nat.eq_zero_of_not_pos hlen)]
        rw [hlh]
        apply h.commitPoint hp
    | log tail =>
      simp only [LogSys.commitStep]
      split <;> exact h.commitMove hp (by simp [Stage.pastHead])
    | head => apply h.commitPoint hp
    | install tail =>
      simp only [LogSys.commitStep]
      split <;> exact h.commitMove hp (by simp [Stage.pastHead])
    | clear => apply h.clear hp rfl
    | erase => exact h.commitMove hp (by simp [Stage.pastHead])
    | done => apply h
  · trivial

theorem Inv.fine_finish (p : P) :
  Fine (s.step size (.finish p))
  := by
  simp only [LogSys.step]
  split
  · rename_i hp
    apply h.finish hp
  · trivial

theorem Inv.fine_step (l : Label P) :
  Fine (s.step size l)
  := by
  cases l with
  | beginOp p => apply h.fine_beginOp
  | logCheck p b => apply h.fine_logCheck
  | logAppend p => apply h.fine_logAppend
  | endOp p => apply h.fine_endOp
  | commit p => apply h.fine_commit
  | finish p => apply h.fine_finish

end

end

end Xv6.Log
