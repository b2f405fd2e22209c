import Mathlib.Algebra.BigOperators.Fin
import Xv6.Lib.Transition
import Xv6.Log.Commit

/-!
# Concurrent operations on the log

The critical sections of `log.lock` in `begin_op`, `log_write` and `end_op`, the checks of
`log_write` before it acquires the lock, and the steps of `commit`, which runs without the lock,
in any interleaving of any number of processes.  The in-memory header is the list of its first
`n` entries.
-/

namespace Xv6.Log

/-- Where a process is in `commit`. -/
inductive Stage where
  | start
  /-- In `write_log`, with the given tail. -/
  | log (tail : Nat)
  /-- Before the first `write_head`. -/
  | head
  /-- In `install_trans`, with the given tail. -/
  | install (tail : Nat)
  /-- Before `log.lh.n = 0`. -/
  | clear
  /-- Before the second `write_head`. -/
  | erase
  /-- Returned from `commit`, before `log.committing = 0`. -/
  | done
  deriving DecidableEq, Repr

/-- An operation: the distinct blocks it has logged, in order, and the number of commits made
before `begin_op` returned. -/
structure Op where
  blocks : List UInt32
  since : Nat
  deriving DecidableEq, Repr

/-- Where a process is. -/
inductive Phase where
  | idle
  /-- In `begin_op`, asleep or about to test the log again. -/
  | waiting
  /-- Between `begin_op` and `end_op`. -/
  | op (o : Op)
  /-- In `log_write` of a block, between its checks and its critical section. -/
  | logging (o : Op) (b : UInt32)
  /-- In `end_op`, after setting `log.committing`. -/
  | commit (stage : Stage)
  deriving DecidableEq, Repr

/-- The operation a process executes. -/
def Phase.op? : Phase → Option Op
  | .op o | .logging o _ => some o
  | _ => none

/-- Whether a process is between setting and clearing `log.committing`. -/
def Phase.inCommit : Phase → Bool
  | .commit _ => true
  | _ => false

/-- The log and the processes that use it. `commits` are the headers that commits wrote, and
`ended` are the operations that called `end_op`, each with the number of commits before. -/
structure LogSys (P : Type) where
  outstanding : Int
  committing : Bool
  lh : List UInt32
  phase : P → Phase
  commits : List (List UInt32)
  ended : List (Op × Nat)

/-- The steps of the processes. -/
inductive Label (P : Type) where
  /-- The test of `begin_op`. -/
  | beginOp (p : P)
  /-- The checks of `log_write`, without the lock. -/
  | logCheck (p : P) (b : UInt32)
  /-- The critical section of `log_write`. -/
  | logAppend (p : P)
  /-- The first critical section of `end_op`. -/
  | endOp (p : P)
  /-- The next step of `commit`. -/
  | commit (p : P)
  /-- The last critical section of `end_op`. -/
  | finish (p : P)
  deriving DecidableEq, Repr

section

variable {P : Type} [DecidableEq P]

/-- The process `p` goes to another phase. -/
def LogSys.setPhase (s : LogSys P) (p : P) (ph : Phase) : LogSys P :=
  { s with phase := Function.update s.phase p ph }

@[simp]
theorem LogSys.setPhase_self (s : LogSys P) (p : P) (ph : Phase) :
  (s.setPhase p ph).phase p = ph
  := Function.update_self ..

/-- The phases of all processes, when one of them changes. -/
theorem LogSys.setPhase_cases (s : LogSys P) (p : P) (ph : Phase) (x : P) :
  (x = p ∧ (s.setPhase p ph).phase x = ph) ∨ (x ≠ p ∧ (s.setPhase p ph).phase x = s.phase x)
  := by
  rcases eq_or_ne x p with rfl | hx
  · left
    use rfl
    apply setPhase_self
  · right
    use hx
    apply Function.update_of_ne hx

/-- The test of `begin_op` for room in the log. -/
def LogSys.full (s : LogSys P) : Bool :=
  (s.lh.length : Int) + (s.outstanding + 1) * MAXOPBLOCKS > LOGSIZE

/-- The next step of `commit` of the process `p`. -/
def LogSys.commitStep (s : LogSys P) (p : P) : Stage → LogSys P
  | .start =>
      if s.lh.length > 0 then s.setPhase p (.commit (.log 0))
      else { s with commits := s.commits ++ [[]] }.setPhase p (.commit .done)
  | .log tail =>
      if tail < s.lh.length then s.setPhase p (.commit (.log (tail + 1)))
      else s.setPhase p (.commit .head)
  | .head => { s with commits := s.commits ++ [s.lh] }.setPhase p (.commit (.install 0))
  | .install tail =>
      if tail < s.lh.length then s.setPhase p (.commit (.install (tail + 1)))
      else s.setPhase p (.commit .clear)
  | .clear => { s with lh := [] }.setPhase p (.commit .erase)
  | .erase => s.setPhase p (.commit .done)
  | .done => s

/-- The blocks of an operation after it logged another one. -/
def Op.add (o : Op) (b : UInt32) : Op :=
  { o with blocks := if b ∈ o.blocks then o.blocks else o.blocks ++ [b] }

/-- One step, for a log of `size` blocks with the header. -/
def LogSys.step (size : Nat) (s : LogSys P) : Label P → Option (Except Fault (LogSys P))
  | .beginOp p =>
      if s.phase p = .idle ∨ s.phase p = .waiting then
        if s.committing then some (.ok (s.setPhase p .waiting))
        else if s.full then some (.ok (s.setPhase p .waiting))
        else some (.ok ({ s with outstanding := s.outstanding + 1 }.setPhase p
          (.op ⟨[], s.commits.length⟩)))
      else none
  | .logCheck p b =>
      match s.phase p with
      | .op o =>
          if s.lh.length ≥ LOGSIZE ∨ (s.lh.length : Int) ≥ size - 1 then some (.error .tooBig)
          else if s.outstanding < 1 then some (.error .outsideTrans)
          else some (.ok (s.setPhase p (.logging o b)))
      | _ => none
  | .logAppend p =>
      match s.phase p with
      | .logging o b =>
          if b ∈ s.lh then some (.ok (s.setPhase p (.op (o.add b))))
          else if s.lh.length < LOGSIZE then
            some (.ok ({ s with lh := s.lh ++ [b] }.setPhase p (.op (o.add b))))
          else some (.error .outOfRange)
      | _ => none
  | .endOp p =>
      match s.phase p with
      | .op o =>
          if s.committing then some (.error .committing)
          else
            let s' : LogSys P :=
              { s with outstanding := s.outstanding - 1,
                       ended := s.ended ++ [(o, s.commits.length)] }
            if s'.outstanding = 0 then
              some (.ok ({ s' with committing := true }.setPhase p (.commit .start)))
            else some (.ok (s'.setPhase p .idle))
      | _ => none
  | .commit p =>
      match s.phase p with
      | .commit .done => none
      | .commit stage => some (.ok (s.commitStep p stage))
      | _ => none
  | .finish p =>
      match s.phase p with
      | .commit .done => some (.ok ({ s with committing := false }.setPhase p .idle))
      | _ => none

/-- The log after `initlog`. -/
def LogSys.init : LogSys P where
  outstanding := 0
  committing := false
  lh := []
  phase := fun _ => .idle
  commits := []
  ended := []

/-- The log of `size` blocks, used by the processes `P`, as a transition system. -/
def logSystem (P : Type) [DecidableEq P] (size : Nat) : System (LogSys P) (Label P) Fault where
  init := fun s => s = .init
  step := LogSys.step size

end

end Xv6.Log
