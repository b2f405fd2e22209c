import Xv6.Block
import Xv6.Lib.Writes

/-!
# The redo log

The functions of `log.c` that write to the disk, on the buffers of the block cache.  A buffer
that is not cached is read from the disk, so the cache is the map `buf` of what `bread` returns;
after a restart it is the disk.  A run of these functions records the block writes it makes, in
order.
-/

namespace Xv6.Log

/-- `MAXOPBLOCKS`, the number of blocks a file system call writes at most. -/
abbrev MAXOPBLOCKS : Nat := 10

/-- `LOGSIZE`, the number of entries of the log header. -/
abbrev LOGSIZE : Nat := MAXOPBLOCKS * 3

/-- What stops the log: a panic, or an array index outside its bounds. -/
inductive Fault where
  /-- `too big a transaction` -/
  | tooBig
  /-- `log_write outside of trans` -/
  | outsideTrans
  /-- `log.committing` -/
  | committing
  | outOfRange
  deriving DecidableEq, Repr

/-- Where the log is: `log.start` and `log.size`. The block `start` holds the header, and the
blocks after it the logged blocks. -/
structure Region where
  start : Nat
  size : Nat

/-- A block outside the log. -/
def Region.Home (L : Region) (b : Nat) : Prop :=
  b < L.start ∨ L.start + L.size ≤ b

/-- The memory of the log: `log.lh`, the buffers, and the block writes made so far. -/
structure Machine where
  n : Int32
  block : Nat → UInt32
  buf : Nat → Block
  writes : List (Nat × Block)

namespace Machine

/-- Change the data of a buffer. -/
def setBuf (m : Machine) (b : Nat) (data : Block) : Machine :=
  { m with buf := Function.update m.buf b data }

/-- `bwrite`: write a buffer to the disk. -/
def bwrite (m : Machine) (b : Nat) : Machine :=
  { m with writes := m.writes ++ [(b, m.buf b)] }

/-- Copy a buffer to another one and write that to the disk. -/
def copy (m : Machine) (src dst : Nat) : Machine :=
  (m.setBuf dst (m.buf src)).bwrite dst

/-- The indices `0 ≤ tail < log.lh.n`. -/
def tails (m : Machine) : List Nat :=
  List.range m.n.toInt.toNat

end Machine

variable (L : Region)

/-- `write_log`: copy the modified blocks from the cache to the log. -/
def writeLog (m : Machine) : Machine :=
  m.tails.foldl (fun m tail => m.copy (m.block tail).toNat (L.start + tail + 1)) m

/-- `install_trans`: copy the logged blocks to their home locations. -/
def installTrans (m : Machine) : Machine :=
  m.tails.foldl (fun m tail => m.copy (L.start + tail + 1) (m.block tail).toNat) m

/-- The header block `hb` with the in-memory header stored into it. Entries from `n` on stay. -/
def storeHeader (m : Machine) (hb : Block) : Block :=
  m.tails.foldl (fun hb i => hb.setWord (i + 1) (m.block i)) (hb.setWord 0 m.n.toUInt32)

/-- `write_head`: write the in-memory header to the disk. -/
def writeHead (m : Machine) : Machine :=
  (m.setBuf L.start (storeHeader m (m.buf L.start))).bwrite L.start

/-- `read_head`: read the header from the disk. More than `LOGSIZE` entries do not fit. -/
def readHead (m : Machine) : Except Fault Machine :=
  let hb := m.buf L.start
  let n := (hb.word 0).toInt32
  if n.toInt > LOGSIZE then .error .outOfRange
  else .ok { m with
    n := n, block := fun i => if i < n.toInt.toNat then hb.word (i + 1) else m.block i }

/-- `recover_from_log`. -/
def recoverFromLog (m : Machine) : Except Fault Machine := do
  let m ← readHead L m
  let m := installTrans L m
  .ok (writeHead L { m with n := 0 })

/-- `commit`. -/
def commit (m : Machine) : Machine :=
  if m.n > 0 then
    let m := installTrans L (writeHead L (writeLog L m))
    writeHead L { m with n := 0 }
  else m

/-- The search of `log_write` for the entry of a block: its index, or `n`. -/
def findEntry (m : Machine) (b : UInt32) : Nat :=
  (m.tails.find? fun i => m.block i = b).getD m.n.toInt.toNat

/-- `log_write` inside a transaction. -/
def logWrite (m : Machine) (b : UInt32) : Except Fault Machine :=
  if m.n.toInt ≥ LOGSIZE ∨ m.n.toInt ≥ (L.size : Int) - 1 then .error .tooBig
  else
    let i := findEntry m b
    .ok { m with block := Function.update m.block i b,
                 n := if i = m.n.toInt.toNat then m.n + 1 else m.n }

/-- Modify the data of a block and call `log_write`. -/
def update (m : Machine) (u : UInt32 × Block) : Except Fault Machine :=
  logWrite L (m.setBuf u.1.toNat u.2) u.1

/-! ### Running out of power -/

/-- The memory after a restart. -/
def restarted (disk : Disk) : Machine where
  n := 0
  block := fun _ => 0
  buf := disk
  writes := []

/-- Restart on a disk: recovery runs that lose power after the given numbers of block writes, and
then one that completes. -/
def reboot (disk : Disk) : List Nat → Except Fault (Disk × Machine)
  | [] => do
      let m ← recoverFromLog L (restarted disk)
      .ok (applyWrites disk m.writes, { m with writes := [] })
  | k :: ks => do
      let m ← recoverFromLog L (restarted disk)
      reboot (applyWrites disk (m.writes.take k)) ks

/-- When the power goes during a transaction: after how many block writes of `commit`, and of each
recovery that does not complete. -/
structure Outage where
  commit : Nat
  recoveries : List Nat

/-- A transaction: modify some blocks, and commit or lose the power. -/
def transact
    (disk : Disk) (m : Machine) (updates : List (UInt32 × Block)) (outage : Option Outage) :
    Except Fault (Disk × Machine) := do
  let m ← updates.foldlM (update L) m
  let m := commit L m
  match outage with
  | none => .ok (applyWrites disk m.writes, { m with writes := [] })
  | some o => reboot L (applyWrites disk (m.writes.take o.commit)) o.recoveries

/-- Transactions one after the other. -/
def transactions (disk : Disk) (m : Machine) :
    List (List (UInt32 × Block) × Option Outage) → Except Fault (Disk × Machine)
  | [] => .ok (disk, m)
  | (updates, outage) :: ts => do
      let (disk, m) ← transact L disk m updates outage
      transactions disk m ts

end Xv6.Log
