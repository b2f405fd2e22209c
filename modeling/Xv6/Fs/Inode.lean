import Xv6.Fs.Layout

/-!
# Blocks and inodes

The block allocator, the inode cache and the contents of inodes, from `fs.c`.  The disk is the
disk as the buffer cache and the log show it: `bread` returns the contents last passed to
`log_write`.  There is one device, so device numbers are left out, and a block number is the
natural number that its `uint` stands for.
-/

namespace Xv6.Fs

/-- `NINODE`, the number of entries of the inode cache. -/
abbrev NINODE : Nat := 50

instance : NeZero NINODE := ⟨by decide⟩

/-- `T_DEV`, the type of a device. -/
abbrev T_DEV : Int16 := 3

/-- The panics of this part of `fs.c`. -/
inductive Fault where
  /-- "balloc: out of blocks" -/
  | outOfBlocks
  /-- "freeing free block" -/
  | freeingFree
  /-- "ialloc: no inodes" -/
  | ialloc
  /-- "iget: no inodes" -/
  | iget
  /-- "ilock" -/
  | ilock
  /-- "ilock: no type" -/
  | noType
  /-- "bmap: out of range" -/
  | bmapRange
  deriving DecidableEq, Repr

/-- `struct inode`. -/
structure Inode extends Dinode where
  inum : UInt32
  ref : Int
  valid : Bool

/-- The entries of the inode cache. -/
abbrev Slot : Type := Fin NINODE

/-- The state of the file system: the superblock in memory, the disk and the inode cache. -/
structure FileSys where
  sb : Superblock
  disk : Disk
  inode : Slot → Inode

/-- Computations on the file system that may panic. -/
abbrev FsM : Type → Type := StateT FileSys (Except Fault)

namespace FileSys

/-- Change the entry `ip` of the inode cache. -/
def modifyInode (s : FileSys) (ip : Slot) (f : Inode → Inode) : FileSys :=
  { s with inode := Function.update s.inode ip (f (s.inode ip)) }

@[simp]
theorem modifyInode_self (s : FileSys) (ip : Slot) (f : Inode → Inode) :
  (s.modifyInode ip f).inode ip = f (s.inode ip)
  := Function.update_self ..

@[simp]
theorem modifyInode_sb (s : FileSys) (ip : Slot) (f : Inode → Inode) :
  (s.modifyInode ip f).sb = s.sb
  := rfl

@[simp]
theorem modifyInode_disk (s : FileSys) (ip : Slot) (f : Inode → Inode) :
  (s.modifyInode ip f).disk = s.disk
  := rfl

theorem modifyInode_of_ne (s : FileSys) {ip k : Slot} (f : Inode → Inode) (h : k ≠ ip) :
  (s.modifyInode ip f).inode k = s.inode k
  := Function.update_of_ne h ..

/-- Change the contents of the block `b`. -/
def modifyBlock (s : FileSys) (b : Nat) (f : Block → Block) : FileSys :=
  { s with disk := Function.update s.disk b (f (s.disk b)) }

end FileSys

/-! ### Blocks -/

/-- `bzero`: zero a block. -/
def bzero (b : Nat) : FsM Unit :=
  modify fun s => s.modifyBlock b fun _ => .zero

/-- The search of `balloc`: the first block whose bit is clear. -/
def findFree (sb : Superblock) (d : Disk) : Option Nat :=
  (List.range ((sb.size.toNat + BPB - 1) / BPB)).findSome? fun k =>
    (List.range BPB).findSome? fun bi =>
      if k * BPB + bi < sb.size.toNat ∧ bit sb d (k * BPB + bi) = false then some (k * BPB + bi)
      else none

/-- `balloc`: allocate a zeroed disk block. -/
def balloc : FsM UInt32 := do
  let s ← get
  match findFree s.sb s.disk with
  | some b =>
      modify fun s => { s with disk := setBit s.sb s.disk b }
      bzero b
      return .ofNat b
  | none => throw .outOfBlocks

/-- `bfree`: free a disk block. -/
def bfree (b : Nat) : FsM Unit := do
  modify fun s => { s with sb := readsb s.disk }
  let s ← get
  if bit s.sb s.disk b = false then throw .freeingFree
  else modify fun s => { s with disk := clearBit s.sb s.disk b }

/-! ### Inodes -/

/-- `iget`: find the entry for an inode number in the cache, or make one. -/
def iget (inum : UInt32) : FsM Slot := do
  let s ← get
  match (List.finRange NINODE).find? fun ip => 0 < (s.inode ip).ref ∧ (s.inode ip).inum = inum with
  | some ip =>
      modify fun s => s.modifyInode ip fun x => { x with ref := x.ref + 1 }
      return ip
  | none =>
      match (List.finRange NINODE).find? fun ip => (s.inode ip).ref = 0 with
      | some ip =>
          modify fun s => s.modifyInode ip fun x =>
            { x with inum := inum, ref := 1, valid := false }
          return ip
      | none => throw .iget

/-- `ialloc`: allocate an inode on the disk. -/
def ialloc (type : Int16) : FsM Slot := do
  let s ← get
  match (List.range s.sb.ninodes.toNat).find? fun inum =>
      1 ≤ inum ∧ (dinode s.sb s.disk inum).type = 0 with
  | some inum =>
      modify fun s =>
        { s with disk := setDinode s.sb s.disk inum ⟨type, 0, 0, 0, 0, fun _ => 0⟩ }
      iget (.ofNat inum)
  | none => throw .ialloc

/-- `iupdate`: copy an inode from the cache to the disk. -/
def iupdate (ip : Slot) : FsM Unit :=
  modify fun s =>
    { s with disk := setDinode s.sb s.disk (s.inode ip).inum.toNat (s.inode ip).toDinode }

/-- `idup`: increment the reference count. -/
def idup (ip : Slot) : FsM Unit :=
  modify fun s => s.modifyInode ip fun x => { x with ref := x.ref + 1 }

/-- `ilock`, with the lock acquired: read the inode from the disk if necessary. -/
def ilock (ip : Slot) : FsM Unit := do
  let s ← get
  if (s.inode ip).ref < 1 then throw .ilock
  else if (s.inode ip).valid = false then
    modify fun s => s.modifyInode ip fun x =>
      { x with toDinode := dinode s.sb s.disk x.inum.toNat, valid := true }
    let s ← get
    if (s.inode ip).type = 0 then throw .noType

/-- The indirect block of an inode in `bmap`, which is allocated if there is none. -/
def indirectBlock (ip : Slot) : FsM UInt32 := do
  let s ← get
  if (s.inode ip).ind = 0 then
    let addr ← balloc
    modify fun s => s.modifyInode ip fun x =>
      { x with addrs := Function.update x.addrs (Fin.last NDIRECT) addr }
    return addr
  else return (s.inode ip).ind

/-- `bmap`: the address of the block `bn` of an inode, which is allocated if there is none. -/
def bmap (ip : Slot) (bn : Nat) : FsM UInt32 := do
  if h : bn < NDIRECT then
    let s ← get
    if (s.inode ip).addrs (Fin.castSucc ⟨bn, h⟩) = 0 then
      let addr ← balloc
      modify fun s => s.modifyInode ip fun x =>
        { x with addrs := Function.update x.addrs (Fin.castSucc ⟨bn, h⟩) addr }
      return addr
    else return (s.inode ip).addrs (Fin.castSucc ⟨bn, h⟩)
  else if bn - NDIRECT < NINDIRECT then
    let ind ← indirectBlock ip
    let s ← get
    if (s.disk ind.toNat).word (bn - NDIRECT) = 0 then
      let addr ← balloc
      modify fun s => s.modifyBlock ind.toNat fun a => a.setWord (bn - NDIRECT) addr
      return addr
    else return (s.disk ind.toNat).word (bn - NDIRECT)
  else throw .bmapRange

/-- One step of the first loop of `itrunc`. -/
def freeDirect (ip : Slot) (i : Fin NDIRECT) : FsM Unit := do
  let s ← get
  if (s.inode ip).addrs i.castSucc ≠ 0 then
    bfree ((s.inode ip).addrs i.castSucc).toNat
    modify fun s => s.modifyInode ip fun x =>
      { x with addrs := Function.update x.addrs i.castSucc 0 }

/-- One step of the second loop of `itrunc`, over the indirect block `a`. -/
def freeInner (a : Block) (j : Fin NINDIRECT) : FsM Unit := do
  if a.word j ≠ 0 then
    bfree (a.word j).toNat

/-- The part of `itrunc` for the indirect block. -/
def freeIndirect (ip : Slot) : FsM Unit := do
  let s ← get
  let ind := (s.inode ip).ind
  if ind ≠ 0 then
    (List.finRange NINDIRECT).forM (freeInner (s.disk ind.toNat))
    bfree ind.toNat
    modify fun s => s.modifyInode ip fun x =>
      { x with addrs := Function.update x.addrs (Fin.last NDIRECT) 0 }

/-- `itrunc`: discard the contents of an inode. -/
def itrunc (ip : Slot) : FsM Unit := do
  (List.finRange NDIRECT).forM (freeDirect ip)
  freeIndirect ip
  modify fun s => s.modifyInode ip fun x => { x with size := 0 }
  iupdate ip

/-- `iput`, with the lock acquired: drop a reference, and free an inode without links with its
last reference. -/
def iput (ip : Slot) : FsM Unit := do
  let s ← get
  if (s.inode ip).valid = true ∧ (s.inode ip).nlink = 0 ∧ (s.inode ip).ref = 1 then
    itrunc ip
    modify fun s => s.modifyInode ip fun x => { x with type := 0 }
    iupdate ip
    modify fun s => s.modifyInode ip fun x => { x with valid := false }
  modify fun s => s.modifyInode ip fun x => { x with ref := x.ref - 1 }

/-! ### The contents of inodes -/

/-- The variables of the loop of `readi` or `writei`.  `src` is the data to write. -/
structure Transfer where
  src : Option (Nat → UInt8)
  off : Nat
  n : Nat
  tot : Nat

/-- `readi` up to its loop, which is not entered if there is nothing to transfer from the disk. -/
def readi (ip : Slot) (off n : UInt32) : FsM (Option Transfer) := do
  let s ← get
  let size := (s.inode ip).size
  if (s.inode ip).type = T_DEV then return none
  else if off > size ∨ off + n < off then return none
  else if off + n > size then return some ⟨none, off.toNat, (size - off).toNat, 0⟩
  else return some ⟨none, off.toNat, n.toNat, 0⟩

/-- `writei` up to its loop. -/
def writei (ip : Slot) (src : Nat → UInt8) (off n : UInt32) : FsM (Option Transfer) := do
  let s ← get
  let size := (s.inode ip).size
  if (s.inode ip).type = T_DEV then return none
  else if off > size ∨ off + n < off then return none
  else if (off + n).toNat > MAXFILE * BSIZE then return none
  else return some ⟨some src, off.toNat, n.toNat, 0⟩

/-- One step of the loop of `readi` or `writei`. -/
def Transfer.step (t : Transfer) (ip : Slot) : FsM Transfer := do
  let addr ← bmap ip (t.off / BSIZE)
  let m := min (t.n - t.tot) (BSIZE - t.off % BSIZE)
  match t.src with
  | some src =>
      modify fun s => s.modifyBlock addr.toNat fun a =>
        a.copyIn (t.off % BSIZE) m fun k => src (t.tot + k)
  | none => pure ()
  return { t with off := t.off + m, tot := t.tot + m }

/-- The end of `readi` or `writei`, after the loop. -/
def Transfer.finish (t : Transfer) (ip : Slot) : FsM Unit := do
  let s ← get
  if t.src.isSome ∧ 0 < t.n ∧ t.off > (s.inode ip).size.toNat then
    modify fun s => s.modifyInode ip fun x => { x with size := .ofNat t.off }
    iupdate ip

/-- The loop of `writei`.  Every step transfers a byte, so the fuel `n` is enough. -/
def Transfer.loop (ip : Slot) : Nat → Transfer → FsM Transfer
  | 0, t => pure t
  | fuel + 1, t => do
      if t.tot < t.n then
        let t ← t.step ip
        t.loop ip fuel
      else return t

/-- `writei`, with its loop.  A device has no driver. -/
def writeiAll (ip : Slot) (src : Nat → UInt8) (off n : UInt32) : FsM Int := do
  match ← writei ip src off n with
  | some t =>
      let t ← t.loop ip t.n
      t.finish ip
      return t.n
  | none => return -1

/-- The loop of `readi`: the bytes that are copied to the destination. -/
def Transfer.readLoop (ip : Slot) : Nat → Transfer → FsM (List UInt8)
  | 0, _ => pure []
  | fuel + 1, t => do
      if t.tot < t.n then
        let addr ← bmap ip (t.off / BSIZE)
        let s ← get
        let m := min (t.n - t.tot) (BSIZE - t.off % BSIZE)
        let bytes := (s.disk addr.toNat).copyOut (t.off % BSIZE) m
        let rest ← Transfer.readLoop ip fuel { t with off := t.off + m, tot := t.tot + m }
        return bytes ++ rest
      else return []

/-- `readi`, with its loop: the result and the bytes at the destination. -/
def readiAll (ip : Slot) (off n : UInt32) : FsM (Int × List UInt8) := do
  match ← readi ip off n with
  | some t =>
      let bytes ← t.readLoop ip t.n
      return (t.n, bytes)
  | none => return (-1, [])

end Xv6.Fs
