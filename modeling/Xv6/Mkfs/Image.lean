import Xv6.Fs.Dir
import Xv6.Log.Commit

/-!
# `mkfs`

The program that builds the initial file system from a list of files.  It has its own functions
for sectors, inodes and the free map.  The image is a file that grows when a sector is written
behind its end, and a sector behind its end cannot be read.
-/

namespace Xv6.Mkfs

open Fs

/-- `NINODES`. -/
abbrev NINODES : Nat := 200

/-- `T_FILE`, the type of a file. -/
abbrev T_FILE : Int16 := 2

/-- `nbitmap`. -/
abbrev nbitmap : Nat := FSSIZE / (BSIZE * 8) + 1

/-- `ninodeblocks`. -/
abbrev ninodeblocks : Nat := NINODES / IPB + 1

/-- `nlog`. -/
abbrev nlog : Nat := Log.LOGSIZE

/-- `nmeta`, the number of blocks that hold no data. -/
abbrev nmeta : Nat := 2 + nlog + ninodeblocks + nbitmap

/-- `nblocks`, the number of data blocks. -/
abbrev nblocks : Nat := FSSIZE - nmeta

/-- `sb`. -/
def sb : Superblock where
  size := .ofNat FSSIZE
  nblocks := .ofNat nblocks
  ninodes := .ofNat NINODES
  nlog := .ofNat nlog
  logstart := .ofNat 2
  inodestart := .ofNat (2 + nlog)
  bmapstart := .ofNat (2 + nlog + ninodeblocks)

/-- The words of the superblock. -/
def sbWord : Nat → UInt32
  | 0 => sb.size
  | 1 => sb.nblocks
  | 2 => sb.ninodes
  | 3 => sb.nlog
  | 4 => sb.logstart
  | 5 => sb.inodestart
  | 6 => sb.bmapstart
  | _ => 0

/-- The exits of `mkfs` with an error. -/
inductive Failure where
  /-- `rsect` reads behind the end of the image. -/
  | read
  /-- `assert(fbn < MAXFILE)` -/
  | maxfile
  /-- `assert(used < BSIZE*8)` -/
  | used
  /-- `assert(index(argv[i], '/') == 0)` -/
  | slash
  /-- `assert(rootino == ROOTINO)` -/
  | rootino
  deriving DecidableEq, Repr

/-- The image, the number of its sectors, and the variables `freeinode` and `freeblock`. -/
structure Image where
  disk : Disk
  size : Nat
  freeinode : Nat
  freeblock : Nat

/-- Computations of `mkfs`. -/
abbrev MkfsM : Type → Type := StateT Image (Except Failure)

/-! ### Sectors and inodes -/

/-- `wsect`. -/
def wsect (sec : Nat) (buf : Block) : MkfsM Unit :=
  modify fun st =>
    { st with disk := Function.update st.disk sec buf, size := max st.size (sec + 1) }

/-- `rsect`. -/
def rsect (sec : Nat) : MkfsM Block := do
  let st ← get
  if sec < st.size then return st.disk sec
  else throw .read

/-- `winode`. -/
def winode (inum : Nat) (x : Dinode) : MkfsM Unit := do
  let buf ← rsect (sb.IBLOCK inum)
  wsect (sb.IBLOCK inum) (buf.setWords (iwords * (inum % IPB)) iwords x.word)

/-- `rinode`. -/
def rinode (inum : Nat) : MkfsM Dinode := do
  let buf ← rsect (sb.IBLOCK inum)
  return .ofWords fun k => buf.word (iwords * (inum % IPB) + k)

/-- The inode without blocks that `ialloc` writes. -/
def newInode (type : Int16) : Dinode :=
  ⟨type, 0, 0, 1, 0, fun _ => 0⟩

/-- `ialloc`. -/
def ialloc (type : Int16) : MkfsM Nat := do
  let st ← get
  set { st with freeinode := st.freeinode + 1 }
  winode st.freeinode (newInode type)
  return st.freeinode

/-- The contents of the free map where the first `used` bits are set. -/
def bitmap (used : Nat) : Block :=
  (List.range used).foldl (fun buf i => buf.modifyByte (i / 8) (· ||| mask i)) .zero

/-- `balloc`: write the free map. -/
def balloc (used : Nat) : MkfsM Unit := do
  if used < BSIZE * 8 then wsect sb.bmapstart.toNat (bitmap used)
  else throw .used

/-! ### Contents -/

/-- `freeblock++`. -/
def takeBlock : MkfsM UInt32 := do
  let st ← get
  set { st with freeblock := st.freeblock + 1 }
  return .ofNat st.freeblock

/-- The block with the index `j` in the indirect block of an inode, which gets an address unless it
has one: the inode, the address and the contents. -/
def appendInner (din : Dinode) (j : Nat) : MkfsM (Dinode × UInt32 × Block) := do
  let indirect ← rsect din.ind.toNat
  if indirect.word j = 0 then
    let x ← takeBlock
    wsect din.ind.toNat (indirect.setWord j x)
    let buf ← rsect x.toNat
    return (din, x, buf)
  else
    let x := indirect.word j
    let buf ← rsect x.toNat
    return (din, x, buf)

/-- The block `fbn` of an inode in `iappend`, which gets an address unless it has one: the inode,
the address and the contents. -/
def appendBlock (din : Dinode) (fbn : Nat) : MkfsM (Dinode × UInt32 × Block) := do
  if h : fbn < NDIRECT then
    if din.addrs (Fin.castSucc ⟨fbn, h⟩) = 0 then
      let x ← takeBlock
      let buf ← rsect x.toNat
      return (din.setAddr (Fin.castSucc ⟨fbn, h⟩) x, x, buf)
    else
      let x := din.addrs (Fin.castSucc ⟨fbn, h⟩)
      let buf ← rsect x.toNat
      return (din, x, buf)
  else if din.ind = 0 then
    let x ← takeBlock
    appendInner (din.setAddr (Fin.last NDIRECT) x) (fbn - NDIRECT)
  else appendInner din (fbn - NDIRECT)

/-- The loop of `iappend` from the offset `off` on: the inode and the offset behind the bytes `p`.
Every step writes a byte, so the fuel `p.length` is enough. -/
def appendLoop : Nat → Dinode → Nat → List UInt8 → MkfsM (Dinode × Nat)
  | 0, din, off, _ => pure (din, off)
  | fuel + 1, din, off, p => do
      if 0 < p.length then
        let fbn := off / BSIZE
        if fbn < MAXFILE then
          let (din, x, buf) ← appendBlock din fbn
          let n1 := min p.length ((fbn + 1) * BSIZE - off)
          wsect x.toNat (buf.copyIn (off - fbn * BSIZE) n1 fun k => p.getD k 0)
          appendLoop fuel din (off + n1) (p.drop n1)
        else throw .maxfile
      else return (din, off)

/-- `iappend`. -/
def iappend (inum : Nat) (p : List UInt8) : MkfsM Unit := do
  let din ← rinode inum
  let (din, off) ← appendLoop p.length din din.size.toNat p
  winode inum { din with size := .ofNat off }

/-! ### The program -/

/-- An input file: its name, and the bytes that each call of `read` delivers. -/
structure File where
  name : List UInt8
  chunks : List (List UInt8)

/-- The name in the file system: one leading `_` is skipped. -/
def File.target (f : File) : List UInt8 :=
  match f.name with
  | 95 :: rest => rest
  | name => name

/-- The contents of a file. -/
def File.contents (f : File) : List UInt8 :=
  f.chunks.flatten

/-- The body of the loop over the files. -/
def addFile (rootino : Nat) (f : File) : MkfsM Unit := do
  if 47 ∈ f.name then throw .slash
  else
    let inum ← ialloc T_FILE
    iappend rootino (Dirent.make (.ofList f.target) (.ofNat inum)).bytes
    f.chunks.forM (iappend inum)

/-- Round the size of the root directory up to a block. -/
def fixRoot (rootino : Nat) : MkfsM Unit := do
  let din ← rinode rootino
  winode rootino { din with size := .ofNat ((din.size.toNat / BSIZE + 1) * BSIZE) }

/-- The loop that fills `n` sectors with zeros. -/
@[irreducible]
def zeroSectors (n : Nat) : MkfsM Unit :=
  (List.range n).forM fun i => wsect i .zero

/-- `main` up to the root directory with the entries `.` and `..`. -/
def makeRoot : MkfsM Nat := do
  zeroSectors FSSIZE
  wsect 1 (Block.zero.setWords 0 7 sbWord)
  let rootino ← ialloc T_DIR
  if rootino ≠ ROOTINO.toNat then throw .rootino
  else
    iappend rootino (Dirent.make (.ofList [46]) (.ofNat rootino)).bytes
    iappend rootino (Dirent.make (.ofList [46, 46]) (.ofNat rootino)).bytes
    return rootino

/-- `main` of `mkfs`. -/
def main (files : List File) : MkfsM Unit := do
  let rootino ← makeRoot
  files.forM (addFile rootino)
  fixRoot rootino
  let st ← get
  balloc st.freeblock

/-- The image before `mkfs` writes to it. -/
def start : Image where
  disk := fun _ => .zero
  size := 0
  freeinode := 1
  freeblock := nmeta

end Xv6.Mkfs
