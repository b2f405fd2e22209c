import Xv6.Vm.Alloc

/-!
# Building the memory of a program

The functions of `vm.c` that read and write user memory through a page directory, and `exec.c`.
The program file is known by what `readi` returns for it, the arguments by their bytes.

`uva2ka` may follow a null pointer; `null` is what it reads then.  `copyout` stores through what it
got.  The free list, the kernel stacks and the pipes are kept apart from the contents of the pages,
so that a store into one of those, or into the kernel itself, shows in the contents only.
-/

namespace Xv6.Vm

/-- `MAXARG`, the maximal number of arguments of `exec`. -/
abbrev MAXARG : Nat := 32

/-- `ELF_MAGIC` -/
abbrev ELF_MAGIC : Nat := 0x464C457F

/-- `ELF_PROG_LOAD` -/
abbrev ELF_PROG_LOAD : Nat := 1

namespace Page

/-- The byte at an offset of a page. -/
def byte (c : Page) (k : Nat) : UInt8 :=
  .ofNat ((c (.ofNat 1024 (k / 4))).toNat / 2 ^ (8 * (k % 4)))

/-- The page with the given bytes. -/
def ofBytes (b : Nat → UInt8) : Page :=
  fun i => .ofNat ((b (4 * i)).toNat + 2 ^ 8 * (b (4 * i + 1)).toNat
    + 2 ^ 16 * (b (4 * i + 2)).toNat + 2 ^ 24 * (b (4 * i + 3)).toNat)

/-- `memmove` of bytes into a page, from an offset on. -/
def store (c : Page) (off : Nat) (buf : List UInt8) : Page :=
  .ofBytes fun k =>
    if off ≤ k ∧ k < off + buf.length then buf.getD (k - off) 0 else c.byte k

end Page

/-- A number in a file, the lowest byte first: the `n` bytes from the offset `k` on. -/
def field (bs : List UInt8) (k n : Nat) : Nat :=
  ((bs.drop k).take n).foldr (fun b x => b.toNat + 2 ^ 8 * x) 0

/-- The bytes of a word, the lowest first. -/
def wordBytes (w : Nat) : List UInt8 :=
  [.ofNat w, .ofNat (w / 2 ^ 8), .ofNat (w / 2 ^ 16), .ofNat (w / 2 ^ 24)]

/-- A file: the bytes that `readi(ip, dst, off, n)` copies to `dst`, and `none` when it returns
`-1`. -/
structure Inode where
  readi : (off n : Nat) → Option (List UInt8)
  length_le : ∀ {off n bs}, readi off n = some bs → bs.length ≤ n

/-- The fields of `struct elfhdr` that `exec` reads. -/
structure Elfhdr where
  magic : Nat
  entry : Nat
  phoff : Nat
  phnum : Nat

/-- `sizeof(struct elfhdr)` -/
abbrev Elfhdr.size : Nat := 52

/-- `struct elfhdr` -/
def Elfhdr.ofBytes (bs : List UInt8) : Elfhdr where
  magic := field bs 0 4
  entry := field bs 24 4
  phoff := field bs 28 4
  phnum := field bs 44 2

/-- The fields of `struct proghdr` that `exec` reads. -/
structure Proghdr where
  type : Nat
  off : Nat
  vaddr : Nat
  filesz : Nat
  memsz : Nat

/-- `sizeof(struct proghdr)` -/
abbrev Proghdr.size : Nat := 32

/-- `struct proghdr` -/
def Proghdr.ofBytes (bs : List UInt8) : Proghdr where
  type := field bs 0 4
  off := field bs 4 4
  vaddr := field bs 8 4
  filesz := field bs 16 4
  memsz := field bs 20 4

/-! ### `vm.c` -/

/-- The loop of `loaduvm`, with `n` pages from `addr + i` on. -/
def loadLoop (pgdir addr : Nat) (ip : Inode) (offset sz : Nat) : (n i : Nat) → Mem Bool
  | 0, _ => return true
  | n + 1, i => do
    match ← walkpgdir pgdir (addr + i) false with
    | none => throw (.panic "loaduvm: address should exist")
    | some (t, k) =>
      let pa := pteAddr ((← get).page t k)
      let n' := if sz - i < PGSIZE then sz - i else PGSIZE
      match ip.readi ((offset + i) % 2 ^ 32) n' with
      | none => return false
      | some bs =>
        modify fun m => m.setPage pa ((m.page pa).store 0 bs)
        if bs.length ≠ n' then
          return false
        loadLoop pgdir addr ip offset sz n (i + PGSIZE)

/-- `loaduvm`; `false` is the result `-1`. -/
def loaduvm (pgdir addr : Nat) (ip : Inode) (offset sz : Nat) : Mem Bool := do
  if addr % PGSIZE ≠ 0 then
    throw (.panic "loaduvm: addr must be page aligned")
  loadLoop pgdir addr ip offset sz (npages sz) 0

/-- `clearpteu` -/
def clearpteu (pgdir uva : Nat) : Mem Unit := do
  match ← walkpgdir pgdir uva false with
  | none => throw (.panic "clearpteu")
  | some (t, k) => modify fun m => m.setWord t k (m.page t k &&& ~~~ (.ofNat PTE_U))

/-- The word at address 0 of the memory that the page directory `cr3` maps. -/
def Memory.nullWord (m : Memory) (cr3 : Nat) : Option UInt32 :=
  let pte := m.entry cr3 (.ofVa 0)
  if isP pte then some (m.page (pteAddr pte) 0) else none

/-- What the kernel reads through a null pointer, with the page directory that the processor
uses. -/
abbrev NullRead : Type := Nat → Mem UInt32

/-- On the machine a null pointer leads to the memory of the process that runs. -/
def readNull : NullRead := fun cr3 => do
  match (← get).nullWord cr3 with
  | none => throw .nullDeref
  | some w => return w

/-- A null pointer that is followed ends the run. -/
def nullFault : NullRead := fun _ => throw .nullDeref

/-- `uva2ka`: the page of a user address.  The pointer that `walkpgdir` returns is followed
without a check. -/
def uva2ka (null : Mem UInt32) (pgdir uva : Nat) : Mem (Option Nat) := do
  let pte ← match ← walkpgdir pgdir uva false with
    | none => null
    | some (t, k) => pure ((← get).page t k)
  if !isP pte then
    return none
  if !isU pte then
    return none
  return some (pteAddr pte)

/-- The loop of `copyout`.  Each turn copies one byte at least, so as many turns are enough as
there are bytes. -/
def copyoutLoop (null : Mem UInt32) (pgdir : Nat) : (n va : Nat) → (buf : List UInt8) → Mem Bool
  | 0, _, _ => return true
  | n + 1, va, buf => do
    if buf.length > 0 then
      let va0 := pgrounddown va
      match ← uva2ka null pgdir va0 with
      | none => return false
      | some pa0 =>
        let len := min (PGSIZE - (va - va0)) buf.length
        modify fun m => m.setPage pa0 ((m.page pa0).store (va - va0) (buf.take len))
        copyoutLoop null pgdir n ((va0 + PGSIZE) % 2 ^ 32) (buf.drop len)
    else
      return true

/-- `copyout`; `false` is the result `-1`. -/
def copyout (null : Mem UInt32) (pgdir va : Nat) (buf : List UInt8) : Mem Bool :=
  copyoutLoop null pgdir buf.length va buf

/-! ### `exec.c` -/

/-- The loop of `exec` over the program headers, for one of them: the size of the memory then;
`none` is a jump to `bad`. -/
def loadSegment (L : Layout) (ip : Inode) (pgdir : Nat) (ph : Proghdr) (sz : Nat) :
    Mem (Option Nat) := do
  if ph.type ≠ ELF_PROG_LOAD then
    return some sz
  if ph.memsz < ph.filesz then
    return none
  if (ph.vaddr + ph.memsz) % 2 ^ 32 < ph.vaddr then
    return none
  let sz ← allocuvm L pgdir sz ((ph.vaddr + ph.memsz) % 2 ^ 32)
  if sz = 0 then
    return none
  if ph.vaddr % PGSIZE ≠ 0 then
    return none
  if ← loaduvm pgdir ph.vaddr ip ph.off ph.filesz then
    return some sz
  else
    return none

/-- The loop of `exec` over the program headers. -/
def loadSegments (L : Layout) (ip : Inode) (pgdir : Nat) : (n off sz : Nat) → Mem (Option Nat)
  | 0, _, sz => return some sz
  | n + 1, off, sz => do
    match ip.readi off Proghdr.size with
    | none => return none
    | some bs =>
      if bs.length ≠ Proghdr.size then
        return none
      match ← loadSegment L ip pgdir (.ofBytes bs) sz with
      | none => return none
      | some sz => loadSegments L ip pgdir n ((off + Proghdr.size) % 2 ^ 32) sz

/-- The part of `exec` that loads the program and allocates two pages at the next page boundary,
the first inaccessible and the second for the stack: the size of the image. -/
def loadImage (L : Layout) (ip : Inode) (elf : Elfhdr) (pgdir : Nat) : Mem (Option Nat) := do
  match ← loadSegments L ip pgdir elf.phnum elf.phoff 0 with
  | none => return none
  | some sz =>
    let sz := pgroundup sz
    let sz ← allocuvm L pgdir sz (sz + 2 * PGSIZE)
    if sz = 0 then
      return none
    clearpteu pgdir (sz - 2 * PGSIZE)
    return some sz

/-- `x - y` in 32 bits. -/
def sub32 (x y : Nat) : Nat :=
  (x + 2 ^ 32 - y) % 2 ^ 32

/-- The loop of `exec` that pushes the argument strings: the stack pointer and the pointers to
the strings. -/
def pushStrings (null : Mem UInt32) (pgdir : Nat) :
    (argv : List (List UInt8)) → (argc sp : Nat) → (ustack : List Nat) →
      Mem (Option (Nat × List Nat))
  | [], _, sp, ustack => return some (sp, ustack)
  | s :: argv, argc, sp, ustack => do
    if argc ≥ MAXARG then
      return none
    let sp := sub32 sp (s.length + 1) / 4 * 4
    if ← copyout null pgdir sp (s ++ [0]) then
      pushStrings null pgdir argv (argc + 1) sp (ustack ++ [sp])
    else
      return none

/-- The part of `exec` that pushes the argument strings and the rest of the stack: the stack
pointer. -/
def pushArgs (null : Mem UInt32) (pgdir sz : Nat) (argv : List (List UInt8)) :
    Mem (Option Nat) := do
  match ← pushStrings null pgdir argv 0 sz [] with
  | none => return none
  | some (sp, args) =>
    let argc := args.length
    -- fake return PC, argc, argv pointer, argv
    let ustack := [0xffffffff, argc, sub32 sp ((argc + 1) * 4)] ++ args ++ [0]
    let sp := sub32 sp ((3 + argc + 1) * 4)
    if ← copyout null pgdir sp (ustack.flatMap wordBytes) then
      return some sp
    else
      return none

/-- What `exec` puts in place of the old image. -/
structure Image where
  pgdir : Nat
  sz : Nat
  entry : Nat
  sp : Nat

/-- `exec` up to the point where it commits to the new image; `none` is the result `-1`. -/
def execImage (L : Layout) (null : Mem UInt32) (ip : Inode) (argv : List (List UInt8)) :
    Mem (Option Image) := do
  match ip.readi 0 Elfhdr.size with
  | none => return none
  | some bs =>
    if bs.length ≠ Elfhdr.size then
      return none
    let elf := Elfhdr.ofBytes bs
    if elf.magic ≠ ELF_MAGIC then
      return none
    match ← setupkvm L with
    | none => return none
    | some pgdir =>
      match ← loadImage L ip elf pgdir with
      | none =>
        freevm L pgdir
        return none
      | some sz =>
        match ← pushArgs null pgdir sz argv with
        | none =>
          freevm L pgdir
          return none
        | some sp => return some { pgdir, sz, entry := elf.entry, sp }

end Xv6.Vm
