import Xv6.File.SharedRuns

/-!
# What a call of `filewrite` accounts for

`filewrite` of a regular file cuts the data into chunks and gives one after the other to `writei`.
A chunk that `writei` refuses ends the call with `-1`, and the chunks before it stay written.
-/

namespace Xv6.Filewrite

open Fs Xv6.SharedFile

/-- The fields of a `struct file` of the type `FD_INODE` that `filewrite` uses. -/
structure InodeFile where
  writable : Bool
  ip : Slot
  off : UInt32

/-- `n1`, the length of the chunk at `i`. -/
def n1 (data : List UInt8) (i : Nat) : Nat :=
  min (data.length - i) maxChunk

/-- The body of the loop up to `end_op`, with the result of `writei`. -/
def writeChunk (f : InodeFile) (data : List UInt8) (i : Nat) (fs : FileSys) :
    Except SharedFile.Fault (Int × InodeFile × FileSys) := do
  let (_, fs) ← (Fs.ilock f.ip fs).mapError .fs
  let (r, fs) ←
    (writeiAll f.ip (fun k => data.getD (i + k) 0) f.off (.ofNat (n1 data i)) fs).mapError .fs
  let off := if 0 < r then f.off + .ofNat r.toNat else f.off
  if (fs.inode f.ip).ref < 1 then .error .iunlock
  else .ok (r, { f with off := off }, fs)

/-- The loop of `filewrite`.  Every chunk has a byte, so there are not more chunks than bytes. -/
def writeLoop (data : List UInt8) : Nat → InodeFile → Nat → FileSys →
    Except SharedFile.Fault (Nat × InodeFile × FileSys)
  | 0, f, i, fs => .ok (i, f, fs)
  | fuel + 1, f, i, fs =>
      if i < data.length then do
        let (r, f, fs) ← writeChunk f data i fs
        if r < 0 then .ok (i, f, fs)
        else if r ≠ n1 data i then .error .shortFilewrite
        else writeLoop data fuel f (i + r.toNat) fs
      else .ok (i, f, fs)

/-- `filewrite` of a file of the type `FD_INODE`. -/
def filewrite (f : InodeFile) (data : List UInt8) (fs : FileSys) :
    Except SharedFile.Fault (Int × InodeFile × FileSys) := do
  if f.writable = false then .ok (-1, f, fs)
  else
    let (i, f, fs) ← writeLoop data data.length f 0 fs
    .ok (if i = data.length then data.length else -1, f, fs)

/-- The file is open for writing, and its inode is a regular file without a hole. -/
structure Opened (f : InodeFile) (fs : FileSys) : Prop where
  writable : f.writable = true
  ready : Ready fs f.ip
  noHole : (fs.inode f.ip).NoHole fs.disk
  type : (fs.inode f.ip).type = T_FILE

/-- A call that returns `r ≥ 0` advances the offset by `r` and puts the first `r` bytes into the
file at the old offset, and a call that returns `-1` changes neither the offset nor the file. -/
def Accounts (f : InodeFile) (data : List UInt8) (fs : FileSys) : Prop :=
  ∀ r f' fs', filewrite f data fs = .ok (r, f', fs') →
    (0 ≤ r → f'.off.toNat = f.off.toNat + r.toNat ∧
      fs'.file (fs.inode f.ip).inum.toNat
        = splice (fs.file (fs.inode f.ip).inum.toNat) f.off.toNat (data.take r.toNat)) ∧
    (r = -1 → f'.off = f.off ∧
      fs'.file (fs.inode f.ip).inum.toNat = fs.file (fs.inode f.ip).inum.toNat)

section

variable {f : InodeFile} {fs fs' : FileSys} {data : List UInt8} {i fuel : Nat}

theorem Opened.not_dev (h : Opened f fs) :
  (fs.inode f.ip).type ≠ T_DEV
  := by
  rw [h.type]
  decide

/-- The call of one process, as a start of the shared system. -/
def start (f : InodeFile) (fs : FileSys) : Sys Unit :=
  ⟨fs, f.off, none, fun _ => none, [], [], []⟩

section

variable (h : Opened f fs)

include h

/-- `writei` writes all bytes, or there are not enough free blocks for them. -/
theorem Opened.writei
    (src : Nat → UInt8) {n : Nat} (hoff : f.off.toNat ≤ (fs.inode f.ip).size.toNat)
    (hbound : f.off.toNat + n ≤ MAXFILE * BSIZE) :
  (∃ e, writeiAll f.ip src f.off (.ofNat n) fs = .error e ∧
    fs.free < (fs.inode f.ip).missingIn fs.disk (f.off.toNat / BSIZE)
      ((f.off.toNat + n + BSIZE - 1) / BSIZE)) ∨
  ∃ fs', writeiAll f.ip src f.off (.ofNat n) fs = .ok (n, fs') ∧
    (∀ off, Opened { f with off := off } fs') ∧
    (fs'.inode f.ip).size.toNat = max (fs.inode f.ip).size.toNat (f.off.toNat + n)
  := by
  obtain ⟨hn, haccepts⟩ := accepts_of_le hoff hbound
  have hholds := h.ready.holds h.noHole
  have hspec := writeiAll_spec hholds rfl h.not_dev src f.off (.ofNat n)
  rw [hholds.copy, hn] at hspec
  rcases hw : writeiAll f.ip src f.off (.ofNat n) fs with e | ⟨r, fs'⟩
  · rw [Wp, hw] at hspec
    exact .inl ⟨e, rfl, hspec.2.2⟩
  · obtain ⟨hrefuses, -⟩ | ⟨-, rfl, ino', hwritten⟩ := hspec.of_ok hw
    · cases haccepts hrefuses
    · obtain ⟨hready, hhole⟩ := hwritten.ready h.ready
      refine .inr ⟨fs', rfl, fun _ => ⟨h.writable, hready, hhole, ?_⟩, ?_⟩
      · rw [hwritten.entry]
        exact h.type
      · rw [← hwritten.holds.copy, hwritten.size, hholds.copy]

end

end

end Xv6.Filewrite
