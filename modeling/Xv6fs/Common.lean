import Xv6fs.Lib.Bytes

/-! The constants of `common.h`, the super block, and the data of a block. -/

namespace Xv6fs

/-- Block size. -/
abbrev BSIZE : Nat := 1024

/-- Size of the file system in blocks. -/
abbrev FSSIZE : Nat := 1000

/-- Maximum number of blocks that any operation writes. -/
abbrev MAX_OP_BLOCKS : Nat := 10

/-- Maximum number of data blocks in the on-disk log. -/
abbrev LOG_SIZE : Nat := MAX_OP_BLOCKS * 3

abbrev NDIRECT : Nat := 12

abbrev NINDIRECT : Nat := BSIZE / 4

abbrev MAX_FILE : Nat := NDIRECT + NINDIRECT

abbrev DIRSIZ : Nat := 14

/-- Root inode number. -/
abbrev ROOTINO : Nat := 1

abbrev NINODES : Nat := 200

abbrev FS_MAGIC : Nat := 0x10203040

/-- Bitmap bits per block. -/
abbrev BIT_PER_BLOCK : Nat := BSIZE * 8

/-- Open files per system. -/
abbrev NFILE : Nat := 100

/-- The `data` of a block. -/
abbrev BlockData := Bytes.Buffer BSIZE

/-- The image that `PosixEnv` maps: the content of each block. -/
abbrev Disk := Nat → BlockData

/-- The `int` that an unsigned value becomes. -/
def to_int (n : Nat) : Int := (n : Int).bmod (2 ^ 32)

section setAt

variable {α : Type*} {f : Nat → α} {i j : Nat} {v : α}

/-- The map `f` with `v` at `i`.  It computes where `Function.update` has to cast `v`. -/
def setAt (f : Nat → α) (i : Nat) (v : α) : Nat → α := fun j => if j = i then v else f j

@[simp] theorem setAt_self : setAt f i v i = v := if_pos rfl

theorem setAt_of_ne (h : j ≠ i) : setAt f i v j = f j := if_neg h

theorem setAt_apply : setAt f i v j = if j = i then v else f j := rfl

@[simp] theorem setAt_setAt {v' : α} : setAt (setAt f i v') i v = setAt f i v := by
  funext j
  simp only [setAt_apply]
  split <;> rfl

theorem setAt_same {x : Nat} (g : Nat → α) : setAt g x (g x) = g := by
  funext y
  rw [setAt_apply]
  split
  · next hyx => rw [hyx]
  · rfl

end setAt

end Xv6fs
