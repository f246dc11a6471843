import Xv6fs.Fs.INode

/-! Directories and paths.  A path is the list of its bytes before the NUL. -/

namespace Xv6fs

open Program (assert)

variable (sb : SuperBlock)

namespace INode

/-- The loop of `dirlookup` from offset `off` on. -/
def dirlookup_loop (x : Nat) (name : List UInt8) : (fuel off : Nat) → Prog (Option (Nat × Nat))
  | 0, _ => pure none
  | fuel + 1, off => do
    let s ← get
    if off < (s.inodes x).dinode.size.toNat then
      let (n, buf) ← read sb x (fun _ => 0) off DIRENT_SIZE
      assert (n = DIRENT_SIZE) .dirlookup_read
      let de := DirEntry.load buf
      if de.inum = 0 then dirlookup_loop x name fuel (off + DIRENT_SIZE)
      else
        match strcmp name de.str with
        | none => throw .strcmp_over_read
        | some true =>
          inode_get de.inum.toNat
          pure (some (de.inum.toNat, off))
        | some false => dirlookup_loop x name fuel (off + DIRENT_SIZE)
    else pure none

/-- `dirlookup`: the inode that `name` names in directory `x`, and the offset of the entry. -/
def dirlookup (x : Nat) (name : List UInt8) : Prog (Option (Nat × Nat)) := do
  record (.access x)
  let s ← get
  assert ((s.inodes x).dinode.type = FileType.T_DIR) .dirlookup_not_dir
  dirlookup_loop sb x name (s.inodes x).dinode.size.toNat 0

/-- The loop of `dirlink` that looks for an empty entry. -/
def dirlink_slot (x : Nat) : (fuel off : Nat) → Prog Nat
  | 0, off => pure off
  | fuel + 1, off => do
    let s ← get
    if off < (s.inodes x).dinode.size.toNat then
      let (n, buf) ← read sb x (fun _ => 0) off DIRENT_SIZE
      assert (n = DIRENT_SIZE) .dirlink_read
      if (DirEntry.load buf).inum = 0 then pure off
      else dirlink_slot x fuel (off + DIRENT_SIZE)
    else pure off

/-- `dirlink`: whether the entry `(name, inum)` is now in directory `x`. -/
def dirlink (x : Nat) (name : List UInt8) (inum : Nat) : Prog Bool := do
  record (.access x)
  match ← dirlookup sb x name with
  | some (ip, _) =>
    inode_put sb ip
    pure false
  | none =>
    let s ← get
    let off ← dirlink_slot sb x (s.inodes x).dinode.size.toNat 0
    let n ← write sb x (DirEntry.bytes ⟨UInt16.ofNat inum, strncpy name⟩) off DIRENT_SIZE
    pure (n = DIRENT_SIZE)

end INode

/-- The byte `/`. -/
abbrev SLASH : UInt8 := 47

/-- `skipelem`: the next element of a path, cut to `DIRSIZ` bytes, and the path after it. -/
def skipelem (path : List UInt8) : Option (List UInt8 × List UInt8) :=
  match path.dropWhile (· == SLASH) with
  | [] => none
  | c :: rest =>
    let path := c :: rest
    some ((path.takeWhile (· != SLASH)).take DIRSIZ,
      (path.dropWhile (· != SLASH)).dropWhile (· == SLASH))

theorem length_dropWhile_le {α : Type*} (p : α → Bool) (l : List α) :
    (l.dropWhile p).length ≤ l.length :=
  (List.dropWhile_sublist p).length_le

/-- Each element takes something off the path. -/
theorem skipelem_length {path path' name : List UInt8} (h : skipelem path = some (name, path')) :
    path'.length < path.length := by
  unfold skipelem at h
  split at h
  · cases h
  · next c rest hdrop =>
    have hc : (c == SLASH) = false := by
      have := List.head_dropWhile_not (· == SLASH) (l := path)
        (by rw [hdrop]; exact List.cons_ne_nil _ _)
      simpa only [hdrop, List.head_cons] using this
    have hle := length_dropWhile_le (· == SLASH) path
    rw [hdrop, List.length_cons] at hle
    simp only [Option.some.injEq, Prod.mk.injEq] at h
    rw [← h.2]
    have h1 := length_dropWhile_le (· == SLASH) ((c :: rest).dropWhile (· != SLASH))
    have h2 : (c :: rest).dropWhile (· != SLASH) = rest.dropWhile (· != SLASH) := by
      rw [List.dropWhile_cons_of_pos]
      simpa [bne] using hc
    have h3 := length_dropWhile_le (· != SLASH) rest
    rw [h2] at h1 ⊢
    omega

/-- The loop of `inode_name_x` at inode `ip`, and what follows it.  Each iteration takes at least one
byte off the path, so its length is fuel enough. -/
def inode_name_loop (nameiparent : Bool) :
    (fuel : Nat) → (path name : List UInt8) → (ip : Nat) → Prog (Option (Nat × List UInt8))
  | 0, _, _, _ => pure none
  | fuel + 1, path, name, ip =>
    match skipelem path with
    | none => do
      if nameiparent then
        inode_put sb ip
        pure none
      else pure (some (ip, name))
    | some (name, path) => do
      INode.lock sb ip
      let s ← get
      if (s.inodes ip).dinode.type ≠ FileType.T_DIR then
        inode_unlock_put sb ip
        pure none
      else if nameiparent ∧ path = [] then
        INode.unlock ip
        pure (some (ip, name))
      else
        match ← INode.dirlookup sb ip name with
        | none =>
          inode_unlock_put sb ip
          pure none
        | some (next, _) =>
          inode_unlock_put sb ip
          inode_name_loop nameiparent fuel path name next

def inode_name_x (path : List UInt8) (nameiparent : Bool) : Prog (Option (Nat × List UInt8)) := do
  assert (path.head? = some SLASH) .path_not_absolute
  inode_get ROOTINO
  inode_name_loop sb nameiparent (path.length + 1) path [] ROOTINO

/-- `inode_name`: the inode that a path names. -/
def inode_name (path : List UInt8) : Prog (Option Nat) := do
  let r ← inode_name_x sb path false
  pure (r.map Prod.fst)

/-- `inode_name_parent`: the directory that holds the last element of a path, and that element. -/
def inode_name_parent (path : List UInt8) : Prog (Option (Nat × List UInt8)) :=
  inode_name_x sb path true

/-! ### `std::filesystem::path` -/

namespace Path

/-- `filename`: what follows the last slash. -/
def filename (path : List UInt8) : List UInt8 :=
  (path.reverse.takeWhile (· != SLASH)).reverse

/-- `parent_path`: the path without its filename and the slashes before that, unless only a root is
left. -/
def parent_path (path : List UInt8) : List UInt8 :=
  if path.all (· == SLASH) then path
  else
    match ((path.reverse.dropWhile (· != SLASH)).dropWhile (· == SLASH)).reverse with
    | [] => path.take 1 |>.filter (· == SLASH)
    | c :: rest => c :: rest

/-- The elements of a path that does not end with a slash, but for a root. -/
def elements (path : List UInt8) : List (List UInt8) :=
  (path.splitOn SLASH).filter (· != [])

/-- `==` of two parent paths: both or neither are absolute, and their elements are the same. -/
def same (p q : List UInt8) : Bool :=
  (p.head? == some SLASH) == (q.head? == some SLASH) && elements p == elements q

end Path

end Xv6fs
