import Xv6fs.Fs.Content
import Xv6fs.Fs.Dir

/-! The file system above its blocks: inodes with their links, directories as lists of entries, and
which inodes are cached.  The operations on inodes are functions of this abstract state. -/

namespace Xv6fs

/-- An inode above its blocks: the entries of a directory, or the size and the bytes of a file, and
the numbers of the blocks in the slots.  A byte in no block is `0`. -/
@[ext] structure Node where
  type : UInt16
  nlink : UInt16
  dir : List DirEntry
  size : Nat
  slots : Nat → Nat
  bytes : Nat → UInt8

namespace Node

/-- An inode of type `type` that has nothing in it. -/
def empty (type nlink : UInt16) : Node := ⟨type, nlink, [], 0, fun _ => 0, fun _ => 0⟩

/-- The inode that `inode_put` leaves when it frees one. -/
abbrev free : Node := empty FileType.Invalid 0

/-- A file whose blocks below its size are all mapped. -/
def Whole (n : Node) : Prop :=
  n.size ≤ MAX_FILE * BSIZE ∧ ∀ i, i * BSIZE < n.size → n.slots (fslot i) ≠ 0

/-- The blocks that `n` has, `n'` has in the same slots. -/
def Keeps (n n' : Node) : Prop := ∀ k, n.slots k ≠ 0 → n'.slots k = n.slots k

/-- The slots are the same, but that there may be an indirect block, with nothing in it, where there
was none. -/
structure Spare (slots slots' : Nat → Nat) : Prop where
  others : ∀ k, k ≠ NDIRECT → slots' k = slots k
  indirect : slots NDIRECT ≠ 0 → slots' NDIRECT = slots NDIRECT

theorem Spare.refl (slots : Nat → Nat) : Spare slots slots := ⟨fun _ _ => rfl, fun _ => rfl⟩

end Node

/-! ### Directories -/

/-- An entry that names an inode. -/
def DirEntry.Live (e : DirEntry) : Prop := e.inum ≠ 0

instance (e : DirEntry) : Decidable e.Live := inferInstanceAs (Decidable (e.inum ≠ 0))

/-- The index of the first entry that names an inode `name`. -/
def findEntry (dir : List DirEntry) (name : List UInt8) : Option Nat :=
  dir.findIdx? fun e => e.inum != 0 && e.str == name

/-- The index of the first entry that names no inode, or the end. -/
def freeSlot (dir : List DirEntry) : Nat := dir.findIdx fun e => e.inum == 0

/-- A directory with entry `e` at index `i`, which may be its end. -/
def putEntry (dir : List DirEntry) (i : Nat) (e : DirEntry) : List DirEntry :=
  if i < dir.length then dir.set i e else dir ++ [e]

/-- The inode that entry `i` names. -/
def entryInum (dir : List DirEntry) (i : Nat) : Nat := (dir.getD i .zero).inum.toNat

/-- The inode that a path names, or the directory of its last element and that element. -/
def resolve_loop (node : Nat → Node) (nameiparent : Bool) :
    (fuel : Nat) → (path name : List UInt8) → (ip : Nat) → Option (Nat × List UInt8)
  | 0, _, _, _ => none
  | fuel + 1, path, name, ip =>
    match skipelem path with
    | none => if nameiparent then none else some (ip, name)
    | some (name, path) =>
      if (node ip).type ≠ FileType.T_DIR then none
      else if nameiparent ∧ path = [] then some (ip, name)
      else
        match findEntry (node ip).dir name with
        | none => none
        | some i => resolve_loop node nameiparent fuel path name (entryInum (node ip).dir i)

/-- The inode that a path names. -/
def resolve (node : Nat → Node) (path : List UInt8) : Option Nat :=
  (resolve_loop node false (path.length + 1) path [] ROOTINO).map Prod.fst

/-- The directory that holds the last element of a path, and that element. -/
def resolveParent (node : Nat → Node) (path : List UInt8) : Option (Nat × List UInt8) :=
  resolve_loop node true (path.length + 1) path [] ROOTINO

/-! ### The abstract state -/

/-- The inodes, how often each is referenced, the links of those in memory, the file table and the
transaction count. -/
structure AbsFs where
  node : Nat → Node
  ref : Nat → Nat
  mem : Nat → Option UInt16
  files : Nat → OFile
  outstanding : Nat

namespace AbsFs

variable (a : AbsFs)

/-- The links of inode `x` by the copy in memory, or else on disk. -/
def links (x : Nat) : UInt16 := (a.mem x).getD (a.node x).nlink

/-- Inode `x` is allocated. -/
def Alloc (x : Nat) : Prop := (a.node x).type ≠ FileType.Invalid

instance (x : Nat) : Decidable (a.Alloc x) :=
  inferInstanceAs (Decidable ((a.node x).type ≠ FileType.Invalid))

/-- A walk from the root may come to inode `x`. -/
inductive Reached : Nat → Prop
  | root : Reached ROOTINO
  | entry {x i : Nat} {name : List UInt8} (hx : Reached x) (htype : (a.node x).type = FileType.T_DIR)
      (hfind : findEntry (a.node x).dir name = some i) : Reached (entryInum (a.node x).dir i)

/-- Inode `x` has no references and no links, but nobody has freed it, and an entry names it. -/
def Doomed (x : Nat) : Prop := a.ref x = 0 ∧ a.Alloc x ∧ (a.node x).nlink = 0 ∧ a.Reached x

/-- One reference more to inode `x`. -/
def get (x : Nat) : AbsFs := { a with ref := setAt a.ref x (a.ref x + 1) }

/-- Inode `x` is read into memory. -/
def load (x : Nat) : AbsFs := { a with mem := setAt a.mem x (some (a.links x)) }

/-- One reference less to inode `x`. -/
def drop (x : Nat) : AbsFs := { a with
  ref := setAt a.ref x (a.ref x - 1)
  mem := setAt a.mem x (if a.ref x - 1 = 0 then none else a.mem x) }

/-- Inode `x` is freed and leaves the cache. -/
def free (x : Nat) : AbsFs := { a with
  node := setAt a.node x .free
  ref := setAt a.ref x 0
  mem := setAt a.mem x none }

/-- `inode_put`. -/
def put (x : Nat) : AbsFs :=
  if a.ref x = 1 ∧ a.mem x = some 0 then a.free x else a.drop x

/-- Inode `x` becomes one of type `type` without links, which is referenced. -/
def alloc (x : Nat) (type : UInt16) : AbsFs :=
  { a.get x with node := setAt a.node x (.empty type 0) }

/-- A change of inode `x`. -/
def modify (x : Nat) (f : Node → Node) : AbsFs := { a with node := setAt a.node x (f (a.node x)) }

/-- The links of inode `x` change in memory. -/
def setMem (x : Nat) (n : UInt16) : AbsFs := { a with mem := setAt a.mem x (some n) }

/-- The links of inode `x` change in memory and on disk. -/
def setLinks (x : Nat) (n : UInt16) : AbsFs :=
  (a.modify x fun nd => { nd with nlink := n }).setMem x n

/-- Entry `i` of directory `x` changes. -/
def setEntry (x i : Nat) (e : DirEntry) : AbsFs :=
  a.modify x fun nd => { nd with dir := putEntry nd.dir i e }

/-- File `x` gets a size, blocks and bytes. -/
def setFile (x size : Nat) (slots : Nat → Nat) (bytes : Nat → UInt8) : AbsFs :=
  a.modify x fun nd => { nd with size, slots, bytes }

/-- Inode `x` gets blocks. -/
def setSlots (x : Nat) (slots : Nat → Nat) : AbsFs := a.modify x fun nd => { nd with slots }

/-- What is in memory is allocated and referenced. -/
structure Normal : Prop where
  alloc : ∀ x n, a.mem x = some n → a.Alloc x
  ref : ∀ x n, a.mem x = some n → 0 < a.ref x

@[ext] theorem ext {a b : AbsFs} (hnode : a.node = b.node) (href : a.ref = b.ref)
    (hmem : a.mem = b.mem) (hfiles : a.files = b.files) (hout : a.outstanding = b.outstanding) :
    a = b := by
  cases a
  cases b
  simp_all

end AbsFs

/-! ### Lookups -/

/-- What an operation that has changed nothing since `a0` may have done: it holds some references,
to inodes that it has walked to, has read inodes into memory, and may have freed inodes that were
doomed. -/
structure During (a0 a : AbsFs) (held : List Nat) : Prop where
  files : a.files = a0.files
  outstanding : a.outstanding = a0.outstanding
  ref : ∀ x, a.ref x = a0.ref x + held.count x
  reached : ∀ x ∈ held, a0.Reached x
  node : ∀ x, a.node x = a0.node x ∨ a0.Doomed x ∧ a.node x = .free
  mem : ∀ x n, a.mem x = some n → n = a0.links x
  kept : ∀ x n, a0.mem x = some n → a.mem x = some n

namespace During

variable {a0 a : AbsFs} {held held' : List Nat} {x : Nat}

theorem refl (a : AbsFs) : During a a [] where
  files := rfl
  outstanding := rfl
  ref _ := rfl
  reached x hx := absurd hx List.not_mem_nil
  node _ := .inl rfl
  mem x n h := by rw [AbsFs.links, h, Option.getD_some]
  kept _ _ h := h

theorem perm (h : During a0 a held) (hp : held.Perm held') : During a0 a held' where
  files := h.files
  outstanding := h.outstanding
  ref x := by rw [h.ref, hp.count_eq]
  reached x hx := h.reached x (hp.mem_iff.mpr hx)
  node := h.node
  mem := h.mem
  kept := h.kept

/-- An inode that is allocated has not been freed. -/
theorem node_eq (h : During a0 a held) (hx : a.Alloc x) : a.node x = a0.node x :=
  (h.node x).resolve_right fun hfree => hx (by rw [hfree.2]; rfl)

theorem alloc_of (h : During a0 a held) (hx : a.Alloc x) : a0.Alloc x := by
  have := h.node_eq hx
  rwa [AbsFs.Alloc, ← this]

/-- Where no inode is doomed, all are as they were. -/
theorem nodes_eq (h : During a0 a held) (hd : ∀ x, ¬a0.Doomed x) : a.node = a0.node :=
  funext fun x => (h.node x).resolve_right fun hfree => hd x hfree.1

theorem links_eq (h : During a0 a held) (hx : a.Alloc x) : a.links x = a0.links x := by
  unfold AbsFs.links
  cases hm : a.mem x with
  | some n => exact h.mem x n hm
  | none =>
    cases hm0 : a0.mem x with
    | some n => rw [h.kept x n hm0] at hm; cases hm
    | none => rw [Option.getD_none, Option.getD_none, h.node_eq hx]

theorem get (h : During a0 a held) (hx : a0.Reached x) : During a0 (a.get x) (x :: held) where
  files := h.files
  outstanding := h.outstanding
  ref y := by
    simp only [AbsFs.get, setAt_apply, List.count_cons, h.ref]
    by_cases hy : y = x
    · subst hy
      simp
      omega
    · simp [hy, Ne.symm hy]
  reached y hy := by
    rcases List.mem_cons.mp hy with rfl | hy
    · exact hx
    · exact h.reached y hy
  node := h.node
  mem := h.mem
  kept := h.kept

theorem load (h : During a0 a held) (hx : a.Alloc x) : During a0 (a.load x) held where
  files := h.files
  outstanding := h.outstanding
  ref := h.ref
  reached := h.reached
  node := h.node
  mem y n hy := by
    simp only [AbsFs.load, setAt_apply] at hy
    split at hy
    · next hyx =>
      rw [hyx, ← Option.some.inj hy]
      exact h.links_eq hx
    · exact h.mem y n hy
  kept y n hy := by
    simp only [AbsFs.load, setAt_apply]
    split
    · next hyx =>
      subst hyx
      rw [AbsFs.links, h.kept y n hy, Option.getD_some]
    · exact h.kept y n hy

/-- The last reference to an inode without links that an operation holds is to one that was doomed,
and that was not in memory. -/
theorem doomed (h : During a0 a held) (h0 : a0.Normal) (halloc : a.Alloc x) (hx : x ∈ held)
    (hfree : a.ref x = 1 ∧ a.mem x = some 0) : a0.Doomed x ∧ a0.mem x = none := by
  have hcount : 0 < held.count x := List.count_pos_iff.mpr hx
  have href := h.ref x
  have href0 : a0.ref x = 0 := by omega
  have hmem0 : a0.mem x = none := by
    cases hm : a0.mem x with
    | none => rfl
    | some n => exact absurd (h0.ref x n hm) (by omega)
  refine ⟨⟨href0, h.alloc_of halloc, ?_, h.reached x hx⟩, hmem0⟩
  have hl := h.mem x 0 hfree.2
  rw [AbsFs.links, hmem0, Option.getD_none] at hl
  exact hl.symm

/-- The end of a reference frees nothing but inodes that were doomed. -/
theorem put (h : During a0 a held) (h0 : a0.Normal) (hn : a.Normal) (hx : x ∈ held) :
    During a0 (a.put x) (held.erase x) := by
  have hcount : 0 < held.count x := List.count_pos_iff.mpr hx
  have href := h.ref x
  unfold AbsFs.put
  split
  · next hfree =>
    obtain ⟨hdoomed, hmem0⟩ := h.doomed h0 (hn.alloc x 0 hfree.2) hx hfree
    exact {
      files := h.files
      outstanding := h.outstanding
      ref := fun y => by
        simp only [AbsFs.free, setAt_apply]
        split
        · next hyx =>
          subst hyx
          rw [List.count_erase_self]
          omega
        · next hyx => rw [List.count_erase_of_ne hyx, h.ref]
      reached := fun y hy => h.reached y (List.mem_of_mem_erase hy)
      node := fun y => by
        simp only [AbsFs.free, setAt_apply]
        split
        · next hyx => exact .inr ⟨hyx ▸ hdoomed, rfl⟩
        · exact h.node y
      mem := fun y n hy => by
        simp only [AbsFs.free, setAt_apply] at hy
        split at hy
        · cases hy
        · exact h.mem y n hy
      kept := fun y n hy => by
        simp only [AbsFs.free, setAt_apply]
        split
        · next hyx => rw [hyx, hmem0] at hy; cases hy
        · exact h.kept y n hy }
  · next hkeep =>
    exact {
      files := h.files
      outstanding := h.outstanding
      ref := fun y => by
        simp only [AbsFs.drop, setAt_apply]
        split
        · next hyx =>
          subst hyx
          rw [List.count_erase_self]
          omega
        · next hyx => rw [List.count_erase_of_ne hyx, h.ref]
      reached := fun y hy => h.reached y (List.mem_of_mem_erase hy)
      node := h.node
      mem := fun y n hy => by
        simp only [AbsFs.drop, setAt_apply] at hy
        split at hy
        · next hyx =>
          subst hyx
          split at hy
          · cases hy
          · exact h.mem y n hy
        · exact h.mem y n hy
      kept := fun y n hy => by
        simp only [AbsFs.drop, setAt_apply]
        split
        · next hyx =>
          subst hyx
          have := h0.ref y n hy
          rw [if_neg (by omega)]
          exact h.kept y n hy
        · exact h.kept y n hy }

end During

end Xv6fs
