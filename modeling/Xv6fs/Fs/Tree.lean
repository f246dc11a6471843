import Xv6fs.Fs.Creation

/-! The tree of directories: the names are in order, `..` leads back to the directory that holds the
name, every directory is reached from the root, and no inode is lost.  Operations that add no names
and take none away keep it, and so does `create`. -/

namespace Xv6fs

variable {sb : SuperBlock} {s s' : Fs} {a a' a0 a1 a2 : AbsFs} {n x y d ip dp i : Nat}
  {path name : List UInt8} {type : UInt16} {e : DirEntry} {held : List Nat}

/-- Two inodes have the same links, and they are directories with the same entries or no
directories. -/
structure Node.Alike (nd nd' : Node) : Prop where
  dir_iff : nd'.type = FileType.T_DIR ↔ nd.type = FileType.T_DIR
  nlink : nd'.nlink = nd.nlink
  dir : nd.type = FileType.T_DIR → nd'.dir = nd.dir

theorem Node.Alike.refl (nd : Node) : nd.Alike nd := ⟨.rfl, rfl, fun _ => rfl⟩

/-- An entry that names an inode, other than `.` and `..`. -/
def DirEntry.Proper (e : DirEntry) : Prop := e.Live ∧ e.str ≠ [46] ∧ e.str ≠ [46, 46]

instance (e : DirEntry) : Decidable e.Proper :=
  inferInstanceAs (Decidable (e.Live ∧ e.str ≠ [46] ∧ e.str ≠ [46, 46]))

namespace AbsFs

/-- The links of inode `x` on disk are those in memory. -/
def Synced (a : AbsFs) (x : Nat) : Prop := ∀ n, a.mem x = some n → n = (a.node x).nlink

/-- What is referenced is allocated, and what is in memory is as on disk. -/
structure Clean (a : AbsFs) : Prop where
  alloc : ∀ x, 0 < a.ref x → a.Alloc x
  synced : ∀ x, a.Synced x

/-- The directory that `..` in directory `x` names. -/
def up (a : AbsFs) (x : Nat) : Nat := entryInum (a.node x).dir 1

/-- An entry of directory `d` other than `.` and `..` names inode `x`. -/
def Names (a : AbsFs) (d x : Nat) : Prop :=
  (a.node d).type = FileType.T_DIR ∧ ∃ e ∈ (a.node d).dir, e.Proper ∧ e.inum.toNat = x

/-- The names are in order, the directories are a tree below the root with `..` as the way back, and
an inode that no name leads to is a file without links that is in use. -/
structure Tree (a : AbsFs) (n : Nat) : Prop where
  ordered : a.Ordered n
  clean : a.Clean
  lt : ∀ x, a.Alloc x → x < n
  up : ∀ x, (a.node x).type = FileType.T_DIR → x ≠ ROOTINO → a.Names (a.up x) x
  kept : ∀ x, a.Alloc x → a.Reached x ∨ (a.node x).type ≠ FileType.T_DIR ∧ a.mem x = some 0

/-! ### What is in memory -/

namespace Synced

theorem links (h : a.Synced x) : a.links x = (a.node x).nlink := by
  rw [AbsFs.links]
  cases hmem : a.mem x with
  | none => rfl
  | some n => exact h n hmem

theorem load (h : a.Synced y) : (a.load x).Synced y := by
  intro n hy
  simp only [AbsFs.load, setAt_apply] at hy
  split at hy
  · next heq => rw [← Option.some.inj hy, ← heq, h.links]; rfl
  · exact h n hy

theorem drop (h : a.Synced y) : (a.drop x).Synced y := by
  intro n hy
  simp only [AbsFs.drop, setAt_apply] at hy
  split at hy
  · next heq =>
    split at hy
    · cases hy
    · exact h n (heq ▸ hy)
  · exact h n hy

theorem free (h : a.Synced y) : (a.free x).Synced y := by
  intro n hy
  simp only [AbsFs.free, setAt_apply] at hy ⊢
  split at hy
  · cases hy
  · rw [if_neg ‹_›]
    exact h n hy

theorem put (h : a.Synced y) : (a.put x).Synced y := by
  unfold AbsFs.put
  split
  · exact h.free
  · exact h.drop

/-- The links of an inode change in memory and on disk. -/
theorem setLinks (h : a.Synced y) (m : UInt16) : (a.setLinks x m).Synced y := by
  intro k hy
  simp only [AbsFs.setLinks, AbsFs.setMem, AbsFs.modify, setAt_apply] at hy ⊢
  split at hy
  · rw [if_pos ‹_›]
    exact (Option.some.inj hy).symm
  · rw [if_neg ‹_›]
    exact h k hy

/-- An inode changes in what is not in memory. -/
theorem modify (h : a.Synced y) {f : Node → Node} (hlinks : (f (a.node x)).nlink = (a.node x).nlink) :
    (a.modify x f).Synced y := by
  intro k hy
  have := h k hy
  simp only [AbsFs.modify, setAt_apply]
  split
  · next heq => rw [hlinks, ← heq]; exact this
  · exact this

/-- A free inode becomes one with a link. -/
theorem alloc_link (h : a.Synced y) (m : UInt16) : ((a.alloc ip type).setLinks ip m).Synced y := by
  intro k hy
  simp only [AbsFs.setLinks, AbsFs.setMem, AbsFs.modify, AbsFs.alloc, AbsFs.get, setAt_self,
    setAt_apply] at hy ⊢
  split at hy
  · rw [if_pos ‹_›]
    exact (Option.some.inj hy).symm
  · rw [if_neg ‹_›, if_neg ‹_›]
    exact h k hy

theorem enters {inum : Nat} {b : Bool} (h : a.Synced y) (he : a.Enters sb x name inum b a') :
    a'.Synced y := by
  cases he with
  | added =>
    have hadd : (a.addEntry x name inum).Synced y := h.modify rfl
    exact hadd.modify rfl
  | no_room => exact h.modify rfl

theorem entered {b : Bool} (h : a.Synced y) (he : Entered sb a type dp ip name b a') : a'.Synced y := by
  cases he with
  | file _ h1 => exact h.enters h1
  | dir _ h1 h2 h3 => exact ((h.enters h1).enters h2).enters h3
  | not dir slots =>
    have hmod : (a.modify ip fun nd => { nd with dir, slots }).Synced y := h.modify rfl
    exact hmod.modify rfl

end Synced

namespace Clean

theorem links (h : a.Clean) (x : Nat) : a.links x = (a.node x).nlink := (h.synced x).links

theorem get (h : a.Clean) (hx : a.Alloc x) : (a.get x).Clean where
  alloc y hy := by
    simp only [AbsFs.get, setAt_apply] at hy
    split at hy
    · next heq => exact heq ▸ hx
    · exact h.alloc y hy
  synced := h.synced

theorem load (h : a.Clean) : (a.load x).Clean where
  alloc := h.alloc
  synced y := (h.synced y).load

theorem drop (h : a.Clean) : (a.drop x).Clean where
  alloc y hy := by
    simp only [AbsFs.drop, setAt_apply] at hy
    split at hy
    · next heq => exact h.alloc y (heq ▸ by omega)
    · exact h.alloc y hy
  synced y := (h.synced y).drop

theorem free (h : a.Clean) : (a.free x).Clean where
  alloc y hy := by
    simp only [AbsFs.free, AbsFs.Alloc, setAt_apply] at hy ⊢
    split at hy
    · exact absurd hy (Nat.lt_irrefl 0)
    · rw [if_neg ‹_›]
      exact h.alloc y hy
  synced y := (h.synced y).free

theorem put (h : a.Clean) : (a.put x).Clean := by
  unfold AbsFs.put
  split
  · exact h.free
  · exact h.drop

/-- The links of an inode change in memory and on disk. -/
theorem setLinks (h : a.Clean) (m : UInt16) : (a.setLinks x m).Clean where
  alloc y hy := by
    have := h.alloc y hy
    simp only [AbsFs.setLinks, AbsFs.setMem, AbsFs.modify, AbsFs.Alloc, setAt_apply] at this ⊢
    split
    · next heq => rw [← heq]; exact this
    · exact this
  synced y := (h.synced y).setLinks m

/-- An inode changes in what is not in memory. -/
theorem modify (h : a.Clean) {f : Node → Node} (htype : (f (a.node x)).type = (a.node x).type)
    (hlinks : (f (a.node x)).nlink = (a.node x).nlink) : (a.modify x f).Clean where
  alloc y hy := by
    have := h.alloc y hy
    simp only [AbsFs.modify, AbsFs.Alloc, setAt_apply] at this ⊢
    split
    · next heq => rw [htype, ← heq]; exact this
    · exact this
  synced y := (h.synced y).modify hlinks

/-- A free inode becomes one with a link. -/
theorem alloc_link (h : a.Clean) (htype : type ≠ FileType.Invalid) (m : UInt16) :
    ((a.alloc ip type).setLinks ip m).Clean where
  alloc y hy := by
    simp only [AbsFs.setLinks, AbsFs.setMem, AbsFs.modify, AbsFs.alloc, AbsFs.get, AbsFs.Alloc,
      setAt_self, setAt_apply] at hy ⊢
    split at hy
    · rw [if_pos ‹_›]
      exact htype
    · rw [if_neg ‹_›, if_neg ‹_›]
      exact h.alloc y hy
  synced y := (h.synced y).alloc_link m

theorem enters {inum : Nat} {b : Bool} (h : a.Clean) (he : a.Enters sb x name inum b a') :
    a'.Clean := by
  cases he with
  | added =>
    have hadd : (a.addEntry x name inum).Clean := h.modify rfl rfl
    exact hadd.modify rfl rfl
  | no_room => exact h.modify rfl rfl

theorem entered {b : Bool} (h : a.Clean) (he : Entered sb a type dp ip name b a') : a'.Clean := by
  cases he with
  | file _ h1 => exact h.enters h1
  | dir _ h1 h2 h3 => exact ((h.enters h1).enters h2).enters h3
  | not dir slots =>
    have hmod : (a.modify ip fun nd => { nd with dir, slots }).Clean := h.modify rfl rfl
    exact hmod.modify rfl rfl

end Clean

/-! ### States with the same names -/

section Alike

variable (hnode : ∀ x, (a.node x).Alike (a'.node x))
include hnode

theorem Reached.alike (hx : a.Reached x) : a'.Reached x := by
  induction hx with
  | root => exact .root
  | @entry d i name _ htype hfind ih =>
    have hdir := (hnode d).dir htype
    rw [← hdir]
    exact .entry ih ((hnode d).dir_iff.mpr htype) (hdir.symm ▸ hfind)

theorem Names.alike (h : a.Names d x) : a'.Names d x :=
  ⟨(hnode d).dir_iff.mpr h.1, by rw [(hnode d).dir h.1]; exact h.2⟩

theorem naming_alike (p : List UInt8 → Bool) (x : Nat) : a'.naming n p x = a.naming n p x := by
  refine Finset.sum_congr rfl fun d _ => ?_
  by_cases htype : (a.node d).type = FileType.T_DIR
  · rw [if_pos htype, if_pos ((hnode d).dir_iff.mpr htype), (hnode d).dir htype]
  · rw [if_neg htype, if_neg fun h => htype ((hnode d).dir_iff.mp h)]

theorem up_alike (htype : (a.node x).type = FileType.T_DIR) : a'.up x = a.up x := by
  rw [AbsFs.up, (hnode x).dir htype]
  rfl

end Alike

namespace Ordered

/-- The entry `.` of a directory. -/
theorem dot_entry (h : a.Ordered n) (htype : (a.node x).type = FileType.T_DIR) :
    ∃ e, (a.node x).dir[0]? = some e ∧ e.Live ∧ e.inum.toNat = x ∧ e.str = [46] := by
  obtain ⟨e, he, hself, hstr⟩ := h.dot x htype
  refine ⟨e, he, DirEntry.live_of_toNat fun h0 => h.unused ?_, hself, hstr⟩
  rw [← h0, hself, AbsFs.Alloc, htype]
  decide

/-- What an entry names is a directory or has links. -/
theorem nlink_of_entry (h : a.Ordered n) (hlt : ∀ x, a.Alloc x → x < n)
    (htype : (a.node d).type = FileType.T_DIR) (he : e ∈ (a.node d).dir) (hlive : e.Live) :
    (a.node e.inum.toNat).type = FileType.T_DIR ∨ (a.node e.inum.toNat).nlink ≠ 0 := by
  by_cases hstr : e.str = [46]
  · obtain ⟨e', he', hlive', hself, hstr'⟩ := h.dot_entry htype
    rw [h.entry_eq htype he (List.mem_of_getElem? he') hlive hlive' (hstr.trans hstr'.symm), hself]
    exact .inl htype
  · refine .inr fun h0 => ?_
    have hcount := h.links e.inum.toNat
    rw [h0] at hcount
    have hpos := AbsFs.naming_pos (n := n) (p := fun s => s ≠ [46])
      (hlt d (by rw [AbsFs.Alloc, htype]; decide)) htype he hlive rfl (by simpa using hstr)
    rw [← hcount] at hpos
    exact absurd hpos (by decide)

/-- An inode with links is named by an entry that is not `.`. -/
theorem named_of_nlink (h : a.Ordered n) (hx : (a.node x).nlink ≠ 0) :
    ∃ d e, (a.node d).type = FileType.T_DIR ∧ e ∈ (a.node d).dir ∧ e.Live ∧ e.str ≠ [46] ∧
      e.inum.toNat = x := by
  have hlinks := h.links x
  have hpos : a.naming n (fun s => s ≠ [46]) x ≠ 0 := fun h0 => hx (UInt16.toNat_inj.mp (by
    rw [hlinks, h0]
    rfl))
  obtain ⟨d, -, hne⟩ := Finset.exists_ne_zero_of_sum_ne_zero hpos
  split at hne
  · next htype =>
    obtain ⟨e, he, hp⟩ := List.countP_pos_iff.mp (Nat.pos_of_ne_zero hne)
    simp only [decide_eq_true_eq] at hp
    exact ⟨d, e, htype, he, hp.1, hp.2.2, hp.2.1⟩
  · exact absurd rfl hne

theorem alike (h : a.Ordered n) (hlt : ∀ x, a.Alloc x → x < n)
    (hnode : ∀ x, (a.node x).Alike (a'.node x)) (hclean : a'.Clean)
    (halloc : ∀ x, a.Alloc x → (a.node x).nlink ≠ 0 → a'.Alloc x) (hunused : ¬a'.Alloc 0) :
    a'.Ordered n := by
  have hdir : ∀ x, (a'.node x).type = FileType.T_DIR →
      (a.node x).type = FileType.T_DIR ∧ (a'.node x).dir = (a.node x).dir := fun x hx =>
    ⟨(hnode x).dir_iff.mp hx, (hnode x).dir ((hnode x).dir_iff.mp hx)⟩
  constructor
  · exact (hnode _).dir_iff.mpr h.root
  · exact hunused
  · intro x hx
    rw [(hdir x hx).2]
    exact h.unique x (hdir x hx).1
  · intro x hx
    rw [(hdir x hx).2]
    exact h.dot x (hdir x hx).1
  · intro x hx
    rw [(hdir x hx).2]
    exact h.dotdot x (hdir x hx).1
  · intro x hx e he hlive
    rw [(hdir x hx).2] at he
    rcases h.nlink_of_entry hlt (hdir x hx).1 he hlive with htype | hlinks
    · rw [AbsFs.Alloc, (hnode _).dir_iff.mpr htype]
      decide
    · exact halloc _ (h.named x (hdir x hx).1 e he hlive) hlinks
  · intro x
    rw [(hnode x).nlink, naming_alike hnode, h.links]
  · intro x hx
    rw [naming_alike hnode]
    exact h.home x (hdir x hx).1
  · exact fun x hx => ⟨hclean.alloc x hx, hclean.synced x⟩

end Ordered

namespace Tree

/-- The names are as before, and what is not reached is still in use. -/
theorem alike (h : a.Tree n) (hnode : ∀ x, (a.node x).Alike (a'.node x)) (hclean : a'.Clean)
    (halloc : ∀ x, a.Alloc x → (a.node x).nlink ≠ 0 → a'.Alloc x)
    (hback : ∀ x, a'.Alloc x → a.Alloc x)
    (hmem : ∀ x, a'.Alloc x → a.mem x = some 0 → a'.mem x = some 0) : a'.Tree n where
  ordered := h.ordered.alike h.lt hnode hclean halloc fun h0 => h.ordered.unused (hback 0 h0)
  clean := hclean
  lt x hx := h.lt x (hback x hx)
  up x hx hroot := by
    have htype := (hnode x).dir_iff.mp hx
    rw [up_alike hnode htype]
    exact (h.up x htype hroot).alike hnode
  kept x hx := by
    rcases h.kept x (hback x hx) with hr | ⟨htype, hm⟩
    · exact .inl (hr.alike hnode)
    · exact .inr ⟨fun hd => htype ((hnode x).dir_iff.mp hd), hmem x hx hm⟩

/-- Directories are reached, and have links. -/
theorem reached (h : a.Tree n) (hx : (a.node x).type = FileType.T_DIR) : a.Reached x :=
  (h.kept x (by rw [AbsFs.Alloc, hx]; decide)).resolve_right fun hno => hno.1 hx

theorem not_doomed (h : a.Tree n) (x : Nat) : ¬a.Doomed x := h.ordered.not_doomed h.lt x

/-- Nothing is reached that has no links. -/
theorem not_reached (h : a.Tree n) (hx : (a.node x).nlink = 0) : ¬a.Reached x :=
  fun hr => h.ordered.nlink_ne h.lt hr hx

/-- A file without links is freed. -/
theorem free (h : a.Tree n) (htype : (a.node x).type ≠ FileType.T_DIR)
    (hlinks : (a.node x).nlink = 0) : (a.free x).Tree n := by
  have hnode : ∀ y, y ≠ x → (a.free x).node y = a.node y := fun y hy => setAt_of_ne hy
  have hself : (a.free x).node x = .free := setAt_self
  refine h.alike (fun y => ?_) h.clean.free (fun y hy hl => ?_) (fun y hy => ?_) fun y hy hm => ?_
  · by_cases hyx : y = x
    · rw [hyx, hself]
      exact ⟨⟨fun hd => absurd hd (by decide), fun hd => absurd hd htype⟩, hlinks.symm,
        fun hd => absurd hd htype⟩
    · rw [hnode y hyx]
      exact .refl _
  · have hyx : y ≠ x := fun heq => hl (heq ▸ hlinks)
    rwa [AbsFs.Alloc, hnode y hyx]
  · have hyx : y ≠ x := fun heq => hy (by rw [heq, hself]; rfl)
    rwa [AbsFs.Alloc, ← hnode y hyx]
  · have hyx : y ≠ x := fun heq => hy (by rw [heq, hself]; rfl)
    exact (setAt_of_ne hyx).trans hm

/-- The end of a reference frees a file that has no links and no other references, and nothing
else. -/
theorem put (h : a.Tree n) (href : 0 < a.ref x) : (a.put x).Tree n := by
  unfold AbsFs.put
  split
  · next hfree =>
    have hlinks := (h.clean.synced x 0 hfree.2).symm
    refine h.free (fun hd => h.not_reached hlinks (h.reached hd)) hlinks
  · next hkeep =>
    refine h.alike (fun y => .refl _) h.clean.drop (fun _ hy _ => hy) (fun _ => id) fun y _ hm => ?_
    simp only [AbsFs.drop, setAt_apply]
    split
    · next heq =>
      subst heq
      rw [if_neg fun h1 => hkeep ⟨by omega, hm⟩]
      exact hm
    · exact hm

/-- Nothing but the cache and the references has changed. -/
theorem during (h : a.Tree n) (hd : During a a' held) : a'.Tree n := by
  have hnode := hd.nodes_eq h.not_doomed
  have hclean : a'.Clean := by
    constructor
    · intro x hx
      rw [AbsFs.Alloc, hnode]
      rw [hd.ref] at hx
      by_cases hheld : x ∈ held
      · exact reached_alloc h.ordered (hd.reached x hheld)
      · rw [List.count_eq_zero_of_not_mem hheld] at hx
        exact h.clean.alloc x hx
    · intro x m hm
      rw [hd.mem x m hm, hnode, h.clean.links]
  refine h.alike (fun x => by rw [hnode]; exact .refl _) hclean (fun x hx _ => ?_) (fun x hx => ?_)
    fun x _ hm => hd.kept x 0 hm
  · rwa [AbsFs.Alloc, hnode]
  · rwa [AbsFs.Alloc, ← hnode]

/-- The file table and the transactions do not matter. -/
theorem congr (h : a.Tree n) (hnode : a'.node = a.node) (href : a'.ref = a.ref)
    (hmem : a'.mem = a.mem) : a'.Tree n := by
  refine h.alike (fun x => by rw [hnode]; exact .refl _) ⟨fun x hx => ?_, fun x m hm => ?_⟩
    (fun x hx _ => ?_) (fun x hx => ?_) fun x _ hm => by rw [hmem]; exact hm
  · rw [AbsFs.Alloc, hnode]
    rw [href] at hx
    exact h.clean.alloc x hx
  · rw [hmem] at hm
    rw [hnode]
    exact h.clean.synced x m hm
  · rwa [AbsFs.Alloc, hnode]
  · rwa [AbsFs.Alloc, ← hnode]

/-- Inodes have been read or written back, with the links that they had. -/
theorem refreshed (h : a.Tree n) (hnode : ∀ x, (a'.node x).type = (a.node x).type ∧
      (a'.node x).nlink = (a.node x).nlink ∧ (a'.node x).dir = (a.node x).dir)
    (href : a'.ref = a.ref) (hmem : ∀ x, a'.mem x = a.mem x ∨ a'.mem x = some (a.links x)) :
    a'.Tree n := by
  have halloc : ∀ x, a'.Alloc x ↔ a.Alloc x := fun x => by
    rw [AbsFs.Alloc, AbsFs.Alloc, (hnode x).1]
  refine h.alike (fun x => ?_) ⟨fun x hx => ?_, fun x m hm => ?_⟩ (fun x hx _ => (halloc x).mpr hx)
    (fun x => (halloc x).mp) fun x _ hm => ?_
  · obtain ⟨htype, hlinks, hdir⟩ := hnode x
    exact ⟨by rw [htype], hlinks, fun _ => hdir⟩
  · rw [href] at hx
    exact (halloc x).mpr (h.clean.alloc x hx)
  · rw [(hnode x).2.1]
    rcases hmem x with heq | heq
    · exact h.clean.synced x m (heq ▸ hm)
    · rw [← Option.some.inj (heq.symm.trans hm), h.clean.links]
  · rcases hmem x with heq | heq
    · rw [heq, hm]
    · rw [heq, AbsFs.links, hm, Option.getD_some]

end Tree

/-! ### Entries that are counted -/

/-- The entries of an inode that `p` allows, if it is a directory. -/
def tally (nd : Node) (p : DirEntry → Bool) : Nat :=
  if nd.type = FileType.T_DIR then nd.dir.countP p else 0

/-- The entries that name inode `x` are counted anew for the inodes that have changed. -/
theorem naming_change (a a' : AbsFs) {t : Finset Nat} (ht : t ⊆ Finset.range n)
    (hsame : ∀ d, d ∉ t → (a'.node d).type = (a.node d).type ∧ (a'.node d).dir = (a.node d).dir)
    (p : List UInt8 → Bool) (x : Nat) :
    a'.naming n p x + ∑ d ∈ t, tally (a.node d) (fun e => e.Live ∧ e.inum.toNat = x ∧ p e.str) =
      a.naming n p x +
        ∑ d ∈ t, tally (a'.node d) (fun e => e.Live ∧ e.inum.toNat = x ∧ p e.str) := by
  have hrest : ∑ d ∈ Finset.range n \ t, tally (a'.node d) (fun e => e.Live ∧ e.inum.toNat = x ∧ p e.str) =
      ∑ d ∈ Finset.range n \ t, tally (a.node d) (fun e => e.Live ∧ e.inum.toNat = x ∧ p e.str) := by
    refine Finset.sum_congr rfl fun d hd => ?_
    obtain ⟨htype, hdir⟩ := hsame d (Finset.mem_sdiff.mp hd).2
    rw [tally, tally, htype, hdir]
  have hnew := Finset.sum_sdiff (f := fun d =>
    tally (a'.node d) (fun e => e.Live ∧ e.inum.toNat = x ∧ p e.str)) ht
  have hold := Finset.sum_sdiff (f := fun d =>
    tally (a.node d) (fun e => e.Live ∧ e.inum.toNat = x ∧ p e.str)) ht
  rw [AbsFs.naming, AbsFs.naming]
  simp only [tally] at *
  omega

end AbsFs

/-- An entry takes the place of one that names nothing, or comes last. -/
theorem countP_linkEntry (dir : List DirEntry) (name : List UInt8) (inum : Nat)
    {p : DirEntry → Bool} (hp : ∀ e, p e = true → e.Live) : (linkEntry dir name inum).countP p =
      dir.countP p + if p ⟨UInt16.ofNat inum, strncpy name⟩ then 1 else 0 := by
  induction dir with
  | nil =>
    rw [linkEntry_nil, List.countP_singleton, List.countP_nil, Nat.zero_add]
  | cons c dir ih =>
    rw [linkEntry_cons]
    split
    · rw [List.countP_cons, List.countP_cons, ih]
      omega
    · next hdead =>
      have hno : p c = false := by
        cases hpc : p c with
        | false => rfl
        | true => exact absurd (hp c hpc) hdead
      rw [List.countP_cons, List.countP_cons, hno]
      rfl

theorem mem_linkEntry {dir : List DirEntry} {inum : Nat} (h : e ∈ linkEntry dir name inum) :
    e = ⟨UInt16.ofNat inum, strncpy name⟩ ∨ e ∈ dir := by
  induction dir with
  | nil => exact .inl (List.mem_singleton.mp h)
  | cons c dir ih =>
    rw [linkEntry_cons] at h
    split at h
    · rcases List.mem_cons.mp h with rfl | h
      · exact .inr List.mem_cons_self
      · exact (ih h).imp id (List.mem_cons_of_mem c)
    · rcases List.mem_cons.mp h with rfl | h
      · exact .inl rfl
      · exact .inr (List.mem_cons_of_mem _ h)

/-- The entries that name an inode stay where they are. -/
theorem getElem?_linkEntry {dir : List DirEntry} {inum : Nat} (h : dir[i]? = some e)
    (hlive : e.Live) : (linkEntry dir name inum)[i]? = some e := by
  induction dir generalizing i with
  | nil => cases h
  | cons c dir ih =>
    rw [linkEntry_cons]
    split
    · cases i with
      | zero => exact h
      | succ i => exact ih h
    · cases i with
      | zero =>
        cases h
        exact absurd hlive ‹_›
      | succ i => exact h

end Xv6fs
