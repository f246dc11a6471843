import Xv6fs.Fs.Tree
import Xv6fs.Fs.Close

/-! The tree of directories when something is added to it: `create`, and the opening of files. -/

namespace Xv6fs

variable {sb : SuperBlock} {s s' : Fs} {a a' a0 a1 a2 : AbsFs} {n x y d i dp ip inum : Nat}
  {path name nm : List UInt8} {type : UInt16} {e : DirEntry}

/-- What is found in one state is found in the other. -/
theorem AbsFs.Reached.mono (hx : a.Reached x)
    (hdir : ∀ d, (a.node d).type = FileType.T_DIR → (a'.node d).type = FileType.T_DIR)
    (hlook : ∀ d nm y, (a.node d).type = FileType.T_DIR →
      lookupEntry (a.node d).dir nm = some y → lookupEntry (a'.node d).dir nm = some y) :
    a'.Reached x := by
  induction hx with
  | root => exact .root
  | @entry d i nm _ htype hfind ih =>
    refine ih.lookup (hdir d htype) (hlook d nm _ htype ?_)
    rw [lookupEntry, hfind]
    rfl

/-- What the entry says that `dirlink` writes. -/
theorem FitsEntry.entry (h : FitsEntry inum name) :
    (DirEntry.mk (UInt16.ofNat inum) (strncpy name)).Live ∧
      (UInt16.ofNat inum).toNat = inum ∧
      (DirEntry.mk (UInt16.ofNat inum) (strncpy name)).str = name := by
  have hnum : (UInt16.ofNat inum).toNat = inum := by
    rw [UInt16.toNat_ofNat']
    exact Nat.mod_eq_of_lt h.lt
  refine ⟨DirEntry.live_of_toNat ?_, hnum, str_strncpy _ h.len h.nul⟩
  rw [hnum]
  exact Nat.ne_of_gt h.pos

/-- Whether the entry that `dirlink` writes counts. -/
theorem FitsEntry.counts (h : FitsEntry inum name) (p : List UInt8 → Bool) (x : Nat) :
    decide ((DirEntry.mk (UInt16.ofNat inum) (strncpy name)).Live ∧
      (UInt16.ofNat inum).toNat = x ∧
      p (DirEntry.mk (UInt16.ofNat inum) (strncpy name)).str = true) =
      decide (p name = true ∧ x = inum) := by
  obtain ⟨hlive, hnum, hstr⟩ := h.entry
  rw [hnum, hstr]
  exact decide_eq_decide.mpr ⟨fun hp => ⟨hp.2.2, hp.2.1.symm⟩, fun hp => ⟨hlive, hp.2.symm, hp.1⟩⟩

/-- The names `.` and `..` fit an entry. -/
theorem fits_dots (hpos : 0 < inum) (hlt : inum < 65536) :
    FitsEntry inum [46] ∧ FitsEntry inum [46, 46] :=
  ⟨⟨hpos, hlt, by decide, by decide⟩, ⟨hpos, hlt, by decide, by decide⟩⟩

/-- A name that a directory does not have is neither `.` nor `..`. -/
theorem AbsFs.Ordered.fresh_proper (h : a.Ordered n) (htype : (a.node d).type = FileType.T_DIR)
    (hnone : lookupEntry (a.node d).dir name = none) : name ≠ [46] ∧ name ≠ [46, 46] := by
  rw [lookupEntry_eq_none, findEntry_eq_none] at hnone
  obtain ⟨e, he, hlive, -, hstr⟩ := h.dot_entry htype
  obtain ⟨e', he', hlive', hstr', -⟩ := h.dotdot d htype
  exact ⟨fun h1 => hnone e (List.mem_of_getElem? he) ⟨hlive, hstr.trans h1.symm⟩,
    fun h1 => hnone e' (List.mem_of_getElem? he') ⟨hlive', hstr'.trans h1.symm⟩⟩

/-- A new object in a directory of the tree, under a name that was not there. -/
structure Grows (n : Nat) (a : AbsFs) (type : UInt16) (dp ip : Nat) (name : List UInt8) (a' : AbsFs) :
    Prop where
  tree : a.Tree n
  small : n ≤ 65536
  added : Added a type dp ip name a'
  fits : FitsEntry ip name
  lt : ip < n
  parent : a.Reached dp
  dir : (a.node dp).type = FileType.T_DIR
  fresh : lookupEntry (a.node dp).dir name = none
  type : type = FileType.T_FILE ∨ type = FileType.T_DIR

namespace Grows

variable (h : Grows n a type dp ip name a')
include h

theorem dp_alloc : a.Alloc dp := by
  rw [AbsFs.Alloc, h.dir]
  decide

theorem ne : dp ≠ ip := fun heq => h.added.free (heq ▸ h.dp_alloc)

theorem not_dir : (a.node ip).type ≠ FileType.T_DIR := fun hd =>
  h.added.free (by rw [AbsFs.Alloc, hd]; decide)

theorem proper : name ≠ [46] ∧ name ≠ [46, 46] := h.tree.ordered.fresh_proper h.dir h.fresh

theorem alloc_mono (hx : a.Alloc x) : a'.Alloc x := by
  rw [AbsFs.Alloc, h.added.type_eq hx]
  exact hx

theorem alloc_new : a'.Alloc ip := by
  rw [AbsFs.Alloc, h.added.kind]
  rcases h.type with rfl | rfl <;> decide

theorem dir_mono (hx : (a.node x).type = FileType.T_DIR) : (a'.node x).type = FileType.T_DIR := by
  rw [h.added.type_eq (by rw [AbsFs.Alloc, hx]; decide), hx]

/-- A directory is the new one or was there. -/
theorem dir_cases (hx : (a'.node x).type = FileType.T_DIR) :
    x = ip ∧ type = FileType.T_DIR ∨ x ≠ ip ∧ (a.node x).type = FileType.T_DIR := by
  by_cases hxi : x = ip
  · exact .inl ⟨hxi, by rw [← h.added.kind, ← hxi, hx]⟩
  · by_cases hxd : x = dp
    · exact .inr ⟨hxi, hxd ▸ h.dir⟩
    · rw [h.added.others x hxi hxd] at hx
      exact .inr ⟨hxi, hx⟩

/-- A directory that was there has its entries and the new one, if it is the parent. -/
theorem dir_eq (hxi : x ≠ ip) :
    (a'.node x).dir = if x = dp then linkEntry (a.node x).dir name ip else (a.node x).dir := by
  split
  · next hxd => rw [hxd, h.added.parent_dir]
  · next hxd => rw [h.added.others x hxi hxd]

theorem dp_fits : 0 < dp ∧ dp < 65536 :=
  ⟨Nat.pos_of_ne_zero fun h0 => h.tree.ordered.unused (h0 ▸ h.dp_alloc),
    Nat.lt_of_lt_of_le (h.tree.lt dp h.dp_alloc) h.small⟩

/-- The entries of a new directory. -/
theorem new_entries : (DirEntry.mk (UInt16.ofNat ip) (strncpy [46])).Live ∧
    (UInt16.ofNat ip).toNat = ip ∧ (DirEntry.mk (UInt16.ofNat ip) (strncpy [46])).str = [46] ∧
    (DirEntry.mk (UInt16.ofNat dp) (strncpy [46, 46])).Live ∧ (UInt16.ofNat dp).toNat = dp ∧
    (DirEntry.mk (UInt16.ofNat dp) (strncpy [46, 46])).str = [46, 46] := by
  obtain ⟨h1, h2, h3⟩ := (fits_dots h.fits.pos h.fits.lt).1.entry
  obtain ⟨h4, h5, h6⟩ := (fits_dots h.dp_fits.1 h.dp_fits.2).2.entry
  exact ⟨h1, h2, h3, h4, h5, h6⟩

/-- An entry that was there stays where it was. -/
theorem entry_mono (hx : (a.node x).type = FileType.T_DIR) (he : (a.node x).dir[i]? = some e)
    (hlive : e.Live) : (a'.node x).dir[i]? = some e := by
  rw [h.dir_eq fun heq => h.not_dir (heq ▸ hx)]
  split
  · exact getElem?_linkEntry he hlive
  · exact he

theorem mem_mono (hx : (a.node x).type = FileType.T_DIR) (he : e ∈ (a.node x).dir)
    (hlive : e.Live) : e ∈ (a'.node x).dir := by
  obtain ⟨i, hi, rfl⟩ := List.getElem_of_mem he
  exact List.mem_of_getElem? (h.entry_mono hx (List.getElem?_eq_getElem hi) hlive)

theorem reached_mono (hx : a.Reached x) : a'.Reached x := by
  refine hx.mono (fun d => h.dir_mono) fun d nm y hd hy => ?_
  rw [h.added.lookup h.fits h.fresh (by rw [AbsFs.Alloc, hd]; decide), if_neg]
  · exact hy
  · rintro ⟨rfl, rfl⟩
    rw [h.fresh] at hy
    cases hy

theorem reached_new : a'.Reached ip := by
  have hlook : lookupEntry (a'.node dp).dir name = some ip := by
    rw [h.added.lookup h.fits h.fresh h.dp_alloc, if_pos ⟨rfl, rfl⟩]
  exact (h.reached_mono h.parent).lookup (h.dir_mono h.dir) hlook

theorem names_mono (hn : a.Names d x) : a'.Names d x := by
  obtain ⟨hd, e, he, hproper, hx⟩ := hn
  exact ⟨h.dir_mono hd, e, h.mem_mono hd he hproper.1, hproper, hx⟩

theorem names_new : a'.Names dp ip := by
  obtain ⟨hlive, hnum, hstr⟩ := h.fits.entry
  refine ⟨h.dir_mono h.dir, _, ?_, ⟨hlive, ?_⟩, hnum⟩
  · rw [h.added.parent_dir]
    by_contra hno
    have hcount := countP_linkEntry (a.node dp).dir name ip
      (p := fun e => e.Live ∧ e.str = name) fun e he => by
        simp only [decide_eq_true_eq] at he
        exact he.1
    rw [if_pos (by simp [hlive, hstr])] at hcount
    have hpos : 0 < (linkEntry (a.node dp).dir name ip).countP fun e => e.Live ∧ e.str = name := by
      omega
    obtain ⟨e, he, hp⟩ := List.countP_pos_iff.mp hpos
    simp only [decide_eq_true_eq] at hp
    rcases mem_linkEntry he with rfl | hold
    · exact hno he
    · have := h.fresh
      rw [lookupEntry_eq_none, findEntry_eq_none] at this
      exact this e hold hp
  · rw [hstr]
    exact h.proper

/-! ### What is counted -/

theorem tally_parent (p : DirEntry → Bool) (hp : ∀ e, p e = true → e.Live) :
    AbsFs.tally (a'.node dp) p = AbsFs.tally (a.node dp) p +
      if p ⟨UInt16.ofNat ip, strncpy name⟩ then 1 else 0 := by
  rw [AbsFs.tally, AbsFs.tally, if_pos (h.dir_mono h.dir), if_pos h.dir, h.added.parent_dir,
    countP_linkEntry _ _ _ hp]

theorem tally_new (p : DirEntry → Bool) :
    AbsFs.tally (a'.node ip) p = if type = FileType.T_DIR then
      (if p ⟨UInt16.ofNat ip, strncpy [46]⟩ then 1 else 0) +
        if p ⟨UInt16.ofNat dp, strncpy [46, 46]⟩ then 1 else 0
    else 0 := by
  rw [AbsFs.tally, h.added.kind]
  split
  · next htype =>
    rw [h.added.dir htype, List.countP_cons, List.countP_singleton]
    omega
  · rfl

/-- How the entries are counted that name an inode. -/
theorem naming_eq (p : List UInt8 → Bool) (hdot : p [46] = false) (x : Nat) :
    a'.naming n p x = a.naming n p x + (if p name = true ∧ x = ip then 1 else 0) +
      if type = FileType.T_DIR ∧ p [46, 46] = true ∧ x = dp then 1 else 0 := by
  have hlive : ∀ e : DirEntry, decide (e.Live ∧ e.inum.toNat = x ∧ p e.str = true) = true → e.Live :=
    fun e he => (of_decide_eq_true he).1
  have hchange := AbsFs.naming_change a a' (n := n) (t := {dp, ip})
    (by
      intro d hd
      rcases Finset.mem_insert.mp hd with rfl | hd
      · exact Finset.mem_range.mpr (h.tree.lt _ h.dp_alloc)
      · rw [Finset.mem_singleton.mp hd]
        exact Finset.mem_range.mpr h.lt)
    (fun d hd => by
      rw [h.added.others d (fun heq => hd (by simp [heq])) fun heq => hd (by simp [heq])]
      exact ⟨rfl, rfl⟩) p x
  rw [Finset.sum_pair h.ne, Finset.sum_pair h.ne, h.tally_parent _ hlive, h.tally_new] at hchange
  have hzero : AbsFs.tally (a.node ip) (fun e => e.Live ∧ e.inum.toNat = x ∧ p e.str) = 0 :=
    if_neg h.not_dir
  obtain ⟨hdots, hdotdots⟩ := And.intro (fits_dots h.fits.pos h.fits.lt).1
    (fits_dots h.dp_fits.1 h.dp_fits.2).2
  rw [hzero, h.fits.counts, hdots.counts, hdotdots.counts, hdot] at hchange
  simp only [decide_eq_true_eq, Bool.false_eq_true, false_and, if_false] at hchange
  by_cases htype : type = FileType.T_DIR
  · simp only [htype, true_and, if_true] at hchange ⊢
    omega
  · simp only [htype, false_and, if_false] at hchange ⊢
    omega

/-- Nothing names the new object beforehand. -/
theorem naming_zero (p : List UInt8 → Bool) (hdot : p [46] = false) : a.naming n p ip = 0 := by
  have hlinks := h.tree.ordered.links ip
  rw [h.tree.ordered.nlink_zero h.added.free] at hlinks
  refine Nat.le_zero.mp (Nat.le_trans (Finset.sum_le_sum fun d _ => ?_) (Nat.le_of_eq hlinks.symm))
  split
  · refine List.countP_mono_left fun e _ he => ?_
    simp only [decide_eq_true_eq] at he ⊢
    exact ⟨he.1, he.2.1, fun heq => by rw [heq, hdot] at he; exact absurd he.2.2 (by decide)⟩
  · exact Nat.le_refl 0

theorem unique (hx : (a'.node x).type = FileType.T_DIR) (nm : List UInt8) :
    (a'.node x).dir.countP (fun e => e.Live ∧ e.str = nm) ≤ 1 := by
  rcases h.dir_cases hx with ⟨rfl, htype⟩ | ⟨hxi, hd⟩
  · obtain ⟨-, -, hs1, -, -, hs2⟩ := h.new_entries
    rw [h.added.dir htype, List.countP_cons, List.countP_singleton, hs1, hs2]
    by_cases hnm : [46] = nm
    · subst hnm
      simp
      split <;> omega
    · simp [hnm]
      split <;> omega
  · have hold := h.tree.ordered.unique x hd nm
    rw [h.dir_eq hxi]
    split
    · next hxd =>
      rw [countP_linkEntry _ _ _ fun e he => (of_decide_eq_true he).1, h.fits.entry.2.2]
      split
      · next hp =>
        obtain rfl := (of_decide_eq_true hp).2
        have hfresh := h.fresh
        rw [← hxd, lookupEntry_eq_none, findEntry_eq_none] at hfresh
        rw [List.countP_eq_zero.mpr fun e he hp => hfresh e he (of_decide_eq_true hp)]
      · exact hold
    · exact hold

theorem ordered (hclean : a'.Clean) : a'.Ordered n := by
  have h0 := h.tree.ordered
  constructor
  · exact h.dir_mono h0.root
  · intro h1
    refine h0.unused ?_
    rwa [AbsFs.Alloc, ← h.added.others 0 (Nat.ne_of_lt h.fits.pos) (Nat.ne_of_lt h.dp_fits.1)]
  · exact fun x hx => h.unique hx
  · intro x hx
    rcases h.dir_cases hx with ⟨rfl, htype⟩ | ⟨hxi, hd⟩
    · rw [h.added.dir htype]
      exact ⟨_, rfl, h.fits.entry.2.1, h.new_entries.2.2.1⟩
    · obtain ⟨e, he, hlive, hself, hstr⟩ := h0.dot_entry hd
      exact ⟨e, h.entry_mono hd he hlive, hself, hstr⟩
  · intro x hx
    rcases h.dir_cases hx with ⟨rfl, htype⟩ | ⟨hxi, hd⟩
    · rw [h.added.dir htype]
      obtain ⟨-, -, -, hlive, -, hstr⟩ := h.new_entries
      refine ⟨_, rfl, hlive, hstr, ?_⟩
      rintro rfl
      exact absurd h0.root h.not_dir
    · obtain ⟨e, he, hlive, hstr, hroot⟩ := h0.dotdot x hd
      exact ⟨e, h.entry_mono hd he hlive, hlive, hstr, hroot⟩
  · intro x hx e he hlive
    have hnew : a'.Alloc dp := h.alloc_mono h.dp_alloc
    rcases h.dir_cases hx with ⟨rfl, htype⟩ | ⟨hxi, hd⟩
    · rw [h.added.dir htype] at he
      obtain ⟨-, hn1, -, -, hn2, -⟩ := h.new_entries
      rcases List.mem_cons.mp he with rfl | he
      · rw [hn1]
        exact h.alloc_new
      · rw [List.mem_singleton.mp he, hn2]
        exact hnew
    · rw [h.dir_eq hxi] at he
      split at he
      · rcases mem_linkEntry he with rfl | hold
        · rw [h.fits.entry.2.1]
          exact h.alloc_new
        · exact h.alloc_mono (h0.named x hd e hold hlive)
      · exact h.alloc_mono (h0.named x hd e he hlive)
  · intro x
    rw [h.naming_eq _ (by decide)]
    by_cases hxi : x = ip
    · subst hxi
      rw [h.added.nlink, h.naming_zero _ (by decide), if_pos ⟨by simpa using h.proper.1, rfl⟩,
        if_neg fun hp => h.ne hp.2.2.symm]
      rfl
    · rw [if_neg fun hp => hxi hp.2]
      by_cases hxd : x = dp
      · subst hxd
        rw [h.added.parent_links, h0.links]
        by_cases htype : type = FileType.T_DIR <;> simp [htype]
      · rw [h.added.others x hxi hxd, h0.links, if_neg fun hp => hxd hp.2.2]
        omega
  · intro x hx
    rw [h.naming_eq _ (by decide)]
    have hno : ¬(type = FileType.T_DIR ∧
        decide (([46, 46] : List UInt8) ≠ [46] ∧ ([46, 46] : List UInt8) ≠ [46, 46]) = true ∧
          x = dp) := fun hp => absurd hp.2.1 (by decide)
    rw [if_neg hno]
    rcases h.dir_cases hx with ⟨rfl, htype⟩ | ⟨hxi, hd⟩
    · have hne : x ≠ ROOTINO := fun heq => h.not_dir (heq ▸ h0.root)
      rw [h.naming_zero _ (by decide), if_neg hne]
      split <;> omega
    · rw [if_neg fun hp => hxi hp.2]
      exact h0.home x hd
  · exact fun x hx => ⟨hclean.alloc x hx, hclean.synced x⟩

/-- The tree has grown. -/
theorem tree_new (hclean : a'.Clean)
    (hmem : ∀ x, a.Alloc x → x ≠ dp → a.mem x = some 0 → a'.mem x = some 0) : a'.Tree n where
  ordered := h.ordered hclean
  clean := hclean
  lt x hx := by
    by_cases hxi : x = ip
    · exact hxi ▸ h.lt
    · by_cases hxd : x = dp
      · exact hxd ▸ h.tree.lt dp h.dp_alloc
      · refine h.tree.lt x ?_
        rwa [AbsFs.Alloc, ← h.added.others x hxi hxd]
  up x hx hroot := by
    rcases h.dir_cases hx with ⟨rfl, htype⟩ | ⟨hxi, hd⟩
    · have hup : a'.up x = dp := by
        rw [AbsFs.up, h.added.dir htype]
        exact h.new_entries.2.2.2.2.1
      rw [hup]
      exact h.names_new
    · obtain ⟨e, he, hlive, -⟩ := h.tree.ordered.dotdot x hd
      have hup : a'.up x = a.up x := by
        rw [AbsFs.up, AbsFs.up, entryInum, entryInum, List.getD_eq_getElem?_getD,
          List.getD_eq_getElem?_getD, h.entry_mono hd he hlive, he]
      rw [hup]
      exact h.names_mono (h.tree.up x hd hroot)
  kept x hx := by
    by_cases hxi : x = ip
    · exact .inl (hxi ▸ h.reached_new)
    · have hold : a.Alloc x := by
        by_cases hxd : x = dp
        · exact hxd ▸ h.dp_alloc
        · rwa [AbsFs.Alloc, ← h.added.others x hxi hxd]
      rcases h.tree.kept x hold with hr | ⟨htype, hm⟩
      · exact .inl (h.reached_mono hr)
      · refine .inr ⟨by rwa [h.added.type_eq hold], hmem x hold ?_ hm⟩
        rintro rfl
        exact htype h.dir

end Grows

/-! ### `create` -/

namespace AbsFs

theorem put_ref_of_ne (h : y ≠ x) : (a.put x).ref y = a.ref y := by
  unfold put
  split <;> exact setAt_of_ne h

theorem addParent_ref (a : AbsFs) (type : UInt16) (x : Nat) : (a.addParent type x).ref = a.ref := by
  unfold addParent
  split <;> rfl

theorem Clean.addParent (h : a.Clean) : (a.addParent type x).Clean := by
  unfold AbsFs.addParent
  split
  · exact h.setLinks _
  · exact h

end AbsFs

namespace Created

variable {r : Option Nat}

/-- `create` keeps the tree, and holds a reference to what it returns. -/
theorem tree (h0 : a.Tree sb.ninodes) (hn : a.Normal) (hsmall : sb.ninodes ≤ 65536)
    (hfree : ∀ x, ¬a.Alloc x → a.node x = .free) (hnul : 0 ∉ path)
    (htype : type = FileType.T_FILE ∨ type = FileType.T_DIR)
    (h : Created sb a path type r a') :
    a'.Tree sb.ninodes ∧ ∀ ip, r = some ip → 0 < a'.ref ip := by
  have hvalid : type ≠ FileType.Invalid := by
    rcases htype with rfl | rfl <;> decide
  have hc := h
  cases h with
  | refused hd _ => exact ⟨h0.during hd, nofun⟩
  | found _ _ hd _ _ _ =>
    refine ⟨h0.during hd, fun ip hip => ?_⟩
    cases hip
    rw [hd.ref, List.count_singleton_self]
    exact Nat.succ_pos _
  | @made a2 a1 dp ip name hparent hnone hd hopen hpos hlt hnew hentered =>
    have hlook := lookupEntry_eq_none.mpr hnone
    have hresolve := (resolve_of_parent hparent).trans hlook
    obtain ⟨dp', name', hparent', -, hadded⟩ :=
      hc.added h0.ordered hn h0.lt hlt hsmall hresolve
    cases hparent.symm.trans hparent'
    obtain ⟨hdp, hdir, hlen, hsub⟩ := resolve_loop_parent .root hparent
    have hgrows : Grows sb.ninodes a type dp ip name ((a1.addParent type dp).put dp) :=
      ⟨h0, hsmall, hadded, ⟨hpos, Nat.lt_of_lt_of_le hlt hsmall, hlen,
        fun hmem => hnul (hsub.subset hmem)⟩, hlt, hdp, hdir, hlook, htype⟩
    have hclean : ((a1.addParent type dp).put dp).Clean :=
      (((h0.during hd).clean.alloc_link hvalid 1).entered hentered).addParent.put
    refine ⟨hgrows.tree_new hclean fun x hx hxd hm => ?_, fun x hx => ?_⟩
    · have hxi : x ≠ ip := fun heq => hadded.free (heq ▸ hx)
      rw [AbsFs.put_mem_of_ne hxd, AbsFs.addParent_mem_of_ne hxd, hentered.frame.2.1]
      exact (setAt_of_ne hxi).trans (hd.kept x 0 hm)
    · cases hx
      rw [AbsFs.put_ref_of_ne hgrows.ne.symm, AbsFs.addParent_ref, hentered.frame.1]
      simp only [AbsFs.setLinks, AbsFs.setMem, AbsFs.modify, AbsFs.alloc, AbsFs.get, setAt_self]
      exact Nat.succ_pos _
  | @undone a2 a1 dp ip name hparent hnone hd hopen hpos hlt hnew hentered =>
    have hnot := hc.not_added h0.ordered hn h0.lt hfree
    have hclean := (((((h0.during hd).clean.alloc_link hvalid 1).entered hentered).setLinks
      (x := ip) 0).put (x := ip)).put (x := dp)
    have hsame : ∀ x, (a.node x).Alike ((((a1.setLinks ip 0).put ip).put dp).node x) := by
      intro x
      obtain ⟨slots, hx⟩ := hnot.node x
      rw [hx]
      exact ⟨.rfl, rfl, fun _ => rfl⟩
    have halloc : ∀ x, (((a1.setLinks ip 0).put ip).put dp).Alloc x ↔ a.Alloc x := by
      intro x
      obtain ⟨slots, hx⟩ := hnot.node x
      rw [AbsFs.Alloc, AbsFs.Alloc, hx]
    refine ⟨h0.alike hsame hclean (fun x hx _ => (halloc x).mpr hx) (fun x => (halloc x).mp)
      fun x hx hm => ?_, nofun⟩
    have hdp : x ≠ dp := by
      rintro rfl
      exact h0.not_reached (h0.clean.synced _ 0 hm).symm (hd.reached _ List.mem_cons_self)
    have hip : x ≠ ip := by
      rintro rfl
      refine hnew ?_
      rw [AbsFs.Alloc, hd.nodes_eq h0.not_doomed]
      exact (halloc _).mp hx
    rw [AbsFs.put_mem_of_ne hdp, AbsFs.put_mem_of_ne hip]
    refine (setAt_of_ne hip).trans ?_
    show a1.mem x = some 0
    rw [hentered.frame.2.1]
    exact (setAt_of_ne hip).trans (hd.kept x 0 hm)

end Created

/-! ### Handles -/

namespace AbsFs.Tree

theorem truncated (h : a.Tree n) (x flags : Nat) : (a.truncated x flags).Tree n := by
  unfold AbsFs.truncated
  split
  · next htrunc =>
    refine h.refreshed (fun y => ?_) rfl fun y => ?_
    · simp only [AbsFs.setFile, AbsFs.setLinks, AbsFs.setMem, AbsFs.modify, setAt_apply, if_pos]
      split
      · next heq => exact ⟨by rw [heq], by rw [h.clean.links, heq], by rw [heq]⟩
      · exact ⟨rfl, rfl, rfl⟩
    · simp only [AbsFs.setFile, AbsFs.setLinks, AbsFs.setMem, AbsFs.modify, setAt_apply]
      split
      · next heq => exact .inr (by rw [heq])
      · exact .inl rfl
  · exact h

theorem entry {flags : Nat} {r : Option Nat} (h : a.Tree n) (href : 0 < a.ref ip)
    (he : Entry a ip flags r a') : a'.Tree n := by
  cases he with
  | full => exact h.put href
  | opened => exact (h.truncated ip flags).congr rfl rfl rfl

theorem opensOld {flags : Nat} {r : Option Nat} (h : a.Tree n)
    (ho : OpensOld a path flags r a') : a'.Tree n := by
  cases ho with
  | missing hd _ => exact h.during hd
  | found _ hd _ _ he =>
    refine (h.during hd).entry ?_ he
    rw [hd.ref, List.count_singleton_self]
    exact Nat.succ_pos _

/-- The end of a handle that refers to an inode. -/
theorem closed (h : a.Tree n) (href : (a.files i).type ≠ .FD_NONE → 0 < a.ref (a.files i).ip)
    (hc : Closed a i a') : a'.Tree n := by
  cases hc with
  | shared => exact h.congr rfl rfl rfl
  | last _ htype =>
    have hset : (a.setFileEntry i { a.files i with ref := 0, type := .FD_NONE }).Tree n :=
      h.congr rfl rfl rfl
    exact hset.put (href htype)

theorem resize (h : a.Tree n) (x size : Nat) : (a.resize x size).Tree n := by
  refine h.refreshed (fun y => ?_) rfl fun y => ?_
  · simp only [AbsFs.resize, AbsFs.setFile, AbsFs.setLinks, AbsFs.setMem, AbsFs.modify, setAt_apply,
      if_pos]
    split
    · next heq => exact ⟨by rw [heq], by rw [h.clean.links, heq], by rw [heq]⟩
    · exact ⟨rfl, rfl, rfl⟩
  · simp only [AbsFs.resize, AbsFs.setFile, AbsFs.setLinks, AbsFs.setMem, AbsFs.modify, setAt_apply]
    split
    · next heq => exact .inr (by rw [heq])
    · exact .inl rfl

end AbsFs.Tree

/-- The handle that an opening returns has a reference to its inode. -/
theorem OpensOld.ref_pos {flags : Nat} (h : OpensOld a path flags (some i) a') :
    0 < a'.ref (a'.files i).ip := by
  cases h with
  | @found a1 _ ip _ _ hd _ _ he =>
    have href : 0 < a1.ref ip := by
      rw [hd.ref, List.count_singleton_self]
      exact Nat.succ_pos _
    cases he with
    | opened _ _ hf =>
      simp only [AbsFs.setFileEntry, setAt_self, hf.ip]
      unfold AbsFs.truncated
      split <;> exact href

namespace AbsFs.Tree

theorem visits {flags : Nat} (h : a.Tree n) (hv : Visits a path flags a') : a'.Tree n := by
  have hbegin : a.begin_op.Tree n := h.congr rfl rfl rfl
  cases hv with
  | missing ho => exact (hbegin.opensOld ho).congr rfl rfl rfl
  | @visited a1 _ i ho hclose =>
    have h1 : a1.end_op.Tree n := (hbegin.opensOld ho).congr rfl rfl rfl
    exact h1.closed (fun _ => ho.ref_pos) hclose

theorem truncates {length : Nat} {r : Int} (h : a.Tree n) (ht : Truncates a path length r a') :
    a'.Tree n := by
  have hbegin : a.begin_op.Tree n := h.congr rfl rfl rfl
  cases ht with
  | missing ho => exact (hbegin.opensOld ho).congr rfl rfl rfl
  | @resized a1 _ i ho hclose =>
    have h1 : a1.end_op.Tree n := (hbegin.opensOld ho).congr rfl rfl rfl
    exact (h1.resize _ _).closed (fun _ => ho.ref_pos) hclose

theorem opensNew {flags : Nat} {r : Option Nat} (h : a.Tree sb.ninodes) (hn : a.Normal)
    (hsmall : sb.ninodes ≤ 65536) (hfree : ∀ x, ¬a.Alloc x → a.node x = .free) (hnul : 0 ∉ path)
    (ho : OpensNew sb a path flags r a') : a'.Tree sb.ninodes := by
  cases ho with
  | refused hc => exact (hc.tree h hn hsmall hfree hnul (.inl rfl)).1
  | created hc he =>
    obtain ⟨htree, href⟩ := hc.tree h hn hsmall hfree hnul (.inl rfl)
    exact htree.entry (href _ rfl) he

theorem opens {flags : Nat} {r : Option Nat} (h : a.Tree sb.ninodes) (hn : a.Normal)
    (hsmall : sb.ninodes ≤ 65536) (hfree : ∀ x, ¬a.Alloc x → a.node x = .free) (hnul : 0 ∉ path)
    (ho : Opens sb a path flags r a') : a'.Tree sb.ninodes := by
  unfold Opens at ho
  split at ho
  · exact h.opensNew hn hsmall hfree hnul ho
  · exact h.opensOld ho

end AbsFs.Tree

end Xv6fs
