import Xv6fs.Fs.Removal
import Xv6fs.Fs.Rename

/-! The tree of directories when entries get other names or places: `op_rename`. -/

namespace Xv6fs

variable {sb : SuperBlock} {s s' : Fs} {a a' a0 a1 a2 : AbsFs} {n x y d i dp ip src dst : Nat}
  {path name old new nm source dest : List UInt8} {c e e' : DirEntry} {dir : List DirEntry}
  {p : List UInt8 → Bool}

/-- Whether an entry counts does not depend on its name, but that it is `.` or `..`. -/
def Plain (p : List UInt8 → Bool) : Prop := ∀ nm, nm ≠ [46] → nm ≠ [46, 46] → p nm = true

/-- Entries have got other names or places.  Every directory keeps `.` and `..` and what leads to
other directories. -/
structure Rearranged (n : Nat) (a a' : AbsFs) : Prop where
  type : ∀ x, (a'.node x).type = (a.node x).type
  nlink : ∀ x, (a'.node x).nlink = (a.node x).nlink
  unique : ∀ x, (a.node x).type = FileType.T_DIR → UniqueNames (a'.node x).dir
  dots : ∀ x, (a.node x).type = FileType.T_DIR → ∀ i < 2, (a'.node x).dir[i]? = (a.node x).dir[i]?
  named : ∀ x, (a.node x).type = FileType.T_DIR → ∀ e ∈ (a'.node x).dir, e.Live →
    a.Alloc e.inum.toNat
  naming : ∀ p, Plain p → ∀ x, a'.naming n p x = a.naming n p x
  kept : ∀ x, (a.node x).type = FileType.T_DIR → ∀ e ∈ (a.node x).dir, e.Live →
    (a.node e.inum.toNat).type = FileType.T_DIR →
      ∃ e' ∈ (a'.node x).dir, e'.Live ∧ e'.inum = e.inum ∧ (e.Proper → e'.Proper)

namespace Rearranged

variable (hr : Rearranged n a a')
include hr

theorem alloc_iff : a'.Alloc x ↔ a.Alloc x := by
  rw [AbsFs.Alloc, AbsFs.Alloc, hr.type]

/-- Directories are still reached. -/
theorem reached (hx : a.Reached x) (htype : (a.node x).type = FileType.T_DIR) : a'.Reached x := by
  induction hx with
  | root => exact .root
  | @entry d i nm _ hd hfind ih =>
    obtain ⟨hi, hlive, -⟩ := findEntry_some hfind
    rw [List.getD_eq_getElem _ _ hi] at hlive
    rw [entryInum, List.getD_eq_getElem _ _ hi] at htype ⊢
    obtain ⟨e', he', hlive', hinum, -⟩ := hr.kept d hd _ (List.getElem_mem hi) hlive htype
    rw [← hinum]
    exact (ih hd).of_entry ((hr.type d).trans hd) (hr.unique d hd) he' hlive'

theorem names (hx : a.Names d x) (htype : (a.node x).type = FileType.T_DIR) : a'.Names d x := by
  obtain ⟨hd, e, he, hproper, rfl⟩ := hx
  obtain ⟨e', he', -, hinum, hproper'⟩ := hr.kept d hd e he hproper.1 htype
  exact ⟨(hr.type d).trans hd, e', he', hproper' hproper, by rw [hinum]⟩

theorem up_eq (htype : (a.node x).type = FileType.T_DIR) : a'.up x = a.up x := by
  rw [AbsFs.up, AbsFs.up, entryInum, entryInum, List.getD_eq_getElem?_getD,
    List.getD_eq_getElem?_getD, hr.dots x htype 1 (by decide)]

theorem ordered (h : a.Ordered n) (hclean : a'.Clean) : a'.Ordered n := by
  have hdir : ∀ {x}, (a'.node x).type = FileType.T_DIR → (a.node x).type = FileType.T_DIR :=
    fun hx => (hr.type _).symm.trans hx
  constructor
  · exact (hr.type _).trans h.root
  · exact fun h0 => h.unused (hr.alloc_iff.mp h0)
  · exact fun x hx => hr.unique x (hdir hx)
  · intro x hx
    rw [hr.dots x (hdir hx) 0 (by decide)]
    exact h.dot x (hdir hx)
  · intro x hx
    rw [hr.dots x (hdir hx) 1 (by decide)]
    exact h.dotdot x (hdir hx)
  · exact fun x hx e he hlive => hr.alloc_iff.mpr (hr.named x (hdir hx) e he hlive)
  · intro x
    rw [hr.nlink, hr.naming _ fun nm hdot _ => by simpa using hdot]
    exact h.links x
  · intro x hx
    rw [hr.naming _ fun nm hdot hdotdot => by simpa using ⟨hdot, hdotdot⟩]
    exact h.home x (hdir hx)
  · exact fun x hx => ⟨hclean.alloc x hx, hclean.synced x⟩

end Rearranged

theorem AbsFs.Tree.rearranged (h : a.Tree n) (hr : Rearranged n a a') (hclean : a'.Clean)
    (hmem : ∀ x, a.mem x = some 0 → a'.mem x = some 0) : a'.Tree n := by
  have hordered := hr.ordered h.ordered hclean
  refine ⟨hordered, hclean, fun x hx => h.lt x (hr.alloc_iff.mp hx), fun x hx hroot => ?_,
    fun x hx => ?_⟩
  · have htype := (hr.type x).symm.trans hx
    rw [hr.up_eq htype]
    exact hr.names (h.up x htype hroot) htype
  · by_cases htype : (a.node x).type = FileType.T_DIR
    · exact .inl (hr.reached (h.reached htype) htype)
    · rcases h.kept x (hr.alloc_iff.mp hx) with hreach | ⟨-, hm⟩
      · have hlinks : (a'.node x).nlink ≠ 0 := by
          rw [hr.nlink]
          exact h.ordered.nlink_ne h.lt hreach
        obtain ⟨d, e, hd, he, hlive, -, rfl⟩ := hordered.named_of_nlink hlinks
        have hd0 := (hr.type d).symm.trans hd
        exact .inl ((hr.reached (h.reached hd0) hd0).of_entry hd (hr.unique d hd0) he hlive)
      · exact .inr ⟨fun hd => htype ((hr.type x).symm.trans hd), hmem x hm⟩

/-! ### An entry in another's place -/

/-- Entry `i` of directory `dp` names `ip`, and may be given the name `new`. -/
structure Retitles (n : Nat) (a : AbsFs) (dp i ip : Nat) (old new : List UInt8) : Prop where
  tree : a.Tree n
  dir : (a.node dp).type = FileType.T_DIR
  entry : ∃ e, (a.node dp).dir[i]? = some e ∧ e.Proper ∧ e.str = old ∧ e.inum.toNat = ip
  fits : FitsEntry ip new
  proper : new ≠ [46] ∧ new ≠ [46, 46]
  fresh : new ≠ old → lookupEntry (a.node dp).dir new = none

/-- Entry `i` of directory `dp` has the name `new`. -/
structure Retitled (a : AbsFs) (dp i ip : Nat) (new : List UInt8) (a' : AbsFs) : Prop where
  parent : a'.node dp = { a.node dp with
    dir := (a.node dp).dir.set i ⟨UInt16.ofNat ip, strncpy new⟩ }
  others : ∀ x, x ≠ dp → a'.node x = a.node x

namespace Retitles

variable (h : Retitles n a dp i ip old new) (hr : Retitled a dp i ip new a')
include h

/-- How often the entries of the directory count. -/
theorem tally_eq (q : DirEntry → Bool) :
    ((a.node dp).dir.set i ⟨UInt16.ofNat ip, strncpy new⟩).countP (fun e => e.Live ∧ q e) +
      (if ∃ e, (a.node dp).dir[i]? = some e ∧ q e then 1 else 0) =
    (a.node dp).dir.countP (fun e => e.Live ∧ q e) +
      if q ⟨UInt16.ofNat ip, strncpy new⟩ then 1 else 0 := by
  obtain ⟨e, he, hproper, -⟩ := h.entry
  have hcount := countP_set_entry (c := ⟨UInt16.ofNat ip, strncpy new⟩)
    (q := fun e => e.Live ∧ q e) he
  simp only [hproper.1, h.fits.entry.1, true_and, decide_eq_true_eq] at hcount
  simpa [he] using hcount

theorem unique_left : UniqueNames ((a.node dp).dir.set i ⟨UInt16.ofNat ip, strncpy new⟩) := by
  intro nm
  obtain ⟨e, he, hproper, hstr, -⟩ := h.entry
  have hcount := h.tally_eq fun e => e.str = nm
  have hone := h.tree.unique_names h.dir nm
  simp only [decide_eq_true_eq, h.fits.entry.2.2] at hcount
  have hold : (∃ e, (a.node dp).dir[i]? = some e ∧ e.str = nm) ↔ old = nm := by
    simp [he, hstr]
  simp only [hold] at hcount
  by_cases hnew : new = nm
  · by_cases hsame : new = old
    · rw [if_pos (hsame.symm.trans hnew), if_pos hnew] at hcount
      omega
    · have hnone := h.fresh hsame
      rw [lookupEntry_eq_none, findEntry_eq_none] at hnone
      have hzero : (a.node dp).dir.countP (fun e => e.Live ∧ e.str = nm) = 0 := by
        refine List.countP_eq_zero.mpr fun c hc hp => ?_
        obtain ⟨hlive, hc'⟩ := of_decide_eq_true hp
        exact hnone c hc ⟨hlive, hc'.trans hnew.symm⟩
      rw [hzero, if_pos hnew] at hcount
      omega
  · rw [if_neg hnew] at hcount
    omega

/-- An entry is still where it was, or it is the one that has another name. -/
theorem entry_left {j : Nat} (he : (a.node dp).dir[j]? = some e) :
    ((a.node dp).dir.set i ⟨UInt16.ofNat ip, strncpy new⟩)[j]? = some e ∨
      j = i ∧ e.Proper ∧ e.inum.toNat = ip := by
  by_cases hji : i = j
  · subst hji
    obtain ⟨e0, he0, hproper, -, hip⟩ := h.entry
    rw [he] at he0
    cases he0
    exact .inr ⟨rfl, hproper, hip⟩
  · exact .inl (by rw [List.getElem?_set_ne hji, he])

theorem mem_left : (⟨UInt16.ofNat ip, strncpy new⟩ : DirEntry) ∈
    (a.node dp).dir.set i ⟨UInt16.ofNat ip, strncpy new⟩ := by
  obtain ⟨e, he, -⟩ := h.entry
  exact List.mem_of_getElem? (i := i)
    (List.getElem?_set_self (List.getElem?_eq_some_iff.mp he).1)

include hr

theorem rearranged : Rearranged n a a' := by
  obtain ⟨e0, he0, hproper0, hstr0, hip0⟩ := h.entry
  obtain ⟨hlive', hnum', hstr'⟩ := h.fits.entry
  have hother : ∀ x, x ≠ dp → a'.node x = a.node x := hr.others
  constructor
  · intro x
    by_cases hx : x = dp
    · rw [hx, hr.parent]
    · rw [hother x hx]
  · intro x
    by_cases hx : x = dp
    · rw [hx, hr.parent]
    · rw [hother x hx]
  · intro x htype
    by_cases hx : x = dp
    · rw [hx, hr.parent]
      exact h.unique_left
    · rw [hother x hx]
      exact h.tree.unique_names htype
  · intro x htype j hj
    by_cases hx : x = dp
    · subst hx
      rw [hr.parent]
      refine List.getElem?_set_ne fun hij => ?_
      obtain ⟨c, hc, -, hstr⟩ := h.tree.ordered.dot x htype
      obtain ⟨c', hc', -, hstr'', -⟩ := h.tree.ordered.dotdot x htype
      obtain rfl | rfl : j = 0 ∨ j = 1 := by omega
      · rw [hij, hc] at he0
        cases he0
        exact hproper0.2.1 hstr
      · rw [hij, hc'] at he0
        cases he0
        exact hproper0.2.2 hstr''
    · rw [hother x hx]
  · intro x htype c hc hlive
    by_cases hx : x = dp
    · subst hx
      rw [hr.parent] at hc
      rcases List.mem_or_eq_of_mem_set hc with hc | rfl
      · exact h.tree.ordered.named x htype c hc hlive
      · rw [hnum', ← hip0]
        exact h.tree.ordered.named x htype e0 (List.mem_of_getElem? he0) hproper0.1
    · rw [hother x hx] at hc
      exact h.tree.ordered.named x htype c hc hlive
  · intro p hp x
    have hchange := AbsFs.naming_change a a' (n := n) (t := {dp})
      (Finset.singleton_subset_iff.mpr (Finset.mem_range.mpr
        (h.tree.lt dp (by rw [AbsFs.Alloc, h.dir]; decide))))
      (fun d hd => by
        rw [hother d fun heq => hd (Finset.mem_singleton.mpr heq)]
        exact ⟨rfl, rfl⟩) p x
    rw [Finset.sum_singleton, Finset.sum_singleton, AbsFs.tally, AbsFs.tally, hr.parent,
      if_pos h.dir] at hchange
    have hcount := h.tally_eq fun e => e.inum.toNat = x ∧ p e.str
    have hold : (∃ e, (a.node dp).dir[i]? = some e ∧ e.inum.toNat = x ∧ p e.str = true) ↔ x = ip := by
      simp only [he0, Option.some.injEq, exists_eq_left', hip0]
      exact ⟨fun hx => hx.1.symm, fun hx => ⟨hx.symm, hp _ hproper0.2.1 hproper0.2.2⟩⟩
    have hnew : (UInt16.ofNat ip).toNat = x ∧
        p (DirEntry.mk (UInt16.ofNat ip) (strncpy new)).str = true ↔ x = ip := by
      rw [hnum', hstr']
      exact ⟨fun hx => hx.1.symm, fun hx => ⟨hx.symm, hp _ h.proper.1 h.proper.2⟩⟩
    simp only [decide_eq_true_eq, hold, hnew] at hcount
    simp only [h.dir, if_true] at hchange
    omega
  · intro x htype c hc hlive hdir
    by_cases hx : x = dp
    · subst hx
      rw [hr.parent]
      obtain ⟨j, hj⟩ := List.mem_iff_getElem?.mp hc
      rcases h.entry_left hj with hj' | ⟨rfl, hproper, hnum⟩
      · exact ⟨c, List.mem_of_getElem? hj', hlive, rfl, id⟩
      · refine ⟨_, h.mem_left, hlive', ?_, fun _ => ⟨hlive', by rw [hstr']; exact h.proper⟩⟩
        exact UInt16.toNat_inj.mp (hnum'.trans hnum.symm)
    · rw [hother x hx]
      exact ⟨c, hc, hlive, rfl, id⟩

/-- The other directories, and the other names of this one, lead where they did. -/
theorem lookup (htype : (a.node x).type = FileType.T_DIR) :
    lookupEntry (a'.node x).dir nm =
      if x = dp ∧ nm = new then some ip
      else if x = dp ∧ nm = old then none
      else lookupEntry (a.node x).dir nm := by
  have hrearr := h.rearranged hr
  obtain ⟨e0, he0, hproper0, hstr0, hip0⟩ := h.entry
  obtain ⟨hlive', hnum', hstr'⟩ := h.fits.entry
  by_cases hx : x = dp
  · subst hx
    have huniq := hrearr.unique x htype
    rw [hr.parent] at huniq ⊢
    simp only [true_and]
    by_cases hnew : nm = new
    · rw [if_pos hnew, huniq.lookup_iff]
      exact ⟨_, h.mem_left, hlive', hstr'.trans hnew.symm, hnum'⟩
    · rw [if_neg hnew]
      ext y
      rw [huniq.lookup_iff]
      constructor
      · rintro ⟨c, hc, hlive, hstr, hy⟩
        obtain ⟨j, hj⟩ := List.mem_iff_getElem?.mp hc
        have hji : i ≠ j := by
          rintro rfl
          rw [List.getElem?_set_self (List.getElem?_eq_some_iff.mp he0).1] at hj
          cases hj
          exact hnew (hstr.symm.trans hstr')
        rw [List.getElem?_set_ne hji] at hj
        have hold : nm ≠ old := by
          intro hold
          refine hji ((h.tree.unique_names htype).index_eq hj he0 hlive hproper0.1 ?_)
          rw [hstr0, hstr, hold]
        rw [if_neg hold, (h.tree.unique_names htype).lookup_iff]
        exact ⟨c, List.mem_of_getElem? hj, hlive, hstr, hy⟩
      · intro hlook
        by_cases hold : nm = old
        · rw [if_pos hold] at hlook
          cases hlook
        · rw [if_neg hold, (h.tree.unique_names htype).lookup_iff] at hlook
          obtain ⟨c, hc, hlive, hstr, hy⟩ := hlook
          obtain ⟨j, hj⟩ := List.mem_iff_getElem?.mp hc
          refine ⟨c, List.mem_of_getElem? (i := j) ?_, hlive, hstr, hy⟩
          refine (List.getElem?_set_ne ?_).trans hj
          rintro rfl
          rw [he0] at hj
          cases hj
          exact hold (hstr.symm.trans hstr0)
  · rw [hr.others x hx, if_neg fun hp => hx hp.1, if_neg fun hp => hx hp.1]

end Retitles

/-! ### `same_parent` -/

/-- A name that an entry of a directory may get. -/
structure NewName (dir : List DirEntry) (old new : List UInt8) : Prop where
  old_proper : old ≠ [46] ∧ old ≠ [46, 46]
  proper : new ≠ [46] ∧ new ≠ [46, 46]
  len : new.length ≤ DIRSIZ
  nul : 0 ∉ new
  fresh : new ≠ old → lookupEntry dir new = none

/-- If there is an entry to rename in one directory, it may get the name. -/
def AbsFs.Renamable (a : AbsFs) (source dest : List UInt8) : Prop :=
  ∀ dp, resolve a.node (Path.parent_path source) = some dp →
    (a.node dp).type = FileType.T_DIR →
    findEntry (a.node dp).dir (Path.filename source) ≠ none →
      NewName (a.node dp).dir (Path.filename source) (Path.filename dest)

/-- What an entry says that is found. -/
theorem AbsFs.Tree.found (h : a.Tree n) (hn : n ≤ 65536) (htype : (a.node dp).type = FileType.T_DIR)
    (hfind : findEntry (a.node dp).dir old = some i) (hold : old ≠ [46] ∧ old ≠ [46, 46]) :
    (∃ e, (a.node dp).dir[i]? = some e ∧ e.Proper ∧ e.str = old ∧
      e.inum.toNat = entryInum (a.node dp).dir i) ∧
    0 < entryInum (a.node dp).dir i ∧ entryInum (a.node dp).dir i < 65536 := by
  obtain ⟨hi, hlive, hstr⟩ := findEntry_some hfind
  rw [List.getD_eq_getElem _ _ hi] at hlive hstr
  have halloc := h.ordered.named dp htype _ (List.getElem_mem hi) hlive
  rw [entryInum, List.getD_eq_getElem _ _ hi]
  refine ⟨⟨_, List.getElem?_eq_getElem hi, ⟨hlive, hstr ▸ hold⟩, hstr, rfl⟩,
    Nat.pos_of_ne_zero fun h0 => ?_, Nat.lt_of_lt_of_le (h.lt _ halloc) hn⟩
  exact h.ordered.unused (h0 ▸ halloc)

theorem NewName.retitles (h : NewName (a.node dp).dir old new) (ht : a.Tree n) (hn : n ≤ 65536)
    (htype : (a.node dp).type = FileType.T_DIR)
    (hfind : findEntry (a.node dp).dir old = some i) :
    Retitles n a dp i (entryInum (a.node dp).dir i) old new := by
  obtain ⟨hentry, hpos, hlt⟩ := ht.found hn htype hfind h.old_proper
  exact ⟨ht, htype, hentry, ⟨hpos, hlt, h.len, h.nul⟩, h.proper, h.fresh⟩

/-! ### References that end -/

theorem AbsFs.put_ref (a : AbsFs) (x y : Nat) :
    (a.put x).ref y = a.ref y - if x = y then 1 else 0 := by
  have hdrop : setAt a.ref x (a.ref x - 1) y = a.ref y - if x = y then 1 else 0 := by
    rw [setAt_apply]
    by_cases hyx : y = x
    · rw [if_pos hyx, if_pos hyx.symm, hyx]
    · rw [if_neg hyx, if_neg (Ne.symm hyx)]
      rfl
  unfold AbsFs.put
  split
  · next hfree =>
    rw [← hdrop, hfree.1]
    rfl
  · exact hdrop

theorem AbsFs.puts_ref (a : AbsFs) (l : List Nat) (x : Nat) :
    (l.foldl AbsFs.put a).ref x = a.ref x - l.count x := by
  induction l generalizing a with
  | nil => rfl
  | cons y l ih =>
    rw [List.foldl_cons, ih, AbsFs.put_ref, List.count_cons, Nat.sub_sub, Nat.add_comm]
    simp only [beq_iff_eq]

/-- The end of references to inodes with links changes no inode. -/
theorem AbsFs.puts_node {l : List Nat} (h : ∀ x ∈ l, a.mem x ≠ some 0) :
    (l.foldl AbsFs.put a).node = a.node := by
  induction l generalizing a with
  | nil => rfl
  | cons y l ih =>
    have hy : a.put y = a.drop y := if_neg fun hfree => h y List.mem_cons_self hfree.2
    rw [List.foldl_cons, hy, ih]
    · rfl
    · intro x hx hmem
      simp only [AbsFs.drop, setAt_apply] at hmem
      split at hmem
      · next heq =>
        split at hmem
        · cases hmem
        · exact h x (List.mem_cons_of_mem y hx) (heq ▸ hmem)
      · exact h x (List.mem_cons_of_mem y hx) hmem

theorem AbsFs.Tree.puts {l : List Nat} (h : a.Tree n) (href : ∀ x, l.count x ≤ a.ref x) :
    (l.foldl AbsFs.put a).Tree n := by
  induction l generalizing a with
  | nil => exact h
  | cons y l ih =>
    have hcount : ∀ x, l.count x + (if y = x then 1 else 0) ≤ a.ref x := by
      intro x
      have := href x
      rw [List.count_cons] at this
      simpa only [beq_iff_eq] using this
    have hy := hcount y
    rw [if_pos rfl] at hy
    refine ih (h.put (by omega)) fun x => ?_
    rw [AbsFs.put_ref]
    have := hcount x
    omega

/-- What an operation holds has links. -/
theorem During.mem_ne_zero {held : List Nat} (hd : During a0 a held) (ht : a0.Tree n)
    (hx : x ∈ held) : a.mem x ≠ some 0 := by
  intro h0
  have hlinks := hd.mem x 0 h0
  rw [ht.clean.links] at hlinks
  exact ht.not_reached hlinks.symm (hd.reached x hx)

/-! ### What a rename in one directory does -/

theorem Retitled.of_rename (ht : a0.Tree n) (hd : During a0 a [entryInum (a0.node dp).dir i, dp])
    (hi : i < (a0.node dp).dir.length) (new : List UInt8) :
    Retitled a0 dp i (entryInum (a0.node dp).dir i) new (a.rename dp i new) ∧
      (a.rename dp i new).ref = a0.ref := by
  have hnode := hd.nodes_eq ht.not_doomed
  have hputs : a.rename dp i new = [entryInum (a0.node dp).dir i, dp].foldl AbsFs.put (a.setEntry dp i
      ⟨UInt16.ofNat (entryInum (a0.node dp).dir i), strncpy new⟩) := by
    rw [AbsFs.rename, hnode]
    rfl
  rw [hputs]
  have hkept := AbsFs.puts_node (a := a.setEntry dp i ⟨UInt16.ofNat (entryInum (a0.node dp).dir i),
    strncpy new⟩) fun x hx => hd.mem_ne_zero ht hx
  refine ⟨⟨?_, fun x hx => ?_⟩, funext fun x => ?_⟩
  · rw [hkept]
    simp only [AbsFs.setEntry, AbsFs.modify, setAt_self, putEntry]
    rw [hnode, if_pos hi]
  · rw [hkept, ← hnode]
    exact setAt_of_ne hx
  · rw [AbsFs.puts_ref]
    show a.ref x - _ = _
    rw [hd.ref, Nat.add_sub_cancel]

theorem Retitles.rename (h : Retitles n a0 dp i (entryInum (a0.node dp).dir i) old new)
    (hd : During a0 a [entryInum (a0.node dp).dir i, dp]) : (a.rename dp i new).Tree n := by
  obtain ⟨e, he, -⟩ := h.entry
  have hi := (List.getElem?_eq_some_iff.mp he).1
  have hnode := hd.nodes_eq h.tree.not_doomed
  rw [AbsFs.rename, hnode]
  have hr : Retitled a0 dp i (entryInum (a0.node dp).dir i) new (a.setEntry dp i
      ⟨UInt16.ofNat (entryInum (a0.node dp).dir i), strncpy new⟩) := by
    refine ⟨?_, fun x hx => ?_⟩
    · simp only [AbsFs.setEntry, AbsFs.modify, setAt_self, putEntry]
      rw [hnode, if_pos hi]
    · rw [← hnode]
      exact setAt_of_ne hx
  have hclean : (a.setEntry dp i ⟨UInt16.ofNat (entryInum (a0.node dp).dir i), strncpy new⟩).Clean :=
    (h.tree.during hd).clean.modify rfl rfl
  have htree := h.tree.rearranged (h.rearranged hr) hclean fun x hm => hd.kept x 0 hm
  refine htree.puts (l := [entryInum (a0.node dp).dir i, dp]) fun x => ?_
  show _ ≤ a.ref x
  rw [hd.ref]
  exact Nat.le_add_left _ _

/-- `same_parent` keeps the tree, where it may give the name. -/
theorem AbsFs.Tree.renames {r : Int} (h : a.Tree n) (hn : n ≤ 65536) (hname : a.Renamable source dest)
    (hr : Renames a source dest r a') : a'.Tree n := by
  cases hr with
  | no_parent hd _ => exact h.during hd
  | unread _ hd _ => exact h.during hd
  | missing _ hd _ => exact h.during hd
  | @renamed a1 dp i hdp hfind hd hopen =>
    have htype : (a.node dp).type = FileType.T_DIR := by
      rw [← hd.nodes_eq h.not_doomed]
      exact hopen.1
    have hnew := hname dp hdp htype (by rw [hfind]; exact nofun)
    exact (hnew.retitles h hn htype hfind).rename hd

/-! ### From one directory to another -/

theorem UniqueNames.link_entry {inum : Nat} (h : UniqueNames dir) (hfits : FitsEntry inum name)
    (hnone : lookupEntry dir name = none) : UniqueNames (linkEntry dir name inum) := by
  intro nm
  have hone := h nm
  rw [countP_linkEntry _ _ _ fun e he => (of_decide_eq_true he).1, hfits.entry.2.2]
  split
  · next hp =>
    obtain rfl := (of_decide_eq_true hp).2
    rw [lookupEntry_eq_none, findEntry_eq_none] at hnone
    rw [List.countP_eq_zero.mpr fun e he hp => hnone e he (of_decide_eq_true hp)]
  · exact hone

/-- Entry `i` of directory `src` names `ip`, and directory `dst` may get an entry `new` for it. -/
structure Relocates (n : Nat) (a : AbsFs) (src i ip dst : Nat) (old new : List UInt8) : Prop where
  tree : a.Tree n
  source : (a.node src).type = FileType.T_DIR
  dest : (a.node dst).type = FileType.T_DIR
  ne : src ≠ dst
  entry : ∃ e, (a.node src).dir[i]? = some e ∧ e.Proper ∧ e.str = old ∧ e.inum.toNat = ip
  fits : FitsEntry ip new
  fresh : lookupEntry (a.node dst).dir new = none

/-- Entry `i` of directory `src` is `c`, and directory `dst` has an entry for `ip`. -/
structure Relocated (a : AbsFs) (src i ip dst : Nat) (new : List UInt8) (c : DirEntry) (a' : AbsFs) :
    Prop where
  source : a'.node src = { a.node src with dir := (a.node src).dir.set i c }
  dest : ∃ slots, a'.node dst =
    { a.node dst with dir := linkEntry (a.node dst).dir new ip, slots }
  others : ∀ x, x ≠ src → x ≠ dst → a'.node x = a.node x

namespace Relocated

variable (hr : Relocated a src i ip dst new c a')
include hr

theorem fields : (a'.node x).type = (a.node x).type ∧ (a'.node x).nlink = (a.node x).nlink := by
  by_cases hs : x = src
  · rw [hs, hr.source]
    exact ⟨rfl, rfl⟩
  · by_cases hd : x = dst
    · obtain ⟨slots, hdest⟩ := hr.dest
      rw [hd, hdest]
      exact ⟨rfl, rfl⟩
    · rw [hr.others x hs hd]
      exact ⟨rfl, rfl⟩

theorem dir_eq : (a'.node x).dir =
    if x = src then (a.node x).dir.set i c
    else if x = dst then linkEntry (a.node x).dir new ip else (a.node x).dir := by
  split
  · next hs => rw [hs, hr.source]
  · next hs =>
    split
    · next hd =>
      obtain ⟨slots, hdest⟩ := hr.dest
      rw [hd, hdest]
    · next hd => rw [hr.others x hs hd]

theorem mem_right (hx : e ∈ (a'.node x).dir) (hlive : e.Live) (hdead : ¬c.Live) :
    e ∈ (a.node x).dir ∨ e = ⟨UInt16.ofNat ip, strncpy new⟩ := by
  rw [hr.dir_eq] at hx
  split at hx
  · rcases List.mem_or_eq_of_mem_set hx with hx | rfl
    · exact .inl hx
    · exact absurd hlive hdead
  · split at hx
    · exact (mem_linkEntry hx).symm
    · exact .inl hx

end Relocated

namespace Relocates

variable (h : Relocates n a src i ip dst old new) (hr : Relocated a src i ip dst new c a')
  (hdead : ¬c.Live)
include h

theorem proper : new ≠ [46] ∧ new ≠ [46, 46] := h.tree.ordered.fresh_proper h.dest h.fresh

include hr

/-- No entry is lost but the one that is moved. -/
theorem entry_left {j : Nat} (he : (a.node x).dir[j]? = some e) (hlive : e.Live) :
    (a'.node x).dir[j]? = some e ∨ x = src ∧ j = i ∧ e.Proper ∧ e.inum.toNat = ip := by
  rw [hr.dir_eq]
  split
  · next hs =>
    subst hs
    by_cases hij : i = j
    · subst hij
      obtain ⟨e0, he0, hproper, -, hip⟩ := h.entry
      rw [he] at he0
      cases he0
      exact .inr ⟨rfl, rfl, hproper, hip⟩
    · exact .inl (by rw [List.getElem?_set_ne hij, he])
  · split
    · exact .inl (getElem?_linkEntry he hlive)
    · exact .inl he

include hdead

theorem naming_eq (p : List UInt8 → Bool) (hp : Plain p) (x : Nat) :
    a'.naming n p x = a.naming n p x := by
  have hlive : ∀ e : DirEntry, decide (e.Live ∧ e.inum.toNat = x ∧ p e.str = true) = true → e.Live :=
    fun e he => (of_decide_eq_true he).1
  have hlt : ∀ {d}, (a.node d).type = FileType.T_DIR → d < n := fun hd =>
    h.tree.lt _ (by rw [AbsFs.Alloc, hd]; decide)
  have hchange := AbsFs.naming_change a a' (n := n) (t := {src, dst})
    (by
      intro d hd
      rcases Finset.mem_insert.mp hd with rfl | hd
      · exact Finset.mem_range.mpr (hlt h.source)
      · rw [Finset.mem_singleton.mp hd]
        exact Finset.mem_range.mpr (hlt h.dest))
    (fun d hd => by
      rw [hr.others d (fun heq => hd (by simp [heq])) fun heq => hd (by simp [heq])]
      exact ⟨rfl, rfl⟩) p x
  rw [Finset.sum_pair h.ne, Finset.sum_pair h.ne] at hchange
  obtain ⟨e, he, hproper, hstr, hip⟩ := h.entry
  have hsrc := countP_set_dead hlive hdead he
  have hdst := countP_linkEntry (a.node dst).dir new ip hlive
  rw [h.fits.counts] at hdst
  simp only [hproper.1, true_and, hip, hp e.str hproper.2.1 hproper.2.2, and_true,
    decide_eq_true_eq] at hsrc
  simp only [hp new h.proper.1 h.proper.2, true_and, decide_eq_true_eq] at hdst
  simp only [AbsFs.tally, hr.fields.1, h.source, h.dest, if_true, hr.dir_eq, h.ne.symm, if_false]
    at hchange
  by_cases hx : x = ip
  · rw [if_pos hx.symm] at hsrc
    rw [if_pos hx] at hdst
    omega
  · rw [if_neg (Ne.symm hx)] at hsrc
    rw [if_neg hx] at hdst
    omega

/-- Names stay unique. -/
theorem unique (htype : (a.node x).type = FileType.T_DIR) : UniqueNames (a'.node x).dir := by
  have huniq := h.tree.unique_names htype
  rw [hr.dir_eq]
  split
  · next hs =>
    obtain ⟨e, he, -⟩ := h.entry
    rw [← hs] at he
    exact huniq.set_dead hdead he
  · split
    · next hd =>
      refine huniq.link_entry h.fits ?_
      rw [hd]
      exact h.fresh
    · exact huniq

theorem rearranged (hfile : (a.node ip).type ≠ FileType.T_DIR) : Rearranged n a a' := by
  refine ⟨fun x => hr.fields.1, fun x => hr.fields.2, fun x => h.unique hr hdead,
    fun x htype j hj => ?_, fun x htype e he hlive => ?_, h.naming_eq hr hdead,
    fun x htype e he hlive hdir => ?_⟩
  · have hstay : ∀ {e : DirEntry}, (a.node x).dir[j]? = some e → e.Live → ¬e.Proper →
        (a'.node x).dir[j]? = (a.node x).dir[j]? := by
      intro e he hlive hno
      rcases h.entry_left hr he hlive with he' | ⟨-, -, hproper, -⟩
      · rw [he', he]
      · exact absurd hproper hno
    obtain ⟨e0, he0, hlive0, -, hstr0⟩ := h.tree.ordered.dot_entry htype
    obtain ⟨e1, he1, hlive1, hstr1, -⟩ := h.tree.dotdot_entry htype
    obtain rfl | rfl : j = 0 ∨ j = 1 := by omega
    · exact hstay he0 hlive0 fun hproper => hproper.2.1 hstr0
    · exact hstay he1 hlive1 fun hproper => hproper.2.2 hstr1
  · rcases hr.mem_right he hlive hdead with hold | rfl
    · exact h.tree.ordered.named x htype e hold hlive
    · obtain ⟨e0, he0, hproper, -, hip⟩ := h.entry
      rw [h.fits.entry.2.1, ← hip]
      exact h.tree.ordered.named src h.source e0 (List.mem_of_getElem? he0) hproper.1
  · obtain ⟨j, hj⟩ := List.mem_iff_getElem?.mp he
    rcases h.entry_left hr hj hlive with he' | ⟨-, -, -, hip⟩
    · exact ⟨e, List.mem_of_getElem? he', hlive, rfl, id⟩
    · exact absurd (hip ▸ hdir) hfile

/-- The old name is gone, the new one leads to the inode, and the others lead where they did. -/
theorem lookup (htype : (a.node x).type = FileType.T_DIR) :
    lookupEntry (a'.node x).dir nm =
      if x = dst ∧ nm = new then some ip
      else if x = src ∧ nm = old then none
      else lookupEntry (a.node x).dir nm := by
  by_cases hs : x = src
  · subst hs
    obtain ⟨e, he, hproper, rfl, -⟩ := h.entry
    rw [hr.dir_eq, if_pos rfl, (h.tree.unique_names htype).lookup_set_dead hdead he hproper.1]
    simp [h.ne]
  · by_cases hd : x = dst
    · subst hd
      rw [hr.dir_eq, if_neg hs, if_pos rfl, lookupEntry_linkEntry h.fits h.fresh]
      simp [hs]
    · rw [hr.dir_eq, if_neg hs, if_neg hd]
      simp [hs, hd]

end Relocates

/-! ### `different_parent` -/

/-- A file that may get an entry in another directory, in the place of its entry. -/
structure NewPlace (node : Nat → Node) (src i dst : Nat) (old new : List UInt8) : Prop where
  ne : src ≠ dst
  old_proper : old ≠ [46] ∧ old ≠ [46, 46]
  file : (node (entryInum (node src).dir i)).type ≠ FileType.T_DIR
  dead : ¬((node src).dir.getD ((node src).dir.length - 1) .zero).Live
  len : new.length ≤ DIRSIZ
  nul : 0 ∉ new

/-- An entry may be moved to another directory where the name is free. -/
def AbsFs.Movable (a : AbsFs) (source dest : List UInt8) : Prop :=
  ∀ src dst i, resolve a.node (Path.parent_path source) = some src →
    resolve a.node (Path.parent_path dest) = some dst →
    (a.node src).type = FileType.T_DIR → (a.node dst).type = FileType.T_DIR →
    findEntry (a.node src).dir (Path.filename source) = some i →
    findEntry (a.node dst).dir (Path.filename dest) = none →
      NewPlace a.node src i dst (Path.filename source) (Path.filename dest)

theorem NewPlace.relocates (h : NewPlace a.node src i dst old new) (ht : a.Tree n) (hn : n ≤ 65536)
    (hsrc : (a.node src).type = FileType.T_DIR) (hdst : (a.node dst).type = FileType.T_DIR)
    (hfind : findEntry (a.node src).dir old = some i)
    (hnone : findEntry (a.node dst).dir new = none) :
    Relocates n a src i (entryInum (a.node src).dir i) dst old new := by
  obtain ⟨hentry, hpos, hlt⟩ := ht.found hn hsrc hfind h.old_proper
  exact ⟨ht, hsrc, hdst, h.ne, hentry, ⟨hpos, hlt, h.len, h.nul⟩,
    lookupEntry_eq_none.mpr hnone⟩

/-- A move keeps to the entries. -/
theorem Linked.slots {inum : Nat} (h : Linked sb a x name inum true a') :
    ∃ slots, a' = (a.addEntry x name inum).setSlots x slots := by
  cases h with
  | tried _ hstep =>
    cases hstep with
    | written => exact ⟨_, rfl⟩

/-- What a rename from one directory to another does before its references end. -/
theorem Relocated.of_move (hnode : a.node = a0.node) (hne : src ≠ dst)
    (hi : i < (a0.node src).dir.length) (hlinked : Linked sb a dst new ip true a1) :
    Relocated a0 src i ip dst new ((a0.node src).dir.getD ((a0.node src).dir.length - 1) .zero)
      (a1.moveLast src i) ∧ (a1.moveLast src i).mem = a.mem ∧ (a1.moveLast src i).ref = a.ref ∧
      (a.Clean → (a1.moveLast src i).Clean) := by
  obtain ⟨slots, rfl⟩ := hlinked.slots
  refine ⟨⟨?_, ⟨slots, ?_⟩, fun x hxs hxd => ?_⟩, rfl, rfl, fun hclean => ?_⟩
  · simp only [AbsFs.moveLast, AbsFs.setEntry, AbsFs.setSlots, AbsFs.addEntry, AbsFs.modify,
      setAt_self, setAt_of_ne hne, hnode, putEntry, if_pos hi]
  · simp only [AbsFs.moveLast, AbsFs.setEntry, AbsFs.setSlots, AbsFs.addEntry, AbsFs.modify,
      setAt_self, setAt_of_ne hne.symm, hnode]
  · simp only [AbsFs.moveLast, AbsFs.setEntry, AbsFs.setSlots, AbsFs.addEntry, AbsFs.modify,
      setAt_of_ne hxs, setAt_of_ne hxd, hnode]
  · have hadd : (a.addEntry dst new ip).Clean := hclean.modify rfl rfl
    have hslots : ((a.addEntry dst new ip).setSlots dst slots).Clean := hadd.modify rfl rfl
    have hlast : ∀ e, (((a.addEntry dst new ip).setSlots dst slots).setEntry src i e).Clean := fun e =>
      hslots.modify rfl rfl
    exact hlast _

/-- What a rename from one directory to another does to the inodes. -/
theorem Relocated.of_moved (ht : a0.Tree n) (hd : During a0 a [ip, dst, src]) (hne : src ≠ dst)
    (hi : i < (a0.node src).dir.length) (hlinked : Linked sb a dst new ip true a1) :
    Relocated a0 src i ip dst new ((a0.node src).dir.getD ((a0.node src).dir.length - 1) .zero)
      ([ip, src, dst].foldl AbsFs.put (a1.moveLast src i)) ∧
    ([ip, src, dst].foldl AbsFs.put (a1.moveLast src i)).ref = a0.ref := by
  obtain ⟨hr, hmem, href, -⟩ := Relocated.of_move (hd.nodes_eq ht.not_doomed) hne hi hlinked
  have hperm := (List.Perm.swap dst src []).cons ip
  have hkept := AbsFs.puts_node (l := [ip, src, dst]) (a := a1.moveLast src i) fun x hx => by
    rw [hmem]
    exact hd.mem_ne_zero ht (hperm.mem_iff.mp hx)
  refine ⟨⟨hkept ▸ hr.source, hkept ▸ hr.dest, fun x hxs hxd => hkept ▸ hr.others x hxs hxd⟩,
    funext fun x => ?_⟩
  rw [AbsFs.puts_ref, href, hd.ref, hperm.count_eq, Nat.add_sub_cancel]

theorem Relocates.move (h : Relocates n a0 src i ip dst old new)
    (hdead : ¬((a0.node src).dir.getD ((a0.node src).dir.length - 1) .zero).Live)
    (hfile : (a0.node ip).type ≠ FileType.T_DIR) (hd : During a0 a [ip, dst, src])
    (hlinked : Linked sb a dst new ip true a1) :
    ([ip, src, dst].foldl AbsFs.put (a1.moveLast src i)).Tree n := by
  obtain ⟨e, he, -⟩ := h.entry
  obtain ⟨hr, hmem, href, hclean⟩ := Relocated.of_move (hd.nodes_eq h.tree.not_doomed) h.ne
    (List.getElem?_eq_some_iff.mp he).1 hlinked
  have hclean' := hclean (h.tree.during hd).clean
  have htree := h.tree.rearranged (h.rearranged hr hdead hfile) hclean' fun x hm => by
    rw [hmem]
    exact hd.kept x 0 hm
  refine htree.puts fun x => ?_
  rw [href, hd.ref, ((List.Perm.swap dst src []).cons ip).count_eq]
  exact Nat.le_add_left _ _

/-- A failed `dirlink` keeps the tree, and the references. -/
theorem AbsFs.Tree.not_linked {inum : Nat} (h : a.Tree n) (htype : (a.node dp).type = FileType.T_DIR)
    (hlinked : Xv6fs.Linked sb a dp name inum false a') :
    a'.Tree n ∧ a'.ref = a.ref ∧ ∀ x, (a'.node x).type = (a.node x).type ∧
      (a'.node x).nlink = (a.node x).nlink ∧ (a'.node x).dir = (a.node x).dir := by
  cases hlinked with
  | @exists_ i hfind =>
    have hreach : a.Reached (entryInum (a.node dp).dir i) := .entry (h.reached htype) htype hfind
    have hd := (During.refl a).get hreach
    have hnode := AbsFs.puts_node fun x hx => hd.mem_ne_zero h hx
    refine ⟨(h.during hd).puts (l := [entryInum (a.node dp).dir i]) fun x => ?_,
      funext fun x => ?_, fun x => ?_⟩
    · rw [hd.ref]
      exact Nat.le_add_left _ _
    · refine (AbsFs.puts_ref _ [entryInum (a.node dp).dir i] x).trans ?_
      rw [hd.ref, Nat.add_sub_cancel]
    · have hx : ((a.get (entryInum (a.node dp).dir i)).put (entryInum (a.node dp).dir i)).node x =
          a.node x := congrFun hnode x
      rw [hx]
      exact ⟨rfl, rfl, rfl⟩
  | tried _ hstep =>
    cases hstep with
    | @no_room slots _ _ =>
      have hfields : ∀ x, ((a.setSlots dp slots).node x).type = (a.node x).type ∧
          ((a.setSlots dp slots).node x).nlink = (a.node x).nlink ∧
          ((a.setSlots dp slots).node x).dir = (a.node x).dir := by
        intro x
        simp only [AbsFs.setSlots, AbsFs.modify, setAt_apply]
        split
        · next hx => rw [hx]; exact ⟨rfl, rfl, rfl⟩
        · exact ⟨rfl, rfl, rfl⟩
      exact ⟨h.refreshed hfields rfl fun _ => .inl rfl, rfl, hfields⟩

/-- `different_parent` keeps the tree, where it may move the entry. -/
theorem AbsFs.Tree.moves {r : Int} (h : a.Tree n) (hn : n ≤ 65536) (hplace : a.Movable source dest)
    (hr : Moves sb a source dest r a') : a'.Tree n := by
  cases hr with
  | no_source hd _ => exact h.during hd
  | unread_source _ hd _ => exact h.during hd
  | no_dest _ hd _ => exact h.during hd
  | unread_dest _ _ _ _ hd => exact h.during hd
  | missing _ _ hd _ => exact h.during hd
  | @not_linked a1 a2 src dst i hsrc hdst hfind hd hopen hopen' hlinked =>
    have hnode := hd.nodes_eq h.not_doomed
    obtain ⟨ht, href, hlinks⟩ := (h.during hd).not_linked hopen'.1 hlinked
    refine ht.puts (l := [entryInum (a.node src).dir i, src, dst]) fun x => ?_
    rw [href, hd.ref, ((List.Perm.swap dst src []).cons _).count_eq x]
    exact Nat.le_add_left _ _
  | @moved a1 a2 src dst i hsrc hdst hfind hd hopen hopen' hlinked =>
    have hnode := hd.nodes_eq h.not_doomed
    have hopen := hopen.1
    have hopen' := hopen'.1
    have hnone : findEntry (a1.node dst).dir (Path.filename dest) = none := by
      cases hlinked with
      | tried hnone _ => exact hnone
    rw [hnode] at hopen hopen' hnone
    have hnew := hplace src dst i hsrc hdst hopen hopen' hfind hnone
    exact (hnew.relocates h hn hopen hopen' hfind hnone).move hnew.dead hnew.file hd hlinked

end Xv6fs
