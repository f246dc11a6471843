import Xv6fs.Fs.Growth
import Xv6fs.Fs.Unlink

/-! The tree of directories when an entry is removed from it: `do_unlink`. -/

namespace Xv6fs

open Program (Runs)

variable {sb : SuperBlock} {s s' : Fs} {a a' a0 a1 a2 : AbsFs} {n x y b d i dp ip : Nat}
  {path name nm : List UInt8} {c e e' : DirEntry} {dir : List DirEntry}

/-! ### Lookups where names are unique -/

/-- No two entries have the same name. -/
def UniqueNames (dir : List DirEntry) : Prop :=
  ∀ nm, dir.countP (fun e => e.Live ∧ e.str = nm) ≤ 1

/-- Where at most one entry counts, those that count are one entry. -/
theorem eq_of_countP_le_one {p : DirEntry → Bool} (h : dir.countP p ≤ 1) (he : e ∈ dir)
    (he' : e' ∈ dir) (hp : p e = true) (hp' : p e' = true) : e = e' := by
  rw [List.countP_eq_length_filter] at h
  have hmem := List.mem_filter.mpr ⟨he, hp⟩
  have hmem' := List.mem_filter.mpr ⟨he', hp'⟩
  generalize dir.filter p = l at h hmem hmem'
  match l, h, hmem, hmem' with
  | [c], _, hmem, hmem' => rw [List.mem_singleton.mp hmem, List.mem_singleton.mp hmem']

namespace UniqueNames

/-- Entries of one name are one entry. -/
theorem eq (h : UniqueNames dir) (he : e ∈ dir) (he' : e' ∈ dir) (hlive : e.Live) (hlive' : e'.Live)
    (hstr : e.str = e'.str) : e = e' :=
  eq_of_countP_le_one (h e'.str) he he' (by simp [hlive, hstr]) (by simp [hlive'])

/-- A lookup finds an entry of the name, if there is one. -/
theorem lookup_iff (h : UniqueNames dir) :
    lookupEntry dir nm = some x ↔ ∃ e ∈ dir, e.Live ∧ e.str = nm ∧ e.inum.toNat = x := by
  refine ⟨lookupEntry_mem, fun ⟨e, he, hlive, hstr, hx⟩ => ?_⟩
  cases hlook : lookupEntry dir nm with
  | none =>
    rw [lookupEntry_eq_none, findEntry_eq_none] at hlook
    exact absurd ⟨hlive, hstr⟩ (hlook e he)
  | some y =>
    obtain ⟨e', he', hlive', hstr', hy⟩ := lookupEntry_mem hlook
    rw [← hy, h.eq he' he hlive' hlive (hstr'.trans hstr.symm), hx]

end UniqueNames

/-- What an entry of a directory names is reached, if the directory is. -/
theorem AbsFs.Reached.of_entry (hx : a.Reached d) (htype : (a.node d).type = FileType.T_DIR)
    (hnames : UniqueNames (a.node d).dir) (he : e ∈ (a.node d).dir) (hlive : e.Live) :
    a.Reached e.inum.toNat :=
  hx.lookup htype (hnames.lookup_iff.mpr ⟨e, he, hlive, rfl, rfl⟩)

theorem zero_dead : ¬DirEntry.zero.Live := fun h => h rfl

/-- An entry counts where another did. -/
theorem countP_set_entry {q : DirEntry → Bool} (hi : dir[i]? = some e) :
    (dir.set i c).countP q + (if q e then 1 else 0) = dir.countP q + if q c then 1 else 0 := by
  obtain ⟨hlt, rfl⟩ := List.getElem?_eq_some_iff.mp hi
  have hle : (if q dir[i] then 1 else 0) ≤ dir.countP q := by
    split
    · exact List.countP_pos_iff.mpr ⟨_, List.getElem_mem hlt, ‹_›⟩
    · exact Nat.zero_le _
  rw [List.countP_set hlt]
  omega

/-- A removed entry no longer counts. -/
theorem countP_set_dead {p : DirEntry → Bool} (hp : ∀ e, p e = true → e.Live) (hc : ¬c.Live)
    (hi : dir[i]? = some e) :
    (dir.set i c).countP p + (if p e then 1 else 0) = dir.countP p := by
  have hdead : p c = false := by
    cases hz : p c with
    | false => rfl
    | true => exact absurd (hp _ hz) hc
  have hcount := countP_set_entry (c := c) (q := p) hi
  rwa [hdead, if_neg Bool.false_ne_true] at hcount

namespace UniqueNames

/-- An entry is at one place. -/
theorem index_eq (h : UniqueNames dir) (hi : dir[i]? = some e) (hj : dir[d]? = some e')
    (hlive : e.Live) (hlive' : e'.Live) (hstr : e'.str = e.str) : d = i := by
  by_contra hne
  have hcount := countP_set_dead (p := fun e' => e'.Live ∧ e'.str = e.str)
    (fun _ he => (of_decide_eq_true he).1) zero_dead hi
  have hpos : 0 < (dir.set i .zero).countP fun e' => e'.Live ∧ e'.str = e.str :=
    List.countP_pos_iff.mpr ⟨e', List.mem_of_getElem? (i := d) (by
      rw [List.getElem?_set_ne (Ne.symm hne), hj]), by simp [hlive', hstr]⟩
  rw [if_pos (by simp [hlive])] at hcount
  have := h e.str
  omega

/-- What is left when an entry is removed. -/
theorem mem_set_dead (h : UniqueNames dir) (hc : ¬c.Live) (hi : dir[i]? = some e) (hlive : e.Live)
    (hlive' : e'.Live) : e' ∈ dir.set i c ↔ e' ∈ dir ∧ e'.str ≠ e.str := by
  constructor
  · intro he'
    obtain ⟨j, hj, rfl⟩ := List.getElem_of_mem he'
    have hji : j ≠ i := by
      rintro rfl
      rw [List.getElem_set_self] at hlive'
      exact hc hlive'
    rw [List.length_set] at hj
    rw [List.getElem_set_ne (Ne.symm hji)] at hlive' ⊢
    refine ⟨List.getElem_mem hj, fun hstr => hji ?_⟩
    exact h.index_eq hi (List.getElem?_eq_getElem hj) hlive hlive' hstr
  · rintro ⟨he', hstr⟩
    obtain ⟨j, hj, rfl⟩ := List.getElem_of_mem he'
    have hji : i ≠ j := by
      rintro rfl
      exact hstr (congrArg DirEntry.str (List.getElem?_eq_some_iff.mp hi).2)
    exact List.mem_of_getElem? (i := j) (by
      rw [List.getElem?_set_ne hji, List.getElem?_eq_getElem hj])

theorem set_dead (h : UniqueNames dir) (hc : ¬c.Live) (hi : dir[i]? = some e) :
    UniqueNames (dir.set i c) := fun nm => by
  have := countP_set_dead (p := fun e => e.Live ∧ e.str = nm)
    (fun _ he => (of_decide_eq_true he).1) hc hi
  have := h nm
  omega

/-- The removed name is not found, and the others as before. -/
theorem lookup_set_dead (h : UniqueNames dir) (hc : ¬c.Live) (hi : dir[i]? = some e) (hlive : e.Live) :
    lookupEntry (dir.set i c) nm = if nm = e.str then none else lookupEntry dir nm := by
  ext x
  rw [(h.set_dead hc hi).lookup_iff]
  split
  · next hnm =>
    refine iff_of_false ?_ (by simp)
    rintro ⟨e', he', hlive', hstr, -⟩
    exact ((h.mem_set_dead hc hi hlive hlive').mp he').2 (hstr.trans hnm)
  · next hnm =>
    rw [h.lookup_iff]
    constructor
    · rintro ⟨e', he', hlive', hstr, hx⟩
      exact ⟨e', ((h.mem_set_dead hc hi hlive hlive').mp he').1, hlive', hstr, hx⟩
    · rintro ⟨e', he', hlive', hstr, hx⟩
      exact ⟨e', (h.mem_set_dead hc hi hlive hlive').mpr ⟨he', fun heq => hnm (hstr ▸ heq)⟩, hlive',
        hstr, hx⟩

end UniqueNames

/-! ### The way back -/

/-- A directory that names nothing from its third entry on has no entries but `.` and `..`. -/
theorem AbsFs.Ordered.empty_proper (h : a.Ordered n) (htype : (a.node x).type = FileType.T_DIR)
    (hempty : emptyDir (a.node x).dir = true) (he : e ∈ (a.node x).dir) : ¬e.Proper := by
  rintro ⟨hlive, hdot, hdotdot⟩
  obtain ⟨j, hj, rfl⟩ := List.getElem_of_mem he
  obtain ⟨e0, he0, -, hstr0⟩ := h.dot x htype
  obtain ⟨e1, he1, -, hstr1, -⟩ := h.dotdot x htype
  obtain ⟨_, h0⟩ := List.getElem?_eq_some_iff.mp he0
  obtain ⟨_, h1⟩ := List.getElem?_eq_some_iff.mp he1
  match j, hj, hlive, hdot, hdotdot with
  | 0, _, _, hdot, _ => exact hdot (h0 ▸ hstr0)
  | 1, _, _, _, hdotdot => exact hdotdot (h1 ▸ hstr1)
  | j + 2, hj, hlive, _, _ =>
    rw [emptyDir, List.all_eq_true] at hempty
    have hmem : (a.node x).dir[j + 2] ∈ (a.node x).dir.drop 2 := by
      refine List.mem_of_getElem? (i := j) ?_
      rw [List.getElem?_drop, Nat.add_comm 2 j, List.getElem?_eq_getElem hj]
    exact hlive (by simpa using hempty _ hmem)

namespace AbsFs

/-- The entries in two directories are counted apart. -/
theorem naming_pair (hne : d ≠ y) (hd : d < n) (hy : y < n) (p : List UInt8 → Bool) (x : Nat) :
    tally (a.node d) (fun e => e.Live ∧ e.inum.toNat = x ∧ p e.str) +
      tally (a.node y) (fun e => e.Live ∧ e.inum.toNat = x ∧ p e.str) ≤ a.naming n p x := by
  have hsub : ({d, y} : Finset Nat) ⊆ Finset.range n := by
    intro c hc
    rcases Finset.mem_insert.mp hc with rfl | hc
    · exact Finset.mem_range.mpr hd
    · rw [Finset.mem_singleton.mp hc]
      exact Finset.mem_range.mpr hy
  have hle := Finset.sum_le_sum_of_subset (f := fun d =>
    tally (a.node d) (fun e => e.Live ∧ e.inum.toNat = x ∧ p e.str)) hsub
  rw [Finset.sum_pair hne] at hle
  exact hle

theorem tally_pos {p : DirEntry → Bool} (htype : (a.node d).type = FileType.T_DIR)
    (he : e ∈ (a.node d).dir) (hp : p e = true) : 0 < tally (a.node d) p := by
  rw [tally, if_pos htype]
  exact List.countP_pos_iff.mpr ⟨e, he, hp⟩

theorem Names.lt (h : a.Names d x) (ht : a.Tree n) : d < n :=
  ht.lt d (by rw [Alloc, h.1]; decide)

theorem Names.tally_pos (h : a.Names d x) : 0 < tally (a.node d) (fun e => e.Live ∧
    e.inum.toNat = x ∧ decide (e.str ≠ [46] ∧ e.str ≠ [46, 46]) = true) := by
  obtain ⟨htype, e, he, ⟨hlive, hdots⟩, hx⟩ := h
  exact AbsFs.tally_pos htype he (by simp [hlive, hx, hdots])

namespace Tree

variable (h : a.Tree n)
include h

theorem unique_names (htype : (a.node x).type = FileType.T_DIR) : UniqueNames (a.node x).dir :=
  h.ordered.unique x htype

/-- A directory has one name. -/
theorem names_unique (htype : (a.node x).type = FileType.T_DIR) (hd : a.Names d x)
    (hy : a.Names y x) : d = y := by
  by_contra hne
  have hle := naming_pair (a := a) hne (hd.lt h) (hy.lt h)
    (fun s => s ≠ [46] ∧ s ≠ [46, 46]) x
  have hhome := h.ordered.home x htype
  have hone : (if x = ROOTINO then 0 else 1) ≤ 1 := by split <;> omega
  have := hd.tally_pos
  have := hy.tally_pos
  omega

theorem root_not_named : ¬a.Names d ROOTINO := by
  intro hd
  have hhome := h.ordered.home ROOTINO h.ordered.root
  rw [if_pos rfl] at hhome
  obtain ⟨htype, e, he, ⟨hlive, hdots⟩, hx⟩ := hd
  have := naming_pos (n := n) (p := fun s => s ≠ [46] ∧ s ≠ [46, 46])
    (h.lt d (by rw [Alloc, htype]; decide)) htype he hlive hx (by simpa using hdots)
  omega

/-- `..` names the directory that holds the name. -/
theorem up_eq (htype : (a.node x).type = FileType.T_DIR) (hd : a.Names d x) : a.up x = d := by
  refine h.names_unique htype (h.up x htype ?_) hd
  rintro rfl
  exact h.root_not_named hd

/-- The entry `..` of a directory. -/
theorem dotdot_entry (htype : (a.node x).type = FileType.T_DIR) :
    ∃ e, (a.node x).dir[1]? = some e ∧ e.Live ∧ e.str = [46, 46] ∧ e.inum.toNat = a.up x := by
  obtain ⟨e, he, hlive, hstr, -⟩ := h.ordered.dotdot x htype
  refine ⟨e, he, hlive, hstr, ?_⟩
  rw [AbsFs.up, entryInum, List.getD_eq_getElem?_getD, he]
  rfl

/-- What an entry may be. -/
theorem entry_cases (htype : (a.node x).type = FileType.T_DIR) (he : e ∈ (a.node x).dir)
    (hlive : e.Live) : e.Proper ∨ e.str = [46] ∧ e.inum.toNat = x ∨
      e.str = [46, 46] ∧ e.inum.toNat = a.up x := by
  by_cases hdot : e.str = [46]
  · obtain ⟨e', he', hlive', hself, hstr⟩ := h.ordered.dot_entry htype
    refine .inr (.inl ⟨hdot, ?_⟩)
    rw [h.ordered.entry_eq htype he (List.mem_of_getElem? he') hlive hlive' (hdot.trans hstr.symm),
      hself]
  · by_cases hdotdot : e.str = [46, 46]
    · obtain ⟨e', he', hlive', hstr, hup⟩ := h.dotdot_entry htype
      refine .inr (.inr ⟨hdotdot, ?_⟩)
      rw [h.ordered.entry_eq htype he (List.mem_of_getElem? he') hlive hlive'
        (hdotdot.trans hstr.symm), hup]
    · exact .inl ⟨hlive, hdot, hdotdot⟩

/-- A name that is not `.` leads to a link. -/
theorem up_root : a.up ROOTINO = ROOTINO := by
  obtain ⟨e, he, -, -, hroot⟩ := h.ordered.dotdot ROOTINO h.ordered.root
  rw [AbsFs.up, entryInum, List.getD_eq_getElem?_getD, he]
  exact hroot rfl

end Tree

end AbsFs

/-! ### An entry that may be removed -/

/-- Entry `i` of directory `dp` names `ip`, which is no directory or an empty one. -/
structure Shrinks (n : Nat) (a : AbsFs) (dp i ip : Nat) (name : List UInt8) : Prop where
  tree : a.Tree n
  dir : (a.node dp).type = FileType.T_DIR
  parent : a.Reached dp
  entry : ∃ e, (a.node dp).dir[i]? = some e ∧ e.Proper ∧ e.str = name ∧ e.inum.toNat = ip
  empty : (a.node ip).type = FileType.T_DIR → emptyDir (a.node ip).dir = true

namespace Shrinks

variable (h : Shrinks n a dp i ip name)
include h

theorem names : a.Names dp ip := by
  obtain ⟨e, he, hproper, -, hip⟩ := h.entry
  exact ⟨h.dir, e, List.mem_of_getElem? he, hproper, hip⟩

theorem alloc : a.Alloc ip := by
  obtain ⟨e, he, hproper, -, rfl⟩ := h.entry
  exact h.tree.ordered.named dp h.dir e (List.mem_of_getElem? he) hproper.1

theorem not_names : ¬a.Names ip x := by
  rintro ⟨htype, e, he, hproper, -⟩
  exact h.tree.ordered.empty_proper htype (h.empty htype) he hproper

theorem ne : ip ≠ dp := by
  rintro rfl
  exact h.not_names h.names

theorem ne_root : ip ≠ ROOTINO := by
  rintro rfl
  exact h.tree.root_not_named h.names

theorem reached : a.Reached ip := by
  obtain ⟨e, he, hproper, -, hip⟩ := h.entry
  exact hip ▸ h.parent.of_entry h.dir (h.tree.unique_names h.dir) (List.mem_of_getElem? he) hproper.1

theorem nlink_ne : (a.node ip).nlink ≠ 0 := h.tree.ordered.nlink_ne h.tree.lt h.reached

theorem parent_lt : dp < n := h.names.lt h.tree

theorem lt : ip < n := h.tree.lt ip h.alloc

/-- No directory has `ip` as the one that it is in. -/
theorem up_ne (htype : (a.node x).type = FileType.T_DIR) : a.up x ≠ ip := by
  intro hup
  by_cases hx : x = ROOTINO
  · subst hx
    exact h.ne_root (hup ▸ h.tree.up_root)
  · exact h.not_names (hup ▸ h.tree.up x htype hx)

/-- What names `ip` names it from `dp`, unless it is a file with other names. -/
theorem entry_of (htype : (a.node d).type = FileType.T_DIR) (he : e ∈ (a.node d).dir)
    (hlive : e.Live) (hx : e.inum.toNat = ip) (hd : d ≠ ip) : a.Names d ip := by
  rcases h.tree.entry_cases htype he hlive with hproper | ⟨-, hself⟩ | ⟨-, hup⟩
  · exact ⟨htype, e, he, hproper, hx⟩
  · exact absurd (hself.symm.trans hx) hd
  · exact absurd (hup.symm.trans hx) (h.up_ne htype)

/-- A directory has one entry, besides `.` and those of `..`. -/
theorem entry_unique (hip : (a.node ip).type = FileType.T_DIR)
    (htype : (a.node d).type = FileType.T_DIR) (he : e ∈ (a.node d).dir) (hlive : e.Live)
    (hx : e.inum.toNat = ip) (hd : d ≠ ip) : d = dp ∧ e.str = name := by
  obtain rfl := h.tree.names_unique hip (h.entry_of htype he hlive hx hd) h.names
  refine ⟨rfl, ?_⟩
  obtain ⟨e0, he0, hproper0, rfl, hip0⟩ := h.entry
  have hproper : e.Proper := by
    rcases h.tree.entry_cases htype he hlive with hproper | ⟨-, hself⟩ | ⟨-, hup⟩
    · exact hproper
    · exact absurd (hself.symm.trans hx) hd
    · exact absurd (hup.symm.trans hx) (h.up_ne htype)
  have hone : (a.node d).dir.countP (fun e => e.Live ∧ e.inum.toNat = ip ∧
      decide (e.str ≠ [46] ∧ e.str ≠ [46, 46]) = true) ≤ 1 := by
    have hsub := Finset.single_le_sum (f := fun d => AbsFs.tally (a.node d) fun e => e.Live ∧
      e.inum.toNat = ip ∧ decide (e.str ≠ [46] ∧ e.str ≠ [46, 46]) = true)
      (fun _ _ => Nat.zero_le _) (Finset.mem_range.mpr h.parent_lt)
    simp only [AbsFs.tally, if_pos h.dir] at hsub
    have hhome := h.tree.ordered.home ip hip
    rw [if_neg h.ne_root] at hhome
    exact Nat.le_trans hsub hhome
  exact congrArg DirEntry.str (eq_of_countP_le_one hone he (List.mem_of_getElem? he0)
    (by simp [hlive, hx, hproper.2]) (by simp [hproper0.1, hip0, hproper0.2]))

/-- An empty directory has one link. -/
theorem nlink_dir (hip : (a.node ip).type = FileType.T_DIR) : (a.node ip).nlink = 1 := by
  have hhome := h.tree.ordered.home ip hip
  rw [if_neg h.ne_root] at hhome
  have hlinks := h.tree.ordered.links ip
  have hle : a.naming n (fun s => s ≠ [46]) ip ≤
      a.naming n (fun s => s ≠ [46] ∧ s ≠ [46, 46]) ip := by
    refine Finset.sum_le_sum fun d _ => ?_
    split
    · next htype =>
      refine List.countP_mono_left fun e he hp => ?_
      simp only [decide_eq_true_eq] at hp ⊢
      refine ⟨hp.1, hp.2.1, hp.2.2, fun hstr => ?_⟩
      rcases h.tree.entry_cases htype he hp.1 with hproper | ⟨hdot, -⟩ | ⟨-, hup⟩
      · exact hproper.2.2 hstr
      · exact hp.2.2 hdot
      · exact h.up_ne htype (hup.symm.trans hp.2.1)
    · exact Nat.le_refl 0
  have hne := h.nlink_ne
  apply UInt16.toNat_inj.mp
  rw [UInt16.toNat_one]
  have hpos : (a.node ip).nlink.toNat ≠ 0 := fun h0 => hne (UInt16.toNat_inj.mp h0)
  omega

/-- The directory that holds another has two links. -/
theorem parent_two (hip : (a.node ip).type = FileType.T_DIR) : 2 ≤ (a.node dp).nlink.toNat := by
  rw [h.tree.ordered.links]
  obtain ⟨e, he, hlive, hstr, hup⟩ := h.tree.dotdot_entry hip
  rw [h.tree.up_eq hip h.names] at hup
  have hback : 0 < AbsFs.tally (a.node ip) (fun e => e.Live ∧ e.inum.toNat = dp ∧
      decide (e.str ≠ [46]) = true) :=
    AbsFs.tally_pos hip (List.mem_of_getElem? he) (by simp [hlive, hstr, hup])
  -- another entry, in another directory, names `dp`
  obtain ⟨d, hd, htype, e', he', hlive', hx, hstr'⟩ : ∃ d, d ≠ ip ∧
      (a.node d).type = FileType.T_DIR ∧ ∃ e' ∈ (a.node d).dir, e'.Live ∧ e'.inum.toNat = dp ∧
        e'.str ≠ [46] := by
    by_cases hroot : dp = ROOTINO
    · obtain ⟨e', he', hlive', hstr', hself⟩ := h.tree.ordered.dotdot dp h.dir
      refine ⟨dp, h.ne.symm, h.dir, e', List.mem_of_getElem? he', hlive', ?_, by rw [hstr']; decide⟩
      rw [hself hroot, hroot]
    · have hnames := h.tree.up dp h.dir hroot
      have hne : a.up dp ≠ ip := fun heq => h.not_names (heq ▸ hnames)
      obtain ⟨htype, e', he', hproper, hx⟩ := hnames
      exact ⟨_, hne, htype, e', he', hproper.1, hx, hproper.2.1⟩
  have hother : 0 < AbsFs.tally (a.node d) (fun e => e.Live ∧ e.inum.toNat = dp ∧
      decide (e.str ≠ [46]) = true) :=
    AbsFs.tally_pos htype he' (by simp [hlive', hx, hstr'])
  have hle := AbsFs.naming_pair (a := a) hd (h.tree.lt d (by rw [AbsFs.Alloc, htype]; decide)) h.lt
    (fun s => s ≠ [46]) dp
  omega

end Shrinks

/-- Entry `i` of directory `dp` is gone.  Inode `ip` has a link less, or is free when that was its
last and nothing referred to it. -/
structure Removed (a : AbsFs) (dp i ip : Nat) (a' : AbsFs) : Prop where
  parent : a'.node dp = { a.node dp with
    dir := (a.node dp).dir.set i .zero
    nlink := if (a.node ip).type = FileType.T_DIR then (a.node dp).nlink - 1
      else (a.node dp).nlink }
  freed : (a.node ip).nlink = 1 → a.ref ip = 0 → a'.node ip = .free
  left : ¬((a.node ip).nlink = 1 ∧ a.ref ip = 0) →
    a'.node ip = { a.node ip with nlink := (a.node ip).nlink - 1 }
  others : ∀ x, x ≠ dp → x ≠ ip → a'.node x = a.node x

namespace Removed

variable (hr : Removed a dp i ip a') (h : Shrinks n a dp i ip name)
include hr

theorem parent_type : (a'.node dp).type = (a.node dp).type := by rw [hr.parent]

theorem alloc_back (hx : a'.Alloc x) : a.Alloc x := by
  by_cases hxi : x = ip
  · subst hxi
    by_cases hlast : (a.node x).nlink = 1 ∧ a.ref x = 0
    · exact absurd (by rw [hr.freed hlast.1 hlast.2]; rfl) hx
    · have := hr.left hlast
      rw [AbsFs.Alloc, this] at hx
      exact hx
  · by_cases hxd : x = dp
    · rwa [AbsFs.Alloc, hxd, ← hr.parent_type, ← hxd]
    · rwa [AbsFs.Alloc, ← hr.others x hxd hxi]

theorem alloc_iff (hx : x ≠ ip) : a'.Alloc x ↔ a.Alloc x := by
  by_cases hxd : x = dp
  · rw [AbsFs.Alloc, AbsFs.Alloc, hxd, hr.parent_type]
  · rw [AbsFs.Alloc, AbsFs.Alloc, hr.others x hxd hx]

theorem type_eq (hx : x ≠ ip) : (a'.node x).type = (a.node x).type := by
  by_cases hxd : x = dp
  · rw [hxd, hr.parent_type]
  · rw [hr.others x hxd hx]

theorem dir_eq (hx : x ≠ ip) : (a'.node x).dir =
    if x = dp then (a.node x).dir.set i .zero else (a.node x).dir := by
  split
  · next hxd => rw [hxd, hr.parent]
  · next hxd => rw [hr.others x hxd hx]

include h

/-- The other entries stay where they were. -/
theorem entry_mono {j : Nat} (hx : x ≠ ip) (he : (a.node x).dir[j]? = some e)
    (hstr : x = dp → e.str ≠ name) : (a'.node x).dir[j]? = some e := by
  rw [hr.dir_eq hx]
  split
  · next hxd =>
    obtain ⟨e0, he0, -, hstr0, -⟩ := h.entry
    have hji : i ≠ j := by
      rintro rfl
      rw [hxd, he0] at he
      cases he
      exact hstr hxd hstr0
    rw [List.getElem?_set_ne hji, he]
  · exact he

theorem mem_iff (htype : (a.node x).type = FileType.T_DIR) (hx : x ≠ ip) (hlive : e.Live) :
    e ∈ (a'.node x).dir ↔ e ∈ (a.node x).dir ∧ ¬(x = dp ∧ e.str = name) := by
  rw [hr.dir_eq hx]
  obtain ⟨e0, he0, hproper, rfl, -⟩ := h.entry
  split
  · next hxd =>
    subst hxd
    rw [(h.tree.unique_names htype).mem_set_dead zero_dead he0 hproper.1 hlive]
    simp
  · next hxd => simp [hxd]

/-- The removed name is not found any more, and the others are as before. -/
theorem lookup (htype : (a.node x).type = FileType.T_DIR) (hx : x ≠ ip) :
    lookupEntry (a'.node x).dir nm =
      if x = dp ∧ nm = name then none else lookupEntry (a.node x).dir nm := by
  rw [hr.dir_eq hx]
  obtain ⟨e0, he0, hproper, rfl, -⟩ := h.entry
  by_cases hxd : x = dp
  · subst hxd
    rw [if_pos rfl, (h.tree.unique_names htype).lookup_set_dead zero_dead he0 hproper.1]
    simp
  · rw [if_neg hxd, if_neg fun hp => hxd hp.1]

variable (hclosed : (a.node ip).type = FileType.T_DIR → a.ref ip = 0)
include hclosed

theorem dir_iff : (a'.node x).type = FileType.T_DIR ↔
    (a.node x).type = FileType.T_DIR ∧ x ≠ ip := by
  by_cases hxi : x = ip
  · subst hxi
    refine iff_of_false (fun hd => ?_) fun hd => hd.2 rfl
    by_cases hlast : (a.node x).nlink = 1 ∧ a.ref x = 0
    · rw [hr.freed hlast.1 hlast.2] at hd
      exact absurd hd (by decide)
    · rw [hr.left hlast] at hd
      exact hlast ⟨h.nlink_dir hd, hclosed hd⟩
  · rw [hr.type_eq hxi]
    simp [hxi]

/-- How the entries are counted that name an inode. -/
theorem naming_eq (p : List UInt8 → Bool) (hdot : p [46] = false) (x : Nat) :
    a'.naming n p x + (if p name = true ∧ x = ip then 1 else 0) +
      (if (a.node ip).type = FileType.T_DIR ∧ p [46, 46] = true ∧ x = dp then 1 else 0) =
    a.naming n p x := by
  have hlive : ∀ e : DirEntry, decide (e.Live ∧ e.inum.toNat = x ∧ p e.str = true) = true → e.Live :=
    fun e he => (of_decide_eq_true he).1
  have hchange := AbsFs.naming_change a a' (n := n) (t := {dp, ip})
    (by
      intro d hd
      rcases Finset.mem_insert.mp hd with rfl | hd
      · exact Finset.mem_range.mpr h.parent_lt
      · rw [Finset.mem_singleton.mp hd]
        exact Finset.mem_range.mpr h.lt)
    (fun d hd => by
      rw [hr.others d (fun heq => hd (by simp [heq])) fun heq => hd (by simp [heq])]
      exact ⟨rfl, rfl⟩) p x
  rw [Finset.sum_pair h.ne.symm, Finset.sum_pair h.ne.symm] at hchange
  have hnew : AbsFs.tally (a'.node ip) (fun e => e.Live ∧ e.inum.toNat = x ∧ p e.str) = 0 :=
    if_neg fun hd => ((hr.dir_iff h hclosed).mp hd).2 rfl
  have hparent : AbsFs.tally (a'.node dp) (fun e => e.Live ∧ e.inum.toNat = x ∧ p e.str) +
      (if p name = true ∧ x = ip then 1 else 0) =
      AbsFs.tally (a.node dp) (fun e => e.Live ∧ e.inum.toNat = x ∧ p e.str) := by
    obtain ⟨e, he, hproper, hstr, hip⟩ := h.entry
    have hcount := countP_set_dead hlive zero_dead he
    rw [AbsFs.tally, AbsFs.tally, if_pos (hr.parent_type.trans h.dir), if_pos h.dir,
      hr.dir_eq h.ne.symm, if_pos rfl, ← hcount]
    congr 1
    simp only [hproper.1, hstr, hip, true_and, decide_eq_true_eq]
    by_cases hx : x = ip
    · simp [hx]
    · simp [hx, Ne.symm hx]
  have hold : AbsFs.tally (a.node ip) (fun e => e.Live ∧ e.inum.toNat = x ∧ p e.str) =
      if (a.node ip).type = FileType.T_DIR ∧ p [46, 46] = true ∧ x = dp then 1 else 0 := by
    rw [AbsFs.tally]
    by_cases htype : (a.node ip).type = FileType.T_DIR
    · rw [if_pos htype]
      obtain ⟨e0, he0, -, -, hstr0⟩ := h.tree.ordered.dot_entry htype
      obtain ⟨e1, he1, hlive1, hstr1, hup⟩ := h.tree.dotdot_entry htype
      rw [h.tree.up_eq htype h.names] at hup
      have hempty := h.empty htype
      rcases hdir : (a.node ip).dir with _ | ⟨c0, _ | ⟨c1, rest⟩⟩
      · rw [hdir] at he0
        cases he0
      · rw [hdir] at he1
        cases he1
      · rw [hdir] at he0 he1 hempty
        cases he0
        cases he1
        have hrest : rest.countP (fun e => e.Live ∧ e.inum.toNat = x ∧ p e.str) = 0 := by
          refine List.countP_eq_zero.mpr fun e he hp => (of_decide_eq_true hp).1 ?_
          simpa using List.all_eq_true.mp hempty e he
        rw [List.countP_cons, List.countP_cons, hrest, hstr0, hdot, hstr1, hup]
        simp only [hlive1, htype, Bool.false_eq_true, and_false, decide_false, if_false, true_and,
          Nat.zero_add, Nat.add_zero, decide_eq_true_eq]
        by_cases hx : x = dp
        · simp [hx]
        · simp [hx, Ne.symm hx]
    · rw [if_neg htype, if_neg fun hp => htype hp.1]
  omega

/-- A removed directory is named no more, and a removed file that still is has links. -/
theorem nlink_of_entry {d : Nat} (htype : (a'.node d).type = FileType.T_DIR)
    (he : e ∈ (a'.node d).dir) (hlive : e.Live) (hx : e.inum.toNat = ip) :
    ¬((a.node ip).nlink = 1 ∧ a.ref ip = 0) := by
  rintro ⟨hone, -⟩
  obtain ⟨hd, hdi⟩ := (hr.dir_iff h hclosed).mp htype
  have hmem := ((hr.mem_iff h hd hdi hlive).mp he).1
  obtain ⟨-, e', he', hproper', hx'⟩ := h.entry_of hd hmem hlive hx hdi
  have hstr : e.str ≠ [46] := by
    intro hstr
    rcases h.tree.entry_cases hd hmem hlive with hproper | ⟨-, hself⟩ | ⟨hstr', -⟩
    · exact hproper.2.1 hstr
    · exact hdi (hself.symm.trans hx)
    · rw [hstr] at hstr'
      exact absurd hstr' (by decide)
  have hpos := AbsFs.naming_pos (a := a') (n := n) (p := fun s => s ≠ [46])
    (h.tree.lt d (by rw [AbsFs.Alloc, hd]; decide)) htype he hlive hx (by simpa using hstr)
  have heq := hr.naming_eq h hclosed (fun s => s ≠ [46]) (by decide) ip
  obtain ⟨e0, -, hproper0, rfl, -⟩ := h.entry
  rw [if_pos ⟨by simpa using hproper0.2.1, rfl⟩, ← h.tree.ordered.links, hone, UInt16.toNat_one] at heq
  omega

/-- What is reached is still reached, but for the inode that is gone. -/
theorem reached_left (hx : a.Reached x) : (x ≠ ip → a'.Reached x) ∧
    (x = ip → (a.node ip).type = FileType.T_DIR → a'.Reached dp) := by
  induction hx with
  | root => exact ⟨fun _ => .root, fun heq => absurd heq.symm h.ne_root⟩
  | @entry d j nm _ htype hfind ih =>
    have hlook : lookupEntry (a.node d).dir nm = some (entryInum (a.node d).dir j) := by
      rw [lookupEntry, hfind]
      rfl
    obtain ⟨e, he, hlive, hstr, hy⟩ := lookupEntry_mem hlook
    rw [← hy] at hlook ⊢
    by_cases hd : d = ip
    · -- the entries of an empty directory lead to itself and back
      subst hd
      have hdp := ih.2 rfl htype
      rcases h.tree.entry_cases htype he hlive with hproper | ⟨-, hself⟩ | ⟨-, hup⟩
      · exact absurd hproper (h.tree.ordered.empty_proper htype (h.empty htype) he)
      · exact ⟨fun hne => absurd hself hne, fun _ _ => hdp⟩
      · rw [hup, h.tree.up_eq htype h.names]
        exact ⟨fun _ => hdp, fun heq => absurd heq.symm h.ne⟩
    · have hd' := ih.1 hd
      refine ⟨fun hne => ?_, fun heq hip => ?_⟩
      · have hkept : ¬(d = dp ∧ nm = name) := by
          rintro ⟨rfl, rfl⟩
          obtain ⟨e0, he0, hproper0, hstr0, hip0⟩ := h.entry
          refine hne ?_
          rw [(h.tree.unique_names htype).eq he (List.mem_of_getElem? he0) hlive hproper0.1
            (hstr.trans hstr0.symm), hip0]
        have hlook' : lookupEntry (a'.node d).dir nm = some e.inum.toNat := by
          rw [hr.lookup h htype hd, if_neg hkept, hlook]
        exact hd'.lookup ((hr.dir_iff h hclosed).mpr ⟨htype, hd⟩) hlook'
      · have := h.tree.names_unique hip (h.entry_of htype he hlive heq hd) h.names
        exact this ▸ hd'

theorem ordered (hclean : a'.Clean) : a'.Ordered n := by
  have h0 := h.tree.ordered
  have hpropname : name ≠ [46] ∧ name ≠ [46, 46] := by
    obtain ⟨e, -, hproper, rfl, -⟩ := h.entry
    exact hproper.2
  have hdirs : ∀ {x}, (a'.node x).type = FileType.T_DIR →
      (a.node x).type = FileType.T_DIR ∧ x ≠ ip := (hr.dir_iff h hclosed).mp
  constructor
  · exact (hr.dir_iff h hclosed).mpr ⟨h0.root, h.ne_root.symm⟩
  · exact fun h1 => h0.unused (hr.alloc_back h1)
  · intro x hx nm
    obtain ⟨hd, hxi⟩ := hdirs hx
    rw [hr.dir_eq hxi]
    obtain ⟨e, he, -⟩ := h.entry
    split
    · next hxd =>
      subst hxd
      exact (h.tree.unique_names hd).set_dead zero_dead he nm
    · exact h0.unique x hd nm
  · intro x hx
    obtain ⟨hd, hxi⟩ := hdirs hx
    obtain ⟨e, he, hself, hstr⟩ := h0.dot x hd
    exact ⟨e, hr.entry_mono h hxi he fun _ => hstr ▸ hpropname.1.symm, hself, hstr⟩
  · intro x hx
    obtain ⟨hd, hxi⟩ := hdirs hx
    obtain ⟨e, he, hlive, hstr, hroot⟩ := h0.dotdot x hd
    exact ⟨e, hr.entry_mono h hxi he fun _ => hstr ▸ hpropname.2.symm, hlive, hstr, hroot⟩
  · intro x hx e he hlive
    obtain ⟨hd, hxi⟩ := hdirs hx
    have halloc := h0.named x hd e ((hr.mem_iff h hd hxi hlive).mp he).1 hlive
    by_cases hip : e.inum.toNat = ip
    · rw [hip, AbsFs.Alloc, hr.left (hr.nlink_of_entry h hclosed hx he hlive hip)]
      exact h.alloc
    · exact (hr.alloc_iff hip).mpr halloc
  · intro x
    have heq := hr.naming_eq h hclosed (fun s => s ≠ [46]) (by decide) x
    rw [← h0.links] at heq
    by_cases hxi : x = ip
    · subst hxi
      rw [if_pos ⟨by simpa using hpropname.1, rfl⟩, if_neg fun hp => h.ne hp.2.2] at heq
      by_cases hlast : (a.node x).nlink = 1 ∧ a.ref x = 0
      · rw [hlast.1, UInt16.toNat_one] at heq
        rw [hr.freed hlast.1 hlast.2]
        show 0 = _
        omega
      · rw [hr.left hlast]
        show ((a.node x).nlink - 1).toNat = _
        rw [UInt16.toNat_sub_of_le _ _ (by rw [UInt16.le_iff_toNat_le, UInt16.toNat_one]; omega),
          UInt16.toNat_one]
        omega
    · rw [if_neg fun hp => hxi hp.2] at heq
      by_cases hxd : x = dp
      · subst hxd
        rw [hr.parent]
        by_cases hip : (a.node ip).type = FileType.T_DIR
        · have htwo := h.parent_two hip
          rw [if_pos ⟨hip, by decide, rfl⟩] at heq
          simp only [hip, if_true]
          rw [UInt16.toNat_sub_of_le _ _ (by rw [UInt16.le_iff_toNat_le, UInt16.toNat_one]; omega),
            UInt16.toNat_one]
          omega
        · rw [if_neg fun hp => hip hp.1] at heq
          simp only [hip, if_false]
          omega
      · rw [if_neg fun hp => hxd hp.2.2] at heq
        rw [hr.others x hxd hxi]
        omega
  · intro x hx
    obtain ⟨hd, -⟩ := hdirs hx
    have heq := hr.naming_eq h hclosed (fun s => s ≠ [46] ∧ s ≠ [46, 46]) (by decide) x
    have := h0.home x hd
    omega
  · exact fun x hx => ⟨hclean.alloc x hx, hclean.synced x⟩

/-- The tree without the entry. -/
theorem tree_left (hclean : a'.Clean)
    (hmem : ∀ x, x ≠ dp → x ≠ ip → a.mem x = some 0 → a'.mem x = some 0)
    (hip : a'.Alloc ip → (a'.node ip).nlink = 0 → a'.mem ip = some 0) : a'.Tree n := by
  have hordered := hr.ordered h hclosed hclean
  have hreached : ∀ {x}, (a'.node x).type = FileType.T_DIR → a'.Reached x := by
    intro x hx
    obtain ⟨hd, hxi⟩ := (hr.dir_iff h hclosed).mp hx
    exact (hr.reached_left h hclosed (h.tree.reached hd)).1 hxi
  refine ⟨hordered, hclean, fun x hx => h.tree.lt x (hr.alloc_back hx), fun x hx hroot => ?_,
    fun x hx => ?_⟩
  · obtain ⟨hd, hxi⟩ := (hr.dir_iff h hclosed).mp hx
    obtain ⟨e, he, hlive, hstr, -⟩ := h.tree.dotdot_entry hd
    have hup : a'.up x = a.up x := by
      have he' := hr.entry_mono h hxi he fun _ => by
        obtain ⟨e0, -, hproper, rfl, -⟩ := h.entry
        rw [hstr]
        exact hproper.2.2.symm
      rw [AbsFs.up, AbsFs.up, entryInum, entryInum, List.getD_eq_getElem?_getD,
        List.getD_eq_getElem?_getD, he, he']
    rw [hup]
    obtain ⟨htype, e1, he1, hproper1, hx1⟩ := h.tree.up x hd hroot
    have hne := h.up_ne hd
    refine ⟨(hr.dir_iff h hclosed).mpr ⟨htype, hne⟩, e1,
      (hr.mem_iff h htype hne hproper1.1).mpr ⟨he1, ?_⟩, hproper1, hx1⟩
    rintro ⟨hupd, hstr1⟩
    obtain ⟨e0, he0, hproper0, hstr0, hip0⟩ := h.entry
    rw [hupd] at he1
    refine hxi ?_
    rw [← hx1, (h.tree.unique_names h.dir).eq he1 (List.mem_of_getElem? he0) hproper1.1 hproper0.1
      (hstr1.trans hstr0.symm), hip0]
  · by_cases hxi : x = ip
    · subst hxi
      by_cases hzero : (a'.node x).nlink = 0
      · refine .inr ⟨fun hd => ?_, hip hx hzero⟩
        exact ((hr.dir_iff h hclosed).mp hd).2 rfl
      · -- another entry leads to the file
        obtain ⟨d, e, htype, he, hlive, -, rfl⟩ := hordered.named_of_nlink hzero
        exact .inl ((hreached htype).of_entry htype (hordered.unique d htype) he hlive)
    · rcases h.tree.kept x ((hr.alloc_iff hxi).mp hx) with hreach | ⟨htype, hm⟩
      · exact .inl ((hr.reached_left h hclosed hreach).1 hxi)
      · refine .inr ⟨fun hd => htype ((hr.dir_iff h hclosed).mp hd).1, hmem x ?_ hxi hm⟩
        rintro rfl
        exact htype h.dir

end Removed

/-! ### `do_unlink` -/

namespace AbsFs

/-- The links of the directory after the removal. -/
def parentLinks (a : AbsFs) (dp ip : Nat) : UInt16 :=
  if (a.node ip).type = FileType.T_DIR then (a.node dp).nlink - 1 else (a.node dp).nlink

/-- Directory `dp` without its entry. -/
def withoutEntry (a : AbsFs) (dp i ip : Nat) : AbsFs :=
  { a.modify dp fun nd => { nd with dir := nd.dir.set i .zero, nlink := a.parentLinks dp ip } with
    mem := setAt a.mem dp (some (a.parentLinks dp ip)) }

theorem unlink_eq (hi : i < (a.node dp).dir.length) (hne : ip ≠ dp)
    (hdp : a.mem dp = some (a.node dp).nlink) (hip : a.mem ip = some (a.node ip).nlink) :
    a.unlink dp i ip = ((((a.withoutEntry dp i ip).put dp).setLinks ip
      ((a.node ip).nlink - 1)).put ip) := by
  have hset : (if (a.node ip).type = FileType.T_DIR
      then (a.setEntry dp i .zero).setLinks dp ((a.setEntry dp i .zero).links dp - 1)
      else a.setEntry dp i .zero) = a.withoutEntry dp i ip := by
    have hlinks : (a.setEntry dp i .zero).links dp = (a.node dp).nlink := by
      rw [AbsFs.links, show (a.setEntry dp i .zero).mem = a.mem from rfl, hdp, Option.getD_some]
    rw [hlinks]
    unfold withoutEntry parentLinks
    split
    · refine AbsFs.ext ?_ rfl rfl rfl rfl
      simp only [setEntry, setLinks, setMem, modify, setAt_self, setAt_setAt, putEntry, if_pos hi]
    · refine AbsFs.ext ?_ rfl ?_ rfl rfl
      · simp only [setEntry, modify, putEntry, if_pos hi]
      · exact ((congrArg (setAt a.mem dp) hdp.symm).trans (setAt_same (x := dp) _)).symm
  have hlinks : ((a.withoutEntry dp i ip).put dp).links ip = (a.node ip).nlink := by
    rw [AbsFs.links, put_mem_of_ne hne]
    simp only [withoutEntry, setAt_of_ne hne, hip, Option.getD_some]
  rw [AbsFs.unlink, hset, hlinks]

end AbsFs

theorem sub_one_eq_zero {m : UInt16} : m - 1 = 0 ↔ m = 1 := by
  constructor
  · intro h
    have := congrArg (· + 1) h
    simpa using this
  · rintro rfl
    rfl

namespace Shrinks

/-- The links of the directory do not run out. -/
theorem parentLinks_ne (h : Shrinks n a dp i ip name) : a.parentLinks dp ip ≠ 0 := by
  unfold AbsFs.parentLinks
  split
  · next htype =>
    have htwo := h.parent_two htype
    intro h0
    rw [sub_one_eq_zero.mp h0, UInt16.toNat_one] at htwo
    omega
  · exact h.tree.ordered.nlink_ne h.tree.lt h.parent

variable (h : Shrinks n a0 dp i ip name) (hd : During a0 a [ip, dp]) (hopen : a.OpenDir dp)
  (hmem : a.mem ip = some (a0.links ip))
include h hd hopen hmem

/-- What the removal does to the inodes and to the cache. -/
theorem unlink : Removed a0 dp i ip (a.unlink dp i ip) ∧ (a.unlink dp i ip).Clean ∧
    (∀ x, x ≠ dp → x ≠ ip → (a.unlink dp i ip).mem x = a.mem x) ∧
    ((a.unlink dp i ip).Alloc ip → ((a.unlink dp i ip).node ip).nlink = 0 →
      (a.unlink dp i ip).mem ip = some 0) := by
  have hnode := hd.nodes_eq h.tree.not_doomed
  have hclean := (h.tree.during hd).clean
  obtain ⟨e, he, -⟩ := h.entry
  have hi : i < (a.node dp).dir.length := by
    rw [hnode]
    exact (List.getElem?_eq_some_iff.mp he).1
  have hdp : a.mem dp = some (a.node dp).nlink := by
    obtain ⟨m, hm⟩ := hopen.2
    rw [hm, hclean.synced dp m hm]
  have hip : a.mem ip = some (a.node ip).nlink := by
    rw [hmem, hnode, h.tree.clean.links]
  have href : a.ref ip = a0.ref ip + 1 := by
    rw [hd.ref, List.count_cons_self, List.count_singleton, if_neg (by simpa using h.ne.symm)]
  rw [AbsFs.unlink_eq hi h.ne hdp hip]
  have hne := h.parentLinks_ne
  have hlinks : a.parentLinks dp ip = a0.parentLinks dp ip := by
    rw [AbsFs.parentLinks, AbsFs.parentLinks, hnode]
  -- the directory stays
  have hput : (a.withoutEntry dp i ip).put dp = (a.withoutEntry dp i ip).drop dp := by
    rw [AbsFs.put, if_neg fun hfree => hne ?_]
    rw [← hlinks]
    exact Option.some.inj (setAt_self.symm.trans hfree.2)
  have hnode3 : ∀ x, x ≠ dp → ((a.withoutEntry dp i ip).drop dp).node x = a.node x :=
    fun x hx => setAt_of_ne hx
  have hclean2 : (a.withoutEntry dp i ip).Clean := by
    have hset : ((a.modify dp fun nd => { nd with dir := nd.dir.set i .zero }).setLinks dp
        (a.parentLinks dp ip)).Clean :=
      AbsFs.Clean.setLinks (hclean.modify rfl rfl) _
    have heq : (a.modify dp fun nd => { nd with dir := nd.dir.set i .zero }).setLinks dp
        (a.parentLinks dp ip) = a.withoutEntry dp i ip := by
      refine AbsFs.ext ?_ rfl rfl rfl rfl
      simp only [AbsFs.withoutEntry, AbsFs.setLinks, AbsFs.setMem, AbsFs.modify, setAt_self,
        setAt_setAt]
    exact heq ▸ hset
  rw [hput]
  generalize ha4 : ((a.withoutEntry dp i ip).drop dp).setLinks ip ((a.node ip).nlink - 1) = a4
  have href4 : a4.ref ip = a0.ref ip + 1 := by
    rw [← ha4, ← href]
    exact setAt_of_ne h.ne
  have hmem4 : a4.mem ip = some ((a.node ip).nlink - 1) := by
    rw [← ha4]
    exact setAt_self
  have hip4 : a4.node ip = { a.node ip with nlink := (a.node ip).nlink - 1 } := by
    rw [← ha4]
    simp only [AbsFs.setLinks, AbsFs.setMem, AbsFs.modify, setAt_self, hnode3 ip h.ne]
  have hothers4 : ∀ x, x ≠ ip → a4.node x = ((a.withoutEntry dp i ip).drop dp).node x := by
    intro x hx
    rw [← ha4]
    exact setAt_of_ne hx
  have hclean4 : a4.Clean := by
    rw [← ha4]
    exact hclean2.drop.setLinks _
  have hlast : (a4.ref ip = 1 ∧ a4.mem ip = some 0) ↔ (a.node ip).nlink = 1 ∧ a0.ref ip = 0 := by
    rw [href4, hmem4, Option.some.injEq, sub_one_eq_zero]
    exact ⟨fun hp => ⟨hp.2, by omega⟩, fun hp => ⟨by omega, hp.1⟩⟩
  refine ⟨?_, hclean4.put, fun x hxd hxi => ?_, fun halloc hzero => ?_⟩
  · constructor
    · rw [AbsFs.put_node_of_ne h.ne.symm, hothers4 dp h.ne.symm]
      simp only [AbsFs.drop, AbsFs.withoutEntry, AbsFs.modify, setAt_self, AbsFs.parentLinks, hnode]
    · intro hone hzero
      rw [AbsFs.put, if_pos (hlast.mpr ⟨hnode ▸ hone, hzero⟩)]
      exact setAt_self
    · intro hno
      rw [AbsFs.put_node fun hfree => hno (hnode ▸ hlast.mp hfree), hip4, hnode]
    · intro x hxd hxi
      rw [AbsFs.put_node_of_ne hxi, hothers4 x hxi, hnode3 x hxd, hnode]
  · rw [AbsFs.put_mem_of_ne hxi, ← ha4]
    refine (setAt_of_ne hxi).trans ?_
    exact (setAt_of_ne hxd).trans (setAt_of_ne hxd)
  · by_cases hfree : a4.ref ip = 1 ∧ a4.mem ip = some 0
    · refine absurd ?_ halloc
      rw [AbsFs.put, if_pos hfree]
      simp only [AbsFs.free, setAt_self]
      rfl
    · rw [AbsFs.put_node hfree, hip4] at hzero
      have hmem0 : a4.mem ip = some 0 := by rw [hmem4]; exact congrArg some hzero
      have hone : a4.ref ip ≠ 1 := fun h1 => hfree ⟨h1, hmem0⟩
      rw [AbsFs.put, if_neg hfree]
      simp only [AbsFs.drop, setAt_self]
      rw [if_neg (by omega), hmem0]

/-- A file may be open when its entry is removed, a directory may not. -/
theorem unlink_tree (hclosed : (a0.node ip).type = FileType.T_DIR → a0.ref ip = 0) :
    (a.unlink dp i ip).Tree n := by
  obtain ⟨hr, hclean, hothers, hip⟩ := h.unlink hd hopen hmem
  exact hr.tree_left h hclosed hclean (fun x hxd hxi hm => (hothers x hxd hxi).trans (hd.kept x 0 hm))
    hip

end Shrinks

/-- An entry that `do_unlink` may remove. -/
theorem AbsFs.Removable.shrinks (h : a.Removable path dp i) (ht : a.Tree n) :
    ∃ name, resolveParent a.node path = some (dp, name) ∧ findEntry (a.node dp).dir name = some i ∧
      Shrinks n a dp i (entryInum (a.node dp).dir i) name := by
  obtain ⟨⟨name, hparent, hdot, hdotdot, hfind⟩, hempty⟩ := h
  obtain ⟨hdp, hdir, -⟩ := resolve_loop_parent .root hparent
  obtain ⟨hi, hlive, hstr⟩ := findEntry_some hfind
  rw [List.getD_eq_getElem _ _ hi] at hlive hstr
  refine ⟨name, hparent, hfind, ht, hdir, hdp, ⟨_, List.getElem?_eq_getElem hi, ⟨hlive, ?_, ?_⟩, hstr,
    ?_⟩, hempty⟩
  · exact hstr ▸ hdot
  · exact hstr ▸ hdotdot
  · rw [entryInum, List.getD_eq_getElem _ _ hi]

/-- `do_unlink` keeps the tree, unless it removes a directory that is open. -/
theorem AbsFs.Tree.unlinks {r : Int} (h : a.Tree n)
    (hclosed : ∀ x, resolve a.node path = some x → (a.node x).type = FileType.T_DIR → a.ref x = 0)
    (hu : Unlinks a path r a') : a'.Tree n := by
  cases hu with
  | refused hd _ => exact h.during hd
  | removed hrem hd hopen hmem =>
    obtain ⟨name, hparent, hfind, hshrinks⟩ := hrem.shrinks h
    refine hshrinks.unlink_tree hd hopen hmem (hclosed _ ?_)
    rw [resolve_of_parent hparent, lookupEntry, hfind]
    rfl

end Xv6fs
