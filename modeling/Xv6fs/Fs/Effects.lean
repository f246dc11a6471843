import Xv6fs.Fs.Renaming
import Xv6fs.Fs.Paths

/-! What `do_unlink` and `op_rename` do to the paths and to the free blocks. -/

namespace Xv6fs

variable {sb : SuperBlock} {s s' : Fs} {a a' a0 a1 : AbsFs} {n x y b d i ip dp src dst : Nat}
  {path name nm old new source dest q : List UInt8} {node node' : Nat → Node}
  {cs : List (List UInt8)} {fuel : Nat}

/-! ### Paths -/

/-- In which inodes a walk over the elements of a path looks for which names. -/
def descents (node : Nat → Node) : (ip : Nat) → (cs : List (List UInt8)) → List (Nat × List UInt8)
  | _, [] => []
  | ip, c :: cs =>
    if (node ip).type ≠ FileType.T_DIR then []
    else (ip, c) ::
      match lookupEntry (node ip).dir c with
      | none => []
      | some next => descents node next cs

theorem walk_loop_descents (hfuel : path.length < fuel) :
    walk_loop node false fuel path ip = descents node ip (skipelems path) := by
  induction fuel generalizing path ip with
  | zero => omega
  | succ fuel ih =>
    rw [walk_loop]
    cases hskip : skipelem path with
    | none =>
      rw [skipelems_none hskip]
      rfl
    | some p =>
      have hlt := skipelem_length hskip
      rw [skipelems_some hskip, descents]
      dsimp only
      rw [if_neg fun hp : false = true ∧ p.2 = [] => Bool.false_ne_true hp.1]
      cases lookupEntry (node ip).dir p.1 with
      | none => rfl
      | some next =>
        dsimp only
        rw [ih (by omega)]

theorem walk_descents : walk node path = descents node ROOTINO (skipelems path) :=
  walk_loop_descents (Nat.lt_succ_self _)

theorem resolve_descend : resolve node path = descend node ROOTINO (skipelems path) :=
  resolve_loop_descend (Nat.lt_succ_self _)

theorem descend_append {cs' : List (List UInt8)} (h : descend node ip cs = some x) :
    descend node ip (cs ++ cs') = descend node x cs' := by
  induction cs generalizing ip with
  | nil =>
    cases h
    rfl
  | cons c cs ih =>
    rw [descend] at h
    rw [List.cons_append, descend]
    split at h
    · cases h
    · next hdir =>
      rw [if_neg hdir]
      cases hnext : lookupEntry (node ip).dir c with
      | none =>
        rw [hnext] at h
        cases h
      | some next =>
        rw [hnext] at h
        exact ih h

theorem mem_descents_append {cs' : List (List UInt8)} (h : descend node ip cs = some x)
    {p : Nat × List UInt8} (hp : p ∈ descents node x cs') : p ∈ descents node ip (cs ++ cs') := by
  induction cs generalizing ip with
  | nil =>
    cases h
    exact hp
  | cons c cs ih =>
    rw [descend] at h
    rw [List.cons_append, descents]
    split at h
    · cases h
    · next hdir =>
      rw [if_neg hdir]
      cases hnext : lookupEntry (node ip).dir c with
      | none =>
        rw [hnext] at h
        cases h
      | some next =>
        rw [hnext] at h
        exact List.mem_cons_of_mem _ (ih h)

section Change

/-! Walks before and after a change, in a part `P` of the inodes that they do not leave but by a
name `gone`. -/

variable {P : Nat → Prop} {gone : Nat × List UInt8}
  (htype : ∀ x, P x → ((node' x).type = FileType.T_DIR ↔ (node x).type = FileType.T_DIR))
  (hnext : ∀ x nm y, P x → (node x).type = FileType.T_DIR → (x, nm) ≠ gone →
    lookupEntry (node x).dir nm = some y → P y)
include htype hnext

/-- A walk over a name that is gone ends there. -/
theorem descend_gone (hgone : lookupEntry (node' gone.1).dir gone.2 = none)
    (hlook : ∀ x nm y, P x → (node x).type = FileType.T_DIR → (x, nm) ≠ gone →
      lookupEntry (node x).dir nm = some y → lookupEntry (node' x).dir nm = some y) (hip : P ip)
    (hmem : gone ∈ descents node ip cs) : descend node' ip cs = none := by
  induction cs generalizing ip with
  | nil => exact absurd hmem List.not_mem_nil
  | cons c cs ih =>
    rw [descents] at hmem
    split at hmem
    · exact absurd hmem List.not_mem_nil
    · next hdir =>
      have hdir := not_not.mp hdir
      rw [descend, if_neg (not_not.mpr ((htype ip hip).mpr hdir))]
      by_cases heq : (ip, c) = gone
      · subst heq
        rw [hgone]
      · rcases List.mem_cons.mp hmem with hhead | htail
        · exact absurd hhead.symm heq
        · cases hy : lookupEntry (node ip).dir c with
          | none =>
            rw [hy] at htail
            exact absurd htail List.not_mem_nil
          | some y =>
            rw [hy] at htail
            rw [hlook ip c y hip hdir heq hy]
            exact ih (hnext ip c y hip hdir heq hy) htail

/-- A walk over names that lead where they did leads where it did. -/
theorem descend_kept (hlook : ∀ p ∈ descents node ip cs, P p.1 →
      lookupEntry (node' p.1).dir p.2 = lookupEntry (node p.1).dir p.2) (hip : P ip)
    (hmem : gone ∉ descents node ip cs) : descend node' ip cs = descend node ip cs := by
  induction cs generalizing ip with
  | nil => rfl
  | cons c cs ih =>
    rw [descents] at hlook hmem
    rw [descend, descend]
    by_cases hdir : (node ip).type = FileType.T_DIR
    · rw [if_neg (not_not.mpr hdir)] at hlook hmem
      rw [if_neg (not_not.mpr ((htype ip hip).mpr hdir)), if_neg (not_not.mpr hdir),
        hlook _ List.mem_cons_self hip]
      cases hy : lookupEntry (node ip).dir c with
      | none => rfl
      | some y =>
        rw [hy] at hlook hmem
        have hne : (ip, c) ≠ gone := fun heq => hmem (heq ▸ List.mem_cons_self)
        exact ih (fun p hp => hlook p (List.mem_cons_of_mem _ hp)) (hnext ip c y hip hdir hne hy)
          fun hp => hmem (List.mem_cons_of_mem _ hp)
    · rw [if_pos hdir, if_pos fun h => hdir ((htype ip hip).mp h)]

/-- Where one name is gone, a path leads nowhere that led through it, and every other path leads
where it did. -/
theorem resolve_without (hroot : P ROOTINO)
    (hlook : ∀ x nm, P x → (node x).type = FileType.T_DIR → lookupEntry (node' x).dir nm =
      if (x, nm) = gone then none else lookupEntry (node x).dir nm)
    (hgone : P gone.1 ∧ (node gone.1).type = FileType.T_DIR) :
    resolve node' path = if gone ∈ walk node path then none else resolve node path := by
  rw [resolve_descend, resolve_descend, walk_descents]
  split
  · next hmem =>
    refine descend_gone htype hnext ?_ (fun x nm y hx hdir hne hy => ?_) hroot hmem
    · rw [hlook gone.1 gone.2 hgone.1 hgone.2, if_pos rfl]
    · rw [hlook x nm hx hdir, if_neg hne, hy]
  · next hmem =>
    refine descend_kept htype hnext (fun p hp hx => ?_) hroot hmem
    have hne : p ≠ gone := fun heq => hmem (heq ▸ hp)
    rw [← walk_descents] at hp
    exact (hlook p.1 p.2 hx (walk_dir p hp)).trans (if_neg hne)

end Change

/-- Without the removed entry a path leads nowhere that led through it, and every other path leads
where it did. -/
theorem Removed.resolve (hr : Removed a dp i ip a') (h : Shrinks n a dp i ip name)
    (q : List UInt8) : Xv6fs.resolve a'.node q =
      if (dp, name) ∈ walk a.node q then none else Xv6fs.resolve a.node q := by
  refine resolve_without (P := fun x => (a.node ip).type = FileType.T_DIR → x ≠ ip)
    (fun x hx => ?_) (fun x nm y hx htype hne hy hdir => ?_) (fun _ => h.ne_root.symm)
    (fun x nm hx htype => ?_) ⟨fun _ => h.ne.symm, h.dir⟩
  · by_cases hxi : x = ip
    · -- the inode is a file, and stays one or is freed
      subst hxi
      refine iff_of_false (fun hd => ?_) fun hd => hx hd rfl
      by_cases hlast : (a.node x).nlink = 1 ∧ a.ref x = 0
      · rw [hr.freed hlast.1 hlast.2] at hd
        exact absurd hd (by decide)
      · rw [hr.left hlast] at hd
        exact hx hd rfl
    · rw [hr.type_eq hxi]
  · obtain ⟨e, he, hlive, hstr, hey⟩ := lookupEntry_mem hy
    intro hyi
    obtain ⟨rfl, hname⟩ := h.entry_unique hdir htype he hlive (hey.trans hyi) (hx hdir)
    exact hne (by rw [← hname, hstr])
  · have hpi : x ≠ ip := fun heq => hx (heq ▸ htype) heq
    rw [hr.lookup h htype hpi]
    simp only [Prod.mk.injEq]

/-! ### The last element of a path -/

theorem Path.elements_reverse_dropWhile (p : List UInt8) :
    elements (p.dropWhile (· == SLASH)).reverse = elements p.reverse := by
  induction p with
  | nil => rfl
  | cons c p ih =>
    by_cases hc : c = SLASH
    · subst hc
      rw [List.dropWhile_cons_of_pos (by decide), ih, List.reverse_cons, elements_append_slash,
        elements_nil, List.append_nil]
    · rw [List.dropWhile_cons_of_neg (by simpa using hc)]

/-- A path is its parent and its last element. -/
theorem Path.elements_parent_path (h : filename path ≠ []) :
    elements path = elements (parent_path path) ++ [filename path] := by
  have hno : SLASH ∉ filename path := fun hmem => by
    have := List.mem_takeWhile_imp (List.mem_reverse.mp hmem)
    simp at this
  have hsplit : path = (path.reverse.dropWhile (· != SLASH)).reverse ++ filename path := by
    rw [filename, ← List.reverse_append, List.takeWhile_append_dropWhile, List.reverse_reverse]
  have hall : ¬path.all (· == SLASH) = true := by
    intro hall
    obtain ⟨c, hc⟩ := List.exists_mem_of_ne_nil _ h
    have hmem : c ∈ path := List.mem_reverse.mp (List.takeWhile_subset _ (List.mem_reverse.mp hc))
    exact hno (beq_iff_eq.mp (List.all_eq_true.mp hall c hmem) ▸ hc)
  have hparent : elements (parent_path path) =
      elements (path.reverse.dropWhile (· != SLASH)).reverse := by
    rw [← elements_reverse_dropWhile, parent_path, if_neg hall]
    split
    · next hnil =>
      rw [hnil]
      cases path with
      | nil => rfl
      | cons d _ =>
        by_cases hd : d = SLASH
        · subst hd
          rfl
        · simp [hd]
    · next heq => rw [heq]
  rw [hparent]
  conv_lhs => rw [hsplit]
  cases hbase : (path.reverse.dropWhile (· != SLASH)) with
  | nil => rw [List.reverse_nil, List.nil_append, elements_nil, List.nil_append, elements_run h hno]
  | cons d q =>
    have hd : d = SLASH := by
      have := List.head_dropWhile_not (· != SLASH) (l := path.reverse)
        (by rw [hbase]; exact List.cons_ne_nil _ _)
      simpa only [hbase, List.head_cons, bne_eq_false_iff_eq] using this
    subst hd
    rw [List.reverse_cons, List.append_assoc, List.singleton_append, elements_append_slash,
      elements_append_slash, elements_nil, List.append_nil, elements_run h hno]

/-- Paths of the same elements lead to the same inode. -/
theorem resolve_same {p q : List UInt8} (h : Path.same p q) : resolve node p = resolve node q := by
  rw [Path.same, Bool.and_eq_true] at h
  rw [resolve_descend, resolve_descend, skipelems_eq, skipelems_eq, beq_iff_eq.mp h.2]

section Parent

variable (hname : Path.filename path ≠ []) (hlen : (Path.filename path).length ≤ DIRSIZ)
include hname hlen

theorem skipelems_parent_path :
    skipelems path = skipelems (Path.parent_path path) ++ [Path.filename path] := by
  rw [skipelems_eq, skipelems_eq, Path.elements_parent_path hname, List.map_append, List.map_singleton,
    List.take_of_length_le hlen]

variable (hparent : resolve node (Path.parent_path path) = some dp)
  (hdir : (node dp).type = FileType.T_DIR)
include hparent hdir

/-- A path leads where its last element does in the directory that its parent names. -/
theorem resolve_of_parent_path :
    resolve node path = lookupEntry (node dp).dir (Path.filename path) := by
  rw [resolve_descend] at hparent ⊢
  rw [skipelems_parent_path hname hlen, descend_append hparent, descend,
    if_neg (not_not.mpr hdir)]
  cases lookupEntry (node dp).dir (Path.filename path) with
  | none => rfl
  | some y => rfl

theorem walk_of_parent_path : (dp, Path.filename path) ∈ walk node path := by
  rw [resolve_descend] at hparent
  rw [walk_descents, skipelems_parent_path hname hlen]
  refine mem_descents_append hparent ?_
  rw [descents, if_neg (not_not.mpr hdir)]
  exact List.mem_cons_self

end Parent

/-! ### A name that becomes another -/

/-- The name `p`, of `ip`, has become the name `q`, and all other names are as they were. -/
structure Renamed (a a' : AbsFs) (p q : Nat × List UInt8) (ip : Nat) : Prop where
  lookup : ∀ x nm, (a.node x).type = FileType.T_DIR → lookupEntry (a'.node x).dir nm =
    if (x, nm) = q then some ip else if (x, nm) = p then none else lookupEntry (a.node x).dir nm
  unique : ∀ x, (a.node x).type = FileType.T_DIR → UniqueNames (a'.node x).dir

namespace Renamed

variable {p : Nat × List UInt8} {new : List UInt8}
  (h : Renamed a a' p (dp, new) ip) (htype : ∀ x, (a'.node x).type = (a.node x).type)
include h htype

/-- The paths that led through the old name lead nowhere. -/
theorem resolve_old (hne : p ≠ (dp, new)) (hfresh : lookupEntry (a.node dp).dir new = none)
    (hp : p ∈ walk a.node path) : resolve a'.node path = none := by
  have hdir := walk_dir p hp
  rw [walk_descents] at hp
  rw [resolve_descend]
  refine descend_gone (P := fun _ => True) (fun x _ => by rw [htype]) (fun _ _ _ _ _ _ _ => trivial)
    ?_ (fun x nm y _ hx hnp hy => ?_) trivial hp
  · rw [h.lookup p.1 p.2 hdir, if_neg hne, if_pos rfl]
  · have hq : (x, nm) ≠ (dp, new) := by
      rintro heq
      cases heq
      rw [hfresh] at hy
      cases hy
    rw [h.lookup x nm hx, if_neg hq, if_neg hnp, hy]

/-- The paths that lead through neither name lead where they did. -/
theorem resolve_other (hp : p ∉ walk a.node path) (hq : (dp, new) ∉ walk a.node path) :
    resolve a'.node path = resolve a.node path := by
  rw [resolve_descend, resolve_descend]
  rw [walk_descents] at hp hq
  refine descend_kept (P := fun _ => True) (fun x _ => by rw [htype]) (fun _ _ _ _ _ _ _ => trivial)
    (fun r hr _ => ?_) trivial hp
  have hne : (r.1, r.2) ≠ (dp, new) := fun heq => hq (heq ▸ hr)
  have hne' : (r.1, r.2) ≠ p := fun heq => hp (heq ▸ hr)
  rw [← walk_descents] at hr
  rw [h.lookup r.1 r.2 (walk_dir r hr), if_neg hne, if_neg hne']

/-- The new name leads to the inode, unless the way to it led over the old one. -/
theorem resolve_new (hname : Path.filename path ≠ []) (hlen : (Path.filename path).length ≤ DIRSIZ)
    (hnew : Path.filename path = new) (hdp : (a.node dp).type = FileType.T_DIR)
    (hparent : resolve a.node (Path.parent_path path) = some dp)
    (hfresh : p ≠ (dp, new) → lookupEntry (a.node dp).dir new = none)
    (hp : p ∉ walk a.node (Path.parent_path path)) : resolve a'.node path = some ip := by
  have hq : (dp, new) ∉ walk a.node (Path.parent_path path) := by
    intro hq
    have hne : p ≠ (dp, new) := fun heq => hp (heq ▸ hq)
    rw [resolve, Option.map_eq_some_iff] at hparent
    obtain ⟨r, hr, -⟩ := hparent
    exact walk_found hr _ hq (hfresh hne)
  rw [resolve_of_parent_path hname hlen ((h.resolve_other htype hp hq).trans hparent)
    ((htype dp).trans hdp), hnew, h.lookup dp new hdp, if_pos rfl]

end Renamed

/-- What the kernel promises of the names of a rename. -/
structure Renaming (old new : List UInt8) : Prop where
  old_some : old ≠ []
  new_some : new ≠ []
  proper : old ≠ [46] ∧ old ≠ [46, 46]
  len : new.length ≤ DIRSIZ
  nul : 0 ∉ new

/-- The paths when the name `p` of `ip` has become the name `q`: none leads through the old name,
`dest` leads to the inode, and those that lead through neither name lead where they did. -/
structure RenamedPaths (a a' : AbsFs) (p q : Nat × List UInt8) (ip : Nat) (source dest : List UInt8) :
    Prop where
  source : resolve a'.node source = none
  dest : p ∉ walk a.node (Path.parent_path dest) → resolve a'.node dest = some ip
  below : ∀ path, p ∈ walk a.node path → resolve a'.node path = none
  other : ∀ path, p ∉ walk a.node path → q ∉ walk a.node path →
    resolve a'.node path = resolve a.node path

theorem lookup_of_find {dir : List DirEntry} (h : findEntry dir nm = some i) :
    lookupEntry dir nm = some (entryInum dir i) := by
  rw [lookupEntry, h]
  rfl

/-- A name that is found fits into an entry. -/
theorem lookupEntry_length {dir : List DirEntry} (h : lookupEntry dir nm = some x) :
    nm.length ≤ DIRSIZ := by
  obtain ⟨e, -, -, rfl, -⟩ := lookupEntry_mem h
  exact (List.takeWhile_sublist _).length_le.trans_eq e.name.length_eq

theorem Renamed.paths (hnames : Renaming (Path.filename source) (Path.filename dest))
    (h : Renamed a a' (src, Path.filename source) (dst, Path.filename dest) ip)
    (htype : ∀ x, (a'.node x).type = (a.node x).type)
    (hne : (src, Path.filename source) ≠ (dst, Path.filename dest))
    (hfresh : lookupEntry (a.node dst).dir (Path.filename dest) = none)
    (hsrc : resolve a.node (Path.parent_path source) = some src)
    (hdst : resolve a.node (Path.parent_path dest) = some dst)
    (hsdir : (a.node src).type = FileType.T_DIR) (hddir : (a.node dst).type = FileType.T_DIR)
    (hold : lookupEntry (a.node src).dir (Path.filename source) = some x) :
    RenamedPaths a a' (src, Path.filename source) (dst, Path.filename dest) ip source dest where
  source := h.resolve_old htype hne hfresh
    (walk_of_parent_path hnames.old_some (lookupEntry_length hold) hsrc hsdir)
  dest := h.resolve_new htype hnames.new_some hnames.len rfl hddir hdst fun _ => hfresh
  below _ := h.resolve_old htype hne hfresh
  other _ := h.resolve_other htype

theorem Retitled.fields (hr : Retitled a dp i ip new a') (x : Nat) :
    (a'.node x).type = (a.node x).type ∧ (a'.node x).nlink = (a.node x).nlink ∧
      (a'.node x).slots = (a.node x).slots := by
  by_cases hx : x = dp
  · rw [hx, hr.parent]
    exact ⟨rfl, rfl, rfl⟩
  · rw [hr.others x hx]
    exact ⟨rfl, rfl, rfl⟩

namespace Retitles

variable {old new : List UInt8} (hr : Retitled a dp i ip new a')
include hr

/-- An entry that has got another name stands for the old name, unless the name was taken. -/
theorem renamed_iff (ht : a.Tree n) (hdp : (a.node dp).type = FileType.T_DIR)
    (he : ∃ e, (a.node dp).dir[i]? = some e ∧ e.Proper ∧ e.str = old ∧ e.inum.toNat = ip)
    (hfits : FitsEntry ip new) :
    Renamed a a' (dp, old) (dp, new) ip ↔ new ≠ old → lookupEntry (a.node dp).dir new = none := by
  obtain ⟨e, hi, hproper, hstr, hip⟩ := he
  constructor
  · intro hren hne
    by_contra htaken
    obtain ⟨y, hy⟩ := Option.ne_none_iff_exists'.mp htaken
    obtain ⟨e', he', hlive', hstr', -⟩ := lookupEntry_mem hy
    obtain ⟨j, hj⟩ := List.mem_iff_getElem?.mp he'
    have hji : i ≠ j := by
      rintro rfl
      rw [hi] at hj
      cases hj
      exact hne (hstr'.symm.trans hstr)
    -- both entries have the name now
    have huniq := hren.unique dp hdp
    rw [hr.parent] at huniq
    have hset := List.getElem?_set_self (a := ⟨UInt16.ofNat ip, strncpy new⟩)
      (List.getElem?_eq_some_iff.mp hi).1
    refine hji (huniq.index_eq hset ((List.getElem?_set_ne hji).trans hj) hfits.entry.1 hlive' ?_).symm
    rw [hstr', hfits.entry.2.2]
  · intro hfresh
    have hproper' : new ≠ [46] ∧ new ≠ [46, 46] := by
      by_cases heq : new = old
      · exact heq ▸ hstr ▸ hproper.2
      · exact ht.ordered.fresh_proper hdp (hfresh heq)
    have hret : Retitles n a dp i ip old new :=
      ⟨ht, hdp, ⟨e, hi, hproper, hstr, hip⟩, hfits, hproper', hfresh⟩
    refine ⟨fun x nm hx => ?_, (hret.rearranged hr).unique⟩
    rw [hret.lookup hr hx]
    simp only [Prod.mk.injEq]

end Retitles

namespace Relocates

variable {old new : List UInt8} {c : DirEntry} (h : Relocates n a src i ip dst old new)
  (hr : Relocated a src i ip dst new c a')
include h hr

/-- The way back stays as it was. -/
theorem up_eq (htype : (a.node x).type = FileType.T_DIR) : a'.up x = a.up x := by
  obtain ⟨e, he, hlive, hstr, hup⟩ := h.tree.dotdot_entry htype
  rcases h.entry_left hr he hlive with he' | ⟨-, -, hproper, -⟩
  · rw [← hup, AbsFs.up, entryInum, List.getD_eq_getElem?_getD, he']
    rfl
  · exact absurd hstr hproper.2.2

/-- An entry that has been moved stands for the old name, unless what has come to its place names
something. -/
theorem renamed_iff (hc : c = (a.node src).dir.getD ((a.node src).dir.length - 1) .zero) :
    Renamed a a' (src, old) (dst, new) ip ↔ ¬c.Live := by
  obtain ⟨e, hi, hproper, hstr, hip⟩ := h.entry
  obtain ⟨hlt, rfl⟩ := List.getElem?_eq_some_iff.mp hi
  constructor
  · intro hren hlive
    have huniq := hren.unique src h.source
    have hold := hren.lookup src old h.source
    rw [if_neg fun heq => h.ne (congrArg Prod.fst heq), if_pos rfl, hr.source] at hold
    rw [hr.source] at huniq
    rw [List.getD_eq_getElem _ _ (by omega)] at hc
    by_cases hlast : (a.node src).dir.length - 1 = i
    · -- the entry is the last one, and stays
      rw [lookupEntry_eq_none, findEntry_eq_none] at hold
      simp only [hlast] at hc
      exact hold c (List.mem_set hlt c) ⟨hlive, hc ▸ hstr⟩
    · -- the last entry is there twice
      have hset := List.getElem?_set_self (a := c) hlt
      refine hlast (huniq.index_eq hset ?_ hlive hlive rfl)
      rw [List.getElem?_set_ne (Ne.symm hlast), hc]
      exact List.getElem?_eq_getElem _
  · intro hdead
    refine ⟨fun x nm hx => ?_, fun x hx => h.unique hr hdead hx⟩
    rw [h.lookup hr hdead hx]
    simp only [Prod.mk.injEq]

end Relocates

/-! ### Free blocks -/

/-- The blocks of inode `x`. -/
def AbsFs.blocks (a : AbsFs) (x : Nat) : Finset Nat :=
  ((Finset.range NSLOT).image (a.node x).slots).erase 0

theorem AbsFs.mem_blocks : b ∈ a.blocks x ↔ b ≠ 0 ∧ ∃ k < NSLOT, (a.node x).slots k = b := by
  simp [AbsFs.blocks]

/-- The free blocks depend on the blocks of the allocated inodes. -/
theorem AbsFs.free_blocks_congr (hslots : ∀ x, (a'.Alloc x ↔ a.Alloc x) ∧
    (a.Alloc x → (a'.node x).slots = (a.node x).slots)) : a'.free_blocks sb = a.free_blocks sb := by
  ext b
  simp only [AbsFs.free_blocks, Finset.mem_filter, Finset.mem_range]
  refine and_congr_right fun _ => and_congr_right fun _ => forall₂_congr fun x _ => ?_
  rw [(hslots x).1]
  refine forall_congr' fun hx => ?_
  rw [(hslots x).2 hx]

/-- No block is in two inodes. -/
theorem Wf.slot_inj (h : Wf sb s) (hx : (s.abs sb).Alloc x)
    (hy : (s.abs sb).Alloc y) (hb : b ∈ (s.abs sb).blocks x) (hb' : b ∈ (s.abs sb).blocks y) :
    x = y := by
  obtain ⟨hne, k, hk, rfl⟩ := AbsFs.mem_blocks.mp hb
  obtain ⟨-, l, hl', heq⟩ := AbsFs.mem_blocks.mp hb'
  have hlx := alloc_lt hx
  have hly := alloc_lt hy
  rw [abs_slots hx] at heq hne
  rw [abs_slots hy] at heq
  rw [AbsFs.Alloc, abs_type hlx] at hx
  rw [AbsFs.Alloc, abs_type hly] at hy
  exact congrArg Prod.fst (h.tidy.owned.part.inj (i := (x, k)) (j := (y, l))
    ⟨⟨hlx, hx⟩, hk, rfl, hne⟩ ⟨⟨hly, hy⟩, hl', heq, hne⟩)

/-- Where one inode is freed and nothing else changes, the free blocks grow by its blocks. -/
theorem Wf.free_blocks_freed (hl : Layout sb) (h : Wf sb s) (hx : (s.abs sb).Alloc x)
    (hfree : ¬a'.Alloc x) (hslots : ∀ y, y ≠ x → (a'.Alloc y ↔ (s.abs sb).Alloc y) ∧
      (a'.node y).slots = ((s.abs sb).node y).slots) :
    a'.free_blocks sb = (s.abs sb).free_blocks sb ∪ (s.abs sb).blocks x := by
  ext b
  simp only [AbsFs.free_blocks, Finset.mem_union, Finset.mem_filter, Finset.mem_range]
  constructor
  · rintro ⟨hlt, hdata, hall⟩
    by_cases hb : b ∈ (s.abs sb).blocks x
    · exact .inr hb
    · refine .inl ⟨hlt, hdata, fun y hy hal k hk heq => ?_⟩
      by_cases hyx : y = x
      · subst hyx
        exact hb (AbsFs.mem_blocks.mpr ⟨hl.data_pos ⟨hdata, hlt⟩, k, hk, heq⟩)
      · refine hall y hy ((hslots y hyx).1.mpr hal) k hk ?_
        rw [(hslots y hyx).2, heq]
  · intro hb
    have hrange : b < sb.size ∧ sb.datastart ≤ b := by
      rcases hb with hb | hb
      · exact ⟨hb.1, hb.2.1⟩
      · obtain ⟨hne, k, hk, rfl⟩ := AbsFs.mem_blocks.mp hb
        have hlx := alloc_lt hx
        rw [abs_slots hx] at hne ⊢
        rw [AbsFs.Alloc, abs_type hlx] at hx
        have hdata := h.tidy.owned.data (x, k) _ ⟨⟨hlx, hx⟩, hk, rfl, hne⟩
        exact ⟨hdata.2, hdata.1⟩
    refine ⟨hrange.1, hrange.2, fun y hy hal k hk heq => ?_⟩
    have hyx : y ≠ x := fun heq => hfree (heq ▸ hal)
    have hal0 := (hslots y hyx).1.mp hal
    rw [(hslots y hyx).2] at heq
    rcases hb with hb | hb
    · exact hb.2.2 y hy hal0 k hk heq
    · refine hyx (h.slot_inj hal0 hx (AbsFs.mem_blocks.mpr ⟨?_, k, hk, heq⟩) hb)
      exact hl.data_pos ⟨hrange.2, hrange.1⟩

/-- No inode has other blocks. -/
theorem AbsFs.free_blocks_of_slots (htype : ∀ x, (a'.node x).type = (a.node x).type)
    (hslots : ∀ x, (a'.node x).slots = (a.node x).slots) : a'.free_blocks sb = a.free_blocks sb :=
  AbsFs.free_blocks_congr fun x => ⟨by rw [AbsFs.Alloc, AbsFs.Alloc, htype], fun _ => hslots x⟩

/-- The free blocks when a transaction has changed no blocks. -/
theorem Wf.free_blocks_kept (hl : Layout sb) (h : Wf sb s) (h' : Wf sb s')
    (htype : ∀ x, ((s'.abs sb).node x).type = ((s.abs sb).node x).type)
    (hslots : ∀ x, ((s'.abs sb).node x).slots = ((s.abs sb).node x).slots) :
    s'.free_blocks sb = s.free_blocks sb := by
  rw [h'.free_blocks_eq hl, h.free_blocks_eq hl, AbsFs.free_blocks_of_slots htype hslots]

/-! ### `do_unlink` -/

/-- The blocks that are freed with the entry. -/
def AbsFs.freed (a : AbsFs) (ip : Nat) : Finset Nat :=
  if (a.node ip).nlink = 1 ∧ a.ref ip = 0 then a.blocks ip else ∅

theorem Removed.free_blocks (hl : Layout sb) (hwf : Wf sb s) (hr : Removed (s.abs sb) dp i ip a')
    (h : Shrinks n (s.abs sb) dp i ip name) :
    a'.free_blocks sb = (s.abs sb).free_blocks sb ∪ (s.abs sb).freed ip := by
  have hslots : ∀ y, y ≠ ip → (a'.Alloc y ↔ (s.abs sb).Alloc y) ∧
      (a'.node y).slots = ((s.abs sb).node y).slots := by
    intro y hy
    refine ⟨hr.alloc_iff hy, ?_⟩
    by_cases hd : y = dp
    · rw [hd, hr.parent]
    · rw [hr.others y hd hy]
  unfold AbsFs.freed
  split
  · next hlast =>
    refine hwf.free_blocks_freed hl h.alloc ?_ hslots
    rw [AbsFs.Alloc, hr.freed hlast.1 hlast.2]
    exact not_not.mpr rfl
  · next hkept =>
    rw [Finset.union_empty]
    refine AbsFs.free_blocks_congr fun y => ?_
    by_cases hy : y = ip
    · rw [AbsFs.Alloc, AbsFs.Alloc, hy, hr.left hkept]
      exact ⟨.rfl, fun _ => rfl⟩
    · exact ⟨(hslots y hy).1, fun _ => (hslots y hy).2⟩

theorem AbsFs.unlink_ref (hd : During a0 a [ip, dp]) (i : Nat) :
    (a.unlink dp i ip).ref = a0.ref := by
  funext x
  have hset : ((if (a.node ip).type = FileType.T_DIR then
      (a.setEntry dp i .zero).setLinks dp ((a.setEntry dp i .zero).links dp - 1)
      else a.setEntry dp i .zero) : AbsFs).ref = a.ref := by
    split <;> rfl
  have hlinks : ∀ (a1 : AbsFs) m, (a1.setLinks ip m).ref = a1.ref := fun _ _ => rfl
  have hx := hd.ref x
  rw [List.count_cons, List.count_singleton] at hx
  simp only [beq_iff_eq] at hx
  rw [AbsFs.unlink, AbsFs.put_ref, hlinks, AbsFs.put_ref, hset, hx]
  omega

/-- What `do_unlink` does to a tree. -/
theorem Unlinks.effect {r : Int} (h : Unlinks a path r a') (ht : a.Tree n) : a'.ref = a.ref ∧
    (r = -1 ∧ (∀ dp i, ¬a.Removable path dp i) ∧ a'.node = a.node ∨
    r = 0 ∧ ∃ dp i name, a.Removable path dp i ∧ resolveParent a.node path = some (dp, name) ∧
      Shrinks n a dp i (entryInum (a.node dp).dir i) name ∧
      Removed a dp i (entryInum (a.node dp).dir i) a') := by
  cases h with
  | refused hd hno => exact ⟨funext fun x => hd.ref x, .inl ⟨rfl, hno, hd.nodes_eq ht.not_doomed⟩⟩
  | removed hrem hd hopen hmem =>
    obtain ⟨name, hparent, -, hshrinks⟩ := hrem.shrinks ht
    exact ⟨AbsFs.unlink_ref hd _, .inr ⟨rfl, _, _, name, hrem, hparent, hshrinks,
      (hshrinks.unlink hd hopen hmem).1⟩⟩

/-! ### `op_rename` -/

/-- What a rename in one directory of a tree does. -/
theorem Renames.effect {r : Int} (h : Renames a source dest r a') (ht : a.Tree n) :
    (r ≠ 0 → a'.node = a.node) ∧
    (∀ dp, resolve a.node (Path.parent_path source) = some dp → (a.node dp).type = FileType.T_DIR →
      a.mem dp ≠ none → findEntry (a.node dp).dir (Path.filename source) ≠ none → r = 0) ∧
    (r = 0 → a'.ref = a.ref ∧ ∃ dp i, resolve a.node (Path.parent_path source) = some dp ∧
      (a.node dp).type = FileType.T_DIR ∧
      findEntry (a.node dp).dir (Path.filename source) = some i ∧
      Retitled a dp i (entryInum (a.node dp).dir i) (Path.filename dest) a') := by
  cases h with
  | no_parent hd hno =>
    refine ⟨fun _ => hd.nodes_eq ht.not_doomed, fun dp hdp => ?_, fun h0 => absurd h0 (by decide)⟩
    rw [hno] at hdp
    cases hdp
  | @unread _ dp hdp hd hno =>
    refine ⟨fun _ => hd.nodes_eq ht.not_doomed, fun dp' hdp' htype hmem _ => ?_,
      fun h0 => absurd h0 (by decide)⟩
    rw [hdp] at hdp'
    cases hdp'
    obtain ⟨m, hm⟩ := Option.ne_none_iff_exists'.mp hmem
    refine absurd ⟨?_, m, hd.kept dp m hm⟩ hno
    rw [hd.nodes_eq ht.not_doomed]
    exact htype
  | missing hdp hd hnone =>
    refine ⟨fun _ => hd.nodes_eq ht.not_doomed, fun dp' hdp' _ _ hfound => ?_,
      fun h0 => absurd h0 (by decide)⟩
    rw [hdp] at hdp'
    cases hdp'
    exact absurd hnone hfound
  | @renamed a1 dp i hdp hfind hd hopen =>
    refine ⟨fun h0 => absurd rfl h0, fun _ _ _ _ _ => rfl, fun _ => ?_⟩
    have htype := hopen.1
    rw [hd.nodes_eq ht.not_doomed] at htype
    obtain ⟨hretitled, href⟩ := Retitled.of_rename ht hd (findEntry_some hfind).1 (Path.filename dest)
    exact ⟨href, dp, i, hdp, htype, hfind, hretitled⟩

/-- What a rename from one directory of a tree to another does. -/
theorem Moves.effect {r : Int} (h : Moves sb a source dest r a') (ht : a.Tree n) :
    (r ≠ 0 → ∀ x, (a'.node x).type = (a.node x).type ∧ (a'.node x).nlink = (a.node x).nlink ∧
      (a'.node x).dir = (a.node x).dir) ∧
    (r = 0 → ∃ src dst i, resolve a.node (Path.parent_path source) = some src ∧
      resolve a.node (Path.parent_path dest) = some dst ∧
      (a.node src).type = FileType.T_DIR ∧ (a.node dst).type = FileType.T_DIR ∧
      findEntry (a.node src).dir (Path.filename source) = some i ∧
      findEntry (a.node dst).dir (Path.filename dest) = none ∧
      (src ≠ dst → a'.ref = a.ref ∧
        Relocated a src i (entryInum (a.node src).dir i) dst (Path.filename dest)
          ((a.node src).dir.getD ((a.node src).dir.length - 1) .zero) a')) := by
  have hkept : ∀ {a1 : AbsFs} {held : List Nat}, During a a1 held → ∀ x,
      (a1.node x).type = (a.node x).type ∧ (a1.node x).nlink = (a.node x).nlink ∧
        (a1.node x).dir = (a.node x).dir := by
    intro a1 held hd x
    rw [hd.nodes_eq ht.not_doomed]
    exact ⟨rfl, rfl, rfl⟩
  cases h with
  | no_source hd _ => exact ⟨fun _ => hkept hd, fun h0 => absurd h0 (by decide)⟩
  | unread_source _ hd _ => exact ⟨fun _ => hkept hd, fun h0 => absurd h0 (by decide)⟩
  | no_dest _ hd _ => exact ⟨fun _ => hkept hd, fun h0 => absurd h0 (by decide)⟩
  | unread_dest _ _ _ _ hd => exact ⟨fun _ => hkept hd, fun h0 => absurd h0 (by decide)⟩
  | missing _ _ hd _ => exact ⟨fun _ => hkept hd, fun h0 => absurd h0 (by decide)⟩
  | @not_linked a1 a2 src dst i _ _ _ hd _ hopen' hlinked =>
    refine ⟨fun _ x => ?_, fun h0 => absurd h0 (by decide)⟩
    obtain ⟨ht2, -, hfields⟩ := (ht.during hd).not_linked hopen'.1 hlinked
    -- what is held has links, and so the ends of the references free nothing
    have hputs := AbsFs.puts_node (a := a2) (l := [entryInum (a.node src).dir i, src, dst])
      fun x hx hm => by
        have hreached := hd.reached x (((List.Perm.swap dst src []).cons _).mem_iff.mp hx)
        have hlinks := ht2.clean.synced x 0 hm
        rw [(hfields x).2.1, (hkept hd x).2.1] at hlinks
        exact ht.not_reached hlinks.symm hreached
    have hx : ∀ y, (([entryInum (a.node src).dir i, src, dst].foldl AbsFs.put a2).node y) =
        a2.node y := congrFun hputs
    obtain ⟨htype, hnlink, hdir⟩ := hfields x
    obtain ⟨htype0, hnlink0, hdir0⟩ := hkept hd x
    refine ⟨?_, ?_, ?_⟩
    · exact (congrArg Node.type (hx x)).trans (htype.trans htype0)
    · exact (congrArg Node.nlink (hx x)).trans (hnlink.trans hnlink0)
    · exact (congrArg Node.dir (hx x)).trans (hdir.trans hdir0)
  | @moved a1 a2 src dst i hsrc hdst hfind hd hopen hopen' hlinked =>
    refine ⟨fun h0 => absurd rfl h0, fun _ => ?_⟩
    have htype := hopen.1
    have htype' := hopen'.1
    have hnone : findEntry (a1.node dst).dir (Path.filename dest) = none := by
      cases hlinked with
      | tried hnone _ => exact hnone
    rw [hd.nodes_eq ht.not_doomed] at htype htype' hnone
    refine ⟨src, dst, i, hsrc, hdst, htype, htype', hfind, hnone, fun hne => ?_⟩
    obtain ⟨hrelocated, href⟩ := Relocated.of_moved ht hd hne (findEntry_some hfind).1 hlinked
    exact ⟨href, hrelocated⟩

end Xv6fs
