import Xv6fs.Fs.FullNames

/-! Paths as lists of elements, and the walk over them: `inode_name` and `inode_name_parent` look the
elements up one after another, and leave everything as it was but for one reference. -/

namespace Xv6fs

open Program (Runs)

variable {sb : SuperBlock} {s s' s0 : Fs} {node : Nat → Node} {dir : List DirEntry}
  {path rest name c : List UInt8} {cs : List (List UInt8)} {x y ip fuel : Nat}

/-! ### The elements of a path -/

/-- What repeated calls of `skipelem` give.  Each leaves a shorter path. -/
def skipelems (path : List UInt8) : List (List UInt8) :=
  match hskip : skipelem path with
  | none => []
  | some (name, rest) =>
    have := skipelem_length hskip
    name :: skipelems rest
termination_by path.length

theorem skipelems_none (h : skipelem path = none) : skipelems path = [] := by
  rw [skipelems]
  split
  · rfl
  · next hsome =>
    rw [h] at hsome
    cases hsome

theorem skipelems_some (h : skipelem path = some (name, rest)) :
    skipelems path = name :: skipelems rest := by
  rw [skipelems]
  split
  · next hnone =>
    rw [h] at hnone
    cases hnone
  · next hsome =>
    rw [h] at hsome
    cases hsome
    rfl

namespace Path

@[simp] theorem elements_nil : elements [] = [] := rfl

theorem elements_append_slash (p q : List UInt8) :
    elements (p ++ SLASH :: q) = elements p ++ elements q := by
  rw [elements, elements, elements, List.splitOn_append_cons_self, List.filter_append]

theorem elements_slash (q : List UInt8) : elements (SLASH :: q) = elements q :=
  elements_append_slash [] q

/-- Bytes that are no slash are one element. -/
theorem elements_run {w : List UInt8} (hne : w ≠ []) (hw : SLASH ∉ w) : elements w = [w] := by
  rw [elements, List.splitOn_eq_singleton hw]
  simp [hne]

theorem elements_dropWhile (p : List UInt8) : elements (p.dropWhile (· == SLASH)) = elements p := by
  induction p with
  | nil => rfl
  | cons c p ih =>
    by_cases hc : c = SLASH
    · subst hc
      rw [List.dropWhile_cons_of_pos (by decide), ih, elements_slash]
    · rw [List.dropWhile_cons_of_neg (by simpa using hc)]

/-- The first run of a path that does not start with a slash. -/
theorem elements_takeWhile {p : List UInt8} (hw : p.takeWhile (· != SLASH) ≠ []) :
    elements p = p.takeWhile (· != SLASH) :: elements (p.dropWhile (· != SLASH)) := by
  have hno : SLASH ∉ p.takeWhile (· != SLASH) := fun hmem => by
    have := List.mem_takeWhile_imp hmem
    simp at this
  conv_lhs => rw [← List.takeWhile_append_dropWhile (p := (· != SLASH)) (l := p)]
  cases hq : p.dropWhile (· != SLASH) with
  | nil => rw [List.append_nil, elements_run hw hno, elements_nil]
  | cons d q =>
    have hd : d = SLASH := by
      have := List.head_dropWhile_not (· != SLASH) (l := p) (by rw [hq]; exact List.cons_ne_nil _ _)
      simpa only [hq, List.head_cons, bne_eq_false_iff_eq] using this
    subst hd
    rw [elements_append_slash, elements_run hw hno, elements_slash]
    rfl

end Path

/-- `skipelem` gives the first run of bytes other than slashes, cut, and leaves the others. -/
theorem skipelem_elements (path : List UInt8) :
    (skipelem path = none ∧ Path.elements path = []) ∨
      ∃ w rest, skipelem path = some (w.take DIRSIZ, rest) ∧
        Path.elements path = w :: Path.elements rest ∧ rest.head? ≠ some SLASH := by
  rw [← Path.elements_dropWhile]
  unfold skipelem
  cases hd : path.dropWhile (· == SLASH) with
  | nil => exact .inl ⟨rfl, rfl⟩
  | cons c tail =>
    have hc : (c != SLASH) = true := by
      have := List.head_dropWhile_not (· == SLASH) (l := path)
        (by rw [hd]; exact List.cons_ne_nil _ _)
      simpa only [hd, List.head_cons, bne, Bool.not_eq_true'] using this
    have hw : (c :: tail).takeWhile (· != SLASH) ≠ [] := by
      rw [List.takeWhile_cons_of_pos (by exact hc)]
      exact List.cons_ne_nil _ _
    refine .inr ⟨_, _, rfl, ?_, ?_⟩
    · rw [Path.elements_takeWhile hw, Path.elements_dropWhile]
    · intro hhead
      have hlast := List.head?_dropWhile_not (· == SLASH) ((c :: tail).dropWhile (· != SLASH))
      rw [hhead] at hlast
      simp at hlast

/-- Repeated calls of `skipelem` give the runs of bytes other than slashes, each cut. -/
theorem skipelems_eq (path : List UInt8) :
    skipelems path = (Path.elements path).map (List.take DIRSIZ) := by
  induction hn : path.length using Nat.strongRecOn generalizing path with
  | ind n ih =>
    subst hn
    rcases skipelem_elements path with ⟨hskip, helems⟩ | ⟨w, rest, hskip, helems, -⟩
    · rw [skipelems_none hskip, helems, List.map_nil]
    · rw [skipelems_some hskip, helems, List.map_cons, ih _ (skipelem_length hskip) rest rfl]

/-- Elements that are short enough are not cut. -/
theorem skipelems_short (h : ∀ c ∈ Path.elements path, c.length < DIRSIZ) :
    skipelems path = Path.elements path := by
  rw [skipelems_eq]
  conv_rhs => rw [← List.map_id (Path.elements path)]
  exact List.map_congr_left fun c hc => List.take_of_length_le (Nat.le_of_lt (h c hc))

/-- No element is left exactly when nothing is left. -/
theorem skipelems_rest (h : skipelem path = some (name, rest)) :
    skipelems rest = [] ↔ rest = [] := by
  constructor
  · intro hnil
    rcases skipelem_elements path with ⟨hskip, -⟩ | ⟨w, rest', hskip, -, hhead⟩
    · rw [h] at hskip
      cases hskip
    · rw [h] at hskip
      cases hskip
      cases hrest : skipelem rest with
      | some p =>
        rw [skipelems_some hrest] at hnil
        cases hnil
      | none =>
        cases rest with
        | nil => rfl
        | cons d rest =>
          have hd : (d == SLASH) = false := by simpa using hhead
          rw [skipelem, List.dropWhile_cons_of_neg (by rw [hd]; exact Bool.false_ne_true)] at hrest
          cases hrest
  · rintro rfl
    rw [skipelems_eq, Path.elements_nil, List.map_nil]

/-! ### The walk over the elements -/

/-- The inode that is found by looking up names one after another from inode `ip` on. -/
def descend (node : Nat → Node) : (ip : Nat) → (cs : List (List UInt8)) → Option Nat
  | ip, [] => some ip
  | ip, c :: cs =>
    if (node ip).type ≠ FileType.T_DIR then none
    else
      match lookupEntry (node ip).dir c with
      | none => none
      | some next => descend node next cs

/-- The directory that is found by all names but the last, and the last one. -/
def descendParent (node : Nat → Node) (ip : Nat) (cs : List (List UInt8)) :
    Option (Nat × List UInt8) :=
  match cs.getLast? with
  | none => none
  | some c =>
    match descend node ip cs.dropLast with
    | none => none
    | some dp => if (node dp).type ≠ FileType.T_DIR then none else some (dp, c)

/-- A walk fails exactly when a lookup fails or is attempted in an inode that is no directory. -/
theorem descend_eq_none : descend node ip cs = none ↔ ∃ pre c post x, cs = pre ++ c :: post ∧
    descend node ip pre = some x ∧
      ((node x).type ≠ FileType.T_DIR ∨ lookupEntry (node x).dir c = none) := by
  induction cs generalizing ip with
  | nil =>
    apply iff_of_false (by simp [descend])
    rintro ⟨pre, c, post, x, heq, -⟩
    simp at heq
  | cons c cs ih =>
    constructor
    · intro h
      by_cases hdir : (node ip).type = FileType.T_DIR
      · cases hnext : lookupEntry (node ip).dir c with
        | none => exact ⟨[], c, cs, ip, rfl, rfl, .inr hnext⟩
        | some next =>
          rw [descend, if_neg (not_not.mpr hdir), hnext] at h
          obtain ⟨pre, c', post, x, rfl, hx, hfail⟩ := ih.mp h
          refine ⟨c :: pre, c', post, x, rfl, ?_, hfail⟩
          rw [descend, if_neg (not_not.mpr hdir), hnext]
          exact hx
      · exact ⟨[], c, cs, ip, rfl, rfl, .inl hdir⟩
    · rintro ⟨pre, c', post, x, heq, hx, hfail⟩
      rw [descend]
      cases pre with
      | nil =>
        cases heq
        cases hx
        rcases hfail with hdir | hnone
        · rw [if_pos hdir]
        · rw [hnone]
          exact ite_self _
      | cons d pre =>
        cases heq
        rw [descend] at hx
        split at hx
        · cases hx
        · next hdir =>
          rw [if_neg hdir]
          cases hnext : lookupEntry (node ip).dir c with
          | none => rfl
          | some next =>
            rw [hnext] at hx
            exact ih.mpr ⟨pre, c', post, x, rfl, hx, hfail⟩

theorem descendParent_cons {d : List UInt8} : descendParent node ip (c :: d :: cs) =
    if (node ip).type ≠ FileType.T_DIR then none
    else
      match lookupEntry (node ip).dir c with
      | none => none
      | some next => descendParent node next (d :: cs) := by
  have hlast : (d :: cs).getLast? = some ((d :: cs).getLast (List.cons_ne_nil _ _)) :=
    List.getLast?_eq_some_getLast _
  rw [descendParent, List.getLast?_cons_cons, hlast, List.dropLast_cons_cons, descend]
  by_cases hdir : (node ip).type = FileType.T_DIR
  · rw [if_neg (not_not.mpr hdir), if_neg (not_not.mpr hdir)]
    cases lookupEntry (node ip).dir c with
    | none => rfl
    | some next =>
      dsimp only
      rw [descendParent, hlast]
  · rw [if_pos hdir, if_pos hdir]

/-- `resolve` walks over the elements of a path. -/
theorem resolve_loop_descend {name : List UInt8} (hfuel : path.length < fuel) :
    (resolve_loop node false fuel path name ip).map Prod.fst = descend node ip (skipelems path) := by
  induction fuel generalizing path name ip with
  | zero => omega
  | succ fuel ih =>
    rw [resolve_loop_succ]
    cases hskip : skipelem path with
    | none =>
      rw [skipelems_none hskip]
      rfl
    | some p =>
      obtain ⟨c, rest⟩ := p
      have hlt := skipelem_length hskip
      rw [skipelems_some hskip, descend]
      dsimp only
      split
      · rfl
      · rw [if_neg fun hp => Bool.false_ne_true hp.1]
        cases lookupEntry (node ip).dir c with
        | none => rfl
        | some next => exact ih (by omega)

theorem resolve_loop_descendParent {name : List UInt8} (hfuel : path.length < fuel) :
    resolve_loop node true fuel path name ip = descendParent node ip (skipelems path) := by
  induction fuel generalizing path name ip with
  | zero => omega
  | succ fuel ih =>
    rw [resolve_loop_succ]
    cases hskip : skipelem path with
    | none =>
      rw [skipelems_none hskip]
      rfl
    | some p =>
      obtain ⟨c, rest⟩ := p
      have hlt := skipelem_length hskip
      have hrest := skipelems_rest hskip
      rw [skipelems_some hskip]
      dsimp only
      cases helems : skipelems rest with
      | nil =>
        rw [if_pos (show true = true ∧ rest = [] from ⟨rfl, hrest.mp helems⟩)]
        rfl
      | cons d ds =>
        have hne : rest ≠ [] := fun h0 => by
          rw [hrest.mpr h0] at helems
          cases helems
        have hlast : ¬(true = true ∧ rest = []) := fun hp => hne hp.2
        rw [descendParent_cons, if_neg hlast]
        by_cases hdir : (node ip).type = FileType.T_DIR
        · rw [if_neg (not_not.mpr hdir), if_neg (not_not.mpr hdir)]
          cases lookupEntry (node ip).dir c with
          | none => rfl
          | some next =>
            dsimp only
            rw [← helems]
            exact ih (by omega)
        · rw [if_pos hdir, if_pos hdir]

/-! ### A walk of the process -/

/-- Inode `x` as `lock` shows it: its copy in memory, or else on disk. -/
def Fs.seen (sb : SuperBlock) (s : Fs) (x : Nat) : DiskINode :=
  if (s.inodes x).valid then (s.inodes x).dinode else s.dinode sb x

/-- What inode `x` is above its blocks. -/
def Fs.sees (sb : SuperBlock) (s : Fs) (x : Nat) : Node := nodeAt s.blocks (s.seen sb x)

/-- Lookups from the root on come to inode `x`. -/
inductive Reachable (node : Nat → Node) : Nat → Prop
  | root : Reachable node ROOTINO
  | entry {x y : Nat} {name : List UInt8} (hx : Reachable node x)
      (hdir : (node x).type = FileType.T_DIR) (h : lookupEntry (node x).dir name = some y) :
      Reachable node y

/-- The directories that can be reached are in order: they have no holes, they and all that they name
is allocated and has links, and nobody has locked it. -/
structure Walkable (sb : SuperBlock) (s : Fs) : Prop where
  absent : ∀ x, (s.inodes x).ref = 0 → s.inodes x = .absent
  unlocked : ∀ x, Reachable (s.sees sb) x → (s.inodes x).locked = false
  alloc : ∀ x, Reachable (s.sees sb) x → (s.seen sb x).type ≠ FileType.Invalid
  links : ∀ x, Reachable (s.sees sb) x → (s.seen sb x).nlink ≠ 0
  solid : ∀ x, Reachable (s.sees sb) x → (s.seen sb x).type = FileType.T_DIR →
    Solid s.blocks (s.seen sb x)
  aligned : ∀ x, Reachable (s.sees sb) x → (s.seen sb x).type = FileType.T_DIR →
    (s.seen sb x).size.toNat % DIRENT_SIZE = 0

/-- Since `s0` nothing has changed but that there are references `held`, that inode `l` is locked,
and that inodes have been read. -/
structure Holding (sb : SuperBlock) (s0 s : Fs) (l : Option Nat) (held : List Nat) : Prop where
  blocks : s.blocks = s0.blocks
  log : s.log = s0.log
  outstanding : s.outstanding = s0.outstanding
  files : s.files = s0.files
  ref : ∀ x, (s.inodes x).ref = (s0.inodes x).ref + held.count x
  seen : ∀ x, s.seen sb x = s0.seen sb x
  locked : ∀ x, (s.inodes x).locked = (decide (l = some x) || (s0.inodes x).locked)
  absent : ∀ x, (s.inodes x).ref = 0 → s.inodes x = .absent

namespace Holding

variable {l : Option Nat} {held : List Nat} {t : List Event} {E : Fault → Prop}

theorem refl (h : Walkable sb s) : Holding sb s s none [] where
  blocks := rfl
  log := rfl
  outstanding := rfl
  files := rfl
  ref _ := rfl
  seen _ := rfl
  locked _ := rfl
  absent := h.absent

theorem trace (h : Holding sb s0 s l held) : Holding sb s0 { s with trace := t } l held :=
  ⟨h.blocks, h.log, h.outstanding, h.files, h.ref, h.seen, h.locked, h.absent⟩

theorem sees (h : Holding sb s0 s l held) (x : Nat) : s.sees sb x = s0.sees sb x := by
  rw [Fs.sees, Fs.sees, h.blocks, h.seen]

/-- A change of inode `x` in the cache that shows the same. -/
theorem set (h : Holding sb s0 s l held) {l' : Option Nat} {held' : List Nat} (x : Nat) (ip : INode)
    (href : ip.ref = (s0.inodes x).ref + held'.count x)
    (hcount : ∀ y, y ≠ x → held'.count y = held.count y)
    (hseen : (if ip.valid then ip.dinode else s.dinode sb x) = s.seen sb x)
    (hlocked : ip.locked = (decide (l' = some x) || (s0.inodes x).locked))
    (hothers : ∀ y, y ≠ x → decide (l' = some y) = decide (l = some y))
    (habsent : ip.ref = 0 → ip = .absent) :
    Holding sb s0 { s with trace := t, inodes := setAt s.inodes x ip } l' held' where
  blocks := h.blocks
  log := h.log
  outstanding := h.outstanding
  files := h.files
  ref y := by
    simp only [setAt_apply]
    split
    · next hy => rw [hy, href]
    · next hy => rw [hcount y hy, h.ref]
  seen y := by
    rw [← h.seen, Fs.seen]
    simp only [setAt_apply]
    split
    · next hy =>
      subst hy
      exact hseen
    · rfl
  locked y := by
    simp only [setAt_apply]
    split
    · next hy => rw [hy, hlocked]
    · next hy => rw [hothers y hy, h.locked]
  absent y := by
    simp only [setAt_apply]
    split
    · exact habsent
    · exact h.absent y

theorem found (h : Holding sb s0 s l held) (x off : Nat) :
    Holding sb s0 (s.found (some (x, off)) t) l (x :: held) := by
  refine h.set x _ ?_ (fun y hy => List.count_cons_of_ne (Ne.symm hy)) rfl (h.locked x)
    (fun _ _ => rfl) fun h0 => absurd h0 (Nat.succ_ne_zero _)
  rw [List.count_cons_self, h.ref, Nat.add_assoc]

theorem inode_get (h : Holding sb s0 s l held) (x : Nat) :
    Runs (inode_get x) s (fun _ s' => Holding sb s0 s' l (x :: held)) E :=
  h.found x 0 (t := s.trace)

theorem unlock (h : Holding sb s0 s (some x) held) (hx : x ∈ held)
    (hfree : (s0.inodes x).locked = false) :
    Runs (INode.unlock x) s (fun _ s' => Holding sb s0 s' none held) E := by
  have hcount : 0 < held.count x := List.count_pos_iff.mpr hx
  have href := h.ref x
  simp only [INode.unlock, mtx_unlock, modify_inode, record, Program.runs_bind, Program.runs_get,
    Program.runs_assert, Program.runs_modify]
  refine ⟨fun _ => ?_, fun hno => absurd (by omega) hno⟩
  refine h.set x _ (h.ref x) (fun _ _ => rfl) rfl hfree.symm (fun y hy => ?_) fun h0 => ?_
  · simp [Ne.symm hy]
  · exact absurd h0 (by dsimp only; omega)

theorem lock (h : Holding sb s0 s none held) (hx : x ∈ held)
    (hfree : (s0.inodes x).locked = false) (halloc : (s0.seen sb x).type ≠ FileType.Invalid) :
    Runs (INode.lock sb x) s (fun _ s' => Holding sb s0 s' (some x) held ∧
      (s'.inodes x).dinode = s0.seen sb x) E := by
  have hcount : 0 < held.count x := List.count_pos_iff.mpr hx
  have href := h.ref x
  have hunlocked : (s.inodes x).locked = false := by
    rw [h.locked, hfree]
    rfl
  simp only [INode.lock, mtx_lock, modify_inode, record, Program.runs_bind, Program.runs_get,
    Program.runs_assert, Program.runs_modify]
  refine ⟨fun _ => ⟨fun _ => ?_, fun hno => absurd hunlocked hno⟩, fun hno => absurd (by omega) hno⟩
  have hseen := h.seen x
  rw [Fs.seen] at hseen
  split
  · next hv =>
    rw [hv, if_neg Bool.false_ne_true] at hseen
    simp only [Program.runs_bind, Program.runs_modify, Program.runs_assert, setAt_self, setAt_setAt]
    refine ⟨fun _ => ⟨?_, hseen⟩, fun hno => absurd (hseen ▸ halloc) hno⟩
    refine h.set x _ href (fun _ _ => rfl) ?_ ?_ (fun y hy => ?_) fun h0 => ?_
    · rw [if_pos rfl, hseen, h.seen]
    · simp
    · simp [Ne.symm hy]
    · exact absurd h0 (by dsimp only; omega)
  · next hv =>
    have hv : (s.inodes x).valid = true := by simpa using hv
    rw [if_pos hv] at hseen
    refine ⟨?_, ?_⟩
    · refine h.set x _ href (fun _ _ => rfl) rfl ?_ (fun y hy => ?_) fun h0 => ?_
      · simp
      · simp [Ne.symm hy]
      · exact absurd h0 (by dsimp only; omega)
    · dsimp only
      rw [setAt_self, hseen]

/-- A reference ends, and the inode has links. -/
theorem inode_put (h : Holding sb s0 s none held) (h0 : Walkable sb s0) (hx : x ∈ held)
    (hfree : (s0.inodes x).locked = false) (hlinks : (s0.seen sb x).nlink ≠ 0) :
    Runs (inode_put sb x) s (fun _ s' => Holding sb s0 s' none (held.erase x)) E := by
  have hcount : 0 < held.count x := List.count_pos_iff.mpr hx
  have href := h.ref x
  have hseen := h.seen x
  rw [Fs.seen] at hseen
  have hkeep : ¬((s.inodes x).ref = 1 ∧ (s.inodes x).valid = true ∧
      (s.inodes x).dinode.nlink = 0) := by
    rintro ⟨-, hv, hzero⟩
    rw [if_pos hv] at hseen
    exact hlinks (hseen ▸ hzero)
  rw [Xv6fs.inode_put, Program.runs_bind, Program.runs_get]
  dsimp only
  rw [if_neg hkeep, inode_drop, modify_inode, Program.runs_modify]
  have hothers : ∀ y, y ≠ x → (held.erase x).count y = held.count y :=
    fun y hy => List.count_erase_of_ne hy
  have hself : (held.erase x).count x = held.count x - 1 := List.count_erase_self
  split
  · next hlast =>
    refine h.set x _ ?_ hothers ?_ ?_ (fun _ _ => rfl) fun _ => rfl
    · rw [hself]
      show 0 = _
      omega
    · have hzero := h0.absent x (by omega)
      rw [h.seen, Fs.seen, hzero]
      show s.dinode sb x = s0.dinode sb x
      rw [Fs.dinode, Fs.dinode, h.blocks]
    · rw [hfree]
      rfl
  · next hmore =>
    refine h.set x _ ?_ hothers rfl (h.locked x) (fun _ _ => rfl) fun hzero => absurd hzero hmore
    dsimp only
    omega

end Holding

/-- `dirlookup` of a short name in a directory that has been locked. -/
theorem Holding.dirlookup {l : Option Nat} {held : List Nat} {E : Fault → Prop}
    (h : Holding sb s0 s l held) (h0 : Walkable sb s0) (hx : Reachable (s0.sees sb) x)
    (hdip : (s.inodes x).dinode = s0.seen sb x) (hdir : (s0.sees sb x).type = FileType.T_DIR)
    (hname : name.length < DIRSIZ) :
    Runs (INode.dirlookup sb x name) s (fun r s' =>
      r.map Prod.fst = lookupEntry (s0.sees sb x).dir name ∧
        Holding sb s0 s' l (r.toList.map Prod.fst ++ held)) E := by
  have htype : (s0.seen sb x).type = FileType.T_DIR := by
    rwa [Fs.sees, nodeAt_type] at hdir
  have hentries : (s0.sees sb x).dir = entriesAt s.blocks (s.inodes x).dinode := by
    rw [Fs.sees, nodeAt_dir htype, h.blocks, hdip]
  have hlist : Listing s x (s0.sees sb x).dir := by
    refine ⟨hdip ▸ htype, ?_, ?_, hentries.symm⟩
    · rw [hdip, h.blocks]
      exact h0.solid x hx htype
    · rw [hdip]
      exact h0.aligned x hx htype
  refine (hlist.dirlookup (Nat.le_of_lt hname)).mono ?_ fun e he => ?_
  · rintro r s' ⟨hr, t, hs'⟩
    rw [lookupResult] at hr
    rw [lookupEntry, hs']
    split at hr
    · next hnone =>
      cases hr
      rw [hnone]
      exact ⟨rfl, h.trace⟩
    · next i hi =>
      rw [if_neg (Nat.ne_of_lt hname)] at hr
      cases hr
      rw [hi]
      exact ⟨rfl, h.found _ _⟩
  · rw [lookupResult] at he
    split at he
    · cases he
    · rw [if_neg (Nat.ne_of_lt hname)] at he
      cases he

/-- `inode_unlock_put` of an inode that the walk leaves. -/
theorem Holding.unlock_put {held : List Nat} {E : Fault → Prop}
    (h : Holding sb s0 s (some x) held) (h0 : Walkable sb s0) (hx : x ∈ held)
    (hreach : Reachable (s0.sees sb) x) :
    Runs (inode_unlock_put sb x) s (fun _ s' => Holding sb s0 s' none (held.erase x)) E :=
  (h.unlock hx (h0.unlocked x hreach)).bind fun _ _ h1 =>
    h1.inode_put h0 hx (h0.unlocked x hreach) (h0.links x hreach)

/-- The loop of `inode_name_x` walks as `resolve` does. -/
theorem Holding.inode_name_loop {E : Fault → Prop} (h0 : Walkable sb s0) (nameiparent : Bool)
    (hip : Reachable (s0.sees sb) ip) (hfuel : path.length < fuel)
    (hshort : ∀ c ∈ skipelems path, c.length < DIRSIZ) (h : Holding sb s0 s none [ip]) :
    Runs (inode_name_loop sb nameiparent fuel path name ip) s (fun r s' =>
      r = resolve_loop (s0.sees sb) nameiparent fuel path name ip ∧
        Holding sb s0 s' none (r.toList.map Prod.fst)) E := by
  induction fuel generalizing s path name ip with
  | zero => omega
  | succ fuel ih =>
    rw [Xv6fs.inode_name_loop, resolve_loop_succ]
    have hlocked := h0.unlocked ip hip
    have hlinks := h0.links ip hip
    cases hskip : skipelem path with
    | none =>
      dsimp only
      by_cases hparent : nameiparent = true
      · rw [if_pos hparent, if_pos hparent]
        refine (h.inode_put h0 List.mem_cons_self hlocked hlinks).bind fun _ s1 h1 => ⟨rfl, ?_⟩
        rwa [List.erase_cons_head] at h1
      · rw [if_neg hparent, if_neg hparent]
        exact ⟨rfl, h⟩
    | some p =>
      obtain ⟨c, rest⟩ := p
      have hlt := skipelem_length hskip
      rw [skipelems_some hskip] at hshort
      dsimp only
      refine (h.lock List.mem_cons_self hlocked (h0.alloc ip hip)).bind ?_
      rintro _ s1 ⟨h1, hdip⟩
      have htype : (s1.inodes ip).dinode.type = (s0.sees sb ip).type := by
        rw [hdip, Fs.sees, nodeAt_type]
      have leave : ∀ {s2 : Fs}, Holding sb s0 s2 (some ip) [ip] →
          Runs (do inode_unlock_put sb ip; pure none) s2
            (fun (r : Option (Nat × List UInt8)) s' => r = none ∧
              Holding sb s0 s' none (r.toList.map Prod.fst)) E := by
        intro s2 h2
        refine (h2.unlock_put h0 List.mem_cons_self hip).bind fun _ s3 h3 => ⟨rfl, ?_⟩
        rwa [List.erase_cons_head] at h3
      rw [Program.runs_bind, Program.runs_get, htype]
      by_cases hdir : (s0.sees sb ip).type = FileType.T_DIR
      · rw [if_neg (not_not.mpr hdir), if_neg (not_not.mpr hdir)]
        by_cases hlast : nameiparent ∧ rest = []
        · rw [if_pos hlast, if_pos hlast]
          exact (h1.unlock List.mem_cons_self hlocked).bind fun _ s2 h2 => ⟨rfl, h2⟩
        · rw [if_neg hlast, if_neg hlast]
          refine (h1.dirlookup h0 hip hdip hdir (hshort c List.mem_cons_self)).bind ?_
          rintro r s2 ⟨hr, h2⟩
          cases r with
          | none =>
            rw [← hr]
            exact leave h2
          | some q =>
            obtain ⟨next, off⟩ := q
            rw [← hr]
            have hnext : Reachable (s0.sees sb) next := .entry hip hdir hr.symm
            refine (h2.unlock_put h0 (List.mem_cons_of_mem _ List.mem_cons_self) hip).bind
              fun _ s3 h3 => ?_
            have herase : [next, ip].erase ip = [next] := by
              rw [List.erase_cons]
              split
              · next heq => rw [beq_iff_eq.mp heq]
              · rw [List.erase_cons_head]
            rw [show (some (next, off)).toList.map Prod.fst ++ [ip] = [next, ip] from rfl, herase] at h3
            exact ih hnext (by omega) (fun c' hc' => hshort c' (List.mem_cons_of_mem _ hc')) h3
      · rw [if_pos hdir, if_pos hdir]
        exact leave h1

theorem Walkable.inode_name_x {E : Fault → Prop} (h : Walkable sb s) (nameiparent : Bool)
    (hslash : path.head? = some SLASH) (hshort : ∀ c ∈ Path.elements path, c.length < DIRSIZ) :
    Runs (inode_name_x sb path nameiparent) s (fun r s' =>
      r = resolve_loop (s.sees sb) nameiparent (path.length + 1) path [] ROOTINO ∧
        Holding sb s s' none (r.toList.map Prod.fst)) E := by
  rw [Xv6fs.inode_name_x, Program.runs_bind, Program.runs_assert]
  refine ⟨fun _ => ?_, fun hno => absurd hslash hno⟩
  refine ((Holding.refl h).inode_get ROOTINO).bind fun _ s1 h1 => ?_
  rw [← skipelems_short hshort] at hshort
  exact h1.inode_name_loop h nameiparent .root (Nat.lt_succ_self _) hshort

/-- `inode_name` finds what the elements lead to. -/
theorem Walkable.inode_name {E : Fault → Prop} (h : Walkable sb s)
    (hslash : path.head? = some SLASH) (hshort : ∀ c ∈ Path.elements path, c.length < DIRSIZ) :
    Runs (inode_name sb path) s (fun r s' =>
      r = descend (s.sees sb) ROOTINO (Path.elements path) ∧ Holding sb s s' none r.toList) E := by
  refine (h.inode_name_x false hslash hshort).bind ?_
  rintro r s1 ⟨hr, h1⟩
  refine ⟨?_, ?_⟩
  · rw [hr, resolve_loop_descend (Nat.lt_succ_self _), skipelems_short hshort]
  · cases r <;> exact h1

/-- `inode_name_parent` finds the directory of the last element. -/
theorem Walkable.inode_name_parent {E : Fault → Prop} (h : Walkable sb s)
    (hslash : path.head? = some SLASH) (hshort : ∀ c ∈ Path.elements path, c.length < DIRSIZ) :
    Runs (inode_name_parent sb path) s (fun r s' =>
      r = descendParent (s.sees sb) ROOTINO (Path.elements path) ∧
        Holding sb s s' none (r.toList.map Prod.fst)) E := by
  refine (h.inode_name_x true hslash hshort).imp ?_
  rintro r s1 ⟨hr, h1⟩
  refine ⟨?_, h1⟩
  rw [hr, resolve_loop_descendParent (Nat.lt_succ_self _), skipelems_short hshort]

/-! ### Path resolution -/

/-- The run of `m` from `s` returns `r`, with one reference more to the inode in it, and leaves the
rest of the process and what each inode shows as they were. -/
def Resolves (sb : SuperBlock) {α : Type} (m : Prog (Option α)) (s : Fs) (inum : α → Nat)
    (r : Option α) : Prop :=
  ∃ s', m s = .ok (r, s') ∧
    (∀ x, (s'.inodes x).ref = (s.inodes x).ref + if r.map inum = some x then 1 else 0) ∧
    (∀ x, (s'.inodes x).locked = (s.inodes x).locked) ∧ (∀ x, s'.seen sb x = s.seen sb x) ∧
    s'.blocks = s.blocks ∧ s'.log = s.log ∧ s'.outstanding = s.outstanding ∧ s'.files = s.files

theorem Resolves.of_runs {α : Type} {m : Prog (Option α)} {inum : α → Nat} {r : Option α}
    (h : Runs m s (fun r' s' => r' = r ∧ Holding sb s s' none (r'.toList.map inum))
      fun _ => False) : Resolves sb m s inum r := by
  obtain ⟨r', s', hrun, rfl, hs'⟩ := h.returns
  refine ⟨s', hrun, fun x => ?_, fun x => ?_, hs'.seen, hs'.blocks, hs'.log, hs'.outstanding,
    hs'.files⟩
  · rw [hs'.ref]
    cases r' with
    | none => rfl
    | some v => simp [List.count_singleton]
  · rw [hs'.locked]
    rfl

/-- `inode_name_parent` finds nothing exactly when there is no name, the walk over all but the last
fails, or it ends at an inode that is no directory. -/
theorem descendParent_eq_none : descendParent node ip cs = none ↔ cs = [] ∨
    descend node ip cs.dropLast = none ∨
      ∃ dp, descend node ip cs.dropLast = some dp ∧ (node dp).type ≠ FileType.T_DIR := by
  rw [descendParent]
  cases hlast : cs.getLast? with
  | none => exact iff_of_true rfl (.inl (List.getLast?_eq_none_iff.mp hlast))
  | some c =>
    have hne : cs ≠ [] := by
      rintro rfl
      cases hlast
    cases hdp : descend node ip cs.dropLast with
    | none => simp
    | some dp =>
      dsimp only
      split
      · next hdir => simp [hdir]
      · next hdir => simp [hne, hdir]

theorem Wf.seen_eq (h : Wf sb s) (x : Nat) :
    s.seen sb x = { s.dinode sb x with nlink := (s.seen sb x).nlink } := by
  rw [Fs.seen]
  split
  · next hv => exact (h.cached x).synced hv
  · rfl

theorem Wf.sees_type (h : Wf sb s) (hx : x < sb.ninodes) :
    (s.sees sb x).type = ((s.abs sb).node x).type := by
  rw [Fs.sees, nodeAt_type, h.seen_eq, abs_type hx]

/-- A directory shows the entries that it has on disk. -/
theorem Wf.sees_dir (h : Wf sb s) (hx : x < sb.ninodes)
    (hdir : ((s.abs sb).node x).type = FileType.T_DIR) :
    (s.sees sb x).dir = ((s.abs sb).node x).dir := by
  have hdisk : (s.dinode sb x).type = FileType.T_DIR := by rwa [← abs_type hx]
  rw [abs_node hx, nodeAt_dir hdisk, Fs.sees, Fs.seen]
  split
  · next hv =>
    rw [nodeAt_dir (by rw [h.type_eq hv, hdir])]
    exact entriesAt_congr (h.size_eq hv) (h.fbyte_eq hv)
  · rw [nodeAt_dir hdisk]

/-- The state between two operations allows every walk. -/
theorem Wf.walkable (h : Wf sb s) (ho : (s.abs sb).Ordered sb.ninodes)
    (hlocked : ∀ x, (s.inodes x).locked = false) : Walkable sb s := by
  have hreach : ∀ x, Reachable (s.sees sb) x → (s.abs sb).Reached x ∧ (s.abs sb).Alloc x := by
    intro x hx
    induction hx with
    | root =>
      refine ⟨.root, ?_⟩
      rw [AbsFs.Alloc, ho.root]
      decide
    | @entry x y name _ hdir hlook ih =>
      have hlt := alloc_lt ih.2
      rw [h.sees_type hlt] at hdir
      rw [h.sees_dir hlt hdir] at hlook
      obtain ⟨e, he, hlive, -, rfl⟩ := lookupEntry_mem hlook
      exact ⟨ih.1.lookup hdir hlook, ho.named x hdir e he hlive⟩
  have hlt : ∀ x, Reachable (s.sees sb) x → x < sb.ninodes := fun x hx => alloc_lt (hreach x hx).2
  have hdisk : ∀ x, (s.seen sb x).type = FileType.T_DIR → (s.dinode sb x).type = FileType.T_DIR := by
    intro x hdir
    rwa [h.seen_eq] at hdir
  refine ⟨fun x hx => h.absent hx, fun x _ => hlocked x, fun x hx => ?_, fun x hx => ?_,
    fun x hx hdir => ?_, fun x hx hdir => ?_⟩
  · have halloc := (hreach x hx).2
    rw [AbsFs.Alloc, abs_type (hlt x hx)] at halloc
    rwa [h.seen_eq]
  · have hlinks := ho.nlink_ne (fun _ => alloc_lt) (hreach x hx).1
    rw [Fs.seen]
    split
    · next hv =>
      rwa [(ho.cached x (h.valid_ref hv)).2 _ (abs_mem_valid sb hv)]
    · rwa [abs_nlink (hlt x hx)] at hlinks
  · have hsolid := h.tidy.solid x (hlt x hx) (hdisk x hdir)
    rw [Fs.seen] at hdir ⊢
    split
    · next hv =>
      rw [if_pos hv] at hdir
      exact (h.dir hdir).solid
    · exact hsolid
  · rw [h.seen_eq]
    exact h.tidy.aligned x (hlt x hx) (hdisk x hdir)

end Xv6fs
