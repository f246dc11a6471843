import Xv6fs.Fs.Create

/-! The names of a file system: what a directory names, the lookups of a walk, and walks in two file
systems. -/

namespace Xv6fs

variable {sb : SuperBlock} {s s' : Fs} {dir : List DirEntry} {e : DirEntry} {name nm path : List UInt8} {inum x y d : Nat}
  {node node' : Nat → Node} {a : AbsFs}

/-! ### The names in a directory -/

/-- What `strncpy` copies is read back, when it fits. -/
theorem str_strncpy (v : UInt16) (hlen : name.length ≤ DIRSIZ) (hnul : 0 ∉ name) :
    (DirEntry.mk v (strncpy name)).str = name := by
  have hlength := (strncpy name).length_eq
  have hdata : (strncpy name).data = name ++ List.replicate (DIRSIZ - name.length) 0 := by
    apply List.ext_getElem
    · rw [hlength, List.length_append, List.length_replicate]
      omega
    · intro i h1 h2
      have hget : (strncpy name).get i = name.getD i 0 := Bytes.Buffer.get_ofSource _ (hlength ▸ h1)
      rw [Bytes.Buffer.get, List.getD_eq_getElem _ _ h1] at hget
      rw [hget, List.getElem_append]
      split
      · next h => exact List.getD_eq_getElem _ _ h
      · next h => rw [List.getElem_replicate, List.getD_eq_default _ _ (Nat.le_of_not_lt h)]
  rw [DirEntry.str, hdata, List.takeWhile_append_of_pos]
  · cases hk : DIRSIZ - name.length with
    | zero => simp
    | succ k => simp [List.replicate_succ]
  · intro c hc
    have hne : c ≠ 0 := fun h0 => hnul (h0 ▸ hc)
    simpa using hne

/-- What the first live entry of that name names. -/
def lookupEntry (dir : List DirEntry) (name : List UInt8) : Option Nat :=
  (findEntry dir name).map (entryInum dir)

theorem lookupEntry_cons : lookupEntry (e :: dir) name =
    if e.Live ∧ e.str = name then some e.inum.toNat else lookupEntry dir name := by
  have hp : (e.inum != 0 && e.str == name) = decide (e.Live ∧ e.str = name) := by
    simp only [DirEntry.Live]
    by_cases h1 : e.inum = 0 <;> by_cases h2 : e.str = name <;> simp [h1, h2]
  rw [lookupEntry, findEntry, List.findIdx?_cons, hp]
  by_cases h : e.Live ∧ e.str = name
  · simp [h, entryInum]
  · rw [if_neg h, decide_eq_false h, lookupEntry, findEntry, if_neg Bool.false_ne_true,
      Option.map_map]
    rfl

theorem lookupEntry_eq_none : lookupEntry dir name = none ↔ findEntry dir name = none :=
  Option.map_eq_none_iff

theorem lookupEntry_mem (h : lookupEntry dir name = some x) :
    ∃ e ∈ dir, e.Live ∧ e.str = name ∧ e.inum.toNat = x := by
  obtain ⟨i, hi, rfl⟩ := Option.map_eq_some_iff.mp h
  obtain ⟨hlt, hlive, hstr⟩ := findEntry_some hi
  refine ⟨dir.getD i .zero, ?_, hlive, hstr, rfl⟩
  rw [List.getD_eq_getElem _ _ hlt]
  exact List.getElem_mem hlt

theorem linkEntry_nil : linkEntry [] name inum = [⟨UInt16.ofNat inum, strncpy name⟩] := rfl

theorem freeSlot_cons : freeSlot (e :: dir) = if e.Live then freeSlot dir + 1 else 0 := by
  rw [freeSlot, List.findIdx_cons]
  split
  · next h =>
    have h0 : (e.inum == 0) = false := by simpa [DirEntry.Live] using h
    rw [h0]
    rfl
  · next h =>
    have h0 : (e.inum == 0) = true := by simpa [DirEntry.Live] using h
    rw [h0]
    rfl

theorem linkEntry_cons : linkEntry (e :: dir) name inum =
    if e.Live then e :: linkEntry dir name inum
    else ⟨UInt16.ofNat inum, strncpy name⟩ :: dir := by
  rw [linkEntry, linkEntry, freeSlot_cons]
  split
  · rw [putEntry, putEntry]
    simp only [List.length_cons, Nat.add_lt_add_iff_right, List.set_cons_succ, List.cons_append]
    split <;> rfl
  · rw [putEntry, if_pos (by simp), List.set_cons_zero]

/-- A number that fits an entry. -/
structure FitsEntry (inum : Nat) (name : List UInt8) : Prop where
  pos : 0 < inum
  lt : inum < 65536
  len : name.length ≤ DIRSIZ
  nul : 0 ∉ name

/-- The new entry is found under its name, and the others as before. -/
theorem lookupEntry_linkEntry (hfits : FitsEntry inum name) (hnone : lookupEntry dir name = none) :
    lookupEntry (linkEntry dir name inum) nm = if nm = name then some inum else lookupEntry dir nm := by
  have hnum : (UInt16.ofNat inum).toNat = inum := by
    rw [UInt16.toNat_ofNat']
    exact Nat.mod_eq_of_lt hfits.lt
  have hlive : (DirEntry.mk (UInt16.ofNat inum) (strncpy name)).Live := by
    intro h0
    have := congrArg UInt16.toNat h0
    rw [hnum] at this
    exact absurd this (Nat.ne_of_gt hfits.pos)
  have hnew : ∀ l, lookupEntry (⟨UInt16.ofNat inum, strncpy name⟩ :: l) nm =
      if nm = name then some inum else lookupEntry l nm := by
    intro l
    rw [lookupEntry_cons, str_strncpy _ hfits.len hfits.nul, hnum]
    simp only [hlive, true_and, eq_comm]
  induction dir with
  | nil => exact hnew []
  | cons e dir ih =>
    rw [lookupEntry_cons] at hnone
    rw [linkEntry_cons]
    split
    · next he =>
      have hstr : e.str ≠ name := fun hs => by simp [he, hs] at hnone
      rw [if_neg fun h => hstr h.2] at hnone
      rw [lookupEntry_cons, lookupEntry_cons, ih hnone]
      by_cases hnm : nm = name
      · subst hnm
        rw [if_neg fun h => hstr h.2, if_pos rfl, if_pos rfl]
      · rw [if_neg hnm, if_neg hnm]
    · next he =>
      have hskip : lookupEntry (e :: dir) nm = lookupEntry dir nm := by
        rw [lookupEntry_cons, if_neg fun h => he h.1]
      rw [hnew, hskip]

/-! ### Walks -/

/-- An element of a path and what follows it are parts of the path. -/
theorem skipelem_sublist {rest : List UInt8} (h : skipelem path = some (name, rest)) :
    name.Sublist path ∧ rest.Sublist path ∧ name.length ≤ DIRSIZ := by
  unfold skipelem at h
  have hdrop := List.dropWhile_sublist (· == SLASH) (l := path)
  split at h
  · cases h
  · next c tail heq =>
    rw [heq] at hdrop
    simp only [Option.some.injEq, Prod.mk.injEq] at h
    obtain ⟨rfl, rfl⟩ := h
    refine ⟨?_, ?_, List.length_take_le _ _⟩
    · exact ((List.take_sublist _ _).trans (List.takeWhile_sublist _)).trans hdrop
    · exact ((List.dropWhile_sublist _).trans (List.dropWhile_sublist _)).trans hdrop

/-- The lookups of a walk: in which directories it looks for which names. -/
def walk_loop (node : Nat → Node) (nameiparent : Bool) :
    (fuel : Nat) → (path : List UInt8) → (ip : Nat) → List (Nat × List UInt8)
  | 0, _, _ => []
  | fuel + 1, path, ip =>
    match skipelem path with
    | none => []
    | some (name, path) =>
      if (node ip).type ≠ FileType.T_DIR then []
      else if nameiparent ∧ path = [] then []
      else (ip, name) ::
        match lookupEntry (node ip).dir name with
        | none => []
        | some next => walk_loop node nameiparent fuel path next

/-- The lookups of a walk from the root. -/
def walk (node : Nat → Node) (path : List UInt8) : List (Nat × List UInt8) :=
  walk_loop node false (path.length + 1) path ROOTINO

variable {nameiparent : Bool} {fuel ip dp : Nat} {r : Nat × List UInt8}

theorem resolve_loop_succ : resolve_loop node nameiparent (fuel + 1) path name ip =
    match skipelem path with
    | none => if nameiparent then none else some (ip, name)
    | some (name, path) =>
      if (node ip).type ≠ FileType.T_DIR then none
      else if nameiparent ∧ path = [] then some (ip, name)
      else
        match lookupEntry (node ip).dir name with
        | none => none
        | some next => resolve_loop node nameiparent fuel path name next := by
  rw [resolve_loop]
  cases skipelem path with
  | none => rfl
  | some p =>
    dsimp only
    split
    · rfl
    · split
      · rfl
      · rw [lookupEntry]
        cases findEntry (node ip).dir p.1 <;> rfl

theorem AbsFs.Reached.lookup (hx : a.Reached x) (htype : (a.node x).type = FileType.T_DIR)
    (h : lookupEntry (a.node x).dir name = some y) : a.Reached y := by
  obtain ⟨i, hi, rfl⟩ := Option.map_eq_some_iff.mp h
  exact .entry hx htype hi

/-- A walk depends on the types of the inodes that it comes to and on its lookups. -/
theorem resolve_loop_congr (htype : ∀ x, a.Reached x → (node' x).type = (a.node x).type)
    (hip : a.Reached ip)
    (hlook : ∀ p ∈ walk_loop a.node nameiparent fuel path ip,
      lookupEntry (node' p.1).dir p.2 = lookupEntry (a.node p.1).dir p.2) :
    resolve_loop node' nameiparent fuel path name ip =
      resolve_loop a.node nameiparent fuel path name ip := by
  induction fuel generalizing path name ip with
  | zero => rfl
  | succ fuel ih =>
    rw [resolve_loop_succ, resolve_loop_succ]
    rw [walk_loop] at hlook
    cases hskip : skipelem path with
    | none => rfl
    | some p =>
      rw [hskip] at hlook
      dsimp only at hlook ⊢
      rw [htype ip hip]
      split
      · rfl
      · next hdir =>
        split
        · rfl
        · next hlast =>
          rw [if_neg hdir, if_neg hlast] at hlook
          have hhere := hlook _ List.mem_cons_self
          dsimp only at hhere
          rw [hhere]
          cases hnext : lookupEntry (a.node ip).dir p.1 with
          | none => rfl
          | some next =>
            rw [hnext] at hlook
            exact ih (hip.lookup (not_not.mp hdir) hnext) fun q hq =>
              hlook q (List.mem_cons_of_mem _ hq)

/-- A walk looks for names in directories that it comes to. -/
theorem walk_reached (hip : a.Reached ip) :
    ∀ p ∈ walk_loop a.node nameiparent fuel path ip, a.Reached p.1 := by
  induction fuel generalizing path ip with
  | zero => exact fun p hp => absurd hp List.not_mem_nil
  | succ fuel ih =>
    rw [walk_loop]
    cases skipelem path with
    | none => exact fun p hp => absurd hp List.not_mem_nil
    | some q =>
      dsimp only
      split
      · exact fun p hp => absurd hp List.not_mem_nil
      · next hdir =>
        split
        · exact fun p hp => absurd hp List.not_mem_nil
        · intro p hp
          rcases List.mem_cons.mp hp with rfl | hp
          · exact hip
          · cases hnext : lookupEntry (a.node ip).dir q.1 with
            | none =>
              rw [hnext] at hp
              exact absurd hp List.not_mem_nil
            | some next =>
              rw [hnext] at hp
              exact ih (hip.lookup (not_not.mp hdir) hnext) p hp

theorem walk_dir : ∀ p ∈ walk_loop node nameiparent fuel path ip,
    (node p.1).type = FileType.T_DIR := by
  induction fuel generalizing path ip with
  | zero => exact fun p hp => absurd hp List.not_mem_nil
  | succ fuel ih =>
    rw [walk_loop]
    cases skipelem path with
    | none => exact fun p hp => absurd hp List.not_mem_nil
    | some q =>
      dsimp only
      split
      · exact fun p hp => absurd hp List.not_mem_nil
      · next hdir =>
        split
        · exact fun p hp => absurd hp List.not_mem_nil
        · intro p hp
          rcases List.mem_cons.mp hp with rfl | hp
          · exact not_not.mp hdir
          · cases hnext : lookupEntry (node ip).dir q.1 with
            | none =>
              rw [hnext] at hp
              exact absurd hp List.not_mem_nil
            | some next =>
              rw [hnext] at hp
              exact ih p hp

/-- A walk that gets through has found all that it looked for. -/
theorem walk_found (h : resolve_loop node nameiparent fuel path name ip = some r) :
    ∀ p ∈ walk_loop node nameiparent fuel path ip, lookupEntry (node p.1).dir p.2 ≠ none := by
  induction fuel generalizing path name ip with
  | zero => cases h
  | succ fuel ih =>
    rw [resolve_loop_succ] at h
    rw [walk_loop]
    cases hskip : skipelem path with
    | none => exact fun p hp => absurd hp List.not_mem_nil
    | some q =>
      rw [hskip] at h
      dsimp only at h ⊢
      split
      · exact fun p hp => absurd hp List.not_mem_nil
      · next hdir =>
        rw [if_neg hdir] at h
        split
        · exact fun p hp => absurd hp List.not_mem_nil
        · next hlast =>
          rw [if_neg hlast] at h
          cases hnext : lookupEntry (node ip).dir q.1 with
          | none =>
            rw [hnext] at h
            cases h
          | some next =>
            rw [hnext] at h
            intro p hp
            rcases List.mem_cons.mp hp with rfl | hp
            · rw [hnext]
              exact Option.some_ne_none _
            · exact ih h p hp

/-- A walk to a parent ends at a directory that can be reached, with a name from the path. -/
theorem resolve_loop_parent (hip : a.Reached ip)
    (h : resolve_loop a.node true fuel path nm ip = some (dp, name)) :
    a.Reached dp ∧ (a.node dp).type = FileType.T_DIR ∧ name.length ≤ DIRSIZ ∧
      name.Sublist path := by
  induction fuel generalizing path nm ip with
  | zero => cases h
  | succ fuel ih =>
    rw [resolve_loop_succ] at h
    cases hskip : skipelem path with
    | none =>
      rw [hskip] at h
      cases h
    | some q =>
      obtain ⟨name', rest⟩ := q
      rw [hskip] at h
      dsimp only at h
      obtain ⟨hname, hrest, hlen⟩ := skipelem_sublist hskip
      split at h
      · cases h
      · next hdir =>
        split at h
        · cases h
          exact ⟨hip, not_not.mp hdir, hlen, hname⟩
        · cases hnext : lookupEntry (a.node ip).dir name' with
          | none =>
            rw [hnext] at h
            cases h
          | some next =>
            rw [hnext] at h
            obtain ⟨hdp, htype, hlen, hsub⟩ := ih (hip.lookup (not_not.mp hdir) hnext) h
            exact ⟨hdp, htype, hlen, hsub.trans hrest⟩

/-- A path names what its last element names in its parent. -/
theorem resolve_loop_of_parent (hfuel : path.length < fuel)
    (h : resolve_loop node true fuel path nm ip = some (dp, name)) :
    (resolve_loop node false fuel path nm ip).map Prod.fst = lookupEntry (node dp).dir name := by
  induction fuel generalizing path nm ip with
  | zero => cases h
  | succ fuel ih =>
    rw [resolve_loop_succ] at h
    rw [resolve_loop_succ]
    cases hskip : skipelem path with
    | none =>
      rw [hskip] at h
      cases h
    | some q =>
      obtain ⟨name', rest⟩ := q
      rw [hskip] at h
      dsimp only at h ⊢
      have hshort := skipelem_length hskip
      split at h
      · cases h
      · next hdir =>
        rw [if_neg hdir, if_neg (by simp)]
        split at h
        · next hlast =>
          cases h
          obtain rfl : rest = [] := hlast.2
          cases hnext : lookupEntry (node dp).dir name with
          | none => rfl
          | some next =>
            obtain ⟨fuel, rfl⟩ : ∃ k, fuel = k + 1 := ⟨fuel - 1, by simp only [List.length_nil] at *; omega⟩
            rfl
        · cases hnext : lookupEntry (node ip).dir name' with
          | none =>
            rw [hnext] at h
            cases h
          | some next =>
            rw [hnext] at h
            exact ih (by omega) h

theorem resolve_of_parent (h : resolveParent node path = some (dp, name)) :
    resolve node path = lookupEntry (node dp).dir name :=
  resolve_loop_of_parent (Nat.lt_succ_self _) h

/-! ### Names in order -/

/-- The entries that name inode `x`, under names that `p` allows, in all directories. -/
def AbsFs.naming (a : AbsFs) (n : Nat) (p : List UInt8 → Bool) (x : Nat) : Nat :=
  ∑ d ∈ Finset.range n, if (a.node d).type = FileType.T_DIR then
    (a.node d).dir.countP fun e => e.Live ∧ e.inum.toNat = x ∧ p e.str
  else 0

/-- Names are in order below inode number `n`: within a directory they are unique, the first two
entries are `.` and `..`, a directory has one other name and the root none, links count entries, and
what is cached is allocated and as on disk. -/
structure AbsFs.Ordered (a : AbsFs) (n : Nat) : Prop where
  root : (a.node ROOTINO).type = FileType.T_DIR
  unused : ¬a.Alloc 0
  unique : ∀ x, (a.node x).type = FileType.T_DIR → ∀ name,
    (a.node x).dir.countP (fun e => e.Live ∧ e.str = name) ≤ 1
  dot : ∀ x, (a.node x).type = FileType.T_DIR →
    ∃ e, (a.node x).dir[0]? = some e ∧ e.inum.toNat = x ∧ e.str = [46]
  dotdot : ∀ x, (a.node x).type = FileType.T_DIR →
    ∃ e, (a.node x).dir[1]? = some e ∧ e.Live ∧ e.str = [46, 46] ∧
      (x = ROOTINO → e.inum.toNat = ROOTINO)
  named : ∀ x, (a.node x).type = FileType.T_DIR → ∀ e ∈ (a.node x).dir, e.Live →
    a.Alloc e.inum.toNat
  links : ∀ x, (a.node x).nlink.toNat = a.naming n (fun s => s ≠ [46]) x
  home : ∀ x, (a.node x).type = FileType.T_DIR →
    a.naming n (fun s => s ≠ [46] ∧ s ≠ [46, 46]) x ≤ if x = ROOTINO then 0 else 1
  cached : ∀ x, 0 < a.ref x → a.Alloc x ∧ ∀ n, a.mem x = some n → n = (a.node x).nlink

theorem countP_le_add {α : Type} {p q r : α → Bool} {l : List α}
    (h : ∀ e, p e = true → q e = true ∨ r e = true) : l.countP p ≤ l.countP q + l.countP r := by
  induction l with
  | nil => exact Nat.zero_le _
  | cons e l ih =>
    have he := h e
    simp only [List.countP_cons]
    split
    · next hp =>
      rcases he hp with hq | hr
      · rw [if_pos hq]
        omega
      · rw [if_pos hr]
        omega
    · omega

theorem DirEntry.live_of_toNat (h : e.inum.toNat ≠ 0) : e.Live := fun h0 => h (by rw [h0]; rfl)

/-- An entry counts. -/
theorem AbsFs.naming_pos {n : Nat} {p : List UInt8 → Bool} (hd : d < n)
    (htype : (a.node d).type = FileType.T_DIR) (he : e ∈ (a.node d).dir) (hlive : e.Live)
    (hx : e.inum.toNat = x) (hp : p e.str = true) : 0 < a.naming n p x := by
  refine Finset.sum_pos' (fun _ _ => Nat.zero_le _) ⟨d, Finset.mem_range.mpr hd, ?_⟩
  rw [if_pos htype, List.countP_pos_iff]
  exact ⟨e, he, by simp [hlive, hx, hp]⟩

namespace AbsFs.Ordered

variable {n : Nat}

/-- The file table and the transactions do not matter. -/
theorem congr {a' : AbsFs} (h : a.Ordered n) (hnode : a'.node = a.node) (href : a'.ref = a.ref)
    (hmem : a'.mem = a.mem) : a'.Ordered n := by
  cases a
  cases a'
  cases hnode
  cases href
  cases hmem
  exact ⟨h.root, h.unused, h.unique, h.dot, h.dotdot, h.named, h.links, h.home, h.cached⟩

/-- A free inode has no links. -/
theorem nlink_zero (h : a.Ordered n) (hx : ¬a.Alloc x) : (a.node x).nlink = 0 := by
  apply UInt16.toNat_inj.mp
  rw [h.links]
  apply Finset.sum_eq_zero
  intro d _
  split
  · next htype =>
    rw [List.countP_eq_zero]
    intro e he hp
    simp only [decide_eq_true_eq] at hp
    exact hx (hp.2.1 ▸ h.named d htype e he hp.1)
  · rfl

/-- A free inode has nothing at all. -/
theorem node_free (h : (s.abs sb).Ordered n) (hx : ¬(s.abs sb).Alloc x) :
    (s.abs sb).node x = .free := by
  have hlinks := h.nlink_zero hx
  have htype : ((s.abs sb).node x).type = FileType.Invalid := not_not.mp hx
  by_cases hlt : x < sb.ninodes
  · rw [abs_type hlt] at htype
    rw [abs_nlink hlt] at hlinks
    rw [abs_node hlt, nodeAt, if_neg (by rw [htype]; decide), if_pos htype, htype, hlinks]
  · exact if_neg hlt

/-- What a walk comes to has links. -/
theorem nlink_ne (h : a.Ordered n) (hlt : ∀ x, a.Alloc x → x < n) (hx : a.Reached x) :
    (a.node x).nlink ≠ 0 := by
  have hpos : ∀ {d e}, (a.node d).type = FileType.T_DIR → e ∈ (a.node d).dir → e.Live →
      e.str ≠ [46] → (a.node e.inum.toNat).nlink ≠ 0 := by
    intro d e htype he hlive hstr h0
    have hcount := h.links e.inum.toNat
    rw [h0] at hcount
    have := AbsFs.naming_pos (n := n) (p := fun s => s ≠ [46]) (hlt d (by rw [AbsFs.Alloc, htype]; decide)) htype
      he hlive rfl (by simpa using hstr)
    rw [← hcount] at this
    exact absurd this (by decide)
  induction hx with
  | root =>
    obtain ⟨e, he, hlive, hstr, hroot⟩ := h.dotdot _ h.root
    have hne := hpos h.root (List.mem_of_getElem? he) hlive (by rw [hstr]; decide)
    rwa [hroot rfl] at hne
  | @entry d i name hd htype hfind ih =>
    obtain ⟨hi, hlive, hstr⟩ := findEntry_some hfind
    have he : (a.node d).dir.getD i .zero ∈ (a.node d).dir := by
      rw [List.getD_eq_getElem _ _ hi]
      exact List.getElem_mem hi
    by_cases hdot : name = [46]
    · -- the first entry of that name is the one of the directory itself
      obtain ⟨e, he0, hself, hdotstr⟩ := h.dot d htype
      have hlive0 : e.Live := DirEntry.live_of_toNat fun h0 => h.unused (by
        rw [← h0, hself, AbsFs.Alloc, htype]
        decide)
      obtain ⟨rest, hrest⟩ : ∃ rest, (a.node d).dir = e :: rest := by
        cases hdir : (a.node d).dir with
        | nil =>
          rw [hdir] at he0
          cases he0
        | cons e' rest =>
          rw [hdir] at he0
          cases he0
          exact ⟨rest, rfl⟩
      have hlook : lookupEntry (a.node d).dir name = some d := by
        rw [hrest, lookupEntry_cons, if_pos ⟨hlive0, hdotstr.trans hdot.symm⟩, hself]
      have hentry : lookupEntry (a.node d).dir name = some (entryInum (a.node d).dir i) := by
        rw [lookupEntry, hfind]
        rfl
      rw [← Option.some.inj (hlook.symm.trans hentry)]
      exact ih
    · exact hpos htype he hlive (by rw [hstr]; exact hdot)

/-- The links in memory are those on disk. -/
theorem links_eq (h : a.Ordered n) (hn : a.Normal) (x : Nat) : a.links x = (a.node x).nlink := by
  rw [AbsFs.links]
  cases hmem : a.mem x with
  | none => rfl
  | some m => exact (h.cached x (hn.ref x m hmem)).2 m hmem

/-- A walk frees nothing. -/
theorem not_doomed (h : a.Ordered n) (hlt : ∀ x, a.Alloc x → x < n) (x : Nat) : ¬a.Doomed x :=
  fun hd => h.nlink_ne hlt hd.2.2.2 hd.2.2.1

/-- Entries of one name are one entry. -/
theorem entry_eq {e' : DirEntry} (h : a.Ordered n) (htype : (a.node x).type = FileType.T_DIR)
    (he : e ∈ (a.node x).dir) (he' : e' ∈ (a.node x).dir) (hlive : e.Live) (hlive' : e'.Live)
    (hstr : e.str = e'.str) : e = e' := by
  have hone := h.unique x htype e'.str
  rw [List.countP_eq_length_filter] at hone
  have hmem : e ∈ (a.node x).dir.filter fun c => c.Live ∧ c.str = e'.str :=
    List.mem_filter.mpr ⟨he, by simp [hlive, hstr]⟩
  have hmem' : e' ∈ (a.node x).dir.filter fun c => c.Live ∧ c.str = e'.str :=
    List.mem_filter.mpr ⟨he', by simp [hlive']⟩
  generalize (a.node x).dir.filter _ = l at hone hmem hmem'
  match l, hone, hmem, hmem' with
  | [c], _, hmem, hmem' => rw [List.mem_singleton.mp hmem, List.mem_singleton.mp hmem']

/-- The directories whose `..` names `x`. -/
def children (a : AbsFs) (n x : Nat) : Finset Nat :=
  (Finset.range n).filter fun d => (a.node d).type = FileType.T_DIR ∧
    (a.node d).dir.countP (fun e => e.Live ∧ e.inum.toNat = x ∧ e.str = [46, 46]) ≠ 0

/-- The links of a directory are its name and the directories in it. -/
theorem nlink_le (h : a.Ordered n) (hx : (a.node x).type = FileType.T_DIR) :
    (a.node x).nlink.toNat ≤ (if x = ROOTINO then 0 else 1) + (children a n x).card := by
  rw [h.links]
  apply Nat.le_trans _ (Nat.add_le_add_right (h.home x hx) _)
  rw [AbsFs.naming, AbsFs.naming, children, Finset.card_filter, ← Finset.sum_add_distrib]
  apply Finset.sum_le_sum
  intro d _
  by_cases htype : (a.node d).type = FileType.T_DIR
  · simp only [htype, if_true, true_and]
    have hone : (a.node d).dir.countP (fun e => e.Live ∧ e.inum.toNat = x ∧ e.str = [46, 46]) ≤ 1 :=
      Nat.le_trans (List.countP_mono_left fun e _ he => by simp_all) (h.unique d htype [46, 46])
    have hsplit := countP_le_add (l := (a.node d).dir)
      (p := fun e => e.Live ∧ e.inum.toNat = x ∧ decide (e.str ≠ [46]) = true)
      (q := fun e => e.Live ∧ e.inum.toNat = x ∧ decide (e.str ≠ [46] ∧ e.str ≠ [46, 46]) = true)
      (r := fun e => e.Live ∧ e.inum.toNat = x ∧ e.str = [46, 46]) fun e he => by
        simp only [decide_eq_true_eq] at he ⊢
        by_cases hstr : e.str = [46, 46]
        · exact .inr ⟨he.1, he.2.1, hstr⟩
        · exact .inl ⟨he.1, he.2.1, he.2.2, hstr⟩
    split <;> omega
  · simp [htype]

/-- There is room for one more link of a directory while an inode is free. -/
theorem nlink_lt (h : a.Ordered n) (hn : n ≤ 65536) (hlt : ∀ x, a.Alloc x → x < n)
    (hx : (a.node x).type = FileType.T_DIR) (hpos : 1 ≤ y) (hy : y < n) (hfree : ¬a.Alloc y) :
    (a.node x).nlink.toNat + 1 < 65536 := by
  have hle := h.nlink_le hx
  have hroot : ROOTINO < n := hlt _ (by rw [AbsFs.Alloc, h.root]; decide)
  have hne : y ≠ ROOTINO := fun heq => hfree (by rw [heq, AbsFs.Alloc, h.root]; decide)
  have hsub : children a n x ⊆ ((Finset.range n).erase 0).erase y := by
    intro d hd
    obtain ⟨hd, htype, -⟩ := Finset.mem_filter.mp hd
    have halloc : a.Alloc d := by
      rw [AbsFs.Alloc, htype]
      decide
    exact Finset.mem_erase.mpr ⟨fun heq => hfree (heq ▸ halloc), Finset.mem_erase.mpr
      ⟨fun heq => h.unused (heq ▸ halloc), hd⟩⟩
  have hmem : y ∈ (Finset.range n).erase 0 :=
    Finset.mem_erase.mpr ⟨by omega, Finset.mem_range.mpr hy⟩
  have hmem0 : 0 ∈ Finset.range n := Finset.mem_range.mpr (by omega)
  by_cases hxr : x = ROOTINO
  · rw [if_pos hxr] at hle
    have hcard := Finset.card_le_card hsub
    rw [Finset.card_erase_of_mem hmem, Finset.card_erase_of_mem hmem0, Finset.card_range] at hcard
    omega
  · rw [if_neg hxr] at hle
    -- the `..` of the root names the root
    have hsub' : children a n x ⊆ (((Finset.range n).erase 0).erase y).erase ROOTINO := by
      intro d hd
      refine Finset.mem_erase.mpr ⟨?_, hsub hd⟩
      rintro rfl
      obtain ⟨-, -, hcount⟩ := Finset.mem_filter.mp hd
      obtain ⟨e, he, hp⟩ := List.countP_pos_iff.mp (Nat.pos_of_ne_zero hcount)
      simp only [decide_eq_true_eq] at hp
      obtain ⟨e', he', hlive', hstr', hself⟩ := h.dotdot _ h.root
      have heq := h.entry_eq h.root he (List.mem_of_getElem? he') hp.1 hlive'
        (hp.2.2.trans hstr'.symm)
      rw [heq, hself rfl] at hp
      exact hxr hp.2.1.symm
    have hmemr : ROOTINO ∈ ((Finset.range n).erase 0).erase y :=
      Finset.mem_erase.mpr ⟨hne.symm, Finset.mem_erase.mpr ⟨by decide, Finset.mem_range.mpr hroot⟩⟩
    have hcard := Finset.card_le_card hsub'
    rw [Finset.card_erase_of_mem hmemr, Finset.card_erase_of_mem hmem,
      Finset.card_erase_of_mem hmem0, Finset.card_range] at hcard
    have : ROOTINO = 1 := rfl
    omega

end AbsFs.Ordered

end Xv6fs
