import Xv6fs.Fs.Check

/-! `create` adds one object, or leaves the names, the inodes and the free blocks as they were. -/

namespace Xv6fs

open Program (Runs)

variable {sb : SuperBlock} {s s' : Fs} {a a' a0 a1 a2 : AbsFs} {x y b dp ip : Nat}
  {path name nm : List UInt8} {type : UInt16}

/-! ### What `create` leaves -/

/-- A new object `ip` of type `type` is in directory `dp` under `name`, and all else is as before. -/
structure Added (a : AbsFs) (type : UInt16) (dp ip : Nat) (name : List UInt8) (a' : AbsFs) : Prop where
  pos : 0 < ip
  free : ¬a.Alloc ip
  kind : (a'.node ip).type = type
  nlink : (a'.node ip).nlink = 1
  file : type ≠ FileType.T_DIR → a'.node ip = .empty type 1
  dir : type = FileType.T_DIR → (a'.node ip).dir =
    [⟨UInt16.ofNat ip, strncpy [46]⟩, ⟨UInt16.ofNat dp, strncpy [46, 46]⟩]
  parent_type : (a'.node dp).type = (a.node dp).type
  parent_dir : (a'.node dp).dir = linkEntry (a.node dp).dir name ip
  parent_links : (a'.node dp).nlink.toNat =
    (a.node dp).nlink.toNat + if type = FileType.T_DIR then 1 else 0
  others : ∀ x, x ≠ ip → x ≠ dp → a'.node x = a.node x

/-- Nothing has been added: all that may be left is an empty indirect block of the directory. -/
structure NotAdded (a : AbsFs) (path : List UInt8) (a' : AbsFs) : Prop where
  node : ∀ x, ∃ slots, a'.node x = { a.node x with slots }
  slots : ∀ x, Node.Spare (a.node x).slots (a'.node x).slots
  others : ∀ x, (∀ name, resolveParent a.node path ≠ some (x, name)) → a'.node x = a.node x

namespace AbsFs

/-- The end of a reference that is not the last, or to an inode that has links. -/
theorem put_node (hkeep : ¬(a.ref x = 1 ∧ a.mem x = some 0)) : (a.put x).node = a.node := by
  rw [put, if_neg hkeep]
  rfl

theorem put_node_of_ne (h : y ≠ x) : (a.put x).node y = a.node y := by
  unfold put
  split
  · exact setAt_of_ne h
  · rfl

theorem Enters.node {inum : Nat} (h : a.Enters sb x name inum true a') :
    ∃ slots, a'.node x = { a.node x with dir := linkEntry (a.node x).dir name inum, slots } := by
  cases h with
  | @added slots _ =>
    refine ⟨slots, ?_⟩
    simp only [addEntry, setSlots, modify, setAt_self]

/-- What a new inode is. -/
theorem alloc_node : ((a.alloc ip type).setLinks ip 1).node ip = .empty type 1 := by
  simp only [setLinks, setMem, modify, alloc, setAt_self]
  rfl

theorem alloc_node_of_ne (a : AbsFs) (type : UInt16) (h : x ≠ ip) :
    ((a.alloc ip type).setLinks ip 1).node x = a.node x := by
  simp only [setLinks, setMem, modify, alloc, setAt_of_ne h]

end AbsFs

/-- The nodes after the entries of a new object. -/
theorem Entered.added (h : Entered sb ((a.alloc ip type).setLinks ip 1) type dp ip name true a')
    (hne : dp ≠ ip) (hpos : 0 < ip) (hlt : ip < 65536) :
    (a'.node ip).type = type ∧ (a'.node ip).nlink = 1 ∧
      (type ≠ FileType.T_DIR → a'.node ip = .empty type 1) ∧
      (type = FileType.T_DIR → (a'.node ip).dir =
        [⟨UInt16.ofNat ip, strncpy [46]⟩, ⟨UInt16.ofNat dp, strncpy [46, 46]⟩]) ∧
      (∃ slots, a'.node dp =
        { a.node dp with dir := linkEntry (a.node dp).dir name ip, slots }) ∧
      ∀ x, x ≠ ip → x ≠ dp → a'.node x = a.node x := by
  have hdpnode := AbsFs.alloc_node_of_ne a type hne
  cases h with
  | file htype henters =>
    have hip : a'.node ip = .empty type 1 := (henters.other (Ne.symm hne)).trans AbsFs.alloc_node
    refine ⟨by rw [hip]; rfl, by rw [hip]; rfl, fun _ => hip, fun ht => absurd ht htype, ?_,
      fun x hxi hxd => (henters.other hxd).trans (AbsFs.alloc_node_of_ne a type hxi)⟩
    have hdp := henters.node
    rwa [hdpnode] at hdp
  | @dir a1 a2 _ htype hdot hdotdot henters =>
    obtain ⟨slots1, h1⟩ := hdot.node
    obtain ⟨slots2, h2⟩ := hdotdot.node
    rw [AbsFs.alloc_node] at h1
    rw [h1] at h2
    have hip := (henters.other (Ne.symm hne)).trans h2
    have hlive : (DirEntry.mk (UInt16.ofNat ip) (strncpy [46])).Live := by
      apply DirEntry.live_of_toNat
      rw [UInt16.toNat_ofNat', Nat.mod_eq_of_lt hlt]
      exact Nat.ne_of_gt hpos
    refine ⟨by rw [hip]; rfl, by rw [hip]; rfl, fun ht => absurd htype ht, fun _ => ?_, ?_,
      fun x hxi hxd => ?_⟩
    · rw [hip]
      simp only [Node.empty, linkEntry_nil, linkEntry_cons, hlive, if_true]
    · have hdp := henters.node
      rwa [hdotdot.other hne, hdot.other hne, hdpnode] at hdp
    · rw [henters.other hxd, hdotdot.other hxi, hdot.other hxi, AbsFs.alloc_node_of_ne a type hxi]

/-- The parent is not freed where nothing is doomed. -/
theorem During.keeps {held : List Nat} (h : During a0 a held) (hn : a0.Normal)
    (hd : ∀ x, ¬a0.Doomed x) (hx : x ∈ held) (halloc : a.Alloc x) :
    ¬(a.ref x = 1 ∧ a.mem x = some 0) :=
  fun hfree => hd x (h.doomed hn halloc hx hfree).1

/-- What is left of inode `x` where nothing has been added: what it was, no links of a free inode, or
a directory with an empty indirect block. -/
def Left (a : AbsFs) (path : List UInt8) (x : Nat) (nd : Node) : Prop :=
  nd = a.node x ∨ ¬a.Alloc x ∧ nd = .free ∨
    ∃ name slots, resolveParent a.node path = some (x, name) ∧
      Node.Spare (a.node x).slots slots ∧ nd = { a.node x with slots }

namespace Created

/-- When there is no object, all is undone. -/
theorem left (hn : a0.Normal) (hd : ∀ x, ¬a0.Doomed x) (hrefs : ∀ x, ¬a0.Alloc x → a0.ref x = 0)
    (h : Created sb a0 path type none a') (x : Nat) : Left a0 path x (a'.node x) := by
  cases h with
  | refused h _ => exact .inl (congrFun (h.nodes_eq hd) x)
  | @undone a a1 dp ip name hparent hfind h hopen hpos _ hfree hentered =>
    have hnode := h.nodes_eq hd
    have hkeeps := h.keeps hn hd List.mem_cons_self (by rw [AbsFs.Alloc, hopen.1]; decide)
    have hne : dp ≠ ip := fun heq => hfree (by rw [AbsFs.Alloc, ← heq, hopen.1]; decide)
    have hfree0 : ¬a0.Alloc ip := by rwa [AbsFs.Alloc, ← hnode]
    have href : a.ref ip = 0 := by
      rw [h.ref, hrefs ip hfree0, List.count_cons_of_ne hne, List.count_nil]
    obtain ⟨hframeref, hframemem, -, -⟩ := hentered.frame
    have hlast : (a1.setLinks ip 0).ref ip = 1 := by
      show a1.ref ip = 1
      rw [hframeref]
      simp only [AbsFs.setLinks, AbsFs.setMem, AbsFs.modify, AbsFs.alloc, AbsFs.get, setAt_self, href]
    have hput : (a1.setLinks ip 0).put ip = (a1.setLinks ip 0).free ip :=
      if_pos ⟨hlast, setAt_self⟩
    have hkeeps1 : ¬(((a1.setLinks ip 0).free ip).ref dp = 1 ∧
        ((a1.setLinks ip 0).free ip).mem dp = some 0) := by
      have href1 : ((a1.setLinks ip 0).free ip).ref dp = a.ref dp := by
        refine (setAt_of_ne hne).trans ?_
        show a1.ref dp = a.ref dp
        rw [hframeref]
        exact setAt_of_ne hne
      have hmem1 : ((a1.setLinks ip 0).free ip).mem dp = a.mem dp := by
        refine ((setAt_of_ne hne).trans (setAt_of_ne hne)).trans ?_
        show a1.mem dp = a.mem dp
        rw [hframemem]
        exact setAt_of_ne hne
      rwa [href1, hmem1]
    rw [hput, AbsFs.put_node hkeeps1]
    cases hentered with
    | @not slots' dir slots hspare _ =>
      rw [AbsFs.alloc_node_of_ne _ _ hne, hnode] at hspare
      simp only [AbsFs.free, AbsFs.setLinks, AbsFs.setMem, AbsFs.setSlots, AbsFs.modify,
        AbsFs.alloc, AbsFs.get]
      by_cases hxi : x = ip
      · rw [hxi, setAt_self]
        exact .inr (.inl ⟨hfree0, rfl⟩)
      · by_cases hxd : x = dp
        · simp only [hxd, setAt_of_ne hne, setAt_self, hnode]
          exact .inr (.inr ⟨name, slots', hparent, hspare, rfl⟩)
        · simp only [setAt_of_ne hxi, setAt_of_ne hxd, hnode]
          exact .inl rfl

/-- A new name gets a new object. -/
theorem added {n : Nat} (h0 : a0.Ordered n) (hn : a0.Normal) (hlt : ∀ x, a0.Alloc x → x < n)
    (h : Created sb a0 path type (some ip) a') (hip : ip < n) (hsmall : n ≤ 65536) (hnone : resolve a0.node path = none) :
    ∃ dp name, resolveParent a0.node path = some (dp, name) ∧
      lookupEntry (a0.node dp).dir name = none ∧ Added a0 type dp ip name a' := by
  cases h with
  | @found a dp i name hparent hfind =>
    have hlook := resolve_of_parent hparent
    rw [hnone, lookupEntry, hfind] at hlook
    cases hlook
  | @made a a1 dp _ name hparent hfind h hopen hpos _ hfree hentered =>
    refine ⟨dp, name, hparent, lookupEntry_eq_none.mpr hfind, ?_⟩
    have hnode := h.nodes_eq (h0.not_doomed hlt)
    have hmem : a.mem dp = some (a0.node dp).nlink := by
      obtain ⟨m, hm⟩ := hopen.2
      rw [hm, h.mem dp m hm, h0.links_eq hn]
    have hlinks := h0.nlink_ne hlt (h.reached dp List.mem_cons_self)
    have hdir : (a0.node dp).type = FileType.T_DIR := hnode ▸ hopen.1
    have hne : dp ≠ ip := fun heq => hfree (by rw [AbsFs.Alloc, ← heq, hopen.1]; decide)
    have hfree0 : ¬a0.Alloc ip := by rwa [AbsFs.Alloc, ← hnode]
    have hroom := h0.nlink_lt hsmall hlt hdir hpos hip hfree0
    obtain ⟨hkind, hone, hfile, hdots, ⟨slots, hdp⟩, hothers⟩ :=
      hentered.added hne hpos (by omega)
    have hmem1 : a1.mem dp = some (a0.node dp).nlink := by
      rw [hentered.frame.2.1]
      exact (setAt_of_ne hne).trans hmem
    rw [hnode] at hdp hothers
    -- the parent keeps its links, or has one more
    have hparentnode : ((a1.addParent type dp).put dp).node = (a1.addParent type dp).node := by
      rw [AbsFs.addParent]
      split
      · refine AbsFs.put_node fun hfree => ?_
        have hover := Option.some.inj (setAt_self.symm.trans hfree.2)
        rw [AbsFs.links, hmem1, Option.getD_some] at hover
        have := congrArg UInt16.toNat hover
        rw [UInt16.toNat_add, UInt16.toNat_one] at this
        exact absurd this (by rw [Nat.mod_eq_of_lt hroom]; exact Nat.succ_ne_zero _)
      · exact AbsFs.put_node fun hfree => hlinks (Option.some.inj (hmem1.symm.trans hfree.2))
    have hparentlinks : ((a1.addParent type dp).node dp) = { a1.node dp with
        nlink := if type = FileType.T_DIR then (a0.node dp).nlink + 1 else (a0.node dp).nlink } := by
      rw [AbsFs.addParent]
      split
      · simp only [AbsFs.setLinks, AbsFs.setMem, AbsFs.modify, setAt_self, AbsFs.links, hmem1,
          Option.getD_some]
      · rw [hdp]
    have hparentothers : ∀ x, x ≠ dp → (a1.addParent type dp).node x = a1.node x := by
      intro x hx
      rw [AbsFs.addParent]
      split
      · exact setAt_of_ne hx
      · rfl
    rw [hdp] at hparentlinks
    exact {
      pos := hpos
      free := hfree0
      kind := by rw [hparentnode, hparentothers ip (Ne.symm hne), hkind]
      nlink := by rw [hparentnode, hparentothers ip (Ne.symm hne), hone]
      file := fun ht => by rw [hparentnode, hparentothers ip (Ne.symm hne), hfile ht]
      dir := fun ht => by rw [hparentnode, hparentothers ip (Ne.symm hne), hdots ht]
      parent_type := by rw [hparentnode, hparentlinks]
      parent_dir := by rw [hparentnode, hparentlinks]
      parent_links := by
        rw [hparentnode, hparentlinks]
        split
        · rw [UInt16.toNat_add, UInt16.toNat_one, Nat.mod_eq_of_lt hroom]
        · rfl
      others := fun x hxi hxd => by rw [hparentnode, hparentothers x hxd, hothers x hxi hxd] }

/-- When there is no object, all is as before but for an empty block. -/
theorem not_added {n : Nat} (h0 : a0.Ordered n) (hn : a0.Normal) (hlt : ∀ x, a0.Alloc x → x < n)
    (h : Created sb a0 path type none a') (hfreenode : ∀ x, ¬a0.Alloc x → a0.node x = .free) :
    NotAdded a0 path a' := by
  have hleft := h.left hn (h0.not_doomed hlt) fun x hx =>
    Nat.eq_zero_of_not_pos fun hpos => hx (h0.cached x hpos).1
  constructor
  · intro x
    rcases hleft x with heq | ⟨hx, heq⟩ | ⟨_, slots, -, -, heq⟩
    · exact ⟨_, heq⟩
    · rw [heq, hfreenode x hx]
      exact ⟨fun _ => 0, rfl⟩
    · exact ⟨slots, heq⟩
  · intro x
    rcases hleft x with heq | ⟨hx, heq⟩ | ⟨_, slots, -, hspare, heq⟩
    · rw [heq]
      exact .refl _
    · rw [heq, hfreenode x hx]
      exact .refl _
    · rw [heq]
      exact hspare
  · intro x hx
    rcases hleft x with heq | ⟨hfree, heq⟩ | ⟨name, _, hparent, -⟩
    · exact heq
    · rw [heq, hfreenode x hfree]
    · exact absurd hparent (hx name)

end Created

/-! ### What is found after `create` -/

namespace Added

variable (h : Added a type dp ip name a')
include h

theorem type_eq (hx : a.Alloc x) : (a'.node x).type = (a.node x).type := by
  by_cases hxd : x = dp
  · rw [hxd, h.parent_type]
  · rw [h.others x (fun heq => h.free (heq ▸ hx)) hxd]

/-- The directories that there were have the names that they had, and the new one. -/
theorem lookup (hfits : FitsEntry ip name) (hnone : lookupEntry (a.node dp).dir name = none)
    (hx : a.Alloc x) : lookupEntry (a'.node x).dir nm =
      if x = dp ∧ nm = name then some ip else lookupEntry (a.node x).dir nm := by
  by_cases hxd : x = dp
  · rw [hxd, h.parent_dir, lookupEntry_linkEntry hfits hnone]
    simp only [true_and]
  · rw [h.others x (fun heq => h.free (heq ▸ hx)) hxd, if_neg fun hp => hxd hp.1]

end Added

theorem reached_alloc {n : Nat} (h : a.Ordered n) (hx : a.Reached x) : a.Alloc x := by
  induction hx with
  | root => rw [AbsFs.Alloc, h.root]; decide
  | entry hd htype hfind _ =>
    obtain ⟨hi, hlive, -⟩ := findEntry_some hfind
    rw [entryInum]
    refine h.named _ htype _ ?_ hlive
    rw [List.getD_eq_getElem _ _ hi]
    exact List.getElem_mem hi

/-- A walk that does not look for the new name finds what it found. -/
theorem Added.resolve_other {n : Nat} {q : List UInt8} (h : Added a type dp ip name a')
    (h0 : a.Ordered n) (hfits : FitsEntry ip name)
    (hnone : lookupEntry (a.node dp).dir name = none) (hq : (dp, name) ∉ walk a.node q) :
    resolve a'.node q = resolve a.node q := by
  rw [resolve, resolve, resolve_loop_congr (a := a) (fun x hx => h.type_eq (reached_alloc h0 hx))
    .root]
  intro p hp
  rw [h.lookup hfits hnone (reached_alloc h0 (walk_reached .root p hp)), if_neg]
  rintro ⟨rfl, rfl⟩
  exact hq hp

/-- The path of the new object names it. -/
theorem Added.resolve_new {n : Nat} (h : Added a type dp ip name a') (h0 : a.Ordered n)
    (hfits : FitsEntry ip name) (hnone : lookupEntry (a.node dp).dir name = none)
    (hdp : a.Reached dp) (hparent : resolveParent a.node path = some (dp, name)) :
    resolve a'.node path = some ip := by
  have hparent' : resolveParent a'.node path = some (dp, name) := by
    rw [resolveParent, resolve_loop_congr (a := a) (fun x hx => h.type_eq (reached_alloc h0 hx))
      .root]
    · exact hparent
    · intro p hp
      rw [h.lookup hfits hnone (reached_alloc h0 (walk_reached .root p hp)), if_neg]
      rintro ⟨h1, h2⟩
      refine walk_found hparent p hp ?_
      rw [h1, h2, hnone]
  rw [resolve_of_parent hparent', h.lookup hfits hnone (reached_alloc h0 hdp), if_pos ⟨rfl, rfl⟩]

/-- Where nothing has been added, all paths are as before. -/
theorem NotAdded.resolve (h : NotAdded a path a') (q : List UInt8) :
    resolve a'.node q = resolve a.node q := by
  have hnode : ∀ x, (a'.node x).type = (a.node x).type ∧ (a'.node x).dir = (a.node x).dir := by
    intro x
    obtain ⟨slots, hx⟩ := h.node x
    rw [hx]
    exact ⟨rfl, rfl⟩
  rw [Xv6fs.resolve, Xv6fs.resolve, resolve_loop_congr (a := a) (fun x _ => (hnode x).1) .root]
  intro p _
  rw [(hnode p.1).2]

/-! ### Free blocks -/

/-- Where nothing has been added, the free blocks are as before, but for an indirect block of the
directory. -/
theorem NotAdded.mem_free_blocks (hl : Layout sb) (hlt : ∀ x, a.Alloc x → x < sb.ninodes)
    (h : NotAdded a path a') :
    b ∈ a'.free_blocks sb ↔ b ∈ a.free_blocks sb ∧
      ∀ dp name, resolveParent a.node path = some (dp, name) → (a'.node dp).slots NDIRECT ≠ b := by
  have halloc : ∀ x, a'.Alloc x ↔ a.Alloc x := by
    intro x
    obtain ⟨slots, hx⟩ := h.node x
    rw [AbsFs.Alloc, AbsFs.Alloc, hx]
  simp only [AbsFs.free_blocks, Finset.mem_filter, Finset.mem_range]
  constructor
  · rintro ⟨hb, hdata, hall⟩
    refine ⟨⟨hb, hdata, fun x hx hal k hk heq => ?_⟩, fun dp name hparent => ?_⟩
    · have hkept : (a'.node x).slots k = (a.node x).slots k := by
        by_cases hind : k = NDIRECT
        · subst hind
          exact (h.slots x).indirect (heq ▸ hl.data_pos ⟨hdata, hb⟩)
        · exact (h.slots x).others k hind
      exact hall x hx ((halloc x).mpr hal) k hk (hkept.trans heq)
    · have hdir := (resolve_loop_parent .root hparent).2.1
      have hal : a.Alloc dp := by
        rw [AbsFs.Alloc, hdir]
        decide
      exact hall dp (hlt dp hal) ((halloc dp).mpr hal) NDIRECT (by decide)
  · rintro ⟨⟨hb, hdata, hall⟩, hparent⟩
    refine ⟨hb, hdata, fun x hx hal k hk heq => ?_⟩
    have hal := (halloc x).mp hal
    by_cases hpar : ∃ name, resolveParent a.node path = some (x, name)
    · obtain ⟨name, hname⟩ := hpar
      by_cases hind : k = NDIRECT
      · subst hind
        exact hparent x name hname heq
      · exact hall x hx hal k hk (((h.slots x).others k hind).symm.trans heq)
    · have hnode := h.others x fun name hname => hpar ⟨name, hname⟩
      exact hall x hx hal k hk (by rw [← hnode]; exact heq)

/-! ### `create` -/

/-- `create` of a name that was not there adds the object that it returns, under that name, and when
it returns none it has added nothing. -/
theorem create_adds_one_or_none (hl : Layout sb) (h : Wf sb s)
    (hnames : (s.abs sb).Ordered sb.ninodes) (ho : s.outstanding ≥ 1) (hnul : 0 ∉ path)
    (htype : type = FileType.T_FILE ∨ type = FileType.T_DIR) {major minor : UInt16}
    {r : Option Nat} (hrun : create sb path type major minor s = .ok (r, s')) :
    match r with
    | some ip => resolve (s.abs sb).node path = none →
        resolve (s'.abs sb).node path = some ip ∧
        ∃ dp name, resolveParent (s.abs sb).node path = some (dp, name) ∧
          Added (s.abs sb) type dp ip name (s'.abs sb) ∧
          ∀ q, (dp, name) ∉ walk (s.abs sb).node q →
            resolve (s'.abs sb).node q = resolve (s.abs sb).node q
    | none => NotAdded (s.abs sb) path (s'.abs sb) ∧
        (∀ q, resolve (s'.abs sb).node q = resolve (s.abs sb).node q) ∧
        ∀ b, b ∈ s'.free_blocks sb ↔ b ∈ s.free_blocks sb ∧
          ∀ dp name, resolveParent (s.abs sb).node path = some (dp, name) →
            ((s'.abs sb).node dp).slots NDIRECT ≠ b := by
  have hvalid : type ≠ FileType.Invalid := by
    rcases htype with rfl | rfl <;> decide
  have hlt : ∀ x, (s.abs sb).Alloc x → x < sb.ninodes := fun x hx => alloc_lt hx
  have hroot : ROOTINO < sb.ninodes := hlt _ (reached_alloc hnames .root)
  obtain ⟨h', hcreated, -⟩ := (h.create hl hroot ho path major minor hvalid).of_ok hrun
  cases r with
  | some ip =>
    intro hnone
    obtain ⟨n, hmem⟩ := hcreated.mem
    have hip : ip < sb.ninodes := h'.valid_lt (valid_of_mem hmem).1
    obtain ⟨dp, name, hparent, hlook, hadded⟩ :=
      hcreated.added hnames h.normal hlt hip hl.inums hnone
    obtain ⟨hdp, -, hlen, hsub⟩ := resolve_loop_parent .root hparent
    have hfits : FitsEntry ip name := ⟨hadded.pos, Nat.lt_of_lt_of_le hip hl.inums, hlen,
      fun h0 => hnul (hsub.subset h0)⟩
    exact ⟨hadded.resolve_new hnames hfits hlook hdp hparent, dp, name, hparent, hadded,
      fun q hq => hadded.resolve_other hnames hfits hlook hq⟩
  | none =>
    have hnot := hcreated.not_added hnames h.normal hlt fun x hx => hnames.node_free hx
    refine ⟨hnot, hnot.resolve, fun b => ?_⟩
    rw [h.free_blocks_eq hl, h'.free_blocks_eq hl]
    exact hnot.mem_free_blocks hl hlt

set_option maxRecDepth 100000 in
/-- A file in a root directory that was empty. -/
theorem create_adds_one_or_none_root :
    ∃ s', create rootSb [47, 102] FileType.T_FILE 0 0 { rootFs with outstanding := 1 } =
      .ok (some 2, s') ∧ resolve (s'.abs rootSb).node [47, 102] = some 2 := by
  have hruns : Runs (create rootSb [47, 102] FileType.T_FILE 0 0) { rootFs with outstanding := 1 }
      (fun r _ => r = some 2) fun _ => False := by decide +kernel
  obtain ⟨r, s', hrun, rfl⟩ := hruns.returns
  have hnone : resolve (Fs.abs rootSb { rootFs with outstanding := 1 }).node [47, 102] = none := by
    decide +kernel
  exact ⟨s', hrun, (create_adds_one_or_none (s := { rootFs with outstanding := 1 }) rootSb_layout
    (rootFs_wf.congr rfl rfl) (rootFs_ordered.congr rfl rfl rfl) (Nat.le_refl 1) (by decide)
    (.inl rfl) hrun hnone).1⟩

end Xv6fs
