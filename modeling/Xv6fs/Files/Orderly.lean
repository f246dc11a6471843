import Xv6fs.Files.Runs
import Xv6fs.Fs.Backing
import Xv6fs.Fs.Renaming

/-! Runs of calls that keep the names in order: the directories stay a tree, the link counts stay
those of the names, and no inode is lost. -/

namespace Xv6fs

open Program (Runs runs_map)

variable {sb : SuperBlock} {s s' : Fs} {a a' : AbsFs} {n x : Nat} {path source dest : List UInt8}

/-! ### One call -/

namespace AbsFs.Tree

/-- Nothing has changed but what is in memory. -/
theorem reads (h : (s.abs sb).Tree n) (hr : ReadOnly sb s s') : (s'.abs sb).Tree n := by
  refine h.refreshed (fun x => ?_) hr.ref fun x => ?_
  · rw [hr.node]
    exact ⟨rfl, rfl, rfl⟩
  · cases hx : (s'.abs sb).mem x with
    | some m => exact .inr (congrArg some (hr.fresh x m hx))
    | none =>
      refine .inl ?_
      cases hx0 : (s.abs sb).mem x with
      | none => rfl
      | some m => rw [hr.kept x m hx0] at hx; cases hx

theorem grown (h : a.Tree n) (hg : Grown a x a') : a'.Tree n := by
  refine h.refreshed (fun y => ?_) hg.ref fun y => ?_
  · by_cases hy : y = x
    · subst hy
      refine ⟨hg.type, ?_, hg.dir⟩
      rcases hg.nlink with hn | hn
      · exact hn
      · rw [hn, h.clean.links]
    · rw [(hg.others y hy).1]
      exact ⟨rfl, rfl, rfl⟩
  · by_cases hy : y = x
    · exact hy ▸ hg.mem
    · exact .inl (hg.others y hy).2

theorem flushed (h : a.Tree n) (hn : a.Normal) (hf : Flushed a a') : a'.Tree n := by
  refine h.refreshed (fun y => ?_) hf.ref fun y => ?_
  · rw [hf.node, h.clean.links]
    exact ⟨rfl, rfl, rfl⟩
  · rw [hf.mem]
    split
    · next href =>
      refine .inl ?_
      cases hm : a.mem y with
      | none => rfl
      | some m => exact absurd (hn.ref y m hm) (by omega)
    · exact .inr rfl

end AbsFs.Tree

/-- What the calls must not do, so that the names stay in order: make a link to a file, remove a
directory that is open, or rename to a name that is taken, or to another directory what is a
directory or stands where its removal leaves an entry twice. -/
def Orderly (sb : SuperBlock) (s : Fs) : Call → Prop
  | .create path _ => 0 ∉ path
  | .mkdir path => 0 ∉ path
  | .open path _ => 0 ∉ path
  | .link source _ => ∀ x, resolve (s.abs sb).node source = some x →
      ((s.abs sb).node x).type = FileType.T_DIR
  | .unlink path => ∀ x, resolve (s.abs sb).node path = some x →
      ((s.abs sb).node x).type = FileType.T_DIR → (s.abs sb).ref x = 0
  | .rename source dest =>
      (Path.same (Path.parent_path source) (Path.parent_path dest) →
        (s.abs sb).Renamable source dest) ∧
      (¬Path.same (Path.parent_path source) (Path.parent_path dest) →
        (s.abs sb).Movable source dest)
  | call => Served sb s call

theorem Orderly.served {call : Call} (h : Orderly sb s call) : Served sb s call := by
  cases call with
  | write => exact h
  | truncate => exact h
  | _ => trivial

/-- What a call that returns leaves of the tree. -/
def KeepsTree (sb : SuperBlock) {α : Type} (m : Prog α) (s : Fs) : Prop :=
  Runs m s (fun _ s' => (s'.abs sb).Tree sb.ninodes) fun _ => True

theorem KeepsTree.map {α β : Type} {m : Prog α} {f : α → β} (h : KeepsTree sb m s) :
    KeepsTree sb (f <$> m) s :=
  runs_map.mpr h

/-- An operation of one transaction. -/
theorem KeepsTree.of_transacts {α β : Type} {m : Prog α} {g : α → β} {Q : AbsFs → β → AbsFs → Prop}
    (hm : Does sb m s fun r s' => Transacts sb Q s (g r) s')
    (hQ : ∀ {r a'}, Q (s.abs sb).begin_op r a' → a'.Tree sb.ninodes) : KeepsTree sb m s := by
  refine hm.any.imp ?_
  rintro r s' ⟨-, ⟨a', hq, habs⟩, -⟩
  rw [habs]
  exact (hQ hq).congr rfl rfl rfl

theorem KeepsTree.of_steps {α : Type} {m : Prog α} {Q : α → Fs → Prop} (hm : Does sb m s Q)
    (hQ : ∀ {r s'}, Q r s' → (s'.abs sb).Tree sb.ninodes) : KeepsTree sb m s :=
  hm.any.imp fun _ _ hs => hQ hs.2

namespace Rests

theorem keeps (hl : Layout sb) (hroot : ROOTINO < sb.ninodes) (h : Rests sb s)
    (ht : (s.abs sb).Tree sb.ninodes) (hb : s.ledger.Backed) (call : Call)
    (hord : Orderly sb s call) : KeepsTree sb (call.run sb) s := by
  have hbegin : (s.abs sb).begin_op.Tree sb.ninodes := ht.congr rfl rfl rfl
  have hnormal : (s.abs sb).begin_op.Normal := ⟨h.wf.normal.alloc, h.wf.normal.ref⟩
  have hfree : ∀ x, ¬(s.abs sb).begin_op.Alloc x → (s.abs sb).begin_op.node x = .free :=
    fun x hx => ht.ordered.node_free hx
  cases call with
  | create path mode =>
    exact (KeepsTree.of_transacts (h.wf.op_create hl hroot path mode) fun ho =>
      hbegin.opensNew hnormal hl.inums hfree hord ho).map
  | mkdir path =>
    refine (KeepsTree.of_transacts (g := id) (h.wf.op_mkdir hl hroot path) ?_).map
    rintro r a' ⟨ip, a1, hc, rfl⟩
    obtain ⟨htree, href⟩ := hc.tree hbegin hnormal hl.inums hfree hord (.inr rfl)
    exact htree.put (href ip rfl)
  | «open» path flags =>
    exact (KeepsTree.of_transacts (h.wf.op_open hl hroot path flags) fun ho =>
      hbegin.opens hnormal hl.inums hfree hord ho).map
  | read fh buf size offset =>
    exact KeepsTree.map ((h.wf.op_read_outside h.idle fh buf size offset).imp fun _ _ hs =>
      ht.reads hs.2)
  | write fh buf size offset =>
    exact (KeepsTree.of_steps (h.wf.op_write hl fh buf size offset hord) fun hg => ht.grown hg).map
  | truncate path length =>
    exact (KeepsTree.of_steps (h.wf.op_truncate hl hroot path length hord) fun hs =>
      ht.truncates hs.1).map
  | getattr path =>
    exact (KeepsTree.of_steps (h.wf.op_getattr hl hroot path) fun hs => ht.visits hs.1).map
  | readdir fh full offset =>
    exact KeepsTree.map ((h.wf.op_readdir_outside h.idle fh full offset).imp fun _ _ hs =>
      ht.reads hs.2)
  | flush =>
    exact (KeepsTree.of_steps (h.wf.op_flush hl) fun hs => ht.flushed h.wf.normal hs.2.1).map
  | release fh =>
    refine (KeepsTree.of_steps (h.wf.op_release hl fh) fun hs =>
      ht.closed (fun htype => ?_) hs.1).map
    exact hb.refs_pos (i := fh) (if_neg htype)
  | link source dest =>
    refine (KeepsTree.of_transacts (g := id) (h.wf.do_link hl hroot source dest)
      fun hlinks => ?_).map
    cases hlinks with
    | refused hd _ => exact hbegin.during hd
    | no_parent hip _ _ hfile _ _ => exact absurd (hord _ hip) hfile
    | tried hip _ _ hfile _ _ _ _ => exact absurd (hord _ hip) hfile
  | unlink path =>
    exact (KeepsTree.of_transacts (g := id) (h.wf.do_unlink hl hroot path) fun hu =>
      hbegin.unlinks hord hu).map
  | rename source dest =>
    refine (KeepsTree.of_transacts (g := id) (h.wf.op_rename hl hroot source dest) fun hq => ?_).map
    split at hq
    · next hsame => exact hbegin.renames hl.inums (hord.1 hsame) hq
    · next hother =>
      have hmove : (s.abs sb).begin_op.Movable source dest := hord.2 hother
      exact hbegin.moves hl.inums hmove hq

end Rests

/-! ### Runs -/

/-- The process has just started over an image that is in order, names included. -/
def StartedTree (sb : SuperBlock) (s : Fs) : Prop := Started sb s ∧ (s.abs sb).Tree sb.ninodes

/-- The state between two calls, with the names in order. -/
structure Settles (sb : SuperBlock) (s : Fs) : Prop where
  rests : Rests sb s
  tree : (s.abs sb).Tree sb.ninodes
  backed : s.ledger.Backed

theorem StartedTree.settles (h : StartedTree sb s) : Settles sb s := by
  obtain ⟨hstarted, htree⟩ := h
  refine ⟨hstarted.rests, htree, ?_⟩
  obtain ⟨d, -, rfl⟩ := hstarted
  exact .boot d

theorem Settles.step (hl : Layout sb) (hroot : ROOTINO < sb.ninodes) (h : Settles sb s) {call : Call}
    (hord : Orderly sb s call) (hstep : call.step sb s = some s') : Settles sb s' := by
  obtain ⟨r, hr⟩ := Call.step_eq_some.mp hstep
  exact ⟨(h.rests.step hl hroot hord.served hstep).1,
    (h.rests.keeps hl hroot h.tree h.backed call hord).of_ok hr, Call.step_backed h.backed hstep⟩

theorem reach_settles (hl : Layout sb) (hroot : ROOTINO < sb.ninodes)
    (h : Transition.Reach (StartedTree sb) (Call.step sb) (Orderly sb) s) : Settles sb s :=
  h.invariant (Settles sb) (fun _ => StartedTree.settles) fun _ _ _ hs hord hstep =>
    hs.step hl hroot hord hstep

/-- If all inodes but the root are files with links, the names are in order as soon as the entries
are. -/
theorem AbsFs.Ordered.flat_tree (h : a.Ordered n) (hclean : a.Clean) (hlt : ∀ x, a.Alloc x → x < n)
    (hflat : ∀ x, a.Alloc x → x ≠ ROOTINO →
      (a.node x).type ≠ FileType.T_DIR ∧ (a.node x).nlink ≠ 0) : a.Tree n := by
  have hroot : ∀ x, (a.node x).type = FileType.T_DIR → x = ROOTINO := by
    intro x hx
    by_contra hne
    exact (hflat x (by rw [AbsFs.Alloc, hx]; decide) hne).1 hx
  refine ⟨h, hclean, hlt, fun x hx hne => absurd (hroot x hx) hne, fun x hx => .inl ?_⟩
  by_cases hne : x = ROOTINO
  · exact hne ▸ .root
  · obtain ⟨d, e, hd, he, hlive, -, rfl⟩ := h.named_of_nlink (hflat x hx hne).2
    obtain rfl := hroot d hd
    exact AbsFs.Reached.root.of_entry hd (h.unique _ hd) he hlive

theorem AbsFs.Clean.boot (d : Disk) : ((Fs.boot d).abs sb).Clean :=
  ⟨fun _ hx => absurd hx (Nat.lt_irrefl 0), nofun⟩

set_option maxRecDepth 100000 in
theorem rootFs_started_tree : StartedTree rootSb rootFs := by
  refine ⟨rootFs_started, rootFs_ordered.flat_tree (.boot _) (fun _ hx => alloc_lt hx)
    fun x hx hne => ?_⟩
  have hall : ∀ x < rootSb.ninodes, (rootFs.abs rootSb).Alloc x → x = ROOTINO := by decide +kernel
  exact absurd (hall x (alloc_lt hx) hx) hne

set_option maxRecDepth 100000 in
/-- A directory is made in the root, and a file in it. -/
theorem nested_run : Runs ((Call.mkdir [47, 100]).run rootSb) rootFs (fun _ s1 =>
    Runs ((Call.create [47, 100, 47, 102] 2).run rootSb) s1 (fun _ s =>
      ((s.abs rootSb).node 2).type = FileType.T_DIR ∧ (s.abs rootSb).up 2 = ROOTINO ∧
        resolve (s.abs rootSb).node [47, 100, 47, 102] = some 3) fun _ => False)
    fun _ => False := by decide +kernel

end Xv6fs
