import Xv6fs.Fs.Creation
import Xv6fs.Fs.Open

/-! Opens and creations that fail: they leave no trace, but for a file that is new when the file
table is full, and for `op_mkdir`, which goes on without an inode. -/

namespace Xv6fs

open Program (Runs runs_bind runs_get runs_ite runs_true)

variable {sb : SuperBlock} {s s' s1 s2 : Fs} {a a' a0 a1 : AbsFs} {x ip dp flags omode : Nat}
  {path : List UInt8} {type : UInt16} {r : Option Nat}

/-- What can be found, what is free, what files and directories hold and which files are open is as
it was. -/
structure Harmless (a a' : AbsFs) : Prop where
  paths : ∀ q, resolve a'.node q = resolve a.node q
  free : ∀ x, a'.Alloc x ↔ a.Alloc x
  content : ∀ x, a.Alloc x → (a'.node x).dir = (a.node x).dir ∧
    (a'.node x).size = (a.node x).size ∧ (a'.node x).bytes = (a.node x).bytes
  files : a'.files = a.files

/-- A new file can be made at `path`. -/
def AbsFs.CanCreate (sb : SuperBlock) (a : AbsFs) (path : List UInt8) : Prop :=
  ∃ dp name, resolveParent a.node path = some (dp, name) ∧
    findEntry (a.node dp).dir name = none ∧ (∃ x, 1 ≤ x ∧ x < sb.ninodes ∧ ¬a.Alloc x) ∧
    a.Room sb dp

/-- No walk comes to an inode that has no links and that nobody uses, and what is in use is
allocated. -/
structure AbsFs.Settled (a : AbsFs) : Prop where
  normal : a.Normal
  doomed : ∀ x, ¬a.Doomed x
  refs : ∀ x, ¬a.Alloc x → a.ref x = 0

theorem AbsFs.CanCreate.creatable (h : a.CanCreate sb path) : a.Creatable sb path := by
  obtain ⟨dp, name, hparent, hnone, hfree, -⟩ := h
  exact ⟨dp, name, hparent, hnone, hfree⟩

namespace Harmless

theorem of_nodes (hnode : a'.node = a.node) (hfiles : a'.files = a.files) : Harmless a a' where
  paths q := by rw [hnode]
  free x := by rw [AbsFs.Alloc, AbsFs.Alloc, hnode]
  content x _ := by rw [hnode]; exact ⟨rfl, rfl, rfl⟩
  files := hfiles

theorem of_left (hleft : ∀ x, Left a path x (a'.node x)) (hfiles : a'.files = a.files) :
    Harmless a a' := by
  have htype : ∀ x, (a'.node x).type = (a.node x).type := by
    intro x
    rcases hleft x with heq | ⟨hfree, heq⟩ | ⟨_, _, -, -, heq⟩
    · rw [heq]
    · rw [heq, not_not.mp hfree]
      rfl
    · rw [heq]
  have hcontent : ∀ x, a.Alloc x → (a'.node x).dir = (a.node x).dir ∧
      (a'.node x).size = (a.node x).size ∧ (a'.node x).bytes = (a.node x).bytes := by
    intro x hx
    rcases hleft x with heq | ⟨hfree, -⟩ | ⟨_, _, -, -, heq⟩
    · rw [heq]
      exact ⟨rfl, rfl, rfl⟩
    · exact absurd hx hfree
    · rw [heq]
      exact ⟨rfl, rfl, rfl⟩
  refine ⟨fun q => ?_, fun x => by rw [AbsFs.Alloc, AbsFs.Alloc, htype], hcontent, hfiles⟩
  rw [resolve, resolve, resolve_loop_congr (a := a) (fun x _ => htype x) .root]
  intro p hp
  rw [(hcontent p.1 (by rw [AbsFs.Alloc, walk_dir p hp]; decide)).1]

end Harmless

/-- `create` that returns no inode leaves no trace, and there was no room for one. -/
theorem Created.refused_harmless (h0 : a0.Settled) (h : Created sb a0 path type none a') :
    Harmless a0 a' :=
  .of_left (h.left h0.normal h0.doomed h0.refs) h.frame.1

/-- A new inode has no blocks yet. -/
theorem free_blocks_alloc (hl : Layout sb) (hfree : ¬a.Alloc ip) :
    ((a.alloc ip type).setLinks ip 1).free_blocks sb = a.free_blocks sb := by
  apply Finset.filter_congr
  intro b _
  refine and_congr_right fun hb => ?_
  have hpos := hl.datastart_pos
  constructor
  · intro hall x hx hal k hk
    have hne : x ≠ ip := fun heq => hfree (heq ▸ hal)
    have hnode := AbsFs.alloc_node_of_ne a type hne
    rw [← hnode]
    exact hall x hx (by rwa [AbsFs.Alloc, hnode]) k hk
  · intro hall x hx hal k hk
    by_cases hne : x = ip
    · subst hne
      rw [AbsFs.alloc_node]
      show 0 ≠ b
      omega
    · have hnode := AbsFs.alloc_node_of_ne a type hne
      rw [AbsFs.Alloc, hnode] at hal
      rw [hnode]
      exact hall x hx hal k hk

/-- There is as much room as before. -/
theorem room_alloc (hl : Layout sb) (hne : dp ≠ ip) (hfree : ¬a.Alloc ip) :
    ((a.alloc ip type).setLinks ip 1).Room sb dp ↔ a.Room sb dp := by
  rw [AbsFs.Room, AbsFs.RoomAt, AbsFs.needed, free_blocks_alloc hl hfree,
    AbsFs.alloc_node_of_ne a type hne]
  rfl

theorem room_congr (h : a'.node = a.node) : a'.Room sb dp ↔ a.Room sb dp := by
  cases a
  cases a'
  cases h
  rfl

/-- There was no room for a file when `create` returns none. -/
theorem Created.not_canCreate (hl : Layout sb) (h0 : a0.Settled)
    (h : Created sb a0 path FileType.T_FILE none a') : ¬a0.CanCreate sb path := by
  cases h with
  | refused _ hno => exact fun hcan => hno hcan.creatable
  | @undone a a1 dp ip name hparent hfind h hopen _ _ hfree hentered =>
    rintro ⟨dp', name', hparent', -, -, hroom⟩
    cases hparent.symm.trans hparent'
    have hne : dp ≠ ip := fun heq => hfree (by rw [AbsFs.Alloc, ← heq, hopen.1]; decide)
    cases hentered with
    | not _ _ _ hno =>
      apply hno (by decide)
      rw [room_alloc hl hne hfree, room_congr (h.nodes_eq h0.doomed)]
      exact hroom

/-- There was room for a file that is new, and it is there. -/
theorem Created.new_file (hl : Layout sb) (h0 : a0.Settled)
    (h : Created sb a0 path FileType.T_FILE (some ip) a') :
    (During a0 a' [ip] ∧ a'.Alloc ip ∧ ¬a0.CanCreate sb path) ∨
      a0.CanCreate sb path ∧ ¬a0.Alloc ip ∧ a'.Alloc ip ∧ a'.mem ip = some 1 := by
  cases h with
  | @found _ dp i name hparent hfind h _ hip _ =>
    refine .inl ⟨h, ?_, ?_⟩
    · rw [AbsFs.Alloc, h.nodes_eq h0.doomed]
      rcases hip with hip | hip <;> rw [hip] <;> decide
    · rintro ⟨dp', name', hparent', hnone, -⟩
      cases hparent.symm.trans hparent'
      rw [hfind] at hnone
      cases hnone
  | @made a a1 dp _ name hparent hnone h hopen hpos hlt hfree hentered =>
    have hne : dp ≠ ip := fun heq => hfree (by rw [AbsFs.Alloc, ← heq, hopen.1]; decide)
    have hnode := h.nodes_eq h0.doomed
    have hfree0 : ¬a0.Alloc ip := by rwa [AbsFs.Alloc, ← hnode]
    have hparentop : a1.addParent FileType.T_FILE dp = a1 := if_neg (by decide)
    cases hentered with
    | file _ henters =>
      refine .inr ⟨⟨dp, name, hparent, hnone, ⟨ip, hpos, hlt, hfree0⟩, ?_⟩, hfree0, ?_, ?_⟩
      · cases henters with
        | added hroom =>
          rw [room_alloc hl hne hfree, room_congr hnode] at hroom
          exact hroom
      · rw [hparentop, AbsFs.Alloc, AbsFs.put_node_of_ne (Ne.symm hne), henters.other (Ne.symm hne),
          AbsFs.alloc_node]
        exact (by decide : FileType.T_FILE ≠ FileType.Invalid)
      · rw [hparentop, AbsFs.put_mem_of_ne (Ne.symm hne), henters.frame.2.1]
        exact setAt_self
    | dir htype => exact absurd htype (by decide)

/-- A file that is opened, or created, while the file table is full. -/
theorem Entry.refused {a1 : AbsFs} (h0 : a0.Settled) (h : During a0 a [ip]) (hal : a.Alloc ip)
    (hentry : Entry a ip flags none a1) : Harmless a0 a1 := by
  cases hentry with
  | full _ =>
    have hkeeps := h.keeps h0.normal h0.doomed List.mem_cons_self hal
    exact .of_nodes ((AbsFs.put_node hkeeps).trans (h.nodes_eq h0.doomed))
      ((AbsFs.put_files a ip).trans h.files)

/-- A failure in a transaction that creates a file leaves no trace, unless it has created one. -/
theorem OpensNew.harmless_iff (hl : Layout sb) (h0 : a0.Settled)
    (h : OpensNew sb a0 path flags none a') :
    Harmless a0 a' ↔ ¬(a0.TableFull ∧ a0.CanCreate sb path) := by
  cases h with
  | refused h =>
    exact ⟨fun _ hp => h.not_canCreate hl h0 hp.2, fun _ => h.refused_harmless h0⟩
  | @created a _ ip _ h hentry =>
    rcases h.new_file hl h0 with ⟨hduring, hal, hno⟩ | ⟨hcan, hfree, hal, hmem⟩
    · exact ⟨fun _ hp => hno hp.2, fun _ => hentry.refused h0 hduring hal⟩
    · have hfiles := h.frame.1
      cases hentry with
      | full hfull =>
        have hnode : (a.put ip).node = a.node := AbsFs.put_node fun hlast => by
          rw [hmem] at hlast
          exact absurd hlast.2 (by decide)
        constructor
        · intro hharmless
          exact absurd ((hharmless.free ip).mp (by rwa [AbsFs.Alloc, hnode])) hfree
        · intro hno
          exact absurd ⟨fun i hi => hfiles ▸ hfull i hi, hcan⟩ hno

/-- A failure in a transaction that opens what is there leaves no trace. -/
theorem OpensOld.harmless (h0 : a0.Settled) (h : OpensOld a0 path flags none a') :
    Harmless a0 a' := by
  cases h with
  | missing h _ => exact .of_nodes (h.nodes_eq h0.doomed) h.files
  | found _ h hal _ hentry => exact hentry.refused h0 h hal

/-! ### Calls -/

/-- `op_create` without a handle has failed. -/
theorem op_create_result (path : List UInt8) (omode : Nat) :
    Runs (op_create sb path omode) s (fun r _ => r.2 = none → r.1 < 0) fun _ => True := by
  refine runs_true.bind fun _ s1 _ => runs_true.bind fun r s2 _ => ?_
  cases r with
  | none => exact runs_true.bind fun _ s3 _ _ => by decide
  | some ip =>
    refine runs_true.bind fun r s3 _ => ?_
    cases r with
    | none =>
      exact runs_true.bind fun _ s4 _ => runs_true.bind fun _ s5 _ _ => by decide
    | some i =>
      refine runs_true.bind fun _ s4 _ => runs_bind.mpr (runs_ite.mpr ⟨fun _ => ?_, fun _ => ?_⟩)
      · exact runs_true.bind fun _ s5 _ => runs_true.bind fun _ s6 _ => runs_true.bind
          fun _ s7 _ hnone => nomatch hnone
      · exact runs_true.bind fun _ s5 _ => runs_true.bind fun _ s6 _ hnone => nomatch hnone

theorem AbsFs.Reached.congr (hnode : a'.node = a.node) (hx : a'.Reached x) : a.Reached x := by
  cases a
  cases a'
  cases hnode
  induction hx with
  | root => exact .root
  | entry _ htype hfind ih => exact .entry ih htype hfind

theorem AbsFs.Settled.begin_op (h : a.Settled) : a.begin_op.Settled where
  normal := ⟨h.normal.alloc, h.normal.ref⟩
  doomed x hx := h.doomed x ⟨hx.1, hx.2.1, hx.2.2.1, hx.2.2.2.congr (show a.begin_op.node = a.node from rfl)⟩
  refs := h.refs

theorem Harmless.transaction (h : Harmless a.begin_op a') : Harmless a a'.end_op :=
  ⟨h.paths, h.free, h.content, h.files⟩

/-- The root directory has been opened as often as there are entries in the file table. -/
def fullFs : Fs := { rootFs with
  inodes := setAt rootFs.inodes ROOTINO ⟨NFILE, false, true, rootInode⟩
  files := fun i => if i < NFILE then ⟨.FD_INODE, ROOTINO, 0, 0, true, false, 1⟩ else OFile.none }

theorem rootFs_settled : (rootFs.abs rootSb).Settled where
  normal := rootFs_wf.normal
  doomed := rootFs_ordered.not_doomed fun _ hx => alloc_lt hx
  refs _ _ := rfl

end Xv6fs
