import Xv6fs.Files.Orderly

/-! Inodes are written through: the cache holds nothing of an inode that is not on disk, but the
links that `do_link` counts. -/

namespace Xv6fs

open Program (Runs)

variable {sb : SuperBlock} {s s' : Fs} {a a' a0 : AbsFs} {x y ip i flags length : Nat}
  {path source dest name : List UInt8} {type : UInt16} {held : List Nat} {r : Int}

/-! ### One operation -/

/-- The references that an operation takes and gives back leave what is in memory as on disk. -/
theorem During.synced (hd : During a0 a held) (h : a0.Synced y) : a.Synced y := by
  intro n hm
  rw [hd.mem y n hm, h.links]
  rcases hd.node y with heq | ⟨⟨-, -, hlinks, -⟩, hfree⟩
  · rw [heq]
  · rw [hlinks, hfree]
    rfl

namespace AbsFs.Synced

theorem addParent (h : a.Synced y) : (a.addParent type x).Synced y := by
  unfold AbsFs.addParent
  split
  · exact h.setLinks _
  · exact h

theorem created {r : Option Nat} (h : a.Synced y) (hc : Created sb a path type r a') :
    a'.Synced y := by
  cases hc with
  | refused hd _ => exact hd.synced h
  | found _ _ hd _ _ _ => exact hd.synced h
  | made _ _ hd _ _ _ _ hentered =>
    exact ((((hd.synced h).alloc_link 1).entered hentered).addParent).put
  | undone _ _ hd _ _ _ _ hentered =>
    exact (((((hd.synced h).alloc_link 1).entered hentered).setLinks 0).put).put

theorem truncated (h : a.Synced y) : (a.truncated x flags).Synced y := by
  unfold AbsFs.truncated
  split
  · have hlinks : (a.setLinks x (a.links x)).Synced y := h.setLinks _
    exact hlinks.modify rfl
  · exact h

theorem entry {r : Option Nat} (h : a.Synced y) (he : Entry a ip flags r a') : a'.Synced y := by
  cases he with
  | full _ => exact h.put
  | opened _ _ _ _ _ _ => exact h.truncated

theorem opensOld {r : Option Nat} (h : a.Synced y) (ho : OpensOld a path flags r a') :
    a'.Synced y := by
  cases ho with
  | missing hd _ => exact hd.synced h
  | found _ hd _ _ hentry => exact (hd.synced h).entry hentry

theorem opensNew {r : Option Nat} (h : a.Synced y) (ho : OpensNew sb a path flags r a') :
    a'.Synced y := by
  cases ho with
  | refused hc => exact h.created hc
  | created hc hentry => exact (h.created hc).entry hentry

theorem opens {r : Option Nat} (h : a.Synced y) (ho : Opens sb a path flags r a') :
    a'.Synced y := by
  unfold Opens at ho
  split at ho
  · exact h.opensNew ho
  · exact h.opensOld ho

theorem closed (h : a.Synced y) (hc : Closed a i a') : a'.Synced y := by
  cases hc with
  | shared _ => exact h
  | last _ _ =>
    have hfile : (a.setFileEntry i { a.files i with ref := 0, type := .FD_NONE }).Synced y := h
    exact hfile.put

theorem visits (h : a.Synced y) (hv : Visits a path flags a') : a'.Synced y := by
  have hbegin : a.begin_op.Synced y := h
  cases hv with
  | missing ho =>
    have hopened := hbegin.opensOld ho
    exact hopened
  | @visited a1 _ _ ho hclose =>
    have hopened := hbegin.opensOld ho
    have hend : a1.end_op.Synced y := hopened
    exact hend.closed hclose

theorem truncates (h : a.Synced y) (ht : Truncates a path length r a') : a'.Synced y := by
  have hbegin : a.begin_op.Synced y := h
  cases ht with
  | missing ho =>
    have hopened := hbegin.opensOld ho
    exact hopened
  | @resized a1 _ i ho hclose =>
    have hopened := hbegin.opensOld ho
    have hend : a1.end_op.Synced y := hopened
    have hlinks : (a1.end_op.setLinks (a1.files i).ip (a1.end_op.links (a1.files i).ip)).Synced y :=
      hend.setLinks _
    have hsize : (a1.end_op.resize (a1.files i).ip (truncateSize length).toNat).Synced y := by
      unfold AbsFs.resize
      exact hlinks.modify rfl
    exact hsize.closed hclose

theorem grown (h : a.Synced y) (hg : Grown a x a') : a'.Synced y := by
  intro n hn
  by_cases hy : y = x
  · subst hy
    have hlinks : (a'.node y).nlink = (a.node y).nlink := by
      rcases hg.nlink with hl | hl
      · exact hl
      · rw [hl, h.links]
    rw [hlinks]
    rcases hg.mem with hm | hm
    · exact h n (hm ▸ hn)
    · rw [hm] at hn
      rw [← Option.some.inj hn, h.links]
  · rw [(hg.others y hy).1]
    exact h n ((hg.others y hy).2 ▸ hn)

theorem reads (h : (s.abs sb).Synced y) (hr : ReadOnly sb s s') : (s'.abs sb).Synced y := by
  intro n hn
  rw [hr.fresh y n hn, h.links, hr.node]

/-- `op_flush` writes all links that are in memory. -/
theorem flushed (hf : Flushed a a') : a'.Synced y := by
  intro n hn
  rw [hf.mem] at hn
  split at hn
  · cases hn
  · rw [hf.node, ← Option.some.inj hn]

theorem unlinks (h : a.Synced y) (hu : Unlinks a path r a') : a'.Synced y := by
  cases hu with
  | refused hd _ => exact hd.synced h
  | @removed a1 dp i _ hd _ _ =>
    have hset : (a1.setEntry dp i .zero).Synced y := (hd.synced h).modify rfl
    unfold AbsFs.unlink
    refine AbsFs.Synced.put (AbsFs.Synced.setLinks (AbsFs.Synced.put ?_) _)
    split
    · exact hset.setLinks _
    · exact hset

theorem renames (h : a.Synced y) (hr : Renames a source dest r a') : a'.Synced y := by
  cases hr with
  | no_parent hd _ => exact hd.synced h
  | unread _ hd _ => exact hd.synced h
  | missing _ hd _ => exact hd.synced h
  | @renamed a1 dp i _ _ hd _ =>
    have hset : ∀ e, (a1.setEntry dp i e).Synced y := fun e => (hd.synced h).modify rfl
    exact (hset _).put.put

theorem linked {inum : Nat} {b : Bool} (h : a.Synced y) (hl : Xv6fs.Linked sb a x name inum b a') :
    a'.Synced y := by
  cases hl with
  | @exists_ i _ =>
    have hget : (a.get (entryInum (a.node x).dir i)).Synced y := h
    exact hget.put
  | tried _ hstep =>
    cases hstep with
    | written =>
      have hset : (a.setEntry x (freeSlot (a.node x).dir)
          ⟨UInt16.ofNat inum, strncpy name⟩).Synced y :=
        h.modify rfl
      exact hset.modify rfl
    | no_room => exact h.modify rfl

theorem moves (h : a.Synced y) (hm : Moves sb a source dest r a') : a'.Synced y := by
  cases hm with
  | no_source hd _ => exact hd.synced h
  | unread_source _ hd _ => exact hd.synced h
  | no_dest _ hd _ => exact hd.synced h
  | unread_dest _ _ _ _ hd => exact hd.synced h
  | missing _ _ hd _ => exact hd.synced h
  | not_linked _ _ _ hd _ _ hlinked => exact ((hd.synced h).linked hlinked).put.put.put
  | @moved a1 a2 src dst i _ _ _ hd _ _ hlinked =>
    have hset : ∀ e, (a2.setEntry src i e).Synced y := fun e =>
      ((hd.synced h).linked hlinked).modify rfl
    exact (hset _).put.put.put

/-- `do_link` leaves behind the links of the file only that it links. -/
theorem links_other (h : a.Synced y) (hl : Links sb a source dest r a')
    (hne : ∀ x, resolve a.node source = some x → (a.node x).type ≠ FileType.T_DIR → y ≠ x) :
    a'.Synced y := by
  have hset : ∀ {a1 : AbsFs} {ip : Nat} (n : UInt16), a1.Synced y → y ≠ ip →
      (a1.setMem ip n).Synced y := by
    intro a1 ip n h1 hy m hm
    refine h1 m ?_
    simpa only [AbsFs.setMem, setAt_of_ne hy] using hm
  have hback : ∀ {a1 : AbsFs} {ip : Nat}, a1.Synced y → (a1.rollBack ip).Synced y :=
    fun h1 => (h1.load.setLinks _).put
  cases hl with
  | refused hd _ => exact hd.synced h
  | no_parent hip hd _ hfile _ h1 =>
    exact hback (h1.synced (hset _ (hd.synced h) (hne _ hip hfile)))
  | @tried _ _ a2 _ _ _ b hip hd _ hfile _ h1 _ hlinked =>
    have h2 : a2.Synced y := (h1.synced (hset _ (hd.synced h) (hne _ hip hfile))).linked hlinked
    cases b with
    | true => exact h2.put.put
    | false => exact hback h2.put

end AbsFs.Synced

/-! ### Runs -/

/-- The call makes a link to file `x`. -/
def Call.LinksTo (sb : SuperBlock) (s : Fs) (x : Nat) : Call → Prop
  | .link source _ => resolve (s.abs sb).node source = some x ∧
      ((s.abs sb).node x).type ≠ FileType.T_DIR
  | _ => False

/-- A call that returns leaves inode `x` on disk as it is in memory. -/
def KeepsSynced (sb : SuperBlock) {α : Type} (x : Nat) (m : Prog α) (s : Fs) : Prop :=
  Runs m s (fun _ s' => (s'.abs sb).Synced x) fun _ => True

namespace KeepsSynced

theorem map {α β : Type} {m : Prog α} {f : α → β} (h : KeepsSynced sb x m s) :
    KeepsSynced sb x (f <$> m) s := Program.runs_map.mpr h

/-- An operation of one transaction. -/
theorem of_transacts {α β : Type} {m : Prog α} {g : α → β} {Q : AbsFs → β → AbsFs → Prop}
    (hm : Does sb m s fun r s' => Transacts sb Q s (g r) s')
    (hQ : ∀ {r a'}, Q (s.abs sb).begin_op r a' → a'.Synced x) : KeepsSynced sb x m s := by
  refine hm.any.imp ?_
  rintro r s' ⟨-, ⟨a', hq, habs⟩, -⟩
  have hend := hQ hq
  rw [habs]
  exact hend

theorem of_steps {α : Type} {m : Prog α} {Q : α → Fs → Prop} (hm : Does sb m s Q)
    (hQ : ∀ {r s'}, Q r s' → (s'.abs sb).Synced x) : KeepsSynced sb x m s :=
  hm.any.imp fun _ _ hs => hQ hs.2

end KeepsSynced

theorem Rests.synced (hl : Layout sb) (hroot : ROOTINO < sb.ninodes) (h : Rests sb s)
    (hx : (s.abs sb).Synced x) (call : Call) (hserved : Served sb s call)
    (hlink : ¬call.LinksTo sb s x) : KeepsSynced sb x (call.run sb) s := by
  have hbegin : (s.abs sb).begin_op.Synced x := hx
  cases call with
  | create path mode =>
    exact (KeepsSynced.of_transacts (h.wf.op_create hl hroot path mode) hbegin.opensNew).map
  | mkdir path =>
    refine (KeepsSynced.of_transacts (g := id) (h.wf.op_mkdir hl hroot path) ?_).map
    rintro r a' ⟨ip, a1, hc, rfl⟩
    exact (hbegin.created hc).put
  | «open» path flags =>
    exact (KeepsSynced.of_transacts (h.wf.op_open hl hroot path flags) hbegin.opens).map
  | read fh buf size offset =>
    exact KeepsSynced.map ((h.wf.op_read_outside h.idle fh buf size offset).imp fun _ _ hs =>
      hx.reads hs.2)
  | write fh buf size offset =>
    exact (KeepsSynced.of_steps (h.wf.op_write hl fh buf size offset hserved) hx.grown).map
  | truncate path length =>
    exact (KeepsSynced.of_steps (h.wf.op_truncate hl hroot path length hserved) fun hs =>
      hx.truncates hs.1).map
  | getattr path =>
    exact (KeepsSynced.of_steps (h.wf.op_getattr hl hroot path) fun hs => hx.visits hs.1).map
  | readdir fh full offset =>
    exact KeepsSynced.map ((h.wf.op_readdir_outside h.idle fh full offset).imp fun _ _ hs =>
      hx.reads hs.2)
  | flush =>
    exact (KeepsSynced.of_steps (h.wf.op_flush hl) fun hs => AbsFs.Synced.flushed hs.2.1).map
  | release fh =>
    exact (KeepsSynced.of_steps (h.wf.op_release hl fh) fun hs => hx.closed hs.1).map
  | link source dest =>
    refine (KeepsSynced.of_transacts (g := id) (h.wf.do_link hl hroot source dest)
      fun hlinks => ?_).map
    exact hbegin.links_other hlinks fun y hy hfile heq => hlink (heq ▸ ⟨hy, hfile⟩)
  | unlink path =>
    exact (KeepsSynced.of_transacts (g := id) (h.wf.do_unlink hl hroot path) hbegin.unlinks).map
  | rename source dest =>
    refine (KeepsSynced.of_transacts (g := id) (h.wf.op_rename hl hroot source dest)
      fun hq => ?_).map
    split at hq
    · exact hbegin.renames hq
    · exact hbegin.moves hq

theorem AbsFs.Synced.boot (d : Disk) : ((Fs.boot d).abs sb).Synced x := nofun

/-- What is in memory of an inode whose links are those on disk is what is on disk. -/
theorem Wf.dinode_eq (h : Wf sb s) (hsync : (s.abs sb).Synced x) (hv : (s.inodes x).valid = true) :
    (s.inodes x).dinode = s.dinode sb x := by
  have hmem := abs_mem_valid sb hv
  have hlinks := hsync _ hmem
  rw [abs_nlink (h.valid_lt hv)] at hlinks
  rw [(h.cached x).synced hv, hlinks]
  rfl

/-- A run whose calls make no link to file `x` leaves it on disk as it is in memory. -/
theorem reach_synced (hl : Layout sb) (hroot : ROOTINO < sb.ninodes)
    (h : Transition.Reach (Started sb) (Call.step sb)
      (fun s call => Served sb s call ∧ ¬call.LinksTo sb s x) s) :
    Rests sb s ∧ (s.abs sb).Synced x := by
  refine h.invariant (fun s => Rests sb s ∧ (s.abs sb).Synced x) ?_ ?_
  · rintro s hs
    obtain ⟨d, hd, rfl⟩ := hs
    exact ⟨⟨hd.boot, rfl⟩, .boot d⟩
  · rintro s call s' ⟨hrests, hx⟩ ⟨hserved, hlink⟩ hstep
    obtain ⟨r, hr⟩ := Call.step_eq_some.mp hstep
    exact ⟨(hrests.step hl hroot hserved hstep).1,
      (hrests.synced hl hroot hx call hserved hlink).of_ok hr⟩

/-- After every call the inodes in the cache are as on disk, but for the links of files that
`do_link` has linked since; `op_flush` writes those too. -/
theorem inodes_written_through (hl : Layout sb) (hroot : ROOTINO < sb.ninodes)
    (h : Transition.Reach (Started sb) (Call.step sb) (Served sb) s) :
    (∀ x, (s.inodes x).valid = true →
      (s.inodes x).dinode = { s.dinode sb x with nlink := (s.inodes x).dinode.nlink } ∧
      ((s.dinode sb x).type = FileType.T_DIR → (s.inodes x).dinode = s.dinode sb x) ∧
      (Transition.Reach (Started sb) (Call.step sb)
        (fun s call => Served sb s call ∧ ¬call.LinksTo sb s x) s →
          (s.inodes x).dinode = s.dinode sb x)) ∧
    (∀ x, (s.inodes x).ref = 0 → s.inodes x = .absent) ∧
    ∀ s', Call.flush.step sb s = some s' →
      ∀ x, (s'.inodes x).valid = true → (s'.inodes x).dinode = s'.dinode sb x := by
  have hs := reach_rests hl hroot h
  refine ⟨fun x hv => ⟨(hs.wf.cached x).synced hv, fun hdir => ?_, fun hx => ?_⟩,
    fun x => (hs.wf.cached x).absent, fun s' hstep x hv => ?_⟩
  · exact ((hs.wf.cached x).synced hv).trans (by rw [(hs.wf.cached x).links hv hdir]; rfl)
  · exact hs.wf.dinode_eq (reach_synced hl hroot hx).2 hv
  · obtain ⟨r, hr⟩ := Call.step_eq_some.mp hstep
    have hsynced : KeepsSynced sb x (Call.flush.run sb) s :=
      (KeepsSynced.of_steps (hs.wf.op_flush hl) fun hs => AbsFs.Synced.flushed hs.2.1).map
    have hserved : Served sb s .flush := trivial
    exact (hs.step hl hroot hserved hstep).1.wf.dinode_eq (hsynced.of_ok hr) hv

/-- The inodes that `op_flush` goes through are below `ninodes`. -/
theorem op_flush_of_wf (h : Wf sb s) : op_flush sb s = (do
    op_flush_loop sb ((List.range sb.ninodes).filter fun x => (s.inodes x).ref ≠ 0)
    pure 0) s := by
  have hlist : (List.range (max (2 ^ 16) sb.ninodes)).filter (fun x => (s.inodes x).ref ≠ 0) =
      (List.range sb.ninodes).filter fun x => (s.inodes x).ref ≠ 0 := by
    obtain ⟨k, hk⟩ := Nat.exists_eq_add_of_le (le_max_right (2 ^ 16) sb.ninodes)
    rw [hk, List.range_add, List.filter_append, List.append_right_eq_self, List.filter_eq_nil_iff]
    intro x hx href
    obtain ⟨j, -, rfl⟩ := List.mem_map.mp hx
    have hlt := (h.cached (sb.ninodes + j)).lt (Nat.pos_of_ne_zero (of_decide_eq_true href))
    omega
  rw [← hlist]
  rfl

set_option maxRecDepth 100000 in
theorem linked_run : Runs ((Call.create [47, 102] 2).run rootSb) rootFs (fun _ s1 =>
    Runs ((Call.link [47, 102] [47, 103]).run rootSb) s1 (fun _ s =>
      (s.inodes 2).valid = true ∧ (s.inodes 2).dinode.nlink = 2 ∧ (s.dinode rootSb 2).nlink = 1 ∧
      Runs (op_flush_loop rootSb ((List.range rootSb.ninodes).filter fun x =>
        (s.inodes x).ref ≠ 0)) s (fun _ s' => (s'.inodes 2).valid = true ∧
          (s'.inodes 2).dinode.nlink = 2) fun _ => False) fun _ => False) fun _ => False := by
  decide +kernel

/-- The links of a file that gets a second name are on disk after the next `op_flush`. -/
theorem inodes_written_through_link : ∃ s s' : Fs,
    (s.inodes 2).dinode = { s.dinode rootSb 2 with nlink := 2 } ∧ (s.dinode rootSb 2).nlink = 1 ∧
    Call.flush.step rootSb s = some s' ∧ (s'.dinode rootSb 2).nlink = 2 := by
  obtain ⟨r1, s1, hcreate, hrun⟩ := linked_run.returns
  obtain ⟨r2, s, hlink, hv, hn, hdisk, r3, s', hloop, hv', hn'⟩ := (hrun.imp fun _ _ h =>
    h.imp_right (And.imp_right (And.imp_right Runs.returns))).returns
  have hreach : Transition.Reach (Started rootSb) (Call.step rootSb) (Served rootSb) s :=
    .next (.link [47, 102] [47, 103]) (.next (.create [47, 102] 2) (.start rootFs_started) trivial
      (Call.step_eq_some.mpr ⟨r1, hcreate⟩)) trivial (Call.step_eq_some.mpr ⟨r2, hlink⟩)
  have hflush : op_flush rootSb s = .ok (0, s') := by
    rw [op_flush_of_wf (reach_rests rootSb_layout (by decide) hreach).wf, Program.bind_ok]
    exact ⟨r3, s', hloop, rfl⟩
  have hstep : Call.flush.step rootSb s = some s' := by
    refine Call.step_eq_some.mpr ⟨.status 0, ?_⟩
    rw [Call.run, map_eq_pure_bind, Program.bind_ok]
    exact ⟨0, s', hflush, rfl⟩
  obtain ⟨hcached, -, hflushed⟩ := inodes_written_through rootSb_layout (by decide) hreach
  have hcopy := (hcached 2 hv).1
  have hwritten := hflushed s' hstep 2 hv'
  rw [hn] at hcopy
  rw [hwritten] at hn'
  exact ⟨s, s', hcopy, hdisk, hstep, hn'⟩

end Xv6fs
