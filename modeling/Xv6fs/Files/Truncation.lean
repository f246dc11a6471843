import Xv6fs.Fs.Access
import Xv6fs.Fs.Refusal

/-! `op_truncate` in the states that creations, writes and truncations of files lead to: exactly when
it leaves the length that it is asked for. -/

namespace Xv6fs

open Program (Runs)

variable {sb : SuperBlock} {s s' : Fs} {a a' a1 a2 : AbsFs} {x y ip dp i flags length : Nat}
  {path name : List UInt8} {type : UInt16} {r : Option Nat}

/-! ### Inodes that are no directories -/

/-- No inode has become a directory. -/
def NoNewDirs (a a' : AbsFs) : Prop :=
  ∀ x, (a'.node x).type = FileType.T_DIR → (a.node x).type = FileType.T_DIR

namespace NoNewDirs

theorem refl (a : AbsFs) : NoNewDirs a a := fun _ => id

theorem trans (h : NoNewDirs a a1) (h' : NoNewDirs a1 a2) : NoNewDirs a a2 :=
  fun x hx => h x (h' x hx)

theorem modify (a : AbsFs) (x : Nat) (f : Node → Node)
    (hf : (f (a.node x)).type = FileType.T_DIR → (a.node x).type = FileType.T_DIR) :
    NoNewDirs a (a.modify x f) := by
  intro y hy
  by_cases hyx : y = x
  · subst hyx
    rw [AbsFs.modify_node_self] at hy
    exact hf hy
  · rwa [AbsFs.modify_node_of_ne f hyx] at hy

theorem of_node (h : NoNewDirs a a1) (hnode : a2.node = a1.node) : NoNewDirs a a2 := by
  intro x hx
  rw [hnode] at hx
  exact h x hx

theorem setLinks (a : AbsFs) (x : Nat) (n : UInt16) : NoNewDirs a (a.setLinks x n) :=
  (modify a x (fun nd => { nd with nlink := n }) id).of_node rfl

theorem setFile (a : AbsFs) (x size : Nat) (slots : Nat → Nat) (bytes : Nat → UInt8) :
    NoNewDirs a (a.setFile x size slots bytes) :=
  modify a x _ id

theorem put (a : AbsFs) (x : Nat) : NoNewDirs a (a.put x) := by
  intro y hy
  unfold AbsFs.put at hy
  split at hy
  · simp only [AbsFs.free, setAt_apply] at hy
    split at hy
    · exact absurd hy (by decide)
    · exact hy
  · exact hy

theorem during {held : List Nat} (h : During a a' held) : NoNewDirs a a' := by
  intro x hx
  rcases h.node x with heq | ⟨-, hfree⟩
  · rwa [heq] at hx
  · rw [hfree] at hx
    exact absurd hx (by decide)

theorem truncated (a : AbsFs) (x flags : Nat) : NoNewDirs a (a.truncated x flags) := by
  unfold AbsFs.truncated
  split
  · exact (setLinks a x _).trans (setFile _ x _ _ _)
  · exact refl a

theorem resize (a : AbsFs) (x size : Nat) : NoNewDirs a (a.resize x size) :=
  (setLinks a x _).trans (setFile _ x _ _ _)

theorem enters {inum : Nat} {b : Bool} (h : a.Enters sb x name inum b a') : NoNewDirs a a' := by
  cases h with
  | added _ => exact (modify a x _ id).trans (modify _ x _ id)
  | no_room _ _ => exact modify a x _ id

theorem entered {b : Bool} (h : Entered sb a type dp ip name b a') : NoNewDirs a a' := by
  cases h with
  | file _ h => exact enters h
  | dir _ hdot hdotdot h => exact ((enters hdot).trans (enters hdotdot)).trans (enters h)
  | not _ _ _ _ => exact (modify a ip _ id).trans (modify _ dp _ id)

theorem addParent (a : AbsFs) (type : UInt16) (x : Nat) : NoNewDirs a (a.addParent type x) := by
  unfold AbsFs.addParent
  split
  · exact setLinks a x _
  · exact refl a

theorem alloc (a : AbsFs) (x : Nat) (hfile : type ≠ FileType.T_DIR) :
    NoNewDirs a ((a.alloc x type).setLinks x 1) := by
  intro y hy
  by_cases hyx : y = x
  · subst hyx
    rw [AbsFs.alloc_node] at hy
    exact absurd hy hfile
  · rwa [AbsFs.alloc_node_of_ne a type hyx] at hy

end NoNewDirs

/-- The new file that `create` makes. -/
theorem NoNewDirs.made {dp : Nat} (hfile : type ≠ FileType.T_DIR) (h : During a a1 [dp])
    (hentered : Entered sb ((a1.alloc ip type).setLinks ip 1) type dp ip name true a2) :
    NoNewDirs a ((a2.addParent type dp).put dp) :=
  ((((during h).trans (alloc a1 ip hfile)).trans (entered hentered)).trans
    (addParent a2 type dp)).trans (put _ dp)

theorem NoNewDirs.created (hfile : type ≠ FileType.T_DIR) (h : Created sb a path type r a') :
    NoNewDirs a a' := by
  cases h with
  | refused h _ => exact during h
  | found _ _ h _ _ _ => exact during h
  | made _ _ h _ _ _ _ hentered => exact made hfile h hentered
  | undone _ _ h _ _ _ _ hentered =>
    have hmade := ((during h).trans (alloc _ _ hfile)).trans (entered hentered)
    exact ((hmade.trans (setLinks _ _ 0)).trans (put _ _)).trans (put _ _)

/-- What `create` of a file returns is no directory. -/
theorem Created.not_dir (hfile : type ≠ FileType.T_DIR) (h : Created sb a path type (some ip) a') :
    (a'.node ip).type ≠ FileType.T_DIR := by
  cases h with
  | found _ _ h _ hip _ =>
    intro hdir
    rcases hip with hip | hip
    · exact absurd (hip.symm.trans (NoNewDirs.during h _ hdir)) (by decide)
    · exact absurd (hip.symm.trans (NoNewDirs.during h _ hdir)) (by decide)
  | made _ _ h _ _ _ _ hentered =>
    intro hdir
    have halloc := ((NoNewDirs.entered hentered).trans (.addParent _ type _)).trans (.put _ _) ip hdir
    rw [AbsFs.alloc_node] at halloc
    exact hfile halloc

theorem NoNewDirs.entry (h : Entry a ip flags r a') : NoNewDirs a a' := by
  cases h with
  | full _ => exact put a ip
  | opened _ _ _ _ _ _ => exact (truncated a ip flags).of_node rfl

theorem NoNewDirs.closed (h : Closed a i a') : NoNewDirs a a' := by
  cases h with
  | shared _ => exact (refl a).of_node rfl
  | last _ _ => exact ((refl a).of_node rfl).trans (put _ _)

theorem NoNewDirs.grown (h : Grown a x a') : NoNewDirs a a' := by
  intro y hy
  by_cases hyx : y = x
  · subst hyx
    rwa [h.type] at hy
  · rwa [(h.others y hyx).1] at hy

/-! ### Handles of files -/

/-- No handle is of a directory. -/
def FileHandles (a : AbsFs) : Prop :=
  ∀ i, (a.files i).type = .FD_INODE → (a.node (a.files i).ip).type ≠ FileType.T_DIR

namespace FileHandles

/-- Handles that are as they were, but for their offsets, or closed, or of no directory. -/
theorem step (h : FileHandles a) (hdirs : NoNewDirs a a')
    (hfiles : ∀ i, (a'.files i).type = .FD_INODE → (a.files i).type = .FD_INODE ∧
      (a'.files i).ip = (a.files i).ip ∨ (a'.node (a'.files i).ip).type ≠ FileType.T_DIR) :
    FileHandles a' := by
  intro i hi
  rcases hfiles i hi with ⟨htype, hip⟩ | hne
  · intro hdir
    rw [hip] at hdir
    exact h i htype (hdirs _ hdir)
  · exact hne

theorem same (h : FileHandles a) (hdirs : NoNewDirs a a') (hfiles : a'.files = a.files) :
    FileHandles a' :=
  h.step hdirs fun i hi => .inl (by rw [← hfiles]; exact ⟨hi, rfl⟩)

/-- Entry `i` of the file table changes. -/
theorem setFileEntry (h : FileHandles a) {f : OFile}
    (hf : f.type = .FD_INODE → (a.node f.ip).type ≠ FileType.T_DIR) :
    FileHandles (a.setFileEntry i f) := by
  refine h.step ((NoNewDirs.refl a).of_node rfl) fun j hj => ?_
  simp only [AbsFs.setFileEntry, setAt_apply] at hj ⊢
  split at hj
  · rw [if_pos ‹_›]
    exact .inr (hf hj)
  · rw [if_neg ‹_›]
    exact .inl ⟨hj, rfl⟩

theorem entry (h : FileHandles a) (hip : (a.node ip).type ≠ FileType.T_DIR)
    (hentry : Entry a ip flags r a') : FileHandles a' := by
  cases hentry with
  | full _ => exact h.same (.put a ip) (AbsFs.put_files a ip)
  | opened _ _ hf _ _ _ =>
    have hfiles : (a.truncated ip flags).files = a.files := by
      unfold AbsFs.truncated
      split <;> rfl
    refine (h.same (.truncated a ip flags) hfiles).setFileEntry fun _ hdir => ?_
    rw [hf.ip] at hdir
    exact hip (NoNewDirs.truncated a ip flags ip hdir)

theorem closed (h : FileHandles a) (hclose : Closed a i a') : FileHandles a' := by
  cases hclose with
  | shared _ => exact h.setFileEntry (h i)
  | last _ _ =>
    refine (h.setFileEntry fun hno => ?_).same (.put _ _) (AbsFs.put_files _ _)
    cases hno

theorem opensNew (h : FileHandles a) (ho : OpensNew sb a path flags r a') : FileHandles a' := by
  cases ho with
  | refused hc => exact h.same (.created (by decide) hc) hc.frame.1
  | created hc hentry =>
    exact (h.same (.created (by decide) hc) hc.frame.1).entry (hc.not_dir (by decide)) hentry

theorem opensOld (h : FileHandles a)
    (hfile : ∀ x, resolve a.node path = some x → (a.node x).type ≠ FileType.T_DIR)
    (ho : OpensOld a path flags r a') : FileHandles a' := by
  cases ho with
  | missing hd _ => exact h.same (.during hd) hd.files
  | found hip hd _ _ hentry =>
    exact (h.same (.during hd) hd.files).entry
      (fun hdir => hfile _ hip (NoNewDirs.during hd _ hdir)) hentry

theorem grown (h : FileHandles a) (hg : Grown a x a') : FileHandles a' := by
  refine h.step (.grown hg) fun i hi => .inl ?_
  obtain ⟨off, hoff⟩ := hg.files i
  rw [hoff] at hi ⊢
  exact ⟨hi, rfl⟩

theorem truncates {r : Int} (h : FileHandles a)
    (hfile : ∀ x, resolve a.node path = some x → (a.node x).type ≠ FileType.T_DIR)
    (ht : Truncates a path length r a') : FileHandles a' := by
  cases ht with
  | missing ho => exact (h.opensOld (a := a.begin_op) hfile ho : FileHandles _)
  | resized ho hclose =>
    have h1 := FileHandles.opensOld (a := a.begin_op) h hfile ho
    have h2 : FileHandles (AbsFs.end_op _) := h1.same ((NoNewDirs.refl _).of_node rfl) rfl
    exact (h2.same (.resize _ _ _) rfl).closed hclose

end FileHandles

/-! ### What a truncation leaves -/

theorem AbsFs.doomed_begin_op : a.begin_op.Doomed x ↔ a.Doomed x := by
  have hnode : a.begin_op.node = a.node := rfl
  exact ⟨fun h => ⟨h.1, h.2.1, h.2.2.1, h.2.2.2.congr hnode⟩,
    fun h => ⟨h.1, h.2.1, h.2.2.1, h.2.2.2.congr hnode.symm⟩⟩

/-- The only reference to an inode that an operation holds is the last one of an inode without links
when the inode was doomed. -/
theorem During.last_iff (h : During a a1 [x]) (hn : a.Normal) (halloc : a1.Alloc x)
    (hmem : a1.mem x = some (a.links x)) :
    (a1.ref x = 1 ∧ a1.mem x = some 0) ↔ a.Doomed x := by
  refine ⟨fun hlast => (h.doomed hn halloc List.mem_cons_self hlast).1, fun hd => ?_⟩
  have href := h.ref x
  rw [List.count_singleton_self, hd.1] at href
  refine ⟨href, ?_⟩
  cases hm : a.mem x with
  | some n => exact absurd (hn.ref x n hm) (by rw [hd.1]; exact Nat.lt_irrefl 0)
  | none => rw [hmem, AbsFs.links, hm, Option.getD_none, hd.2.2.1]

namespace AbsFs

theorem put_last (h : a.ref x = 1 ∧ a.mem x = some 0) : (a.put x).node x = .free := by
  rw [put, if_pos h]
  exact setAt_self

theorem resize_node (size : Nat) : (a.resize x size).node x =
    { a.node x with nlink := a.links x, size } := by
  simp only [resize, setFile, setLinks, setMem, modify, setAt_self]

end AbsFs

/-- What is left of a file that is resized and that nobody else uses. -/
inductive Resized (a : AbsFs) (x size : Nat) : Node → Prop
  | kept (h : ¬a.Doomed x) : Resized a x size { a.node x with nlink := a.links x, size }
  | freed (h : a.Doomed x) : Resized a x size .free

/-- Without room in the file table the file is as it was, unless it was doomed. -/
theorem Truncates.missing_iff {n : Int} (h : Truncates a path length n a') (hn : a.Normal)
    (hx : resolve a.node path = some x) (hfile : (a.node x).type = FileType.T_FILE) (hneg : n ≠ 0) :
    n = -ENOENT ∧ a.TableFull ∧ (a'.node x = a.node x ↔ ¬a.Doomed x) := by
  cases h with
  | resized _ _ => exact absurd rfl hneg
  | missing ho =>
    cases ho with
    | missing _ hwhy => exact absurd (hfile.symm.trans (hwhy x hx)) (by decide)
    | @found a2 _ y _ hip hd halloc hmem hentry =>
      cases hx.symm.trans hip
      cases hentry with
      | full hfull =>
        refine ⟨rfl, fun i hi => hd.files ▸ hfull i hi, ?_⟩
        have hiff : (a2.ref x = 1 ∧ a2.mem x = some 0) ↔ a.Doomed x :=
          (hd.last_iff ⟨hn.alloc, hn.ref⟩ halloc hmem).trans AbsFs.doomed_begin_op
        by_cases hlast : a2.ref x = 1 ∧ a2.mem x = some 0
        · refine iff_of_false (fun hnode => ?_) fun hno => hno (hiff.mp hlast)
          have hfree : (AbsFs.end_op (a2.put x)).node x = .free := AbsFs.put_last hlast
          rw [hnode] at hfree
          rw [hfree] at hfile
          exact absurd hfile (by decide)
        · refine iff_of_true ?_ fun hdoomed => hlast (hiff.mpr hdoomed)
          show (a2.put x).node x = a.node x
          rw [AbsFs.put_node hlast]
          exact hd.node_eq halloc

/-- The close of a handle that is open once ends its reference to the inode. -/
theorem Closed.node_eq (h : Closed a i a') (hone : (a.files i).ref = 1) :
    a'.node = (a.put (a.files i).ip).node := by
  cases h with
  | shared hgt => exact absurd hgt (by rw [hone]; exact Nat.lt_irrefl 1)
  | last _ _ =>
    rw [AbsFs.put_setFileEntry]
    rfl

/-- With room in the file table the file gets its size, and goes if it was doomed. -/
theorem Truncates.resized_node (h : Truncates a path length 0 a') (hn : a.Normal)
    (hx : resolve a.node path = some x) :
    ¬a.TableFull ∧ Resized a x (truncateSize length).toNat (a'.node x) := by
  generalize hr : (0 : Int) = n at h
  cases h with
  | missing _ => exact absurd hr (by decide)
  | @resized _ _ i ho hclose =>
    cases ho with
    | @found a2 _ y _ hip hd halloc hmem hentry =>
      cases hx.symm.trans hip
      cases hentry with
      | @opened _ f hi hfree hf href _ _ =>
        refine ⟨fun hfull => hfull i hi (by rw [← hfree, hd.files]; rfl), ?_⟩
        have hiff : (a2.ref x = 1 ∧ a2.mem x = some 0) ↔ a.Doomed x :=
          (hd.last_iff ⟨hn.alloc, hn.ref⟩ halloc hmem).trans AbsFs.doomed_begin_op
        have ht : a2.truncated x O_RDWR = a2 := if_neg fun h => absurd h.1 (by decide)
        have hfile : (a2.setFileEntry i f).files i = f := setAt_self
        rw [ht, hfile, hf.ip] at hclose
        generalize hb : (a2.setFileEntry i f).end_op.resize x _ = b at hclose
        have hbfile : b.files i = f := by rw [← hb]; exact hfile
        have hblinks : (a2.setFileEntry i f).end_op.links x = a.links x := by
          show a2.links x = a.links x
          rw [AbsFs.links, hmem]
          rfl
        have hbnode : b.node x =
            { a.node x with nlink := a.links x, size := (truncateSize length).toNat } := by
          have hnode : (a2.setFileEntry i f).end_op.node x = a.node x := hd.node_eq halloc
          rw [← hb, AbsFs.resize_node, hblinks, hnode]
        have hbmem : b.mem x = a2.mem x := by
          rw [← hb, hmem]
          exact setAt_self.trans (congrArg some hblinks)
        have hbref : b.ref x = a2.ref x := by rw [← hb]; rfl
        rw [hclose.node_eq (by rw [hbfile, href]), hbfile, hf.ip]
        rw [← hbref, ← hbmem] at hiff
        by_cases hlast : b.ref x = 1 ∧ b.mem x = some 0
        · rw [AbsFs.put_last hlast]
          exact .freed (hiff.mp hlast)
        · rw [AbsFs.put_node hlast, hbnode]
          exact .kept fun hdoomed => hlast (hiff.mpr hdoomed)

/-! ### What a caller expects -/

/-- What a caller of `op_truncate` expects of regular file `x`. -/
structure ExactLength (a : AbsFs) (x length : Nat) (r : Int) (a' : AbsFs) : Prop where
  exact : length ≤ MAX_SIZE → r = 0 → (a'.node x).type = FileType.T_FILE ∧
    (a'.node x).size = length ∧
    (∀ o < min (a.node x).size length, (a'.node x).bytes o = (a.node x).bytes o) ∧
    ∀ o, (a.node x).size ≤ o → o < length → (a'.node x).bytes o = 0
  refused : MAX_SIZE < length → r < 0 ∧ a'.node x = a.node x

/-- The length is a whole number of blocks that a file may have, and the blocks that the file has kept
behind its end hold zeros. -/
structure Fits (a : AbsFs) (x length : Nat) : Prop where
  max : length ≤ MAX_SIZE
  whole : BSIZE ∣ length
  zeros : ∀ o, (a.node x).size ≤ o → o < length → (a.node x).bytes o = 0

/-- When `op_truncate` does what its caller expects. -/
def Truncatable (a : AbsFs) (x length : Nat) : Prop :=
  a.TableFull ∧ (length ≤ MAX_SIZE ∨ ¬a.Doomed x) ∨
    ¬a.TableFull ∧ ¬a.Doomed x ∧ Fits a x length

theorem truncateSize_toNat (h : length ≤ MAX_SIZE) :
    (truncateSize length).toNat = (length + BSIZE - 1) / BSIZE * BSIZE := by
  simp only [truncateSize, MAX_SIZE, MAX_FILE, NINDIRECT, NDIRECT, BSIZE, UInt32.toNat_ofNat'] at *
  omega

/-- The size is the length exactly when that is a whole number of blocks. -/
theorem truncateSize_eq_iff (h : length ≤ MAX_SIZE) :
    (truncateSize length).toNat = length ↔ BSIZE ∣ length := by
  rw [truncateSize_toNat h]
  simp only [BSIZE]
  omega

/-- Of a file that is resized, the caller gets what is expected when the length fits. -/
theorem Resized.exact_iff (hfile : (a.node x).type = FileType.T_FILE)
    (h : Resized a x (truncateSize length).toNat (a'.node x)) :
    ExactLength a x length 0 a' ↔ ¬a.Doomed x ∧ Fits a x length := by
  generalize hnd : a'.node x = nd at h
  constructor
  · intro ht
    have hmax : length ≤ MAX_SIZE :=
      Nat.le_of_not_lt fun hlt => absurd (ht.refused hlt).1 (Int.lt_irrefl 0)
    obtain ⟨htype, hsize, -, hzeros⟩ := ht.exact hmax rfl
    rw [hnd] at htype hsize hzeros
    cases h with
    | kept hdoomed => exact ⟨hdoomed, hmax, (truncateSize_eq_iff hmax).mp hsize, hzeros⟩
    | freed _ => exact absurd htype (by decide)
  · rintro ⟨hdoomed, hfits⟩
    cases h with
    | kept _ =>
      refine ⟨fun hmax _ => ?_, fun hlt => absurd hfits.max (Nat.not_le.mpr hlt)⟩
      rw [hnd]
      exact ⟨hfile, (truncateSize_eq_iff hmax).mpr hfits.whole, fun _ _ => rfl, hfits.zeros⟩
    | freed h => exact absurd h hdoomed

/-- When a truncation of a regular file does what its caller expects. -/
theorem Truncates.exact_iff {n : Int} (h : Truncates a path length n a') (hn : a.Normal)
    (hx : resolve a.node path = some x) (hfile : (a.node x).type = FileType.T_FILE) :
    ExactLength a x length n a' ↔ Truncatable a x length := by
  by_cases h0 : n = 0
  · subst h0
    obtain ⟨hroom, hresized⟩ := h.resized_node hn hx
    rw [hresized.exact_iff hfile]
    exact ⟨fun hfits => .inr ⟨hroom, hfits⟩, fun hcond => (hcond.resolve_left fun hp =>
      hroom hp.1).2⟩
  · obtain ⟨rfl, hfull, hnode⟩ := h.missing_iff hn hx hfile h0
    constructor
    · intro ht
      refine .inl ⟨hfull, ?_⟩
      by_cases hmax : length ≤ MAX_SIZE
      · exact .inl hmax
      · exact .inr (hnode.mp (ht.refused (Nat.lt_of_not_le hmax)).2)
    · intro hcond
      refine ⟨fun _ hr => absurd hr h0, fun hlt => ⟨by decide, hnode.mpr ?_⟩⟩
      rcases hcond with ⟨-, hcond⟩ | ⟨hroom, -⟩
      · exact hcond.resolve_left (Nat.not_le.mpr hlt)
      · exact absurd hfull hroom

/-! ### Runs -/

/-- A file system in order that has been mounted: no file is open. -/
structure Mounted (sb : SuperBlock) (s : Fs) : Prop where
  wf : Wf sb s
  closed : ∀ i, (s.files i).type = .FD_NONE

/-- The calls that create, write and truncate files. -/
def FileCall (sb : SuperBlock) (s : Fs) : Call → Prop
  | .create _ _ => True
  | .write _ _ _ _ => True
  | .truncate path _ => ∀ x, resolve (s.abs sb).node path = some x →
      ((s.abs sb).node x).type ≠ FileType.T_DIR
  | _ => False

/-- A call that creates, writes or truncates a file keeps the state in order. -/
theorem FileCall.keeps (hl : Layout sb) (hroot : ROOTINO < sb.ninodes) {call : Call}
    (hcall : FileCall sb s call) (h : Wf sb s) (hfiles : FileHandles (s.abs sb))
    (hstep : call.step sb s = some s') : Wf sb s' ∧ FileHandles (s'.abs sb) := by
  obtain ⟨r, hrun⟩ := Call.step_eq_some.mp hstep
  have hmap : ∀ {α : Type} {m : Prog α} {f : α → Reply},
      Does sb m s (fun _ s' => FileHandles (s'.abs sb)) →
        Does sb (f <$> m) s fun _ s' => FileHandles (s'.abs sb) :=
    fun hm => Program.runs_map.mpr hm
  have hdoes : Does sb (call.run sb) s fun _ s' => FileHandles (s'.abs sb) := by
    cases call with
    | create path mode =>
      refine hmap ((h.op_create hl hroot path mode).imp fun r s1 _ ⟨⟨a1, ho, habs⟩, _⟩ => ?_)
      rw [habs]
      exact (FileHandles.opensNew (a := (s.abs sb).begin_op) hfiles ho).same
        ((NoNewDirs.refl a1).of_node rfl) rfl
    | write fh buf size offset =>
      exact hmap ((h.op_write hl fh buf size offset (hfiles fh)).imp fun _ _ _ => hfiles.grown)
    | truncate path length =>
      exact hmap ((h.op_truncate hl hroot path length hcall).imp fun _ _ _ ⟨ht, _⟩ =>
        hfiles.truncates hcall ht)
    | _ => exact hcall.elim
  exact hdoes.of_ok hrun

theorem rootFs_mounted : Mounted rootSb rootFs := ⟨rootFs_wf, fun _ => rfl⟩

theorem reach_call {s' : Fs} {r : Reply} (call : Call)
    (h : Transition.Reach (Mounted sb) (Call.step sb) (FileCall sb) s) (hcall : FileCall sb s call)
    (hrun : call.run sb s = .ok (r, s')) :
    Transition.Reach (Mounted sb) (Call.step sb) (FileCall sb) s' :=
  .next call h hcall (Call.step_eq_some.mpr ⟨r, hrun⟩)

end Xv6fs
