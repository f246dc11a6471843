import Xv6fs.Files.Orderly
import Xv6fs.Fs.Effects

/-! Files that are open.  An inode with a handle keeps its type, and a file its blocks, whatever is
called, until the handle is closed or the file is opened to be truncated. -/

namespace Xv6fs

open Program (Runs)

variable {sb : SuperBlock} {s s' : Fs} {a a' a0 a1 a2 : AbsFs} {x y dp ip i j flags length : Nat}
  {path source dest name : List UInt8} {type : UInt16} {held l : List Nat} {r : Int} {cut : Prop}

/-- Inode `x` is allocated and in memory, and is referenced. -/
structure AbsFs.InUse (a : AbsFs) (x : Nat) : Prop where
  alloc : a.Alloc x
  mem : a.mem x ≠ none
  ref : 0 < a.ref x

/-- Inode `x` keeps its type and stays in memory, and if it is no directory, and is not `cut`, it
keeps its blocks. -/
structure Stays (cut : Prop) (a a' : AbsFs) (x : Nat) : Prop where
  type : (a'.node x).type = (a.node x).type
  keeps : ¬cut → (a.node x).type ≠ FileType.T_DIR → (a.node x).Keeps (a'.node x)
  mem : a.mem x ≠ none → a'.mem x ≠ none

namespace Stays

theorem refl (a : AbsFs) (x : Nat) : Stays cut a a x := ⟨rfl, fun _ _ _ _ => rfl, id⟩

theorem trans (h : Stays cut a a1 x) (h' : Stays cut a1 a' x) : Stays cut a a' x where
  type := h'.type.trans h.type
  keeps hcut htype k hk := by
    have hfirst := h.keeps hcut htype k hk
    exact (h'.keeps hcut (h.type ▸ htype) k (hfirst ▸ hk)).trans hfirst
  mem hm := h'.mem (h.mem hm)

theorem alloc (h : Stays cut a a' x) (hx : a.Alloc x) : a'.Alloc x := by
  rw [AbsFs.Alloc, h.type]
  exact hx

theorem of_eq (hnode : a'.node x = a.node x) (hmem : a'.mem x = a.mem x) : Stays cut a a' x :=
  ⟨by rw [hnode], fun _ _ k _ => by rw [hnode], fun hm => hmem ▸ hm⟩

/-- Another inode changes, or a directory does, or what is not the type or the blocks. -/
theorem modify {f : Node → Node} (htype : (f (a.node y)).type = (a.node y).type)
    (hslots : ¬cut → y = x → (a.node x).type ≠ FileType.T_DIR → (a.node x).Keeps (f (a.node x))) :
    Stays cut a (a.modify y f) x := by
  by_cases hy : x = y
  · subst hy
    refine ⟨?_, fun hcut hx => ?_, id⟩
    · simpa only [AbsFs.modify, setAt_self] using htype
    · simpa only [AbsFs.modify, setAt_self] using hslots hcut rfl hx
  · exact of_eq (AbsFs.modify_node_of_ne f hy) rfl

theorem setLinks (n : UInt16) : Stays cut a (a.setLinks y n) x := by
  have hmod : Stays cut a (a.modify y fun nd => { nd with nlink := n }) x :=
    modify rfl fun _ _ _ _ _ => rfl
  refine hmod.trans ⟨rfl, fun _ _ _ _ => rfl, fun hm => ?_⟩
  simp only [AbsFs.setLinks, AbsFs.setMem, setAt_apply]
  split
  · exact Option.some_ne_none _
  · exact hm

theorem load : Stays cut a (a.load y) x := by
  refine ⟨rfl, fun _ _ _ _ => rfl, fun hm => ?_⟩
  simp only [AbsFs.load, setAt_apply]
  split
  · exact Option.some_ne_none _
  · exact hm

/-- A reference ends that is not the only one. -/
theorem put (href : y = x → 2 ≤ a.ref x) : Stays cut a (a.put y) x := by
  by_cases hy : x = y
  · subst hy
    have href := href rfl
    refine of_eq ?_ (AbsFs.put_mem_of_ref fun _ => href)
    rw [AbsFs.put, if_neg fun h => absurd h.1 (by omega)]
    rfl
  · exact of_eq (AbsFs.put_node_of_ne hy) (AbsFs.put_mem_of_ne hy)

/-- References end that are not all. -/
theorem puts (href : l.count x < a.ref x) : Stays cut a (l.foldl AbsFs.put a) x := by
  induction l generalizing a with
  | nil => exact refl a x
  | cons y l ih =>
    rw [List.count_cons] at href
    simp only [beq_iff_eq] at href
    have hput : Stays cut a (a.put y) x := put fun heq => by
      rw [if_pos heq] at href
      omega
    refine hput.trans (ih ?_)
    rw [AbsFs.put_ref]
    omega

/-- Entries of directories change. -/
theorem setEntry (e : DirEntry) : Stays cut a (a.setEntry y i e) x :=
  modify rfl fun _ _ _ _ _ => rfl

theorem setSlots {slots : Nat → Nat} (hdir : y = x → (a.node x).type = FileType.T_DIR) :
    Stays cut a (a.setSlots y slots) x :=
  modify rfl fun _ hy htype => absurd (hdir hy) htype

theorem during (href : 0 < a0.ref x) (hd : During a0 a held) : Stays cut a0 a x := by
  have hnode : a.node x = a0.node x :=
    (hd.node x).resolve_right fun hdoomed => absurd hdoomed.1.1 (Nat.ne_of_gt href)
  refine ⟨by rw [hnode], fun _ _ k _ => by rw [hnode], fun hm => ?_⟩
  obtain ⟨n, hn⟩ := Option.ne_none_iff_exists'.mp hm
  rw [hd.kept x n hn]
  exact Option.some_ne_none _

theorem enters {inum : Nat} {b : Bool} (hdir : y = x → (a.node x).type = FileType.T_DIR)
    (he : a.Enters sb y name inum b a') : Stays cut a a' x := by
  cases he with
  | added =>
    have hadd : Stays cut a (a.addEntry y name inum) x := modify rfl fun _ _ _ _ _ => rfl
    refine hadd.trans (setSlots fun hy => ?_)
    rw [hadd.type]
    exact hdir hy
  | no_room => exact setSlots hdir

theorem entered {b : Bool} (hip : x ≠ ip) (hdir : dp = x → (a.node x).type = FileType.T_DIR)
    (he : Entered sb a type dp ip name b a') : Stays cut a a' x := by
  have hother : ∀ {a1 a2 : AbsFs} {nm : List UInt8} {inum : Nat} {b : Bool},
      a1.Enters sb ip nm inum b a2 → Stays cut a1 a2 x :=
    enters fun heq => absurd heq.symm hip
  cases he with
  | file _ h => exact enters hdir h
  | dir _ hdot hdotdot h =>
    have hdots := (hother hdot).trans (hother hdotdot)
    refine hdots.trans (enters (fun heq => ?_) h)
    rw [hdots.type]
    exact hdir heq
  | not dir slots =>
    have hmod : Stays cut a (a.modify ip fun nd => { nd with dir, slots }) x :=
      modify rfl fun _ heq => absurd heq.symm hip
    refine hmod.trans (setSlots fun heq => ?_)
    rw [hmod.type]
    exact hdir heq

theorem addParent : Stays cut a (a.addParent type y) x := by
  unfold AbsFs.addParent
  split
  · exact setLinks _
  · exact refl a x

theorem alloc_link (hx : x ≠ ip) : Stays cut a ((a.alloc ip type).setLinks ip 1) x := by
  refine of_eq ?_ ?_
  · simp only [AbsFs.setLinks, AbsFs.setMem, AbsFs.modify, AbsFs.alloc, setAt_of_ne hx]
  · simp only [AbsFs.setLinks, AbsFs.setMem, AbsFs.modify, AbsFs.alloc, AbsFs.get, setAt_of_ne hx]

theorem alloc_link_ref (hx : x ≠ ip) : ((a.alloc ip type).setLinks ip 1).ref x = a.ref x := by
  simp only [AbsFs.setLinks, AbsFs.setMem, AbsFs.modify, AbsFs.alloc, AbsFs.get, setAt_of_ne hx]

theorem created {r : Option Nat} (hx : a.InUse x) (hc : Created sb a path type r a') :
    Stays cut a a' x := by
  cases hc with
  | refused hd _ => exact during hx.ref hd
  | found _ _ hd _ _ _ => exact during hx.ref hd
  | @made a1 a2 dp ip _ _ _ hd hopen _ _ hfree hentered =>
    have hd1 : Stays cut a a1 x := during hx.ref hd
    have hip : x ≠ ip := fun heq => hfree (heq ▸ hd1.alloc hx.alloc)
    have halloc : Stays cut a1 ((a1.alloc ip type).setLinks ip 1) x := alloc_link hip
    refine hd1.trans (halloc.trans ((entered hip (fun heq => ?_) hentered).trans
      (addParent.trans (put fun heq => ?_))))
    · rw [halloc.type, ← heq]
      exact hopen.1
    · rw [AbsFs.addParent_ref, hentered.frame.1, alloc_link_ref hip, hd.ref, heq,
        List.count_singleton_self]
      exact Nat.succ_le_succ hx.ref
  | @undone a1 a2 dp ip _ _ _ hd hopen _ _ hfree hentered =>
    have hd1 : Stays cut a a1 x := during hx.ref hd
    have hip : x ≠ ip := fun heq => hfree (heq ▸ hd1.alloc hx.alloc)
    have halloc : Stays cut a1 ((a1.alloc ip type).setLinks ip 1) x := alloc_link hip
    refine hd1.trans (halloc.trans ((entered hip (fun heq => ?_) hentered).trans
      ((setLinks 0).trans ((put fun heq => absurd heq.symm hip).trans (put fun heq => ?_)))))
    · rw [halloc.type, ← heq]
      exact hopen.1
    · rw [AbsFs.put_ref_of_ne hip]
      show 2 ≤ a2.ref x
      rw [hentered.frame.1, alloc_link_ref hip, hd.ref, heq, List.count_singleton_self]
      exact Nat.succ_le_succ hx.ref

/-- A file that is opened may lose its content, if the flags ask for that. -/
theorem truncated (hcut : ip = x → has flags O_TRUNC = true → cut) :
    Stays cut a (a.truncated ip flags) x := by
  unfold AbsFs.truncated
  split
  · next hflags =>
    have hlinks : Stays cut a (a.setLinks ip (a.links ip)) x := setLinks _
    exact hlinks.trans (modify rfl fun hno heq => absurd (hcut heq hflags.1) hno)
  · exact refl a x

theorem entry {r : Option Nat} (href : ip = x → 2 ≤ a.ref x)
    (hcut : ip = x → has flags O_TRUNC = true → cut) (he : Entry a ip flags r a') :
    Stays cut a a' x := by
  cases he with
  | full _ => exact put href
  | opened _ _ _ _ _ _ => exact (truncated hcut).trans (of_eq rfl rfl)

theorem opensOld {r : Option Nat} (hx : a.InUse x)
    (hcut : resolve a.node path = some x → has flags O_TRUNC = true → cut)
    (ho : OpensOld a path flags r a') : Stays cut a a' x := by
  cases ho with
  | missing hd _ => exact during hx.ref hd
  | @found a1 _ ip _ hip hd _ _ hentry =>
    refine (during hx.ref hd).trans (entry (fun heq => ?_) (fun heq => hcut (heq ▸ hip)) hentry)
    rw [hd.ref, heq, List.count_singleton_self]
    exact Nat.succ_le_succ hx.ref

/-- What `create` finds, it refers to. -/
theorem created_old (hx : a.InUse x) (hc : Created sb a path type (some ip) a') (hip : ip = x) :
    2 ≤ a'.ref x ∧ resolve a.node path = some x := by
  subst hip
  cases hc with
  | found hparent hfind hd _ _ _ =>
    refine ⟨?_, (resolve_of_parent hparent).trans (lookup_of_find hfind)⟩
    rw [hd.ref, List.count_singleton_self]
    exact Nat.succ_le_succ hx.ref
  | made _ _ hd _ _ _ hfree _ =>
    have hstays : Stays False a _ ip := during hx.ref hd
    exact absurd (hstays.alloc hx.alloc) hfree

theorem opensNew {r : Option Nat} (hx : a.InUse x)
    (hcut : resolve a.node path = some x → has flags O_TRUNC = true → cut)
    (ho : OpensNew sb a path flags r a') : Stays cut a a' x := by
  cases ho with
  | refused hc => exact created hx hc
  | created hc hentry =>
    exact (created hx hc).trans (entry (fun heq => (created_old hx hc heq).1)
      (fun heq => hcut (created_old hx hc heq).2) hentry)

theorem opens {r : Option Nat} (hx : a.InUse x)
    (hcut : resolve a.node path = some x → has flags O_TRUNC = true → cut)
    (ho : Opens sb a path flags r a') : Stays cut a a' x := by
  unfold Opens at ho
  split at ho
  · exact opensNew hx hcut ho
  · exact opensOld hx hcut ho

theorem closed (href : (a.files i).Points x → 2 ≤ a.ref x) (hc : Closed a i a') :
    Stays cut a a' x := by
  cases hc with
  | shared _ => exact of_eq rfl rfl
  | last _ htype =>
    have hfile : Stays cut a (a.setFileEntry i { a.files i with ref := 0, type := .FD_NONE }) x :=
      of_eq rfl rfl
    exact hfile.trans (put fun hip => href ⟨htype, hip⟩)

/-- What has been opened has a reference more. -/
theorem opensOld_ref (hx : a.InUse x) (ho : OpensOld a path flags (some i) a') :
    (a'.files i).Points x → 2 ≤ a'.ref x := by
  rintro ⟨-, hix⟩
  cases ho with
  | @found a1 _ ip _ _ hd _ _ hentry =>
    have href : a'.ref x = a1.ref x ∧ (a'.files i).ip = ip := by
      cases hentry with
      | opened _ _ hf _ _ _ =>
        refine ⟨?_, (congrArg OFile.ip setAt_self).trans hf.ip⟩
        show (a1.truncated ip flags).ref x = a1.ref x
        unfold AbsFs.truncated
        split <;> rfl
    rw [href.1, hd.ref, ← href.2, hix, List.count_singleton_self]
    exact Nat.succ_le_succ hx.ref

/-- A transaction has no part in it. -/
theorem ended (h : Stays cut a.begin_op a' x) : Stays cut a a'.end_op x := ⟨h.type, h.keeps, h.mem⟩

/-- A file is opened that keeps its content. -/
theorem opensKept {r : Option Nat} (hx : a.InUse x) (hflags : ¬has flags O_TRUNC = true)
    (ho : OpensOld a.begin_op path flags r a') : Stays cut a a'.end_op x := by
  have hbegin : a.begin_op.InUse x := ⟨hx.alloc, hx.mem, hx.ref⟩
  exact (opensOld hbegin (fun _ h => absurd h hflags) ho).ended

theorem visits (hx : a.InUse x) (hv : Visits a path 0 a') : Stays cut a a' x := by
  have hbegin : a.begin_op.InUse x := ⟨hx.alloc, hx.mem, hx.ref⟩
  cases hv with
  | missing ho => exact opensKept hx (by decide) ho
  | @visited a1 _ i ho hclose =>
    have href := opensOld_ref hbegin ho
    exact (opensKept hx (by decide) ho).trans (closed (a := a1.end_op) href hclose)

theorem resize {size : Nat} : Stays cut a (a.resize y size) x := by
  have hlinks : Stays cut a (a.setLinks y (a.links y)) x := setLinks _
  unfold AbsFs.resize
  refine hlinks.trans (modify rfl fun _ hy _ k _ => ?_)
  rw [← hy]
  simp only [AbsFs.setLinks, AbsFs.setMem, AbsFs.modify, setAt_self]

theorem truncates (hx : a.InUse x) (ht : Truncates a path length r a') : Stays cut a a' x := by
  have hbegin : a.begin_op.InUse x := ⟨hx.alloc, hx.mem, hx.ref⟩
  cases ht with
  | missing ho => exact opensKept hx (by decide) ho
  | @resized a1 _ i ho hclose =>
    have href := opensOld_ref hbegin ho
    exact (opensKept hx (by decide) ho).trans (resize.trans
      (closed (a := a1.end_op.resize (a1.files i).ip (truncateSize length).toNat) href hclose))

theorem grown (hg : Grown a y a') : Stays cut a a' x := by
  by_cases hx : x = y
  · subst hx
    refine ⟨hg.type, fun _ _ => hg.keeps, fun hm => ?_⟩
    rcases hg.mem with heq | heq
    · exact heq ▸ hm
    · rw [heq]
      exact Option.some_ne_none _
  · exact of_eq (hg.others x hx).1 (hg.others x hx).2

theorem reads (hr : ReadOnly sb s s') : Stays cut (s.abs sb) (s'.abs sb) x := by
  refine ⟨by rw [hr.node], fun _ _ k _ => by rw [hr.node], fun hm => ?_⟩
  obtain ⟨n, hn⟩ := Option.ne_none_iff_exists'.mp hm
  rw [hr.kept x n hn]
  exact Option.some_ne_none _

theorem flushed (hx : a.InUse x) (hf : Flushed a a') : Stays cut a a' x := by
  refine ⟨by rw [hf.node], fun _ _ k _ => by rw [hf.node], fun _ => ?_⟩
  rw [hf.mem, if_neg (Nat.ne_of_gt hx.ref)]
  exact Option.some_ne_none _

theorem unlinks (hx : a.InUse x) (hu : Unlinks a path r a') : Stays cut a a' x := by
  cases hu with
  | refused hd _ => exact during hx.ref hd
  | @removed a1 dp i _ hd _ _ =>
    generalize entryInum (a.node dp).dir i = ip at hd ⊢
    have href : a1.ref x = a.ref x + [ip, dp].count x := hd.ref x
    rw [List.count_cons, List.count_singleton] at href
    simp only [beq_iff_eq] at href
    have hpos := hx.ref
    have hset : Stays cut a1 (a1.setEntry dp i .zero) x := setEntry _
    refine (during hx.ref hd).trans ?_
    unfold AbsFs.unlink
    dsimp only
    have hparent : Stays cut a1 (if (a1.node ip).type = FileType.T_DIR then
        (a1.setEntry dp i .zero).setLinks dp ((a1.setEntry dp i .zero).links dp - 1)
        else a1.setEntry dp i .zero) x ∧ (if (a1.node ip).type = FileType.T_DIR then
        (a1.setEntry dp i .zero).setLinks dp ((a1.setEntry dp i .zero).links dp - 1)
        else a1.setEntry dp i .zero : AbsFs).ref = a1.ref := by
      split
      · exact ⟨hset.trans (setLinks _), rfl⟩
      · exact ⟨hset, rfl⟩
    refine hparent.1.trans ((put fun heq => ?_).trans ((setLinks _).trans (put fun heq => ?_)))
    · rw [hparent.2, href, if_pos heq]
      omega
    · show 2 ≤ (AbsFs.put _ dp).ref x
      rw [AbsFs.put_ref, hparent.2, href, if_pos heq]
      omega

theorem renames (hx : a.InUse x) (hr : Renames a source dest r a') : Stays cut a a' x := by
  cases hr with
  | no_parent hd _ => exact during hx.ref hd
  | unread _ hd _ => exact during hx.ref hd
  | missing _ hd _ => exact during hx.ref hd
  | @renamed a1 dp i _ _ hd hopen =>
    have hnode : a1.node dp = a.node dp := hd.node_eq (by rw [AbsFs.Alloc, hopen.1]; decide)
    have href := hd.ref x
    have hpos := hx.ref
    rw [AbsFs.rename, hnode]
    refine (during hx.ref hd).trans ((setEntry _).trans
      (puts (l := [entryInum (a.node dp).dir i, dp]) ?_))
    show _ < a1.ref x
    omega

theorem linked {inum : Nat} {b : Bool} (href : 0 < a.ref x)
    (hdir : y = x → (a.node x).type = FileType.T_DIR) (hl : Linked sb a y name inum b a') :
    Stays cut a a' x ∧ a'.ref x = a.ref x := by
  cases hl with
  | @exists_ i _ =>
    have hget : Stays cut a (a.get (entryInum (a.node y).dir i)) x := of_eq rfl rfl
    refine ⟨hget.trans (put fun heq => ?_), ?_⟩
    · simp only [AbsFs.get, heq, setAt_self]
      exact Nat.succ_le_succ href
    · rw [AbsFs.put_ref]
      simp only [AbsFs.get, setAt_apply]
      split
      · next heq => rw [if_pos heq.symm, heq, Nat.add_sub_cancel]
      · next heq => rw [if_neg (Ne.symm heq), Nat.sub_zero]
  | tried _ hstep =>
    cases hstep with
    | written =>
      have hset : Stays cut a (a.setEntry y (freeSlot (a.node y).dir)
          ⟨UInt16.ofNat inum, strncpy name⟩) x := setEntry _
      refine ⟨hset.trans (setSlots fun heq => ?_), rfl⟩
      rw [hset.type]
      exact hdir heq
    | no_room => exact ⟨setSlots hdir, rfl⟩

theorem moves (hx : a.InUse x) (hm : Moves sb a source dest r a') : Stays cut a a' x := by
  have hpos := hx.ref
  cases hm with
  | no_source hd _ => exact during hx.ref hd
  | unread_source _ hd _ => exact during hx.ref hd
  | no_dest _ hd _ => exact during hx.ref hd
  | unread_dest _ _ _ _ hd => exact during hx.ref hd
  | missing _ _ hd _ => exact during hx.ref hd
  | @not_linked a1 a2 src dst i _ _ _ hd _ hopen' hlinked =>
    have href := hd.ref x
    have hperm := ((List.Perm.swap src dst []).cons (entryInum (a.node src).dir i)).count_eq x
    obtain ⟨hstays, heq⟩ := linked (x := x) (by omega) (fun hy => hy ▸ hopen'.1) hlinked
    exact (during hx.ref hd).trans (hstays.trans
      (puts (l := [entryInum (a.node src).dir i, src, dst]) (by omega)))
  | @moved a1 a2 src dst i _ _ _ hd _ hopen' hlinked =>
    have href := hd.ref x
    have hperm := ((List.Perm.swap src dst []).cons (entryInum (a.node src).dir i)).count_eq x
    obtain ⟨hstays, heq⟩ := linked (x := x) (by omega) (fun hy => hy ▸ hopen'.1) hlinked
    refine (during hx.ref hd).trans (hstays.trans ((setEntry _).trans
      (puts (l := [entryInum (a.node src).dir i, src, dst]) ?_)))
    show _ < a2.ref x
    omega

theorem setMem (n : UInt16) : Stays cut a (a.setMem y n) x := by
  refine ⟨rfl, fun _ _ _ _ => rfl, fun hm => ?_⟩
  simp only [AbsFs.setMem, setAt_apply]
  split
  · exact Option.some_ne_none _
  · exact hm

theorem rollBack (href : y = x → 2 ≤ a.ref x) : Stays cut a (a.rollBack y) x := by
  have hlinks : Stays cut a ((a.load y).setLinks y (a.links y - 1)) x := load.trans (setLinks _)
  exact hlinks.trans (put href)

theorem links (hx : a.InUse x) (hl : Links sb a source dest r a') : Stays cut a a' x := by
  have hpos := hx.ref
  cases hl with
  | refused hd _ => exact during hx.ref hd
  | @no_parent a1 a2 ip _ hd _ _ _ h1 =>
    have href := hd.ref x
    have href1 : a2.ref x = a1.ref x + [].count x := h1.ref x
    rw [List.count_nil] at href1
    have hmem : Stays cut a1 (a1.setMem ip (a.links ip + 1)) x := setMem _
    have hdur : 0 < (a1.setMem ip (a.links ip + 1)).ref x := by
      show 0 < a1.ref x
      omega
    refine (during hx.ref hd).trans (hmem.trans ((during hdur h1).trans (rollBack fun heq => ?_)))
    rw [heq, List.count_singleton_self] at href
    omega
  | @tried a1 a2 a3 ip dp _ b _ hd _ _ _ h1 hopen hlinked =>
    have href := hd.ref x
    have href1 : a2.ref x = a1.ref x + [dp].count x := h1.ref x
    rw [List.count_singleton] at href href1
    simp only [beq_iff_eq] at href href1
    have hmem : Stays cut a1 (a1.setMem ip (a.links ip + 1)) x := setMem _
    have hdur : 0 < (a1.setMem ip (a.links ip + 1)).ref x := by
      show 0 < a1.ref x
      omega
    obtain ⟨hstays, heq⟩ := linked (x := x) (by omega) (fun hy => hy ▸ hopen.1) hlinked
    have hput : Stays cut a (a3.put dp) x := by
      refine (during hx.ref hd).trans (hmem.trans ((during hdur h1).trans (hstays.trans ?_)))
      refine put fun hy => ?_
      rw [if_pos hy] at href1
      omega
    have htwo : ip = x → 2 ≤ (a3.put dp).ref x := fun hy => by
      rw [if_pos hy] at href
      rw [AbsFs.put_ref]
      omega
    cases b with
    | true => exact hput.trans (put htwo)
    | false => exact hput.trans (rollBack htwo)

end Stays

/-! ### Handles -/

/-- Every handle is for an inode that is in memory. -/
def AbsFs.HandlesLive (a : AbsFs) : Prop := ∀ i x, (a.files i).Points x → a.mem x ≠ none

/-- What has a handle after a file has been opened had one before, or is in memory. -/
def HandlesFrom (a a' : AbsFs) : Prop :=
  ∀ i x, (a'.files i).Points x → (a.files i).Points x ∨ a'.mem x ≠ none

theorem HandlesFrom.of_files (h : a'.files = a.files) : HandlesFrom a a' :=
  fun _ _ hx => .inl (h ▸ hx)

theorem Entry.handles {o : Option Nat} (hfiles : a.files = a0.files) (hmem : a.mem ip ≠ none)
    (he : Entry a ip flags o a') : HandlesFrom a0 a' := by
  cases he with
  | full _ => exact .of_files ((AbsFs.put_files _ _).trans hfiles)
  | @opened i f _ _ hf _ _ _ =>
    have hstays : Stays True a (a.truncated ip flags) ip := .truncated fun _ _ => trivial
    intro j x hx
    by_cases hj : j = i
    · subst hj
      rw [show ((a.truncated ip flags).setFileEntry j f).files j = f from setAt_self] at hx
      obtain rfl := hf.ip.symm.trans hx.ip
      exact .inr (hstays.mem hmem)
    · rw [show ((a.truncated ip flags).setFileEntry i f).files j =
        (a.truncated ip flags).files j from setAt_of_ne hj] at hx
      refine .inl (hfiles ▸ ?_)
      unfold AbsFs.truncated at hx
      split at hx <;> exact hx

theorem OpensOld.handles {o : Option Nat} (h : OpensOld a path flags o a') :
    HandlesFrom a a' := by
  cases h with
  | missing hd _ => exact .of_files hd.files
  | found _ hd _ hmem hentry =>
    exact hentry.handles hd.files (by rw [hmem]; exact Option.some_ne_none _)

theorem OpensNew.handles {o : Option Nat} (h : OpensNew sb a path flags o a') :
    HandlesFrom a a' := by
  cases h with
  | refused hc => exact .of_files hc.frame.1
  | created hc hentry =>
    obtain ⟨n, hmem⟩ := hc.mem
    exact hentry.handles hc.frame.1 (by rw [hmem]; exact Option.some_ne_none _)

theorem Opens.handles {o : Option Nat} (h : Opens sb a path flags o a') : HandlesFrom a a' := by
  unfold Opens at h
  split at h
  · exact h.handles
  · exact h.handles

theorem OFile.points_iff {f : OFile} : f.Points x ↔ f.handle = some x := by
  unfold OFile.handle
  constructor
  · rintro ⟨htype, rfl⟩
    rw [if_neg htype]
  · intro h
    split at h
    · cases h
    · next htype => exact ⟨htype, Option.some.inj h⟩

/-- An inode with two handles has two references. -/
theorem Ledger.Backed.two {w : Ledger} (h : w.Backed) (hne : i ≠ j) (hi : w.handles i = some x)
    (hj : w.handles j = some x) : 2 ≤ w.refs x := by
  have hbound : ∀ k, w.handles k = some x → k ∈ (Finset.range NFILE).filter fun i =>
      w.handles i = some x := by
    obtain ⟨w0, more, h0, rfl⟩ := h
    intro k hk
    refine Finset.mem_filter.mpr ⟨Finset.mem_range.mpr (h0.bound k ?_), hk⟩
    rw [show w0.handles k = some x from hk]
    exact Option.some_ne_none _
  refine Nat.le_trans ?_ (h.count_le x)
  exact Finset.one_lt_card.mpr ⟨i, hbound i hi, j, hbound j hj, hne⟩

/-- The call opens a file. -/
def Call.Opens : Call → Prop
  | .create _ _ => True
  | .open _ _ => True
  | _ => False

/-- A file without a handle gets none, unless the call opens one. -/
theorem Call.run_handles (call : Call) (h : s.ledger.Backed) : Runs (call.run sb) s
    (fun _ s' => ∀ i x, (s'.files i).Points x → (s.files i).Points x ∨ call.Opens)
    fun _ => True := by
  have hkeeps : ∀ {α : Type} {m : Prog α} {f : α → Reply} {P : α → Ledger → Prop},
      Books m s.ledger P →
      (∀ r w', P r w' → ∀ i x, w'.handles i = some x → s.ledger.handles i = some x ∨ call.Opens) →
      Runs (f <$> m) s (fun _ s' => ∀ i x, (s'.files i).Points x →
        (s.files i).Points x ∨ call.Opens) fun _ => True :=
    fun hm hP => Program.runs_map.mpr ((hm s rfl).imp fun r s' hr i x hx =>
      (hP r _ hr i x (OFile.points_iff.mp hx)).imp_left OFile.points_iff.mpr)
  have hsame : ∀ {w' : Ledger}, w'.handles = s.ledger.handles → ∀ i x, w'.handles i = some x →
      s.ledger.handles i = some x ∨ call.Opens := fun hw i x hx => .inl (hw ▸ hx)
  have hset : ∀ {w' : Ledger} k, w'.handles = setAt s.ledger.handles k none → ∀ i x,
      w'.handles i = some x → s.ledger.handles i = some x ∨ call.Opens := by
    intro w' k hw i x hx
    rw [hw, setAt_apply] at hx
    split at hx
    · cases hx
    · exact .inl hx
  have hsettles : ∀ {w' : Ledger}, Books.Settles s.ledger w' → ∀ i x, w'.handles i = some x →
      s.ledger.handles i = some x ∨ call.Opens := by
    rintro w' (rfl | ⟨k, -, rfl⟩)
    · exact hsame rfl
    · exact hset k rfl
  have hbreach : ∀ refused, (s.ledger.breach refused).handles = s.ledger.handles := by
    intro refused
    cases refused <;> rfl
  cases call with
  | create path mode => exact hkeeps (Books.op_create _ _) fun _ _ _ _ _ _ => .inr trivial
  | mkdir path => exact hkeeps (Books.op_mkdir _) fun _ _ hw => hsame (by rw [hw])
  | «open» path flags => exact hkeeps (Books.op_open _ _) fun _ _ _ _ _ _ => .inr trivial
  | read fh buf size offset => exact hkeeps (Books.op_read _ _ _) fun _ _ hw => hsame (by rw [hw])
  | write fh buf size offset => exact hkeeps (Books.op_write _ _ _) fun _ _ hw => hsame (by rw [hw])
  | truncate path length => exact hkeeps (Books.op_truncate _ _) fun _ _ => hsettles
  | getattr path => exact hkeeps (Books.op_getattr _) fun _ _ => hsettles
  | readdir fh full offset => exact hkeeps (Books.op_readdir _ _) fun _ _ hw => hsame (by rw [hw])
  | flush => exact hkeeps Books.op_flush fun _ _ hw => hsame (by rw [hw])
  | release fh =>
    have hrelease : Books (op_release sb fh) s.ledger fun _ w' => ∀ i x, w'.handles i = some x →
        s.ledger.handles i = some x ∨ (Call.release fh).Opens := by
      refine (Books.ofile_close fh).bind ?_
      rintro _ w' ⟨hcount, hmore, hlast⟩
      refine .pure ?_
      rcases Nat.lt_or_eq_of_le hcount with hlt | heq
      · rw [hmore hlt]
        exact hsame (setAt_same (x := fh) _)
      · obtain ⟨ip, -, rfl⟩ := hlast heq.symm
        exact hset fh rfl
    exact hkeeps hrelease fun _ _ hw => hw
  | link source dest =>
    refine Program.runs_map.mpr ((Books.op_link source dest h.idle).imp ?_)
    rintro _ s' ⟨refused, -, hw⟩ i x hx
    exact (hsame (hw ▸ hbreach refused) i x (OFile.points_iff.mp hx)).imp_left OFile.points_iff.mpr
  | unlink path =>
    refine Program.runs_map.mpr ((Books.op_unlink path h.idle).imp ?_)
    rintro _ s' ⟨refused, -, hw⟩ i x hx
    exact (hsame (hw ▸ hbreach refused) i x (OFile.points_iff.mp hx)).imp_left OFile.points_iff.mpr
  | rename source dest =>
    refine Program.runs_map.mpr ((Books.op_rename source dest h.idle).imp ?_)
    rintro _ s' ⟨refused, leaks, y, -, -, hw⟩ i x hx
    have hhandles : s'.ledger.handles = s.ledger.handles := by
      rw [hw]
      cases leaks
      · exact hbreach refused
      · exact hbreach refused
    exact (hsame hhandles i x (OFile.points_iff.mp hx)).imp_left OFile.points_iff.mpr

/-! ### Runs -/

/-- The call opens file `x` to truncate it. -/
def Call.Cuts (sb : SuperBlock) (s : Fs) (x : Nat) : Call → Prop
  | .create path flags => has flags O_TRUNC = true ∧ resolve (s.abs sb).node path = some x
  | .open path flags => has flags O_TRUNC = true ∧ resolve (s.abs sb).node path = some x
  | _ => False

/-- The state between two calls: all is in order, and the handles are for inodes in use. -/
structure Lives (sb : SuperBlock) (s : Fs) : Prop where
  rests : Rests sb s
  backed : s.ledger.Backed
  handles : (s.abs sb).HandlesLive

namespace Lives

variable (h : Lives sb s)
include h

theorem inUse (hopen : (s.files i).Points x) : (s.abs sb).InUse x := by
  have hmem := h.handles i x hopen
  obtain ⟨n, hn⟩ := Option.ne_none_iff_exists'.mp hmem
  exact ⟨h.rests.wf.normal.alloc x n hn, hmem, h.rests.wf.normal.ref x n hn⟩

/-- What a call leaves of an inode in use, unless it closes its only handle. -/
theorem stays (hl : Layout sb) (hroot : ROOTINO < sb.ninodes) {call : Call}
    (hserved : Served sb s call) (hx : (s.abs sb).InUse x)
    (hclose : ∀ fh, call = .release fh → (s.files fh).Points x → 2 ≤ (s.abs sb).ref x) :
    Runs (call.run sb) s (fun _ s' => Stays (call.Cuts sb s x) (s.abs sb) (s'.abs sb) x)
      fun _ => True := by
  have hwf := h.rests.wf
  have hbegin : (s.abs sb).begin_op.InUse x := ⟨hx.alloc, hx.mem, hx.ref⟩
  have htransacts : ∀ {α β : Type} {m : Prog α} {f : α → Reply} {g : α → β}
      {Q : AbsFs → β → AbsFs → Prop}, Does sb m s (fun r s' => Transacts sb Q s (g r) s') →
      (∀ {r a'}, Q (s.abs sb).begin_op r a' →
        Stays (call.Cuts sb s x) (s.abs sb).begin_op a' x) →
      Runs (f <$> m) s (fun _ s' => Stays (call.Cuts sb s x) (s.abs sb) (s'.abs sb) x)
        fun _ => True := by
    intro α β m f g Q hm hQ
    refine Program.runs_map.mpr (hm.any.imp ?_)
    rintro r s' ⟨-, ⟨a', hq, habs⟩, -⟩
    rw [habs]
    exact (hQ hq).ended
  have hsteps : ∀ {α : Type} {m : Prog α} {f : α → Reply} {Q : α → Fs → Prop}, Does sb m s Q →
      (∀ {r s'}, Q r s' → Stays (call.Cuts sb s x) (s.abs sb) (s'.abs sb) x) →
      Runs (f <$> m) s (fun _ s' => Stays (call.Cuts sb s x) (s.abs sb) (s'.abs sb) x)
        fun _ => True :=
    fun hm hQ => Program.runs_map.mpr (hm.any.imp fun _ _ hs => hQ hs.2)
  cases call with
  | create path flags =>
    exact htransacts (hwf.op_create hl hroot path flags)
      (.opensNew hbegin fun hres htrunc => ⟨htrunc, hres⟩)
  | mkdir path =>
    refine htransacts (g := id) (hwf.op_mkdir hl hroot path) ?_
    rintro r a' ⟨ip, a1, hc, rfl⟩
    exact (Stays.created hbegin hc).trans (.put fun heq => (Stays.created_old hbegin hc heq).1)
  | «open» path flags =>
    exact htransacts (hwf.op_open hl hroot path flags)
      (.opens hbegin fun hres htrunc => ⟨htrunc, hres⟩)
  | read fh buf size offset =>
    exact Program.runs_map.mpr ((hwf.op_read_outside h.rests.idle fh buf size offset).imp
      fun _ _ hs => .reads hs.2)
  | write fh buf size offset => exact hsteps (hwf.op_write hl fh buf size offset hserved) .grown
  | truncate path length =>
    exact hsteps (hwf.op_truncate hl hroot path length hserved) fun hs => .truncates hx hs.1
  | getattr path => exact hsteps (hwf.op_getattr hl hroot path) fun hs => .visits hx hs.1
  | readdir fh full offset =>
    exact Program.runs_map.mpr ((hwf.op_readdir_outside h.rests.idle fh full offset).imp
      fun _ _ hs => .reads hs.2)
  | flush => exact hsteps (hwf.op_flush hl) fun hs => .flushed hx hs.2.1
  | release fh => exact hsteps (hwf.op_release hl fh) fun hs => .closed (hclose fh rfl) hs.1
  | link source dest =>
    exact htransacts (g := id) (hwf.do_link hl hroot source dest) (.links hbegin)
  | unlink path => exact htransacts (g := id) (hwf.do_unlink hl hroot path) (.unlinks hbegin)
  | rename source dest =>
    refine htransacts (g := id) (hwf.op_rename hl hroot source dest) fun hq => ?_
    split at hq
    · exact .renames hbegin hq
    · exact .moves hbegin hq

/-- A call that opens a file gives handles for inodes that are in memory. -/
theorem opened (hl : Layout sb) (hroot : ROOTINO < sb.ninodes) {call : Call} (hopens : call.Opens) :
    Runs (call.run sb) s (fun _ s' => HandlesFrom (s.abs sb) (s'.abs sb)) fun _ => True := by
  have hwf := h.rests.wf
  cases call with
  | create path flags =>
    refine Program.runs_map.mpr ((hwf.op_create hl hroot path flags).any.imp ?_)
    rintro r s' ⟨-, ⟨a', hq, habs⟩, -⟩
    rw [habs]
    exact hq.handles
  | «open» path flags =>
    refine Program.runs_map.mpr ((hwf.op_open hl hroot path flags).any.imp ?_)
    rintro r s' ⟨-, ⟨a', hq, habs⟩, -⟩
    rw [habs]
    exact hq.handles
  | _ => exact hopens.elim

/-- To close a handle ends its reference. -/
theorem closed_eq {fh : Nat} (hfh : (s.files fh).Points x) (hc : Closed (s.abs sb) fh a') :
    a' = ((s.abs sb).setFileEntry fh { s.files fh with ref := 0, type := .FD_NONE }).put x := by
  cases hc with
  | shared href =>
    have hone : (s.files fh).ref = 1 := h.backed.single (i := fh) (by
      rw [show s.ledger.handles fh = some x from OFile.points_iff.mp hfh]
      exact Option.some_ne_none _)
    rw [show ((s.abs sb).files fh).ref = 1 from hone] at href
    exact absurd href (Nat.lt_irrefl 1)
  | last _ _ =>
    rw [← hfh.ip]
    rfl

theorem closed_files {fh : Nat} (hfh : (s.files fh).Points x)
    (hc : Closed (s.abs sb) fh (s'.abs sb)) : ¬(s'.files fh).Points y := by
  intro hp
  have hfiles : s'.files = ((s.abs sb).setFileEntry fh
      { s.files fh with ref := 0, type := .FD_NONE }).files := by
    rw [← AbsFs.put_files _ x, ← h.closed_eq hfh hc]
    rfl
  rw [hfiles] at hp
  have htype := hp.type
  simp only [AbsFs.setFileEntry, setAt_self] at htype
  exact htype rfl

/-- With the last reference a file without links is freed, and its blocks with it. -/
theorem ends_freed (hl : Layout sb) (hwf' : Wf sb s') (hx : (s.abs sb).InUse x)
    (href : (s.abs sb).ref x = 1) (hlinks : (s.abs sb).links x = 0) {f : OFile}
    (habs : s'.abs sb = ((s.abs sb).setFileEntry i f).put x) :
    ¬(s'.abs sb).Alloc x ∧ s'.free_blocks sb = s.free_blocks sb ∪ (s.abs sb).blocks x := by
  obtain ⟨n, hn⟩ := Option.ne_none_iff_exists'.mp hx.mem
  have hzero : n = 0 := by rw [← hlinks, AbsFs.links, hn, Option.getD_some]
  have hend : (s.abs sb).ref x = 1 ∧ (s.abs sb).mem x = some 0 := ⟨href, by rw [hn, hzero]⟩
  rw [AbsFs.put_setFileEntry, AbsFs.put, if_pos hend] at habs
  have hnode : (s'.abs sb).node = setAt (s.abs sb).node x .free := congrArg AbsFs.node habs
  have hfree : ¬(s'.abs sb).Alloc x := by
    rw [AbsFs.Alloc, hnode, setAt_self]
    exact not_not.mpr rfl
  refine ⟨hfree, ?_⟩
  rw [hwf'.free_blocks_eq hl, h.rests.wf.free_blocks_eq hl]
  refine h.rests.wf.free_blocks_freed hl hx.alloc hfree fun y hy => ?_
  rw [AbsFs.Alloc, AbsFs.Alloc, hnode, setAt_of_ne hy]
  exact ⟨.rfl, rfl⟩

theorem ends_kept (hl : Layout sb) (hwf' : Wf sb s') (hlinks : (s.abs sb).links x ≠ 0) {f : OFile}
    (habs : s'.abs sb = ((s.abs sb).setFileEntry i f).put x) :
    (s'.abs sb).node = (s.abs sb).node ∧ s'.free_blocks sb = s.free_blocks sb := by
  have hkept : ¬((s.abs sb).ref x = 1 ∧ (s.abs sb).mem x = some 0) := fun hend =>
    hlinks (by rw [AbsFs.links, hend.2, Option.getD_some])
  rw [AbsFs.put_setFileEntry, AbsFs.put, if_neg hkept] at habs
  have hnode : (s'.abs sb).node = (s.abs sb).node := by
    rw [habs]
    rfl
  exact ⟨hnode, h.rests.wf.free_blocks_kept hl hwf' (fun y => by rw [hnode]) fun y => by rw [hnode]⟩

theorem release_closed (hl : Layout sb) {fh : Nat} (hstep : (Call.release fh).step sb s = some s') :
    Closed (s.abs sb) fh (s'.abs sb) := by
  obtain ⟨r, hr⟩ := Call.step_eq_some.mp hstep
  have hruns : Runs ((Call.release fh).run sb) s (fun _ s' => Closed (s.abs sb) fh (s'.abs sb))
      fun _ => True :=
    Program.runs_map.mpr ((h.rests.wf.op_release hl fh).any.imp fun _ _ hs => hs.2.1)
  exact hruns.of_ok hr

/-- A handle that is left when another is closed is one of two. -/
theorem two_handles (hl : Layout sb) {call : Call} (hstep : call.step sb s = some s')
    (hi : (s.files i).Points x) (hi' : (s'.files i).Points y) :
    ∀ fh, call = .release fh → (s.files fh).Points x → 2 ≤ (s.abs sb).ref x := by
  rintro fh rfl hfh
  have hne : i ≠ fh := by
    rintro rfl
    exact h.closed_files hfh (h.release_closed hl hstep) hi'
  exact h.backed.two hne (OFile.points_iff.mp hi) (OFile.points_iff.mp hfh)

theorem step (hl : Layout sb) (hroot : ROOTINO < sb.ninodes) {call : Call}
    (hserved : Served sb s call) (hstep : call.step sb s = some s') : Lives sb s' := by
  obtain ⟨r, hr⟩ := Call.step_eq_some.mp hstep
  refine ⟨(h.rests.step hl hroot hserved hstep).1, Call.step_backed h.backed hstep,
    fun i x hx => ?_⟩
  have hold : (s.files i).Points x → (s'.abs sb).mem x ≠ none := fun hi =>
    ((h.stays hl hroot hserved (h.inUse hi) (h.two_handles hl hstep hi hx)).of_ok hr).mem
      (h.handles i x hi)
  rcases (call.run_handles h.backed).of_ok hr i x hx with hi | hopens
  · exact hold hi
  · exact ((h.opened hl hroot hopens).of_ok hr i x hx).elim hold id

end Lives

theorem Started.lives (h : Started sb s) : Lives sb s := by
  refine ⟨h.rests, ?_, ?_⟩
  · obtain ⟨d, -, rfl⟩ := h
    exact .boot d
  · obtain ⟨d, -, rfl⟩ := h
    exact fun i x hx => absurd rfl hx.type

theorem reach_lives (hl : Layout sb) (hroot : ROOTINO < sb.ninodes)
    (h : Transition.Reach (Started sb) (Call.step sb) (Served sb) s) : Lives sb s :=
  h.invariant (Lives sb) (fun _ => Started.lives) fun _ _ _ hs hserved hstep =>
    hs.step hl hroot hserved hstep

/-- In every run an inode with a handle is allocated.  It keeps its type, and a file its blocks,
over every call that leaves a handle, but that a call may open the file to truncate it.  When its
last handle is closed and nothing else refers to it, it is freed with exactly its blocks if it has
no links, and stays as it is if it has. -/
theorem open_files_live (hl : Layout sb) (hroot : ROOTINO < sb.ninodes)
    (h : Transition.Reach (Started sb) (Call.step sb) (Served sb) s)
    (hopen : (s.files i).Points x) : (s.abs sb).Alloc x ∧
    (∀ call s', Served sb s call → call.step sb s = some s' → (∃ j, (s'.files j).Points x) →
      ((s'.abs sb).node x).type = ((s.abs sb).node x).type ∧
      (((s.abs sb).node x).type ≠ FileType.T_DIR → ¬call.Cuts sb s x →
        (s.abs sb).blocks x ⊆ (s'.abs sb).blocks x)) ∧
    (∀ s', (Call.release i).step sb s = some s' → (s.inodes x).ref = 1 →
      if (s.abs sb).links x = 0 then ¬(s'.abs sb).Alloc x ∧
        s'.free_blocks sb = s.free_blocks sb ∪ (s.abs sb).blocks x
      else (s'.abs sb).node = (s.abs sb).node ∧ s'.free_blocks sb = s.free_blocks sb) := by
  have hs := reach_lives hl hroot h
  have hx := hs.inUse hopen
  refine ⟨hx.alloc, fun call s' hserved hstep hleft => ?_, fun s' hstep href => ?_⟩
  · obtain ⟨j, hj⟩ := hleft
    obtain ⟨r, hr⟩ := Call.step_eq_some.mp hstep
    have hclose : ∀ fh, call = .release fh → (s.files fh).Points x → 2 ≤ (s.abs sb).ref x := by
      rintro fh rfl hfh
      have hj0 := ((Call.release fh).run_handles hs.backed).of_ok hr j x hj
      exact hs.two_handles hl hstep (hj0.resolve_right id) hj fh rfl hfh
    have hstays := (hs.stays hl hroot hserved hx hclose).of_ok hr
    refine ⟨hstays.type, fun htype hcut b hb => ?_⟩
    obtain ⟨hne, k, hk, rfl⟩ := AbsFs.mem_blocks.mp hb
    have heq := hstays.keeps hcut htype k hne
    exact AbsFs.mem_blocks.mpr ⟨hne, k, hk, heq⟩
  · have habs := hs.closed_eq hopen (hs.release_closed hl hstep)
    have hserved : Served sb s (.release i) := trivial
    have hwf' := (hs.step hl hroot hserved hstep).rests.wf
    split
    · next hlinks => exact hs.ends_freed hl hwf' hx href hlinks habs
    · next hlinks => exact hs.ends_kept hl hwf' hlinks habs

set_option maxRecDepth 100000 in
set_option synthInstance.maxHeartbeats 400000 in
set_option synthInstance.maxSize 1000 in
/-- A file is made and written to, and loses its only name while it is open. -/
theorem nameless_run : Runs ((Call.create [47, 102] 2).run rootSb) rootFs (fun _ s1 =>
    ((s1.abs rootSb).node (s1.files 0).ip).type ≠ FileType.T_DIR ∧
    Runs ((Call.write 0 (fun _ => 97) 3 0).run rootSb) s1 (fun _ s2 =>
      (s2.files 0).handle = some 2 ∧ ((s2.abs rootSb).node 2).type ≠ FileType.T_DIR ∧
      ((s2.abs rootSb).blocks 2).card = 1 ∧
      Runs ((Call.unlink [47, 102]).run rootSb) s2 (fun _ s =>
        (s.files 0).handle = some 2 ∧ resolve (s.abs rootSb).node [47, 102] = none ∧
        (s.abs rootSb).links 2 = 0 ∧ (s.inodes 2).ref = 1 ∧
        Runs ((Call.release 0).run rootSb) s (fun _ _ => True) fun _ => False) fun _ => False)
      fun _ => False) fun _ => False := by decide +kernel

/-- The file keeps its block until the handle is closed, and is freed with it then. -/
theorem open_files_live_nameless : ∃ s1 s s' : Fs, ((s1.abs rootSb).blocks 2).card = 1 ∧
    (Call.unlink [47, 102]).step rootSb s1 = some s ∧
    resolve (s.abs rootSb).node [47, 102] = none ∧
    (s.abs rootSb).Alloc 2 ∧ (s1.abs rootSb).blocks 2 ⊆ (s.abs rootSb).blocks 2 ∧
    (Call.release 0).step rootSb s = some s' ∧ ¬(s'.abs rootSb).Alloc 2 ∧
    s'.free_blocks rootSb = s.free_blocks rootSb ∪ (s.abs rootSb).blocks 2 := by
  obtain ⟨r1, s1, hcreate, hfile, hrun⟩ := nameless_run.returns
  obtain ⟨r2, s2, hwrite, hopen, htype, hcard, hrun⟩ := hrun.returns
  obtain ⟨r, s, hunlink, hopen', hnone, hlinks, href, hrun⟩ := hrun.returns
  obtain ⟨r', s', hrelease, -⟩ := hrun.returns
  have hreach : Transition.Reach (Started rootSb) (Call.step rootSb) (Served rootSb) s2 :=
    .next (.write 0 (fun _ => 97) 3 0) (.next (.create [47, 102] 2) (.start rootFs_started) trivial
      (Call.step_eq_some.mpr ⟨r1, hcreate⟩)) (fun _ => hfile) (Call.step_eq_some.mpr ⟨r2, hwrite⟩)
  have hstep : (Call.unlink [47, 102]).step rootSb s2 = some s :=
    Call.step_eq_some.mpr ⟨r, hunlink⟩
  have hclose : (Call.release 0).step rootSb s = some s' := Call.step_eq_some.mpr ⟨r', hrelease⟩
  rw [← OFile.points_iff] at hopen hopen'
  obtain ⟨-, hkept, -⟩ := open_files_live rootSb_layout (by decide) hreach hopen
  obtain ⟨halloc, -, hend⟩ := open_files_live rootSb_layout (by decide)
    (.next (.unlink [47, 102]) hreach trivial hstep) hopen'
  have hblocks := (hkept (.unlink [47, 102]) s trivial hstep ⟨0, hopen'⟩).2 htype id
  have hfreed := hend s' hclose href
  rw [if_pos hlinks] at hfreed
  exact ⟨s2, s, s', hcard, hstep, hnone, halloc, hblocks, hclose, hfreed.1, hfreed.2⟩

end Xv6fs
