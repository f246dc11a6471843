import Xv6fs.Fs.Link

/-! `op_rename` on the abstract state, and that it keeps its transaction within the budget. -/

namespace Xv6fs

open Program (Runs runs_imp runs_bind_assoc)

variable {sb : SuperBlock} {s s' s0 s1 s2 s3 : Fs} {a a' a0 : AbsFs} {x ip dp i src dst : Nat}
  {source dest name : List UInt8}

/-! ### One directory -/

/-- Entry `i` of directory `dp` gets another name, and the references to the inode that it names and
to the directory end. -/
def AbsFs.rename (a : AbsFs) (dp i : Nat) (name : List UInt8) : AbsFs :=
  ((a.setEntry dp i ⟨UInt16.ofNat (entryInum (a.node dp).dir i), strncpy name⟩).put
    (entryInum (a.node dp).dir i)).put dp

/-- What `same_parent` does inside its transaction.  It keeps its reference to a parent that it takes
for no directory. -/
inductive Renames (a0 : AbsFs) (source dest : List UInt8) : Int → AbsFs → Prop
  | no_parent {a : AbsFs} (h : During a0 a [])
      (hno : resolve a0.node (Path.parent_path source) = none) :
      Renames a0 source dest (-ENOENT) a
  | unread {a : AbsFs} {dp : Nat} (hdp : resolve a0.node (Path.parent_path source) = some dp)
      (h : During a0 a [dp]) (hno : ¬a.OpenDir dp) :
      Renames a0 source dest (-ENOTDIR) a
  | missing {a : AbsFs} {dp : Nat} (hdp : resolve a0.node (Path.parent_path source) = some dp)
      (h : During a0 a [])
      (hnone : findEntry (a0.node dp).dir (Path.filename source) = none) :
      Renames a0 source dest (-ENOENT) a
  | renamed {a : AbsFs} {dp i : Nat} (hdp : resolve a0.node (Path.parent_path source) = some dp)
      (hfind : findEntry (a0.node dp).dir (Path.filename source) = some i)
      (h : During a0 a [entryInum (a0.node dp).dir i, dp]) (hopen : a.OpenDir dp) :
      Renames a0 source dest 0 (a.rename dp i (Path.filename dest))

namespace Wf

/-- The links of a directory on disk are those in memory. -/
theorem links_synced (h : Wf sb s) (hopen : (s.abs sb).OpenDir x) :
    (s.inodes x).dinode.nlink = ((s.abs sb).node x).nlink := by
  obtain ⟨n, hmem⟩ := hopen.2
  obtain ⟨hv, -⟩ := valid_of_mem hmem
  have hlt := h.valid_lt hv
  rw [abs_nlink hlt]
  refine (h.cached x).links hv ?_
  have := hopen.1
  rwa [abs_type hlt] at this

/-- `update` of a directory finds nothing to change. -/
theorem update_dir (hl : Layout sb) (h : Wf sb s) (ho : s.outstanding ≥ 1)
    (hopen : (s.abs sb).OpenDir x) :
    Does sb (INode.update sb x) s fun _ s' => s'.abs sb = s.abs sb ∧ Adds (own sb x) 0 s s' := by
  obtain ⟨n, hmem⟩ := hopen.2
  obtain ⟨hv, hn⟩ := valid_of_mem hmem
  refine ((h.update hl hv ho).also (Costs.update (K := own sb x) (n := 0) (by simp) s)).imp ?_
  rintro _ s' _ ⟨habs, hadds⟩
  refine ⟨?_, hadds⟩
  rw [habs]
  refine AbsFs.ext ?_ rfl ?_ rfl rfl
  · rw [h.links_synced hopen]
    exact setAt_same (x := x) _
  · rw [hn]
    show setAt (s.abs sb).mem x (some n) = (s.abs sb).mem
    rw [← hmem]
    exact setAt_same (x := x) _

theorem same_parent (hl : Layout sb) (hroot : ROOTINO < sb.ninodes) (h : Wf sb s)
    (source dest : List UInt8) :
    Does sb (same_parent sb source dest) s (Transacts sb (fun a => Renames a source dest) s) := by
  refine h.begin_logs.bind fun _ s1 h1 hbegun => ?_
  have ho1 := hbegun.outstanding
  -- the paths that change nothing
  have hfail : ∀ {s2 : Fs} {n : Nat} {r : Int}, Wf sb s2 →
      Renames (s1.abs sb) source dest r (s2.abs sb) →
      (Budgeted sb s1 → Adds {sb.bmapstart} n s1 s2) → n ≤ 9 →
      Does sb (do Fs.end_op; pure r) s2 (Transacts sb (fun a => Renames a source dest) s) := by
    intro s2 n r h2 hrenames hadds hn
    refine h2.end_logs.bind ?_
    rintro _ s3 h3 ⟨habs3, hadds3⟩
    refine .pure h3 (hbegun.transacts hrenames habs3 (fun hb => (hadds hb).then_same
      (hadds3.mono (Finset.empty_subset _) (Nat.le_refl 0))) ?_)
    rw [Finset.card_singleton]
    omega
  refine (h1.start_name hl hroot ho1 _).bind ?_
  rintro r s2 h2 ⟨⟨hr, hs2, hlt⟩, hadds2⟩
  cases r with
  | none => exact hfail h2 (.no_parent hs2.during hr.symm) hadds2 (by decide)
  | some dp =>
    have ho2 : s2.outstanding ≥ 1 := hs2.outstanding ▸ ho1
    refine .get_bind (.ite (fun hno => ?_) fun hyes => ?_)
    · exact hfail h2 (.unread hr.symm hs2.during fun hopen => hno (h2.open_dir.mp hopen)) hadds2
        (by decide)
    have hopen2 := h2.open_dir.mpr (not_not.mp hyes)
    have hnode : (s2.abs sb).node dp = (s1.abs sb).node dp :=
      hs2.during.node_eq (by rw [AbsFs.Alloc, hopen2.1]; decide)
    refine (h2.dirlookup_logs dp _).bind ?_
    rintro r s3 h3 ⟨⟨-, hlook⟩, hadds3⟩
    have hadds3 : Budgeted sb s1 → Adds {sb.bmapstart} 1 s1 s3 := fun hb =>
      (hadds2 hb).then_same (hadds3.mono (Finset.empty_subset _) (Nat.le_refl 0))
    cases r with
    | none =>
      obtain ⟨hnone, hr3⟩ := hlook
      have hs3 := hs2.reads hr3
      have ho3 : s3.outstanding ≥ 1 := hs3.outstanding ▸ ho1
      refine (h3.put_logs hl ho3 dp).bind ?_
      rintro _ s4 h4 ⟨⟨hput4, hb4⟩, hadds4⟩
      rw [hnode] at hnone
      exact hfail h4 (.missing hr.symm (hs3.put_head h1 h3 hput4 hb4).during hnone)
        (fun hb => (hadds3 hb).trans (hadds4 hb.1).other) (by decide)
    | some q =>
      obtain ⟨ip, off⟩ := q
      obtain ⟨i, hfind, hip, hoff, hiplt, hr3⟩ := hlook
      have hopen3 : (s3.abs sb).OpenDir dp := by
        rw [hr3.abs]
        exact hopen2.get ip
      have hdir3 : ((s3.abs sb).node dp).dir = ((s1.abs sb).node dp).dir := by
        rw [hr3.abs]
        exact congrArg Node.dir hnode
      rw [hnode] at hfind hip
      have hreached : (s1.abs sb).Reached ip := by
        rw [hip]
        exact .entry (hs2.during.reached dp List.mem_cons_self) (hnode ▸ hopen2.1) hfind
      have hs3 := hs2.get hr3 hreached
      have ho3 : s3.outstanding ≥ 1 := hs3.outstanding ▸ ho1
      have hi : i < ((s3.abs sb).node dp).dir.length := by
        rw [hdir3]
        exact (findEntry_some hfind).1
      have hload := DirEntry.load_bytes ⟨UInt16.ofNat ip, strncpy (Path.filename dest)⟩
      rw [hoff]
      refine (h3.replace_entry hl ho3 (h3.open_dir.mp hopen3) hi (by
        rw [hload]
        exact Nat.lt_of_le_of_lt (by
          rw [UInt16.toNat_ofNat']
          exact Nat.mod_le _ _) hiplt)).bind ?_
      rintro n s4 h4 ⟨⟨hn, habs4⟩, hadds4⟩
      rw [hload] at habs4
      refine .ite (fun hne => absurd hn hne) fun _ => ?_
      have ho4 : s4.outstanding ≥ 1 := by
        rw [outstanding_of_abs habs4]
        exact ho3
      have hopen4 : (s4.abs sb).OpenDir dp := by
        rw [habs4]
        exact ⟨by simp only [AbsFs.setEntry, AbsFs.modify, setAt_self]; exact hopen3.1, hopen3.2⟩
      refine (h4.update_dir hl ho4 hopen4).bind ?_
      rintro _ s5 h5 ⟨habs5, hadds5⟩
      have ho5 : s5.outstanding ≥ 1 := by
        rw [outstanding_of_abs habs5]
        exact ho4
      refine (h5.put_logs hl ho5 ip).bind ?_
      rintro _ s6 h6 ⟨⟨hput6, _⟩, hadds6⟩
      have ho6 : s6.outstanding ≥ 1 := by
        rw [outstanding_of_abs hput6, AbsFs.put_outstanding]
        exact ho5
      refine (h6.put_logs hl ho6 dp).bind ?_
      rintro _ s7 h7 ⟨⟨hput7, _⟩, hadds7⟩
      refine h7.end_logs.bind ?_
      rintro _ s8 h8 ⟨habs8, hadds8⟩
      have hrenamed : Renames (s1.abs sb) source dest 0
          ((s3.abs sb).rename dp i (Path.filename dest)) :=
        .renamed hr.symm hfind (hip ▸ hs3.during) hopen3
      refine .pure h8 (hbegun.transacts hrenamed ?_ (K := insert (INODE_BLOCK sb dp) (own sb ip))
        (n := 1 + 2) (fun hb => ?_) ?_)
      · rw [habs8, hput7, hput6, habs5, habs4, AbsFs.rename, hdir3, ← hip]
      · have hsub := sub_own sb dp ip
        have h3 := (hadds3 hb).mono (sub_bmap sb dp ip) (Nat.le_refl 1)
        have h4 := h3.trans ((hadds4 hb.1).mono hsub (Nat.le_refl 2))
        have h5 := h4.then_same (hadds5.mono hsub (Nat.le_refl 0))
        have h6 := h5.then_same ((hadds6 hb.1).mono (Finset.subset_insert _ _) (Nat.le_refl 0))
        have h7 := h6.then_same ((hadds7 hb.1).mono hsub (Nat.le_refl 0))
        exact h7.then_same (hadds8.mono (Finset.empty_subset _) (Nat.le_refl 0))
      · have := Finset.card_insert_le (INODE_BLOCK sb dp) (own sb ip)
        have := card_own_le sb ip
        omega

end Wf

/-! ### Two directories -/

/-- Entry `i` of directory `src` becomes its last entry. -/
def AbsFs.moveLast (a : AbsFs) (src i : Nat) : AbsFs :=
  a.setEntry src i ((a.node src).dir.getD ((a.node src).dir.length - 1) .zero)

/-- What `different_parent` does inside its transaction.  It keeps its reference to a parent that it
takes for no directory. -/
inductive Moves (sb : SuperBlock) (a0 : AbsFs) (source dest : List UInt8) : Int → AbsFs → Prop
  | no_source {a : AbsFs} (h : During a0 a [])
      (hno : resolve a0.node (Path.parent_path source) = none) :
      Moves sb a0 source dest (-ENOENT) a
  | unread_source {a : AbsFs} {src : Nat} (hsrc : resolve a0.node (Path.parent_path source) = some src)
      (h : During a0 a [src]) (hno : ¬a.OpenDir src) : Moves sb a0 source dest (-ENOENT) a
  | no_dest {a : AbsFs} {src : Nat} (hsrc : resolve a0.node (Path.parent_path source) = some src)
      (h : During a0 a []) (hno : resolve a0.node (Path.parent_path dest) = none) :
      Moves sb a0 source dest (-ENOENT) a
  | unread_dest {a1 a : AbsFs} {src dst : Nat}
      (hsrc : resolve a0.node (Path.parent_path source) = some src)
      (hdst : resolve a0.node (Path.parent_path dest) = some dst)
      (h1 : During a0 a1 [dst, src]) (hno : ¬a1.OpenDir dst) (h : During a0 a [dst]) :
      Moves sb a0 source dest (-ENOENT) a
  | missing {a : AbsFs} {src dst : Nat}
      (hsrc : resolve a0.node (Path.parent_path source) = some src)
      (hdst : resolve a0.node (Path.parent_path dest) = some dst) (h : During a0 a [])
      (hnone : findEntry (a0.node src).dir (Path.filename source) = none) :
      Moves sb a0 source dest (-ENOENT) a
  | not_linked {a a1 : AbsFs} {src dst i : Nat}
      (hsrc : resolve a0.node (Path.parent_path source) = some src)
      (hdst : resolve a0.node (Path.parent_path dest) = some dst)
      (hfind : findEntry (a0.node src).dir (Path.filename source) = some i)
      (h : During a0 a [entryInum (a0.node src).dir i, dst, src]) (hopen : a.OpenDir src)
      (hopen' : a.OpenDir dst)
      (hlinked : Linked sb a dst (Path.filename dest) (entryInum (a0.node src).dir i) false a1) :
      Moves sb a0 source dest (- EIO) (((a1.put (entryInum (a0.node src).dir i)).put src).put dst)
  | moved {a a1 : AbsFs} {src dst i : Nat}
      (hsrc : resolve a0.node (Path.parent_path source) = some src)
      (hdst : resolve a0.node (Path.parent_path dest) = some dst)
      (hfind : findEntry (a0.node src).dir (Path.filename source) = some i)
      (h : During a0 a [entryInum (a0.node src).dir i, dst, src]) (hopen : a.OpenDir src)
      (hopen' : a.OpenDir dst)
      (hlinked : Linked sb a dst (Path.filename dest) (entryInum (a0.node src).dir i) true a1) :
      Moves sb a0 source dest 0
        ((((a1.moveLast src i).put (entryInum (a0.node src).dir i)).put src).put dst)

/-- An added entry leaves the directories open, and takes none away. -/
theorem Linked.open_dir {inum : Nat} (h : Linked sb a x name inum true a') (hopen : a.OpenDir dp) :
    a'.OpenDir dp ∧ (a.node dp).dir.length ≤ (a'.node dp).dir.length := by
  cases h with
  | tried _ hstep =>
    cases hstep with
    | @written slots _ _ =>
      by_cases hx : dp = x
      · subst hx
        refine ⟨⟨?_, hopen.2⟩, ?_⟩
        · simp only [AbsFs.setSlots, AbsFs.setEntry, AbsFs.modify, setAt_self]
          exact hopen.1
        · simp only [AbsFs.setSlots, AbsFs.setEntry, AbsFs.modify, setAt_self, putEntry]
          split
          · rw [List.length_set]
          · rw [List.length_append]
            exact Nat.le_add_right _ _
      · have hnode : (((a.setEntry x (freeSlot (a.node x).dir)
            ⟨UInt16.ofNat inum, strncpy name⟩).setSlots x slots).node dp) = a.node dp := by
          simp only [AbsFs.setSlots, AbsFs.setEntry, AbsFs.modify, setAt_of_ne hx]
        refine ⟨⟨by rw [hnode]; exact hopen.1, hopen.2⟩, by rw [hnode]⟩

namespace Wf

/-- The three puts that end a move. -/
theorem move_puts (hl : Layout sb) (h : Wf sb s) (ho : s.outstanding ≥ 1) (ip src dst : Nat) (r : Int) :
    Does sb (do
      Xv6fs.inode_put sb ip
      inode_unlock_put sb src
      inode_unlock_put sb dst
      Fs.end_op
      pure r) s fun r' s' =>
        (r' = r ∧ s'.abs sb = ((((s.abs sb).put ip).put src).put dst).end_op) ∧
        (sb.size ≤ BIT_PER_BLOCK →
          Adds (insert (INODE_BLOCK sb dst) (insert (INODE_BLOCK sb src) (own sb ip))) 0 s s') := by
  refine ((h.inode_put hl ho ip).also (runs_imp fun hone : sb.size ≤ BIT_PER_BLOCK =>
    (h.inode_put_adds hl hone ip).imp fun _ _ hs => hs.1)).bind ?_
  rintro _ s1 h1 ⟨⟨hput1, _⟩, hadds1⟩
  have ho1 : s1.outstanding ≥ 1 := by
    rw [outstanding_of_abs hput1, AbsFs.put_outstanding]
    exact ho
  refine (h1.put_logs hl ho1 src).bind ?_
  rintro _ s2 h2 ⟨⟨hput2, _⟩, hadds2⟩
  have ho2 : s2.outstanding ≥ 1 := by
    rw [outstanding_of_abs hput2, AbsFs.put_outstanding]
    exact ho1
  refine (h2.put_logs hl ho2 dst).bind ?_
  rintro _ s3 h3 ⟨⟨hput3, _⟩, hadds3⟩
  refine h3.end_logs.bind ?_
  rintro _ s4 h4 ⟨habs4, hadds4⟩
  refine .pure h4 ⟨⟨rfl, by rw [habs4, hput3, hput2, hput1]⟩, fun hone => ?_⟩
  have h1 : Adds (insert (INODE_BLOCK sb dst) (insert (INODE_BLOCK sb src) (own sb ip))) 0 s s1 :=
    (hadds1 hone).mono (by simp [Finset.insert_subset_iff]) (Nat.le_refl 0)
  have h2 := h1.then_same ((hadds2 hone).mono (by simp [Finset.insert_subset_iff]) (Nat.le_refl 0))
  have h3 := h2.then_same ((hadds3 hone).mono (by simp [Finset.insert_subset_iff]) (Nat.le_refl 0))
  exact h3.then_same (hadds4.mono (Finset.empty_subset _) (Nat.le_refl 0))

/-- `move_entry` from a state in which both directories have been read. -/
theorem move_entry (hl : Layout sb) (h : Wf sb s) (h0 : Wf sb s0) (ho0 : s0.outstanding ≥ 1)
    (hs : Since sb s0 s [dst, src])
    (hsrc : resolve (s0.abs sb).node (Path.parent_path source) = some src)
    (hdst : resolve (s0.abs sb).node (Path.parent_path dest) = some dst)
    (hopen : (s.abs sb).OpenDir src) (hopen' : (s.abs sb).OpenDir dst) :
    Does sb (move_entry sb src dst (Path.filename source) (Path.filename dest)) s fun r s' =>
      (∃ a', Moves sb (s0.abs sb) source dest r a' ∧ s'.abs sb = a'.end_op) ∧
        ∃ K n, K.card + n ≤ 8 ∧ sb.bmapstart ∈ K ∧ (sb.size ≤ BIT_PER_BLOCK → Adds K n s s') := by
  have hnode : (s.abs sb).node src = (s0.abs sb).node src :=
    hs.during.node_eq (by rw [AbsFs.Alloc, hopen.1]; decide)
  refine (h.dirlookup_logs src _).bind ?_
  rintro r s1 h1 ⟨⟨-, hlook⟩, hadds1⟩
  cases r with
  | none =>
    obtain ⟨hnone, hr1⟩ := hlook
    have hs1 := hs.reads hr1
    have ho1 : s1.outstanding ≥ 1 := hs1.outstanding ▸ ho0
    refine (h1.put_logs hl ho1 src).bind ?_
    rintro _ s2 h2 ⟨⟨hput2, hb2⟩, hadds2⟩
    have hs2 := hs1.put_second h0 h1 hput2 hb2
    have ho2 : s2.outstanding ≥ 1 := hs2.outstanding ▸ ho0
    refine (h2.put_logs hl ho2 dst).bind ?_
    rintro _ s3 h3 ⟨⟨hput3, hb3⟩, hadds3⟩
    have hs3 := hs2.put_head h0 h2 hput3 hb3
    refine h3.end_logs.bind ?_
    rintro _ s4 h4 ⟨habs4, hadds4⟩
    rw [hnode] at hnone
    refine .pure h4 ⟨⟨_, .missing hsrc hdst hs3.during hnone, habs4⟩,
      insert (INODE_BLOCK sb dst) (own sb src), 0, ?_, by simp, fun hone => ?_⟩
    · have := Finset.card_insert_le (INODE_BLOCK sb dst) (own sb src)
      have := card_own_le sb src
      omega
    · have h2 := (hadds1.mono (Finset.empty_subset _) (Nat.le_refl 0)).then_same
        ((hadds2 hone).mono (Finset.subset_insert (INODE_BLOCK sb dst) _) (Nat.le_refl 0))
      exact (h2.then_same ((hadds3 hone).mono (sub_own sb dst src) (Nat.le_refl 0))).then_same
        (hadds4.mono (Finset.empty_subset _) (Nat.le_refl 0))
  | some q =>
    obtain ⟨ip, off⟩ := q
    obtain ⟨i, hfind, hip, hoff, hiplt, hr1⟩ := hlook
    have hdir : ((s1.abs sb).node src).dir = ((s0.abs sb).node src).dir := by
      rw [hr1.abs]
      exact congrArg Node.dir hnode
    rw [hnode] at hfind hip
    have hreached : (s0.abs sb).Reached ip := by
      rw [hip]
      exact .entry (hs.during.reached src (by simp)) (hnode ▸ hopen.1) hfind
    have hs1 := hs.get hr1 hreached
    have ho1 : s1.outstanding ≥ 1 := hs1.outstanding ▸ ho0
    have hopen1 : (s1.abs sb).OpenDir src := by
      rw [hr1.abs]
      exact hopen.get ip
    have hopen1' : (s1.abs sb).OpenDir dst := by
      rw [hr1.abs]
      exact hopen'.get ip
    let K := insert (INODE_BLOCK sb dst) (insert (INODE_BLOCK sb src) (own sb ip))
    have hK : K.card ≤ 4 := by
      have := Finset.card_insert_le (INODE_BLOCK sb dst) (insert (INODE_BLOCK sb src) (own sb ip))
      have := Finset.card_insert_le (INODE_BLOCK sb src) (own sb ip)
      have := card_own_le sb ip
      show (insert (INODE_BLOCK sb dst) (insert (INODE_BLOCK sb src) (own sb ip))).card ≤ 4
      omega
    have hKdst : own sb dst ⊆ K := by simp [K, Finset.insert_subset_iff]
    have hKsrc : own sb src ⊆ K := by simp [K, Finset.insert_subset_iff]
    have hKbmap : sb.bmapstart ∈ K := by simp [K]
    refine (h1.dirlink_logs hl ho1 dst (Path.filename dest) hiplt).bind ?_
    rintro linked s2 h2 ⟨⟨-, hlinked⟩, hadds2⟩
    have ho2 : s2.outstanding ≥ 1 := by
      rw [show s2.outstanding = s1.outstanding from hlinked.outstanding]
      exact ho1
    have hadds2 : sb.size ≤ BIT_PER_BLOCK → Adds K 2 s s2 := fun hone =>
      (hadds1.mono (Finset.empty_subset _) (Nat.le_refl 0)).trans
        ((hadds2 hone).mono hKdst (Nat.le_refl 2))
    refine .ite (fun hyes => ?_) fun hno => ?_
    · rw [hyes] at hlinked
      obtain ⟨hopen2, hlen2⟩ := hlinked.open_dir hopen1
      refine (h2.update_dir hl ho2 (hlinked.open_dir hopen1').1).bind ?_
      rintro _ s3 h3 ⟨habs3, hadds3⟩
      rw [← habs3] at hopen2 hlen2 hlinked
      have ho3 : s3.outstanding ≥ 1 := by
        rw [outstanding_of_abs habs3]
        exact ho2
      refine .get_bind ?_
      have hi : i < ((s3.abs sb).node src).dir.length := by
        refine Nat.lt_of_lt_of_le ?_ hlen2
        rw [hdir]
        exact (findEntry_some hfind).1
      have hdir3 := h3.dir (h3.open_dir.mp hopen2)
      have hlast : ((s3.abs sb).node src).dir.length - 1 < ((s3.abs sb).node src).dir.length := by
        omega
      have hoff3 : (s3.inodes src).dinode.size.toNat - DIRENT_SIZE =
          (((s3.abs sb).node src).dir.length - 1) * DIRENT_SIZE := by
        have := hdir3.length
        have := hdir3.aligned
        simp only [DIRENT_SIZE] at *
        omega
      dsimp only
      rw [hoff3]
      refine ((h3.read_entry (h3.open_dir.mp hopen2) hlast).also
        (read_adds (K := K) (n := 0) hdir3.solid _ _ _)).bind ?_
      rintro ⟨n, buf⟩ s4 h4 ⟨⟨hr4, hinodes4, hn, hload⟩, hadds4, -⟩
      dsimp only at hn hload ⊢
      refine .ite (fun hne => absurd hn hne) fun _ => ?_
      rw [← hr4.abs] at hopen2 hi hlinked
      have ho4 : s4.outstanding ≥ 1 := by
        rw [outstanding_of_abs hr4.abs]
        exact ho3
      rw [hoff]
      refine (h4.replace_entry hl ho4 (h4.open_dir.mp hopen2) hi (by
        rw [hload]
        exact hdir3.inums _ (List.getElem_mem _))).bind ?_
      rintro m s5 h5 ⟨⟨_, habs5⟩, hadds5⟩
      have habs5 : s5.abs sb = (s4.abs sb).moveLast src i := by
        rw [habs5, AbsFs.moveLast, hload, hr4.abs, List.getD_eq_getElem _ _ hlast]
      have ho5 : s5.outstanding ≥ 1 := by
        rw [outstanding_of_abs habs5]
        exact ho4
      have hopen5 : (s5.abs sb).OpenDir src := by
        rw [habs5]
        refine ⟨?_, hopen2.2⟩
        simp only [AbsFs.moveLast, AbsFs.setEntry, AbsFs.modify, setAt_self]
        exact hopen2.1
      refine (h5.update_dir hl ho5 hopen5).bind ?_
      rintro _ s6 h6 ⟨habs6, hadds6⟩
      have ho6 : s6.outstanding ≥ 1 := by
        rw [outstanding_of_abs habs6]
        exact ho5
      refine (h6.move_puts hl ho6 ip src dst 0).imp ?_
      rintro r s7 _ ⟨⟨rfl, habs7⟩, hadds7⟩
      subst hip
      refine ⟨⟨_, .moved hsrc hdst hfind hs1.during hopen1 hopen1' hlinked, ?_⟩, K, 2 + 2,
        by omega, hKbmap, fun hone => ?_⟩
      · rw [habs7, habs6, habs5]
      · have h3 := (hadds2 hone).then_same (hadds3.mono hKdst (Nat.le_refl 0))
        have h5 := (h3.then_same hadds4).trans ((hadds5 hone).mono hKsrc (Nat.le_refl 2))
        exact (h5.then_same (hadds6.mono hKsrc (Nat.le_refl 0))).then_same (hadds7 hone)
    · rw [Bool.not_eq_true] at hno
      rw [hno] at hlinked
      rw [Does, Xv6fs.inode_unlock_put, runs_bind_assoc]
      refine (h2.unlock_logs ip).bind ?_
      rintro _ s3 h3 ⟨hr3, hadds3⟩
      have ho3 : s3.outstanding ≥ 1 := by
        rw [hr3.outstanding]
        exact ho2
      refine (h3.move_puts hl ho3 ip src dst (- EIO)).imp ?_
      rintro r s4 _ ⟨⟨rfl, habs4⟩, hadds4⟩
      rw [hr3.abs] at habs4
      subst hip
      exact ⟨⟨_, .not_linked hsrc hdst hfind hs1.during hopen1 hopen1' hlinked, habs4⟩, K, 2,
        by omega, hKbmap, fun hone => ((hadds2 hone).then_same
          (hadds3.mono (Finset.empty_subset _) (Nat.le_refl 0))).then_same (hadds4 hone)⟩

theorem different_parent (hl : Layout sb) (hroot : ROOTINO < sb.ninodes) (h : Wf sb s)
    (source dest : List UInt8) :
    Does sb (different_parent sb source dest) s
      (Transacts sb (fun a => Moves sb a source dest) s) := by
  refine h.begin_logs.bind fun _ s1 h1 hbegun => ?_
  have ho1 := hbegun.outstanding
  -- the paths that change nothing
  have hfail : ∀ {s2 : Fs} {n : Nat}, Wf sb s2 →
      Moves sb (s1.abs sb) source dest (-ENOENT) (s2.abs sb) →
      (Budgeted sb s1 → Adds {sb.bmapstart} n s1 s2) → n ≤ 9 →
      Does sb (do Fs.end_op; pure (-ENOENT)) s2
        (Transacts sb (fun a => Moves sb a source dest) s) := by
    intro s2 n h2 hmoves hadds hn
    refine h2.end_logs.bind ?_
    rintro _ s3 h3 ⟨habs3, hadds3⟩
    refine .pure h3 (hbegun.transacts hmoves habs3 (fun hb => (hadds hb).then_same
      (hadds3.mono (Finset.empty_subset _) (Nat.le_refl 0))) ?_)
    rw [Finset.card_singleton]
    omega
  refine (h1.start_name hl hroot ho1 _).bind ?_
  rintro r s2 h2 ⟨⟨hr, hs2, hlt2⟩, hadds2⟩
  cases r with
  | none => exact hfail h2 (.no_source hs2.during hr.symm) hadds2 (by decide)
  | some src =>
    have ho2 : s2.outstanding ≥ 1 := hs2.outstanding ▸ ho1
    refine .get_bind (.ite (fun hno => ?_) fun hyes => ?_)
    · exact hfail h2 (.unread_source hr.symm hs2.during fun hopen => hno (h2.open_dir.mp hopen))
        hadds2 (by decide)
    have hopen2 := h2.open_dir.mpr (not_not.mp hyes)
    -- without the second parent the reference to the first is dropped
    have hno_dest : ∀ {s3 : Fs} {held : List Nat}, Wf sb s3 → Since sb s1 s3 (src :: held) →
        (∀ a, During (s1.abs sb) a held → Moves sb (s1.abs sb) source dest (-ENOENT) a) →
        (Budgeted sb s1 → Adds {sb.bmapstart} 2 s1 s3) →
        Does sb (different_parent.no_dest sb src) s3
          (Transacts sb (fun a => Moves sb a source dest) s) := by
      intro s3 held h3 hs3 hmoves hadds3
      have ho3 : s3.outstanding ≥ 1 := hs3.outstanding ▸ ho1
      refine (h3.put_logs hl ho3 src).bind ?_
      rintro _ s4 h4 ⟨⟨hput4, hb4⟩, hadds4⟩
      exact hfail h4 (hmoves _ (hs3.put_head h1 h3 hput4 hb4).during)
        (fun hb => (hadds3 hb).trans (hadds4 hb.1).other) (by decide)
    have hwalk := h2.inode_name hl hroot h1 ho1 hs2 (Path.parent_path dest)
    -- the second walk is also one that begins with the first parent in memory
    refine (hwalk.also (h2.start_name hl hroot ho2 _).any).bind ?_
    rintro r' s3 h3 ⟨⟨hr', hs3, hlt3⟩, -, ⟨-, hs23, -⟩, hadds3⟩
    have hb2 : Budgeted sb s1 → Budgeted sb s2 := fun hb => ⟨hb.1, hb.2.during hs2.during⟩
    have hadds3 : Budgeted sb s1 → Adds {sb.bmapstart} 2 s1 s3 := fun hb =>
      (hadds2 hb).trans (hadds3 (hb2 hb))
    have hopen3 : (s3.abs sb).OpenDir src := by
      obtain ⟨htype, n, hmem⟩ := hopen2
      have hmem3 := hs23.during.kept src n hmem
      refine ⟨?_, n, hmem3⟩
      rw [hs23.during.node_eq (h3.normal.alloc src n hmem3)]
      exact htype
    cases r' with
    | none => exact hno_dest h3 hs3 (fun a ha => .no_dest hr.symm ha hr'.symm) hadds3
    | some dst =>
      refine .get_bind (.ite (fun hno => ?_) fun hyes' => ?_)
      · refine hno_dest h3 (hs3.perm (List.Perm.swap src dst [])) (fun a ha => ?_) hadds3
        exact .unread_dest hr.symm hr'.symm hs3.during
          (fun hopen => hno (h3.open_dir.mp hopen)) ha
      · have hopen3' := h3.open_dir.mpr (not_not.mp hyes')
        refine (h3.move_entry hl h1 ho1 hs3 hr.symm hr'.symm hopen3 hopen3').imp ?_
        rintro r s4 _ ⟨⟨a', hmoves, habs4⟩, K, n, hcard, hK, hadds4⟩
        refine hbegun.transacts hmoves habs4 (K := K) (n := 2 + n) (fun hb => ?_) (by omega)
        exact ((hadds3 hb).mono (Finset.singleton_subset_iff.mpr hK) (Nat.le_refl 2)).trans
          (hadds4 hb.1)

/-- `op_rename` is one transaction. -/
theorem op_rename (hl : Layout sb) (hroot : ROOTINO < sb.ninodes) (h : Wf sb s)
    (source dest : List UInt8) :
    Does sb (op_rename sb source dest) s (Transacts sb (fun a r a' =>
      if Path.same (Path.parent_path source) (Path.parent_path dest) then
        Renames a source dest r a' else Moves sb a source dest r a') s) := by
  unfold Xv6fs.op_rename
  split
  · exact h.same_parent hl hroot source dest
  · exact h.different_parent hl hroot source dest

end Wf

end Xv6fs
