import Xv6fs.Fs.Close

/-! `do_unlink` on the abstract state, and that it keeps its transaction within the budget. -/

namespace Xv6fs

open Program (Runs runs_imp runs_bind_assoc)

variable {sb : SuperBlock} {s s' s1 s2 : Fs} {a a' a0 : AbsFs} {x ip dp i : Nat}
  {path name : List UInt8} {buf : Bytes.Source}

/-- A directory names nothing from its third entry on. -/
def emptyDir (dir : List DirEntry) : Bool := (dir.drop 2).all fun e => e.inum == 0

theorem Wf.is_dir_empty_loop (h : Wf sb s) (hx : (s.inodes x).dinode.type = FileType.T_DIR)
    (fuel i : Nat) (hfuel : ((s.abs sb).node x).dir.length ≤ i + fuel) :
    Does sb (is_dir_empty_loop sb x fuel (i * DIRENT_SIZE)) s fun b s' =>
      b = (((s.abs sb).node x).dir.drop i).all (fun e => e.inum == 0) ∧
        Reads sb s s' (s.abs sb) := by
  have hend : ((s.abs sb).node x).dir.length ≤ i →
      (((s.abs sb).node x).dir.drop i).all (fun e => e.inum == 0) = true := by
    intro hle
    rw [List.drop_eq_nil_of_le hle]
    rfl
  induction fuel generalizing s i with
  | zero => exact .pure h ⟨(hend (by omega)).symm, rfl, rfl⟩
  | succ fuel ih =>
    have hd := h.dir hx
    have hlen := hd.length
    rw [Xv6fs.is_dir_empty_loop]
    refine .get_bind (.ite (fun hlt => ?_) fun hge => ?_)
    · have hi : i < ((s.abs sb).node x).dir.length := by
        have := hd.aligned
        simp only [DIRENT_SIZE] at *
        omega
      refine (h.read_entry hx hi).bind ?_
      rintro ⟨n, buf⟩ s1 h1 ⟨hr, hinodes, hn, hload⟩
      refine .assert_bind ⟨by decide, by decide⟩ fun _ => ?_
      dsimp only at hload ⊢
      rw [hload, List.drop_eq_getElem_cons hi, List.all_cons]
      refine .ite (fun hlive => .pure h1 ⟨?_, hr⟩) fun h0 => ?_
      · rw [beq_eq_false_iff_ne.mpr hlive, Bool.false_and]
      · have habs := hr.abs
        have hstep := ih h1 (i := i + 1) (by rw [hinodes]; exact hx) (by rw [habs]; omega) fun hle => by
          rw [List.drop_eq_nil_of_le hle]
          rfl
        rw [Nat.succ_mul, habs] at hstep
        refine hstep.imp ?_
        rintro b s2 _ ⟨hb, hr2⟩
        refine ⟨?_, hr2.abs, hr2.blocks.trans hr.blocks⟩
        rw [not_not.mp h0, hb]
        rfl
    · refine .pure h ⟨(hend ?_).symm, rfl, rfl⟩
      have := hd.aligned
      simp only [DIRENT_SIZE] at *
      omega

theorem Wf.is_dir_empty (h : Wf sb s) (hx : (s.inodes x).dinode.type = FileType.T_DIR) :
    Does sb (is_dir_empty sb x) s fun b s' =>
      (b = emptyDir ((s.abs sb).node x).dir ∧ Reads sb s s' (s.abs sb)) ∧ Adds ∅ 0 s s' := by
  refine Does.also (.get_bind (h.is_dir_empty_loop hx _ 2 ?_)) (is_dir_empty_adds (h.dir hx).solid)
  have := (h.dir hx).length
  have := Nat.div_le_self (s.inodes x).dinode.size.toNat DIRENT_SIZE
  omega

/-- `write` of an entry in the place of another. -/
theorem Wf.replace_entry (hl : Layout sb) (h : Wf sb s) (ho : s.outstanding ≥ 1)
    (hx : (s.inodes x).dinode.type = FileType.T_DIR) (hi : i < ((s.abs sb).node x).dir.length)
    (hinum : (DirEntry.load buf).inum.toNat < sb.ninodes) :
    Does sb (INode.write sb x buf (i * DIRENT_SIZE) DIRENT_SIZE) s fun n s' =>
      (n = DIRENT_SIZE ∧ s'.abs sb = (s.abs sb).setEntry x i (.load buf)) ∧
        (sb.size ≤ BIT_PER_BLOCK → Adds (own sb x) 2 s s') := by
  refine ((h.write_entry hl ho hx (Nat.le_of_lt hi) hinum).also (runs_imp fun hone =>
    write_entry_costs hone x i buf s)).imp ?_
  rintro n s' _ ⟨hstep, hadds⟩
  refine ⟨?_, hadds⟩
  generalize s'.abs sb = a' at hstep
  generalize hb : decide (n = DIRENT_SIZE) = b at hstep
  cases hstep with
  | @written slots _ hkept =>
    refine ⟨of_decide_eq_true hb, ?_⟩
    have hslots : ((s.abs sb).setEntry x i (.load buf)).node x =
        { (s.abs sb).node x with dir := putEntry ((s.abs sb).node x).dir i (.load buf) } :=
      AbsFs.modify_node_self _
    have hsame := AbsFs.setSlots_same ((s.abs sb).setEntry x i (.load buf)) x
    rw [hslots] at hsame
    rw [hkept hi]
    exact hsame
  | no_room hno _ => exact absurd (.inl hi) hno

/-- What is left when entry `i` of directory `dp`, which names `ip`, is gone. -/
def AbsFs.unlink (a : AbsFs) (dp i ip : Nat) : AbsFs :=
  let a1 := a.setEntry dp i .zero
  let a2 := if (a.node ip).type = FileType.T_DIR then a1.setLinks dp (a1.links dp - 1) else a1
  let a3 := a2.put dp
  (a3.setLinks ip (a3.links ip - 1)).put ip

/-- Entry `i` of directory `dp` is what `path` ends with, and may be removed. -/
structure AbsFs.Removable (a : AbsFs) (path : List UInt8) (dp i : Nat) : Prop where
  parent : ∃ name, resolveParent a.node path = some (dp, name) ∧ name ≠ [46] ∧ name ≠ [46, 46] ∧
    findEntry (a.node dp).dir name = some i
  empty : (a.node (entryInum (a.node dp).dir i)).type = FileType.T_DIR →
    emptyDir (a.node (entryInum (a.node dp).dir i)).dir = true

/-- What `do_unlink` does inside its transaction. -/
inductive Unlinks (a0 : AbsFs) (path : List UInt8) : Int → AbsFs → Prop
  | refused {a : AbsFs} (h : During a0 a []) (hno : ∀ dp i, ¬a0.Removable path dp i) :
      Unlinks a0 path (-1) a
  | removed {a : AbsFs} {dp i : Nat} (hrem : a0.Removable path dp i)
      (h : During a0 a [entryInum (a0.node dp).dir i, dp]) (hopen : a.OpenDir dp)
      (hmem : a.mem (entryInum (a0.node dp).dir i) = some (a0.links (entryInum (a0.node dp).dir i))) :
      Unlinks a0 path 0 (a.unlink dp i (entryInum (a0.node dp).dir i))

namespace AbsFs

@[simp] theorem setEntry_outstanding (a : AbsFs) (x i : Nat) (e : DirEntry) :
    (a.setEntry x i e).outstanding = a.outstanding := rfl

@[simp] theorem setLinks_outstanding (a : AbsFs) (x : Nat) (n : UInt16) :
    (a.setLinks x n).outstanding = a.outstanding := rfl

/-- An inode that has two references is in memory after the end of one. -/
theorem put_mem_of_ref (hne : x = dp → 2 ≤ a.ref dp) : (a.put dp).mem x = a.mem x := by
  by_cases hx : x = dp
  · have href := hne hx
    unfold put
    rw [if_neg fun h => absurd h.1 (by omega)]
    simp only [drop, hx, setAt_self]
    rw [if_neg (by omega)]
  · exact put_mem_of_ne hx

end AbsFs

/-- What a removable entry is. -/
theorem AbsFs.Removable.of_lookup (hparent : resolveParent a.node path = some (dp, name))
    (hfind : findEntry (a.node dp).dir name = some i) (hdots : ¬(name = [46] ∨ name = [46, 46]))
    (hempty : (a.node (entryInum (a.node dp).dir i)).type = FileType.T_DIR →
      emptyDir (a.node (entryInum (a.node dp).dir i)).dir = true) : a.Removable path dp i :=
  ⟨⟨name, hparent, fun h => hdots (.inl h), fun h => hdots (.inr h), hfind⟩, hempty⟩

theorem AbsFs.OpenDir.get (h : a.OpenDir dp) (x : Nat) : (a.get x).OpenDir dp := h

theorem AbsFs.OpenDir.load (h : a.OpenDir dp) (x : Nat) : (a.load x).OpenDir dp := by
  refine ⟨h.1, ?_⟩
  simp only [AbsFs.load, setAt_apply]
  split
  · exact ⟨_, rfl⟩
  · exact h.2

namespace Wf

/-- What follows the change of the parent. -/
theorem unlink_rest (hl : Layout sb) (h : Wf sb s) (ho : s.outstanding ≥ 1) {n : UInt16}
    (hmem : ((s.abs sb).put dp).mem ip = some n) :
    Does sb (do_unlink.rest sb dp ip) s fun r s' =>
      (r = 0 ∧ s'.abs sb = ((((s.abs sb).put dp).setLinks ip
        (((s.abs sb).put dp).links ip - 1)).put ip).end_op) ∧
      (sb.size ≤ BIT_PER_BLOCK → Adds (insert (INODE_BLOCK sb dp) (own sb ip)) 0 s s') := by
  refine (h.put_logs hl ho dp).bind ?_
  rintro _ s1 h1 ⟨⟨hput1, _⟩, hadds1⟩
  rw [← hput1] at hmem
  obtain ⟨hv1, -⟩ := valid_of_mem hmem
  have ho1 : s1.outstanding ≥ 1 := by
    rw [outstanding_of_abs hput1, AbsFs.put_outstanding]
    exact ho
  rw [Does, ← runs_bind_assoc]
  refine (h1.links_logs hl hv1 ho1 (fun dip => { dip with nlink := dip.nlink - 1 }) rfl rfl
    rfl).bind ?_
  rintro _ s2 h2 ⟨habs2, hadds2⟩
  have ho2 : s2.outstanding ≥ 1 := by
    rw [outstanding_of_abs habs2]
    exact ho1
  refine (h2.put_logs hl ho2 ip).bind ?_
  rintro _ s3 h3 ⟨⟨hput3, _⟩, hadds3⟩
  refine h3.end_logs.bind ?_
  rintro _ s4 h4 ⟨habs4, hadds4⟩
  refine .pure h4 ⟨⟨rfl, ?_⟩, fun hone => ?_⟩
  · rw [habs4, hput3, habs2, ← hput1, links_eq hv1]
  · have hsub := Finset.subset_insert (INODE_BLOCK sb dp) (own sb ip)
    have h1 := (hadds1 hone).mono (sub_own sb dp ip) (Nat.le_refl 0)
    have h2 := h1.then_same (hadds2.mono hsub (Nat.le_refl 0))
    have h3 := h2.then_same ((hadds3 hone).mono hsub (Nat.le_refl 0))
    exact h3.then_same (hadds4.mono (Finset.empty_subset _) (Nat.le_refl 0))

/-- The removal of an entry. -/
theorem unlink_remove (hl : Layout sb) (h : Wf sb s) (ho : s.outstanding ≥ 1)
    (hopen : (s.abs sb).OpenDir dp) (hi : i < ((s.abs sb).node dp).dir.length) {n : UInt16}
    (hmem : (s.abs sb).mem ip = some n) (href : ip = dp → 2 ≤ (s.abs sb).ref dp) :
    Does sb (do_unlink.remove sb dp ip (i * DIRENT_SIZE)) s fun r s' =>
      (r = 0 ∧ s'.abs sb = ((s.abs sb).unlink dp i ip).end_op) ∧
      (sb.size ≤ BIT_PER_BLOCK → Adds (insert (INODE_BLOCK sb dp) (own sb ip)) 2 s s') := by
  have hzero : DirEntry.load DirEntry.zero.bytes = .zero := DirEntry.load_bytes _
  have hlt := (h.dir (h.open_dir.mp hopen)).lt
  refine (h.replace_entry hl ho (h.open_dir.mp hopen) hi (by
    rw [hzero]
    exact Nat.lt_of_le_of_lt (Nat.zero_le _) hlt)).bind ?_
  rintro m s1 h1 ⟨⟨_, habs1⟩, hadds1⟩
  rw [hzero] at habs1
  have hadds1 : sb.size ≤ BIT_PER_BLOCK → Adds (insert (INODE_BLOCK sb dp) (own sb ip)) 2 s s1 :=
    fun hone => (hadds1 hone).mono (sub_own sb dp ip) (Nat.le_refl 2)
  refine .assert_bind ⟨by decide, by decide⟩ fun _ => .get_bind ?_
  have hmem1 : (s1.abs sb).mem ip = some n := by
    rw [habs1]
    exact hmem
  obtain ⟨hv1, -⟩ := valid_of_mem hmem1
  have ho1 : s1.outstanding ≥ 1 := by
    rw [outstanding_of_abs habs1]
    exact ho
  have htype : (s1.inodes ip).dinode.type = ((s.abs sb).node ip).type := by
    rw [h1.type_eq hv1, habs1]
    simp only [AbsFs.setEntry, AbsFs.modify, setAt_apply]
    split
    · next heq => rw [heq]
    · rfl
  rw [htype]
  refine .ite (fun hdir => ?_) fun hfile => ?_
  · obtain ⟨k, hmemdp⟩ := hopen.2
    obtain ⟨hvdp, -⟩ := valid_of_mem (show (s1.abs sb).mem dp = some k by rw [habs1]; exact hmemdp)
    rw [Does, ← runs_bind_assoc]
    refine (h1.links_logs hl hvdp ho1 (fun dip => { dip with nlink := dip.nlink - 1 }) rfl rfl
      rfl).bind ?_
    rintro _ s2 h2 ⟨habs2, hadds2⟩
    rw [← links_eq hvdp, habs1] at habs2
    have ho2 : s2.outstanding ≥ 1 := by
      rw [outstanding_of_abs habs2]
      exact ho
    have hmem2 : ∃ n', (s2.abs sb).mem ip = some n' := by
      rw [habs2]
      simp only [AbsFs.setLinks, AbsFs.setMem, setAt_apply]
      split
      · exact ⟨_, rfl⟩
      · exact ⟨n, hmem⟩
    obtain ⟨n', hmem2⟩ := hmem2
    rw [← AbsFs.put_mem_of_ref fun heq => by
      rw [habs2]
      exact href heq] at hmem2
    refine (h2.unlink_rest hl ho2 hmem2).imp ?_
    rintro r s3 _ ⟨⟨hr, habs3⟩, hadds3⟩
    refine ⟨⟨hr, ?_⟩, fun hone => ?_⟩
    · rw [habs3, habs2, AbsFs.unlink, if_pos hdir]
    · exact ((hadds1 hone).then_same (hadds2.mono (sub_own sb dp ip) (Nat.le_refl 0))).then_same
        (hadds3 hone)
  · rw [← AbsFs.put_mem_of_ref fun heq => by
      rw [habs1]
      exact href heq] at hmem1
    refine (h1.unlink_rest hl ho1 hmem1).imp ?_
    rintro r s2 _ ⟨⟨hr, habs2⟩, hadds2⟩
    refine ⟨⟨hr, ?_⟩, fun hone => (hadds1 hone).then_same (hadds2 hone)⟩
    rw [habs2, habs1, AbsFs.unlink, if_neg hfile]

/-- `do_unlink` removes an entry that may be removed, or nothing. -/
theorem do_unlink (hl : Layout sb) (hroot : ROOTINO < sb.ninodes) (h : Wf sb s)
    (path : List UInt8) :
    Does sb (do_unlink sb path) s (Transacts sb (fun a => Unlinks a path) s) := by
  refine h.begin_logs.bind fun _ s1 h1 hbegun => ?_
  have ho1 := hbegun.outstanding
  -- the error paths end with the references dropped
  have hfail : ∀ {s2 : Fs} {n : Nat}, Wf sb s2 → During (s1.abs sb) (s2.abs sb) [] →
      (∀ dp i, ¬(s1.abs sb).Removable path dp i) → (Budgeted sb s1 → Adds {sb.bmapstart} n s1 s2) →
      n ≤ 9 → Does sb (do Fs.end_op; pure (-1)) s2 (Transacts sb (fun a => Unlinks a path) s) := by
    intro s2 n h2 hd hno hadds hn
    refine h2.end_logs.bind ?_
    rintro _ s3 h3 ⟨habs3, hadds3⟩
    refine .pure h3 (hbegun.transacts (.refused hd hno) habs3 (fun hb => (hadds hb).then_same
      (hadds3.mono (Finset.empty_subset _) (Nat.le_refl 0))) ?_)
    rw [Finset.card_singleton]
    omega
  refine (h1.start_parent hl hroot ho1 path).bind ?_
  rintro r s2 h2 ⟨⟨hr, hs2, hopen2⟩, hadds2⟩
  cases r with
  | none =>
    refine hfail h2 hs2.during ?_ hadds2 (by decide)
    rintro dp i ⟨⟨name, hparent, -⟩, -⟩
    cases hr.trans hparent
  | some p =>
    obtain ⟨dp, name⟩ := p
    obtain ⟨hdp, hopen2⟩ := hopen2 _ rfl
    have ho2 : s2.outstanding ≥ 1 := hs2.outstanding ▸ ho1
    -- any entry that may be removed is the one that is looked up
    have hlast : ∀ {dp' i' : Nat}, (s1.abs sb).Removable path dp' i' →
        dp' = dp ∧ ¬(name = [46] ∨ name = [46, 46]) ∧
          findEntry ((s1.abs sb).node dp).dir name = some i' := by
      rintro dp' i' ⟨⟨name', hparent, hdot, hdotdot, hfind⟩, -⟩
      cases hr.trans hparent
      exact ⟨rfl, fun h => h.elim hdot hdotdot, hfind⟩
    have hnode : (s2.abs sb).node dp = (s1.abs sb).node dp :=
      hs2.during.node_eq (by rw [AbsFs.Alloc, hopen2.1]; decide)
    have hdirlookup := h2.dirlookup_logs dp name
    refine .ite (fun hdots => ?_) fun hdots => ?_
    · refine (h2.put_logs hl ho2 dp).bind ?_
      rintro _ s3 h3 ⟨⟨hput3, hb3⟩, hadds3⟩
      refine hfail h3 (hs2.put_head h1 h2 hput3 hb3).during ?_
        (fun hb => (hadds2 hb).trans (hadds3 hb.1).other) (by decide)
      exact fun dp' i' hrem => (hlast hrem).2.1 hdots
    · refine hdirlookup.bind ?_
      rintro r s3 h3 ⟨⟨-, hlook⟩, hadds3⟩
      have hadds3 : Budgeted sb s1 → Adds {sb.bmapstart} 1 s1 s3 := fun hb =>
        (hadds2 hb).then_same (hadds3.mono (Finset.empty_subset _) (Nat.le_refl 0))
      cases r with
      | none =>
        obtain ⟨hnone, hr3⟩ := hlook
        have hs3 := hs2.reads hr3
        have ho3 : s3.outstanding ≥ 1 := hs3.outstanding ▸ ho1
        refine (h3.put_logs hl ho3 dp).bind ?_
        rintro _ s4 h4 ⟨⟨hput4, hb4⟩, hadds4⟩
        refine hfail h4 (hs3.put_head h1 h3 hput4 hb4).during ?_
          (fun hb => (hadds3 hb).trans (hadds4 hb.1).other) (by decide)
        intro dp' i' hrem
        obtain ⟨rfl, -, hfind⟩ := hlast hrem
        rw [← hnode, hnone] at hfind
        cases hfind
      | some q =>
        obtain ⟨ip, off⟩ := q
        obtain ⟨i, hfind, hip, hoff, -, hr3⟩ := hlook
        rw [hnode] at hfind hip
        have hreached : (s1.abs sb).Reached ip := by
          rw [hip]
          exact .entry (hs2.during.reached dp List.mem_cons_self) (hnode ▸ hopen2.1) hfind
        have hs3 := hs2.get hr3 hreached
        have hopen3 : (s3.abs sb).OpenDir dp := by
          rw [hr3.abs]
          exact hopen2.get ip
        refine (h3.lock_logs ip).bind ?_
        rintro _ s4 h4 ⟨hlock, hadds4⟩
        have hopen4 : (s4.abs sb).OpenDir dp := by
          rw [hlock.1.abs]
          exact hopen3.load ip
        obtain ⟨hs4, halloc4, htype4, hmem4⟩ := hs3.lock h4 hlock
        have hadds4 : Budgeted sb s1 → Adds {sb.bmapstart} 1 s1 s4 := fun hb =>
          (hadds3 hb).then_same (hadds4.mono (Finset.empty_subset _) (Nat.le_refl 0))
        have hnode4 : (s4.abs sb).node ip = (s1.abs sb).node ip :=
          hs4.during.node_eq (h4.normal.alloc ip _ hmem4)
        refine .get_bind (.assert_bind ⟨by decide, by decide⟩ fun _ => ?_)
        rw [htype4]
        have hcheck : Does sb (if ((s1.abs sb).node ip).type = FileType.T_DIR then
            Xv6fs.is_dir_empty sb ip else pure true) s4 fun b s' =>
            (b = true ↔ (((s1.abs sb).node ip).type = FileType.T_DIR →
              emptyDir ((s1.abs sb).node ip).dir = true)) ∧
            Reads sb s4 s' (s4.abs sb) ∧ Adds ∅ 0 s4 s' := by
          refine .ite (fun hdir => ?_) fun hfile =>
            .pure h4 ⟨⟨fun _ hd => absurd hd hfile, fun _ => rfl⟩, ⟨rfl, rfl⟩, .refl _⟩
          refine (h4.is_dir_empty (htype4.trans hdir)).imp ?_
          rintro b s5 _ ⟨⟨hb, hr5⟩, hadds5⟩
          refine ⟨?_, hr5, hadds5⟩
          rw [hb, hnode4]
          exact ⟨fun he _ => he, fun he => he hdir⟩
        refine hcheck.bind ?_
        rintro b s5 h5 ⟨hb, hr5, hadds5⟩
        have hs5 := hs4.reads hr5
        have ho5 : s5.outstanding ≥ 1 := hs5.outstanding ▸ ho1
        have hadds5 : Budgeted sb s1 → Adds {sb.bmapstart} 1 s1 s5 := fun hb =>
          (hadds4 hb).then_same (hadds5.mono (Finset.empty_subset _) (Nat.le_refl 0))
        refine .ite (fun hyes => ?_) fun hno => ?_
        · have hrem : (s1.abs sb).Removable path dp i :=
            .of_lookup hr.symm hfind hdots (hip ▸ hb.mp hyes)
          have hdp5 : ((s5.abs sb).node dp) = (s1.abs sb).node dp := by
            rw [hr5.abs]
            exact hs4.during.node_eq (by rw [AbsFs.Alloc, hopen4.1]; decide)
          have hi : i < ((s5.abs sb).node dp).dir.length := by
            rw [hdp5]
            exact (findEntry_some hfind).1
          have href : ip = dp → 2 ≤ (s5.abs sb).ref dp := fun heq => by
            rw [hs5.during.ref, heq]
            simp
          rw [← hr5.abs] at hmem4 hopen4
          rw [hoff]
          refine (h5.unlink_remove hl ho5 hopen4 hi hmem4 href).imp ?_
          rintro r s6 _ ⟨⟨rfl, habs6⟩, hadds6⟩
          subst hip
          refine hbegun.transacts (.removed hrem hs5.during hopen4 hmem4) habs6 (K := insert
            (INODE_BLOCK sb dp) (own sb (entryInum ((s1.abs sb).node dp).dir i))) (n := 1 + 2)
            (fun hb => ((hadds5 hb).mono (sub_bmap sb dp _) (Nat.le_refl 1)).trans (hadds6 hb.1)) ?_
          have := Finset.card_insert_le (INODE_BLOCK sb dp)
            (own sb (entryInum ((s1.abs sb).node dp).dir i))
          have := card_own_le sb (entryInum ((s1.abs sb).node dp).dir i)
          omega
        · refine (h5.put_logs hl ho5 ip).bind ?_
          rintro _ s6 h6 ⟨⟨hput6, hb6⟩, hadds6⟩
          have hs6 := hs5.put_head h1 h5 hput6 hb6
          have ho6 : s6.outstanding ≥ 1 := hs6.outstanding ▸ ho1
          refine (h6.put_logs hl ho6 dp).bind ?_
          rintro _ s7 h7 ⟨⟨hput7, hb7⟩, hadds7⟩
          refine hfail h7 (hs6.put_head h1 h6 hput7 hb7).during ?_ (fun hb =>
            ((hadds5 hb).trans (hadds6 hb.1).other).trans (hadds7 hb.1).other) (by decide)
          intro dp' i' hrem
          obtain ⟨rfl, -, hfind'⟩ := hlast hrem
          cases hfind.symm.trans hfind'
          exact hno (hb.mpr (hip ▸ hrem.empty))

end Wf

end Xv6fs
