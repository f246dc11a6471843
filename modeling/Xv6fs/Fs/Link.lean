import Xv6fs.Fs.Unlink

/-! `do_link` on the abstract state, and that it keeps its transaction within the budget. -/

namespace Xv6fs

open Program (Runs runs_imp runs_bind_assoc)

variable {sb : SuperBlock} {s s' s1 s2 s3 : Fs} {a a' a0 : AbsFs} {x ip dp i : Nat}
  {source dest name : List UInt8}

namespace AbsFs

/-- The error path of `do_link`: the links go back to what they were, and are written back. -/
def rollBack (a : AbsFs) (ip : Nat) : AbsFs :=
  ((a.load ip).setLinks ip (a.links ip - 1)).put ip

@[simp] theorem rollBack_outstanding (a : AbsFs) (ip : Nat) :
    (a.rollBack ip).outstanding = a.outstanding := put_outstanding _ _

theorem links_load (a : AbsFs) (x : Nat) : (a.load x).links x = a.links x := by
  simp only [load, links, setAt_self, Option.getD_some]

end AbsFs

/-- `dirlink` leaves the transaction as it is. -/
theorem Linked.outstanding {inum : Nat} {b : Bool} (h : Linked sb a x name inum b a') :
    a'.outstanding = a.outstanding := by
  cases h with
  | exists_ _ => exact AbsFs.put_outstanding _ _
  | tried _ hstep => cases hstep <;> rfl

/-- What `do_link` does inside its transaction.  The new link count is in memory only. -/
inductive Links (sb : SuperBlock) (a0 : AbsFs) (source dest : List UInt8) : Int → AbsFs → Prop
  | refused {a : AbsFs} (h : During a0 a [])
      (hno : ∀ ip, resolve a0.node source = some ip → (a0.node ip).type = FileType.T_DIR) :
      Links sb a0 source dest (-1) a
  | no_parent {a a1 : AbsFs} {ip : Nat} (hip : resolve a0.node source = some ip)
      (h : During a0 a [ip]) (hmem : a.mem ip = some (a0.links ip))
      (hfile : (a0.node ip).type ≠ FileType.T_DIR)
      (hno : resolveParent a.node dest = none)
      (h1 : During (a.setMem ip (a0.links ip + 1)) a1 []) :
      Links sb a0 source dest (-1) (a1.rollBack ip)
  | tried {a a1 a2 : AbsFs} {ip dp : Nat} {name : List UInt8} {b : Bool}
      (hip : resolve a0.node source = some ip) (h : During a0 a [ip])
      (hmem : a.mem ip = some (a0.links ip)) (hfile : (a0.node ip).type ≠ FileType.T_DIR)
      (hparent : resolveParent a.node dest = some (dp, name))
      (h1 : During (a.setMem ip (a0.links ip + 1)) a1 [dp]) (hopen : a1.OpenDir dp)
      (hlinked : Linked sb a1 dp name ip b a2) :
      Links sb a0 source dest (if b then 0 else -1)
        (if b then (a2.put dp).put ip else (a2.put dp).rollBack ip)

namespace Wf

/-- The error path of `do_link`. -/
theorem link_roll_back (hl : Layout sb) (h : Wf sb s) (ho : s.outstanding ≥ 1) (ip : Nat) :
    Does sb (do_link.roll_back sb ip) s fun r s' =>
      (r = -1 ∧ s'.abs sb = ((s.abs sb).rollBack ip).end_op) ∧
        (sb.size ≤ BIT_PER_BLOCK → Adds (own sb ip) 0 s s') := by
  refine (h.lock_logs ip).bind ?_
  rintro _ s1 h1 ⟨⟨hr1, hv1, -⟩, hadds1⟩
  have ho1 : s1.outstanding ≥ 1 := by
    rw [hr1.outstanding]
    exact ho
  rw [Does, ← runs_bind_assoc]
  refine (h1.links_logs hl hv1 ho1 (fun dip => { dip with nlink := dip.nlink - 1 }) rfl rfl
    rfl).bind ?_
  rintro _ s2 h2 ⟨habs2, hadds2⟩
  have ho2 : s2.outstanding ≥ 1 := by
    rw [outstanding_of_abs habs2]
    exact ho1
  refine (h2.put_logs hl ho2 ip).bind ?_
  rintro _ s3 h3 ⟨⟨hput3, _⟩, hadds3⟩
  refine h3.end_logs.bind ?_
  rintro _ s4 h4 ⟨habs4, hadds4⟩
  refine .pure h4 ⟨⟨rfl, ?_⟩, fun hone => ?_⟩
  · rw [habs4, hput3, habs2, ← links_eq hv1, hr1.abs, AbsFs.links_load, AbsFs.rollBack]
  · have h1 := hadds1.mono (Finset.empty_subset (own sb ip)) (Nat.le_refl 0)
    exact ((h1.then_same hadds2).then_same (hadds3 hone)).then_same
      (hadds4.mono (Finset.empty_subset _) (Nat.le_refl 0))

/-- `dirlink` with what it logs. -/
theorem dirlink_logs (hl : Layout sb) (h : Wf sb s) (ho : s.outstanding ≥ 1) (x : Nat)
    (name : List UInt8) {inum : Nat} (hinum : inum < sb.ninodes) :
    Does sb (INode.dirlink sb x name inum) s fun r s' =>
      ((s.abs sb).OpenDir x ∧ Linked sb (s.abs sb) x name inum r (s'.abs sb)) ∧
        (sb.size ≤ BIT_PER_BLOCK → Adds (own sb x) 2 s s') :=
  (h.dirlink hl ho x name hinum).also (runs_imp fun hone => h.dirlink_adds hl hone x name inum)

theorem do_link (hl : Layout sb) (hroot : ROOTINO < sb.ninodes) (h : Wf sb s)
    (source dest : List UInt8) :
    Does sb (do_link sb source dest) s (Transacts sb (fun a => Links sb a source dest) s) := by
  refine h.begin_logs.bind fun _ s1 h1 hbegun => ?_
  have ho1 := hbegun.outstanding
  have hfail : ∀ {s2 : Fs} {n : Nat}, Wf sb s2 → During (s1.abs sb) (s2.abs sb) [] →
      (∀ ip, resolve (s1.abs sb).node source = some ip →
        ((s1.abs sb).node ip).type = FileType.T_DIR) →
      (Budgeted sb s1 → Adds {sb.bmapstart} n s1 s2) → n ≤ 9 →
      Does sb (do Fs.end_op; pure (-1)) s2
        (Transacts sb (fun a => Links sb a source dest) s) := by
    intro s2 n h2 hd hno hadds hn
    refine h2.end_logs.bind ?_
    rintro _ s3 h3 ⟨habs3, hadds3⟩
    refine .pure h3 (hbegun.transacts (.refused hd hno) habs3 (fun hb => (hadds hb).then_same
      (hadds3.mono (Finset.empty_subset _) (Nat.le_refl 0))) ?_)
    rw [Finset.card_singleton]
    omega
  refine (h1.start_name hl hroot ho1 source).bind ?_
  rintro r s2 h2 ⟨⟨hr, hs2, hlt⟩, hadds2⟩
  cases r with
  | none =>
    refine hfail h2 hs2.during (fun ip hip => ?_) hadds2 (by decide)
    cases hr.trans hip
  | some ip =>
    have hip := hlt ip rfl
    refine (h2.lock_logs ip).bind ?_
    rintro _ s3 h3 ⟨hlock, hadds3⟩
    obtain ⟨hs3, halloc3, htype3, hmem3⟩ := hs2.lock h3 hlock
    have hadds3 : Budgeted sb s1 → Adds {sb.bmapstart} 1 s1 s3 := fun hb =>
      (hadds2 hb).then_same (hadds3.mono (Finset.empty_subset _) (Nat.le_refl 0))
    refine .get_bind ?_
    refine .ite (fun hdir => ?_) fun hfile => ?_
    · have ho3 : s3.outstanding ≥ 1 := hs3.outstanding ▸ ho1
      refine (h3.put_logs hl ho3 ip).bind ?_
      rintro _ s4 h4 ⟨⟨hput4, hb4⟩, hadds4⟩
      refine hfail h4 (hs3.put_head h1 h3 hput4 hb4).during (fun ip' hip' => ?_)
        (fun hb => (hadds3 hb).trans (hadds4 hb.1).other) (by decide)
      cases hr.trans hip'
      rw [← htype3]
      exact hdir
    · have hv3 := hlock.2.1
      have hmodify : Does sb (modify_dinode ip fun dip => { dip with nlink := dip.nlink + 1 }) s3
          fun _ s' => Reads sb s3 s' ((s3.abs sb).setMem ip (((s1.abs sb).links ip) + 1)) := by
        have hlinks : (s3.inodes ip).dinode.nlink = (s1.abs sb).links ip :=
          Option.some.inj ((abs_mem_valid sb hv3).symm.trans hmem3)
        rw [← hlinks]
        exact h3.modify_links hv3 hfile _
      refine (hmodify.also ((Costs.modify_inode (K := ∅) (n := 0) ip _) s3)).bind ?_
      rintro _ s4 h4 ⟨hr4, hadds4⟩
      refine (h4.unlock_logs ip).bind ?_
      rintro _ s5 h5 ⟨hr5, hadds5⟩
      refine (h5.unlock_logs ip).bind ?_
      rintro _ s6 h6 ⟨hr6, hadds6⟩
      have habs6 : s6.abs sb = (s3.abs sb).setMem ip ((s1.abs sb).links ip + 1) := by
        rw [hr6.abs, hr5.abs, hr4.abs]
      have hadds6 : Budgeted sb s1 → Adds {sb.bmapstart} 1 s1 s6 := fun hb =>
        (hadds3 hb).then_same (((hadds4.then_same hadds5).then_same hadds6).mono
          (Finset.empty_subset _) (Nat.le_refl 0))
      have hb6 : Budgeted sb s1 → Budgeted sb s6 := fun hb =>
        ⟨hb.1, (hb.2.during hs3.during).of_node (by rw [habs6]; rfl)⟩
      have ho6 : s6.outstanding ≥ 1 := by
        rw [outstanding_of_abs habs6]
        show s3.outstanding ≥ 1
        rw [hs3.outstanding]
        exact ho1
      rw [htype3] at hfile
      have hcard := card_own_le sb ip
      refine (h6.start_parent hl hroot ho6 dest).bind ?_
      rintro r' s7 h7 ⟨⟨hr', hs7, hopen7⟩, hadds7⟩
      have hadds7 : Budgeted sb s1 → Adds {sb.bmapstart} 2 s1 s7 := fun hb =>
        (hadds6 hb).trans (hadds7 (hb6 hb))
      have ho7 : s7.outstanding ≥ 1 := hs7.outstanding ▸ ho6
      have hduring7 := hs7.during
      rw [habs6] at hduring7 hr'
      cases r' with
      | none =>
        refine (h7.link_roll_back hl ho7 ip).imp ?_
        rintro r s8 _ ⟨⟨rfl, habs8⟩, hadds8⟩
        exact hbegun.transacts (.no_parent hr.symm hs3.during hmem3 hfile hr'.symm hduring7) habs8
          (fun hb => ((hadds7 hb).mono (by simp) (Nat.le_refl 2)).then_same (hadds8 hb.1)) (by omega)
      | some p =>
        obtain ⟨dp, name⟩ := p
        obtain ⟨hdp, hopen7⟩ := hopen7 _ rfl
        refine (h7.lock_logs dp).bind ?_
        rintro _ s8 h8 ⟨hlock8, hadds8⟩
        have hopen8 : (s8.abs sb).OpenDir dp := by
          rw [hlock8.1.abs]
          exact AbsFs.OpenDir.load hopen7 dp
        have hs8 := (hs7.lock h8 hlock8).1
        have ho8 : s8.outstanding ≥ 1 := hs8.outstanding ▸ ho6
        have hduring8 := hs8.during
        rw [habs6] at hduring8
        refine (h8.dirlink_logs hl ho8 dp name hip).bind ?_
        rintro b s9 h9 ⟨⟨-, hlinked⟩, hadds9⟩
        have ho9 : s9.outstanding ≥ 1 := by
          rw [show s9.outstanding = s8.outstanding from hlinked.outstanding]
          exact ho8
        refine (h9.put_logs hl ho9 dp).bind ?_
        rintro _ s10 h10 ⟨⟨hput10, _⟩, hadds10⟩
        have ho10 : s10.outstanding ≥ 1 := by
          rw [outstanding_of_abs hput10, AbsFs.put_outstanding]
          exact ho9
        have hlinks := Links.tried hr.symm hs3.during hmem3 hfile hr'.symm hduring8 hopen8 hlinked
        have hadds10 : Budgeted sb s1 → Adds (insert (INODE_BLOCK sb dp) (own sb ip)) 4 s1 s10 :=
          fun hb => by
            have h7 := (hadds7 hb).mono (sub_bmap sb dp ip) (Nat.le_refl 2)
            have h8 := h7.then_same (hadds8.mono (Finset.empty_subset _) (Nat.le_refl 0))
            have h9 := h8.trans ((hadds9 hb.1).mono (sub_own sb dp ip) (Nat.le_refl 2))
            exact h9.then_same ((hadds10 hb.1).mono (sub_own sb dp ip) (Nat.le_refl 0))
        have hcard' := Finset.card_insert_le (INODE_BLOCK sb dp) (own sb ip)
        have hsub := Finset.subset_insert (INODE_BLOCK sb dp) (own sb ip)
        cases b with
        | true =>
          refine ((h10.inode_put hl ho10 ip).also (runs_imp fun hone : sb.size ≤ BIT_PER_BLOCK =>
            (h10.inode_put_adds hl hone ip).imp fun _ _ hs => hs.1)).bind ?_
          rintro _ s11 h11 ⟨⟨hput11, _⟩, hadds11⟩
          refine h11.end_logs.bind ?_
          rintro _ s12 h12 ⟨habs12, hadds12⟩
          refine .pure h12 (hbegun.transacts hlinks (by rw [habs12, hput11, hput10]; rfl)
            (fun hb => ((hadds10 hb).then_same ((hadds11 hb.1).mono hsub (Nat.le_refl 0))).then_same
              (hadds12.mono (Finset.empty_subset _) (Nat.le_refl 0))) (by omega))
        | false =>
          refine (h10.link_roll_back hl ho10 ip).imp ?_
          rintro r s11 _ ⟨⟨rfl, habs11⟩, hadds11⟩
          rw [hput10] at habs11
          exact hbegun.transacts hlinks habs11
            (fun hb => (hadds10 hb).then_same ((hadds11 hb.1).mono hsub (Nat.le_refl 0))) (by omega)

end Wf

end Xv6fs
