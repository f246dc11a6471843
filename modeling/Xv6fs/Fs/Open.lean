import Xv6fs.Fs.Create

/-! `op_open`, `op_create` and `op_mkdir` on the abstract state, and that each keeps its transaction
within the budget. -/

namespace Xv6fs

open Program (Runs runs_bind runs_pure runs_get runs_modify runs_assert runs_throw runs_ite runs_imp)

variable {sb : SuperBlock} {s s' s1 s2 s3 : Fs} {x i : Nat} {a a' : AbsFs}
  {α : Type}

/-! ### Transactions -/

namespace AbsFs

/-- A transaction begins. -/
def begin_op (a : AbsFs) : AbsFs := { a with outstanding := a.outstanding + 1 }

/-- A transaction ends. -/
def end_op (a : AbsFs) : AbsFs := { a with outstanding := a.outstanding - 1 }

end AbsFs

/-- The trace keeps within the budget if it has so far and each directory has links. -/
def Within (sb : SuperBlock) (s s' : Fs) : Prop :=
  Budgeted sb s → FitsBudget s.trace → FitsBudget s'.trace

namespace Within

theorem refl (sb : SuperBlock) (s : Fs) : Within sb s s := fun _ => id

/-- A step that logs nothing. -/
theorem quiet (h : Adds ∅ 0 s s') : Within sb s s' := by
  intro _ hfits
  obtain ⟨events, others, ht, hbegin, hcard, hlog⟩ := h
  have hnone : others = ∅ := Finset.card_eq_zero.mp (Nat.le_zero.mp hcard)
  subst hnone
  rw [ht]
  clear ht
  induction events with
  | nil => exact hfits
  | cons e events ih =>
    have hbegin' : .begin_op ∉ events := fun hin => hbegin (List.mem_cons_of_mem _ hin)
    have hrest := ih hbegin' fun b hb => hlog b (List.mem_cons_of_mem _ hb)
    refine ⟨?_, hrest⟩
    have hsame : logged (e :: events ++ s.trace) = logged (events ++ s.trace) := by
      cases e with
      | begin_op => exact absurd List.mem_cons_self hbegin
      | log_write b =>
        have := hlog b List.mem_cons_self
        simp at this
      | _ => rfl
    exact hsame ▸ hrest.card_le

end Within

/-- The state after the `begin_op` of a transaction. -/
structure Begun (sb : SuperBlock) (s s' : Fs) : Prop where
  abs : s'.abs sb = (s.abs sb).begin_op
  trace : s'.trace = .begin_op :: s.trace

namespace Begun

theorem outstanding (h : Begun sb s s1) : s1.outstanding ≥ 1 := by
  rw [outstanding_of_abs h.abs]
  exact Nat.le_add_left 1 _

theorem budgeted (h : Begun sb s s1) (hb : Budgeted sb s) : Budgeted sb s1 :=
  ⟨hb.1, hb.2.of_node (by rw [h.abs]; rfl)⟩

/-- The transaction fits when it logs few blocks. -/
theorem within (h : Begun sb s s1) {K : Finset Nat} {n : Nat}
    (hadds : Budgeted sb s1 → Adds K n s1 s') (hn : K.card + n ≤ 10) :
    Within sb s s' := by
  intro hb hfits
  refine (hadds (h.budgeted hb)).fits ?_ ?_ hn
  · rw [h.trace]
    rfl
  · rw [h.trace]
    exact ⟨Nat.zero_le _, hfits⟩

end Begun

theorem card_own_le (sb : SuperBlock) (x : Nat) : (own sb x).card ≤ 2 := Finset.card_le_two

namespace Wf

theorem begin_logs (h : Wf sb s) : Does sb Fs.begin_op s fun _ s' => Begun sb s s' := by
  have htrace : Runs Fs.begin_op s (fun _ s' => s'.trace = .begin_op :: s.trace) fun _ => True := by
    simp only [Fs.begin_op, Xv6fs.record, runs_bind, runs_get, runs_assert, runs_modify]
    exact ⟨fun _ => trivial, fun _ => trivial⟩
  refine (h.begin_op.also htrace).imp ?_
  rintro _ _ _ ⟨hr, ht⟩
  exact ⟨hr.abs, ht⟩

theorem end_logs (h : Wf sb s) :
    Does sb Fs.end_op s fun _ s' => s'.abs sb = (s.abs sb).end_op ∧ Adds ∅ 0 s s' := by
  have hadds : Costs Fs.end_op ∅ 0 :=
    (Costs.record (by simp) (by simp)).bind_free fun _ => .modify fun _ => rfl
  refine (h.end_op.also (hadds s)).imp ?_
  rintro _ _ _ ⟨hr, ha⟩
  exact ⟨hr.abs, ha⟩

end Wf

/-! ### The file table -/

namespace AbsFs

/-- A change of entry `i` of the file table. -/
def setFileEntry (a : AbsFs) (i : Nat) (f : OFile) : AbsFs := { a with files := setAt a.files i f }

/-- Regular file `x` loses its content when `flags` ask for that. -/
def truncated (a : AbsFs) (x flags : Nat) : AbsFs :=
  if has flags O_TRUNC ∧ (a.node x).type = FileType.T_FILE then
    (a.setLinks x (a.links x)).setFile x 0 (fun _ => 0) fun _ => 0
  else a

end AbsFs

namespace AbsFs

@[simp] theorem setFileEntry_setFileEntry (a : AbsFs) (i : Nat) (f g : OFile) :
    (a.setFileEntry i f).setFileEntry i g = a.setFileEntry i g :=
  AbsFs.ext rfl rfl rfl setAt_setAt rfl

theorem truncated_setFileEntry (a : AbsFs) (i x flags : Nat) (f : OFile) :
    (a.setFileEntry i f).truncated x flags = (a.truncated x flags).setFileEntry i f := by
  unfold truncated
  split <;> split <;> first | rfl | contradiction

theorem put_setFileEntry (a : AbsFs) (i x : Nat) (f : OFile) :
    (a.setFileEntry i f).put x = (a.put x).setFileEntry i f := by
  unfold put
  split <;> split <;> first | rfl | contradiction

end AbsFs

/-- An entry of the file table for inode `ip`. -/
structure OFile.Points (f : OFile) (ip : Nat) : Prop where
  type : f.type ≠ .FD_NONE
  ip : f.ip = ip

/-- All entries of the file table are open. -/
def AbsFs.TableFull (a : AbsFs) : Prop := ∀ i < NFILE, (a.files i).type ≠ .FD_NONE

/-- What `do_open` does with the inode that it has found. -/
inductive Entry (a : AbsFs) (ip flags : Nat) : Option Nat → AbsFs → Prop
  | full (hfull : a.TableFull) : Entry a ip flags none (a.put ip)
  | opened {i : Nat} {f : OFile} (hi : i < NFILE) (hfree : (a.files i).type = .FD_NONE)
      (hf : f.Points ip) (href : f.ref = 1) (hread : f.readable = !has flags O_WRONLY)
      (hkind : (a.node ip).type ≠ FileType.T_DEVICE → f.type = .FD_INODE) :
      Entry a ip flags (some i) ((a.truncated ip flags).setFileEntry i f)

namespace Wf

theorem modify_file (h : Wf sb s) (i : Nat) (f : OFile → OFile) :
    Does sb (modify_file i f) s fun _ s' =>
      s'.abs sb = (s.abs sb).setFileEntry i (f (s.files i)) ∧ s'.inodes = s.inodes ∧
        Adds ∅ 0 s s' :=
  ⟨h.congr rfl rfl, rfl, rfl, Adds.of_trace rfl⟩

/-- The end of `do_open`: the inode is truncated when the flags ask for that, and unlocked. -/
theorem open_tail (hl : Layout sb) (h : Wf sb s) (ho : s.outstanding ≥ 1) (flags : Nat) (r : α)
    (hv : (s.inodes ip).valid = true) :
    Does sb (if has flags O_TRUNC ∧ (s.inodes ip).dinode.type = FileType.T_FILE then do
        INode.trunc sb ip
        INode.unlock ip
        Fs.end_op
        pure r
      else do
        INode.unlock ip
        Fs.end_op
        pure r) s fun r' s' => r' = r ∧ s'.abs sb = ((s.abs sb).truncated ip flags).end_op ∧
          (sb.size ≤ BIT_PER_BLOCK → Adds (own sb ip) 0 s s') := by
  have hend : ∀ {s1 : Fs} {a1 : AbsFs}, Wf sb s1 → s1.abs sb = a1 →
      Does sb (do INode.unlock ip; Fs.end_op; pure r) s1 fun r' s' => r' = r ∧
        s'.abs sb = a1.end_op ∧ Adds ∅ 0 s1 s' := by
    rintro s1 a1 h1 rfl
    refine (h1.unlock_logs ip).bind ?_
    rintro _ s2 h2 ⟨hr2, hadds2⟩
    refine h2.end_logs.bind ?_
    rintro _ s3 h3 ⟨habs3, hadds3⟩
    refine .pure h3 ⟨rfl, ?_, hadds2.then_same hadds3⟩
    rw [habs3, hr2.abs]
  have htype := h.type_eq hv
  rw [htype, AbsFs.truncated]
  refine .ite (fun ht => ?_) fun ht => ?_
  · rw [if_pos ht]
    have hfile : (s.inodes ip).dinode.type ≠ FileType.T_DIR := by
      rw [htype, ht.2]
      decide
    refine ((h.trunc_file hl ho hv hfile).also (runs_imp fun hone : sb.size ≤ BIT_PER_BLOCK =>
      trunc_adds (h.low hl hone hv))).bind ?_
    rintro _ s1 h1 ⟨habs1, hadds1⟩
    refine (hend h1 habs1).imp ?_
    rintro _ s2 _ ⟨hr, habs2, hadds2⟩
    exact ⟨hr, habs2, fun hone =>
      (hadds1 hone).then_same (hadds2.mono (Finset.empty_subset _) (Nat.le_refl 0))⟩
  · rw [if_neg ht]
    refine (hend h rfl).imp ?_
    rintro _ s2 _ ⟨hr, habs2, hadds2⟩
    exact ⟨hr, habs2, fun _ =>
      hadds2.mono (Finset.empty_subset _) (Nat.le_refl 0)⟩

/-- `ofile_alloc` takes an entry that is not open. -/
theorem ofile_alloc (h : Wf sb s) :
    Does sb ofile_alloc s fun r s' => match r with
      | none => s' = s ∧ (s.abs sb).TableFull
      | some i => i < NFILE ∧ (s.files i).type = .FD_NONE ∧
          s'.abs sb = (s.abs sb).setFileEntry i { s.files i with ref := 1 } ∧
          s'.inodes = s.inodes ∧ Adds ∅ 0 s s' := by
  refine .get_bind ?_
  split
  · next hfull =>
    exact .pure h ⟨rfl, fun i hi => free_file_none hfull i (Nat.zero_le _) (by omega)⟩
  · next i hfree =>
    obtain ⟨htype, hlt⟩ := free_file_some hfree
    refine (h.modify_file i _).bind ?_
    rintro _ s1 h1 ⟨habs, hinodes, hadds⟩
    exact .pure h1 ⟨by omega, htype, habs, hinodes, hadds⟩

theorem open_inode (hl : Layout sb) (h : Wf sb s) (ho : s.outstanding ≥ 1) {ip : Nat} (flags : Nat)
    (hv : (s.inodes ip).valid = true) :
    Does sb (open_inode sb ip flags) s fun r s' =>
      (∃ a', Entry (s.abs sb) ip flags r a' ∧ s'.abs sb = a'.end_op) ∧
        (sb.size ≤ BIT_PER_BLOCK → Adds (own sb ip) 0 s s') := by
  refine h.ofile_alloc.bind fun r s1 h1 hr => ?_
  cases r with
  | none =>
    obtain ⟨rfl, hfull⟩ := hr
    refine (h1.put_logs hl ho ip).bind ?_
    rintro _ s2 h2 ⟨⟨hput, _⟩, hadds2⟩
    refine h2.end_logs.bind ?_
    rintro _ s3 h3 ⟨habs3, hadds3⟩
    refine .pure h3 ⟨⟨_, .full hfull, ?_⟩, fun hone => ?_⟩
    · rw [habs3, hput]
    · exact (hadds2 hone).then_same (hadds3.mono (Finset.empty_subset _) (Nat.le_refl 0))
  | some i =>
    obtain ⟨hi, hfree, habs1, hinodes1, hadds1⟩ := hr
    have ho1 : s1.outstanding ≥ 1 := (outstanding_of_abs habs1).symm ▸ ho
    have hrest : ∀ (f : OFile → OFile), (f (s1.files i)).Points ip → (f (s1.files i)).ref = 1 →
        (f (s1.files i)).readable = (!has flags O_WRONLY) →
        (((s.abs sb).node ip).type ≠ FileType.T_DEVICE → (f (s1.files i)).type = .FD_INODE) →
        Does sb (do
          Xv6fs.modify_file i f
          if has flags O_TRUNC ∧ (s1.inodes ip).dinode.type = FileType.T_FILE then do
            INode.trunc sb ip
            INode.unlock ip
            Fs.end_op
            pure (some i)
          else do
            INode.unlock ip
            Fs.end_op
            pure (some i)) s1 fun r s' =>
          (∃ a', Entry (s.abs sb) ip flags r a' ∧ s'.abs sb = a'.end_op) ∧
            (sb.size ≤ BIT_PER_BLOCK → Adds (own sb ip) 0 s s') := by
      intro f hf href hread hkind
      refine (h1.modify_file i f).bind ?_
      rintro _ s2 h2 ⟨habs2, hinodes2, hadds2⟩
      have ho2 : s2.outstanding ≥ 1 := (outstanding_of_abs habs2).symm ▸ ho1
      have htail := h2.open_tail hl ho2 flags (some i)
        (by rw [hinodes2, hinodes1]; exact hv)
      rw [hinodes2] at htail
      refine htail.imp ?_
      rintro r s3 _ ⟨hr, habs3, hadds3⟩
      subst hr
      have habs2 : s2.abs sb = (s.abs sb).setFileEntry i (f (s1.files i)) := by
        rw [habs2, habs1, AbsFs.setFileEntry_setFileEntry]
      refine ⟨⟨_, .opened hi hfree hf href hread hkind, ?_⟩, fun hone => ?_⟩
      · rw [habs3, habs2, AbsFs.truncated_setFileEntry]
      · exact ((hadds1.then_same hadds2).mono (Finset.empty_subset _) (Nat.le_refl 0)).then_same
          (hadds3 hone)
    have hone : (s1.files i).ref = 1 := by
      have := congrFun (congrArg AbsFs.files habs1) i
      rw [show s1.files i = _ from this]
      exact congrArg OFile.ref setAt_self
    have htype := h.type_eq hv
    refine .get_bind (.ite (fun hdev => ?_) fun _ => ?_)
    · refine hrest _ ⟨by simp, rfl⟩ hone rfl fun hne => absurd ?_ hne
      rwa [hinodes1, htype] at hdev
    · exact hrest _ ⟨by simp, rfl⟩ hone rfl fun _ => rfl

end Wf

/-! ### Opening -/

/-- What is done inside a transaction that opens a file which it creates when there is none. -/
inductive OpensNew (sb : SuperBlock) (a0 : AbsFs) (path : List UInt8) (flags : Nat) :
    Option Nat → AbsFs → Prop
  | refused {a : AbsFs} (h : Created sb a0 path FileType.T_FILE none a) :
      OpensNew sb a0 path flags none a
  | created {a a' : AbsFs} {ip : Nat} {r : Option Nat}
      (h : Created sb a0 path FileType.T_FILE (some ip) a) (hentry : Entry a ip flags r a') :
      OpensNew sb a0 path flags r a'

/-- What is done inside a transaction that opens an inode which is there. -/
inductive OpensOld (a0 : AbsFs) (path : List UInt8) (flags : Nat) : Option Nat → AbsFs → Prop
  | missing {a : AbsFs} (h : During a0 a [])
      (hwhy : ∀ ip, resolve a0.node path = some ip → (a0.node ip).type = FileType.T_DIR) :
      OpensOld a0 path flags none a
  | found {a a' : AbsFs} {ip : Nat} {r : Option Nat} (hip : resolve a0.node path = some ip)
      (h : During a0 a [ip]) (halloc : a.Alloc ip) (hmem : a.mem ip = some (a0.links ip))
      (hentry : Entry a ip flags r a') : OpensOld a0 path flags r a'

/-- What `do_open` does inside its transaction. -/
def Opens (sb : SuperBlock) (a0 : AbsFs) (path : List UInt8) (flags : Nat) :
    Option Nat → AbsFs → Prop :=
  if has flags O_CREAT then OpensNew sb a0 path flags else OpensOld a0 path flags

/-- The result of an operation of one transaction: what it does inside is `Q`. -/
def Transacts (sb : SuperBlock) {α : Type} (Q : AbsFs → α → AbsFs → Prop) (s : Fs) (r : α) (s' : Fs) :
    Prop :=
  (∃ a', Q (s.abs sb).begin_op r a' ∧ s'.abs sb = a'.end_op) ∧ Within sb s s'

/-- The end of an operation of one transaction. -/
theorem Begun.transacts {Q : AbsFs → α → AbsFs → Prop} {r : α} (h : Begun sb s s1)
    (hQ : Q (s1.abs sb) r a') (habs : s'.abs sb = a'.end_op) {K : Finset Nat} {n : Nat}
    (hadds : Budgeted sb s1 → Adds K n s1 s') (hn : K.card + n ≤ 10) : Transacts sb Q s r s' :=
  ⟨⟨a', h.abs ▸ hQ, habs⟩, h.within hadds hn⟩

namespace Wf

variable (hl : Layout sb) (hroot : ROOTINO < sb.ninodes) (h : Wf sb s)
include hl hroot h

theorem do_open (path : List UInt8) (flags : Nat) :
    Does sb (do_open sb path flags) s (Transacts sb (fun a => Opens sb a path flags) s) := by
  refine h.begin_logs.bind fun _ s1 h1 hbegun => ?_
  have ho1 := hbegun.outstanding
  have hfail : ∀ {s2 : Fs} {K : Finset Nat} {n : Nat}, Wf sb s2 →
      Opens sb (s1.abs sb) path flags none (s2.abs sb) →
      (Budgeted sb s1 → Adds K n s1 s2) → K.card + n ≤ 10 →
      Does sb (do Fs.end_op; pure none) s2 (Transacts sb (fun a => Opens sb a path flags) s) := by
    intro s2 K n h2 hopened hadds hn
    refine h2.end_logs.bind ?_
    rintro _ s3 h3 ⟨habs3, hadds3⟩
    refine .pure h3 ?_
    exact hbegun.transacts hopened habs3 (fun hb => (hadds hb).then_same
      (hadds3.mono (Finset.empty_subset _) (Nat.le_refl 0))) hn
  have hopen : ∀ {s2 : Fs} {ip n : Nat}, Wf sb s2 → s2.outstanding ≥ 1 →
      (s2.inodes ip).valid = true →
      (∀ r a', Entry (s2.abs sb) ip flags r a' → Opens sb (s1.abs sb) path flags r a') →
      (Budgeted sb s1 → Adds (own sb ip) n s1 s2) → n ≤ 8 →
      Does sb (Xv6fs.open_inode sb ip flags) s2 (Transacts sb (fun a => Opens sb a path flags) s) := by
    intro s2 ip n h2 ho2 hv hopened hadds hn
    refine (h2.open_inode hl ho2 flags hv).imp ?_
    rintro r s3 _ ⟨⟨a', hentry, habs3⟩, hadds3⟩
    have := card_own_le sb ip
    exact hbegun.transacts (hopened _ _ hentry) habs3
      (fun hb => (hadds hb).then_same (hadds3 hb.1)) (by omega)
  have hnew : has flags O_CREAT = true → ∀ r a', OpensNew sb (s1.abs sb) path flags r a' →
      Opens sb (s1.abs sb) path flags r a' := fun hc r a' h => by rwa [Opens, if_pos hc]
  have hold : ¬has flags O_CREAT = true → ∀ r a', OpensOld (s1.abs sb) path flags r a' →
      Opens sb (s1.abs sb) path flags r a' := fun hc r a' h => by rwa [Opens, if_neg hc]
  refine .ite (fun hcreat => ?_) fun hcreat => ?_
  · refine (h1.create hl hroot ho1 path 0 0 (by decide)).bind ?_
    rintro r s2 h2 ⟨hcreated, hadds2⟩
    cases r with
    | none => exact hfail h2 (hnew hcreat _ _ (.refused hcreated)) hadds2 (by simp)
    | some ip =>
      obtain ⟨n, hmem⟩ := hcreated.mem
      have ho2 : s2.outstanding ≥ 1 := by
        rw [show s2.outstanding = s1.outstanding from hcreated.frame.2]
        exact ho1
      exact hopen h2 ho2 (valid_of_mem hmem).1 (fun _ _ he => hnew hcreat _ _ (.created hcreated he))
        hadds2 (Nat.le_refl 8)
  · refine (h1.start_name hl hroot ho1 path).bind ?_
    rintro r s2 h2 ⟨⟨hr, hs2, _⟩, hadds2⟩
    cases r with
    | none => exact hfail h2 (hold hcreat _ _ (.missing hs2.during fun ip hip =>
        nomatch hr.trans hip)) hadds2 (by simp)
    | some ip =>
      refine (h2.lock_logs ip).bind ?_
      rintro _ s3 h3 ⟨hlock, hadds3⟩
      obtain ⟨hs3, -, -, hmem⟩ := hs2.lock h3 hlock
      have halloc := h3.normal.alloc ip _ hmem
      have ho3 : s3.outstanding ≥ 1 := hs3.outstanding ▸ ho1
      have hadds3 : Budgeted sb s1 → Adds {sb.bmapstart} 1 s1 s3 := fun hb =>
        (hadds2 hb).then_same (hadds3.mono (Finset.empty_subset _) (Nat.le_refl 0))
      refine .get_bind (.ite (fun hdir => ?_) fun _ => ?_)
      · refine (h3.put_logs hl ho3 ip).bind ?_
        rintro _ s4 h4 ⟨⟨hput, hb⟩, hadds4⟩
        have hwhy : ∀ ip, resolve (s1.abs sb).node path = some ip →
            ((s1.abs sb).node ip).type = FileType.T_DIR := by
          intro ip' hip'
          cases hr.trans hip'
          rw [← hs3.during.node_eq halloc]
          exact (h3.dir_valid hdir.1).2
        exact hfail h4 (hold hcreat _ _ (.missing (hs3.put_head h1 h3 hput hb).during hwhy))
          (fun hb => (hadds3 hb).trans (hadds4 hb.1).other) (by simp)
      · exact hopen h3 ho3 hlock.2.1 (fun _ _ he => hold hcreat _ _
          (.found hr.symm hs3.during halloc hmem he)) (fun hb => (hadds3 hb).mono (by simp) (Nat.le_refl 1)) (by omega)

/-- `op_open` is `do_open`. -/
theorem op_open (path : List UInt8) (flags : Nat) :
    Does sb (op_open sb path flags) s fun r s' =>
      Transacts sb (fun a => Opens sb a path flags) s r.2 s' := by
  refine (h.do_open hl hroot path flags).bind fun r s1 h1 hr => ?_
  cases r with
  | none => exact .pure h1 hr
  | some i => exact .pure h1 hr

/-- `op_create` is as `do_open` of a file that is created. -/
theorem op_create (path : List UInt8) (flags : Nat) :
    Does sb (op_create sb path flags) s fun r s' =>
      Transacts sb (fun a => OpensNew sb a path flags) s r.2 s' := by
  refine h.begin_logs.bind fun _ s1 h1 hbegun => ?_
  have ho1 := hbegun.outstanding
  refine (h1.create hl hroot ho1 path 0 0 (by decide)).bind ?_
  rintro r s2 h2 ⟨hcreated, hadds2⟩
  have ho2 : s2.outstanding ≥ 1 := by
    rw [show s2.outstanding = s1.outstanding from hcreated.frame.2]
    exact ho1
  cases r with
  | none =>
    refine h2.end_logs.bind ?_
    rintro _ s3 h3 ⟨habs3, hadds3⟩
    refine .pure h3 ?_
    exact hbegun.transacts (.refused hcreated) habs3 (fun hb => (hadds2 hb).then_same
      (hadds3.mono (Finset.empty_subset _) (Nat.le_refl 0))) (by simp)
  | some ip =>
    obtain ⟨n, hmem⟩ := hcreated.mem
    have hv2 := (valid_of_mem hmem).1
    have hcard := card_own_le sb ip
    refine h2.ofile_alloc.bind fun r s3 h3 hr => ?_
    cases r with
    | none =>
      obtain ⟨rfl, hfull⟩ := hr
      refine (h3.put_logs hl ho2 ip).bind ?_
      rintro _ s4 h4 ⟨⟨hput, _⟩, hadds4⟩
      refine h4.end_logs.bind ?_
      rintro _ s5 h5 ⟨habs5, hadds5⟩
      refine .pure h5 ?_
      refine hbegun.transacts (.created hcreated (.full hfull)) (by rw [habs5, hput]) (fun hb =>
        ((hadds2 hb).then_same (hadds4 hb.1)).then_same
          (hadds5.mono (Finset.empty_subset _) (Nat.le_refl 0))) (by dsimp only [Option.elim]; omega)
    | some i =>
      obtain ⟨hi, hfree, habs3, hinodes3, hadds3⟩ := hr
      refine (h3.modify_file i _).bind ?_
      rintro _ s4 h4 ⟨habs4, hinodes4, hadds4⟩
      refine .get_bind ?_
      have ho4 : s4.outstanding ≥ 1 := by
        rw [outstanding_of_abs habs4]
        show s3.outstanding ≥ 1
        rw [outstanding_of_abs habs3]
        exact ho2
      refine (h4.open_tail hl ho4 _ _ (by rw [hinodes4, hinodes3]; exact hv2)).imp ?_
      rintro r s5 _ ⟨hr, habs5, hadds5⟩
      subst hr
      rw [habs4, habs3, AbsFs.setFileEntry_setFileEntry, AbsFs.truncated_setFileEntry] at habs5
      have href : (s3.files i).ref = 1 := by
        have := congrFun (congrArg AbsFs.files habs3) i
        rw [show s3.files i = _ from this]
        exact congrArg OFile.ref setAt_self
      refine hbegun.transacts ?_ habs5 (fun hb => ((hadds2 hb).then_same ?_).then_same (hadds5 hb.1))
        (by dsimp only [Option.elim]; omega)
      · exact .created hcreated (.opened hi hfree ⟨by simp, rfl⟩ href rfl fun _ => rfl)
      · exact (hadds3.then_same hadds4).mono (Finset.empty_subset _) (Nat.le_refl 0)

/-- `op_mkdir` drops the inode that `create` has made. -/
theorem op_mkdir (path : List UInt8) :
    Does sb (op_mkdir sb path) s (Transacts sb (fun a0 (_ : Int) a' => ∃ ip a,
      Created sb a0 path FileType.T_DIR (some ip) a ∧ a' = a.put ip) s) := by
  refine h.begin_logs.bind fun _ s1 h1 hbegun => ?_
  have ho1 := hbegun.outstanding
  refine (h1.create hl hroot ho1 path 0 0 (by decide)).bind ?_
  rintro r s2 h2 ⟨hcreated, hadds2⟩
  have ho2 : s2.outstanding ≥ 1 := by
    rw [show s2.outstanding = s1.outstanding from hcreated.frame.2]
    exact ho1
  cases r with
  | none => exact .throw ⟨by decide, by decide⟩
  | some ip =>
    have hcard := card_own_le sb ip
    refine (h2.put_logs hl ho2 ip).bind ?_
    rintro _ s3 h3 ⟨⟨hput, _⟩, hadds3⟩
    refine h3.end_logs.bind ?_
    rintro _ s4 h4 ⟨habs4, hadds4⟩
    refine .pure h4 ?_
    exact hbegun.transacts ⟨ip, _, hcreated, hput⟩ habs4 (fun hb =>
      ((hadds2 hb).then_same (hadds3 hb.1)).then_same
        (hadds4.mono (Finset.empty_subset _) (Nat.le_refl 0))) (by dsimp only [Option.elim]; omega)

end Wf

end Xv6fs
