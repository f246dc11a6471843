import Xv6fs.Fs.Ledger

/-! The operations followed through the ledger: which references, handles and locks each of them
takes and gives back. -/

namespace Xv6fs

open Program (Follows)

variable {sb : SuperBlock} {w : Ledger} {x i : Nat}

namespace Books

/-! ### The file table -/

/-- A change of entry `i` of the file table. -/
theorem modify_file (f : OFile → OFile) (ip : Option Nat) (count : Nat)
    (hip : ∀ s : Fs, s.ledger = w → (f (s.files i)).handle = ip)
    (hcount : ∀ s : Fs, s.ledger = w → (f (s.files i)).ref = count) :
    Books (Xv6fs.modify_file i f) w fun _ w' => w' = w.setEntry i ip count := by
  intro s hs
  have h1 := hip s hs
  have h2 := hcount s hs
  subst hs
  refine Ledger.ext rfl (funext fun j => ?_) (funext fun j => ?_) rfl
  · simp only [Fs.ledger, Ledger.setEntry, setAt_apply]
    split
    · exact h1
    · rfl
  · simp only [Fs.ledger, Ledger.setEntry, setAt_apply]
    split
    · exact h2
    · rfl

/-- A change of what the ledger does not mention. -/
theorem modify_file_same (f : OFile → OFile) (hip : ∀ g, (f g).handle = g.handle)
    (hcount : ∀ g, (f g).ref = g.ref) : Leaves (Xv6fs.modify_file i f) w := by
  refine (modify_file f (w.handles i) (w.counts i) ?_ ?_).imp fun _ w' hw => ?_
  · rintro s rfl
    exact hip _
  · rintro s rfl
    exact hcount _
  · rw [hw]
    exact Ledger.ext rfl (setAt_same _) (setAt_same _) rfl

theorem ofile_alloc : Books Xv6fs.ofile_alloc w fun r w' =>
    match r with
    | none => w' = w
    | some i => (i < NFILE ∧ w.handles i = none) ∧ w' = w.setEntry i none 1 := by
  refine Follows.get_bind fun s hs => ?_
  split
  · exact .pure rfl
  · next i hfree =>
    obtain ⟨htype, hlt⟩ := free_file_some hfree
    have hnone : w.handles i = none := by
      subst hs
      exact if_pos htype
    refine (modify_file _ none 1 ?_ fun _ _ => rfl).bind_eq fun _ =>
      .pure ⟨⟨by omega, hnone⟩, rfl⟩
    rintro s' rfl
    exact hnone

/-- The close of an entry that is open and referenced once, or a reference less to it. -/
theorem ofile_close (i : Nat) : Books (Xv6fs.ofile_close sb i) w fun _ w' =>
    1 ≤ w.counts i ∧ (1 < w.counts i → w' = w.setEntry i (w.handles i) (w.counts i - 1)) ∧
      (w.counts i = 1 → ∃ ip, w.handles i = some ip ∧ w' = (w.setEntry i none 0).put ip) := by
  refine Follows.get_bind fun s hs => Follows.assert_bind fun href => ?_
  have hcount : w.counts i = (s.files i).ref := by rw [← hs]; rfl
  refine Follows.ite (fun hgt => ?_) fun hle => ?_
  · refine (modify_file _ (w.handles i) (w.counts i - 1) ?_ ?_).imp fun _ w' hw =>
      ⟨by omega, fun _ => hw, by omega⟩
    · rintro s' rfl
      rfl
    · rintro s' rfl
      rfl
  · refine (modify_file _ none 0 (fun _ _ => rfl) fun _ _ => rfl).bind_eq
      fun _ => ?_
    have hclosed : ∀ ip, (s.files i).handle = some ip →
        Books (do Fs.begin_op; Xv6fs.inode_put sb ip; Fs.end_op) (w.setEntry i none 0) fun _ w' =>
          1 ≤ w.counts i ∧ (1 < w.counts i → w' = w.setEntry i (w.handles i) (w.counts i - 1)) ∧
          (w.counts i = 1 → ∃ ip, w.handles i = some ip ∧ w' = (w.setEntry i none 0).put ip) := by
      intro ip hip
      refine leaves_bind begin_op fun _ => inode_put.bind_eq fun _ => end_op.imp fun _ w' hw => ?_
      refine ⟨by omega, by omega, fun _ => ⟨ip, ?_, hw⟩⟩
      rw [← hs]
      exact hip
    split
    · exact .throw
    · next htype => exact hclosed _ (by simp [OFile.handle, htype])
    · next htype => exact hclosed _ (by simp [OFile.handle, htype])

theorem ofile_read (buf : Bytes.Source) (n : Nat) : Leaves (OFile.read sb i buf n) w := by
  refine Follows.get_bind fun s _ => Follows.ite (fun _ => .pure rfl) fun _ => ?_
  split
  · exact .throw
  · exact Follows.ite (fun _ => .pure rfl) fun _ => .pure rfl
  · refine lock.bind_eq fun _ => (read _ _ _).bind_eq fun r => ?_
    rw [Ledger.lock_access]
    refine leaves_bind (modify_file_same _ (fun _ => rfl) fun _ => rfl) fun _ =>
      unlock.bind_eq fun _ => .pure ?_
    simp

theorem ofile_write (buf : Bytes.Source) (n : Nat) : Leaves (OFile.write sb i buf n) w := by
  have hloop : ∀ fuel done, Leaves (OFile.write_loop sb i buf n fuel done) w := by
    intro fuel
    induction fuel with
    | zero => exact fun _ => .pure rfl
    | succ fuel ih =>
      intro done
      refine Follows.ite (fun _ => leaves_bind begin_op fun _ => Follows.get_bind fun s _ => ?_)
        fun _ => .pure rfl
      refine lock.bind_eq fun _ => (write _ _ _).bind_eq fun r => ?_
      rw [Ledger.lock_access]
      refine leaves_bind (modify_file_same _ (fun _ => rfl) fun _ => rfl) fun _ =>
        unlock.bind_eq fun _ => ?_
      rw [Ledger.lock_unlock]
      exact leaves_bind end_op fun _ => Follows.ite (fun _ => .pure rfl) fun _ => ih _
  refine Follows.get_bind fun s _ => Follows.ite (fun _ => .pure rfl) fun _ => ?_
  split
  · exact .throw
  · exact Follows.ite (fun _ => .pure rfl) fun _ => .pure rfl
  · exact leaves_bind (hloop _ _) fun _ => .pure rfl

/-! ### Creation and opening -/

theorem inode_name_x (path : List UInt8) (nameiparent : Bool) :
    Books (Xv6fs.inode_name_x sb path nameiparent) w fun r w' => w' = found w r :=
  Follows.assert_bind fun _ => inode_get.bind_eq fun _ =>
    inode_name_loop _ _ _ _ _ (Nat.lt_succ_self _)

theorem inode_name (path : List UInt8) :
    Books (Xv6fs.inode_name sb path) w fun r w' => w' = r.elim w w.get :=
  (inode_name_x _ _).bind_eq fun r => .pure (by cases r <;> rfl)

theorem inode_name_parent (path : List UInt8) :
    Books (Xv6fs.inode_name_parent sb path) w fun r w' => w' = found w r := inode_name_x _ _

/-- `create` returns an inode that it has referenced and locked. -/
theorem create (path : List UInt8) (type major minor : UInt16) :
    Books (Xv6fs.create sb path type major minor) w fun r w' =>
      w' = r.elim w fun ip => (w.get ip).lock ip := by
  refine (inode_name_parent _).bind_eq fun r => ?_
  cases r with
  | none => exact .pure rfl
  | some p =>
    obtain ⟨dp, name⟩ := p
    refine lock.bind_eq fun _ => (dirlookup _).bind_eq fun r => ?_
    simp only [found, Option.elim, Ledger.lock_access]
    cases r with
    | some q =>
      refine inode_unlock_put.bind_eq fun _ => lock.bind_eq fun _ => Follows.get_bind fun s _ => ?_
      have hw : ((((((w.get dp).lock dp).get q.1).unlock dp).put dp).lock q.1) =
          (w.get q.1).lock q.1 := by
        rw [Ledger.get_unlock, Ledger.lock_unlock, Ledger.get_get_put]
      dsimp only [Option.elim]
      rw [hw]
      refine Follows.ite (fun _ => .pure rfl) fun _ => inode_unlock_put.bind_eq fun _ => .pure ?_
      simp
    | none =>
      refine (inode_alloc _).bind_eq fun r => ?_
      cases r with
      | none =>
        refine inode_unlock_put.bind_eq fun _ => .pure ?_
        simp
      | some ip =>
        -- `ip` is locked last, so the directory is locked below it
        have hcommon : (((w.get dp).lock dp).get ip).lock ip =
            (((w.lock dp).lock ip).get dp).get ip := rfl
        refine lock.bind_eq fun _ => leaves_bind (modify_dinode _) fun _ => update.bind_eq fun _ => ?_
        simp only [Option.elim, Ledger.lock_access]
        have haccess : ((((w.get dp).lock dp).get ip).lock ip).access dp =
            (((w.get dp).lock dp).get ip).lock ip := by
          rw [hcommon]
          simp only [Ledger.get_access, Ledger.lock_lock_access]
        have hentries : Leaves (Xv6fs.create.create_entries sb type dp ip name)
            ((((w.get dp).lock dp).get ip).lock ip) := by
          have hlink : Leaves (INode.dirlink sb dp name ip)
              ((((w.get dp).lock dp).get ip).lock ip) :=
            (dirlink _ _).imp fun _ w' hw => hw.trans haccess
          have hdots : ∀ nm inum, Leaves (INode.dirlink sb ip nm inum)
              ((((w.get dp).lock dp).get ip).lock ip) := fun nm inum =>
            (dirlink _ _).imp fun _ w' hw => by rw [hw]; simp
          refine Follows.ite (fun _ => ?_) fun _ => hlink
          refine leaves_bind (hdots _ _) fun _ => Follows.ite (fun _ => ?_) fun _ => .pure rfl
          exact leaves_bind (hdots _ _) fun _ => Follows.ite (fun _ => hlink) fun _ => .pure rfl
        have hdone : ((((((w.get dp).lock dp).get ip).lock ip).unlock dp).put dp) =
            (w.get ip).lock ip := by
          rw [hcommon]
          simp only [Ledger.get_unlock, Ledger.lock_lock_unlock, Ledger.get_get_put]
          rfl
        refine leaves_bind hentries fun linked => ?_
        refine Follows.ite (fun _ => Follows.ite (fun _ => ?_) fun _ => ?_) fun _ => ?_
        · refine leaves_bind (modify_dinode _) fun _ => update.bind_eq fun _ => ?_
          rw [haccess]
          exact inode_unlock_put.bind_eq fun _ => .pure hdone
        · exact inode_unlock_put.bind_eq fun _ => .pure hdone
        · refine leaves_bind (modify_dinode _) fun _ => update.bind_eq fun _ => ?_
          rw [Ledger.lock_access]
          refine inode_unlock_put.bind_eq fun _ => inode_unlock_put.bind_eq fun _ => .pure ?_
          simp

/-- An open takes an entry that is not open, for an inode that it references. -/
def Opens (w : Ledger) (r : Option Nat) (w' : Ledger) : Prop :=
  match r with
  | none => w' = w
  | some i => (i < NFILE ∧ w.handles i = none) ∧ ∃ ip, w' = (w.get ip).setEntry i (some ip) 1

theorem open_inode (ip omode : Nat) :
    Books (Xv6fs.open_inode sb ip omode) ((w.get ip).lock ip) (Opens w) := by
  refine ofile_alloc.bind fun r w1 h => ?_
  cases r with
  | none =>
    rw [h]
    refine inode_unlock_put.bind_eq fun _ => leaves_bind end_op fun _ => .pure ?_
    simp [Opens]
  | some i =>
    obtain ⟨hi, rfl⟩ := h
    refine Follows.get_bind fun s _ => ?_
    have hopen : Opens w (some i) ((w.get ip).setEntry i (some ip) 1) := ⟨hi, ip, rfl⟩
    have hrest : Books (if has omode O_TRUNC ∧ (s.inodes ip).dinode.type = FileType.T_FILE then do
          INode.trunc sb ip; INode.unlock ip; Fs.end_op; pure (some i)
        else do INode.unlock ip; Fs.end_op; pure (some i))
        (((w.get ip).setEntry i (some ip) 1).lock ip) (Opens w) := by
      refine Follows.ite (fun _ => trunc.bind_eq fun _ => ?_) fun _ => ?_
      · rw [Ledger.lock_access]
        refine unlock.bind_eq fun _ => leaves_bind end_op fun _ => .pure ?_
        rwa [Ledger.lock_unlock]
      · refine unlock.bind_eq fun _ => leaves_bind end_op fun _ => .pure ?_
        rwa [Ledger.lock_unlock]
    refine Follows.ite (fun _ => ?_) fun _ => ?_
    · refine (modify_file _ (some ip) 1 (fun _ _ => rfl) ?_).bind_eq fun _ => ?_
      · rintro s hs
        exact (congrFun (congrArg Ledger.counts hs) i).trans setAt_self
      · rw [Ledger.setEntry_setEntry, Ledger.lock_setEntry]
        exact hrest
    · refine (modify_file _ (some ip) 1 (fun _ _ => rfl) ?_).bind_eq fun _ => ?_
      · rintro s hs
        exact (congrFun (congrArg Ledger.counts hs) i).trans setAt_self
      · rw [Ledger.setEntry_setEntry, Ledger.lock_setEntry]
        exact hrest

theorem do_open (path : List UInt8) (omode : Nat) :
    Books (Xv6fs.do_open sb path omode) w (Opens w) := by
  refine leaves_bind begin_op fun _ => Follows.ite (fun _ => ?_) fun _ => ?_
  · refine (create _ _ _ _).bind_eq fun r => ?_
    cases r with
    | none => exact leaves_bind end_op fun _ => .pure rfl
    | some ip => exact open_inode _ _
  · refine (inode_name _).bind_eq fun r => ?_
    cases r with
    | none => exact leaves_bind end_op fun _ => .pure rfl
    | some ip =>
      refine lock.bind_eq fun _ => Follows.get_bind fun s _ => ?_
      refine Follows.ite (fun _ => ?_) fun _ => open_inode _ _
      refine inode_unlock_put.bind_eq fun _ => leaves_bind end_op fun _ => .pure ?_
      simp [Opens]

theorem op_open (path : List UInt8) (flags : Nat) :
    Books (Xv6fs.op_open sb path flags) w fun r w' => Opens w r.2 w' := by
  refine (do_open _ _).bind fun r w' h => ?_
  cases r with
  | none => exact .pure h
  | some i => exact .pure h

theorem op_create (path : List UInt8) (omode : Nat) :
    Books (Xv6fs.op_create sb path omode) w fun r w' => Opens w r.2 w' := by
  refine leaves_bind begin_op fun _ => (create _ _ _ _).bind_eq fun r => ?_
  cases r with
  | none => exact leaves_bind end_op fun _ => .pure rfl
  | some ip =>
    refine ofile_alloc.bind fun r w1 h => ?_
    cases r with
    | none =>
      rw [h]
      refine inode_unlock_put.bind_eq fun _ => leaves_bind end_op fun _ => .pure ?_
      simp [Opens]
    | some i =>
      obtain ⟨hi, rfl⟩ := h
      have hopen : Opens w (some i) ((w.get ip).setEntry i (some ip) 1) := ⟨hi, ip, rfl⟩
      refine (modify_file _ (some ip) 1 (fun _ _ => rfl) ?_).bind_eq fun _ => ?_
      · rintro s hs
        exact (congrFun (congrArg Ledger.counts hs) i).trans setAt_self
      rw [Ledger.setEntry_setEntry]
      dsimp only [Option.elim]
      rw [Ledger.lock_setEntry]
      refine Follows.get_bind fun s _ => Follows.ite (fun _ => trunc.bind_eq fun _ => ?_) fun _ => ?_
      · rw [Ledger.lock_access]
        refine unlock.bind_eq fun _ => leaves_bind end_op fun _ => .pure ?_
        rwa [Ledger.lock_unlock]
      · refine unlock.bind_eq fun _ => leaves_bind end_op fun _ => .pure ?_
        rwa [Ledger.lock_unlock]

theorem op_mkdir (path : List UInt8) : Leaves (Xv6fs.op_mkdir sb path) w := by
  refine leaves_bind begin_op fun _ => (create _ _ _ _).bind_eq fun r => ?_
  cases r with
  | none => exact .throw
  | some ip =>
    refine inode_unlock_put.bind_eq fun _ => leaves_bind end_op fun _ => .pure ?_
    simp

/-! ### Reading, writing and closing -/

theorem op_read (buf : Bytes.Source) (size offset : Nat) :
    Leaves (Xv6fs.op_read sb i buf size offset) w := by
  refine Follows.get_bind fun s _ => Follows.ite (fun _ => .pure rfl) fun _ => ?_
  exact leaves_bind (modify_file_same _ (fun _ => rfl) fun _ => rfl) fun _ =>
    leaves_bind (ofile_read _ _) fun _ => .pure rfl

theorem op_write (buf : Bytes.Source) (size offset : Nat) :
    Leaves (Xv6fs.op_write sb i buf size offset) w :=
  Follows.get_bind fun _ _ => Follows.ite (fun _ => .pure rfl) fun _ => ofile_write _ _

/-- An entry that was opened is closed again. -/
def Settles (w w' : Ledger) : Prop := w' = w ∨ ∃ i, w.handles i = none ∧ w' = w.setEntry i none 0

theorem close_opened {j : Nat} {w1 : Ledger} (h : Opens w (some j) w1) :
    Books (Xv6fs.ofile_close sb j) w1 fun _ w' => Settles w w' := by
  obtain ⟨⟨-, hnone⟩, ip, rfl⟩ := h
  refine (ofile_close j).imp fun _ w' hclose => .inr ⟨j, hnone, ?_⟩
  have hcount : ((w.get ip).setEntry j (some ip) 1).counts j = 1 := setAt_self
  obtain ⟨ip', hip', hw⟩ := hclose.2.2 hcount
  have hsame : some ip = some ip' := (setAt_self (f := w.handles)).symm.trans hip'
  cases hsame
  rw [hw, Ledger.setEntry_setEntry, Ledger.get_setEntry, Ledger.get_put]

theorem op_truncate (path : List UInt8) (length : Nat) :
    Books (Xv6fs.op_truncate sb path length) w fun _ w' => Settles w w' := by
  refine (do_open _ _).bind fun r w1 h => ?_
  cases r with
  | none => exact .pure (.inl h)
  | some i =>
    refine Follows.get_bind fun s _ => leaves_bind begin_op fun _ => lock.bind_eq fun _ => ?_
    refine leaves_bind (modify_dinode _) fun _ => update.bind_eq fun _ => ?_
    rw [Ledger.lock_access]
    refine unlock.bind_eq fun _ => leaves_bind end_op fun _ => ?_
    rw [Ledger.lock_unlock]
    exact (close_opened h).bind fun _ w' hw => .pure hw

theorem do_fillstatbuf : Leaves (do_fillstatbuf x) w :=
  Follows.get_bind fun _ _ => Follows.assert_bind fun _ => .pure rfl

theorem op_getattr (path : List UInt8) :
    Books (Xv6fs.op_getattr sb path) w fun _ w' => Settles w w' := by
  refine (do_open _ _).bind fun r w1 h => ?_
  cases r with
  | none => exact .pure (.inl h)
  | some i =>
    refine Follows.get_bind fun s _ => leaves_bind do_fillstatbuf fun _ => ?_
    exact (close_opened h).bind fun _ w' hw => .pure hw

theorem op_readdir (full : Nat → Bool) (offset : Nat) :
    Leaves (Xv6fs.op_readdir sb i full offset) w := by
  have hloop : ∀ fuel j got, Leaves (readdir_loop sb i full fuel j got) w := by
    intro fuel
    induction fuel with
    | zero => exact fun _ _ => .pure rfl
    | succ fuel ih =>
      intro j got
      refine Follows.get_bind fun s _ => Follows.ite (fun _ => ?_) fun _ => .pure rfl
      refine leaves_bind (ofile_read _ _) fun r => Follows.ite (fun _ => ih _ _) fun _ => ?_
      refine inode_get.bind_eq fun _ => lock.bind_eq fun _ => leaves_bind do_fillstatbuf fun _ => ?_
      refine inode_unlock_put.bind_eq fun _ => ?_
      rw [Ledger.lock_unlock, Ledger.get_put]
      exact Follows.ite (fun _ => .pure rfl) fun _ => ih _ _
  exact Follows.get_bind fun _ _ => Follows.ite (fun _ => .pure rfl) fun _ =>
    Follows.ite (fun _ => .pure rfl) fun _ => hloop _ _ _

theorem op_flush : Leaves (Xv6fs.op_flush sb) w := by
  have hloop : ∀ l, Leaves (op_flush_loop sb l) w := by
    intro l
    induction l with
    | nil => exact .pure rfl
    | cons x rest ih =>
      refine leaves_bind begin_op fun _ => lock.bind_eq fun _ => update.bind_eq fun _ => ?_
      rw [Ledger.lock_access]
      refine unlock.bind_eq fun _ => leaves_bind end_op fun _ => ?_
      rwa [Ledger.lock_unlock]
  exact Follows.get_bind fun _ _ => leaves_bind (hloop _) fun _ => .pure rfl

end Books

end Xv6fs
