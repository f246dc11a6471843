import Xv6fs.Fs.Accounts
import Xv6fs.Mkfs

/-! The lock discipline of the operations: every unlock and every access is of an inode that the
operation has locked, and no lock is left when it returns.  `op_link`, `op_unlink` and `op_rename`
break it as soon as they go beyond their first lookup. -/

namespace Xv6fs

open Program (Runs Yields Follows runs_seq runs_bind runs_ite yields_bind yields_get yields_pure)

/-! ### Ledgers without locks -/

namespace Ledger

variable {w : Ledger} {x y : Nat}

/-- No lock is held, or the discipline is broken already. -/
def Idle (w : Ledger) : Prop := w.held = some [] ∨ w.held = none

/-- The ledger once the discipline is broken. -/
def broken (w : Ledger) : Ledger := { w with held := none }

theorem Idle.access (h : w.Idle) : w.access x = w.broken := by
  rcases w with ⟨refs, handles, counts, held⟩
  rcases h with rfl | rfl <;> rfl

theorem Idle.unlock (h : w.Idle) : w.unlock x = w.broken := by
  rcases w with ⟨refs, handles, counts, held⟩
  rcases h with rfl | rfl <;> rfl

theorem Idle.get (h : w.Idle) : (w.get x).Idle := h

@[simp] theorem broken_access : w.broken.access x = w.broken := rfl

@[simp] theorem broken_lock : w.broken.lock x = w.broken := rfl

@[simp] theorem broken_unlock : w.broken.unlock x = w.broken := rfl

theorem get_broken : (w.get x).broken = w.broken.get x := rfl

end Ledger

variable {sb : SuperBlock} {s : Fs} {w : Ledger} {x i : Nat}

/-! ### Links -/

variable (sb) in
/-- Whether `do_link` ends with the lookup of its source: there is none, or it is a directory. -/
def link_refused (source : List UInt8) : Prog Bool := do
  Fs.begin_op
  match ← inode_name sb source with
  | none => pure true
  | some ip =>
    INode.lock sb ip
    let s ← get
    pure (decide ((s.inodes ip).dinode.type = FileType.T_DIR))

variable (sb) in
/-- Whether `do_unlink` ends with the lookup of the parent. -/
def unlink_refused (path : List UInt8) : Prog Bool := do
  Fs.begin_op
  match ← inode_name_parent sb path with
  | none => pure true
  | some _ => pure false

variable (sb) in
/-- Whether `op_rename` ends with the lookup of the parent of the source: there is none, or the copy
in memory, which may not have been read, is no directory. -/
def rename_refused (source : List UInt8) : Prog Bool := do
  Fs.begin_op
  match ← inode_name sb (Path.parent_path source) with
  | none => pure true
  | some dp =>
    let s ← get
    pure (decide ((s.inodes dp).dinode.type ≠ FileType.T_DIR))

variable (sb) in
/-- Whether `op_rename` returns with a reference: one of the parents that it looks up is there, and
the copy in memory, which may not have been read, is no directory. -/
def rename_leaks (source dest : List UInt8) : Prog Bool := do
  Fs.begin_op
  match ← inode_name sb (Path.parent_path source) with
  | none => pure false
  | some dp =>
    let s ← get
    if (s.inodes dp).dinode.type ≠ FileType.T_DIR then pure true
    else if Path.same (Path.parent_path source) (Path.parent_path dest) then pure false
    else
      match ← inode_name sb (Path.parent_path dest) with
      | none => pure false
      | some dp_dest =>
        let s ← get
        pure (decide ((s.inodes dp_dest).dinode.type ≠ FileType.T_DIR))

/-- The ledger after an operation that was refused, or that has broken the discipline. -/
def Ledger.breach (w : Ledger) (refused : Bool) : Ledger := if refused then w else w.broken

namespace Books

theorem do_link_roll_back (ip : Nat) :
    Books (do_link.roll_back sb ip) (w.get ip) fun _ w' => w' = w := by
  refine lock.bind_eq fun _ => leaves_bind (modify_dinode _) fun _ => update.bind_eq fun _ => ?_
  refine inode_unlock_put.bind_eq fun _ => leaves_bind end_op fun _ => .pure ?_
  simp

/-- `do_link` unlocks its source a second time. -/
theorem op_link (source dest : List UInt8) (hidle : s.ledger.Idle) :
    Runs (Xv6fs.op_link sb source dest) s (fun _ s' => ∃ refused,
      Yields (link_refused sb source) s refused ∧ s'.ledger = s.ledger.breach refused)
      fun _ => True := by
  refine runs_seq (fun _ s1 h1 => runs_seq (fun r s2 h2 => ?_) fun _ _ => trivial) fun _ _ => trivial
  have hw1 := begin_op.of_ok rfl h1
  have hw2 := (inode_name source).of_ok hw1 h2
  cases r with
  | none =>
    refine Follows.runs hw2 (P := fun _ w' => w' = s.ledger)
      (leaves_bind end_op fun _ => .pure rfl) fun _ s' hw' => ⟨true, ?_, hw'⟩
    exact (yields_bind h1).mpr ((yields_bind h2).mpr (yields_pure.mpr rfl))
  | some ip =>
    refine runs_seq (fun _ s3 h3 => ?_) fun _ _ => trivial
    have hw3 := lock.of_ok hw2 h3
    dsimp only [Option.elim] at hw3
    have hrefused : Yields (link_refused sb source) s
        (decide ((s3.inodes ip).dinode.type = FileType.T_DIR)) :=
      (yields_bind h1).mpr ((yields_bind h2).mpr ((yields_bind h3).mpr
        (yields_get.mpr (yields_pure.mpr rfl))))
    refine runs_bind.mpr (runs_ite.mpr ⟨fun hdir => ?_, fun hdir => ?_⟩)
    · refine Follows.runs hw3 (P := fun _ w' => w' = s.ledger) ?_ fun _ s' hw' => ⟨true, ?_, hw'⟩
      · refine inode_unlock_put.bind_eq fun _ => leaves_bind end_op fun _ => .pure ?_
        simp
      · simpa [hdir] using hrefused
    · refine Follows.runs hw3 (P := fun _ w' => w' = s.ledger.broken) ?_
        fun _ s' hw' => ⟨false, ?_, hw'⟩
      · refine leaves_bind (modify_dinode _) fun _ => unlock.bind_eq fun _ =>
          unlock.bind_eq fun _ => ?_
        rw [Ledger.lock_unlock, hidle.get.unlock, Ledger.get_broken]
        refine (inode_name_parent dest).bind_eq fun r => ?_
        cases r with
        | none => exact do_link_roll_back _
        | some p =>
          refine lock.bind_eq fun _ => (dirlink _ _).bind_eq fun linked => ?_
          refine inode_unlock_put.bind_eq fun _ => ?_
          simp only [found, Option.elim, Ledger.lock_access, Ledger.lock_unlock, Ledger.get_put]
          refine Follows.ite (fun _ => ?_) fun _ => do_link_roll_back _
          refine inode_put.bind_eq fun _ => leaves_bind end_op fun _ => .pure ?_
          simp
      · simpa [hdir] using hrefused

theorem is_dir_empty (hx : w.access x = w) : Leaves (Xv6fs.is_dir_empty sb x) w := by
  have hloop : ∀ fuel off, Leaves (is_dir_empty_loop sb x fuel off) w := by
    intro fuel
    induction fuel with
    | zero => exact fun _ => .pure rfl
    | succ fuel ih =>
      intro off
      refine Follows.get_bind fun s _ => Follows.ite (fun _ => ?_) fun _ => .pure rfl
      refine (read _ _ _).bind_eq fun r => ?_
      rw [hx]
      exact Follows.assert_bind fun _ => Follows.ite (fun _ => .pure rfl) fun _ => ih _
  exact Follows.get_bind fun _ _ => hloop _ _

/-- The end of `do_unlink`, after the discipline is broken. -/
theorem do_unlink_rest (dp ip : Nat) :
    Books (do_unlink.rest sb dp ip) ((w.broken.get dp).get ip) fun _ w' => w' = w.broken := by
  refine inode_unlock_put.bind_eq fun _ => leaves_bind (modify_dinode _) fun _ =>
    update.bind_eq fun _ => inode_unlock_put.bind_eq fun _ => leaves_bind end_op fun _ => .pure ?_
  simp only [Ledger.get_unlock, Ledger.broken_unlock, Ledger.get_get_put, Ledger.get_access,
    Ledger.broken_access, Ledger.get_put]

theorem do_unlink_remove (dp ip off : Nat) :
    Books (do_unlink.remove sb dp ip off) ((w.broken.get dp).get ip) fun _ w' => w' = w.broken := by
  refine (write _ _ _).bind_eq fun _ => Follows.assert_bind fun _ => Follows.get_bind fun s _ => ?_
  simp only [Ledger.get_access, Ledger.broken_access]
  refine Follows.ite (fun _ => ?_) fun _ => do_unlink_rest _ _
  refine leaves_bind (modify_dinode _) fun _ => update.bind_eq fun _ => ?_
  simp only [Ledger.get_access, Ledger.broken_access]
  exact do_unlink_rest _ _

/-- `do_unlink` never locks the parent. -/
theorem op_unlink (path : List UInt8) (hidle : s.ledger.Idle) :
    Runs (Xv6fs.op_unlink sb path) s (fun _ s' => ∃ refused,
      Yields (unlink_refused sb path) s refused ∧ s'.ledger = s.ledger.breach refused)
      fun _ => True := by
  refine runs_seq (fun _ s1 h1 => runs_seq (fun r s2 h2 => ?_) fun _ _ => trivial) fun _ _ => trivial
  have hw1 := begin_op.of_ok rfl h1
  have hw2 := (inode_name_parent path).of_ok hw1 h2
  have hrefused : Yields (unlink_refused sb path) s r.isNone := by
    refine (yields_bind h1).mpr ((yields_bind h2).mpr ?_)
    cases r <;> exact yields_pure.mpr rfl
  cases r with
  | none =>
    exact Follows.runs hw2 (P := fun _ w' => w' = s.ledger)
      (leaves_bind end_op fun _ => .pure rfl) fun _ s' hw' => ⟨true, hrefused, hw'⟩
  | some p =>
    obtain ⟨dp, basename⟩ := p
    refine Follows.runs hw2 (P := fun _ w' => w' = s.ledger.broken) ?_
      fun _ s' hw' => ⟨false, hrefused, hw'⟩
    refine Follows.ite (fun _ => ?_) fun _ => ?_
    · refine inode_unlock_put.bind_eq fun _ => leaves_bind end_op fun _ => .pure ?_
      dsimp only [found, Option.elim]
      rw [hidle.get.unlock, Ledger.get_broken, Ledger.get_put]
    refine (dirlookup _).bind_eq fun r => ?_
    dsimp only [found, Option.elim]
    rw [hidle.get.access, Ledger.get_broken]
    cases r with
    | none =>
      refine inode_unlock_put.bind_eq fun _ => leaves_bind end_op fun _ => .pure ?_
      simp only [Ledger.get_unlock, Ledger.broken_unlock, Ledger.get_put]
    | some q =>
      obtain ⟨ip, off⟩ := q
      refine lock.bind_eq fun _ => Follows.get_bind fun s4 _ => Follows.assert_bind fun _ => ?_
      simp only [Ledger.get_lock, Ledger.broken_lock]
      have hempty : Leaves (if (s4.inodes ip).dinode.type = FileType.T_DIR then
          Xv6fs.is_dir_empty sb ip else pure true) ((s.ledger.broken.get dp).get ip) :=
        Follows.ite (fun _ => is_dir_empty rfl) fun _ => .pure rfl
      refine leaves_bind hempty fun removable => ?_
      refine Follows.ite (fun _ => do_unlink_remove _ _ _) fun _ => ?_
      refine inode_unlock_put.bind_eq fun _ => inode_unlock_put.bind_eq fun _ =>
        leaves_bind end_op fun _ => .pure ?_
      simp only [Ledger.get_unlock, Ledger.broken_unlock, Ledger.get_put]

/-! ### Renames -/

/-- The ledger with the reference to `x` that a rename has leaked. -/
def leak (w : Ledger) (leaks : Bool) (x : Nat) : Ledger := if leaks then w.get x else w

/-- What a rename leaves: its two failings go by its lookups. -/
def Renames (sb : SuperBlock) (source dest : List UInt8) (s s' : Fs) : Prop :=
  ∃ refused leaks x, Yields (rename_refused sb source) s refused ∧
    Yields (rename_leaks sb source dest) s leaks ∧ s'.ledger = leak (s.ledger.breach refused) leaks x

theorem move_entry (a b : Nat) (source_base dest_base : List UInt8) (hidle : w.Idle) :
    Books (Xv6fs.move_entry sb a b source_base dest_base) ((w.get a).get b)
      fun _ w' => w' = w.broken := by
  refine (dirlookup _).bind_eq fun r => ?_
  rw [hidle.get.get.access]
  have hputs : ∀ r : Int, Books (do Xv6fs.inode_unlock_put sb a; Xv6fs.inode_unlock_put sb b
                                    Fs.end_op; pure r) ((w.broken.get a).get b)
      fun _ w' => w' = w.broken := by
    intro r
    refine inode_unlock_put.bind_eq fun _ => inode_unlock_put.bind_eq fun _ =>
      leaves_bind end_op fun _ => .pure ?_
    simp only [Ledger.get_unlock, Ledger.broken_unlock, Ledger.get_get_put, Ledger.get_put]
  cases r with
  | none => exact hputs _
  | some p =>
    obtain ⟨ip, off⟩ := p
    have hputs' : ∀ r : Int, Books (do Xv6fs.inode_unlock_put sb ip; Xv6fs.inode_unlock_put sb a
                                       Xv6fs.inode_unlock_put sb b; Fs.end_op; pure r)
        (((w.broken.get a).get b).get ip) fun _ w' => w' = w.broken := by
      intro r
      refine inode_unlock_put.bind_eq fun _ => ?_
      simp only [Ledger.get_unlock, Ledger.broken_unlock, Ledger.get_put]
      exact hputs r
    refine (dirlink _ _).bind_eq fun linked => ?_
    simp only [Option.elim, Ledger.get_broken, Ledger.get_access, Ledger.broken_access]
    refine Follows.ite (fun _ => ?_) fun _ => hputs' _
    refine update.bind_eq fun _ => Follows.get_bind fun s _ => (read _ _ _).bind_eq fun r => ?_
    simp only [Ledger.get_access, Ledger.broken_access]
    refine Follows.ite (fun _ => Follows.get_bind fun s _ => ?_) fun _ => ?_
    · refine (write _ _ _).bind_eq fun _ => update.bind_eq fun _ => ?_
      simp only [Ledger.get_access, Ledger.broken_access]
      exact hputs' _
    · refine (write _ _ _).bind_eq fun _ => update.bind_eq fun _ => inode_put.bind_eq fun _ => ?_
      simp only [Ledger.get_access, Ledger.broken_access, Ledger.get_put]
      exact hputs _

theorem same_parent_rest (dp ip off : Nat) (de : DirEntry) :
    Books (do
      let n ← INode.write sb dp de.bytes off DIRENT_SIZE
      if n ≠ DIRENT_SIZE then
        Xv6fs.inode_unlock_put sb ip
        Xv6fs.inode_unlock_put sb dp
        Fs.end_op
        pure (- EIO)
      else
        INode.update sb dp
        Xv6fs.inode_unlock_put sb ip
        Xv6fs.inode_unlock_put sb dp
        Fs.end_op
        pure 0) ((w.broken.get dp).get ip) fun _ w' => w' = w.broken := by
  refine (write _ _ _).bind_eq fun n => ?_
  simp only [Ledger.get_access, Ledger.broken_access]
  refine Follows.ite (fun _ => ?_) fun _ => ?_
  · refine inode_unlock_put.bind_eq fun _ => inode_unlock_put.bind_eq fun _ =>
      leaves_bind end_op fun _ => .pure ?_
    simp only [Ledger.get_unlock, Ledger.broken_unlock, Ledger.get_put]
  · refine update.bind_eq fun _ => inode_unlock_put.bind_eq fun _ =>
      inode_unlock_put.bind_eq fun _ => leaves_bind end_op fun _ => .pure ?_
    simp only [Ledger.get_access, Ledger.broken_access, Ledger.get_unlock, Ledger.broken_unlock,
      Ledger.get_put]

theorem same_parent (source dest : List UInt8) (hidle : s.ledger.Idle)
    (hsame : Path.same (Path.parent_path source) (Path.parent_path dest) = true) :
    Runs (Xv6fs.same_parent sb source dest) s (fun _ s' => Renames sb source dest s s')
      fun _ => True := by
  refine runs_seq (fun _ s1 h1 => runs_seq (fun r s2 h2 => ?_) fun _ _ => trivial) fun _ _ => trivial
  have hw1 := begin_op.of_ok rfl h1
  have hw2 := (inode_name _).of_ok hw1 h2
  have hbefore : ∀ {f : Option Nat → Prog Bool} {b}, Yields (f r) s2 b →
      Yields (do Fs.begin_op; let r ← Xv6fs.inode_name sb (Path.parent_path source); f r) s b :=
    fun h => (yields_bind h1).mpr ((yields_bind h2).mpr h)
  cases r with
  | none =>
    refine Follows.runs hw2 (P := fun _ w' => w' = s.ledger)
      (leaves_bind end_op fun _ => .pure rfl) fun _ s' hw' => ⟨true, false, 0, ?_, ?_, hw'⟩
    · exact hbefore (yields_pure.mpr rfl)
    · exact hbefore (yields_pure.mpr rfl)
  | some dp =>
    dsimp only [Option.elim] at hw2
    refine runs_bind.mpr (runs_ite.mpr ⟨fun hdir => ?_, fun hdir => ?_⟩)
    · refine Follows.runs hw2 (P := fun _ w' => w' = s.ledger.get dp)
        (leaves_bind end_op fun _ => .pure rfl) fun _ s' hw' => ⟨true, true, dp, ?_, ?_, hw'⟩
      · exact hbefore (yields_get.mpr (yields_pure.mpr (by simpa using hdir)))
      · refine hbefore (yields_get.mpr ?_)
        rw [if_pos hdir]
        exact yields_pure.mpr rfl
    · refine Follows.runs hw2 (P := fun _ w' => w' = s.ledger.broken) ?_
        fun _ s' hw' => ⟨false, false, dp, ?_, ?_, hw'⟩
      · refine (dirlookup _).bind_eq fun r => ?_
        rw [hidle.get.access, Ledger.get_broken]
        cases r with
        | none =>
          refine inode_unlock_put.bind_eq fun _ => leaves_bind end_op fun _ => .pure ?_
          simp only [Option.elim, Ledger.get_unlock, Ledger.broken_unlock, Ledger.get_put]
        | some p => exact same_parent_rest _ _ _ _
      · exact hbefore (yields_get.mpr (yields_pure.mpr (by simpa using hdir)))
      · refine hbefore (yields_get.mpr ?_)
        rw [if_neg hdir, if_pos hsame]
        exact yields_pure.mpr rfl

theorem different_parent (source dest : List UInt8) (hidle : s.ledger.Idle)
    (hsame : ¬Path.same (Path.parent_path source) (Path.parent_path dest) = true) :
    Runs (Xv6fs.different_parent sb source dest) s (fun _ s' => Renames sb source dest s s')
      fun _ => True := by
  refine runs_seq (fun _ s1 h1 => runs_seq (fun r s2 h2 => ?_) fun _ _ => trivial) fun _ _ => trivial
  have hw1 := begin_op.of_ok rfl h1
  have hw2 := (inode_name _).of_ok hw1 h2
  have hbefore : ∀ {f : Option Nat → Prog Bool} {b}, Yields (f r) s2 b →
      Yields (do Fs.begin_op; let r ← Xv6fs.inode_name sb (Path.parent_path source); f r) s b :=
    fun h => (yields_bind h1).mpr ((yields_bind h2).mpr h)
  cases r with
  | none =>
    refine Follows.runs hw2 (P := fun _ w' => w' = s.ledger)
      (leaves_bind end_op fun _ => .pure rfl) fun _ s' hw' => ⟨true, false, 0, ?_, ?_, hw'⟩
    · exact hbefore (yields_pure.mpr rfl)
    · exact hbefore (yields_pure.mpr rfl)
  | some a =>
    dsimp only [Option.elim] at hw2
    refine runs_bind.mpr (runs_ite.mpr ⟨fun hdir => ?_, fun hdir => ?_⟩)
    · refine Follows.runs hw2 (P := fun _ w' => w' = s.ledger.get a)
        (leaves_bind end_op fun _ => .pure rfl) fun _ s' hw' => ⟨true, true, a, ?_, ?_, hw'⟩
      · exact hbefore (yields_get.mpr (yields_pure.mpr (by simpa using hdir)))
      · refine hbefore (yields_get.mpr ?_)
        rw [if_pos hdir]
        exact yields_pure.mpr rfl
    · have hrefused : Yields (rename_refused sb source) s false :=
        hbefore (yields_get.mpr (yields_pure.mpr (by simpa using hdir)))
      have hno_dest : ∀ {u : Ledger}, u = s.ledger ∨ (∃ b, u = s.ledger.get b) →
          Books (different_parent.no_dest sb a) (u.get a) fun _ w' => w' = u.broken := by
        intro u hu
        have hidle' : u.Idle := by
          rcases hu with rfl | ⟨b, rfl⟩ <;> exact hidle
        refine inode_unlock_put.bind_eq fun _ => leaves_bind end_op fun _ => .pure ?_
        rw [hidle'.get.unlock, Ledger.get_broken, Ledger.get_put]
      refine runs_seq (fun r s3 h3 => ?_) fun _ _ => trivial
      have hw3 := (inode_name _).of_ok hw2 h3
      cases r with
      | none =>
        refine Follows.runs hw3 (hno_dest (.inl rfl)) fun _ s' hw' => ⟨false, false, 0, hrefused, ?_, hw'⟩
        refine hbefore (yields_get.mpr ?_)
        rw [if_neg hdir, if_neg hsame]
        exact (yields_bind h3).mpr (yields_pure.mpr rfl)
      | some b =>
        dsimp only [Option.elim] at hw3
        have hleaks : Yields (rename_leaks sb source dest) s
            (decide ((s3.inodes b).dinode.type ≠ FileType.T_DIR)) := by
          refine hbefore (yields_get.mpr ?_)
          rw [if_neg hdir, if_neg hsame]
          exact (yields_bind h3).mpr (yields_get.mpr (yields_pure.mpr rfl))
        refine runs_bind.mpr (runs_ite.mpr ⟨fun hdir' => ?_, fun hdir' => ?_⟩)
        · rw [Ledger.get_comm] at hw3
          refine Follows.runs hw3 (hno_dest (.inr ⟨b, rfl⟩))
            fun _ s' hw' => ⟨false, true, b, hrefused, ?_, hw'⟩
          simpa [hdir'] using hleaks
        · refine Follows.runs hw3 (move_entry _ _ _ _ hidle)
            fun _ s' hw' => ⟨false, false, b, hrefused, ?_, hw'⟩
          simpa [hdir'] using hleaks

theorem op_rename (source dest : List UInt8) (hidle : s.ledger.Idle) :
    Runs (Xv6fs.op_rename sb source dest) s (fun _ s' => Renames sb source dest s s')
      fun _ => True :=
  runs_ite.mpr ⟨same_parent source dest hidle, different_parent source dest hidle⟩

end Books

/-! ### The discipline -/

variable (sb) in
/-- Whether a call ends before it breaks the lock discipline. -/
def Call.refused : Call → Prog Bool
  | .link source _ => link_refused sb source
  | .unlink path => unlink_refused sb path
  | .rename source _ => rename_refused sb source
  | _ => pure true

theorem Books.Opens.held {r : Option Nat} {w' : Ledger} (h : Books.Opens w r w') :
    w'.held = w.held := by
  cases r with
  | none => rw [h]
  | some i =>
    obtain ⟨-, ip, rfl⟩ := h
    rfl

theorem Books.Settles.held {w' : Ledger} (h : Books.Settles w w') : w'.held = w.held := by
  rcases h with rfl | ⟨i, -, rfl⟩ <;> rfl

theorem Books.close_held {w' : Ledger}
    (h : 1 ≤ w.counts i ∧ (1 < w.counts i → w' = w.setEntry i (w.handles i) (w.counts i - 1)) ∧
      (w.counts i = 1 → ∃ ip, w.handles i = some ip ∧ w' = (w.setEntry i none 0).put ip)) :
    w'.held = w.held := by
  obtain ⟨hcount, hmore, hlast⟩ := h
  rcases Nat.lt_or_eq_of_le hcount with hlt | heq
  · rw [hmore hlt]
    rfl
  · obtain ⟨ip, -, rfl⟩ := hlast heq.symm
    rfl

/-- A call other than a link, an unlink or a rename leaves the locks as they were. -/
theorem Call.run_held {call : Call} (hlink : ∀ p q, call ≠ .link p q)
    (hunlink : ∀ p, call ≠ .unlink p) (hrename : ∀ p q, call ≠ .rename p q) :
    Books (call.run sb) w fun _ w' => w'.held = w.held := by
  have hmap : ∀ {α : Type} {m : Prog α} {f : α → Reply},
      Books m w (fun _ w' => w'.held = w.held) → Books (f <$> m) w fun _ w' => w'.held = w.held :=
    fun h s hs => Program.runs_map.mpr (h s hs)
  cases call with
  | create path mode => exact hmap ((Books.op_create _ _).imp fun _ _ h => h.held)
  | mkdir path => exact hmap ((Books.op_mkdir _).imp fun _ _ h => by rw [h])
  | «open» path flags => exact hmap ((Books.op_open _ _).imp fun _ _ h => h.held)
  | read fh buf size offset => exact hmap ((Books.op_read _ _ _).imp fun _ _ h => by rw [h])
  | write fh buf size offset => exact hmap ((Books.op_write _ _ _).imp fun _ _ h => by rw [h])
  | truncate path length => exact hmap ((Books.op_truncate _ _).imp fun _ _ h => h.held)
  | getattr path => exact hmap ((Books.op_getattr _).imp fun _ _ h => h.held)
  | readdir fh full offset => exact hmap ((Books.op_readdir _ _).imp fun _ _ h => by rw [h])
  | flush => exact hmap (Books.op_flush.imp fun _ _ h => by rw [h])
  | release fh => exact hmap ((Books.ofile_close _).bind fun _ _ h => .pure (Books.close_held h))
  | link p q => exact absurd rfl (hlink p q)
  | unlink p => exact absurd rfl (hunlink p)
  | rename p q => exact absurd rfl (hrename p q)

theorem Ledger.breach_held {refused : Bool} (h : w.held = some []) :
    (w.breach refused).held = some [] ↔ refused = true := by
  cases refused <;> simp [breach, broken, h]

end Xv6fs
