import Xv6fs.Fs.Ops

/-! The ledger of an operation: the references to inodes, the handles, and the locks that the
operation holds.  Most of what an operation does leaves it as it is, whatever the rest of the state
is, so an operation can be followed through the ledger alone. -/

namespace Xv6fs

open Program (Follows)

/-- The locks that an operation holds after its events, last first, if each unlock and each access
was of an inode whose lock it held. -/
def holding : List Event → Option (List Nat)
  | [] => some []
  | .lock x :: rest => (holding rest).map (x :: ·)
  | .unlock x :: rest => (holding rest).bind fun held => if x ∈ held then some (held.erase x) else none
  | .access x :: rest => (holding rest).bind fun held => if x ∈ held then some held else none
  | .begin_op :: rest | .end_op :: rest | .log_write _ :: rest => holding rest

/-- The references to inodes, the inodes of the open handles, the reference counts of the entries of
the file table, and the locks that the operation holds. -/
@[ext] structure Ledger where
  refs : Nat → Nat
  handles : Nat → Option Nat
  counts : Nat → Nat
  held : Option (List Nat)

/-- The inode of an entry of the file table that is open. -/
def OFile.handle (f : OFile) : Option Nat := if f.type = .FD_NONE then Option.none else some f.ip

def Fs.ledger (s : Fs) : Ledger where
  refs x := (s.inodes x).ref
  handles i := (s.files i).handle
  counts i := (s.files i).ref
  held := holding s.trace

namespace Ledger

variable (w : Ledger) (x y : Nat)

def get : Ledger := { w with refs := setAt w.refs x (w.refs x + 1) }

def put : Ledger := { w with refs := setAt w.refs x (w.refs x - 1) }

def lock : Ledger := { w with held := w.held.map (x :: ·) }

def unlock : Ledger := { w with
  held := w.held.bind fun held => if x ∈ held then some (held.erase x) else none }

def access : Ledger := { w with held := w.held.bind fun held => if x ∈ held then some held else none }

/-- Entry `i` of the file table changes: its inode when it is open, and its reference count. -/
def setEntry (i : Nat) (ip : Option Nat) (count : Nat) : Ledger := { w with
  handles := setAt w.handles i ip
  counts := setAt w.counts i count }

@[simp] theorem lock_access : (w.lock x).access x = w.lock x := by
  rcases w with ⟨refs, handles, counts, _ | held⟩ <;> simp [lock, access]

@[simp] theorem lock_unlock : (w.lock x).unlock x = w := by
  rcases w with ⟨refs, handles, counts, _ | held⟩ <;> simp [lock, unlock]

@[simp] theorem access_access : (w.access x).access x = w.access x := by
  rcases w with ⟨refs, handles, counts, _ | held⟩
  · rfl
  · by_cases h : x ∈ held <;> simp [access, h]

theorem lock_lock_access : ((w.lock x).lock y).access x = (w.lock x).lock y := by
  rcases w with ⟨refs, handles, counts, _ | held⟩ <;> simp [lock, access]

theorem lock_lock_unlock : ((w.lock x).lock y).unlock x = w.lock y := by
  rcases w with ⟨refs, handles, counts, _ | held⟩
  · rfl
  · by_cases h : y = x <;> simp [lock, unlock, h]

@[simp] theorem get_put : (w.get x).put x = w := by
  ext1
  · funext z
    simp only [put, get, setAt_apply]
    split <;> simp_all
  · rfl
  · rfl
  · rfl

theorem get_get_put : ((w.get x).get y).put x = w.get y := by
  ext1
  · funext z
    simp only [put, get, setAt_apply]
    grind
  · rfl
  · rfl
  · rfl

theorem get_comm : (w.get x).get y = (w.get y).get x := by
  ext1
  · funext z
    simp only [get, setAt_apply]
    grind
  · rfl
  · rfl
  · rfl

theorem get_lock : (w.get x).lock y = (w.lock y).get x := rfl

theorem get_unlock : (w.get x).unlock y = (w.unlock y).get x := rfl

theorem get_access : (w.get x).access y = (w.access y).get x := rfl

@[simp] theorem setEntry_setEntry (i : Nat) (ip ip' : Option Nat) (count count' : Nat) :
    (w.setEntry i ip' count').setEntry i ip count = w.setEntry i ip count := by
  simp only [setEntry, setAt_setAt]

theorem lock_setEntry (i : Nat) (ip : Option Nat) (count : Nat) :
    (w.lock x).setEntry i ip count = (w.setEntry i ip count).lock x := rfl

theorem get_setEntry (i : Nat) (ip : Option Nat) (count : Nat) :
    (w.get x).setEntry i ip count = (w.setEntry i ip count).get x := rfl

end Ledger

/-- A run of `m` from a state with ledger `w` establishes `Q` of its result and of the ledger. -/
abbrev Books {α : Type} (m : Prog α) (w : Ledger) (Q : α → Ledger → Prop) : Prop :=
  Follows Fs.ledger m w Q

/-- A run of `m` leaves the ledger `w` as it is. -/
abbrev Leaves {α : Type} (m : Prog α) (w : Ledger) : Prop := Books m w fun _ w' => w' = w

variable {sb : SuperBlock} {w : Ledger} {x i : Nat}

namespace Books

theorem leaves_bind {α β : Type} {m : Prog α} {f : α → Prog β} {R : β → Ledger → Prop}
    (h : Leaves m w) (hf : ∀ a, Books (f a) w R) : Books (m >>= f) w R :=
  h.bind fun a w' hw => by
    subst hw
    exact hf a

theorem record_lock : Books (record (.lock x)) w fun _ w' => w' = w.lock x := by
  rintro s rfl
  rfl

theorem record_unlock : Books (record (.unlock x)) w fun _ w' => w' = w.unlock x := by
  rintro s rfl
  rfl

theorem record_access : Books (record (.access x)) w fun _ w' => w' = w.access x := by
  rintro s rfl
  rfl

theorem modify_block (b : Nat) (f : BlockData → BlockData) : Leaves (modify_block b f) w := by
  rintro s rfl
  rfl

/-- A change of an inode in the cache that keeps its references. -/
theorem modify_inode (f : INode → INode) (hf : ∀ ip, (f ip).ref = ip.ref) :
    Leaves (modify_inode x f) w := by
  rintro s rfl
  refine Ledger.ext (funext fun y => ?_) rfl rfl rfl
  simp only [Fs.ledger, setAt_apply]
  split
  · next hy => rw [hy, hf]
  · rfl

theorem modify_dinode (f : DiskINode → DiskINode) : Leaves (modify_dinode x f) w :=
  modify_inode _ fun _ => rfl

theorem begin_op : Leaves Fs.begin_op w := by
  refine Follows.get_bind fun _ _ => Follows.assert_bind fun _ => ?_
  rintro s rfl
  rfl

theorem end_op : Leaves Fs.end_op w := by
  rintro s rfl
  rfl

theorem log_write (b : Nat) : Leaves (Fs.log_write sb b) w := by
  refine Follows.get_bind fun _ _ => Follows.assert_bind fun _ => Follows.assert_bind fun _ => ?_
  rintro s rfl
  rfl

theorem block_alloc_from (fuel b : Nat) : Leaves (block_alloc_from sb fuel b) w := by
  induction fuel generalizing b with
  | zero => exact .pure rfl
  | succ fuel ih =>
    rw [Xv6fs.block_alloc_from]
    refine Follows.ite (fun _ => Follows.get_bind fun s _ => ?_) fun _ => Follows.pure rfl
    split
    · refine leaves_bind (modify_block _ _) fun _ => leaves_bind (log_write _) fun _ => ?_
      exact leaves_bind (leaves_bind (modify_block _ _) fun _ => log_write _) fun _ => .pure rfl
    · exact ih _

theorem block_alloc : Leaves (block_alloc sb) w := block_alloc_from _ _

theorem block_free (b : Nat) : Leaves (block_free sb b) w :=
  Follows.get_bind fun _ _ => Follows.assert_bind fun _ =>
    leaves_bind (modify_block _ _) fun _ => log_write _

/-! ### Inodes -/

/-- A program whose ledger is a function of its result goes first. -/
theorem bind_eq {α β : Type} {m : Prog α} {f : α → Prog β} {g : α → Ledger} {R : β → Ledger → Prop}
    (h : Books m w fun a w' => w' = g a) (hf : ∀ a, Books (f a) (g a) R) : Books (m >>= f) w R :=
  h.bind fun a w' hw => by
    subst hw
    exact hf a

theorem mtx_lock : Books (mtx_lock x) w fun _ w' => w' = w.lock x :=
  Follows.get_bind fun _ _ => Follows.assert_bind fun _ => record_lock.bind_eq fun _ =>
    modify_inode _ fun _ => rfl

theorem mtx_unlock : Books (mtx_unlock x) w fun _ w' => w' = w.unlock x :=
  record_unlock.bind_eq fun _ => modify_inode _ fun _ => rfl

theorem lock : Books (INode.lock sb x) w fun _ w' => w' = w.lock x := by
  refine Follows.get_bind fun s _ => Follows.assert_bind fun _ => mtx_lock.bind_eq fun _ => ?_
  refine Follows.ite (fun _ => ?_) fun _ => .pure rfl
  exact leaves_bind (modify_inode _ fun _ => rfl) fun _ => Follows.assert fun _ => rfl

theorem unlock : Books (INode.unlock x) w fun _ w' => w' = w.unlock x :=
  Follows.get_bind fun _ _ => Follows.assert_bind fun _ => mtx_unlock

theorem update : Books (INode.update sb x) w fun _ w' => w' = w.access x :=
  record_access.bind_eq fun _ => Follows.get_bind fun _ _ =>
    leaves_bind (modify_block _ _) fun _ => log_write _

theorem trunc_direct (l : List Nat) : Leaves (INode.trunc_direct sb x l) w := by
  induction l with
  | nil => exact .pure rfl
  | cons i rest ih =>
    refine Follows.get_bind fun s _ => Follows.ite (fun _ => ?_) fun _ => ih
    exact leaves_bind (block_free _) fun _ => leaves_bind (modify_dinode _) fun _ => ih

theorem trunc_indirect (ind : Nat) (l : List Nat) : Leaves (INode.trunc_indirect sb ind l) w := by
  induction l with
  | nil => exact .pure rfl
  | cons j rest ih =>
    refine Follows.get_bind fun s _ => Follows.ite (fun _ => ?_) fun _ => ih
    exact leaves_bind (block_free _) fun _ => ih

theorem trunc_rest : Leaves (INode.trunc_rest sb x) w := by
  refine Follows.get_bind fun s _ => Follows.ite (fun _ => ?_) fun _ => .pure rfl
  exact leaves_bind (trunc_indirect _ _) fun _ => leaves_bind (block_free _) fun _ =>
    modify_dinode _

theorem trunc : Books (INode.trunc sb x) w fun _ w' => w' = w.access x := by
  refine record_access.bind_eq fun _ => leaves_bind (trunc_direct _) fun _ =>
    leaves_bind trunc_rest fun _ => leaves_bind (modify_dinode _) fun _ => update.imp ?_
  rintro - w' rfl
  exact w.access_access x

theorem block_map_addr (k : Nat) : Leaves (block_map_addr sb x k) w := by
  refine Follows.get_bind fun s _ => Follows.ite (fun _ => ?_) fun _ => .pure rfl
  refine leaves_bind block_alloc fun _ => Follows.ite (fun _ => .pure rfl) fun _ => ?_
  exact leaves_bind (modify_dinode _) fun _ => .pure rfl

theorem block_map_indirect (ind j : Nat) : Leaves (block_map_indirect sb ind j) w := by
  refine Follows.get_bind fun s _ => Follows.ite (fun _ => ?_) fun _ => .pure rfl
  refine leaves_bind block_alloc fun _ => Follows.ite (fun _ => ?_) fun _ => .pure rfl
  exact leaves_bind (modify_block _ _) fun _ => leaves_bind (log_write _) fun _ => .pure rfl

theorem block_map (k : Nat) : Leaves (block_map sb x k) w := by
  refine Follows.ite (fun _ => block_map_addr _) fun _ => Follows.ite (fun _ => ?_) fun _ => .throw
  exact leaves_bind (block_map_addr _) fun _ => Follows.ite (fun _ => .pure rfl) fun _ =>
    block_map_indirect _ _

theorem read_loop (n fuel tot off : Nat) (buf : Bytes.Source) :
    Leaves (INode.read_loop sb x n fuel tot off buf) w := by
  induction fuel generalizing tot off buf with
  | zero => exact .pure rfl
  | succ fuel ih =>
    refine Follows.ite (fun _ => leaves_bind (block_map _) fun _ => ?_) fun _ => .pure rfl
    exact Follows.ite (fun _ => .pure rfl) fun _ => Follows.get_bind fun _ _ => ih _ _ _

theorem read (buf : Bytes.Source) (off n : Nat) :
    Books (INode.read sb x buf off n) w fun _ w' => w' = w.access x :=
  record_access.bind_eq fun _ => Follows.get_bind fun _ _ =>
    Follows.ite (fun _ => .pure rfl) fun _ => read_loop _ _ _ _ _

theorem write_loop (buf : Bytes.Source) (n fuel tot off : Nat) :
    Leaves (INode.write_loop sb x buf n fuel tot off) w := by
  induction fuel generalizing tot off with
  | zero => exact .pure rfl
  | succ fuel ih =>
    refine Follows.ite (fun _ => leaves_bind (block_map _) fun _ => ?_) fun _ => .pure rfl
    exact Follows.ite (fun _ => .pure rfl) fun _ => leaves_bind (modify_block _ _) fun _ =>
      leaves_bind (log_write _) fun _ => ih _ _

theorem write (buf : Bytes.Source) (off n : Nat) :
    Books (INode.write sb x buf off n) w fun _ w' => w' = w.access x := by
  refine record_access.bind_eq fun _ => Follows.get_bind fun _ _ =>
    Follows.ite (fun _ => .pure rfl) fun _ => Follows.ite (fun _ => .pure rfl) fun _ => ?_
  refine leaves_bind (write_loop _ _ _ _ _) fun _ => leaves_bind (modify_dinode _) fun _ =>
    update.bind_eq fun _ => .pure (w.access_access x)

/-! ### The inode cache -/

theorem inode_get : Books (inode_get x) w fun _ w' => w' = w.get x := by
  rintro s rfl
  refine Ledger.ext (funext fun y => ?_) rfl rfl rfl
  simp only [Fs.ledger, Ledger.get, setAt_apply]
  split <;> rfl

theorem inode_alloc (type : UInt16) :
    Books (inode_alloc sb type) w fun r w' => w' = r.elim w w.get := by
  have hloop : ∀ fuel inum, Books (inode_alloc_from sb type fuel inum) w
      fun r w' => w' = r.elim w w.get := by
    intro fuel
    induction fuel with
    | zero => exact fun _ => .pure rfl
    | succ fuel ih =>
      intro inum
      refine Follows.ite (fun _ => Follows.get_bind fun s _ => ?_) fun _ => .pure rfl
      refine Follows.ite (fun _ => ?_) fun _ => ih _
      exact leaves_bind (modify_block _ _) fun _ => leaves_bind (log_write _) fun _ =>
        inode_get.bind_eq fun _ => .pure rfl
  exact hloop _ _

theorem inode_free : Leaves (inode_free sb x) w := by
  refine mtx_lock.bind_eq fun _ => trunc.bind_eq fun _ => leaves_bind (modify_dinode _) fun _ => ?_
  refine update.bind_eq fun _ => leaves_bind (modify_inode _ fun _ => rfl) fun _ => mtx_unlock.imp ?_
  rintro - w' rfl
  simp

theorem inode_drop : Books (inode_drop x) w fun _ w' => w' = w.put x := by
  rintro s rfl
  refine Ledger.ext (funext fun y => ?_) rfl rfl rfl
  simp only [Fs.ledger, Ledger.put, setAt_apply]
  split
  · split
    · next h0 => exact h0.symm
    · rfl
  · rfl

theorem inode_put : Books (inode_put sb x) w fun _ w' => w' = w.put x := by
  refine Follows.get_bind fun s _ => Follows.ite (fun _ => ?_) fun _ => inode_drop
  exact leaves_bind inode_free fun _ => inode_drop

theorem inode_unlock_put : Books (inode_unlock_put sb x) w fun _ w' => w' = (w.unlock x).put x :=
  unlock.bind_eq fun _ => inode_put

/-! ### Directories and paths -/

theorem dirlookup (name : List UInt8) : Books (INode.dirlookup sb x name) w
    fun r w' => w' = r.elim (w.access x) fun p => (w.access x).get p.1 := by
  have hloop : ∀ fuel off, Books (INode.dirlookup_loop sb x name fuel off) (w.access x)
      fun r w' => w' = r.elim (w.access x) fun p => (w.access x).get p.1 := by
    intro fuel
    induction fuel with
    | zero => exact fun _ => .pure rfl
    | succ fuel ih =>
      intro off
      refine Follows.get_bind fun s _ => Follows.ite (fun _ => ?_) fun _ => .pure rfl
      refine (read _ _ _).bind_eq fun r => ?_
      rw [Ledger.access_access]
      refine Follows.assert_bind fun _ => Follows.ite (fun _ => ih _) fun _ => ?_
      split
      · exact .throw
      · exact inode_get.bind_eq fun _ => .pure rfl
      · exact ih _
  exact record_access.bind_eq fun _ => Follows.get_bind fun _ _ => Follows.assert_bind fun _ =>
    hloop _ _

theorem dirlink_slot (fuel off : Nat) (hx : w.access x = w) :
    Leaves (INode.dirlink_slot sb x fuel off) w := by
  induction fuel generalizing off with
  | zero => exact .pure rfl
  | succ fuel ih =>
    refine Follows.get_bind fun s _ => Follows.ite (fun _ => ?_) fun _ => .pure rfl
    refine (read _ _ _).bind_eq fun r => ?_
    rw [hx]
    exact Follows.assert_bind fun _ => Follows.ite (fun _ => .pure rfl) fun _ => ih _

theorem dirlink (name : List UInt8) (inum : Nat) :
    Books (INode.dirlink sb x name inum) w fun _ w' => w' = w.access x := by
  refine record_access.bind_eq fun _ => (dirlookup name).bind_eq fun r => ?_
  rw [Ledger.access_access]
  cases r with
  | some p =>
    refine inode_put.bind_eq fun _ => .pure ?_
    simp
  | none =>
    refine Follows.get_bind fun _ _ => leaves_bind (dirlink_slot _ _ (by simp)) fun _ => ?_
    exact (write _ _ _).bind_eq fun _ => .pure (by simp)

/-- The reference that a walk along a path ends with. -/
def found (w : Ledger) (r : Option (Nat × List UInt8)) : Ledger := r.elim w fun p => w.get p.1

theorem inode_name_loop (nameiparent : Bool) (fuel : Nat) (path name : List UInt8) (ip : Nat)
    (hfuel : path.length < fuel) : Books (inode_name_loop sb nameiparent fuel path name ip) (w.get ip)
      fun r w' => w' = found w r := by
  induction fuel generalizing path name ip with
  | zero => omega
  | succ fuel ih =>
    rw [Xv6fs.inode_name_loop]
    cases hskip : skipelem path with
    | none =>
      refine Follows.ite (fun _ => inode_put.bind_eq fun _ => .pure ?_) fun _ => .pure rfl
      exact w.get_put ip
    | some e =>
      obtain ⟨name', path'⟩ := e
      have hlen := skipelem_length hskip
      refine lock.bind_eq fun _ => Follows.get_bind fun s _ => ?_
      refine Follows.ite (fun _ => inode_unlock_put.bind_eq fun _ => .pure ?_) fun _ => ?_
      · simp [found]
      refine Follows.ite (fun _ => unlock.bind_eq fun _ => .pure ?_) fun _ => ?_
      · simp [found]
      refine (dirlookup _).bind_eq fun r => ?_
      cases r with
      | none =>
        refine inode_unlock_put.bind_eq fun _ => .pure ?_
        simp [found]
      | some p =>
        refine inode_unlock_put.bind_eq fun _ => ?_
        have hw : ((((((w.get ip).lock ip).access ip).get p.1).unlock ip).put ip) = w.get p.1 := by
          rw [Ledger.lock_access, Ledger.get_unlock, Ledger.lock_unlock, Ledger.get_get_put]
        dsimp only [Option.elim]
        rw [hw]
        exact ih _ _ _ (by omega)

end Books

end Xv6fs
