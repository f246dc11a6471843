import Xv6fs.Fs.ReadWrite

/-! How many blocks the operations on inodes add to the log. -/

namespace Xv6fs

open Program (Runs Spends)

variable (sb : SuperBlock)

/-- The number of blocks that the log has room for. -/
def Fs.log_limit : Nat := min LOG_SIZE (sb.nlog - 1)

/-- A run of `m` adds at most `c` blocks to the log, which is too big only when there is no room for
these. -/
abbrev Logs {α : Type} (m : Prog α) (c : Nat) : Prop :=
  Spends (fun s : Fs => s.log.length) TooBig (Fs.log_limit sb) m c

variable {sb}

theorem record_logs (e : Event) : Logs sb (record e) 0 := .modify fun _ => Nat.le_refl _

theorem modify_block_logs (b : Nat) (f : BlockData → BlockData) : Logs sb (modify_block b f) 0 :=
  .modify fun _ => Nat.le_refl _

theorem modify_inode_logs (x : Nat) (f : INode → INode) : Logs sb (modify_inode x f) 0 :=
  .modify fun _ => Nat.le_refl _

theorem log_write_logs (b : Nat) : Logs sb (Fs.log_write sb b) 1 := by
  intro s
  simp only [Fs.log_write, record, Program.runs_bind, Program.runs_get, Program.runs_assert,
    Program.runs_modify]
  refine ⟨fun _ => ⟨fun _ => ?_, fun _ ho => by cases ho⟩, fun h _ => ?_⟩
  · split
    · exact Nat.le_add_right _ _
    · exact Nat.le_of_eq List.length_append
  · rw [Fs.log_limit]
    omega

theorem modify_log_write_logs (b : Nat) (f : BlockData → BlockData) :
    Logs sb (do modify_block b f; Fs.log_write sb b) 1 :=
  (modify_block_logs b f).bind_free fun _ => log_write_logs b

theorem block_alloc_logs : Logs sb (block_alloc sb) 2 := by
  have loop : ∀ fuel b, Logs sb (block_alloc_from sb fuel b) 2 := by
    intro fuel
    induction fuel with
    | zero => exact fun b => (Spends.pure 0).mono (by omega)
    | succ fuel ih =>
      intro b
      rw [block_alloc_from]
      refine .ite (fun _ => Spends.get.bind_free fun s => ?_) fun _ =>
        (Spends.pure 0).mono (by omega)
      split
      · next bi _ =>
        rw [← bind_assoc]
        exact (modify_log_write_logs _ _).bind fun _ =>
          (modify_log_write_logs _ _).bind (d := 0) fun _ => Spends.pure _
      · exact ih _
  exact loop _ _

theorem block_map_addr_logs (x k : Nat) : Logs sb (block_map_addr sb x k) 2 := by
  refine Spends.get.bind_free fun s => .ite (fun _ => ?_) fun _ => (Spends.pure _).mono (by omega)
  refine block_alloc_logs.bind (d := 0) fun b => .ite (fun _ => Spends.pure _) fun _ => ?_
  exact (modify_inode_logs _ _).bind_free fun _ => Spends.pure _

theorem block_map_indirect_logs (ind j : Nat) : Logs sb (block_map_indirect sb ind j) 3 := by
  refine Spends.get.bind_free fun s => .ite (fun _ => ?_) fun _ => (Spends.pure _).mono (by omega)
  refine block_alloc_logs.bind (d := 1) fun b => .ite (fun _ => ?_) fun _ =>
    (Spends.pure _).mono (by omega)
  rw [← bind_assoc]
  exact (modify_log_write_logs _ _).bind (d := 0) fun _ => Spends.pure _

theorem block_map_logs (x n : Nat) : Logs sb (block_map sb x n) 5 := by
  refine .ite (fun _ => (block_map_addr_logs x n).mono (by omega)) fun _ => .ite (fun _ => ?_)
    fun _ => .throw fun h => by cases h
  exact (block_map_addr_logs x NDIRECT).bind (d := 3) fun ind =>
    .ite (fun _ => (Spends.pure _).mono (by omega)) fun _ => block_map_indirect_logs _ _

/-- The number of blocks that `n` bytes at `off` touch. -/
def touched (off n : Nat) : Nat := if n = 0 then 0 else (off % BSIZE + (n - 1)) / BSIZE + 1

/-- An iteration of `write` takes one block off those that its range touches. -/
theorem touched_step (off : Nat) {n m : Nat} (hn : 0 < n) (hm : m = min n (BSIZE - off % BSIZE)) :
    touched (off + m) (n - m) + 1 ≤ touched off n := by
  unfold touched
  rw [if_neg (by omega : n ≠ 0)]
  split
  · exact Nat.le_add_left _ _
  · next hne =>
    simp only [BSIZE] at *
    omega

theorem write_loop_logs (x : Nat) (buf : Bytes.Source) (n fuel tot off : Nat) :
    Logs sb (INode.write_loop sb x buf n fuel tot off) (6 * touched off (n - tot)) := by
  induction fuel generalizing tot off with
  | zero => exact (Spends.pure _).mono (Nat.zero_le _)
  | succ fuel ih =>
    rw [INode.write_loop]
    refine .ite (fun hlt => ?_) fun _ => (Spends.pure _).mono (Nat.zero_le _)
    have hstep := touched_step off (n := n - tot) (by omega) rfl
    rw [Nat.sub_sub] at hstep
    refine ((block_map_logs x _).bind (d := 1 + 6 * touched
      (off + min (n - tot) (BSIZE - off % BSIZE))
      (n - (tot + min (n - tot) (BSIZE - off % BSIZE)))) fun b => ?_).mono (by omega)
    refine .ite (fun _ => (Spends.pure _).mono (Nat.zero_le _)) fun _ => ?_
    rw [← bind_assoc]
    exact (modify_log_write_logs _ _).bind fun _ => ih _ _

theorem update_logs (x : Nat) : Logs sb (INode.update sb x) 1 :=
  (record_logs _).bind_free fun _ => Spends.get.bind_free fun _ => modify_log_write_logs _ _

/-- `write` logs a few blocks for each block that it touches, and the inode. -/
theorem write_logs (x : Nat) (buf : Bytes.Source) (off n : Nat) :
    Logs sb (INode.write sb x buf off n) (6 * touched off n + 1) := by
  refine (record_logs _).bind_free fun _ => Spends.get.bind_free fun s =>
    .ite (fun _ => (Spends.pure _).mono (Nat.zero_le _)) fun _ =>
    .ite (fun _ => (Spends.pure _).mono (Nat.zero_le _)) fun _ => ?_
  refine (write_loop_logs x buf n n 0 off).bind fun r => ?_
  refine (modify_inode_logs x _).bind_free fun _ => ?_
  exact (update_logs x).bind (d := 0) fun _ => Spends.pure _

end Xv6fs
