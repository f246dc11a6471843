import Xv6fs.Files.Orderly
import Xv6fs.Fs.Effects

/-! What a removal and a rename do to a state that is in order: to the entries, to the paths, and to
the free blocks. -/

namespace Xv6fs

open Program (Runs)

variable {sb : SuperBlock} {s s' : Fs} {a a' : AbsFs} {n x dp i ip src dst : Nat} {r : Int}
  {path source dest old new : List UInt8}

/-! ### `do_unlink` -/

set_option maxRecDepth 100000 in
/-- A directory is made and removed. -/
theorem removal_run : Runs ((Call.mkdir [47, 100]).run rootSb) rootFs (fun _ s =>
    resolve (s.abs rootSb).node [47, 100] = some 2 ∧ ((s.abs rootSb).freed 2).card = 1 ∧
    Runs (do_unlink rootSb [47, 100]) s (fun r s' => r = 0 ∧
      resolve (s'.abs rootSb).node [47, 100] = none) fun _ => False) fun _ => False := by
  decide +kernel

set_option maxRecDepth 100000 in
/-- A file gets another name. -/
theorem retitling_run : Runs ((Call.create [47, 102] 2).run rootSb) rootFs (fun _ s =>
    resolve (s.abs rootSb).node [47, 46] = some ROOTINO ∧
    resolve (s.abs rootSb).node [47, 46, 47, 102] = some 2 ∧
    resolve (s.abs rootSb).node [47, 46, 47, 103] = none ∧
    (ROOTINO, [102]) ∉ walk (s.abs rootSb).node [47, 46] ∧
    Runs (op_rename rootSb [47, 46, 47, 102] [47, 46, 47, 103]) s (fun r _ => r = 0) fun _ => False)
    fun _ => False := by decide +kernel

/-- A rename from one directory of a tree to another either leaves all entries, or adds one to the
other directory and puts the last entry of the first in the place of the one that is found.  The new
name then stands for the old one exactly if that last entry names nothing.  No links are counted,
and a directory goes on naming the one that it was in. -/
theorem rename_between_directories (hl : Layout sb) (hroot : ROOTINO < sb.ninodes) (h : Wf sb s)
    (ht : (s.abs sb).Tree sb.ninodes)
    (hnames : Renaming (Path.filename source) (Path.filename dest))
    (hother : ¬Path.same (Path.parent_path source) (Path.parent_path dest))
    (hrun : op_rename sb source dest s = .ok (r, s')) :
    (r ≠ 0 → ∀ x, ((s'.abs sb).node x).type = ((s.abs sb).node x).type ∧
      ((s'.abs sb).node x).nlink = ((s.abs sb).node x).nlink ∧
      ((s'.abs sb).node x).dir = ((s.abs sb).node x).dir) ∧
    (r = 0 → ∃ src dst ip, resolve (s.abs sb).node (Path.parent_path source) = some src ∧
      resolve (s.abs sb).node (Path.parent_path dest) = some dst ∧
      resolve (s.abs sb).node source = some ip ∧ resolve (s.abs sb).node dest = none ∧
      (src ≠ dst → (s'.abs sb).ref = (s.abs sb).ref ∧
        (∀ x, ((s'.abs sb).node x).nlink = ((s.abs sb).node x).nlink) ∧
        (∀ x, ((s.abs sb).node x).type = FileType.T_DIR → (s'.abs sb).up x = (s.abs sb).up x) ∧
        (Renamed (s.abs sb) (s'.abs sb) (src, Path.filename source) (dst, Path.filename dest) ip ↔
          ¬(((s.abs sb).node src).dir.getD (((s.abs sb).node src).dir.length - 1) .zero).Live) ∧
        (Renamed (s.abs sb) (s'.abs sb) (src, Path.filename source) (dst, Path.filename dest) ip →
          RenamedPaths (s.abs sb) (s'.abs sb) (src, Path.filename source) (dst, Path.filename dest) ip
            source dest))) := by
  obtain ⟨hwf', ⟨a', hq, habs⟩, -⟩ := (h.op_rename hl hroot source dest).of_ok hrun
  rw [if_neg hother] at hq
  have hnode : (s'.abs sb).node = a'.node := by rw [habs]; rfl
  obtain ⟨hkept, heffect⟩ := hq.effect (ht.congr rfl rfl rfl)
  refine ⟨fun hr => hnode ▸ hkept hr, fun hr => ?_⟩
  obtain ⟨src, dst, i, hsrc, hdst, hsdir, hddir, hi, hfree, hmoved⟩ := heffect hr
  obtain ⟨hentry, hpos, hlt⟩ := ht.found hl.inums hsdir hi hnames.proper
  have hold : lookupEntry ((s.abs sb).node src).dir (Path.filename source) =
      some (entryInum ((s.abs sb).node src).dir i) := lookup_of_find hi
  have hnone := lookupEntry_eq_none.mpr hfree
  refine ⟨src, dst, entryInum ((s.abs sb).node src).dir i, hsrc, hdst, ?_, ?_, fun hne => ?_⟩
  · exact (resolve_of_parent_path hnames.old_some (lookupEntry_length hold) hsrc hsdir).trans hold
  · exact (resolve_of_parent_path hnames.new_some hnames.len hdst hddir).trans hnone
  · obtain ⟨href, hrelocated⟩ := hmoved hne
    have hrelocated : Relocated (s.abs sb) src i (entryInum ((s.abs sb).node src).dir i) dst
        (Path.filename dest) (((s.abs sb).node src).dir.getD
          (((s.abs sb).node src).dir.length - 1) .zero) (s'.abs sb) := by
      rw [habs]
      exact ⟨hrelocated.source, hrelocated.dest, hrelocated.others⟩
    have hrel : Relocates sb.ninodes (s.abs sb) src i (entryInum ((s.abs sb).node src).dir i) dst
        (Path.filename source) (Path.filename dest) :=
      ⟨ht, hsdir, hddir, hne, hentry, ⟨hpos, hlt, hnames.len, hnames.nul⟩, hnone⟩
    refine ⟨by rw [habs]; exact href, fun x => hrelocated.fields.2, fun x => hrel.up_eq hrelocated,
      hrel.renamed_iff hrelocated rfl, fun hren => ?_⟩
    exact hren.paths hnames (fun x => hrelocated.fields.1) (fun heq => hne (congrArg Prod.fst heq))
      hnone hsrc hdst hsdir hddir hold

set_option synthInstance.maxHeartbeats 400000 in
set_option synthInstance.maxSize 1000 in
set_option maxRecDepth 100000 in
/-- A file is moved to the root from a directory whose last entry has been removed. -/
theorem moving_run : Runs ((Call.mkdir [47, 100]).run rootSb) rootFs (fun _ s1 =>
    Runs ((Call.create [47, 100, 47, 102] 2).run rootSb) s1 (fun _ s2 =>
    Runs ((Call.create [47, 100, 47, 103] 2).run rootSb) s2 (fun _ s3 =>
    resolve (s3.abs rootSb).node [47, 100, 47, 103] = some 4 ∧
    ((s3.abs rootSb).node 4).type = FileType.T_FILE ∧
    Runs ((Call.unlink [47, 100, 47, 103]).run rootSb) s3 (fun _ s =>
    resolve (s.abs rootSb).node [47, 100, 47, 46] = some 2 ∧
    resolve (s.abs rootSb).node [47, 46] = some ROOTINO ∧
    resolve (s.abs rootSb).node [47, 100, 47, 46, 47, 102] = some 3 ∧
    ¬(((s.abs rootSb).node 2).dir.getD (((s.abs rootSb).node 2).dir.length - 1) .zero).Live ∧
    (2, [102]) ∉ walk (s.abs rootSb).node [47, 46] ∧
    Runs (op_rename rootSb [47, 100, 47, 46, 47, 102] [47, 46, 47, 103]) s (fun r _ => r = 0)
      fun _ => False) fun _ => False) fun _ => False) fun _ => False) fun _ => False := by
  decide +kernel

/-- The file has its new name in the root. -/
theorem rename_between_directories_file : ∃ s s' : Fs,
    op_rename rootSb [47, 100, 47, 46, 47, 102] [47, 46, 47, 103] s = .ok (0, s') ∧
    resolve (s'.abs rootSb).node [47, 100, 47, 46, 47, 102] = none ∧
    resolve (s'.abs rootSb).node [47, 46, 47, 103] = some 3 := by
  obtain ⟨r1, s1, hmkdir, hrun⟩ := moving_run.returns
  obtain ⟨r2, s2, hcreate, hrun⟩ := hrun.returns
  obtain ⟨r3, s3, hcreate', hfile, htype, hrun⟩ := hrun.returns
  obtain ⟨r4, s, hunlink, hsrc, hdst, hip, hdead, hwalk, hrun⟩ := hrun.returns
  obtain ⟨r, s', hrename, rfl⟩ := hrun.returns
  have hord : Orderly rootSb s3 (.unlink [47, 100, 47, 103]) := by
    intro x hx hdir
    cases hfile.symm.trans hx
    rw [htype] at hdir
    exact absurd hdir (by decide)
  have hreach : Transition.Reach (StartedTree rootSb) (Call.step rootSb) (Orderly rootSb) s2 :=
    .next (.create [47, 100, 47, 102] 2) (.next (.mkdir [47, 100]) (.start rootFs_started_tree)
      (by decide : 0 ∉ ([47, 100] : List UInt8)) (Call.step_eq_some.mpr ⟨r1, hmkdir⟩))
      (by decide : 0 ∉ ([47, 100, 47, 102] : List UInt8)) (Call.step_eq_some.mpr ⟨r2, hcreate⟩)
  have hs : Settles rootSb s := reach_settles rootSb_layout (by decide) <|
    .next (.unlink [47, 100, 47, 103]) (.next (.create [47, 100, 47, 103] 2) hreach
      (by decide : 0 ∉ ([47, 100, 47, 103] : List UInt8)) (Call.step_eq_some.mpr ⟨r3, hcreate'⟩))
      hord (Call.step_eq_some.mpr ⟨r4, hunlink⟩)
  obtain ⟨-, hdone⟩ := rename_between_directories rootSb_layout (by decide) hs.rests.wf hs.tree
    ⟨by decide, by decide, by decide, by decide, by decide⟩ (by decide) hrename
  obtain ⟨src, dst, ip, hsrc', hdst', hip', -, hmoved⟩ := hdone rfl
  cases hsrc.symm.trans hsrc'
  cases hdst.symm.trans hdst'
  cases hip.symm.trans hip'
  obtain ⟨-, -, -, hiff, hpaths⟩ := hmoved (by decide)
  have hpaths := hpaths (hiff.mpr hdead)
  exact ⟨s, s', hrename, hpaths.source, hpaths.dest hwalk⟩

end Xv6fs
