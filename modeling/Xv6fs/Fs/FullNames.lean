import Xv6fs.Fs.Check
import Xv6fs.Fs.Open
import Xv6fs.Fs.Room

/-! Names of up to `DIRSIZ` bytes in a directory: what `dirlookup` and `dirlink` give for them.  A name
of `DIRSIZ` bytes has no NUL after it, neither in the buffer of a path element nor in an entry. -/

namespace Xv6fs

open Program (Runs)

variable {sb : SuperBlock} {s s' : Fs} {dir : List DirEntry} {e : DirEntry}
  {name nm path b : List UInt8} {x i inum : Nat}

/-- A path element: what can be the name of an entry. -/
structure Component (name : List UInt8) : Prop where
  pos : 0 < name.length
  len : name.length ≤ DIRSIZ
  nul : 0 ∉ name
  slash : SLASH ∉ name

instance : Decidable (Component name) :=
  decidable_of_iff (0 < name.length ∧ name.length ≤ DIRSIZ ∧ 0 ∉ name ∧ SLASH ∉ name)
    ⟨fun ⟨h1, h2, h3, h4⟩ => ⟨h1, h2, h3, h4⟩, fun h => ⟨h.pos, h.len, h.nul, h.slash⟩⟩

/-! ### Lookups -/

/-- `strcmp` of a path element and a name reads past the end of both when they are the same
`DIRSIZ` bytes. -/
theorem strcmp_eq (hlen : name.length ≤ DIRSIZ) :
    strcmp name b = if b = name ∧ name.length = DIRSIZ then none else some (name == b) := by
  have hiff : (b.length = DIRSIZ ∧ b <+: name) ↔ (b = name ∧ name.length = DIRSIZ) := by
    constructor
    · rintro ⟨hb, hpre⟩
      have heq := hpre.eq_of_length_le (by omega)
      exact ⟨heq, heq ▸ hb⟩
    · rintro ⟨rfl, hb⟩
      exact ⟨hb, List.prefix_refl _⟩
  rw [strcmp]
  simp only [hiff]

/-- What `dirlookup` gives for a name in a directory of these entries. -/
def lookupResult (dir : List DirEntry) (name : List UInt8) : Except Fault (Option (Nat × Nat)) :=
  match findEntry dir name with
  | none => .ok none
  | some i =>
    if name.length = DIRSIZ then .error .strcmp_over_read
    else .ok (some (entryInum dir i, i * DIRENT_SIZE))

/-- `s'` differs from `s` in no block and in no copy of an inode. -/
structure Glanced (s s' : Fs) : Prop where
  blocks : s'.blocks = s.blocks
  log : s'.log = s.log
  outstanding : s'.outstanding = s.outstanding
  dinode : ∀ y, (s'.inodes y).dinode = (s.inodes y).dinode

namespace Glanced

theorem trans {s1 s2 s3 : Fs} (h : Glanced s1 s2) (h' : Glanced s2 s3) : Glanced s1 s3 :=
  ⟨h'.blocks.trans h.blocks, h'.log.trans h.log, h'.outstanding.trans h.outstanding,
    fun y => (h'.dinode y).trans (h.dinode y)⟩

theorem trace (s : Fs) (t : List Event) : Glanced s { s with trace := t } :=
  ⟨rfl, rfl, rfl, fun _ => rfl⟩

theorem listing (h : Glanced s s') (hd : Listing s x dir) : Listing s' x dir := by
  obtain ⟨htype, hsolid, haligned, hentries⟩ := hd
  rw [← h.dinode x] at htype haligned hsolid hentries
  rw [← h.blocks] at hsolid hentries
  exact ⟨htype, hsolid, haligned, hentries⟩

theorem view (h : Glanced s s') : s'.view sb x = s.view sb x := by
  rw [Fs.view, Fs.view, h.dinode]
  congr 1
  funext y
  rw [Fs.dinode, Fs.dinode, h.blocks]

theorem growing {extra : Nat → Prop} (h : Glanced s s') (hg : Growing sb extra x s) :
    Growing sb extra x s' := by
  refine ⟨?_, ?_, ?_⟩
  · rw [h.view]
    exact hg.alloc
  · rw [h.view, h.blocks]
    exact hg.owned
  · rw [h.outstanding]
    exact hg.outstanding

end Glanced

/-- The state after a lookup with the result `r`, with a reference to what has been found. -/
def Fs.found (s : Fs) (r : Option (Nat × Nat)) (t : List Event) : Fs := { s with
  trace := t
  inodes :=
    match r with
    | none => s.inodes
    | some (ip, _) => setAt s.inodes ip { s.inodes ip with ref := (s.inodes ip).ref + 1 } }

theorem Glanced.found (s : Fs) (r : Option (Nat × Nat)) (t : List Event) :
    Glanced s (s.found r t) := by
  cases r with
  | none => exact .trace s t
  | some p =>
    refine ⟨rfl, rfl, rfl, fun y => ?_⟩
    simp only [Fs.found, setAt_apply]
    split
    · next hy => rw [hy]
    · rfl

theorem Listing.dirlookup_loop (sb : SuperBlock) (h : Listing s x dir) (hlen : name.length ≤ DIRSIZ) (fuel i : Nat)
    (hfuel : dir.length ≤ i + fuel)
    (hbefore : ∀ j (hj : j < dir.length), j < i → ¬(dir[j].Live ∧ dir[j].str = name)) :
    Runs (INode.dirlookup_loop sb x name fuel (i * DIRENT_SIZE)) s
      (fun r s' => lookupResult dir name = .ok r ∧ ∃ t, s' = s.found r t)
      (fun e => lookupResult dir name = .error e) := by
  have hnone : dir.length ≤ i → lookupResult dir name = .ok none := by
    intro hle
    have hfind : findEntry dir name = none := by
      rw [findEntry_eq_none]
      intro e he
      obtain ⟨j, hj, rfl⟩ := List.getElem_of_mem he
      exact hbefore j hj (by omega)
    rw [lookupResult, hfind]
  induction fuel generalizing s i with
  | zero => exact ⟨hnone (by omega), s.trace, rfl⟩
  | succ fuel ih =>
    have hsize := h.length
    have hal := h.aligned
    rw [INode.dirlookup_loop, Program.runs_bind, Program.runs_get, Program.runs_ite]
    constructor
    · intro hlt
      have hi : i < dir.length := by
        simp only [DIRENT_SIZE] at *
        omega
      refine (h.read hi).bind ?_
      rintro ⟨n, buf⟩ s1 ⟨hs1, hn, hload⟩
      dsimp only at hn hload
      have hg1 : Glanced s s1 := hs1 ▸ .trace s _
      rw [Program.runs_bind, Program.runs_assert]
      refine ⟨fun _ => ?_, fun hno => absurd hn hno⟩
      rw [hload]
      have hnext : ¬(dir[i].Live ∧ dir[i].str = name) →
          Runs (INode.dirlookup_loop sb x name fuel (i * DIRENT_SIZE + DIRENT_SIZE)) s1
            (fun r s' => lookupResult dir name = .ok r ∧ ∃ t, s' = s.found r t)
            (fun e => lookupResult dir name = .error e) := by
        intro hno
        have hbefore' : ∀ j (hj : j < dir.length), j < i + 1 →
            ¬(dir[j].Live ∧ dir[j].str = name) := by
          intro j hj hji
          by_cases heq : j = i
          · subst heq
            exact hno
          · exact hbefore j hj (by omega)
        have hrest := ih (hg1.listing h) (i + 1) (by omega) hbefore' fun hle => by
          have hfind : findEntry dir name = none := by
            rw [findEntry_eq_none]
            intro e he
            obtain ⟨j, hj, rfl⟩ := List.getElem_of_mem he
            exact hbefore' j hj (by omega)
          rw [lookupResult, hfind]
        rw [Nat.succ_mul] at hrest
        refine hrest.imp ?_
        rintro r s2 ⟨hr, t, hs2⟩
        refine ⟨hr, t, ?_⟩
        rw [hs2, hs1]
        cases r <;> rfl
      rw [Program.runs_ite]
      refine ⟨fun h0 => hnext fun hl => hl.1 h0, fun hlive => ?_⟩
      rw [strcmp_eq hlen]
      by_cases hstr : dir[i].str = name
      · have hfind := findEntry_eq_some hi hlive hstr hbefore
        have hinum : entryInum dir i = dir[i].inum.toNat := by
          rw [entryInum, List.getD_eq_getElem _ _ hi]
        by_cases hfull : name.length = DIRSIZ
        · rw [if_pos ⟨hstr, hfull⟩]
          show lookupResult dir name = _
          rw [lookupResult, hfind]
          exact if_pos hfull
        · rw [if_neg fun hp => hfull hp.2, hstr, beq_self_eq_true]
          refine ⟨?_, s1.trace, ?_⟩
          · rw [lookupResult, hfind]
            dsimp only
            rw [if_neg hfull, hinum]
          · rw [hs1]
            rfl
      · rw [if_neg fun hp => hstr hp.1, beq_eq_false_iff_ne.mpr (Ne.symm hstr)]
        exact hnext fun hl => hstr hl.2
    · intro hge
      refine ⟨hnone ?_, s.trace, rfl⟩
      simp only [DIRENT_SIZE] at *
      omega

theorem Listing.dirlookup (h : Listing s x dir) (hlen : name.length ≤ DIRSIZ) :
    Runs (INode.dirlookup sb x name) s (fun r s' => lookupResult dir name = .ok r ∧ ∃ t, s' = s.found r t)
      (fun e => lookupResult dir name = .error e) := by
  rw [INode.dirlookup, record, Program.runs_bind, Program.runs_modify, Program.runs_bind,
    Program.runs_get, Program.runs_bind, Program.runs_assert]
  refine ⟨fun _ => ?_, fun hno => absurd h.type hno⟩
  have hg := Glanced.trace s (.access x :: s.trace)
  have hfuel : dir.length ≤ 0 + (s.inodes x).dinode.size.toNat := by
    rw [h.length, Nat.zero_add]
    exact Nat.div_le_self _ _
  have hloop := (hg.listing h).dirlookup_loop sb hlen (s.inodes x).dinode.size.toNat 0 hfuel
    fun _ _ hj => absurd hj (Nat.not_lt_zero _)
  rw [Nat.zero_mul] at hloop
  refine hloop.imp ?_
  rintro r s' ⟨hr, t, hs'⟩
  refine ⟨hr, t, ?_⟩
  rw [hs']
  cases r <;> rfl

/-- The result of `dirlookup` of a name in directory `x`. -/
def lookup (sb : SuperBlock) (s : Fs) (x : Nat) (name : List UInt8) :
    Except Fault (Option (Nat × Nat)) :=
  (INode.dirlookup sb x name s).map Prod.fst

theorem Listing.lookup_eq (h : Listing s x dir) (hlen : name.length ≤ DIRSIZ) :
    lookup sb s x name = lookupResult dir name := by
  have hruns : Runs (INode.dirlookup sb x name) s _ _ := h.dirlookup hlen
  rw [lookup]
  cases hrun : INode.dirlookup sb x name s with
  | error e => exact (hruns.of_error hrun).symm
  | ok p =>
    obtain ⟨r, s'⟩ := p
    exact (hruns.of_ok hrun).1.symm

/-! ### A new entry -/

theorem DirEntry.load_bytes_inum (hinum : inum < 65536) (b : Bytes.Buffer DIRSIZ) :
    (DirEntry.mk (UInt16.ofNat inum) b).inum.toNat = inum := by
  rw [UInt16.toNat_ofNat']
  exact Nat.mod_eq_of_lt hinum

theorem findEntry_cons : findEntry (e :: dir) name =
    if e.Live ∧ e.str = name then some 0 else (findEntry dir name).map (· + 1) := by
  have hp : (e.inum != 0 && e.str == name) = decide (e.Live ∧ e.str = name) := by
    simp only [DirEntry.Live]
    by_cases h1 : e.inum = 0 <;> by_cases h2 : e.str = name <;> simp [h1, h2]
  rw [findEntry, List.findIdx?_cons, hp]
  by_cases h : e.Live ∧ e.str = name
  · rw [if_pos h, decide_eq_true h, if_pos rfl]
  · rw [if_neg h, decide_eq_false h, if_neg Bool.false_ne_true]
    rfl

/-- The first entry of a name after a new one has been put in the first free place. -/
theorem findEntry_linkEntry (nm : List UInt8) (hinum : inum < 65536) (hlen : name.length ≤ DIRSIZ) (hnul : 0 ∉ name)
    (hnone : findEntry dir name = none) :
    findEntry (linkEntry dir name inum) nm =
      if nm = name then if inum = 0 then none else some (freeSlot dir) else findEntry dir nm := by
  have hlive : (DirEntry.mk (UInt16.ofNat inum) (strncpy name)).Live ↔ inum ≠ 0 := by
    rw [DirEntry.Live, ne_eq, ← UInt16.toNat_inj, DirEntry.load_bytes_inum hinum]
    rfl
  have hnew : ∀ l, findEntry (⟨UInt16.ofNat inum, strncpy name⟩ :: l) nm =
      if inum ≠ 0 ∧ name = nm then some 0 else (findEntry l nm).map (· + 1) := by
    intro l
    simp only [findEntry_cons, hlive, str_strncpy _ hlen hnul]
  induction dir with
  | nil =>
    rw [linkEntry_nil, hnew]
    by_cases hnm : nm = name
    · subst hnm
      by_cases h0 : inum = 0
      · simp [h0, findEntry]
      · simp [h0, freeSlot]
    · rw [if_neg fun hp => hnm hp.2.symm, if_neg hnm]
      rfl
  | cons e dir ih =>
    rw [findEntry_cons] at hnone
    have hno : ¬(e.Live ∧ e.str = name) := fun hp => by simp [hp] at hnone
    rw [if_neg hno, Option.map_eq_none_iff] at hnone
    rw [linkEntry_cons, freeSlot_cons]
    split
    · rw [findEntry_cons, findEntry_cons, ih hnone]
      by_cases hnm : nm = name
      · subst hnm
        rw [if_neg hno, if_pos rfl, if_pos rfl]
        split <;> rfl
      · rw [if_neg hnm, if_neg hnm]
    · next he =>
      rw [hnew, findEntry_cons]
      by_cases hnm : nm = name
      · subst hnm
        by_cases h0 : inum = 0
        · simp [h0, hnone]
        · simp [h0]
      · rw [if_neg fun hp => hnm hp.2.symm, if_neg hnm, if_neg fun hp => he hp.1]

/-- The result of a lookup of a name that an entry does not have. -/
theorem lookupResult_congr {dir' : List DirEntry} (hfind : findEntry dir' nm = findEntry dir nm)
    (hinum : ∀ i, findEntry dir nm = some i → entryInum dir' i = entryInum dir i) :
    lookupResult dir' nm = lookupResult dir nm := by
  rw [lookupResult, lookupResult, hfind]
  cases hi : findEntry dir nm with
  | none => rfl
  | some i => dsimp only; rw [hinum i hi]

theorem getD_linkEntry : (linkEntry dir name inum).getD i .zero =
    if i = freeSlot dir then ⟨UInt16.ofNat inum, strncpy name⟩ else dir.getD i .zero := by
  have hle := freeSlot_le dir
  rw [linkEntry, putEntry]
  split
  · next hlt =>
    rw [List.getD_eq_getElem?_getD, List.getElem?_set, List.getD_eq_getElem?_getD]
    by_cases hi : i = freeSlot dir
    · subst hi
      simp [hlt]
    · simp [hi, Ne.symm hi]
  · next hge =>
    have hend : freeSlot dir = dir.length := by omega
    rw [List.getD_eq_getElem?_getD, List.getElem?_append, List.getD_eq_getElem?_getD]
    by_cases hi : i < dir.length
    · simp [hi, Nat.ne_of_lt (hend ▸ hi)]
    · rw [if_neg hi, List.getElem?_singleton, List.getElem?_eq_none (by omega : dir.length ≤ i)]
      by_cases heq : i = freeSlot dir
      · simp [heq, hend]
      · rw [if_neg (by omega), if_neg heq]

/-- What is found after a new entry. -/
theorem lookupResult_linkEntry (hinum : inum < 65536) (hname : Component name)
    (hnone : findEntry dir name = none) :
    lookupResult (linkEntry dir name inum) nm =
      if nm = name then
        if inum = 0 then .ok none
        else if name.length = DIRSIZ then .error .strcmp_over_read
        else .ok (some (inum, freeSlot dir * DIRENT_SIZE))
      else lookupResult dir nm := by
  have hfind := findEntry_linkEntry nm hinum hname.len hname.nul hnone
  split
  · next hnm =>
    subst hnm
    rw [if_pos rfl] at hfind
    by_cases h0 : inum = 0
    · rw [if_pos h0] at hfind
      rw [lookupResult, hfind, if_pos h0]
    · rw [if_neg h0] at hfind
      rw [lookupResult, hfind, if_neg h0]
      dsimp only
      rw [entryInum, getD_linkEntry, if_pos rfl, DirEntry.load_bytes_inum hinum]
  · next hnm =>
    rw [if_neg hnm] at hfind
    apply lookupResult_congr hfind
    intro i hi
    obtain ⟨hlt, hlive, -⟩ := findEntry_some hi
    rw [entryInum, entryInum, getD_linkEntry, if_neg]
    rintro rfl
    rw [List.getD_eq_getElem _ _ hlt] at hlive
    apply hlive
    have hfree := List.findIdx_getElem (w := hlt)
    exact beq_iff_eq.mp hfree

/-- There is room for one more entry of directory `x`, whose entries are `dir`. -/
def Fs.HasRoom (sb : SuperBlock) (s : Fs) (x : Nat) (dir : List DirEntry) : Prop :=
  freeSlot dir * DIRENT_SIZE + DIRENT_SIZE ≤ MAX_SIZE ∧
    (s.needed x (freeSlot dir * DIRENT_SIZE) DIRENT_SIZE).card ≤ (s.free_blocks sb).card

theorem Glanced.hasRoom (h : Glanced s s') : s'.HasRoom sb x dir ↔ s.HasRoom sb x dir := by
  rw [Fs.HasRoom, Fs.HasRoom, Fs.needed, Fs.needed, Fs.free_blocks, Fs.free_blocks, h.blocks,
    h.dinode]

/-- `write` of the first free entry. -/
theorem Listing.write_slot (hl : Layout sb) (h : Listing s x dir)
    (hg : Growing sb (fun _ => False) x s) (de : DirEntry) :
    Runs (INode.write sb x de.bytes (freeSlot dir * DIRENT_SIZE) DIRENT_SIZE) s
      (fun n s' => (n = DIRENT_SIZE ↔ s.HasRoom sb x dir) ∧
        (n = DIRENT_SIZE → Listing s' x (putEntry dir (freeSlot dir) de)))
      (fun e => TooBig e ∧ Fs.log_limit sb < s.log.length + 7) := by
  have hslot := freeSlot_le dir
  have hlen := h.length
  have hal := h.aligned
  have hoff : freeSlot dir * DIRENT_SIZE ≤ (s.inodes x).dinode.size.toNat := by
    simp only [DIRENT_SIZE] at *
    omega
  by_cases hmax : freeSlot dir * DIRENT_SIZE + DIRENT_SIZE ≤ MAX_SIZE
  · have hlogs : Logs sb (INode.write sb x de.bytes (freeSlot dir * DIRENT_SIZE) DIRENT_SIZE) 7 := by
      apply (write_logs x de.bytes (freeSlot dir * DIRENT_SIZE) DIRENT_SIZE).mono
      rw [touched_entry]
    refine ((write_runs hl hg hoff hmax).both (hlogs s)).mono ?_ fun e he => ⟨he.1, he.2 he.1⟩
    rintro n s' ⟨hw, _⟩
    have hlist := hw.listing h hslot hmax
    rw [DirEntry.load_bytes] at hlist
    refine ⟨?_, fun hn => by rwa [if_pos hn] at hlist⟩
    rw [Fs.HasRoom, hw.full_iff hg hmax]
    exact ⟨fun hle => ⟨hmax, hle⟩, fun hroom => hroom.2⟩
  · refine (write_out_of_range (.inr (by omega))).imp ?_
    rintro n s' ⟨hn, _⟩
    have hshort : n ≠ DIRENT_SIZE := by
      rw [hn]
      decide
    exact ⟨iff_of_false hshort fun hroom => hmax hroom.1, fun hfull => absurd hfull hshort⟩

/-- `dirlink` of a name that no entry has. -/
theorem Listing.dirlink (hl : Layout sb) (h : Listing s x dir)
    (hg : Growing sb (fun _ => False) x s) (hlen : name.length ≤ DIRSIZ)
    (hnone : findEntry dir name = none) (inum : Nat) :
    Runs (INode.dirlink sb x name inum) s
      (fun r s' => (r = true ↔ s.HasRoom sb x dir) ∧
        (r = true → Listing s' x (linkEntry dir name inum)))
      (fun e => TooBig e ∧ Fs.log_limit sb < s.log.length + 7) := by
  have hresult : lookupResult dir name = .ok none := by rw [lookupResult, hnone]
  rw [INode.dirlink, record, Program.runs_bind, Program.runs_modify]
  have hg0 := Glanced.trace s (.access x :: s.trace)
  refine Runs.bind (Q := fun r s' => r = none ∧ Glanced s s')
    (((hg0.listing h).dirlookup hlen).mono ?_ fun e he => ?_) ?_
  · rintro r s1 ⟨hr, t, hs1⟩
    rw [hresult] at hr
    cases hr
    exact ⟨rfl, hg0.trans (hs1 ▸ .found _ _ t)⟩
  · rw [hresult] at he
    cases he
  · rintro r s1 ⟨rfl, hg1⟩
    dsimp only
    rw [Program.runs_bind, Program.runs_get]
    refine (hg1.listing h).dirlink_slot_start.bind ?_
    rintro off s2 ⟨hoff, t, hs2⟩
    have hg2 : Glanced s s2 := hg1.trans (hs2 ▸ .trace s1 t)
    rw [hoff]
    rw [Program.runs_bind]
    refine ((hg2.listing h).write_slot hl (hg2.growing hg)
      ⟨UInt16.ofNat inum, strncpy name⟩).mono ?_ fun e he => ⟨he.1, hg2.log ▸ he.2⟩
    rintro n s3 ⟨hroom, hlist⟩
    rw [Program.runs_pure, decide_eq_true_iff, hroom, hg2.hasRoom]
    exact ⟨Iff.rfl, fun hr => hlist (hroom.mpr (hg2.hasRoom.mpr hr))⟩

/-- `dirlink` of a name that an entry has. -/
theorem Listing.dirlink_exists (h : Listing s x dir) (hlen : name.length ≤ DIRSIZ)
    (hfind : findEntry dir name ≠ none) :
    Runs (INode.dirlink sb x name inum) s (fun r _ => r = false) fun _ => True := by
  rw [INode.dirlink, record, Program.runs_bind, Program.runs_modify]
  have hg0 := Glanced.trace s (.access x :: s.trace)
  refine ((hg0.listing h).dirlookup hlen).any.bind ?_
  rintro r s1 ⟨hr, _⟩
  cases r with
  | none =>
    rw [lookupResult] at hr
    split at hr
    · next hnone => exact absurd hnone hfind
    · split at hr <;> cases hr
  | some p => exact Program.runs_true.bind fun _ _ _ => rfl

/-! ### Names up to the maximum -/

/-- What is promised of the name `name` in directory `x`, whose entries are `dir`. -/
structure NamesWork (sb : SuperBlock) (s : Fs) (x : Nat) (dir : List DirEntry) (name : List UInt8)
    (inum : Nat) : Prop where
  /-- No comparison reads past the end of a name. -/
  within : lookup sb s x name ≠ .error .strcmp_over_read
  /-- A live entry of that name is found exactly if there is one. -/
  found : ∀ r, lookup sb s x name = .ok r → (r.isSome ↔ ∃ e ∈ dir, e.Live ∧ e.str = name)
  /-- After `dirlink` the name is found where it has been written, and the others are as before. -/
  linked : ∀ s1, INode.dirlink sb x name inum s = .ok (true, s1) → ∃ k,
    Listing s1 x (putEntry dir k ⟨UInt16.ofNat inum, strncpy name⟩) ∧
      lookup sb s1 x name = .ok (some (inum, k * DIRENT_SIZE)) ∧
      ∀ nm, Component nm → nm ≠ name → lookup sb s1 x nm = lookup sb s x nm

/-- The condition under which names work: a name that is in the directory, or that is put there, is
shorter than `DIRSIZ`, and a new entry names an inode. -/
def NameFits (sb : SuperBlock) (s : Fs) (x : Nat) (dir : List DirEntry) (name : List UInt8)
    (inum : Nat) : Prop :=
  if ∃ e ∈ dir, e.Live ∧ e.str = name then name.length < DIRSIZ
  else s.HasRoom sb x dir → name.length < DIRSIZ ∧ 0 < inum

theorem findEntry_ne_none : findEntry dir name ≠ none ↔ ∃ e ∈ dir, e.Live ∧ e.str = name := by
  rw [ne_eq, findEntry_eq_none]
  simp


theorem names_work_of_fits (hl : Layout sb) (h : Listing s x dir)
    (hg : Growing sb (fun _ => False) x s) (hname : Component name) (hinum : inum < 65536)
    (hfits : NameFits sb s x dir name inum) : NamesWork sb s x dir name inum := by
  have hlook : lookup sb s x name = lookupResult dir name := h.lookup_eq hname.len
  by_cases hex : ∃ e ∈ dir, e.Live ∧ e.str = name
  · rw [NameFits, if_pos hex] at hfits
    have hfind := findEntry_ne_none.mpr hex
    have hok : ∃ p, lookup sb s x name = .ok (some p) := by
      rw [hlook, lookupResult]
      split
      · next hnone => exact absurd hnone hfind
      · rw [if_neg (Nat.ne_of_lt hfits)]
        exact ⟨_, rfl⟩
    obtain ⟨p, hp⟩ := hok
    refine ⟨?_, fun r hr => ?_, fun s1 hrun => ?_⟩
    · rw [hp]
      intro herr
      cases herr
    · rw [hp] at hr
      cases hr
      exact iff_of_true rfl hex
    · have hfalse := (h.dirlink_exists hname.len hfind).of_ok hrun
      cases hfalse
  · rw [NameFits, if_neg hex] at hfits
    have hnone : findEntry dir name = none := by
      by_contra hne
      exact hex (findEntry_ne_none.mp hne)
    have hok : lookup sb s x name = .ok none := by
      rw [hlook, lookupResult, hnone]
    refine ⟨?_, fun r hr => ?_, fun s1 hrun => ?_⟩
    · rw [hok]
      intro herr
      cases herr
    · rw [hok] at hr
      cases hr
      exact iff_of_false Bool.false_ne_true hex
    · obtain ⟨hroom, hlist⟩ := (h.dirlink hl hg hname.len hnone inum).of_ok hrun
      obtain ⟨hshort, hpos⟩ := hfits (hroom.mp rfl)
      have hl1 := hlist rfl
      refine ⟨freeSlot dir, hl1, ?_, fun nm hnm hne => ?_⟩
      · rw [hl1.lookup_eq hname.len, lookupResult_linkEntry hinum hname hnone, if_pos rfl,
          if_neg (Nat.ne_of_gt hpos), if_neg (Nat.ne_of_lt hshort)]
      · rw [hl1.lookup_eq hnm.len, lookupResult_linkEntry hinum hname hnone, if_neg hne,
          h.lookup_eq hnm.len]

/-- Names work under this condition, and only then when the log has room for a new entry. -/
theorem names_work_iff (hl : Layout sb) (h : Listing s x dir)
    (hg : Growing sb (fun _ => False) x s) (hname : Component name) (hinum : inum < 65536) :
    (NameFits sb s x dir name inum → NamesWork sb s x dir name inum) ∧
      (s.log.length + 7 ≤ Fs.log_limit sb → NamesWork sb s x dir name inum →
        NameFits sb s x dir name inum) := by
  refine ⟨names_work_of_fits hl h hg hname hinum, fun hlog hwork => ?_⟩
  by_cases hex : ∃ e ∈ dir, e.Live ∧ e.str = name
  · rw [NameFits, if_pos hex]
    have hfind := findEntry_ne_none.mpr hex
    refine Nat.lt_of_le_of_ne hname.len fun hfull => hwork.within ?_
    rw [h.lookup_eq hname.len, lookupResult]
    split
    · next hnone => exact absurd hnone hfind
    · exact if_pos hfull
  · rw [NameFits, if_neg hex]
    intro hroom
    have hnone : findEntry dir name = none := by
      by_contra hne
      exact hex (findEntry_ne_none.mp hne)
    obtain ⟨r, s1, hrun, hiff, hlist⟩ := ((h.dirlink hl hg hname.len hnone inum).mono
      (fun _ _ => id) fun e he => show False by omega).returns
    obtain rfl : r = true := hiff.mpr hroom
    obtain ⟨k, -, hfound, -⟩ := hwork.linked s1 hrun
    rw [(hlist rfl).lookup_eq hname.len, lookupResult_linkEntry hinum hname hnone, if_pos rfl]
      at hfound
    split at hfound
    · cases hfound
    · next hpos =>
      split at hfound
      · cases hfound
      · next hshort => exact ⟨Nat.lt_of_le_of_ne hname.len hshort, Nat.pos_of_ne_zero hpos⟩

/-- The root directory is read and locked in a transaction. -/
def open_root : Prog PUnit := do
  Fs.begin_op
  inode_get ROOTINO
  INode.lock rootSb ROOTINO

theorem Wf.open_root (h : Wf rootSb s) :
    Does rootSb open_root s fun _ s' => (s'.inodes ROOTINO).valid = true := by
  refine h.begin_op.bind fun _ s1 h1 _ => ?_
  refine (h1.inode_get (by decide)).bind fun _ s2 h2 _ => ?_
  refine (h2.lock ROOTINO).imp ?_
  rintro _ _ _ ⟨_, hv, _⟩
  exact hv

set_option maxRecDepth 100000 in
/-- A new name of one byte in the root directory. -/
theorem names_work_iff_short : ∃ s dir, Listing s ROOTINO dir ∧
    NamesWork rootSb s ROOTINO dir [97] 2 := by
  have hruns : Runs open_root rootFs (fun _ s' => s'.outstanding = 1 ∧
      (s'.inodes ROOTINO).dinode.type = FileType.T_DIR) fun _ => False := by decide +kernel
  obtain ⟨r, s, hrun, ho, htype⟩ := hruns.returns
  obtain ⟨hwf, hv⟩ := rootFs_wf.open_root.of_ok hrun
  have hlist := (hwf.dir htype).listing htype
  refine ⟨s, _, hlist, ?_⟩
  refine (names_work_iff rootSb_layout hlist (hwf.growing hv (Nat.le_of_eq ho.symm)) (by decide)
    (by decide)).1 ?_
  rw [NameFits]
  split <;> simp [DIRSIZ]

/-- A name of `DIRSIZ` bytes. -/
def fullName : List UInt8 := [102, 111, 117, 114, 116, 101, 101, 110, 95, 98, 121, 116, 101, 115]

set_option maxRecDepth 100000 in
/-- A file of such a name is created, and then it cannot be looked up. -/
theorem names_work_fails : Component fullName ∧
    ∃ r s, op_create rootSb (SLASH :: fullName) 0 rootFs = .ok ((0, some r), s) ∧
      op_open rootSb (SLASH :: fullName) 0 s = .error .strcmp_over_read ∧
      ∃ u s' dir, open_root s = .ok (u, s') ∧ Listing s' ROOTINO dir ∧
        (∀ e ∈ dir, e.Live → Component e.str) ∧ ¬NamesWork rootSb s' ROOTINO dir fullName 2 := by
  have hruns : Runs (op_create rootSb (SLASH :: fullName) 0) rootFs (fun r s =>
      (r.1 = 0 ∧ r.2.isSome) ∧
      Runs (op_open rootSb (SLASH :: fullName) 0) s (fun _ _ => False) (· = .strcmp_over_read) ∧
      Runs open_root s (fun _ s' => (s'.inodes ROOTINO).dinode.type = FileType.T_DIR ∧
        (∀ e ∈ entriesAt s'.blocks (s'.inodes ROOTINO).dinode, e.Live → Component e.str) ∧
        Runs (INode.dirlookup rootSb ROOTINO fullName) s' (fun _ _ => False)
          (· = .strcmp_over_read)) fun _ => False) fun _ => False := by decide +kernel
  have fails : ∀ {α : Type} {m : Prog α} {s : Fs},
      Runs m s (fun _ _ => False) (· = .strcmp_over_read) → m s = .error .strcmp_over_read := by
    intro α m s h
    cases hrun : m s with
    | ok p =>
      obtain ⟨a, s'⟩ := p
      exact (h.of_ok hrun).elim
    | error e => rw [h.of_error hrun]
  obtain ⟨⟨n, fd⟩, s, hcreate, ⟨hn, hfd⟩, hopen, hroot⟩ := hruns.returns
  obtain ⟨u, s', hrun, htype, hnames, hlook⟩ := hroot.returns
  obtain ⟨r, rfl⟩ := Option.isSome_iff_exists.mp hfd
  dsimp only at hn
  subst hn
  have hwf := ((rootFs_wf.op_create rootSb_layout (by decide) _ _).of_ok hcreate).1
  have hlist := ((hwf.open_root.of_ok hrun).1.dir htype).listing htype
  refine ⟨by decide, r, s, hcreate, fails hopen, u, s', _, hrun, hlist, ?_, fun hwork => ?_⟩
  · rw [← hlist.entries]
    exact hnames
  · apply hwork.within
    rw [lookup, fails hlook]
    rfl

end Xv6fs
