import RendangOS.Ext2.Invariant

/-!
# Inode numbers from user mode

`read_inode` and `write_inode` take any 32-bit number. A request stays inside
the inode table exactly when its `parent_inode` is one of the numbers in
`InTable`: those of group 0, and those past it that resolve through a zero
descriptor to a block of the table after all. While every call so far was of
that kind, the entries of every directory are too, and the boot sector keeps
the signature.
-/

namespace RendangOS.Ext2

/-- The file system calls that user mode can make. -/
inductive Service where
  | read (r : Request)
  | readDirectory (r : Request)
  | write (r : Request)
  | delete (r : Request)
  | stat (name : EntryName) (nameNull : Bool) (parentInode : ℕ)

/-- `parent_inode`. -/
def Service.parent : Service → ℕ
  | .read r | .readDirectory r | .write r | .delete r => r.parent
  | .stat _ _ parentInode => parentInode

/-- The guards in front of the first lookup; `read_inode` itself turns 0 away. -/
def Service.TurnedAway : Service → Prop
  | .read r | .readDirectory r | .write r => r.parent = 0
  | .delete r => r.parent = 0 ∨ r.name_null = true ∨ r.name.len = 0
  | .stat name nameNull parentInode => parentInode = 0 ∨ nameNull = true ∨ name.len = 0

instance : DecidablePred Service.TurnedAway := fun c => by
  cases c <;> unfold Service.TurnedAway <;> infer_instance

/-- The numbers that a call hands to `read_inode` and `write_inode` after the
first lookup of its parent. -/
def Service.further (env : Env) (s : Fs) : Service → List ℕ
  | .readDirectory _ => []
  | .read r =>
      let fileInodeNum := findEntryInDir env s r.parent r.name
      if fileInodeNum = 0 then [] else [fileInodeNum]
  | .write r =>
      if findEntryInDir env s r.parent r.name ≠ 0 then []
      else
        let newInodeNum := (allocateNode env s).1
        -- the new inode is stored, the parent read and, if it grows, stored
        if newInodeNum = 0 then [] else [newInodeNum, r.parent, r.parent]
  | .delete r =>
      let targetInodeNum := findEntryInDir env s r.parent r.name
      -- the target is read, scanned, unlinked from the parent, and given back
      if targetInodeNum = 0 then []
      else [targetInodeNum, targetInodeNum, r.parent, targetInodeNum, targetInodeNum]
  | .stat name _ parentInode =>
      let inodeNum := findEntryInDir env s parentInode name
      if inodeNum = 0 then [] else [inodeNum]

/-- All the numbers that a call may hand to `read_inode` and `write_inode`, in
the order of the code. -/
def Service.lookups (env : Env) (s : Fs) (c : Service) : List ℕ :=
  if s.initialized = false ∨ c.TurnedAway then [] else c.parent :: c.further env s

/-- The descriptor looked up for an inode number is one of the table, and the
block accessed one of the inode table. -/
def InsideTable (env : Env) (s : Fs) (p : ℕ) : Prop :=
  inodeToBgd p < groupsCount ∧ inodeTableLba ≤ inodeLba env s p ∧
    inodeLba env s p < inodeTableLba + inodesTableBlockCount

/-- The requests that are turned away before a lookup, or name an inode number
that resolves inside the table. -/
def Service.Confined (c : Service) : Prop := c.TurnedAway ∨ InTable c.parent

/-- A write or delete call as a service. -/
def Call.service : Call → Service
  | .write r => .write r
  | .delete r => .delete r

variable {env : Env} {s : Fs} {held : Set ℕ}

/-! ## One lookup -/

theorem insideTable_iff (ht : (view s).tables = groupTables) {p : ℕ} (h0 : p ≠ 0) :
    InsideTable env s p ↔ InTable p := by
  unfold InsideTable
  rw [inodeToBgd_eq h0, inTable_iff]
  by_cases hg : (p - 1) / 64 < 8
  · rw [inodeLba_eq env s h0 hg]
    simp only [ht]
    by_cases hz : (p - 1) / 64 = 0
    · simp only [hz]
      change 0 < 8 ∧ 5 ≤ 5 + (p - 1) % 64 / 4 ∧ 5 + (p - 1) % 64 / 4 < 21 ↔ _
      omega
    · rw [groupTables_zero hg hz]
      change (p - 1) / 64 < 8 ∧ 5 ≤ 0 + (p - 1) % 64 / 4 ∧ 0 + (p - 1) % 64 / 4 < 21 ↔ _
      omega
  · constructor
    · rintro ⟨hlt, -⟩
      exact absurd hlt hg
    · rintro ⟨h1, h64 | ⟨h512, -⟩⟩ <;> omega

/-- What `find_entry_in_dir` returns resolves inside the table. -/
theorem find_inTable (h : Sound InTable held (view s)) {p : ℕ} (hp : InTable p)
    {name : EntryName} (hf : findEntryInDir env s p name ≠ 0) :
    InTable (findEntryInDir env s p name) := by
  have ha : Addresses env s p (slotOf p) := addresses_inTable h.tables hp
  by_cases hd : ((view s).inode (slotOf p)).isDir = true
  · rw [findEntryInDir_eq ha (h.shape hd), if_pos hd] at hf ⊢
    unfold inodeOf at hf ⊢
    cases hl : Assoc.lookup DirEntry.name ((view s).dirEntries (slotOf p)) name with
    | none =>
        rw [hl] at hf
        exact absurd rfl hf
    | some e => exact (h.dirs _ hd).targets e (Assoc.mem_of_lookup hl).1
  · unfold findEntryInDir at hf
    rw [ha.readInode] at hf
    exact absurd (if_pos (Bool.eq_false_of_not_eq_true hd)) hf

/-! ## One request -/

theorem further_inTable (h : Sound InTable held (view s)) {c : Service} (hp : InTable c.parent) :
    ∀ p ∈ c.further env s, InTable p := by
  have hfind : ∀ name, findEntryInDir env s c.parent name ≠ 0 →
      InTable (findEntryInDir env s c.parent name) := fun name hf => find_inTable h hp hf
  intro p hmem
  cases c with
  | readDirectory r => cases hmem
  | read r =>
      unfold Service.further at hmem
      simp only at hmem
      split at hmem
      · cases hmem
      · next hf =>
          rw [List.mem_singleton.mp hmem]
          exact hfind r.name hf
  | write r =>
      unfold Service.further at hmem
      simp only at hmem
      split at hmem
      · cases hmem
      · rcases allocateNode_cases env s h.initialized with
          ⟨hres, -⟩ | ⟨n, h1, h64, -, -, -, hnum, -⟩
        · rw [hres, if_pos rfl] at hmem
          cases hmem
        · rw [hnum, if_neg (by omega)] at hmem
          simp only [List.mem_cons, List.not_mem_nil, or_false] at hmem
          rcases hmem with rfl | rfl | rfl
          · exact (inTable_iff p).mpr ⟨h1, Or.inl h64⟩
          · exact hp
          · exact hp
  | delete r =>
      unfold Service.further at hmem
      simp only at hmem
      split at hmem
      · cases hmem
      · next hf =>
          have ht := hfind r.name hf
          simp only [List.mem_cons, List.not_mem_nil, or_false] at hmem
          rcases hmem with rfl | rfl | rfl | rfl | rfl
          · exact ht
          · exact ht
          · exact hp
          · exact ht
          · exact ht
  | stat name nameNull parentInode =>
      unfold Service.further at hmem
      simp only at hmem
      split at hmem
      · cases hmem
      · next hf =>
          rw [List.mem_singleton.mp hmem]
          exact hfind name hf

/-- A call that is not turned away has a parent other than 0. -/
theorem parent_ne_zero {c : Service} (hc : ¬ c.TurnedAway) : c.parent ≠ 0 := by
  intro h0
  cases c with
  | read r => exact hc h0
  | readDirectory r => exact hc h0
  | write r => exact hc h0
  | delete r => exact hc (Or.inl h0)
  | stat name nameNull parentInode => exact hc (Or.inl h0)

theorem lookups_inside_iff (h : Sound InTable held (view s)) (c : Service) :
    (∀ p ∈ c.lookups env s, InsideTable env s p) ↔ c.Confined := by
  have hinit : ¬ s.initialized = false := by
    have hs : s.initialized = true := h.initialized
    simp [hs]
  unfold Service.lookups Service.Confined
  by_cases ht : c.TurnedAway
  · rw [if_pos (Or.inr ht)]
    exact ⟨fun _ => Or.inl ht, fun _ p hp => absurd hp List.not_mem_nil⟩
  · rw [if_neg (not_or.mpr ⟨hinit, ht⟩)]
    have hiff : InsideTable env s _ ↔ InTable _ := insideTable_iff h.tables (parent_ne_zero ht)
    constructor
    · intro hall
      exact Or.inr (hiff.mp (hall _ List.mem_cons_self))
    · rintro (hc | hp) p hmem
      · exact absurd hc ht
      · rcases List.mem_cons.mp hmem with rfl | hmem
        · exact hiff.mpr hp
        · have hin := further_inTable h hp p hmem
          exact (insideTable_iff h.tables (by have := hin.1; omega)).mpr hin

/-- `delete` turns a request away without an effect. -/
theorem delete_turnedAway {r : Request} (h : (Service.delete r).TurnedAway) :
    (delete env s r).2 = s := by
  unfold delete
  split
  · rfl
  · split
    · rfl
    · next hp0 =>
        rw [if_pos (h.resolve_left hp0)]

/-! ## Every run -/

/-- The calls whose request is confined. -/
def ConfinedCall (_ : Fs) (c : Call) : Prop := c.service.Confined

theorem reachable_sound (h : Reachable ConfinedCall s) :
    ∃ held, Sound InTable held (view s) := by
  have hslot : ∀ n, 1 ≤ n → n ≤ 64 → InTable n := fun n h1 h64 =>
    (inTable_iff n).mpr ⟨h1, Or.inl h64⟩
  refine h.induct (fun v => ∃ held, Sound InTable held v)
    (fun disk => ⟨∅, fresh_sound disk (hslot 2 (by decide) (by decide))⟩) ?_
  rintro env s c ⟨held, hs⟩ hok
  cases c with
  | write r =>
      rcases hok with h0 | hp
      · -- the parent is 0, and the state stays
        rcases write_cases env hs r with ⟨-, hres⟩ | ⟨hne, -⟩ | ⟨hne, -⟩ | ⟨hne, -⟩
        · refine ⟨held, ?_⟩
          change Sound InTable held (view (write env s r).2)
          rw [hres]
          exact hs
        · exact absurd h0 hne
        · exact absurd h0 hne
        · exact absurd h0 hne
      · exact (write_sound hs hslot hp hp).imp fun held' hs' => hs'.2
  | delete r =>
      refine ⟨held, ?_⟩
      change Sound InTable held (view (delete env s r).2)
      rcases hok with ht | hp
      · rw [delete_turnedAway ht]
        exact hs
      · exact delete_sound hs (fun _ hp => hp) (Or.inr hp)

/-- **No inode number escapes the inode table** in a run whose requests are
confined: a request looks up only descriptors of the table and blocks of the
inode table exactly when it is confined, and the boot sector keeps the
signature that `initialize_filesystem_ext2` looks for. -/
theorem lookups_confined (h : Reachable ConfinedCall s) :
    (∀ env (c : Service), (∀ p ∈ c.lookups env s, InsideTable env s p) ↔ c.Confined) ∧
      isEmptyStorage s = false := by
  obtain ⟨held, hs⟩ := reachable_sound h
  refine ⟨fun env c => lookups_inside_iff hs c, ?_⟩
  have hboot : readBlocks s bootSector = fsSignature := hs.boot
  unfold isEmptyStorage
  rw [hboot, bne_self_eq_false]

/-- Number 85 reaches the first inode of the table through the zero descriptor
of group 1, number 84 the inode bitmap. -/
theorem lookups_confined_fresh :
    (∀ p ∈ (Service.read (.file 85 (.letter 0x61) [])).lookups .zero freshFs,
      InsideTable .zero freshFs p) ∧
    ¬ ∀ p ∈ (Service.read (.file 84 (.letter 0x61) [])).lookups .zero freshFs,
      InsideTable .zero freshFs p := by
  have hiff := (lookups_confined (Reachable.fresh ConfinedCall)).1 .zero
  refine ⟨(hiff _).mpr (Or.inr (by decide)), fun hall => ?_⟩
  rcases (hiff _).mp hall with h0 | hp
  · exact absurd h0 (by decide)
  · exact absurd hp (by decide)

/-- Number 65 reaches the boot sector, whose signature reads as a directory
without blocks. A write into that directory rewrites the boot sector, and the
next start of the machine formats the disk. -/
theorem write_65_rewrites_bootSector :
    ¬ (∀ p ∈ (Service.write (.file 65 (.letter 0x61) [])).lookups .zero freshFs,
      InsideTable .zero freshFs p) ∧
    (write .zero freshFs (.file 65 (.letter 0x61) [])).1 = 0 ∧
    isEmptyStorage (write .zero freshFs (.file 65 (.letter 0x61) [])).2 = true := by
  constructor
  · intro hall
    have hin := hall 65 (by decide +kernel)
    exact absurd hin.2.1 (by decide +kernel)
  · decide +kernel

end RendangOS.Ext2
