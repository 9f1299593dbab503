import RendangOS.Shell.Files

/-!
# The directory buffer of the shell

`is_directory` and `cmd_find` read a directory into `dir_buffer` and pass over its
records to the end of the buffer, or to a record without a length.
`read_directory` copies the blocks that the directory has and leaves the rest of
the buffer alone, so behind a short directory the loops go on in bytes that are
left from an earlier one; of a long directory the blocks behind the eighth are
not there.
-/

namespace RendangOS.Shell

open Ext2 Image RecordChain Assoc

/-! ## Records in memory -/

/-- The memory from `dir_buffer` on, and a place in it. -/
abbrev Memory := ℕ → BitVec 8

def memInode (mem : Memory) (offset : ℕ) : ℕ := leBytes mem offset 4
def memRecLen (mem : Memory) (offset : ℕ) : ℕ := leBytes mem (offset + 4) 2
def memNameLen (mem : Memory) (offset : ℕ) : ℕ := (mem (offset + 6)).toNat
def memFileType (mem : Memory) (offset : ℕ) : BitVec 8 := mem (offset + 7)

/-- The `name_len` bytes behind the header. -/
def memName (mem : Memory) (offset : ℕ) : EntryName where
  bytes := (List.range (memNameLen mem offset)).map fun k => mem (offset + 8 + k)
  bound := by
    rw [List.length_map, List.length_range]
    exact Nat.le_of_lt_succ (mem (offset + 6)).isLt

def memEntry (mem : Memory) (offset : ℕ) : DirEntry :=
  ⟨memName mem offset, memInode mem offset, memFileType mem offset⟩

/-- The records with an inode that the loops pass from `offset` on. The first
argument counts the turns left. -/
def scanEntries (mem : Memory) : ℕ → ℕ → List DirEntry
  | 0, _ => []
  | fuel + 1, offset =>
      if offset < dirBufferSize then
        if memRecLen mem offset = 0 then []
        else if memInode mem offset = 0 then
          scanEntries mem fuel (offset + memRecLen mem offset)
        else memEntry mem offset :: scanEntries mem fuel (offset + memRecLen mem offset)
      else []

/-- Each turn goes on by a byte at least. -/
def entriesFrom (mem : Memory) (offset : ℕ) : List DirEntry :=
  scanEntries mem (dirBufferSize - offset) offset

variable {mem mem' : Memory} {offset : ℕ} {env : Env} {s : Fs} {p : ℕ}

theorem memInode_lt (mem : Memory) (offset : ℕ) : memInode mem offset < 2 ^ 32 := by
  have h0 := (mem offset).isLt
  have h1 := (mem (offset + 1)).isLt
  have h2 := (mem (offset + 1 + 1)).isLt
  have h3 := (mem (offset + 1 + 1 + 1)).isLt
  simp only [memInode, leBytes]
  omega

/-! ## The loops end -/

/-- Turns that are left over make no difference. -/
theorem scanEntries_fuel : ∀ {fuel fuel' offset : ℕ}, dirBufferSize ≤ offset + fuel →
    dirBufferSize ≤ offset + fuel' → scanEntries mem fuel offset = scanEntries mem fuel' offset
  | 0, 0, _, _, _ => rfl
  | 0, fuel' + 1, offset, h, _ => by
      rw [scanEntries, scanEntries, if_neg (by omega)]
  | fuel + 1, 0, offset, _, h' => by
      rw [scanEntries, scanEntries, if_neg (by omega)]
  | fuel + 1, fuel' + 1, offset, h, h' => by
      rw [scanEntries, scanEntries]
      by_cases hlen : memRecLen mem offset = 0
      · rw [if_pos hlen, if_pos hlen]
      · have hrest : scanEntries mem fuel (offset + memRecLen mem offset) =
            scanEntries mem fuel' (offset + memRecLen mem offset) :=
          scanEntries_fuel (by omega) (by omega)
        rw [if_neg hlen, if_neg hlen, hrest]

theorem entriesFrom_of_ge (h : dirBufferSize ≤ offset) : entriesFrom mem offset = [] := by
  rw [entriesFrom, Nat.sub_eq_zero_of_le h]
  rfl

theorem entriesFrom_eq (h : offset < dirBufferSize) :
    entriesFrom mem offset =
      if memRecLen mem offset = 0 then []
      else if memInode mem offset = 0 then entriesFrom mem (offset + memRecLen mem offset)
      else memEntry mem offset :: entriesFrom mem (offset + memRecLen mem offset) := by
  have hfuel : dirBufferSize - offset = dirBufferSize - offset - 1 + 1 := by omega
  rw [entriesFrom, hfuel, scanEntries, if_pos h]
  by_cases hlen : memRecLen mem offset = 0
  · rw [if_pos hlen, if_pos hlen]
  · have hrest : scanEntries mem (dirBufferSize - offset - 1) (offset + memRecLen mem offset) =
        scanEntries mem (dirBufferSize - (offset + memRecLen mem offset))
          (offset + memRecLen mem offset) := scanEntries_fuel (by omega) (by omega)
    rw [if_neg hlen, if_neg hlen, entriesFrom, hrest]

/-! ## A block in the buffer -/

/-- From `base` on there is the block `buf`. -/
def BlockAt (mem : Memory) (base : ℕ) (buf : Block) : Prop :=
  ∀ k < blockSize, mem (base + k) = byte buf k

theorem leBytes_block {base : ℕ} {buf : Block} (h : BlockAt mem base buf) {d n : ℕ}
    (hd : d + n ≤ blockSize) :
    leBytes mem (base + d) n = (buf.extractLsb' (8 * d) (8 * n)).toNat := by
  rw [← leBytes_byte]
  apply leBytes_congr
  intro k hk
  rw [Nat.add_assoc]
  exact h (d + k) (by omega)

/-- A record of the block, where it lies in the buffer. -/
theorem memEntry_block {base : ℕ} {buf : Block} (h : BlockAt mem base buf) {d : ℕ}
    (hneed : d + (recAt buf d).need ≤ blockSize) :
    memRecLen mem (base + d) = (recAt buf d).len ∧
      (if memInode mem (base + d) = 0 then none else some (memEntry mem (base + d))) =
        (recAt buf d).item := by
  have h8 := recAt_need_ge buf d
  have hgt := recordLen_ge (entNameLen buf d)
  change d + getEntryRecordLen (entNameLen buf d) ≤ blockSize at hneed
  change 8 ≤ getEntryRecordLen (entNameLen buf d) at h8
  have hino : memInode mem (base + d) = entInode buf d := leBytes_block h (by omega)
  have hlen : memRecLen mem (base + d) = entRecLen buf d := by
    rw [memRecLen, Nat.add_assoc]
    exact leBytes_block h (by omega)
  have hname : memNameLen mem (base + d) = entNameLen buf d := by
    rw [memNameLen, Nat.add_assoc, h (d + 6) (by omega)]
    rfl
  have htype : memFileType mem (base + d) = entFileType buf d := by
    rw [memFileType, Nat.add_assoc, h (d + 7) (by omega)]
    rfl
  have hbytes : memName mem (base + d) = entName buf d := by
    unfold memName entName getEntryName
    congr 1
    rw [hname]
    apply List.map_congr_left
    intro k hk
    rw [List.mem_range] at hk
    rw [show base + d + 8 + k = base + (d + 8 + k) by omega]
    exact h (d + 8 + k) (by omega)
  refine ⟨hlen, ?_⟩
  unfold recAt memEntry
  rw [hino, htype, hbytes]

/-- The loops pass the records of a tiled block and come out behind it. -/
theorem entriesFrom_block {base : ℕ} {buf : Block} (h : BlockAt mem base buf)
    (hbase : base + blockSize ≤ dirBufferSize) : ∀ {rs : List (Rec DirEntry)} {d : ℕ},
    Tiles buf d rs → entriesFrom mem (base + d) = items rs ++ entriesFrom mem (base + blockSize)
  | [], d, ht => by
      have hd : d = blockSize := ht
      rw [hd, items_nil, List.nil_append]
  | r :: rs, d, ht => by
      obtain ⟨h8, hneed, hle⟩ := ht.head
      obtain ⟨hr, -, -, htail⟩ := ht
      have hsize : d + (recAt buf d).need ≤ blockSize := by
        rw [hr, blockSize]
        omega
      obtain ⟨hlen, hitem⟩ := memEntry_block h hsize
      have hrest := entriesFrom_block h hbase htail
      rw [hr] at hlen hitem
      have hlt : base + d < dirBufferSize := by
        rw [blockSize] at hbase
        omega
      rw [entriesFrom_eq hlt, if_neg (by omega), hlen, items_cons, ← hitem, Nat.add_assoc, hrest]
      split <;> rfl

theorem entriesFrom_block_zero {base : ℕ} {buf : Block} {rs : List (Rec DirEntry)}
    (h : BlockAt mem base buf) (hbase : base + blockSize ≤ dirBufferSize) (ht : Tiles buf 0 rs) :
    entriesFrom mem base = items rs ++ entriesFrom mem (base + blockSize) :=
  entriesFrom_block h hbase ht

/-- A record is read from where it lies on. -/
theorem memEntry_congr (h : ∀ k, offset ≤ k → mem k = mem' k) :
    memRecLen mem offset = memRecLen mem' offset ∧ memInode mem offset = memInode mem' offset ∧
      memEntry mem offset = memEntry mem' offset := by
  have hle : ∀ d n, leBytes mem (offset + d) n = leBytes mem' (offset + d) n := fun d n =>
    leBytes_congr fun k _ => h _ (by omega)
  have hino : memInode mem offset = memInode mem' offset := hle 0 4
  have hname : memName mem offset = memName mem' offset := by
    unfold memName memNameLen
    congr 1
    rw [h (offset + 6) (by omega)]
    exact List.map_congr_left fun k _ => h _ (by omega)
  refine ⟨hle 4 2, hino, ?_⟩
  unfold memEntry memFileType
  rw [hname, hino, h (offset + 7) (by omega)]

theorem entriesFrom_congr (h : ∀ k, offset ≤ k → mem k = mem' k) :
    entriesFrom mem offset = entriesFrom mem' offset := by
  have hscan : ∀ fuel o, offset ≤ o → scanEntries mem fuel o = scanEntries mem' fuel o := by
    intro fuel
    induction fuel with
    | zero => exact fun _ _ => rfl
    | succ fuel ih =>
        intro o ho
        obtain ⟨hlen, hino, hentry⟩ := memEntry_congr fun k hk => h k (ho.trans hk)
        rw [scanEntries, scanEntries, hlen, hino, hentry, ih _ (by omega)]
  exact hscan _ _ le_rfl

/-! ## `SYSCALL_READ_DIR` -/

/-- The request of the shell for the content of a directory. -/
def dirRequest (buf : Memory) (parentInode : BitVec 32) : Request where
  buf := buf
  name := .mk [] (Nat.zero_le _)
  name_null := true
  parent_inode := parentInode
  buffer_size := BitVec.ofNat 32 dirBufferSize
  is_directory := true

/-- The blocks of directory `p` that have a place in `dir_buffer`. -/
def shownBlocks (s : Fs) (p : ℕ) : List ℕ := ((view s).dirBlocks p).take 8

/-- `dir_buffer` after directory `p` has been read into it. -/
def overlay (s : Fs) (p : ℕ) (mem : Memory) : Memory := fun k =>
  if k < blockSize * (shownBlocks s p).length then
    byte ((view s).data ((shownBlocks s p)[k / blockSize]?.getD 0)) (k % blockSize)
  else mem k

/-- The entries of directory `p` that the loops get to see. -/
def shownEntries (s : Fs) (p : ℕ) : List DirEntry :=
  (shownBlocks s p).flatMap fun b => blockEntries ((view s).data b)

/-- What the loops find behind them, in bytes that were there before. -/
def staleEntries (s : Fs) (p : ℕ) (mem : Memory) : List DirEntry :=
  entriesFrom mem (blockSize * (shownBlocks s p).length)

/-- The entries of directory `p` that have no place in `dir_buffer`. -/
def hiddenEntries (s : Fs) (p : ℕ) : List DirEntry :=
  (((view s).dirBlocks p).drop 8).flatMap fun b => blockEntries ((view s).data b)

theorem shown_hidden (s : Fs) (p : ℕ) :
    shownEntries s p ++ hiddenEntries s p = (view s).dirEntries p := by
  unfold shownEntries hiddenEntries shownBlocks Volume.dirEntries
  rw [← List.flatMap_append, List.take_append_drop]

theorem shownBlocks_length (s : Fs) (p : ℕ) : (shownBlocks s p).length ≤ 8 := by
  rw [shownBlocks, List.length_take]
  exact Nat.min_le_left ..

theorem readDirectory_dir (hs : Settled (view s)) (hd : ((view s).inode p).isDir = true)
    (env : Env) (mem : Memory) {parentInode : BitVec 32} (hp : parentInode.toNat = p) :
    readDirectory env s (dirRequest mem parentInode) = (0, overlay s p mem) := by
  have hslot := isSlot_of_isDir hd
  have hinode : readInode env s p = some (inodeAt s p) := hs.readInode env hslot
  obtain ⟨K, hK, heq, hne, hzero⟩ := ((view s).inode p).dirBlocks_eq
  have hshown : shownBlocks s p = (List.range (min 8 K)).map (inodeAt s p).block := by
    rw [shownBlocks, Volume.dirBlocks, heq, ← List.map_take, List.take_range]
    rfl
  have hlen : (shownBlocks s p).length = min 8 K := by
    rw [hshown, List.length_map, List.length_range]
  unfold readDirectory
  rw [if_neg hs.initialized_ne, show (dirRequest mem parentInode).parent = p from hp, hinode]
  dsimp only
  rw [if_neg (Bool.not_eq_false _ ▸ hd : ¬ (inodeAt s p).isDir = false)]
  by_cases h0 : (inodeAt s p).block 0 = 0
  · -- a directory without a block
    have hK0 : K = 0 := by
      by_contra hpos
      exact hne 0 (by omega) h0
    rw [if_pos h0]
    congr 1
    funext k
    exact (if_neg (by rw [hlen, hK0, Nat.min_zero, Nat.mul_zero]; exact Nat.not_lt_zero k)).symm
  · -- the pointers in use are the first `K`
    let ptr : ℕ → ℕ := fun k => if k < 12 then (inodeAt s p).block k else 0
    have hptr : (List.range 12).map (inodeAt s p).block = (List.range' 0 12).map ptr := by
      rw [← List.range_eq_range']
      apply List.map_congr_left
      intro k hk
      exact (if_pos (List.mem_range.mp hk)).symm
    have hcontig := (hs.sound.dirs p hd).contiguous
    have hend : ∀ k, K ≤ k → ptr k = 0 := by
      intro k hk
      by_cases h12 : k < 12
      · exact (if_pos h12).trans (hcontig K k hk h12 (hzero (by omega)))
      · exact if_neg h12
    have hbytes : ∀ i < min 4096 (512 * K), ptr (i / 512) ≠ 0 ∧
        byte (readBlocks s (ptr (i / 512))) (i % 512) =
          byte ((view s).data ((inodeAt s p).block (i / 512))) (i % 512) := by
      intro i hi
      have hin : ptr (i / 512) = (inodeAt s p).block (i / 512) := if_pos (by omega)
      have hb : (inodeAt s p).block (i / 512) ∈ (view s).dirBlocks p := by
        rw [Volume.dirBlocks, heq]
        exact List.mem_map_of_mem (List.mem_range.mpr (by omega))
      rw [hin]
      refine ⟨hne _ (by omega), ?_⟩
      rw [readBlocks_dir (hs.sound.shape hd) hb]
    have hcopy := copyBlocks_spec hbytes (fun _ => hend) 12 0 mem
    rw [Nat.mul_zero, Nat.min_zero, Nat.zero_add] at hcopy
    rw [if_neg h0, hptr, show (dirRequest mem parentInode).size = 4096 from rfl,
      show (dirRequest mem parentInode).buf = mem from rfl, hcopy]
    congr 1
    funext k
    dsimp only
    unfold overlay
    rw [hlen, blockSize]
    by_cases hk : k < 512 * min 8 K
    · rw [if_pos hk, if_pos (by omega), hshown, List.getElem?_map, List.getElem?_range (by omega)]
      rfl
    · rw [if_neg hk, if_neg (by omega)]

theorem overlay_block (mem : Memory) {i : ℕ} (hi : i < (shownBlocks s p).length) :
    BlockAt (overlay s p mem) (blockSize * i) ((view s).data (shownBlocks s p)[i]) := by
  intro k hk
  rw [blockSize] at hk ⊢
  unfold overlay
  rw [blockSize, if_pos (by omega), show (512 * i + k) / 512 = i by omega,
    show (512 * i + k) % 512 = k by omega, List.getElem?_eq_getElem hi]
  rfl

/-- A loop over `dir_buffer`, after a directory has been read into it, that passes a
tiled block with `step` and depends on no byte behind it. -/
theorem overlay_scan (hs : Settled (view s)) (hd : ((view s).inode p).isDir = true)
    (mem : Memory) {scan : Memory → ℕ → List DirEntry}
    {step : List (Rec DirEntry) → List DirEntry → List DirEntry}
    (hblock : ∀ {mem : Memory} {base : ℕ} {buf : Block} {rs : List (Rec DirEntry)},
      BlockAt mem base buf → base + blockSize ≤ dirBufferSize → Tiles buf 0 rs →
      scan mem base = step rs (scan mem (base + blockSize)))
    (hcongr : ∀ {mem mem' : Memory} {offset : ℕ}, (∀ k, offset ≤ k → mem k = mem' k) →
      scan mem offset = scan mem' offset) :
    scan (overlay s p mem) 0 =
      ((shownBlocks s p).map fun b => blockRecs ((view s).data b)).foldr step
        (scan mem (blockSize * (shownBlocks s p).length)) := by
  have hle := shownBlocks_length s p
  -- block `i` of the directory, and what is behind it
  have hblocks : ∀ i, i ≤ (shownBlocks s p).length →
      scan (overlay s p mem) (blockSize * i) =
        (((shownBlocks s p).drop i).map fun b => blockRecs ((view s).data b)).foldr step
          (scan mem (blockSize * (shownBlocks s p).length)) := by
    intro i hi
    induction hn : (shownBlocks s p).length - i generalizing i with
    | zero =>
        have hi' : i = (shownBlocks s p).length := by omega
        rw [hi', List.drop_length]
        apply hcongr
        intro k hk
        exact if_neg (by omega)
    | succ n ih =>
        have hlt : i < (shownBlocks s p).length := by omega
        have hmem : (shownBlocks s p)[i] ∈ (view s).dirBlocks p :=
          List.mem_of_mem_take (List.getElem_mem hlt)
        have hstep := hblock (overlay_block mem hlt) (by rw [blockSize, dirBufferSize]; omega)
          ((hs.sound.shape hd).tiled _ hmem)
        rw [← Nat.mul_succ, ih (i + 1) hlt (by omega)] at hstep
        rw [hstep, List.drop_eq_getElem_cons hlt]
        rfl
  exact hblocks 0 (Nat.zero_le _)

/-- The loops over `dir_buffer` after a directory has been read into it. -/
theorem entriesFrom_overlay (hs : Settled (view s)) (hd : ((view s).inode p).isDir = true)
    (mem : Memory) :
    entriesFrom (overlay s p mem) 0 = shownEntries s p ++ staleEntries s p mem := by
  have hfold : ∀ (bs : List ℕ) (rest : List DirEntry),
      (bs.map fun b => blockRecs ((view s).data b)).foldr (fun rs rest => items rs ++ rest) rest =
        bs.flatMap (fun b => blockEntries ((view s).data b)) ++ rest := by
    intro bs rest
    induction bs with
    | nil => rfl
    | cons b bs ih =>
        rw [List.map_cons, List.foldr_cons, ih, List.flatMap_cons, List.append_assoc]
        rfl
  have hscan := overlay_scan hs hd mem entriesFrom_block_zero entriesFrom_congr
  rw [hscan, hfold]
  rfl

end RendangOS.Shell
