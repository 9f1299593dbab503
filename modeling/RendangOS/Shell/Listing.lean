import RendangOS.Shell.DirBuffer
import RendangOS.Shell.Text
import RendangOS.Ext2.EntryKind

/-!
# `ls`

The loop of `cmd_ls` over `dir_buffer` ends at the first record without an inode,
where those of the kernel go on. Such a record stands at the start of a block
whose first entry has been deleted: `cmd_ls` then shows nothing of the blocks
from there on. Without one it goes on behind the directory, in old bytes.
-/

namespace RendangOS.Shell

open Ext2 Image RecordChain Assoc

/-! ## `cmd_ls` -/

/-- The records that the loop of `cmd_ls` passes from `offset` on. The first
argument counts the turns left. -/
def scanListed (mem : Memory) : ℕ → ℕ → List DirEntry
  | 0, _ => []
  | fuel + 1, offset =>
      if offset < dirBufferSize then
        if memInode mem offset = 0 ∨ memRecLen mem offset = 0 then []
        else memEntry mem offset :: scanListed mem fuel (offset + memRecLen mem offset)
      else []

def listedFrom (mem : Memory) (offset : ℕ) : List DirEntry :=
  scanListed mem (dirBufferSize - offset) offset

/-- The name of an entry, a slash for a directory, two blanks. -/
def lsLine (e : DirEntry) : Text :=
  e.name.bytes ++ (if e.fileType = ext2FtDir then slash else []) ++ [0x20, 0x20]

inductive LsReport where
  /-- `"ls: Cannot read directory"` -/
  | unreadable
  | listed (lines : List Text)
deriving DecidableEq

def cmdLs (env : Env) (sh : Statics) (s : Fs) : LsReport × Statics :=
  let ret := readDirectory env s (dirRequest sh.dir_buffer sh.current_dir_inode)
  let sh := { sh with dir_buffer := ret.2 }
  if ret.1 ≠ 0 then (.unreadable, sh)
  else (.listed ((listedFrom sh.dir_buffer 0).map lsLine), sh)

/-- `cmd_ls` prints the entries of the current directory, each once and in order. -/
def LsExact (env : Env) (sh : Statics) (s : Fs) : Prop :=
  (cmdLs env sh s).1 = .listed (((view s).dirEntries sh.dir).map lsLine)

/-! ## When it does -/

/-- The records of the first eight blocks of directory `p`. -/
def shownRecs (s : Fs) (p : ℕ) : List (Rec DirEntry) :=
  (shownBlocks s p).flatMap fun b => blockRecs ((view s).data b)

/-- The record holds an entry. -/
def live (r : Rec DirEntry) : Bool := r.item.isSome

/-- The entries in front of the first empty record, -/
def reachedEntries (s : Fs) (p : ℕ) : List DirEntry := items ((shownRecs s p).takeWhile live)

/-- and those behind it. -/
def cutEntries (s : Fs) (p : ℕ) : List DirEntry := items ((shownRecs s p).dropWhile live)

/-- What the loop finds behind the blocks of the directory, where it gets there. -/
def leftEntries (s : Fs) (p : ℕ) (mem : Memory) : List DirEntry :=
  if (shownRecs s p).all live then listedFrom mem (blockSize * (shownBlocks s p).length) else []

/-- No entry is cut off, and where the loop leaves the blocks of the directory, the
buffer is at its end or goes on without an inode or a length. -/
structure LsSafe (s : Fs) (p : ℕ) (mem : Memory) : Prop where
  whole : hiddenEntries s p = []
  uncut : cutEntries s p = []
  clean : (shownRecs s p).all live = true → (shownBlocks s p).length < 8 →
    memInode mem (blockSize * (shownBlocks s p).length) = 0 ∨
      memRecLen mem (blockSize * (shownBlocks s p).length) = 0

variable {mem mem' : Memory} {offset p : ℕ} {env : Env} {sh : Statics} {s : Fs} {e : DirEntry}

/-! ## The loop -/

/-- Turns that are left over make no difference. -/
theorem scanListed_fuel : ∀ {fuel fuel' offset : ℕ}, dirBufferSize ≤ offset + fuel →
    dirBufferSize ≤ offset + fuel' → scanListed mem fuel offset = scanListed mem fuel' offset
  | 0, 0, _, _, _ => rfl
  | 0, fuel' + 1, offset, h, _ => by
      rw [scanListed, scanListed, if_neg (by omega)]
  | fuel + 1, 0, offset, _, h' => by
      rw [scanListed, scanListed, if_neg (by omega)]
  | fuel + 1, fuel' + 1, offset, h, h' => by
      rw [scanListed, scanListed]
      by_cases hend : memInode mem offset = 0 ∨ memRecLen mem offset = 0
      · rw [if_pos hend, if_pos hend]
      · have hlen := (not_or.mp hend).2
        have hrest : scanListed mem fuel (offset + memRecLen mem offset) =
            scanListed mem fuel' (offset + memRecLen mem offset) :=
          scanListed_fuel (by omega) (by omega)
        rw [if_neg hend, if_neg hend, hrest]

theorem listedFrom_of_ge (h : dirBufferSize ≤ offset) : listedFrom mem offset = [] := by
  rw [listedFrom, Nat.sub_eq_zero_of_le h]
  rfl

theorem listedFrom_eq (h : offset < dirBufferSize) :
    listedFrom mem offset =
      if memInode mem offset = 0 ∨ memRecLen mem offset = 0 then []
      else memEntry mem offset :: listedFrom mem (offset + memRecLen mem offset) := by
  have hfuel : dirBufferSize - offset = dirBufferSize - offset - 1 + 1 := by omega
  rw [listedFrom, hfuel, scanListed, if_pos h]
  by_cases hend : memInode mem offset = 0 ∨ memRecLen mem offset = 0
  · rw [if_pos hend, if_pos hend]
  · have hlen := (not_or.mp hend).2
    have hrest : scanListed mem (dirBufferSize - offset - 1) (offset + memRecLen mem offset) =
        scanListed mem (dirBufferSize - (offset + memRecLen mem offset))
          (offset + memRecLen mem offset) := scanListed_fuel (by omega) (by omega)
    rw [if_neg hend, if_neg hend, listedFrom, hrest]

/-- An inode number has four bytes in the buffer. -/
theorem listedFrom_inode_lt (he : e ∈ listedFrom mem offset) : e.inode < 2 ^ 32 := by
  unfold listedFrom at he
  generalize dirBufferSize - offset = fuel at he
  fun_induction scanListed mem fuel offset with
  | case1 => cases he
  | case2 fuel offset hlt hend => cases he
  | case3 fuel offset hlt hend ih =>
      rcases List.mem_cons.mp he with rfl | hrest
      · exact memInode_lt mem offset
      · exact ih hrest
  | case4 => cases he

/-- The entries of a chain up to its first empty record; behind the chain come those
of `rest`. -/
def listing : List (Rec DirEntry) → List DirEntry → List DirEntry
  | [], rest => rest
  | r :: rs, rest =>
      match r.item with
      | none => []
      | some e => e :: listing rs rest

theorem listing_append (rs rs' : List (Rec DirEntry)) (rest : List DirEntry) :
    listing (rs ++ rs') rest = listing rs (listing rs' rest) := by
  induction rs with
  | nil => rfl
  | cons r rs ih =>
      rw [List.cons_append, listing, listing]
      cases r.item with
      | none => rfl
      | some e => exact congrArg (e :: ·) ih

theorem listing_eq (rs : List (Rec DirEntry)) (rest : List DirEntry) :
    listing rs rest = items (rs.takeWhile live) ++ if rs.all live then rest else [] := by
  induction rs with
  | nil => rfl
  | cons r rs ih =>
      rw [listing, List.all_cons]
      cases hr : r.item with
      | none =>
          have hdead : live r = false := by rw [live, hr]; rfl
          rw [List.takeWhile_cons_of_neg (by rw [hdead]; decide), hdead]
          rfl
      | some e =>
          have hlive : live r = true := by rw [live, hr]; rfl
          rw [List.takeWhile_cons_of_pos hlive, hlive, Bool.true_and, items_cons, hr]
          exact congrArg (e :: ·) ih

/-- The loop passes the records of a tiled block up to the first empty one. -/
theorem listedFrom_block {base : ℕ} {buf : Block} (h : BlockAt mem base buf)
    (hbase : base + blockSize ≤ dirBufferSize) : ∀ {rs : List (Rec DirEntry)} {d : ℕ},
    Tiles buf d rs → listedFrom mem (base + d) = listing rs (listedFrom mem (base + blockSize))
  | [], d, ht => by
      have hd : d = blockSize := ht
      rw [hd, listing]
  | r :: rs, d, ht => by
      obtain ⟨h8, hneed, hle⟩ := ht.head
      obtain ⟨hr, -, -, htail⟩ := ht
      have hsize : d + (recAt buf d).need ≤ blockSize := by
        rw [hr, blockSize]
        omega
      obtain ⟨hlen, hitem⟩ := memEntry_block h hsize
      have hrest := listedFrom_block h hbase htail
      rw [hr] at hlen hitem
      have hlt : base + d < dirBufferSize := by
        rw [blockSize] at hbase
        omega
      rw [listedFrom_eq hlt, listing, ← hitem, hlen, Nat.add_assoc, hrest]
      by_cases hino : memInode mem (base + d) = 0
      · rw [if_pos (Or.inl hino), if_pos hino]
      · rw [if_neg (not_or.mpr ⟨hino, by omega⟩), if_neg hino]

theorem listedFrom_congr (h : ∀ k, offset ≤ k → mem k = mem' k) :
    listedFrom mem offset = listedFrom mem' offset := by
  have hscan : ∀ fuel o, offset ≤ o → scanListed mem fuel o = scanListed mem' fuel o := by
    intro fuel
    induction fuel with
    | zero => exact fun _ _ => rfl
    | succ fuel ih =>
        intro o ho
        obtain ⟨hlen, hino, hentry⟩ := memEntry_congr fun k hk => h k (ho.trans hk)
        rw [scanListed, scanListed, hlen, hino, hentry, ih _ (by omega)]
  exact hscan _ _ le_rfl

theorem listedFrom_block_zero {base : ℕ} {buf : Block} {rs : List (Rec DirEntry)}
    (h : BlockAt mem base buf) (hbase : base + blockSize ≤ dirBufferSize) (ht : Tiles buf 0 rs) :
    listedFrom mem base = listing rs (listedFrom mem (base + blockSize)) :=
  listedFrom_block h hbase ht

/-- The loop of `cmd_ls` after a directory has been read. -/
theorem listedFrom_overlay (hs : Settled (view s)) (hd : ((view s).inode p).isDir = true)
    (mem : Memory) :
    listedFrom (overlay s p mem) 0 = reachedEntries s p ++ leftEntries s p mem := by
  have hfold : ∀ (bs : List ℕ) (rest : List DirEntry),
      (bs.map fun b => blockRecs ((view s).data b)).foldr listing rest =
        listing (bs.flatMap fun b => blockRecs ((view s).data b)) rest := by
    intro bs rest
    induction bs with
    | nil => rfl
    | cons b bs ih => rw [List.map_cons, List.foldr_cons, ih, List.flatMap_cons, listing_append]
  have hscan := overlay_scan hs hd mem listedFrom_block_zero listedFrom_congr
  rw [hscan, hfold, listing_eq]
  rfl

/-! ## What is listed -/

theorem items_flatMap {α β : Type*} (f : α → List (Rec β)) (as : List α) :
    items (as.flatMap f) = as.flatMap fun a => items (f a) := by
  unfold items
  rw [List.filterMap_flatMap]

theorem reached_cut (s : Fs) (p : ℕ) : reachedEntries s p ++ cutEntries s p = shownEntries s p := by
  unfold reachedEntries cutEntries
  rw [items, items, ← List.filterMap_append, List.takeWhile_append_dropWhile]
  exact items_flatMap _ _

/-- The entries of a directory: reached, cut off, hidden. -/
theorem reached_cut_hidden (s : Fs) (p : ℕ) :
    reachedEntries s p ++ (cutEntries s p ++ hiddenEntries s p) = (view s).dirEntries p := by
  rw [← List.append_assoc, reached_cut, shown_hidden]

theorem cutEntries_eq_nil (h : (shownRecs s p).all live = true) : cutEntries s p = [] := by
  have hdrop : (shownRecs s p).dropWhile live = [] := by
    rw [List.dropWhile_eq_nil_iff]
    exact List.all_eq_true.mp h
  rw [cutEntries, hdrop]
  rfl

/-- Nothing is hidden where the blocks leave room in the buffer. -/
theorem hiddenEntries_eq_nil (h : (shownBlocks s p).length < 8) : hiddenEntries s p = [] := by
  have hdrop : ((view s).dirBlocks p).drop 8 = [] := by
    rw [shownBlocks, List.length_take] at h
    exact List.drop_eq_nil_of_le (by omega)
  rw [hiddenEntries, hdrop]
  rfl

/-- Old bytes are read only where nothing is cut off or hidden. -/
theorem leftEntries_cases (s : Fs) (p : ℕ) (mem : Memory) :
    leftEntries s p mem = [] ∨ cutEntries s p = [] ∧ hiddenEntries s p = [] := by
  by_cases hall : (shownRecs s p).all live = true
  · by_cases hroom : (shownBlocks s p).length < 8
    · exact Or.inr ⟨cutEntries_eq_nil hall, hiddenEntries_eq_nil hroom⟩
    · left
      have hfull : dirBufferSize ≤ blockSize * (shownBlocks s p).length := by
        rw [dirBufferSize, blockSize]
        omega
      rw [leftEntries, if_pos hall, listedFrom_of_ge hfull]
  · exact Or.inl (if_neg hall)

theorem leftEntries_eq_nil_iff : leftEntries s p mem = [] ↔
    ((shownRecs s p).all live = true → (shownBlocks s p).length < 8 →
      memInode mem (blockSize * (shownBlocks s p).length) = 0 ∨
        memRecLen mem (blockSize * (shownBlocks s p).length) = 0) := by
  unfold leftEntries
  by_cases hall : (shownRecs s p).all live = true
  · rw [if_pos hall]
    by_cases hroom : (shownBlocks s p).length < 8
    · rw [listedFrom_eq (by rw [dirBufferSize, blockSize]; omega)]
      split
      · next hend => exact ⟨fun _ _ _ => hend, fun _ => rfl⟩
      · next hend => exact ⟨fun hnil => (List.cons_ne_nil _ _ hnil).elim,
          fun hclean => absurd (hclean hall hroom) hend⟩
    · rw [listedFrom_of_ge (by rw [dirBufferSize, blockSize]; omega)]
      exact ⟨fun _ _ hroom' => absurd hroom' hroom, fun _ => rfl⟩
  · rw [if_neg hall]
    exact ⟨fun _ hall' => absurd hall' hall, fun _ => rfl⟩

/-- What the listing has too much is what it lacks. -/
theorem lsExact_iff_lines (hs : Settled (view s)) (hd : AllocatedDir s sh.dir) (env : Env) :
    LsExact env sh s ↔ (leftEntries s sh.dir sh.dir_buffer).map lsLine =
      (cutEntries s sh.dir ++ hiddenEntries s sh.dir).map lsLine := by
  have hls : (cmdLs env sh s).1 = .listed
      ((reachedEntries s sh.dir ++ leftEntries s sh.dir sh.dir_buffer).map lsLine) := by
    unfold cmdLs
    rw [readDirectory_dir hs hd.2 env sh.dir_buffer (show _ = sh.dir from rfl)]
    dsimp only
    rw [if_neg (by decide), listedFrom_overlay hs hd.2]
  unfold LsExact
  rw [hls, ← reached_cut_hidden, LsReport.listed.injEq, List.map_append, List.map_append,
    List.append_cancel_left_eq]

/-- **`ls` shows exactly the directory** when nothing is cut off, nothing lies behind
the eighth block, and the bytes behind the last one do not look like entries. -/
theorem ls_exact_iff (h : Reachable ProperCall s) (hd : AllocatedDir s sh.dir) (env : Env) :
    LsExact env sh s ↔ LsSafe s sh.dir sh.dir_buffer := by
  have hs : Settled (view s) := reachable_settled (h.mono fun _ _ hc => hc.onDirectory)
  rw [lsExact_iff_lines hs hd env]
  constructor
  · intro heq
    rcases leftEntries_cases s sh.dir sh.dir_buffer with hleft | ⟨hcut, hhidden⟩
    · rw [hleft, List.map_nil, eq_comm, List.map_eq_nil_iff, List.append_eq_nil_iff] at heq
      exact ⟨heq.2, heq.1, leftEntries_eq_nil_iff.mp hleft⟩
    · rw [hcut, hhidden] at heq
      exact ⟨hhidden, hcut, leftEntries_eq_nil_iff.mp (List.map_eq_nil_iff.mp heq)⟩
  · intro hsafe
    rw [hsafe.whole, hsafe.uncut, leftEntries_eq_nil_iff.mpr hsafe.clean]
    rfl

theorem ls_exact_smallFile : LsExact .zero .start (smallFile.run .zero freshFs).2 := by
  have hreach : Reachable ProperCall (smallFile.run .zero freshFs).2 :=
    (Reachable.fresh ProperCall).step .zero (by decide +kernel)
  have hroot : AllocatedDir (smallFile.run .zero freshFs).2 Statics.start.dir ∧
      hiddenEntries (smallFile.run .zero freshFs).2 Statics.start.dir = [] ∧
      cutEntries (smallFile.run .zero freshFs).2 Statics.start.dir = [] ∧
      memRecLen Statics.start.dir_buffer
        (blockSize * (shownBlocks (smallFile.run .zero freshFs).2 Statics.start.dir).length) =
          0 := by
    decide +kernel
  generalize (smallFile.run .zero freshFs).2 = s at *
  obtain ⟨hd, hhidden, hcut, hend⟩ := hroot
  exact (ls_exact_iff hreach hd .zero).mpr ⟨hhidden, hcut, fun _ _ => Or.inr hend⟩

/-! ## A listing that goes on in the bytes of another -/

/-- A folder and two files in the root directory, whose names fill two blocks. -/
def wideRoot : List Call := [.write (.folder 2 (.letter 0x64)), longFile 0, longFile 1]

/-- The shell after `ls` in a directory and a change to another one. -/
def lsThenIn (env : Env) (sh : Statics) (s : Fs) (inode : BitVec 32) : Statics :=
  { (cmdLs env sh s).2 with current_dir_inode := inode }

/-- `ls` in the root directory, and then in the folder. -/
theorem ls_shows_other_directory :
    Reachable ProperCall (runCalls wideRoot freshFs) ∧
      AllocatedDir (runCalls wideRoot freshFs) 12 ∧
      ¬ LsExact .zero (lsThenIn .zero .start (runCalls wideRoot freshFs) 12)
        (runCalls wideRoot freshFs) := by
  have hrun : allProper wideRoot freshFs = true ∧ AllocatedDir (runCalls wideRoot freshFs) 12 ∧
      (leftEntries (runCalls wideRoot freshFs) 12
        (lsThenIn .zero .start (runCalls wideRoot freshFs) 12).dir_buffer).length = 1 := by
    decide +kernel
  obtain ⟨hproper, hd, hleft⟩ := hrun
  have hreach := (Reachable.fresh ProperCall).runCalls hproper
  refine ⟨hreach, hd, ?_⟩
  generalize runCalls wideRoot freshFs = s at *
  intro hexact
  have hs : Settled (view s) := reachable_settled (hreach.mono fun _ _ hc => hc.onDirectory)
  have hdir : (lsThenIn .zero .start s 12).dir = 12 := rfl
  rw [lsExact_iff_lines hs (hdir ▸ hd) .zero, hdir] at hexact
  -- one entry too many, and none that is lacking
  rcases leftEntries_cases s 12 (lsThenIn .zero .start s 12).dir_buffer with
    hnil | ⟨hcut, hhidden⟩
  · rw [hnil] at hleft
    cases hleft
  · rw [hcut, hhidden] at hexact
    rw [List.map_eq_nil_iff.mp hexact] at hleft
    cases hleft

end RendangOS.Shell
