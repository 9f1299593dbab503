import RendangOS.Ext2.Directory
import RendangOS.Lib.RecordChain

/-!
# Record chains in a directory block

A directory block is a chain of records from offset 0 to the end of the block
(`Tiles`). On such a block the three scans of `ext2.c` compute the lookup,
`RecordChain.insert` and `RecordChain.remove` on the records of the chain, and
read no byte behind the block.
-/

namespace RendangOS.Ext2

open Image RecordChain

variable {w w' : ℕ}

/-! ## Records of a block -/

/-- What a live record says. -/
structure DirEntry where
  name : EntryName
  inode : ℕ
  fileType : BitVec 8
deriving DecidableEq

theorem entNameLen_le (buf : BitVec w) (offset : ℕ) : entNameLen buf offset ≤ 255 :=
  Nat.le_of_lt_succ (buf.extractLsb' (8 * (offset + 6)) 8).isLt

/-- The name of the record at `offset`. -/
def entName (buf : BitVec w) (offset : ℕ) : EntryName where
  bytes := getEntryName buf offset (entNameLen buf offset)
  bound := by simpa [getEntryName] using entNameLen_le buf offset

/-- The record at `offset`. -/
def recAt (buf : BitVec w) (offset : ℕ) : Rec DirEntry where
  len := entRecLen buf offset
  need := getEntryRecordLen (entNameLen buf offset)
  item :=
    if entInode buf offset = 0 then none
    else some ⟨entName buf offset, entInode buf offset, entFileType buf offset⟩

/-- The records `rs` tile the block from `offset` to its end. -/
def Tiles (buf : BitVec w) : ℕ → List (Rec DirEntry) → Prop
  | offset, [] => offset = 512
  | offset, r :: rs =>
      recAt buf offset = r ∧ r.need ≤ r.len ∧ 4 ∣ r.len ∧ Tiles buf (offset + r.len) rs

/-- The records a scan passes from `offset` on. -/
def walk (buf : BitVec w) : ℕ → ℕ → List (Rec DirEntry)
  | 0, _ => []
  | fuel + 1, offset =>
      if offset < blockSize then
        if entRecLen buf offset = 0 then []
        else recAt buf offset :: walk buf fuel (offset + entRecLen buf offset)
      else []

theorem recordLen_ge (n : ℕ) : 8 + n ≤ getEntryRecordLen n := by
  simp only [getEntryRecordLen, entryHeader]
  omega

theorem recordLen_le {n : ℕ} (h : n ≤ 255) : getEntryRecordLen n ≤ 264 := by
  simp only [getEntryRecordLen, entryHeader]
  omega

theorem recordLen_dvd (n : ℕ) : 4 ∣ getEntryRecordLen n := Nat.dvd_mul_left _ _

theorem recAt_need_ge (buf : BitVec w) (offset : ℕ) : 8 ≤ (recAt buf offset).need :=
  le_trans (Nat.le_add_right _ _) (recordLen_ge _)

theorem Tiles.le {buf : BitVec w} : ∀ {rs : List (Rec DirEntry)} {offset : ℕ},
    Tiles buf offset rs → offset ≤ 512
  | [], _, h => le_of_eq h
  | _ :: _, _, ⟨_, _, _, h⟩ => by
      have := h.le
      omega

/-- The head of a chain lies inside the block. -/
theorem Tiles.head {buf : BitVec w} {r : Rec DirEntry} {rs : List (Rec DirEntry)} {offset : ℕ}
    (h : Tiles buf offset (r :: rs)) :
    8 ≤ r.need ∧ r.need ≤ r.len ∧ offset + r.len ≤ 512 := by
  obtain ⟨hr, hneed, _, htail⟩ := h
  exact ⟨hr ▸ recAt_need_ge buf offset, hneed, htail.le⟩

theorem entName_len (buf : BitVec w) (offset : ℕ) :
    (entName buf offset).len = entNameLen buf offset := by
  simp [entName, EntryName.len, getEntryName]

/-- A record of the chain holds what it needs: its header and its name. -/
theorem Tiles.record {buf : BitVec w} : ∀ {rs : List (Rec DirEntry)} {offset : ℕ},
    Tiles buf offset rs → ∀ r ∈ rs,
      r.need ≤ r.len ∧ ∀ e ∈ r.item, r.need = getEntryRecordLen e.name.len
  | [], _, _, r, hr => absurd hr List.not_mem_nil
  | r :: rs, offset, ⟨heq, hneed, _, htail⟩, r', hr' => by
      rcases List.mem_cons.mp hr' with rfl | hr'
      · refine ⟨hneed, fun e he => ?_⟩
        rw [← heq, recAt] at he ⊢
        dsimp only at he ⊢
        split at he
        · cases he
        · cases he
          exact congrArg getEntryRecordLen (entName_len buf offset).symm
      · exact htail.record r' hr'

/-! ## Congruence -/

theorem getEntryName_congr {x : BitVec w} {y : BitVec w'} {offset n : ℕ}
    (h : Agree x y (8 * offset) (8 * (offset + 8 + n))) :
    getEntryName x offset n = getEntryName y offset n := by
  unfold getEntryName
  apply List.map_congr_left
  intro k hk
  rw [List.mem_range] at hk
  exact h.extract (by simp only [entryHeader]; omega) (by simp only [entryHeader]; omega)

theorem header_congr {x : BitVec w} {y : BitVec w'} {offset : ℕ}
    (h : Agree x y (8 * offset) (8 * (offset + 8))) :
    entInode x offset = entInode y offset ∧ entRecLen x offset = entRecLen y offset ∧
      entNameLen x offset = entNameLen y offset ∧ entFileType x offset = entFileType y offset := by
  refine ⟨?_, ?_, ?_, ?_⟩
  · exact congrArg BitVec.toNat (h.extract le_rfl (by omega))
  · exact congrArg BitVec.toNat (h.extract (by omega) (by omega))
  · exact congrArg BitVec.toNat (h.extract (by omega) (by omega))
  · exact h.extract (by omega) (by omega)

/-- A record depends on its header and its name alone. -/
theorem recAt_congr {x : BitVec w} {y : BitVec w'} {offset : ℕ}
    (h : Agree x y (8 * offset) (8 * (offset + (recAt x offset).need))) :
    recAt x offset = recAt y offset := by
  have hneed := recordLen_ge (entNameLen x offset)
  change Agree x y (8 * offset) (8 * (offset + getEntryRecordLen (entNameLen x offset))) at h
  obtain ⟨hino, hlen, hname, htype⟩ := header_congr (h.mono le_rfl (by omega))
  have hbytes : entName x offset = entName y offset := by
    unfold entName
    congr 1
    rw [hname] at h hneed ⊢
    exact getEntryName_congr (h.mono le_rfl (by omega))
  unfold recAt
  rw [hino, hlen, hname, htype, hbytes]

theorem Tiles.congr {x : BitVec w} {y : BitVec w'} : ∀ {rs : List (Rec DirEntry)} {offset : ℕ},
    Tiles x offset rs → Agree x y (8 * offset) 4096 → Tiles y offset rs
  | [], _, h, _ => h
  | r :: rs, offset, h, hxy => by
      obtain ⟨_, hneed, hle⟩ := h.head
      obtain ⟨hr, hfit, hdvd, htail⟩ := h
      have hrec : recAt x offset = recAt y offset :=
        recAt_congr (hxy.mono le_rfl (by rw [hr]; omega))
      exact ⟨hrec ▸ hr, hfit, hdvd, htail.congr (hxy.mono (by omega) le_rfl)⟩

/-- The chain of a block is what a scan passes. -/
theorem Tiles.walk_eq {buf : BitVec w} : ∀ {rs : List (Rec DirEntry)} {fuel offset : ℕ},
    Tiles buf offset rs → 512 ≤ offset + fuel → walk buf fuel offset = rs
  | [], 0, _, _, _ => rfl
  | [], _ + 1, offset, h, _ => by
      have hoff : offset = 512 := h
      simp [walk, hoff]
  | r :: rs, 0, offset, h, hfuel => by
      have := h.head
      omega
  | r :: rs, fuel + 1, offset, h, hfuel => by
      obtain ⟨h8, hneed, hle⟩ := h.head
      obtain ⟨hr, _, _, htail⟩ := h
      have hlen : entRecLen buf offset = r.len := congrArg Rec.len hr
      rw [walk, blockSize, if_pos (by omega), if_neg (by omega), hr, hlen,
        htail.walk_eq (by omega)]

/-! ## Lookup -/

/-- The test of the scans for a live entry of a given name. -/
theorem match_iff (buf : BitVec w) (offset : ℕ) (name : EntryName) :
    (entInode buf offset ≠ 0 ∧ entNameLen buf offset = name.len ∧
      getEntryName buf offset name.len = name.bytes) ↔
    (recAt buf offset).item.any (fun e => decide (e.name = name)) = true := by
  by_cases hino : entInode buf offset = 0
  · simp [recAt, hino]
  · simp only [recAt, hino, if_false, Option.any_some, decide_eq_true_eq, ne_eq,
      not_false_eq_true, true_and]
    constructor
    · rintro ⟨hlen, hbytes⟩
      cases name with
      | mk bytes bound =>
          unfold entName
          congr 1
          rw [hlen]
          exact hbytes
    · rintro rfl
      have hlen : (entName buf offset).len = entNameLen buf offset := by
        simp [EntryName.len, entName, getEntryName]
      exact ⟨hlen.symm, by rw [hlen]; rfl⟩

/-- On a tiled block the scan of `find_entry_in_dir` is a lookup. -/
theorem findScan_eq {buf : Frame} (name : EntryName) :
    ∀ {rs : List (Rec DirEntry)} (fuel : ℕ) {offset : ℕ}, Tiles buf offset rs →
      512 ≤ offset + fuel →
      findScan buf name fuel offset =
        ((items rs).find? fun e => decide (e.name = name)).map DirEntry.inode
  | [], 0, _, _, _ => rfl
  | [], _ + 1, offset, h, _ => by
      have hoff : offset = 512 := h
      simp [findScan, hoff]
  | r :: rs, 0, offset, h, hfuel => by
      have := h.head
      omega
  | r :: rs, fuel + 1, offset, h, hfuel => by
      obtain ⟨h8, hneed, hle⟩ := h.head
      obtain ⟨hr, _, _, htail⟩ := h
      have hlen : entRecLen buf offset = r.len := congrArg Rec.len hr
      have ih := findScan_eq name fuel htail (by omega)
      rw [findScan, blockSize, if_pos (by omega), if_neg (by omega), hlen, ih, items_cons,
        List.find?_append]
      by_cases hm : r.item.any (fun e => decide (e.name = name)) = true
      · rw [if_pos ((match_iff buf offset name).mpr (by rw [hr]; exact hm))]
        have hitem : r.item = (recAt buf offset).item := by rw [hr]
        cases hi : r.item with
        | none => simp [hi] at hm
        | some e =>
            have hino : entInode buf offset = e.inode := by
              rw [hi] at hitem
              simp only [recAt] at hitem
              split at hitem
              · cases hitem
              · cases hitem
                rfl
            have hname : decide (e.name = name) = true := by simpa [hi] using hm
            simp [hname, hino]
      · rw [if_neg fun h => hm (by rw [← hr]; exact (match_iff buf offset name).mp h)]
        cases hi : r.item with
        | none => simp
        | some e =>
            have hname : ¬ e.name = name := by simpa [hi] using hm
            simp [hname]

/-! ## Writing a record -/

theorem agree_setEntRecLen (buf : BitVec w) (offset v : ℕ) {lo hi : ℕ}
    (h : hi ≤ 8 * (offset + 4) ∨ 8 * (offset + 6) ≤ lo) :
    Agree (setEntRecLen buf offset v) buf lo hi :=
  agree_splice buf _ (by omega)

theorem agree_setEntInode (buf : BitVec w) (offset v : ℕ) {lo hi : ℕ}
    (h : hi ≤ 8 * offset ∨ 8 * (offset + 4) ≤ lo) :
    Agree (setEntInode buf offset v) buf lo hi :=
  agree_splice buf _ (by omega)

/-- Changing a record length leaves the rest of the record. -/
theorem recAt_setEntRecLen (buf : Block) {offset v : ℕ} (hoff : offset + 8 ≤ 512)
    (hv : v < 2 ^ 16) :
    recAt (setEntRecLen buf offset v) offset = { recAt buf offset with len := v } := by
  have hlow : Agree (setEntRecLen buf offset v) buf (8 * offset) (8 * (offset + 4)) :=
    agree_setEntRecLen buf offset v (Or.inl le_rfl)
  have hhigh : Agree (setEntRecLen buf offset v) buf (8 * (offset + 6)) (8 * (offset + 1000)) :=
    agree_setEntRecLen buf offset v (Or.inr le_rfl)
  have hlen : entRecLen (setEntRecLen buf offset v) offset = v := by
    unfold entRecLen setEntRecLen
    rw [extract_splice _ _ (by omega), BitVec.toNat_ofNat, Nat.mod_eq_of_lt hv]
  have hino : entInode (setEntRecLen buf offset v) offset = entInode buf offset :=
    congrArg BitVec.toNat (hlow.extract le_rfl (by omega))
  have hname : entNameLen (setEntRecLen buf offset v) offset = entNameLen buf offset :=
    congrArg BitVec.toNat (hhigh.extract le_rfl (by omega))
  have htype : entFileType (setEntRecLen buf offset v) offset = entFileType buf offset :=
    hhigh.extract (by omega) (by omega)
  have hbytes : entName (setEntRecLen buf offset v) offset = entName buf offset := by
    unfold entName getEntryName
    congr 1
    rw [hname]
    apply List.map_congr_left
    intro k hk
    rw [List.mem_range] at hk
    have := entNameLen_le buf offset
    exact hhigh.extract (by simp only [entryHeader]; omega) (by simp only [entryHeader]; omega)
  unfold recAt
  rw [hlen, hino, hname, htype, hbytes]

/-- Zeroing the inode of a record empties it. -/
theorem recAt_setEntInode_zero (buf : Block) {offset : ℕ} (hoff : offset + 8 ≤ 512) :
    recAt (setEntInode buf offset 0) offset = { recAt buf offset with item := none } := by
  have hhigh : Agree (setEntInode buf offset 0) buf (8 * (offset + 4)) (8 * (offset + 8)) :=
    agree_setEntInode buf offset 0 (Or.inr le_rfl)
  have hino : entInode (setEntInode buf offset 0) offset = 0 := by
    unfold entInode setEntInode
    rw [extract_splice _ _ (by omega)]
    rfl
  have hlen : entRecLen (setEntInode buf offset 0) offset = entRecLen buf offset :=
    congrArg BitVec.toNat (hhigh.extract le_rfl (by omega))
  have hname : entNameLen (setEntInode buf offset 0) offset = entNameLen buf offset :=
    congrArg BitVec.toNat (hhigh.extract (by omega) (by omega))
  unfold recAt
  rw [hlen, hino, hname, if_pos rfl]

section WriteEntry

variable {buf : Block} {offset inode recLen : ℕ} {name : EntryName} {fileType : BitVec 8}

theorem agree_writeEntry {lo hi : ℕ}
    (h : hi ≤ 8 * offset ∨ 8 * (offset + 8 + name.len) ≤ lo) :
    Agree (writeEntry buf offset inode recLen name fileType) buf lo hi := by
  unfold writeEntry setEntryName
  have hlen : name.len = name.bytes.length := rfl
  refine (agree_copyBytes _ _ _ _ (by simp only [entryHeader]; omega)).trans ?_
  refine (agree_setEntRecLen _ _ _ (by omega)).trans ?_
  refine (agree_splice _ _ (by omega)).trans ?_
  refine (agree_splice _ _ (by omega)).trans ?_
  exact agree_setEntInode _ _ _ (by omega)

/-- The header just written, seen through the name copy behind it. -/
theorem header_writeEntry (buf : Block) (name : EntryName) (fileType : BitVec 8)
    (hfit : offset + 8 ≤ 512) (hino : inode < 2 ^ 32) (hrec : recLen < 2 ^ 16) :
    entInode (writeEntry buf offset inode recLen name fileType) offset = inode ∧
    entRecLen (writeEntry buf offset inode recLen name fileType) offset = recLen ∧
    entNameLen (writeEntry buf offset inode recLen name fileType) offset = name.len ∧
    entFileType (writeEntry buf offset inode recLen name fileType) offset = fileType := by
  have hcopy : Agree (writeEntry buf offset inode recLen name fileType)
      (setEntRecLen (setEntFileType (setEntNameLen (setEntInode buf offset inode) offset name.len)
        offset fileType) offset recLen) (8 * offset) (8 * (offset + 8)) :=
    agree_copyBytes _ _ _ _ (Or.inl (by simp only [entryHeader]; omega))
  obtain ⟨h1, h2, h3, h4⟩ := header_congr hcopy
  have hname : name.len < 2 ^ 8 := Nat.lt_succ_of_le name.bound
  refine ⟨h1.trans ?_, h2.trans ?_, h3.trans ?_, h4.trans ?_⟩ <;>
    simp (disch := omega) only [entInode, entRecLen, entNameLen, entFileType, setEntRecLen,
      setEntFileType, setEntNameLen, setEntInode, extract_splice_ne, extract_splice,
      BitVec.toNat_ofNat, Nat.mod_eq_of_lt]

theorem name_writeEntry (hfit : offset + 8 + name.len ≤ 512) :
    getEntryName (writeEntry buf offset inode recLen name fileType) offset name.len =
      name.bytes := by
  unfold getEntryName writeEntry setEntryName
  apply List.ext_getElem
  · simp [EntryName.len]
  · intro k h1 h2
    have hk : offset + entryHeader ≤ offset + entryHeader + k ∧
        offset + entryHeader + k < offset + entryHeader + name.bytes.length := by omega
    have hlen : name.len = name.bytes.length := rfl
    rw [List.getElem_map, List.getElem_range,
      byte_copyBytes _ _ _ (by simp only [entryHeader]; omega), if_pos hk,
      show offset + entryHeader + k - (offset + entryHeader) = k by omega]
    simp [h2]

theorem recAt_writeEntry (hfit : offset + 8 + name.len ≤ 512) (hino : inode < 2 ^ 32)
    (hrec : recLen < 2 ^ 16) :
    recAt (writeEntry buf offset inode recLen name fileType) offset =
      ⟨recLen, getEntryRecordLen name.len,
        if inode = 0 then none else some ⟨name, inode, fileType⟩⟩ := by
  obtain ⟨h1, h2, h3, h4⟩ := header_writeEntry buf name fileType
    (show offset + 8 ≤ 512 by omega) hino hrec
  have hname : entName (writeEntry buf offset inode recLen name fileType) offset = name := by
    unfold entName
    congr 1
    rw [h3]
    exact name_writeEntry hfit
  unfold recAt
  rw [h1, h2, h3, h4, hname]

end WriteEntry

/-! ## Insertion -/

/-- The block after `add_entry_to_dir` has cut record `r` at `offset`. -/
theorem tiles_split {view : Frame} {buf : Block} {r : Rec DirEntry} {rs : List (Rec DirEntry)}
    {offset inode : ℕ} {name : EntryName} {fileType : BitVec 8}
    (h : Tiles view offset (r :: rs)) (hview : Agree view buf 0 4096)
    (hino : inode ≠ 0) (hino' : inode < 2 ^ 32)
    (hroom : r.need + getEntryRecordLen name.len ≤ r.len) :
    Tiles (writeEntry (setEntRecLen buf offset r.need) (offset + r.need) inode
        (r.len - r.need) name fileType) offset
      (split r (getEntryRecordLen name.len) ⟨name, inode, fileType⟩ ++ rs) := by
  obtain ⟨h8, hneed, hle⟩ := h.head
  have hlen := recordLen_ge name.len
  have hbuf : Tiles buf offset (r :: rs) := h.congr (hview.mono (Nat.zero_le _) le_rfl)
  obtain ⟨hr, _, hdvd, htail⟩ := hbuf
  have hdvdneed : 4 ∣ r.need := hr ▸ recordLen_dvd _
  set buf' := writeEntry (setEntRecLen buf offset r.need) (offset + r.need) inode
    (r.len - r.need) name fileType with hbuf'
  have hlow : Agree buf' (setEntRecLen buf offset r.need) 0 (8 * (offset + r.need)) :=
    agree_writeEntry (Or.inl (by omega))
  have hfirst : recAt buf' offset = ⟨r.need, r.need, r.item⟩ := by
    have hcut : recAt (setEntRecLen buf offset r.need) offset = ⟨r.need, r.need, r.item⟩ := by
      rw [recAt_setEntRecLen buf (by omega) (by omega), hr]
    rw [← hcut]
    refine (recAt_congr ?_).symm
    rw [hcut]
    exact (hlow.mono (Nat.zero_le _) le_rfl).symm
  have hsecond : recAt buf' (offset + r.need) =
      ⟨r.len - r.need, getEntryRecordLen name.len, some ⟨name, inode, fileType⟩⟩ := by
    rw [hbuf', recAt_writeEntry (by omega) hino' (by omega), if_neg hino]
  have hrest : Tiles buf' (offset + r.len) rs := by
    refine htail.congr (Agree.symm ?_)
    refine (agree_writeEntry (Or.inr (by omega))).trans ?_
    exact agree_setEntRecLen buf offset r.need (Or.inr (by omega))
  refine ⟨hfirst, le_rfl, hdvdneed, hsecond, ?_, Nat.dvd_sub hdvd hdvdneed, ?_⟩
  · change getEntryRecordLen name.len ≤ r.len - r.need
    omega
  · change Tiles buf' (offset + r.need + (r.len - r.need)) rs
    rw [show offset + r.need + (r.len - r.need) = offset + r.len by omega]
    exact hrest

/-- On a tiled block the scan of `add_entry_to_dir` inserts into the chain. -/
theorem addScan_spec {view : Frame} {buf : Block} {inode : ℕ} (name : EntryName)
    (fileType : BitVec 8) (hview : Agree view buf 0 4096) (hino : inode ≠ 0)
    (hino' : inode < 2 ^ 32) :
    ∀ {rs : List (Rec DirEntry)} (fuel : ℕ) {offset : ℕ}, Tiles view offset rs →
      512 ≤ offset + fuel →
      match addScan view buf inode name fileType fuel offset with
      | none => RecordChain.insert (getEntryRecordLen name.len) ⟨name, inode, fileType⟩ rs = none
      | some buf' => ∃ rs',
          RecordChain.insert (getEntryRecordLen name.len) ⟨name, inode, fileType⟩ rs = some rs' ∧
          Tiles buf' offset rs' ∧ Agree buf' buf 0 (8 * offset)
  | [], 0, _, _, _ => rfl
  | [], _ + 1, offset, h, _ => by
      have hoff : offset = 512 := h
      simp [addScan, hoff, RecordChain.insert]
  | r :: rs, 0, offset, h, hfuel => by
      have := h.head
      omega
  | r :: rs, fuel + 1, offset, h, hfuel => by
      obtain ⟨h8, hneed, hle⟩ := h.head
      obtain ⟨hr, hfit, hdvd, htail⟩ := id h
      have hlen : entRecLen view offset = r.len := congrArg Rec.len hr
      have hact : getEntryRecordLen (entNameLen view offset) = r.need := congrArg Rec.need hr
      rw [addScan, blockSize, if_pos (by omega), hact, hlen]
      by_cases hroom : r.need + getEntryRecordLen name.len ≤ r.len
      · simp only [hroom, if_true, RecordChain.insert]
        refine ⟨_, rfl, tiles_split h hview hino hino' hroom, ?_⟩
        refine (agree_writeEntry (Or.inl (by omega))).trans ?_
        exact agree_setEntRecLen buf offset r.need (Or.inl (by omega))
      · simp only [hroom, if_false, RecordChain.insert]
        rw [if_neg (by omega)]
        have ih := addScan_spec name fileType hview hino hino' fuel htail (by omega)
        cases hadd : addScan view buf inode name fileType fuel (offset + r.len) with
        | none =>
            rw [hadd] at ih
            simp [ih]
        | some buf' =>
            rw [hadd] at ih
            obtain ⟨rs', hins, htiles, hagree⟩ := ih
            have hkeep : recAt buf' offset = r := by
              rw [← hr]
              refine (recAt_congr ?_).symm
              rw [hr]
              exact (hview.mono (Nat.zero_le _) (by omega)).trans
                (hagree.mono (Nat.zero_le _) (by omega)).symm
            exact ⟨r :: rs', by simp [hins], ⟨hkeep, hfit, hdvd, htiles⟩,
              hagree.mono le_rfl (by omega)⟩

/-! ## Removal -/

/-- The scan behind a record `pr` that stays. -/
theorem removeScan_after {view : Frame} {buf : Block} (name : EntryName)
    (hview : Agree view buf 0 4096) :
    ∀ {rs : List (Rec DirEntry)} {pr : Rec DirEntry} (fuel : ℕ) {p : ℕ}, Tiles view p (pr :: rs) →
      512 ≤ p + pr.len + fuel →
      match removeScan view buf name fuel (p + pr.len) (some p) with
      | none => removeAfter (fun e => decide (e.name = name)) pr rs = none
      | some buf' => ∃ rs', removeAfter (fun e => decide (e.name = name)) pr rs = some rs' ∧
          Tiles buf' p rs' ∧ Agree buf' buf 0 (8 * p)
  | [], pr, 0, p, h, _ => rfl
  | [], pr, _ + 1, p, h, _ => by
      have hoff : p + pr.len = 512 := h.2.2.2
      simp [removeScan, hoff, removeAfter]
  | r :: rs, pr, 0, p, h, hfuel => by
      have hhead : Tiles view (p + pr.len) (r :: rs) := h.2.2.2
      have := hhead.head
      omega
  | r :: rs, pr, fuel + 1, p, h, hfuel => by
      have hview' : Tiles buf p (pr :: r :: rs) := h.congr (hview.mono (Nat.zero_le _) le_rfl)
      obtain ⟨hpr, hprfit, hprdvd, hhead⟩ := id h
      obtain ⟨h8, hneed, hle⟩ := hhead.head
      obtain ⟨hr, hfit, hdvd, htail⟩ := id hhead
      have hlen : entRecLen view (p + pr.len) = r.len := congrArg Rec.len hr
      have hplen : entRecLen view p = pr.len := congrArg Rec.len hpr
      rw [removeScan, blockSize, if_pos (by omega), if_neg (by omega), hlen]
      by_cases hm : r.item.any (fun e => decide (e.name = name)) = true
      · rw [if_pos ((match_iff view _ name).mpr (by rw [hr]; exact hm))]
        simp only [removeAfter, hm, if_true, hplen]
        have h8p := h.head
        refine ⟨_, rfl, ⟨?_, ?_, Nat.dvd_add hprdvd hdvd, ?_⟩, ?_⟩
        · rw [recAt_setEntRecLen buf (by omega) (by omega), hview'.1]
        · change pr.need ≤ pr.len + r.len
          omega
        · change Tiles _ (p + (pr.len + r.len)) rs
          rw [← Nat.add_assoc]
          exact htail.congr ((hview.mono (Nat.zero_le _) le_rfl).trans
            (agree_setEntRecLen buf p _ (Or.inr (by omega))).symm)
        · exact agree_setEntRecLen buf p _ (Or.inl (by omega))
      · rw [if_neg fun h => hm (by rw [← hr]; exact (match_iff view _ name).mp h)]
        have ih := removeScan_after name hview fuel hhead (by omega)
        simp only [removeAfter, hm]
        cases hrem : removeScan view buf name fuel (p + pr.len + r.len) (some (p + pr.len)) with
        | none =>
            rw [hrem] at ih
            simp [ih]
        | some buf' =>
            rw [hrem] at ih
            obtain ⟨rs', hra, htiles, hagree⟩ := ih
            have hkeep : recAt buf' p = pr := by
              rw [← hpr]
              refine (recAt_congr ?_).symm
              rw [hpr]
              have := h.head
              exact (hview.mono (Nat.zero_le _) (by omega)).trans
                (hagree.mono (Nat.zero_le _) (by omega)).symm
            exact ⟨pr :: rs', by simp [hra], ⟨hkeep, hprfit, hprdvd, htiles⟩,
              hagree.mono le_rfl (by omega)⟩

/-- On a tiled block the scan of `remove_entry_from_dir` removes from the chain. -/
theorem removeScan_spec {view : Frame} {buf : Block} (name : EntryName)
    (hview : Agree view buf 0 4096) {rs : List (Rec DirEntry)} (h : Tiles view 0 rs) :
    match removeScan view buf name 512 0 none with
    | none => remove (fun e => decide (e.name = name)) rs = none
    | some buf' => ∃ rs', remove (fun e => decide (e.name = name)) rs = some rs' ∧
        Tiles buf' 0 rs' := by
  cases rs with
  | nil => exact absurd h (by simp [Tiles])
  | cons r rs =>
      have hbuf : Tiles buf 0 (r :: rs) := h.congr (hview.mono (Nat.zero_le _) le_rfl)
      obtain ⟨h8, hneed, hle⟩ := h.head
      obtain ⟨hr, hfit, hdvd, htail⟩ := id h
      have hlen : entRecLen view 0 = r.len := congrArg Rec.len hr
      rw [removeScan, blockSize, if_pos (by omega), if_neg (by omega), hlen]
      by_cases hm : r.item.any (fun e => decide (e.name = name)) = true
      · rw [if_pos ((match_iff view _ name).mpr (by rw [hr]; exact hm))]
        simp only [remove, hm, if_true]
        refine ⟨_, rfl, ⟨?_, hfit, hdvd, ?_⟩⟩
        · rw [recAt_setEntInode_zero buf (by omega), hbuf.1]
        · exact htail.congr ((hview.mono (Nat.zero_le _) le_rfl).trans
            (agree_setEntInode buf 0 0 (Or.inr (by omega))).symm)
      · rw [if_neg fun h => hm (by rw [← hr]; exact (match_iff view _ name).mp h)]
        have hafter := removeScan_after name hview 511 h (by omega)
        simp only [remove, hm]
        cases hrem : removeScan view buf name 511 (0 + r.len) (some 0) with
        | none =>
            rw [hrem] at hafter
            simpa using hafter
        | some buf' =>
            rw [hrem] at hafter
            obtain ⟨rs', hra, htiles, _⟩ := hafter
            exact ⟨rs', by simpa using hra, htiles⟩

end RendangOS.Ext2
