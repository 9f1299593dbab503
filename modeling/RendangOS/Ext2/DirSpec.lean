import RendangOS.Ext2.Chain
import RendangOS.Ext2.AllocSpec
import RendangOS.Lib.Assoc

/-!
# Directories on the volume

The entries of a directory are the live records of its blocks, in order. When
the blocks are tiled (`DirShape`), `find_entry_in_dir` is the lookup of a name
in these entries, `add_entry_to_dir` adds one entry, `remove_entry_from_dir`
drops one, and each rewrites one block of the directory or gives it a new one.
-/

namespace RendangOS.Ext2

open Image RecordChain Assoc

/-! ## The blocks of a directory -/

theorem takeWhile_map_range (f : ℕ → ℕ) (n : ℕ) :
    ∃ k ≤ n, ((List.range n).map f).takeWhile (· ≠ 0) = (List.range k).map f ∧
      (∀ i < k, f i ≠ 0) ∧ (k < n → f k = 0) := by
  induction n with
  | zero => exact ⟨0, le_rfl, rfl, by simp, by simp⟩
  | succ n ih =>
      obtain ⟨k, hk, heq, hne, hzero⟩ := ih
      rw [List.range_succ, List.map_append, List.takeWhile_append, heq]
      simp only [List.length_map, List.length_range]
      by_cases hkn : k = n
      · subst hkn
        rw [if_pos rfl]
        by_cases h0 : f k = 0
        · exact ⟨k, by omega, by simp [h0], hne, fun _ => h0⟩
        · refine ⟨k + 1, le_rfl, by simp [List.range_succ, h0], ?_, by simp⟩
          intro i hi
          rcases Nat.lt_succ_iff_lt_or_eq.mp hi with hlt | rfl
          · exact hne i hlt
          · exact h0
      · rw [if_neg hkn]
        exact ⟨k, by omega, rfl, hne, fun _ => hzero (by omega)⟩

/-- The direct pointers before the first zero one. -/
theorem EXT2Inode.dirBlocks_eq (x : EXT2Inode) :
    ∃ k ≤ 12, x.dirBlocks = (List.range k).map x.block ∧ (∀ i < k, x.block i ≠ 0) ∧
      (k < 12 → x.block k = 0) :=
  takeWhile_map_range x.block 12

theorem EXT2Inode.mem_dirBlocks {x : EXT2Inode} {b : ℕ} (h : b ∈ x.dirBlocks) :
    b ≠ 0 ∧ ∃ i < 12, x.block i = b := by
  obtain ⟨k, hk, heq, hne, -⟩ := x.dirBlocks_eq
  rw [heq, List.mem_map] at h
  obtain ⟨i, hi, rfl⟩ := h
  have hik := List.mem_range.mp hi
  exact ⟨hne i hik, i, by omega, rfl⟩

theorem nodup_dirBlocks {x : EXT2Inode}
    (h : ∀ i j, i < 12 → j < 12 → x.block i ≠ 0 → x.block i = x.block j → i = j) :
    x.dirBlocks.Nodup := by
  obtain ⟨k, hk, heq, hne, -⟩ := x.dirBlocks_eq
  rw [heq]
  refine List.Nodup.map_on ?_ List.nodup_range
  intro i hi j hj hij
  rw [List.mem_range] at hi hj
  exact h i j (by omega) (by omega) (hne i hi) hij

/-! ## Entries -/

/-- The records a scan of a block passes. -/
def blockRecs (buf : Block) : List (Rec DirEntry) := walk buf blockSize 0

def blockEntries (buf : Block) : List DirEntry := items (blockRecs buf)

theorem blockRecs_eq {buf : Block} {rs : List (Rec DirEntry)} (h : Tiles buf 0 rs) :
    blockRecs buf = rs :=
  h.walk_eq (by simp only [blockSize]; omega)

/-- What the name map of a directory says about a name, 0 when nothing. -/
def inodeOf (es : List DirEntry) (name : EntryName) : ℕ :=
  ((lookup DirEntry.name es name).map DirEntry.inode).getD 0

namespace Volume

def dirBlocks (v : Volume) (n : ℕ) : List ℕ := (v.inode n).dirBlocks

/-- The live entries of directory `n`. -/
def dirEntries (v : Volume) (n : ℕ) : List DirEntry :=
  (v.dirBlocks n).flatMap fun b => blockEntries (v.data b)

/-- The blocks of directory `n` lie behind the inode table and are tiled. -/
structure DirShape (v : Volume) (n : ℕ) : Prop where
  bounds : ∀ b ∈ v.dirBlocks n, 21 ≤ b ∧ b < 4096
  tiled : ∀ b ∈ v.dirBlocks n, Tiles (v.data b) 0 (blockRecs (v.data b))

end Volume

variable {env : Env} {s : Fs} {p n : ℕ} {name : EntryName}

theorem agree_frame (env : Env) (s : Fs) (buf : Block) : Agree (frame env s buf) buf 0 4096 :=
  agree_append _ _ le_rfl

theorem tiles_frame {buf : Block} {rs : List (Rec DirEntry)} (h : Tiles buf 0 rs) :
    Tiles (frame env s buf) 0 rs :=
  h.congr (agree_frame env s buf).symm

theorem readBlocks_dir (h : (view s).DirShape n) {b : ℕ} (hb : b ∈ (view s).dirBlocks n) :
    readBlocks s b = (view s).data b :=
  readBlocks_data s (h.bounds b hb).1 (lt_trans (h.bounds b hb).2 (by decide))

/-! ## `find_entry_in_dir` -/

theorem findSome_congr {α β : Type*} {f g : α → Option β} {bs : List α}
    (h : ∀ b ∈ bs, f b = g b) : bs.findSome? f = bs.findSome? g := by
  induction bs with
  | nil => rfl
  | cons b bs ih =>
      rw [List.findSome?_cons, List.findSome?_cons, h b List.mem_cons_self,
        ih fun c hc => h c (List.mem_cons_of_mem _ hc)]

theorem findSome_lookup (f : ℕ → List DirEntry) (name : EntryName) (bs : List ℕ) :
    bs.findSome? (fun b => (lookup DirEntry.name (f b) name).map DirEntry.inode) =
      (lookup DirEntry.name (bs.flatMap f) name).map DirEntry.inode := by
  induction bs with
  | nil => rfl
  | cons b bs ih =>
      rw [List.findSome?_cons, List.flatMap_cons, lookup_append, ih]
      cases lookup DirEntry.name (f b) name <;> rfl

theorem findEntryInDir_eq (ha : Addresses env s p n) (h : (view s).DirShape n)
    (name : EntryName) :
    findEntryInDir env s p name =
      if ((view s).inode n).isDir then inodeOf ((view s).dirEntries n) name else 0 := by
  unfold findEntryInDir
  rw [ha.readInode]
  simp only
  by_cases hd : ((view s).inode n).isDir = false
  · rw [if_pos hd, if_neg (by simp [hd])]
  · rw [if_neg hd, if_pos (by simpa using hd)]
    have hscan : ∀ b ∈ (view s).dirBlocks n,
        findScan (frame env s (readBlocks s b)) name blockSize 0 =
          (lookup DirEntry.name (blockEntries ((view s).data b)) name).map DirEntry.inode := by
      intro b hb
      rw [readBlocks_dir h hb]
      exact findScan_eq _ _ (tiles_frame (h.tiled b hb)) (by simp only [blockSize]; omega)
    exact congrArg (Option.getD · 0) ((findSome_congr hscan).trans (findSome_lookup _ _ _))

/-! ## Rewriting a block -/

namespace Volume

variable {v : Volume} {n b : ℕ} {buf : Block}

@[simp] theorem dirBlocks_setData : (v.setData b buf).dirBlocks n = v.dirBlocks n := rfl

theorem flatMap_setData (bs : List ℕ) (h : b ∉ bs) :
    (bs.flatMap fun c => blockEntries ((v.setData b buf).data c)) =
      bs.flatMap fun c => blockEntries (v.data c) := by
  refine List.flatMap_congr fun c hc => ?_
  have hcb : c ≠ b := fun he => h (he ▸ hc)
  exact congrArg blockEntries (Function.update_of_ne hcb ..)

/-- A block of no concern to directory `n`. -/
theorem dirEntries_setData (h : b ∉ v.dirBlocks n) :
    (v.setData b buf).dirEntries n = v.dirEntries n :=
  flatMap_setData _ h

/-- What a block gains, its directory gains. -/
theorem dirEntries_setData_perm {e : DirEntry} (hnd : (v.dirBlocks n).Nodup)
    (hb : b ∈ v.dirBlocks n) (hp : (blockEntries buf).Perm (e :: blockEntries (v.data b))) :
    ((v.setData b buf).dirEntries n).Perm (e :: v.dirEntries n) := by
  obtain ⟨pre, post, hsplit⟩ := List.append_of_mem hb
  rw [hsplit, List.nodup_append, List.nodup_cons] at hnd
  obtain ⟨-, ⟨hpost, -⟩, hdisj⟩ := hnd
  have hpre : b ∉ pre := fun h => hdisj b h b List.mem_cons_self rfl
  have hself : (v.setData b buf).data b = buf := Function.update_self ..
  unfold dirEntries
  rw [dirBlocks_setData, hsplit, List.flatMap_append, List.flatMap_append, List.flatMap_cons,
    List.flatMap_cons, flatMap_setData _ hpre, flatMap_setData _ hpost, hself]
  calc _ ++ (blockEntries buf ++ _)
      _ |>.Perm (_ ++ e :: (blockEntries (v.data b) ++ _)) := (hp.append_right _).append_left _
      _ |>.Perm _ := List.perm_middle

/-- What a block loses, its directory loses. -/
theorem dirEntries_setData_perm' {e : DirEntry} (hnd : (v.dirBlocks n).Nodup)
    (hb : b ∈ v.dirBlocks n) (hp : (blockEntries (v.data b)).Perm (e :: blockEntries buf)) :
    (v.dirEntries n).Perm (e :: (v.setData b buf).dirEntries n) := by
  have hself : (v.setData b buf).data b = buf := Function.update_self ..
  have hback : (v.setData b buf).setData b (v.data b) = v := by
    unfold setData
    simp only [Function.update_idem, Function.update_eq_self]
  have hp' : (blockEntries (v.data b)).Perm (e :: blockEntries ((v.setData b buf).data b)) := by
    rwa [hself]
  have h := dirEntries_setData_perm (v := v.setData b buf) hnd hb hp'
  rwa [hback] at h

theorem DirShape.setData (h : v.DirShape n) (ht : Tiles buf 0 (blockRecs buf)) :
    (v.setData b buf).DirShape n where
  bounds := h.bounds
  tiled := by
    intro c hc
    by_cases hcb : c = b
    · subst hcb
      rw [show (v.setData c buf).data c = buf from Function.update_self ..]
      exact ht
    · rw [show (v.setData b buf).data c = v.data c from Function.update_of_ne hcb ..]
      exact h.tiled c hc

end Volume

/-! ## `remove_entry_from_dir` -/

/-- The scan of one tiled block. -/
theorem removeScan_block (env : Env) (s : Fs) {buf : Block} (h : Tiles buf 0 (blockRecs buf))
    (name : EntryName) :
    match removeScan (frame env s buf) buf name blockSize 0 none with
    | none => name ∉ (blockEntries buf).map DirEntry.name
    | some buf' => Tiles buf' 0 (blockRecs buf') ∧
        remove (fun e => decide (e.name = name)) (blockRecs buf) = some (blockRecs buf') ∧
        ∃ e, lookup DirEntry.name (blockEntries buf) name = some e ∧
          (blockEntries buf).Perm (e :: blockEntries buf') := by
  have hscan := removeScan_spec name (agree_frame env s buf) (tiles_frame h)
  have hspec := remove_spec (p := fun e : DirEntry => decide (e.name = name)) (blockRecs buf)
  change match removeScan (frame env s buf) buf name 512 0 none with | none => _ | some _ => _
  cases hr : removeScan (frame env s buf) buf name 512 0 none with
  | none =>
      rw [hr] at hscan
      rw [hscan] at hspec
      intro hmem
      obtain ⟨e, he, hname⟩ := List.mem_map.mp hmem
      exact hspec e he (by simpa using hname)
  | some buf' =>
      rw [hr] at hscan
      obtain ⟨rs', hrem, htiles⟩ := hscan
      rw [hrem] at hspec
      have hrecs := blockRecs_eq htiles
      refine ⟨hrecs ▸ htiles, hrem.trans (congrArg some hrecs.symm), ?_⟩
      obtain ⟨e, hfind, hperm⟩ := hspec
      exact ⟨e, hfind, by rw [blockEntries, blockEntries, hrecs]; exact hperm⟩

/-- `remove_entry_from_dir` drops the entry that a lookup finds, or reports that
there is none. -/
theorem removeEntryFromDir_cases (ha : Addresses env s p n) (h : (view s).DirShape n)
    (name : EntryName) :
    (removeEntryFromDir env s p name = (-1, s) ∧
      name ∉ ((view s).dirEntries n).map DirEntry.name) ∨
    ∃ b ∈ (view s).dirBlocks n, ∃ buf e,
      removeEntryFromDir env s p name = (0, writeBlocks s buf b) ∧
      view (writeBlocks s buf b) = (view s).setData b buf ∧
      Tiles buf 0 (blockRecs buf) ∧
      lookup DirEntry.name ((view s).dirEntries n) name = some e ∧
      (blockEntries ((view s).data b)).Perm (e :: blockEntries buf) ∧
      remove (fun e => decide (e.name = name)) (blockRecs ((view s).data b)) =
        some (blockRecs buf) := by
  unfold removeEntryFromDir
  rw [ha.readInode]
  simp only
  cases hhit : ((view s).inode n).dirBlocks.findSome? fun b =>
      (removeScan (frame env s (readBlocks s b)) (readBlocks s b) name blockSize 0 none).map
        fun buf => (b, buf) with
  | none =>
      refine Or.inl ⟨rfl, ?_⟩
      rw [List.findSome?_eq_none_iff] at hhit
      intro hmem
      obtain ⟨e, he, hname⟩ := List.mem_map.mp hmem
      obtain ⟨b, hb, heb⟩ := List.mem_flatMap.mp he
      have hblock := removeScan_block env s (h.tiled b hb) name
      have hnone := hhit b hb
      rw [readBlocks_dir h hb, Option.map_eq_none_iff] at hnone
      rw [hnone] at hblock
      exact hblock (hname ▸ List.mem_map_of_mem heb)
  | some hit =>
      obtain ⟨pre, b, post, hsplit, hb, hpre⟩ := List.findSome?_eq_some_iff.mp hhit
      have hmem : ∀ c ∈ pre ++ b :: post, c ∈ (view s).dirBlocks n := fun c hc => by
        rw [Volume.dirBlocks, hsplit]
        exact hc
      have hbmem := hmem b (by simp)
      obtain ⟨buf, hscan, rfl⟩ := Option.map_eq_some_iff.mp hb
      rw [readBlocks_dir h hbmem] at hscan
      have hblock := removeScan_block env s (h.tiled b hbmem) name
      rw [hscan] at hblock
      obtain ⟨htiles, hchain, e, hlook, hperm⟩ := hblock
      have hbound := h.bounds b hbmem
      refine Or.inr ⟨b, hbmem, buf, e, rfl, ?_, htiles, ?_, hperm, hchain⟩
      · exact view_writeBlocks s buf hbound.1 (by omega)
      · -- the blocks before have no entry of that name
        have hskip : lookup DirEntry.name
            (pre.flatMap fun c => blockEntries ((view s).data c)) name = none := by
          rw [lookup_eq_none]
          intro hin
          obtain ⟨e', he', hname⟩ := List.mem_map.mp hin
          obtain ⟨c, hc, hec⟩ := List.mem_flatMap.mp he'
          have hcmem := hmem c (List.mem_append_left _ hc)
          have hcblock := removeScan_block env s (h.tiled c hcmem) name
          have hnone := hpre c hc
          rw [readBlocks_dir h hcmem, Option.map_eq_none_iff] at hnone
          rw [hnone] at hcblock
          exact hcblock (hname ▸ List.mem_map_of_mem hec)
        unfold Volume.dirEntries Volume.dirBlocks
        rw [hsplit, List.flatMap_append, List.flatMap_cons, lookup_append, hskip, lookup_append,
          hlook]
        rfl

/-! ## `add_entry_to_dir` -/

/-- The scan of the block that pointer `i` of the parent names. -/
def scanBlock (env : Env) (s : Fs) (x : EXT2Inode) (e : DirEntry) (i : ℕ) : Option Block :=
  addScan (frame env s (readBlocks s (x.block i))) (readBlocks s (x.block i)) e.inode e.name
    e.fileType blockSize 0

/-- The branch that gives the parent a new block through pointer `i`. -/
def growDir (env : Env) (s : Fs) (p : ℕ) (x : EXT2Inode) (e : DirEntry) (i : ℕ) : ℤ × Fs :=
  let r := allocateBlock env s
  if r.1 = 0 then (-1, r.2)
  else
    let s := writeInode env r.2 p (growInode x i r.1)
    (0, writeBlocks s (newDirBlock e.inode e.name e.fileType) r.1)

theorem addEntryLoop_free {env : Env} {s : Fs} {p i : ℕ} {x : EXT2Inode} {e : DirEntry}
    (h : x.block i = 0) (is : List ℕ) :
    addEntryLoop env p e.inode e.name e.fileType x (i :: is) s = growDir env s p x e i := by
  rw [addEntryLoop, if_pos h]
  rfl

theorem addEntryLoop_used {env : Env} {s : Fs} {p i : ℕ} {x : EXT2Inode} {e : DirEntry}
    (h : x.block i ≠ 0) (is : List ℕ) :
    addEntryLoop env p e.inode e.name e.fileType x (i :: is) s =
      match scanBlock env s x e i with
      | some buf => (0, writeBlocks s buf (x.block i))
      | none => addEntryLoop env p e.inode e.name e.fileType x is s := by
  rw [addEntryLoop, if_neg h]
  rfl

/-- The loop passes full blocks up to the first one with room or the first free
pointer. -/
theorem addEntryLoop_cases (env : Env) (s : Fs) (p : ℕ) (x : EXT2Inode) (e : DirEntry) :
    ∀ is : List ℕ,
      (addEntryLoop env p e.inode e.name e.fileType x is s = (-1, s) ∧
        ∀ j ∈ is, x.block j ≠ 0 ∧ scanBlock env s x e j = none) ∨
      ∃ pre i post, is = pre ++ i :: post ∧
        (∀ j ∈ pre, x.block j ≠ 0 ∧ scanBlock env s x e j = none) ∧
        ((∃ buf, x.block i ≠ 0 ∧ scanBlock env s x e i = some buf ∧
            addEntryLoop env p e.inode e.name e.fileType x is s =
              (0, writeBlocks s buf (x.block i))) ∨
          x.block i = 0 ∧
            addEntryLoop env p e.inode e.name e.fileType x is s = growDir env s p x e i)
  | [] => Or.inl ⟨rfl, by simp⟩
  | i :: is => by
      by_cases h0 : x.block i = 0
      · exact Or.inr ⟨[], i, is, rfl, by simp, Or.inr ⟨h0, addEntryLoop_free h0 is⟩⟩
      · rw [addEntryLoop_used h0]
        cases hscan : scanBlock env s x e i with
        | some buf => exact Or.inr ⟨[], i, is, rfl, by simp, Or.inl ⟨buf, h0, hscan, rfl⟩⟩
        | none =>
            have hi : x.block i ≠ 0 ∧ scanBlock env s x e i = none := ⟨h0, hscan⟩
            rcases addEntryLoop_cases env s p x e is with
              ⟨hres, hall⟩ | ⟨pre, k, post, hsplit, hpre, hcase⟩
            · exact Or.inl ⟨hres, List.forall_mem_cons.mpr ⟨hi, hall⟩⟩
            · exact Or.inr ⟨i :: pre, k, post, by rw [hsplit]; rfl,
                List.forall_mem_cons.mpr ⟨hi, hpre⟩, hcase⟩

/-- Three ends: every pointer is used and every block full, a block with room,
or a free pointer behind full blocks. -/
theorem addEntryToDir_cases (ha : Addresses env s p n) (e : DirEntry) :
    (addEntryToDir env s p e.inode e.name e.fileType = (-1, s) ∧
      ∀ j < 12, ((view s).inode n).block j ≠ 0 ∧
        scanBlock env s ((view s).inode n) e j = none) ∨
    ∃ i < 12, (∀ j < i, ((view s).inode n).block j ≠ 0 ∧
        scanBlock env s ((view s).inode n) e j = none) ∧
      ((∃ buf, ((view s).inode n).block i ≠ 0 ∧
          scanBlock env s ((view s).inode n) e i = some buf ∧
          addEntryToDir env s p e.inode e.name e.fileType =
            (0, writeBlocks s buf (((view s).inode n).block i))) ∨
        ((view s).inode n).block i = 0 ∧
          addEntryToDir env s p e.inode e.name e.fileType =
            growDir env s p ((view s).inode n) e i) := by
  unfold addEntryToDir
  rw [ha.readInode]
  rcases addEntryLoop_cases env s p ((view s).inode n) e (List.range 12) with
    ⟨hres, hall⟩ | ⟨pre, i, post, hsplit, hpre, hcase⟩
  · exact Or.inl ⟨hres, fun j hj => hall j (List.mem_range.mpr hj)⟩
  · have hlen : i = pre.length := by
      have htotal := congrArg List.length hsplit
      rw [List.length_range, List.length_append, List.length_cons] at htotal
      have hget : (List.range 12)[pre.length]? = some i := by rw [hsplit]; simp
      rw [List.getElem?_range (by omega)] at hget
      exact (Option.some.inj hget).symm
    have hlt : i < 12 := List.mem_range.mp (by rw [hsplit]; simp)
    refine Or.inr ⟨i, hlt, fun j hj => hpre j ?_, hcase⟩
    have hget : (List.range 12)[j]? = some j := List.getElem?_range (by omega)
    rw [hsplit, List.getElem?_append_left (by omega)] at hget
    exact List.mem_of_getElem? hget

/-- A record of the block has slack for an entry of that name. -/
def HasRoom (buf : Block) (name : EntryName) : Prop :=
  ∃ r ∈ blockRecs buf, r.need + getEntryRecordLen name.len ≤ r.len

/-- The entry fits in the present blocks of directory `n`. -/
def Volume.EntryFits (v : Volume) (n : ℕ) (name : EntryName) : Prop :=
  ∃ b ∈ v.dirBlocks n, HasRoom (v.data b) name

/-- The scan of one tiled block. -/
theorem addScan_block (env : Env) (s : Fs) {buf : Block} (h : Tiles buf 0 (blockRecs buf))
    {e : DirEntry} (h0 : e.inode ≠ 0) (hlt : e.inode < 2 ^ 32) :
    match addScan (frame env s buf) buf e.inode e.name e.fileType blockSize 0 with
    | none => ¬ HasRoom buf e.name
    | some buf' => HasRoom buf e.name ∧ Tiles buf' 0 (blockRecs buf') ∧
        (blockEntries buf').Perm (e :: blockEntries buf) := by
  have hscan := addScan_spec e.name e.fileType (agree_frame env s buf)
    h0 hlt blockSize (tiles_frame h) (by simp only [blockSize]; omega)
  cases hr : addScan (frame env s buf) buf e.inode e.name e.fileType blockSize 0 with
  | none =>
      rw [hr] at hscan
      rintro ⟨r, hr, hroom⟩
      have := insert_eq_none.mp hscan r hr
      omega
  | some buf' =>
      rw [hr] at hscan
      obtain ⟨rs', hins, htiles, -⟩ := hscan
      have hrecs := blockRecs_eq htiles
      refine ⟨?_, hrecs ▸ htiles, ?_⟩
      · by_contra hno
        have hnone : RecordChain.insert (getEntryRecordLen e.name.len)
            ⟨e.name, e.inode, e.fileType⟩ (blockRecs buf) = none :=
          insert_eq_none.mpr fun r hr => not_le.mp fun hle => hno ⟨r, hr, hle⟩
        rw [hins] at hnone
        cases hnone
      · rw [blockEntries, blockEntries, hrecs]
        exact items_insert hins

/-- The block `add_entry_to_dir` gives to a directory holds the new entry alone. -/
theorem newDirBlock_spec {e : DirEntry} (h0 : e.inode ≠ 0) (hlt : e.inode < 2 ^ 32) :
    Tiles (newDirBlock e.inode e.name e.fileType) 0
        (blockRecs (newDirBlock e.inode e.name e.fileType)) ∧
      blockEntries (newDirBlock e.inode e.name e.fileType) = [e] := by
  have hbound := e.name.bound
  have hlen : e.name.len = e.name.bytes.length := rfl
  have hrec : recAt (newDirBlock e.inode e.name e.fileType) 0 =
      ⟨512, getEntryRecordLen e.name.len, some e⟩ := by
    unfold newDirBlock
    rw [recAt_writeEntry (by omega) hlt (by decide), if_neg h0]
    rfl
  have htiles : Tiles (newDirBlock e.inode e.name e.fileType) 0
      [⟨512, getEntryRecordLen e.name.len, some e⟩] :=
    ⟨hrec, (recordLen_le hbound).trans (show 264 ≤ 512 by decide), (show 4 ∣ 512 by decide), rfl⟩
  rw [blockEntries, blockRecs_eq htiles]
  exact ⟨htiles, rfl⟩

theorem growInode_block (x : EXT2Inode) {i b : ℕ} (hi : i < 12) (hb : b < 2 ^ 32) (j : ℕ) :
    (growInode x i b).block j = if j = i then b else x.block j := by
  have hset := x.block_setBlock (k := i) (b := b) (j := j) (by omega) hb
  unfold EXT2Inode.block growInode
  exact hset

theorem growInode_isDir (x : EXT2Inode) (i b : ℕ) : (growInode x i b).isDir = x.isDir := by
  unfold EXT2Inode.isDir growInode EXT2Inode.setBlock
  rfl

theorem growInode_dirBlocks {x : EXT2Inode} {b : ℕ} (hlen : x.dirBlocks.length < 12)
    (h0 : b ≠ 0) (hb : b < 2 ^ 32)
    (hnext : x.dirBlocks.length + 1 < 12 → x.block (x.dirBlocks.length + 1) = 0) :
    (growInode x x.dirBlocks.length b).dirBlocks = x.dirBlocks ++ [b] := by
  obtain ⟨k, hk, heq, hne, -⟩ := x.dirBlocks_eq
  have hkl : x.dirBlocks.length = k := by rw [heq]; simp
  rw [hkl] at hlen hnext ⊢
  have hblock := growInode_block x hlen hb
  obtain ⟨k', hk', heq', hne', hzero'⟩ := (growInode x k b).dirBlocks_eq
  have hk'eq : k' = k + 1 := by
    rcases lt_trichotomy k' (k + 1) with hlt | h | hgt
    · have hz := hzero' (by omega)
      rw [hblock] at hz
      split at hz
      · exact absurd hz h0
      · exact absurd hz (hne k' (by omega))
    · exact h
    · have hz := hne' (k + 1) hgt
      rw [hblock, if_neg (by omega)] at hz
      exact absurd (hnext (by omega)) hz
  have hlow : (List.range k).map (growInode x k b).block = (List.range k).map x.block := by
    refine List.map_congr_left fun j hj => ?_
    have hjk := List.mem_range.mp hj
    rw [hblock, if_neg (by omega)]
  rw [heq', hk'eq, heq, List.range_succ, List.map_append, hlow, List.map_singleton, hblock,
    if_pos rfl]

/-- On a directory `add_entry_to_dir` splits a record of one of its blocks, or
takes the first free pointer, or finds neither. -/
theorem addEntryToDir_dir (ha : Addresses env s p n) (h : (view s).DirShape n) {e : DirEntry}
    (h0 : e.inode ≠ 0) (hlt : e.inode < 2 ^ 32) :
    ((view s).EntryFits n e.name ∧ ∃ b ∈ (view s).dirBlocks n, ∃ buf,
      addEntryToDir env s p e.inode e.name e.fileType = (0, writeBlocks s buf b) ∧
      view (writeBlocks s buf b) = (view s).setData b buf ∧
      Tiles buf 0 (blockRecs buf) ∧
      (blockEntries buf).Perm (e :: blockEntries ((view s).data b))) ∨
    (¬ (view s).EntryFits n e.name ∧ ((view s).dirBlocks n).length = 12 ∧
      addEntryToDir env s p e.inode e.name e.fileType = (-1, s)) ∨
    (¬ (view s).EntryFits n e.name ∧ ((view s).dirBlocks n).length < 12 ∧
      addEntryToDir env s p e.inode e.name e.fileType =
        growDir env s p ((view s).inode n) e ((view s).dirBlocks n).length) := by
  obtain ⟨k, hk, heq, hne, hzero⟩ := ((view s).inode n).dirBlocks_eq
  have hlen : ((view s).dirBlocks n).length = k := by
    rw [Volume.dirBlocks, heq]
    simp
  have hmem : ∀ j < k, ((view s).inode n).block j ∈ (view s).dirBlocks n := fun j hj => by
    rw [Volume.dirBlocks, heq]
    exact List.mem_map_of_mem (List.mem_range.mpr hj)
  have hscan : ∀ j < k, ∀ res, scanBlock env s ((view s).inode n) e j = res →
      addScan (frame env s ((view s).data (((view s).inode n).block j)))
        ((view s).data (((view s).inode n).block j)) e.inode e.name e.fileType blockSize 0 =
        res := by
    intro j hj res hres
    unfold scanBlock at hres
    rwa [readBlocks_dir h (hmem j hj)] at hres
  -- a passed block has no room
  have hfull : ∀ j < k, scanBlock env s ((view s).inode n) e j = none →
      ¬ HasRoom ((view s).data (((view s).inode n).block j)) e.name := by
    intro j hj hnone
    have hb := addScan_block env s (h.tiled _ (hmem j hj)) h0 hlt
    rw [hscan j hj _ hnone] at hb
    exact hb
  have hnofit : (∀ j < k, scanBlock env s ((view s).inode n) e j = none) →
      ¬ (view s).EntryFits n e.name := by
    rintro hall ⟨b, hb, hroom⟩
    rw [Volume.dirBlocks, heq] at hb
    obtain ⟨j, hj, rfl⟩ := List.mem_map.mp hb
    exact hfull j (List.mem_range.mp hj) (hall j (List.mem_range.mp hj)) hroom
  rcases addEntryToDir_cases ha e with ⟨hres, hall⟩ | ⟨i, hi, hpre, hcase⟩
  · have hk12 : k = 12 := by
      by_contra hne12
      exact (hall k (by omega)).1 (hzero (by omega))
    refine Or.inr (Or.inl ⟨hnofit fun j hj => (hall j (by omega)).2, by omega, hres⟩)
  · rcases hcase with ⟨buf, hused, hsome, hres⟩ | ⟨hfree, hres⟩
    · have hik : i < k := by
        by_contra hki
        rcases Nat.lt_or_ge k i with hlt' | hge
        · exact (hpre k hlt').1 (hzero (by omega))
        · exact hused ((show i = k by omega) ▸ hzero (by omega))
      have hb := addScan_block env s (h.tiled _ (hmem i hik)) h0 hlt
      rw [hscan i hik _ hsome] at hb
      obtain ⟨hroom, htiles, hperm⟩ := hb
      have hbound := h.bounds _ (hmem i hik)
      exact Or.inl ⟨⟨_, hmem i hik, hroom⟩, _, hmem i hik, buf, hres,
        view_writeBlocks s buf hbound.1 (by omega), htiles, hperm⟩
    · have hik : i = k := by
        rcases lt_trichotomy i k with hlt' | heq' | hgt
        · exact absurd hfree (hne i hlt')
        · exact heq'
        · exact absurd (hzero (by omega)) (hpre k hgt).1
      subst hik
      rw [hlen]
      exact Or.inr (Or.inr ⟨hnofit fun j hj => (hpre j hj).2, hi, hres⟩)

/-! ## Growth -/

/-- The metadata blocks and the root directory's place in front of the data
blocks are marked used. -/
def Volume.MetaUsed (v : Volume) : Prop := ∀ b < rootDirBlockLba, v.blockUsed b = true

/-- Directory `n` with inode `x` gets block `b` at pointer `i`, for the entry `e`. -/
def Volume.grow (v : Volume) (n : ℕ) (x : EXT2Inode) (i b : ℕ) (e : DirEntry) : Volume :=
  ((v.takeBlock b).setInode n (growInode x i b)).setData b
    (newDirBlock e.inode e.name e.fileType)

/-- A block that an allocation returns. -/
structure Volume.LeastFree (v : Volume) (b : ℕ) : Prop where
  lt : b < 256
  unused : v.blockUsed b = false
  least : ∀ c < b, v.blockUsed c = true

theorem Volume.LeastFree.ge {v : Volume} {b : ℕ} (h : v.LeastFree b) (hm : v.MetaUsed) :
    21 ≤ b := by
  by_contra hlt
  have hused := hm b (by simpa using hlt)
  rw [h.unused] at hused
  cases hused

theorem growDir_cases (ha : Addresses env s p n) (hm : (view s).MetaUsed) (x : EXT2Inode)
    (e : DirEntry) (i : ℕ) :
    (allocateBlock env s = (0, s) ∧ growDir env s p x e i = (-1, s)) ∨
    ∃ b, (view s).LeastFree b ∧ (view s).freeBlocks ≠ 0 ∧ (growDir env s p x e i).1 = 0 ∧
      view (growDir env s p x e i).2 = (view s).grow n x i b e := by
  rcases allocateBlock_cases env s with ⟨hfail, -⟩ | ⟨b, hb, hunused, hleast, hfree, hnum, hview⟩
  · refine Or.inl ⟨hfail, ?_⟩
    unfold growDir
    simp [hfail]
  · have hlf : (view s).LeastFree b := ⟨hb, hunused, hleast⟩
    have hge := hlf.ge hm
    have hgrow : growDir env s p x e i =
        (0, writeBlocks (writeInode env (allocateBlock env s).2 p (growInode x i b))
          (newDirBlock e.inode e.name e.fileType) b) := by
      unfold growDir
      simp only [hnum]
      rw [if_neg (by omega)]
    have ha' : Addresses env (allocateBlock env s).2 p n :=
      ha.congr (by rw [hview, Volume.tables_takeBlock])
    refine Or.inr ⟨b, hlf, hfree, by rw [hgrow], ?_⟩
    rw [hgrow]
    change view (writeBlocks _ _ b) = _
    rw [view_writeBlocks _ _ hge (by omega), ha'.writeInode, hview]
    rfl

namespace Volume

variable {v : Volume} {n b : ℕ} {e : DirEntry}

/-- The pointers in use are followed by free ones only. -/
def Contiguous (v : Volume) (n : ℕ) : Prop :=
  ∀ i j, i ≤ j → j < 12 → (v.inode n).block i = 0 → (v.inode n).block j = 0

theorem inode_grow_ne {m i : ℕ} (x : EXT2Inode) (h : m ≠ n) :
    (v.grow n x i b e).inode m = v.inode m :=
  Function.update_of_ne h ..

theorem inode_grow_self {i : ℕ} (x : EXT2Inode) :
    (v.grow n x i b e).inode n = growInode x i b :=
  Function.update_self ..

theorem data_grow_ne {i c : ℕ} (x : EXT2Inode) (h : c ≠ b) :
    (v.grow n x i b e).data c = v.data c :=
  Function.update_of_ne h ..

theorem data_grow_self {i : ℕ} (x : EXT2Inode) :
    (v.grow n x i b e).data b = newDirBlock e.inode e.name e.fileType :=
  Function.update_self ..

theorem blockUsed_grow {i c : ℕ} (x : EXT2Inode) :
    (v.grow n x i b e).blockUsed c = if c = b then true else v.blockUsed c :=
  Function.update_apply ..

theorem table_grow {i : ℕ} (x : EXT2Inode) :
    (v.grow n x i b e).group0.bg_inode_table = v.group0.bg_inode_table := by
  change (v.takeBlock b).group0.bg_inode_table = _
  rw [group0_takeBlock]

theorem Contiguous.next_zero (h : v.Contiguous n) {k : ℕ} (hk : k < 12)
    (hlen : (v.dirBlocks n).length ≤ k) : (v.inode n).block k = 0 := by
  obtain ⟨l, -, heq, -, hzero⟩ := (v.inode n).dirBlocks_eq
  have hl : (v.dirBlocks n).length = l := by
    rw [dirBlocks, heq]
    simp
  exact h l k (by omega) hk (hzero (by omega))

theorem dirBlocks_grow (hc : v.Contiguous n) (hlen : (v.dirBlocks n).length < 12) (h0 : b ≠ 0)
    (hb : b < 2 ^ 32) :
    (v.grow n (v.inode n) (v.dirBlocks n).length b e).dirBlocks n = v.dirBlocks n ++ [b] := by
  unfold dirBlocks
  rw [inode_grow_self]
  exact growInode_dirBlocks hlen h0 hb fun hlt => hc.next_zero hlt (Nat.le_succ _)

theorem contiguous_grow (hc : v.Contiguous n) (hlen : (v.dirBlocks n).length < 12) (h0 : b ≠ 0)
    (hb : b < 2 ^ 32) : (v.grow n (v.inode n) (v.dirBlocks n).length b e).Contiguous n := by
  intro i j hij hj hz
  have hblock := growInode_block (v.inode n) hlen hb
  rw [inode_grow_self, hblock] at hz ⊢
  split at hz
  · exact absurd hz h0
  · next hi =>
      have hzj := hc i j hij hj hz
      rw [if_neg ?_, hzj]
      rintro rfl
      -- `i` lies before the first free pointer
      obtain ⟨l, -, heq, hne, -⟩ := (v.inode n).dirBlocks_eq
      have hl : (v.dirBlocks n).length = l := by
        rw [dirBlocks, heq]
        simp
      exact hne i (by omega) hz

/-- The new entry of a directory that has grown. -/
theorem dirEntries_grow (hc : v.Contiguous n) (hlen : (v.dirBlocks n).length < 12) (h0 : b ≠ 0)
    (hb : b < 2 ^ 32) (hnew : b ∉ v.dirBlocks n) (he0 : e.inode ≠ 0) (hlt : e.inode < 2 ^ 32) :
    (v.grow n (v.inode n) (v.dirBlocks n).length b e).dirEntries n = v.dirEntries n ++ [e] := by
  unfold dirEntries
  rw [dirBlocks_grow hc hlen h0 hb, List.flatMap_append, List.flatMap_singleton, data_grow_self,
    (newDirBlock_spec he0 hlt).2]
  congr 1
  refine List.flatMap_congr fun c hcm => ?_
  rw [data_grow_ne _ (ne_of_mem_of_not_mem hcm hnew)]

theorem DirShape.grow (h : v.DirShape n) (hc : v.Contiguous n)
    (hlen : (v.dirBlocks n).length < 12) (hge : 21 ≤ b) (hb : b < 4096)
    (hnew : b ∉ v.dirBlocks n) (he0 : e.inode ≠ 0) (hlt : e.inode < 2 ^ 32) :
    (v.grow n (v.inode n) (v.dirBlocks n).length b e).DirShape n where
  bounds := by
    rw [dirBlocks_grow hc hlen (by omega) (by omega)]
    intro c hcm
    rcases List.mem_append.mp hcm with hcm | hcm
    · exact h.bounds c hcm
    · rw [List.mem_singleton.mp hcm]
      exact ⟨hge, hb⟩
  tiled := by
    rw [dirBlocks_grow hc hlen (by omega) (by omega)]
    intro c hcm
    rcases List.mem_append.mp hcm with hcm | hcm
    · rw [data_grow_ne _ (ne_of_mem_of_not_mem hcm hnew)]
      exact h.tiled c hcm
    · rw [List.mem_singleton.mp hcm, data_grow_self]
      exact (newDirBlock_spec he0 hlt).1

/-- A directory that neither is `n` nor owns block `b`. -/
theorem dirEntries_grow_ne {m i : ℕ} (x : EXT2Inode) (hm : m ≠ n) (hb : b ∉ v.dirBlocks m) :
    (v.grow n x i b e).dirEntries m = v.dirEntries m := by
  have hblocks : (v.grow n x i b e).dirBlocks m = v.dirBlocks m := by
    unfold dirBlocks
    rw [inode_grow_ne x hm]
  unfold dirEntries
  rw [hblocks]
  refine List.flatMap_congr fun c hcm => ?_
  rw [data_grow_ne _ (ne_of_mem_of_not_mem hcm hb)]

end Volume

end RendangOS.Ext2
