import RendangOS.Ext2.Create
import RendangOS.Lib.Ledger

/-!
# Block ownership

An inode refers to a block through one of 141 places: its twelve direct
pointers, the pointer to its indirect table, and the 128 words of that table.
`Sound` is the invariant behind every result about whole runs: the block ledger
is in order, the free-block counter agrees with the bitmap, and every directory
is a tiled chain of blocks whose entries name inodes in `V`. Blocks that are
allocated and in no place are held; a call leaves none behind unless it says so.
-/

namespace RendangOS.Ext2

open Image RecordChain

/-! ## Places -/

theorem tableEntry_of_ge {buf : Block} {k : ℕ} (h : 128 ≤ k) : tableEntry buf k = 0 := by
  have hz : buf.extractLsb' (32 * k) 32 = 0 := by
    refine BitVec.eq_of_getLsbD_eq fun i _ => ?_
    rw [BitVec.getLsbD_extractLsb', BitVec.getLsbD_of_ge _ _ (by omega)]
    simp only [Bool.and_false, BitVec.ofNat_eq_ofNat, BitVec.getLsbD_zero]
  rw [tableEntry, hz]
  rfl

theorem tableEntry_zero (k : ℕ) : tableEntry 0 k = 0 := by
  have hz : (0 : Block).extractLsb' (32 * k) 32 = 0 := by
    refine BitVec.eq_of_getLsbD_eq fun i _ => ?_
    simp only [BitVec.getLsbD_extractLsb', BitVec.ofNat_eq_ofNat, BitVec.getLsbD_zero,
      Bool.and_false]
  rw [tableEntry, hz]
  rfl

/-- The pointer in place `j` of an inode: direct, to the table, or in the table. -/
def EXT2Inode.ptr (x : EXT2Inode) (data : ℕ → Block) (j : ℕ) : ℕ :=
  if j < 13 then x.block j
  else if x.block 12 = 0 then 0
  else tableEntry (data (x.block 12)) (j - 13)

section Ptr

variable {x y : EXT2Inode} {data data' : ℕ → Block} {j : ℕ}

theorem EXT2Inode.ptr_direct (h : j < 13) : x.ptr data j = x.block j := if_pos h

theorem EXT2Inode.ptr_of_ge (h : 141 ≤ j) : x.ptr data j = 0 := by
  rw [ptr, if_neg (by omega)]
  split
  · rfl
  · exact tableEntry_of_ge (by omega)

theorem EXT2Inode.ptr_congr (h : ∀ j < 13, x.block j = y.block j)
    (ht : x.block 12 ≠ 0 → data (x.block 12) = data' (x.block 12)) (j : ℕ) :
    x.ptr data j = y.ptr data' j := by
  unfold ptr
  by_cases hj : j < 13
  · rw [if_pos hj, if_pos hj, h j hj]
  · rw [if_neg hj, if_neg hj, ← h 12 (by decide)]
    by_cases h0 : x.block 12 = 0
    · rw [if_pos h0, if_pos h0]
    · rw [if_neg h0, if_neg h0, ht h0]

/-- The pointers `deallocate_node` gives back are those in the places. -/
theorem EXT2Inode.mem_pointers {b : ℕ} (h0 : b ≠ 0) :
    b ∈ x.pointers data ↔ ∃ j, x.ptr data j = b := by
  unfold pointers
  constructor
  · intro hb
    rcases List.mem_append.mp hb with hb | hb
    · obtain ⟨j, hj, rfl⟩ := List.mem_map.mp hb
      have hlt := List.mem_range.mp hj
      exact ⟨j, ptr_direct (by omega)⟩
    · by_cases h12 : x.block 12 = 0
      · simp [h12] at hb
      · rw [if_pos h12] at hb
        rcases List.mem_append.mp hb with hb | hb
        · obtain ⟨k, -, rfl⟩ := List.mem_map.mp hb
          refine ⟨13 + k, ?_⟩
          rw [ptr, if_neg (by omega), if_neg h12, Nat.add_sub_cancel_left]
        · rw [List.mem_singleton.mp hb]
          exact ⟨12, ptr_direct (by decide)⟩
  · rintro ⟨j, rfl⟩
    rw [List.mem_append]
    by_cases hj : j < 12
    · rw [ptr_direct (by omega)]
      exact Or.inl (List.mem_map_of_mem (List.mem_range.mpr hj))
    · by_cases hj12 : j = 12
      · subst hj12
        rw [ptr_direct (by decide)] at h0 ⊢
        rw [if_pos h0]
        exact Or.inr (by simp)
      · unfold ptr at h0 ⊢
        rw [if_neg (by omega)] at h0 ⊢
        by_cases h12 : x.block 12 = 0
        · rw [if_pos h12] at h0
          exact absurd rfl h0
        · rw [if_neg h12] at h0
          rw [if_neg h12, if_pos h12]
          have hlt : j - 13 < 128 := by
            by_contra hge
            exact h0 (tableEntry_of_ge (by omega))
          exact Or.inr (List.mem_append_left _ (List.mem_map_of_mem (List.mem_range.mpr hlt)))

theorem EXT2Inode.ptr_zero : EXT2Inode.zero.ptr data j = 0 := by
  unfold ptr
  rw [zero_block, zero_block, if_pos rfl, ite_self]

end Ptr

namespace Volume

/-- The pointer in place `j` of inode `n`. -/
def ptr (v : Volume) (n j : ℕ) : ℕ := (v.inode n).ptr v.data j

/-- The block a place owns. -/
def own (v : Volume) (i : ℕ × ℕ) : Option ℕ :=
  if v.ptr i.1 i.2 = 0 then none else some (v.ptr i.1 i.2)

/-- The blocks inode `n` refers to. -/
def refs (v : Volume) (n : ℕ) : Set ℕ := {b | ∃ j, v.ptr n j = b ∧ b ≠ 0}

/-- The data blocks marked used. -/
def taken (v : Volume) : Set ℕ := {b | 21 ≤ b ∧ b < 256 ∧ v.blockUsed b = true}

variable {v v' : Volume} {n j b : ℕ}

theorem own_eq_some : v.own (n, j) = some b ↔ v.ptr n j = b ∧ b ≠ 0 := by
  unfold own
  by_cases h : v.ptr n j = 0
  · rw [if_pos h]
    simp only [reduceCtorEq, false_iff, not_and, not_not]
    exact fun hb => hb ▸ h
  · rw [if_neg h, Option.some.injEq]
    exact ⟨fun hb => ⟨hb, hb ▸ h⟩, fun hb => hb.1⟩

theorem own_ptr (h : v.ptr n j ≠ 0) : v.own (n, j) = some (v.ptr n j) := if_neg h

theorem own_congr (h : ∀ n j, v'.ptr n j = v.ptr n j) : v'.own = v.own := by
  funext i
  unfold own
  rw [h]

theorem ptr_of_ge (h : 141 ≤ j) : v.ptr n j = 0 := EXT2Inode.ptr_of_ge h

end Volume

/-! ## The invariant -/

namespace Volume

/-- What holds of an inode that is a directory. -/
structure DirOk (V : ℕ → Prop) (v : Volume) (n : ℕ) : Prop where
  contiguous : v.Contiguous n
  no_table : (v.inode n).block 12 = 0
  tiled : ∀ b ∈ v.dirBlocks n, Tiles (v.data b) 0 (blockRecs (v.data b))
  targets : ∀ e ∈ v.dirEntries n, V e.inode

end Volume

structure Sound (V : ℕ → Prop) (held : Set ℕ) (v : Volume) : Prop where
  initialized : v.initialized = true
  boot : v.boot = fsSignature
  tables : v.tables = groupTables
  meta_used : v.MetaUsed
  blocks : BlockCount v
  ledger : Ledger v.own held v.taken
  dirs : ∀ n, (v.inode n).isDir = true → v.DirOk V n

namespace Sound

variable {V : ℕ → Prop} {held : Set ℕ} {v : Volume} {n m i j k b : ℕ}

theorem ptr_taken (h : Sound V held v) (h0 : v.ptr n j ≠ 0) : v.ptr n j ∈ v.taken :=
  h.ledger.own_taken (Volume.own_ptr h0)

theorem ptr_inj (h : Sound V held v) (h0 : v.ptr n j ≠ 0) (he : v.ptr n j = v.ptr m k) :
    n = m ∧ j = k := by
  have hm := Volume.own_ptr (he ▸ h0 : v.ptr m k ≠ 0)
  rw [← he] at hm
  exact Prod.mk.inj (h.ledger.inj (Volume.own_ptr h0) hm)

theorem ptr_not_held (h : Sound V held v) (h0 : v.ptr n j ≠ 0) : v.ptr n j ∉ held :=
  h.ledger.loose (Volume.own_ptr h0)

theorem mem_dirBlocks (hb : b ∈ v.dirBlocks n) : b ≠ 0 ∧ ∃ i < 12, v.ptr n i = b := by
  obtain ⟨h0, i, hi, hbi⟩ := EXT2Inode.mem_dirBlocks hb
  exact ⟨h0, i, hi, (EXT2Inode.ptr_direct (by omega)).trans hbi⟩

theorem dirBlocks_taken (h : Sound V held v) (hb : b ∈ v.dirBlocks n) : b ∈ v.taken := by
  obtain ⟨h0, i, -, rfl⟩ := mem_dirBlocks hb
  exact h.ptr_taken h0

theorem dirBlocks_not_held (h : Sound V held v) (hb : b ∈ v.dirBlocks n) : b ∉ held := by
  obtain ⟨h0, i, -, rfl⟩ := mem_dirBlocks hb
  exact h.ptr_not_held h0

theorem dirBlocks_nodup (h : Sound V held v) (n : ℕ) : (v.dirBlocks n).Nodup := by
  refine nodup_dirBlocks fun i j hi hj h0 he => ?_
  have hpi : v.ptr n i = (v.inode n).block i := EXT2Inode.ptr_direct (by omega)
  have hpj : v.ptr n j = (v.inode n).block j := EXT2Inode.ptr_direct (by omega)
  exact (h.ptr_inj (hpi ▸ h0) (by rw [hpi, hpj, he])).2

/-- Two directories have no block in common. -/
theorem dirBlocks_disjoint (h : Sound V held v) (hnm : n ≠ m) (hb : b ∈ v.dirBlocks n) :
    b ∉ v.dirBlocks m := by
  obtain ⟨h0, i, -, rfl⟩ := mem_dirBlocks hb
  intro hbm
  obtain ⟨-, j, -, he⟩ := mem_dirBlocks hbm
  exact hnm (h.ptr_inj h0 he.symm).1

/-- A direct block is no indirect table. -/
theorem direct_not_table (h : Sound V held v) (hi : i < 12) (h0 : v.ptr n i ≠ 0) (m : ℕ) :
    (v.inode m).block 12 ≠ v.ptr n i := by
  have hp : v.ptr m 12 = (v.inode m).block 12 := EXT2Inode.ptr_direct (by decide)
  rw [← hp]
  intro he
  have := (h.ptr_inj h0 he.symm).2
  omega

theorem held_not_table (h : Sound V held v) (hb : b ∈ held) (m : ℕ) :
    (v.inode m).block 12 ≠ b := by
  have hp : v.ptr m 12 = (v.inode m).block 12 := EXT2Inode.ptr_direct (by decide)
  rw [← hp]
  rintro rfl
  have h0 : v.ptr m 12 ≠ 0 := by
    have := h.ledger.held_taken hb
    rintro hz
    rw [hz] at this
    exact absurd this.1 (by decide)
  exact h.ptr_not_held h0 hb

theorem shape (h : Sound V held v) (hd : (v.inode n).isDir = true) : v.DirShape n where
  bounds := fun b hb => by
    obtain ⟨hge, hlt, -⟩ := h.dirBlocks_taken hb
    exact ⟨hge, by omega⟩
  tiled := (h.dirs n hd).tiled

/-! ### The steps of a call -/

/-- Allocating and releasing inodes moves no block. -/
theorem takeInode (h : Sound V held v) (n : ℕ) : Sound V held (v.takeInode n) :=
  ⟨h.initialized, h.boot, (v.tables_takeInode n).trans h.tables, h.meta_used, h.blocks.takeInode,
    h.ledger, fun m hm => ⟨(h.dirs m hm).contiguous, (h.dirs m hm).no_table, (h.dirs m hm).tiled,
      (h.dirs m hm).targets⟩⟩

theorem freeInode (h : Sound V held v) (n : ℕ) : Sound V held (v.freeInode n) :=
  ⟨h.initialized, h.boot, (v.tables_freeInode n).trans h.tables, h.meta_used, h.blocks.freeInode,
    h.ledger, fun m hm => ⟨(h.dirs m hm).contiguous, (h.dirs m hm).no_table, (h.dirs m hm).tiled,
      (h.dirs m hm).targets⟩⟩

/-- Blocks just allocated are held. -/
theorem takeBlocks {bs : List ℕ} (h : Sound V held v) (hnd : bs.Nodup)
    (hbs : ∀ b ∈ bs, 21 ≤ b ∧ b < 256 ∧ v.blockUsed b = false) :
    Sound V (held ∪ {b | b ∈ bs}) (v.takeBlocks bs) where
  initialized := v.initialized_takeBlocks bs ▸ h.initialized
  boot := v.boot_takeBlocks bs ▸ h.boot
  tables := v.tables_takeBlocks bs ▸ h.tables
  meta_used := fun b hb => by rw [Volume.blockUsed_takeBlocks, h.meta_used b hb, Bool.true_or]
  blocks := h.blocks.takeBlocks hnd fun b hb => (hbs b hb).2
  ledger := by
    have hown : (v.takeBlocks bs).own = v.own := Volume.own_congr fun n j => by
      simp only [Volume.ptr, Volume.inode_takeBlocks, Volume.data_takeBlocks]
    have htaken : (v.takeBlocks bs).taken = v.taken ∪ {b | b ∈ bs} := by
      ext c
      simp only [Volume.taken, Volume.blockUsed_takeBlocks, Bool.or_eq_true, decide_eq_true_eq,
        Set.mem_union, Set.mem_ofPred_eq]
      constructor
      · rintro ⟨h1, h2, h3 | h3⟩
        · exact Or.inl ⟨h1, h2, h3⟩
        · exact Or.inr h3
      · rintro (⟨h1, h2, h3⟩ | h3)
        · exact ⟨h1, h2, Or.inl h3⟩
        · exact ⟨(hbs c h3).1, (hbs c h3).2.1, Or.inr h3⟩
    rw [hown, htaken]
    refine h.ledger.take fun b hb ht => ?_
    have hu := (hbs b hb).2.2
    rw [ht.2.2] at hu
    cases hu
  dirs := fun n hn => by
    rw [Volume.inode_takeBlocks] at hn
    obtain ⟨hc, ht, hti, hta⟩ := h.dirs n hn
    have hblocks : (v.takeBlocks bs).dirBlocks n = v.dirBlocks n := by
      rw [Volume.dirBlocks, Volume.inode_takeBlocks]
      rfl
    refine ⟨?_, ?_, ?_, ?_⟩
    · unfold Volume.Contiguous
      rwa [Volume.inode_takeBlocks]
    · rwa [Volume.inode_takeBlocks]
    · rwa [hblocks, Volume.data_takeBlocks]
    · unfold Volume.dirEntries
      rwa [hblocks, Volume.data_takeBlocks]

/-- Held blocks may be written at will. -/
theorem setHeld (data : ℕ → Block) (h : Sound V held v)
    (hdata : ∀ b, b ∉ held → data b = v.data b) : Sound V held { v with data := data } where
  initialized := h.initialized
  boot := h.boot
  tables := h.tables
  meta_used := h.meta_used
  blocks := ⟨h.blocks.group, h.blocks.total⟩
  ledger := by
    have hown : Volume.own { v with data := data } = v.own := Volume.own_congr fun n j => by
      refine EXT2Inode.ptr_congr (fun _ _ => rfl) (fun h12 => ?_) j
      exact hdata _ fun hheld => h.held_not_table hheld n rfl
    exact hown ▸ h.ledger
  dirs := fun n hn => by
    obtain ⟨hc, ht, hti, hta⟩ := h.dirs n hn
    have hsame : ∀ b ∈ v.dirBlocks n, data b = v.data b := fun b hb =>
      hdata b (h.dirBlocks_not_held hb)
    refine ⟨hc, ht, fun b hb => ?_, ?_⟩
    · change Tiles (data b) 0 (blockRecs (data b))
      rw [hsame b hb]
      exact hti b hb
    · have hentries : Volume.dirEntries { v with data := data } n = v.dirEntries n :=
        List.flatMap_congr fun b hb => congrArg blockEntries (hsame b hb)
      rwa [hentries]

/-- Rewriting a direct block. In a directory the block stays a chain with targets in `V`. -/
theorem setDirect {buf : Block} (h : Sound V held v) (hi : i < 12) (h0 : v.ptr n i ≠ 0)
    (hdir : (v.inode n).isDir = true →
      Tiles buf 0 (blockRecs buf) ∧ ∀ e ∈ blockEntries buf, V e.inode) :
    Sound V held (v.setData (v.ptr n i) buf) where
  initialized := h.initialized
  boot := h.boot
  tables := h.tables
  meta_used := h.meta_used
  blocks := ⟨h.blocks.group, h.blocks.total⟩
  ledger := by
    have hown : (v.setData (v.ptr n i) buf).own = v.own := Volume.own_congr fun m j =>
      EXT2Inode.ptr_congr (fun _ _ => rfl) (fun _ =>
        Function.update_of_ne (h.direct_not_table hi h0 m) ..) j
    exact hown ▸ h.ledger
  dirs := fun m hm => by
    obtain ⟨hc, ht, hti, hta⟩ := h.dirs m hm
    by_cases hmem : v.ptr n i ∈ v.dirBlocks m
    · -- the block is one of the directory's own
      obtain ⟨-, k, -, hk⟩ := mem_dirBlocks hmem
      obtain ⟨rfl, -⟩ := h.ptr_inj (hk ▸ h0 : v.ptr m k ≠ 0) hk
      obtain ⟨htiles, htargets⟩ := hdir hm
      refine ⟨hc, ht, ((h.shape hm).setData htiles).tiled, fun e he => ?_⟩
      obtain ⟨b, hb, heb⟩ := List.mem_flatMap.mp he
      by_cases hbp : b = v.ptr m i
      · subst hbp
        rw [show (v.setData (v.ptr m i) buf).data (v.ptr m i) = buf from
          Function.update_self ..] at heb
        exact htargets e heb
      · rw [show (v.setData (v.ptr m i) buf).data b = v.data b from
          Function.update_of_ne hbp ..] at heb
        exact hta e (List.mem_flatMap.mpr ⟨b, hb, heb⟩)
    · refine ⟨hc, ht, fun b hb => ?_, ?_⟩
      · rw [show (v.setData (v.ptr n i) buf).data b = v.data b from
          Function.update_of_ne (ne_of_mem_of_not_mem hb hmem) ..]
        exact hti b hb
      · rwa [Volume.dirEntries_setData hmem]

theorem ptr_setInode_self (v : Volume) (n : ℕ) (x : EXT2Inode) (j : ℕ) :
    (v.setInode n x).ptr n j = x.ptr v.data j :=
  congrArg (fun y : EXT2Inode => y.ptr v.data j) (Function.update_self ..)

theorem ptr_setInode_ne (v : Volume) (x : EXT2Inode) (h : m ≠ n) (j : ℕ) :
    (v.setInode n x).ptr m j = v.ptr m j :=
  congrArg (fun y : EXT2Inode => y.ptr v.data j) (Function.update_of_ne h ..)

theorem dirBlocks_setInode_ne (v : Volume) (x : EXT2Inode) (h : m ≠ n) :
    (v.setInode n x).dirBlocks m = v.dirBlocks m :=
  congrArg EXT2Inode.dirBlocks (Function.update_of_ne h ..)

theorem dirEntries_setInode_ne (v : Volume) (x : EXT2Inode) (h : m ≠ n) :
    (v.setInode n x).dirEntries m = v.dirEntries m := by
  unfold Volume.dirEntries
  rw [dirBlocks_setInode_ne v x h]
  rfl

/-- Storing an inode: the places `D` of its row receive held blocks, and what
they owned before is held afterwards. -/
theorem setInode {x : EXT2Inode} (h : Sound V held v) (D : Set ℕ)
    (hout : ∀ j, j ∉ D → x.ptr v.data j = v.ptr n j)
    (hinj : ∀ j ∈ D, ∀ k ∈ D, x.ptr v.data j ≠ 0 → x.ptr v.data j = x.ptr v.data k → j = k)
    (hheld : ∀ j ∈ D, x.ptr v.data j ≠ 0 → x.ptr v.data j ∈ held)
    (hdir : x.isDir = true → (v.setInode n x).DirOk V n) :
    Sound V (held \ {b | ∃ j ∈ D, x.ptr v.data j = b ∧ b ≠ 0} ∪
      {b | ∃ j ∈ D, v.ptr n j = b ∧ b ≠ 0}) (v.setInode n x) where
  initialized := h.initialized
  boot := h.boot
  tables := h.tables
  meta_used := h.meta_used
  blocks := ⟨h.blocks.group, h.blocks.total⟩
  ledger := by
    have hself := ptr_setInode_self v n x
    have hrow : ∀ (u : Volume) (b : ℕ), (∃ i ∈ {i : ℕ × ℕ | i.1 = n ∧ i.2 ∈ D}, u.own i = some b) ↔
        ∃ j ∈ D, u.ptr n j = b ∧ b ≠ 0 := by
      intro u b
      constructor
      · rintro ⟨⟨m, j⟩, ⟨hm, hj⟩, hb⟩
        have hm : m = n := hm
        subst hm
        exact ⟨j, hj, Volume.own_eq_some.mp hb⟩
      · rintro ⟨j, hj, hb⟩
        exact ⟨(n, j), ⟨rfl, hj⟩, Volume.own_eq_some.mpr hb⟩
    have hr : Ledger (v.setInode n x).own _ v.taken :=
      h.ledger.replace {i : ℕ × ℕ | i.1 = n ∧ i.2 ∈ D} ?_ ?_ ?_
    · simp only [hrow, hself] at hr
      exact hr
    · rintro ⟨m, j⟩ hmj
      unfold Volume.own
      by_cases hm : m = n
      · subst hm
        have hj : j ∉ D := fun hj => hmj ⟨rfl, hj⟩
        simp only [hself, hout j hj]
      · simp only [ptr_setInode_ne v x hm]
    · rintro ⟨m, j⟩ ⟨hm, hj⟩ ⟨m', k⟩ ⟨hm', hk⟩ b hb hb'
      have hm : m = n := hm
      have hm' : m' = n := hm'
      subst hm hm'
      rw [Volume.own_eq_some, hself] at hb hb'
      rw [hinj j hj k hk (hb.1 ▸ hb.2) (hb.1.trans hb'.1.symm)]
    · rintro ⟨m, j⟩ ⟨hm, hj⟩ b hb
      have hm : m = n := hm
      subst hm
      rw [Volume.own_eq_some, hself] at hb
      obtain ⟨rfl, h0⟩ := hb
      exact hheld j hj h0
  dirs := fun m hm => by
    by_cases hmn : m = n
    · subst hmn
      refine hdir ?_
      rwa [show (v.setInode m x).inode m = x from Function.update_self ..] at hm
    · have hinode : (v.setInode n x).inode m = v.inode m := Function.update_of_ne hmn ..
      rw [hinode] at hm
      obtain ⟨hc, ht, hti, hta⟩ := h.dirs m hm
      refine ⟨?_, ?_, ?_, ?_⟩
      · unfold Volume.Contiguous
        rwa [hinode]
      · rwa [hinode]
      · rwa [dirBlocks_setInode_ne v x hmn]
      · rwa [dirEntries_setInode_ne v x hmn]

/-- Giving back held blocks. -/
theorem releaseBlocks {bs : List ℕ} (h : Sound V held v) (hbs : ∀ b ∈ bs, b ≠ 0 → b ∈ held) :
    Sound V (held \ {b | b ∈ bs}) (v.releaseBlocks bs) where
  initialized := v.initialized_releaseBlocks bs ▸ h.initialized
  boot := v.boot_releaseBlocks bs ▸ h.boot
  tables := v.tables_releaseBlocks bs ▸ h.tables
  meta_used := fun b hb => by
    rw [Volume.blockUsed_releaseBlocks, h.meta_used b hb, Bool.true_and, Bool.not_eq_true',
      decide_eq_false_iff_not]
    rintro ⟨h0, hmem⟩
    have hge := (h.ledger.held_taken (hbs b hmem h0)).1
    simp only [rootDirBlockLba, inodeTableLba, inodeBitmapLba, blockBitmapLba, bgdtLba,
      superblockLba, inodesTableBlockCount] at hb
    omega
  blocks := h.blocks.releaseBlocks fun b hb => by
    by_cases h0 : b = 0
    · omega
    · exact (h.ledger.held_taken (hbs b hb h0)).2.1
  ledger := by
    have hown : (v.releaseBlocks bs).own = v.own := Volume.own_congr fun n j => by
      simp only [Volume.ptr, Volume.inode_releaseBlocks, Volume.data_releaseBlocks]
    have htaken : (v.releaseBlocks bs).taken = v.taken \ {b | b ∈ bs ∧ b ≠ 0} := by
      ext c
      simp only [Volume.taken, Volume.blockUsed_releaseBlocks, Bool.and_eq_true, Bool.not_eq_true',
        decide_eq_false_iff_not, Set.mem_sdiff, Set.mem_ofPred_eq]
      constructor
      · rintro ⟨h1, h2, h3, h4⟩
        exact ⟨⟨h1, h2, h3⟩, fun hc => h4 ⟨hc.2, hc.1⟩⟩
      · rintro ⟨⟨h1, h2, h3⟩, h4⟩
        exact ⟨h1, h2, h3, fun hc => h4 ⟨hc.2, hc.1⟩⟩
    have hheld : held \ {b | b ∈ bs} = held \ {b | b ∈ bs ∧ b ≠ 0} := by
      ext c
      simp only [Set.mem_sdiff, Set.mem_ofPred_eq]
      constructor
      · rintro ⟨hc, hn⟩
        exact ⟨hc, fun hcc => hn hcc.1⟩
      · rintro ⟨hc, hn⟩
        refine ⟨hc, fun hmem => hn ⟨hmem, ?_⟩⟩
        rintro rfl
        exact absurd (h.ledger.held_taken hc).1 (by decide)
    rw [hown, htaken, hheld]
    exact h.ledger.release fun b hb => hbs b hb.1 hb.2
  dirs := fun n hn => by
    rw [Volume.inode_releaseBlocks] at hn
    obtain ⟨hc, ht, hti, hta⟩ := h.dirs n hn
    have hblocks : (v.releaseBlocks bs).dirBlocks n = v.dirBlocks n := by
      rw [Volume.dirBlocks, Volume.inode_releaseBlocks]
      rfl
    refine ⟨?_, ?_, ?_, ?_⟩
    · unfold Volume.Contiguous
      rwa [Volume.inode_releaseBlocks]
    · rwa [Volume.inode_releaseBlocks]
    · rwa [hblocks, Volume.data_releaseBlocks]
    · unfold Volume.dirEntries
      rwa [hblocks, Volume.data_releaseBlocks]

/-! ### The ends of a call -/

theorem zero_isDir : EXT2Inode.zero.isDir = false := by
  decide +kernel

theorem setInode_releaseBlocks (v : Volume) (n : ℕ) (x : EXT2Inode) (bs : List ℕ) :
    (v.releaseBlocks bs).setInode n x = (v.setInode n x).releaseBlocks bs := by
  induction bs generalizing v with
  | nil => rfl
  | cons b bs ih =>
      rw [Volume.releaseBlocks_cons, Volume.releaseBlocks_cons, ih]
      congr 1
      unfold Volume.releaseBlock
      by_cases hb : b ≠ 0 ∧ v.blockUsed b = true
      · rw [if_pos hb, if_pos (show b ≠ 0 ∧ (v.setInode n x).blockUsed b = true from hb)]
        rfl
      · rw [if_neg hb, if_neg (show ¬ (b ≠ 0 ∧ (v.setInode n x).blockUsed b = true) from hb)]

/-- `deallocate_node` gives back all that the inode referred to. -/
theorem deallocate (h : Sound V held v) (t p : ℕ) :
    Sound V held (((v.releaseBlocks ((v.inode t).pointers v.data)).setInode t
      EXT2Inode.zero).freeInode p) := by
  have hzero : ∀ j, EXT2Inode.zero.ptr v.data j = 0 := fun j => EXT2Inode.ptr_zero
  have hclear := h.setInode (n := t) (x := EXT2Inode.zero) Set.univ
    (fun j hj => absurd (Set.mem_univ j) hj) (fun j _ k _ h0 => absurd (hzero j) h0)
    (fun j _ h0 => absurd (hzero j) h0) (fun hd => by rw [zero_isDir] at hd; cases hd)
  have hgive := hclear.releaseBlocks fun b (hb : b ∈ (v.inode t).pointers v.data) h0 => by
    obtain ⟨j, hj⟩ := (EXT2Inode.mem_pointers h0).mp hb
    exact Or.inr ⟨j, Set.mem_univ j, hj, h0⟩
  rw [setInode_releaseBlocks]
  refine Sound.freeInode ?_ p
  convert hgive using 1
  ext b
  simp only [Set.mem_univ, true_and, hzero, Set.mem_sdiff, Set.mem_union, Set.mem_ofPred_eq]
  constructor
  · intro hb
    have h0 : b ≠ 0 := by
      rintro rfl
      exact absurd (h.ledger.held_taken hb).1 (by decide)
    refine ⟨Or.inl ⟨hb, fun ⟨_, hz, hne⟩ => hne hz.symm⟩, fun hmem => ?_⟩
    obtain ⟨j, rfl⟩ := (EXT2Inode.mem_pointers h0).mp hmem
    exact h.ptr_not_held h0 hb
  · rintro ⟨hb | ⟨j, hj, h0⟩, hmem⟩
    · exact hb.1
    · exact absurd ((EXT2Inode.mem_pointers h0).mpr ⟨j, hj⟩) hmem

/-- A new inode with the blocks `P` allocated for it. What the slot referred to
before is held afterwards. -/
theorem store {x : EXT2Inode} {P : List ℕ} {data : ℕ → Block} (h : Sound V held v)
    (hnd : P.Nodup) (hP : ∀ b ∈ P, 21 ≤ b ∧ b < 256 ∧ v.blockUsed b = false)
    (hdata : ∀ b, b ∉ P → data b = v.data b) (hptr : ∀ j, x.ptr data j = P[j]?.getD 0)
    (hdir : x.isDir = true →
      (({ v.takeBlocks P with data := data } : Volume).setInode n x).DirOk V n) :
    Sound V (held ∪ v.refs n) (({ v.takeBlocks P with data := data } : Volume).setInode n x) := by
  have hfresh : ∀ b ∈ P, b ∉ held := fun b hb hheld => by
    have hu := (hP b hb).2.2
    rw [(h.ledger.held_taken hheld).2.2] at hu
    cases hu
  have hmem : ∀ b, (∃ j, x.ptr data j = b ∧ b ≠ 0) ↔ b ∈ P := by
    intro b
    constructor
    · rintro ⟨j, rfl, h0⟩
      rw [hptr] at h0 ⊢
      cases hj : P[j]? with
      | none => simp [hj] at h0
      | some c => exact List.mem_of_getElem? hj
    · intro hb
      obtain ⟨j, hj⟩ := List.mem_iff_getElem?.mp hb
      have hge := (hP b hb).1
      exact ⟨j, by rw [hptr, hj]; rfl, by omega⟩
  have htake := (h.takeBlocks hnd hP).setHeld data fun b hb => by
    rw [Volume.data_takeBlocks]
    exact hdata b fun hbP => hb (Or.inr hbP)
  have hold : ∀ j, Volume.ptr { v.takeBlocks P with data := data } n j = v.ptr n j := fun j => by
    refine EXT2Inode.ptr_congr (fun k _ => by simp only [Volume.inode_takeBlocks]) (fun h12 => ?_) j
    simp only [Volume.inode_takeBlocks] at h12 ⊢
    refine hdata _ fun hbP => ?_
    have hp : v.ptr n 12 = (v.inode n).block 12 := EXT2Inode.ptr_direct (by decide)
    have hu := (hP _ hbP).2.2
    rw [← hp, (h.ptr_taken (hp ▸ h12)).2.2] at hu
    cases hu
  have hset := htake.setInode (n := n) (x := x) Set.univ
    (fun j hj => absurd (Set.mem_univ j) hj)
    (fun j _ k _ h0 he => by
      change x.ptr data j = x.ptr data k at he
      change x.ptr data j ≠ 0 at h0
      rw [hptr] at h0
      rw [hptr, hptr] at he
      cases hj : P[j]? with
      | none => simp [hj] at h0
      | some c =>
          cases hk : P[k]? with
          | none => simp [hj, hk] at he h0; omega
          | some c' =>
              rw [hj, hk] at he
              have hcc : c = c' := he
              subst hcc
              obtain ⟨hjlt, hjc⟩ := List.getElem?_eq_some_iff.mp hj
              obtain ⟨hklt, hkc⟩ := List.getElem?_eq_some_iff.mp hk
              exact (List.Nodup.getElem_inj_iff hnd).mp (hjc.trans hkc.symm))
    (fun j _ h0 => Or.inr ((hmem _).mp ⟨j, rfl, h0⟩)) hdir
  convert hset using 1
  ext b
  simp only [Set.mem_univ, true_and, Set.mem_union, Set.mem_sdiff, Set.mem_ofPred_eq, hmem, hold,
    Volume.refs]
  constructor
  · rintro (hb | hb)
    · exact Or.inl ⟨Or.inl hb, fun hbP => hfresh b hbP hb⟩
    · exact Or.inr hb
  · rintro (⟨hb | hb, hn⟩ | hb)
    · exact Or.inl hb
    · exact absurd hb hn
    · exact Or.inr hb

theorem growInode_ptr {x : EXT2Inode} (data : ℕ → Block) (hi : i < 12) (hb : b < 2 ^ 32)
    (j : ℕ) :
    (growInode x i b).ptr data j = if j = i then b else x.ptr data j := by
  have hblock := growInode_block x hi hb
  unfold EXT2Inode.ptr
  rw [hblock, hblock, if_neg (show 12 ≠ i by omega)]
  by_cases hj : j = i
  · rw [if_pos (show j < 13 by omega), if_pos hj, if_pos hj]
  · rw [if_neg hj, if_neg hj]

/-- An inode that gets one more direct block. -/
theorem grow {e : DirEntry} (h : Sound V held v) (hi : i < 12) (h0 : (v.inode n).block i = 0)
    (hb : v.LeastFree b)
    (hdir : (v.inode n).isDir = true →
      i = (v.dirBlocks n).length ∧ V e.inode ∧ e.inode ≠ 0 ∧ e.inode < 2 ^ 32) :
    Sound V held (v.grow n (v.inode n) i b e) := by
  have hge := hb.ge h.meta_used
  have hlt := hb.lt
  have hunheld : b ∉ held := fun hheld => by
    have hu := hb.unused
    rw [(h.ledger.held_taken hheld).2.2] at hu
    cases hu
  have hout : b ∉ v.dirBlocks n := fun hmem => by
    have hu := hb.unused
    rw [(h.dirBlocks_taken hmem).2.2] at hu
    cases hu
  have htake := (h.takeBlocks (List.nodup_singleton b) fun c hc => by
    rw [List.mem_singleton.mp hc]
    exact ⟨hge, hlt, hb.unused⟩).setHeld
    (Function.update v.data b (newDirBlock e.inode e.name e.fileType)) fun c hc => by
      rw [Volume.data_takeBlocks]
      exact Function.update_of_ne (fun he => hc (Or.inr (by simp [he]))) ..
  have hptr := growInode_ptr (x := v.inode n)
    (Function.update v.data b (newDirBlock e.inode e.name e.fileType)) hi
    (show b < 2 ^ 32 by omega)
  have hset := htake.setInode (n := n) (x := growInode (v.inode n) i b) {i}
    (fun j hj => (hptr j).trans (if_neg (by simpa using hj)))
    (fun j hj k hk _ _ => by rw [Set.mem_singleton_iff.mp hj, Set.mem_singleton_iff.mp hk])
    (fun j hj _ => by
      rw [hptr, if_pos (by simpa using hj)]
      exact Or.inr (by simp))
    (fun hd => by
      rw [growInode_isDir] at hd
      obtain ⟨rfl, hV, he0, helt⟩ := hdir hd
      have hok := h.dirs n hd
      have hshape := (h.shape hd).grow hok.contiguous hi hge (by omega) hout he0 helt
      refine ⟨Volume.contiguous_grow hok.contiguous hi (by omega) (by omega), ?_, hshape.tiled,
        fun d hd' => ?_⟩
      · have hgrow := Volume.inode_grow_self (n := n) (b := b) (e := e) (v := v)
          (i := (v.dirBlocks n).length) (v.inode n)
        change ((v.grow n (v.inode n) (v.dirBlocks n).length b e).inode n).block 12 = 0
        rw [hgrow, growInode_block _ hi (by omega), if_neg (by omega)]
        exact hok.no_table
      · change d ∈ (v.grow n (v.inode n) (v.dirBlocks n).length b e).dirEntries n at hd'
        rw [Volume.dirEntries_grow hok.contiguous hi (by omega) (by omega) hout he0 helt] at hd'
        rcases List.mem_append.mp hd' with hd' | hd'
        · exact hok.targets d hd'
        · rw [List.mem_singleton.mp hd']
          exact hV)
  have hnew : (growInode (v.inode n) i b).ptr
      (Function.update v.data b (newDirBlock e.inode e.name e.fileType)) i = b :=
    (hptr i).trans (if_pos rfl)
  have hold : Volume.ptr { v.takeBlocks [b] with
      data := Function.update v.data b (newDirBlock e.inode e.name e.fileType) } n i = 0 :=
    (EXT2Inode.ptr_direct (by omega)).trans h0
  convert hset using 1
  · ext c
    simp only [Set.mem_singleton_iff, exists_eq_left, Set.mem_union, Set.mem_sdiff,
      Set.mem_ofPred_eq, List.mem_singleton, hnew, hold]
    constructor
    · exact fun hc => Or.inl ⟨Or.inl hc, fun hcb => hunheld (hcb.1 ▸ hc)⟩
    · rintro (⟨hc | rfl, hn⟩ | ⟨rfl, hne⟩)
      · exact hc
      · exact absurd ⟨rfl, by omega⟩ hn
      · exact absurd rfl hne
  · rfl

end Sound

end RendangOS.Ext2
