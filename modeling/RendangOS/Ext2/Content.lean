import RendangOS.Ext2.Ownership

/-!
# The content of a new inode

The loops of `write` allocate one block after the other and fill each; they
stop at the first allocation that fails. `Filled` says that a list of blocks
was allocated and filled in order and that nothing else changed. At the end the
places of the new inode hold the list, which is as long as the request demands
or as there are free blocks.
-/

namespace RendangOS.Ext2

open Image Bitmap

/-! ## Filling blocks -/

/-- From `v` to `v'` the blocks `P` have been allocated, and block `i` of them
filled with `c i`. -/
structure Filled (v : Volume) (P : List ℕ) (c : ℕ → Block) (v' : Volume) : Prop where
  nodup : P.Nodup
  fresh : ∀ b ∈ P, 21 ≤ b ∧ b < 256 ∧ v.blockUsed b = false
  volume : v' = { v.takeBlocks P with data := v'.data }
  outside : ∀ b, b ∉ P → v'.data b = v.data b
  inside : ∀ i b, P[i]? = some b → v'.data b = c i

theorem Volume.takeBlocks_withData (v : Volume) (data : ℕ → Block) (bs : List ℕ) :
    ({ v with data := data } : Volume).takeBlocks bs = { v.takeBlocks bs with data := data } := by
  induction bs generalizing v with
  | nil => rfl
  | cons b bs ih => exact ih (v.takeBlock b)

namespace Filled

variable {v v' : Volume} {P : List ℕ} {c c' : ℕ → Block} {b : ℕ} {buf : Block}

theorem nil (v : Volume) (c : ℕ → Block) : Filled v [] c v :=
  ⟨List.nodup_nil, by simp, rfl, fun _ _ => rfl, by simp⟩

theorem inode_eq (h : Filled v P c v') : v'.inode = v.inode := by
  rw [h.volume]
  exact v.inode_takeBlocks P

theorem tables_eq (h : Filled v P c v') : v'.tables = v.tables := by
  rw [h.volume]
  exact v.tables_takeBlocks P

theorem inodeUsed_eq (h : Filled v P c v') : v'.inodeUsed = v.inodeUsed := by
  rw [h.volume]
  exact v.inodeUsed_takeBlocks P

theorem initialized_eq (h : Filled v P c v') : v'.initialized = v.initialized := by
  rw [h.volume]
  exact v.initialized_takeBlocks P

theorem blockUsed_eq (h : Filled v P c v') (k : ℕ) :
    v'.blockUsed k = (v.blockUsed k || decide (k ∈ P)) := by
  rw [h.volume]
  exact v.blockUsed_takeBlocks P k

theorem metaUsed (h : Filled v P c v') (hm : v.MetaUsed) : v'.MetaUsed := fun k hk => by
  rw [h.blockUsed_eq, hm k hk, Bool.true_or]

theorem blockCount (h : Filled v P c v') (hc : BlockCount v) : BlockCount v' := by
  have ht := hc.takeBlocks h.nodup fun k hk => (h.fresh k hk).2
  rw [h.volume]
  exact ⟨ht.group, ht.total⟩

theorem freeBlocks (h : Filled v P c v') (hc : BlockCount v) :
    v'.freeBlocks + P.length = v.freeBlocks := by
  rw [(h.blockCount hc).group, hc.group]
  exact clearCount_insert_list P h.nodup (fun k hk => (h.fresh k hk).2)
    fun k _ => h.blockUsed_eq k

/-- A block allocated first and filled last. -/
theorem cons (hb : v.LeastFree b) (hge : 21 ≤ b) (h : Filled (v.takeBlock b) P c v')
    (hc : c' 0 = buf) (hs : ∀ i, c' (i + 1) = c i) :
    Filled v (b :: P) c' (v'.setData b buf) := by
  have hnot : b ∉ P := fun hmem => by
    have hu := (h.fresh b hmem).2.2
    rw [show (v.takeBlock b).blockUsed b = true from Function.update_self ..] at hu
    cases hu
  refine ⟨List.nodup_cons.mpr ⟨hnot, h.nodup⟩, ?_, ?_, ?_, ?_⟩
  · intro k hk
    rcases List.mem_cons.mp hk with rfl | hk
    · exact ⟨hge, hb.lt, hb.unused⟩
    · obtain ⟨h1, h2, h3⟩ := h.fresh k hk
      have hkb : k ≠ b := ne_of_mem_of_not_mem hk hnot
      exact ⟨h1, h2, (Function.update_of_ne hkb ..).symm.trans h3⟩
  · rw [Volume.takeBlocks_cons]
    exact congrArg (fun u : Volume => { u with data := (v'.setData b buf).data }) h.volume
  · intro k hk
    rw [List.mem_cons, not_or] at hk
    exact (Function.update_of_ne hk.1 ..).trans (h.outside k hk.2)
  · intro i k hi
    cases i with
    | zero =>
        have hbk : b = k := by simpa using hi
        subst hbk
        rw [hc]
        exact Function.update_self ..
    | succ i =>
        rw [List.getElem?_cons_succ] at hi
        have hkb : k ≠ b := ne_of_mem_of_not_mem (List.mem_of_getElem? hi) hnot
        rw [hs, ← h.inside i k hi]
        exact Function.update_of_ne hkb ..

/-- A block allocated and filled first. -/
theorem cons' (hb : v.LeastFree b) (hge : 21 ≤ b)
    (h : Filled ((v.takeBlock b).setData b buf) P c v') (hc : c' 0 = buf)
    (hs : ∀ i, c' (i + 1) = c i) : Filled v (b :: P) c' v' := by
  have hnot : b ∉ P := fun hmem => by
    have hu := (h.fresh b hmem).2.2
    rw [show ((v.takeBlock b).setData b buf).blockUsed b = true from
      Function.update_self ..] at hu
    cases hu
  refine ⟨List.nodup_cons.mpr ⟨hnot, h.nodup⟩, ?_, ?_, ?_, ?_⟩
  · intro k hk
    rcases List.mem_cons.mp hk with rfl | hk
    · exact ⟨hge, hb.lt, hb.unused⟩
    · obtain ⟨h1, h2, h3⟩ := h.fresh k hk
      have hkb : k ≠ b := ne_of_mem_of_not_mem hk hnot
      exact ⟨h1, h2, (Function.update_of_ne hkb ..).symm.trans h3⟩
  · have hv := h.volume
    rw [Volume.setData, Volume.takeBlocks_withData] at hv
    exact hv
  · intro k hk
    rw [List.mem_cons, not_or] at hk
    exact (h.outside k hk.2).trans (Function.update_of_ne hk.1 ..)
  · intro i k hi
    cases i with
    | zero =>
        have hbk : b = k := by simpa using hi
        subst hbk
        rw [hc, h.outside b hnot]
        exact Function.update_self ..
    | succ i =>
        rw [List.getElem?_cons_succ] at hi
        rw [hs, h.inside i k hi]

theorem append {Q : List ℕ} {v'' : Volume} {d : ℕ → Block} (h : Filled v P c v')
    (h' : Filled v' Q d v'') (hc : ∀ i < P.length, c' i = c i)
    (hd : ∀ i, c' (P.length + i) = d i) : Filled v (P ++ Q) c' v'' := by
  have hdisj : ∀ k ∈ P, k ∉ Q := fun k hk hkQ => by
    have hu := (h'.fresh k hkQ).2.2
    rw [h.blockUsed_eq, decide_eq_true hk, Bool.or_true] at hu
    cases hu
  refine ⟨?_, ?_, ?_, ?_, ?_⟩
  · rw [List.nodup_append]
    exact ⟨h.nodup, h'.nodup, fun k hk l hl he => hdisj k hk (he ▸ hl)⟩
  · intro k hk
    rcases List.mem_append.mp hk with hk | hk
    · exact h.fresh k hk
    · obtain ⟨h1, h2, h3⟩ := h'.fresh k hk
      rw [h.blockUsed_eq, Bool.or_eq_false_iff] at h3
      exact ⟨h1, h2, h3.1⟩
  · have hv := h'.volume
    rw [h.volume, Volume.takeBlocks_withData] at hv
    rw [Volume.takeBlocks_append]
    exact hv
  · intro k hk
    rw [List.mem_append, not_or] at hk
    rw [h'.outside k hk.2, h.outside k hk.1]
  · intro i k hi
    by_cases hlt : i < P.length
    · rw [List.getElem?_append_left hlt] at hi
      rw [h'.outside k (hdisj k (List.mem_of_getElem? hi)), h.inside i k hi, hc i hlt]
    · rw [List.getElem?_append_right (by omega)] at hi
      rw [h'.inside _ k hi, ← hd, Nat.add_sub_cancel' (by omega)]

end Filled

/-! ## The loops of `write` -/

variable {env : Env} {s : Fs}

theorem allocateBlock_least (env : Env) (hc : BlockCount (view s)) (hm : (view s).MetaUsed) :
    (allocateBlock env s = (0, s) ∧ (view s).freeBlocks = 0) ∨
    ∃ b, (view s).LeastFree b ∧ 21 ≤ b ∧ (allocateBlock env s).1 = b ∧
      view (allocateBlock env s).2 = (view s).takeBlock b ∧
      ((view s).takeBlock b).freeBlocks + 1 = (view s).freeBlocks := by
  rcases allocateBlock_exact env hc with hfail | ⟨b, hb, hu, hl, hfree, hnum, hview⟩
  · exact Or.inl hfail
  · have hleast : (view s).LeastFree b := ⟨hb, hu, hl⟩
    refine Or.inr ⟨b, hleast, hleast.ge hm, hnum, hview, ?_⟩
    rw [Volume.freeBlocks_takeBlock hfree]
    omega

/-- Allocating one block and filling it keeps what the loops rely on. -/
theorem Volume.LeastFree.next {v : Volume} {b : ℕ} (buf : Block) (h : v.LeastFree b)
    (hc : BlockCount v) (hm : v.MetaUsed) :
    BlockCount ((v.takeBlock b).setData b buf) ∧ ((v.takeBlock b).setData b buf).MetaUsed := by
  have ht := hc.takeBlock h.lt h.unused
  refine ⟨⟨ht.group, ht.total⟩, fun k hk => ?_⟩
  change Function.update v.blockUsed b true k = true
  by_cases hkb : k = b
  · rw [hkb, Function.update_self]
  · rw [Function.update_of_ne hkb]
    exact hm k hk

/-- Two inodes that differ in their pointers and their block count only. -/
structure SameHead (x y : EXT2Inode) : Prop where
  mode : x.i_mode = y.i_mode
  size : x.i_size = y.i_size

theorem SameHead.trans {x y z : EXT2Inode} (h : SameHead x y) (h' : SameHead y z) :
    SameHead x z :=
  ⟨h.mode.trans h'.mode, h.size.trans h'.size⟩

theorem add_ofNat_succ (c : BitVec 32) (l : ℕ) :
    c + BitVec.ofNat 32 (blockSize / 512) + BitVec.ofNat 32 l = c + BitVec.ofNat 32 (l + 1) := by
  rw [BitVec.add_assoc, ← BitVec.ofNat_add, show blockSize / 512 = 1 from rfl, Nat.add_comm]

theorem countBlock_block (x : EXT2Inode) (i b j : ℕ) :
    ((x.setBlock i b).countBlock).block j = (x.setBlock i b).block j := rfl

/-- The direct loop fills as many blocks as it is asked for or as are free. -/
theorem writeDirect_spec (env : Env) (r : Request) : ∀ (k a : ℕ) (x : EXT2Inode) (s : Fs),
    BlockCount (view s) → (view s).MetaUsed → a + k ≤ 12 →
    ∃ P, P.length = min k (view s).freeBlocks ∧
      Filled (view s) P (fun i => dataBlock r (a + i))
        (view (writeDirect env r (List.range' a k) x s).2) ∧
      (∀ j, (writeDirect env r (List.range' a k) x s).1.block j =
        if a ≤ j ∧ j < a + P.length then P[j - a]?.getD 0 else x.block j) ∧
      (writeDirect env r (List.range' a k) x s).1.i_blocks =
        x.i_blocks + BitVec.ofNat 32 P.length ∧
      SameHead (writeDirect env r (List.range' a k) x s).1 x
  | 0, a, x, s, _, _, _ => by
      refine ⟨[], by simp, Filled.nil _ _, fun j => ?_, ?_, ⟨rfl, rfl⟩⟩
      · rw [if_neg (by simp)]
        rfl
      · simp [writeDirect]
  | k + 1, a, x, s, hc, hm, hk => by
      rw [List.range'_succ, writeDirect]
      rcases allocateBlock_least env hc hm with
        ⟨hfail, hfree⟩ | ⟨b, hb, hge, hnum, hview, hfree⟩
      · simp only [hfail, if_true]
        refine ⟨[], by simp [hfree], Filled.nil _ _, fun j => ?_, ?_, ⟨rfl, rfl⟩⟩
        · rw [if_neg (by simp)]
        · simp
      · simp only [hnum]
        rw [if_neg (by omega)]
        have hblt : b < 2 ^ 32 := lt_trans hb.lt (by decide)
        have hview' : view (writeBlocks (allocateBlock env s).2 (dataBlock r a) b) =
            ((view s).takeBlock b).setData b (dataBlock r a) := by
          rw [view_writeBlocks _ _ hge (lt_trans hb.lt (by decide)), hview]
        obtain ⟨hc', hm'⟩ := hb.next (dataBlock r a) hc hm
        obtain ⟨P, hlen, hfill, hblock, hblocks, hhead⟩ := writeDirect_spec env r k (a + 1)
          (x.setBlock a b).countBlock (writeBlocks (allocateBlock env s).2 (dataBlock r a) b)
          (hview' ▸ hc') (hview' ▸ hm') (by omega)
        rw [hview'] at hlen hfill
        have hfree' : (((view s).takeBlock b).setData b (dataBlock r a)).freeBlocks + 1 =
            (view s).freeBlocks := hfree
        refine ⟨b :: P, ?_, hfill.cons' hb hge rfl fun i => ?_, fun j => ?_, ?_, ?_⟩
        · rw [List.length_cons, hlen]
          omega
        · rw [Nat.add_assoc, Nat.add_comm 1 i]
        · rw [hblock, countBlock_block, x.block_setBlock (by omega) hblt, List.length_cons]
          by_cases hj : j = a
          · subst hj
            rw [if_neg (by omega), if_pos rfl, if_pos (by omega), Nat.sub_self]
            rfl
          · by_cases hlo : a + 1 ≤ j ∧ j < a + 1 + P.length
            · rw [if_pos hlo, if_pos (by omega), show j - a = (j - (a + 1)) + 1 by omega,
                List.getElem?_cons_succ]
            · rw [if_neg hlo, if_neg hj, if_neg (by omega)]
        · rw [hblocks, List.length_cons]
          exact add_ofNat_succ x.i_blocks P.length
        · exact hhead.trans ⟨rfl, rfl⟩

theorem tableEntry_splice {table : Block} {k b : ℕ} (hk : k < 128) (hb : b < 2 ^ 32) (m : ℕ) :
    tableEntry (splice table (32 * k) (BitVec.ofNat 32 b)) m =
      if m = k then b else tableEntry table m := by
  unfold tableEntry
  by_cases h : m = k
  · subst h
    rw [if_pos rfl, extract_splice _ _ (by omega), BitVec.toNat_ofNat, Nat.mod_eq_of_lt hb]
  · rw [if_neg h, extract_splice_ne _ _ (by omega)]

/-- The indirect loop does the same, through the table. -/
theorem writeIndirect_spec (env : Env) (r : Request) :
    ∀ (k a : ℕ) (x : EXT2Inode) (table : Block) (s : Fs),
    BlockCount (view s) → (view s).MetaUsed → 12 ≤ a → a + k ≤ 140 →
    ∃ Q, Q.length = min k (view s).freeBlocks ∧
      Filled (view s) Q (fun i => dataBlock r (a + i))
        (view (writeIndirect env r (List.range' a k) x table s).2.2) ∧
      (∀ m, tableEntry (writeIndirect env r (List.range' a k) x table s).2.1 m =
        if a ≤ m + 12 ∧ m + 12 < a + Q.length then Q[m + 12 - a]?.getD 0
        else tableEntry table m) ∧
      (∀ j, (writeIndirect env r (List.range' a k) x table s).1.block j = x.block j) ∧
      (writeIndirect env r (List.range' a k) x table s).1.i_blocks =
        x.i_blocks + BitVec.ofNat 32 Q.length ∧
      SameHead (writeIndirect env r (List.range' a k) x table s).1 x
  | 0, a, x, table, s, _, _, _, _ => by
      refine ⟨[], by simp, Filled.nil _ _, fun m => ?_, fun _ => rfl, ?_, ⟨rfl, rfl⟩⟩
      · rw [if_neg (by simp)]
        rfl
      · simp [writeIndirect]
  | k + 1, a, x, table, s, hc, hm, ha, hk => by
      rw [List.range'_succ, writeIndirect]
      rcases allocateBlock_least env hc hm with
        ⟨hfail, hfree⟩ | ⟨b, hb, hge, hnum, hview, hfree⟩
      · simp only [hfail, if_true]
        refine ⟨[], by simp [hfree], Filled.nil _ _, fun m => ?_, fun _ => trivial, ?_, ⟨rfl, rfl⟩⟩
        · rw [if_neg (by simp)]
        · simp
      · simp only [hnum]
        rw [if_neg (by omega)]
        have hblt : b < 2 ^ 32 := lt_trans hb.lt (by decide)
        have hview' : view (writeBlocks (allocateBlock env s).2 (dataBlock r a) b) =
            ((view s).takeBlock b).setData b (dataBlock r a) := by
          rw [view_writeBlocks _ _ hge (lt_trans hb.lt (by decide)), hview]
        obtain ⟨hc', hm'⟩ := hb.next (dataBlock r a) hc hm
        obtain ⟨Q, hlen, hfill, htable, hblock, hblocks, hhead⟩ := writeIndirect_spec env r k
          (a + 1) x.countBlock (splice table (32 * (a - 12)) (BitVec.ofNat 32 b))
          (writeBlocks (allocateBlock env s).2 (dataBlock r a) b)
          (hview' ▸ hc') (hview' ▸ hm') (by omega) (by omega)
        rw [hview'] at hlen hfill
        have hfree' : (((view s).takeBlock b).setData b (dataBlock r a)).freeBlocks + 1 =
            (view s).freeBlocks := hfree
        refine ⟨b :: Q, ?_, hfill.cons' hb hge rfl fun i => ?_, fun m => ?_, hblock, ?_, ?_⟩
        · rw [List.length_cons, hlen]
          omega
        · rw [Nat.add_assoc, Nat.add_comm 1 i]
        · rw [htable, tableEntry_splice (by omega) hblt, List.length_cons]
          by_cases hm12 : m + 12 = a
          · rw [if_neg (by omega), if_pos (by omega), if_pos (by omega), hm12, Nat.sub_self]
            rfl
          · by_cases hlo : a + 1 ≤ m + 12 ∧ m + 12 < a + 1 + Q.length
            · rw [if_pos hlo, if_pos (by omega), show m + 12 - a = (m + 12 - (a + 1)) + 1 by omega,
                List.getElem?_cons_succ]
            · rw [if_neg hlo, if_neg (by omega), if_neg (by omega)]
        · rw [hblocks, List.length_cons]
          exact add_ofNat_succ x.i_blocks Q.length
        · exact hhead.trans ⟨rfl, rfl⟩

/-- The blocks a request asks for: its data blocks as far as an inode can map
them, and an indirect table behind the twelfth; one block for a directory. -/
def demand (r : Request) : ℕ :=
  if r.is_directory then 1
  else if r.size = 0 then 0
  else min (blocksNeeded r) 12 +
    if blocksNeeded r > 12 then 1 + min (blocksNeeded r - 12) 128 else 0

theorem demand_dir {r : Request} (h : r.is_directory = true) : demand r = 1 := if_pos h

theorem demand_empty {r : Request} (h : r.is_directory = false) (h0 : r.size = 0) :
    demand r = 0 := by
  rw [demand, if_neg (by simp [h]), if_pos h0]

theorem demand_file {r : Request} (h : r.is_directory = false) (h0 : r.size ≠ 0) :
    demand r = min (blocksNeeded r) 12 +
      if blocksNeeded r > 12 then 1 + min (blocksNeeded r - 12) 128 else 0 := by
  rw [demand, if_neg (by simp [h]), if_neg h0]

/-- What the places of a new file hold, in order: twelve data blocks, the
indirect table, and data blocks again. -/
def fileBlock (r : Request) (table : Block) (i : ℕ) : Block :=
  if i < 12 then dataBlock r i else if i = 12 then table else dataBlock r (i - 1)

/-- Twelve places or fewer are direct pointers. -/
theorem ptr_of_direct {y : EXT2Inode} {D : List ℕ} {data : ℕ → Block} (hlen : D.length ≤ 12)
    (h : ∀ j, y.block j = D[j]?.getD 0) (j : ℕ) : y.ptr data j = D[j]?.getD 0 := by
  unfold EXT2Inode.ptr
  by_cases hj : j < 13
  · rw [if_pos hj, h]
  · rw [if_neg hj, h, List.getElem?_eq_none (by omega), List.getElem?_eq_none (by omega),
      Option.getD_none, if_pos rfl]

theorem writeFile_spec (env : Env) (r : Request) {x : EXT2Inode} (hx : ∀ j, x.block j = 0)
    (hx0 : x.i_blocks = 0) (hc : BlockCount (view s)) (hm : (view s).MetaUsed) :
    ∃ P table, P.length = min (min (blocksNeeded r) 12 +
        if blocksNeeded r > 12 then 1 + min (blocksNeeded r - 12) 128 else 0)
        (view s).freeBlocks ∧
      Filled (view s) P (fileBlock r table) (view (writeFile env r x s).2) ∧
      (∀ j, (writeFile env r x s).1.ptr (view (writeFile env r x s).2).data j = P[j]?.getD 0) ∧
      (writeFile env r x s).1.i_blocks = BitVec.ofNat 32 P.length ∧
      SameHead (writeFile env r x s).1 x := by
  obtain ⟨D, hlenD, hfillD, hblockD, hblocksD, hheadD⟩ := writeDirect_spec env r
    (min (blocksNeeded r) 12) 0 x s hc hm (by omega)
  unfold writeFile
  rw [List.range_eq_range']
  generalize writeDirect env r (List.range' 0 (min (blocksNeeded r) 12)) x s = d
    at hfillD hblockD hblocksD hheadD ⊢
  have hD12 : D.length ≤ 12 := by omega
  have hptrD : ∀ j, d.1.block j = D[j]?.getD 0 := fun j => by
    rw [hblockD, hx]
    by_cases hj : j < D.length
    · rw [if_pos (by omega), Nat.sub_zero]
    · rw [if_neg (by omega), List.getElem?_eq_none (by omega)]
      rfl
  have hfillD' : ∀ table, Filled (view s) D (fileBlock r table) (view d.2) := fun table =>
    ⟨hfillD.nodup, hfillD.fresh, hfillD.volume, hfillD.outside, fun i b hi => by
      obtain ⟨hlt, -⟩ := List.getElem?_eq_some_iff.mp hi
      rw [hfillD.inside i b hi, fileBlock, if_pos (by omega), Nat.zero_add]⟩
  rw [hx0, BitVec.ofNat_eq_ofNat, BitVec.zero_add] at hblocksD
  by_cases hbn : blocksNeeded r > 12
  · simp only [if_pos hbn]
    have hfreeD := hfillD.freeBlocks hc
    rcases allocateBlock_least env (hfillD.blockCount hc) (hfillD.metaUsed hm) with
      ⟨hfail, hfree⟩ | ⟨t, ht, hge, hnum, hview, hfree⟩
    · -- no block for the table
      simp only [hfail, if_true]
      exact ⟨D, 0, by omega, hfillD' 0, ptr_of_direct hD12 hptrD, hblocksD, hheadD⟩
    · simp only [hnum]
      rw [if_neg (by omega)]
      have htlt : t < 2 ^ 32 := lt_trans ht.lt (by decide)
      have hct : BlockCount (view (allocateBlock env d.2).2) := by
        rw [hview]
        exact (hfillD.blockCount hc).takeBlock ht.lt ht.unused
      have hmt : (view (allocateBlock env d.2).2).MetaUsed := by
        rw [hview]
        exact (ht.next 0 (hfillD.blockCount hc) (hfillD.metaUsed hm)).2
      obtain ⟨Q, hlenQ, hfillQ, htable, hblockQ, hblocksQ, hheadQ⟩ := writeIndirect_spec
        env r (min (blocksNeeded r - 12) 128) 12 (d.1.setBlock 12 t).countBlock 0
        (allocateBlock env d.2).2 hct hmt le_rfl (by omega)
      generalize writeIndirect env r (List.range' 12 (min (blocksNeeded r - 12) 128))
        (d.1.setBlock 12 t).countBlock 0 (allocateBlock env d.2).2 = w
        at hfillQ htable hblockQ hblocksQ hheadQ ⊢
      rw [hview] at hlenQ hfillQ
      have hDlen : D.length = 12 := by omega
      have hlast : view (writeBlocks w.2.2 w.2.1 t) = (view w.2.2).setData t w.2.1 :=
        view_writeBlocks _ _ hge (lt_trans ht.lt (by decide))
      have hfillT : Filled (view d.2) (t :: Q)
          (fun i => if i = 0 then w.2.1 else dataBlock r (12 + (i - 1)))
          ((view w.2.2).setData t w.2.1) :=
        hfillQ.cons ht hge (if_pos rfl) fun i => if_neg (Nat.succ_ne_zero i)
      have hfill : Filled (view s) (D ++ t :: Q) (fileBlock r w.2.1)
          ((view w.2.2).setData t w.2.1) := by
        refine hfillD.append hfillT (fun i hi => ?_) fun i => ?_
        · rw [fileBlock, if_pos (by omega), Nat.zero_add]
        · rw [hDlen, fileBlock, if_neg (by omega)]
          by_cases hi : i = 0
          · rw [if_pos (by omega), if_pos hi]
          · rw [if_neg (by omega), if_neg hi, show 12 + i - 1 = 12 + (i - 1) by omega]
      have hblock12 : ∀ j, w.1.block j = if j = 12 then t else D[j]?.getD 0 := fun j => by
        rw [hblockQ, countBlock_block, d.1.block_setBlock (by decide) htlt, hptrD]
      refine ⟨D ++ t :: Q, w.2.1, ?_, hlast ▸ hfill, fun j => ?_, ?_, ?_⟩
      · rw [List.length_append, List.length_cons, hlenQ]
        omega
      · rw [hlast]
        unfold EXT2Inode.ptr
        rw [hblock12 12, if_pos rfl, hblock12]
        by_cases hj : j < 12
        · rw [if_pos (by omega), if_neg (by omega), List.getElem?_append_left (by omega)]
        · rw [List.getElem?_append_right (by omega), hDlen]
          by_cases hj12 : j = 12
          · subst hj12
            rw [if_pos (by decide), if_pos rfl]
            rfl
          · rw [if_neg (by omega), if_neg (by omega),
              show ((view w.2.2).setData t w.2.1).data t = w.2.1 from Function.update_self ..,
              htable, show j - 12 = (j - 13) + 1 by omega, List.getElem?_cons_succ]
            by_cases hQ : j - 13 < Q.length
            · rw [if_pos (by omega), Nat.add_sub_cancel]
            · rw [if_neg (by omega), List.getElem?_eq_none (by omega), tableEntry_zero]
              rfl
      · rw [hblocksQ, List.length_append, List.length_cons]
        change d.1.i_blocks + BitVec.ofNat 32 (blockSize / 512) + _ = _
        rw [add_ofNat_succ, hblocksD, ← BitVec.ofNat_add]
      · exact hheadQ.trans ⟨hheadD.mode, hheadD.size⟩
  · simp only [if_neg hbn]
    exact ⟨D, 0, by omega, hfillD' 0, ptr_of_direct hD12 hptrD, hblocksD, hheadD⟩

/-! ## The new inode -/

/-- From `v` to `v'` the request `r` has filled the new inode `x` numbered `n`,
whose places hold the blocks `P`. -/
structure Content (r : Request) (n : ℕ) (v v' : Volume) (P : List ℕ) (x : EXT2Inode) : Prop where
  nodup : P.Nodup
  fresh : ∀ b ∈ P, 21 ≤ b ∧ b < 256 ∧ v.blockUsed b = false
  volume : v' = { v.takeBlocks P with data := v'.data }
  outside : ∀ b, b ∉ P → v'.data b = v.data b
  length : P.length = min (demand r) v.freeBlocks
  ptr : ∀ j, x.ptr v'.data j = P[j]?.getD 0
  i_blocks : x.i_blocks = BitVec.ofNat 32 P.length
  is_dir : x.isDir = r.is_directory
  file_size : r.is_directory = false → x.i_size = r.buffer_size
  file_data : r.is_directory = false → ∀ k b, P[if k < 12 then k else k + 1]? = some b →
    v'.data b = dataBlock r k
  dir_data : r.is_directory = true → ∀ b ∈ P, v'.data b = dotEntries n r.parent

theorem freshInode_block (r : Request) (j : ℕ) : (freshInode r).block j = 0 := by
  unfold freshInode
  split
  · exact EXT2Inode.zero_block j
  · exact EXT2Inode.zero_block j

theorem freshInode_i_blocks (r : Request) : (freshInode r).i_blocks = 0 := by
  unfold freshInode
  split <;> rfl

theorem freshInode_isDir (r : Request) : (freshInode r).isDir = r.is_directory := by
  unfold freshInode
  cases hr : r.is_directory with
  | true => exact (by decide +kernel : ((ext2SIfdir ||| 0o755) &&& ext2SIfdir != 0) = true)
  | false => exact (by decide +kernel : ((ext2SIfreg ||| 0o644) &&& ext2SIfdir != 0) = false)

theorem SameHead.isDir {x y : EXT2Inode} (h : SameHead x y) : x.isDir = y.isDir := by
  unfold EXT2Inode.isDir
  rw [h.mode]

theorem writeDir_spec (env : Env) (r : Request) (n : ℕ) {x : EXT2Inode} (hx : ∀ j, x.block j = 0)
    (hx0 : x.i_blocks = 0) (hc : BlockCount (view s)) (hm : (view s).MetaUsed) :
    ∃ P, P.length = min 1 (view s).freeBlocks ∧
      Filled (view s) P (fun _ => dotEntries n r.parent) (view (writeDir env r n x s).2) ∧
      (∀ j, (writeDir env r n x s).1.block j = P[j]?.getD 0) ∧
      (writeDir env r n x s).1.i_blocks = BitVec.ofNat 32 P.length ∧
      (writeDir env r n x s).1.i_mode = x.i_mode := by
  unfold writeDir
  rcases allocateBlock_least env hc hm with
    ⟨hfail, hfree⟩ | ⟨b, hb, hge, hnum, hview, hfree⟩
  · simp only [hfail, if_true]
    exact ⟨[], by simp [hfree], Filled.nil _ _, fun j => by simp [hx], by simp [hx0], trivial⟩
  · simp only [hnum]
    rw [if_neg (by omega)]
    have hview' : view (writeBlocks (allocateBlock env s).2 (dotEntries n r.parent) b) =
        ((view s).takeBlock b).setData b (dotEntries n r.parent) := by
      rw [view_writeBlocks _ _ hge (lt_trans hb.lt (by decide)), hview]
    refine ⟨[b], ?_, ?_, fun j => ?_, rfl, rfl⟩
    · rw [List.length_singleton]
      omega
    · rw [hview']
      exact (Filled.nil _ _).cons' hb hge rfl fun _ => rfl
    · have hset := x.block_setBlock (k := 0) (b := b) (j := j) (by decide)
        (lt_trans hb.lt (by decide))
      refine hset.trans ?_
      cases j with
      | zero => rfl
      | succ j => simp [hx]

/-- `write` fills the new inode with what the request carries, as far as there
are free blocks. -/
theorem writeContent_spec (env : Env) (r : Request) (n : ℕ) (hc : BlockCount (view s))
    (hm : (view s).MetaUsed) :
    ∃ P, Content r n (view s) (view (writeContent env r n s).2) P (writeContent env r n s).1 := by
  unfold writeContent
  cases hr : r.is_directory with
  | true =>
      simp only [Bool.true_eq_false, false_and, if_false, if_true]
      obtain ⟨P, hlen, hfill, hblock, hblocks, hmode⟩ := writeDir_spec env (s := s) r n
        (freshInode_block r) (freshInode_i_blocks r) hc hm
      refine ⟨P, hfill.nodup, hfill.fresh, hfill.volume, hfill.outside, ?_,
        ptr_of_direct (by omega) hblock, hblocks, ?_, ?_, ?_, ?_⟩
      · rw [hlen, demand_dir hr]
      · rw [← freshInode_isDir r]
        unfold EXT2Inode.isDir
        rw [hmode]
      · intro hf
        rw [hr] at hf
        cases hf
      · intro hf
        rw [hr] at hf
        cases hf
      · intro _ b hb
        obtain ⟨i, hi⟩ := List.mem_iff_getElem?.mp hb
        exact hfill.inside i b hi
  | false =>
      simp only [true_and, Bool.false_eq_true, if_false]
      by_cases hs : 0 < r.size
      · rw [if_pos hs]
        obtain ⟨P, table, hlen, hfill, hptr, hblocks, hhead⟩ := writeFile_spec env
          (s := s) r (freshInode_block r) (freshInode_i_blocks r) hc hm
        refine ⟨P, hfill.nodup, hfill.fresh, hfill.volume, hfill.outside, ?_, hptr, hblocks,
          hhead.isDir.trans (freshInode_isDir r), fun _ => ?_, fun _ k b hb => ?_, fun hf => ?_⟩
        · rw [hlen, demand_file hr (by omega)]
        · rw [hhead.size, freshInode, if_neg (by simp [hr])]
        · rw [hfill.inside _ b hb, fileBlock]
          by_cases hk : k < 12
          · rw [if_pos hk, if_pos hk]
          · rw [if_neg hk, if_neg (by omega), if_neg (by omega), Nat.add_sub_cancel]
        · rw [hr] at hf
          cases hf
      · rw [if_neg hs]
        refine ⟨[], List.nodup_nil, by simp, rfl, fun _ _ => rfl, ?_, ?_, ?_,
          freshInode_isDir r, fun _ => ?_, fun _ k b hb => ?_, fun _ b hb => ?_⟩
        · rw [demand_empty hr (by omega), Nat.zero_min]
          rfl
        · exact ptr_of_direct (by simp) fun j => by rw [freshInode_block]; rfl
        · rw [freshInode_i_blocks]
          rfl
        · rw [freshInode, if_neg (by simp [hr])]
        · simp at hb
        · simp at hb

end RendangOS.Ext2
