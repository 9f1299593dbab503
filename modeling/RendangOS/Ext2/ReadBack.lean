import RendangOS.Ext2.Failure
import RendangOS.Ext2.Counters

/-!
# Reading back

The loops of `write` and the loops of `read` cut a file into blocks on their
own, and meet in the places of the inode. `Holds` is the meeting point: the
bytes of a file, each in a block that its inode maps. `read` copies out what an
inode holds, and `write` stores what it was given when there was room for all
of it. Where there was not, it may still return 0.
-/

namespace RendangOS.Ext2

open Image RecordChain Assoc Bitmap

variable {env : Env} {s : Fs} {v v' v'' : Volume} {n : ℕ} {r : Request} {P : List ℕ}
  {x : EXT2Inode} {held : Set ℕ}

/-- The pointer to data block `k` of inode `n`: in `i_block[0 .. 11]`, then in
the table that `i_block[12]` names. -/
def dataPtr (s : Fs) (n k : ℕ) : ℕ :=
  let x := inodeAt s n
  if k < 12 then x.block k
  else if x.block 12 = 0 then 0
  else tableEntry (readBlocks s (x.block 12)) (k - 12)

/-- The first `size` bytes of inode `n` are `c`, each in a block it maps. -/
def Holds (s : Fs) (n size : ℕ) (c : ℕ → BitVec 8) : Prop :=
  ∀ i < size, dataPtr s n (i / 512) ≠ 0 ∧
    byte (readBlocks s (dataPtr s n (i / 512))) (i % 512) = c i

/-- The place of data block `k`. The table has a place of its own. -/
theorem dataPtr_eq {V : ℕ → Prop} (h : Sound V held (view s)) (n k : ℕ) :
    dataPtr s n k = (view s).ptr n (if k < 12 then k else k + 1) := by
  have h12 : (view s).ptr n 12 = (inodeAt s n).block 12 := EXT2Inode.ptr_direct (by decide)
  unfold dataPtr
  by_cases hk : k < 12
  · have hplace : (if k < 12 then k else k + 1) = k := if_pos hk
    rw [hplace]
    exact (if_pos hk).trans (EXT2Inode.ptr_direct (by omega)).symm
  · have hplace : (if k < 12 then k else k + 1) = k + 1 := if_neg hk
    have hptr : (view s).ptr n (k + 1) = if (inodeAt s n).block 12 = 0 then 0
        else tableEntry ((view s).data ((inodeAt s n).block 12)) (k - 12) := by
      rw [Volume.ptr, EXT2Inode.ptr, if_neg (by omega), show k + 1 - 13 = k - 12 by omega]
      rfl
    rw [hplace, hptr]
    refine (if_neg hk).trans ?_
    by_cases h0 : (inodeAt s n).block 12 = 0
    · rw [if_pos h0, if_pos h0]
    · obtain ⟨hge, hlt, -⟩ := h.ptr_taken (h12 ▸ h0 : (view s).ptr n 12 ≠ 0)
      rw [h12] at hge hlt
      rw [if_neg h0, if_neg h0, readBlocks_data s hge (by omega)]

/-! ## The loops of `read` -/

/-- A loop over blocks `a .. a + m - 1` copies the bytes that lie in them, and
stops behind block `K` when the pointers end there. -/
theorem copyBlocks_spec {p : ℕ → ℕ} {c : ℕ → BitVec 8} {total K : ℕ}
    (h : ∀ i < min total (512 * K),
      p (i / 512) ≠ 0 ∧ byte (readBlocks s (p (i / 512))) (i % 512) = c i)
    (hz : 512 * K < total → ∀ k, K ≤ k → p k = 0) :
    ∀ (m a : ℕ) (out : ℕ → BitVec 8),
      copyBlocks s total ((List.range' a m).map p) (min (min total (512 * K)) (512 * a), out) =
        (min (min total (512 * K)) (512 * (a + m)),
          fun k => if 512 * a ≤ k ∧ k < min (min total (512 * K)) (512 * (a + m)) then c k
            else out k)
  | 0, a, out => by
      have hnone : (fun k => if 512 * a ≤ k ∧ k < min (min total (512 * K)) (512 * (a + 0)) then c k
          else out k) = out := by
        funext k
        exact if_neg (by omega)
      rw [hnone]
      rfl
  | m + 1, a, out => by
      rw [List.range'_succ, List.map_cons, copyBlocks]
      by_cases hlt : 512 * a < min total (512 * K)
      · -- block `a` holds the bytes from `512 * a` on
        have hblock : ∀ j < 512, 512 * a + j < min total (512 * K) →
            p a ≠ 0 ∧ byte (readBlocks s (p a)) j = c (512 * a + j) := by
          intro j hj hjt
          have hi := h (512 * a + j) hjt
          rwa [show (512 * a + j) / 512 = a by omega, show (512 * a + j) % 512 = j by omega] at hi
        have hp0 : p a ≠ 0 := (hblock 0 (by decide) (by omega)).1
        have hmin : min (min total (512 * K)) (512 * a) = 512 * a := by omega
        have htotal : 512 * a < total := by omega
        simp only [hmin, htotal, hp0, ne_eq, not_false_eq_true, and_self, if_true]
        generalize hchunk : (if total - 512 * a < blockSize then total - 512 * a else blockSize) =
          chunk
        have hdone : 512 * a + chunk = min (min total (512 * K)) (512 * (a + 1)) := by
          rw [← hchunk, show blockSize = 512 from rfl]
          split <;> omega
        rw [hdone, copyBlocks_spec h hz m (a + 1), show a + 1 + m = a + (m + 1) by omega]
        congr 1
        funext k
        by_cases hhi : 512 * (a + 1) ≤ k ∧ k < min (min total (512 * K)) (512 * (a + (m + 1)))
        · rw [if_pos hhi, if_pos (by omega)]
        · rw [if_neg hhi, copyOut, hdone]
          by_cases hlo : 512 * a ≤ k ∧ k < min (min total (512 * K)) (512 * (a + 1))
          · obtain ⟨-, hbyte⟩ := hblock (k - 512 * a) (by omega) (by omega)
            rw [if_pos hlo, if_pos (by omega), hbyte, show 512 * a + (k - 512 * a) = k by omega]
          · rw [if_neg hlo, if_neg (by omega)]
      · -- all bytes were copied before
        have hstop : ¬ (min (min total (512 * K)) (512 * a) < total ∧ p a ≠ 0) := by
          rintro ⟨hdone, hpa⟩
          exact hpa (hz (by omega) a (by omega))
        rw [if_neg hstop]
        congr 1
        · omega
        · funext k
          exact (if_neg (by omega)).symm

/-- Both loops of `read` over inode `n`, which maps its first `K` data blocks. -/
theorem copyFile_spec {c : ℕ → BitVec 8} (out : ℕ → BitVec 8) (total K : ℕ)
    (h : ∀ i < min total (512 * K), dataPtr s n (i / 512) ≠ 0 ∧
      byte (readBlocks s (dataPtr s n (i / 512))) (i % 512) = c i)
    (hz : 512 * K < total → ∀ k, K ≤ k → dataPtr s n k = 0)
    (hle : min total (512 * K) ≤ (12 + 128) * 512) :
    (let acc := copyBlocks s total ((List.range 12).map (inodeAt s n).block) (0, out)
      if acc.1 < total ∧ (inodeAt s n).block 12 ≠ 0 then
        copyBlocks s total
          ((List.range 128).map (tableEntry (readBlocks s ((inodeAt s n).block 12)))) acc
      else acc).2 = fun k => if k < min total (512 * K) then c k else out k := by
  have hdirect : (List.range 12).map (inodeAt s n).block =
      (List.range' 0 12).map (dataPtr s n) := by
    rw [← List.range_eq_range']
    apply List.map_congr_left
    intro k hk
    exact (if_pos (List.mem_range.mp hk)).symm
  have hfirst := copyBlocks_spec h hz 12 0 out
  rw [Nat.mul_zero, Nat.min_zero, Nat.zero_add] at hfirst
  rw [hdirect, hfirst]
  dsimp only
  generalize hT : min total (512 * K) = T at *
  by_cases h12 : (inodeAt s n).block 12 = 0
  · -- without a table the pointers end at the twelfth
    have hshort : T ≤ 512 * 12 := by
      by_contra hlong
      have hptr := (h (512 * 12) (by omega)).1
      rw [show 512 * 12 / 512 = 12 by decide] at hptr
      exact hptr (by rw [dataPtr, if_neg (by decide), if_pos h12])
    rw [if_neg (fun hand => hand.2 h12)]
    funext k
    dsimp only
    by_cases hk : k < T
    · rw [if_pos hk, if_pos (by omega)]
    · rw [if_neg hk, if_neg (by omega)]
  · have htable : (List.range 128).map
        (tableEntry (readBlocks s ((inodeAt s n).block 12))) =
        (List.range' 12 128).map (dataPtr s n) := by
      rw [List.range'_eq_map_range, List.map_map]
      apply List.map_congr_left
      intro k _
      rw [Function.comp_apply, dataPtr, if_neg (by omega), if_neg h12, Nat.add_sub_cancel_left]
    by_cases hmore : min T (512 * 12) < total
    · have hsecond := copyBlocks_spec (hT.symm ▸ h) hz 128 12
        fun k => if 512 * 0 ≤ k ∧ k < min T (512 * 12) then c k else out k
      rw [hT] at hsecond
      rw [if_pos ⟨hmore, h12⟩, htable, hsecond]
      funext k
      dsimp only
      by_cases hk : k < T
      · rw [if_pos hk]
        by_cases hlo : 512 * 12 ≤ k
        · rw [if_pos (by omega)]
        · rw [if_neg (by omega), if_pos (by omega)]
      · rw [if_neg hk, if_neg (by omega), if_neg (by omega)]
    · rw [if_neg (fun hand => hmore hand.1)]
      funext k
      dsimp only
      by_cases hk : k < T
      · rw [if_pos hk, if_pos (by omega)]
      · rw [if_neg hk, if_neg (by omega)]

/-- What `read` returns for a file that it finds. -/
theorem read_holds {q : Request} {c : ℕ → BitVec 8} (hinit : s.initialized = true)
    (hp : q.parent ≠ 0) (hn : IsSlot n) (hf : findEntryInDir env s q.parent q.name = n)
    (hr : readInode env s n = some (inodeAt s n)) (hd : (inodeAt s n).isDir = false)
    (hsize : (inodeAt s n).i_size.toNat ≤ (12 + 128) * 512)
    (hc : Holds s n (inodeAt s n).i_size.toNat c) :
    read env s q =
      (0, fun k => if k < min q.size (inodeAt s n).i_size.toNat then c k else q.buf k) := by
  unfold read
  have hn0 : n ≠ 0 := hn.ne_zero
  rw [if_neg (by simp [hinit]), if_neg hp]
  simp only [hf, hn0, if_false, hr, hd, Bool.false_eq_true]
  generalize hsz : (inodeAt s n).i_size.toNat = size at hsize hc ⊢
  have htotal : (if q.size < size then q.size else size) = min q.size size := by
    split <;> omega
  rw [htotal]
  generalize ht : min q.size size = total
  have hsmall : min total (512 * total) = total := by omega
  have hheld : ∀ i < min total (512 * total), _ := fun i hi => hc i (by omega)
  have hcopy := copyFile_spec q.buf total total hheld (fun hlt => by omega) (by omega)
  rw [hsmall] at hcopy
  exact congrArg (Prod.mk 0) hcopy

/-! ## The sizes of a request -/

/-- `ceil(buffer_size / 512)`, without wrap-around. -/
def Request.dataBlocks (r : Request) : ℕ := (r.size + 511) / 512

/-- The blocks of the whole file: its data, and a table behind the twelfth. -/
def Request.fileBlocks (r : Request) : ℕ := r.dataBlocks + if 12 < r.dataBlocks then 1 else 0

theorem blocksNeeded_eq (h : r.dataBlocks ≤ 140) : blocksNeeded r = r.dataBlocks := by
  unfold Request.dataBlocks at h ⊢
  rw [blocksNeeded, show r.size + blockSize - 1 = r.size + 511 from rfl,
    Nat.mod_eq_of_lt (by omega)]
  rfl

theorem demand_eq (hf : r.is_directory = false) (h : r.dataBlocks ≤ 140) :
    demand r = r.fileBlocks := by
  have hblocks := blocksNeeded_eq h
  unfold Request.fileBlocks
  by_cases h0 : r.size = 0
  · have hnone : r.dataBlocks = 0 := by
      rw [Request.dataBlocks, h0]
    rw [demand_empty hf h0, hnone]
    rfl
  · rw [demand_file hf h0, hblocks]
    split <;> omega

/-- The blocks of a file hold its bytes. -/
theorem byte_dataBlock (h : r.dataBlocks ≤ 140) {i : ℕ} (hi : i < r.size) :
    byte (dataBlock r (i / 512)) (i % 512) = r.buf i := by
  have hmod : i % 512 < 512 := Nat.mod_lt i (by decide)
  -- the last block is cut where the file ends
  have hcopy : i % 512 < copySize r (i / 512) ∧ copySize r (i / 512) ≤ 512 := by
    unfold copySize
    rw [blocksNeeded_eq h, Request.dataBlocks, show blockSize = 512 from rfl]
    split <;> dsimp only <;> split <;> omega
  have hbyte := byte_copyBytes (0 : Block) 0 (fun k => r.buf (i / 512 * blockSize + k))
    (k := i % 512) (n := copySize r (i / 512)) (by omega)
  rw [if_pos ⟨Nat.zero_le _, by omega⟩, Nat.sub_zero] at hbyte
  refine hbyte.trans (congrArg r.buf ?_)
  rw [show blockSize = 512 from rfl]
  omega

/-! ## What a successful `write` leaves -/

/-- Inode `n` has been filled with the blocks `P` and entered under the name. -/
structure Entered (s : Fs) (r : Request) (n : ℕ) (P : List ℕ) (s' : Fs) : Prop where
  settled : Settled (view s')
  slot : IsSlot n
  found : ∀ env, findEntryInDir env s' r.parent r.name = n
  bounds : ∀ b ∈ P, 21 ≤ b ∧ b < 256
  length : P.length = min (demand r) (view s).freeBlocks
  length_le : P.length ≤ 141
  ptr : ∀ j, (view s').ptr n j = P[j]?.getD 0
  is_dir : (inodeAt s' n).isDir = r.is_directory
  file_size : r.is_directory = false → (inodeAt s' n).i_size = r.buffer_size
  file_data : r.is_directory = false → ∀ k b, P[if k < 12 then k else k + 1]? = some b →
    readBlocks s' b = dataBlock r k
  dir_data : r.is_directory = true → ∀ b ∈ P, readBlocks s' b = dotEntries n r.parent

theorem Settled.entered (h : Settled (view s)) (hp : AllocatedDir s r.parent)
    (hcode : (Ext2.write env s r).1 = 0) : ∃ n P, Entered s r n P (Ext2.write env s r).2 := by
  rcases h.write_outcome env hp with
    ⟨-, hres⟩ | ⟨hf, ⟨-, hres⟩ | ⟨-, n, P, x, v₃, hst, ⟨-, -, hadd⟩ | ⟨-, hfail, -⟩⟩⟩
  · rw [hres] at hcode
    cases hcode
  · rw [hres] at hcode
    cases hcode
  · have hslot : IsSlot r.parent := isSlot_of_isDir hp.2
    have hpn := hst.parent_ne hp
    have h₃ := h.stored hst hslot
    have h' : Settled (view (Ext2.write env s r).2) := h.write hp
    have hd₃ : (v₃.inode r.parent).isDir = true := by
      rw [hst.inode_ne hpn]
      exact hp.2
    generalize Ext2.write env s r = res at hadd h' ⊢
    obtain ⟨code, s'⟩ := res
    -- the new inode is not the directory that gets the entry
    have hun : Untouched v₃ (view s') n := hadd.untouched h₃.sound hpn.symm
    have hread : ∀ b ∈ P, readBlocks s' b = v₃.data b := by
      intro b hb
      obtain ⟨hge, hlt, -⟩ := hst.fresh b hb
      obtain ⟨j, hj⟩ := List.mem_iff_getElem?.mp hb
      have hptr : v₃.ptr n j = b := by
        rw [hst.ptr_self, hj]
        rfl
      rw [readBlocks_data s' hge (by omega)]
      have hdata := hun.data j (by omega)
      rwa [hptr] at hdata
    have hinode : inodeAt s' n = x := hun.inode.trans hst.inode_self
    have hn := hst.slot
    have hperm := hadd.dirEntries_perm h₃.sound hd₃ (show n ≠ 0 by omega)
      (show n < 2 ^ 32 by omega)
    refine ⟨n, P, h', hst.slot, fun env' => ?_, ?_, hst.length, hst.length_le, ?_, ?_, ?_, ?_, ?_⟩
    · exact h'.find_entry env' ((hadd.isDir_eq _).trans hd₃)
        (hperm.mem_iff.mpr List.mem_cons_self)
    · intro b hb
      obtain ⟨hge, hlt, -⟩ := hst.fresh b hb
      exact ⟨hge, hlt⟩
    · intro j
      exact (hun.ptr_eq j).trans (hst.ptr_self j)
    · rw [hinode]
      exact hst.isDir
    · intro hfile
      rw [hinode]
      exact hst.file_size hfile
    · intro hfile k b hb
      rw [hread b (List.mem_of_getElem? hb)]
      exact hst.file_data hfile hb
    · intro hdir b hb
      rw [hread b hb]
      exact hst.dir_data hdir hb
  · rw [hfail] at hcode
    cases hcode

/-- The inode that the name leads to holds the whole request: a file one block
for every 512 bytes begun, with the bytes in them; a directory a first block
with `"."` and `".."`. -/
def StoredWhole (env : Env) (s : Fs) (r : Request) : Prop :=
  let n := findEntryInDir env s r.parent r.name
  if r.is_directory = true then
    (inodeAt s n).block 0 ≠ 0 ∧
      blockEntries (readBlocks s ((inodeAt s n).block 0)) =
        [⟨.dot, n, ext2FtDir⟩, ⟨.dotdot, r.parent, ext2FtDir⟩]
  else (∀ k, dataPtr s n k ≠ 0 ↔ k < r.dataBlocks) ∧ Holds s n r.size r.buf

/-- There is room for the whole request: an inode can map it, and as many
blocks are free. -/
def Storable (s : Fs) (r : Request) : Prop :=
  if r.is_directory = true then 1 ≤ s.group0.bg_free_blocks_count.toNat
  else r.dataBlocks ≤ 12 + 128 ∧ r.fileBlocks ≤ s.group0.bg_free_blocks_count.toNat

namespace Entered

variable {s' : Fs}

theorem ptr_ne_zero_iff (h : Entered s r n P s') (j : ℕ) :
    (view s').ptr n j ≠ 0 ↔ j < P.length := by
  rw [h.ptr]
  by_cases hj : j < P.length
  · have hge := (h.bounds _ (List.getElem_mem hj)).1
    rw [List.getElem?_eq_getElem hj, Option.getD_some]
    exact ⟨fun _ => hj, fun _ => by omega⟩
  · rw [List.getElem?_eq_none (by omega)]
    exact ⟨fun h0 => absurd rfl h0, fun hlt => absurd hlt hj⟩

theorem dataPtr_ne_zero_iff (h : Entered s r n P s') (k : ℕ) :
    dataPtr s' n k ≠ 0 ↔ (if k < 12 then k else k + 1) < P.length := by
  rw [dataPtr_eq h.settled.sound]
  exact h.ptr_ne_zero_iff _

/-- A file with room for all its blocks is stored. -/
theorem holds (h : Entered s r n P s') (hf : r.is_directory = false)
    (hroom : r.dataBlocks ≤ 12 + 128 ∧ r.fileBlocks ≤ (view s).freeBlocks) :
    (∀ k, dataPtr s' n k ≠ 0 ↔ k < r.dataBlocks) ∧ Holds s' n r.size r.buf := by
  obtain ⟨hle, hfree⟩ := hroom
  have hlen : P.length = r.fileBlocks := by
    rw [h.length, demand_eq hf hle]
    omega
  have hmapped : ∀ k, dataPtr s' n k ≠ 0 ↔ k < r.dataBlocks := by
    intro k
    rw [h.dataPtr_ne_zero_iff, hlen, Request.fileBlocks]
    split <;> split <;> omega
  refine ⟨hmapped, ?_⟩
  intro i hi
  have hk : dataPtr s' n (i / 512) ≠ 0 :=
    (hmapped _).mpr (by unfold Request.dataBlocks; omega)
  have hplace := (h.dataPtr_ne_zero_iff _).mp hk
  refine ⟨hk, ?_⟩
  have hptr : dataPtr s' n (i / 512) = P[if i / 512 < 12 then i / 512 else i / 512 + 1] := by
    rw [dataPtr_eq h.settled.sound, h.ptr, List.getElem?_eq_getElem hplace]
    rfl
  rw [hptr, h.file_data hf (i / 512) _ (List.getElem?_eq_getElem hplace)]
  exact byte_dataBlock hle hi

theorem storedWhole_iff (h : Entered s r n P s') (hp : IsSlot r.parent) (env : Env) :
    StoredWhole env s' r ↔ Storable s r := by
  have hcount : (view s).freeBlocks = s.group0.bg_free_blocks_count.toNat := rfl
  have hlen := h.length
  unfold StoredWhole Storable
  rw [h.found env]
  by_cases hd : r.is_directory = true
  · -- a new directory asks for one block
    rw [demand_dir hd] at hlen
    have hblock : (inodeAt s' n).block 0 = (view s').ptr n 0 :=
      (EXT2Inode.ptr_direct (by decide)).symm
    simp only [hd, if_true, hblock, h.ptr_ne_zero_iff]
    constructor
    · rintro ⟨hlt, -⟩
      omega
    · intro hfree
      have hlt : 0 < P.length := by omega
      have hdot := hp.1
      have hn := h.slot.1
      have hn64 : n ≤ 64 := h.slot.2
      refine ⟨hlt, ?_⟩
      rw [h.ptr, List.getElem?_eq_getElem hlt, Option.getD_some,
        h.dir_data hd _ (List.getElem_mem hlt)]
      exact (dotEntries_spec (by omega) (by omega) (show r.parent ≠ 0 by omega)
        r.parent_inode.isLt).2
  · have hf : r.is_directory = false := Bool.eq_false_of_not_eq_true hd
    rw [if_neg hd, if_neg hd, ← hcount]
    refine ⟨?_, h.holds hf⟩
    rintro ⟨hmapped, -⟩
    -- place 140 of the data is behind the table
    have hle : r.dataBlocks ≤ 140 := by
      by_contra hgt
      have hlast := (h.dataPtr_ne_zero_iff 140).mp ((hmapped 140).mpr (by omega))
      rw [if_neg (by decide)] at hlast
      exact absurd h.length_le (by omega)
    refine ⟨hle, ?_⟩
    unfold Request.fileBlocks
    by_cases h0 : r.dataBlocks = 0
    · rw [h0]
      exact Nat.zero_le _
    · have hlast := (h.dataPtr_ne_zero_iff (r.dataBlocks - 1)).mp ((hmapped _).mpr (by omega))
      split at hlast <;> split <;> omega

end Entered

/-! ## Success and storage -/

/-- **Success means everything was stored** exactly when every request that is
accepted is one there is room for. `write` does not look at the outcome of an
allocation once it has its inode. -/
theorem success_stores_whole_iff (h : Reachable OnDirectory s) (hp : AllocatedDir s r.parent)
    (env : Env) :
    ((write env s r).1 = 0 → StoredWhole env (write env s r).2 r) ↔
      (Accepted env s r → Storable s r) := by
  have hinv := reachable_settled h
  have hslot : IsSlot r.parent := isSlot_of_isDir hp.2
  have hzero := hinv.write_zero_iff env hp
  constructor
  · intro hstored hacc
    obtain ⟨n, P, hent⟩ := hinv.entered hp (hzero.mpr hacc)
    exact (hent.storedWhole_iff hslot env).mp (hstored (hzero.mpr hacc))
  · intro hroom hcode
    obtain ⟨n, P, hent⟩ := hinv.entered hp hcode
    exact (hent.storedWhole_iff hslot env).mpr (hroom (hzero.mp hcode))

/-- Three bytes need one block of 234. -/
theorem success_stores_whole_small_file :
    StoredWhole .zero (smallFile.run .zero freshFs).2 smallFile.request := by
  have hiff := success_stores_whole_iff (r := smallFile.request) (Reachable.fresh OnDirectory)
    (show AllocatedDir freshFs 2 by decide +kernel) .zero
  apply hiff.mpr
  · intro _
    refine ⟨by decide, ?_⟩
    rw [show freshFs.group0.bg_free_blocks_count = 234 by decide +kernel]
    decide
  · decide +kernel

/-- A file of one byte more than an inode can map. -/
def bigFile : Request := .file 2 (.letter 0x62) (List.replicate ((12 + 128) * 512 + 1) 0)

theorem bigFile_size : bigFile.size = (12 + 128) * 512 + 1 := by
  unfold Request.size bigFile Request.file
  rw [List.length_replicate]
  rfl

/-- It is written without its last byte, and `write` returns 0. -/
theorem write_drops_last_byte :
    Reachable OnDirectory freshFs ∧ AllocatedDir freshFs bigFile.parent ∧
      (write .zero freshFs bigFile).1 = 0 ∧
      ¬ StoredWhole .zero (write .zero freshFs bigFile).2 bigFile := by
  have hreach := Reachable.fresh OnDirectory
  have hp : AllocatedDir freshFs bigFile.parent := show AllocatedDir freshFs 2 by decide +kernel
  have hinv := reachable_settled hreach
  have hblocks : bigFile.dataBlocks = 141 := by
    rw [Request.dataBlocks, bigFile_size]
  have hdemand : demand bigFile = 141 := by
    rw [demand_file rfl (by rw [bigFile_size]; decide), blocksNeeded, bigFile_size]
    rfl
  have hcode : (write .zero freshFs bigFile).1 = 0 := by
    rw [hinv.write_zero_iff .zero hp]
    refine ⟨show findEntryInDir .zero freshFs 2 (.letter 0x62) = 0 by decide +kernel, ?_, ?_⟩
    · rintro (h0 | hall)
      · exact absurd h0 (by decide +kernel)
      · exact absurd (hall 12 (by decide) (by decide)) (by decide +kernel)
    · refine Or.inr ⟨⟨1, by decide, show (inodeAt freshFs 2).block 1 = 0 by decide +kernel⟩, ?_⟩
      rw [hdemand, show freshFs.group0.bg_free_blocks_count = 234 by decide +kernel]
      decide
  refine ⟨hreach, hp, hcode, ?_⟩
  obtain ⟨n, P, hent⟩ := hinv.entered hp hcode
  rw [hent.storedWhole_iff (isSlot_of_isDir hp.2) .zero]
  rintro ⟨hle, -⟩
  rw [hblocks] at hle
  exact absurd hle (by decide)

/-! ## Reading a written file back -/

/-- There is room for the whole file and its entry: an inode can map it and one
is free, and the free blocks suffice, with one for the parent where it must
grow. -/
structure RoomFor (s : Fs) (r : Request) : Prop where
  size : r.size ≤ (12 + 128) * 512
  inode : ∃ n, IsSlot n ∧ inodeUsed s n = false
  blocks : r.fileBlocks ≤ clearCount (blockUsed s) blocksPerGroup
  grows : ¬ (view s).EntryFits r.parent r.name → (∃ i < 12, (inodeAt s r.parent).block i = 0) ∧
    r.fileBlocks + 1 ≤ clearCount (blockUsed s) blocksPerGroup

/-- An inode bit is clear exactly when the counter is not zero. -/
theorem Tree.not_noInode (h : Tree held (view s)) (hn : IsSlot n) (hu : inodeUsed s n = false) :
    ¬ (view s).NoInode := by
  rintro (h0 | hall)
  · have hclear := clearCount_eq_zero.mp (h.countersExact.inodes.symm.trans h0)
    have hn64 : n ≤ 64 := hn.2
    have hbit := hclear (n - 1) (show n - 1 < 64 by have := hn.1; omega)
    rw [inodeUsed, hbit, Bool.and_true, bne_eq_false_iff_eq] at hu
    exact absurd hn.1 (by omega)
  · have hused := hall n hn.1 hn.2
    rw [show (view s).inodeUsed n = inodeUsed s n from rfl, hu] at hused
    cases hused

/-- **What is written is read back**, over direct and indirect blocks, into a
buffer of any size. -/
theorem read_written (h : Reachable ProperCall s) (hp : AllocatedDir s r.parent)
    (hf : r.is_directory = false)
    (hnew : r.name ∉ ((view s).dirEntries r.parent).map DirEntry.name) (hroom : RoomFor s r)
    (env : Env) :
    (write env s r).1 = 0 ∧ ∀ env' q, q.parent_inode = r.parent_inode → q.name = r.name →
      read env' (write env s r).2 q =
        (0, fun k => if k < min q.size r.size then r.buf k else q.buf k) := by
  obtain ⟨held, htree⟩ := reachable_tree (h.mono fun s c hc => hc.treeCall)
  have hinv := htree.settled
  have hslot : IsSlot r.parent := isSlot_of_isDir hp.2
  have hfree : (view s).freeBlocks = clearCount (blockUsed s) blocksPerGroup :=
    hinv.sound.blocks.group
  have hle : r.dataBlocks ≤ 12 + 128 := by
    have hsize := hroom.size
    unfold Request.dataBlocks
    omega
  have hacc : Accepted env s r := by
    refine ⟨?_, ?_, ?_⟩
    · rw [findEntryInDir_eq (addresses_inTable_slot hinv.sound.tables hslot)
        (hinv.sound.shape hp.2), inodeOf, lookup_eq_none.mpr hnew]
      exact ite_self 0
    · obtain ⟨n, hn, hu⟩ := hroom.inode
      exact htree.not_noInode hn hu
    · by_cases hfit : (view s).EntryFits r.parent r.name
      · exact Or.inl hfit
      · obtain ⟨hzero, hblocks⟩ := hroom.grows hfit
        refine Or.inr ⟨hzero, ?_⟩
        rw [demand_eq hf hle]
        exact lt_of_lt_of_eq hblocks hfree.symm
  have hcode := (hinv.write_zero_iff env hp).mpr hacc
  refine ⟨hcode, ?_⟩
  intro env' q hqp hqn
  obtain ⟨n, P, hent⟩ := hinv.entered hp hcode
  obtain ⟨-, hheld⟩ := hent.holds hf ⟨hle, hfree ▸ hroom.blocks⟩
  have hparent : q.parent = r.parent := congrArg BitVec.toNat hqp
  have hsize : (inodeAt (write env s r).2 n).i_size.toNat = r.size :=
    congrArg BitVec.toNat (hent.file_size hf)
  have ha : Addresses env' (write env s r).2 n n :=
    addresses_inTable_slot hent.settled.sound.tables hent.slot
  have hread := read_holds (q := q) (c := r.buf) hent.settled.sound.initialized
    (by rw [hparent]; exact hslot.ne_zero) hent.slot
    (by rw [hparent, hqn]; exact hent.found env') ha.readInode (hent.is_dir.trans hf)
    (by rw [hsize]; exact hroom.size) (by rw [hsize]; exact hheld)
  rw [hsize] at hread
  exact hread

/-- Three bytes, read into a buffer of two. -/
theorem read_written_small_file :
    (read .zero (write .zero freshFs (.file 2 (.letter 0x61) [1, 2, 3])).2
      (.file 2 (.letter 0x61) [9, 9])).2 1 = 2 := by
  have hback := read_written (r := .file 2 (.letter 0x61) [1, 2, 3]) (Reachable.fresh ProperCall)
    (show AllocatedDir freshFs 2 by decide +kernel) rfl
    (by
      change EntryName.letter 0x61 ∉ ((view freshFs).dirEntries 2).map DirEntry.name
      rw [freshFs, view_createExt2, fresh_dirEntries]
      decide)
    (by
      have hfree : clearCount (blockUsed freshFs) blocksPerGroup = 234 := by decide +kernel
      refine ⟨by decide, ⟨12, ⟨by decide, by decide⟩, by decide +kernel⟩, ?_, fun _ => ⟨?_, ?_⟩⟩
      · rw [hfree]
        decide
      · exact ⟨1, by decide, show (inodeAt freshFs 2).block 1 = 0 by decide +kernel⟩
      · rw [hfree]
        decide) .zero
  have hread := hback.2 .zero (.file 2 (.letter 0x61) [9, 9]) rfl rfl
  rw [hread]
  rfl

end RendangOS.Ext2
