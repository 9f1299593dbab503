import RendangOS.Ext2.Isolation
import RendangOS.Ext2.Replace

/-!
# The content of a file

`write` may store a file in part, so a file has a size and, beside it, the
bytes that lie in its blocks. `read` delivers these and leaves the rest of the
caller's buffer alone. That it delivers all of them rests on the pointers of an
inode being packed at the front of its places.
-/

namespace RendangOS.Ext2

open Image RecordChain Assoc Bitmap

variable {env : Env} {s s' : Fs} {v v' : Volume} {n m p p' q : ℕ} {r : Request} {e e' : DirEntry}
  {b : ℕ} {P : List ℕ} {x : EXT2Inode}

/-! ## Packed pointers -/

/-- Behind a zero pointer there are only zero pointers. -/
def Packed (v : Volume) : Prop := ∀ n j k, j ≤ k → v.ptr n j = 0 → v.ptr n k = 0

theorem Packed.stored (h : Packed v) (hs : Settled v) (hst : Stored v r n P x v') :
    Packed v' := by
  intro m j k hjk hj
  by_cases hm : m = n
  · subst hm
    rw [hst.ptr_self] at hj ⊢
    by_cases hlt : j < P.length
    · rw [List.getElem?_eq_getElem hlt, Option.getD_some] at hj
      have hge := (hst.fresh _ (List.getElem_mem hlt)).1
      omega
    · rw [List.getElem?_eq_none (by omega)]
      rfl
  · have hun := hst.untouched hs.sound hm
    rw [hun.ptr_eq] at hj ⊢
    exact h m j k hjk hj

theorem Packed.added {code : ℤ} (h : Packed v) (hs : Settled v) (ha : Added v q e code v')
    (hd : (v.inode q).isDir = true) : Packed v' := by
  intro m j k hjk hj
  by_cases hm : m = q
  · subst hm
    cases ha with
    | split b buf _ hb =>
        rw [ptr_setData hs.sound hb] at hj ⊢
        exact h m j k hjk hj
    | full => exact h m j k hjk hj
    | grow b _ hlen hb _ =>
        -- the pointer that is set is the first zero pointer
        have hused : ∀ i < (v.dirBlocks m).length, v.ptr m i ≠ 0 := by
          obtain ⟨l, hl, heq, hne, -⟩ := (v.inode m).dirBlocks_eq
          intro i hi
          rw [Volume.dirBlocks, heq, List.length_map, List.length_range] at hi
          rw [show v.ptr m i = (v.inode m).block i from EXT2Inode.ptr_direct (by omega)]
          exact hne i hi
        have hge := hb.ge hs.sound.meta_used
        rw [ptr_grow hs.sound hlen hb] at hj ⊢
        by_cases hji : j = (v.dirBlocks m).length
        · rw [if_pos hji] at hj
          omega
        · rw [if_neg hji] at hj
          have hlt : ¬ j < (v.dirBlocks m).length := fun hlt => hused j hlt hj
          rw [if_neg (by omega)]
          exact h m j k hjk hj
  · have hun := ha.untouched hs.sound hm
    rw [hun.ptr_eq] at hj ⊢
    exact h m j k hjk hj

theorem Packed.removed {b : ℕ} {buf : Block} (h : Packed (view s)) (hs : Settled (view s))
    (hr : Removed env s r e b buf) : Packed (((view s).setData b buf).dealloc e.inode) := by
  intro m j k hjk hj
  have hptr : ∀ j, ((view s).setData b buf).ptr m j = (view s).ptr m j :=
    ptr_setData hs.sound hr.block m
  by_cases hm : m = slotOf e.inode
  · subst hm
    rw [Volume.ptr, Volume.inode_dealloc_self, EXT2Inode.ptr_zero]
  · have hun := ((view s).setData b buf).untouched_dealloc hm
    rw [hun.ptr_eq, hptr] at hj ⊢
    exact h m j k hjk hj

theorem fresh_packed (disk : ℕ → Block) : Packed (freshVolume disk) := by
  intro n j k hjk hj
  rw [fresh_ptr] at hj ⊢
  by_cases hn : n = 2 ∧ j = 0
  · rw [if_pos hn] at hj
    cases hj
  · rw [if_neg (by omega)]

theorem Packed.call {c : Call} (env : Env) (h : Packed (view s)) (hs : Settled (view s))
    (hc : OnDirectory s c) : Packed (view (c.run env s).2) := by
  have hp : AllocatedDir s c.request.parent := hc
  have hslot : IsSlot c.request.parent := isSlot_of_isDir hp.2
  cases c with
  | write r =>
      rcases hs.write_dir env hp with hres | ⟨-, n, P, x, v₃, hst, hadd⟩
      · exact hres.symm ▸ h
      · have hd := congrArg EXT2Inode.isDir (hst.inode_ne (hst.parent_ne hp))
        exact (h.stored hs hst).added (hs.stored hst hslot) hadd (hd.trans hp.2)
  | delete r =>
      rcases delete_cases env hs.sound (fun n hn => hn.inTable) (Or.inr hslot.inTable) with
        ⟨code, -, hres⟩ | ⟨e, b, buf, hrem, -, hview⟩
      · exact (congrArg Prod.snd hres).symm ▸ h
      · exact hview.symm ▸ h.removed hs hrem

theorem reachable_packed (h : Reachable OnDirectory s) : Packed (view s) := by
  have hinv : Settled (view s) ∧ Packed (view s) := by
    refine h.induct (fun v => Settled v ∧ Packed v)
      (fun disk => ⟨fresh_settled disk, fresh_packed disk⟩) ?_
    rintro env s c ⟨hs, hpacked⟩ hok
    refine ⟨?_, hpacked.call env hs hok⟩
    cases c with
    | write r => exact hs.write hok
    | delete r => exact hs.delete hok
  exact hinv.2

/-- Packed pointers are counted by `i_blocks`. -/
theorem Packed.ptr_ne_zero_iff (h : Packed (view s)) (hs : Settled (view s)) (n j : ℕ) :
    (view s).ptr n j ≠ 0 ↔ j < (inodeAt s n).i_blocks.toNat := by
  -- the first zero place bounds those in use
  have hend : ∃ k, k ≤ 141 ∧ (view s).ptr n k = 0 := ⟨141, le_rfl, Volume.ptr_of_ge le_rfl⟩
  obtain ⟨hle, hz⟩ := Nat.find_spec hend
  have hmin : ∀ i < Nat.find hend, (view s).ptr n i ≠ 0 := by
    intro i hi h0
    exact Nat.find_min hend hi ⟨by omega, h0⟩
  generalize Nat.find hend = k at hle hz hmin
  have hiff : ∀ i, (view s).ptr n i ≠ 0 ↔ i < k := by
    intro i
    refine ⟨fun hi => ?_, hmin i⟩
    by_contra hge
    exact hi (h n k i (not_lt.mp hge) hz)
  have hcount : (view s).refCount n = k := by
    have hlist : (view s).refCount n = ((List.range k).map ((view s).ptr n)).length := by
      apply refCount_of_list
      · intro i
        by_cases hi : i < k
        · rw [List.getElem?_map, List.getElem?_range hi]
          rfl
        · rw [List.getElem?_eq_none (by simpa using hi)]
          exact not_not.mp fun h0 => hi ((hiff i).mp h0)
      · intro c hc
        obtain ⟨i, hi, rfl⟩ := List.mem_map.mp hc
        exact hmin i (List.mem_range.mp hi)
      · rwa [List.length_map, List.length_range]
    rw [hlist, List.length_map, List.length_range]
  rw [hiff, show (inodeAt s n).i_blocks = _ from hs.counts n, hcount, BitVec.toNat_ofNat,
    Nat.mod_eq_of_lt (by omega)]

/-! ## What `read` delivers -/

/-- The bytes of a file of `size` bytes that lie in `c` blocks. The thirteenth
block is a table. -/
def readable (size c : ℕ) : ℕ := min size (512 * if c ≤ 12 then c else c - 1)

/-- The bytes of file `n` that have been stored. -/
def fileLength (s : Fs) (n : ℕ) : ℕ :=
  readable (inodeAt s n).i_size.toNat (inodeAt s n).i_blocks.toNat

def fileByte (s : Fs) (n k : ℕ) : BitVec 8 := byte (readBlocks s (dataPtr s n (k / 512))) (k % 512)

theorem Packed.dataPtr_ne_zero_iff (h : Packed (view s)) (hs : Settled (view s)) (n k : ℕ) :
    dataPtr s n k ≠ 0 ↔
      k < if (inodeAt s n).i_blocks.toNat ≤ 12 then (inodeAt s n).i_blocks.toNat
        else (inodeAt s n).i_blocks.toNat - 1 := by
  rw [dataPtr_eq hs.sound, h.ptr_ne_zero_iff hs]
  split <;> split <;> omega

theorem Settled.i_blocks_le (hs : Settled (view s)) (n : ℕ) :
    (inodeAt s n).i_blocks.toNat ≤ 141 := by
  have hle : (view s).refCount n ≤ 141 := clearCount_le _ 141
  rw [show (inodeAt s n).i_blocks = _ from hs.counts n, BitVec.toNat_ofNat,
    Nat.mod_eq_of_lt (by omega)]
  exact hle

theorem Packed.readContent_eq (h : Packed (view s)) (hs : Settled (view s)) (q : Request) :
    readContent s (inodeAt s n) q = fun k =>
      if k < min q.size (fileLength s n) then fileByte s n k else q.buf k := by
  have hle := hs.i_blocks_le n
  have hptr := h.dataPtr_ne_zero_iff hs n
  have hK : (if (inodeAt s n).i_blocks.toNat ≤ 12 then (inodeAt s n).i_blocks.toNat
      else (inodeAt s n).i_blocks.toNat - 1) ≤ 140 := by
    split <;> omega
  unfold fileLength readable
  generalize (if (inodeAt s n).i_blocks.toNat ≤ 12 then (inodeAt s n).i_blocks.toNat
    else (inodeAt s n).i_blocks.toNat - 1) = K at hptr hK ⊢
  unfold readContent
  have htotal : (if q.size < (inodeAt s n).i_size.toNat then q.size
      else (inodeAt s n).i_size.toNat) = min q.size (inodeAt s n).i_size.toNat := by
    split <;> omega
  rw [htotal]
  have hmapped : ∀ i < min (min q.size (inodeAt s n).i_size.toNat) (512 * K),
      dataPtr s n (i / 512) ≠ 0 ∧
        byte (readBlocks s (dataPtr s n (i / 512))) (i % 512) = fileByte s n i :=
    fun i hi => ⟨(hptr _).mpr (by omega), rfl⟩
  have hcopy := copyFile_spec q.buf (min q.size (inodeAt s n).i_size.toNat) K hmapped
    (fun _ k hk => not_not.mp fun h0 => absurd ((hptr k).mp h0) (by omega)) (by omega)
  refine hcopy.trans ?_
  rw [min_assoc]

/-! ## Two files with one content -/

/-- `name'` in directory `p'` answers `stat` and `read` as `name` in directory
`p` did before. -/
structure SameFile (s : Fs) (p : ℕ) (name : EntryName) (s' : Fs) (p' : ℕ) (name' : EntryName) :
    Prop where
  stat : ∀ env, Ext2.stat env s' name' false p' = Ext2.stat env s name false p
  read : ∀ env (q q' : Request), q.parent = p → q.name = name → q'.parent = p' → q'.name = name' →
    q'.buf = q.buf → q'.buffer_size = q.buffer_size → Ext2.read env s' q' = Ext2.read env s q

theorem SameFile.refl (s : Fs) (p : ℕ) (name : EntryName) : SameFile s p name s p name := by
  refine ⟨fun _ => rfl, ?_⟩
  intro env q q' hp hn hp' hn' hbuf hsize
  have hparent : q'.parent = q.parent := hp'.trans hp.symm
  have hname : q'.name = q.name := hn'.trans hn.symm
  have hsz : q'.size = q.size := congrArg BitVec.toNat hsize
  unfold Ext2.read
  rw [hparent, hname, hbuf, hsz]

/-- The same size, the same bytes stored. -/
structure SameContent (s : Fs) (n : ℕ) (s' : Fs) (n' : ℕ) : Prop where
  size : (inodeAt s' n').i_size = (inodeAt s n).i_size
  length : fileLength s' n' = fileLength s n
  bytes : ∀ k < fileLength s n, fileByte s' n' k = fileByte s n k

theorem fileLength_le (s : Fs) (n : ℕ) : fileLength s n ≤ (inodeAt s n).i_size.toNat :=
  Nat.min_le_left ..

/-- Entry `e` of the directory `p` names a file. -/
structure FileEntry (s : Fs) (p : ℕ) (e : DirEntry) : Prop where
  settled : Settled (view s)
  packed : Packed (view s)
  is_dir : ((view s).inode p).isDir = true
  mem : e ∈ (view s).dirEntries p
  file : (inodeAt s e.inode).isDir = false
  name : e.name.len ≠ 0

namespace FileEntry

theorem stat (h : FileEntry s p e) (env : Env) :
    Ext2.stat env s e.name false p = (0, some ((inodeAt s e.inode).i_size, false)) := by
  rw [h.settled.stat_entry env h.is_dir h.mem, h.file, if_neg]
  rintro (hnull | hlen)
  · cases hnull
  · exact h.name hlen

theorem read (h : FileEntry s p e) (env : Env) {q : Request} (hp : q.parent = p)
    (hn : q.name = e.name) :
    Ext2.read env s q = (0, fun k =>
      if k < min q.size (fileLength s e.inode) then fileByte s e.inode k else q.buf k) := by
  rw [h.settled.read_entry env h.is_dir h.mem hp hn h.file, h.packed.readContent_eq h.settled]

/-- A reader can tell every other content apart. -/
theorem sameFile_iff (h : FileEntry s p e) (h' : FileEntry s' p' e') :
    SameFile s p e.name s' p' e'.name ↔ SameContent s e.inode s' e'.inode := by
  have hslot := isSlot_of_isDir h.is_dir
  have hslot' := isSlot_of_isDir h'.is_dir
  constructor
  · intro hsame
    have hstat := hsame.stat .zero
    rw [h.stat, h'.stat] at hstat
    have hsize : (inodeAt s' e'.inode).i_size = (inodeAt s e.inode).i_size := by
      have hpair := (Prod.mk.inj hstat).2
      rw [Option.some.injEq, Prod.mk.injEq] at hpair
      exact hpair.1
    -- a buffer of the largest size, with any bytes in it
    have hread : ∀ (buf : ℕ → BitVec 8) (k : ℕ),
        (if k < fileLength s' e'.inode then fileByte s' e'.inode k else buf k) =
          if k < fileLength s e.inode then fileByte s e.inode k else buf k := by
      intro buf k
      have hlt := fileLength_le s e.inode
      have hlt' := fileLength_le s' e'.inode
      have hb := (inodeAt s e.inode).i_size.isLt
      have hb' := (inodeAt s' e'.inode).i_size.isLt
      let ask (name : EntryName) (d : ℕ) : Request :=
        { buf := buf, name := name, name_null := false, parent_inode := BitVec.ofNat 32 d,
          buffer_size := BitVec.ofNat 32 (2 ^ 32 - 1), is_directory := false }
      have hask : ∀ d, IsSlot d → ∀ name, (ask name d).parent = d := by
        intro d hd name
        have h64 : d ≤ 64 := hd.2
        change (BitVec.ofNat 32 d).toNat = d
        rw [BitVec.toNat_ofNat, Nat.mod_eq_of_lt (by omega)]
      have hmax : ∀ d name, (ask name d).size = 2 ^ 32 - 1 := fun _ _ => rfl
      have heq := hsame.read .zero (ask e.name p) (ask e'.name p') (hask p hslot _) rfl
        (hask p' hslot' _) rfl rfl rfl
      rw [h.read .zero (hask p hslot _) rfl, h'.read .zero (hask p' hslot' _) rfl, hmax, hmax,
        Nat.min_eq_right (by omega), Nat.min_eq_right (by omega)] at heq
      exact congrFun (Prod.mk.inj heq).2 k
    have hne : ∀ x : BitVec 8, x ≠ x + 1 := by decide
    have hlength : ∀ k, k < fileLength s' e'.inode ↔ k < fileLength s e.inode := by
      intro k
      constructor
      · intro hk
        by_contra hk'
        have heq := hread (fun k => fileByte s' e'.inode k + 1) k
        rw [if_pos hk, if_neg hk'] at heq
        exact hne _ heq
      · intro hk
        by_contra hk'
        have heq := hread (fun k => fileByte s e.inode k + 1) k
        rw [if_neg hk', if_pos hk] at heq
        exact hne _ heq.symm
    refine ⟨hsize, ?_, ?_⟩
    · have h1 := hlength (fileLength s' e'.inode)
      have h2 := hlength (fileLength s e.inode)
      omega
    · intro k hk
      have heq := hread (fun _ => 0) k
      rwa [if_pos ((hlength k).mpr hk), if_pos hk] at heq
  · intro hsame
    refine ⟨fun env => by rw [h.stat, h'.stat, hsame.size], ?_⟩
    intro env q q' hp hn hp' hn' hbuf hsize
    rw [h.read env hp hn, h'.read env hp' hn', hsame.length, hbuf,
      show q'.size = q.size from congrArg BitVec.toNat hsize]
    congr 1
    funext k
    by_cases hk : k < min q.size (fileLength s e.inode)
    · rw [if_pos hk, if_pos hk, hsame.bytes k (by omega)]
    · rw [if_neg hk, if_neg hk]

end FileEntry

theorem SameContent.refl (s : Fs) (n : ℕ) : SameContent s n s n := ⟨rfl, rfl, fun _ _ => rfl⟩

theorem SameContent.symm {n' : ℕ} (h : SameContent s n s' n') : SameContent s' n' s n where
  size := h.size.symm
  length := h.length.symm
  bytes := fun k hk => (h.bytes k (by rwa [← h.length])).symm

theorem SameContent.trans {s'' : Fs} {n' n'' : ℕ} (h : SameContent s n s' n')
    (h' : SameContent s' n' s'' n'') : SameContent s n s'' n'' where
  size := h'.size.trans h.size
  length := h'.length.trans h.length
  bytes := fun k hk => (h'.bytes k (by rwa [h.length])).trans (h.bytes k hk)

theorem Untouched.sameContent (h : Untouched (view s) (view s') n) (hs : Settled (view s))
    (hk : Packed (view s)) (hs' : Settled (view s')) : SameContent s n s' n := by
  have hinode : inodeAt s' n = inodeAt s n := h.inode
  refine ⟨by rw [hinode], by unfold fileLength; rw [hinode], ?_⟩
  intro k hlt
  unfold fileByte
  have hne : dataPtr s n (k / 512) ≠ 0 := by
    rw [hk.dataPtr_ne_zero_iff hs]
    unfold fileLength readable at hlt
    generalize (if (inodeAt s n).i_blocks.toNat ≤ 12 then (inodeAt s n).i_blocks.toNat
      else (inodeAt s n).i_blocks.toNat - 1) = K at hlt ⊢
    omega
  rw [dataPtr_eq hs'.sound, h.ptr_eq, ← dataPtr_eq hs.sound]
  rw [dataPtr_eq hs.sound] at hne ⊢
  rw [h.readBlocks_eq hs hne]

/-! ## The content of a new file -/

/-- The inode `n` that a write has filled, as it lies in `s'`. -/
structure Stocked (s : Fs) (r : Request) (n : ℕ) (P : List ℕ) (x : EXT2Inode) (v₃ : Volume)
    (s' : Fs) : Prop where
  stored : Stored (view s) r n P x v₃
  kept : Untouched v₃ (view s') n
  after : Settled (view s')

theorem Written.stocked {v₃ : Volume} (h : Written s r n P x v₃ s') : Stocked s r n P x v₃ s' :=
  ⟨h.stored, h.untouched_new, h.after⟩

namespace Stocked

variable {v₃ : Volume}

theorem inode_eq (h : Stocked s r n P x v₃ s') : inodeAt s' n = x :=
  h.kept.inode.trans h.stored.inode_self

theorem fileLength_eq (h : Stocked s r n P x v₃ s') (hf : r.is_directory = false) :
    fileLength s' n = readable r.size (min (demand r) (view s).freeBlocks) := by
  have hle := h.stored.length_le
  unfold fileLength
  rw [h.inode_eq, h.stored.file_size hf, h.stored.i_blocks, BitVec.toNat_ofNat,
    Nat.mod_eq_of_lt (by omega), h.stored.length]
  rfl

theorem fileByte_eq (h : Stocked s r n P x v₃ s') (hf : r.is_directory = false)
    (hsize : r.dataBlocks ≤ 140) {k : ℕ} (hk : k < fileLength s' n) :
    fileByte s' n k = r.buf k := by
  have hlen := h.fileLength_eq hf
  rw [← h.stored.length] at hlen
  have hplace : (if k / 512 < 12 then k / 512 else k / 512 + 1) < P.length := by
    rw [hlen, readable] at hk
    split at hk <;> split <;> omega
  have hlt : k < r.size := by
    rw [hlen, readable] at hk
    omega
  have hptr : (view s').ptr n (if k / 512 < 12 then k / 512 else k / 512 + 1) =
      P[if k / 512 < 12 then k / 512 else k / 512 + 1] := by
    rw [h.kept.ptr_eq, h.stored.ptr_self, List.getElem?_eq_getElem hplace]
    rfl
  obtain ⟨hge, hlt256, -⟩ := h.stored.fresh _ (List.getElem_mem hplace)
  have hdata := h.kept.data (if k / 512 < 12 then k / 512 else k / 512 + 1)
  rw [h.stored.ptr_self, List.getElem?_eq_getElem hplace, Option.getD_some] at hdata
  unfold fileByte
  rw [dataPtr_eq h.after.sound, hptr, readBlocks_data s' hge (by omega), hdata (by omega),
    h.stored.file_data hf (List.getElem?_eq_getElem hplace)]
  exact byte_dataBlock hsize hlt

end Stocked

end RendangOS.Ext2
