import RendangOS.Ext2.DirSize
import RendangOS.Ext2.DotsFirst
import RendangOS.Ext2.Store

/-!
# The file system refines the store

The abstraction reads the nodes off the inode table, the name maps off the
directory blocks and the bytes off the data blocks. Each call then does to the
store what the store's own step allows, and answers alike.
-/

namespace RendangOS.Ext2

open Image RecordChain Assoc NodeStore

variable {env : Env} {s s' : Fs} {v v' v₃ : Volume} {n m p : ℕ} {r : Request} {e : DirEntry}
  {P : List ℕ} {x : EXT2Inode}

instance (n : ℕ) : Decidable (IsSlot n) := inferInstanceAs (Decidable (_ ∧ _))

/-- What `read` can get of a file. -/
def fileBytes (s : Fs) (n : ℕ) : List (BitVec 8) := (List.range (fileLength s n)).map (fileByte s n)

def nodeAt (s : Fs) (n : ℕ) : Option FsNode :=
  if IsSlot n ∧ inodeUsed s n = true then
    some <|
      if (inodeAt s n).isDir then
        ⟨nameMap s n, true, (inodeAt s n).i_size, [], (inodeAt s n).i_blocks.toNat⟩
      else
        ⟨fun _ => none, false, (inodeAt s n).i_size, fileBytes s n, (inodeAt s n).i_blocks.toNat⟩
  else none

def storeOf (s : Fs) : Store where
  node := nodeAt s
  free := s.group0.bg_free_blocks_count.toNat

/-! ## Nodes -/

theorem nodeAt_dir (hp : AllocatedDir s p) :
    nodeAt s p =
      some ⟨nameMap s p, true, (inodeAt s p).i_size, [], (inodeAt s p).i_blocks.toNat⟩ := by
  rw [nodeAt, if_pos ⟨isSlot_of_isDir hp.2, hp.1⟩, if_pos hp.2]

theorem nodeAt_file (hn : IsSlot n) (hu : inodeUsed s n = true) (hf : (inodeAt s n).isDir = false) :
    nodeAt s n = some ⟨fun _ => none, false, (inodeAt s n).i_size, fileBytes s n,
      (inodeAt s n).i_blocks.toNat⟩ := by
  rw [nodeAt, if_pos ⟨hn, hu⟩, if_neg (by simp [hf])]

theorem nodeAt_eq_none : nodeAt s n = none ↔ (IsSlot n → inodeUsed s n = false) := by
  unfold nodeAt
  split <;> simp_all

theorem nameMap_perm (hnd : (((view s).dirEntries n).map DirEntry.name).Nodup)
    (hp : ((view s').dirEntries n).Perm ((view s).dirEntries n)) : nameMap s' n = nameMap s n := by
  funext name
  rw [nameMap, nameMap, lookup_perm hp hnd]

theorem SameContent.fileBytes_eq (h : SameContent s n s' n) : fileBytes s' n = fileBytes s n := by
  unfold fileBytes
  rw [h.length]
  exact List.map_congr_left fun k hk => h.bytes k (List.mem_range.mp hk)

/-- A node that a call leaves alone. -/
theorem nodeAt_untouched (hun : Untouched (view s) (view s') m) (hs : Settled (view s))
    (hk : Packed (view s)) (hs' : Settled (view s')) (hu : inodeUsed s' m = inodeUsed s m) :
    nodeAt s' m = nodeAt s m := by
  have hinode : inodeAt s' m = inodeAt s m := hun.inode
  have hnames : nameMap s' m = nameMap s m := by
    funext name
    rw [nameMap, nameMap, hun.dirEntries_eq]
  unfold nodeAt
  rw [hu, hinode, hnames, (hun.sameContent hs hk hs').fileBytes_eq]

theorem Settled.find_nameMap (env : Env) (hs : Settled (view s))
    (hd : ((view s).inode p).isDir = true) (name : EntryName) :
    findEntryInDir env s p name = (nameMap s p name).getD 0 := by
  cases hmap : nameMap s p name with
  | none =>
      by_contra hne
      obtain ⟨e, he, rfl, -⟩ := hs.found_entry hd hne
      rw [nameMap, (lookup_eq_some (hs.names p hd)).mpr ⟨he, rfl⟩] at hmap
      cases hmap
  | some t =>
      obtain ⟨e, hlook, rfl⟩ := Option.map_eq_some_iff.mp hmap
      obtain ⟨he, rfl⟩ := mem_of_lookup hlook
      exact hs.find_entry env hd he

theorem Settled.nameMap_entry (hs : Settled (view s)) (hd : ((view s).inode p).isDir = true)
    (he : e ∈ (view s).dirEntries p) : nameMap s p e.name = some e.inode := by
  rw [nameMap, (lookup_eq_some (hs.names p hd)).mpr ⟨he, rfl⟩]
  rfl

theorem Settled.nameMap_none (env : Env) (hs : Settled (view s))
    (hd : ((view s).inode p).isDir = true) {name : EntryName}
    (hf : findEntryInDir env s p name = 0) : nameMap s p name = none := by
  cases hmap : nameMap s p name with
  | none => rfl
  | some t =>
      obtain ⟨e, hlook, rfl⟩ := Option.map_eq_some_iff.mp hmap
      obtain ⟨he, rfl⟩ := mem_of_lookup hlook
      rw [hs.find_entry env hd he] at hf
      exact absurd hf (hs.target_slot hd he).ne_zero

/-- A directory has its blocks in `i_block[0]` and on. -/
theorem Settled.dir_blocks (hs : Settled (view s)) (hd : (inodeAt s p).isDir = true) :
    (inodeAt s p).i_blocks.toNat = ((view s).dirBlocks p).length := by
  have hok := hs.sound.dirs p hd
  obtain ⟨k, hk, heq, hne, hzero⟩ := ((view s).inode p).dirBlocks_eq
  have hblocks : (view s).dirBlocks p = (List.range k).map ((view s).inode p).block := heq
  have hptr : ∀ j, (view s).ptr p j = ((view s).dirBlocks p)[j]?.getD 0 := by
    intro j
    rw [hblocks, List.getElem?_map]
    by_cases hj : j < k
    · rw [List.getElem?_range hj, Volume.ptr, EXT2Inode.ptr_direct (by omega)]
      rfl
    · rw [List.getElem?_eq_none (by simpa using hj), Option.map_none, Option.getD_none, Volume.ptr]
      rcases Nat.lt_trichotomy j 12 with hlt | rfl | hgt
      · rw [EXT2Inode.ptr_direct (by omega)]
        exact hok.contiguous k j (by omega) hlt (hzero (by omega))
      · rw [EXT2Inode.ptr_direct (by omega), hok.no_table]
      · rw [EXT2Inode.ptr, if_neg (by omega), if_pos hok.no_table]
  have hlen : ((view s).dirBlocks p).length ≤ 12 := by
    rw [hblocks]
    simpa using hk
  have hcount := refCount_of_list hptr (fun b hb => (Sound.mem_dirBlocks hb).1) (by omega)
  have hi := hs.counts p
  rw [hcount] at hi
  change ((view s).inode p).i_blocks.toNat = _
  rw [hi, BitVec.toNat_ofNat, Nat.mod_eq_of_lt (by omega)]

/-! ## The bytes of a new file -/

theorem byte_dataBlock_of_lt {i : ℕ} (hi : i < r.size) (hb : i / 512 < blocksNeeded r) :
    byte (dataBlock r (i / 512)) (i % 512) = r.buf i := by
  have hmod : i % 512 < 512 := Nat.mod_lt i (by decide)
  have hsize : r.size < 2 ^ 32 := r.buffer_size.isLt
  have hcopy : i % 512 < copySize r (i / 512) ∧ copySize r (i / 512) ≤ 512 := by
    unfold blocksNeeded at hb
    unfold copySize blocksNeeded
    rw [show blockSize = 512 from rfl] at hb ⊢
    split <;> dsimp only <;> split <;> omega
  have hbyte := byte_copyBytes (0 : Block) 0 (fun k => r.buf (i / 512 * blockSize + k))
    (k := i % 512) (n := copySize r (i / 512)) (by omega)
  rw [if_pos ⟨Nat.zero_le _, by omega⟩, Nat.sub_zero] at hbyte
  refine hbyte.trans (congrArg r.buf ?_)
  rw [show blockSize = 512 from rfl]
  omega

theorem Stocked.fileBytes_eq (h : Stocked s r n P x v₃ s') (hf : r.is_directory = false) :
    fileBytes s' n =
      (List.range (readable r.size (min (demand r) (view s).freeBlocks))).map r.buf := by
  have hlen := h.fileLength_eq hf
  unfold fileBytes
  rw [hlen]
  refine List.map_congr_left fun k hk => ?_
  rw [List.mem_range, ← h.stored.length, readable] at hk
  have hdemand := h.stored.length
  -- the place of the block among those of the inode
  have hplace : (if k / 512 < 12 then k / 512 else k / 512 + 1) < P.length := by
    split at hk <;> split <;> omega
  have hneeded : k / 512 < blocksNeeded r := by
    rw [demand, if_neg (by simp [hf]), if_neg (by omega)] at hdemand
    split at hplace <;> split at hdemand <;> omega
  have hptr : (view s').ptr n (if k / 512 < 12 then k / 512 else k / 512 + 1) =
      P[if k / 512 < 12 then k / 512 else k / 512 + 1] := by
    rw [h.kept.ptr_eq, h.stored.ptr_self, List.getElem?_eq_getElem hplace]
    rfl
  obtain ⟨hge, hlt256, -⟩ := h.stored.fresh _ (List.getElem_mem hplace)
  have hdata := h.kept.data (if k / 512 < 12 then k / 512 else k / 512 + 1)
  rw [h.stored.ptr_self, List.getElem?_eq_getElem hplace, Option.getD_some] at hdata
  unfold fileByte
  rw [dataPtr_eq h.after.sound, hptr, readBlocks_data s' hge (by omega), hdata (by omega),
    h.stored.file_data hf (List.getElem?_eq_getElem hplace)]
  exact byte_dataBlock_of_lt (by omega) hneeded

/-! ## `write` -/

theorem nameMap_insert {c : DirEntry}
    (hnd : (((view s).dirEntries p).map DirEntry.name).Nodup) (hnew : nameMap s p c.name = none)
    (hp : ((view s').dirEntries p).Perm (c :: (view s).dirEntries p)) :
    nameMap s' p = Function.update (nameMap s p) c.name (some c.inode) := by
  have hfresh : c.name ∉ ((view s).dirEntries p).map DirEntry.name :=
    lookup_eq_none.mp (Option.map_eq_none_iff.mp hnew)
  funext name
  rw [nameMap, lookup_insert hp hnd hfresh, Function.update_apply]
  split <;> rfl

theorem dotNames_eq (n q : ℕ) (name : EntryName) :
    (lookup DirEntry.name [⟨.dot, n, ext2FtDir⟩, ⟨.dotdot, q, ext2FtDir⟩] name).map DirEntry.inode =
      dotNames n q name := by
  have hne : EntryName.dot ≠ EntryName.dotdot := by decide
  unfold dotNames lookup
  by_cases hdot : name = .dot
  · simp [hdot]
  · by_cases hdotdot : name = .dotdot
    · simp [hdotdot, hne, hne.symm]
    · simp [hdot, hdotdot, Ne.symm hdot, Ne.symm hdotdot]

/-- The node that a `write` has stored. -/
theorem Stocked.nodeAt_new (h : Stocked s r n P x v₃ s') (hp0 : r.parent ≠ 0)
    (hu : inodeUsed s' n = true) (hsize : DirSizes (view s')) :
    nodeAt s' n = some (newNode r n (view s).freeBlocks) := by
  have hslot : IsSlot n := h.stored.slot
  have hblocks : (inodeAt s' n).i_blocks.toNat = min (demand r) (view s).freeBlocks := by
    have hle := h.stored.length_le
    rw [h.inode_eq, h.stored.i_blocks, BitVec.toNat_ofNat, Nat.mod_eq_of_lt (by omega),
      h.stored.length]
  have hkind : (inodeAt s' n).isDir = r.is_directory := by
    rw [h.inode_eq, h.stored.isDir]
  cases hd : r.is_directory with
  | false =>
      rw [hd] at hkind
      rw [nodeAt_file hslot hu hkind, h.fileBytes_eq hd, hblocks, h.inode_eq, h.stored.file_size hd]
      simp [newNode, hd]
  | true =>
      rw [hd] at hkind
      have hisize := hsize n hkind
      change (inodeAt s' n).i_size = 512#32 * (inodeAt s' n).i_blocks at hisize
      have hnames : nameMap s' n =
          if min (demand r) (view s).freeBlocks = 0 then fun _ => none
          else dotNames n r.parent := by
        have hentries := h.kept.dirEntries_eq.trans (h.stored.dirEntries_eq hd hp0)
        funext name
        rw [nameMap, hentries, ← h.stored.length]
        by_cases hP : P = []
        · simp [hP, lookup]
        · rw [if_neg hP, if_neg (by simpa using hP)]
          exact dotNames_eq n r.parent name
      have hsized : (inodeAt s' n).i_size =
          BitVec.ofNat 32 (512 * min (demand r) (view s).freeBlocks) := by
        rw [hisize, ← hblocks, BitVec.ofNat_mul, BitVec.ofNat_toNat, BitVec.setWidth_eq]
      rw [nodeAt_dir ⟨hu, hkind⟩, hnames, hblocks, hsized]
      simp [newNode, hd]

/-- What an entry costs: nothing, or a block of the parent. -/
theorem Added.cost {q : ℕ} (ha : Added v q e 0 v') (hd : (v.inode q).isDir = true) :
    (v'.inode q = v.inode q ∧ v'.freeBlocks = v.freeBlocks) ∨
    (v.dirBlocks q).length < 12 ∧ v.freeBlocks ≠ 0 ∧ v'.freeBlocks = v.freeBlocks - 1 ∧
      (v'.inode q).isDir = true ∧ (v'.inode q).i_size = (v.inode q).i_size + 512 ∧
      (v'.inode q).i_blocks = (v.inode q).i_blocks + 1 := by
  cases ha with
  | split => exact Or.inl ⟨rfl, rfl⟩
  | grow b _ hlen _ hfree =>
      refine Or.inr ⟨hlen, hfree, Volume.freeBlocks_takeBlock (b := b) hfree, ?_⟩
      rw [Volume.inode_grow_self, growInode_isDir]
      exact ⟨hd, rfl, rfl⟩

/-- A stored node under a name is the store's step. -/
theorem Written.refines (h : Written s r n P x v₃ s') (hk : Packed (view s))
    (hsize : DirSizes (view s')) (hnew : nameMap s r.parent r.name = none)
    (hnext : (storeOf s).Next n) : (storeOf s).Write r 0 (storeOf s') := by
  have hslot : IsSlot r.parent := isSlot_of_isDir h.parent.2
  have hpn := h.parent_ne
  have hp := nodeAt_dir h.parent
  have hused : inodeUsed s' = Function.update (inodeUsed s) n true :=
    h.added.inodeUsed_eq.trans h.stored.inodeUsed_eq
  have hn : nodeAt s' n = some (newNode r n (storeOf s).free) :=
    h.stocked.nodeAt_new hslot.ne_zero (by rw [hused, Function.update_self]) hsize
  have hnames := nameMap_insert (h.before.names _ h.parent.2) hnew h.perm
  -- every other node
  have hrest : ∀ {z : FsNode}, nodeAt s' r.parent = some z → nodeAt s' =
      Function.update (Function.update (nodeAt s) n (some (newNode r n (storeOf s).free)))
        r.parent (some z) := by
    intro z hz
    funext m
    by_cases hmp : m = r.parent
    · rw [hmp, Function.update_self, hz]
    · rw [Function.update_of_ne hmp]
      by_cases hmn : m = n
      · rw [hmn, Function.update_self, hn]
      · rw [Function.update_of_ne hmn]
        exact nodeAt_untouched (h.untouched hmn hmp) h.before hk h.after
          (by rw [hused, Function.update_of_ne hmn])
  have hmid : v₃.freeBlocks + min (demand r) (view s).freeBlocks = (view s).freeBlocks := by
    rw [← h.stored.length]
    exact h.stored.freeBlocks_eq h.before.sound.blocks h.middle.sound.blocks
  have hinode : v₃.inode r.parent = inodeAt s r.parent := h.stored.inode_ne hpn
  have hlen : (v₃.dirBlocks r.parent).length = (inodeAt s r.parent).i_blocks.toNat := by
    rw [h.before.dir_blocks h.parent.2,
      (h.stored.untouched h.before.sound hpn).dirBlocks_eq]
  have hp' := nodeAt_dir h.allocatedDir
  rw [hnames] at hp'
  rcases h.added.cost h.parent_isDir with
    ⟨hsame, hfree⟩ | ⟨hroom, hleft, hfree, hd, hgsize, hgblocks⟩
  · have hstore : storeOf s' = ((storeOf s).put n (newNode r n (storeOf s).free)).setNode r.parent
        (FsNode.named ⟨nameMap s r.parent, true, (inodeAt s r.parent).i_size, [],
          (inodeAt s r.parent).i_blocks.toNat⟩ r.name n) := by
      refine Store.ext (hrest ?_) ?_
      · rw [hp', show inodeAt s' r.parent = inodeAt s r.parent from hsame.trans hinode]
        rfl
      · change (view s').freeBlocks = (view s).freeBlocks - _
        rw [newNode_blocks, hfree]
        exact (Nat.sub_eq_of_eq_add hmid.symm).symm
    rw [hstore]
    exact .named hp hnew hnext
  · have hdemand : min (demand r) (view s).freeBlocks = demand r := by omega
    have hstore : storeOf s' =
        { ((storeOf s).put n (newNode r n (storeOf s).free)).setNode r.parent
            (FsNode.grown ⟨nameMap s r.parent, true, (inodeAt s r.parent).i_size, [],
              (inodeAt s r.parent).i_blocks.toNat⟩ r.name n) with
          free := (storeOf s).free - demand r - 1 } := by
      refine Store.ext (hrest ?_) ?_
      · have hsz : (inodeAt s' r.parent).i_size = (inodeAt s r.parent).i_size + 512 := by
          rw [← hinode]
          exact hgsize
        have hbl : (inodeAt s' r.parent).i_blocks.toNat =
            (inodeAt s r.parent).i_blocks.toNat + 1 := by
          rw [← hinode] at hlen ⊢
          change ((view s').inode r.parent).i_blocks.toNat = _
          rw [hgblocks]
          exact toNat_add_one (by decide) (by omega)
        rw [hp', hsz, hbl]
        rfl
      · change (view s').freeBlocks = (view s).freeBlocks - demand r - 1
        omega
    rw [hstore]
    exact .grown hp hnew hnext (show (inodeAt s r.parent).i_blocks.toNat < 12 by omega)
      (show demand r < (view s).freeBlocks by omega)

theorem Stored.next (hst : Stored (view s) r n P x v₃) : (storeOf s).Next n where
  slot := hst.slot
  unused := nodeAt_eq_none.mpr fun _ => hst.unused
  least := fun m h1 hm hnone => by
    have hslot : IsSlot m := ⟨h1, le_trans (le_of_lt hm) hst.slot.2⟩
    have hu : inodeUsed s m = true := hst.least m h1 hm
    rw [nodeAt_eq_none.mp hnone hslot] at hu
    cases hu

/-- A node stored without a name is the store's step. -/
theorem Stocked.refines (h : Stocked s r n P x v₃ s') (hview : view s' = v₃)
    (hs : Settled (view s)) (hk : Packed (view s)) (hp : AllocatedDir s r.parent)
    (hsize : DirSizes (view s')) (hnew : nameMap s r.parent r.name = none)
    (hno : ¬ Enterable s r) : (storeOf s).Write r (-1) (storeOf s') := by
  have hslot : IsSlot r.parent := isSlot_of_isDir hp.2
  subst hview
  have hused : inodeUsed s' = Function.update (inodeUsed s) n true := h.stored.inodeUsed_eq
  have hn : nodeAt s' n = some (newNode r n (storeOf s).free) :=
    h.nodeAt_new hslot.ne_zero (by rw [hused, Function.update_self]) hsize
  have hfree : (view s').freeBlocks + P.length = (view s).freeBlocks :=
    h.stored.freeBlocks_eq hs.sound.blocks h.after.sound.blocks
  have hstore : storeOf s' = (storeOf s).put n (newNode r n (storeOf s).free) := by
    refine Store.ext (funext fun m => ?_) ?_
    · change nodeAt s' m = Function.update (nodeAt s) n _ m
      by_cases hmn : m = n
      · rw [hmn, Function.update_self, hn]
      · rw [Function.update_of_ne hmn]
        exact nodeAt_untouched (h.stored.untouched hs.sound hmn) hs hk h.after
          (by rw [hused, Function.update_of_ne hmn])
    · change (view s').freeBlocks = (view s).freeBlocks - _
      rw [newNode_blocks]
      change _ = _ - min (demand r) (view s).freeBlocks
      rw [← h.stored.length]
      omega
  rw [hstore]
  refine .orphan (nodeAt_dir hp) hnew h.stored.next ?_
  obtain ⟨-, hfull⟩ := not_or.mp hno
  rw [not_and_or, ← dirBlocks_length_lt_iff, not_lt, not_lt] at hfull
  refine hfull.imp_left fun hge => ?_
  have hlen := hs.dir_blocks hp.2
  obtain ⟨k, hk12, heq, -, -⟩ := (inodeAt s r.parent).dirBlocks_eq
  have hle : ((view s).dirBlocks r.parent).length ≤ 12 := by
    change (inodeAt s r.parent).dirBlocks.length ≤ 12
    rw [heq]
    simpa using hk12
  exact hlen.trans (le_antisymm hle hge)

theorem write_refines (h : Reachable ProperCall s) (hc : ProperCall s (.write r)) (env : Env) :
    (storeOf s).Write r (write env s r).1 (storeOf (write env s r).2) := by
  have hon : Reachable OnDirectory s := h.mono fun s c hc => hc.onDirectory
  have hon' : Reachable OnDirectory (write env s r).2 :=
    (h.step env hc).mono fun s c hc => hc.onDirectory
  have hs := reachable_settled hon
  have hk := reachable_packed hon
  have hs' := reachable_settled hon'
  have hsize := reachable_dirSizes hon'
  have hp : AllocatedDir s r.parent := hc.1
  obtain ⟨held, ht⟩ := reachable_tree (h.mono fun s c hc => hc.treeCall)
  rcases hs.write_outcome env hp with
    ⟨hf, hres⟩ | ⟨hf, ⟨hno, hres⟩ |
      ⟨-, n, P, x, v₃, hst, ⟨-, hcode, hadd⟩ | ⟨hno, hcode, hview⟩⟩⟩
  · rw [hres]
    rw [hs.find_nameMap env hp.2] at hf
    obtain ⟨t, hmap⟩ : ∃ t, nameMap s r.parent r.name = some t :=
      Option.ne_none_iff_exists'.mp fun hnone => hf (by rw [hnone]; rfl)
    exact .taken (nodeAt_dir hp) hmap
  · rw [hres]
    refine .noInode (nodeAt_dir hp) (hs.nameMap_none env hp.2 hf) fun n hn hnone => ?_
    exact ht.not_noInode hn (nodeAt_eq_none.mp hnone hn) hno
  · rw [hcode]
    have hw : Written s r n P x v₃ (write env s r).2 := ⟨hs, hp, hst, hadd, hs'⟩
    exact hw.refines hk hsize (hs.nameMap_none env hp.2 hf) hst.next
  · rw [hcode]
    exact Stocked.refines ⟨hst, hview ▸ .refl _ _, hs'⟩ hview hs hk hp hsize
      (hs.nameMap_none env hp.2 hf) hno

/-! ## `delete` -/

theorem nodeAt_is_dir {x : FsNode} (h : nodeAt s n = some x) :
    x.data.is_dir = (inodeAt s n).isDir := by
  unfold nodeAt at h
  split at h
  · cases hd : (inodeAt s n).isDir <;> simp only [hd, Option.some.injEq] at h <;> rw [← h] <;> rfl
  · cases h

/-- The node behind an entry. -/
theorem nodeAt_entry {held : Set ℕ} (ht : Tree held (view s)) (hp : AllocatedDir s p)
    (he : e ∈ (view s).dirEntries p) (hname : e.name.Proper) :
    ∃ x, nodeAt s e.inode = some x := by
  refine Option.ne_none_iff_exists'.mp fun hnone => ?_
  have hu := ht.intact.allocated p e ⟨hp, he, hname⟩
  rw [nodeAt_eq_none.mp hnone (ht.settled.target_slot hp.2 he)] at hu
  cases hu

theorem isDir_storeOf : (storeOf s).IsDir p ↔ AllocatedDir s p := by
  constructor
  · rintro ⟨y, hy, hd⟩
    have hused : IsSlot p ∧ inodeUsed s p = true := by
      by_contra hno
      have hnone : nodeAt s p = none := if_neg hno
      rw [show nodeAt s p = some y from hy] at hnone
      cases hnone
    exact ⟨hused.2, (nodeAt_is_dir hy).symm.trans hd⟩
  · intro hp
    exact ⟨_, nodeAt_dir hp, rfl⟩

theorem hasChildren_iff {x : FsNode} (hs : Settled (view s)) (hx : nodeAt s n = some x)
    (hd : (inodeAt s n).isDir = true) : HasChildren x ↔ HasChild s n := by
  have hu : inodeUsed s n = true := (hs.allocatedDir hd).1
  rw [nodeAt_dir ⟨hu, hd⟩, Option.some.injEq] at hx
  subst hx
  constructor
  · rintro ⟨name, hname, hne⟩
    obtain ⟨t, hmap⟩ := Option.ne_none_iff_exists'.mp hne
    obtain ⟨e, hlook, -⟩ := Option.map_eq_some_iff.mp hmap
    obtain ⟨he, rfl⟩ := mem_of_lookup hlook
    exact ⟨hd, e, he, hname⟩
  · rintro ⟨-, e, he, hname⟩
    refine ⟨e.name, hname, ?_⟩
    change nameMap s n e.name ≠ none
    rw [hs.nameMap_entry hd he]
    exact Option.some_ne_none _

/-- Whether `delete` takes a directory to be empty, as the store has it. -/
theorem empty_cases {x : FsNode} (env : Env) (hs : Settled (view s)) (hw : WholeDirs (view s))
    (hx : nodeAt s n = some x) (hd : (inodeAt s n).isDir = true) :
    x.entries .dot = none ∨ (isDirectoryEmpty env s n = true ↔ ¬ HasChildren x) := by
  rw [hasChildren_iff hs hx hd]
  have hu : inodeUsed s n = true := (hs.allocatedDir hd).1
  rw [nodeAt_dir ⟨hu, hd⟩, Option.some.injEq] at hx
  subst hx
  cases hdot : nameMap s n .dot with
  | none => exact Or.inl hdot
  | some t =>
      obtain ⟨e, hlook, -⟩ := Option.map_eq_some_iff.mp hdot
      obtain ⟨he, hname⟩ := mem_of_lookup hlook
      exact Or.inr (hs.isDirectoryEmpty_exact env hd
        (hw n hd (List.mem_map.mpr ⟨e, he, hname⟩)))

theorem nodeAt_blocks {x : FsNode} (h : nodeAt s n = some x) :
    x.data.blocks = (inodeAt s n).i_blocks.toNat := by
  unfold nodeAt at h
  split at h
  · rw [← Option.some.inj h]
    split <;> rfl
  · cases h

/-- The store without an entry and the node behind it. -/
theorem removed_store {b : ℕ} {buf : Block} {x : FsNode} (hs : Settled (view s))
    (hk : Packed (view s)) (hs' : Settled (view s')) (hp : AllocatedDir s r.parent)
    (he : e ∈ (view s).dirEntries r.parent) (hen : e.name = r.name)
    (hrem : Removed env s r e b buf)
    (hview : view s' = ((view s).setData b buf).dealloc e.inode) (hx : nodeAt s e.inode = some x) :
    storeOf s' = ((storeOf s).setNode r.parent
      (FsNode.unnamed ⟨nameMap s r.parent, true, (inodeAt s r.parent).i_size, [],
        (inodeAt s r.parent).i_blocks.toNat⟩ r.name)).drop e.inode x := by
  have hslot : IsSlot r.parent := isSlot_of_isDir hp.2
  have ht : IsSlot e.inode := hs.target_slot hp.2 he
  have hblock := hrem.block
  rw [hslot.slotOf] at hblock
  have hperm : ((view s).dirEntries r.parent).Perm
      (e :: ((view s).setData b buf).dirEntries r.parent) :=
    Volume.dirEntries_setData_perm' (hs.sound.dirBlocks_nodup _) hblock hrem.perm
  have hused : inodeUsed s' = Function.update (inodeUsed s) e.inode false := by
    change (view s').inodeUsed = _
    rw [hview, Volume.inodeUsed_dealloc]
    rfl
  have hfree : (view s').freeBlocks = (view s).freeBlocks + (inodeAt s e.inode).i_blocks.toNat :=
    hs.freeBlocks_removed hs' hblock ht hview
  have hrest : ∀ m, m ≠ e.inode → Untouched ((view s).setData b buf) (view s') m := by
    intro m hm
    rw [hview]
    exact Volume.untouched_dealloc _ (by rwa [ht.slotOf])
  refine Store.ext (funext fun m => ?_) (hfree.trans (congrArg _ (nodeAt_blocks hx).symm))
  change nodeAt s' m = Function.update (Function.update (nodeAt s) r.parent _) e.inode none m
  by_cases hme : m = e.inode
  · rw [hme, Function.update_self]
    exact nodeAt_eq_none.mpr fun _ => by rw [hused, Function.update_self]
  · rw [Function.update_of_ne hme]
    have hun := hrest m hme
    by_cases hmp : m = r.parent
    · subst hmp
      have hinode : inodeAt s' r.parent = inodeAt s r.parent := hun.inode
      have hp' : AllocatedDir s' r.parent :=
        hs'.allocatedDir ((congrArg EXT2Inode.isDir hinode).trans hp.2)
      have hnames : nameMap s' r.parent =
          Function.update (nameMap s r.parent) r.name none := by
        funext name
        rw [nameMap, hun.dirEntries_eq, lookup_erase hperm (hs.names _ hp.2), hen,
          Function.update_apply]
        split <;> rfl
      rw [Function.update_self, nodeAt_dir hp', hnames, hinode]
      rfl
    · rw [Function.update_of_ne hmp]
      exact nodeAt_untouched ((untouched_setData hs.sound hblock hmp).trans hun) hs hk hs'
        (by rw [hused, Function.update_of_ne hme])

theorem delete_refines (h : Reachable ProperCall s) (hc : ProperCall s (.delete r)) (env : Env) :
    (storeOf s).Delete r (delete env s r).1 (storeOf (delete env s r).2) := by
  have hon : Reachable OnDirectory s := h.mono fun s c hc => hc.onDirectory
  have hon' : Reachable OnDirectory (delete env s r).2 :=
    (h.step env hc).mono fun s c hc => hc.onDirectory
  have hs := reachable_settled hon
  have hk := reachable_packed hon
  have hs' := reachable_settled hon'
  have hw := reachable_wholeDirs h
  have hp : AllocatedDir s r.parent := hc.1
  obtain ⟨held, ht⟩ := reachable_tree (h.mono fun s c hc => hc.treeCall)
  rcases hs.delete_outcome env hp with
    ⟨hno, hres⟩ | ⟨hname, ⟨hf, hres⟩ | ⟨e, he, hen, -, hres⟩⟩
  · rw [hres]
    exact .nameless hno
  · rw [hres]
    exact .absent hname (nodeAt_dir hp) (hs.nameMap_none env hp.2 hf)
  · obtain ⟨x, hx⟩ := nodeAt_entry ht hp he (hen ▸ hc.2)
    have hmap : nameMap s r.parent r.name = some e.inode := hen ▸ hs.nameMap_entry hp.2 he
    have hkind := nodeAt_is_dir hx
    generalize delete env s r = res at hres hs' ⊢
    cases hres with
    | kind hne => exact .kind hname (nodeAt_dir hp) hmap hx (hkind ▸ hne)
    | full hd hdir hfull =>
        refine .full hname (nodeAt_dir hp) hmap hx (hkind.trans hd) hdir ?_
        rcases empty_cases env hs hw hx hd with hdot | hiff
        · exact Or.inr hdot
        · refine Or.inl (not_not.mp fun hno => ?_)
          rw [hiff.mpr hno] at hfull
          cases hfull
    | @removed b buf s' hrem hview =>
        have hslot := hs.target_slot hp.2 he
        rw [removed_store hs hk hs' hp he hen hrem hview hx]
        have hkind' : x.data.is_dir = r.is_directory := by
          have hk' := hrem.kind
          rw [hslot.slotOf] at hk'
          exact hkind.trans hk'
        refine .removed hname (nodeAt_dir hp) hmap hx hkind' fun hdir => ?_
        rcases empty_cases env hs hw hx (hkind.symm.trans (hkind'.trans hdir)) with hdot | hiff
        · exact Or.inr hdot
        · exact Or.inl (hiff.mp (hrem.empty hdir))

/-! ## `read` and `stat` -/

theorem link_storeOf (hp : AllocatedDir s p) (name : EntryName) :
    link (storeOf s).node p name = nameMap s p name := by
  change (nodeAt s p).bind _ = _
  rw [nodeAt_dir hp]
  rfl

theorem link_of_find {name : EntryName} (hs : Settled (view s)) (hp : AllocatedDir s p)
    (hfind : findEntryInDir env s p name = n) (h0 : n ≠ 0) :
    link (nodeAt s) p name = some n := by
  refine (link_storeOf hp name).trans ?_
  rw [hs.find_nameMap env hp.2] at hfind
  cases hmap : nameMap s p name with
  | none =>
      rw [hmap] at hfind
      exact absurd hfind.symm h0
  | some t =>
      rw [hmap] at hfind
      exact congrArg some hfind

theorem mem_of_nameMap {name : EntryName} {t : ℕ} (h : nameMap s p name = some t) :
    ∃ e ∈ (view s).dirEntries p, e.name = name ∧ e.inode = t := by
  obtain ⟨e, hlook, ht⟩ := Option.map_eq_some_iff.mp h
  obtain ⟨he, hname⟩ := mem_of_lookup hlook
  exact ⟨e, he, hname, ht⟩

/-- A number that no node has, though a name may lead to it. -/
theorem Settled.inode_unused (hs : Settled (view s)) (hn : IsSlot n) (h : nodeAt s n = none) :
    inodeAt s n = EXT2Inode.zero :=
  hs.free_zero n hn (nodeAt_eq_none.mp h hn)

theorem read_refines (h : Reachable OnDirectory s) {q : Request} (hp : AllocatedDir s q.parent)
    (env : Env) : (storeOf s).read q = read env s q := by
  have hs := reachable_settled h
  have hk := reachable_packed h
  have hp0 : ¬ q.parent = 0 := (isSlot_of_isDir hp.2).ne_zero
  unfold Store.read
  rw [link_storeOf hp]
  cases hmap : nameMap s q.parent q.name with
  | none =>
      have hf : findEntryInDir env s q.parent q.name = 0 := by
        rw [hs.find_nameMap env hp.2, hmap]
        rfl
      unfold Ext2.read
      rw [if_neg hs.initialized_ne, if_neg hp0]
      simp [hf]
  | some t =>
      obtain ⟨e, he, hname, rfl⟩ := mem_of_nameMap hmap
      have hslot := hs.target_slot hp.2 he
      dsimp only
      cases hx : nodeAt s e.inode with
      | none =>
          have hzero := hs.inode_unused hslot hx
          have hf : (inodeAt s e.inode).isDir = false := by rw [hzero, Sound.zero_isDir]
          rw [show (storeOf s).node e.inode = none from hx,
            hs.read_entry env hp.2 he rfl hname.symm hf, readContent_empty (by rw [hzero]; rfl)]
      | some x =>
          rw [show (storeOf s).node e.inode = some x from hx]
          dsimp only
          cases hd : (inodeAt s e.inode).isDir with
          | true =>
              rw [if_pos ((nodeAt_is_dir hx).trans hd)]
              unfold Ext2.read
              rw [if_neg hs.initialized_ne, if_neg hp0, ← hname, hs.find_entry env hp.2 he]
              simp [hs.readInode env hslot, hd, hslot.ne_zero]
          | false =>
              have hu : inodeUsed s e.inode = true := by
                by_contra hno
                rw [nodeAt_eq_none.mpr fun _ => Bool.eq_false_of_not_eq_true hno] at hx
                cases hx
              rw [if_neg (by simp [nodeAt_is_dir hx, hd]),
                hs.read_entry env hp.2 he rfl hname.symm hd, hk.readContent_eq hs]
              rw [nodeAt_file hslot hu hd, Option.some.injEq] at hx
              subst hx
              refine Prod.ext rfl (funext fun k => ?_)
              dsimp only [fileBytes]
              rw [List.getElem?_map]
              by_cases hkl : k < fileLength s e.inode
              · by_cases hkq : k < q.size
                · rw [if_pos hkq, if_pos (by omega), List.getElem?_range hkl]
                  rfl
                · rw [if_neg hkq, if_neg (by omega)]
              · rw [List.getElem?_eq_none (by simpa using hkl), if_neg (by omega : ¬ k < min _ _)]
                split <;> rfl

theorem stat_refines (h : Reachable OnDirectory s) (hp : AllocatedDir s p) (env : Env)
    (name : EntryName) (null : Bool) : (storeOf s).stat name null p = stat env s name null p := by
  have hs := reachable_settled h
  have hp0 : p ≠ 0 := (isSlot_of_isDir hp.2).ne_zero
  unfold Store.stat
  rw [link_storeOf hp]
  cases hmap : nameMap s p name with
  | none =>
      have hf : findEntryInDir env s p name = 0 := by
        rw [hs.find_nameMap env hp.2, hmap]
        rfl
      unfold Ext2.stat
      rw [if_neg hs.initialized_ne]
      by_cases hno : null = true ∨ name.len = 0
      · rw [if_pos hno, if_pos (Or.inr hno)]
      · rw [if_neg hno, if_neg (by tauto)]
        simp [hf]
  | some t =>
      obtain ⟨e, he, rfl, rfl⟩ := mem_of_nameMap hmap
      have hslot := hs.target_slot hp.2 he
      rw [hs.stat_entry env hp.2 he]
      split
      · rfl
      · dsimp only
        cases hx : nodeAt s e.inode with
        | none =>
            rw [show (storeOf s).node e.inode = none from hx, hs.inode_unused hslot hx]
            rfl
        | some x =>
            rw [show (storeOf s).node e.inode = some x from hx]
            unfold nodeAt at hx
            split at hx
            · rw [← Option.some.inj hx]
              cases hd : (inodeAt s e.inode).isDir <;> rfl
            · cases hx

/-! ## Runs -/

theorem storeOf_createExt2 (env : Env) (s : Fs) : storeOf (createExt2 env s) = Store.empty := by
  have hview := view_createExt2 env s
  generalize createExt2 env s = t at hview ⊢
  have hs : Settled (view t) := by
    rw [hview]
    exact fresh_settled _
  have hinode : ∀ n, inodeAt t n = Function.update (fun _ => EXT2Inode.zero) 2 rootInode n :=
    fun n => congrFun (congrArg Volume.inode hview) n
  have hused : ∀ n, inodeUsed t n = decide (1 ≤ n ∧ n ≤ 11) :=
    fun n => congrFun (congrArg Volume.inodeUsed hview) n
  refine Store.ext (funext fun n => ?_) ?_
  · change nodeAt t n = if n = 2 then _ else if 1 ≤ n ∧ n ≤ 11 then _ else _
    by_cases hn : n = 2
    · subst hn
      have hroot : inodeAt t 2 = rootInode := hinode 2
      have hnames : nameMap t 2 = dotNames 2 2 := by
        funext name
        rw [nameMap, hview, fresh_dirEntries]
        exact dotNames_eq 2 2 name
      rw [if_pos rfl, nodeAt_dir ⟨by rw [hused]; decide, by rw [hroot]; decide +kernel⟩, hnames,
        hroot]
      rfl
    · have hzero : inodeAt t n = EXT2Inode.zero := by rw [hinode, Function.update_of_ne hn]
      rw [if_neg hn]
      split
      · next hin =>
        rw [nodeAt_file ⟨hin.1, le_trans hin.2 (by decide)⟩ (by rw [hused, decide_eq_true hin])
          (by rw [hzero, Sound.zero_isDir]), hzero]
        have hlen : fileLength t n = 0 := Nat.le_zero.mp ((fileLength_le t n).trans (by
          rw [hzero]
          exact le_rfl))
        rw [fileBytes, hlen]
        rfl
      · next hout =>
        exact nodeAt_eq_none.mpr fun _ => by rw [hused, decide_eq_false hout]
  · change (view t).freeBlocks = _
    rw [hview]
    rfl

theorem fsSystem_refines : fsSystem.Refines storeSystem (Reachable ProperCall) storeOf where
  keeps := by
    rintro s (⟨r, code⟩ | ⟨r, code⟩ | ⟨q, answer⟩ | ⟨name, null, parent, answer⟩) s' h hstep
    · obtain ⟨hc, env, hres⟩ := hstep
      have hnext : Reachable ProperCall (write env s r).2 := h.step env hc
      rwa [hres] at hnext
    · obtain ⟨hc, env, hres⟩ := hstep
      have hnext : Reachable ProperCall (delete env s r).2 := h.step env hc
      rwa [hres] at hnext
    · exact hstep.2.2 ▸ h
    · exact hstep.2.2 ▸ h
  step := by
    rintro s (⟨r, code⟩ | ⟨r, code⟩ | ⟨q, answer⟩ | ⟨name, null, parent, answer⟩) s' h hstep
    · obtain ⟨hc, env, hres⟩ := hstep
      have href := write_refines h hc env
      rw [hres] at href
      exact ⟨⟨_, nodeAt_dir hc.1, rfl⟩, hc.2, href⟩
    · obtain ⟨hc, env, hres⟩ := hstep
      have href := delete_refines h hc env
      rw [hres] at href
      exact ⟨⟨_, nodeAt_dir hc.1, rfl⟩, hc.2, href⟩
    · obtain ⟨hp, ⟨env, rfl⟩, rfl⟩ := hstep
      exact ⟨⟨_, nodeAt_dir hp, rfl⟩,
        read_refines (h.mono fun s c hc => hc.onDirectory) hp env, rfl⟩
    · obtain ⟨hp, ⟨env, rfl⟩, rfl⟩ := hstep
      exact ⟨⟨_, nodeAt_dir hp, rfl⟩,
        stat_refines (h.mono fun s c hc => hc.onDirectory) hp env name null, rfl⟩

end RendangOS.Ext2
