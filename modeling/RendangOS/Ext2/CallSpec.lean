import RendangOS.Ext2.Content

/-!
# What a call can do

One inversion lemma for `write` and one for `delete`, on volumes: the failures
that leave the state as it is, and the steps of a call that gets further. From
these the invariant `Sound` is kept by every call on an inode number of the
table, whatever kind of inode that is.
-/

namespace RendangOS.Ext2

open Image RecordChain Assoc

variable {env : Env} {s : Fs} {V : ℕ → Prop} {held : Set ℕ} {v : Volume}

/-! ## `write` -/

/-- `allocate_node` has nothing to give. -/
def Volume.NoInode (v : Volume) : Prop :=
  v.freeInodes = 0 ∨ ∀ n, 1 ≤ n → n ≤ inodesPerGroup → v.inodeUsed n = true

/-- `write` has taken inode `n`, the least free one, filled it and stored it. -/
structure Stored (v : Volume) (r : Request) (n : ℕ) (P : List ℕ) (x : EXT2Inode)
    (v' : Volume) : Prop where
  slot : 1 ≤ n ∧ n ≤ 64
  unused : v.inodeUsed n = false
  least : ∀ m, 1 ≤ m → m < n → v.inodeUsed m = true
  count : v.freeInodes ≠ 0
  content : ∃ v₂, Content r n (v.takeInode n) v₂ P x ∧ v' = v₂.setInode n x

/-- `request->is_directory ? EXT2_FT_DIR : EXT2_FT_REG_FILE`. -/
def Request.fileType (r : Request) : BitVec 8 :=
  if r.is_directory then ext2FtDir else ext2FtRegFile

/-- The entry that `write` adds for inode `n`. -/
def Request.entry (r : Request) (n : ℕ) : DirEntry := ⟨r.name, n, r.fileType⟩

/-- The state in which `write` has stored its inode and goes on to the entry. -/
def storedState (env : Env) (s : Fs) (r : Request) : Fs :=
  let n := allocateNode env s
  let c := writeContent env r n.1 n.2
  writeInode env c.2 n.1 c.1

/-- `write` refuses, or stores a new inode and then adds its entry. -/
theorem write_cases (env : Env) (h : Sound V held (view s)) (r : Request) :
    (r.parent = 0 ∧ write env s r = (2, s)) ∨
    (r.parent ≠ 0 ∧ findEntryInDir env s r.parent r.name ≠ 0 ∧ write env s r = (1, s)) ∨
    (r.parent ≠ 0 ∧ findEntryInDir env s r.parent r.name = 0 ∧ (view s).NoInode ∧
      write env s r = (-1, s)) ∨
    (r.parent ≠ 0 ∧ findEntryInDir env s r.parent r.name = 0 ∧
      ∃ n P x, (allocateNode env s).1 = n ∧
        Stored (view s) r n P x (view (storedState env s r)) ∧
        write env s r =
          (if (addEntryToDir env (storedState env s r) r.parent n r.name r.fileType).1 ≠ 0 then -1
            else 0,
            (addEntryToDir env (storedState env s r) r.parent n r.name r.fileType).2)) := by
  have hinit : ¬ s.initialized = false := by
    have := h.initialized
    change s.initialized = true at this
    simp [this]
  unfold write
  rw [if_neg hinit]
  by_cases hp : r.parent = 0
  · rw [if_pos hp]
    exact Or.inl ⟨hp, rfl⟩
  · rw [if_neg hp]
    by_cases hf : findEntryInDir env s r.parent r.name = 0
    · rw [if_neg (not_not.mpr hf)]
      rcases allocateNode_cases env s h.initialized with
        ⟨hfail, hno⟩ | ⟨n, h1, h64, hu, hl, hc, hnum, hview⟩
      · simp only [hfail, if_true]
        exact Or.inr (Or.inr (Or.inl ⟨hp, hf, hno, trivial⟩))
      · unfold storedState
        simp only [hnum]
        rw [if_neg (by omega)]
        refine Or.inr (Or.inr (Or.inr ⟨hp, hf, ?_⟩))
        obtain ⟨hcount, hmeta⟩ : BlockCount (view (allocateNode env s).2) ∧
            (view (allocateNode env s).2).MetaUsed := by
          rw [hview]
          exact ⟨h.blocks.takeInode, h.meta_used⟩
        obtain ⟨P, hcontent⟩ := writeContent_spec env r n hcount hmeta
        generalize writeContent env r n (allocateNode env s).2 = c at hcontent ⊢
        rw [hview] at hcontent
        have haddr : Addresses env c.2 n n := by
          refine addresses_inTable_slot ?_ ⟨h1, h64⟩
          rw [hcontent.volume]
          exact (Volume.tables_takeBlocks _ P).trans ((Volume.tables_takeInode _ n).trans h.tables)
        refine ⟨n, P, c.1, rfl,
          ⟨⟨h1, h64⟩, hu, hl, hc, view c.2, hcontent, haddr.writeInode c.1⟩, ?_⟩
        change (if (addEntryToDir env (writeInode env c.2 n c.1) r.parent n r.name
          r.fileType).1 ≠ 0 then _ else _) = _
        split <;> rfl
    · rw [if_pos hf]
      exact Or.inr (Or.inl ⟨hp, hf, rfl⟩)

namespace Stored

variable {r : Request} {n : ℕ} {P : List ℕ} {x : EXT2Inode} {v' : Volume}

theorem inode_self (h : Stored v r n P x v') : v'.inode n = x := by
  obtain ⟨v₂, -, rfl⟩ := h.content
  exact Function.update_self ..

theorem inode_ne (h : Stored v r n P x v') {m : ℕ} (hm : m ≠ n) : v'.inode m = v.inode m := by
  obtain ⟨v₂, hc, rfl⟩ := h.content
  refine (Function.update_of_ne hm ..).trans ?_
  rw [hc.volume]
  exact congrFun (Volume.inode_takeBlocks _ P) m

theorem data_outside (h : Stored v r n P x v') {b : ℕ} (hb : b ∉ P) : v'.data b = v.data b := by
  obtain ⟨v₂, hc, rfl⟩ := h.content
  exact hc.outside b hb

theorem ptr_self (h : Stored v r n P x v') (j : ℕ) : v'.ptr n j = P[j]?.getD 0 := by
  obtain ⟨v₂, hc, rfl⟩ := h.content
  rw [Sound.ptr_setInode_self]
  exact hc.ptr j

theorem blockUsed_eq (h : Stored v r n P x v') (b : ℕ) :
    v'.blockUsed b = (v.blockUsed b || decide (b ∈ P)) := by
  obtain ⟨v₂, hc, rfl⟩ := h.content
  change v₂.blockUsed b = _
  rw [hc.volume]
  exact Volume.blockUsed_takeBlocks _ P b

theorem inodeUsed_eq (h : Stored v r n P x v') :
    v'.inodeUsed = Function.update v.inodeUsed n true := by
  obtain ⟨v₂, hc, rfl⟩ := h.content
  change v₂.inodeUsed = _
  rw [hc.volume]
  exact Volume.inodeUsed_takeBlocks _ P

theorem fresh (h : Stored v r n P x v') : ∀ b ∈ P, 21 ≤ b ∧ b < 256 ∧ v.blockUsed b = false := by
  obtain ⟨v₂, hc, -⟩ := h.content
  exact hc.fresh

theorem nodup (h : Stored v r n P x v') : P.Nodup := by
  obtain ⟨v₂, hc, -⟩ := h.content
  exact hc.nodup

theorem length (h : Stored v r n P x v') : P.length = min (demand r) v.freeBlocks := by
  obtain ⟨v₂, hc, -⟩ := h.content
  rw [hc.length, Volume.freeBlocks_takeInode]

/-- An inode maps no more blocks than it has places. -/
theorem length_le (h : Stored v r n P x v') : P.length ≤ 141 := by
  have hlen := h.length
  have hle : demand r ≤ 141 := by
    unfold demand
    split
    · omega
    · split
      · omega
      · split <;> omega
  omega

theorem i_blocks (h : Stored v r n P x v') : x.i_blocks = BitVec.ofNat 32 P.length := by
  obtain ⟨v₂, hc, -⟩ := h.content
  exact hc.i_blocks

theorem isDir (h : Stored v r n P x v') : x.isDir = r.is_directory := by
  obtain ⟨v₂, hc, -⟩ := h.content
  exact hc.is_dir

theorem file_size (h : Stored v r n P x v') (hf : r.is_directory = false) :
    x.i_size = r.buffer_size := by
  obtain ⟨v₂, hc, -⟩ := h.content
  exact hc.file_size hf

theorem file_data (h : Stored v r n P x v') (hf : r.is_directory = false) {k b : ℕ}
    (hb : P[if k < 12 then k else k + 1]? = some b) : v'.data b = dataBlock r k := by
  obtain ⟨v₂, hc, rfl⟩ := h.content
  exact hc.file_data hf k b hb

theorem dir_data (h : Stored v r n P x v') (hd : r.is_directory = true) {b : ℕ} (hb : b ∈ P) :
    v'.data b = dotEntries n r.parent := by
  obtain ⟨v₂, hc, rfl⟩ := h.content
  exact hc.dir_data hd b hb

/-- A directory's place list has one block at most. -/
theorem dir_block (h : Stored v r n P x v') (hd : r.is_directory = true) (j : ℕ) (hj : 0 < j) :
    P[j]?.getD 0 = 0 := by
  have hlen := h.length
  rw [demand_dir hd] at hlen
  rw [List.getElem?_eq_none (by omega)]
  rfl

theorem block_eq (h : Stored v r n P x v') {j : ℕ} (hj : j < 13) : x.block j = P[j]?.getD 0 := by
  rw [← h.ptr_self j, Volume.ptr, h.inode_self]
  exact (EXT2Inode.ptr_direct hj).symm

/-- The blocks of a new directory. -/
theorem dirBlocks_eq (h : Stored v r n P x v') (hd : r.is_directory = true) :
    v'.dirBlocks n = P := by
  have hlen := h.length
  rw [demand_dir hd] at hlen
  obtain ⟨k, hk, heq, hne, hzero⟩ := (v'.inode n).dirBlocks_eq
  have hblock : ∀ j < 13, (v'.inode n).block j = P[j]?.getD 0 := fun j hj => by
    rw [h.inode_self, h.block_eq hj]
  have hPne : ∀ i c, P[i]? = some c → c ≠ 0 := fun i c hi => by
    have hge := (h.fresh c (List.mem_of_getElem? hi)).1
    omega
  have hkP : k = P.length := by
    rcases lt_trichotomy k P.length with hlt | he | hgt
    · have hz := hzero (by omega)
      rw [hblock k (by omega), List.getElem?_eq_getElem hlt] at hz
      exact absurd hz (hPne k _ (List.getElem?_eq_getElem hlt))
    · exact he
    · have hz := hne P.length hgt
      rw [hblock _ (by omega), List.getElem?_eq_none le_rfl] at hz
      exact absurd rfl hz
  rw [Volume.dirBlocks, heq, hkP]
  refine List.ext_getElem (by simp) fun i h1 h2 => ?_
  rw [List.getElem_map, List.getElem_range, hblock i (by omega), List.getElem?_eq_getElem h2]
  rfl

/-- A new directory holds `"."` and `".."`, unless there was no block for it. -/
theorem dirEntries_eq (h : Stored v r n P x v') (hd : r.is_directory = true)
    (hp : r.parent ≠ 0) : v'.dirEntries n =
      if P = [] then [] else [⟨.dot, n, ext2FtDir⟩, ⟨.dotdot, r.parent, ext2FtDir⟩] := by
  have hlen := h.length
  rw [demand_dir hd] at hlen
  unfold Volume.dirEntries
  rw [h.dirBlocks_eq hd]
  match hP : P with
  | [] => rfl
  | [b] =>
      rw [if_neg (by simp), List.flatMap_singleton, h.dir_data hd (by simp)]
      have hslot := h.slot
      exact (dotEntries_spec (by omega) (by omega) hp r.parent_inode.isLt).2
  | b :: c :: l => simp at hlen; omega

theorem dirOk (h : Stored v r n P x v') (hd : r.is_directory = true) (hn : V n)
    (hV : V r.parent) (hp : r.parent ≠ 0) : v'.DirOk V n where
  contiguous := fun i j hij hj hz => by
    by_cases h0 : j = 0
    · rw [show i = 0 by omega] at hz
      rw [h0, hz]
    · rw [h.inode_self, h.block_eq (by omega)]
      exact h.dir_block hd j (by omega)
  no_table := by
    rw [h.inode_self, h.block_eq (by decide)]
    exact h.dir_block hd 12 (by decide)
  tiled := fun b hb => by
    rw [h.dirBlocks_eq hd] at hb
    rw [h.dir_data hd hb]
    have hslot := h.slot
    exact (dotEntries_spec (by omega) (by omega) hp r.parent_inode.isLt).1
  targets := fun e he => by
    rw [h.dirEntries_eq hd hp] at he
    split at he
    · cases he
    · simp only [List.mem_cons, List.not_mem_nil, or_false] at he
      rcases he with rfl | rfl
      · exact hn
      · exact hV

/-- What the slot referred to before is leaked. -/
theorem sound (hst : Stored v r n P x v') (h : Sound V held v) (hn : V n) (hV : V r.parent)
    (hp : r.parent ≠ 0) : Sound V (held ∪ v.refs n) v' := by
  obtain ⟨v₂, hc, hv'⟩ := hst.content
  have hdir : x.isDir = true → v'.DirOk V n := fun hx =>
    hst.dirOk (hst.isDir ▸ hx) hn hV hp
  rw [hv', hc.volume] at hdir ⊢
  exact (h.takeInode n).store hc.nodup hc.fresh hc.outside hc.ptr hdir

end Stored

/-! ## Adding the entry -/

/-- How an entry is added to directory `q`: in the slack of a record, in a new
block, or not at all when the directory is full or no block is free. -/
inductive Added (v : Volume) (q : ℕ) (e : DirEntry) : ℤ → Volume → Prop
  | split (b : ℕ) (buf : Block) : v.EntryFits q e.name → b ∈ v.dirBlocks q →
      Tiles buf 0 (blockRecs buf) → (blockEntries buf).Perm (e :: blockEntries (v.data b)) →
      Added v q e 0 (v.setData b buf)
  | grow (b : ℕ) : ¬ v.EntryFits q e.name → (v.dirBlocks q).length < 12 → v.LeastFree b →
      v.freeBlocks ≠ 0 → Added v q e 0 (v.grow q (v.inode q) (v.dirBlocks q).length b e)
  | full : ¬ v.EntryFits q e.name → (v.dirBlocks q).length = 12 ∨ v.freeBlocks = 0 →
      Added v q e (-1) v

theorem Added.code {q : ℕ} {e : DirEntry} {code : ℤ} {v' : Volume} (h : Added v q e code v') :
    code = 0 ∨ code = -1 := by
  cases h with
  | split => exact Or.inl rfl
  | grow => exact Or.inl rfl
  | full => exact Or.inr rfl

theorem Sound.added (env : Env) (h : Sound V held (view s)) {p : ℕ} (hp : InTable p)
    (hd : ((view s).inode (slotOf p)).isDir = true) {e : DirEntry} (h0 : e.inode ≠ 0)
    (hlt : e.inode < 2 ^ 32) :
    Added (view s) (slotOf p) e (addEntryToDir env s p e.inode e.name e.fileType).1
      (view (addEntryToDir env s p e.inode e.name e.fileType).2) := by
  have ha : Addresses env s p (slotOf p) := addresses_inTable h.tables hp
  rcases addEntryToDir_dir ha (h.shape hd) h0 hlt with
    ⟨hfit, b, hb, buf, hres, hview, htiles, hperm⟩ | ⟨hfit, hlen, hres⟩ | ⟨hfit, hlen, hres⟩
  · rw [hres]
    change Added (view s) (slotOf p) e 0 (view (writeBlocks s buf b))
    rw [hview]
    exact .split b buf hfit hb htiles hperm
  · rw [hres]
    exact .full hfit (Or.inl hlen)
  · rw [hres]
    rcases growDir_cases ha h.meta_used ((view s).inode (slotOf p)) e
      ((view s).dirBlocks (slotOf p)).length with ⟨hno, hfail⟩ | ⟨b, hb, hfree, hcode, hview⟩
    · rw [hfail]
      refine .full hfit (Or.inr ?_)
      rcases allocateBlock_exact env h.blocks with ⟨-, hz⟩ | ⟨b, hb, hu, -, -, hnum, -⟩
      · exact hz
      · rw [hno] at hnum
        have hge : b = 0 := hnum.symm
        rw [hge, h.meta_used 0 (by decide)] at hu
        cases hu
    · rw [hcode, hview]
      exact .grow b hfit hlen hb hfree

/-- Adding an entry to a directory keeps the invariant. -/
theorem Added.sound {q : ℕ} {e : DirEntry} {code : ℤ} {v' : Volume} (ha : Added v q e code v')
    (h : Sound V held v) (hd : (v.inode q).isDir = true) (hV : V e.inode) (h0 : e.inode ≠ 0)
    (hlt : e.inode < 2 ^ 32) : Sound V held v' := by
  cases ha with
  | split b buf _ hb htiles hperm =>
      obtain ⟨hb0, i, hi, rfl⟩ := Sound.mem_dirBlocks hb
      refine h.setDirect hi hb0 fun _ => ⟨htiles, fun d hd' => ?_⟩
      rcases List.mem_cons.mp (hperm.mem_iff.mp hd') with rfl | hold
      · exact hV
      · exact (h.dirs _ hd).targets d (List.mem_flatMap.mpr ⟨_, hb, hold⟩)
  | grow b _ hlen hb _ =>
      exact h.grow hlen ((h.dirs _ hd).contiguous.next_zero hlen le_rfl) hb
        fun _ => ⟨rfl, hV, h0, hlt⟩
  | full _ _ => exact h

/-- Whatever inode slot the parent number reaches, adding an entry keeps the
invariant. The blocks of an inode that is no directory are rewritten as bytes. -/
theorem Sound.addEntry (h : Sound V held (view s)) {p : ℕ} (hp : InTable p) {e : DirEntry}
    (hV : V e.inode) (h0 : e.inode ≠ 0) (hlt : e.inode < 2 ^ 32) :
    Sound V held (view (addEntryToDir env s p e.inode e.name e.fileType).2) := by
  have ha : Addresses env s p (slotOf p) := addresses_inTable h.tables hp
  by_cases hd : ((view s).inode (slotOf p)).isDir = true
  · exact (h.added env hp hd h0 hlt).sound h hd hV h0 hlt
  · rcases addEntryToDir_cases ha e with
      ⟨hres, -⟩ | ⟨i, hi, -, ⟨buf, hused, -, hres⟩ | ⟨hfree, hres⟩⟩
    · rw [hres]
      exact h
    · rw [hres]
      have hptr : (view s).ptr (slotOf p) i = ((view s).inode (slotOf p)).block i :=
        EXT2Inode.ptr_direct (by omega)
      rw [← hptr] at hused ⊢
      obtain ⟨hge, hlt256, -⟩ := h.ptr_taken hused
      change Sound V held (view (writeBlocks s buf _))
      rw [view_writeBlocks s buf hge (by omega)]
      exact h.setDirect hi hused fun hdir => absurd hdir hd
    · rw [hres]
      rcases growDir_cases ha h.meta_used ((view s).inode (slotOf p)) e i with
        ⟨-, hfail⟩ | ⟨b, hb, -, -, hview⟩
      · rw [hfail]
        exact h
      · rw [hview]
        exact h.grow hi hfree hb fun hdir => absurd hdir hd

/-- Adding an entry allocates no inode. -/
theorem Sound.addEntry_inodeUsed (env : Env) (h : Sound V held (view s)) {p : ℕ} (hp : InTable p)
    (e : DirEntry) :
    (view (addEntryToDir env s p e.inode e.name e.fileType).2).inodeUsed =
      (view s).inodeUsed := by
  have ha : Addresses env s p (slotOf p) := addresses_inTable h.tables hp
  rcases addEntryToDir_cases ha e with ⟨hres, -⟩ | ⟨i, hi, -, ⟨buf, hused, -, hres⟩ | ⟨-, hres⟩⟩
  · rw [hres]
  · have hptr : (view s).ptr (slotOf p) i = ((view s).inode (slotOf p)).block i :=
      EXT2Inode.ptr_direct (by omega)
    obtain ⟨hge, hlt, -⟩ := h.ptr_taken (hptr ▸ hused : (view s).ptr (slotOf p) i ≠ 0)
    rw [hptr] at hge hlt
    rw [hres]
    change (view (writeBlocks s buf _)).inodeUsed = _
    rw [view_writeBlocks s buf hge (by omega)]
    rfl
  · rw [hres]
    rcases growDir_cases ha h.meta_used ((view s).inode (slotOf p)) e i with
      ⟨-, hfail⟩ | ⟨b, -, -, -, hview⟩
    · rw [hfail]
    · rw [hview]
      rfl

/-- `write` keeps the invariant. It may leak what a free slot still referred to. -/
theorem write_sound (h : Sound V held (view s)) {r : Request}
    (hslot : ∀ n, 1 ≤ n → n ≤ 64 → V n) (hp : InTable r.parent) (hV : V r.parent) :
    ∃ held', (held' = held ∨ ∃ n, (view s).inodeUsed n = false ∧
      held' = held ∪ (view s).refs n) ∧ Sound V held' (view (write env s r).2) := by
  rcases write_cases env h r with
    ⟨-, hres⟩ | ⟨-, -, hres⟩ | ⟨-, -, -, hres⟩ | ⟨hp0, -, n, P, x, -, hst, hres⟩
  · exact ⟨held, Or.inl rfl, by rw [hres]; exact h⟩
  · exact ⟨held, Or.inl rfl, by rw [hres]; exact h⟩
  · exact ⟨held, Or.inl rfl, by rw [hres]; exact h⟩
  · have hn := hst.slot
    have hVn := hslot n hn.1 hn.2
    refine ⟨_, Or.inr ⟨n, hst.unused, rfl⟩, ?_⟩
    rw [hres]
    exact (hst.sound h hVn hV hp0).addEntry hp (e := r.entry n) hVn
      (show n ≠ 0 by omega) (show n < 2 ^ 32 by omega)

/-- `write` on a directory, to the end. -/
theorem write_dir_cases (env : Env) (h : Sound V held (view s)) {r : Request}
    (hslot : ∀ n, 1 ≤ n → n ≤ 64 → V n) (hp : InTable r.parent) (hV : V r.parent)
    (hd : ((view s).inode (slotOf r.parent)).isDir = true)
    (hu : (view s).inodeUsed (slotOf r.parent) = true) :
    (findEntryInDir env s r.parent r.name ≠ 0 ∧ write env s r = (1, s)) ∨
    (findEntryInDir env s r.parent r.name = 0 ∧ (view s).NoInode ∧ write env s r = (-1, s)) ∨
    (findEntryInDir env s r.parent r.name = 0 ∧
      ∃ n P x v₃, Stored (view s) r n P x v₃ ∧
        Added v₃ (slotOf r.parent) (r.entry n) (write env s r).1 (view (write env s r).2)) := by
  rcases write_cases env h r with
    ⟨hp0, -⟩ | ⟨-, hf, hres⟩ | ⟨-, hf, hno, hres⟩ | ⟨hp0, hf, n, P, x, -, hst, hres⟩
  · exact absurd hp0 (by have := hp.1; omega)
  · exact Or.inl ⟨hf, hres⟩
  · exact Or.inr (Or.inl ⟨hf, hno, hres⟩)
  · generalize storedState env s r = s₃ at hst hres
    refine Or.inr (Or.inr ⟨hf, n, P, x, view s₃, hst, ?_⟩)
    have hn := hst.slot
    have hqn : slotOf r.parent ≠ n := fun he => by
      rw [he, hst.unused] at hu
      cases hu
    have hd₃ : ((view s₃).inode (slotOf r.parent)).isDir = true := by
      rw [hst.inode_ne hqn]
      exact hd
    have hadd := (hst.sound h (hslot n hn.1 hn.2) hV hp0).added env hp hd₃
      (e := r.entry n) (show n ≠ 0 by omega) (show n < 2 ^ 32 by omega)
    rw [hres]
    change Added _ _ _ (if (addEntryToDir env s₃ r.parent n r.name r.fileType).1 ≠ 0 then -1
      else 0) _
    change Added _ _ _ (addEntryToDir env s₃ r.parent n r.name r.fileType).1
      (view (addEntryToDir env s₃ r.parent n r.name r.fileType).2) at hadd
    have hcode : (if (addEntryToDir env s₃ r.parent n r.name r.fileType).1 ≠ 0 then (-1 : ℤ)
        else 0) = (addEntryToDir env s₃ r.parent n r.name r.fileType).1 := by
      rcases hadd.code with hc | hc <;> rw [hc] <;> rfl
    rw [hcode]
    exact hadd

/-! ## `delete` -/

/-- `deallocate_node` on inode number `p`. -/
def Volume.dealloc (v : Volume) (p : ℕ) : Volume :=
  ((v.releaseBlocks ((v.inode (slotOf p)).pointers v.data)).setInode (slotOf p)
    EXT2Inode.zero).freeInode p

/-- `delete` has found entry `e` of the parent in block `b`, and has stored that
block without it as `buf`. -/
structure Removed (env : Env) (s : Fs) (r : Request) (e : DirEntry) (b : ℕ) (buf : Block) :
    Prop where
  name : r.name.len ≠ 0
  is_dir : ((view s).inode (slotOf r.parent)).isDir = true
  found : lookup DirEntry.name ((view s).dirEntries (slotOf r.parent)) r.name = some e
  block : b ∈ (view s).dirBlocks (slotOf r.parent)
  tiled : Tiles buf 0 (blockRecs buf)
  perm : (blockEntries ((view s).data b)).Perm (e :: blockEntries buf)
  kind : ((view s).inode (slotOf e.inode)).isDir = r.is_directory
  empty : r.is_directory = true → isDirectoryEmpty env s e.inode = true
  chain : remove (fun e => decide (e.name = r.name)) (blockRecs ((view s).data b)) =
    some (blockRecs buf)

theorem Sound.setRemoved {r : Request} {e : DirEntry} {b : ℕ} {buf : Block}
    (h : Sound V held (view s)) (hr : Removed env s r e b buf) :
    Sound V held ((view s).setData b buf) := by
  obtain ⟨hb0, i, hi, rfl⟩ := Sound.mem_dirBlocks hr.block
  refine h.setDirect hi hb0 fun _ => ⟨hr.tiled, fun d hd => ?_⟩
  have hold := hr.perm.mem_iff.mpr (List.mem_cons_of_mem _ hd)
  exact (h.dirs _ hr.is_dir).targets d (List.mem_flatMap.mpr ⟨_, hr.block, hold⟩)

/-- `delete` refuses, or removes the entry and gives back its inode. -/
theorem delete_cases (env : Env) (h : Sound V held (view s)) (hin : ∀ p, V p → InTable p)
    {r : Request} (hp : r.parent = 0 ∨ InTable r.parent) :
    (∃ code, code ≠ 0 ∧ delete env s r = (code, s)) ∨
    ∃ e b buf, Removed env s r e b buf ∧
      delete env s r = (0, deallocateNode env (writeBlocks s buf b) e.inode) ∧
      view (delete env s r).2 = ((view s).setData b buf).dealloc e.inode := by
  have hinit : ¬ s.initialized = false := by
    have := h.initialized
    change s.initialized = true at this
    simp [this]
  unfold delete
  rw [if_neg hinit]
  by_cases hp0 : r.parent = 0
  · rw [if_pos hp0]
    exact Or.inl ⟨3, by decide, rfl⟩
  · rw [if_neg hp0]
    by_cases hname : r.name_null = true ∨ r.name.len = 0
    · rw [if_pos hname]
      exact Or.inl ⟨-1, by decide, rfl⟩
    · rw [if_neg hname]
      simp only
      by_cases hf : findEntryInDir env s r.parent r.name = 0
      · rw [if_pos hf]
        exact Or.inl ⟨1, by decide, rfl⟩
      · rw [if_neg hf]
        have ha : Addresses env s r.parent (slotOf r.parent) :=
          addresses_inTable h.tables (hp.resolve_left hp0)
        -- the parent is a directory and the name is in it
        have hdir : ((view s).inode (slotOf r.parent)).isDir = true := by
          by_contra hd
          refine hf ?_
          unfold findEntryInDir
          rw [ha.readInode]
          exact if_pos (by simpa using hd)
        have hshape := h.shape hdir
        have hfind := findEntryInDir_eq ha hshape r.name
        rw [if_pos hdir] at hfind
        cases hlook : lookup DirEntry.name ((view s).dirEntries (slotOf r.parent)) r.name with
        | none =>
            rw [hfind, inodeOf, hlook] at hf
            exact absurd rfl hf
        | some e =>
            have htarget : findEntryInDir env s r.parent r.name = e.inode := by
              rw [hfind, inodeOf, hlook]
              rfl
            have hmem := mem_of_lookup hlook
            have hVe := hin _ ((h.dirs _ hdir).targets e hmem.1)
            have hae : Addresses env s e.inode (slotOf e.inode) := addresses_inTable h.tables hVe
            rw [htarget, hae.readInode]
            simp only
            by_cases h1 : r.is_directory = true ∧ ((view s).inode (slotOf e.inode)).isDir = false
            · rw [if_pos h1]
              exact Or.inl ⟨1, by decide, rfl⟩
            · rw [if_neg h1]
              by_cases h2 : r.is_directory = true ∧ isDirectoryEmpty env s e.inode = false
              · rw [if_pos h2]
                exact Or.inl ⟨2, by decide, rfl⟩
              · rw [if_neg h2]
                by_cases h3 : r.is_directory = false ∧
                    ((view s).inode (slotOf e.inode)).isDir = true
                · rw [if_pos h3]
                  exact Or.inl ⟨1, by decide, rfl⟩
                · rw [if_neg h3]
                  rcases removeEntryFromDir_cases ha hshape r.name with
                    ⟨hres, hnone⟩ | ⟨b, hb, buf, e', hres, hview, htiles, hlook', hperm, hchain⟩
                  · exact absurd (lookup_eq_none.mpr hnone) (by simp [hlook])
                  · rw [hlook, Option.some.injEq] at hlook'
                    subst hlook'
                    rw [hres, if_neg (not_not.mpr rfl)]
                    have hrem : Removed env s r e b buf := by
                      refine ⟨fun hl => hname (Or.inr hl), hdir, hlook, hb, htiles, hperm, ?_, ?_,
                        hchain⟩
                      · cases hk : r.is_directory <;>
                          cases hk' : ((view s).inode (slotOf e.inode)).isDir <;> simp_all
                      · intro hk
                        simpa [hk] using h2
                    refine Or.inr ⟨e, b, buf, hrem, rfl, ?_⟩
                    have hs₁ := h.setRemoved hrem
                    rw [← hview] at hs₁
                    have hae₁ : Addresses env (writeBlocks s buf b) e.inode (slotOf e.inode) :=
                      addresses_inTable hs₁.tables hVe
                    have hle : e.inode ≤ 512 := by
                      obtain ⟨-, hle | hle⟩ := (inTable_iff _).mp hVe <;> omega
                    rw [view_deallocateNode hs₁.initialized hae₁ (by omega) ?_ ?_, hview]
                    · rfl
                    · intro c hc
                      by_cases hc0 : c = 0
                      · omega
                      · obtain ⟨j, rfl⟩ := (EXT2Inode.mem_pointers hc0).mp hc
                        have := (hs₁.ptr_taken (n := slotOf e.inode) (j := j) hc0).2.1
                        change Volume.ptr _ _ _ < 4096
                        omega
                    · by_cases h12 :
                          ((view (writeBlocks s buf b)).inode (slotOf e.inode)).block 12 = 0
                      · exact Or.inl h12
                      · have hp12 : (view (writeBlocks s buf b)).ptr (slotOf e.inode) 12 = _ :=
                          EXT2Inode.ptr_direct (by decide)
                        rw [← hp12] at h12 ⊢
                        exact Or.inr (hs₁.ptr_taken h12).1

theorem delete_sound (h : Sound V held (view s)) (hin : ∀ p, V p → InTable p) {r : Request}
    (hp : r.parent = 0 ∨ InTable r.parent) : Sound V held (view (delete env s r).2) := by
  rcases delete_cases env h hin hp with ⟨code, -, hres⟩ | ⟨e, b, buf, hrem, -, hview⟩
  · rw [hres]
    exact h
  · rw [hview]
    exact (h.setRemoved hrem).deallocate (slotOf e.inode) e.inode

end RendangOS.Ext2
