import RendangOS.Ext2.CallSpec

/-!
# What a call leaves alone

An inode is untouched by a step when neither its slot nor any block it refers
to changes. Then its pointers, its entries and its bytes are the same. Every
step of a call leaves all inodes untouched but one: the new inode, the parent
directory, or the inode that is given back. This is where exclusive ownership
of blocks is used.
-/

namespace RendangOS.Ext2

open Image RecordChain Assoc Bitmap

structure Untouched (v v' : Volume) (m : ℕ) : Prop where
  inode : v'.inode m = v.inode m
  data : ∀ j, v.ptr m j ≠ 0 → v'.data (v.ptr m j) = v.data (v.ptr m j)

/-- The number of places of inode `n` that are in use. -/
def Volume.refCount (v : Volume) (n : ℕ) : ℕ := clearCount (fun j => decide (v.ptr n j = 0)) 141

variable {V : ℕ → Prop} {held : Set ℕ} {v v' v'' : Volume} {m n q : ℕ}

namespace Untouched

theorem refl (v : Volume) (m : ℕ) : Untouched v v m := ⟨rfl, fun _ _ => rfl⟩

theorem ptr_eq (h : Untouched v v' m) (j : ℕ) : v'.ptr m j = v.ptr m j := by
  have hp : v.ptr m 12 = (v.inode m).block 12 := EXT2Inode.ptr_direct (by decide)
  unfold Volume.ptr
  rw [h.inode]
  refine EXT2Inode.ptr_congr (fun _ _ => rfl) (fun h12 => ?_) j
  rw [← hp] at h12 ⊢
  exact h.data 12 h12

theorem trans (h : Untouched v v' m) (h' : Untouched v' v'' m) : Untouched v v'' m where
  inode := h'.inode.trans h.inode
  data := fun j hj => by
    have hj' := h'.data j (by rwa [h.ptr_eq])
    rw [h.ptr_eq] at hj'
    exact hj'.trans (h.data j hj)

theorem refCount_eq (h : Untouched v v' m) : v'.refCount m = v.refCount m := by
  unfold Volume.refCount
  simp only [h.ptr_eq]

theorem dirBlocks_eq (h : Untouched v v' m) : v'.dirBlocks m = v.dirBlocks m := by
  unfold Volume.dirBlocks
  rw [h.inode]

theorem data_dirBlocks (h : Untouched v v' m) {b : ℕ} (hb : b ∈ v.dirBlocks m) :
    v'.data b = v.data b := by
  obtain ⟨h0, i, -, rfl⟩ := Sound.mem_dirBlocks hb
  exact h.data i h0

theorem dirEntries_eq (h : Untouched v v' m) : v'.dirEntries m = v.dirEntries m := by
  unfold Volume.dirEntries
  rw [h.dirBlocks_eq]
  exact List.flatMap_congr fun b hb => congrArg blockEntries (h.data_dirBlocks hb)

theorem entryFits_iff (h : Untouched v v' m) (name : EntryName) :
    v'.EntryFits m name ↔ v.EntryFits m name := by
  unfold Volume.EntryFits
  rw [h.dirBlocks_eq]
  constructor
  · rintro ⟨b, hb, hroom⟩
    exact ⟨b, hb, by rwa [h.data_dirBlocks hb] at hroom⟩
  · rintro ⟨b, hb, hroom⟩
    exact ⟨b, hb, by rwa [h.data_dirBlocks hb]⟩

end Untouched

/-! ## The steps -/

theorem Stored.untouched {r : Request} {P : List ℕ} {x : EXT2Inode} (hst : Stored v r n P x v')
    (h : Sound V held v) (hm : m ≠ n) : Untouched v v' m where
  inode := hst.inode_ne hm
  data := fun j hj => hst.data_outside fun hP => by
    have hu := (hst.fresh _ hP).2.2
    rw [(h.ptr_taken hj).2.2] at hu
    cases hu

/-- Rewriting a block of another directory. -/
theorem untouched_setData {b : ℕ} {buf : Block} (h : Sound V held v) (hb : b ∈ v.dirBlocks q)
    (hm : m ≠ q) : Untouched v (v.setData b buf) m where
  inode := rfl
  data := fun j hj => by
    obtain ⟨-, i, -, hi⟩ := Sound.mem_dirBlocks hb
    refine Function.update_of_ne (fun he => hm ?_) ..
    exact (h.ptr_inj hj (he.trans hi.symm)).1

theorem untouched_grow {i b : ℕ} {e : DirEntry} (x : EXT2Inode) (h : Sound V held v)
    (hb : v.LeastFree b) (hm : m ≠ q) : Untouched v (v.grow q x i b e) m where
  inode := Volume.inode_grow_ne x hm
  data := fun j hj => Volume.data_grow_ne x fun he => by
    have hu := hb.unused
    rw [← he, (h.ptr_taken hj).2.2] at hu
    cases hu

theorem Added.untouched {e : DirEntry} {code : ℤ} (ha : Added v q e code v')
    (h : Sound V held v) (hm : m ≠ q) : Untouched v v' m := by
  cases ha with
  | split b buf _ hb _ _ => exact untouched_setData h hb hm
  | grow b _ _ hb _ => exact untouched_grow _ h hb hm
  | full _ _ => exact .refl v m

theorem Added.inodeUsed_eq {e : DirEntry} {code : ℤ} (ha : Added v q e code v') :
    v'.inodeUsed = v.inodeUsed := by
  cases ha <;> rfl

theorem Added.isDir_eq {e : DirEntry} {code : ℤ} (ha : Added v q e code v') (m : ℕ) :
    (v'.inode m).isDir = (v.inode m).isDir := by
  cases ha with
  | split => rfl
  | grow b _ _ _ _ =>
      by_cases hm : m = q
      · subst hm
        rw [Volume.inode_grow_self, growInode_isDir]
      · rw [Volume.inode_grow_ne _ hm]
  | full => rfl

/-- The entries of a directory after a successful addition. -/
theorem Added.dirEntries_perm {e : DirEntry} (ha : Added v q e 0 v') (h : Sound V held v)
    (hd : (v.inode q).isDir = true) (h0 : e.inode ≠ 0) (hlt : e.inode < 2 ^ 32) :
    (v'.dirEntries q).Perm (e :: v.dirEntries q) := by
  cases ha with
  | split b buf _ hb _ hperm =>
      exact Volume.dirEntries_setData_perm (h.dirBlocks_nodup q) hb hperm
  | grow b _ hlen hb _ =>
      have hge := hb.ge h.meta_used
      have hblt := hb.lt
      have hout : b ∉ v.dirBlocks q := by
        intro hmem
        have hu := hb.unused
        rw [(h.dirBlocks_taken hmem).2.2] at hu
        cases hu
      rw [Volume.dirEntries_grow (h.dirs q hd).contiguous hlen (by omega) (by omega) hout h0 hlt]
      exact List.perm_append_singleton e _

namespace Volume

theorem inode_dealloc_self (v : Volume) (p : ℕ) :
    (v.dealloc p).inode (slotOf p) = EXT2Inode.zero :=
  Function.update_self ..

theorem inode_dealloc_ne (v : Volume) {p : ℕ} (hm : m ≠ slotOf p) :
    (v.dealloc p).inode m = v.inode m := by
  have hrel := v.inode_releaseBlocks ((v.inode (slotOf p)).pointers v.data)
  unfold dealloc
  generalize v.releaseBlocks ((v.inode (slotOf p)).pointers v.data) = w at hrel ⊢
  exact (Function.update_of_ne hm ..).trans (congrFun hrel m)

theorem data_dealloc (v : Volume) (p : ℕ) : (v.dealloc p).data = v.data := by
  have hrel := v.data_releaseBlocks ((v.inode (slotOf p)).pointers v.data)
  unfold dealloc
  generalize v.releaseBlocks ((v.inode (slotOf p)).pointers v.data) = w at hrel ⊢
  exact hrel

theorem inodeUsed_dealloc (v : Volume) (p : ℕ) :
    (v.dealloc p).inodeUsed = Function.update v.inodeUsed p false := by
  have hrel := v.inodeUsed_releaseBlocks ((v.inode (slotOf p)).pointers v.data)
  unfold dealloc
  generalize v.releaseBlocks ((v.inode (slotOf p)).pointers v.data) = w at hrel ⊢
  rw [← hrel]
  rfl

theorem blockUsed_dealloc (v : Volume) (p c : ℕ) :
    (v.dealloc p).blockUsed c = (v.blockUsed c &&
      !decide (c ≠ 0 ∧ c ∈ (v.inode (slotOf p)).pointers v.data)) := by
  have hrel := v.blockUsed_releaseBlocks ((v.inode (slotOf p)).pointers v.data) c
  unfold dealloc
  generalize v.releaseBlocks ((v.inode (slotOf p)).pointers v.data) = w at hrel ⊢
  exact hrel

theorem untouched_dealloc (v : Volume) {p : ℕ} (hm : m ≠ slotOf p) :
    Untouched v (v.dealloc p) m :=
  ⟨v.inode_dealloc_ne hm, fun _ _ => congrFun (v.data_dealloc p) _⟩

end Volume

/-- A rewritten direct block leaves every pointer as it is. -/
theorem ptr_setData {b : ℕ} {buf : Block} (h : Sound V held v) (hb : b ∈ v.dirBlocks q)
    (m j : ℕ) : (v.setData b buf).ptr m j = v.ptr m j := by
  obtain ⟨hb0, i, hi, rfl⟩ := Sound.mem_dirBlocks hb
  exact EXT2Inode.ptr_congr (fun _ _ => rfl)
    (fun _ => Function.update_of_ne (h.direct_not_table hi hb0 m) ..) j

theorem ptr_grow {i b : ℕ} {e : DirEntry} (h : Sound V held v) (hi : i < 12)
    (hb : v.LeastFree b) (j : ℕ) :
    (v.grow q (v.inode q) i b e).ptr q j = if j = i then b else v.ptr q j := by
  have hlt := hb.lt
  unfold Volume.ptr
  rw [Volume.inode_grow_self, Sound.growInode_ptr _ hi (by omega)]
  by_cases hj : j = i
  · rw [if_pos hj, if_pos hj]
  · rw [if_neg hj, if_neg hj]
    have hp : v.ptr q 12 = (v.inode q).block 12 := EXT2Inode.ptr_direct (by decide)
    refine EXT2Inode.ptr_congr (fun _ _ => rfl) (fun h12 => ?_) j
    rw [← hp] at h12 ⊢
    refine Volume.data_grow_ne _ fun he => ?_
    have hu := hb.unused
    rw [← he, (h.ptr_taken h12).2.2] at hu
    cases hu

end RendangOS.Ext2
