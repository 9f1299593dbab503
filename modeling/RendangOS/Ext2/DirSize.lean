import RendangOS.Ext2.FileContent

/-!
# The size of a directory

`i_size` of a directory counts its blocks: `write` and `add_entry_to_dir` raise
both together, and a directory that got no block has size 0.
-/

namespace RendangOS.Ext2

open Image RecordChain Assoc

variable {env : Env} {s : Fs} {v v' : Volume} {n q : ℕ} {r : Request} {e : DirEntry} {c : Call}

/-- In units of 32-bit words, as the inode holds them. -/
def DirSizes (v : Volume) : Prop :=
  ∀ d, (v.inode d).isDir = true → (v.inode d).i_size = 512#32 * (v.inode d).i_blocks

theorem writeDir_size (x : EXT2Inode) (hx : x.i_size = 512#32 * x.i_blocks) :
    (writeDir env r n x s).1.i_size = 512#32 * (writeDir env r n x s).1.i_blocks := by
  unfold writeDir
  dsimp only
  split
  · exact hx
  · rfl

theorem writeContent_size (hd : r.is_directory = true) :
    (writeContent env r n s).1.i_size = 512#32 * (writeContent env r n s).1.i_blocks := by
  unfold writeContent
  rw [if_neg (by simp [hd]), if_pos hd]
  exact writeDir_size _ (by simp [freshInode, hd, EXT2Inode.zero])

theorem tables_writeInode (env : Env) (s : Fs) (p : ℕ) (x : EXT2Inode) :
    (view (writeInode env s p x)).tables = (view s).tables := by
  unfold writeInode
  split <;> rfl

/-- `write` stores what it has filled in. -/
theorem inode_storedState (hn : IsSlot n) (hnum : (allocateNode env s).1 = n)
    (htables : (view (storedState env s r)).tables = groupTables) :
    (view (storedState env s r)).inode n = (writeContent env r n (allocateNode env s).2).1 := by
  have hstored : storedState env s r = writeInode env
      (writeContent env r n (allocateNode env s).2).2 n
      (writeContent env r n (allocateNode env s).2).1 := by
    rw [← hnum]
    rfl
  rw [hstored] at htables ⊢
  rw [tables_writeInode] at htables
  rw [(addresses_inTable_slot htables hn).writeInode]
  exact Function.update_self ..

namespace DirSizes

theorem untouched (h : DirSizes v) {d : ℕ} (hd : (v'.inode d).isDir = true)
    (hun : v'.inode d = v.inode d) : (v'.inode d).i_size = 512#32 * (v'.inode d).i_blocks := by
  rw [hun] at hd ⊢
  exact h d hd

theorem added {code : ℤ} (h : DirSizes v) (ha : Added v q e code v') : DirSizes v' := by
  cases ha with
  | split => exact h
  | full => exact h
  | grow b _ hlen _ _ =>
      intro d hd
      by_cases hdq : d = q
      · subst hdq
        rw [Volume.inode_grow_self] at hd ⊢
        rw [growInode_isDir] at hd
        have hsize := h d hd
        change (v.inode d).i_size + 512#32 = 512#32 * ((v.inode d).i_blocks + 1#32)
        rw [hsize, BitVec.mul_add, BitVec.mul_one]
      · exact h.untouched hd (Volume.inode_grow_ne _ hdq)

theorem write (env : Env) (h : DirSizes (view s)) (hs : Settled (view s))
    (hp : AllocatedDir s r.parent) : DirSizes (view (Ext2.write env s r).2) := by
  have hslot : IsSlot r.parent := isSlot_of_isDir hp.2
  rcases write_cases env hs.sound r with
    ⟨-, hres⟩ | ⟨-, -, hres⟩ | ⟨-, -, -, hres⟩ | ⟨-, -, n, P, x, hnum, hst, hres⟩
  · rwa [hres]
  · rwa [hres]
  · rwa [hres]
  · have hs₃ := hs.stored hst hslot
    have hself : (view (storedState env s r)).inode n = _ :=
      inode_storedState hst.slot hnum hs₃.sound.tables
    generalize storedState env s r = s₃ at hst hres hs₃ hself
    have hsizes : DirSizes (view s₃) := by
      intro d hd
      by_cases hdn : d = n
      · subst hdn
        rw [hst.inode_self, hst.isDir] at hd
        rw [hself]
        exact writeContent_size hd
      · exact h.untouched hd (hst.inode_ne hdn)
    have hd₃ : ((view s₃).inode r.parent).isDir = true := by
      rw [hst.inode_ne (hst.parent_ne hp)]
      exact hp.2
    have hn : IsSlot n := hst.slot
    have hadd := hs₃.sound.added env hslot.inTable (e := r.entry n)
      (by rw [hslot.slotOf]; exact hd₃) hn.ne_zero hn.lt_word
    rw [hres]
    exact hsizes.added hadd

theorem delete (env : Env) (h : DirSizes (view s)) (hs : Settled (view s))
    (hp : AllocatedDir s r.parent) : DirSizes (view (Ext2.delete env s r).2) := by
  have hslot : IsSlot r.parent := isSlot_of_isDir hp.2
  rcases delete_cases env hs.sound (fun n hn => hn.inTable) (Or.inr hslot.inTable) with
    ⟨code, -, hres⟩ | ⟨e, b, buf, -, -, hview⟩
  · rwa [hres]
  · rw [hview]
    intro d hd
    by_cases hde : d = slotOf e.inode
    · rw [hde, Volume.inode_dealloc_self, Sound.zero_isDir] at hd
      cases hd
    · exact h.untouched hd (Volume.inode_dealloc_ne _ hde)

end DirSizes

theorem fresh_dirSizes (disk : ℕ → Block) : DirSizes (freshVolume disk) := by
  intro d hd
  obtain rfl := fresh_isDir disk hd
  rfl

theorem reachable_dirSizes (h : Reachable OnDirectory s) : DirSizes (view s) := by
  have hinv : Settled (view s) ∧ DirSizes (view s) := by
    refine h.induct (fun v => Settled v ∧ DirSizes v)
      (fun disk => ⟨fresh_settled disk, fresh_dirSizes disk⟩) ?_
    rintro env s c ⟨hs, hsize⟩ hc
    cases c with
    | write r => exact ⟨hs.write hc, hsize.write env hs hc⟩
    | delete r => exact ⟨hs.delete hc, hsize.delete env hs hc⟩
  exact hinv.2

end RendangOS.Ext2
