import RendangOS.Ext2.Removal
import RendangOS.Ext2.ReadBack

/-!
# Isolation between files

A call leaves every inode untouched but the parent directory, the inode it
takes and the inode it frees, and keeps every entry but the one it names. So
what `read` and `stat` answer about another file stays the same, unless the
call frees the inode of that file. An inode has one name, but the `".."` entry
of a directory that a failed call has left behind can outlive the directory it
names, and then names whatever file takes that inode.
-/

namespace RendangOS.Ext2

open Image RecordChain Assoc Bitmap

variable {env : Env} {s s' : Fs} {c : Call} {e : DirEntry} {n m p : ℕ} {r : Request}

/-! ## What a call leaves alone -/

/-- The call is a removal that frees inode `n`. -/
def Freed (env : Env) (s : Fs) (c : Call) (n : ℕ) : Prop :=
  ∃ r, c = .delete r ∧ findEntryInDir env s r.parent r.name = n ∧ (delete env s r).1 = 0 ∧
    inodeAt (c.run env s).2 n = EXT2Inode.zero

namespace Settled

/-- An inode in use is untouched, unless it is the parent or freed. -/
theorem call_untouched (env : Env) (h : Settled (view s)) (hp : AllocatedDir s c.request.parent)
    (hu : inodeUsed s m = true) (hm : m ≠ c.request.parent) :
    Untouched (view s) (view (c.run env s).2) m ∨ Freed env s c m := by
  cases c with
  | write r =>
      change AllocatedDir s r.parent at hp
      rcases h.write_dir env hp with hres | ⟨-, n, P, x, v₃, hst, hadd⟩
      · rw [Call.run, hres]
        exact Or.inl (.refl _ _)
      · have hslot : IsSlot r.parent := isSlot_of_isDir hp.2
        have hmn : m ≠ n := by
          rintro rfl
          have hfree := hst.unused
          rw [show (view s).inodeUsed m = true from hu] at hfree
          cases hfree
        exact Or.inl ((hst.untouched h.sound hmn).trans
          (hadd.untouched (h.stored hst hslot).sound hm))
  | delete r =>
      change AllocatedDir s r.parent at hp
      rcases h.delete_outcome env hp with ⟨-, hres⟩ | ⟨-, ⟨-, hres⟩ | ⟨e, he, -, hfind, hdel⟩⟩
      · rw [Call.run, hres]
        exact Or.inl (.refl _ _)
      · rw [Call.run, hres]
        exact Or.inl (.refl _ _)
      · have hslot : IsSlot r.parent := isSlot_of_isDir hp.2
        have ht := h.target_slot hp.2 he
        have hfreed : (Ext2.delete env s r).1 = 0 →
            inodeAt (Ext2.delete env s r).2 m = EXT2Inode.zero → m = e.inode →
            Freed env s (.delete r) m :=
          fun hcode hzero hme => ⟨r, rfl, hfind.trans hme.symm, hcode, hzero⟩
        change Untouched _ (view (Ext2.delete env s r).2) m ∨ _
        generalize Ext2.delete env s r = res at hdel hfreed ⊢
        cases hdel with
        | kind => exact Or.inl (.refl _ _)
        | full => exact Or.inl (.refl _ _)
        | @removed b buf s' hrem hview =>
            have hblock := hrem.block
            rw [hslot.slotOf] at hblock
            by_cases hme : m = e.inode
            · subst hme
              have hself := ((view s).setData b buf).inode_dealloc_self e.inode
              rw [ht.slotOf, ← hview] at hself
              exact Or.inr (hfreed rfl hself rfl)
            · change Untouched _ (view s') m ∨ _
              rw [hview]
              exact Or.inl ((untouched_setData h.sound hblock hm).trans
                (Volume.untouched_dealloc _ (by rwa [ht.slotOf])))

/-- An entry stays where its directory stays, unless the call names it. -/
theorem call_keeps_entry (env : Env) (h : Settled (view s)) (hp : AllocatedDir s c.request.parent)
    (hq : AllocatedDir s p) (hq' : AllocatedDir (c.run env s).2 p)
    (he : e ∈ (view s).dirEntries p)
    (hother : ¬ (p = c.request.parent ∧ e.name = c.request.name)) :
    e ∈ (view (c.run env s).2).dirEntries p := by
  by_cases hpar : p = c.request.parent
  · subst hpar
    cases c with
    | write r =>
        change AllocatedDir s r.parent at hp
        change e ∈ (view s).dirEntries r.parent at he
        rcases h.write_dir env hp with hres | ⟨-, n, P, x, v₃, hst, hadd⟩
        · rw [Call.run, hres]
          exact he
        · have hslot : IsSlot r.parent := isSlot_of_isDir hp.2
          have hpn := hst.parent_ne hp
          have hst' := h.stored hst hslot
          have he₃ : e ∈ v₃.dirEntries r.parent := by
            rw [(hst.untouched h.sound hpn).dirEntries_eq]
            exact he
          have hd₃ : (v₃.inode r.parent).isDir = true := by
            rw [hst.inode_ne hpn]
            exact hp.2
          have hn := hst.slot
          change e ∈ (view (Ext2.write env s r).2).dirEntries r.parent
          rcases hadd.code with hcode | hcode
          · rw [hcode] at hadd
            have hperm := hadd.dirEntries_perm hst'.sound hd₃ (show n ≠ 0 by omega)
              (show n < 2 ^ 32 by omega)
            exact hperm.mem_iff.mpr (List.mem_cons_of_mem _ he₃)
          · rw [hcode] at hadd
            generalize view (Ext2.write env s r).2 = v at hadd ⊢
            cases hadd
            exact he₃
    | delete r =>
        have hother' : e.name ≠ r.name := fun hn => hother ⟨rfl, hn⟩
        change AllocatedDir s r.parent at hp
        change e ∈ (view s).dirEntries r.parent at he
        rcases h.delete_outcome env hp with ⟨-, hres⟩ | ⟨-, ⟨-, hres⟩ | ⟨t, ht, htn, -, hdel⟩⟩
        · rw [Call.run, hres]
          exact he
        · rw [Call.run, hres]
          exact he
        · have hslot : IsSlot r.parent := isSlot_of_isDir hp.2
          have htslot := h.target_slot hp.2 ht
          change AllocatedDir (Ext2.delete env s r).2 r.parent at hq'
          change e ∈ (view (Ext2.delete env s r).2).dirEntries r.parent
          generalize Ext2.delete env s r = res at hdel hq' ⊢
          cases hdel with
          | kind => exact he
          | full => exact he
          | @removed b buf s' hrem hview =>
              have hblock := hrem.block
              rw [hslot.slotOf] at hblock
              have hperm := Volume.dirEntries_setData_perm' (h.sound.dirBlocks_nodup _) hblock
                hrem.perm
              have hkeep : e ∈ ((view s).setData b buf).dirEntries r.parent := by
                rcases List.mem_cons.mp (hperm.mem_iff.mp he) with rfl | hmem
                · exact absurd htn hother'
                · exact hmem
              -- the parent is not what has been freed
              have hne : r.parent ≠ t.inode := by
                intro heq
                have hself := ((view s).setData b buf).inode_dealloc_self t.inode
                rw [htslot.slotOf, ← hview, ← heq] at hself
                have hdir : ((view s').inode r.parent).isDir = true := hq'.2
                rw [hself, Sound.zero_isDir] at hdir
                cases hdir
              change e ∈ (view s').dirEntries r.parent
              rw [hview, (Volume.untouched_dealloc _ (by rwa [htslot.slotOf])).dirEntries_eq]
              exact hkeep
  · rcases h.call_untouched env hp hq.1 hpar with hun | ⟨r, -, -, -, hzero⟩
    · rw [hun.dirEntries_eq]
      exact he
    · have hdir := hq'.2
      rw [hzero, Sound.zero_isDir] at hdir
      cases hdir

end Settled

/-! ## What `read` and `stat` answer -/

/-- The bytes that `read` copies out of inode `x`. -/
def readContent (s : Fs) (x : EXT2Inode) (q : Request) : ℕ → BitVec 8 :=
  let bytesToRead := if q.size < x.i_size.toNat then q.size else x.i_size.toNat
  let acc := copyBlocks s bytesToRead ((List.range 12).map x.block) (0, q.buf)
  let acc :=
    if acc.1 < bytesToRead ∧ x.block 12 ≠ 0 then
      copyBlocks s bytesToRead ((List.range 128).map (tableEntry (readBlocks s (x.block 12)))) acc
    else acc
  acc.2

/-- `read` of an entry that names a file. -/
theorem Settled.read_entry (env : Env) (h : Settled (view s))
    (hd : ((view s).inode p).isDir = true) (he : e ∈ (view s).dirEntries p) {q : Request}
    (hp : q.parent = p) (hn : q.name = e.name) (hf : (inodeAt s e.inode).isDir = false) :
    read env s q = (0, readContent s (inodeAt s e.inode) q) := by
  have ht := h.target_slot hd he
  have hslot := isSlot_of_isDir hd
  unfold read
  rw [if_neg h.initialized_ne, hp, if_neg hslot.ne_zero, hn,
    h.find_entry env hd he]
  dsimp only
  rw [if_neg ht.ne_zero, h.readInode env ht]
  dsimp only
  rw [if_neg (by simp [hf])]
  rfl

/-- `stat` of an entry. -/
theorem Settled.stat_entry (env : Env) (h : Settled (view s))
    (hd : ((view s).inode p).isDir = true) (he : e ∈ (view s).dirEntries p) (null : Bool) :
    stat env s e.name null p =
      if null = true ∨ e.name.len = 0 then (-1, none)
      else (0, some ((inodeAt s e.inode).i_size, (inodeAt s e.inode).isDir)) := by
  have ht := h.target_slot hd he
  have hslot := isSlot_of_isDir hd
  unfold stat
  rw [if_neg h.initialized_ne]
  by_cases hnull : null = true ∨ e.name.len = 0
  · rw [if_pos (Or.inr hnull), if_pos hnull]
  · rw [if_neg (not_or.mpr ⟨hslot.ne_zero, hnull⟩), if_neg hnull,
      h.find_entry env hd he]
    dsimp only
    rw [if_neg ht.ne_zero, h.readInode env ht]

theorem copyBlocks_congr {total : ℕ} {bs : List ℕ}
    (h : ∀ b ∈ bs, b ≠ 0 → readBlocks s' b = readBlocks s b) :
    ∀ acc, copyBlocks s' total bs acc = copyBlocks s total bs acc := by
  induction bs with
  | nil => exact fun _ => rfl
  | cons b bs ih =>
      rintro ⟨done, out⟩
      rw [copyBlocks, copyBlocks]
      by_cases hb : done < total ∧ b ≠ 0
      · rw [if_pos hb, if_pos hb, h b List.mem_cons_self hb.2]
        exact ih (fun c hc => h c (List.mem_cons_of_mem b hc)) _
      · rw [if_neg hb, if_neg hb]

/-- The blocks of an untouched inode are read as before. -/
theorem Untouched.readBlocks_eq (hun : Untouched (view s) (view s') m) (h : Settled (view s))
    {j : ℕ} (hj : (view s).ptr m j ≠ 0) :
    readBlocks s' ((view s).ptr m j) = readBlocks s ((view s).ptr m j) := by
  obtain ⟨hge, hlt, -⟩ := h.sound.ptr_taken hj
  rw [readBlocks_data s' hge (by omega), readBlocks_data s hge (by omega)]
  exact hun.data j hj

theorem Untouched.readContent_eq (hun : Untouched (view s) (view s') m) (h : Settled (view s))
    (q : Request) :
    readContent s' (inodeAt s' m) q = readContent s (inodeAt s m) q := by
  have hinode : inodeAt s' m = inodeAt s m := hun.inode
  have hdirect : ∀ j < 13, (inodeAt s m).block j ≠ 0 →
      readBlocks s' ((inodeAt s m).block j) = readBlocks s ((inodeAt s m).block j) := by
    intro j hj h0
    have hptr : (view s).ptr m j = (inodeAt s m).block j := EXT2Inode.ptr_direct hj
    rw [← hptr] at h0 ⊢
    exact hun.readBlocks_eq h h0
  unfold readContent
  rw [hinode]
  dsimp only
  generalize (if q.size < (inodeAt s m).i_size.toNat then q.size
    else (inodeAt s m).i_size.toNat) = total
  have hblocks : ∀ acc, copyBlocks s' total ((List.range 12).map (inodeAt s m).block) acc =
      copyBlocks s total ((List.range 12).map (inodeAt s m).block) acc := by
    apply copyBlocks_congr
    intro b hb h0
    obtain ⟨j, hj, rfl⟩ := List.mem_map.mp hb
    exact hdirect j (by have := List.mem_range.mp hj; omega) h0
  rw [hblocks]
  by_cases h12 : (inodeAt s m).block 12 = 0
  · rw [if_neg (fun hc => hc.2 h12), if_neg (fun hc => hc.2 h12)]
  · rw [hdirect 12 (by decide) h12]
    split
    · apply congrArg Prod.snd
      apply copyBlocks_congr
      intro b hb h0
      obtain ⟨k, -, rfl⟩ := List.mem_map.mp hb
      -- an entry of the table is a place of the inode
      have hptr : (view s).ptr m (13 + k) =
          tableEntry (readBlocks s ((inodeAt s m).block 12)) k := by
        have hp12 : (view s).ptr m 12 = (inodeAt s m).block 12 := EXT2Inode.ptr_direct (by decide)
        obtain ⟨hge, hlt, -⟩ := h.sound.ptr_taken (hp12 ▸ h12 : (view s).ptr m 12 ≠ 0)
        rw [hp12] at hge hlt
        rw [Volume.ptr, EXT2Inode.ptr, if_neg (by omega), Nat.add_sub_cancel_left,
          readBlocks_data s hge (by omega)]
        exact if_neg h12
      rw [← hptr] at h0 ⊢
      exact hun.readBlocks_eq h h0
    · rfl

/-- A file without bytes is read as nothing, whatever it maps. -/
theorem readContent_empty {x : EXT2Inode} (h : x.i_size = 0) (q : Request) :
    readContent s x q = q.buf := by
  have hnone : ∀ bs acc, copyBlocks s 0 bs acc = acc := by
    intro bs acc
    cases bs with
    | nil => rfl
    | cons b bs => rw [copyBlocks, if_neg (by omega)]
  unfold readContent
  have hzero : (if q.size < x.i_size.toNat then q.size else x.i_size.toNat) = 0 := by
    rw [h, if_neg (by simp)]
    rfl
  simp only [hzero, hnone, Nat.not_lt_zero, false_and, if_false]

/-! ## Isolation -/

/-- Inode `n` is in use, and is no directory. -/
def Regular (s : Fs) (n : ℕ) : Prop := inodeUsed s n = true ∧ (inodeAt s n).isDir = false

/-- `read` and `stat` of `name` in directory `p` answer the same. -/
structure SameAnswers (env : Env) (s s' : Fs) (p : ℕ) (name : EntryName) : Prop where
  read : ∀ q : Request, q.parent = p → q.name = name → read env s' q = read env s q
  stat : ∀ null, stat env s' name null p = stat env s name null p

/-- The call is an accepted removal of a file, and inode `n` is what its name leads to. -/
def Frees (env : Env) (s : Fs) (c : Call) (n : ℕ) : Prop :=
  ∃ r, c = .delete r ∧ r.name_null = false ∧ r.name.len ≠ 0 ∧ r.is_directory = false ∧
    findEntryInDir env s r.parent r.name = n

theorem Settled.frees_iff (h : Settled (view s)) (hp : AllocatedDir s c.request.parent)
    (hn : Regular s n) : Freed env s c n ↔ Frees env s c n := by
  have hn0 : n ≠ 0 := by
    rintro rfl
    have hu := hn.1
    cases hu
  constructor
  · rintro ⟨r, rfl, hfind, hcode, -⟩
    change AllocatedDir s r.parent at hp
    rcases h.delete_outcome env hp with ⟨-, hres⟩ | ⟨hname, ⟨-, hres⟩ | ⟨e, -, -, hfe, hdel⟩⟩
    · rw [hres] at hcode
      cases hcode
    · rw [hres] at hcode
      cases hcode
    · have hkind : (inodeAt s e.inode).isDir = r.is_directory := by
        generalize Ext2.delete env s r = res at hdel hcode
        cases hdel with
        | kind => cases hcode
        | full => cases hcode
        | removed hrem _ =>
            have hk := hrem.kind
            have ht := (h.sound.dirs _ hrem.is_dir).targets e (mem_of_lookup hrem.found).1
            rwa [ht.slotOf] at hk
      rw [← hfe, hfind, hn.2] at hkind
      rw [not_or, Bool.not_eq_true] at hname
      exact ⟨r, rfl, hname.1, hname.2, hkind.symm, hfind⟩
  · rintro ⟨r, rfl, hnull, hlen, hdir, hfind⟩
    change AllocatedDir s r.parent at hp
    rcases h.delete_outcome env hp with
      ⟨hname, -⟩ | ⟨-, ⟨h0, -⟩ | ⟨e, he, -, hfe, hdel⟩⟩
    · rw [hnull] at hname
      exact absurd hname (by simp [hlen])
    · exact absurd (hfind.symm.trans h0) hn0
    · have ht := h.target_slot hp.2 he
      have hen : n = e.inode := hfind.symm.trans hfe
      refine ⟨r, rfl, hfind, ?_⟩
      rw [Call.run]
      generalize Ext2.delete env s r = res at hdel ⊢
      cases hdel with
      | kind hk =>
          rw [← hen, hn.2, hdir] at hk
          exact absurd rfl hk
      | full _ hd _ =>
          rw [hdir] at hd
          cases hd
      | @removed b buf s' _ hview =>
          refine ⟨rfl, ?_⟩
          have hself := ((view s).setData b buf).inode_dealloc_self e.inode
          rw [ht.slotOf, ← hview, ← hen] at hself
          exact hself

/-- **Files are isolated** exactly from the calls that do not free their inode.
Such a removal reaches a file under another name only through a `".."` entry
left behind, and leaves an empty file as it appears. -/
theorem isolation_iff (h : Reachable ProperCall s) (hc : ProperCall s c) (env : Env)
    (hp : AllocatedDir s p) (he : e ∈ (view s).dirEntries p)
    (hother : ¬ (p = c.request.parent ∧ e.name = c.request.name)) (hfile : Regular s e.inode)
    (hkeep : AllocatedDir (c.run env s).2 p) :
    (∀ env', SameAnswers env' s (c.run env s).2 p e.name) ↔
      ¬ Frees env s c e.inode ∨ (inodeAt s e.inode).i_size = 0 := by
  have hinv : Settled (view s) := reachable_settled (h.mono fun s c hc => hc.onDirectory)
  have hinv' : Settled (view (c.run env s).2) :=
    reachable_settled ((h.step env hc).mono fun s c hc => hc.onDirectory)
  have he' := hinv.call_keeps_entry env hc.1 hp hkeep he hother
  have hparent : e.inode ≠ c.request.parent := by
    intro heq
    have hd := hc.1.2
    rw [← heq, hfile.2] at hd
    cases hd
  have hout := hinv.call_untouched env hc.1 hfile.1 hparent
  constructor
  · intro hsame
    by_contra hno
    obtain ⟨hfrees, hsize⟩ := not_or.mp hno
    rw [not_not] at hfrees
    obtain ⟨r, rfl, hfind, -, hzero⟩ := (hinv.frees_iff hc.1 hfile).mpr hfrees
    -- the inode has one proper name, so the other one is `"."` or `".."`
    have hdots : ¬ e.name.Proper := by
      intro hn
      obtain ⟨held, htree⟩ := reachable_tree (h.mono fun s c hc => hc.treeCall)
      have h0 : findEntryInDir env s r.parent r.name ≠ 0 := by
        have hslot := hinv.target_slot hp.2 he
        rw [hfind]
        exact ne_of_gt hslot.1
      obtain ⟨t, ht, htn, hft⟩ := hinv.found_entry hc.1.2 h0
      obtain ⟨hpq, het⟩ := htree.intact.once p r.parent e t ⟨hp, he, hn⟩
        ⟨hc.1, ht, htn ▸ hc.2⟩ (hfind.symm.trans hft)
      exact hother ⟨hpq, het ▸ htn⟩
    have hlen : e.name.len ≠ 0 := by
      unfold EntryName.Proper at hdots
      rcases not_and_or.mp hdots with hn | hn
      · rw [not_not.mp hn]
        decide
      · rw [not_not.mp hn]
        decide
    have hstat := (hsame env).stat false
    rw [hinv.stat_entry env hp.2 he, hinv'.stat_entry env hkeep.2 he', if_neg (by simp [hlen]),
      if_neg (by simp [hlen]), hzero] at hstat
    simp only [Prod.mk.injEq, Option.some.injEq, true_and] at hstat
    exact hsize hstat.1.symm
  · intro hcond env'
    -- as far as the answers go, the inode is the same
    have hsame : (inodeAt (c.run env s).2 e.inode).isDir = false ∧
        (inodeAt (c.run env s).2 e.inode).i_size = (inodeAt s e.inode).i_size ∧
        ∀ q, readContent (c.run env s).2 (inodeAt (c.run env s).2 e.inode) q =
          readContent s (inodeAt s e.inode) q := by
      rcases hout with hun | hfreed
      · have hinode : inodeAt (c.run env s).2 e.inode = inodeAt s e.inode := hun.inode
        exact ⟨hinode ▸ hfile.2, congrArg EXT2Inode.i_size hinode, hun.readContent_eq hinv⟩
      · have hsize := hcond.resolve_left (not_not.mpr ((hinv.frees_iff hc.1 hfile).mp hfreed))
        obtain ⟨r, rfl, -, -, hzero⟩ := hfreed
        rw [hzero]
        refine ⟨Sound.zero_isDir, hsize.symm, fun q => ?_⟩
        rw [readContent_empty hsize, readContent_empty (show EXT2Inode.zero.i_size = 0 from rfl)]
    obtain ⟨hdir, hsize, hcontent⟩ := hsame
    constructor
    · intro q hqp hqn
      rw [hinv.read_entry env' hp.2 he hqp hqn hfile.2,
        hinv'.read_entry env' hkeep.2 he' hqp hqn hdir, hcontent]
    · intro null
      rw [hinv.stat_entry env' hp.2 he, hinv'.stat_entry env' hkeep.2 he', hdir, hsize, hfile.2]

/-- Writing a second file leaves the first one as it is. -/
theorem isolation_second_file :
    stat .zero (runCalls [smallFile, .write (.file 2 (.letter 0x62) [])] freshFs) (.letter 0x61)
      false 2 = stat .zero (smallFile.run .zero freshFs).2 (.letter 0x61) false 2 := by
  have hrun : allProper [smallFile] freshFs = true ∧
      ProperCall (runCalls [smallFile] freshFs) (.write (.file 2 (.letter 0x62) [])) ∧
      findEntryInDir .zero (runCalls [smallFile] freshFs) 2 (.letter 0x61) = 12 ∧
      inodeUsed (runCalls [smallFile] freshFs) 12 = true ∧
      (inodeAt (runCalls [smallFile] freshFs) 12).isDir = false := by
    decide +kernel
  obtain ⟨hproper, hcall, hfind, hused, hfile⟩ := hrun
  have hreach := (Reachable.fresh ProperCall).runCalls hproper
  rw [runCalls_cons, runCalls_cons, runCalls_nil]
  rw [runCalls_cons, runCalls_nil] at hcall hfind hused hfile hreach
  generalize (smallFile.run .zero freshFs).2 = s at *
  have hinv : Settled (view s) := reachable_settled (hreach.mono fun s c hc => hc.onDirectory)
  have hroot : AllocatedDir s 2 := hcall.1
  obtain ⟨e, he, hname, hinode⟩ := hinv.found_entry hroot.2
    (show findEntryInDir .zero s 2 (.letter 0x61) ≠ 0 by rw [hfind]; decide)
  rw [← hname]
  have hslot : e.inode = 12 := hinode.symm.trans hfind
  have hkeep := hinv.write_allocatedDir .zero (r := .file 2 (.letter 0x62) []) hroot hroot
  have hiff := isolation_iff hreach hcall .zero hroot he
    (fun hsame => absurd (hname.symm.trans hsame.2) (by decide))
    (by rw [hslot]; exact ⟨hused, hfile⟩) hkeep
  refine ((hiff.mpr (Or.inl ?_)) .zero).stat false
  rintro ⟨r, hr, -⟩
  cases hr

/-- A directory whose parent is crowded is left behind by the call that makes
it. The parent is then removed, and its inode taken by a file. -/
def staleDotdot : List Call :=
  .write (.folder 2 (.letter 0x71)) ::
    ((List.range 12).map fun k => .write (.file 12 (.long k) [])) ++
  .write (.folder 12 (.long 12)) ::
    ((List.range 12).map fun k => .delete (.file 12 (.long k) [])) ++
  [.delete (.folder 2 (.letter 0x71)), .write (.file 2 (.letter 0x66) [1, 2, 3])]

/-- The removal of that file. -/
def dropFile : Call := .delete (.file 2 (.letter 0x66) [])

/-- Removing the file under its own name changes what its other name answers. -/
theorem delete_changes_stale_name :
    Reachable ProperCall (runCalls staleDotdot freshFs) ∧
      ProperCall (runCalls staleDotdot freshFs) dropFile ∧
      AllocatedDir (runCalls staleDotdot freshFs) 25 ∧
      AllocatedDir (dropFile.run .zero (runCalls staleDotdot freshFs)).2 25 ∧
      (∃ e ∈ (view (runCalls staleDotdot freshFs)).dirEntries 25,
        e.name = .dotdot ∧ Regular (runCalls staleDotdot freshFs) e.inode) ∧
      stat .zero (runCalls staleDotdot freshFs) .dotdot false 25 = (0, some (3, false)) ∧
      stat .zero (dropFile.run .zero (runCalls staleDotdot freshFs)).2 .dotdot false 25 =
        (0, some (0, false)) := by
  have hrun : allProper staleDotdot freshFs = true ∧
      ProperCall (runCalls staleDotdot freshFs) dropFile ∧
      AllocatedDir (runCalls staleDotdot freshFs) 25 ∧
      AllocatedDir (dropFile.run .zero (runCalls staleDotdot freshFs)).2 25 ∧
      findEntryInDir .zero (runCalls staleDotdot freshFs) 25 .dotdot = 12 ∧
      (inodeUsed (runCalls staleDotdot freshFs) 12 = true ∧
        (inodeAt (runCalls staleDotdot freshFs) 12).isDir = false) ∧
      stat .zero (runCalls staleDotdot freshFs) .dotdot false 25 = (0, some (3, false)) ∧
      stat .zero (dropFile.run .zero (runCalls staleDotdot freshFs)).2 .dotdot false 25 =
        (0, some (0, false)) := by
    decide +kernel
  obtain ⟨hproper, hcall, hd, hd', hfind, hfile, hbefore, hafter⟩ := hrun
  have hreach := (Reachable.fresh ProperCall).runCalls hproper
  generalize runCalls staleDotdot freshFs = s at *
  have hinv : Settled (view s) := reachable_settled (hreach.mono fun s c hc => hc.onDirectory)
  obtain ⟨e, he, hname, hinode⟩ := hinv.found_entry hd.2
    (show findEntryInDir .zero s _ .dotdot ≠ 0 by rw [hfind]; decide)
  refine ⟨hreach, hcall, hd, hd', ⟨e, he, hname, ?_⟩, hbefore, hafter⟩
  rw [show e.inode = 12 from hinode.symm.trans hfind]
  exact hfile

end RendangOS.Ext2
