import RendangOS.Ext2.ScanTrace

/-!
# Scans of tiled blocks

In every run the blocks of the directories stay tiled. A scan of such a block passes
its records in order, stays in the block, and ends exactly with it.
-/

namespace RendangOS.Ext2

open Image RecordChain RecordScan

variable {w : ℕ} {buf : BitVec w} {name : EntryName} {o : ℕ} {prev : Option ℕ}

/-- The record at `o` holds its header and its name, and ends in the block. -/
structure RecordFits (buf : BitVec w) (o : ℕ) : Prop where
  need : getEntryRecordLen (entNameLen buf o) ≤ entRecLen buf o
  ends : o + entRecLen buf o ≤ blockSize

theorem compared_le : ∀ (xs ys : List (BitVec 8)), compared xs ys ≤ ys.length
  | [], _ => Nat.zero_le _
  | _ :: _, [] => Nat.zero_le _
  | x :: xs, y :: ys => by
      rw [compared_cons, List.length_cons]
      have := compared_le xs ys
      split <;> omega

theorem RecordFits.bound (h : RecordFits buf o) : o + 8 + entNameLen buf o ≤ blockSize := by
  have hneed := h.need
  have hends := h.ends
  have := recordLen_ge (entNameLen buf o)
  omega

theorem RecordFits.look (h : RecordFits buf o) : ∀ a ∈ lookReads buf name o,
    a.Inside blockSize := by
  have hbound := h.bound
  intro a ha
  apply Span.inside_of_le
  unfold lookReads at ha
  rcases List.mem_cons.mp ha with rfl | ha
  · change o + 6 ≤ blockSize
    omega
  split at ha
  · cases ha
  rcases List.mem_cons.mp ha with rfl | ha
  · change o + 4 ≤ blockSize
    omega
  split at ha
  · cases ha
  rcases List.mem_cons.mp ha with rfl | ha
  · change o + 7 ≤ blockSize
    omega
  split at ha
  · next hlen =>
    rw [List.mem_singleton] at ha
    subst ha
    have hcmp := compared_le (getEntryName buf o name.len) name.bytes
    change o + 8 + compared (getEntryName buf o name.len) name.bytes ≤ blockSize
    rw [hlen, EntryName.len] at hbound
    omega
  · cases ha

theorem RecordFits.removal (h : RecordFits buf o) (hprev : ∀ p ∈ prev, RecordFits buf p) :
    (removeTurn buf name prev o).Inside blockSize := by
  have hback : ∀ p, RecordFits buf p → (recLenSpan p).Inside blockSize := by
    intro p hp
    have := hp.bound
    exact recLenSpan_inside.mpr (by omega)
  intro a ha
  rcases List.mem_append.mp ha with hread | hwrite
  · rcases List.mem_append.mp hread with hlook | hlast
    · exact h.look a hlook
    · split at hlast
      · obtain ⟨p, hp, rfl⟩ := Option.map_eq_some_iff.mp (Option.mem_toList.mp hlast)
        exact hback p (hprev p hp)
      · cases hlast
  · unfold removeTurn at hwrite
    dsimp only at hwrite
    split at hwrite
    · rw [List.mem_singleton] at hwrite
      cases hp : prev with
      | none =>
          rw [hp] at hwrite
          obtain rfl : a = inodeSpan o := hwrite
          have := h.bound
          exact inodeSpan_inside.mpr (by omega)
      | some p =>
          rw [hp] at hwrite
          obtain rfl : a = recLenSpan p := hwrite
          exact hback p (hprev p hp)
    · cases hwrite

/-- A new entry in the slack of the record ends where the record ended. -/
theorem RecordFits.addition (h : RecordFits buf o) :
    (addTurn buf name prev o).Inside blockSize := by
  have hbound := h.bound
  intro a ha
  apply Span.inside_of_le
  unfold addTurn entrySpans at ha
  dsimp only at ha
  rcases List.mem_append.mp ha with hread | hwrite
  · simp only [List.mem_cons, List.not_mem_nil, or_false] at hread
    rcases hread with rfl | rfl
    · change o + 7 ≤ blockSize
      omega
    · change o + 6 ≤ blockSize
      omega
  · split at hwrite
    · next hslack =>
      have hfit := of_decide_eq_true hslack
      have hends := h.ends
      have hname := recordLen_ge name.len
      simp only [List.mem_cons, List.not_mem_nil, or_false] at hwrite
      simp only [inodeSpan, nameLenSpan, fileTypeSpan, recLenSpan, nameSpan] at hwrite
      rcases hwrite with rfl | rfl | rfl | rfl | rfl | rfl <;> dsimp only <;> omega
    · cases hwrite

/-- A block is a chain of records: `rec_len` is no less than the name needs, and a
multiple of 4, and the last record ends with the block. -/
structure ExactlyTiled (buf : Block) (ls : List ℕ) : Prop where
  sum : ls.sum = blockSize
  record : ∀ k (hk : k < ls.length), entRecLen buf (ls.take k).sum = ls[k] ∧ ls[k] ≠ 0 ∧
    4 ∣ ls[k] ∧ getEntryRecordLen (entNameLen buf (ls.take k).sum) ≤ ls[k]

/-- The scan visits records of the chain in order, stays in the block, and returns or
ends with the block. -/
structure ScanInOrder (buf : BitVec w) (t : Trace) : Prop where
  chain : t.visits <+: recordOffsets buf 0
  once : t.visits.Pairwise (· < ·)
  inside : t.Inside blockSize
  exit : t.exit = .returned ∨ t.exit = .behind blockSize

theorem Tiles.exactly {buf : Block} : ∀ {rs : List (Rec DirEntry)} {d : ℕ}, Tiles buf d rs →
    d + (rs.map Rec.len).sum = blockSize ∧ ∀ k (hk : k < (rs.map Rec.len).length),
      entRecLen buf (d + ((rs.map Rec.len).take k).sum) = (rs.map Rec.len)[k] ∧
      (rs.map Rec.len)[k] ≠ 0 ∧ 4 ∣ (rs.map Rec.len)[k] ∧
      getEntryRecordLen (entNameLen buf (d + ((rs.map Rec.len).take k).sum)) ≤
        (rs.map Rec.len)[k]
  | [], d, h => ⟨h, fun k hk => absurd hk (Nat.not_lt_zero k)⟩
  | r :: rs, d, h => by
      obtain ⟨h8, hneed, hle⟩ := h.head
      obtain ⟨hr, -, hdvd, htail⟩ := h
      obtain ⟨hsum, hrecords⟩ := htail.exactly
      rw [List.map_cons, List.sum_cons]
      refine ⟨by rw [← hsum]; omega, ?_⟩
      intro k hk
      cases k with
      | zero =>
          have hlen : entRecLen buf d = r.len := congrArg Rec.len hr
          have hname : getEntryRecordLen (entNameLen buf d) = r.need := congrArg Rec.need hr
          exact ⟨hlen, by rw [List.getElem_cons_zero]; omega, hdvd, hname ▸ hneed⟩
      | succ k =>
          rw [List.take_succ_cons, List.sum_cons, ← Nat.add_assoc]
          exact hrecords k (Nat.lt_of_succ_lt_succ hk)

theorem Tiles.fits {buf : BitVec w} : ∀ {rs : List (Rec DirEntry)} {fuel d : ℕ},
    Tiles buf d rs → ∀ o ∈ offsets blockSize (entRecLen buf) fuel d, RecordFits buf o
  | _, 0, _, _, _, ho => by cases ho
  | [], fuel + 1, d, h, o, ho => by
      have hd : ¬ d < blockSize := by
        rw [show d = blockSize from h]
        exact lt_irrefl _
      rw [offsets_behind hd] at ho
      cases ho
  | r :: rs, fuel + 1, d, h, o, ho => by
      obtain ⟨h8, hneed, hle⟩ := h.head
      obtain ⟨hr, -, -, htail⟩ := h
      have hlen : entRecLen buf d = r.len := congrArg Rec.len hr
      have hname : getEntryRecordLen (entNameLen buf d) = r.need := congrArg Rec.need hr
      rw [offsets_step (by rw [blockSize]; omega), hlen, if_neg (by omega)] at ho
      rcases List.mem_cons.mp ho with rfl | hrest
      · exact ⟨by rw [hlen, hname]; exact hneed, by rw [hlen, blockSize]; exact hle⟩
      · exact htail.fits o hrest

theorem Tiles.fills {buf : BitVec w} : ∀ {rs : List (Rec DirEntry)} {d : ℕ},
    Tiles buf d rs → Fills blockSize (entRecLen buf) d
  | [], d, h => by
      rw [show d = blockSize from h]
      exact .done
  | r :: rs, d, h => by
      obtain ⟨h8, hneed, hle⟩ := h.head
      obtain ⟨hr, -, -, htail⟩ := h
      have hlen : entRecLen buf d = r.len := congrArg Rec.len hr
      exact .record (by rw [blockSize]; omega) (by omega) (by rw [hlen]; exact htail.fills)

/-- A scan of a tiled block. -/
theorem Tiles.inOrder {buf : BitVec w} {rs : List (Rec DirEntry)} (h : Tiles buf 0 rs)
    {turn : Option ℕ → ℕ → Turn} {stop : ℕ → Bool} (hf : Follows turn (entRecLen buf) stop)
    (hturn : ∀ prev o, (∀ p ∈ prev, RecordFits buf p) → RecordFits buf o →
      (turn prev o).Inside blockSize) : ScanInOrder buf (traceFrom turn 0) where
  chain := scan_visits hf
  once := offsets_sorted.sublist (scan_visits hf).sublist
  inside := scan_inside_of hf hturn nofun h.fits
  exit := scan_filled hf h.fills (Nat.le_add_left ..)

/-- **Directory blocks stay exactly tiled**, and so the scans that look up, insert and
remove entries never leave them. -/
theorem directories_exactly_tiled {s : Fs} {p i : ℕ} (h : Reachable OnDirectory s)
    (hd : AllocatedDir s p) (hi : i < 12) (hb : (inodeAt s p).block i ≠ 0) :
    (∃ ls, ExactlyTiled (readBlocks s ((inodeAt s p).block i)) ls) ∧
      ∀ env s' name,
        ScanInOrder (frame env s' (readBlocks s ((inodeAt s p).block i)))
          (findTrace name (frame env s' (readBlocks s ((inodeAt s p).block i)))) ∧
        ScanInOrder (frame env s' (readBlocks s ((inodeAt s p).block i)))
          (addTrace name (frame env s' (readBlocks s ((inodeAt s p).block i)))) ∧
        ScanInOrder (frame env s' (readBlocks s ((inodeAt s p).block i)))
          (removeTrace name (frame env s' (readBlocks s ((inodeAt s p).block i)))) := by
  have hs : Settled (view s) := reachable_settled h
  have hmem : (inodeAt s p).block i ∈ (view s).dirBlocks p := by
    obtain ⟨K, hK, heq, -, hzero⟩ := ((view s).inode p).dirBlocks_eq
    rw [Volume.dirBlocks, heq]
    apply List.mem_map_of_mem
    rw [List.mem_range]
    by_contra hle
    exact hb ((hs.sound.dirs p hd.2).contiguous K i (by omega) hi (hzero (by omega)))
  have hdata : readBlocks s ((inodeAt s p).block i) = (view s).data ((inodeAt s p).block i) :=
    readBlocks_dir (hs.sound.shape hd.2) hmem
  have htiles := (hs.sound.shape hd.2).tiled _ hmem
  rw [hdata]
  constructor
  · obtain ⟨hsum, hrecords⟩ := htiles.exactly
    rw [Nat.zero_add] at hsum
    refine ⟨_, hsum, fun k hk => ?_⟩
    have hrecord := hrecords k hk
    rwa [Nat.zero_add] at hrecord
  · intro env s' name
    have hframe : Tiles (frame env s' ((view s).data ((inodeAt s p).block i))) 0 _ :=
      tiles_frame htiles
    refine ⟨hframe.inOrder (find_follows _ name) ?_, hframe.inOrder (add_follows _ name) ?_,
      hframe.inOrder (remove_follows _ name) ?_⟩
    · intro prev o _ ho a ha
      rw [findTurn, List.append_nil] at ha
      exact ho.look a ha
    · intro prev o _ ho
      exact ho.addition
    · intro prev o hprev ho
      exact ho.removal hprev

theorem directories_exactly_tiled_smallFile :
    ∃ ls, ExactlyTiled (readBlocks (smallFile.run .zero freshFs).2
      ((inodeAt (smallFile.run .zero freshFs).2 2).block 0)) ls := by
  have hroot : AllocatedDir freshFs 2 ∧ AllocatedDir (smallFile.run .zero freshFs).2 2 ∧
      (inodeAt (smallFile.run .zero freshFs).2 2).block 0 ≠ 0 := by
    decide +kernel
  obtain ⟨hfresh, hd, hb⟩ := hroot
  have hreach : Reachable OnDirectory (smallFile.run .zero freshFs).2 :=
    (Reachable.fresh OnDirectory).step .zero hfresh
  exact (directories_exactly_tiled hreach hd (by decide) hb).1

end RendangOS.Ext2
