import RendangOS.Ext2.ScanTrace

/-!
# Scans of blocks of any content

On a block that need not be tiled a scan leaves the buffer just when one of the
records it passes has a field behind the end, which `rec_len` can bring about.
-/

namespace RendangOS.Ext2

open Image RecordChain RecordScan

variable {w w' : ℕ} {buf : BitVec w} {x : BitVec w} {y : BitVec w'} {name : EntryName} {o : ℕ}

/-- The scans end, and touch the bytes of the block buffer only. -/
def Harmless (ts : List Trace) : Prop :=
  ∀ t ∈ ts, t.exit ≠ .running ∧ t.Inside blockSize

/-- The four functions on a directory with these blocks, and the entry that
`add_entry_to_dir` writes into a new one. -/
structure ScansHarmless (bs : List (BitVec w)) (name : EntryName) : Prop where
  find : Harmless (findScans bs name)
  remove : Harmless (removeScans bs name)
  add : Harmless (addScans bs name)
  add_block : ∀ a ∈ entrySpans name 0, a.Inside blockSize
  empty : Harmless (emptyScans bs)

/-- Block `i` has the length of its first record where `get_dir_first_child_offset`
looks for it, and the fields that `is_directory_empty` looks at. -/
structure EmptyFits (buf : BitVec w) (i : ℕ) : Prop where
  first : i = 0 → entRecLen buf 0 ≠ 0 → entRecLen buf 0 + 6 ≤ blockSize
  records : ∀ o ∈ upTo (occupied buf)
      (recordOffsets buf (if i = 0 then firstChildOffset buf else 0)),
    o + 6 ≤ blockSize

/-- The records of each block, up to the first at which the function returns, have
their fields in the block, as far as they are looked at. -/
structure ScansFit (bs : List Block) (name : EntryName) : Prop where
  look : ∀ b ∈ upTo (fun b => (recordOffsets b 0).any (found b name)) bs,
    ∀ o ∈ upTo (found b name) (recordOffsets b 0), LookFits b name o
  add : ∀ b ∈ upTo (fun b => (recordOffsets b 0).any (slack b name)) bs,
    ∀ o ∈ upTo (slack b name) (recordOffsets b 0), AddFits b name o
  empty : ∀ i ∈ upTo (fun i => (recordOffsets i.1 (if i.2 = 0 then firstChildOffset i.1 else 0)).any
    (occupied i.1)) bs.zipIdx, EmptyFits i.1 i.2

theorem traceFrom_ends {turn : Option ℕ → ℕ → Turn} {stop : ℕ → Bool}
    (hf : Follows turn (entRecLen buf) stop) (start : ℕ) :
    (traceFrom turn start).exit ≠ .running := scan_ends hf (Nat.le_add_left ..)

theorem harmless_iff {ts : List Trace} (h : ∀ t ∈ ts, t.exit ≠ .running) :
    Harmless ts ↔ ∀ t ∈ ts, t.Inside blockSize :=
  forall₂_congr fun t ht => and_iff_right (h t ht)

theorem findTrace_inside (hlen : name.len ≠ 0) : (findTrace name buf).Inside blockSize ↔
    ∀ o ∈ upTo (found buf name) (recordOffsets buf 0), LookFits buf name o :=
  scan_inside_iff (find_follows buf name) (fun _ _ _ => findTurn_inside hlen) nofun

theorem removeTrace_inside (hlen : name.len ≠ 0) : (removeTrace name buf).Inside blockSize ↔
    ∀ o ∈ upTo (found buf name) (recordOffsets buf 0), LookFits buf name o :=
  scan_inside_iff (remove_follows buf name) (fun _ _ h => removeTurn_inside hlen h) nofun

theorem addTrace_inside (hlen : name.len ≠ 0) : (addTrace name buf).Inside blockSize ↔
    ∀ o ∈ upTo (slack buf name) (recordOffsets buf 0), AddFits buf name o :=
  scan_inside_iff (add_follows buf name) (fun _ _ _ => addTurn_inside hlen) nofun

theorem findTrace_congr (h : Agree x y 0 4096) (hlen : name.len ≠ 0)
    (hin : (findTrace name x).Inside blockSize) : findTrace name y = findTrace name x :=
  scan_congr (fun _ _ ht => findTurn_congr h ((findTurn_inside hlen).mp ht)) hin

theorem removeTrace_congr (h : Agree x y 0 4096) (hlen : name.len ≠ 0)
    (hin : (removeTrace name x).Inside blockSize) : removeTrace name y = removeTrace name x := by
  refine scan_congr (fun _ _ ht => removeTurn_congr h ((lookReads_inside hlen).mp ?_)) hin
  intro a ha
  exact ht a (List.mem_append_left _ (List.mem_append_left _ ha))

theorem addTrace_congr (h : Agree x y 0 4096) (hlen : name.len ≠ 0)
    (hin : (addTrace name x).Inside blockSize) : addTrace name y = addTrace name x :=
  scan_congr (fun _ _ ht => addTurn_congr h ((addTurn_inside hlen).mp ht)) hin

theorem firstChild_inside : (∀ a ∈ firstChildReads buf, a.Inside blockSize) ↔
    (entRecLen buf 0 ≠ 0 → entRecLen buf 0 + 6 ≤ blockSize) := by
  unfold firstChildReads
  rw [List.forall_mem_cons, recLenSpan_inside]
  by_cases h0 : entRecLen buf 0 = 0
  · rw [if_pos h0]
    exact iff_of_true ⟨by decide, fun a ha => by cases ha⟩ fun h => absurd h0 h
  · rw [if_neg h0, List.forall_mem_singleton, recLenSpan_inside]
    exact ⟨fun h _ => h.2, fun h => ⟨by decide, h h0⟩⟩

theorem firstChild_congr (h : Agree x y 0 4096)
    (hfit : entRecLen x 0 ≠ 0 → entRecLen x 0 + 6 ≤ blockSize) :
    firstChildOffset y = firstChildOffset x ∧ firstChildReads y = firstChildReads x := by
  have hrec : ∀ o, o + 6 ≤ blockSize → entRecLen y o = entRecLen x o := by
    intro o ho
    rw [blockSize] at ho
    exact (congrArg BitVec.toNat (h.extract (Nat.zero_le _) (by omega))).symm
  have h0 := hrec 0 (by decide)
  unfold firstChildOffset firstChildReads
  rw [h0]
  by_cases hzero : entRecLen x 0 = 0
  · rw [if_pos hzero, if_pos hzero, if_pos hzero]
    exact ⟨rfl, rfl⟩
  · rw [if_neg hzero, if_neg hzero, if_neg hzero, hrec _ (hfit hzero)]
    exact ⟨rfl, rfl⟩

theorem emptyTrace_inside {i : ℕ} : (emptyTrace buf i).Inside blockSize ↔ EmptyFits buf i := by
  have hscan : (traceFrom (emptyTurn buf) (if i = 0 then firstChildOffset buf else 0)).Inside
        blockSize ↔
      ∀ o ∈ upTo (occupied buf) (recordOffsets buf (if i = 0 then firstChildOffset buf else 0)),
        o + 6 ≤ blockSize :=
    scan_inside_iff (empty_follows buf) (fun _ _ _ => emptyTurn_inside) nofun
  have hsplit : (emptyTrace buf i).Inside blockSize ↔
      (∀ a ∈ if i = 0 then firstChildReads buf else [], a.Inside blockSize) ∧
      (traceFrom (emptyTurn buf) (if i = 0 then firstChildOffset buf else 0)).Inside blockSize := by
    unfold emptyTrace Trace.Inside
    dsimp only
    rw [List.append_assoc, List.forall_mem_append]
  rw [hsplit]
  constructor
  · rintro ⟨hfirst, hrest⟩
    refine ⟨fun hi => ?_, hscan.mp hrest⟩
    rw [if_pos hi] at hfirst
    exact firstChild_inside.mp hfirst
  · rintro ⟨hfirst, hrest⟩
    refine ⟨?_, hscan.mpr hrest⟩
    by_cases hi : i = 0
    · rw [if_pos hi]
      exact firstChild_inside.mpr (hfirst hi)
    · rw [if_neg hi]
      exact fun a ha => by cases ha

theorem emptyTrace_congr {i : ℕ} (h : Agree x y 0 4096)
    (hin : (emptyTrace x i).Inside blockSize) : emptyTrace y i = emptyTrace x i := by
  have hfit := emptyTrace_inside.mp hin
  have hscan : (traceFrom (emptyTurn x) (if i = 0 then firstChildOffset x else 0)).Inside
      blockSize := by
    intro a ha
    rcases List.mem_append.mp ha with hread | hwrite
    · exact hin a (List.mem_append_left _ (List.mem_append_right _ hread))
    · exact hin a (List.mem_append_right _ hwrite)
  have htrace : ∀ start, (traceFrom (emptyTurn x) start).Inside blockSize →
      traceFrom (emptyTurn y) start = traceFrom (emptyTurn x) start := fun _ =>
    scan_congr fun _ _ ht => emptyTurn_congr h (emptyTurn_inside.mp ht)
  unfold emptyTrace
  by_cases hi : i = 0
  · obtain ⟨hoff, hreads⟩ := firstChild_congr h (hfit.first hi)
    rw [if_pos hi] at hscan
    rw [if_pos hi, if_pos hi, if_pos hi, if_pos hi, hoff, hreads, htrace _ hscan]
  · rw [if_neg hi] at hscan
    rw [if_neg hi, if_neg hi, if_neg hi, if_neg hi, htrace _ hscan]

theorem harmless_upTo {α : Type*} {trace trace' : α → Trace} {halts : α → Bool}
    {fits : α → Prop} (hsame : ∀ a, (trace a).Inside blockSize → trace' a = trace a)
    (hsame' : ∀ a, (trace' a).Inside blockSize → trace a = trace' a)
    (hfits : ∀ a, (trace a).Inside blockSize ↔ fits a)
    (hhalts : ∀ a, (trace a).exit = .returned ↔ halts a = true)
    (hends : ∀ a, (trace' a).exit ≠ .running) (as : List α) :
    Harmless (upTo returned (as.map trace')) ↔ ∀ a ∈ upTo halts as, fits a := by
  rw [harmless_iff]
  · exact scans_inside_iff hsame hsame' hfits hhalts as
  · intro t ht
    obtain ⟨a, -, rfl⟩ := List.mem_map.mp (mem_of_mem_upTo ht)
    exact hends a

section AnyContent

variable (env : Env) (s : Fs) (bs : List Block)

theorem findScans_harmless (hlen : name.len ≠ 0) :
    Harmless (findScans (bs.map (frame env s)) name) ↔
      ∀ b ∈ upTo (fun b => (recordOffsets b 0).any (found b name)) bs,
        ∀ o ∈ upTo (found b name) (recordOffsets b 0), LookFits b name o := by
  rw [findScans, List.map_map]
  exact harmless_upTo (fun b => findTrace_congr (agree_frame env s b).symm hlen)
    (fun b => findTrace_congr (agree_frame env s b) hlen) (fun _ => findTrace_inside hlen)
    (fun b => scan_returned_iff (find_follows b name))
    (fun b => traceFrom_ends (find_follows (frame env s b) name) 0) bs

theorem removeScans_harmless (hlen : name.len ≠ 0) :
    Harmless (removeScans (bs.map (frame env s)) name) ↔
      ∀ b ∈ upTo (fun b => (recordOffsets b 0).any (found b name)) bs,
        ∀ o ∈ upTo (found b name) (recordOffsets b 0), LookFits b name o := by
  rw [removeScans, List.map_map]
  exact harmless_upTo (fun b => removeTrace_congr (agree_frame env s b).symm hlen)
    (fun b => removeTrace_congr (agree_frame env s b) hlen) (fun _ => removeTrace_inside hlen)
    (fun b => scan_returned_iff (remove_follows b name))
    (fun b => traceFrom_ends (remove_follows (frame env s b) name) 0) bs

theorem addScans_harmless (hlen : name.len ≠ 0) :
    Harmless (addScans (bs.map (frame env s)) name) ↔
      ∀ b ∈ upTo (fun b => (recordOffsets b 0).any (slack b name)) bs,
        ∀ o ∈ upTo (slack b name) (recordOffsets b 0), AddFits b name o := by
  rw [addScans, List.map_map]
  exact harmless_upTo (fun b => addTrace_congr (agree_frame env s b).symm hlen)
    (fun b => addTrace_congr (agree_frame env s b) hlen) (fun _ => addTrace_inside hlen)
    (fun b => scan_returned_iff (add_follows b name))
    (fun b => traceFrom_ends (add_follows (frame env s b) name) 0) bs

theorem emptyScans_harmless : Harmless (emptyScans (bs.map (frame env s))) ↔
    ∀ i ∈ upTo (fun i => (recordOffsets i.1
      (if i.2 = 0 then firstChildOffset i.1 else 0)).any (occupied i.1)) bs.zipIdx,
      EmptyFits i.1 i.2 := by
  have hsame : ∀ i : Block × ℕ, (emptyTrace i.1 i.2).Inside blockSize →
      emptyTrace (frame env s i.1) i.2 = emptyTrace i.1 i.2 := fun i =>
    emptyTrace_congr (agree_frame env s i.1).symm
  have hsame' : ∀ i : Block × ℕ, (emptyTrace (frame env s i.1) i.2).Inside blockSize →
      emptyTrace i.1 i.2 = emptyTrace (frame env s i.1) i.2 := fun i =>
    emptyTrace_congr (agree_frame env s i.1)
  have hhalts : ∀ i : Block × ℕ, (emptyTrace i.1 i.2).exit = .returned ↔
      (recordOffsets i.1 (if i.2 = 0 then firstChildOffset i.1 else 0)).any (occupied i.1) =
        true := fun i => scan_returned_iff (empty_follows i.1)
  have hends : ∀ i : Block × ℕ, (emptyTrace (frame env s i.1) i.2).exit ≠ .running := fun i =>
    traceFrom_ends (empty_follows (frame env s i.1)) _
  rw [emptyScans, List.zipIdx_map, List.map_map]
  exact harmless_upTo hsame hsame' (fun i => emptyTrace_inside) hhalts hends bs.zipIdx

end AnyContent

/-- **Directory scans are safe** on blocks of any content, whatever lies behind the
buffer, just when the records they look at have their fields in the block. -/
theorem scans_harmless_iff (bs : List Block) (hlen : name.len ≠ 0) :
    (∀ env s, ScansHarmless (bs.map (frame env s)) name) ↔ ScansFit bs name := by
  constructor
  · intro h
    have hzero := h .zero freshFs
    exact ⟨(findScans_harmless _ _ bs hlen).mp hzero.find,
      (addScans_harmless _ _ bs hlen).mp hzero.add, (emptyScans_harmless _ _ bs).mp hzero.empty⟩
  · intro h env s
    have hname := name.bound
    have hnew : ∀ a ∈ entrySpans name 0, a.Inside blockSize := by
      apply (entrySpans_inside hlen).mpr
      rw [blockSize, EntryName.len]
      omega
    exact ⟨(findScans_harmless env s bs hlen).mpr h.look,
      (removeScans_harmless env s bs hlen).mpr h.look, (addScans_harmless env s bs hlen).mpr h.add,
      hnew, (emptyScans_harmless env s bs).mpr h.empty⟩

instance (buf : BitVec w) (name : EntryName) : DecidablePred (LookFits buf name) := fun o => by
  unfold LookFits
  infer_instance

instance (buf : BitVec w) (name : EntryName) : DecidablePred (AddFits buf name) := fun o => by
  unfold AddFits
  infer_instance

/-- A block of zeros ends every scan at its first record. -/
theorem scans_harmless_zero :
    ScansHarmless ([(0 : Block)].map (frame .zero freshFs)) (.letter 0x61) := by
  refine (scans_harmless_iff [(0 : Block)] (by decide)).mpr ⟨?_, ?_, ?_⟩ .zero freshFs
  · intro b hb
    obtain rfl := List.mem_singleton.mp (mem_of_mem_upTo hb)
    decide +kernel
  · intro b hb
    obtain rfl := List.mem_singleton.mp (mem_of_mem_upTo hb)
    decide +kernel
  · have hfields : ∀ i ∈ [(0 : Block)].zipIdx,
        (i.2 = 0 → entRecLen i.1 0 ≠ 0 → entRecLen i.1 0 + 6 ≤ blockSize) ∧
        ∀ o ∈ upTo (occupied i.1)
          (recordOffsets i.1 (if i.2 = 0 then firstChildOffset i.1 else 0)),
          o + 6 ≤ blockSize := by
      decide +kernel
    intro i hi
    obtain ⟨hfirst, hrecords⟩ := hfields i (mem_of_mem_upTo hi)
    exact ⟨hfirst, hrecords⟩

/-! ## A record at the end of the buffer -/

/-- A first record without an inode, of 508 bytes. -/
def strayBlock : Block := setEntRecLen 0 0 508

/-- The length of the record behind it is read from outside. -/
theorem stray_scan_leaves_block :
    ¬ ∀ env s, ScansHarmless ([strayBlock].map (frame env s)) (.letter 0x61) := by
  have hrecord : 508 ∈ upTo (found strayBlock (.letter 0x61)) (recordOffsets strayBlock 0) := by
    decide +kernel
  intro h
  have hlook := (findScans_harmless _ _ [strayBlock] (by decide)).mp (h .zero freshFs).find
  have hin := (hlook strayBlock List.mem_cons_self 508 hrecord).1
  exact absurd hin (by decide)

end RendangOS.Ext2
