import RendangOS.Ext2.Invariant
import RendangOS.Lib.RecordScan

/-!
# What the directory scans touch

The scans of `find_entry_in_dir`, `add_entry_to_dir`, `remove_entry_from_dir` and
`is_directory_empty`, with the bytes of the block buffer they read and write. All
four compare the cursor with the end of the block, and none the record under it.
-/

namespace RendangOS.Ext2

open Image RecordChain RecordScan

variable {w w' : ℕ}

/-! ## The scans -/

/-- The bytes that `memcmp` compares. -/
def compared : List (BitVec 8) → List (BitVec 8) → ℕ
  | x :: xs, y :: ys => if x = y then compared xs ys + 1 else 1
  | _, _ => 0

def inodeSpan (o : ℕ) : Span := ⟨o, o + 4⟩
def recLenSpan (o : ℕ) : Span := ⟨o + 4, o + 6⟩
def nameLenSpan (o : ℕ) : Span := ⟨o + 6, o + 7⟩
def fileTypeSpan (o : ℕ) : Span := ⟨o + 7, o + 8⟩
def nameSpan (o len : ℕ) : Span := ⟨o + 8, o + 8 + len⟩

/-- The record at `o` is live and has the name. -/
def Hit (buf : BitVec w) (name : EntryName) (o : ℕ) : Prop :=
  entInode buf o ≠ 0 ∧ entNameLen buf o = name.len ∧ getEntryName buf o name.len = name.bytes

instance (buf : BitVec w) (name : EntryName) : DecidablePred (Hit buf name) := fun o => by
  unfold Hit
  infer_instance

/-- `rec_len` is not zero and the record is a hit. -/
def found (buf : BitVec w) (name : EntryName) (o : ℕ) : Bool :=
  decide (entRecLen buf o ≠ 0 ∧ Hit buf name o)

/-- What is read to find out. -/
def lookReads (buf : BitVec w) (name : EntryName) (o : ℕ) : List Span :=
  recLenSpan o ::
    if entRecLen buf o = 0 then []
    else inodeSpan o ::
      if entInode buf o = 0 then []
      else nameLenSpan o ::
        if entNameLen buf o = name.len then
          [nameSpan o (compared (getEntryName buf o name.len) name.bytes)]
        else []

/-- Return at a record with `stop`, break off where `rec_len` is zero, or go on. -/
def fateOf (buf : BitVec w) (stop : ℕ → Bool) (o : ℕ) : Fate :=
  if stop o then .returns
  else if entRecLen buf o = 0 then .breaks
  else .advances (entRecLen buf o)

/-- `find_entry_in_dir` at the record at `o`. -/
def findTurn (buf : BitVec w) (name : EntryName) (_ : Option ℕ) (o : ℕ) : Turn where
  reads := lookReads buf name o
  writes := []
  fate := fateOf buf (found buf name) o

/-- `remove_entry_from_dir`; a hit is joined to the record before it, or emptied. -/
def removeTurn (buf : BitVec w) (name : EntryName) (prev : Option ℕ) (o : ℕ) : Turn where
  reads := lookReads buf name o ++
    if found buf name o then (prev.map recLenSpan).toList else []
  writes := if found buf name o then [(prev.map recLenSpan).getD (inodeSpan o)] else []
  fate := fateOf buf (found buf name) o

/-- There is room for an entry of that name behind the record at `o`. -/
def slack (buf : BitVec w) (name : EntryName) (o : ℕ) : Bool :=
  decide (getEntryRecordLen (entNameLen buf o) + getEntryRecordLen name.len ≤ entRecLen buf o)

/-- The fields of a new entry at `o`. -/
def entrySpans (name : EntryName) (o : ℕ) : List Span :=
  [inodeSpan o, nameLenSpan o, fileTypeSpan o, recLenSpan o, nameSpan o name.len]

/-- `add_entry_to_dir`; the record is cut, and the new entry written behind it. -/
def addTurn (buf : BitVec w) (name : EntryName) (_ : Option ℕ) (o : ℕ) : Turn where
  reads := [nameLenSpan o, recLenSpan o]
  writes :=
    if slack buf name o then
      recLenSpan o :: entrySpans name (o + getEntryRecordLen (entNameLen buf o))
    else []
  fate := fateOf buf (slack buf name) o

/-- The record at `o` has an inode, and a length. -/
def occupied (buf : BitVec w) (o : ℕ) : Bool :=
  decide (entRecLen buf o ≠ 0 ∧ entInode buf o ≠ 0)

/-- `is_directory_empty`. -/
def emptyTurn (buf : BitVec w) (_ : Option ℕ) (o : ℕ) : Turn where
  reads := recLenSpan o :: if entRecLen buf o = 0 then [] else [inodeSpan o]
  writes := []
  fate := fateOf buf (occupied buf) o

/-- A scan of a block from `start`. It makes a turn for every byte at most. -/
def traceFrom (turn : Option ℕ → ℕ → Turn) (start : ℕ) : Trace :=
  scan blockSize turn (blockSize + 1) none start

def findTrace (name : EntryName) (buf : BitVec w) : Trace := traceFrom (findTurn buf name) 0
def removeTrace (name : EntryName) (buf : BitVec w) : Trace := traceFrom (removeTurn buf name) 0
def addTrace (name : EntryName) (buf : BitVec w) : Trace := traceFrom (addTurn buf name) 0

/-- `get_dir_first_child_offset`, -/
def firstChildOffset (buf : BitVec w) : ℕ :=
  if entRecLen buf 0 = 0 then 0
  else if entRecLen buf (entRecLen buf 0) = 0 then 0
  else entRecLen buf 0 + entRecLen buf (entRecLen buf 0)

/-- and what it reads. -/
def firstChildReads (buf : BitVec w) : List Span :=
  recLenSpan 0 :: if entRecLen buf 0 = 0 then [] else [recLenSpan (entRecLen buf 0)]

/-- `is_directory_empty` in block `i`. -/
def emptyTrace (buf : BitVec w) (i : ℕ) : Trace :=
  let t := traceFrom (emptyTurn buf) (if i = 0 then firstChildOffset buf else 0)
  { t with reads := (if i = 0 then firstChildReads buf else []) ++ t.reads }

/-- The function does not go on to the next block. -/
def returned (t : Trace) : Bool := decide (t.exit = .returned)

/-- The scans of a function in the blocks of a directory, up to one that returns. -/
def findScans (bs : List (BitVec w)) (name : EntryName) : List Trace :=
  upTo returned (bs.map (findTrace name))

def removeScans (bs : List (BitVec w)) (name : EntryName) : List Trace :=
  upTo returned (bs.map (removeTrace name))

def addScans (bs : List (BitVec w)) (name : EntryName) : List Trace :=
  upTo returned (bs.map (addTrace name))

def emptyScans (bs : List (BitVec w)) : List Trace :=
  upTo returned (bs.zipIdx.map fun i => emptyTrace i.1 i.2)

/-- The records of a block from `start` on, up to one without a length. -/
def recordOffsets (buf : BitVec w) (start : ℕ) : List ℕ :=
  offsets blockSize (entRecLen buf) (blockSize + 1) start

theorem fateOf_follows {buf : BitVec w} {turn : Option ℕ → ℕ → Turn} {stop : ℕ → Bool}
    (hfate : ∀ prev o, (turn prev o).fate = fateOf buf stop o)
    (hstop : ∀ o, stop o = true → entRecLen buf o ≠ 0) :
    Follows turn (entRecLen buf) stop := ⟨hfate, hstop⟩

theorem slack_len {buf : BitVec w} {name : EntryName} {o : ℕ} (h : slack buf name o = true) :
    entRecLen buf o ≠ 0 := by
  have hfit := of_decide_eq_true h
  have := recordLen_ge (entNameLen buf o)
  omega

theorem find_follows (buf : BitVec w) (name : EntryName) :
    Follows (findTurn buf name) (entRecLen buf) (found buf name) :=
  fateOf_follows (fun _ _ => rfl) fun _ h => (of_decide_eq_true h).1

theorem remove_follows (buf : BitVec w) (name : EntryName) :
    Follows (removeTurn buf name) (entRecLen buf) (found buf name) :=
  fateOf_follows (fun _ _ => rfl) fun _ h => (of_decide_eq_true h).1

theorem add_follows (buf : BitVec w) (name : EntryName) :
    Follows (addTurn buf name) (entRecLen buf) (slack buf name) :=
  fateOf_follows (fun _ _ => rfl) fun _ h => slack_len h

theorem empty_follows (buf : BitVec w) : Follows (emptyTurn buf) (entRecLen buf) (occupied buf) :=
  fateOf_follows (fun _ _ => rfl) fun _ h => (of_decide_eq_true h).1

/-! ## What decides about a record -/

/-- The fields that are looked at to compare the record at `o` lie in the block. -/
def LookFits (buf : BitVec w) (name : EntryName) (o : ℕ) : Prop :=
  o + 6 ≤ blockSize ∧ (entRecLen buf o ≠ 0 → entInode buf o ≠ 0 →
    o + 7 ≤ blockSize ∧ (entNameLen buf o = name.len →
      o + 8 + compared (getEntryName buf o name.len) name.bytes ≤ blockSize))

/-- The record at `o` has its header in the block, and a new entry in its slack has
its name there. -/
def AddFits (buf : BitVec w) (name : EntryName) (o : ℕ) : Prop :=
  o + 7 ≤ blockSize ∧ (slack buf name o = true →
    o + getEntryRecordLen (entNameLen buf o) + 8 + name.len ≤ blockSize)

variable {buf : BitVec w} {x : BitVec w} {y : BitVec w'} {name : EntryName} {o : ℕ}
  {prev : Option ℕ}

theorem compared_pos : ∀ {xs ys : List (BitVec 8)}, xs.length = ys.length → ys.length ≠ 0 →
    0 < compared xs ys
  | [], [], _, h => absurd rfl h
  | x :: xs, y :: ys, _, _ => by
      rw [compared]
      split <;> omega

theorem getEntryName_length (buf : BitVec w) (o len : ℕ) :
    (getEntryName buf o len).length = len := by
  rw [getEntryName, List.length_map, List.length_range]

theorem recLenSpan_inside : (recLenSpan o).Inside blockSize ↔ o + 6 ≤ blockSize :=
  Span.inside_iff (show o + 4 < o + 6 by omega)

theorem inodeSpan_inside : (inodeSpan o).Inside blockSize ↔ o + 4 ≤ blockSize :=
  Span.inside_iff (show o < o + 4 by omega)

theorem nameLenSpan_inside : (nameLenSpan o).Inside blockSize ↔ o + 7 ≤ blockSize :=
  Span.inside_iff (show o + 6 < o + 7 by omega)

theorem fileTypeSpan_inside : (fileTypeSpan o).Inside blockSize ↔ o + 8 ≤ blockSize :=
  Span.inside_iff (show o + 7 < o + 8 by omega)

theorem nameSpan_inside {len : ℕ} (h : 0 < len) :
    (nameSpan o len).Inside blockSize ↔ o + 8 + len ≤ blockSize :=
  Span.inside_iff (show o + 8 < o + 8 + len by omega)

theorem lookReads_inside (hlen : name.len ≠ 0) :
    (∀ a ∈ lookReads buf name o, a.Inside blockSize) ↔ LookFits buf name o := by
  unfold lookReads LookFits
  rw [List.forall_mem_cons, recLenSpan_inside]
  refine and_congr_right fun hhead => ?_
  by_cases hrec : entRecLen buf o = 0
  · rw [if_pos hrec]
    exact iff_of_true (fun a ha => by cases ha) fun h => absurd hrec h
  · rw [if_neg hrec, List.forall_mem_cons, inodeSpan_inside]
    by_cases hino : entInode buf o = 0
    · rw [if_pos hino]
      exact iff_of_true ⟨by omega, fun a ha => by cases ha⟩ fun _ h => absurd hino h
    · have hpos := compared_pos (getEntryName_length buf o name.len) hlen
      rw [if_neg hino, List.forall_mem_cons, nameLenSpan_inside]
      by_cases hname : entNameLen buf o = name.len
      · rw [if_pos hname, List.forall_mem_singleton, nameSpan_inside hpos]
        constructor
        · rintro ⟨-, h7, hcmp⟩ _ _
          exact ⟨h7, fun _ => hcmp⟩
        · intro h
          obtain ⟨h7, hcmp⟩ := h hrec hino
          exact ⟨by omega, h7, hcmp hname⟩
      · rw [if_neg hname]
        constructor
        · rintro ⟨-, h7, -⟩ _ _
          exact ⟨h7, fun h => absurd h hname⟩
        · intro h
          exact ⟨by omega, (h hrec hino).1, fun a ha => by cases ha⟩

theorem findTurn_inside (hlen : name.len ≠ 0) :
    (findTurn buf name prev o).Inside blockSize ↔ LookFits buf name o := by
  rw [← lookReads_inside hlen]
  unfold Turn.Inside findTurn
  rw [List.append_nil]

/-- The record before the cursor has been looked at. -/
theorem removeTurn_inside (hlen : name.len ≠ 0) (hprev : ∀ p ∈ prev, LookFits buf name p) :
    (removeTurn buf name prev o).Inside blockSize ↔ LookFits buf name o := by
  rw [← lookReads_inside hlen]
  unfold Turn.Inside removeTurn
  have hback : ∀ a ∈ (prev.map recLenSpan).toList, a.Inside blockSize := by
    intro a ha
    obtain ⟨p, hp, rfl⟩ := Option.map_eq_some_iff.mp (Option.mem_toList.mp ha)
    exact recLenSpan_inside.mpr (hprev p hp).1
  constructor
  · intro h a ha
    exact h a (List.mem_append_left _ (List.mem_append_left _ ha))
  · intro h a ha
    rcases List.mem_append.mp ha with hread | hwrite
    · rcases List.mem_append.mp hread with hlook | hlast
      · exact h a hlook
      · split at hlast
        · exact hback a hlast
        · cases hlast
    · split at hwrite
      · rw [List.mem_singleton] at hwrite
        cases hp : prev with
        | none =>
            rw [hp] at hwrite
            obtain rfl : a = inodeSpan o := hwrite
            have hhead := recLenSpan_inside.mp (h (recLenSpan o) List.mem_cons_self)
            exact inodeSpan_inside.mpr (by omega)
        | some p =>
            rw [hp] at hwrite
            obtain rfl : a = recLenSpan p := hwrite
            exact recLenSpan_inside.mpr (hprev p hp).1
      · cases hwrite

/-- A new entry lies in the block when its name does. -/
theorem entrySpans_inside (hlen : name.len ≠ 0) :
    (∀ a ∈ entrySpans name o, a.Inside blockSize) ↔ o + 8 + name.len ≤ blockSize := by
  have hname : (nameSpan o name.len).Inside blockSize ↔ o + 8 + name.len ≤ blockSize :=
    nameSpan_inside (Nat.pos_of_ne_zero hlen)
  unfold entrySpans
  rw [List.forall_mem_cons, List.forall_mem_cons, List.forall_mem_cons, List.forall_mem_cons,
    List.forall_mem_singleton, inodeSpan_inside, nameLenSpan_inside, fileTypeSpan_inside,
    recLenSpan_inside, hname]
  omega

theorem addTurn_inside (hlen : name.len ≠ 0) :
    (addTurn buf name prev o).Inside blockSize ↔ AddFits buf name o := by
  unfold Turn.Inside addTurn AddFits
  dsimp only
  rw [List.cons_append, List.cons_append, List.nil_append, List.forall_mem_cons,
    List.forall_mem_cons, nameLenSpan_inside, recLenSpan_inside]
  by_cases hslack : slack buf name o = true
  · rw [if_pos hslack, List.forall_mem_cons, recLenSpan_inside, entrySpans_inside hlen]
    constructor
    · rintro ⟨h7, -, -, hname⟩
      exact ⟨h7, fun _ => hname⟩
    · rintro ⟨h7, hname⟩
      exact ⟨h7, by omega, by omega, hname hslack⟩
  · rw [if_neg hslack]
    constructor
    · rintro ⟨h7, -⟩
      exact ⟨h7, fun h => absurd h hslack⟩
    · rintro ⟨h7, -⟩
      exact ⟨h7, by omega, fun a ha => by cases ha⟩

theorem emptyTurn_inside : (emptyTurn buf prev o).Inside blockSize ↔ o + 6 ≤ blockSize := by
  unfold Turn.Inside emptyTurn
  rw [List.append_nil, List.forall_mem_cons, recLenSpan_inside]
  refine and_iff_left_of_imp fun h6 a ha => ?_
  split at ha
  · cases ha
  · rw [List.mem_singleton] at ha
    rw [ha]
    exact inodeSpan_inside.mpr (by omega)

/-! ## Bytes behind the block -/

theorem compared_cons (x y : BitVec 8) (xs ys : List (BitVec 8)) :
    compared (x :: xs) (y :: ys) = if x = y then compared xs ys + 1 else 1 := rfl

/-- `memcmp` stops at the first difference. -/
theorem compared_congr {ys : List (BitVec 8)} : ∀ {xs xs' : List (BitVec 8)},
    xs.length = ys.length → xs'.length = ys.length →
    xs'.take (compared xs ys) = xs.take (compared xs ys) →
    compared xs' ys = compared xs ys ∧ (xs' = ys ↔ xs = ys) := by
  induction ys with
  | nil =>
      intro xs xs' h h' _
      rw [List.length_eq_zero_iff.mp h, List.length_eq_zero_iff.mp h']
      exact ⟨rfl, Iff.rfl⟩
  | cons y ys ih =>
      intro xs xs' h h' htake
      obtain ⟨x, xs, rfl⟩ := List.exists_cons_of_length_eq_add_one h
      obtain ⟨x', xs', rfl⟩ := List.exists_cons_of_length_eq_add_one h'
      rw [List.length_cons, List.length_cons, Nat.succ.injEq] at h h'
      rw [compared_cons] at htake
      rw [compared_cons, compared_cons]
      by_cases hxy : x = y
      · rw [if_pos hxy, List.take_succ_cons, List.take_succ_cons] at htake
        obtain ⟨hx, hrest⟩ := List.cons.inj htake
        obtain ⟨hcmp, heq⟩ := ih h h' hrest
        rw [if_pos hxy, if_pos (hx.trans hxy), hcmp, hx, List.cons.injEq, List.cons.injEq, heq]
        exact ⟨rfl, Iff.rfl⟩
      · rw [if_neg hxy, List.take_succ_cons, List.take_succ_cons] at htake
        obtain ⟨hx, -⟩ := List.cons.inj htake
        rw [if_neg hxy, hx, if_neg hxy]
        exact ⟨rfl, iff_of_false (fun heq => hxy (List.cons.inj heq).1)
          fun heq => hxy (List.cons.inj heq).1⟩

theorem take_getEntryName (h : Agree x y 0 4096) {n c : ℕ} (hc : o + 8 + c ≤ blockSize) :
    (getEntryName y o n).take c = (getEntryName x o n).take c := by
  unfold getEntryName
  rw [← List.map_take, ← List.map_take, List.take_range]
  apply List.map_congr_left
  intro k hk
  rw [List.mem_range] at hk
  rw [blockSize] at hc
  exact (h.extract (Nat.zero_le _) (by rw [entryHeader]; omega)).symm

/-- What is found at a record is decided by what is read there. -/
theorem look_congr (h : Agree x y 0 4096) (hfit : LookFits x name o) :
    entRecLen y o = entRecLen x o ∧ lookReads y name o = lookReads x name o ∧
      found y name o = found x name o := by
  obtain ⟨h6, hrest⟩ := hfit
  rw [blockSize] at h6
  have hrec : entRecLen y o = entRecLen x o :=
    (congrArg BitVec.toNat (h.extract (Nat.zero_le _) (by omega))).symm
  have hino : entInode y o = entInode x o :=
    (congrArg BitVec.toNat (h.extract (Nat.zero_le _) (by omega))).symm
  have hname : entRecLen x o ≠ 0 → entInode x o ≠ 0 → entNameLen y o = entNameLen x o := by
    intro hrec0 hino0
    have h7 := (hrest hrec0 hino0).1
    rw [blockSize] at h7
    exact (congrArg BitVec.toNat (h.extract (Nat.zero_le _) (by omega))).symm
  have hbytes : entRecLen x o ≠ 0 → entInode x o ≠ 0 → entNameLen x o = name.len →
      compared (getEntryName y o name.len) name.bytes =
        compared (getEntryName x o name.len) name.bytes ∧
      (getEntryName y o name.len = name.bytes ↔ getEntryName x o name.len = name.bytes) := by
    intro hrec0 hino0 hlen
    exact compared_congr (getEntryName_length x o name.len) (getEntryName_length y o name.len)
      (take_getEntryName h ((hrest hrec0 hino0).2 hlen))
  refine ⟨hrec, ?_, decide_eq_decide.mpr ?_⟩
  · unfold lookReads
    rw [hrec, hino]
    by_cases hrec0 : entRecLen x o = 0
    · rw [if_pos hrec0, if_pos hrec0]
    rw [if_neg hrec0, if_neg hrec0]
    by_cases hino0 : entInode x o = 0
    · rw [if_pos hino0, if_pos hino0]
    rw [if_neg hino0, if_neg hino0, hname hrec0 hino0]
    by_cases hlen : entNameLen x o = name.len
    · rw [(hbytes hrec0 hino0 hlen).1]
    · rw [if_neg hlen, if_neg hlen]
  · unfold Hit
    rw [hrec, hino]
    refine and_congr_right fun hrec0 => and_congr_right fun hino0 => ?_
    rw [hname hrec0 hino0]
    exact and_congr_right fun hlen => (hbytes hrec0 hino0 hlen).2

theorem findTurn_congr (h : Agree x y 0 4096) (hfit : LookFits x name o) :
    findTurn y name prev o = findTurn x name prev o := by
  obtain ⟨hrec, hreads, hfound⟩ := look_congr h hfit
  unfold findTurn fateOf
  rw [hrec, hreads, hfound]

theorem removeTurn_congr (h : Agree x y 0 4096) (hfit : LookFits x name o) :
    removeTurn y name prev o = removeTurn x name prev o := by
  obtain ⟨hrec, hreads, hfound⟩ := look_congr h hfit
  unfold removeTurn fateOf
  rw [hrec, hreads, hfound]

theorem addTurn_congr (h : Agree x y 0 4096) (hfit : AddFits x name o) :
    addTurn y name prev o = addTurn x name prev o := by
  have h7 := hfit.1
  rw [blockSize] at h7
  have hrec : entRecLen y o = entRecLen x o :=
    (congrArg BitVec.toNat (h.extract (Nat.zero_le _) (by omega))).symm
  have hname : entNameLen y o = entNameLen x o :=
    (congrArg BitVec.toNat (h.extract (Nat.zero_le _) (by omega))).symm
  unfold addTurn fateOf slack
  rw [hrec, hname]

theorem emptyTurn_congr (h : Agree x y 0 4096) (hfit : o + 6 ≤ blockSize) :
    emptyTurn y prev o = emptyTurn x prev o := by
  rw [blockSize] at hfit
  have hrec : entRecLen y o = entRecLen x o :=
    (congrArg BitVec.toNat (h.extract (Nat.zero_le _) (by omega))).symm
  have hino : entInode y o = entInode x o :=
    (congrArg BitVec.toNat (h.extract (Nat.zero_le _) (by omega))).symm
  unfold emptyTurn fateOf occupied
  rw [hrec, hino]

/-! ## The scans return where they find -/

theorem findScan_offsets (buf : Frame) (name : EntryName) : ∀ fuel o,
    findScan buf name fuel o =
      ((offsets blockSize (entRecLen buf) fuel o).find? (found buf name)).map (entInode buf)
  | 0, _ => rfl
  | fuel + 1, o => by
      rw [findScan]
      by_cases hin : o < blockSize
      · rw [if_pos hin, offsets_step hin]
        by_cases hlen : entRecLen buf o = 0
        · have hno : ¬ found buf name o = true := fun h => (of_decide_eq_true h).1 hlen
          rw [if_pos hlen, if_pos hlen, List.find?_cons_of_neg hno]
          rfl
        · rw [if_neg hlen, if_neg hlen]
          by_cases hhit : Hit buf name o
          · have hyes : found buf name o = true := decide_eq_true ⟨hlen, hhit⟩
            rw [if_pos (show _ ∧ _ from hhit), List.find?_cons_of_pos hyes]
            rfl
          · have hno : ¬ found buf name o = true := fun h => hhit (of_decide_eq_true h).2
            rw [if_neg (show ¬ (_ ∧ _) from hhit), List.find?_cons_of_neg hno]
            exact findScan_offsets buf name fuel _
      · rw [if_neg hin, offsets_behind hin]
        rfl

theorem removeScan_offsets (view : Frame) (buf : Block) (name : EntryName) : ∀ fuel o prev,
    (removeScan view buf name fuel o prev).isSome =
      (offsets blockSize (entRecLen view) fuel o).any (found view name)
  | 0, _, _ => rfl
  | fuel + 1, o, prev => by
      unfold removeScan
      by_cases hin : o < blockSize
      · rw [if_pos hin, offsets_step hin, List.any_cons]
        by_cases hlen : entRecLen view o = 0
        · have hno : found view name o = false := decide_eq_false fun h => h.1 hlen
          rw [if_pos hlen, if_pos hlen, hno]
          rfl
        · rw [if_neg hlen, if_neg hlen]
          by_cases hhit : Hit view name o
          · have hyes : found view name o = true := decide_eq_true ⟨hlen, hhit⟩
            rw [if_pos (show _ ∧ _ from hhit), hyes]
            cases prev <;> rfl
          · have hno : found view name o = false := decide_eq_false fun h => hhit h.2
            rw [if_neg (show ¬ (_ ∧ _) from hhit), hno, Bool.false_or]
            exact removeScan_offsets view buf name fuel _ _
      · rw [if_neg hin, offsets_behind hin]
        rfl

theorem addScan_offsets (view : Frame) (buf : Block) (inode : ℕ) (name : EntryName)
    (fileType : BitVec 8) : ∀ fuel o,
    (addScan view buf inode name fileType fuel o).isSome =
      (offsets blockSize (entRecLen view) fuel o).any (slack view name)
  | 0, _ => rfl
  | fuel + 1, o => by
      rw [addScan]
      by_cases hin : o < blockSize
      · rw [if_pos hin, offsets_step hin, List.any_cons]
        dsimp only
        by_cases hfit : getEntryRecordLen (entNameLen view o) + getEntryRecordLen name.len ≤
            entRecLen view o
        · have hyes : slack view name o = true := decide_eq_true hfit
          rw [if_pos hfit, hyes]
          rfl
        · have hno : slack view name o = false := decide_eq_false hfit
          rw [if_neg hfit, hno, Bool.false_or]
          by_cases hlen : entRecLen view o = 0
          · rw [if_pos hlen, if_pos hlen]
            rfl
          · rw [if_neg hlen, if_neg hlen]
            exact addScan_offsets view buf inode name fileType fuel _
      · rw [if_neg hin, offsets_behind hin]
        rfl

theorem emptyScan_offsets (buf : Frame) : ∀ fuel o,
    emptyScan buf fuel o = !(offsets blockSize (entRecLen buf) fuel o).any (occupied buf)
  | 0, _ => rfl
  | fuel + 1, o => by
      rw [emptyScan]
      by_cases hin : o < blockSize
      · rw [if_pos hin, offsets_step hin, List.any_cons]
        by_cases hlen : entRecLen buf o = 0
        · have hno : occupied buf o = false := decide_eq_false fun h => h.1 hlen
          rw [if_pos hlen, if_pos hlen, hno]
          rfl
        · rw [if_neg hlen, if_neg hlen]
          by_cases hino : entInode buf o = 0
          · have hno : occupied buf o = false := decide_eq_false fun h => h.2 hino
            rw [if_neg (not_not.mpr hino), hno, Bool.false_or]
            exact emptyScan_offsets buf fuel _
          · have hyes : occupied buf o = true := decide_eq_true ⟨hlen, hino⟩
            rw [if_pos hino, hyes]
            rfl
      · rw [if_neg hin, offsets_behind hin]
        rfl

theorem firstChildOffset_eq (buf : Frame) : getDirFirstChildOffset buf = firstChildOffset buf :=
  rfl

end RendangOS.Ext2
