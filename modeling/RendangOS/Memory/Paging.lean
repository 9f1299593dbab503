import RendangOS.Lib.Ledger
import RendangOS.Lib.Bitmap
import Mathlib.Logic.Function.Basic

/-!
# Page frames

`paging_allocate_user_page_frame` and `paging_free_user_page_frame`. The frames
of 4 MiB are shared by all page directories and handed out through one map with
one counter; an entry of a directory names its frame in ten bits. A frame is a
resource, a present entry is a place that owns one, and frame 0, which belongs
to the kernel, is outside the ledger. The TLB flush has no effect on this state.
-/

namespace RendangOS.Memory

open Bitmap

/-! ## The state -/

@[simp] def systemMemoryMb : ℕ := 128
@[simp] def pageEntryCount : ℕ := 1024
@[simp] def pageFrameSize : ℕ := 1 <<< (2 + 10 + 10)
def pageFrameMaxCount : ℕ := (systemMemoryMb <<< 20) / pageFrameSize

@[simp] theorem pageFrameMaxCount_eq : pageFrameMaxCount = 32 := by decide

structure PageDirectoryEntry where
  present_bit : BitVec 1
  write_bit : BitVec 1
  user_bit : BitVec 1
  pwt_bit : BitVec 1
  pcd_bit : BitVec 1
  accessed_bit : BitVec 1
  dirty_bit : BitVec 1
  use_pagesize_4_mb : BitVec 1
  global_page : BitVec 1
  available : BitVec 3
  pat : BitVec 1
  reserved_high : BitVec 9
  lower_address : BitVec 10
deriving DecidableEq

/-- `(struct PageDirectoryEntry){0}`. -/
def PageDirectoryEntry.zero : PageDirectoryEntry := ⟨0, 0, 0, 0, 0, 0, 0, 0, 0, 0, 0, 0, 0⟩

abbrev PageDirectory := Fin pageEntryCount → PageDirectoryEntry

structure PageManagerState where
  page_frame_map : Vector Bool pageFrameMaxCount
  free_page_frame_count : BitVec 32

/-- `page_manager_state` with the page directories in memory. -/
structure Paging (ι : Type*) where
  manager : PageManagerState
  dir : ι → PageDirectory

/-- The entry of the two kernel mappings. -/
def kernelEntry : PageDirectoryEntry :=
  { PageDirectoryEntry.zero with
    present_bit := 1, write_bit := 1, use_pagesize_4_mb := 1, lower_address := 0 }

/-- `_paging_kernel_page_directory`. -/
def pagingKernelPageDirectory : PageDirectory := fun i =>
  if i.val = 0 ∨ i.val = 0x300 then kernelEntry else .zero

def PageManagerState.initial : PageManagerState where
  page_frame_map := (Vector.replicate pageFrameMaxCount false).setIfInBounds 0 true
  free_page_frame_count := BitVec.ofNat 32 (pageFrameMaxCount - 1)

/-- The kernel page directory among empty ones. -/
def Paging.initial {ι : Type*} [DecidableEq ι] (kernel : ι) : Paging ι where
  manager := .initial
  dir := Function.update (fun _ _ => .zero) kernel pagingKernelPageDirectory

/-! ## The two calls -/

/-- `page_frame_map[i]`. -/
def PageManagerState.marked (m : PageManagerState) (i : ℕ) : Bool :=
  m.page_frame_map[i]?.getD false

/-- `((uint32_t) virtual_addr >> 22) & 0x3FF`. -/
def pageIndex (virtualAddr : BitVec 32) : Fin pageEntryCount :=
  ⟨((virtualAddr >>> 22) &&& 0x3FF#32).toNat,
    lt_of_le_of_lt (BitVec.toNat_and .. ▸ Nat.and_le_right) (by decide)⟩

/-- The entry that maps frame `i` for a user. -/
def userEntry (i : ℕ) : PageDirectoryEntry :=
  let physicalAddr := BitVec.ofNat 32 (i * pageFrameSize)
  { PageDirectoryEntry.zero with
    present_bit := 1
    write_bit := 1
    user_bit := 1
    use_pagesize_4_mb := 1
    lower_address := ((physicalAddr >>> 22) &&& 0x3FF#32).setWidth 10 }

/-- The scan for an unmarked frame, which passes over frame 0. -/
def freeFrame (m : PageManagerState) : Option ℕ :=
  (List.range' 1 (pageFrameMaxCount - 1)).find? fun i => !m.marked i

section Calls

variable {ι : Type*} [DecidableEq ι]

/-- `page_dir->table[page_index] = entry`. -/
def Paging.setEntry (s : Paging ι) (d : ι) (i : Fin pageEntryCount) (entry : PageDirectoryEntry) :
    Paging ι :=
  { s with dir := Function.update s.dir d (Function.update (s.dir d) i entry) }

def pagingAllocateUserPageFrame (s : Paging ι) (d : ι) (virtualAddr : BitVec 32) :
    Bool × Paging ι :=
  if (s.dir d (pageIndex virtualAddr)).present_bit ≠ 0 then (false, s)
  else
    match freeFrame s.manager with
    | none => (false, s)
    | some i =>
        let manager : PageManagerState :=
          { page_frame_map := s.manager.page_frame_map.setIfInBounds i true
            free_page_frame_count := s.manager.free_page_frame_count - 1 }
        (true, { s with manager := manager }.setEntry d (pageIndex virtualAddr) (userEntry i))

def pagingFreeUserPageFrame (s : Paging ι) (d : ι) (virtualAddr : BitVec 32) : Bool × Paging ι :=
  let entry := s.dir d (pageIndex virtualAddr)
  if entry.present_bit = 0 then (false, s)
  else
    let i := entry.lower_address.toNat
    if i ≥ pageFrameMaxCount then (false, s)
    else if i = 0 then (false, s)
    else
      let manager : PageManagerState :=
        if s.manager.marked i then
          { page_frame_map := s.manager.page_frame_map.setIfInBounds i false
            free_page_frame_count := s.manager.free_page_frame_count + 1 }
        else s.manager
      (true, { s with manager := manager }.setEntry d (pageIndex virtualAddr) .zero)

/-- A call on page directory `d`. -/
inductive Call (ι : Type*) where
  | allocate (d : ι) (virtualAddr : BitVec 32)
  | free (d : ι) (virtualAddr : BitVec 32)

def Call.run (s : Paging ι) : Call ι → Bool × Paging ι
  | .allocate d virtualAddr => pagingAllocateUserPageFrame s d virtualAddr
  | .free d virtualAddr => pagingFreeUserPageFrame s d virtualAddr

/-- The state after a list of calls. -/
def runCalls (s : Paging ι) (cs : List (Call ι)) : Paging ι :=
  cs.foldl (fun s c => (c.run s).2) s

end Calls

/-! ## Marks and entries -/

variable {ι : Type*} {s : Paging ι} {kernel d : ι} {i : Fin pageEntryCount} {f : ℕ}

theorem marked_of_ge {m : PageManagerState} (h : 32 ≤ f) : m.marked f = false := by
  unfold PageManagerState.marked
  rw [Vector.getElem?_eq_none (by simpa using h)]
  rfl

theorem marked_set (m : PageManagerState) (c : BitVec 32) (hf : f < 32) (b : Bool) :
    PageManagerState.marked ⟨m.page_frame_map.setIfInBounds f b, c⟩ =
      Function.update m.marked f b := by
  funext j
  unfold PageManagerState.marked
  by_cases hj : j = f
  · subst hj
    rw [Function.update_self, Vector.getElem?_setIfInBounds_self_of_lt (by simpa using hf)]
    rfl
  · rw [Function.update_of_ne hj, Vector.getElem?_setIfInBounds_ne (Ne.symm hj)]

/-- The scan ends at an unmarked frame, or every frame but 0 is marked. -/
theorem freeFrame_cases (m : PageManagerState) :
    (freeFrame m = none ∧ ∀ f, f ≠ 0 → f < 32 → m.marked f = true) ∨
    ∃ f, f ≠ 0 ∧ f < 32 ∧ m.marked f = false ∧ freeFrame m = some f := by
  cases h : freeFrame m with
  | none =>
      refine Or.inl ⟨rfl, fun f h0 hf => ?_⟩
      have hall := List.find?_eq_none.mp h f (List.mem_range'_1.mpr (by simp; omega))
      simpa using hall
  | some f =>
      have hmem := List.mem_range'_1.mp (List.mem_of_find?_eq_some h)
      have hclear := List.find?_some h
      rw [pageFrameMaxCount_eq] at hmem
      exact Or.inr ⟨f, by omega, by omega, by simpa using hclear, rfl⟩

/-- The ten bits of a frame number survive the way through the physical address. -/
theorem userEntry_lower_address (hf : f < 32) : (userEntry f).lower_address.toNat = f := by
  have hall : ∀ f < 32, (userEntry f).lower_address.toNat = f := by decide
  exact hall f hf

/-- The frame that an entry owns. Frame 0 is the kernel's. -/
def PageDirectoryEntry.frame (e : PageDirectoryEntry) : Option ℕ :=
  if e.present_bit = 0 ∨ e.lower_address.toNat = 0 then none else some e.lower_address.toNat

theorem userEntry_frame (h0 : f ≠ 0) (hf : f < 32) : (userEntry f).frame = some f := by
  unfold PageDirectoryEntry.frame
  rw [userEntry_lower_address hf, if_neg]
  rintro (hp | hz)
  · cases hp
  · exact h0 hz

/-- Entry `i` of directory `d` is present and names frame `f`. -/
def Paging.Maps (s : Paging ι) (d : ι) (i : Fin pageEntryCount) (f : ℕ) : Prop :=
  (s.dir d i).present_bit ≠ 0 ∧ (s.dir d i).lower_address.toNat = f

/-- The places of all directories. -/
def Paging.own (s : Paging ι) (p : ι × Fin pageEntryCount) : Option ℕ := (s.dir p.1 p.2).frame

/-- The marked frames, frame 0 apart. -/
def Paging.taken (s : Paging ι) : Set ℕ := {f | f ≠ 0 ∧ s.manager.marked f = true}

theorem own_eq_some (h0 : f ≠ 0) : s.own (d, i) = some f ↔ s.Maps d i f := by
  unfold Paging.own PageDirectoryEntry.frame Paging.Maps
  by_cases hp : (s.dir d i).present_bit = 0
  · simp [hp]
  · by_cases hz : (s.dir d i).lower_address.toNat = 0
    · simp [hz, h0.symm]
    · simp [hz]

/-! ## The invariant -/

structure Framed (kernel : ι) (s : Paging ι) : Prop where
  count : s.manager.free_page_frame_count.toNat = clearCount s.manager.marked pageFrameMaxCount
  zero : s.manager.marked 0 = true
  kernel_map : ∀ i : Fin pageEntryCount, i.val = 0 ∨ i.val = 0x300 → s.dir kernel i = kernelEntry
  frames : Ledger s.own ∅ s.taken

/-- What the map, the counter and the directories say of each other. -/
structure FramesExact (kernel : ι) (s : Paging ι) : Prop where
  free_count : s.manager.free_page_frame_count.toNat =
    clearCount s.manager.marked pageFrameMaxCount
  kernel_frame : s.manager.marked 0 = true
  kernel_maps : s.Maps kernel ⟨0, by decide⟩ 0 ∧ s.Maps kernel ⟨0x300, by decide⟩ 0
  mapped_once : ∀ f < pageFrameMaxCount, f ≠ 0 → s.manager.marked f = true →
    ∃! p : ι × Fin pageEntryCount, s.Maps p.1 p.2 f
  unmarked_free : ∀ f, s.manager.marked f = false → ∀ d i, ¬ s.Maps d i f

theorem Framed.exact (h : Framed kernel s) : FramesExact kernel s where
  free_count := h.count
  kernel_frame := h.zero
  kernel_maps := by
    have hmaps : ∀ i : Fin pageEntryCount, i.val = 0 ∨ i.val = 0x300 → s.Maps kernel i 0 := by
      intro i hi
      unfold Paging.Maps
      rw [h.kernel_map i hi]
      decide
    exact ⟨hmaps _ (Or.inl rfl), hmaps _ (Or.inr rfl)⟩
  mapped_once := by
    intro f _ h0 hm
    obtain ⟨p, hp⟩ := (h.frames.taken_iff f).mp ⟨h0, hm⟩
    refine ⟨p, (own_eq_some h0).mp hp, ?_⟩
    intro q hq
    exact h.frames.inj ((own_eq_some h0).mpr hq) hp
  unmarked_free := by
    intro f hm d i hmap
    have h0 : f ≠ 0 := by
      rintro rfl
      rw [h.zero] at hm
      cases hm
    have htaken := (h.frames.own_taken ((own_eq_some h0).mpr hmap)).2
    rw [hm] at htaken
    cases htaken

/-! ## The initial state -/

variable [DecidableEq ι]

theorem kernelEntry_frame : kernelEntry.frame = none := by decide

theorem initial_own (kernel : ι) (p : ι × Fin pageEntryCount) :
    (Paging.initial kernel).own p = none := by
  change (Function.update (fun _ _ => PageDirectoryEntry.zero) kernel pagingKernelPageDirectory p.1
    p.2).frame = none
  by_cases hd : p.1 = kernel
  · rw [hd, Function.update_self, pagingKernelPageDirectory]
    split
    · exact kernelEntry_frame
    · rfl
  · rw [Function.update_of_ne hd]
    rfl

theorem initial_marked (f : ℕ) : PageManagerState.initial.marked f = decide (f = 0) := by
  by_cases hf : f < 32
  · have hall : ∀ f < 32, PageManagerState.initial.marked f = decide (f = 0) := by decide
    exact hall f hf
  · rw [marked_of_ge (by omega), decide_eq_false (by omega)]

theorem initial_framed (kernel : ι) : Framed kernel (Paging.initial kernel) where
  count := by
    change _ = clearCount PageManagerState.initial.marked pageFrameMaxCount
    rw [clearCount_congr fun i _ => initial_marked i, pageFrameMaxCount_eq]
    change PageManagerState.initial.free_page_frame_count.toNat = _
    decide
  zero := initial_marked 0
  kernel_map := fun i hi => by
    change Function.update (fun _ _ => PageDirectoryEntry.zero) kernel pagingKernelPageDirectory
      kernel i = kernelEntry
    rw [Function.update_self]
    exact if_pos hi
  frames := by
    refine ⟨fun hi _ => ?_, fun _ => Set.notMem_empty _, fun f => ?_⟩
    · rw [initial_own] at hi
      cases hi
    · constructor
      · rintro ⟨h0, hm⟩
        rw [show (Paging.initial kernel).manager.marked f = _ from initial_marked f,
          decide_eq_true_eq] at hm
        exact absurd hm h0
      · rintro (hf | ⟨p, hp⟩)
        · exact absurd hf (Set.notMem_empty f)
        · rw [initial_own] at hp
          cases hp

/-! ## Rewriting an entry -/

theorem own_setEntry (s : Paging ι) (d : ι) (i : Fin pageEntryCount) (e : PageDirectoryEntry) :
    (s.setEntry d i e).own = Function.update s.own (d, i) e.frame := by
  ext1 ⟨d', i'⟩
  change (Function.update s.dir d (Function.update (s.dir d) i e) d' i').frame = _
  by_cases hd : d' = d
  · subst hd
    rw [Function.update_self]
    by_cases hi : i' = i
    · subst hi
      rw [Function.update_self, Function.update_self]
    · rw [Function.update_of_ne hi, Function.update_of_ne fun he => hi (Prod.mk.inj he).2]
      rfl
  · rw [Function.update_of_ne hd, Function.update_of_ne fun he => hd (Prod.mk.inj he).1]
    rfl

/-- A kernel mapping is not given away: it is present and owns nothing. -/
theorem setEntry_kernel_map {m : PageManagerState} {e : PageDirectoryEntry}
    (h : Framed kernel s) (hne : s.dir d i ≠ kernelEntry) (j : Fin pageEntryCount)
    (hj : j.val = 0 ∨ j.val = 0x300) :
    (Paging.setEntry { s with manager := m } d i e).dir kernel j = kernelEntry := by
  change Function.update s.dir d (Function.update (s.dir d) i e) kernel j = kernelEntry
  have hkeep := h.kernel_map j hj
  by_cases hd : kernel = d
  · subst hd
    have hji : j ≠ i := by
      rintro rfl
      exact hne hkeep
    rw [Function.update_self, Function.update_of_ne hji]
    exact hkeep
  · rw [Function.update_of_ne hd]
    exact hkeep

/-! ## One call -/

/-- The outcomes of an allocation: the address is mapped, no frame is left, or
frame `f` goes to the entry. -/
theorem allocate_cases (s : Paging ι) (d : ι) (virtualAddr : BitVec 32) :
    ((s.dir d (pageIndex virtualAddr)).present_bit ≠ 0 ∧
      pagingAllocateUserPageFrame s d virtualAddr = (false, s)) ∨
    (s.dir d (pageIndex virtualAddr)).present_bit = 0 ∧
      ((∀ f, f ≠ 0 → f < 32 → s.manager.marked f = true) ∧
          pagingAllocateUserPageFrame s d virtualAddr = (false, s) ∨
        ∃ f, f ≠ 0 ∧ f < 32 ∧ s.manager.marked f = false ∧
          pagingAllocateUserPageFrame s d virtualAddr =
            (true, Paging.setEntry
              { s with manager :=
                ⟨s.manager.page_frame_map.setIfInBounds f true,
                  s.manager.free_page_frame_count - 1⟩ }
              d (pageIndex virtualAddr) (userEntry f))) := by
  unfold pagingAllocateUserPageFrame
  by_cases hp : (s.dir d (pageIndex virtualAddr)).present_bit = 0
  · rw [if_neg (not_not.mpr hp)]
    refine Or.inr ⟨hp, ?_⟩
    rcases freeFrame_cases s.manager with ⟨hnone, hall⟩ | ⟨f, h0, hf, hclear, hsome⟩
    · rw [hnone]
      exact Or.inl ⟨hall, rfl⟩
    · rw [hsome]
      exact Or.inr ⟨f, h0, hf, hclear, rfl⟩
  · rw [if_pos hp]
    exact Or.inl ⟨hp, rfl⟩

/-- The outcomes of a release in a framed state: it is refused, or the entry
gives back the frame it owns. -/
theorem free_cases (h : Framed kernel s) (d : ι) (virtualAddr : BitVec 32) :
    pagingFreeUserPageFrame s d virtualAddr = (false, s) ∨
    ∃ f, s.own (d, pageIndex virtualAddr) = some f ∧
      pagingFreeUserPageFrame s d virtualAddr =
        (true, Paging.setEntry
          { s with manager :=
            ⟨s.manager.page_frame_map.setIfInBounds f false,
              s.manager.free_page_frame_count + 1⟩ }
          d (pageIndex virtualAddr) .zero) := by
  unfold pagingFreeUserPageFrame
  dsimp only
  by_cases hp : (s.dir d (pageIndex virtualAddr)).present_bit = 0
  · rw [if_pos hp]
    exact Or.inl rfl
  · rw [if_neg hp]
    by_cases hge : (s.dir d (pageIndex virtualAddr)).lower_address.toNat ≥ pageFrameMaxCount
    · rw [if_pos hge]
      exact Or.inl rfl
    · rw [if_neg hge]
      by_cases h0 : (s.dir d (pageIndex virtualAddr)).lower_address.toNat = 0
      · rw [if_pos h0]
        exact Or.inl rfl
      · have hown := (own_eq_some h0).mpr ⟨hp, rfl⟩
        -- the ledger knows the frame to be marked
        rw [if_neg h0, if_pos (h.frames.own_taken hown).2]
        exact Or.inr ⟨_, hown, rfl⟩

namespace Framed

theorem lt_of_marked {m : PageManagerState} (h : m.marked f = true) : f < 32 := by
  by_contra hge
  rw [marked_of_ge (by omega)] at h
  cases h

/-- Frame `f` goes to an entry that is not present. -/
theorem allocate (h : Framed kernel s) (hp : (s.dir d i).present_bit = 0) (h0 : f ≠ 0)
    (hf : f < 32) (hclear : s.manager.marked f = false) :
    Framed kernel (Paging.setEntry
      { s with manager :=
        ⟨s.manager.page_frame_map.setIfInBounds f true, s.manager.free_page_frame_count - 1⟩ }
      d i (userEntry f)) where
  count := by
    have hins : clearCount (Function.update s.manager.marked f true) pageFrameMaxCount + 1 =
        clearCount s.manager.marked pageFrameMaxCount :=
      clearCount_insert (by simpa using hf) hclear (Function.update_self ..)
        fun j _ hj => Function.update_of_ne hj ..
    have hcount := h.count
    change (s.manager.free_page_frame_count - 1).toNat = clearCount
      (PageManagerState.marked ⟨s.manager.page_frame_map.setIfInBounds f true, _⟩) _
    rw [marked_set _ _ hf, BitVec.toNat_sub]
    have hlt := s.manager.free_page_frame_count.isLt
    have hone : (1 : BitVec 32).toNat = 1 := rfl
    omega
  zero := by
    change PageManagerState.marked ⟨s.manager.page_frame_map.setIfInBounds f true, _⟩ 0 = true
    rw [marked_set _ _ hf, Function.update_of_ne h0.symm]
    exact h.zero
  kernel_map := by
    apply setEntry_kernel_map h
    intro he
    rw [he] at hp
    cases hp
  frames := by
    rw [own_setEntry, userEntry_frame h0 hf]
    have hnone : s.own (d, i) = none := if_pos (Or.inl hp)
    have hfresh : f ∉ s.taken := fun ht => by
      have hm := ht.2
      rw [hclear] at hm
      cases hm
    change Ledger (Function.update s.own (d, i) (some f)) ∅ _
    convert h.frames.enter hnone hfresh using 1
    ext g
    change g ≠ 0 ∧ PageManagerState.marked ⟨s.manager.page_frame_map.setIfInBounds f true, _⟩ g =
      true ↔ (g ≠ 0 ∧ s.manager.marked g = true) ∨ g = f
    rw [marked_set _ _ hf]
    by_cases hg : g = f
    · subst hg
      simp [h0]
    · rw [Function.update_of_ne hg]
      simp [hg]

/-- An entry gives back frame `f`. -/
theorem free (h : Framed kernel s) (hown : s.own (d, i) = some f) :
    Framed kernel (Paging.setEntry
      { s with manager :=
        ⟨s.manager.page_frame_map.setIfInBounds f false, s.manager.free_page_frame_count + 1⟩ }
      d i .zero) := by
  obtain ⟨h0, hmark⟩ := h.frames.own_taken hown
  have hf := lt_of_marked hmark
  refine ⟨?_, ?_, ?_, ?_⟩
  · have hins : clearCount s.manager.marked pageFrameMaxCount + 1 =
        clearCount (Function.update s.manager.marked f false) pageFrameMaxCount :=
      clearCount_insert (by simpa using hf) (Function.update_self ..) hmark
        fun j _ hj => (Function.update_of_ne hj ..).symm
    have hcount := h.count
    have hle := clearCount_le (Function.update s.manager.marked f false) pageFrameMaxCount
    rw [pageFrameMaxCount_eq] at hle hins hcount
    change (s.manager.free_page_frame_count + 1).toNat = clearCount
      (PageManagerState.marked ⟨s.manager.page_frame_map.setIfInBounds f false, _⟩) _
    rw [marked_set _ _ hf, BitVec.toNat_add, pageFrameMaxCount_eq]
    have hone : (1 : BitVec 32).toNat = 1 := rfl
    omega
  · change PageManagerState.marked ⟨s.manager.page_frame_map.setIfInBounds f false, _⟩ 0 = true
    rw [marked_set _ _ hf, Function.update_of_ne (Ne.symm h0)]
    exact h.zero
  · apply setEntry_kernel_map h
    intro he
    unfold Paging.own at hown
    rw [he, kernelEntry_frame] at hown
    cases hown
  · rw [own_setEntry]
    change Ledger (Function.update s.own (d, i) none) ∅ _
    convert h.frames.leave hown using 1
    ext g
    change g ≠ 0 ∧ PageManagerState.marked ⟨s.manager.page_frame_map.setIfInBounds f false, _⟩ g =
      true ↔ (g ≠ 0 ∧ s.manager.marked g = true) ∧ ¬ g = f
    rw [marked_set _ _ hf]
    by_cases hg : g = f
    · subst hg
      simp
    · rw [Function.update_of_ne hg]
      simp [hg]

theorem call (h : Framed kernel s) (c : Call ι) : Framed kernel (c.run s).2 := by
  cases c with
  | allocate d virtualAddr =>
      rcases allocate_cases s d virtualAddr with
        ⟨-, hres⟩ | ⟨hp, ⟨-, hres⟩ | ⟨f, h0, hf, hclear, hres⟩⟩
      · rw [Call.run, hres]
        exact h
      · rw [Call.run, hres]
        exact h
      · rw [Call.run, hres]
        exact h.allocate hp h0 hf hclear
  | free d virtualAddr =>
      rcases free_cases h d virtualAddr with hres | ⟨f, hown, hres⟩
      · rw [Call.run, hres]
        exact h
      · rw [Call.run, hres]
        exact h.free hown

theorem runCalls (h : Framed kernel s) (cs : List (Call ι)) :
    Framed kernel (Memory.runCalls s cs) := by
  induction cs generalizing s with
  | nil => exact h
  | cons c cs ih => exact ih (h.call c)

end Framed

/-! ## Every run -/

/-- **Page frames are neither shared nor leaked** in any run of allocations and
releases over any page directories. A call that returns false changes nothing,
and an allocation fails exactly on a mapped address or when every frame is
marked. -/
theorem page_frames_exact (kernel : ι) (cs : List (Call ι)) :
    let s := runCalls (Paging.initial kernel) cs
    FramesExact kernel s ∧
    (∀ c : Call ι, (c.run s).1 = false → (c.run s).2 = s) ∧
    ∀ d virtualAddr, (pagingAllocateUserPageFrame s d virtualAddr).1 = false ↔
      (s.dir d (pageIndex virtualAddr)).present_bit ≠ 0 ∨
        ∀ f < pageFrameMaxCount, s.manager.marked f = true := by
  intro s
  have h : Framed kernel s := (initial_framed kernel).runCalls cs
  refine ⟨h.exact, ?_, ?_⟩
  · intro c hfail
    cases c with
    | allocate d virtualAddr =>
        rcases allocate_cases s d virtualAddr with ⟨-, hres⟩ | ⟨-, ⟨-, hres⟩ | ⟨f, -, -, -, hres⟩⟩
        · rw [Call.run, hres]
        · rw [Call.run, hres]
        · rw [Call.run, hres] at hfail
          cases hfail
    | free d virtualAddr =>
        rcases free_cases h d virtualAddr with hres | ⟨f, -, hres⟩
        · rw [Call.run, hres]
        · rw [Call.run, hres] at hfail
          cases hfail
  · intro d virtualAddr
    rcases allocate_cases s d virtualAddr with
      ⟨hp, hres⟩ | ⟨hp, ⟨hall, hres⟩ | ⟨f, -, hf, hclear, hres⟩⟩
    · rw [hres]
      exact ⟨fun _ => Or.inl hp, fun _ => rfl⟩
    · rw [hres]
      refine ⟨fun _ => Or.inr fun f hf => ?_, fun _ => rfl⟩
      by_cases h0 : f = 0
      · exact h0 ▸ h.zero
      · exact hall f h0 (by simpa using hf)
    · rw [hres]
      constructor
      · intro hfail
        cases hfail
      · rintro (hmapped | hfull)
        · exact absurd hp hmapped
        · have hmark := hfull f (by simpa using hf)
          rw [hclear] at hmark
          cases hmark

/-- The second directory takes frame 1, and its release leaves 31 frames. -/
example : (runCalls (Paging.initial false)
    [.allocate true 0x400000, .free true 0x400000]).manager.free_page_frame_count = 31 := by
  decide +kernel

end RendangOS.Memory
