import RendangOS.Memory.Paging
import Mathlib.Algebra.Order.Floor.Div

/-!
# The memory check

`paging_allocate_check` compares a rounded amount of bytes with the counter of
free frames. The counter is the number of unmarked frames, so the check is a
promise about the allocations that follow it, as long as the rounding does not
leave 32 bits.
-/

namespace RendangOS.Memory

open Bitmap

/-- `required_frames` in `uint32_t`. -/
def requiredFrames (amount : BitVec 32) : BitVec 32 :=
  (amount + BitVec.ofNat 32 pageFrameSize - 1) / BitVec.ofNat 32 pageFrameSize

def pagingAllocateCheck (m : PageManagerState) (amount : BitVec 32) : Bool :=
  decide (requiredFrames amount ≤ m.free_page_frame_count)

/-! ## What the check promises -/

/-- The frames that `amount` bytes take. -/
def framesFor (amount : BitVec 32) : ℕ := amount.toNat ⌈/⌉ pageFrameSize

def PageManagerState.unmarkedCount (m : PageManagerState) : ℕ :=
  clearCount m.marked pageFrameMaxCount

section Run

variable {ι : Type*} [DecidableEq ι]

/-- The entries of directory `d` that are not present. -/
def Paging.unmapped (s : Paging ι) (d : ι) : Finset (Fin pageEntryCount) :=
  Finset.univ.filter fun i => (s.dir d i).present_bit = 0

/-- The results of consecutive allocations in directory `d`. -/
def allocateAll (s : Paging ι) (d : ι) : List (BitVec 32) → List Bool
  | [] => []
  | virtualAddr :: rest =>
      let call := pagingAllocateUserPageFrame s d virtualAddr
      call.1 :: allocateAll call.2 d rest

/-- The addresses lie in distinct unmapped entries of directory `d`. -/
def Unmapped (s : Paging ι) (d : ι) (addrs : List (BitVec 32)) : Prop :=
  (addrs.map pageIndex).Nodup ∧ ∀ virtualAddr ∈ addrs, pageIndex virtualAddr ∈ s.unmapped d

/-- The check says whether `amount` bytes fit in the unmarked frames, and where
it does, that many allocations in directory `d` succeed. -/
structure PromiseKept (s : Paging ι) (d : ι) (amount : BitVec 32) : Prop where
  check_iff : pagingAllocateCheck s.manager amount = true ↔
    framesFor amount ≤ s.manager.unmarkedCount
  allocations : pagingAllocateCheck s.manager amount = true →
    ∀ addrs, addrs.length = framesFor amount → Unmapped s d addrs →
      ∀ result ∈ allocateAll s d addrs, result = true

end Run

/-! ## The rounding -/

theorem framesFor_eq (amount : BitVec 32) :
    framesFor amount = (amount.toNat + 4194303) / 4194304 := by
  have hsize : pageFrameSize = 4194304 := by decide
  rw [framesFor, Nat.ceilDiv_eq_add_pred_div, hsize, Nat.add_sub_assoc (by decide)]

/-- The sum stays in 32 bits, and the quotient is the exact one. -/
theorem requiredFrames_eq {amount : BitVec 32} (h : amount.toNat + 4194304 ≤ 2 ^ 32) :
    (requiredFrames amount).toNat = framesFor amount := by
  have hsum : (amount + 4194304#32 - 1#32).toNat = amount.toNat + 4194303 := by bv_omega
  rw [framesFor_eq, requiredFrames, BitVec.toNat_udiv]
  change (amount + 4194304#32 - 1#32).toNat / 4194304 = _
  rw [hsum]

/-- The sum wraps below one frame. -/
theorem requiredFrames_wrap {amount : BitVec 32} (h : 2 ^ 32 < amount.toNat + 4194304) :
    (requiredFrames amount).toNat = 0 := by
  have hsum : (amount + 4194304#32 - 1#32).toNat < 4194304 := by bv_omega
  rw [requiredFrames, BitVec.toNat_udiv]
  exact Nat.div_eq_of_lt hsum

theorem framesFor_wrap {amount : BitVec 32} (h : 2 ^ 32 < amount.toNat + 4194304) :
    framesFor amount = 1024 := by
  have hlt := amount.isLt
  rw [framesFor_eq]
  omega

variable {ι : Type*} {s : Paging ι} {kernel d : ι} {amount : BitVec 32}

theorem Framed.check_iff (h : Framed kernel s) :
    pagingAllocateCheck s.manager amount = true ↔
      (requiredFrames amount).toNat ≤ s.manager.unmarkedCount := by
  rw [pagingAllocateCheck, decide_eq_true_iff, BitVec.le_def, h.count]
  rfl

/-! ## The allocations -/

theorem mem_unmapped {i : Fin pageEntryCount} :
    i ∈ s.unmapped d ↔ (s.dir d i).present_bit = 0 := by
  rw [Paging.unmapped, Finset.mem_filter]
  exact ⟨And.right, fun h => ⟨Finset.mem_univ i, h⟩⟩

variable [DecidableEq ι]

/-- An unmarked frame is left: the allocation takes it, and every other entry of
the directory stays as it is. -/
theorem Framed.allocate_succeeds (h : Framed kernel s) {virtualAddr : BitVec 32}
    (hmap : pageIndex virtualAddr ∈ s.unmapped d) (hleft : 0 < s.manager.unmarkedCount) :
    ∃ s', pagingAllocateUserPageFrame s d virtualAddr = (true, s') ∧ Framed kernel s' ∧
      s'.manager.unmarkedCount + 1 = s.manager.unmarkedCount ∧
      ∀ i, i ≠ pageIndex virtualAddr → s'.dir d i = s.dir d i := by
  rcases allocate_cases s d virtualAddr with
    ⟨hp, -⟩ | ⟨hp, ⟨hall, -⟩ | ⟨f, h0, hf, hclear, hres⟩⟩
  · exact absurd (mem_unmapped.mp hmap) hp
  · have hfull : s.manager.unmarkedCount = 0 := by
      refine clearCount_eq_zero.mpr fun f hf => ?_
      by_cases h0 : f = 0
      · exact h0 ▸ h.zero
      · exact hall f h0 (by simpa using hf)
    omega
  · refine ⟨_, hres, h.allocate hp h0 hf hclear, ?_, ?_⟩
    · change clearCount (PageManagerState.marked ⟨s.manager.page_frame_map.setIfInBounds f true, _⟩)
        _ + 1 = _
      rw [marked_set _ _ hf]
      exact clearCount_insert (by simpa using hf) hclear (Function.update_self ..)
        fun j _ hj => Function.update_of_ne hj ..
    · intro i hi
      change Function.update s.dir d (Function.update (s.dir d) _ _) d i = s.dir d i
      rw [Function.update_self, Function.update_of_ne hi]

/-- Every allocation succeeds while the unmarked frames last. -/
theorem Framed.allocateAll_true (h : Framed kernel s) {addrs : List (BitVec 32)}
    (haddrs : Unmapped s d addrs) (hlen : addrs.length ≤ s.manager.unmarkedCount) :
    ∀ result ∈ allocateAll s d addrs, result = true := by
  induction addrs generalizing s with
  | nil => exact fun _ hmem => absurd hmem List.not_mem_nil
  | cons virtualAddr rest ih =>
      obtain ⟨hnodup, hmap⟩ := haddrs
      rw [List.map_cons, List.nodup_cons] at hnodup
      rw [List.length_cons] at hlen
      obtain ⟨s', hres, h', hcount, hkeep⟩ :=
        h.allocate_succeeds (hmap _ List.mem_cons_self) (by omega)
      have hrest : Unmapped s' d rest := by
        refine ⟨hnodup.2, fun v hv => mem_unmapped.mpr ?_⟩
        have hne : pageIndex v ≠ pageIndex virtualAddr := by
          intro he
          exact hnodup.1 (he ▸ List.mem_map_of_mem hv)
        rw [hkeep _ hne]
        exact mem_unmapped.mp (hmap v (List.mem_cons_of_mem _ hv))
      intro result hmem
      rw [allocateAll, hres, List.mem_cons] at hmem
      rcases hmem with rfl | hmem
      · rfl
      · exact ih h' hrest (by omega) result hmem

/-! ## The promise -/

/-- **When the memory check is a sound promise**: in every state reached and for
every directory with enough unmapped entries, it is kept exactly for the amounts
up to `2 ^ 32 - 4 MiB`. -/
theorem promise_kept_iff (kernel : ι) (cs : List (Call ι)) (d : ι) (amount : BitVec 32) :
    let s := runCalls (Paging.initial kernel) cs
    framesFor amount ≤ (s.unmapped d).card →
    (PromiseKept s d amount ↔ amount.toNat + pageFrameSize ≤ 2 ^ 32) := by
  intro s _
  have h : Framed kernel s := (initial_framed kernel).runCalls cs
  change _ ↔ amount.toNat + 4194304 ≤ 2 ^ 32
  constructor
  · intro hkept
    by_contra hlarge
    have hlarge' : 2 ^ 32 < amount.toNat + 4194304 := by omega
    -- the wrapped sum asks for no frame at all
    have htrue : pagingAllocateCheck s.manager amount = true := by
      rw [h.check_iff, requiredFrames_wrap hlarge']
      exact Nat.zero_le _
    have hfit := hkept.check_iff.mp htrue
    have hle : s.manager.unmarkedCount ≤ 32 := clearCount_le _ _
    rw [framesFor_wrap hlarge'] at hfit
    omega
  · intro hsmall
    have hiff : pagingAllocateCheck s.manager amount = true ↔
        framesFor amount ≤ s.manager.unmarkedCount := by
      rw [h.check_iff, requiredFrames_eq hsmall]
    refine ⟨hiff, fun htrue addrs hlen haddrs => ?_⟩
    exact h.allocateAll_true haddrs (hlen.trans_le (hiff.mp htrue))

/-- Two directories, the second one empty: 8 MiB fit. -/
theorem promise_kept_two_frames :
    framesFor 0x800000#32 ≤ ((runCalls (Paging.initial false) []).unmapped true).card ∧
    (PromiseKept (runCalls (Paging.initial false) []) true 0x800000#32 ↔
      (0x800000#32).toNat + pageFrameSize ≤ 2 ^ 32) := by
  have hroom : framesFor 0x800000#32 ≤
      ((runCalls (Paging.initial false) []).unmapped true).card := by
    have hall : (runCalls (Paging.initial false) []).unmapped true = Finset.univ :=
      Finset.filter_true_of_mem fun _ _ => rfl
    rw [hall, Finset.card_univ, Fintype.card_fin, framesFor_eq]
    decide
  exact ⟨hroom, promise_kept_iff false [] true 0x800000#32 hroom⟩

/-- The check grants 4 GiB less one byte on a machine of 128 MiB. -/
theorem check_grants_too_much :
    let s := runCalls (Paging.initial false) []
    framesFor 0xFFFFFFFF#32 ≤ (s.unmapped true).card ∧
    pagingAllocateCheck s.manager 0xFFFFFFFF#32 = true ∧
    ¬ framesFor 0xFFFFFFFF#32 ≤ s.manager.unmarkedCount ∧
    ¬ PromiseKept s true 0xFFFFFFFF#32 := by
  have hall : (runCalls (Paging.initial false) []).unmapped true = Finset.univ :=
    Finset.filter_true_of_mem fun _ _ => rfl
  have htrue : pagingAllocateCheck (runCalls (Paging.initial false) []).manager 0xFFFFFFFF#32 =
      true := by decide
  have hmany : framesFor 0xFFFFFFFF#32 = 1024 := framesFor_wrap (by decide)
  have hle : (runCalls (Paging.initial false) []).manager.unmarkedCount ≤ 32 := clearCount_le _ _
  have hshort : ¬ framesFor 0xFFFFFFFF#32 ≤
      (runCalls (Paging.initial false) []).manager.unmarkedCount := by omega
  refine ⟨?_, htrue, hshort, fun hkept => hshort (hkept.check_iff.mp htrue)⟩
  rw [hall, Finset.card_univ, Fintype.card_fin, hmany]
  decide

end RendangOS.Memory
