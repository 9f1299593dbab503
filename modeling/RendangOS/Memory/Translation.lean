import RendangOS.Lib.LookAside
import RendangOS.Memory.Paging

/-!
# Address spaces

The processor translates the addresses of a user program through the page directory in
`cr3`, with copies of its entries in the TLB. Copies enter the TLB and leave it at any
time; the two calls evict the one page they change. Whatever the order of all this, no
program sees a stale page, and none touches a page of another directory or the frame of
the kernel.
-/

namespace RendangOS.Memory

open LookAside

variable {ι : Type*}

/-! ## The processor -/

/-- The access that an entry allows in ring 3: the address in the page of 4 MiB. -/
def PageDirectoryEntry.userAddress (e : PageDirectoryEntry) (virtualAddr : BitVec 32)
    (write : Bool) : Option ℕ :=
  if e.present_bit = 1 ∧ e.user_bit = 1 ∧ e.use_pagesize_4_mb = 1 ∧
      (write = true → e.write_bit = 1) then
    some (e.lower_address.toNat * pageFrameSize + virtualAddr.toNat % pageFrameSize)
  else none

/-- The page directories, the directory in `cr3`, the TLB, and the physical memory. -/
structure Cpu (ι : Type*) where
  paging : Paging ι
  cr3 : ι
  tlb : Fin pageEntryCount → Option PageDirectoryEntry
  memory : ℕ → BitVec 8

/-- The translation by the tables, for a program in directory `d`. -/
def Cpu.walk (m : Cpu ι) (d : ι) (virtualAddr : BitVec 32) (write : Bool) : Option ℕ :=
  (m.paging.dir d (pageIndex virtualAddr)).userAddress virtualAddr write

/-- The translation by the processor, which asks the TLB first. -/
def Cpu.translate (m : Cpu ι) (virtualAddr : BitVec 32) (write : Bool) : Option ℕ :=
  (look (m.paging.dir m.cr3) m.tlb (pageIndex virtualAddr)).userAddress virtualAddr write

/-- The byte that a program in directory `d` reads. -/
def Cpu.seen (m : Cpu ι) (d : ι) (virtualAddr : BitVec 32) : Option (BitVec 8) :=
  (m.walk d virtualAddr false).map m.memory

/-- The argument of `flush_single_tlb`. -/
def Call.virtualAddr : Call ι → BitVec 32
  | .allocate _ virtualAddr => virtualAddr
  | .free _ virtualAddr => virtualAddr

def Call.dir : Call ι → ι
  | .allocate d _ => d
  | .free d _ => d

inductive CpuEvent (ι : Type*) where
  | call (c : Call ι)
  /-- A copy of the entry comes into the TLB. -/
  | cache (i : Fin pageEntryCount)
  | evict (i : Fin pageEntryCount)
  | loadCr3 (d : ι)
  /-- A store in ring 3. -/
  | store (virtualAddr : BitVec 32) (b : BitVec 8)

/-! ## Addresses -/

variable {m : Cpu ι} {kernel d d' : ι} {i : Fin pageEntryCount}
  {virtualAddr virtualAddr' : BitVec 32} {write write' : Bool} {p : ℕ} {e : PageDirectoryEntry}

theorem pageIndex_eq (virtualAddr : BitVec 32) :
    (pageIndex virtualAddr).val = virtualAddr.toNat / pageFrameSize := by
  unfold pageIndex
  dsimp only
  rw [BitVec.toNat_and, BitVec.toNat_ushiftRight, Nat.shiftRight_eq_div_pow]
  have hlt := virtualAddr.isLt
  have hmask : (0x3FF#32).toNat = 2 ^ 10 - 1 := rfl
  rw [hmask, Nat.and_two_pow_sub_one_eq_mod]
  change virtualAddr.toNat / 2 ^ 22 % 2 ^ 10 = virtualAddr.toNat / 2 ^ 22
  omega

/-- A page and a place in it make an address. -/
theorem virtualAddr_ext (hpage : pageIndex virtualAddr = pageIndex virtualAddr')
    (hplace : virtualAddr.toNat % pageFrameSize = virtualAddr'.toNat % pageFrameSize) :
    virtualAddr = virtualAddr' := by
  have hdiv := congrArg Fin.val hpage
  rw [pageIndex_eq, pageIndex_eq] at hdiv
  apply BitVec.eq_of_toNat_eq
  rw [← Nat.div_add_mod virtualAddr.toNat pageFrameSize, hdiv, hplace, Nat.div_add_mod]

theorem userAddress_eq_some (h : e.userAddress virtualAddr write = some p) :
    e.present_bit = 1 ∧ e.user_bit = 1 ∧
      p = e.lower_address.toNat * pageFrameSize + virtualAddr.toNat % pageFrameSize := by
  unfold PageDirectoryEntry.userAddress at h
  split at h
  · next hgrant => exact ⟨hgrant.1, hgrant.2.1, (Option.some.inj h).symm⟩
  · cases h

theorem userAddress_parts (h : e.userAddress virtualAddr write = some p) :
    p / pageFrameSize = e.lower_address.toNat ∧
      p % pageFrameSize = virtualAddr.toNat % pageFrameSize := by
  obtain ⟨-, -, rfl⟩ := userAddress_eq_some h
  have hlt : virtualAddr.toNat % pageFrameSize < pageFrameSize := Nat.mod_lt _ (by decide)
  constructor
  · rw [Nat.add_comm, Nat.add_mul_div_right _ _ (by decide), Nat.div_eq_of_lt hlt, Nat.zero_add]
  · rw [Nat.add_comm, Nat.add_mul_mod_self_right, Nat.mod_mod]

/-! ## Sound states -/

structure Cpu.Sound (kernel : ι) (m : Cpu ι) : Prop where
  framed : Framed kernel m.paging
  coherent : Coherent (m.paging.dir m.cr3) m.tlb
  /-- The frame of the kernel is not a user's. -/
  users : ∀ d i, (m.paging.dir d i).user_bit = 1 → (m.paging.dir d i).lower_address.toNat ≠ 0

theorem Cpu.Sound.translate (h : m.Sound kernel) (virtualAddr : BitVec 32) (write : Bool) :
    m.translate virtualAddr write = m.walk m.cr3 virtualAddr write := by
  rw [Cpu.translate, h.coherent.look]
  rfl

/-- A user's address is in the frame that the page owns. -/
theorem Cpu.Sound.own (h : m.Sound kernel) (hwalk : m.walk d virtualAddr write = some p) :
    p / pageFrameSize ≠ 0 ∧
      m.paging.own (d, pageIndex virtualAddr) = some (p / pageFrameSize) := by
  obtain ⟨hpresent, huser, -⟩ := userAddress_eq_some hwalk
  have hframe := (userAddress_parts hwalk).1
  have hne := h.users d (pageIndex virtualAddr) huser
  rw [← hframe] at hne
  refine ⟨hne, (own_eq_some hne).mpr ⟨?_, hframe.symm⟩⟩
  rw [hpresent]
  decide

/-- Two addresses of programs that lead to one place are one address of one program. -/
theorem Cpu.Sound.walk_inj (h : m.Sound kernel) (hwalk : m.walk d virtualAddr write = some p)
    (hwalk' : m.walk d' virtualAddr' write' = some p) : d = d' ∧ virtualAddr = virtualAddr' := by
  have hpages := h.framed.frames.inj (h.own hwalk).2 (h.own hwalk').2
  obtain ⟨hdir, hpage⟩ := Prod.mk.inj hpages
  have hplace := (userAddress_parts hwalk).2.symm.trans (userAddress_parts hwalk').2
  exact ⟨hdir, virtualAddr_ext hpage hplace⟩

/-! ## Events -/

variable [DecidableEq ι]

/-- A call that succeeds ends in `flush_single_tlb`. No entry is global, so that a load of
`cr3` empties the TLB. A store that is not allowed faults. -/
def Cpu.step (m : Cpu ι) : CpuEvent ι → Cpu ι
  | .call c =>
      let ret := c.run m.paging
      { m with
        paging := ret.2
        tlb := if ret.1 then Function.update m.tlb (pageIndex c.virtualAddr) none else m.tlb }
  | .cache i =>
      if (m.paging.dir m.cr3 i).present_bit = 0 then m
      else { m with tlb := Function.update m.tlb i (some (m.paging.dir m.cr3 i)) }
  | .evict i => { m with tlb := Function.update m.tlb i none }
  | .loadCr3 d => { m with cr3 := d, tlb := fun _ => none }
  | .store virtualAddr b =>
      match m.translate virtualAddr true with
      | none => m
      | some p => { m with memory := Function.update m.memory p b }

def Cpu.run (m : Cpu ι) (events : List (CpuEvent ι)) : Cpu ι := events.foldl Cpu.step m

/-- `kernel_setup` behind the load of `cr3`. -/
def Cpu.initial (kernel : ι) (memory : ℕ → BitVec 8) : Cpu ι where
  paging := .initial kernel
  cr3 := kernel
  tlb := fun _ => none
  memory := memory

/-- A call is refused, or it rewrites the one entry that it evicts. -/
theorem call_cases {s : Paging ι} (h : Framed kernel s) (c : Call ι) :
    c.run s = (false, s) ∨ ∃ e : PageDirectoryEntry, (c.run s).1 = true ∧
      (c.run s).2.dir = Function.update s.dir c.dir
        (Function.update (s.dir c.dir) (pageIndex c.virtualAddr) e) ∧
      (e.user_bit = 1 → e.lower_address.toNat ≠ 0) := by
  cases c with
  | allocate d virtualAddr =>
      rcases allocate_cases s d virtualAddr with
        ⟨-, hres⟩ | ⟨-, ⟨-, hres⟩ | ⟨f, h0, hf, -, hres⟩⟩
      · exact Or.inl hres
      · exact Or.inl hres
      · refine Or.inr ⟨userEntry f, ?_, ?_, fun _ => ?_⟩
        · rw [Call.run, hres]
        · rw [Call.run, hres]
          rfl
        · rwa [userEntry_lower_address hf]
  | free d virtualAddr =>
      rcases free_cases h d virtualAddr with hres | ⟨f, -, hres⟩
      · exact Or.inl hres
      · refine Or.inr ⟨.zero, ?_, ?_, fun huser => ?_⟩
        · rw [Call.run, hres]
        · rw [Call.run, hres]
          rfl
        · cases huser

theorem initial_sound (kernel : ι) (memory : ℕ → BitVec 8) :
    (Cpu.initial kernel memory).Sound kernel where
  framed := initial_framed kernel
  coherent := coherent_flush _
  users := by
    intro d i huser
    have hnone : ((Paging.initial kernel).dir d i).user_bit = 0 := by
      change (Function.update (fun _ _ => PageDirectoryEntry.zero) kernel
        pagingKernelPageDirectory d i).user_bit = 0
      by_cases hd : d = kernel
      · subst hd
        rw [Function.update_self, pagingKernelPageDirectory]
        split <;> rfl
      · rw [Function.update_of_ne hd]
        rfl
    rw [show (Cpu.initial kernel memory).paging = Paging.initial kernel from rfl, hnone] at huser
    cases huser

theorem Cpu.Sound.step (h : m.Sound kernel) (event : CpuEvent ι) : (m.step event).Sound kernel := by
  cases event with
  | call c =>
      rcases call_cases h.framed c with hres | ⟨e, hok, hdir, hframe⟩
      · have hsame : m.step (.call c) = m := by
          unfold Cpu.step
          dsimp only
          rw [hres]
          rfl
        rw [hsame]
        exact h
      · refine ⟨h.framed.call c, ?_, ?_⟩
        · change Coherent ((c.run m.paging).2.dir m.cr3)
            (if (c.run m.paging).1 then Function.update m.tlb (pageIndex c.virtualAddr) none
              else m.tlb)
          rw [if_pos hok, hdir]
          by_cases hd : m.cr3 = c.dir
          · rw [← hd, Function.update_self]
            exact h.coherent.rewrite _ e
          · rw [Function.update_of_ne hd]
            exact h.coherent.evict _
        · intro d i huser
          change ((c.run m.paging).2.dir d i).user_bit = 1 at huser
          change ((c.run m.paging).2.dir d i).lower_address.toNat ≠ 0
          rw [hdir] at huser ⊢
          by_cases hd : d = c.dir
          · subst hd
            rw [Function.update_self] at huser ⊢
            by_cases hi : i = pageIndex c.virtualAddr
            · subst hi
              rw [Function.update_self] at huser ⊢
              exact hframe huser
            · rw [Function.update_of_ne hi] at huser ⊢
              exact h.users _ i huser
          · rw [Function.update_of_ne hd] at huser ⊢
            exact h.users d i huser
  | cache i =>
      unfold Cpu.step
      dsimp only
      split
      · exact h
      · exact ⟨h.framed, h.coherent.fill i, h.users⟩
  | evict i => exact ⟨h.framed, h.coherent.evict i, h.users⟩
  | loadCr3 d => exact ⟨h.framed, coherent_flush _, h.users⟩
  | store virtualAddr b =>
      unfold Cpu.step
      dsimp only
      split
      · exact h
      · exact ⟨h.framed, h.coherent, h.users⟩

theorem Cpu.Sound.run (h : m.Sound kernel) (events : List (CpuEvent ι)) :
    (m.run events).Sound kernel := by
  induction events generalizing m with
  | nil => exact h
  | cons event events ih => exact ih (h.step event)

/-! ## What programs see -/

/-- A store lands in the page that the running program has there. -/
theorem Cpu.Sound.memory_step (h : m.Sound kernel) (event : CpuEvent ι)
    (hp : ∀ virtualAddr, m.walk m.cr3 virtualAddr true ≠ some p) :
    (m.step event).memory p = m.memory p := by
  cases event with
  | store virtualAddr b =>
      unfold Cpu.step
      dsimp only
      split
      · rfl
      · next q hq =>
        have hne : p ≠ q := by
          rintro rfl
          exact hp virtualAddr (h.translate virtualAddr true ▸ hq)
        exact Function.update_of_ne hne b m.memory
  | cache i =>
      unfold Cpu.step
      dsimp only
      split <;> rfl
  | call c => rfl
  | evict i => rfl
  | loadCr3 d => rfl

/-- The frame of the kernel. -/
theorem Cpu.Sound.kernel_memory (h : m.Sound kernel) (events : List (CpuEvent ι))
    (hp : p < pageFrameSize) : (m.run events).memory p = m.memory p := by
  induction events generalizing m with
  | nil => rfl
  | cons event events ih =>
      refine (ih (h.step event)).trans (h.memory_step event fun virtualAddr hwalk => ?_)
      exact (h.own hwalk).1 (Nat.div_eq_of_lt hp)

/-- The event runs directory `d`, or changes it. -/
def CpuEvent.Concerns (d : ι) : CpuEvent ι → Prop
  | .call c => c.dir = d
  | .loadCr3 d' => d' = d
  | _ => False

theorem Cpu.Sound.step_seen (h : m.Sound kernel) {event : CpuEvent ι} (hrun : m.cr3 ≠ d)
    (hother : ¬ event.Concerns d) :
    (m.step event).cr3 ≠ d ∧
      ∀ virtualAddr, (m.step event).seen d virtualAddr = m.seen d virtualAddr := by
  have hdir : (m.step event).paging.dir d = m.paging.dir d := by
    cases event with
    | call c =>
        change (c.run m.paging).2.dir d = m.paging.dir d
        rcases call_cases h.framed c with hres | ⟨e, -, hdir, -⟩
        · rw [hres]
        · rw [hdir, Function.update_of_ne (Ne.symm hother)]
    | cache i =>
        unfold Cpu.step
        dsimp only
        split <;> rfl
    | store virtualAddr b =>
        unfold Cpu.step
        dsimp only
        split <;> rfl
    | evict i => rfl
    | loadCr3 d' => rfl
  constructor
  · cases event with
    | loadCr3 d' => exact hother
    | cache i =>
        unfold Cpu.step
        dsimp only
        split <;> exact hrun
    | store virtualAddr b =>
        unfold Cpu.step
        dsimp only
        split <;> exact hrun
    | call c => exact hrun
    | evict i => exact hrun
  · intro virtualAddr
    unfold Cpu.seen
    rw [show (m.step event).walk d virtualAddr false = m.walk d virtualAddr false by
      unfold Cpu.walk
      rw [hdir]]
    cases hwalk : m.walk d virtualAddr false with
    | none => rfl
    | some p =>
        refine congrArg some (h.memory_step event fun virtualAddr' hwalk' => ?_)
        exact hrun (h.walk_inj hwalk' hwalk).1

theorem Cpu.Sound.run_seen (h : m.Sound kernel) (events : List (CpuEvent ι)) (hrun : m.cr3 ≠ d)
    (hother : ∀ event ∈ events, ¬ event.Concerns d) (virtualAddr : BitVec 32) :
    (m.run events).seen d virtualAddr = m.seen d virtualAddr := by
  induction events generalizing m with
  | nil => rfl
  | cons event events ih =>
      obtain ⟨hrun', hseen⟩ := h.step_seen hrun (hother event List.mem_cons_self)
      exact (ih (h.step event) hrun' fun e he => hother e (List.mem_cons_of_mem _ he)).trans
        (hseen virtualAddr)

/-! ## Every run -/

/-- **Translations are exact**: in every run of calls, loads of `cr3`, stores and fills of
the TLB, the processor finds what the tables say, no place is reached from two user
addresses, and user programs leave the frame of the kernel alone. -/
theorem translations_exact (kernel : ι) (memory : ℕ → BitVec 8) (events : List (CpuEvent ι)) :
    let m := (Cpu.initial kernel memory).run events
    (∀ virtualAddr write, m.translate virtualAddr write = m.walk m.cr3 virtualAddr write) ∧
    (∀ d virtualAddr d' virtualAddr' p, m.walk d virtualAddr false = some p →
      m.walk d' virtualAddr' false = some p → d = d' ∧ virtualAddr = virtualAddr') ∧
    ∀ p < pageFrameSize, m.memory p = memory p := by
  intro m
  have h : m.Sound kernel := (initial_sound kernel memory).run events
  refine ⟨h.translate, fun d virtualAddr d' virtualAddr' p => h.walk_inj, fun p hp => ?_⟩
  exact (initial_sound kernel memory).kernel_memory events hp

/-- **Address spaces are private**: what a program sees stays as it is for as long as it
does not run and its directory is left alone, whatever the others do. -/
theorem address_spaces_private (kernel : ι) (memory : ℕ → BitVec 8)
    (events events' : List (CpuEvent ι)) {d : ι}
    (hrun : ((Cpu.initial kernel memory).run events).cr3 ≠ d)
    (hother : ∀ event ∈ events', ¬ event.Concerns d) (virtualAddr : BitVec 32) :
    ((Cpu.initial kernel memory).run (events ++ events')).seen d virtualAddr =
      ((Cpu.initial kernel memory).run events).seen d virtualAddr := by
  have h := (initial_sound kernel memory).run events
  rw [Cpu.run, List.foldl_append]
  exact h.run_seen events' hrun hother virtualAddr

/-- Directory 2 has a page, and a program in directory 1 stores to the same address. -/
theorem address_spaces_private_two :
    let before : List (CpuEvent (Fin 3)) :=
      [.call (.allocate 2 0x400000), .loadCr3 2, .store 0x400000 7, .loadCr3 1]
    let after : List (CpuEvent (Fin 3)) := [.call (.allocate 1 0x400000), .store 0x400000 9]
    ((Cpu.initial 0 fun _ => 0).run (before ++ after)).seen 2 0x400000 =
      ((Cpu.initial 0 fun _ => 0).run before).seen 2 0x400000 := by
  intro before after
  exact address_spaces_private 0 _ before after (by decide) (by
    intro event hevent
    rcases List.mem_cons.mp hevent with rfl | hevent
    · exact (by decide : (1 : Fin 3) ≠ 2)
    · rw [List.mem_singleton.mp hevent]
      exact id) 0x400000

end RendangOS.Memory
