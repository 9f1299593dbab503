import RendangOS.Driver.Terminal
import RendangOS.Kernel.Inserter
import RendangOS.Memory.Translation

/-!
# Booting

`kernel_setup` from the screen on, behind the descriptor tables and the interrupts: the
disk is mounted, the page directory is switched, two pages are allocated for the user, and
`"shell"` is loaded from the root into one of them. The last step is `enter_user_mode`.
-/

namespace RendangOS.Kernel

open Ext2 Memory Driver LookAside

/-! ## Memory in ring 0 -/

variable {ι : Type*}

variable {c : Cpu ι} {virtualAddr : BitVec 32} {f n : ℕ} {buf : ℕ → BitVec 8}

theorem toNat_add_ofNat {k : ℕ} (h : virtualAddr.toNat + k < 2 ^ 32) :
    (virtualAddr + BitVec.ofNat 32 k).toNat = virtualAddr.toNat + k := by
  rw [BitVec.toNat_add, BitVec.toNat_ofNat]
  omega

/-- The start of a page of the running directory that is mapped to frame `f`. -/
structure MappedPage (c : Cpu ι) (virtualAddr : BitVec 32) (f : ℕ) : Prop where
  coherent : Coherent (c.paging.dir c.cr3) c.tlb
  start : virtualAddr.toNat % pageFrameSize = 0
  frame_lt : f < 32
  entry : c.paging.dir c.cr3 (pageIndex virtualAddr) = userEntry f

namespace MappedPage

theorem entry_at (h : MappedPage c virtualAddr f) {k : ℕ} (hk : k < pageFrameSize) :
    c.paging.dir c.cr3 (pageIndex (virtualAddr + BitVec.ofNat 32 k)) = userEntry f ∧
      (virtualAddr + BitVec.ofNat 32 k).toNat % pageFrameSize = k := by
  have hsize : pageFrameSize = 2 ^ 22 := rfl
  have hlt := virtualAddr.isLt
  have hstart := h.start
  rw [hsize] at hk hstart
  have hsum : (virtualAddr + BitVec.ofNat 32 k).toNat = virtualAddr.toNat + k :=
    toNat_add_ofNat (by omega)
  have hpage : pageIndex (virtualAddr + BitVec.ofNat 32 k) = pageIndex virtualAddr := by
    apply Fin.ext
    rw [pageIndex_eq, pageIndex_eq, hsum, hsize]
    omega
  rw [hpage, hsum, hsize]
  exact ⟨h.entry, by omega⟩

theorem walk (h : MappedPage c virtualAddr f) {k : ℕ} (hk : k < pageFrameSize) (write : Bool) :
    c.walk c.cr3 (virtualAddr + BitVec.ofNat 32 k) write = some (f * pageFrameSize + k) := by
  obtain ⟨hentry, hplace⟩ := h.entry_at hk
  rw [Cpu.walk, hentry, PageDirectoryEntry.userAddress, if_pos ⟨rfl, rfl, rfl, fun _ => rfl⟩,
    userEntry_lower_address h.frame_lt, hplace]

end MappedPage

/-! ## The screen -/

def green : BitVec 8 := 2
def red : BitVec 8 := 4
def white : BitVec 8 := 15

/-- The globals of the file system, the processor with its tables, and the screen. -/
structure Machine (ι : Type*) where
  fs : Fs
  cpu : Cpu ι
  screen : Terminal

variable [DecidableEq ι]

def Machine.event (m : Machine ι) (event : CpuEvent ι) : Machine ι :=
  { m with cpu := m.cpu.step event }

variable {kernel : ι} {m : Machine ι} {a : Insertion} {env env' : ℕ → Env} {image : Fs}

/-- The manager after a frame is given away. -/
def handedOut (p : PageManagerState) (f : ℕ) : PageManagerState where
  page_frame_map := p.page_frame_map.setIfInBounds f true
  free_page_frame_count := p.free_page_frame_count - 1

end RendangOS.Kernel
