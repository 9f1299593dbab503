import RendangOS.Driver.Disk
import RendangOS.Ext2.Crash

/-!
# The file system at the ports

The file system calls the driver once for each block that it writes, and the
driver makes hundreds of port accesses for each call. What the drive reads is the
disk of the model, and what a prompt drive has on its medium between any two of
the accesses is that disk after some of the writes of the call.
-/

namespace RendangOS.Ata

open Interference Journal Ext2

/-- A call of the driver. The file system writes one block at a time. -/
inductive DiskCall where
  | read (lba : BitVec 32) (count : BitVec 8)
  | write (lba : BitVec 32) (buf : Block)

namespace DiskCall

def ops : DiskCall → List PortOp
  | read lba count => readBlocks lba count
  | write lba buf => writeBlocks (fun _ => buf) lba 1

/-- Its entry in the log of the file system. -/
def entry : DiskCall → Option (ℕ × Block)
  | read .. => none
  | write lba buf => some (ataAddress lba.toNat, buf)

/-- The drive transfers at least one block. -/
def Proper : DiskCall → Prop
  | read _ count => count ≠ 0
  | write .. => True

end DiskCall

variable {prompt : Bool} {S M : ℕ → Block} {cs : List DiskCall} {c : DiskCall}

/-- Some of the updates of a log are on the medium. -/
def OnMedium (prompt : Bool) (S : ℕ → Block) (ws : List (ℕ × Block)) (s : Host) : Prop :=
  prompt = true → ∃ vs, vs <:+ ws ∧ s.drive.medium = replay S vs

theorem OnMedium.append {ws ws' : List (ℕ × Block)} {s : Host}
    (h : OnMedium prompt (replay S ws) ws' s) : OnMedium prompt S (ws' ++ ws) s := by
  intro hp
  obtain ⟨vs, ⟨us, rfl⟩, hmedium⟩ := h hp
  refine ⟨vs ++ ws, ⟨us, (List.append_assoc ..).symm⟩, ?_⟩
  rw [hmedium, replay_append]

/-- What the call does in the model of the file system. -/
def DiskCall.apply (s : Fs) : DiskCall → Fs
  | read .. => s
  | write lba buf => Ext2.writeBlocks s buf lba.toNat

/-- A drive in a write of one block, `j` words into it. -/
def writingDrive (r : CommandBlock) (S N : ℕ → Block) (buf : Block) (j : ℕ) : Drive where
  regs := r
  phase := .writing r.lba 1 j (wordsOver 0 buf j)
  busy := !decide (j < halfBlockSize)
  sectors := sectorsAfter S r.lba (wordsOver 0 buf j) j
  medium := N

theorem exec_words (r : CommandBlock) (S N M : ℕ → Block) (buf : Block) {n : ℕ}
    (hn : n ≤ halfBlockSize) :
    Exec (ata false) ((List.range n).flatMap fun j => [.out16 (buf.extractLsb' (16 * j) 16)])
      ⟨writingDrive r S N buf 0, M⟩ [] ⟨writingDrive r S N buf n, M⟩ := by
  induction n with
  | zero => exact .refl ..
  | succ n ih =>
      have hlt : n < halfBlockSize := hn
      have hstep : (ata false).op (.out16 (buf.extractLsb' (16 * n) 16))
          ⟨writingDrive r S N buf n, M⟩ = some ⟨writingDrive r S N buf (n + 1), M⟩ := by
        have hphase : Phase.writing r.lba 1 n (wordsOver 0 buf n) =
            .dataOut r.lba 1 n (wordsOver 0 buf n) := if_pos hlt
        simp only [ata, PortOp.run, Drive.out16, writingDrive, hphase, if_pos hlt,
          decide_eq_true hlt, wordsOver_succ, Bool.not_true, Bool.false_eq_true, if_false,
          Option.map_some, Bool.not_false, Bool.and_true, sectorsAfter]
      rw [List.range_succ, List.flatMap_append, List.flatMap_singleton]
      exact (ih (Nat.le_of_succ_le hn)).seq (.op hstep (.refl ..))

theorem writingDrive_all (r : CommandBlock) (S N : ℕ → Block) (buf : Block) :
    writingDrive r S N buf halfBlockSize =
      ⟨r, .idle, true, Function.update S r.lba buf, N⟩ := by
  unfold writingDrive
  rw [wordsOver_all]
  simp [Phase.writing, sectorsAfter]

/-- The drive is busy with the last word when the flush comes. -/
theorem exec_flushLost (r : CommandBlock) (S N M : ℕ → Block) (lba : BitVec 32) (buf : Block) :
    ∃ r', Exec (ata false) (DiskCall.write lba buf).ops ⟨⟨r, .idle, false, S, N⟩, M⟩ []
      ⟨⟨r', .idle, false, Function.update S (ataAddress lba.toNat) buf, N⟩, M⟩ := by
  let r' : CommandBlock := ⟨1, lba.setWidth 8, (lba >>> 8).setWidth 8, (lba >>> 16).setWidth 8,
    ((0xE0 : BitVec 32) ||| ((lba >>> 24) &&& 0xF)).setWidth 8⟩
  have hlba : r'.lba = ataAddress lba.toNat := lba_setup lba
  have hcommand : Exec (ata false) (setup lba 1 ++ [.out 0x1F7 0x30])
      ⟨⟨r, .idle, false, S, N⟩, M⟩ [] ⟨⟨r', .dataOut r'.lba 1 0 0, true, S, N⟩, M⟩ :=
    .op (busyWait_free false rfl)
      (.op rfl (.op rfl (.op rfl (.op rfl (.op rfl (.op rfl (.refl ..)))))))
  have hwait : Exec (ata false) [.busyWait, .drqWait]
      ⟨⟨r', .dataOut r'.lba 1 0 0, true, S, N⟩, M⟩ [] ⟨writingDrive r' S N buf 0, M⟩ :=
    .env ⟨_, .ready _ (dataOut_ne _ _), rfl⟩
      (.op (busyWait_free false rfl) (.op (drqWait_free false rfl) (.refl ..)))
  have hwords := exec_words r' S N M buf le_rfl
  have hflush : Exec (ata false) [.out 0x1F7 0xE7, .busyWait]
      ⟨⟨r', .idle, true, Function.update S (ataAddress lba.toNat) buf, N⟩, M⟩ []
      ⟨⟨r', .idle, false, Function.update S (ataAddress lba.toNat) buf, N⟩, M⟩ :=
    .op rfl (.env ⟨_, .ready _ idle_ne, rfl⟩ (.op (busyWait_free false rfl) (.refl ..)))
  have hround : (List.range (1 : BitVec 8).toNat).flatMap (writeRound fun _ => buf) =
      writeRound (fun _ => buf) 0 := by
    change List.flatMap _ [0] = _
    exact List.flatMap_singleton ..
  rw [writingDrive_all, hlba] at hwords
  refine ⟨r', ?_⟩
  rw [DiskCall.ops, writeBlocks, hround]
  exact (hcommand.seq (hwait.seq hwords)).seq hflush

/-- **Without the flush, two writes can reach the medium in the other order**: both calls are
over, and the second block is on the medium without the first. -/
theorem lost_flush_reorders (r : CommandBlock) (S M : ℕ → Block) (lba lba' : BitVec 32)
    (buf buf' : Block) :
    ∃ s, Exec (ata false) ([DiskCall.write lba buf, .write lba' buf'].flatMap DiskCall.ops)
        ⟨⟨r, .idle, false, S, S⟩, M⟩ [] s ∧
      s.drive.sectors = replay S [(ataAddress lba'.toNat, buf'), (ataAddress lba.toNat, buf)] ∧
      s.drive.medium = replay S [(ataAddress lba'.toNat, buf')] := by
  obtain ⟨r₁, hfirst⟩ := exec_flushLost r S S M lba buf
  obtain ⟨r₂, hsecond⟩ := exec_flushLost r₁ _ S M lba' buf'
  have hback := hfirst.seq (hsecond.seq (Exec.env
    ⟨_, .writeBack _ (ataAddress lba'.toNat), rfl⟩ (.refl [] _)))
  refine ⟨_, hback, rfl, ?_⟩
  change Function.update S _ (Function.update (Function.update S _ buf) _ buf' _) = _
  rw [Function.update_self]
  rfl

end RendangOS.Ata
