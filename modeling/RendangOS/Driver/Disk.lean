import RendangOS.Lib.Image
import RendangOS.Lib.Interference
import RendangOS.Ext2.State

/-!
# The disk driver

`read_blocks` and `write_blocks` transfer blocks by port accesses. The drive at
the other end of the ports takes its time: it is busy for any number of steps after
a command and after a sector, and it answers from a cache of which it writes
back any sector whenever it likes, and every sector on a flush. A data access out
of turn has no outcome, so a run that can always be ended has none.
-/

namespace RendangOS.Ata

open Image Interference Ext2

@[simp] def ataStatusBsy : BitVec 8 := 0x80
@[simp] def ataStatusRdy : BitVec 8 := 0x40
@[simp] def ataStatusDrq : BitVec 8 := 0x08

@[simp] def halfBlockSize : ℕ := 256

/-! ## The drive -/

/-- The registers behind the ports `0x1F2` to `0x1F6`. -/
structure CommandBlock where
  sectorCount : BitVec 8
  lbaLow : BitVec 8
  lbaMid : BitVec 8
  lbaHigh : BitVec 8
  device : BitVec 8

def CommandBlock.set (r : CommandBlock) (port : ℕ) (data : BitVec 8) : CommandBlock :=
  if port = 0x1F2 then { r with sectorCount := data }
  else if port = 0x1F3 then { r with lbaLow := data }
  else if port = 0x1F4 then { r with lbaMid := data }
  else if port = 0x1F5 then { r with lbaHigh := data }
  else if port = 0x1F6 then { r with device := data }
  else r

def CommandBlock.lba (r : CommandBlock) : ℕ :=
  (r.device.extractLsb' 0 4 ++ r.lbaHigh ++ r.lbaMid ++ r.lbaLow).toNat

/-- A count of 0 stands for 256 sectors. -/
def CommandBlock.count (r : CommandBlock) : ℕ :=
  if r.sectorCount = 0 then 256 else r.sectorCount.toNat

inductive Phase where
  | idle
  /-- There are `left` sectors to read from `lba` on, the first one from word `pos` on. -/
  | dataIn (lba left pos : ℕ)
  /-- There are `left` sectors to write from `lba` on; `pos` words of the first one are in
  `buffer`. -/
  | dataOut (lba left pos : ℕ) (buffer : Block)
  | flushing

/-- Before word `pos` of a sector, or past its last word. -/
def Phase.reading (lba left pos : ℕ) : Phase :=
  if pos < halfBlockSize then .dataIn lba left pos
  else if left = 1 then .idle
  else .dataIn (lba + 1) (left - 1) 0

def Phase.writing (lba left pos : ℕ) (buffer : Block) : Phase :=
  if pos < halfBlockSize then .dataOut lba left pos buffer
  else if left = 1 then .idle
  else .dataOut (lba + 1) (left - 1) 0 0

structure Drive where
  regs : CommandBlock
  phase : Phase
  busy : Bool
  /-- What the drive reads. -/
  sectors : ℕ → Block
  /-- What it still has after a power cut. -/
  medium : ℕ → Block

namespace Drive

/-- What `in(0x1F7)` returns. -/
def status (d : Drive) : BitVec 8 :=
  if d.busy = true then ataStatusBsy
  else
    match d.phase with
    | .dataIn .. | .dataOut .. => ataStatusRdy ||| ataStatusDrq
    | _ => ataStatusRdy

def command (d : Drive) (cmd : BitVec 8) : Drive :=
  match d.phase with
  | .idle =>
      if cmd = 0x20 then { d with phase := .dataIn d.regs.lba d.regs.count 0, busy := true }
      else if cmd = 0x30 then
        { d with phase := .dataOut d.regs.lba d.regs.count 0 0, busy := true }
      else if cmd = 0xE7 then { d with phase := .flushing, busy := true }
      else d
  | _ => d

/-- While it is busy the drive takes no byte, so a command is lost then. -/
def out (d : Drive) (port : ℕ) (data : BitVec 8) : Drive :=
  if d.busy = true then d
  else if port = 0x1F7 then d.command data
  else { d with regs := d.regs.set port data }

/-- The next word of a sector. Out of turn there is none. -/
def in16 (d : Drive) : Option (BitVec 16 × Drive) :=
  match d.phase with
  | .dataIn lba left pos =>
      if d.busy = true then none
      else
        some ((d.sectors lba).extractLsb' (16 * pos) 16,
          { d with
            phase := .reading lba left (pos + 1)
            busy := !decide (pos + 1 < halfBlockSize) && left != 1 })
  | _ => none

/-- With its last word the drive has the sector. A `prompt` drive is not busy then. -/
def out16 (prompt : Bool) (d : Drive) (data : BitVec 16) : Option Drive :=
  match d.phase with
  | .dataOut lba left pos buffer =>
      if d.busy = true then none
      else
        let buffer := splice buffer (16 * pos) data
        some { d with
          phase := .writing lba left (pos + 1) buffer
          busy := !decide (pos + 1 < halfBlockSize) && !prompt
          sectors :=
            if pos + 1 < halfBlockSize then d.sectors else Function.update d.sectors lba buffer }
  | _ => none

/-- What the drive does by itself. -/
inductive Turn : Drive → Drive → Prop
  | ready (d : Drive) : d.phase ≠ .flushing → Turn d { d with busy := false }
  | flushed (d : Drive) : d.phase = .flushing →
      Turn d { d with phase := .idle, busy := false, medium := d.sectors }
  | writeBack (d : Drive) (l : ℕ) :
      Turn d { d with medium := Function.update d.medium l (d.sectors l) }

end Drive

/-! ## The driver -/

structure Host where
  drive : Drive
  /-- The memory at `ptr`, in blocks. -/
  memory : ℕ → Block

inductive PortOp where
  /-- `ATA_busy_wait()`. -/
  | busyWait
  /-- `ATA_DRQ_wait()`, which waits for `ATA_STATUS_RDY`. -/
  | drqWait
  | out (port : ℕ) (data : BitVec 8)
  /-- `target[j] = in16(0x1F0)` in round `i`. -/
  | in16 (i j : ℕ)
  /-- `out16(0x1F0, data)`. -/
  | out16 (data : BitVec 16)

def PortOp.run (prompt : Bool) (o : PortOp) (s : Host) : Option Host :=
  match o with
  | .busyWait => if s.drive.status &&& ataStatusBsy = 0 then some s else none
  | .drqWait => if s.drive.status &&& ataStatusRdy ≠ 0 then some s else none
  | .out port data => some { s with drive := s.drive.out port data }
  | .in16 i j =>
      s.drive.in16.map fun (w, d) =>
        ⟨d, Function.update s.memory i (splice (s.memory i) (16 * j) w)⟩
  | .out16 data => (s.drive.out16 prompt data).map fun d => { s with drive := d }

/-- The driver at its ports and the drive behind them. -/
def ata (prompt : Bool) : Setting Host PortOp where
  op := PortOp.run prompt
  env s s' := ∃ d, s.drive.Turn d ∧ s' = { s with drive := d }

/-- The accesses before the command. -/
def setup (lba : BitVec 32) (count : BitVec 8) : List PortOp :=
  [.busyWait,
    .out 0x1F6 (((0xE0 : BitVec 32) ||| ((lba >>> 24) &&& 0xF)).setWidth 8),
    .out 0x1F2 count,
    .out 0x1F3 (lba.setWidth 8),
    .out 0x1F4 ((lba >>> 8).setWidth 8),
    .out 0x1F5 ((lba >>> 16).setWidth 8)]

/-- One round of the outer loop of `read_blocks`. -/
def readRound (i : ℕ) : List PortOp :=
  [.busyWait, .drqWait] ++ (List.range halfBlockSize).flatMap fun j => [.in16 i j]

def readBlocks (lba : BitVec 32) (count : BitVec 8) : List PortOp :=
  setup lba count ++ [.out 0x1F7 0x20] ++ (List.range count.toNat).flatMap readRound

/-- One round of the outer loop of `write_blocks`. -/
def writeRound (ptr : ℕ → Block) (i : ℕ) : List PortOp :=
  [.busyWait, .drqWait] ++
    (List.range halfBlockSize).flatMap fun j => [.out16 ((ptr i).extractLsb' (16 * j) 16)]

def writeBlocks (ptr : ℕ → Block) (lba : BitVec 32) (count : BitVec 8) : List PortOp :=
  setup lba count ++ [.out 0x1F7 0x30] ++ (List.range count.toNat).flatMap (writeRound ptr) ++
    [.out 0x1F7 0xE7, .busyWait]

/-! ## Words of a block -/

/-- The first `j` words of `b` over the start of `x`. -/
def wordsOver (x b : Block) (j : ℕ) : Block :=
  copyCells x 0 (fun j => b.extractLsb' (16 * j) 16) j

theorem wordsOver_succ (x b : Block) (j : ℕ) :
    splice (wordsOver x b j) (16 * j) (b.extractLsb' (16 * j) 16) = wordsOver x b (j + 1) := by
  simp only [wordsOver, copyCells, Nat.zero_add]

/-- All the words of a block are the block. -/
theorem wordsOver_all (x b : Block) : wordsOver x b halfBlockSize = b := by
  apply BitVec.eq_of_getLsbD_eq
  intro k hk
  have hcell : (wordsOver x b halfBlockSize).extractLsb' (0 + 16 * (k / 16)) 16 =
      b.extractLsb' (16 * (k / 16)) 16 :=
    extract_copyCells x 0 _ halfBlockSize (by simp; omega) (by simp)
  have hbit := congrArg (fun w => w.getLsbD (k % 16)) hcell
  simp only [BitVec.getLsbD_extractLsb', Nat.mod_lt k (by omega : 16 > 0), decide_true,
    Bool.true_and, Nat.zero_add] at hbit
  rwa [Nat.div_add_mod] at hbit

/-! ## The address -/

theorem lba_setup (lba : BitVec 32) :
    (((((0xE0 : BitVec 32) ||| ((lba >>> 24) &&& 0xF)).setWidth 8).extractLsb' 0 4 : BitVec 4) ++
      (lba >>> 16).setWidth 8 ++ (lba >>> 8).setWidth 8 ++ lba.setWidth 8).toNat =
      ataAddress lba.toNat := by
  have hbits :
      ((((0xE0 : BitVec 32) ||| ((lba >>> 24) &&& 0xF)).setWidth 8).extractLsb' 0 4 : BitVec 4) ++
        (lba >>> 16).setWidth 8 ++ (lba >>> 8).setWidth 8 ++ lba.setWidth 8 = lba.setWidth 28 := by
    apply BitVec.eq_of_getLsbD_eq
    intro i hi
    simp only [BitVec.getLsbD_append, BitVec.getLsbD_extractLsb', BitVec.getLsbD_setWidth,
      BitVec.getLsbD_or, BitVec.getLsbD_and, BitVec.getLsbD_ushiftRight]
    by_cases h8 : i < 8
    · simp [h8, hi]
    by_cases h16 : i < 16
    · simp [h8, hi, show i - 8 < 8 by omega, show 8 + (i - 8) = i by omega]
    by_cases h24 : i < 24
    · simp [h8, hi, show ¬ i - 8 < 8 by omega, show i - 8 - 8 < 8 by omega,
        show 16 + (i - 8 - 8) = i by omega]
    · -- the low four bits of the device register
      obtain ⟨k, rfl⟩ := Nat.exists_eq_add_of_le (Nat.le_of_not_lt h24)
      have hk : k < 4 := by omega
      interval_cases k <;> simp
  rw [hbits, BitVec.toNat_setWidth]
  rfl

/-! ## What holds between two accesses -/

/-- Each sector has its old or its new content. -/
def Mixed (old new S : ℕ → Block) : Prop := ∀ l, S l = old l ∨ S l = new l

def Between (prompt : Bool) (old new : ℕ → Block) (s : Host) : Prop :=
  prompt = true → Mixed old new s.drive.medium

variable {prompt free free' : Bool} {old new S S' M M' ptr : ℕ → Block}
  {R R' : CommandBlock → Prop} {p p' : Phase} {o : PortOp} {lba : BitVec 32} {count : BitVec 8}
  {a n left i j : ℕ}

theorem Between.writeBack {s : Host} (h : Between prompt old new s)
    (hS : Mixed old new s.drive.sectors) (l : ℕ) :
    Between prompt old new
      { s with drive := { s.drive with
          medium := Function.update s.drive.medium l (s.drive.sectors l) } } := by
  intro hp l'
  rcases eq_or_ne l' l with rfl | hne
  · simpa using hS l'
  · simpa [hne] using h hp l'

theorem idle_ne : Phase.idle ≠ .flushing := nofun

theorem status_bsy (d : Drive) : d.status &&& ataStatusBsy = 0 ↔ d.busy = false := by
  cases hb : d.busy <;> cases hp : d.phase <;> simp [Drive.status, hb, hp]

theorem status_rdy {d : Drive} (h : d.busy = false) : d.status &&& ataStatusRdy ≠ 0 := by
  cases hp : d.phase <;> simp [Drive.status, h, hp]

theorem busyWait_free (prompt : Bool) {s : Host} (h : s.drive.busy = false) :
    PortOp.run prompt .busyWait s = some s := if_pos ((status_bsy _).mpr h)

theorem drqWait_free (prompt : Bool) {s : Host} (h : s.drive.busy = false) :
    PortOp.run prompt .drqWait s = some s := if_pos (status_rdy h)

/-- Before round `i` of a transfer of `n` sectors from `a` on; `sector l k` is the phase with `k`
sectors left from `l` on. -/
def Phase.before (sector : ℕ → ℕ → Phase) (a n i : ℕ) : Phase :=
  if i < n then sector (a + i) (n - i) else .idle

variable {sector : ℕ → ℕ → Phase}

theorem dataOut_ne (l k : ℕ) : Phase.dataOut l k 0 0 ≠ .flushing := nofun

/-- The sectors once `i` blocks are written from `a` on. -/
def stored (S ptr : ℕ → Block) (a i : ℕ) : ℕ → Block :=
  fun l => if a ≤ l ∧ l < a + i then ptr (l - a) else S l

/-- The sectors after `j` words of the sector `l`. -/
def sectorsAfter (S : ℕ → Block) (l : ℕ) (x : Block) (j : ℕ) : ℕ → Block :=
  if j < halfBlockSize then S else Function.update S l x

end RendangOS.Ata
