import RendangOS.Ext2.Persistence
import RendangOS.Ext2.Reboot

/-!
# The image builder

The host program that puts a file into the disk image: `main` behind its arguments, with
the file system code of the kernel on an image in memory. It replaces a file of the same
name, and reads back what it wrote.
-/

namespace RendangOS.Kernel

open Ext2 NodeStore

/-! ## `main` -/

/-- `file_buffer` with `filesize`, and the two arguments that go into the request. -/
structure Insertion where
  file : ℕ → BitVec 8
  filesize : ℕ
  dest_name : List (BitVec 8)
  parent_inode : BitVec 32

/-- The bytes that `get_filename_length` counts. -/
def filename (name : List (BitVec 8)) : EntryName := ⟨name.take 255, List.length_take_le ..⟩

def Insertion.request (a : Insertion) : Request where
  buf := a.file
  name := filename a.dest_name
  name_null := false
  parent_inode := a.parent_inode
  buffer_size := BitVec.ofNat 32 a.filesize
  is_directory := false

/-- The calls of `write`, with the `delete` between them. -/
def Insertion.insert (a : Insertion) (env : ℕ → Env) (s : Fs) : ℤ × Fs :=
  let ret := write (env 1) s a.request
  if ret.1 = 1 then write (env 3) (delete (env 2) ret.2 a.request).2 a.request
  else ret

/-- The memory of a machine with the disk of `s`; `log` is about the disk. -/
structure OnDisk (s ram : Fs) : Prop where
  disk : ram.disk = s.disk
  log : ram.log = s.log

/-- A disk that holds no file system yet, or one that has seen calls and reboots. -/
def Insertable (image : Fs) : Prop :=
  isEmptyStorage image = true ∨ ∃ env s₀ events m,
    machineSystem.Run (createExt2 env s₀) events m ∧ OnDisk m image

/-- Calls and reboots lead to it. -/
def Live (m : Fs) : Prop := Reachable ProperCall m.plain

variable {env : ℕ → Env} {e : Env} {s m m' image ram : Fs} {a : Insertion} {r q : Request}
  {p : ℕ} {name : EntryName}

theorem Live.reboot (h : Live m) (hdisk : OnDisk m ram) (e : Env) :
    (initializeFilesystemExt2 e ram).plain = m.plain := by
  have hmount := reachable_mounted (h.mono fun _ _ hc => hc.onDirectory)
  exact hmount.reboot e hdisk.disk hdisk.log

theorem Live.step {action : Action} (h : Live m) (hstep : fsSystem.step m action m') : Live m' :=
  machine_projects.keeps _ (.call action) _ h hstep

theorem Live.initialized (h : Live m) : m.initialized = true :=
  (reachable_settled (h.mono fun _ _ hc => hc.onDirectory)).sound.initialized

theorem live_createExt2 (e : Env) (s : Fs) : Live (createExt2 e s) := by
  have hreach : Reachable ProperCall (createExt2 e s) := ⟨e, s, .refl⟩
  have hplain := (reachable_mounted (hreach.mono fun _ _ hc => hc.onDirectory)).plain
  unfold Live
  rw [hplain]
  exact hreach

theorem Insertable.live (h : Insertable image) (e : Env) :
    Live (initializeFilesystemExt2 e image) := by
  rcases h with hempty | ⟨e', s₀, events, m, hrun, hdisk⟩
  · have hset : ∀ s : Fs, s.initialized = true → { s with initialized := true } = s := by
      intro s hs
      rw [← hs]
    unfold initializeFilesystemExt2
    rw [if_pos hempty, hset _ (live_createExt2 e image).initialized]
    exact live_createExt2 e image
  · have hm : Live m := hrun.keeps machine_projects.keeps (live_createExt2 e' s₀)
    unfold Live
    rw [hm.reboot hdisk e]
    exact hm

theorem storeOf_plain (m : Fs) : storeOf m.plain = storeOf m := storeOf_withTable ..

theorem Live.root (h : Live m) : AllocatedDir m rootInodeNo := reachable_root (s := m.plain) h

theorem Live.write (h : Live m) (hc : ProperCall m (.write r)) (e : Env) :
    (storeOf m).Write r (Ext2.write e m r).1 (storeOf (Ext2.write e m r).2) ∧
      Live (Ext2.write e m r).2 := by
  have hstep : fsSystem.step m (.write r (Ext2.write e m r).1) (Ext2.write e m r).2 := ⟨hc, e, rfl⟩
  obtain ⟨-, e', hres⟩ := machine_call h hstep
  have hrefines := write_refines h hc e'
  rw [hres, storeOf_plain, storeOf_plain] at hrefines
  exact ⟨hrefines, h.step hstep⟩

theorem Live.delete (h : Live m) (hc : ProperCall m (.delete r)) (e : Env) :
    (storeOf m).Delete r (Ext2.delete e m r).1 (storeOf (Ext2.delete e m r).2) ∧
      Live (Ext2.delete e m r).2 := by
  have hstep : fsSystem.step m (.delete r (Ext2.delete e m r).1) (Ext2.delete e m r).2 :=
    ⟨hc, e, rfl⟩
  obtain ⟨-, e', hres⟩ := machine_call h hstep
  have hrefines := delete_refines h hc e'
  rw [hres, storeOf_plain, storeOf_plain] at hrefines
  exact ⟨hrefines, h.step hstep⟩

theorem Live.read (h : Live m) (hp : AllocatedDir m q.parent) (e : Env) :
    Ext2.read e m q = (storeOf m).read q := by
  have hstep : fsSystem.step m (.read q (Ext2.read e m q)) m := ⟨hp, ⟨e, rfl⟩, rfl⟩
  obtain ⟨-, ⟨e', hres⟩, -⟩ := machine_call h hstep
  rw [← hres, ← storeOf_plain]
  exact (read_refines (h.mono fun _ _ hc => hc.onDirectory) hp e').symm

theorem Live.stat (h : Live m) (hp : AllocatedDir m p) (e : Env) (null : Bool) :
    Ext2.stat e m name null p = (storeOf m).stat name null p := by
  have hstep : fsSystem.step m (.stat name null p (Ext2.stat e m name null p)) m :=
    ⟨hp, ⟨e, rfl⟩, rfl⟩
  obtain ⟨-, ⟨e', hres⟩, -⟩ := machine_call h hstep
  rw [← hres, ← storeOf_plain]
  exact (stat_refines (h.mono fun _ _ hc => hc.onDirectory) hp e' name null).symm

theorem Live.link_of_find (h : Live m) (hp : AllocatedDir m p) {n : ℕ}
    (hfind : findEntryInDir e m p name = n) (h0 : n ≠ 0) : link (nodeAt m) p name = some n := by
  have hs := reachable_settled (h.mono fun _ _ hc => hc.onDirectory)
  have hplain : findEntryInDir e m.plain p name = n :=
    (findEntryInDir_withTable e m (isSlot_of_isDir hp.2).2 name).trans hfind
  exact Ext2.link_of_find (s := m.plain) hs hp hplain h0

theorem Live.plain (h : Live m) : Live m.plain := by
  have hplain : m.plain.plain = m.plain := withTable_plain ..
  unfold Live
  rw [hplain]
  exact h

end RendangOS.Kernel
