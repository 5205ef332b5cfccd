import Rucbase.Defs
import Rucbase.Lib.Prog
import Mathlib.Data.List.Basic

/-! The disk manager over the POSIX calls it makes. Files are byte sequences; a write past
the end fills the gap with zeros and a short read is an error. `open` returns the lowest
free descriptor. Descriptor exhaustion and negative page numbers, for which `lseek` fails
and the file position is whatever the last call left, are outside the model. -/
namespace Rucbase

open Lib Lib.Prog

abbrev Path := String

/-- A file's size and its bytes; those past the end are zero. -/
structure File where
  size : Nat
  byte : Nat → Byte

namespace File

def empty : File := ⟨0,fun _ => 0⟩

def write {n : Nat} (f : File) (offset : Nat) (data : Fin n → Byte) : File where
  size := max f.size (offset + n)
  byte i := if inside : offset ≤ i ∧ i < offset + n then data ⟨i - offset,by omega⟩ else f.byte i

/-- The `n` bytes at `offset`, whether or not the file is that long. -/
def slice (f : File) (offset n : Nat) : Fin n → Byte := fun i => f.byte (offset + i)

@[simp] theorem slice_write_self {n : Nat} (f : File) (offset : Nat) (data : Fin n → Byte) :
    (f.write offset data).slice offset n = data := by
  funext i
  have inside : offset ≤ offset + i ∧ offset + i < offset + n := by omega
  simp [slice,write,inside]

theorem slice_write_apart {n m : Nat} (f : File) (a b : Nat) (data : Fin n → Byte) (apart : a + n ≤ b ∨ b + m ≤ a) :
    (f.write a data).slice b m = f.slice b m := by
  funext i
  have outside : ¬ (a ≤ b + i ∧ b + i < a + n) := by omega
  simp only [slice,write,outside,↓reduceDIte]

end File

/-- An open file description: the file and whether it may be written. -/
structure OpenFile where
  inode : Nat
  writable : Bool
  deriving DecidableEq

/-- The kernel's state: the files by number, the directory and the descriptor table. -/
structure Os where
  inodes : Nat → File
  nextInode : Nat
  dir : Path → Option Nat
  fds : List (Option OpenFile)

namespace Os

def lowestFree : List (Option OpenFile) → Nat
  | [] => 0
  | none :: _ => 0
  | some _ :: rest => lowestFree rest + 1

def placeLowest (o : OpenFile) : List (Option OpenFile) → List (Option OpenFile)
  | [] => [some o]
  | none :: rest => some o :: rest
  | some other :: rest => some other :: placeLowest o rest

/-- The description behind a descriptor. -/
def file (os : Os) (fd : Int) : Option OpenFile :=
  if 0 ≤ fd then (os.fds[fd.toNat]?).join else none

/-- `open` on an existing file. -/
def openInode (os : Os) (inode : Nat) (writable : Bool) : Int × Os :=
  (lowestFree os.fds,{ os with fds := placeLowest ⟨inode,writable⟩ os.fds })

/-- `open(path, O_CREAT)` on a missing file: an empty file, opened for reading. -/
def creat (os : Os) (path : Path) : Int × Os :=
  let made := { os with
    inodes := Function.update os.inodes os.nextInode File.empty
    nextInode := os.nextInode + 1
    dir := Function.update os.dir path (some os.nextInode) }
  made.openInode os.nextInode false

def close (os : Os) (fd : Int) : Os := { os with fds := os.fds.set fd.toNat none }

def setInode (os : Os) (inode : Nat) (f : File) : Os :=
  { os with inodes := Function.update os.inodes inode f }

def unlink (os : Os) (path : Path) : Os := { os with dir := Function.update os.dir path none }

@[simp] theorem file_setInode (os : Os) (inode : Nat) (f : File) (fd : Int) :
    (os.setInode inode f).file fd = os.file fd := rfl

@[simp] theorem inodes_setInode (os : Os) (inode : Nat) (f : File) :
    (os.setInode inode f).inodes = Function.update os.inodes inode f := rfl

theorem getElem?_placeLowest (o : OpenFile) (fds : List (Option OpenFile)) (i : Nat) :
    ((placeLowest o fds)[i]?).join =
      if i = lowestFree fds then some o else (fds[i]?).join := by
  induction fds generalizing i with
  | nil => cases i <;> simp [placeLowest,lowestFree]
  | cons head rest ih =>
    cases head with
    | none => cases i <;> simp [placeLowest,lowestFree]
    | some other =>
      cases i with
      | zero => simp [placeLowest,lowestFree]
      | succ i => simpa [placeLowest,lowestFree] using ih i

/-- The descriptor `open` returns was not in use. -/
theorem lowestFree_closed (fds : List (Option OpenFile)) : (fds[lowestFree fds]?).join = none := by
  induction fds with
  | nil => rfl
  | cons head rest ih =>
    cases head with
    | none => rfl
    | some other => simpa [lowestFree] using ih

theorem file_openInode (os : Os) (inode : Nat) (writable : Bool) (fd : Int) :
    (os.openInode inode writable).2.file fd =
      if fd = (os.openInode inode writable).1 then some ⟨inode,writable⟩ else os.file fd := by
  unfold file openInode
  by_cases valid : 0 ≤ fd
  · have same : (fd.toNat = lowestFree os.fds) ↔ fd = (lowestFree os.fds : Int) := by omega
    simp only [valid,↓reduceIte,getElem?_placeLowest,same]
  · have differ : fd ≠ (lowestFree os.fds : Int) := by omega
    simp [valid,differ]

theorem file_lowest (os : Os) (inode : Nat) (writable : Bool) :
    os.file (os.openInode inode writable).1 = none := by
  simpa [file,openInode] using lowestFree_closed os.fds

theorem file_close (os : Os) (fd other : Int) (valid : 0 ≤ fd) :
    (os.close fd).file other = if other = fd then none else os.file other := by
  unfold file close
  by_cases positive : 0 ≤ other
  · by_cases same : other = fd
    · subst other
      simp only [positive,↓reduceIte,List.getElem?_set]
      split <;> rfl
    · have differ : fd.toNat ≠ other.toNat := by omega
      simp [positive,same,differ]
  · simp [positive]

end Os

/-- `DiskManager` with the operating system under it. -/
structure DiskManager where
  os : Os
  path2fd : Path → Option Int
  fd2path : Int → Option Path
  fd2pageno : Int → Nat

namespace DiskManager

abbrev DiskCall := Prog DiskManager RMDBError

def maxFd : Int := 8192

def writePage {n : Nat} (fd pageNo : Int) (data : Fin n → Byte) : DiskCall Unit := do
  let s ← state
  match s.os.file fd with
  | some o =>
    check (o.writable ∧ 0 ≤ pageNo) (.internal "DiskManager::write_page Error")
    let written := (s.os.inodes o.inode).write (pageNo.toNat * pageSize) data
    update fun s => { s with os := s.os.setInode o.inode written }
  | none => raise (.internal "DiskManager::write_page Error")

/-- What the file holds at a page, zeros past its end. -/
def content (s : DiskManager) (id : PageId) : PageData :=
  match s.os.file id.fd with
  | some o => if 0 ≤ id.pageNo then (s.os.inodes o.inode).slice (id.pageNo.toNat * pageSize) pageSize
      else PageData.zero
  | none => PageData.zero

/-- A read delivers what the file has and fails if that is less than was asked for. -/
def readable (s : DiskManager) (fd pageNo : Int) (n : Nat) : Bool :=
  match s.os.file fd with
  | some o => 0 ≤ pageNo ∧ pageNo.toNat * pageSize + n ≤ (s.os.inodes o.inode).size
  | none => false

/-- For a negative page number this throws; the source reads on where the last call stopped. -/
def readPage (fd pageNo : Int) (n : Nat) : DiskCall (Fin n → Byte) := do
  let s ← state
  check (s.readable fd pageNo n) (.internal "DiskManager::read_page Error")
  match s.os.file fd with
  | some o => pure ((s.os.inodes o.inode).slice (pageNo.toNat * pageSize) n)
  | none => raise (.internal "DiskManager::read_page Error")

def allocatePage (fd : Int) : DiskCall Int := do
  check (0 ≤ fd ∧ fd < maxFd) .assertion
  let s ← state
  update fun s => { s with fd2pageno := Function.update s.fd2pageno fd (s.fd2pageno fd + 1) }
  pure (s.fd2pageno fd)

def setFd2pageno (fd : Int) (startPageNo : Nat) : DiskCall Unit :=
  update fun s => { s with fd2pageno := Function.update s.fd2pageno fd startPageNo }

def getFd2pageno (fd : Int) : DiskCall Nat := do
  let s ← state
  pure (s.fd2pageno fd)

def isFile (s : DiskManager) (path : Path) : Bool := (s.os.dir path).isSome

/-- The descriptor `open` returns here is dropped: the file stays open. -/
def createFile (path : Path) : DiskCall Unit := do
  let s ← state
  if s.isFile path then raise (.fileExists path)
  else update fun s => { s with os := (s.os.creat path).2 }

def destroyFile (path : Path) : DiskCall Unit := do
  let s ← state
  check (s.isFile path) (.fileNotFound path)
  match s.path2fd path with
  | some fd => update fun s => { s with
      path2fd := Function.update s.path2fd path none
      fd2path := Function.update s.fd2path fd none
      os := s.os.close fd }
  | none => pure ()
  update fun s => { s with os := s.os.unlink path }

def openFile (path : Path) : DiskCall Int := do
  let s ← state
  match s.path2fd path with
  | some fd => pure fd
  | none =>
    match s.os.dir path with
    | none => raise (.fileNotFound path)
    | some inode =>
      let (fd,os) := s.os.openInode inode true
      update fun s => { s with
        os := os
        path2fd := emplace s.path2fd path fd
        fd2path := emplace s.fd2path fd path }
      pure fd

def closeFile (fd : Int) : DiskCall Unit := do
  let s ← state
  match s.fd2path fd with
  | some path => update fun s => { s with
      os := s.os.close fd
      path2fd := Function.update s.path2fd path none
      fd2path := Function.update s.fd2path fd none }
  | none => pure ()

def getFileFd (path : Path) : DiskCall Int := do
  let s ← state
  match s.path2fd path with
  | none => openFile path
  | some fd => pure fd

/-- No two of the descriptors in use name one file. -/
def OneFilePerFd (s : DiskManager) (used : Int → Bool) : Prop :=
  ∀ a b o p, used a = true → used b = true → s.os.file a = some o → s.os.file b = some p → o.inode = p.inode → a = b

/-- The pages of the files in use. -/
def contentOn (s : DiskManager) (used : Int → Bool) (id : PageId) : PageData :=
  if used id.fd then s.content id else PageData.zero

variable {used : Int → Bool}

theorem writePage_ok {fd pageNo : Int} {data : PageData} {s next : DiskManager}
    (ran : writePage fd pageNo data s = (.ok (),next)) (single : s.OneFilePerFd used) (here : used fd = true) :
    next.contentOn used = Function.update (s.contentOn used) ⟨fd,pageNo⟩ data ∧
    next.os.fds = s.os.fds ∧ next.fd2pageno = s.fd2pageno := by
  unfold writePage at ran
  simp only [bind_run,state_run] at ran
  cases opened : s.os.file fd with
  | none => simp [opened] at ran
  | some o =>
    by_cases valid : o.writable = true ∧ 0 ≤ pageNo
    · simp only [opened,check,valid,and_self,decide_true,↓reduceIte,bind_run,pure_run,update_run,
        Prod.mk.injEq,true_and] at ran
      subst ran
      refine ⟨?_,rfl,rfl⟩
      ext1 id
      obtain ⟨fd',page'⟩ := id
      by_cases same : (⟨fd',page'⟩ : PageId) = ⟨fd,pageNo⟩
      · obtain ⟨rfl,rfl⟩ := PageId.mk.inj same
        simp [contentOn,here,content,opened,valid]
      · rw [Function.update_of_ne same,contentOn,contentOn]
        cases uses : used fd' with
        | false => rfl
        | true =>
        simp only [↓reduceIte,content,Os.file_setInode]
        cases opened' : s.os.file fd' with
        | none => rfl
        | some p =>
          by_cases other : p.inode = o.inode
          · have sameFd := single _ _ _ _ uses here opened' opened other
            subst fd'
            by_cases positive : 0 ≤ page'
            · have apart : pageNo.toNat ≠ page'.toNat := by
                intro equal
                exact same (by congr 1; omega)
              simp only [positive,↓reduceIte,other,Os.inodes_setInode,Function.update_self]
              apply File.slice_write_apart
              simp only [pageSize]
              omega
            · simp [positive]
          · simp [Function.update_of_ne other]
    · simp [opened,check,valid,bind_run] at ran

theorem OneFilePerFd.of_fds {s next : DiskManager} (single : s.OneFilePerFd used) (same : next.os.fds = s.os.fds) :
    next.OneFilePerFd used := by
  intro a b o p here there left right
  simp only [Os.file,same] at left right
  exact single a b o p here there left right

end DiskManager

end Rucbase
