import Rucbase.FileManagers
import Rucbase.Lib.BTree

/-! Page numbers after an index is opened again. `create_node` takes its number from the counter
of the index's descriptor. The counter is what the files that had the descriptor before left in
it, and `open_index` only adds one. -/
namespace Rucbase.IndexReopen

open Lib Lib.Prog Lib.BTree DiskManager BufferPool

def descriptorFor (s : DiskManager) (path : Path) : Int :=
  (s.path2fd path).getD (Os.lowestFree s.os.fds)

/-- What the file, record and index managers ask of the disk manager. -/
inductive DiskOp where
  | allocatePage (fd : Int)
  | setFd2pageno (fd : Int) (startPageNo : Nat)
  | createFile (path : Path)
  | openFile (path : Path)
  | closeFile (fd : Int)
  | destroyFile (path : Path)
  | writePage (fd pageNo : Int) (data : PageData)

def step (s : DiskManager) : DiskOp → DiskManager
  | .allocatePage fd => (allocatePage fd).after s
  | .setFd2pageno fd n => (setFd2pageno fd n).after s
  | .createFile path => (createFile path).after s
  | .openFile path => (openFile path).after s
  | .closeFile fd => (closeFile fd).after s
  | .destroyFile path => (destroyFile path).after s
  | .writePage fd pageNo data => (writePage fd pageNo data).after s

/-- The counter of a descriptor is set only when a file is opened on it. -/
def Beside (fd : Int) : DiskOp → Prop
  | .setFd2pageno other _ => other ≠ fd
  | _ => True

/-- No page number handed out for the descriptor from now on is that of a header page or of a
page of the tree. `create_node` gets its page from `new_page`, which asks for a number here. -/
def NeverReallocates {κ ρ : Type} (s : DiskManager) (fd : Int) (tree : Root Int κ ρ) : Prop :=
  ∀ ops : List DiskOp, (∀ op ∈ ops, Beside fd op) → ∀ pageNo,
    (allocatePage fd (ops.foldl step s)).1 = .ok pageNo →
      pageNo ≠ ixFileHdrPage ∧ pageNo ≠ ixLeafHeaderPage ∧ pageNo ∉ tree.pages

variable {fd : Int} {α κ ρ : Type} {call : DiskCall α} {path : Path} {h : Handle}

theorem allocatePage_run (valid : 0 ≤ fd ∧ fd < maxFd) (s : DiskManager) :
    allocatePage fd s =
      (.ok (s.fd2pageno fd),{ s with fd2pageno := Function.update s.fd2pageno fd (s.fd2pageno fd + 1) }) := by
  simp [allocatePage,bind_run,check,valid]

theorem counters_kept  (same : ∀ s, (call.after s).fd2pageno = s.fd2pageno) (fd : Int) (s : DiskManager) :
    s.fd2pageno fd ≤ (call.after s).fd2pageno fd := by
  rw [same]

theorem step_counter (fd : Int) (s : DiskManager) (op : DiskOp) (beside : Beside fd op) :
    s.fd2pageno fd ≤ (step s op).fd2pageno fd := by
  cases op with
  | allocatePage other =>
    by_cases valid : 0 ≤ other ∧ other < maxFd
    · rw [step,after,allocatePage_run valid]
      by_cases same : fd = other
      · simp [same]
      · simp [same]
    · simp [step,after,allocatePage,bind_run,check,valid]
  | setFd2pageno other n =>
    have apart : fd ≠ other := fun same => beside same.symm
    simp [step,after,setFd2pageno,apart]
  | createFile path =>
    refine counters_kept (fun s => ?_) fd s
    by_cases there : s.isFile path <;> simp [createFile,after,bind_run,there]
  | openFile path =>
    refine counters_kept (fun s => ?_) fd s
    cases opened : s.path2fd path with
    | some other => simp [openFile,after,bind_run,opened]
    | none =>
      cases found : s.os.dir path <;> simp [openFile,after,bind_run,opened,found]
  | closeFile other =>
    refine counters_kept (fun s => ?_) fd s
    cases found : s.fd2path other <;> simp [closeFile,after,bind_run,found]
  | destroyFile path =>
    refine counters_kept (fun s => ?_) fd s
    by_cases there : s.isFile path
    · cases opened : s.path2fd path <;> simp [destroyFile,after,bind_run,check,there,opened]
    · simp [destroyFile,after,bind_run,check,there]
  | writePage other pageNo data =>
    refine counters_kept (fun s => ?_) fd s
    cases opened : s.os.file other with
    | none => simp [writePage,after,bind_run,opened]
    | some o =>
      by_cases fine : o.writable = true ∧ 0 ≤ pageNo <;>
        simp [writePage,after,bind_run,opened,check,fine]

theorem run_counter (fd : Int) (s : DiskManager) (ops : List DiskOp) (beside : ∀ op ∈ ops, Beside fd op) :
    s.fd2pageno fd ≤ (ops.foldl step s).fd2pageno fd := by
  induction ops generalizing s with
  | nil => exact Nat.le_refl _
  | cons op rest ih =>
    obtain ⟨first,others⟩ := List.forall_mem_cons.mp beside
    exact (step_counter fd s op first).trans (ih (step s op) others)

theorem allocations (valid : 0 ≤ fd ∧ fd < maxFd) (s : DiskManager) (n : Nat) :
    ((List.replicate n (.allocatePage fd)).foldl step s).fd2pageno fd = s.fd2pageno fd + n := by
  induction n generalizing s with
  | zero => rfl
  | succ n ih =>
    rw [List.replicate_succ,List.foldl_cons,ih,step,after,allocatePage_run valid]
    simp only [Function.update_self]
    omega

theorem neverReallocates_iff  (valid : 0 ≤ fd ∧ fd < maxFd) (s : DiskManager) (tree : Root Int κ ρ) :
    NeverReallocates s fd tree ↔ ∀ p ∈ ixLeafHeaderPage :: tree.pages, p < s.fd2pageno fd := by
  constructor
  · intro never p member
    by_contra reached
    have member : p = ixLeafHeaderPage ∨ p ∈ tree.pages := List.mem_cons.mp member
    have counter := allocations valid s (p - s.fd2pageno fd).toNat
    have given := never (List.replicate (p - s.fd2pageno fd).toNat (.allocatePage fd))
      (fun op copy => by rw [List.eq_of_mem_replicate copy]; trivial) p (by
        rw [allocatePage_run valid,counter]
        exact congrArg Except.ok (by omega))
    exact member.elim given.2.1 given.2.2
  · intro below ops beside pageNo given
    have grown := run_counter fd s ops beside
    rw [allocatePage_run valid] at given
    obtain rfl := Except.ok.inj given
    have header := below ixLeafHeaderPage List.mem_cons_self
    refine ⟨?_,?_,fun member => ?_⟩
    · simp only [ixLeafHeaderPage,ixFileHdrPage] at header ⊢
      omega
    · simp only [ixLeafHeaderPage] at header ⊢
      omega
    · have := below _ (List.mem_cons_of_mem _ member)
      omega

theorem openFile_result  {s next : DiskManager} (opened : openFile path s = (.ok fd,next)) :
    fd = descriptorFor s path ∧ next.fd2pageno = s.fd2pageno := by
  unfold descriptorFor
  cases known : s.path2fd path with
  | some other =>
    have run : openFile path s = (.ok other,s) := by
      simp [openFile,bind_run,known]
    obtain ⟨same,rfl⟩ := Prod.ext_iff.mp (run.symm.trans opened)
    exact ⟨(Except.ok.inj same).symm,rfl⟩
  | none =>
    cases found : s.os.dir path with
    | none => simp [openFile,bind_run,known,found] at opened
    | some inode =>
      simp only [openFile,bind_run,state_run,known,found,update_run,pure_run,Prod.mk.injEq] at opened
      obtain ⟨same,rfl⟩ := opened
      exact ⟨(Except.ok.inj same).symm,rfl⟩

theorem onDisk_ok  {a : α} {s next : BufferPool} (run : onDisk call s = (.ok a,next)) :
    call s.disk = (.ok a,next.disk) := by
  obtain ⟨result,rfl⟩ := Prod.ext_iff.mp run
  exact Prod.ext result rfl

theorem readPage_kept (fd pageNo : Int) (n : Nat) (s : DiskManager) : (readPage fd pageNo n).after s = s := by
  by_cases fine : s.readable fd pageNo n
  · cases opened : s.os.file fd <;> simp [readPage,after,bind_run,check,fine,opened]
  · simp [readPage,after,bind_run,check,fine]

theorem openIndex_counter  {pool next : BufferPool} (opened : IxManager.openIndex path pool = (.ok h,next)) :
    h.fd = descriptorFor pool.disk path ∧
      next.disk.fd2pageno h.fd = pool.disk.fd2pageno (descriptorFor pool.disk path) + 1 := by
  obtain ⟨fd,first,opening,rest⟩ := bind_ok_split opened
  obtain ⟨_,second,reading,rest⟩ := bind_ok_split rest
  obtain ⟨buf,third,readingAll,rest⟩ := bind_ok_split rest
  obtain ⟨hdr,fourth,parsing,rest⟩ := bind_ok_split rest
  obtain ⟨number,same⟩ := openFile_result (onDisk_ok opening)
  -- reading and parsing leave the disk manager as `open_file` left it
  have disk : fourth.disk = first.disk := by
    have one : second.disk = first.disk := by
      rw [← readPage_kept fd ixFileHdrPage 8 first.disk,after,onDisk_ok reading]
    have two : third.disk = second.disk := by
      rw [← readPage_kept fd ixFileHdrPage pageSize second.disk,after,onDisk_ok readingAll]
    have three : fourth = third := by
      cases parsed : IxFileHdr.deserialize buf with
      | ok _ =>
        rw [parsed] at parsing
        exact ((Prod.ext_iff.mp parsing).2).symm
      | error _ =>
        rw [parsed] at parsing
        cases (Prod.ext_iff.mp parsing).1
    rw [three,two,one]
  have last : (.ok ⟨fd,.index hdr⟩,{ fourth with
      disk := { fourth.disk with fd2pageno := Function.update fourth.disk.fd2pageno fd (fourth.disk.fd2pageno fd + 1) } }) =
        ((.ok h,next) : Except RMDBError Handle × BufferPool) := rest
  obtain ⟨result,rfl⟩ := Prod.ext_iff.mp last
  obtain rfl := Except.ok.inj result
  refine ⟨number,?_⟩
  simp only [Function.update_self]
  rw [disk,same,number]

/-- An index that was opened never hands out one of its own pages again if and only if the
counter its descriptor had before was up to the last of them. -/
theorem reopen_iff {κ ρ : Type} {path : Path} {h : Handle} {pool next : BufferPool}
    (opened : IxManager.openIndex path pool = (.ok h,next)) (valid : 0 ≤ h.fd ∧ h.fd < maxFd) (tree : Root Int κ ρ) :
    NeverReallocates next.disk h.fd tree ↔
      ∀ p ∈ ixLeafHeaderPage :: tree.pages, p ≤ pool.disk.fd2pageno (descriptorFor pool.disk path) := by
  rw [neverReallocates_iff valid,(openIndex_counter opened).2]
  refine forall₂_congr fun p _ => ?_
  push_cast
  exact Int.lt_add_one_iff

def freshProcess (os : Os) : BufferPool :=
  let disk : DiskManager := ⟨{ os with fds := [some ⟨0,true⟩,some ⟨1,true⟩,some ⟨2,true⟩] },
    fun _ => none,fun _ => none,fun _ => 0⟩
  BufferPool.start 4 (fun _ => 0) disk

def idCol : List ColMeta := [⟨"t","id",.int,4,0,false⟩]

def indexOnDisk : Os :=
  ((IxManager.createIndex "t_id.idx" idCol).after
    (freshProcess ⟨fun _ => File.empty,3,fun _ => none,[]⟩)).disk.os

def freshTree : Root Int (List Byte) Rid := ⟨0,⟨ixInitRootPage,[]⟩⟩

/-- A new process opens the index; the first node it creates gets the page of the leaf header. -/
theorem fresh_process_reallocates :
    let run := IxManager.openIndex "t_id.idx" (freshProcess indexOnDisk)
    run.1.toOption.map Handle.fd = some 3 ∧
      (allocatePage 3 run.2.disk).1 = .ok ixLeafHeaderPage ∧
      ¬NeverReallocates run.2.disk 3 freshTree := by
  intro run
  have first : (allocatePage 3 run.2.disk).1 = .ok ixLeafHeaderPage := by decide +kernel
  exact ⟨by decide +kernel,first,fun never => (never [] nofun _ first).2.1 rfl⟩

/-- The index is opened in the process that created it, on the descriptor it was created on. -/
theorem same_process_allocates :
    let pool := (IxManager.createIndex "t_id.idx" idCol).after (freshProcess ⟨fun _ => File.empty,3,fun _ => none,[]⟩)
    ∃ h next, IxManager.openIndex "t_id.idx" pool = (.ok h,next) ∧ NeverReallocates next.disk h.fd freshTree := by
  intro pool
  have fine : (IxManager.openIndex "t_id.idx" pool).1.isOk = true := by decide +kernel
  obtain ⟨h,next,opened⟩ := run_isOk fine
  have fd : descriptorFor pool.disk "t_id.idx" = 4 := by decide +kernel
  have counter : pool.disk.fd2pageno 4 = 2 := by decide +kernel
  have valid : 0 ≤ h.fd ∧ h.fd < maxFd := by
    rw [(openIndex_counter opened).1,fd]
    decide
  refine ⟨h,next,opened,(reopen_iff opened valid freshTree).mpr ?_⟩
  rw [fd,counter]
  decide

end Rucbase.IndexReopen
