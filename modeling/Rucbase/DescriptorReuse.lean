import Rucbase.FileManagers
import Rucbase.OpenFiles
import Rucbase.PoolCalls

/-! Descriptor reuse. The pool knows a page by its descriptor and number, and a descriptor
outlives the file it named: pages of a closed file stay resident until their frames are
needed. What keeps two files apart is that the pages resident under a descriptor belong to
the file that is open on it, and have numbers the page counter has passed. -/
namespace Rucbase

open Lib Lib.Prog

variable {h : Handle} {path : Path} {α : Type}

namespace BufferPool

open DiskManager

/-! ### The pool under the file managers -/

/-- The page table stays and the disk manager keeps `R`. -/
def OnTable (R : DiskManager → DiskManager → Prop) (s next : BufferPool) : Prop :=
  next.pageTable = s.pageTable ∧ R s.disk next.disk

variable {R : DiskManager → DiskManager → Prop} {x : PoolCall α}

theorem OnTable.frame (frame : Frame R) : Frame (OnTable R) where
  refl s := ⟨rfl,frame.refl s.disk⟩
  trans _ _ _ first second := ⟨second.1.trans first.1,frame.trans _ _ _ first.2 second.2⟩

theorem onDisk_table {call : DiskCall α} (within : Within R call) :
    Within (OnTable R) (onDisk call) := fun s => ⟨rfl,within s.disk⟩

theorem liftError_table (frame : Frame R) (result : Except RMDBError α) : Within (OnTable R) (liftError result) := by
  cases result with
  | ok a => exact (OnTable.frame frame).pure a
  | error e => exact (OnTable.frame frame).raise e

theorem OnTable.mono {S : DiskManager → DiskManager → Prop} (weaker : ∀ d next, R d next → S d next)
    {s next : BufferPool} (held : OnTable R s next) : OnTable S s next := ⟨held.1,weaker _ _ held.2⟩

theorem within_mono {σ ε : Type} {R S : σ → σ → Prop} {x : Prog σ ε α} (within : Within R x)
    (weaker : ∀ s next, R s next → S s next) : Within S x := fun s => weaker _ _ (within s)

theorem flushFrame_same (frame : FrameId) : Within (OnTable SameFiles) (flushFrame frame) := by
  have table := OnTable.frame SameFiles.frame
  apply table.bind table.state
  intro s
  apply table.bind (onDisk_table (writePage_same _ _ _))
  intro _
  exact Within.update fun s => ⟨rfl,SameFiles.frame.refl _⟩

theorem flushFrames_same (fd : Int) (frames : List FrameId) :
    Within (OnTable SameFiles) (flushFrames fd frames) := by
  have table := OnTable.frame SameFiles.frame
  induction frames with
  | nil => exact table.pure ()
  | cons frame rest ih =>
    rw [flushFrames]
    apply table.bind table.state
    intro s
    split
    · exact table.bind (flushFrame_same frame) fun _ => ih
    · exact ih

theorem flushAllPages_same (fd : Int) : Within (OnTable SameFiles) (flushAllPages fd) := by
  have table := OnTable.frame SameFiles.frame
  exact table.bind table.state fun s => flushFrames_same fd _

theorem flushPage_same (id : PageId) : Within (OnTable SameFiles) (flushPage id) := by
  have table := OnTable.frame SameFiles.frame
  apply table.bind table.state
  intro s
  by_cases valid : id.pageNo ≠ invalidPageId
  · rw [if_pos valid]
    cases List.find? (fun i => decide ((s.pages i).id = id)) (List.range s.poolSize) with
    | none => exact table.pure _
    | some i => exact table.bind (flushFrame_same i) fun _ => table.pure _
  · rw [if_neg valid]
    exact table.pure _

/-- The last file call of a creation or a closing: the other files are spared. -/
def Closes (path : Path) (fd : Int) (d next : DiskManager) : Prop :=
  d.Tracked → d.path2fd path = some fd → next.Tracked ∧ Spares path d next

theorem closeFile_closes (path : Path) (fd : Int) :
    Within (OnTable (Closes path fd)) (onDisk (closeFile fd)) := by
  apply onDisk_table
  intro d tracked opened
  obtain ⟨next,ran,tracked',spared,_⟩ := closeFile_run tracked opened
  unfold after
  rw [ran]
  exact ⟨tracked',spared⟩

theorem works_closes {fd : Int} {f : α → PoolCall Unit} (first : Within (OnTable (Works path fd)) x)
    (rest : ∀ a, Within (OnTable (Closes path fd)) (f a)) :
    Within (OnTable (Closes path fd)) (x >>= f) := by
  refine first.seq rest ?_ ?_
  · rintro s next ⟨table,works⟩
    refine ⟨table,fun tracked opened => ?_⟩
    obtain ⟨tracked',_,_,spared⟩ := works tracked opened
    exact ⟨tracked',spared⟩
  · rintro s next final ⟨table,works⟩ ⟨table',closes⟩
    refine ⟨table'.trans table,fun tracked opened => ?_⟩
    obtain ⟨tracked',opened',_,spared⟩ := works tracked opened
    obtain ⟨tracked'',spared'⟩ := closes tracked' opened'
    exact ⟨tracked'',(Spares.frame path).trans _ _ _ spared spared'⟩

theorem same_works (same : Within (OnTable SameFiles) x) (path : Path) (fd : Int) : Within (OnTable (Works path fd)) x :=
  within_mono same fun _ _ held => held.mono fun _ _ same => same.works path fd

theorem write_works {n : Nat} (path : Path) (fd pageNo : Int) (data : Fin n → Byte) :
    Within (OnTable (Works path fd)) (onDisk (writePage fd pageNo data)) :=
  same_works (onDisk_table (writePage_same fd pageNo data)) path fd

theorem create_leaves (path : Path) (work : Int → PoolCall Unit)
    (closes : ∀ fd, Within (OnTable (Closes path fd)) (work fd)) :
    Within (OnTable Leaves) (do
      onDisk (createFile path)
      let fd ← onDisk (openFile path)
      work fd) := by
  intro s
  refine ⟨?_,fun tracked => ?_⟩
  all_goals
    unfold after
    rw [bind_run]
    rcases createFile_run path s.disk with ⟨e,failed⟩ | ⟨made,created,missing,leaves,maps⟩
  · simp [onDisk,failed]
  · simp only [onDisk,created,bind_run]
    cases opened : openFile path made with
    | mk result next =>
      cases result with
      | error e => rfl
      | ok fd => exact (closes fd _).1
  · simpa [onDisk,failed] using Leaves.frame.refl s.disk tracked
  · obtain ⟨tracked',kept⟩ := leaves tracked
    have unopened : s.disk.path2fd path = none := tracked.named path missing
    simp only [onDisk,created,bind_run]
    rcases openFile_run path made tracked' with ⟨e,failed⟩ | ⟨fd,inode,next,ran,leaves',here,_,_,_,_⟩
    · simpa [failed] using ⟨tracked',kept⟩
    · obtain ⟨tracked'',kept'⟩ := leaves' tracked'
      obtain ⟨final,spared⟩ := (closes fd { s with disk := next }).2 tracked'' here
      simp only [ran]
      refine ⟨final,fun other fd' before => ?_⟩
      have apart : other ≠ path := by
        rintro rfl
        rw [unopened] at before
        contradiction
      obtain ⟨a,fileA,counterA⟩ := kept other fd' before
      obtain ⟨b,fileB,counterB⟩ := kept' other fd' a
      obtain ⟨c,fileC,counterC⟩ := spared other fd' apart b
      exact ⟨c,(fileC.trans fileB).trans fileA,(counterC.trans counterB).trans counterA⟩

theorem rmCreateFile_leaves (path : Path) (recordSize : Int) :
    Within (OnTable Leaves) (RmManager.createFile path recordSize) := by
  unfold RmManager.createFile
  split
  · exact (OnTable.frame Leaves.frame).raise _
  · apply create_leaves
    intro fd
    exact works_closes (write_works path fd _ _) fun _ => closeFile_closes path fd

theorem ixCreateIndex_leaves (path : Path) (cols : List ColMeta) :
    Within (OnTable Leaves) (IxManager.createIndex path cols) := by
  apply create_leaves
  intro fd
  have table := OnTable.frame (Works.frame path fd)
  apply works_closes (table.check _ _)
  intro _
  apply works_closes (table.check _ _)
  intro _
  apply works_closes (liftError_table (Works.frame path fd) _)
  intro data
  apply works_closes (write_works path fd _ _)
  intro _
  apply works_closes (write_works path fd _ _)
  intro _
  apply works_closes (write_works path fd _ _)
  intro _
  apply works_closes (onDisk_table (setFd2pageno_works path fd _))
  intro _
  exact closeFile_closes path fd

theorem close_shape (h : Handle) : ∃ work : PoolCall Unit,
    h.close = (work >>= fun _ => onDisk (closeFile h.fd)) ∧ Within (OnTable SameFiles) work := by
  have table := OnTable.frame SameFiles.frame
  have write : ∀ {n : Nat} (pageNo : Int) (data : Fin n → Byte),
      Within (OnTable SameFiles) (onDisk (writePage h.fd pageNo data)) :=
    fun pageNo data => onDisk_table (writePage_same _ pageNo data)
  unfold Handle.close
  cases h.hdr with
  | table hdr =>
    refine ⟨onDisk (writePage h.fd 0 hdr.toBytes) >>= fun _ => flushAllPages h.fd,?_,
      table.bind (write _ _) fun _ => flushAllPages_same _⟩
    funext s
    simp only [RmManager.closeFile,bind_run]
    cases onDisk (writePage h.fd 0 hdr.toBytes) s with
    | mk result next => cases result <;> rfl
  | index hdr =>
    refine ⟨liftError hdr.serialize >>= fun data =>
        onDisk (writePage h.fd ixFileHdrPage (buffer data)) >>= fun _ => flushAllPages h.fd,?_,
      table.bind (liftError_table SameFiles.frame _) fun data =>
        table.bind (write _ _) fun _ => flushAllPages_same _⟩
    funext s
    simp only [IxManager.closeIndex,bind_run]
    cases liftError hdr.serialize s with
    | mk result next =>
      cases result with
      | error e => rfl
      | ok data =>
        simp only
        cases onDisk (writePage h.fd ixFileHdrPage (buffer data)) next with
        | mk result last => cases result <;> rfl

theorem close_run {s : BufferPool} (tracked : s.disk.Tracked) (opened : s.disk.path2fd path = some h.fd) :
    (∃ e next, h.close s = (.error e,next) ∧ OnTable SameFiles s next) ∨
    ∃ next, h.close s = (.ok (),next) ∧ next.pageTable = s.pageTable ∧ next.disk.Tracked ∧
      Spares path s.disk next.disk ∧ next.disk.path2fd path = none := by
  obtain ⟨work,shape,works⟩ := close_shape h
  rw [shape,bind_run]
  have kept := works s
  unfold after at kept
  cases ran : work s with
  | mk result next =>
    rw [ran] at kept
    cases result with
    | error e => exact .inl ⟨e,next,rfl,kept⟩
    | ok _ =>
      obtain ⟨tracked',opened',_,spared⟩ := kept.2.works path h.fd tracked opened
      obtain ⟨last,closed,tracked'',spared',gone⟩ := closeFile_run tracked' opened'
      refine .inr ⟨{ next with disk := last },by simp [onDisk,closed],kept.1,tracked'',?_,gone⟩
      exact (Spares.frame path).trans _ _ _ spared spared'

/-! ### The pool under its clients -/

/-- A call makes at most the pages in `ids` resident and leaves the open files alone. -/
structure Settled (ids : PageId → Prop) (s next : BufferPool) : Prop where
  resident : ∀ id, (next.pageTable id).isSome = true → ids id ∨ (s.pageTable id).isSome = true
  disk : SameFiles s.disk next.disk

theorem Settled.frame (ids : PageId → Prop) : Frame (Settled ids) where
  refl s := ⟨fun _ here => .inr here,SameFiles.frame.refl _⟩
  trans _ _ _ first second := by
    refine ⟨fun id here => ?_,SameFiles.frame.trans _ _ _ first.disk second.disk⟩
    rcases second.resident id here with new | old
    · exact .inl new
    · exact first.resident id old

theorem OnTable.settled {s next : BufferPool} (held : OnTable SameFiles s next) (ids : PageId → Prop) :
    Settled ids s next := ⟨fun _ here => .inr (held.1 ▸ here),held.2⟩

theorem same_settled (same : Within (OnTable SameFiles) x) (ids : PageId → Prop) : Within (Settled ids) x :=
  within_mono same fun _ _ held => held.settled ids

section Calls

variable (s : BufferPool) (f : FrameId) (id : PageId)

theorem writeBack_same : SameFiles s.disk (s.writeBack f).2 := by
  unfold writeBack
  split
  · exact writePage_same _ _ _ s.disk
  · exact SameFiles.frame.refl _

theorem taken_settled (ids : PageId → Prop) : Settled ids s s.taken :=
  ⟨fun _ here => .inr (taken_table s ▸ here),(taken_disk s).symm ▸ SameFiles.frame.refl _⟩

theorem handed_settled {disk : DiskManager} (same : SameFiles s.disk disk) :
    Settled (fun other => id.pageNo ≠ invalidPageId ∧ other = id) s (s.handed f id disk) := by
  refine ⟨fun other here => ?_,same⟩
  obtain ⟨g,mapped⟩ := Option.isSome_iff_exists.mp here
  rcases handed_table mapped with ⟨rfl,_,numbered⟩ | ⟨_,old⟩
  · exact .inl ⟨numbered,rfl⟩
  · exact .inr (by rw [old]; rfl)

theorem fetchPage_settled : Settled (· = id) s ((fetchPage id).after s) := by
  rw [after,fetchPage_eq]
  cases s.pageTable id with
  | some g => exact ⟨fun _ here => .inr here,SameFiles.frame.refl _⟩
  | none =>
  have taken := taken_settled s (· = id)
  cases s.victimFrame with
  | none => exact taken
  | some g =>
  have same := writeBack_same s.taken g
  refine (Settled.frame _).trans _ _ _ taken ?_
  dsimp only
  cases wrote : s.taken.writeBack g with
  | mk result disk =>
  rw [wrote] at same
  cases result with
  | error e => exact ⟨fun _ here => .inr here,same⟩
  | ok _ =>
    obtain ⟨resident,files⟩ := handed_settled s.taken g id same
    dsimp only
    split <;> exact ⟨fun other here => (resident other here).imp_left And.right,files⟩

theorem unpinPage_settled (isDirty : Bool) : Settled (fun _ => False) s ((unpinPage id isDirty).after s) := by
  have quiet := SameFiles.frame.refl s.disk
  rw [after,unpinPage_eq]
  cases s.pageTable id with
  | none => exact ⟨fun _ here => .inr here,quiet⟩
  | some frame =>
    dsimp only
    split <;> exact ⟨fun _ here => .inr here,quiet⟩

theorem deletePage_settled : Settled (fun _ => False) s ((deletePage id).after s) := by
  have quiet := SameFiles.frame.refl s.disk
  rw [after,deletePage_eq]
  cases s.pageTable id with
  | none => exact ⟨fun _ here => .inr here,quiet⟩
  | some g =>
  dsimp only
  split
  · exact ⟨fun _ here => .inr here,quiet⟩
  have same := writeBack_same s g
  cases wrote : s.writeBack g with
  | mk result disk =>
  rw [wrote] at same
  cases result with
  | error e => exact ⟨fun _ here => .inr here,same⟩
  | ok _ =>
    obtain ⟨resident,files⟩ := handed_settled s g ⟨id.fd,invalidPageId⟩ same
    exact ⟨fun other here => (resident other here).imp_left fun new => new.1 rfl,files⟩

end Calls

/-! ### Opening -/

/-- The page counter of a table starts from the header on disk. -/
def tableStart (d : DiskManager) (inode : Nat) : Nat :=
  (RmFileHdr.ofBytes ((d.os.inodes inode).slice 0 rmFileHdrSize)).numPages

/-- A file that was opened: its descriptor, the file behind it and where its pages start. -/
structure Opened (path : Path) (s next : BufferPool) (h : Handle) (inode startPageNo : Nat) : Prop where
  table : next.pageTable = s.pageTable
  tracked : next.disk.Tracked
  spares : Spares path s.disk next.disk
  known : next.disk.path2fd path = some h.fd
  opens : s.disk.opens path = some (h.fd,inode)
  file : (next.disk.os.file h.fd).map OpenFile.inode = some inode
  counter : next.disk.fd2pageno h.fd = startPageNo

structure NotOpened (path : Path) (s next : BufferPool) : Prop where
  table : next.pageTable = s.pageTable
  tracked : next.disk.Tracked
  spares : Spares path s.disk next.disk

theorem readPage_run (fd pageNo : Int) (n : Nat) (d : DiskManager) :
    (∃ e, readPage fd pageNo n d = (.error e,d)) ∨
    ∃ o, d.os.file fd = some o ∧
      readPage fd pageNo n d = (.ok ((d.os.inodes o.inode).slice (pageNo.toNat * pageSize) n),d) := by
  by_cases readable : d.readable fd pageNo n = true
  · cases here : d.os.file fd with
    | none => simp [DiskManager.readable,here] at readable
    | some o => exact .inr ⟨o,rfl,by simp [readPage,bind_run,check,readable,here]⟩
  · exact .inl ⟨_,by simp [readPage,bind_run,check,readable]; rfl⟩

theorem opening_run {s : BufferPool} (tracked : s.disk.Tracked) (construct : Int → PoolCall Handle)
    (startPageNo : Int → Nat → Nat) (works : ∀ fd, Within (OnTable (Works path fd)) (construct fd))
    (counts : ∀ fd inode middle h next, middle.os.inodes = s.disk.os.inodes →
      middle.fd2pageno = s.disk.fd2pageno → (middle.os.file fd).map OpenFile.inode = some inode →
      construct fd { s with disk := middle } = (.ok h,next) →
      h.fd = fd ∧ next.disk.fd2pageno fd = startPageNo fd inode) :
    (∃ e next, (onDisk (openFile path) >>= construct) s = (.error e,next) ∧ NotOpened path s next) ∨
    ∃ h inode next, (onDisk (openFile path) >>= construct) s = (.ok h,next) ∧
      Opened path s next h inode (startPageNo h.fd inode) := by
  rcases openFile_run path s.disk tracked with
    ⟨e,failed⟩ | ⟨fd,inode,middle,ran,leaves,known,opens,file,contents,counters⟩
  · refine .inl ⟨e,s,bind_error (by simp [onDisk,failed]),rfl,tracked,(Spares.frame path).refl _⟩
  · obtain ⟨tracked',kept⟩ := leaves tracked
    obtain ⟨table,work⟩ := works fd { s with disk := middle }
    obtain ⟨tracked'',known',file',spared⟩ := work tracked' known
    have spares : Spares path s.disk ((construct fd).after { s with disk := middle }).disk :=
      (Spares.frame path).trans _ _ _ (fun other fd' _ opened => kept other fd' opened) spared
    have shape : (onDisk (openFile path) >>= construct) s = construct fd { s with disk := middle } :=
      bind_ok (by simp [onDisk,ran])
    rw [shape]
    unfold after at *
    cases made : construct fd { s with disk := middle } with
    | mk result next =>
      rw [made] at table tracked'' known' file' spares
      cases result with
      | error e => exact .inl ⟨e,next,rfl,table,tracked'',spares⟩
      | ok h =>
        obtain ⟨rfl,counter⟩ := counts fd inode middle h next contents counters file made
        refine .inr ⟨h,inode,next,rfl,table,tracked'',spares,known',opens,?_,counter⟩
        rw [file']
        exact file

theorem rmOpenFile_run (path : Path) {s : BufferPool} (tracked : s.disk.Tracked) :
    (∃ e next, RmManager.openFile path s = (.error e,next) ∧ NotOpened path s next) ∨
    ∃ h inode next, RmManager.openFile path s = (.ok h,next) ∧
      Opened path s next h inode (tableStart s.disk inode) := by
  apply opening_run tracked _ (fun _ inode => tableStart s.disk inode)
  · intro fd
    have table := OnTable.frame (Works.frame path fd)
    apply table.bind (same_works (onDisk_table (readPage_same _ _ _)) _ _)
    intro bytes
    exact table.bind (onDisk_table (setFd2pageno_works path fd _)) fun _ => table.pure _
  · intro fd inode middle h next contents _ file made
    rcases readPage_run fd 0 rmFileHdrSize middle with ⟨e,failed⟩ | ⟨o,here,read⟩
    · simp [bind_run,onDisk,failed] at made
    · obtain rfl : o.inode = inode := by simpa [here] using file
      simp only [bind_run,onDisk,read,setFd2pageno,update_run,pure_run,Prod.mk.injEq,Except.ok.injEq] at made
      obtain ⟨rfl,rfl⟩ := made
      simp [tableStart,contents]

theorem ixOpenIndex_run (path : Path) {s : BufferPool} (tracked : s.disk.Tracked) :
    (∃ e next, IxManager.openIndex path s = (.error e,next) ∧ NotOpened path s next) ∨
    ∃ h inode next, IxManager.openIndex path s = (.ok h,next) ∧
      Opened path s next h inode (s.disk.fd2pageno h.fd + 1) := by
  apply opening_run tracked _ (fun fd _ => s.disk.fd2pageno fd + 1)
  · intro fd
    have table := OnTable.frame (Works.frame path fd)
    apply table.bind (same_works (onDisk_table (readPage_same _ _ _)) _ _)
    intro _
    apply table.bind (same_works (onDisk_table (readPage_same _ _ _)) _ _)
    intro buf
    apply table.bind (liftError_table (Works.frame path fd) _)
    intro hdr
    apply table.bind
    · exact fun s => ⟨rfl,(Works.frame path fd).refl _⟩
    intro nowPageNo
    exact table.bind (onDisk_table (setFd2pageno_works path fd _)) fun _ => table.pure _
  · intro fd inode middle h next _ counters _ made
    rcases readPage_run fd ixFileHdrPage 8 middle with ⟨e,failed⟩ | ⟨o,_,read⟩
    · simp [bind_run,onDisk,failed] at made
    rcases readPage_run fd ixFileHdrPage pageSize middle with ⟨e,failed⟩ | ⟨o,_,whole⟩
    · simp [bind_run,onDisk,read,failed] at made
    cases parsed : IxFileHdr.deserialize
        ((middle.os.inodes o.inode).slice (ixFileHdrPage.toNat * pageSize) pageSize) with
    | error e => simp [bind_run,onDisk,read,whole,parsed,liftError] at made
    | ok hdr =>
      simp only [bind_run,onDisk,read,whole,parsed,liftError,getFd2pageno,setFd2pageno,update_run,state_run,pure_run,
        Prod.mk.injEq,Except.ok.injEq] at made
      obtain ⟨rfl,rfl⟩ := made
      simp [counters]

end BufferPool

namespace Store

open DiskManager BufferPool

/-- The page was loaded from the file its descriptor names now, and was numbered before. -/
def Own (s : Store) (fd pageNo : Int) : Prop :=
  s.owner ⟨fd,pageNo⟩ = s.inode fd ∧ 0 ≤ pageNo ∧ pageNo < s.pool.disk.fd2pageno fd

/-- Every page resident under the descriptor a file is about to get belongs to that file
and has a number below the first one to be handed out. -/
def OpensClean (s : Store) (path : Path) (startPageNo : Int → Nat → Nat) : Prop :=
  ∀ fd inode, s.pool.disk.opens path = some (fd,inode) →
    ∀ p, (s.pool.pageTable ⟨fd,p⟩).isSome = true →
      s.owner ⟨fd,p⟩ = some inode ∧ 0 ≤ p ∧ p < startPageNo fd inode

/-- Files are opened on clean descriptors, and pages are fetched by numbers already handed
out. -/
def Admissible (s : Store) : FileOp → Prop
  | .openTable path => s.handles path = none →
      s.OpensClean path fun _ inode => tableStart s.pool.disk inode
  | .openIndex path => s.handles path = none →
      s.OpensClean path fun fd _ => s.pool.disk.fd2pageno fd + 1
  | .fetch path pageNo => ∀ h ∈ s.handles path,
      0 ≤ pageNo ∧ pageNo < s.pool.disk.fd2pageno h.fd
  | _ => True

/-- A page found in the pool under the descriptor of an open file is a page of that file,
and a new page's identifier is in the page table under no other frame. -/
def NoLeak (s : Store) : Prop :=
  ∀ path h, s.handles path = some h →
    (∀ p frame, s.pool.pageTable ⟨h.fd,p⟩ = some frame → s.owner ⟨h.fd,p⟩ = s.inode h.fd) ∧
    ∀ frame id, (newPage h.fd s.pool).1 = .ok (some (frame,id)) →
      ∀ other, s.pool.pageTable id = some other → other = frame

structure Inv (s : Store) : Prop where
  tracked : s.pool.disk.Tracked
  held : ∀ path h, s.handles path = some h → s.pool.disk.path2fd path = some h.fd
  own : ∀ path h p, s.handles path = some h → (s.pool.pageTable ⟨h.fd,p⟩).isSome = true → s.Own h.fd p

variable {pool : BufferPool} {s : Store}

theorem Inv.noLeak (inv : Inv s) : NoLeak s := by
  intro path h here
  constructor
  · intro p frame resident
    exact (inv.own path h p here (by simp [resident])).1
  · intro frame id made other resident
    obtain rfl := newPage_id made
    have below := (inv.own path h _ here (by rw [resident]; rfl)).2.2
    omega

theorem start_inv (poolSize : Nat) (fds : FrameId → Int) (os : Os) : Inv (start poolSize fds os) := by
  constructor
  · constructor <;> simp [start,BufferPool.start]
  · simp [start]
  · simp [start]

section Invariant

variable (inv : Inv s)

include inv

theorem Inv.spared (path : Path) {handles : Path → Option Handle} (tracked : pool.disk.Tracked)
    (table : pool.pageTable = s.pool.pageTable) (spares : Spares path s.pool.disk pool.disk)
    (same : ∀ other, other ≠ path → handles other = s.handles other)
    (mine : ∀ h, handles path = some h → pool.disk.path2fd path = some h.fd ∧
      ∀ p, (pool.pageTable ⟨h.fd,p⟩).isSome = true → Own ⟨pool,handles,s.owner⟩ h.fd p) :
    Inv ⟨pool,handles,s.owner⟩ := by
  refine ⟨tracked,?_,?_⟩
  · intro other h here
    by_cases apart : other = path
    · rw [apart] at here ⊢
      exact (mine h here).1
    · have old : s.handles other = some h := (same other apart).symm.trans here
      exact (spares other h.fd apart (inv.held other h old)).1
  · intro other h p here resident
    by_cases apart : other = path
    · rw [apart] at here
      exact (mine h here).2 p resident
    · have old : s.handles other = some h := (same other apart).symm.trans here
      obtain ⟨_,file,counter⟩ := spares other h.fd apart (inv.held other h old)
      obtain ⟨owner,positive,below⟩ := inv.own other h p old (table ▸ resident)
      refine ⟨?_,positive,?_⟩
      · rw [owner]
        simp [inode,file]
      · change p < (pool.disk.fd2pageno h.fd : Int)
        rw [counter]
        exact below

theorem Inv.leaves {call : PoolCall α} (leaves : Within (OnTable Leaves) call) : Inv (s.onPool call) := by
  obtain ⟨table,held⟩ := leaves s.pool
  obtain ⟨tracked,kept⟩ := held inv.tracked
  refine ⟨tracked,fun path h here => (kept path h.fd (inv.held path h here)).1,?_⟩
  intro path h p here resident
  obtain ⟨_,file,counter⟩ := kept path h.fd (inv.held path h here)
  rw [show (s.onPool call).pool.pageTable = s.pool.pageTable from table] at resident
  obtain ⟨owner,positive,below⟩ := inv.own path h p here resident
  refine ⟨?_,positive,?_⟩
  · rw [show (s.onPool call).owner = s.owner from rfl,owner]
    simp [inode,onPool,file]
  · rw [show (s.onPool call).pool.disk.fd2pageno h.fd = s.pool.disk.fd2pageno h.fd from counter]
    exact below

theorem Inv.settled (settled : Settled (fun _ => False) s.pool pool) : Inv { s with pool := pool } := by
  obtain ⟨resident,disk⟩ := settled
  refine ⟨disk.tracked inv.tracked,?_,?_⟩
  · intro path h here
    change pool.disk.path2fd path = some h.fd
    rw [disk.path2fd]
    exact inv.held path h here
  · intro path h p here present
    obtain ⟨owner,positive,below⟩ := inv.own path h p here ((resident _ present).resolve_left id)
    refine ⟨owner.trans ?_,positive,?_⟩
    · simp [inode,disk.file]
    · change p < (pool.disk.fd2pageno h.fd : Int)
      rw [disk.fd2pageno]
      exact below

theorem Inv.opening {call : PoolCall Handle} (startPageNo : Int → Nat → Nat)
    (run : (∃ e next, call s.pool = (.error e,next) ∧ NotOpened path s.pool next) ∨
      ∃ h inode next, call s.pool = (.ok h,next) ∧
        Opened path s.pool next h inode (startPageNo h.fd inode))
    (clean : s.handles path = none → s.OpensClean path startPageNo) : Inv (s.opening path call) := by
  unfold Store.opening
  cases here : s.handles path with
  | some h => exact inv
  | none =>
    rcases run with ⟨e,next,ran,failed⟩ | ⟨h,inode,next,ran,opened⟩
    · simp only [ran]
      apply inv.spared path failed.tracked failed.table failed.spares (fun _ _ => rfl)
      simp [here]
    · simp only [ran]
      apply inv.spared path opened.tracked opened.table opened.spares
      · intro other apart
        exact Function.update_of_ne apart _ _
      · intro h' mine
        obtain rfl : h = h' := by simpa using mine
        refine ⟨opened.known,fun p resident => ?_⟩
        rw [opened.table] at resident
        obtain ⟨owner,positive,below⟩ := clean here h.fd inode opened.opens p resident
        refine ⟨?_,positive,?_⟩
        · exact owner.trans opened.file.symm
        · change p < (next.disk.fd2pageno h.fd : Int)
          rw [opened.counter]
          exact below

theorem Inv.closeFailed (here : s.handles path = some h) (works : OnTable SameFiles s.pool pool) :
    Inv { s with pool := pool } := by
  obtain ⟨table,same⟩ := works
  apply inv.spared path (same.tracked inv.tracked) table (same.spares path) (fun _ _ => rfl)
  intro h' mine
  obtain rfl : h = h' := Option.mem_unique here mine
  refine ⟨by rw [same.path2fd]; exact inv.held path h here,fun p resident => ?_⟩
  rw [table] at resident
  obtain ⟨owner,positive,below⟩ := inv.own path h p here resident
  refine ⟨owner.trans ?_,positive,?_⟩
  · simp [inode,same.file]
  · change p < (pool.disk.fd2pageno h.fd : Int)
    rw [same.fd2pageno]
    exact below

theorem Inv.closing (here : s.handles path = some h) : Inv (s.closing path h) := by
  unfold Store.closing
  rcases close_run inv.tracked (inv.held path h here) with
    ⟨e,next,ran,same⟩ | ⟨next,ran,table,tracked,spares,_⟩
  · simp only [ran]
    exact inv.closeFailed here same
  · simp only [ran]
    apply inv.spared path tracked table spares
    · intro other apart
      exact Function.update_of_ne apart _ _
    · simp

theorem Inv.dropping (here : s.handles path = some h) : Inv (s.dropping path h) := by
  unfold Store.dropping
  rcases close_run inv.tracked (inv.held path h here) with
    ⟨e,next,ran,same⟩ | ⟨next,ran,table,tracked,spares,gone⟩
  · simp only [ran]
    exact inv.closeFailed here same
  · simp only [ran]
    obtain ⟨tracked',spares'⟩ := destroyFile_spares tracked gone
    have table' : ((onDisk (destroyFile path)).after next).pageTable = s.pool.pageTable := table
    apply inv.spared path tracked' table' ((Spares.frame path).trans _ _ _ spares spares')
    · intro other apart
      exact Function.update_of_ne apart _ _
    · simp

theorem Inv.fetching {pageNo : Int} (numbered : 0 ≤ pageNo ∧ pageNo < s.pool.disk.fd2pageno h.fd) :
    Inv (s.fetching ⟨h.fd,pageNo⟩) := by
  obtain ⟨resident,disk⟩ := fetchPage_settled s.pool ⟨h.fd,pageNo⟩
  have file : ∀ fd, (s.fetching ⟨h.fd,pageNo⟩).inode fd = s.inode fd := by
    intro fd
    simp [inode,Store.fetching,disk.file]
  refine ⟨disk.tracked inv.tracked,?_,?_⟩
  · intro other g there
    change ((fetchPage ⟨h.fd,pageNo⟩).after s.pool).disk.path2fd other = some g.fd
    rw [disk.path2fd]
    exact inv.held other g there
  · intro other g p there present
    have counter : (s.fetching ⟨h.fd,pageNo⟩).pool.disk.fd2pageno = s.pool.disk.fd2pageno :=
      disk.fd2pageno
    rw [Own,file,counter]
    by_cases old : (s.pool.pageTable ⟨g.fd,p⟩).isSome = true
    · obtain ⟨owner,bounds⟩ := inv.own other g p there old
      refine ⟨?_,bounds⟩
      rw [← owner]
      simp only [Store.fetching]
      split
      · rename_i loaded
        have differ : (⟨g.fd,p⟩ : PageId) ≠ ⟨h.fd,pageNo⟩ := by
          intro same
          rw [same] at old
          simp [Option.isNone_iff_eq_none.mp loaded.1] at old
        exact Function.update_of_ne differ _ _
      · rfl
    · obtain ⟨sameFd,rfl⟩ := PageId.mk.inj ((resident _ present).resolve_right old)
      rw [sameFd] at old present ⊢
      refine ⟨?_,numbered⟩
      have loaded : (s.pool.pageTable ⟨h.fd,p⟩).isNone = true ∧
          (((fetchPage ⟨h.fd,p⟩).after s.pool).pageTable ⟨h.fd,p⟩).isSome = true := by
        refine ⟨?_,present⟩
        simpa using old
      simp [Store.fetching,loaded]

end Invariant

theorem counted_fd (h : Handle) (pageNo : Int) : (h.counted pageNo).fd = h.fd := by
  unfold Handle.counted
  cases h.hdr <;> rfl

theorem Inv.allocated (inv : Inv s) (fd : Int) : Inv { s with pool := s.pool.taken.allocated fd } := by
  have quiet := inv.settled (taken_settled s.pool _)
  refine ⟨⟨quiet.tracked.inverse,quiet.tracked.opened,quiet.tracked.named⟩,quiet.held,?_⟩
  intro path h p here present
  obtain ⟨owner,positive,below⟩ := quiet.own path h p here present
  refine ⟨owner,positive,?_⟩
  change p < (s.pool.taken.disk.fd2pageno h.fd : Int) at below
  simp only [BufferPool.allocated]
  by_cases same : h.fd = fd
  · rw [same] at below ⊢
    rw [Function.update_self]
    omega
  · rw [Function.update_of_ne same]
    exact below

theorem counted_handle {other : Path} {g : Handle} {pageNo : Int} (here : s.handles path = some h)
    (there : Function.update s.handles path (some (h.counted pageNo)) other = some g) :
    ∃ old, s.handles other = some old ∧ old.fd = g.fd := by
  by_cases same : other = path
  · obtain rfl : h.counted pageNo = g := by simpa [same] using there
    exact ⟨h,by rw [same]; exact here,(counted_fd h pageNo).symm⟩
  · exact ⟨g,by simpa [same] using there,rfl⟩

/-- A new page is not resident before the call, so the table gets it and its owner is set. -/
theorem Inv.installed (inv : Inv s) (here : s.handles path = some h) {frame : FrameId}
    (entered : Settled (· = ⟨h.fd,s.pool.disk.fd2pageno h.fd⟩) (s.pool.taken.allocated h.fd) pool)
    (placed : s.pool.pageTable ⟨h.fd,s.pool.disk.fd2pageno h.fd⟩ = none →
      pool.pageTable ⟨h.fd,s.pool.disk.fd2pageno h.fd⟩ = some frame) :
    Inv ⟨pool,Function.update s.handles path (some (h.counted (s.pool.disk.fd2pageno h.fd))),
      if pool.pageTable ⟨h.fd,s.pool.disk.fd2pageno h.fd⟩ = some frame then
        Function.update s.owner ⟨h.fd,s.pool.disk.fd2pageno h.fd⟩ (s.inode h.fd)
      else s.owner⟩ := by
  have before := inv.allocated h.fd
  have absent : s.pool.pageTable ⟨h.fd,s.pool.disk.fd2pageno h.fd⟩ = none := by
    cases resident : s.pool.pageTable ⟨h.fd,s.pool.disk.fd2pageno h.fd⟩ with
    | none => rfl
    | some other =>
      have below := (inv.own path h _ here (by rw [resident]; rfl)).2.2
      omega
  have disk : (s.pool.taken.allocated h.fd).disk = { s.pool.disk with
      fd2pageno := Function.update s.pool.disk.fd2pageno h.fd (s.pool.disk.fd2pageno h.fd + 1) } := by
    simp only [BufferPool.allocated,taken_disk]
  have files : ∀ fd, pool.disk.os.file fd = s.pool.disk.os.file fd := by
    intro fd
    rw [entered.disk.file,disk]
  have counters : pool.disk.fd2pageno =
      Function.update s.pool.disk.fd2pageno h.fd (s.pool.disk.fd2pageno h.fd + 1) := by
    rw [entered.disk.fd2pageno,disk]
  rw [if_pos (placed absent)]
  refine ⟨entered.disk.tracked before.tracked,?_,?_⟩
  · intro other g there
    obtain ⟨old,known,same⟩ := counted_handle here there
    have kept := before.held other old known
    rw [same] at kept
    change pool.disk.path2fd other = some g.fd
    rw [entered.disk.path2fd]
    exact kept
  · intro other g p there present
    obtain ⟨old,known,same⟩ := counted_handle here there
    have inodes : ∀ fd handles owner, Store.inode ⟨pool,handles,owner⟩ fd = s.inode fd := by
      intro fd handles owner
      simp [inode,files]
    rw [Own,inodes]
    simp only [counters]
    by_cases equal : (⟨g.fd,p⟩ : PageId) = ⟨h.fd,s.pool.disk.fd2pageno h.fd⟩
    · obtain ⟨sameFd,number⟩ := PageId.mk.inj equal
      rw [equal,sameFd,Function.update_self,Function.update_self]
      refine ⟨rfl,?_⟩
      rw [number]
      omega
    · have resident := (entered.resident _ present).resolve_left equal
      rw [← same] at resident equal ⊢
      obtain ⟨owner,positive,below⟩ := before.own other old p known resident
      refine ⟨?_,positive,by simpa only [disk] using below⟩
      rw [Function.update_of_ne equal]
      refine owner.trans ?_
      simp [inode,disk]

theorem Inv.creating (inv : Inv s) (here : s.handles path = some h) : Inv (s.creating path h) := by
  unfold Store.creating
  rw [newPage_eq]
  have quiet := inv.settled (taken_settled s.pool _)
  cases s.pool.victimFrame with
  | none => exact quiet
  | some frame =>
  dsimp only
  by_cases known : 0 ≤ h.fd ∧ h.fd < maxFd
  case neg => simpa only [if_neg known] using quiet
  have same := writeBack_same (s.pool.taken.allocated h.fd) frame
  rw [if_pos known,taken_disk]
  cases wrote : (s.pool.taken.allocated h.fd).writeBack frame with
  | mk result disk =>
  rw [wrote] at same
  cases result with
  | error e => exact (inv.allocated h.fd).settled ⟨fun _ present => .inr present,same⟩
  | ok _ =>
    obtain ⟨resident,files⟩ := handed_settled (s.pool.taken.allocated h.fd) frame
      ⟨h.fd,s.pool.disk.fd2pageno h.fd⟩ same
    refine inv.installed here ⟨fun other present => (resident other present).imp_left And.right,files⟩ fun absent => ?_
    have missing : (s.pool.taken.allocated h.fd).pageTable ⟨h.fd,s.pool.disk.fd2pageno h.fd⟩ = none :=
      (congrFun (taken_table s.pool) _).trans absent
    have table := handed_pageTable (f := frame) disk missing (by simp [invalidPageId])
    exact (congrFun table _).trans (Function.update_self ..)

theorem step_inv (s : Store) (op : FileOp) (inv : Inv s) (admissible : s.Admissible op) :
    Inv (s.step op) := by
  have work : ∀ path (change : Handle → Store), (∀ h, s.handles path = some h → Inv (change h)) →
      Inv (s.withHandle path change) := by
    intro path change keeps
    unfold withHandle
    cases here : s.handles path with
    | none => exact inv
    | some h => exact keeps h here
  cases op with
  | createTable path recordSize => exact inv.leaves (rmCreateFile_leaves path recordSize)
  | openTable path =>
    exact inv.opening (fun _ inode => tableStart s.pool.disk inode) (rmOpenFile_run path inv.tracked)
      admissible
  | createIndex path cols => exact inv.leaves (ixCreateIndex_leaves path cols)
  | openIndex path =>
    exact inv.opening (fun fd _ => s.pool.disk.fd2pageno fd + 1) (ixOpenIndex_run path inv.tracked)
      admissible
  | close path => exact work path _ fun h here => inv.closing here
  | drop path => exact work path _ fun h here => inv.dropping here
  | fetch path pageNo => exact work path _ fun h here => inv.fetching (admissible h here)
  | new path => exact work path _ fun h here => inv.creating here
  | unpin path pageNo isDirty =>
    exact work path _ fun h _ => inv.settled (unpinPage_settled s.pool _ _)
  | flush path pageNo =>
    exact work path _ fun h _ => inv.settled (same_settled (flushPage_same _) _ s.pool)
  | delete path pageNo => exact work path _ fun h _ => inv.settled (deletePage_settled s.pool _)
  | write frame data =>
    exact inv.settled ⟨fun _ here => .inr here,SameFiles.frame.refl _⟩

/-- In every run that opens files on clean descriptors and fetches pages by numbers handed
out, no buffered page leaks from one file into another. -/
theorem clean_descriptors_no_leak (poolSize : Nat) (fds : FrameId → Int) (os : Os) (run : List FileOp)
    (admissible : Guarded step Admissible (start poolSize fds os) run) :
    NoLeak (run.foldl step (start poolSize fds os)) := by
  have inv : Inv (run.foldl step (start poolSize fds os)) :=
    guarded_invariant Inv step_inv _ (start_inv poolSize fds os) run admissible
  exact inv.noLeak

def shellOs : Os :=
  ⟨fun _ => File.empty,3,fun _ => none,[some ⟨0,true⟩,some ⟨1,true⟩,some ⟨2,true⟩]⟩

def smallStore : Store := start 4 (fun _ => 0) shellOs

/-- Two tables are created, the second gets a page, and both are dropped. The descriptors
that creation leaks make the third table get the second one's. -/
def dropThenCreate : List FileOp :=
  [.createTable "a" 4,.openTable "a",.createTable "b" 4,.openTable "b",.new "b",.unpin "b" 1 true,
    .drop "a",.drop "b",.createTable "c" 4,.openTable "c"]

/-- The page of the dropped table is found under the new table's descriptor, and the first
new page of the new table gets the same identifier in another frame. -/
theorem dropThenCreate_leaks :
    let s := dropThenCreate.foldl step smallStore
    (s.handles "c").map Handle.fd = some 6 ∧ s.pool.pageTable ⟨6,1⟩ = some 0 ∧
    s.owner ⟨6,1⟩ = some 4 ∧ s.inode 6 = some 5 ∧
    (newPage 6 s.pool).1 = .ok (some (1,⟨6,1⟩)) ∧ ¬ NoLeak s := by
  have fd : ((dropThenCreate.foldl step smallStore).handles "c").map Handle.fd = some 6 := by
    decide +kernel
  have resident : (dropThenCreate.foldl step smallStore).pool.pageTable ⟨6,1⟩ = some 0 := by
    decide +kernel
  have made : (newPage 6 (dropThenCreate.foldl step smallStore).pool).1 = .ok (some (1,⟨6,1⟩)) := by
    decide +kernel
  refine ⟨fd,resident,by decide +kernel,by decide +kernel,made,?_⟩
  intro noLeak
  obtain ⟨h,here,number⟩ := Option.map_eq_some_iff.mp fd
  have same := (noLeak "c" h here).2 1 ⟨6,1⟩ (by rw [number]; exact made) 0 resident
  exact absurd same (by decide)

/-- A table is used, closed, and opened again on the same descriptor. -/
def reopened : List FileOp :=
  [.createTable "a" 4,.openTable "a",.new "a",.unpin "a" 1 true,.fetch "a" 1,.unpin "a" 1 false,
    .close "a",.openTable "a"]

theorem reopened_admissible : Guarded step Admissible smallStore reopened := by
  have first : Admissible (smallStore.step (.createTable "a" 4)) (.openTable "a") := by
    intro _ fd inode _ p resident
    rw [show (smallStore.step (.createTable "a" 4)).pool.pageTable = smallStore.pool.pageTable from
      (rmCreateFile_leaves "a" 4 smallStore.pool).1] at resident
    contradiction
  have fetched : Admissible ((reopened.take 4).foldl step smallStore) (.fetch "a" 1) := by
    have below : ∀ h ∈ ((reopened.take 4).foldl step smallStore).handles "a",
        (0 : Int) ≤ 1 ∧ (1 : Int) < ((reopened.take 4).foldl step smallStore).pool.disk.fd2pageno h.fd := by decide +kernel
    exact below
  -- what is resident when the table is closed is its own, and closing changes no owner
  have second : Admissible ((reopened.take 7).foldl step smallStore) (.openTable "a") := by
    have inv : Inv ((reopened.take 6).foldl step smallStore) :=
      guarded_invariant Inv step_inv _ (start_inv _ _ _) _
        ⟨trivial,first,trivial,trivial,fetched,trivial,trivial⟩
    have fd : (((reopened.take 6).foldl step smallStore).handles "a").map Handle.fd = some 4 := by
      decide +kernel
    obtain ⟨h,here,number⟩ := Option.map_eq_some_iff.mp fd
    intro _ fd inode opens p resident
    have target : ((reopened.take 7).foldl step smallStore).pool.disk.opens "a" = some (4,3) := by
      decide +kernel
    obtain ⟨rfl,rfl⟩ : 4 = fd ∧ 3 = inode := by simpa [target] using opens
    obtain ⟨owner,positive,below⟩ := inv.own "a" h p here (by rw [number]; exact resident)
    rw [number] at owner below
    rw [show ((reopened.take 6).foldl step smallStore).inode 4 = some 3 by decide +kernel] at owner
    rw [show ((reopened.take 6).foldl step smallStore).pool.disk.fd2pageno 4 = 2 by decide +kernel]
      at below
    have pages : tableStart ((reopened.take 7).foldl step smallStore).pool.disk 3 = 2 := by
      decide +kernel
    refine ⟨owner,positive,?_⟩
    simp only [pages]
    exact below
  exact ⟨trivial,first,trivial,trivial,fetched,trivial,trivial,second,trivial⟩

theorem reopened_no_leak :
    Guarded step Admissible smallStore reopened ∧ NoLeak (reopened.foldl step smallStore) :=
  ⟨reopened_admissible,clean_descriptors_no_leak 4 (fun _ => 0) shellOs reopened reopened_admissible⟩

end Store

end Rucbase
