import Rucbase.LockManager
import Rucbase.RecordPage

/-! Table files over a transparent page store, and the record operations with their row
locks. The part of an operation that works on the file alone is a function of `RmFile`; the
operation itself also locks, may throw, and notes the access in a log. -/
namespace Rucbase

open Lib Lib.Prog LockManager

/-- An open table file: its descriptor, the header in memory and the one on page 0, the
pages, and the counter new page numbers are taken from. Page 0 holds the header; what its
bytes are as a record page is left open. -/
structure RmFile where
  fd : Int
  fileHdr : RmFileHdr
  diskHdr : RmFileHdr
  pages : Int → Option RmPage
  fd2pageno : Nat

namespace RmFile

def setFirstFree (f : RmFile) (pageNo : Int) : RmFile :=
  { f with fileHdr := { f.fileHdr with firstFreePageNo := pageNo } }

def putPage (f : RmFile) (pageNo : Int) (page : RmPage) : RmFile :=
  { f with pages := Function.update f.pages pageNo (some page) }

def fetchPageHandle (f : RmFile) (pageNo : Int) : Except RMDBError RmPage :=
  if pageNo = invalidPageId then .error (.pageNotExist "" pageNo)
  else match f.pages pageNo with
    | some page => .ok page
    | none => .error (.internal "DiskManager::read_page Error")

/-- The new page's number, its contents and the file that has it. -/
def createNewPageHandle (f : RmFile) : Int × RmPage × RmFile :=
  let pageNo : Int := f.fd2pageno
  let page := { RmPage.zero with nextFreePageNo := f.fileHdr.firstFreePageNo, numRecords := 0 }
  let hdr := { f.fileHdr with firstFreePageNo := pageNo, numPages := f.fileHdr.numPages + 1 }
  (pageNo,page,{ f.putPage pageNo page with fileHdr := hdr, fd2pageno := f.fd2pageno + 1 })

def createPageHandle (f : RmFile) : Except RMDBError (Int × RmPage × RmFile) :=
  if f.fileHdr.firstFreePageNo = rmNoPage then .ok f.createNewPageHandle
  else match f.fetchPageHandle f.fileHdr.firstFreePageNo with
    | .ok page => .ok (f.fileHdr.firstFreePageNo,page,f)
    | .error e => .error e

/-- `insert_record` after the lock: set the bit, copy the record, leave the chain if full. -/
def storeRecord (f : RmFile) (pageNo : Int) (page : RmPage) (slotNo : Nat) (buf : List Byte) : RmFile :=
  let filled := RmPage.putSlot f.fileHdr (Bitmap.set page slotNo) slotNo buf
  let counted := { filled with numRecords := filled.numRecords + 1 }
  let stored := f.putPage pageNo counted
  if counted.numRecords = f.fileHdr.numRecordsPerPage then stored.setFirstFree counted.nextFreePageNo
  else stored

/-- `delete_record` after the fetch. A page that was full joins the chain again. -/
def eraseRecord (f : RmFile) (pageNo : Int) (page : RmPage) (slotNo : Nat) : RmFile :=
  let cleared := Bitmap.reset page slotNo
  let counted := { cleared with numRecords := cleared.numRecords - 1 }
  if counted.numRecords = (f.fileHdr.numRecordsPerPage : Int) - 1 then
    let released := { counted with nextFreePageNo := f.fileHdr.firstFreePageNo }
    (f.putPage pageNo released).setFirstFree pageNo
  else f.putPage pageNo counted

def overwriteRecord (f : RmFile) (pageNo : Int) (page : RmPage) (slotNo : Nat) (buf : List Byte) :
    RmFile :=
  f.putPage pageNo (RmPage.putSlot f.fileHdr page slotNo buf)

/-- `RmManager::close_file`: the header in memory goes to page 0. -/
def close (f : RmFile) : RmFile := { f with diskHdr := f.fileHdr }

/-- `RmManager::open_file` on descriptor `fd`. -/
def reopen (f : RmFile) (fd : Int) : RmFile :=
  { f with fd := fd, fileHdr := f.diskHdr, fd2pageno := f.diskHdr.numPages }

end RmFile

/-- `RmManager::create_file`: the header of a new file, or a refused record size. -/
def createFile (recordSize : Int) : Except RMDBError RmFileHdr :=
  if recordSize < 1 ∨ recordSize > rmMaxRecordSize then .error (.invalidRecordSize recordSize)
  else .ok (initialHdr recordSize.toNat)

/-- The file a new header gives when opened, page 0 being `header`. -/
def openNew (hdr : RmFileHdr) (fd : Int) (header : Option RmPage) : RmFile where
  fd := fd
  fileHdr := hdr
  diskHdr := hdr
  pages := fun pageNo => if pageNo = 0 then header else none
  fd2pageno := hdr.numPages

inductive Access where
  | read (txn : TxnId) (tabName : String) (rid : Rid) (data : List Byte)
  | write (txn : TxnId) (tabName : String) (rid : Rid)
  | ended (txn : TxnId)
  deriving DecidableEq

/-- The lock manager, the table files by name, and the accesses so far, oldest first. -/
structure Db where
  locks : LockState
  files : String → Option RmFile
  log : List Access

inductive DbError where
  | rmdb (e : RMDBError)
  | abort (e : TransactionAbortException)
  | outOfRange
  deriving DecidableEq

abbrev DbCall := Prog Db DbError

namespace Db

def onLocks {α : Type} (call : Prog LockState TransactionAbortException α) : DbCall α := fun s =>
  ((call s.locks).1.mapError .abort,{ s with locks := (call s.locks).2 })

def lift {α : Type} : Except RMDBError α → DbCall α
  | .ok a => pure a
  | .error e => raise (.rmdb e)

/-- `fhs_.at(tab_name)`. -/
def fileOf (tabName : String) : DbCall RmFile := do
  let s ← state
  match s.files tabName with
  | some f => pure f
  | none => raise .outOfRange

def setFile (tabName : String) (f : RmFile) : DbCall Unit :=
  update fun s => { s with files := Function.update s.files tabName (some f) }

def note (access : Access) : DbCall Unit := update fun s => { s with log := s.log ++ [access] }

/-- A row lock, if the caller has a context; its result is not looked at. -/
def lockRow (request : TxnId → Rid → Int → Call) (context : Option TxnId) (rid : Rid) (fd : Int) :
    DbCall Unit :=
  match context with
  | some txn => do
    let _ ← onLocks (request txn rid fd)
    pure ()
  | none => pure ()

def noteBy (context : Option TxnId) (access : TxnId → Access) : DbCall Unit :=
  match context with
  | some txn => note (access txn)
  | none => pure ()

def getRecord (tabName : String) (rid : Rid) (context : Option TxnId) : DbCall (List Byte) := do
  let f ← fileOf tabName
  lockRow lockSharedOnRecord context rid f.fd
  let page ← lift (f.fetchPageHandle rid.pageNo)
  let data := RmPage.getSlot f.fileHdr page rid.slotNo.toNat
  noteBy context fun txn => .read txn tabName rid data
  pure data

/-- The page may have been created before the lock is refused. -/
def insertRecord (tabName : String) (buf : List Byte) (context : Option TxnId) : DbCall Rid := do
  let f ← fileOf tabName
  let (pageNo,page,f) ← lift f.createPageHandle
  setFile tabName f
  let newSlotNo := Bitmap.firstBit false page f.fileHdr.numRecordsPerPage
  let rid : Rid := ⟨pageNo,newSlotNo⟩
  lockRow lockExclusiveOnRecord context rid f.fd
  setFile tabName (f.storeRecord pageNo page newSlotNo buf)
  noteBy context fun txn => .write txn tabName rid
  pure rid

def deleteRecord (tabName : String) (rid : Rid) (context : Option TxnId) : DbCall Unit := do
  let f ← fileOf tabName
  lockRow lockExclusiveOnRecord context rid f.fd
  let page ← lift (f.fetchPageHandle rid.pageNo)
  setFile tabName (f.eraseRecord rid.pageNo page rid.slotNo.toNat)
  noteBy context fun txn => .write txn tabName rid

def updateRecord (tabName : String) (rid : Rid) (buf : List Byte) (context : Option TxnId) :
    DbCall Unit := do
  let f ← fileOf tabName
  lockRow lockExclusiveOnRecord context rid f.fd
  let page ← lift (f.fetchPageHandle rid.pageNo)
  setFile tabName (f.overwriteRecord rid.pageNo page rid.slotNo.toNat buf)
  noteBy context fun txn => .write txn tabName rid

def isRecord (tabName : String) (rid : Rid) : DbCall Bool := do
  let f ← fileOf tabName
  let page ← lift (f.fetchPageHandle rid.pageNo)
  pure (Bitmap.isSet page rid.slotNo.toNat)

/-- `close_file`, then `open_file` on whatever descriptor is free. -/
def reopenFile (tabName : String) (fd : Int) : DbCall Unit := do
  let f ← fileOf tabName
  setFile tabName (f.close.reopen fd)

/-- A row lock on the lock manager alone. -/
def rowLock (request : TxnId → Rid → Int → Call) (context : Option TxnId) (rid : Rid) (fd : Int) (locks : LockState) :
    Except TransactionAbortException Unit × LockState :=
  match context with
  | some txn => ((request txn rid fd locks).1.map fun _ => (),(request txn rid fd locks).2)
  | none => (.ok (),locks)

def logged (context : Option TxnId) (access : TxnId → Access) : List Access :=
  (context.map access).toList

theorem lockRow_run (request : TxnId → Rid → Int → Call) (context : Option TxnId) (rid : Rid) (fd : Int) (s : Db) :
    lockRow request context rid fd s =
      ((rowLock request context rid fd s.locks).1.mapError .abort,
        { s with locks := (rowLock request context rid fd s.locks).2 }) := by
  cases context with
  | none => rfl
  | some txn =>
    cases ran : request txn rid fd s.locks with
    | mk result locks =>
      cases result <;> simp [lockRow,rowLock,bind_run,onLocks,ran,Except.mapError,Except.map]

theorem noteBy_run (context : Option TxnId) (access : TxnId → Access) (s : Db) :
    noteBy context access s = (.ok (),{ s with log := s.log ++ logged context access }) := by
  cases context with
  | none => simp [noteBy,logged]
  | some txn => rfl

theorem fileOf_run {s : Db} {tabName : String} {f : RmFile} (here : s.files tabName = some f) :
    fileOf tabName s = (.ok f,s) := by
  simp [fileOf,bind_run,here]

theorem fileOf_bind_none {s : Db} {tabName : String} (absent : s.files tabName = none) {α : Type}
    (call : RmFile → DbCall α) : (fileOf tabName >>= call) s = (.error .outOfRange,s) := by
  apply bind_error
  simp [fileOf,bind_run,absent]

/-- A call on a page of a table under a row lock: refused, without the page, or done. -/
def underLock {α : Type} (request : TxnId → Rid → Int → Call) (context : Option TxnId) (rid : Rid) (f : RmFile) (s : Db)
    (done : RmPage → LockState → Except DbError α × Db) : Except DbError α × Db :=
  match rowLock request context rid f.fd s.locks with
  | (.error e,locks) => (.error (.abort e),{ s with locks := locks })
  | (.ok _,locks) =>
    match f.fetchPageHandle rid.pageNo with
    | .error e => (.error (.rmdb e),{ s with locks := locks })
    | .ok page => done page locks

section Equations

variable {s : Db} {tabName : String} {f : RmFile} (here : s.files tabName = some f) (context : Option TxnId)
  (rid : Rid)

include here

theorem underLock_run {α : Type} (request : TxnId → Rid → Int → Call) (rest : RmFile → RmPage → DbCall α)
    {done : RmPage → LockState → Except DbError α × Db}
    (same : ∀ page locks, rest f page { s with locks := locks } = done page locks) : (do
      let f ← fileOf tabName
      lockRow request context rid f.fd
      let page ← lift (f.fetchPageHandle rid.pageNo)
      rest f page) s = underLock request context rid f s done := by
  rw [bind_ok (fileOf_run here),bind_run,lockRow_run,underLock]
  match rowLock request context rid f.fd s.locks with
  | (.error e,locks) => rfl
  | (.ok _,locks) =>
    cases fetched : f.fetchPageHandle rid.pageNo with
    | error e => simp [Except.mapError,bind_run,lift]
    | ok page => simpa [Except.mapError,bind_run,lift] using same page locks

theorem getRecord_run : getRecord tabName rid context s =
    underLock lockSharedOnRecord context rid f s fun page locks =>
      let data := RmPage.getSlot f.fileHdr page rid.slotNo.toNat
      (.ok data,{ s with locks := locks, log := s.log ++ logged context fun txn => .read txn tabName rid data }) :=
  underLock_run here context rid _ _ fun _ _ => by simp [bind_run,noteBy_run]

theorem deleteRecord_run : deleteRecord tabName rid context s =
    underLock lockExclusiveOnRecord context rid f s fun page locks => (.ok (),{
      locks := locks
      files := Function.update s.files tabName (some (f.eraseRecord rid.pageNo page rid.slotNo.toNat))
      log := s.log ++ logged context fun txn => .write txn tabName rid }) :=
  underLock_run here context rid _ _ fun _ _ => by simp [bind_run,setFile,noteBy_run]

theorem updateRecord_run (buf : List Byte) : updateRecord tabName rid buf context s =
    underLock lockExclusiveOnRecord context rid f s fun page locks => (.ok (),{
      locks := locks
      files := Function.update s.files tabName (some (f.overwriteRecord rid.pageNo page rid.slotNo.toNat buf))
      log := s.log ++ logged context fun txn => .write txn tabName rid }) :=
  underLock_run here context rid _ _ fun _ _ => by simp [bind_run,setFile,noteBy_run]

theorem insertRecord_run (buf : List Byte) : insertRecord tabName buf context s =
    match f.createPageHandle with
    | .error e => (.error (.rmdb e),s)
    | .ok (pageNo,page,next) =>
      let slotNo := Bitmap.firstBit false page next.fileHdr.numRecordsPerPage
      match rowLock lockExclusiveOnRecord context ⟨pageNo,slotNo⟩ next.fd s.locks with
      | (.error e,locks) => (.error (.abort e),{ s with
          locks := locks, files := Function.update s.files tabName (some next) })
      | (.ok _,locks) => (.ok ⟨pageNo,slotNo⟩,{
          locks := locks
          files := Function.update s.files tabName (some (next.storeRecord pageNo page slotNo buf))
          log := s.log ++ logged context fun txn => .write txn tabName ⟨pageNo,slotNo⟩ }) := by
  unfold insertRecord
  rw [bind_ok (fileOf_run here)]
  cases created : f.createPageHandle with
  | error e => simp [bind_run,lift]
  | ok made =>
    obtain ⟨pageNo,page,next⟩ := made
    simp only [lift,bind_run,pure_run,setFile,update_run,lockRow_run]
    cases locked : rowLock lockExclusiveOnRecord context
        ⟨pageNo,Bitmap.firstBit false page next.fileHdr.numRecordsPerPage⟩ next.fd s.locks with
    | mk result locks =>
      cases result with
      | error e => rfl
      | ok _ => simp [Except.mapError,noteBy_run]

theorem isRecord_run : isRecord tabName rid s =
    match f.fetchPageHandle rid.pageNo with
    | .error e => (.error (.rmdb e),s)
    | .ok page => (.ok (Bitmap.isSet page rid.slotNo.toNat),s) := by
  unfold isRecord
  rw [bind_ok (fileOf_run here)]
  cases fetched : f.fetchPageHandle rid.pageNo <;> simp [bind_run,lift]

theorem reopenFile_run (fd : Int) : reopenFile tabName fd s =
    (.ok (),{ s with files := Function.update s.files tabName (some (f.close.reopen fd)) }) := by
  unfold reopenFile
  rw [bind_ok (fileOf_run here)]
  rfl

end Equations

/-- What a call does to the lock manager. -/
def OnLocks (R : LockState → LockState → Prop) (s next : Db) : Prop := R s.locks next.locks

section OnLocks

variable {R : LockState → LockState → Prop} (frame : Frame R) {txn : TxnId} {request : TxnId → Rid → Int → Call}
  (tabName : String) (rid : Rid)

include frame

theorem onLocks_frame : Frame (OnLocks R) :=
  ⟨fun s => frame.refl s.locks,fun _ _ _ first second => frame.trans _ _ _ first second⟩

theorem onLocks_same {α : Type} {call : DbCall α} (same : ∀ s, (call.after s).locks = s.locks) : Within (OnLocks R) call :=
  fun s => by
    rw [OnLocks,same]
    exact frame.refl s.locks

theorem fileOf_onLocks : Within (OnLocks R) (fileOf tabName) :=
  onLocks_same frame fun s => by cases here : s.files tabName <;> simp [fileOf,after,bind_run,here]

theorem lift_onLocks {α : Type} (x : Except RMDBError α) : Within (OnLocks R) (lift x : DbCall α) :=
  onLocks_same frame fun _ => by cases x <;> rfl

variable (asks : ∀ rid fd, Within R (request txn rid fd))

include asks

omit frame in
theorem lockRow_onLocks (rid : Rid) (fd : Int) : Within (OnLocks R) (lockRow request (some txn) rid fd) := fun s => by
  rw [OnLocks,after,lockRow_run]
  exact asks rid fd s.locks

theorem underLock_onLocks {α : Type} {rest : RmFile → RmPage → DbCall α}
    (same : ∀ f page s, ((rest f page).after s).locks = s.locks) : Within (OnLocks R) (do
      let f ← fileOf tabName
      lockRow request (some txn) rid f.fd
      let page ← lift (f.fetchPageHandle rid.pageNo)
      rest f page) := by
  have frames := onLocks_frame frame
  refine frames.bind (fileOf_onLocks frame tabName) fun f => ?_
  refine frames.bind (lockRow_onLocks asks rid f.fd) fun _ => ?_
  exact frames.bind (lift_onLocks frame _) fun page => onLocks_same frame (same f page)

end OnLocks

section RowCalls

variable {R : LockState → LockState → Prop} (frame : Frame R) {txn : TxnId} (tabName : String) (rid : Rid) (buf : List Byte)

include frame

theorem getRecord_onLocks (asks : ∀ rid fd, Within R (lockSharedOnRecord txn rid fd)) :
    Within (OnLocks R) (getRecord tabName rid (some txn)) :=
  underLock_onLocks frame tabName rid asks fun _ _ _ => rfl

variable (asks : ∀ rid fd, Within R (lockExclusiveOnRecord txn rid fd))

include asks

theorem updateRecord_onLocks : Within (OnLocks R) (updateRecord tabName rid buf (some txn)) :=
  underLock_onLocks frame tabName rid asks fun _ _ _ => rfl

theorem deleteRecord_onLocks : Within (OnLocks R) (deleteRecord tabName rid (some txn)) :=
  underLock_onLocks frame tabName rid asks fun _ _ _ => rfl

theorem insertRecord_onLocks : Within (OnLocks R) (insertRecord tabName buf (some txn)) := by
  have frames := onLocks_frame frame
  refine frames.bind (fileOf_onLocks frame tabName) fun f => ?_
  refine frames.bind (lift_onLocks frame _) fun made => ?_
  refine frames.bind (onLocks_same frame fun _ => rfl) fun _ => ?_
  exact frames.bind (lockRow_onLocks asks _ _) fun _ => onLocks_same frame fun _ => rfl

end RowCalls

theorem row_cases {α : Type} {s : Db} {tabName : String} {txn : TxnId} {rid : Rid} {request : TxnId → Rid → Int → Call}
    {call : DbCall α} {done : RmFile → RmPage → LockState → Except DbError α × Db} {P : Except DbError α × Db → Prop}
    (missing : s.files tabName = none → call s = (.error .outOfRange,s))
    (run : ∀ f, s.files tabName = some f → call s = underLock request (some txn) rid f s (done f))
    (idle : P (.error .outOfRange,s))
    (stopped : ∀ f result locks e, s.files tabName = some f → rowLock request (some txn) rid f.fd s.locks = (result,locks) →
      P (.error e,{ s with locks := locks }))
    (finished : ∀ f locks page, s.files tabName = some f → rowLock request (some txn) rid f.fd s.locks = (.ok (),locks) →
      f.fetchPageHandle rid.pageNo = .ok page → P (done f page locks)) : P (call s) := by
  cases here : s.files tabName with
  | none => exact missing here ▸ idle
  | some f =>
    rw [run f here,underLock]
    match locked : rowLock request (some txn) rid f.fd s.locks with
    | (.error e,locks) => exact stopped f _ locks _ here locked
    | (.ok (),locks) =>
      dsimp only
      cases fetched : f.fetchPageHandle rid.pageNo with
      | error e => exact stopped f _ locks _ here locked
      | ok page => exact finished f locks page here locked fetched

end Db

end Rucbase
