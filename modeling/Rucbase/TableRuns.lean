import Rucbase.RmScan
import Rucbase.LockCompat

/-! Table files in every state that record operations on live rows lead to, whatever locks are
refused on the way: the chain of pages with room, the scan, and what becomes of operations on rows
that are not there. -/
namespace Rucbase.TableRuns

open Lib Lib.Prog LockManager Db

/-- A buffer as long as the records of the table. -/
abbrev Record (size : Nat) := {buf : List Byte // buf.length = size}

inductive TableOp (size : Nat) where
  | insert (buf : Record size) (context : Option TxnId)
  | update (rid : Rid) (buf : Record size) (context : Option TxnId)
  | delete (rid : Rid) (context : Option TxnId)
  | reopen (fd : Int)
  | others (locks : LockState)

variable (tabName : String) {size : Nat}

/-- One operation, returning or throwing. In between, others lock and unlock. -/
def step (db : Db) : TableOp size → Db
  | .insert buf context => (insertRecord tabName buf.1 context).after db
  | .update rid buf context => (updateRecord tabName rid buf.1 context).after db
  | .delete rid context => (deleteRecord tabName rid context).after db
  | .reopen fd => (reopenFile tabName fd).after db
  | .others locks => { db with locks := locks }

def IsLive (db : Db) (rid : Rid) : Bool := ((db.files tabName).bind fun f => f.contents rid).isSome

/-- Updates and deletions name live rows. -/
def OnLive (db : Db) : TableOp size → Prop
  | .update rid _ _ => IsLive tabName db rid = true
  | .delete rid _ => IsLive tabName db rid = true
  | _ => True

/-- The states of a table, from its creation with an accepted record size on. -/
inductive Reachable : Nat → Db → Prop where
  | created {recordSize : Int} {hdr : RmFileHdr} {db : Db} {fd : Int} {header : Option RmPage} :
      createFile recordSize = .ok hdr → db.files tabName = some (openNew hdr fd header) → Reachable hdr.recordSize db
  | next {size : Nat} {db : Db} (op : TableOp size) : Reachable size db → OnLive tabName db op →
      Reachable size (step tabName db op)

variable {tabName} {db : Db} {f : RmFile} {rid : Rid}

/-- The table is open, and its file is as it should be. -/
def Fine (tabName : String) (size : Nat) (db : Db) : Prop :=
  ∃ f, db.files tabName = some f ∧ f.Ok ∧ f.fileHdr.recordSize = size

theorem fine_set (fine : f.Ok) (same : f.fileHdr.recordSize = size) {locks : LockState} {log : List Access} :
    Fine tabName size ⟨locks,Function.update db.files tabName (some f),log⟩ :=
  ⟨f,Function.update_self ..,fine,same⟩

theorem isLive_found (live : IsLive tabName db rid = true) (opened : db.files tabName = some f) (ok : f.Ok) :
    ∃ page, rid.pageNo ≠ 0 ∧ f.pages rid.pageNo = some page ∧ f.fetchPageHandle rid.pageNo = .ok page ∧
      rid.slotNo.toNat < f.fileHdr.numRecordsPerPage ∧ Bitmap.isSet page rid.slotNo.toNat = true := by
  rw [IsLive,opened] at live
  obtain ⟨data,found⟩ := Option.isSome_iff_exists.mp live
  obtain ⟨page,nonzero,here,fetched,_,bound,bit,_⟩ := RmFile.contents_live ok found
  exact ⟨page,nonzero,here,fetched,bound,bit⟩

section Operations

variable (fine : Fine tabName size db)

include fine

theorem insert_fine (buf : Record size) (context : Option TxnId) :
    Fine tabName size (step tabName db (.insert buf context)) := by
  obtain ⟨f,opened,ok,same⟩ := fine
  obtain ⟨p,page,made,created,fine,_,first,nonzero,here,_,_,slots,width,room⟩ := RmFile.createPageHandle_ok ok
  rw [step,after,insertRecord_run opened,created]
  dsimp only
  split
  · exact fine_set fine (width.trans same)
  · rw [← slots] at room
    have bound := Bitmap.firstBit_free page _ room
    have clear := (Bitmap.firstBit_spec page false made.fileHdr.numRecordsPerPage).2.2 bound
    have stored := RmFile.storeRecord_ok fine nonzero here first bound clear (by rw [buf.2,width,same])
    exact fine_set stored.1 (by rw [RmFile.storeRecord_layout.1,width,same])

theorem update_fine (buf : Record size) (context : Option TxnId)
    (live : IsLive tabName db rid = true) : Fine tabName size (step tabName db (.update rid buf context)) := by
  obtain ⟨f,opened,ok,same⟩ := fine
  obtain ⟨page,nonzero,here,fetched,bound,_⟩ := isLive_found live opened ok
  rw [step,after,updateRecord_run opened,underLock,fetched]
  split
  · exact ⟨f,opened,ok,same⟩
  · exact fine_set (RmFile.overwriteRecord_ok ok nonzero here bound (buf.2.trans same.symm)).1 same

theorem delete_fine (context : Option TxnId) (live : IsLive tabName db rid = true) :
    Fine tabName size (step tabName db (.delete rid context : TableOp size)) := by
  obtain ⟨f,opened,ok,same⟩ := fine
  obtain ⟨page,nonzero,here,fetched,bound,bit⟩ := isLive_found live opened ok
  rw [step,after,deleteRecord_run opened,underLock,fetched]
  split
  · exact ⟨f,opened,ok,same⟩
  · exact fine_set (RmFile.eraseRecord_ok ok nonzero here bound bit).1 (by rw [RmFile.eraseRecord_layout.1,same])

theorem step_fine (op : TableOp size) (live : OnLive tabName db op) :
    Fine tabName size (step tabName db op) := by
  cases op with
  | insert buf context => exact insert_fine fine buf context
  | update rid buf context => exact update_fine fine buf context live
  | delete rid context => exact delete_fine fine context live
  | reopen fd =>
    obtain ⟨f,opened,ok,same⟩ := fine
    rw [step,after,reopenFile_run opened]
    exact fine_set (RmFile.reopen_ok ok fd).1 same
  | others locks => exact fine

end Operations

theorem Reachable.fine (reachable : Reachable tabName size db) : Fine tabName size db := by
  induction reachable with
  | @created recordSize hdr db fd header accepted opened =>
    exact ⟨_,opened,(RmFile.created_ok accepted fd header).1,rfl⟩
  | next op _ live ih => exact step_fine ih op live

/-- From the file header on, the links between pages lead through exactly the data pages whose
bitmap is not full. -/
structure FreePages (f : RmFile) : Prop where
  chain : ∃ l, RmFile.FreeChain f.pages f.fileHdr.firstFreePageNo l ∧ l.Nodup ∧
    ∀ p, p ∈ l ↔ (1 ≤ p ∧ p < f.fileHdr.numPages) ∧ f.HasRoom p
  records : ∀ p : Int, 1 ≤ p → p < f.fileHdr.numPages → ∃ page, f.pages p = some page ∧
    page.numRecords = Bitmap.count page f.fileHdr.numRecordsPerPage
  allocates : f.fd2pageno = f.fileHdr.numPages

theorem free_pages_exact (reachable : Reachable tabName size db) : ∃ f, db.files tabName = some f ∧ FreePages f := by
  obtain ⟨f,opened,ok,_⟩ := reachable.fine
  obtain ⟨l,chain,distinct,members⟩ := ok.chain
  refine ⟨f,opened,⟨l,chain,distinct,fun p => ?_⟩,fun p low high => ?_,ok.numbered⟩
  · rw [members]
    constructor
    · rintro ⟨nonzero,room⟩
      obtain ⟨page,here,_⟩ := id room
      exact ⟨ok.numbered_page here nonzero,room⟩
    · rintro ⟨⟨low,_⟩,room⟩
      exact ⟨by omega,room⟩
  · obtain ⟨page,here⟩ := Option.isSome_iff_exists.mp ((ok.present p (by omega)).mpr ⟨low,high⟩)
    exact ⟨page,here,ok.counted p page (by omega) here⟩

theorem scan_visits_live (reachable : Reachable tabName size db) : ∃ f first rids, db.files tabName = some f ∧
    f.scanBegin = .ok first ∧ f.Scans first rids ∧ rids.Pairwise RmFile.Before ∧
    ∀ rid, rid ∈ rids ↔ (f.contents rid).isSome = true := by
  obtain ⟨f,opened,ok,_⟩ := reachable.fine
  obtain ⟨first,begins,scans⟩ := ok.scan_live
  exact ⟨f,first,f.liveRids,opened,begins,scans,f.liveRids_sorted,fun _ => ok.mem_liveRids⟩

/-- A slot of a data page whose bit is not set. -/
structure Dead (f : RmFile) (rid : Rid) : Prop where
  page : 1 ≤ rid.pageNo ∧ rid.pageNo < f.fileHdr.numPages
  slot : 0 ≤ rid.slotNo ∧ rid.slotNo < f.fileHdr.numRecordsPerPage
  clear : f.contents rid = none

/-- The call throws and changes no table. -/
def Rejects {α : Type} (db : Db) (call : DbCall α) : Prop :=
  ∃ e, (call db).1 = .error e ∧ (call.after db).files = db.files

def LockRefused (rule : LockRule) (context : Option TxnId) (f : RmFile) (rid : Rid) (locks : LockState) : Prop :=
  ∃ txn, context = some txn ∧ Refuses rule txn (.ofRecord f.fd rid) locks

section Rejects

variable {request : TxnId → Rid → Int → Call} {rule : LockRule} {context : Option TxnId}
  (locksRow : ∀ txn rid fd, request txn rid fd = acquire rule txn (.ofRecord fd rid))

include locksRow

theorem rowLock_throws_iff (locks : LockState) :
    (∃ e, (rowLock request context rid f.fd locks).1 = .error e) ↔ LockRefused rule context f rid locks := by
  cases context with
  | none => simp [rowLock,LockRefused]
  | some txn =>
    simp only [LockRefused,Option.some.injEq,exists_eq_left',← acquire_throws_iff,rowLock,locksRow]
    cases (acquire rule txn (.ofRecord f.fd rid) locks).1 <;> simp [Except.map]

theorem rejects_iff {α : Type} {call : DbCall α}
    (refused : ∀ e locks, rowLock request context rid f.fd db.locks = (.error e,locks) →
      ∃ e', call db = (.error e',{ db with locks := locks }))
    (granted : ∀ locks, rowLock request context rid f.fd db.locks = (.ok (),locks) → ∃ a next, call db = (.ok a,next)) :
    Rejects db call ↔ LockRefused rule context f rid db.locks := by
  rw [← rowLock_throws_iff locksRow]
  rcases locked : rowLock request context rid f.fd db.locks with ⟨e | _,locks⟩
  · obtain ⟨e',run⟩ := refused e locks locked
    refine ⟨fun _ => ⟨e,rfl⟩,fun _ => ⟨e',?_⟩⟩
    rw [after,run]
    exact ⟨rfl,rfl⟩
  · obtain ⟨a,next,run⟩ := granted locks locked
    refine iff_of_false ?_ (by simp)
    rintro ⟨e,failed,_⟩
    rw [run] at failed
    cases failed

end Rejects

theorem sharedOnRecord_row (txn : TxnId) (rid : Rid) (fd : Int) :
    lockSharedOnRecord txn rid fd = acquire sharedOnRecord txn (.ofRecord fd rid) := rfl

theorem exclusiveOnRecord_row (txn : TxnId) (rid : Rid) (fd : Int) :
    lockExclusiveOnRecord txn rid fd = acquire exclusiveOnRecord txn (.ofRecord fd rid) := rfl

/-- Nothing but a refused lock keeps an operation off a row that is not there. -/
theorem dead_rejected_iff (reachable : Reachable tabName size db) (opened : db.files tabName = some f) (dead : Dead f rid)
    (context : Option TxnId) (buf : Record size) :
    (Rejects db (getRecord tabName rid context) ↔ LockRefused sharedOnRecord context f rid db.locks) ∧
    (Rejects db (updateRecord tabName rid buf.1 context) ↔ LockRefused exclusiveOnRecord context f rid db.locks) ∧
    (Rejects db (deleteRecord tabName rid context) ↔ LockRefused exclusiveOnRecord context f rid db.locks) := by
  obtain ⟨_,same,ok,_⟩ := reachable.fine
  obtain rfl := Option.mem_unique opened same
  have nonzero : rid.pageNo ≠ 0 := by have := dead.page; omega
  obtain ⟨page,here⟩ := Option.isSome_iff_exists.mp ((ok.present _ nonzero).mpr dead.page)
  have fetched : f.fetchPageHandle rid.pageNo = .ok page := by
    have valid : rid.pageNo ≠ invalidPageId := by have := dead.page; simp only [invalidPageId]; omega
    simp [RmFile.fetchPageHandle,valid,here]
  refine ⟨?_,?_,?_⟩
  · refine rejects_iff sharedOnRecord_row (fun e locks locked => ?_) fun locks locked => ?_
    · exact ⟨_,by rw [getRecord_run opened,underLock,locked]⟩
    · exact ⟨_,_,by rw [getRecord_run opened,underLock,locked,fetched]⟩
  · refine rejects_iff exclusiveOnRecord_row (fun e locks locked => ?_) fun locks locked => ?_
    · exact ⟨_,by rw [updateRecord_run opened,underLock,locked]⟩
    · exact ⟨_,_,by rw [updateRecord_run opened,underLock,locked,fetched]⟩
  · refine rejects_iff exclusiveOnRecord_row (fun e locks locked => ?_) fun locks locked => ?_
    · exact ⟨_,by rw [deleteRecord_run opened,underLock,locked]⟩
    · exact ⟨_,_,by rw [deleteRecord_run opened,underLock,locked,fetched]⟩

/-- A new table of 453-byte records, of which eight fit a page. -/
def newTable : Db := ⟨LockManager.start (fun _ => {}),fun _ => some (openNew (initialHdr 453) 5 none),[]⟩

def oneRow : Db := step "t" newTable (.insert ⟨List.replicate 453 0,List.length_replicate⟩ none : TableOp 453)

def noRow : Db := step "t" oneRow (.delete ⟨1,0⟩ none : TableOp 453)

theorem newTable_reachable : Reachable "t" 453 newTable := by
  have accepted : createFile 453 = .ok (initialHdr 453) := rfl
  exact .created accepted rfl

theorem oneRow_reachable : Reachable "t" 453 oneRow := .next _ newTable_reachable trivial

theorem noRow_reachable : Reachable "t" 453 noRow :=
  .next _ oneRow_reachable (by decide : IsLive "t" oneRow ⟨1,0⟩ = true)

/-- So many rows, each with its number in the first byte. -/
def inserted : Nat → Db
  | 0 => newTable
  | n + 1 => step "t" (inserted n) (.insert ⟨UInt8.ofNat n :: List.replicate 452 0,congrArg (· + 1) List.length_replicate⟩ none : TableOp 453)

theorem inserted_reachable (n : Nat) : Reachable "t" 453 (inserted n) := by
  induction n with
  | zero => exact newTable_reachable
  | succ n ih => exact .next _ ih trivial

/-- Page 1 is full; page 2 has lost the first of its two rows. -/
def spread : Db := step "t" (inserted 10) (.delete ⟨2,0⟩ none : TableOp 453)

theorem spread_reachable : Reachable "t" 453 spread :=
  .next _ (inserted_reachable 10) (by decide +kernel : IsLive "t" (inserted 10) ⟨2,0⟩ = true)

theorem spread_free_pages : (∃ f, spread.files "t" = some f ∧ FreePages f) ∧
    ((spread.files "t").map fun f => (f.fileHdr.firstFreePageNo,(f.pages 1).map RmPage.numRecords)) = some (2,some 8) :=
  ⟨free_pages_exact spread_reachable,by decide +kernel⟩

theorem spread_scanned : (∃ f first rids, spread.files "t" = some f ∧ f.scanBegin = .ok first ∧ f.Scans first rids ∧
    rids.Pairwise RmFile.Before ∧ ∀ rid, rid ∈ rids ↔ (f.contents rid).isSome = true) ∧
    ((spread.files "t").map fun f => ((f.contents ⟨1,7⟩).isSome,(f.contents ⟨2,0⟩).isSome,(f.contents ⟨2,1⟩).isSome)) =
      some (true,false,true) :=
  ⟨scan_visits_live spread_reachable,by decide +kernel⟩

theorem noRow_dead : ∃ f, noRow.files "t" = some f ∧ Dead f ⟨1,0⟩ := ⟨_,rfl,by decide,by decide,by decide⟩

theorem noRow_rejected_iff : ∃ f, noRow.files "t" = some f ∧
    (Rejects noRow (deleteRecord "t" ⟨1,0⟩ (some 1)) ↔ LockRefused exclusiveOnRecord (some 1) f ⟨1,0⟩ noRow.locks) := by
  obtain ⟨f,opened,dead⟩ := noRow_dead
  exact ⟨f,opened,(dead_rejected_iff noRow_reachable opened dead (some 1) ⟨List.replicate 453 0,List.length_replicate⟩).2.2⟩

/-- Deleting the row again returns, and its page counts -1 rows. -/
theorem second_delete_accepted : (∃ f, noRow.files "t" = some f ∧ Dead f ⟨1,0⟩) ∧
    ¬ Rejects noRow (deleteRecord "t" ⟨1,0⟩ none) ∧
    ((((deleteRecord "t" ⟨1,0⟩ none).after noRow).files "t").bind fun f => (f.pages 1).map RmPage.numRecords) = some (-1) := by
  have run : (deleteRecord "t" ⟨1,0⟩ none noRow).1 = .ok () := by decide
  refine ⟨noRow_dead,fun ⟨e,failed,_⟩ => ?_,by decide⟩
  rw [run] at failed
  cases failed

end Rucbase.TableRuns
