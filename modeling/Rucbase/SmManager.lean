import Rucbase.IndexReopen
import Rucbase.IndexRuns
import Rucbase.RmScan
import Rucbase.SmMeta
import Rucbase.TransactionManager

/-! The system manager: the statements that create and drop tables and indexes. Each changes
the catalog, the open handles, the files and the lock table one after the other, and an
exception keeps whatever was changed before it. Table and index pages are as a transparent
pool shows them; the pool here is what the managers of files use. -/
namespace Rucbase

open Lib Lib.Prog
open LockManager hiding step start

/-- An `IxIndexHandle` with the pages of its file. -/
structure IxHandle where
  fd : Int
  file : IndexFile (List Byte)

/-- The columns a handle compares by. -/
def IxFileHdr.cols (hdr : IxFileHdr) : IxCols := hdr.colTypes.zip (hdr.colLens.map Int.toNat)

def IxHandle.cmp (ih : IxHandle) : List Byte → List Byte → Int := ixCompare ih.file.hdr.cols

/-- `fhs_` and the lock manager are in `rows`; `metaFile` is the text of `db.meta`. -/
structure SmManager where
  rows : Db
  db : DbMeta
  metaFile : List Char
  pool : BufferPool
  ihs : String → Option IxHandle

/-- A thrown exception, the end of the process (a failed assertion or a null pointer), or a read
outside of a vector, after which nothing is known. -/
inductive SmError where
  | thrown (e : DbError)
  | crash
  | outside
  deriving DecidableEq

def DbError.raised : DbError → SmError
  | .rmdb .assertion => .crash
  | e => .thrown e

abbrev SmCall := Prog SmManager SmError

structure ColDef where
  name : String
  type : ColType
  len : Int
  deriving DecidableEq, Repr

/-- `IxManager::get_index_name`. -/
def getIndexName (tabName : String) (colNames : List String) : Path :=
  tabName ++ String.join (colNames.map fun name => "_" ++ name) ++ ".idx"

/-- The bytes of an index key, copied column by column from a record. -/
def keyOf (cols : List ColMeta) (data : List Byte) : List Byte :=
  cols.flatMap fun col => (data.drop col.offset.toNat).take col.len.toNat

namespace SmManager

def onRows {α : Type} (call : DbCall α) : SmCall α := fun s =>
  ((call s.rows).1.mapError DbError.raised,{ s with rows := (call s.rows).2 })

def onPool {α : Type} (call : BufferPool.PoolCall α) : SmCall α := fun s =>
  ((call s.pool).1.mapError fun e => (DbError.rmdb e).raised,{ s with pool := (call s.pool).2 })

def lift {α : Type} : Except RMDBError α → SmCall α
  | .ok a => pure a
  | .error e => raise (DbError.rmdb e).raised

/-- A table lock through `fhs_[tab_name]->GetFd()`; without a handle that is a null pointer. -/
def lockTable (request : TxnId → Int → Call) (txn : TxnId) (tabName : String) : SmCall Unit := do
  let s ← state
  match s.rows.files tabName with
  | none => raise .crash
  | some f => do
    let _ ← onRows (Db.onLocks (request txn f.fd))
    pure ()

theorem lockTable_locks (request : TxnId → Int → Call) (txn : TxnId) (tabName : String) (s : SmManager) {f : RmFile}
    (here : s.rows.files tabName = some f) :
    lockTable request txn tabName s =
      (((request txn f.fd s.rows.locks).1.map fun _ => ()).mapError fun e => .thrown (.abort e),
        { s with rows := { s.rows with locks := (request txn f.fd s.rows.locks).2 } }) := by
  simp only [lockTable,bind_run,state_run,here,onRows,Db.onLocks]
  cases request txn f.fd s.rows.locks with
  | mk result locks => cases result <;> rfl

theorem lockTable_none (request : TxnId → Int → Call) (txn : TxnId) (tabName : String) (s : SmManager)
    (absent : s.rows.files tabName = none) : lockTable request txn tabName s = (.error .crash,s) := by
  simp [lockTable,bind_run,absent]

def flushMeta : SmCall Unit := update fun s => { s with metaFile := s.db.write }

def setTable (tabName : String) (tab : TabMeta) : SmCall Unit :=
  update fun s => { s with db := { s.db with tabs := s.db.tabs.assign tabName tab } }

/-- The columns of a new table one behind the other, from `offset` on. -/
def layout (tabName : String) : Int → List ColDef → List ColMeta
  | _, [] => []
  | offset, col :: rest =>
    ⟨tabName,col.name,col.type,col.len,offset,false⟩ :: layout tabName (addInt offset col.len) rest

/-- `curr_offset` behind the last column. -/
def recordSize (colDefs : List ColDef) : Int := colDefs.foldl (fun offset col => addInt offset col.len) 0

/-- The file `open_file` opens for a table that was just created has no data pages. -/
def openedFile (handle : Handle) : RmFile :=
  match handle.hdr with
  | .table hdr => openNew hdr handle.fd none
  | .index _ => openNew (initialHdr 1) handle.fd none

def createTable (tabName : String) (colDefs : List ColDef) (context : Option TxnId) : SmCall Unit := do
  let s ← state
  if s.db.isTable tabName then lift (.error (.tableExists tabName))
  else do
    onPool (RmManager.createFile tabName (recordSize colDefs))
    setTable tabName ⟨tabName,layout tabName 0 colDefs,[]⟩
    let handle ← onPool (RmManager.openFile tabName)
    update fun s => { s with rows := { s.rows with files := emplace s.rows.files tabName (openedFile handle) } }
    match context with
    | some txn => lockTable lockExclusiveOnTable txn tabName
    | none => pure ()
    flushMeta

/-- The file as `open_index` finds it after `create_index`. `page0` is what the bytes of the
header page are as a node. -/
def openedIndex (page0 : IxNode (List Byte)) (handle : Handle) (counter : Nat) : IxHandle :=
  match handle.hdr with
  | .index hdr => ⟨handle.fd,{ IndexTree.created page0 hdr with nextPage := counter }⟩
  | .table _ => ⟨handle.fd,{ IndexTree.created page0 (IxFileHdr.initial []) with nextPage := counter }⟩

/-- `insert_entry` on a handle; whether it inserted anything is not looked at. -/
def insertEntry (ih : IxHandle) (key : List Byte) (rid : Rid) : SmCall IxHandle :=
  match IxIndexHandle.insertEntry IndexFile.store ih.cmp key rid ih.file with
  | (.ok _,file) => pure { ih with file := file }
  | (.error e,_) => raise (DbError.rmdb e).raised

/-- The loop over all records in `create_index`, with the scan at `rid`. -/
def buildIndex (tabName : String) (cols : List ColMeta) (txn : TxnId) :
    Nat → Rid → IxHandle → SmCall IxHandle
  | 0, _, ih => pure ih
  | rounds + 1, rid, ih =>
    if rid.pageNo = rmNoPage then pure ih
    else do
      let record ← onRows (Db.getRecord tabName rid (some txn))
      let ih ← insertEntry ih (keyOf cols record) rid
      let f ← onRows (Db.fileOf tabName)
      let next ← lift (f.scanNext rid)
      buildIndex tabName cols txn rounds next ih

/-- A bound on the rows of a file. -/
def scanRounds (f : RmFile) : Nat := f.fileHdr.numPages * f.fileHdr.numRecordsPerPage + 1

/-- The new index is filled before it is entered anywhere. -/
def fillIndex (page0 : IxNode (List Byte)) (tabName : String) (cols : List ColMeta) (txn : TxnId) (handle : Handle) :
    SmCall IxHandle := do
  let s ← state
  let ih := openedIndex page0 handle (s.pool.disk.fd2pageno handle.fd)
  let f ← onRows (Db.fileOf tabName)
  let first ← lift f.scanBegin
  buildIndex tabName cols txn (scanRounds f) first ih

def createIndex (page0 : IxNode (List Byte)) (tabName : String) (colNames : List String) (context : Option TxnId) :
    SmCall Unit :=
  match context with
  | none => raise .crash
  | some txn => do
    lockTable lockSharedOnTable txn tabName
    let s ← state
    let tab ← lift (s.db.getTable tabName)
    let ixName := getIndexName tabName colNames
    if s.pool.disk.isFile ixName then lift (.error (.indexExists tabName colNames))
    else do
      let cols ← lift (colNames.mapM tab.getCol)
      onPool (IxManager.createIndex ixName cols)
      let handle ← onPool (IxManager.openIndex ixName)
      let ih ← fillIndex page0 tabName cols txn handle
      let index : IndexMeta := ⟨tabName,ColMeta.totLen cols,cols.length,cols⟩
      setTable tabName { tab with indexes := tab.indexes ++ [index] }
      update fun s => { s with ihs := emplace s.ihs ixName ih }
      flushMeta

/-- The catalog is looked up after the file is gone. -/
def dropIndex (tabName : String) (colNames : List String) (context : Option TxnId) : SmCall Unit :=
  match context with
  | none => raise .crash
  | some txn => do
    lockTable lockSharedOnTable txn tabName
    let s ← state
    let ixName := getIndexName tabName colNames
    if s.pool.disk.isFile ixName then
      match s.ihs ixName with
      | none => raise (.thrown .outOfRange)
      | some ih => do
        onPool (IxManager.closeIndex ih.fd ih.file.hdr)
        onPool (BufferPool.onDisk (DiskManager.destroyFile ixName))
        let s ← state
        let tab ← lift (s.db.getTable tabName)
        if tab.isIndex colNames then do
          setTable tabName { tab with indexes := tab.indexes.eraseP fun index => index.isOn colNames }
          update fun s => { s with ihs := Function.update s.ihs ixName none }
          flushMeta
        else lift (.error (.indexNotFound tab.name colNames))
    else lift (.error (.indexNotFound tabName colNames))

/-- The rest of the loop over `tab.indexes` in `drop_table`, from a position on. The end of the loop
was fixed before its first round; `drop_index` erases elements of the vector that is walked. -/
def dropIndexes (tabName : String) (context : Option TxnId) : Nat → Nat → SmCall Unit
  | _, 0 => pure ()
  | position, rounds + 1 => do
    let s ← state
    let tab ← lift (s.db.getTable tabName)
    match tab.indexes[position]? with
    | none => raise .outside
    | some index => do
      dropIndex tabName (index.cols.map ColMeta.name) context
      dropIndexes tabName context (position + 1) rounds

def dropTable (tabName : String) (context : Option TxnId) : SmCall Unit := do
  let s ← state
  if s.db.isTable tabName then do
    match context with
    | some txn => lockTable lockExclusiveOnTable txn tabName
    | none => pure ()
    let tab ← lift (s.db.getTable tabName)
    match s.rows.files tabName with
    | none => raise .crash
    | some f => do
      onPool (RmManager.closeFile f.fd f.fileHdr)
      onPool (BufferPool.onDisk (DiskManager.destroyFile tabName))
      dropIndexes tabName context 0 tab.indexes.length
      update fun s => { s with
        db := { s.db with tabs := s.db.tabs.erase tabName }
        rows := { s.rows with files := Function.update s.rows.files tabName none } }
      flushMeta
  else lift (.error (.tableNotFound tabName))

/-- A database with no table, opened by a new process. -/
def noTables : SmManager where
  rows := Db.start (fun _ => {}) (fun _ => none)
  db := .empty
  metaFile := DbMeta.empty.write
  pool := IndexReopen.freshProcess ⟨fun _ => File.empty,3,fun _ => none,[]⟩
  ihs := fun _ => none

end SmManager

end Rucbase
