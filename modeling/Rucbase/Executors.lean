import Rucbase.Planner
import Rucbase.SmManager

/-! The executors of INSERT, UPDATE, DELETE and of sequential scans. Each has a context, so a
row that is read or written is locked first. A record buffer that was only allocated holds
whatever was in memory. -/
namespace Rucbase

open Lib Lib.Prog
open LockManager hiding step start

/-- `coltype2str`. -/
def ColType.text : ColType → String
  | .int => "INT"
  | .float => "FLOAT"
  | .string => "STRING"

def Value.type : Value → ColType
  | .int _ => .int
  | .float _ => .float
  | .str _ => .string

/-- The bytes `init_raw` makes of a literal for a column of length `len`. -/
def Value.initRaw (len : Int) : Value → Except RMDBError (List Byte)
  | .int n => if len = 4 then .ok (intBytes n) else .error .assertion
  | .float bits => if len = 4 then .ok (intBytes bits) else .error .assertion
  | .str bytes =>
    if len < bytes.length then .error .stringOverflow
    else .ok (bytes ++ List.replicate (len.toNat - bytes.length) 0)

/-- `memcpy(data + offset, bytes, len)`. -/
def memcpy (data : List Byte) (offset len : Int) (bytes : List Byte) : List Byte :=
  data.take offset.toNat ++ bytes.take len.toNat ++ data.drop (offset.toNat + len.toNat)

/-- The assigned column and the raw bytes of the value, as the analysis made them. -/
structure SetClause where
  lhs : TabCol
  rhs : List Byte
  deriving DecidableEq, Repr

/-- A buffer of `size` bytes from `new char[size]`, the memory being `junk`. -/
def allocated (junk : Nat → Byte) (size : Nat) : List Byte := (List.range size).map junk

/-- The loop that copies the values into the record of an INSERT. -/
def makeRecord : List ColMeta → List Value → List Byte → Except RMDBError (List Byte)
  | col :: cols, val :: values, data =>
    if col.type ≠ val.type then .error (.incompatibleType col.type.text val.type.text)
    else do
      let raw ← val.initRaw col.len
      makeRecord cols values (memcpy data col.offset col.len raw)
  | _, _, data => .ok data

/-- The loop over the set clauses of an UPDATE. -/
def setColumns (tab : TabMeta) : List SetClause → List Byte → Except RMDBError (List Byte)
  | [], data => .ok data
  | clause :: rest, data => do
    let col ← tab.getCol clause.lhs.colName
    setColumns tab rest (memcpy data col.offset col.len clause.rhs)

/-- `AbstractExecutor::get_col`. -/
def findCol (cols : List ColMeta) (target : TabCol) : Except RMDBError ColMeta :=
  match cols.find? fun col => col.tabName == target.tabName && col.name == target.colName with
  | some col => .ok col
  | none => .error (.columnNotFound (target.tabName ++ "." ++ target.colName))

def CompOp.holds (op : CompOp) (cmp : Int) : Bool :=
  match op with
  | .eq => cmp = 0
  | .ne => cmp ≠ 0
  | .lt => cmp < 0
  | .gt => cmp > 0
  | .le => cmp ≤ 0
  | .ge => cmp ≥ 0

/-- `SeqScanExecutor::eval_cond`. The raw bytes of a literal have the length of the left column. -/
def evalCond (cols : List ColMeta) (data : List Byte) (cond : Condition) : Except RMDBError Bool := do
  let lhs ← findCol cols cond.lhsCol
  let (type,rhs) ←
    if cond.isRhsVal then do
      let raw ← cond.rhsVal.initRaw lhs.len
      pure (cond.rhsVal.type,raw)
    else do
      let col ← findCol cols cond.rhsCol
      pure (col.type,data.drop col.offset.toNat)
  if type = lhs.type then
    .ok (cond.op.holds (ixCompareCol type lhs.len.toNat (data.drop lhs.offset.toNat) rhs))
  else .error .assertion

/-- `std::all_of` stops at the first condition that does not hold. -/
def evalConds (cols : List ColMeta) (data : List Byte) : List Condition → Except RMDBError Bool
  | [] => .ok true
  | cond :: rest => do
    let holds ← evalCond cols data cond
    if holds then evalConds cols data rest else .ok false

namespace SmManager

/-- A call of the handle `ihs_.at(name)`. -/
def onIndex {α : Type} (name : Path) (call : IxHandle → Prog (IndexFile (List Byte)) RMDBError α) :
    SmCall α := fun s =>
  match s.ihs name with
  | none => (.error (.thrown .outOfRange),s)
  | some ih =>
    ((call ih ih.file).1.mapError fun e => (DbError.rmdb e).raised,
      { s with ihs := Function.update s.ihs name (some { ih with file := (call ih ih.file).2 }) })

def indexName (tabName : String) (index : IndexMeta) : Path := getIndexName tabName (index.cols.map ColMeta.name)

/-- The loop that enters a record into the indexes; what `insert_entry` returns is not looked at. -/
def insertEntries (tabName : String) (data : List Byte) (rid : Rid) : List IndexMeta → SmCall Unit
  | [] => pure ()
  | index :: rest => do
    let _ ← onIndex (indexName tabName index) fun ih =>
      IxIndexHandle.insertEntry IndexFile.store ih.cmp (keyOf index.cols data) rid
    insertEntries tabName data rid rest

/-- The loop that removes the key of a record from the indexes. -/
def deleteEntries (tabName : String) (data : List Byte) : List IndexMeta → SmCall Unit
  | [] => pure ()
  | index :: rest => do
    let _ ← onIndex (indexName tabName index) fun ih =>
      IxIndexHandle.deleteEntry IndexFile.store ih.cmp (keyOf index.cols data)
    deleteEntries tabName data rest

/-- The constructor of `InsertExecutor`, then `Next`. -/
def insertExecutor (junk : Nat → Byte) (tabName : String) (values : List Value) (txn : TxnId) : SmCall Unit := do
  let s ← state
  let tab ← lift (s.db.getTable tabName)
  if values.length ≠ tab.cols.length then lift (.error .invalidValueCount)
  else do
    let f ← onRows (Db.fileOf tabName)
    let data ← lift (makeRecord tab.cols values (allocated junk f.fileHdr.recordSize))
    let rid ← onRows (Db.insertRecord tabName data (some txn))
    insertEntries tabName data rid tab.indexes

/-- One round of `UpdateExecutor::Next`. The record is changed before its entries are removed,
so it is the new key that is removed. -/
def updateRow (tab : TabMeta) (tabName : String) (clauses : List SetClause) (txn : TxnId) (rid : Rid) :
    SmCall Unit := do
  let old ← onRows (Db.getRecord tabName rid (some txn))
  let data ← lift (setColumns tab clauses old)
  deleteEntries tabName data tab.indexes
  onRows (Db.updateRecord tabName rid data (some txn))
  insertEntries tabName data rid tab.indexes

def updateRows (tab : TabMeta) (tabName : String) (clauses : List SetClause) (txn : TxnId) :
    List Rid → SmCall Unit
  | [] => pure ()
  | rid :: rest => do
    updateRow tab tabName clauses txn rid
    updateRows tab tabName clauses txn rest

/-- The constructor of `UpdateExecutor`, then `Next`. -/
def updateExecutor (tabName : String) (clauses : List SetClause) (rids : List Rid) (txn : TxnId) : SmCall Unit := do
  let s ← state
  let tab ← lift (s.db.getTable tabName)
  let _ ← onRows (Db.fileOf tabName)
  updateRows tab tabName clauses txn rids

def deleteRecords (tabName : String) (txn : TxnId) : List Rid → SmCall Unit
  | [] => pure ()
  | rid :: rest => do
    onRows (Db.deleteRecord tabName rid (some txn))
    deleteRecords tabName txn rest

/-- The constructor of `DeleteExecutor`, then `Next`. The keys come from a buffer that nothing
was copied into. -/
def deleteExecutor (junk : Nat → Byte) (tabName : String) (rids : List Rid) (txn : TxnId) : SmCall Unit := do
  let s ← state
  let tab ← lift (s.db.getTable tabName)
  let f ← onRows (Db.fileOf tabName)
  deleteRecords tabName txn rids
  deleteEntries tabName (allocated junk f.fileHdr.recordSize) tab.indexes

/-- The rounds of `beginTuple` and `nextTuple`, with the scan at `rid`. The caller's `visit` is
made at each row that meets the conditions, before the scan moves on. -/
def scanLoop {α : Type} (tab : TabMeta) (tabName : String) (conds : List Condition) (txn : TxnId)
    (visit : Rid → SmCall α) : Nat → Rid → SmCall (List α)
  | 0, _ => pure []
  | rounds + 1, rid =>
    if rid.pageNo = rmNoPage then pure []
    else do
      let data ← onRows (Db.getRecord tabName rid (some txn))
      let holds ← lift (evalConds tab.cols data conds)
      let here ← if holds then (fun a => [a]) <$> visit rid else pure []
      let f ← onRows (Db.fileOf tabName)
      let next ← lift (f.scanNext rid)
      let rest ← scanLoop tab tabName conds txn visit rounds next
      pure (here ++ rest)

/-- A `SeqScanExecutor` that is run to its end. -/
def seqScan {α : Type} (tabName : String) (conds : List Condition) (txn : TxnId) (visit : Rid → SmCall α) :
    SmCall (List α) := do
  let s ← state
  let tab ← lift (s.db.getTable tabName)
  let f ← onRows (Db.fileOf tabName)
  let first ← lift f.scanBegin
  scanLoop tab tabName conds txn visit (scanRounds f) first

/-- SELECT from one table: `Next` reads each row again. -/
def select (tabName : String) (conds : List Condition) (txn : TxnId) : SmCall (List (List Byte)) :=
  seqScan tabName conds txn fun rid => onRows (Db.getRecord tabName rid (some txn))

/-- The rows an UPDATE or DELETE is given. -/
def matching (tabName : String) (conds : List Condition) (txn : TxnId) : SmCall (List Rid) :=
  seqScan tabName conds txn pure

def updateStmt (tabName : String) (clauses : List SetClause) (conds : List Condition) (txn : TxnId) :
    SmCall Unit := do
  let rids ← matching tabName conds txn
  updateExecutor tabName clauses rids txn

def deleteStmt (junk : Nat → Byte) (tabName : String) (conds : List Condition) (txn : TxnId) : SmCall Unit := do
  let rids ← matching tabName conds txn
  deleteExecutor junk tabName rids txn

end SmManager

end Rucbase
