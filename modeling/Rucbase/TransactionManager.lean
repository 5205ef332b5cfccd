import Rucbase.RmFileHandle

/-! Commit and abort. Both release every lock of the transaction and only then end it;
abort first undoes the logged writes, newest first, with the transaction's own context. -/
namespace Rucbase

open Lib Lib.Prog
open LockManager hiding step start

namespace Db

def setTxn (txn : TxnId) (change : Transaction → Transaction) : DbCall Unit :=
  update fun s => { s with locks := { s.locks with
    txns := Function.update s.locks.txns txn (change (s.locks.txns txn)) } }

/-- The loop over `lock_set_`; the result of `unlock` is not looked at. -/
def unlockAll (txn : TxnId) : List LockDataId → DbCall Unit
  | [] => pure ()
  | id :: rest => do
    let _ ← onLocks (unlock txn id)
    unlockAll txn rest

/-- The common end of `commit` and `abort`. -/
def release (txn : TxnId) (final : TransactionState) : DbCall Unit := do
  let s ← state
  unlockAll txn (s.locks.txns txn).lockSet
  setTxn txn fun t => { t with lockSet := [] }
  setTxn txn fun t => { t with state := final }
  note (.ended txn)

def commit (txn : TxnId) : DbCall Unit := do
  setTxn txn fun t => { t with writeSet := [] }
  release txn .committed

/-- One case of the switch in `abort`. A deleted row is inserted wherever there is room. -/
def undo (txn : TxnId) (w : WriteRecord) : DbCall Unit :=
  match w.wtype with
  | .insertTuple => deleteRecord w.tabName w.rid (some txn)
  | .deleteTuple => do
    let _ ← insertRecord w.tabName w.record (some txn)
    pure ()
  | .updateTuple => updateRecord w.tabName w.rid w.record (some txn)

def undoAll (txn : TxnId) : List WriteRecord → DbCall Unit
  | [] => pure ()
  | w :: rest => do
    undo txn w
    undoAll txn rest

/-- An exception thrown by an undo leaves the write set and the locks as they are. -/
def abort (txn : TxnId) : DbCall Unit := do
  let s ← state
  undoAll txn (s.locks.txns txn).writeSet.reverse
  setTxn txn fun t => { t with writeSet := [] }
  release txn .aborted

/-- `Transaction::append_write_record`. -/
def appendWriteRecord (txn : TxnId) (w : WriteRecord) : DbCall Unit :=
  setTxn txn fun t => { t with writeSet := t.writeSet ++ [w] }

/-- What a transaction does between its beginning and its end. -/
inductive TxnStep where
  | get (tabName : String) (rid : Rid)
  | insert (tabName : String) (buf : List Byte)
  | update (tabName : String) (rid : Rid) (buf : List Byte)
  | delete (tabName : String) (rid : Rid)
  | append (w : WriteRecord)
  | commit
  | abort
  deriving DecidableEq

/-- One step of `txn` with its own context; a call that throws is a step as well. -/
def step (s : Db) : TxnId × TxnStep → Db
  | (txn,.get tabName rid) => (getRecord tabName rid (some txn)).after s
  | (txn,.insert tabName buf) => (insertRecord tabName buf (some txn)).after s
  | (txn,.update tabName rid buf) => (updateRecord tabName rid buf (some txn)).after s
  | (txn,.delete tabName rid) => (deleteRecord tabName rid (some txn)).after s
  | (txn,.append w) => (appendWriteRecord txn w).after s
  | (txn,.commit) => (commit txn).after s
  | (txn,.abort) => (abort txn).after s

/-- Tables with no lock taken and nothing logged. -/
def start (txns : TxnId → Transaction) (files : String → Option RmFile) : Db :=
  ⟨LockManager.start txns,files,[]⟩

/-- The transaction has neither committed nor aborted. -/
def Active (s : Db) (step : TxnId × TxnStep) : Prop := (s.locks.txns step.1).state.ended = false

instance (s : Db) (step : TxnId × TxnStep) : Decidable (Active s step) :=
  inferInstanceAs (Decidable (_ = _))

end Db

end Rucbase
