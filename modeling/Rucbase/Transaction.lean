import Rucbase.Defs

/-! Transactions and the identities of the objects they lock. -/
namespace Rucbase

abbrev TxnId := Int

inductive TransactionState where
  | default
  | growing
  | shrinking
  | committed
  | aborted
  deriving DecidableEq, Repr

inductive WType where
  | insertTuple
  | deleteTuple
  | updateTuple
  deriving DecidableEq, Repr

/-- One logged write. An insert carries no old record: its `record` is never read. -/
structure WriteRecord where
  wtype : WType
  tabName : String
  rid : Rid
  record : List Byte
  deriving DecidableEq, Repr

inductive LockDataType where
  | table
  | record
  deriving DecidableEq, Repr

/-- A lockable object. A table lock has the record position `(-1,-1)`. -/
structure LockDataId where
  fd : Int
  rid : Rid
  type : LockDataType
  deriving DecidableEq, Repr

def LockDataId.ofTable (fd : Int) : LockDataId := ⟨fd,⟨-1,-1⟩,.table⟩
def LockDataId.ofRecord (fd : Int) (rid : Rid) : LockDataId := ⟨fd,rid,.record⟩

inductive AbortReason where
  | lockOnShrinking
  | upgradeConflict
  | deadlockPrevention
  deriving DecidableEq, Repr

structure TransactionAbortException where
  txnId : TxnId
  reason : AbortReason
  deriving DecidableEq, Repr

/-- `lockSet` is a set: it is only extended by objects it does not hold. -/
structure Transaction where
  state : TransactionState := .default
  writeSet : List WriteRecord := []
  lockSet : List LockDataId := []
  deriving DecidableEq, Repr

/-- Committed or aborted: the lock manager ignores the transaction. -/
def TransactionState.ended : TransactionState → Bool
  | .committed | .aborted => true
  | _ => false

end Rucbase
