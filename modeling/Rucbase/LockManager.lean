import Rucbase.Lib.Prog
import Rucbase.Transaction

/-! The no-wait lock manager. Every call runs under one latch, so a call is one step.
The six lock requests share their control flow and differ in the decision taken on the
transaction's own request, in the group modes that refuse a new request, and in the
group mode and counters a grant leaves behind; a `LockRule` is that difference. -/
namespace Rucbase.LockManager

open Lib Lib.Prog

/-- Declared in this order: `unlock` compares the numbers. -/
inductive LockMode where
  | shared
  | exclusive
  | intentionShared
  | intentionExclusive
  | sIX
  deriving DecidableEq, Repr

inductive GroupLockMode where
  | nonLock
  | is
  | ix
  | s
  | x
  | six
  deriving DecidableEq, Repr

def LockMode.code : LockMode → Nat
  | .shared => 0
  | .exclusive => 1
  | .intentionShared => 2
  | .intentionExclusive => 3
  | .sIX => 4

/-- `static_cast<GroupLockMode>`. -/
def GroupLockMode.ofCode : Nat → GroupLockMode
  | 0 => .nonLock
  | 1 => .is
  | 2 => .ix
  | 3 => .s
  | 4 => .x
  | _ => .six

structure LockRequest where
  txnId : TxnId
  lockMode : LockMode
  granted : Bool := false
  deriving DecidableEq, Repr

structure LockRequestQueue where
  requestQueue : List LockRequest := []
  groupLockMode : GroupLockMode := .nonLock
  sharedLockNum : Int := 0
  ixLockNum : Int := 0
  deriving DecidableEq, Repr

/-- The lock table and the transactions whose state and lock sets the calls change. -/
structure LockState where
  lockTable : LockDataId → Option LockRequestQueue
  txns : TxnId → Transaction

abbrev Call := Prog LockState TransactionAbortException Bool

/-- The queue of an object; an absent one is default constructed on first use. -/
def LockState.queue (s : LockState) (id : LockDataId) : LockRequestQueue :=
  (s.lockTable id).getD {}

def LockState.setQueue (s : LockState) (id : LockDataId) (q : LockRequestQueue) : LockState :=
  { s with lockTable := Function.update s.lockTable id (some q) }

def LockState.setTxnState (s : LockState) (txn : TxnId) (state : TransactionState) : LockState :=
  { s with txns := Function.update s.txns txn { s.txns txn with state := state } }

/-- `lock_set_->emplace`. -/
def LockState.addLock (s : LockState) (txn : TxnId) (id : LockDataId) : LockState :=
  let held := (s.txns txn).lockSet
  let lockSet := if id ∈ held then held else held ++ [id]
  { s with txns := Function.update s.txns txn { s.txns txn with lockSet := lockSet } }

/-- What a request does to the transaction's own earlier request on the object:
upgrades set its mode and the group mode and add to the two counters. -/
inductive OwnDecision where
  | keep
  | refuse
  | upgrade (mode : LockMode) (group : GroupLockMode) (shared ix : Int)
  deriving DecidableEq, Repr

structure LockRule where
  mode : LockMode
  own : LockRequestQueue → LockMode → OwnDecision
  conflicts : GroupLockMode → Bool
  group : GroupLockMode → GroupLockMode
  shared : Int := 0
  ix : Int := 0

/-- `lock_mode_` of the first request of `txn` becomes `mode`. -/
def setMode (txn : TxnId) (mode : LockMode) : List LockRequest → List LockRequest
  | [] => []
  | r :: rest => if r.txnId = txn then { r with lockMode := mode } :: rest
      else r :: setMode txn mode rest

def findRequest (txn : TxnId) (requests : List LockRequest) : Option LockRequest :=
  requests.find? (fun r => r.txnId = txn)

/-- Two-phase locking: no lock after the end, none while shrinking. -/
def checkLock (txn : TxnId) : Call := do
  let s ← state
  match (s.txns txn).state with
  | .committed | .aborted => return false
  | .shrinking => raise ⟨txn,.lockOnShrinking⟩
  | .default => do
      update (fun s => s.setTxnState txn .growing)
      return true
  | .growing => return true

def LockRequestQueue.upgraded (q : LockRequestQueue) (txn : TxnId) (mode : LockMode) (group : GroupLockMode)
    (shared ix : Int) : LockRequestQueue :=
  ⟨setMode txn mode q.requestQueue,group,q.sharedLockNum + shared,q.ixLockNum + ix⟩

def LockRequestQueue.granting (q : LockRequestQueue) (txn : TxnId) (rule : LockRule) :
    LockRequestQueue :=
  ⟨q.requestQueue ++ [⟨txn,rule.mode,true⟩],rule.group q.groupLockMode,
    q.sharedLockNum + rule.shared,q.ixLockNum + rule.ix⟩

/-- The common body of the six requests. -/
def acquire (rule : LockRule) (txn : TxnId) (id : LockDataId) : Call := do
  if !(← checkLock txn) then return false
  update (fun s => s.setQueue id (s.queue id))
  let q := (← state).queue id
  match findRequest txn q.requestQueue with
  | some r =>
      match rule.own q r.lockMode with
      | .keep => return true
      | .refuse => raise ⟨txn,.deadlockPrevention⟩
      | .upgrade mode group shared ix => do
          update (fun s => s.setQueue id (q.upgraded txn mode group shared ix))
          return true
  | none =>
      if rule.conflicts q.groupLockMode then raise ⟨txn,.deadlockPrevention⟩
      else do
        update (fun s => (s.setQueue id (q.granting txn rule)).addLock txn id)
        return true

/-- Requests a shared lock is refused under. -/
def writersOrIntents : GroupLockMode → Bool
  | .x | .ix | .six => true
  | _ => false

/-- Any earlier request of the transaction counts as a shared lock. -/
def sharedOnRecord : LockRule where
  mode := .shared
  own _ _ := .keep
  conflicts := writersOrIntents
  group _ := .s
  shared := 1

/-- A sole reader becomes the writer. -/
def exclusiveOnRecord : LockRule where
  mode := .exclusive
  own q mode :=
    if mode = .exclusive then .keep
    else if mode = .shared ∧ q.requestQueue.length = 1 then .upgrade .exclusive .x 0 0
    else .refuse
  conflicts g := g != .nonLock
  group _ := .x

def sharedOnTable : LockRule where
  mode := .shared
  own q mode :=
    if mode = .shared ∨ mode = .exclusive ∨ mode = .sIX then .keep
    else if mode = .intentionShared ∧ (q.groupLockMode = .s ∨ q.groupLockMode = .is) then
      .upgrade .shared .s 1 0
    else if mode = .intentionExclusive ∧ q.ixLockNum = 1 then .upgrade .sIX .six 1 0
    else .refuse
  conflicts := writersOrIntents
  group _ := .s
  shared := 1

/-- The upgrade leaves both counters as the old mode had set them. -/
def exclusiveOnTable : LockRule where
  mode := .exclusive
  own q mode :=
    if mode = .exclusive then .keep
    else if q.requestQueue.length = 1 then .upgrade .exclusive .x 0 0
    else .refuse
  conflicts g := g != .nonLock
  group _ := .x

/-- No mode is weaker than IS: an own request is always enough. -/
def isOnTable : LockRule where
  mode := .intentionShared
  own _ _ := .keep
  conflicts g := g == .x
  group g := if g = .nonLock then .is else g

def ixOnTable : LockRule where
  mode := .intentionExclusive
  own q mode :=
    if mode = .intentionExclusive ∨ mode = .sIX ∨ mode = .exclusive then .keep
    else if mode = .shared ∧ q.sharedLockNum = 1 then .upgrade .sIX .six 0 1
    else if mode = .intentionShared ∧ (q.groupLockMode = .is ∨ q.groupLockMode = .ix) then
      .upgrade .intentionExclusive .ix 0 1
    else .refuse
  conflicts
    | .s | .six | .x => true
    | _ => false
  group _ := .ix
  ix := 1

def lockSharedOnRecord (txn : TxnId) (rid : Rid) (tabFd : Int) : Call :=
  acquire sharedOnRecord txn (.ofRecord tabFd rid)

def lockExclusiveOnRecord (txn : TxnId) (rid : Rid) (tabFd : Int) : Call :=
  acquire exclusiveOnRecord txn (.ofRecord tabFd rid)

def lockSharedOnTable (txn : TxnId) (tabFd : Int) : Call :=
  acquire sharedOnTable txn (.ofTable tabFd)

def lockExclusiveOnTable (txn : TxnId) (tabFd : Int) : Call :=
  acquire exclusiveOnTable txn (.ofTable tabFd)

def lockISOnTable (txn : TxnId) (tabFd : Int) : Call :=
  acquire isOnTable txn (.ofTable tabFd)

def lockIXOnTable (txn : TxnId) (tabFd : Int) : Call :=
  acquire ixOnTable txn (.ofTable tabFd)

def countsShared : LockMode → Bool
  | .shared | .sIX => true
  | _ => false

def countsIX : LockMode → Bool
  | .intentionExclusive | .sIX => true
  | _ => false

/-- The mode `unlock` computes for the requests that stay: the largest number of a
`LockMode`, starting from IS, plus one, read as a `GroupLockMode`. -/
def recomputedMode (requests : List LockRequest) : GroupLockMode :=
  if requests.isEmpty then .nonLock
  else .ofCode (requests.foldl (fun m r => max m r.lockMode.code) LockMode.intentionShared.code + 1)

/-- The queue after the first request of `txn`, which has mode `mode`, was erased. -/
def LockRequestQueue.released (q : LockRequestQueue) (txn : TxnId) (mode : LockMode) :
    LockRequestQueue :=
  let rest := q.requestQueue.eraseP (fun r => r.txnId = txn)
  ⟨rest,recomputedMode rest,
    q.sharedLockNum - (if countsShared mode then 1 else 0),
    q.ixLockNum - (if countsIX mode then 1 else 0)⟩

/-- Erases the request of `txn` from the queue, if both exist. -/
def eraseRequest (txn : TxnId) (id : LockDataId) : Call := do
  match (← state).lockTable id with
  | none => return true
  | some q =>
      match findRequest txn q.requestQueue with
      | none => return true
      | some r => do
          update (fun s => s.setQueue id (q.released txn r.lockMode))
          return true

def unlock (txn : TxnId) (id : LockDataId) : Call := do
  if ((← state).txns txn).state.ended then return false
  if ((← state).txns txn).state = .growing then
    update (fun s => s.setTxnState txn .shrinking)
  eraseRequest txn id

inductive LockCall where
  | sharedOnRecord (txn : TxnId) (rid : Rid) (tabFd : Int)
  | exclusiveOnRecord (txn : TxnId) (rid : Rid) (tabFd : Int)
  | sharedOnTable (txn : TxnId) (tabFd : Int)
  | exclusiveOnTable (txn : TxnId) (tabFd : Int)
  | isOnTable (txn : TxnId) (tabFd : Int)
  | ixOnTable (txn : TxnId) (tabFd : Int)
  | unlock (txn : TxnId) (id : LockDataId)
  deriving DecidableEq, Repr

def LockCall.run : LockCall → Call
  | .sharedOnRecord txn rid fd => lockSharedOnRecord txn rid fd
  | .exclusiveOnRecord txn rid fd => lockExclusiveOnRecord txn rid fd
  | .sharedOnTable txn fd => lockSharedOnTable txn fd
  | .exclusiveOnTable txn fd => lockExclusiveOnTable txn fd
  | .isOnTable txn fd => lockISOnTable txn fd
  | .ixOnTable txn fd => lockIXOnTable txn fd
  | .unlock txn id => LockManager.unlock txn id

/-- One call of some transaction; a refused call is a step as well. -/
def step (s : LockState) (call : LockCall) : LockState := call.run.after s

/-- A new lock manager beside transactions in any state. -/
def start (txns : TxnId → Transaction) : LockState := ⟨fun _ => none,txns⟩

end Rucbase.LockManager
