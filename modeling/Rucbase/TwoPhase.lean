import Rucbase.Isolation

/-! The two phases of a transaction. A transaction's lock set and its requests in the queues
are changed by different calls; they name the same objects until the transaction ends, and the
loop over the lock set then empties both. Calls of the lock manager are atomic, `commit` and
`abort` are not: another transaction's requests may fall between two rounds of the loop. -/
namespace Rucbase.TwoPhase

open Lib Lib.Prog Db Isolation
open LockManager hiding step start
open LockState (addLock grown queue setQueue setTxnState)

/-- The requests of the other transactions on an object, in their order. -/
def requestsBut (s : LockState) (txn : TxnId) (id : LockDataId) : List LockRequest :=
  (s.queue id).requestQueue.filter (fun r => r.txnId ≠ txn)

/-! ### What a call of one transaction leaves to the others -/

/-- Nothing of another transaction changes. -/
structure Aside (txn : TxnId) (s next : LockState) : Prop where
  requests : ∀ id, requestsBut next txn id = requestsBut s txn id
  txns : ∀ other, other ≠ txn → next.txns other = s.txns other

theorem Aside.refl (txn : TxnId) (s : LockState) : Aside txn s s := ⟨fun _ => rfl,fun _ _ => rfl⟩

variable {id : LockDataId} {q : LockRequestQueue} {rule : LockRule} {next s : LockState} {other txn : TxnId}

theorem Aside.trans {a b c : LockState} (first : Aside txn a b) (second : Aside txn b c) : Aside txn a c :=
  ⟨fun id => (second.requests id).trans (first.requests id),
    fun other apart => (second.txns other apart).trans (first.txns other apart)⟩

theorem holds_iff_requestsBut (apart : other ≠ txn) (id : LockDataId) :
    Holds s other id ↔ ∃ r ∈ requestsBut s txn id, r.txnId = other := by
  constructor
  · rintro ⟨r,member,rfl⟩
    exact ⟨r,List.mem_filter.mpr ⟨member,by simpa using apart⟩,rfl⟩
  · rintro ⟨r,member,own⟩
    exact ⟨r,(List.mem_filter.mp member).1,own⟩

theorem Aside.holds (aside : Aside txn s next) (apart : other ≠ txn) (id : LockDataId) :
    Holds next other id ↔ Holds s other id := by
  rw [holds_iff_requestsBut apart,holds_iff_requestsBut apart,aside.requests]

/-- The lock set of a transaction names the objects it has requests on, and only a growing
transaction has any. -/
structure Tracked (s : LockState) (txn : TxnId) : Prop where
  held : ∀ id, id ∈ (s.txns txn).lockSet ↔ Holds s txn id
  growing : (s.txns txn).lockSet ≠ [] → (s.txns txn).state = .growing

theorem Aside.tracked (aside : Aside txn s next) (apart : other ≠ txn) (tracked : Tracked s other) :
    Tracked next other := by
  constructor
  · intro id
    rw [aside.txns other apart,aside.holds apart]
    exact tracked.held id
  · rw [aside.txns other apart]
    exact tracked.growing

theorem filter_setMode (txn : TxnId) (mode : LockMode) (requests : List LockRequest) :
    (setMode txn mode requests).filter (fun r => r.txnId ≠ txn) =
      requests.filter (fun r => r.txnId ≠ txn) := by
  induction requests with
  | nil => rfl
  | cons r rest ih =>
    by_cases own : r.txnId = txn
    · simp [setMode,own]
    · simp only [setMode,own,if_false,List.filter_cons,ih]

theorem filter_eraseP (txn : TxnId) (requests : List LockRequest) :
    (requests.eraseP (fun r => r.txnId = txn)).filter (fun r => r.txnId ≠ txn) =
      requests.filter (fun r => r.txnId ≠ txn) := by
  induction requests with
  | nil => rfl
  | cons r rest ih =>
    by_cases own : r.txnId = txn
    · simp [own]
    · simpa [own] using ih

theorem map_setMode (txn : TxnId) (mode : LockMode) (requests : List LockRequest) :
    (setMode txn mode requests).map LockRequest.txnId = requests.map LockRequest.txnId := by
  induction requests with
  | nil => rfl
  | cons r rest ih =>
    by_cases own : r.txnId = txn
    · simp [setMode,own]
    · simp [setMode,own,ih]

theorem holds_iff_mem : Holds s txn id ↔ txn ∈ (s.queue id).requestQueue.map LockRequest.txnId := by
  simp [Holds]

theorem grown_other (s : LockState) (apart : other ≠ txn) : (s.grown txn).txns other = s.txns other := by
  unfold grown
  split
  · simp [setTxnState,apart]
  · rfl

theorem aside_setQueue (table : next.lockTable = (s.setQueue id q).lockTable)
    (txns : ∀ other, other ≠ txn → next.txns other = s.txns other)
    (same : q.requestQueue.filter (fun r => r.txnId ≠ txn) = requestsBut s txn id) :
    Aside txn s next := by
  refine ⟨fun other => ?_,txns⟩
  rw [requestsBut,queue_of_table table]
  by_cases here : other = id
  · rw [if_pos here,here,same]
  · rw [if_neg here]
    rfl

theorem aside_same (table : next.lockTable = s.lockTable)
    (txns : ∀ other, other ≠ txn → next.txns other = s.txns other) : Aside txn s next :=
  ⟨fun id => by rw [requestsBut,requestsBut,queue,queue,table],txns⟩

/-! ### Requests -/

/-- What holds for every request of `txn`. -/
structure Works (txn : TxnId) (s next : LockState) : Prop where
  sound : Sound s → Sound next
  aside : Aside txn s next
  tracked : Tracked s txn → Tracked next txn

theorem works_frame (txn : TxnId) : Frame (Works txn) where
  refl s := ⟨fun sound => sound,.refl txn s,fun tracked => tracked⟩
  trans _ _ _ first second :=
    ⟨fun sound => second.sound (first.sound sound),first.aside.trans second.aside,
      fun tracked => second.tracked (first.tracked tracked)⟩

theorem grown_growing (live : (s.txns txn).state.ended = false) (late : (s.txns txn).state ≠ .shrinking) :
    ((s.grown txn).txns txn).state = .growing := by
  unfold grown
  cases phase : (s.txns txn).state with
  | default => simp [setTxnState]
  | growing => simp [phase]
  | shrinking => exact absurd phase late
  | committed => simp [phase,TransactionState.ended] at live
  | aborted => simp [phase,TransactionState.ended] at live

theorem grown_kept (growing : (s.txns txn).state = .growing) : s.grown txn = s := by
  simp [grown,growing]

theorem Tracked.same (tracked : Tracked s txn) (lockSet : (next.txns txn).lockSet = (s.txns txn).lockSet)
    (holds : ∀ id, Holds next txn id ↔ Holds s txn id)
    (phase : (s.txns txn).state = .growing → (next.txns txn).state = .growing) : Tracked next txn := by
  constructor
  · intro id
    rw [lockSet,holds]
    exact tracked.held id
  · rw [lockSet]
    exact fun some => phase (tracked.growing some)

theorem holds_setQueue (table : next.lockTable = (s.setQueue id q).lockTable)
    (same : q.requestQueue.map LockRequest.txnId = (s.queue id).requestQueue.map LockRequest.txnId)
    (other : LockDataId) : Holds next txn other ↔ Holds s txn other := by
  rw [holds_iff_mem,holds_iff_mem,queue_of_table table]
  by_cases here : other = id
  · rw [if_pos here,here,same]
  · rw [if_neg here]

theorem acquire_ended (isOver : (s.txns txn).state.ended = true) : acquire rule txn id s = (.ok false,s) := by
  rw [acquire,bind_run,checkLock_run,if_pos isOver]
  rfl

theorem acquire_aside (rule : LockRule) (txn : TxnId) (id : LockDataId) (s : LockState) :
    Aside txn s ((acquire rule txn id).after s) := by
  have others : ∀ other, other ≠ txn → (s.grown txn).txns other = s.txns other := fun _ apart => grown_other s apart
  refine acquire_invariant (.refl txn s) (aside_same (by simp) others) (aside_setQueue (grown_setQueue_table ..) others rfl)
    (fun q r mode group shared ix _ _ present _ _ => ?_) fun _ _ _ _ => ?_
  · refine aside_setQueue (grown_setQueue_table ..) others ?_
    rw [requestsBut,queue,present]
    exact filter_setMode txn _ _
  · refine aside_setQueue (grown_setQueue_table s txn id _) (fun other apart => ?_) ?_
    · simp only [addLock,Function.update_of_ne apart,setQueue_txns]
      exact others other apart
    · simp [LockRequestQueue.granting,requestsBut]

theorem addLock_mem (s : LockState) (txn : TxnId) (id other : LockDataId) :
    other ∈ ((s.addLock txn id).txns txn).lockSet ↔ other = id ∨ other ∈ (s.txns txn).lockSet := by
  simp only [addLock,Function.update_self]
  split
  · exact ⟨.inr,fun either => either.elim (fun same => same ▸ ‹_›) fun old => old⟩
  · simp [or_comm]

theorem addLock_state (s : LockState) (txn : TxnId) (id : LockDataId) :
    ((s.addLock txn id).txns txn).state = (s.txns txn).state := by
  simp [addLock]

theorem granted_tracked (tracked : Tracked s txn) (live : (s.txns txn).state.ended = false)
    (late : (s.txns txn).state ≠ .shrinking) :
    Tracked (((s.grown txn).setQueue id ((s.queue id).granting txn rule)).addLock txn id) txn := by
  constructor
  · intro other
    have queues := queue_of_table (grown_setQueue_table s txn id ((s.queue id).granting txn rule)) other
    rw [addLock_mem,setQueue_txns,grown_lockSet,tracked.held,holds_iff_mem,holds_iff_mem,addLock_queue,queues]
    by_cases here : other = id
    · simp [here,LockRequestQueue.granting]
    · simp [here]
  · intro _
    rw [addLock_state,setQueue_txns]
    exact grown_growing live late

theorem acquire_tracked (rule : LockRule) (txn : TxnId) (id : LockDataId) (s : LockState) (tracked : Tracked s txn) :
    Tracked ((acquire rule txn id).after s) txn := by
  have phase (growing : (s.txns txn).state = .growing) : ((s.grown txn).txns txn).state = .growing := by
    rw [grown_kept growing,growing]
  refine acquire_invariant (P := fun next => Tracked next txn) tracked (tracked.same (by simp) (by simp [Holds]) phase)
    (tracked.same (by simp) (holds_setQueue (grown_setQueue_table ..) rfl) phase)
    (fun q r mode group shared ix _ _ present _ _ => ?_) fun live late _ _ => granted_tracked tracked live late
  refine tracked.same (by simp) (holds_setQueue (grown_setQueue_table ..) ?_) phase
  rw [queue,present]
  exact map_setMode txn _ _

theorem acquire_works (ruleSound : RuleSound rule) (txn : TxnId) (id : LockDataId) (s : LockState) :
    Works txn s ((acquire rule txn id).after s) :=
  ⟨acquire_sound ruleSound txn id s,acquire_aside rule txn id s,acquire_tracked rule txn id s⟩

/-! ### The release loop -/

theorem unlock_requests (txn : TxnId) (id other : LockDataId) (s : LockState)
    (live : (s.txns txn).state.ended = false) :
    (((unlock txn id).after s).queue other).requestQueue =
      if other = id then (s.queue id).requestQueue.eraseP (fun r => r.txnId = txn)
      else (s.queue other).requestQueue := by
  rcases unlock_outcome txn id s with ⟨isOver,_⟩ | ⟨_,moved,table,_,⟨run,absent⟩ | ⟨q,own,present,found,run⟩⟩
  · simp [isOver] at live
  · have none : ∀ r ∈ (s.queue id).requestQueue, ¬decide (r.txnId = txn) = true := by
      cases present : s.lockTable id with
      | none => simp [queue,present]
      | some q =>
        have nobody := List.find?_eq_none.mp (absent q present)
        simpa [queue,present] using nobody
    have same : (moved.queue other) = s.queue other := by rw [queue,queue,table]
    rw [after,run,same,List.eraseP_of_forall_not none]
    split
    · rename_i here
      rw [here]
    · rfl
  · have shape : ((unlock txn id).after s).queue other =
        if other = id then q.released txn own.lockMode else s.queue other := by
      apply queue_of_table
      simp [after,run,setQueue,table]
    rw [shape,queue,queue,present]
    split <;> rfl

theorem unlock_other (txn : TxnId) (id : LockDataId) (s : LockState) (apart : other ≠ txn) :
    ((unlock txn id).after s).txns other = s.txns other := by
  rw [unlock_txns]
  split
  · simp [setTxnState,apart]
  · rfl

theorem unlock_aside (txn : TxnId) (id : LockDataId) (s : LockState) : Aside txn s ((unlock txn id).after s) := by
  refine ⟨fun other => ?_,fun _ apart => unlock_other txn id s apart⟩
  cases live : (s.txns txn).state.ended with
  | true => simp [unlock,after,bind_run,live]
  | false =>
    rw [requestsBut,requestsBut,unlock_requests txn id other s live]
    split
    · rename_i here
      rw [here,filter_eraseP]
    · rfl

/-- The loop has still to release every lock of the transaction. -/
structure Releasing (s : LockState) (txn : TxnId) (rest : List LockDataId) : Prop where
  left : ∀ id, Holds s txn id → id ∈ rest
  live : rest ≠ [] → (s.txns txn).state.ended = false

theorem Tracked.releasing (tracked : Tracked s txn) : Releasing s txn (s.txns txn).lockSet :=
  ⟨fun id held => (tracked.held id).mpr held,fun some => by rw [tracked.growing some]; rfl⟩

theorem eraseP_gone (sound : SoundQueue q) (txn : TxnId) :
    ∀ r ∈ q.requestQueue.eraseP (fun r => r.txnId = txn), r.txnId ≠ txn := by
  have single := sound.single
  generalize q.requestQueue = requests at single
  induction requests with
  | nil => nofun
  | cons a rest ih =>
    obtain ⟨apart,single⟩ := List.nodup_cons.mp single
    by_cases own : a.txnId = txn
    · intro r member same
      rw [List.eraseP_cons_of_pos (by simpa using own)] at member
      exact apart (own ▸ same ▸ List.mem_map_of_mem member)
    · rw [List.eraseP_cons_of_neg (by simpa using own)]
      exact List.forall_mem_cons.mpr ⟨own,ih single⟩

theorem Releasing.unlock {rest : List LockDataId} (sound : Sound s) (releasing : Releasing s txn (id :: rest)) :
    Releasing ((unlock txn id).after s) txn rest := by
  have live := releasing.live (List.cons_ne_nil _ _)
  refine ⟨?_,fun _ => by rw [unlock_ended,live]⟩
  rintro other ⟨r,member,own⟩
  rw [unlock_requests txn id other s live] at member
  split at member
  · exact absurd own (eraseP_gone (sound.queue id) txn r member)
  · rename_i apart
    exact (List.mem_cons.mp (releasing.left other ⟨r,member,own⟩)).resolve_left apart

/-! ### Record operations and rollback -/

section Calls

variable (txn : TxnId)

theorem undo_works (w : WriteRecord) : Within (OnLocks (Works txn)) (undo txn w) := by
  have frame := works_frame txn
  have asks : ∀ rid fd, Within (Works txn) (lockExclusiveOnRecord txn rid fd) :=
    fun _ _ s => acquire_works exclusiveOnRecord_sound txn _ s
  unfold undo
  cases w.wtype with
  | insertTuple => exact deleteRecord_onLocks frame w.tabName w.rid asks
  | deleteTuple =>
    exact (onLocks_frame frame).bind (insertRecord_onLocks frame w.tabName w.record asks) fun _ => (onLocks_frame frame).pure ()
  | updateTuple => exact updateRecord_onLocks frame w.tabName w.rid w.record asks

theorem undoAll_works (writes : List WriteRecord) : Within (OnLocks (Works txn)) (undoAll txn writes) := by
  induction writes with
  | nil => exact (onLocks_frame (works_frame txn)).pure ()
  | cons w rest ih => exact (onLocks_frame (works_frame txn)).bind (undo_works txn w) fun _ => ih

end Calls

/-! ### Commit and abort as whole calls -/

/-- The end of a transaction: nothing of it is left, and the other transactions' requests are
the same ones in the same order. -/
structure Released (txn : TxnId) (s next : LockState) : Prop where
  gone : ∀ id, ¬Holds next txn id
  lockSet : (next.txns txn).lockSet = []
  others : ∀ id, requestsBut next txn id = requestsBut s txn id

theorem unlockAll_released (ids : List LockDataId) (s : Db) (sound : Sound s.locks)
    (releasing : Releasing s.locks txn ids) :
    ∃ locks, unlockAll txn ids s = (.ok (),{ s with locks := locks }) ∧
      Aside txn s.locks locks ∧ ∀ id, ¬Holds locks txn id := by
  obtain ⟨locks,run,_,aside,releasing⟩ := unlockAll_run txn
    (P := fun rest now => Sound now ∧ Aside txn s.locks now ∧ Releasing now txn rest)
    (fun id rest now inv => ⟨unlock_sound txn id now inv.1,inv.2.1.trans (unlock_aside txn id now),inv.2.2.unlock inv.1⟩)
    ids s ⟨sound,.refl txn _,releasing⟩
  exact ⟨locks,run,aside,fun id held => nomatch releasing.left id held⟩

theorem release_whole (final : TransactionState) (s : Db) (sound : Sound s.locks) (tracked : Tracked s.locks txn) :
    ∃ locks, release txn final s = (.ok (),⟨locks,s.files,s.log ++ [.ended txn]⟩) ∧
      Aside txn s.locks locks ∧ (∀ id, ¬Holds locks txn id) ∧ (locks.txns txn).lockSet = [] := by
  obtain ⟨freed,run,aside,gone⟩ := unlockAll_released _ s sound tracked.releasing
  let last : Transaction := { freed.txns txn with lockSet := [], state := final }
  refine ⟨{ freed with txns := Function.update freed.txns txn last },?_,?_,gone,by simp [last]⟩
  · simp [release,bind_run,run,setTxn,note,last]
  · exact aside.trans (aside_same rfl fun _ apart => by simp [apart])

theorem release_released (final : TransactionState) (s : Db) (sound : Sound s.locks) (tracked : Tracked s.locks txn) :
    (release txn final s).1 = .ok () ∧ Released txn s.locks ((release txn final).after s).locks := by
  obtain ⟨locks,run,aside,gone,emptied⟩ := release_whole final s sound tracked
  rw [after,run]
  exact ⟨rfl,gone,emptied,aside.requests⟩

/-- The common end of `commit` and `abort`. Dropping the write set touches neither locks nor phases. -/
theorem finish_released (final : TransactionState) (s : Db) (sound : Sound s.locks) (tracked : Tracked s.locks txn) :
    let call : DbCall Unit := do
      setTxn txn fun t => { t with writeSet := [] }
      release txn final
    (call s).1 = .ok () ∧ Released txn s.locks (call.after s).locks := by
  intro call
  let dropped := (setTxn txn fun t => { t with writeSet := [] }).after s
  have same : Tracked dropped.locks txn :=
    tracked.same (by simp [dropped,setTxn,after]) (fun _ => .rfl) (by simp [dropped,setTxn,after])
  obtain ⟨run,released⟩ := release_released final dropped sound same
  exact ⟨run,released.gone,released.lockSet,released.others⟩

theorem abort_released (s : Db) (sound : Sound s.locks) (tracked : Tracked s.locks txn)
    (returned : (abort txn s).1 = .ok ()) : Released txn s.locks ((abort txn).after s).locks := by
  obtain ⟨_,undone,rolled,rest⟩ := bind_ok_split (x := undoAll txn (s.locks.txns txn).writeSet.reverse)
    (s := s) (Prod.ext returned rfl)
  have works : Works txn s.locks undone.locks := by
    have kept := undoAll_works txn (s.locks.txns txn).writeSet.reverse s
    rwa [OnLocks,after,rolled] at kept
  have released := (finish_released .aborted undone (works.sound sound) (works.tracked tracked)).2
  rw [after,rest] at released
  exact ⟨released.gone,released.lockSet,fun id => (released.others id).trans (works.aside.requests id)⟩

/-! ### Any interleaving -/

/-- Every call of the lock manager but `unlock`. -/
def isRequest : LockCall → Bool
  | .unlock _ _ => false
  | _ => true

def callTxn : LockCall → TxnId
  | .sharedOnRecord txn _ _ | .exclusiveOnRecord txn _ _ | .sharedOnTable txn _
  | .exclusiveOnTable txn _ | .isOnTable txn _ | .ixOnTable txn _ | .unlock txn _ => txn

theorem request_acquires {call : LockCall} (request : isRequest call = true) :
    ∃ rule id, RuleSound rule ∧ call.run = acquire rule (callTxn call) id := by
  cases call with
  | sharedOnRecord => exact ⟨_,_,sharedOnRecord_sound,rfl⟩
  | exclusiveOnRecord => exact ⟨_,_,exclusiveOnRecord_sound,rfl⟩
  | sharedOnTable => exact ⟨_,_,sharedOnTable_sound,rfl⟩
  | exclusiveOnTable => exact ⟨_,_,exclusiveOnTable_sound,rfl⟩
  | isOnTable => exact ⟨_,_,isOnTable_sound,rfl⟩
  | ixOnTable => exact ⟨_,_,ixOnTable_sound,rfl⟩
  | unlock => simp [isRequest] at request

/-- The lock manager and the transaction manager. A transaction in `commit` or `abort` has the
state it will end in and the objects its loop has not reached. -/
structure TxnManager where
  locks : LockState
  nextTxnId : TxnId
  txnMap : TxnId → Bool
  ending : TxnId → Option (TransactionState × List LockDataId)

namespace TxnManager

/-- A new transaction takes the next number, an old one is entered again. The numbers are of 32 bits. -/
def begin (m : TxnManager) : Option TxnId → TxnManager
  | none =>
    { m with
      locks := { m.locks with txns := Function.update m.locks.txns m.nextTxnId {} }
      nextTxnId := addInt m.nextTxnId 1
      txnMap := Function.update m.txnMap m.nextTxnId true }
  | some txn => { m with txnMap := Function.update m.txnMap txn true }

def setEnding (m : TxnManager) (txn : TxnId) (stage : Option (TransactionState × List LockDataId)) : TxnManager :=
  { m with ending := Function.update m.ending txn stage }

/-- `lock_set->clear()` and `set_state` after the loop. -/
def endTxn (s : LockState) (txn : TxnId) (final : TransactionState) : LockState :=
  let last : Transaction := { s.txns txn with lockSet := [], state := final }
  { s with txns := Function.update s.txns txn last }

/-- What the threads do one after the other. `commit` and `abort` are the start of the loop
over the lock set; what `abort` undoes before that are requests like any others. -/
inductive Act where
  | begin (txn : Option TxnId)
  | request (call : LockCall)
  | commit (txn : TxnId)
  | abort (txn : TxnId)
  | unlock (txn : TxnId)
  | finish (txn : TxnId)
  deriving DecidableEq

def step (m : TxnManager) : Act → TxnManager
  | .begin txn => m.begin txn
  | .request call => { m with locks := call.run.after m.locks }
  | .commit txn => m.setEnding txn (some (.committed,(m.locks.txns txn).lockSet))
  | .abort txn => m.setEnding txn (some (.aborted,(m.locks.txns txn).lockSet))
  | .unlock txn =>
    match m.ending txn with
    | some (final,id :: rest) =>
      { m with locks := (LockManager.unlock txn id).after m.locks }.setEnding txn (some (final,rest))
    | _ => m
  | .finish txn =>
    match m.ending txn with
    | some (final,[]) =>
      { m with locks := endTxn m.locks txn final }.setEnding txn none
    | _ => m

/-- A transaction is created by `begin`, while the numbers last, and is in one call at a time. -/
def Allowed (m : TxnManager) : Act → Prop
  | .begin none => m.nextTxnId < 2 ^ 31 - 1
  | .begin (some txn) => m.txnMap txn = true
  | .request call => isRequest call = true ∧ m.txnMap (callTxn call) = true ∧ m.ending (callTxn call) = none
  | .commit txn | .abort txn => m.txnMap txn = true ∧ m.ending txn = none
  | .unlock txn => (m.ending txn).any fun stage => !stage.2.isEmpty
  | .finish txn => (m.ending txn).any fun stage => stage.2.isEmpty

instance (m : TxnManager) (act : Act) : Decidable (Allowed m act) := by
  unfold Allowed
  split <;> infer_instance

def start : TxnManager where
  locks := LockManager.start fun _ => {}
  nextTxnId := 0
  txnMap := fun _ => false
  ending := fun _ => none

def actTxn : Act → Option TxnId
  | .begin _ => none
  | .request call => some (callTxn call)
  | .commit txn | .abort txn | .unlock txn | .finish txn => some txn

/-- Between calls a transaction's lock set names its requests; inside `commit` and `abort`
the loop has what is left. A number not given out yet belongs to an untouched transaction. -/
structure Inv (m : TxnManager) : Prop where
  sound : Sound m.locks
  counted : (0 : Int) ≤ m.nextTxnId
  fresh : ∀ txn, m.nextTxnId ≤ txn → m.txnMap txn = false
  untouched : ∀ txn, m.txnMap txn = false → m.locks.txns txn = {} ∧ m.ending txn = none
  idle : ∀ txn, m.ending txn = none → Tracked m.locks txn
  busy : ∀ txn final rest, m.ending txn = some (final,rest) →
    final.ended = true ∧ Releasing m.locks txn rest

theorem start_inv : Inv start where
  sound := run_sound _ []
  counted := Int.le_refl 0
  fresh _ _ := rfl
  untouched _ _ := ⟨rfl,rfl⟩
  idle txn _ := ⟨fun id => by simp [start,LockManager.start,Holds,queue],fun some => absurd rfl some⟩
  busy := nofun

theorem endTxn_aside (s : LockState) (txn : TxnId) (final : TransactionState) : Aside txn s (endTxn s txn final) :=
  aside_same rfl fun _ apart => by simp [endTxn,apart]

theorem endTxn_tracked (final : TransactionState) (none : ∀ id, ¬Holds s txn id) : Tracked (endTxn s txn final) txn :=
  ⟨fun id => iff_of_false (by simp [endTxn]) (none id),fun some => absurd (by simp [endTxn]) some⟩

variable {final : TransactionState} {m : TxnManager}

/-- A new number is one no transaction was seen under, so the new transaction replaces nothing. -/
theorem Inv.begin_locks (inv : Inv m) (txn : Option TxnId) : (m.begin txn).locks = m.locks := by
  cases txn with
  | none =>
    have same := (inv.untouched _ (inv.fresh _ (le_refl _))).1
    show { m.locks with txns := Function.update m.locks.txns m.nextTxnId {} } = m.locks
    rw [← same,Function.update_eq_self]
  | some txn => rfl

theorem unlock_allowed (allowed : Allowed m (.unlock txn)) : ∃ final id rest, m.ending txn = some (final,id :: rest) := by
  unfold Allowed at allowed
  match stage : m.ending txn with
  | none => simp [stage] at allowed
  | some (final,[]) => simp [stage] at allowed
  | some (final,id :: rest) => exact ⟨final,id,rest,rfl⟩

theorem finish_allowed (allowed : Allowed m (.finish txn)) : ∃ final, m.ending txn = some (final,[]) := by
  unfold Allowed at allowed
  match stage : m.ending txn with
  | none => simp [stage] at allowed
  | some (final,[]) => exact ⟨final,rfl⟩
  | some (final,id :: rest) => simp [stage] at allowed

theorem step_unlock {rest : List LockDataId} (stage : m.ending txn = some (final,id :: rest)) : step m (.unlock txn) =
      { m with locks := (LockManager.unlock txn id).after m.locks }.setEnding txn (some (final,rest)) := by
  simp only [step,stage]

theorem step_finish (stage : m.ending txn = some (final,[])) :
    step m (.finish txn) = { m with locks := endTxn m.locks txn final }.setEnding txn none := by
  simp only [step,stage]

theorem step_aside (m : TxnManager) (act : Act) (txn : TxnId) (own : actTxn act = some txn) (allowed : Allowed m act) :
    Aside txn m.locks (step m act).locks := by
  cases act with
  | begin => nomatch own
  | request call =>
    obtain ⟨rule,id,ruleSound,run⟩ := request_acquires allowed.1
    obtain rfl := Option.some.inj own
    rw [step,run]
    exact acquire_aside rule _ id m.locks
  | commit other => exact .refl txn _
  | abort other => exact .refl txn _
  | unlock other =>
    obtain ⟨final,id,rest,stage⟩ := unlock_allowed allowed
    obtain rfl := Option.some.inj own
    rw [step_unlock stage]
    exact unlock_aside other id m.locks
  | finish other =>
    obtain ⟨final,stage⟩ := finish_allowed allowed
    obtain rfl := Option.some.inj own
    rw [step_finish stage]
    exact endTxn_aside m.locks other final

theorem Inv.others {next : TxnManager} (inv : Inv m) (aside : Aside txn m.locks next.locks) (sound : Sound next.locks)
    (ids : next.nextTxnId = m.nextTxnId) (map : next.txnMap = m.txnMap) (known : m.txnMap txn = true)
    (stages : ∀ other, other ≠ txn → next.ending other = m.ending other)
    (idle : next.ending txn = none → Tracked next.locks txn)
    (busy : ∀ final rest, next.ending txn = some (final,rest) → final.ended = true ∧ Releasing next.locks txn rest) :
    Inv next := by
  refine ⟨sound,ids ▸ inv.counted,by rw [ids,map]; exact inv.fresh,fun other unknown => ?_,fun other stage => ?_,
    fun other final rest stage => ?_⟩
  · rw [map] at unknown
    have apart : other ≠ txn := fun same => by simp [same,known] at unknown
    rw [aside.txns other apart,stages other apart]
    exact inv.untouched other unknown
  · by_cases same : other = txn
    · subst other
      exact idle stage
    · rw [stages other same] at stage
      exact aside.tracked same (inv.idle other stage)
  · by_cases same : other = txn
    · subst other
      exact busy final rest stage
    · rw [stages other same] at stage
      obtain ⟨isOver,releasing⟩ := inv.busy other final rest stage
      refine ⟨isOver,fun id held => releasing.left id ((aside.holds same id).mp held),fun some => ?_⟩
      rw [aside.txns other same]
      exact releasing.live some

theorem Inv.numbered (inv : Inv m) (allowed : Allowed m (.begin none)) : (m.begin none).nextTxnId = m.nextTxnId + 1 := by
  have counted := inv.counted
  have last : (2 ^ 31 - 1 : Int) > m.nextTxnId := allowed
  exact addInt_exact (by omega) (by omega)

theorem Inv.begin (inv : Inv m) (txn : Option TxnId) (allowed : Allowed m (.begin txn)) : Inv (m.begin txn) := by
  have locks := inv.begin_locks txn
  have same : (m.begin txn).ending = m.ending := by cases txn <;> rfl
  have known (other : TxnId) (unknown : (m.begin txn).txnMap other = false) : m.txnMap other = false := by
    cases txn with
    | none =>
      by_cases new : other = m.nextTxnId
      · exact new ▸ inv.fresh _ (le_refl _)
      · simpa [TxnManager.begin,new] using unknown
    | some txn =>
      by_cases new : other = txn
      · simp [TxnManager.begin,new] at unknown
      · simpa [TxnManager.begin,new] using unknown
  have fresh (other : TxnId) (late : (m.begin txn).nextTxnId ≤ other) : (m.begin txn).txnMap other = false := by
    cases txn with
    | none =>
      have late : m.nextTxnId < other := Int.add_one_le_iff.mp (inv.numbered allowed ▸ late)
      simp [TxnManager.begin,late.ne',inv.fresh other late.le]
    | some txn =>
      have before := inv.fresh other late
      have apart : other ≠ txn := fun same => by simp [Allowed,← same,before] at allowed
      simp [TxnManager.begin,apart,before]
  constructor
  case fresh => exact fresh
  case counted =>
    have counted := inv.counted
    cases txn with
    | none => exact inv.numbered allowed ▸ Int.add_nonneg counted Int.one_nonneg
    | some txn => exact counted
  all_goals rw [locks]
  case sound => exact inv.sound
  all_goals rw [same]
  case untouched => exact fun other unknown => inv.untouched other (known other unknown)
  case idle => exact inv.idle
  case busy => exact inv.busy

theorem Inv.known (inv : Inv m) {stage : TransactionState × List LockDataId} (ending : m.ending txn = some stage) :
    m.txnMap txn = true := by
  by_contra unknown
  have none := (inv.untouched txn (Bool.eq_false_iff.mpr unknown)).2
  rw [ending] at none
  contradiction

theorem Inv.enter (inv : Inv m) (known : m.txnMap txn = true) (before : m.ending txn = none) (isOver : final.ended = true) :
    Inv (m.setEnding txn (some (final,(m.locks.txns txn).lockSet))) := by
  refine inv.others (.refl txn _) inv.sound rfl rfl known (fun other apart => by simp [setEnding,apart])
    (fun none => by simp [setEnding] at none) fun last rest stage => ?_
  simp only [setEnding,Function.update_self,Option.some.injEq,Prod.mk.injEq] at stage
  obtain ⟨rfl,rfl⟩ := stage
  exact ⟨isOver,(inv.idle txn before).releasing⟩

theorem step_inv (m : TxnManager) (act : Act) (inv : Inv m) (allowed : Allowed m act) : Inv (step m act) := by
  cases act with
  | begin txn => exact inv.begin txn allowed
  | request call =>
    obtain ⟨rule,id,ruleSound,run⟩ := request_acquires allowed.1
    have works := acquire_works ruleSound (callTxn call) id m.locks
    rw [← run] at works
    exact inv.others works.aside (works.sound inv.sound) rfl rfl allowed.2.1 (fun _ _ => rfl)
      (fun none => works.tracked (inv.idle _ none)) fun final rest stage => by
        have none : m.ending (callTxn call) = none := allowed.2.2
        have stage : m.ending (callTxn call) = some (final,rest) := stage
        rw [none] at stage
        contradiction
  | commit txn => exact inv.enter allowed.1 allowed.2 rfl
  | abort txn => exact inv.enter allowed.1 allowed.2 rfl
  | unlock txn =>
    obtain ⟨final,id,rest,stage⟩ := unlock_allowed allowed
    obtain ⟨isOver,releasing⟩ := inv.busy txn final _ stage
    rw [step_unlock stage]
    refine inv.others (unlock_aside txn id m.locks) (unlock_sound txn id m.locks inv.sound) rfl rfl
      (inv.known stage) (fun other apart => by simp [setEnding,apart]) (fun none => by simp [setEnding] at none)
      fun last left later => ?_
    simp only [setEnding,Function.update_self,Option.some.injEq,Prod.mk.injEq] at later
    obtain ⟨rfl,rfl⟩ := later
    exact ⟨isOver,releasing.unlock inv.sound⟩
  | finish txn =>
    obtain ⟨final,stage⟩ := finish_allowed allowed
    obtain ⟨isOver,releasing⟩ := inv.busy txn final _ stage
    rw [step_finish stage]
    exact inv.others (endTxn_aside m.locks txn final) inv.sound rfl rfl (inv.known stage)
      (fun other apart => by simp [setEnding,apart])
      (fun _ => endTxn_tracked final fun id held => nomatch releasing.left id held)
      fun last rest later => by simp [setEnding] at later

theorem step_other (inv : Inv m) (act : Act) (allowed : Allowed m act) (apart : actTxn act ≠ some txn) :
    (step m act).ending txn = m.ending txn ∧ (step m act).locks.txns txn = m.locks.txns txn := by
  cases owner : actTxn act with
  | none =>
    cases act with
    | begin new => exact ⟨by cases new <;> rfl,by rw [step,inv.begin_locks]⟩
    | request | commit | abort | unlock | finish => nomatch owner
  | some other =>
    have apart : txn ≠ other := fun same => apart (same ▸ owner)
    refine ⟨?_,(step_aside m act other owner allowed).txns txn apart⟩
    cases act with
    | begin => nomatch owner
    | request => rfl
    | commit | abort =>
      obtain rfl := Option.some.inj owner
      simp [step,setEnding,apart]
    | unlock =>
      obtain ⟨final,id,rest,stage⟩ := unlock_allowed allowed
      obtain rfl := Option.some.inj owner
      simp [step_unlock stage,setEnding,apart]
    | finish =>
      obtain ⟨final,stage⟩ := finish_allowed allowed
      obtain rfl := Option.some.inj owner
      simp [step_finish stage,setEnding,apart]

/-- The transaction is inside `commit` or `abort` or has ended. -/
def Past (m : TxnManager) (txn : TxnId) : Prop :=
  m.ending txn ≠ none ∨ (m.locks.txns txn).state.ended = true

/-- There is no way back from the second phase. -/
theorem Past.step (past : Past m txn) (inv : Inv m) (act : Act) (allowed : Allowed m act) : Past (step m act) txn := by
  by_cases own : actTxn act = some txn
  · cases act with
    | begin => nomatch own
    | request call =>
      obtain ⟨rule,id,_,run⟩ := request_acquires allowed.1
      obtain rfl := Option.some.inj own
      have isOver := past.resolve_left fun some => some allowed.2.2
      refine .inr ?_
      rw [TxnManager.step,run,after,acquire_ended isOver]
      exact isOver
    | commit other =>
      obtain rfl := Option.some.inj own
      exact .inl (by simp [TxnManager.step,setEnding])
    | abort other =>
      obtain rfl := Option.some.inj own
      exact .inl (by simp [TxnManager.step,setEnding])
    | unlock other =>
      obtain ⟨final,id,rest,stage⟩ := unlock_allowed allowed
      obtain rfl := Option.some.inj own
      exact .inl (by simp [step_unlock stage,setEnding])
    | finish other =>
      obtain ⟨final,stage⟩ := finish_allowed allowed
      obtain rfl := Option.some.inj own
      refine .inr ?_
      simpa [step_finish stage,setEnding,endTxn] using (inv.busy _ _ _ stage).1
  · obtain ⟨stage,same⟩ := step_other inv act allowed own
    rw [Past,stage,same]
    exact past

theorem past_of_unlock (inv : Inv m) (acts : List Act) (allowed : Guarded step Allowed m acts)
    (either : Past m txn ∨ .unlock txn ∈ acts) : Past (acts.foldl step m) txn := by
  induction acts generalizing m with
  | nil => exact either.resolve_right (List.not_mem_nil)
  | cons act rest ih =>
    refine ih (step_inv m act inv allowed.1) allowed.2 ?_
    rcases either with past | member
    · exact .inl (past.step inv act allowed.1)
    · rcases List.mem_cons.mp member with rfl | later
      · obtain ⟨final,id,left,stage⟩ := unlock_allowed allowed.1
        exact .inl (.inl (by simp [step_unlock stage,setEnding]))
      · exact .inr later

/-- Two-phase locking over every interleaving. A request made after the transaction's first
unlock is not granted; a step of a transaction leaves the other transactions' requests as they
are; outside `commit` and `abort` the lock set names exactly the objects whose queues hold a
request of the transaction; and when the loop of `commit` or `abort` is over nothing is left of
it, also when the call runs as a whole with its rollback. -/
theorem two_phase_release (acts : List Act) (allowed : Guarded step Allowed start acts) :
    (∀ before call after, acts = before ++ .request call :: after → .unlock (callTxn call) ∈ before →
      (call.run (before.foldl step start).locks).1 ≠ .ok true) ∧
    (∀ before act after txn, acts = before ++ act :: after → actTxn act = some txn → ∀ id,
      requestsBut (step (before.foldl step start) act).locks txn id =
        requestsBut (before.foldl step start).locks txn id) ∧
    let m := acts.foldl step start
    (∀ txn, m.ending txn = none → ∀ id, id ∈ (m.locks.txns txn).lockSet ↔ Holds m.locks txn id) ∧
    (∀ txn final, m.ending txn = some (final,[]) → Released txn m.locks (step m (.finish txn)).locks) ∧
    ∀ txn (db : Db), m.ending txn = none → db.locks = m.locks →
      ((Db.commit txn db).1 = .ok () ∧ Released txn m.locks ((Db.commit txn).after db).locks) ∧
      ((Db.abort txn db).1 = .ok () → Released txn m.locks ((Db.abort txn).after db).locks) := by
  have whole := guarded_invariant Inv step_inv start start_inv acts allowed
  refine ⟨?_,?_,fun txn idle id => (whole.idle txn idle).held id,?_,?_⟩
  · rintro before call after rfl unlocked granted
    obtain ⟨first,second⟩ := Guarded.append allowed
    obtain ⟨rule,id,_,run⟩ := request_acquires second.1.1
    have past := past_of_unlock start_inv before first (.inr unlocked)
    have isOver := past.resolve_left fun some => some second.1.2.2
    rw [run,acquire_ended isOver] at granted
    exact Bool.noConfusion (Except.ok.inj granted)
  · rintro before act after txn rfl own
    exact (step_aside _ act txn own (Guarded.append allowed).2.1).requests
  · intro txn final stage
    obtain ⟨_,releasing⟩ := whole.busy txn final _ stage
    rw [step_finish stage]
    exact ⟨fun id held => (nomatch releasing.left id held),by simp [setEnding,endTxn],fun _ => rfl⟩
  · intro txn db idle same
    have sound : Sound db.locks := same ▸ whole.sound
    have tracked : Tracked db.locks txn := same ▸ whole.idle txn idle
    rw [← same]
    exact ⟨finish_released .committed db sound tracked,abort_released db sound tracked⟩

/-- Two transactions read a row; the second one asks again and commits while the first holds on. -/
def twoReaders : List Act :=
  [.begin none,.begin none,.request (.sharedOnRecord 0 ⟨1,0⟩ 5),.request (.sharedOnRecord 1 ⟨1,0⟩ 5),
    .request (.ixOnTable 1 5),.request (.exclusiveOnTable 1 5),.commit 1,.unlock 1,.unlock 1,.finish 1,
    .request (.sharedOnRecord 1 ⟨1,1⟩ 5)]

theorem twoReaders_release :
    let m := (twoReaders.take 6).foldl step start
    (m.locks.txns 1).lockSet = [.ofRecord 5 ⟨1,0⟩,.ofTable 5] ∧ ¬Holds ((twoReaders.foldl step start).locks) 1 (.ofTable 5) ∧
      ((LockCall.sharedOnRecord 1 ⟨1,1⟩ 5).run ((twoReaders.take 10).foldl step start).locks).1 ≠ .ok true := by
  intro m
  obtain ⟨late,_,exact,_⟩ := two_phase_release twoReaders (by decide +kernel)
  refine ⟨by decide +kernel,?_,late (twoReaders.take 10) _ [] rfl (by decide +kernel)⟩
  exact fun held => absurd ((exact 1 (by decide +kernel) _).mpr held) (by decide +kernel)

end TxnManager

end Rucbase.TwoPhase
