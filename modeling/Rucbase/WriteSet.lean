import Rucbase.Lib.Relocation
import Rucbase.TableRows
import Rucbase.TableRuns
import Rucbase.TwoPhase

/-! Write sets. A transaction logs each row it wrote, and `abort` takes the entries back, newest
first. A deleted row is inserted wherever the free slot search leads, while older entries still
name the slot it had. -/
namespace Rucbase.WriteSet

open Lib Lib.Prog Lib.Relocation Db
open LockManager hiding step start

/-- Every transaction's write set stays. -/
def SameWrites (s next : LockState) : Prop := ∀ txn, (next.txns txn).writeSet = (s.txns txn).writeSet

theorem grown_sameWrites (s : LockState) (txn : TxnId) : SameWrites s (s.grown txn) := by
  intro other
  unfold LockState.grown
  split
  · by_cases same : other = txn <;> simp [LockState.setTxnState,same]
  · rfl

theorem addLock_sameWrites (s : LockState) (txn : TxnId) (id : LockDataId) : SameWrites s (s.addLock txn id) := by
  intro other
  by_cases same : other = txn <;> simp [LockState.addLock,same]

theorem acquire_sameWrites (rule : LockRule) (txn : TxnId) (id : LockDataId) : Within SameWrites (acquire rule txn id) := by
  intro s
  have grown := grown_sameWrites s txn
  exact acquire_invariant (P := SameWrites s) (fun _ => rfl) grown grown (fun _ _ _ _ _ _ _ _ _ _ _ => grown)
    fun _ _ _ _ other => (addLock_sameWrites _ txn id other).trans (grown other)

/-- The same for a database. -/
def Unrecorded (s next : Db) : Prop := SameWrites s.locks next.locks

theorem sameWrites_frame : Frame SameWrites :=
  ⟨fun _ _ => rfl,fun _ _ _ first second txn => (second txn).trans (first txn)⟩

theorem unrecorded_frame : Frame Unrecorded := onLocks_frame sameWrites_frame

section Rows

variable (tabName : String) (rid : Rid) (buf : List Byte) (txn : TxnId)

theorem fileOf_unrecorded : Within Unrecorded (fileOf tabName) := fileOf_onLocks sameWrites_frame tabName

theorem getRecord_unrecorded : Within Unrecorded (getRecord tabName rid (some txn)) :=
  getRecord_onLocks sameWrites_frame tabName rid fun _ _ => acquire_sameWrites _ txn _

theorem insertRecord_unrecorded : Within Unrecorded (insertRecord tabName buf (some txn)) :=
  insertRecord_onLocks sameWrites_frame tabName buf fun _ _ => acquire_sameWrites _ txn _

theorem updateRecord_unrecorded : Within Unrecorded (updateRecord tabName rid buf (some txn)) :=
  updateRecord_onLocks sameWrites_frame tabName rid buf fun _ _ => acquire_sameWrites _ txn _

theorem deleteRecord_unrecorded : Within Unrecorded (deleteRecord tabName rid (some txn)) :=
  deleteRecord_onLocks sameWrites_frame tabName rid fun _ _ => acquire_sameWrites _ txn _

end Rows

inductive RowOp where
  | insert (buf : List Byte)
  | update (rid : Rid) (buf : List Byte)
  | delete (rid : Rid)
  deriving DecidableEq

/-- A record operation and its entry in the write set. Nothing is logged if it throws. -/
def perform (tabName : String) (txn : TxnId) : RowOp → DbCall Unit
  | .insert buf => do
    let rid ← insertRecord tabName buf (some txn)
    appendWriteRecord txn ⟨.insertTuple,tabName,rid,[]⟩
  | .update rid buf => do
    let old ← getRecord tabName rid (some txn)
    updateRecord tabName rid buf (some txn)
    appendWriteRecord txn ⟨.updateTuple,tabName,rid,old⟩
  | .delete rid => do
    let old ← getRecord tabName rid (some txn)
    deleteRecord tabName rid (some txn)
    appendWriteRecord txn ⟨.deleteTuple,tabName,rid,old⟩

/-- An entry as the log of a store. -/
def entry (w : WriteRecord) : Write Rid (List Byte) :=
  match w.wtype with
  | .insertTuple => .inserted w.rid
  | .updateTuple => .updated w.rid w.record
  | .deleteTuple => .deleted w.rid w.record

@[simp] theorem entry_key (w : WriteRecord) : (entry w).key = w.rid := by
  unfold entry
  cases w.wtype <;> rfl

/-- At most the transaction's own row lock is in the queue. -/
def Own (txn : TxnId) (q : LockRequestQueue) : Prop :=
  (q.requestQueue = [] ∧ q.groupLockMode = .nonLock) ∨
    ∃ r, q.requestQueue = [r] ∧ r.txnId = txn ∧ (r.lockMode = .shared ∨ r.lockMode = .exclusive)

variable {q : LockRequestQueue} {s : LockState} {txn : TxnId}

theorem Own.found {r : LockRequest} (own : Own txn q) (found : findRequest txn q.requestQueue = some r) :
    q.requestQueue = [r] ∧ r.txnId = txn ∧ (r.lockMode = .shared ∨ r.lockMode = .exclusive) := by
  rcases own with ⟨none,_⟩ | ⟨only,single,mine,mode⟩
  · rw [none] at found
    cases found
  · rw [single,findRequest,List.find?_cons_of_pos (by simpa using mine)] at found
    cases found
    exact ⟨single,mine,mode⟩

theorem Own.absent (own : Own txn q) (absent : findRequest txn q.requestQueue = none) :
    q.requestQueue = [] ∧ q.groupLockMode = .nonLock := by
  rcases own with free | ⟨only,single,mine,_⟩
  · exact free
  · simp [findRequest,single,mine] at absent

/-- The transaction may lock, and no other one has a row locked. -/
structure Alone (txn : TxnId) (s : LockState) : Prop where
  rows : ∀ fd rid, Own txn (s.queue (.ofRecord fd rid))
  phase : (s.txns txn).state = .default ∨ (s.txns txn).state = .growing

theorem Alone.phases (alone : Alone txn s) : (s.txns txn).state.ended = false ∧ (s.txns txn).state ≠ .shrinking := by
  rcases alone.phase with phase | phase <;> simp [phase,TransactionState.ended]

theorem grown_phase (alone : Alone txn s) : ((s.grown txn).txns txn).state = .growing := by
  rcases alone.phase with phase | phase <;> simp [LockState.grown,phase,LockState.setTxnState]

theorem Alone.moved {next : LockState} {id : LockDataId} (alone : Alone txn s)
    (table : next.lockTable = (s.setQueue id q).lockTable) (own : Own txn q)
    (phase : (next.txns txn).state = .growing) : Alone txn next := by
  refine ⟨fun fd rid => ?_,.inr phase⟩
  rw [Isolation.queue_of_table table]
  split
  · exact own
  · exact alone.rows fd rid

/-- A rule for rows, which raises its own request at most to X. -/
structure RowRule (rule : LockRule) : Prop where
  mode : rule.mode = .shared ∨ rule.mode = .exclusive
  fresh : rule.conflicts .nonLock = false
  own : ∀ q r, q.requestQueue = [r] → r.lockMode = .shared ∨ r.lockMode = .exclusive →
    rule.own q r.lockMode = .keep ∨ ∃ group shared ix, rule.own q r.lockMode = .upgrade .exclusive group shared ix

theorem sharedOnRecord_row : RowRule sharedOnRecord := ⟨.inl rfl,rfl,fun _ _ _ _ => .inl rfl⟩

theorem exclusiveOnRecord_row : RowRule exclusiveOnRecord := by
  refine ⟨.inr rfl,rfl,fun q r single mode => ?_⟩
  rcases mode with mode | mode
  · exact .inr ⟨.x,0,0,by simp [exclusiveOnRecord,mode,single]⟩
  · exact .inl (by simp [exclusiveOnRecord,mode])

theorem Alone.acquire {rule : LockRule} (row : RowRule rule) (alone : Alone txn s) (fd : Int) (rid : Rid) :
    ∃ locks, acquire rule txn (.ofRecord fd rid) s = (.ok true,locks) ∧ Alone txn locks := by
  have growing := grown_phase alone
  have outcome := acquire_outcome rule txn (.ofRecord fd rid) s
  have rows := alone.rows fd rid
  rcases ran : LockManager.acquire rule txn (.ofRecord fd rid) s with ⟨result,next⟩
  · rw [ran] at outcome
    dsimp only at outcome
    cases outcome with
    | ended isOver => exact absurd isOver (by simp [alone.phases.1])
    | shrinking late => exact absurd late alone.phases.2
    | kept _ _ _ => exact ⟨_,rfl,fun fd rid => by simpa using alone.rows fd rid,.inr growing⟩
    | @refused q r present found refused =>
      have rows : Own txn q := by simpa [LockState.queue,present] using rows
      obtain ⟨single,_,mode⟩ := rows.found found
      rcases row.own q r single mode with keeps | ⟨_,_,_,raises⟩
      · cases keeps.symm.trans refused
      · cases raises.symm.trans refused
    | @upgraded q r mode group shared ix _ _ present found decided =>
      refine ⟨_,rfl,alone.moved (grown_setQueue_table ..) ?_ growing⟩
      have rows : Own txn q := by simpa [LockState.queue,present] using rows
      obtain ⟨single,mine,holds⟩ := rows.found found
      refine .inr ⟨{ r with lockMode := mode },?_,mine,?_⟩
      · simp [LockRequestQueue.upgraded,single,setMode,mine]
      · rcases row.own q r single holds with keeps | ⟨_,_,_,raises⟩
        · cases keeps.symm.trans decided
        · cases raises.symm.trans decided
          exact .inr rfl
    | blocked absent conflict => simp [(rows.absent absent).2,row.fresh] at conflict
    | granted _ _ absent _ =>
      refine ⟨_,rfl,alone.moved (grown_setQueue_table s txn _ _) ?_ (by simp [LockState.addLock,growing])⟩
      exact .inr ⟨⟨txn,rule.mode,true⟩,by simp [LockRequestQueue.granting,(rows.absent absent).1],rfl,row.mode⟩

section Log

variable {tabName : String} {txn : TxnId} {start : Rid → Option (List Byte)} {s : Db} {f : RmFile}

/-- The write set of a transaction that is alone, and the rows of the table. -/
structure Logged (tabName : String) (txn : TxnId) (start : Rid → Option (List Byte)) (s : Db) (f : RmFile) : Prop where
  opened : s.files tabName = some f
  ok : f.Ok
  alone : Alone txn s.locks
  entries : ∀ w ∈ (s.locks.txns txn).writeSet, w.tabName = tabName ∧
    (w.wtype ≠ .insertTuple → w.record.length = f.fileHdr.recordSize)
  history : History start ((s.locks.txns txn).writeSet.reverse.map entry) f.contents

theorem Logged.append (logged : Logged tabName txn start s f) {written : Db} {next : RmFile} {w : WriteRecord}
    (opened : written.files tabName = some next) (ok : next.Ok) (layout : f.SameLayout next)
    (alone : Alone txn written.locks) (same : Unrecorded s written) (did : (entry w).Did f.contents next.contents)
    (table : w.tabName = tabName) (record : w.wtype ≠ .insertTuple → w.record.length = f.fileHdr.recordSize) :
    Logged tabName txn start ((appendWriteRecord txn w).after written) next := by
  have set : (((appendWriteRecord txn w).after written).locks.txns txn).writeSet = (s.locks.txns txn).writeSet ++ [w] := by
    simp [appendWriteRecord,setTxn,after,same txn]
  refine ⟨opened,ok,⟨alone.rows,by simpa [appendWriteRecord,setTxn,after] using alone.phase⟩,fun e member => ?_,?_⟩
  · rw [layout.recordSize]
    rw [set] at member
    rcases List.mem_append.mp member with old | new
    · exact logged.entries e old
    · obtain rfl := List.mem_singleton.mp new
      exact ⟨table,record⟩
  · rw [set,List.reverse_append,List.map_append]
    exact ⟨f.contents,did,logged.history⟩

/-- Updates and deletions name live rows, and buffers are as long as the records. -/
def Valid (tabName : String) (s : Db) : RowOp → Prop
  | .insert buf => ∀ f ∈ s.files tabName, buf.length = f.fileHdr.recordSize
  | .update rid buf => ∀ f ∈ s.files tabName, (f.contents rid).isSome = true ∧ buf.length = f.fileHdr.recordSize
  | .delete rid => ∀ f ∈ s.files tabName, (f.contents rid).isSome = true

instance (tabName : String) (s : Db) (op : RowOp) : Decidable (Valid tabName s op) := by
  cases op <;> exact inferInstanceAs (Decidable (∀ f ∈ s.files tabName, _))

def step (tabName : String) (txn : TxnId) (s : Db) (op : RowOp) : Db := (perform tabName txn op).after s

variable {rid : Rid}

theorem Alone.locking {α : Type} {rule : LockRule} (row : RowRule rule) (alone : Alone txn s.locks) {fd : Int}
    {call : Except DbError α × Db} {failed : Db} {done : LockState → Except DbError α × Db}
    (shape : call = Db.locking (LockManager.acquire rule txn (.ofRecord fd rid) s.locks) failed done) :
    ∃ locks, call = done locks ∧ Alone txn locks := by
  obtain ⟨locks,locked,alone⟩ := alone.acquire row fd rid
  rw [locked] at shape
  exact ⟨locks,shape,alone⟩

section Logged

variable (logged : Logged tabName txn start s f)

include logged

theorem Logged.read {data : List Byte} (live : f.contents rid = some data) :
    ∃ next, getRecord tabName rid (some txn) s = (.ok data,next) ∧
      Logged tabName txn start next f ∧ Unrecorded s next := by
  obtain ⟨locks,run,alone⟩ := logged.alone.locking sharedOnRecord_row (getRecord_live logged.opened logged.ok txn live)
  have same := getRecord_unrecorded tabName rid txn s
  rw [Unrecorded,after,run] at same
  exact ⟨_,run,⟨logged.opened,logged.ok,alone,by rw [same txn]; exact logged.entries,
    by rw [same txn]; exact logged.history⟩,same⟩

theorem Logged.insert {buf : List Byte}
    (size : buf.length = f.fileHdr.recordSize) : ∃ next, Logged tabName txn start (step tabName txn s (.insert buf)) next := by
  obtain ⟨rid,_,next,_,free,_,_,_,ok,layout,added,run⟩ := insertRecord_free logged.opened logged.ok txn size
  obtain ⟨locks,run,alone⟩ := logged.alone.locking exclusiveOnRecord_row run
  have same := insertRecord_unrecorded tabName buf txn s
  rw [after,run] at same
  refine ⟨next,?_⟩
  rw [step,perform,after,bind_ok run]
  exact logged.append (Function.update_self ..) ok layout alone same ⟨free,buf,added⟩ rfl (by simp)

theorem Logged.update {buf : List Byte}
    (live : (f.contents rid).isSome = true) (size : buf.length = f.fileHdr.recordSize) :
    ∃ next, Logged tabName txn start (step tabName txn s (.update rid buf)) next := by
  obtain ⟨old,held⟩ := Option.isSome_iff_exists.mp live
  obtain ⟨seen,reading,logged,_⟩ := logged.read held
  obtain ⟨next,ok,layout,changed,run⟩ := updateRecord_live logged.opened logged.ok txn held size
  obtain ⟨locks,run,alone⟩ := logged.alone.locking exclusiveOnRecord_row run
  have same := updateRecord_unrecorded tabName rid buf txn seen
  rw [after,run] at same
  refine ⟨next,?_⟩
  rw [step,perform,after,bind_ok reading,bind_ok run]
  exact logged.append (Function.update_self ..) ok layout alone same ⟨held,buf,changed⟩ rfl
    fun _ => RmFile.contents_length logged.ok held

theorem Logged.delete (live : (f.contents rid).isSome = true) :
    ∃ next, Logged tabName txn start (step tabName txn s (.delete rid)) next := by
  obtain ⟨old,held⟩ := Option.isSome_iff_exists.mp live
  obtain ⟨seen,reading,logged,_⟩ := logged.read held
  obtain ⟨next,ok,layout,erased,run⟩ := deleteRecord_live logged.opened logged.ok txn held
  obtain ⟨locks,run,alone⟩ := logged.alone.locking exclusiveOnRecord_row run
  have same := deleteRecord_unrecorded tabName rid txn seen
  rw [after,run] at same
  refine ⟨next,?_⟩
  rw [step,perform,after,bind_ok reading,bind_ok run]
  exact logged.append (Function.update_self ..) ok layout alone same ⟨held,erased⟩ rfl
    fun _ => RmFile.contents_length logged.ok held

end Logged

theorem step_logged (s : Db) (op : RowOp) (logged : ∃ f, Logged tabName txn start s f) (valid : Valid tabName s op) :
    ∃ f, Logged tabName txn start (step tabName txn s op) f := by
  obtain ⟨f,logged⟩ := logged
  cases op with
  | insert buf => exact logged.insert (valid f logged.opened)
  | update rid buf => exact logged.update (valid f logged.opened).1 (valid f logged.opened).2
  | delete rid => exact logged.delete (valid f logged.opened)

/-- No entry of the write set, oldest first, names a row that a later entry deletes. -/
def Unnamed (log : List WriteRecord) : Prop :=
  log.Pairwise fun e w => w.wtype = .deleteTuple → e.tabName = w.tabName → e.rid ≠ w.rid

instance (log : List WriteRecord) : Decidable (Unnamed log) :=
  inferInstanceAs (Decidable (log.Pairwise _))

/-- What is left of the log, newest entry first, and the table in which the others are undone. -/
structure Undoing (tabName : String) (txn : TxnId) (start : Rid → Option (List Byte)) (log : List WriteRecord) (s : Db)
    (f : RmFile) : Prop where
  opened : s.files tabName = some f
  ok : f.Ok
  alone : Alone txn s.locks
  entries : ∀ w ∈ log, w.tabName = tabName ∧ (w.wtype ≠ .insertTuple → w.record.length = f.fileHdr.recordSize)
  place : ∃ now, History start (log.map entry) now ∧ InPlace (log.map entry) now f.contents

variable {w : WriteRecord} {earlier : List WriteRecord}

section Undoing

variable (undoing : Undoing tabName txn start (w :: earlier) s f)

include undoing

theorem Undoing.next {locks : LockState} {next : RmFile}
    (ok : next.Ok) (layout : f.SameLayout next) (alone : Alone txn locks)
    (undone : (entry w).Undone (earlier.map entry) f.contents next.contents) (accesses : List Access) :
    Undoing tabName txn start earlier ⟨locks,Function.update s.files tabName (some next),accesses⟩ next := by
  obtain ⟨now,⟨before,did,history⟩,place⟩ := undoing.place
  refine ⟨Function.update_self ..,ok,alone,fun e member => ?_,before,history,place.undo did undone⟩
  rw [layout.recordSize]
  exact undoing.entries e (List.mem_cons_of_mem _ member)

theorem Undoing.live (kept : w.wtype ≠ .deleteTuple) :
    ∃ data, f.contents w.rid = some data := by
  obtain ⟨now,⟨before,did,_⟩,place⟩ := undoing.place
  have here : ∃ data, now w.rid = some data := by
    unfold entry at did
    cases type : w.wtype with
    | deleteTuple => exact absurd type kept
    | insertTuple =>
      rw [type] at did
      obtain ⟨_,v,rfl⟩ := did
      exact ⟨v,Function.update_self ..⟩
    | updateTuple =>
      rw [type] at did
      obtain ⟨_,v,rfl⟩ := did
      exact ⟨v,Function.update_self ..⟩
  obtain ⟨data,held⟩ := here
  exact ⟨data,by simpa using place.held (List.mem_cons_self ..) (by simpa using held)⟩

theorem Undoing.undo (unnamed : w.wtype = .deleteTuple → ∀ e ∈ earlier, e.rid ≠ w.rid) :
    ∃ next g, Db.undo txn w s = (.ok (),next) ∧ Undoing tabName txn start earlier next g := by
  obtain ⟨table,record⟩ := undoing.entries w (List.mem_cons_self ..)
  cases type : w.wtype with
  | insertTuple =>
    obtain ⟨data,held⟩ := undoing.live (by simp [type])
    obtain ⟨g,ok,layout,erased,run⟩ := deleteRecord_live undoing.opened undoing.ok txn held
    obtain ⟨locks,run,alone⟩ := undoing.alone.locking exclusiveOnRecord_row run
    refine ⟨_,g,by rw [Db.undo,type,table]; exact run,undoing.next ok layout alone ?_ _⟩
    rw [entry,type]
    exact erased
  | updateTuple =>
    obtain ⟨data,held⟩ := undoing.live (by simp [type])
    obtain ⟨g,ok,layout,changed,run⟩ := updateRecord_live undoing.opened undoing.ok txn held (record (by simp [type]))
    obtain ⟨locks,run,alone⟩ := undoing.alone.locking exclusiveOnRecord_row run
    refine ⟨_,g,by rw [Db.undo,type,table]; exact run,undoing.next ok layout alone ?_ _⟩
    rw [entry,type]
    exact changed
  | deleteTuple =>
    obtain ⟨rid,_,g,_,free,_,_,_,ok,layout,added,run⟩ :=
      insertRecord_free undoing.opened undoing.ok txn (record (by simp [type]))
    obtain ⟨locks,run,alone⟩ := undoing.alone.locking exclusiveOnRecord_row run
    refine ⟨_,g,by rw [Db.undo,type,table]; exact bind_ok run,undoing.next ok layout alone ?_ _⟩
    rw [entry,type]
    refine ⟨⟨rid,free,added⟩,fun e member => ?_⟩
    obtain ⟨e,listed,rfl⟩ := List.mem_map.mp member
    rw [entry_key]
    exact unnamed type e listed

end Undoing

theorem Undoing.undoAll {log : List WriteRecord} (undoing : Undoing tabName txn start log s f) (unnamed : Unnamed log.reverse) :
    ∃ next g, Db.undoAll txn log s = (.ok (),next) ∧ Undoing tabName txn start [] next g := by
  induction log generalizing s f with
  | nil => exact ⟨s,f,rfl,undoing⟩
  | cons w earlier ih =>
    obtain ⟨here,later⟩ := List.pairwise_cons.mp (List.pairwise_reverse.mp unnamed)
    obtain ⟨middle,h,first,rest⟩ := undoing.undo fun deleted e member => by
      have table := (undoing.entries e (List.mem_cons_of_mem _ member)).1
      exact here e member deleted (table.trans (undoing.entries w (List.mem_cons_self ..)).1.symm)
    obtain ⟨next,g,run,done⟩ := ih rest (List.pairwise_reverse.mpr later)
    exact ⟨next,g,by rw [Db.undoAll,bind_ok first,run],done⟩

theorem Undoing.rows {f₀ : RmFile} (undoing : Undoing tabName txn f₀.contents [] s f) (ok : f₀.Ok) : f.rows.Perm f₀.rows := by
  obtain ⟨now,rfl,σ,moved,_⟩ := undoing.place
  have values := moved.perm f₀.liveRids_nodup f.liveRids_nodup (fun _ => ok.mem_liveRids) fun _ => undoing.ok.mem_liveRids
  have rows (g : RmFile) : g.rows = (g.liveRids.map g.contents).map (·.getD []) := by
    simp [RmFile.rows,RmFile.rowsBy,RmFile.rowAt]
  rw [rows,rows]
  exact values.map _

theorem abort_returns {next : Db} (run : Db.undoAll txn (s.locks.txns txn).writeSet.reverse s = (.ok (),next)) :
    (abort txn s).1 = .ok () ∧ ((abort txn).after s).files = next.files := by
  obtain ⟨locks,ended,_⟩ := Isolation.release_run txn .aborted rfl ((setTxn txn fun t => { t with writeSet := [] }).after next)
  have whole : abort txn s = (.ok (),⟨locks,next.files,next.log ++ [.ended txn]⟩) := by
    rw [abort,bind_ok (state_run s),bind_ok run]
    exact ended
  rw [after,whole]
  exact ⟨rfl,rfl⟩

/-- The operations of the transaction, one after the other. -/
def ran (tabName : String) (txn : TxnId) (s : Db) (ops : List RowOp) : Db := ops.foldl (step tabName txn) s

/-- `abort` brings the rows back if no row that is deleted was written before by the transaction. -/
theorem abort_restores_rows {size : Nat} (reachable : TableRuns.Reachable tabName size s) (opened : s.files tabName = some f)
    (alone : Alone txn s.locks) (fresh : (s.locks.txns txn).writeSet = []) (ops : List RowOp)
    (valid : Guarded (step tabName txn) (Valid tabName) s ops)
    (unnamed : Unnamed ((ran tabName txn s ops).locks.txns txn).writeSet) :
    (abort txn (ran tabName txn s ops)).1 = .ok () ∧
      ∃ g, ((abort txn).after (ran tabName txn s ops)).files tabName = some g ∧ g.rows.Perm f.rows := by
  obtain ⟨same,there,ok,_⟩ := reachable.fine
  obtain rfl : f = same := Option.mem_unique opened there
  have initial : Logged tabName txn f.contents s f := ⟨opened,ok,alone,by simp [fresh],by rw [fresh]; rfl⟩
  obtain ⟨last,logged⟩ := guarded_invariant (∃ f', Logged tabName txn f.contents · f') step_logged s ⟨f,initial⟩ ops valid
  have undoing : Undoing tabName txn f.contents ((ran tabName txn s ops).locks.txns txn).writeSet.reverse
      (ran tabName txn s ops) last :=
    ⟨logged.opened,logged.ok,logged.alone,fun w member => logged.entries w (List.mem_reverse.mp member),
      last.contents,logged.history,.refl _ _⟩
  obtain ⟨next,g,run,done⟩ := undoing.undoAll (by rwa [List.reverse_reverse])
  obtain ⟨returned,files⟩ := abort_returns run
  exact ⟨returned,g,files ▸ done.opened,done.rows ok⟩

end Log

def record (b : Byte) : TableRuns.Record 453 := ⟨List.replicate 453 b,List.length_replicate⟩

def twoRows : Db :=
  TableRuns.step "t" (TableRuns.step "t" TableRuns.newTable (.insert (record 0) none)) (.insert (record 1) none)

theorem twoRows_reachable : TableRuns.Reachable "t" 453 twoRows :=
  .next _ (.next _ TableRuns.newTable_reachable trivial) trivial

theorem twoRows_alone : Alone 1 twoRows.locks := ⟨fun _ _ => .inl ⟨rfl,rfl⟩,.inl rfl⟩

/-- A row is deleted, the other one changed, and a new row takes the slot that is free. -/
def slotTaken : List RowOp := [.delete ⟨1,0⟩,.update ⟨1,1⟩ (record 2).1,.insert (record 3).1]

theorem slotTaken_restored : ∃ f, twoRows.files "t" = some f ∧ Guarded (step "t" 1) (Valid "t") twoRows slotTaken ∧
    ((ran "t" 1 twoRows slotTaken).locks.txns 1).writeSet.map (·.rid) = [⟨1,0⟩,⟨1,1⟩,⟨1,0⟩] ∧
    (abort 1 (ran "t" 1 twoRows slotTaken)).1 = .ok () ∧
    ∃ g, ((abort 1).after (ran "t" 1 twoRows slotTaken)).files "t" = some g ∧ g.rows.Perm f.rows :=
  have valid : Guarded (step "t" 1) (Valid "t") twoRows slotTaken := by decide +kernel
  ⟨_,rfl,valid,by decide +kernel,abort_restores_rows twoRows_reachable rfl twoRows_alone rfl _ valid (by decide +kernel)⟩

/-- A row is deleted, and then the other one is changed and deleted. -/
def bothDeleted : List RowOp := [.delete ⟨1,0⟩,.update ⟨1,1⟩ (record 2).1,.delete ⟨1,1⟩]

/-- The changed row goes back into the first slot, and its old bytes into the second, which is free
by then: the change stays. -/
theorem change_survives_abort : Alone 1 twoRows.locks ∧ Guarded (step "t" 1) (Valid "t") twoRows bothDeleted ∧
    ∃ f g, twoRows.files "t" = some f ∧ ((abort 1).after (ran "t" 1 twoRows bothDeleted)).files "t" = some g ∧
      ¬ g.rows.Perm f.rows := by
  have first : (twoRows.files "t").map (fun f => f.rows.map List.head?) = some [some 0,some 1] := by decide +kernel
  have last : (((abort 1).after (ran "t" 1 twoRows bothDeleted)).files "t").map (fun g => g.rows.map List.head?) =
      some [some 2,some 0] := by decide +kernel
  obtain ⟨f,here,before⟩ := Option.map_eq_some_iff.mp first
  obtain ⟨g,there,after⟩ := Option.map_eq_some_iff.mp last
  refine ⟨twoRows_alone,by decide +kernel,f,g,here,there,fun perm => ?_⟩
  have heads := perm.map List.head?
  rw [before,after] at heads
  exact absurd heads (by decide)

end Rucbase.WriteSet
