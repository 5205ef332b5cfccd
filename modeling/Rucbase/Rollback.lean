import Rucbase.IndexContents
import Rucbase.RowCalls
import Rucbase.TableCreate
import Rucbase.WriteSet

/-! Aborting a transaction that ran INSERT, UPDATE and DELETE. The executors enter nothing into
the write set, so `abort` finds nothing to undo. -/
namespace Rucbase.Rollback

open Lib Lib.Prog SmManager WriteSet Db
open LockManager hiding step start

/-- The same for the whole system. -/
def Silent (s next : SmManager) : Prop := Unrecorded s.rows next.rows

theorem silent_frame : Frame Silent :=
  ⟨fun s => unrecorded_frame.refl s.rows,fun _ _ _ first second => unrecorded_frame.trans _ _ _ first second⟩

variable {clauses : List SetClause} {α β : Type}

theorem onRows_silent {call : DbCall α} (same : Within Unrecorded call) : Within Silent (onRows call) :=
  fun s => same s.rows

theorem lift_silent (x : Except RMDBError α) : Within Silent (SmManager.lift x) := by
  cases x with
  | ok a => exact silent_frame.pure a
  | error e => exact silent_frame.raise _

theorem onIndex_silent (name : Path) (call : IxHandle → Prog (IndexFile (List Byte)) RMDBError α) :
    Within Silent (onIndex name call) := by
  intro s
  unfold after onIndex
  split <;> exact fun _ => rfl

section Statements

variable (tabName : String) (txn : TxnId)

theorem insertEntries_silent (data : List Byte) (rid : Rid) (indexes : List IndexMeta) :
    Within Silent (insertEntries tabName data rid indexes) := by
  induction indexes with
  | nil => exact silent_frame.pure _
  | cons index rest ih => exact silent_frame.bind (onIndex_silent _ _) fun _ => ih

theorem deleteEntries_silent (data : List Byte) (indexes : List IndexMeta) :
    Within Silent (deleteEntries tabName data indexes) := by
  induction indexes with
  | nil => exact silent_frame.pure _
  | cons index rest ih => exact silent_frame.bind (onIndex_silent _ _) fun _ => ih

theorem insertExecutor_silent (junk : Nat → Byte) (values : List Value) :
    Within Silent (insertExecutor junk tabName values txn) := by
  refine silent_frame.bind silent_frame.state fun s => ?_
  refine silent_frame.bind (lift_silent _) fun tab => ?_
  split
  · exact lift_silent _
  refine silent_frame.bind (onRows_silent (fileOf_unrecorded tabName)) fun f => ?_
  refine silent_frame.bind (lift_silent _) fun data => ?_
  refine silent_frame.bind (onRows_silent (insertRecord_unrecorded tabName data txn)) fun rid => ?_
  exact insertEntries_silent tabName data rid tab.indexes

theorem updateRow_silent (tab : TabMeta) (clauses : List SetClause) (rid : Rid) :
    Within Silent (updateRow tab tabName clauses txn rid) := by
  refine silent_frame.bind (onRows_silent (getRecord_unrecorded tabName rid txn)) fun old => ?_
  refine silent_frame.bind (lift_silent _) fun data => ?_
  refine silent_frame.bind (deleteEntries_silent tabName data tab.indexes) fun _ => ?_
  refine silent_frame.bind (onRows_silent (updateRecord_unrecorded tabName rid data txn)) fun _ => ?_
  exact insertEntries_silent tabName data rid tab.indexes

theorem updateRows_silent (tab : TabMeta) (clauses : List SetClause) (rids : List Rid) :
    Within Silent (updateRows tab tabName clauses txn rids) := by
  induction rids with
  | nil => exact silent_frame.pure _
  | cons rid rest ih => exact silent_frame.bind (updateRow_silent tabName txn tab clauses rid) fun _ => ih

theorem updateExecutor_silent (clauses : List SetClause) (rids : List Rid) :
    Within Silent (updateExecutor tabName clauses rids txn) := by
  refine silent_frame.bind silent_frame.state fun s => ?_
  refine silent_frame.bind (lift_silent _) fun tab => ?_
  refine silent_frame.bind (onRows_silent (fileOf_unrecorded tabName)) fun _ => ?_
  exact updateRows_silent tabName txn tab clauses rids

theorem deleteRecords_silent (rids : List Rid) : Within Silent (deleteRecords tabName txn rids) := by
  induction rids with
  | nil => exact silent_frame.pure _
  | cons rid rest ih => exact silent_frame.bind (onRows_silent (deleteRecord_unrecorded tabName rid txn)) fun _ => ih

theorem deleteExecutor_silent (junk : Nat → Byte) (rids : List Rid) :
    Within Silent (deleteExecutor junk tabName rids txn) := by
  refine silent_frame.bind silent_frame.state fun s => ?_
  refine silent_frame.bind (lift_silent _) fun tab => ?_
  refine silent_frame.bind (onRows_silent (fileOf_unrecorded tabName)) fun f => ?_
  refine silent_frame.bind (deleteRecords_silent tabName txn rids) fun _ => ?_
  exact deleteEntries_silent tabName _ tab.indexes

end Statements

inductive Stmt where
  | insert (junk : Nat → Byte) (values : List Value)
  | update (clauses : List SetClause) (rids : List Rid)
  | delete (junk : Nat → Byte) (rids : List Rid)

def exec (tabName : String) (txn : TxnId) : Stmt → SmCall Unit
  | .insert junk values => insertExecutor junk tabName values txn
  | .update clauses rids => updateExecutor tabName clauses rids txn
  | .delete junk rids => deleteExecutor junk tabName rids txn

/-- One statement; one that throws is a step as well. -/
def step (tabName : String) (txn : TxnId) (s : SmManager) (stmt : Stmt) : SmManager := (exec tabName txn stmt).after s

theorem step_silent (tabName : String) (txn : TxnId) (s : SmManager) (stmt : Stmt) : Silent s (step tabName txn s stmt) := by
  cases stmt with
  | insert junk values => exact insertExecutor_silent tabName txn junk values s
  | update clauses rids => exact updateExecutor_silent tabName txn clauses rids s
  | delete junk rids => exact deleteExecutor_silent tabName txn junk rids s

/-- The statements of a transaction, then `abort`. -/
def aborted (tabName : String) (txn : TxnId) (s : SmManager) (stmts : List Stmt) : SmManager :=
  (onRows (abort txn)).after (stmts.foldl (step tabName txn) s)

theorem abort_files {s : Db} {txn : TxnId} (empty : (s.locks.txns txn).writeSet = []) :
    ((abort txn).after s).files = s.files := by
  obtain ⟨locks,run,_⟩ := Isolation.release_run txn .aborted rfl ((setTxn txn fun t => { t with writeSet := [] }).after s)
  have shape : (abort txn).after s =
      (release txn .aborted).after ((setTxn txn fun t => { t with writeSet := [] }).after s) := by
    unfold after abort
    rw [bind_ok (state_run s),empty]
    rfl
  rw [shape,after,run]
  rfl

/-- Whatever the statements were, `abort` undoes nothing of them. -/
theorem abort_keeps_statements {s : SmManager} {txn : TxnId} (empty : (s.rows.locks.txns txn).writeSet = [])
    (tabName : String) (stmts : List Stmt) :
    (aborted tabName txn s stmts).rows.files = (stmts.foldl (step tabName txn) s).rows.files ∧
    (aborted tabName txn s stmts).ihs = (stmts.foldl (step tabName txn) s).ihs := by
  have silent : Silent s (stmts.foldl (step tabName txn) s) :=
    run_invariant (Silent s) (fun now stmt before => silent_frame.trans _ _ _ before (step_silent tabName txn now stmt))
      s (silent_frame.refl s) stmts
  exact ⟨abort_files ((silent txn).trans empty),rfl⟩

def Refused (call : Call) (locks : LockState) : Prop := (call locks).1.isOk = false

instance (call : Call) (locks : LockState) : Decidable (Refused call locks) := inferInstanceAs (Decidable (_ = _))

/-- The lock on the slot that `insert_record` picks is refused. -/
def InsertRefused (f : RmFile) (txn : TxnId) (locks : LockState) : Prop :=
  ∀ made ∈ f.createPageHandle.toOption, Refused (lockExclusiveOnRecord txn
    ⟨made.1,Bitmap.firstBit false made.2.1 made.2.2.fileHdr.numRecordsPerPage⟩ made.2.2.fd) locks

/-- An UPDATE stops at its first row: it cannot be read, a column is unknown, or, with no index
touched before, it cannot be written. -/
def UpdateStops (tab : TabMeta) (f : RmFile) (clauses : List SetClause) (rid : Rid) (txn : TxnId) (locks : LockState) : Prop :=
  Refused (lockSharedOnRecord txn rid f.fd) locks ∨
  (∃ clause ∈ clauses, (tab.getCol clause.lhs.colName).isOk = false) ∨
  tab.indexes = [] ∧ Refused (lockExclusiveOnRecord txn rid f.fd) ((lockSharedOnRecord txn rid f.fd).after locks)

/-- The statement throws before it writes a row or an index, or has no row to write. A DELETE
without rows still removes a key. -/
def Idle (tabName : String) (txn : TxnId) (s : SmManager) (stmt : Stmt) : Prop :=
  ∀ tab ∈ s.db.tabs.find tabName, ∀ f ∈ s.rows.files tabName, match stmt with
    | .insert junk values => values.length = tab.cols.length →
        (makeRecord tab.cols values (allocated junk f.fileHdr.recordSize)).isOk = true → InsertRefused f txn s.rows.locks
    | .update clauses rids => ∀ rid ∈ rids.head?, UpdateStops tab f clauses rid txn s.rows.locks
    | .delete _ [] => tab.indexes = []
    | .delete _ (rid :: _) => Refused (lockExclusiveOnRecord txn rid f.fd) s.rows.locks

instance (f : RmFile) (txn : TxnId) (locks : LockState) : Decidable (InsertRefused f txn locks) :=
  inferInstanceAs (Decidable (∀ _ ∈ _, _))

instance (tab : TabMeta) (f : RmFile) (clauses : List SetClause) (rid : Rid) (txn : TxnId) (locks : LockState) :
    Decidable (UpdateStops tab f clauses rid txn locks) :=
  inferInstanceAs (Decidable (_ ∨ (∃ _ ∈ clauses, _) ∨ _ ∧ _))

instance (tabName : String) (txn : TxnId) (s : SmManager) : (stmt : Stmt) → Decidable (Idle tabName txn s stmt)
  | .insert _ _ => inferInstanceAs (Decidable (∀ _ ∈ _, ∀ _ ∈ _, _ → _ → InsertRefused _ _ _))
  | .update _ _ => inferInstanceAs (Decidable (∀ _ ∈ _, ∀ _ ∈ _, ∀ _ ∈ _, UpdateStops _ _ _ _ _ _))
  | .delete _ [] => inferInstanceAs (Decidable (∀ tab ∈ s.db.tabs.find tabName, ∀ _ ∈ _, tab.indexes = []))
  | .delete _ (_ :: _) => inferInstanceAs (Decidable (∀ _ ∈ _, ∀ _ ∈ _, Refused _ _))

/-- The catalog, the handles and the rows of the table stay. -/
structure SameTable (tabName : String) (s next : SmManager) : Prop where
  db : next.db = s.db
  ihs : next.ihs = s.ihs
  rows : ∀ f, s.rows.files tabName = some f → f.Ok →
    ∃ f', next.rows.files tabName = some f' ∧ f'.Ok ∧ f'.contents = f.contents

theorem sameTable_frame (tabName : String) : Frame (SameTable tabName) where
  refl _ := ⟨rfl,rfl,fun f here ok => ⟨f,here,ok,rfl⟩⟩
  trans _ _ _ first second := by
    refine ⟨second.db.trans first.db,second.ihs.trans first.ihs,fun f here ok => ?_⟩
    obtain ⟨f',here',ok',same'⟩ := first.rows f here ok
    obtain ⟨f'',here'',ok'',same''⟩ := second.rows f' here' ok'
    exact ⟨f'',here'',ok'',same''.trans same'⟩

variable {tabName : String} {txn : TxnId} {s : SmManager} {tab : TabMeta} {f : RmFile}

theorem sameTable_files {next : SmManager} (db : next.db = s.db) (ihs : next.ihs = s.ihs)
    (files : next.rows.files = s.rows.files) : SameTable tabName s next :=
  ⟨db,ihs,fun f here ok => ⟨f,by rw [files,here],ok,rfl⟩⟩

theorem setColumns_unknown {clause : SetClause} (member : clause ∈ clauses)
    (unknown : (tab.getCol clause.lhs.colName).isOk = false) (data : List Byte) :
    (setColumns tab clauses data).isOk = false := by
  induction clauses generalizing data with
  | nil => simp at member
  | cons first rest ih =>
    unfold setColumns
    cases found : tab.getCol first.lhs.colName with
    | error e => rfl
    | ok col =>
      rcases List.mem_cons.mp member with rfl | later
      · rw [found] at unknown
        cases unknown
      · exact ih later _

theorem isOk_false {ε : Type} {x : Except ε α} (failed : x.isOk = false) : ∃ e, x = .error e := by
  cases x with
  | ok a => cases failed
  | error e => exact ⟨e,rfl⟩

theorem Refused.run {call : Call} {locks : LockState} (refused : Refused call locks) :
    ∃ e next, call locks = (.error e,next) := by
  obtain ⟨e,failed⟩ := isOk_false refused
  exact ⟨e,_,Prod.ext failed rfl⟩

theorem lift_failed {x : Except RMDBError α} (failed : x.isOk = false) (rest : α → SmCall β) :
    ((SmManager.lift x >>= rest).after s) = s := by
  obtain ⟨e,rfl⟩ := isOk_false failed
  rfl

theorem unknown_after (unknown : s.db.tabs.find tabName = none) (rest : TabMeta → SmCall β) :
    ((SmManager.lift (s.db.getTable tabName) >>= rest).after s) = s :=
  lift_failed (by simp [DbMeta.getTable,unknown,Except.isOk,Except.toBool]) rest

theorem closed_after (closed : s.rows.files tabName = none) (rest : RmFile → SmCall β) :
    ((onRows (fileOf tabName) >>= rest).after s) = s := by
  have failed : onRows (fileOf tabName) s = (.error (.thrown .outOfRange),s) := by
    simp [onRows,fileOf,bind_run,closed,Except.mapError,DbError.raised]
  rw [after,bind_error failed]

theorem onRows_failed {call : DbCall α} {e : DbError} {next : Db} (run : call s.rows = (.error e,next)) :
    onRows call s = (.error e.raised,{ s with rows := next }) := by
  rw [onRows,run]
  rfl

theorem insertRecord_refused (here : s.rows.files tabName = some f) (refused : InsertRefused f txn s.rows.locks)
    (data : List Byte) : ∃ e next, insertRecord tabName data (some txn) s.rows = (.error e,next) ∧
      SameTable tabName s { s with rows := next } := by
  rw [insertRecord_run here (some txn) data]
  cases created : f.createPageHandle with
  | error e => exact ⟨_,_,rfl,(sameTable_frame tabName).refl s⟩
  | ok made =>
    obtain ⟨pageNo,page,grown⟩ := made
    obtain ⟨e,locks,failed⟩ := (refused (pageNo,page,grown) (by rw [created]; rfl)).run
    simp only [rowLock,failed,Except.map]
    refine ⟨_,_,rfl,rfl,rfl,fun f' here' ok => ?_⟩
    obtain rfl : f = f' := Option.mem_unique here here'
    obtain ⟨p,page',grown',created',fine,rows,_⟩ := RmFile.createPageHandle_ok ok
    obtain ⟨-,-,rfl⟩ : pageNo = p ∧ page = page' ∧ grown = grown' := by simpa [created] using created'
    exact ⟨grown,Function.update_self _ _ _,fine,rows⟩

theorem insert_idle {junk : Nat → Byte} {values : List Value} (idle : Idle tabName txn s (.insert junk values)) :
    SameTable tabName s ((insertExecutor junk tabName values txn).after s) := by
  have same := (sameTable_frame tabName).refl s
  rw [after,insertExecutor,bind_ok (state_run s)]
  cases known : s.db.tabs.find tabName with
  | none => rwa [← after,unknown_after known]
  | some tab =>
  rw [bind_ok (getTable_known known)]
  by_cases count : values.length ≠ tab.cols.length
  · rw [if_pos count]
    exact same
  rw [if_neg count]
  cases here : s.rows.files tabName with
  | none => rwa [← after,closed_after here]
  | some f =>
  rw [bind_ok (fileOf_open here)]
  cases made : makeRecord tab.cols values (allocated junk f.fileHdr.recordSize) with
  | error e => exact same
  | ok data =>
  have refused := idle tab known f here (not_not.mp count) (by rw [made]; rfl)
  obtain ⟨e,next,run,same⟩ := insertRecord_refused here refused data
  have storing : SmManager.lift (.ok data) s = (.ok data,s) := rfl
  rw [bind_ok storing,bind_error (onRows_failed run)]
  exact same

theorem updateRow_stops (here : s.rows.files tabName = some f) {rid : Rid}
    (stops : UpdateStops tab f clauses rid txn s.rows.locks) :
    ∃ e next, updateRow tab tabName clauses txn rid s = (.error e,next) ∧ SameTable tabName s next := by
  have reading := getRecord_run here (some txn) rid
  cases locked : lockSharedOnRecord txn rid f.fd s.rows.locks with
  | mk result locks =>
  cases result with
  | error e =>
    simp only [underLock,rowLock,locked,Except.map] at reading
    exact ⟨_,_,bind_error (onRows_failed reading),sameTable_files rfl rfl rfl⟩
  | ok _ =>
  cases fetched : f.fetchPageHandle rid.pageNo with
  | error e =>
    simp only [underLock,rowLock,locked,Except.map,fetched] at reading
    exact ⟨_,_,bind_error (onRows_failed reading),sameTable_files rfl rfl rfl⟩
  | ok page =>
  let data := RmPage.getSlot f.fileHdr page rid.slotNo.toNat
  let read : SmManager := { s with rows := ⟨locks,s.rows.files,s.rows.log ++ [.read txn tabName rid data]⟩ }
  have first : onRows (getRecord tabName rid (some txn)) s = (.ok data,read) := by
    simp only [underLock,rowLock,locked,Except.map,fetched] at reading
    rw [onRows,reading]
    rfl
  rw [updateRow,bind_ok first]
  cases new : setColumns tab clauses data with
  | error e => exact ⟨_,_,rfl,sameTable_files rfl rfl rfl⟩
  | ok data' =>
  rcases stops with refused | ⟨clause,member,unknown⟩ | ⟨none,refused⟩
  · simp [Refused,locked,Except.isOk,Except.toBool] at refused
  · have failed := setColumns_unknown member unknown data
    rw [new] at failed
    cases failed
  · rw [after,locked] at refused
    obtain ⟨e,locks',failed⟩ := refused.run
    have writing := updateRecord_run (s := read.rows) here (some txn) rid data'
    simp only [underLock,rowLock,failed,Except.map,read] at writing
    obtain ⟨name,cols,indexes⟩ := tab
    obtain rfl : indexes = [] := none
    have last : (onRows (updateRecord tabName rid data' (some txn)) >>= fun _ =>
        insertEntries tabName data' rid []) read = (.error _,_) := bind_error (onRows_failed writing)
    exact ⟨_,_,last,sameTable_files rfl rfl rfl⟩

theorem update_idle {rids : List Rid} (idle : Idle tabName txn s (.update clauses rids)) :
    SameTable tabName s ((updateExecutor tabName clauses rids txn).after s) := by
  have same := (sameTable_frame tabName).refl s
  rw [after,updateExecutor,bind_ok (state_run s)]
  cases known : s.db.tabs.find tabName with
  | none => rwa [← after,unknown_after known]
  | some tab =>
  rw [bind_ok (getTable_known known)]
  cases here : s.rows.files tabName with
  | none => rwa [← after,closed_after here]
  | some f =>
  rw [bind_ok (fileOf_open here)]
  cases rids with
  | nil => exact same
  | cons rid rest =>
  obtain ⟨e,next,run,same⟩ := updateRow_stops here (idle tab known f here rid rfl)
  rw [updateRows,bind_error run]
  exact same

theorem delete_idle {junk : Nat → Byte} {rids : List Rid} (idle : Idle tabName txn s (.delete junk rids)) :
    SameTable tabName s ((deleteExecutor junk tabName rids txn).after s) := by
  have same := (sameTable_frame tabName).refl s
  rw [after,deleteExecutor,bind_ok (state_run s)]
  cases known : s.db.tabs.find tabName with
  | none => rwa [← after,unknown_after known]
  | some tab =>
  rw [bind_ok (getTable_known known)]
  cases here : s.rows.files tabName with
  | none => rwa [← after,closed_after here]
  | some f =>
  rw [bind_ok (fileOf_open here)]
  cases rids with
  | nil =>
    have none : tab.indexes = [] := idle tab known f here
    rw [none]
    exact same
  | cons rid rest =>
  obtain ⟨e,locks,failed⟩ := Refused.run (idle tab known f here)
  have deleting := deleteRecord_run here (some txn) rid
  simp only [underLock,rowLock,failed,Except.map] at deleting
  have first : deleteRecords tabName txn (rid :: rest) s = (.error _,_) := bind_error (onRows_failed deleting)
  rw [bind_error first]
  exact sameTable_files rfl rfl rfl

theorem step_idle {stmt : Stmt} (idle : Idle tabName txn s stmt) : SameTable tabName s (step tabName txn s stmt) := by
  cases stmt with
  | insert junk values => exact insert_idle idle
  | update clauses rids => exact update_idle idle
  | delete junk rids => exact delete_idle idle

/-- The keys in the leaves of an index. -/
def indexKeys (s : SmManager) (name : Path) : List (List Byte) :=
  ((s.ihs name).map fun ih => (IndexTree.leafChain ih.file).map Prod.fst).getD []

/-- The table has the records and each of its indexes the keys it had before. -/
structure Restored (tabName : String) (s next : SmManager) : Prop where
  rows : ∀ f ∈ s.rows.files tabName, ∃ f' ∈ next.rows.files tabName, f'.rows.Perm f.rows
  keys : ∀ tab ∈ s.db.tabs.find tabName, ∀ index ∈ tab.indexes, ∀ key,
    key ∈ indexKeys next (indexName tabName index) ↔ key ∈ indexKeys s (indexName tabName index)

/-- A transaction whose statements wrote nothing is aborted. -/
theorem abort_restores {tabName : String} {txn : TxnId} {s : SmManager} (empty : (s.rows.locks.txns txn).writeSet = [])
    (ok : ∀ f ∈ s.rows.files tabName, f.Ok) (stmts : List Stmt)
    (idle : Guarded (step tabName txn) (Idle tabName txn) s stmts) : Restored tabName s (aborted tabName txn s stmts) := by
  have same : SameTable tabName s (stmts.foldl (step tabName txn) s) :=
    guarded_invariant (SameTable tabName s) (fun now stmt before holds =>
      (sameTable_frame tabName).trans _ _ _ before (step_idle holds)) s ((sameTable_frame tabName).refl s) stmts idle
  obtain ⟨files,ihs⟩ := abort_keeps_statements empty tabName stmts
  refine ⟨fun f here => ?_,fun tab _ index _ key => ?_⟩
  · obtain ⟨f',here',ok',contents⟩ := same.rows f here (ok f here)
    exact ⟨f',by rw [files]; exact here',RmFile.rowsBy_same (ok f here) ok' contents _⟩
  · rw [indexKeys,ihs,same.ihs,indexKeys]

def newTable : SmManager := (onRows (commit 1)).after wideTable

def oneInsert : List Stmt := [.insert (fun _ => 0) [.int 7,.str []]]

/-- The row is still there after the abort. -/
theorem oneInsert_kept : (newTable.rows.locks.txns 2).writeSet = [] ∧
    ¬Restored "t" newTable (aborted "t" 2 newTable oneInsert) := by
  refine ⟨by decide +kernel,fun restored => ?_⟩
  have before : (newTable.rows.files "t").map RmFile.rows = some [] := by decide +kernel
  have later : ((aborted "t" 2 newTable oneInsert).rows.files "t").map RmFile.rows =
      some [[7,0,0,0] ++ List.replicate 500 0] := by decide +kernel
  obtain ⟨f,here,none⟩ := Option.map_eq_some_iff.mp before
  obtain ⟨f',here',perm⟩ := restored.rows f here
  rw [here',Option.map_some,Option.some.injEq] at later
  rw [none,later] at perm
  exact absurd perm.length_eq (by decide)

/-- Values that do not fit, an unknown column and a DELETE without rows. -/
def mistakes : List Stmt :=
  [.insert (fun _ => 0) [.int 7],.insert (fun _ => 0) [.str [1],.str []],.update [⟨⟨"t","c"⟩,[1,0,0,0]⟩] [⟨1,0⟩],
    .delete (fun _ => 0) []]

theorem mistakes_restored : Guarded (step "t" 2) (Idle "t" 2) newTable mistakes ∧
    Restored "t" newTable (aborted "t" 2 newTable mistakes) := by
  have idle : Guarded (step "t" 2) (Idle "t" 2) newTable mistakes := by decide +kernel
  have files : newTable.rows.files = wideTable.rows.files := Isolation.commit_files 1 wideTable.rows
  have ok : ∀ f ∈ newTable.rows.files "t", f.Ok := by rw [files]; exact wideTable_ok
  exact ⟨idle,abort_restores (by decide +kernel) ok mistakes idle⟩

end Rucbase.Rollback
