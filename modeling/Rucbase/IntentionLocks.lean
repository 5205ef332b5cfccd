import Rucbase.SmManager
import Rucbase.TwoPhase

/-! Table locks over row locks. A row lock under a table lock of its transaction, in an
intention mode or a stronger one, makes table locks of other transactions notice it. -/
namespace Rucbase.IntentionLocks

open Lib Lib.Prog Db Isolation TwoPhase
open LockManager hiding step start

/-- The table modes that allow a row lock: any one for S, the writing ones for X. -/
def enough : LockMode → LockMode → Bool
  | .shared, _ => true
  | _, .intentionExclusive | _, .sIX | _, .exclusive => true
  | _, _ => false

/-- The transaction has a lock on the table that allows a row lock of the mode. -/
def HoldsTable (s : LockState) (txn : TxnId) (fd : Int) (mode : LockMode) : Prop :=
  ∃ r ∈ (s.queue (.ofTable fd)).requestQueue, r.txnId = txn ∧ enough mode r.lockMode = true

def RowsCovered (s : LockState) : Prop :=
  ∀ fd rid, ∀ r ∈ (s.queue (.ofRecord fd rid)).requestQueue, HoldsTable s r.txnId fd r.lockMode

/-! ### Requests -/

theorem table_ne_record (fd other : Int) (rid : Rid) : LockDataId.ofTable fd ≠ .ofRecord other rid := by
  simp [LockDataId.ofTable,LockDataId.ofRecord]

/-- A rule for tables whose upgrades allow what the old mode allowed. -/
structure TableRule (rule : LockRule) : Prop where
  sound : RuleSound rule
  raises : ∀ q old mode group shared ix, rule.own q old = .upgrade mode group shared ix →
    ∀ row, enough row old = true → enough row mode = true

/-- A rule for rows, with one mode. -/
structure RowRule (rule : LockRule) : Prop where
  sound : RuleSound rule
  raises : ∀ q old mode group shared ix, rule.own q old = .upgrade mode group shared ix → mode = rule.mode

theorem sharedOnRecord_row : RowRule sharedOnRecord := ⟨sharedOnRecord_sound,by simp [sharedOnRecord]⟩

theorem exclusiveOnRecord_row : RowRule exclusiveOnRecord :=
  ⟨exclusiveOnRecord_sound,fun _ _ _ _ _ _ own => exclusiveOnRecord_upgrade own⟩

theorem sharedOnTable_table : TableRule sharedOnTable := by
  refine ⟨sharedOnTable_sound,fun q old mode group shared ix own row allowed => ?_⟩
  simp only [sharedOnTable] at own
  split_ifs at own with _ is ix
  · obtain rfl := (OwnDecision.upgrade.inj own).1
    rw [is.1] at allowed
    cases row <;> simp_all [enough]
  · obtain rfl := (OwnDecision.upgrade.inj own).1
    cases row <;> simp [enough]

theorem exclusiveOnTable_table : TableRule exclusiveOnTable := by
  refine ⟨exclusiveOnTable_sound,fun q old mode group shared ix own row allowed => ?_⟩
  simp only [exclusiveOnTable] at own
  split_ifs at own
  obtain rfl := (OwnDecision.upgrade.inj own).1
  cases row <;> simp [enough]

theorem isOnTable_table : TableRule isOnTable := ⟨isOnTable_sound,by simp [isOnTable]⟩

theorem ixOnTable_table : TableRule ixOnTable := by
  refine ⟨ixOnTable_sound,fun q old mode group shared ix own row allowed => ?_⟩
  simp only [ixOnTable] at own
  split_ifs at own <;>
    (obtain rfl := (OwnDecision.upgrade.inj own).1; cases row <;> simp [enough])

/-! ### The hierarchy -/

/-- No table lock is lost or weakened. -/
def TablesKept (s next : LockState) : Prop :=
  ∀ txn fd mode, HoldsTable s txn fd mode → HoldsTable next txn fd mode

structure Hierarchy (s : LockState) : Prop where
  sound : Sound s
  tracked : ∀ txn, Tracked s txn
  rows : RowsCovered s

theorem acquire_record_tables (rule : LockRule) (txn : TxnId) (fd : Int) (rid : Rid) (s : LockState) :
    TablesKept s ((acquire rule txn (.ofRecord fd rid)).after s) := by
  rintro other table mode ⟨r,member,own,allowed⟩
  obtain ⟨kept,there,same,still | ⟨clash,_⟩⟩ := acquire_kept rule txn (.ofRecord fd rid) s member
  · exact ⟨kept,there,same.trans own,still ▸ allowed⟩
  · exact absurd clash (table_ne_record table fd rid)

variable {rule : LockRule} {mode : LockMode} {files : String → Option RmFile} {f : RmFile} {other : TxnId} {fd : Int}
  {id : LockDataId}

theorem acquire_table_tables (table : TableRule rule) (txn : TxnId) (fd : Int) (s : LockState) :
    TablesKept s ((acquire rule txn (.ofTable fd)).after s) := by
  rintro other fd' mode ⟨r,member,own,allowed⟩
  obtain ⟨kept,there,same,still | ⟨_,q,group,shared,ix,raised⟩⟩ :=
    acquire_kept rule txn (.ofTable fd) s member
  · exact ⟨kept,there,same.trans own,still ▸ allowed⟩
  · exact ⟨kept,there,same.trans own,table.raises q r.lockMode kept.lockMode group shared ix raised mode allowed⟩

theorem Hierarchy.works {s next : LockState} {txn : TxnId} (hierarchy : Hierarchy s) (works : Works txn s next)
    (rows : RowsCovered next) : Hierarchy next := by
  refine ⟨works.sound hierarchy.sound,fun other => ?_,rows⟩
  by_cases same : other = txn
  · exact same ▸ works.tracked (hierarchy.tracked txn)
  · exact works.aside.tracked same (hierarchy.tracked other)

theorem Hierarchy.acquire_table (table : TableRule rule) (txn : TxnId) (fd : Int) {s : LockState}
    (hierarchy : Hierarchy s) : Hierarchy ((acquire rule txn (.ofTable fd)).after s) := by
  refine hierarchy.works (acquire_works table.sound txn _ s) fun fd' rid r member => ?_
  rcases acquire_new rule txn (.ofTable fd) s member with old | ⟨clash,_⟩
  · exact acquire_table_tables table txn fd s _ _ _ (hierarchy.rows fd' rid r old)
  · exact absurd clash.symm (table_ne_record fd fd' rid)

/-- An active transaction has a table lock for row locks of the mode. -/
def Intends (s : LockState) (txn : TxnId) (fd : Int) (mode : LockMode) : Prop :=
  (s.txns txn).state.ended = false → HoldsTable s txn fd mode

theorem Hierarchy.acquire_record (row : RowRule rule) (txn : TxnId) (fd : Int) (rid : Rid) {s : LockState}
    (hierarchy : Hierarchy s) (intends : Intends s txn fd rule.mode) :
    Hierarchy ((acquire rule txn (.ofRecord fd rid)).after s) := by
  by_cases isOver : (s.txns txn).state.ended = true
  · rwa [after,acquire_ended isOver]
  refine hierarchy.works (acquire_works row.sound txn _ s) fun fd' rid' r member => ?_
  apply acquire_record_tables rule txn fd rid s
  rcases acquire_new rule txn (.ofRecord fd rid) s member with old | ⟨here,own,fresh⟩
  · exact hierarchy.rows fd' rid' r old
  · obtain rfl : fd' = fd := by simpa [LockDataId.ofRecord] using congrArg LockDataId.fd here
    have mode : r.lockMode = rule.mode := by
      rcases fresh with mode | ⟨q,old,group,shared,ix,raised⟩
      · exact mode
      · exact row.raises q old r.lockMode group shared ix raised
    rw [own,mode]
    exact intends (Bool.eq_false_iff.mpr isOver)

theorem Hierarchy.ended {s next : LockState} {txn : TxnId} (hierarchy : Hierarchy s) (sound : Sound next)
    (aside : Aside txn s next) (gone : ∀ id, ¬Holds next txn id) (tracked : Tracked next txn) : Hierarchy next := by
  have member_iff {id : LockDataId} {r : LockRequest} (apart : r.txnId ≠ txn) :
      r ∈ (next.queue id).requestQueue ↔ r ∈ (s.queue id).requestQueue := by
    have same := congrArg (r ∈ ·) (aside.requests id)
    simpa [requestsBut,apart] using same
  refine ⟨sound,fun other => ?_,fun fd rid r member => ?_⟩
  · by_cases same : other = txn
    · exact same ▸ tracked
    · exact aside.tracked same (hierarchy.tracked other)
  · have apart : r.txnId ≠ txn := fun own => gone _ ⟨r,member,own⟩
    obtain ⟨table,there,own,allowed⟩ := hierarchy.rows fd rid r ((member_iff apart).mp member)
    exact ⟨table,(member_iff (own ▸ apart)).mpr there,own,allowed⟩

/-! ### Record operations -/

/-- The transaction has what it needs for row locks in the table. -/
def IntendsOn (s : Db) (txn : TxnId) (tabName : String) (mode : LockMode) : Prop :=
  ∀ f ∈ s.files tabName, Intends s.locks txn f.fd mode

/-- What a record operation leaves of the things its transaction needs. -/
structure Kept (s next : Db) : Prop where
  tables : TablesKept s.locks next.locks
  fds : ∀ tabName, (next.files tabName).map RmFile.fd = (s.files tabName).map RmFile.fd
  ended : ∀ txn, (next.locks.txns txn).state.ended = (s.locks.txns txn).state.ended

theorem Kept.refl (s : Db) : Kept s s := ⟨fun _ _ _ held => held,fun _ => rfl,fun _ => rfl⟩

theorem Kept.trans {a b c : Db} (first : Kept a b) (second : Kept b c) : Kept a c :=
  ⟨fun _ _ _ held => second.tables _ _ _ (first.tables _ _ _ held),
    fun tabName => (second.fds tabName).trans (first.fds tabName),
    fun txn => (second.ended txn).trans (first.ended txn)⟩

theorem Kept.intends {s next : Db} (kept : Kept s next) {txn : TxnId} {tabName : String}
    (intends : IntendsOn s txn tabName mode) : IntendsOn next txn tabName mode := by
  intro g there active
  have fd := kept.fds tabName
  rw [Option.mem_def.mp there] at fd
  obtain ⟨f,here,same⟩ := Option.map_eq_some_iff.mp fd.symm
  rw [kept.ended] at active
  exact kept.tables _ _ _ (same ▸ intends f here active)

/-- A record operation asks for one row lock at most, in its own table. -/
structure RowCall (rule : LockRule) (txn : TxnId) (tabName : String) (s next : Db) : Prop where
  fds : ∀ tabName, (next.files tabName).map RmFile.fd = (s.files tabName).map RmFile.fd
  locks : next.locks = s.locks ∨
    ∃ f ∈ s.files tabName, ∃ rid, next.locks = (acquire rule txn (.ofRecord f.fd rid)).after s.locks

theorem RowCall.kept {txn : TxnId} {tabName : String} {s next : Db} (call : RowCall rule txn tabName s next) :
    Kept s next := by
  rcases call.locks with same | ⟨f,_,rid,asked⟩
  · exact ⟨fun _ _ _ held => same ▸ held,call.fds,fun _ => by rw [same]⟩
  · exact ⟨asked ▸ acquire_record_tables rule txn f.fd rid s.locks,call.fds,
      fun other => by rw [asked,acquire_ended_same]⟩

theorem RowCall.hierarchy {txn : TxnId} {tabName : String} {s next : Db} (call : RowCall rule txn tabName s next)
    (row : RowRule rule) (intends : IntendsOn s txn tabName rule.mode) (hierarchy : Hierarchy s.locks) :
    Hierarchy next.locks := by
  rcases call.locks with same | ⟨f,here,rid,asked⟩
  · rwa [same]
  · rw [asked]
    exact hierarchy.acquire_record row txn f.fd rid (intends f here)

theorem fds_update {tabName : String} {g : RmFile} (here : files tabName = some f) (fd : g.fd = f.fd) (other : String) :
    (Function.update files tabName (some g) other).map RmFile.fd = (files other).map RmFile.fd := by
  by_cases same : other = tabName
  · simp [same,here,fd]
  · simp [same]

section Operations

variable (s : Db) (txn : TxnId) (tabName : String) (rid : Rid) (buf : List Byte)

/-- The lock of such a call, when no descriptor changes. -/
theorem RowCall.locked  {result : Except TransactionAbortException Unit} {locks : LockState} {log : List Access}
    (here : s.files tabName = some f)
    (locked : rowLock (fun txn rid fd => acquire rule txn (.ofRecord fd rid)) (some txn) rid f.fd s.locks = (result,locks))
    (fds : ∀ other, (files other).map RmFile.fd = (s.files other).map RmFile.fd) : RowCall rule txn tabName s ⟨locks,files,log⟩ :=
  ⟨fds,.inr ⟨f,here,rid,(Prod.mk.inj locked).2.symm⟩⟩

theorem getRecord_call : RowCall sharedOnRecord txn tabName s ((getRecord tabName rid (some txn)).after s) :=
  row_cases (P := fun r => RowCall sharedOnRecord txn tabName s r.2) (fileOf_bind_none · _)
    (fun _ here => getRecord_run here (some txn) rid) ⟨fun _ => rfl,.inl rfl⟩
    (fun _ _ _ _ here locked => .locked s txn tabName rid here locked fun _ => rfl)
    fun _ _ _ here locked _ => .locked s txn tabName rid here locked fun _ => rfl

theorem updateRecord_call :
    RowCall exclusiveOnRecord txn tabName s ((updateRecord tabName rid buf (some txn)).after s) :=
  row_cases (P := fun r => RowCall exclusiveOnRecord txn tabName s r.2) (fileOf_bind_none · _)
    (fun _ here => updateRecord_run here (some txn) rid buf) ⟨fun _ => rfl,.inl rfl⟩
    (fun _ _ _ _ here locked => .locked s txn tabName rid here locked fun _ => rfl)
    fun _ _ _ here locked _ => .locked s txn tabName rid here locked (fds_update here rfl)

theorem deleteRecord_call :
    RowCall exclusiveOnRecord txn tabName s ((deleteRecord tabName rid (some txn)).after s) :=
  row_cases (P := fun r => RowCall exclusiveOnRecord txn tabName s r.2) (fileOf_bind_none · _)
    (fun _ here => deleteRecord_run here (some txn) rid) ⟨fun _ => rfl,.inl rfl⟩
    (fun _ _ _ _ here locked => .locked s txn tabName rid here locked fun _ => rfl)
    fun _ _ _ here locked _ => .locked s txn tabName rid here locked (fds_update here RmFile.eraseRecord_layout.2.2)

theorem insertRecord_call :
    RowCall exclusiveOnRecord txn tabName s ((insertRecord tabName buf (some txn)).after s) := by
  unfold after
  cases here : s.files tabName with
  | none =>
    unfold insertRecord
    rw [fileOf_bind_none here]
    exact ⟨fun _ => rfl,.inl rfl⟩
  | some f =>
    rw [insertRecord_run here]
    cases created : f.createPageHandle with
    | error e => exact ⟨fun _ => rfl,.inl rfl⟩
    | ok made =>
      obtain ⟨p,page,next⟩ := made
      have fd : next.fd = f.fd := RmFile.createPageHandle_fd created
      simp only [fd]
      cases locked : rowLock lockExclusiveOnRecord (some txn)
          ⟨p,Bitmap.firstBit false page next.fileHdr.numRecordsPerPage⟩ f.fd s.locks with
      | mk result locks =>
        obtain ⟨_,rfl⟩ := Prod.mk.inj locked
        cases result with
        | error e => exact ⟨fds_update here fd,.inr ⟨f,here,_,rfl⟩⟩
        | ok _ => exact ⟨fds_update here (RmFile.storeRecord_layout.2.2.trans fd),.inr ⟨f,here,_,rfl⟩⟩

theorem undo_call (w : WriteRecord) : RowCall exclusiveOnRecord txn w.tabName s ((undo txn w).after s) := by
  unfold undo
  cases w.wtype with
  | insertTuple => exact deleteRecord_call s txn w.tabName w.rid
  | deleteTuple =>
    have inserted := insertRecord_call s txn w.tabName w.record
    unfold after at inserted ⊢
    simp only [bind_run]
    match insertRecord w.tabName w.record (some txn) s, inserted with
    | (.ok _,_), inserted => exact inserted
    | (.error _,_), inserted => exact inserted
  | updateTuple => exact updateRecord_call s txn w.tabName w.rid w.record

end Operations

/-! ### Commit and abort -/

/-- The hierarchy is kept, and with it the table locks of every transaction but one. -/
def StaysBut (txn : TxnId) (s next : LockState) : Prop :=
  Hierarchy next ∧ ∀ other fd mode, other ≠ txn → HoldsTable s other fd mode → HoldsTable next other fd mode

theorem Aside.holdsTable {txn : TxnId} {s next : LockState} (aside : Aside txn s next) (apart : other ≠ txn)
    (held : HoldsTable s other fd mode) :
    HoldsTable next other fd mode := by
  obtain ⟨r,member,own,allowed⟩ := held
  have listed : r ∈ requestsBut s txn (.ofTable fd) :=
    List.mem_filter.mpr ⟨member,by simpa [own] using apart⟩
  rw [← aside.requests] at listed
  exact ⟨r,(List.mem_filter.mp listed).1,own,allowed⟩

theorem release_stays (txn : TxnId) (final : TransactionState) (isOver : final.ended = true) {s : Db}
    (hierarchy : Hierarchy s.locks) : StaysBut txn s.locks ((release txn final).after s).locks := by
  obtain ⟨locks,run,aside,gone,emptied⟩ :=
    release_whole final s hierarchy.sound (hierarchy.tracked txn)
  obtain ⟨_,same,sound,_⟩ := release_run txn final isOver s
  have same : locks = _ := congrArg (fun r => r.2.locks) (run.symm.trans same)
  rw [after,run]
  have tracked : Tracked locks txn :=
    ⟨fun id => iff_of_false (by simp [emptied]) (gone id),fun some => absurd emptied some⟩
  exact ⟨hierarchy.ended (same ▸ sound hierarchy.sound) aside gone tracked,
    fun _ _ _ apart => Aside.holdsTable aside apart⟩

theorem Hierarchy.setTxn {s : Db} (hierarchy : Hierarchy s.locks) (txn : TxnId) (change : Transaction → Transaction)
    (lockSet : ∀ t, (change t).lockSet = t.lockSet) (phase : ∀ t, (change t).state = t.state) :
    Hierarchy ((setTxn txn change).after s).locks := by
  refine ⟨hierarchy.sound,fun other => ?_,hierarchy.rows⟩
  refine (hierarchy.tracked other).same ?_ (fun _ => .rfl) ?_
  all_goals
    by_cases same : other = txn
    · subst other
      simp [Db.setTxn,after,lockSet,phase]
    · simp [Db.setTxn,after,same]

theorem undoAll_stays {txn : TxnId} (writes : List WriteRecord) {s : Db} (hierarchy : Hierarchy s.locks)
    (intends : ∀ w ∈ writes, IntendsOn s txn w.tabName .exclusive) :
    Hierarchy ((undoAll txn writes).after s).locks ∧ Kept s ((undoAll txn writes).after s) := by
  induction writes generalizing s with
  | nil => exact ⟨hierarchy,Kept.refl s⟩
  | cons w rest ih =>
    have call := undo_call s txn w
    have first := call.hierarchy exclusiveOnRecord_row (intends w (by simp)) hierarchy
    have kept := call.kept
    unfold after at first kept ih ⊢
    rw [undoAll,bind_run]
    generalize undo txn w s = ran at first kept ⊢
    rcases ran with ⟨e | _,next⟩
    · exact ⟨first,kept⟩
    · obtain ⟨later,whole⟩ := ih first fun other member => kept.intends (intends other (by simp [member]))
      exact ⟨later,kept.trans whole⟩

theorem commit_stays (txn : TxnId) {s : Db} (hierarchy : Hierarchy s.locks) :
    StaysBut txn s.locks ((commit txn).after s).locks := by
  exact release_stays txn .committed rfl
    (hierarchy.setTxn txn (fun t => { t with writeSet := [] }) (fun _ => rfl) fun _ => rfl)

theorem abort_stays {txn : TxnId} {s : Db} (hierarchy : Hierarchy s.locks)
    (intends : ∀ w ∈ (s.locks.txns txn).writeSet, IntendsOn s txn w.tabName .exclusive) :
    StaysBut txn s.locks ((abort txn).after s).locks := by
  obtain ⟨undone,kept⟩ := undoAll_stays (s.locks.txns txn).writeSet.reverse hierarchy fun w member =>
    intends w (List.mem_reverse.mp member)
  unfold after at undone kept ⊢
  simp only [abort,bind_run,state_run]
  generalize undoAll txn (s.locks.txns txn).writeSet.reverse s = ran at undone kept ⊢
  rcases ran with ⟨e | _,next⟩
  · exact ⟨undone,fun _ _ _ _ => kept.tables _ _ _⟩
  · obtain ⟨ended,others⟩ := release_stays txn .aborted rfl
      (undone.setTxn txn (fun t => { t with writeSet := [] }) (fun _ => rfl) fun _ => rfl)
    exact ⟨ended,fun other fd mode apart held => others other fd mode apart (kept.tables _ _ _ held)⟩

/-! ### Statements that create and drop -/

section Statements

open SmManager

def Climbs (s next : SmManager) : Prop :=
  Hierarchy s.rows.locks → Hierarchy next.rows.locks ∧ TablesKept s.rows.locks next.rows.locks

theorem climbs_frame : Frame Climbs where
  refl _ hierarchy := ⟨hierarchy,fun _ _ _ held => held⟩
  trans _ _ _ first second hierarchy :=
    have ⟨middle,kept⟩ := first hierarchy
    have ⟨final,still⟩ := second middle
    ⟨final,fun _ _ _ held => still _ _ _ (kept _ _ _ held)⟩

theorem climbs_same {α : Type} {call : SmCall α} (same : ∀ s, (call.after s).rows.locks = s.rows.locks) :
    Within Climbs call := fun s => by
  rw [Climbs,same]
  exact climbs_frame.refl s

theorem onPool_climbs {α : Type} (call : BufferPool.PoolCall α) : Within Climbs (onPool call) :=
  climbs_same fun _ => rfl

theorem lift_climbs {α : Type} (x : Except RMDBError α) : Within Climbs (SmManager.lift x) :=
  climbs_same fun _ => by cases x <;> rfl

theorem setTable_climbs (tabName : String) (tab : TabMeta) : Within Climbs (setTable tabName tab) :=
  climbs_same fun _ => rfl

theorem flushMeta_climbs : Within Climbs flushMeta := climbs_same fun _ => rfl

theorem lockTable_climbs (table : TableRule rule) (txn : TxnId) (tabName : String) :
    Within Climbs (lockTable (fun txn fd => acquire rule txn (.ofTable fd)) txn tabName) := by
  intro s hierarchy
  unfold after
  cases here : s.rows.files tabName with
  | none =>
    rw [lockTable_none _ _ _ _ here]
    exact climbs_frame.refl s hierarchy
  | some f =>
    rw [lockTable_locks _ _ _ _ here]
    exact ⟨hierarchy.acquire_table table txn f.fd,acquire_table_tables table txn f.fd s.rows.locks⟩

theorem exclusive_climbs (txn : TxnId) (tabName : String) :
    Within Climbs (lockTable lockExclusiveOnTable txn tabName) :=
  lockTable_climbs exclusiveOnTable_table txn tabName

theorem shared_climbs (txn : TxnId) (tabName : String) :
    Within Climbs (lockTable lockSharedOnTable txn tabName) :=
  lockTable_climbs sharedOnTable_table txn tabName

theorem createTable_climbs (tabName : String) (colDefs : List ColDef) (txn : TxnId) :
    Within Climbs (createTable tabName colDefs (some txn)) := by
  refine climbs_frame.bind climbs_frame.state fun s => ?_
  split
  · exact lift_climbs _
  refine climbs_frame.bind (onPool_climbs _) fun _ => ?_
  refine climbs_frame.bind (setTable_climbs _ _) fun _ => ?_
  refine climbs_frame.bind (onPool_climbs _) fun _ => ?_
  refine climbs_frame.bind (climbs_same fun _ => rfl) fun _ => ?_
  exact climbs_frame.bind (exclusive_climbs txn tabName) fun _ => flushMeta_climbs

theorem dropIndex_climbs (tabName : String) (colNames : List String) (txn : TxnId) :
    Within Climbs (dropIndex tabName colNames (some txn)) := by
  refine climbs_frame.bind (shared_climbs txn tabName) fun _ => ?_
  refine climbs_frame.bind climbs_frame.state fun s => ?_
  dsimp only
  split
  · split
    · exact climbs_frame.raise _
    · refine climbs_frame.bind (onPool_climbs _) fun _ => ?_
      refine climbs_frame.bind (onPool_climbs _) fun _ => ?_
      refine climbs_frame.bind climbs_frame.state fun _ => ?_
      refine climbs_frame.bind (lift_climbs _) fun tab => ?_
      split
      · refine climbs_frame.bind (setTable_climbs _ _) fun _ => ?_
        exact climbs_frame.bind (climbs_same fun _ => rfl) fun _ => flushMeta_climbs
      · exact lift_climbs _
  · exact lift_climbs _

theorem dropIndexes_climbs (tabName : String) (txn : TxnId) (position rounds : Nat) :
    Within Climbs (dropIndexes tabName (some txn) position rounds) := by
  induction rounds generalizing position with
  | zero => exact climbs_frame.pure ()
  | succ rounds ih =>
    refine climbs_frame.bind climbs_frame.state fun s => ?_
    refine climbs_frame.bind (lift_climbs _) fun tab => ?_
    split
    · exact climbs_frame.raise _
    · exact climbs_frame.bind (dropIndex_climbs _ _ _) fun _ => ih _

theorem dropTable_climbs (tabName : String) (txn : TxnId) :
    Within Climbs (dropTable tabName (some txn)) := by
  refine climbs_frame.bind climbs_frame.state fun s => ?_
  split
  · refine climbs_frame.bind (exclusive_climbs txn tabName) fun _ => ?_
    refine climbs_frame.bind (lift_climbs _) fun tab => ?_
    split
    · exact climbs_frame.raise _
    · refine climbs_frame.bind (onPool_climbs _) fun _ => ?_
      refine climbs_frame.bind (onPool_climbs _) fun _ => ?_
      refine climbs_frame.bind (dropIndexes_climbs _ _ _ _) fun _ => ?_
      exact climbs_frame.bind (climbs_same fun _ => rfl) fun _ => flushMeta_climbs
  · exact lift_climbs _

/-! `create_index` reads rows under the table lock it has taken. -/

/-- A part of the statement that relies on the table lock. -/
def Reads (txn : TxnId) (tabName : String) (s next : SmManager) : Prop :=
  Hierarchy s.rows.locks → IntendsOn s.rows txn tabName .shared →
    Hierarchy next.rows.locks ∧ Kept s.rows next.rows

variable (txn : TxnId) (tabName : String)

theorem reads_frame : Frame (Reads txn tabName) where
  refl s hierarchy _ := ⟨hierarchy,Kept.refl s.rows⟩
  trans _ _ _ first second hierarchy intends :=
    have ⟨middle,kept⟩ := first hierarchy intends
    have ⟨final,still⟩ := second middle (kept.intends intends)
    ⟨final,kept.trans still⟩

theorem reads_same {α : Type} {call : SmCall α} (same : ∀ s, (call.after s).rows = s.rows) :
    Within (Reads txn tabName) call := fun s => by
  rw [Reads,same]
  exact (reads_frame txn tabName).refl s

theorem lift_reads {α : Type} (x : Except RMDBError α) : Within (Reads txn tabName) (SmManager.lift x) :=
  reads_same txn tabName fun _ => by cases x <;> rfl

theorem insertEntry_reads (ih : IxHandle) (key : List Byte) (rid : Rid) :
    Within (Reads txn tabName) (SmManager.insertEntry ih key rid) :=
  reads_same txn tabName fun s => by
    unfold SmManager.insertEntry
    split <;> rfl

theorem fileOf_reads : Within (Reads txn tabName) (onRows (Db.fileOf tabName)) :=
  reads_same txn tabName fun s => by
    cases here : s.rows.files tabName <;> simp [onRows,fileOf,after,bind_run,here]

theorem getRecord_reads (rid : Rid) :
    Within (Reads txn tabName) (onRows (Db.getRecord tabName rid (some txn))) := fun s hierarchy intends =>
  have call := getRecord_call s.rows txn tabName rid
  ⟨call.hierarchy sharedOnRecord_row intends hierarchy,call.kept⟩

theorem buildIndex_reads (cols : List ColMeta) (rounds : Nat) (rid : Rid) (ih : IxHandle) :
    Within (Reads txn tabName) (buildIndex tabName cols txn rounds rid ih) := by
  induction rounds generalizing rid ih with
  | zero => exact (reads_frame txn tabName).pure ih
  | succ rounds again =>
    unfold buildIndex
    split
    · exact (reads_frame txn tabName).pure ih
    refine (reads_frame txn tabName).bind (getRecord_reads txn tabName rid) fun record => ?_
    refine (reads_frame txn tabName).bind (insertEntry_reads txn tabName _ _ _) fun ih => ?_
    refine (reads_frame txn tabName).bind (fileOf_reads txn tabName) fun f => ?_
    exact (reads_frame txn tabName).bind (lift_reads txn tabName _) fun next => again next ih

theorem fillIndex_reads (page0 : IxNode (List Byte)) (cols : List ColMeta) (handle : Handle) :
    Within (Reads txn tabName) (fillIndex page0 tabName cols txn handle) := by
  refine (reads_frame txn tabName).bind (reads_frame txn tabName).state fun s => ?_
  refine (reads_frame txn tabName).bind (fileOf_reads txn tabName) fun f => ?_
  exact (reads_frame txn tabName).bind (lift_reads txn tabName _) fun first => buildIndex_reads txn tabName _ _ _ _

theorem lockTable_intends {s next : SmManager} (run : lockTable lockSharedOnTable txn tabName s = (.ok (),next)) :
    IntendsOn next.rows txn tabName .shared := by
  intro f there active
  cases here : s.rows.files tabName with
  | none =>
    rw [lockTable_none _ _ _ _ here] at run
    cases run
  | some g =>
    rw [lockTable_locks _ _ _ _ here] at run
    obtain ⟨result,rfl⟩ := Prod.mk.inj run
    obtain rfl : g = f := Option.mem_unique here there
    change (((acquire sharedOnTable txn (.ofTable g.fd)).after s.rows.locks).txns txn).state.ended = false at active
    rw [acquire_ended_same] at active
    cases fine : (lockSharedOnTable txn g.fd s.rows.locks).1 with
    | error e => simp [fine,Except.map,Except.mapError] at result
    | ok granted =>
      obtain ⟨r,member,own,_⟩ := acquired active fine
      exact ⟨r,member,own,rfl⟩

theorem createIndex_climbs (page0 : IxNode (List Byte)) (colNames : List String) :
    Within Climbs (createIndex page0 tabName colNames (some txn)) := by
  have frame := reads_frame txn tabName
  have same {α : Type} {call : SmCall α} := @reads_same txn tabName α call
  refine (shared_climbs txn tabName).seq_ok (S := Reads txn tabName) (fun _ => ?_) ?_
  · refine frame.bind frame.state fun s => ?_
    refine frame.bind (lift_reads txn tabName _) fun tab => ?_
    dsimp only
    split
    · exact lift_reads txn tabName _
    refine frame.bind (lift_reads txn tabName _) fun cols => ?_
    refine frame.bind (same fun _ => rfl) fun _ => ?_
    refine frame.bind (same fun _ => rfl) fun handle => ?_
    refine frame.bind (fillIndex_reads txn tabName page0 cols handle) fun ih => ?_
    refine frame.bind (same fun _ => rfl) fun _ => ?_
    exact frame.bind (same fun _ => rfl) fun _ => same fun _ => rfl
  · intro s _ next final run reads hierarchy
    obtain ⟨locked,kept⟩ := shared_climbs txn tabName s hierarchy
    rw [after,run] at locked kept
    obtain ⟨read,still⟩ := reads locked (lockTable_intends txn tabName run)
    exact ⟨read,fun _ _ _ held => still.tables _ _ _ (kept _ _ _ held)⟩

end Statements

/-! ### Any interleaving -/

/-- The four requests for a table. -/
inductive TableLock where
  | shared
  | exclusive
  | intentionShared
  | intentionExclusive
  deriving DecidableEq

def TableLock.request : TableLock → TxnId → Int → Call
  | .shared => lockSharedOnTable
  | .exclusive => lockExclusiveOnTable
  | .intentionShared => lockISOnTable
  | .intentionExclusive => lockIXOnTable

theorem TableLock.climbs (lock : TableLock) (txn : TxnId) (tabName : String) :
    Within Climbs (SmManager.lockTable lock.request txn tabName) := by
  cases lock with
  | shared => exact shared_climbs txn tabName
  | exclusive => exact exclusive_climbs txn tabName
  | intentionShared => exact lockTable_climbs isOnTable_table txn tabName
  | intentionExclusive => exact lockTable_climbs ixOnTable_table txn tabName

/-- What a transaction does: record operations and its end, requests for tables, statements
that create and drop. -/
inductive Act where
  | row (step : TxnStep)
  | lock (lock : TableLock) (tabName : String)
  | createTable (tabName : String) (colDefs : List ColDef)
  | dropTable (tabName : String)
  | createIndex (page0 : IxNode (List Byte)) (tabName : String) (colNames : List String)
  | dropIndex (tabName : String) (colNames : List String)

def step (s : SmManager) : TxnId × Act → SmManager
  | (txn,.row call) => { s with rows := Db.step s.rows (txn,call) }
  | (txn,.lock lock tabName) => (SmManager.lockTable lock.request txn tabName).after s
  | (txn,.createTable tabName colDefs) => (SmManager.createTable tabName colDefs (some txn)).after s
  | (txn,.dropTable tabName) => (SmManager.dropTable tabName (some txn)).after s
  | (txn,.createIndex page0 tabName colNames) =>
    (SmManager.createIndex page0 tabName colNames (some txn)).after s
  | (txn,.dropIndex tabName colNames) => (SmManager.dropIndex tabName colNames (some txn)).after s

/-- The row lock a record operation takes. -/
def rowMode : TxnStep → Option (String × LockMode)
  | .get tabName _ => some (tabName,.shared)
  | .insert tabName _ | .update tabName _ _ | .delete tabName _ => some (tabName,.exclusive)
  | _ => none

/-- An active transaction has its table lock before a record operation, and before it
undoes its writes. -/
def IntentionFirst (s : SmManager) : TxnId × Act → Prop
  | (txn,.row .abort) => ∀ w ∈ (s.rows.locks.txns txn).writeSet, IntendsOn s.rows txn w.tabName .exclusive
  | (txn,.row call) => ∀ need ∈ rowMode call, IntendsOn s.rows txn need.1 need.2
  | _ => True

instance (s : LockState) (txn : TxnId) (fd : Int) (mode : LockMode) : Decidable (HoldsTable s txn fd mode) :=
  inferInstanceAs (Decidable (∃ r ∈ (s.queue (.ofTable fd)).requestQueue, _))

instance (s : Db) (txn : TxnId) (tabName : String) (mode : LockMode) : Decidable (IntendsOn s txn tabName mode) :=
  inferInstanceAs (Decidable (∀ f ∈ s.files tabName, _ → HoldsTable _ _ _ _))

instance (s : SmManager) (a : TxnId × Act) : Decidable (IntentionFirst s a) := by
  unfold IntentionFirst
  split <;> infer_instance

/-- The transactions that end in a step. -/
def Ends (txn : TxnId) : TxnId × Act → Prop
  | (other,.row .commit) | (other,.row .abort) => other = txn
  | _ => False

/-- The table locks of transactions that do not end are kept. -/
def Stays (a : TxnId × Act) (s next : LockState) : Prop :=
  Hierarchy next ∧ ∀ txn fd mode, ¬Ends txn a → HoldsTable s txn fd mode → HoldsTable next txn fd mode

theorem Climbs.stays {s next : SmManager} (climbs : Climbs s next) (hierarchy : Hierarchy s.rows.locks)
    (a : TxnId × Act) : Stays a s.rows.locks next.rows.locks :=
  have ⟨kept,tables⟩ := climbs hierarchy
  ⟨kept,fun txn fd mode _ => tables txn fd mode⟩

theorem RowCall.stays {txn : TxnId} {tabName : String} {s next : Db} (call : RowCall rule txn tabName s next)
    (row : RowRule rule) (intends : IntendsOn s txn tabName rule.mode) (hierarchy : Hierarchy s.locks)
    (a : TxnId × Act) :
    Stays a s.locks next.locks :=
  ⟨call.hierarchy row intends hierarchy,fun txn fd mode _ => call.kept.tables txn fd mode⟩

theorem step_stays (s : SmManager) (a : TxnId × Act) (hierarchy : Hierarchy s.rows.locks) (first : IntentionFirst s a) :
    Stays a s.rows.locks (step s a).rows.locks := by
  obtain ⟨txn,act⟩ := a
  cases act with
  | row call =>
    cases call with
    | get tabName rid =>
      exact (getRecord_call s.rows txn tabName rid).stays sharedOnRecord_row (first _ rfl) hierarchy _
    | insert tabName buf =>
      exact (insertRecord_call s.rows txn tabName buf).stays exclusiveOnRecord_row (first _ rfl) hierarchy _
    | update tabName rid buf =>
      exact (updateRecord_call s.rows txn tabName rid buf).stays exclusiveOnRecord_row (first _ rfl) hierarchy _
    | delete tabName rid =>
      exact (deleteRecord_call s.rows txn tabName rid).stays exclusiveOnRecord_row (first _ rfl) hierarchy _
    | append w => exact ⟨hierarchy.setTxn txn _ (fun _ => rfl) fun _ => rfl,fun _ _ _ _ held => held⟩
    | commit =>
      obtain ⟨kept,tables⟩ := commit_stays txn hierarchy
      exact ⟨kept,fun other _ _ others => tables _ _ _ (Ne.symm others)⟩
    | abort =>
      obtain ⟨kept,tables⟩ := abort_stays hierarchy first
      exact ⟨kept,fun other _ _ others => tables _ _ _ (Ne.symm others)⟩
  | lock lock tabName => exact (lock.climbs txn tabName s).stays hierarchy _
  | createTable tabName colDefs => exact (createTable_climbs tabName colDefs txn s).stays hierarchy _
  | dropTable tabName => exact (dropTable_climbs tabName txn s).stays hierarchy _
  | createIndex page0 tabName colNames => exact (createIndex_climbs txn tabName page0 colNames s).stays hierarchy _
  | dropIndex tabName colNames => exact (dropIndex_climbs tabName colNames txn s).stays hierarchy _

/-! ### Refused table locks -/

theorem granted_compatible (ruleSound : RuleSound rule) {txn : TxnId} {s : LockState} (sound : Sound s)
    (granted : (acquire rule txn id s).1 = .ok true) {r : LockRequest} (member : r ∈ (s.queue id).requestQueue)
    (apart : r.txnId ≠ txn) :
    ∃ mode, compatible mode r.lockMode = true ∧ (mode = rule.mode ∨ (∃ q, rule.own q mode = .keep) ∨
      ∃ q old group shared ix, rule.own q old = .upgrade mode group shared ix) := by
  have active : (s.txns txn).state.ended = false := by
    by_contra isOver
    rw [acquire_ended (Bool.not_eq_false _ ▸ isOver)] at granted
    exact Bool.noConfusion (Except.ok.inj granted)
  obtain ⟨mine,there,own,mode⟩ := acquired active granted
  have still : r ∈ (((acquire rule txn id).after s).queue id).requestQueue := by
    have listed : r ∈ requestsBut s txn id := List.mem_filter.mpr ⟨member,by simpa using apart⟩
    rw [← (acquire_aside rule txn id s).requests] at listed
    exact (List.mem_filter.mp listed).1
  have symm : Std.Symm (fun a b : LockRequest => compatible a.lockMode b.lockMode = true) :=
    ⟨fun a b fits => by rwa [compatible_comm]⟩
  have fits := ((acquire_sound ruleSound txn id s sound).queue id).pairwise.forall there still
    (fun same => apart (by rw [← own,same]))
  exact ⟨mine.lockMode,fits,mode⟩

theorem exclusive_refused {s : LockState} (sound : Sound s) {txn : TxnId} (held : HoldsTable s txn fd mode)
    (apart : other ≠ txn) : (lockExclusiveOnTable other fd s).1 ≠ .ok true := by
  intro granted
  obtain ⟨r,member,own,_⟩ := held
  obtain ⟨mine,fits,shape⟩ := granted_compatible exclusiveOnTable_sound sound granted member (own ▸ apart.symm)
  have isX : mine = .exclusive := by
    rcases shape with rfl | ⟨q,kept⟩ | ⟨q,old,group,shared,ix,raised⟩
    · rfl
    · simp only [exclusiveOnTable] at kept
      split_ifs at kept with isX
      exact isX
    · simp only [exclusiveOnTable] at raised
      split_ifs at raised
      exact (OwnDecision.upgrade.inj raised).1.symm
  subst isX
  cases theirs : r.lockMode <;> simp [theirs,compatible] at fits

theorem shared_refused {s : LockState} (sound : Sound s) {txn : TxnId} (held : HoldsTable s txn fd .exclusive)
    (apart : other ≠ txn) :
    (lockSharedOnTable other fd s).1 ≠ .ok true := by
  intro granted
  obtain ⟨r,member,own,allowed⟩ := held
  obtain ⟨mine,fits,shape⟩ := granted_compatible sharedOnTable_sound sound granted member (own ▸ apart.symm)
  have reads : mine = .shared ∨ mine = .exclusive ∨ mine = .sIX := by
    rcases shape with rfl | ⟨q,kept⟩ | ⟨q,old,group,shared,ix,raised⟩
    · exact .inl rfl
    · simp only [sharedOnTable] at kept
      split_ifs at kept with reads
      exact reads
    · simp only [sharedOnTable] at raised
      split_ifs at raised
      · exact .inl (OwnDecision.upgrade.inj raised).1.symm
      · exact .inr (.inr (OwnDecision.upgrade.inj raised).1.symm)
  rcases reads with rfl | rfl | rfl <;> cases theirs : r.lockMode <;>
    simp [theirs,compatible,enough] at fits allowed

theorem acquire_active {txn : TxnId} {s : LockState} (active : (s.txns txn).state.ended = false)
    (denied : (acquire rule txn id s).1 ≠ .ok true) :
    ∃ e, (acquire rule txn id s).1 = .error e := by
  have outcome := acquire_outcome rule txn id s
  generalize (acquire rule txn id s).1 = result at outcome denied
  generalize (acquire rule txn id s).2 = next at outcome
  cases outcome with
  | ended isOver => rw [active] at isOver; contradiction
  | shrinking => exact ⟨_,rfl⟩
  | refused => exact ⟨_,rfl⟩
  | blocked => exact ⟨_,rfl⟩
  | kept => exact absurd rfl denied
  | upgraded => exact absurd rfl denied
  | granted => exact absurd rfl denied

/-- No other transaction gets X on the table or drops it, nor S if the lock is for writing. -/
structure Refuses (s : SmManager) (txn : TxnId) (fd : Int) (mode : LockMode) : Prop where
  exclusive : ∀ other, other ≠ txn → (lockExclusiveOnTable other fd s.rows.locks).1 ≠ .ok true
  shared : mode = .exclusive → ∀ other, other ≠ txn → (lockSharedOnTable other fd s.rows.locks).1 ≠ .ok true
  drop : ∀ other tabName, other ≠ txn → (s.rows.locks.txns other).state.ended = false →
    (s.rows.files tabName).map RmFile.fd = some fd →
    (∃ e, (SmManager.dropTable tabName (some other) s).1 = .error (.thrown e)) ∧
      (step s (other,.dropTable tabName)).db = s.db ∧
      (step s (other,.dropTable tabName)).rows.files = s.rows.files

theorem HoldsTable.refuses {s : SmManager} {txn : TxnId}  (sound : Sound s.rows.locks)
    (held : HoldsTable s.rows.locks txn fd mode) : Refuses s txn fd mode where
  exclusive _ apart := exclusive_refused sound held apart
  shared isX _ apart := shared_refused sound (isX ▸ held) apart
  drop other tabName apart active file := by
    obtain ⟨f,here,rfl⟩ := Option.map_eq_some_iff.mp file
    unfold step after SmManager.dropTable
    simp only [bind_run,state_run]
    by_cases isTable : s.db.isTable tabName = true
    · obtain ⟨e,refused⟩ := acquire_active active (exclusive_refused sound held apart)
      have thrown := SmManager.lockTable_locks lockExclusiveOnTable other tabName s here
      rw [show (lockExclusiveOnTable other f.fd s.rows.locks).1 = .error e from refused] at thrown
      rw [if_pos isTable,bind_run,thrown]
      exact ⟨⟨_,rfl⟩,rfl,rfl⟩
    · rw [if_neg isTable]
      exact ⟨⟨_,rfl⟩,rfl,rfl⟩

theorem run_hierarchy {s : SmManager} (hierarchy : Hierarchy s.rows.locks) (run : List (TxnId × Act))
    (first : Guarded step IntentionFirst s run) : Hierarchy (run.foldl step s).rows.locks :=
  guarded_invariant (fun s => Hierarchy s.rows.locks) (fun s a kept allowed => (step_stays s a kept allowed).1)
    s hierarchy run first

theorem run_holdsTable {s : SmManager} (hierarchy : Hierarchy s.rows.locks) (run : List (TxnId × Act))
    (first : Guarded step IntentionFirst s run) {txn : TxnId} (running : ∀ a ∈ run, ¬Ends txn a)
    (held : HoldsTable s.rows.locks txn fd mode) :
    HoldsTable (run.foldl step s).rows.locks txn fd mode := by
  induction run generalizing s with
  | nil => exact held
  | cons a rest ih =>
    obtain ⟨kept,tables⟩ := step_stays s a hierarchy first.1
    exact ih kept first.2 (fun b member => running b (by simp [member]))
      (tables txn fd mode (running a (by simp)) held)

theorem start_hierarchy : Hierarchy (LockManager.start fun _ => {}) where
  sound := run_sound _ []
  tracked txn := TxnManager.start_inv.idle txn rfl
  rows fd rid r member := by simp [LockManager.start,LockState.queue] at member

theorem IntentionFirst.needs {s : SmManager} {txn : TxnId} {call : TxnStep} {need : String × LockMode}
    (first : IntentionFirst s (txn,.row call)) (takes : rowMode call = some need) :
    IntendsOn s.rows txn need.1 need.2 := by
  cases call with
  | abort => simp [rowMode] at takes
  | _ => exact first need takes

/-- If transactions take their intention locks first, every row lock is under a table lock,
and a table lock of another transaction that would conflict with a row access is refused
until the transaction of that access ends. -/
theorem intention_locks_exclude (s : SmManager) (fresh : s.rows.locks = LockManager.start fun _ => {})
    (run : List (TxnId × Act)) (first : Guarded step IntentionFirst s run) :
    RowsCovered (run.foldl step s).rows.locks ∧
    (∀ fd rid, ∀ r ∈ ((run.foldl step s).rows.locks.queue (.ofRecord fd rid)).requestQueue,
      Refuses (run.foldl step s) r.txnId fd r.lockMode) ∧
    ∀ before txn call later need f, run = before ++ (txn,.row call) :: later → rowMode call = some need →
      (before.foldl step s).rows.files need.1 = some f →
      ((before.foldl step s).rows.locks.txns txn).state.ended = false →
      (∀ a ∈ later, ¬Ends txn a) → Refuses (run.foldl step s) txn f.fd need.2 := by
  have start : Hierarchy s.rows.locks := fresh ▸ start_hierarchy
  have hierarchy := run_hierarchy start run first
  refine ⟨hierarchy.rows,fun fd rid r member => (hierarchy.rows fd rid r member).refuses hierarchy.sound,?_⟩
  rintro before txn call later need f rfl takes here active running
  obtain ⟨ahead,access,rest⟩ := Guarded.append first
  have held := access.needs takes f here active
  have now := run_hierarchy start before ahead
  have quiet : ¬Ends txn (txn,.row call) := by cases call <;> simp [rowMode,Ends] at takes ⊢
  have still : ∀ a ∈ (txn,.row call) :: later, ¬Ends txn a := List.forall_mem_cons.mpr ⟨quiet,running⟩
  rw [List.foldl_append]
  rw [List.foldl_append] at hierarchy
  exact (run_holdsTable now ((txn,.row call) :: later) ⟨access,rest⟩ still held).refuses hierarchy.sound

def oneTable : List (TxnId × Act) := [(1,.createTable "t" [⟨"a",.int,4⟩]),(1,.row .commit)]

def openInsert : List (TxnId × Act) := oneTable ++ [(2,.row (.insert "t" [1,0,0,0]))]

/-- The insertion leaves a row lock under no table lock, and transaction 3 drops the table. -/
theorem open_insert_dropped :
    ¬RowsCovered (openInsert.foldl step .noTables).rows.locks ∧
    ((openInsert.foldl step .noTables).rows.locks.txns 2).state = .growing ∧
    (lockExclusiveOnTable 3 4 (openInsert.foldl step .noTables).rows.locks).1 = .ok true ∧
    (lockSharedOnTable 3 4 (openInsert.foldl step .noTables).rows.locks).1 = .ok true ∧
    ((openInsert.foldl step .noTables).rows.files "t").map RmFile.fd = some 4 ∧
    (SmManager.dropTable "t" (some 3) (openInsert.foldl step .noTables)).1 = .ok () := by
  refine ⟨fun covered => ?_,by decide +kernel,by decide +kernel,by decide +kernel,by decide +kernel,
    by decide +kernel⟩
  have held : HoldsTable (openInsert.foldl step .noTables).rows.locks 2 4 .exclusive :=
    covered 4 ⟨1,0⟩ ⟨2,.exclusive,true⟩ (by decide +kernel)
  exact absurd held (by decide +kernel)

/-- Both transactions take their intention locks. -/
def lockedInsert : List (TxnId × Act) :=
  oneTable ++ [(2,.lock .intentionExclusive "t"),(2,.row (.insert "t" [1,0,0,0])),
    (3,.lock .intentionShared "t"),(3,.row (.get "t" ⟨1,0⟩)),(3,.dropTable "t")]

theorem lockedInsert_refuses :
    Guarded step IntentionFirst .noTables lockedInsert ∧
    RowsCovered (lockedInsert.foldl step .noTables).rows.locks ∧
    Refuses (lockedInsert.foldl step .noTables) 2 4 .exclusive := by
  have first : Guarded step IntentionFirst .noTables lockedInsert := by decide +kernel
  obtain ⟨covered,rows,_⟩ := intention_locks_exclude .noTables rfl lockedInsert first
  exact ⟨first,covered,rows 4 ⟨1,0⟩ ⟨2,.exclusive,true⟩ (by decide +kernel)⟩

end Rucbase.IntentionLocks
