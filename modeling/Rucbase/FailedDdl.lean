import Rucbase.IndexCoverage

/-! CREATE TABLE, CREATE INDEX and DROP INDEX that throw. Nothing is taken back: a statement leaves
the catalog and the files alone if it throws before it creates or removes its first file. -/
namespace Rucbase.FailedDdl

open Lib Lib.Prog SmManager IndexCoverage BufferPool DiskManager
open LockManager hiding step start

inductive Ddl where
  | createTable (tabName : String) (colDefs : List ColDef) (context : Option TxnId)
  | createIndex (page0 : IxNode (List Byte)) (tabName : String) (colNames : List String) (context : Option TxnId)
  | dropIndex (tabName : String) (colNames : List String) (context : Option TxnId)

def exec : Ddl → SmCall Unit
  | .createTable tabName colDefs context => createTable tabName colDefs context
  | .createIndex page0 tabName colNames context => createIndex page0 tabName colNames context
  | .dropIndex tabName colNames context => dropIndex tabName colNames context

/-- The catalog in memory and on disk, the handles, the maps of open files and the files there are. -/
structure Unchanged (s next : SmManager) : Prop where
  db : next.db = s.db
  metaFile : next.metaFile = s.metaFile
  fhs : next.rows.files = s.rows.files
  ihs : next.ihs = s.ihs
  path2fd : next.pool.disk.path2fd = s.pool.disk.path2fd
  fd2path : next.pool.disk.fd2path = s.pool.disk.fd2path
  files : next.pool.disk.isFile = s.pool.disk.isFile

theorem unchanged_frame : Frame Unchanged where
  refl _ := ⟨rfl,rfl,rfl,rfl,rfl,rfl,rfl⟩
  trans _ _ _ first second := ⟨second.db.trans first.db,second.metaFile.trans first.metaFile,second.fhs.trans first.fhs,
    second.ihs.trans first.ihs,second.path2fd.trans first.path2fd,second.fd2path.trans first.fd2path,
    second.files.trans first.files⟩

def LockRefused (s : SmManager) (tabName : String) (txn : TxnId) : Prop :=
  ∀ f ∈ s.rows.files tabName, (lockSharedOnTable txn f.fd s.rows.locks).1.isOk = false

instance (s : SmManager) (tabName : String) (txn : TxnId) : Decidable (LockRefused s tabName txn) :=
  inferInstanceAs (Decidable (∀ _ ∈ _, _))

/-- The statement is refused before the first file is created or removed. -/
def Early (s : SmManager) : Ddl → Prop
  | .createTable tabName colDefs _ => s.db.isTable tabName = true ∨
      (recordSize colDefs < 1 ∨ recordSize colDefs > rmMaxRecordSize) ∨ s.pool.disk.isFile tabName = true
  | .createIndex _ tabName colNames context => ∀ txn ∈ context, LockRefused s tabName txn ∨
      s.pool.disk.isFile (getIndexName tabName colNames) = true ∨
      ∀ tab ∈ s.db.tabs.find tabName, (colNames.mapM tab.getCol).isOk = false
  | .dropIndex tabName colNames context => ∀ txn ∈ context, LockRefused s tabName txn ∨
      s.pool.disk.isFile (getIndexName tabName colNames) = false ∨
      ∀ ih ∈ s.ihs (getIndexName tabName colNames), (IxManager.closeIndex ih.fd ih.file.hdr s.pool).1.isOk = false

instance (s : SmManager) : (ddl : Ddl) → Decidable (Early s ddl)
  | .createTable _ _ _ => inferInstanceAs (Decidable (_ ∨ _ ∨ _))
  | .createIndex _ _ _ _ => inferInstanceAs (Decidable (∀ _ ∈ _, _ ∨ _ ∨ ∀ _ ∈ _, _))
  | .dropIndex _ _ _ => inferInstanceAs (Decidable (∀ _ ∈ _, _ ∨ _ ∨ ∀ _ ∈ _, _))

def Keeps (s next : SmManager) : Prop := DirGrows s.pool.disk next.pool.disk

theorem keeps_frame : Frame Keeps :=
  ⟨fun _ => dirGrows_frame.refl _,fun _ _ _ first second => dirGrows_frame.trans _ _ _ first second⟩

variable {α : Type} {f : RmFile} {request : TxnId → Int → Call}

theorem onPool_keeps {call : BufferPool.PoolCall α} (grows : Within Grows call) : Within Keeps (onPool call) :=
  fun s => grows s.pool

theorem spared_keeps {call : SmCall α} (spared : Within Spared call) : Within Keeps call :=
  fun s => (spared s).grows

theorem appeared {s next : SmManager} {path : Path} (missing : s.pool.disk.isFile path = false)
    (there : next.pool.disk.isFile path = true) : ¬Unchanged s next := fun same =>
  Bool.false_ne_true (missing.symm.trans ((congrFun same.files path).symm.trans there))

section Made

variable (path : Path)

theorem createFile_made (d : DiskManager) : ((DiskManager.createFile path).after d).isFile path = true := by
  by_cases there : d.isFile path = true
  · simp [DiskManager.createFile,after,bind_run,there]
  · rw [DiskManager.createFile,after,bind_ok (state_run d),if_neg there]
    simp [DiskManager.isFile,Os.creat,Os.openInode]

theorem made_first {rest : Unit → BufferPool.PoolCall α} (grows : ∀ a, Within Grows (rest a)) (s : BufferPool) :
    ((onDisk (DiskManager.createFile path) >>= rest).after s).disk.isFile path = true := by
  refine bind_after (P := fun next : BufferPool => next.disk.isFile path = true) (createFile_made path s.disk) fun a next run => ?_
  have made : next.disk.isFile path = true := by
    have there := createFile_made path s.disk
    rwa [← congrArg (fun p => p.2.disk) run]
  exact grows a next path made

theorem rmCreateFile_made {recordSize : Int} (valid : ¬(recordSize < 1 ∨ recordSize > rmMaxRecordSize)) (s : BufferPool) :
    ((RmManager.createFile path recordSize).after s).disk.isFile path = true := by
  obtain ⟨rest,shape,grows⟩ := rmCreateFile_parts path valid
  rw [shape]
  exact made_first path grows s

theorem ixCreateIndex_made (cols : List ColMeta) (s : BufferPool) :
    ((IxManager.createIndex path cols).after s).disk.isFile path = true := by
  obtain ⟨rest,shape,grows⟩ := createIndex_parts path cols
  rw [shape]
  exact made_first path grows s

theorem made_statement {β : Type} {call : BufferPool.PoolCall α} {rest : α → SmCall β} {s : SmManager}
    (made : (call.after s.pool).disk.isFile path = true) (keeps : ∀ a, Within Keeps (rest a)) :
    ((onPool call >>= rest).after s).pool.disk.isFile path = true := by
  refine bind_after (P := fun next : SmManager => next.pool.disk.isFile path = true) made fun a next run => ?_
  refine keeps a next path ?_
  rwa [← congrArg (fun p => p.2.pool.disk) run]

end Made

section CreateTable

variable {s : SmManager} {tabName : String} {colDefs : List ColDef} {context : Option TxnId}

theorem createTable_early (early : Early s (.createTable tabName colDefs context)) :
    Unchanged s ((createTable tabName colDefs context).after s) := by
  rw [after,createTable,bind_ok (state_run s)]
  by_cases known : s.db.isTable tabName = true
  · rw [if_pos known]
    exact unchanged_frame.refl s
  rw [if_neg known]
  have refused : ∃ e, RmManager.createFile tabName (recordSize colDefs) s.pool = (.error e,s.pool) := by
    rw [RmManager.createFile]
    by_cases invalid : recordSize colDefs < 1 ∨ recordSize colDefs > rmMaxRecordSize
    · rw [if_pos invalid]
      exact ⟨_,rfl⟩
    · have there := (early.resolve_left known).resolve_left invalid
      have exists_ : onDisk (DiskManager.createFile tabName) s.pool = (.error (.fileExists tabName),s.pool) := by
        rw [onDisk,DiskManager.createFile,bind_ok (state_run s.pool.disk),if_pos there]
        rfl
      rw [if_neg invalid]
      exact ⟨_,bind_error exists_⟩
  obtain ⟨e,refused⟩ := refused
  have thrown : onPool (RmManager.createFile tabName (recordSize colDefs)) s = (.error (DbError.rmdb e).raised,s) := by
    rw [onPool,refused]
    rfl
  rw [bind_error thrown]
  exact unchanged_frame.refl s

theorem createTable_late (late : ¬Early s (.createTable tabName colDefs context)) :
    ¬Unchanged s ((createTable tabName colDefs context).after s) := by
  obtain ⟨known,late⟩ := not_or.mp late
  obtain ⟨valid,missing⟩ := not_or.mp late
  refine appeared (Bool.eq_false_iff.mpr missing) ?_
  rw [after,createTable,bind_ok (state_run s),if_neg known,← after]
  refine made_statement tabName (rmCreateFile_made tabName valid s.pool) fun _ => ?_
  refine keeps_frame.bind (Within.update fun s => dirGrows_frame.refl _) fun _ => ?_
  refine keeps_frame.bind (onPool_keeps (rmOpenFile_grows tabName)) fun handle => ?_
  refine keeps_frame.bind (Within.update fun s => dirGrows_frame.refl _) fun _ => ?_
  cases context with
  | none => exact Within.update fun s => dirGrows_frame.refl _
  | some txn =>
    exact keeps_frame.bind (spared_keeps (lockTable_spared _ _ _)) fun _ => Within.update fun s => dirGrows_frame.refl _

end CreateTable

section CreateIndex

variable {s : SmManager} {page0 : IxNode (List Byte)} {tabName : String} {colNames : List String} {txn : TxnId}

theorem locked_unchanged (s : SmManager) (locks : LockState) : Unchanged s { s with rows := { s.rows with locks := locks } } :=
  ⟨rfl,rfl,rfl,rfl,rfl,rfl,rfl⟩

theorem lockTable_cases (request : TxnId → Int → Call) (txn : TxnId) (here : s.rows.files tabName = some f) :
    ∃ locks, (request txn f.fd s.rows.locks).1.isOk = false ∧
        (∃ e, lockTable request txn tabName s = (.error e,{ s with rows := { s.rows with locks := locks } })) ∨
      (request txn f.fd s.rows.locks).1.isOk = true ∧
        lockTable request txn tabName s = (.ok (),{ s with rows := { s.rows with locks := locks } }) := by
  rw [lockTable_locks request txn tabName s here]
  cases request txn f.fd s.rows.locks with
  | mk result locks =>
    cases result with
    | error e => exact ⟨locks,.inl ⟨rfl,_,rfl⟩⟩
    | ok granted => exact ⟨locks,.inr ⟨rfl,rfl⟩⟩

theorem after_lock  {rest : SmCall α} {P : SmManager → Prop} (unchanged : P s)
    (refused : ∀ locks, P { s with rows := { s.rows with locks := locks } })
    (granted : ∀ f, s.rows.files tabName = some f → (request txn f.fd s.rows.locks).1.isOk = true → ∀ locks,
      lockTable request txn tabName s = (.ok (),{ s with rows := { s.rows with locks := locks } }) →
      P ((lockTable request txn tabName >>= fun _ => rest).after s)) :
    P ((lockTable request txn tabName >>= fun _ => rest).after s) := by
  cases here : s.rows.files tabName with
  | none =>
    rw [after,bind_error (lockTable_none request txn tabName s here)]
    exact unchanged
  | some f =>
    rcases lockTable_cases request txn here with ⟨locks,⟨_,e,run⟩ | ⟨fine,run⟩⟩
    · rw [after,bind_error run]
      exact refused locks
    · exact granted f here fine locks run

theorem createIndex_early (early : Early s (.createIndex page0 tabName colNames (some txn))) :
    Unchanged s ((createIndex page0 tabName colNames (some txn)).after s) := by
  refine after_lock (unchanged_frame.refl s) (locked_unchanged s) fun f here granted locks lock => ?_
  have same := locked_unchanged s locks
  generalize { s with rows := { s.rows with locks := locks } } = locked at same lock
  rw [after,bind_ok lock,bind_ok (state_run locked)]
  have early := (early txn rfl).resolve_left fun refused => by
    have failed := refused f here
    rw [granted] at failed
    cases failed
  rw [same.db,show locked.pool.disk.isFile = _ from same.files]
  cases known : s.db.tabs.find tabName with
  | none =>
    have unknown : SmManager.lift (s.db.getTable tabName) locked = (.error (DbError.rmdb (.tableNotFound tabName)).raised,locked) := by
      simp only [DbMeta.getTable,known]
      rfl
    rw [bind_error unknown]
    exact same
  | some tab =>
    have found : SmManager.lift (s.db.getTable tabName) locked = (.ok tab,locked) := by
      simp only [DbMeta.getTable,known]
      rfl
    rw [bind_ok found]
    split
    · exact same
    · rename_i missing
      have failed := early.resolve_left missing tab known
      cases cols : colNames.mapM tab.getCol with
      | ok cols =>
        rw [cols] at failed
        cases failed
      | error e => exact same

theorem lockTable_granted  (here : s.rows.files tabName = some f)
    (granted : (request txn f.fd s.rows.locks).1.isOk = true) :
    ∃ locks, lockTable request txn tabName s = (.ok (),{ s with rows := { s.rows with locks := locks } }) := by
  rcases lockTable_cases request txn here with ⟨locks,⟨refused,_⟩ | ⟨_,run⟩⟩
  · rw [granted] at refused
    cases refused
  · exact ⟨locks,run⟩

theorem not_refused {s : SmManager} (granted : ¬LockRefused s tabName txn) :
    ∃ f, s.rows.files tabName = some f ∧ (lockSharedOnTable txn f.fd s.rows.locks).1.isOk = true := by
  rw [LockRefused] at granted
  push Not at granted
  obtain ⟨f,here,fine⟩ := granted
  exact ⟨f,here,Bool.not_eq_false _ |>.mp fine⟩

theorem createIndex_late (late : ¬Early s (.createIndex page0 tabName colNames (some txn))) :
    ¬Unchanged s ((createIndex page0 tabName colNames (some txn)).after s) := by
  have late : ¬(LockRefused s tabName txn ∨ s.pool.disk.isFile (getIndexName tabName colNames) = true ∨
      ∀ tab ∈ s.db.tabs.find tabName, (colNames.mapM tab.getCol).isOk = false) := fun early =>
    late fun other same => Option.some.inj same ▸ early
  obtain ⟨granted,late⟩ := not_or.mp late
  obtain ⟨missing,late⟩ := not_or.mp late
  push Not at late
  obtain ⟨f,here,fine⟩ := not_refused granted
  obtain ⟨tab,known,defined⟩ := late
  obtain ⟨locks,run⟩ := lockTable_granted here fine
  refine appeared (Bool.eq_false_iff.mpr missing) ?_
  rw [after,createIndex,bind_ok run,bind_ok (state_run _)]
  have found : SmManager.lift (s.db.getTable tabName) { s with rows := { s.rows with locks := locks } } =
      (.ok tab,{ s with rows := { s.rows with locks := locks } }) := by
    simp only [DbMeta.getTable,Option.mem_def.mp known]
    rfl
  rw [bind_ok found]
  cases resolved : colNames.mapM tab.getCol with
  | error e => exact absurd (by rw [resolved]; rfl) defined
  | ok cols =>
    dsimp only
    rw [if_neg missing,← after]
    refine made_statement _ (ixCreateIndex_made _ cols s.pool) fun _ => ?_
    refine keeps_frame.bind (onPool_keeps (openIndex_grows _)) fun handle => ?_
    refine keeps_frame.bind (spared_keeps (fillIndex_spared _ _ _ _ _)) fun ih => ?_
    refine keeps_frame.bind (Within.update fun s => dirGrows_frame.refl _) fun _ => ?_
    refine keeps_frame.bind (Within.update fun s => dirGrows_frame.refl _) fun _ => ?_
    exact Within.update fun s => dirGrows_frame.refl _

end CreateIndex

/-- Only the contents of files differ, in the pool or on disk. -/
def SameDisk (s next : BufferPool) : Prop := DiskManager.SameFiles s.disk next.disk

theorem sameDisk_frame : Frame SameDisk :=
  ⟨fun s => DiskManager.SameFiles.frame.refl s.disk,fun _ _ _ first second => DiskManager.SameFiles.frame.trans _ _ _ first second⟩

theorem closeIndex_parts (fd : Int) (hdr : IxFileHdr) : ∃ first : BufferPool.PoolCall Unit, Within SameDisk first ∧
    IxManager.closeIndex fd hdr = first >>= fun _ => onDisk (closeFile fd) := by
  refine ⟨liftError hdr.serialize >>= fun data =>
    onDisk (writePage fd ixFileHdrPage (Rucbase.buffer data)) >>= fun _ => flushAllPages fd,?_,?_⟩
  · refine sameDisk_frame.bind (fun s => (liftError_table DiskManager.SameFiles.frame hdr.serialize s).2) fun data => ?_
    refine sameDisk_frame.bind (fun s => writePage_same _ _ _ s.disk) fun _ => ?_
    exact fun s => (flushAllPages_same fd s).2
  · simp only [IxManager.closeIndex,bind_assoc]

/-- An index that cannot be closed stays open: `close_file` itself does not throw. -/
theorem closeIndex_thrown (fd : Int) (hdr : IxFileHdr) : OnThrow SameDisk (IxManager.closeIndex fd hdr) := by
  obtain ⟨first,same,shape⟩ := closeIndex_parts fd hdr
  rw [shape]
  refine OnThrow.bind sameDisk_frame same fun _ s e next run => ?_
  have returns : (onDisk (closeFile fd) s).1 = .ok () := by
    rw [onDisk,closeFile,bind_ok (state_run s.disk)]
    cases s.disk.fd2path fd <;> rfl
  cases returns.symm.trans (congrArg Prod.fst run)

theorem closeIndex_dir (fd : Int) (hdr : IxFileHdr) :
    Within (fun s next : BufferPool => next.disk.os.dir = s.disk.os.dir) (IxManager.closeIndex fd hdr) := by
  obtain ⟨first,same,shape⟩ := closeIndex_parts fd hdr
  rw [shape]
  have dir : Frame fun s next : BufferPool => next.disk.os.dir = s.disk.os.dir := ⟨fun _ => rfl,fun _ _ _ first second => second.trans first⟩
  refine dir.bind (fun s => (same s).dir) fun _ s => ?_
  cases named : s.disk.fd2path fd <;> simp [onDisk,closeFile,after,bind_run,named,Os.close]

section DropIndex

variable {s : SmManager} {tabName : String} {colNames : List String} {txn : TxnId}

/-- What `drop_index` does once the index is closed. -/
def erase (tabName : String) (colNames : List String) : SmCall Unit := do
  onPool (onDisk (destroyFile (getIndexName tabName colNames)))
  let s ← state
  let tab ← SmManager.lift (s.db.getTable tabName)
  if tab.isIndex colNames then do
    setTable tabName { tab with indexes := tab.indexes.eraseP fun index => index.isOn colNames }
    update fun s => { s with ihs := Function.update s.ihs (getIndexName tabName colNames) none }
    flushMeta
  else SmManager.lift (.error (.indexNotFound tab.name colNames))

theorem dropIndex_granted {locked : SmManager} (lock : lockTable lockSharedOnTable txn tabName s = (.ok (),locked))
    (there : locked.pool.disk.isFile (getIndexName tabName colNames) = true) {ih : IxHandle}
    (opened : locked.ihs (getIndexName tabName colNames) = some ih) : dropIndex tabName colNames (some txn) s =
      (onPool (IxManager.closeIndex ih.fd ih.file.hdr) >>= fun _ => erase tabName colNames) locked := by
  rw [dropIndex,bind_ok lock,bind_ok (state_run locked),if_pos there,opened]
  rfl

theorem erase_gone (there : s.pool.disk.isFile (getIndexName tabName colNames) = true) :
    ((erase tabName colNames).after s).pool.disk.isFile (getIndexName tabName colNames) = false := by
  have gone : ((destroyFile (getIndexName tabName colNames)).after s.pool.disk).isFile (getIndexName tabName colNames) = false := by
    rw [destroyFile,after,bind_ok (state_run _),bind_ok (check_run there _ _)]
    cases s.pool.disk.path2fd (getIndexName tabName colNames) <;> simp [bind_run,isFile,Os.unlink,Os.close]
  have samePool : Frame fun s next : SmManager => next.pool = s.pool := ⟨fun _ => rfl,fun _ _ _ first second => second.trans first⟩
  refine bind_after (P := fun next : SmManager => next.pool.disk.isFile (getIndexName tabName colNames) = false) gone fun _ next run => ?_
  have rest : Within (fun s next : SmManager => next.pool = s.pool) (do
      let s ← state
      let tab ← SmManager.lift (s.db.getTable tabName)
      if tab.isIndex colNames then do
        setTable tabName { tab with indexes := tab.indexes.eraseP fun index => index.isOn colNames }
        update fun s => { s with ihs := Function.update s.ihs (getIndexName tabName colNames) none }
        flushMeta
      else SmManager.lift (.error (.indexNotFound tab.name colNames))) := by
    refine samePool.bind samePool.state fun s => ?_
    refine samePool.bind ?_ fun tab => ?_
    · cases s.db.getTable tabName with
      | ok tab => exact samePool.pure tab
      | error e => exact samePool.raise _
    · split
      · exact samePool.bind (Within.update fun s => rfl) fun _ => samePool.bind (Within.update fun s => rfl) fun _ => Within.update fun s => rfl
      · exact samePool.raise _
  have pool := congrArg (fun p => p.2.pool.disk) run
  rw [rest next]
  exact pool ▸ gone

theorem dropIndex_early (early : Early s (.dropIndex tabName colNames (some txn))) :
    Unchanged s ((dropIndex tabName colNames (some txn)).after s) := by
  refine after_lock (unchanged_frame.refl s) (locked_unchanged s) fun f here granted locks lock => ?_
  have early := (early txn rfl).resolve_left fun refused => by
    have failed := refused f here
    rw [granted] at failed
    cases failed
  by_cases there : s.pool.disk.isFile (getIndexName tabName colNames) = true
  · have early := early.resolve_left (by rw [there]; decide)
    cases opened : s.ihs (getIndexName tabName colNames) with
    | none =>
      rw [after,bind_ok lock,bind_ok (state_run _),if_pos there,opened]
      exact locked_unchanged s locks
    | some ih =>
      have failed := early ih opened
      rcases closing : IxManager.closeIndex ih.fd ih.file.hdr s.pool with ⟨e | _,pool⟩
      case ok =>
        rw [closing] at failed
        cases failed
      case error =>
        have same := closeIndex_thrown _ _ _ _ _ closing
        have thrown : onPool (IxManager.closeIndex ih.fd ih.file.hdr) { s with rows := { s.rows with locks := locks } } =
            (.error (DbError.rmdb e).raised,{ s with rows := { s.rows with locks := locks }, pool := pool }) := by
          rw [onPool,closing]
          rfl
        have shape := (dropIndex_granted lock there opened).trans (bind_error thrown)
        rw [after,show (lockTable lockSharedOnTable txn tabName >>= fun _ => _) s = _ from shape]
        exact ⟨rfl,rfl,rfl,rfl,same.path2fd,same.fd2path,funext fun path => by rw [isFile,isFile,same.dir]⟩
  · rw [after,bind_ok lock,bind_ok (state_run _),if_neg there]
    exact locked_unchanged s locks

theorem dropIndex_late (late : ¬Early s (.dropIndex tabName colNames (some txn))) :
    ¬Unchanged s ((dropIndex tabName colNames (some txn)).after s) := by
  have late : ¬(LockRefused s tabName txn ∨ s.pool.disk.isFile (getIndexName tabName colNames) = false ∨
      ∀ ih ∈ s.ihs (getIndexName tabName colNames), (IxManager.closeIndex ih.fd ih.file.hdr s.pool).1.isOk = false) := fun early =>
    late fun other same => Option.some.inj same ▸ early
  obtain ⟨granted,late⟩ := not_or.mp late
  obtain ⟨there,late⟩ := not_or.mp late
  rw [Bool.not_eq_false] at there
  push Not at late
  obtain ⟨f,here,fine⟩ := not_refused granted
  obtain ⟨ih,opened,closes⟩ := late
  obtain ⟨locks,run⟩ := lockTable_granted here fine
  obtain ⟨_,pool,closing⟩ := run_isOk (Bool.not_eq_false _ |>.mp closes)
  have closed : onPool (IxManager.closeIndex ih.fd ih.file.hdr) { s with rows := { s.rows with locks := locks } } =
      (.ok (),{ s with rows := { s.rows with locks := locks }, pool := pool }) := by
    rw [onPool,closing]
    rfl
  have still : pool.disk.isFile (getIndexName tabName colNames) = true := by
    rw [isFile,(closeIndex_dir _ _).ran closing]
    exact there
  intro same
  have gone : ((dropIndex tabName colNames (some txn)).after s).pool.disk.isFile (getIndexName tabName colNames) = false := by
    rw [after,dropIndex_granted run there opened,bind_ok closed]
    exact erase_gone still
  exact Bool.false_ne_true (gone.symm.trans ((congrFun same.files _).trans there))

end DropIndex

/-- A statement that throws changes nothing if and only if it is refused before the first file is
created or removed. -/
theorem failed_unchanged_iff {s next : SmManager} {ddl : Ddl} {e : DbError} (run : exec ddl s = (.error (.thrown e),next)) :
    Unchanged s next ↔ Early s ddl := by
  rw [← after_eq run]
  cases ddl with
  | createTable tabName colDefs context => exact ⟨fun same => by_contra fun late => createTable_late late same,createTable_early⟩
  | createIndex page0 tabName colNames context =>
    cases context with
    | none => cases run
    | some txn => exact ⟨fun same => by_contra fun late => createIndex_late late same,createIndex_early⟩
  | dropIndex tabName colNames context =>
    cases context with
    | none => cases run
    | some txn => exact ⟨fun same => by_contra fun late => dropIndex_late late same,dropIndex_early⟩

/-- CREATE TABLE of a table that is there. -/
theorem second_table_unchanged : ∃ next, exec (.createTable "t" [] (some 1)) wideTable = (.error (.thrown (.rmdb (.tableExists "t"))),next) ∧
    Unchanged wideTable next := by
  have thrown : (exec (.createTable "t" [] (some 1)) wideTable).1 = .error (.thrown (.rmdb (.tableExists "t"))) := by decide +kernel
  have run : exec (.createTable "t" [] (some 1)) wideTable =
      (.error (.thrown (.rmdb (.tableExists "t"))),(exec (.createTable "t" [] (some 1))).after wideTable) := by
    rw [← thrown,after]
  exact ⟨_,run,(failed_unchanged_iff run).mpr (.inl (by decide +kernel))⟩

def openRow : SmManager :=
  [(1,.commit),(2,.insert (fun _ => 0) [.int 7,.str []])].foldl (IndexCoverage.step "t") wideTable

/-- The row cannot be read, CREATE INDEX throws, and the empty index file stays. The same statement is
refused from then on, also when the row is committed. -/
theorem unfilled_index_stays :
    (exec (.createIndex .zero "t" ["a"] (some 3)) openRow).1 = .error (.thrown (.abort ⟨3,.deadlockPrevention⟩)) ∧
    ¬Unchanged openRow ((exec (.createIndex .zero "t" ["a"] (some 3))).after openRow) ∧
    (exec (.createIndex .zero "t" ["a"] (some 4))
      ((onRows (Db.commit 2)).after ((exec (.createIndex .zero "t" ["a"] (some 3))).after openRow))).1 =
        .error (.thrown (.rmdb (.indexExists "t" ["a"]))) :=
  ⟨by decide +kernel,@appeared _ _ "t_a.idx" (by decide +kernel) (by decide +kernel),by decide +kernel⟩

end Rucbase.FailedDdl
