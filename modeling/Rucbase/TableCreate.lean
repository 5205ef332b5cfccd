import Rucbase.IndexCreate
import Rucbase.SmManager

/-! CREATE TABLE: the file of a new table is opened with the header that was written to it, and
the statement as an equation with its only lock. -/
namespace Rucbase

open Lib Lib.Prog DiskManager BufferPool
open LockManager hiding step start

theorem RmFileHdr.ofBytes_toBytes {hdr : RmFileHdr} (recordSize : hdr.recordSize < 2 ^ 31) (pages : hdr.numPages < 2 ^ 31)
    (slots : hdr.numRecordsPerPage < 2 ^ 31) (low : -2 ^ 31 ≤ hdr.firstFreePageNo) (high : hdr.firstFreePageNo < 2 ^ 31)
    (bitmap : hdr.bitmapSize < 2 ^ 31) : RmFileHdr.ofBytes hdr.toBytes = hdr := by
  let words : List Int := [hdr.recordSize,hdr.numPages,hdr.numRecordsPerPage,hdr.firstFreePageNo,hdr.bitmapSize]
  have bounded : ∀ w ∈ words, -2 ^ 31 ≤ w ∧ w < 2 ^ 31 := by
    simp [words]
    omega
  have room : 4 * words.length ≤ rmFileHdrSize := by simp [words,rmFileHdrSize]
  have word (k : Nat) (inside : k < 5) : bytesInt ((List.range 4).map fun i =>
      if there : 4 * k + i < rmFileHdrSize then hdr.toBytes ⟨4 * k + i,there⟩ else 0) = words.getD k 0 := by
    have fits := bounded _ (List.getElem_mem inside)
    rw [← List.getD_eq_getElem _ 0 inside] at fits
    exact bytesInt_words room (fun _ _ => rfl) inside fits.1 fits.2
  unfold RmFileHdr.ofBytes
  dsimp only
  rw [word 0 (by decide),word 1 (by decide),word 2 (by decide),word 3 (by decide),word 4 (by decide)]
  simp [words]

theorem RmFileHdr.ofBytes_initial {recordSize : Nat} (upper : recordSize ≤ 512) :
    RmFileHdr.ofBytes (initialHdr recordSize).toBytes = initialHdr recordSize := by
  have slots : (initialHdr recordSize).numRecordsPerPage ≤ 32601 := Nat.div_le_self _ _
  have bitmap : (initialHdr recordSize).bitmapSize ≤ 32608 :=
    (Nat.div_le_self _ _).trans (Nat.sub_le_sub_right (Nat.add_le_add_right slots 8) 1)
  have first : (initialHdr recordSize).firstFreePageNo = -1 := rfl
  have size : (initialHdr recordSize).recordSize = recordSize := rfl
  have pages : (initialHdr recordSize).numPages = 1 := rfl
  apply RmFileHdr.ofBytes_toBytes <;> omega

section CreateOpen

variable {pool : BufferPool} {path : Path} {recordSize : Int} (tracked : pool.disk.Tracked)
  (missing : pool.disk.isFile path = false) (lower : 1 ≤ recordSize) (upper : recordSize ≤ rmMaxRecordSize)

include tracked missing lower upper

theorem rmCreateOpen_run : ∃ (disk opened : DiskManager) (fd : Nat),
    RmManager.createFile path recordSize pool = (.ok (),{ pool with disk := disk }) ∧
    RmManager.openFile path { pool with disk := disk } =
      (.ok ⟨fd,.table (initialHdr recordSize.toNat)⟩,{ pool with disk := opened }) ∧ opened.isFile path = true := by
  obtain ⟨made,first,created,opening,building⟩ := createOpen_building tracked missing
  obtain ⟨written,writing,_,building⟩ := building.write 0 (initialHdr recordSize.toNat).toBytes
  obtain ⟨disk,closing,again,entry,gone,unnamed,bytes,_⟩ := building.close
  obtain ⟨middle,reopening,_,rebuilding⟩ := openFile_building entry gone (by rw [again]; exact unnamed)
  rw [bytes] at rebuilding
  have header : ((File.empty.write (0 * pageSize) (initialHdr recordSize.toNat).toBytes).slice (0 * pageSize) rmFileHdrSize) =
      (initialHdr recordSize.toNat).toBytes := by simp
  have reading := readPage_building rebuilding 0 rmFileHdrSize (by simp only [File.write]; omega)
  have parsed := @RmFileHdr.ofBytes_initial recordSize.toNat (by simp only [rmMaxRecordSize] at upper; omega)
  let counted := { middle with fd2pageno := Function.update middle.fd2pageno (Os.lowestFree disk.os.fds) 1 }
  refine ⟨disk,counted,Os.lowestFree disk.os.fds,?_,?_,?_⟩
  · rw [RmManager.createFile,if_neg (by omega)]
    refine (bind_ok (onDisk_run created)).trans ?_
    refine (bind_ok (onDisk_run opening)).trans ?_
    refine (bind_ok (onDisk_run writing)).trans ?_
    exact onDisk_run closing
  · refine (bind_ok (onDisk_run reopening)).trans ?_
    refine (bind_ok (onDisk_run reading)).trans ?_
    dsimp only
    rw [header,parsed]
    rfl
  · simp [isFile,counted,rebuilding.dir]

end CreateOpen

theorem rmCreateFile_parts (path : Path) {recordSize : Int} (valid : ¬(recordSize < 1 ∨ recordSize > rmMaxRecordSize)) :
    ∃ rest : Unit → BufferPool.PoolCall Unit,
      RmManager.createFile path recordSize = BufferPool.onDisk (DiskManager.createFile path) >>= rest ∧ ∀ a, Within Grows (rest a) := by
  rw [RmManager.createFile,if_neg valid]
  refine ⟨_,rfl,fun _ => ?_⟩
  refine grows_frame.bind (onDisk_grows (openFile_grows path)) fun fd => ?_
  refine grows_frame.bind (sameFiles_grows (writePage_same _ _ _)) fun _ => ?_
  exact onDisk_grows (closeFile_grows fd)

theorem rmCreateFile_grows (path : Path) (recordSize : Int) : Within Grows (RmManager.createFile path recordSize) := by
  by_cases invalid : recordSize < 1 ∨ recordSize > rmMaxRecordSize
  · rw [RmManager.createFile,if_pos invalid]
    exact grows_frame.raise _
  · obtain ⟨rest,shape,grows⟩ := rmCreateFile_parts path invalid
    rw [shape]
    exact grows_frame.bind (onDisk_grows (createFile_grows path)) grows

theorem rmOpenFile_grows (path : Path) : Within Grows (RmManager.openFile path) := by
  refine grows_frame.bind (onDisk_grows (openFile_grows path)) fun fd => ?_
  refine grows_frame.bind (sameFiles_grows (readPage_same _ _ _)) fun bytes => ?_
  exact grows_frame.bind (onDisk_grows fun d => dirGrows_same rfl) fun _ => grows_frame.pure _

theorem rmOpenFile_tracked (path : Path) (s : BufferPool) (tracked : s.disk.Tracked) :
    ((RmManager.openFile path).after s).disk.Tracked := by
  rcases rmOpenFile_run path tracked with ⟨e,next,run,failed⟩ | ⟨h,inode,next,run,opened⟩
  · rw [after,run]
    exact failed.tracked
  · rw [after,run]
    exact opened.tracked

namespace SmManager

/-- A table that was just entered, before its lock. -/
def withTable (s : SmManager) (tabName : String) (colDefs : List ColDef) (f : RmFile) (disk : DiskManager) : SmManager :=
  { s with
    pool := { s.pool with disk := disk }
    db := { s.db with tabs := s.db.tabs.assign tabName ⟨tabName,layout tabName 0 colDefs,[]⟩ }
    rows := { s.rows with files := Function.update s.rows.files tabName (some f) } }

section CreateTable

variable {s : SmManager} {tabName : String} {colDefs : List ColDef} (tracked : s.pool.disk.Tracked)
  (unknown : s.db.isTable tabName = false) (missing : s.pool.disk.isFile tabName = false)
  (absent : s.rows.files tabName = none) (lower : 1 ≤ recordSize colDefs)
  (upper : recordSize colDefs ≤ rmMaxRecordSize)

include tracked unknown missing absent lower upper

/-- What stands between a new table and the end of the statement is its exclusive lock. -/
theorem createTable_run (txn : TxnId) : ∃ (disk : DiskManager) (fd : Nat),
    disk.Tracked ∧ disk.isFile tabName = true ∧ (∀ path, s.pool.disk.isFile path = true → disk.isFile path = true) ∧
    let made := s.withTable tabName colDefs (openNew (initialHdr (recordSize colDefs).toNat) fd none) disk
    createTable tabName colDefs (some txn) s = match lockExclusiveOnTable txn fd s.rows.locks with
      | (.error e,locks) => (.error (.thrown (.abort e)),{ made with rows := { made.rows with locks := locks } })
      | (.ok _,locks) => (.ok (),{ made with rows := { made.rows with locks := locks }, metaFile := made.db.write }) := by
  obtain ⟨disk,opened,fd,creating,opening,there⟩ := rmCreateOpen_run tracked missing lower upper
  let f := openNew (initialHdr (recordSize colDefs).toNat) fd none
  have kept : disk.Tracked := by
    have leaves := ((rmCreateFile_leaves tabName (recordSize colDefs) s.pool).2 tracked).1
    rwa [after,creating] at leaves
  have tracked' : opened.Tracked := by
    have still := rmOpenFile_tracked tabName { s.pool with disk := disk } kept
    rwa [after,opening] at still
  have grows : DirGrows s.pool.disk opened := dirGrows_frame.trans _ _ _
    ((rmCreateFile_grows tabName (recordSize colDefs)).ran creating) ((rmOpenFile_grows tabName).ran opening)
  refine ⟨opened,fd,tracked',there,grows,?_⟩
  have entering : emplace s.rows.files tabName (openedFile ⟨fd,.table (initialHdr (recordSize colDefs).toNat)⟩) =
      Function.update s.rows.files tabName (some f) := emplace_absent _ absent
  let filed : SmManager := { s with pool := { s.pool with disk := disk } }
  let entered : SmManager :=
    { filed with db := { s.db with tabs := s.db.tabs.assign tabName ⟨tabName,layout tabName 0 colDefs,[]⟩ } }
  let made := s.withTable tabName colDefs f opened
  have first : onPool (RmManager.createFile tabName (recordSize colDefs)) s = (.ok (),filed) := by
    simp only [onPool,creating,Except.mapError,filed]
  have second : onPool (RmManager.openFile tabName) entered =
      (.ok ⟨fd,.table (initialHdr (recordSize colDefs).toNat)⟩,{ entered with pool := made.pool }) := by
    simp only [onPool,entered,filed,opening,Except.mapError,made,withTable]
  have rest : createTable tabName colDefs (some txn) s =
      (lockTable lockExclusiveOnTable txn tabName >>= fun _ => flushMeta) made := by
    rw [createTable,bind_ok (state_run s),if_neg (by simp [unknown]),bind_ok first]
    refine (bind_ok (update_run _ _)).trans ?_
    refine (bind_ok second).trans ?_
    refine (bind_ok (update_run _ _)).trans ?_
    simp only [entering,entered,filed]
    rfl
  rw [rest]
  have here : made.rows.files tabName = some f := Function.update_self _ _ _
  rw [bind_run,lockTable_locks _ _ _ _ here]
  have locks : lockExclusiveOnTable txn f.fd made.rows.locks = lockExclusiveOnTable txn fd s.rows.locks := rfl
  rw [locks]
  cases lockExclusiveOnTable txn fd s.rows.locks with
  | mk result locks => cases result <;> rfl

theorem createTable_returns {txn : TxnId} {next : SmManager} (run : createTable tabName colDefs (some txn) s = (.ok (),next)) :
    ∃ (disk : DiskManager) (f : RmFile) (locks : LockState), disk.Tracked ∧
    (∀ path, s.pool.disk.isFile path = true → disk.isFile path = true) ∧ f.Ok ∧
    f.fileHdr.recordSize = (recordSize colDefs).toNat ∧
    next = { s.withTable tabName colDefs f disk with
      rows := ⟨locks,Function.update s.rows.files tabName (some f),s.rows.log⟩
      metaFile := (s.withTable tabName colDefs f disk).db.write } := by
  obtain ⟨disk,fd,kept,_,grows,shape⟩ := createTable_run tracked unknown missing absent lower upper txn
  have geometry := initialHdr_geometry (recordSize colDefs).toNat (by omega) (by simp only [rmMaxRecordSize] at upper; omega)
  have ok := (RmFile.openNew_ok geometry rfl rfl fd none).1
  dsimp only at shape
  rw [shape] at run
  match granted : lockExclusiveOnTable txn fd s.rows.locks with
  | (.error e,locks) =>
    rw [granted] at run
    cases run
  | (.ok _,locks) =>
    rw [granted] at run
    obtain ⟨-,rfl⟩ := Prod.mk.inj run
    exact ⟨disk,_,locks,kept,grows,ok,rfl,rfl⟩

end CreateTable

/-- A table of wide records that was just created; a page has room for eight. -/
def wideTable : SmManager := (createTable "t" [⟨"a",.int,4⟩,⟨"b",.string,500⟩] (some 1)).after .noTables

theorem noTables_tracked : noTables.pool.disk.Tracked :=
  ⟨fun _ _ => by simp [noTables,IndexReopen.freshProcess,BufferPool.start],nofun,fun _ _ => rfl⟩

theorem wideTable_run : createTable "t" [⟨"a",.int,4⟩,⟨"b",.string,500⟩] (some 1) noTables = (.ok (),wideTable) :=
  Prod.ext (by decide +kernel) rfl

theorem wideTable_ok : ∀ f ∈ wideTable.rows.files "t", f.Ok := by
  obtain ⟨disk,f,locks,_,_,ok,_,shape⟩ :=
    createTable_returns noTables_tracked rfl rfl rfl (by decide) (by decide) wideTable_run
  intro g here
  have file : wideTable.rows.files "t" = some f := by
    rw [shape]
    exact Function.update_self "t" (some f) noTables.rows.files
  obtain rfl : f = g := Option.mem_unique file here
  exact ok

end SmManager

end Rucbase
