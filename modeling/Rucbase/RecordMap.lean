import Rucbase.RecordFile

/-! A table file is a finite map from row positions to bytes, over every run of the record
operations and at whatever points the file is closed and opened again. -/
namespace Rucbase.RecordMap

open Lib Lib.Prog LockManager Db RmFile

def refused {α : Type} : Except DbError α → Bool
  | .error (.abort _) => true
  | _ => false

/-- The database and the map one of its tables should be. -/
structure Table where
  db : Db
  rows : Rid → Option (List Byte)

inductive RecordOp where
  | insert (buf : List Byte) (context : Option TxnId)
  | update (rid : Rid) (buf : List Byte) (context : Option TxnId)
  | delete (rid : Rid) (context : Option TxnId)
  | reopen (fd : Int)

variable (tabName : String)

/-- One operation on the file, and on the map with the position the file returned. -/
def step (w : Table) : RecordOp → Table
  | .insert buf context =>
    match insertRecord tabName buf context w.db with
    | (.ok rid,db) => ⟨db,Function.update w.rows rid (some buf)⟩
    | (.error _,db) => { w with db := db }
  | .update rid buf context =>
    match updateRecord tabName rid buf context w.db with
    | (.ok _,db) => ⟨db,Function.update w.rows rid (some buf)⟩
    | (.error _,db) => { w with db := db }
  | .delete rid context =>
    match deleteRecord tabName rid context w.db with
    | (.ok _,db) => ⟨db,Function.update w.rows rid none⟩
    | (.error _,db) => { w with db := db }
  | .reopen fd => { w with db := (reopenFile tabName fd).after w.db }

/-- Buffers have the record size, updates and deletions name live rows, and no lock is refused. -/
def Admissible (recordSize : Nat) (w : Table) : RecordOp → Prop
  | .insert buf context => buf.length = recordSize ∧
      refused (insertRecord tabName buf context w.db).1 = false
  | .update rid buf context => buf.length = recordSize ∧ (w.rows rid).isSome = true ∧
      refused (updateRecord tabName rid buf context w.db).1 = false
  | .delete rid context => (w.rows rid).isSome = true ∧
      refused (deleteRecord tabName rid context w.db).1 = false
  | .reopen _ => True

/-- The file answers as the map does. `is_record` is asked about slots of data pages. -/
structure Refines (hdr : RmFileHdr) (w : Table) : Prop where
  insert : ∀ buf context, Admissible tabName hdr.recordSize w (.insert buf context) →
    ∃ rid db, insertRecord tabName buf context w.db = (.ok rid,db) ∧ w.rows rid = none
  update : ∀ rid buf context, Admissible tabName hdr.recordSize w (.update rid buf context) →
    (updateRecord tabName rid buf context w.db).1 = .ok ()
  delete : ∀ rid context, Admissible tabName hdr.recordSize w (.delete rid context) →
    (deleteRecord tabName rid context w.db).1 = .ok ()
  get : ∀ rid data context, w.rows rid = some data →
    refused (getRecord tabName rid context w.db).1 = false →
    (getRecord tabName rid context w.db).1 = .ok data
  isRecord : ∀ rid : Rid, rid.pageNo ≠ 0 → 0 ≤ rid.slotNo → rid.slotNo < hdr.numRecordsPerPage →
    ((isRecord tabName rid w.db).1 = .ok true ↔ (w.rows rid).isSome = true)

structure Inv (hdr : RmFileHdr) (w : Table) (f : RmFile) : Prop where
  opened : w.db.files tabName = some f
  ok : f.Ok
  rows : f.contents = w.rows
  size : f.fileHdr.recordSize = hdr.recordSize
  slots : f.fileHdr.numRecordsPerPage = hdr.numRecordsPerPage

section Steps

variable {tabName} {hdr : RmFileHdr} {w : Table} {f : RmFile}

variable {context : Option TxnId} {rid : Rid}

theorem insert_step (inv : Inv tabName hdr w f) {buf : List Byte}
    (admissible : Admissible tabName hdr.recordSize w (.insert buf context)) :
    ∃ rid db next, insertRecord tabName buf context w.db = (.ok rid,db) ∧ w.rows rid = none ∧
      Inv tabName hdr ⟨db,Function.update w.rows rid (some buf)⟩ next := by
  obtain ⟨size,free⟩ := admissible
  obtain ⟨p,page,made,created,ok,rows,first,nonzero,here,_,_,slots,width,room⟩ :=
    createPageHandle_ok inv.ok
  rw [insertRecord_run inv.opened,created] at free ⊢
  rw [← slots] at room
  have bound := Bitmap.firstBit_free page _ room
  have clear := (Bitmap.firstBit_spec page false made.fileHdr.numRecordsPerPage).2.2 bound
  obtain ⟨fine,stored⟩ := storeRecord_ok ok nonzero here first bound clear
    (by rw [size,width,inv.size])
  cases locked : rowLock lockExclusiveOnRecord context
      ⟨p,Bitmap.firstBit false page made.fileHdr.numRecordsPerPage⟩ made.fd w.db.locks with
  | mk result after =>
    cases result with
    | error e => simp [locked,refused] at free
    | ok _ =>
      simp only [locked]
      refine ⟨_,_,_,rfl,?_,⟨Function.update_self _ _ _,fine,?_,?_,?_⟩⟩
      · rw [← inv.rows,← rows,contents_page here nonzero]
        simp [RmPage.row,clear]
      · rw [stored,rows,inv.rows]
      · rw [storeRecord_layout.1,width,inv.size]
      · rw [storeRecord_layout.2.1,slots,inv.slots]

theorem granted_of_free {request : TxnId → Rid → Int → Call} {fd : Int} {locks : LockState} {α : Type} {result : Except DbError α}
    (thrown : ∀ e after, rowLock request context rid fd locks = (.error e,after) →
      refused result = true) (free : refused result = false) :
    ∃ after, rowLock request context rid fd locks = (.ok (),after) := by
  cases locked : rowLock request context rid fd locks with
  | mk outcome after =>
    cases outcome with
    | ok _ => exact ⟨after,rfl⟩
    | error e =>
      rw [thrown e after locked] at free
      contradiction

theorem update_step (inv : Inv tabName hdr w f) {buf : List Byte}
    (admissible : Admissible tabName hdr.recordSize w (.update rid buf context)) :
    ∃ db next, updateRecord tabName rid buf context w.db = (.ok (),db) ∧
      Inv tabName hdr ⟨db,Function.update w.rows rid (some buf)⟩ next := by
  obtain ⟨size,live,free⟩ := admissible
  obtain ⟨data,found⟩ := Option.isSome_iff_exists.mp live
  rw [← inv.rows] at found
  obtain ⟨page,nonzero,here,fetched,positive,bound,bit,_⟩ := contents_live inv.ok found
  obtain ⟨fine,stored⟩ := overwriteRecord_ok inv.ok nonzero here bound (size.trans inv.size.symm)
  rw [updateRecord_run inv.opened,underLock] at free ⊢
  obtain ⟨after,granted⟩ :
      ∃ after, rowLock lockExclusiveOnRecord context rid f.fd w.db.locks = (.ok (),after) :=
    granted_of_free (fun e after thrown => by simp [thrown,refused]) free
  have place : (⟨rid.pageNo,rid.slotNo.toNat⟩ : Rid) = rid := by
    rw [Int.toNat_of_nonneg positive]
  simp only [granted,fetched]
  refine ⟨_,_,rfl,⟨Function.update_self _ _ _,fine,?_,inv.size,inv.slots⟩⟩
  rw [stored,inv.rows,place,bit]
  rfl

theorem delete_step (inv : Inv tabName hdr w f) (admissible : Admissible tabName hdr.recordSize w (.delete rid context)) :
    ∃ db next, deleteRecord tabName rid context w.db = (.ok (),db) ∧
      Inv tabName hdr ⟨db,Function.update w.rows rid none⟩ next := by
  obtain ⟨live,free⟩ := admissible
  obtain ⟨data,found⟩ := Option.isSome_iff_exists.mp live
  rw [← inv.rows] at found
  obtain ⟨page,nonzero,here,fetched,positive,bound,bit,_⟩ := contents_live inv.ok found
  obtain ⟨fine,stored⟩ := eraseRecord_ok inv.ok nonzero here bound bit
  rw [deleteRecord_run inv.opened,underLock] at free ⊢
  obtain ⟨after,granted⟩ :
      ∃ after, rowLock lockExclusiveOnRecord context rid f.fd w.db.locks = (.ok (),after) :=
    granted_of_free (fun e after thrown => by simp [thrown,refused]) free
  have place : (⟨rid.pageNo,rid.slotNo.toNat⟩ : Rid) = rid := by
    rw [Int.toNat_of_nonneg positive]
  simp only [granted,fetched]
  refine ⟨_,_,rfl,⟨Function.update_self _ _ _,fine,?_,?_,?_⟩⟩
  · rw [stored,inv.rows,place]
  · rw [eraseRecord_layout.1,inv.size]
  · rw [eraseRecord_layout.2.1,inv.slots]

theorem step_inv (w : Table) (op : RecordOp) (inv : ∃ f, Inv tabName hdr w f)
    (admissible : Admissible tabName hdr.recordSize w op) : ∃ f, Inv tabName hdr (step tabName w op) f := by
  obtain ⟨f,inv⟩ := inv
  cases op with
  | insert buf context =>
    obtain ⟨rid,db,next,ran,_,kept⟩ := insert_step inv admissible
    exact ⟨next,by simpa only [step,ran] using kept⟩
  | update rid buf context =>
    obtain ⟨db,next,ran,kept⟩ := update_step inv admissible
    exact ⟨next,by simpa only [step,ran] using kept⟩
  | delete rid context =>
    obtain ⟨db,next,ran,kept⟩ := delete_step inv admissible
    exact ⟨next,by simpa only [step,ran] using kept⟩
  | reopen fd =>
    obtain ⟨fine,same⟩ := reopen_ok inv.ok fd
    refine ⟨f.close.reopen fd,?_,fine,same.trans inv.rows,inv.size,inv.slots⟩
    simp [step,after,reopenFile_run inv.opened]

theorem inv_refines (inv : Inv tabName hdr w f) : Refines tabName hdr w := by
  refine ⟨?_,?_,?_,?_,?_⟩
  · intro buf context admissible
    obtain ⟨rid,db,_,ran,absent,_⟩ := insert_step inv admissible
    exact ⟨rid,db,ran,absent⟩
  · intro rid buf context admissible
    obtain ⟨db,_,ran,_⟩ := update_step inv admissible
    rw [ran]
  · intro rid context admissible
    obtain ⟨db,_,ran,_⟩ := delete_step inv admissible
    rw [ran]
  · intro rid data context live free
    rw [← inv.rows] at live
    obtain ⟨page,_,_,fetched,_,_,_,bytes⟩ := contents_live inv.ok live
    rw [getRecord_run inv.opened,underLock] at free ⊢
    obtain ⟨after,granted⟩ :
        ∃ after, rowLock lockSharedOnRecord context rid f.fd w.db.locks = (.ok (),after) :=
      granted_of_free (fun e after thrown => by simp [thrown,refused]) free
    simp only [granted,fetched,bytes]
  · intro rid nonzero positive below
    rw [isRecord_run inv.opened,← inv.rows,contents,if_neg nonzero]
    by_cases valid : rid.pageNo = invalidPageId
    · have absent : f.pages rid.pageNo = none := by
        cases here : f.pages rid.pageNo with
        | none => rfl
        | some page =>
          have := inv.ok.numbered_page here nonzero
          unfold invalidPageId at valid
          omega
      rw [absent]
      simp [fetchPageHandle,valid]
    · cases here : f.pages rid.pageNo with
      | none => simp [fetchPageHandle,valid,here]
      | some page =>
        rw [← inv.slots] at below
        simp only [fetchPageHandle,valid,↓reduceIte,here,RmPage.row,positive,below,true_and,Except.ok.injEq]
        split <;> simp [*]

end Steps

/-- For every record size `create_file` accepts and every run of operations, the file is
the map from positions to the bytes last stored there. -/
theorem record_file_refines_map {recordSize : Int} {hdr : RmFileHdr} (accepted : createFile recordSize = .ok hdr)
    (db : Db) (fd : Int) (header : Option RmPage) (opened : db.files tabName = some (openNew hdr fd header))
    (ops : List RecordOp)
    (admissible : Guarded (step tabName) (Admissible tabName hdr.recordSize) ⟨db,fun _ => none⟩ ops) :
    Refines tabName hdr (ops.foldl (step tabName) ⟨db,fun _ => none⟩) := by
  obtain ⟨ok,empty⟩ := created_ok accepted fd header
  obtain ⟨f,inv⟩ := guarded_invariant (fun w => ∃ f, Inv tabName hdr w f) step_inv _ ⟨_,opened,ok,empty,rfl,rfl⟩ ops admissible
  exact inv_refines inv

/-- A new table of 4-byte records, open on descriptor 5. -/
def smallTable : Db :=
  ⟨LockManager.start (fun _ => {}),fun _ => some (openNew (initialHdr 4) 5 none),[]⟩

/-- Rows come and go around a reopening of the file. -/
def shortLife : List RecordOp :=
  [.insert [1,2,3,4] (some 1),.insert [5,6,7,8] none,.reopen 9,.delete ⟨1,0⟩ none,
    .update ⟨1,1⟩ [9,9,9,9] (some 1),.insert [7,7,7,7] none]

theorem shortLife_refines :
    Guarded (step "t") (Admissible "t" 4) ⟨smallTable,fun _ => none⟩ shortLife ∧
    Refines "t" (initialHdr 4) (shortLife.foldl (step "t") ⟨smallTable,fun _ => none⟩) := by
  have admissible : Guarded (step "t") (Admissible "t" 4) ⟨smallTable,fun _ => none⟩ shortLife := by
    refine ⟨⟨rfl,?_⟩,⟨rfl,?_⟩,trivial,⟨?_,?_⟩,⟨rfl,?_,?_⟩,⟨rfl,?_⟩,trivial⟩ <;> decide
  have accepted : createFile 4 = .ok (initialHdr 4) := rfl
  exact ⟨admissible,record_file_refines_map "t" accepted smallTable 5 none rfl shortLife admissible⟩

/-- A new table of 453-byte records: eight of them fill a page and its bitmap is one byte. -/
def wideTable : Db :=
  ⟨LockManager.start (fun _ => {}),fun _ => some (openNew (initialHdr 453) 5 none),[]⟩

/-- A row whose first byte, the one behind the bitmap, has its highest bit set. -/
def highBit : List RecordOp := [.insert (0x80 :: List.replicate 452 0) none]

/-- `is_record` does not bound the slot: it reads slot 8 in the bytes of the row in slot 0. -/
theorem slot_past_bitmap_recorded :
    Guarded (step "t") (Admissible "t" 453) ⟨wideTable,fun _ => none⟩ highBit ∧
    (isRecord "t" ⟨1,8⟩ (highBit.foldl (step "t") ⟨wideTable,fun _ => none⟩).db).1 = .ok true ∧
    (highBit.foldl (step "t") ⟨wideTable,fun _ => none⟩).rows ⟨1,8⟩ = none := by
  refine ⟨⟨⟨?_,?_⟩,trivial⟩,?_,?_⟩ <;> decide +kernel

end Rucbase.RecordMap
