import Rucbase.RmScan
import Mathlib.Data.List.Perm.Basic

/-! The rows of a table under the record operations: each operation of a transaction on a well
formed file, as an equation with its lock, and what becomes of the list of rows. -/
namespace Rucbase

open Lib Lib.Prog RmFile
open LockManager hiding step start

namespace RmFile

variable {f next : RmFile} {β : Type}

/-- What every record operation leaves. -/
structure SameLayout (f next : RmFile) : Prop where
  fd : next.fd = f.fd
  recordSize : next.fileHdr.recordSize = f.fileHdr.recordSize
  slots : next.fileHdr.numRecordsPerPage = f.fileHdr.numRecordsPerPage

theorem SameLayout.refl (f : RmFile) : SameLayout f f := ⟨rfl,rfl,rfl⟩

theorem SameLayout.trans {g : RmFile} (first : SameLayout f next) (second : SameLayout next g) : SameLayout f g :=
  ⟨second.fd.trans first.fd,second.recordSize.trans first.recordSize,second.slots.trans first.slots⟩

/-- A live row's bytes. -/
def rowAt (f : RmFile) (rid : Rid) : List Byte := (f.contents rid).getD []

/-- Something about every live row, in the order of a scan. -/
def rowsBy (f : RmFile) (view : Rid → List Byte → β) : List β := f.liveRids.map fun rid => view rid (f.rowAt rid)

def rows (f : RmFile) : List (List Byte) := f.rowsBy fun _ data => data

variable {data : List Byte} {rid : Rid}

theorem rowAt_eq (live : f.contents rid = some data) : f.rowAt rid = data := by
  simp [rowAt,live]

theorem contents_rowAt (live : (f.contents rid).isSome = true) : f.contents rid = some (f.rowAt rid) := by
  obtain ⟨data,here⟩ := Option.isSome_iff_exists.mp live
  rw [here,rowAt_eq here]

theorem rowsBy_congr {view : Rid → List Byte → β} (perm : next.liveRids.Perm f.liveRids)
    (same : ∀ rid ∈ f.liveRids, next.rowAt rid = f.rowAt rid) : (next.rowsBy view).Perm (f.rowsBy view) := by
  refine (perm.map _).trans (.of_eq (List.map_congr_left fun rid member => ?_))
  rw [same rid member]

section Changes

variable (ok : f.Ok) (ok' : next.Ok)

include ok ok'

theorem liveRids_same (same : ∀ rid, (next.contents rid).isSome = (f.contents rid).isSome) :
    next.liveRids.Perm f.liveRids := by
  rw [List.perm_ext_iff_of_nodup next.liveRids_nodup f.liveRids_nodup]
  intro rid
  rw [ok'.mem_liveRids,ok.mem_liveRids,same]

theorem rowsBy_same (same : next.contents = f.contents) (view : Rid → List Byte → β) :
    (next.rowsBy view).Perm (f.rowsBy view) :=
  rowsBy_congr (liveRids_same ok ok' fun rid => by rw [same]) fun rid _ => by rw [rowAt,rowAt,same]

theorem rowsBy_added (absent : f.contents rid = none)
    (added : next.contents = Function.update f.contents rid (some data)) (view : Rid → List Byte → β) :
    (next.rowsBy view).Perm (view rid data :: f.rowsBy view) := by
  have outside : rid ∉ f.liveRids := by simp [ok.mem_liveRids,absent]
  have perm : next.liveRids.Perm (rid :: f.liveRids) := by
    rw [List.perm_ext_iff_of_nodup next.liveRids_nodup (List.nodup_cons.mpr ⟨outside,f.liveRids_nodup⟩)]
    intro other
    rw [ok'.mem_liveRids,List.mem_cons,ok.mem_liveRids,added]
    by_cases same : other = rid <;> simp [same]
  refine (perm.map _).trans (.of_eq ?_)
  rw [List.map_cons,rowAt_eq (f := next) (by rw [added,Function.update_self])]
  refine congrArg _ (List.map_congr_left fun other member => ?_)
  have apart : other ≠ rid := fun same => outside (same ▸ member)
  rw [rowAt,rowAt,added,Function.update_of_ne apart]

end Changes

theorem ridsFrom_length (rounds : Nat) (pageNo : Int) (slot : Nat) :
    (f.ridsFrom rounds pageNo slot).length ≤ rounds * f.fileHdr.numRecordsPerPage := by
  induction rounds generalizing pageNo slot with
  | zero => simp [ridsFrom]
  | succ rounds ih =>
    have later := ih (pageNo + 1) 0
    rw [ridsFrom,List.length_append,List.length_map,Nat.succ_mul]
    cases f.pages pageNo with
    | none => exact (Nat.add_le_add (Nat.le_refl 0) later).trans (by omega)
    | some page =>
      have short := List.length_filter_le (Bitmap.isSet page) (List.range' slot (f.fileHdr.numRecordsPerPage - slot))
      rw [List.length_range'] at short
      exact (Nat.add_le_add short later).trans (by omega)

theorem liveRids_length (f : RmFile) : f.liveRids.length ≤ f.fileHdr.numPages * f.fileHdr.numRecordsPerPage :=
  (ridsFrom_length _ _ _).trans (Nat.mul_le_mul_right _ (Nat.sub_le _ _))

/-- The slot that `insert_record` takes. -/
def freeSlot (f : RmFile) : Option Rid :=
  f.createPageHandle.toOption.map fun made => ⟨made.1,Bitmap.firstBit false made.2.1 made.2.2.fileHdr.numRecordsPerPage⟩

theorem contents_length (ok : f.Ok) (live : f.contents rid = some data) : data.length = f.fileHdr.recordSize := by
  obtain ⟨page,_,_,_,_,_,_,rfl⟩ := contents_live ok live
  simp [RmPage.getSlot,RmPage.read]

end RmFile

namespace Db

/-- A call that goes on if a row lock is granted. -/
abbrev locking {α : Type} (outcome : Except TransactionAbortException Bool × LockState) (s : Db)
    (done : LockState → Except DbError α × Db) : Except DbError α × Db :=
  match outcome with
  | (.error e,locks) => (.error (.abort e),{ s with locks := locks })
  | (.ok _,locks) => done locks

theorem underLock_fetched {α : Type} (request : TxnId → Rid → Int → Call) (txn : TxnId) {s : Db} {f : RmFile} {rid : Rid} {page : RmPage}
    (fetched : f.fetchPageHandle rid.pageNo = .ok page) (done : RmPage → LockState → Except DbError α × Db) :
    underLock request (some txn) rid f s done = locking (request txn rid f.fd s.locks) s (done page) := by
  rw [underLock,rowLock,fetched]
  rcases request txn rid f.fd s.locks with ⟨e | _,locks⟩ <;> rfl

variable {s : Db} {tabName : String} {f : RmFile} (here : s.files tabName = some f) (ok : f.Ok) (txn : TxnId)
  {rid : Rid} {data : List Byte}

include here ok

theorem getRecord_live (live : f.contents rid = some data) : getRecord tabName rid (some txn) s =
    locking (lockSharedOnRecord txn rid f.fd s.locks) s fun locks =>
      (.ok data,⟨locks,s.files,s.log ++ [.read txn tabName rid data]⟩) := by
  obtain ⟨page,_,_,fetched,_,_,_,bytes⟩ := contents_live ok live
  rw [getRecord_run here,underLock_fetched _ txn fetched,← bytes]
  rfl

theorem updateRecord_live (live : f.contents rid = some data) {buf : List Byte}
    (size : buf.length = f.fileHdr.recordSize) : ∃ next : RmFile, next.Ok ∧ f.SameLayout next ∧
    next.contents = Function.update f.contents rid (some buf) ∧ updateRecord tabName rid buf (some txn) s =
      locking (lockExclusiveOnRecord txn rid f.fd s.locks) s fun locks =>
        (.ok (),⟨locks,Function.update s.files tabName (some next),s.log ++ [.write txn tabName rid]⟩) := by
  obtain ⟨page,nonzero,there,fetched,positive,bound,bit,_⟩ := contents_live ok live
  obtain ⟨fine,stored⟩ := overwriteRecord_ok ok nonzero there bound size
  have slot : (rid.slotNo.toNat : Int) = rid.slotNo := Int.toNat_of_nonneg positive
  rw [bit,if_pos rfl,slot] at stored
  exact ⟨_,fine,⟨rfl,rfl,rfl⟩,stored,by rw [updateRecord_run here,underLock_fetched _ txn fetched]; rfl⟩

theorem deleteRecord_live (live : f.contents rid = some data) : ∃ next : RmFile, next.Ok ∧ f.SameLayout next ∧
    next.contents = Function.update f.contents rid none ∧ deleteRecord tabName rid (some txn) s =
      locking (lockExclusiveOnRecord txn rid f.fd s.locks) s fun locks =>
        (.ok (),⟨locks,Function.update s.files tabName (some next),s.log ++ [.write txn tabName rid]⟩) := by
  obtain ⟨page,nonzero,there,fetched,positive,bound,bit,_⟩ := contents_live ok live
  obtain ⟨fine,erased⟩ := eraseRecord_ok ok nonzero there bound bit
  have slot : (rid.slotNo.toNat : Int) = rid.slotNo := Int.toNat_of_nonneg positive
  rw [slot] at erased
  obtain ⟨recordSize,slots,fd⟩ := @eraseRecord_layout f rid.pageNo page rid.slotNo.toNat
  exact ⟨_,fine,⟨fd,recordSize,slots⟩,erased,by rw [deleteRecord_run here,underLock_fetched _ txn fetched]; rfl⟩

/-- A row is added where there was none. A refused insertion may leave an empty page. -/
theorem insertRecord_free {buf : List Byte} (size : buf.length = f.fileHdr.recordSize) :
    ∃ (rid : Rid) (grown next : RmFile), f.freeSlot = some rid ∧ f.contents rid = none ∧
    grown.Ok ∧ f.SameLayout grown ∧ grown.contents = f.contents ∧
    next.Ok ∧ f.SameLayout next ∧ next.contents = Function.update f.contents rid (some buf) ∧
    insertRecord tabName buf (some txn) s =
      locking (lockExclusiveOnRecord txn rid f.fd s.locks) { s with files := Function.update s.files tabName (some grown) }
        fun locks => (.ok rid,⟨locks,Function.update s.files tabName (some next),s.log ++ [.write txn tabName rid]⟩) := by
  obtain ⟨p,page,made,created,fine,rows,first,nonzero,there,fd,_,slots,width,room⟩ := createPageHandle_ok ok
  rw [← slots] at room
  have bound := Bitmap.firstBit_free page _ room
  have clear := (Bitmap.firstBit_spec page false made.fileHdr.numRecordsPerPage).2.2 bound
  obtain ⟨good,stored⟩ := storeRecord_ok fine nonzero there first bound clear (by rw [width,size])
  have layout : f.SameLayout made := ⟨fd,width,slots⟩
  obtain ⟨recordSize,numSlots,same⟩ := @storeRecord_layout made p page
    (Bitmap.firstBit false page made.fileHdr.numRecordsPerPage) buf
  refine ⟨⟨p,Bitmap.firstBit false page made.fileHdr.numRecordsPerPage⟩,made,_,?_,?_,fine,layout,rows,good,
    layout.trans ⟨same,recordSize,numSlots⟩,by rw [stored,rows],?_⟩
  · rw [freeSlot,created]
    rfl
  · rw [← rows,contents_page there nonzero]
    simp [RmPage.row,clear]
  rw [insertRecord_run here,created]
  simp only [fd]
  rcases locked : lockExclusiveOnRecord txn
      ⟨p,Bitmap.firstBit false page made.fileHdr.numRecordsPerPage⟩ f.fd s.locks with ⟨e | _,locks⟩
  · simp [rowLock,locked,Except.map]
  · simp [rowLock,locked,Except.map,logged]

end Db

end Rucbase
