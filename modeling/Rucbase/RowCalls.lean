import Rucbase.Executors
import Rucbase.TableRows

/-! The calls of an executor on the rows of an open table. Each of them returns, unless a lock is
refused, and changes nothing but the rows of that table. -/
namespace Rucbase.SmManager

open Lib Lib.Prog
open LockManager hiding step start

def Refused (e : SmError) : Prop := ∃ reason, e = .thrown (.abort reason)

/-- The files are these, and nothing else differs but the locks and the log. -/
def Leaves (s : SmManager) (files : String → Option RmFile) (next : SmManager) : Prop :=
  ∃ rows, next = { s with rows := rows } ∧ rows.files = files

/-- The table now has the rows `contents`, in a file of the same layout, and nothing else differs. -/
def Holds (s : SmManager) (tabName : String) (f : RmFile) (contents : Rid → Option (List Byte)) (next : SmManager) : Prop :=
  ∃ f' : RmFile, f'.Ok ∧ f.SameLayout f' ∧ f'.contents = contents ∧
    Leaves s (Function.update s.rows.files tabName (some f')) next

variable {s next : SmManager} {tabName : String} {f : RmFile} {txn : TxnId} {rid : Rid} {data buf old : List Byte}

theorem Leaves.refl (s : SmManager) : Leaves s s.rows.files s := ⟨s.rows,rfl,rfl⟩

theorem Leaves.trans {mid : SmManager} {files files' : String → Option RmFile} (first : Leaves s files mid)
    (second : Leaves mid files' next) : Leaves s files' next := by
  obtain ⟨_,rfl,_⟩ := first
  exact second

theorem Leaves.files {files : String → Option RmFile} (leaves : Leaves s files next) : next.rows.files = files := by
  obtain ⟨_,rfl,same⟩ := leaves
  exact same

theorem Leaves.db {files : String → Option RmFile} (leaves : Leaves s files next) : next.db = s.db := by
  obtain ⟨_,rfl,_⟩ := leaves
  rfl

theorem fileOf_open (here : s.rows.files tabName = some f) : onRows (Db.fileOf tabName) s = (.ok f,s) := by
  simp [onRows,Db.fileOf_run here,Except.mapError]

theorem getTable_known {tab : TabMeta} (known : s.db.tabs.find tabName = some tab) :
    SmManager.lift (s.db.getTable tabName) s = (.ok tab,s) := by
  simp only [DbMeta.getTable,known]
  rfl

variable {α : Type} {a : α}

theorem lift_run {x : Except RMDBError α} (fine : x = .ok a) : SmManager.lift x s = (.ok a,s) := by
  rw [fine]
  rfl

theorem lift_ok {x : Except RMDBError α} (run : SmManager.lift x s = (.ok a,next)) : x = .ok a ∧ s = next := by
  cases x with
  | ok b =>
    obtain ⟨result,rfl⟩ := Prod.mk.inj run
    exact ⟨congrArg Except.ok (Except.ok.inj result),rfl⟩
  | error e => cases run

theorem onRows_locked {call : DbCall α} {outcome : Except TransactionAbortException Bool × LockState}
    {rows : LockState → Db} (shape : call s.rows = Db.locking outcome s.rows fun locks => (.ok a,rows locks)) :
    Ends Refused (fun result next => result = a ∧ ∃ locks, next = { s with rows := rows locks }) (onRows call) s := by
  match outcome with
  | (.error e,locks) => exact .of_error (by rw [onRows,shape]; rfl) ⟨e,rfl⟩
  | (.ok _,locks) => exact .of_ok (by rw [onRows,shape]; rfl) ⟨rfl,locks,rfl⟩

section Live

variable (here : s.rows.files tabName = some f) (ok : f.Ok) (live : f.contents rid = some data)

include here ok live

theorem getRecord_ends : Ends Refused (fun result next => result = data ∧ Leaves s s.rows.files next)
    (onRows (Db.getRecord tabName rid (some txn))) s := by
  refine (onRows_locked (Db.getRecord_live here ok txn live)).mono ?_
  rintro _ _ ⟨rfl,locks,rfl⟩
  exact ⟨rfl,_,rfl,rfl⟩

theorem updateRecord_ends (size : buf.length = f.fileHdr.recordSize) :
    Ends Refused (fun _ => Holds s tabName f (Function.update f.contents rid (some buf)))
      (onRows (Db.updateRecord tabName rid buf (some txn))) s := by
  obtain ⟨f',ok',layout,written,shape⟩ := Db.updateRecord_live here ok txn live size
  refine (onRows_locked shape).mono ?_
  rintro _ _ ⟨-,locks,rfl⟩
  exact ⟨f',ok',layout,written,_,rfl,rfl⟩

theorem deleteRecord_ends : Ends Refused (fun _ => Holds s tabName f (Function.update f.contents rid none))
    (onRows (Db.deleteRecord tabName rid (some txn))) s := by
  obtain ⟨f',ok',layout,erased,shape⟩ := Db.deleteRecord_live here ok txn live
  refine (onRows_locked shape).mono ?_
  rintro _ _ ⟨-,locks,rfl⟩
  exact ⟨f',ok',layout,erased,_,rfl,rfl⟩

end Live

end Rucbase.SmManager
