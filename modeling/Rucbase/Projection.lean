import Rucbase.ColumnValues
import Rucbase.SeqScan

/-! The projection. The selected columns, which may come in any order and more than once, are copied
one behind the other into a new record. -/
namespace Rucbase

open Lib Lib.Prog

namespace ProjectionExecutor

open AbstractExecutor

/-- The child's columns at `sel_idxs_`. -/
def selected (prevCols : List ColMeta) (selCols : List TabCol) : Except RMDBError (List ColMeta) :=
  selCols.mapM (findCol prevCols)

/-- `cols_`: the same columns one behind the other, from `currOffset` on. -/
def packed : Int → List ColMeta → List ColMeta
  | _, [] => []
  | currOffset, col :: rest => { col with offset := currOffset } :: packed (currOffset + col.len) rest

/-- `len_`. -/
def packedLen (cols : List ColMeta) : Int := (cols.map ColMeta.len).sum

/-- The loop of `Next`, over the columns of the child and of the projection. -/
def copy (prevRec : List Byte) : List ColMeta → List ColMeta → List Byte → List Byte
  | prevCol :: prevCols, projCol :: projCols, data =>
    copy prevRec prevCols projCols (memcpy data projCol.offset prevCol.len (prevRec.drop prevCol.offset.toNat))
  | _, _, data => data

/-- The new record, in memory that was `junk`. -/
def project (sel : List ColMeta) (junk : Nat → Byte) (prevRec : List Byte) : List Byte :=
  copy prevRec sel (packed 0 sel) (allocated junk (packedLen sel).toNat)

section Executor

variable {σ : Type} (prev : AbstractExecutor σ) (sel : List ColMeta) (junk : Nat → Byte)

def nextTuple : Prog σ (Halt RMDBError) Unit := do
  assertMore prev
  prev.nextTuple

def next : Prog σ (Halt RMDBError) (List Byte) := do
  assertMore prev
  let prevRec ← prev.next
  pure (project sel junk prevRec)

def executor : AbstractExecutor σ where
  tupleLen := (packedLen sel).toNat
  cols := packed 0 sel
  isEnd := prev.isEnd
  beginTuple := prev.beginTuple
  nextTuple := nextTuple prev
  next := next prev sel junk

end Executor

section Record

variable {sel : List ColMeta} {prevRec data : List Byte}

section Inside

variable (inside : ∀ col ∈ sel, InRecord prevRec.length col)

include inside

theorem packedLen_nonneg : 0 ≤ packedLen sel :=
  List.sum_nonneg (by simpa using fun col member => (inside col member).len)

theorem copy_packed {start : Nat}
    (room : (data.length : Int) = start + packedLen sel) :
    copy prevRec sel (packed start sel) data = data.take start ++ keyOf sel prevRec := by
  induction sel generalizing start data with
  | nil =>
    have whole : data.length ≤ start := by simpa [packedLen] using room.le
    simp [copy,keyOf,List.take_of_length_le whole]
  | cons col rest ih =>
    obtain ⟨here,others⟩ := List.forall_mem_cons.mp inside
    have len := here.len
    have later := packedLen_nonneg others
    rw [packedLen,List.map_cons,List.sum_cons,← packedLen] at room
    have bytes := ColMeta.bytes_length here
    have end' : (start : Int) + col.len = (start + col.len.toNat : Nat) := by omega
    have front : (data.take start ++ col.bytes prevRec).length = start + col.len.toNat := by
      rw [List.length_append,List.length_take,bytes]
      omega
    rw [packed,copy,end',memcpy,Int.toNat_natCast,← ColMeta.bytes,ih others]
    · rw [List.take_left' front,List.append_assoc]
      rfl
    · rw [List.length_append,front,List.length_drop]
      omega

theorem project_eq (junk : Nat → Byte) :
    project sel junk prevRec = keyOf sel prevRec := by
  have room : ((allocated junk (packedLen sel).toNat).length : Int) = (0 : Nat) + packedLen sel := by
    have := packedLen_nonneg inside
    simp only [allocated,List.length_map,List.length_range]
    omega
  exact copy_packed inside room

end Inside

end Record

theorem assertMore_run {σ : Type} {prev : AbstractExecutor σ} {s : σ} (more : prev.isEnd s = false) : assertMore prev s = (.ok (),s) := by
  rw [assertMore,bind_ok (state_run s)]
  exact check_run (by rw [more]; rfl) _ _

theorem next_run {σ : Type} {prev : AbstractExecutor σ} {s after : σ} {data : List Byte} (sel : List ColMeta) (junk : Nat → Byte)
    (more : prev.isEnd s = false) (read : prev.next s = (.ok data,after)) :
    (executor prev sel junk).next s = (.ok (project sel junk data),after) := by
  show (assertMore prev >>= fun _ => prev.next >>= fun prevRec => pure (project sel junk prevRec)) s = _
  rw [bind_ok (assertMore_run more),bind_ok read]
  rfl

end ProjectionExecutor

end Rucbase
