import Rucbase.TableCreate

/-! The layout of a new table. Only the sum of the lengths is looked at, and that is an `int`: a
negative length, or an overflow, can make up for columns that have no room in the record. -/
namespace Rucbase

open Lib Lib.Prog

/-- The column lies inside a record of the size. -/
structure InRecord (size : Nat) (col : ColMeta) : Prop where
  len : 0 ≤ col.len
  offset : 0 ≤ col.offset
  fits : col.offset + col.len ≤ size

def ColMeta.Covers (col : ColMeta) (i : Int) : Prop := col.offset ≤ i ∧ i < col.offset + col.len

namespace SmManager

/-- The additions of the loop, from `offset` on, do not overflow. -/
def Adds : Int → List ColDef → Prop
  | _, [] => True
  | offset, col :: rest => (-2 ^ 31 ≤ offset + col.len ∧ offset + col.len < 2 ^ 31) ∧ Adds (offset + col.len) rest

variable {tabName : String} {colDefs : List ColDef} {offset : Int} {size : Nat}

theorem Adds.sum (adds : Adds offset colDefs) :
    colDefs.foldl (fun offset col => addInt offset col.len) offset = offset + (colDefs.map ColDef.len).sum := by
  induction colDefs generalizing offset with
  | nil => exact (Int.add_zero offset).symm
  | cons col rest ih =>
    obtain ⟨⟨low,high⟩,later⟩ := adds
    rw [List.foldl_cons,addInt_exact low high,ih later,List.map_cons,List.sum_cons,Int.add_assoc]

theorem adds_of_lens (lens : ∀ col ∈ colDefs, 0 ≤ col.len) (positive : 0 ≤ offset)
    (small : offset + (colDefs.map ColDef.len).sum < 2 ^ 31) : Adds offset colDefs := by
  induction colDefs generalizing offset with
  | nil => trivial
  | cons col rest ih =>
    obtain ⟨here,later⟩ := List.forall_mem_cons.mp lens
    have total : 0 ≤ (rest.map ColDef.len).sum := List.sum_nonneg (by simpa using later)
    rw [List.map_cons,List.sum_cons] at small
    exact ⟨⟨by omega,by omega⟩,ih later (by omega) (by omega)⟩

theorem adds_of_inside (small : size < 2 ^ 31) (inside : ∀ col ∈ layout tabName offset colDefs, InRecord size col) :
    Adds offset colDefs := by
  induction colDefs generalizing offset with
  | nil => trivial
  | cons col rest ih =>
    obtain ⟨⟨len,start,fits⟩,later⟩ := List.forall_mem_cons.mp inside
    dsimp only at len start fits
    have low : -2 ^ 31 ≤ offset + col.len := by omega
    have high : offset + col.len < 2 ^ 31 := by omega
    rw [addInt_exact low high] at later
    exact ⟨⟨low,high⟩,ih later⟩

variable (tabName) in
theorem layout_ordered (adds : Adds offset colDefs) (lens : ∀ col ∈ colDefs, 0 ≤ col.len) :
    (∀ col ∈ layout tabName offset colDefs, 0 ≤ col.len ∧ offset ≤ col.offset ∧
      col.offset + col.len ≤ offset + (colDefs.map ColDef.len).sum) ∧
    (layout tabName offset colDefs).Pairwise fun a b => a.offset + a.len ≤ b.offset := by
  induction colDefs generalizing offset with
  | nil => exact ⟨nofun,.nil⟩
  | cons col rest ih =>
    obtain ⟨⟨low,high⟩,later⟩ := adds
    obtain ⟨here,others⟩ := List.forall_mem_cons.mp lens
    obtain ⟨bounds,ordered⟩ := ih later others
    have total : 0 ≤ (rest.map ColDef.len).sum := List.sum_nonneg (by simpa using others)
    rw [layout,addInt_exact low high,List.map_cons,List.sum_cons]
    refine ⟨List.forall_mem_cons.mpr ⟨⟨here,Int.le_refl _,?_⟩,fun other member => ?_⟩,List.pairwise_cons.mpr ⟨?_,ordered⟩⟩
    · dsimp only
      omega
    · obtain ⟨len,start,fits⟩ := bounds other member
      exact ⟨len,by omega,by omega⟩
    · exact fun other member => (bounds other member).2.1

theorem layout_inside (adds : Adds 0 colDefs) (lens : ∀ col ∈ colDefs, 0 ≤ col.len)
    (whole : (colDefs.map ColDef.len).sum ≤ size) : ∀ col ∈ layout tabName 0 colDefs, InRecord size col := by
  intro col member
  obtain ⟨len,start,fits⟩ := (layout_ordered tabName adds lens).1 col member
  exact ⟨len,start,by omega⟩

/-- The lengths are added without an overflow to the size of the record, and each column has a range
of its own inside it. -/
structure SoundLayout (colDefs : List ColDef) (cols : List ColMeta) (recordSize : Int) : Prop where
  exact : Adds 0 colDefs
  inside : ∀ col ∈ cols, 0 ≤ col.len ∧ 0 ≤ col.offset ∧ col.offset + col.len ≤ recordSize
  apart : cols.Pairwise fun a b => ∀ i, ¬(a.Covers i ∧ b.Covers i)
  total : recordSize = (cols.map ColMeta.len).sum
  bounded : recordSize ≤ rmMaxRecordSize

theorem layout_lens (tabName : String) (offset : Int) (colDefs : List ColDef) :
    (layout tabName offset colDefs).map ColMeta.len = colDefs.map ColDef.len := by
  induction colDefs generalizing offset with
  | nil => rfl
  | cons col rest ih => rw [layout,List.map_cons,List.map_cons,ih]

def SameDb (s next : SmManager) : Prop := next.db = s.db

theorem sameDb_frame : Frame SameDb := ⟨fun _ => rfl,fun _ _ _ first second => second.trans first⟩

theorem lockTable_sameDb (request : TxnId → Int → LockManager.Call) (txn : TxnId) : Within SameDb (lockTable request txn tabName) := by
  refine sameDb_frame.bind sameDb_frame.state fun s => ?_
  split
  · exact sameDb_frame.raise _
  · exact sameDb_frame.bind (fun _ => rfl) fun _ => sameDb_frame.pure _

theorem createTable_accepted {s next : SmManager} {context : Option TxnId}
    (run : createTable tabName colDefs context s = (.ok (),next)) :
    1 ≤ recordSize colDefs ∧ recordSize colDefs ≤ rmMaxRecordSize ∧
      next.db.tabs.find tabName = some ⟨tabName,layout tabName 0 colDefs,[]⟩ := by
  rw [createTable,bind_ok (state_run s)] at run
  split at run
  · cases run
  obtain ⟨_,s1,creating,run⟩ := bind_ok_split run
  obtain ⟨_,s2,entering,run⟩ := bind_ok_split run
  have valid : ¬(recordSize colDefs < 1 ∨ recordSize colDefs > rmMaxRecordSize) := by
    intro invalid
    rw [onPool,RmManager.createFile,if_pos invalid] at creating
    cases creating
  have entered : s2.db.tabs.find tabName = some ⟨tabName,layout tabName 0 colDefs,[]⟩ := by
    obtain ⟨-,rfl⟩ := Prod.mk.inj entering
    exact OrderedMap.find_assign_self _ _ _
  have same : next.db = s2.db := by
    refine Within.ran (R := SameDb) ?_ run
    refine sameDb_frame.bind (fun _ => rfl) fun handle => ?_
    refine sameDb_frame.bind (Within.update fun _ => rfl) fun _ => ?_
    cases context with
    | none => exact Within.update fun _ => rfl
    | some txn => exact sameDb_frame.bind (lockTable_sameDb _ _) fun _ => Within.update fun _ => rfl
  exact ⟨by omega,by omega,by rw [same,entered]⟩

/-- The layout of an accepted schema is sound if and only if no length is negative and the lengths
do not add up to more than an `int`. -/
theorem layout_sound_iff {s next : SmManager} {context : Option TxnId}
    (run : createTable tabName colDefs context s = (.ok (),next)) :
    (∃ tab, next.db.tabs.find tabName = some tab ∧ SoundLayout colDefs tab.cols (recordSize colDefs)) ↔
      (∀ col ∈ colDefs, 0 ≤ col.len) ∧ (colDefs.map ColDef.len).sum < 2 ^ 31 := by
  obtain ⟨_,upper,entered⟩ := createTable_accepted run
  constructor
  · rintro ⟨tab,found,sound⟩
    obtain rfl := Option.mem_unique entered found
    have lens := layout_lens tabName 0 colDefs
    refine ⟨fun col member => ?_,?_⟩
    · obtain ⟨placed,among,same⟩ := List.mem_map.mp (lens ▸ List.mem_map_of_mem member)
      rw [← same]
      exact (sound.inside placed among).1
    · have total := sound.total
      rw [lens] at total
      simp only [rmMaxRecordSize] at upper
      omega
  · rintro ⟨lens,small⟩
    have adds := adds_of_lens lens (Int.le_refl 0) (by omega)
    have total : recordSize colDefs = (colDefs.map ColDef.len).sum := adds.sum.trans (Int.zero_add _)
    obtain ⟨bounds,ordered⟩ := layout_ordered tabName adds lens
    refine ⟨_,entered,adds,fun col member => ?_,ordered.imp fun behind i covers => ?_,?_,upper⟩
    · obtain ⟨len,start,fits⟩ := bounds col member
      exact ⟨len,start,by omega⟩
    · obtain ⟨first,second⟩ := covers
      have := first.2
      have := second.1
      omega
    · rw [layout_lens,total]

/-- `a CHAR(-4), b CHAR(8)`: four bytes for the record, and `b` begins in front of it. -/
def shrunk : List ColDef := [⟨"a",.string,-4⟩,⟨"b",.string,8⟩]

theorem negative_length_accepted : ∃ next, createTable "t" shrunk (some 1) noTables = (.ok (),next) ∧
    ¬∃ tab, next.db.tabs.find "t" = some tab ∧ SoundLayout shrunk tab.cols (recordSize shrunk) := by
  have run : createTable "t" shrunk (some 1) noTables = (.ok (),(createTable "t" shrunk (some 1)).after noTables) :=
    Prod.ext (by decide +kernel) rfl
  refine ⟨_,run,?_⟩
  rintro ⟨tab,found,sound⟩
  obtain rfl := Option.some.inj ((createTable_accepted run).2.2.symm.trans found)
  exact absurd (sound.inside _ (List.mem_cons_self ..)).1 (by decide)

theorem wideTable_sound : ∃ tab, wideTable.db.tabs.find "t" = some tab ∧
    SoundLayout [⟨"a",.int,4⟩,⟨"b",.string,500⟩] tab.cols 504 :=
  (layout_sound_iff wideTable_run).mpr ⟨by decide,by decide⟩

end SmManager

end Rucbase
