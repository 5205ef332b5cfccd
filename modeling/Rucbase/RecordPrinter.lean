import Rucbase.Defs
import Rucbase.Lib.Memory
import Rucbase.Lib.TextStream
import Mathlib.Data.Nat.Digits.Defs

/-! The table that answers a select. `RecordPrinter` appends cells to the reply as long as the footer still
fits behind them; the footer says whether something was left out. -/
namespace Rucbase.RecordPrinter

open Lib TextStream

def bufferLength : Nat := 8192
def recordCountLength : Nat := 40
def colWidth : Nat := 16

/-- How a call can end early: a failed assertion, or a copy that is not inside the buffer. -/
inductive Fault where
  | assertion
  | outside
  deriving DecidableEq, Repr

/-- What the printer uses of `Context`; `data_send_` is address 0. -/
structure Reply where
  dataSend : Mem Byte
  offset : Int
  ellipsis : Bool

abbrev Text := List Byte

def chars (text : List Char) : Text := text.map fun c => UInt8.ofNat c.toNat

/-- `memcpy` behind what is there. -/
def copy (str : Text) (r : Reply) : Except Fault Reply :=
  if 0 ≤ r.offset ∧ r.offset + str.length ≤ bufferLength then
    .ok { r with dataSend := r.dataSend.store r.offset str, offset := r.offset + str.length }
  else .error .outside

/-- A text that is appended when the footer has room behind it. All places but one set the ellipsis otherwise. -/
def append (marks : Bool) (str : Text) (r : Reply) : Except Fault Reply :=
  if r.ellipsis = false ∧ r.offset + recordCountLength + str.length < bufferLength then copy str r
  else .ok (if marks then { r with ellipsis := true } else r)

def separatorCell : Text := chars ('+' :: List.replicate (colWidth + 2) '-')
def separatorEnd : Text := chars ['+','\n']
def recordEnd : Text := chars ['|','\n']

def printSeparator (numCols : Nat) (r : Reply) : Except Fault Reply := do
  let r ← (List.replicate numCols separatorCell).foldlM (fun r str => append true str r) r
  append true separatorEnd r

def column (col : Text) : Text :=
  if col.length > colWidth then col.take (colWidth - 3) ++ chars ['.','.','.'] else col

/-- The column right-justified between its borders. -/
def recordCell (col : Text) : Text :=
  chars ['|',' '] ++ (chars (List.replicate (colWidth - (column col).length) ' ') ++ column col) ++ chars [' ']

def printRecord (numCols : Nat) (recStr : List Text) (r : Reply) : Except Fault Reply :=
  if recStr.length = numCols then do
    let r ← (recStr.map recordCell).foldlM (fun r str => append true str r) r
    append false recordEnd r
  else .error .assertion

def cutLine : Text := chars ['.','.','.',' ','.','.','.','\n']

def countLine (numRec : Nat) : Text := chars ("Total record(s): ".toList ++ natText numRec ++ ['\n'])

def printRecordCount (numRec : Nat) (r : Reply) : Except Fault Reply :=
  copy ((if r.ellipsis then cutLine else []) ++ countLine numRec) r

/-- What `select_from` prints, given the texts of the rows that the executor returns. -/
def selectFrom (captions : List Text) (rows : List (List Text)) (r : Reply) : Except Fault Reply :=
  if 0 < captions.length then do
    let r ← printSeparator captions.length r
    let r ← printRecord captions.length captions r
    let r ← printSeparator captions.length r
    let r ← rows.foldlM (fun r row => printRecord captions.length row r) r
    let r ← printSeparator captions.length r
    printRecordCount rows.length r
  else .error .assertion

def separatorCells (numCols : Nat) : List Text := List.replicate numCols separatorCell ++ [separatorEnd]

def recordCells (recStr : List Text) : List Text := recStr.map recordCell ++ [recordEnd]

/-- The cells of the table when none is left out. -/
def rendering (captions : List Text) (rows : List (List Text)) : List Text :=
  separatorCells captions.length ++ recordCells captions ++ separatorCells captions.length ++
    rows.flatMap recordCells ++ separatorCells captions.length

/-- The bytes a client is sent. -/
def Reply.output (r : Reply) : Text := r.dataSend.load 0 r.offset.toNat

section Progress

variable {initial : Mem Byte} {written : Text} {cells : List Text} {r : Reply} {str : Text}

/-- The buffer holds this text and has room for the footer. -/
structure Holds (initial : Mem Byte) (written : Text) (r : Reply) : Prop where
  data : r.dataSend = initial.store 0 written
  offset : r.offset = written.length
  room : r.offset + recordCountLength < bufferLength

/-- The first of the cells left out does not fit behind those shown. -/
def Unfit (shown left : List Text) : Prop :=
  ∀ cell ∈ left.head?, bufferLength ≤ shown.flatten.length + recordCountLength + cell.length

/-- The cells are there up to those left out for want of room, and `cut` holds if there are any. -/
def Shown (initial : Mem Byte) (cells : List Text) (r : Reply) (cut : Prop) : Prop :=
  ∃ shown left, cells = shown ++ left ∧ Holds initial shown.flatten r ∧ Unfit shown left ∧
    (left = [] ∧ r.ellipsis = false ∨ left ≠ [] ∧ cut)

/-- Nothing more will be written. -/
def Full (r : Reply) : Prop := r.ellipsis = true ∨ bufferLength ≤ r.offset + recordCountLength + 2

def Progress (initial : Mem Byte) (cells : List Text) (r : Reply) : Prop := Shown initial cells r (Full r)

def Marked (initial : Mem Byte) (cells : List Text) (r : Reply) : Prop := Shown initial cells r (r.ellipsis = true)

theorem Marked.progress (marked : Marked initial cells r) : Progress initial cells r := by
  obtain ⟨shown,left,parts,holds,unfit,state⟩ := marked
  exact ⟨shown,left,parts,holds,unfit,state.imp_right fun cut => ⟨cut.1,.inl cut.2⟩⟩

theorem Holds.copied (holds : Holds initial written r) (fits : r.offset + str.length ≤ bufferLength) :
    copy str r = .ok { r with dataSend := initial.store 0 (written ++ str), offset := (written ++ str).length } := by
  have place := holds.offset
  rw [copy,if_pos ⟨by omega,fits⟩,Mem.store_append,← holds.data,List.length_append,Nat.cast_add,← place,Int.zero_add]

/-- After a cell was left out there is no room for another: each has two bytes or more, and one that sets no
ellipsis has two. -/
theorem append_progress (progress : Progress initial cells r) (marks : Bool) (size : 2 ≤ str.length)
    (short : marks = false → str.length = 2) : ∃ next, append marks str r = .ok next ∧
      Progress initial (cells ++ [str]) next ∧ (marks = true → Marked initial (cells ++ [str]) next) := by
  obtain ⟨shown,left,rfl,holds,unfit,state⟩ := progress
  have room := holds.room
  have place := holds.offset
  unfold append
  by_cases fits : r.ellipsis = false ∧ r.offset + recordCountLength + str.length < bufferLength
  · have none : left = [] := by
      rcases state with ⟨all,_⟩ | ⟨_,cut | full⟩
      · exact all
      · exact absurd (cut.symm.trans fits.1) (by decide)
      · omega
    subst none
    rw [if_pos fits,holds.copied (by omega)]
    have marked : Marked initial (shown ++ [] ++ [str]) { r with
        dataSend := initial.store 0 (shown.flatten ++ str), offset := (shown.flatten ++ str).length } := by
      refine ⟨shown ++ [str],[],by simp,⟨by simp,by simp,?_⟩,by simp [Unfit],.inl ⟨rfl,fits.1⟩⟩
      simp only [List.length_append,Nat.cast_add] at place ⊢
      omega
    exact ⟨_,rfl,marked.progress,fun _ => marked⟩
  · rw [if_neg fits]
    have unfit : Unfit shown (left ++ [str]) := by
      rcases state with ⟨rfl,clear⟩ | ⟨cut,_⟩
      · simp only [clear,true_and] at fits
        simp only [Unfit,List.nil_append,List.head?_cons,Option.mem_some_iff,forall_eq']
        omega
      · rwa [Unfit,List.head?_append_of_ne_nil _ cut]
    cases marks with
    | true =>
      have marked : Marked initial (shown ++ left ++ [str]) { r with ellipsis := true } :=
        ⟨shown,left ++ [str],List.append_assoc ..,⟨holds.data,holds.offset,holds.room⟩,unfit,.inr ⟨by simp,rfl⟩⟩
      exact ⟨_,rfl,marked.progress,fun _ => marked⟩
    | false =>
      have full : Full r := by
        rcases state with ⟨_,clear⟩ | ⟨_,full⟩
        · have two := short rfl
          exact .inr (by simp only [clear,true_and] at fits; omega)
        · exact full
      exact ⟨r,rfl,⟨shown,left ++ [str],List.append_assoc ..,holds,unfit,.inr ⟨by simp,full⟩⟩,fun marks => by cases marks⟩

theorem appends_progress (progress : Progress initial cells r) (strs : List Text) (sizes : ∀ str ∈ strs, 2 ≤ str.length) :
    ∃ next, strs.foldlM (fun r str => append true str r) r = .ok next ∧ Progress initial (cells ++ strs) next := by
  induction strs generalizing cells r with
  | nil => exact ⟨r,rfl,by rwa [List.append_nil]⟩
  | cons str strs ih =>
    obtain ⟨mid,first,here,_⟩ := append_progress progress true (sizes str List.mem_cons_self) (fun marks => by cases marks)
    obtain ⟨next,others,there⟩ := ih here fun str member => sizes str (List.mem_cons_of_mem _ member)
    rw [List.append_assoc] at there
    exact ⟨next,by rw [List.foldlM_cons,first]; exact others,there⟩

theorem printSeparator_marked (progress : Progress initial cells r) (numCols : Nat) : ∃ next,
    printSeparator numCols r = .ok next ∧ Marked initial (cells ++ separatorCells numCols) next := by
  obtain ⟨mid,line,here⟩ := appends_progress progress (List.replicate numCols separatorCell) (by
    intro str member
    rw [List.eq_of_mem_replicate member]
    decide)
  obtain ⟨next,last,_,marked⟩ := append_progress here true (show 2 ≤ separatorEnd.length by decide) (fun marks => by cases marks)
  rw [List.append_assoc] at marked
  exact ⟨next,by rw [printSeparator,line]; exact last,marked rfl⟩

theorem recordCell_size (col : Text) : 2 ≤ (recordCell col).length := by
  simp only [recordCell,chars,List.length_append,List.length_map,List.length_cons]
  omega

theorem printRecord_progress (progress : Progress initial cells r) {numCols : Nat} {recStr : List Text}
    (shape : recStr.length = numCols) : ∃ next, printRecord numCols recStr r = .ok next ∧
      Progress initial (cells ++ recordCells recStr) next := by
  obtain ⟨mid,line,here⟩ := appends_progress progress (recStr.map recordCell) (by
    intro str member
    obtain ⟨col,_,rfl⟩ := List.mem_map.mp member
    exact recordCell_size col)
  obtain ⟨next,last,there,_⟩ := append_progress here false (show 2 ≤ recordEnd.length by decide) (fun _ => rfl)
  rw [List.append_assoc] at there
  exact ⟨next,by rw [printRecord,if_pos shape,line]; exact last,there⟩

theorem printRecords_progress (progress : Progress initial cells r) {numCols : Nat} {rows : List (List Text)}
    (shape : ∀ row ∈ rows, row.length = numCols) : ∃ next,
      rows.foldlM (fun r row => printRecord numCols row r) r = .ok next ∧
      Progress initial (cells ++ rows.flatMap recordCells) next := by
  induction rows generalizing cells r with
  | nil => exact ⟨r,rfl,by rwa [List.flatMap_nil,List.append_nil]⟩
  | cons row rows ih =>
    obtain ⟨mid,first,here⟩ := printRecord_progress progress (shape row List.mem_cons_self)
    obtain ⟨next,others,there⟩ := ih here fun row member => shape row (List.mem_cons_of_mem _ member)
    rw [List.append_assoc] at there
    exact ⟨next,by rw [List.foldlM_cons,first]; exact others,there⟩

end Progress

section Table

variable {captions : List Text} {rows : List (List Text)} {initial : Mem Byte}

theorem table_marked (shape : ∀ row ∈ rows, row.length = captions.length) (initial : Mem Byte) (some : captions ≠ []) :
    ∃ r, selectFrom captions rows ⟨initial,0,false⟩ = printRecordCount rows.length r ∧
      Marked initial (rendering captions rows) r := by
  have start : Progress initial [] ⟨initial,0,false⟩ :=
    ⟨[],[],rfl,⟨by funext x; simp [Mem.store],rfl,by simp [recordCountLength,bufferLength]⟩,by simp [Unfit],
      .inl ⟨rfl,rfl⟩⟩
  obtain ⟨a,top,shown⟩ := printSeparator_marked start captions.length
  obtain ⟨b,head,shown⟩ := printRecord_progress shown.progress rfl
  obtain ⟨c,line,shown⟩ := printSeparator_marked shown captions.length
  obtain ⟨d,body,shown⟩ := printRecords_progress shown.progress shape
  obtain ⟨e,bottom,shown⟩ := printSeparator_marked shown captions.length
  refine ⟨e,?_,shown⟩
  rw [selectFrom,if_pos (List.length_pos_of_ne_nil some)]
  simp only [top,head,line,body,bottom,bind,Except.bind]

theorem countLine_length {numRec : Nat} (few : numRec < 10 ^ 14) : (countLine numRec).length ≤ 32 := by
  have digits : (natText numRec).length ≤ 14 := Nat.toDigits_length 10 numRec 14 (by decide) few
  have words : "Total record(s): ".toList.length = 17 := rfl
  simp only [countLine,chars,List.length_map,List.length_append,List.length_singleton,words]
  omega

/-- Cells are left out only when the table does not fit before the footer. -/
theorem left_nil_iff {shown left : List Text} (room : shown.flatten.length + recordCountLength < bufferLength)
    (unfit : Unfit shown left) : left = [] ↔ (shown ++ left).flatten.length + recordCountLength < bufferLength := by
  cases left with
  | nil => simpa using room
  | cons cell left =>
    have past := unfit cell rfl
    simp only [reduceCtorEq,List.flatten_append,List.flatten_cons,List.length_append,false_iff]
    omega

/-- A select's reply stays inside the buffer. It is a run of whole cells from the start of the table, the line
of the ellipsis if a cell is missing, and the count. The run ends only at a cell for which there is no room. -/
theorem select_reply (some : captions ≠ []) (shape : ∀ row ∈ rows, row.length = captions.length)
    (few : rows.length < 10 ^ 14) (initial : Mem Byte) : ∃ r shown left,
      selectFrom captions rows ⟨initial,0,false⟩ = .ok r ∧ r.offset + 1 ≤ bufferLength ∧
      (∀ x : Int, x < 0 ∨ bufferLength ≤ x → r.dataSend x = initial x) ∧ rendering captions rows = shown ++ left ∧
      (∀ cell ∈ left.head?, bufferLength ≤ shown.flatten.length + recordCountLength + cell.length) ∧
      (left = [] ↔ (rendering captions rows).flatten.length + recordCountLength < bufferLength) ∧
      r.output = shown.flatten ++ (if left ≠ [] then cutLine else []) ++ countLine rows.length := by
  obtain ⟨r,printed,shown,left,parts,holds,unfit,state⟩ := table_marked shape initial some
  have mark : (if r.ellipsis then cutLine else []) = if left ≠ [] then cutLine else [] := by
    rcases state with ⟨all,clear⟩ | ⟨cut,set⟩
    · rw [clear,all]
      rfl
    · rw [set,if_pos cut]
      rfl
  have count := countLine_length few
  have cut : (if left ≠ [] then cutLine else []).length ≤ 8 := by split <;> decide
  have room := holds.room
  have place := holds.offset
  have size : ((if left ≠ [] then cutLine else []) ++ countLine rows.length).length ≤ 40 := by
    rw [List.length_append]
    omega
  have all : left = [] ↔ (rendering captions rows).flatten.length + recordCountLength < bufferLength := by
    rw [parts]
    exact left_nil_iff (by omega) unfit
  simp only [recordCountLength,bufferLength] at room
  have counted := holds.copied (show r.offset + ((if left ≠ [] then cutLine else []) ++ countLine rows.length).length ≤
    bufferLength by simp only [bufferLength]; omega)
  rw [printRecordCount,mark,counted] at printed
  refine ⟨_,shown,left,printed,?_,?_,parts,unfit,all,?_⟩
  · simp only [List.length_append,Nat.cast_add,bufferLength] at place size ⊢
    omega
  · intro x outside
    apply Mem.store_outside
    simp only [List.length_append,Nat.cast_add,bufferLength] at place size outside ⊢
    omega
  · rw [Reply.output,List.append_assoc]
    exact Mem.load_store_self (Int.toNat_natCast _).symm

def manyRows : List (List Text) := (List.range 400).map fun n => [chars (natText n)]

theorem manyRows_cut : (∀ row ∈ manyRows, row.length = 1) ∧ ∃ r shown left,
    selectFrom [chars ['i','d']] manyRows ⟨fun _ => 0,0,false⟩ = .ok r ∧ r.offset + 1 ≤ bufferLength ∧ left ≠ [] ∧
    rendering [chars ['i','d']] manyRows = shown ++ left ∧
    (∀ cell ∈ left.head?, bufferLength ≤ shown.flatten.length + recordCountLength + cell.length) ∧
    r.output = shown.flatten ++ cutLine ++ countLine 400 := by
  have shape : ∀ row ∈ manyRows, row.length = 1 := by simp [manyRows]
  have long : ¬ (rendering [chars ['i','d']] manyRows).flatten.length + recordCountLength < bufferLength := by decide +kernel
  obtain ⟨r,shown,left,ran,inside,_,parts,unfit,all,output⟩ :=
    select_reply (List.cons_ne_nil (chars ['i','d']) []) shape (by simp [manyRows]) fun _ => 0
  have cut : left ≠ [] := fun none => long (all.mp none)
  rw [if_pos cut,show manyRows.length = 400 by simp [manyRows]] at output
  exact ⟨shape,r,shown,left,ran,inside,cut,parts,unfit,output⟩

end Table

end Rucbase.RecordPrinter
