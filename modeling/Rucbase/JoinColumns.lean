import Rucbase.NestedLoopJoin
import Rucbase.Analyze

/-! The columns of the executors of a join tree, and the comparison of two columns from its two
sides. `ix_compare` is given the length of the left column for both. -/
namespace Rucbase

open Lib Analyze Plan Planner

namespace Plan

variable (db : DbMeta)

/-- `cols()` and `tupleLen()` of the executor that `convert_plan_executor` makes. -/
def output : Plan → List ColMeta × Nat
  | .scan plan =>
    match db.tabs.find plan.tabName with
    | some tab => (tab.cols,match tab.cols.getLast? with
      | some col => (col.offset + col.len).toNat
      | none => 0)
    | none => ([],0)
  | .join left right _ => (NestedLoopJoinExecutor.joined left.output.1 right.output.1 left.output.2,left.output.2 + right.output.2)

def cols (plan : Plan) : List ColMeta := (plan.output db).1

def tupleLen (plan : Plan) : Nat := (plan.output db).2

end Plan

/-- The column of the catalog that a condition names. -/
def DbMeta.column (db : DbMeta) (ref : TabCol) : Option ColMeta := do
  let tab ← db.tabs.find ref.tabName
  tab.cols.find? fun col => col.name == ref.colName

/-- The same column at another place. -/
def ColMeta.at (col : ColMeta) (offset : Int) : ColMeta := { col with offset := offset }

section Find

open NestedLoopJoinExecutor

variable {cols left right : List ColMeta} {ref : TabCol} {col : ColMeta}

theorem findCol_ok : findCol cols ref = .ok col ↔
    cols.find? (fun col => col.tabName == ref.tabName && col.name == ref.colName) = some col := by
  rw [findCol]
  cases cols.find? fun col => col.tabName == ref.tabName && col.name == ref.colName with
  | none => exact iff_of_false (by simp) (by simp)
  | some found => exact ⟨fun same => congrArg some (Except.ok.inj same),fun same => congrArg Except.ok (Option.some.inj same)⟩

theorem findCol_joined_left (right : List ColMeta) (n : Nat) (found : findCol left ref = .ok col) :
    findCol (joined left right n) ref = .ok col := by
  rw [findCol_ok] at found ⊢
  rw [joined,List.find?_append,found]
  rfl

theorem findCol_joined_right (n : Nat) (missing : ∀ col ∈ left, col.tabName ≠ ref.tabName) (found : findCol right ref = .ok col) :
    findCol (joined left right n) ref = .ok (col.at (col.offset + n)) := by
  rw [findCol_ok] at found ⊢
  have none : left.find? (fun col => col.tabName == ref.tabName && col.name == ref.colName) = none :=
    List.find?_eq_none.mpr fun col member => by simp [missing col member]
  rw [joined,List.find?_append,none,List.find?_map]
  exact congrArg (Option.map _) found

end Find

namespace Plan

variable {db : DbMeta} (named : ∀ tabName tab, db.tabs.find tabName = some tab → ∀ col ∈ tab.cols, col.tabName = tabName)

include named

theorem cols_tables (plan : Plan) : ∀ col ∈ plan.cols db, col.tabName ∈ plan.tables := by
  induction plan with
  | scan plan =>
    intro col member
    simp only [cols,output] at member
    match found : db.tabs.find plan.tabName with
    | none => simp [found] at member
    | some tab =>
      rw [found] at member
      simp [tables,scans,named _ tab found col member]
  | join left right conds leftIh rightIh =>
    intro col member
    rw [tables_join,List.mem_append]
    rcases List.mem_append.mp (show col ∈ left.cols db ++ _ from member) with inside | inside
    · exact .inl (leftIh col inside)
    · obtain ⟨own,there,rfl⟩ := List.mem_map.mp inside
      exact .inr (rightIh own there)

theorem findCol_cols {ref : TabCol} {col : ColMeta} (known : db.column ref = some col) (plan : Plan)
    (member : ref.tabName ∈ plan.tables) : ∃ offset, findCol (plan.cols db) ref = .ok (col.at offset) := by
  induction plan with
  | scan plan =>
    have same : ref.tabName = plan.tabName := by simpa [tables,scans] using member
    obtain ⟨tab,found,first⟩ := Option.bind_eq_some_iff.mp known
    refine ⟨col.offset,?_⟩
    rw [findCol_ok,cols,output,← same,found]
    have alike : tab.cols.find? (fun col => col.tabName == ref.tabName && col.name == ref.colName) =
        tab.cols.find? fun col => col.name == ref.colName :=
      List.find?_congr fun col inside => by simp [named _ tab found col inside]
    exact alike.trans first
  | join left right conds leftIh rightIh =>
    by_cases inside : ref.tabName ∈ left.tables
    · obtain ⟨offset,found⟩ := leftIh inside
      exact ⟨offset,findCol_joined_left _ _ found⟩
    · rw [tables_join,List.mem_append] at member
      obtain ⟨offset,found⟩ := rightIh (member.resolve_left inside)
      refine ⟨offset + left.tupleLen db,findCol_joined_right _ (fun col among same => inside ?_) found⟩
      exact same ▸ cols_tables named left col among

end Plan

theorem CompOp.swap_holds (op : CompOp) (cmp : Int) : op.swap.holds (-cmp) = op.holds cmp := by
  cases op <;> simp [CompOp.swap,CompOp.holds]

namespace NestedLoopJoinExecutor

/-- How many bytes `ix_compare` reads at each of its two pointers; `memcmp` takes the length as a
`size_t`. -/
def ixCompareReads (type : ColType) (len : Int) : Int :=
  match type with
  | .int => 4
  | .float => 4
  | .string => if 0 ≤ len then len else 2 ^ 64 + len

/-- `eval_cond` on two columns reads no byte behind either of them. -/
def ReadsInside (recCols : List ColMeta) (cond : Condition) : Prop :=
  ∃ lhs rhs, findCol recCols cond.lhsCol = .ok lhs ∧ findCol recCols cond.rhsCol = .ok rhs ∧
    ixCompareReads rhs.type lhs.len ≤ lhs.len ∧ ixCompareReads rhs.type lhs.len ≤ rhs.len

variable {type : ColType} {tabNames : List String} {conds checked : List Condition}

theorem ixCompareReads_inside {a b : Int} (numbers : type ≠ .string → a = 4 ∧ b = 4) :
    (ixCompareReads type a ≤ a ∧ ixCompareReads type a ≤ b) ∧ (ixCompareReads type b ≤ b ∧ ixCompareReads type b ≤ a) ↔
      (type = .string → a = b ∧ 0 ≤ a) := by
  cases type with
  | int => simp [ixCompareReads,numbers]
  | float => simp [ixCompareReads,numbers]
  | string =>
    simp only [ixCompareReads,forall_const]
    split <;> split <;> omega

theorem ixCompareCol_exchange {a b : Nat} (lengths : type = .string → a = b) (x y : List Byte) :
    ixCompareCol type b y x = -ixCompareCol type a x y := by
  rw [← ixCompareCol_swap]
  cases type with
  | int => rfl
  | float => rfl
  | string => rw [lengths rfl]

section Columns

variable {left right : List ColMeta} {cond : Condition} {l r : ColMeta} {n : Nat} (column : cond.isRhsVal = false)
  (lhs : findCol left cond.lhsCol = .ok l) (rhs : findCol right cond.rhsCol = .ok r)
  (apart : ∀ col ∈ left, col.tabName ≠ cond.rhsCol.tabName)

include lhs rhs apart

include column in
theorem evalCond_columns (types : l.type = r.type) (lrec rrec : List Byte) :
    evalCond (joined left right n) n cond lrec rrec =
      .ok (cond.op.holds (ixCompareCol l.type l.len.toNat (lrec.drop l.offset.toNat) (rrec.drop r.offset.toNat))) := by
  have place : (r.at (r.offset + n)).offset - n = r.offset := Int.add_sub_cancel r.offset n
  have same : (r.at (r.offset + n)).type = l.type := types.symm
  rw [evalCond,findCol_joined_left _ _ lhs,column,findCol_joined_right _ apart rhs]
  show (if (r.at _).type = l.type then _ else _) = _
  rw [if_pos same,place,same]

theorem readsInside_columns : ReadsInside (joined left right n) cond ↔
    ixCompareReads r.type l.len ≤ l.len ∧ ixCompareReads r.type l.len ≤ r.len := by
  have foundLeft := findCol_joined_left right n lhs
  have foundRight := findCol_joined_right n apart rhs
  constructor
  · rintro ⟨first,second,isFirst,isSecond,inside⟩
    obtain rfl := Except.ok.inj (foundLeft.symm.trans isFirst)
    obtain rfl := Except.ok.inj (foundRight.symm.trans isSecond)
    exact inside
  · exact fun inside => ⟨l,_,foundLeft,foundRight,inside⟩

end Columns

section Swap

variable {db : DbMeta} {cond : Condition} {l r : ColMeta}

theorem column_of {ref : TabCol} {tab : TabMeta} {col : ColMeta} (table : db.getTable ref.tabName = .ok tab)
    (found : tab.getCol ref.colName = .ok col) : db.column ref = some col := by
  have there : tab.cols.find? (fun col => col.name == ref.colName) = some col := by
    rw [TabMeta.getCol] at found
    split at found
    · rename_i same
      rw [same,Except.ok.inj found]
    · cases found
  rw [DbMeta.column,getTable_ok table]
  exact there

theorem column_len {ref : TabCol} {col : ColMeta}
    (numbers : ∀ tabName tab, db.tabs.find tabName = some tab → ∀ col ∈ tab.cols, col.type ≠ .string → col.len = 4)
    (known : db.column ref = some col) (number : col.type ≠ .string) : col.len = 4 := by
  obtain ⟨tab,found,first⟩ := Option.bind_eq_some_iff.mp known
  exact numbers _ tab found col (List.mem_of_find?_eq_some first) number

theorem checkClause_columns
    (accepted : checkClause db tabNames conds = .ok checked) (member : cond ∈ checked) (column : cond.isRhsVal = false) :
    ∃ l r, db.column cond.lhsCol = some l ∧ db.column cond.rhsCol = some r ∧ l.type = r.type := by
  obtain ⟨allCols,_,clause⟩ := bind_accepted accepted
  obtain ⟨raw,_,run⟩ := (mapM_ok clause).1 cond member
  have kind : raw.isRhsVal = false := (checkCond_ok run).2.1.symm.trans column
  obtain ⟨lhs,_,rest⟩ := bind_accepted run
  simp only [kind,Bool.false_eq_true,if_false] at rest
  obtain ⟨rhs,_,rest⟩ := bind_accepted rest
  obtain ⟨lhsTab,lhsTable,rest⟩ := bind_accepted rest
  obtain ⟨l,lhsCol,rest⟩ := bind_accepted rest
  obtain ⟨rhsTab,rhsTable,rest⟩ := bind_accepted rest
  obtain ⟨r,rhsCol,rest⟩ := bind_accepted rest
  obtain ⟨type,typed,rest⟩ := bind_accepted rest
  split at rest
  · cases rest
  · rename_i same
    obtain rfl := Except.ok.inj rest
    obtain rfl := Except.ok.inj typed
    exact ⟨l,r,column_of lhsTable lhsCol,column_of rhsTable rhsCol,not_not.mp same⟩

/-- The condition, and the condition exchanged, on the exchanged tuples: one answer, from bytes of
the two columns only. -/
def SwapAgrees (db : DbMeta) (left right : Plan) (cond : Condition) (lrec rrec : List Byte) : Prop :=
  (∃ answer, evalCond ((join left right []).cols db) (left.tupleLen db) cond lrec rrec = .ok answer ∧
    evalCond ((join right left []).cols db) (right.tupleLen db) cond.swap rrec lrec = .ok answer) ∧
  ReadsInside ((join left right []).cols db) cond ∧ ReadsInside ((join right left []).cols db) cond.swap

/-- The columns hold numbers, or strings of one length. -/
def Comparable (db : DbMeta) (cond : Condition) : Prop :=
  ∀ l r, db.column cond.lhsCol = some l → db.column cond.rhsCol = some r → l.type = .string → l.len = r.len ∧ 0 ≤ l.len

/-- Exchanging the sides of an accepted comparison keeps its meaning if and only if it does not
compare strings of different lengths. -/
theorem swap_agrees_iff (schema : Analyze.Schema) {tabNames : List String} {conds checked : List Condition}
    (numbers : ∀ tabName tab, schema.db.tabs.find tabName = some tab → ∀ col ∈ tab.cols, col.type ≠ .string → col.len = 4)
    (accepted : checkClause schema.db tabNames conds = .ok checked) (member : cond ∈ checked)
    (column : cond.isRhsVal = false) {left right : Plan} (lhsLeft : cond.lhsCol.tabName ∈ left.tables)
    (lhsOnly : cond.lhsCol.tabName ∉ right.tables) (rhsRight : cond.rhsCol.tabName ∈ right.tables)
    (rhsOnly : cond.rhsCol.tabName ∉ left.tables) (lrec rrec : List Byte) :
    SwapAgrees schema.db left right cond lrec rrec ↔ Comparable schema.db cond := by
  obtain ⟨l,r,lhs,rhs,types⟩ := checkClause_columns accepted member column
  obtain ⟨o,foundLhs⟩ := findCol_cols schema.named lhs left lhsLeft
  obtain ⟨o',foundRhs⟩ := findCol_cols schema.named rhs right rhsRight
  have apartLeft : ∀ col ∈ left.cols schema.db, col.tabName ≠ cond.rhsCol.tabName := fun col inside same =>
    rhsOnly (same ▸ cols_tables schema.named left col inside)
  have apartRight : ∀ col ∈ right.cols schema.db, col.tabName ≠ cond.lhsCol.tabName := fun col inside same =>
    lhsOnly (same ▸ cols_tables schema.named right col inside)
  have alike : (l.at o).type = (r.at o').type := types
  have columnToo : cond.swap.isRhsVal = false := column
  have forth : evalCond ((join left right []).cols schema.db) (left.tupleLen schema.db) cond lrec rrec = _ :=
    evalCond_columns column foundLhs foundRhs apartLeft alike lrec rrec
  have back : evalCond ((join right left []).cols schema.db) (right.tupleLen schema.db) cond.swap rrec lrec = _ :=
    evalCond_columns columnToo foundRhs foundLhs apartRight alike.symm rrec lrec
  have inside : ReadsInside ((join left right []).cols schema.db) cond ↔ _ := readsInside_columns foundLhs foundRhs apartLeft
  have swapped : ReadsInside ((join right left []).cols schema.db) cond.swap ↔ _ :=
    readsInside_columns foundRhs foundLhs apartRight
  have four : l.type ≠ .string → l.len = 4 ∧ r.len = 4 := fun number =>
    ⟨column_len numbers lhs number,column_len numbers rhs (types ▸ number)⟩
  have bounds := ixCompareReads_inside four
  rw [SwapAgrees,forth,back,inside,swapped]
  constructor
  · rintro ⟨_,reads,swappedReads⟩ l' r' lhs' rhs' string
    obtain rfl := Option.mem_unique lhs lhs'
    obtain rfl := Option.mem_unique rhs rhs'
    refine bounds.mp ⟨?_,swappedReads⟩ string
    rw [types]
    exact reads
  · intro comparable
    have lengths := comparable l r lhs rhs
    obtain ⟨reads,swappedReads⟩ := bounds.mpr lengths
    rw [types] at reads
    refine ⟨⟨_,rfl,congrArg Except.ok ?_⟩,reads,swappedReads⟩
    have cmp := ixCompareCol_exchange (fun string => congrArg Int.toNat (lengths string).1) (lrec.drop o.toNat) (rrec.drop o'.toNat)
    show cond.op.swap.holds (ixCompareCol r.type r.len.toNat (rrec.drop o'.toNat) (lrec.drop o.toNat)) = _
    rw [← types,cmp,CompOp.swap_holds]
    rfl

/-- Table a has two columns of one character, table b one of two. -/
def charTables : DbMeta :=
  ⟨"db",⟨[("a",⟨"a",[⟨"a","x",.string,1,0,false⟩,⟨"a","y",.string,1,1,false⟩],[]⟩),("b",⟨"b",[⟨"b","z",.string,2,0,false⟩],[]⟩)],
    by decide +kernel⟩⟩

def scanOf (tabName : String) : Plan := .scan ⟨.seqScan,tabName,[],[]⟩

/-- `a.x = b.z` on the rows ('p','q') and ('pr') holds; as `b.z = a.x` it does not, since the byte
behind a.x is compared too. -/
theorem char_lengths_differ :
    checkClause charTables ["a","b"] [compareCols "a" "x" .eq "b" "z"] = .ok [compareCols "a" "x" .eq "b" "z"] ∧
    evalCond ((join (scanOf "a") (scanOf "b") []).cols charTables) ((scanOf "a").tupleLen charTables)
      (compareCols "a" "x" .eq "b" "z") [112,113] [112,114] = .ok true ∧
    evalCond ((join (scanOf "b") (scanOf "a") []).cols charTables) ((scanOf "b").tupleLen charTables)
      (compareCols "a" "x" .eq "b" "z").swap [112,114] [112,113] = .ok false ∧
    ¬SwapAgrees charTables (scanOf "a") (scanOf "b") (compareCols "a" "x" .eq "b" "z") [112,113] [112,114] := by
  have forth : evalCond ((join (scanOf "a") (scanOf "b") []).cols charTables) ((scanOf "a").tupleLen charTables)
      (compareCols "a" "x" .eq "b" "z") [112,113] [112,114] = .ok true := by decide +kernel
  have back : evalCond ((join (scanOf "b") (scanOf "a") []).cols charTables) ((scanOf "b").tupleLen charTables)
      (compareCols "a" "x" .eq "b" "z").swap [112,114] [112,113] = .ok false := by decide +kernel
  refine ⟨by decide +kernel,forth,back,?_⟩
  rintro ⟨⟨answer,one,other⟩,_⟩
  obtain rfl := Except.ok.inj (forth.symm.trans one)
  exact absurd (back.symm.trans other) (by decide)

/-- `a.x < b.y` on numbers. -/
theorem numbers_swap : SwapAgrees pairSchema.db (scanOf "a") (scanOf "b") (compareCols "a" "x" .lt "b" "y")
    [1,0,0,0,2,0,0,0] [0,0,0,0,3,0,0,0] := by
  have numbers : ∀ tabName tab, pairSchema.db.tabs.find tabName = some tab →
      ∀ col ∈ tab.cols, col.type ≠ .string → col.len = 4 := by
    intro tabName tab found col member _
    have four : ∀ entry ∈ Planner.twoTables.tabs.entries, ∀ col ∈ entry.2.cols, col.len = 4 := by decide
    obtain ⟨entry,first,rfl⟩ := Option.map_eq_some_iff.mp found
    exact four entry (List.mem_of_find?_eq_some first) col member
  have accepted : checkClause pairSchema.db ["a","b"] [compareCols "a" "x" .lt "b" "y"] =
      .ok [compareCols "a" "x" .lt "b" "y"] := rfl
  refine (swap_agrees_iff pairSchema numbers accepted (List.mem_singleton_self _) rfl (by decide) (by decide)
    (by decide) (by decide) _ _).mpr fun l r lhs _ string => ?_
  obtain rfl : ⟨"a","x",.int,4,0,false⟩ = l := Option.some.inj lhs
  cases string

end Swap

end NestedLoopJoinExecutor

end Rucbase
