import Rucbase.SmMeta

/-! The planner's choice of scans and joins for a SELECT: `Planner::make_one_rel` and the
functions it calls. A plan that the code changes through its pointer is returned changed. -/
namespace Rucbase

structure TabCol where
  tabName : String
  colName : String
  deriving DecidableEq, Repr

/-- A literal; a float is its bits. -/
inductive Value where
  | int (n : Int)
  | float (bits : Nat)
  | str (bytes : List Byte)
  deriving DecidableEq, Repr

inductive CompOp where
  | eq
  | ne
  | lt
  | gt
  | le
  | ge
  deriving DecidableEq, Repr

/-- `swap_op`. -/
def CompOp.swap : CompOp → CompOp
  | .eq => .eq
  | .ne => .ne
  | .lt => .gt
  | .gt => .lt
  | .le => .ge
  | .ge => .le

structure Condition where
  lhsCol : TabCol
  op : CompOp
  isRhsVal : Bool
  rhsCol : TabCol
  rhsVal : Value
  deriving DecidableEq, Repr

/-- Sides swapped and operator mirrored. -/
def Condition.swap (cond : Condition) : Condition :=
  { cond with lhsCol := cond.rhsCol, rhsCol := cond.lhsCol, op := cond.op.swap }

inductive ScanTag where
  | seqScan
  | indexScan
  deriving DecidableEq, Repr

/-- The columns and the length of the table's records are those of the catalog. -/
structure ScanPlan where
  tag : ScanTag
  tabName : String
  conds : List Condition
  indexColNames : List String
  deriving DecidableEq, Repr

/-- Joins are nested loops. -/
inductive Plan where
  | scan (plan : ScanPlan)
  | join (left right : Plan) (conds : List Condition)
  deriving DecidableEq, Repr

namespace Planner

def getIndexCols (db : DbMeta) (tabName : String) (currConds : List Condition) :
    Except RMDBError (Bool × List String) := do
  let indexColNames := (currConds.filter fun cond =>
    cond.isRhsVal && cond.op == .eq && cond.lhsCol.tabName == tabName).map fun cond => cond.lhsCol.colName
  let tab ← db.getTable tabName
  pure (tab.isIndex indexColNames,indexColNames)

/-- Whether `pop_conds` takes the condition for a table. -/
def takes (tabName : String) (cond : Condition) : Bool :=
  tabName == cond.lhsCol.tabName && cond.isRhsVal || cond.lhsCol.tabName == cond.rhsCol.tabName

/-- The conditions taken for a table and those that are left. -/
def popConds (conds : List Condition) (tabName : String) : List Condition × List Condition :=
  conds.partition (takes tabName)

/-- The answer 3 says that the condition was put at a join; 1 and 2, that the plan has the
table of its left or right side. -/
def pushConds (cond : Condition) : Plan → Nat × Plan
  | .scan plan =>
    if plan.tabName = cond.lhsCol.tabName then (1,.scan plan)
    else if plan.tabName = cond.rhsCol.tabName then (2,.scan plan)
    else (0,.scan plan)
  | .join left right conds =>
    let (leftRes,left) := pushConds cond left
    if leftRes = 3 then (3,.join left right conds)
    else
      let (rightRes,right) := pushConds cond right
      if rightRes = 3 then (3,.join left right conds)
      else if leftRes = 0 ∨ rightRes = 0 then (leftRes + rightRes,.join left right conds)
      else
        let cond := if leftRes = 2 then cond.swap else cond
        (3,.join left right (conds ++ [cond]))

/-- The join built so far, which scans are in it, and the names of their tables. -/
structure Joining where
  scantbl : List Bool
  joinedTables : List String
  deriving DecidableEq, Repr

/-- The first scan of the table; a table without one gives a null plan. -/
def popScan (scans : List ScanPlan) (table : String) (joining : Joining) : Option Plan × Joining :=
  match scans.findIdx? fun scan => scan.tabName == table with
  | none => (none,joining)
  | some i => ((scans[i]?).map .scan,⟨joining.scantbl.set i true,joining.joinedTables ++ [table]⟩)

/-- One condition of the second loop: it joins up to two more tables, or is pushed down. -/
def joinNext (scans : List ScanPlan) (cond : Condition) (plan : Plan) (joining : Joining) : Plan × Joining :=
  let (left,joining) := if cond.lhsCol.tabName ∈ joining.joinedTables then (none,joining)
    else popScan scans cond.lhsCol.tabName joining
  let (right,joining) := if cond.rhsCol.tabName ∈ joining.joinedTables then (none,joining)
    else popScan scans cond.rhsCol.tabName joining
  match left, right with
  | some left, some right => (.join (.join left right [cond]) plan [],joining)
  | none, some right => (.join right plan [cond.swap],joining)
  | some left, none => (.join left plan [cond],joining)
  | none, none => ((pushConds cond plan).2,joining)

def joinAll (scans : List ScanPlan) : List Condition → Plan → Joining → Plan × Joining
  | [], plan, joining => (plan,joining)
  | cond :: conds, plan, joining =>
    let (plan,joining) := joinNext scans cond plan joining
    joinAll scans conds plan joining

/-- The tables that no condition joins come in front, in the order of the query. -/
def joinRest : List ScanPlan → List Bool → Plan → Plan
  | scan :: scans, used :: scantbl, plan =>
    joinRest scans scantbl (if used then plan else .join (.scan scan) plan [])
  | _, _, plan => plan

/-- The scans of the tables and the conditions none of them takes. -/
def makeScans (db : DbMeta) : List String → List Condition → Except RMDBError (List ScanPlan × List Condition)
  | [], conds => pure ([],conds)
  | tabName :: tables, conds => do
    let (currConds,conds) := popConds conds tabName
    let (indexExist,indexColNames) ← getIndexCols db tabName currConds
    let scan : ScanPlan := if indexExist then ⟨.indexScan,tabName,currConds,indexColNames⟩
      else ⟨.seqScan,tabName,currConds,[]⟩
    let (scans,conds) ← makeScans db tables conds
    pure (scan :: scans,conds)

/-- The join of the first condition's two tables. A query without tables, or a condition on a
table that the query does not have, makes the code follow a null pointer. -/
def makeOneRel (db : DbMeta) (tables : List String) (conds : List Condition) : Except RMDBError Plan := do
  let (scans,conds) ← makeScans db tables conds
  let unused := List.replicate tables.length false
  match scans, conds with
  | [], _ => throw .assertion
  | [scan], _ => pure (.scan scan)
  | scan :: rest, [] => pure (joinRest (scan :: rest) (unused.set 0 true) (.scan scan))
  | scan :: rest, cond :: conds =>
    let scans := scan :: rest
    match popScan scans cond.lhsCol.tabName ⟨unused,List.replicate tables.length ""⟩ with
    | (none,_) => throw .assertion
    | (some left,joining) =>
      match popScan scans cond.rhsCol.tabName joining with
      | (none,_) => throw .assertion
      | (some right,joining) =>
        let (plan,joining) := joinAll scans conds (.join left right [cond]) joining
        pure (joinRest scans joining.scantbl plan)

end Planner

end Rucbase
