import Rucbase.Executors
import Rucbase.PlannerPlacement

/-! The analysis of statements, and where it finds the columns that a SELECT names. A column with
a table name is looked up in the whole catalog, one without among the tables of the statement. -/
namespace Rucbase

open Planner
/-- The right side of a comparison. -/
inductive Expr where
  | value (val : Value)
  | col (col : TabCol)
  deriving DecidableEq, Repr

structure BinaryExpr where
  lhs : TabCol
  op : CompOp
  rhs : Expr
  deriving DecidableEq, Repr

/-- A column without a table name has the empty one. -/
structure SelectStmt where
  cols : List TabCol
  tabs : List String
  conds : List BinaryExpr
  deriving DecidableEq, Repr

/-- What the parser makes of a statement. -/
inductive TreeNode where
  | select (stmt : SelectStmt)
  | update (tabName : String) (setClauses : List (String × Value)) (conds : List BinaryExpr)
  | delete (tabName : String) (conds : List BinaryExpr)
  | insert (tabName : String) (vals : List Value)
  | other
  deriving DecidableEq, Repr

structure Query where
  tables : List String := []
  cols : List TabCol := []
  conds : List Condition := []
  setClauses : List SetClause := []
  values : List Value := []
  deriving DecidableEq, Repr

namespace Analyze

/-- The loop of `check_column`: the table of the columns of that name, which starts as `tabName`. -/
def inferTable (colName : String) : List ColMeta → String → Except RMDBError String
  | [], tabName => .ok tabName
  | col :: rest, tabName =>
    if col.name = colName then
      if tabName ≠ "" then .error (.ambiguousColumn colName) else inferTable colName rest col.tabName
    else inferTable colName rest tabName

def checkColumn (db : DbMeta) (allCols : List ColMeta) (target : TabCol) : Except RMDBError TabCol :=
  if target.tabName = "" then do
    let tabName ← inferTable target.colName allCols ""
    if tabName = "" then .error (.columnNotFound target.colName) else .ok { target with tabName := tabName }
  else
    match db.tabs.find target.tabName with
    | some tab =>
      if tab.isCol target.colName then .ok target else .error (.columnNotFound (target.tabName ++ "." ++ target.colName))
    | none => .error (.columnNotFound (target.tabName ++ "." ++ target.colName))

def getAllCols (db : DbMeta) (tabNames : List String) : Except RMDBError (List ColMeta) := do
  let tabs ← tabNames.mapM db.getTable
  .ok (tabs.flatMap TabMeta.cols)

/-- One round of `get_clause`. The side that is not there is left as it was constructed. -/
def getCond (expr : BinaryExpr) : Condition :=
  match expr.rhs with
  | .value val => ⟨expr.lhs,expr.op,true,⟨"",""⟩,val⟩
  | .col col => ⟨expr.lhs,expr.op,false,col,.int 0⟩

def getClause (svConds : List BinaryExpr) : List Condition := svConds.map getCond

/-- One round of `check_clause`. A literal is made into raw bytes before its type is compared. -/
def checkCond (db : DbMeta) (allCols : List ColMeta) (cond : Condition) : Except RMDBError Condition := do
  let lhs ← checkColumn db allCols cond.lhsCol
  let rhs ← if cond.isRhsVal then .ok cond.rhsCol else checkColumn db allCols cond.rhsCol
  let lhsTab ← db.getTable lhs.tabName
  let lhsCol ← lhsTab.getCol lhs.colName
  let rhsType ←
    if cond.isRhsVal then do
      let _ ← cond.rhsVal.initRaw lhsCol.len
      .ok cond.rhsVal.type
    else do
      let rhsTab ← db.getTable rhs.tabName
      let rhsCol ← rhsTab.getCol rhs.colName
      .ok rhsCol.type
  if lhsCol.type ≠ rhsType then .error (.incompatibleType lhsCol.type.text rhsType.text)
  else .ok { cond with lhsCol := lhs, rhsCol := rhs }

def checkClause (db : DbMeta) (tabNames : List String) (conds : List Condition) : Except RMDBError (List Condition) := do
  let allCols ← getAllCols db tabNames
  conds.mapM (checkCond db allCols)

def checkTables (db : DbMeta) : List String → Except RMDBError Unit
  | [] => .ok ()
  | tabName :: rest => if db.isTable tabName then checkTables db rest else .error (.tableNotFound tabName)

def analyzeSelect (db : DbMeta) (stmt : SelectStmt) : Except RMDBError Query := do
  checkTables db stmt.tabs
  let allCols ← getAllCols db stmt.tabs
  let cols ←
    if stmt.cols = [] then .ok (allCols.map fun col => ⟨col.tabName,col.name⟩)
    else stmt.cols.mapM (checkColumn db allCols)
  let conds ← checkClause db stmt.tabs (getClause stmt.conds)
  .ok { tables := stmt.tabs, cols := cols, conds := conds }

/-- The new value of a column, as raw bytes of its length. -/
def checkSet (tab : TabMeta) (clause : String × Value) : Except RMDBError SetClause := do
  let col ← tab.getCol clause.1
  if col.type ≠ clause.2.type then .error (.incompatibleType col.type.text clause.2.type.text)
  else do
    let raw ← clause.2.initRaw col.len
    .ok ⟨⟨"",clause.1⟩,raw⟩

def doAnalyze (db : DbMeta) : TreeNode → Except RMDBError Query
  | .select stmt => analyzeSelect db stmt
  | .update tabName setClauses conds => do
    let tab ← db.getTable tabName
    let setClauses ← setClauses.mapM (checkSet tab)
    let conds ← checkClause db [tabName] (getClause conds)
    .ok { conds := conds, setClauses := setClauses }
  | .delete tabName conds => do
    let conds ← checkClause db [tabName] (getClause conds)
    .ok { conds := conds }
  | .insert _ vals => .ok { values := vals }
  | .other => .ok {}

/-- A catalog whose columns name the tables they are in. -/
structure Schema where
  db : DbMeta
  named : ∀ tabName tab, db.tabs.find tabName = some tab → ∀ col ∈ tab.cols, col.tabName = tabName

structure InFrom (db : DbMeta) (tables : List String) (col : TabCol) : Prop where
  listed : col.tabName ∈ tables
  exists_ : ∃ tab, db.tabs.find col.tabName = some tab ∧ tab.isCol col.colName = true

variable {α β : Type} {f : α → Except RMDBError β} {tab : TabMeta} {c : ColMeta} {cond : Condition}
  {conds : List Condition} {stmt : SelectStmt} {query : Query}

theorem mapM_ok  {l : List α} {result : List β} (run : l.mapM f = .ok result) :
    (∀ b ∈ result, ∃ a ∈ l, f a = .ok b) ∧ ∀ a ∈ l, ∃ b ∈ result, f a = .ok b := by
  induction l generalizing result with
  | nil =>
    cases run
    exact ⟨nofun,nofun⟩
  | cons a rest ih =>
    rw [List.mapM_cons] at run
    match first : f a, others : rest.mapM f with
    | .ok b, .ok bs =>
      rw [first,others] at run
      cases run
      obtain ⟨back,forth⟩ := ih others
      refine ⟨List.forall_mem_cons.mpr ⟨⟨a,List.mem_cons_self ..,first⟩,fun b' member => ?_⟩,
        List.forall_mem_cons.mpr ⟨⟨b,List.mem_cons_self ..,first⟩,fun a' member => ?_⟩⟩
      · obtain ⟨a',listed,same⟩ := back b' member
        exact ⟨a',List.mem_cons_of_mem _ listed,same⟩
      · obtain ⟨b',listed,same⟩ := forth a' member
        exact ⟨b',List.mem_cons_of_mem _ listed,same⟩
    | .error e, _ =>
      rw [first] at run
      cases run
    | .ok b, .error e =>
      rw [first,others] at run
      cases run

variable {tabName : String}

theorem inferTable_found {colName start : String} {cols : List ColMeta}
    (run : inferTable colName cols start = .ok tabName) :
    tabName = start ∨ ∃ col ∈ cols, col.name = colName ∧ col.tabName = tabName := by
  induction cols generalizing start with
  | nil =>
    cases run
    exact .inl rfl
  | cons col rest ih =>
    have later (found : ∃ c ∈ rest, c.name = colName ∧ c.tabName = tabName) :
        ∃ c ∈ col :: rest, c.name = colName ∧ c.tabName = tabName := by
      obtain ⟨c,member,fits⟩ := found
      exact ⟨c,List.mem_cons_of_mem _ member,fits⟩
    rw [inferTable] at run
    split at run
    · rename_i named
      split at run
      · cases run
      · rcases ih run with rfl | found
        · exact .inr ⟨col,List.mem_cons_self ..,named,rfl⟩
        · exact .inr (later found)
    · exact (ih run).imp_right later

section Resolution

variable {db : DbMeta} {tables : List String} {allCols : List ColMeta} {target col : TabCol}

theorem getTable_ok (run : db.getTable tabName = .ok tab) : db.tabs.find tabName = some tab := by
  unfold DbMeta.getTable at run
  cases found : db.tabs.find tabName with
  | none => simp [found] at run
  | some here =>
    rw [found] at run
    cases run
    rfl

theorem bind_accepted {x : Except RMDBError α} {b : β} (run : (x >>= f) = .ok b) :
    ∃ a, x = .ok a ∧ f a = .ok b := by
  cases x with
  | error e => cases run
  | ok a => exact ⟨a,rfl,run⟩

theorem getAllCols_mem (run : getAllCols db tables = .ok allCols) (member : c ∈ allCols) :
    ∃ tabName ∈ tables, ∃ tab, db.tabs.find tabName = some tab ∧ c ∈ tab.cols := by
  obtain ⟨tabs,found,whole⟩ := bind_accepted run
  obtain rfl : tabs.flatMap TabMeta.cols = allCols := Except.ok.inj whole
  obtain ⟨tab,listed,inside⟩ := List.mem_flatMap.mp member
  obtain ⟨tabName,asked,here⟩ := (mapM_ok found).1 tab listed
  exact ⟨tabName,asked,tab,getTable_ok here,inside⟩

theorem checkColumn_qualified (run : checkColumn db allCols target = .ok col) (qualified : target.tabName ≠ "") :
    col = target ∧ ∃ tab, db.tabs.find col.tabName = some tab ∧ tab.isCol col.colName = true := by
  rw [checkColumn,if_neg qualified] at run
  cases found : db.tabs.find target.tabName with
  | none => simp [found] at run
  | some tab =>
    simp only [found] at run
    split at run
    · rename_i isCol
      obtain rfl := Except.ok.inj run
      exact ⟨rfl,tab,found,isCol⟩
    · cases run

theorem checkColumn_inferred (run : checkColumn db allCols target = .ok col) (bare : target.tabName = "") :
    ∃ c ∈ allCols, c.name = col.colName ∧ c.tabName = col.tabName := by
  rw [checkColumn,if_pos bare] at run
  obtain ⟨tabName,found,rest⟩ := bind_accepted run
  split at rest
  · cases rest
  · rename_i some
    obtain rfl := Except.ok.inj rest
    exact (inferTable_found found).resolve_left some

variable {schema : Schema}

theorem inFrom_of_mem (run : getAllCols schema.db tables = .ok allCols) (member : c ∈ allCols) :
    InFrom schema.db tables ⟨c.tabName,c.name⟩ := by
  obtain ⟨tabName,listed,tab,found,inside⟩ := getAllCols_mem run member
  have named := schema.named tabName tab found c inside
  refine ⟨named ▸ listed,tab,named ▸ found,List.any_eq_true.mpr ⟨c,inside,by simp⟩⟩

theorem resolved_iff (all : getAllCols schema.db tables = .ok allCols) (run : checkColumn schema.db allCols target = .ok col) :
    InFrom schema.db tables col ↔ target.tabName = "" ∨ target.tabName ∈ tables := by
  by_cases bare : target.tabName = ""
  · obtain ⟨c,member,name,table⟩ := checkColumn_inferred run bare
    have inside := inFrom_of_mem all member
    rw [name,table] at inside
    exact iff_of_true inside (.inl bare)
  · obtain ⟨rfl,tab,found⟩ := checkColumn_qualified run bare
    exact ⟨fun inside => .inr inside.listed,fun listed => ⟨listed.resolve_left bare,tab,found⟩⟩

end Resolution

/-- The columns that a condition names. -/
def exprRefs (expr : BinaryExpr) : List TabCol :=
  match expr.rhs with
  | .value _ => [expr.lhs]
  | .col col => [expr.lhs,col]

def refs (stmt : SelectStmt) : List TabCol := stmt.cols ++ stmt.conds.flatMap exprRefs

/-- Every table name before a column is one of the FROM clause. -/
def QualifiedInside (stmt : SelectStmt) : Prop := ∀ ref ∈ refs stmt, ref.tabName = "" ∨ ref.tabName ∈ stmt.tabs

instance (stmt : SelectStmt) : Decidable (QualifiedInside stmt) := inferInstanceAs (Decidable (∀ ref ∈ refs stmt, _))

def CondInside (db : DbMeta) (tables : List String) (cond : Condition) : Prop :=
  InFrom db tables cond.lhsCol ∧ (cond.isRhsVal = false → InFrom db tables cond.rhsCol)

/-- Name resolution stayed inside the statement, and a scan of a single table has every condition. -/
structure StaysInside (db : DbMeta) (query : Query) : Prop where
  cols : ∀ col ∈ query.cols, InFrom db query.tables col
  conds : ∀ cond ∈ query.conds, CondInside db query.tables cond
  attached : ∀ tabName, query.tables = [tabName] →
    ∃ plan, makeOneRel db query.tables query.conds = .ok (.scan plan) ∧ plan.conds = query.conds

section Select

variable {schema : Schema} {tables : List String} {allCols : List ColMeta}

variable {db : DbMeta}

theorem checkCond_ok {checked : Condition} (run : checkCond db allCols cond = .ok checked) :
    checkColumn db allCols cond.lhsCol = .ok checked.lhsCol ∧ checked.isRhsVal = cond.isRhsVal ∧
      (cond.isRhsVal = false → checkColumn db allCols cond.rhsCol = .ok checked.rhsCol) := by
  obtain ⟨lhs,left,rest⟩ := bind_accepted run
  cases kind : cond.isRhsVal with
  | true =>
    simp only [kind,if_true] at rest
    iterate 5 obtain ⟨_,_,rest⟩ := bind_accepted rest
    split at rest
    · cases rest
    · obtain rfl := Except.ok.inj rest
      exact ⟨left,rfl,nofun⟩
  | false =>
    simp only [kind,Bool.false_eq_true,if_false] at rest
    obtain ⟨rhs,right,rest⟩ := bind_accepted rest
    iterate 5 obtain ⟨_,_,rest⟩ := bind_accepted rest
    split at rest
    · cases rest
    · obtain rfl := Except.ok.inj rest
      exact ⟨left,rfl,fun _ => right⟩

theorem condInside_iff (all : getAllCols schema.db tables = .ok allCols) {expr : BinaryExpr}
    (run : checkCond schema.db allCols (getCond expr) = .ok cond) :
    CondInside schema.db tables cond ↔ ∀ ref ∈ exprRefs expr, ref.tabName = "" ∨ ref.tabName ∈ tables := by
  obtain ⟨left,kind,right⟩ := checkCond_ok run
  rw [CondInside,kind]
  cases rhs : expr.rhs with
  | value val =>
    simp only [getCond,rhs] at left
    simp [getCond,exprRefs,rhs,resolved_iff all left]
  | col other =>
    simp only [getCond,rhs,forall_const] at left right
    simp [getCond,exprRefs,rhs,resolved_iff all left,resolved_iff all right]

theorem attached_of_inside (known : db.getTable tabName = .ok tab)
    (inside : ∀ cond ∈ conds, CondInside db [tabName] cond) :
    ∃ plan, makeOneRel db [tabName] conds = .ok (.scan plan) ∧ plan.conds = conds := by
  have takes : ∀ cond ∈ conds, takes tabName cond = true := by
    intro cond member
    obtain ⟨lhs,rhs⟩ := inside cond member
    have left := List.mem_singleton.mp lhs.listed
    cases kind : cond.isRhsVal with
    | true => simp [takes,left,kind]
    | false =>
      have right := List.mem_singleton.mp (rhs kind).listed
      simp [takes,left,right]
  have taken : popConds conds tabName = (conds,[]) := by
    rw [popConds,List.partition_eq_filter_filter,List.filter_eq_self.mpr takes]
    refine Prod.ext rfl (List.filter_eq_nil_iff.mpr fun cond member => ?_)
    simp [takes cond member]
  simp only [makeOneRel,makeScans,taken,getIndexCols,known]
  refine ⟨_,rfl,?_⟩
  split <;> rfl

theorem tables_known (run : getAllCols db tables = .ok allCols) (listed : tabName ∈ tables) :
    ∃ tab, db.getTable tabName = .ok tab := by
  obtain ⟨tabs,found,_⟩ := bind_accepted run
  obtain ⟨tab,_,here⟩ := (mapM_ok found).2 tabName listed
  exact ⟨tab,here⟩

theorem colsInside_iff (all : getAllCols schema.db tables = .ok allCols) {named cols : List TabCol}
    (run : (if named = [] then .ok (allCols.map fun col => ⟨col.tabName,col.name⟩)
      else named.mapM (checkColumn schema.db allCols)) = Except.ok cols) :
    (∀ col ∈ cols, InFrom schema.db tables col) ↔ ∀ ref ∈ named, ref.tabName = "" ∨ ref.tabName ∈ tables := by
  split at run
  · rename_i star
    obtain rfl := Except.ok.inj run
    subst star
    refine iff_of_true (fun col member => ?_) nofun
    obtain ⟨c,listed,rfl⟩ := List.mem_map.mp member
    exact inFrom_of_mem all listed
  · obtain ⟨back,forth⟩ := mapM_ok run
    constructor
    · intro inside ref member
      obtain ⟨col,listed,checked⟩ := forth ref member
      exact (resolved_iff all checked).mp (inside col listed)
    · intro qualified col member
      obtain ⟨ref,listed,checked⟩ := back col member
      exact (resolved_iff all checked).mpr (qualified ref listed)

theorem condsInside_iff (all : getAllCols schema.db tables = .ok allCols) {exprs : List BinaryExpr}
    (run : (getClause exprs).mapM (checkCond schema.db allCols) = .ok conds) :
    (∀ cond ∈ conds, CondInside schema.db tables cond) ↔
      ∀ ref ∈ exprs.flatMap exprRefs, ref.tabName = "" ∨ ref.tabName ∈ tables := by
  obtain ⟨back,forth⟩ := mapM_ok run
  constructor
  · intro inside ref member
    obtain ⟨expr,listed,names⟩ := List.mem_flatMap.mp member
    obtain ⟨cond,here,checked⟩ := forth _ (List.mem_map_of_mem listed)
    exact (condInside_iff all checked).mp (inside cond here) ref names
  · intro qualified cond member
    obtain ⟨_,listed,checked⟩ := back cond member
    obtain ⟨expr,here,rfl⟩ := List.mem_map.mp listed
    exact (condInside_iff all checked).mpr fun ref names => qualified ref (List.mem_flatMap.mpr ⟨expr,here,names⟩)

theorem analyzeSelect_ok  (run : analyzeSelect db stmt = .ok query) :
    ∃ allCols cols conds, getAllCols db stmt.tabs = .ok allCols ∧
      (if stmt.cols = [] then .ok (allCols.map fun col => ⟨col.tabName,col.name⟩)
        else stmt.cols.mapM (checkColumn db allCols)) = Except.ok cols ∧
      (getClause stmt.conds).mapM (checkCond db allCols) = .ok conds ∧
      query = { tables := stmt.tabs, cols := cols, conds := conds } := by
  obtain ⟨_,_,rest⟩ := bind_accepted run
  obtain ⟨allCols,all,rest⟩ := bind_accepted rest
  have clause {cols : List TabCol} (rest : (do
      let conds ← checkClause db stmt.tabs (getClause stmt.conds)
      .ok { tables := stmt.tabs, cols := cols, conds := conds }) = Except.ok query) :
      ∃ conds, (getClause stmt.conds).mapM (checkCond db allCols) = .ok conds ∧
        query = { tables := stmt.tabs, cols := cols, conds := conds } := by
    obtain ⟨conds,checked,rest⟩ := bind_accepted rest
    rw [checkClause,all] at checked
    exact ⟨conds,checked,(Except.ok.inj rest).symm⟩
  by_cases star : stmt.cols = []
  · simp only [star,if_true] at rest ⊢
    obtain ⟨conds,checked,same⟩ := clause rest
    exact ⟨allCols,_,conds,all,rfl,checked,same⟩
  · simp only [star,if_false] at rest ⊢
    obtain ⟨cols,targets,rest⟩ := bind_accepted rest
    obtain ⟨conds,checked,same⟩ := clause rest
    exact ⟨allCols,cols,conds,all,targets,checked,same⟩

/-- Name resolution stays inside a SELECT that is accepted if and only if every table name before a
column is one of the FROM clause. -/
theorem resolution_inside_iff {stmt : SelectStmt} {query : Query} (run : doAnalyze schema.db (.select stmt) = .ok query) :
    StaysInside schema.db query ↔ QualifiedInside stmt := by
  obtain ⟨allCols,cols,conds,all,targets,clause,rfl⟩ := analyzeSelect_ok run
  have inCols := colsInside_iff all targets
  have inConds := condsInside_iff all clause
  constructor
  · intro inside ref member
    rcases List.mem_append.mp member with target | condition
    · exact inCols.mp inside.cols ref target
    · exact inConds.mp inside.conds ref condition
  · intro qualified
    obtain ⟨target,condition⟩ := List.forall_mem_append.mp qualified
    have inside := inConds.mpr condition
    refine ⟨inCols.mpr target,inside,fun tabName single => ?_⟩
    simp only at single
    rw [single] at all inside
    obtain ⟨tab,known⟩ := tables_known all (List.mem_singleton_self tabName)
    simpa only [single] using attached_of_inside known inside

/-- The two tables a and b, both with columns x and y. -/
def pairSchema : Schema where
  db := twoTables
  named tabName tab found := by
    have known : ∀ entry ∈ twoTables.tabs.entries, ∀ col ∈ entry.2.cols, col.tabName = entry.1 := by decide
    obtain ⟨entry,first,rfl⟩ := Option.map_eq_some_iff.mp found
    obtain rfl : entry.1 = tabName := by simpa using List.find?_some first
    exact known entry (List.mem_of_find?_eq_some first)

/-- `select x from a where a.y = 1`. -/
theorem own_column_inside :
    ∃ query, doAnalyze pairSchema.db (.select ⟨[⟨"","x"⟩],["a"],[⟨⟨"a","y"⟩,.eq,.value (.int 1)⟩]⟩) = .ok query ∧
      StaysInside pairSchema.db query := by
  have run : ∃ query, doAnalyze pairSchema.db (.select ⟨[⟨"","x"⟩],["a"],[⟨⟨"a","y"⟩,.eq,.value (.int 1)⟩]⟩) = .ok query := ⟨_,rfl⟩
  obtain ⟨query,run⟩ := run
  exact ⟨query,run,(resolution_inside_iff run).mpr (by decide)⟩

/-- `select * from a where b.x = 1` is accepted, and the plan is a scan of a without conditions. -/
theorem foreign_condition_ignored :
    ∃ query, doAnalyze pairSchema.db (.select ⟨[],["a"],[⟨⟨"b","x"⟩,.eq,.value (.int 1)⟩]⟩) = .ok query ∧
      query.conds = [⟨⟨"b","x"⟩,.eq,true,⟨"",""⟩,.int 1⟩] ∧
      makeOneRel pairSchema.db query.tables query.conds = .ok (.scan ⟨.seqScan,"a",[],[]⟩) ∧
      ¬StaysInside pairSchema.db query := by
  refine ⟨_,rfl,rfl,by decide +kernel,fun inside => ?_⟩
  have listed := (inside.conds _ (List.mem_singleton_self _)).1.listed
  revert listed
  decide

end Select

end Analyze

end Rucbase
