import Rucbase.ColumnValues

/-! UPDATE and DELETE of a table without indexes. A scan chooses the rows before the first of them
changes, so it makes no difference that a changed row comes to meet the conditions or no longer
does. -/
namespace Rucbase.SmManager

open Lib Lib.Prog IndexStatements IndexCoverage
open LockManager hiding step start

/-- The table is in the catalog and open, its columns lie inside its records and it has no index. -/
structure Unindexed (s : SmManager) (tabName : String) (tab : TabMeta) (f : RmFile) : Prop where
  catalog : s.db.tabs.find tabName = some tab
  file : s.rows.files tabName = some f
  ok : f.Ok
  cols : ∀ col ∈ tab.cols, InRecord f.fileHdr.recordSize col
  sized : ∀ col ∈ tab.cols, col.Sized
  bare : tab.indexes = []

/-- No lock was refused. -/
def Undisturbed (call : SmCall Unit) (s : SmManager) : Prop := ∀ e, (call s).1 = .error e → ¬Refused e

variable {s : SmManager} {tabName : String} {tab : TabMeta} {f : RmFile} {txn : TxnId} {conds : List Condition}
  {clauses : List SetClause} {rids : List Rid} {rid : Rid}

def satisfies (tab : TabMeta) (conds : List Condition) (data : List Byte) : Bool :=
  conds.all fun cond => cond.satisfied tab.cols data

/-- The scan from a position on delivers the rows that satisfy the conditions, and changes nothing. -/
theorem scanLoop_matching (ok : f.Ok) {chosen : Rid → Bool} (fine : ∀ rid ∈ rids, ∃ data, f.contents rid = some data ∧
      evalConds tab.cols data conds = .ok (chosen rid)) (scans : f.Scans rid rids) {rounds : Nat}
    (enough : rids.length < rounds) (here : s.rows.files tabName = some f) :
    Ends Refused (fun result next => result = rids.filter chosen ∧ Leaves s s.rows.files next)
      (scanLoop tab tabName conds txn pure rounds rid) s := by
  induction rids generalizing rid rounds s with
  | nil =>
    obtain ⟨rounds,rfl⟩ := Nat.exists_eq_succ_of_ne_zero (Nat.ne_of_gt (Nat.zero_lt_of_lt enough))
    have isOver : rid.pageNo = rmNoPage := scans
    rw [scanLoop,if_pos isOver]
    exact .of_ok (pure_run _ _) ⟨rfl,.refl s⟩
  | cons r rids again =>
    obtain ⟨rounds,rfl⟩ := Nat.exists_eq_succ_of_ne_zero (Nat.ne_of_gt (Nat.zero_lt_of_lt enough))
    obtain ⟨rfl,more,onward,moved,rest⟩ := scans
    obtain ⟨⟨data,live,evaluated⟩,others⟩ := List.forall_mem_cons.mp fine
    rw [scanLoop,if_neg more]
    refine (getRecord_ends here ok live).bind ?_
    rintro _ s1 ⟨rfl,read⟩
    have here1 : s1.rows.files tabName = some f := by rw [read.files,here]
    refine .step (lift_run evaluated) ?_
    have later (found : List Rid) : Ends Refused (fun result next => result = found ++ rids.filter chosen ∧
        Leaves s s.rows.files next) (do
          let f ← onRows (Db.fileOf tabName)
          let next ← SmManager.lift (f.scanNext rid)
          let rest ← scanLoop tab tabName conds txn pure rounds next
          pure (found ++ rest)) s1 := by
      refine .step (fileOf_open here1) (.step (lift_run moved) ?_)
      refine (again others rest (by simpa using enough) here1).bind ?_
      rintro _ s2 ⟨rfl,scanned⟩
      refine .of_ok (pure_run _ _) ⟨rfl,?_⟩
      rw [← read.files]
      exact read.trans scanned
    cases taken : chosen rid with
    | true =>
      rw [List.filter_cons_of_pos taken]
      exact later [rid]
    | false =>
      rw [List.filter_cons_of_neg (by simp [taken])]
      exact later []

theorem matching_ends (table : Unindexed s tabName tab f) (typed : ∀ cond ∈ conds, cond.Typed tab.cols) :
    Ends Refused (fun result next => result = f.liveRids.filter (fun rid => satisfies tab conds (f.rowAt rid)) ∧
      Leaves s s.rows.files next) (matching tabName conds txn) s := by
  obtain ⟨first,start,scans⟩ := table.ok.scan_live
  have rounds : f.liveRids.length < scanRounds f := Nat.lt_succ_of_le f.liveRids_length
  refine .step (state_run s) (.step (getTable_known table.catalog) (.step (fileOf_open table.file) (.step (lift_run start) ?_)))
  refine scanLoop_matching table.ok (fun rid listed => ?_) scans rounds table.file
  have live := RmFile.contents_rowAt (table.ok.mem_liveRids.mp listed)
  have fits : ∀ col ∈ tab.cols, InRecord (f.rowAt rid).length col := by
    rw [RmFile.contents_length table.ok live]
    exact table.cols
  exact ⟨_,live,evalConds_satisfied fits table.sized typed⟩

/-- The record with the bytes of the set columns replaced. -/
def overwrite (tab : TabMeta) (clauses : List SetClause) (data : List Byte) : List Byte :=
  data.mapIdx fun i byte => (written tab clauses i).getD byte

variable {data : List Byte} {change : List Byte → Option (List Byte)} {g : RmFile}

theorem setColumns_overwrite (known : ∀ clause ∈ clauses, (tab.getCol clause.lhs.colName).isOk = true)
    (raw : RawClauses tab clauses) (inside : ∀ col ∈ tab.cols, InRecord data.length col) :
    setColumns tab clauses data = .ok (overwrite tab clauses data) := by
  obtain ⟨new,run⟩ := setColumns_known known data
  obtain ⟨size,bytes⟩ := setColumns_at raw inside run
  rw [run]
  refine congrArg _ (List.ext_getElem? fun i => ?_)
  rw [bytes,overwrite,List.getElem?_mapIdx]
  cases here : data[i]? with
  | some byte => cases written tab clauses i <;> rfl
  | none =>
    have outside : new[i]? = none := List.getElem?_eq_none (by rw [size]; exact List.getElem?_eq_none_iff.mp here)
    rw [bytes,here] at outside
    rw [outside]
    rfl

theorem overwrite_length (tab : TabMeta) (clauses : List SetClause) (data : List Byte) :
    (overwrite tab clauses data).length = data.length := List.length_mapIdx

/-- The rows after those of a list were replaced by what `change` makes of them. -/
def changed (contents : Rid → Option (List Byte)) (rids : List Rid) (change : List Byte → Option (List Byte)) :
    Rid → Option (List Byte) :=
  fun rid => if rid ∈ rids then (contents rid).bind change else contents rid

theorem rows_changed {round : Rid → SmCall Unit} {rounds : List Rid → SmCall Unit} (first : rounds [] = pure ())
    (next : ∀ rid rest, rounds (rid :: rest) = (do round rid; rounds rest))
    (step : ∀ (s : SmManager) (g : RmFile) (rid : Rid) (data : List Byte), s.rows.files tabName = some g → g.Ok →
      f.SameLayout g → g.contents rid = some data →
      Ends Refused (fun _ => Holds s tabName g (Function.update g.contents rid (change data))) (round rid) s)
    (here : s.rows.files tabName = some g) (ok : g.Ok) (layout : f.SameLayout g)
    (live : ∀ rid ∈ rids, (g.contents rid).isSome = true) (distinct : rids.Nodup) :
    Ends Refused (fun _ => Holds s tabName g (changed g.contents rids change)) (rounds rids) s := by
  induction rids generalizing s g with
  | nil =>
    rw [first]
    refine .of_ok (pure_run _ _) ⟨g,ok,.refl g,rfl,?_⟩
    rw [Function.update_eq_self_iff.mpr here.symm]
    exact .refl s
  | cons rid rest again =>
    obtain ⟨alive,others⟩ := List.forall_mem_cons.mp live
    obtain ⟨fresh,distinct⟩ := List.nodup_cons.mp distinct
    obtain ⟨data,row⟩ := Option.isSome_iff_exists.mp alive
    rw [next]
    refine (step s g rid data here ok layout row).bind ?_
    rintro _ s1 ⟨g1,ok1,layout1,rows1,leaves1⟩
    have here1 : s1.rows.files tabName = some g1 := by rw [leaves1.files,Function.update_self]
    have apart : ∀ r ∈ rest, r ≠ rid := fun r listed same => fresh (same ▸ listed)
    have still : ∀ r ∈ rest, (g1.contents r).isSome = true := by
      intro r listed
      rw [rows1,Function.update_of_ne (apart r listed)]
      exact others r listed
    refine (again here1 ok1 (layout.trans layout1) still distinct).mono ?_
    rintro _ s2 ⟨g2,ok2,layout2,rows2,leaves2⟩
    refine ⟨g2,ok2,layout1.trans layout2,?_,?_⟩
    · funext r
      rw [rows2,changed,changed,rows1]
      by_cases listed : r ∈ rest
      · rw [if_pos listed,if_pos (List.mem_cons_of_mem _ listed),Function.update_of_ne (apart r listed)]
      · by_cases same : r = rid
        · subst same
          simp [listed,row]
        · simp [listed,same]
    · rw [leaves1.files,Function.update_idem] at leaves2
      exact leaves1.trans leaves2

theorem updateRow_ends (table : Unindexed s tabName tab f)
    (known : ∀ clause ∈ clauses, (tab.getCol clause.lhs.colName).isOk = true) (raw : RawClauses tab clauses)
    {s' : SmManager}  (here : s'.rows.files tabName = some g) (ok : g.Ok) (layout : f.SameLayout g)
    (live : g.contents rid = some data) :
    Ends Refused (fun _ => Holds s' tabName g (Function.update g.contents rid (some (overwrite tab clauses data))))
      (updateRow tab tabName clauses txn rid) s' := by
  have width := RmFile.contents_length ok live
  have inside : ∀ col ∈ tab.cols, InRecord data.length col := by
    rw [width,layout.recordSize]
    exact table.cols
  have size : (overwrite tab clauses data).length = g.fileHdr.recordSize := (overwrite_length _ _ _).trans width
  refine (getRecord_ends here ok live).bind ?_
  rintro _ s1 ⟨rfl,read⟩
  refine .step (lift_run (setColumns_overwrite known raw inside)) ?_
  rw [table.bare]
  refine .step (pure_run _ _) ?_
  have here1 : s1.rows.files tabName = some g := by rw [read.files,here]
  refine (updateRecord_ends here1 ok live size).bind ?_
  rintro _ s2 ⟨f',ok',layout',written,leaves⟩
  rw [read.files] at leaves
  exact .of_ok (pure_run _ _) ⟨f',ok',layout',written,read.trans leaves⟩

/-- The rows after a statement that makes `change` of those that satisfy its conditions. -/
def matched (tab : TabMeta) (conds : List Condition) (f : RmFile) (change : List Byte → Option (List Byte)) :
    Rid → Option (List Byte) :=
  fun rid => (f.contents rid).bind fun data => if satisfies tab conds data then change data else some data

theorem changed_matched (ok : f.Ok) (change : List Byte → Option (List Byte)) :
    changed f.contents (f.liveRids.filter fun rid => satisfies tab conds (f.rowAt rid)) change = matched tab conds f change := by
  funext rid
  simp only [changed,matched,List.mem_filter,ok.mem_liveRids]
  cases row : f.contents rid with
  | none => simp
  | some data =>
    rw [RmFile.rowAt_eq row]
    cases met : satisfies tab conds data <;> simp [met]

theorem Unindexed.left (table : Unindexed s tabName tab f) {next : SmManager} (leaves : Leaves s s.rows.files next) :
    Unindexed next tabName tab f :=
  ⟨by rw [leaves.db,table.catalog],by rw [leaves.files,table.file],table.ok,table.cols,table.sized,table.bare⟩

/-- A statement: the scan, the lookups of its executor, and the rounds. -/
theorem statement_ends (table : Unindexed s tabName tab f) (typed : ∀ cond ∈ conds, cond.Typed tab.cols)
    {executor : List Rid → SmCall Unit}
    (rounds : ∀ next rids, Unindexed next tabName tab f → (∀ rid ∈ rids, (f.contents rid).isSome = true) → rids.Nodup →
      Ends Refused (fun _ => Holds next tabName f (changed f.contents rids change)) (executor rids) next) :
    Ends Refused (fun _ => Holds s tabName f (matched tab conds f change)) (matching tabName conds txn >>= executor) s := by
  refine (matching_ends table typed).bind ?_
  rintro _ s1 ⟨rfl,scanned⟩
  have live : ∀ rid ∈ f.liveRids.filter (fun rid => satisfies tab conds (f.rowAt rid)), (f.contents rid).isSome = true :=
    fun rid listed => table.ok.mem_liveRids.mp (List.mem_filter.mp listed).1
  refine (rounds s1 _ (table.left scanned) live (f.liveRids_nodup.filter _)).mono ?_
  rintro _ s2 ⟨f',ok',layout,rows,leaves⟩
  rw [scanned.files] at leaves
  exact ⟨f',ok',layout,rows.trans (changed_matched table.ok change),scanned.trans leaves⟩

theorem updateStmt_ends (table : Unindexed s tabName tab f) (typed : ∀ cond ∈ conds, cond.Typed tab.cols)
    (known : ∀ clause ∈ clauses, (tab.getCol clause.lhs.colName).isOk = true) (raw : RawClauses tab clauses) :
    Ends Refused (fun _ => Holds s tabName f (matched tab conds f fun data => some (overwrite tab clauses data)))
      (updateStmt tabName clauses conds txn) s := by
  refine statement_ends table typed fun next rids table live distinct => ?_
  refine .step (state_run next) (.step (getTable_known table.catalog) (.step (fileOf_open table.file) ?_))
  refine rows_changed rfl (fun _ _ => rfl) ?_ table.file table.ok (.refl f) live distinct
  exact fun _ _ _ _ here ok layout row => updateRow_ends table known raw here ok layout row

theorem deleteStmt_ends (junk : Nat → Byte) (table : Unindexed s tabName tab f)
    (typed : ∀ cond ∈ conds, cond.Typed tab.cols) :
    Ends Refused (fun _ => Holds s tabName f (matched tab conds f fun _ => none)) (deleteStmt junk tabName conds txn) s := by
  refine statement_ends table typed fun next rids table live distinct => ?_
  refine .step (state_run next) (.step (getTable_known table.catalog) (.step (fileOf_open table.file) ?_))
  have rows : Ends Refused (fun _ => Holds next tabName f (changed f.contents rids fun _ => none)) (deleteRecords tabName txn rids) next :=
    rows_changed rfl (fun _ _ => rfl) (fun _ _ _ _ here ok _ row => deleteRecord_ends here ok row)
      table.file table.ok (.refl f) live distinct
  refine rows.bind fun _ s1 holds => ?_
  rw [table.bare]
  exact .of_ok (pure_run _ _) holds

/-- UPDATE and DELETE change exactly the rows that satisfied their conditions before. -/
theorem statements_exact (table : Unindexed s tabName tab f) (typed : ∀ cond ∈ conds, cond.Typed tab.cols)
    (known : ∀ clause ∈ clauses, (tab.getCol clause.lhs.colName).isOk = true) (raw : RawClauses tab clauses)
    (junk : Nat → Byte) (txn : TxnId) :
    (Undisturbed (updateStmt tabName clauses conds txn) s →
      ∃ next, updateStmt tabName clauses conds txn s = (.ok (),next) ∧
        Holds s tabName f (matched tab conds f fun data => some (overwrite tab clauses data)) next) ∧
    (Undisturbed (deleteStmt junk tabName conds txn) s →
      ∃ next, deleteStmt junk tabName conds txn s = (.ok (),next) ∧ Holds s tabName f (matched tab conds f fun _ => none) next) := by
  refine ⟨fun undisturbed => ?_,fun undisturbed => ?_⟩
  · obtain ⟨_,next,run,holds⟩ := (updateStmt_ends table typed known raw).returns undisturbed
    exact ⟨next,run,holds⟩
  · obtain ⟨_,next,run,holds⟩ := (deleteStmt_ends junk table typed).returns undisturbed
    exact ⟨next,run,holds⟩

def wideCols : List ColMeta := [⟨"t","a",.int,4,0,false⟩,⟨"t","b",.string,500,4,false⟩]

def twoRows : SmManager := (numbers.take 2).foldl (IndexCoverage.step "t") wideTable

def belowEight : Condition := ⟨⟨"t","a"⟩,.lt,true,⟨"",""⟩,.int 8⟩

/-- The row that is set to 8 no longer satisfies the condition, and the row that had 8 is left. -/
theorem twoRows_exact : ∃ tab f, Unindexed twoRows "t" tab f ∧
    (∃ next, updateStmt "t" (setNumber 8) [belowEight] 1 twoRows = (.ok (),next) ∧
      Holds twoRows "t" f (matched tab [belowEight] f fun data => some (overwrite tab (setNumber 8) data)) next) ∧
    ∃ next, deleteStmt (fun _ => 0) "t" [belowEight] 1 twoRows = (.ok (),next) ∧
      Holds twoRows "t" f (matched tab [belowEight] f fun _ => none) next := by
  have differ : Guarded (IndexCoverage.step "t") (KeysDiffer "t") wideTable (numbers.take 2) := by decide +kernel
  obtain ⟨_,maintained⟩ := wideTable_maintained
  have run := run_maintained maintained (numbers.take 2) differ
  rw [← twoRows] at run
  obtain ⟨tab,f,final⟩ := run
  have facts : ∀ tab ∈ twoRows.db.tabs.find "t", tab.indexes = [] ∧ tab.cols = wideCols ∧ RawClauses tab (setNumber 8) ∧
      ∀ clause ∈ setNumber 8, (tab.getCol clause.lhs.colName).isOk = true := by decide +kernel
  obtain ⟨bare,cols,raw,known⟩ := facts tab final.catalog
  have table : Unindexed twoRows "t" tab f := ⟨final.catalog,final.file,final.ok,final.cols,by rw [cols]; decide,bare⟩
  have typed : ∀ cond ∈ [belowEight], cond.Typed tab.cols := by
    rw [cols,List.forall_mem_singleton]
    exact ⟨_,rfl,by rw [if_pos (by rfl)]; decide⟩
  have updates : (updateStmt "t" (setNumber 8) [belowEight] 1 twoRows).1 = .ok () := by decide +kernel
  have deletes : (deleteStmt (fun _ => 0) "t" [belowEight] 1 twoRows).1 = .ok () := by decide +kernel
  obtain ⟨update,delete⟩ := statements_exact table typed known raw (fun _ => 0) 1
  exact ⟨tab,f,table,update fun e failed => absurd (updates.symm.trans failed) nofun,
    delete fun e failed => absurd (deletes.symm.trans failed) nofun⟩

end Rucbase.SmManager
