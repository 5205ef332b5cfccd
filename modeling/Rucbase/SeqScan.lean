import Rucbase.Executors
import Rucbase.Lib.Cursor
import Rucbase.TableRows

/-! Executors as cursors, and the cursor of a sequential scan. Loops are given rounds: what they
need is a matter of the table or of the children, not of the code. -/
namespace Rucbase

open Lib Lib.Prog

/-- An executor whose cursor and buffers are in `σ`. -/
structure AbstractExecutor (σ : Type) where
  tupleLen : Nat
  cols : List ColMeta
  isEnd : σ → Bool
  beginTuple : Prog σ (Halt RMDBError) Unit
  nextTuple : Prog σ (Halt RMDBError) Unit
  next : Prog σ (Halt RMDBError) (List Byte)

namespace AbstractExecutor

variable {σ : Type}

def cursor (e : AbstractExecutor σ) : Cursor σ RMDBError (List Byte) := ⟨e.isEnd,e.beginTuple,e.nextTuple,e.next⟩

/-- A call that may throw. -/
def attempt {α : Type} : Except RMDBError α → Prog σ (Halt RMDBError) α
  | .ok a => pure a
  | .error e => raise (.thrown e)

/-- `assert(!is_end())`. -/
def assertMore (e : AbstractExecutor σ) : Prog σ (Halt RMDBError) Unit := do
  let s ← state
  check (!e.isEnd s) (.thrown .assertion)

/-- From `s` on and after every restart the executor enumerates these tuples. -/
def Enumerates (e : AbstractExecutor σ) (s : σ) (rows : List (List Byte)) : Prop :=
  (∃ ready shown, e.cursor.Shows .assertion ready shown (.ofList rows) ∧ ready s) ∧ ∀ a ∈ rows, a.length = e.tupleLen

end AbstractExecutor

namespace SeqScanExecutor

open AbstractExecutor

/-- The position of the table iterator and the row it last stopped at. -/
structure State where
  scan : Rid
  rid : Rid
  deriving DecidableEq, Repr

section Executor

variable (f : RmFile) (cols : List ColMeta) (conds : List Condition)

/-- `get_record` without a context. -/
def getRecord (rid : Rid) : Except RMDBError (List Byte) := do
  let page ← f.fetchPageHandle rid.pageNo
  .ok (RmPage.getSlot f.fileHdr page rid.slotNo.toNat)

def isEnd (s : State) : Bool := s.scan.pageNo == rmNoPage

/-- The loop to the next row that meets the conditions, the current one included. -/
def scanOn : Nat → Prog State (Halt RMDBError) Unit
  | 0 => raise .outOfFuel
  | fuel + 1 => do
    let s ← state
    if isEnd s then pure ()
    else do
      update fun s => { s with rid := s.scan }
      let data ← attempt (getRecord f s.scan)
      let holds ← attempt (evalConds cols data conds)
      if holds then pure ()
      else do
        let next ← attempt (f.scanNext s.scan)
        update fun s => { s with scan := next }
        scanOn fuel

def beginTuple (fuel : Nat) : Prog State (Halt RMDBError) Unit := do
  let first ← attempt f.scanBegin
  update fun s => { s with scan := first }
  scanOn f cols conds fuel

def nextTuple (fuel : Nat) : Prog State (Halt RMDBError) Unit := do
  let s ← state
  check (!isEnd s) (.thrown .assertion)
  let next ← attempt (f.scanNext s.scan)
  update fun s => { s with scan := next }
  scanOn f cols conds fuel

def next : Prog State (Halt RMDBError) (List Byte) := do
  let s ← state
  check (!isEnd s) (.thrown .assertion)
  attempt (getRecord f s.rid)

def executor (fuel : Nat) : AbstractExecutor State where
  tupleLen := match cols.getLast? with
    | some col => (col.offset + col.len).toNat
    | none => 0
  cols := cols
  isEnd := isEnd
  beginTuple := beginTuple f cols conds fuel
  nextTuple := nextTuple f cols conds fuel
  next := next f

end Executor

section Shows

variable {f : RmFile} {cols : List ColMeta} {conds : List Condition} {fuel : Nat}

/-- The rows at these positions that meet the conditions. -/
def traceOf (f : RmFile) (cols : List ColMeta) (conds : List Condition) : List Rid → Trace RMDBError (List Byte)
  | [] => .done
  | rid :: rest =>
    match evalConds cols (f.rowAt rid) conds with
    | .error e => .failed e
    | .ok true => .row (f.rowAt rid) (traceOf f cols conds rest)
    | .ok false => traceOf f cols conds rest

/-- A scan over live rows, with fewer rounds to go than there are. -/
structure Scanning (f : RmFile) (fuel : Nat) (rid : Rid) (rids : List Rid) : Prop where
  scans : f.Scans rid rids
  live : ∀ r ∈ rids, (f.contents r).isSome = true
  fewer : rids.length < fuel

def Shown (f : RmFile) (cols : List ColMeta) (conds : List Condition) (fuel : Nat) :
    Trace RMDBError (List Byte) → State → Prop
  | .done, s => s.scan.pageNo = rmNoPage
  | .failed _, _ => False
  | .row a rest, s => s.rid = s.scan ∧ ∃ rids, Scanning f fuel s.scan (s.scan :: rids) ∧ a = f.rowAt s.scan ∧
      rest = traceOf f cols conds rids

theorem attempt_ok {σ α : Type} {x : Except RMDBError α} {a : α} (fine : x = .ok a) (s : σ) :
    (attempt x : Prog σ (Halt RMDBError) α) s = (.ok a,s) := by
  rw [fine]
  rfl

theorem getRecord_live (ok : f.Ok) {rid : Rid} (live : (f.contents rid).isSome = true) :
    getRecord f rid = .ok (f.rowAt rid) := by
  obtain ⟨page,_,_,fetched,_,_,_,bytes⟩ := RmFile.contents_live ok (RmFile.contents_rowAt live)
  rw [getRecord,fetched]
  exact congrArg Except.ok bytes

theorem Scanning.next {rid : Rid} {rids : List Rid} (scanning : Scanning f fuel rid (rid :: rids)) :
    rid.pageNo ≠ rmNoPage ∧ ∃ r, f.scanNext rid = .ok r ∧ Scanning f fuel r rids := by
  obtain ⟨_,more,r,moved,rest⟩ := scanning.scans
  have fewer := scanning.fewer
  refine ⟨more,r,moved,rest,fun r' member => scanning.live r' (List.mem_cons_of_mem _ member),?_⟩
  simp only [List.length_cons] at fewer
  omega

variable (cols conds) in
theorem scanOn_arrives (ok : f.Ok) {rids : List Rid} {rounds : Nat} {s : State} (scanning : Scanning f fuel s.scan rids)
    (enough : rids.length < rounds) :
    Arrives (Shown f cols conds fuel) (scanOn f cols conds rounds s) (traceOf f cols conds rids) := by
  obtain ⟨n,rfl⟩ : ∃ n, rounds = n + 1 := ⟨rounds - 1,by omega⟩
  induction rids generalizing s n with
  | nil =>
    have last : s.scan.pageNo = rmNoPage := scanning.scans
    have isOver : isEnd s = true := by simpa [isEnd] using last
    refine ⟨s,?_,scanning.scans⟩
    rw [scanOn,bind_ok (state_run s)]
    simp [isOver]
  | cons rid rids ih =>
    obtain ⟨scan,last⟩ := s
    obtain rfl : scan = rid := scanning.scans.1
    obtain ⟨more,next,moved,rest⟩ := scanning.next
    have data := getRecord_live ok (scanning.live scan (List.mem_cons_self ..))
    have shape : scanOn f cols conds (n + 1) ⟨scan,last⟩ =
        (attempt (evalConds cols (f.rowAt scan) conds) >>= fun holds => if holds then pure () else
          attempt (f.scanNext scan) >>= fun next => update (fun s => { s with scan := next }) >>= fun _ =>
            scanOn f cols conds n) ⟨scan,scan⟩ := by
      rw [scanOn,bind_ok (state_run _)]
      simp only [show isEnd ⟨scan,last⟩ = false by simpa [isEnd] using more,Bool.false_eq_true,if_false]
      exact (bind_ok (update_run _ _)).trans (bind_ok (attempt_ok data _))
    rw [shape,traceOf]
    match holds : evalConds cols (f.rowAt scan) conds with
    | .error e => rfl
    | .ok true => exact ⟨⟨scan,scan⟩,rfl,rfl,rids,scanning,rfl,rfl⟩
    | .ok false =>
      have goes : (attempt (f.scanNext scan) >>= fun next => update (fun s => { s with scan := next }) >>= fun _ =>
          scanOn f cols conds n) ⟨scan,scan⟩ = scanOn f cols conds n ⟨next,scan⟩ :=
        (bind_ok (attempt_ok moved _)).trans (bind_ok (update_run _ _))
      obtain ⟨m,rfl⟩ : ∃ m, n = m + 1 := ⟨n - 1,by simp only [List.length_cons] at enough; omega⟩
      have arrives := ih (s := ⟨next,scan⟩) rest m (by simp only [List.length_cons] at enough; omega)
      rw [← goes] at arrives
      exact arrives

variable (cols conds) in
theorem executor_shows (ok : f.Ok) (enough : f.liveRids.length < fuel) :
    (executor f cols conds fuel).cursor.Shows .assertion (fun _ => True) (Shown f cols conds fuel)
      (traceOf f cols conds f.liveRids) where
  again _ _ _ := trivial
  start s _ := by
    obtain ⟨first,begun,scans⟩ := ok.scan_live
    have run : beginTuple f cols conds fuel s = scanOn f cols conds fuel ⟨first,s.rid⟩ :=
      (bind_ok (attempt_ok begun _)).trans (bind_ok (update_run _ _))
    have scanning : Scanning f fuel first f.liveRids := ⟨scans,fun r => ok.mem_liveRids.mp,enough⟩
    have arrives := scanOn_arrives cols conds (s := ⟨first,s.rid⟩) ok scanning enough
    rw [← run] at arrives
    exact arrives
  isEnd_done s here := by
    have last : s.scan.pageNo = rmNoPage := here
    show isEnd s = true
    simpa [isEnd] using last
  isEnd_row a rest s here := by
    obtain ⟨_,rids,scanning,_⟩ := here
    show isEnd s = false
    simpa [isEnd] using scanning.next.1
  read a rest s here := by
    obtain ⟨same,rids,scanning,value,later⟩ := here
    have more : isEnd s = false := by simpa [isEnd] using scanning.next.1
    have data := getRecord_live ok (scanning.live s.scan (List.mem_cons_self ..))
    refine ⟨s,?_,same,rids,scanning,value,later⟩
    have run : next f s = (.ok (f.rowAt s.scan),s) := by
      rw [next,bind_ok (state_run s),bind_ok (check_run (by simp [more]) _ _),same]
      exact attempt_ok data s
    rw [value]
    exact run
  advance a rest s here := by
    obtain ⟨_,rids,scanning,_,rfl⟩ := here
    obtain ⟨more,r,moved,later⟩ := scanning.next
    have run : nextTuple f cols conds fuel s = scanOn f cols conds fuel ⟨r,s.rid⟩ := by
      rw [nextTuple,bind_ok (state_run s),bind_ok (check_run (by simpa [isEnd] using more) _ _)]
      exact (bind_ok (attempt_ok moved _)).trans (bind_ok (update_run _ _))
    have arrives := scanOn_arrives cols conds (s := ⟨r,s.rid⟩) ok later later.fewer
    rw [← run] at arrives
    exact arrives
  isOver s here := by
    have run : next f s = (.error (.thrown .assertion),s) := by
      rw [next,bind_ok (state_run s)]
      simp [check,bind_run,isEnd,show s.scan.pageNo = rmNoPage from here]
    exact congrArg Prod.fst run

def meets (cols : List ColMeta) (conds : List Condition) (data : List Byte) : Bool :=
  (evalConds cols data conds).toOption == some true

theorem traceOf_clean {rids : List Rid} (fine : ∀ rid ∈ rids, (evalConds cols (f.rowAt rid) conds).isOk = true) :
    traceOf f cols conds rids = .ofList ((rids.map f.rowAt).filter (meets cols conds)) := by
  induction rids with
  | nil => rfl
  | cons rid rids ih =>
    obtain ⟨here,others⟩ := List.forall_mem_cons.mp fine
    rw [traceOf,ih others,List.map_cons,List.filter_cons]
    match holds : evalConds cols (f.rowAt rid) conds with
    | .error e => simp [holds,Except.isOk,Except.toBool] at here
    | .ok true => simp [meets,holds,Except.toOption,Trace.ofList]
    | .ok false => simp [meets,holds,Except.toOption]

/-- A scan enumerates the rows that meet its conditions, in the order of their positions. -/
theorem executor_enumerates (ok : f.Ok) (enough : f.liveRids.length < fuel)
    (fine : ∀ data ∈ f.rows, (evalConds cols data conds).isOk = true)
    (len : (executor f cols conds fuel).tupleLen = f.fileHdr.recordSize) (s : State) :
    (executor f cols conds fuel).Enumerates s (f.rows.filter (meets cols conds)) := by
  have shows := executor_shows cols conds ok enough
  rw [traceOf_clean fun rid member => fine _ (List.mem_map_of_mem member)] at shows
  refine ⟨⟨_,_,shows,trivial⟩,fun data member => ?_⟩
  obtain ⟨rid,live,rfl⟩ := List.mem_map.mp (List.mem_filter.mp member).1
  rw [len]
  exact RmFile.contents_length ok (RmFile.contents_rowAt (ok.mem_liveRids.mp live))

end Shows

end SeqScanExecutor

end Rucbase
