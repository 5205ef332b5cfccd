import Rucbase.SeqScan
import Rucbase.TableRuns

/-! The nested loop join. Its two cursors are moved by one piece of code, which reads the right
row before it looks whether there is one. Loops are given rounds, since nothing is known of the
children but what their calls do. -/
namespace Rucbase

open Lib Lib.Prog Trace TableRuns

variable {a b : List Byte}

namespace NestedLoopJoinExecutor

open AbstractExecutor

/-- `eval_cond`. Columns of the right side have their offsets in the joined record. -/
def evalCond (recCols : List ColMeta) (leftLen : Nat) (cond : Condition) (lrec rrec : List Byte) : Except RMDBError Bool := do
  let lhs ← findCol recCols cond.lhsCol
  let (type,rhs) ←
    if cond.isRhsVal then do
      let raw ← cond.rhsVal.initRaw lhs.len
      pure (cond.rhsVal.type,raw)
    else do
      let col ← findCol recCols cond.rhsCol
      pure (col.type,rrec.drop (col.offset - leftLen).toNat)
  if type = lhs.type then
    .ok (cond.op.holds (ixCompareCol type lhs.len.toNat (lrec.drop lhs.offset.toNat) rhs))
  else .error .assertion

def evalConds (recCols : List ColMeta) (leftLen : Nat) (lrec rrec : List Byte) : List Condition → Except RMDBError Bool
  | [] => .ok true
  | cond :: rest => do
    let holds ← evalCond recCols leftLen cond lrec rrec
    if holds then evalConds recCols leftLen lrec rrec rest else .ok false

/-- The left columns, then the right ones behind them. -/
def joined (left right : List ColMeta) (leftLen : Nat) : List ColMeta :=
  left ++ right.map fun col => { col with offset := col.offset + leftLen }

section Executor

variable {σ τ : Type} (left : AbstractExecutor σ) (right : AbstractExecutor τ) (conds : List Condition)

def cols : List ColMeta := joined left.cols right.cols left.tupleLen

def onLeft {α : Type} (call : Prog σ (Halt RMDBError) α) : Prog (σ × τ) (Halt RMDBError) α :=
  fun s => ((call s.1).1,((call s.1).2,s.2))

def onRight {α : Type} (call : Prog τ (Halt RMDBError) α) : Prog (σ × τ) (Halt RMDBError) α :=
  fun s => ((call s.2).1,(s.1,(call s.2).2))

/-- The next pair. After the last right row comes the first one again, beside the next left row. -/
def skip : Prog (σ × τ) (Halt RMDBError) Unit := do
  onRight right.nextTuple
  let s ← state
  if right.isEnd s.2 then do
    onLeft left.nextTuple
    onRight right.beginTuple
  else pure ()

/-- The loop to the next pair that meets the conditions. -/
def seek : Nat → Prog (σ × τ) (Halt RMDBError) Unit
  | 0 => raise .outOfFuel
  | fuel + 1 => do
    let s ← state
    if left.isEnd s.1 then pure ()
    else do
      let lrec ← onLeft left.next
      let rrec ← onRight right.next
      let holds ← attempt (evalConds (cols left right) left.tupleLen lrec rrec conds)
      if holds then pure ()
      else do
        skip left right
        seek fuel

def beginTuple (fuel : Nat) : Prog (σ × τ) (Halt RMDBError) Unit := do
  onLeft left.beginTuple
  let s ← state
  if left.isEnd s.1 then pure ()
  else do
    onRight right.beginTuple
    seek left right conds fuel

def nextTuple (fuel : Nat) : Prog (σ × τ) (Halt RMDBError) Unit := do
  let s ← state
  check (!left.isEnd s.1) (.thrown .assertion)
  skip left right
  seek left right conds fuel

/-- Both rows are copied into a new record, whose memory was `junk`. -/
def next (junk : Nat → Byte) : Prog (σ × τ) (Halt RMDBError) (List Byte) := do
  let s ← state
  check (!left.isEnd s.1) (.thrown .assertion)
  let leftRecord ← onLeft left.next
  let rightRecord ← onRight right.next
  let data := memcpy (allocated junk (left.tupleLen + right.tupleLen)) 0 leftRecord.length leftRecord
  pure (memcpy data leftRecord.length rightRecord.length rightRecord)

def executor (junk : Nat → Byte) (fuel : Nat) : AbstractExecutor (σ × τ) where
  tupleLen := left.tupleLen + right.tupleLen
  cols := cols left right
  isEnd s := left.isEnd s.1
  beginTuple := beginTuple left right conds fuel
  nextTuple := nextTuple left right conds fuel
  next := next left right junk

end Executor

/-! ### The conditions -/

/-- The first column of that name. -/
def colOf (cols : List ColMeta) (target : TabCol) : Option ColMeta :=
  cols.find? fun col => col.tabName == target.tabName && col.name == target.colName

/-- A column of the left side is compared with one of the right side. -/
structure Across (left right : List ColMeta) (cond : Condition) : Prop where
  column : cond.isRhsVal = false
  lhs : (colOf left cond.lhsCol).isSome = true
  rhs : (colOf right cond.rhsCol).isSome = true
  apart : colOf left cond.rhsCol = none

/-- The comparison of the two columns where each side has its own, as `ix_compare` makes it. -/
def satisfies (left right : List ColMeta) (a b : List Byte) (cond : Condition) : Bool :=
  match colOf left cond.lhsCol, colOf right cond.rhsCol with
  | some lhs, some rhs =>
    cond.op.holds (ixCompareCol rhs.type lhs.len.toNat (a.drop lhs.offset.toNat) (b.drop rhs.offset.toNat))
  | _, _ => false

def sameType (left right : List ColMeta) (cond : Condition) : Bool :=
  (colOf right cond.rhsCol).map ColMeta.type == (colOf left cond.lhsCol).map ColMeta.type

/-- Up to the first condition that is not met, both columns are of one type. -/
def comparable (left right : List ColMeta) (a b : List Byte) : List Condition → Bool
  | [] => true
  | cond :: rest => sameType left right cond && (!satisfies left right a b cond || comparable left right a b rest)

variable {col : ColMeta} {target : TabCol}

theorem findCol_eq {cols : List ColMeta} (found : colOf cols target = some col) : findCol cols target = .ok col := by
  rw [colOf] at found
  rw [findCol,found]

section Conditions

variable {left right : List ColMeta} {leftLen : Nat}

theorem colOf_left (right : List ColMeta) (leftLen : Nat) (found : colOf left target = some col) :
    colOf (joined left right leftLen) target = some col := by
  rw [colOf] at found
  rw [colOf,joined,List.find?_append,found]
  rfl

theorem colOf_right (leftLen : Nat) (apart : colOf left target = none) (found : colOf right target = some col) :
    colOf (joined left right leftLen) target = some { col with offset := col.offset + leftLen } := by
  rw [colOf] at apart found
  rw [colOf,joined,List.find?_append,apart,Option.none_or,List.find?_map]
  exact congrArg (Option.map _) found

theorem evalCond_across {cond : Condition} (across : Across left right cond) (a b : List Byte) :
    evalCond (joined left right leftLen) leftLen cond a b =
      if sameType left right cond then .ok (satisfies left right a b cond) else .error .assertion := by
  obtain ⟨lhs,onLeft⟩ := Option.isSome_iff_exists.mp across.lhs
  obtain ⟨rhs,onRight⟩ := Option.isSome_iff_exists.mp across.rhs
  have first := findCol_eq (colOf_left right leftLen onLeft)
  have second := findCol_eq (colOf_right leftLen across.apart onRight)
  have offset : rhs.offset + leftLen - leftLen = rhs.offset := by omega
  simp [evalCond,first,second,across.column,sameType,satisfies,onLeft,onRight,offset,bind,Except.bind,pure,Except.pure]

theorem evalConds_across {conds : List Condition} (across : ∀ cond ∈ conds, Across left right cond) (a b : List Byte) :
    evalConds (joined left right leftLen) leftLen a b conds =
      if comparable left right a b conds then .ok (conds.all (satisfies left right a b)) else .error .assertion := by
  induction conds with
  | nil => rfl
  | cons cond rest ih =>
    obtain ⟨first,others⟩ := List.forall_mem_cons.mp across
    rw [evalConds,evalCond_across first,ih others]
    by_cases same : sameType left right cond = true
    · by_cases holds : satisfies left right a b cond = true
      · simp [same,holds,comparable,bind,Except.bind]
      · simp [same,holds,comparable,bind,Except.bind]
    · simp [same,comparable,bind,Except.bind]

end Conditions

/-! ### The loop -/

def Wide {σ : Type} (e : AbstractExecutor σ) (t : Trace RMDBError (List Byte)) : Prop := ∀ a ∈ t.rows, a.length = e.tupleLen

/-- An executor with the trace that it shows. -/
structure Child (σ : Type) where
  exec : AbstractExecutor σ
  ready : σ → Prop
  shown : Trace RMDBError (List Byte) → σ → Prop
  trace : Trace RMDBError (List Byte)
  shows : exec.cursor.Shows .assertion ready shown trace
  wide : ∀ t s, shown t s → Wide exec t

/-- An executor whose tuples all have its length. -/
def Child.ofShows {σ : Type} {exec : AbstractExecutor σ} {ready : σ → Prop}
    {shown : Trace RMDBError (List Byte) → σ → Prop} {trace : Trace RMDBError (List Byte)}
    (shows : exec.cursor.Shows .assertion ready shown trace) (wide : Wide exec trace) : Child σ where
  exec := exec
  ready := ready
  shown := fun t s => shown t s ∧ Wide exec t
  trace := trace
  shows := shows.restrict (fun _ _ all b member => all b (List.mem_cons_of_mem _ member)) wide
  wide _ _ here := here.2

namespace Child

variable {σ : Type} (c : Child σ) {a : List Byte} {rest : Trace RMDBError (List Byte)} {s : σ}

theorem isEnd_done (here : c.shown .done s) : c.exec.isEnd s = true := c.shows.isEnd_done s here

theorem isEnd_row (here : c.shown (.row a rest) s) : c.exec.isEnd s = false := c.shows.isEnd_row a rest s here

theorem next_row (here : c.shown (.row a rest) s) : ∃ seen, c.exec.next s = (.ok a,seen) ∧ c.shown (.row a rest) seen :=
  c.shows.read a rest s here

theorem nextTuple_arrives (here : c.shown (.row a rest) s) : Arrives c.shown (c.exec.nextTuple s) rest :=
  c.shows.advance a rest s here

theorem beginTuple_arrives (ready : c.ready s) : Arrives c.shown (c.exec.beginTuple s) c.trace := c.shows.start s ready

end Child

theorem arrives_error {σ : Type} {shown : Trace RMDBError (List Byte) → σ → Prop} {result : Except (Halt RMDBError) Unit × σ}
    {e : RMDBError} (arrives : Arrives shown result (.failed e)) : ∃ s, result = (.error (.thrown e),s) :=
  ⟨result.2,Prod.ext arrives rfl⟩

section Loop

variable {σ τ : Type} (l : Child σ) (r : Child τ) (conds : List Condition) (fuel : Nat)

def test (a b : List Byte) : Except RMDBError Bool := evalConds (cols l.exec r.exec) l.exec.tupleLen a b conds

def traceOf (la : Trace RMDBError (List Byte)) : Trace RMDBError (List Byte) :=
  .nest .assertion (test l r conds) (· ++ ·) r.trace la

/-- What there is still to show beside a left row: the rest of the right side, then the other rows. -/
def remaining (a : List Byte) (rb la : Trace RMDBError (List Byte)) : Trace RMDBError (List Byte) :=
  .pairs (test l r conds) (· ++ ·) a rb (traceOf l r conds la)

def pairsLeft (rb la : Trace RMDBError (List Byte)) : Nat := rb.length + la.length * r.trace.length

/-- What the join shows in a state. -/
def Shown : Trace RMDBError (List Byte) → σ × τ → Prop
  | .done, s => l.shown .done s.1 ∧ r.ready s.2
  | .failed _, _ => False
  | .row c rest, s => ∃ a la b rb, l.shown (.row a la) s.1 ∧ r.shown (.row b rb) s.2 ∧
      c = a ++ b ∧ rest = remaining l r conds a rb la ∧ pairsLeft r rb la < fuel ∧
      ∃ first others, r.trace = .row first others

/-- `seek` with that many rounds finds the next pair. -/
def Seeks (rounds : Nat) : Prop :=
  ∀ a la b rb s, l.shown (.row a la) s.1 → r.shown (.row b rb) s.2 → pairsLeft r (.row b rb) la < rounds →
    Arrives (Shown l r conds fuel) (seek l.exec r.exec conds rounds s) (remaining l r conds a (.row b rb) la)

variable {l r conds fuel}

theorem onLeft_run {α : Type} {call : Prog σ (Halt RMDBError) α} {s next : σ} {result : Except (Halt RMDBError) α}
    (run : call s = (result,next)) (t : τ) : onLeft call (s,t) = (result,(next,t)) := by
  rw [onLeft,run]

theorem onRight_run {α : Type} {call : Prog τ (Halt RMDBError) α} {t next : τ} {result : Except (Halt RMDBError) α}
    (run : call t = (result,next)) (s : σ) : onRight call (s,t) = (result,(s,next)) := by
  rw [onRight,run]

variable {first : List Byte} {others : Trace RMDBError (List Byte)}

section Restarts

variable (some : r.trace = .row first others)

include some

theorem right_restarts {t : τ} (ready : r.ready t) :
    ∃ next, r.exec.beginTuple t = (.ok (),next) ∧ r.shown (.row first others) next := by
  have arrives := r.shows.start t ready
  rw [some] at arrives
  exact arrives

theorem traceOf_row (a : List Byte) (la : Trace RMDBError (List Byte)) :
    traceOf l r conds (.row a la) = remaining l r conds a (.row first others) la := by
  unfold remaining traceOf
  rw [some]
  rfl

theorem skip_seek {rounds : Nat} (seeks : Seeks l r conds fuel rounds)
    {la rb : Trace RMDBError (List Byte)} {s : σ × τ} (left : l.shown (.row a la) s.1)
    (right : r.shown (.row b rb) s.2) (enough : pairsLeft r rb la < rounds) :
    Arrives (Shown l r conds fuel) ((skip l.exec r.exec >>= fun _ => seek l.exec r.exec conds rounds) s)
      (remaining l r conds a rb la) := by
  obtain ⟨s,t⟩ := s
  have moved := r.nextTuple_arrives right
  cases rb with
  | failed e =>
    obtain ⟨t',stop⟩ := arrives_error moved
    have stops : skip l.exec r.exec (s,t) = (.error (.thrown e),(s,t')) := bind_error (onRight_run stop s)
    rw [bind_error stops]
    rfl
  | row b' rb' =>
    obtain ⟨t',run,here⟩ := moved
    have stays : skip l.exec r.exec (s,t) = (.ok (),(s,t')) := by
      rw [skip,bind_ok (onRight_run run s),bind_ok (state_run _)]
      simp [r.isEnd_row here]
    rw [bind_ok stays]
    exact seeks a la b' rb' (s,t') left here enough
  | done =>
    obtain ⟨t',run,here⟩ := moved
    obtain ⟨t'',restart,again⟩ := right_restarts some (r.shows.again _ t' here)
    have turns : skip l.exec r.exec (s,t) = (onLeft l.exec.nextTuple >>= fun _ => onRight r.exec.beginTuple) (s,t') := by
      rw [skip,bind_ok (onRight_run run s),bind_ok (state_run _)]
      simp [r.isEnd_done here]
    have stepped := l.nextTuple_arrives left
    cases la with
    | failed e =>
      obtain ⟨s',stop⟩ := arrives_error stepped
      have stops := turns.trans (bind_error (onLeft_run stop t'))
      rw [bind_error stops]
      rfl
    | done =>
      obtain ⟨s',step,last⟩ := stepped
      have ends := turns.trans ((bind_ok (onLeft_run step t')).trans (onRight_run restart s'))
      obtain ⟨n,rfl⟩ : ∃ n, rounds = n + 1 := ⟨rounds - 1,by omega⟩
      refine ⟨(s',t''),?_,last,r.shows.again _ t'' again⟩
      rw [bind_ok ends,seek,bind_ok (state_run _)]
      simp [l.isEnd_done last]
    | row a' la' =>
      obtain ⟨s',step,more⟩ := stepped
      have moves := turns.trans ((bind_ok (onLeft_run step t')).trans (onRight_run restart s'))
      have shape : remaining l r conds a .done (.row a' la') = remaining l r conds a' (.row first others) la' :=
        traceOf_row some a' la'
      rw [bind_ok moves,shape]
      refine seeks a' la' first others (s',t'') more again ?_
      have size : r.trace.length = others.length + 1 := by rw [some]; rfl
      simp only [pairsLeft,length,rows,List.length_nil,List.length_cons] at enough size ⊢
      rw [Nat.succ_mul] at enough
      omega

theorem seek_seeks (rounds : Nat) (bound : rounds ≤ fuel) :
    Seeks l r conds fuel rounds := by
  induction rounds with
  | zero => exact fun a la b rb s left right enough => absurd enough (Nat.not_lt_zero _)
  | succ rounds ih =>
    rintro a la b rb ⟨s,t⟩ left right enough
    obtain ⟨s',reading,left'⟩ := l.next_row left
    obtain ⟨t',reading',right'⟩ := r.next_row right
    have fewer : pairsLeft r rb la < rounds := by
      simp only [pairsLeft,length,rows,List.length_cons] at enough ⊢
      omega
    have shape : seek l.exec r.exec conds (rounds + 1) (s,t) =
        (attempt (test l r conds a b) >>= fun holds => if holds then pure () else
          skip l.exec r.exec >>= fun _ => seek l.exec r.exec conds rounds) (s',t') := by
      rw [seek,bind_ok (state_run _)]
      simp only [l.isEnd_row left,Bool.false_eq_true,if_false]
      exact (bind_ok (onLeft_run reading t)).trans (bind_ok (onRight_run reading' s'))
    rw [shape,remaining,pairs]
    rcases test l r conds a b with e | _ | _
    · rw [attempt,bind_error (raise_run _ _)]
      rfl
    · exact skip_seek some (ih (by omega)) left' right' fewer
    · exact ⟨(s',t'),rfl,a,la,b,rb,left',right',rfl,rfl,by omega,first,others,some⟩

end Restarts

theorem copied {n m : Nat} (first : a.length = n) (second : b.length = m) (junk : Nat → Byte) :
    memcpy (memcpy (allocated junk (n + m)) 0 a.length a) a.length b.length b = a ++ b := by
  subst first second
  simp [memcpy,allocated]

theorem beginTuple_arrives (enough : l.trace.length * r.trace.length < fuel) {s : σ × τ} (left : l.ready s.1)
    (right : r.ready s.2) :
    Arrives (Shown l r conds fuel) (beginTuple l.exec r.exec conds fuel s) (traceOf l r conds l.trace) := by
  obtain ⟨s,t⟩ := s
  have begun := l.beginTuple_arrives left
  cases trace : l.trace with
  | failed e =>
    rw [trace] at begun
    obtain ⟨s',stop⟩ := arrives_error begun
    rw [beginTuple,bind_error (onLeft_run stop t)]
    rfl
  | done =>
    rw [trace] at begun
    obtain ⟨s',run,here⟩ := begun
    refine ⟨(s',t),?_,here,right⟩
    rw [beginTuple,bind_ok (onLeft_run run t),bind_ok (state_run _)]
    simp [l.isEnd_done here]
  | row a la =>
    rw [trace] at begun enough
    obtain ⟨s',run,here⟩ := begun
    have shape : beginTuple l.exec r.exec conds fuel (s,t) =
        (onRight r.exec.beginTuple >>= fun _ => seek l.exec r.exec conds fuel) (s',t) := by
      rw [beginTuple,bind_ok (onLeft_run run t),bind_ok (state_run _)]
      simp [l.isEnd_row here]
    have started := r.beginTuple_arrives right
    cases trace' : r.trace with
    | failed e =>
      rw [trace'] at started
      obtain ⟨t',stop⟩ := arrives_error started
      rw [shape,bind_error (onRight_run stop s'),traceOf,trace']
      rfl
    | done =>
      rw [trace'] at started
      obtain ⟨t',run',there⟩ := started
      obtain ⟨n,rfl⟩ : ∃ n, fuel = n + 1 := ⟨fuel - 1,by omega⟩
      obtain ⟨s'',reading,_⟩ := l.next_row here
      -- there is no right row to read
      have stop : r.exec.next t' = (.error (.thrown .assertion),(r.exec.next t').2) := Prod.ext (r.shows.isOver t' there) rfl
      rw [shape,bind_ok (onRight_run run' s'),seek,bind_ok (state_run _)]
      simp only [l.isEnd_row here,Bool.false_eq_true,if_false]
      rw [bind_ok (onLeft_run reading t'),bind_error (onRight_run stop s''),traceOf,trace']
      rfl
    | row first others =>
      rw [trace'] at started
      obtain ⟨t',run',there⟩ := started
      rw [shape,bind_ok (onRight_run run' s'),traceOf_row trace']
      refine seek_seeks trace' fuel (Nat.le_refl _) a la first others (s',t') here there ?_
      have size : r.trace.length = others.length + 1 := by rw [trace']; rfl
      simp only [pairsLeft,length,rows,List.length_cons] at enough size ⊢
      rw [Nat.succ_mul] at enough
      omega

variable (conds) in
theorem executor_shows (junk : Nat → Byte) (enough : l.trace.length * r.trace.length < fuel) :
    (executor l.exec r.exec conds junk fuel).cursor.Shows .assertion (fun s => l.ready s.1 ∧ r.ready s.2)
      (Shown l r conds fuel) (traceOf l r conds l.trace) where
  again t s here := by
    cases t with
    | failed e => exact here.elim
    | done => exact ⟨l.shows.again _ _ here.1,here.2⟩
    | row c rest =>
      obtain ⟨a,la,b,rb,left,right,_⟩ := here
      exact ⟨l.shows.again _ _ left,r.shows.again _ _ right⟩
  start s ready := beginTuple_arrives enough ready.1 ready.2
  isEnd_done s here := l.isEnd_done here.1
  isEnd_row c rest s here := by
    obtain ⟨a,la,b,rb,left,_⟩ := here
    exact l.isEnd_row left
  read c rest s here := by
    obtain ⟨s,t⟩ := s
    obtain ⟨a,la,b,rb,left,right,rfl,same⟩ := here
    obtain ⟨s',reading,left'⟩ := l.next_row left
    obtain ⟨t',reading',right'⟩ := r.next_row right
    refine ⟨(s',t'),?_,a,la,b,rb,left',right',rfl,same⟩
    have run : next l.exec r.exec junk (s,t) = (.ok (a ++ b),(s',t')) := by
      rw [next,bind_ok (state_run _),bind_ok (check_run (by simp [l.isEnd_row left]) _ _),bind_ok (onLeft_run reading t),
        bind_ok (onRight_run reading' s')]
      rw [copied (l.wide _ _ left a (by simp [rows])) (r.wide _ _ right b (by simp [rows]))]
      rfl
    exact run
  advance c rest s here := by
    obtain ⟨a,la,b,rb,left,right,rfl,rfl,fewer,first,others,some⟩ := here
    have run : nextTuple l.exec r.exec conds fuel s =
        (skip l.exec r.exec >>= fun _ => seek l.exec r.exec conds fuel) s := by
      rw [nextTuple,bind_ok (state_run _),bind_ok (check_run (by simp [l.isEnd_row left]) _ _)]
    have seeks : Seeks l r conds fuel fuel := seek_seeks some fuel (Nat.le_refl _)
    have arrives := skip_seek some seeks left right fewer
    rw [← run] at arrives
    exact arrives
  isOver s here := by
    have run : next l.exec r.exec junk s = (.error (.thrown .assertion),s) := by
      rw [next,bind_ok (state_run _)]
      simp [check,bind_run,l.isEnd_done here.1]
    exact congrArg Prod.fst run

end Loop

end NestedLoopJoinExecutor

/-! ### Trees of joins -/

open NestedLoopJoinExecutor AbstractExecutor

/-- Joins over executors that enumerate the given rows. -/
inductive JoinTree : Type → Type 1 where
  | child {σ : Type} (e : AbstractExecutor σ) (rows : List (List Byte)) : JoinTree σ
  | join {σ τ : Type} (left : JoinTree σ) (right : JoinTree τ) (conds : List Condition) : JoinTree (σ × τ)

namespace JoinTree

def executor (junk : Nat → Byte) (fuel : Nat) : {σ : Type} → JoinTree σ → AbstractExecutor σ
  | _, child e _ => e
  | _, join left right conds =>
    NestedLoopJoinExecutor.executor (left.executor junk fuel) (right.executor junk fuel) conds junk fuel

def tupleLen : {σ : Type} → JoinTree σ → Nat
  | _, child e _ => e.tupleLen
  | _, join left right _ => left.tupleLen + right.tupleLen

def cols : {σ : Type} → JoinTree σ → List ColMeta
  | _, child e _ => e.cols
  | _, join left right _ => joined left.cols right.cols left.tupleLen

/-- The concatenations of a left and a right row that meet the conditions, in the order of the left rows. -/
def rows : {σ : Type} → JoinTree σ → List (List Byte)
  | _, child _ rows => rows
  | _, join left right conds =>
    left.rows.flatMap fun a => (right.rows.filter fun b => conds.all (satisfies left.cols right.cols a b)).map (a ++ ·)

/-- The children enumerate their rows, and every condition compares a column from the left with one
from the right. -/
def Given : {σ : Type} → JoinTree σ → σ → Prop
  | _, child e rows, s => e.Enumerates s rows
  | _, join left right conds, s => left.Given s.1 ∧ right.Given s.2 ∧ ∀ cond ∈ conds, Across left.cols right.cols cond

/-- Beside every left row there is a right one, and no pair of rows leads to a comparison of columns
of different types. -/
def Safe : {σ : Type} → JoinTree σ → Prop
  | _, child _ _ => True
  | _, join left right conds => left.Safe ∧ (left.rows = [] ∨ (right.Safe ∧ right.rows ≠ []) ∧
      ∀ a ∈ left.rows, ∀ b ∈ right.rows, comparable left.cols right.cols a b conds = true)

variable {σ : Type}

theorem executor_layout (junk : Nat → Byte) (fuel : Nat) (tree : JoinTree σ) :
    (tree.executor junk fuel).tupleLen = tree.tupleLen ∧ (tree.executor junk fuel).cols = tree.cols := by
  induction tree with
  | child e rows => exact ⟨rfl,rfl⟩
  | join left right conds ih ih' =>
    obtain ⟨len,cols⟩ := ih
    obtain ⟨len',cols'⟩ := ih'
    constructor
    · simp [executor,NestedLoopJoinExecutor.executor,tupleLen,len,len']
    · simp [executor,NestedLoopJoinExecutor.executor,NestedLoopJoinExecutor.cols,JoinTree.cols,len,cols,cols']

/-- The trace that a tree shows once its loops have rounds enough. -/
structure Traces (junk : Nat → Byte) (tree : JoinTree σ) (s : σ) (t : Trace RMDBError (List Byte)) : Prop where
  safe : t.fault = none ↔ tree.Safe
  rows : tree.Safe → t.rows = tree.rows
  wide : ∀ a ∈ t.rows, a.length = tree.tupleLen
  shows : ∃ enough, ∀ fuel ≥ enough, ∃ ready shown,
    (tree.executor junk fuel).cursor.Shows .assertion ready shown t ∧ ready s

variable {s : σ}

theorem child_traces (junk : Nat → Byte) {e : AbstractExecutor σ} {rows : List (List Byte)}
    (enumerates : e.Enumerates s rows) : Traces junk (.child e rows) s (.ofList rows) where
  safe := by simp [Safe]
  rows _ := rows_ofList rows
  wide := by simpa [tupleLen] using enumerates.2
  shows := ⟨0,fun _ _ => enumerates.1⟩

section Join

variable {τ : Type} {left : JoinTree σ} {right : JoinTree τ} {conds : List Condition} {s : σ × τ}
  {tl tr : Trace RMDBError (List Byte)} {junk : Nat → Byte}

def meets (left : JoinTree σ) (right : JoinTree τ) (conds : List Condition) (a b : List Byte) : Except RMDBError Bool :=
  NestedLoopJoinExecutor.evalConds (joined left.cols right.cols left.tupleLen) left.tupleLen a b conds

theorem meets_isOk (across : ∀ cond ∈ conds, Across left.cols right.cols cond) (a b : List Byte) :
    (meets left right conds a b).isOk = comparable left.cols right.cols a b conds := by
  rw [meets,evalConds_across across]
  split <;> simp_all [Except.isOk,Except.toBool]

theorem meets_passes (across : ∀ cond ∈ conds, Across left.cols right.cols cond)
    (fine : comparable left.cols right.cols a b conds = true) :
    passes (meets left right conds) a b = conds.all (satisfies left.cols right.cols a b) := by
  rw [passes,meets,evalConds_across across,if_pos fine]
  simp [Except.toOption]

section Joined

variable (l : Traces junk left s.1 tl) (r : Traces junk right s.2 tr) (across : ∀ cond ∈ conds, Across left.cols right.cols cond)

include l r across

theorem join_safe :
    (nest .assertion (meets left right conds) (· ++ ·) tr tl).fault = none ↔ (join left right conds).Safe := by
  rw [nest_fault,l.safe,r.safe,Safe]
  refine and_congr_right fun safe => ?_
  rw [l.rows safe]
  refine or_congr_right ⟨fun ⟨⟨safe',filled⟩,all⟩ => ?_,fun ⟨⟨safe',filled⟩,all⟩ => ?_⟩
  · rw [r.rows safe'] at filled all
    exact ⟨⟨safe',filled⟩,fun a member b member' => by rw [← meets_isOk across]; exact all a member b member'⟩
  · rw [r.rows safe']
    exact ⟨⟨safe',filled⟩,fun a member b member' => by rw [meets_isOk across]; exact all a member b member'⟩

theorem join_rows (safe : (join left right conds).Safe) :
    (nest .assertion (meets left right conds) (· ++ ·) tr tl).rows = (join left right conds).rows := by
  rw [nest_rows ((join_safe l r across).mpr safe),rows,l.rows safe.1]
  rcases safe.2 with none | ⟨⟨safe',_⟩,all⟩
  · simp [none]
  · rw [r.rows safe']
    refine List.flatMap_congr fun a member => congrArg _ (List.filter_congr fun b member' => ?_)
    exact meets_passes across (all a member b member')

theorem join_traces :
    Traces junk (join left right conds) s (.nest .assertion (meets left right conds) (· ++ ·) tr tl) where
  safe := join_safe l r across
  rows := join_rows l r across
  wide c member := by
    obtain ⟨a,listed,b,listed',rfl⟩ := mem_nest member
    rw [List.length_append,l.wide a listed,r.wide b listed',tupleLen]
  shows := by
    obtain ⟨enough,shows⟩ := l.shows
    obtain ⟨enough',shows'⟩ := r.shows
    refine ⟨enough + enough' + tl.length * tr.length + 1,fun fuel above => ?_⟩
    obtain ⟨ready,shown,first,begins⟩ := shows fuel (by omega)
    obtain ⟨ready',shown',second,begins'⟩ := shows' fuel (by omega)
    obtain ⟨len,cols⟩ := executor_layout junk fuel left
    obtain ⟨len',cols'⟩ := executor_layout junk fuel right
    let lc := Child.ofShows first fun a member => by rw [len]; exact l.wide a member
    let rc := Child.ofShows second fun b member => by rw [len']; exact r.wide b member
    have tests : test lc rc conds = meets left right conds := by
      funext a b
      rw [test,NestedLoopJoinExecutor.cols,meets,show lc.exec.tupleLen = left.tupleLen from len,
        show lc.exec.cols = left.cols from cols,show rc.exec.cols = right.cols from cols']
    have rounds : lc.trace.length * rc.trace.length < fuel := by
      show tl.length * tr.length < fuel
      omega
    have whole := executor_shows conds junk rounds
    rw [traceOf,tests] at whole
    exact ⟨_,_,whole,begins,begins'⟩

end Joined

end Join

theorem traced (junk : Nat → Byte) (tree : JoinTree σ) (s : σ) (given : tree.Given s) : ∃ t, Traces junk tree s t := by
  induction tree with
  | child e rows => exact ⟨_,child_traces junk given⟩
  | join left right conds ih ih' =>
    obtain ⟨tl,l⟩ := ih s.1 given.1
    obtain ⟨tr,r⟩ := ih' s.2 given.2.1
    exact ⟨_,join_traces l r given.2.2⟩

/-- Running the tree, from some number of rounds on, yields its rows and ends. -/
def Yields (junk : Nat → Byte) (tree : JoinTree σ) (s : σ) : Prop :=
  ∃ enough, ∀ fuel ≥ enough, ((tree.executor junk fuel).cursor.drain fuel s).1 = .ok tree.rows

theorem Yields.safe {junk : Nat → Byte} {tree : JoinTree σ} (yields : tree.Yields junk s) (given : tree.Given s) :
    tree.Safe := by
  obtain ⟨t,traces⟩ := traced junk tree s given
  obtain ⟨enough,shows⟩ := traces.shows
  obtain ⟨more,yields⟩ := yields
  obtain ⟨fuel,above⟩ : ∃ fuel, more ≤ fuel ∧ enough ≤ fuel ∧ t.length < fuel :=
    ⟨more + enough + t.length + 1,by omega,by omega,by omega⟩
  obtain ⟨ready,shown,shows,begins⟩ := shows fuel above.2.1
  exact traces.safe.mp (run_ok ((shows.drain begins above.2.2).symm.trans (yields fuel above.1)))

theorem Safe.yields {tree : JoinTree σ} (safe : tree.Safe) (junk : Nat → Byte) (given : tree.Given s) :
    tree.Yields junk s := by
  obtain ⟨t,traces⟩ := traced junk tree s given
  obtain ⟨enough,shows⟩ := traces.shows
  refine ⟨enough + t.length + 1,fun fuel above => ?_⟩
  obtain ⟨ready,shown,shows,begins⟩ := shows fuel (by omega)
  rw [shows.drain begins (by omega),run_clean (traces.safe.mpr safe),traces.rows safe]

/-- Running a tree of joins yields the joined rows if and only if it is safe. -/
theorem join_yields_iff (junk : Nat → Byte) (tree : JoinTree σ) (s : σ) (given : tree.Given s) :
    tree.Yields junk s ↔ tree.Safe :=
  ⟨fun yields => yields.safe given,fun safe => safe.yields junk given⟩

end JoinTree

/-! ### Joins of two tables -/

def wideCols (tabName : String) : List ColMeta := [⟨tabName,"a",.int,4,0,false⟩,⟨tabName,"b",.string,449,4,false⟩]

def wideScan (f : RmFile) (tabName : String) : AbstractExecutor SeqScanExecutor.State :=
  SeqScanExecutor.executor f (wideCols tabName) [] 10

/-- `t.a = u.a`. -/
def equalKeys : Condition := ⟨⟨"t","a"⟩,.eq,false,⟨"u","a"⟩,.int 0⟩

/-- The two tables `t` and `u`, joined. -/
def twoTables (t u : RmFile) : JoinTree (SeqScanExecutor.State × SeqScanExecutor.State) :=
  .join (.child (wideScan t "t") t.rows) (.child (wideScan u "u") u.rows) [equalKeys]

theorem wideScan_enumerates {f : RmFile} (ok : f.Ok) (size : f.fileHdr.recordSize = 453) (short : f.rows.length < 10)
    (tabName : String) (s : SeqScanExecutor.State) : (wideScan f tabName).Enumerates s f.rows := by
  have enough : f.liveRids.length < 10 := by simpa [RmFile.rows,RmFile.rowsBy] using short
  have len : (wideScan f tabName).tupleLen = f.fileHdr.recordSize := by rw [size]; rfl
  have scan := SeqScanExecutor.executor_enumerates ok enough (fun _ _ => rfl) len s
  have all : f.rows.filter (SeqScanExecutor.meets (wideCols tabName) []) = f.rows := List.filter_eq_self.mpr fun _ _ => rfl
  rwa [all] at scan

theorem twoTables_given {t u : RmFile} (okT : t.Ok) (okU : u.Ok) (sizeT : t.fileHdr.recordSize = 453)
    (sizeU : u.fileHdr.recordSize = 453) (shortT : t.rows.length < 10) (shortU : u.rows.length < 10)
    (s : SeqScanExecutor.State × SeqScanExecutor.State) : (twoTables t u).Given s := by
  refine ⟨wideScan_enumerates okT sizeT shortT "t" s.1,wideScan_enumerates okU sizeU shortU "u" s.2,fun cond member => ?_⟩
  rw [List.mem_singleton.mp member]
  have across : Across (wideCols "t") (wideCols "u") equalKeys := ⟨rfl,by decide,by decide,by decide⟩
  exact across

/-- Tables with the numbers below 3 and below 5. -/
theorem equal_rows_joined : ∃ t u, (inserted 3).files "t" = some t ∧ (inserted 5).files "t" = some u ∧
    t.rows.length = 3 ∧ u.rows.length = 5 ∧ (twoTables t u).Yields (fun _ => 0) (⟨⟨0,0⟩,⟨0,0⟩⟩,⟨⟨0,0⟩,⟨0,0⟩⟩) := by
  obtain ⟨t,openedT,okT,sizeT⟩ := (inserted_reachable 3).fine
  obtain ⟨u,openedU,okU,sizeU⟩ := (inserted_reachable 5).fine
  have rowsT : ((inserted 3).files "t").map (fun f => f.rows.length) = some 3 := by decide +kernel
  have rowsU : ((inserted 5).files "t").map (fun f => f.rows.length) = some 5 := by decide +kernel
  have three : t.rows.length = 3 := by simpa [openedT] using rowsT
  have five : u.rows.length = 5 := by simpa [openedU] using rowsU
  have given := twoTables_given okT okU sizeT sizeU (by omega) (by omega) (⟨⟨0,0⟩,⟨0,0⟩⟩,⟨⟨0,0⟩,⟨0,0⟩⟩)
  refine ⟨t,u,openedT,openedU,three,five,(JoinTree.join_yields_iff _ _ _ given).mpr ?_⟩
  have filled : u.rows ≠ [] := fun none => by simp [none] at five
  have typed : sameType (wideCols "t") (wideCols "u") equalKeys = true := by decide
  refine ⟨trivial,.inr ⟨⟨trivial,filled⟩,fun a _ b _ => ?_⟩⟩
  show comparable (wideCols "t") (wideCols "u") a b [equalKeys] = true
  simp [comparable,typed]

/-- A table with a row, joined with an empty one. -/
theorem empty_right_not_joined : ∃ t u, oneRow.files "t" = some t ∧ newTable.files "t" = some u ∧
    (twoTables t u).Given (⟨⟨0,0⟩,⟨0,0⟩⟩,⟨⟨0,0⟩,⟨0,0⟩⟩) ∧ ¬ (twoTables t u).Yields (fun _ => 0) (⟨⟨0,0⟩,⟨0,0⟩⟩,⟨⟨0,0⟩,⟨0,0⟩⟩) := by
  obtain ⟨t,openedT,okT,sizeT⟩ := oneRow_reachable.fine
  obtain ⟨u,openedU,okU,sizeU⟩ := newTable_reachable.fine
  have rowsT : (oneRow.files "t").map (fun f => f.rows.length) = some 1 := by decide +kernel
  have rowsU : (newTable.files "t").map (fun f => f.rows) = some [] := by decide +kernel
  have one : t.rows.length = 1 := by simpa [openedT] using rowsT
  have none : u.rows = [] := by simpa [openedU] using rowsU
  have given := twoTables_given okT okU sizeT sizeU (by omega) (by simp [none]) (⟨⟨0,0⟩,⟨0,0⟩⟩,⟨⟨0,0⟩,⟨0,0⟩⟩)
  refine ⟨t,u,openedT,openedU,given,fun yields => ?_⟩
  obtain ⟨_,empty | ⟨⟨_,filled⟩,_⟩⟩ := yields.safe given
  · have empty : t.rows = [] := empty
    simp [empty] at one
  · exact filled none

end Rucbase
