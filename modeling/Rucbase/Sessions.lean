import Rucbase.TwoPhase

/-! The threads of the server. Each serves one client in the client's transaction; a new one is begun for the
first request and after a commit or an abort. -/
namespace Rucbase.Sessions

open Lib TwoPhase TxnManager

def invalidTxnId : TxnId := -1

/-- A connection, and the thread that serves it. -/
abbrev Client := Nat

/-- `threadId` is a field of the transactions, `txnId` a variable of the threads. -/
structure Server where
  manager : TxnManager
  threadId : TxnId → Client
  txnId : Client → TxnId

/-- The assertions fail for a number that is not in the map or belongs to another thread. -/
def getTransaction (s : Server) (c : Client) : Except RMDBError (Option TxnId) :=
  if s.txnId c = invalidTxnId then .ok none
  else if s.manager.txnMap (s.txnId c) = true ∧ s.threadId (s.txnId c) = c then .ok (some (s.txnId c))
  else .error .assertion

/-- `begin(nullptr)`, called by the thread of `c`. -/
def begun (s : Server) (c : Client) : Server where
  manager := step s.manager (.begin none)
  threadId := Function.update s.threadId s.manager.nextTxnId c
  txnId := Function.update s.txnId c s.manager.nextTxnId

def setTransaction (s : Server) (c : Client) : Except RMDBError Server := do
  let txn ← getTransaction s c
  pure (if txn.all fun txn => (s.manager.locks.txns txn).state.ended then begun s c else s)

def act (s : Server) (a : Act) : Server := { s with manager := step s.manager a }

/-- A thread takes the next request or goes on with the one it serves, up to each round of the loop in `commit` and
`abort`. Only the commands look the transaction up again; for other calls that changes nothing. -/
def serve (s : Server) : Client × Option Act → Except RMDBError Server
  | (c,none) => if s.manager.ending (s.txnId c) = none then setTransaction s c else pure s
  | (c,some a) => do
    let txn ← getTransaction s c
    pure (if txn ≠ none ∧ actTxn a = txn ∧ Allowed s.manager a then act s a else s)

def start : Server := ⟨TxnManager.start,fun _ => 0,fun _ => invalidTxnId⟩

/-- What `get_transaction` asserts holds for every thread. -/
structure Inv (s : Server) : Prop where
  manager : TxnManager.Inv s.manager
  own : ∀ c, s.txnId c ≠ invalidTxnId → s.manager.txnMap (s.txnId c) = true ∧ s.threadId (s.txnId c) = c

/-- Nothing of the client's transaction has changed. -/
structure Kept (d : Client) (s next : Server) : Prop where
  txnId : next.txnId d = s.txnId d
  txn : s.txnId d ≠ invalidTxnId → next.manager.ending (s.txnId d) = s.manager.ending (s.txnId d) ∧
    next.manager.locks.txns (s.txnId d) = s.manager.locks.txns (s.txnId d)

/-- A run of the managers in which the clients of `quiet` have no part. -/
structure Moves (s : Server) (quiet : Client → Prop) (acts : List Act) (next : Server) : Prop where
  inv : Inv next
  guarded : Guarded step Allowed s.manager acts
  manager : next.manager = acts.foldl step s.manager
  kept : ∀ d, quiet d → Kept d s next

/-- How many transaction numbers are taken. -/
def taken (s : Server) : Int := s.manager.nextTxnId

variable {s : Server} {c d : Client} {a : Act}

theorem start_taken : taken start = 0 := rfl

theorem start_inv : Inv start := ⟨TxnManager.start_inv,fun _ valid => absurd rfl valid⟩

theorem Inv.apart (inv : Inv s) (valid : s.txnId d ≠ invalidTxnId) (other : d ≠ c) : s.txnId c ≠ s.txnId d := by
  intro same
  have mine := (inv.own c (same ▸ valid)).2
  rw [same,(inv.own d valid).2] at mine
  exact other mine

theorem Inv.found (inv : Inv s) (c : Client) :
    ∃ txn, getTransaction s c = .ok txn ∧ (txn ≠ none → txn = some (s.txnId c)) := by
  by_cases valid : s.txnId c = invalidTxnId
  · exact ⟨none,if_pos valid,fun known => absurd rfl known⟩
  · exact ⟨_,by rw [getTransaction,if_neg valid,if_pos (inv.own c valid)],fun _ => rfl⟩

theorem step_entered {m : TxnManager} {txn : TxnId} (own : actTxn a = some txn) :
    (step m a).txnMap = m.txnMap ∧ (step m a).nextTxnId = m.nextTxnId := by
  cases a with
  | begin => cases own
  | request | commit | abort => exact ⟨rfl,rfl⟩
  | unlock | finish =>
    rw [step]
    split <;> exact ⟨rfl,rfl⟩

theorem Inv.stay (inv : Inv s) (quiet : Client → Prop) : Moves s quiet [] s :=
  ⟨inv,trivial,rfl,fun _ _ => ⟨rfl,fun _ => ⟨rfl,rfl⟩⟩⟩

theorem Inv.act (inv : Inv s) (own : actTxn a = some (s.txnId c)) (allowed : Allowed s.manager a) :
    Moves s (· ≠ c) [a] (act s a) := by
  have map := (step_entered (m := s.manager) own).1
  refine ⟨⟨step_inv _ a inv.manager allowed,?_⟩,⟨allowed,trivial⟩,rfl,fun d other =>
    ⟨rfl,fun valid => step_other inv.manager a allowed fun same => ?_⟩⟩
  · rw [Sessions.act,map]
    exact inv.own
  · exact inv.apart valid other (Option.mem_unique own same)

theorem Inv.begun (inv : Inv s) (c : Client) (allowed : Allowed s.manager (.begin none)) :
    Moves s (· ≠ c) [.begin none] (begun s c) := by
  refine ⟨⟨step_inv _ _ inv.manager allowed,fun d valid => ?_⟩,⟨allowed,trivial⟩,rfl,fun d other =>
    ⟨Function.update_of_ne other _ _,fun _ => step_other inv.manager _ allowed fun same => by cases same⟩⟩
  by_cases here : d = c
  · subst here
    simp [Sessions.begun,step,TxnManager.begin]
  · simp only [Sessions.begun,Function.update_of_ne here] at valid ⊢
    obtain ⟨known,thread⟩ := inv.own d valid
    have fresh : s.txnId d ≠ s.manager.nextTxnId := fun same =>
      absurd (inv.manager.fresh _ same.ge) (by simp [known])
    exact ⟨(Function.update_of_ne fresh _ _).trans known,(Function.update_of_ne fresh _ _).trans thread⟩

/-- No assertion fails, and the other clients lose nothing. -/
theorem serve_moves (inv : Inv s) (allowed : Allowed s.manager (.begin none)) (e : Client × Option Act) :
    ∃ next acts, serve s e = .ok next ∧ taken next ≤ taken s + 1 ∧ Moves s (· ≠ e.1) acts next := by
  obtain ⟨c,a⟩ := e
  have stay : taken s ≤ taken s + 1 ∧ Moves s (· ≠ c) [] s := ⟨by omega,inv.stay _⟩
  obtain ⟨txn,found,own⟩ := inv.found c
  cases a with
  | none =>
    simp only [serve,setTransaction,found,bind,Except.bind]
    split
    · split
      · exact ⟨_,_,rfl,(inv.manager.numbered allowed).le,inv.begun c allowed⟩
      · exact ⟨_,_,rfl,stay⟩
    · exact ⟨_,_,rfl,stay⟩
  | some a =>
    simp only [serve,found,bind,Except.bind]
    split
    · rename_i fits
      have mine := fits.2.1.trans (own fits.1)
      have same : taken (act s a) = taken s := (step_entered mine).2
      exact ⟨_,_,rfl,by omega,inv.act mine fits.2.2⟩
    · exact ⟨_,_,rfl,stay⟩

theorem run_moves (inv : Inv s) (events : List (Client × Option Act)) (few : taken s + events.length < 2 ^ 31) :
    ∃ next acts, events.foldlM serve s = .ok next ∧ taken next ≤ taken s + events.length ∧
      Moves s (fun d => ∀ e ∈ events, d ≠ e.1) acts next := by
  induction events generalizing s with
  | nil => exact ⟨s,[],rfl,by simp,inv.stay _⟩
  | cons e rest ih =>
    rw [List.length_cons,Nat.cast_succ] at few ⊢
    have allowed : taken s < 2 ^ 31 - 1 := by omega
    obtain ⟨mid,first,ran,one,moved⟩ := serve_moves inv allowed e
    obtain ⟨next,later,runs,total,moves⟩ := ih moved.inv (by omega)
    refine ⟨next,first ++ later,by rw [List.foldlM_cons,ran]; exact runs,by omega,moves.inv,
      moved.guarded.concat (moved.manager ▸ moves.guarded),?_,fun d quiet => ?_⟩
    · rw [moves.manager,moved.manager,List.foldl_append]
    · obtain ⟨here,there⟩ := List.forall_mem_cons.mp quiet
      obtain ⟨same,one⟩ := moved.kept d here
      obtain ⟨again,two⟩ := moves.kept d there
      rw [same] at again two
      exact ⟨again,fun valid => ⟨(two valid).1.trans (one valid).1,(two valid).2.trans (one valid).2⟩⟩

/-- Under every interleaving of the clients, while the transaction numbers last, the assertions of `get_transaction`
hold, the managers run as they allow, and no two clients are in one transaction. -/
theorem server_runs (events : List (Client × Option Act)) (few : events.length < 2 ^ 31) :
    ∃ s acts, events.foldlM serve start = .ok s ∧ Guarded step Allowed TxnManager.start acts ∧
      s.manager = acts.foldl step TxnManager.start ∧
      ∀ c d, s.txnId d ≠ invalidTxnId → s.txnId c = s.txnId d → d = c := by
  obtain ⟨s,acts,ran,_,moves⟩ := run_moves start_inv events (by rw [start_taken]; omega)
  exact ⟨s,acts,ran,moves.guarded,moves.manager,fun c d valid same => by_contra fun other => moves.inv.apart valid other same⟩

/-- Two clients, the second of which commits and goes on in a new transaction. -/
def twoClients : List (Client × Option Act) :=
  [(0,none),(1,none),(1,some (.request (.sharedOnTable 1 5))),(0,some (.request (.sharedOnTable 0 5))),(1,some (.commit 1)),
    (0,none),(1,some (.unlock 1)),(1,some (.finish 1)),(1,none)]

theorem twoClients_run : ∃ s acts, twoClients.foldlM serve start = .ok s ∧ Guarded step Allowed TxnManager.start acts ∧
    s.manager = acts.foldl step TxnManager.start ∧ s.txnId 0 = 0 ∧ s.txnId 1 = 2 := by
  obtain ⟨s,acts,ran,guarded,manager,_⟩ := server_runs twoClients (by decide)
  have ids : (twoClients.foldlM serve start).map (fun s => (s.txnId 0,s.txnId 1)) = .ok (0,2) := by decide +kernel
  rw [ran] at ids
  obtain ⟨zero,two⟩ := Prod.mk.inj (Except.ok.inj ids)
  exact ⟨s,acts,ran,guarded,manager,zero,two⟩

/-- A client that sends nothing more keeps its transaction and its locks: a connection closed before a commit
blocks what it has locked for good. -/
theorem absent_client_keeps (before after : List (Client × Option Act)) (d : Client) (absent : ∀ e ∈ after, d ≠ e.1)
    (few : before.length + after.length < 2 ^ 31) :
    ∃ s next, before.foldlM serve start = .ok s ∧ (before ++ after).foldlM serve start = .ok next ∧ Kept d s next ∧
      (s.txnId d ≠ invalidTxnId → s.manager.ending (s.txnId d) = none →
        ∀ id ∈ (s.manager.locks.txns (s.txnId d)).lockSet, Isolation.Holds next.manager.locks (s.txnId d) id) := by
  obtain ⟨s,_,ran,first,moves⟩ := run_moves start_inv before (by rw [start_taken]; omega)
  rw [start_taken] at first
  obtain ⟨next,_,runs,_,later⟩ := run_moves moves.inv after (by omega)
  have kept := later.kept d absent
  refine ⟨s,next,ran,by rw [List.foldlM_append,ran]; exact runs,kept,fun valid idle id locked => ?_⟩
  obtain ⟨ending,txn⟩ := kept.txn valid
  exact ((later.inv.manager.idle _ (ending.trans idle)).held id).mp (txn ▸ locked)

theorem absent_client_keeps_table : ∃ next,
    [(0,none),(0,some (.request (.exclusiveOnTable 0 5))),(1,none)].foldlM serve start = .ok next ∧
      Isolation.Holds next.manager.locks 0 (.ofTable 5) := by
  obtain ⟨s,next,ran,runs,_,held⟩ :=
    absent_client_keeps [(0,none),(0,some (.request (.exclusiveOnTable 0 5)))] [(1,none)] 0 (by decide) (by decide)
  obtain rfl := Except.ok.inj ran
  exact ⟨next,runs,held (by decide) rfl (.ofTable 5) (by decide)⟩

end Rucbase.Sessions
