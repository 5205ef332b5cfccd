import Mathlib.Data.List.Nodup
import Mathlib.Data.List.Pairwise
import Rucbase.LockManager

/-! Lock compatibility. Requests are admitted from a summary of the queue, the group
mode and two counters, that `unlock` recomputes with shifted enumeration values and that
an upgrade to X leaves uncorrected. What survives is an over-approximation: the group
mode covers every request and the counters are upper bounds. -/
namespace Rucbase.LockManager

open Lib Lib.Prog LockRequestQueue LockState

/-- The standard compatibility matrix. -/
def compatible : LockMode → LockMode → Bool
  | .intentionShared, .exclusive | .exclusive, .intentionShared => false
  | .intentionShared, _ | _, .intentionShared => true
  | .intentionExclusive, .intentionExclusive => true
  | .shared, .shared => true
  | _, _ => false

theorem compatible_comm (a b : LockMode) : compatible a b = compatible b a := by
  cases a <;> cases b <;> rfl

/-- The modes a queue may hold under each group mode. X covers everything, as `unlock`
may compute X for a queue of intention locks. -/
def covers : GroupLockMode → LockMode → Bool
  | .nonLock, _ => false
  | .is, m => m == .intentionShared
  | .ix, m => m == .intentionShared || m == .intentionExclusive
  | .s, m => m == .intentionShared || m == .shared
  | .x, _ => true
  | .six, m => m != .exclusive

def sharedCount (requests : List LockRequest) : Nat :=
  requests.countP (fun r => countsShared r.lockMode)

def ixCount (requests : List LockRequest) : Nat :=
  requests.countP (fun r => countsIX r.lockMode)

structure SoundQueue (q : LockRequestQueue) : Prop where
  single : (q.requestQueue.map LockRequest.txnId).Nodup
  pairwise : q.requestQueue.Pairwise (fun a b => compatible a.lockMode b.lockMode = true)
  covered : ∀ r ∈ q.requestQueue, covers q.groupLockMode r.lockMode = true
  shared : (sharedCount q.requestQueue : Int) ≤ q.sharedLockNum
  ix : (ixCount q.requestQueue : Int) ≤ q.ixLockNum

def Sound (s : LockState) : Prop :=
  ∀ id q, s.lockTable id = some q → SoundQueue q

theorem empty_sound : SoundQueue {} := by
  constructor <;> simp [sharedCount,ixCount]

section Queues

variable {s next : LockState} {id : LockDataId} {q : LockRequestQueue} {P : LockDataId → LockRequestQueue → Prop}
  (each : ∀ id q, s.lockTable id = some q → P id q)

include each

theorem queue_of_each (empty : P id {}) : P id (s.queue id) := by
  unfold LockState.queue
  cases found : s.lockTable id with
  | none => exact empty
  | some q => exact each id q found

theorem each_setQueue (table : next.lockTable = (s.setQueue id q).lockTable) (fine : P id q) (other : LockDataId)
    (p : LockRequestQueue) (present : next.lockTable other = some p) : P other p := by
  rw [table] at present
  dsimp only [setQueue] at present
  by_cases same : other = id
  · subst other
    rw [Function.update_self] at present
    cases present
    exact fine
  · rw [Function.update_of_ne same] at present
    exact each other p present

end Queues

theorem Sound.queue {s : LockState} (sound : Sound s) (id : LockDataId) : SoundQueue (s.queue id) :=
  queue_of_each sound empty_sound

/-! ### What a call does -/

/-- The first grant attempt of a transaction starts its growing phase. -/
def LockState.grown (s : LockState) (txn : TxnId) : LockState :=
  if (s.txns txn).state = .default then s.setTxnState txn .growing else s

section States

variable (s : LockState) (txn : TxnId) (id : LockDataId) (q : LockRequestQueue)

@[simp] theorem grown_lockTable : (s.grown txn).lockTable = s.lockTable := by
  unfold grown; split <;> rfl

@[simp] theorem grown_lockSet (other : TxnId) : ((s.grown txn).txns other).lockSet = (s.txns other).lockSet := by
  unfold grown
  split
  · by_cases same : other = txn
    · subst other; simp [setTxnState]
    · simp [setTxnState,same]
  · rfl

@[simp] theorem addLock_lockTable : (s.addLock txn id).lockTable = s.lockTable := rfl

@[simp] theorem setQueue_txns : (s.setQueue id q).txns = s.txns := rfl

@[simp] theorem setQueue_same : (s.setQueue id q).lockTable id = some q := by simp [setQueue]

@[simp] theorem setQueue_other (s : LockState) (id other : LockDataId) (q : LockRequestQueue) (apart : other ≠ id) :
    (s.setQueue id q).lockTable other = s.lockTable other := by
  simp [setQueue,apart]

@[simp] theorem grown_queue : (s.grown txn).queue id = s.queue id := by simp [queue]

@[simp] theorem setQueue_queue : (s.setQueue id q).queue id = q := by simp [queue]

@[simp] theorem setQueue_setQueue (r : LockRequestQueue) : (s.setQueue id q).setQueue id r = s.setQueue id r := by simp [setQueue]

theorem setQueue_self (present : s.lockTable id = some q) : s.setQueue id q = s := by
  unfold setQueue
  rw [← present,Function.update_eq_self]

end States

/-- Everything a request can do, with the guard under which it does it. -/
inductive Outcome (rule : LockRule) (txn : TxnId) (id : LockDataId) (s : LockState) :
    Except TransactionAbortException Bool → LockState → Prop where
  | ended : (s.txns txn).state.ended = true → Outcome rule txn id s (.ok false) s
  | shrinking : (s.txns txn).state = .shrinking →
      Outcome rule txn id s (.error ⟨txn,.lockOnShrinking⟩) s
  | kept {q r} : s.lockTable id = some q → findRequest txn q.requestQueue = some r →
      rule.own q r.lockMode = .keep → Outcome rule txn id s (.ok true) (s.grown txn)
  | refused {q r} : s.lockTable id = some q → findRequest txn q.requestQueue = some r →
      rule.own q r.lockMode = .refuse →
      Outcome rule txn id s (.error ⟨txn,.deadlockPrevention⟩) (s.grown txn)
  | upgraded {q r mode group shared ix} : (s.txns txn).state.ended = false →
      (s.txns txn).state ≠ .shrinking → s.lockTable id = some q →
      findRequest txn q.requestQueue = some r →
      rule.own q r.lockMode = .upgrade mode group shared ix →
      Outcome rule txn id s (.ok true)
        ((s.grown txn).setQueue id (q.upgraded txn mode group shared ix))
  | blocked : findRequest txn (s.queue id).requestQueue = none →
      rule.conflicts (s.queue id).groupLockMode = true →
      Outcome rule txn id s (.error ⟨txn,.deadlockPrevention⟩)
        ((s.grown txn).setQueue id (s.queue id))
  | granted : (s.txns txn).state.ended = false → (s.txns txn).state ≠ .shrinking →
      findRequest txn (s.queue id).requestQueue = none →
      rule.conflicts (s.queue id).groupLockMode = false →
      Outcome rule txn id s (.ok true)
        (((s.grown txn).setQueue id ((s.queue id).granting txn rule)).addLock txn id)

theorem checkLock_run (txn : TxnId) (s : LockState) :
    checkLock txn s =
      if (s.txns txn).state.ended then (.ok false, s)
      else if (s.txns txn).state = .shrinking then (.error ⟨txn,.lockOnShrinking⟩, s)
      else (.ok true, s.grown txn) := by
  cases phase : (s.txns txn).state <;>
    simp [checkLock,bind_run,phase,TransactionState.ended,grown]

variable {ix shared : Int} {others : List LockRequest} {r : LockRequest} {q : LockRequestQueue} {rule : LockRule}
  {txn : TxnId}

theorem queue_present {s : LockState} {id : LockDataId} {r : LockRequest}
    (found : findRequest txn (s.queue id).requestQueue = some r) :
    s.lockTable id = some (s.queue id) := by
  unfold queue at found ⊢
  cases present : s.lockTable id with
  | none => simp [present,findRequest] at found
  | some q => rfl

theorem acquire_outcome (rule : LockRule) (txn : TxnId) (id : LockDataId) (s : LockState) :
    Outcome rule txn id s (acquire rule txn id s).1 (acquire rule txn id s).2 := by
  unfold acquire
  rw [bind_run,checkLock_run]
  by_cases isOver : (s.txns txn).state.ended = true
  · simpa [isOver] using Outcome.ended isOver
  by_cases late : (s.txns txn).state = .shrinking
  · simpa [late,TransactionState.ended] using Outcome.shrinking late
  have live : (s.txns txn).state.ended = false := Bool.eq_false_iff.mpr isOver
  simp only [live,late,Bool.false_eq_true,↓reduceIte,Bool.not_true,bind_run,update_run,state_run,grown_queue,
    setQueue_queue]
  cases found : findRequest txn (s.queue id).requestQueue with
  | some r =>
    have present := queue_present found
    have same : (s.grown txn).setQueue id (s.queue id) = s.grown txn :=
      setQueue_self _ _ _ (by simpa using present)
    cases own : rule.own (s.queue id) r.lockMode with
    | keep => simpa [same,own] using Outcome.kept present found own
    | refuse => simpa [same,own] using Outcome.refused present found own
    | upgrade mode group shared ix =>
      simpa [bind_run,same,own] using Outcome.upgraded live late present found own
  | none =>
    by_cases conflict : rule.conflicts (s.queue id).groupLockMode = true
    · simpa [conflict] using Outcome.blocked found conflict
    · have free := Bool.eq_false_iff.mpr conflict
      simpa [free,bind_run] using Outcome.granted live late found free

section Invariant

variable {s : LockState} {id : LockDataId}

theorem acquire_invariant {P : LockState → Prop} (idle : P s) (grown : P (s.grown txn))
    (blocked : P ((s.grown txn).setQueue id (s.queue id)))
    (upgraded : ∀ q r mode group shared ix, (s.txns txn).state.ended = false → (s.txns txn).state ≠ .shrinking →
      s.lockTable id = some q → findRequest txn q.requestQueue = some r →
      rule.own q r.lockMode = .upgrade mode group shared ix →
      P ((s.grown txn).setQueue id (q.upgraded txn mode group shared ix)))
    (granted : (s.txns txn).state.ended = false → (s.txns txn).state ≠ .shrinking →
      findRequest txn (s.queue id).requestQueue = none → rule.conflicts (s.queue id).groupLockMode = false →
      P (((s.grown txn).setQueue id ((s.queue id).granting txn rule)).addLock txn id)) :
    P ((acquire rule txn id).after s) := by
  have outcome := acquire_outcome rule txn id s
  unfold after
  generalize (acquire rule txn id s).1 = result at outcome
  generalize (acquire rule txn id s).2 = next at outcome
  cases outcome with
  | ended => exact idle
  | shrinking => exact idle
  | kept => exact grown
  | refused => exact grown
  | upgraded live late present found own => exact upgraded _ _ _ _ _ _ live late present found own
  | blocked => exact blocked
  | granted live late fresh free => exact granted live late fresh free

@[simp] theorem grown_setQueue_table (s : LockState) (txn : TxnId) (id : LockDataId) (q : LockRequestQueue) :
    ((s.grown txn).setQueue id q).lockTable = (s.setQueue id q).lockTable := by
  simp [setQueue]

theorem acquire_each {P : LockDataId → LockRequestQueue → Prop} (each : ∀ id q, s.lockTable id = some q → P id q)
    (empty : P id {})
    (upgraded : ∀ q r mode group shared ix, (s.txns txn).state.ended = false → (s.txns txn).state ≠ .shrinking →
      s.lockTable id = some q → findRequest txn q.requestQueue = some r →
      rule.own q r.lockMode = .upgrade mode group shared ix → P id (q.upgraded txn mode group shared ix))
    (granted : findRequest txn (s.queue id).requestQueue = none → rule.conflicts (s.queue id).groupLockMode = false →
      P id ((s.queue id).granting txn rule)) :
    ∀ other q, ((acquire rule txn id).after s).lockTable other = some q → P other q := by
  apply acquire_invariant (P := fun next => ∀ other q, next.lockTable other = some q → P other q) each
  · simpa using each
  · exact each_setQueue each (grown_setQueue_table ..) (queue_of_each each empty)
  · intro q r mode group shared ix live late present found own
    exact each_setQueue each (grown_setQueue_table ..) (upgraded q r mode group shared ix live late present found own)
  · intro live late fresh free
    exact each_setQueue each (grown_setQueue_table s txn id _) (granted fresh free)

end Invariant

/-- The request is turned down: the transaction is past its growing phase, its own request may not
be raised, or the group mode is in the way. -/
def Refuses (rule : LockRule) (txn : TxnId) (id : LockDataId) (s : LockState) : Prop :=
  (s.txns txn).state.ended = false ∧ ((s.txns txn).state = .shrinking ∨
    match findRequest txn (s.queue id).requestQueue with
    | some r => rule.own (s.queue id) r.lockMode = .refuse
    | none => rule.conflicts (s.queue id).groupLockMode = true)

instance (rule : LockRule) (txn : TxnId) (id : LockDataId) (s : LockState) : Decidable (Refuses rule txn id s) := by
  unfold Refuses
  cases findRequest txn (s.queue id).requestQueue <;> infer_instance

theorem acquire_throws_iff (rule : LockRule) (txn : TxnId) (id : LockDataId) (s : LockState) :
    (∃ e, (acquire rule txn id s).1 = .error e) ↔ Refuses rule txn id s := by
  rw [acquire]
  simp only [bind_run,checkLock_run]
  by_cases isOver : (s.txns txn).state.ended = true
  · simp [Refuses,isOver]
  by_cases late : (s.txns txn).state = .shrinking
  · simp [Refuses,late,TransactionState.ended]
  cases found : findRequest txn (s.queue id).requestQueue with
  | some r => cases own : rule.own (s.queue id) r.lockMode <;> simp [Refuses,isOver,late,found,own,bind_run]
  | none => by_cases conflict : rule.conflicts (s.queue id).groupLockMode <;> simp [Refuses,isOver,late,found,conflict,bind_run]

/-! ### Upgrades and grants -/

theorem findRequest_split {requests : List LockRequest} {r : LockRequest} (found : findRequest txn requests = some r) :
    ∃ before after, requests = before ++ r :: after ∧ r.txnId = txn ∧
      (∀ a ∈ before, a.txnId ≠ txn) := by
  unfold findRequest at found
  obtain ⟨own,before,after,split,apart⟩ := List.find?_eq_some_iff_append.mp found
  refine ⟨before,after,split,by simpa using own,?_⟩
  intro a member
  simpa using apart a member

theorem setMode_split (txn : TxnId) (mode : LockMode) (before after : List LockRequest) (r : LockRequest)
    (own : r.txnId = txn) (apart : ∀ a ∈ before, a.txnId ≠ txn) :
    setMode txn mode (before ++ r :: after) = before ++ { r with lockMode := mode } :: after := by
  induction before with
  | nil => simp [setMode,own]
  | cons a rest ih =>
    have other : a.txnId ≠ txn := apart a (by simp)
    simp only [List.cons_append,setMode,other,↓reduceIte]
    rw [ih (fun b member => apart b (by simp [member]))]

theorem upgraded_split (found : findRequest txn q.requestQueue = some r) (mode : LockMode) (group : GroupLockMode)
    (shared ix : Int) : ∃ before after, q.requestQueue = before ++ r :: after ∧ r.txnId = txn ∧
      (q.upgraded txn mode group shared ix).requestQueue = before ++ { r with lockMode := mode } :: after := by
  obtain ⟨before,after,split,own,apart⟩ := findRequest_split found
  refine ⟨before,after,split,own,?_⟩
  rw [upgraded,split,setMode_split txn mode before after r own apart]

/-- What the invariant says about a request and the others in its queue. -/
structure Beside (q : LockRequestQueue) (r : LockRequest) (others : List LockRequest) : Prop where
  compatible : ∀ a ∈ others, compatible a.lockMode r.lockMode = true
  covered : ∀ a ∈ others, covers q.groupLockMode a.lockMode = true
  shared : (sharedCount others : Int) + (if countsShared r.lockMode then 1 else 0) ≤ q.sharedLockNum
  ix : (ixCount others : Int) + (if countsIX r.lockMode then 1 else 0) ≤ q.ixLockNum

theorem SoundQueue.beside {before after : List LockRequest} (sound : SoundQueue q)
    (split : q.requestQueue = before ++ r :: after) : Beside q r (before ++ after) := by
  have pairs := sound.pairwise
  have shared := sound.shared
  have ix := sound.ix
  rw [split,List.pairwise_append,List.pairwise_cons] at pairs
  rw [split] at shared ix
  refine ⟨?_,?_,?_,?_⟩
  · intro a member
    rcases List.mem_append.mp member with left | right
    · exact pairs.2.2 a left r (by simp)
    · rw [compatible_comm]
      exact pairs.2.1.1 a right
  · intro a member
    apply sound.covered
    rw [split]
    rcases List.mem_append.mp member with left | right <;> simp [*]
  · simp only [sharedCount,List.countP_append,List.countP_cons] at shared ⊢
    split <;> simp_all
    omega
  · simp only [ixCount,List.countP_append,List.countP_cons] at ix ⊢
    split <;> simp_all
    omega

variable {mode : LockMode} {group : GroupLockMode}

theorem upgraded_sound  (sound : SoundQueue q) (found : findRequest txn q.requestQueue = some r)
    (fits : ∀ others, others.length + 1 = q.requestQueue.length → Beside q r others →
      Beside ⟨[],group,q.sharedLockNum + shared,q.ixLockNum + ix⟩ ⟨txn,mode,r.granted⟩ others)
    (covered : covers group mode = true) :
    SoundQueue (q.upgraded txn mode group shared ix) := by
  obtain ⟨before,after,split,own,requests⟩ := upgraded_split found mode group shared ix
  have beside := fits (before ++ after) (by simp [split]; omega) (sound.beside split)
  have pairs := sound.pairwise
  rw [split,List.pairwise_append,List.pairwise_cons] at pairs
  rw [upgraded] at requests
  constructor
  · have single := sound.single
    rw [split] at single
    simpa [upgraded,requests] using single
  · simp only [upgraded,requests,List.pairwise_append,List.pairwise_cons]
    refine ⟨pairs.1,⟨?_,pairs.2.1.2⟩,?_⟩
    · intro a member
      rw [compatible_comm]
      exact beside.compatible a (by simp [member])
    · intro a left b right
      rcases List.mem_cons.mp right with rfl | right
      · exact beside.compatible a (by simp [left])
      · exact pairs.2.2 a left b (by simp [right])
  · intro a member
    simp only [upgraded,requests,List.mem_append,List.mem_cons] at member ⊢
    rcases member with left | rfl | right
    · exact beside.covered a (by simp [left])
    · exact covered
    · exact beside.covered a (by simp [right])
  · have bound := beside.shared
    simp only [upgraded,requests,sharedCount,List.countP_append,List.countP_cons] at bound ⊢
    split at bound <;> simp_all
    omega
  · have bound := beside.ix
    simp only [upgraded,requests,ixCount,List.countP_append,List.countP_cons] at bound ⊢
    split at bound <;> simp_all
    omega

/-- A rule that admits and upgrades only what the group mode and counters allow. -/
structure RuleSound (rule : LockRule) : Prop where
  upgrade : ∀ q r mode group shared ix, rule.own q r.lockMode = .upgrade mode group shared ix →
    covers group mode = true ∧
    ∀ txn others, others.length + 1 = q.requestQueue.length → Beside q r others →
      Beside ⟨[],group,q.sharedLockNum + shared,q.ixLockNum + ix⟩ ⟨txn,mode,r.granted⟩ others
  joins : ∀ g, rule.conflicts g = false → covers (rule.group g) rule.mode = true ∧
    ∀ m, covers g m = true → compatible m rule.mode = true ∧ covers (rule.group g) m = true
  shared : (if countsShared rule.mode then 1 else 0) ≤ rule.shared
  ix : (if countsIX rule.mode then 1 else 0) ≤ rule.ix
  fresh : rule.conflicts .nonLock = false

theorem granting_sound (sound : SoundQueue q) (ruleSound : RuleSound rule) (fresh : findRequest txn q.requestQueue = none)
    (free : rule.conflicts q.groupLockMode = false) :
    SoundQueue (q.granting txn rule) := by
  obtain ⟨own,others⟩ := ruleSound.joins _ free
  have absent : ∀ r ∈ q.requestQueue, r.txnId ≠ txn := by
    intro r member same
    have := List.find?_eq_none.mp fresh r member
    simp [same] at this
  constructor
  · simp only [granting,List.map_append,List.map_cons,List.map_nil]
    apply List.nodup_append.mpr
    refine ⟨sound.single,by simp,?_⟩
    intro t member u last
    obtain ⟨r,present,rfl⟩ := List.mem_map.mp member
    simp only [List.mem_singleton] at last
    subst u
    exact absent r present
  · simp only [granting,List.pairwise_append]
    refine ⟨sound.pairwise,by simp,?_⟩
    intro a member b last
    simp only [List.mem_singleton] at last
    subst b
    exact (others _ (sound.covered a member)).1
  · intro a member
    simp only [granting,List.mem_append,List.mem_singleton] at member ⊢
    rcases member with old | rfl
    · exact (others _ (sound.covered a old)).2
    · exact own
  · have bound := sound.shared
    have grown := ruleSound.shared
    simp only [granting,sharedCount,List.countP_append,List.countP_singleton] at bound ⊢
    split at grown <;> simp_all <;> omega
  · have bound := sound.ix
    have grown := ruleSound.ix
    simp only [granting,ixCount,List.countP_append,List.countP_singleton] at bound ⊢
    split at grown <;> simp_all <;> omega

/-! ### The six requests -/

theorem sharedOnRecord_sound : RuleSound sharedOnRecord where
  upgrade := by intro q r mode group shared ix own; simp [sharedOnRecord] at own
  joins := by
    intro g free
    refine ⟨rfl,fun m => ?_⟩
    cases g <;> cases m <;> simp_all [sharedOnRecord,writersOrIntents,covers,compatible]
  shared := by decide
  ix := by decide
  fresh := rfl

theorem beside_alone
    (weak : countsShared mode = false ∧ countsIX mode = false) (others : List LockRequest)
    (alone : others.length + 1 = 1) (beside : Beside q r others) :
    Beside ⟨[],.x,q.sharedLockNum + 0,q.ixLockNum + 0⟩ ⟨txn,mode,r.granted⟩ others := by
  have none : others = [] := List.length_eq_zero_iff.mp (by omega)
  subst others
  have shared := beside.shared
  have ix := beside.ix
  constructor <;> simp_all [sharedCount,ixCount]
  · split at shared <;> omega
  · split at ix <;> omega

theorem exclusiveOnRecord_upgrade {old : LockMode} (own : exclusiveOnRecord.own q old = .upgrade mode group shared ix) :
    mode = .exclusive := by
  simp only [exclusiveOnRecord] at own
  split_ifs at own
  exact (OwnDecision.upgrade.inj own).1.symm

theorem exclusiveOnRecord_sound : RuleSound exclusiveOnRecord where
  upgrade := by
    intro q r mode group shared ix own
    simp only [exclusiveOnRecord] at own
    split at own
    · contradiction
    · split at own
      · rename_i alone
        cases own
        refine ⟨rfl,fun txn others size beside => ?_⟩
        exact beside_alone ⟨rfl,rfl⟩ others (by rw [size,alone.2]) beside
      · contradiction
  joins := by
    intro g free
    refine ⟨rfl,fun m => ?_⟩
    cases g <;> simp_all [exclusiveOnRecord,covers]
  shared := by decide
  ix := by decide
  fresh := rfl

theorem Beside.no_other_shared (beside : Beside q r others) (counts : countsShared r.lockMode = true)
    (one : q.sharedLockNum = 1) :
    sharedCount others = 0 := by
  have bound := beside.shared
  simp only [counts,one,↓reduceIte] at bound
  omega

theorem Beside.no_other_ix (beside : Beside q r others) (counts : countsIX r.lockMode = true) (one : q.ixLockNum = 1) :
    ixCount others = 0 := by
  have bound := beside.ix
  simp only [counts,one,↓reduceIte] at bound
  omega

theorem Beside.only_is (beside : Beside q r others) (sole : (r.lockMode = .shared ∧ q.sharedLockNum = 1) ∨
      (r.lockMode = .intentionExclusive ∧ q.ixLockNum = 1)) :
    ∀ a ∈ others, a.lockMode = .intentionShared := by
  intro a member
  have fits := beside.compatible a member
  rcases sole with ⟨mode,one⟩ | ⟨mode,one⟩
  · have none := beside.no_other_shared (by simp [mode,countsShared]) one
    have not := List.countP_eq_zero.mp none a member
    rw [mode] at fits
    cases eq : a.lockMode <;> simp_all [LockManager.compatible,countsShared]
  · have none := beside.no_other_ix (by simp [mode,countsIX]) one
    have not := List.countP_eq_zero.mp none a member
    rw [mode] at fits
    cases eq : a.lockMode <;> simp_all [LockManager.compatible,countsIX]

/-- Both upgrades to SIX: the request counts in both counters afterwards. -/
theorem beside_six (others : List LockRequest) (beside : Beside q r others)
    (sole : (r.lockMode = .shared ∧ q.sharedLockNum = 1 ∧ shared = 0 ∧ ix = 1) ∨
      (r.lockMode = .intentionExclusive ∧ q.ixLockNum = 1 ∧ shared = 1 ∧ ix = 0)) :
    Beside ⟨[],.six,q.sharedLockNum + shared,q.ixLockNum + ix⟩ ⟨txn,.sIX,r.granted⟩ others := by
  have weak := beside.only_is (by rcases sole with h | h <;> simp [h])
  have sharedBound := beside.shared
  have ixBound := beside.ix
  constructor
  · intro a member; simp [weak a member,compatible]
  · intro a member; simp [weak a member,covers]
  · rcases sole with ⟨mode,_,rfl,rfl⟩ | ⟨mode,_,rfl,rfl⟩ <;>
      simp_all [countsShared,countsIX]
  · rcases sole with ⟨mode,_,rfl,rfl⟩ | ⟨mode,_,rfl,rfl⟩ <;>
      simp_all [countsShared,countsIX]

theorem beside_raised  (others : List LockRequest) (beside : Beside q r others) (weak : r.lockMode = .intentionShared)
    (fits : ∀ m, covers q.groupLockMode m = true → compatible m mode = true ∧ covers group m = true)
    (sharedStep : (if countsShared mode then 1 else 0) ≤ shared) (ixStep : (if countsIX mode then 1 else 0) ≤ ix) :
    Beside ⟨[],group,q.sharedLockNum + shared,q.ixLockNum + ix⟩ ⟨txn,mode,r.granted⟩ others := by
  have sharedBound := beside.shared
  have ixBound := beside.ix
  simp only [weak,countsShared,countsIX,Bool.false_eq_true,↓reduceIte] at sharedBound ixBound
  constructor
  · intro a member; exact (fits _ (beside.covered a member)).1
  · intro a member; exact (fits _ (beside.covered a member)).2
  · dsimp only; omega
  · dsimp only; omega

theorem sharedOnTable_sound : RuleSound sharedOnTable where
  upgrade := by
    intro q r mode group shared ix own
    simp only [sharedOnTable] at own
    split at own
    · contradiction
    split at own
    · rename_i weak
      cases own
      refine ⟨rfl,fun txn others _ beside => ?_⟩
      refine beside_raised others beside weak.1 ?_ (by decide) (by decide)
      intro m covered
      rcases weak.2 with g | g <;> rw [g] at covered <;> cases m <;>
        simp_all [covers,compatible]
    split at own
    · rename_i sole
      cases own
      refine ⟨rfl,fun txn others _ beside => ?_⟩
      exact beside_six others beside (.inr ⟨sole.1,sole.2,rfl,rfl⟩)
    · contradiction
  joins := by
    intro g free
    refine ⟨rfl,fun m => ?_⟩
    cases g <;> cases m <;> simp_all [sharedOnTable,writersOrIntents,covers,compatible]
  shared := by decide
  ix := by decide
  fresh := rfl

theorem exclusiveOnTable_sound : RuleSound exclusiveOnTable where
  upgrade := by
    intro q r mode group shared ix own
    simp only [exclusiveOnTable] at own
    split at own
    · contradiction
    split at own
    · rename_i alone
      cases own
      refine ⟨rfl,fun txn others size beside => ?_⟩
      exact beside_alone ⟨rfl,rfl⟩ others (by rw [size,alone]) beside
    · contradiction
  joins := by
    intro g free
    refine ⟨rfl,fun m => ?_⟩
    cases g <;> simp_all [exclusiveOnTable,covers]
  shared := by decide
  ix := by decide
  fresh := rfl

theorem isOnTable_sound : RuleSound isOnTable where
  upgrade := by intro q r mode group shared ix own; simp [isOnTable] at own
  joins := by
    intro g free
    refine ⟨by cases g <;> simp_all [isOnTable,covers],fun m => ?_⟩
    cases g <;> cases m <;> simp_all [isOnTable,covers,compatible]
  shared := by decide
  ix := by decide
  fresh := rfl

theorem ixOnTable_sound : RuleSound ixOnTable where
  upgrade := by
    intro q r mode group shared ix own
    simp only [ixOnTable] at own
    split at own
    · contradiction
    split at own
    · rename_i sole
      cases own
      refine ⟨rfl,fun txn others _ beside => ?_⟩
      exact beside_six others beside (.inl ⟨sole.1,sole.2,rfl,rfl⟩)
    split at own
    · rename_i weak
      cases own
      refine ⟨rfl,fun txn others _ beside => ?_⟩
      refine beside_raised others beside weak.1 ?_ (by decide) (by decide)
      intro m covered
      rcases weak.2 with g | g <;> rw [g] at covered <;> cases m <;>
        simp_all [covers,compatible]
    · contradiction
  joins := by
    intro g free
    refine ⟨rfl,fun m => ?_⟩
    cases g <;> cases m <;> simp_all [ixOnTable,covers,compatible]
  shared := by decide
  ix := by decide
  fresh := rfl

theorem acquire_sound (ruleSound : RuleSound rule) (txn : TxnId) (id : LockDataId) (s : LockState) (sound : Sound s) :
    Sound ((acquire rule txn id).after s) := by
  refine acquire_each (P := fun _ => SoundQueue) sound empty_sound ?_ (granting_sound (sound.queue id) ruleSound)
  intro q r mode group shared ix _ _ present found own
  obtain ⟨covered,fits⟩ := ruleSound.upgrade _ _ _ _ _ _ own
  exact upgraded_sound (sound id q present) found (fits txn) covered

/-! ### Release -/

theorem foldl_max_le (requests : List LockRequest) (start : Nat) :
    start ≤ requests.foldl (fun m r => max m r.lockMode.code) start ∧
    ∀ r ∈ requests, r.lockMode.code ≤ requests.foldl (fun m r => max m r.lockMode.code) start := by
  induction requests generalizing start with
  | nil => simp
  | cons r rest ih =>
    obtain ⟨lower,each⟩ := ih (max start r.lockMode.code)
    simp only [List.foldl_cons,List.mem_cons,forall_eq_or_imp]
    exact ⟨by omega,by omega,each⟩

theorem recomputed_covers (requests : List LockRequest) (noX : ∀ r ∈ requests, r.lockMode ≠ .exclusive) :
    ∀ r ∈ requests, covers (recomputedMode requests) r.lockMode = true := by
  intro r member
  obtain ⟨lower,each⟩ := foldl_max_le requests LockMode.intentionShared.code
  have mine := each r member
  have notX := noX r member
  have some : requests.isEmpty = false := by
    cases requests with
    | nil => simp at member
    | cons => rfl
  unfold recomputedMode
  simp only [some,Bool.false_eq_true,↓reduceIte]
  generalize requests.foldl (fun m r => max m r.lockMode.code) LockMode.intentionShared.code = top
    at lower mine
  have cases : top = 2 ∨ top = 3 ∨ 4 ≤ top := by simp [LockMode.code] at lower; omega
  rcases cases with rfl | rfl | big
  · cases mode : r.lockMode <;> simp_all [LockMode.code,GroupLockMode.ofCode,covers]
  · simp [GroupLockMode.ofCode,covers]
  · have six : GroupLockMode.ofCode (top + 1) = .six := by
      unfold GroupLockMode.ofCode
      split <;> first | omega | rfl
    simp [six,covers,notX]

theorem eraseP_split (txn : TxnId) (before after : List LockRequest) (r : LockRequest) (own : r.txnId = txn)
    (apart : ∀ a ∈ before, a.txnId ≠ txn) :
    (before ++ r :: after).eraseP (fun a => a.txnId = txn) = before ++ after := by
  rw [List.eraseP_append_right _ (by simpa using apart)]
  simp [own]

theorem released_sound (sound : SoundQueue q) (found : findRequest txn q.requestQueue = some r) :
    SoundQueue (q.released txn r.lockMode) := by
  obtain ⟨before,after,split,own,apart⟩ := findRequest_split found
  have beside := sound.beside split
  have rest : q.requestQueue.eraseP (fun a => a.txnId = txn) = before ++ after := by
    rw [split]; exact eraseP_split txn before after r own apart
  have sub : (before ++ after).Sublist q.requestQueue := by
    rw [split]
    exact List.Sublist.append_left (List.sublist_cons_self r after) before
  -- X is compatible with nothing, so no other request has it
  have noX : ∀ a ∈ before ++ after, a.lockMode ≠ .exclusive := by
    intro a member isX
    have fits := beside.compatible a member
    rw [isX] at fits
    cases mode : r.lockMode <;> simp [mode,compatible] at fits
  constructor
  · simp only [released,rest]
    exact sound.single.sublist (sub.map _)
  · simp only [released,rest]
    exact sound.pairwise.sublist sub
  · simp only [released,rest]
    exact recomputed_covers _ noX
  · simp only [released,rest]
    exact Int.le_sub_right_of_add_le beside.shared
  · simp only [released,rest]
    exact Int.le_sub_right_of_add_le beside.ix

/-- Everything a release can do. `moved` differs from `s` in the transaction's state. -/
theorem unlock_outcome (txn : TxnId) (id : LockDataId) (s : LockState) :
    ((s.txns txn).state.ended = true ∧ unlock txn id s = (.ok false, s)) ∨
    (s.txns txn).state.ended = false ∧ ∃ moved : LockState, moved.lockTable = s.lockTable ∧
      (∀ other, (moved.txns other).lockSet = (s.txns other).lockSet) ∧
      ((unlock txn id s = (.ok true, moved) ∧
          ∀ q, s.lockTable id = some q → findRequest txn q.requestQueue = none) ∨
        ∃ q r, s.lockTable id = some q ∧ findRequest txn q.requestQueue = some r ∧
          unlock txn id s = (.ok true, moved.setQueue id (q.released txn r.lockMode))) := by
  by_cases isOver : (s.txns txn).state.ended = true
  · exact .inl ⟨isOver,by simp [unlock,bind_run,isOver]⟩
  right
  let moved := if (s.txns txn).state = .growing then s.setTxnState txn .shrinking else s
  have table : moved.lockTable = s.lockTable := by
    by_cases growing : (s.txns txn).state = .growing <;> simp [moved,growing,setTxnState]
  have sets : ∀ other, (moved.txns other).lockSet = (s.txns other).lockSet := by
    intro other
    by_cases growing : (s.txns txn).state = .growing
    · by_cases same : other = txn
      · subst other; simp [moved,growing,setTxnState]
      · simp [moved,growing,setTxnState,same]
    · simp [moved,growing]
  have run : unlock txn id s = eraseRequest txn id moved := by
    by_cases growing : (s.txns txn).state = .growing
    · simp [unlock,bind_run,moved,growing,TransactionState.ended]
    · simp [unlock,bind_run,isOver,moved,growing]
  refine ⟨Bool.eq_false_iff.mpr isOver,moved,table,sets,?_⟩
  rw [run]
  cases present : s.lockTable id with
  | none =>
    left
    simp [eraseRequest,bind_run,table,present]
  | some q =>
    cases found : findRequest txn q.requestQueue with
    | none =>
      left
      simp [eraseRequest,bind_run,table,present,found]
    | some r =>
      right
      exact ⟨q,r,rfl,found,by simp [eraseRequest,bind_run,table,present,found]⟩

theorem unlock_each {s : LockState} {id : LockDataId} {P : LockDataId → LockRequestQueue → Prop}
    (each : ∀ id q, s.lockTable id = some q → P id q)
    (released : (s.txns txn).state.ended = false → ∀ q r, s.lockTable id = some q → findRequest txn q.requestQueue = some r →
      P id (q.released txn r.lockMode)) :
    ∀ other q, ((unlock txn id).after s).lockTable other = some q → P other q := by
  rcases unlock_outcome txn id s with ⟨_,run⟩ | ⟨live,moved,table,_,⟨run,_⟩ | ⟨q,r,present,found,run⟩⟩
  · simpa [after,run] using each
  · simpa [after,run,table] using each
  · refine each_setQueue each ?_ (released live q r present found)
    simp [after,run,setQueue,table]

theorem unlock_sound (txn : TxnId) (id : LockDataId) (s : LockState) (sound : Sound s) : Sound ((unlock txn id).after s) :=
  unlock_each (P := fun _ => SoundQueue) sound fun _ q _ present found => released_sound (sound id q present) found

theorem step_sound (s : LockState) (call : LockCall) (sound : Sound s) : Sound (step s call) := by
  cases call with
  | sharedOnRecord => exact acquire_sound sharedOnRecord_sound _ _ s sound
  | exclusiveOnRecord => exact acquire_sound exclusiveOnRecord_sound _ _ s sound
  | sharedOnTable => exact acquire_sound sharedOnTable_sound _ _ s sound
  | exclusiveOnTable => exact acquire_sound exclusiveOnTable_sound _ _ s sound
  | isOnTable => exact acquire_sound isOnTable_sound _ _ s sound
  | ixOnTable => exact acquire_sound ixOnTable_sound _ _ s sound
  | unlock => exact unlock_sound _ _ s sound

theorem run_sound (txns : TxnId → Transaction) (calls : List LockCall) :
    Sound (calls.foldl step (start txns)) := by
  refine run_invariant Sound step_sound _ ?_ calls
  intro id q present
  simp [start] at present

/-! ### Refusals -/

/-- A refused request leaves every queue and every lock set as it was. A queue is only
default constructed by a request that the empty queue then admits. -/
theorem acquire_error (ruleSound : RuleSound rule) (txn : TxnId) (id : LockDataId) (s : LockState)
    (e : TransactionAbortException) (thrown : (acquire rule txn id s).1 = .error e) :
    (acquire rule txn id s).2.lockTable = s.lockTable ∧
    ∀ other, ((acquire rule txn id s).2.txns other).lockSet = (s.txns other).lockSet := by
  have outcome := acquire_outcome rule txn id s
  generalize (acquire rule txn id s).1 = result at outcome thrown
  generalize (acquire rule txn id s).2 = next at outcome
  subst thrown
  cases outcome with
  | shrinking => exact ⟨rfl,fun _ => rfl⟩
  | refused => simp
  | blocked fresh conflict =>
    refine ⟨?_,by simp⟩
    cases present : s.lockTable id with
    | none => simp [queue,present,ruleSound.fresh] at conflict
    | some q =>
      have same : s.queue id = q := by simp [queue,present]
      rw [same,setQueue_self _ _ _ (by simpa using present)]
      simp

theorem call_error (call : LockCall) (s : LockState) (e : TransactionAbortException)
    (thrown : (call.run s).1 = .error e) :
    (call.run s).2.lockTable = s.lockTable ∧
    ∀ other, ((call.run s).2.txns other).lockSet = (s.txns other).lockSet := by
  cases call with
  | sharedOnRecord => exact acquire_error sharedOnRecord_sound _ _ s e thrown
  | exclusiveOnRecord => exact acquire_error exclusiveOnRecord_sound _ _ s e thrown
  | sharedOnTable => exact acquire_error sharedOnTable_sound _ _ s e thrown
  | exclusiveOnTable => exact acquire_error exclusiveOnTable_sound _ _ s e thrown
  | isOnTable => exact acquire_error isOnTable_sound _ _ s e thrown
  | ixOnTable => exact acquire_error ixOnTable_sound _ _ s e thrown
  | unlock txn id =>
    simp only [LockCall.run] at thrown
    rcases unlock_outcome txn id s with ⟨_,run⟩ | ⟨_,_,_,_,⟨run,_⟩ | ⟨_,_,_,_,run⟩⟩ <;>
      simp [run] at thrown

/-- Compatibility over every run: one request per transaction in each queue, compatible
modes for different transactions, and no effect of a refused call on queues, group
modes, counters and lock sets. -/
theorem locks_compatible (txns : TxnId → Transaction) (calls : List LockCall) :
    let s := calls.foldl step (start txns)
    (∀ id q, s.lockTable id = some q →
      (q.requestQueue.map LockRequest.txnId).Nodup ∧
      ∀ a ∈ q.requestQueue, ∀ b ∈ q.requestQueue, a.txnId ≠ b.txnId →
        compatible a.lockMode b.lockMode = true) ∧
    ∀ call e, (LockCall.run call s).1 = .error e →
      (LockCall.run call s).2.lockTable = s.lockTable ∧
      ∀ txn, ((LockCall.run call s).2.txns txn).lockSet = (s.txns txn).lockSet := by
  refine ⟨?_,fun call e thrown => call_error call _ e thrown⟩
  intro id q present
  have sound := run_sound txns calls id q present
  refine ⟨sound.single,fun a first b second apart => ?_⟩
  have symm : Std.Symm (fun a b : LockRequest => compatible a.lockMode b.lockMode = true) :=
    ⟨fun a b fits => by rwa [compatible_comm]⟩
  exact sound.pairwise.forall first second (fun same => apart (by rw [same]))

end Rucbase.LockManager
