import Rucbase.LockCompat

/-! The two counters of a queue. Every grant, upgrade and release adjusts them by hand; the upgrade
to X leaves them as the old mode had set them. -/
namespace Rucbase.LockManager

open Lib Lib.Prog LockRequestQueue

def counts (b : Bool) : Int := if b then 1 else 0

theorem sharedCount_split (before after : List LockRequest) (r : LockRequest) :
    (sharedCount (before ++ r :: after) : Int) =
      sharedCount before + sharedCount after + counts (countsShared r.lockMode) := by
  simp only [sharedCount,List.countP_append,List.countP_cons,counts]
  split <;> simp
  omega

theorem ixCount_split (before after : List LockRequest) (r : LockRequest) :
    (ixCount (before ++ r :: after) : Int) =
      ixCount before + ixCount after + counts (countsIX r.lockMode) := by
  simp only [ixCount,List.countP_append,List.countP_cons,counts]
  split <;> simp
  omega

/-- The counters are the numbers of requests in the modes they stand for. -/
structure Counted (q : LockRequestQueue) : Prop where
  shared : q.sharedLockNum = sharedCount q.requestQueue
  ix : q.ixLockNum = ixCount q.requestQueue

variable {group : GroupLockMode} {ix shared : Int} {mode : LockMode}

section Queue

variable {q : LockRequestQueue} {txn : TxnId} {r : LockRequest}

/-- An upgrade keeps the counters exact if and only if it adds the difference of the two modes. -/
theorem upgraded_counted_iff (counted : Counted q) (found : findRequest txn q.requestQueue = some r) :
    Counted (q.upgraded txn mode group shared ix) ↔
      counts (countsShared mode) = counts (countsShared r.lockMode) + shared ∧
      counts (countsIX mode) = counts (countsIX r.lockMode) + ix := by
  obtain ⟨before,after,split,mine,apart⟩ := findRequest_split found
  have requests : setMode txn mode q.requestQueue = before ++ { r with lockMode := mode } :: after := by
    rw [split,setMode_split txn mode before after r mine apart]
  have sharedNum := counted.shared
  have ixNum := counted.ix
  rw [split,sharedCount_split] at sharedNum
  rw [split,ixCount_split] at ixNum
  have both : Counted (q.upgraded txn mode group shared ix) ↔
      q.sharedLockNum + shared = sharedCount (before ++ { r with lockMode := mode } :: after) ∧
      q.ixLockNum + ix = ixCount (before ++ { r with lockMode := mode } :: after) := by
    rw [← requests]
    exact ⟨fun counted => ⟨counted.shared,counted.ix⟩,fun ⟨shared,ix⟩ => ⟨shared,ix⟩⟩
  rw [both,sharedCount_split,ixCount_split]
  dsimp only
  omega

theorem granting_counted {rule : LockRule} (counted : Counted q) (txn : TxnId)
    (shared : rule.shared = counts (countsShared rule.mode)) (ix : rule.ix = counts (countsIX rule.mode)) :
    Counted (q.granting txn rule) := by
  have sharedNum := counted.shared
  have ixNum := counted.ix
  constructor
  · simp only [granting]
    rw [sharedCount_split]
    simp only [sharedCount,List.countP_nil] at sharedNum ⊢
    omega
  · simp only [granting]
    rw [ixCount_split]
    simp only [ixCount,List.countP_nil] at ixNum ⊢
    omega

theorem released_counted (counted : Counted q) (found : findRequest txn q.requestQueue = some r) :
    Counted (q.released txn r.lockMode) := by
  obtain ⟨before,after,split,own,apart⟩ := findRequest_split found
  have rest : q.requestQueue.eraseP (fun a => a.txnId = txn) = before ++ after := by
    rw [split]; exact eraseP_split txn before after r own apart
  have sharedNum := counted.shared
  have ixNum := counted.ix
  rw [split,sharedCount_split] at sharedNum
  rw [split,ixCount_split] at ixNum
  constructor
  · simp only [released,rest,counts] at sharedNum ⊢
    simp only [sharedCount,List.countP_append] at sharedNum ⊢
    omega
  · simp only [released,rest,counts] at ixNum ⊢
    simp only [ixCount,List.countP_append] at ixNum ⊢
    omega

end Queue

/-- Upgrades adjust the counters by the difference between the two modes; the upgrade to
X does so only for a request that counted in neither. -/
def Balanced (rule : LockRule) (q : LockRequestQueue) (r : LockRequest) : Prop :=
  ∀ mode group shared ix, rule.own q r.lockMode = .upgrade mode group shared ix →
    counts (countsShared mode) = counts (countsShared r.lockMode) + shared ∧
    counts (countsIX mode) = counts (countsIX r.lockMode) + ix

theorem sharedOnTable_balanced (q : LockRequestQueue) (r : LockRequest) :
    Balanced sharedOnTable q r := by
  intro mode group shared ix own
  simp only [sharedOnTable] at own
  split at own
  · contradiction
  split at own
  · rename_i weak
    cases own
    simp [weak.1,counts,countsShared,countsIX]
  split at own
  · rename_i sole
    cases own
    simp [sole.1,counts,countsShared,countsIX]
  · contradiction

theorem ixOnTable_balanced (q : LockRequestQueue) (r : LockRequest) : Balanced ixOnTable q r := by
  intro mode group shared ix own
  simp only [ixOnTable] at own
  split at own
  · contradiction
  split at own
  · rename_i sole
    cases own
    simp [sole.1,counts,countsShared,countsIX]
  split at own
  · rename_i weak
    cases own
    simp [weak.1,counts,countsShared,countsIX]
  · contradiction

theorem exclusiveOnTable_balanced (q : LockRequestQueue) (r : LockRequest)
    (weak : q.requestQueue.length = 1 → r.lockMode = .intentionShared ∨ r.lockMode = .exclusive) :
    Balanced exclusiveOnTable q r := by
  intro mode group shared ix own
  simp only [exclusiveOnTable] at own
  split at own
  · contradiction
  rename_i notX
  split at own
  · rename_i alone
    cases own
    rcases weak alone with is | x
    · simp [is,counts,countsShared,countsIX]
    · exact absurd x notX
  · contradiction

/-- The transaction may still take locks. -/
def Active (s : LockState) (txn : TxnId) : Prop := (s.txns txn).state.ended = false ∧ (s.txns txn).state ≠ .shrinking

/-- The request returns true and leaves the transaction with mode SIX. -/
def Raises (s : LockState) (txn : TxnId) (fd : Int) (call : Call) : Prop :=
  ∃ next q r, call s = (.ok true,next) ∧ next.lockTable (.ofTable fd) = some q ∧
    findRequest txn q.requestQueue = some r ∧ r.lockMode = .sIX

/-- Every table queue has exact counters, and the only reader and the only writer of a table, beside
holders of IS, may become both. -/
structure CountersExact (s : LockState) : Prop where
  counted : ∀ id q, id.type = .table → s.lockTable id = some q → Counted q
  reader : ∀ txn fd q r, Active s txn → s.lockTable (.ofTable fd) = some q → findRequest txn q.requestQueue = some r →
    r.lockMode = .shared → (∀ a ∈ q.requestQueue, a.txnId ≠ txn → countsShared a.lockMode = false) →
    Raises s txn fd (lockIXOnTable txn fd)
  writer : ∀ txn fd q r, Active s txn → s.lockTable (.ofTable fd) = some q → findRequest txn q.requestQueue = some r →
    r.lockMode = .intentionExclusive → (∀ a ∈ q.requestQueue, a.txnId ≠ txn → a.lockMode = .intentionShared) →
    Raises s txn fd (lockSharedOnTable txn fd)

/-- No transaction that is alone on a table in mode S, IX or SIX asks for X. -/
def KeepsCounters (s : LockState) : LockCall → Prop
  | .exclusiveOnTable txn fd => Active s txn → ∀ q r, s.lockTable (.ofTable fd) = some q →
      findRequest txn q.requestQueue = some r → q.requestQueue.length = 1 →
        r.lockMode = .intentionShared ∨ r.lockMode = .exclusive
  | _ => True

def TablesCounted (s : LockState) : Prop := ∀ id q, id.type = .table → s.lockTable id = some q → Counted q

section Step

variable {s next : LockState} {id : LockDataId} {txn : TxnId} {q : LockRequestQueue} {r : LockRequest} {rule : LockRule}

theorem TablesCounted.each (counted : TablesCounted s) (id : LockDataId) (q : LockRequestQueue)
    (present : s.lockTable id = some q) (table : id.type = .table) : Counted q := counted id q table present

theorem acquire_upgrades (active : Active s txn) (present : s.lockTable id = some q)
    (found : findRequest txn q.requestQueue = some r) (own : rule.own q r.lockMode = .upgrade mode group shared ix) :
    acquire rule txn id s = (.ok true,(s.grown txn).setQueue id (q.upgraded txn mode group shared ix)) := by
  have queue : s.queue id = q := by rw [LockState.queue,present]; rfl
  have same : (s.grown txn).setQueue id q = s.grown txn := setQueue_self _ _ _ (by simpa using present)
  have granted : checkLock txn s = (.ok true,s.grown txn) := by
    rw [checkLock_run,if_neg (by simp [active.1]),if_neg active.2]
  rw [acquire,bind_ok granted]
  simp [bind_run,queue,same,found,own]

/-- How a rule counts on tables: grants add what the mode counts for, upgrades the difference. -/
structure RuleCounts (rule : LockRule) (s : LockState) (txn : TxnId) (id : LockDataId) : Prop where
  shared : rule.shared = counts (countsShared rule.mode)
  ix : rule.ix = counts (countsIX rule.mode)
  balanced : Active s txn → ∀ q r, s.lockTable id = some q → findRequest txn q.requestQueue = some r → Balanced rule q r

theorem acquire_counted (counted : TablesCounted s) (rules : id.type = .table → RuleCounts rule s txn id) :
    TablesCounted ((acquire rule txn id).after s) := by
  intro other p table present
  have empty : id.type = .table → Counted {} := fun _ => ⟨rfl,rfl⟩
  refine acquire_each (P := fun id q => id.type = .table → Counted q) counted.each empty ?_ ?_ other p present table
  · intro q r mode group shared ix live late present found own table
    exact (upgraded_counted_iff (counted id q table present) found).mpr
      ((rules table).balanced ⟨live,late⟩ _ _ present found _ _ _ _ own)
  · intro _ _ table
    exact granting_counted (queue_of_each counted.each empty table) txn (rules table).shared (rules table).ix

theorem unlock_counted (counted : TablesCounted s) : TablesCounted ((unlock txn id).after s) := fun other p table present =>
  unlock_each (P := fun id q => id.type = .table → Counted q) counted.each
    (fun _ q _ present found table => released_counted (counted id q table present) found) other p present table

theorem step_counted (counted : TablesCounted s) (call : LockCall) (keeps : KeepsCounters s call) :
    TablesCounted (step s call) := by
  cases call with
  | sharedOnRecord txn rid fd => exact acquire_counted counted nofun
  | exclusiveOnRecord txn rid fd => exact acquire_counted counted nofun
  | sharedOnTable txn fd => exact acquire_counted counted fun _ => ⟨rfl,rfl,fun _ q r _ _ => sharedOnTable_balanced q r⟩
  | exclusiveOnTable txn fd =>
    exact acquire_counted counted fun _ => ⟨rfl,rfl,fun active q r present found =>
      exclusiveOnTable_balanced q r (keeps active q r present found)⟩
  | isOnTable txn fd =>
    exact acquire_counted counted fun _ => ⟨rfl,rfl,fun _ _ _ _ _ _ _ _ _ own => by simp [isOnTable] at own⟩
  | ixOnTable txn fd => exact acquire_counted counted fun _ => ⟨rfl,rfl,fun _ q r _ _ => ixOnTable_balanced q r⟩
  | unlock txn id => exact unlock_counted counted

theorem counted_keeps (counted : TablesCounted s) (call : LockCall) (after : TablesCounted (step s call)) :
    KeepsCounters s call := by
  cases call with
  | exclusiveOnTable txn fd =>
    intro active q r present found alone
    by_cases exclusive : r.lockMode = .exclusive
    · exact .inr exclusive
    have own : exclusiveOnTable.own q r.lockMode = .upgrade .exclusive .x 0 0 := by simp [exclusiveOnTable,exclusive,alone]
    have run := acquire_upgrades active present found own
    have upgraded : Counted (q.upgraded txn .exclusive .x 0 0) := by
      refine after (.ofTable fd) _ rfl ?_
      rw [step,LockCall.run,lockExclusiveOnTable,Prog.after,run]
      simp
    have change := (upgraded_counted_iff (counted _ q rfl present) found).mp upgraded
    left
    revert change exclusive
    cases r.lockMode <;> simp [counts,countsShared,countsIX]
  | _ => trivial

theorem upgraded_mode (found : findRequest txn q.requestQueue = some r) :
    findRequest txn (q.upgraded txn mode group shared ix).requestQueue = some { r with lockMode := mode } := by
  obtain ⟨before,after,split,mine,apart⟩ := findRequest_split found
  rw [upgraded,split,setMode_split txn mode before after r mine apart,findRequest,
    List.find?_append,List.find?_eq_none.mpr (fun a member => by simpa using apart a member)]
  simp [mine]

theorem raises {fd : Int} (active : Active s txn) (present : s.lockTable (.ofTable fd) = some q)
    (found : findRequest txn q.requestQueue = some r) (own : rule.own q r.lockMode = .upgrade .sIX group shared ix) :
    Raises s txn fd (acquire rule txn (.ofTable fd)) :=
  ⟨_,_,_,acquire_upgrades active present found own,setQueue_same ..,upgraded_mode found,rfl⟩

theorem count_one {p : LockMode → Bool} (sound : SoundQueue q) (found : findRequest txn q.requestQueue = some r)
    (counts : p r.lockMode = true) (others : ∀ a ∈ q.requestQueue, a.txnId ≠ txn → p a.lockMode = false) :
    q.requestQueue.countP (fun a => p a.lockMode) = 1 := by
  obtain ⟨before,after,split,mine,apart⟩ := findRequest_split found
  have single := sound.single
  rw [split] at single others ⊢
  have left : before.countP (fun a => p a.lockMode) = 0 := List.countP_eq_zero.mpr fun a member => by
    simp [others a (by simp [member]) (apart a member)]
  have right : after.countP (fun a => p a.lockMode) = 0 := List.countP_eq_zero.mpr fun a member => by
    have other : a.txnId ≠ txn := by
      rintro rfl
      simp only [List.map_append,List.map_cons,List.nodup_append,List.nodup_cons] at single
      exact single.2.1.1 (mine ▸ List.mem_map_of_mem member)
    simp [others a (by simp [member]) other]
  rw [List.countP_append,List.countP_cons,left,right,if_pos counts]

theorem TablesCounted.exact (counted : TablesCounted s) (sound : Sound s) : CountersExact s where
  counted := counted
  reader txn fd q r active present found shared others := by
    have one : q.sharedLockNum = 1 := by
      rw [(counted _ q rfl present).shared,sharedCount,count_one (sound _ q present) found (by simp [shared,countsShared]) others]
      rfl
    exact raises active present found (by simp [ixOnTable,shared,one] : ixOnTable.own q r.lockMode = .upgrade .sIX .six 0 1)
  writer txn fd q r active present found writes others := by
    have one : q.ixLockNum = 1 := by
      rw [(counted _ q rfl present).ix,ixCount,count_one (sound _ q present) found (by simp [writes,countsIX])
        fun a member other => by simp [others a member other,countsIX]]
      rfl
    exact raises active present found (by simp [sharedOnTable,writes,one] : sharedOnTable.own q r.lockMode = .upgrade .sIX .six 1 0)

end Step

/-- The counters are exact in every state of a run if and only if no transaction that is alone on a
table in mode S, IX or SIX asks for X. -/
theorem counters_exact_iff (txns : TxnId → Transaction) (calls : List LockCall) :
    (∀ before after, calls = before ++ after → CountersExact (before.foldl step (start txns))) ↔
      Guarded step KeepsCounters (start txns) calls := by
  refine (guarded_iff Sound CountersExact step_sound (fun s call sound counters => ?_) _ (run_sound txns []) ?_ calls).symm
  · refine ⟨fun keeps => ?_,fun after => counted_keeps counters.counted call after.counted⟩
    exact (step_counted counters.counted call keeps).exact (step_sound s call sound)
  · refine TablesCounted.exact (fun id q _ present => ?_) (run_sound txns [])
    cases present

/-- A reader alone on a table becomes its writer and leaves; another one reads it. -/
def readerWrites : List LockCall :=
  [.sharedOnTable 1 7,.exclusiveOnTable 1 7,.unlock 1 (.ofTable 7),.sharedOnTable 2 7]

/-- The second reader, alone on the table, is counted as two: it may not become SIX. -/
theorem reader_counted_twice : ¬ CountersExact (readerWrites.foldl step (start fun _ => {})) := by
  intro exactly
  obtain ⟨next,_,_,raised,_⟩ := exactly.reader 2 7 ⟨[⟨2,.shared,true⟩],.s,2,0⟩ ⟨2,.shared,true⟩ ⟨by decide,by decide⟩ (by decide)
    (by decide) rfl (by decide)
  have refused : (lockIXOnTable 2 7 (readerWrites.foldl step (start fun _ => {}))).1 = .error ⟨2,.deadlockPrevention⟩ := by decide
  rw [raised] at refused
  cases refused

end Rucbase.LockManager
