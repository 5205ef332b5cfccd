import Rucbase.LockCounters

/-! When the group mode is exact. `unlock` reads the largest `LockMode` number plus one as
a `GroupLockMode`, and the two enumerations are ordered differently: IS becomes S and IX
becomes X. An upgrade to X leaves the counters of the old mode behind. In a run without
these two steps the group mode is the strongest mode held and every refusal has a real
conflict as its reason. -/
namespace Rucbase.LockManager

open Lib Lib.Prog LockRequestQueue LockMode

/-- IS < IX, S < SIX < X. -/
def modeLe : LockMode → LockMode → Bool
  | .intentionShared, _ | _, .exclusive => true
  | .exclusive, _ => false
  | _, .sIX => true
  | a, b => a == b

def LockMode.toGroup : LockMode → GroupLockMode
  | .shared => .s
  | .exclusive => .x
  | .intentionShared => .is
  | .intentionExclusive => .ix
  | .sIX => .six

/-- NON_LOCK exactly for the empty queue, else the strongest mode held. -/
structure GroupExact (q : LockRequestQueue) : Prop where
  none : q.groupLockMode = .nonLock ↔ q.requestQueue = []
  strongest : q.requestQueue ≠ [] → ∃ r ∈ q.requestQueue,
    q.groupLockMode = r.lockMode.toGroup ∧ ∀ a ∈ q.requestQueue, modeLe a.lockMode r.lockMode = true

/-- The transaction, mode and object of a lock request. -/
def LockCall.requests : LockCall → Option (TxnId × LockMode × LockDataId)
  | .sharedOnRecord txn rid fd => some (txn,.shared,.ofRecord fd rid)
  | .exclusiveOnRecord txn rid fd => some (txn,.exclusive,.ofRecord fd rid)
  | .sharedOnTable txn fd => some (txn,.shared,.ofTable fd)
  | .exclusiveOnTable txn fd => some (txn,.exclusive,.ofTable fd)
  | .isOnTable txn fd => some (txn,.intentionShared,.ofTable fd)
  | .ixOnTable txn fd => some (txn,.intentionExclusive,.ofTable fd)
  | .unlock _ _ => none

/-- A request is refused for deadlock prevention only beside an incompatible request of
another transaction. -/
def RefusalsJustified (s : LockState) : Prop :=
  ∀ (call : LockCall) txn mode id, call.requests = some (txn,mode,id) →
    (call.run s).1 = .error ⟨txn,.deadlockPrevention⟩ →
    ∃ r ∈ (s.queue id).requestQueue, r.txnId ≠ txn ∧ compatible r.lockMode mode = false

def GroupModesExact (s : LockState) : Prop :=
  (∀ id q, s.lockTable id = some q → GroupExact q) ∧ RefusalsJustified s

/-- Two readers with intention locks, one of which leaves. -/
def leavingReader : List LockCall :=
  [.isOnTable 1 7,.isOnTable 2 7,.unlock 1 (.ofTable 7)]

/-- The remaining IS request leaves group mode S, and a third transaction's IX request is
refused beside it. -/
theorem leaving_reader_inexact :
    ¬ GroupModesExact (leavingReader.foldl step (start fun _ => {})) := by
  intro exactly
  obtain ⟨r,member,_,conflict⟩ := exactly.2 (.ixOnTable 3 7) 3 .intentionExclusive (.ofTable 7)
    rfl (by decide)
  have only : ((leavingReader.foldl step (start fun _ => {})).queue (.ofTable 7)).requestQueue =
      [⟨2,.intentionShared,true⟩] := by decide
  rw [only,List.mem_singleton] at member
  subst r
  simp [compatible] at conflict

/-- The step keeps the summary exact: a release leaves nothing, or an S or SIX request,
behind, and no holder of S, IX or SIX on a table is upgraded to X. -/
def Aligned (s : LockState) : LockCall → Prop
  | .unlock txn id => (s.txns txn).state.ended = false →
      ∀ q r, s.lockTable id = some q → findRequest txn q.requestQueue = some r →
        let rest := q.requestQueue.eraseP (fun a => a.txnId = txn)
        rest = [] ∨ ∃ a ∈ rest, a.lockMode = .shared ∨ a.lockMode = .sIX
  | .exclusiveOnTable txn fd => (s.txns txn).state.ended = false →
      (s.txns txn).state ≠ .shrinking →
      ∀ q r, s.lockTable (.ofTable fd) = some q → findRequest txn q.requestQueue = some r →
        q.requestQueue.length = 1 → r.lockMode = .intentionShared ∨ r.lockMode = .exclusive
  | _ => True

/-- The invariant of guarded runs. Record queues hold S and X only and never read the
counters; table queues have exact counters. -/
structure ExactQueue (id : LockDataId) (q : LockRequestQueue) : Prop where
  sound : SoundQueue q
  exactly : GroupExact q
  record : id.type = .record → ∀ r ∈ q.requestQueue, r.lockMode = .shared ∨ r.lockMode = .exclusive
  shared : id.type = .table → q.sharedLockNum = sharedCount q.requestQueue
  ix : id.type = .table → q.ixLockNum = ixCount q.requestQueue

def Exact (s : LockState) : Prop := ∀ id q, s.lockTable id = some q → ExactQueue id q

theorem empty_exact (id : LockDataId) : ExactQueue id {} := by
  refine ⟨empty_sound,⟨by simp,by simp⟩,by simp,?_,?_⟩ <;> simp [sharedCount,ixCount]

theorem Exact.queue {s : LockState} (exactly : Exact s) (id : LockDataId) : ExactQueue id (s.queue id) :=
  queue_of_each exactly (empty_exact id)

variable {id : LockDataId} {r : LockRequest} {q : LockRequestQueue} {rule : LockRule} {txn : TxnId}

theorem groupExact_of_top (member : r ∈ q.requestQueue) (group : q.groupLockMode = r.lockMode.toGroup)
    (top : ∀ a ∈ q.requestQueue, modeLe a.lockMode r.lockMode = true) : GroupExact q := by
  refine ⟨?_,fun _ => ⟨r,member,group,top⟩⟩
  have some : q.requestQueue ≠ [] := List.ne_nil_of_mem member
  constructor
  · intro none
    rw [none] at group
    cases mode : r.lockMode <;> simp [mode,toGroup] at group
  · intro none
    exact absurd none some

theorem modeLe_refl (m : LockMode) : modeLe m m = true := by cases m <;> rfl

/-- How a rule keeps group mode, modes and counters exact on objects of type `type`. -/
structure RuleExact (rule : LockRule) (type : LockDataType) : Prop where
  upgrade : ∀ q r mode group shared ix, rule.own q r.lockMode = .upgrade mode group shared ix →
    group = mode.toGroup ∧ (type = .record → mode = .shared ∨ mode = .exclusive) ∧
    ∀ others, others.length + 1 = q.requestQueue.length → Beside q r others →
      ∀ a ∈ others, modeLe a.lockMode mode = true
  joins : ∀ g, rule.conflicts g = false →
    (rule.group g = rule.mode.toGroup ∧ ∀ m, covers g m = true → modeLe m rule.mode = true) ∨
    (rule.group g = g ∧ g ≠ .nonLock ∧ ∀ m, modeLe rule.mode m = true)
  record : type = .record → rule.mode = .shared ∨ rule.mode = .exclusive
  shared : type = .table → rule.shared = counts (countsShared rule.mode)
  ix : type = .table → rule.ix = counts (countsIX rule.mode)

theorem upgraded_exact {mode : LockMode} {group : GroupLockMode} {shared ix : Int} (ruleSound : RuleSound rule)
    (ruleExact : RuleExact rule id.type) (exactly : ExactQueue id q) (found : findRequest txn q.requestQueue = some r)
    (own : rule.own q r.lockMode = .upgrade mode group shared ix)
    (counters : id.type = .table →
      counts (countsShared mode) = counts (countsShared r.lockMode) + shared ∧
      counts (countsIX mode) = counts (countsIX r.lockMode) + ix) :
    ExactQueue id (q.upgraded txn mode group shared ix) := by
  obtain ⟨covered,fits⟩ := ruleSound.upgrade _ _ _ _ _ _ own
  obtain ⟨groupEq,modes,below⟩ := ruleExact.upgrade _ _ _ _ _ _ own
  obtain ⟨before,after,split,mine,apart⟩ := findRequest_split found
  have requests : setMode txn mode q.requestQueue =
      before ++ { r with lockMode := mode } :: after := by
    rw [split,setMode_split txn mode before after r mine apart]
  have top := below (before ++ after) (by simp [split]; omega) (exactly.sound.beside split)
  refine ⟨upgraded_sound exactly.sound found (fits txn) covered,?_,?_,?_,?_⟩
  · apply groupExact_of_top (r := { r with lockMode := mode })
    · simp [upgraded,requests]
    · simp [upgraded,groupEq]
    · intro a member
      simp only [upgraded,requests,List.mem_append,List.mem_cons] at member
      rcases member with left | rfl | right
      · exact top a (by simp [left])
      · exact modeLe_refl mode
      · exact top a (by simp [right])
  · intro isRecord a member
    simp only [upgraded,requests,List.mem_append,List.mem_cons] at member
    have old := exactly.record isRecord
    rcases member with left | rfl | right
    · exact old a (by simp [split,left])
    · exact modes isRecord
    · exact old a (by simp [split,right])
  · exact fun isTable => ((upgraded_counted_iff ⟨exactly.shared isTable,exactly.ix isTable⟩ found).mpr (counters isTable)).shared
  · exact fun isTable => ((upgraded_counted_iff ⟨exactly.shared isTable,exactly.ix isTable⟩ found).mpr (counters isTable)).ix

theorem granting_exact (ruleSound : RuleSound rule) (ruleExact : RuleExact rule id.type) (exactly : ExactQueue id q)
    (fresh : findRequest txn q.requestQueue = none) (free : rule.conflicts q.groupLockMode = false) :
    ExactQueue id (q.granting txn rule) := by
  refine ⟨granting_sound exactly.sound ruleSound fresh free,?_,?_,?_,?_⟩
  · rcases ruleExact.joins _ free with ⟨group,below⟩ | ⟨group,some,weakest⟩
    · apply groupExact_of_top (r := ⟨txn,rule.mode,true⟩)
      · simp [granting]
      · simp [granting,group]
      · intro a member
        simp only [granting,List.mem_append,List.mem_singleton] at member
        rcases member with old | rfl
        · exact below _ (exactly.sound.covered a old)
        · exact modeLe_refl _
    · have nonempty : q.requestQueue ≠ [] := fun none => some (exactly.exactly.none.mpr none)
      obtain ⟨r,member,groupEq,top⟩ := exactly.exactly.strongest nonempty
      apply groupExact_of_top (r := r)
      · simp [granting,member]
      · simpa [granting,group] using groupEq
      · intro a here
        simp only [granting,List.mem_append,List.mem_singleton] at here
        rcases here with old | rfl
        · exact top a old
        · exact weakest _
  · intro isRecord a member
    simp only [granting,List.mem_append,List.mem_singleton] at member
    rcases member with old | rfl
    · exact exactly.record isRecord a old
    · exact ruleExact.record isRecord
  · exact fun isTable => (granting_counted ⟨exactly.shared isTable,exactly.ix isTable⟩ txn (ruleExact.shared isTable)
      (ruleExact.ix isTable)).shared
  · exact fun isTable => (granting_counted ⟨exactly.shared isTable,exactly.ix isTable⟩ txn (ruleExact.shared isTable)
      (ruleExact.ix isTable)).ix

/-! ### The six requests -/

theorem sharedOnRecord_exact (type : LockDataType) : RuleExact sharedOnRecord type where
  upgrade := by intro q r mode group shared ix own; simp [sharedOnRecord] at own
  joins := by
    intro g free
    refine .inl ⟨rfl,fun m => ?_⟩
    cases g <;> cases m <;> simp_all [sharedOnRecord,writersOrIntents,covers,modeLe]
  record _ := .inl rfl
  shared _ := rfl
  ix _ := rfl

theorem exclusiveOnRecord_exact (type : LockDataType) : RuleExact exclusiveOnRecord type where
  upgrade := by
    intro q r mode group shared ix own
    simp only [exclusiveOnRecord] at own
    split at own
    · contradiction
    split at own
    · cases own
      refine ⟨rfl,fun _ => .inr rfl,fun others _ _ a _ => ?_⟩
      cases a.lockMode <;> rfl
    · contradiction
  joins := by
    intro g free
    refine .inl ⟨rfl,fun m => ?_⟩
    cases g <;> simp_all [exclusiveOnRecord,covers]
  record _ := .inr rfl
  shared _ := rfl
  ix _ := rfl

theorem sharedOnTable_exact : RuleExact sharedOnTable .table where
  upgrade := by
    intro q r mode group shared ix own
    simp only [sharedOnTable] at own
    split at own
    · contradiction
    split at own
    · rename_i weak
      cases own
      refine ⟨rfl,by simp,fun others _ beside a member => ?_⟩
      have covered := beside.covered a member
      rcases weak.2 with g | g <;> rw [g] at covered <;> cases mode : a.lockMode <;>
        simp_all [covers,modeLe]
    split at own
    · rename_i sole
      cases own
      refine ⟨rfl,by simp,fun others _ beside a member => ?_⟩
      rw [beside.only_is (.inr sole) a member]
      rfl
    · contradiction
  joins := by
    intro g free
    refine .inl ⟨rfl,fun m => ?_⟩
    cases g <;> cases m <;> simp_all [sharedOnTable,writersOrIntents,covers,modeLe]
  record := by simp
  shared _ := rfl
  ix _ := rfl

theorem exclusiveOnTable_exact : RuleExact exclusiveOnTable .table where
  upgrade := by
    intro q r mode group shared ix own
    simp only [exclusiveOnTable] at own
    split at own
    · contradiction
    split at own
    · cases own
      refine ⟨rfl,by simp,fun others _ _ a _ => ?_⟩
      cases a.lockMode <;> rfl
    · contradiction
  joins := by
    intro g free
    refine .inl ⟨rfl,fun m => ?_⟩
    cases g <;> simp_all [exclusiveOnTable,covers]
  record := by simp
  shared _ := rfl
  ix _ := rfl

theorem isOnTable_exact : RuleExact isOnTable .table where
  upgrade := by intro q r mode group shared ix own; simp [isOnTable] at own
  joins := by
    intro g free
    by_cases empty : g = .nonLock
    · subst g
      exact .inl ⟨rfl,fun m covered => by simp [covers] at covered⟩
    · exact .inr ⟨by simp [isOnTable,empty],empty,fun m => by cases m <;> rfl⟩
  record := by simp
  shared _ := rfl
  ix _ := rfl

theorem ixOnTable_exact : RuleExact ixOnTable .table where
  upgrade := by
    intro q r mode group shared ix own
    simp only [ixOnTable] at own
    split at own
    · contradiction
    split at own
    · rename_i sole
      cases own
      refine ⟨rfl,by simp,fun others _ beside a member => ?_⟩
      rw [beside.only_is (.inl sole) a member]
      rfl
    split at own
    · rename_i weak
      cases own
      refine ⟨rfl,by simp,fun others _ beside a member => ?_⟩
      have covered := beside.covered a member
      rcases weak.2 with g | g <;> rw [g] at covered <;> cases mode : a.lockMode <;>
        simp_all [covers,modeLe]
    · contradiction
  joins := by
    intro g free
    refine .inl ⟨rfl,fun m => ?_⟩
    cases g <;> cases m <;> simp_all [ixOnTable,covers,modeLe]
  record := by simp
  shared _ := rfl
  ix _ := rfl

theorem acquire_exact (ruleSound : RuleSound rule) (ruleExact : RuleExact rule id.type) (txn : TxnId) (s : LockState)
    (exactly : Exact s)
    (balanced : (s.txns txn).state.ended = false → (s.txns txn).state ≠ .shrinking →
      ∀ q r, s.lockTable id = some q → findRequest txn q.requestQueue = some r →
        id.type = .table → Balanced rule q r) :
    Exact ((acquire rule txn id).after s) := by
  refine acquire_each exactly (empty_exact id) ?_ (granting_exact ruleSound ruleExact (exactly.queue id))
  intro q r mode group shared ix live late present found own
  have counters := fun isTable => balanced live late q r present found isTable _ _ _ _ own
  exact upgraded_exact ruleSound ruleExact (exactly id q present) found own counters

/-! ### Release -/

theorem foldl_max_upper (requests : List LockRequest) (start bound : Nat) (first : start ≤ bound)
    (each : ∀ r ∈ requests, r.lockMode.code ≤ bound) :
    requests.foldl (fun m r => max m r.lockMode.code) start ≤ bound := by
  induction requests generalizing start with
  | nil => exact first
  | cons r rest ih =>
    have head := each r (by simp)
    exact ih _ (Nat.max_le.mpr ⟨first,head⟩) (fun a member => each a (by simp [member]))

/-- Only IS, S or a single SIX stays beside an S or SIX request; there the recomputed
mode is that request's. -/
theorem recomputed_exact (requests : List LockRequest) (a : LockRequest) (member : a ∈ requests)
    (strong : a.lockMode = .shared ∨ a.lockMode = .sIX)
    (fits : ∀ b ∈ requests, b = a ∨ compatible b.lockMode a.lockMode = true) :
    recomputedMode requests = a.lockMode.toGroup ∧
    ∀ b ∈ requests, modeLe b.lockMode a.lockMode = true := by
  have below : ∀ b ∈ requests, modeLe b.lockMode a.lockMode = true := by
    intro b here
    rcases fits b here with rfl | fit
    · exact modeLe_refl _
    · rcases strong with h | h <;> rw [h] at fit ⊢ <;> cases mode : b.lockMode <;>
        simp_all [compatible,modeLe]
  refine ⟨?_,below⟩
  obtain ⟨lower,each⟩ := foldl_max_le requests intentionShared.code
  have upper : requests.foldl (fun m r => max m r.lockMode.code) intentionShared.code ≤
      max intentionShared.code a.lockMode.code := by
    have bounded : ∀ b ∈ requests, b.lockMode.code ≤ max intentionShared.code a.lockMode.code := by
      intro b here
      have le := below b here
      rcases strong with h | h <;> rw [h] at le ⊢ <;> cases mode : b.lockMode <;>
        simp_all [modeLe,code]
    exact foldl_max_upper requests _ _ (Nat.le_max_left _ _) bounded
  have mine := each a member
  have some : requests.isEmpty = false := by
    cases requests with
    | nil => simp at member
    | cons => rfl
  unfold recomputedMode
  simp only [some,Bool.false_eq_true,↓reduceIte]
  generalize requests.foldl (fun m r => max m r.lockMode.code) intentionShared.code = top
    at lower upper mine
  rcases strong with h | h <;> rw [h] at upper mine ⊢ <;>
    simp only [code] at lower upper mine
  · obtain rfl : top = 2 := by omega
    rfl
  · obtain rfl : top = 4 := by omega
    rfl

theorem released_exact (exactly : ExactQueue id q) (found : findRequest txn q.requestQueue = some r)
    (aligned : q.requestQueue.eraseP (fun a => a.txnId = txn) = [] ∨
      ∃ a ∈ q.requestQueue.eraseP (fun a => a.txnId = txn),
        a.lockMode = .shared ∨ a.lockMode = .sIX) :
    ExactQueue id (q.released txn r.lockMode) := by
  obtain ⟨before,after,split,own,apart⟩ := findRequest_split found
  have rest : q.requestQueue.eraseP (fun a => a.txnId = txn) = before ++ after := by
    rw [split]; exact eraseP_split txn before after r own apart
  have sound := released_sound exactly.sound found
  have pairs := sound.pairwise
  simp only [released,rest] at pairs
  rw [rest] at aligned
  refine ⟨sound,?_,?_,?_,?_⟩
  · rcases aligned with none | ⟨a,member,strong⟩
    · refine ⟨?_,?_⟩ <;> simp [released,rest,none,recomputedMode]
    · have symm : Std.Symm (fun a b : LockRequest => compatible a.lockMode b.lockMode = true) :=
        ⟨fun a b fits => by rwa [compatible_comm]⟩
      have fits : ∀ b ∈ before ++ after, b = a ∨ compatible b.lockMode a.lockMode = true := by
        intro b here
        by_cases same : b = a
        · exact .inl same
        · exact .inr (pairs.forall here member same)
      obtain ⟨group,top⟩ := recomputed_exact _ a member strong fits
      apply groupExact_of_top (r := a)
      · simpa [released,rest] using member
      · simpa [released,rest] using group
      · simpa [released,rest] using top
  · intro isRecord a member
    have old := exactly.record isRecord a
    simp only [released,rest,List.mem_append] at member
    apply old
    rw [split]
    rcases member with left | right <;> simp [*]
  · exact fun isTable => (released_counted ⟨exactly.shared isTable,exactly.ix isTable⟩ found).shared
  · exact fun isTable => (released_counted ⟨exactly.shared isTable,exactly.ix isTable⟩ found).ix

theorem unlock_exact (txn : TxnId) (id : LockDataId) (s : LockState) (exactly : Exact s)
    (aligned : Aligned s (.unlock txn id)) : Exact ((unlock txn id).after s) :=
  unlock_each exactly fun live q r present found =>
    released_exact (exactly id q present) found (aligned live q r present found)

theorem step_exact (s : LockState) (call : LockCall) (exactly : Exact s) (aligned : Aligned s call) :
    Exact (step s call) := by
  cases call with
  | sharedOnRecord txn rid fd =>
    exact acquire_exact sharedOnRecord_sound (sharedOnRecord_exact _) txn s exactly (by simp [LockDataId.ofRecord])
  | exclusiveOnRecord txn rid fd =>
    exact acquire_exact exclusiveOnRecord_sound (exclusiveOnRecord_exact _) txn s exactly
      (by simp [LockDataId.ofRecord])
  | sharedOnTable txn fd =>
    exact acquire_exact sharedOnTable_sound sharedOnTable_exact txn s exactly
      (fun _ _ q r _ _ _ => sharedOnTable_balanced q r)
  | exclusiveOnTable txn fd =>
    exact acquire_exact exclusiveOnTable_sound exclusiveOnTable_exact txn s exactly
      (fun live late q r present found _ =>
        exclusiveOnTable_balanced q r (aligned live late q r present found))
  | isOnTable txn fd =>
    exact acquire_exact isOnTable_sound isOnTable_exact txn s exactly
      (fun _ _ q r _ _ _ mode group shared ix own => by simp [isOnTable] at own)
  | ixOnTable txn fd =>
    exact acquire_exact ixOnTable_sound ixOnTable_exact txn s exactly
      (fun _ _ q r _ _ _ => ixOnTable_balanced q r)
  | unlock txn id => exact unlock_exact txn id s exactly aligned

/-! ### Refusals -/

/-- A rule refuses an own request only beside an incompatible one, given an exact queue. -/
def OwnRefusals (rule : LockRule) (type : LockDataType) : Prop :=
  ∀ id q r txn before after, id.type = type → ExactQueue id q →
    q.requestQueue = before ++ r :: after → r.txnId = txn →
    rule.own q r.lockMode = .refuse →
    ∃ a ∈ before ++ after, compatible a.lockMode rule.mode = false

/-- The group modes that block a new request belong to incompatible requests. -/
def FreshRefusals (rule : LockRule) : Prop :=
  ∀ m : LockMode, rule.conflicts m.toGroup = true → compatible m rule.mode = false

theorem refusal_justified (own : OwnRefusals rule id.type) (fresh : FreshRefusals rule) (ruleSound : RuleSound rule)
    (txn : TxnId) (s : LockState) (exactly : Exact s)
    (thrown : (acquire rule txn id s).1 = .error ⟨txn,.deadlockPrevention⟩) :
    ∃ r ∈ (s.queue id).requestQueue, r.txnId ≠ txn ∧ compatible r.lockMode rule.mode = false := by
  have outcome := acquire_outcome rule txn id s
  generalize (acquire rule txn id s).1 = result at outcome thrown
  generalize (acquire rule txn id s).2 = next at outcome
  subst thrown
  cases outcome with
  | refused present found refuse =>
    rename_i q r
    have same : s.queue id = q := by simp [LockState.queue,present]
    have here := exactly id q present
    obtain ⟨before,after,split,mine,_⟩ := findRequest_split found
    obtain ⟨a,member,conflict⟩ := own id q r txn before after rfl here split mine refuse
    refine ⟨a,?_,?_,conflict⟩
    · rw [same,split]
      rcases List.mem_append.mp member with left | right <;> simp [*]
    · intro also
      have single := here.sound.single
      rw [split] at single
      simp only [List.map_append,List.map_cons,List.nodup_append,List.nodup_cons] at single
      rcases List.mem_append.mp member with left | right
      · exact single.2.2 a.txnId (List.mem_map_of_mem left) r.txnId (by simp) (by rw [also,mine])
      · exact single.2.1.1 (by rw [mine,← also]; exact List.mem_map_of_mem right)
  | blocked none conflict =>
    have here := exactly.queue id
    have nonempty : (s.queue id).requestQueue ≠ [] := by
      intro empty
      rw [here.exactly.none.mpr empty,ruleSound.fresh] at conflict
      contradiction
    obtain ⟨r,member,group,_⟩ := here.exactly.strongest nonempty
    refine ⟨r,member,?_,fresh _ (by rwa [← group])⟩
    intro mine
    have := List.find?_eq_none.mp none r member
    simp [mine] at this

theorem others_nonempty {before after : List LockRequest} (split : q.requestQueue = before ++ r :: after)
    (crowd : q.requestQueue.length ≠ 1) :
    ∃ a, a ∈ before ++ after := by
  apply List.exists_mem_of_ne_nil
  intro none
  obtain ⟨rfl,rfl⟩ := List.append_eq_nil_iff.mp none
  exact crowd (by simp [split])

theorem other_strongest {before after : List LockRequest} (exactly : ExactQueue id q)
    (split : q.requestQueue = before ++ r :: after) (weak : r.lockMode = .intentionShared)
    (notIS : q.groupLockMode ≠ .is) :
    ∃ a ∈ before ++ after, q.groupLockMode = a.lockMode.toGroup := by
  obtain ⟨a,member,group,_⟩ := exactly.exactly.strongest (by simp [split])
  rw [split] at member
  rcases List.mem_append.mp member with left | here
  · exact ⟨a,by simp [left],group⟩
  · rcases List.mem_cons.mp here with rfl | right
    · rw [weak] at group
      exact absurd group notIS
    · exact ⟨a,by simp [right],group⟩

theorem exclusive_conflicts (m : LockMode) : compatible m .exclusive = false := by cases m <;> rfl

theorem exclusiveOnRecord_own : OwnRefusals exclusiveOnRecord .record := by
  intro id q r txn before after isRecord exactly split _ refuse
  simp only [exclusiveOnRecord] at refuse
  split at refuse
  · contradiction
  rename_i notX
  split at refuse
  · contradiction
  rename_i crowd
  have shared : r.lockMode = .shared :=
    (exactly.record isRecord r (by simp [split])).resolve_right notX
  obtain ⟨a,member⟩ := others_nonempty split (fun one => crowd ⟨shared,one⟩)
  exact ⟨a,member,exclusive_conflicts _⟩

theorem exclusiveOnTable_own : OwnRefusals exclusiveOnTable .table := by
  intro id q r txn before after _ _ split _ refuse
  simp only [exclusiveOnTable] at refuse
  split at refuse
  · contradiction
  split at refuse
  · contradiction
  rename_i crowd
  obtain ⟨a,member⟩ := others_nonempty split crowd
  exact ⟨a,member,exclusive_conflicts _⟩

theorem sharedOnTable_own : OwnRefusals sharedOnTable .table := by
  intro id q r txn before after isTable exactly split _ refuse
  simp only [sharedOnTable] at refuse
  split at refuse
  · contradiction
  rename_i notStrong
  split at refuse
  · contradiction
  rename_i notRaised
  split at refuse
  · contradiction
  rename_i notSole
  by_cases weak : r.lockMode = .intentionShared
  · have above : q.groupLockMode ≠ .is := fun g => notRaised ⟨weak,.inr g⟩
    obtain ⟨a,member,group⟩ := other_strongest exactly split weak above
    refine ⟨a,member,?_⟩
    have notS : q.groupLockMode ≠ .s := fun g => notRaised ⟨weak,.inl g⟩
    cases mode : a.lockMode <;> simp_all [toGroup,compatible,sharedOnTable]
  · -- the own request is IX and the counter names a second one
    have isIX : r.lockMode = .intentionExclusive := by
      cases mode : r.lockMode <;> simp_all
    have many : q.ixLockNum ≠ 1 := fun one => notSole ⟨isIX,one⟩
    have count := exactly.ix isTable
    rw [split,ixCount_split,isIX] at count
    simp only [counts,countsIX,↓reduceIte] at count
    have some : 0 < ixCount (before ++ after) := by
      simp only [ixCount,List.countP_append] at count ⊢
      omega
    obtain ⟨a,member,counted⟩ := List.countP_pos_iff.mp some
    refine ⟨a,member,?_⟩
    cases mode : a.lockMode <;> simp_all [countsIX,compatible,sharedOnTable]

theorem ixOnTable_own : OwnRefusals ixOnTable .table := by
  intro id q r txn before after isTable exactly split _ refuse
  simp only [ixOnTable] at refuse
  split at refuse
  · contradiction
  rename_i notStrong
  split at refuse
  · contradiction
  rename_i notSole
  split at refuse
  · contradiction
  rename_i notRaised
  by_cases weak : r.lockMode = .intentionShared
  · have above : q.groupLockMode ≠ .is := fun g => notRaised ⟨weak,.inl g⟩
    obtain ⟨a,member,group⟩ := other_strongest exactly split weak above
    refine ⟨a,member,?_⟩
    have notIX : q.groupLockMode ≠ .ix := fun g => notRaised ⟨weak,.inr g⟩
    cases mode : a.lockMode <;> simp_all [toGroup,compatible,ixOnTable]
  · have isS : r.lockMode = .shared := by
      cases mode : r.lockMode <;> simp_all
    have many : q.sharedLockNum ≠ 1 := fun one => notSole ⟨isS,one⟩
    have count := exactly.shared isTable
    rw [split,sharedCount_split,isS] at count
    simp only [counts,countsShared,↓reduceIte] at count
    have some : 0 < sharedCount (before ++ after) := by
      simp only [sharedCount,List.countP_append] at count ⊢
      omega
    obtain ⟨a,member,counted⟩ := List.countP_pos_iff.mp some
    refine ⟨a,member,?_⟩
    cases mode : a.lockMode <;> simp_all [countsShared,compatible,ixOnTable]

theorem exact_refusals (s : LockState) (exactly : Exact s) : RefusalsJustified s := by
  intro call txn mode id target thrown
  cases call with
  | sharedOnRecord t rid fd =>
    cases target
    have own : OwnRefusals sharedOnRecord .record := by
      intro _ _ _ _ _ _ _ _ _ _ refuse
      simp [sharedOnRecord] at refuse
    exact refusal_justified own (by intro m; cases m <;> decide) sharedOnRecord_sound txn s exactly thrown
  | exclusiveOnRecord t rid fd =>
    cases target
    exact refusal_justified exclusiveOnRecord_own (fun m _ => exclusive_conflicts m)
      exclusiveOnRecord_sound txn s exactly thrown
  | sharedOnTable t fd =>
    cases target
    exact refusal_justified sharedOnTable_own (by intro m; cases m <;> decide)
      sharedOnTable_sound txn s exactly thrown
  | exclusiveOnTable t fd =>
    cases target
    exact refusal_justified exclusiveOnTable_own (fun m _ => exclusive_conflicts m)
      exclusiveOnTable_sound txn s exactly thrown
  | isOnTable t fd =>
    cases target
    have own : OwnRefusals isOnTable .table := by
      intro _ _ _ _ _ _ _ _ _ _ refuse
      simp [isOnTable] at refuse
    exact refusal_justified own (by intro m; cases m <;> decide) isOnTable_sound txn s exactly thrown
  | ixOnTable t fd =>
    cases target
    exact refusal_justified ixOnTable_own (by intro m; cases m <;> decide)
      ixOnTable_sound txn s exactly thrown
  | unlock t id => simp [LockCall.requests] at target

/-- In every run whose steps are aligned, each group mode is the strongest mode held and
each refusal has an incompatible request of another transaction as its reason. -/
theorem aligned_runs_exact (txns : TxnId → Transaction) (calls : List LockCall)
    (aligned : Guarded step Aligned (start txns) calls) :
    GroupModesExact (calls.foldl step (start txns)) := by
  have exactly : Exact (calls.foldl step (start txns)) := by
    refine guarded_invariant Exact step_exact _ ?_ calls aligned
    intro id q present
    simp [start] at present
  exact ⟨fun id q present => (exactly id q present).exactly,exact_refusals _ exactly⟩

/-- A reader leaves while an S holder stays, then the S holder leaves. -/
def readersLeave : List LockCall :=
  [.isOnTable 1 7,.sharedOnTable 2 7,.unlock 1 (.ofTable 7),.unlock 2 (.ofTable 7)]

theorem readersLeave_exact :
    Guarded step Aligned (start fun _ => {}) readersLeave ∧
    GroupModesExact (readersLeave.foldl step (start fun _ => {})) := by
  have aligned : Guarded step Aligned (start fun _ => {}) readersLeave := by
    refine ⟨trivial,trivial,?_,?_,trivial⟩
    · intro _ q r present _
      obtain rfl := Option.some.inj present
      exact .inr ⟨⟨2,.shared,true⟩,by decide,.inl rfl⟩
    · intro _ q r present _
      obtain rfl := Option.some.inj present
      exact .inl (by decide)
  exact ⟨aligned,aligned_runs_exact _ _ aligned⟩

end Rucbase.LockManager
