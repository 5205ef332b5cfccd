import Rucbase.LockCompat
import Rucbase.RecordFile
import Rucbase.TransactionManager
import Rucbase.Lib.History

/-! Record-level isolation. Every row access of a transaction is noted in the log; a lock
behind it is kept until the transaction ends, and compatible locks allow no conflicting
access before that. That a second read returns the same bytes also needs that no operation
writes outside the row it locked. -/
namespace Rucbase.Isolation

open Lib Lib.Prog Lib.History Db RmFile
open LockManager hiding step start
open LockState (addLock queue setQueue setTxnState)

/-! ### Locks held -/

/-- The transaction has a request on the object. -/
def Holds (s : LockState) (txn : TxnId) (id : LockDataId) : Prop :=
  ∃ r ∈ (s.queue id).requestQueue, r.txnId = txn

def HoldsX (s : LockState) (txn : TxnId) (id : LockDataId) : Prop :=
  ∃ r ∈ (s.queue id).requestQueue, r.txnId = txn ∧ r.lockMode = .exclusive

variable {s : Db} {id : LockDataId} {q : LockRequestQueue} {flag proper : Prop} {txn : TxnId}

theorem HoldsX.holds {s : LockState} {txn : TxnId} (held : HoldsX s txn id) : Holds s txn id := by
  obtain ⟨r,member,own,_⟩ := held
  exact ⟨r,member,own⟩

theorem holdsX_alone {s : LockState} {txn other : TxnId} (sound : Sound s) (exclusive : HoldsX s txn id)
    (held : Holds s other id) : other = txn := by
  obtain ⟨a,first,own,isX⟩ := exclusive
  obtain ⟨b,second,theirs⟩ := held
  by_contra apart
  have symm : Std.Symm (fun a b : LockRequest => compatible a.lockMode b.lockMode = true) :=
    ⟨fun a b fits => by rwa [compatible_comm]⟩
  have fits := (sound.queue id).pairwise.forall first second
    (fun same => apart (by rw [← own,← theirs,same]))
  rw [isX] at fits
  cases mode : b.lockMode <;> simp [mode,compatible] at fits

/-- No lock is given up and no transaction ends. -/
structure Keeps (s next : LockState) : Prop where
  sound : Sound s → Sound next
  holds : ∀ txn id, Holds s txn id → Holds next txn id
  holdsX : ∀ txn id, HoldsX s txn id → HoldsX next txn id
  ended : ∀ txn, (next.txns txn).state.ended = (s.txns txn).state.ended

theorem Keeps.refl (s : LockState) : Keeps s s :=
  ⟨id,fun _ _ held => held,fun _ _ held => held,fun _ => rfl⟩

theorem queue_of_table {s next : LockState} (table : next.lockTable = (s.setQueue id q).lockTable) (other : LockDataId) :
    next.queue other = if other = id then q else s.queue other := by
  unfold queue
  rw [table]
  by_cases same : other = id
  · simp [same]
  · simp [same]

@[simp] theorem grown_ended (s : LockState) (txn other : TxnId) :
    ((s.grown txn).txns other).state.ended = (s.txns other).state.ended := by
  unfold LockState.grown
  split
  · rename_i fresh
    by_cases same : other = txn
    · subst other
      simp [setTxnState,fresh,TransactionState.ended]
    · simp [setTxnState,same]
  · rfl

@[simp] theorem addLock_ended (s : LockState) (txn other : TxnId) (id : LockDataId) :
    ((s.addLock txn id).txns other).state.ended = (s.txns other).state.ended := by
  by_cases same : other = txn
  · subst other
    simp [addLock]
  · simp [addLock,same]

@[simp] theorem addLock_queue (s : LockState) (txn : TxnId) (id other : LockDataId) :
    (s.addLock txn id).queue other = s.queue other := rfl

theorem acquire_queue (rule : LockRule) (txn : TxnId) (id : LockDataId) (s : LockState) (other : LockDataId) :
    ((acquire rule txn id).after s).queue other = s.queue other ∨ other = id ∧
      ((∃ r mode group shared ix, findRequest txn (s.queue id).requestQueue = some r ∧
          rule.own (s.queue id) r.lockMode = .upgrade mode group shared ix ∧
          ((acquire rule txn id).after s).queue id = (s.queue id).upgraded txn mode group shared ix) ∨
        ((acquire rule txn id).after s).queue id = (s.queue id).granting txn rule) := by
  refine acquire_invariant (P := fun next => next.queue other = s.queue other ∨ other = id ∧
    ((∃ r mode group shared ix, findRequest txn (s.queue id).requestQueue = some r ∧
        rule.own (s.queue id) r.lockMode = .upgrade mode group shared ix ∧
        next.queue id = (s.queue id).upgraded txn mode group shared ix) ∨
      next.queue id = (s.queue id).granting txn rule)) (.inl rfl) (.inl (by simp)) (.inl ?_) ?_ fun _ _ _ _ => ?_
  · rw [queue_of_table (grown_setQueue_table ..)]
    split <;> simp_all
  · intro q r mode group shared ix _ _ present found own
    obtain rfl : s.queue id = q := by simp [queue,present]
    rw [queue_of_table (grown_setQueue_table ..)]
    by_cases same : other = id
    · exact .inr ⟨same,.inl ⟨r,mode,group,shared,ix,found,own,setQueue_queue ..⟩⟩
    · exact .inl (if_neg same)
  · rw [addLock_queue,queue_of_table (grown_setQueue_table s txn id _)]
    by_cases same : other = id
    · exact .inr ⟨same,.inr (setQueue_queue ..)⟩
    · exact .inl (if_neg same)

variable {r : LockRequest} {rule : LockRule} {fd : Int} {files : String → Option RmFile} {e : Access}

theorem acquire_kept (rule : LockRule) (txn : TxnId) (id : LockDataId) (s : LockState) {other : LockDataId}
    (member : r ∈ (s.queue other).requestQueue) :
    ∃ kept ∈ (((acquire rule txn id).after s).queue other).requestQueue, kept.txnId = r.txnId ∧
      (kept.lockMode = r.lockMode ∨ other = id ∧
        ∃ q group shared ix, rule.own q r.lockMode = .upgrade kept.lockMode group shared ix) := by
  rcases acquire_queue rule txn id s other with same | ⟨rfl,⟨own,mode,group,shared,ix,found,decided,raised⟩ | granted⟩
  · exact ⟨r,same ▸ member,rfl,.inl rfl⟩
  · obtain ⟨before,later,split,_,requests⟩ := upgraded_split found mode group shared ix
    rw [split] at member
    rw [raised,requests]
    rcases List.mem_append.mp member with left | right
    · exact ⟨r,by simp [left],rfl,.inl rfl⟩
    · rcases List.mem_cons.mp right with rfl | far
      · exact ⟨{ r with lockMode := mode },by simp,rfl,.inr ⟨rfl,_,group,shared,ix,decided⟩⟩
      · exact ⟨r,by simp [far],rfl,.inl rfl⟩
  · rw [granted]
    exact ⟨r,List.mem_append_left _ member,rfl,.inl rfl⟩

theorem acquire_new (rule : LockRule) (txn : TxnId) (id : LockDataId) (s : LockState) {other : LockDataId}
    (member : r ∈ (((acquire rule txn id).after s).queue other).requestQueue) :
    r ∈ (s.queue other).requestQueue ∨ other = id ∧ r.txnId = txn ∧
      (r.lockMode = rule.mode ∨ ∃ q mode group shared ix, rule.own q mode = .upgrade r.lockMode group shared ix) := by
  rcases acquire_queue rule txn id s other with same | ⟨rfl,⟨own,mode,group,shared,ix,found,decided,raised⟩ | granted⟩
  · exact .inl (same ▸ member)
  · obtain ⟨before,later,split,mine,requests⟩ := upgraded_split found mode group shared ix
    rw [raised,requests] at member
    rw [split]
    rcases List.mem_append.mp member with left | right
    · exact .inl (by simp [left])
    · rcases List.mem_cons.mp right with rfl | far
      · exact .inr ⟨rfl,mine,.inr ⟨_,own.lockMode,group,shared,ix,decided⟩⟩
      · exact .inl (by simp [far])
  · rw [granted] at member
    rcases List.mem_append.mp member with old | new
    · exact .inl old
    · rw [List.mem_singleton.mp new]
      exact .inr ⟨rfl,rfl,.inl rfl⟩

theorem acquire_ended_same (rule : LockRule) (txn other : TxnId) (id : LockDataId) (s : LockState) :
    (((acquire rule txn id).after s).txns other).state.ended = (s.txns other).state.ended := by
  apply acquire_invariant (P := fun next => (next.txns other).state.ended = (s.txns other).state.ended) <;> intros <;> simp

theorem acquire_keeps (ruleSound : RuleSound rule)
    (raises : ∀ q mode next group shared ix, rule.own q mode = .upgrade next group shared ix →
      next = .exclusive) (txn : TxnId) (id : LockDataId) (s : LockState) :
    Keeps s (acquire rule txn id s).2 := by
  refine ⟨acquire_sound ruleSound txn id s,?_,?_,fun other => acquire_ended_same rule txn other id s⟩
  · rintro holder other ⟨r,member,own⟩
    obtain ⟨kept,there,same,_⟩ := acquire_kept rule txn id s member
    exact ⟨kept,there,same.trans own⟩
  · rintro holder other ⟨r,member,own,isX⟩
    obtain ⟨kept,there,same,mode | ⟨_,q,group,shared,ix,raised⟩⟩ := acquire_kept rule txn id s member
    · exact ⟨kept,there,same.trans own,mode.trans isX⟩
    · exact ⟨kept,there,same.trans own,raises _ _ _ _ _ _ raised⟩

theorem sharedOnRecord_keeps (txn : TxnId) (id : LockDataId) (s : LockState) :
    Keeps s (acquire sharedOnRecord txn id s).2 := by
  apply acquire_keeps sharedOnRecord_sound
  intro q mode next group shared ix own
  simp [sharedOnRecord] at own

theorem exclusiveOnRecord_keeps (txn : TxnId) (id : LockDataId) (s : LockState) :
    Keeps s (acquire exclusiveOnRecord txn id s).2 :=
  acquire_keeps exclusiveOnRecord_sound (fun _ _ _ _ _ _ own => exclusiveOnRecord_upgrade own) _ _ _

theorem acquired {txn : TxnId} {s : LockState} {b : Bool} (active : (s.txns txn).state.ended = false)
    (fine : (acquire rule txn id s).1 = .ok b) :
    ∃ r ∈ ((acquire rule txn id s).2.queue id).requestQueue, r.txnId = txn ∧
      (r.lockMode = rule.mode ∨ (∃ q, rule.own q r.lockMode = .keep) ∨
        ∃ q mode group shared ix, rule.own q mode = .upgrade r.lockMode group shared ix) := by
  have outcome := acquire_outcome rule txn id s
  generalize (acquire rule txn id s).1 = result at outcome fine
  generalize (acquire rule txn id s).2 = next at outcome ⊢
  subst fine
  cases outcome with
  | ended isOver => simp [active] at isOver
  | kept present found own =>
    obtain ⟨before,later,split,mine,_⟩ := findRequest_split found
    refine ⟨_,?_,mine,.inr (.inl ⟨_,own⟩)⟩
    simp [queue,present,split]
  | @upgraded q r mode group shared ix _ _ present found own =>
    obtain ⟨before,later,split,mine,apart⟩ := findRequest_split found
    refine ⟨{ r with lockMode := mode },?_,mine,.inr (.inr ⟨q,r.lockMode,group,shared,ix,own⟩)⟩
    simp [LockRequestQueue.upgraded,split,setMode_split _ _ _ _ _ mine apart]
  | granted _ _ _ _ =>
    refine ⟨⟨txn,rule.mode,true⟩,?_,rfl,.inl rfl⟩
    simp [queue,LockRequestQueue.granting]

theorem shared_held {txn : TxnId} {rid : Rid} {s locks : LockState} (active : (s.txns txn).state.ended = false)
    (locked : rowLock lockSharedOnRecord (some txn) rid fd s = (.ok (),locks)) :
    Keeps s locks ∧ Holds locks txn (.ofRecord fd rid) := by
  obtain ⟨result,rfl⟩ := Prod.mk.inj locked
  refine ⟨sharedOnRecord_keeps txn _ s,?_⟩
  cases fine : (lockSharedOnRecord txn rid fd s).1 with
  | error e => simp [fine,Except.map] at result
  | ok granted =>
    obtain ⟨r,member,own,_⟩ := acquired active fine
    exact ⟨r,member,own⟩

theorem exclusive_held {txn : TxnId} {rid : Rid} {s locks : LockState} (active : (s.txns txn).state.ended = false)
    (locked : rowLock lockExclusiveOnRecord (some txn) rid fd s = (.ok (),locks)) :
    Keeps s locks ∧ HoldsX locks txn (.ofRecord fd rid) := by
  obtain ⟨result,rfl⟩ := Prod.mk.inj locked
  refine ⟨exclusiveOnRecord_keeps txn _ s,?_⟩
  cases fine : (lockExclusiveOnRecord txn rid fd s).1 with
  | error e => simp [fine,Except.map] at result
  | ok granted =>
    obtain ⟨r,member,own,mode | ⟨q,kept⟩ | ⟨q,mode,group,shared,ix,raised⟩⟩ := acquired active fine
    · exact ⟨r,member,own,mode⟩
    · refine ⟨r,member,own,?_⟩
      simp only [exclusiveOnRecord] at kept
      split at kept
      · assumption
      · split at kept <;> simp at kept
    · exact ⟨r,member,own,exclusiveOnRecord_upgrade raised⟩

theorem rowLock_keeps {request : TxnId → Rid → Int → Call} {txn : TxnId} {rid : Rid} {s locks : LockState}
    {result : Except TransactionAbortException Unit} (keeps : Keeps s (request txn rid fd s).2)
    (locked : rowLock request (some txn) rid fd s = (result,locks)) : Keeps s locks := by
  obtain ⟨_,rfl⟩ := Prod.mk.inj locked
  exact keeps

/-! ### Accesses and the locks behind them -/

def txnOf : Access → TxnId
  | .read txn _ _ _ | .write txn _ _ | .ended txn => txn

/-- The transaction of the first event ends. -/
def endOf (e x : Access) : Prop := x = .ended (txnOf e)

/-- Two transactions at one row, at least one of them writing. -/
def conflicting : Access → Access → Prop
  | .read txn tab rid _, .write other tab' rid' => txn ≠ other ∧ tab = tab' ∧ rid = rid'
  | .write txn tab rid, .read other tab' rid' _ => txn ≠ other ∧ tab = tab' ∧ rid = rid'
  | .write txn tab rid, .write other tab' rid' => txn ≠ other ∧ tab = tab' ∧ rid = rid'
  | _, _ => False

/-- The lock behind an access. -/
def Held (s : Db) : Access → Prop
  | .read txn tab rid _ => ∃ f, s.files tab = some f ∧ Holds s.locks txn (.ofRecord f.fd rid)
  | .write txn tab rid => ∃ f, s.files tab = some f ∧ HoldsX s.locks txn (.ofRecord f.fd rid)
  | .ended _ => True

/-- No access of a transaction conflicts with an open one of another. -/
structure Strict (s : Db) : Prop where
  sound : Sound s.locks
  held : ∀ e, Open endOf s.log e → Held s e
  separated : Separated conflicting endOf s.log

/-- `tab` shows `data` in a slot of a data page. -/
def Shows (files : String → Option RmFile) (tab : String) (rid : Rid) (data : List Byte) : Prop :=
  ∃ f, files tab = some f ∧ f.InSlots rid ∧ f.bytes rid = some data

def AllOk (files : String → Option RmFile) : Prop := ∀ tab f, files tab = some f → f.Ok

/-- What happens to the table files: descriptors stay, and if the operation was `proper`
the files stay well formed and show what they showed in every spared row. -/
structure FilesKept (proper : Prop) (spared : String → Rid → Prop) (files next : String → Option RmFile) : Prop where
  fd : ∀ tab f, files tab = some f → ∃ g, next tab = some g ∧ g.fd = f.fd
  ok : proper → AllOk files → AllOk next
  shows : proper → AllOk files → ∀ tab rid data, spared tab rid → Shows files tab rid data →
    Shows next tab rid data

theorem FilesKept.refl (proper : Prop) (spared : String → Rid → Prop) (files : String → Option RmFile) :
    FilesKept proper spared files files :=
  ⟨fun _ f here => ⟨f,here,rfl⟩,fun _ ok => ok,fun _ _ _ _ _ _ shown => shown⟩

theorem FilesKept.update {proper : Prop} {spared : String → Rid → Prop} {tab : String} {f next : RmFile}
    (here : files tab = some f) (fd : next.fd = f.fd)
    (fine : proper → f.Ok → next.Ok ∧ ∀ rid data, spared tab rid → f.InSlots rid →
      f.bytes rid = some data → next.InSlots rid ∧ next.bytes rid = some data) :
    FilesKept proper spared files (Function.update files tab (some next)) := by
  refine ⟨?_,?_,?_⟩
  · intro other g there
    by_cases same : other = tab
    · obtain rfl : f = g := Option.mem_unique here (same ▸ there)
      exact ⟨next,by simp [same],fd⟩
    · exact ⟨g,by simp [same,there],rfl⟩
  · intro holds ok other g there
    by_cases same : other = tab
    · obtain rfl : next = g := by simpa [same] using there
      exact (fine holds (ok tab f here)).1
    · exact ok other g (by simpa [same] using there)
  · rintro holds ok other rid data spare ⟨g,there,inside,shown⟩
    by_cases same : other = tab
    · obtain rfl : f = g := Option.mem_unique here (same ▸ there)
      have kept := (fine holds (ok tab f here)).2 rid data (same ▸ spare) inside shown
      exact ⟨next,by simp [same],kept⟩
    · exact ⟨g,by simp [same,there],inside,shown⟩

/-- Everything a record operation of `txn` can do. -/
inductive Did (txn : TxnId) (proper : Prop) (s : Db) : Db → Prop where
  | nothing {locks files} : Keeps s.locks locks →
      FilesKept proper (fun _ _ => True) s.files files →
      Did txn proper s ⟨locks,files,s.log⟩
  | read {locks tab rid f data} : Keeps s.locks locks → s.files tab = some f →
      Holds locks txn (.ofRecord f.fd rid) → (proper → Shows s.files tab rid data) →
      Did txn proper s ⟨locks,s.files,s.log ++ [.read txn tab rid data]⟩
  | wrote {locks files tab rid f} : Keeps s.locks locks → s.files tab = some f →
      HoldsX locks txn (.ofRecord f.fd rid) →
      FilesKept proper (fun tab' rid' => ¬ (tab' = tab ∧ rid' = rid)) s.files files →
      Did txn proper s ⟨locks,files,s.log ++ [.write txn tab rid]⟩

/-! ### The record operations -/

section Operations

variable (s : Db) (txn : TxnId) (tab : String) (rid : Rid) (buf : List Byte)

/-- Rows are read in slots of data pages. -/
def ProperGet : Prop := ∀ f ∈ s.files tab, f.InSlots rid

def ProperInsert : Prop := ∀ f ∈ s.files tab, buf.length = f.fileHdr.recordSize

def ProperUpdate : Prop := ∀ f ∈ s.files tab, f.InSlots rid ∧ buf.length = f.fileHdr.recordSize

/-- Only live rows are deleted. -/
def ProperDelete : Prop := ∀ f ∈ s.files tab, (f.contents rid).isSome = true

instance : Decidable (ProperGet s tab rid) := inferInstanceAs (Decidable (∀ f ∈ s.files tab, _))
instance : Decidable (ProperInsert s tab buf) := inferInstanceAs (Decidable (∀ f ∈ s.files tab, _))
instance : Decidable (ProperUpdate s tab rid buf) :=
  inferInstanceAs (Decidable (∀ f ∈ s.files tab, _))
instance : Decidable (ProperDelete s tab rid) := inferInstanceAs (Decidable (∀ f ∈ s.files tab, _))

theorem Did.idle {txn : TxnId} {proper : Prop} {s : Db} {locks : LockState} (keeps : Keeps s.locks locks) :
    Did txn proper s { s with locks := locks } :=
  Did.nothing keeps (FilesKept.refl _ _ _)

theorem fetched_page {f : RmFile} {pageNo : Int} {page : RmPage} (fetched : f.fetchPageHandle pageNo = .ok page) :
    f.pages pageNo = some page := by
  unfold fetchPageHandle at fetched
  split at fetched
  · simp at fetched
  · cases here : f.pages pageNo with
    | none => simp [here] at fetched
    | some found => simpa [here] using fetched

variable {s txn tab rid buf}

theorem getRecord_did (active : (s.locks.txns txn).state.ended = false) :
    Did txn (ProperGet s tab rid) s ((getRecord tab rid (some txn)).after s) := by
  refine row_cases (P := fun r => Did txn _ s r.2) (fileOf_bind_none · _) (fun _ here => getRecord_run here (some txn) rid)
    (Did.idle (Keeps.refl _)) (fun _ _ _ _ _ locked => Did.idle (rowLock_keeps (sharedOnRecord_keeps _ _ _) locked)) ?_
  intro f locks page here locked fetched
  obtain ⟨keeps,held⟩ := shared_held active locked
  apply Did.read keeps here held
  intro proper
  refine ⟨f,here,proper f here,?_⟩
  simp [bytes,fetched_page fetched]

theorem rid_toNat {f : RmFile} (inside : f.InSlots rid) :
    (⟨rid.pageNo,rid.slotNo.toNat⟩ : Rid) = rid := by
  rw [Int.toNat_of_nonneg inside.2.1]

theorem updateRecord_did (active : (s.locks.txns txn).state.ended = false) :
    Did txn (ProperUpdate s tab rid buf) s ((updateRecord tab rid buf (some txn)).after s) := by
  refine row_cases (P := fun r => Did txn _ s r.2) (fileOf_bind_none · _) (fun _ here => updateRecord_run here (some txn) rid buf)
    (Did.idle (Keeps.refl _)) (fun _ _ _ _ _ locked => Did.idle (rowLock_keeps (exclusiveOnRecord_keeps _ _ _) locked)) ?_
  intro f locks page here locked fetched
  obtain ⟨keeps,held⟩ := exclusive_held active locked
  apply Did.wrote keeps here held
  have fd : (f.overwriteRecord rid.pageNo page rid.slotNo.toNat buf).fd = f.fd := rfl
  apply FilesKept.update here fd
  intro proper ok
  obtain ⟨inside,size⟩ := proper f here
  have found := fetched_page fetched
  have bound : rid.slotNo.toNat < f.fileHdr.numRecordsPerPage := by
    have := inside.2
    omega
  refine ⟨(overwriteRecord_ok ok inside.1 found bound size).1,?_⟩
  intro rid' data other within shown
  refine ⟨within,?_⟩
  rw [overwriteRecord_bytes found buf within]
  · exact shown
  · rw [rid_toNat inside]
    exact fun same => other ⟨rfl,same⟩

theorem deleteRecord_did (active : (s.locks.txns txn).state.ended = false) :
    Did txn (ProperDelete s tab rid) s ((deleteRecord tab rid (some txn)).after s) := by
  refine row_cases (P := fun r => Did txn _ s r.2) (fileOf_bind_none · _) (fun _ here => deleteRecord_run here (some txn) rid)
    (Did.idle (Keeps.refl _)) (fun _ _ _ _ _ locked => Did.idle (rowLock_keeps (exclusiveOnRecord_keeps _ _ _) locked)) ?_
  intro f locks page here locked fetched
  obtain ⟨keeps,held⟩ := exclusive_held active locked
  apply Did.wrote keeps here held
  apply FilesKept.update here (eraseRecord_layout.2.2)
  intro proper ok
  obtain ⟨data,live⟩ := Option.isSome_iff_exists.mp (proper f here)
  have found := fetched_page fetched
  obtain ⟨page',nonzero,there,_,_,bound,bit,_⟩ := contents_live ok live
  obtain rfl : page' = page := Option.mem_unique there found
  refine ⟨(eraseRecord_ok ok nonzero found bound bit).1,?_⟩
  intro rid' data' _ within shown
  refine ⟨?_,by rw [eraseRecord_bytes ok found bound,shown]⟩
  unfold RmFile.InSlots
  rw [eraseRecord_layout.2.1]
  exact within

/-- A refused insertion may leave a new page; no row of an old page moves. -/
theorem insertRecord_did (active : (s.locks.txns txn).state.ended = false) :
    Did txn (ProperInsert s tab buf) s ((insertRecord tab buf (some txn)).after s) := by
  unfold after
  cases here : s.files tab with
  | none =>
    unfold insertRecord
    rw [fileOf_bind_none here]
    exact Did.idle (Keeps.refl _)
  | some f =>
    rw [insertRecord_run here]
    cases created : f.createPageHandle with
    | error e => exact Did.idle (Keeps.refl _)
    | ok made =>
      obtain ⟨p,page,next⟩ := made
      have fd : next.fd = f.fd := createPageHandle_fd created
      have fine : f.Ok → next.Ok ∧ ∀ rid data, f.InSlots rid → f.bytes rid = some data →
          next.InSlots rid ∧ next.bytes rid = some data := by
        intro ok
        obtain ⟨p',page',next',same,good,_,_,_,_,_,_,slots,_⟩ := createPageHandle_ok ok
        obtain ⟨_,_,rfl⟩ : p' = p ∧ page' = page ∧ next' = next := by
          simpa using same.symm.trans created
        refine ⟨good,fun rid data inside shown => ⟨?_,createPageHandle_bytes ok created inside shown⟩⟩
        unfold RmFile.InSlots
        rw [slots]
        exact inside
      simp only
      cases locked : rowLock lockExclusiveOnRecord (some txn)
          ⟨p,Bitmap.firstBit false page next.fileHdr.numRecordsPerPage⟩ next.fd s.locks with
      | mk result locks =>
        cases result with
        | error e =>
          apply Did.nothing (rowLock_keeps (exclusiveOnRecord_keeps _ _ _) locked)
          apply FilesKept.update here fd
          exact fun _ ok => ⟨(fine ok).1,fun rid data _ inside shown => (fine ok).2 rid data inside shown⟩
        | ok granted =>
          obtain ⟨keeps,held⟩ := exclusive_held active locked
          rw [fd] at held
          apply Did.wrote keeps here held
          apply FilesKept.update here (storeRecord_layout.2.2.trans fd)
          intro proper ok
          obtain ⟨good,kept⟩ := fine ok
          obtain ⟨p',page',next',same,_,_,first,nonzero,found,_,_,slots,width,room⟩ :=
            createPageHandle_ok ok
          obtain ⟨rfl,rfl,rfl⟩ : p' = p ∧ page' = page ∧ next' = next := by
            simpa using same.symm.trans created
          rw [← slots] at room
          have bound := Bitmap.firstBit_free page' _ room
          have clear := (Bitmap.firstBit_spec page' false next'.fileHdr.numRecordsPerPage).2.2 bound
          have size : buf.length = next'.fileHdr.recordSize := by rw [width,proper f here]
          refine ⟨(storeRecord_ok good nonzero found first bound clear size).1,?_⟩
          intro rid data other inside shown
          obtain ⟨within,still⟩ := kept rid data inside shown
          refine ⟨?_,?_⟩
          · unfold RmFile.InSlots
            rw [storeRecord_layout.2.1]
            exact within
          · rw [storeRecord_bytes good found bound buf within (fun same => other ⟨rfl,same⟩),still]

end Operations

/-! ### Isolation is kept -/

/-- One transaction reads two different values of a row. -/
def differing : Access → Access → Prop
  | .read txn tab rid data, .read other tab' rid' data' =>
    txn = other ∧ tab = tab' ∧ rid = rid' ∧ data ≠ data'
  | _, _ => False

/-- The reader writes the row itself. -/
def ownWrite : Access → Access → Prop
  | .read txn tab rid _, x => x = .write txn tab rid
  | _, _ => False

/-- The files show what open reads returned. -/
structure Repeats (s : Db) : Prop where
  ok : AllOk s.files
  shown : ∀ txn tab rid data,
    Open (fun e x => ownWrite e x ∨ endOf e x) s.log (.read txn tab rid data) →
    Shows s.files tab rid data
  isOver : ∀ txn, .ended txn ∈ s.log → (s.locks.txns txn).state.ended = true
  separated : Separated differing ownWrite s.log

/-- The invariant of every run, and of the runs whose steps are all proper. -/
structure Inv (proper : Prop) (s : Db) : Prop where
  strict : Strict s
  repeats : proper → Repeats s

theorem Shows.unique {tab : String} {rid : Rid} {data other : List Byte} (first : Shows files tab rid data)
    (second : Shows files tab rid other) :
    data = other := by
  obtain ⟨f,here,_,shown⟩ := first
  obtain ⟨g,there,_,again⟩ := second
  obtain rfl : f = g := Option.mem_unique here there
  exact Option.mem_unique shown again

theorem Held.keep {s : Db} {locks : LockState} {log : List Access} (held : Held s e) (keeps : Keeps s.locks locks)
    (fd : ∀ tab f, s.files tab = some f → ∃ g, files tab = some g ∧ g.fd = f.fd) :
    Held ⟨locks,files,log⟩ e := by
  cases e with
  | read txn tab rid data =>
    obtain ⟨f,here,lock⟩ := held
    obtain ⟨g,there,same⟩ := fd tab f here
    exact ⟨g,there,by rw [same]; exact keeps.holds _ _ lock⟩
  | write txn tab rid =>
    obtain ⟨f,here,lock⟩ := held
    obtain ⟨g,there,same⟩ := fd tab f here
    exact ⟨g,there,by rw [same]; exact keeps.holdsX _ _ lock⟩
  | ended txn => trivial

section Conflicts

variable {s : Db} {locks : LockState} {txn : TxnId} {tab : String} {rid : Rid} {f : RmFile}

/-- Whoever reads a row under a lock meets no open write of another transaction. -/
theorem Strict.no_writer (strict : Strict s) (keeps : Keeps s.locks locks) (here : s.files tab = some f)
    (lock : Holds locks txn (.ofRecord f.fd rid)) (data : List Byte) (e : Access) (opened : Open endOf s.log e) :
    ¬ conflicting e (.read txn tab rid data) := by
  intro clash
  cases e with
  | read => exact clash
  | ended => exact clash
  | write other tab' rid' =>
    obtain ⟨apart,rfl,rfl⟩ := clash
    obtain ⟨g,there,exclusive⟩ := strict.held _ opened
    obtain rfl : f = g := Option.mem_unique here there
    exact apart (holdsX_alone (keeps.sound strict.sound) (keeps.holdsX _ _ exclusive) lock).symm

/-- Whoever writes a row under a lock meets no open access of another transaction. -/
theorem Strict.no_other (strict : Strict s) (keeps : Keeps s.locks locks) (here : s.files tab = some f)
    (lock : HoldsX locks txn (.ofRecord f.fd rid)) (e : Access) (opened : Open endOf s.log e) :
    ¬ conflicting e (.write txn tab rid) := by
  intro clash
  cases e with
  | read other tab' rid' data =>
    obtain ⟨apart,rfl,rfl⟩ := clash
    obtain ⟨g,there,held⟩ := strict.held _ opened
    obtain rfl : f = g := Option.mem_unique here there
    exact apart (holdsX_alone (keeps.sound strict.sound) lock (keeps.holds _ _ held))
  | write other tab' rid' =>
    obtain ⟨apart,rfl,rfl⟩ := clash
    obtain ⟨g,there,held⟩ := strict.held _ opened
    obtain rfl : f = g := Option.mem_unique here there
    exact apart (holdsX_alone (keeps.sound strict.sound) lock (keeps.holdsX _ _ held).holds)
  | ended => exact clash

end Conflicts

theorem Did.strict {txn : TxnId} {s next : Db} (did : Did txn proper s next) (strict : Strict s) : Strict next := by
  cases did with
  | nothing keeps kept =>
    exact ⟨keeps.sound strict.sound,fun e opened => (strict.held e opened).keep keeps kept.fd,
      strict.separated⟩
  | read keeps here lock _ =>
    refine ⟨keeps.sound strict.sound,?_,strict.separated.append (strict.no_writer keeps here lock _)⟩
    intro e opened
    rcases open_append.mp opened with rfl | ⟨old,_⟩
    · exact ⟨_,here,lock⟩
    · exact (strict.held e old).keep keeps (fun _ f there => ⟨f,there,rfl⟩)
  | wrote keeps here lock kept =>
    refine ⟨keeps.sound strict.sound,?_,strict.separated.append (strict.no_other keeps here lock)⟩
    intro e opened
    rcases open_append.mp opened with rfl | ⟨old,_⟩
    · obtain ⟨g,there,same⟩ := kept.fd _ _ here
      exact ⟨g,there,by rw [same]; exact lock⟩
    · exact (strict.held e old).keep keeps kept.fd

theorem Did.repeats {txn : TxnId} {s next : Db} (did : Did txn proper s next)
    (active : (s.locks.txns txn).state.ended = false) (holds : proper) (strict : Strict s) (repeats : Repeats s) :
    Repeats next := by
  cases did with
  | nothing keeps kept =>
    refine ⟨kept.ok holds repeats.ok,?_,?_,repeats.separated⟩
    · intro other tab rid data opened
      exact kept.shows holds repeats.ok _ _ _ trivial (repeats.shown _ _ _ _ opened)
    · intro other member
      rw [keeps.ended]
      exact repeats.isOver other member
  | @read locks tab rid f data keeps here lock shows =>
    refine ⟨repeats.ok,?_,?_,?_⟩
    · intro other tab' rid' data' opened
      rcases open_append.mp opened with same | ⟨old,_⟩
      · cases same
        exact shows holds
      · exact repeats.shown _ _ _ _ old
    · intro other member
      rw [keeps.ended]
      exact repeats.isOver other (by simpa using member)
    · apply repeats.separated.append
      intro e opened clash
      cases e with
      | write => exact clash
      | ended => exact clash
      | read other tab' rid' data' =>
        obtain ⟨rfl,rfl,rfl,apart⟩ := clash
        -- the transaction is still running, so only its own write could close the read
        have running : ∀ x ∈ s.log, ¬ endOf (.read other tab' rid' data') x := by
          rintro x member rfl
          rw [repeats.isOver other member] at active
          contradiction
        exact apart ((repeats.shown _ _ _ _ (opened.or running)).unique (shows holds))
  | @wrote locks files tab rid f keeps here lock kept =>
    refine ⟨kept.ok holds repeats.ok,?_,?_,?_⟩
    · intro other tab' rid' data opened
      rcases open_append.mp opened with same | ⟨old,still⟩
      · cases same
      · refine kept.shows holds repeats.ok _ _ _ ?_ (repeats.shown _ _ _ _ old)
        rintro ⟨rfl,rfl⟩
        by_cases own : other = txn
        · subst other
          exact still (.inl rfl)
        · obtain ⟨before,later,split,unclosed⟩ := old
          have opened' : Open endOf s.log (.read other tab' rid' data) :=
            ⟨before,later,split,fun x member ends => unclosed x member (.inr ends)⟩
          exact strict.no_other keeps here lock _ opened' ⟨own,rfl,rfl⟩
    · intro other member
      rw [keeps.ended]
      exact repeats.isOver other (by simpa using member)
    · apply repeats.separated.append
      intro e _ clash
      cases e <;> exact clash

theorem Did.inv {txn : TxnId} {s next : Db} (did : Did txn proper s next)
    (active : (s.locks.txns txn).state.ended = false) (holds : flag → proper) (inv : Inv flag s) :
    Inv flag next ∧ (next.locks.txns txn).state.ended = false := by
  refine ⟨⟨did.strict inv.strict,fun flagged =>
    did.repeats active (holds flagged) inv.strict (inv.repeats flagged)⟩,?_⟩
  cases did with
  | nothing keeps _ => exact (keeps.ended txn).trans active
  | read keeps _ _ _ => exact (keeps.ended txn).trans active
  | wrote keeps _ _ _ => exact (keeps.ended txn).trans active

/-! ### Commit and abort -/

/-- The locks of the other transactions stay, and no transaction ends. -/
structure Releases (txn : TxnId) (s next : LockState) : Prop where
  sound : Sound s → Sound next
  holds : ∀ other id, other ≠ txn → Holds s other id → Holds next other id
  holdsX : ∀ other id, other ≠ txn → HoldsX s other id → HoldsX next other id
  ended : ∀ other, (next.txns other).state.ended = (s.txns other).state.ended

theorem Keeps.releases {s next : LockState} (keeps : Keeps s next) (txn : TxnId) :
    Releases txn s next :=
  ⟨keeps.sound,fun _ _ _ held => keeps.holds _ _ held,fun _ _ _ held => keeps.holdsX _ _ held,
    keeps.ended⟩

theorem Releases.trans {a b c : LockState} (first : Releases txn a b) (second : Releases txn b c) : Releases txn a c :=
  ⟨fun sound => second.sound (first.sound sound),
    fun _ _ apart held => second.holds _ _ apart (first.holds _ _ apart held),
    fun _ _ apart held => second.holdsX _ _ apart (first.holdsX _ _ apart held),
    fun other => (second.ended other).trans (first.ended other)⟩

theorem eraseRequest_txns (txn : TxnId) (id : LockDataId) (s : LockState) :
    ((eraseRequest txn id).after s).txns = s.txns := by
  cases present : s.lockTable id with
  | none => simp [eraseRequest,after,bind_run,present]
  | some q =>
    cases found : findRequest txn q.requestQueue <;>
      simp [eraseRequest,after,bind_run,present,found]

theorem unlock_txns (txn : TxnId) (id : LockDataId) (s : LockState) :
    ((unlock txn id).after s).txns =
      if (s.txns txn).state = .growing then (s.setTxnState txn .shrinking).txns else s.txns := by
  by_cases growing : (s.txns txn).state = .growing
  · have run : (unlock txn id).after s = (eraseRequest txn id).after (s.setTxnState txn .shrinking) := by
      simp [unlock,after,bind_run,growing,TransactionState.ended]
    rw [run,eraseRequest_txns,if_pos growing]
  rw [if_neg growing]
  by_cases isOver : (s.txns txn).state.ended = true
  · simp [unlock,after,bind_run,isOver]
  · have run : (unlock txn id).after s = (eraseRequest txn id).after s := by
      simp [unlock,after,bind_run,isOver,growing]
    rw [run,eraseRequest_txns]

theorem unlock_ended (txn other : TxnId) (id : LockDataId) (s : LockState) :
    (((unlock txn id).after s).txns other).state.ended = (s.txns other).state.ended := by
  rw [unlock_txns]
  split
  · rename_i growing
    by_cases same : other = txn
    · subst other
      simp [setTxnState,growing,TransactionState.ended]
    · simp [setTxnState,same]
  · rfl

theorem released_survives {own : LockRequest} (found : findRequest txn q.requestQueue = some own)
    (member : r ∈ q.requestQueue) (apart : r.txnId ≠ txn) : r ∈ (q.released txn own.lockMode).requestQueue := by
  obtain ⟨before,later,split,mine,others⟩ := findRequest_split found
  simp only [LockRequestQueue.released,split,eraseP_split txn before later own mine others]
  rw [split] at member
  rcases List.mem_append.mp member with left | right
  · exact List.mem_append_left _ left
  · rcases List.mem_cons.mp right with here | far
    · exact absurd (here ▸ mine) apart
    · exact List.mem_append_right _ far

theorem unlock_releases (txn : TxnId) (id : LockDataId) (s : LockState) :
    Releases txn s ((unlock txn id).after s) := by
  have survives : ∀ other, ∀ r ∈ (s.queue other).requestQueue, r.txnId ≠ txn →
      r ∈ (((unlock txn id).after s).queue other).requestQueue := by
    intro other r member apart
    rcases unlock_outcome txn id s with ⟨_,run⟩ | ⟨_,moved,table,_,⟨run,_⟩ | ⟨q,own,present,found,run⟩⟩
    · simpa [after,run] using member
    · simpa [after,run,queue,table] using member
    · have shape : ((unlock txn id).after s).queue other =
          if other = id then q.released txn own.lockMode else s.queue other := by
        apply queue_of_table
        simp [after,run,setQueue,table]
      rw [shape]
      by_cases same : other = id
      · rw [if_pos same]
        rw [same,queue,present] at member
        exact released_survives found member apart
      · rw [if_neg same]
        exact member
  refine ⟨unlock_sound txn id s,?_,?_,fun other => unlock_ended txn other id s⟩
  · rintro other id' apart ⟨r,member,own⟩
    exact ⟨r,survives id' r member (own ▸ apart),own⟩
  · rintro other id' apart ⟨r,member,own,isX⟩
    exact ⟨r,survives id' r member (own ▸ apart),own,isX⟩

/-- What every `unlock` of the loop keeps, with the locks that are still to be released. -/
theorem unlockAll_run (txn : TxnId) {P : List LockDataId → LockState → Prop}
    (keeps : ∀ id rest s, P (id :: rest) s → P rest ((unlock txn id).after s)) (ids : List LockDataId) (s : Db)
    (initial : P ids s.locks) : ∃ locks, unlockAll txn ids s = (.ok (),{ s with locks := locks }) ∧ P [] locks := by
  induction ids generalizing s with
  | nil => exact ⟨s.locks,rfl,initial⟩
  | cons id rest ih =>
    obtain ⟨b,run⟩ : ∃ b, (unlock txn id s.locks).1 = .ok b := by
      rcases unlock_outcome txn id s.locks with ⟨_,run⟩ | ⟨_,_,_,_,⟨run,_⟩ | ⟨_,_,_,_,run⟩⟩ <;>
        exact ⟨_,by rw [run]⟩
    obtain ⟨locks,later,last⟩ := ih { s with locks := (unlock txn id).after s.locks } (keeps id rest s.locks initial)
    exact ⟨locks,by simpa [unlockAll,bind_run,onLocks,run,Except.mapError,after] using later,last⟩

theorem setTxn_keeps (s : Db) (txn : TxnId) (change : Transaction → Transaction)
    (same : ∀ t, (change t).state = t.state) :
    ∃ locks, (setTxn txn change) s = (.ok (),{ s with locks := locks }) ∧ Keeps s.locks locks := by
  refine ⟨_,rfl,fun sound => sound,fun _ _ held => held,fun _ _ held => held,?_⟩
  intro other
  by_cases own : other = txn
  · subst other
    simp [same]
  · simp [own]

theorem release_run (txn : TxnId) (final : TransactionState) (isOver : final.ended = true) (s : Db) :
    ∃ locks, release txn final s = (.ok (),⟨locks,s.files,s.log ++ [.ended txn]⟩) ∧
      (Sound s.locks → Sound locks) ∧
      (∀ other id, other ≠ txn → Holds s.locks other id → Holds locks other id) ∧
      (∀ other id, other ≠ txn → HoldsX s.locks other id → HoldsX locks other id) ∧
      (∀ other, other ≠ txn → (locks.txns other).state.ended = (s.locks.txns other).state.ended) ∧
      (locks.txns txn).state.ended = true := by
  obtain ⟨freed,loop,released⟩ := unlockAll_run txn (P := fun _ => Releases txn s.locks)
    (fun id _ now released => released.trans (unlock_releases txn id now)) (s.locks.txns txn).lockSet s ((Keeps.refl _).releases txn)
  obtain ⟨emptied,cleared,keeps⟩ := setTxn_keeps { s with locks := freed } txn
    (fun t => { t with lockSet := [] }) (fun _ => rfl)
  have all := released.trans (keeps.releases txn)
  let last : Transaction := { emptied.txns txn with state := final }
  refine ⟨{ emptied with txns := Function.update emptied.txns txn last },?_,all.sound,all.holds,all.holdsX,?_,?_⟩
  · simp only [release,bind_run,state_run,loop,cleared]
    rfl
  · intro other apart
    simp only [Function.update_of_ne apart]
    exact all.ended other
  · simpa [last] using isOver

theorem commit_files (txn : TxnId) (s : Db) : ((commit txn).after s).files = s.files := by
  obtain ⟨locks,run,_⟩ := release_run txn .committed rfl ((setTxn txn fun t => { t with writeSet := [] }).after s)
  exact congrArg (fun r => r.2.files) run

theorem release_inv (txn : TxnId) (final : TransactionState) (isOver : final.ended = true) (inv : Inv flag s) :
    Inv flag ((release txn final).after s) := by
  obtain ⟨locks,run,sound,holds,holdsX,ended,finished⟩ := release_run txn final isOver s
  rw [after,run]
  have strict := inv.strict
  refine ⟨⟨sound strict.sound,?_,?_⟩,?_⟩
  · intro e opened
    rcases open_append.mp opened with rfl | ⟨old,still⟩
    · trivial
    · have held := strict.held e old
      cases e with
      | read other tab rid data =>
        obtain ⟨f,here,lock⟩ := held
        exact ⟨f,here,holds _ _ (fun same => still (by simp [endOf,txnOf,same])) lock⟩
      | write other tab rid =>
        obtain ⟨f,here,lock⟩ := held
        exact ⟨f,here,holdsX _ _ (fun same => still (by simp [endOf,txnOf,same])) lock⟩
      | ended => trivial
  · apply strict.separated.append
    intro e _ clash
    cases e <;> exact clash
  · intro flagged
    have repeats := inv.repeats flagged
    refine ⟨repeats.ok,?_,?_,?_⟩
    · intro other tab rid data opened
      rcases open_append.mp opened with same | ⟨old,_⟩
      · cases same
      · exact repeats.shown _ _ _ _ old
    · intro other member
      by_cases same : other = txn
      · rw [same]
        exact finished
      · rw [ended other same]
        exact repeats.isOver other (by simpa [same] using member)
    · apply repeats.separated.append
      intro e _ clash
      cases e <;> exact clash

theorem setTxn_inv (txn : TxnId) (change : Transaction → Transaction) (same : ∀ t, (change t).state = t.state)
    (inv : Inv flag s) (active : (s.locks.txns txn).state.ended = false) :
    Inv flag ((setTxn txn change).after s) := by
  obtain ⟨locks,run,keeps⟩ := setTxn_keeps s txn change same
  have idle : Did txn True s ((setTxn txn change).after s) := by
    unfold after
    rw [run]
    exact Did.idle keeps
  exact (idle.inv active (fun _ => trivial) inv).1

/-- The condition of `undo` in the state it starts from. -/
def ProperUndo (s : Db) (w : WriteRecord) : Prop :=
  match w.wtype with
  | .insertTuple => ProperDelete s w.tabName w.rid
  | .deleteTuple => ProperInsert s w.tabName w.record
  | .updateTuple => ProperUpdate s w.tabName w.rid w.record

/-- Every undo of the loop meets its condition; one that throws ends the loop. -/
def ProperUndoAll (txn : TxnId) : List WriteRecord → Db → Prop
  | [], _ => True
  | w :: rest, s => ProperUndo s w ∧
      ((undo txn w s).1.isOk = true → ProperUndoAll txn rest ((undo txn w).after s))

instance (s : Db) : ∀ w, Decidable (ProperUndo s w)
  | ⟨.insertTuple,tab,rid,_⟩ => inferInstanceAs (Decidable (ProperDelete s tab rid))
  | ⟨.deleteTuple,tab,_,record⟩ => inferInstanceAs (Decidable (ProperInsert s tab record))
  | ⟨.updateTuple,tab,rid,record⟩ => inferInstanceAs (Decidable (ProperUpdate s tab rid record))

instance ProperUndoAll.decidable (txn : TxnId) :
    ∀ writes s, Decidable (ProperUndoAll txn writes s)
  | [], _ => isTrue trivial
  | w :: rest, s =>
    have := ProperUndoAll.decidable txn rest ((undo txn w).after s)
    inferInstanceAs (Decidable (_ ∧ (_ → _)))

theorem undo_did (w : WriteRecord) (active : (s.locks.txns txn).state.ended = false) :
    Did txn (ProperUndo s w) s ((undo txn w).after s) := by
  unfold undo ProperUndo
  cases w.wtype with
  | insertTuple => exact deleteRecord_did active
  | updateTuple => exact updateRecord_did active
  | deleteTuple =>
    have same : ((do
        let _ ← insertRecord w.tabName w.record (some txn)
        pure () : DbCall Unit).after s) = (insertRecord w.tabName w.record (some txn)).after s := by
      simp only [after,bind_run]
      cases insertRecord w.tabName w.record (some txn) s with
      | mk result next => cases result <;> rfl
    simp only
    rw [same]
    exact insertRecord_did active

theorem undoAll_inv (writes : List WriteRecord) (active : (s.locks.txns txn).state.ended = false)
    (proper : flag → ProperUndoAll txn writes s) (inv : Inv flag s) :
    Inv flag ((undoAll txn writes).after s) ∧
    (((undoAll txn writes).after s).locks.txns txn).state.ended = false := by
  induction writes generalizing s with
  | nil => exact ⟨inv,active⟩
  | cons w rest ih =>
    have first := (undo_did w active).inv active (fun flagged => (proper flagged).1) inv
    unfold after at first ih ⊢
    rw [undoAll,bind_run]
    cases ran : undo txn w s with
    | mk result next =>
      rw [ran] at first
      cases result with
      | error e => exact first
      | ok _ =>
        apply ih first.2 _ first.1
        intro flagged
        have later := (proper flagged).2 (by rw [ran]; rfl)
        simpa [after,ran] using later

/-- A condition on every step: rows are read and updated in slots of data pages, buffers
have the record size, and only live rows are deleted, also by an abort. -/
def Proper (s : Db) : TxnId × TxnStep → Prop
  | (_,.get tab rid) => ProperGet s tab rid
  | (_,.insert tab buf) => ProperInsert s tab buf
  | (_,.update tab rid buf) => ProperUpdate s tab rid buf
  | (_,.delete tab rid) => ProperDelete s tab rid
  | (txn,.abort) => ProperUndoAll txn (s.locks.txns txn).writeSet.reverse s
  | _ => True

instance (s : Db) : ∀ a, Decidable (Proper s a)
  | (_,.get tab rid) => inferInstanceAs (Decidable (ProperGet s tab rid))
  | (_,.insert tab buf) => inferInstanceAs (Decidable (ProperInsert s tab buf))
  | (_,.update tab rid buf) => inferInstanceAs (Decidable (ProperUpdate s tab rid buf))
  | (_,.delete tab rid) => inferInstanceAs (Decidable (ProperDelete s tab rid))
  | (txn,.abort) =>
    inferInstanceAs (Decidable (ProperUndoAll txn (s.locks.txns txn).writeSet.reverse s))
  | (_,.append _) | (_,.commit) => isTrue trivial

theorem abort_inv (active : (s.locks.txns txn).state.ended = false)
    (proper : flag → ProperUndoAll txn (s.locks.txns txn).writeSet.reverse s) (inv : Inv flag s) :
    Inv flag ((abort txn).after s) := by
  obtain ⟨undone,running⟩ := undoAll_inv _ active proper inv
  unfold after at undone running ⊢
  simp only [abort,bind_run,state_run]
  cases ran : undoAll txn (s.locks.txns txn).writeSet.reverse s with
  | mk result next =>
    rw [ran] at undone running
    cases result with
    | error e => exact undone
    | ok _ =>
      apply release_inv txn .aborted rfl
      exact setTxn_inv txn (fun t => { t with writeSet := [] }) (fun _ => rfl) undone running

theorem step_inv (s : Db) (a : TxnId × TxnStep) (inv : Inv flag s) (admissible : Active s a ∧ (flag → Proper s a)) :
    Inv flag (step s a) := by
  obtain ⟨active,proper⟩ := admissible
  obtain ⟨txn,call⟩ := a
  cases call with
  | get tab rid => exact ((getRecord_did active).inv active proper inv).1
  | insert tab buf => exact ((insertRecord_did active).inv active proper inv).1
  | update tab rid buf => exact ((updateRecord_did active).inv active proper inv).1
  | delete tab rid => exact ((deleteRecord_did active).inv active proper inv).1
  | append w => exact setTxn_inv txn _ (fun _ => rfl) inv active
  | commit =>
    apply release_inv txn .committed rfl
    exact setTxn_inv txn (fun t => { t with writeSet := [] }) (fun _ => rfl) inv active
  | abort => exact abort_inv active proper inv

theorem start_inv (txns : TxnId → Transaction) (files : String → Option RmFile) (ok : flag → AllOk files) :
    Inv flag (Db.start txns files) := by
  refine ⟨⟨?_,?_,separated_nil⟩,fun flagged => ⟨ok flagged,?_,?_,separated_nil⟩⟩
  · intro id q present
    simp [Db.start,LockManager.start] at present
  · intro e opened
    exact absurd opened not_open_nil
  · intro txn tab rid data opened
    exact absurd opened not_open_nil
  · intro txn member
    exact absurd member List.not_mem_nil

/-- In every run of active transactions, conflicting accesses to a row are separated by the
end of the first transaction. If the steps are proper as well, two reads of a row by one
transaction return the same bytes unless it wrote the row in between. -/
theorem record_isolation (txns : TxnId → Transaction) (files : String → Option RmFile) (run : List (TxnId × TxnStep))
    (active : Guarded step Active (Db.start txns files) run) :
    Separated conflicting endOf (run.foldl step (Db.start txns files)).log ∧
    (AllOk files → Guarded step Proper (Db.start txns files) run →
      Separated differing ownWrite (run.foldl step (Db.start txns files)).log) := by
  have holds : ∀ flag : Prop, (flag → AllOk files ∧ Guarded step Proper (Db.start txns files) run) →
      Inv flag (run.foldl step (Db.start txns files)) := by
    intro flag fine
    exact guarded_invariant (Inv flag) step_inv _ (start_inv txns files fun flagged => (fine flagged).1)
      run (active.and_if fun flagged => (fine flagged).2)
  refine ⟨(holds False fun never => never.elim).strict.separated,?_⟩
  intro ok proper
  exact ((holds True fun _ => ⟨ok,proper⟩).repeats trivial).separated

/-- A new table of 453-byte rows: eight to a page, and one bitmap byte. -/
def wideTable : String → Option RmFile := fun _ => some (openNew (initialHdr 453) 5 none)

theorem wideTable_ok : AllOk wideTable := by
  intro tab f here
  obtain rfl : openNew (initialHdr 453) 5 none = f := Option.some.inj here
  exact (openNew_ok (initialHdr_geometry 453 (by decide) (by decide)) rfl rfl 5 none).1

def blankRow : List Byte := List.replicate 453 0

/-- Transaction 1 fills a page. Transaction 3 reads its first row before and after
transaction 2 deletes the last row twice and inserts two rows. -/
def doubleDelete : List (TxnId × TxnStep) :=
  List.replicate 8 (1,.insert "t" blankRow) ++
    [(1,.commit),(3,.get "t" ⟨1,0⟩),(2,.delete "t" ⟨1,7⟩),(2,.delete "t" ⟨1,7⟩),
      (2,.insert "t" blankRow),(2,.insert "t" blankRow),(3,.get "t" ⟨1,0⟩)]

/-- The access with only the first byte it read. -/
def brief : Access → Access
  | .read txn tab rid data => .read txn tab rid (data.take 1)
  | x => x

theorem brief_read {tab : String} {rid : Rid} {head : List Byte} (short : brief e = .read txn tab rid head) :
    ∃ data, e = .read txn tab rid data ∧ data.take 1 = head := by
  cases e with
  | read txn' tab' rid' data =>
    simp only [brief,Access.read.injEq] at short
    obtain ⟨rfl,rfl,rfl,rfl⟩ := short
    exact ⟨data,rfl,rfl⟩
  | write => simp [brief] at short
  | ended => simp [brief] at short

/-- The second deletion makes the page's record count too small, so an insertion takes slot
8, whose bit is the top bit of the first row's first byte. -/
theorem double_delete_unrepeatable :
    AllOk wideTable ∧ Guarded step Active (Db.start (fun _ => {}) wideTable) doubleDelete ∧
    ¬ Separated differing ownWrite (doubleDelete.foldl step (Db.start (fun _ => {}) wideTable)).log := by
  refine ⟨wideTable_ok,by decide +kernel,?_⟩
  intro separated
  have shape : (doubleDelete.foldl step (Db.start (fun _ => {}) wideTable)).log.map brief =
      ([.write 1 "t" ⟨1,0⟩,.write 1 "t" ⟨1,1⟩,.write 1 "t" ⟨1,2⟩,.write 1 "t" ⟨1,3⟩,
        .write 1 "t" ⟨1,4⟩,.write 1 "t" ⟨1,5⟩,.write 1 "t" ⟨1,6⟩,.write 1 "t" ⟨1,7⟩,.ended 1] ++
      .read 3 "t" ⟨1,0⟩ [0] :: ([.write 2 "t" ⟨1,7⟩,.write 2 "t" ⟨1,7⟩,.write 2 "t" ⟨1,7⟩,
        .write 2 "t" ⟨1,8⟩] ++ .read 3 "t" ⟨1,0⟩ [128] :: [])) := by
    decide +kernel
  obtain ⟨before,rest,split,_,tail⟩ := List.map_eq_append_iff.mp shape
  obtain ⟨first,rest,rfl,short,tail⟩ := List.map_eq_cons_iff.mp tail
  obtain ⟨between,rest,rfl,writes,tail⟩ := List.map_eq_append_iff.mp tail
  obtain ⟨second,rest,rfl,short',_⟩ := List.map_eq_cons_iff.mp tail
  obtain ⟨data,rfl,head⟩ := brief_read short
  obtain ⟨data',rfl,head'⟩ := brief_read short'
  have apart : data ≠ data' := by
    rintro rfl
    rw [head] at head'
    exact absurd head' (by decide)
  obtain ⟨y,member,own⟩ := separated _ _ _ _ _ split ⟨rfl,rfl,rfl,apart⟩
  obtain rfl : y = .write 3 "t" ⟨1,0⟩ := own
  have listed := List.mem_map_of_mem (f := brief) member
  rw [writes] at listed
  exact absurd listed (by decide)

/-- A reader, a refused writer, and a transaction that undoes its insertion. -/
def readersAndUndo : List (TxnId × TxnStep) :=
  [(1,.insert "t" blankRow),(2,.get "t" ⟨1,0⟩),(1,.commit),(3,.get "t" ⟨1,0⟩),
    (2,.update "t" ⟨1,0⟩ blankRow),(2,.insert "t" blankRow),
    (2,.append ⟨.insertTuple,"t",⟨1,1⟩,[]⟩),(2,.abort),(3,.get "t" ⟨1,0⟩)]

theorem readersAndUndo_isolated :
    Guarded step Active (Db.start (fun _ => {}) wideTable) readersAndUndo ∧
    Separated conflicting endOf (readersAndUndo.foldl step (Db.start (fun _ => {}) wideTable)).log ∧
    Separated differing ownWrite (readersAndUndo.foldl step (Db.start (fun _ => {}) wideTable)).log := by
  have active : Guarded step Active (Db.start (fun _ => {}) wideTable) readersAndUndo := by
    decide +kernel
  have proper : Guarded step Proper (Db.start (fun _ => {}) wideTable) readersAndUndo := by
    decide +kernel
  have isolated := record_isolation (fun _ => {}) wideTable readersAndUndo active
  exact ⟨active,isolated.1,isolated.2 wideTable_ok proper⟩

end Rucbase.Isolation
