import Rucbase.WriteSet

/-! Aborting a transaction beside others. `abort` asks for locks of its own: those on the rows it
wrote are held already, but a deleted row is inserted into whatever slot is free, and another
transaction may have that slot locked. -/
namespace Rucbase.AbortRuns

open Lib Lib.Prog Db Isolation WriteSet RmFile
open LockManager hiding step start
open TwoPhase hiding Tracked.same

/-! ### Row locks -/

/-- Only S and X are asked for on rows, and a queue without requests is free. -/
structure RowQueue (q : LockRequestQueue) : Prop where
  modes : ∀ r ∈ q.requestQueue, r.lockMode = .shared ∨ r.lockMode = .exclusive
  free : q.requestQueue = [] → q.groupLockMode = .nonLock

def RowQueues (s : LockState) : Prop := ∀ fd rid, RowQueue (s.queue (.ofRecord fd rid))

theorem RowQueues.each {s : LockState} (rows : RowQueues s) (id : LockDataId) (q : LockRequestQueue)
    (present : s.lockTable id = some q) : (∃ fd rid, id = .ofRecord fd rid) → RowQueue q := by
  rintro ⟨fd,rid,rfl⟩
  simpa [LockState.queue,present] using rows fd rid

theorem RowQueues.same {s next : LockState} (rows : RowQueues s) (table : next.lockTable = s.lockTable) : RowQueues next :=
  fun fd rid => by rw [LockState.queue,table]; exact rows fd rid

/-- A rule that asks for S or X and raises to X. -/
structure RowMode (rule : LockRule) : Prop where
  mode : rule.mode = .shared ∨ rule.mode = .exclusive
  raises : ∀ q mode next group shared ix, rule.own q mode = .upgrade next group shared ix → next = .exclusive

theorem sharedOnRecord_mode : RowMode sharedOnRecord := ⟨.inl rfl,fun _ _ _ _ _ _ own => nomatch own⟩

theorem exclusiveOnRecord_mode : RowMode exclusiveOnRecord :=
  ⟨.inr rfl,fun _ _ _ _ _ _ own => exclusiveOnRecord_upgrade own⟩

theorem acquire_rowQueues {rule : LockRule} (row : RowMode rule) (txn : TxnId) (id : LockDataId) (s : LockState)
    (rows : RowQueues s) : RowQueues ((acquire rule txn id).after s) := by
  intro fd rid
  refine ⟨fun r member => ?_,fun empty => ?_⟩
  · rcases acquire_new rule txn id s member with old | ⟨_,_,mode | ⟨_,_,_,_,_,raised⟩⟩
    · exact (rows fd rid).modes r old
    · exact mode ▸ row.mode
    · exact .inr (row.raises _ _ _ _ _ _ raised)
  · rcases acquire_queue rule txn id s (.ofRecord fd rid) with
      same | ⟨rfl,⟨r,mode,group,shared,ix,found,_,raised⟩ | granted⟩
    · rw [same] at empty ⊢
      exact (rows fd rid).free empty
    · obtain ⟨first,later,_,_,requests⟩ := upgraded_split found mode group shared ix
      simp [raised,requests] at empty
    · simp [granted,LockRequestQueue.granting] at empty

theorem unlock_rowQueues (txn : TxnId) (id : LockDataId) (s : LockState) (rows : RowQueues s) :
    RowQueues ((unlock txn id).after s) := by
  intro fd rid
  refine queue_of_each (P := fun id q => (∃ fd rid, id = .ofRecord fd rid) → RowQueue q) (unlock_each rows.each ?_)
    (fun _ => ⟨by simp,fun _ => rfl⟩) ⟨fd,rid,rfl⟩
  intro _ q r present _ isRow
  have before := rows.each id q present isRow
  refine ⟨fun other member => before.modes other (List.mem_of_mem_eraseP member),fun empty => ?_⟩
  simp only [LockRequestQueue.released] at empty ⊢
  rw [empty]
  rfl

/-- No other transaction has the row locked. -/
def Free (txn : TxnId) (s : LockState) (fd : Int) (rid : Rid) : Prop :=
  ∀ r ∈ (s.queue (.ofRecord fd rid)).requestQueue, r.txnId = txn

theorem Free.single {s : LockState} {txn : TxnId} {fd : Int} {rid : Rid} (free : Free txn s fd rid) (sound : Sound s) :
    (s.queue (.ofRecord fd rid)).requestQueue.length ≤ 1 := by
  have same := List.map_eq_replicate_iff.mpr free
  have distinct := (sound.queue (.ofRecord fd rid)).single
  rwa [same,List.nodup_replicate] at distinct

theorem Free.not_refused {s : LockState} {txn : TxnId} {fd : Int} {rid : Rid} (free : Free txn s fd rid) (sound : Sound s)
    (rows : RowQueues s) (early : (s.txns txn).state ≠ .shrinking) : ¬Refuses exclusiveOnRecord txn (.ofRecord fd rid) s := by
  have few := free.single sound
  have row := rows fd rid
  rintro ⟨_,late | refused⟩
  · exact early late
  rw [Free] at free
  generalize s.queue (.ofRecord fd rid) = q at free few row refused
  cases found : findRequest txn q.requestQueue with
  | none =>
    have absent : ∀ r ∈ q.requestQueue, r.txnId ≠ txn := by simpa [findRequest] using found
    have group := row.free (List.eq_nil_iff_forall_not_mem.mpr fun r member => absent r member (free r member))
    simp [found,exclusiveOnRecord,group] at refused
  | some own =>
    obtain ⟨first,later,split,_⟩ := findRequest_split found
    have one : q.requestQueue.length = 1 := by rw [split] at few ⊢; simp at few ⊢; omega
    rcases row.modes own (by rw [split]; simp) with mode | mode <;> simp [found,exclusiveOnRecord,mode,one] at refused

/-! ### Table files -/

/-- A link of the chain of pages with room: the end, or a data page that exists. -/
def Linked (f : RmFile) (p : Int) : Prop := p = rmNoPage ∨ p ≠ 0 ∧ (f.pages p).isSome = true

/-- Every link leads somewhere. This is all that is left of the invariant once an undo has hit a
slot that was already free. -/
structure Sane (f : RmFile) : Prop where
  geometry : Geometry f.fileHdr
  fresh : 1 ≤ f.fd2pageno
  above : ∀ p : Int, f.fd2pageno ≤ p → f.pages p = none
  first : Linked f f.fileHdr.firstFreePageNo
  links : ∀ p page, p ≠ 0 → f.pages p = some page → Linked f page.nextFreePageNo

/-- What record operations do to a file. -/
structure Grows (f g : RmFile) : Prop where
  fd : g.fd = f.fd
  pages : ∀ p, (f.pages p).isSome = true → (g.pages p).isSome = true
  sane : Sane f → Sane g

theorem Grows.refl (f : RmFile) : Grows f f := ⟨rfl,fun _ here => here,fun sane => sane⟩

theorem Grows.trans {f g h : RmFile} (first : Grows f g) (second : Grows g h) : Grows f h :=
  ⟨second.fd.trans first.fd,fun p here => second.pages p (first.pages p here),fun sane => second.sane (first.sane sane)⟩

variable {hdr : RmFileHdr} {w : WriteRecord} {files : String → Option RmFile}

theorem openNew_sane {recordSize : Int} (accepted : createFile recordSize = .ok hdr) (fd : Int)
    (header : Option RmPage) : Sane (openNew hdr fd header) := by
  unfold createFile at accepted
  split at accepted
  · cases accepted
  · rename_i allowed
    obtain rfl := Except.ok.inj accepted
    unfold rmMaxRecordSize at allowed
    refine ⟨initialHdr_geometry _ (by omega) (by omega),Nat.le_refl 1,fun p fresh => ?_,.inl rfl,fun p page nonzero here => ?_⟩
    · have nonzero : p ≠ 0 := by
        rintro rfl
        simp [openNew,initialHdr] at fresh
      simp [openNew,nonzero]
    · simp [openNew,nonzero] at here

section Files

variable {f : RmFile} {p : Int} {page : RmPage}

theorem putPage_isSome (f : RmFile) (p : Int) (page : RmPage) {q : Int} (here : (f.pages q).isSome = true) :
    ((f.putPage p page).pages q).isSome = true := by
  by_cases same : q = p
  · simp [putPage,same]
  · simpa [putPage,same] using here

theorem Linked.putPage {q : Int} (linked : Linked f q) (p : Int) (page : RmPage) : Linked (f.putPage p page) q :=
  linked.imp_right fun ⟨nonzero,here⟩ => ⟨nonzero,putPage_isSome f p page here⟩

theorem putPage_links (next : RmPage) (links : ∀ q page, q ≠ 0 → f.pages q = some page → Linked f page.nextFreePageNo)
    (link : Linked f next.nextFreePageNo) :
    ∀ q page, q ≠ 0 → (f.putPage p next).pages q = some page → Linked (f.putPage p next) page.nextFreePageNo := by
  intro q found nonzero here
  by_cases same : q = p
  · obtain rfl : next = found := by simpa [putPage,same] using here
    exact link.putPage p next
  · exact (links q found nonzero (by simpa [putPage,same] using here)).putPage p next

theorem putPage_grows (here : f.pages p = some page) (next : RmPage) (link : Sane f → Linked f next.nextFreePageNo) :
    Grows f (f.putPage p next) := by
  refine ⟨rfl,fun q here => putPage_isSome f p next here,fun sane => ⟨sane.geometry,sane.fresh,fun q fresh => ?_,
    sane.first.putPage p next,putPage_links next sane.links (link sane)⟩⟩
  have apart : q ≠ p := by
    rintro rfl
    cases here.symm.trans (sane.above q fresh)
  simpa [putPage,apart] using sane.above q fresh

theorem setFirstFree_grows {q : Int} (link : Sane f → Linked f q) : Grows f (f.setFirstFree q) :=
  ⟨rfl,fun _ here => here,fun sane => ⟨⟨sane.geometry.some,sane.geometry.bits,sane.geometry.fits⟩,sane.fresh,sane.above,link sane,sane.links⟩⟩

section Pages

variable (nonzero : p ≠ 0) (here : f.pages p = some page)

include nonzero here

theorem overwriteRecord_grows (slotNo : Nat) (buf : List Byte) :
    Grows f (f.overwriteRecord p page slotNo buf) :=
  putPage_grows here _ fun sane => by simpa using sane.links p page nonzero here

theorem eraseRecord_grows (slotNo : Nat) :
    Grows f (f.eraseRecord p page slotNo) := by
  unfold eraseRecord
  dsimp only
  split
  · refine (putPage_grows here _ fun sane => ?_).trans (setFirstFree_grows fun _ => .inr ⟨nonzero,?_⟩)
    · exact sane.first
    · simp [putPage]
  · exact putPage_grows here _ fun sane => by simpa using sane.links p page nonzero here

theorem putPage_unlinked (next : RmPage)
    (link : Sane f → Linked f next.nextFreePageNo) : Grows f ((f.putPage p next).setFirstFree next.nextFreePageNo) :=
  (putPage_grows here next link).trans (setFirstFree_grows fun sane => sane.links p next nonzero (by simp [putPage]))

theorem storeRecord_grows (slotNo : Nat) (buf : List Byte) :
    Grows f (f.storeRecord p page slotNo buf) := by
  have link (sane : Sane f) := sane.links p page nonzero here
  unfold storeRecord
  dsimp only
  split
  · exact putPage_unlinked nonzero here _ (by simpa using link)
  · exact putPage_grows here _ (by simpa using link)

end Pages

/-- No row goes, except perhaps this one. -/
def Spares (gone : Rid) (f g : RmFile) : Prop :=
  ∀ rid, rid ≠ gone → (f.contents rid).isSome = true → (g.contents rid).isSome = true

theorem row_isSome {slotNo : Int} :
    (page.row hdr slotNo).isSome = true ↔ 0 ≤ slotNo ∧ slotNo < hdr.numRecordsPerPage ∧ Bitmap.isSet page slotNo.toNat = true := by
  unfold RmPage.row
  split <;> simp [*]

theorem putPage_spares (nonzero : p ≠ 0) (here : f.pages p = some page) {gone : Rid} {next : RmPage}
    (bits : ∀ k : Nat, k < f.fileHdr.numRecordsPerPage → (⟨p,k⟩ : Rid) ≠ gone → Bitmap.isSet page k = true →
      Bitmap.isSet next k = true) : Spares gone f (f.putPage p next) := by
  intro rid apart live
  rw [contents_putPage f nonzero]
  split
  · rename_i same
    obtain ⟨q,slotNo⟩ := rid
    obtain rfl : q = p := same
    rw [contents_page here nonzero,row_isSome] at live
    obtain ⟨positive,bound,lit⟩ := live
    refine row_isSome.mpr ⟨positive,bound,bits _ (by dsimp only; omega) ?_ lit⟩
    rwa [Int.toNat_of_nonneg positive]
  · exact live

section Rows

variable (geometry : Geometry f.fileHdr) (nonzero : p ≠ 0) (here : f.pages p = some page) (gone : Rid) (slotNo : Nat) (buf : List Byte)

include geometry nonzero here

theorem overwriteRecord_spares : Spares gone f (f.overwriteRecord p page slotNo buf) :=
  putPage_spares nonzero here fun k bound _ lit => by rwa [RmPage.isSet_putSlot _ geometry bound]

theorem eraseRecord_spares : Spares ⟨p,slotNo⟩ f (f.eraseRecord p page slotNo) := by
  have bits (k : Nat) (bound : k < f.fileHdr.numRecordsPerPage) (apart : (⟨p,k⟩ : Rid) ≠ ⟨p,slotNo⟩)
      (lit : Bitmap.isSet page k = true) : Bitmap.isSet (Bitmap.reset page slotNo) k = true :=
    Bitmap.isSet_reset_of _ _ _ (RmPage.bucket_bound geometry bound) (by rintro rfl; exact apart rfl) lit
  unfold eraseRecord
  dsimp only
  split <;> exact putPage_spares nonzero here bits

theorem storeRecord_spares : Spares gone f (f.storeRecord p page slotNo buf) := by
  have bits (k : Nat) (bound : k < f.fileHdr.numRecordsPerPage) (_ : (⟨p,k⟩ : Rid) ≠ gone) (lit : Bitmap.isSet page k = true) :
      Bitmap.isSet (RmPage.putSlot f.fileHdr (Bitmap.set page slotNo) slotNo buf) k = true := by
    rw [RmPage.isSet_putSlot _ geometry bound]
    exact Bitmap.isSet_set_of _ _ _ (RmPage.bucket_bound geometry bound) lit
  unfold storeRecord
  dsimp only
  split <;> exact putPage_spares nonzero here bits

end Rows

/-- The page `insert_record` works on exists, or is added. There is no row where it puts the new one. -/
theorem createPageHandle_grows (sane : Sane f) : ∃ p page next, f.createPageHandle = .ok (p,page,next) ∧ Grows f next ∧
    p ≠ 0 ∧ p ≠ invalidPageId ∧ next.pages p = some page ∧ (∀ gone, Spares gone f next) ∧
    f.contents ⟨p,Bitmap.firstBit false page next.fileHdr.numRecordsPerPage⟩ = none := by
  by_cases none : f.fileHdr.firstFreePageNo = rmNoPage
  · let page := { RmPage.zero with nextFreePageNo := f.fileHdr.firstFreePageNo, numRecords := 0 }
    have nonzero : (f.fd2pageno : Int) ≠ 0 := by have := sane.fresh; omega
    have valid : (f.fd2pageno : Int) ≠ invalidPageId := by unfold invalidPageId; omega
    have absent := sane.above f.fd2pageno (Int.le_refl _)
    refine ⟨f.fd2pageno,page,f.createNewPageHandle.2.2,?_,⟨rfl,?_,fun _ => ?_⟩,nonzero,valid,Function.update_self ..,
      fun gone rid _ live => ?_,?_⟩
    · rw [createPageHandle,if_pos none]
      rfl
    · exact fun q here => putPage_isSome f f.fd2pageno page here
    · refine ⟨⟨sane.geometry.some,sane.geometry.bits,sane.geometry.fits⟩,by simp [createNewPageHandle],fun q fresh => ?_,
        .inr ⟨nonzero,by simp [createNewPageHandle,putPage]⟩,putPage_links page sane.links (.inl none)⟩
      have behind : (f.fd2pageno : Int) + 1 ≤ q := by simpa [createNewPageHandle] using fresh
      have apart : q ≠ f.fd2pageno := by omega
      simpa [createNewPageHandle,putPage,apart] using sane.above q (by omega)
    · have apart : rid.pageNo ≠ f.fd2pageno := by
        intro same
        simp [contents,same,absent] at live
      have same : (f.putPage f.fd2pageno page).contents rid = f.contents rid := by rw [contents_putPage f nonzero,if_neg apart]
      rw [← same] at live
      exact live
    · simp [contents,absent]
  · obtain ⟨nonzero,present⟩ := sane.first.resolve_left none
    obtain ⟨page,here⟩ := Option.isSome_iff_exists.mp present
    have valid : f.fileHdr.firstFreePageNo ≠ invalidPageId := none
    refine ⟨f.fileHdr.firstFreePageNo,page,f,?_,.refl f,nonzero,valid,here,fun _ _ _ live => live,?_⟩
    · rw [createPageHandle,if_neg none,fetchPageHandle,if_neg valid,here]
    · obtain ⟨_,_,clear⟩ := Bitmap.firstBit_spec page false f.fileHdr.numRecordsPerPage
      rw [contents_page here nonzero,← Option.not_isSome_iff_eq_none,row_isSome]
      rintro ⟨_,bound,lit⟩
      rw [Int.toNat_natCast,clear (by omega)] at lit
      cases lit

end Files

/-! ### What a call leaves -/

/-- No transaction is between its two phases. -/
def Early (s : LockState) : Prop := ∀ txn, (s.txns txn).state ≠ .shrinking

theorem grown_early {s : LockState} (early : Early s) (txn : TxnId) : Early (s.grown txn) := by
  intro other
  unfold LockState.grown
  split
  · by_cases same : other = txn
    · simp [LockState.setTxnState,same]
    · simpa [LockState.setTxnState,same] using early other
  · exact early other

theorem acquire_early (rule : LockRule) (txn : TxnId) (id : LockDataId) {s : LockState} (early : Early s) :
    Early ((acquire rule txn id).after s) := by
  have grown := grown_early early txn
  refine acquire_invariant (P := Early) early grown grown (fun _ _ _ _ _ _ _ _ _ _ _ => grown) fun _ _ _ _ other => ?_
  by_cases same : other = txn
  · subst other
    rw [addLock_state]
    exact grown txn
  · simpa [LockState.addLock,same] using grown other

/-- A request of `txn` for a row lock, granted or not. -/
structure Asks (txn : TxnId) (s next : LockState) : Prop where
  keeps : Keeps s next
  rows : RowQueues s → RowQueues next
  works : Works txn s next
  writes : SameWrites s next
  early : Early s → Early next

theorem Asks.refl (txn : TxnId) (s : LockState) : Asks txn s s :=
  ⟨.refl s,fun rows => rows,(works_frame txn).refl s,fun _ => rfl,fun early => early⟩

section Asks

variable {txn : TxnId} {rid : Rid} {fd : Int} {s locks : LockState} {result : Except TransactionAbortException Unit}

theorem shared_asks (locked : rowLock lockSharedOnRecord (some txn) rid fd s = (result,locks)) : Asks txn s locks := by
  obtain ⟨_,rfl⟩ := Prod.mk.inj locked
  exact ⟨sharedOnRecord_keeps _ _ _,acquire_rowQueues sharedOnRecord_mode _ _ _,acquire_works sharedOnRecord_sound _ _ _,
    acquire_sameWrites _ _ _ _,acquire_early _ _ _⟩

theorem exclusive_asks (locked : rowLock lockExclusiveOnRecord (some txn) rid fd s = (result,locks)) : Asks txn s locks := by
  obtain ⟨_,rfl⟩ := Prod.mk.inj locked
  exact ⟨exclusiveOnRecord_keeps _ _ _,acquire_rowQueues exclusiveOnRecord_mode _ _ _,
    acquire_works exclusiveOnRecord_sound _ _ _,acquire_sameWrites _ _ _ _,acquire_early _ _ _⟩

end Asks

/-- A record operation of `txn`: locks are only gained, and the files grow. -/
structure Leaves (txn : TxnId) (s next : Db) : Prop where
  locks : Asks txn s.locks next.locks
  opened : ∀ tab f, s.files tab = some f → ∃ g, next.files tab = some g ∧ (Sane f → Grows f g)
  closed : ∀ tab, s.files tab = none → next.files tab = none

theorem leaves_frame (txn : TxnId) : Frame (Leaves txn) where
  refl s := ⟨.refl txn _,fun _ f here => ⟨f,here,fun _ => .refl f⟩,fun _ none => none⟩
  trans a b c first second := by
    refine ⟨⟨?_,fun rows => second.locks.rows (first.locks.rows rows),(works_frame txn).trans _ _ _ first.locks.works second.locks.works,
      fun other => (second.locks.writes other).trans (first.locks.writes other),
      fun early => second.locks.early (first.locks.early early)⟩,?_,fun tab none => second.closed tab (first.closed tab none)⟩
    · have one := first.locks.keeps
      have two := second.locks.keeps
      exact ⟨fun sound => two.sound (one.sound sound),fun txn id held => two.holds txn id (one.holds txn id held),
        fun txn id held => two.holdsX txn id (one.holdsX txn id held),fun other => (two.ended other).trans (one.ended other)⟩
    · intro tab f here
      obtain ⟨g,there,grows⟩ := first.opened tab f here
      obtain ⟨h,last,more⟩ := second.opened tab g there
      exact ⟨h,last,fun sane => (grows sane).trans (more ((grows sane).sane sane))⟩

section Calls

variable (s : Db) (txn : TxnId) (tab : String) {f : RmFile}

variable {s txn tab} in
theorem leaves_locks {locks : LockState} {log : List Access} (asks : Asks txn s.locks locks) :
    Leaves txn s ⟨locks,s.files,log⟩ :=
  ⟨asks,fun _ f here => ⟨f,here,fun _ => .refl f⟩,fun _ none => none⟩

variable {s txn tab} in
theorem leaves_file {locks : LockState} {log : List Access} {g : RmFile} (asks : Asks txn s.locks locks)
    (here : s.files tab = some f) (grows : Sane f → Grows f g) :
    Leaves txn s ⟨locks,Function.update s.files tab (some g),log⟩ := by
  refine ⟨asks,fun other h there => ?_,fun other none => ?_⟩
  · by_cases same : other = tab
    · obtain rfl : f = h := Option.mem_unique here (same ▸ there)
      exact ⟨g,by simp [same],grows⟩
    · exact ⟨h,by simpa [same] using there,fun _ => .refl h⟩
  · have apart : other ≠ tab := by
      rintro rfl
      rw [here] at none
      cases none
    simpa [apart] using none

theorem getRecord_leaves (rid : Rid) : Leaves txn s ((getRecord tab rid (some txn)).after s) :=
  row_cases (P := fun r => Leaves txn s r.2) (fileOf_bind_none · _) (fun _ here => getRecord_run here (some txn) rid)
    ((leaves_frame txn).refl s) (fun _ _ _ _ _ locked => leaves_locks (shared_asks locked))
    fun _ _ _ _ locked _ => leaves_locks (shared_asks locked)

variable {rid : Rid} (nonzero : rid.pageNo ≠ 0)

include nonzero

theorem updateRecord_leaves (buf : List Byte) : Leaves txn s ((updateRecord tab rid buf (some txn)).after s) := by
  refine row_cases (P := fun r => Leaves txn s r.2) (fileOf_bind_none · _) (fun _ here => updateRecord_run here (some txn) rid buf)
    ((leaves_frame txn).refl s) (fun _ _ _ _ _ locked => leaves_locks (exclusive_asks locked)) ?_
  intro f locks page here locked fetched
  exact leaves_file (exclusive_asks locked) here fun _ =>
    overwriteRecord_grows nonzero (fetched_page fetched) _ _

theorem deleteRecord_leaves : Leaves txn s ((deleteRecord tab rid (some txn)).after s) := by
  refine row_cases (P := fun r => Leaves txn s r.2) (fileOf_bind_none · _) (fun _ here => deleteRecord_run here (some txn) rid)
    ((leaves_frame txn).refl s) (fun _ _ _ _ _ locked => leaves_locks (exclusive_asks locked)) ?_
  intro f locks page here locked fetched
  exact leaves_file (exclusive_asks locked) here fun _ =>
    eraseRecord_grows nonzero (fetched_page fetched) _

omit nonzero in
theorem insertRecord_leaves (buf : List Byte) : Leaves txn s ((insertRecord tab buf (some txn)).after s) := by
  cases here : s.files tab with
  | none =>
    rw [after,insertRecord,fileOf_bind_none here]
    exact (leaves_frame txn).refl s
  | some f =>
    rw [after,insertRecord_run here]
    split
    · exact (leaves_frame txn).refl s
    · rename_i p page made created
      have grows (sane : Sane f) : Grows f made ∧ p ≠ 0 ∧ made.pages p = some page := by
        obtain ⟨p',page',made',created',first,numbered,_,there,_⟩ := createPageHandle_grows sane
        obtain ⟨rfl,rfl,rfl⟩ : p' = p ∧ page' = page ∧ made' = made := by simpa using created'.symm.trans created
        exact ⟨first,numbered,there⟩
      dsimp only
      split
      · rename_i locked
        exact leaves_file (exclusive_asks locked) here fun sane => (grows sane).1
      · rename_i locked
        refine leaves_file (exclusive_asks locked) here fun sane => ?_
        obtain ⟨first,numbered,there⟩ := grows sane
        exact first.trans (storeRecord_grows numbered there _ _)

end Calls

/-! ### The invariant -/

def OnPage (rid : Rid) : Prop := rid.pageNo ≠ 0 ∧ 0 ≤ rid.slotNo

instance (rid : Rid) : Decidable (OnPage rid) := inferInstanceAs (Decidable (_ ∧ _))

/-- The transaction has written the row: its page is there, and the row is locked for it. -/
def Backed (s : Db) (txn : TxnId) (tab : String) (rid : Rid) : Prop :=
  ∃ f, s.files tab = some f ∧ OnPage rid ∧ rid.pageNo ≠ invalidPageId ∧ (f.pages rid.pageNo).isSome = true ∧
    HoldsX s.locks txn (.ofRecord f.fd rid)

structure Inv (s : Db) : Prop where
  sound : Sound s.locks
  rows : RowQueues s.locks
  early : Early s.locks
  tracked : ∀ txn, Tracked s.locks txn
  sane : ∀ tab f, s.files tab = some f → Sane f
  backed : ∀ txn, (s.locks.txns txn).state.ended = false → ∀ w ∈ (s.locks.txns txn).writeSet, Backed s txn w.tabName w.rid

section Steps

variable {s next : Db} {txn other : TxnId} {tab : String} {rid : Rid} {buf : List Byte}

theorem Backed.leaves (backed : Backed s other tab rid) (leaves : Leaves txn s next)
    (sane : ∀ tab f, s.files tab = some f → Sane f) : Backed next other tab rid := by
  obtain ⟨f,here,nonzero,valid,page,held⟩ := backed
  obtain ⟨g,there,grows⟩ := leaves.opened tab f here
  have grown := grows (sane tab f here)
  exact ⟨g,there,nonzero,valid,grown.pages _ page,by rw [grown.fd]; exact leaves.locks.keeps.holdsX _ _ held⟩

theorem Inv.leaves (inv : Inv s) (leaves : Leaves txn s next) : Inv next where
  sound := leaves.locks.keeps.sound inv.sound
  rows := leaves.locks.rows inv.rows
  early := leaves.locks.early inv.early
  tracked other := by
    by_cases same : other = txn
    · rw [same]
      exact leaves.locks.works.tracked (inv.tracked txn)
    · exact leaves.locks.works.aside.tracked same (inv.tracked other)
  sane tab g there := by
    cases here : s.files tab with
    | none => simp [leaves.closed tab here] at there
    | some f =>
      obtain ⟨g',there',grows⟩ := leaves.opened tab f here
      obtain rfl : g' = g := Option.mem_unique there' there
      exact (grows (inv.sane tab f here)).sane (inv.sane tab f here)
  backed other live w member := by
    rw [leaves.locks.keeps.ended] at live
    rw [leaves.locks.writes] at member
    exact (inv.backed other live w member).leaves leaves inv.sane

theorem Inv.append (inv : Inv s) (backed : Backed s txn w.tabName w.rid) :
    Inv ((appendWriteRecord txn w).after s) := by
  have state (other : TxnId) : (((appendWriteRecord txn w).after s).locks.txns other).state = (s.locks.txns other).state := by
    by_cases same : other = txn <;> simp [appendWriteRecord,setTxn,after,same]
  have lockSet (other : TxnId) : (((appendWriteRecord txn w).after s).locks.txns other).lockSet = (s.locks.txns other).lockSet := by
    by_cases same : other = txn <;> simp [appendWriteRecord,setTxn,after,same]
  refine ⟨inv.sound,inv.rows,fun other => by rw [state]; exact inv.early other,fun other => ?_,inv.sane,
    fun other live e member => ?_⟩
  · exact (inv.tracked other).same (lockSet other) (fun _ => .rfl) (by rw [state]; exact fun growing => growing)
  · rw [state] at live
    by_cases same : other = txn
    · subst other
      have listed : e ∈ (s.locks.txns txn).writeSet ++ [w] := by simpa [appendWriteRecord,setTxn,after] using member
      rcases List.mem_append.mp listed with old | new
      · exact inv.backed txn live e old
      · rw [List.mem_singleton.mp new]
        exact backed
    · exact inv.backed other live e (by simpa [appendWriteRecord,setTxn,after,same] using member)

theorem fetched_valid {f : RmFile} {p : Int} {page : RmPage} (fetched : f.fetchPageHandle p = .ok page) :
    p ≠ invalidPageId ∧ (f.pages p).isSome = true := by
  refine ⟨?_,by rw [fetched_page fetched]; rfl⟩
  rintro rfl
  simp [fetchPageHandle] at fetched

theorem updateRecord_backed (live : (s.locks.txns txn).state.ended = false) (named : OnPage rid)
    (run : updateRecord tab rid buf (some txn) s = (.ok (),next)) : Backed next txn tab rid := by
  revert run
  refine row_cases (P := fun r => r = (.ok (),next) → Backed next txn tab rid) (fileOf_bind_none · _)
    (fun _ here => updateRecord_run here (some txn) rid buf) (by simp) (by simp) fun f locks page _ locked fetched run => ?_
  obtain rfl := (Prod.mk.inj run).2
  obtain ⟨valid,present⟩ := fetched_valid fetched
  exact ⟨_,Function.update_self ..,named,valid,putPage_isSome f _ _ present,(exclusive_held live locked).2⟩

theorem deleteRecord_backed (live : (s.locks.txns txn).state.ended = false) (named : OnPage rid)
    (run : deleteRecord tab rid (some txn) s = (.ok (),next)) : Backed next txn tab rid := by
  revert run
  refine row_cases (P := fun r => r = (.ok (),next) → Backed next txn tab rid) (fileOf_bind_none · _)
    (fun _ here => deleteRecord_run here (some txn) rid) (by simp) (by simp) fun f locks page _ locked fetched run => ?_
  obtain rfl := (Prod.mk.inj run).2
  obtain ⟨valid,present⟩ := fetched_valid fetched
  refine ⟨_,Function.update_self ..,named,valid,?_,?_⟩
  · exact (eraseRecord_grows named.1 (fetched_page fetched) _).pages _ present
  · rw [eraseRecord_layout.2.2]
    exact (exclusive_held live locked).2

theorem insertRecord_backed (inv : Inv s) (live : (s.locks.txns txn).state.ended = false)
    (run : insertRecord tab buf (some txn) s = (.ok rid,next)) : Backed next txn tab rid := by
  cases here : s.files tab with
  | none => exact nomatch (fileOf_bind_none here _).symm.trans run
  | some f =>
    obtain ⟨p,page,made,created,_,nonzero,valid,there,_⟩ := createPageHandle_grows (inv.sane tab f here)
    rw [insertRecord_run here,created] at run
    dsimp only at run
    split at run
    · cases run
    · rename_i locked
      obtain ⟨found,rfl⟩ := Prod.mk.inj run
      obtain rfl := Except.ok.inj found
      refine ⟨_,Function.update_self ..,⟨nonzero,Int.natCast_nonneg _⟩,valid,?_,?_⟩
      · exact (storeRecord_grows nonzero there _ _).pages _ (by rw [there]; rfl)
      · rw [storeRecord_layout.2.2]
        exact (exclusive_held live locked).2

def Named : RowOp → Prop
  | .insert _ => True
  | .update rid _ | .delete rid => OnPage rid

instance : (op : RowOp) → Decidable (Named op)
  | .insert _ => inferInstanceAs (Decidable True)
  | .update rid _ | .delete rid => inferInstanceAs (Decidable (OnPage rid))

/-- The invariant holds after a call, and nothing of another transaction has changed. -/
structure Onward (txn : TxnId) (s next : Db) : Prop where
  inv : Inv next
  aside : Aside txn s.locks next.locks

theorem Inv.onward (inv : Inv s) (leaves : Leaves txn s next) : Onward txn s next :=
  ⟨inv.leaves leaves,leaves.locks.works.aside⟩

theorem Inv.logged (inv : Inv s) (leaves : Leaves txn s next) (backed : Backed next txn w.tabName w.rid) :
    Onward txn s ((appendWriteRecord txn w).after next) := by
  refine ⟨(inv.leaves leaves).append backed,leaves.locks.works.aside.trans (aside_same rfl fun other apart => ?_)⟩
  simp [appendWriteRecord,setTxn,after,apart]

theorem perform_onward (inv : Inv s) (live : (s.locks.txns txn).state.ended = false) (op : RowOp) (named : Named op) :
    Onward txn s ((perform tab txn op).after s) := by
  cases op with
  | insert buf =>
    have leaves := insertRecord_leaves s txn tab buf
    refine bind_after (inv.onward leaves) fun rid next run => ?_
    exact inv.logged (after_eq run ▸ leaves) (insertRecord_backed inv live run)
  | update rid buf =>
    have reads := getRecord_leaves s txn tab rid
    refine bind_after (inv.onward reads) fun old seen reading => ?_
    rw [after_eq reading] at reads
    have leaves := (leaves_frame txn).trans _ _ _ reads (updateRecord_leaves seen txn tab named.1 buf)
    refine bind_after (inv.onward leaves) fun _ next run => ?_
    exact inv.logged (after_eq run ▸ leaves) (updateRecord_backed ((reads.locks.keeps.ended txn).trans live) named run)
  | delete rid =>
    have reads := getRecord_leaves s txn tab rid
    refine bind_after (inv.onward reads) fun old seen reading => ?_
    rw [after_eq reading] at reads
    have leaves := (leaves_frame txn).trans _ _ _ reads (deleteRecord_leaves seen txn tab named.1)
    refine bind_after (inv.onward leaves) fun _ next run => ?_
    exact inv.logged (after_eq run ▸ leaves) (deleteRecord_backed ((reads.locks.keeps.ended txn).trans live) named run)

/-! ### The end of a transaction -/

theorem unlock_writeSet (txn other : TxnId) (id : LockDataId) (s : LockState) :
    (((unlock txn id).after s).txns other).writeSet = (s.txns other).writeSet := by
  rw [unlock_txns]
  split
  · by_cases same : other = txn <;> simp [LockState.setTxnState,same]
  · rfl

/-- The transaction drops its write set, unlocks everything and gets its last state. -/
def finish (txn : TxnId) (final : TransactionState) : DbCall Unit := do
  setTxn txn fun t => { t with writeSet := [] }
  release txn final

structure Finished (txn : TxnId) (final : TransactionState) (s next : Db) : Prop where
  files : next.files = s.files
  rows : RowQueues next.locks
  sound : Sound next.locks
  aside : Aside txn s.locks next.locks
  holdsX : ∀ other id, other ≠ txn → HoldsX s.locks other id → HoldsX next.locks other id
  gone : ∀ id, ¬ Holds next.locks txn id
  lockSet : (next.locks.txns txn).lockSet = []
  writeSet : (next.locks.txns txn).writeSet = []
  state : (next.locks.txns txn).state = final

theorem finish_run (inv : Inv s) (txn : TxnId) (final : TransactionState) :
    ∃ next, finish txn final s = (.ok (),next) ∧ Finished txn final s next := by
  obtain ⟨dropped,dropping⟩ : ∃ d, setTxn txn (fun t => { t with writeSet := [] }) s = (.ok (),d) := ⟨_,rfl⟩
  have shape : dropped = { s with locks := { s.locks with
      txns := Function.update s.locks.txns txn { s.locks.txns txn with writeSet := [] } } } :=
    (congrArg Prod.snd dropping).symm
  have table : dropped.locks.lockTable = s.locks.lockTable := by rw [shape]
  have tracked : Tracked dropped.locks txn := by
    rw [shape]
    exact (inv.tracked txn).same (by simp) (fun _ => .rfl) (by simp)
  have sound : Sound dropped.locks := by
    rw [shape]
    exact inv.sound
  obtain ⟨freed,loop,again,aside,left,releases,rows,writes⟩ := unlockAll_run txn
    (P := fun rest now => Sound now ∧ Aside txn dropped.locks now ∧ Releasing now txn rest ∧ Releases txn dropped.locks now ∧
      RowQueues now ∧ (now.txns txn).writeSet = [])
    (by
      rintro id rest now ⟨sound,aside,left,releases,rows,writes⟩
      exact ⟨unlock_sound txn id now sound,aside.trans (unlock_aside txn id now),left.unlock sound,
        releases.trans (unlock_releases txn id now),unlock_rowQueues txn id now rows,(unlock_writeSet txn txn id now).trans writes⟩)
    _ dropped ⟨sound,.refl txn _,tracked.releasing,(Keeps.refl _).releases txn,inv.rows.same table,by simp [shape]⟩
  refine ⟨⟨{ freed with txns := Function.update freed.txns txn { freed.txns txn with lockSet := [], state := final } },
    dropped.files,dropped.log ++ [.ended txn]⟩,?_,?_⟩
  · rw [finish,bind_ok dropping,release,bind_ok (state_run dropped),bind_ok loop]
    simp [setTxn,note,bind_run]
  · refine ⟨by rw [shape],rows.same rfl,again,?_,fun other id apart held => ?_,
      fun id held => List.not_mem_nil (left.left id held),by simp,?_,by simp⟩
    · have first : Aside txn s.locks dropped.locks := aside_same table fun other apart => by simp [shape,apart]
      exact (first.trans aside).trans (aside_same rfl fun other apart => by simp [apart])
    · refine releases.holdsX other id apart ?_
      rw [shape]
      exact held
    · simpa using writes

theorem Finished.inv {final : TransactionState} (finished : Finished txn final s next) (isOver : final.ended = true)
    (inv : Inv s) : Inv next where
  sound := finished.sound
  rows := finished.rows
  early other := by
    by_cases same : other = txn
    · rw [same,finished.state]
      rintro rfl
      cases isOver
    · rw [finished.aside.txns other same]
      exact inv.early other
  tracked other := by
    by_cases same : other = txn
    · subst other
      exact ⟨fun id => iff_of_false (by simp [finished.lockSet]) (finished.gone id),fun some => absurd finished.lockSet some⟩
    · exact finished.aside.tracked same (inv.tracked other)
  sane tab f here := inv.sane tab f (finished.files ▸ here)
  backed other live w member := by
    have apart : other ≠ txn := by
      rintro rfl
      rw [finished.state,isOver] at live
      cases live
    rw [finished.aside.txns other apart] at live member
    obtain ⟨f,here,nonzero,valid,page,held⟩ := inv.backed other live w member
    exact ⟨f,finished.files ▸ here,nonzero,valid,page,finished.holdsX other _ apart held⟩

/-! ### Undoing -/

theorem undo_leaves (txn : TxnId) (w : WriteRecord) (nonzero : w.wtype ≠ .deleteTuple → w.rid.pageNo ≠ 0) (s : Db) :
    Leaves txn s ((undo txn w).after s) := by
  unfold undo
  cases type : w.wtype with
  | insertTuple => exact deleteRecord_leaves s txn w.tabName (nonzero (by simp [type]))
  | updateTuple => exact updateRecord_leaves s txn w.tabName (nonzero (by simp [type])) w.record
  | deleteTuple => exact (leaves_frame txn).bind (insertRecord_leaves · txn w.tabName w.record) (fun _ => (leaves_frame txn).pure ()) s

theorem undoAll_leaves (txn : TxnId) (log : List WriteRecord) (nonzero : ∀ w ∈ log, w.rid.pageNo ≠ 0) :
    Within (Leaves txn) (undoAll txn log) := by
  induction log with
  | nil => exact (leaves_frame txn).pure ()
  | cons w earlier ih =>
    refine (leaves_frame txn).bind (undo_leaves txn w fun _ => nonzero w (List.mem_cons_self ..)) fun _ => ih fun e member => ?_
    exact nonzero e (List.mem_cons_of_mem _ member)

theorem abort_shape (s : Db) (txn : TxnId) :
    abort txn s = (undoAll txn (s.locks.txns txn).writeSet.reverse >>= fun _ => finish txn .aborted) s := by
  rw [abort,bind_ok (state_run s)]
  rfl

theorem Inv.undoing (inv : Inv s) (live : (s.locks.txns txn).state.ended = false) :
    Leaves txn s ((undoAll txn (s.locks.txns txn).writeSet.reverse).after s) := by
  refine undoAll_leaves txn _ (fun w member => ?_) s
  obtain ⟨_,_,named,_⟩ := inv.backed txn live w (List.mem_reverse.mp member)
  exact named.1

theorem abort_onward (inv : Inv s) (live : (s.locks.txns txn).state.ended = false) : Onward txn s ((abort txn).after s) := by
  have leaves := inv.undoing live
  rw [after,abort_shape]
  refine bind_after (inv.onward leaves) fun _ undone run => ?_
  rw [after_eq run] at leaves
  obtain ⟨next,finishing,finished⟩ := finish_run (inv.leaves leaves) txn .aborted
  rw [after_eq finishing]
  exact ⟨finished.inv rfl (inv.leaves leaves),leaves.locks.works.aside.trans finished.aside⟩

/-- What other transactions have locked on the data pages of the file are rows, not free slots. -/
def LockedRows (txn : TxnId) (s : LockState) (f : RmFile) : Prop :=
  ∀ other, other ≠ txn → ∀ rid, .ofRecord f.fd rid ∈ (s.txns other).lockSet → rid.pageNo ≠ 0 → (f.contents rid).isSome = true

theorem LockedRows.free {f : RmFile} (rows : LockedRows txn s.locks f) (inv : Inv s) (nonzero : rid.pageNo ≠ 0)
    (empty : f.contents rid = none) : Free txn s.locks f.fd rid := by
  intro r member
  by_contra apart
  have live := rows r.txnId apart rid (((inv.tracked r.txnId).held _).mpr ⟨r,member,rfl⟩) nonzero
  rw [empty] at live
  cases live

theorem exclusive_granted {fd : Int} (inv : Inv s) (free : Free txn s.locks fd rid) :
    ∃ locks, rowLock lockExclusiveOnRecord (some txn) rid fd s.locks = (.ok (),locks) := by
  have taken := free.not_refused inv.sound inv.rows (inv.early txn)
  rw [← acquire_throws_iff] at taken
  have granted : (rowLock lockExclusiveOnRecord (some txn) rid fd s.locks).1 = .ok () := by
    revert taken
    simp only [rowLock,lockExclusiveOnRecord]
    cases (acquire exclusiveOnRecord txn (.ofRecord fd rid) s.locks).1 <;> simp [Except.map]
  exact ⟨_,Prod.ext granted rfl⟩

theorem HoldsX.free (inv : Inv s) {fd : Int} (held : HoldsX s.locks txn (.ofRecord fd rid)) : Free txn s.locks fd rid :=
  fun r member => holdsX_alone inv.sound held ⟨r,member,rfl⟩

/-- A row the transaction wrote can be written again, and a deleted one finds a slot. No other row goes. -/
theorem undo_returns (inv : Inv s) {f : RmFile}
    (here : s.files w.tabName = some f) (backed : Backed s txn w.tabName w.rid)
    (rows : w.wtype = .deleteTuple → LockedRows txn s.locks f) :
    ∃ next g, undo txn w s = (.ok (),next) ∧ next.files = Function.update s.files w.tabName (some g) ∧ g.fd = f.fd ∧
      Spares w.rid f g := by
  obtain ⟨same,there,⟨nonzero,slot⟩,valid,page,held⟩ := backed
  obtain rfl : f = same := Option.mem_unique here there
  obtain ⟨page,present⟩ := Option.isSome_iff_exists.mp page
  have fetched : f.fetchPageHandle w.rid.pageNo = .ok page := by
    rw [fetchPageHandle,if_neg valid,present]
  have sane := inv.sane _ f here
  obtain ⟨locks,locked⟩ := exclusive_granted inv (HoldsX.free inv held)
  cases type : w.wtype with
  | insertTuple =>
    have run := deleteRecord_run here (some txn) w.rid
    rw [underLock,locked,fetched] at run
    refine ⟨_,_,by rw [undo,type]; exact run,rfl,eraseRecord_layout.2.2,?_⟩
    have spares := eraseRecord_spares sane.geometry nonzero present w.rid.slotNo.toNat
    rwa [Int.toNat_of_nonneg slot] at spares
  | updateTuple =>
    have run := updateRecord_run here (some txn) w.rid w.record
    rw [underLock,locked,fetched] at run
    exact ⟨_,f.overwriteRecord w.rid.pageNo page w.rid.slotNo.toNat w.record,by rw [undo,type]; exact run,rfl,rfl,
      overwriteRecord_spares sane.geometry nonzero present _ _ _⟩
  | deleteTuple =>
    obtain ⟨p,page,made,created,grows,nonzero,_,there,spares,empty⟩ := createPageHandle_grows sane
    obtain ⟨locks,locked⟩ := exclusive_granted inv ((rows type).free inv nonzero empty)
    have run := insertRecord_run here (some txn) w.record
    rw [created] at run
    dsimp only at run
    rw [grows.fd,locked] at run
    refine ⟨_,_,by rw [undo,type]; exact bind_ok run,rfl,storeRecord_layout.2.2.trans grows.fd,fun rid apart live => ?_⟩
    exact storeRecord_spares (grows.sane sane).geometry nonzero there _ _ _ rid apart (spares w.rid rid apart live)

/-- An entry of the transaction, once undone, leaves the rows that others have locked. -/
theorem LockedRows.undone {f g : RmFile} (rows : LockedRows txn s.locks f) (inv : Inv s) (aside : Aside txn s.locks next.locks)
    (held : HoldsX s.locks txn (.ofRecord f.fd rid)) (fd : g.fd = f.fd) (spares : Spares rid f g) :
    LockedRows txn next.locks g := by
  intro other apart row locked nonzero
  rw [aside.txns other apart,fd] at locked
  refine spares row ?_ (rows other apart row locked nonzero)
  rintro rfl
  exact apart (holdsX_alone inv.sound held (((inv.tracked other).held _).mp locked))

theorem undoAll_returns (log : List WriteRecord) (inv : Inv s) (live : (s.locks.txns txn).state.ended = false)
    (listed : ∀ w ∈ log, w ∈ (s.locks.txns txn).writeSet)
    (rows : ∀ w ∈ log, w.wtype = .deleteTuple → ∀ f ∈ s.files w.tabName, LockedRows txn s.locks f) :
    (undoAll txn log s).1 = .ok () := by
  induction log generalizing s with
  | nil => rfl
  | cons w earlier ih =>
    have backed := inv.backed txn live w (listed w (List.mem_cons_self ..))
    have ⟨f,here,named,_,_,held⟩ := backed
    obtain ⟨next,g,run,files,fd,spares⟩ := undo_returns inv here backed fun type =>
      rows w (List.mem_cons_self ..) type f here
    have leaves := undo_leaves txn w (fun _ => named.1) s
    rw [after_eq run] at leaves
    rw [undoAll,bind_ok run]
    refine ih (inv.leaves leaves) ((leaves.locks.keeps.ended txn).trans live) (fun e member => ?_) fun e member type h there => ?_
    · rw [leaves.locks.writes txn]
      exact listed e (List.mem_cons_of_mem _ member)
    · have before := rows e (List.mem_cons_of_mem _ member) type
      have aside := leaves.locks.works.aside
      rw [files] at there
      by_cases same : e.tabName = w.tabName
      · obtain rfl : g = h := by simpa [same] using there
        exact (before f (by rw [same]; exact here)).undone inv aside held fd spares
      · rw [Function.update_of_ne same] at there
        intro other apart
        rw [aside.txns other apart]
        exact before h there other apart

/-! ### Runs -/

inductive Action where
  | get (tab : String) (rid : Rid)
  | row (tab : String) (op : RowOp)
  | commit
  | abort
  deriving DecidableEq

def act (txn : TxnId) : Action → DbCall Unit
  | .get tab rid => do
    let _ ← getRecord tab rid (some txn)
    pure ()
  | .row tab op => perform tab txn op
  | .commit => commit txn
  | .abort => abort txn

/-- One call of some transaction, returning or throwing. -/
def step (s : Db) (call : TxnId × Action) : Db := (act call.1 call.2).after s

/-- Calls are made by transactions that have not ended, and rows to be written are on data pages. -/
def Legal (s : Db) (call : TxnId × Action) : Prop :=
  (s.locks.txns call.1).state.ended = false ∧ match call.2 with
    | .row _ op => Named op
    | _ => True

instance (s : Db) (call : TxnId × Action) : Decidable (Legal s call) := by
  rcases call with ⟨txn,action⟩
  cases action <;> exact inferInstanceAs (Decidable (_ ∧ _))

theorem step_onward (s : Db) (call : TxnId × Action) (inv : Inv s) (legal : Legal s call) : Onward call.1 s (step s call) := by
  obtain ⟨txn,action⟩ := call
  obtain ⟨live,named⟩ := legal
  cases action with
  | get tab rid =>
    have leaves := getRecord_leaves s txn tab rid
    exact bind_after (inv.onward leaves) fun _ next run => inv.onward (after_eq run ▸ leaves)
  | row tab op => exact perform_onward inv live op named
  | commit =>
    obtain ⟨next,run,finished⟩ := finish_run inv txn .committed
    rw [step,show act txn .commit = finish txn .committed from rfl,after_eq run]
    exact ⟨finished.inv rfl inv,finished.aside⟩
  | abort => exact abort_onward inv live

theorem run_onward {s : Db} (inv : Inv s) {run : List (TxnId × Action)} (legal : Guarded step Legal s run) :
    Inv (run.foldl step s) ∧ ∀ txn, txn ∉ run.map Prod.fst → (run.foldl step s).locks.txns txn = s.locks.txns txn := by
  induction run generalizing s with
  | nil => exact ⟨inv,fun _ _ => rfl⟩
  | cons call rest ih =>
    have onward := step_onward s call inv legal.1
    obtain ⟨final,others⟩ := ih onward.inv legal.2
    refine ⟨final,fun txn absent => ?_⟩
    rw [List.map_cons,List.mem_cons,not_or] at absent
    exact (others txn absent.2).trans (onward.aside.txns txn absent.1)

/-- Tables as they are created, and no transaction has begun. -/
def begun (files : String → Option RmFile) : Db := Db.start (fun _ => {}) files

def Created (files : String → Option RmFile) : Prop :=
  ∀ tab f, files tab = some f → ∃ recordSize hdr fd header, createFile recordSize = .ok hdr ∧ f = openNew hdr fd header

theorem begun_inv (created : Created files) : Inv (begun files) where
  sound := nofun
  rows _ _ := ⟨nofun,fun _ => rfl⟩
  early _ := nofun
  tracked _ := ⟨fun _ => iff_of_false nofun nofun,fun some => absurd rfl some⟩
  sane tab f here := by
    obtain ⟨_,hdr,fd,header,accepted,rfl⟩ := created tab f here
    exact openNew_sane accepted fd header
  backed _ _ := nofun

/-- `abort` returns: every entry was undone, and nothing of the transaction is left. -/
structure Completes (txn : TxnId) (s : Db) : Prop where
  undone : (undoAll txn (s.locks.txns txn).writeSet.reverse s).1 = .ok ()
  returned : (abort txn s).1 = .ok ()
  writeSet : (((abort txn).after s).locks.txns txn).writeSet = []
  lockSet : (((abort txn).after s).locks.txns txn).lockSet = []
  released : ∀ id, ¬ Holds ((abort txn).after s).locks txn id
  state : (((abort txn).after s).locks.txns txn).state = .aborted

/-- In every run, an active transaction can be aborted if in the tables from which it deleted rows the
others have locked rows only, no free slots. -/
theorem abort_completes {files : String → Option RmFile} (created : Created files) (run : List (TxnId × Action))
    (legal : Guarded step Legal (begun files) run) {txn : TxnId}
    (active : ((run.foldl step (begun files)).locks.txns txn).state.ended = false)
    (rows : ∀ w ∈ ((run.foldl step (begun files)).locks.txns txn).writeSet, w.wtype = .deleteTuple →
      ∀ f ∈ (run.foldl step (begun files)).files w.tabName, LockedRows txn (run.foldl step (begun files)).locks f) :
    Completes txn (run.foldl step (begun files)) := by
  have inv := (run_onward (begun_inv created) legal).1
  generalize run.foldl step (begun files) = s at inv active rows
  have undone := undoAll_returns _ inv active (fun _ => List.mem_reverse.mp) fun w member => rows w (List.mem_reverse.mp member)
  obtain ⟨next,finishing,finished⟩ := finish_run (inv.leaves (inv.undoing active)) txn .aborted
  have whole : abort txn s = (.ok (),next) := by
    rw [abort_shape,bind_ok (Prod.ext undone rfl)]
    exact finishing
  exact ⟨undone,by rw [whole],by rw [after_eq whole]; exact finished.writeSet,by rw [after_eq whole]; exact finished.lockSet,
    by rw [after_eq whole]; exact finished.gone,by rw [after_eq whole]; exact finished.state⟩

end Steps

def newFiles : String → Option RmFile := fun tab => if tab = "t" then some (openNew (initialHdr 453) 5 none) else none

theorem newFiles_created : Created newFiles := by
  intro tab f here
  by_cases same : tab = "t"
  · exact ⟨453,_,5,none,rfl,by simpa [newFiles,same,eq_comm] using here⟩
  · simp [newFiles,same] at here

/-- Transaction 1 fills three slots and commits, transaction 2 reads the first row and changes the last
one, transaction 3 adds a row and deletes the second one. -/
def besideReader : List (TxnId × Action) :=
  [(1,.row "t" (.insert (record 0).1)),(1,.row "t" (.insert (record 1).1)),(1,.row "t" (.insert (record 2).1)),(1,.commit),
    (2,.get "t" ⟨1,0⟩),(2,.row "t" (.update ⟨1,2⟩ (record 5).1)),(3,.row "t" (.insert (record 3).1)),(3,.row "t" (.delete ⟨1,1⟩))]

theorem besideReader_completes : Guarded step Legal (begun newFiles) besideReader ∧
    ((besideReader.foldl step (begun newFiles)).locks.txns 2).lockSet ≠ [] ∧
    Completes 3 (besideReader.foldl step (begun newFiles)) := by
  have legal : Guarded step Legal (begun newFiles) besideReader := by decide +kernel
  obtain ⟨_,others⟩ := run_onward (begun_inv newFiles_created) legal
  refine ⟨legal,by decide +kernel,abort_completes newFiles_created besideReader legal (by decide +kernel) ?_⟩
  have table : ∀ w ∈ ((besideReader.foldl step (begun newFiles)).locks.txns 3).writeSet, w.tabName = "t" := by decide +kernel
  have first : ((besideReader.foldl step (begun newFiles)).locks.txns 1).lockSet = [] := by decide +kernel
  have second : ∀ f ∈ (besideReader.foldl step (begun newFiles)).files "t",
      ∀ id ∈ ((besideReader.foldl step (begun newFiles)).locks.txns 2).lockSet, (f.contents id.rid).isSome = true := by decide +kernel
  intro w member _ f here other apart rid locked _
  rw [table w member] at here
  by_cases one : other = 1
  · rw [one,first] at locked
    cases locked
  by_cases two : other = 2
  · rw [two] at locked
    exact second f here _ locked
  · rw [others other (by simp [besideReader,one,two,apart])] at locked
    cases locked

/-- Transaction 2 deletes the first of two rows and transaction 3 the second. -/
def twoDeletions : List (TxnId × Action) :=
  [(1,.row "t" (.insert (record 0).1)),(1,.row "t" (.insert (record 1).1)),(1,.commit),(2,.row "t" (.delete ⟨1,0⟩)),
    (3,.row "t" (.delete ⟨1,1⟩))]

/-- The row of transaction 3 would go into the slot that transaction 2 has freed and still locks. -/
theorem second_deletion_stuck : Guarded step Legal (begun newFiles) twoDeletions ∧
    ((twoDeletions.foldl step (begun newFiles)).locks.txns 3).state.ended = false ∧
    ¬ Completes 3 (twoDeletions.foldl step (begun newFiles)) := by
  refine ⟨by decide +kernel,by decide +kernel,fun completes => ?_⟩
  have thrown : (abort 3 (twoDeletions.foldl step (begun newFiles))).1.isOk = false := by decide +kernel
  rw [completes.returned] at thrown
  cases thrown

end Rucbase.AbortRuns
