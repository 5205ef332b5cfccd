import Rucbase.NodeBytes
import Rucbase.PoolFrames
import Rucbase.RmFileHandle
import Rucbase.IxIndexHandle
import Mathlib.Data.Fintype.EquivFin

/-! The reads of tables and indexes as calls of the buffer pool, and the pins they leave. Every
page a table read looks at is fetched and not released; of the index reads only a lookup of a
slot releases its page, and only when the slot is in use. -/
namespace Rucbase

open Lib Lib.Prog BufferPool LockManager IxIndexHandle

/-- The bytes of a page as a record page. -/
def RmPage.ofData (data : PageData) : RmPage where
  nextFreePageNo := bytesInt ((List.range 4).map fun k => data (Fin.ofNat pageSize (4 + k)))
  numRecords := bytesInt ((List.range 4).map fun k => data (Fin.ofNat pageSize (8 + k)))
  body i := data (Fin.ofNat pageSize (12 + i))

namespace BufferPool

/-- `fetch_page` by a caller that uses the page at once: a null pointer ends the process. -/
def fetchUsed (id : PageId) : PoolCall PageData := do
  match ← fetchPage id with
  | none => raise .assertion
  | some frame => do
    let s ← state
    pure (s.pages frame).data

/-- The bytes a fetch delivers, if it returns a page. -/
def fetched (s : BufferPool) (id : PageId) : Option PageData :=
  match fetchPage id s with
  | (.ok (some frame),next) => some (next.pages frame).data
  | _ => none

end BufferPool

/-- An open table: descriptor and header of its `RmFileHandle`. -/
structure TableFile where
  fd : Int
  fileHdr : RmFileHdr

namespace TableFile

variable (t : TableFile)

def fetchPageHandle (pageNo : Int) : PoolCall RmPage :=
  if pageNo = invalidPageId then raise (.pageNotExist "" pageNo)
  else do
    let data ← fetchUsed ⟨t.fd,pageNo⟩
    pure (RmPage.ofData data)

/-- `get_record` behind its lock. -/
def readRecord (rid : Rid) : PoolCall (List Byte) := do
  let page ← t.fetchPageHandle rid.pageNo
  pure (RmPage.getSlot t.fileHdr page rid.slotNo.toNat)

def isRecord (rid : Rid) : PoolCall Bool := do
  let page ← t.fetchPageHandle rid.pageNo
  pure (Bitmap.isSet page rid.slotNo.toNat)

/-- The loop of `RmScan::next`, with `rounds` pages from `pageNo` on. -/
def nextRecord : Nat → Int → Int → PoolCall Rid
  | 0, _, slotNo => pure ⟨rmNoPage,slotNo⟩
  | rounds + 1, pageNo, slotNo => do
    let page ← t.fetchPageHandle pageNo
    let slot := Bitmap.nextBit true page t.fileHdr.numRecordsPerPage slotNo
    if slot < t.fileHdr.numRecordsPerPage then pure ⟨pageNo,slot⟩
    else nextRecord rounds (pageNo + 1) (-1)

def scanNext (rid : Rid) : PoolCall Rid :=
  t.nextRecord (t.fileHdr.numPages - rid.pageNo).toNat rid.pageNo rid.slotNo

/-- `next` until `is_end`, for at most `rounds` rows. -/
def scanRest : Nat → Rid → PoolCall (List Rid)
  | 0, _ => pure []
  | rounds + 1, rid =>
    if rid.pageNo = rmNoPage then pure []
    else do
      let next ← t.scanNext rid
      let rest ← scanRest rounds next
      pure (rid :: rest)

/-- An `RmScan`: its constructor looks for the first row. -/
def scan (rounds : Nat) : PoolCall (List Rid) := do
  let first ← t.scanNext ⟨1,-1⟩
  t.scanRest rounds first

end TableFile

/-- The pool with the header an index handle keeps. -/
structure IndexPool where
  hdr : IxFileHdr
  pool : BufferPool

namespace IndexPool

variable {κ : Type}

def onPool {α : Type} (call : PoolCall α) : Prog IndexPool RMDBError α := fun s =>
  ((call s.pool).1,{ s with pool := (call s.pool).2 })

/-- The frame of a resident page. -/
def frameOf (id : PageId) : Prog IndexPool RMDBError FrameId := do
  let s ← state
  match s.pool.pageTable id with
  | some frame => pure frame
  | none => raise .assertion

/-- An index file in the pool. `decode` and `encode` say how a node lies in its page. -/
def store (fd : Int) (decode : PageData → IxNode κ) (encode : IxNode κ → PageData) : PageStore IndexPool κ where
  fetch p := do
    let _ ← onPool (fetchUsed ⟨fd,p⟩)
    pure ()
  newPage := do
    match ← onPool (newPage fd) with
    | none => raise .assertion
    | some (_,id) => pure id.pageNo
  unpin p isDirty := onPool (unpinPage ⟨fd,p⟩ isDirty)
  read p := do
    let frame ← frameOf ⟨fd,p⟩
    let s ← state
    pure (decode (s.pool.pages frame).data)
  write p node := do
    let frame ← frameOf ⟨fd,p⟩
    update fun s => { s with pool := s.pool.setPage frame { s.pool.pages frame with data := encode node } }
  hdr := do
    let s ← state
    pure s.hdr
  setHdr f := update fun s => { s with hdr := f s.hdr }
  pageCount := do
    let s ← state
    pure (s.pool.disk.fd2pageno fd)

end IndexPool

/-! ### The pins a call leaves -/

namespace BufferPool

variable {s : BufferPool} {f : FrameId} {id : PageId}

theorem pin_mapped (mapped : s.pageTable id = some f) : s.abs.pin id = (s.pages f).pinCount :=
  (abs_mapped _ mapped).2.1

theorem pin_absent (absent : s.pageTable id = none) : s.abs.pin id = 0 := by
  simp [abs,absOn,cacheOf,entry,absent]

theorem Accounted.housed (accounted : s.Accounted noFrame) : s.Housed := ⟨accounted.framed,accounted.home⟩

theorem Framed.pin_put (framed : s.Framed) (mapped : s.pageTable id = some f) (page : Page)
    (replacer : LruReplacer FrameId) (disk : DiskManager) :
    (abs { s with pages := Function.update s.pages f page, replacer := replacer, disk := disk }).pin =
      Function.update s.abs.pin id page.pinCount :=
  congrArg PageCache.pin (modified_abs framed mapped page replacer disk)

theorem unpinned_put (idle : (s.pages f).pinCount = 0) (page : Page) (still : page.pinCount = 0)
    (replacer : LruReplacer FrameId) (disk : DiskManager) :
    (abs { s with pages := Function.update s.pages f page, replacer := replacer, disk := disk }).pin = s.abs.pin := by
  funext q
  cases mapped : s.pageTable q with
  | none => simp [abs,absOn,cacheOf,entry,mapped]
  | some g =>
    by_cases here : g = f
    · subst g; simp [abs,absOn,cacheOf,entry,mapped,idle,still]
    · simp [abs,absOn,cacheOf,entry,mapped,here]

theorem Housed.pin_handed (housed : s.Housed) (chosen : s.Chosen f) (absent : s.pageTable id = none) (disk : DiskManager) :
    (s.handed f id disk).abs.pin = s.abs.pin := by
  funext q
  cases now : (s.handed f id disk).pageTable q with
  | some g =>
    rw [pin_mapped now]
    rcases handed_table now with ⟨rfl,rfl,_⟩ | ⟨other,old⟩
    · rw [pin_absent absent]
      simpa [handed] using chosen.idle
    · have apart : g ≠ f := fun same => other (by rw [← same,(housed.framed.table q g old).2.1])
      rw [pin_mapped old]
      simp [handed,apart]
  | none =>
    rw [pin_absent now]
    cases old : s.pageTable q with
    | none => rw [pin_absent old]
    | some g =>
      -- only the old page of the frame left the table
      obtain ⟨bound,named,numbered⟩ := housed.framed.table q g old
      by_cases here : g = f
      · subst g
        rw [pin_mapped old,chosen.idle]
      · have home := housed.homed.handed chosen.bound absent disk g bound (by simpa [handed,here,named] using numbered)
        simp only [handed,Function.update_of_ne here,named] at home now
        rw [now] at home
        cases home

/-- What is left of a fetch: one more pin if it returned a page, and the pins there were if not. -/
structure Fetched (s : BufferPool) (id : PageId) (result : Except RMDBError (Option FrameId)) (next : BufferPool) : Prop where
  housed : next.Housed
  size : next.poolSize = s.poolSize
  page : ∀ f, result = .ok (some f) → next.pageTable id = some f ∧
    next.abs.pin = Function.update s.abs.pin id (s.abs.pin id + 1)
  null : result = .ok none → next = s
  none : (∀ f, result ≠ .ok (some f)) → next.abs.pin = s.abs.pin

theorem Housed.fetchPage (housed : s.Housed) (id : PageId) :
    Fetched s id (fetchPage id s).1 (fetchPage id s).2 := by
  have framed := fetchPage_framed housed.framed id
  rw [after,fetchPage_eq] at framed
  rw [fetchPage_eq]
  cases mapped : s.pageTable id with
  | some f =>
    rw [mapped] at framed
    dsimp only at framed ⊢
    refine ⟨⟨framed,housed.homed.put { s.pages f with pinCount := (s.pages f).pinCount + 1 } rfl _ s.disk⟩,rfl,
      fun g same => ?_,by simp,fun other => absurd rfl (other f)⟩
    obtain rfl : f = g := by simpa using same
    refine ⟨mapped,?_⟩
    rw [pin_mapped mapped]
    exact housed.framed.pin_put mapped _ _ s.disk
  | none =>
  rw [mapped] at framed
  cases found : s.victimFrame with
  | none =>
    dsimp only
    rw [taken_none found]
    exact ⟨housed,rfl,by simp,fun _ => rfl,fun _ => rfl⟩
  | some f =>
  rw [found] at framed
  obtain ⟨taken,chosen⟩ := housed.taken found
  have pins : s.taken.abs.pin = s.abs.pin := congrArg PageCache.pin (taken_abs s)
  have size : s.taken.poolSize = s.poolSize := by
    unfold BufferPool.taken
    split <;> rfl
  dsimp only at framed ⊢
  cases wrote : s.taken.writeBack f with
  | mk result disk =>
  rw [wrote] at framed
  cases result with
  | error e =>
    dsimp only at framed ⊢
    refine ⟨⟨framed,taken.homed.put { s.taken.pages f with isDirty := false } rfl _ disk⟩,size,by simp,by simp,fun _ => ?_⟩
    rw [← pins]
    exact unpinned_put chosen.idle { s.taken.pages f with isDirty := false } chosen.idle _ disk
  | ok _ =>
  have absent : s.taken.pageTable id = none := by rw [taken_table,mapped]
  have homed := taken.homed.handed chosen.bound absent disk
  have handed := taken.pin_handed chosen absent disk
  have page : (s.taken.handed f id disk).pages f = ⟨id,PageData.zero,false,(s.taken.pages f).pinCount⟩ := by
    simp [BufferPool.handed]
  have idle : ((s.taken.handed f id disk).pages f).pinCount = 0 := by rw [page]; exact chosen.idle
  dsimp only at framed ⊢
  by_cases readable : disk.readable id.fd id.pageNo pageSize
  · simp only [if_pos readable] at framed ⊢
    have home : (s.taken.handed f id disk).pageTable id = some f := by
      have named := homed f chosen.bound (by rw [page]; exact readable_numbered readable)
      rwa [page] at named
    rw [filled_pinnedFirst] at framed ⊢
    refine ⟨⟨framed,homed.put ⟨id,disk.content id,false,1⟩ (by rw [page]) _ _⟩,size,fun g same => ?_,by simp,
      fun other => absurd rfl (other f)⟩
    obtain rfl : f = g := by simpa using same
    refine ⟨home,?_⟩
    rw [← pins,← handed,pin_mapped home,idle]
    exact (Housed.framed ⟨taken.framed.handed chosen id disk,homed⟩).pin_put home _ _ _
  · simp only [if_neg readable] at framed ⊢
    refine ⟨⟨framed,homed.put ⟨id,disk.content id,false,(s.taken.pages f).pinCount⟩ (by rw [page]) _ disk⟩,size,by simp,by simp,
      fun _ => ?_⟩
    rw [← pins,← handed]
    exact unpinned_put idle ⟨id,disk.content id,false,(s.taken.pages f).pinCount⟩ chosen.idle _ disk

theorem Housed.unpinPage (housed : s.Housed) (mapped : s.pageTable id = some f) (pinned : s.abs.pin id ≠ 0) (isDirty : Bool) :
    ∃ next, unpinPage id isDirty s = (.ok true,next) ∧ next.Housed ∧
      next.abs.pin = Function.update s.abs.pin id (s.abs.pin id - 1) := by
  rw [pin_mapped mapped] at pinned ⊢
  have run := unpinPage_eq s id isDirty
  simp only [mapped,if_neg pinned] at run
  refine ⟨_,run,⟨released_framed housed.framed mapped pinned isDirty,?_⟩,?_⟩
  · exact housed.homed.put (released (s.pages f) isDirty) rfl _ s.disk
  · exact housed.framed.pin_put mapped (released (s.pages f) isDirty) _ s.disk

theorem Housed.fetchUsed (housed : s.Housed) (id : PageId) :
    (∃ f data next, s.fetched id = some data ∧ fetchUsed id s = (.ok data,next) ∧ next.Housed ∧
      next = (BufferPool.fetchPage id).after s ∧ next.pageTable id = some f ∧ (next.pages f).data = data ∧
      next.abs.pin = Function.update s.abs.pin id (s.abs.pin id + 1)) ∨
    s.fetched id = none ∧ ∃ e next, fetchUsed id s = (.error e,next) ∧ next.Housed ∧
      next = (BufferPool.fetchPage id).after s ∧ next.abs.pin = s.abs.pin := by
  have left := housed.fetchPage id
  unfold BufferPool.fetched BufferPool.fetchUsed
  rw [bind_run]
  match run : BufferPool.fetchPage id s with
  | (.ok (some f),next) =>
    rw [run] at left
    obtain ⟨mapped,pins⟩ := left.page f rfl
    exact .inl ⟨f,_,next,rfl,rfl,left.housed,(after_eq run).symm,mapped,rfl,pins⟩
  | (.ok none,next) =>
    rw [run] at left
    exact .inr ⟨rfl,_,next,rfl,left.housed,(after_eq run).symm,left.none nofun⟩
  | (.error e,next) =>
    rw [run] at left
    exact .inr ⟨rfl,e,next,rfl,left.housed,(after_eq run).symm,left.none nofun⟩

theorem fetched_unnumbered (framed : s.Framed) (unnumbered : id.pageNo = invalidPageId) : s.fetched id = none := by
  unfold fetched
  rw [fetchPage_eq,framed.unnumbered_absent unnumbered]
  cases s.victimFrame with
  | none => rfl
  | some f =>
  dsimp only
  cases s.taken.writeBack f with
  | mk result disk =>
  cases result with
  | error e => rfl
  | ok _ =>
    have unreadable : ¬disk.readable id.fd id.pageNo pageSize = true := fun readable => readable_numbered readable unnumbered
    dsimp only
    rw [if_neg unreadable]

/-- No pin is lost. -/
def Grows (s next : BufferPool) : Prop := s.Housed → next.Housed ∧ ∀ id, s.abs.pin id ≤ next.abs.pin id

theorem Grows.frame : Frame Grows where
  refl _ housed := ⟨housed,fun _ => Nat.le_refl _⟩
  trans _ _ _ first second housed :=
    have ⟨middle,low⟩ := first housed
    have ⟨final,high⟩ := second middle
    ⟨final,fun id => (low id).trans (high id)⟩

theorem le_update_succ (pins : PageId → Nat) (id q : PageId) : pins q ≤ Function.update pins id (pins id + 1) q := by
  by_cases here : q = id
  · subst q; simp
  · simp [here]

theorem fetchUsed_grows (id : PageId) : Within Grows (fetchUsed id) := by
  intro s housed
  rcases housed.fetchUsed id with ⟨_,_,next,_,run,housed',_,_,_,pins⟩ | ⟨_,_,next,run,housed',_,pins⟩
  · rw [after_eq run,pins]
    exact ⟨housed',le_update_succ _ id⟩
  · rw [after_eq run,pins]
    exact ⟨housed',fun _ => Nat.le_refl _⟩

theorem grown_kept {s next final : BufferPool} (pins : next.abs.pin = Function.update s.abs.pin id (s.abs.pin id + 1))
    (grown : ∀ id, next.abs.pin id ≤ final.abs.pin id) : ¬∀ id, final.abs.pin id = s.abs.pin id := by
  intro kept
  have more := grown id
  rw [kept,pins,Function.update_self] at more
  omega

end BufferPool

namespace TableFile

variable (t : TableFile)

theorem fetchPageHandle_grows (pageNo : Int) : Within BufferPool.Grows (t.fetchPageHandle pageNo) := by
  unfold fetchPageHandle
  split
  · exact Grows.frame.raise _
  · exact Grows.frame.bind (fetchUsed_grows _) fun _ => Grows.frame.pure _

theorem nextRecord_grows (rounds : Nat) (pageNo slotNo : Int) : Within BufferPool.Grows (t.nextRecord rounds pageNo slotNo) := by
  induction rounds generalizing pageNo slotNo with
  | zero => exact Grows.frame.pure _
  | succ rounds ih =>
    refine Grows.frame.bind (t.fetchPageHandle_grows pageNo) fun page => ?_
    dsimp only
    split
    · exact Grows.frame.pure _
    · exact ih _ _

theorem scanRest_grows (rounds : Nat) (rid : Rid) : Within BufferPool.Grows (t.scanRest rounds rid) := by
  induction rounds generalizing rid with
  | zero => exact Grows.frame.pure _
  | succ rounds ih =>
    unfold scanRest
    split
    · exact Grows.frame.pure _
    · exact Grows.frame.bind (t.nextRecord_grows _ _ _) fun next => Grows.frame.bind (ih next) fun _ => Grows.frame.pure _

theorem kept_iff {α : Type} (rest : RmPage → PoolCall α) (grows : ∀ page, Within BufferPool.Grows (rest page)) (pageNo : Int)
    {s : BufferPool} (housed : s.Housed) :
    (∀ id, ((t.fetchPageHandle pageNo >>= rest).after s).abs.pin id = s.abs.pin id) ↔ s.fetched ⟨t.fd,pageNo⟩ = none := by
  by_cases unnumbered : pageNo = invalidPageId
  · have run : t.fetchPageHandle pageNo s = (.error (.pageNotExist "" pageNo),s) := by simp [fetchPageHandle,unnumbered]
    rw [after,bind_error run]
    exact ⟨fun _ => fetched_unnumbered housed.framed unnumbered,fun _ _ => rfl⟩
  · have first : t.fetchPageHandle pageNo = fetchUsed ⟨t.fd,pageNo⟩ >>= fun data => pure (RmPage.ofData data) := by
      simp [fetchPageHandle,unnumbered]
    rcases housed.fetchUsed ⟨t.fd,pageNo⟩ with ⟨_,data,next,here,run,housed',_,_,_,pins⟩ | ⟨absent,e,next,run,_,_,pins⟩
    · have done : t.fetchPageHandle pageNo s = (.ok (RmPage.ofData data),next) := by rw [first,bind_ok run]; rfl
      rw [after,bind_ok done,here]
      exact iff_of_false (grown_kept pins (grows _ next housed').2) (by simp)
    · have failed : t.fetchPageHandle pageNo s = (.error e,next) := by rw [first,bind_error run]
      rw [after,bind_error failed,pins]
      exact ⟨fun _ => absent,fun _ _ => rfl⟩

/-- A scan of a file with one page does nothing; another one first fetches page 1. -/
theorem scan_cases (rounds : Nat) : (t.fileHdr.numPages ≤ 1 ∧ ∀ s, (t.scan rounds).after s = s) ∨
    ¬t.fileHdr.numPages ≤ 1 ∧ ∃ rest, t.scan rounds = t.fetchPageHandle 1 >>= rest ∧ ∀ page, Within BufferPool.Grows (rest page) := by
  unfold scan scanNext
  match pages : ((t.fileHdr.numPages : Int) - 1).toNat with
  | 0 =>
    -- the constructor ends the scan, and the loop is over before its first round
    refine .inl ⟨by omega,fun s => ?_⟩
    cases rounds <;> rfl
  | n + 1 =>
    unfold nextRecord
    rw [bind_assoc]
    refine .inr ⟨by omega,_,rfl,fun page => Grows.frame.bind ?_ fun rid => t.scanRest_grows rounds rid⟩
    dsimp only
    split
    · exact Grows.frame.pure _
    · exact t.nextRecord_grows _ _ _

end TableFile

/-! ### Index reads -/

namespace IndexPool

variable {κ : Type} {fd : Int} {decode : PageData → IxNode κ} {encode : IxNode κ → PageData} {s : IndexPool}

theorem read_run {p : Int} {f : FrameId} (mapped : s.pool.pageTable ⟨fd,p⟩ = some f) :
    (store fd decode encode).read p s = (.ok (decode (s.pool.pages f).data),s) := by
  simp [store,frameOf,bind_run,mapped]

theorem fetch_cases (housed : s.pool.Housed) (fd : Int) (decode : PageData → IxNode κ) (encode : IxNode κ → PageData) (p : Int) :
    (∃ f data next, s.pool.fetched ⟨fd,p⟩ = some data ∧ (store fd decode encode).fetch p s = (.ok (),next) ∧
      next.pool.Housed ∧ next.pool = (fetchPage ⟨fd,p⟩).after s.pool ∧ next.pool.pageTable ⟨fd,p⟩ = some f ∧
      (store fd decode encode).read p next = (.ok (decode data),next) ∧
      next.pool.abs.pin = Function.update s.pool.abs.pin ⟨fd,p⟩ (s.pool.abs.pin ⟨fd,p⟩ + 1)) ∨
    s.pool.fetched ⟨fd,p⟩ = none ∧ ∃ e next, (store fd decode encode).fetch p s = (.error e,next) ∧ next.pool.Housed ∧
      next.pool = (fetchPage ⟨fd,p⟩).after s.pool ∧ next.pool.abs.pin = s.pool.abs.pin := by
  rcases housed.fetchUsed ⟨fd,p⟩ with ⟨f,data,next,here,run,housed',pool,mapped,bytes,pins⟩ | ⟨absent,e,next,run,rest⟩
  · have fetched : (store fd decode encode).fetch p s = (.ok (),⟨s.hdr,next⟩) := by
      simp [store,bind_run,onPool,run]
    have node : (store fd decode encode).read p ⟨s.hdr,next⟩ = (.ok (decode data),⟨s.hdr,next⟩) := by
      rw [read_run (s := ⟨s.hdr,next⟩) mapped,bytes]
    exact .inl ⟨f,data,_,here,fetched,housed',pool,mapped,node,pins⟩
  · have failed : (store fd decode encode).fetch p s = (.error e,⟨s.hdr,next⟩) := by
      simp [store,bind_run,onPool,run]
    exact .inr ⟨absent,e,_,failed,rest⟩

/-- A slot in use is read and its page released; a slot behind the last pair leaves the page pinned. -/
theorem getRid_cases (housed : s.pool.Housed) (fd : Int) (decode : PageData → IxNode κ) (encode : IxNode κ → PageData)
    (iid : Iid) :
    (∃ data f rid next, s.pool.fetched ⟨fd,iid.pageNo⟩ = some data ∧ iid.slotNo < (decode data).size ∧
      getRid (store fd decode encode) iid s = (.ok rid,next) ∧ next.pool.Housed ∧
      next.pool = (unpinPage ⟨fd,iid.pageNo⟩ false).after ((fetchPage ⟨fd,iid.pageNo⟩).after s.pool) ∧
      next.pool.pageTable ⟨fd,iid.pageNo⟩ = some f ∧
      next.pool.abs.pin = s.pool.abs.pin) ∨
    (∃ data e next, s.pool.fetched ⟨fd,iid.pageNo⟩ = some data ∧ ¬iid.slotNo < (decode data).size ∧
      getRid (store fd decode encode) iid s = (.error e,next) ∧ next.pool.Housed ∧
      next.pool.abs.pin = Function.update s.pool.abs.pin ⟨fd,iid.pageNo⟩ (s.pool.abs.pin ⟨fd,iid.pageNo⟩ + 1)) ∨
    s.pool.fetched ⟨fd,iid.pageNo⟩ = none ∧ ∃ e next, getRid (store fd decode encode) iid s = (.error e,next) ∧
      next.pool.Housed ∧ next.pool = (fetchPage ⟨fd,iid.pageNo⟩).after s.pool ∧ next.pool.abs.pin = s.pool.abs.pin := by
  unfold getRid
  rcases fetch_cases housed fd decode encode iid.pageNo with
    ⟨f,data,next,here,fetched,housed',pool,mapped,node,pins⟩ | ⟨absent,e,next,failed,housed',pool,pins⟩
  · rw [bind_ok fetched,bind_ok node]
    by_cases inside : iid.slotNo < (decode data).size
    · have pair : (decode data).pairs[iid.slotNo]? = some (decode data).pairs[iid.slotNo] := List.getElem?_eq_getElem inside
      rw [pair]
      have pinned : next.pool.abs.pin ⟨fd,iid.pageNo⟩ ≠ 0 := by simp [pins]
      obtain ⟨final,unpin,housed'',dropped⟩ := housed'.unpinPage mapped pinned false
      have released : (store fd decode encode).unpin iid.pageNo false next = (.ok true,⟨next.hdr,final⟩) := by
        simp [store,onPool,unpin]
      have resident : final.pageTable ⟨fd,iid.pageNo⟩ = some f := by
        have run := unpinPage_eq next.pool ⟨fd,iid.pageNo⟩ false
        rw [pin_mapped mapped] at pinned
        rw [mapped,unpin] at run
        dsimp only at run
        rw [if_neg pinned] at run
        rw [(Prod.mk.inj run).2]
        exact mapped
      dsimp only
      rw [bind_ok released]
      refine .inl ⟨data,f,_,_,here,inside,rfl,housed'',?_,resident,?_⟩
      · rw [← pool,after_eq unpin]
      · dsimp only
        rw [dropped,pins]
        simp
    · have behind : (decode data).pairs[iid.slotNo]? = none := List.getElem?_eq_none (Nat.le_of_not_lt inside)
      rw [behind]
      exact .inr (.inl ⟨data,_,next,here,inside,rfl,housed',pins⟩)
  · rw [bind_error failed]
    exact .inr (.inr ⟨absent,e,next,rfl,housed',pool,pins⟩)

/-- No pin is lost in the pool of the index. -/
def Grows (s next : IndexPool) : Prop := BufferPool.Grows s.pool next.pool

theorem Grows.frame : Frame Grows where
  refl s := BufferPool.Grows.frame.refl s.pool
  trans s next final := BufferPool.Grows.frame.trans s.pool next.pool final.pool

variable (fd decode encode)

theorem read_grows (p : Int) : Within Grows ((store fd decode encode).read p) := by
  refine Grows.frame.bind (Grows.frame.bind Grows.frame.state fun s => ?_) fun _ =>
    Grows.frame.bind Grows.frame.state fun _ => Grows.frame.pure _
  split
  · exact Grows.frame.pure _
  · exact Grows.frame.raise _

theorem fetch_grows (p : Int) : Within Grows ((store fd decode encode).fetch p) :=
  Grows.frame.bind (fun s => fetchUsed_grows ⟨fd,p⟩ s.pool) fun _ => Grows.frame.pure _

theorem getRid_grows (iid : Iid) : Within Grows (getRid (store fd decode encode) iid) := by
  intro s housed
  rcases getRid_cases housed fd decode encode iid with
    ⟨_,_,_,_,_,_,run,housed',_,_,pins⟩ | ⟨_,_,_,_,_,run,housed',pins⟩ | ⟨_,_,_,run,housed',_,pins⟩
  · rw [after_eq run,pins]
    exact ⟨housed',fun _ => Nat.le_refl _⟩
  · rw [after_eq run,pins]
    exact ⟨housed',le_update_succ _ _⟩
  · rw [after_eq run,pins]
    exact ⟨housed',fun _ => Nat.le_refl _⟩

/-- What `IxScan::next` does behind its fetch. -/
def advance (iid : Iid) : Prog IndexPool RMDBError Iid := do
  let node ← (store fd decode encode).read iid.pageNo
  Prog.check node.isLeaf .assertion
  Prog.check (iid.slotNo < node.size) .assertion
  let hdr ← (store fd decode encode).hdr
  if iid.pageNo ≠ hdr.lastLeaf ∧ iid.slotNo + 1 = node.size then pure ⟨node.nextLeaf,0⟩
  else pure ⟨iid.pageNo,iid.slotNo + 1⟩

theorem scanNext_eq {iid upper : Iid} (more : iid ≠ upper) :
    scanNext (store fd decode encode) iid upper =
      (store fd decode encode).fetch iid.pageNo >>= fun _ => advance fd decode encode iid := by
  simp [scanNext,check,more,advance]
  rfl

theorem advance_grows (iid : Iid) : Within Grows (advance fd decode encode iid) := by
  refine Grows.frame.bind (read_grows fd decode encode iid.pageNo) fun node => Grows.frame.bind (Grows.frame.check _ _) fun _ =>
    Grows.frame.bind (Grows.frame.check _ _) fun _ =>
      Grows.frame.bind (Grows.frame.bind Grows.frame.state fun _ => Grows.frame.pure _) fun hdr => ?_
  split <;> exact Grows.frame.pure _

theorem scanRids_grows (upper : Iid) (rounds : Nat) (iid : Iid) :
    Within Grows (scanRids (store fd decode encode) upper rounds iid) := by
  induction rounds generalizing iid with
  | zero => exact Grows.frame.pure _
  | succ rounds ih =>
    unfold scanRids
    split
    · exact Grows.frame.pure _
    · rename_i more
      rw [scanNext_eq fd decode encode more]
      refine Grows.frame.bind (getRid_grows fd decode encode iid) fun rid => ?_
      refine Grows.frame.bind ?_ fun next => Grows.frame.bind (ih next) fun _ => Grows.frame.pure _
      exact Grows.frame.bind (fetch_grows fd decode encode _) fun _ => advance_grows fd decode encode iid

theorem getRid_kept_iff (iid : Iid) (housed : s.pool.Housed) :
    (∀ id, ((getRid (store fd decode encode) iid).after s).pool.abs.pin id = s.pool.abs.pin id) ↔
      ∀ data, s.pool.fetched ⟨fd,iid.pageNo⟩ = some data → iid.slotNo < (decode data).size := by
  rcases getRid_cases housed fd decode encode iid with
    ⟨data,_,_,_,here,inside,run,_,_,_,pins⟩ | ⟨data,_,next,here,behind,run,_,pins⟩ | ⟨absent,_,_,run,_,_,pins⟩
  · rw [after_eq run,pins,here]
    exact iff_of_true (fun _ => rfl) fun _ same => Option.some.inj same ▸ inside
  · rw [after_eq run,here]
    exact iff_of_false (grown_kept pins fun _ => Nat.le_refl _) fun all => behind (all data rfl)
  · rw [after_eq run,pins,absent]
    exact iff_of_true (fun _ => rfl) nofun

/-- The first page of a scan that is not over stays pinned. -/
theorem scanRids_kept_iff (lower upper : Iid) (rounds : Nat) (housed : s.pool.Housed) :
    (∀ id, ((scanRids (store fd decode encode) upper (rounds + 1) lower).after s).pool.abs.pin id =
      s.pool.abs.pin id) ↔ lower = upper ∨ s.pool.fetched ⟨fd,lower.pageNo⟩ = none := by
  unfold scanRids
  by_cases isOver : lower = upper
  · rw [if_pos isOver]
    exact iff_of_true (fun _ => rfl) (.inl isOver)
  · rw [if_neg isOver,or_iff_right isOver,after]
    rcases getRid_cases housed fd decode encode lower with
      ⟨data,f,rid,next,here,_,run,housed',_,mapped,pins⟩ | ⟨data,_,next,here,_,run,_,pins⟩ | ⟨absent,_,_,run,_,_,pins⟩
    · -- the page is resident now, so `next` gets it
      rw [bind_ok run,here,scanNext_eq fd decode encode isOver,bind_assoc]
      rcases fetch_cases housed' fd decode encode lower.pageNo with
        ⟨_,_,final,_,fetched,housed'',_,_,_,more⟩ | ⟨gone,_⟩
      · rw [bind_ok fetched]
        rw [pins] at more
        refine iff_of_false (grown_kept more ?_) (by simp)
        refine (Grows.frame.bind (advance_grows fd decode encode lower) (fun next => ?_) final housed'').2
        exact Grows.frame.bind (scanRids_grows fd decode encode upper rounds next) fun _ => Grows.frame.pure _
      · unfold fetched at gone
        rw [fetchPage_eq,mapped] at gone
        cases gone
    · rw [bind_error run,here]
      exact iff_of_false (grown_kept pins fun _ => Nat.le_refl _) (by simp)
    · rw [bind_error run,pins,absent]
      exact iff_of_true (fun _ => rfl) rfl

end IndexPool

/-! ### Reads of a server -/

/-- The lock manager and the pool of one server. -/
structure Server where
  locks : LockState
  pool : BufferPool

namespace Server

def onPool {α : Type} (call : PoolCall α) : Prog Server DbError α := fun s =>
  ((call s.pool).1.mapError .rmdb,{ s with pool := (call s.pool).2 })

/-- The shared lock of `get_record`, if there is a context. -/
def lockRow (t : TableFile) (rid : Rid) (context : Option TxnId) : Prog Server DbError Unit := fun s =>
  ((Db.rowLock lockSharedOnRecord context rid t.fd s.locks).1.mapError .abort,
    { s with locks := (Db.rowLock lockSharedOnRecord context rid t.fd s.locks).2 })

end Server

/-- An open index: descriptor and header of its `IxIndexHandle`, and how a node lies in its page. -/
structure NodeFile (κ : Type) where
  fd : Int
  hdr : IxFileHdr
  decode : PageData → IxNode κ
  encode : IxNode κ → PageData

namespace NodeFile

variable {κ : Type}

def call {α : Type} (ix : NodeFile κ) (x : PageStore IndexPool κ → Prog IndexPool RMDBError α) : PoolCall α := fun pool =>
  ((x (IndexPool.store ix.fd ix.decode ix.encode) ⟨ix.hdr,pool⟩).1,
    (x (IndexPool.store ix.fd ix.decode ix.encode) ⟨ix.hdr,pool⟩).2.pool)

end NodeFile

/-- The reads of tables and indexes. The scans deliver at most so many rows, an index scan one more. -/
inductive Read (κ : Type) where
  | getRecord (t : TableFile) (rid : Rid) (context : Option TxnId)
  | isRecord (t : TableFile) (rid : Rid)
  | rmScan (t : TableFile) (rounds : Nat)
  | getRid (ix : NodeFile κ) (iid : Iid)
  | ixScan (ix : NodeFile κ) (lower upper : Iid) (rounds : Nat)

namespace Read

variable {κ : Type}

def call : Read κ → Prog Server DbError Unit
  | .getRecord t rid context => do
    Server.lockRow t rid context
    let _ ← Server.onPool (t.readRecord rid)
  | .isRecord t rid => do
    let _ ← Server.onPool (t.isRecord rid)
  | .rmScan t rounds => do
    let _ ← Server.onPool (t.scan rounds)
  | .getRid ix iid => do
    let _ ← Server.onPool (ix.call fun st => IxIndexHandle.getRid st iid)
  | .ixScan ix lower upper rounds => do
    let _ ← Server.onPool (ix.call fun st => scanRids st upper (rounds + 1) lower)

def step (s : Server) (r : Read κ) : Server := r.call.after s

/-- The read gets no page, or gets it to look up a slot that is in use. -/
def Harmless (s : Server) : Read κ → Prop
  | .getRecord t rid context =>
    (Db.rowLock lockSharedOnRecord context rid t.fd s.locks).1.isOk = false ∨
      s.pool.fetched ⟨t.fd,rid.pageNo⟩ = none
  | .isRecord t rid => s.pool.fetched ⟨t.fd,rid.pageNo⟩ = none
  | .rmScan t _ => t.fileHdr.numPages ≤ 1 ∨ s.pool.fetched ⟨t.fd,1⟩ = none
  | .getRid ix iid => ∀ data, s.pool.fetched ⟨ix.fd,iid.pageNo⟩ = some data → iid.slotNo < (ix.decode data).size
  | .ixScan ix lower upper _ => lower = upper ∨ s.pool.fetched ⟨ix.fd,lower.pageNo⟩ = none

theorem onPool_after {α : Type} (call : PoolCall α) (s : Server) :
    ((do let _ ← Server.onPool call : Prog Server DbError Unit).after s).pool = call.after s.pool := by
  rw [after,bind_run]
  rcases run : call s.pool with ⟨e | a,next⟩ <;> simp [Server.onPool,run,Except.mapError,after]

theorem getRecord_pool (t : TableFile) (rid : Rid) (context : Option TxnId) (s : Server) :
    (step s (.getRecord t rid context : Read κ)).pool =
      if (Db.rowLock lockSharedOnRecord context rid t.fd s.locks).1.isOk then (t.readRecord rid).after s.pool else s.pool := by
  rw [step,call,after]
  rcases locked : Db.rowLock lockSharedOnRecord context rid t.fd s.locks with ⟨e | _,locks⟩
  · have refused : Server.lockRow t rid context s = (.error (.abort e),{ s with locks := locks }) := by
      simp [Server.lockRow,locked,Except.mapError]
    rw [bind_error refused]
    rfl
  · have granted : Server.lockRow t rid context s = (.ok (),{ s with locks := locks }) := by
      simp [Server.lockRow,locked,Except.mapError]
    have pool := onPool_after (t.readRecord rid) { s with locks := locks }
    rw [after] at pool
    rw [bind_ok granted,pool]
    rfl

theorem kept_iff (s : Server) (housed : s.pool.Housed) (r : Read κ) :
    (∀ id, (step s r).pool.abs.pin id = s.pool.abs.pin id) ↔ r.Harmless s := by
  cases r with
  | getRecord t rid context =>
    rw [getRecord_pool,Harmless]
    cases (Db.rowLock lockSharedOnRecord context rid t.fd s.locks).1.isOk with
    | false => simp
    | true =>
      rw [if_pos rfl,or_iff_right (by decide)]
      exact t.kept_iff _ (fun _ => Grows.frame.pure _) rid.pageNo housed
  | isRecord t rid =>
    rw [step,call,onPool_after]
    exact t.kept_iff _ (fun _ => Grows.frame.pure _) rid.pageNo housed
  | rmScan t rounds =>
    rw [step,call,onPool_after,Harmless]
    rcases t.scan_cases rounds with ⟨few,same⟩ | ⟨many,rest,first,grows⟩
    · rw [same]
      exact iff_of_true (fun _ => rfl) (.inl few)
    · rw [first,or_iff_right many]
      exact t.kept_iff rest grows 1 housed
  | getRid ix iid =>
    rw [step,call,onPool_after]
    exact IndexPool.getRid_kept_iff ix.fd ix.decode ix.encode iid (s := ⟨ix.hdr,s.pool⟩) housed
  | ixScan ix lower upper rounds =>
    rw [step,call,onPool_after]
    exact IndexPool.scanRids_kept_iff ix.fd ix.decode ix.encode lower upper rounds (s := ⟨ix.hdr,s.pool⟩) housed

/-! ### Runs of reads -/

/-- The page the read asks the pool for first. -/
def page : Read κ → Option PageId
  | .getRecord t rid _ => if rid.pageNo = invalidPageId then none else some ⟨t.fd,rid.pageNo⟩
  | .isRecord t rid => if rid.pageNo = invalidPageId then none else some ⟨t.fd,rid.pageNo⟩
  | .rmScan t _ => if t.fileHdr.numPages ≤ 1 then none else some ⟨t.fd,1⟩
  | .getRid ix iid => some ⟨ix.fd,iid.pageNo⟩
  | .ixScan ix lower upper _ => if lower = upper then none else some ⟨ix.fd,lower.pageNo⟩

/-- That page exists, and getting it meets no disk error. -/
def Faultless (s : Server) (r : Read κ) : Prop :=
  ∀ id, r.page = some id → BufferPool.Faultless s.pool (.fetchPage id)

end Read

namespace BufferPool

variable {s : BufferPool} {id : PageId}

theorem fetchPage_size (housed : s.Housed) (id : PageId) : ((fetchPage id).after s).poolSize = s.poolSize :=
  (housed.fetchPage id).size

theorem unpinPage_size (id : PageId) (isDirty : Bool) : ((unpinPage id isDirty).after s).poolSize = s.poolSize := by
  rw [after,unpinPage_eq]
  split
  · rfl
  · split <;> rfl

/-- A fetch without a disk error that gets no page changes nothing. -/
theorem fetchPage_null (housed : s.Housed) (faultless : Faultless s (.fetchPage id)) (absent : s.fetched id = none) :
    (fetchPage id).after s = s := by
  have returns := faultless.1
  rw [PoolOp.call,withoutResult_isOk] at returns
  have left := housed.fetchPage id
  unfold fetched at absent
  rcases run : fetchPage id s with ⟨e | _ | f,next⟩
  · simp [run,Except.isOk,Except.toBool] at returns
  · rw [run] at left
    rw [after_eq run]
    exact left.null rfl
  · simp [run] at absent

/-- In a pool that accounts for its frames, one that is not pinned can be had. -/
theorem Accounted.victim (accounted : s.Accounted noFrame) {f : FrameId} (bound : f < s.poolSize)
    (idle : (s.pages f).pinCount = 0) : s.victimFrame ≠ none := by
  intro none
  unfold victimFrame at none
  cases free : s.freeList with
  | cons g rest => rw [free] at none; cases none
  | nil =>
    rw [free] at none
    by_cases numbered : (s.pages f).id.pageNo = invalidPageId
    · have listed := accounted.listed f bound (·) numbered
      rw [free] at listed
      cases listed
    · have listed := accounted.evictable f bound (·) numbered idle
      rw [(LruReplacer.victim_none _ none).1] at listed
      cases listed

/-- If every page has the pins it had, there is an unpinned frame as there was one before: the pages
in the frames of the one pool have frames of their own in the other. -/
theorem Accounted.room {next : BufferPool} (before : s.Accounted noFrame) (after : next.Accounted noFrame)
    (size : next.poolSize = s.poolSize) (pins : next.abs.pin = s.abs.pin)
    (room : ∃ f, f < s.poolSize ∧ (s.pages f).pinCount = 0) : ∃ f, f < next.poolSize ∧ (next.pages f).pinCount = 0 := by
  by_contra full
  push Not at full
  have inside (f : Fin s.poolSize) : f.val < next.poolSize := by rw [size]; exact f.isLt
  have home (f : Fin s.poolSize) : next.pageTable (next.pages f).id = some f.val := by
    refine after.home f (inside f) fun unnumbered => ?_
    exact full f (inside f) (after.framed.unused f unnumbered).2
  have pinned (f : Fin s.poolSize) : ∃ g : Fin s.poolSize, s.pageTable (next.pages f).id = some g.val ∧
      (s.pages g).pinCount ≠ 0 := by
    have busy := full f (inside f)
    rw [← pin_mapped (home f),pins] at busy
    cases mapped : s.pageTable (next.pages f).id with
    | none => exact absurd (pin_absent mapped) busy
    | some g =>
      rw [pin_mapped mapped] at busy
      exact ⟨⟨g,(before.framed.table _ g mapped).1⟩,rfl,busy⟩
  choose frame held busy using pinned
  have injective : Function.Injective frame := fun f g same => by
    have left := (before.framed.table _ _ (held f)).2.1
    rw [same,(before.framed.table _ _ (held g)).2.1] at left
    have twice := home f
    rw [← left,home g] at twice
    exact Fin.ext (Option.some.inj twice).symm
  obtain ⟨f,bound,idle⟩ := room
  obtain ⟨g,same⟩ := Finite.injective_iff_surjective.mp injective ⟨f,bound⟩
  exact busy g (by rw [same]; exact idle)

end BufferPool

namespace Read

variable {κ : Type}

theorem unread_same {α : Type} (t : TableFile) (rest : RmPage → PoolCall α) {pageNo : Int} {s : BufferPool} (housed : s.Housed)
    (faultless : pageNo ≠ invalidPageId → BufferPool.Faultless s (.fetchPage ⟨t.fd,pageNo⟩))
    (absent : s.fetched ⟨t.fd,pageNo⟩ = none) : (t.fetchPageHandle pageNo >>= rest).after s = s := by
  by_cases unnumbered : pageNo = invalidPageId
  · have run : t.fetchPageHandle pageNo s = (.error (.pageNotExist "" pageNo),s) := by
      simp [TableFile.fetchPageHandle,unnumbered]
    rw [after,bind_error run]
  · rcases housed.fetchUsed ⟨t.fd,pageNo⟩ with ⟨_,_,_,here,_⟩ | ⟨_,e,next,run,_,pool,_⟩
    · rw [absent] at here
      cases here
    · have failed : t.fetchPageHandle pageNo s = (.error e,next) := by
        simp [TableFile.fetchPageHandle,unnumbered,bind_run,run]
      rw [after,bind_error failed,pool]
      exact fetchPage_null housed (faultless unnumbered) absent

theorem step_accounted {s : Server} (accounted : s.pool.Accounted noFrame) (r : Read κ) (harmless : r.Harmless s)
    (faultless : r.Faultless s) : (step s r).pool.Accounted noFrame ∧ (step s r).pool.poolSize = s.pool.poolSize := by
  have housed := accounted.housed
  have unchanged (same : (step s r).pool = s.pool) :
      (step s r).pool.Accounted noFrame ∧ (step s r).pool.poolSize = s.pool.poolSize := by
    rw [same]
    exact ⟨accounted,rfl⟩
  cases r with
  | getRecord t rid context =>
    apply unchanged
    rw [Harmless] at harmless
    rw [getRecord_pool]
    split
    · rename_i granted
      rw [granted,or_iff_right (by decide)] at harmless
      exact unread_same t _ housed (fun numbered => faultless _ (by simp [page,numbered])) harmless
    · rfl
  | isRecord t rid =>
    apply unchanged
    rw [step,call,onPool_after]
    exact unread_same t _ housed (fun numbered => faultless _ (by simp [page,numbered])) harmless
  | rmScan t rounds =>
    apply unchanged
    rw [step,call,onPool_after]
    rcases t.scan_cases rounds with ⟨_,same⟩ | ⟨many,rest,first,_⟩
    · exact same s.pool
    · rw [Harmless,or_iff_right many] at harmless
      rw [first]
      exact unread_same t rest housed (fun _ => faultless _ (by simp [page,many])) harmless
  | getRid ix iid =>
    have fine := faultless _ rfl
    rw [step,call,onPool_after]
    rcases @IndexPool.getRid_cases _ ⟨ix.hdr,s.pool⟩ housed ix.fd ix.decode ix.encode iid with
      ⟨_,_,_,_,_,_,run,_,pool,_,_⟩ | ⟨data,_,_,here,behind,_⟩ | ⟨absent,_,_,run,_,pool,_⟩
    · simp only [NodeFile.call,after,run]
      rw [pool]
      have returns := fine.1
      rw [PoolOp.call,withoutResult_isOk] at returns
      have fetched := fetchPage_accounted accounted _ returns fine.2
      exact ⟨unpinPage_accounted fetched _ false,(unpinPage_size _ false).trans (fetchPage_size housed _)⟩
    · exact absurd (harmless data here) behind
    · simp only [NodeFile.call,after,run]
      rw [pool,fetchPage_null housed fine absent]
      exact ⟨accounted,rfl⟩
  | ixScan ix lower upper rounds =>
    apply unchanged
    rw [step,call,onPool_after]
    by_cases isOver : lower = upper
    · simp [NodeFile.call,scanRids,isOver,after]
    · rw [Harmless,or_iff_right isOver] at harmless
      have fine := faultless ⟨ix.fd,lower.pageNo⟩ (by simp [page,isOver])
      rcases @IndexPool.getRid_cases _ ⟨ix.hdr,s.pool⟩ housed ix.fd ix.decode ix.encode lower with
        ⟨_,_,_,_,here,_⟩ | ⟨_,_,_,here,_⟩ | ⟨_,_,_,run,_,pool,_⟩
      · rw [harmless] at here; cases here
      · rw [harmless] at here; cases here
      · simp only [NodeFile.call,scanRids,if_neg isOver,after]
        rw [bind_error run,pool]
        exact fetchPage_null housed fine harmless

/-- The reads leave every page its pins exactly when they are harmless, and after any number of
harmless reads without disk errors a pool with an unpinned frame returns no null pointer. -/
theorem reads_keep_frames_iff (s : Server) (housed : s.pool.Housed) :
    (∀ r : Read κ, (∀ id, (step s r).pool.abs.pin id = s.pool.abs.pin id) ↔ r.Harmless s) ∧
    ∀ run : List (Read κ), s.pool.Accounted noFrame → Guarded step (fun s r => r.Harmless s ∧ r.Faultless s) s run →
      (∃ f, f < s.pool.poolSize ∧ (s.pool.pages f).pinCount = 0) →
      ∀ id, (fetchPage id (run.foldl step s).pool).1 ≠ .ok none := by
  refine ⟨kept_iff s housed,fun run accounted guarded room id null => ?_⟩
  have kept : (run.foldl step s).pool.Accounted noFrame ∧ (run.foldl step s).pool.poolSize = s.pool.poolSize ∧
      (run.foldl step s).pool.abs.pin = s.pool.abs.pin := by
    refine guarded_invariant (fun next : Server => next.pool.Accounted noFrame ∧ next.pool.poolSize = s.pool.poolSize ∧
      next.pool.abs.pin = s.pool.abs.pin) ?_ s ⟨accounted,rfl,rfl⟩ run guarded
    rintro next r ⟨fine,size,pins⟩ ⟨harmless,faultless⟩
    obtain ⟨fine',size'⟩ := step_accounted fine r harmless faultless
    exact ⟨fine',size'.trans size,(funext ((kept_iff next fine.housed r).mpr harmless)).trans pins⟩
  obtain ⟨after,size,pins⟩ := kept
  obtain ⟨f,bound,idle⟩ := accounted.room after size pins room
  have found := after.victim bound idle
  rw [fetchPage_eq] at null
  cases mapped : (run.foldl step s).pool.pageTable id with
  | some g => simp [mapped] at null
  | none =>
  cases victim : (run.foldl step s).pool.victimFrame with
  | none => exact found victim
  | some g =>
  rw [mapped,victim] at null
  dsimp only at null
  cases wrote : (run.foldl step s).pool.taken.writeBack g with
  | mk result disk =>
  rw [wrote] at null
  cases result with
  | error e => cases null
  | ok _ =>
    dsimp only at null
    split at null <;> cases null

/-- Three pages of a file go through a pool with two frames, and none is pinned any more. -/
def threePages : List PoolOp :=
  [.newPage 3,.unpinPage ⟨3,0⟩ true,.newPage 3,.unpinPage ⟨3,1⟩ true,.newPage 3,.unpinPage ⟨3,2⟩ true]

def twoFrames : Server := ⟨⟨fun _ => none,fun _ => {}⟩,threePages.foldl PoolOp.step (start 2 (fun _ => 0) oneFile)⟩

theorem twoFrames_accounted : twoFrames.pool.Accounted noFrame := by
  refine guarded_invariant (Accounted · noFrame) BufferPool.step_accounted _ (start_accounted 2 _ oneFile) threePages ?_
  refine ⟨⟨?_,trivial⟩,⟨?_,trivial⟩,⟨?_,trivial⟩,⟨?_,trivial⟩,⟨?_,trivial⟩,⟨?_,trivial⟩,trivial⟩ <;> decide +kernel

/-- The bytes of a leaf with two pairs. -/
def twoPairs : PageData := fun i => if i = 8 then 2 else if i = 12 then 1 else 0

/-- Page 1 of the three holds that leaf. -/
def leafPages : List PoolOp :=
  [.newPage 3,.unpinPage ⟨3,0⟩ true,.newPage 3,.write 1 twoPairs,.unpinPage ⟨3,1⟩ true,.newPage 3,.unpinPage ⟨3,2⟩ true]

def leafFrames : Server := ⟨⟨fun _ => none,fun _ => {}⟩,leafPages.foldl PoolOp.step (start 2 (fun _ => 0) oneFile)⟩

theorem leafFrames_accounted : leafFrames.pool.Accounted noFrame := by
  refine guarded_invariant (Accounted · noFrame) BufferPool.step_accounted _ (start_accounted 2 _ oneFile) leafPages ?_
  refine ⟨⟨?_,trivial⟩,⟨?_,trivial⟩,⟨?_,trivial⟩,⟨?_,trivial⟩,⟨?_,trivial⟩,⟨?_,trivial⟩,⟨?_,trivial⟩,trivial⟩ <;> decide +kernel

/-- An index on two columns. Its nodes are read from the bytes of their pages; a read encodes none. -/
def nodeFile : NodeFile (List Byte) where
  fd := 3
  hdr := .initial NodeBytes.idAndName
  decode data := NodeBytes.node (.initial NodeBytes.idAndName) 0 fun x => data (Fin.ofNat pageSize x.toNat)
  encode _ := PageData.zero

/-- A lookup of the second pair of the leaf leaves the frames to later reads; one of a third pair would not. -/
theorem used_slot_releases :
    (∀ id, (step leafFrames (.getRid nodeFile ⟨1,1⟩)).pool.abs.pin id = leafFrames.pool.abs.pin id) ∧
    (∀ id, (fetchPage id (step leafFrames (.getRid nodeFile ⟨1,1⟩)).pool).1 ≠ .ok none) ∧
    (step leafFrames (.getRid nodeFile ⟨1,2⟩)).pool.abs.pin ⟨3,1⟩ = 1 := by
  have size : (leafFrames.pool.fetched ⟨3,1⟩).all (fun data => (nodeFile.decode data).size = 2) = true := by decide +kernel
  have harmless : (Read.getRid nodeFile ⟨1,1⟩).Harmless leafFrames := fun data here => by
    have two : (nodeFile.decode data).size = 2 := of_decide_eq_true (Option.all_eq_true _ _ |>.mp size data here)
    rw [two]
    decide
  have faultless : (Read.getRid nodeFile ⟨1,1⟩).Faultless leafFrames := by
    rintro id same
    obtain rfl := Option.some.inj same
    exact ⟨by decide +kernel,by decide +kernel⟩
  obtain ⟨kept,room⟩ := reads_keep_frames_iff leafFrames leafFrames_accounted.housed
  refine ⟨(kept _).mpr harmless,?_,by decide +kernel⟩
  exact room [.getRid nodeFile ⟨1,1⟩] leafFrames_accounted ⟨⟨harmless,faultless⟩,trivial⟩ ⟨0,by decide +kernel,by decide +kernel⟩

/-- Two rows are read, and the pool has no frame for a third page. -/
theorem two_reads_fill_pool :
    let table : TableFile := ⟨3,initialHdr 8⟩
    let first := step twoFrames (.getRecord table ⟨1,0⟩ none : Read Nat)
    let second := step first (.getRecord table ⟨2,0⟩ none : Read Nat)
    twoFrames.pool.Accounted noFrame ∧ twoFrames.pool.abs.pin ⟨3,1⟩ = 0 ∧ first.pool.abs.pin ⟨3,1⟩ = 1 ∧
      (fetchPage ⟨3,0⟩ twoFrames.pool).1 = .ok (some 1) ∧ (fetchPage ⟨3,0⟩ second.pool).1 = .ok none := by
  refine ⟨twoFrames_accounted,?_,?_,?_,?_⟩ <;> decide +kernel

end Read

end Rucbase
