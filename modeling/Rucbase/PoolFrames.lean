import Rucbase.PoolTransparency
import Rucbase.DescriptorReuse

/-! The frames of the pool: what every call does to the free list, the replacer, the page table
and the pin counts, also when the disk fails. -/
namespace Rucbase.BufferPool

open Lib Lib.Prog DiskManager BufferPool

variable {s : BufferPool} {f : FrameId} {id : PageId}

/-! ### Frames that are accounted for -/

/-- Every frame but the busy ones is where it belongs: its page is mapped to it, it is listed as
free if it has none, and can be evicted if it is not pinned. Page numbers are below the counter
of their file. -/
structure Accounted (s : BufferPool) (busy : FrameId → Prop) : Prop where
  framed : s.Framed
  home : ∀ f, f < s.poolSize → (s.pages f).id.pageNo ≠ invalidPageId → s.pageTable (s.pages f).id = some f
  listed : ∀ f, f < s.poolSize → ¬busy f → (s.pages f).id.pageNo = invalidPageId → f ∈ s.freeList
  evictable : ∀ f, f < s.poolSize → ¬busy f → (s.pages f).id.pageNo ≠ invalidPageId → (s.pages f).pinCount = 0 →
    f ∈ s.replacer.frames
  counted : ∀ id f, s.pageTable id = some f → 0 ≤ id.pageNo ∧ id.pageNo < s.disk.fd2pageno id.fd

def noFrame : FrameId → Prop := fun _ => False

theorem start_accounted (poolSize : Nat) (fds : FrameId → Int) (disk : DiskManager) :
    (start poolSize fds disk).Accounted noFrame := by
  refine ⟨start_framed poolSize fds disk,fun f _ numbered => absurd rfl numbered,fun f bound _ _ => List.mem_range.mpr bound,
    fun f _ _ numbered => absurd rfl numbered,nofun⟩

variable {disk : DiskManager} {page : Page}

/-- As `Framed.put`; what is new is where unpinned frames are listed. -/
theorem Accounted.put {busy later : FrameId → Prop} (accounted : s.Accounted busy) {replacer : LruReplacer FrameId}
    (same : page.id = (s.pages f).id)
    (framed : Framed { s with pages := Function.update s.pages f page, replacer := replacer, disk := disk })
    (listed : ∀ g, g < s.poolSize → ¬later g → (s.pages g).id.pageNo = invalidPageId → g ∈ s.freeList)
    (evictable : ∀ g, g < s.poolSize → ¬later g → (s.pages g).id.pageNo ≠ invalidPageId →
      (Function.update s.pages f page g).pinCount = 0 → g ∈ replacer.frames)
    (counters : disk.fd2pageno = s.disk.fd2pageno) :
    Accounted { s with pages := Function.update s.pages f page, replacer := replacer, disk := disk } later := by
  have ids (g : FrameId) : (Function.update s.pages f page g).id = (s.pages g).id := by
    by_cases here : g = f
    · subst g; simpa using same
    · simp [here]
  refine ⟨framed,fun g bound numbered => ?_,fun g bound idle unnumbered => ?_,fun g bound idle numbered => ?_,?_⟩
  · rw [ids] at numbered ⊢
    exact accounted.home g bound numbered
  · rw [ids] at unnumbered
    exact listed g bound idle unnumbered
  · rw [ids] at numbered
    exact evictable g bound idle numbered
  · rw [counters]
    exact accounted.counted

theorem Accounted.taken (accounted : s.Accounted noFrame) (found : s.victimFrame = some f) :
    s.taken.Accounted (· = f) := by
  have framed := (accounted.framed.taken found).1
  unfold victimFrame at found
  unfold BufferPool.taken at framed ⊢
  cases free : s.freeList with
  | nil =>
    rw [free] at found framed
    obtain ⟨split,_⟩ := LruReplacer.victim_some accounted.framed.linked (Prod.ext found rfl : s.replacer.victim = (some f,_))
    refine ⟨framed,accounted.home,fun g bound _ unnumbered => ?_,fun g bound other numbered idle => ?_,accounted.counted⟩
    · have member := accounted.listed g bound id unnumbered
      rwa [free] at member
    · have member := accounted.evictable g bound id numbered idle
      rw [split,List.mem_append,List.mem_singleton] at member
      exact member.resolve_right other
  | cons h rest =>
    rw [free] at found framed
    obtain rfl := Option.some.inj found
    refine ⟨framed,accounted.home,fun g bound other unnumbered => ?_,fun g bound _ => accounted.evictable g bound id,
      accounted.counted⟩
    have member := accounted.listed g bound id unnumbered
    rw [free,List.mem_cons] at member
    exact member.resolve_left other

theorem Accounted.handed (accounted : s.Accounted (· = f)) (chosen : s.Chosen f) (absent : s.pageTable id = none)
    (counters : disk.fd2pageno = s.disk.fd2pageno)
    (valid : id.pageNo ≠ invalidPageId → 0 ≤ id.pageNo ∧ id.pageNo < s.disk.fd2pageno id.fd) :
    (s.handed f id disk).Accounted (· = f) := by
  have framed := accounted.framed
  refine ⟨framed.handed chosen id disk,Homed.handed accounted.home chosen.bound absent disk,
    fun g bound other unnumbered => ?_,fun g bound other numbered idle => ?_,fun q g mapped => ?_⟩
  · simp only [BufferPool.handed,Function.update_of_ne other] at unnumbered
    exact accounted.listed g bound other unnumbered
  · simp only [BufferPool.handed,Function.update_of_ne other] at numbered idle
    exact accounted.evictable g bound other numbered idle
  · have counted : 0 ≤ q.pageNo ∧ q.pageNo < s.disk.fd2pageno q.fd := by
      rcases handed_table mapped with ⟨rfl,_,numbered⟩ | ⟨_,old⟩
      · exact valid numbered
      · exact accounted.counted q g old
    rwa [← counters] at counted

/-! ### The calls -/

theorem writeBack_counters (s : BufferPool) (f : FrameId) : (s.writeBack f).2.fd2pageno = s.disk.fd2pageno := by
  unfold writeBack
  split
  · exact (writePage_same _ _ _ s.disk).fd2pageno
  · rfl

theorem Accounted.putIdle (accounted : s.Accounted noFrame) (same : page.id = (s.pages f).id) (pins : page.pinCount = (s.pages f).pinCount)
    (unused : page.id.pageNo = invalidPageId → page.isDirty = false) (counters : disk.fd2pageno = s.disk.fd2pageno) :
    Accounted { s with pages := Function.update s.pages f page, disk := disk } noFrame := by
  refine accounted.put same (accounted.framed.putIdle disk same pins unused) accounted.listed
    (fun g bound other numbered idle => accounted.evictable g bound other numbered ?_) counters
  by_cases here : g = f
  · subst here; simpa [pins] using idle
  · simpa [here] using idle

theorem released_accounted (accounted : s.Accounted noFrame) (mapped : s.pageTable id = some f)
    (pinned : (s.pages f).pinCount ≠ 0) (isDirty : Bool) : Accounted { s.setPage f (released (s.pages f) isDirty) with
      replacer := if (released (s.pages f) isDirty).pinCount = 0 then s.replacer.unpin f else s.replacer } noFrame := by
  have framed := accounted.framed
  refine accounted.put rfl (released_framed framed mapped pinned isDirty) accounted.listed
    (fun g bound other numbered idle => (mem_released framed).mpr ?_) rfl
  by_cases here : g = f
  · subst here
    exact .inl ⟨by simpa using idle,rfl⟩
  · exact .inr (accounted.evictable g bound other numbered (by simpa [here] using idle))

theorem unpinPage_accounted (accounted : s.Accounted noFrame) (id : PageId) (isDirty : Bool) :
    ((unpinPage id isDirty).after s).Accounted noFrame := by
  rw [after,unpinPage_eq]
  cases mapped : s.pageTable id with
  | none => exact accounted
  | some f =>
    dsimp only
    split
    · exact accounted
    · rename_i pinned
      exact released_accounted accounted mapped pinned isDirty

/-- What holds of the frames before a write-back holds after it. -/
def KeepsFrames (s next : BufferPool) : Prop :=
  (s.Framed → next.Framed) ∧ (s.Accounted noFrame → next.Accounted noFrame)

theorem KeepsFrames.frame : Frame KeepsFrames where
  refl _ := ⟨(·),(·)⟩
  trans _ _ _ first second := ⟨second.1 ∘ first.1,second.2 ∘ first.2⟩

theorem flushFrame_keeps (f : FrameId) : Within KeepsFrames (flushFrame f) := by
  intro s
  have counters := (writePage_same (s.pages f).id.fd (s.pages f).id.pageNo (s.pages f).data s.disk).fd2pageno
  unfold flushFrame
  rw [after,bind_ok (state_run s),bind_run]
  unfold onDisk
  rw [after] at counters
  cases wrote : writePage (s.pages f).id.fd (s.pages f).id.pageNo (s.pages f).data s.disk with
  | mk result disk =>
  rw [wrote] at counters
  cases result with
  | error e => exact ⟨fun framed => framed.onDisk disk,fun accounted => { accounted with
      framed := accounted.framed.onDisk disk
      counted := fun id f mapped => counters ▸ accounted.counted id f mapped }⟩
  | ok _ => exact ⟨fun framed => framed.putIdle disk rfl rfl fun _ => rfl,
      fun accounted => accounted.putIdle rfl rfl (fun _ => rfl) counters⟩

theorem flushPage_keeps (id : PageId) : Within KeepsFrames (flushPage id) := by
  apply KeepsFrames.frame.bind KeepsFrames.frame.state
  intro s
  split
  · split
    · exact KeepsFrames.frame.bind (flushFrame_keeps _) fun _ => KeepsFrames.frame.pure _
    · exact KeepsFrames.frame.pure _
  · exact KeepsFrames.frame.pure _

theorem flushFrames_keeps (fd : Int) (frames : List FrameId) : Within KeepsFrames (flushFrames fd frames) := by
  induction frames with
  | nil => exact KeepsFrames.frame.pure _
  | cons f rest ih =>
    apply KeepsFrames.frame.bind KeepsFrames.frame.state
    intro s
    split
    · exact KeepsFrames.frame.bind (flushFrame_keeps f) fun _ => ih
    · exact ih

theorem flushAllPages_keeps (fd : Int) : Within KeepsFrames (flushAllPages fd) :=
  KeepsFrames.frame.bind KeepsFrames.frame.state fun s => flushFrames_keeps fd (List.range s.poolSize)

/-! ### The calls that return -/

theorem Accounted.busy (accounted : s.Accounted noFrame) (f : FrameId) : s.Accounted (· = f) :=
  { accounted with
    listed := fun g bound _ => accounted.listed g bound (·)
    evictable := fun g bound _ => accounted.evictable g bound (·) }

theorem deletePage_accounted (accounted : s.Accounted noFrame) (id : PageId) (returns : (deletePage id s).1.isOk = true) :
    ((deletePage id).after s).Accounted noFrame := by
  rw [deletePage_eq] at returns
  rw [after,deletePage_eq]
  have framed := accounted.framed
  cases mapped : s.pageTable id with
  | none => exact accounted
  | some f =>
  rw [mapped] at returns
  dsimp only at returns ⊢
  split at returns
  · rw [if_pos ‹_›]; exact accounted
  rename_i idle
  rw [if_neg idle]
  have counters := writeBack_counters s f
  cases wrote : s.writeBack f with
  | mk result disk =>
  rw [wrote] at counters returns
  cases result with
  | error e => cases returns
  | ok _ =>
    have chosen := framed.chosen mapped idle
    have handed : (s.handed f ⟨id.fd,invalidPageId⟩ disk).Accounted (· = f) :=
      (accounted.busy f).handed chosen (framed.unnumbered_absent rfl) counters fun numbered => absurd rfl numbered
    refine { handed with framed := framed.freed chosen id.fd disk, listed := fun g bound _ unnumbered => ?_, evictable := ?_ }
    · by_cases here : g = f
      · subst here; exact List.mem_append_right _ (List.mem_singleton_self g)
      · exact List.mem_append_left _ (handed.listed g bound here unnumbered)
    · intro g bound _ numbered
      by_cases here : g = f
      · subst here; simp [BufferPool.handed] at numbered
      · exact handed.evictable g bound here numbered

theorem Accounted.pinned (accounted : s.Accounted (· = f)) (same : page.id = (s.pages f).id)
    (numbered : page.id.pageNo ≠ invalidPageId) (positive : page.pinCount ≠ 0) :
    Accounted { s with pages := Function.update s.pages f page, replacer := s.replacer.pin f } noFrame := by
  refine accounted.put same (accounted.framed.putPinned same numbered) (fun g bound _ unnumbered => ?_)
    (fun g bound _ named idle => ?_) rfl
  · refine accounted.listed g bound (fun here => numbered ?_) unnumbered
    rw [same,← here,unnumbered]
  · by_cases here : g = f
    · subst here; exact absurd (by simpa using idle) positive
    · exact accounted.framed.mem_pin.mpr ⟨here,accounted.evictable g bound here named (by simpa [here] using idle)⟩

theorem fetchPage_accounted (accounted : s.Accounted noFrame) (id : PageId) (returns : (fetchPage id s).1.isOk = true)
    (valid : 0 ≤ id.pageNo ∧ id.pageNo < s.disk.fd2pageno id.fd) : ((fetchPage id).after s).Accounted noFrame := by
  rw [fetchPage_eq] at returns
  rw [after,fetchPage_eq]
  have framed := accounted.framed
  cases mapped : s.pageTable id with
  | some f =>
    obtain ⟨_,named,numbered⟩ := framed.table id f mapped
    exact (accounted.busy f).pinned rfl (by simpa only [named] using numbered) (Nat.succ_ne_zero _)
  | none =>
  rw [mapped] at returns
  cases found : s.victimFrame with
  | none => exact (taken_none found).symm ▸ accounted
  | some f =>
  rw [found] at returns
  dsimp only at returns ⊢
  have chosen := (framed.taken found).2
  have counters := writeBack_counters s.taken f
  cases wrote : s.taken.writeBack f with
  | mk result disk =>
  rw [wrote] at returns counters
  cases result with
  | error e => cases returns
  | ok _ =>
    dsimp only at returns ⊢
    split at returns
    · rename_i readable
      rw [if_pos readable]
      have handed : (s.taken.handed f id disk).Accounted (· = f) :=
        (accounted.taken found).handed chosen (by rw [taken_table,mapped]) counters fun _ => by rwa [taken_disk]
      -- filling and pinning change the handed frame once more
      rw [filled_pinnedFirst]
      exact handed.pinned (by simp [BufferPool.handed]) (readable_numbered readable) one_ne_zero
    · cases returns

theorem newPage_accounted (accounted : s.Accounted noFrame) (fd : Int) (returns : (newPage fd s).1.isOk = true) :
    ((newPage fd).after s).Accounted noFrame := by
  rw [newPage_eq] at returns
  rw [after,newPage_eq]
  have framed := accounted.framed
  cases found : s.victimFrame with
  | none => exact (taken_none found).symm ▸ accounted
  | some f =>
  rw [found] at returns
  dsimp only at returns ⊢
  split at returns
  case isFalse => cases returns
  rename_i known
  rw [if_pos known]
  have taken := accounted.taken found
  have chosen := (framed.taken found).2
  have counters := writeBack_counters (s.taken.allocated fd) f
  have grown (q : Int) : s.taken.disk.fd2pageno q ≤ (s.taken.allocated fd).disk.fd2pageno q := by
    by_cases same : q = fd <;> simp [BufferPool.allocated,same]
  have allocated : (s.taken.allocated fd).Accounted (· = f) := { taken with
    framed := taken.framed.onDisk _
    counted := fun id g mapped => by
      have := taken.counted id g mapped
      have := grown id.fd
      omega }
  -- the number comes from the counter, so no resident page has it
  have absent : s.taken.pageTable ⟨fd,s.taken.disk.fd2pageno fd⟩ = none := by
    cases mapped : s.taken.pageTable ⟨fd,s.taken.disk.fd2pageno fd⟩ with
    | none => rfl
    | some g =>
      have := (taken.counted _ g mapped).2
      dsimp only at this
      omega
  cases wrote : (s.taken.allocated fd).writeBack f with
  | mk result disk =>
  rw [wrote] at returns counters
  cases result with
  | error e => cases returns
  | ok _ =>
    have chosen' : (s.taken.allocated fd).Chosen f := ⟨chosen.bound,chosen.idle,chosen.gone⟩
    have handed : ((s.taken.allocated fd).handed f ⟨fd,s.taken.disk.fd2pageno fd⟩ disk).Accounted (· = f) := by
      refine allocated.handed chosen' absent counters fun _ => ?_
      simp [BufferPool.allocated]
    exact handed.pinned rfl (by simp [BufferPool.handed,invalidPageId]) one_ne_zero

/-! ### Runs -/

/-- The calls of clients, and what a client writes through the pointer it was given. -/
inductive PoolOp where
  | newPage (fd : Int)
  | fetchPage (id : PageId)
  | unpinPage (id : PageId) (isDirty : Bool)
  | flushPage (id : PageId)
  | flushAllPages (fd : Int)
  | deletePage (id : PageId)
  | write (frame : FrameId) (data : PageData)

def withoutResult {α : Type} (x : PoolCall α) : PoolCall Unit := do
  let _ ← x

def PoolOp.call : PoolOp → PoolCall Unit
  | .newPage fd => withoutResult (BufferPool.newPage fd)
  | .fetchPage id => withoutResult (BufferPool.fetchPage id)
  | .unpinPage id isDirty => withoutResult (BufferPool.unpinPage id isDirty)
  | .flushPage id => withoutResult (BufferPool.flushPage id)
  | .flushAllPages fd => BufferPool.flushAllPages fd
  | .deletePage id => withoutResult (BufferPool.deletePage id)
  | .write f data => update fun s => s.setPage f { s.pages f with data := data }

def PoolOp.step (s : BufferPool) (op : PoolOp) : BufferPool := op.call.after s

/-- The call meets no disk error, and fetches ask for pages the file has. -/
def Faultless (s : BufferPool) (op : PoolOp) : Prop :=
  (op.call s).1.isOk = true ∧ match op with
    | .fetchPage id => 0 ≤ id.pageNo ∧ id.pageNo < s.disk.fd2pageno id.fd
    | _ => True

theorem withoutResult_after {α : Type} (x : PoolCall α) (s : BufferPool) : (withoutResult x).after s = x.after s := by
  rw [withoutResult,after,after,bind_run]
  cases x s with
  | mk result next => cases result <;> rfl

theorem withoutResult_isOk {α : Type} (x : PoolCall α) (s : BufferPool) : (withoutResult x s).1.isOk = (x s).1.isOk := by
  rw [withoutResult,bind_run]
  cases x s with
  | mk result next => cases result <;> rfl

theorem step_framed (framed : s.Framed) (op : PoolOp) : (op.step s).Framed := by
  cases op <;> simp only [PoolOp.step,PoolOp.call,withoutResult_after]
  case newPage fd => exact newPage_framed framed fd
  case fetchPage id => exact fetchPage_framed framed id
  case unpinPage id isDirty => exact unpinPage_framed framed id isDirty
  case flushPage id => exact (flushPage_keeps id s).1 framed
  case flushAllPages fd => exact (flushAllPages_keeps fd s).1 framed
  case deletePage id => exact deletePage_framed framed id
  case write f data => exact framed.putIdle s.disk rfl rfl fun unnumbered => (framed.unused f unnumbered).1

theorem step_accounted (s : BufferPool) (op : PoolOp) (accounted : s.Accounted noFrame) (faultless : Faultless s op) :
    (op.step s).Accounted noFrame := by
  obtain ⟨returns,valid⟩ := faultless
  cases op <;> simp only [PoolOp.step,PoolOp.call,withoutResult_after,withoutResult_isOk] at returns ⊢
  case newPage fd => exact newPage_accounted accounted fd returns
  case fetchPage id => exact fetchPage_accounted accounted id returns valid
  case unpinPage id isDirty => exact unpinPage_accounted accounted id isDirty
  case flushPage id => exact (flushPage_keeps id s).2 accounted
  case flushAllPages fd => exact (flushAllPages_keeps fd s).2 accounted
  case deletePage id => exact deletePage_accounted accounted id returns
  case write f data =>
    exact accounted.putIdle rfl rfl (fun unnumbered => (accounted.framed.unused f unnumbered).1) rfl

/-! ### The partition of the frames -/

section States

variable (s : BufferPool) (f : FrameId)

/-- Listed once in the free list. A deleted page's frame is so listed, and may be in the replacer
besides. -/
def Free : Prop := s.freeList.count f = 1

/-- Listed once in the replacer, unpinned and mapped. -/
def Evictable : Prop :=
  s.replacer.frames.count f = 1 ∧ (s.pages f).pinCount = 0 ∧ s.pageTable (s.pages f).id = some f

/-- Pinned, mapped and not in the replacer. -/
def Pinned : Prop :=
  0 < (s.pages f).pinCount ∧ s.pageTable (s.pages f).id = some f ∧ f ∉ s.replacer.frames

end States

/-- Every frame is in exactly one of the three states, and no frame holds two pages. -/
structure Partitioned (s : BufferPool) : Prop where
  exactlyOne : ∀ f, f < s.poolSize → (s.Free f ∧ ¬s.Evictable f ∧ ¬s.Pinned f) ∨
    (¬s.Free f ∧ s.Evictable f ∧ ¬s.Pinned f) ∨ (¬s.Free f ∧ ¬s.Evictable f ∧ s.Pinned f)
  injective : ∀ p q f, s.pageTable p = some f → s.pageTable q = some f → p = q

theorem Accounted.partitioned (accounted : s.Accounted noFrame) : s.Partitioned := by
  have framed := accounted.framed
  refine ⟨fun f bound => ?_,fun p q f left right => ?_⟩
  · by_cases numbered : (s.pages f).id.pageNo = invalidPageId
    · have free : s.Free f := List.count_eq_one_of_mem framed.distinct (accounted.listed f bound (·) numbered)
      have unmapped := framed.unnumbered_absent numbered
      refine .inl ⟨free,fun evictable => ?_,fun pinned => ?_⟩
      · exact Option.some_ne_none f (evictable.2.2.symm.trans unmapped)
      · exact Option.some_ne_none f (pinned.2.1.symm.trans unmapped)
    · have mapped := accounted.home f bound numbered
      have busy : ¬s.Free f := fun free => by
        rw [Free,List.count_eq_zero.mpr (framed.mapped_busy mapped)] at free
        cases free
      by_cases idle : (s.pages f).pinCount = 0
      · have listed := accounted.evictable f bound (·) numbered idle
        exact .inr (.inl ⟨busy,⟨List.count_eq_one_of_mem framed.linked.distinct listed,idle,mapped⟩,fun pinned => pinned.1.ne idle.symm⟩)
      · have unlisted : f ∉ s.replacer.frames := fun listed => idle (framed.idle f listed).2
        exact .inr (.inr ⟨busy,fun evictable => idle evictable.2.1,Nat.pos_of_ne_zero idle,mapped,unlisted⟩)
  · rw [← (framed.table p f left).2.1,(framed.table q f right).2.1]

/-- In every run without disk errors the frames stay partitioned. -/
theorem frames_partitioned (poolSize : Nat) (fds : FrameId → Int) (disk : DiskManager) (run : List PoolOp)
    (faultless : Guarded PoolOp.step Faultless (start poolSize fds disk) run) :
    (run.foldl PoolOp.step (start poolSize fds disk)).Partitioned :=
  (guarded_invariant (Accounted · noFrame) step_accounted _ (start_accounted poolSize fds disk) run faultless).partitioned

/-- Two frames: a page is evicted, read back, flushed and deleted. -/
def turnover : List PoolOp :=
  [.newPage 3,.write 0 (fun _ => 7),.unpinPage ⟨3,0⟩ true,.newPage 3,.unpinPage ⟨3,1⟩ true,.newPage 3,
    .unpinPage ⟨3,2⟩ false,.fetchPage ⟨3,0⟩,.flushPage ⟨3,0⟩,.flushAllPages 3,.unpinPage ⟨3,0⟩ false,.deletePage ⟨3,0⟩]

theorem turnover_partitioned : Guarded PoolOp.step Faultless (start 2 (fun _ => 0) oneFile) turnover ∧
    (turnover.foldl PoolOp.step (start 2 (fun _ => 0) oneFile)).Partitioned := by
  have faultless : Guarded PoolOp.step Faultless (start 2 (fun _ => 0) oneFile) turnover := by
    refine ⟨⟨?_,trivial⟩,⟨?_,trivial⟩,⟨?_,trivial⟩,⟨?_,trivial⟩,⟨?_,trivial⟩,⟨?_,trivial⟩,⟨?_,trivial⟩,⟨?_,?_⟩,
      ⟨?_,trivial⟩,⟨?_,trivial⟩,⟨?_,trivial⟩,⟨?_,trivial⟩,trivial⟩ <;> decide +kernel
  exact ⟨faultless,frames_partitioned 2 _ oneFile turnover faultless⟩

/-! ### A fetch that fails -/

/-- The states of a pool whose clients make any calls, whatever becomes of the disk. -/
inductive Reachable : BufferPool → Prop where
  | start (poolSize : Nat) (fds : FrameId → Int) (disk : DiskManager) : Reachable (start poolSize fds disk)
  | step {s : BufferPool} (op : PoolOp) (before : Reachable s) : Reachable (op.step s)
  | onDisk {s : BufferPool} (disk : DiskManager) (before : Reachable s) : Reachable { s with disk := disk }

theorem Reachable.framed (reachable : Reachable s) : s.Framed := by
  induction reachable with
  | start poolSize fds disk => exact start_framed poolSize fds disk
  | step op _ ih => exact step_framed ih op
  | onDisk disk _ ih => exact ih.onDisk disk

/-- After a failed fetch of `id` the page is not resident, every other page has its content and
what was not yet written is still to be, and the frame chosen for the fetch is available. -/
structure Usable (s : BufferPool) (id : PageId) (next : BufferPool) : Prop where
  absent : next.pageTable id = none
  content : ∀ other, other ≠ id → next.abs.view other = s.abs.view other ∧
    (next.abs.dirty other = true ∨ next.abs.view other = next.abs.disk other ∨ s.abs.dirty other = false)
  available : ∀ f, s.victimFrame = some f → f ∈ next.freeList ∨ f ∈ next.replacer.frames

/-- The frame taken is in no list any more, but for a deleted page's, which stays in the replacer. -/
theorem Framed.taken_lists (framed : s.Framed) (found : s.victimFrame = some f) :
    (f ∈ s.taken.freeList ∨ f ∈ s.taken.replacer.frames) ↔ (∃ rest, s.freeList = f :: rest) ∧ f ∈ s.replacer.frames := by
  have gone := (framed.taken found).2.gone
  rw [or_iff_right gone]
  unfold victimFrame at found
  unfold BufferPool.taken
  cases free : s.freeList with
  | nil =>
    rw [free] at found
    obtain ⟨split,_⟩ := LruReplacer.victim_some framed.linked (Prod.ext found rfl : s.replacer.victim = (some f,_))
    have distinct := framed.linked.distinct
    rw [split] at distinct
    simpa using fun listed => (List.nodup_append.mp distinct).2.2 f listed f (List.mem_singleton_self f) rfl
  | cons g rest =>
    rw [free] at found
    obtain rfl := Option.some.inj found
    simp

theorem Framed.dirty_evicted (framed : s.Framed) (found : s.victimFrame = some f) (dirty : (s.pages f).isDirty = true) :
    s.freeList = [] := by
  cases free : s.freeList with
  | nil => rfl
  | cons g rest =>
    rw [victimFrame,free] at found
    obtain rfl := Option.some.inj found
    have clean := (framed.unused g (framed.free g (by simp [free])).2).1
    rw [dirty] at clean
    cases clean

theorem filled_unnumbered (framed : s.Framed) {rest : List FrameId} (free : s.freeList = f :: rest)
    (unnumbered : id.pageNo = invalidPageId) : (s.taken.filled f id s.disk).abs = s.abs := by
  have unused := (framed.free f (by simp [free])).2
  have table : (s.taken.filled f id s.disk).pageTable = s.pageTable := by
    simp [filled,handed,setPage,unnumbered,taken_table,taken_pages,framed.unnumbered_absent unused]
  have entries : (s.taken.filled f id s.disk).entry = s.entry := by
    funext q
    rw [entry,entry,table]
    cases mapped : s.pageTable q with
    | none => rfl
    | some g =>
      have apart : g ≠ f := fun same => framed.mapped_busy mapped (by simp [free,same])
      simp [filled,handed,setPage,apart,taken_pages]
  exact congrArg (fun entry => cacheOf entry (s.disk.contentOn fun _ => true)) entries

theorem fetchPage_throws {e : RMDBError} {next : BufferPool} (failed : fetchPage id s = (.error e,next)) :
    s.pageTable id = none ∧ ∃ f disk, s.victimFrame = some f ∧
      ((∃ cause, s.taken.writeBack f = (.error cause,disk)) ∧ next = s.taken.unwritten f disk ∨
        s.taken.writeBack f = (.ok (),disk) ∧ next = s.taken.filled f id disk) := by
  rw [fetchPage_eq] at failed
  cases mapped : s.pageTable id with
  | some f => simp [mapped] at failed
  | none =>
  rw [mapped] at failed
  cases found : s.victimFrame with
  | none => simp [found] at failed
  | some f =>
  rw [found] at failed
  dsimp only at failed
  cases wrote : s.taken.writeBack f with
  | mk result disk =>
  rw [wrote] at failed
  refine ⟨rfl,f,disk,rfl,?_⟩
  cases result with
  | error cause => exact .inl ⟨⟨cause,wrote⟩,(Prod.mk.inj failed).2.symm⟩
  | ok _ =>
    dsimp only at failed
    split at failed
    · cases (Prod.mk.inj failed).1
    · exact .inr ⟨wrote,(Prod.mk.inj failed).2.symm⟩

/-- A failed fetch costs a frame, or leaves a page that was never read; only a fetch of no page
at all that meets a deleted page's frame does no harm. -/
theorem failed_fetch_usable_iff (s : BufferPool) (reachable : Reachable s) (id : PageId) (e : RMDBError)
    (next : BufferPool) (failed : fetchPage id s = (.error e,next)) :
    Usable s id next ↔
      id.pageNo = invalidPageId ∧ ∃ f rest, s.freeList = f :: rest ∧ f ∈ s.replacer.frames := by
  have framed := reachable.framed
  obtain ⟨absent,f,disk,found,⟨⟨cause,wrote⟩,rfl⟩ | ⟨wrote,rfl⟩⟩ := fetchPage_throws failed
  · -- only a dirty page is written back, and its frame was taken out of the replacer
    have dirty : (s.pages f).isDirty = true := by
      cases flag : (s.pages f).isDirty with
      | true => rfl
      | false => simp [writeBack,taken_pages,flag] at wrote
    have empty := framed.dirty_evicted found dirty
    constructor
    · intro usable
      obtain ⟨⟨rest,free⟩,_⟩ := (framed.taken_lists found).mp (usable.available f found)
      rw [empty] at free
      cases free
    · rintro ⟨_,g,rest,free,_⟩
      rw [empty] at free
      cases free
  · constructor
    · intro usable
      obtain ⟨⟨rest,free⟩,listed⟩ := (framed.taken_lists found).mp (usable.available f found)
      refine ⟨by_contra fun numbered => ?_,f,rest,free,listed⟩
      -- the page is mapped before it is read
      have erased : Function.update s.pageTable (s.pages f).id none id = none := by
        by_cases same : id = (s.pages f).id
        · simp [same]
        · rw [Function.update_of_ne same,absent]
      have mapped : (s.taken.filled f id disk).pageTable id = some f := by
        simp [filled,handed,setPage,numbered,taken_table,taken_pages,emplace_absent _ erased]
      exact Option.some_ne_none f (mapped.symm.trans usable.absent)
    · rintro ⟨unnumbered,g,rest,free,listed⟩
      obtain rfl : g = f := by
        rw [victimFrame,free] at found
        exact Option.some.inj found
      have clean := (framed.unused g (framed.free g (by simp [free])).2).1
      obtain ⟨_,rfl⟩ := Prod.mk.inj (wrote.symm.trans (writeBack_clean (by rwa [taken_pages])))
      rw [taken_disk]
      have same := filled_unnumbered framed free unnumbered
      have kept := (framed.taken found).1.filled (framed.taken found).2 id s.disk
      refine ⟨kept.unnumbered_absent unnumbered,fun other _ => ?_,fun f chosen => ?_⟩
      · rw [same]
        cases dirty : s.abs.dirty other <;> simp
      · obtain rfl := Option.mem_unique found chosen
        exact (framed.taken_lists found).mpr ⟨⟨rest,free⟩,listed⟩

/-- Page 0 of an empty file cannot be read, but a second fetch returns it, all zero. -/
theorem empty_file_served : ∃ e next, fetchPage ⟨3,0⟩ (start 2 (fun _ => 0) oneFile) = (.error e,next) ∧
    Reachable (start 2 (fun _ => 0) oneFile) ∧ ¬Usable (start 2 (fun _ => 0) oneFile) ⟨3,0⟩ next ∧
    ∃ later, fetchPage ⟨3,0⟩ next = (.ok (some 0),later) ∧ (later.pages 0).data = PageData.zero := by
  refine ⟨_,_,rfl,.start 2 _ oneFile,fun usable => ?_,_,rfl,rfl⟩
  exact Option.some_ne_none 0 usable.absent

/-- A fetch of no page after a deletion takes a frame that is listed twice. -/
theorem noPage_usable : ∃ e next,
    fetchPage ⟨3,invalidPageId⟩ (PoolOp.step (PoolOp.step (PoolOp.step (start 1 (fun _ => 0) oneFile)
      (.newPage 3)) (.unpinPage ⟨3,0⟩ false)) (.deletePage ⟨3,0⟩)) = (.error e,next) ∧
    Usable (PoolOp.step (PoolOp.step (PoolOp.step (start 1 (fun _ => 0) oneFile)
      (.newPage 3)) (.unpinPage ⟨3,0⟩ false)) (.deletePage ⟨3,0⟩)) ⟨3,invalidPageId⟩ next := by
  refine ⟨_,_,rfl,(failed_fetch_usable_iff _ ?_ ⟨3,invalidPageId⟩ _ _ rfl).mpr ⟨rfl,0,[],rfl,?_⟩⟩
  · exact .step _ (.step _ (.step _ (.start 1 _ oneFile)))
  · decide

end Rucbase.BufferPool
