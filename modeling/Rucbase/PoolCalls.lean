import Rucbase.BufferPool

/-! What every call of the pool does, also when the disk fails: the state it leaves as an equation,
and what it keeps of the free list, the replacer, the page table and the pin counts. -/
namespace Rucbase.BufferPool

open Lib Lib.Prog DiskManager

/-- The frame `find_victim_page` would return. -/
def victimFrame (s : BufferPool) : Option FrameId :=
  match s.freeList with
  | [] => s.replacer.victim.1
  | f :: _ => some f

def taken (s : BufferPool) : BufferPool :=
  match s.freeList with
  | [] => { s with replacer := s.replacer.victim.2 }
  | _ :: rest => { s with freeList := rest }

theorem findVictimPage_eq (s : BufferPool) : findVictimPage s = (.ok s.victimFrame,s.taken) := by
  unfold findVictimPage victimFrame taken
  rw [bind_ok (state_run s)]
  cases free : s.freeList <;> simp [bind_run,free]

theorem taken_table (s : BufferPool) : s.taken.pageTable = s.pageTable := by
  unfold taken
  split <;> rfl

theorem taken_disk (s : BufferPool) : s.taken.disk = s.disk := by
  unfold taken
  split <;> rfl

theorem taken_pages (s : BufferPool) : s.taken.pages = s.pages := by
  unfold taken
  split <;> rfl

theorem taken_none {s : BufferPool} (found : s.victimFrame = none) : s.taken = s := by
  unfold victimFrame at found
  unfold taken
  cases free : s.freeList with
  | cons f rest => simp [free] at found
  | nil =>
    rw [free] at found
    dsimp only
    rw [(s.replacer.victim_none found).2,← free]

/-- The write-back that `update_page` makes. -/
def writeBack (s : BufferPool) (f : FrameId) : Except RMDBError Unit × DiskManager :=
  if (s.pages f).isDirty then writePage (s.pages f).id.fd (s.pages f).id.pageNo (s.pages f).data s.disk else (.ok (),s.disk)

/-- The frame's old page is gone from the table, and the frame has another id and no data. -/
def handed (s : BufferPool) (f : FrameId) (id : PageId) (disk : DiskManager) : BufferPool :=
  { s with
    pages := Function.update s.pages f ⟨id,PageData.zero,false,(s.pages f).pinCount⟩
    pageTable :=
      let erased := Function.update s.pageTable (s.pages f).id none
      if id.pageNo ≠ invalidPageId then emplace erased id f else erased
    disk := disk }

/-- A write-back that fails leaves the page resident and clean. -/
def unwritten (s : BufferPool) (f : FrameId) (disk : DiskManager) : BufferPool :=
  { s.setPage f { s.pages f with isDirty := false } with disk := disk }

theorem updatePage_eq (s : BufferPool) (f : FrameId) (id : PageId) : updatePage f id f s =
    match s.writeBack f with
    | (.ok _,disk) => (.ok (),s.handed f id disk)
    | (.error e,disk) => (.error e,s.unwritten f disk) := by
  unfold updatePage writeBack
  rw [bind_ok (state_run s)]
  cases dirty : (s.pages f).isDirty with
  | false => simp [dirty,handed,setPage]
  | true =>
    simp only [↓reduceIte,bind_run,update_run,onDisk]
    cases wrote : writePage (s.pages f).id.fd (s.pages f).id.pageNo (s.pages f).data s.disk with
    | mk result disk =>
      have same : (s.setPage f { s.pages f with isDirty := false }).disk = s.disk := rfl
      rw [same,wrote]
      cases result with
      | error e => rfl
      | ok _ => simp [handed,setPage]

/-- The frame with what the file has of the page. -/
def filled (s : BufferPool) (f : FrameId) (id : PageId) (disk : DiskManager) : BufferPool :=
  (s.handed f id disk).setPage f ⟨id,disk.content id,false,(s.pages f).pinCount⟩

def pinnedFirst (s : BufferPool) (f : FrameId) : BufferPool :=
  { s.setPage f { s.pages f with pinCount := 1 } with replacer := s.replacer.pin f }

theorem filled_pinnedFirst (s : BufferPool) (id : PageId) (disk : DiskManager) : (s.filled f id disk).pinnedFirst f =
    { s.handed f id disk with
    pages := Function.update (s.handed f id disk).pages f ⟨id,disk.content id,false,1⟩
    replacer := (s.handed f id disk).replacer.pin f } := by
  simp [filled,pinnedFirst,setPage]

def pinnedAgain (s : BufferPool) (f : FrameId) : BufferPool :=
  { s.setPage f { s.pages f with pinCount := (s.pages f).pinCount + 1 } with replacer := s.replacer.pin f }

theorem fetchPage_eq (s : BufferPool) (id : PageId) : fetchPage id s =
    match s.pageTable id with
    | some f => (.ok (some f),s.pinnedAgain f)
    | none => match s.victimFrame with
      | none => (.ok none,s.taken)
      | some f => match s.taken.writeBack f with
        | (.error e,disk) => (.error e,s.taken.unwritten f disk)
        | (.ok _,disk) =>
          if disk.readable id.fd id.pageNo pageSize then (.ok (some f),(s.taken.filled f id disk).pinnedFirst f)
          else (.error (.internal "DiskManager::read_page Error"),s.taken.filled f id disk) := by
  unfold fetchPage
  rw [bind_ok (state_run s)]
  cases mapped : s.pageTable id with
  | some f => rfl
  | none =>
  dsimp only
  rw [bind_ok (findVictimPage_eq s)]
  cases s.victimFrame with
  | none => rfl
  | some f =>
  dsimp only
  have update := updatePage_eq s.taken f id
  cases wrote : s.taken.writeBack f with
  | mk result disk =>
  rw [wrote] at update
  cases result with
  | error e => rw [bind_error update]
  | ok _ =>
  rw [bind_ok update]
  have reading : readInto f id (s.taken.handed f id disk) = if disk.readable id.fd id.pageNo pageSize then
      (.ok (),s.taken.filled f id disk) else (.error (.internal "DiskManager::read_page Error"),s.taken.filled f id disk) := by
    unfold readInto
    rw [bind_ok (state_run _),bind_ok (update_run _ _)]
    have page : (s.taken.handed f id disk).pages f = ⟨id,PageData.zero,false,(s.taken.pages f).pinCount⟩ := by simp [handed]
    have loaded : (s.taken.handed f id disk).setPage f { (s.taken.handed f id disk).pages f with
        data := (s.taken.handed f id disk).disk.content id } = s.taken.filled f id disk := by rw [page]; rfl
    rw [loaded]
    by_cases readable : disk.readable id.fd id.pageNo pageSize <;> simp [handed,check,readable]
  by_cases readable : disk.readable id.fd id.pageNo pageSize
  · rw [if_pos readable] at reading
    rw [bind_ok reading]
    simp [readable,pinFirst,bind_run,pinnedFirst]
  · rw [if_neg readable] at reading
    rw [bind_error reading]
    simp [readable]

/-- The counter of the file moves on before the frame is handed over. -/
def allocated (s : BufferPool) (fd : Int) : BufferPool :=
  { s with disk := { s.disk with fd2pageno := Function.update s.disk.fd2pageno fd (s.disk.fd2pageno fd + 1) } }

theorem newPage_eq (s : BufferPool) (fd : Int) : newPage fd s =
    match s.victimFrame with
    | none => (.ok none,s.taken)
    | some f =>
      let id : PageId := ⟨fd,s.taken.disk.fd2pageno fd⟩
      if 0 ≤ fd ∧ fd < maxFd then
        match (s.taken.allocated fd).writeBack f with
        | (.error e,disk) => (.error e,(s.taken.allocated fd).unwritten f disk)
        | (.ok _,disk) => (.ok (some (f,id)),((s.taken.allocated fd).handed f id disk).pinnedFirst f)
      else (.error .assertion,s.taken) := by
  unfold newPage
  rw [bind_ok (findVictimPage_eq s)]
  cases s.victimFrame with
  | none => rfl
  | some f =>
  dsimp only
  by_cases known : 0 ≤ fd ∧ fd < maxFd
  case neg =>
    have refused : onDisk (allocatePage fd) s.taken = (.error .assertion,s.taken) := by
      simp [onDisk,allocatePage,bind_run,check,known]
    rw [bind_error refused,if_neg known]
  have allocation : onDisk (allocatePage fd) s.taken = (.ok (s.taken.disk.fd2pageno fd : Int),s.taken.allocated fd) := by
    simp [onDisk,allocatePage,bind_run,check,known,BufferPool.allocated]
  rw [bind_ok allocation,if_pos known]
  have update := updatePage_eq (s.taken.allocated fd) f ⟨fd,s.taken.disk.fd2pageno fd⟩
  cases wrote : (s.taken.allocated fd).writeBack f with
  | mk result disk =>
  rw [wrote] at update
  cases result with
  | error e => rw [bind_error update]
  | ok _ =>
    rw [bind_ok update]
    rfl

theorem newPage_id {s : BufferPool} {fd : Int} {f : FrameId} {id : PageId}
    (made : (newPage fd s).1 = .ok (some (f,id))) : id = ⟨fd,s.disk.fd2pageno fd⟩ := by
  rw [newPage_eq] at made
  cases found : s.victimFrame with
  | none => simp [found] at made
  | some g =>
    simp only [found,taken_disk] at made
    repeat' split at made
    all_goals simp at made
    exact made.2.symm

/-- The table names frames by their ids, a frame without a page is clean and unpinned, and the
free list and the replacer list such frames as they should. -/
structure Framed (s : BufferPool) : Prop where
  table : ∀ id f, s.pageTable id = some f → f < s.poolSize ∧ (s.pages f).id = id ∧ id.pageNo ≠ invalidPageId
  unused : ∀ f, (s.pages f).id.pageNo = invalidPageId → (s.pages f).isDirty = false ∧ (s.pages f).pinCount = 0
  free : ∀ f ∈ s.freeList, f < s.poolSize ∧ (s.pages f).id.pageNo = invalidPageId
  distinct : s.freeList.Nodup
  linked : s.replacer.Linked
  idle : ∀ f ∈ s.replacer.frames, f < s.poolSize ∧ (s.pages f).pinCount = 0

theorem start_framed (poolSize : Nat) (fds : FrameId → Int) (disk : DiskManager) :
    (start poolSize fds disk).Framed := by
  refine ⟨?_,?_,?_,?_,LruReplacer.start_linked _,?_⟩ <;>
    simp [start,List.nodup_range,LruReplacer.start,LruReplacer.frames]

variable {s : BufferPool} {f : FrameId} {id : PageId}

theorem Framed.mapped_busy (framed : s.Framed) (mapped : s.pageTable id = some f) : f ∉ s.freeList := fun member => by
  obtain ⟨_,named,numbered⟩ := framed.table id f mapped
  exact numbered (named ▸ (framed.free f member).2)

variable {g : FrameId} {page : Page}

theorem Framed.put (framed : s.Framed) {replacer : LruReplacer FrameId} (disk : DiskManager)
    (same : page.id = (s.pages f).id)
    (unused : page.id.pageNo = invalidPageId → page.isDirty = false ∧ page.pinCount = 0) (linked : replacer.Linked)
    (idle : ∀ g ∈ replacer.frames, g < s.poolSize ∧ (Function.update s.pages f page g).pinCount = 0) :
    Framed { s with pages := Function.update s.pages f page, replacer := replacer, disk := disk } := by
  have ids (g : FrameId) : (Function.update s.pages f page g).id = (s.pages g).id := by
    by_cases here : g = f
    · subst g; simpa using same
    · simp [here]
  refine ⟨fun q g mapped => ?_,fun g unnumbered => ?_,fun g member => ?_,framed.distinct,linked,idle⟩
  · rw [ids]
    exact framed.table q g mapped
  · by_cases here : g = f
    · subst g
      simp only [Function.update_self] at unnumbered ⊢
      exact unused unnumbered
    · simp only [Function.update_of_ne here] at unnumbered ⊢
      exact framed.unused g unnumbered
  · rw [ids]
    exact framed.free g member

theorem Framed.mem_pin (framed : s.Framed) : g ∈ (s.replacer.pin f).frames ↔ g ≠ f ∧ g ∈ s.replacer.frames := by
  rw [(LruReplacer.pin_spec framed.linked f).1,framed.linked.distinct.mem_erase_iff]

/-- Pinning takes the frame out of the replacer, so its pin count is free to change. -/
theorem Framed.putPinned (framed : s.Framed) (same : page.id = (s.pages f).id)
    (numbered : page.id.pageNo ≠ invalidPageId) :
    Framed { s with pages := Function.update s.pages f page, replacer := s.replacer.pin f } := by
  refine framed.put s.disk same (fun unnumbered => absurd unnumbered numbered) (LruReplacer.pin_spec framed.linked f).2
    fun g member => ?_
  obtain ⟨other,listed⟩ := framed.mem_pin.mp member
  rw [Function.update_of_ne other]
  exact framed.idle g listed

/-- A frame that was chosen: unpinned and no longer listed as free. -/
structure Chosen (s : BufferPool) (f : FrameId) : Prop where
  bound : f < s.poolSize
  idle : (s.pages f).pinCount = 0
  gone : f ∉ s.freeList

theorem Framed.taken (framed : s.Framed) (found : s.victimFrame = some f) : s.taken.Framed ∧ s.taken.Chosen f := by
  unfold victimFrame at found
  unfold BufferPool.taken
  cases free : s.freeList with
  | nil =>
    rw [free] at found
    obtain ⟨split,linked⟩ := LruReplacer.victim_some framed.linked (Prod.ext found rfl : s.replacer.victim = (some f,_))
    have here := framed.idle f (by simp [split])
    exact ⟨{ framed with
      free := nofun
      distinct := List.nodup_nil
      linked := linked
      idle := fun g member => framed.idle g (by simp [split,member]) },here.1,here.2,List.not_mem_nil⟩
  | cons g rest =>
    rw [free] at found
    obtain rfl := Option.some.inj found
    have here := framed.free g (by simp [free])
    obtain ⟨gone,distinct⟩ := List.nodup_cons.mp (free ▸ framed.distinct)
    exact ⟨{ framed with free := fun f member => framed.free f (by simp [free,member]), distinct := distinct },
      here.1,(framed.unused g here.2).2,gone⟩

theorem handed_table {disk : DiskManager} {q : PageId} (mapped : (s.handed f id disk).pageTable q = some g) :
    (q = id ∧ g = f ∧ id.pageNo ≠ invalidPageId) ∨ q ≠ (s.pages f).id ∧ s.pageTable q = some g := by
  have erased {q : PageId} {g : FrameId} (old : Function.update s.pageTable (s.pages f).id none q = some g) :
      q ≠ (s.pages f).id ∧ s.pageTable q = some g := by
    by_cases here : q = (s.pages f).id
    · simp [here] at old
    · exact ⟨here,by rwa [Function.update_of_ne here] at old⟩
  simp only [handed] at mapped
  split at mapped
  · rename_i numbered
    unfold emplace at mapped
    split at mapped
    · exact .inr (erased mapped)
    · by_cases here : q = id
      · subst q
        exact .inl ⟨rfl,by simpa using mapped.symm,numbered⟩
      · rw [Function.update_of_ne here] at mapped
        exact .inr (erased mapped)
  · exact .inr (erased mapped)

theorem Framed.handed (framed : s.Framed) (chosen : s.Chosen f) (id : PageId) (disk : DiskManager) :
    (s.handed f id disk).Framed := by
  refine ⟨fun q g mapped => ?_,fun g unnumbered => ?_,fun g member => ?_,framed.distinct,framed.linked,fun g listed => ?_⟩
  · rcases handed_table mapped with ⟨rfl,rfl,numbered⟩ | ⟨other,old⟩
    · exact ⟨chosen.bound,by simp [BufferPool.handed],numbered⟩
    · obtain ⟨bound,named,numbered⟩ := framed.table q g old
      have apart : g ≠ f := fun same => other (by rw [← named,same])
      exact ⟨bound,by simpa [BufferPool.handed,apart] using named,numbered⟩
  · by_cases here : g = f
    · subst g; simp [BufferPool.handed,chosen.idle]
    · simp only [BufferPool.handed,Function.update_of_ne here] at unnumbered ⊢
      exact framed.unused g unnumbered
  · have apart : g ≠ f := fun same => chosen.gone (same ▸ member)
    simpa [BufferPool.handed,apart] using framed.free g member
  · by_cases here : g = f
    · subst g; simpa [BufferPool.handed] using framed.idle f listed
    · simpa [BufferPool.handed,here] using framed.idle g listed

theorem writeBack_clean (clean : (s.pages f).isDirty = false) : s.writeBack f = (.ok (),s.disk) := by
  simp [writeBack,clean]

theorem readable_numbered {s : DiskManager} {fd pageNo : Int} {n : Nat} (readable : s.readable fd pageNo n = true) :
    pageNo ≠ invalidPageId := by
  unfold DiskManager.readable at readable
  cases opened : s.os.file fd with
  | none => simp [opened] at readable
  | some o =>
    simp only [opened,decide_eq_true_eq] at readable
    have := readable.1
    unfold invalidPageId
    omega

theorem handed_pageTable (disk : DiskManager) (absent : s.pageTable id = none) (valid : id.pageNo ≠ invalidPageId) :
    (s.handed f id disk).pageTable =
      Function.update (Function.update s.pageTable (s.pages f).id none) id (some f) := by
  have gone : Function.update s.pageTable (s.pages f).id none id = none := by
    by_cases same : id = (s.pages f).id <;> simp [same,absent]
  simp only [handed,ne_eq,valid,not_false_eq_true,↓reduceIte]
  exact emplace_absent f gone

/-- Every frame's page is mapped to it. -/
def Homed (s : BufferPool) : Prop :=
  ∀ f, f < s.poolSize → (s.pages f).id.pageNo ≠ invalidPageId → s.pageTable (s.pages f).id = some f

theorem Homed.handed (homed : s.Homed) (bound : f < s.poolSize) (absent : s.pageTable id = none) (disk : DiskManager) :
    (s.handed f id disk).Homed := by
  intro g inside numbered
  by_cases here : g = f
  · subst g
    have fresh : Function.update s.pageTable (s.pages f).id none id = none := by
      by_cases same : id = (s.pages f).id
      · simp [same]
      · rw [Function.update_of_ne same,absent]
    have name : id.pageNo ≠ invalidPageId := by simpa [BufferPool.handed] using numbered
    simp [BufferPool.handed,name,emplace_absent _ fresh]
  · have old : (s.pages g).id.pageNo ≠ invalidPageId := by simpa [BufferPool.handed,here] using numbered
    have home := homed g inside old
    have beside : (s.pages g).id ≠ (s.pages f).id := fun same => by
      have other := homed f bound (same ▸ old)
      rw [← same,home] at other
      exact here (Option.some.inj other)
    have apart : (s.pages g).id ≠ id := fun same => by
      rw [same,absent] at home
      cases home
    have kept : (Function.update s.pageTable (s.pages f).id none) (s.pages g).id = some g := by
      rw [Function.update_of_ne beside,home]
    simp only [BufferPool.handed,Function.update_of_ne here]
    split
    · unfold emplace
      split
      · exact kept
      · rw [Function.update_of_ne apart,kept]
    · exact kept

theorem Homed.put (homed : s.Homed) (page : Page) (same : page.id = (s.pages f).id) (replacer : LruReplacer FrameId)
    (disk : DiskManager) :
    Homed { s with pages := Function.update s.pages f page, replacer := replacer, disk := disk } := by
  intro g bound numbered
  have ids : (Function.update s.pages f page g).id = (s.pages g).id := by
    by_cases here : g = f
    · subst g; simpa using same
    · simp [here]
  dsimp only at numbered bound ⊢
  rw [ids] at numbered ⊢
  exact homed g bound numbered

/-- Every page is in one frame, under its own name. -/
structure Housed (s : BufferPool) : Prop where
  framed : s.Framed
  homed : s.Homed

theorem Housed.taken (housed : s.Housed) (found : s.victimFrame = some f) : s.taken.Housed ∧ s.taken.Chosen f := by
  obtain ⟨framed,chosen⟩ := housed.framed.taken found
  refine ⟨⟨framed,?_⟩,chosen⟩
  unfold BufferPool.taken
  split <;> exact housed.homed

section Framed

variable (framed : s.Framed)

include framed

theorem Framed.onDisk (disk : DiskManager) : Framed { s with disk := disk } := { framed with }

theorem Framed.unwritten (f : FrameId) (disk : DiskManager) : (s.unwritten f disk).Framed := by
  refine framed.put disk rfl (fun unnumbered => ⟨rfl,(framed.unused f unnumbered).2⟩) framed.linked fun g listed => ?_
  by_cases here : g = f
  · subst g; simpa using framed.idle f listed
  · simpa [here] using framed.idle g listed

theorem Framed.filled (chosen : s.Chosen f) (id : PageId) (disk : DiskManager) :
    (s.filled f id disk).Framed := by
  have handed := framed.handed chosen id disk
  have page : (s.handed f id disk).pages f = ⟨id,PageData.zero,false,(s.pages f).pinCount⟩ := by simp [BufferPool.handed]
  refine handed.put disk (by rw [page]) (fun _ => ⟨rfl,chosen.idle⟩) handed.linked fun g listed => ?_
  by_cases here : g = f
  · subst g; exact ⟨chosen.bound,by simpa using chosen.idle⟩
  · simpa [here] using handed.idle g listed

theorem Framed.pinnedFirst (numbered : (s.pages f).id.pageNo ≠ invalidPageId) :
    (s.pinnedFirst f).Framed := framed.putPinned rfl numbered

theorem Framed.pinnedAgain (mapped : s.pageTable id = some f) : (s.pinnedAgain f).Framed :=
  have ⟨_,named,numbered⟩ := framed.table id f mapped
  framed.putPinned rfl (by simpa only [named] using numbered)

theorem fetchPage_framed (id : PageId) : ((fetchPage id).after s).Framed := by
  rw [after,fetchPage_eq]
  cases mapped : s.pageTable id with
  | some f => exact framed.pinnedAgain mapped
  | none =>
  cases found : s.victimFrame with
  | none => exact (taken_none found).symm ▸ framed
  | some f =>
  obtain ⟨framed',chosen⟩ := framed.taken found
  dsimp only
  cases s.taken.writeBack f with
  | mk result disk =>
  cases result with
  | error e => exact framed'.unwritten f disk
  | ok _ =>
    dsimp only
    have filled := framed'.filled chosen id disk
    split
    · rename_i readable
      exact filled.pinnedFirst (by simpa [BufferPool.filled,setPage] using readable_numbered readable)
    · exact filled

theorem newPage_framed (fd : Int) : ((newPage fd).after s).Framed := by
  rw [after,newPage_eq]
  cases found : s.victimFrame with
  | none => exact (taken_none found).symm ▸ framed
  | some f =>
  obtain ⟨framed',chosen⟩ := framed.taken found
  dsimp only
  split
  · have allocated : (s.taken.allocated fd).Framed := framed'.onDisk _
    cases (s.taken.allocated fd).writeBack f with
    | mk result disk =>
    cases result with
    | error e => exact allocated.unwritten f disk
    | ok _ =>
      have chosen' : (s.taken.allocated fd).Chosen f := ⟨chosen.bound,chosen.idle,chosen.gone⟩
      refine (allocated.handed chosen' _ disk).pinnedFirst ?_
      simp [BufferPool.handed,invalidPageId]
  · exact framed'

theorem Framed.putIdle (disk : DiskManager) (same : page.id = (s.pages f).id)
    (pins : page.pinCount = (s.pages f).pinCount) (unused : page.id.pageNo = invalidPageId → page.isDirty = false) :
    Framed { s with pages := Function.update s.pages f page, disk := disk } := by
  refine framed.put disk same (fun unnumbered => ⟨unused unnumbered,?_⟩) framed.linked fun g listed => ?_
  · rw [pins]
    exact (framed.unused f (same ▸ unnumbered)).2
  · by_cases here : g = f
    · subst here; simpa [pins] using framed.idle g listed
    · simpa [here] using framed.idle g listed

end Framed

/-- The page as `unpin_page` leaves it. -/
def released (page : Page) (isDirty : Bool) : Page :=
  { page with pinCount := page.pinCount - 1, isDirty := isDirty || page.isDirty }

theorem unpinPage_eq (s : BufferPool) (id : PageId) (isDirty : Bool) : unpinPage id isDirty s =
    match s.pageTable id with
    | none => (.ok false,s)
    | some f =>
      if (s.pages f).pinCount = 0 then (.ok false,s)
      else (.ok true,{ s.setPage f (released (s.pages f) isDirty) with
        replacer := if (released (s.pages f) isDirty).pinCount = 0 then s.replacer.unpin f else s.replacer }) := by
  unfold unpinPage
  rw [bind_ok (state_run s)]
  cases mapped : s.pageTable id with
  | none => rfl
  | some f =>
    dsimp only
    split <;> rfl

theorem mem_unpin (framed : s.Framed) : g ∈ (s.replacer.unpin f).frames ↔ g = f ∨ g ∈ s.replacer.frames := by
  rw [(LruReplacer.unpin_spec framed.linked f).1]
  split
  · rename_i listed
    exact ⟨.inr,fun either => either.elim (fun same => same ▸ listed) (·)⟩
  · exact List.mem_cons

/-- The replacer after a release lists what it listed, and the frame when that was the last pin. -/
theorem mem_released (framed : s.Framed) {pins : Nat} :
    g ∈ (if pins = 0 then s.replacer.unpin f else s.replacer).frames ↔ (pins = 0 ∧ g = f) ∨ g ∈ s.replacer.frames := by
  by_cases last : pins = 0
  · rw [if_pos last,mem_unpin framed]
    simp [last]
  · simp [last]

theorem released_framed (framed : s.Framed) (mapped : s.pageTable id = some f) (pinned : (s.pages f).pinCount ≠ 0)
    (isDirty : Bool) : Framed { s.setPage f (released (s.pages f) isDirty) with
      replacer := if (released (s.pages f) isDirty).pinCount = 0 then s.replacer.unpin f else s.replacer } := by
  obtain ⟨bound,named,numbered⟩ := framed.table id f mapped
  refine framed.put s.disk rfl (fun unnumbered => absurd (named ▸ unnumbered) numbered) ?_ fun g listed => ?_
  · split
    · exact (LruReplacer.unpin_spec framed.linked f).2
    · exact framed.linked
  · rcases (mem_released framed).mp listed with ⟨last,rfl⟩ | old
    · exact ⟨bound,by simpa using last⟩
    · have apart : g ≠ f := fun same => pinned (same ▸ (framed.idle g old).2)
      simpa [apart] using framed.idle g old

theorem unpinPage_framed (framed : s.Framed) (id : PageId) (isDirty : Bool) : ((unpinPage id isDirty).after s).Framed := by
  rw [after,unpinPage_eq]
  cases mapped : s.pageTable id with
  | none => exact framed
  | some f =>
    dsimp only
    split
    · exact framed
    · rename_i pinned
      exact released_framed framed mapped pinned isDirty

theorem deletePage_eq (s : BufferPool) (id : PageId) : deletePage id s =
    match s.pageTable id with
    | none => (.ok true,s)
    | some f =>
      if 0 < (s.pages f).pinCount then (.ok false,s)
      else match s.writeBack f with
        | (.error e,disk) => (.error e,s.unwritten f disk)
        | (.ok _,disk) => (.ok true,{ s.handed f ⟨id.fd,invalidPageId⟩ disk with freeList := s.freeList ++ [f] }) := by
  unfold deletePage
  rw [bind_ok (state_run s)]
  cases mapped : s.pageTable id with
  | none => rfl
  | some f =>
  dsimp only
  split
  · rfl
  have update := updatePage_eq s f ⟨id.fd,invalidPageId⟩
  cases wrote : s.writeBack f with
  | mk result disk =>
  rw [wrote] at update
  cases result with
  | error e => rw [bind_error update]
  | ok _ =>
    rw [bind_ok update]
    rfl

theorem Framed.chosen (framed : s.Framed) (mapped : s.pageTable id = some f) (idle : ¬0 < (s.pages f).pinCount) :
    s.Chosen f :=
  ⟨(framed.table id f mapped).1,Nat.eq_zero_of_not_pos idle,framed.mapped_busy mapped⟩

theorem Framed.unnumbered_absent (framed : s.Framed) (unnumbered : id.pageNo = invalidPageId) : s.pageTable id = none := by
  cases mapped : s.pageTable id with
  | none => rfl
  | some f => exact absurd unnumbered (framed.table id f mapped).2.2

theorem Framed.freed (framed : s.Framed) (chosen : s.Chosen f) (fd : Int) (disk : DiskManager) :
    Framed { s.handed f ⟨fd,invalidPageId⟩ disk with freeList := s.freeList ++ [f] } := by
  have handed := framed.handed chosen ⟨fd,invalidPageId⟩ disk
  refine { handed with free := fun g member => ?_, distinct := ?_ }
  · rcases List.mem_append.mp member with old | last
    · exact handed.free g old
    · obtain rfl := List.mem_singleton.mp last
      exact ⟨chosen.bound,by simp [BufferPool.handed]⟩
  · exact List.nodup_append.mpr ⟨framed.distinct,List.nodup_singleton f,fun g member h last same =>
      chosen.gone (List.mem_singleton.mp last ▸ same ▸ member)⟩

theorem deletePage_framed (framed : s.Framed) (id : PageId) : ((deletePage id).after s).Framed := by
  rw [after,deletePage_eq]
  cases mapped : s.pageTable id with
  | none => exact framed
  | some f =>
  dsimp only
  split
  · exact framed
  rename_i idle
  cases s.writeBack f with
  | mk result disk =>
  cases result with
  | error e => exact framed.unwritten f disk
  | ok _ => exact framed.freed (framed.chosen mapped idle) id.fd disk

end Rucbase.BufferPool
