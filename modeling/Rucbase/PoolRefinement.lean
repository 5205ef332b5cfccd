import Rucbase.PoolCalls

/-! The pool refines a write-back cache: what clients can tell of frames, page table, free
list, replacer and disk is the cache `abs`, and each call is one operation of that cache,
preceded by the eviction of the frame's old page where a frame changes hands. -/
namespace Rucbase.BufferPool

open Lib Lib.Prog DiskManager PageCache

/-- The cache given by the resident pages and the disk contents. -/
def cacheOf (entry : PageId → Option Page) (content : PageId → PageData) :
    PageCache PageId PageData where
  view id := match entry id with
    | some page => page.data
    | none => content id
  disk := content
  pin id := match entry id with
    | some page => page.pinCount
    | none => 0
  dirty id := match entry id with
    | some page => page.isDirty
    | none => false

/-- The page object that holds `id`, if any. -/
def entry (s : BufferPool) (id : PageId) : Option Page := (s.pageTable id).map s.pages

/-- The cache, as far as the descriptors in use go. -/
def absOn (used : Int → Bool) (s : BufferPool) : PageCache PageId PageData := cacheOf s.entry (s.disk.contentOn used)

abbrev abs (s : BufferPool) : PageCache PageId PageData := s.absOn fun _ => true

section CacheOf

variable (entry : PageId → Option Page) (content : PageId → PageData)

/-- What a page leaves on disk when its frame is reused. -/
def leave (id : PageId) : PageId → PageData :=
  match entry id with
  | some page => if page.isDirty then Function.update content id page.data else content
  | none => content

theorem cacheOf_leave (id : PageId) (idle : (cacheOf entry content).pin id = 0) :
    cacheOf (Function.update entry id none) (leave entry content id) =
      (cacheOf entry content).evict id := by
  unfold evict
  rw [if_pos idle]
  cases here : entry id with
  | none =>
    have clean : (cacheOf entry content).dirty id = false := by simp [cacheOf,here]
    have same : (cacheOf entry content).view id = (cacheOf entry content).disk id := by
      simp [cacheOf,here]
    rw [clean,← same,Function.update_eq_self,← here,Function.update_eq_self]
    simp [leave,here]
  | some page =>
    have flag : (cacheOf entry content).dirty id = page.isDirty := by simp [cacheOf,here]
    rw [flag]
    have unpinned : page.pinCount = 0 := by simpa [cacheOf,here] using idle
    cases dirty : page.isDirty <;>
      simp only [leave,here,dirty,Bool.false_eq_true,↓reduceIte] <;>
      apply PageCache.ext <;> funext q <;> by_cases same : q = id <;>
      simp [cacheOf,same,here,dirty,unpinned]

theorem cacheOf_update (id : PageId) (page : Page) :
    cacheOf (Function.update entry id (some page)) content =
      ⟨Function.update (cacheOf entry content).view id page.data,content,
        Function.update (cacheOf entry content).pin id page.pinCount,
        Function.update (cacheOf entry content).dirty id page.isDirty⟩ := by
  apply PageCache.ext <;> funext q <;> by_cases same : q = id <;> simp [cacheOf,same]

theorem cacheOf_install (id : PageId) (page : Page) (absent : entry id = none) (clean : page.isDirty = false) :
    cacheOf (Function.update entry id (some page)) content = { cacheOf entry content with
      view := Function.update (cacheOf entry content).view id page.data
      pin := Function.update (cacheOf entry content).pin id page.pinCount } := by
  have flag : (cacheOf entry content).dirty id = false := by simp [cacheOf,absent]
  rw [cacheOf_update,clean,← flag,Function.update_eq_self]
  rfl

end CacheOf

/-- The invariant of the pool: every page is in one frame under its own name, and the descriptors in
use name different files. -/
structure Ok (used : Int → Bool) (s : BufferPool) : Prop extends Housed s where
  inUse : ∀ id f, s.pageTable id = some f → used id.fd = true
  single : s.disk.OneFilePerFd used

variable {used : Int → Bool}

theorem start_ok (poolSize : Nat) (fds : FrameId → Int) (disk : DiskManager) (single : disk.OneFilePerFd used) :
    (start poolSize fds disk).Ok used :=
  ⟨⟨start_framed poolSize fds disk,by simp [Homed,start]⟩,by simp [start],single⟩

variable {s next : BufferPool} {f : FrameId} {id : PageId} {disk : DiskManager}

theorem map_update (framed : s.Framed) {q : PageId} (other : q ≠ (s.pages f).id) (page : Page) :
    (s.pageTable q).map (Function.update s.pages f page) = s.entry q := by
  cases mapped : s.pageTable q with
  | none => simp [entry,mapped]
  | some g =>
    have differ : g ≠ f := fun equal => other (by rw [← (framed.table q g mapped).2.1,equal])
    simp [entry,mapped,differ]

theorem entry_home (ok : s.Ok used) (bound : f < s.poolSize) (numbered : (s.pages f).id.pageNo ≠ invalidPageId) :
    s.entry (s.pages f).id = some (s.pages f) := by
  simp [entry,ok.homed f bound numbered]

theorem entry_unnumbered (ok : s.Ok used) (unnumbered : id.pageNo = invalidPageId) : s.entry id = none := by
  simp [entry,ok.framed.unnumbered_absent unnumbered]

theorem writeBack_leave (ok : s.Ok used) (bound : f < s.poolSize) (wrote : s.writeBack f = (.ok (),disk)) :
    disk.contentOn used = leave s.entry (s.disk.contentOn used) (s.pages f).id ∧ disk.os.fds = s.disk.os.fds := by
  unfold writeBack at wrote
  by_cases numbered : (s.pages f).id.pageNo = invalidPageId
  · have clean := (ok.framed.unused f numbered).1
    obtain rfl : s.disk = disk := by simpa [clean] using wrote
    exact ⟨by simp [leave,entry_unnumbered ok numbered],rfl⟩
  · rw [leave,entry_home ok bound numbered]
    split at wrote
    · rename_i dirty
      obtain ⟨content,fds,_⟩ := writePage_ok wrote ok.single (ok.inUse _ f (ok.homed f bound numbered))
      exact ⟨by simpa [dirty] using content,fds⟩
    · rename_i clean
      obtain rfl := (Prod.mk.inj wrote).2
      exact ⟨by simp [clean],rfl⟩

theorem evict_frame (ok : s.Ok used) (chosen : s.Chosen f) (wrote : s.writeBack f = (.ok (),disk)) :
    cacheOf (Function.update s.entry (s.pages f).id none) (disk.contentOn used) = (s.absOn used).evict (s.pages f).id := by
  have unpinned : (s.absOn used).pin (s.pages f).id = 0 := by
    by_cases numbered : (s.pages f).id.pageNo = invalidPageId
    · simp [absOn,cacheOf,entry_unnumbered ok numbered]
    · simp [absOn,cacheOf,entry_home ok chosen.bound numbered,chosen.idle]
  rw [(writeBack_leave ok chosen.bound wrote).1]
  exact cacheOf_leave s.entry (s.disk.contentOn used) (s.pages f).id unpinned

/-- A pinned frame keeps its page, its place in the table and its bytes. -/
def Kept (s next : BufferPool) : Prop :=
  ∀ id f, s.pageTable id = some f → 0 < (s.pages f).pinCount →
    next.pageTable id = some f ∧ (next.pages f).data = (s.pages f).data

/-- The frame's old page was not pinned, so pinned pages stay where they are. -/
theorem handed_kept (ok : s.Ok used) (chosen : s.Chosen f) (absent : s.pageTable id = none) (disk : DiskManager)
    (table : next.pageTable = (s.handed f id disk).pageTable) (pages : ∀ g, g ≠ f → next.pages g = s.pages g) :
    Kept s next := by
  intro q g mapped pinned
  have differ : g ≠ f := by rintro rfl; rw [chosen.idle] at pinned; omega
  obtain ⟨bound,named,numbered⟩ := ok.framed.table q g mapped
  have home := ok.homed.handed chosen.bound absent disk g bound (by simpa [handed,differ,named] using numbered)
  refine ⟨?_,by rw [pages g differ]⟩
  rw [table]
  simpa [handed,differ,named] using home

theorem Ok.handed_inUse (ok : s.Ok used) (here : id.pageNo ≠ invalidPageId → used id.fd = true) (disk : DiskManager) :
    ∀ q g, (s.handed f id disk).pageTable q = some g → used q.fd = true := by
  intro q g mapped
  rcases handed_table mapped with ⟨rfl,_,numbered⟩ | ⟨_,old⟩
  · exact here numbered
  · exact ok.inUse q g old

/-- Frame `f` handed to page `id` with its first pin. -/
def installed (s : BufferPool) (f : FrameId) (id : PageId) (data : PageData) (disk : DiskManager) :
    BufferPool := { s.handed f id disk with
  pages := Function.update s.pages f ⟨id,data,false,1⟩
  replacer := s.replacer.pin f }

theorem filled_pinned : (s.filled f id disk).pinnedFirst f = s.installed f id (disk.content id) disk := by
  simp [filled,pinnedFirst,setPage,installed,handed]

theorem handed_pinned : (s.handed f id disk).pinnedFirst f = s.installed f id PageData.zero disk := by
  simp [pinnedFirst,setPage,installed,handed]

theorem installed_entry (framed : s.Framed) (absent : s.pageTable id = none) (valid : id.pageNo ≠ invalidPageId)
    (data : PageData) : (s.installed f id data disk).entry =
      Function.update (Function.update s.entry (s.pages f).id none) id (some ⟨id,data,false,1⟩) := by
  have table := handed_pageTable (f := f) disk absent valid
  funext q
  by_cases same : q = id
  · simp [entry,installed,table,same]
  · by_cases old : q = (s.pages f).id
    · subst q
      simp [entry,installed,table,same]
    · simp only [entry,installed,table,Function.update_of_ne same,Function.update_of_ne old]
      exact map_update framed old _

section Arrival

variable (ok : s.Ok used) (chosen : s.Chosen f) (absent : s.pageTable id = none) (valid : id.pageNo ≠ invalidPageId)
  (here : used id.fd = true) (wrote : s.writeBack f = (.ok (),disk)) (data : PageData)
include ok chosen absent valid here wrote

theorem installed_ok : (s.installed f id data disk).Ok used := by
  have framed := ok.framed.handed chosen id disk
  have homed := ok.homed.handed chosen.bound absent disk
  have page : ((s.handed f id disk).pages f).id = id := by simp [handed]
  have whole : s.installed f id data disk = { s.handed f id disk with
      pages := Function.update (s.handed f id disk).pages f ⟨id,data,false,1⟩
      replacer := (s.handed f id disk).replacer.pin f } := by simp [installed,handed]
  have single := ok.single.of_fds (writeBack_leave ok chosen.bound wrote).2
  rw [whole]
  exact ⟨⟨framed.putPinned page.symm valid,homed.put ⟨id,data,false,1⟩ page.symm _ _⟩,ok.handed_inUse (fun _ => here) disk,single⟩

omit here in
theorem installed_abs : (s.installed f id data disk).absOn used = ((s.absOn used).evict (s.pages f).id).create id data := by
  have gone : Function.update s.entry (s.pages f).id none id = none := by
    by_cases same : id = (s.pages f).id
    · simp [same]
    · simp [same,entry,absent]
  rw [← evict_frame ok chosen wrote,absOn,installed_entry ok.framed absent valid]
  exact cacheOf_install _ _ id ⟨id,data,false,1⟩ gone rfl

theorem installed_fetch :
    (s.installed f id (disk.content id) disk).absOn used = ((s.absOn used).evict (s.pages f).id).fetch id := by
  rw [installed_abs ok chosen absent valid wrote]
  have cached := evict_frame ok chosen wrote
  have gone : Function.update s.entry (s.pages f).id none id = none := by
    by_cases same : id = (s.pages f).id
    · simp [same]
    · simp [same,entry,absent]
  have view : ((s.absOn used).evict (s.pages f).id).view id = disk.content id := by
    rw [← cached]; simp [cacheOf,gone,contentOn,here]
  have pin : ((s.absOn used).evict (s.pages f).id).pin id = 0 := by
    rw [← cached]; simp [cacheOf,gone]
  simp [create,fetch,← view,pin]

end Arrival

theorem taken_abs (s : BufferPool) : s.taken.absOn used = s.absOn used := by
  have entries : s.taken.entry = s.entry := by
    funext q
    simp [entry,taken_table,taken_pages]
  rw [absOn,entries,taken_disk]
  rfl

theorem Ok.taken (ok : s.Ok used) (found : s.victimFrame = some f) :
    s.taken.Ok used ∧ s.taken.Chosen f ∧ ∀ next, Kept s.taken next → Kept s next := by
  obtain ⟨housed,chosen⟩ := ok.toHoused.taken found
  refine ⟨⟨housed,by rw [taken_table]; exact ok.inUse,by rw [taken_disk]; exact ok.single⟩,chosen,fun next kept => ?_⟩
  simpa [Kept,taken_table,taken_pages] using kept

/-- Allocating a page number changes a counter only. -/
theorem Ok.allocated (ok : s.Ok used) (fd : Int) : (s.allocated fd).Ok used :=
  ⟨⟨ok.framed.onDisk _,ok.homed⟩,ok.inUse,ok.single.of_fds rfl⟩

/-- A resident page's object changed in place. -/
def modified (s : BufferPool) (f : FrameId) (page : Page) (replacer : LruReplacer FrameId) (disk : DiskManager) :
    BufferPool :=
  { s with pages := Function.update s.pages f page, replacer := replacer, disk := disk }

theorem modified_abs (framed : s.Framed) (mapped : s.pageTable id = some f) (page : Page)
    (replacer : LruReplacer FrameId) (disk : DiskManager) : (s.modified f page replacer disk).absOn used =
      ⟨Function.update (cacheOf s.entry (disk.contentOn used)).view id page.data,disk.contentOn used,
        Function.update (s.absOn used).pin id page.pinCount,Function.update (s.absOn used).dirty id page.isDirty⟩ := by
  have named := (framed.table id f mapped).2.1
  have entries : (s.modified f page replacer disk).entry = Function.update s.entry id (some page) := by
    funext q
    by_cases same : q = id
    · simp [entry,modified,same,mapped]
    · rw [Function.update_of_ne same]
      exact map_update framed (named.symm ▸ same) page
  rw [absOn,entries]
  exact cacheOf_update s.entry (disk.contentOn used) id page

theorem modified_kept (page : Page) (same : page.data = (s.pages f).data) (replacer : LruReplacer FrameId)
    (disk : DiskManager) : Kept s (s.modified f page replacer disk) := by
  intro q g here _
  refine ⟨here,?_⟩
  by_cases equal : g = f
  · subst g; simp [modified,same]
  · simp [modified,equal]

variable (used) in
theorem abs_mapped (mapped : s.pageTable id = some f) :
    (s.absOn used).view id = (s.pages f).data ∧ (s.absOn used).pin id = (s.pages f).pinCount ∧
    (s.absOn used).dirty id = (s.pages f).isDirty := by
  simp [absOn,cacheOf,entry,mapped]

/-- A fetch that returns a page is the fetch of the cache, after at most one eviction. -/
theorem fetchPage_some (ok : s.Ok used) (here : used id.fd = true) (ran : fetchPage id s = (.ok (some f),next)) :
    next.Ok used ∧ Kept s next ∧ next.pageTable id = some f ∧
    ∃ evicted : List PageId, next.absOn used = ((s.absOn used).evictAll evicted).fetch id := by
  rw [fetchPage_eq] at ran
  cases mapped : s.pageTable id with
  | some i =>
    simp only [mapped,Prod.mk.injEq,Except.ok.injEq,Option.some.injEq] at ran
    obtain ⟨rfl,rfl⟩ := ran
    obtain ⟨view,pin,dirty⟩ := abs_mapped used mapped
    let page := { s.pages i with pinCount := (s.pages i).pinCount + 1 }
    refine ⟨⟨⟨ok.framed.pinnedAgain mapped,ok.homed.put page rfl _ s.disk⟩,ok.inUse,ok.single⟩,
      modified_kept page rfl (s.replacer.pin i) s.disk,mapped,[],?_⟩
    refine (modified_abs ok.framed mapped page (s.replacer.pin i) s.disk).trans ?_
    simp only [page,← view,← pin,← dirty]
    simp [evictAll,fetch,absOn,cacheOf]
  | none =>
  rw [mapped] at ran
  cases found : s.victimFrame with
  | none => simp [found] at ran
  | some g =>
  obtain ⟨taken,chosen,keeps⟩ := ok.taken found
  have absent : s.taken.pageTable id = none := by rw [taken_table,mapped]
  cases wrote : s.taken.writeBack g with
  | mk result disk =>
  cases result with
  | error e => simp [found,wrote] at ran
  | ok _ =>
  by_cases readable : disk.readable id.fd id.pageNo pageSize
  case neg => simp [found,wrote,readable] at ran
  simp only [found,wrote,readable,↓reduceIte,filled_pinned,Prod.mk.injEq,Except.ok.injEq,Option.some.injEq] at ran
  obtain ⟨rfl,rfl⟩ := ran
  have valid := readable_numbered readable
  have table := handed_pageTable (f := g) disk absent valid
  refine ⟨installed_ok taken chosen absent valid here wrote _,keeps _ ?_,by simp [installed,table],[(s.taken.pages g).id],?_⟩
  · exact handed_kept taken chosen absent disk rfl fun i differ => Function.update_of_ne differ ..
  · rw [installed_fetch taken chosen absent valid here wrote,taken_abs]
    rfl

theorem fetchPage_none (ran : fetchPage id s = (.ok none,next)) : next = s := by
  rw [fetchPage_eq] at ran
  cases mapped : s.pageTable id with
  | some i => simp [mapped] at ran
  | none =>
  rw [mapped] at ran
  cases found : s.victimFrame with
  | none =>
    rw [found] at ran
    exact (Prod.mk.inj ran).2.symm.trans (taken_none found)
  | some g =>
    simp only [found] at ran
    repeat' split at ran
    all_goals simp at ran

theorem newPage_some {fd : Int} (ok : s.Ok used) (here : used fd = true) (ran : newPage fd s = (.ok (some (f,id)),next))
    (fresh : s.pageTable ⟨fd,s.disk.fd2pageno fd⟩ = none) :
    id = ⟨fd,s.disk.fd2pageno fd⟩ ∧ next.Ok used ∧ Kept s next ∧ next.pageTable id = some f ∧
    ∃ evicted : List PageId, next.absOn used = ((s.absOn used).evictAll evicted).create id PageData.zero := by
  rw [newPage_eq] at ran
  cases found : s.victimFrame with
  | none => simp [found] at ran
  | some g =>
  obtain ⟨taken,chosen,keeps⟩ := ok.taken found
  by_cases known : 0 ≤ fd ∧ fd < maxFd
  case neg => simp [found,known] at ran
  cases wrote : (s.taken.allocated fd).writeBack g with
  | mk result disk =>
  cases result with
  | error e => simp [found,known,wrote] at ran
  | ok _ =>
  simp only [found,known,and_self,↓reduceIte,wrote,handed_pinned,taken_disk,Prod.mk.injEq,Except.ok.injEq,Option.some.injEq] at ran
  obtain ⟨⟨rfl,rfl⟩,rfl⟩ := ran
  have valid : ((s.disk.fd2pageno fd : Nat) : Int) ≠ invalidPageId := by
    unfold invalidPageId; omega
  have tables : (s.taken.allocated fd).pageTable = s.pageTable := taken_table s
  rw [← tables] at fresh
  have choice : (s.taken.allocated fd).Chosen g := ⟨chosen.bound,chosen.idle,chosen.gone⟩
  have allocated := taken.allocated fd
  have table := handed_pageTable (f := g) disk fresh valid
  refine ⟨rfl,installed_ok allocated choice fresh valid here wrote _,keeps _ ?_,by simp [installed,table],
    [(s.taken.pages g).id],?_⟩
  · exact handed_kept (s := s.taken.allocated fd) allocated choice fresh disk rfl fun i differ => Function.update_of_ne differ ..
  · have cache : (s.taken.allocated fd).absOn used = s.absOn used := taken_abs s
    rw [installed_abs allocated choice fresh valid wrote,cache]
    rfl

theorem newPage_none {fd : Int} (ran : newPage fd s = (.ok none,next)) : next = s := by
  rw [newPage_eq] at ran
  cases found : s.victimFrame with
  | none =>
    rw [found] at ran
    exact (Prod.mk.inj ran).2.symm.trans (taken_none found)
  | some g =>
    simp only [found] at ran
    repeat' split at ran
    all_goals simp at ran

theorem unpinPage_held {mark result : Bool} (ok : s.Ok used) (mapped : s.pageTable id = some f)
    (held : 0 < (s.pages f).pinCount) (ran : unpinPage id mark s = (.ok result,next)) :
    next.Ok used ∧ Kept s next ∧ next.absOn used = (s.absOn used).release id mark := by
  have pinned : (s.pages f).pinCount ≠ 0 := by omega
  rw [unpinPage_eq] at ran
  simp only [mapped,if_neg pinned,Prod.mk.injEq] at ran
  obtain ⟨_,rfl⟩ := ran
  obtain ⟨view,pin,dirty⟩ := abs_mapped used mapped
  refine ⟨⟨⟨released_framed ok.framed mapped pinned mark,ok.homed.put (released (s.pages f) mark) rfl _ s.disk⟩,ok.inUse,ok.single⟩,
    modified_kept (released (s.pages f) mark) rfl _ s.disk,?_⟩
  refine (modified_abs ok.framed mapped (released (s.pages f) mark) _ s.disk).trans ?_
  simp only [released,← view,← pin,← dirty]
  simp [release,absOn,cacheOf]

theorem flushFrame_ok (ok : s.Ok used) (mapped : s.pageTable id = some f) (ran : flushFrame f s = (.ok (),next)) :
    next.Ok used ∧ Kept s next ∧ next.absOn used = (s.absOn used).flush id ∧ next.poolSize = s.poolSize := by
  obtain ⟨bound,named,numbered⟩ := ok.framed.table id f mapped
  unfold flushFrame at ran
  rw [bind_ok (state_run s)] at ran
  obtain ⟨_,written,write,rest⟩ := bind_ok_split ran
  unfold onDisk at write
  cases wrote : writePage (s.pages f).id.fd (s.pages f).id.pageNo (s.pages f).data s.disk with
  | mk result disk =>
    simp only [wrote,Prod.mk.injEq] at write
    obtain ⟨rfl,rfl⟩ := write
    obtain ⟨content,fds,_⟩ := writePage_ok wrote ok.single (named ▸ ok.inUse id f mapped)
    simp only [update_run,Prod.mk.injEq,true_and] at rest
    let page := { s.pages f with isDirty := false }
    obtain rfl : next = s.modified f page s.replacer disk := rest.symm
    obtain ⟨view,pin,dirty⟩ := abs_mapped used mapped
    refine ⟨⟨⟨ok.framed.putIdle disk rfl rfl fun _ => rfl,ok.homed.put page rfl _ disk⟩,ok.inUse,ok.single.of_fds fds⟩,
      modified_kept page rfl _ _,?_,rfl⟩
    rw [named,← view] at content
    rw [modified_abs ok.framed mapped,← view,← pin]
    apply PageCache.ext
    · funext q
      by_cases same : q = id
      · simp [same,PageCache.flush]
      · simp [same,PageCache.flush,absOn,cacheOf,content]
    · exact content
    · simp [PageCache.flush]
    · rfl

theorem flushPage_ok {result : Bool} (ok : s.Ok used) (ran : flushPage id s = (.ok result,next)) :
    next.Ok used ∧ Kept s next ∧ ∃ flushed : List PageId, next.absOn used = (s.absOn used).flushAll flushed := by
  unfold flushPage at ran
  rw [bind_ok (state_run s)] at ran
  have nothing : (Except.ok false,s) = ((Except.ok result : Except RMDBError Bool),next) →
      next.Ok used ∧ Kept s next ∧ ∃ flushed : List PageId, next.absOn used = (s.absOn used).flushAll flushed := by
    intro same
    obtain ⟨_,rfl⟩ := Prod.mk.inj same
    exact ⟨ok,fun _ _ mapped _ => ⟨mapped,rfl⟩,[],rfl⟩
  split at ran
  · rename_i numbered
    cases found : (List.range s.poolSize).find? (fun i => (s.pages i).id = id) with
    | none => exact nothing (by simpa [found] using ran)
    | some i =>
      have named : (s.pages i).id = id := by simpa using List.find?_some found
      have bound : i < s.poolSize := List.mem_range.mp (List.mem_of_find?_eq_some found)
      have mapped : s.pageTable id = some i := by
        rw [← named] at numbered ⊢
        exact ok.homed i bound numbered
      simp only [found] at ran
      obtain ⟨_,flushed,flush,rest⟩ := bind_ok_split ran
      simp only [pure_run,Prod.mk.injEq] at rest
      obtain ⟨_,rfl⟩ := rest
      obtain ⟨fine,kept,cache,_⟩ := flushFrame_ok ok mapped flush
      exact ⟨fine,kept,[id],cache⟩
  · exact nothing (by simpa using ran)

theorem Kept.trans {a b c : BufferPool} (first : Kept a b) (second : Kept b c)
    (pins : (b.absOn used).pin = (a.absOn used).pin) : Kept a c := by
  intro id f mapped pinned
  obtain ⟨still,same⟩ := first id f mapped pinned
  have count := congrFun pins id
  rw [(abs_mapped used mapped).2.1,(abs_mapped used still).2.1] at count
  obtain ⟨later,again⟩ := second id f still (by omega)
  exact ⟨later,again.trans same⟩

/-- The loop of `flush_all_pages`, by induction on the frames still to visit. -/
theorem flushFrames_ok (fd : Int) (frames : List FrameId) {s next : BufferPool} (ok : s.Ok used)
    (inside : ∀ f ∈ frames, f < s.poolSize) (ran : flushFrames fd frames s = (.ok (),next)) :
    next.Ok used ∧ Kept s next ∧ ∃ flushed : List PageId, next.absOn used = (s.absOn used).flushAll flushed := by
  induction frames generalizing s with
  | nil =>
    simp only [flushFrames,pure_run,Prod.mk.injEq,true_and] at ran
    subst ran
    exact ⟨ok,fun _ _ mapped _ => ⟨mapped,rfl⟩,[],rfl⟩
  | cons f rest ih =>
    unfold flushFrames at ran
    rw [bind_ok (state_run s)] at ran
    split at ran
    · rename_i chosen
      obtain ⟨_,flushed,flush,rest⟩ := bind_ok_split ran
      have mapped := ok.homed f (inside f (by simp)) chosen.2
      obtain ⟨fine,kept,cache,size⟩ := flushFrame_ok ok mapped flush
      obtain ⟨last,keptRest,ids,whole⟩ := ih fine
        (fun g member => by rw [size]; exact inside g (by simp [member])) rest
      refine ⟨last,kept.trans keptRest (by rw [cache]; rfl),(s.pages f).id :: ids,?_⟩
      rw [whole,cache]
      rfl
    · exact ih ok (fun g member => inside g (by simp [member])) (by simpa using ran)

theorem flushAllPages_ok {fd : Int} (ok : s.Ok used) (ran : flushAllPages fd s = (.ok (),next)) :
    next.Ok used ∧ Kept s next ∧ ∃ flushed : List PageId, next.absOn used = (s.absOn used).flushAll flushed := by
  unfold flushAllPages at ran
  rw [bind_ok (state_run s)] at ran
  exact flushFrames_ok fd _ ok (fun f member => List.mem_range.mp member) ran

/-- A page that is not pinned is evicted and its frame set free; any other stays. -/
theorem deletePage_ok {result : Bool} (ok : s.Ok used) (ran : deletePage id s = (.ok result,next)) :
    next.Ok used ∧ Kept s next ∧ ∃ evicted : List PageId, next.absOn used = (s.absOn used).evictAll evicted := by
  have same : s.Ok used ∧ Kept s s ∧ ∃ evicted : List PageId, s.absOn used = (s.absOn used).evictAll evicted :=
    ⟨ok,fun _ _ here _ => ⟨here,rfl⟩,[],rfl⟩
  rw [deletePage_eq] at ran
  cases mapped : s.pageTable id with
  | none =>
    rw [mapped] at ran
    exact (Prod.mk.inj ran).2 ▸ same
  | some f =>
  simp only [mapped] at ran
  split at ran
  · exact (Prod.mk.inj ran).2 ▸ same
  rename_i idle
  have chosen := ok.framed.chosen mapped idle
  have absent : s.pageTable ⟨id.fd,invalidPageId⟩ = none := ok.framed.unnumbered_absent rfl
  cases wrote : s.writeBack f with
  | mk back disk =>
  cases back with
  | error e => simp [wrote] at ran
  | ok _ =>
  simp only [wrote,Prod.mk.injEq] at ran
  obtain ⟨_,rfl⟩ := ran
  refine ⟨⟨⟨ok.framed.freed chosen id.fd disk,ok.homed.handed chosen.bound absent disk⟩,show ∀ q g,
    (s.handed f ⟨id.fd,invalidPageId⟩ disk).pageTable q = some g → _ from
      ok.handed_inUse (fun numbered => absurd rfl numbered) disk,?_⟩,?_,[(s.pages f).id],?_⟩
  · exact ok.single.of_fds (writeBack_leave ok chosen.bound wrote).2
  · exact handed_kept ok chosen absent disk rfl fun i differ => Function.update_of_ne differ ..
  · refine Eq.trans ?_ (evict_frame ok chosen wrote)
    refine congrArg (cacheOf · (disk.contentOn used)) ?_
    funext q
    by_cases old : q = (s.pages f).id
    · simp [entry,handed,old]
    · simp only [entry,handed,ne_eq,not_true_eq_false,↓reduceIte,Function.update_of_ne old]
      exact map_update ok.framed old _

end Rucbase.BufferPool
