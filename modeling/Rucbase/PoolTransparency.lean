import Rucbase.PoolRefinement
import Mathlib.Data.List.Basic

/-! Clients of the buffer pool. Each holds pins, writes pages through the pointers it got and
says at the release whether it wrote. Whatever the pool evicts in between, a fetch sees the
bytes last written, and a pinned frame is left alone. -/
namespace Rucbase.BufferPool

open Lib Lib.Prog DiskManager PageCache

/-- A pin some client holds: the page, the pointer it was given, and whether the client
wrote or created the page since. -/
structure Pin where
  id : PageId
  frame : FrameId
  owes : Bool

/-- The pool with its clients' pins, and the bytes last written to each page. -/
structure Clients where
  pool : BufferPool
  pins : List Pin
  last : PageId → PageData

inductive Action where
  | newPage (fd : Int)
  | fetchPage (id : PageId)
  | unpinPage (pin : Nat) (isDirty : Bool)
  | flushPage (id : PageId)
  | flushAllPages (fd : Int)
  | deletePage (id : PageId)
  | write (pin : Nat) (data : PageData)

def Clients.step (w : Clients) : Action → Clients
  | .newPage fd =>
    match newPage fd w.pool with
    | (.ok (some (frame,id)),pool) =>
      ⟨pool,⟨id,frame,true⟩ :: w.pins,Function.update w.last id PageData.zero⟩
    | (_,pool) => { w with pool := pool }
  | .fetchPage id =>
    match fetchPage id w.pool with
    | (.ok (some frame),pool) => { w with pool := pool, pins := ⟨id,frame,false⟩ :: w.pins }
    | (_,pool) => { w with pool := pool }
  | .unpinPage k isDirty =>
    match w.pins[k]? with
    | some pin => { w with pool := (unpinPage pin.id isDirty).after w.pool, pins := w.pins.eraseIdx k }
    | none => w
  | .flushPage id => { w with pool := (flushPage id).after w.pool }
  | .flushAllPages fd => { w with pool := (flushAllPages fd).after w.pool }
  | .deletePage id => { w with pool := (deletePage id).after w.pool }
  | .write k data =>
    match w.pins[k]? with
    | some pin =>
      ⟨w.pool.setPage pin.frame { w.pool.pages pin.frame with data := data },
        w.pins.set k { pin with owes := true },Function.update w.last pin.id data⟩
    | none => w

/-- Pages are those of descriptors in use, no call fails on the disk, a new page's number is not that
of a resident page, and a client that wrote or created a page says so when it releases its pin. -/
def Admissible (used : Int → Bool) (w : Clients) : Action → Prop
  | .newPage fd => used fd = true ∧ (newPage fd w.pool).1.isOk = true ∧
      w.pool.pageTable ⟨fd,w.pool.disk.fd2pageno fd⟩ = none
  | .fetchPage id => used id.fd = true ∧ (fetchPage id w.pool).1.isOk = true
  | .unpinPage k isDirty => ∀ pin, w.pins[k]? = some pin → pin.owes = true → isDirty = true
  | .flushPage id => (flushPage id w.pool).1.isOk = true
  | .flushAllPages fd => (flushAllPages fd w.pool).1.isOk = true
  | .deletePage id => (deletePage id w.pool).1.isOk = true
  | .write _ _ => True

/-- The action is a client's write to page `id`. -/
def Action.writes (w : Clients) (id : PageId) (a : Action) : Prop :=
  ∃ k data pin, a = .write k data ∧ w.pins[k]? = some pin ∧ pin.id = id

def Clients.start (poolSize : Nat) (fds : FrameId → Int) (disk : DiskManager) : Clients :=
  ⟨BufferPool.start poolSize fds disk,[],disk.content⟩

structure Transparent (used : Int → Bool) (w : Clients) : Prop where
  fetched : ∀ id frame next, used id.fd = true → fetchPage id w.pool = (.ok (some frame),next) →
    (next.pages frame).data = w.last id
  held : ∀ pin ∈ w.pins, (w.pool.pages pin.frame).id = pin.id ∧
    w.pool.pageTable pin.id = some pin.frame
  stable : ∀ a, Admissible used w a → ∀ pin ∈ w.pins,
    ((w.step a).pool.pages pin.frame).id = pin.id ∧
    (w.step a).pool.pageTable pin.id = some pin.frame ∧
    (¬ a.writes w pin.id →
      ((w.step a).pool.pages pin.frame).data = (w.pool.pages pin.frame).data)

def tokens (pins : List Pin) : List (Token PageId) := pins.map fun pin => ⟨pin.id,pin.owes⟩

structure Inv (used : Int → Bool) (w : Clients) : Prop where
  ok : w.pool.Ok used
  disciplined : Disciplined (w.pool.absOn used) (tokens w.pins)
  current : ∀ id, used id.fd = true → (w.pool.absOn used).view id = w.last id
  mapped : ∀ pin ∈ w.pins, w.pool.pageTable pin.id = some pin.frame

variable {used : Int → Bool}

theorem start_inv (poolSize : Nat) (fds : FrameId → Int) (disk : DiskManager) (single : disk.OneFilePerFd used) :
    Inv used (Clients.start poolSize fds disk) := by
  refine ⟨start_ok poolSize fds disk single,⟨fun p => rfl,fun p => .inl (.inr rfl)⟩,fun id here => if_pos here,?_⟩
  simp [Clients.start]

variable {next : BufferPool} {w : Clients} {pin : Pin}

theorem Inv.pinned (inv : Inv used w) (member : pin ∈ w.pins) : 0 < (w.pool.pages pin.frame).pinCount := by
  have count := inv.disciplined.counted pin.id
  rw [(abs_mapped used (inv.mapped pin member)).2.1] at count
  rw [count,List.countP_pos_iff]
  exact ⟨⟨pin.id,pin.owes⟩,List.mem_map_of_mem member,by simp⟩

theorem Inv.kept (inv : Inv used w) (kept : Kept w.pool next) (member : pin ∈ w.pins) :
    next.pageTable pin.id = some pin.frame ∧
      (next.pages pin.frame).data = (w.pool.pages pin.frame).data :=
  kept _ _ (inv.mapped pin member) (inv.pinned member)

theorem getElem?_split {α : Type} {l : List α} {k : Nat} {a : α} (found : l[k]? = some a) :
    ∃ before after, l = before ++ a :: after ∧ l.eraseIdx k = before ++ after ∧
      ∀ b, l.set k b = before ++ b :: after := by
  induction l generalizing k with
  | nil => simp at found
  | cons head rest ih =>
    cases k with
    | zero =>
      obtain rfl : head = a := by simpa using found
      exact ⟨[],rest,rfl,rfl,fun _ => rfl⟩
    | succ k =>
      obtain ⟨before,after,whole,erased,set⟩ := ih (by simpa using found)
      exact ⟨head :: before,after,by simp [whole],by simp [erased],fun b => by simp [set b]⟩

section Step

variable {w : Clients}

/-- Calls that change no page and hold no new pin: evictions and write-backs. -/
theorem Inv.quiet (inv : Inv used w) (ok : next.Ok used) (kept : Kept w.pool next)
    (cache : Disciplined (next.absOn used) (tokens w.pins) ∧ (next.absOn used).view = (w.pool.absOn used).view) :
    Inv used { w with pool := next } :=
  ⟨ok,cache.1,fun id here => (congrFun cache.2 id).trans (inv.current id here),fun _ member => (inv.kept kept member).1⟩

theorem Inv.fetchPage (inv : Inv used w) {id : PageId} {frame : FrameId} (here : used id.fd = true)
    (ran : fetchPage id w.pool = (.ok (some frame),next)) :
    Inv used { w with pool := next, pins := ⟨id,frame,false⟩ :: w.pins } ∧ Kept w.pool next := by
  obtain ⟨ok,kept,mapped,evicted,cache⟩ := fetchPage_some inv.ok here ran
  obtain ⟨disciplined,view⟩ := inv.disciplined.evictAll evicted
  refine ⟨⟨ok,?_,?_,?_⟩,kept⟩
  · rw [cache]
    exact disciplined.fetch id
  · rw [cache]
    exact fun q uses => (congrFun view q).trans (inv.current q uses)
  · intro pin member
    rcases List.mem_cons.mp member with rfl | old
    · exact mapped
    · exact (inv.kept kept old).1

theorem Inv.newPage (inv : Inv used w) {fd : Int} {id : PageId} {frame : FrameId} (here : used fd = true)
    (ran : newPage fd w.pool = (.ok (some (frame,id)),next))
    (fresh : w.pool.pageTable ⟨fd,w.pool.disk.fd2pageno fd⟩ = none) :
    Inv used ⟨next,⟨id,frame,true⟩ :: w.pins,Function.update w.last id PageData.zero⟩ ∧
    Kept w.pool next := by
  obtain ⟨rfl,ok,kept,mapped,evicted,cache⟩ := newPage_some inv.ok here ran fresh
  obtain ⟨disciplined,view⟩ := inv.disciplined.evictAll evicted
  have free : ((w.pool.absOn used).evictAll evicted).pin ⟨fd,w.pool.disk.fd2pageno fd⟩ = 0 := by
    rw [disciplined.counted,← inv.disciplined.counted]
    simp [absOn,cacheOf,entry,fresh]
  refine ⟨⟨ok,?_,?_,?_⟩,kept⟩
  · rw [cache]
    exact disciplined.create _ _ free
  · intro q uses
    rw [cache]
    by_cases same : q = ⟨fd,w.pool.disk.fd2pageno fd⟩ <;> simp [PageCache.create,view,inv.current q uses,same]
  · intro pin member
    rcases List.mem_cons.mp member with rfl | old
    · exact mapped
    · exact (inv.kept kept old).1

theorem Inv.unpinPage (inv : Inv used w) {before after : List Pin} {isDirty : Bool}
    (split : w.pins = before ++ pin :: after) (honest : pin.owes = true → isDirty = true) :
    Inv used { w with pool := (unpinPage pin.id isDirty).after w.pool, pins := before ++ after } ∧
    Kept w.pool ((BufferPool.unpinPage pin.id isDirty).after w.pool) := by
  have member : pin ∈ w.pins := by simp [split]
  have mapped := inv.mapped pin member
  cases ran : BufferPool.unpinPage pin.id isDirty w.pool with
  | mk result next =>
    cases result with
    | error e =>
      have busy : (w.pool.pages pin.frame).pinCount ≠ 0 := by have := inv.pinned member; omega
      simp [BufferPool.unpinPage,bind_run,mapped,busy] at ran
    | ok returned =>
      obtain ⟨ok,kept,cache⟩ := unpinPage_held inv.ok mapped (inv.pinned member) ran
      simp only [Prog.after,ran]
      have disciplined := inv.disciplined
      simp only [split,tokens,List.map_append,List.map_cons] at disciplined
      refine ⟨⟨ok,?_,?_,?_⟩,kept⟩
      · rw [cache]
        simpa [tokens] using disciplined.release honest
      · rw [cache]
        exact inv.current
      · intro other inside
        refine (inv.kept kept ?_).1
        rw [split]
        rcases List.mem_append.mp inside with left | right <;> simp [*]

theorem Inv.write (inv : Inv used w) {before after : List Pin} (data : PageData) (split : w.pins = before ++ pin :: after) :
    Inv used ⟨w.pool.setPage pin.frame { w.pool.pages pin.frame with data := data },
      before ++ { pin with owes := true } :: after,Function.update w.last pin.id data⟩ := by
  have member : pin ∈ w.pins := by simp [split]
  have mapped := inv.mapped pin member
  have pinned := inv.pinned member
  obtain ⟨_,pin',dirty⟩ := abs_mapped used mapped
  have disciplined := inv.disciplined
  simp only [split,tokens,List.map_append,List.map_cons] at disciplined
  have cache : (w.pool.setPage pin.frame { w.pool.pages pin.frame with data := data }).absOn used =
      (w.pool.absOn used).write pin.id data := by
    refine (modified_abs inv.ok.framed mapped _ _ _).trans ?_
    simp only [← pin',← dirty,Function.update_eq_self]
    rfl
  have unused := inv.ok.framed.unused pin.frame
  refine ⟨⟨⟨inv.ok.framed.putIdle _ rfl rfl fun unnumbered => (unused unnumbered).1,
    inv.ok.homed.put { w.pool.pages pin.frame with data := data } rfl _ _⟩,inv.ok.inUse,inv.ok.single⟩,?_,fun q uses => ?_,?_⟩
  · rw [cache]
    simpa [tokens] using disciplined.write data
  · rw [cache]
    by_cases same : q = pin.id <;> simp [PageCache.write,inv.current q uses,same]
  · intro other inside
    rcases List.mem_append.mp inside with left | here
    · exact inv.mapped other (by simp [split,left])
    · rcases List.mem_cons.mp here with rfl | right
      · exact mapped
      · exact inv.mapped other (by simp [split,right])

end Step

/-- One admissible action keeps the invariant and, unless it is a client's write, the
pinned frames. -/
theorem step_inv (w : Clients) (a : Action) (inv : Inv used w) (admissible : Admissible used w a) :
    Inv used (w.step a) ∧ ((∃ k data, a = .write k data) ∨ Kept w.pool (w.step a).pool) := by
  have same : Kept w.pool w.pool := fun _ _ mapped _ => ⟨mapped,rfl⟩
  cases a with
  | newPage fd =>
    obtain ⟨result,next,ran⟩ := run_isOk admissible.2.1
    cases result with
    | none =>
      obtain rfl := newPage_none ran
      simpa only [Clients.step,ran] using ⟨inv,.inr same⟩
    | some made =>
      obtain ⟨kept,frames⟩ := inv.newPage admissible.1 ran admissible.2.2
      simpa only [Clients.step,ran] using ⟨kept,.inr frames⟩
  | fetchPage id =>
    obtain ⟨result,next,ran⟩ := run_isOk admissible.2
    cases result with
    | none =>
      obtain rfl := fetchPage_none ran
      simpa only [Clients.step,ran] using ⟨inv,.inr same⟩
    | some frame =>
      obtain ⟨kept,frames⟩ := inv.fetchPage admissible.1 ran
      simpa only [Clients.step,ran] using ⟨kept,.inr frames⟩
  | unpinPage k isDirty =>
    cases found : w.pins[k]? with
    | none => simpa only [Clients.step,found] using ⟨inv,.inr same⟩
    | some pin =>
      obtain ⟨before,after,split,erased,_⟩ := getElem?_split found
      obtain ⟨kept,frames⟩ := inv.unpinPage split (admissible pin found)
      simpa only [Clients.step,found,erased] using ⟨kept,.inr frames⟩
  | flushPage id =>
    obtain ⟨result,next,ran⟩ := run_isOk admissible
    obtain ⟨ok,kept,flushed,cache⟩ := flushPage_ok inv.ok ran
    simp only [Clients.step,after,ran]
    exact ⟨inv.quiet ok kept (by rw [cache]; exact inv.disciplined.flushAll flushed),.inr kept⟩
  | flushAllPages fd =>
    obtain ⟨result,next,ran⟩ := run_isOk admissible
    obtain ⟨ok,kept,flushed,cache⟩ := flushAllPages_ok inv.ok ran
    simp only [Clients.step,after,ran]
    exact ⟨inv.quiet ok kept (by rw [cache]; exact inv.disciplined.flushAll flushed),.inr kept⟩
  | deletePage id =>
    obtain ⟨result,next,ran⟩ := run_isOk admissible
    obtain ⟨ok,kept,evicted,cache⟩ := deletePage_ok inv.ok ran
    simp only [Clients.step,after,ran]
    exact ⟨inv.quiet ok kept (by rw [cache]; exact inv.disciplined.evictAll evicted),.inr kept⟩
  | write k data =>
    refine ⟨?_,.inl ⟨k,data,rfl⟩⟩
    cases found : w.pins[k]? with
    | none => simpa only [Clients.step,found] using inv
    | some pin =>
      obtain ⟨before,after,split,_,set⟩ := getElem?_split found
      simpa only [Clients.step,found,set] using inv.write data split

theorem write_stable (inv : Inv used w) (k : Nat) (data : PageData) (member : pin ∈ w.pins) :
    (w.step (.write k data)).pool.pageTable pin.id = some pin.frame ∧
      (¬ (Action.write k data).writes w pin.id →
        ((w.step (.write k data)).pool.pages pin.frame).data = (w.pool.pages pin.frame).data) := by
  have mapped := inv.mapped pin member
  cases found : w.pins[k]? with
  | none => simpa only [Clients.step,found] using ⟨mapped,fun _ => trivial⟩
  | some writer =>
    simp only [Clients.step,found]
    refine ⟨mapped,fun other => ?_⟩
    have apart : pin.frame ≠ writer.frame := by
      intro same
      have left := inv.ok.framed.table _ _ mapped
      have right := inv.ok.framed.table _ _ (inv.mapped writer (List.mem_of_getElem? found))
      exact other ⟨k,data,writer,rfl,found,by rw [← right.2.1,← same,left.2.1]⟩
    simp [setPage,apart]

theorem inv_transparent (inv : Inv used w) : Transparent used w := by
  refine ⟨?_,?_,?_⟩
  · intro id frame next here ran
    obtain ⟨_,_,mapped,_⟩ := fetchPage_some inv.ok here ran
    obtain ⟨kept,_⟩ := inv.fetchPage here ran
    have view := kept.current id here
    rwa [(abs_mapped used mapped).1] at view
  · intro pin member
    have mapped := inv.mapped pin member
    exact ⟨(inv.ok.framed.table _ _ mapped).2.1,mapped⟩
  · intro a admissible pin member
    obtain ⟨kept,frames⟩ := step_inv w a inv admissible
    have both : (w.step a).pool.pageTable pin.id = some pin.frame ∧ (¬ a.writes w pin.id →
        ((w.step a).pool.pages pin.frame).data = (w.pool.pages pin.frame).data) := by
      rcases frames with ⟨k,data,rfl⟩ | frames
      · exact write_stable inv k data member
      · obtain ⟨mapped,same⟩ := inv.kept frames member
        exact ⟨mapped,fun _ => same⟩
    exact ⟨(kept.ok.framed.table _ _ both.1).2.1,both⟩

/-- For every pool size and every interleaving of disciplined clients, if the descriptors they use name
different files: a fetched page has the bytes last written to it and no operation disturbs a pinned
frame. -/
theorem pool_transparent (used : Int → Bool) (poolSize : Nat) (fds : FrameId → Int) (disk : DiskManager)
    (single : disk.OneFilePerFd used) (actions : List Action)
    (admissible : Guarded Clients.step (Admissible used) (Clients.start poolSize fds disk) actions) :
    Transparent used (actions.foldl Clients.step (Clients.start poolSize fds disk)) := by
  apply inv_transparent
  exact guarded_invariant (Inv used) (fun w a inv fine => (step_inv w a inv fine).1) _
    (start_inv poolSize fds disk single) actions admissible

/-- One empty file open on descriptor 3. -/
def oneFile : DiskManager where
  os := ⟨fun _ => File.empty,1,fun _ => none,[none,none,none,some ⟨0,true⟩]⟩
  path2fd _ := none
  fd2path _ := none
  fd2pageno _ := 0

/-- A process with its standard descriptors and no file of its own. -/
def started : DiskManager where
  os := ⟨fun _ => File.empty,1,fun _ => none,[some ⟨0,true⟩,some ⟨0,true⟩,some ⟨0,true⟩]⟩
  path2fd _ := none
  fd2path _ := none
  fd2pageno _ := 0

/-- A file as `create_file` and `open_file` leave it: descriptor 3 is never closed, and 4 names the same
file. -/
def opened : DiskManager := (openFile "t").after ((createFile "t").after started)

/-- Two frames: the third page evicts the first, which is then read back beside a page that stays pinned. -/
def readBack : List Action :=
  [.newPage 4,.write 0 (fun _ => 7),.unpinPage 0 true,.newPage 4,.write 0 (fun _ => 8),.newPage 4,.unpinPage 0 true,
    .fetchPage ⟨4,0⟩,.flushPage ⟨4,1⟩]

theorem readBack_transparent : opened.os.file 3 = some ⟨1,false⟩ ∧ opened.os.file 4 = some ⟨1,true⟩ ∧
    Guarded Clients.step (Admissible (· = 4)) (Clients.start 2 (fun _ => 0) opened) readBack ∧
    Transparent (· = 4) (readBack.foldl Clients.step (Clients.start 2 (fun _ => 0) opened)) := by
  have single : opened.OneFilePerFd (· = 4) := fun a b _ _ here there _ _ _ =>
    (of_decide_eq_true here).trans (of_decide_eq_true there).symm
  have admissible : Guarded Clients.step (Admissible (· = 4)) (Clients.start 2 (fun _ => 0) opened) readBack := by
    refine ⟨⟨rfl,by decide,by decide⟩,trivial,fun _ _ _ => rfl,⟨rfl,by decide,by decide⟩,trivial,⟨rfl,by decide,by decide⟩,
      fun _ _ _ => rfl,⟨rfl,by decide⟩,?_,trivial⟩
    change (flushPage _ _).1.isOk = true
    decide
  exact ⟨by decide,by decide,admissible,pool_transparent (· = 4) 2 _ _ single readBack admissible⟩

end Rucbase.BufferPool
