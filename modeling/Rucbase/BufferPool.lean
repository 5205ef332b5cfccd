import Rucbase.DiskManager
import Rucbase.LruReplacer
import Rucbase.Lib.PageCache

/-! The buffer pool. Every public function runs under the pool's latch, so concurrent
clients are sequences of calls. A `Page*` is the number of its frame. -/
namespace Rucbase

open Lib Lib.Prog DiskManager

structure Page where
  id : PageId
  data : PageData
  isDirty : Bool
  pinCount : Nat

structure BufferPool where
  poolSize : Nat
  pages : FrameId → Page
  pageTable : PageId → Option FrameId
  freeList : List FrameId
  replacer : LruReplacer FrameId
  disk : DiskManager

namespace BufferPool

abbrev PoolCall := Prog BufferPool RMDBError

/-- All frames are free. A new `Page` has no page number, and its descriptor field is not
initialised: `fds` holds what the memory happened to contain. -/
def start (poolSize : Nat) (fds : FrameId → Int) (disk : DiskManager) : BufferPool where
  poolSize := poolSize
  pages f := ⟨⟨fds f,invalidPageId⟩,PageData.zero,false,0⟩
  pageTable _ := none
  freeList := List.range poolSize
  replacer := LruReplacer.start poolSize
  disk := disk

def setPage (s : BufferPool) (frame : FrameId) (page : Page) : BufferPool :=
  { s with pages := Function.update s.pages frame page }

def onDisk {α : Type} (call : DiskCall α) : PoolCall α := fun s =>
  ((call s.disk).1,{ s with disk := (call s.disk).2 })

def findVictimPage : PoolCall (Option FrameId) := do
  let s ← state
  match s.freeList with
  | [] =>
    update fun s => { s with replacer := s.replacer.victim.2 }
    pure s.replacer.victim.1
  | frame :: rest =>
    update fun s => { s with freeList := rest }
    pure (some frame)

/-- The dirty flag is cleared before the write that may throw. -/
def updatePage (page : FrameId) (newPageId : PageId) (newFrameId : FrameId) : PoolCall Unit := do
  let s ← state
  let old := s.pages page
  if old.isDirty then
    update fun s => s.setPage page { old with isDirty := false }
    onDisk (writePage old.id.fd old.id.pageNo old.data)
  update fun s =>
    let erased := Function.update s.pageTable old.id none
    let table := if newPageId.pageNo ≠ invalidPageId then emplace erased newPageId newFrameId else erased
    let reset := { s.pages page with data := PageData.zero, id := newPageId }
    { s.setPage page reset with pageTable := table }

/-- `read_page` into a frame: what the file has arrives even when that is too little. -/
def readInto (frame : FrameId) (pageId : PageId) : PoolCall Unit := do
  let s ← state
  update fun s => s.setPage frame { s.pages frame with data := s.disk.content pageId }
  check (s.disk.readable pageId.fd pageId.pageNo pageSize) (.internal "DiskManager::read_page Error")

/-- The last lines of `fetch_page` and `new_page`: the first pin of a frame. -/
def pinFirst (frame : FrameId) : PoolCall Unit :=
  update fun s =>
    { s.setPage frame { s.pages frame with pinCount := 1 } with replacer := s.replacer.pin frame }

def fetchPage (pageId : PageId) : PoolCall (Option FrameId) := do
  let s ← state
  match s.pageTable pageId with
  | some i =>
    update fun s =>
      let page := s.pages i
      { s.setPage i { page with pinCount := page.pinCount + 1 } with replacer := s.replacer.pin i }
    pure (some i)
  | none =>
    match ← findVictimPage with
    | none => pure none
    | some frame =>
      updatePage frame pageId frame
      readInto frame pageId
      pinFirst frame
      pure (some frame)

def unpinPage (pageId : PageId) (isDirty : Bool) : PoolCall Bool := do
  let s ← state
  match s.pageTable pageId with
  | none => pure false
  | some frame =>
    let page := s.pages frame
    if page.pinCount = 0 then pure false
    else
      update fun s =>
        let left := { page with pinCount := page.pinCount - 1, isDirty := isDirty || page.isDirty }
        { s.setPage frame left with
          replacer := if left.pinCount = 0 then s.replacer.unpin frame else s.replacer }
      pure true

/-- Writing one frame back, pinned or not. -/
def flushFrame (frame : FrameId) : PoolCall Unit := do
  let s ← state
  let page := s.pages frame
  onDisk (writePage page.id.fd page.id.pageNo page.data)
  update fun s => s.setPage frame { page with isDirty := false }

def flushPage (pageId : PageId) : PoolCall Bool := do
  let s ← state
  if pageId.pageNo ≠ invalidPageId then
    match (List.range s.poolSize).find? (fun i => (s.pages i).id = pageId) with
    | some i =>
      flushFrame i
      pure true
    | none => pure false
  else pure false

/-- The new page's frame and number, or nothing if every frame is pinned. -/
def newPage (fd : Int) : PoolCall (Option (FrameId × PageId)) := do
  match ← findVictimPage with
  | none => pure none
  | some frame =>
    let pageNo ← onDisk (allocatePage fd)
    updatePage frame ⟨fd,pageNo⟩ frame
    pinFirst frame
    pure (some (frame,⟨fd,pageNo⟩))

/-- The frame goes to the free list and stays in the replacer. -/
def deletePage (pageId : PageId) : PoolCall Bool := do
  let s ← state
  match s.pageTable pageId with
  | none => pure true
  | some frame =>
    if 0 < (s.pages frame).pinCount then pure false
    else
      updatePage frame ⟨pageId.fd,invalidPageId⟩ frame
      update fun s => { s with freeList := s.freeList ++ [frame] }
      pure true

/-- The loop of `flush_all_pages` over the frames still to visit. -/
def flushFrames (fd : Int) : List FrameId → PoolCall Unit
  | [] => pure ()
  | frame :: rest => do
    let s ← state
    if (s.pages frame).id.fd = fd ∧ (s.pages frame).id.pageNo ≠ invalidPageId then
      flushFrame frame
    flushFrames fd rest

def flushAllPages (fd : Int) : PoolCall Unit := do
  let s ← state
  flushFrames fd (List.range s.poolSize)

end BufferPool

end Rucbase
