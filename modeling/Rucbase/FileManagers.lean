import Rucbase.BufferPool
import Rucbase.IxDefs
import Rucbase.RecordPage

/-! The managers of table and index files, over the disk manager and the buffer pool, and
the files a database has open. Closing a file writes its pages back and leaves them in the
pool under a descriptor the next file may get. -/
namespace Rucbase

open Lib Lib.Prog DiskManager BufferPool

namespace RmFileHdr

/-- The header as `close_file` copies it from memory. -/
def toBytes (hdr : RmFileHdr) : Fin rmFileHdrSize → Byte := fun i =>
  let words : List Int :=
    [hdr.recordSize,hdr.numPages,hdr.numRecordsPerPage,hdr.firstFreePageNo,hdr.bitmapSize]
  (words.flatMap intBytes).getD i 0

def ofBytes (data : Fin rmFileHdrSize → Byte) : RmFileHdr :=
  let word (k : Nat) : Int := bytesInt ((List.range 4).map fun i =>
    if inside : 4 * k + i < rmFileHdrSize then data ⟨4 * k + i,inside⟩ else 0)
  ⟨(word 0).toNat,(word 1).toNat,(word 2).toNat,word 3,(word 4).toNat⟩

end RmFileHdr

inductive FileHdr where
  | table (hdr : RmFileHdr)
  | index (hdr : IxFileHdr)

/-- An `RmFileHandle` or an `IxIndexHandle`. -/
structure Handle where
  fd : Int
  hdr : FileHdr

/-- `memcpy` from a buffer of this length. -/
def buffer (bytes : List Byte) : Fin bytes.length → Byte := bytes.get

namespace BufferPool

def liftError {α : Type} : Except RMDBError α → PoolCall α
  | .ok a => pure a
  | .error e => raise e

/-- The page `create_index` writes for a leaf whose two neighbours are `other`. -/
def initialLeaf (other : Int) : PageData := fun i =>
  let words : List Int := [ixNoPage,ixNoPage,0,1,other,other]
  (words.flatMap intBytes).getD i 0

end BufferPool

namespace RmManager

def createFile (filename : Path) (recordSize : Int) : PoolCall Unit :=
  if recordSize < 1 ∨ recordSize > rmMaxRecordSize then raise (.invalidRecordSize recordSize)
  else do
    onDisk (DiskManager.createFile filename)
    let fd ← onDisk (openFile filename)
    onDisk (writePage fd 0 (initialHdr recordSize.toNat).toBytes)
    onDisk (closeFile fd)

/-- With the constructor of `RmFileHandle`. -/
def openFile (filename : Path) : PoolCall Handle := do
  let fd ← onDisk (DiskManager.openFile filename)
  let bytes ← onDisk (readPage fd 0 rmFileHdrSize)
  let hdr := RmFileHdr.ofBytes bytes
  onDisk (setFd2pageno fd hdr.numPages)
  pure ⟨fd,.table hdr⟩

def closeFile (fd : Int) (hdr : RmFileHdr) : PoolCall Unit := do
  onDisk (writePage fd 0 hdr.toBytes)
  flushAllPages fd
  onDisk (DiskManager.closeFile fd)

end RmManager

namespace IxManager

/-- The file stays open if the key is too long. -/
def createIndex (ixName : Path) (cols : List ColMeta) : PoolCall Unit := do
  onDisk (createFile ixName)
  let fd ← onDisk (openFile ixName)
  let colTotLen := ColMeta.totLen cols
  check (colTotLen ≤ ixMaxColLen) (.invalidColLength colTotLen)
  check (IxFileHdr.orderFor colTotLen > 2) .assertion
  let data ← liftError (IxFileHdr.initial cols).serialize
  onDisk (writePage fd ixFileHdrPage (buffer data))
  onDisk (writePage fd ixLeafHeaderPage (initialLeaf ixInitRootPage))
  onDisk (writePage fd ixInitRootPage (initialLeaf ixLeafHeaderPage))
  onDisk (setFd2pageno fd (ixInitNumPages - 1))
  onDisk (closeFile fd)

/-- With the constructor of `IxIndexHandle`, which reads a pointer's worth of the header
first and takes the page counter from what the descriptor was last used for. -/
def openIndex (ixName : Path) : PoolCall Handle := do
  let fd ← onDisk (openFile ixName)
  let _ ← onDisk (readPage fd ixFileHdrPage 8)
  let buf ← onDisk (readPage fd ixFileHdrPage pageSize)
  let hdr ← liftError (IxFileHdr.deserialize buf)
  let nowPageNo ← onDisk (getFd2pageno fd)
  onDisk (setFd2pageno fd (nowPageNo + 1))
  pure ⟨fd,.index hdr⟩

def closeIndex (fd : Int) (hdr : IxFileHdr) : PoolCall Unit := do
  let data ← liftError hdr.serialize
  onDisk (writePage fd ixFileHdrPage (buffer data))
  flushAllPages fd
  onDisk (closeFile fd)

end IxManager

namespace Handle

def close (h : Handle) : PoolCall Unit :=
  match h.hdr with
  | .table hdr => RmManager.closeFile h.fd hdr
  | .index hdr => IxManager.closeIndex h.fd hdr

/-- `create_new_page_handle` and `create_node` count the page in the header. -/
def counted (h : Handle) (pageNo : Int) : Handle :=
  match h.hdr with
  | .table hdr =>
    ⟨h.fd,.table { hdr with numPages := hdr.numPages + 1, firstFreePageNo := pageNo }⟩
  | .index hdr => ⟨h.fd,.index { hdr with numPages := hdr.numPages + 1 }⟩

end Handle

/-- The pool with the disk under it, the open files `fhs_` and `ihs_` by name, and for each
resident page the file it was loaded from or created in. -/
structure Store where
  pool : BufferPool
  handles : Path → Option Handle
  owner : PageId → Option Nat

namespace Store

inductive FileOp where
  | createTable (path : Path) (recordSize : Int)
  | openTable (path : Path)
  | createIndex (path : Path) (cols : List ColMeta)
  | openIndex (path : Path)
  | close (path : Path)
  | drop (path : Path)
  | fetch (path : Path) (pageNo : Int)
  | new (path : Path)
  | unpin (path : Path) (pageNo : Int) (isDirty : Bool)
  | flush (path : Path) (pageNo : Int)
  | delete (path : Path) (pageNo : Int)
  | write (frame : FrameId) (data : PageData)

def inode (s : Store) (fd : Int) : Option Nat := (s.pool.disk.os.file fd).map OpenFile.inode

def onPool {α : Type} (s : Store) (call : PoolCall α) : Store :=
  { s with pool := call.after s.pool }

/-- A file that is open is not opened again. -/
def opening (s : Store) (path : Path) (call : PoolCall Handle) : Store :=
  match s.handles path with
  | some _ => s
  | none =>
    match call s.pool with
    | (.ok h,pool) => { s with pool := pool, handles := Function.update s.handles path (some h) }
    | (.error _,pool) => { s with pool := pool }

/-- `close_file` or `close_index`; a handle whose closing threw stays. -/
def closing (s : Store) (path : Path) (h : Handle) : Store :=
  match h.close s.pool with
  | (.ok _,pool) => { s with pool := pool, handles := Function.update s.handles path none }
  | (.error _,pool) => { s with pool := pool }

/-- `drop_table` and `drop_index`: close, then unlink. -/
def dropping (s : Store) (path : Path) (h : Handle) : Store :=
  match h.close s.pool with
  | (.ok _,pool) =>
    { s with
      pool := (onDisk (destroyFile path)).after pool
      handles := Function.update s.handles path none }
  | (.error _,pool) => { s with pool := pool }

def fetching (s : Store) (id : PageId) : Store :=
  let pool := (fetchPage id).after s.pool
  { s with
    pool := pool
    owner := if (s.pool.pageTable id).isNone ∧ (pool.pageTable id).isSome then
        Function.update s.owner id (s.inode id.fd)
      else s.owner }

def creating (s : Store) (path : Path) (h : Handle) : Store :=
  match newPage h.fd s.pool with
  | (.ok (some (frame,id)),pool) =>
    { pool := pool
      handles := Function.update s.handles path (some (h.counted id.pageNo))
      owner := if pool.pageTable id = some frame then
          Function.update s.owner id (s.inode id.fd)
        else s.owner }
  | (_,pool) => { s with pool := pool }

/-- Work on an open file; without a handle there is none. -/
def withHandle (s : Store) (path : Path) (work : Handle → Store) : Store :=
  match s.handles path with
  | some h => work h
  | none => s

def step (s : Store) : FileOp → Store
  | .createTable path recordSize => s.onPool (RmManager.createFile path recordSize)
  | .openTable path => s.opening path (RmManager.openFile path)
  | .createIndex path cols => s.onPool (IxManager.createIndex path cols)
  | .openIndex path => s.opening path (IxManager.openIndex path)
  | .close path => s.withHandle path fun h => s.closing path h
  | .drop path => s.withHandle path fun h => s.dropping path h
  | .fetch path pageNo => s.withHandle path fun h => s.fetching ⟨h.fd,pageNo⟩
  | .new path => s.withHandle path fun h => s.creating path h
  | .unpin path pageNo isDirty => s.withHandle path fun h => s.onPool (unpinPage ⟨h.fd,pageNo⟩ isDirty)
  | .flush path pageNo => s.withHandle path fun h => s.onPool (flushPage ⟨h.fd,pageNo⟩)
  | .delete path pageNo => s.withHandle path fun h => s.onPool (deletePage ⟨h.fd,pageNo⟩)
  | .write frame data => { s with
      pool := s.pool.setPage frame { s.pool.pages frame with data := data } }

/-- A server that has just started: any files on disk, none of them open. -/
def start (poolSize : Nat) (fds : FrameId → Int) (os : Os) : Store where
  pool := BufferPool.start poolSize fds ⟨os,fun _ => none,fun _ => none,fun _ => 0⟩
  handles _ := none
  owner _ := none

end Store

end Rucbase
