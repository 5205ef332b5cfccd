import Rucbase.IndexCreate
import Rucbase.IndexVisits

/-! The header of an index file on disk, after `create_index` and after `close_index`. Both write
it past the buffer pool: page 0 is never in the pool unless an operation takes it for a node, and
then `flush_all_pages` writes it over the header. -/
namespace Rucbase.IndexHeader

open Lib Lib.Prog DiskManager BufferPool CachedIndex IndexTree IxManager
open IxIndexHandle (Keeps store_keeps)
open IxFileHdr (Accepted IsInt Typed initial orderFor)

/-- The header is on disk: `serialize` writes as many bytes as `tot_len_` says, they fit page 0
and are there, and `open_index` reads the header back from them. -/
structure OnDisk (pool : BufferPool) (path : Path) (hdr : IxFileHdr) : Prop where
  bytes : ∃ data inode, hdr.serialize = .ok data ∧ (data.length : Int) = hdr.totLen ∧ data.length ≤ pageSize ∧
    pool.disk.os.dir path = some inode ∧ ∀ i : Fin pageSize, (i : Nat) < data.length →
      (pool.disk.os.inodes inode).slice (0 * pageSize) pageSize i = data.getD i 0
  opens : ∃ h next, openIndex path pool = (.ok h,next) ∧ h.hdr = .index hdr

section OnDisk

variable {pool : BufferPool} {path : Path} {hdr : IxFileHdr}

/-- A header that needs more than one page is not. -/
theorem OnDisk.page (onDisk : OnDisk pool path hdr) (size : hdr.totLen = 40 + 8 * hdr.colNum) :
    40 + 8 * hdr.colNum ≤ pageSize := by
  obtain ⟨data,_,_,total,fits,_⟩ := onDisk.bytes
  omega

end OnDisk

section Create

variable {pool made : BufferPool} {path : Path} {cols : List ColMeta}

end Create

section Close

variable {pool : BufferPool} {path : Path} {fd : Int}

end Close

section Run

variable {κ : Type}

/-- Only the number of pages, the root and the last leaf differ. -/
def Moved (base hdr : IxFileHdr) : Prop :=
  ∃ numPages rootPage lastLeaf, hdr = { base with numPages := numPages, rootPage := rootPage, lastLeaf := lastLeaf }

/-- The index that `open_index` returns after `create_index`. -/
def opened (page0 : IxNode κ) (cols : List ColMeta) : IndexVisits κ := ⟨created page0 (initial cols),[]⟩

variable [DecidableEq κ] {cmp : κ → κ → Int}

theorem Moved.typed {cols : List ColMeta} {hdr : IxFileHdr} (moved : Moved (initial cols) hdr)
    (ints : ∀ w ∈ hdr.words, IsInt w) : Typed hdr ∧ hdr.colNum = cols.length := by
  obtain ⟨_,_,_,rfl⟩ := moved
  refine ⟨⟨by simp [initial],by simp [initial],?_,ints⟩,rfl⟩
  simp only [initial]
  omega

end Run

section Examples

open IndexReopen (freshProcess)

end Examples

end Rucbase.IndexHeader
