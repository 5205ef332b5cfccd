import Rucbase.Defs
import Mathlib.Data.List.Basic
import Mathlib.Algebra.GroupWithZero.Nat

/-! The header of an index file and its serialization. -/
namespace Rucbase

inductive ColType where
  | int
  | float
  | string
  deriving DecidableEq, Repr

def ColType.code : ColType → Int
  | .int => 0
  | .float => 1
  | .string => 2

def ColType.ofCode (n : Int) : ColType := if n = 0 then .int else if n = 1 then .float else .string

structure ColMeta where
  tabName : String
  name : String
  type : ColType
  len : Int
  offset : Int
  index : Bool
  deriving DecidableEq, Repr

/-- `col_tot_len`, as both `create_index` functions add it up. -/
def ColMeta.totLen (cols : List ColMeta) : Int := cols.foldl (fun total col => addInt total col.len) 0

def ixNoPage : Int := -1
def ixFileHdrPage : Int := 0
def ixLeafHeaderPage : Int := 1
def ixInitRootPage : Int := 2
def ixInitNumPages : Nat := 3
def ixMaxColLen : Nat := 512

/-- `sizeof(IxPageHdr)` and `sizeof(Rid)`. -/
def ixPageHdrSize : Nat := 24
def ridSize : Nat := 8

structure IxFileHdr where
  firstFreePageNo : Int
  numPages : Int
  rootPage : Int
  colNum : Nat
  colTypes : List ColType
  colLens : List Int
  colTotLen : Int
  btreeOrder : Int
  keysSize : Int
  firstLeaf : Int
  lastLeaf : Int
  totLen : Int
  deriving DecidableEq, Repr

namespace IxFileHdr

/-- The words `serialize` copies, in its order. -/
def words (hdr : IxFileHdr) : List Int :=
  [hdr.totLen,hdr.firstFreePageNo,hdr.numPages,hdr.rootPage,hdr.colNum] ++
    hdr.colTypes.map ColType.code ++ hdr.colLens ++
    [hdr.colTotLen,hdr.btreeOrder,hdr.keysSize,hdr.firstLeaf,hdr.lastLeaf]

/-- The bytes written, or the failed assertion that their number is `tot_len_`. -/
def serialize (hdr : IxFileHdr) : Except RMDBError (List Byte) :=
  if 4 * (hdr.words.length : Int) = hdr.totLen then .ok (hdr.words.flatMap intBytes)
  else .error .assertion

/-- The word at a word offset of a page. -/
def wordAt (src : PageData) (k : Nat) : Int :=
  bytesInt ((List.range 4).map fun i =>
    if inside : 4 * k + i < pageSize then src ⟨4 * k + i,inside⟩ else 0)

def deserialize (src : PageData) : Except RMDBError IxFileHdr :=
  let colNum := (wordAt src 4).toNat
  let tail := 5 + 2 * colNum
  let hdr : IxFileHdr := {
    totLen := wordAt src 0
    firstFreePageNo := wordAt src 1
    numPages := wordAt src 2
    rootPage := wordAt src 3
    colNum := colNum
    colTypes := (List.range colNum).map fun i => .ofCode (wordAt src (5 + i))
    colLens := (List.range colNum).map fun i => wordAt src (5 + colNum + i)
    colTotLen := wordAt src tail
    btreeOrder := wordAt src (tail + 1)
    keysSize := wordAt src (tail + 2)
    firstLeaf := wordAt src (tail + 3)
    lastLeaf := wordAt src (tail + 4) }
  if 4 * (tail + 5 : Int) = hdr.totLen then .ok hdr else .error .assertion

/-- `btree_order`: one pair more than this fits a page. -/
def orderFor (colTotLen : Int) : Int := (pageSize - ixPageHdrSize) / (colTotLen + ridSize) - 1

/-- The header `IxManager::create_index` writes. -/
def initial (cols : List ColMeta) : IxFileHdr :=
  let colTotLen := ColMeta.totLen cols
  { firstFreePageNo := ixNoPage
    numPages := ixInitNumPages
    rootPage := ixInitRootPage
    colNum := cols.length
    colTypes := cols.map ColMeta.type
    colLens := cols.map ColMeta.len
    colTotLen := colTotLen
    btreeOrder := orderFor colTotLen
    keysSize := (orderFor colTotLen + 1) * colTotLen
    firstLeaf := ixInitRootPage
    lastLeaf := ixInitRootPage
    totLen := 4 * 4 + 4 * 6 + (4 * cols.length + 4 * cols.length) }

end IxFileHdr

end Rucbase
