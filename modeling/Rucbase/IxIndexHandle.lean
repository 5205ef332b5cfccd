import Rucbase.IxDefs
import Rucbase.IxNode
import Rucbase.Lib.Prog

/-! The index tree's operations, over any store that keeps its pages. A node handle is the
number of its page; everything read or changed through it goes to the store. Loops and
recursions over pages run for as many rounds as the file has pages. -/
namespace Rucbase

open Lib Prog

/-- What the operations need of the buffer pool, and the header the handle keeps. -/
structure PageStore (σ κ : Type) where
  fetch : Int → Prog σ RMDBError Unit
  newPage : Prog σ RMDBError Int
  unpin : Int → Bool → Prog σ RMDBError Bool
  read : Int → Prog σ RMDBError (IxNode κ)
  write : Int → IxNode κ → Prog σ RMDBError Unit
  hdr : Prog σ RMDBError IxFileHdr
  setHdr : (IxFileHdr → IxFileHdr) → Prog σ RMDBError Unit
  pageCount : Prog σ RMDBError Nat

/-- `get_max_size` and `get_min_size`. -/
def IxFileHdr.maxSize (hdr : IxFileHdr) : Int := hdr.btreeOrder + 1
def IxFileHdr.minSize (hdr : IxFileHdr) : Int := hdr.maxSize / 2

/-- The position of a pair of a leaf. -/
structure Iid where
  pageNo : Int
  slotNo : Nat
  deriving DecidableEq, Repr

namespace IxIndexHandle

variable {σ κ : Type} (st : PageStore σ κ)

def edit (p : Int) (f : IxNode κ → IxNode κ) : Prog σ RMDBError Unit := do
  let node ← st.read p
  st.write p (f node)

def insertPairs (p : Int) (pos : Nat) (new : List (κ × Rid)) : Prog σ RMDBError Unit := do
  let node ← st.read p
  check (pos ≤ node.size) .assertion
  st.write p (node.insertPairs pos new)

def erasePair (p : Int) (pos : Nat) : Prog σ RMDBError Unit := do
  let node ← st.read p
  check (pos < node.size) .assertion
  st.write p (node.erasePair pos)

def findChild (p child : Int) : Prog σ RMDBError Nat := do
  let node ← st.read p
  match node.findChild child with
  | some i => pure i
  | none => raise .assertion

/-- The pair at a position. Behind `num_key` the code would read stale bytes; that is outside
the model. -/
def pairAt (p : Int) (i : Nat) : Prog σ RMDBError (κ × Rid) := do
  let node ← st.read p
  match node.pairs[i]? with
  | some pair => pure pair
  | none => raise .assertion

def createNode : Prog σ RMDBError Int := do
  st.setHdr fun hdr => { hdr with numPages := hdr.numPages + 1 }
  st.newPage

def releaseNodeHandle : Prog σ RMDBError Unit :=
  st.setHdr fun hdr => { hdr with numPages := hdr.numPages - 1 }

def maintainChild (p : Int) (i : Nat) : Prog σ RMDBError Unit := do
  let node ← st.read p
  if node.isLeaf then pure ()
  else do
    let pair ← pairAt st p i
    st.fetch pair.2.pageNo
    edit st pair.2.pageNo fun child => { child with parent := p }
    let _ ← st.unpin pair.2.pageNo true

/-- `maintain_child` for the positions from `first` on. -/
def maintainChildren (p : Int) (first : Nat) : Nat → Prog σ RMDBError Unit
  | 0 => pure ()
  | count + 1 => do
    maintainChild st p first
    maintainChildren p (first + 1) count

section Search

variable (cmp : κ → κ → Int)

def findLeafFrom (key : κ) : Nat → Int → Prog σ RMDBError Int
  | 0, _ => raise .assertion
  | rounds + 1, p => do
    let node ← st.read p
    if node.isLeaf then pure p
    else match node.internalLookup cmp key with
      | none => raise .assertion
      | some child => do
        st.fetch child
        let _ ← st.unpin p false
        findLeafFrom key rounds child

def findLeafPage (key : κ) : Prog σ RMDBError Int := do
  let hdr ← st.hdr
  let rounds ← st.pageCount
  st.fetch hdr.rootPage
  findLeafFrom st cmp key rounds hdr.rootPage

/-- The leaf is read after it is unpinned, with nothing fetched in between. -/
def getValue (key : κ) : Prog σ RMDBError (Option Rid) := do
  let leaf ← findLeafPage st cmp key
  let node ← st.read leaf
  let _ ← st.unpin leaf false
  pure (node.leafLookup cmp key)

end Search

/-- The header of the node `split` creates. -/
def splitHdr (old new : IxNode κ) : IxNode κ :=
  { new with pairs := [], isLeaf := old.isLeaf, parent := old.parent,
             nextFreePageNo := old.nextFreePageNo }

def linkLeaf (p q : Int) : Prog σ RMDBError Unit := do
  let node ← st.read p
  edit st q fun new => { new with prevLeaf := p, nextLeaf := node.nextLeaf }
  edit st p fun node => { node with nextLeaf := q }
  st.fetch node.nextLeaf
  edit st node.nextLeaf fun next => { next with prevLeaf := q }
  let _ ← st.unpin node.nextLeaf true

/-- The upper half of the pairs moves to the new node. -/
def moveUpper (p q : Int) : Prog σ RMDBError Nat := do
  let node ← st.read p
  let pos := node.size / 2
  insertPairs st q 0 (node.pairs.drop pos)
  edit st p fun node => { node with pairs := node.pairs.take pos }
  pure (node.size - pos)

def split (p : Int) : Prog σ RMDBError Int := do
  let q ← createNode st
  let node ← st.read p
  edit st q (splitHdr node)
  if node.isLeaf then linkLeaf st p q else pure ()
  let num ← moveUpper st p q
  maintainChildren st q 0 num
  pure q

/-- The new root, whose pin is never dropped. -/
def growRoot (old : Int) (key : κ) (new : Int) : Prog σ RMDBError Unit := do
  let root ← createNode st
  edit st root fun node =>
    { node with pairs := [], isLeaf := false, parent := invalidPageId, nextFreePageNo := ixNoPage }
  let first ← pairAt st old 0
  insertPairs st root 0 [(first.1,⟨old,-1⟩)]
  insertPairs st root 1 [(key,⟨new,-1⟩)]
  st.setHdr fun hdr => { hdr with rootPage := root }
  edit st new fun node => { node with parent := root }
  edit st old fun node => { node with parent := root }

def insertIntoParent : Nat → Int → κ → Int → Prog σ RMDBError Unit
  | 0, _, _, _ => raise .assertion
  | rounds + 1, old, key, new => do
    let node ← st.read old
    if node.parent = invalidPageId then growRoot st old key new
    else do
      st.fetch node.parent
      let i ← findChild st node.parent old
      insertPairs st node.parent (i + 1) [(key,⟨new,-1⟩)]
      let parent ← st.read node.parent
      let hdr ← st.hdr
      if (parent.size : Int) = hdr.maxSize then do
        let right ← split st node.parent
        let first ← pairAt st right 0
        insertIntoParent rounds node.parent first.1 right
        let _ ← st.unpin right true
      else pure ()
      let _ ← st.unpin node.parent true

/-- A leaf that is full: split it and tell its parent. -/
def splitLeaf (leaf : Int) : Prog σ RMDBError Unit := do
  let new ← split st leaf
  st.setHdr fun hdr => if leaf = hdr.lastLeaf then { hdr with lastLeaf := new } else hdr
  let first ← pairAt st new 0
  let rounds ← st.pageCount
  insertIntoParent st rounds leaf first.1 new
  let _ ← st.unpin new true

section Insert

variable (cmp : κ → κ → Int)

/-- `IxNodeHandle::insert`: a key that is already there is not inserted. -/
def insert (p : Int) (key : κ) (value : Rid) : Prog σ RMDBError Nat := do
  let node ← st.read p
  match node.insertPos cmp key with
  | some pos => insertPairs st p pos [(key,value)]
  | none => pure ()
  let node ← st.read p
  pure node.size

/-- The leaf is unpinned as clean even if it was changed. -/
def insertEntry (key : κ) (value : Rid) : Prog σ RMDBError Bool := do
  let leaf ← findLeafPage st cmp key
  let node ← st.read leaf
  let size ← insert st cmp leaf key value
  if size = node.size then do
    let _ ← st.unpin leaf false
    pure false
  else do
    let hdr ← st.hdr
    if (size : Int) = hdr.maxSize then splitLeaf st leaf else pure ()
    let _ ← st.unpin leaf false
    pure true

end Insert

section Delete

def remove (cmp : κ → κ → Int) (p : Int) (key : κ) : Prog σ RMDBError Nat := do
  let node ← st.read p
  match node.removePos cmp key with
  | some pos => erasePair st p pos
  | none => pure ()
  let node ← st.read p
  pure node.size

def eraseLeaf (leaf : Int) : Prog σ RMDBError Unit := do
  let node ← st.read leaf
  check node.isLeaf .assertion
  st.fetch node.prevLeaf
  edit st node.prevLeaf fun prev => { prev with nextLeaf := node.nextLeaf }
  let _ ← st.unpin node.prevLeaf true
  let node ← st.read leaf
  st.fetch node.nextLeaf
  edit st node.nextLeaf fun next => { next with prevLeaf := node.prevLeaf }
  let _ ← st.unpin node.nextLeaf true

def adjustRoot (old : Int) : Prog σ RMDBError Bool := do
  let node ← st.read old
  if node.isLeaf = false ∧ node.size = 1 then do
    let pair ← pairAt st old 0
    st.fetch pair.2.pageNo
    edit st pair.2.pageNo fun root => { root with parent := invalidPageId }
    st.setHdr fun hdr => { hdr with rootPage := pair.2.pageNo }
    releaseNodeHandle st
    let _ ← st.unpin pair.2.pageNo true
    pure true
  else if node.isLeaf = true ∧ node.size = 0 then do
    releaseNodeHandle st
    st.setHdr fun hdr => { hdr with rootPage := invalidPageId }
    pure true
  else pure false

/-- `coalesce` up to its recursion: the pairs of `right` move to `left`, and `right`
leaves the leaf list and the parent. -/
def merge (left right parent : Int) (index : Nat) : Prog σ RMDBError Unit := do
  let target ← st.read left
  let source ← st.read right
  insertPairs st left target.size source.pairs
  maintainChildren st left target.size source.size
  st.setHdr fun hdr => if right = hdr.lastLeaf then { hdr with lastLeaf := left } else hdr
  eraseLeaf st right
  releaseNodeHandle st
  erasePair st parent index

variable [DecidableEq κ]

/-- The first key of a node is copied to its parent, and so on while it differs. The node
whose key is copied next has already been unpinned. -/
def maintainParentFrom : Nat → Int → Prog σ RMDBError Unit
  | 0, _ => raise .assertion
  | rounds + 1, curr => do
    let node ← st.read curr
    if node.parent = ixNoPage then pure ()
    else do
      st.fetch node.parent
      let rank ← findChild st node.parent curr
      let parentPair ← pairAt st node.parent rank
      let first ← pairAt st curr 0
      if parentPair.1 = first.1 then do
        let unpinned ← st.unpin node.parent true
        check unpinned .assertion
      else do
        edit st node.parent (IxNode.setKey rank first.1)
        let unpinned ← st.unpin node.parent true
        check unpinned .assertion
        maintainParentFrom rounds node.parent

def maintainParent (p : Int) : Prog σ RMDBError Unit := do
  let rounds ← st.pageCount
  maintainParentFrom st rounds p

def redistribute (neighbor node : Int) (index : Nat) : Prog σ RMDBError Unit := do
  let source ← st.read neighbor
  if index ≠ 0 then do
    let pair ← pairAt st neighbor (source.size - 1)
    insertPairs st node 0 [pair]
    erasePair st neighbor (source.size - 1)
    maintainChild st node 0
    maintainParent st node
  else do
    let pair ← pairAt st neighbor 0
    let target ← st.read node
    insertPairs st node target.size [pair]
    erasePair st neighbor 0
    let target ← st.read node
    maintainChild st node (target.size - 1)
    maintainParent st neighbor

/-- When the node is its parent's first child, `coalesce` swaps the caller's two handles:
`brother` is the left node in both cases afterwards, and the right one keeps its pin. -/
def coalesceOrRedistribute : Nat → Int → Prog σ RMDBError Bool
  | 0, _ => raise .assertion
  | rounds + 1, p => do
    let node ← st.read p
    let hdr ← st.hdr
    if node.parent = invalidPageId then adjustRoot st p
    else if hdr.minSize ≤ node.size then do
      maintainParent st p
      pure false
    else do
      st.fetch node.parent
      let pos ← findChild st node.parent p
      let brother := if pos ≠ 0 then node.prevLeaf else node.nextLeaf
      st.fetch brother
      let sibling ← st.read brother
      if hdr.minSize * 2 ≤ node.size + sibling.size then do
        redistribute st brother p pos
        let _ ← st.unpin node.parent true
        let _ ← st.unpin brother true
        pure false
      else do
        let left := if pos = 0 then p else brother
        let right := if pos = 0 then brother else p
        merge st left right node.parent (if pos = 0 then 1 else pos)
        let _ ← coalesceOrRedistribute rounds node.parent
        let _ ← st.unpin node.parent true
        let _ ← st.unpin left true
        pure true

def deleteEntry (cmp : κ → κ → Int) (key : κ) : Prog σ RMDBError Bool := do
  let leaf ← findLeafPage st cmp key
  let node ← st.read leaf
  let size ← remove st cmp leaf key
  if size = node.size then do
    let _ ← st.unpin leaf false
    pure false
  else do
    let rounds ← st.pageCount
    let _ ← coalesceOrRedistribute st rounds leaf
    let _ ← st.unpin leaf true
    pure true

/-- `coalesce_or_redistribute` up to its recursion: its answer, or after a merge the parent it goes
on with and the node it unpins last. -/
def climb (p : Int) : Prog σ RMDBError (Bool ⊕ Int × Int) := do
  let node ← st.read p
  let hdr ← st.hdr
  if node.parent = invalidPageId then do
    let answer ← adjustRoot st p
    pure (.inl answer)
  else if hdr.minSize ≤ node.size then do
    maintainParent st p
    pure (.inl false)
  else do
    st.fetch node.parent
    let pos ← findChild st node.parent p
    let brother := if pos ≠ 0 then node.prevLeaf else node.nextLeaf
    st.fetch brother
    let sibling ← st.read brother
    if hdr.minSize * 2 ≤ node.size + sibling.size then do
      redistribute st brother p pos
      let _ ← st.unpin node.parent true
      let _ ← st.unpin brother true
      pure (.inl false)
    else do
      let left := if pos = 0 then p else brother
      let right := if pos = 0 then brother else p
      merge st left right node.parent (if pos = 0 then 1 else pos)
      pure (.inr (node.parent,left))

theorem coalesce_climb (rounds : Nat) (p : Int) : coalesceOrRedistribute st (rounds + 1) p = (do
    match ← climb st p with
    | .inl answer => pure answer
    | .inr (parent,left) => do
      let _ ← coalesceOrRedistribute st rounds parent
      let _ ← st.unpin parent true
      let _ ← st.unpin left true
      pure true) := by
  rw [coalesceOrRedistribute,climb]
  simp only [Prog.bind_assoc]
  refine Prog.bind_congr fun node => Prog.bind_congr fun hdr => ?_
  split
  · rw [Prog.bind_assoc]
    exact (Prog.bind_pure _).symm
  · split
    · rw [Prog.bind_assoc]
      rfl
    · simp only [Prog.bind_assoc]
      refine Prog.bind_congr fun _ => Prog.bind_congr fun pos => Prog.bind_congr fun _ => Prog.bind_congr fun sibling => ?_
      split
      · simp only [Prog.bind_assoc]
        rfl
      · simp only [Prog.bind_assoc]
        rfl

/-- `delete_entry` up to `coalesce_or_redistribute`: the leaf, and whether it lost a pair. -/
def removal (cmp : κ → κ → Int) (key : κ) : Prog σ RMDBError (Int × Bool) := do
  let leaf ← findLeafPage st cmp key
  let node ← st.read leaf
  let size ← remove st cmp leaf key
  pure (leaf,size ≠ node.size)

theorem deleteEntry_removal (cmp : κ → κ → Int) (key : κ) : deleteEntry st cmp key = (do
    let found ← removal st cmp key
    if found.2 then do
      let rounds ← st.pageCount
      let _ ← coalesceOrRedistribute st rounds found.1
      let _ ← st.unpin found.1 true
      pure true
    else do
      let _ ← st.unpin found.1 false
      pure false) := by
  rw [deleteEntry,removal]
  simp only [Prog.bind_assoc]
  refine Prog.bind_congr fun leaf => Prog.bind_congr fun node => Prog.bind_congr fun size => ?_
  by_cases same : size = node.size
  · rw [if_pos same]
    simp [same]
    rfl
  · rw [if_neg same]
    simp [same]
    rfl

end Delete

section Scan

/-- The node is read after it is unpinned; a failed lookup leaves it pinned. -/
def getRid (iid : Iid) : Prog σ RMDBError Rid := do
  st.fetch iid.pageNo
  let node ← st.read iid.pageNo
  match node.pairs[iid.slotNo]? with
  | none => raise .indexEntryNotFound
  | some pair => do
    let _ ← st.unpin iid.pageNo false
    pure pair.2

def leafEnd : Prog σ RMDBError Iid := do
  let hdr ← st.hdr
  st.fetch hdr.lastLeaf
  let node ← st.read hdr.lastLeaf
  let _ ← st.unpin hdr.lastLeaf false
  pure ⟨hdr.lastLeaf,node.size⟩

def leafBegin : Prog σ RMDBError Iid := do
  let hdr ← st.hdr
  pure ⟨hdr.firstLeaf,0⟩

section Bounds

variable (cmp : κ → κ → Int)

/-- A position in the leaf the search ends in, maybe behind its last pair. -/
def lowerBound (key : κ) : Prog σ RMDBError Iid := do
  let leaf ← findLeafPage st cmp key
  let node ← st.read leaf
  let _ ← st.unpin leaf false
  pure ⟨leaf,node.lowerBound cmp key⟩

/-- The end of the leaf the search ends in becomes the end of all leaves. -/
def upperBound (key : κ) : Prog σ RMDBError Iid := do
  let leaf ← findLeafPage st cmp key
  let node ← st.read leaf
  if node.upperBound cmp key = node.size then do
    let last ← leafEnd st
    let _ ← st.unpin leaf false
    pure last
  else do
    let _ ← st.unpin leaf false
    pure ⟨leaf,node.upperBound cmp key⟩

end Bounds

/-- `IxScan::next`: the page it fetches is never unpinned. -/
def scanNext (iid upper : Iid) : Prog σ RMDBError Iid := do
  check (iid ≠ upper) .assertion
  st.fetch iid.pageNo
  let node ← st.read iid.pageNo
  check node.isLeaf .assertion
  check (iid.slotNo < node.size) .assertion
  let hdr ← st.hdr
  if iid.pageNo ≠ hdr.lastLeaf ∧ iid.slotNo + 1 = node.size then pure ⟨node.nextLeaf,0⟩
  else pure ⟨iid.pageNo,iid.slotNo + 1⟩

/-- The first `count` positions an `IxScan` from `iid` to `upper` delivers. -/
def scanRids (upper : Iid) : Nat → Iid → Prog σ RMDBError (List Rid)
  | 0, _ => pure []
  | count + 1, iid =>
    if iid = upper then pure []
    else do
      let rid ← getRid st iid
      let next ← scanNext st iid upper
      let rest ← scanRids upper count next
      pure (rid :: rest)

/-- An `IxScan` over all leaves. -/
def scanAll (count : Nat) : Prog σ RMDBError (List Rid) := do
  let lower ← leafBegin st
  let upper ← leafEnd st
  scanRids st upper count lower

end Scan

end IxIndexHandle

end Rucbase
