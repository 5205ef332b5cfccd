import Rucbase.Defs
import Rucbase.Lib.Bisect

/-! A node of the index tree: the page header and the `num_key` pairs of key and record
position. Keys are an arbitrary type with the comparison `ix_compare` computes on them. -/
namespace Rucbase

@[ext] structure IxNode (κ : Type) where
  nextFreePageNo : Int
  parent : Int
  isLeaf : Bool
  prevLeaf : Int
  nextLeaf : Int
  pairs : List (κ × Rid)

namespace IxNode

variable {κ : Type}

/-- A page of zero bytes. -/
def zero : IxNode κ := ⟨0,0,false,0,0,[]⟩

def size (node : IxNode κ) : Nat := node.pairs.length

section Search

variable (cmp : κ → κ → Int)

/-- The first position whose key is not smaller than the target. -/
def lowerBound (node : IxNode κ) (target : κ) : Nat :=
  Lib.bisect (fun i => (node.pairs[i]?).any fun pair => cmp pair.1 target < 0) 0 node.size

/-- The first position from 1 on whose key is greater than the target. -/
def upperBound (node : IxNode κ) (target : κ) : Nat :=
  Lib.bisect (fun i => (node.pairs[i]?).any fun pair => !decide (cmp pair.1 target > 0)) 1 node.size

/-- The code also compares when the bound is `num_key`, but does not use that answer. -/
def leafLookup (node : IxNode κ) (key : κ) : Option Rid :=
  match node.pairs[node.lowerBound cmp key]? with
  | some pair => if cmp pair.1 key = 0 then some pair.2 else none
  | none => none

/-- The child to search; a node without pairs has none. -/
def internalLookup (node : IxNode κ) (key : κ) : Option Int :=
  (node.pairs[node.upperBound cmp key - 1]?).map fun pair => pair.2.pageNo

end Search

/-- `insert_pairs` once its assertion holds. -/
def insertPairs (pos : Nat) (new : List (κ × Rid)) (node : IxNode κ) : IxNode κ :=
  { node with pairs := node.pairs.take pos ++ new ++ node.pairs.drop pos }

def erasePair (pos : Nat) (node : IxNode κ) : IxNode κ :=
  { node with pairs := node.pairs.eraseIdx pos }

/-- The position `insert` puts a new key at, if it is not already there. -/
def insertPos (cmp : κ → κ → Int) (node : IxNode κ) (key : κ) : Option Nat :=
  let pos := node.lowerBound cmp key
  if pos = node.size ∨ (node.pairs[pos]?).any (fun pair => cmp pair.1 key > 0) then some pos else none

/-- The position of the pair `remove` erases. -/
def removePos (cmp : κ → κ → Int) (node : IxNode κ) (key : κ) : Option Nat :=
  let pos := node.lowerBound cmp key
  if (node.pairs[pos]?).any (fun pair => cmp pair.1 key = 0) then some pos else none

def setKey (i : Nat) (key : κ) (node : IxNode κ) : IxNode κ :=
  { node with pairs := node.pairs.modify i fun pair => (key,pair.2) }

/-- The position of the first pair that points to the page. -/
def findChild (node : IxNode κ) (child : Int) : Option Nat :=
  node.pairs.findIdx? fun pair => pair.2.pageNo == child

end IxNode

end Rucbase
