import Rucbase.IndexDelete
import Rucbase.IndexContents
import Rucbase.IxFrames

/-! The calls of `coalesce_or_redistribute` that a deletion makes, and the brothers they take, in
every run of `insert_entry` and `delete_entry` on a fresh index. -/
namespace Rucbase.IndexTree

open Lib Lib.BTree IxIndexHandle Prog
open IndexFile (store)

variable {κ : Type}

section Leaf

variable {proper : κ → Prop} {order : Nat} {s : IndexFile κ} {page : Int} {before after : List (κ × IxTree κ 0)} {k : κ}
  {rest : IxPath κ 1} {leaf kid : IxTree κ 0} (housed : Housed proper order s (plug (.up page before k after rest) leaf))
  (next : kid ∈ beside before after)

include housed next

theorem Housed.leaf_brothers : ∃ node parent sibling,
    Brothers s leaf.page kid.page before.length node parent sibling ∧ node.isLeaf = true ∧ node.parent = page ∧
      node.size = leaf.items.length ∧ sibling.size = kid.items.length := by
  rcases List.eq_nil_or_concat' before with rfl | ⟨before,⟨leftKey,left⟩,rfl⟩
  · cases after with
    | nil => simp [beside] at next
    | cons other after =>
      obtain rfl : other.2 = kid := by simpa [beside] using next
      exact left_brothers housed
  · obtain rfl : left = kid := by simpa [beside] using next
    rw [plug_beside] at housed
    obtain ⟨node,parent,sibling,brothers,others⟩ := housed.right_brothers
    exact ⟨node,parent,sibling,by simpa using brothers,others⟩

theorem Housed.leaf_merge : ∃ s' t, merge store (if before.length = 0 then leaf.page else kid.page)
      (if before.length = 0 then kid.page else leaf.page) page (if before.length = 0 then 1 else before.length) s =
        (.ok (),s') ∧ Housed proper order s' (plug rest t) ∧ t.page = page ∧
      t.items.length = before.length + after.length := by
  rcases List.eq_nil_or_concat' before with rfl | ⟨before,⟨leftKey,left⟩,rfl⟩
  · cases after with
    | nil => simp [beside] at next
    | cons other after =>
      obtain rfl : other.2 = kid := by simpa [beside] using next
      obtain ⟨s',run,_,merged⟩ := housed.merge_run
      exact ⟨s',_,run,merged,rfl,by simp⟩
  · obtain rfl : left = kid := by simpa [beside] using next
    rw [plug_beside] at housed
    obtain ⟨s',run,_,merged⟩ := housed.merge_run
    exact ⟨s',_,by simpa using run,merged,rfl,by simp; omega⟩

end Leaf

theorem exists_beside {h : Nat} {before after : List (κ × IxTree κ h)} (others : 1 ≤ before.length + after.length) :
    ∃ kid, kid ∈ beside before after ∧ ∃ label, (label,kid) ∈ before ++ after := by
  rcases List.eq_nil_or_concat' before with rfl | ⟨before,⟨label,left⟩,rfl⟩
  · obtain ⟨⟨label,right⟩,after,rfl⟩ := List.exists_cons_of_length_pos (by simpa using others : 1 ≤ after.length)
    exact ⟨right,by simp [beside],label,by simp⟩
  · exact ⟨left,by simp [beside],label,by simp⟩

/-- A call of `coalesce_or_redistribute`, with the file it is made on. -/
structure Call (κ : Type) where
  rounds : Nat
  page : Int
  file : IndexFile κ

variable [DecidableEq κ]

/-- The call on a page and the calls it makes in turn. -/
def calls : Nat → Int → IndexFile κ → List (Call κ)
  | 0, _, _ => []
  | rounds + 1, p, s => ⟨rounds + 1,p,s⟩ ::
    match climb store p s with
    | (.ok (.inr (parent,_)),next) => calls rounds parent next
    | _ => []

def deletionCalls (cmp : κ → κ → Int) (key : κ) (s : IndexFile κ) : List (Call κ) :=
  match removal store cmp key s with
  | (.ok (leaf,true),next) => calls next.nextPage leaf next
  | _ => []

/-- The node is not the root and has fewer than `get_min_size` pairs. -/
def Call.small (c : Call κ) : Bool :=
  (c.file.pages c.page).any fun node => node.parent ≠ invalidPageId && node.size < c.file.hdr.minSize

/-- How many levels are below a page, along the first children. -/
def level (s : IndexFile κ) : Nat → Int → Option Nat
  | 0, _ => none
  | rounds + 1, p => do
    let node ← s.pages p
    if node.isLeaf then some 0
    else do
      let first ← node.pairs.head?
      let below ← level s rounds first.2.pageNo
      some (below + 1)

/-- The brother that the call takes is the kid next to its node in the same parent, and of the same
kind and level. -/
def Call.TrueSibling (c : Call κ) : Prop :=
  ∃ brother pos node parent sibling n, Brothers c.file c.page brother pos node parent sibling ∧
    level c.file c.file.nextPage c.page = some n ∧ level c.file c.file.nextPage brother = some n

section Calls

variable {s next : IndexFile κ} {p : Int} {node : IxNode κ} (rounds : Nat)

theorem calls_end (done : ∀ up, (climb store p s).1 ≠ .ok (.inr up)) :
    calls (rounds + 1) p s = [⟨rounds + 1,p,s⟩] := by
  rw [calls]
  match climbed : climb store p s with
  | (.ok (.inl _),_) => rfl
  | (.ok (.inr up),_) => exact absurd (congrArg Prod.fst climbed) (done up)
  | (.error _,_) => rfl

omit [DecidableEq κ] in
theorem answered {α : Type} {x : Prog (IndexFile κ) RMDBError α} {f : α → Bool} (up : Int × Int) :
    ((do let a ← x
         pure (.inl (f a)) : Prog (IndexFile κ) RMDBError (Bool ⊕ Int × Int)) s).1 ≠ .ok (.inr up) := by
  rw [bind_run]
  match x s with
  | (.ok _,_) => simp
  | (.error _,_) => simp

theorem climb_settled (there : s.pages p = some node) (settled : node.parent = invalidPageId ∨ s.hdr.minSize ≤ node.size)
    (up : Int × Int) : (climb store p s).1 ≠ .ok (.inr up) := by
  rw [climb,bind_ok (IndexFile.read_run there),bind_ok IndexFile.hdr_run]
  by_cases root : node.parent = invalidPageId
  · rw [if_pos root]
    exact answered up
  · rw [if_neg root,if_pos (settled.resolve_left root)]
    exact answered up

variable {brother : Int} {parent sibling : IxNode κ} {pos : Nat}
  (brothers : Brothers s p brother pos node parent sibling) (small : (node.size : Int) < s.hdr.minSize)

include brothers small

omit rounds in
theorem climb_shared (spare : s.hdr.minSize * 2 ≤ node.size + sibling.size) (up : Int × Int) :
    (climb store p s).1 ≠ .ok (.inr up) := by
  rw [climb_small brothers small,if_pos spare]
  exact answered up

theorem calls_small (scarce : node.size + sibling.size < s.hdr.minSize * 2)
    (merged : merge store (if pos = 0 then p else brother) (if pos = 0 then brother else p) node.parent
      (if pos = 0 then 1 else pos) s = (.ok (),next)) :
    calls (rounds + 1) p s = ⟨rounds + 1,p,s⟩ :: calls rounds node.parent next := by
  rw [calls,climb_small brothers small,if_neg (by omega),bind_ok merged]
  rfl

end Calls

section Calls

variable {proper : κ → Prop} {order : Nat} {s : IndexFile κ} (rounds : Nat)

omit [DecidableEq κ] in
theorem Housed.settled {h : Nat} {path : IxPath κ h} {t : IxTree κ h} (housed : Housed proper order s (plug path t))
    (settled : path ≠ .top → (order + 1) / 2 ≤ t.items.length) :
    ∃ node, s.pages t.page = some node ∧ (node.parent = invalidPageId ∨ s.hdr.minSize ≤ node.size) := by
  obtain ⟨node,there,_,parent,_,size⟩ := housed.node_found
  refine ⟨node,there,?_⟩
  cases path with
  | top => exact .inl parent
  | up => exact .inr (by rw [housed.minSize,size]; exact_mod_cast settled nofun)

theorem Housed.calls_settled {h : Nat} {path : IxPath κ h} {t : IxTree κ h} (housed : Housed proper order s (plug path t))
    (settled : path ≠ .top → (order + 1) / 2 ≤ t.items.length) :
    calls (rounds + 1) t.page s = [⟨rounds + 1,t.page,s⟩] ∧ (⟨rounds + 1,t.page,s⟩ : Call κ).small = false := by
  obtain ⟨node,there,fine⟩ := housed.settled settled
  refine ⟨calls_end rounds (climb_settled there fine),?_⟩
  rw [Call.small,there]
  rcases fine with root | enough
  · simp [root]
  · simp [enough]

/-- A leaf and the one beside it have too few pairs: after their merge, the parent is looked at. -/
theorem Housed.calls_merge {page : Int} {before after : List (κ × IxTree κ 0)} {k : κ} {rest : IxPath κ 1}
    {leaf kid : IxTree κ 0} (housed : Housed proper order s (plug (.up page before k after rest) leaf))
    (next : kid ∈ beside before after) (small : leaf.items.length < (order + 1) / 2)
    (scarce : leaf.items.length + kid.items.length < (order + 1) / 2 * 2) :
    ∃ s' t, Housed proper order s' (plug rest t) ∧ t.items.length = before.length + after.length ∧
      calls (rounds + 1) leaf.page s = ⟨rounds + 1,leaf.page,s⟩ :: calls rounds t.page s' := by
  obtain ⟨node,parent,sibling,brothers,_,up,size,kidSize⟩ := housed.leaf_brothers next
  obtain ⟨s',t,merged,again,samePage,count⟩ := housed.leaf_merge next
  refine ⟨s',t,again,count,?_⟩
  rw [samePage,← up]
  refine calls_small rounds brothers ?_ ?_ (up ▸ merged)
  · rw [housed.minSize,size]
    omega
  · rw [housed.minSize,size,kidSize]
    omega

theorem leaf_calls (three : 3 ≤ order) {path : IxPath κ 0} {leaf : IxTree κ 0} {items : List (κ × Rid)}
    (housed : Housed proper order s (plug path ⟨leaf.page,items⟩)) (sized : (plug path leaf).Sized ((order + 1) / 2) order)
    (one : items.length + 1 = leaf.items.length) :
    calls (rounds + 2) leaf.page s = [⟨rounds + 2,leaf.page,s⟩] ∨
    ∃ page before k after rest kid s' t, path = .up page before k after rest ∧
      leaf.items.length = (order + 1) / 2 ∧ kid ∈ beside before after ∧ kid.items.length = (order + 1) / 2 ∧
      Housed proper order s' (plug rest t) ∧ t.items.length = before.length + after.length ∧
      calls (rounds + 2) leaf.page s = ⟨rounds + 2,leaf.page,s⟩ :: calls (rounds + 1) t.page s' := by
  obtain ⟨way,few,_⟩ := (plug_sized path leaf).mp sized
  by_cases settled : path ≠ .top → (order + 1) / 2 ≤ items.length
  · exact .inl (housed.calls_settled (rounds + 1) settled).1
  obtain ⟨inner,small⟩ := Classical.not_imp.mp settled
  cases path with
  | top => exact absurd rfl inner
  | up page before k after rest =>
    replace few : (order + 1) / 2 ≤ leaf.items.length := few
    obtain ⟨siblings,least,_,_⟩ := way
    have two := least_two three rest
    obtain ⟨kid,next,label,member⟩ := exists_beside (by omega : 1 ≤ before.length + after.length)
    have kidFew : (order + 1) / 2 ≤ kid.items.length := (siblings (label,kid) member).1
    by_cases spare : (order + 1) / 2 * 2 ≤ items.length + kid.items.length
    · obtain ⟨node,parent,sibling,brothers,_,_,size,kidSize⟩ := housed.leaf_brothers next
      replace size : node.size = items.length := size
      exact .inl (calls_end (rounds + 1) (climb_shared brothers (by rw [housed.minSize,size]; omega)
        (by rw [housed.minSize,size,kidSize]; omega)))
    · obtain ⟨s',t,again,count,more⟩ := housed.calls_merge (rounds + 1) next (by simpa using small) (by simpa using spare)
      exact .inr ⟨page,before,k,after,rest,kid,s',t,rfl,by omega,next,by omega,again,count,more⟩

end Calls

/-! ### Runs -/

inductive IxOp (κ : Type) where
  | insert (key : κ) (value : Rid)
  | delete (key : κ)

def IxOp.run (cmp : κ → κ → Int) : IxOp κ → Prog (IndexFile κ) RMDBError Bool
  | .insert key value => insertEntry store cmp key value
  | .delete key => deleteEntry store cmp key

/-- The file after an operation, whether it returned or threw. -/
def step (cmp : κ → κ → Int) (s : IndexFile κ) (op : IxOp κ) : IndexFile κ := (op.run cmp).after s

/-- Deleting the key merges two leaves, and their parent, which is not the root, has no child to
spare. -/
def starves (cmp : κ → κ → Int) (key : κ) (s : IndexFile κ) : Bool :=
  match (findLeafPage store cmp key s).1 with
  | .error _ => false
  | .ok p => (do
    let node ← s.pages p
    let _ ← node.removePos cmp key
    let parent ← s.pages node.parent
    let pos ← parent.findChild p
    let pair ← parent.pairs[if pos = 0 then 1 else pos - 1]?
    let sibling ← s.pages pair.2.pageNo
    pure (decide (node.size ≤ s.hdr.minSize ∧ node.size + sibling.size ≤ s.hdr.minSize * 2 ∧
      parent.size ≤ s.hdr.minSize ∧ parent.parent ≠ invalidPageId)) : Option Bool).getD false

def IxOp.starves (cmp : κ → κ → Int) (s : IndexFile κ) : IxOp κ → Bool
  | .insert _ _ => false
  | .delete key => IndexTree.starves cmp key s

/-- The tree has a root, and no inner node below it gets too few children. -/
def IxOp.Feeds (cmp : κ → κ → Int) (s : IndexFile κ) (op : IxOp κ) : Prop :=
  s.hdr.rootPage ≠ invalidPageId ∧ op.starves cmp s = false

instance (cmp : κ → κ → Int) (s : IndexFile κ) (op : IxOp κ) : Decidable (op.Feeds cmp s) :=
  inferInstanceAs (Decidable (_ ∧ _))

section Shaped

variable {cmp : κ → κ → Int} {proper : κ → Prop} {order : Nat} {s : IndexFile κ} {r : IxRoot κ} {key : κ}

omit [DecidableEq κ] in
theorem Shaped.insert_any (three : 3 ≤ order) (shaped : Shaped proper order s r) (given : proper key) (value : Rid) :
    ∃ answer s' r', IxIndexHandle.insertEntry store cmp key value s = (.ok answer,s') ∧ Shaped proper order s' r' ∧ r'.entries ≠ [] := by
  obtain ⟨path,leaf,found,rfl⟩ := shaped.search cmp key three
  obtain ⟨node,there,_,_,pairs,size⟩ := shaped.toHoused.node_found
  replace pairs : node.pairs = leaf.items := pairs
  match position : node.insertPos cmp key with
  | none =>
    refine ⟨false,s,_,insertEntry_known found there value position,shaped,?_⟩
    have some : node.pairs ≠ [] := by
      intro empty
      simp [IxNode.insertPos,IxNode.lowerBound,IxNode.size,empty,bisect,bisectLoop] at position
    rw [plug_entries]
    simpa [entries,collect,← pairs] using fun _ empty => absurd empty some
  | some pos =>
    have inside := IxNode.insertPos_le position
    have cut : leaf.items = leaf.items.take pos ++ leaf.items.drop pos := (List.take_append_drop ..).symm
    have length : pos = (leaf.items.take pos).length := by rw [List.length_take]; omega
    obtain ⟨s',r',run,again,onward,_⟩ := shaped.insertEntry found there three given value cut (length ▸ position)
    refine ⟨true,s',r',run,again,?_⟩
    rw [onward.entries,plug_entries]
    simp [entries,collect]

theorem Shaped.delete_found (cmp : κ → κ → Int) (key : κ) (three : 3 ≤ order) (shaped : Shaped proper order s r) :
    (IxIndexHandle.deleteEntry store cmp key s = (.ok false,s) ∧ deletionCalls cmp key s = []) ∨
    ∃ (path : IxPath κ 0) (leaf : IxTree κ 0) (node : IxNode κ) (low : List (κ × Rid)) (e : κ × Rid) (high : List (κ × Rid)),
      plug path leaf = r ∧ findLeafPage store cmp key s = (.ok leaf.page,s) ∧
      s.pages leaf.page = some node ∧ leaf.items = low ++ e :: high ∧ node.removePos cmp key = some low.length ∧
      deletionCalls cmp key s = calls s.nextPage leaf.page (s.put leaf.page { node with pairs := low ++ high }) := by
  obtain ⟨path,leaf,found,rfl⟩ := shaped.search cmp key three
  obtain ⟨node,there,_,_,pairs,_⟩ := shaped.toHoused.node_found
  replace pairs : node.pairs = leaf.items := pairs
  match position : node.removePos cmp key with
  | none =>
    refine .inl ⟨deleteEntry_missing found there position,?_⟩
    rw [deletionCalls,removal_missing found there position]
  | some pos =>
    obtain ⟨low,e,high,cut,rfl⟩ := IxNode.removePos_cut position
    refine .inr ⟨path,leaf,node,low,e,high,rfl,found,there,pairs ▸ cut,position,?_⟩
    rw [deletionCalls,removal_found found there cut position]
    rfl

variable {path : IxPath κ 0} {leaf : IxTree κ 0} {node : IxNode κ} {low high : List (κ × Rid)} {e : κ × Rid}
  (three : 3 ≤ order) (shaped : Shaped proper order s (plug path leaf)) (found : findLeafPage store cmp key s = (.ok leaf.page,s))
  (there : s.pages leaf.page = some node) (items : leaf.items = low ++ e :: high)
  (position : node.removePos cmp key = some low.length)

omit [DecidableEq κ] in
include shaped found there position in
theorem Shaped.spared (fed : starves cmp key s = false) : Spared order path leaf := by
  cases path with
  | top => trivial
  | up page before k after rest =>
    intro inner full kid next kidFull
    by_contra few
    obtain ⟨found',parent,sibling,brothers,_,up,size,kidSize⟩ := shaped.toHoused.leaf_brothers next
    obtain rfl : node = found' := Option.mem_unique there brothers.there
    obtain ⟨parent',same,_,_,top,pairs⟩ := shaped.toHoused.parent_found
    obtain rfl : parent' = parent := Option.mem_unique same (up ▸ brothers.above)
    obtain ⟨pair,beside,pointed⟩ := Option.map_eq_some_iff.mp brothers.beside
    have count : parent'.size = before.length + after.length + 1 := by
      rw [IxNode.size,pairs]
      simp [pointers]
      omega
    have notRoot : parent'.parent ≠ invalidPageId := by
      rw [top]
      cases rest with
      | top => exact absurd rfl inner
      | up => exact Housed.parent_valid shaped.toHoused
    have starved : starves cmp key s = true := by
      rw [starves,found]
      simp only [there,position,brothers.above,brothers.position,beside,pointed,brothers.brotherThere,shaped.minSize,size,
        kidSize,count,Option.bind_eq_bind,Option.bind_some]
      simp [notRoot]
      omega
    rw [fed] at starved
    cases starved

omit [DecidableEq κ] in
theorem adjustRoot_emptied {p : Int} {node : IxNode κ} (there : s.pages p = some node) (leaf : node.isLeaf = true)
    (none : node.size = 0) : adjustRoot store p s =
      (.ok true,{ s with hdr := { s.hdr with numPages := s.hdr.numPages - 1, rootPage := invalidPageId } }) := by
  rw [adjustRoot,bind_ok (IndexFile.read_run there),if_neg (by simp [leaf]),if_pos ⟨leaf,none⟩]
  rfl

omit [DecidableEq κ] in
include three in
theorem others_entries (sized : path.Sized ((order + 1) / 2) order) (inner : path ≠ .top) :
    path.entriesLeft ++ path.entriesRight ≠ [] := by
  cases path with
  | top => exact absurd rfl inner
  | up page before k after rest =>
    obtain ⟨siblings,least,_,_⟩ := sized
    have two := least_two three rest
    obtain ⟨kid,_,label,member⟩ := exists_beside (by omega : 1 ≤ before.length + after.length)
    have filled : (order + 1) / 2 ≤ kid.items.length := (siblings (label,kid) member).1
    obtain ⟨e,others,items⟩ := List.exists_cons_of_length_pos (by omega : 0 < kid.items.length)
    have own : e ∈ kid.items := items ▸ List.mem_cons_self
    have inside : e ∈ (before ++ after).flatMap fun kid => entries kid.2 := List.mem_flatMap.mpr ⟨(label,kid),member,own⟩
    rw [List.flatMap_append] at inside
    rw [entriesLeft_up,entriesRight_up]
    refine List.ne_nil_of_mem (a := e) ?_
    simp only [List.mem_append] at inside ⊢
    tauto

include shaped found there items position in
theorem Shaped.delete_last (top : path = .top) (none : low ++ high = []) :
    IxIndexHandle.deleteEntry store cmp key s = (.ok true,{ s.put leaf.page { node with pairs := [] } with
      hdr := { s.hdr with numPages := s.hdr.numPages - 1, rootPage := invalidPageId } }) := by
  subst top
  obtain ⟨housed,start⟩ := shaped.without found there items position
  obtain ⟨node',there',isLeaf,parent,_,size⟩ := housed.node_found
  have old := shaped.toHoused.around_old leaf.page (by simp)
  obtain ⟨rounds,enough⟩ : ∃ rounds, s.nextPage = rounds + 1 := ⟨s.nextPage - 1,by omega⟩
  have run := adjustRoot_emptied there' isLeaf (by rw [size,none]; rfl)
  rw [enough,bind_ok ((coalesce_root there' parent rounds).trans run),none] at start
  exact start

include three shaped found there items position in
theorem Shaped.delete_any (spared : Spared order path leaf) :
    ∃ s', IxIndexHandle.deleteEntry store cmp key s = (.ok true,s') ∧
      ((∃ r', Shaped proper order s' r' ∧ r'.entries ≠ []) ∨ s'.hdr.rootPage = invalidPageId) := by
  by_cases last : path = .top ∧ low ++ high = []
  · exact ⟨_,shaped.delete_last found there items position last.1 last.2,.inr rfl⟩
  · obtain ⟨s',r',run,again,onward⟩ := shaped.deleteEntry three found there items position spared
      fun top none => last ⟨top,none⟩
    refine ⟨s',run,.inl ⟨r',again,?_⟩⟩
    rw [onward.entries,plug_entries]
    by_cases top : path = .top
    · have left : low ++ high ≠ [] := fun none => last ⟨top,none⟩
      simp [entries,collect] at left ⊢
      tauto
    · have others := others_entries three ((plug_sized path leaf).mp shaped.sized).1 top
      simp at others ⊢
      tauto

omit [DecidableEq κ] in
theorem level_leaf {p : Int} {node : IxNode κ} (there : s.pages p = some node) (leaf : node.isLeaf = true)
    (some : 0 < s.nextPage) : level s s.nextPage p = .some 0 := by
  obtain ⟨rounds,more⟩ := Nat.exists_eq_succ_of_ne_zero some.ne'
  rw [more,level,there]
  simp [leaf]

include three in
/-- As long as the inner nodes keep enough children, a leaf that lost a pair is rebalanced with a
true sibling, and nothing else is. -/
theorem leaf_calls_true {left : List (κ × Rid)} (housed : Housed proper order s (plug path ⟨leaf.page,left⟩))
    (shallow : path.depth < s.nextPage) (sized : (plug path leaf).Sized ((order + 1) / 2) order)
    (one : left.length + 1 = leaf.items.length) (spared : Spared order path leaf) (rounds : Nat) :
    ∀ c ∈ calls (rounds + 2) leaf.page s, c.small = true →
      c.TrueSibling ∧ (coalesceOrRedistribute store c.rounds c.page c.file).1.isOk = true := by
  have first (small : (⟨rounds + 2,leaf.page,s⟩ : Call κ).small = true) : (⟨rounds + 2,leaf.page,s⟩ : Call κ).TrueSibling ∧
      (coalesceOrRedistribute store (rounds + 2) leaf.page s).1.isOk = true := by
    cases path with
    | top =>
      have settled := (housed.calls_settled (rounds + 1) fun inner => absurd rfl inner).2
      exact absurd (settled.symm.trans small) Bool.false_ne_true
    | up page before k after rest =>
      obtain ⟨⟨_,least,_,_⟩,_⟩ := (plug_sized _ leaf).mp sized
      have two := least_two three rest
      obtain ⟨kid,next,_⟩ := exists_beside (by omega : 1 ≤ before.length + after.length)
      obtain ⟨node,parent,sibling,brothers,isLeaf,_⟩ := housed.leaf_brothers next
      obtain ⟨answer,s',_,run,_⟩ := leaf_settled three rounds housed shallow sized one spared nofun
      have pages : 0 < s.nextPage := by omega
      exact ⟨⟨_,_,_,_,_,0,brothers,level_leaf brothers.there isLeaf pages,
        level_leaf brothers.brotherThere (brothers.sameKind.trans isLeaf) pages⟩,by rw [run]; rfl⟩
  rcases leaf_calls rounds three housed sized one with only |
    ⟨page,before,k,after,rest,kid,s',t,rfl,full,next,kidFull,again,count,more⟩
  · rw [only]
    exact List.forall_mem_singleton.mpr first
  · -- the parent is looked at next, and has enough children
    have settled := again.calls_settled rounds fun inner => by rw [count]; exact spared inner full kid next kidFull
    rw [more,settled.1]
    refine List.forall_mem_cons.mpr ⟨first,List.forall_mem_singleton.mpr fun small => ?_⟩
    exact absurd (settled.2.symm.trans small) Bool.false_ne_true

theorem Shaped.calls_true (cmp : κ → κ → Int) (key : κ) (three : 3 ≤ order) (shaped : Shaped proper order s r)
    (fed : starves cmp key s = false) : ∀ c ∈ deletionCalls cmp key s, c.small = true →
      c.TrueSibling ∧ (coalesceOrRedistribute store c.rounds c.page c.file).1.isOk = true := by
  rcases shaped.delete_found cmp key three with ⟨_,none⟩ | ⟨path,leaf,node,low,e,high,rfl,found,there,items,position,made⟩
  · rw [none]
    exact nofun
  · obtain ⟨housed,_⟩ := shaped.without found there items position
    have old := shaped.toHoused.around_old leaf.page (by simp)
    obtain ⟨rounds,enough⟩ : ∃ rounds, s.nextPage = rounds + 2 := ⟨s.nextPage - 2,by omega⟩
    rw [made,enough]
    exact leaf_calls_true three housed (by simpa using shaped.shallow three) shaped.sized (by rw [items]; simp; omega)
      (shaped.spared found there position fed) rounds

end Shaped

/-- The file holds a tree with enough pairs in its nodes, or one that was emptied. -/
def Sound (order : Nat) (s : IndexFile κ) : Prop :=
  (∃ r, Shaped (fun _ => True) order s r) ∨ s.hdr.rootPage = invalidPageId

omit [DecidableEq κ] in
theorem created_sound (page0 : IxNode κ) (cols : List ColMeta) (order : Nat) :
    Sound order (created page0 (createdHdr cols order)) := by
  have indexed : Indexed (fun _ => ()) (fun _ => True) order (created page0 (createdHdr cols order)) ⟨0,⟨ixInitRootPage,[]⟩⟩ :=
    created_indexed page0 rfl rfl rfl rfl
  exact .inl ⟨_,indexed.balanced.shaped⟩

theorem Sound.step (cmp : κ → κ → Int) {order : Nat} {s : IndexFile κ} (three : 3 ≤ order) (sound : Sound order s) (op : IxOp κ)
    (feeds : op.Feeds cmp s) : Sound order (step cmp s op) := by
  obtain ⟨r,shaped⟩ := sound.resolve_right feeds.1
  rw [IndexTree.step,after]
  cases op with
  | insert key value =>
    obtain ⟨_,s',r',run,again,_⟩ := shaped.insert_any three trivial value
    rw [IxOp.run,run]
    exact .inl ⟨r',again⟩
  | delete key =>
    rw [IxOp.run]
    rcases shaped.delete_found cmp key three with ⟨none,_⟩ | ⟨path,leaf,node,low,e,high,rfl,found,there,items,position,_⟩
    · rw [none]
      exact .inl ⟨r,shaped⟩
    · obtain ⟨s',run,after⟩ := shaped.delete_any three found there items position (shaped.spared found there position feeds.2)
      rw [run]
      exact after.imp_left fun kept => kept.imp fun _ both => both.1

/-- In every run, up to the deletion that empties the tree, in which no deletion leaves an inner node
below the root with too few children, the nodes with too few pairs are rebalanced with true siblings. -/
theorem rebalanced_with_siblings (cols : List ColMeta) (order : Nat) (three : 3 ≤ order) (page0 : IxNode (List Byte))
    (ops : List (IxOp (List Byte))) (key : List Byte)
    (feeds : Guarded (step (ixCompare (ixCols cols))) (fun s op => op.Feeds (ixCompare (ixCols cols)) s)
      (created page0 (createdHdr cols order)) (ops ++ [.delete key])) :
    ∀ c ∈ deletionCalls (ixCompare (ixCols cols)) key
        (ops.foldl (step (ixCompare (ixCols cols))) (created page0 (createdHdr cols order))),
      c.small = true → c.TrueSibling ∧ (coalesceOrRedistribute store c.rounds c.page c.file).1.isOk = true := by
  obtain ⟨before,last,_⟩ := feeds.append
  have sound := guarded_invariant (Sound order) (fun s op sound feeds => sound.step _ three op feeds) _
    (created_sound page0 cols order) ops before
  obtain ⟨r,shaped⟩ := sound.resolve_right last.1
  exact shaped.calls_true _ key three last.2

/-- The header page of a fresh index of order 3 on one INT column, read as a node. -/
def intHeaderNode : IxNode (List Byte) :=
  ⟨48,-1,true,1,0,[(intBytes 4,⟨2,2⟩),(intBytes 4,⟨0,0⟩),(intBytes 3,⟨0,0⟩)]⟩

def countUp (n : Nat) : List (IxOp (List Byte)) := (List.range n).map fun i => .insert (intBytes (i + 1)) ⟨1,i⟩

/-- With three levels, deleting 1 leaves an inner node one child, and the brother taken for it is
the page of the file header. -/
theorem inner_takes_header_page :
    let s := (countUp 8).foldl (step (ixCompare (ixCols idCols))) (created intHeaderNode (createdHdr idCols 3))
    ∃ c ∈ deletionCalls (ixCompare (ixCols idCols)) (intBytes 1) s, c.small = true ∧ ¬c.TrueSibling := by
  intro s
  have second : ((deletionCalls (ixCompare (ixCols idCols)) (intBytes 1) s)[1]?).map (fun c => (c.small,
      (c.file.pages c.page).map fun node => (node.parent,node.prevLeaf,node.nextLeaf),
      (c.file.pages 8).map fun parent => parent.pairs.map fun pair => pair.2.pageNo)) =
        some (true,some (8,0,0),some [4,7]) := by decide +kernel
  obtain ⟨c,at1,looks⟩ := Option.map_eq_some_iff.mp second
  obtain ⟨small,looks⟩ := Prod.mk.inj looks
  obtain ⟨own,kids⟩ := Prod.mk.inj looks
  refine ⟨c,List.mem_of_getElem? at1,small,?_⟩
  rintro ⟨brother,pos,node,parent,sibling,_,brothers,_⟩
  have links : (node.parent,node.prevLeaf,node.nextLeaf) = (8,0,0) := by simpa [brothers.there] using own
  obtain ⟨up,links⟩ := Prod.mk.inj links
  obtain ⟨prev,next⟩ := Prod.mk.inj links
  have header : brother = 0 := by simpa [prev,next] using brothers.chosen.symm
  have pages : parent.pairs.map (fun pair => pair.2.pageNo) = [4,7] := by simpa [up ▸ brothers.above] using kids
  obtain ⟨pair,beside,pointed⟩ := Option.map_eq_some_iff.mp brothers.beside
  have among : (0 : Int) ∈ parent.pairs.map fun pair => pair.2.pageNo :=
    List.mem_map.mpr ⟨pair,List.mem_of_getElem? beside,pointed.trans header⟩
  rw [pages] at among
  exact absurd among (by decide)

/-- Deleting 1 of four keys merges the two leaves. -/
theorem countUp_four_rebalanced :
    let s := (countUp 4).foldl (step (ixCompare (ixCols idCols))) (created intHeaderNode (createdHdr idCols 3))
    (deletionCalls (ixCompare (ixCols idCols)) (intBytes 1) s).any Call.small = true ∧
    ∀ c ∈ deletionCalls (ixCompare (ixCols idCols)) (intBytes 1) s, c.small = true →
      c.TrueSibling ∧ (coalesceOrRedistribute store c.rounds c.page c.file).1.isOk = true :=
  ⟨by decide +kernel,rebalanced_with_siblings idCols 3 (by decide) intHeaderNode (countUp 4) (intBytes 1) (by decide +kernel)⟩

end Rucbase.IndexTree
