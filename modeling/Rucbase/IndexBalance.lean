import Rucbase.IndexMap
import Rucbase.Lib.BTreeRoute

/-! The index tree with labels that only bound the keys below them, as `delete_entry` leaves
it: searching it and inserting into it. -/
namespace Rucbase.IndexTree

open Lib Lib.BTree IxIndexHandle Prog
open IndexFile (body_found body_put fetch_run hdr_run read_run store)

variable {κ L : Type} [LinearOrder L]

/-- The file holds the tree `r`, and no node but the root is less than half full. -/
structure Shaped (proper : κ → Prop) (order : Nat) (s : IndexFile κ) (r : IxRoot κ) : Prop
    extends Housed proper order s r where
  sized : r.Sized ((order + 1) / 2) order

/-- The file holds the tree `r`, every search in it is led to the right leaf, and no node but the
root is less than half full. -/
structure Balanced (rank : κ → L) (proper : κ → Prop) (order : Nat) (s : IndexFile κ) (r : IxRoot κ) : Prop
    extends Housed proper order s r where
  sized : r.Sized ((order + 1) / 2) order
  routed : r.Routed rank

variable {cmp : κ → κ → Int} {rank : κ → L} {proper : κ → Prop} {order : Nat} {s : IndexFile κ} {r : IxRoot κ} {h : Nat}

theorem Indexed.balanced (indexed : Indexed rank proper order s r) : Balanced rank proper order s r :=
  { indexed.housed with
    sized := indexed.sound.sized
    routed := indexed.sound.routed indexed.sorted }

theorem Balanced.sorted (balanced : Balanced rank proper order s r) : Sorted rank r.entries :=
  routed_sorted balanced.routed

theorem Balanced.shaped (balanced : Balanced rank proper order s r) : Shaped proper order s r := { balanced with }

theorem Shaped.balanced (shaped : Shaped proper order s r) (routed : r.Routed rank) : Balanced rank proper order s r :=
  { shaped with routed := routed }

theorem Shaped.height_lt (three : 3 ≤ order) (shaped : Shaped proper order s r) : r.height < s.nextPage := by
  have deep := Sized.height_lt (by omega) shaped.sized fun inner empty => ?_
  · exact Nat.lt_of_lt_of_le deep (length_le_of_bound shaped.distinct shaped.old)
  · have least := (sized_count shaped.sized).1
    rw [empty,Path.least,if_neg inner] at least
    exact absurd least (by simp)

/-- Whatever the comparison answers, the way down from a node ends in a leaf below it. -/
theorem findLeafFrom_shaped (cmp : κ → κ → Int) (key : κ) (three : 3 ≤ order) {path : IxPath κ h} {t : IxTree κ h}
    (shaped : Shaped proper order s (plug path t)) {rounds : Nat} (enough : h < rounds) :
    ∃ (low : IxPath κ 0) (leaf : IxTree κ 0), findLeafFrom store cmp key rounds t.page s = (.ok leaf.page,s) ∧
      plug low leaf = plug path t := by
  induction h generalizing rounds with
  | zero =>
    obtain ⟨rounds,rfl⟩ := Nat.exists_eq_add_of_lt enough
    obtain ⟨node,there,isLeaf,_⟩ := body_found (holds_body ((holds_plug path t).mp shaped.holds).2)
    refine ⟨path,t,?_,rfl⟩
    rw [findLeafFrom,bind_ok (read_run there),isLeaf]
    rfl
  | succ h ih =>
    obtain ⟨rounds,rfl⟩ := Nat.exists_eq_add_of_lt enough
    obtain ⟨page,items⟩ := t
    obtain ⟨_,own⟩ := (holds_plug path _).mp shaped.holds
    obtain ⟨node,there,inner,_,pairs⟩ := body_found own.1
    have filled : node.pairs ≠ [] := by
      have least := (sized_count ((plug_sized path _).mp shaped.sized).2).1
      have two : 1 ≤ path.least ((order + 1) / 2) := by
        cases path with
        | top => simp [Path.least]
        | up => rw [Path.least]; omega
      rw [pairs,← List.length_pos_iff,pointers,List.length_map]
      exact Nat.lt_of_lt_of_le two least
    obtain ⟨low,pair,high,cut,lookup⟩ := IxNode.internalLookup_some cmp key filled
    obtain ⟨before,others,rfl,_,behind⟩ := List.map_eq_append_iff.mp (pairs.symm.trans cut)
    obtain ⟨⟨k,kid⟩,after,rfl,rfl,_⟩ := List.map_eq_cons_iff.mp behind
    obtain ⟨child,childThere,_⟩ := body_found (holds_body (own.2 (k,kid) (by simp)))
    have lower : Shaped proper order s (plug (.up page before k after path) kid) := shaped
    obtain ⟨deeper,leaf,run,same⟩ := ih lower (by omega : h < h + 1 + rounds)
    refine ⟨deeper,leaf,?_,same⟩
    rw [findLeafFrom,bind_ok (read_run there),inner,lookup]
    exact (bind_ok (fetch_run childThere)).trans run

theorem Shaped.search (cmp : κ → κ → Int) (key : κ) (three : 3 ≤ order) (shaped : Shaped proper order s r) :
    ∃ (path : IxPath κ 0) (leaf : IxTree κ 0), findLeafPage store cmp key s = (.ok leaf.page,s) ∧ plug path leaf = r := by
  obtain ⟨root,rootThere,_⟩ := body_found (holds_body shaped.holds)
  have whole : Shaped proper order s (plug .top r.tree) := shaped
  obtain ⟨path,leaf,run,same⟩ := findLeafFrom_shaped cmp key three whole (shaped.height_lt three)
  refine ⟨path,leaf,?_,same⟩
  rw [findLeafPage,bind_ok hdr_run,bind_ok IndexFile.pageCount_run,shaped.root,bind_ok (fetch_run rootThere)]
  exact run

theorem findLeafFrom_path (ranked : Ranked cmp rank proper) {key : κ} (searched : proper key) {path : IxPath κ h}
    {t : IxTree κ h} (reached : Reached rank key path) (balanced : Balanced rank proper order s (plug path t)) (rounds : Nat) :
    findLeafFrom store cmp key (rounds + path.depth) (plug path t).tree.page s =
      findLeafFrom store cmp key rounds t.page s := by
  induction path generalizing rounds with
  | top => rfl
  | up page before k after rest ih =>
    have routed := ((plug_routed _ t).mp balanced.routed).1
    obtain ⟨small,large⟩ := reached.labels routed t
    obtain ⟨around,here⟩ := (holds_plug (.up page before k after rest) t).mp balanced.holds
    obtain ⟨node,there,inner,_,pairs⟩ := body_found around.1
    obtain ⟨child,childThere,_⟩ := body_found (holds_body here)
    have held : ∀ e ∈ node.pairs, proper e.1 := by
      have keys := ((plug_allKeys rest _).mp balanced.keys).2
      have pointed : node.pairs = pointers (before ++ (k,t) :: after) := by rw [pairs,pointers_append]; rfl
      rw [pointed]
      exact forall_pointers keys.items
    have lookup : node.internalLookup cmp key = some t.page := by
      refine lookup_pointers (ranked.agrees searched held) ?_ small large
      rw [pairs,pointers_append]; rfl
    have upper := ih (reached.outer routed) balanced (rounds + 1)
    have depth : rounds + (Path.up page before k after rest).depth = rounds + 1 + rest.depth := by
      simp only [Path.depth]; omega
    rw [depth,plug,upper,findLeafFrom,bind_ok (read_run there),inner,lookup]
    exact bind_ok (fetch_run childThere)

theorem findLeafPage_path (ranked : Ranked cmp rank proper) (three : 3 ≤ order) {key : κ} (searched : proper key)
    {path : IxPath κ 0} {leaf : IxTree κ 0} (reached : Reached rank key path)
    (balanced : Balanced rank proper order s (plug path leaf)) :
    findLeafPage store cmp key s = (.ok leaf.page,s) := by
  obtain ⟨root,rootThere,_⟩ := body_found (holds_body balanced.holds)
  obtain ⟨node,there,isLeaf,_⟩ := body_found ((holds_plug path leaf).mp balanced.holds).2
  have deep := balanced.shaped.height_lt three
  rw [plug_height] at deep
  obtain ⟨rounds,more⟩ : ∃ rounds, s.nextPage = rounds + 1 + path.depth := ⟨s.nextPage - path.depth - 1,by omega⟩
  rw [findLeafPage,bind_ok hdr_run,bind_ok IndexFile.pageCount_run,balanced.root,bind_ok (fetch_run rootThere),more,
    findLeafFrom_path ranked searched reached balanced,
    findLeafFrom,bind_ok (read_run there),isLeaf]
  rfl

theorem findLeafPage_reached (ranked : Ranked cmp rank proper) (three : 3 ≤ order)
    (balanced : Balanced rank proper order s r) {key : κ} (searched : proper key) :
    ∃ (path : IxPath κ 0) (leaf : IxTree κ 0), findLeafPage store cmp key s = (.ok leaf.page,s) ∧
      plug path leaf = r ∧ Reached rank key path := by
  obtain ⟨path,leaf,same,reached⟩ := exists_reached (by omega : 1 ≤ (order + 1) / 2)
    (reached_top key : Reached rank key (.top : IxPath κ r.height)) balanced.routed balanced.sized
  obtain rfl : plug path leaf = r := same
  exact ⟨path,leaf,findLeafPage_path ranked three searched reached balanced,rfl,reached⟩
section Leaf

variable {path : IxPath κ 0} {leaf : IxTree κ 0} {key : κ} (balanced : Balanced rank proper order s (plug path leaf))

include balanced

theorem Balanced.leaf_keys : ∀ e ∈ leaf.items, proper e.1 := ((plug_allKeys path leaf).mp balanced.keys).2

theorem Balanced.at_leaf : s.body leaf.page = some (true,above path,leaf.items) ∧ path.Routed rank ∧
    Routed rank 0 (path.low rank) leaf (path.high rank) :=
  ⟨((holds_plug path leaf).mp balanced.holds).2,(plug_routed path leaf).mp balanced.routed⟩

theorem Balanced.left (reached : Reached rank key path) : AllBelow rank key path.entriesLeft := fun e member => by
  obtain ⟨b,bound,less⟩ := left_below balanced.at_leaf.2.1 e member
  exact lt_of_lt_of_le less (reached.least b bound)

theorem Balanced.right (reached : Reached rank key path) : AllAbove rank key path.entriesRight := fun e member => by
  obtain ⟨b,bound,least⟩ := right_above balanced.at_leaf.2.1 e member
  exact lt_of_lt_of_le (reached.less b bound) least

theorem Balanced.place (reached : Reached rank key path) :
    (∃ low k value high, leaf.items = low ++ (k,value) :: high ∧ AllBelow rank key low ∧ rank k = rank key ∧
      lookup rank (plug path leaf).entries key = some value) ∨
    ∃ low high, leaf.items = low ++ high ∧ AllBelow rank key low ∧ AllAbove rank key high ∧
      lookup rank (plug path leaf).entries key = none := by
  obtain ⟨_,_,_,sorted,_⟩ := balanced.at_leaf
  have whole : (plug path leaf).entries = path.entriesLeft ++ leaf.items ++ path.entriesRight := plug_entries path leaf
  rcases sorted_place sorted key with ⟨low,k,value,high,items,below,same⟩ | ⟨low,high,items,below,above⟩
  · have left : AllBelow rank key (path.entriesLeft ++ low) :=
      List.forall_mem_append.mpr ⟨balanced.left reached,below⟩
    refine .inl ⟨low,k,value,high,items,below,same,?_⟩
    rw [whole,items]
    simpa using lookup_present left same
  · have left : AllBelow rank key (path.entriesLeft ++ low) :=
      List.forall_mem_append.mpr ⟨balanced.left reached,below⟩
    have right : AllAbove rank key (high ++ path.entriesRight) :=
      List.forall_mem_append.mpr ⟨above,balanced.right reached⟩
    refine .inr ⟨low,high,items,below,above,?_⟩
    rw [whole,items]
    simpa using lookup_absent left right

end Leaf

theorem Balanced.getValue (ranked : Ranked cmp rank proper) (three : 3 ≤ order)
    (balanced : Balanced rank proper order s r) {key : κ} (searched : proper key) :
    getValue store cmp key s = (.ok (lookup rank r.entries key),s) := by
  obtain ⟨path,leaf,run,rfl,reached⟩ := findLeafPage_reached ranked three balanced searched
  obtain ⟨found,_,_,sorted,_⟩ := balanced.at_leaf
  obtain ⟨node,there,_,_,pairs⟩ := body_found found
  have agrees := ranked.agrees searched (pairs ▸ balanced.leaf_keys)
  have answer : node.leafLookup cmp key = lookup rank (plug path leaf).entries key := by
    rcases balanced.place reached with ⟨low,k,value,high,items,below,same,hit⟩ | ⟨low,high,items,below,above,missing⟩
    · rw [hit,agrees.leafLookup_present below (pairs.trans items) same (pairs ▸ sorted)]
    · rw [missing,agrees.leafLookup_absent below (pairs.trans items) above]
  rw [IxIndexHandle.getValue,bind_ok run,bind_ok (read_run there),← answer]
  rfl
section Insert

variable {path : IxPath κ 0} {leaf : IxTree κ 0}

theorem Housed.refill (housed : Housed proper order s (plug path leaf)) {node : IxNode κ} {items : List (κ × Rid)}
    (isLeaf : node.isLeaf = true) (parent : node.parent = above path) (pairs : node.pairs = items)
    (links : (s.put leaf.page node).links = s.links) (keys : ∀ e ∈ items, proper e.1) :
    Housed proper order (s.put leaf.page node) (plug path ⟨leaf.page,items⟩) := by
  obtain ⟨around,_⟩ := (holds_plug path leaf).mp housed.holds
  have samePages := (plug_pages path leaf).trans (plug_pages path (⟨leaf.page,items⟩ : IxTree κ 0)).symm
  have sameLeaves : leafPages (plug path ⟨leaf.page,items⟩) = leafPages (plug path leaf) := by
    rw [leafPages_plug,leafPages_plug]
  have apart : leaf.page ∉ path.around := fun member =>
    (List.nodup_append.mp housed.around_distinct).2.2 _ member _ (List.mem_singleton_self _) rfl
  constructor
  · refine (holds_plug path _).mpr ⟨around.congr fun p inside => ?_,?_⟩
    · rw [body_put,Function.update_of_ne (ne_of_mem_of_not_mem inside apart)]
    · rw [Holds,body_put,Function.update_self,isLeaf,parent,pairs]
  · exact housed.root.trans ((plug_page path leaf).trans (plug_page path (⟨leaf.page,items⟩ : IxTree κ 0)).symm)
  · exact housed.ordered
  · exact (plug_allKeys path _).mpr ⟨((plug_allKeys path leaf).mp housed.keys).1,keys⟩
  · exact samePages.nodup_iff.mp housed.distinct
  · exact fun p inside => housed.old p (samePages.mem_iff.mpr inside)
  · rw [links,sameLeaves]
    exact housed.chain
  · exact sameLeaves ▸ housed.firstLeaf
  · exact sameLeaves ▸ housed.lastLeaf

theorem Shaped.shallow (three : 3 ≤ order) (shaped : Shaped proper order s (plug path leaf)) :
    path.depth < s.nextPage := by
  have deep := shaped.height_lt three
  rw [plug_height] at deep
  omega

theorem nodePairs_length (t : IxTree κ h) : (nodePairs h t).length = t.items.length := by
  cases h with
  | zero => rfl
  | succ h => exact List.length_map _

theorem Housed.node_found {path : IxPath κ h} {t : IxTree κ h} (housed : Housed proper order s (plug path t)) :
    ∃ node, s.pages t.page = some node ∧ node.isLeaf = decide (h = 0) ∧ node.parent = above path ∧
      node.pairs = nodePairs h t ∧ node.size = t.items.length := by
  obtain ⟨node,there,leaf,parent,pairs⟩ := body_found (holds_body ((holds_plug path t).mp housed.holds).2)
  exact ⟨node,there,leaf,parent,pairs,by rw [IxNode.size,pairs,nodePairs_length]⟩

theorem Housed.setPairs {path : IxPath κ 0} {leaf : IxTree κ 0} (housed : Housed proper order s (plug path leaf))
    {node : IxNode κ} {items : List (κ × Rid)} (there : s.pages leaf.page = some node) (keys : ∀ e ∈ items, proper e.1) :
    Housed proper order (s.put leaf.page { node with pairs := items }) (plug path ⟨leaf.page,items⟩) := by
  obtain ⟨found,same,isLeaf,parent,_⟩ := housed.node_found
  obtain rfl := Option.mem_unique same there
  have links : (s.put leaf.page { found with pairs := items }).links = s.links := IndexFile.links_kept there rfl rfl
  refine Housed.refill housed ?_ ?_ rfl links keys
  · exact isLeaf
  · exact parent

/-- The tree `r'` has the entries of `r`, and leads a search if `r` does. -/
structure Continues (r r' : IxRoot κ) : Prop where
  entries : r'.entries = r.entries
  routed : ∀ {L : Type} [LinearOrder L] {rank : κ → L}, r.Routed rank → r'.Routed rank

/-- The labels of the tree are the first keys below them, but on the leftmost branch. -/
def Labelled (order : Nat) (path : IxPath κ 0) (leaf : IxTree κ 0) : Prop :=
  path.Sound ((order + 1) / 2) order ∧ (path.leftmost = false → firstKey leaf = path.label)

theorem Housed.splitLeaf_shaped (three : 3 ≤ order) (housed : Housed proper order s (plug path leaf))
    (shallow : path.depth < s.nextPage) (sized : path.Sized ((order + 1) / 2) order)
    (full : leaf.items.length = order + 1) :
    ∃ s' r', splitLeaf store leaf.page s = (.ok (),s') ∧ Shaped proper order s' r' ∧ Continues (plug path leaf) r' ∧
      (Labelled order path leaf → r'.Sound ((order + 1) / 2) order) := by
  obtain ⟨s',first,named,run,again⟩ := housed.splitLeaf_run full three shallow
  obtain ⟨value,rest,cut⟩ := firstKey_split named
  replace cut : leaf.items.drop (leaf.items.length / 2) = (first,value) :: rest := cut
  have someLower : leaf.items.take (leaf.items.length / 2) ≠ [] := by
    rw [← List.length_pos_iff,List.length_take]; omega
  have whole : leaf.items = leaf.items.take (leaf.items.length / 2) ++ (first,value) :: rest := by
    rw [← cut]
    exact (List.take_append_drop ..).symm
  refine ⟨s',_,run,{ again with sized := ?_ },⟨regrown_entries first,fun {_ _ rank} routed => ?_⟩,fun ⟨upper,label⟩ => ?_⟩
  · apply graft_sized (Nat.le_refl _) (by omega) path _ sized
    · exact ⟨by rw [List.length_take]; omega,by rw [List.length_take]; omega⟩
    · exact ⟨by rw [List.length_drop]; omega,by rw [List.length_drop]; omega⟩
  · obtain ⟨way,range⟩ := (plug_routed path leaf).mp routed
    have parts : Routed rank 0 (path.low rank)
        (⟨leaf.page,leaf.items.take (leaf.items.length / 2) ++ (first,value) :: rest⟩ : IxTree κ 0) (path.high rank) := by
      rw [← whole]
      exact range
    obtain ⟨lower,upper⟩ := leaf_cut (s.nextPage : Int) parts someLower
    refine graft_routed path _ way lower ?_
    rw [upperHalf,cut]
    exact upper
  · apply graft_sound (Nat.le_refl _) (by omega) path _ upper
    · refine ⟨fun edge => ?_,?_,?_,trivial⟩
      · rw [firstKey_take _ (by omega)]
        exact label edge
      · rw [List.length_take]; omega
      · rw [List.length_take]; omega
    · refine ⟨fun _ => named,?_,?_,trivial⟩
      all_goals rw [List.length_drop]; omega

section Found

variable {node : IxNode κ} {key : κ} {low high : List (κ × Rid)}
  (found : findLeafPage store cmp key s = (.ok leaf.page,s)) (there : s.pages leaf.page = some node)

include found there

theorem insertEntry_known (value : Rid) (known : node.insertPos cmp key = none) :
    insertEntry store cmp key value s = (.ok false,s) := by
  have stays : IxIndexHandle.insert store cmp leaf.page key value s = (.ok node.size,s) := by
    rw [IxIndexHandle.insert,bind_ok (read_run there),known]
    exact bind_ok (read_run there)
  rw [insertEntry,bind_ok found,bind_ok (read_run there),bind_ok stays,if_pos rfl]
  rfl

/-- `insert_entry` puts the pair where the search in the leaf ended, and may split the leaf. -/
theorem Shaped.inserted (shaped : Shaped proper order s (plug path leaf)) (given : proper key) (value : Rid)
    (items : leaf.items = low ++ high) (position : node.insertPos cmp key = some low.length) :
    Housed proper order (s.put leaf.page { node with pairs := low ++ (key,value) :: high })
      (plug path ⟨leaf.page,low ++ (key,value) :: high⟩) ∧ insertEntry store cmp key value s = (do
      if leaf.items.length = order then splitLeaf store leaf.page else pure ()
      pure true : Prog (IndexFile κ) RMDBError Bool) (s.put leaf.page { node with pairs := low ++ (key,value) :: high }) := by
  obtain ⟨other,same,_,_,pairs,size⟩ := shaped.toHoused.node_found
  obtain rfl : node = other := Option.mem_unique there same
  replace pairs : node.pairs = low ++ high := pairs.trans items
  have filled : node.insertPairs low.length [(key,value)] = { node with pairs := low ++ (key,value) :: high } := by
    simp [IxNode.insertPairs,pairs]
  have kept := ((plug_allKeys path leaf).mp shaped.keys).2.items
  rw [items] at kept
  obtain ⟨lowKeys,highKeys⟩ := List.forall_mem_append.mp kept
  have keys : ∀ e ∈ low ++ (key,value) :: high, proper e.1 :=
    List.forall_mem_append.mpr ⟨lowKeys,List.forall_mem_cons.mpr ⟨given,highKeys⟩⟩
  have inside : low.length ≤ node.size := by simp [IxNode.size,pairs]
  have adds : IxIndexHandle.insert store cmp leaf.page key value s =
      (.ok (node.size + 1),s.put leaf.page { node with pairs := low ++ (key,value) :: high }) := by
    rw [IxIndexHandle.insert,bind_ok (read_run there),position]
    refine (bind_ok (IndexFile.insertPairs_run there inside _)).trans ?_
    rw [filled]
    refine (bind_ok (read_run IndexFile.put_same)).trans ?_
    simp [IxNode.size,pairs,Nat.add_assoc]
  have limit : ((node.size + 1 : Nat) : Int) = s.hdr.maxSize ↔ leaf.items.length = order := by
    rw [IxFileHdr.maxSize,shaped.ordered,size]
    omega
  refine ⟨shaped.toHoused.setPairs there keys,?_⟩
  rw [IxIndexHandle.insertEntry,bind_ok found,bind_ok (read_run there),bind_ok adds,if_neg (Nat.succ_ne_self _),
    bind_ok hdr_run,IndexFile.put_hdr]
  simp only [limit]
  rfl

theorem Shaped.insertEntry (three : 3 ≤ order) (shaped : Shaped proper order s (plug path leaf)) (given : proper key) (value : Rid)
    (items : leaf.items = low ++ high) (position : node.insertPos cmp key = some low.length) :
    ∃ s' r', insertEntry store cmp key value s = (.ok true,s') ∧ Shaped proper order s' r' ∧
      Continues (plug path ⟨leaf.page,low ++ (key,value) :: high⟩) r' ∧
      (Labelled order path ⟨leaf.page,low ++ (key,value) :: high⟩ → r'.Sound ((order + 1) / 2) order) := by
  obtain ⟨housed,start⟩ := shaped.inserted found there given value items position
  obtain ⟨sizes,few,many⟩ := (plug_sized path leaf).mp shaped.sized
  have length : leaf.items.length = low.length + high.length := by rw [items,List.length_append]
  rw [start]
  by_cases full : leaf.items.length = order
  · have shallow := shaped.shallow three
    obtain ⟨s',r',onward,again,same⟩ := housed.splitLeaf_shaped three shallow sizes (by simp; omega)
    refine ⟨s',r',?_,again,same⟩
    rw [if_pos full]
    exact (bind_ok onward).trans rfl
  · have sized : Sized ((order + 1) / 2) order (path.least ((order + 1) / 2)) 0
        (⟨leaf.page,low ++ (key,value) :: high⟩ : IxTree κ 0) := ⟨by simp; omega,by simp; omega⟩
    refine ⟨_,_,?_,{ housed with sized := (plug_sized path _).mpr ⟨sizes,sized⟩ },⟨rfl,fun routed => routed⟩,
      fun ⟨upper,label⟩ => (plug_sound path _).mpr ⟨upper,label,sized.1,sized.2,trivial⟩⟩
    rw [if_neg full]
    rfl

end Found

end Insert

theorem firstKey_insert {path : IxPath κ 0} {leaf : IxTree κ 0} {key : κ} {low high : List (κ × Rid)}
    (reached : Reached rank key path) {lo hi : Nat} (upper : path.Sound lo hi)
    (label : path.leftmost = false → firstKey leaf = path.label) (items : leaf.items = low ++ high)
    (above : AllAbove rank key high) (value : Rid) (edge : path.leftmost = false) :
    firstKey (⟨leaf.page,low ++ (key,value) :: high⟩ : IxTree κ 0) = path.label := by
  have named := label edge
  rw [← named]
  cases low with
  | cons e low => simp [firstKey,items]
  | nil =>
    cases path with
    | top => cases edge
    | up page before k after rest =>
      -- the leaf has a first key, at most the new one, while all its keys are larger
      obtain ⟨first,more,cut⟩ := firstKey_split named
      have small := reached.least (rank k) (by rw [low_label upper edge]; rfl)
      have same : high = (k,first) :: more := items.symm.trans cut
      exact absurd (above (k,first) (same ▸ List.mem_cons_self)) (not_lt.mpr small)

section InsertEntry

variable (ranked : Ranked cmp rank proper) (three : 3 ≤ order) {key : κ} (searched : proper key) (value : Rid)

include ranked three searched

theorem Balanced.insertEntry_present (balanced : Balanced rank proper order s r)
    (present : (lookup rank r.entries key).isSome) :
    insertEntry store cmp key value s = (.ok false,s) := by
  obtain ⟨path,leaf,run,rfl,reached⟩ := findLeafPage_reached ranked three balanced searched
  obtain ⟨found,_,_,sorted,_⟩ := balanced.at_leaf
  obtain ⟨node,there,_,_,pairs⟩ := body_found found
  have agrees := ranked.agrees searched (pairs ▸ balanced.leaf_keys)
  rcases balanced.place reached with ⟨low,k,old,high,items,below,same,_⟩ | ⟨_,_,_,_,_,missing⟩
  · exact insertEntry_known run there value (agrees.insertPos_present below (pairs.trans items) same (pairs ▸ sorted))
  · simp [missing] at present

theorem Balanced.insertEntry_absent (balanced : Balanced rank proper order s r)
    (absent : lookup rank r.entries key = none) :
    ∃ s' r' left right, insertEntry store cmp key value s = (.ok true,s') ∧ Balanced rank proper order s' r' ∧
      r.entries = left ++ right ∧ r'.entries = left ++ (key,value) :: right ∧ AllBelow rank key left ∧
      (r.Sound ((order + 1) / 2) order → r'.Sound ((order + 1) / 2) order) := by
  obtain ⟨path,leaf,run,rfl,reached⟩ := findLeafPage_reached ranked three balanced searched
  obtain ⟨found,way,room,sorted,bounds⟩ := balanced.at_leaf
  obtain ⟨node,there,_,_,pairs⟩ := body_found found
  have agrees := ranked.agrees searched (pairs ▸ balanced.leaf_keys)
  rcases balanced.place reached with ⟨_,_,_,_,_,_,_,hit⟩ | ⟨low,high,items,below,above,_⟩
  · simp [hit] at absent
  have position := agrees.insertPos_absent below (pairs.trans items) above
  obtain ⟨s',r',inserted,again,onward,labels⟩ := balanced.shaped.insertEntry run there three searched value items position
  rw [items] at sorted bounds
  have range : Routed rank 0 (path.low rank) (⟨leaf.page,low ++ (key,value) :: high⟩ : IxTree κ 0) (path.high rank) := by
    have sides := List.forall_mem_append.mp bounds
    exact ⟨room,sorted_insert value sorted below above,List.forall_mem_append.mpr ⟨sides.1,
      List.forall_mem_cons.mpr ⟨⟨reached.least,reached.less⟩,sides.2⟩⟩⟩
  refine ⟨s',r',path.entriesLeft ++ low,high ++ path.entriesRight,inserted,
    again.balanced (onward.routed ((plug_routed path _).mpr ⟨way,range⟩)),?_,onward.entries.trans ?_,
    List.forall_mem_append.mpr ⟨balanced.left reached,below⟩,fun sound => labels ?_⟩
  · rw [plug_entries]
    simp [entries,collect,items]
  · rw [plug_entries]
    simp [entries,collect]
  · obtain ⟨upper,label,_⟩ := (plug_sound path leaf).mp sound
    exact ⟨upper,fun edge => firstKey_insert reached upper label items above value edge⟩

theorem Indexed.insertEntry_absent (indexed : Indexed rank proper order s r) (absent : lookup rank r.entries key = none) :
    ∃ s' r' left right, insertEntry store cmp key value s = (.ok true,s') ∧ Indexed rank proper order s' r' ∧
      r.entries = left ++ right ∧ r'.entries = left ++ (key,value) :: right ∧ AllBelow rank key left := by
  obtain ⟨s',r',left,right,run,again,before,after,below,sound⟩ :=
    indexed.balanced.insertEntry_absent ranked three searched value absent
  exact ⟨s',r',left,right,run,{ again with sound := sound indexed.sound, sorted := again.sorted },before,after,below⟩

end InsertEntry

end Rucbase.IndexTree
