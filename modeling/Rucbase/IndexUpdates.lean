import Rucbase.IndexCalls
import Rucbase.IndexShape

/-! Runs of `insert_entry` and `delete_entry`: what a deletion makes of the entries and of the
tree, and what is left of an index whose last key was deleted. -/
namespace Rucbase.IndexTree

open Lib Lib.BTree IxIndexHandle Prog
open IndexFile (hdr_run put_same read_run store)

variable {κ L : Type} [LinearOrder L]

/-- The pages form a B+ tree, with leaves at one depth: every node names the node above it, the
root none, the leaf list is closed, and every node is filled as its place demands. -/
structure Formed (s : IndexFile κ) (r : IxRoot κ) : Prop where
  holds : Holds s.body r.height invalidPageId r.tree
  root : s.hdr.rootPage = r.tree.page
  distinct : r.pages.Nodup
  filled : Filled s.hdr.minSize s.hdr.btreeOrder (if r.height = 0 then 0 else 2) r.height r.tree
  ring : Chained s.links ixLeafHeaderPage (leafPages r ++ [ixLeafHeaderPage])
  firstLeaf : (leafPages r).head? = some s.hdr.firstLeaf
  lastLeaf : (leafPages r).getLast? = some s.hdr.lastLeaf

theorem filled_of_sized {lo hi least h : Nat} {t : IxTree κ h} (sized : Sized lo hi least h t) :
    Filled lo hi least h t := by
  induction h generalizing least with
  | zero => exact ⟨Int.ofNat_le.mpr sized.1,Int.ofNat_le.mpr sized.2⟩
  | succ h ih =>
    exact ⟨⟨Int.ofNat_le.mpr sized.1.1,Int.ofNat_le.mpr sized.1.2⟩,fun kid member => ih (sized.2 kid member)⟩

theorem Balanced.formed {rank : κ → L} {proper : κ → Prop} {order : Nat} {s : IndexFile κ} {r : IxRoot κ}
    (balanced : Balanced rank proper order s r) : Formed s r where
  holds := balanced.holds
  root := balanced.root
  distinct := balanced.distinct
  filled := by
    have least : (if r.height = 0 then (0 : Int) else 2) = ((if r.height = 0 then 0 else 2 : Nat) : Int) := by split <;> rfl
    rw [balanced.minSize,balanced.ordered,least]
    exact filled_of_sized balanced.sized
  ring := balanced.chain
  firstLeaf := balanced.firstLeaf
  lastLeaf := balanced.lastLeaf

/-- What a fresh index does: nothing is found, a scan yields nothing, and a key that is inserted is
found. -/
structure Usable (cmp : κ → κ → Int) (s : IndexFile κ) : Prop where
  getValue : ∀ key, (getValue store cmp key s).1 = .ok none
  scan : ∀ count, (scanAll store count s).1 = .ok []
  insert : ∀ key value, ∃ s', insertEntry store cmp key value s = (.ok true,s') ∧
    (IxIndexHandle.getValue store cmp key s').1 = .ok (some value)

section Fresh

variable {cmp : κ → κ → Int} {order : Nat} {s : IndexFile κ}

theorem search_leaf (cmp : κ → κ → Int) {node : IxNode κ} (root : s.hdr.rootPage = ixInitRootPage) (there : s.pages ixInitRootPage = some node)
    (leaf : node.isLeaf = true) (some : 0 < s.nextPage) (key : κ) :
    findLeafPage store cmp key s = (.ok ixInitRootPage,s) := by
  obtain ⟨rounds,more⟩ := Nat.exists_eq_succ_of_ne_zero some.ne'
  rw [findLeafPage,bind_ok hdr_run,bind_ok IndexFile.pageCount_run,root,bind_ok (IndexFile.fetch_run there),more,
    findLeafFrom,bind_ok (read_run there),leaf]
  rfl

variable (page0 : IxNode κ) (cols : List ColMeta)

theorem created_search (key : κ) : findLeafPage store cmp key (created page0 (createdHdr cols order)) =
    (.ok ixInitRootPage,created page0 (createdHdr cols order)) :=
  search_leaf cmp rfl rfl rfl (Nat.succ_pos 2) key

theorem created_delete [DecidableEq κ] (key : κ) : deleteEntry store cmp key (created page0 (createdHdr cols order)) =
    (.ok false,created page0 (createdHdr cols order)) := by
  have found : findLeafPage store cmp key (created page0 (createdHdr cols order)) =
    (.ok (⟨ixInitRootPage,[]⟩ : IxTree κ 0).page,created page0 (createdHdr cols order)) := created_search page0 cols key
  exact deleteEntry_missing found rfl rfl

theorem created_insert (three : 3 ≤ order) (key : κ) (value : Rid) :
    insertEntry store cmp key value (created page0 (createdHdr cols order)) =
      (.ok true,(created page0 (createdHdr cols order)).put ixInitRootPage (initRootNode.insertPairs 0 [(key,value)])) := by
  have there : (created page0 (createdHdr cols order)).pages ixInitRootPage = some initRootNode := rfl
  have adds : IxIndexHandle.insert store cmp ixInitRootPage key value (created page0 (createdHdr cols order)) =
      (.ok 1,(created page0 (createdHdr cols order)).put ixInitRootPage (initRootNode.insertPairs 0 [(key,value)])) := rfl
  have added : 1 ≠ (initRootNode : IxNode κ).size := Nat.succ_ne_zero 0
  have room : ((1 : Nat) : Int) ≠ (createdHdr cols order).maxSize := by
    simp only [createdHdr,IxFileHdr.maxSize]
    omega
  rw [insertEntry,bind_ok (created_search page0 cols key),bind_ok (read_run there),bind_ok adds,if_neg added,
    bind_ok hdr_run]
  have go : (IndexFile.put ixInitRootPage (initRootNode.insertPairs 0 [(key,value)])
    (created page0 (createdHdr cols order))).hdr = createdHdr cols order := rfl
  rw [go,if_neg room]
  rfl

theorem created_usable (three : 3 ≤ order) (reflexive : ∀ key, cmp key key = 0) :
    Usable cmp (created page0 (createdHdr cols order)) where
  getValue key := by
    rw [getValue,bind_ok (created_search page0 cols key)]
    rfl
  scan count := by
    cases count <;> rfl
  insert key value := by
    refine ⟨_,created_insert page0 cols three key value,?_⟩
    have found : (initRootNode.insertPairs 0 [(key,value)]).leafLookup cmp key = some value := by
      simp [IxNode.leafLookup,IxNode.lowerBound,IxNode.insertPairs,IxNode.size,initRootNode,bisect,bisectLoop,reflexive]
    have way := search_leaf cmp (s := (created page0 (createdHdr cols order)).put ixInitRootPage
      (initRootNode.insertPairs 0 [(key,value)])) rfl put_same rfl (Nat.succ_pos 2) key
    rw [getValue,bind_ok way,bind_ok (read_run put_same),found]
    rfl

end Fresh

/-- The root is a leaf without pairs: `adjust_root` takes it away. -/
def Call.vacant (c : Call κ) : Bool :=
  (c.file.pages c.page).any fun node => node.parent = invalidPageId && node.isLeaf && node.size = 0

/-- An inner node that is not the root has fewer than `get_min_size` children. -/
def Call.starved (c : Call κ) : Bool :=
  (c.file.pages c.page).any fun node =>
    node.parent ≠ invalidPageId && !node.isLeaf && node.size < c.file.hdr.minSize

section Limits

variable {proper : κ → Prop} {order : Nat} {s : IndexFile κ}

theorem Housed.vacant {t : IxTree κ 0} (housed : Housed proper order s (plug .top t)) (none : t.items = []) (rounds : Nat) :
    (⟨rounds,t.page,s⟩ : Call κ).vacant = true := by
  obtain ⟨node,there,isLeaf,parent,_,size⟩ := housed.node_found
  simp [Call.vacant,there,isLeaf,parent,above,size,none]

theorem Housed.starved {h : Nat} {path : IxPath κ (h + 1)} {t : IxTree κ (h + 1)} (housed : Housed proper order s (plug path t))
    (inner : path ≠ .top) (few : t.items.length < (order + 1) / 2) (rounds : Nat) :
    (⟨rounds,t.page,s⟩ : Call κ).starved = true := by
  obtain ⟨node,there,isLeaf,parent,_,size⟩ := housed.node_found
  have notRoot : node.parent ≠ invalidPageId := by
    rw [parent]
    cases path with
    | top => exact absurd rfl inner
    | up => exact housed.parent_valid
  simp [Call.starved,there,isLeaf,notRoot,housed.minSize,size]
  omega

end Limits

variable [DecidableEq κ]

/-- The operation does not empty the tree, and no inner node but the root falls below
`get_min_size` children. -/
def IxOp.Respects (cmp : κ → κ → Int) (s : IndexFile κ) : IxOp κ → Prop
  | .insert _ _ => True
  | .delete key => ∀ c ∈ deletionCalls cmp key s, c.vacant = false ∧ c.starved = false

instance (cmp : κ → κ → Int) (s : IndexFile κ) : (op : IxOp κ) → Decidable (op.Respects cmp s)
  | .insert _ _ => isTrue trivial
  | .delete key => inferInstanceAs (Decidable (∀ c ∈ deletionCalls cmp key s, _))

def IxOp.key : IxOp κ → κ
  | .insert key _ => key
  | .delete key => key

section Respects

variable {cmp : κ → κ → Int} {proper : κ → Prop} {order : Nat} {s : IndexFile κ} {key : κ} {path : IxPath κ 0}
  {leaf : IxTree κ 0} {node : IxNode κ} {low high : List (κ × Rid)} {e : κ × Rid}

/-- A deletion within the limits leaves every inner node its children, and the root leaf a pair. -/
theorem Shaped.respects (shaped : Shaped proper order s (plug path leaf))
    (found : findLeafPage store cmp key s = (.ok leaf.page,s)) (there : s.pages leaf.page = some node)
    (items : leaf.items = low ++ e :: high) (position : node.removePos cmp key = some low.length)
    (respects : (IxOp.delete key).Respects cmp s) :
    Spared order path leaf ∧ (path = .top → low ++ high ≠ []) := by
  obtain ⟨housed,_⟩ := shaped.without found there items position
  obtain ⟨_,same,_,_,pairs,_⟩ := shaped.toHoused.node_found
  obtain rfl : node = _ := Option.mem_unique there same
  have old := shaped.toHoused.around_old leaf.page (by simp)
  obtain ⟨rounds,enough⟩ : ∃ rounds, s.nextPage = rounds + 2 := ⟨s.nextPage - 2,by omega⟩
  have limits : ∀ c ∈ calls (rounds + 2) leaf.page (s.put leaf.page { node with pairs := low ++ high }),
      c.vacant = false ∧ c.starved = false := by
    have made : deletionCalls cmp key s = calls s.nextPage leaf.page (s.put leaf.page { node with pairs := low ++ high }) := by
      rw [deletionCalls,removal_found found there (pairs.trans items) position]
      rfl
    rw [← enough,← made]
    exact respects
  constructor
  · cases path with
    | top => trivial
    | up page before k after rest =>
      intro inner full kid next kidFull
      by_contra few
      have count : (low ++ high).length + 1 = leaf.items.length := by rw [items]; simp; omega
      obtain ⟨s',t,again,size,more⟩ := housed.calls_merge (rounds + 1) next (by dsimp only; omega) (by dsimp only; omega)
      have called : ⟨rounds + 1,t.page,s'⟩ ∈ calls (rounds + 2) leaf.page (s.put leaf.page { node with pairs := low ++ high }) := by
        rw [more,calls]
        simp
      exact absurd ((limits _ called).2.symm.trans (again.starved inner (by omega) _)) Bool.false_ne_true
  · rintro rfl none
    have called : ⟨rounds + 2,leaf.page,s.put leaf.page { node with pairs := low ++ high }⟩ ∈
        calls (rounds + 2) leaf.page (s.put leaf.page { node with pairs := low ++ high }) := by
      rw [calls]
      exact List.mem_cons_self
    exact absurd ((limits _ called).1.symm.trans (housed.vacant none _)) Bool.false_ne_true

end Respects

section Balanced

variable {cmp : κ → κ → Int} {rank : κ → L} {proper : κ → Prop} {order : Nat} {s : IndexFile κ} {r : IxRoot κ}
  (ranked : Ranked cmp rank proper) (three : 3 ≤ order)

include ranked three

section Deleting

variable (balanced : Balanced rank proper order s r)

include balanced

theorem Balanced.delete_search {key : κ} (searched : proper key) :
    (∃ (path : IxPath κ 0) (leaf : IxTree κ 0) (node : IxNode κ) (low : List (κ × Rid)) (k : κ) (value : Rid) (high : List (κ × Rid)),
      plug path leaf = r ∧ Reached rank key path ∧ findLeafPage store cmp key s = (.ok leaf.page,s) ∧
      s.pages leaf.page = some node ∧ leaf.items = low ++ (k,value) :: high ∧ AllBelow rank key low ∧ rank k = rank key ∧
      node.removePos cmp key = some low.length ∧ lookup rank r.entries key = some value ∧
      r.entries.filter (fun e => rank e.1 ≠ rank key) = path.entriesLeft ++ (low ++ high) ++ path.entriesRight) ∨
    deleteEntry store cmp key s = (.ok false,s) ∧ lookup rank r.entries key = none ∧
      r.entries.filter (fun e => rank e.1 ≠ rank key) = r.entries := by
  obtain ⟨path,leaf,run,rfl,reached⟩ := findLeafPage_reached ranked three balanced searched
  rcases balanced.place reached with ⟨low,k,value,high,items,below,same,hit⟩ | ⟨_,_,_,_,_,missing⟩
  · obtain ⟨found,_,_,sorted,_⟩ := balanced.at_leaf
    obtain ⟨node,there,_,_,pairs⟩ := IndexFile.body_found found
    have agrees := ranked.agrees searched (pairs ▸ balanced.leaf_keys)
    have position := agrees.removePos_present below (pairs.trans items) same (pairs ▸ sorted)
    refine .inl ⟨path,leaf,node,low,k,value,high,rfl,reached,run,there,items,below,same,position,hit,?_⟩
    have whole : (plug path leaf).entries = (path.entriesLeft ++ low) ++ (k,value) :: (high ++ path.entriesRight) := by
      rw [plug_entries]
      simp [BTree.entries,collect,items]
    have ordered := balanced.sorted
    rw [whole] at ordered ⊢
    rw [sorted_without ordered same]
    simp
  · refine .inr ⟨Balanced.deleteEntry_absent three ranked searched balanced missing,missing,List.filter_eq_self.mpr fun e member => ?_⟩
    simpa using (List.find?_eq_none.mp (Option.map_eq_none_iff.mp missing)) e member

theorem Balanced.delete {key : κ} (searched : proper key)
    (respects : (IxOp.delete key).Respects cmp s) :
    ∃ s' r', deleteEntry store cmp key s = (.ok (lookup rank r.entries key).isSome,s') ∧ Balanced rank proper order s' r' ∧
      r'.entries = r.entries.filter fun e => rank e.1 ≠ rank key := by
  rcases balanced.delete_search ranked three searched with
    ⟨path,leaf,node,low,k,value,high,rfl,reached,run,there,items,below,same,position,hit,rest⟩ | ⟨stays,missing,rest⟩
  · obtain ⟨spared,left⟩ := balanced.shaped.respects run there items position respects
    obtain ⟨s',r',deleted,again,entries⟩ :=
      Balanced.deleteEntry_present three ranked searched balanced reached items below same spared left
    exact ⟨s',r',by rw [deleted,hit]; rfl,again,entries.trans rest.symm⟩
  · exact ⟨s,r,by rw [stays,missing]; rfl,balanced,rest.symm⟩

/-- A deletion that leaves the inner nodes their children takes exactly the key's pair out, and the
root with the last pair. -/
theorem Balanced.delete_fed {key : κ} (searched : proper key)
    (fed : starves cmp key s = false) :
    ∃ s', deleteEntry store cmp key s = (.ok (lookup rank r.entries key).isSome,s') ∧
      leafChain s' = r.entries.filter (fun e => rank e.1 ≠ rank key) ∧
      ((∃ r', Balanced rank proper order s' r') ∨ s'.hdr.rootPage = invalidPageId ∧ leafChain s' = []) := by
  rcases balanced.delete_search ranked three searched with
    ⟨path,leaf,node,low,k,value,high,rfl,reached,run,there,items,below,same,position,hit,rest⟩ | ⟨stays,missing,rest⟩
  · by_cases last : path = .top ∧ low ++ high = []
    · obtain ⟨rfl,none⟩ := last
      have housed := (balanced.shaped.without run there items position).1
      rw [none] at housed
      have gone : (plug .top leaf).entries.filter (fun e => rank e.1 ≠ rank key) = [] := by
        rw [rest,none]
        rfl
      have empty := (leafChain_hdr (s.put leaf.page { node with pairs := [] })
        { s.hdr with numPages := s.hdr.numPages - 1, rootPage := invalidPageId } rfl rfl).trans housed.leafChain_eq
      exact ⟨_,(balanced.shaped.delete_last run there items position rfl none).trans (by rw [hit]; rfl),empty.trans gone.symm,
        .inr ⟨rfl,empty⟩⟩
    · have spared := balanced.shaped.spared run there position fed
      obtain ⟨s',r',deleted,again,entries⟩ := Balanced.deleteEntry_present three ranked searched balanced reached items below same
        spared fun top none => last ⟨top,none⟩
      refine ⟨s',by rw [deleted,hit]; rfl,?_,.inl ⟨r',again⟩⟩
      rw [again.toHoused.leafChain_eq,entries,rest]
  · exact ⟨s,by rw [stays,missing]; rfl,by rw [balanced.toHoused.leafChain_eq,rest],.inl ⟨r,balanced⟩⟩

theorem Balanced.step (op : IxOp κ) (given : proper op.key)
    (respects : op.Respects cmp s) : ∃ r', Balanced rank proper order (step cmp s op) r' := by
  cases op with
  | insert key value =>
    replace given : proper key := given
    rw [IndexTree.step,IxOp.run,after]
    by_cases present : (lookup rank r.entries key).isSome
    · rw [balanced.insertEntry_present ranked three given value present]
      exact ⟨r,balanced⟩
    · have absent := Option.not_isSome_iff_eq_none.mp present
      obtain ⟨s',r',_,_,run,again,_⟩ := balanced.insertEntry_absent ranked three given value absent
      rw [run]
      exact ⟨r',again⟩
  | delete key =>
    replace given : proper key := given
    obtain ⟨s',r',run,again,_⟩ := Balanced.delete ranked three balanced given respects
    rw [IndexTree.step,IxOp.run,after,run]
    exact ⟨r',again⟩

end Deleting

end Balanced

section Bytes

variable {cols : IxCols}

theorem lookup_any {l : List (List Byte × Rid)} {key : List Byte} (keys : ∀ e ∈ l, IsKey cols e.1) (isKey : IsKey cols key) :
    (lookup (keyRank cols) l key).isSome = l.any fun e => ixCompare cols e.1 key = 0 := by
  rw [firstInsert_eq keys isKey,firstInsert,Option.isSome_map,Bool.eq_iff_iff,List.find?_isSome,List.any_eq_true]

theorem balanced_run (metas : List ColMeta) (order : Nat) (three : 3 ≤ order) (page0 : IxNode (List Byte))
    (ops : List (IxOp (List Byte)))
    (limits : Guarded (step (ixCompare (ixCols metas))) (fun s op => op.Respects (ixCompare (ixCols metas)) s)
      (created page0 (createdHdr metas order)) ops) (keys : ∀ op ∈ ops, IsKey (ixCols metas) op.key) :
    ∃ r, Balanced (keyRank (ixCols metas)) (IsKey (ixCols metas)) order
      (ops.foldl (step (ixCompare (ixCols metas))) (created page0 (createdHdr metas order))) r := by
  obtain ⟨r,indexed,_⟩ := created_stores metas order page0
  have start : ∃ r, Balanced (keyRank (ixCols metas)) (IsKey (ixCols metas)) order (created page0 (createdHdr metas order)) r :=
    ⟨r,indexed.balanced⟩
  clear indexed
  generalize created page0 (createdHdr metas order) = s at limits start ⊢
  induction ops generalizing s with
  | nil => exact start
  | cons op ops ih =>
    obtain ⟨first,rest⟩ := List.forall_mem_cons.mp keys
    obtain ⟨r,balanced⟩ := start
    exact ih rest _ limits.2 (balanced.step ranked_bytes three op first limits.1)

/-- Within the limits, and as long as no key holds a NaN, a deletion takes exactly its key out, and
the pages form a B+ tree again. -/
theorem deletes_exactly (metas : List ColMeta) (order : Nat) (three : 3 ≤ order) (page0 : IxNode (List Byte))
    (ops : List (IxOp (List Byte))) (key : List Byte)
    (limits : Guarded (step (ixCompare (ixCols metas))) (fun s op => op.Respects (ixCompare (ixCols metas)) s)
      (created page0 (createdHdr metas order)) (ops ++ [.delete key]))
    (keys : ∀ op ∈ ops ++ [.delete key], IsKey (ixCols metas) op.key) :
    let s := ops.foldl (step (ixCompare (ixCols metas))) (created page0 (createdHdr metas order))
    ∃ s' r, deleteEntry store (ixCompare (ixCols metas)) key s =
        (.ok ((leafChain s).any fun e => ixCompare (ixCols metas) e.1 key = 0),s') ∧
      leafChain s' = (leafChain s).filter (fun e => ixCompare (ixCols metas) e.1 key ≠ 0) ∧
      (∀ other, IsKey (ixCols metas) other → getValue store (ixCompare (ixCols metas)) other s' =
        (.ok (((leafChain s').find? fun e => ixCompare (ixCols metas) e.1 other = 0).map Prod.snd),s')) ∧
      Formed s' r ∧ s'.hdr.btreeOrder = order := by
  intro s
  obtain ⟨before,last,_⟩ := limits.append
  obtain ⟨earlier,own⟩ := List.forall_mem_append.mp keys
  have isKey : IsKey (ixCols metas) key := own _ (List.mem_singleton_self _)
  obtain ⟨r,balanced⟩ := balanced_run metas order three page0 ops before earlier
  obtain ⟨s',r',run,again,entries⟩ := Balanced.delete ranked_bytes three balanced isKey last
  have held : ∀ e ∈ r.entries, IsKey (ixCols metas) e.1 := entries_proper balanced.keys
  have held' : ∀ e ∈ r'.entries, IsKey (ixCols metas) e.1 := entries_proper again.keys
  have chain : leafChain s = r.entries := balanced.toHoused.leafChain_eq
  have chain' : leafChain s' = r'.entries := again.toHoused.leafChain_eq
  refine ⟨s',r',?_,?_,fun other otherKey => ?_,again.formed,again.ordered⟩
  · rw [chain,← lookup_any held isKey]
    exact run
  · rw [chain,chain',entries]
    refine List.filter_congr fun e member => decide_eq_decide.mpr ?_
    exact not_congr (ranked_bytes.eq (held e member) isKey).symm
  · rw [again.getValue ranked_bytes three otherKey,chain',firstInsert_eq held' otherKey]
    rfl

/-- Deleting a NaN, which was never inserted, takes the smallest key out: not all keys that compare
equal to it, and not a key with its bytes. -/
theorem nan_deletes_other :
    let cols := ixCols priceCol
    let ops : List (IxOp (List Byte)) := [.insert fiveBytes ⟨1,0⟩,.insert threeBytes ⟨1,1⟩]
    let s := ops.foldl (step (ixCompare cols)) (created .zero (createdHdr priceCol 3))
    let run := deleteEntry store (ixCompare cols) nanBytes s
    Guarded (step (ixCompare cols)) (fun s op => op.Respects (ixCompare cols) s) (created .zero (createdHdr priceCol 3))
      (ops ++ [.delete nanBytes]) ∧
    nanBytes ∉ (leafChain s).map Prod.fst ∧ run.1 = .ok true ∧
    leafChain s = [(threeBytes,⟨1,1⟩),(fiveBytes,⟨1,0⟩)] ∧ leafChain run.2 = [(fiveBytes,⟨1,0⟩)] ∧
    (leafChain s).filter (fun e => ixCompare cols e.1 nanBytes ≠ 0) = [] := by
  decide +kernel

/-- Deleting 1 of four keys merges two leaves and takes the root away. -/
theorem countUp_four_deletes :
    let s := (countUp 4).foldl (step (ixCompare (ixCols idCols))) (created intHeaderNode (createdHdr idCols 3))
    ∃ s' r, deleteEntry store (ixCompare (ixCols idCols)) (intBytes 1) s =
        (.ok ((leafChain s).any fun e => ixCompare (ixCols idCols) e.1 (intBytes 1) = 0),s') ∧
      leafChain s' = (leafChain s).filter (fun e => ixCompare (ixCols idCols) e.1 (intBytes 1) ≠ 0) ∧
      (∀ other, IsKey (ixCols idCols) other → getValue store (ixCompare (ixCols idCols)) other s' =
        (.ok (((leafChain s').find? fun e => ixCompare (ixCols idCols) e.1 other = 0).map Prod.snd),s')) ∧
      Formed s' r ∧ s'.hdr.btreeOrder = (3 : Nat) :=
  deletes_exactly idCols 3 (by decide) intHeaderNode (countUp 4) (intBytes 1) (by decide +kernel) (by decide +kernel)

end Bytes

def IxOp.isDelete : IxOp κ → Bool
  | .insert _ _ => false
  | .delete _ => true

/-- A key was inserted: the tree still has one, or was emptied. -/
def Used (order : Nat) (s : IndexFile κ) : Prop :=
  (∃ r, Shaped (fun _ => True) order s r ∧ r.entries ≠ []) ∨ s.hdr.rootPage = invalidPageId

section Used

variable {cmp : κ → κ → Int} {order : Nat} {s : IndexFile κ}

theorem Shaped.used_insert {r : IxRoot κ} (three : 3 ≤ order) (shaped : Shaped (fun _ => True) order s r) (key : κ) (value : Rid) :
    Used order (IndexTree.step cmp s (.insert key value)) := by
  obtain ⟨_,s',r',run,again,some⟩ := shaped.insert_any three trivial value
  rw [IndexTree.step,IxOp.run,after,run]
  exact .inl ⟨r',again,some⟩

theorem Used.step (three : 3 ≤ order) (used : Used order s) (op : IxOp κ) (feeds : op.Feeds cmp s) :
    Used order (IndexTree.step cmp s op) := by
  obtain ⟨r,shaped,some⟩ := used.resolve_right feeds.1
  cases op with
  | insert key value => exact shaped.used_insert three key value
  | delete key =>
    rw [IndexTree.step,IxOp.run,after]
    rcases shaped.delete_found cmp key three with ⟨none,_⟩ | ⟨path,leaf,node,low,e,high,rfl,found,there,items,position,_⟩
    · rw [none]
      exact .inl ⟨r,shaped,some⟩
    · obtain ⟨s',run,after⟩ := shaped.delete_any three found there items position (shaped.spared found there position feeds.2)
      rw [run]
      exact after

theorem used_run (three : 3 ≤ order) (sound : Sound order s) {ops : List (IxOp κ)}
    (feeds : Guarded (IndexTree.step cmp) (fun s op => op.Feeds cmp s) s ops)
    (start : Used order s ∨ ∃ op ∈ ops, op.isDelete = false) : Used order (ops.foldl (IndexTree.step cmp) s) := by
  induction ops generalizing s with
  | nil => exact start.resolve_right (by simp)
  | cons op ops ih =>
    refine ih (sound.step cmp three op feeds.1) feeds.2 ?_
    rcases start with used | ⟨other,member,inserts⟩
    · exact .inl (used.step three op feeds.1)
    · rcases List.mem_cons.mp member with rfl | later
      · obtain ⟨r,shaped⟩ := sound.resolve_right feeds.1.1
        cases other with
        | insert key value => exact .inl (shaped.used_insert three key value)
        | delete key => cases inserts
      · exact .inr ⟨other,later,inserts⟩

end Used

theorem deletes_run {cmp : κ → κ → Int} (page0 : IxNode κ) (cols : List ColMeta) (order : Nat) {ops : List (IxOp κ)}
    (deletes : ∀ op ∈ ops, op.isDelete = true) :
    ops.foldl (step cmp) (created page0 (createdHdr cols order)) = created page0 (createdHdr cols order) := by
  induction ops with
  | nil => rfl
  | cons op ops ih =>
    obtain ⟨first,rest⟩ := List.forall_mem_cons.mp deletes
    cases op with
    | insert key value => cases first
    | delete key =>
      have stays : step cmp (created page0 (createdHdr cols order)) (.delete key) = created page0 (createdHdr cols order) := by
        rw [step,IxOp.run,after,created_delete]
      rw [List.foldl_cons,stays,ih rest]

/-- An index stays usable as long as no key was ever inserted. Once one was, a run that leaves no key
leaves no root page either, at least if the inner nodes kept enough children. -/
theorem usable_before_first_insert (metas : List ColMeta) (order : Nat) (three : 3 ≤ order) (page0 : IxNode (List Byte))
    (ops : List (IxOp (List Byte))) :
    ((∀ op ∈ ops, op.isDelete = true) → Usable (ixCompare (ixCols metas))
      (ops.foldl (step (ixCompare (ixCols metas))) (created page0 (createdHdr metas order)))) ∧
    (Guarded (step (ixCompare (ixCols metas))) (fun s op => op.Feeds (ixCompare (ixCols metas)) s)
        (created page0 (createdHdr metas order)) ops →
      leafChain (ops.foldl (step (ixCompare (ixCols metas))) (created page0 (createdHdr metas order))) = [] →
      (∃ op ∈ ops, op.isDelete = false) →
      (ops.foldl (step (ixCompare (ixCols metas))) (created page0 (createdHdr metas order))).hdr.rootPage = invalidPageId) := by
  constructor
  · intro deletes
    rw [deletes_run page0 metas order deletes]
    exact created_usable page0 metas three (ixCompare_self _)
  · intro feeds none inserts
    refine (used_run three (created_sound page0 metas order) feeds (.inr inserts)).resolve_left ?_
    rintro ⟨r,shaped,some⟩
    exact some (shaped.toHoused.leafChain_eq.symm.trans none)

/-- One key is inserted and deleted: there is no root, and no search and no insert works any more. -/
theorem emptied_unusable :
    let cols := ixCols idCols
    let ops : List (IxOp (List Byte)) := [.insert (intBytes 7) ⟨1,0⟩,.delete (intBytes 7)]
    let s := ops.foldl (step (ixCompare cols)) (created intHeaderNode (createdHdr idCols 3))
    leafChain s = [] ∧ s.hdr.rootPage = invalidPageId ∧ (getValue store (ixCompare cols) (intBytes 7) s).1.isOk = false ∧
      (insertEntry store (ixCompare cols) (intBytes 7) ⟨1,0⟩ s).1.isOk = false := by
  decide +kernel

/-- Two keys that come and go, the second after the first is deleted twice. -/
def comeAndGo : List (IxOp (List Byte)) :=
  [.insert (intBytes 7) ⟨1,0⟩,.insert (intBytes 8) ⟨1,1⟩,.delete (intBytes 7),.delete (intBytes 7),.delete (intBytes 8)]

/-- Deletions of keys that are not there leave the index usable; once two keys have come and gone it
has no root. -/
theorem comeAndGo_usable :
    let fresh := created intHeaderNode (createdHdr idCols 3)
    let misses : List (IxOp (List Byte)) := [.delete (intBytes 7),.delete (intBytes 8)]
    Usable (ixCompare (ixCols idCols)) (misses.foldl (step (ixCompare (ixCols idCols))) fresh) ∧
      (comeAndGo.foldl (step (ixCompare (ixCols idCols))) fresh).hdr.rootPage = invalidPageId :=
  ⟨(usable_before_first_insert idCols 3 (by decide) intHeaderNode [.delete (intBytes 7),.delete (intBytes 8)]).1 (by decide),
    (usable_before_first_insert idCols 3 (by decide) intHeaderNode comeAndGo).2 (by decide +kernel) (by decide +kernel)
      ⟨_,List.mem_cons_self,rfl⟩⟩

end Rucbase.IndexTree
