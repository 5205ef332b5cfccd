import Rucbase.IndexRuns

/-! What an index holds: the pairs that a walk along the leaves delivers, and the file as a set
of pairs under `insert_entry`. -/
namespace Rucbase.IndexTree

open Lib Lib.BTree IxIndexHandle
open IndexFile (store)

variable {κ L : Type} [LinearOrder L]

/-- The pairs from page `p` on, following `next_leaf` up to the last leaf. -/
def leafChainFrom (s : IndexFile κ) : Nat → Int → List (κ × Rid)
  | 0, _ => []
  | rounds + 1, p =>
    match s.pages p with
    | none => []
    | some node =>
      if p = s.hdr.lastLeaf then node.pairs else node.pairs ++ leafChainFrom s rounds node.nextLeaf

/-- The pairs of the leaf chain, from `first_leaf_` to `last_leaf_`. -/
def leafChain (s : IndexFile κ) : List (κ × Rid) := leafChainFrom s s.nextPage s.hdr.firstLeaf

variable {cmp : κ → κ → Int} {rank : κ → L} {proper : κ → Prop} {order : Nat} {s : IndexFile κ} {r : IxRoot κ}

theorem leafChainFrom_eq {leaf : IxTree κ 0} {rest : List (IxTree κ 0)} {rounds : Nat}
    (bodies : ∀ leaf' ∈ leaf :: rest, ∃ above, s.body leaf'.page = some (true,above,leaf'.items))
    (chain : Chained s.links leaf.page (rest.map Bundle.page))
    (last : ((leaf :: rest).map Bundle.page).getLast? = some s.hdr.lastLeaf)
    (distinct : ((leaf :: rest).map Bundle.page).Nodup) (enough : rest.length < rounds) :
    leafChainFrom s rounds leaf.page = (leaf :: rest).flatMap Bundle.items := by
  induction rest generalizing leaf rounds with
  | nil =>
    obtain ⟨rounds,rfl⟩ := Nat.exists_eq_succ_of_ne_zero (Nat.ne_of_gt (Nat.zero_lt_of_lt enough))
    obtain ⟨_,found⟩ := bodies leaf (by simp)
    obtain ⟨node,there,_,_,pairs⟩ := IndexFile.body_found found
    have final : leaf.page = s.hdr.lastLeaf := by simpa using last
    simp [leafChainFrom,there,← final,pairs]
  | cons next rest ih =>
    obtain ⟨rounds,rfl⟩ := Nat.exists_eq_succ_of_ne_zero (Nat.ne_of_gt (Nat.zero_lt_of_lt enough))
    obtain ⟨_,found⟩ := bodies leaf (by simp)
    obtain ⟨node,there,_,_,pairs⟩ := IndexFile.body_found found
    obtain ⟨onward,_,others⟩ := chain
    have step : node.nextLeaf = next.page := by simpa [IndexFile.found_links there] using onward
    have among : s.hdr.lastLeaf ∈ (next :: rest).map Bundle.page := by
      rw [List.map_cons,List.map_cons,List.getLast?_cons_cons] at last
      exact List.mem_of_getLast? last
    have apart : leaf.page ≠ s.hdr.lastLeaf := fun same => (List.nodup_cons.mp distinct).1 (same ▸ among)
    have walk : leafChainFrom s rounds next.page = (next :: rest).flatMap Bundle.items :=
      ih (fun leaf' member => bodies leaf' (List.mem_cons_of_mem _ member)) others
        (by simpa [List.getLast?_cons_cons] using last) (List.nodup_cons.mp distinct).2 (by simpa using enough)
    rw [leafChainFrom,there]
    simp only [apart,↓reduceIte,step,walk,pairs,List.flatMap_cons]

theorem Housed.leafChain_eq (housed : Housed proper order s r) : leafChain s = r.entries := by
  have bodies := holds_leaves housed.holds
  have pagesOf : leafPages r = (collect (fun t => [t]) r.height r.tree).map Bundle.page := by
    rw [leafPages,Root.collect,collect_leaves,List.map_eq_flatMap]
  have whole : r.entries = (collect (fun t => [t]) r.height r.tree).flatMap Bundle.items := collect_leaves _ r.tree
  have distinct := housed.leafPages_distinct
  have few : (leafPages r).length ≤ s.nextPage :=
    length_le_of_bound distinct housed.leafPages_old
  have first := housed.firstLeaf
  have last := housed.lastLeaf
  have chain := housed.chain
  rw [pagesOf] at distinct few first last chain
  rw [whole,leafChain]
  cases shape : collect (fun t => [t]) r.height r.tree with
  | nil => simp [shape] at first
  | cons leaf rest =>
    rw [shape] at bodies distinct few first last chain
    have start : leaf.page = s.hdr.firstLeaf := by simpa using first
    rw [← start]
    exact leafChainFrom_eq bodies (Chained.left chain.2.2) last distinct (by simp at few; omega)

theorem leafChain_hdr (s : IndexFile κ) (hdr : IxFileHdr) (first : hdr.firstLeaf = s.hdr.firstLeaf)
    (last : hdr.lastLeaf = s.hdr.lastLeaf) : leafChain { s with hdr := hdr } = leafChain s := by
  have walk (rounds : Nat) (p : Int) : leafChainFrom { s with hdr := hdr } rounds p = leafChainFrom s rounds p := by
    induction rounds generalizing p with
    | zero => rfl
    | succ rounds ih => simp only [leafChainFrom,last,ih]
  rw [leafChain,leafChain,walk,first]

/-- The file indexes these pairs, in any order. -/
def Contains (rank : κ → L) (proper : κ → Prop) (order : Nat) (s : IndexFile κ) (pairs : List (κ × Rid)) : Prop :=
  ∃ r, Indexed rank proper order s r ∧ r.entries.Perm pairs

variable {pairs : List (κ × Rid)}

theorem Contains.mem_leafChain (contains : Contains rank proper order s pairs) {e : κ × Rid} :
    e ∈ leafChain s ↔ e ∈ pairs := by
  obtain ⟨r,indexed,same⟩ := contains
  rw [indexed.housed.leafChain_eq]
  exact same.mem_iff

theorem Contains.perm {others : List (κ × Rid)} (contains : Contains rank proper order s pairs)
    (same : pairs.Perm others) : Contains rank proper order s others :=
  have ⟨r,indexed,listed⟩ := contains
  ⟨r,indexed,listed.trans same⟩

theorem lookup_eq_none {key : κ} (apart : ∀ e ∈ pairs, rank e.1 ≠ rank key) : lookup rank pairs key = none := by
  simpa [lookup] using apart

theorem Contains.insertEntry (ranked : Ranked cmp rank proper) (three : 3 ≤ order)
    (contains : Contains rank proper order s pairs) {key : κ} (searched : proper key) (value : Rid)
    (apart : ∀ e ∈ pairs, rank e.1 ≠ rank key) :
    ∃ s', insertEntry store cmp key value s = (.ok true,s') ∧ Contains rank proper order s' ((key,value) :: pairs) := by
  obtain ⟨r,indexed,same⟩ := contains
  have absent : lookup rank r.entries key = none := lookup_eq_none fun e member => apart e (same.mem_iff.mp member)
  obtain ⟨s',r',left,right,run,again,before,after,_⟩ := indexed.insertEntry_absent ranked three searched value absent
  refine ⟨s',run,r',again,?_⟩
  rw [after]
  exact List.perm_middle.trans ((before ▸ same).cons _)

end Rucbase.IndexTree
