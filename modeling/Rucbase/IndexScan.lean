import Rucbase.IndexShape

/-! Cursors over the leaves of an index: what a scan from the first leaf to the end delivers, and
where the lower and the upper bound of a key are. -/
namespace Rucbase.IndexTree

open Lib Lib.BTree IxIndexHandle Prog
open IndexFile (body_found fetch_run hdr_run read_run store)

variable {κ L : Type} [LinearOrder L]

def leafList (r : IxRoot κ) : List (IxTree κ 0) := r.collect fun leaf => [leaf]

theorem leafPages_eq (r : IxRoot κ) : leafPages r = (leafList r).map Bundle.page :=
  (collect_map Bundle.page (fun leaf => [leaf]) r.tree).symm

theorem entries_eq (r : IxRoot κ) : r.entries = (leafList r).flatMap fun leaf => leaf.items := collect_leaves _ r.tree

def leafPositions (leaf : IxTree κ 0) : List (Iid × κ × Rid) :=
  leaf.items.zipIdx.map fun e => (⟨leaf.page,e.2⟩,e.1)

theorem leafPositions_entries (leaf : IxTree κ 0) : (leafPositions leaf).map Prod.snd = leaf.items := by
  simp [leafPositions,Function.comp_def,List.zipIdx_map_fst]

/-- The entries from a slot of `leaf` on, with their positions. -/
def positionsFrom (leaf : IxTree κ 0) (rest : List (IxTree κ 0)) (slot : Nat) : List (Iid × κ × Rid) :=
  (leafPositions leaf).drop slot ++ rest.flatMap leafPositions

/-- The leaves from `leaf` on, as a scan meets them. -/
structure Onward (s : IndexFile κ) (leaf : IxTree κ 0) (rest : List (IxTree κ 0)) : Prop where
  bodies : ∀ l ∈ leaf :: rest, ∃ parent, s.body l.page = some (true,parent,l.items)
  chain : Chained s.links leaf.page (rest.map Bundle.page ++ [ixLeafHeaderPage])
  distinct : ((leaf :: rest).map Bundle.page).Nodup
  filled : ∀ l ∈ rest, l.items ≠ []
  last : ((leaf :: rest).map Bundle.page).getLast? = some s.hdr.lastLeaf

variable {upper : Iid} {leaves : List (IxTree κ 0)} {p : Iid × κ × Rid} {lo hi : Nat} {l : List (Iid × κ × Rid)}
  {es : List (κ × Rid)}

section Scan

variable {s : IndexFile κ} {leaf next : IxTree κ 0} {rest : List (IxTree κ 0)}

theorem Onward.tail (onward : Onward s leaf (next :: rest)) : Onward s next rest where
  bodies := fun l member => onward.bodies l (List.mem_cons_of_mem _ member)
  chain := onward.chain.2.2
  distinct := (List.nodup_cons.mp onward.distinct).2
  filled := fun l member => onward.filled l (List.mem_cons_of_mem _ member)
  last := by simpa [List.getLast?_cons] using onward.last

theorem Onward.last_iff (onward : Onward s leaf rest) : leaf.page = s.hdr.lastLeaf ↔ rest = [] := by
  have last := onward.last
  cases rest with
  | nil => simpa using last
  | cons next rest =>
    refine ⟨fun same => ?_,nofun⟩
    have member : s.hdr.lastLeaf ∈ (next :: rest).map Bundle.page := by
      rw [List.map_cons,List.map_cons,List.getLast?_cons_cons] at last
      exact List.mem_of_getLast? last
    exact absurd (same ▸ member) (List.nodup_cons.mp onward.distinct).1

theorem getRid_run {node : IxNode κ} {iid : Iid} {pair : κ × Rid} (there : s.pages iid.pageNo = some node)
    (found : node.pairs[iid.slotNo]? = some pair) : getRid store iid s = (.ok pair.2,s) := by
  rw [getRid,bind_ok (fetch_run there),bind_ok (read_run there),found]
  rfl

/-- The position behind an entry of `leaf`. -/
def behind (leaf : IxTree κ 0) (rest : List (IxTree κ 0)) (slot : Nat) : Iid :=
  match rest with
  | next :: _ => if slot + 1 = leaf.items.length then ⟨next.page,0⟩ else ⟨leaf.page,slot + 1⟩
  | [] => ⟨leaf.page,slot + 1⟩

variable {slot : Nat}

theorem scanNext_run (onward : Onward s leaf rest) (inside : slot < leaf.items.length)
    (before : (⟨leaf.page,slot⟩ : Iid) ≠ upper) :
    scanNext store ⟨leaf.page,slot⟩ upper s = (.ok (behind leaf rest slot),s) := by
  obtain ⟨parent,found⟩ := onward.bodies leaf List.mem_cons_self
  obtain ⟨node,there,isLeaf,_,pairs⟩ := body_found found
  have size : node.size = leaf.items.length := by rw [IxNode.size,pairs]
  have last := onward.last_iff
  have entered : scanNext store ⟨leaf.page,slot⟩ upper s =
      (.ok (if leaf.page ≠ s.hdr.lastLeaf ∧ slot + 1 = node.size then ⟨node.nextLeaf,0⟩ else ⟨leaf.page,slot + 1⟩),s) := by
    rw [scanNext,bind_ok (check_run (decide_eq_true before) _ _),bind_ok (fetch_run there),bind_ok (read_run there),
      bind_ok (check_run isLeaf _ _),
      bind_ok (check_run (decide_eq_true (size.symm ▸ inside)) _ _),bind_ok hdr_run]
    split <;> rfl
  rw [entered,size]
  cases rest with
  | nil => simp [behind,last.mpr rfl]
  | cons next rest =>
    have apart : leaf.page ≠ s.hdr.lastLeaf := fun same => List.cons_ne_nil _ _ (last.mp same)
    obtain ⟨link,_⟩ := onward.chain
    have linked : node.nextLeaf = next.page := by
      rw [IndexFile.found_links there] at link
      exact Option.some.inj link
    simp [behind,apart,linked]

theorem position_found
    (bodies : ∀ l ∈ leaves, ∃ parent, s.body l.page = some (true,parent,l.items)) (member : p ∈ leaves.flatMap leafPositions) :
    ∃ node, s.pages p.1.pageNo = some node ∧ node.pairs[p.1.slotNo]? = some p.2 := by
  obtain ⟨l,among,inside⟩ := List.mem_flatMap.mp member
  obtain ⟨e,indexed,rfl⟩ := List.mem_map.mp inside
  obtain ⟨parent,found⟩ := bodies l among
  obtain ⟨node,there,_,_,pairs⟩ := body_found found
  exact ⟨node,there,pairs ▸ List.mem_zipIdx_iff_getElem?.mp indexed⟩

theorem position_ne_end  {last : IxTree κ 0}
    (bodies : ∀ l ∈ leaves, ∃ parent, s.body l.page = some (true,parent,l.items)) (final : last ∈ leaves)
    (member : p ∈ leaves.flatMap leafPositions) : p.1 ≠ ⟨last.page,last.items.length⟩ := by
  intro same
  obtain ⟨node,there,pair⟩ := position_found bodies member
  obtain ⟨parent,found⟩ := bodies last final
  obtain ⟨other,here,_,_,pairs⟩ := body_found found
  rw [same,here] at there
  rw [same,← Option.some.inj there,pairs] at pair
  simp at pair

theorem positionsFrom_cons (inside : slot < leaf.items.length) : positionsFrom leaf rest slot =
    (⟨leaf.page,slot⟩,leaf.items[slot]) :: positionsFrom leaf rest (slot + 1) := by
  have bound : slot < (leafPositions leaf).length := by simpa [leafPositions] using inside
  rw [positionsFrom,List.drop_eq_getElem_cons bound]
  simp [positionsFrom,leafPositions]

theorem positionsFrom_next : positionsFrom leaf (next :: rest) leaf.items.length = positionsFrom next rest 0 := by
  simp [positionsFrom,leafPositions]

/-- A scan to an entry ahead, or to the end, delivers the entries before it. -/
theorem scanRids_run {last : IxTree κ 0} (onward : Onward s leaf rest) (ends : (leaf :: rest).getLast? = some last)
    (bound : slot ≤ leaf.items.length) (more : slot = leaf.items.length → rest = [])
    (target : upper = ⟨last.page,last.items.length⟩ ∨ ∃ p ∈ positionsFrom leaf rest slot, p.1 = upper) (count : Nat) :
    scanRids store upper count ⟨leaf.page,slot⟩ s =
      (.ok ((((positionsFrom leaf rest slot).takeWhile fun p => p.1 ≠ upper).take count).map fun p => p.2.2),s) := by
  induction count generalizing leaf rest slot with
  | zero => rfl
  | succ count ih =>
    by_cases finished : slot = leaf.items.length
    · obtain rfl := more finished
      obtain rfl : leaf = last := by simpa using ends
      have none : positionsFrom leaf [] slot = [] := by simp [positionsFrom,leafPositions,finished]
      rw [none] at target ⊢
      obtain rfl := target.resolve_right nofun
      rw [scanRids,finished,if_pos rfl]
      rfl
    have inside : slot < leaf.items.length := by omega
    rw [positionsFrom_cons inside] at target ⊢
    by_cases reached : (⟨leaf.page,slot⟩ : Iid) = upper
    · rw [scanRids,if_pos reached,List.takeWhile_cons_of_neg (by simp [reached])]
      rfl
    have target : upper = ⟨last.page,last.items.length⟩ ∨ ∃ p ∈ positionsFrom leaf rest (slot + 1), p.1 = upper :=
      target.imp_right fun ⟨p,member,here⟩ =>
        ⟨p,(List.mem_cons.mp member).resolve_left fun same => reached (by rw [← here,same]),here⟩
    obtain ⟨parent,found⟩ := onward.bodies leaf List.mem_cons_self
    obtain ⟨node,there,_,_,pairs⟩ := body_found found
    have pair : node.pairs[slot]? = some leaf.items[slot] := by rw [pairs,List.getElem?_eq_getElem inside]
    rw [scanRids,if_neg reached,bind_ok (getRid_run there pair),bind_ok (scanNext_run onward inside reached),
      List.takeWhile_cons_of_pos (by simp [reached]),List.take_succ_cons,List.map_cons]
    -- the rest of the scan starts in this leaf, or in the next one
    have rest_run : ∀ position remaining, scanRids store upper count position s =
        (.ok remaining,s) → (scanRids store upper count position >>= fun others =>
          pure (leaf.items[slot].2 :: others) : Prog _ RMDBError (List Rid)) s =
            (.ok (leaf.items[slot].2 :: remaining),s) := fun position remaining run => by
      rw [bind_ok run]
      rfl
    cases rest with
    | nil => exact rest_run _ _ (ih onward ends (by omega) (fun _ => rfl) target)
    | cons next rest =>
      apply rest_run
      by_cases isOver : slot + 1 = leaf.items.length
      · rw [isOver,positionsFrom_next] at target ⊢
        rw [behind,if_pos isOver]
        refine ih onward.tail (by simpa [List.getLast?_cons_cons] using ends) (Nat.zero_le _) (fun empty => ?_) target
        exact absurd (List.eq_nil_of_length_eq_zero empty.symm) (onward.filled next List.mem_cons_self)
      · rw [behind,if_neg isOver]
        exact ih onward ends (by omega) (fun same => absurd same isOver) target

end Scan

section Whole

variable {rank : κ → L} {proper : κ → Prop} {order : Nat} {s : IndexFile κ} {r : IxRoot κ}

theorem sized_leaves {least h : Nat} (few : 1 ≤ lo) (positive : 1 ≤ least) {t : IxTree κ h}
    (sized : Sized lo hi least h t) :
    collect (fun leaf => [leaf]) h t ≠ [] ∧ ∀ leaf ∈ collect (fun leaf => [leaf]) h t, leaf.items ≠ [] := by
  have count := Nat.le_trans positive (sized_count sized).1
  induction h generalizing least with
  | zero => exact ⟨List.cons_ne_nil _ _,List.forall_mem_singleton.mpr (List.ne_nil_of_length_pos count)⟩
  | succ h ih =>
    obtain ⟨page,items⟩ := t
    obtain ⟨kid,rest,rfl⟩ := List.exists_cons_of_length_pos count
    have below := fun other among => ih few (sized.2 other among) (Nat.le_trans few (sized_count (sized.2 other among)).1)
    refine ⟨fun none => ?_,fun leaf member => ?_⟩
    · rw [collect,List.flatMap_cons] at none
      exact (below kid List.mem_cons_self).1 (List.append_eq_nil_iff.mp none).1
    · obtain ⟨other,among,inside⟩ := List.mem_flatMap.mp member
      exact (below other among).2 leaf inside

/-- A tree has a leaf; if it has several, none is empty. -/
theorem root_leaves (few : 1 ≤ lo) (sized : r.Sized lo hi) :
    ∃ leaf rest, leafList r = leaf :: rest ∧ (leaf.items = [] → rest = []) ∧ ∀ l ∈ rest, l.items ≠ [] := by
  obtain ⟨height,tree⟩ := r
  cases height with
  | zero => exact ⟨tree,[],rfl,fun _ => rfl,nofun⟩
  | succ h =>
    obtain ⟨some,each⟩ := sized_leaves few (by decide : 1 ≤ 2) sized
    obtain ⟨leaf,rest,shape⟩ := List.exists_cons_of_ne_nil some
    have all : ∀ l ∈ leaf :: rest, l.items ≠ [] := fun l member => each l (shape.symm ▸ member)
    obtain ⟨own,others⟩ := List.forall_mem_cons.mp all
    exact ⟨leaf,rest,shape,fun empty => absurd empty own,others⟩

theorem Shaped.onward (positive : 1 ≤ order) (shaped : Shaped proper order s r) :
    ∃ leaf rest, leafList r = leaf :: rest ∧ Onward s leaf rest ∧ (leaf.items = [] → rest = []) := by
  obtain ⟨leaf,rest,shape,alone,filled⟩ := root_leaves (by omega : 1 ≤ (order + 1) / 2) shaped.sized
  have pages := leafPages_eq r
  rw [shape] at pages
  have chain := shaped.chain
  rw [pages,List.map_cons,List.cons_append] at chain
  refine ⟨leaf,rest,shape,⟨fun l member => ?_,chain.2.2,?_,filled,?_⟩,alone⟩
  · rw [← shape] at member
    exact holds_leaves shaped.holds l member
  · exact pages ▸ shaped.leafPages_distinct
  · exact pages ▸ shaped.lastLeaf

theorem leafBegin_run (shaped : Shaped proper order s r) {leaf : IxTree κ 0} {rest : List (IxTree κ 0)}
    (shape : leafList r = leaf :: rest) : leafBegin store s = (.ok ⟨leaf.page,0⟩,s) := by
  have first := shaped.firstLeaf
  rw [leafPages_eq,shape] at first
  have here : leaf.page = s.hdr.firstLeaf := Option.some.inj first
  rw [here]
  rfl

theorem leafEnd_run (shaped : Shaped proper order s r) {last : IxTree κ 0} (ends : (leafList r).getLast? = some last) :
    leafEnd store s = (.ok ⟨last.page,last.items.length⟩,s) := by
  have final := shaped.lastLeaf
  rw [leafPages_eq,List.getLast?_map,ends] at final
  have here : last.page = s.hdr.lastLeaf := Option.some.inj final
  obtain ⟨_,found⟩ := holds_leaves shaped.holds last (List.mem_of_getLast? ends)
  obtain ⟨node,there,_,_,pairs⟩ := body_found found
  rw [here] at there
  rw [leafEnd,bind_ok hdr_run,bind_ok (fetch_run there),bind_ok (read_run there),here,← pairs]
  rfl

theorem Shaped.last_leaf (positive : 1 ≤ order) (shaped : Shaped proper order s r) :
    ∃ last, (leafList r).getLast? = some last ∧ last.page = s.hdr.lastLeaf ∧
      leafEnd store s = (.ok ⟨last.page,last.items.length⟩,s) := by
  obtain ⟨leaf,rest,shape,_⟩ := shaped.onward positive
  obtain ⟨last,ends⟩ : ∃ last, (leafList r).getLast? = some last := by
    rw [shape]
    exact ⟨_,List.getLast?_eq_getLast_of_ne_nil (by simp)⟩
  have final := shaped.lastLeaf
  rw [leafPages_eq,List.getLast?_map,ends] at final
  exact ⟨last,ends,Option.some.inj final,leafEnd_run shaped ends⟩

/-- A scan over all leaves delivers the entries of the tree, as many as are asked for. -/
theorem scanAll_run (positive : 1 ≤ order) (shaped : Shaped proper order s r) (count : Nat) :
    scanAll store count s = (.ok ((r.entries.take count).map Prod.snd),s) := by
  obtain ⟨leaf,rest,shape,onward,alone⟩ := shaped.onward positive
  obtain ⟨last,ends,_,finish⟩ := shaped.last_leaf positive
  rw [shape] at ends
  have whole : positionsFrom leaf rest 0 = (leaf :: rest).flatMap leafPositions := rfl
  have all : ((positionsFrom leaf rest 0).takeWhile fun p => p.1 ≠ ⟨last.page,last.items.length⟩) = positionsFrom leaf rest 0 :=
    List.takeWhile_eq_self_iff.mpr fun p member =>
      decide_eq_true (position_ne_end onward.bodies (List.mem_of_getLast? ends) (whole ▸ member))
  have entries : r.entries = (positionsFrom leaf rest 0).map Prod.snd := by
    rw [entries_eq,shape,whole,List.map_flatMap]
    simp only [leafPositions_entries]
  rw [scanAll,bind_ok (leafBegin_run shaped shape),bind_ok finish,scanRids_run onward ends (Nat.zero_le _)
    (fun empty => alone (List.eq_nil_of_length_eq_zero empty.symm)) (.inl rfl) count,all,entries,List.map_take,List.map_take,
    List.map_map]
  rfl

end Whole

/-- For every well-formed tree a scan ends, and yields the record positions of the entries in the
order of their keys. -/
theorem scan_in_order (metas : List ColMeta) (order : Nat) (positive : 1 ≤ order) (s : IndexFile (List Byte))
    (r : IxRoot (List Byte)) (balanced : Balanced (keyRank (ixCols metas)) (IsKey (ixCols metas)) order s r)
    (count : Nat) (enough : r.entries.length ≤ count) :
    scanAll store count s = (.ok (r.entries.map Prod.snd),s) ∧
      r.entries.Pairwise fun a b => ixCompare (ixCols metas) a.1 b.1 < 0 :=
  ⟨by rw [scanAll_run positive balanced.shaped count,List.take_of_length_le enough],
    sorted_pairwise ranked_bytes balanced.sorted (entries_proper balanced.keys)⟩

/-- An index of order 3 over one INT column, with two leaves. -/
def tens : List (List Byte × Rid) :=
  [(intBytes 10,⟨1,0⟩),(intBytes 20,⟨1,1⟩),(intBytes 30,⟨1,2⟩),(intBytes 40,⟨1,3⟩)]

def tensFile : IndexFile (List Byte) :=
  (insertAll (ixCompare (ixCols idCols)) tens (created .zero (createdHdr idCols 3))).2

theorem tensFile_stores : Stores (keyRank (ixCols idCols)) (IsKey (ixCols idCols)) 3 tensFile tens := by
  have keys : ∀ e ∈ tens, IsKey (ixCols idCols) e.1 := by decide +kernel
  obtain ⟨answers,s,run,stores,_⟩ :=
    (created_stores idCols 3 .zero).insertAll ranked_bytes (by decide) keys
  rw [tensFile,run]
  exact stores

theorem tensFile_scanned : ∃ r, Balanced (keyRank (ixCols idCols)) (IsKey (ixCols idCols)) 3 tensFile r ∧
    scanAll store r.entries.length tensFile = (.ok (r.entries.map Prod.snd),tensFile) := by
  obtain ⟨r,indexed,_⟩ := tensFile_stores
  exact ⟨r,indexed.balanced,(scan_in_order idCols 3 (by decide) tensFile r indexed.balanced _ (Nat.le_refl _)).1⟩

/-! ### Bounds -/

def positions (r : IxRoot κ) : List (Iid × κ × Rid) := r.collect leafPositions

variable {high low : List (κ × Rid)} {e : κ × Rid}

section Positions

theorem leafPositions_cut {page : Int} :
    leafPositions (⟨page,low ++ e :: high⟩ : IxTree κ 0) = leafPositions (⟨page,low⟩ : IxTree κ 0) ++
      (⟨page,low.length⟩,e) :: ((high.zipIdx (low.length + 1)).map fun e => (⟨page,e.2⟩,e.1)) := by
  simp [leafPositions,List.zipIdx_append,List.zipIdx_cons]

variable {path : IxPath κ 0} {leaf : IxTree κ 0}

theorem positions_plug : positions (plug path leaf) =
    path.collectLeft leafPositions ++ leafPositions leaf ++ path.collectRight leafPositions := plug_collect _ path leaf

theorem left_positions : (path.collectLeft leafPositions).map Prod.snd = path.entriesLeft := by
  rw [Path.collectLeft_map]
  simp only [leafPositions_entries]
  rfl

theorem right_positions :
    (List.flatMap leafPositions (path.collectRight fun leaf => [leaf])).map Prod.snd = path.entriesRight := by
  rw [List.map_flatMap]
  simp only [leafPositions_entries]
  exact (path.collectRight_leaves _).symm

theorem positions_entries (r : IxRoot κ) : (positions r).map Prod.snd = r.entries := by
  obtain ⟨h,t⟩ := r
  rw [positions,Root.collect,collect_map]
  simp only [leafPositions_entries]
  rfl

variable {low high : List (κ × Rid)} {test : κ → Bool}

theorem find_none  (entries : l.map Prod.snd = es) (fail : ∀ e ∈ es, test e.1 = false) :
    l.find? (fun p => test p.2.1) = none := by
  refine List.find?_eq_none.mpr fun p member => ?_
  rw [fail p.2 (entries ▸ List.mem_map_of_mem member)]
  exact Bool.false_ne_true

/-- The first position that passes a test, the end if there is none. -/
def firstPosition (r : IxRoot κ) (last : Iid) (test : κ → Bool) : Iid :=
  (((positions r).find? fun p => test p.2.1).map Prod.fst).getD last

variable {last : Iid} (test) (left : ∀ e ∈ path.entriesLeft, test e.1 = false) (below : ∀ e ∈ low, test e.1 = false)

include left below

theorem firstPosition_here (items : leaf.items = low ++ e :: high) (passes : test e.1 = true) :
    firstPosition (plug path leaf) last test = ⟨leaf.page,low.length⟩ := by
  obtain ⟨page,list⟩ := leaf
  dsimp only at items
  subst items
  rw [firstPosition,positions_plug,leafPositions_cut,List.append_assoc,List.find?_append,find_none left_positions left,
    List.append_assoc,List.find?_append,find_none (leafPositions_entries _) below]
  simp [passes]

end Positions

section BoundsOf

variable {cmp : κ → κ → Int} {rank : κ → L} {proper : κ → Prop} {order : Nat} {s : IndexFile κ} {r : IxRoot κ}
  {path : IxPath κ 0} {leaf last : IxTree κ 0} {key : κ}

theorem Balanced.bodies (balanced : Balanced rank proper order s r) :
    ∀ l ∈ leafList r, ∃ parent, s.body l.page = some (true,parent,l.items) := holds_leaves balanced.holds

theorem positions_leaves (r : IxRoot κ) : positions r = (leafList r).flatMap leafPositions := collect_leaves _ r.tree

theorem firstPosition_cases (r : IxRoot κ) (last : Iid) (test : κ → Bool) :
    firstPosition r last test = last ∨ ∃ p ∈ positions r, firstPosition r last test = p.1 := by
  rw [firstPosition]
  cases found : (positions r).find? fun p => test p.2.1 with
  | none => exact .inl rfl
  | some p => exact .inr ⟨p,List.mem_of_find?_eq_some found,rfl⟩

theorem firstPosition_ne_end (balanced : Balanced rank proper order s r) (ends : (leafList r).getLast? = some last)
    (test : κ → Bool) (member : e ∈ r.entries) (passes : test e.1 = true) :
    firstPosition r ⟨last.page,last.items.length⟩ test ≠ ⟨last.page,last.items.length⟩ := by
  rw [← positions_entries] at member
  obtain ⟨p,among,rfl⟩ := List.mem_map.mp member
  obtain ⟨q,found⟩ := Option.isSome_iff_exists.mp
    (List.find?_isSome.mpr ⟨p,among,passes⟩ : ((positions r).find? fun p => test p.2.1).isSome)
  rw [firstPosition,found]
  exact position_ne_end balanced.bodies (List.mem_of_getLast? ends) (positions_leaves r ▸ List.mem_of_find?_eq_some found)

theorem mem_plug : e ∈ (plug path leaf).entries ↔ e ∈ path.entriesLeft ∨ e ∈ leaf.items ∨ e ∈ path.entriesRight := by
  rw [plug_entries,List.append_assoc,List.mem_append,List.mem_append]
  rfl

theorem leafList_plug : leafList (plug path leaf) =
    path.collectLeft (fun leaf => [leaf]) ++ leaf :: path.collectRight fun leaf => [leaf] := by
  rw [leafList,plug_collect,List.append_assoc]
  rfl

theorem Balanced.onward_at (positive : 1 ≤ order) (balanced : Balanced rank proper order s (plug path leaf)) :
    Onward s leaf (path.collectRight fun leaf => [leaf]) := by
  obtain ⟨first,others,shape,_,filled⟩ := root_leaves (by omega : 1 ≤ (order + 1) / 2) balanced.sized
  have whole : leafList (plug path leaf) = _ := leafList_plug
  have pages := leafPages_eq (plug path leaf)
  have chain := balanced.chain
  have distinct := balanced.leafPages_distinct
  have final := balanced.lastLeaf
  rw [pages,whole,List.map_append,List.map_cons] at chain distinct final
  rw [List.append_assoc,List.cons_append] at chain
  refine ⟨fun l member => ?_,(chained_append.mp chain).2,(List.nodup_append.mp distinct).2.1,fun l member => filled l ?_,?_⟩
  · apply holds_leaves balanced.holds l
    change l ∈ leafList (plug path leaf)
    rw [whole]
    exact List.mem_append_right _ member
  · rw [shape] at whole
    generalize path.collectLeft (fun leaf => [leaf]) = left at whole
    cases left with
    | nil => rw [(List.cons.inj whole).2]; exact member
    | cons head left =>
      rw [(List.cons.inj whole).2]
      exact List.mem_append_right _ (List.mem_cons_of_mem _ member)
  · rwa [List.getLast?_append_cons] at final

/-- Behind a leaf that is not the last there is an entry. -/
theorem Balanced.later (positive : 1 ≤ order) (balanced : Balanced rank proper order s (plug path leaf))
    (inner : leaf.page ≠ s.hdr.lastLeaf) : path.entriesRight ≠ [] := by
  have onward := balanced.onward_at positive
  have filled := onward.filled
  rw [ne_eq,onward.last_iff] at inner
  rw [Path.entriesRight,Path.collectRight_leaves]
  obtain ⟨next,rest,shape⟩ := List.exists_cons_of_ne_nil inner
  rw [shape] at filled ⊢
  rw [List.flatMap_cons]
  exact fun none => filled next List.mem_cons_self (List.append_eq_nil_iff.mp none).1

section FirstPosition

variable (positive : 1 ≤ order) (balanced : Balanced rank proper order s (plug path leaf))

include positive balanced

theorem Balanced.empty_leaf (items : leaf.items = []) : leaf.page = s.hdr.lastLeaf := by
  obtain ⟨first,others,shape,alone,filled⟩ := root_leaves (by omega : 1 ≤ (order + 1) / 2) balanced.sized
  have whole : leafList (plug path leaf) = _ := leafList_plug
  rw [shape] at whole
  rw [(balanced.onward_at positive).last_iff]
  generalize path.collectLeft (fun leaf => [leaf]) = left at whole
  cases left with
  | nil =>
    obtain ⟨same,rest⟩ := List.cons.inj whole
    rw [← rest]
    exact alone (same ▸ items)
  | cons head left =>
    refine absurd items (filled leaf ?_)
    rw [(List.cons.inj whole).2]
    exact List.mem_append_right _ List.mem_cons_self

theorem Balanced.none_later (final : leaf.page = s.hdr.lastLeaf) :
    path.collectRight leafPositions = [] ∧ (leafList (plug path leaf)).getLast? = some leaf := by
  have alone := (balanced.onward_at positive).last_iff.mp final
  rw [Path.collectRight_leaves,leafList_plug,alone]
  simp

/-- Where the entries of a leaf from some position on pass and none in front of them does, and an end of the leaf is
that of all leaves, this position is the first that passes. -/
theorem Balanced.firstPosition_at (ends : (leafList (plug path leaf)).getLast? = some last) (test : κ → Bool)
    (left : ∀ e ∈ path.entriesLeft, test e.1 = false) (below : ∀ e ∈ low, test e.1 = false)
    (items : leaf.items = low ++ high) (passes : ∀ e ∈ high, test e.1 = true)
    (stop : high = [] → leaf.page = s.hdr.lastLeaf) :
    firstPosition (plug path leaf) ⟨last.page,last.items.length⟩ test = ⟨leaf.page,low.length⟩ ∧ (high = [] → leaf = last) := by
  cases high with
  | nil =>
    obtain ⟨none,same⟩ := balanced.none_later positive (stop rfl)
    obtain rfl := Option.mem_unique same ends
    rw [List.append_nil] at items
    rw [firstPosition,positions_plug,List.append_assoc,List.find?_append,find_none left_positions left,List.find?_append,
      find_none (leafPositions_entries _) (items.symm ▸ below),none,items]
    exact ⟨rfl,fun _ => rfl⟩
  | cons e high => exact ⟨firstPosition_here test left below items (passes e List.mem_cons_self),nofun⟩

end FirstPosition

variable (ranked : Ranked cmp rank proper) (three : 3 ≤ order) (searched : proper key)

include ranked three searched

theorem lowerBound_run (balanced : Balanced rank proper order s (plug path leaf)) (reached : Reached rank key path)
    (items : leaf.items = low ++ high) (below : AllBelow rank key low) (rest : ∀ e ∈ high, ¬rank e.1 < rank key) :
    lowerBound store cmp key s = (.ok ⟨leaf.page,low.length⟩,s) := by
  obtain ⟨node,there,_,_,pairs⟩ := body_found balanced.at_leaf.1
  have agrees := ranked.agrees searched (pairs ▸ balanced.leaf_keys)
  rw [lowerBound,bind_ok (findLeafPage_path ranked three searched reached balanced),bind_ok (read_run there),
    ← agrees.lowerBound_eq (pairs.trans items) below rest]
  rfl

end BoundsOf

/-- `lower_bound` is right: the first entry that is not smaller, or the end, and a position a scan
can start from. -/
def LowerBoundRight (cmp : κ → κ → Int) (s : IndexFile κ) (r : IxRoot κ) (key : κ) : Prop :=
  ∃ iid last, lowerBound store cmp key s = (.ok iid,s) ∧ leafEnd store s = (.ok last,s) ∧
    iid = firstPosition r last (fun k => decide (0 ≤ cmp k key)) ∧
    (iid ≠ last → (∃ rid, getRid store iid s = (.ok rid,s)) ∧ ∃ next, scanNext store iid last s = (.ok next,s))

/-- The leaf in whose range the key is has only smaller keys, and is not the last. -/
def InGap (rank : κ → L) (s : IndexFile κ) (r : IxRoot κ) (key : κ) : Prop :=
  ∃ (path : IxPath κ 0) (leaf : IxTree κ 0), plug path leaf = r ∧ Reached rank key path ∧
    AllBelow rank key leaf.items ∧ leaf.page ≠ s.hdr.lastLeaf

section LowerBound

variable {cmp : κ → κ → Int} {rank : κ → L} {proper : κ → Prop} {order : Nat} {s : IndexFile κ} {r : IxRoot κ}
  {key : κ} (ranked : Ranked cmp rank proper) (three : 3 ≤ order) (searched : proper key)
  (balanced : Balanced rank proper order s r)

include ranked three searched balanced

/-- In a gap the bound is behind the last entry of its leaf, where no entry can be read. -/
theorem inGap_run (gap : InGap rank s r key) : ∃ iid, lowerBound store cmp key s = (.ok iid,s) ∧
    iid.pageNo ≠ s.hdr.lastLeaf ∧ getRid store iid s = (.error .indexEntryNotFound,s) := by
  obtain ⟨path,leaf,rfl,reached,below,inner⟩ := gap
  obtain ⟨node,there,_,_,pairs⟩ := body_found balanced.at_leaf.1
  have missing : node.pairs[leaf.items.length]? = none := by rw [pairs]; simp
  refine ⟨_,lowerBound_run ranked three searched balanced reached (List.append_nil _).symm below nofun,inner,?_⟩
  rw [getRid,bind_ok (fetch_run there),bind_ok (read_run there),missing]
  rfl

theorem inGap_wrong (gap : InGap rank s r key) : ¬LowerBoundRight cmp s r key := by
  obtain ⟨iid,run,inner,missing⟩ := inGap_run ranked three searched balanced gap
  rintro ⟨iid',upper,bound,ends,_,usable⟩
  obtain rfl := ok_unique bound run
  obtain ⟨last,_,page,finish⟩ := balanced.shaped.last_leaf (by omega)
  obtain rfl : upper = ⟨last.page,last.items.length⟩ := ok_unique ends finish
  obtain ⟨⟨rid,read⟩,_⟩ := usable fun same => inner (same ▸ page)
  cases (Prod.mk.inj (read.symm.trans missing)).1

omit three searched in
theorem left_smaller {path : IxPath κ 0} {leaf : IxTree κ 0} (searched : proper key) (reached : Reached rank key path)
    (same : plug path leaf = r) : ∀ e ∈ path.entriesLeft, cmp e.1 key < 0 := by
  subst same
  intro e member
  have inside : e ∈ (plug path leaf).entries := mem_plug.mpr (.inl member)
  exact (ranked.lt (entries_proper balanced.keys e inside) searched).mpr (balanced.left reached e member)

theorem outside_gap_right (outside : ¬InGap rank s r key) : LowerBoundRight cmp s r key := by
  obtain ⟨path,leaf,_,rfl,reached⟩ := findLeafPage_reached ranked three balanced searched
  obtain ⟨found,_,_,sorted,_⟩ := balanced.at_leaf
  obtain ⟨low,high,items,below,rest⟩ := sorted_below sorted key
  obtain ⟨last,ends,_,finish⟩ := balanced.shaped.last_leaf (by omega)
  have keys := balanced.leaf_keys
  rw [items] at keys
  obtain ⟨lowKeys,highKeys⟩ := List.forall_mem_append.mp keys
  have leftFails : ∀ e ∈ path.entriesLeft, decide (0 ≤ cmp e.1 key) = false := fun e member =>
    decide_eq_false (not_le.mpr (left_smaller ranked balanced searched reached rfl e member))
  have lowFails : ∀ e ∈ low, decide (0 ≤ cmp e.1 key) = false := fun e member =>
    decide_eq_false (not_le.mpr ((ranked.lt (lowKeys e member) searched).mpr (below e member)))
  have passes : ∀ e ∈ high, decide (0 ≤ cmp e.1 key) = true := fun e member =>
    decide_eq_true (not_lt.mp ((ranked.lt (highKeys e member) searched).not.mpr (rest e member)))
  obtain ⟨first,final⟩ := balanced.firstPosition_at (by omega) ends (fun k => decide (0 ≤ cmp k key)) leftFails
    lowFails items passes fun none => by_contra fun inner =>
      outside ⟨path,leaf,rfl,reached,by rw [items,none,List.append_nil]; exact below,inner⟩
  refine ⟨_,_,lowerBound_run ranked three searched balanced reached items below rest,finish,first.symm,fun apart => ?_⟩
  cases high with
  | nil =>
    rw [← final rfl,items,List.append_nil] at apart
    exact absurd rfl apart
  | cons e high =>
    have inside : low.length < leaf.items.length := by rw [items]; simp
    obtain ⟨node,there,_,_,pairs⟩ := body_found found
    have pair : node.pairs[low.length]? = some leaf.items[low.length] := by rw [pairs,List.getElem?_eq_getElem inside]
    exact ⟨⟨_,getRid_run there pair⟩,_,scanNext_run (balanced.onward_at (by omega)) inside apart⟩

end LowerBound

/-- `upper_bound` is right: the first entry that is greater, or the end. -/
def UpperBoundRight (cmp : κ → κ → Int) (s : IndexFile κ) (r : IxRoot κ) (key : κ) : Prop :=
  ∃ iid last, upperBound store cmp key s = (.ok iid,s) ∧ leafEnd store s = (.ok last,s) ∧
    iid = firstPosition r last (fun k => decide (0 < cmp k key))

/-- A scan from the lower bound of `a` to the upper bound of `b` delivers the entries between them and stops there. -/
def RangeRight (cmp : κ → κ → Int) (s : IndexFile κ) (r : IxRoot κ) (a b : κ) : Prop :=
  ∃ lower upper, lowerBound store cmp a s = (.ok lower,s) ∧ upperBound store cmp b s = (.ok upper,s) ∧
    ∀ count, scanRids store upper count lower s =
      (.ok (((r.entries.filter fun e => 0 ≤ cmp e.1 a ∧ cmp e.1 b ≤ 0).take count).map Prod.snd),s)

/-- The leaf in whose range the key is starts with a key that is not greater, and either has a
greater one or is the last leaf. -/
def InsideLeaf (rank : κ → L) (s : IndexFile κ) (r : IxRoot κ) (key : κ) : Prop :=
  ∃ (path : IxPath κ 0) (leaf : IxTree κ 0) (first : κ × Rid) (rest : List (κ × Rid)), plug path leaf = r ∧
    Reached rank key path ∧ leaf.items = first :: rest ∧ rank first.1 ≤ rank key ∧
    ((∃ e ∈ rest, rank key < rank e.1) ∨ leaf.page = s.hdr.lastLeaf)

section UpperBound

variable {cmp : κ → κ → Int} {rank : κ → L} {proper : κ → Prop} {order : Nat} {s : IndexFile κ} {path : IxPath κ 0}
  {leaf last : IxTree κ 0} {key : κ} (ranked : Ranked cmp rank proper) (three : 3 ≤ order) (searched : proper key)
  (balanced : Balanced rank proper order s (plug path leaf)) (reached : Reached rank key path)

include ranked three searched balanced reached

theorem upperBound_empty (items : leaf.items = []) : upperBound store cmp key s = (.ok ⟨leaf.page,1⟩,s) := by
  obtain ⟨node,there,_,_,pairs⟩ := body_found balanced.at_leaf.1
  have bound : node.upperBound cmp key = 1 := by
    rw [IxNode.upperBound,IxNode.size,pairs,items]
    rfl
  have size : node.size = 0 := by rw [IxNode.size,pairs,items]; rfl
  rw [upperBound,bind_ok (findLeafPage_path ranked three searched reached balanced),bind_ok (read_run there),bound,
    size]
  rfl

/-- The first entry is never the answer, and the end of the leaf is the end of all leaves. -/
theorem upperBound_run {first : κ × Rid} (items : leaf.items = first :: (low ++ high))
    (below : ∀ e ∈ low, rank e.1 ≤ rank key) (above : AllAbove rank key high)
    (ends : (leafList (plug path leaf)).getLast? = some last) :
    upperBound store cmp key s =
      (.ok (if high = [] then ⟨last.page,last.items.length⟩ else ⟨leaf.page,low.length + 1⟩),s) := by
  obtain ⟨node,there,_,_,pairs⟩ := body_found balanced.at_leaf.1
  have agrees := ranked.agrees searched (pairs ▸ balanced.leaf_keys)
  have size : node.size = low.length + high.length + 1 := by rw [IxNode.size,pairs,items]; simp
  rw [upperBound,bind_ok (findLeafPage_path ranked three searched reached balanced),bind_ok (read_run there),
    agrees.upperBound_eq (pairs.trans items) below above,size]
  cases high with
  | nil =>
    have behind : low.length + 1 = low.length + ([] : List (κ × Rid)).length + 1 := rfl
    rw [if_pos behind,if_pos rfl,bind_ok (leafEnd_run balanced.shaped ends)]
    rfl
  | cons e high =>
    rw [if_neg (by simp),if_neg (List.cons_ne_nil _ _)]
    rfl

omit three in
theorem left_not_greater : ∀ e ∈ path.entriesLeft, decide (0 < cmp e.1 key) = false := fun e member => by
  have := left_smaller ranked balanced searched reached rfl e member
  exact decide_eq_false (by omega)

omit three reached in
theorem leaf_greater (sub : es ⊆ leaf.items) :
    ∀ e ∈ es, decide (0 < cmp e.1 key) = decide (rank key < rank e.1) := fun e member =>
  decide_eq_decide.mpr (ranked.gt (balanced.leaf_keys e (sub member)) searched)

end UpperBound

section UpperBoundWhen

variable {cmp : κ → κ → Int} {rank : κ → L} {proper : κ → Prop} {order : Nat} {s : IndexFile κ} {r : IxRoot κ}
  {key : κ} (ranked : Ranked cmp rank proper) (three : 3 ≤ order) (searched : proper key)
  (balanced : Balanced rank proper order s r)

include ranked three searched balanced

theorem insideLeaf_right (inside : InsideLeaf rank s r key) : UpperBoundRight cmp s r key := by
  obtain ⟨path,leaf,first,rest,rfl,reached,items,atLeast,greater⟩ := inside
  obtain ⟨_,_,_,sorted,_⟩ := balanced.at_leaf
  rw [items] at sorted
  obtain ⟨low,high,rfl,below,above⟩ := sorted_upTo (List.pairwise_cons.mp sorted).2 key
  obtain ⟨last,ends,_,finish⟩ := balanced.shaped.last_leaf (by omega)
  have whole : leaf.items = (first :: low) ++ high := items
  have lowFails : ∀ e ∈ first :: low, decide (0 < cmp e.1 key) = false := fun e member => by
    rw [leaf_greater ranked searched balanced (whole ▸ List.subset_append_left _ _) e member,decide_eq_false_iff_not,
      not_lt]
    exact (List.forall_mem_cons (p := fun e => rank e.1 ≤ rank key)).mpr ⟨atLeast,below⟩ e member
  have passes : ∀ e ∈ high, decide (0 < cmp e.1 key) = true := fun e member => by
    rw [leaf_greater ranked searched balanced (whole ▸ List.subset_append_right _ _) e member]
    exact decide_eq_true (above e member)
  obtain ⟨position,final⟩ := balanced.firstPosition_at (by omega) ends (fun k => decide (0 < cmp k key))
    (left_not_greater ranked searched balanced reached) lowFails whole passes fun none => by
      refine greater.resolve_left fun ⟨e,member,less⟩ => not_le.mpr less (below e ?_)
      rwa [none,List.append_nil] at member
  refine ⟨_,_,upperBound_run ranked three searched balanced reached items below above ends,finish,?_⟩
  rw [position]
  split
  · rename_i none
    rw [← final none,whole,none,List.append_nil]
  · rfl

/-- Elsewhere the answer is the second position of the leaf, or the end though an entry is greater. -/
theorem outside_leaf_wrong (outside : ¬InsideLeaf rank s r key) : ¬UpperBoundRight cmp s r key := by
  rintro ⟨iid,upper,bound,ends,right⟩
  obtain ⟨path,leaf,_,rfl,reached⟩ := findLeafPage_reached ranked three balanced searched
  obtain ⟨last,atEnd,_,finish⟩ := balanced.shaped.last_leaf (by omega)
  obtain rfl : upper = ⟨last.page,last.items.length⟩ := ok_unique ends finish
  obtain ⟨_,_,_,sorted,_⟩ := balanced.at_leaf
  have leftFails := left_not_greater ranked searched balanced reached
  have greater : ∀ e ∈ (plug path leaf).entries, rank key < rank e.1 → decide (0 < cmp e.1 key) = true :=
    fun e member less => decide_eq_true ((ranked.gt (entries_proper balanced.keys e member) searched).mpr less)
  cases items : leaf.items with
  | nil =>
    obtain rfl := ok_unique bound (upperBound_empty ranked three searched balanced reached items)
    obtain ⟨first,_⟩ := balanced.firstPosition_at (by omega) atEnd (fun k => decide (0 < cmp k key)) leftFails
      (List.forall_mem_nil _) items (List.forall_mem_nil _) fun _ => balanced.empty_leaf (by omega) items
    rw [first] at right
    cases right
  | cons first rest =>
    rw [items] at sorted
    obtain ⟨low,high,rfl,below,above⟩ := sorted_upTo (List.pairwise_cons.mp sorted).2 key
    obtain rfl := ok_unique bound (upperBound_run ranked three searched balanced reached items below above atEnd)
    have among : first ∈ (plug path leaf).entries := mem_plug.mpr (.inr (.inl (items ▸ List.mem_cons_self)))
    rcases lt_or_ge (rank key) (rank first.1) with less | atLeast
    · have passes := greater first among less
      cases high with
      | nil => exact firstPosition_ne_end balanced atEnd _ among passes right.symm
      | cons e high =>
        rw [firstPosition_here (fun k => decide (0 < cmp k key)) leftFails (List.forall_mem_nil _) items passes] at right
        cases right
    · cases high with
      | nil =>
        have inner : leaf.page ≠ s.hdr.lastLeaf := fun final =>
          outside ⟨path,leaf,first,_,rfl,reached,items,atLeast,.inr final⟩
        obtain ⟨e,others,shape⟩ := List.exists_cons_of_ne_nil (balanced.later (by omega) inner)
        have later : e ∈ path.entriesRight := shape ▸ List.mem_cons_self
        have member : e ∈ (plug path leaf).entries := mem_plug.mpr (.inr (.inr later))
        exact firstPosition_ne_end balanced atEnd _ member (greater e member (balanced.right reached e later)) right.symm
      | cons e high =>
        exact outside ⟨path,leaf,first,_,rfl,reached,items,atLeast,
          .inl ⟨e,List.mem_append_right _ List.mem_cons_self,above e List.mem_cons_self⟩⟩

end UpperBoundWhen

section Range

variable {cmp : κ → κ → Int} {rank : κ → L} {proper : κ → Prop} {order : Nat} {s : IndexFile κ} {r : IxRoot κ}
  {a b : κ} (ranked : Ranked cmp rank proper) (three : 3 ≤ order) (properA : proper a) (properB : proper b)
  (balanced : Balanced rank proper order s r)

include ranked three properA balanced

theorem inGap_range_wrong (gap : InGap rank s r a) (right : UpperBoundRight cmp s r b) : ¬RangeRight cmp s r a b := by
  rintro ⟨lower,upper,lowered,bound,scan⟩
  obtain ⟨iid,run,inner,missing⟩ := inGap_run ranked three properA balanced gap
  obtain rfl := ok_unique lowered run
  obtain ⟨upper',finish,bound',ends,first⟩ := right
  obtain rfl := ok_unique bound bound'
  obtain ⟨last,_,page,atEnd⟩ := balanced.shaped.last_leaf (by omega)
  obtain rfl := ok_unique ends atEnd
  have apart : lower ≠ upper := by
    rintro rfl
    rcases firstPosition_cases r ⟨last.page,last.items.length⟩ (fun k => decide (0 < cmp k b)) with atLast | ⟨p,member,here⟩
    · rw [atLast] at first
      exact inner (first ▸ page)
    · obtain ⟨node,there,pair⟩ := position_found balanced.bodies (positions_leaves r ▸ member)
      rw [first,here,getRid_run there pair] at missing
      cases (Prod.mk.inj missing).1
  have one := scan 1
  rw [scanRids,if_neg apart,bind_error missing] at one
  cases (Prod.mk.inj one).1

include properB

omit three balanced in
theorem in_range {k : κ} (properK : proper k) : (0 ≤ cmp k a ∧ cmp k b ≤ 0) ↔ rank a ≤ rank k ∧ rank k ≤ rank b := by
  have less := ranked.lt properK properA
  have greater := ranked.gt properK properB
  rw [← not_lt,← not_lt,less.not,← not_lt (a := rank b),← greater.not]
  simp

omit ranked three properA properB in
theorem position_unique {q : Iid × κ × Rid} (left : p ∈ positions r) (right : q ∈ positions r) (same : p.1 = q.1) :
    p.2 = q.2 := by
  obtain ⟨node,there,pair⟩ := position_found balanced.bodies (positions_leaves r ▸ left)
  obtain ⟨other,here,pair'⟩ := position_found balanced.bodies (positions_leaves r ▸ right)
  rw [same,here] at there
  rw [same,← Option.some.inj there,pair'] at pair
  exact (Option.some.inj pair).symm

omit three in
/-- From the first entry of the range on, the entries up to the upper bound are those of the range. -/
theorem range_taken {last : IxTree κ 0} {before : List (Iid × κ × Rid)} (atMost : rank a ≤ rank b)
    (final : last ∈ leafList r) (whole : positions r = before ++ l) (smaller : ∀ p ∈ before, rank p.2.1 < rank a)
    (larger : ∀ p ∈ l, rank a ≤ rank p.2.1)
    (first : upper = firstPosition r ⟨last.page,last.items.length⟩ fun k => decide (0 < cmp k b)) :
    (upper = ⟨last.page,last.items.length⟩ ∨ ∃ p ∈ l, p.1 = upper) ∧
    (l.takeWhile fun p => p.1 ≠ upper).map Prod.snd = r.entries.filter fun e => 0 ≤ cmp e.1 a ∧ cmp e.1 b ≤ 0 := by
  have apart := fun p member => position_ne_end (p := p) balanced.bodies final (positions_leaves r ▸ member)
  have properAll : ∀ p ∈ positions r, proper p.2.1 := fun p member =>
    entries_proper balanced.keys p.2 (show p.2 ∈ r.entries from positions_entries r ▸ List.mem_map_of_mem member)
  have unique := fun p q => position_unique (p := p) (q := q) balanced
  have sorted := balanced.sorted
  rw [← positions_entries,whole,List.map_append] at sorted
  obtain ⟨within,beyond,cut,small,large⟩ := sorted_upTo (List.pairwise_append.mp sorted).2.1 b
  obtain ⟨here,there,rfl,rfl,rfl⟩ := List.map_eq_append_iff.mp cut
  have small : ∀ p ∈ here, rank p.2.1 ≤ rank b := fun p member => small p.2 (List.mem_map_of_mem member)
  have large : ∀ p ∈ there, rank b < rank p.2.1 := fun p member => large p.2 (List.mem_map_of_mem member)
  rw [whole] at apart properAll unique
  have fails : ∀ p ∈ before ++ here, ¬ (decide (0 < cmp p.2.1 b) = true) := fun p member => by
    have less : ¬ rank b < rank p.2.1 := not_lt.mpr <| (List.mem_append.mp member).elim
      (fun inside => (lt_of_lt_of_le (smaller p inside) atMost).le) (small p)
    rw [decide_eq_true_eq]
    exact (ranked.gt (properAll p (by rw [← List.append_assoc]; exact List.mem_append_left _ member)) properB).not.mpr less
  have found : upper = (there.head?.map Prod.fst).getD ⟨last.page,last.items.length⟩ := by
    rw [first,firstPosition,whole,← List.append_assoc,List.find?_append,List.find?_eq_none.mpr fails,Option.none_or]
    cases there with
    | nil => rfl
    | cons p there =>
      rw [List.find?_cons_of_pos]
      · rfl
      · exact decide_eq_true ((ranked.gt (properAll p (by simp)) properB).mpr (large p List.mem_cons_self))
  have filtered : (r.entries.filter fun e => 0 ≤ cmp e.1 a ∧ cmp e.1 b ≤ 0) = here.map Prod.snd := by
    have among := fun p member => in_range ranked properA properB (properAll p member)
    rw [← positions_entries,whole,List.filter_map,List.filter_append,List.filter_append,List.filter_eq_nil_iff.mpr,
      List.filter_eq_self.mpr,List.filter_eq_nil_iff.mpr,List.append_nil,List.nil_append]
    · exact fun p member inside => not_le.mpr (large p member) ((among p (by simp [member])).mp (of_decide_eq_true inside)).2
    · exact fun p member => decide_eq_true ((among p (by simp [member])).mpr
        ⟨larger p (List.mem_append_left _ member),small p member⟩)
    · exact fun p member inside => not_le.mpr (smaller p member) ((among p (by simp [member])).mp (of_decide_eq_true inside)).1
  have ahead : ∀ p ∈ here, decide (p.1 ≠ upper) = true := fun p member => decide_eq_true fun same => by
    rw [found] at same
    cases there with
    | nil => exact apart p (by simp [member]) same
    | cons q there =>
      have entry := unique p q (by simp [member]) (by simp) same
      exact not_le.mpr (large q List.mem_cons_self) (entry ▸ small p member)
  rw [filtered,List.takeWhile_append_of_pos ahead,found]
  cases there with
  | nil => exact ⟨.inl rfl,by simp⟩
  | cons q there => exact ⟨.inr ⟨q,by simp,rfl⟩,by simp⟩

theorem outside_gap_range (ordered : cmp a b ≤ 0) (outside : ¬InGap rank s r a) (right : UpperBoundRight cmp s r b) :
    RangeRight cmp s r a b := by
  obtain ⟨path,leaf,_,rfl,reached⟩ := findLeafPage_reached ranked three balanced properA
  obtain ⟨_,_,_,sorted,_⟩ := balanced.at_leaf
  obtain ⟨low,high,items,below,above⟩ := sorted_below sorted a
  obtain ⟨upper,_,bound,ends,first⟩ := right
  obtain ⟨last,final,_,atEnd⟩ := balanced.shaped.last_leaf (by omega)
  obtain rfl := ok_unique ends atEnd
  have onward := balanced.onward_at (by omega)
  have atMost : rank a ≤ rank b := not_lt.mp fun less => absurd ((ranked.gt properA properB).mpr less) (by omega)
  have whole : positions (plug path leaf) = (path.collectLeft leafPositions ++ (leafPositions leaf).take low.length) ++
      positionsFrom leaf (path.collectRight fun leaf => [leaf]) low.length := by
    rw [positions_plug,positionsFrom,← Path.collectRight_leaves,List.append_assoc,List.append_assoc,
      ← List.append_assoc (List.take _ _),List.take_append_drop]
  have ownSmaller : ∀ p ∈ (leafPositions leaf).take low.length, rank p.2.1 < rank a := fun p member => below p.2 <| by
    have := List.mem_map_of_mem (f := Prod.snd) member
    rwa [List.map_take,leafPositions_entries,items,List.take_left] at this
  have ownLarger : ∀ p ∈ (leafPositions leaf).drop low.length, ¬ rank p.2.1 < rank a := fun p member => above p.2 <| by
    have := List.mem_map_of_mem (f := Prod.snd) member
    rwa [List.map_drop,leafPositions_entries,items,List.drop_left] at this
  obtain ⟨target,taken⟩ := range_taken ranked properA properB balanced atMost (List.mem_of_getLast? final) whole
    (List.forall_mem_append.mpr ⟨fun p member => balanced.left reached p.2 (left_positions ▸ List.mem_map_of_mem member),ownSmaller⟩)
    (List.forall_mem_append.mpr ⟨fun p member => not_lt.mp (ownLarger p member),fun p member =>
      (balanced.right reached p.2 (right_positions ▸ List.mem_map_of_mem member)).le⟩) first
  refine ⟨_,upper,lowerBound_run ranked three properA balanced reached items below above,bound,fun count => ?_⟩
  rw [leafList_plug,List.getLast?_append_cons] at final
  rw [scanRids_run onward final (by simp [items]) (fun full => ?_) target count,← taken,← List.map_take,List.map_map]
  · rfl
  · have none : high = [] := List.eq_nil_of_length_eq_zero (by rw [items,List.length_append] at full; omega)
    rw [none,List.append_nil] at items
    exact onward.last_iff.mp (by_contra fun inner => outside ⟨path,leaf,rfl,reached,items.symm ▸ below,inner⟩)

end Range

/-- In every well-formed tree `lower_bound` is right for the keys that do not fall between two leaves. -/
theorem lower_bound_right_iff (metas : List ColMeta) (order : Nat) (three : 3 ≤ order) (s : IndexFile (List Byte))
    (r : IxRoot (List Byte)) (balanced : Balanced (keyRank (ixCols metas)) (IsKey (ixCols metas)) order s r)
    (key : List Byte) (isKey : IsKey (ixCols metas) key) :
    LowerBoundRight (ixCompare (ixCols metas)) s r key ↔ ¬InGap (keyRank (ixCols metas)) s r key :=
  ⟨fun right gap => inGap_wrong ranked_bytes three isKey balanced gap right,
    outside_gap_right ranked_bytes three isKey balanced⟩

/-- 25 is looked for in the leaf of 10 and 20, and gets the position behind 20. -/
theorem lower_bound_in_gap : ∃ r, Balanced (keyRank (ixCols idCols)) (IsKey (ixCols idCols)) 3 tensFile r ∧
    ¬LowerBoundRight (ixCompare (ixCols idCols)) tensFile r (intBytes 25) := by
  obtain ⟨r,indexed,_⟩ := tensFile_stores
  refine ⟨r,indexed.balanced,?_⟩
  rintro ⟨iid,last,bound,ends,_,usable⟩
  have answer : (lowerBound store (ixCompare (ixCols idCols)) (intBytes 25) tensFile).1 = .ok ⟨2,2⟩ := by decide +kernel
  have finish : (leafEnd store tensFile).1 = .ok ⟨3,2⟩ := by decide +kernel
  obtain rfl : iid = ⟨2,2⟩ := Except.ok.inj ((congrArg Prod.fst bound).symm.trans answer)
  obtain rfl : last = ⟨3,2⟩ := Except.ok.inj ((congrArg Prod.fst ends).symm.trans finish)
  obtain ⟨⟨rid,read⟩,_⟩ := usable (by decide)
  have refused : (getRid store ⟨2,2⟩ tensFile).1 = .error .indexEntryNotFound := by decide +kernel
  rw [read] at refused
  cases refused

theorem tensFile_lower_bound : ∃ r, Balanced (keyRank (ixCols idCols)) (IsKey (ixCols idCols)) 3 tensFile r ∧
    (LowerBoundRight (ixCompare (ixCols idCols)) tensFile r (intBytes 10) ↔
      ¬InGap (keyRank (ixCols idCols)) tensFile r (intBytes 10)) := by
  obtain ⟨r,indexed,_⟩ := tensFile_stores
  have balanced := indexed.balanced
  exact ⟨r,balanced,lower_bound_right_iff idCols 3 (by decide) tensFile r balanced (intBytes 10) (by decide +kernel)⟩

/-- In every well-formed tree `upper_bound` is right for the keys that fall inside a leaf, and a scan from the
lower bound of `a` to the upper bound of `b` stops where it should if moreover `a` does not fall between two leaves. -/
theorem upper_bound_right_iff (metas : List ColMeta) (order : Nat) (three : 3 ≤ order) (s : IndexFile (List Byte))
    (r : IxRoot (List Byte)) (balanced : Balanced (keyRank (ixCols metas)) (IsKey (ixCols metas)) order s r)
    (b : List Byte) (isKey : IsKey (ixCols metas) b) :
    (UpperBoundRight (ixCompare (ixCols metas)) s r b ↔ InsideLeaf (keyRank (ixCols metas)) s r b) ∧
    ∀ a, IsKey (ixCols metas) a → ixCompare (ixCols metas) a b ≤ 0 →
      (UpperBoundRight (ixCompare (ixCols metas)) s r b ∧ RangeRight (ixCompare (ixCols metas)) s r a b ↔
        InsideLeaf (keyRank (ixCols metas)) s r b ∧ ¬InGap (keyRank (ixCols metas)) s r a) := by
  have bound : UpperBoundRight (ixCompare (ixCols metas)) s r b ↔ InsideLeaf (keyRank (ixCols metas)) s r b :=
    ⟨fun right => by_contra fun outside => outside_leaf_wrong ranked_bytes three isKey balanced outside right,
      insideLeaf_right ranked_bytes three isKey balanced⟩
  refine ⟨bound,fun a isKeyA ordered => ?_⟩
  rw [← bound]
  refine and_congr_right fun right => ⟨fun range gap => ?_,fun outside => ?_⟩
  · exact inGap_range_wrong ranked_bytes three isKeyA balanced gap right range
  · exact outside_gap_range ranked_bytes three isKeyA isKey balanced ordered outside right

/-- Behind 20, the last key of its leaf, there are two more, and yet the answer is the end. -/
theorem upper_bound_at_leaf_end : ∃ r, Balanced (keyRank (ixCols idCols)) (IsKey (ixCols idCols)) 3 tensFile r ∧
    ¬UpperBoundRight (ixCompare (ixCols idCols)) tensFile r (intBytes 20) := by
  obtain ⟨r,indexed,stored⟩ := tensFile_stores
  have balanced := indexed.balanced
  refine ⟨r,balanced,?_⟩
  rintro ⟨iid,upper,bound,ends,right⟩
  have answer : (upperBound store (ixCompare (ixCols idCols)) (intBytes 20) tensFile).1 = .ok ⟨3,2⟩ := by decide +kernel
  have finish : (leafEnd store tensFile).1 = .ok ⟨3,2⟩ := by decide +kernel
  obtain rfl : iid = ⟨3,2⟩ := Except.ok.inj ((congrArg Prod.fst bound).symm.trans answer)
  obtain rfl : upper = ⟨3,2⟩ := Except.ok.inj ((congrArg Prod.fst ends).symm.trans finish)
  obtain ⟨last,atEnd,_,same⟩ := balanced.shaped.last_leaf (by decide)
  have isEnd : (⟨3,2⟩ : Iid) = ⟨last.page,last.items.length⟩ := ok_unique ends same
  -- 30 is among the entries, and greater
  have thirty : lookup (keyRank (ixCols idCols)) r.entries (intBytes 30) = some ⟨1,2⟩ :=
    (stored (intBytes 30)).trans (by decide +kernel)
  obtain ⟨e,found,_⟩ := Option.map_eq_some_iff.mp thirty
  have member := List.mem_of_find?_eq_some found
  have rank : keyRank (ixCols idCols) e.1 = keyRank (ixCols idCols) (intBytes 30) := by
    simpa using List.find?_some found
  have less : keyRank (ixCols idCols) (intBytes 20) < keyRank (ixCols idCols) e.1 := by
    rw [rank]
    decide +kernel
  have greater : 0 < ixCompare (ixCols idCols) e.1 (intBytes 20) :=
    (ranked_bytes.gt (entries_proper balanced.keys e member) (by decide +kernel)).mpr less
  rw [isEnd] at right
  have apart : firstPosition r ⟨last.page,last.items.length⟩
      (fun k => decide (0 < ixCompare (ixCols idCols) k (intBytes 20))) ≠ ⟨last.page,last.items.length⟩ :=
    firstPosition_ne_end balanced atEnd _ member (decide_eq_true greater)
  exact apart right.symm

/-- From 20 to 30 a scan crosses from the first leaf to the second. -/
theorem tensFile_upper_bound : ∃ r, Balanced (keyRank (ixCols idCols)) (IsKey (ixCols idCols)) 3 tensFile r ∧
    (UpperBoundRight (ixCompare (ixCols idCols)) tensFile r (intBytes 30) ↔
      InsideLeaf (keyRank (ixCols idCols)) tensFile r (intBytes 30)) ∧
    (UpperBoundRight (ixCompare (ixCols idCols)) tensFile r (intBytes 30) ∧
        RangeRight (ixCompare (ixCols idCols)) tensFile r (intBytes 20) (intBytes 30) ↔
      InsideLeaf (keyRank (ixCols idCols)) tensFile r (intBytes 30) ∧
        ¬InGap (keyRank (ixCols idCols)) tensFile r (intBytes 20)) ∧
    (scanRids store ⟨3,1⟩ 4 ⟨2,1⟩ tensFile).1 = .ok [⟨1,1⟩,⟨1,2⟩] := by
  obtain ⟨r,indexed,_⟩ := tensFile_stores
  have balanced := indexed.balanced
  have both := upper_bound_right_iff idCols 3 (by decide) tensFile r balanced (intBytes 30) (by decide +kernel)
  exact ⟨r,balanced,both.1,both.2 (intBytes 20) (by decide +kernel) (by decide +kernel),by decide +kernel⟩

end Rucbase.IndexTree
