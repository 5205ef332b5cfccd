import Rucbase.IndexRuns

/-! The pages of an index as a B+ tree: what the page headers, keys and links say once a run of
`insert_entry` is over. -/
namespace Rucbase.IndexTree

open Lib Lib.BTree IxIndexHandle
open IndexFile (store)

variable {κ L : Type} [LinearOrder L] {h : Nat}

/-- The keys of a subtree that a search compares with: all keys of the leaves, and those of the
inner nodes from position 1 on. -/
def keysBelow : (h : Nat) → IxTree κ h → List κ
  | 0, t => t.items.map Prod.fst
  | h + 1, t => (t.items : List (κ × IxTree κ h)).tail.map Prod.fst ++
      List.flatMap (fun kid : κ × IxTree κ h => keysBelow h kid.2) t.items

/-- The order of the keys in every node, and between a node's keys and its subtrees. -/
def Ordered (cmp : κ → κ → Int) : (h : Nat) → IxTree κ h → Prop
  | 0, t => t.items.Pairwise fun a b => cmp a.1 b.1 < 0
  | h + 1, t => ((t.items : List (κ × IxTree κ h)).tail.Pairwise fun a b => cmp a.1 b.1 < 0) ∧
      (∀ (before : List (κ × IxTree κ h)) key kid after, t.items = before ++ (key,kid) :: after → before ≠ [] →
        firstKey kid = some key ∧ ∀ left ∈ before, ∀ k ∈ keysBelow h left.2, cmp k key < 0) ∧
      ∀ kid ∈ (t.items : List (κ × IxTree κ h)), Ordered cmp h kid.2

/-- The occupancy of every node; the root needs only `least` pairs. -/
def Filled (lo hi : Int) : (least : Int) → (h : Nat) → IxTree κ h → Prop
  | least, 0, t => least ≤ t.items.length ∧ t.items.length ≤ hi
  | least, h + 1, t => (least ≤ t.items.length ∧ t.items.length ≤ hi) ∧
      ∀ kid ∈ (t.items : List (κ × IxTree κ h)), Filled lo hi lo h kid.2

/-- The pages form the B+ tree `r`: `Holds` says that its leaves are at one depth and that every
node names the node above it, the root none. -/
structure WellFormed (cmp : κ → κ → Int) (s : IndexFile κ) (r : IxRoot κ) : Prop where
  holds : Holds s.body r.height invalidPageId r.tree
  root : s.hdr.rootPage = r.tree.page
  distinct : r.pages.Nodup
  ordered : Ordered cmp r.height r.tree
  filled : Filled s.hdr.minSize s.hdr.btreeOrder 0 r.height r.tree
  ring : Chained s.links ixLeafHeaderPage (leafPages r ++ [ixLeafHeaderPage])
  inOrder : r.entries.Pairwise fun a b => cmp a.1 b.1 < 0
  firstLeaf : (leafPages r).head? = some s.hdr.firstLeaf
  lastLeaf : (leafPages r).getLast? = some s.hdr.lastLeaf

variable {t : IxTree κ h} {left : Bool}

section Shape

variable {cmp : κ → κ → Int} {rank : κ → L} {proper : κ → Prop} {lo hi : Nat}

theorem firstRest_mem {α : Type} {P : Bool → α → Prop} {flag : Bool} {l : List α} (all : FirstRest P flag l) {a : α}
    (member : a ∈ l) : ∃ left, P left a := by
  cases l with
  | nil => exact nomatch member
  | cons b rest =>
    rcases List.mem_cons.mp member with rfl | later
    · exact ⟨flag,all.1⟩
    · exact ⟨false,all.2 a later⟩

theorem entries_proper (keys : AllKeys proper h t) : ∀ e ∈ entries t, proper e.1 := by
  induction h with
  | zero => exact keys
  | succ h ih =>
    intro e member
    obtain ⟨kid,among,inside⟩ := List.mem_flatMap.mp member
    exact ih (keys kid among).2 e inside

theorem keysBelow_entries  (below : Below lo hi h left t) :
    ∀ k ∈ keysBelow h t, ∃ value, (k,value) ∈ entries t := by
  induction h generalizing left with
  | zero =>
    intro k member
    obtain ⟨e,among,rfl⟩ := List.mem_map.mp member
    exact ⟨e.2,among⟩
  | succ h ih =>
    intro k member
    have inKid {kid : κ × IxTree κ h} (among : kid ∈ t.items) (inside : ∃ value, (k,value) ∈ entries kid.2) :
        ∃ value, (k,value) ∈ entries t := by
      obtain ⟨value,there⟩ := inside
      exact ⟨value,List.mem_flatMap.mpr ⟨kid,among,there⟩⟩
    rcases List.mem_append.mp member with own | deeper
    · obtain ⟨kid,among,rfl⟩ := List.mem_map.mp own
      obtain ⟨page,items⟩ := t
      cases items with
      | nil => exact nomatch among
      | cons first rest => exact inKid (List.mem_cons_of_mem _ among) (label_mem_entries (below.2 kid among))
    · obtain ⟨kid,among,inside⟩ := List.mem_flatMap.mp deeper
      obtain ⟨_,sound⟩ := firstRest_mem below among
      exact inKid among (ih sound.2.2.2 k inside)

theorem sorted_pairwise {β : Type} (ranked : Ranked cmp rank proper) {l : List (κ × β)} (sorted : Sorted rank l)
    (keys : ∀ e ∈ l, proper e.1) : l.Pairwise fun a b => cmp a.1 b.1 < 0 :=
  sorted.imp_of_mem fun inA inB less => (ranked.lt (keys _ inA) (keys _ inB)).mpr less

theorem ordered_of_sorted (ranked : Ranked cmp rank proper) (below : Below lo hi h left t)
    (sorted : Sorted rank (entries t)) (keys : AllKeys proper h t) :
    Ordered cmp h t := by
  induction h generalizing left with
  | zero => exact sorted_pairwise ranked sorted keys
  | succ h ih =>
    have labels := keys.items
    refine ⟨sorted_pairwise ranked (labels_sorted below sorted) fun e member =>
      labels e (List.mem_of_mem_tail member),fun before key kid after items inner => ⟨?_,?_⟩,fun kid among => ?_⟩
    · have sound := below_succ.mp below
      rw [items,firstRest_append,List.isEmpty_eq_false_iff.mpr inner,Bool.and_false] at sound
      exact sound.2.1.1 rfl
    · intro other among k member
      have inItems : other ∈ t.items := items ▸ List.mem_append_left _ among
      obtain ⟨_,sound⟩ := firstRest_mem (below_succ.mp below) inItems
      obtain ⟨value,there⟩ := keysBelow_entries sound.2.2.2 k member
      have smaller := before_label (items ▸ below_succ.mp below) inner (by rw [← items]; exact sorted)
        (k,value) (List.mem_flatMap.mpr ⟨other,among,there⟩)
      have properKey : proper key := labels (key,kid) (items ▸ List.mem_append_right _ List.mem_cons_self)
      exact (ranked.lt (entries_proper (keys other inItems).2 _ there) properKey).mpr smaller
    · obtain ⟨_,sound⟩ := firstRest_mem (below_succ.mp below) among
      exact ih sound.2.2.2 ((List.pairwise_flatMap.mp sorted).1 kid among) (keys kid among).2

theorem filled_of_below {least : Nat} (below : Below lo hi h left t) (some : least ≤ t.items.length)
    (most : t.items.length ≤ hi) : Filled lo hi least h t := by
  induction h generalizing left least with
  | zero => exact ⟨by omega,by omega⟩
  | succ h ih =>
    refine ⟨⟨by omega,by omega⟩,fun kid among => ?_⟩
    obtain ⟨_,sound⟩ := firstRest_mem (below_succ.mp below) among
    exact ih sound.2.2.2 sound.2.1 sound.2.2.1

theorem Indexed.wellFormed (ranked : Ranked cmp rank proper) {order : Nat} {s : IndexFile κ} {r : IxRoot κ}
    (indexed : Indexed rank proper order s r) : WellFormed cmp s r where
  holds := indexed.holds
  root := indexed.root
  distinct := indexed.distinct
  ordered := ordered_of_sorted ranked indexed.sound.2.2.2 indexed.sorted indexed.keys
  filled := by
    have least : s.hdr.minSize = ((order + 1) / 2 : Nat) := by
      rw [IxFileHdr.minSize,IxFileHdr.maxSize,indexed.ordered]; omega
    rw [least,indexed.ordered]
    exact filled_of_below indexed.sound.2.2.2 (Nat.zero_le _) indexed.sound.2.2.1
  ring := indexed.chain
  inOrder := sorted_pairwise ranked indexed.sorted (entries_proper indexed.keys)
  firstLeaf := indexed.firstLeaf
  lastLeaf := indexed.lastLeaf

end Shape

/-- As long as no key holds a NaN, the pages form a B+ tree after every run of inserts. -/
theorem inserts_well_formed (metas : List ColMeta) (order : Nat) (three : 3 ≤ order) (page0 : IxNode (List Byte))
    (inserts : List (List Byte × Rid)) (keys : ∀ e ∈ inserts, IsKey (ixCols metas) e.1) :
    ∃ answers s r, insertAll (ixCompare (ixCols metas)) inserts (created page0 (createdHdr metas order)) =
        (.ok answers,s) ∧ s.hdr.btreeOrder = order ∧ WellFormed (ixCompare (ixCols metas)) s r := by
  obtain ⟨answers,s,run,⟨r,indexed,_⟩,_⟩ :=
    (created_stores metas order page0).insertAll ranked_bytes three keys
  exact ⟨answers,s,r,run,indexed.ordered,indexed.wellFormed ranked_bytes⟩

def pricedCols : List ColMeta := [⟨"t","price",.float,4,0,false⟩,⟨"t","id",.int,4,4,false⟩]

/-- Keys with 1.0, NaN, 0.5 and 0.7 as prices, in the order they are inserted. -/
def pricedKeys : List (List Byte × Rid) :=
  [([0,0,0x80,0x3f] ++ intBytes 3,⟨1,0⟩),([0,0,0xc0,0x7f] ++ intBytes 5,⟨1,1⟩),
    ([0,0,0,0x3f] ++ intBytes 7,⟨1,2⟩),([0x33,0x33,0x33,0x3f] ++ intBytes 6,⟨1,3⟩)]

def pricedFile : IndexFile (List Byte) :=
  (insertAll (ixCompare (ixCols pricedCols)) pricedKeys (created .zero (createdHdr pricedCols 3))).2

/-- The comparison with the NaN goes by the second column, so 0.5 is put behind 1.0: the key of
the right leaf is smaller than one in the left leaf. -/
theorem nan_disorders :
    (insertAll (ixCompare (ixCols pricedCols)) pricedKeys (created .zero (createdHdr pricedCols 3))).1 =
      .ok [true,true,true,true] ∧
    ∀ r, ¬WellFormed (ixCompare (ixCols pricedCols)) pricedFile r := by
  refine ⟨by decide +kernel,fun r formed => ?_⟩
  have rootBody : pricedFile.body pricedFile.hdr.rootPage = some (false,-1,
      [(pricedKeys[0].1,⟨2,-1⟩),(pricedKeys[2].1,⟨3,-1⟩)]) := by decide +kernel
  have leftBody : pricedFile.body 2 = some (true,4,pricedKeys.take 2) := by decide +kernel
  obtain ⟨height,tree⟩ := r
  have held := holds_body formed.holds
  rw [← formed.root,rootBody] at held
  cases height with
  | zero => simp at held
  | succ h =>
    obtain ⟨page,items⟩ := tree
    obtain ⟨_,pairs⟩ : invalidPageId = -1 ∧
        pointers items = [(pricedKeys[0].1,⟨2,-1⟩),(pricedKeys[2].1,⟨3,-1⟩)] := by
      simpa [nodePairs] using held.symm
    obtain ⟨⟨k,left⟩,rest,rfl⟩ : ∃ kid rest, items = kid :: rest :=
      List.exists_cons_of_ne_nil (by rintro rfl; simp [pointers] at pairs)
    obtain ⟨⟨key,right⟩,none,rfl⟩ : ∃ kid more, rest = kid :: more :=
      List.exists_cons_of_ne_nil (by rintro rfl; simp [pointers] at pairs)
    obtain ⟨⟨_,leftPage⟩,⟨rfl,_⟩,_⟩ : (k = pricedKeys[0].1 ∧ left.page = 2) ∧
        (key = pricedKeys[2].1 ∧ right.page = 3) ∧ none = [] := by
      simpa [pointers] using pairs
    have leftHeld := holds_body (formed.holds.2 (k,left) List.mem_cons_self)
    rw [leftPage,leftBody] at leftHeld
    cases h with
    | succ h => simp at leftHeld
    | zero =>
      obtain ⟨_,leftItems⟩ : page = 4 ∧ left.items = pricedKeys.take 2 := by
        simpa [nodePairs] using leftHeld.symm
      have member : pricedKeys[0].1 ∈ keysBelow 0 left := by rw [keysBelow,leftItems]; decide
      have smaller := (formed.ordered.2.1 [(k,left)] _ right none rfl (by simp)).2 (k,left)
        List.mem_cons_self _ member
      exact absurd smaller (by decide +kernel)

/-- Five inserts with a split. -/
theorem fiveInserts_well_formed :
    let metas : List ColMeta := [⟨"t","id",.int,4,0,false⟩]
    let inserts : List (List Byte × Rid) :=
      [(intBytes 7,⟨1,0⟩),(intBytes (-3),⟨1,1⟩),(intBytes 4,⟨1,2⟩),(intBytes 12,⟨1,3⟩),(intBytes 9,⟨1,4⟩)]
    (∀ e ∈ inserts, IsKey (ixCols metas) e.1) ∧
    ∃ answers s r, insertAll (ixCompare (ixCols metas)) inserts (created .zero (createdHdr metas 3)) =
        (.ok answers,s) ∧ s.hdr.btreeOrder = 3 ∧ WellFormed (ixCompare (ixCols metas)) s r :=
  ⟨by decide +kernel,inserts_well_formed _ 3 (by decide) .zero _ (by decide +kernel)⟩

end Rucbase.IndexTree
