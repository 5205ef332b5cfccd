import Rucbase.IndexInsert
import Rucbase.IndexSearch
import Mathlib.Data.List.Perm.Subperm

/-! The index as a map. The invariant of a file that only `insert_entry` changes, that each
call keeps it and adds at most its own key, and what `get_value` finds. -/
namespace Rucbase.IndexTree

open Lib Lib.BTree IxIndexHandle
open IndexFile (store grownHdr)

variable {κ L : Type} [LinearOrder L]

def leafPages (r : IxRoot κ) : List Int := r.collect fun leaf => [leaf.page]

/-- The file holds the tree `r`, whose leaves are linked in a ring through the header page. -/
structure Indexed (rank : κ → L) (proper : κ → Prop) (order : Nat) (s : IndexFile κ) (r : IxRoot κ) : Prop where
  holds : Holds s.body r.height invalidPageId r.tree
  root : s.hdr.rootPage = r.tree.page
  ordered : s.hdr.btreeOrder = order
  sound : r.Sound ((order + 1) / 2) order
  sorted : Sorted rank r.entries
  keys : r.AllKeys proper
  distinct : r.pages.Nodup
  old : ∀ p ∈ r.pages, 2 ≤ p ∧ p < s.nextPage
  chain : Chained s.links ixLeafHeaderPage (leafPages r ++ [ixLeafHeaderPage])
  firstLeaf : (leafPages r).head? = some s.hdr.firstLeaf
  lastLeaf : (leafPages r).getLast? = some s.hdr.lastLeaf

/-- The file holds the tree: all of `Indexed` that does not depend on the order of the keys or on
the sizes of the nodes. -/
structure Housed (proper : κ → Prop) (order : Nat) (s : IndexFile κ) (r : IxRoot κ) : Prop where
  holds : Holds s.body r.height invalidPageId r.tree
  root : s.hdr.rootPage = r.tree.page
  ordered : s.hdr.btreeOrder = order
  keys : r.AllKeys proper
  distinct : r.pages.Nodup
  old : ∀ p ∈ r.pages, 2 ≤ p ∧ p < s.nextPage
  chain : Chained s.links ixLeafHeaderPage (leafPages r ++ [ixLeafHeaderPage])
  firstLeaf : (leafPages r).head? = some s.hdr.firstLeaf
  lastLeaf : (leafPages r).getLast? = some s.hdr.lastLeaf

variable {cmp : κ → κ → Int} {rank : κ → L} {proper : κ → Prop} {order : Nat} {s : IndexFile κ} {r : IxRoot κ}

theorem Indexed.housed (indexed : Indexed rank proper order s r) : Housed proper order s r := { indexed with }

theorem length_le_of_bound {l : List Int} {n : Nat} (distinct : l.Nodup) (bound : ∀ p ∈ l, 2 ≤ p ∧ p < n) :
    l.length ≤ n := by
  have inside : l ⊆ (List.range n).map Nat.cast := by
    intro p member
    obtain ⟨low,high⟩ := bound p member
    exact List.mem_map.mpr ⟨p.toNat,List.mem_range.mpr (by omega),by omega⟩
  simpa using (distinct.subperm inside).length_le

theorem leafPages_plug (path : IxPath κ 0) (leaf : IxTree κ 0) :
    leafPages (plug path leaf) = path.collectLeft (fun leaf => [leaf.page]) ++ leaf.page ::
      path.collectRight fun leaf => [leaf.page] := by
  rw [leafPages,plug_collect,List.append_assoc]
  rfl

theorem leafPages_sublist (r : IxRoot κ) : (leafPages r).Sublist r.pages := leaves_sublist r.tree

theorem Housed.leafPages_old (housed : Housed proper order s r) :
    ∀ p ∈ leafPages r, 2 ≤ p ∧ p < s.nextPage := fun p member =>
  housed.old p ((leafPages_sublist _).subset member)

theorem Housed.leafPages_distinct (housed : Housed proper order s r) : (leafPages r).Nodup :=
  (leafPages_sublist _).nodup housed.distinct

theorem Housed.ring_distinct (housed : Housed proper order s r) :
    (leafPages r ++ [ixLeafHeaderPage]).Nodup := by
  refine housed.leafPages_distinct.append (List.nodup_singleton _) fun p member header => ?_
  rw [List.mem_singleton.mp header] at member
  exact absurd (housed.leafPages_old _ member).1 (by decide)
section Split

variable {path : IxPath κ 0} {leaf : IxTree κ 0} (housed : Housed proper order s (plug path leaf))

include housed

theorem Housed.around_old : ∀ p ∈ path.around ++ [leaf.page], 2 ≤ p ∧ p < s.nextPage := fun p inside =>
  housed.old p ((plug_pages path leaf).mem_iff.mpr inside)

theorem Housed.around_distinct : (path.around ++ [leaf.page]).Nodup :=
  (plug_pages path leaf).nodup_iff.mp housed.distinct

theorem Housed.ring : ∃ prev after back beyond, s.links leaf.page = some (prev,after) ∧
    s.links after = some (back,beyond) ∧ leaf.page ≠ s.nextPage ∧ after ≠ s.nextPage ∧ after ≠ leaf.page ∧
    Chained (relink s.links leaf.page s.nextPage after prev beyond) ixLeafHeaderPage
      (path.collectLeft (fun leaf => [leaf.page]) ++ leaf.page :: (s.nextPage : Int) ::
        path.collectRight (fun leaf => [leaf.page]) ++ [ixLeafHeaderPage]) := by
  have chain := housed.chain
  have ring := housed.ring_distinct
  have old := housed.leafPages_old
  have here : leaf.page ∈ leafPages (plug path leaf) := by rw [leafPages_plug]; simp
  have bounds : ∀ p ∈ leafPages (plug path leaf) ++ [ixLeafHeaderPage], 1 ≤ p ∧ p < s.nextPage := by
    have := old _ here
    refine List.forall_mem_append.mpr ⟨fun p member => ?_,List.forall_mem_singleton.mpr ?_⟩
    · have := old p member; omega
    · simp only [ixLeafHeaderPage]; omega
  obtain ⟨after,rest,cut⟩ : ∃ after rest,
      path.collectRight (fun leaf => [leaf.page]) ++ [ixLeafHeaderPage] = after :: rest :=
    List.exists_cons_of_ne_nil (by simp)
  rw [leafPages_plug,List.append_assoc,List.cons_append,cut] at chain bounds ring
  have unused : (s.nextPage : Int) ∉ path.collectLeft (fun leaf => [leaf.page]) ++ leaf.page :: after :: rest :=
    fun member => absurd (bounds _ member).2 (by omega)
  have inner : leaf.page ≠ ixLeafHeaderPage := by
    have := (old _ here).1
    simp only [ixLeafHeaderPage]; omega
  have start : (s.nextPage : Int) ≠ ixLeafHeaderPage := by
    have := old _ here
    simp only [ixLeafHeaderPage]; omega
  obtain ⟨prev,beyond,pLinks,afterLinks,linked⟩ := chain.insert ring inner unused start
  refine ⟨prev,after,leaf.page,beyond,pLinks,afterLinks,?_,?_,?_,?_⟩
  · exact Int.ne_of_lt (old _ here).2
  · exact Int.ne_of_lt (bounds after (by simp)).2
  · rintro rfl
    simp [List.nodup_append] at ring
  · rw [List.append_assoc,List.cons_append,List.cons_append,cut]
    exact linked

abbrev lowerHalf (leaf : IxTree κ 0) : IxTree κ 0 := ⟨leaf.page,leaf.items.take (leaf.items.length / 2)⟩

abbrev upperHalf (page : Nat) (leaf : IxTree κ 0) : IxTree κ 0 :=
  ⟨(page : Int),leaf.items.drop (leaf.items.length / 2)⟩

theorem Housed.halves (full : leaf.items.length = order + 1) (three : 3 ≤ order) {s' : IndexFile κ}
    (body : s'.body = Function.update (Function.update s.body s.nextPage
      (some (true,above path,(upperHalf s.nextPage leaf).items)))
        leaf.page (some (true,above path,(lowerHalf leaf).items))) (nextPage : s'.nextPage = s.nextPage + 1)
    (root : s'.hdr.rootPage = s.hdr.rootPage) :
    Halves s' path (lowerHalf leaf) (upperHalf s.nextPage leaf) := by
  have old := housed.around_old
  have apart := (List.nodup_append.mp housed.around_distinct).2.2
  have listed : (path.around ++ ([leaf.page] ++ [(s.nextPage : Int)])).Perm
      ((s.nextPage : Int) :: (path.around ++ [leaf.page])) := by
    rw [← List.append_assoc]
    exact List.perm_append_singleton _ _
  have unused : ∀ p ∈ path.around ++ [leaf.page], p ≠ s.nextPage := fun p member =>
    Int.ne_of_lt (old p member).2
  constructor
  · show s'.body leaf.page = _
    rw [body,Function.update_self]
  · show s'.body s.nextPage = _
    rw [body,Function.update_of_ne (unused leaf.page (by simp)).symm,Function.update_self]
  · refine ((holds_plug path leaf).mp housed.holds).1.congr fun p inside => ?_
    rw [body,Function.update_of_ne (apart p inside _ (List.mem_singleton_self _)),
      Function.update_of_ne (unused p (List.mem_append_left _ inside))]
  · rw [root]
    exact housed.root.trans (plug_page path leaf)
  · exact listed.nodup_iff.mpr (List.nodup_cons.mpr ⟨fun inside => unused _ inside rfl,housed.around_distinct⟩)
  · intro p inside
    rw [nextPage]
    rcases List.mem_cons.mp (listed.mem_iff.mp inside) with rfl | inside
    · omega
    · have := old p inside
      omega
  · intro empty
    have none : (leaf.items.take (leaf.items.length / 2)).length = 0 := congrArg List.length empty
    rw [List.length_take] at none
    omega

omit housed in
theorem grown_pages {t new : IxTree κ 0} {key : κ} {s' : IndexFile κ} {n : Nat} (halves : Halves s path t new)
    (low : ∀ p ∈ path.around ++ (pages 0 t ++ pages 0 new), 2 ≤ p)
    (grown : Grown s s' (graft Nat.cast n s.nextPage path t key new).1
      (graft (Nat.cast : Nat → Int) n s.nextPage path t key new).2) :
    (graft (Nat.cast : Nat → Int) n s.nextPage path t key new).1.pages.Nodup ∧
      ∀ p ∈ (graft (Nat.cast : Nat → Int) n s.nextPage path t key new).1.pages, 2 ≤ p ∧ p < s'.nextPage := by
  obtain ⟨taken,counter,listed⟩ : ∃ taken, (graft (Nat.cast : Nat → Int) n s.nextPage path t key new).2 =
      s.nextPage + taken ∧ (graft (Nat.cast : Nat → Int) n s.nextPage path t key new).1.pages.Perm
        (path.around ++ (pages 0 t ++ pages 0 new) ++ (List.range' s.nextPage taken).map Nat.cast) :=
    graft_pages path s.nextPage t new key
  have later : ∀ p ∈ (List.range' s.nextPage taken).map (Nat.cast : Nat → Int),
      (s.nextPage : Int) ≤ p ∧ p < s.nextPage + taken := by
    intro p member
    obtain ⟨i,inside,rfl⟩ := List.mem_map.mp member
    have := List.mem_range'_1.mp inside
    omega
  have here := halves.old
  constructor
  · refine listed.nodup_iff.mpr (List.nodup_append.mpr ⟨halves.distinct,?_,fun p old q new => ?_⟩)
    · exact (List.nodup_range').map fun a b same => Int.ofNat.inj same
    · have := (here p old).2
      have := (later q new).1
      omega
  · intro p member
    rw [grown.nextPage,counter]
    rcases List.mem_append.mp (listed.mem_iff.mp member) with inside | new
    · have := low p inside
      have := here p inside
      omega
    · have := later p new
      have := low t.page (by simp [pages])
      have := here t.page (by simp [pages])
      omega

theorem Housed.lastLeaf_split (page : Int) :
    (path.collectLeft (fun leaf => [leaf.page]) ++ leaf.page :: page ::
        path.collectRight (fun leaf => [leaf.page])).getLast? =
      some (if leaf.page = s.hdr.lastLeaf then page else s.hdr.lastLeaf) := by
  have last := housed.lastLeaf
  have distinct := housed.leafPages_distinct
  rw [leafPages_plug] at last distinct
  rcases List.eq_nil_or_concat (path.collectRight fun leaf => [leaf.page]) with none | ⟨right,final,cut⟩
  · rw [none] at last ⊢
    have here : leaf.page = s.hdr.lastLeaf := by simpa using last
    rw [if_pos here]
    simp
  · rw [cut] at last distinct ⊢
    have there : final = s.hdr.lastLeaf := by simpa [List.getLast?_append,List.getLast?_cons] using last
    have apart : leaf.page ≠ s.hdr.lastLeaf := by
      rintro same
      rw [← there] at same
      simp [List.nodup_append,same] at distinct
    rw [if_neg apart]
    simpa [List.getLast?_append,List.getLast?_cons] using there

/-- The file after `split`, with the header's last leaf moved on. -/
structure Parted (s s' : IndexFile κ) (path : IxPath κ 0) (leaf : IxTree κ 0) : Prop where
  halves : Halves s' path (lowerHalf leaf) (upperHalf s.nextPage leaf)
  nextPage : s'.nextPage = s.nextPage + 1
  order : s'.hdr.btreeOrder = s.hdr.btreeOrder
  firstLeaf : s'.hdr.firstLeaf = s.hdr.firstLeaf
  lastLeaf : s'.hdr.lastLeaf = if leaf.page = s.hdr.lastLeaf then (s.nextPage : Int) else s.hdr.lastLeaf
  chain : Chained s'.links ixLeafHeaderPage (path.collectLeft (fun leaf => [leaf.page]) ++ leaf.page ::
    (s.nextPage : Int) :: path.collectRight (fun leaf => [leaf.page]) ++ [ixLeafHeaderPage])

theorem Housed.split_run (full : leaf.items.length = order + 1) (three : 3 ≤ order) :
    ∃ s' first, firstKey (upperHalf s.nextPage leaf) = some first ∧ Parted s s' path leaf ∧
      splitLeaf store leaf.page s =
        (do insertIntoParent store (s.nextPage + 1) leaf.page first (s.nextPage : Int)
            let _ ← store.unpin (s.nextPage : Int) true : Prog (IndexFile κ) RMDBError Unit) s' := by
  obtain ⟨prev,after,back,beyond,linked,next,old,oldNext,apart,chain⟩ := housed.ring
  obtain ⟨s1,run,looks⟩ := IndexFile.split_leaf_run ((holds_plug path leaf).mp housed.holds).2 linked next old oldNext apart
  obtain ⟨s2,moved⟩ : ∃ s2, s2 = { s1 with hdr := if leaf.page = s1.hdr.lastLeaf then
    { s1.hdr with lastLeaf := (s.nextPage : Int) } else s1.hdr } := ⟨_,rfl⟩
  have hdr : s2.hdr = if leaf.page = s.hdr.lastLeaf then
      { grownHdr s.hdr with lastLeaf := (s.nextPage : Int) } else grownHdr s.hdr := by
    rw [moved,looks.hdr]; rfl
  have nextPage : s2.nextPage = s.nextPage + 1 := moved ▸ looks.nextPage
  have root : s2.hdr.rootPage = s.hdr.rootPage := by rw [hdr]; split <;> rfl
  have body : s2.body = s1.body := by rw [moved]; rfl
  have halves := housed.halves full three (body.trans looks.body) nextPage root
  have some : 0 < (upperHalf s.nextPage leaf).items.length := by
    rw [List.length_drop,full]; omega
  obtain ⟨⟨first,value⟩,more,cut⟩ := List.exists_cons_of_length_pos some
  obtain ⟨right,there,_,_,pairs⟩ := IndexFile.body_found (holds_body halves.upper)
  have head : pairAt store (s.nextPage : Int) 0 s2 = (.ok (first,value),s2) :=
    IndexFile.pairAt_run there (by rw [pairs,nodePairs,cut]; rfl)
  refine ⟨s2,first,by rw [firstKey,cut]; rfl,⟨halves,nextPage,?_,?_,?_,?_⟩,?_⟩
  · rw [hdr]; split <;> rfl
  · rw [hdr]; split <;> rfl
  · rw [hdr]; split <;> rfl
  · have links : s2.links = s1.links := by rw [moved]; rfl
    rw [links,looks.links]
    exact chain
  · have step : store.setHdr (fun hdr => if leaf.page = hdr.lastLeaf then
        { hdr with lastLeaf := (s.nextPage : Int) } else hdr) s1 = (.ok (),s2) := by
      rw [moved]; rfl
    rw [splitLeaf,Prog.bind_ok run,Prog.bind_ok step,Prog.bind_ok head,Prog.bind_ok IndexFile.pageCount_run,nextPage]

/-- The tree once the parents know the new leaf. -/
abbrev regrown (order : Nat) (s : IndexFile κ) (path : IxPath κ 0) (leaf : IxTree κ 0) (first : κ) :
    IxRoot κ × Nat :=
  graft (Nat.cast : Nat → Int) (order + 1) (s.nextPage + 1) path (lowerHalf leaf) first
    (upperHalf s.nextPage leaf)

omit housed in
theorem regrown_entries (first : κ) :
    (regrown order s path leaf first).1.entries = (plug path leaf).entries := by
  rw [plug_entries]
  refine (graft_collect _ path _ _ _ _).trans ?_
  simp only [collect,List.take_append_drop]
  rfl

omit housed in
theorem regrown_leafPages (first : κ) : leafPages (regrown order s path leaf first).1 =
    path.collectLeft (fun leaf => [leaf.page]) ++ leaf.page :: (s.nextPage : Int) ::
      path.collectRight (fun leaf => [leaf.page]) := by
  rw [leafPages,graft_collect]
  simp [collect]

theorem Housed.regrown_keys {first : κ} (named : firstKey (upperHalf s.nextPage leaf) = some first) :
    (regrown order s path leaf first).1.AllKeys proper := by
  obtain ⟨around,own⟩ := (plug_allKeys path leaf).mp housed.keys
  obtain ⟨value,rest,items⟩ := firstKey_split named
  have upper : AllKeys proper 0 (upperHalf s.nextPage leaf) := fun e member => own e (List.mem_of_mem_drop member)
  exact graft_allKeys path _ around (fun e member => own e (List.mem_of_mem_take member)) upper
    (upper (first,value) (items ▸ List.mem_cons_self))

/-- The parents' pages are not in the leaf list. -/
theorem Housed.chain_kept {s1 s2 : IndexFile κ} (parted : Parted s s1 path leaf) {first : κ}
    (links : ∀ p : Int, p < s1.nextPage → s2.links p = s1.links p) :
    Chained s2.links ixLeafHeaderPage (leafPages (regrown order s path leaf first).1 ++ [ixLeafHeaderPage]) := by
  have kept : ∀ p ∈ ixLeafHeaderPage :: (path.collectLeft (fun leaf => [leaf.page]) ++ leaf.page ::
      (s.nextPage : Int) :: path.collectRight (fun leaf => [leaf.page]) ++ [ixLeafHeaderPage]),
      s2.links p = s1.links p := by
    intro p inside
    apply links
    have here := housed.around_old leaf.page (by simp)
    rw [parted.nextPage]
    by_cases header : p = ixLeafHeaderPage
    · rw [header,ixLeafHeaderPage]; omega
    · by_cases new : p = s.nextPage
      · omega
      · have member : p ∈ leafPages (plug path leaf) := by
          rw [leafPages_plug]
          simpa [header,new] using inside
        have := housed.leafPages_old p member
        omega
  rw [regrown_leafPages]
  refine parted.chain.congr (fun p inside => ?_) fun p inside => ?_
  · rw [kept p (List.mem_cons.mpr ((List.mem_cons.mp inside).imp_right fun i => (List.dropLast_sublist _).subset i))]
  · rw [kept p (List.mem_cons_of_mem _ inside)]

theorem Housed.splitLeaf_run (full : leaf.items.length = order + 1) (three : 3 ≤ order)
    (shallow : path.depth < s.nextPage) :
    ∃ s' first, firstKey (upperHalf s.nextPage leaf) = some first ∧ splitLeaf store leaf.page s = (.ok (),s') ∧
      Housed proper order s' (regrown order s path leaf first).1 := by
  obtain ⟨s1,first,named,parted,start⟩ := housed.split_run full three
  have enough : path.depth < s.nextPage + 1 := Nat.lt_succ_of_lt shallow
  obtain ⟨s2,onward,grown⟩ := insertIntoParent_run path first enough parted.halves
    (parted.order.trans housed.ordered)
  have low : ∀ p ∈ path.around ++ (pages 0 (lowerHalf leaf) ++ pages 0 (upperHalf s.nextPage leaf)), 2 ≤ p := by
    intro p inside
    have here := housed.around_old leaf.page (by simp)
    rw [← List.append_assoc] at inside
    rcases List.mem_append.mp inside with before | new
    · exact (housed.around_old p before).1
    · have : p = s.nextPage := by simpa [pages] using new
      omega
  obtain ⟨distinct,old⟩ := grown_pages parted.halves low grown
  rw [parted.nextPage] at grown distinct old
  refine ⟨s2,first,named,?_,?_⟩
  · rw [start]
    exact (Prog.bind_ok onward).trans rfl
  · constructor
    · exact grown.holds
    · exact grown.root
    · rw [grown.order,parted.order,housed.ordered]
    · exact housed.regrown_keys named
    · exact distinct
    · exact old
    · exact housed.chain_kept parted grown.links
    · rw [regrown_leafPages,grown.firstLeaf,parted.firstLeaf,← housed.firstLeaf,leafPages_plug]
      cases path.collectLeft (fun leaf => [leaf.page]) <;> rfl
    · rw [regrown_leafPages,grown.lastLeaf,parted.lastLeaf]
      exact housed.lastLeaf_split _

end Split

end Rucbase.IndexTree
