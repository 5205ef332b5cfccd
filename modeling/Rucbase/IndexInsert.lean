import Rucbase.IndexTree

/-! Inserting into the index tree: what a run of `insert_into_parent` makes of the tree, with
its recursion over splitting parents. -/
namespace Rucbase.IndexTree

open Lib Lib.BTree IxIndexHandle
open IndexFile (body_found body_put grownHdr read_run store)
open Function (update_self update_of_ne)

variable {κ : Type} {h : Nat} {s : IndexFile κ}

theorem split_node_run {parent page : Int} {items : List (κ × IxTree κ h)}
    (holds : Holds s.body (h + 1) parent ⟨page,items⟩)
    (old : ∀ p ∈ pages (h + 1) (⟨page,items⟩ : IxTree κ (h + 1)), p ≠ s.nextPage) :
    ∃ s', split store page s = (.ok (s.nextPage : Int),s') ∧
      s'.Looks (grownHdr s.hdr) (s.nextPage + 1) (Function.update s.links s.nextPage (some (0,0)))
        (splitBody (items.length / 2) s.body s.nextPage parent page items) := by
  have size : (pointers items).length = items.length := List.length_map _
  have moved : (pointers items).drop (items.length / 2) = pointers (items.drop (items.length / 2)) :=
    List.map_drop.symm
  have kids : ∀ pair ∈ pointers (items.drop (items.length / 2)),
      (s.body pair.2.pageNo).isSome ∧ pair.2.pageNo ≠ s.nextPage := by
    intro pair member
    obtain ⟨kid,among,same⟩ := mem_pointers member
    have own := List.mem_of_mem_drop among
    rw [same]
    exact ⟨by rw [holds_body (holds.2 kid own)]; rfl,old _ (pages_of_kid own _ (page_mem kid.2))⟩
  have run := IndexFile.split_inner_run holds.1 (old page (page_mem _))
  rw [size,moved] at run
  obtain ⟨s',run,looks⟩ := run kids
  refine ⟨s',run,looks.hdr,looks.nextPage,looks.links,looks.body.trans ?_⟩
  simp only [splitBody,pointers,List.map_map,List.map_take]
  rfl

/-- The file `s'` holds the tree, and kept of `s` what the leaf list and the header say. -/
structure Grown (s s' : IndexFile κ) (r : IxRoot κ) (next : Nat) : Prop where
  holds : Holds s'.body r.height invalidPageId r.tree
  root : s'.hdr.rootPage = r.tree.page
  nextPage : s'.nextPage = next
  links : ∀ p : Int, p < s.nextPage → s'.links p = s.links p
  order : s'.hdr.btreeOrder = s.hdr.btreeOrder
  firstLeaf : s'.hdr.firstLeaf = s.hdr.firstLeaf
  lastLeaf : s'.hdr.lastLeaf = s.hdr.lastLeaf

/-- A node that was just split: its lower half `t` is where the node was, its upper half
`new` is not yet known to the parent. -/
structure Halves (s : IndexFile κ) (path : IxPath κ h) (t new : IxTree κ h) : Prop where
  lower : Holds s.body h (above path) t
  upper : Holds s.body h (above path) new
  around : PathHolds s.body path t.page
  root : s.hdr.rootPage = rootOf path t.page
  distinct : (path.around ++ (pages h t ++ pages h new)).Nodup
  old : ∀ p ∈ path.around ++ (pages h t ++ pages h new), 0 ≤ p ∧ p < s.nextPage
  nonempty : t.items ≠ []

theorem nodePairs_first {t : IxTree κ h} (nonempty : t.items ≠ []) (key : κ) :
    ∃ rid rest, nodePairs h t = (firstKeyD key t,rid) :: rest := by
  obtain ⟨page,items⟩ := t
  obtain ⟨⟨k,value⟩,more,rfl⟩ := List.exists_cons_of_ne_nil nonempty
  cases h with
  | zero => exact ⟨value,more,rfl⟩
  | succ h => exact ⟨⟨value.page,-1⟩,pointers more,rfl⟩

theorem findChild_at {node : IxNode κ} {before after : List (κ × Rid)} {k : κ} {c : Int}
    (pairs : node.pairs = before ++ (k,⟨c,-1⟩) :: after) (apart : ∀ pair ∈ before, pair.2.pageNo ≠ c) :
    node.findChild c = some before.length := by
  have none : before.findIdx? (fun pair => pair.2.pageNo == c) = none := by
    simpa [List.findIdx?_eq_none_iff] using apart
  simp [IxNode.findChild,pairs,List.findIdx?_append,List.findIdx?_cons,none]

theorem insertPairs_after {node : IxNode κ} {before after : List (κ × Rid)} {pair new : κ × Rid}
    (pairs : node.pairs = before ++ pair :: after) :
    (node.insertPairs (before.length + 1) [new]).pairs = before ++ pair :: new :: after := by
  have cut : node.pairs = (before ++ [pair]) ++ after := by simp [pairs]
  have size : before.length + 1 = (before ++ [pair]).length := by simp
  rw [IxNode.insertPairs,cut,size,List.take_left,List.drop_left]
  simp

theorem growRoot_halves {t new : IxTree κ h} (halves : Halves s .top t new) (key : κ) :
    ∃ s', growRoot store t.page key new.page s = (.ok (),s') ∧
      Grown s s' ⟨h + 1,⟨(s.nextPage : Int),[(firstKeyD key t,t),(key,new)]⟩⟩ (s.nextPage + 1) := by
  obtain ⟨rid,rest,first⟩ := nodePairs_first halves.nonempty key
  have both : (pages h t ++ pages h new).Nodup := halves.distinct
  obtain ⟨lowerDistinct,upperDistinct,disjoint⟩ := List.nodup_append.mp both
  have lower := holds_body halves.lower
  have upper := holds_body halves.upper
  have oldLower : ∀ p ∈ pages h t, p ≠ s.nextPage := fun p inside =>
    Int.ne_of_lt (halves.old p (List.mem_append_right _ (List.mem_append_left _ inside))).2
  have oldUpper : ∀ p ∈ pages h new, p ≠ s.nextPage := fun p inside =>
    Int.ne_of_lt (halves.old p (List.mem_append_right _ (List.mem_append_right _ inside))).2
  have apart : t.page ≠ new.page := disjoint _ (page_mem t) _ (page_mem new)
  rw [first] at lower
  obtain ⟨s',run,looks⟩ := IndexFile.growRoot_run lower upper apart (oldLower _ (page_mem t))
    (oldUpper _ (page_mem new)) key
  have body := looks.body
  refine ⟨s',run,⟨?_,?_⟩,looks.hdr ▸ rfl,looks.nextPage,?_,looks.hdr ▸ rfl,looks.hdr ▸ rfl,looks.hdr ▸ rfl⟩
  · rw [body,update_of_ne (oldLower _ (page_mem t)).symm,
      update_of_ne (oldUpper _ (page_mem new)).symm,update_self]
    rfl
  · refine List.forall_mem_cons.mpr ⟨?_,List.forall_mem_singleton.mpr ?_⟩
    · apply halves.lower.rehang lowerDistinct
      · rw [body,update_self,lower]
        rfl
      · intro p inside other
        rw [body,update_of_ne other,update_of_ne (disjoint p inside _ (page_mem new)),
          update_of_ne (oldLower p inside)]
    · apply halves.upper.rehang upperDistinct
      · rw [body,update_of_ne apart.symm,update_self,upper]
        rfl
      · intro p inside other
        rw [body,update_of_ne (disjoint _ (page_mem t) p inside).symm,update_of_ne other,
          update_of_ne (oldUpper p inside)]
  · intro p before
    rw [looks.links,update_of_ne (Int.ne_of_lt before)]

section Parent

variable {page : Int} {before after : List (κ × IxTree κ h)} {k key : κ} {rest : IxPath κ (h + 1)}
  {t new : IxTree κ h} {items : List (κ × IxTree κ h)} (shape : before ++ (k,t) :: (key,new) :: after = items)
  (halves : Halves s (.up page before k after rest) t new)

include shape halves

theorem Halves.whole : (rest.around ++ pages (h + 1) (⟨page,items⟩ : IxTree κ (h + 1))).Nodup ∧
    ∀ p ∈ rest.around ++ pages (h + 1) (⟨page,items⟩ : IxTree κ (h + 1)), 0 ≤ p ∧ p < s.nextPage := by
  subst shape
  have same := beside_pages page before after k key rest t new
  exact ⟨same.nodup_iff.mp halves.distinct,fun p inside => halves.old p (same.mem_iff.mpr inside)⟩

theorem Halves.kids : ∀ kid ∈ items, Holds s.body h page kid.2 := by
  subst shape
  obtain ⟨_,siblings,_⟩ := halves.around
  have sides := List.forall_mem_append.mp siblings
  exact List.forall_mem_append.mpr ⟨sides.1,List.forall_mem_cons.mpr ⟨halves.lower,
    List.forall_mem_cons.mpr ⟨halves.upper,sides.2⟩⟩⟩

theorem Halves.parent : ∃ node, s.pages page = some node ∧ node.findChild t.page = some before.length ∧
    before.length + 1 ≤ node.size ∧ node.isLeaf = false ∧ node.parent = above rest ∧
    (node.insertPairs (before.length + 1) [(key,⟨new.page,-1⟩)]).pairs = pointers items := by
  obtain ⟨distinct,_⟩ := halves.whole shape
  obtain ⟨node,there,inner,parent,pairs⟩ := body_found halves.around.1
  have position : (pointers before).length = before.length := List.length_map _
  refine ⟨node,there,?_,?_,inner,parent,?_⟩
  · rw [← position]
    apply findChild_at pairs
    intro pair member same
    obtain ⟨kid,among,named⟩ := mem_pointers member
    -- a sibling on the left would share the page of the hole
    subst shape
    have inner := (List.nodup_cons.mp (List.nodup_append.mp distinct).2.1).2
    rw [List.flatMap_append] at inner
    refine List.disjoint_of_nodup_append inner
      (List.mem_flatMap.mpr ⟨kid,among,page_mem kid.2⟩) (List.mem_flatMap.mpr ⟨(k,t),List.mem_cons_self,?_⟩)
    rw [← named,same]
    exact page_mem t
  · simp [IxNode.size,pairs,position]
  · rw [← position,insertPairs_after pairs,← shape]
    simp [pointers]

variable (node : IxNode κ) (inner : node.isLeaf = false) (parent : node.parent = above rest)
  (pairs : node.pairs = pointers items)

include inner parent pairs

theorem Halves.beside : Holds (s.put page node).body (h + 1) (above rest) ⟨page,items⟩ ∧
    PathHolds (s.put page node).body rest page := by
  obtain ⟨distinct,_⟩ := halves.whole shape
  obtain ⟨_,own,apart⟩ := List.nodup_append.mp distinct
  refine ⟨⟨?_,fun kid among => (halves.kids shape kid among).congr fun p inside => ?_⟩,
    halves.around.2.2.congr fun p inside => ?_⟩
  · rw [body_put,update_self,inner,parent,pairs]
  · have member : p ∈ items.flatMap fun kid => pages h kid.2 :=
      List.mem_flatMap.mpr ⟨kid,among,inside⟩
    rw [body_put,update_of_ne (ne_of_mem_of_not_mem member (List.nodup_cons.mp own).1)]
  · rw [body_put,update_of_ne (apart p inside page (page_mem _))]

end Parent

/-- The parent was full: its halves, with the new node's page among them. -/
theorem Halves.split {page : Int} {rest : IxPath κ (h + 1)} {items : List (κ × IxTree κ h)} {s' : IndexFile κ}
    (several : 2 ≤ items.length) (holds : Holds s.body (h + 1) (above rest) ⟨page,items⟩)
    (around : PathHolds s.body rest page) (root : s.hdr.rootPage = rootOf rest page)
    (distinct : (rest.around ++ pages (h + 1) (⟨page,items⟩ : IxTree κ (h + 1))).Nodup)
    (old : ∀ p ∈ rest.around ++ pages (h + 1) (⟨page,items⟩ : IxTree κ (h + 1)), 0 ≤ p ∧ p < s.nextPage)
    (looks : s'.Looks (grownHdr s.hdr) (s.nextPage + 1) (Function.update s.links s.nextPage (some (0,0)))
      (splitBody (items.length / 2) s.body s.nextPage (above rest) page items)) :
    Halves s' rest ⟨page,items.take (items.length / 2)⟩ ⟨(s.nextPage : Int),items.drop (items.length / 2)⟩ := by
  obtain ⟨_,own,apart⟩ := List.nodup_append.mp distinct
  have unused : ∀ p ∈ rest.around ++ pages (h + 1) (⟨page,items⟩ : IxTree κ (h + 1)), p ≠ s.nextPage :=
    fun p inside => Int.ne_of_lt (old p inside).2
  have ownUnused := fun p inside => unused p (List.mem_append_right _ inside)
  have listed : (rest.around ++ (pages (h + 1) (⟨page,items.take (items.length / 2)⟩ : IxTree κ (h + 1)) ++
      pages (h + 1) (⟨(s.nextPage : Int),items.drop (items.length / 2)⟩ : IxTree κ (h + 1)))).Perm
        ((s.nextPage : Int) :: (rest.around ++ pages (h + 1) (⟨page,items⟩ : IxTree κ (h + 1)))) :=
    (((pages_cut page (s.nextPage : Int) items _).trans (.swap _ _ _)).append_left _).trans List.perm_middle
  constructor
  · rw [looks.body]
    exact splitBody_lower holds own ownUnused
  · rw [looks.body]
    exact splitBody_upper holds own ownUnused
  · refine around.congr fun p inside => ?_
    rw [looks.body]
    exact splitBody_outside (fun member => apart p inside p member rfl)
      (unused p (List.mem_append_left _ inside))
  · rw [looks.hdr]
    exact root
  · exact listed.nodup_iff.mpr (List.nodup_cons.mpr ⟨fun inside => unused _ inside rfl,distinct⟩)
  · intro p inside
    rw [looks.nextPage]
    rcases List.mem_cons.mp (listed.mem_iff.mp inside) with rfl | inside
    · omega
    · have := old p inside
      omega
  · intro empty
    have none : (items.take (items.length / 2)).length = 0 := congrArg List.length empty
    rw [List.length_take] at none
    omega

/-- `insert_into_parent` of a node that is not the root, up to the question if the parent is full. -/
theorem insertIntoParent_step {old new page : Int} {key : κ} {child node : IxNode κ} {i : Nat}
    (found : s.pages old = some child) (hangs : child.parent = page) (valid : page ≠ invalidPageId)
    (there : s.pages page = some node) (position : node.findChild old = some i) (bound : i + 1 ≤ node.size)
    (rounds : Nat) :
    insertIntoParent store (rounds + 1) old key new s =
      (if ((node.insertPairs (i + 1) [(key,⟨new,-1⟩)]).size : Int) = s.hdr.maxSize then do
        let right ← split store page
        let first ← pairAt store right 0
        insertIntoParent store rounds page first.1 right
        let _ ← store.unpin right true
        let _ ← store.unpin page true
      else do
        let _ ← store.unpin page true : Prog (IndexFile κ) RMDBError Unit)
        (s.put page (node.insertPairs (i + 1) [(key,⟨new,-1⟩)])) := by
  rw [insertIntoParent,Prog.bind_ok (read_run found),hangs,if_neg valid,Prog.bind_ok (IndexFile.fetch_run there),
    Prog.bind_ok (IndexFile.findChild_run there position),
    Prog.bind_ok (IndexFile.insertPairs_run there bound _),
    Prog.bind_ok (read_run IndexFile.put_same),Prog.bind_ok IndexFile.hdr_run]
  rfl

theorem insertIntoParent_run {order : Nat} (path : IxPath κ h) {t new : IxTree κ h} (key : κ) {rounds : Nat}
    (enough : path.depth < rounds) (halves : Halves s path t new) (ordered : s.hdr.btreeOrder = order) :
    ∃ s', insertIntoParent store rounds t.page key new.page s = (.ok (),s') ∧
      Grown s s' (graft Nat.cast (order + 1) s.nextPage path t key new).1
        (graft (Nat.cast : Nat → Int) (order + 1) s.nextPage path t key new).2 := by
  induction path generalizing s rounds key with
  | top =>
    obtain ⟨rounds,rfl⟩ := Nat.exists_eq_add_of_lt enough
    obtain ⟨node,there,_,parent,_⟩ := body_found (holds_body halves.lower)
    obtain ⟨s',run,grown⟩ := growRoot_halves halves key
    refine ⟨s',?_,grown⟩
    rw [insertIntoParent,Prog.bind_ok (read_run there),parent]
    exact run
  | @up height page before k after rest ih =>
    obtain ⟨rounds,rfl⟩ := Nat.exists_eq_add_of_lt enough
    obtain ⟨items,shape⟩ : ∃ items, before ++ (k,t) :: (key,new) :: after = items := ⟨_,rfl⟩
    obtain ⟨distinct,old⟩ := halves.whole shape
    obtain ⟨child,found,_,hangs,_⟩ := body_found (holds_body halves.lower)
    replace hangs : child.parent = page := hangs
    obtain ⟨node,there,position,bound,inner,parent,pairs⟩ := halves.parent shape
    obtain ⟨holds,around⟩ := halves.beside shape (node.insertPairs _ _) inner parent pairs
    have valid : page ≠ invalidPageId := by
      have := (old page (List.mem_append_right _ (page_mem _))).1
      simp only [invalidPageId]; omega
    have size : (node.insertPairs (before.length + 1) [(key,⟨new.page,-1⟩)]).size = items.length := by
      rw [IxNode.size,pairs]; exact List.length_map _
    have several : 2 ≤ items.length := by rw [← shape]; simp; omega
    rw [insertIntoParent_step found hangs valid there position bound,size]
    obtain ⟨s1,next⟩ : ∃ s1, s1 = s.put page (node.insertPairs (before.length + 1) [(key,⟨new.page,-1⟩)]) :=
      ⟨_,rfl⟩
    have links : s1.links = s.links := next ▸ IndexFile.links_kept there rfl rfl
    have hdr : s1.hdr = s.hdr := next ▸ rfl
    have nextPage : s1.nextPage = s.nextPage := next ▸ rfl
    rw [← next] at holds around ⊢
    by_cases full : items.length = order + 1
    · rw [graft_full s.nextPage t new key shape full,if_pos (by simp [IxFileHdr.maxSize,ordered,full])]
      rw [← nextPage] at old ⊢
      obtain ⟨s2,run,looks⟩ := split_node_run holds fun p inside =>
        Int.ne_of_lt (old p (List.mem_append_right _ inside)).2
      have parted := Halves.split several holds around (hdr ▸ halves.root) distinct old looks
      have someUpper : items.drop (items.length / 2) ≠ [] := by
        intro none
        have := List.drop_eq_nil_iff.mp none
        omega
      let upper : IxTree κ (height + 1) := ⟨(s1.nextPage : Int),items.drop (items.length / 2)⟩
      obtain ⟨rid,more,first⟩ := nodePairs_first (t := upper) someUpper key
      obtain ⟨right,rightThere,_,_,rightPairs⟩ := body_found (holds_body parted.upper)
      have head : pairAt store s1.nextPage 0 s2 = (.ok (firstKeyD key upper,rid),s2) :=
        IndexFile.pairAt_run rightThere (by rw [rightPairs,first]; rfl)
      have lessDeep : rest.depth < (Path.up page before k after rest).depth + rounds := by
        simp only [Path.depth]; omega
      have sameOrder : s2.hdr.btreeOrder = order := by rw [looks.hdr]; exact hdr ▸ ordered
      obtain ⟨s3,onward,grown⟩ := @ih s2 _ upper (firstKeyD key upper) _ lessDeep parted sameOrder
      refine ⟨s3,?_,?_⟩
      · exact (Prog.bind_ok run).trans ((Prog.bind_ok head).trans (Prog.bind_ok onward))
      · rw [looks.nextPage] at grown
        refine ⟨grown.holds,grown.root,grown.nextPage,fun p before => ?_,?_,?_,?_⟩
        · rw [grown.links p (by rw [looks.nextPage]; omega),looks.links,links,
            update_of_ne (by omega)]
        · rw [grown.order,looks.hdr,← hdr]; rfl
        · rw [grown.firstLeaf,looks.hdr,← hdr]; rfl
        · rw [grown.lastLeaf,looks.hdr,← hdr]; rfl
    · rw [graft_room s.nextPage t new key shape full,if_neg (by simp [IxFileHdr.maxSize,ordered]; omega)]
      refine ⟨s1,rfl,(holds_plug rest _).mpr ⟨around,holds⟩,?_,nextPage,fun p _ => congrFun links p,
        hdr ▸ rfl,hdr ▸ rfl,hdr ▸ rfl⟩
      rw [hdr,halves.root,plug_page]
      rfl

end Rucbase.IndexTree
