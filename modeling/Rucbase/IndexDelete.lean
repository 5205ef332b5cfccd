import Rucbase.IndexBalance
import Rucbase.Lib.BTreeRelabel

/-! Deleting from the index tree: what a run of `delete_entry` makes of the tree, as long as no
inner node but the root gets too few children. -/
namespace Rucbase.IndexTree

open Lib Lib.BTree IxIndexHandle Prog Path
open IndexFile (body_found body_put edit_run erasePair_run fetch_run found_links hdr_run links_kept mergedHdr pairAt_run
  put put_other put_same read_run store)

variable {κ L : Type} [LinearOrder L] {cmp : κ → κ → Int} {rank : κ → L} {proper : κ → Prop} {order h : Nat}
  {s : IndexFile κ} {r : IxRoot κ}

/-! ### Labels -/

theorem Housed.keep (housed : Housed proper order s r) {s' : IndexFile κ} {r' : IxRoot κ} (hdr : s'.hdr = s.hdr)
    (nextPage : s'.nextPage = s.nextPage) (links : s'.links = s.links)
    (holds : Holds s'.body r'.height invalidPageId r'.tree) (root : r'.tree.page = r.tree.page)
    (pages : r'.pages.Perm r.pages) (leaves : leafPages r' = leafPages r) (keys : r'.AllKeys proper) :
    Housed proper order s' r' where
  holds := holds
  root := by rw [hdr,root]; exact housed.root
  ordered := by rw [hdr]; exact housed.ordered
  keys := keys
  distinct := pages.nodup_iff.mpr housed.distinct
  old := fun p member => by rw [nextPage]; exact housed.old p (pages.mem_iff.mp member)
  chain := by rw [links,leaves]; exact housed.chain
  firstLeaf := by rw [hdr,leaves]; exact housed.firstLeaf
  lastLeaf := by rw [hdr,leaves]; exact housed.lastLeaf

theorem modify_at {α : Type} (l r : List α) (a : α) (f : α → α) :
    (l ++ a :: r).modify l.length f = l ++ f a :: r := by
  induction l with
  | nil => rfl
  | cons b l ih => simp [ih]

variable {p page : Int} {node parent : IxNode κ} {high low : List (κ × Rid)} {k key : κ}

section Parent

variable {page : Int} {before after : List (κ × IxTree κ h)} {k : κ} {rest : IxPath κ (h + 1)} {t : IxTree κ h}
  (housed : Housed proper order s (plug (.up page before k after rest) t))

include housed

theorem Housed.parent_old : 2 ≤ page ∧ page < s.nextPage :=
  housed.old page ((plug_pages (.up page before k after rest) t).mem_iff.mpr (by simp [around]))

theorem Housed.parent_valid : page ≠ invalidPageId := by
  have := housed.parent_old
  simp only [invalidPageId]
  omega

theorem Housed.hole_apart : (up page before k after rest).around.Disjoint (pages h t) :=
  List.disjoint_of_nodup_append ((plug_pages (.up page before k after rest) t).nodup_iff.mp housed.distinct)

/-- The node above a hole, its other kids and what is further up have pages of their own. -/
theorem Housed.parent_apart : page ∉ pages h t ∧
    ∀ p ∈ ((before ++ after).flatMap fun kid => pages h kid.2) ++ rest.around, p ≠ page ∧ p ∉ pages h t := by
  have hole := housed.hole_apart
  have distinct := (List.nodup_append.mp ((plug_pages (.up page before k after rest) t).nodup_iff.mp housed.distinct)).1
  rw [around,List.cons_append] at hole distinct
  exact ⟨hole List.mem_cons_self,fun p inside =>
    ⟨ne_of_mem_of_not_mem inside (List.nodup_cons.mp distinct).1,hole (List.mem_cons_of_mem _ inside)⟩⟩

theorem Housed.parent_found : ∃ node, s.pages page = some node ∧ node.findChild t.page = some before.length ∧
    node.isLeaf = false ∧ node.parent = above rest ∧
    node.pairs = pointers before ++ (k,⟨t.page,-1⟩) :: pointers after := by
  obtain ⟨around,_⟩ := (holds_plug (.up page before k after rest) t).mp housed.holds
  obtain ⟨node,there,inner,parent,pairs⟩ := body_found around.1
  refine ⟨node,there,?_,inner,parent,pairs⟩
  have position : (pointers before).length = before.length := List.length_map _
  rw [← position]
  refine findChild_at pairs fun pair member same => ?_
  obtain ⟨kid,among,named⟩ := mem_pointers member
  have inside : t.page ∈ (up page before k after rest).around := by
    rw [← same,named]
    refine List.mem_cons_of_mem _ (List.mem_append_left _ ?_)
    exact List.mem_flatMap.mpr ⟨kid,List.mem_append_left _ among,page_mem kid.2⟩
  exact housed.hole_apart inside (page_mem t)

theorem Housed.setLabel (there : s.pages page = some node) (inner : node.isLeaf = false)
    (parent : node.parent = above rest) (pairs : node.pairs = pointers before ++ (k,⟨t.page,-1⟩) :: pointers after)
    (given : proper key) :
    Housed proper order (s.put page (node.setKey before.length key)) (plug (.up page before key after rest) t) := by
  obtain ⟨⟨_,siblings,upper⟩,own⟩ := (holds_plug (.up page before k after rest) t).mp housed.holds
  obtain ⟨⟨sibKeys,_,restKeys⟩,ownKeys⟩ := (plug_allKeys (.up page before k after rest) t).mp housed.keys
  have relabelled : (node.setKey before.length key).pairs = pointers before ++ (key,⟨t.page,-1⟩) :: pointers after := by
    have position : before.length = (pointers before).length := (List.length_map _).symm
    rw [IxNode.setKey,pairs,position]
    exact modify_at _ _ _ _
  obtain ⟨holeApart,apart⟩ := housed.parent_apart
  have elsewhere {p : Int} (other : p ≠ page) : (s.put page (node.setKey before.length key)).body p = s.body p := by
    rw [body_put,Function.update_of_ne other]
  refine housed.keep rfl rfl (links_kept there rfl rfl) ?_ ?_ ?_ ?_ ?_
  · refine (holds_plug (.up page before key after rest) t).mpr ⟨⟨?_,fun kid among => ?_,upper.congr fun p inside => ?_⟩,
      own.congr fun p inside => ?_⟩
    · rw [body_put,Function.update_self,relabelled]
      exact congrArg some (by rw [IxNode.setKey,inner,parent])
    · refine (siblings kid among).congr fun p inside => elsewhere (apart p ?_).1
      exact List.mem_append_left _ (List.mem_flatMap.mpr ⟨kid,among,inside⟩)
    · exact elsewhere (apart p (List.mem_append_right _ inside)).1
    · exact elsewhere (ne_of_mem_of_not_mem inside holeApart)
  · rw [plug_page,plug_page]
    rfl
  · exact (plug_pages (.up page before key after rest) t).trans (plug_pages (.up page before k after rest) t).symm
  · rw [leafPages,leafPages,plug_collect,plug_collect]
    rfl
  · exact (plug_allKeys (.up page before key after rest) t).mpr ⟨⟨sibKeys,given,restKeys⟩,ownKeys⟩

end Parent

section MaintainParent

variable [DecidableEq κ]

/-- One round of `maintain_parent` below a node that gives the page the label `k`. -/
theorem maintainParentFrom_step {before : Nat} {rid child : Rid} (there : s.pages p = some node)
    (hangs : node.parent = page) (valid : page ≠ ixNoPage) (parentThere : s.pages page = some parent)
    (position : parent.findChild p = some before) (label : parent.pairs[before]? = some (k,child))
    (first : node.pairs[0]? = some (key,rid)) (rounds : Nat) :
    maintainParentFrom store (rounds + 1) p s =
      if k = key then (.ok (),s)
      else maintainParentFrom store rounds page (s.put page (parent.setKey before key)) := by
  rw [maintainParentFrom,bind_ok (read_run there),hangs,if_neg valid,bind_ok (fetch_run parentThere),
    bind_ok (IndexFile.findChild_run parentThere position),
    bind_ok (pairAt_run parentThere label),bind_ok (pairAt_run there first)]
  by_cases same : k = key
  · rw [if_pos same,if_pos same]
    rfl
  · rw [if_neg same,if_neg same,bind_ok (edit_run parentThere _)]
    rfl

theorem maintainParentFrom_run {path : IxPath κ h} {t : IxTree κ h} {rounds : Nat} (named : firstKey t = some key)
    (given : proper key) (housed : Housed proper order s (plug path t)) (enough : path.depth < rounds) :
    ∃ s', maintainParentFrom store rounds t.page s = (.ok (),s') ∧ s'.nextPage = s.nextPage ∧
      Housed proper order s' (plug (path.relabel key) t) := by
  induction path generalizing s rounds key with
  | top =>
    obtain ⟨rounds,rfl⟩ := Nat.exists_eq_add_of_lt enough
    obtain ⟨node,there,_,parent,_⟩ := body_found (holds_body ((holds_plug .top t).mp housed.holds).2)
    refine ⟨s,?_,rfl,housed⟩
    rw [maintainParentFrom,bind_ok (read_run there),parent]
    rfl
  | up page before k after rest ih =>
    obtain ⟨rounds,rfl⟩ := Nat.exists_eq_add_of_lt enough
    obtain ⟨node,there,_,hangs,first⟩ := body_found
      (holds_body ((holds_plug (.up page before k after rest) t).mp housed.holds).2)
    obtain ⟨parent,parentThere,position,inner,up,pairs⟩ := housed.parent_found
    have label : parent.pairs[before.length]? = some (k,⟨t.page,-1⟩) := by
      have length : (pointers before).length = before.length := List.length_map _
      rw [pairs,← length,List.getElem?_append_right (Nat.le_refl _),Nat.sub_self]
      rfl
    have ownFirst : ∃ rid, node.pairs[0]? = some (key,rid) := by
      obtain ⟨rid,more,head⟩ := nodePairs_first (t := t) (by rintro empty; simp [firstKey,empty] at named) key
      rw [firstKeyD,named] at head
      exact ⟨rid,by rw [first,head]; rfl⟩
    obtain ⟨rid,ownFirst⟩ := ownFirst
    rw [maintainParentFrom_step there hangs housed.parent_valid parentThere position label ownFirst,relabel]
    by_cases same : k = key
    · rw [if_pos same,if_pos same]
      exact ⟨s,rfl,rfl,housed⟩
    · rw [if_neg same,if_neg same]
      have keys := ((plug_allKeys (.up page before k after rest) t).mp housed.keys).1.1
      have upperKey : proper (firstLabel before key) := by
        cases before with
        | nil => exact given
        | cons kid before => exact (keys kid List.mem_cons_self).1
      exact ih (firstKey_firstLabel page before key t after) upperKey
        (housed.setLabel parentThere inner up pairs given) (by simp only [depth]; omega)

theorem maintainParent_run {path : IxPath κ h} {t : IxTree κ h} (named : firstKey t = some key)
    (housed : Housed proper order s (plug path t)) (shallow : path.depth < s.nextPage)
    (sized : (plug path t).Sized ((order + 1) / 2) order) :
    ∃ s', maintainParent store t.page s = (.ok (),s') ∧ s'.nextPage = s.nextPage ∧
      Shaped proper order s' (plug (path.relabel key) t) := by
  obtain ⟨value,rest,items⟩ := firstKey_split named
  have given := ((plug_allKeys path t).mp housed.keys).2.items (key,value) (items ▸ List.mem_cons_self)
  obtain ⟨s',run,nextPage,again⟩ := maintainParentFrom_run named given housed shallow
  refine ⟨s',?_,nextPage,{ again with sized := plug_relabel_sized.mpr sized }⟩
  rw [maintainParent,bind_ok IndexFile.pageCount_run]
  exact run

end MaintainParent

/-! ### Nodes with enough pairs, and the root -/

theorem Housed.minSize (housed : Housed proper order s r) : s.hdr.minSize = ((order + 1) / 2 : Nat) := by
  rw [IxFileHdr.minSize,IxFileHdr.maxSize,housed.ordered]
  omega

theorem adjustRoot_collapse {kid : IxTree κ h} (two : 2 ≤ (order + 1) / 2)
    (housed : Housed proper order s ⟨h + 1,⟨page,[(k,kid)]⟩⟩)
    (sized : Sized ((order + 1) / 2) order 1 (h + 1) (⟨page,[(k,kid)]⟩ : IxTree κ (h + 1))) :
    ∃ s', adjustRoot store page s = (.ok true,s') ∧ s'.nextPage = s.nextPage ∧
      Shaped proper order s' ⟨h,kid⟩ := by
  obtain ⟨holds,kids⟩ := housed.holds
  obtain ⟨node,there,inner,_,pairs⟩ := body_found holds
  have own : Holds s.body h page kid := kids (k,kid) List.mem_cons_self
  obtain ⟨child,kidThere,leaf,_,below⟩ := body_found (holds_body own)
  have pageList : (⟨h + 1,⟨page,[(k,kid)]⟩⟩ : IxRoot κ).pages = page :: pages h kid := by simp [Root.pages,pages]
  have leaves : leafPages (⟨h,kid⟩ : IxRoot κ) = leafPages ⟨h + 1,⟨page,[(k,kid)]⟩⟩ := by simp [leafPages,Root.collect,collect]
  have distinct := housed.distinct
  have old := housed.old
  rw [pageList] at distinct old
  obtain ⟨count,each⟩ := sized
  have kidSized : Sized ((order + 1) / 2) order ((order + 1) / 2) h kid := each (k,kid) List.mem_cons_self
  have run : adjustRoot store page s = (.ok true,{ s.put kid.page { child with parent := invalidPageId } with
      hdr := { s.hdr with rootPage := kid.page, numPages := s.hdr.numPages - 1 } }) := by
    have first : node.pairs[0]? = some (k,⟨kid.page,-1⟩) := by rw [pairs]; rfl
    have one : node.isLeaf = false ∧ node.size = 1 := ⟨inner,by rw [IxNode.size,pairs]; rfl⟩
    rw [adjustRoot,bind_ok (read_run there),if_pos one,bind_ok (pairAt_run there first),bind_ok (fetch_run kidThere),
      bind_ok (edit_run kidThere _)]
    rfl
  refine ⟨_,run,rfl,?_⟩
  have body : (s.put kid.page { child with parent := invalidPageId }).body =
      Function.update s.body kid.page (some (child.isLeaf,invalidPageId,child.pairs)) := body_put
  have links := links_kept kidThere
    (rfl : ({ child with parent := invalidPageId } : IxNode κ).prevLeaf = child.prevLeaf) rfl
  constructor
  · constructor
    · refine own.rehang (List.nodup_cons.mp distinct).2 ?_ fun p inside apart => ?_
      · rw [IndexFile.found_body kidThere]
        exact (congrFun body kid.page).trans (Function.update_self ..)
      · exact (congrFun body p).trans (Function.update_of_ne apart ..)
    · rfl
    · exact housed.ordered
    · exact (housed.keys (k,kid) List.mem_cons_self).2
    · exact (List.nodup_cons.mp distinct).2
    · exact fun p inside => old p (List.mem_cons_of_mem _ inside)
    · rw [leaves]
      exact links.symm ▸ housed.chain
    · exact leaves ▸ housed.firstLeaf
    · exact leaves ▸ housed.lastLeaf
  · refine kidSized.change ?_
    have some := (sized_count kidSized).1
    change (if h = 0 then 0 else 2) ≤ _
    split <;> omega

theorem adjustRoot_kept (there : s.pages p = some node) (inner : node.isLeaf = false → node.size ≠ 1)
    (some : node.size ≠ 0) : adjustRoot store p s = (.ok false,s) := by
  rw [adjustRoot,bind_ok (read_run there),if_neg fun one => inner one.1 one.2,
    if_neg fun none => some none.2]
  rfl

/-- A node below the root, its parent, and the brother `coalesce_or_redistribute` takes: the kid of
the parent in front of it, behind it if it is the first. -/
structure Brothers (s : IndexFile κ) (p brother : Int) (pos : Nat) (node parent sibling : IxNode κ) : Prop where
  there : s.pages p = some node
  valid : node.parent ≠ invalidPageId
  above : s.pages node.parent = some parent
  position : parent.findChild p = some pos
  chosen : (if pos ≠ 0 then node.prevLeaf else node.nextLeaf) = brother
  beside : (parent.pairs[if pos = 0 then 1 else pos - 1]?).map (fun pair => pair.2.pageNo) = some brother
  brotherThere : s.pages brother = some sibling
  sameParent : sibling.parent = node.parent
  sameKind : sibling.isLeaf = node.isLeaf

section Settled

variable [DecidableEq κ]

theorem coalesce_root (there : s.pages p = some node) (root : node.parent = invalidPageId) (rounds : Nat) :
    coalesceOrRedistribute store (rounds + 1) p s = adjustRoot store p s := by
  rw [coalesceOrRedistribute,bind_ok (read_run there),bind_ok hdr_run,if_pos root]

theorem coalesce_enough (there : s.pages p = some node) (inner : node.parent ≠ invalidPageId)
    (enough : s.hdr.minSize ≤ node.size) {s' : IndexFile κ} (run : maintainParent store p s = (.ok (),s'))
    (rounds : Nat) :
    coalesceOrRedistribute store (rounds + 1) p s = (.ok false,s') := by
  rw [coalesceOrRedistribute,bind_ok (read_run there),bind_ok hdr_run,if_neg inner,if_pos enough,bind_ok run]
  rfl

theorem climb_small {brother : Int} {sibling : IxNode κ} {pos : Nat}
    (brothers : Brothers s p brother pos node parent sibling) (small : (node.size : Int) < s.hdr.minSize) :
    climb store p s =
      if s.hdr.minSize * 2 ≤ node.size + sibling.size then
        (do redistribute store brother p pos
            pure (.inl false) : Prog (IndexFile κ) RMDBError (Bool ⊕ Int × Int)) s
      else
        (do merge store (if pos = 0 then p else brother) (if pos = 0 then brother else p) node.parent
              (if pos = 0 then 1 else pos)
            pure (.inr (node.parent,if pos = 0 then p else brother)) : Prog (IndexFile κ) RMDBError (Bool ⊕ Int × Int)) s := by
  rw [climb,bind_ok (read_run brothers.there),bind_ok hdr_run,
    if_neg brothers.valid,if_neg (by omega),bind_ok (fetch_run brothers.above),
    bind_ok (IndexFile.findChild_run brothers.above brothers.position),brothers.chosen,
    bind_ok (fetch_run brothers.brotherThere),bind_ok (read_run brothers.brotherThere)]
  split <;> rfl

theorem coalesce_small {brother : Int} {sibling : IxNode κ} {pos : Nat}
    (brothers : Brothers s p brother pos node parent sibling) (small : (node.size : Int) < s.hdr.minSize) (rounds : Nat) :
    coalesceOrRedistribute store (rounds + 1) p s =
      if s.hdr.minSize * 2 ≤ node.size + sibling.size then
        (do redistribute store brother p pos
            pure false : Prog (IndexFile κ) RMDBError Bool) s
      else
        (do merge store (if pos = 0 then p else brother) (if pos = 0 then brother else p) node.parent
              (if pos = 0 then 1 else pos)
            let _ ← coalesceOrRedistribute store rounds node.parent
            pure true : Prog (IndexFile κ) RMDBError Bool) s := by
  have first := climb_small brothers small
  rw [coalesce_climb]
  by_cases spare : s.hdr.minSize * 2 ≤ node.size + sibling.size
  · rw [if_pos spare] at first ⊢
    rw [bind_same first,bind_assoc]
    rfl
  · rw [if_neg spare] at first ⊢
    rw [bind_same first,bind_assoc]
    rfl

theorem settled_run (three : 3 ≤ order) {path : IxPath κ h} {t : IxTree κ h}
    (housed : Housed proper order s (plug path t)) (shallow : path.depth < s.nextPage)
    (sizedPath : path.Sized ((order + 1) / 2) order) (sized : Sized ((order + 1) / 2) order 1 h t)
    (enough : path ≠ .top → (order + 1) / 2 ≤ t.items.length) (rounds : Nat) :
    ∃ answer s' r', coalesceOrRedistribute store (rounds + 1) t.page s = (.ok answer,s') ∧
      s'.nextPage = s.nextPage ∧ Shaped proper order s' r' ∧ Continues (plug path t) r' := by
  obtain ⟨node,there,leaf,parent,pairs,size⟩ := housed.node_found
  have many := (sized_count sized).1
  cases path with
  | top =>
    rw [coalesce_root there parent]
    by_cases collapse : h ≠ 0 ∧ t.items.length = 1
    · obtain ⟨h,rfl⟩ := Nat.exists_eq_succ_of_ne_zero collapse.1
      obtain ⟨page,items⟩ := t
      obtain ⟨⟨k,kid⟩,rfl⟩ := List.length_eq_one_iff.mp collapse.2
      obtain ⟨s',run,nextPage,shaped⟩ := adjustRoot_collapse (by omega) housed sized
      refine ⟨true,s',_,run,nextPage,shaped,?_,fun routed => routed.2.2.1⟩
      simp [plug,Root.entries,entries,collect]
    · have kept := adjustRoot_kept there (fun inner one => collapse ⟨?_,size ▸ one⟩) (by omega)
      · refine ⟨false,s,_,kept,rfl,{ housed with sized := sized.change ?_ },rfl,fun routed => routed⟩
        change (if h = 0 then 0 else 2) ≤ _
        split <;> omega
      · rintro rfl
        rw [leaf] at inner
        cases inner
  | up page before k after rest =>
    have half := enough (by simp)
    obtain ⟨⟨key,value⟩,others,items⟩ := List.exists_cons_of_length_pos many
    have named : firstKey t = some key := by rw [firstKey,items]; rfl
    have whole := (plug_sized (.up page before k after rest) t).mpr ⟨sizedPath,sized.change half⟩
    obtain ⟨s',run,nextPage,shaped⟩ := maintainParent_run named housed shallow whole
    refine ⟨false,s',_,?_,nextPage,shaped,relabel_collect _ _ _ t,fun routed => plug_relabel_routed routed named⟩
    refine coalesce_enough there (parent ▸ housed.parent_valid) ?_ run rounds
    rw [housed.minSize]
    omega

end Settled

/-! ### Two neighbouring leaves -/

section Neighbours

variable {page : Int} {before after : List (κ × IxTree κ 0)} {leftKey rightKey : κ} {rest : IxPath κ 1}
  {left right : IxTree κ 0}

theorem plug_beside (page : Int) (before after : List (κ × IxTree κ 0)) (leftKey rightKey : κ) (rest : IxPath κ 1)
    (left right : IxTree κ 0) : plug (.up page (before ++ [(leftKey,left)]) rightKey after rest) right =
      plug (.up page before leftKey ((rightKey,right) :: after) rest) left := by
  rw [plug,plug,List.append_assoc]
  rfl

variable (housed : Housed proper order s (plug (.up page before leftKey ((rightKey,right) :: after) rest) left))

include housed

theorem Housed.left_found : ∃ node, s.pages left.page = some node ∧ node.isLeaf = true ∧ node.parent = page ∧
    node.pairs = left.items := by
  obtain ⟨node,there,leaf,parent,pairs,_⟩ := housed.node_found
  exact ⟨node,there,leaf,parent,pairs⟩

theorem Housed.right_found : ∃ node, s.pages right.page = some node ∧ node.isLeaf = true ∧ node.parent = page ∧
    node.pairs = right.items := by
  rw [← plug_beside] at housed
  obtain ⟨node,there,leaf,parent,pairs,_⟩ := housed.node_found
  exact ⟨node,there,leaf,parent,pairs⟩

theorem Housed.neighbours : ∃ prev next beyond, s.links left.page = some (prev,right.page) ∧
    s.links right.page = some (left.page,next) ∧ s.links next = some (right.page,beyond) ∧
    right.page ≠ left.page ∧ next ≠ left.page ∧
    Chained (unlink s.links left.page next prev beyond) ixLeafHeaderPage
      (leafPages (plug (.up page before leftKey after rest) left) ++ [ixLeafHeaderPage]) := by
  have chain := housed.chain
  have ring := housed.ring_distinct
  have here : left.page ∈ leafPages (plug (.up page before leftKey ((rightKey,right) :: after) rest) left) := by
    rw [leafPages_plug]; simp
  have header : left.page ≠ ixLeafHeaderPage := by
    have := (housed.leafPages_old _ here).1
    simp only [ixLeafHeaderPage]; omega
  obtain ⟨next,others,cut⟩ : ∃ next others,
      (up page before leftKey after rest).collectRight (fun leaf => [leaf.page]) ++ [ixLeafHeaderPage] =
        next :: others := List.exists_cons_of_ne_nil (by simp)
  have shape : leafPages (plug (.up page before leftKey ((rightKey,right) :: after) rest) left) ++ [ixLeafHeaderPage] =
      (up page before leftKey after rest).collectLeft (fun leaf => [leaf.page]) ++
        left.page :: right.page :: next :: others := by
    rw [leafPages_plug,← cut]
    simp [collectRight,collectLeft,collect]
  rw [shape] at chain ring
  obtain ⟨prev,beyond,leftLinks,rightLinks,nextLinks,linked⟩ := chain.erase ring header
  refine ⟨prev,next,beyond,leftLinks,rightLinks,nextLinks,?_,?_,?_⟩
  · rintro same
    simp [List.nodup_append,same] at ring
  · rintro same
    simp [List.nodup_append,same] at ring
  · rw [leafPages_plug,List.append_assoc,List.cons_append,cut]
    exact linked

omit housed in
theorem neighbours_pages (merged : IxTree κ 0) (samePage : merged.page = left.page) :
    (plug (.up page before leftKey ((rightKey,right) :: after) rest) left).pages.Perm
      (right.page :: (plug (.up page before leftKey after rest) merged).pages) := by
  classical
  refine (plug_pages _ left).trans (List.Perm.trans ?_ ((plug_pages _ merged).symm.cons _))
  refine List.perm_iff_count.mpr fun p => ?_
  simp only [pages,around,List.flatMap_append,List.flatMap_cons,List.count_append,List.cons_append,List.count_cons,
    samePage,List.count_nil]
  omega

theorem Housed.lastLeaf_merged (merged : IxTree κ 0) (samePage : merged.page = left.page) :
    (leafPages (plug (.up page before leftKey after rest) merged)).getLast? =
      some (if right.page = s.hdr.lastLeaf then left.page else s.hdr.lastLeaf) := by
  have last := housed.lastLeaf
  have distinct := housed.leafPages_distinct
  rw [leafPages_plug] at last distinct ⊢
  simp only [collectLeft,collectRight,List.flatMap_cons,collect,List.cons_append,List.nil_append] at last distinct ⊢
  rw [samePage]
  generalize after.flatMap (fun kid => [kid.2.page]) ++ collectRight (fun leaf => [leaf.page]) rest = behind
    at last distinct ⊢
  rcases List.eq_nil_or_concat behind with rfl | ⟨front,final,rfl⟩
  · have here : right.page = s.hdr.lastLeaf := by simpa [List.getLast?_append,List.getLast?_cons] using last
    rw [if_pos here]
    simp
  · have there : final = s.hdr.lastLeaf := by simpa [List.getLast?_append,List.getLast?_cons] using last
    have apart : right.page ≠ s.hdr.lastLeaf := by
      rintro same
      rw [← there] at same
      simp [List.nodup_append,same] at distinct
    rw [if_neg apart]
    simpa [List.getLast?_append,List.getLast?_cons] using there

theorem Housed.merge_run : ∃ s', merge store left.page right.page page (before.length + 1) s = (.ok (),s') ∧
    s'.nextPage = s.nextPage ∧
    Housed proper order s' (plug (.up page before leftKey after rest) ⟨left.page,left.items ++ right.items⟩) := by
  obtain ⟨prev,next,beyond,leftLinks,rightLinks,nextLinks,apart,ends,chain⟩ := housed.neighbours
  obtain ⟨⟨parentBody,siblings,upper⟩,own⟩ := (holds_plug _ left).mp housed.holds
  obtain ⟨⟨sibKeys,labelKey,restKeys⟩,leftKeys⟩ := (plug_allKeys _ left).mp housed.keys
  have leftBody : s.body left.page = some (true,page,left.items) := own
  have rightBody : s.body right.page = some (true,page,right.items) := siblings (rightKey,right) (by simp)
  have position : (pointers before).length = before.length := List.length_map _
  have inside : before.length + 1 <
      (pointers before ++ (leftKey,⟨left.page,-1⟩) :: pointers ((rightKey,right) :: after)).length := by
    rw [List.length_append,position]; simp [pointers]
  obtain ⟨s',run,looks⟩ := IndexFile.merge_run leftBody rightBody parentBody inside leftLinks rightLinks nextLinks apart ends
  have erased : (pointers before ++ (leftKey,⟨left.page,-1⟩) :: pointers ((rightKey,right) :: after)).eraseIdx
      (before.length + 1) = pointers before ++ (leftKey,⟨left.page,-1⟩) :: pointers after := by
    rw [← position,List.eraseIdx_append_of_length_le (by omega)]
    simp [pointers]
  rw [erased] at looks
  have pagesOf : (plug (.up page before leftKey ((rightKey,right) :: after) rest) left).pages.Perm (right.page ::
      (plug (.up page before leftKey after rest) (⟨left.page,left.items ++ right.items⟩ : IxTree κ 0)).pages) :=
    neighbours_pages _ rfl
  obtain ⟨holeApart,others⟩ := housed.parent_apart
  have leftApart : left.page ≠ page := (ne_of_mem_of_not_mem (page_mem left) holeApart)
  have elsewhere {p : Int} (inside : p ∈ ((before ++ after).flatMap fun kid => pages 0 kid.2) ++ rest.around) :
      s'.body p = s.body p := by
    have among : p ∈ ((before ++ (rightKey,right) :: after).flatMap fun kid => pages 0 kid.2) ++ rest.around := by
      simp only [List.flatMap_append,List.flatMap_cons,List.mem_append] at inside ⊢
      tauto
    obtain ⟨notPage,notLeft⟩ := others p among
    have notLeftPage : p ≠ left.page := fun same => notLeft (same ▸ page_mem left)
    rw [looks.body,Function.update_of_ne notPage,Function.update_of_ne notLeftPage]
  obtain ⟨root,ordered,firstLeaf,lastLeaf⟩ := IndexFile.mergedHdr_parts left.page right.page s.hdr
  have sameLeaves : leafPages (plug (.up page before leftKey after rest)
      (⟨left.page,left.items ++ right.items⟩ : IxTree κ 0)) = leafPages (plug (.up page before leftKey after rest) left) := by
    rw [leafPages_plug,leafPages_plug]
  refine ⟨s',run,looks.nextPage,?_,?_,?_,?_,?_,?_,?_,?_,?_⟩
  · refine (holds_plug _ _).mpr ⟨⟨?_,fun kid among => ?_,upper.congr fun p inside => ?_⟩,?_⟩
    · rw [looks.body,Function.update_self]
    · refine (siblings kid ?_).congr fun p inside => elsewhere ?_
      · rcases List.mem_append.mp among with left | right <;> simp [*]
      · exact List.mem_append_left _ (List.mem_flatMap.mpr ⟨kid,among,inside⟩)
    · exact elsewhere (List.mem_append_right _ inside)
    · show s'.body left.page = _
      rw [looks.body,Function.update_of_ne leftApart,Function.update_self]
      rfl
  · rw [looks.hdr,root,housed.root,plug_page,plug_page]
    rfl
  · rw [looks.hdr,ordered]
    exact housed.ordered
  · refine (plug_allKeys _ _).mpr ⟨⟨fun kid among => sibKeys kid ?_,labelKey,restKeys⟩,?_⟩
    · rcases List.mem_append.mp among with left | right <;> simp [*]
    · exact List.forall_mem_append.mpr ⟨leftKeys,(sibKeys (rightKey,right) (by simp)).2⟩
  · exact (List.nodup_cons.mp (pagesOf.nodup_iff.mp housed.distinct)).2
  · intro p inside
    rw [looks.nextPage]
    exact housed.old p (pagesOf.mem_iff.mpr (List.mem_cons_of_mem _ inside))
  · rw [looks.links,sameLeaves]
    exact chain
  · have first := housed.firstLeaf
    rw [looks.hdr,firstLeaf,← first,leafPages_plug,leafPages_plug]
    simp [collectLeft,List.head?_append]
  · rw [looks.hdr,lastLeaf]
    exact housed.lastLeaf_merged _ rfl

theorem Housed.right_brothers : ∃ node parent sibling,
    Brothers s right.page left.page (before.length + 1) node parent sibling ∧ node.isLeaf = true ∧ node.parent = page ∧
      node.size = right.items.length ∧ sibling.size = left.items.length := by
  obtain ⟨_,_,_,_,rightLinks,_⟩ := housed.neighbours
  obtain ⟨leftNode,leftThere,leftLeaf,leftParent,leftPairs⟩ := housed.left_found
  obtain ⟨rightNode,rightThere,rightLeaf,rightParent,rightPairs⟩ := housed.right_found
  have valid := housed.parent_valid
  rw [← plug_beside] at housed
  obtain ⟨parent,parentThere,position,_,_,pairs⟩ := housed.parent_found
  have index : (before ++ [(leftKey,left)]).length = before.length + 1 := by simp
  have first : (pointers before).length = before.length := List.length_map _
  rw [index] at position
  rw [found_links rightThere] at rightLinks
  refine ⟨rightNode,parent,leftNode,⟨rightThere,rightParent ▸ valid,rightParent ▸ parentThere,position,?_,?_,leftThere,
    leftParent.trans rightParent.symm,leftLeaf.trans rightLeaf.symm⟩,rightLeaf,rightParent,by rw [IxNode.size,rightPairs],
    by rw [IxNode.size,leftPairs]⟩
  · rw [if_pos (Nat.succ_ne_zero _)]
    exact congrArg Prod.fst (Option.some.inj rightLinks)
  · rw [if_neg (Nat.succ_ne_zero _),Nat.add_sub_cancel,pairs,pointers_append,← first]
    simp [pointers]

theorem Housed.leaves_keys : (∀ e ∈ left.items, proper e.1) ∧ ∀ e ∈ right.items, proper e.1 := by
  obtain ⟨⟨siblings,_⟩,own⟩ := (plug_allKeys _ left).mp housed.keys
  exact ⟨own,(siblings (rightKey,right) (by simp)).2⟩

theorem Housed.refill_both {leftNode rightNode : IxNode κ} (leftThere : s.pages left.page = some leftNode)
    (rightThere : s.pages right.page = some rightNode) (lowKeys : ∀ e ∈ low, proper e.1)
    (highKeys : ∀ e ∈ high, proper e.1) :
    Housed proper order ((s.put right.page { rightNode with pairs := high }).put left.page { leftNode with pairs := low })
      (plug (.up page (before ++ [(leftKey,⟨left.page,low⟩)]) rightKey after rest) ⟨right.page,high⟩) := by
  obtain ⟨_,_,_,_,_,_,apart,_,_⟩ := housed.neighbours
  rw [← plug_beside] at housed
  have first := housed.setPairs rightThere highKeys
  rw [plug_beside] at first ⊢
  exact first.setPairs ((put_other apart.symm).trans leftThere) lowKeys

variable [DecidableEq κ]

theorem Housed.borrow_left {e : κ × Rid} {index : Nat} (items : left.items = low ++ [e]) (inner : index ≠ 0) :
    ∃ s', redistribute store left.page right.page index s = maintainParent store right.page s' ∧
      s'.nextPage = s.nextPage ∧ Housed proper order s'
        (plug (.up page (before ++ [(leftKey,⟨left.page,low⟩)]) rightKey after rest) ⟨right.page,e :: right.items⟩) := by
  obtain ⟨_,_,_,_,_,_,apart,_,_⟩ := housed.neighbours
  obtain ⟨leftNode,leftThere,_,_,leftPairs⟩ := housed.left_found
  obtain ⟨rightNode,rightThere,rightLeaf,_,rightPairs⟩ := housed.right_found
  obtain ⟨leftKeys,rightKeys⟩ := housed.leaves_keys
  rw [items] at leftPairs leftKeys
  obtain ⟨lowKeys,eKey⟩ := List.forall_mem_append.mp leftKeys
  have size : leftNode.size - 1 = low.length := by rw [IxNode.size,leftPairs]; simp
  have last : leftNode.pairs[low.length]? = some e := by rw [leftPairs]; simp
  have grown : rightNode.insertPairs 0 [e] = { rightNode with pairs := e :: right.items } := by
    simp [IxNode.insertPairs,rightPairs]
  have shrunk : leftNode.erasePair low.length = { leftNode with pairs := low } := by
    simp [IxNode.erasePair,leftPairs,List.eraseIdx_append_of_length_le]
  have leftStill : (s.put right.page { rightNode with pairs := e :: right.items }).pages left.page = some leftNode :=
    (put_other apart.symm).trans leftThere
  have rightNow : ((s.put right.page { rightNode with pairs := e :: right.items }).put left.page
      { leftNode with pairs := low }).pages right.page = some { rightNode with pairs := e :: right.items } :=
    (put_other apart).trans put_same
  have again := housed.refill_both leftThere rightThere lowKeys
    (List.forall_mem_cons.mpr ⟨eKey e (List.mem_singleton_self e),rightKeys⟩)
  refine ⟨_,?_,?_,again⟩
  · rw [redistribute,bind_ok (read_run leftThere),if_pos inner,size,
      bind_ok (pairAt_run leftThere last),
      bind_ok (IndexFile.insertPairs_run rightThere (Nat.zero_le _) _),grown,
      bind_ok (erasePair_run leftStill (by rw [IxNode.size,leftPairs]; simp)),shrunk,
      bind_ok (IndexFile.maintainChild_leaf rightNow rightLeaf 0)]
  · rfl

theorem Housed.borrow_right {e : κ × Rid} (items : right.items = e :: high) :
    ∃ s', redistribute store right.page left.page 0 s = maintainParent store right.page s' ∧
      s'.nextPage = s.nextPage ∧ Housed proper order s'
        (plug (.up page (before ++ [(leftKey,⟨left.page,left.items ++ [e]⟩)]) rightKey after rest) ⟨right.page,high⟩) := by
  obtain ⟨_,_,_,_,_,_,apart,_,_⟩ := housed.neighbours
  obtain ⟨leftNode,leftThere,leftLeaf,_,leftPairs⟩ := housed.left_found
  obtain ⟨rightNode,rightThere,_,_,rightPairs⟩ := housed.right_found
  obtain ⟨leftKeys,rightKeys⟩ := housed.leaves_keys
  rw [items] at rightPairs rightKeys
  obtain ⟨eKey,highKeys⟩ := List.forall_mem_cons.mp rightKeys
  have first : rightNode.pairs[0]? = some e := by rw [rightPairs]; rfl
  have grown : leftNode.insertPairs leftNode.size [e] = { leftNode with pairs := left.items ++ [e] } := by
    simp [IxNode.insertPairs,IxNode.size,leftPairs]
  have shrunk : rightNode.erasePair 0 = { rightNode with pairs := high } := by
    simp [IxNode.erasePair,rightPairs]
  have rightStill : (s.put left.page { leftNode with pairs := left.items ++ [e] }).pages right.page = some rightNode :=
    (put_other apart).trans rightThere
  have swapped : (s.put left.page { leftNode with pairs := left.items ++ [e] }).put right.page
      { rightNode with pairs := high } = (s.put right.page { rightNode with pairs := high }).put left.page
        { leftNode with pairs := left.items ++ [e] } := by
    rw [put,put,put,put,Function.update_comm apart]
  have leftNow : ((s.put left.page { leftNode with pairs := left.items ++ [e] }).put right.page
      { rightNode with pairs := high }).pages left.page = some { leftNode with pairs := left.items ++ [e] } :=
    (put_other apart.symm).trans put_same
  have again := housed.refill_both leftThere rightThere
    (List.forall_mem_append.mpr ⟨leftKeys,List.forall_mem_singleton.mpr eKey⟩) highKeys
  refine ⟨_,?_,?_,again⟩
  · rw [redistribute,bind_ok (read_run rightThere),if_neg (by simp),
      bind_ok (pairAt_run rightThere first),bind_ok (read_run leftThere),
      bind_ok (IndexFile.insertPairs_run leftThere (Nat.le_refl _) _),grown,
      bind_ok (erasePair_run rightStill (by rw [IxNode.size,rightPairs]; simp)),shrunk,
      bind_ok (read_run leftNow),bind_ok (IndexFile.maintainChild_leaf leftNow leftLeaf _),swapped]
  · rfl

end Neighbours

section Rebalanced

variable {page : Int} {before after : List (κ × IxTree κ 0)} {leftKey rightKey : κ} {rest : IxPath κ 1}
  {left right : IxTree κ 0}

theorem neighbours_entries (same : left.items ++ right.items = low ++ high) (leftPage rightPage : Int) :
    (plug (.up page (before ++ [(leftKey,⟨leftPage,low⟩)]) rightKey after rest) (⟨rightPage,high⟩ : IxTree κ 0)).entries =
      (plug (.up page before leftKey ((rightKey,right) :: after) rest) left).entries := by
  rw [plug_entries,plug_entries,entriesLeft_up,entriesLeft_up,entriesRight_up,entriesRight_up]
  have join (l : List (κ × Rid)) : low ++ (high ++ l) = left.items ++ (right.items ++ l) := by
    rw [← List.append_assoc,← same,List.append_assoc]
  simp [entries,collect,join]

/-- The sizes of the nodes around two neighbouring leaves. -/
structure SizedAround (order : Nat) (before after : List (κ × IxTree κ 0)) (rest : IxPath κ 1) : Prop where
  others : ∀ kid ∈ before ++ after, Sized ((order + 1) / 2) order ((order + 1) / 2) 0 kid.2
  few : rest.least ((order + 1) / 2) ≤ before.length + after.length + 2
  many : before.length + after.length + 2 ≤ order
  upper : rest.Sized ((order + 1) / 2) order

variable [DecidableEq κ] (around : SizedAround order before after rest)

include around

theorem shared_run {first : κ × Rid} (same : left.items ++ right.items = low ++ first :: high)
    (lowFew : (order + 1) / 2 ≤ low.length) (lowMany : low.length ≤ order) (highFew : (order + 1) / 2 ≤ high.length + 1)
    (highMany : high.length + 1 ≤ order) (nonempty : low ≠ []) (shallow : rest.depth + 1 < s.nextPage)
    (housed : Housed proper order s
      (plug (.up page (before ++ [(leftKey,⟨left.page,low⟩)]) rightKey after rest) ⟨right.page,first :: high⟩)) :
    ∃ s' r', maintainParent store right.page s = (.ok (),s') ∧ s'.nextPage = s.nextPage ∧ Shaped proper order s' r' ∧
      Continues (plug (.up page before leftKey ((rightKey,right) :: after) rest) left) r' := by
  have sized : (plug (.up page (before ++ [(leftKey,⟨left.page,low⟩)]) rightKey after rest)
      (⟨right.page,first :: high⟩ : IxTree κ 0)).Sized ((order + 1) / 2) order := by
    refine (plug_sized _ _).mpr ⟨⟨fun kid member => ?_,?_,?_,around.upper⟩,by simp [least]; omega,by simp; omega⟩
    · rw [List.append_assoc] at member
      rcases List.mem_append.mp member with inFront | behind
      · exact around.others kid (List.mem_append_left _ inFront)
      · rcases List.mem_append.mp behind with isLeft | behind
        · rw [List.mem_singleton.mp isLeft]
          exact ⟨lowFew,lowMany⟩
        · exact around.others kid (List.mem_append_right _ behind)
    · have := around.few
      simp; omega
    · have := around.many
      simp; omega
  obtain ⟨s',run,nextPage,shaped⟩ := maintainParent_run rfl housed shallow sized
  refine ⟨s',_,run,nextPage,shaped,(relabel_collect _ _ _ _).trans (neighbours_entries same left.page right.page),
    fun routed => plug_relabel_label rightKey ?_⟩
  obtain ⟨way,range⟩ := (plug_routed _ left).mp routed
  obtain ⟨newWay,newRange⟩ := neighbours_cut way range same nonempty left.page right.page
  refine (plug_routed _ _).mpr ⟨newWay,?_⟩
  rw [Path.low,if_neg (by simp)]
  exact newRange

theorem merged_run (rounds : Nat) (three : 3 ≤ order) (shallow : rest.depth + 1 < s.nextPage)
    (few : (order + 1) / 2 ≤ (left.items ++ right.items).length) (many : (left.items ++ right.items).length ≤ order)
    (enough : rest ≠ .top → (order + 1) / 2 ≤ before.length + after.length + 1)
    (housed : Housed proper order s (plug (.up page before leftKey after rest) ⟨left.page,left.items ++ right.items⟩)) :
    ∃ answer s' r', coalesceOrRedistribute store (rounds + 1) page s = (.ok answer,s') ∧ s'.nextPage = s.nextPage ∧
      Shaped proper order s' r' ∧
      Continues (plug (.up page before leftKey ((rightKey,right) :: after) rest) left) r' := by
  have count : (before ++ (leftKey,(⟨left.page,left.items ++ right.items⟩ : IxTree κ 0)) :: after).length =
      before.length + after.length + 1 := by simp; omega
  have sized : Sized ((order + 1) / 2) order 1 1
      (⟨page,before ++ (leftKey,⟨left.page,left.items ++ right.items⟩) :: after⟩ : IxTree κ 1) := by
    have := around.many
    refine ⟨⟨by rw [count]; omega,by rw [count]; omega⟩,fun kid member => ?_⟩
    rcases List.mem_append.mp member with inFront | behind
    · exact around.others kid (List.mem_append_left _ inFront)
    · rcases List.mem_cons.mp behind with rfl | behind
      · exact ⟨few,many⟩
      · exact around.others kid (List.mem_append_right _ behind)
  replace housed : Housed proper order s (plug rest
    ⟨page,before ++ (leftKey,⟨left.page,left.items ++ right.items⟩) :: after⟩) := housed
  obtain ⟨answer,s',r',run,nextPage,shaped,same,led⟩ := settled_run three housed (by omega) around.upper sized
    (fun inner => by rw [count]; exact enough inner) rounds
  refine ⟨answer,s',r',run,nextPage,shaped,same.trans ?_,fun routed => led ?_⟩
  · rw [plug_entries,plug_entries,entriesLeft_up,entriesRight_up]
    simp [entries,collect]
  · obtain ⟨way,range⟩ := (plug_routed _ left).mp routed
    exact (plug_routed (.up page before leftKey after rest) _).mpr (neighbours_joined way range left.page)

variable (housed : Housed proper order s (plug (.up page before leftKey ((rightKey,right) :: after) rest) left))
  (three : 3 ≤ order) (shallow : rest.depth + 1 < s.nextPage) (rounds : Nat)

include housed three shallow

/-- The right leaf has too few pairs, and gets one of the left leaf or becomes part of it. -/
theorem right_underflow (small : right.items.length + 1 = (order + 1) / 2) (few : (order + 1) / 2 ≤ left.items.length)
    (many : left.items.length ≤ order)
    (enough : rest ≠ .top → left.items.length = (order + 1) / 2 → (order + 1) / 2 ≤ before.length + after.length + 1) :
    ∃ answer s' r', coalesceOrRedistribute store (rounds + 2) right.page s = (.ok answer,s') ∧
      Shaped proper order s' r' ∧
      Continues (plug (.up page before leftKey ((rightKey,right) :: after) rest) left) r' := by
  obtain ⟨node,parent,sibling,brothers,_,hangs,size,siblingSize⟩ := housed.right_brothers
  rw [coalesce_small brothers (by rw [housed.minSize]; omega),housed.minSize,size,siblingSize,hangs,
    if_neg (Nat.succ_ne_zero before.length),if_neg (Nat.succ_ne_zero before.length),if_neg (Nat.succ_ne_zero before.length)]
  by_cases spare : left.items.length = (order + 1) / 2
  · rw [if_neg (by omega)]
    obtain ⟨s1,run,nextPage,merged⟩ := housed.merge_run
    obtain ⟨answer,s2,r',onward,_,shaped,again⟩ := merged_run around rounds three (by omega)
      (by rw [List.length_append]; omega) (by rw [List.length_append]; omega)
      (fun inner => enough inner spare) merged
    refine ⟨true,s2,r',?_,shaped,again⟩
    rw [bind_ok run,bind_ok onward]
    rfl
  · rw [if_pos (by omega)]
    obtain ⟨low,e,items⟩ : ∃ low e, left.items = low ++ [e] :=
      ⟨_,_,(List.dropLast_append_getLast (List.ne_nil_of_length_pos (by omega))).symm⟩
    have length : left.items.length = low.length + 1 := by rw [items]; simp
    obtain ⟨s1,run,nextPage,shared⟩ := housed.borrow_left items (Nat.succ_ne_zero before.length)
    obtain ⟨s2,r',onward,_,shaped,again⟩ := shared_run around
      (by rw [items]; simp) (by omega) (by omega) (by omega) (by omega) (List.ne_nil_of_length_pos (by omega))
      (by omega) shared
    refine ⟨false,s2,r',?_,shaped,again⟩
    rw [bind_ok (run.trans onward)]
    rfl

end Rebalanced

theorem left_brothers {after : List (κ × IxTree κ 0)} {leftKey rightKey : κ} {rest : IxPath κ 1}
    {left right : IxTree κ 0} (housed : Housed proper order s (plug (.up page [] leftKey ((rightKey,right) :: after) rest) left)) :
    ∃ node parent sibling, Brothers s left.page right.page 0 node parent sibling ∧ node.isLeaf = true ∧
      node.parent = page ∧ node.size = left.items.length ∧ sibling.size = right.items.length := by
  obtain ⟨_,_,_,leftLinks,_⟩ := housed.neighbours
  obtain ⟨leftNode,leftThere,leftLeaf,leftParent,leftPairs⟩ := housed.left_found
  obtain ⟨rightNode,rightThere,rightLeaf,rightParent,rightPairs⟩ := housed.right_found
  obtain ⟨parent,parentThere,position,_,_,pairs⟩ := housed.parent_found
  rw [found_links leftThere] at leftLinks
  refine ⟨leftNode,parent,rightNode,⟨leftThere,leftParent ▸ housed.parent_valid,leftParent ▸ parentThere,position,?_,?_,
    rightThere,rightParent.trans leftParent.symm,rightLeaf.trans leftLeaf.symm⟩,leftLeaf,leftParent,
    by rw [IxNode.size,leftPairs],by rw [IxNode.size,rightPairs]⟩
  · rw [if_neg (by simp)]
    exact congrArg Prod.snd (Option.some.inj leftLinks)
  · rw [if_pos rfl,pairs]
    rfl

/-- The left leaf has too few pairs and is the first kid: it gets one of the right leaf or takes it all. -/
theorem left_underflow [DecidableEq κ] {after : List (κ × IxTree κ 0)} {leftKey rightKey : κ} {rest : IxPath κ 1}
    {left right : IxTree κ 0} (around : SizedAround order [] after rest)
    (housed : Housed proper order s (plug (.up page [] leftKey ((rightKey,right) :: after) rest) left))
    (three : 3 ≤ order) (shallow : rest.depth + 1 < s.nextPage) (rounds : Nat)
    (small : left.items.length + 1 = (order + 1) / 2) (few : (order + 1) / 2 ≤ right.items.length)
    (many : right.items.length ≤ order)
    (enough : rest ≠ .top → right.items.length = (order + 1) / 2 → (order + 1) / 2 ≤ after.length + 1) :
    ∃ answer s' r', coalesceOrRedistribute store (rounds + 2) left.page s = (.ok answer,s') ∧
      Shaped proper order s' r' ∧
      Continues (plug (.up page [] leftKey ((rightKey,right) :: after) rest) left) r' := by
  obtain ⟨node,parent,sibling,brothers,_,hangs,size,siblingSize⟩ := left_brothers housed
  rw [coalesce_small brothers (by rw [housed.minSize]; omega),housed.minSize,size,siblingSize,hangs]
  by_cases spare : right.items.length = (order + 1) / 2
  · rw [if_neg (by omega)]
    obtain ⟨s1,run,nextPage,merged⟩ := housed.merge_run
    obtain ⟨answer,s2,r',onward,_,shaped,again⟩ := merged_run around rounds three (by omega)
      (by rw [List.length_append]; omega) (by rw [List.length_append]; omega)
      (fun inner => by simpa using enough inner spare) merged
    refine ⟨true,s2,r',?_,shaped,again⟩
    exact (bind_ok run).trans ((bind_ok onward).trans rfl)
  · rw [if_pos (by omega)]
    obtain ⟨e,high,items⟩ := List.exists_cons_of_length_pos (by omega : 0 < right.items.length)
    have length : right.items.length = high.length + 1 := by rw [items]; simp
    obtain ⟨first,others,cut⟩ := List.exists_cons_of_length_pos (by omega : 0 < high.length)
    have highLength : high.length = others.length + 1 := by rw [cut]; simp
    obtain ⟨s1,run,nextPage,shared⟩ := housed.borrow_right items
    rw [cut] at shared
    obtain ⟨s2,r',onward,_,shaped,again⟩ := shared_run around
      (by rw [items,cut]; simp) (by simp; omega) (by simp; omega) (by omega) (by omega) (by simp) (by omega) shared
    refine ⟨false,s2,r',?_,shaped,again⟩
    exact (bind_ok (run.trans onward)).trans rfl

/-! ### `delete_entry` -/

/-- The kid next to one with `before` in front of it and `after` behind it. -/
def beside (before after : List (κ × IxTree κ h)) : Option (IxTree κ h) :=
  (before.getLast?.or after.head?).map Prod.snd

/-- The leaf can lose a pair without leaving its parent, unless that is the root, too few children. -/
def Spared (order : Nat) : IxPath κ 0 → IxTree κ 0 → Prop
  | .top, _ => True
  | .up _ before _ after rest, leaf => rest ≠ .top → leaf.items.length = (order + 1) / 2 →
      ∀ sibling ∈ beside before after, sibling.items.length = (order + 1) / 2 →
        (order + 1) / 2 ≤ before.length + after.length

section DeleteEntry

variable [DecidableEq κ] (three : 3 ≤ order)

include three

omit [DecidableEq κ] in
theorem least_two (rest : IxPath κ 1) : 2 ≤ rest.least ((order + 1) / 2) := by
  cases rest with
  | top => exact Nat.le_refl 2
  | up => rw [least]; omega

theorem leaf_underflow {before after : List (κ × IxTree κ 0)} {rest : IxPath κ 1} {leaf : IxTree κ 0}
    {items : List (κ × Rid)} (rounds : Nat)
    (housed : Housed proper order s (plug (.up page before k after rest) ⟨leaf.page,items⟩))
    (shallow : rest.depth + 1 < s.nextPage) (sized : (up page before k after rest).Sized ((order + 1) / 2) order)
    (one : items.length + 1 = leaf.items.length) (small : leaf.items.length = (order + 1) / 2)
    (spared : Spared order (.up page before k after rest) leaf) :
    ∃ answer s' r', coalesceOrRedistribute store (rounds + 2) leaf.page s = (.ok answer,s') ∧
      Shaped proper order s' r' ∧ Continues (plug (.up page before k after rest) ⟨leaf.page,items⟩) r' := by
  obtain ⟨siblings,few,many,upper⟩ := sized
  have two := least_two three rest
  rcases List.eq_nil_or_concat' before with rfl | ⟨before,⟨leftKey,left⟩,rfl⟩
  · cases after with
    | nil => simp at few; omega
    | cons kid after =>
      obtain ⟨rightKey,right⟩ := kid
      obtain ⟨⟨rightFew,rightMany⟩,others⟩ := List.forall_mem_cons.mp siblings
      rw [List.length_cons,List.length_nil] at few many
      exact left_underflow ⟨others,by rw [List.length_nil]; omega,by rw [List.length_nil]; omega,upper⟩ housed three shallow rounds
        (one.trans small) rightFew rightMany fun inner full => by
          simpa using spared inner small right (by simp [beside]) full
  · obtain ⟨front,behind⟩ := List.forall_mem_append.mp siblings
    obtain ⟨front,own⟩ := List.forall_mem_append.mp front
    obtain ⟨leftFew,leftMany⟩ := own (leftKey,left) (List.mem_singleton_self _)
    rw [List.length_append,List.length_singleton] at few many
    rw [plug_beside] at housed ⊢
    exact right_underflow ⟨List.forall_mem_append.mpr ⟨front,behind⟩,by omega,by omega,upper⟩ housed three shallow
      rounds (one.trans small) leftFew leftMany fun inner full => by
        have := spared inner small left (by simp [beside]) full
        simp at this
        omega

theorem leaf_settled {path : IxPath κ 0} {leaf : IxTree κ 0} {items : List (κ × Rid)} (rounds : Nat)
    (housed : Housed proper order s (plug path ⟨leaf.page,items⟩)) (shallow : path.depth < s.nextPage)
    (sized : (plug path leaf).Sized ((order + 1) / 2) order) (one : items.length + 1 = leaf.items.length)
    (spared : Spared order path leaf) (left : path = .top → items ≠ []) :
    ∃ answer s' r', coalesceOrRedistribute store (rounds + 2) leaf.page s = (.ok answer,s') ∧
      Shaped proper order s' r' ∧ Continues (plug path ⟨leaf.page,items⟩) r' := by
  obtain ⟨way,few,many⟩ := (plug_sized path leaf).mp sized
  cases path with
  | top =>
    have left := List.length_pos_iff.mpr (left rfl)
    obtain ⟨answer,s',r',run,_,shaped,again⟩ := settled_run three housed shallow trivial
      ⟨by dsimp only; omega,by dsimp only; omega⟩ (fun inner => absurd rfl inner) (rounds + 1)
    exact ⟨answer,s',r',run,shaped,again⟩
  | up page before k after rest =>
    replace few : (order + 1) / 2 ≤ leaf.items.length := few
    by_cases half : (order + 1) / 2 ≤ items.length
    · obtain ⟨answer,s',r',run,_,shaped,again⟩ := settled_run three housed shallow way
        ⟨by dsimp only; omega,by dsimp only; omega⟩ (fun _ => half) (rounds + 1)
      exact ⟨answer,s',r',run,shaped,again⟩
    · exact leaf_underflow three rounds housed shallow way one (by omega) spared

/-! What the search found decides the rest. -/
section Found

variable {path : IxPath κ 0} {leaf : IxTree κ 0} {node : IxNode κ} {key : κ} {low high : List (κ × Rid)} {e : κ × Rid}
  (found : findLeafPage store cmp key s = (.ok leaf.page,s)) (there : s.pages leaf.page = some node)

include found there

omit three [DecidableEq κ] in
theorem removal_missing (missing : node.removePos cmp key = none) : removal store cmp key s = (.ok (leaf.page,false),s) := by
  have stays : remove store cmp leaf.page key s = (.ok node.size,s) := by
    rw [remove,bind_ok (read_run there),missing]
    exact bind_ok (read_run there)
  rw [removal,bind_ok found,bind_ok (read_run there),bind_ok stays]
  simp

omit three in
theorem deleteEntry_missing (missing : node.removePos cmp key = none) : deleteEntry store cmp key s = (.ok false,s) := by
  rw [deleteEntry_removal,bind_ok (removal_missing found there missing)]
  rfl

omit three [DecidableEq κ] in
theorem removal_found (pairs : node.pairs = low ++ e :: high) (position : node.removePos cmp key = some low.length) :
    removal store cmp key s = (.ok (leaf.page,true),s.put leaf.page { node with pairs := low ++ high }) := by
  have shrunk : node.erasePair low.length = { node with pairs := low ++ high } := by
    simp [IxNode.erasePair,pairs,List.eraseIdx_append_of_length_le]
  have size : node.size = low.length + high.length + 1 := by rw [IxNode.size,pairs]; simp; omega
  have removed : remove store cmp leaf.page key s =
      (.ok (low.length + high.length),s.put leaf.page { node with pairs := low ++ high }) := by
    rw [remove,bind_ok (read_run there),position]
    refine (bind_ok (erasePair_run there (by omega))).trans ?_
    rw [shrunk]
    refine (bind_ok (read_run put_same)).trans ?_
    simp [IxNode.size]
  rw [removal,bind_ok found,bind_ok (read_run there),bind_ok removed]
  simp [size]

omit three in
theorem deleteEntry_start (pairs : node.pairs = low ++ e :: high) (position : node.removePos cmp key = some low.length) :
    deleteEntry store cmp key s = (do
      let _ ← coalesceOrRedistribute store s.nextPage leaf.page
      pure true : Prog (IndexFile κ) RMDBError Bool) (s.put leaf.page { node with pairs := low ++ high }) := by
  rw [deleteEntry_removal,bind_ok (removal_found found there pairs position)]
  rfl

variable (shaped : Shaped proper order s (plug path leaf)) (items : leaf.items = low ++ e :: high)
  (position : node.removePos cmp key = some low.length)

include shaped items position

omit three in
/-- The file `coalesce_or_redistribute` is called on. -/
theorem Shaped.without : Housed proper order (s.put leaf.page { node with pairs := low ++ high })
      (plug path ⟨leaf.page,low ++ high⟩) ∧ deleteEntry store cmp key s = (do
      let _ ← coalesceOrRedistribute store s.nextPage leaf.page
      pure true : Prog (IndexFile κ) RMDBError Bool) (s.put leaf.page { node with pairs := low ++ high }) := by
  obtain ⟨_,same,_,_,pairs,_⟩ := shaped.toHoused.node_found
  obtain rfl := Option.mem_unique same there
  have keys := ((plug_allKeys path leaf).mp shaped.keys).2
  have part : low ++ high ⊆ leaf.items := by
    rw [items]
    exact ((List.Sublist.refl low).append (List.sublist_cons_self _ _)).subset
  exact ⟨shaped.toHoused.setPairs there fun e member => keys e (part member),
    deleteEntry_start found there (pairs.trans items) position⟩

theorem Shaped.deleteEntry (spared : Spared order path leaf) (left : path = .top → low ++ high ≠ []) :
    ∃ s' r', deleteEntry store cmp key s = (.ok true,s') ∧ Shaped proper order s' r' ∧
      Continues (plug path ⟨leaf.page,low ++ high⟩) r' := by
  obtain ⟨housed,start⟩ := shaped.without found there items position
  have shallow := shaped.shallow three
  have old := shaped.toHoused.around_old leaf.page (by simp)
  obtain ⟨rounds,enough⟩ : ∃ rounds, s.nextPage = rounds + 2 := ⟨s.nextPage - 2,by omega⟩
  obtain ⟨answer,s',r',run,again,onward⟩ := leaf_settled three rounds housed (by simpa using shallow) shaped.sized
    (by rw [items]; simp; omega) spared left
  refine ⟨s',r',?_,again,onward⟩
  rw [start,enough,bind_ok run]
  rfl

end Found

variable (ranked : Ranked cmp rank proper) {key : κ} (searched : proper key)

include ranked searched

theorem Balanced.deleteEntry_absent (balanced : Balanced rank proper order s r)
    (absent : lookup rank r.entries key = none) : deleteEntry store cmp key s = (.ok false,s) := by
  obtain ⟨path,leaf,run,rfl,reached⟩ := findLeafPage_reached ranked three balanced searched
  obtain ⟨node,there,_,_,pairs⟩ := body_found balanced.at_leaf.1
  have agrees := ranked.agrees searched (pairs ▸ balanced.leaf_keys)
  rcases balanced.place reached with ⟨_,_,_,_,_,_,_,hit⟩ | ⟨low,high,items,below,above,_⟩
  · simp [hit] at absent
  · exact deleteEntry_missing run there (agrees.removePos_absent below (pairs.trans items) above)

theorem Balanced.deleteEntry_present {path : IxPath κ 0} {leaf : IxTree κ 0} {value : Rid}
    (balanced : Balanced rank proper order s (plug path leaf)) (reached : Reached rank key path)
    (items : leaf.items = low ++ (k,value) :: high) (below : AllBelow rank key low) (same : rank k = rank key)
    (spared : Spared order path leaf) (left : path = .top → low ++ high ≠ []) :
    ∃ s' r', deleteEntry store cmp key s = (.ok true,s') ∧ Balanced rank proper order s' r' ∧
      r'.entries = path.entriesLeft ++ (low ++ high) ++ path.entriesRight := by
  have run := findLeafPage_path ranked three searched reached balanced
  obtain ⟨found,way,room,sorted,bounds⟩ := balanced.at_leaf
  obtain ⟨node,there,_,_,pairs⟩ := body_found found
  have agrees := ranked.agrees searched (pairs ▸ balanced.leaf_keys)
  have position := agrees.removePos_present below (pairs.trans items) same (pairs ▸ sorted)
  obtain ⟨s',r',deleted,again,onward⟩ := balanced.shaped.deleteEntry three run there items position spared left
  have part : (low ++ high).Sublist leaf.items := by
    rw [items]
    exact (List.Sublist.refl low).append (List.sublist_cons_self _ _)
  refine ⟨s',r',deleted,again.balanced (onward.routed ?_),onward.entries.trans (plug_entries _ _)⟩
  exact (plug_routed path _).mpr ⟨way,room,sorted.sublist part,fun e member => bounds e (part.subset member)⟩

end DeleteEntry

end Rucbase.IndexTree
