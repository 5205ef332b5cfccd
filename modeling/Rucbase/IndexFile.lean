import Rucbase.IxIndexHandle
import Rucbase.Lib.Chain

/-! The index over a transparent page store: every page keeps what was last written to it. A
page is seen in two parts, what the tree above the leaves reads and what the leaf list reads,
since most operations change one of them. -/
namespace Rucbase

open Lib Prog
open Function (update_self update_of_ne update_eq_self_iff update_idem)

structure IndexFile (κ : Type) where
  hdr : IxFileHdr
  pages : Int → Option (IxNode κ)
  nextPage : Nat

/-- Whether the node is a leaf, its parent and its pairs. -/
abbrev Body (κ : Type) : Type := Bool × Int × List (κ × Rid)

namespace IndexFile

variable {κ : Type}

def put (p : Int) (node : IxNode κ) (s : IndexFile κ) : IndexFile κ :=
  { s with pages := Function.update s.pages p (some node) }

/-- A fetch of page -1, which the handle of an emptied tree makes, throws here; in the source it depends on the last
read of the file. -/
def store : PageStore (IndexFile κ) κ where
  fetch p := do
    let s ← state
    check (s.pages p).isSome (.internal "DiskManager::read_page Error")
  newPage := do
    let s ← state
    update fun s => { s.put s.nextPage .zero with nextPage := s.nextPage + 1 }
    pure s.nextPage
  unpin _ _ := pure true
  read p := do
    let s ← state
    match s.pages p with
    | some node => pure node
    | none => raise .assertion
  write p node := update (put p node)
  hdr := do
    let s ← state
    pure s.hdr
  setHdr f := update fun s => { s with hdr := f s.hdr }
  pageCount := do
    let s ← state
    pure s.nextPage

def body (s : IndexFile κ) (p : Int) : Option (Body κ) :=
  (s.pages p).map fun node => (node.isLeaf,node.parent,node.pairs)

/-- The neighbours of a page in the leaf list. -/
def links (s : IndexFile κ) (p : Int) : Option (Int × Int) :=
  (s.pages p).map fun node => (node.prevLeaf,node.nextLeaf)

variable {parent q : Int} {new : IxNode κ} {pairs : List (κ × Rid)}

section Runs

variable {s : IndexFile κ} {p : Int} {node : IxNode κ}

theorem fetch_run (found : s.pages p = some node) : store.fetch p s = (.ok (),s) := by
  simp [store,bind_run,found,check]

theorem read_run (found : s.pages p = some node) : store.read p s = (.ok node,s) := by
  simp [store,bind_run,found]

theorem read_found {next : IndexFile κ} (run : store.read p s = (.ok node,next)) : s.pages p = some node ∧ next = s := by
  match found : s.pages p with
  | some other =>
    rw [read_run found] at run
    obtain ⟨same,rfl⟩ := Prod.mk.inj run
    exact ⟨congrArg some (Except.ok.inj same),rfl⟩
  | none => simp [store,bind_run,found] at run

@[simp] theorem write_run : store.write p node s = (.ok (),s.put p node) := rfl

@[simp] theorem unpin_run (dirty : Bool) : store.unpin p dirty s = (.ok true,s) := rfl

@[simp] theorem hdr_run : store.hdr s = (.ok s.hdr,s) := rfl

@[simp] theorem setHdr_run (f : IxFileHdr → IxFileHdr) :
    store.setHdr f s = (.ok (),{ s with hdr := f s.hdr }) := rfl

@[simp] theorem pageCount_run : store.pageCount s = (.ok s.nextPage,s) := rfl

@[simp] theorem newPage_run :
    store.newPage s = (.ok (s.nextPage : Int),{ s.put s.nextPage .zero with nextPage := s.nextPage + 1 }) :=
  rfl

@[simp] theorem put_hdr : (s.put p node).hdr = s.hdr := rfl

@[simp] theorem put_nextPage : (s.put p node).nextPage = s.nextPage := rfl

theorem put_same : (s.put p node).pages p = some node := update_self ..

theorem put_other (apart : q ≠ p) : (s.put p node).pages q = s.pages q :=
  update_of_ne apart ..

theorem body_put :
    (s.put p node).body = Function.update s.body p (some (node.isLeaf,node.parent,node.pairs)) := by
  funext q
  by_cases same : q = p
  · subst q; simp [body,put]
  · simp [body,put,same]

theorem links_put :
    (s.put p node).links = Function.update s.links p (some (node.prevLeaf,node.nextLeaf)) := by
  funext q
  by_cases same : q = p
  · subst q; simp [links,put]
  · simp [links,put,same]

theorem body_found {leaf : Bool} (found : s.body p = some (leaf,parent,pairs)) :
    ∃ node, s.pages p = some node ∧ node.isLeaf = leaf ∧ node.parent = parent ∧ node.pairs = pairs := by
  obtain ⟨node,there,parts⟩ := Option.map_eq_some_iff.mp found
  simp only [Prod.mk.injEq] at parts
  exact ⟨node,there,parts⟩

theorem found_body (found : s.pages p = some node) :
    s.body p = some (node.isLeaf,node.parent,node.pairs) := by simp [body,found]

theorem found_links (found : s.pages p = some node) :
    s.links p = some (node.prevLeaf,node.nextLeaf) := by simp [links,found]

theorem links_kept (found : s.pages p = some node) (prev : new.prevLeaf = node.prevLeaf)
    (next : new.nextLeaf = node.nextLeaf) :
    (s.put p new).links = s.links := by
  rw [links_put,prev,next]
  exact update_eq_self_iff.mpr (found_links found).symm

theorem body_kept (found : s.pages p = some node) (leaf : new.isLeaf = node.isLeaf) (parent : new.parent = node.parent)
    (pairs : new.pairs = node.pairs) : (s.put p new).body = s.body := by
  rw [body_put,leaf,parent,pairs]
  exact update_eq_self_iff.mpr (found_body found).symm

end Runs

/-! What the operations do when the pages they use are there. -/
section Operations

open IxIndexHandle

variable {s : IndexFile κ} {p : Int} {node : IxNode κ}

theorem edit_run (found : s.pages p = some node) (f : IxNode κ → IxNode κ) :
    edit store p f s = (.ok (),s.put p (f node)) := by
  rw [edit,bind_ok (read_run found),write_run]

theorem insertPairs_run (found : s.pages p = some node) {pos : Nat} (inside : pos ≤ node.size) (new : List (κ × Rid)) :
    insertPairs store p pos new s = (.ok (),s.put p (node.insertPairs pos new)) := by
  rw [insertPairs,bind_ok (read_run found)]
  simp [bind_run,check,inside]

variable {c : Int} {b : Int → Option (Body κ)} {cs : List Int} {i : Nat}

theorem pairAt_run (found : s.pages p = some node) {pair : κ × Rid} (there : node.pairs[i]? = some pair) :
    pairAt store p i s = (.ok pair,s) := by
  rw [pairAt,bind_ok (read_run found),there]
  rfl

theorem findChild_run (found : s.pages p = some node) {child : Int} (there : node.findChild child = some i) :
    findChild store p child s = (.ok i,s) := by
  rw [findChild,bind_ok (read_run found),there]
  rfl

def grown (s : IndexFile κ) : IndexFile κ :=
  { s.put s.nextPage .zero with
    hdr := { s.hdr with numPages := s.hdr.numPages + 1 }, nextPage := s.nextPage + 1 }

theorem createNode_run : createNode store s = (.ok (s.nextPage : Int),s.grown) := rfl

theorem grown_body : s.grown.body = Function.update s.body s.nextPage (some (false,0,[])) := body_put

theorem grown_links : s.grown.links = Function.update s.links s.nextPage (some (0,0)) := links_put

theorem maintainChild_run (found : s.pages p = some node) (inner : node.isLeaf = false) {pair : κ × Rid}
    (there : node.pairs[i]? = some pair) {child : IxNode κ} (kid : s.pages pair.2.pageNo = some child) :
    maintainChild store p i s = (.ok (),s.put pair.2.pageNo { child with parent := p }) := by
  rw [maintainChild,bind_ok (read_run found),inner,if_neg Bool.false_ne_true,bind_ok (pairAt_run found there),
    bind_ok (fetch_run kid),bind_ok (edit_run kid _)]
  rfl

/-- The bodies once the pages `cs` have the parent `q`. -/
def reparent (q : Int) (cs : List Int) (b : Int → Option (Body κ)) : Int → Option (Body κ) :=
  fun p => if p ∈ cs then (b p).map fun old => (old.1,q,old.2.2) else b p

theorem reparent_other (apart : c ∉ cs) : reparent q cs b c = b c := if_neg apart

theorem reparent_mem (member : c ∈ cs) : reparent q cs b c = (b c).map fun old => (old.1,q,old.2.2) := if_pos member

theorem reparent_cons {old : Body κ} (there : b c = some old) :
    reparent q cs (Function.update b c (some (old.1,q,old.2.2))) = reparent q (c :: cs) b := by
  funext p
  by_cases same : p = c
  · subst p; simp [reparent,there]
  · simp [reparent,same]

/-- All that is read of a file. -/
structure Looks (s : IndexFile κ) (hdr : IxFileHdr) (nextPage : Nat) (links : Int → Option (Int × Int))
    (body : Int → Option (Body κ)) : Prop where
  hdr : s.hdr = hdr
  nextPage : s.nextPage = nextPage
  links : s.links = links
  body : s.body = body

theorem maintainChildren_run {done todo : List (κ × Rid)} (found : s.body q = some (false,parent,done ++ todo))
    (kids : ∀ pair ∈ todo, (s.body pair.2.pageNo).isSome ∧ pair.2.pageNo ≠ q) :
    ∃ s', maintainChildren store q done.length todo.length s = (.ok (),s') ∧
      Looks s' s.hdr s.nextPage s.links (reparent q (todo.map fun pair => pair.2.pageNo) s.body) := by
  induction todo generalizing s done with
  | nil => exact ⟨s,rfl,⟨rfl,rfl,rfl,by funext p; simp [reparent]⟩⟩
  | cons pair todo ih =>
    obtain ⟨node,there,inner,_,pairs⟩ := body_found found
    have first : node.pairs[done.length]? = some pair := by simp [pairs]
    obtain ⟨present,apart⟩ := kids pair List.mem_cons_self
    obtain ⟨⟨leaf,up,below⟩,kidBody⟩ := Option.isSome_iff_exists.mp present
    obtain ⟨child,kid,rfl,rfl,rfl⟩ := body_found kidBody
    have step := maintainChild_run there inner first kid
    have bodies : (s.put pair.2.pageNo { child with parent := q }).body =
        Function.update s.body pair.2.pageNo (some (child.isLeaf,q,child.pairs)) := body_put
    have still : (s.put pair.2.pageNo { child with parent := q }).body q =
        some (false,parent,(done ++ [pair]) ++ todo) := by
      rw [bodies,update_of_ne apart.symm,found,List.append_assoc]
      rfl
    have others : ∀ other ∈ todo,
        ((s.put pair.2.pageNo { child with parent := q }).body other.2.pageNo).isSome ∧
          other.2.pageNo ≠ q := by
      intro other member
      refine ⟨?_,(kids other (List.mem_cons_of_mem _ member)).2⟩
      rw [bodies]
      by_cases same : other.2.pageNo = pair.2.pageNo
      · simp [same]
      · rw [update_of_ne same]
        exact (kids other (List.mem_cons_of_mem _ member)).1
    obtain ⟨s',run,looks⟩ := ih still others
    refine ⟨s',?_,looks.hdr,looks.nextPage,?_,?_⟩
    · rw [List.length_cons,maintainChildren,bind_ok step]
      simpa using run
    · rw [looks.links]
      exact links_kept kid rfl rfl
    · rw [looks.body,bodies]
      exact reparent_cons kidBody

theorem maintainChildren_leaf (found : s.pages p = some node) (leaf : node.isLeaf = true) (first count : Nat) :
    maintainChildren store p first count s = (.ok (),s) := by
  induction count generalizing first with
  | zero => rfl
  | succ count ih =>
    have step : maintainChild store p first s = (.ok (),s) := by
      rw [maintainChild,bind_ok (read_run found),leaf,if_pos rfl]
      rfl
    rw [maintainChildren,bind_ok step,ih]

theorem linkLeaf_run {next : IxNode κ} (found : s.pages p = some node) (fresh : s.pages q = some new)
    (after : s.pages node.nextLeaf = some next) (apart : p ≠ q) (apartNext : node.nextLeaf ≠ p)
    (freshNext : node.nextLeaf ≠ q) :
    ∃ s', linkLeaf store p q s = (.ok (),s') ∧
      Looks s' s.hdr s.nextPage
        (relink s.links p q node.nextLeaf node.prevLeaf next.nextLeaf) s.body := by
  let s1 := s.put q { new with prevLeaf := p, nextLeaf := node.nextLeaf }
  have still : s1.pages p = some node := (put_other apart).trans found
  have third : (s1.put p { node with nextLeaf := q }).pages node.nextLeaf = some next :=
    (put_other apartNext).trans ((put_other freshNext).trans after)
  have run := bind_ok (f := fun _ => store.unpin node.nextLeaf true >>= fun _ => pure ())
    (edit_run third fun next => { next with prevLeaf := q })
  rw [linkLeaf,bind_ok (read_run found),bind_ok (edit_run fresh _),bind_ok (edit_run still _),
    bind_ok (fetch_run third),run]
  refine ⟨_,rfl,rfl,rfl,?_,?_⟩
  · rw [links_put,links_put,links_put,relink]
  · refine (body_kept third ?_ ?_ ?_).trans
      ((body_kept still ?_ ?_ ?_).trans (body_kept fresh ?_ ?_ ?_)) <;> rfl

theorem moveUpper_run (found : s.pages p = some node) (fresh : s.pages q = some new) (empty : new.pairs = [])
    (apart : p ≠ q) :
    ∃ s', moveUpper store p q s = (.ok (node.size - node.size / 2),s') ∧
      Looks s' s.hdr s.nextPage s.links
        (Function.update (Function.update s.body q
            (some (new.isLeaf,new.parent,node.pairs.drop (node.size / 2))))
          p (some (node.isLeaf,node.parent,node.pairs.take (node.size / 2)))) := by
  have still : (s.put q (new.insertPairs 0 (node.pairs.drop (node.size / 2)))).pages p = some node :=
    (put_other apart).trans found
  rw [moveUpper,bind_ok (read_run found)]
  rw [bind_ok (insertPairs_run fresh (Nat.zero_le _) _),bind_ok (edit_run still _)]
  refine ⟨_,rfl,rfl,rfl,?_,?_⟩
  · refine (links_kept still ?_ ?_).trans (links_kept fresh ?_ ?_) <;> rfl
  · rw [body_put,body_put]
    simp [IxNode.insertPairs,empty]

def grownHdr (hdr : IxFileHdr) : IxFileHdr := { hdr with numPages := hdr.numPages + 1 }

theorem grown_other (old : p ≠ s.nextPage) : s.grown.pages p = s.pages p := put_other old

theorem split_start (found : s.pages p = some node) (old : p ≠ s.nextPage) :
    split store p s =
      (do if node.isLeaf then linkLeaf store p s.nextPage else pure ()
          let num ← moveUpper store p s.nextPage
          maintainChildren store s.nextPage 0 num
          pure (s.nextPage : Int) : Prog (IndexFile κ) RMDBError Int)
        (s.grown.put s.nextPage (splitHdr node .zero)) := by
  have fresh : s.grown.pages s.nextPage = some .zero := put_same
  rw [split,bind_ok createNode_run,bind_ok (read_run ((grown_other old).trans found)),bind_ok (edit_run fresh _)]

theorem started_body : (s.grown.put s.nextPage (splitHdr node .zero)).body =
    Function.update s.body s.nextPage (some (node.isLeaf,node.parent,[])) := by
  rw [body_put,grown_body,update_idem]
  rfl

theorem started_links : (s.grown.put s.nextPage (splitHdr node .zero)).links =
    Function.update s.links s.nextPage (some (0,0)) := by
  rw [links_put,grown_links,update_idem]
  rfl

theorem split_leaf_run {prev after beyond back : Int} (found : s.body p = some (true,parent,pairs))
    (linked : s.links p = some (prev,after)) (next : s.links after = some (back,beyond)) (old : p ≠ s.nextPage)
    (oldNext : after ≠ s.nextPage) (apart : after ≠ p) :
    ∃ s', split store p s = (.ok (s.nextPage : Int),s') ∧
      Looks s' (grownHdr s.hdr) (s.nextPage + 1)
        (relink s.links p s.nextPage after prev beyond)
        (Function.update (Function.update s.body s.nextPage
            (some (true,parent,pairs.drop (pairs.length / 2))))
          p (some (true,parent,pairs.take (pairs.length / 2)))) := by
  obtain ⟨node,there,leaf,rfl,rfl⟩ := body_found found
  obtain ⟨rfl,rfl⟩ : node.prevLeaf = prev ∧ node.nextLeaf = after := by
    simpa [found_links there] using linked
  obtain ⟨neighbor,nextThere,nextLinks⟩ := Option.map_eq_some_iff.mp next
  obtain ⟨rfl,rfl⟩ : neighbor.prevLeaf = back ∧ neighbor.nextLeaf = beyond := by
    simpa using nextLinks
  rw [split_start there old,leaf,if_pos rfl]
  obtain ⟨s1,link,looks1⟩ := linkLeaf_run (s := s.grown.put s.nextPage (splitHdr node .zero))
    ((put_other old).trans ((grown_other old).trans there)) put_same
    ((put_other oldNext).trans ((grown_other oldNext).trans nextThere)) old apart oldNext
  rw [started_body] at looks1
  rw [started_links,relink,update_idem,← relink] at looks1
  have freshBody : s1.body s.nextPage = some (true,node.parent,[]) := by
    rw [looks1.body,update_self,leaf]
  have oldBody : s1.body p = some (true,node.parent,node.pairs) := by
    rw [looks1.body,update_of_ne old,found]
  obtain ⟨new,newThere,newLeaf,newParent,newPairs⟩ := body_found freshBody
  obtain ⟨half,halfThere,halfLeaf,halfParent,halfPairs⟩ := body_found oldBody
  obtain ⟨s2,move,looks2⟩ := moveUpper_run halfThere newThere newPairs old
  rw [looks1.body,looks1.links,newLeaf,newParent,halfLeaf,halfParent,IxNode.size,halfPairs,
    update_idem] at looks2
  have movedBody : s2.body s.nextPage =
      some (true,node.parent,node.pairs.drop (node.pairs.length / 2)) := by
    rw [looks2.body,update_of_ne (Ne.symm old),update_self]
  obtain ⟨moved,movedThere,movedLeaf,_,_⟩ := body_found movedBody
  refine ⟨s2,?_,looks2.hdr.trans looks1.hdr,looks2.nextPage.trans looks1.nextPage,looks2.links,looks2.body⟩
  exact (bind_ok link).trans ((bind_ok move).trans
    (bind_ok (maintainChildren_leaf movedThere movedLeaf _ _)))

theorem split_inner_run (found : s.body p = some (false,parent,pairs)) (old : p ≠ s.nextPage)
    (kids : ∀ pair ∈ pairs.drop (pairs.length / 2),
      (s.body pair.2.pageNo).isSome ∧ pair.2.pageNo ≠ s.nextPage) :
    ∃ s', split store p s = (.ok (s.nextPage : Int),s') ∧
      Looks s' (grownHdr s.hdr) (s.nextPage + 1)
        (Function.update s.links s.nextPage (some (0,0)))
        (reparent s.nextPage ((pairs.drop (pairs.length / 2)).map fun pair => pair.2.pageNo)
          (Function.update (Function.update s.body s.nextPage
            (some (false,parent,pairs.drop (pairs.length / 2))))
          p (some (false,parent,pairs.take (pairs.length / 2))))) := by
  obtain ⟨node,there,inner,rfl,rfl⟩ := body_found found
  rw [split_start there old,inner,if_neg Bool.false_ne_true]
  obtain ⟨s1,move,looks1⟩ := moveUpper_run (s := s.grown.put s.nextPage (splitHdr node .zero))
    ((put_other old).trans ((grown_other old).trans there)) put_same rfl old
  rw [started_body,started_links,inner,update_idem,IxNode.size] at looks1
  have movedBody : s1.body s.nextPage =
      some (false,node.parent,[] ++ node.pairs.drop (node.pairs.length / 2)) := by
    rw [looks1.body,update_of_ne (Ne.symm old),update_self]
    exact congrArg (fun leaf => some (leaf,node.parent,_)) inner
  have present : ∀ pair ∈ node.pairs.drop (node.pairs.length / 2),
      (s1.body pair.2.pageNo).isSome ∧ pair.2.pageNo ≠ s.nextPage := by
    intro pair member
    obtain ⟨some,apart⟩ := kids pair member
    refine ⟨?_,apart⟩
    rw [looks1.body]
    by_cases same : pair.2.pageNo = p
    · simp [same]
    · rw [update_of_ne same,update_of_ne apart]
      exact some
  obtain ⟨s2,adopt,looks2⟩ := maintainChildren_run movedBody present
  rw [looks1.body,looks1.links] at looks2
  rw [List.length_drop] at adopt
  refine ⟨s2,?_,looks2.hdr.trans looks1.hdr,looks2.nextPage.trans looks1.nextPage,looks2.links,?_⟩
  · exact (bind_ok move).trans (bind_ok adopt)
  · rw [looks2.body]
    simp only [splitHdr,inner]

theorem growRoot_run {old new upOld upNew : Int} {leafOld leafNew : Bool} {first : κ × Rid} {rest : List (κ × Rid)}
    (oldFound : s.body old = some (leafOld,upOld,first :: rest)) (newFound : s.body new = some (leafNew,upNew,pairs))
    (apart : old ≠ new) (oldPage : old ≠ s.nextPage) (newPage : new ≠ s.nextPage) (key : κ) :
    ∃ s', growRoot store old key new s = (.ok (),s') ∧
      Looks s' { grownHdr s.hdr with rootPage := s.nextPage } (s.nextPage + 1)
        (Function.update s.links s.nextPage (some (0,0)))
        (Function.update (Function.update (Function.update s.body s.nextPage
          (some (false,invalidPageId,[(first.1,⟨old,-1⟩),(key,⟨new,-1⟩)])))
          new (some (leafNew,(s.nextPage : Int),pairs)))
          old (some (leafOld,(s.nextPage : Int),first :: rest))) := by
  obtain ⟨oldNode,oldThere,rfl,rfl,oldPairs⟩ := body_found oldFound
  obtain ⟨newNode,newThere,rfl,rfl,rfl⟩ := body_found newFound
  -- the root as its header is set, then with its two pairs
  let root : IxNode κ := ⟨ixNoPage,invalidPageId,false,0,0,[]⟩
  let root1 := root.insertPairs 0 [(first.1,⟨old,-1⟩)]
  let root2 := root1.insertPairs 1 [(key,⟨new,-1⟩)]
  let s1 := s.grown.put s.nextPage root
  let s2 := s1.put s.nextPage root1
  let s3 := { s2.put s.nextPage root2 with hdr := { s2.hdr with rootPage := s.nextPage } }
  have fresh : s.grown.pages s.nextPage = some .zero := put_same
  have old1 : s1.pages old = some oldNode :=
    (put_other oldPage).trans ((grown_other oldPage).trans oldThere)
  have firstPair : oldNode.pairs[0]? = some first := by rw [oldPairs]; rfl
  have new3 : s3.pages new = some newNode := (put_other newPage).trans
    ((put_other newPage).trans ((put_other newPage).trans ((grown_other newPage).trans newThere)))
  have old4 : (s3.put new { newNode with parent := s.nextPage }).pages old = some oldNode :=
    (put_other apart).trans ((put_other oldPage).trans ((put_other oldPage).trans old1))
  refine ⟨(s3.put new { newNode with parent := s.nextPage }).put old { oldNode with parent := s.nextPage },
    ?_,rfl,rfl,?_,?_⟩
  · rw [growRoot,bind_ok createNode_run,bind_ok (edit_run fresh _)]
    exact (bind_ok (pairAt_run old1 firstPair)).trans
      ((bind_ok (insertPairs_run put_same (Nat.zero_le _) _)).trans
      ((bind_ok (insertPairs_run put_same (Nat.le_refl 1) _)).trans
      ((bind_ok (setHdr_run _)).trans ((bind_ok (edit_run new3 _)).trans (edit_run old4 _)))))
  · have rooted : s3.links = Function.update s.links s.nextPage (some (0,0)) := by
      refine links_put.trans ?_
      rw [links_put,links_put,grown_links,update_idem,update_idem,update_idem]
      rfl
    exact (links_kept old4 (by rfl) (by rfl)).trans ((links_kept new3 (by rfl) (by rfl)).trans rooted)
  · have rooted : s3.body = Function.update s.body s.nextPage
        (some (false,invalidPageId,[(first.1,⟨old,-1⟩),(key,⟨new,-1⟩)])) := by
      refine body_put.trans ?_
      rw [body_put,body_put,grown_body,update_idem,update_idem,update_idem]
      rfl
    rw [body_put,body_put,rooted,oldPairs]

theorem erasePair_run (found : s.pages p = some node) {pos : Nat} (inside : pos < node.size) :
    erasePair store p pos s = (.ok (),s.put p (node.erasePair pos)) := by
  rw [erasePair,bind_ok (read_run found)]
  simp [bind_run,check,inside]

theorem maintainChild_leaf (found : s.pages p = some node) (leaf : node.isLeaf = true) (i : Nat) :
    maintainChild store p i s = (.ok (),s) := by
  rw [maintainChild,bind_ok (read_run found),leaf,if_pos rfl]
  rfl

theorem eraseLeaf_run {prev next : IxNode κ} (found : s.pages p = some node) (leaf : node.isLeaf = true)
    (before : s.pages node.prevLeaf = some prev) (after : s.pages node.nextLeaf = some next)
    (apart : p ≠ node.prevLeaf) (ends : node.nextLeaf ≠ node.prevLeaf) :
    ∃ s', eraseLeaf store p s = (.ok (),s') ∧
      Looks s' s.hdr s.nextPage (unlink s.links node.prevLeaf node.nextLeaf prev.prevLeaf next.nextLeaf) s.body := by
  have still : (s.put node.prevLeaf { prev with nextLeaf := node.nextLeaf }).pages p = some node :=
    (put_other apart).trans found
  have stillNext : (s.put node.prevLeaf { prev with nextLeaf := node.nextLeaf }).pages node.nextLeaf = some next :=
    (put_other ends).trans after
  rw [eraseLeaf,bind_ok (read_run found),bind_ok (check_run leaf _ s),bind_ok (fetch_run before),
    bind_ok (edit_run before _),bind_ok (unpin_run true),
    bind_ok (read_run still),bind_ok (fetch_run stillNext),bind_ok (edit_run stillNext _)]
  refine ⟨_,rfl,rfl,rfl,?_,?_⟩
  · rw [links_put,links_put,unlink]
  · refine (body_kept stillNext ?_ ?_ ?_).trans (body_kept before ?_ ?_ ?_) <;> rfl

/-- The header once a page is given back that may have been the last leaf. -/
def mergedHdr (left right : Int) (hdr : IxFileHdr) : IxFileHdr :=
  { (if right = hdr.lastLeaf then { hdr with lastLeaf := left } else hdr) with numPages := hdr.numPages - 1 }

theorem mergedHdr_parts (left right : Int) (hdr : IxFileHdr) :
    (mergedHdr left right hdr).rootPage = hdr.rootPage ∧ (mergedHdr left right hdr).btreeOrder = hdr.btreeOrder ∧
      (mergedHdr left right hdr).firstLeaf = hdr.firstLeaf ∧
      (mergedHdr left right hdr).lastLeaf = if right = hdr.lastLeaf then left else hdr.lastLeaf := by
  rw [mergedHdr]
  split <;> exact ⟨rfl,rfl,rfl,rfl⟩

theorem merge_run {left right up after prev beyond : Int} {lower upper : List (κ × Rid)} {index : Nat}
    (leftFound : s.body left = some (true,parent,lower)) (rightFound : s.body right = some (true,parent,upper))
    (parentFound : s.body parent = some (false,up,pairs)) (inside : index < pairs.length)
    (leftLinks : s.links left = some (prev,right)) (rightLinks : s.links right = some (left,after))
    (afterLinks : s.links after = some (right,beyond)) (apart : right ≠ left) (ends : after ≠ left) :
    ∃ s', merge store left right parent index s = (.ok (),s') ∧
      Looks s' (mergedHdr left right s.hdr) s.nextPage (unlink s.links left after prev beyond)
        (Function.update (Function.update s.body left (some (true,parent,lower ++ upper)))
          parent (some (false,up,pairs.eraseIdx index))) := by
  obtain ⟨leftNode,leftThere,leftLeaf,leftParent,leftPairs⟩ := body_found leftFound
  obtain ⟨rightNode,rightThere,rightLeaf,_,rightPairs⟩ := body_found rightFound
  obtain ⟨afterNode,afterThere,afterParts⟩ := Option.map_eq_some_iff.mp afterLinks
  have leftPrev : leftNode.prevLeaf = prev ∧ leftNode.nextLeaf = right := by
    simpa [found_links leftThere] using leftLinks
  have around : rightNode.prevLeaf = left ∧ rightNode.nextLeaf = after := by
    simpa [found_links rightThere] using rightLinks
  have inner : parent ≠ left := by
    rintro rfl
    rw [leftFound] at parentFound
    cases parentFound
  -- the pairs move, then the header, the leaf list and the parent follow
  obtain ⟨joined,join⟩ : ∃ joined, joined = leftNode.insertPairs leftNode.size rightNode.pairs := ⟨_,rfl⟩
  have joinedBody : (joined.isLeaf,joined.parent,joined.pairs) = (true,parent,lower ++ upper) := by
    rw [join,← leftLeaf,← leftParent,← leftPairs,← rightPairs]
    simp [IxNode.insertPairs,IxNode.size]
  have joinedLinks : joined.prevLeaf = prev ∧ joined.nextLeaf = right := by rw [join]; exact leftPrev
  have joinedLeaf : joined.isLeaf = true := congrArg Prod.fst joinedBody
  obtain ⟨s2,moved⟩ : ∃ s2 : IndexFile κ, s2 = { s.put left joined with
    hdr := if right = s.hdr.lastLeaf then { s.hdr with lastLeaf := left } else s.hdr } := ⟨_,rfl⟩
  have leftNow : s2.pages rightNode.prevLeaf = some joined := by rw [around.1,moved]; exact put_same
  have rightNow : s2.pages right = some rightNode := by rw [moved]; exact (put_other apart).trans rightThere
  have afterNow : s2.pages rightNode.nextLeaf = some afterNode := by
    rw [around.2,moved]
    exact (put_other ends).trans afterThere
  have body : s2.body = Function.update s.body left (some (true,parent,lower ++ upper)) := by
    rw [moved,← joinedBody]
    exact body_put
  have links : s2.links = s.links := by
    rw [moved]
    exact links_kept leftThere (joinedLinks.1.trans leftPrev.1.symm) (joinedLinks.2.trans leftPrev.2.symm)
  obtain ⟨s3,erased,looks⟩ := eraseLeaf_run rightNow rightLeaf leftNow afterNow (around.1 ▸ apart)
    (by rw [around.1,around.2]; exact ends)
  have parentNow : ({ s3 with hdr := { s3.hdr with numPages := s3.hdr.numPages - 1 } } : IndexFile κ).body parent =
      some (false,up,pairs) := by
    change s3.body parent = _
    rw [looks.body,body,update_of_ne inner,parentFound]
  obtain ⟨parentNode,parentThere,parentInner,parentUp,parentPairs⟩ := body_found parentNow
  have erase := erasePair_run parentThere (by rw [IxNode.size,parentPairs]; exact inside)
  have start : merge store left right parent index s =
      (do eraseLeaf store right
          releaseNodeHandle store
          erasePair store parent index : Prog (IndexFile κ) RMDBError Unit) s2 := by
    rw [merge,bind_ok (read_run leftThere),bind_ok (read_run rightThere),
      bind_ok (insertPairs_run leftThere (Nat.le_refl _) _),← join,
      bind_ok (maintainChildren_leaf put_same joinedLeaf _ _),bind_ok (setHdr_run _),moved]
    rfl
  refine ⟨_,start.trans ((bind_ok erased).trans ((bind_ok (setHdr_run _)).trans erase)),?_,?_,?_,?_⟩
  · change { s3.hdr with numPages := s3.hdr.numPages - 1 } = mergedHdr left right s.hdr
    rw [looks.hdr,moved,mergedHdr]
    split <;> rfl
  · change s3.nextPage = s.nextPage
    rw [looks.nextPage,moved]
    rfl
  · refine (links_kept parentThere (by rfl) (by rfl)).trans ?_
    change s3.links = _
    rw [looks.links,links,around.1,around.2,joinedLinks.1,← (Prod.mk.inj afterParts).2]
  · rw [body_put]
    change Function.update s3.body parent _ = _
    rw [looks.body,body,IxNode.erasePair,parentInner,parentUp,parentPairs]

end Operations

end IndexFile

end Rucbase
