import Rucbase.IndexFile
import Rucbase.Lib.BTreeOrder

/-! Index pages as a tree: which tree the bodies of the pages hold, and what inserting a node
into its parent makes of it. -/
namespace Rucbase

open Lib Lib.BTree

abbrev IxTree (κ : Type) (h : Nat) : Type := Tree Int κ Rid h
abbrev IxPath (κ : Type) (h : Nat) : Type := BTree.Path Int κ Rid h
abbrev IxRoot (κ : Type) : Type := Root Int κ Rid

namespace IndexTree

open IndexFile (reparent)

variable {κ : Type} {h : Nat} {b b' : Int → Option (Body κ)}

/-- The pairs of an inner node. -/
def pointers (items : List (κ × IxTree κ h)) : List (κ × Rid) :=
  items.map fun kid => (kid.1,⟨kid.2.page,-1⟩)

def nodePairs : (h : Nat) → IxTree κ h → List (κ × Rid)
  | 0, t => t.items
  | _ + 1, t => pointers t.items

/-- The pages hold the tree, its root pointing to the page `parent`. -/
def Holds (b : Int → Option (Body κ)) : (h : Nat) → Int → IxTree κ h → Prop
  | 0, parent, t => b t.page = some (true,parent,t.items)
  | h + 1, parent, t => b t.page = some (false,parent,pointers t.items) ∧
      ∀ kid ∈ (t.items : List (κ × IxTree κ h)), Holds b h t.page kid.2

def above : {h : Nat} → IxPath κ h → Int
  | _, .top => invalidPageId
  | _, .up page _ _ _ _ => page

/-- The root page, if the hole is filled with the page `c`. -/
def rootOf : {h : Nat} → IxPath κ h → Int → Int
  | _, .top, c => c
  | _, .up page _ _ _ rest, _ => rootOf rest page

/-- The pages hold the tree around the hole, which is filled with the page `c`. -/
def PathHolds (b : Int → Option (Body κ)) : {h : Nat} → IxPath κ h → Int → Prop
  | _, .top, _ => True
  | h, .up page before key after rest, c =>
    b page = some (false,above rest,pointers before ++ (key,⟨c,-1⟩) :: pointers after) ∧
      (∀ kid ∈ before ++ after, Holds b h page kid.2) ∧ PathHolds b rest page

theorem holds_body {parent : Int} {t : IxTree κ h} (holds : Holds b h parent t) :
    b t.page = some (decide (h = 0),parent,nodePairs h t) := by
  cases h with
  | zero => exact holds
  | succ h => exact holds.1

theorem Holds.congr {parent : Int} {t : IxTree κ h} (holds : Holds b h parent t) (same : ∀ p ∈ pages h t, b' p = b p) :
    Holds b' h parent t := by
  induction h generalizing parent with
  | zero => exact (same _ (page_mem t)).trans holds
  | succ h ih =>
    refine ⟨(same _ (page_mem t)).trans holds.1,fun kid member => ?_⟩
    exact ih (holds.2 kid member) fun p inside => same p (pages_of_kid member p inside)

theorem Holds.rehang {parent q : Int} {t : IxTree κ h} (holds : Holds b h parent t) (distinct : (pages h t).Nodup)
    (root : b' t.page = (b t.page).map fun old => (old.1,q,old.2.2)) (same : ∀ p ∈ pages h t, p ≠ t.page → b' p = b p) :
    Holds b' h q t := by
  rw [holds_body holds] at root
  cases h with
  | zero => exact root
  | succ h =>
    refine ⟨root,fun kid member => (holds.2 kid member).congr fun p inside => ?_⟩
    apply same p (pages_of_kid member p inside)
    rintro rfl
    exact (List.nodup_cons.mp distinct).1 (List.mem_flatMap.mpr ⟨kid,member,inside⟩)

theorem PathHolds.congr {path : IxPath κ h} {c : Int} (holds : PathHolds b path c)
    (same : ∀ p ∈ path.around, b' p = b p) : PathHolds b' path c := by
  induction path generalizing c with
  | top => trivial
  | up page before key after rest ih =>
    obtain ⟨node,siblings,upper⟩ := holds
    refine ⟨(same _ List.mem_cons_self).trans node,fun kid member => ?_,
      ih upper fun p inside => same p ?_⟩
    · refine (siblings kid member).congr fun p inside => same p (List.mem_cons_of_mem _ ?_)
      exact List.mem_append_left _ (List.mem_flatMap.mpr ⟨kid,member,inside⟩)
    · exact List.mem_cons_of_mem _ (List.mem_append_right _ inside)

theorem pointers_append (l r : List (κ × IxTree κ h)) : pointers (l ++ r) = pointers l ++ pointers r :=
  List.map_append ..

theorem holds_plug (path : IxPath κ h) (t : IxTree κ h) :
    Holds b (plug path t).height invalidPageId (plug path t).tree ↔
      PathHolds b path t.page ∧ Holds b h (above path) t := by
  induction path with
  | top => exact ⟨fun holds => ⟨trivial,holds⟩,fun both => both.2⟩
  | up page before key after rest ih =>
    refine (ih _).trans ?_
    simp only [Holds,PathHolds,above,List.forall_mem_append,List.forall_mem_cons,pointers,List.map_append,
      List.map_cons]
    tauto

theorem plug_page (path : IxPath κ h) (t : IxTree κ h) :
    (plug path t).tree.page = rootOf path t.page := by
  induction path with
  | top => rfl
  | up page before key after rest ih => exact ih _

theorem holds_leaves {parent : Int} {t : IxTree κ h} (holds : Holds b h parent t) :
    ∀ leaf ∈ collect (fun leaf => [leaf]) h t, ∃ up, b leaf.page = some (true,up,leaf.items) := by
  induction h generalizing parent with
  | zero => exact List.forall_mem_singleton.mpr ⟨parent,holds⟩
  | succ h ih =>
    intro leaf member
    obtain ⟨kid,among,inside⟩ := List.mem_flatMap.mp member
    exact ih (holds.2 kid among) leaf inside

theorem mem_pointers {items : List (κ × IxTree κ h)} {pair : κ × Rid} (member : pair ∈ pointers items) :
    ∃ kid ∈ items, pair.2.pageNo = kid.2.page := by
  obtain ⟨kid,among,rfl⟩ := List.mem_map.mp member
  exact ⟨kid,among,rfl⟩

section Split

variable {parent page fresh : Int} {items : List (κ × IxTree κ h)} (n : Nat)

/-- The bodies once the kids from position `n` on hang under the page `fresh`. -/
def splitBody (b : Int → Option (Body κ)) (fresh parent page : Int) (items : List (κ × IxTree κ h)) :
    Int → Option (Body κ) :=
  reparent fresh ((items.drop n).map fun kid => kid.2.page)
    (Function.update (Function.update b fresh (some (false,parent,pointers (items.drop n))))
      page (some (false,parent,pointers (items.take n))))

variable {n}

theorem splitBody_other {p : Int} (apart : p ≠ page) (old : p ≠ fresh)
    (stays : p ∉ (items.drop n).map fun kid => kid.2.page) :
    splitBody n b fresh parent page items p = b p := by
  rw [splitBody,IndexFile.reparent_other stays,Function.update_of_ne apart,Function.update_of_ne old]

theorem splitBody_outside {p : Int} (outside : p ∉ pages (h + 1) (⟨page,items⟩ : IxTree κ (h + 1)))
    (apart : p ≠ fresh) :
    splitBody n b fresh parent page items p = b p := by
  apply splitBody_other (ne_of_mem_of_not_mem (page_mem _) outside).symm apart
  intro moved
  obtain ⟨kid,member,rfl⟩ := List.mem_map.mp moved
  exact outside (pages_of_kid (List.mem_of_mem_drop member) _ (page_mem kid.2))

variable (holds : Holds b (h + 1) parent ⟨page,items⟩)
  (distinct : (pages (h + 1) (⟨page,items⟩ : IxTree κ (h + 1))).Nodup)
  (old : ∀ p ∈ pages (h + 1) (⟨page,items⟩ : IxTree κ (h + 1)), p ≠ fresh)

include distinct in
theorem page_not_moved : page ∉ (items.drop n).map fun kid => kid.2.page := by
  intro member
  obtain ⟨kid,among,same⟩ := List.mem_map.mp member
  apply (List.nodup_cons.mp distinct).1
  exact List.mem_flatMap.mpr ⟨kid,List.mem_of_mem_drop among,same ▸ page_mem kid.2⟩

include holds distinct old

theorem splitBody_lower :
    Holds (splitBody n b fresh parent page items) (h + 1) parent ⟨page,items.take n⟩ := by
  obtain ⟨outside,inner⟩ := List.nodup_cons.mp distinct
  refine ⟨?_,fun kid among => (holds.2 kid (List.mem_of_mem_take among)).congr fun p inside => ?_⟩
  · rw [splitBody,IndexFile.reparent_other (page_not_moved distinct),Function.update_self]
  · have member : p ∈ items.flatMap fun kid => pages h kid.2 :=
      List.mem_flatMap.mpr ⟨kid,List.mem_of_mem_take among,inside⟩
    apply splitBody_other (ne_of_mem_of_not_mem member outside) (old p (List.mem_cons_of_mem _ member))
    intro moved
    obtain ⟨other,otherAmong,rfl⟩ := List.mem_map.mp moved
    -- a kid of the lower half and one of the upper half have no page in common
    rw [← List.take_append_drop n items,List.flatMap_append] at inner
    exact List.disjoint_of_nodup_append inner (List.mem_flatMap.mpr ⟨kid,among,inside⟩)
      (List.mem_flatMap.mpr ⟨other,otherAmong,page_mem other.2⟩)

theorem splitBody_upper :
    Holds (splitBody n b fresh parent page items) (h + 1) parent ⟨fresh,items.drop n⟩ := by
  obtain ⟨outside,inner⟩ := List.nodup_cons.mp distinct
  have among {kid : κ × IxTree κ h} (member : kid ∈ items.drop n) {p : Int}
      (inside : p ∈ pages h kid.2) : p ∈ items.flatMap fun kid => pages h kid.2 :=
    List.mem_flatMap.mpr ⟨kid,List.mem_of_mem_drop member,inside⟩
  have freshStays : fresh ∉ (items.drop n).map fun kid => kid.2.page := by
    intro moved
    obtain ⟨kid,member,same⟩ := List.mem_map.mp moved
    exact old _ (List.mem_cons_of_mem _ (among member (page_mem kid.2))) same
  refine ⟨?_,fun kid member => ?_⟩
  · rw [splitBody,IndexFile.reparent_other freshStays,
      Function.update_of_ne (old page (page_mem _)).symm,Function.update_self]
  · have own := List.mem_of_mem_drop member
    apply (holds.2 kid own).rehang ((List.nodup_flatMap.mp inner).1 kid own)
    · have inside := among member (page_mem kid.2)
      rw [splitBody,IndexFile.reparent_mem (List.mem_map.mpr ⟨kid,member,rfl⟩),
        Function.update_of_ne (ne_of_mem_of_not_mem inside outside),
        Function.update_of_ne (old _ (List.mem_cons_of_mem _ inside))]
    · intro p inside apart
      have inItems := among member inside
      apply splitBody_other (ne_of_mem_of_not_mem inItems outside) (old p (List.mem_cons_of_mem _ inItems))
      intro moved
      obtain ⟨other,otherMember,rfl⟩ := List.mem_map.mp moved
      exact apart (congrArg (fun kid => kid.2.page)
        (kid_unique inner (List.mem_of_mem_drop otherMember) own (page_mem other.2) inside))

end Split

end IndexTree

end Rucbase
