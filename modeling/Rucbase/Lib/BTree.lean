import Mathlib.Data.List.Basic
import Mathlib.Data.List.Flatten
import Mathlib.Data.List.Perm.Basic
import Mathlib.Data.List.Nodup
import Mathlib.Data.List.Pairwise
import Mathlib.Order.Defs.LinearOrder
import Mathlib.Order.Lattice

/-! B+ trees whose nodes live on pages. The height is in the type, so all leaves of a tree
are at one depth. A path is a tree with a hole; a node of the tree is a hole's filling, and
inserting a node beside the hole (`graft`) splits the nodes on the path that become full. -/
namespace Rucbase.Lib.BTree

/-- A node: its page and its labelled kids, in order. -/
structure Bundle (ι κ α : Type) where
  page : ι
  items : List (κ × α)

/-- What the items of a node at height `h` carry: the values at the leaves, else subtrees. -/
@[reducible] def Kid (ι κ ρ : Type) : Nat → Type
  | 0 => ρ
  | h + 1 => Bundle ι κ (Kid ι κ ρ h)

abbrev Tree (ι κ ρ : Type) (h : Nat) : Type := Bundle ι κ (Kid ι κ ρ h)

structure Root (ι κ ρ : Type) where
  height : Nat
  tree : Tree ι κ ρ height

/-- The surroundings of a node at height `h`: the pages above it with the siblings on both
sides, from the parent up to the root. -/
inductive Path (ι κ ρ : Type) : Nat → Type where
  | top {h : Nat} : Path ι κ ρ h
  | up {h : Nat} (page : ι) (before : List (κ × Tree ι κ ρ h)) (key : κ)
      (after : List (κ × Tree ι κ ρ h)) (rest : Path ι κ ρ (h + 1)) : Path ι κ ρ h

variable {ι κ ρ β : Type} {h : Nat}

def plug : {h : Nat} → Path ι κ ρ h → Tree ι κ ρ h → Root ι κ ρ
  | h, .top, t => ⟨h,t⟩
  | _, .up page before key after rest, t => plug rest ⟨page,before ++ (key,t) :: after⟩

def firstKey (t : Bundle ι κ β) : Option κ := t.items.head?.map Prod.fst

/-- The leaves' contributions from left to right. -/
def collect (leaf : Tree ι κ ρ 0 → List β) : (h : Nat) → Tree ι κ ρ h → List β
  | 0, t => leaf t
  | h + 1, t => List.flatMap (fun kid : κ × Tree ι κ ρ h => collect leaf h kid.2) t.items

def entries (t : Tree ι κ ρ h) : List (κ × ρ) := collect (fun leaf => leaf.items) h t

def leaves (t : Tree ι κ ρ h) : List ι := collect (fun leaf => [leaf.page]) h t

def pages : (h : Nat) → Tree ι κ ρ h → List ι
  | 0, t => [t.page]
  | h + 1, t => t.page :: List.flatMap (fun kid : κ × Tree ι κ ρ h => pages h kid.2) t.items

def Root.collect (leaf : Tree ι κ ρ 0 → List β) (r : Root ι κ ρ) : List β :=
  BTree.collect leaf r.height r.tree

def Root.pages (r : Root ι κ ρ) : List ι := BTree.pages r.height r.tree

namespace Path

def collectLeft (leaf : Tree ι κ ρ 0 → List β) : {h : Nat} → Path ι κ ρ h → List β
  | _, .top => []
  | h, .up _ before _ _ rest =>
    rest.collectLeft leaf ++ before.flatMap fun kid => collect leaf h kid.2

def collectRight (leaf : Tree ι κ ρ 0 → List β) : {h : Nat} → Path ι κ ρ h → List β
  | _, .top => []
  | h, .up _ _ _ after rest =>
    (after.flatMap fun kid => collect leaf h kid.2) ++ rest.collectRight leaf

/-- The pages of a tree around its hole. -/
def around : {h : Nat} → Path ι κ ρ h → List ι
  | _, .top => []
  | h, .up page before _ after rest =>
    page :: ((before ++ after).flatMap fun kid => pages h kid.2) ++ rest.around

def depth : {h : Nat} → Path ι κ ρ h → Nat
  | _, .top => 0
  | _, .up _ _ _ _ rest => rest.depth + 1

/-- The hole is on the leftmost branch. -/
def leftmost : {h : Nat} → Path ι κ ρ h → Bool
  | _, .top => true
  | _, .up _ before _ _ rest => rest.leftmost && before.isEmpty

def label : {h : Nat} → Path ι κ ρ h → Option κ
  | _, .top => none
  | _, .up _ _ key _ _ => some key

end Path

theorem page_mem (t : Tree ι κ ρ h) : t.page ∈ pages h t := by
  cases h with
  | zero => exact List.mem_singleton_self _
  | succ h => exact List.mem_cons_self

variable {kid : κ × Tree ι κ ρ h} {page : ι} {before after : List (κ × Tree ι κ ρ h)} {key k : κ}
  {rest : Path ι κ ρ (h + 1)}

theorem pages_of_kid {t : Tree ι κ ρ (h + 1)} (member : kid ∈ t.items) :
    ∀ p ∈ pages h kid.2, p ∈ pages (h + 1) t :=
  fun _ inside => List.mem_cons_of_mem _ (List.mem_flatMap.mpr ⟨kid,member,inside⟩)

theorem kid_unique {items : List (κ × Tree ι κ ρ h)} (distinct : (items.flatMap fun kid => pages h kid.2).Nodup)
    {other : κ × Tree ι κ ρ h} (among : kid ∈ items) (otherAmong : other ∈ items) {p : ι} (inside : p ∈ pages h kid.2)
    (otherInside : p ∈ pages h other.2) : kid = other := by
  by_contra apart
  have symmetric : Std.Symm (Function.onFun List.Disjoint fun kid : κ × Tree ι κ ρ h => pages h kid.2) :=
    ⟨fun _ _ => List.disjoint_symm⟩
  exact (List.nodup_flatMap.mp distinct).2.forall among otherAmong apart inside otherInside

theorem leaves_sublist (t : Tree ι κ ρ h) : (leaves t).Sublist (pages h t) := by
  induction h with
  | zero => exact .refl _
  | succ h ih =>
    obtain ⟨page,items⟩ := t
    refine .cons page ?_
    induction items with
    | nil => exact .slnil
    | cons kid items rest => exact (ih kid.2).append rest

theorem collect_leaves (leaf : Tree ι κ ρ 0 → List β) (t : Tree ι κ ρ h) :
    collect leaf h t = (collect (fun t => [t]) h t).flatMap leaf := by
  induction h with
  | zero => simp [collect]
  | succ h ih => simp [collect,List.flatMap_assoc,ih]

theorem plug_collect (leaf : Tree ι κ ρ 0 → List β) (path : Path ι κ ρ h) (t : Tree ι κ ρ h) :
    (plug path t).collect leaf =
      path.collectLeft leaf ++ collect leaf h t ++ path.collectRight leaf := by
  induction path with
  | top => simp [plug,Root.collect,Path.collectLeft,Path.collectRight]
  | up page before key after rest ih =>
    simp [plug,ih,collect,Path.collectLeft,Path.collectRight]

theorem collect_map {γ : Type} (g : β → γ) (leaf : Tree ι κ ρ 0 → List β) (t : Tree ι κ ρ h) :
    (collect leaf h t).map g = collect (fun t => (leaf t).map g) h t := by
  induction h with
  | zero => rfl
  | succ h ih => simp [collect,List.map_flatMap,ih]

theorem Path.collectLeft_map {γ : Type} (g : β → γ) (leaf : Tree ι κ ρ 0 → List β) (path : Path ι κ ρ h) :
    (path.collectLeft leaf).map g = path.collectLeft fun t => (leaf t).map g := by
  induction path with
  | top => rfl
  | up page before key after rest ih => simp [Path.collectLeft,List.map_flatMap,collect_map,ih]

theorem Path.collectRight_leaves (leaf : Tree ι κ ρ 0 → List β) (path : Path ι κ ρ h) :
    path.collectRight leaf = (path.collectRight fun t => [t]).flatMap leaf := by
  induction path with
  | top => rfl
  | up page before key after rest ih =>
    simp only [Path.collectRight,ih,List.flatMap_append,List.flatMap_assoc]
    congr 1
    exact List.flatMap_congr fun kid _ => collect_leaves leaf kid.2

theorem plug_pages (path : Path ι κ ρ h) (t : Tree ι κ ρ h) :
    (plug path t).pages.Perm (path.around ++ pages h t) := by
  classical
  induction path with
  | top => simp [plug,Root.pages,Path.around]
  | up page before key after rest ih =>
    refine (ih _).trans (List.perm_iff_count.mpr fun p => ?_)
    simp only [pages,Path.around,List.flatMap_append,List.flatMap_cons,List.count_append,List.cons_append,
      List.count_cons]
    omega

theorem plug_height (path : Path ι κ ρ h) (t : Tree ι κ ρ h) :
    (plug path t).height = h + path.depth := by
  induction path with
  | top => rfl
  | up page before key after rest ih => simp [plug,ih,Path.depth]; omega

/-! The shape of the nodes below the root. A kid's label is its first key, except on the
leftmost branch, where keys smaller than the label may have been inserted since. -/
section Shape

variable {α : Type}

/-- `P` of all elements, with the flag for the first one. -/
def FirstRest (P : Bool → α → Prop) (flag : Bool) : List α → Prop
  | [] => True
  | a :: rest => P flag a ∧ ∀ b ∈ rest, P false b

theorem firstRest_false {P : Bool → α → Prop} {l : List α} :
    FirstRest P false l ↔ ∀ a ∈ l, P false a := by
  cases l <;> simp [FirstRest]

theorem firstRest_append {P : Bool → α → Prop} {flag : Bool} {xs ys : List α} :
    FirstRest P flag (xs ++ ys) ↔
      FirstRest P flag xs ∧ FirstRest P (flag && xs.isEmpty) ys := by
  cases xs with
  | nil => simp [FirstRest]
  | cons x xs =>
    rw [List.isEmpty_cons,Bool.and_false,firstRest_false]
    simp [FirstRest,or_imp,forall_and,and_assoc]

variable (lo hi : Nat)

/-- The label and the occupancy of every node below the root of `t`. -/
def Below : (h : Nat) → Bool → Tree ι κ ρ h → Prop
  | 0, _, _ => True
  | h + 1, left, t =>
    FirstRest (fun left (kid : κ × Tree ι κ ρ h) =>
      (left = false → firstKey kid.2 = some kid.1) ∧ lo ≤ kid.2.items.length ∧
        kid.2.items.length ≤ hi ∧ Below h left kid.2) left t.items

def Sound (left : Bool) (kid : κ × Tree ι κ ρ h) : Prop :=
  (left = false → firstKey kid.2 = some kid.1) ∧ lo ≤ kid.2.items.length ∧
    kid.2.items.length ≤ hi ∧ Below lo hi h left kid.2

namespace Path

/-- The smallest occupancy of the node in the hole. -/
def least : {h : Nat} → Path ι κ ρ h → Nat
  | h, .top => if h = 0 then 0 else 2
  | _, .up _ _ _ _ _ => lo

/-- The node fits the hole, with at least `m` items. -/
def Fits (m : Nat) (path : Path ι κ ρ h) (t : Tree ι κ ρ h) : Prop :=
  (path.leftmost = false → firstKey t = path.label) ∧ m ≤ t.items.length ∧
    t.items.length ≤ hi ∧ Below lo hi h path.leftmost t

def Sound : {h : Nat} → Path ι κ ρ h → Prop
  | _, .top => True
  | _, .up _ before key after rest =>
    FirstRest (BTree.Sound lo hi) rest.leftmost before ∧
      (∀ kid ∈ after, BTree.Sound lo hi false kid) ∧
      (rest.leftmost = false → (before.map Prod.fst ++ [key]).head? = rest.label) ∧
      rest.least lo ≤ before.length + after.length + 1 ∧ before.length + after.length + 1 ≤ hi ∧
      rest.Sound

end Path

def Root.Sound (r : Root ι κ ρ) : Prop :=
  Path.Fits lo hi (Path.least lo (.top : Path ι κ ρ r.height)) .top r.tree

variable {lo hi}

theorem below_succ {left : Bool} {t : Tree ι κ ρ (h + 1)} :
    Below lo hi (h + 1) left t ↔ FirstRest (Sound lo hi (h := h)) left t.items := Iff.rfl

theorem firstKey_around (page : ι) (before : List (κ × β)) (key : κ) (b : β) (after : List (κ × β)) :
    firstKey ⟨page,before ++ (key,b) :: after⟩ = (before.map Prod.fst ++ [key]).head? := by
  cases before <;> rfl

theorem fits_up
    {t : Tree ι κ ρ h} :
    (Path.up page before key after rest).Fits lo hi lo t ↔
      Sound lo hi (rest.leftmost && before.isEmpty) (key,t) := Iff.rfl

theorem plug_sound (path : Path ι κ ρ h) (t : Tree ι κ ρ h) :
    (plug path t).Sound lo hi ↔ path.Sound lo hi ∧ path.Fits lo hi (path.least lo) t := by
  induction path with
  | top => exact ⟨fun sound => ⟨trivial,sound⟩,fun both => both.2⟩
  | up page before key after rest ih =>
    have size : (before ++ (key,t) :: after).length = before.length + after.length + 1 := by
      simp; omega
    simp only [plug,ih,Path.Sound,Path.Fits,below_succ,firstRest_append,firstKey_around,size]
    simp only [FirstRest,Path.least,Path.leftmost,Path.label,Sound]
    tauto

end Shape

/-! A property of every key of a tree, labels included. -/
section Keys

variable (P : κ → Prop)

def AllKeys : (h : Nat) → Tree ι κ ρ h → Prop
  | 0, t => ∀ e ∈ t.items, P e.1
  | h + 1, t => ∀ kid ∈ (t.items : List (κ × Tree ι κ ρ h)), P kid.1 ∧ AllKeys h kid.2

def Path.AllKeys : {h : Nat} → Path ι κ ρ h → Prop
  | _, .top => True
  | h, .up _ before key after rest =>
    (∀ kid ∈ before ++ after, P kid.1 ∧ BTree.AllKeys P h kid.2) ∧ P key ∧ rest.AllKeys

def Root.AllKeys (r : Root ι κ ρ) : Prop := BTree.AllKeys P r.height r.tree

variable {P}

theorem AllKeys.items {t : Tree ι κ ρ h} (keys : AllKeys P h t) : ∀ e ∈ t.items, P e.1 := by
  cases h with
  | zero => exact keys
  | succ h => exact fun kid member => (keys kid member).1

theorem plug_allKeys (path : Path ι κ ρ h) (t : Tree ι κ ρ h) :
    (plug path t).AllKeys P ↔ path.AllKeys P ∧ AllKeys P h t := by
  induction path with
  | top => exact ⟨fun keys => ⟨trivial,keys⟩,fun both => both.2⟩
  | up page before key after rest ih =>
    refine (ih _).trans ?_
    simp only [AllKeys,Path.AllKeys,List.forall_mem_append,List.forall_mem_cons]
    tauto

end Keys

/-! Inserting a node beside the hole. -/
section Graft

variable (fresh : Nat → ι) (cap : Nat)

def firstKeyD (key : κ) (t : Tree ι κ ρ h) : κ := (firstKey t).getD key

/-- The tree with `t` in the hole and `new`, labelled `key`, to its right, and the next
unused page. A node that reaches `cap` items is split in the middle, a split root gets a
new root above it. -/
def graft : {h : Nat} → Nat → Path ι κ ρ h → Tree ι κ ρ h → κ → Tree ι κ ρ h → Root ι κ ρ × Nat
  | h, next, .top, t, key, new =>
    (⟨h + 1,⟨fresh next,[(firstKeyD key t,t),(key,new)]⟩⟩,next + 1)
  | _, next, .up page before k after rest, t, key, new =>
    let items := before ++ (k,t) :: (key,new) :: after
    if items.length = cap then
      let right := ⟨fresh next,items.drop (items.length / 2)⟩
      graft (next + 1) rest ⟨page,items.take (items.length / 2)⟩ (firstKeyD key right) right
    else (plug rest ⟨page,items⟩,next)

variable {fresh cap}

theorem collect_cut (leaf : Tree ι κ ρ 0 → List β) (p q : ι) (items : List (κ × Tree ι κ ρ h)) (n : Nat) :
    collect leaf (h + 1) ⟨p,items.take n⟩ ++ collect leaf (h + 1) ⟨q,items.drop n⟩ =
      items.flatMap fun kid => collect leaf h kid.2 := by
  simp only [collect]
  rw [← List.flatMap_append,List.take_append_drop]

theorem graft_full
    (next : Nat) (t new : Tree ι κ ρ h) (key : κ) {items : List (κ × Tree ι κ ρ h)}
    (shape : before ++ (k,t) :: (key,new) :: after = items) (full : items.length = cap) :
    graft fresh cap next (.up page before k after rest) t key new =
      graft fresh cap (next + 1) rest ⟨page,items.take (items.length / 2)⟩
        (firstKeyD key (⟨fresh next,items.drop (items.length / 2)⟩ : Tree ι κ ρ (h + 1)))
        ⟨fresh next,items.drop (items.length / 2)⟩ := by
  subst shape
  rw [graft,if_pos full]

theorem graft_room
    (next : Nat) (t new : Tree ι κ ρ h) (key : κ) {items : List (κ × Tree ι κ ρ h)}
    (shape : before ++ (k,t) :: (key,new) :: after = items) (room : items.length ≠ cap) :
    graft fresh cap next (.up page before k after rest) t key new =
      (plug rest ⟨page,items⟩,next) := by
  subst shape
  rw [graft,if_neg room]

theorem graft_collect (leaf : Tree ι κ ρ 0 → List β) (path : Path ι κ ρ h) (next : Nat) (t new : Tree ι κ ρ h)
    (key : κ) :
    (graft fresh cap next path t key new).1.collect leaf =
      path.collectLeft leaf ++ (collect leaf h t ++ collect leaf h new) ++
        path.collectRight leaf := by
  induction path generalizing next key with
  | top => simp [graft,Root.collect,collect,Path.collectLeft,Path.collectRight]
  | up page before k after rest ih =>
    by_cases full : (before ++ (k,t) :: (key,new) :: after).length = cap
    · rw [graft_full next t new key rfl full,ih,collect_cut]
      simp [Path.collectLeft,Path.collectRight]
    · rw [graft_room next t new key rfl full,plug_collect]
      simp [collect,Path.collectLeft,Path.collectRight]

theorem pages_cut (p q : ι) (items : List (κ × Tree ι κ ρ h)) (n : Nat) :
    (pages (h + 1) ⟨p,items.take n⟩ ++ pages (h + 1) ⟨q,items.drop n⟩).Perm
      (p :: q :: items.flatMap fun kid => pages h kid.2) := by
  simp only [pages,List.cons_append]
  refine .cons p (List.perm_middle.trans (.cons q ?_))
  rw [← List.flatMap_append,List.take_append_drop]

theorem beside_pages (page : ι) (before after : List (κ × Tree ι κ ρ h)) (k key : κ) (rest : Path ι κ ρ (h + 1))
    (t new : Tree ι κ ρ h) :
    ((Path.up page before k after rest).around ++ (pages h t ++ pages h new)).Perm
      (rest.around ++ pages (h + 1) ⟨page,before ++ (k,t) :: (key,new) :: after⟩) := by
  classical
  refine List.perm_iff_count.mpr fun p => ?_
  simp only [pages,Path.around,List.flatMap_append,List.flatMap_cons,List.count_append,List.cons_append,
    List.count_cons]
  omega

theorem graft_pages (path : Path ι κ ρ h) (next : Nat) (t new : Tree ι κ ρ h) (key : κ) :
    ∃ taken, (graft fresh cap next path t key new).2 = next + taken ∧
      (graft fresh cap next path t key new).1.pages.Perm
        (path.around ++ (pages h t ++ pages h new) ++ (List.range' next taken).map fresh) := by
  classical
  induction path generalizing next key with
  | top =>
    refine ⟨1,rfl,List.perm_iff_count.mpr fun p => ?_⟩
    simp [graft,Root.pages,pages,Path.around,List.count_cons]
    omega
  | up page before k after rest ih =>
    by_cases full : (before ++ (k,t) :: (key,new) :: after).length = cap
    · rw [graft_full next t new key rfl full]
      obtain ⟨taken,counter,perm⟩ := ih (next + 1) _ _ _
      refine ⟨taken + 1,counter.trans (by omega),perm.trans (List.perm_iff_count.mpr fun p => ?_)⟩
      have cut := (pages_cut page (fresh next) (before ++ (k,t) :: (key,new) :: after)
        ((before ++ (k,t) :: (key,new) :: after).length / 2)).count_eq p
      rw [List.range'_succ]
      simp only [Path.around,List.flatMap_append,List.flatMap_cons,List.count_append,List.cons_append,List.count_cons,
        List.map_cons] at cut ⊢
      omega
    · rw [graft_room next t new key rfl full]
      refine ⟨0,rfl,(plug_pages _ _).trans ?_⟩
      rw [List.range'_zero,List.map_nil,List.append_nil]
      exact (beside_pages page before after k key rest t new).symm

theorem firstKey_take (page : ι) {items : List (κ × β)} {n : Nat} (some : 0 < n) :
    firstKey (⟨page,items.take n⟩ : Bundle ι κ β) = firstKey ⟨page,items⟩ := by
  simp [firstKey,List.head?_take,Nat.ne_of_gt some]

theorem firstKeyD_spec {t : Tree ι κ ρ h} (nonempty : 0 < t.items.length) :
    firstKey t = some (firstKeyD key t) := by
  obtain ⟨first,rest,items⟩ := List.exists_cons_of_length_pos nonempty
  simp [firstKeyD,firstKey,items]

theorem firstKeyD_allKeys {P : κ → Prop} {t : Tree ι κ ρ h} (keys : AllKeys P h t) (given : P key) :
    P (firstKeyD key t) := by
  have items := keys.items
  obtain ⟨page,list⟩ := t
  cases list with
  | nil => exact given
  | cons e rest => exact items e List.mem_cons_self

theorem graft_allKeys {P : κ → Prop} (path : Path ι κ ρ h) (next : Nat) {t new : Tree ι κ ρ h}
    (around : path.AllKeys P) (lower : AllKeys P h t) (upper : AllKeys P h new) (given : P key) :
    (graft fresh cap next path t key new).1.AllKeys P := by
  induction path generalizing next key with
  | top => exact List.forall_mem_cons.mpr ⟨⟨firstKeyD_allKeys lower given,lower⟩,
      List.forall_mem_singleton.mpr ⟨given,upper⟩⟩
  | @up h page before k after rest ih =>
    obtain ⟨items,shape⟩ : ∃ items, before ++ (k,t) :: (key,new) :: after = items := ⟨_,rfl⟩
    have all : ∀ kid ∈ items, P kid.1 ∧ AllKeys P h kid.2 := by
      obtain ⟨siblings,label,_⟩ := around
      have sides := List.forall_mem_append.mp siblings
      rw [← shape]
      exact List.forall_mem_append.mpr ⟨sides.1,List.forall_mem_cons.mpr ⟨⟨label,lower⟩,
        List.forall_mem_cons.mpr ⟨⟨given,upper⟩,sides.2⟩⟩⟩
    by_cases full : items.length = cap
    · rw [graft_full next t new key shape full]
      have half : AllKeys P (h + 1) (⟨fresh next,items.drop (items.length / 2)⟩ : Tree ι κ ρ (h + 1)) :=
        fun kid member => all kid (List.mem_of_mem_drop member)
      exact ih (next + 1) around.2.2 (fun kid member => all kid (List.mem_of_mem_take member)) half
        (firstKeyD_allKeys half given)
    · rw [graft_room next t new key shape full]
      exact (plug_allKeys rest _).mpr ⟨around.2.2,all⟩

variable {lo hi : Nat}

theorem beside_sound
    {t new : Tree ι κ ρ h} (sound : (Path.up page before k after rest).Sound lo hi)
    (fits : (Path.up page before k after rest).Fits lo hi lo t) (beside : Sound lo hi false (key,new)) :
    FirstRest (Sound lo hi) rest.leftmost (before ++ (k,t) :: (key,new) :: after) := by
  refine firstRest_append.mpr ⟨sound.1,fits_up.mp fits,?_⟩
  exact List.forall_mem_cons.mpr ⟨beside,sound.2.1⟩

theorem firstRest_cut {α : Type} {P : Bool → α → Prop} {flag : Bool} {l : List α} {n : Nat} (some : 0 < n)
    (whole : FirstRest P flag l) :
    FirstRest P flag (l.take n) ∧ FirstRest P false (l.drop n) := by
  cases l with
  | nil => simp [FirstRest]
  | cons a rest =>
    obtain ⟨n,rfl⟩ := Nat.exists_eq_succ_of_ne_zero (Nat.ne_of_gt some)
    exact ⟨⟨whole.1,fun b member => whole.2 b (List.mem_of_mem_take member)⟩,
      firstRest_false.mpr fun b member => whole.2 b (List.mem_of_mem_drop member)⟩

theorem graft_sound (half : lo ≤ (hi + 1) / 2) (two : 2 ≤ hi) (path : Path ι κ ρ h) (next : Nat)
    {t new : Tree ι κ ρ h} (sound : path.Sound lo hi) (fits : path.Fits lo hi lo t)
    (beside : Sound lo hi false (key,new)) :
    (graft fresh (hi + 1) next path t key new).1.Sound lo hi := by
  induction path generalizing next key with
  | top =>
    refine ⟨nofun,Nat.le_refl 2,two,?_⟩
    exact ⟨⟨nofun,fits.2⟩,List.forall_mem_singleton.mpr beside⟩
  | up page before k after rest ih =>
    have ordered := beside_sound sound fits beside
    have head (edge : rest.leftmost = false) :=
      (firstKey_around page before k t ((key,new) :: after)).trans (sound.2.2.1 edge)
    obtain ⟨_,_,_,least,most,above⟩ := sound
    obtain ⟨items,shape⟩ : ∃ items, before ++ (k,t) :: (key,new) :: after = items := ⟨_,rfl⟩
    have size : before.length + after.length + 2 = items.length := by
      rw [← shape]; simp; omega
    rw [shape] at ordered head
    by_cases full : items.length = hi + 1
    · rw [graft_full next t new key shape full]
      have halves := firstRest_cut (n := items.length / 2) (by omega) ordered
      apply ih (next + 1) above
      · refine ⟨fun edge => ?_,?_,?_,halves.1⟩
        · rw [firstKey_take page (by omega)]
          exact head edge
        · rw [List.length_take]; omega
        · rw [List.length_take]; omega
      · refine ⟨fun _ => firstKeyD_spec ?_,?_,?_,halves.2⟩
        all_goals rw [List.length_drop]; omega
    · rw [graft_room next t new key shape full]
      have atLeast : rest.least lo ≤ items.length := by omega
      have atMost : items.length ≤ hi := by omega
      exact (plug_sound rest _).mpr ⟨above,head,atLeast,atMost,ordered⟩

end Graft

end Rucbase.Lib.BTree
