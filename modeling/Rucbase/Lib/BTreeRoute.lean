import Rucbase.Lib.BTreeOrder

/-! Trees whose labels bound the keys below them without being one of them. A node has a range
of ranks, a missing bound being none at all; the label of a kid ends the range of the kid
before it and starts its own. -/
namespace Rucbase.Lib.BTree

open Rucbase.Lib.BTree.Path
section Labels

variable {κ α L : Type} (rank : κ → L)

def firstRank (items : List (κ × α)) : Option L := items.head?.map fun e => rank e.1

/-- Where the range in front of `items` ends. -/
def upTo (items : List (κ × α)) (hi : Option L) : Option L := (firstRank rank items).or hi

/-- `P` of every kid with its range; the first one starts at `lo`. -/
def Lane (P : Option L → α → Option L → Prop) : Option L → List (κ × α) → Option L → Prop
  | _, [], _ => True
  | lo, kid :: rest, hi => P lo kid.2 (upTo rank rest hi) ∧ Lane P (firstRank rank rest) rest hi

variable {rank} {lo hi : Option L} {P : Option L → α → Option L → Prop}

@[simp] theorem firstRank_nil : firstRank rank ([] : List (κ × α)) = none := rfl

@[simp] theorem firstRank_cons (kid : κ × α) (rest : List (κ × α)) :
    firstRank rank (kid :: rest) = some (rank kid.1) := rfl

@[simp] theorem upTo_nil : upTo rank ([] : List (κ × α)) hi = hi := rfl

@[simp] theorem upTo_cons (kid : κ × α) (rest : List (κ × α)) : upTo rank (kid :: rest) hi = some (rank kid.1) := rfl

theorem upTo_append (kid : κ × α) (xs ys : List (κ × α)) :
    upTo rank (xs ++ kid :: ys) hi = upTo rank xs (some (rank kid.1)) := by
  cases xs <;> rfl

theorem firstRank_append (kid : κ × α) (xs ys : List (κ × α)) :
    firstRank rank (xs ++ kid :: ys) = upTo rank xs (some (rank kid.1)) := by
  cases xs <;> rfl

theorem lane_append {kid : κ × α} {xs ys : List (κ × α)} :
    Lane rank P lo (xs ++ kid :: ys) hi ↔ Lane rank P lo xs (some (rank kid.1)) ∧
      P (if xs.isEmpty then lo else some (rank kid.1)) kid.2 (upTo rank ys hi) ∧
        Lane rank P (firstRank rank ys) ys hi := by
  induction xs generalizing lo with
  | nil => simp [Lane]
  | cons first xs ih =>
    rw [List.cons_append,Lane,ih,upTo_append,firstRank_append,Lane]
    cases xs <;> simp [Lane,and_assoc]

theorem lane_mem {items : List (κ × α)} (lane : Lane rank P lo items hi) {kid : κ × α} (member : kid ∈ items) :
    ∃ low high, P low kid.2 high := by
  induction items generalizing lo with
  | nil => exact nomatch member
  | cons first rest ih =>
    rcases List.mem_cons.mp member with rfl | later
    · exact ⟨_,_,lane.1⟩
    · exact ih lane.2 later

end Labels

variable {ι κ ρ α L : Type} {h : Nat} [LinearOrder L] (rank : κ → L)

def AtLeast (lo : Option L) (x : L) : Prop := ∀ b ∈ lo, b ≤ x

def LessThan (x : L) (hi : Option L) : Prop := ∀ b ∈ hi, x < b

/-- The bounds leave room for a key. -/
def Room (lo hi : Option L) : Prop := ∀ b ∈ lo, LessThan b hi

/-- The keys of the tree are in the range, and so are the labels. An inner node with a lower
bound has that bound as its first label, a leaf may have lost the key that gave it its label. -/
def Routed : (h : Nat) → Option L → Tree ι κ ρ h → Option L → Prop
  | 0, lo, t, hi => Room lo hi ∧ Sorted rank t.items ∧
      ∀ e ∈ t.items, AtLeast lo (rank e.1) ∧ LessThan (rank e.1) hi
  | h + 1, lo, t, hi => Room lo hi ∧ (∀ b ∈ lo, firstRank rank t.items = some b) ∧
      Lane rank (Routed h) lo t.items hi

namespace Path

def low : {h : Nat} → Path ι κ ρ h → Option L
  | _, .top => none
  | _, .up _ before key _ rest => if before.isEmpty then rest.low else some (rank key)

def high : {h : Nat} → Path ι κ ρ h → Option L
  | _, .top => none
  | _, .up _ _ _ after rest => upTo rank after rest.high

def Routed : {h : Nat} → Path ι κ ρ h → Prop
  | _, .top => True
  | h, .up _ before key after rest => Room (rest.low rank) (rest.high rank) ∧
      (∀ b ∈ rest.low rank, upTo rank before (some (rank key)) = some b) ∧
      Lane rank (BTree.Routed rank h) (rest.low rank) before (some (rank key)) ∧
      Lane rank (BTree.Routed rank h) (firstRank rank after) after (rest.high rank) ∧ rest.Routed

end Path

def Root.Routed (r : Root ι κ ρ) : Prop := BTree.Routed rank r.height none r.tree none

variable {rank} {lo hi : Option L}

variable {left : Bool} {x : L} {page : ι} {key : κ}

theorem LessThan.trans {y : L} (le : x ≤ y) (less : LessThan y hi) : LessThan x hi :=
  fun b bound => lt_of_le_of_lt le (less b bound)

variable {b : L} {before after : List (κ × Tree ι κ ρ h)} {k : κ} {r : Root ι κ ρ}

theorem lessThan_some : LessThan x (some b) ↔ x < b := by simp [LessThan]

theorem atLeast_some : AtLeast (some b) x ↔ b ≤ x := by simp [AtLeast]

theorem Room.trans (first : Room lo (some x)) (second : LessThan x hi) : Room lo hi :=
  fun b bound => second.trans (le_of_lt (lessThan_some.mp (first b bound)))

theorem plug_routed (path : Path ι κ ρ h) (t : Tree ι κ ρ h) :
    (plug path t).Routed rank ↔ path.Routed rank ∧ Routed rank h (path.low rank) t (path.high rank) := by
  induction path with
  | top => exact ⟨fun routed => ⟨trivial,routed⟩,fun both => both.2⟩
  | up page before key after rest ih =>
    refine (ih _).trans ?_
    simp only [Routed,Path.Routed,low,high,lane_append,firstRank_append]
    tauto

theorem routed_room {t : Tree ι κ ρ h} (routed : Routed rank h lo t hi) : Room lo hi := by
  cases h with
  | zero => exact routed.1
  | succ h => exact routed.1

theorem lane_room {items : List (κ × Tree ι κ ρ h)} (lane : Lane rank (Routed rank h) lo items hi)
    (nonempty : items ≠ []) : Room lo hi := by
  induction items generalizing lo with
  | nil => exact absurd rfl nonempty
  | cons kid rest ih =>
    have first := routed_room lane.1
    cases rest with
    | nil => exact first
    | cons next rest => exact first.trans (ih lane.2 (List.cons_ne_nil _ _) _ rfl)

theorem lane_labels {items : List (κ × Tree ι κ ρ h)}
    (lane : Lane rank (Routed rank h) (firstRank rank items) items hi) : ∀ kid ∈ items, LessThan (rank kid.1) hi := by
  induction items with
  | nil => exact nofun
  | cons kid rest ih =>
    exact List.forall_mem_cons.mpr ⟨lane_room lane (List.cons_ne_nil _ _) _ rfl,ih lane.2⟩

theorem lane_sorted {items : List (κ × Tree ι κ ρ h)}
    (lane : Lane rank (Routed rank h) (firstRank rank items) items hi) : Sorted rank items := by
  induction items with
  | nil => exact .nil
  | cons kid rest ih =>
    have sorted := ih lane.2
    refine List.pairwise_cons.mpr ⟨fun other member => ?_,sorted⟩
    have room := routed_room lane.1
    cases rest with
    | nil => exact nomatch member
    | cons next rest =>
      have near : rank kid.1 < rank next.1 := lessThan_some.mp (room _ rfl)
      rcases List.mem_cons.mp member with rfl | later
      · exact near
      · exact lt_trans near ((List.pairwise_cons.mp sorted).1 other later)

theorem lane_bounds {items : List (κ × Tree ι κ ρ h)} (lane : Lane rank (Routed rank h) lo items hi)
    (bounds : ∀ {lo hi : Option L} {t : Tree ι κ ρ h}, Routed rank h lo t hi →
      ∀ e ∈ entries t, AtLeast lo (rank e.1) ∧ LessThan (rank e.1) hi) :
    ∀ e ∈ items.flatMap fun kid => entries kid.2, AtLeast lo (rank e.1) ∧ LessThan (rank e.1) hi := by
  induction items generalizing lo with
  | nil => exact nofun
  | cons kid rest ih =>
    intro e member
    rw [List.flatMap_cons] at member
    rcases List.mem_append.mp member with here | later
    · obtain ⟨least,less⟩ := bounds lane.1 e here
      refine ⟨least,?_⟩
      cases rest with
      | nil => exact less
      | cons next rest =>
        have onward := lane_room lane.2 (List.cons_ne_nil _ _)
        exact (onward _ rfl).trans (le_of_lt (lessThan_some.mp less))
    · obtain ⟨least,less⟩ := ih lane.2 e later
      refine ⟨fun b bound => ?_,less⟩
      cases rest with
      | nil => exact nomatch later
      | cons next rest =>
        have near := lessThan_some.mp (routed_room lane.1 b bound)
        exact le_trans (le_of_lt near) (atLeast_some.mp least)

theorem routed_bounds {t : Tree ι κ ρ h} (routed : Routed rank h lo t hi) :
    ∀ e ∈ entries t, AtLeast lo (rank e.1) ∧ LessThan (rank e.1) hi := by
  induction h generalizing lo hi with
  | zero => exact routed.2.2
  | succ h ih => exact lane_bounds routed.2.2 fun routed => ih routed

theorem lane_entries {items : List (κ × Tree ι κ ρ h)} (lane : Lane rank (Routed rank h) lo items hi) :
    ∀ e ∈ items.flatMap fun kid => entries kid.2, AtLeast lo (rank e.1) ∧ LessThan (rank e.1) hi :=
  lane_bounds lane routed_bounds

theorem lane_entries_sorted {items : List (κ × Tree ι κ ρ h)} (lane : Lane rank (Routed rank h) lo items hi)
    (each : ∀ kid ∈ items, Sorted rank (entries kid.2)) :
    Sorted rank (items.flatMap fun kid => entries kid.2) := by
  induction items generalizing lo with
  | nil => exact .nil
  | cons kid rest ih =>
    obtain ⟨own,others⟩ := List.forall_mem_cons.mp each
    rw [List.flatMap_cons]
    refine List.pairwise_append.mpr ⟨own,ih lane.2 others,fun a inA b inB => ?_⟩
    cases rest with
    | nil => exact nomatch inB
    | cons other rest =>
      have less := lessThan_some.mp (routed_bounds lane.1 a inA).2
      exact lt_of_lt_of_le less (atLeast_some.mp (lane_entries lane.2 b inB).1)

theorem routed_sorted {t : Tree ι κ ρ h} (routed : Routed rank h lo t hi) : Sorted rank (entries t) := by
  induction h generalizing lo hi with
  | zero => exact routed.2.1
  | succ h ih =>
    refine lane_entries_sorted routed.2.2 fun kid member => ?_
    obtain ⟨_,_,inside⟩ := lane_mem routed.2.2 member
    exact ih inside

/-! ### Around a hole -/

theorem left_below {path : Path ι κ ρ h} (routed : path.Routed rank) :
    ∀ e ∈ path.entriesLeft, ∃ b ∈ path.low rank, rank e.1 < b := by
  induction path with
  | top => exact nofun
  | up page before key after rest ih =>
    obtain ⟨_,_,lane,_,upper⟩ := routed
    intro e member
    rw [entriesLeft_up] at member
    rw [low]
    cases before with
    | nil => exact ih upper e (by simpa using member)
    | cons kid before =>
      refine ⟨rank key,rfl,?_⟩
      rcases List.mem_append.mp member with outside | sibling
      · obtain ⟨b,bound,less⟩ := ih upper e outside
        exact lt_trans less (lessThan_some.mp (lane_room lane (List.cons_ne_nil _ _) b bound))
      · exact lessThan_some.mp (lane_entries lane e sibling).2

theorem right_above {path : Path ι κ ρ h} (routed : path.Routed rank) :
    ∀ e ∈ path.entriesRight, ∃ b ∈ path.high rank, b ≤ rank e.1 := by
  induction path with
  | top => exact nofun
  | up page before key after rest ih =>
    obtain ⟨_,_,_,lane,upper⟩ := routed
    intro e member
    rw [entriesRight_up] at member
    rw [high]
    cases after with
    | nil => exact ih upper e (by simpa using member)
    | cons kid after =>
      refine ⟨rank kid.1,rfl,?_⟩
      rcases List.mem_append.mp member with sibling | outside
      · exact atLeast_some.mp (lane_entries lane e sibling).1
      · obtain ⟨b,bound,least⟩ := ih upper e outside
        exact le_trans (le_of_lt (lane_room lane (List.cons_ne_nil _ _) _ rfl b bound)) least

omit [LinearOrder L] in
theorem low_label {lo hi : Nat} {path : Path ι κ ρ h} (sound : path.Sound lo hi) (edge : path.leftmost = false) :
    path.low rank = path.label.map rank := by
  induction path with
  | top => cases edge
  | up page before key after rest ih =>
    obtain ⟨_,_,first,_,_,upper⟩ := sound
    cases before with
    | cons kid before => rfl
    | nil =>
      have outer : rest.leftmost = false := by simpa [leftmost] using edge
      exact (ih upper outer).trans (congrArg (Option.map rank) (first outer).symm)

variable (rank) in
/-- The key is in the range of the hole. -/
structure Reached (key : κ) (path : Path ι κ ρ h) : Prop where
  least : AtLeast (path.low rank) (rank key)
  less : LessThan (rank key) (path.high rank)

theorem reached_top (key : κ) : Reached rank key (.top : Path ι κ ρ h) :=
  ⟨fun _ bound => absurd bound (Option.not_mem_none _),fun _ bound => absurd bound (Option.not_mem_none _)⟩

theorem Reached.outer  {rest : Path ι κ ρ (h + 1)} (reached : Reached rank key (.up page before k after rest))
    (routed : (up page before k after rest).Routed rank) : Reached rank key rest := by
  obtain ⟨_,_,left,right,_⟩ := routed
  obtain ⟨least,less⟩ := reached
  rw [low] at least
  rw [high] at less
  constructor
  · cases before with
    | nil => exact least
    | cons kid before =>
      intro b bound
      have near := lessThan_some.mp (lane_room left (List.cons_ne_nil _ _) b bound)
      exact le_trans (le_of_lt near) (atLeast_some.mp least)
  · cases after with
    | nil => exact less
    | cons kid after => exact (lane_room right (List.cons_ne_nil _ _) _ rfl).trans (le_of_lt (lessThan_some.mp less))

/-- The labels of the node above a hole lead there: from the second one on they are not larger up
to that of the hole, and larger behind it. -/
theorem Reached.labels  {rest : Path ι κ ρ (h + 1)} (reached : Reached rank key (.up page before k after rest))
    (routed : (up page before k after rest).Routed rank) (t : Tree ι κ ρ h) :
    (∀ e ∈ (before ++ [(k,t)]).tail, rank e.1 ≤ rank key) ∧ AllAbove rank key after := by
  obtain ⟨_,_,left,right,_⟩ := routed
  obtain ⟨least,less⟩ := reached
  rw [low] at least
  rw [high] at less
  constructor
  · cases before with
    | nil => exact nofun
    | cons first before =>
      have last := atLeast_some.mp least
      refine List.forall_mem_append.mpr ⟨fun e member => ?_,List.forall_mem_singleton.mpr last⟩
      exact le_trans (le_of_lt (lessThan_some.mp (lane_labels left.2 e member))) last
  · cases after with
    | nil => exact nofun
    | cons kid after =>
      have near := lessThan_some.mp less
      have sorted := lane_sorted right
      exact List.forall_mem_cons.mpr ⟨near,fun e member => lt_trans near ((List.pairwise_cons.mp sorted).1 e member)⟩

theorem Routed.down {t : Tree ι κ ρ (h + 1)} (routed : Routed rank (h + 1) lo t hi) (nonempty : t.items ≠ [])
    (least : AtLeast lo (rank key)) (less : LessThan (rank key) hi) :
    ∃ before k kid after, t.items = before ++ (k,kid) :: after ∧
      (∀ e ∈ (before ++ [(k,kid)]).tail, rank e.1 ≤ rank key) ∧ AllAbove rank key after ∧
      AtLeast (if before.isEmpty then lo else some (rank k)) (rank key) ∧
      LessThan (rank key) (upTo rank after hi) := by
  obtain ⟨page,items⟩ := t
  obtain ⟨first,tail,rfl⟩ := List.exists_cons_of_ne_nil nonempty
  obtain ⟨low,high,rfl,below,large⟩ := sorted_upTo (lane_sorted routed.2.2.2) key
  obtain ⟨before,⟨k,t⟩,cut⟩ : ∃ before last, first :: low = before ++ [last] :=
    ⟨_,_,(List.dropLast_append_getLast (List.cons_ne_nil first low)).symm⟩
  have small : ∀ kid ∈ (before ++ [(k,t)]).tail, rank kid.1 ≤ rank key := by rwa [← cut]
  refine ⟨before,k,t,high,?_,small,large,?_,?_⟩
  · rw [← List.cons_append,cut]; simp
  · cases before with
    | nil => exact least
    | cons kid before => exact atLeast_some.mpr (small (k,t) (by simp))
  · cases high with
    | nil => exact less
    | cons kid high => exact lessThan_some.mpr (large kid List.mem_cons_self)

/-! ### Labels that are keys -/

section Exact

variable {least most : Nat}

theorem first_label_least {kid : κ × Tree ι κ ρ h} {rest : List (κ × Tree ι κ ρ h)}
    (sound : Sound least most false kid) (sorted : Sorted rank ((kid :: rest).flatMap fun kid => entries kid.2)) :
    ∀ e ∈ (kid :: rest).flatMap fun kid => entries kid.2, rank kid.1 ≤ rank e.1 := by
  obtain ⟨value,more,first⟩ := first_entry sound
  rw [List.flatMap_cons,first,List.cons_append] at sorted ⊢
  have later := (List.pairwise_cons.mp sorted).1
  exact List.forall_mem_cons.mpr ⟨le_refl _,fun e member => le_of_lt (later e member)⟩

variable {high : Option L}

theorem below_next_label {kid : κ × Tree ι κ ρ h} {rest : List (κ × Tree ι κ ρ h)}
    (sound : ∀ kid ∈ rest, Sound least most false kid)
    (sorted : Sorted rank ((kid :: rest).flatMap fun kid => entries kid.2))
    (below : ∀ e ∈ entries kid.2, LessThan (rank e.1) high) :
    ∀ e ∈ entries kid.2, LessThan (rank e.1) (upTo rank rest high) := by
  cases rest with
  | nil => exact below
  | cons next rest =>
    intro e member
    obtain ⟨value,there⟩ := label_mem_entries (sound next List.mem_cons_self)
    rw [List.flatMap_cons] at sorted
    exact lessThan_some.mpr ((List.pairwise_append.mp sorted).2.2 e member _
      (List.mem_flatMap.mpr ⟨next,List.mem_cons_self,there⟩))

theorem lane_of_sound {items : List (κ × Tree ι κ ρ h)} {low : Option L}
    (inner : ∀ {left : Bool} {t : Tree ι κ ρ h} {low high : Option L}, Below least most h left t →
      Sorted rank (entries t) → (∀ e ∈ entries t, AtLeast low (rank e.1) ∧ LessThan (rank e.1) high) →
      Room low high → (∀ b ∈ low, left = false ∧ (firstKey t).map rank = some b) → Routed rank h low t high)
    (sound : FirstRest (Sound least most) left items) (sorted : Sorted rank (items.flatMap fun kid => entries kid.2))
    (bounds : ∀ e ∈ items.flatMap fun kid => entries kid.2, AtLeast low (rank e.1) ∧ LessThan (rank e.1) high)
    (label : ∀ b ∈ low, left = false ∧ firstRank rank items = some b) : Lane rank (Routed rank h) low items high := by
  induction items generalizing left low with
  | nil => trivial
  | cons kid rest ih =>
    obtain ⟨own,others⟩ := sound
    have parts := sorted
    rw [List.flatMap_cons] at parts bounds
    obtain ⟨ownSorted,restSorted,_⟩ := List.pairwise_append.mp parts
    obtain ⟨ownBounds,restBounds⟩ := List.forall_mem_append.mp bounds
    have onward := below_next_label others sorted fun e member => (ownBounds e member).2
    refine ⟨inner own.2.2.2 ownSorted (fun e member => ⟨(ownBounds e member).1,onward e member⟩) ?_ ?_,
      ih (firstRest_false.mpr others) restSorted ?_ fun b bound => ⟨rfl,bound⟩⟩
    · intro b bound
      obtain ⟨rfl,named⟩ := label b bound
      obtain rfl : rank kid.1 = b := Option.some.inj named
      obtain ⟨value,there⟩ := label_mem_entries own
      exact onward _ there
    · intro b bound
      obtain ⟨rfl,named⟩ := label b bound
      rw [own.1 rfl]
      exact ⟨rfl,named⟩
    · intro e member
      refine ⟨?_,(restBounds e member).2⟩
      cases rest with
      | nil => exact nomatch member
      | cons next rest =>
        exact atLeast_some.mpr (first_label_least (others next List.mem_cons_self) restSorted e member)

theorem routed_of_below {t : Tree ι κ ρ h} {low : Option L} (below : Below least most h left t)
    (sorted : Sorted rank (entries t)) (bounds : ∀ e ∈ entries t, AtLeast low (rank e.1) ∧ LessThan (rank e.1) high)
    (room : Room low high) (label : ∀ b ∈ low, left = false ∧ (firstKey t).map rank = some b) :
    Routed rank h low t high := by
  induction h generalizing left low high with
  | zero => exact ⟨room,sorted,bounds⟩
  | succ h ih =>
    have first : firstRank rank t.items = (firstKey t).map rank := by simp [firstRank,firstKey,Function.comp_def]
    exact ⟨room,fun b bound => first ▸ (label b bound).2,
      lane_of_sound ih (below_succ.mp below) sorted bounds fun b bound => first ▸ label b bound⟩

theorem Root.Sound.routed (sound : r.Sound least most) (sorted : Sorted rank r.entries) :
    r.Routed rank :=
  routed_of_below sound.2.2.2 sorted (fun _ _ => ⟨nofun,nofun⟩) nofun nofun

end Exact

/-! ### Occupancy -/

section Sized

variable (lo hi : Nat)

/-- The number of items of every node; the node itself needs only `least`. -/
def Sized : (least h : Nat) → Tree ι κ ρ h → Prop
  | least, 0, t => least ≤ t.items.length ∧ t.items.length ≤ hi
  | least, h + 1, t => (least ≤ t.items.length ∧ t.items.length ≤ hi) ∧
      ∀ kid ∈ (t.items : List (κ × Tree ι κ ρ h)), Sized lo h kid.2

def Path.Sized : {h : Nat} → Path ι κ ρ h → Prop
  | _, .top => True
  | h, .up _ before _ after rest => (∀ kid ∈ before ++ after, BTree.Sized lo hi lo h kid.2) ∧
      rest.least lo ≤ before.length + after.length + 1 ∧ before.length + after.length + 1 ≤ hi ∧ rest.Sized

def Root.Sized (r : Root ι κ ρ) : Prop := BTree.Sized lo hi (least lo (.top : Path ι κ ρ r.height)) r.height r.tree

variable {lo hi}

variable {least : Nat}

theorem sized_count {t : Tree ι κ ρ h} (sized : Sized lo hi least h t) :
    least ≤ t.items.length ∧ t.items.length ≤ hi := by
  cases h with
  | zero => exact sized
  | succ h => exact sized.1

theorem Sized.change {other : Nat} {t : Tree ι κ ρ h} (sized : Sized lo hi least h t)
    (enough : other ≤ t.items.length) : Sized lo hi other h t := by
  cases h with
  | zero => exact ⟨enough,sized.2⟩
  | succ h => exact ⟨⟨enough,sized.1.2⟩,sized.2⟩

theorem plug_sized (path : Path ι κ ρ h) (t : Tree ι κ ρ h) :
    (plug path t).Sized lo hi ↔ path.Sized lo hi ∧ Sized lo hi (path.least lo) h t := by
  induction path with
  | top => exact ⟨fun sized => ⟨trivial,sized⟩,fun both => both.2⟩
  | up page before key after rest ih =>
    have size : (before ++ (key,t) :: after).length = before.length + after.length + 1 := by simp; omega
    refine (ih _).trans ?_
    simp only [Sized,Path.Sized,least,size,List.forall_mem_append,List.forall_mem_cons]
    tauto

/-- Every inner node has a kid, so a tree has more pages than levels. -/
theorem Sized.height_lt (few : 1 ≤ lo) {t : Tree ι κ ρ h} (sized : Sized lo hi least h t)
    (nonempty : h ≠ 0 → t.items ≠ []) : h < (pages h t).length := by
  induction h generalizing least with
  | zero => exact Nat.one_pos
  | succ h ih =>
    obtain ⟨page,items⟩ := t
    obtain ⟨kid,rest,rfl⟩ := List.exists_cons_of_ne_nil (nonempty (Nat.succ_ne_zero h))
    have own := sized.2 kid List.mem_cons_self
    have deep := ih own fun _ => List.ne_nil_of_length_pos (Nat.lt_of_lt_of_le few (sized_count own).1)
    simp only [pages,List.length_cons,List.flatMap_cons,List.length_append]
    omega

theorem exists_reached (few : 1 ≤ lo) {rank : κ → L} {path : Path ι κ ρ h} {t : Tree ι κ ρ h}
    (reached : Reached rank key path) (routed : (plug path t).Routed rank) (sized : (plug path t).Sized lo hi) :
    ∃ (leafPath : Path ι κ ρ 0) (leaf : Tree ι κ ρ 0), plug leafPath leaf = plug path t ∧ Reached rank key leafPath := by
  induction h with
  | zero => exact ⟨path,t,rfl,reached⟩
  | succ h ih =>
    have nonempty : t.items ≠ [] := by
      have count := (sized_count ((plug_sized path t).mp sized).2).1
      intro empty
      rw [empty] at count
      cases path <;> simp [least] at count
      omega
    obtain ⟨before,k,kid,after,items,_,_,least,less⟩ :=
      ((plug_routed path t).mp routed).2.down nonempty reached.least reached.less
    have same : plug (.up t.page before k after path) kid = plug path t := by rw [plug,← items]
    have next : Reached rank key (.up t.page before k after path) := ⟨least,less⟩
    rw [← same] at routed sized ⊢
    exact ih next routed sized

theorem sized_of_below {t : Tree ι κ ρ h} (below : Below lo hi h left t) (some : least ≤ t.items.length)
    (most : t.items.length ≤ hi) : Sized lo hi least h t := by
  induction h generalizing left least with
  | zero => exact ⟨some,most⟩
  | succ h ih =>
    refine ⟨⟨some,most⟩,fun kid member => ?_⟩
    have each (left : Bool) (sound : Sound lo hi left kid) : Sized lo hi lo h kid.2 :=
      ih sound.2.2.2 sound.2.1 sound.2.2.1
    obtain ⟨page,items⟩ := t
    cases items with
    | nil => exact nomatch member
    | cons first rest =>
      rcases List.mem_cons.mp member with rfl | later
      · exact each left below.1
      · exact each false (below.2 kid later)

theorem Root.Sound.sized (sound : r.Sound lo hi) : r.Sized lo hi :=
  sized_of_below sound.2.2.2 sound.2.1 sound.2.2.1

end Sized

/-! ### Inserting a node beside the hole -/

section Graft

variable {fresh : Nat → ι} {least most : Nat}

theorem graft_sized (half : least ≤ (most + 1) / 2) (two : 2 ≤ most) (path : Path ι κ ρ h) (next : Nat)
    {t new : Tree ι κ ρ h} (sized : path.Sized least most) (lower : Sized least most least h t)
    (upper : Sized least most least h new) : (graft fresh (most + 1) next path t key new).1.Sized least most := by
  induction path generalizing next key with
  | top =>
    refine ⟨⟨Nat.le_refl 2,two⟩,?_⟩
    exact List.forall_mem_cons.mpr ⟨lower,List.forall_mem_singleton.mpr upper⟩
  | @up h page before k after rest ih =>
    obtain ⟨siblings,few,many,above⟩ := sized
    obtain ⟨items,shape⟩ : ∃ items, before ++ (k,t) :: (key,new) :: after = items := ⟨_,rfl⟩
    have size : before.length + after.length + 2 = items.length := by
      rw [← shape]; simp; omega
    have kids : ∀ kid ∈ items, Sized least most least h kid.2 := by
      have sides := List.forall_mem_append.mp siblings
      rw [← shape]
      exact List.forall_mem_append.mpr ⟨sides.1,List.forall_mem_cons.mpr ⟨lower,
        List.forall_mem_cons.mpr ⟨upper,sides.2⟩⟩⟩
    by_cases full : items.length = most + 1
    · rw [graft_full next t new key shape full]
      refine ih (next + 1) above ⟨?_,fun kid member => kids kid (List.mem_of_mem_take member)⟩
        ⟨?_,fun kid member => kids kid (List.mem_of_mem_drop member)⟩
      · rw [List.length_take]; omega
      · rw [List.length_drop]; omega
    · rw [graft_room next t new key shape full]
      exact (plug_sized rest _).mpr ⟨above,⟨by dsimp only; omega,by dsimp only; omega⟩,kids⟩

theorem lane_cut {items : List (κ × Tree ι κ ρ h)} {n : Nat} (lane : Lane rank (Routed rank h) lo items hi)
    (positive : 0 < n) (more : n < items.length) :
    ∃ kid rest, items.drop n = kid :: rest ∧
      Lane rank (Routed rank h) lo (items.take n) (some (rank kid.1)) ∧
      Lane rank (Routed rank h) (some (rank kid.1)) (items.drop n) hi := by
  obtain ⟨kid,rest,cut⟩ : ∃ kid rest, items.drop n = kid :: rest :=
    List.exists_cons_of_length_pos (by rw [List.length_drop]; omega)
  have shape := (List.take_append_drop n items).symm
  rw [cut] at shape
  rw [shape] at lane
  obtain ⟨lower,own,upper⟩ := lane_append.mp lane
  have nonempty : (items.take n).isEmpty = false := by
    rw [List.isEmpty_eq_false_iff,← List.length_pos_iff,List.length_take]
    omega
  rw [nonempty,if_neg Bool.false_ne_true] at own
  exact ⟨kid,rest,cut,lower,by rw [cut]; exact ⟨own,upper⟩⟩

theorem leaf_cut (other : ι) {low high : List (κ × ρ)} {first : κ × ρ}
    (routed : Routed rank 0 lo (⟨page,low ++ first :: high⟩ : Tree ι κ ρ 0) hi) (nonempty : low ≠ []) :
    Routed rank 0 lo (⟨page,low⟩ : Tree ι κ ρ 0) (some (rank first.1)) ∧
      Routed rank 0 (some (rank first.1)) (⟨other,first :: high⟩ : Tree ι κ ρ 0) hi := by
  obtain ⟨_,sorted,bounds⟩ := routed
  obtain ⟨lowSorted,highSorted,across⟩ := List.pairwise_append.mp sorted
  obtain ⟨lowBounds,highBounds⟩ := List.forall_mem_append.mp bounds
  have below : ∀ e ∈ low, rank e.1 < rank first.1 := fun e member => across e member first List.mem_cons_self
  have above := (List.pairwise_cons.mp highSorted).1
  refine ⟨⟨fun b bound => ?_,lowSorted,fun e member => ⟨(lowBounds e member).1,lessThan_some.mpr (below e member)⟩⟩,
    ⟨fun b bound => ?_,highSorted,fun e member => ⟨?_,(highBounds e member).2⟩⟩⟩
  · obtain ⟨e,rest,rfl⟩ := List.exists_cons_of_ne_nil nonempty
    have least := (lowBounds e List.mem_cons_self).1 b bound
    exact lessThan_some.mpr (lt_of_le_of_lt least (below e List.mem_cons_self))
  · obtain rfl : rank first.1 = b := Option.some.inj bound
    exact (highBounds first List.mem_cons_self).2
  · rcases List.mem_cons.mp member with rfl | later
    · exact atLeast_some.mpr (le_refl _)
    · exact atLeast_some.mpr (le_of_lt (above e later))

theorem graft_routed {cap : Nat} (path : Path ι κ ρ h) (next : Nat) {t new : Tree ι κ ρ h} (routed : path.Routed rank)
    (lower : Routed rank h (path.low rank) t (some (rank key)))
    (upper : Routed rank h (some (rank key)) new (path.high rank)) :
    (graft fresh cap next path t key new).1.Routed rank := by
  induction path generalizing next key with
  | top => exact ⟨nofun,nofun,lower,upper,trivial⟩
  | @up h page before k after rest ih =>
    obtain ⟨room,label,left,right,above⟩ := routed
    obtain ⟨items,shape⟩ : ∃ items, before ++ (k,t) :: (key,new) :: after = items := ⟨_,rfl⟩
    have lane : Lane rank (Routed rank h) (rest.low rank) items (rest.high rank) := by
      rw [← shape,lane_append]
      exact ⟨left,lower,upper,right⟩
    have named : ∀ b ∈ rest.low rank, firstRank rank items = some b := by
      rw [← shape,firstRank_append]
      exact label
    have size : before.length + after.length + 2 = items.length := by
      rw [← shape]; simp; omega
    by_cases full : items.length = cap
    · rw [graft_full next t new key shape full]
      obtain ⟨kid,others,cut,lowerLane,upperLane⟩ := lane_cut (n := items.length / 2) lane (by omega) (by omega)
      have first : firstKeyD key (⟨fresh next,items.drop (items.length / 2)⟩ : Tree ι κ ρ (h + 1)) = kid.1 := by
        rw [firstKeyD,firstKey,cut]; rfl
      have someLower : items.take (items.length / 2) ≠ [] := by
        rw [← List.length_pos_iff,List.length_take]; omega
      have someUpper : items.drop (items.length / 2) ≠ [] := cut ▸ List.cons_ne_nil _ _
      rw [first]
      refine ih (next + 1) above ⟨lane_room lowerLane someLower,fun b bound => ?_,lowerLane⟩
        ⟨lane_room upperLane someUpper,fun b bound => ?_,upperLane⟩
      · rw [← named b bound,firstRank,firstRank,List.head?_take,if_neg (by omega)]
      · rw [cut]
        exact bound
    · rw [graft_room next t new key shape full]
      exact (plug_routed rest _).mpr ⟨above,room,named,lane⟩

end Graft

end Rucbase.Lib.BTree
