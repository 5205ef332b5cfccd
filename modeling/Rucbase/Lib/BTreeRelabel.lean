import Rucbase.Lib.BTreeRoute

/-! Copying the first label of a node to the nodes above it, as far as it differs, and the two
ways in which neighbouring leaves share their keys: in one leaf, or cut at another key. -/
namespace Rucbase.Lib.BTree

open Rucbase.Lib.BTree.Path
variable {ι κ ρ α β L : Type} {h : Nat}

/-- The first label of a node with the kids `before` in front of the one labelled `key`. -/
def firstLabel (before : List (κ × α)) (key : κ) : κ := (before.head?.map Prod.fst).getD key

@[simp] theorem firstLabel_nil (key : κ) : firstLabel ([] : List (κ × α)) key = key := rfl

theorem upTo_firstLabel (rank : κ → L) (before : List (κ × α)) (key : κ) :
    upTo rank before (some (rank key)) = some (rank (firstLabel before key)) := by
  cases before <;> rfl

theorem firstKey_firstLabel (page : ι) (before : List (κ × β)) (key : κ) (b : β) (after : List (κ × β)) :
    firstKey ⟨page,before ++ (key,b) :: after⟩ = some (firstLabel before key) := by
  cases before <;> rfl

section Relabel

variable [DecidableEq κ]

/-- The hole gets the label `key`, the node above it its own first label, and so on up to a
label that is already right. -/
def Path.relabel : {h : Nat} → Path ι κ ρ h → κ → Path ι κ ρ h
  | _, .top, _ => .top
  | _, .up page before k after rest, key =>
    if k = key then .up page before k after rest
    else .up page before key after (rest.relabel (firstLabel before key))

variable (path : Path ι κ ρ h) (key : κ)

theorem relabel_collectLeft (leaf : Tree ι κ ρ 0 → List β) :
    (path.relabel key).collectLeft leaf = path.collectLeft leaf := by
  induction path generalizing key with
  | top => rfl
  | up page before k after rest ih =>
    rw [relabel]
    split
    · rfl
    · simp only [collectLeft,ih]

theorem relabel_collectRight (leaf : Tree ι κ ρ 0 → List β) :
    (path.relabel key).collectRight leaf = path.collectRight leaf := by
  induction path generalizing key with
  | top => rfl
  | up page before k after rest ih =>
    rw [relabel]
    split
    · rfl
    · simp only [collectRight,ih]

theorem relabel_collect (leaf : Tree ι κ ρ 0 → List β) (t : Tree ι κ ρ h) :
    (plug (path.relabel key) t).collect leaf = (plug path t).collect leaf := by
  rw [plug_collect,plug_collect,relabel_collectLeft,relabel_collectRight]

theorem relabel_least (lo : Nat) : (path.relabel key).least lo = path.least lo := by
  cases path with
  | top => rfl
  | up page before k after rest =>
    rw [relabel]
    split <;> rfl

theorem relabel_sized {lo hi : Nat} : (path.relabel key).Sized lo hi ↔ path.Sized lo hi := by
  induction path generalizing key with
  | top => exact Iff.rfl
  | up page before k after rest ih =>
    rw [relabel]
    split
    · exact Iff.rfl
    · simp only [Path.Sized,ih,relabel_least]

variable {path key}

theorem relabel_high {rank : κ → L} : (path.relabel key).high rank = path.high rank := by
  induction path generalizing key with
  | top => rfl
  | up page before k after rest ih =>
    rw [relabel]
    split
    · rfl
    · simp only [high,ih]

end Relabel

variable {t : Tree ι κ ρ h}

section Order

variable [LinearOrder L] {rank : κ → L} {lo hi wider : Option L}

theorem upTo_widen (wide : ∀ x, LessThan x hi → LessThan x wider) (items : List (κ × α)) :
    ∀ x, LessThan x (upTo rank items hi) → LessThan x (upTo rank items wider) := by
  cases items with
  | nil => exact wide
  | cons kid rest => exact fun _ less => less

theorem lane_widen {items : List (κ × Tree ι κ ρ h)} (wide : ∀ x, LessThan x hi → LessThan x wider)
    (inner : ∀ {lo hi wider : Option L} {t : Tree ι κ ρ h}, (∀ x, LessThan x hi → LessThan x wider) →
      Routed rank h lo t hi → Routed rank h lo t wider) (lane : Lane rank (Routed rank h) lo items hi) :
    Lane rank (Routed rank h) lo items wider := by
  induction items generalizing lo with
  | nil => trivial
  | cons kid rest ih => exact ⟨inner (upTo_widen wide rest) lane.1,ih lane.2⟩

theorem Routed.widen (wide : ∀ x, LessThan x hi → LessThan x wider) (routed : Routed rank h lo t hi) :
    Routed rank h lo t wider := by
  induction h generalizing lo hi wider with
  | zero =>
    exact ⟨fun b bound => wide b (routed.1 b bound),routed.2.1,fun e member =>
      ⟨(routed.2.2 e member).1,wide _ (routed.2.2 e member).2⟩⟩
  | succ h ih =>
    exact ⟨fun b bound => wide b (routed.1 b bound),routed.2.1,lane_widen wide (fun wide => ih wide) routed.2.2⟩
section Neighbours

variable {page : ι} {before after : List (κ × Tree ι κ ρ 0)} {leftKey rightKey : κ} {rest : Path ι κ ρ 1}
  {left right : Tree ι κ ρ 0}

theorem leaf_join {middle : L} (lower : Routed rank 0 lo left (some middle)) (upper : Routed rank 0 (some middle) right hi)
    (page : ι) : Routed rank 0 lo (⟨page,left.items ++ right.items⟩ : Tree ι κ ρ 0) hi := by
  obtain ⟨lowerRoom,lowerSorted,lowerBounds⟩ := lower
  obtain ⟨upperRoom,upperSorted,upperBounds⟩ := upper
  have middleLess : LessThan middle hi := upperRoom _ rfl
  refine ⟨lowerRoom.trans middleLess,List.pairwise_append.mpr ⟨lowerSorted,upperSorted,fun a inLeft b inRight => ?_⟩,
    List.forall_mem_append.mpr ⟨fun e member => ?_,fun e member => ?_⟩⟩
  · exact lt_of_lt_of_le (lessThan_some.mp (lowerBounds a inLeft).2) (atLeast_some.mp (upperBounds b inRight).1)
  · obtain ⟨least,less⟩ := lowerBounds e member
    exact ⟨least,middleLess.trans (le_of_lt (lessThan_some.mp less))⟩
  · obtain ⟨least,less⟩ := upperBounds e member
    refine ⟨fun b bound => ?_,less⟩
    exact le_trans (le_of_lt (lessThan_some.mp (lowerRoom b bound))) (atLeast_some.mp least)

variable (routed : (up page before leftKey ((rightKey,right) :: after) rest).Routed rank)
  (range : Routed rank 0 ((up page before leftKey ((rightKey,right) :: after) rest).low rank) left
    ((up page before leftKey ((rightKey,right) :: after) rest).high rank))

include routed range

theorem neighbours_joined (place : ι) : (up page before leftKey after rest).Routed rank ∧
    Routed rank 0 ((up page before leftKey after rest).low rank)
      (⟨place,left.items ++ right.items⟩ : Tree ι κ ρ 0) ((up page before leftKey after rest).high rank) := by
  obtain ⟨room,label,lane,⟨own,others⟩,upper⟩ := routed
  exact ⟨⟨room,label,lane,others,upper⟩,leaf_join range own place⟩

theorem neighbours_cut {low : List (κ × ρ)} {first : κ × ρ} {high : List (κ × ρ)}
    (same : left.items ++ right.items = low ++ first :: high) (nonempty : low ≠ []) (leftPage rightPage : ι) :
    (up page (before ++ [(leftKey,⟨leftPage,low⟩)]) first.1 after rest).Routed rank ∧
      Routed rank 0 (some (rank first.1)) (⟨rightPage,first :: high⟩ : Tree ι κ ρ 0)
        ((up page before leftKey after rest).high rank) := by
  obtain ⟨⟨room,label,lane,others,upper⟩,joined⟩ := neighbours_joined routed range leftPage
  rw [same] at joined
  obtain ⟨lower,second⟩ := leaf_cut rightPage joined nonempty
  refine ⟨⟨room,fun b bound => ?_,?_,others,upper⟩,second⟩
  · rw [upTo_append]
    exact label b bound
  · exact lane_append.mpr ⟨lane,lower,trivial⟩

end Neighbours

omit [LinearOrder L] in
theorem map_const_same {bound : Option L} {x : L} (own : ∀ b ∈ bound, b = x) : bound.map (fun _ => x) = bound := by
  cases bound with
  | none => rfl
  | some b => rw [own b rfl]; rfl

theorem routed_first {key : κ} (routed : Routed rank h lo t hi) (named : firstKey t = some key) :
    (∀ b ∈ lo, b ≤ rank key ∧ LessThan (rank key) hi) ∧ Routed rank h (lo.map fun _ => rank key) t hi := by
  obtain ⟨value,rest,items⟩ := firstKey_split named
  cases h with
  | zero =>
    obtain ⟨room,sorted,bounds⟩ := routed
    obtain ⟨least,less⟩ := bounds (key,value) (items ▸ List.mem_cons_self)
    refine ⟨fun b bound => ⟨least b bound,less⟩,fun x bound => ?_,sorted,fun e member => ⟨fun x bound => ?_,(bounds e member).2⟩⟩
    · obtain ⟨b,_,rfl⟩ := Option.map_eq_some_iff.mp bound
      exact less
    · obtain ⟨b,_,rfl⟩ := Option.map_eq_some_iff.mp bound
      rw [items] at sorted member
      rcases List.mem_cons.mp member with rfl | later
      · exact le_refl _
      · exact le_of_lt ((List.pairwise_cons.mp sorted).1 e later)
  | succ h =>
    have own : ∀ b ∈ lo, b = rank key := fun b bound => by
      have label := routed.2.1 b bound
      rw [items] at label
      exact (Option.some.inj label).symm
    refine ⟨fun b bound => ⟨le_of_eq (own b bound),own b bound ▸ routed.1 b bound⟩,?_⟩
    rw [map_const_same own]
    exact routed

/-! Relabelling keeps the way down. -/

variable [DecidableEq κ] {path : Path ι κ ρ h} {key : κ}

theorem relabel_low (routed : path.Routed rank) :
    (path.relabel key).low rank = (path.low rank).map fun _ => rank key := by
  induction path generalizing key with
  | top => rfl
  | up page before k after rest ih =>
    obtain ⟨_,label,_,_,upper⟩ := routed
    rw [relabel]
    split
    · rename_i same
      subst same
      cases before with
      | nil =>
        change rest.low rank = (rest.low rank).map _
        cases bound : rest.low rank with
        | none => rfl
        | some b => exact (label b bound).symm
      | cons kid before => rfl
    · cases before with
      | nil => exact ih upper
      | cons kid before => rfl

section Above

variable {page : ι} {before after : List (κ × Tree ι κ ρ h)} {rest : Path ι κ ρ (h + 1)}
  (routed : (up page before key after rest).Routed rank)

include routed

omit [DecidableEq κ] in
theorem own_label : ∀ b ∈ rest.low rank, b = rank (firstLabel before key) := fun b bound => by
  have own := routed.2.1 b bound
  rw [upTo_firstLabel] at own
  exact (Option.some.inj own).symm

theorem relabel_above_low : (rest.relabel (firstLabel before key)).low rank = rest.low rank := by
  rw [relabel_low routed.2.2.2.2]
  exact map_const_same (own_label routed)

/-- The node above a hole that has its label has its own label too, as far as it needs one. -/
theorem relabel_above (again : ∀ {key : κ}, rest.Routed rank →
      (∀ b ∈ rest.low rank, b ≤ rank key ∧ LessThan (rank key) (rest.high rank)) → (rest.relabel key).Routed rank) :
    (up page before key after (rest.relabel (firstLabel before key))).Routed rank := by
  have low := relabel_above_low routed
  have own := own_label routed
  obtain ⟨room,label,left,right,upper⟩ := routed
  have fits := again upper fun b bound => ⟨le_of_eq (own b bound),own b bound ▸ room b bound⟩
  rw [Path.Routed,low,relabel_high]
  exact ⟨room,label,left,right,fits⟩

end Above

theorem relabel_routed (routed : path.Routed rank)
    (fits : ∀ b ∈ path.low rank, b ≤ rank key ∧ LessThan (rank key) (path.high rank)) :
    (path.relabel key).Routed rank := by
  induction path generalizing key with
  | top => trivial
  | up page before k after rest ih =>
    rw [relabel]
    split
    · exact routed
    · cases before with
      | nil =>
        obtain ⟨room,label,_,right,upper⟩ := routed
        have outer : ∀ b ∈ rest.low rank, b ≤ rank key ∧ LessThan (rank key) (rest.high rank) := fun b bound => by
          obtain ⟨least,less⟩ := fits b bound
          refine ⟨least,?_⟩
          cases after with
          | nil => exact less
          | cons kid after =>
            exact (lane_room right (List.cons_ne_nil _ _) _ rfl).trans (le_of_lt (lessThan_some.mp less))
        rw [Path.Routed,firstLabel_nil,relabel_high,relabel_low upper]
        refine ⟨fun x bound => ?_,fun x bound => ?_,trivial,right,ih upper outer⟩
        · obtain ⟨b,inner,rfl⟩ := Option.map_eq_some_iff.mp bound
          exact (outer b inner).2
        · obtain ⟨b,inner,rfl⟩ := Option.map_eq_some_iff.mp bound
          rfl
      | cons kid before =>
        obtain ⟨room,label,left,right,upper⟩ := routed
        have larger : rank k ≤ rank key := (fits _ rfl).1
        refine relabel_above ⟨room,label,?_,right,upper⟩ fun upper fits => ih upper fits
        exact lane_widen (fun x less => lessThan_some.mpr (lt_of_lt_of_le (lessThan_some.mp less) larger))
          Routed.widen left

theorem plug_relabel_routed (routed : (plug path t).Routed rank) (named : firstKey t = some key) :
    (plug (path.relabel key) t).Routed rank := by
  obtain ⟨around,range⟩ := (plug_routed path t).mp routed
  obtain ⟨fits,again⟩ := routed_first range named
  refine (plug_routed _ t).mpr ⟨relabel_routed around fits,?_⟩
  rw [relabel_low around,relabel_high]
  exact again

/-- A node whose right label is `key` copies it up, whatever its label was. -/
theorem plug_relabel_label {page : ι} {before after : List (κ × Tree ι κ ρ h)} {rest : Path ι κ ρ (h + 1)} (k : κ)
    (routed : (plug (.up page before key after rest) t).Routed rank) :
    (plug ((up page before k after rest).relabel key) t).Routed rank := by
  rw [relabel]
  split
  · rename_i same
    exact same ▸ routed
  · obtain ⟨around,range⟩ := (plug_routed (.up page before key after rest) t).mp routed
    refine (plug_routed (.up page before key after (rest.relabel (firstLabel before key))) t).mpr
      ⟨relabel_above around relabel_routed,?_⟩
    rw [high,relabel_high,low,relabel_above_low around]
    exact range

theorem plug_relabel_sized {least most : Nat} :
    (plug (path.relabel key) t).Sized least most ↔ (plug path t).Sized least most := by
  rw [plug_sized,plug_sized,relabel_sized,relabel_least]

end Order

end Rucbase.Lib.BTree
