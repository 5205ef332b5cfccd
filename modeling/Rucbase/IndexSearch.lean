import Rucbase.IndexTree

/-! Searching the index tree: the binary searches inside a node, and the way down to the leaf
that may hold a key. -/
namespace Rucbase

open Lib Lib.BTree IxNode

variable {κ L : Type} [LinearOrder L]

/-- The comparison orders these keys by their rank. -/
structure Ranked (cmp : κ → κ → Int) (rank : κ → L) (proper : κ → Prop) : Prop where
  lt : ∀ {a b}, proper a → proper b → (cmp a b < 0 ↔ rank a < rank b)
  gt : ∀ {a b}, proper a → proper b → (cmp a b > 0 ↔ rank b < rank a)

theorem Ranked.eq {cmp : κ → κ → Int} {rank : κ → L} {proper : κ → Prop} (ranked : Ranked cmp rank proper) {a b : κ}
    (properA : proper a) (properB : proper b) : cmp a b = 0 ↔ rank a = rank b := by
  have below := ranked.lt properA properB
  have isOver := ranked.gt properA properB
  constructor
  · intro same
    apply le_antisymm
    · exact not_lt.mp fun less => absurd (isOver.mpr less) (by omega)
    · exact not_lt.mp fun less => absurd (below.mpr less) (by omega)
  · intro same
    have notBelow : ¬cmp a b < 0 := fun less => (below.mp less).ne same
    have notOver : ¬cmp a b > 0 := fun more => (isOver.mp more).ne' same
    omega

/-- It does so between a key and the keys of a node. -/
structure Agrees (cmp : κ → κ → Int) (rank : κ → L) (key : κ) (node : IxNode κ) : Prop where
  lt : ∀ e ∈ node.pairs, cmp e.1 key < 0 ↔ rank e.1 < rank key
  gt : ∀ e ∈ node.pairs, cmp e.1 key > 0 ↔ rank key < rank e.1
  eq : ∀ e ∈ node.pairs, cmp e.1 key = 0 ↔ rank e.1 = rank key

theorem Ranked.agrees {cmp : κ → κ → Int} {rank : κ → L} {proper : κ → Prop} (ranked : Ranked cmp rank proper)
    {key : κ} {node : IxNode κ} (searched : proper key) (held : ∀ e ∈ node.pairs, proper e.1) :
    Agrees cmp rank key node :=
  ⟨fun e member => ranked.lt (held e member) searched,fun e member => ranked.gt (held e member) searched,
    fun e member => ranked.eq (held e member) searched⟩

/-! Positions inside a node, whatever the comparison answers. -/
namespace IxNode

variable {cmp : κ → κ → Int} {key : κ} {node : IxNode κ}

theorem insertPos_le {pos : Nat} (found : node.insertPos cmp key = some pos) : pos ≤ node.size := by
  simp only [insertPos,Option.ite_none_right_eq_some,Option.some.injEq] at found
  rw [← found.2]
  exact (bisect_bounds _ (Nat.zero_le _)).2

theorem pairs_cut {pos : Nat} (inside : pos < node.pairs.length) :
    node.pairs = node.pairs.take pos ++ node.pairs[pos] :: node.pairs.drop (pos + 1) := by
  rw [← List.drop_eq_getElem_cons inside,List.take_append_drop]

theorem removePos_cut {pos : Nat} (found : node.removePos cmp key = some pos) :
    ∃ low e high, node.pairs = low ++ e :: high ∧ pos = low.length := by
  simp only [removePos,Option.ite_none_right_eq_some,Option.some.injEq,Option.any_eq_true] at found
  obtain ⟨⟨e,there,_⟩,rfl⟩ := found
  obtain ⟨inside,_⟩ := List.getElem?_eq_some_iff.mp there
  refine ⟨_,_,_,pairs_cut inside,?_⟩
  rw [List.length_take]
  omega

theorem internalLookup_some (cmp : κ → κ → Int) (key : κ) (filled : node.pairs ≠ []) :
    ∃ low pair high, node.pairs = low ++ pair :: high ∧ node.internalLookup cmp key = some pair.2.pageNo := by
  have positive : 1 ≤ node.size := List.length_pos_iff.mpr filled
  obtain ⟨least,most⟩ := bisect_bounds
    (fun i => (node.pairs[i]?).any fun pair => !decide (cmp pair.1 key > 0)) positive
  obtain ⟨i,index⟩ : ∃ i, node.upperBound cmp key - 1 = i := ⟨_,rfl⟩
  have inside : i < node.pairs.length := by
    rw [← index]
    exact Nat.sub_one_lt_of_le least most
  refine ⟨_,_,_,pairs_cut inside,?_⟩
  rw [internalLookup,index,List.getElem?_eq_getElem inside]
  rfl

end IxNode

namespace Agrees

variable {cmp : κ → κ → Int} {rank : κ → L} {key : κ} {node : IxNode κ} (agrees : Agrees cmp rank key node)

include agrees

theorem lowerBound_eq {low high : List (κ × Rid)} (pairs : node.pairs = low ++ high) (below : AllBelow rank key low)
    (rest : ∀ e ∈ high, ¬rank e.1 < rank key) :
    node.lowerBound cmp key = low.length := by
  have compared := agrees.lt
  rw [pairs] at compared
  have found := bisect_append (fun pair : κ × Rid => decide (cmp pair.1 key < 0)) []
    (fun e member => decide_eq_true ((compared e (List.mem_append_left _ member)).mpr (below e member)))
    (fun e member => decide_eq_false fun less =>
      rest e member ((compared e (List.mem_append_right _ member)).mp less))
  simpa [lowerBound,size,pairs] using found

section Leaf

variable {low high : List (κ × Rid)} (below : AllBelow rank key low)

include below

section Present

variable {k : κ} {value : Rid} (pairs : node.pairs = low ++ (k,value) :: high) (same : rank k = rank key)
  (sorted : Sorted rank node.pairs)

include pairs same sorted

theorem lowerBound_present : node.lowerBound cmp key = low.length := by
  apply agrees.lowerBound_eq pairs below
  rw [pairs] at sorted
  have later := (List.pairwise_cons.mp (List.pairwise_append.mp sorted).2.1).1
  refine List.forall_mem_cons.mpr ⟨not_lt.mpr (le_of_eq same.symm),fun e member => ?_⟩
  exact not_lt.mpr (same ▸ le_of_lt (later e member))

theorem insertPos_present : node.insertPos cmp key = none := by
  have equal := (agrees.eq _ (pairs ▸ List.mem_append_right _ List.mem_cons_self)).mpr same
  simp [insertPos,agrees.lowerBound_present below pairs same sorted,size,pairs,equal]

theorem leafLookup_present : node.leafLookup cmp key = some value := by
  have equal := (agrees.eq _ (pairs ▸ List.mem_append_right _ List.mem_cons_self)).mpr same
  simp [leafLookup,agrees.lowerBound_present below pairs same sorted,pairs,equal]

theorem removePos_present : node.removePos cmp key = some low.length := by
  have equal := (agrees.eq _ (pairs ▸ List.mem_append_right _ List.mem_cons_self)).mpr same
  simp [removePos,agrees.lowerBound_present below pairs same sorted,pairs,equal]

end Present

section Absent

variable (pairs : node.pairs = low ++ high) (above : AllAbove rank key high)

include pairs above

theorem lowerBound_absent : node.lowerBound cmp key = low.length :=
  agrees.lowerBound_eq pairs below fun e member => not_lt.mpr (le_of_lt (above e member))

theorem insertPos_absent : node.insertPos cmp key = some low.length := by
  have position := agrees.lowerBound_absent below pairs above
  cases high with
  | nil => simp [insertPos,position,size,pairs]
  | cons e high =>
    have larger : cmp e.1 key > 0 := (agrees.gt e (pairs ▸ List.mem_append_right _ List.mem_cons_self)).mpr (above e List.mem_cons_self)
    simp [insertPos,position,size,pairs,larger]

theorem removePos_absent : node.removePos cmp key = none := by
  have position := agrees.lowerBound_absent below pairs above
  cases high with
  | nil => simp [removePos,position,pairs]
  | cons e high =>
    have larger := (agrees.gt e (pairs ▸ List.mem_append_right _ List.mem_cons_self)).mpr (above e List.mem_cons_self)
    simp [removePos,position,pairs]
    omega

theorem leafLookup_absent : node.leafLookup cmp key = none := by
  have position := agrees.lowerBound_absent below pairs above
  cases high with
  | nil => simp [leafLookup,position,pairs]
  | cons e high =>
    have other : cmp e.1 key ≠ 0 := fun equal =>
      ne_of_gt (above e List.mem_cons_self)
        ((agrees.eq _ (pairs ▸ List.mem_append_right _ List.mem_cons_self)).mp equal)
    simp [leafLookup,position,pairs,other]

end Absent

end Leaf

/-- `upper_bound` passes over the first pair without looking at it. -/
theorem upperBound_eq {first : κ × Rid} {low high : List (κ × Rid)} (pairs : node.pairs = first :: (low ++ high))
    (below : ∀ e ∈ low, rank e.1 ≤ rank key) (above : AllAbove rank key high) :
    node.upperBound cmp key = low.length + 1 := by
  have compared := agrees.gt
  rw [pairs] at compared
  have found := bisect_append (fun pair : κ × Rid => !decide (cmp pair.1 key > 0)) [first]
    (fun e member => by
      simpa [compared e (List.mem_cons_of_mem _ (List.mem_append_left _ member))] using below e member)
    (fun e member => by
      simpa [compared e (List.mem_cons_of_mem _ (List.mem_append_right _ member))] using above e member)
  rw [Nat.add_comm]
  simpa [upperBound,size,pairs] using found

/-- The search goes down to the last pair whose key is not larger, or to the first one. -/
theorem internalLookup_eq {before after : List (κ × Rid)} {pair : κ × Rid}
    (pairs : node.pairs = before ++ pair :: after) (below : ∀ e ∈ (before ++ [pair]).tail, rank e.1 ≤ rank key)
    (above : AllAbove rank key after) :
    node.internalLookup cmp key = some pair.2.pageNo := by
  obtain ⟨first,low,cut⟩ : ∃ first low, before ++ [pair] = first :: low :=
    List.exists_cons_of_ne_nil (by simp)
  have whole : node.pairs = first :: (low ++ after) := by
    rw [pairs,← List.cons_append,← cut]; simp
  rw [cut] at below
  have size : low.length = before.length := by
    have := congrArg List.length cut
    simpa using this.symm
  rw [internalLookup,agrees.upperBound_eq whole below above,Nat.add_sub_cancel,size,pairs]
  simp

end Agrees

namespace IndexTree

open IxIndexHandle
open IndexFile (store)

variable {cmp : κ → κ → Int} {rank : κ → L} {proper : κ → Prop} {s : IndexFile κ} {h lo hi : Nat}

theorem forall_pointers {P : κ → Prop} {items : List (κ × IxTree κ h)} (all : ∀ kid ∈ items, P kid.1) :
    ∀ pair ∈ pointers items, P pair.1 := List.forall_mem_map.mpr all

theorem lookup_pointers {key : κ} {node : IxNode κ} (agrees : Agrees cmp rank key node)
    {before after : List (κ × IxTree κ h)} {k : κ} {kid : IxTree κ h} (pairs : node.pairs = pointers (before ++ (k,kid) :: after))
    (small : ∀ e ∈ (before ++ [(k,kid)]).tail, rank e.1 ≤ rank key) (large : AllAbove rank key after) :
    node.internalLookup cmp key = some kid.page := by
  have cut : node.pairs = pointers before ++ (k,⟨kid.page,-1⟩) :: pointers after := by
    rw [pairs,pointers_append]; rfl
  apply agrees.internalLookup_eq cut
  · have whole : pointers before ++ [(k,(⟨kid.page,-1⟩ : Rid))] = pointers (before ++ [(k,kid)]) := by
      rw [pointers_append]; rfl
    rw [whole,pointers,← List.map_tail]
    exact forall_pointers (P := fun label => rank label ≤ rank key) small
  · exact forall_pointers (P := fun label => rank key < rank label) large

end IndexTree

end Rucbase
