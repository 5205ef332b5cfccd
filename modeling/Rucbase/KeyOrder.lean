import Rucbase.ColumnValues
import Mathlib.Order.Bounds.Basic

/-! The keys of an index of INT and CHAR columns: `ix_compare` puts them into the order of the
values they stand for, and the two searches of a node find the place of a key in that order. -/
namespace Rucbase

open Lib

/-- The columns are INT, of four bytes, and CHAR of any length. -/
def IxCols.IntChar (cols : IxCols) : Prop := ∀ col ∈ cols, col = (.int,4) ∨ col.1 = .string

instance (cols : IxCols) : Decidable cols.IntChar := inferInstanceAs (Decidable (∀ col ∈ cols, _ ∨ _))

/-- The values of a key, column by column. -/
def keyValues : IxCols → List Byte → List Value
  | [], _ => []
  | (type,len) :: cols, key => type.decode (key.take len) :: keyValues cols (key.drop len)

def ValuesLess : List Value → List Value → Prop := List.Lex fun x y => x.less y = true

theorem Value.less_self (value : Value) : value.less value = false := by
  cases value <;> simp [Value.less,floatLt]

section Column

variable {type : ColType} {len : Nat} {a b : List Byte}

theorem bytesInt_inj (sizeA : a.length = 4) (sizeB : b.length = 4) (same : bytesInt a = bytesInt b) : a = b := by
  obtain ⟨a0,a1,a2,a3,rfl⟩ := List.length_eq_four.mp sizeA
  obtain ⟨b0,b1,b2,b3,rfl⟩ := List.length_eq_four.mp sizeB
  have small (x : Byte) : x.toNat < 256 := x.toNat_lt
  have := small a0; have := small a1; have := small a2; have := small a3
  have := small b0; have := small b1; have := small b2; have := small b3
  simp only [bytesInt,List.foldr_cons,List.foldr_nil] at same
  have digits : a0.toNat = b0.toNat ∧ a1.toNat = b1.toNat ∧ a2.toNat = b2.toNat ∧ a3.toNat = b3.toNat := by
    split_ifs at same <;> omega
  simpa [← UInt8.toNat_inj] using digits

theorem decode_inj (intChar : (type,len) = (.int,4) ∨ type = .string) (insideA : len ≤ a.length) (insideB : len ≤ b.length)
    (same : type.decode (a.take len) = type.decode (b.take len)) : a.take len = b.take len := by
  rcases intChar with int | rfl
  · obtain ⟨rfl,rfl⟩ := Prod.mk.inj int
    refine bytesInt_inj ?_ ?_ (Value.int.inj same)
    · rw [List.length_take,Nat.min_eq_left insideA]
    · rw [List.length_take,Nat.min_eq_left insideB]
  · exact Value.str.inj same

theorem ixCompareCol_zero (intChar : (type,len) = (.int,4) ∨ type = .string) (insideA : len ≤ a.length)
    (insideB : len ≤ b.length) (equal : ixCompareCol type len a b = 0) : a.take len = b.take len := by
  have number : type = .float → False := by
    rintro rfl
    simp at intChar
  have ranks := ixCompareCol_eq ⟨insideA,fun float => (number float).elim⟩ ⟨insideB,fun float => (number float).elim⟩ equal
  apply decode_inj intChar insideA insideB
  rcases intChar with int | rfl
  · obtain ⟨rfl,rfl⟩ := Prod.mk.inj int
    simpa [colRank,ColType.decode] using ranks
  · have bytes := List.map_injective_iff.mpr (fun x y same => UInt8.toNat_inj.mp (Int.ofNat.inj same)) ranks
    rw [bytes]

end Column

section Keys

variable {cols : IxCols} {a b c : List Byte}

theorem IxCols.IntChar.isKey (columns : cols.IntChar) (size : a.length = cols.totLen) : IsKey cols a := by
  refine ⟨size,?_⟩
  clear size
  induction cols generalizing a with
  | nil => rfl
  | cons col cols ih =>
    obtain ⟨first,rest⟩ := List.forall_mem_cons.mp columns
    have number : col.1 ≠ .float := by
      rcases first with rfl | string
      · decide
      · simp [string]
    simpa [noNaN,number] using ih rest

section Compare

variable (columns : cols.IntChar) (sizeA : a.length = cols.totLen) (sizeB : b.length = cols.totLen)

include columns sizeA sizeB

theorem IxCols.IntChar.compare_less :
    ixCompare cols a b < 0 ↔ ValuesLess (keyValues cols a) (keyValues cols b) := by
  induction cols generalizing a b with
  | nil => simp [ixCompare,keyValues,ValuesLess]
  | cons col cols ih =>
    obtain ⟨type,len⟩ := col
    obtain ⟨first,rest⟩ := List.forall_mem_cons.mp columns
    obtain ⟨⟨insideA,_⟩,restA⟩ := isKey_cons (columns.isKey sizeA)
    obtain ⟨⟨insideB,_⟩,restB⟩ := isKey_cons (columns.isKey sizeB)
    have sized : type ≠ .string → len = 4 := fun number => (Prod.mk.inj (first.resolve_right number)).2
    have less := ixCompareCol_less sized insideA insideB
    rw [ixCompare,keyValues,keyValues,ValuesLess,List.cons_lex_cons_iff,← ValuesLess,← ih rest restA.1 restB.1,← less]
    by_cases decided : ixCompareCol type len a b = 0
    · have same := ixCompareCol_zero first insideA insideB decided
      simp [decided,same]
    · have apart : type.decode (a.take len) ≠ type.decode (b.take len) := by
        intro same
        have more := ixCompareCol_less sized insideB insideA
        rw [same,Value.less_self] at less more
        rw [ixCompareCol_swap] at more
        simp only [Bool.false_eq_true,iff_false] at less more
        omega
      simp [decided,apart]

theorem IxCols.IntChar.compare_zero :
    ixCompare cols a b = 0 ↔ a = b := by
  refine ⟨fun equal => ?_,fun same => same ▸ ixCompare_self cols a⟩
  induction cols generalizing a b with
  | nil => exact List.length_eq_zero_iff.mp sizeA ▸ (List.length_eq_zero_iff.mp sizeB).symm
  | cons col cols ih =>
    obtain ⟨type,len⟩ := col
    obtain ⟨first,rest⟩ := List.forall_mem_cons.mp columns
    obtain ⟨⟨insideA,_⟩,restA⟩ := isKey_cons (columns.isKey sizeA)
    obtain ⟨⟨insideB,_⟩,restB⟩ := isKey_cons (columns.isKey sizeB)
    rw [ixCompare] at equal
    by_cases decided : ixCompareCol type len a b = 0
    · have front := ixCompareCol_zero first insideA insideB decided
      have back := ih rest restA.1 restB.1 (by simpa [decided] using equal)
      rw [← List.take_append_drop len a,front,back,List.take_append_drop]
    · simp [decided] at equal

theorem IxCols.IntChar.compare_le :
    ixCompare cols a b ≤ 0 ↔ keyRank cols a ≤ keyRank cols b := by
  rw [← not_lt,← not_lt]
  exact not_congr (ixCompare_gt (columns.isKey sizeA) (columns.isKey sizeB))

theorem IxCols.IntChar.compare_trans (sizeC : c.length = cols.totLen) (first : ixCompare cols a b ≤ 0) (second : ixCompare cols b c ≤ 0) :
    ixCompare cols a c ≤ 0 := by
  rw [columns.compare_le sizeA sizeB] at first
  rw [columns.compare_le sizeB sizeC] at second
  rw [columns.compare_le sizeA sizeC]
  exact first.trans second

theorem IxCols.IntChar.compare_lt_trans (sizeC : c.length = cols.totLen) (first : ixCompare cols a b < 0) (second : ixCompare cols b c < 0) :
    ixCompare cols a c < 0 := by
  rw [ixCompare_lt (columns.isKey sizeA) (columns.isKey sizeB)] at first
  rw [ixCompare_lt (columns.isKey sizeB) (columns.isKey sizeC)] at second
  rw [ixCompare_lt (columns.isKey sizeA) (columns.isKey sizeC)]
  exact first.trans second

end Compare

/-- `ix_compare` is a total order on the keys: equal keys are equal byte for byte, and the order is the
lexicographic one of the values in the columns. -/
theorem ixCompare_total_order (cols : IxCols) (columns : cols.IntChar) (a b c : List Byte) (sizeA : a.length = cols.totLen)
    (sizeB : b.length = cols.totLen) (sizeC : c.length = cols.totLen) :
    ixCompare cols a a = 0 ∧ (ixCompare cols a b).sign = -(ixCompare cols b a).sign ∧
    (ixCompare cols a b ≤ 0 → ixCompare cols b c ≤ 0 → ixCompare cols a c ≤ 0) ∧
    (ixCompare cols a b = 0 ↔ a = b) ∧
    (ixCompare cols a b < 0 ↔ ValuesLess (keyValues cols a) (keyValues cols b)) := by
  refine ⟨ixCompare_self cols a,?_,columns.compare_trans sizeA sizeB sizeC,columns.compare_zero sizeA sizeB,
    columns.compare_less sizeA sizeB⟩
  rw [ixCompare_swap cols b a,Int.sign_neg]

/-- An INT before a CHAR(2): the number decides, whatever bytes follow. -/
theorem intThenChar_ordered : ixCompare [(.int,4),(.string,2)] [255,255,255,255,98,0] [0,0,0,0,97,0] < 0 ∧
    ValuesLess [.int (-1),.str [98,0]] [.int 0,.str [97,0]] := by
  have ordered := ixCompare_total_order [(.int,4),(.string,2)] (by decide) [255,255,255,255,98,0] [0,0,0,0,97,0] [0,0,0,0,97,0]
    rfl rfl rfl
  have less : ixCompare [(.int,4),(.string,2)] [255,255,255,255,98,0] [0,0,0,0,97,0] < 0 := by decide
  exact ⟨less,ordered.2.2.2.2.mp less⟩

end Keys

section Search

variable {cols : IxCols} {node : IxNode (List Byte)} {target : List Byte}

def Increasing (cols : IxCols) (pairs : List (List Byte × Rid)) : Prop :=
  pairs.Pairwise fun x y => ixCompare cols x.1 y.1 < 0

instance (cols : IxCols) (pairs : List (List Byte × Rid)) : Decidable (Increasing cols pairs) :=
  inferInstanceAs (Decidable (List.Pairwise _ _))

theorem Increasing.at {pairs : List (List Byte × Rid)} (increasing : Increasing cols pairs) {i j : Nat} {x y : List Byte × Rid}
    (order : i < j) (first : pairs[i]? = some x) (second : pairs[j]? = some y) : ixCompare cols x.1 y.1 < 0 := by
  obtain ⟨insideI,rfl⟩ := List.getElem?_eq_some_iff.mp first
  obtain ⟨insideJ,rfl⟩ := List.getElem?_eq_some_iff.mp second
  exact List.pairwise_iff_getElem.mp increasing i j insideI insideJ order

/-- The test of `lower_bound`: is the key at `i` smaller than the target? -/
def smallerAt (cols : IxCols) (node : IxNode (List Byte)) (target : List Byte) (i : Nat) : Bool :=
  (node.pairs[i]?).any fun pair => ixCompare cols pair.1 target < 0

/-- The test of `upper_bound`: is the key at `i` not greater than the target? -/
def notGreaterAt (cols : IxCols) (node : IxNode (List Byte)) (target : List Byte) (i : Nat) : Bool :=
  (node.pairs[i]?).any fun pair => !decide (ixCompare cols pair.1 target > 0)

variable (columns : cols.IntChar) (keys : ∀ pair ∈ node.pairs, pair.1.length = cols.totLen)
  (size : target.length = cols.totLen)
include columns keys size

theorem lowerBound_cut (increasing : Increasing cols node.pairs) {i : Nat} (inside : i < node.size) :
    smallerAt cols node target i = true ↔ i < node.lowerBound (ixCompare cols) target := by
  refine bisect_cut (Nat.zero_le _) (fun a b _ order high smaller => ?_) (Nat.zero_le i) inside
  obtain rfl | less := Nat.eq_or_lt_of_le order
  · exact smaller
  obtain ⟨later,foundLater,smaller⟩ := (Option.any_eq_true _ _).mp smaller
  obtain ⟨earlier,foundEarlier⟩ : ∃ pair, node.pairs[a]? = some pair := ⟨_,List.getElem?_eq_getElem (by simp [IxNode.size] at high; omega)⟩
  have first := increasing.at less foundEarlier foundLater
  have reached := columns.compare_lt_trans (keys _ (List.mem_of_getElem? foundEarlier))
    (keys _ (List.mem_of_getElem? foundLater)) size first (by simpa using smaller)
  simpa [smallerAt,foundEarlier] using reached

/-- The first key is not looked at, so only the others have to be in order. -/
theorem upperBound_cut (filled : 1 ≤ node.size) (increasing : Increasing cols node.pairs.tail) {i : Nat} (low : 1 ≤ i)
    (inside : i < node.size) : notGreaterAt cols node target i = true ↔ i < node.upperBound (ixCompare cols) target := by
  refine bisect_cut filled (fun a b first order high notGreater => ?_) low inside
  obtain rfl | less := Nat.eq_or_lt_of_le order
  · exact notGreater
  obtain ⟨later,foundLater,notGreater⟩ := (Option.any_eq_true _ _).mp notGreater
  obtain ⟨earlier,foundEarlier⟩ : ∃ pair, node.pairs[a]? = some pair := ⟨_,List.getElem?_eq_getElem (by simp [IxNode.size] at high; omega)⟩
  have between : ixCompare cols earlier.1 later.1 < 0 := by
    refine increasing.at (i := a - 1) (j := b - 1) (by omega) ?_ ?_
    · rw [List.getElem?_tail,Nat.sub_add_cancel first,foundEarlier]
    · rw [List.getElem?_tail,Nat.sub_add_cancel (by omega),foundLater]
  have reached := columns.compare_trans (keys _ (List.mem_of_getElem? foundEarlier))
    (keys _ (List.mem_of_getElem? foundLater)) size (le_of_lt between) (by simpa using notGreater)
  simpa [notGreaterAt,foundEarlier] using reached

theorem lowerBound_least (increasing : Increasing cols node.pairs) :
    IsLeast {i | i = node.size ∨ ∃ pair, node.pairs[i]? = some pair ∧ 0 ≤ ixCompare cols pair.1 target}
      (node.lowerBound (ixCompare cols) target) := by
  have cut {i : Nat} (inside : i < node.size) := lowerBound_cut columns keys size increasing inside
  have bound : node.lowerBound (ixCompare cols) target ≤ node.size := (bisect_bounds _ (Nat.zero_le _)).2
  constructor
  · obtain last | inside := Nat.eq_or_lt_of_le bound
    · exact .inl last
    · have found := List.getElem?_eq_getElem inside
      have stops := (cut inside).not.mpr (Nat.lt_irrefl _)
      exact .inr ⟨_,found,by simpa [smallerAt,found] using stops⟩
  · rintro i (rfl | ⟨pair,found,reached⟩)
    · exact bound
    · obtain ⟨inside,_⟩ := List.getElem?_eq_some_iff.mp found
      exact Nat.le_of_not_lt ((cut inside).not.mp (by simpa [smallerAt,found] using reached))

theorem internalLookup_greatest (filled : 1 ≤ node.size) (increasing : Increasing cols node.pairs.tail) :
    ∃ i pair, IsGreatest {i | i < node.size ∧
        (i = 0 ∨ ∃ pair, node.pairs[i]? = some pair ∧ ixCompare cols pair.1 target ≤ 0)} i ∧
      node.pairs[i]? = some pair ∧ node.internalLookup (ixCompare cols) target = some pair.2.pageNo := by
  have cut {i : Nat} (low : 1 ≤ i) (inside : i < node.size) := upperBound_cut columns keys size filled increasing low inside
  obtain ⟨low,high⟩ : 1 ≤ node.upperBound (ixCompare cols) target ∧ node.upperBound (ixCompare cols) target ≤ node.size :=
    bisect_bounds _ filled
  have inside : node.upperBound (ixCompare cols) target - 1 < node.pairs.length := by
    simp only [IxNode.size] at high
    omega
  have found := List.getElem?_eq_getElem inside
  refine ⟨_,_,⟨⟨inside,?_⟩,?_⟩,found,by rw [IxNode.internalLookup,found]; rfl⟩
  · obtain first | later := Nat.eq_zero_or_pos (node.upperBound (ixCompare cols) target - 1)
    · exact .inl first
    · have passed := (cut later inside).mpr (by omega)
      exact .inr ⟨_,found,by simpa [notGreaterAt,found] using passed⟩
  · rintro i ⟨short,rfl | ⟨pair,there,notGreater⟩⟩
    · exact Nat.zero_le _
    · obtain rfl | later := Nat.eq_zero_or_pos i
      · exact Nat.zero_le _
      · have passed := (cut later short).mp (by simpa [notGreaterAt,there] using notGreater)
        omega

end Search

/-- `lower_bound` of a leaf ends at the first key that is not smaller, and `internal_lookup` follows the last
key that is not greater, the first key standing for every smaller one. -/
theorem node_searches_correct (cols : IxCols) (columns : cols.IntChar) (node : IxNode (List Byte)) (target : List Byte)
    (keys : ∀ pair ∈ node.pairs, pair.1.length = cols.totLen) (size : target.length = cols.totLen) :
    (Increasing cols node.pairs →
      Searches (smallerAt cols node target) 0 node.size (node.lowerBound (ixCompare cols) target) ∧
      IsLeast {i | i = node.size ∨ ∃ pair, node.pairs[i]? = some pair ∧ 0 ≤ ixCompare cols pair.1 target}
        (node.lowerBound (ixCompare cols) target)) ∧
    (1 ≤ node.size → Increasing cols node.pairs.tail →
      Searches (notGreaterAt cols node target) 1 node.size (node.upperBound (ixCompare cols) target) ∧
      ∃ i pair, IsGreatest {i | i < node.size ∧
          (i = 0 ∨ ∃ pair, node.pairs[i]? = some pair ∧ ixCompare cols pair.1 target ≤ 0)} i ∧
        node.pairs[i]? = some pair ∧ node.internalLookup (ixCompare cols) target = some pair.2.pageNo) :=
  ⟨fun increasing => ⟨bisect_searches _ _ _,lowerBound_least columns keys size increasing⟩,
    fun filled increasing => ⟨bisect_searches _ _ _,internalLookup_greatest columns keys size filled increasing⟩⟩

/-- A node whose first key is larger than the others still leads to the child of the last key reached. -/
def brokenFirst : IxNode (List Byte) := { (IxNode.zero : IxNode (List Byte)) with pairs := [([9],⟨3,0⟩),([2],⟨4,0⟩),([5],⟨5,0⟩)] }

theorem brokenFirst_searched : ∃ i pair, IsGreatest {i | i < brokenFirst.size ∧
      (i = 0 ∨ ∃ pair, brokenFirst.pairs[i]? = some pair ∧ ixCompare [(.string,1)] pair.1 [4] ≤ 0)} i ∧
    brokenFirst.pairs[i]? = some pair ∧
    brokenFirst.internalLookup (ixCompare [(.string,1)]) [4] = some pair.2.pageNo :=
  ((node_searches_correct [(.string,1)] (by decide) brokenFirst [4] (by decide) rfl).2 (by decide) (by decide)).2

end Rucbase
