import Rucbase.IxDefs
import Mathlib.Data.List.Lex
import Mathlib.Data.Int.Order.Basic
import Mathlib.Tactic.SplitIfs

/-! `ix_compare` on the bytes of two keys, and the rank that it orders them by. A NaN is
neither smaller nor greater than any number, so keys that hold one have no rank. -/
namespace Rucbase

/-- The bits of the `float` at the start of some bytes. -/
def floatBits (bytes : List Byte) : Nat := (bytes.take 4).foldr (fun b rest => b.toNat + 256 * rest) 0

def isNaN (bits : Nat) : Bool := bits / 2 ^ 23 % 2 ^ 8 == 255 && bits % 2 ^ 23 != 0

/-- Floats that are not NaN are ordered by sign and magnitude; the two zeros are equal. -/
def floatOrder (bits : Nat) : Int :=
  if bits / 2 ^ 31 % 2 = 1 then -((bits % 2 ^ 31 : Nat) : Int) else (bits % 2 ^ 31 : Nat)

def floatLt (a b : Nat) : Bool := !isNaN a && !isNaN b && floatOrder a < floatOrder b

def memcmp : List Byte → List Byte → Int
  | x :: xs, y :: ys => if x = y then memcmp xs ys else (x.toNat : Int) - y.toNat
  | _, _ => 0

/-- `ix_compare` of one column at the start of `a` and `b`. -/
def ixCompareCol (type : ColType) (len : Nat) (a b : List Byte) : Int :=
  match type with
  | .int =>
    let ia := bytesInt (a.take 4)
    let ib := bytesInt (b.take 4)
    if ia < ib then -1 else if ia > ib then 1 else 0
  | .float =>
    let fa := floatBits a
    let fb := floatBits b
    if floatLt fa fb then -1 else if floatLt fb fa then 1 else 0
  | .string => memcmp (a.take len) (b.take len)

/-- The types and lengths of the columns of an index. -/
abbrev IxCols : Type := List (ColType × Nat)

def ixCompare : IxCols → List Byte → List Byte → Int
  | [], _, _ => 0
  | (type,len) :: cols, a, b =>
    let res := ixCompareCol type len a b
    if res ≠ 0 then res else ixCompare cols (a.drop len) (b.drop len)

/-- `col_tot_len_`. -/
def IxCols.totLen (cols : IxCols) : Nat := (cols.map Prod.snd).sum

/-- No FLOAT column of the key is a NaN. -/
def noNaN : IxCols → List Byte → Bool
  | [], _ => true
  | (type,len) :: cols, key => (type != .float || !isNaN (floatBits key)) && noNaN cols (key.drop len)

/-- A key of an index: its columns' bytes, numbers where they are FLOAT. -/
def IsKey (cols : IxCols) (key : List Byte) : Prop := key.length = cols.totLen ∧ noNaN cols key = true

instance (cols : IxCols) (key : List Byte) : Decidable (IsKey cols key) := inferInstanceAs (Decidable (_ ∧ _))

def colRank (type : ColType) (len : Nat) (key : List Byte) : List Int :=
  match type with
  | .int => [bytesInt (key.take 4)]
  | .float => [floatOrder (floatBits key)]
  | .string => (key.take len).map fun b => (b.toNat : Int)

def keyRank : IxCols → List Byte → List (List Int)
  | [], _ => []
  | (type,len) :: cols, key => colRank type len key :: keyRank cols (key.drop len)

/-- Every key compares equal to itself, with NaNs or not. -/
theorem ixCompare_self (cols : IxCols) (key : List Byte) : ixCompare cols key key = 0 := by
  have memcmp_self (a : List Byte) : memcmp a a = 0 := by
    induction a with
    | nil => rfl
    | cons x a ih => simpa [memcmp] using ih
  have floatLt_self (bits : Nat) : floatLt bits bits = false := by simp [floatLt]
  induction cols generalizing key with
  | nil => rfl
  | cons col cols ih =>
    obtain ⟨type,len⟩ := col
    have own : ixCompareCol type len key key = 0 := by cases type <;> simp [ixCompareCol,memcmp_self,floatLt_self]
    rw [ixCompare,own]
    exact ih (key.drop len)

section Order

theorem memcmp_swap (a b : List Byte) : memcmp b a = -memcmp a b := by
  induction a generalizing b with
  | nil => cases b <;> rfl
  | cons x a ih =>
    cases b with
    | nil => rfl
    | cons y b =>
      by_cases same : x = y
      · simp [memcmp,same,ih]
      · simp only [memcmp,if_neg same,if_neg (Ne.symm same)]
        omega

theorem ixCompareCol_swap (type : ColType) (len : Nat) (a b : List Byte) :
    ixCompareCol type len b a = -ixCompareCol type len a b := by
  cases type with
  | int => simp only [ixCompareCol]; split_ifs <;> omega
  | float =>
    simp only [ixCompareCol]
    split_ifs with less more
    · simp only [floatLt,Bool.and_eq_true,decide_eq_true_eq] at less more
      omega
    · rfl
    · rfl
    · rfl
  | string => exact memcmp_swap _ _

theorem ixCompare_swap (cols : IxCols) (a b : List Byte) : ixCompare cols b a = -ixCompare cols a b := by
  induction cols generalizing a b with
  | nil => rfl
  | cons col cols ih =>
    have swapped := ixCompareCol_swap col.1 col.2 a b
    have rest := ih (a.drop col.2) (b.drop col.2)
    simp only [ixCompare]
    split_ifs <;> omega

variable {type : ColType} {cols : IxCols} {a b : List Byte} {len : Nat}

theorem memcmp_lt (size : a.length = b.length) :
    memcmp a b < 0 ↔ a.map (fun x => (x.toNat : Int)) < b.map fun x => (x.toNat : Int) := by
  induction a generalizing b with
  | nil =>
    obtain rfl := List.eq_nil_of_length_eq_zero size.symm
    simp [memcmp]
  | cons x a ih =>
    obtain ⟨y,b,rfl⟩ := List.exists_cons_of_length_eq_add_one size.symm
    rw [List.map_cons,List.map_cons,List.cons_lt_cons_iff]
    by_cases same : x = y
    · subst y
      simpa [memcmp] using ih (by simpa using size)
    · have apart : x.toNat ≠ y.toNat := fun equal => same (UInt8.toNat_inj.mp equal)
      simp only [memcmp,if_neg same]
      omega

/-- What a column needs for its comparison to be that of its rank. -/
def ColProper (type : ColType) (len : Nat) (key : List Byte) : Prop :=
  len ≤ key.length ∧ (type = .float → isNaN (floatBits key) = false)

theorem ixCompareCol_lt (properA : ColProper type len a) (properB : ColProper type len b) :
    ixCompareCol type len a b < 0 ↔ colRank type len a < colRank type len b := by
  cases type with
  | int =>
    simp only [ixCompareCol,colRank,List.cons_lt_cons_iff,List.not_lt_nil,and_false,or_false]
    split_ifs <;> omega
  | float =>
    have numberA := properA.2 rfl
    have numberB := properB.2 rfl
    simp only [ixCompareCol,colRank,List.cons_lt_cons_iff,List.not_lt_nil,and_false,or_false,floatLt,numberA,numberB,
      Bool.not_false,Bool.true_and,decide_eq_true_eq]
    split_ifs <;> omega
  | string =>
    apply memcmp_lt
    rw [List.length_take,List.length_take,Nat.min_eq_left properA.1,Nat.min_eq_left properB.1]

theorem ixCompareCol_eq (properA : ColProper type len a) (properB : ColProper type len b)
    (same : ixCompareCol type len a b = 0) :
    colRank type len a = colRank type len b := by
  have swapped := ixCompareCol_swap type len a b
  apply le_antisymm
  · exact not_lt.mp fun less => absurd ((ixCompareCol_lt properB properA).mpr less) (by omega)
  · exact not_lt.mp fun less => absurd ((ixCompareCol_lt properA properB).mpr less) (by omega)

theorem isKey_cons {key : List Byte} (isKey : IsKey ((type,len) :: cols) key) :
    ColProper type len key ∧ IsKey cols (key.drop len) := by
  obtain ⟨size,numbers⟩ := isKey
  simp only [IxCols.totLen,List.map_cons,List.sum_cons] at size
  simp only [noNaN,Bool.and_eq_true,Bool.or_eq_true,bne_iff_ne,Bool.not_eq_eq_eq_not,Bool.not_true] at numbers
  refine ⟨⟨by omega,fun float => numbers.1.resolve_left fun other => other float⟩,?_,numbers.2⟩
  rw [List.length_drop,size,IxCols.totLen]
  omega

theorem ixCompare_lt (keyA : IsKey cols a) (keyB : IsKey cols b) :
    ixCompare cols a b < 0 ↔ keyRank cols a < keyRank cols b := by
  induction cols generalizing a b with
  | nil => simp [ixCompare,keyRank]
  | cons col cols ih =>
    obtain ⟨type,len⟩ := col
    obtain ⟨properA,restA⟩ := isKey_cons keyA
    obtain ⟨properB,restB⟩ := isKey_cons keyB
    have first := ixCompareCol_lt properA properB
    rw [ixCompare,keyRank,keyRank,List.cons_lt_cons_iff,← first,← ih restA restB]
    by_cases decided : ixCompareCol type len a b = 0
    · have same := ixCompareCol_eq properA properB decided
      simp [decided,same]
    · have apart : colRank type len a ≠ colRank type len b := by
        intro same
        have notLess : ¬ixCompareCol type len a b < 0 := fun less => ne_of_lt (first.mp less) same
        have notMore : ¬ixCompareCol type len b a < 0 := fun less =>
          ne_of_lt ((ixCompareCol_lt properB properA).mp less) same.symm
        rw [ixCompareCol_swap] at notMore
        omega
      simp [decided,apart]

theorem ixCompare_gt (keyA : IsKey cols a) (keyB : IsKey cols b) :
    ixCompare cols a b > 0 ↔ keyRank cols b < keyRank cols a := by
  rw [← ixCompare_lt keyB keyA,ixCompare_swap]
  omega

end Order

end Rucbase
