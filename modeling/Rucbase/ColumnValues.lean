import Rucbase.IndexStatements

/-! What the bytes of a column stand for, and what a condition says about a record: a
comparison of two values, by the numbers or byte by byte. A FLOAT is ordered by `floatLt`. -/
namespace Rucbase

open Lib Lib.Prog

/-- The value that the bytes of a column stand for. A string keeps its padding. -/
def ColType.decode (type : ColType) (bytes : List Byte) : Value :=
  match type with
  | .int => .int (bytesInt bytes)
  | .float => .float (floatBits bytes)
  | .string => .str bytes

def ColMeta.bytes (col : ColMeta) (data : List Byte) : List Byte := (data.drop col.offset.toNat).take col.len.toNat

def ColMeta.value (col : ColMeta) (data : List Byte) : Value := col.type.decode (col.bytes data)

/-- A value as a column of this length keeps it. -/
def Value.padded (len : Int) : Value → Value
  | .str bytes => .str (bytes ++ List.replicate (len.toNat - bytes.length) 0)
  | value => value

/-- The value is an `int`, a `float` or a string that a column of this length can keep. -/
def Value.Storable (len : Int) : Value → Prop
  | .int n => len = 4 ∧ -2 ^ 31 ≤ n ∧ n < 2 ^ 31
  | .float bits => len = 4 ∧ bits < 2 ^ 32
  | .str bytes => bytes.length ≤ len

instance (len : Int) (value : Value) : Decidable (value.Storable len) :=
  match value with
  | .int _ => inferInstanceAs (Decidable (_ ∧ _ ∧ _))
  | .float _ => inferInstanceAs (Decidable (_ ∧ _))
  | .str _ => inferInstanceAs (Decidable (_ ≤ _))

/-- Numbers take four bytes. -/
def ColMeta.Sized (col : ColMeta) : Prop := col.type ≠ .string → col.len = 4

instance (col : ColMeta) : Decidable col.Sized := inferInstanceAs (Decidable (_ → _))

theorem floatBits_intBytes {bits : Nat} (small : bits < 2 ^ 32) : floatBits (intBytes bits) = bits := by
  simp [floatBits,intBytes,List.range_succ]
  omega

theorem Value.initRaw_decodes {value : Value} {len : Int} (storable : value.Storable len) :
    ∃ raw, value.initRaw len = .ok raw ∧ (raw.length : Int) = len ∧ value.type.decode raw = value.padded len := by
  cases value with
  | int n =>
    obtain ⟨rfl,low,high⟩ := storable
    exact ⟨intBytes n,rfl,by simp [intBytes],congrArg Value.int (bytesInt_intBytes low high)⟩
  | float bits =>
    obtain ⟨rfl,small⟩ := storable
    exact ⟨intBytes bits,rfl,by simp [intBytes],congrArg Value.float (floatBits_intBytes small)⟩
  | str bytes =>
    have fits : ¬len < bytes.length := Int.not_lt.mpr storable
    refine ⟨bytes ++ List.replicate (len.toNat - bytes.length) 0,if_neg fits,?_,rfl⟩
    rw [List.length_append,List.length_replicate]
    omega

/-- Numbers as numbers, strings byte by byte. -/
def Value.less : Value → Value → Bool
  | .int a, .int b => a < b
  | .float a, .float b => floatLt a b
  | .str a, .str b => a.map (fun x => (x.toNat : Int)) < b.map fun x => (x.toNat : Int)
  | _, _ => false

def CompOp.relates (op : CompOp) (a b : Value) : Bool :=
  match op with
  | .eq => !a.less b && !b.less a
  | .ne => a.less b || b.less a
  | .lt => a.less b
  | .gt => b.less a
  | .le => !b.less a
  | .ge => !a.less b

theorem CompOp.holds_eq {op : CompOp} {cmp : Int} {a b : Value} (less : cmp < 0 ↔ a.less b = true)
    (more : 0 < cmp ↔ b.less a = true) : op.holds cmp = op.relates a b := by
  rw [Bool.eq_iff_iff]
  cases op <;> simp only [holds,relates,Bool.and_eq_true,Bool.or_eq_true,Bool.not_eq_true',← Bool.not_eq_true,
    ← less,← more,decide_eq_true_eq] <;> omega

theorem ixCompareCol_less {type : ColType} {len : Nat} {a b : List Byte} (sized : type ≠ .string → len = 4)
    (insideA : len ≤ a.length) (insideB : len ≤ b.length) :
    ixCompareCol type len a b < 0 ↔ (type.decode (a.take len)).less (type.decode (b.take len)) = true := by
  cases type with
  | int =>
    obtain rfl := sized (by decide)
    simp only [ixCompareCol,ColType.decode,Value.less,decide_eq_true_eq]
    split_ifs <;> omega
  | float =>
    obtain rfl := sized (by decide)
    have short (bytes : List Byte) : floatBits (bytes.take 4) = floatBits bytes := by
      simp only [floatBits,List.take_take,Nat.min_self]
    simp only [ixCompareCol,ColType.decode,Value.less,short]
    cases floatLt (floatBits a) (floatBits b) with
    | true => simp
    | false => cases floatLt (floatBits b) (floatBits a) <;> simp
  | string =>
    simp only [ixCompareCol,ColType.decode,Value.less,decide_eq_true_eq]
    apply memcmp_lt
    rw [List.length_take,List.length_take,Nat.min_eq_left insideA,Nat.min_eq_left insideB]

theorem CompOp.holds_values (op : CompOp) {type : ColType} {len : Nat} {a b : List Byte} (sized : type ≠ .string → len = 4)
    (insideA : len ≤ a.length) (insideB : len ≤ b.length) :
    op.holds (ixCompareCol type len a b) = op.relates (type.decode (a.take len)) (type.decode (b.take len)) := by
  refine holds_eq (ixCompareCol_less sized insideA insideB) ?_
  rw [← ixCompareCol_less sized insideB insideA,ixCompareCol_swap type len a b]
  omega

/-- What stands on the right of a condition: the constant as the left column would keep it, or
the value of a column. -/
def Condition.rightValue (cols : List ColMeta) (lhs : ColMeta) (data : List Byte) (cond : Condition) : Option Value :=
  if cond.isRhsVal then some (cond.rhsVal.padded lhs.len)
  else (findCol cols cond.rhsCol).toOption.map fun col => col.value data

def Condition.satisfied (cols : List ColMeta) (data : List Byte) (cond : Condition) : Bool :=
  (findCol cols cond.lhsCol).toOption.any fun lhs =>
    (cond.rightValue cols lhs data).any fun right => cond.op.relates (lhs.value data) right

/-- A column is compared with a constant that it can keep, or with a column of its type and length. -/
def Condition.Typed (cols : List ColMeta) (cond : Condition) : Prop :=
  ∃ lhs, findCol cols cond.lhsCol = .ok lhs ∧ if cond.isRhsVal = true
    then cond.rhsVal.type = lhs.type ∧ cond.rhsVal.Storable lhs.len
    else ∃ rhs, findCol cols cond.rhsCol = .ok rhs ∧ rhs.type = lhs.type ∧ rhs.len = lhs.len

section Evaluation

variable {cols : List ColMeta} {data : List Byte}

theorem findCol_mem {target : TabCol} {col : ColMeta} (found : findCol cols target = .ok col) : col ∈ cols := by
  rw [findCol] at found
  split at found
  next col' here =>
    obtain rfl := Except.ok.inj found
    exact List.mem_of_find?_eq_some here
  next => cases found

theorem InRecord.inside {col : ColMeta} (fits : InRecord data.length col) :
    col.len.toNat ≤ (data.drop col.offset.toNat).length := by
  have := fits.len
  have := fits.offset
  have := fits.fits
  rw [List.length_drop]
  omega

theorem ColMeta.bytes_length {col : ColMeta} (fits : InRecord data.length col) : (col.bytes data).length = col.len.toNat := by
  rw [bytes,List.length_take]
  exact Nat.min_eq_left fits.inside

theorem ColMeta.Sized.toNat {col : ColMeta} (sized : col.Sized) : col.type ≠ .string → col.len.toNat = 4 := by
  intro number
  rw [sized number]
  rfl

theorem evalCond_satisfied {cond : Condition} (fits : ∀ col ∈ cols, InRecord data.length col)
    (sized : ∀ col ∈ cols, col.Sized) (typed : cond.Typed cols) :
    evalCond cols data cond = .ok (cond.satisfied cols data) := by
  obtain ⟨lhs,found,right⟩ := typed
  have inside := (fits lhs (findCol_mem found)).inside
  have width := (sized lhs (findCol_mem found)).toNat
  unfold evalCond
  rw [found,Condition.satisfied,found]
  cases constant : cond.isRhsVal with
  | true =>
    rw [constant,if_pos rfl] at right
    obtain ⟨type,storable⟩ := right
    obtain ⟨raw,made,length,stands⟩ := Value.initRaw_decodes storable
    have whole : lhs.len.toNat = raw.length := by omega
    have compared := cond.op.holds_values width inside (Nat.le_of_eq whole)
    rw [List.take_of_length_le (Nat.le_of_eq whole.symm),← type,stands,type] at compared
    simp only [Condition.rightValue,constant]
    show (cond.rhsVal.initRaw lhs.len >>= _) = _
    rw [made]
    show (if cond.rhsVal.type = lhs.type then _ else _) = _
    rw [if_pos type,type,compared]
    rfl
  | false =>
    rw [constant,if_neg (by decide)] at right
    obtain ⟨rhs,foundRhs,type,length⟩ := right
    have insideRhs := (fits rhs (findCol_mem foundRhs)).inside
    rw [length] at insideRhs
    have compared := cond.op.holds_values width inside insideRhs
    simp only [Condition.rightValue,constant,foundRhs]
    show (if rhs.type = lhs.type then _ else _) = _
    rw [if_pos type,type,compared]
    simp [ColMeta.value,ColMeta.bytes,type,length,Except.toOption]

theorem evalConds_satisfied {conds : List Condition} (fits : ∀ col ∈ cols, InRecord data.length col)
    (sized : ∀ col ∈ cols, col.Sized) (typed : ∀ cond ∈ conds, cond.Typed cols) :
    evalConds cols data conds = .ok (conds.all fun cond => cond.satisfied cols data) := by
  induction conds with
  | nil => rfl
  | cons cond rest ih =>
    obtain ⟨here,others⟩ := List.forall_mem_cons.mp typed
    rw [evalConds,evalCond_satisfied fits sized here,ih others]
    show (if _ then _ else _) = _
    rw [List.all_cons]
    cases cond.satisfied cols data <;> simp

end Evaluation

end Rucbase
