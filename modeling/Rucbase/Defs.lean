import Mathlib.Logic.Function.Basic
import Mathlib.Algebra.Group.Nat.Defs
import Mathlib.Algebra.Group.Int.Defs

/-! Identifiers, page contents and errors shared by the storage, record, index and
transaction layers. -/
namespace Rucbase

abbrev Byte := UInt8

/-- The position of a record: page number and slot number. -/
structure Rid where
  pageNo : Int
  slotNo : Int
  deriving DecidableEq, Repr

/-- A page of an open file, named by the file's descriptor. -/
structure PageId where
  fd : Int
  pageNo : Int
  deriving DecidableEq, Repr

def invalidPageId : Int := -1

abbrev pageSize : Nat := 4096

abbrev PageData : Type := Fin pageSize → Byte

def PageData.zero : PageData := fun _ => 0

/-- The four bytes of an `int`, least significant first. -/
def intBytes (n : Int) : List Byte :=
  (List.range 4).map fun k => UInt8.ofNat ((n % 2 ^ 32).toNat / 256 ^ k)

/-- The `int` of four bytes, in two's complement. -/
def bytesInt (bytes : List Byte) : Int :=
  let n : Nat := bytes.foldr (fun b rest => b.toNat + 256 * rest) 0
  if n < 2 ^ 31 then n else (n : Int) - 2 ^ 32

theorem bytesInt_intBytes {n : Int} (low : -2 ^ 31 ≤ n) (high : n < 2 ^ 31) : bytesInt (intBytes n) = n := by
  obtain ⟨m,same,small⟩ : ∃ m : Nat, n % 2 ^ 32 = m ∧ m < 2 ^ 32 := ⟨(n % 2 ^ 32).toNat,by omega,by omega⟩
  have value : (intBytes n).foldr (fun b rest => b.toNat + 256 * rest) 0 = m := by
    simp [intBytes,List.range_succ]
    omega
  unfold bytesInt
  rw [value]
  dsimp only
  split <;> omega

/-- The machine's addition of two `int`s, which wraps around when it overflows. -/
def addInt (a b : Int) : Int := Int.bmod (a + b) (2 ^ 32)

theorem addInt_exact {a b : Int} (low : -2 ^ 31 ≤ a + b) (high : a + b < 2 ^ 31) : addInt a b = a + b := by
  rw [addInt,Int.bmod_eq_of_le (by omega) (by omega)]

/-- Insertion into a `std::unordered_map`: a key already present keeps its value. -/
def emplace {α β : Type} [DecidableEq α] (m : α → Option β) (key : α) (value : β) : α → Option β :=
  if (m key).isSome then m else Function.update m key (some value)

theorem emplace_absent {α β : Type} [DecidableEq α] {m : α → Option β} {key : α} (value : β) (absent : m key = none) :
    emplace m key value = Function.update m key (some value) := by
  simp [emplace,absent]

/-- The exceptions the modelled functions throw. A failed `assert` ends the process; it is
an error here like the others. -/
inductive RMDBError where
  | internal (msg : String)
  | fileExists (filename : String)
  | fileNotFound (filename : String)
  | invalidRecordSize (recordSize : Int)
  | invalidColLength (colLen : Int)
  | pageNotExist (tableName : String) (pageNo : Int)
  | indexEntryNotFound
  | tableNotFound (tabName : String)
  | tableExists (tabName : String)
  | columnNotFound (colName : String)
  | ambiguousColumn (colName : String)
  | indexNotFound (tabName : String) (colNames : List String)
  | indexExists (tabName : String) (colNames : List String)
  | invalidValueCount
  | stringOverflow
  | incompatibleType (lhs rhs : String)
  | assertion
  deriving DecidableEq, Repr

end Rucbase
