import Mathlib.Order.Defs.LinearOrder
import Mathlib.Data.List.Pairwise
import Mathlib.Tactic.SplitIfs
import Mathlib.Order.Lattice

/-! Finite maps as the list of their entries in the order of the keys. -/
namespace Rucbase.Lib

variable {α β : Type} [LinearOrder α]

@[ext] structure OrderedMap (α β : Type) [LinearOrder α] where
  entries : List (α × β)
  increasing : entries.Pairwise fun a b => a.1 < b.1

namespace OrderedMap

def empty : OrderedMap α β := ⟨[],.nil⟩

def find (m : OrderedMap α β) (key : α) : Option β := (m.entries.find? fun e => e.1 = key).map Prod.snd

def contains (m : OrderedMap α β) (key : α) : Bool := (m.find key).isSome

/-- The entries once `key` has the value `value`. -/
def assignList (key : α) (value : β) : List (α × β) → List (α × β)
  | [] => [(key,value)]
  | e :: rest =>
    if key < e.1 then (key,value) :: e :: rest
    else if key = e.1 then (key,value) :: rest
    else e :: assignList key value rest

def erase (m : OrderedMap α β) (key : α) : OrderedMap α β where
  entries := m.entries.filter fun e => e.1 ≠ key
  increasing := m.increasing.filter _

variable {l : List (α × β)} {key : α} {value : β}

theorem mem_assignList {e : α × β} (member : e ∈ assignList key value l) : e = (key,value) ∨ e ∈ l := by
  induction l with
  | nil => exact .inl (by simpa [assignList] using member)
  | cons first rest ih =>
    rw [assignList] at member
    split_ifs at member
    · simpa using member
    · rcases List.mem_cons.mp member with same | later
      · exact .inl same
      · exact .inr (List.mem_cons_of_mem _ later)
    · rcases List.mem_cons.mp member with rfl | later
      · exact .inr List.mem_cons_self
      · exact (ih later).imp_right (List.mem_cons_of_mem _)

theorem assignList_increasing (increasing : l.Pairwise fun a b => a.1 < b.1) :
    (assignList key value l).Pairwise fun a b => a.1 < b.1 := by
  induction l with
  | nil => exact List.pairwise_singleton _ _
  | cons first rest ih =>
    obtain ⟨least,others⟩ := List.pairwise_cons.mp increasing
    rw [assignList]
    split_ifs with below same
    · refine List.pairwise_cons.mpr ⟨List.forall_mem_cons.mpr ⟨below,fun e member => ?_⟩,increasing⟩
      exact lt_trans below (least e member)
    · exact List.pairwise_cons.mpr ⟨fun e member => same ▸ least e member,others⟩
    · have above : first.1 < key := lt_of_le_of_ne (not_lt.mp below) (Ne.symm same)
      refine List.pairwise_cons.mpr ⟨fun e member => ?_,ih others⟩
      rcases mem_assignList member with rfl | old
      · exact above
      · exact least e old

/-- `m[key] = value`. -/
def assign (m : OrderedMap α β) (key : α) (value : β) : OrderedMap α β :=
  ⟨assignList key value m.entries,assignList_increasing m.increasing⟩

@[simp] theorem find_assign_self (m : OrderedMap α β) (key : α) (value : β) : (m.assign key value).find key = some value := by
  have found (l : List (α × β)) : (assignList key value l).find? (fun e => e.1 = key) = some (key,value) := by
    induction l with
    | nil => simp [assignList]
    | cons first rest ih =>
      rw [assignList]
      split_ifs with below same
      · simp
      · simp
      · simpa [Ne.symm same] using ih
  simp [find,assign,found]

theorem find_assign_of_ne (m : OrderedMap α β) {other : α} (value : β) (differ : other ≠ key) :
    (m.assign key value).find other = m.find other := by
  have found (l : List (α × β)) :
      (assignList key value l).find? (fun e => e.1 = other) = l.find? fun e => e.1 = other := by
    induction l with
    | nil => simp [assignList,differ.symm]
    | cons first rest ih =>
      rw [assignList]
      split_ifs with below same
      · simp [differ.symm]
      · simp [← same,differ.symm]
      · simp only [List.find?_cons,ih]
  simp [find,assign,found]

@[simp] theorem find_erase_self (m : OrderedMap α β) (key : α) : (m.erase key).find key = none := by
  simp [find,erase]

theorem find_erase_of_ne (m : OrderedMap α β) {other : α} (differ : other ≠ key) :
    (m.erase key).find other = m.find other := by
  have same : (fun e : α × β => !decide (e.1 = key) && decide (e.1 = other)) = fun e => decide (e.1 = other) := by
    funext e
    by_cases here : e.1 = other
    · simp [here,differ]
    · simp [here]
  simp [find,erase,List.find?_filter,same]

theorem assignList_last (above : ∀ e ∈ l, e.1 < key) : assignList key value l = l ++ [(key,value)] := by
  induction l with
  | nil => rfl
  | cons first rest ih =>
    obtain ⟨before,others⟩ := List.forall_mem_cons.mp above
    rw [assignList,if_neg (not_lt.mpr (le_of_lt before)),if_neg (ne_of_gt before),ih others]
    rfl

theorem foldl_assign (m : OrderedMap α β) (increasing : (m.entries ++ l).Pairwise fun a b => a.1 < b.1) :
    l.foldl (fun m e => m.assign e.1 e.2) m = ⟨m.entries ++ l,increasing⟩ := by
  induction l generalizing m with
  | nil => exact OrderedMap.ext (List.append_nil _).symm
  | cons e l ih =>
    have above : ∀ old ∈ m.entries, old.1 < e.1 := fun old member =>
      (List.pairwise_append.mp increasing).2.2 old member e List.mem_cons_self
    have step : (m.assign e.1 e.2).entries = m.entries ++ [e] := assignList_last above
    have rest : ((m.assign e.1 e.2).entries ++ l).Pairwise fun a b => a.1 < b.1 := by
      rw [step]; simpa using increasing
    rw [List.foldl_cons,ih _ rest]
    exact OrderedMap.ext (by simp [step])

end OrderedMap

end Rucbase.Lib
