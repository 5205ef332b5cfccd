import Mathlib.Data.List.Basic
import Mathlib.Tactic.Positivity
import Mathlib.Tactic.Ring

/-! Memory as a function of the address: reading and writing runs of cells, and arrays of cells of
one width that are shifted in place. A move writes what was read before it, so its two runs may
overlap. -/
namespace Rucbase.Lib

abbrev Mem (β : Type) : Type := Int → β

namespace Mem

variable {β : Type} (m : Mem β)

/-- The `n` cells from address `a` on. -/
def load (a : Int) (n : Nat) : List β := (List.range n).map fun i : Nat => m (a + i)

/-- Some cells written from address `a` on. -/
def store (a : Int) (bytes : List β) : Mem β := fun x =>
  if a ≤ x then (bytes[(x - a).toNat]?).getD (m x) else m x

def move (dst src : Int) (n : Nat) : Mem β := m.store dst (m.load src n)

@[simp] theorem load_length (a : Int) (n : Nat) : (m.load a n).length = n := by simp [load]

variable {m} {m' : Mem β} {a b x : Int} {n k : Nat} {bytes : List β}

theorem load_congr (same : ∀ i : Nat, i < n → m (a + i) = m' (b + i)) : m.load a n = m'.load b n :=
  List.map_congr_left fun i member => same i (List.mem_range.mp member)

theorem at_of_load (same : m.load a n = m'.load b n) {i : Nat} (inside : i < n) : m (a + i) = m' (b + i) := by
  have cell := congrArg (·[i]?) same
  simpa [load,inside] using cell

theorem load_part (same : m.load a n = m'.load b n) {i : Nat} (inside : i + k ≤ n) :
    m.load (a + i) k = m'.load (b + i) k := by
  apply load_congr
  intro j short
  have cell := at_of_load same (show i + j < n by omega)
  rwa [Int.natCast_add,← Int.add_assoc,← Int.add_assoc] at cell

theorem load_add (n k : Nat) : m.load a (n + k) = m.load a n ++ m.load (a + n) k := by
  simp [load,List.range_add,Int.add_assoc]

theorem store_outside (outside : x < a ∨ a + bytes.length ≤ x) : m.store a bytes x = m x := by
  unfold store
  split
  · rw [List.getElem?_eq_none (by omega)]
    rfl
  · rfl

theorem store_inside {i : Nat} (inside : i < bytes.length) : m.store a bytes (a + i) = bytes[i] := by
  simp [store,inside]

theorem load_store_self (size : bytes.length = n) : (m.store a bytes).load a n = bytes := by
  subst size
  apply List.ext_getElem (by simp)
  intro i left right
  simp [load,store_inside right]

theorem load_store_apart (apart : b + n ≤ a ∨ a + bytes.length ≤ b) : (m.store a bytes).load b n = m.load b n :=
  load_congr fun i short => store_outside (by omega)

theorem move_outside (outside : x < a ∨ a + n ≤ x) : m.move a b n x = m x :=
  store_outside (by rwa [load_length])

theorem load_move_self : (m.move a b n).load a n = m.load b n := load_store_self (load_length m b n)

theorem load_move_apart {c : Int} (apart : c + k ≤ a ∨ a + n ≤ c) : (m.move a b n).load c k = m.load c k :=
  load_store_apart (by rwa [load_length])

theorem store_append (first second : List β) :
    m.store a (first ++ second) = (m.store a first).store (a + first.length) second := by
  funext x
  by_cases before : x < a + first.length
  · rw [store_outside (.inl before)]
    by_cases low : a ≤ x
    · simp only [store,if_pos low]
      rw [List.getElem?_append_left (by omega)]
    · simp only [store,if_neg low]
  · have index : (x - a).toNat = first.length + (x - (a + first.length)).toNat := by omega
    have kept : m.store a first x = m x := store_outside (.inr (by omega))
    simp only [store] at kept ⊢
    rw [if_pos (by omega),if_pos (by omega),index,List.getElem?_append_right (by omega),Nat.add_sub_cancel_left,
      ← index,kept]

theorem load_piece {before after : List (List β)} {piece : List β}
    (same : m.load a (before ++ piece :: after).flatten.length = (before ++ piece :: after).flatten) :
    m.load (a + before.flatten.length) piece.length = piece := by
  simp only [List.flatten_append,List.flatten_cons,List.length_append] at same
  rw [load_add,load_add] at same
  obtain ⟨_,rest⟩ := List.append_inj same (load_length _ _ _)
  exact (List.append_inj rest (load_length _ _ _)).1

variable (m) in
/-- The first `n` elements of the array of elements of width `w` at `a`. -/
def cells (a : Int) (w n : Nat) : List (List β) := (List.range n).map fun i : Nat => m.load (a + i * w) w

variable {w pos rest : Nat}

@[simp] theorem cells_length (a : Int) (w n : Nat) : (m.cells a w n).length = n := by simp [cells]

theorem cells_add (n k : Nat) : m.cells a w (n + k) = m.cells a w n ++ m.cells (a + n * w) w k := by
  simp only [cells,List.range_add,List.map_append,List.map_map]
  congr 1
  refine List.map_congr_left fun i _ => ?_
  simp only [Function.comp_apply,Int.natCast_add,Int.add_mul,Int.add_assoc]

theorem cells_congr (same : m.load a (n * w) = m'.load b (n * w)) : m.cells a w n = m'.cells b w n := by
  refine List.map_congr_left fun i member => ?_
  have part : i * w + w ≤ n * w := by
    rw [← Nat.succ_mul]
    exact Nat.mul_le_mul_right w (List.mem_range.mp member)
  simpa using load_part same part

theorem cells_same (same : ∀ x, a ≤ x → x < a + n * w → m x = m' x) : m.cells a w n = m'.cells a w n := by
  refine cells_congr (load_congr fun i short => same _ (by omega) ?_)
  have inside : (i : Int) < (n * w : Nat) := Int.ofNat_lt.mpr short
  push_cast at inside
  omega

variable (m) in
/-- `n` elements copied from `src` in front of the last `rest`, which move up to make room. -/
def insertCells (a src : Int) (w pos n rest : Nat) : Mem β :=
  (m.move (a + pos * w + n * w) (a + pos * w) (rest * w)).move (a + pos * w) src (n * w)

theorem insertCells_outside {src : Int} (outside : x < a ∨ a + pos * w + n * w + rest * w ≤ x) :
    m.insertCells a src w pos n rest x = m x := by
  have front : (0 : Int) ≤ pos * w := by positivity
  have new : (0 : Int) ≤ n * w := by positivity
  have moved : (0 : Int) ≤ rest * w := by positivity
  unfold insertCells
  rw [move_outside (by push_cast; omega),move_outside (by push_cast; omega)]

theorem cells_insertCells {src : Int} (apart : src + n * w ≤ a ∨ a + pos * w + n * w + rest * w ≤ src) :
    (m.insertCells a src w pos n rest).cells a w (pos + n + rest) =
      m.cells a w pos ++ m.cells src w n ++ m.cells (a + pos * w) w rest := by
  have front : (0 : Int) ≤ pos * w := by positivity
  have new : (0 : Int) ≤ n * w := by positivity
  unfold insertCells
  rw [cells_add,cells_add]
  congr 1
  · congr 1
    · apply cells_congr
      rw [load_move_apart (by push_cast; omega),load_move_apart (by push_cast; omega)]
    · apply cells_congr
      rw [load_move_self,load_move_apart (by push_cast; omega)]
  · apply cells_congr
    have place : a + ((pos + n : Nat) : Int) * w = a + pos * w + n * w := by push_cast; ring
    rw [place,load_move_apart (by push_cast; omega),load_move_self]

variable (m) in
/-- One element taken out in front of the last `rest`, which move down. -/
def eraseCells (a : Int) (w pos rest : Nat) : Mem β := m.move (a + pos * w) (a + (pos + 1) * w) (rest * w)

theorem eraseCells_outside (outside : x < a ∨ a + pos * w + rest * w ≤ x) : m.eraseCells a w pos rest x = m x := by
  have front : (0 : Int) ≤ pos * w := by positivity
  exact move_outside (by push_cast; omega)

theorem cells_eraseCells : (m.eraseCells a w pos rest).cells a w (pos + rest) =
    m.cells a w pos ++ m.cells (a + (pos + 1) * w) w rest := by
  unfold eraseCells
  rw [cells_add]
  congr 1
  · apply cells_congr
    rw [load_move_apart (by push_cast; omega)]
  · apply cells_congr
    exact load_move_self

end Mem

end Rucbase.Lib
