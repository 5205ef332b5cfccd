import Mathlib.Data.List.TakeWhile

/-! Searches through positions. Binary search finds the end of an initial run: the two halves of an
interval are told apart by one test, and an interval of length `n` needs at most `n` rounds. A scan
looks at one position after the other. -/
namespace Rucbase.Lib

def bisectLoop (before : Nat → Bool) : Nat → Nat → Nat → Nat
  | 0, l, _ => l
  | fuel + 1, l, r =>
    if l < r then
      if before ((l + r) / 2) then bisectLoop before fuel ((l + r) / 2 + 1) r
      else bisectLoop before fuel l ((l + r) / 2)
    else l

/-- The first position of `[l,r)` that fails the test, `r` if there is none. -/
def bisect (before : Nat → Bool) (l r : Nat) : Nat := bisectLoop before (r - l) l r

variable {fuel l r : Nat} {before : Nat → Bool}

theorem bisectLoop_eq {m : Nat} (enough : r - l ≤ fuel) (lower : l ≤ m) (upper : m ≤ r)
    (inside : ∀ i, l ≤ i → i < m → before i = true) (outside : ∀ i, m ≤ i → i < r → before i = false) :
    bisectLoop before fuel l r = m := by
  induction fuel generalizing l r with
  | zero =>
    obtain rfl : l = m := by omega
    rfl
  | succ fuel ih =>
    unfold bisectLoop
    by_cases nonempty : l < r
    · rw [if_pos nonempty]
      by_cases side : (l + r) / 2 < m
      · rw [if_pos (inside _ (by omega) side)]
        exact ih (by omega) (by omega) upper (fun i low => inside i (by omega)) outside
      · have answer := outside ((l + r) / 2) (by omega) (by omega)
        rw [answer,if_neg Bool.false_ne_true]
        exact ih (by omega) lower (by omega) inside fun i low high => outside i low (by omega)
    · rw [if_neg nonempty]
      omega

theorem bisect_eq {m : Nat} (lower : l ≤ m) (upper : m ≤ r) (inside : ∀ i, l ≤ i → i < m → before i = true)
    (outside : ∀ i, m ≤ i → i < r → before i = false) : bisect before l r = m :=
  bisectLoop_eq (Nat.le_refl _) lower upper inside outside

theorem bisectLoop_bounds (before : Nat → Bool) (fuel : Nat) (le : l ≤ r) :
    l ≤ bisectLoop before fuel l r ∧ bisectLoop before fuel l r ≤ r := by
  induction fuel generalizing l r with
  | zero => exact ⟨Nat.le_refl l,le⟩
  | succ fuel ih =>
    unfold bisectLoop
    split
    · split
      · have bounds := ih (l := (l + r) / 2 + 1) (r := r) (by omega)
        omega
      · have bounds := ih (l := l) (r := (l + r) / 2) (by omega)
        omega
    · exact ⟨Nat.le_refl l,le⟩

theorem bisect_bounds (before : Nat → Bool) (le : l ≤ r) : l ≤ bisect before l r ∧ bisect before l r ≤ r :=
  bisectLoop_bounds before _ le

/-- A test that never passes again once it failed is cut where the search ends. -/
theorem bisectLoop_cut (enough : r - l ≤ fuel) (le : l ≤ r)
    (falls : ∀ i j, l ≤ i → i ≤ j → j < r → before j = true → before i = true) {i : Nat} (low : l ≤ i) (high : i < r) :
    before i = true ↔ i < bisectLoop before fuel l r := by
  induction fuel generalizing l r with
  | zero => omega
  | succ fuel ih =>
    unfold bisectLoop
    rw [if_pos (by omega)]
    cases answer : before ((l + r) / 2) with
    | true =>
      have bounds := bisectLoop_bounds before fuel (l := (l + r) / 2 + 1) (r := r) (by omega)
      rw [if_pos rfl]
      by_cases side : (l + r) / 2 < i
      · exact ih (by omega) (by omega) (fun a b first => falls a b (by omega)) (by omega) high
      · have passes := falls i ((l + r) / 2) low (by omega) (by omega) answer
        exact iff_of_true passes (by omega)
    | false =>
      have bounds := bisectLoop_bounds before fuel (l := l) (r := (l + r) / 2) (by omega)
      rw [if_neg Bool.false_ne_true]
      by_cases side : i < (l + r) / 2
      · exact ih (by omega) (by omega) (fun a b first order last => falls a b first order (by omega)) low side
      · have fails : ¬before i = true := fun passes =>
          absurd (falls ((l + r) / 2) i (by omega) (by omega) high passes) (by simp [answer])
        exact iff_of_false fails (by omega)

theorem bisect_cut (le : l ≤ r) (falls : ∀ i j, l ≤ i → i ≤ j → j < r → before j = true → before i = true) {i : Nat}
    (low : l ≤ i) (high : i < r) :
    before i = true ↔ i < bisect before l r :=
  bisectLoop_cut (Nat.le_refl _) le falls low high

/-- The loop without a bound on its rounds: from `[l,r)` it ends at `m`. -/
inductive Searches (before : Nat → Bool) : Nat → Nat → Nat → Prop
  | done {l r : Nat} (empty : ¬l < r) : Searches before l r l
  | right {l r m : Nat} (more : l < r) (passes : before ((l + r) / 2) = true)
      (rest : Searches before ((l + r) / 2 + 1) r m) : Searches before l r m
  | left {l r m : Nat} (more : l < r) (fails : before ((l + r) / 2) = false)
      (rest : Searches before l ((l + r) / 2) m) : Searches before l r m

theorem bisectLoop_searches (before : Nat → Bool) (enough : r - l ≤ fuel) :
    Searches before l r (bisectLoop before fuel l r) := by
  induction fuel generalizing l r with
  | zero => exact .done (by omega)
  | succ fuel ih =>
    unfold bisectLoop
    by_cases more : l < r
    · rw [if_pos more]
      cases answer : before ((l + r) / 2) with
      | true => exact .right more answer (ih (by omega))
      | false => exact .left more answer (ih (by omega))
    · rw [if_neg more]
      exact .done more

theorem bisect_searches (before : Nat → Bool) (l r : Nat) : Searches before l r (bisect before l r) :=
  bisectLoop_searches before (Nat.le_refl _)

/-- Searching a list that is a run of elements that pass the test, then a run of elements
that fail it, starting behind `skip` elements. -/
theorem bisect_append {α : Type} (test : α → Bool) (skip : List α) {passing failing : List α}
    (pass : ∀ a ∈ passing, test a = true) (fail : ∀ a ∈ failing, test a = false) :
    bisect (fun i => ((skip ++ passing ++ failing)[i]?).any test) skip.length
        (skip ++ passing ++ failing).length = skip.length + passing.length := by
  apply bisect_eq
  · omega
  · simp only [List.length_append]; omega
  · intro i low high
    rw [List.getElem?_append_left (by simp only [List.length_append]; omega),
      List.getElem?_append_right low,List.getElem?_eq_getElem (by omega)]
    exact pass _ (List.getElem_mem _)
  · intro i low high
    simp only [List.length_append] at high
    rw [List.getElem?_append_right (by simp only [List.length_append]; omega),
      List.getElem?_eq_getElem (by simp only [List.length_append]; omega)]
    exact fail _ (List.getElem_mem _)

/-- The first of `n` positions from `i` on that passes the test, `i + n` if there is none. -/
def scan (test : Nat → Bool) : Nat → Nat → Nat
  | 0, i => i
  | n + 1, i => if test i then i else scan test n (i + 1)

theorem scan_spec (test : Nat → Bool) (n i : Nat) : i ≤ scan test n i ∧ scan test n i ≤ i + n ∧
    (∀ k, i ≤ k → k < scan test n i → test k = false) ∧ (scan test n i < i + n → test (scan test n i) = true) := by
  induction n generalizing i with
  | zero => exact ⟨Nat.le_refl _,Nat.le_refl _,fun k low high => absurd high (Nat.not_lt.mpr low),
      fun short => absurd short (Nat.lt_irrefl _)⟩
  | succ n ih =>
    unfold scan
    split
    · rename_i here
      exact ⟨Nat.le_refl _,by omega,fun k low high => by omega,fun _ => here⟩
    · rename_i missed
      obtain ⟨low,high,before,found⟩ := ih (i + 1)
      refine ⟨by omega,by omega,fun k first last => ?_,fun bound => found (by omega)⟩
      by_cases same : k = i
      · subst k
        exact Bool.not_eq_true _ ▸ missed
      · exact before k (by omega) last

end Rucbase.Lib
