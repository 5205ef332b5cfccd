import Mathlib.Data.List.Basic
import Mathlib.Data.List.Induction

/-! Histories: lists of events, oldest first, that grow at the end. An event may be closed
by a later one, and conflicting events are to be separated by a closing one. -/
namespace Rucbase.Lib.History

variable {α : Type} {closes conflict : α → α → Prop} {history : List α} {e x : α}

/-- An event that no later event closes. -/
def Open (closes : α → α → Prop) (history : List α) (e : α) : Prop :=
  ∃ before later, history = before ++ e :: later ∧ ∀ x ∈ later, ¬ closes e x

/-- Between two conflicting events there is one that closes the first. -/
def Separated (conflict closes : α → α → Prop) (history : List α) : Prop :=
  ∀ before e between x later, history = before ++ e :: (between ++ x :: later) → conflict e x →
    ∃ y ∈ between, closes e y

theorem not_open_nil : ¬ Open closes [] e := by
  rintro ⟨before,later,split,_⟩
  simp at split

theorem separated_nil : Separated conflict closes [] := by
  intro before e between x later split
  simp at split

theorem append_cut {before later : List α} (split : history ++ [x] = before ++ e :: later) :
    (before = history ∧ e = x ∧ later = []) ∨
    ∃ rest, later = rest ++ [x] ∧ history = before ++ e :: rest := by
  rcases List.eq_nil_or_concat later with none | ⟨rest,last,some⟩
  · subst none
    obtain ⟨same,ends⟩ := List.append_inj' split rfl
    exact .inl ⟨same.symm,(List.cons.inj ends).1.symm,rfl⟩
  · rw [List.concat_eq_append] at some
    subst some
    have shape : history ++ [x] = (before ++ e :: rest) ++ [last] := by simp [split]
    obtain ⟨same,ends⟩ := List.append_inj' shape rfl
    obtain rfl := (List.cons.inj ends).1
    exact .inr ⟨rest,rfl,same⟩

theorem open_append : Open closes (history ++ [x]) e ↔
    e = x ∨ (Open closes history e ∧ ¬ closes e x) := by
  constructor
  · rintro ⟨before,later,split,still⟩
    rcases append_cut split with ⟨_,same,_⟩ | ⟨rest,grown,old⟩
    · exact .inl same
    · subst grown
      exact .inr ⟨⟨before,rest,old,fun y member => still y (by simp [member])⟩,still x (by simp)⟩
  · rintro (rfl | ⟨⟨before,later,split,still⟩,keeps⟩)
    · exact ⟨history,[],by simp,by simp⟩
    · refine ⟨before,later ++ [x],by simp [split],?_⟩
      intro y member
      rcases List.mem_append.mp member with old | new
      · exact still y old
      · rw [List.mem_singleton.mp new]
        exact keeps

/-- A history stays separated if its new event conflicts with no open one. -/
theorem Separated.append (old : Separated conflict closes history)
    (free : ∀ e, Open closes history e → ¬ conflict e x) :
    Separated conflict closes (history ++ [x]) := by
  intro before e between y later split clash
  rcases append_cut split with ⟨_,_,none⟩ | ⟨rest,grown,cut⟩
  · simp at none
  · rcases append_cut grown.symm with
      ⟨same,last,_⟩ | ⟨tail,_,inner⟩
    · subst same last
      by_contra never
      refine free e ⟨before,between,cut,?_⟩ clash
      exact fun z member closed => never ⟨z,member,closed⟩
    · exact old before e between y tail (by rw [cut,inner]) clash

theorem Open.or {other : α → α → Prop} (first : Open closes history e) (second : ∀ x ∈ history, ¬ other e x) :
    Open (fun a b => closes a b ∨ other a b) history e := by
  obtain ⟨before,later,split,still⟩ := first
  refine ⟨before,later,split,?_⟩
  rintro x member (closed | closed)
  · exact still x member closed
  · exact second x (by simp [split,member]) closed

/-- The event was made at position `n` when it was not open, and nothing has closed it since. -/
def OpenSince (closes : α → α → Prop) (history : List α) (e : α) (n : Nat) : Prop :=
  ∃ before later, history = before ++ e :: later ∧ before.length = n ∧ ¬ Open closes before e ∧
    ∀ x ∈ later, ¬ closes e x

theorem OpenSince.lt {n : Nat} (since : OpenSince closes history e n) : n < history.length := by
  obtain ⟨before,later,split,length,_⟩ := since
  simp [split,← length]

theorem OpenSince.append {n : Nat} (since : OpenSince closes history e n) (keeps : ¬ closes e x) :
    OpenSince closes (history ++ [x]) e n := by
  obtain ⟨before,later,split,length,first,still⟩ := since
  refine ⟨before,later ++ [x],by simp [split],length,first,fun y member => ?_⟩
  rcases List.mem_append.mp member with old | new
  · exact still y old
  · rw [List.mem_singleton.mp new]
    exact keeps

theorem OpenSince.new (first : ¬ Open closes history e) : OpenSince closes (history ++ [e]) e history.length :=
  ⟨history,[],by simp,rfl,first,by simp⟩

theorem Open.since (opened : Open closes history e) (quiet : ¬ closes e e) : ∃ n, OpenSince closes history e n := by
  induction history using List.reverseRecOn with
  | nil => exact absurd opened not_open_nil
  | append_singleton history x ih =>
    by_cases old : Open closes history e
    · have keeps : ¬ closes e x := (open_append.mp opened).elim (fun same => same ▸ quiet) And.right
      obtain ⟨n,since⟩ := ih old
      exact ⟨n,since.append keeps⟩
    · obtain rfl := (open_append.mp opened).resolve_right fun both => old both.1
      exact ⟨_,.new old⟩

/-- `e` took effect before `x`, and both are still open. -/
def Older (closes : α → α → Prop) (history : List α) (e x : α) : Prop :=
  ∃ n m, OpenSince closes history e n ∧ OpenSince closes history x m ∧ n < m

theorem Older.append {y : α} (older : Older closes history e x) (first : ¬ closes e y) (second : ¬ closes x y) :
    Older closes (history ++ [y]) e x := by
  obtain ⟨n,m,since,later,lt⟩ := older
  exact ⟨n,m,since.append first,later.append second,lt⟩

end Rucbase.Lib.History
