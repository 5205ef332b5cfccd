import Mathlib.Data.List.Basic

/-! Pairs of a key and an item, and what is left of them once some items were entered again under
new keys, each entry taking the place of the pairs with the same key. Old pairs of the items
themselves are not taken out. -/
namespace Rucbase.Lib.Reindex

variable {κ ι : Type} (same : κ → κ → Bool)

/-- The pairs with an item's new one, and without others of that key. -/
def enter (pairs : List (κ × ι)) (e : κ × ι) : List (κ × ι) := e :: pairs.filter fun old => !same old.1 e.1

/-- The items are entered one after the other. -/
def enterAll (new : ι → κ) (pairs : List (κ × ι)) (items : List ι) : List (κ × ι) :=
  items.foldl (fun pairs i => enter same pairs (new i,i)) pairs

variable {same} {new : ι → κ} {pairs : List (κ × ι)} {items : List ι}

theorem mem_enter {e other : κ × ι} : other ∈ enter same pairs e ↔ other = e ∨ other ∈ pairs ∧ same other.1 e.1 = false := by
  simp [enter]

theorem mem_enterAll (apart : ∀ i ∈ items, ∀ j ∈ items, same (new i) (new j) = true → i = j) {e : κ × ι} :
    e ∈ enterAll same new pairs items ↔
      (∃ i ∈ items, e = (new i,i)) ∨ e ∈ pairs ∧ ∀ i ∈ items, same e.1 (new i) = false := by
  induction items generalizing pairs with
  | nil => simp [enterAll]
  | cons i rest ih =>
    have later := @ih (enter same pairs (new i,i)) fun a first b second =>
      apart a (List.mem_cons_of_mem _ first) b (List.mem_cons_of_mem _ second)
    rw [show enterAll same new pairs (i :: rest) = enterAll same new (enter same pairs (new i,i)) rest from rfl,later,mem_enter]
    constructor
    · rintro (⟨j,member,rfl⟩ | ⟨rfl | ⟨old,free⟩,others⟩)
      · exact .inl ⟨j,List.mem_cons_of_mem _ member,rfl⟩
      · exact .inl ⟨i,List.mem_cons_self,rfl⟩
      · exact .inr ⟨old,List.forall_mem_cons.mpr ⟨free,others⟩⟩
    · rintro (⟨j,member,rfl⟩ | ⟨old,others⟩)
      · by_cases again : j ∈ rest
        · exact .inl ⟨j,again,rfl⟩
        · -- the last entry of an item stays, as nobody after it has its key
          obtain rfl : j = i := (List.mem_cons.mp member).resolve_right again
          refine .inr ⟨.inl rfl,fun k among => Bool.eq_false_iff.mpr fun equal => again ?_⟩
          rwa [apart j List.mem_cons_self k (List.mem_cons_of_mem _ among) equal]
      · obtain ⟨free,others⟩ := List.forall_mem_cons.mp others
        exact .inr ⟨.inr ⟨old,free⟩,others⟩

/-- If the pairs were those of the old keys, they are those of the new keys if and only if every
old key is a new key as well. -/
theorem enterAll_exact_iff {live : ι → Prop} {old : ι → κ} (reflexive : ∀ k, same k k = true)
    (before : ∀ e, e ∈ pairs ↔ ∃ i, live i ∧ e = (old i,i)) (among : ∀ i ∈ items, live i)
    (others : ∀ i, i ∉ items → new i = old i)
    (oldApart : ∀ i j, live i → live j → same (old i) (old j) = true → i = j)
    (newApart : ∀ i j, live i → live j → same (new i) (new j) = true → i = j) :
    (∀ e, e ∈ enterAll same new pairs items ↔ ∃ i, live i ∧ e = (new i,i)) ↔
      ∀ i, live i → ∃ j, live j ∧ same (old i) (new j) = true := by
  have apart : ∀ i ∈ items, ∀ j ∈ items, same (new i) (new j) = true → i = j :=
    fun i first j second => newApart i j (among i first) (among j second)
  constructor
  · intro exact i alive
    by_cases taken : ∃ j ∈ items, same (old i) (new j) = true
    · obtain ⟨j,member,equal⟩ := taken
      exact ⟨j,among j member,equal⟩
    · have stays : (old i,i) ∈ enterAll same new pairs items :=
        (mem_enterAll apart).mpr (.inr ⟨(before _).mpr ⟨i,alive,rfl⟩,fun j member =>
          Bool.eq_false_iff.mpr fun equal => taken ⟨j,member,equal⟩⟩)
      obtain ⟨j,_,pair⟩ := (exact _).mp stays
      obtain ⟨key,rfl⟩ := Prod.mk.inj pair
      exact ⟨i,alive,key ▸ reflexive _⟩
  · intro covered e
    rw [mem_enterAll apart]
    constructor
    · rintro (⟨i,member,rfl⟩ | ⟨was,free⟩)
      · exact ⟨i,among i member,rfl⟩
      · obtain ⟨i,alive,rfl⟩ := (before e).mp was
        obtain ⟨j,liveJ,equal⟩ := covered i alive
        have outside : j ∉ items := fun member => Bool.false_ne_true ((free j member).symm.trans equal)
        rw [others j outside] at equal
        obtain rfl := oldApart i j alive liveJ equal
        exact ⟨i,alive,by rw [others i outside]⟩
    · rintro ⟨i,alive,rfl⟩
      by_cases member : i ∈ items
      · exact .inl ⟨i,member,rfl⟩
      · refine .inr ⟨(before _).mpr ⟨i,alive,by rw [others i member]⟩,fun j listed => Bool.eq_false_iff.mpr fun equal => ?_⟩
        exact member (newApart i j alive (among j listed) equal ▸ listed)

end Rucbase.Lib.Reindex
