import Mathlib.Data.List.Perm.Basic
import Mathlib.Data.List.Nodup
import Mathlib.Data.List.Dedup
import Mathlib.Logic.Function.Basic

/-! Undo logs of a store that chooses its slots itself. Taking back a deletion puts the value into
any free slot, so a rolled back store holds the old values, but perhaps elsewhere; older entries of
the log are undone at the slots they name and need those values in place. -/
namespace Rucbase.Lib.Relocation

open Function

variable {κ ν : Type}

/-- `n` holds the values of `m`, each in the slot that `σ` gives. -/
structure Moved (σ : κ → κ) (m n : κ → Option ν) : Prop where
  carried : ∀ k v, m k = some v → n (σ k) = some v
  apart : ∀ k l, (m k).isSome = true → (m l).isSome = true → σ k = σ l → k = l
  onto : ∀ l, (n l).isSome = true → ∃ k, (m k).isSome = true ∧ σ k = l

theorem Moved.refl (m : κ → Option ν) : Moved id m m :=
  ⟨fun _ _ here => here,fun _ _ _ _ same => same,fun l live => ⟨l,live,rfl⟩⟩

theorem Moved.perm [DecidableEq κ] {σ : κ → κ} {m n : κ → Option ν} (moved : Moved σ m n) {before after : List κ}
    (distinct : before.Nodup) (distinct' : after.Nodup) (uses : ∀ k, k ∈ before ↔ (m k).isSome = true)
    (uses' : ∀ k, k ∈ after ↔ (n k).isSome = true) : (after.map n).Perm (before.map m) := by
  have images : (before.map σ).Nodup :=
    distinct.map_on fun k member l other same => moved.apart k l ((uses k).mp member) ((uses l).mp other) same
  have slots : after.Perm (before.map σ) := by
    refine (List.perm_ext_iff_of_nodup distinct' images).mpr fun l => ?_
    rw [uses',List.mem_map]
    constructor
    · intro live
      obtain ⟨k,used,rfl⟩ := moved.onto l live
      exact ⟨k,(uses k).mpr used,rfl⟩
    · rintro ⟨k,member,rfl⟩
      obtain ⟨v,here⟩ := Option.isSome_iff_exists.mp ((uses k).mp member)
      rw [moved.carried k v here]
      rfl
  refine (slots.map n).trans (.of_eq ?_)
  rw [List.map_map]
  refine List.map_congr_left fun k member => ?_
  obtain ⟨v,here⟩ := Option.isSome_iff_exists.mp ((uses k).mp member)
  rw [comp_apply,moved.carried k v here,here]

variable [DecidableEq κ] {σ : κ → κ} {m n : κ → Option ν}

theorem Moved.set (moved : Moved σ m n) {k : κ} (live : (m k).isSome = true) (fixed : σ k = k) (x : Option ν) :
    Moved σ (update m k x) (update n k x) := by
  have elsewhere {l : κ} (other : l ≠ k) (used : (m l).isSome = true) : σ l ≠ k :=
    fun same => other (moved.apart l k used live (same.trans fixed.symm))
  have used {l : κ} (other : l ≠ k) (later : (update m k x l).isSome = true) : (m l).isSome = true := by
    rwa [update_of_ne other] at later
  refine ⟨fun l v here => ?_,fun l l' live' live'' same => ?_,fun l live' => ?_⟩
  · by_cases other : l = k
    · subst other
      rw [update_self] at here
      rw [fixed,update_self,here]
    · rw [update_of_ne other] at here
      rw [update_of_ne (elsewhere other (by rw [here]; rfl))]
      exact moved.carried l v here
  · by_cases first : l = k
    · by_cases second : l' = k
      · rw [first,second]
      · rw [first,fixed] at same
        exact absurd same.symm (elsewhere second (used second live''))
    · by_cases second : l' = k
      · rw [second,fixed] at same
        exact absurd same (elsewhere first (used first live'))
      · exact moved.apart l l' (used first live') (used second live'') same
  · by_cases other : l = k
    · subst other
      exact ⟨l,by rwa [update_self] at live' ⊢,fixed⟩
    · rw [update_of_ne other] at live'
      obtain ⟨k',here,there⟩ := moved.onto l live'
      have apart : k' ≠ k := by
        rintro rfl
        exact other (there.symm.trans fixed)
      exact ⟨k',by rwa [update_of_ne apart],there⟩

theorem Moved.place (moved : Moved σ m n) {k l : κ} (free : m k = none) (free' : n l = none) (v : ν) :
    Moved (update σ k l) (update m k (some v)) (update n l (some v)) := by
  have elsewhere {k' : κ} (used : (m k').isSome = true) : σ k' ≠ l := by
    intro same
    obtain ⟨v',here⟩ := Option.isSome_iff_exists.mp used
    have there := moved.carried k' v' here
    rw [same,free'] at there
    cases there
  have used {k' : κ} (other : k' ≠ k) (later : (update m k (some v) k').isSome = true) :
      (m k').isSome = true := by
    rwa [update_of_ne other] at later
  refine ⟨fun k' v' here => ?_,fun k' k'' live live' same => ?_,fun l' live => ?_⟩
  · by_cases other : k' = k
    · subst other
      rw [update_self] at here ⊢
      rw [update_self,here]
    · rw [update_of_ne other] at here ⊢
      rw [update_of_ne (elsewhere (by rw [here]; rfl))]
      exact moved.carried k' v' here
  · by_cases first : k' = k
    · by_cases second : k'' = k
      · rw [first,second]
      · rw [first,update_self,update_of_ne second] at same
        exact absurd same.symm (elsewhere (used second live'))
    · by_cases second : k'' = k
      · rw [second,update_self,update_of_ne first] at same
        exact absurd same (elsewhere (used first live))
      · rw [update_of_ne first,update_of_ne second] at same
        exact moved.apart k' k'' (used first live) (used second live') same
  · by_cases other : l' = l
    · exact ⟨k,by simp,by simp [other]⟩
    · rw [update_of_ne other] at live
      obtain ⟨k',here,there⟩ := moved.onto l' live
      have apart : k' ≠ k := by
        rintro rfl
        simp [free] at here
      exact ⟨k',by rwa [update_of_ne apart],by rwa [update_of_ne apart]⟩

/-- An entry of the log: the slot, and the value an update or a deletion found there. -/
inductive Write (κ ν : Type) where
  | inserted (k : κ)
  | updated (k : κ) (old : ν)
  | deleted (k : κ) (old : ν)

namespace Write

def key : Write κ ν → κ
  | inserted k | updated k _ | deleted k _ => k

/-- What the operation behind an entry did. -/
def Did (m n : κ → Option ν) : Write κ ν → Prop
  | inserted k => m k = none ∧ ∃ v, n = update m k (some v)
  | updated k old => m k = some old ∧ ∃ v, n = update m k (some v)
  | deleted k old => m k = some old ∧ n = update m k none

/-- Taking an entry back. A deleted value may land in any free slot: no entry of `named`, those
still to be undone, looks for it in its own. -/
def Undone (named : List (Write κ ν)) (n next : κ → Option ν) : Write κ ν → Prop
  | inserted k => next = update n k none
  | updated k old => next = update n k (some old)
  | deleted k old => (∃ l, n l = none ∧ next = update n l (some old)) ∧ ∀ e ∈ named, e.key ≠ k

end Write

/-- The log, newest entry first, of what led from `start` to `now`. -/
def History (start : κ → Option ν) : List (Write κ ν) → (κ → Option ν) → Prop
  | [], now => now = start
  | w :: earlier, now => ∃ before, w.Did before now ∧ History start earlier before

/-- The store has the values of `m`, and those in slots that the log names are in place. -/
def InPlace (log : List (Write κ ν)) (m n : κ → Option ν) : Prop :=
  ∃ σ, Moved σ m n ∧ ∀ e ∈ log, (m e.key).isSome = true → σ e.key = e.key

omit [DecidableEq κ] in
theorem InPlace.refl (log : List (Write κ ν)) (m : κ → Option ν) : InPlace log m m :=
  ⟨id,.refl m,fun _ _ _ => rfl⟩

omit [DecidableEq κ] in
theorem InPlace.held {log : List (Write κ ν)} (place : InPlace log m n) {e : Write κ ν} (member : e ∈ log) {v : ν}
    (held : m e.key = some v) : n e.key = some v := by
  obtain ⟨σ,moved,fixed⟩ := place
  have there := moved.carried _ v held
  rwa [fixed e member (by rw [held]; rfl)] at there

theorem update_back {before : κ → Option ν} {k : κ} {x : Option ν} (held : before k = x) (y : Option ν) :
    update (update before k y) k x = before := by
  rw [update_idem,← held,update_eq_self]

theorem InPlace.undo {w : Write κ ν} {earlier : List (Write κ ν)} {before now n next : κ → Option ν}
    (place : InPlace (w :: earlier) now n) (did : w.Did before now) (undone : w.Undone earlier n next) :
    InPlace earlier before next := by
  obtain ⟨σ,moved,fixed⟩ := place
  cases w with
  | inserted k =>
    obtain ⟨absent,v,rfl⟩ := did
    have here : σ k = k := fixed _ (List.mem_cons_self ..) (by simp [Write.key])
    refine ⟨σ,?_,fun e member live => fixed e (List.mem_cons_of_mem _ member) ?_⟩
    · have back := moved.set (by simp) here none
      rwa [update_back absent,← undone] at back
    · have apart : e.key ≠ k := fun same => by simp [same,absent] at live
      rwa [update_of_ne apart]
  | updated k old =>
    obtain ⟨held,v,rfl⟩ := did
    have here : σ k = k := fixed _ (List.mem_cons_self ..) (by simp [Write.key])
    refine ⟨σ,?_,fun e member live => fixed e (List.mem_cons_of_mem _ member) ?_⟩
    · have back := moved.set (by simp) here (some old)
      rwa [update_back held,← undone] at back
    · by_cases same : e.key = k
      · simp [same]
      · rwa [update_of_ne same]
  | deleted k old =>
    obtain ⟨held,rfl⟩ := did
    obtain ⟨⟨l,free,rfl⟩,unnamed⟩ := undone
    refine ⟨update σ k l,?_,fun e member live => ?_⟩
    · have back := moved.place (k := k) (by simp) free old
      rwa [update_back held] at back
    · have apart := unnamed e member
      rw [update_of_ne apart]
      exact fixed e (List.mem_cons_of_mem _ member) (by rwa [update_of_ne apart])

end Rucbase.Lib.Relocation
