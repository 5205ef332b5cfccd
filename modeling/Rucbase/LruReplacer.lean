import Mathlib.Data.List.Basic
import Mathlib.Data.List.Nodup
import Mathlib.Logic.Function.Basic

/-! The LRU replacer. `std::list` iterators stay valid while other nodes come and go, so a
list node carries an identity of its own and `LRUhash_` stores that identity. Frame ids are
only compared. -/
namespace Rucbase

abbrev FrameId := Nat

/-- The nodes of `LRUlist_` from front to back with their identities, and `LRUhash_`. -/
structure LruReplacer (φ : Type) where
  lruList : List (Nat × φ)
  lruHash : φ → Option Nat
  nextNode : Nat
  maxSize : Nat

namespace LruReplacer

variable {φ : Type}

def start (numPages : Nat) : LruReplacer φ := ⟨[],fun _ => none,0,numPages⟩

variable [DecidableEq φ]

/-- The frame at the back of the list leaves. -/
def victim (r : LruReplacer φ) : Option φ × LruReplacer φ :=
  match r.lruList.getLast? with
  | none => (none,r)
  | some (_,frameId) => (some frameId,{ r with
      lruList := r.lruList.dropLast
      lruHash := Function.update r.lruHash frameId none })

def pin (r : LruReplacer φ) (frameId : φ) : LruReplacer φ :=
  match r.lruHash frameId with
  | some node => { r with
      lruList := r.lruList.eraseP (fun e => e.1 = node)
      lruHash := Function.update r.lruHash frameId none }
  | none => r

/-- A frame already listed keeps its place; any other goes to the front. -/
def unpin (r : LruReplacer φ) (frameId : φ) : LruReplacer φ :=
  match r.lruHash frameId with
  | some _ => r
  | none => { r with
      lruList := (r.nextNode,frameId) :: r.lruList
      lruHash := Function.update r.lruHash frameId (some r.nextNode)
      nextNode := r.nextNode + 1 }

def size (r : LruReplacer φ) : Nat := r.lruList.length

/-- The listed frames from the most to the least recently unpinned. -/
def frames (r : LruReplacer φ) : List φ := r.lruList.map Prod.snd

/-- List and hash describe each other. -/
structure Linked (r : LruReplacer φ) : Prop where
  nodes : (r.lruList.map Prod.fst).Nodup
  distinct : r.frames.Nodup
  hash : ∀ f n, r.lruHash f = some n ↔ (n,f) ∈ r.lruList
  fresh : ∀ e ∈ r.lruList, e.1 < r.nextNode

omit [DecidableEq φ] in
theorem start_linked (numPages : Nat) : (start numPages : LruReplacer φ).Linked := by
  refine ⟨?_,?_,?_,?_⟩ <;> simp [start,frames]

variable {r : LruReplacer φ}

omit [DecidableEq φ] in
theorem Linked.mem_frames (linked : r.Linked) (f : φ) : f ∈ r.frames ↔ (r.lruHash f).isSome := by
  rw [Option.isSome_iff_exists]
  simp only [linked.hash,frames,List.mem_map,Prod.exists]
  constructor
  · rintro ⟨n,g,member,rfl⟩
    exact ⟨n,member⟩
  · rintro ⟨n,member⟩
    exact ⟨n,f,member,rfl⟩

theorem Linked.remove (linked : r.Linked) {before after : List (Nat × φ)} {n : Nat} {f : φ}
    (split : r.lruList = before ++ (n,f) :: after) :
    Linked { r with lruList := before ++ after, lruHash := Function.update r.lruHash f none } := by
  have sub : (before ++ after).Sublist r.lruList := by
    rw [split]
    exact List.Sublist.append (List.Sublist.refl _) (List.sublist_cons_self _ _)
  have apart : ∀ e ∈ before ++ after, e.2 ≠ f := by
    intro e member same
    have distinct := linked.distinct
    simp only [frames,split,List.map_append,List.map_cons,List.nodup_append,List.nodup_cons] at distinct
    rcases List.mem_append.mp member with left | right
    · exact distinct.2.2 e.2 (List.mem_map_of_mem left) f (by simp) same
    · exact distinct.2.1.1 (by rw [← same]; exact List.mem_map_of_mem right)
  refine ⟨linked.nodes.sublist (sub.map _),linked.distinct.sublist (sub.map _),?_,?_⟩
  · intro g m
    by_cases same : g = f
    · subst g
      simp only [Function.update_self,reduceCtorEq,false_iff]
      exact fun member => apart _ member rfl
    · have old := linked.hash g m
      rw [split] at old
      simpa [same] using old
  · exact fun e member => linked.fresh e (sub.subset member)

theorem victim_none (r : LruReplacer φ) (none : (r.victim).1 = none) :
    r.frames = [] ∧ r.victim.2 = r := by
  unfold victim at none ⊢
  cases last : r.lruList.getLast? with
  | none => exact ⟨by simp [frames,List.getLast?_eq_none_iff.mp last],rfl⟩
  | some e => simp [last] at none

theorem victim_some {next : LruReplacer φ} {f : φ} (linked : r.Linked) (chosen : r.victim = (some f,next)) :
    r.frames = next.frames ++ [f] ∧ next.Linked := by
  unfold victim at chosen
  cases last : r.lruList.getLast? with
  | none => simp [last] at chosen
  | some e =>
    obtain ⟨n,g⟩ := e
    simp only [last,Prod.mk.injEq,Option.some.injEq] at chosen
    obtain ⟨rfl,rfl⟩ := chosen
    have split : r.lruList = r.lruList.dropLast ++ (n,g) :: [] :=
      (List.dropLast_append_getLast? _ last).symm
    refine ⟨by simp only [frames]; rw [split]; simp,?_⟩
    simpa using linked.remove split

theorem pin_spec (linked : r.Linked) (f : φ) : (r.pin f).frames = r.frames.erase f ∧ (r.pin f).Linked := by
  unfold pin
  cases hashed : r.lruHash f with
  | none =>
    have absent : f ∉ r.frames := by simp [linked.mem_frames,hashed]
    exact ⟨(List.erase_of_not_mem absent).symm,linked⟩
  | some n =>
    obtain ⟨before,after,split⟩ := List.append_of_mem ((linked.hash f n).mp hashed)
    have nodes := linked.nodes
    have distinct := linked.distinct
    simp only [frames,split,List.map_append,List.map_cons,List.nodup_append] at nodes distinct
    have notNode : ∀ e ∈ before, ¬ (decide (e.1 = n) = true) := by
      intro e member same
      exact nodes.2.2 e.1 (List.mem_map_of_mem member) n (by simp) (of_decide_eq_true same)
    have notFrame : f ∉ before.map Prod.snd := by
      intro member
      exact distinct.2.2 f member f (by simp) rfl
    have rest : r.lruList.eraseP (fun e => e.1 = n) = before ++ after := by
      rw [split,List.eraseP_append_right _ notNode]
      simp
    simp only [rest]
    refine ⟨?_,linked.remove split⟩
    simp only [frames,split,List.map_append,List.map_cons]
    rw [List.erase_append_right _ notFrame]
    simp

theorem unpin_spec (linked : r.Linked) (f : φ) : (r.unpin f).frames = (if f ∈ r.frames then r.frames else f :: r.frames) ∧
    (r.unpin f).Linked := by
  unfold unpin
  cases hashed : r.lruHash f with
  | some n =>
    have present : f ∈ r.frames := by simp [linked.mem_frames,hashed]
    simpa [present] using linked
  | none =>
    have absent : f ∉ r.frames := by simp [linked.mem_frames,hashed]
    refine ⟨by rw [if_neg absent]; rfl,?_,?_,?_,?_⟩
    · refine List.nodup_cons.mpr ⟨?_,linked.nodes⟩
      intro member
      obtain ⟨e,inside,same⟩ := List.mem_map.mp member
      have := linked.fresh e inside
      omega
    · exact List.nodup_cons.mpr ⟨absent,linked.distinct⟩
    · intro g m
      by_cases same : g = f
      · have gone : (m,f) ∉ r.lruList := fun member => by
          simp [(linked.hash f m).mpr member] at hashed
        simp [same,gone,eq_comm]
      · simp [linked.hash,same]
    · intro e member
      rcases List.mem_cons.mp member with rfl | old
      · exact Nat.lt_succ_self _
      · exact Nat.lt_succ_of_lt (linked.fresh e old)

end LruReplacer

end Rucbase
