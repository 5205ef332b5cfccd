import Mathlib.Logic.Function.Basic
import Mathlib.Data.List.Nodup

/-! Doubly linked lists: `links a` names the cells before and after `a`. -/
namespace Rucbase.Lib

variable {ι : Type} {links : ι → Option (ι × ι)} {a b p q after : ι} {l r rest : List ι}

/-- Following the links from `a` visits `l`, and the links back agree. -/
def Chained (links : ι → Option (ι × ι)) : ι → List ι → Prop
  | _, [] => True
  | a, b :: rest =>
    (links a).map Prod.snd = some b ∧ (links b).map Prod.fst = some a ∧ Chained links b rest

theorem chained_append :
    Chained links a (l ++ b :: r) ↔ Chained links a (l ++ [b]) ∧ Chained links b r := by
  induction l generalizing a with
  | nil => simp [Chained,and_assoc]
  | cons c l ih => simp [Chained,ih,and_assoc]

theorem Chained.left (chain : Chained links a (l ++ r)) : Chained links a l := by
  induction l generalizing a with
  | nil => trivial
  | cons b l ih => exact ⟨chain.1,chain.2.1,ih chain.2.2⟩

/-- Only the way on from the cells before the last, and the way back from those after the
first, matter. -/
theorem Chained.congr {links' : ι → Option (ι × ι)} (chain : Chained links a l)
    (next : ∀ u ∈ a :: l.dropLast, (links' u).map Prod.snd = (links u).map Prod.snd)
    (prev : ∀ v ∈ l, (links' v).map Prod.fst = (links v).map Prod.fst) : Chained links' a l := by
  induction l generalizing a with
  | nil => trivial
  | cons b rest ih =>
    obtain ⟨onward,back,others⟩ := chain
    refine ⟨(next a List.mem_cons_self).trans onward,(prev b List.mem_cons_self).trans back,?_⟩
    cases rest with
    | nil => trivial
    | cons c rest =>
      apply ih others
      · intro u member
        apply next u
        rw [List.dropLast_cons_cons]
        exact List.mem_cons_of_mem _ member
      · exact fun v member => prev v (List.mem_cons_of_mem _ member)

section Insert

variable [DecidableEq ι]

/-- The links once the new cell `q` stands between `p` and `after`. -/
def relink (links : ι → Option (ι × ι)) (p q after prev beyond : ι) : ι → Option (ι × ι) :=
  Function.update (Function.update (Function.update links q (some (p,after)))
    p (some (prev,q))) after (some (q,beyond))

variable {prev beyond u : ι}

theorem relink_next (afterLinks : links after = some (p,beyond)) (notP : u ≠ p) (notQ : u ≠ q) :
    (relink links p q after prev beyond u).map Prod.snd = (links u).map Prod.snd := by
  by_cases same : u = after
  · subst u; simp [relink,afterLinks]
  · simp [relink,same,notP,notQ]

theorem relink_prev (pLinks : links p = some (prev,after)) (notAfter : u ≠ after) (notQ : u ≠ q) :
    (relink links p q after prev beyond u).map Prod.fst = (links u).map Prod.fst := by
  by_cases same : u = p
  · subst u; simp [relink,pLinks,notAfter]
  · simp [relink,notAfter,same,notQ]

theorem Chained.insert (chain : Chained links a (l ++ p :: after :: rest))
    (distinct : (l ++ p :: after :: rest).Nodup) (inner : p ≠ a) (fresh : q ∉ l ++ p :: after :: rest)
    (freshStart : q ≠ a) :
    ∃ prev beyond, links p = some (prev,after) ∧ links after = some (p,beyond) ∧
      Chained (relink links p q after prev beyond) a (l ++ p :: q :: after :: rest) := by
  obtain ⟨start,onward,back,finish⟩ := chained_append.mp chain
  obtain ⟨⟨prev,_⟩,pLinks,rfl⟩ := Option.map_eq_some_iff.mp onward
  obtain ⟨⟨_,beyond⟩,afterLinks,rfl⟩ := Option.map_eq_some_iff.mp back
  simp only [List.nodup_append,List.nodup_cons,List.mem_cons,not_or,List.mem_append] at distinct fresh
  obtain ⟨_,⟨⟨pAfter,pRest⟩,afterRest,_⟩,apart⟩ := distinct
  obtain ⟨qL,qP,qAfter,qRest⟩ := fresh
  refine ⟨prev,beyond,pLinks,afterLinks,chained_append.mpr ⟨start.congr ?_ ?_,?_,?_,?_,?_,finish.congr ?_ ?_⟩⟩
  · rw [List.dropLast_concat]
    intro u member
    apply relink_next afterLinks
    · rcases List.mem_cons.mp member with rfl | inside
      · exact inner.symm
      · exact apart u inside _ (.inl rfl)
    · rcases List.mem_cons.mp member with rfl | inside
      · exact freshStart.symm
      · exact ne_of_mem_of_not_mem inside qL
  · intro v member
    rcases List.mem_append.mp member with inside | single
    · exact relink_prev pLinks (apart v inside _ (.inr (.inl rfl))) (ne_of_mem_of_not_mem inside qL)
    · rw [List.mem_singleton.mp single]
      exact relink_prev pLinks pAfter (Ne.symm qP)
  · simp [relink,pAfter]
  · simp [relink,qAfter,qP]
  · simp [relink,qAfter,qP]
  · simp [relink]
  · intro u member
    apply relink_next afterLinks
    · rcases List.mem_cons.mp member with rfl | inside
      · exact Ne.symm pAfter
      · exact ne_of_mem_of_not_mem ((List.dropLast_sublist _).subset inside) pRest
    · rcases List.mem_cons.mp member with rfl | inside
      · exact Ne.symm qAfter
      · exact ne_of_mem_of_not_mem ((List.dropLast_sublist _).subset inside) qRest
  · intro v member
    exact relink_prev pLinks (ne_of_mem_of_not_mem member afterRest) (ne_of_mem_of_not_mem member qRest)

end Insert

section Erase

variable [DecidableEq ι]

/-- The links once the cell between `p` and `after` is gone. -/
def unlink (links : ι → Option (ι × ι)) (p after prev beyond : ι) : ι → Option (ι × ι) :=
  Function.update (Function.update links p (some (prev,after))) after (some (p,beyond))

variable {prev beyond u : ι}

theorem unlink_next (afterLinks : links after = some (q,beyond)) (notP : u ≠ p) :
    (unlink links p after prev beyond u).map Prod.snd = (links u).map Prod.snd := by
  by_cases same : u = after
  · subst u; simp [unlink,afterLinks]
  · simp [unlink,same,notP]

theorem unlink_prev (pLinks : links p = some (prev,q)) (notAfter : u ≠ after) :
    (unlink links p after prev beyond u).map Prod.fst = (links u).map Prod.fst := by
  by_cases same : u = p
  · subst u; simp [unlink,pLinks,notAfter]
  · simp [unlink,notAfter,same]

theorem Chained.erase (chain : Chained links a (l ++ p :: q :: after :: rest))
    (distinct : (l ++ p :: q :: after :: rest).Nodup) (inner : p ≠ a) :
    ∃ prev beyond, links p = some (prev,q) ∧ links q = some (p,after) ∧ links after = some (q,beyond) ∧
      Chained (unlink links p after prev beyond) a (l ++ p :: after :: rest) := by
  obtain ⟨start,toQ,backQ,toAfter,backAfter,finish⟩ := chained_append.mp chain
  obtain ⟨⟨prev,_⟩,pLinks,rfl⟩ := Option.map_eq_some_iff.mp toQ
  obtain ⟨⟨_,next⟩,qLinks,rfl⟩ := Option.map_eq_some_iff.mp backQ
  obtain ⟨⟨_,beyond⟩,afterLinks,rfl⟩ := Option.map_eq_some_iff.mp backAfter
  rw [qLinks] at toAfter
  obtain rfl := Option.some.inj toAfter
  simp only [List.nodup_append,List.nodup_cons,List.mem_cons,not_or] at distinct
  obtain ⟨_,⟨⟨pQ,pAfter,pRest⟩,_,afterRest,_⟩,apart⟩ := distinct
  refine ⟨prev,beyond,pLinks,qLinks,afterLinks,chained_append.mpr ⟨start.congr ?_ ?_,?_,?_,finish.congr ?_ ?_⟩⟩
  · rw [List.dropLast_concat]
    intro u member
    apply unlink_next afterLinks
    rcases List.mem_cons.mp member with rfl | inside
    · exact inner.symm
    · exact apart u inside _ (.inl rfl)
  · intro v member
    apply unlink_prev pLinks
    rcases List.mem_append.mp member with inside | single
    · exact apart v inside _ (.inr (.inr (.inl rfl)))
    · rw [List.mem_singleton.mp single]
      exact pAfter
  · simp [unlink,pAfter]
  · simp [unlink]
  · intro u member
    apply unlink_next afterLinks
    rcases List.mem_cons.mp member with rfl | inside
    · exact Ne.symm pAfter
    · exact ne_of_mem_of_not_mem ((List.dropLast_sublist _).subset inside) pRest
  · exact fun v member => unlink_prev pLinks (ne_of_mem_of_not_mem member afterRest)

end Erase

end Rucbase.Lib
