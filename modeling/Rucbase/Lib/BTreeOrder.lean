import Rucbase.Lib.BTree
import Mathlib.Order.Defs.LinearOrder

/-! The order of the keys of a tree, through a rank in a linear order: where a label leads
a search, and what stands on both sides of the path it takes. -/
namespace Rucbase.Lib.BTree

variable {ι κ ρ β L : Type} {h : Nat} [LinearOrder L] (rank : κ → L)

/-- Keys strictly increasing. -/
def Sorted (l : List (κ × β)) : Prop := l.Pairwise fun a b => rank a.1 < rank b.1

def AllBelow (key : κ) (l : List (κ × β)) : Prop := ∀ e ∈ l, rank e.1 < rank key

def AllAbove (key : κ) (l : List (κ × β)) : Prop := ∀ e ∈ l, rank key < rank e.1

def Path.entriesLeft (path : Path ι κ ρ h) : List (κ × ρ) := path.collectLeft fun leaf => leaf.items

def Path.entriesRight (path : Path ι κ ρ h) : List (κ × ρ) :=
  path.collectRight fun leaf => leaf.items

def Root.entries (r : Root ι κ ρ) : List (κ × ρ) := BTree.entries r.tree

variable {rank} {lo hi : Nat}

theorem plug_entries (path : Path ι κ ρ h) (t : Tree ι κ ρ h) :
    (plug path t).entries = path.entriesLeft ++ entries t ++ path.entriesRight :=
  plug_collect _ path t

theorem entries_succ (t : Tree ι κ ρ (h + 1)) :
    entries t = List.flatMap (fun kid : κ × Tree ι κ ρ h => entries kid.2) t.items := rfl

variable {l r : List (κ × β)} {key : κ}

theorem sorted_insert (value : β) (sorted : Sorted rank (l ++ r)) (below : AllBelow rank key l)
    (above : AllAbove rank key r) :
    Sorted rank (l ++ (key,value) :: r) := by
  obtain ⟨left,right,across⟩ := List.pairwise_append.mp sorted
  refine List.pairwise_append.mpr ⟨left,List.pairwise_cons.mpr ⟨above,right⟩,fun a member => ?_⟩
  exact List.forall_mem_cons.mpr ⟨below a member,across a member⟩

theorem sorted_without {k : κ} {value : β} (sorted : Sorted rank (l ++ (k,value) :: r)) (same : rank k = rank key) :
    (l ++ (k,value) :: r).filter (fun e => rank e.1 ≠ rank key) = l ++ r := by
  obtain ⟨_,behind,across⟩ := List.pairwise_append.mp sorted
  have leftStays : ∀ e ∈ l, rank e.1 ≠ rank key := fun e member =>
    same ▸ ne_of_lt (across e member (k,value) List.mem_cons_self)
  have rightStays : ∀ e ∈ r, rank e.1 ≠ rank key := fun e member =>
    same ▸ ne_of_gt ((List.pairwise_cons.mp behind).1 e member)
  rw [List.filter_append,List.filter_cons_of_neg (by simpa using same),List.filter_eq_self.mpr (by simpa using leftStays),
    List.filter_eq_self.mpr (by simpa using rightStays)]

variable (rank) in
/-- The value of the first entry with the key's rank. -/
def lookup (l : List (κ × β)) (key : κ) : Option β :=
  (l.find? fun e => rank e.1 = rank key).map Prod.snd

theorem lookup_present {k : κ} {value : β} (below : AllBelow rank key l) (same : rank k = rank key) :
    lookup rank (l ++ (k,value) :: r) key = some value := by
  have passed : l.find? (fun e => rank e.1 = rank key) = none :=
    List.find?_eq_none.mpr fun e member => by simpa using ne_of_lt (below e member)
  simp [lookup,List.find?_append,passed,same]

theorem lookup_absent (below : AllBelow rank key l) (above : AllAbove rank key r) : lookup rank (l ++ r) key = none := by
  have missing : (l ++ r).find? (fun e => rank e.1 = rank key) = none := by
    refine List.find?_eq_none.mpr (List.forall_mem_append.mpr ⟨fun e member => ?_,fun e member => ?_⟩)
    · simpa using ne_of_lt (below e member)
    · simpa using ne_of_gt (above e member)
  rw [lookup,missing,Option.map_none]

theorem lookup_insert (value : β) (below : AllBelow rank key l) (k : κ) : lookup rank (l ++ (key,value) :: r) k =
      if rank k = rank key then some value else lookup rank (l ++ r) k := by
  by_cases same : rank k = rank key
  · rw [if_pos same]
    exact lookup_present (fun e member => same ▸ below e member) same.symm
  · rw [if_neg same]
    simp [lookup,List.find?_append,Ne.symm same]

theorem sorted_cut (sorted : Sorted rank l) (test : κ → Prop) (down : ∀ a b, rank a < rank b → test b → test a) :
    ∃ low high, l = low ++ high ∧ (∀ e ∈ low, test e.1) ∧ ∀ e ∈ high, ¬test e.1 := by
  induction l with
  | nil => exact ⟨[],[],rfl,nofun,nofun⟩
  | cons a l ih =>
    obtain ⟨first,rest⟩ := List.pairwise_cons.mp sorted
    by_cases passes : test a.1
    · obtain ⟨low,high,rfl,pass,fail⟩ := ih rest
      exact ⟨a :: low,high,rfl,List.forall_mem_cons.mpr ⟨passes,pass⟩,fail⟩
    · refine ⟨[],a :: l,rfl,nofun,List.forall_mem_cons.mpr ⟨passes,fun e member later => ?_⟩⟩
      exact passes (down a.1 e.1 (first e member) later)

theorem sorted_below (sorted : Sorted rank l) (key : κ) :
    ∃ low high, l = low ++ high ∧ AllBelow rank key low ∧ ∀ e ∈ high, ¬rank e.1 < rank key :=
  sorted_cut sorted (fun k => rank k < rank key) fun _ _ less small => lt_trans less small

theorem sorted_upTo (sorted : Sorted rank l) (key : κ) :
    ∃ low high, l = low ++ high ∧ (∀ e ∈ low, rank e.1 ≤ rank key) ∧ AllAbove rank key high := by
  obtain ⟨low,high,cut,below,above⟩ := sorted_cut sorted (fun k => rank k ≤ rank key)
    fun _ _ less small => (lt_of_lt_of_le less small).le
  exact ⟨low,high,cut,below,fun e member => not_le.mp (above e member)⟩

theorem sorted_place (sorted : Sorted rank l) (key : κ) :
    (∃ low k value high, l = low ++ (k,value) :: high ∧ AllBelow rank key low ∧ rank k = rank key) ∨
      ∃ low high, l = low ++ high ∧ AllBelow rank key low ∧ AllAbove rank key high := by
  obtain ⟨low,high,rfl,below,rest⟩ := sorted_below sorted key
  cases high with
  | nil => exact .inr ⟨low,[],rfl,below,nofun⟩
  | cons e high =>
    obtain ⟨k,value⟩ := e
    have least := not_lt.mp (rest (k,value) List.mem_cons_self)
    rcases lt_or_eq_of_le least with larger | same
    · have after := (List.pairwise_cons.mp (List.pairwise_append.mp sorted).2.1).1
      exact .inr ⟨low,(k,value) :: high,rfl,below,
        List.forall_mem_cons.mpr ⟨larger,fun e member => lt_trans larger (after e member)⟩⟩
    · exact .inl ⟨low,k,value,high,rfl,below,same.symm⟩

theorem firstKey_split {t : Bundle ι κ β} (labelled : firstKey t = some key) :
    ∃ value rest, t.items = (key,value) :: rest := by
  obtain ⟨page,items⟩ := t
  cases items with
  | nil => simp [firstKey] at labelled
  | cons first rest =>
    obtain ⟨k,value⟩ := first
    obtain rfl : k = key := by simpa [firstKey] using labelled
    exact ⟨value,rest,rfl⟩

theorem first_entry {t : Tree ι κ ρ h} (sound : Sound lo hi false (key,t)) :
    ∃ value rest, entries t = (key,value) :: rest := by
  induction h generalizing key with
  | zero => exact firstKey_split (sound.1 rfl)
  | succ h ih =>
    obtain ⟨kid,more,items⟩ := firstKey_split (sound.1 rfl)
    have below := below_succ.mp sound.2.2.2
    rw [items] at below
    obtain ⟨value,rest,first⟩ := ih below.1
    rw [entries_succ,items,List.flatMap_cons,first]
    exact ⟨value,_,rfl⟩

theorem label_mem_entries {t : Tree ι κ ρ h} (sound : Sound lo hi false (key,t)) : ∃ value, (key,value) ∈ entries t := by
  obtain ⟨value,rest,first⟩ := first_entry sound
  exact ⟨value,first ▸ List.mem_cons_self⟩

theorem before_label {left : Bool} {before after : List (κ × Tree ι κ ρ h)} {t : Tree ι κ ρ h}
    (sound : FirstRest (Sound lo hi) left (before ++ (key,t) :: after)) (inner : before ≠ [])
    (sorted : Sorted rank ((before ++ (key,t) :: after).flatMap fun kid => entries kid.2)) :
    AllBelow rank key (before.flatMap fun kid => entries kid.2) := by
  intro e member
  have labelled : Sound lo hi false (key,t) := by
    have rest := (firstRest_append.mp sound).2
    rw [List.isEmpty_eq_false_iff.mpr inner,Bool.and_false] at rest
    exact rest.1
  obtain ⟨value,first⟩ := label_mem_entries labelled
  rw [List.flatMap_append,List.flatMap_cons] at sorted
  exact (List.pairwise_append.mp sorted).2.2 e member _ (List.mem_append_left _ first)

theorem labels_sorted {left : Bool} {items : List (κ × Tree ι κ ρ h)} (sound : FirstRest (Sound lo hi) left items)
    (sorted : Sorted rank (items.flatMap fun kid => entries kid.2)) :
    Sorted rank items.tail := by
  cases items with
  | nil => exact .nil
  | cons first rest =>
    obtain ⟨_,pairs⟩ := List.pairwise_flatMap.mp sorted
    refine (List.pairwise_cons.mp pairs).2.imp_of_mem fun {a b} inA inB across => ?_
    obtain ⟨_,memberA⟩ := label_mem_entries (sound.2 a inA)
    obtain ⟨_,memberB⟩ := label_mem_entries (sound.2 b inB)
    exact across _ memberA _ memberB

theorem entriesLeft_up (page : ι) (before : List (κ × Tree ι κ ρ h)) (key : κ) (after : List (κ × Tree ι κ ρ h))
    (rest : Path ι κ ρ (h + 1)) :
    (Path.up page before key after rest).entriesLeft =
      rest.entriesLeft ++ before.flatMap fun kid => entries kid.2 := rfl

theorem entriesRight_up (page : ι) (before : List (κ × Tree ι κ ρ h)) (key : κ) (after : List (κ × Tree ι κ ρ h))
    (rest : Path ι κ ρ (h + 1)) :
    (Path.up page before key after rest).entriesRight =
      (after.flatMap fun kid => entries kid.2) ++ rest.entriesRight := rfl

end Rucbase.Lib.BTree
