import Rucbase.IndexEviction

/-! The pins that the calls of an index take and drop. Growing a new root leaves the root pinned,
and a merge with the right brother drops the pin of the wrong leaf. -/
namespace Rucbase

open Lib Lib.BTree IxIndexHandle IndexTree Prog

variable {κ : Type}

variable {pos rounds : Nat}

namespace IndexTree

open IndexFile (store)

/-- One more pair splits the page and every page above it. -/
def fullUp (t : IndexFile κ) : Nat → Int → Bool
  | 0, _ => false
  | rounds + 1, p => (t.pages p).any fun node =>
    ((node.size + 1 : Nat) : Int) = t.hdr.maxSize && (node.parent = invalidPageId || fullUp t rounds node.parent)

def growsRoot (cmp : κ → κ → Int) (key : κ) (t : IndexFile κ) : Bool :=
  match (findLeafPage store cmp key t).1 with
  | .error _ => false
  | .ok p => (t.pages p).any fun node => (node.insertPos cmp key).isSome && fullUp t t.nextPage p

/-- Deleting the key merges a leaf with the one on its right. -/
def mergesRight (cmp : κ → κ → Int) (key : κ) (t : IndexFile κ) : Bool :=
  match (findLeafPage store cmp key t).1 with
  | .error _ => false
  | .ok p => (t.pages p).any fun node => (node.removePos cmp key).isSome && node.parent ≠ invalidPageId &&
    node.size ≤ t.hdr.minSize && (t.pages node.parent).any fun parent => parent.findChild p = some 0 &&
      parent.pairs[1]?.any fun pair => (t.pages pair.2.pageNo).any fun sibling =>
        node.size + sibling.size ≤ t.hdr.minSize * 2

section Root

variable {proper : κ → Prop} {order h : Nat} {t : IndexFile κ}

/-- The nodes above the hole have no room for another child. -/
def PathFull (order : Nat) : {h : Nat} → IxPath κ h → Prop
  | _, .top => True
  | _, .up _ before _ after rest => before.length + after.length + 1 = order ∧ PathFull order rest

theorem Housed.fullUp_step {path : IxPath κ h} {tree : IxTree κ h} (housed : Housed proper order t (plug path tree)) (rounds : Nat) :
    fullUp t (rounds + 1) tree.page = true ↔
      tree.items.length = order ∧ (above path = invalidPageId ∨ fullUp t rounds (above path) = true) := by
  obtain ⟨node,there,_,parent,_,size⟩ := housed.node_found
  have limit : ((node.size + 1 : Nat) : Int) = t.hdr.maxSize ↔ tree.items.length = order := by
    rw [IxFileHdr.maxSize,housed.ordered,size]
    omega
  rw [fullUp,there,← parent]
  simp only [Option.any_some,Bool.and_eq_true,decide_eq_true_eq,limit,Bool.or_eq_true]

theorem fullUp_iff {path : IxPath κ h} {tree : IxTree κ h} (housed : Housed proper order t (plug path tree))
    (enough : path.depth < rounds) :
    fullUp t rounds tree.page = true ↔ tree.items.length = order ∧ PathFull order path := by
  induction path generalizing rounds with
  | top =>
    obtain ⟨rounds,rfl⟩ := Nat.exists_eq_add_of_lt enough
    rw [housed.fullUp_step]
    simp [above,PathFull]
  | up page before k after rest ih =>
    obtain ⟨rounds,rfl⟩ := Nat.exists_eq_add_of_lt enough
    have whole : Housed proper order t (plug rest ⟨page,before ++ (k,tree) :: after⟩) := housed
    have upper := ih whole (by simp only [Path.depth]; omega : rest.depth < (Path.up page before k after rest).depth + rounds)
    have count : (before ++ (k,tree) :: after).length = before.length + after.length + 1 := by simp [Nat.add_assoc]
    rw [housed.fullUp_step,above,or_iff_right housed.parent_valid,upper,count]
    rfl

theorem graft_page (order : Nat) (path : IxPath κ h) (next : Nat) (tree new : IxTree κ h) (key : κ) :
    (PathFull order path → ∃ n ≥ next, (graft (Nat.cast : Nat → Int) (order + 1) next path tree key new).1.tree.page = (n : Int)) ∧
    (¬PathFull order path → (graft (Nat.cast : Nat → Int) (order + 1) next path tree key new).1.tree.page = rootOf path tree.page) := by
  induction path generalizing next key with
  | top => exact ⟨fun _ => ⟨next,le_refl _,rfl⟩,fun room => absurd trivial room⟩
  | up page before k after rest ih =>
    by_cases full : (before ++ (k,tree) :: (key,new) :: after).length = order + 1
    · have own : before.length + after.length + 1 = order := by simp at full; omega
      rw [graft_full next tree new key rfl full]
      obtain ⟨grown,stays⟩ := ih (next + 1) ⟨page,_⟩ ⟨(next : Int),_⟩ _
      refine ⟨fun all => ?_,fun room => stays fun upper => room ⟨own,upper⟩⟩
      obtain ⟨n,least,same⟩ := grown all.2
      exact ⟨n,by omega,same⟩
    · have own : before.length + after.length + 1 ≠ order := by simp at full; omega
      rw [graft_room next tree new key rfl full]
      exact ⟨fun all => absurd all.1 own,fun _ => plug_page rest _⟩

/-- `insert_entry` leaves the root or makes one, and the walk up from the leaf says which. -/
theorem Shaped.insert_root {r : IxRoot κ} (cmp : κ → κ → Int) {key : κ} (three : 3 ≤ order) (shaped : Shaped proper order t r)
    (given : proper key) (value : Rid) :
    ∃ answer t', IxIndexHandle.insertEntry store cmp key value t = (.ok answer,t') ∧
      (growsRoot cmp key t = false ↔ t'.hdr.rootPage = t.hdr.rootPage) := by
  obtain ⟨path,leaf,found,rfl⟩ := shaped.search cmp key three
  obtain ⟨node,there,_,_,pairs,size⟩ := shaped.toHoused.node_found
  replace pairs : node.pairs = leaf.items := pairs
  have walk : growsRoot cmp key t = ((node.insertPos cmp key).isSome && fullUp t t.nextPage leaf.page) := by
    rw [growsRoot,found]
    simp [there]
  have shallow := shaped.shallow three
  have climbs := fullUp_iff shaped.toHoused shallow
  match position : node.insertPos cmp key with
  | none =>
    refine ⟨false,t,insertEntry_known found there value position,?_⟩
    simp [walk,position]
  | some pos =>
    have inside := IxNode.insertPos_le position
    have cut : leaf.items = leaf.items.take pos ++ leaf.items.drop pos := (List.take_append_drop ..).symm
    have length : pos = (leaf.items.take pos).length := by rw [List.length_take]; omega
    obtain ⟨housed,start⟩ := shaped.inserted found there given value cut (length ▸ position)
    rw [position,Option.isSome_some,Bool.true_and] at walk
    by_cases full : leaf.items.length = order
    · have more : (leaf.items.take pos ++ (key,value) :: leaf.items.drop pos).length = order + 1 := by
        rw [List.length_append,List.length_cons,List.length_take,List.length_drop]
        omega
      obtain ⟨t',first,_,split,again⟩ := housed.splitLeaf_run more three shallow
      refine ⟨true,t',?_,?_⟩
      · rw [start,if_pos full]
        exact (bind_ok split).trans rfl
      · obtain ⟨grown,stays⟩ := graft_page order path (t.nextPage + 1)
          (lowerHalf ⟨leaf.page,leaf.items.take pos ++ (key,value) :: leaf.items.drop pos⟩)
          (upperHalf t.nextPage ⟨leaf.page,leaf.items.take pos ++ (key,value) :: leaf.items.drop pos⟩) first
        have before := shaped.root.trans (plug_page path leaf)
        rw [walk,← Bool.not_eq_true,climbs,again.root,before]
        by_cases tight : PathFull order path
        · -- the new root's number is not given out yet
          obtain ⟨n,least,same⟩ := grown tight
          have old := shaped.old _ (page_mem (plug path leaf).tree)
          rw [plug_page] at old
          refine iff_of_false (fun room => room ⟨full,tight⟩) fun equal => ?_
          have := equal.symm.trans same
          omega
        · exact iff_of_true (fun both => tight both.2) (stays tight)
    · rw [if_neg full] at start
      refine ⟨true,_,start,?_⟩
      rw [walk,← Bool.not_eq_true,climbs]
      exact iff_of_true (fun both => full both.1) rfl

end Root

section Merge

variable {proper : κ → Prop} {order : Nat} {t : IndexFile κ} {cmp : κ → κ → Int} {key : κ} {leaf : IxTree κ 0} {node : IxNode κ}
  (found : findLeafPage store cmp key t = (.ok leaf.page,t)) (there : t.pages leaf.page = some node)

include found there

theorem mergesRight_missing (missing : node.removePos cmp key = none) : mergesRight cmp key t = false := by
  rw [mergesRight,found]
  simp [there,missing]

theorem mergesRight_root (root : node.parent = invalidPageId) : mergesRight cmp key t = false := by
  rw [mergesRight,found]
  simp [there,root]

theorem Housed.mergesRight_eq {page : Int} {before after : List (κ × IxTree κ 0)} {k : κ} {rest : IxPath κ 1}
    {kid : IxTree κ 0} (housed : Housed proper order t (plug (.up page before k after rest) leaf))
    (next : kid ∈ beside before after) (position : node.removePos cmp key = some pos) :
    mergesRight cmp key t = decide (before.length = 0 ∧ leaf.items.length ≤ (order + 1) / 2 ∧
      leaf.items.length + kid.items.length ≤ (order + 1) / 2 * 2) := by
  obtain ⟨own,parent,sibling,brothers,_,_,size,kidSize⟩ := housed.leaf_brothers next
  obtain rfl : node = own := Option.mem_unique there brothers.there
  rw [mergesRight,found]
  by_cases first : before.length = 0
  · obtain ⟨pair,right,pointed⟩ := Option.map_eq_some_iff.mp brothers.beside
    rw [if_pos first] at right
    rw [Bool.eq_iff_iff]
    simp [there,position,brothers.above,brothers.position,brothers.valid,right,pointed,brothers.brotherThere,first,
      housed.minSize,size,kidSize]
    omega
  · simp [there,brothers.above,brothers.position,first]

end Merge

end IndexTree

namespace CachedIndex

variable {s : CachedIndex κ} {t : IndexFile κ}

/-- The pool shows the pages of a file, and the evictions to come take no bytes away. -/
structure Shows (s : CachedIndex κ) (t : IndexFile κ) : Prop where
  hdr : s.hdr = t.hdr
  nextPage : s.nextPage = t.nextPage
  view : s.cache.view = t.pages
  safe : s.evictions = [] ∨ ∀ q, s.cache.pin q = 0 → s.cache.Synced q
  fine : s.failed = false

/-- The call leaves every pin count as it was, and no `unpin_page` finds a count of 0. -/
def KeepsPins {α : Type} (x : Prog (CachedIndex κ) RMDBError α) (s : CachedIndex κ) : Prop :=
  (x.after s).cache.pin = s.cache.pin ∧ (x.after s).failed = false

theorem Shows.calm (shows : Shows s t) : Calm (s.evictions ≠ []) s.cache.view s.cache.pin false [] s t where
  hdr := shows.hdr
  nextPage := shows.nextPage
  view := shows.view
  pins _ := by simp
  failed := shows.fine
  quiet := (ne_or_eq s.evictions [])
  synced evicts q _ free := shows.safe.resolve_left evicts q free
  changes q _ _ := .inr (congrFun shows.view.symm q)
  marks := nofun
  same := shows.view.symm
  clean evicts q free := shows.safe.resolve_left evicts q free

variable {answer : Bool} {t' : IndexFile κ}

section Tracked

variable (kept : Prop) (was : Int → Option (IxNode κ)) (base : Int → Nat) (failed : Bool) (marked : Int → Prop)

theorem rooted (R : Int → Prop) (n : Nat) : Tracks (store : PageStore (CachedIndex κ) κ) IndexFile.store
    (fun held s t => Held kept was base failed marked held s t ∧ R t.hdr.rootPage ∧ n ≤ t.nextPage) marked (fun p => (n : Int) ≤ p)
    (some (Lost kept was base)) := by
  have along := tracks (κ := κ) kept was base failed marked
  constructor
  · exact fun same both => ⟨along.perm same both.1,both.2⟩
  · exact fun both => both.1.loses
  · exact fun held p => (along.read held p).and fun t node t' known run => (IndexFile.read_found run).2 ▸ known
  · refine fun held p => (along.fetch held p).and fun t _ t' known run => ?_
    cases there : t.pages p with
    | none => simp [IndexFile.store,bind_run,check,there] at run
    | some node =>
      rw [IndexFile.fetch_run there] at run
      exact (Prod.mk.inj run).2 ▸ known
  · refine fun held => ((along.newPage held).and (L := fun p t => (n : Int) ≤ p ∧ R t.hdr.rootPage ∧ n ≤ t.nextPage)
      fun t p t' known run => ?_).mono (fun _ _ pre => pre) fun p s t post => ⟨post.2.1,post.1.2,post.2.2⟩
    obtain ⟨same,rfl⟩ := Prod.mk.inj run
    obtain rfl := Except.ok.inj same
    exact ⟨Int.ofNat_le.mpr known.2,known.1,Nat.le_succ_of_le known.2⟩
  · refine fun held p passes f writable => (along.rewrite held p passes f writable).and fun t _ t' known run => ?_
    obtain ⟨node,_,read,write⟩ := bind_ok_split run
    obtain ⟨_,rfl⟩ := IndexFile.read_found read
    cases fine : passes node with
    | false =>
      rw [fine] at write
      cases write
    | true =>
      rw [fine,bind_ok (check_run rfl _ _)] at write
      exact (Prod.mk.inj write).2 ▸ known
  · exact fun held p => (along.unpin held p).and fun t _ t' known run => (Prod.mk.inj run).2 ▸ known
  · exact fun held => (along.hdr held).and fun t _ t' known run => (Prod.mk.inj run).2 ▸ known
  · refine fun held change leaves => (along.setHdr held change leaves).and fun t _ t' known run => ?_
    obtain ⟨_,rfl⟩ := Prod.mk.inj run
    obtain ⟨_,_,same⟩ := leaves t.hdr
    exact ⟨by simpa [same] using known.1,known.2⟩
  · exact fun held => (along.pageCount held).and fun t _ t' known run => (Prod.mk.inj run).2 ▸ known

/-! ### Insertion -/

/-- What `insert_entry` leaves: the pins as they were under the old root, or a pin too many and a new
root. -/
def Inserted (base : Int → Nat) (root : Int) (n : Nat) (s : CachedIndex κ) (t : IndexFile κ) : Prop :=
  (s.cache.pin = base ∧ s.failed = false ∧ t.hdr.rootPage = root) ∨ (s.cache.pin ≠ base ∧ (n : Int) ≤ t.hdr.rootPage)

theorem release_insert (leaf : Int) (held : List Int) (R : Int → Prop) {root : Int} {n : Nat} (answer : Bool)
    (outcome : ∀ (s : CachedIndex κ) (t : IndexFile κ), (∀ q, s.cache.pin q = base q + held.count q) → s.failed = false →
      R t.hdr.rootPage → Inserted base root n s t) : Simulates
    (fun s t => Held (κ := κ) kept was base false marked (leaf :: held) s t ∧ R t.hdr.rootPage ∧ n ≤ t.nextPage)
    (do let _ ← store.unpin leaf false
        pure answer)
    (do let _ ← IndexFile.store.unpin leaf false
        pure answer) (fun _ => Inserted base root n) (some (Lost kept was base)) := by
  rintro s t ⟨rel,isRoot,_⟩
  rw [bind_ok (unpin_held leaf false rel.pinned),bind_ok (IndexFile.unpin_run false)]
  exact .inl ⟨answer,_,t,rfl,rfl,outcome _ _ (rel.released false) rel.failed isRoot⟩

theorem insertAt_pins (cmp : κ → κ → Int) (key : κ) (value : Rid) (leaf root : Int) (n : Nat) : Simulates
    (fun s t => Held kept was base false (fun _ => False) [leaf] s t ∧ t.hdr.rootPage = root ∧ n ≤ t.nextPage)
    (insertAt cmp key value store leaf) (insertAt cmp key value IndexFile.store leaf)
    (fun _ => Inserted base root n) (some (Lost kept was base)) := by
  have old := rooted kept was base false (fun _ => False) (· = root) n
  have new := rooted kept was base false (fun _ => False) ((n : Int) ≤ ·) n
  have here : leaf ∈ [leaf] ∨ False := .inl (List.mem_singleton_self leaf)
  have same (answer : Bool) := release_insert kept was base (fun _ => False) leaf [] (· = root) (n := n) answer
    fun s t pins fine isRoot => .inl ⟨funext pins,fine,isRoot⟩
  refine (old.read [leaf] leaf).bind fun node => (old.insert cmp key value here).bind fun size => ?_
  split
  · exact same false
  · refine (old.hdr [leaf]).bind fun hdr => ?_
    split
    · refine (old.splitLeaf new (fun held fresh least => ?_) here).bind fun _ => ?_
      · refine (setHdr_held kept was base false _ held _).and fun t _ t' known run => ?_
        obtain ⟨_,rfl⟩ := Prod.mk.inj run
        exact ⟨least,known.2⟩
      · refine Simulates.either (same true) (Simulates.some fun fresh => ?_)
        refine (release_insert kept was base (fun _ => False) leaf [fresh] ((n : Int) ≤ ·) true
          fun s t pins _ isRoot => .inr ⟨fun equal => ?_,isRoot⟩).mono (fun s t both => ?_) fun _ _ _ post => post
        · have extra := pins fresh
          rw [equal,List.count_singleton_self] at extra
          omega
        · exact new.perm (List.Perm.swap leaf fresh []) both
    · exact same true

/-! ### Deletion -/

omit kept was base failed marked in
theorem unpin_other {p q : Int} (mark answer : Bool) (apart : q ≠ p) :
    ((do let _ ← store.unpin p mark
         pure answer : Prog (CachedIndex κ) RMDBError Bool) s).2.cache.pin q = s.cache.pin q := by
  by_cases free : s.cache.pin p = 0
  · rw [bind_ok (unpin_free p mark free)]
    rfl
  · rw [bind_ok (unpin_held p mark free)]
    simp [PageCache.release,apart]

section Deletion

variable {kept was base failed} {held : List Int} {p : Int}

theorem removal_held (cmp : κ → κ → Int) (key : κ) : Simulates (Calm kept was base failed []) (removal store cmp key)
    (removal IndexFile.store cmp key) (fun found => Held kept was base failed (fun _ => False) [found.1]) (some (Lost kept was base)) := by
  have along := tracks (κ := κ) kept was base failed fun _ => False
  refine ((browses kept was base failed).findLeafPage [] cmp key).bind fun leaf => ?_
  refine (((along.read [leaf] leaf).bind fun node => ?_).mono (fun _ _ calm => calm.toHeld) fun _ _ _ rel => rel)
  exact (along.remove cmp key (.inl (List.mem_singleton_self leaf))).bind fun size => Simulates.pure fun _ _ rel => rel

variable [DecidableEq κ]

theorem coalesce_ends (rel : Held kept was base failed (fun _ => False) held s t) (here : p ∈ held)
    (done : ∀ up, (climb IndexFile.store p t).1 ≠ .ok (.inr up))
    (run : coalesceOrRedistribute IndexFile.store (rounds + 1) p t = (.ok answer,t')) :
    ∃ s', coalesceOrRedistribute store (rounds + 1) p s = (.ok answer,s') ∧ Held kept was base failed (fun _ => False) held s' t' := by
  have along := tracks (κ := κ) kept was base failed fun _ => False
  rw [coalesce_climb] at run ⊢
  obtain ⟨result,t₁,climbed,rest⟩ := bind_ok_split run
  match result with
  | .inr up => exact absurd (congrArg Prod.fst climbed) (done up)
  | .inl found =>
    obtain ⟨same,rfl⟩ := Prod.mk.inj rest
    obtain rfl := Except.ok.inj same
    obtain ⟨node,t₂,read,onward⟩ := bind_ok_split climbed
    obtain ⟨s₁,readToo,same⟩ := (along.read held p).back rel read
    obtain ⟨s',ran,after⟩ := (along.climbAt (fun held _ => setHdr_held kept was base failed _ held _) node (.inl here)).back same onward
    refine ⟨s',?_,after⟩
    rw [climb_at,bind_assoc,bind_ok readToo,bind_ok ran]
    rfl

theorem climb_merges {brother : Int} {node parent sibling : IxNode κ} (rel : Held kept was base failed (fun _ => False) held s t)
    (here : p ∈ held) (brothers : Brothers t p brother pos node parent sibling)
    (small : (node.size : Int) < t.hdr.minSize) (scarce : node.size + sibling.size < t.hdr.minSize * 2)
    (merged : merge IndexFile.store (if pos = 0 then p else brother) (if pos = 0 then brother else p) node.parent
      (if pos = 0 then 1 else pos) t = (.ok (),t')) :
    ∃ s', climb store p s = (.ok (.inr (node.parent,if pos = 0 then p else brother)),s') ∧
      Held kept was base failed (fun _ => False) (brother :: node.parent :: held) s' t' := by
  have along := tracks (κ := κ) kept was base failed fun _ => False
  obtain ⟨s₁,own,rel⟩ := (along.read held p).back rel (IndexFile.read_run brothers.there)
  obtain ⟨s₂,hdr,rel⟩ := (along.hdr held).back rel IndexFile.hdr_run
  obtain ⟨s₃,fetched,rel⟩ := (along.fetch held _).back rel (IndexFile.fetch_run brothers.above)
  obtain ⟨s₄,found,rel⟩ := (along.findChild node.parent p).back rel (IndexFile.findChild_run brothers.above brothers.position)
  obtain ⟨s₅,beside,rel⟩ := (along.fetch _ brother).back rel (IndexFile.fetch_run brothers.brotherThere)
  obtain ⟨s₆,read,rel⟩ := (along.read _ brother).back rel (IndexFile.read_run brothers.brotherThere)
  have target : (if pos = 0 then p else brother) ∈ brother :: node.parent :: held := by
    split
    · simp [here]
    · simp
  obtain ⟨s₇,done,rel⟩ := (along.merge _ (.inl target) (.inl (by simp))).back rel merged
  refine ⟨s₇,?_,rel⟩
  rw [climb,bind_ok own,bind_ok hdr,if_neg brothers.valid,if_neg (by omega),bind_ok fetched,bind_ok found,
    brothers.chosen,bind_ok beside,bind_ok read,if_neg (by omega),bind_ok done]
  rfl

/-- The pin that a merge drops at its end is the left leaf's: the brother's, or the leaf's own. -/
theorem coalesce_merges {brother leaf : Int} {node parent sibling : IxNode κ} {t₁ t₂ : IndexFile κ}
    (rel : Held kept was base failed (fun _ => False) [leaf] s t)
    (brothers : Brothers t leaf brother pos node parent sibling) (small : (node.size : Int) < t.hdr.minSize)
    (scarce : node.size + sibling.size < t.hdr.minSize * 2)
    (merged : merge IndexFile.store (if pos = 0 then leaf else brother) (if pos = 0 then brother else leaf) node.parent
      (if pos = 0 then 1 else pos) t = (.ok (),t₁))
    (done : ∀ up, (climb IndexFile.store node.parent t₁).1 ≠ .ok (.inr up))
    (run : coalesceOrRedistribute IndexFile.store (rounds + 1) node.parent t₁ = (.ok answer,t₂)) :
    ∃ s', coalesceOrRedistribute store (rounds + 2) leaf s = (.ok true,s') ∧
      Held kept was base failed (fun _ => False) [if pos = 0 then brother else leaf] s' t₂ := by
  have along := tracks (κ := κ) kept was base failed fun _ => False
  obtain ⟨s₁,climbed,rel⟩ := climb_merges rel (List.mem_singleton_self leaf) brothers small scarce merged
  obtain ⟨s₂,upper,rel⟩ := coalesce_ends rel (by simp) done run
  replace rel := along.perm (List.Perm.swap node.parent brother [leaf]) rel
  obtain ⟨s₃,first,rel⟩ := (along.unpin _ node.parent).back rel (IndexFile.unpin_run true)
  have order : [brother,leaf].Perm [if pos = 0 then leaf else brother,if pos = 0 then brother else leaf] := by
    split
    · exact List.Perm.swap leaf brother []
    · exact .refl _
  obtain ⟨s₄,second,rel⟩ := (along.unpin _ _).back (along.perm order rel) (IndexFile.unpin_run true)
  refine ⟨s₄,?_,rel⟩
  rw [coalesce_climb,bind_ok climbed]
  dsimp only
  rw [bind_ok upper,bind_ok first,bind_ok second]
  rfl

end Deletion

end Tracked

section Calls

variable {cmp : κ → κ → Int} {key : κ} {order : Nat} {r : IxRoot κ} (three : 3 ≤ order)
  (shaped : Shaped (fun _ => True) order t r) (shows : Shows s t)

include three shaped shows

theorem Shows.getValue_pins : KeepsPins (getValue store cmp key) s := by
  obtain ⟨path,leaf,found,rfl⟩ := shaped.search cmp key three
  obtain ⟨node,there,_⟩ := shaped.toHoused.node_found
  have run : getValue IndexFile.store cmp key t = (.ok (node.leafLookup cmp key),t) := by
    rw [getValue,bind_ok found,bind_ok (IndexFile.read_run there)]
    rfl
  obtain ⟨s',ran,calm⟩ := ((browses _ _ _ _).getValue [] cmp key).back shows.calm run
  rw [KeepsPins,after,ran]
  exact ⟨funext calm.pins,calm.failed⟩

theorem Shows.insertEntry_pins (value : Rid) :
    KeepsPins (insertEntry store cmp key value) s ↔ growsRoot cmp key t = false := by
  obtain ⟨answer,t',run,stays⟩ := shaped.insert_root cmp three (trivial : (fun _ => True) key) value
  have old := shaped.old _ (page_mem r.tree)
  rw [← shaped.root] at old
  obtain ⟨path,leaf,found,_⟩ := shaped.search cmp key three
  obtain ⟨s₁,search,calm⟩ := ((browses _ _ _ _).findLeafPage [] cmp key).back shows.calm found
  rw [insertEntry_at,bind_ok found] at run
  obtain ⟨s₂,ran,outcome⟩ := (insertAt_pins _ _ _ cmp key value leaf.page t.hdr.rootPage t.nextPage).back
    ⟨calm.toHeld,rfl,Nat.le_refl _⟩ run
  rw [KeepsPins,after,insertEntry_at,bind_ok search,ran,stays]
  rcases outcome with ⟨pins,fine,same⟩ | ⟨apart,fresh⟩
  · exact iff_of_true ⟨pins,fine⟩ same
  · exact iff_of_false (fun both => apart both.1) fun same => by omega

end Calls

section Calls

variable [DecidableEq κ] {cmp : κ → κ → Int} {key : κ} {order : Nat} {path : IxPath κ 0} {leaf : IxTree κ 0} {node : IxNode κ}
  {low high : List (κ × Rid)} {e : κ × Rid} {kept : Prop} {base : Int → Nat} {failed : Bool}

/-- After `coalesce_or_redistribute` on the leaf that lost a pair, one pin is left: the leaf's, or that
of the right brother it was merged with. -/
theorem coalesce_leaf (three : 3 ≤ order) (shaped : Shaped (fun _ => True) order t (plug path leaf))
    (found : findLeafPage IndexFile.store cmp key t = (.ok leaf.page,t)) (there : t.pages leaf.page = some node)
    (items : leaf.items = low ++ e :: high) (position : node.removePos cmp key = some low.length)
    (spared : Spared order path leaf)
    (rel : Held kept was base failed (fun _ => False) [leaf.page] s (t.put leaf.page { node with pairs := low ++ high }))
        (run : coalesceOrRedistribute IndexFile.store (rounds + 2) leaf.page (t.put leaf.page { node with pairs := low ++ high }) =
      (.ok answer,t')) :
    ∃ s' p, coalesceOrRedistribute store (rounds + 2) leaf.page s = (.ok answer,s') ∧
      Held kept was base failed (fun _ => False) [p] s' t' ∧ (p = leaf.page ↔ mergesRight cmp key t = false) := by
  obtain ⟨housed,_⟩ := shaped.without found there items position
  have length : (low ++ high).length + 1 = leaf.items.length := by rw [items]; simp; omega
  have own : leaf.page ∈ [leaf.page] := List.mem_singleton_self _
  cases path with
  | top =>
    obtain ⟨node',there',fine⟩ := housed.settled fun inner => absurd rfl inner
    obtain ⟨s',ran,left⟩ := coalesce_ends rel own (climb_settled there' fine) run
    obtain ⟨_,same,_,up,_⟩ := shaped.toHoused.node_found
    obtain rfl := Option.mem_unique same there
    exact ⟨s',leaf.page,ran,left,iff_of_true rfl (mergesRight_root found there up)⟩
  | up page before k after rest =>
    obtain ⟨⟨siblings,least,_,_⟩,few,_⟩ := (plug_sized _ leaf).mp shaped.sized
    replace few : (order + 1) / 2 ≤ leaf.items.length := few
    have two := least_two three rest
    obtain ⟨kid,next,label,member⟩ := exists_beside (by omega : 1 ≤ before.length + after.length)
    have kidFew : (order + 1) / 2 ≤ kid.items.length := (siblings (label,kid) member).1
    have right := shaped.toHoused.mergesRight_eq found there next position
    by_cases enough : (order + 1) / 2 ≤ (low ++ high).length
    · obtain ⟨node',there',fine⟩ := housed.settled fun _ => enough
      obtain ⟨s',ran,left⟩ := coalesce_ends rel own (climb_settled there' fine) run
      exact ⟨s',leaf.page,ran,left,iff_of_true rfl (by rw [right,decide_eq_false_iff_not]; omega)⟩
    obtain ⟨node',parent,sibling,brothers,_,hangs,size,kidSize⟩ := housed.leaf_brothers next
    replace size : node'.size = (low ++ high).length := size
    have small : (node'.size : Int) < (t.put leaf.page { node with pairs := low ++ high }).hdr.minSize := by
      rw [housed.minSize,size]
      omega
    by_cases spare : (order + 1) / 2 * 2 ≤ (low ++ high).length + kid.items.length
    · have shared := climb_shared brothers small (by rw [housed.minSize,size,kidSize]; omega)
      obtain ⟨s',ran,left⟩ := coalesce_ends rel own shared run
      exact ⟨s',leaf.page,ran,left,iff_of_true rfl (by rw [right,decide_eq_false_iff_not]; omega)⟩
    have scarce : node'.size + sibling.size < (t.put leaf.page { node with pairs := low ++ high }).hdr.minSize * 2 := by
      rw [housed.minSize,size,kidSize]
      omega
    obtain ⟨t₁,tree,merged,again,samePage,count⟩ := housed.leaf_merge next
    -- the parent has children left to spare, or is the root
    obtain ⟨node'',there'',fine⟩ := again.settled fun inner => by
      rw [count]
      exact spared inner (by omega) kid next (by omega)
    rw [samePage,← hangs] at there''
    rw [← hangs] at merged
    rw [coalesce_small brothers small,if_neg (by omega),bind_ok merged] at run
    obtain ⟨_,t₂,upper,last⟩ := bind_ok_split run
    obtain ⟨same,rfl⟩ := Prod.mk.inj last
    obtain rfl := Except.ok.inj same
    obtain ⟨s',ran,left⟩ := coalesce_merges rel brothers small scarce merged (climb_settled there'' fine) upper
    refine ⟨s',_,ran,left,?_⟩
    have apart : kid.page ≠ leaf.page := by
      have inside : kid.page ∈ (before ++ after).flatMap fun kid : κ × IxTree κ 0 => pages 0 kid.2 :=
        List.mem_flatMap.mpr ⟨(label,kid),member,page_mem kid⟩
      simpa [pages] using (housed.parent_apart.2 kid.page (List.mem_append_left _ inside)).2
    by_cases first : before.length = 0
    · rw [if_pos first,right,decide_eq_false_iff_not]
      exact iff_of_false apart fun not => not ⟨first,by omega,by omega⟩
    · rw [if_neg first,right,decide_eq_false_iff_not]
      exact iff_of_true rfl fun all => first all.1

end Calls

section Calls

variable [DecidableEq κ] {cmp : κ → κ → Int} {key : κ} {order : Nat} {r : IxRoot κ} (three : 3 ≤ order)
  (shaped : Shaped (fun _ => True) order t r) (shows : Shows s t)

include three shaped shows

theorem Shows.deleteEntry_pins (fed : starves cmp key t = false) :
    KeepsPins (deleteEntry store cmp key) s ↔ mergesRight cmp key t = false := by
  obtain ⟨path,leaf,found,rfl⟩ := shaped.search cmp key three
  obtain ⟨node,there,_,up,pairs,size⟩ := shaped.toHoused.node_found
  replace pairs : node.pairs = leaf.items := pairs
  match position : node.removePos cmp key with
  | none =>
    obtain ⟨s₁,ran,rel⟩ := (removal_held cmp key).back shows.calm (removal_missing found there position)
    refine iff_of_true ?_ (mergesRight_missing found there position)
    have run : deleteEntry store cmp key s = (.ok false,{ s₁ with cache := s₁.cache.release leaf.page false }) := by
      rw [deleteEntry_removal,bind_ok ran]
      exact (bind_ok (unpin_held leaf.page false rel.pinned)).trans rfl
    rw [KeepsPins,after,run]
    exact ⟨funext (rel.released false),rel.failed⟩
  | some pos =>
    obtain ⟨low,e,high,cut,rfl⟩ := IxNode.removePos_cut position
    have spared := shaped.spared found there position fed
    obtain ⟨t',whole,_⟩ := shaped.delete_any three found there (pairs ▸ cut) position spared
    have old := shaped.toHoused.around_old leaf.page (by simp)
    obtain ⟨rounds,enough⟩ : ∃ rounds, t.nextPage = rounds + 2 := ⟨t.nextPage - 2,by omega⟩
    rw [(shaped.without found there (pairs ▸ cut) position).2,enough] at whole
    obtain ⟨answer,_,run,_⟩ := bind_ok_split whole
    obtain ⟨s₁,ran,rel⟩ := (removal_held cmp key).back shows.calm (removal_found found there cut position)
    obtain ⟨s₂,p,climbed,after,which⟩ := coalesce_leaf three shaped found there (pairs ▸ cut) position spared rel run
    have same : s₁.nextPage = rounds + 2 := rel.nextPage.trans enough
    have count : store.pageCount s₁ = (.ok (rounds + 2),s₁) := by
      rw [← same]
      rfl
    have start : deleteEntry store cmp key s = (do let _ ← store.unpin leaf.page true
                                                   pure true : Prog (CachedIndex κ) RMDBError Bool) s₂ := by
      rw [deleteEntry_removal,bind_ok ran]
      refine (bind_ok count).trans ?_
      rw [bind_ok climbed]
    rw [← which,KeepsPins,Prog.after,start]
    by_cases here : p = leaf.page
    · subst here
      rw [bind_ok (unpin_held _ true after.pinned)]
      exact iff_of_true ⟨funext (after.released true),after.failed⟩ rfl
    · -- the brother's pin stays, whatever the release of the leaf finds
      refine iff_of_false (fun both => ?_) here
      have extra := (unpin_other true true here).trans (after.pins p)
      rw [both.1,List.count_singleton_self] at extra
      omega

variable (cmp) (key) in
/-- On a well-formed tree, with any pins held by others: `get_value` drops the pins it takes,
`insert_entry` does unless it makes a new root, and `delete_entry`, as long as no inner node below the
root gets too few children, unless it merges a leaf with the one on its right. -/
theorem pins_balanced_iff (value : Rid) : KeepsPins (getValue store cmp key) s ∧
    (KeepsPins (insertEntry store cmp key value) s ↔ growsRoot cmp key t = false) ∧
    (starves cmp key t = false → (KeepsPins (deleteEntry store cmp key) s ↔ mergesRight cmp key t = false)) :=
  ⟨shows.getValue_pins three shaped,shows.insertEntry_pins three shaped value,shows.deleteEntry_pins three shaped⟩

end Calls

theorem unpinned_shows (t : IndexFile κ) (dirty : Int → Bool) : Shows (unpinned t dirty) t :=
  ⟨rfl,rfl,rfl,.inl rfl,rfl⟩

section Examples

/-- An index on an INT column with the keys 1 to `n`. -/
def counted (n : Nat) : IndexFile (List Byte) := (countUp n).foldl (IndexTree.step (ixCompare (ixCols idCols))) freshIds

theorem counted_shaped (n : Nat) (fed : Guarded (IndexTree.step (ixCompare (ixCols idCols)))
      (fun s op => op.Feeds (ixCompare (ixCols idCols)) s) freshIds (countUp n))
    (rooted : (counted n).hdr.rootPage ≠ invalidPageId) : ∃ r, Shaped (fun _ => True) 3 (counted n) r := by
  have sound := guarded_invariant (Sound 3) (fun s op sound fed => sound.step _ (by decide) op fed) freshIds
    (created_sound intHeaderNode idCols 3) (countUp n) fed
  exact sound.resolve_right rooted

/-- The fourth key makes a new root, which stays pinned; deleting the first of four keys merges its
leaf with the next, which stays pinned, and drops the pin of the leaf twice. -/
theorem pins_left_over :
    (∃ r, Shaped (fun _ => True) 3 (counted 3) r) ∧ ¬KeepsPins (insertEntry store (ixCompare (ixCols idCols)) (intBytes 4) ⟨1,3⟩)
      (unpinned (counted 3) fun _ => false) ∧
    (∃ r, Shaped (fun _ => True) 3 (counted 4) r) ∧ ¬KeepsPins (deleteEntry store (ixCompare (ixCols idCols)) (intBytes 1))
      (unpinned (counted 4) fun _ => false) := by
  refine ⟨counted_shaped 3 (by decide +kernel) (by decide +kernel),fun both => ?_,
    counted_shaped 4 (by decide +kernel) (by decide +kernel),fun both => ?_⟩
  · have pinned : ((insertEntry store (ixCompare (ixCols idCols)) (intBytes 4) ⟨1,3⟩).after
        (unpinned (counted 3) fun _ => false)).cache.pin 4 = 1 := by decide +kernel
    rw [both.1] at pinned
    cases pinned
  · have failed : ((deleteEntry store (ixCompare (ixCols idCols)) (intBytes 1)).after
        (unpinned (counted 4) fun _ => false)).failed = true := by decide +kernel
    rw [both.2] at failed
    cases failed

/-- Reading a key, adding a fifth and deleting the fourth, which merges its leaf with the one before. -/
theorem counted_four_balanced : KeepsPins (getValue store (ixCompare (ixCols idCols)) (intBytes 2)) (unpinned (counted 4) fun _ => false) ∧
    KeepsPins (insertEntry store (ixCompare (ixCols idCols)) (intBytes 5) ⟨1,4⟩) (unpinned (counted 4) fun _ => false) ∧
    KeepsPins (deleteEntry store (ixCompare (ixCols idCols)) (intBytes 4)) (unpinned (counted 4) fun _ => false) := by
  obtain ⟨r,shaped⟩ := counted_shaped 4 (by decide +kernel) (by decide +kernel)
  have all (key : List Byte) := pins_balanced_iff (ixCompare (ixCols idCols)) key (by decide) shaped
    (unpinned_shows (counted 4) fun _ => false)
  exact ⟨(all (intBytes 2) ⟨1,1⟩).1,(all (intBytes 5) ⟨1,4⟩).2.1.mpr (by decide +kernel),
    ((all (intBytes 4) ⟨1,3⟩).2.2 (by decide +kernel)).mpr (by decide +kernel)⟩

end Examples

end CachedIndex

end Rucbase
