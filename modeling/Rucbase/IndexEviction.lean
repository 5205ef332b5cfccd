import Rucbase.CachedIndex
import Rucbase.IndexCalls

/-! Index updates in a pool that evicts pages. A page that is unpinned and differs from the disk
without being marked loses its bytes when its frame is taken. The one place where the index
leaves such a page is the end of `insert_entry`, which releases the leaf as clean. -/
namespace Rucbase.CachedIndex

open Lib IxIndexHandle Prog IndexFile

variable {κ : Type} {s : CachedIndex κ} {t : IndexFile κ}

/-- The pool shows the pages of a file that is never evicted, and an unpinned page is marked or on
disk as it is. -/
structure Kept (s : CachedIndex κ) (t : IndexFile κ) : Prop where
  hdr : s.hdr = t.hdr
  nextPage : s.nextPage = t.nextPage
  view : s.cache.view = t.pages
  unpinned : ∀ q, s.cache.pin q = 0 → s.cache.Synced q

/-- A page that the call changed is marked when it is released for the last time: at the end it is marked, or was
written back since, or the call still holds a pin on it. -/
def Flagged (s next : CachedIndex κ) : Prop :=
  ∀ q, next.cache.view q ≠ s.cache.view q → next.cache.dirty q = true ∨
    (next.cache.pin q = 0 ∧ next.cache.view q = next.cache.disk q) ∨ s.cache.pin q < next.cache.pin q

variable {was : Int → Option (IxNode κ)} {base : Int → Nat} {next : CachedIndex κ} {failed : Bool}

theorem Lost.kept (lost : Lost True was base s t) : Kept s t := by
  obtain ⟨base,failed,held,_,rel⟩ := lost
  exact ⟨rel.hdr,rel.nextPage,rel.view,rel.unpinned trivial⟩

theorem Lost.flagged (lost : Lost True s.cache.view s.cache.pin next t) : Flagged s next := by
  obtain ⟨others,failed,held,more,rel⟩ := lost
  intro q changed
  have pins := rel.pins q
  by_cases member : q ∈ held
  · have := more q member
    have := List.count_pos_iff.mpr member
    exact .inr (.inr (by omega))
  · rw [List.count_eq_zero.mpr member] at pins
    by_cases free : others q = 0
    · exact (rel.synced trivial q member free).imp_right fun stored => .inl ⟨pins.trans free,stored⟩
    · exact .inl ((rel.changes q member free).resolve_right (rel.view ▸ changed))

variable {more : Int → Nat} {α β σ : Type} {Q : α → CachedIndex κ → IndexFile κ → Prop}
  {x : Prog (CachedIndex κ) RMDBError α} {y : Prog (IndexFile κ) RMDBError α}
  {f : α → Prog (CachedIndex κ) RMDBError β} {g : α → Prog (IndexFile κ) RMDBError β} {s' : CachedIndex κ}
  {t' : IndexFile κ} {held : List Int} {dirty : Prop} {st : PageStore σ κ} {node : IxNode κ}

theorem Lost.weaken (lost : Lost True was more s t) (atMost : ∀ q, base q ≤ more q) :
    Lost True was base s t := by
  obtain ⟨others,failed,held,least,rel⟩ := lost
  exact ⟨others,failed,held,fun q member => (atMost q).trans (least q member),rel⟩

/-- The evictions that the calls of the next operation make. -/
def evicting (evictions : List (List Int)) (s : CachedIndex κ) : CachedIndex κ := { s with evictions := evictions }

theorem Kept.calm (kept : Kept s t) (evictions : List (List Int)) :
    Calm True s.cache.view s.cache.pin s.failed [] (s.evicting evictions) t where
  hdr := kept.hdr
  nextPage := kept.nextPage
  view := kept.view
  pins _ := by simp [evicting]
  failed := rfl
  quiet := .inl trivial
  synced _ q _ free := kept.unpinned q free
  changes q _ _ := .inr (congrFun kept.view.symm q)
  marks := nofun
  same := kept.view.symm
  clean _ q free := kept.unpinned q free

/-- The outcomes of two runs that agree and lose nothing. -/
def Agree {α : Type} (was : Int → Option (IxNode κ)) (base : Int → Nat) (x : Prog (CachedIndex κ) RMDBError α)
    (y : Prog (IndexFile κ) RMDBError α) (s : CachedIndex κ) (t : IndexFile κ) : Prop :=
  (x s).1 = (y t).1 ∧ Lost True was base (x.after s) (y.after t)

theorem agree_of {P : CachedIndex κ → IndexFile κ → Prop}

    (sim : Simulates P x y Q (some (Lost True was more))) (atMost : ∀ q, base q ≤ more q)
    (lost : ∀ a s t, Q a s t → Lost True was base s t) (pre : P s t) : Agree was base x y s t :=
  sim.after pre lost fun _ _ thrown => thrown.weaken atMost

theorem Agree.seq
     {a : α} (left : x s = (.ok a,s')) (right : y t = (.ok a,t')) (rest : Agree was base (f a) (g a) s' t') :
    Agree was base (x >>= f) (y >>= g) s t := by
  unfold Agree after at *
  rwa [bind_ok left,bind_ok right]

theorem Agree.stop
     {e : RMDBError} (left : x s = (.error e,s')) (right : y t = (.error e,t')) (lost : Lost True was base s' t') :
    Agree was base (x >>= f) (y >>= g) s t := by
  unfold Agree after
  rw [bind_error left,bind_error right]
  exact ⟨rfl,lost⟩

theorem unpin_any (p : Int) {rest : Prog (CachedIndex κ) RMDBError α} {restRef : Prog (IndexFile κ) RMDBError α}
    (onward : Simulates (Lost True was base) rest restRef Q (some (Lost True was base))) :
    Simulates (Lost True was base)
      (do let _ ← store.unpin p true
          rest)
      (do let _ ← IndexFile.store.unpin p true
          restRef) Q (some (Lost True was base)) := by
  rintro s t ⟨others,failed,held,more,rel⟩
  rw [bind_ok (unpin_run true)]
  by_cases free : s.cache.pin p = 0
  · rw [bind_ok (unpin_free p true free)]
    exact onward _ _ ⟨others,true,held,more,{ rel with failed := rfl, marks := nofun }⟩
  · rw [bind_ok (unpin_held p true free)]
    refine onward _ _ ?_
    by_cases member : p ∈ held
    · have front := (tracks True was others failed fun _ => False).perm (List.perm_cons_erase member) rel
      exact ⟨others,failed,held.erase p,fun q inside => more q (List.mem_of_mem_erase inside),front.release⟩
    · -- the pin was someone else's
      have count : held.count p = 0 := List.count_eq_zero.mpr member
      have owned := rel.pins p
      rw [count] at owned
      refine ⟨Function.update others p (others p - 1),failed,held,fun q inside => ?_,{ rel with
        pins := fun q => ?_
        synced := fun _ q other unowned => ?_
        changes := fun q other owned => ?_
        marks := nofun }⟩
      · have apart : q ≠ p := fun same => member (same ▸ inside)
        rw [Function.update_of_ne apart]
        exact more q inside
      · by_cases here : q = p
        · subst q
          simp [PageCache.release,owned,count]
        · simpa [PageCache.release,here] using rel.pins q
      · by_cases here : q = p
        · subst q
          exact .inl (by simp [PageCache.release])
        · rw [Function.update_of_ne here] at unowned
          exact release_synced (rel.synced trivial q other unowned)
      · by_cases here : q = p
        · subst q
          exact .inl (by simp [PageCache.release])
        · rw [Function.update_of_ne here] at owned
          simpa [PageCache.release,here] using rel.changes q other owned

theorem setHdr_held (kept : Prop) (was : Int → Option (IxNode κ)) (base : Int → Nat) (failed : Bool) (marked : Int → Prop) (held : List Int)
    (change : IxFileHdr → IxFileHdr) : Simulates (Held (κ := κ) kept was base failed marked held) (store.setHdr change)
      (IndexFile.store.setHdr change) (fun _ => Held kept was base failed marked held) (some (Lost kept was base)) :=
  steps fun _ _ rel => ⟨(),_,_,rfl,rfl,{ rel with hdr := by simp [rel.hdr] }⟩

/-- The climb of a deletion. Whatever it releases twice, every page that it changed is marked. -/
theorem coalesce_lost [DecidableEq κ] (was : Int → Option (IxNode κ)) (base : Int → Nat) (failed : Bool) (rounds : Nat) {p : Int}
    (here : p ∈ held) : Simulates (Held (κ := κ) True was base failed (fun _ => False) held) (coalesceOrRedistribute store rounds p)
      (coalesceOrRedistribute IndexFile.store rounds p) (fun _ => Lost True was base) (some (Lost True was base)) := by
  have along := tracks (κ := κ) True was base failed fun _ => False
  induction rounds generalizing p held with
  | zero => exact along.raise _
  | succ rounds ih =>
    rw [coalesce_climb,coalesce_climb,climb_at,climb_at,bind_assoc,bind_assoc]
    refine (along.read held p).bind fun node => ?_
    refine (along.climbAt (fun held _ => setHdr_held True was base failed _ held _) node (.inl here)).bind fun result => ?_
    match result with
    | .inl answer => exact Simulates.pure fun _ _ rel => rel.lost
    | .inr (parent,left) =>
      refine Simulates.some fun pos => Simulates.given fun same => Simulates.given fun _ => ?_
      subst same
      refine (ih (by simp)).bind fun _ => ?_
      exact unpin_any _ (unpin_any _ (Simulates.ret true))

section Insert

variable (cmp : κ → κ → Int) (key : κ) (value : Rid) {leaf : Int}

def insertAt {σ : Type} (st : PageStore σ κ) (leaf : Int) : Prog σ RMDBError Bool := do
  let node ← st.read leaf
  let size ← IxIndexHandle.insert st cmp leaf key value
  if size = node.size then do
    let _ ← st.unpin leaf false
    pure false
  else do
    let hdr ← st.hdr
    if (size : Int) = hdr.maxSize then splitLeaf st leaf else pure ()
    let _ ← st.unpin leaf false
    pure true

theorem insertEntry_at (st : PageStore σ κ) :
    insertEntry st cmp key value = findLeafPage st cmp key >>= insertAt cmp key value st := rfl

def oneMore (base : Int → Nat) (leaf : Int) : Int → Nat := Function.update base leaf (base leaf + 1)

theorem oneMore_le (base : Int → Nat) (leaf q : Int) : base q ≤ oneMore base leaf q := by
  by_cases here : q = leaf
  · simp [oneMore,here]
  · simp [oneMore,here]

/-- The pin on the leaf counts as someone else's while the leaf is changed and split. -/
theorem Calm.besides (calm : Calm True was base failed [leaf] s t) :
    Held True was (oneMore base leaf) failed (fun q => q = leaf ∧ s.cache.dirty leaf = true) [] s t where
  hdr := calm.hdr
  nextPage := calm.nextPage
  view := calm.view
  pins q := by
    have count := calm.pins q
    by_cases here : q = leaf
    · subst q; simpa [oneMore] using count
    · simpa [oneMore,here,Ne.symm here] using count
  failed := calm.failed
  quiet := .inl trivial
  synced _ q _ free := by
    have apart : q ≠ leaf := by rintro rfl; simp [oneMore] at free
    rw [oneMore,Function.update_of_ne apart] at free
    exact calm.clean trivial q free
  changes q _ _ := .inr (congrFun calm.same q)
  marks q isMarked := ⟨by simp [oneMore,isMarked.1],isMarked.1 ▸ isMarked.2⟩

/-- The release as clean loses nothing if the leaf was marked before. -/
theorem Held.release_clean  (rel : Held True was (oneMore base leaf) failed
      (fun q => q = leaf ∧ dirty) held s t) (safe : dirty) :
    ∃ s', store.unpin leaf false s = (.ok true,s') ∧ Lost True was base s' t := by
  have pinned : s.cache.pin leaf ≠ 0 := by simp [rel.pins,oneMore]
  have marked := (rel.marks leaf ⟨rfl,safe⟩).2
  refine ⟨_,unpin_held leaf false pinned,base,failed,held,fun _ _ => Nat.le_refl _,{ rel with
    pins := fun q => ?_
    synced := fun _ q other free => release_synced ?_
    changes := fun q other owned => ?_
    marks := nofun }⟩
  · have count := rel.pins q
    by_cases here : q = leaf
    · subst q
      simp only [oneMore,Function.update_self] at count
      simp only [PageCache.release,Function.update_self]
      omega
    · simpa [oneMore,PageCache.release,here] using count
  · by_cases here : q = leaf
    · exact .inl (here ▸ marked)
    · exact rel.synced trivial q other (by rwa [oneMore,Function.update_of_ne here])
  · by_cases here : q = leaf
    · exact .inl (by simp [PageCache.release,here,marked])
    · simpa [PageCache.release,here] using rel.changes q other (by rwa [oneMore,Function.update_of_ne here])

theorem release_last (safe : dirty) (held : List Int) (answer : Bool) : Simulates
    (Held True was (oneMore base leaf) failed (fun q => q = leaf ∧ dirty) held)
    (do let _ ← (store : PageStore (CachedIndex κ) κ).unpin leaf false
        pure answer)
    (do let _ ← IndexFile.store.unpin leaf false
        pure answer) (fun _ => Lost True was base) (some (Lost True was (oneMore base leaf))) := by
  intro s t rel
  obtain ⟨next,run,lost⟩ := rel.release_clean safe
  rw [bind_ok run,bind_ok (unpin_run false)]
  exact .inl ⟨answer,next,t,rfl,rfl,lost⟩

theorem insert_known  {s : σ} (there : st.read leaf s = (.ok node,s)) (known : node.insertPos cmp key = none) :
    IxIndexHandle.insert st cmp leaf key value s = (.ok node.size,s) := by
  rw [IxIndexHandle.insert,bind_ok there,known]
  exact bind_ok there

theorem insertAt_agree (calm : Calm True was base failed [leaf] s t)
    (safe : ∀ node, t.pages leaf = some node → (node.insertPos cmp key).isSome → s.cache.dirty leaf = true) :
    Agree was base (insertAt cmp key value store leaf) (insertAt cmp key value IndexFile.store leaf) s t := by
  rcases read_cases calm.view leaf with ⟨node,left,right⟩ | ⟨e,left,right⟩
  case inr => exact Agree.stop left right calm.toHeld.lost
  refine Agree.seq left right ?_
  cases position : node.insertPos cmp key with
  | none =>
    refine Agree.seq (insert_known cmp key value left position) (insert_known cmp key value right position) ?_
    rw [if_pos rfl,if_pos rfl]
    refine Agree.seq (unpin_held leaf false calm.toHeld.pinned) (unpin_run false) ?_
    exact ⟨rfl,(calm.release false).toHeld.lost⟩
  | some pos =>
    have marks := safe node (read_found right).1 (by simp [position])
    have along := tracks (κ := κ) True was (oneMore base leaf) failed fun q => q = leaf ∧ s.cache.dirty leaf = true
    have own : leaf ∈ [] ∨ (leaf = leaf ∧ s.cache.dirty leaf = true) := .inr ⟨rfl,marks⟩
    refine agree_of ((along.insert cmp key value own).bind fun size => ?_) (oneMore_le base leaf) (fun _ _ _ lost => lost)
      calm.besides
    split
    · exact release_last marks [] false
    · refine (along.hdr []).bind fun hdr => ?_
      split
      · refine (along.splitLeaf along (fun held root _ => setHdr_held _ _ _ _ _ held _) own).bind fun _ => ?_
        exact Simulates.either (release_last marks [] true) (Simulates.some fun root => release_last marks [root] true)
      · exact release_last marks [] true

end Insert

section Delete

variable [DecidableEq κ] (cmp : κ → κ → Int) (key : κ) {leaf : Int}

def deleteAt {σ : Type} (st : PageStore σ κ) (leaf : Int) : Prog σ RMDBError Bool := do
  let node ← st.read leaf
  let size ← remove st cmp leaf key
  if size = node.size then do
    let _ ← st.unpin leaf false
    pure false
  else do
    let rounds ← st.pageCount
    let _ ← coalesceOrRedistribute st rounds leaf
    let _ ← st.unpin leaf true
    pure true

theorem deleteEntry_at (st : PageStore σ κ) :
    deleteEntry st cmp key = findLeafPage st cmp key >>= deleteAt cmp key st := rfl

omit [DecidableEq κ] in
theorem remove_unknown  {s : σ} (there : st.read leaf s = (.ok node,s)) (unknown : node.removePos cmp key = none) :
    remove st cmp leaf key s = (.ok node.size,s) := by
  rw [remove,bind_ok there,unknown]
  exact bind_ok there

omit [DecidableEq κ] in
theorem remove_smaller {size pos : Nat} {next : IndexFile κ} (there : t.pages leaf = some node)
    (position : node.removePos cmp key = some pos) (run : remove IndexFile.store cmp leaf key t = (.ok size,next)) :
    size ≠ node.size := by
  rw [remove,bind_ok (read_run there),position] at run
  obtain ⟨_,middle,erased,rest⟩ := bind_ok_split run
  by_cases inside : pos < node.size
  · rw [erasePair_run there inside] at erased
    obtain ⟨_,rfl⟩ := Prod.mk.inj erased
    dsimp only at rest
    rw [bind_ok (read_run put_same)] at rest
    have less : (node.erasePair pos).size = size := Except.ok.inj (Prod.mk.inj rest).1
    simp only [IxNode.size,IxNode.erasePair] at less inside ⊢
    rw [List.length_eraseIdx_of_lt inside] at less
    omega
  · rw [erasePair,bind_ok (read_run there)] at erased
    simp [check,inside,bind_run] at erased

theorem deleteAt_agree (calm : Calm True was base failed [leaf] s t) :
    Agree was base (deleteAt cmp key store leaf) (deleteAt cmp key IndexFile.store leaf) s t := by
  rcases read_cases calm.view leaf with ⟨node,left,right⟩ | ⟨e,left,right⟩
  case inr => exact Agree.stop left right calm.toHeld.lost
  refine Agree.seq left right ?_
  cases position : node.removePos cmp key with
  | none =>
    refine Agree.seq (remove_unknown cmp key left position) (remove_unknown cmp key right position) ?_
    rw [if_pos rfl,if_pos rfl]
    refine Agree.seq (unpin_held leaf false calm.toHeld.pinned) (unpin_run false) ?_
    exact ⟨rfl,(calm.release false).toHeld.lost⟩
  | some pos =>
    have along := tracks (κ := κ) True was base failed fun _ => False
    have here : leaf ∈ [leaf] := List.mem_singleton_self leaf
    rcases (along.remove cmp key (.inl here)).ran calm.toHeld with ⟨size,s',t',left',right',rel⟩ | ⟨e,s',t',left',right',lost⟩
    case inr => exact Agree.stop left' right' lost
    refine Agree.seq left' right' ?_
    have smaller := remove_smaller cmp key (read_found right).1 position right'
    rw [if_neg smaller,if_neg smaller]
    refine agree_of ((along.pageCount [leaf]).bind fun rounds => ?_) (fun _ => Nat.le_refl _) (fun _ _ _ lost => lost) rel
    exact (coalesce_lost was base failed rounds here).bind fun _ => unpin_any leaf (Simulates.ret true)

end Delete

/-- The calls of an index. A scan delivers at most so many positions. -/
inductive IxCall (κ : Type) where
  | insertEntry (key : κ) (value : Rid)
  | deleteEntry (key : κ)
  | getValue (key : κ)
  | scan (rounds : Nat)

inductive Answer where
  | changed (answer : Bool)
  | found (rid : Option Rid)
  | rids (rids : List Rid)
  deriving DecidableEq, Repr

def IxCall.run {σ : Type} [DecidableEq κ] (st : PageStore σ κ) (cmp : κ → κ → Int) : IxCall κ → Prog σ RMDBError Answer
  | .insertEntry key value => do
    let answer ← IxIndexHandle.insertEntry st cmp key value
    pure (.changed answer)
  | .deleteEntry key => do
    let answer ← IxIndexHandle.deleteEntry st cmp key
    pure (.changed answer)
  | .getValue key => do
    let rid ← IxIndexHandle.getValue st cmp key
    pure (.found rid)
  | .scan rounds => do
    let rids ← scanAll st rounds
    pure (.rids rids)

section Runs

variable [DecidableEq κ] (cmp : κ → κ → Int)

/-- A call with the evictions that its `fetch_page` and `new_page` calls make. -/
abbrev Request (κ : Type) : Type := IxCall κ × List (List Int)

def serve (s : CachedIndex κ) (r : Request κ) : Except RMDBError Answer × CachedIndex κ :=
  r.1.run store cmp (s.evicting r.2)

def step (s : CachedIndex κ) (r : Request κ) : CachedIndex κ := (serve cmp s r).2

/-- The same call on a file whose pages are never evicted. -/
def fileStep (t : IndexFile κ) (r : Request κ) : IndexFile κ := (r.1.run IndexFile.store cmp).after t

def answers (s : CachedIndex κ) : List (Request κ) → List (Except RMDBError Answer)
  | [] => []
  | r :: rest => (serve cmp s r).1 :: answers (step cmp s r) rest

def fileAnswers (t : IndexFile κ) : List (Request κ) → List (Except RMDBError Answer)
  | [] => []
  | r :: rest => (r.1.run IndexFile.store cmp t).1 :: fileAnswers (fileStep cmp t r) rest

/-- The tree was not emptied, and an `insert_entry` that adds its key to a leaf finds that leaf marked. -/
def Marked (s : CachedIndex κ) (r : Request κ) : Prop :=
  s.hdr.rootPage ≠ invalidPageId ∧
  match r.1 with
  | .insertEntry key _ => ∀ leaf found node, findLeafPage store cmp key (s.evicting r.2) = (.ok leaf,found) →
    found.cache.view leaf = some node → (node.insertPos cmp key).isSome → found.cache.dirty leaf = true
  | _ => True

omit [DecidableEq κ] in
theorem Agree.mapped  (f : α → β) (agree : Agree was base x y s t) : Agree was base
      (do let a ← x
          pure (f a))
      (do let a ← y
          pure (f a)) s t := by
  obtain ⟨same,lost⟩ := agree
  unfold after at lost
  match left : x s, right : y t with
  | (.ok a,s'),(.ok b,t') =>
    rw [left,right] at same lost
    obtain rfl : a = b := Except.ok.inj same
    exact Agree.seq left right ⟨rfl,lost⟩
  | (.error a,s'),(.error b,t') =>
    rw [left,right] at same lost
    obtain rfl : a = b := Except.error.inj same
    exact Agree.stop left right lost
  | (.ok _,_),(.error _,_) => rw [left,right] at same; cases same
  | (.error _,_),(.ok _,_) => rw [left,right] at same; cases same

/-- One call: the answer is that of the file, what it changed is marked and nothing unmarked is left unpinned. -/
theorem Kept.serve (kept : Kept s t) (r : Request κ) (marked : Marked cmp s r) :
    (serve cmp s r).1 = (r.1.run IndexFile.store cmp t).1 ∧ Flagged s (step cmp s r) ∧ Kept (step cmp s r) (fileStep cmp t r) := by
  have calm := kept.calm r.2
  have reads := browses True s.cache.view s.cache.pin s.failed
  obtain ⟨call,evictions⟩ := r
  suffices agree : Agree s.cache.view s.cache.pin (call.run store cmp) (call.run IndexFile.store cmp)
      (s.evicting evictions) t from ⟨agree.1,agree.2.flagged,agree.2.kept⟩
  cases call with
  | insertEntry key value =>
    refine Agree.mapped _ ?_
    rw [insertEntry_at,insertEntry_at]
    rcases (reads.findLeafPage [] cmp key).ran calm with ⟨leaf,s',t',left,right,found⟩ | ⟨e,s',t',left,right,lost⟩
    · refine Agree.seq left right (insertAt_agree cmp key value found fun node there adds => ?_)
      exact marked.2 leaf s' node left (found.view ▸ there) adds
    · exact Agree.stop left right lost
  | deleteEntry key =>
    refine Agree.mapped _ ?_
    rw [deleteEntry_at,deleteEntry_at]
    rcases (reads.findLeafPage [] cmp key).ran calm with ⟨leaf,s',t',left,right,found⟩ | ⟨e,s',t',left,right,lost⟩
    · exact Agree.seq left right (deleteAt_agree cmp key found)
    · exact Agree.stop left right lost
  | getValue key =>
    exact Agree.mapped _ (agree_of (reads.getValue [] cmp key) (fun _ => Nat.le_refl _) (fun _ _ _ rel => rel.toHeld.lost) calm)
  | scan rounds =>
    exact Agree.mapped _ (agree_of (reads.scanAll [] rounds) (fun _ => Nat.le_refl _) (fun _ _ _ ⟨_,rel⟩ => rel.toHeld.lost) calm)

/-- In every run whose insertions find their leaves marked and that ends when the tree is emptied, every call marks
the pages it changes and the evictions make no difference. -/
theorem evictions_invisible (s : CachedIndex κ) (t : IndexFile κ) (kept : Kept s t) (run : List (Request κ))
    (marked : Guarded (step cmp) (Marked cmp) s run) :
    answers cmp s run = fileAnswers cmp t run ∧
    (∀ before r after, run = before ++ r :: after →
      Flagged (before.foldl (step cmp) s) (step cmp (before.foldl (step cmp) s) r)) ∧
    ∀ before after, run = before ++ after → Kept (before.foldl (step cmp) s) (before.foldl (fileStep cmp) t) := by
  induction run generalizing s t with
  | nil =>
    refine ⟨rfl,by simp,fun before after split => ?_⟩
    obtain ⟨rfl,_⟩ := List.append_eq_nil_iff.mp split.symm
    exact kept
  | cons r rest ih =>
    obtain ⟨same,flagged,next⟩ := kept.serve cmp r marked.1
    obtain ⟨later,flags,states⟩ := ih _ _ next marked.2
    refine ⟨by rw [answers,fileAnswers,same,later],fun before request after split => ?_,fun before after split => ?_⟩
    · cases before with
      | nil =>
        obtain ⟨rfl,_⟩ := List.cons.inj split
        exact flagged
      | cons b before =>
        obtain ⟨rfl,tail⟩ := List.cons.inj split
        exact flags before request after tail
    · cases before with
      | nil => exact kept
      | cons b before =>
        obtain ⟨rfl,tail⟩ := List.cons.inj split
        exact states before after tail

end Runs

/-- A file that is on disk as it is, with marks on some pages and no pins. -/
def unpinned (t : IndexFile κ) (dirty : Int → Bool) : CachedIndex κ :=
  ⟨t.hdr,t.nextPage,⟨t.pages,t.pages,fun _ => 0,dirty⟩,[],false⟩

theorem unpinned_kept (t : IndexFile κ) (dirty : Int → Bool) : Kept (unpinned t dirty) t :=
  ⟨rfl,rfl,rfl,fun _ _ => .inr rfl⟩

section Examples

open IndexTree

/-- A fresh index on an INT column. -/
def freshIds : IndexFile (List Byte) := created intHeaderNode (createdHdr idCols 3)

/-- A key is inserted, and looked up after the frame of its leaf was taken. -/
def insertEvictFind : List (Request (List Byte)) :=
  [(.insertEntry (intBytes 7) ⟨1,0⟩,[]),(.getValue (intBytes 7),[[2]])]

/-- The leaf of a fresh index is clean, and the insert is lost. -/
theorem evicted_insert_lost : Kept (unpinned freshIds fun _ => false) freshIds ∧
    answers (ixCompare (ixCols idCols)) (unpinned freshIds fun _ => false) insertEvictFind =
      [.ok (.changed true),.ok (.found none)] ∧
    fileAnswers (ixCompare (ixCols idCols)) freshIds insertEvictFind =
      [.ok (.changed true),.ok (.found (some ⟨1,0⟩))] := by
  refine ⟨unpinned_kept _ _,?_,?_⟩ <;> decide +kernel

/-- On a leaf that is marked already the same run keeps it. -/
theorem marked_leaf_keeps_insert :
    answers (ixCompare (ixCols idCols)) (unpinned freshIds fun p => p = 2) insertEvictFind =
      [.ok (.changed true),.ok (.found (some ⟨1,0⟩))] := by
  have marked : Guarded (step (ixCompare (ixCols idCols))) (Marked (ixCompare (ixCols idCols)))
      (unpinned freshIds fun p => p = 2) insertEvictFind := by
    refine ⟨⟨by decide,fun leaf found node search _ _ => ?_⟩,⟨by decide +kernel,trivial⟩,trivial⟩
    have reached : (findLeafPage store (ixCompare (ixCols idCols)) (intBytes 7)
        ((unpinned freshIds fun p => p = 2).evicting [])).1 = .ok 2 := by decide +kernel
    have dirty : (findLeafPage store (ixCompare (ixCols idCols)) (intBytes 7)
        ((unpinned freshIds fun p => p = 2).evicting [])).2.cache.dirty 2 = true := by decide +kernel
    rw [search] at reached dirty
    obtain rfl : leaf = 2 := Except.ok.inj reached
    exact dirty
  rw [(evictions_invisible (ixCompare (ixCols idCols)) _ freshIds (unpinned_kept _ _) insertEvictFind marked).1]
  decide +kernel

end Examples

end Rucbase.CachedIndex
