import Rucbase.IxTracks
import Rucbase.IndexFile
import Rucbase.Lib.PageCache

/-! The index in a pool that evicts pages. Each `fetch_page` and `new_page` may first take the
frames of any unpinned pages; which ones is given with the operation. A handle reads its page
also after the page is unpinned: the frame that was unpinned last is the last to be reused. -/
namespace Rucbase

open Lib IxIndexHandle Prog PageCache

/-- The pages of one index in the pool and on disk, the evictions to come and whether an
`unpin_page` found no pin. -/
structure CachedIndex (κ : Type) where
  hdr : IxFileHdr
  nextPage : Nat
  cache : PageCache Int (Option (IxNode κ))
  evictions : List (List Int)
  failed : Bool

namespace CachedIndex

variable {κ : Type}

/-- The frames that the next call takes are emptied. -/
def makeRoom (s : CachedIndex κ) : CachedIndex κ :=
  { s with cache := s.cache.evictAll (s.evictions.headD []), evictions := s.evictions.tail }

/-- A new page is pinned once and not marked; nothing of it is on disk. -/
def store : PageStore (CachedIndex κ) κ where
  fetch p := do
    update makeRoom
    let s ← state
    check (s.cache.view p).isSome (.internal "DiskManager::read_page Error")
    update fun s => { s with cache := s.cache.fetch p }
  newPage := do
    update makeRoom
    let s ← state
    let p : Int := s.nextPage
    update fun s => { s with nextPage := s.nextPage + 1, cache := (s.cache.write p (some .zero)).fetch p }
    pure p
  unpin p isDirty := do
    let s ← state
    if s.cache.pin p = 0 then do
      update fun s => { s with failed := true }
      pure false
    else do
      update fun s => { s with cache := s.cache.release p isDirty }
      pure true
  read p := do
    let s ← state
    match s.cache.view p with
    | some node => pure node
    | none => raise .assertion
  write p node := update fun s => { s with cache := s.cache.write p (some node) }
  hdr := do
    let s ← state
    pure s.hdr
  setHdr f := update fun s => { s with hdr := f s.hdr }
  pageCount := do
    let s ← state
    pure s.nextPage

/-- The two states while an operation that found the pages `was` holds pins on the pages `held` and others hold
`base`. Under `kept` no page that the operation does not hold would lose bytes; otherwise nothing is evicted. -/
structure Held (kept : Prop) (was : Int → Option (IxNode κ)) (base : Int → Nat) (failed : Bool) (marked : Int → Prop)
    (held : List Int) (s : CachedIndex κ) (t : IndexFile κ) : Prop where
  hdr : s.hdr = t.hdr
  nextPage : s.nextPage = t.nextPage
  view : s.cache.view = t.pages
  pins : ∀ q, s.cache.pin q = base q + held.count q
  failed : s.failed = failed
  quiet : kept ∨ s.evictions = []
  synced : kept → ∀ q, q ∉ held → base q = 0 → s.cache.Synced q
  changes : ∀ q, q ∉ held → base q ≠ 0 → s.cache.dirty q = true ∨ t.pages q = was q
  marks : ∀ q, marked q → base q ≠ 0 ∧ s.cache.dirty q = true

variable {kept : Prop} {was : Int → Option (IxNode κ)} {base : Int → Nat} {failed : Bool} {marked : Int → Prop}
  {held : List Int} {s : CachedIndex κ} {t : IndexFile κ}

theorem Held.unpinned (rel : Held kept was base failed marked held s t) (sync : kept) (q : Int) (free : s.cache.pin q = 0) :
    s.cache.Synced q := by
  rw [rel.pins q] at free
  exact rel.synced sync q (List.count_eq_zero.mp (by omega)) (by omega)

theorem Held.room (rel : Held kept was base failed marked held s t) : Held kept was base failed marked held s.makeRoom t := by
  have same : s.makeRoom.cache.view = s.cache.view := by
    rcases rel.quiet with sync | none
    · exact evictAll_view _ _ (rel.unpinned sync)
    · rw [makeRoom,none]
      rfl
  have dirty : ∀ q, base q ≠ 0 → s.makeRoom.cache.dirty q = s.cache.dirty q := fun q pinned =>
    evictAll_dirty _ _ (by rw [rel.pins]; omega)
  refine { rel with
    view := same.trans rel.view
    pins := fun q => ?_
    quiet := ?_
    synced := fun sync q other free => ?_
    changes := fun q other pinned => (rel.changes q other pinned).imp_left (dirty q pinned).trans
    marks := fun q isMarked => ?_ }
  · rw [makeRoom,evictAll_pin,rel.pins]
  · exact rel.quiet.imp_right fun none => by rw [makeRoom,none]; rfl
  · exact evictAll_synced _ _ (rel.synced sync q other free)
  · exact (rel.marks q isMarked).imp_right (dirty q (rel.marks q isMarked).1).trans

/-- What is left at the end or after a throw. The operation may have dropped pins of others on pages it does not
hold. -/
def Lost (kept : Prop) (was : Int → Option (IxNode κ)) (base : Int → Nat) (s : CachedIndex κ) (t : IndexFile κ) : Prop :=
  ∃ others failed held, (∀ q ∈ held, base q ≤ others q) ∧ Held kept was others failed (fun _ => False) held s t

theorem Held.lost (rel : Held kept was base failed marked held s t) : Lost kept was base s t :=
  ⟨base,failed,held,fun _ _ => Nat.le_refl _,{ rel with marks := nofun }⟩

theorem Held.loses (rel : Held kept was base failed marked held s t) : ∀ lost ∈ some (Lost kept was base), lost s t := by
  rintro _ ⟨⟩
  exact rel.lost

theorem steps {α : Type} {P : CachedIndex κ → IndexFile κ → Prop} {Q : α → CachedIndex κ → IndexFile κ → Prop}
    {x : Prog (CachedIndex κ) RMDBError α} {y : Prog (IndexFile κ) RMDBError α}
    (both : ∀ s t, P s t → ∃ a s' t', x s = (.ok a,s') ∧ y t = (.ok a,t') ∧ Q a s' t') :
    Simulates P x y Q (some (Lost kept was base)) :=
  fun s t rel => .inl (both s t rel)

theorem fetch_run (p : Int) (s : CachedIndex κ) : store.fetch p s =
    if (s.makeRoom.cache.view p).isSome then (.ok (),{ s.makeRoom with cache := s.makeRoom.cache.fetch p })
    else (.error (.internal "DiskManager::read_page Error"),s.makeRoom) := by
  cases there : (s.makeRoom.cache.view p).isSome <;> simp [store,bind_run,check,there]

theorem read_cases (view : s.cache.view = t.pages) (p : Int) :
    (∃ node, store.read p s = (.ok node,s) ∧ IndexFile.store.read p t = (.ok node,t)) ∨
    ∃ e, store.read p s = (.error e,s) ∧ IndexFile.store.read p t = (.error e,t) := by
  cases there : t.pages p <;> simp [store,IndexFile.store,bind_run,view,there]

theorem newPage_run {n : Nat} (next : s.makeRoom.nextPage = n) : store.newPage s = (.ok (n : Int),
    { s.makeRoom with
      nextPage := s.makeRoom.nextPage + 1
      cache := (s.makeRoom.cache.fetch (n : Int)).write (n : Int) (some .zero) }) := by
  subst next
  rfl

theorem unpin_held (p : Int) (isDirty : Bool) (pinned : s.cache.pin p ≠ 0) :
    store.unpin p isDirty s = (.ok true,{ s with cache := s.cache.release p isDirty }) := by
  simp [store,bind_run,pinned]

theorem unpin_free (p : Int) (isDirty : Bool) (free : s.cache.pin p = 0) :
    store.unpin p isDirty s = (.ok false,{ s with failed := true }) := by
  simp [store,bind_run,free]

theorem Held.fetch (rel : Held kept was base failed marked held s t) (p : Int) :
    Held kept was base failed marked (p :: held) { s with cache := s.cache.fetch p } t := by
  refine { rel with
    pins := fun q => ?_
    synced := fun sync q other free => rel.synced sync q (fun member => other (List.mem_cons_of_mem p member)) free
    changes := fun q other => rel.changes q fun member => other (List.mem_cons_of_mem p member)
    marks := rel.marks }
  by_cases here : q = p
  · subst q
    simp [PageCache.fetch,rel.pins,Nat.add_assoc]
  · simp [PageCache.fetch,here,Ne.symm here,rel.pins]

theorem Held.write (rel : Held kept was base failed marked held s t) {p : Int} (node : IxNode κ) (writable : p ∈ held ∨ marked p) :
    Held kept was base failed marked held { s with cache := s.cache.write p (some node) } (t.put p node) := by
  refine { rel with
    view := by simp [PageCache.write,IndexFile.put,rel.view]
    pins := rel.pins
    synced := fun sync q other free => ?_
    changes := fun q other pinned => ?_
    marks := rel.marks }
  · have apart : q ≠ p := fun same =>
      writable.elim (fun member => other (same ▸ member)) fun isMarked => (rel.marks p isMarked).1 (same ▸ free)
    simpa [PageCache.Synced,PageCache.write,apart] using rel.synced sync q other free
  · by_cases here : q = p
    · subst here
      exact .inl (rel.marks q (writable.resolve_left other)).2
    · simpa [PageCache.write,IndexFile.put,here] using rel.changes q other pinned

theorem Held.released (rel : Held kept was base failed marked (p :: held) s t) (mark : Bool) (q : Int) :
    (s.cache.release p mark).pin q = base q + held.count q := by
  have count := rel.pins q
  by_cases here : q = p
  · subst q
    simp [release,count,← Nat.add_assoc]
  · simpa [release,here,Ne.symm here] using count

theorem Held.release (rel : Held kept was base failed marked (p :: held) s t) :
    Held kept was base failed marked held { s with cache := s.cache.release p true } t := by
  have dirty : ∀ q, s.cache.dirty q = true ∨ q = p → (s.cache.release p true).dirty q = true := fun q either => by
    by_cases here : q = p
    · subst q; simp [PageCache.release]
    · simpa [PageCache.release,here] using either
  refine { rel with
    pins := rel.released true
    synced := fun sync q other free => ?_
    changes := fun q other pinned => ?_
    marks := fun q isMarked => (rel.marks q isMarked).imp_right fun marked => dirty q (.inl marked) }
  all_goals by_cases here : q = p
  · exact .inl (dirty q (.inr here))
  · exact (rel.synced sync q (by simp [here,other]) free).imp_left fun marked => dirty q (.inl marked)
  · exact .inl (dirty q (.inr here))
  · exact (rel.changes q (by simp [here,other]) pinned).imp_left fun marked => dirty q (.inl marked)

theorem Held.pinned {p : Int} (rel : Held kept was base failed marked (p :: held) s t) : s.cache.pin p ≠ 0 := by
  rw [rel.pins,List.count_cons_self]
  omega

theorem read_held (held : List Int) (p : Int) : Simulates (Held (κ := κ) kept was base failed marked held) (store.read p)
    (IndexFile.store.read p) (fun _ => Held kept was base failed marked held) (some (Lost kept was base)) :=
  fun s t rel => (read_cases rel.view p).imp (fun ⟨node,left,right⟩ => ⟨node,s,t,left,right,rel⟩)
    fun ⟨e,left,right⟩ => ⟨e,t,right,fun lost isLost => ⟨s,left,rel.loses lost isLost⟩⟩

theorem tracks (kept : Prop) (was : Int → Option (IxNode κ)) (base : Int → Nat) (failed : Bool) (marked : Int → Prop) :
    Tracks (store : PageStore (CachedIndex κ) κ) IndexFile.store (Held kept was base failed marked) marked (fun _ => True)
      (some (Lost kept was base)) where
  perm same rel := { rel with
    pins := fun q => by rw [rel.pins,same.count_eq]
    synced := fun sync q other => rel.synced sync q fun member => other (same.mem_iff.mp member)
    changes := fun q other => rel.changes q fun member => other (same.mem_iff.mp member)
    marks := rel.marks }
  lost rel := rel.loses
  read := read_held
  fetch held p := by
    intro s t rel
    have room := rel.room
    have run := fetch_run p s
    cases there : t.pages p with
    | none =>
      rw [room.view,there] at run
      exact .inr ⟨_,t,by simp [IndexFile.store,bind_run,check,there],fun lost isLost => ⟨_,run,room.loses lost isLost⟩⟩
    | some node =>
      rw [room.view,there] at run
      exact .inl ⟨_,_,t,run,IndexFile.fetch_run there,room.fetch p⟩
  newPage held := steps fun s t rel => by
    have made := (rel.room.fetch t.nextPage).write .zero (.inl (List.mem_cons_self ..))
    have next : s.makeRoom.nextPage = t.nextPage := rel.room.nextPage
    refine ⟨(t.nextPage : Int),_,_,newPage_run next,rfl,trivial,?_⟩
    exact { made with nextPage := congrArg (· + 1) next }
  rewrite held p passes f writable := (read_held held p).bind fun _ => (Simulates.check fun _ _ => Held.loses).bind fun _ =>
    steps fun s t rel => ⟨(),_,_,rfl,rfl,rel.write _ writable⟩
  unpin held p := steps fun s t rel => ⟨true,_,t,unpin_held p true rel.pinned,rfl,rel.release⟩
  hdr held := steps fun s t rel => ⟨t.hdr,s,t,by rw [← rel.hdr]; rfl,rfl,rel⟩
  setHdr held change _ := steps fun s t rel => ⟨(),_,_,rfl,rfl,{ rel with hdr := by simp [rel.hdr] }⟩
  pageCount held := steps fun s t rel => ⟨t.nextPage,s,t,by rw [← rel.nextPage]; rfl,rfl,rel⟩

/-- Nothing was changed yet: the pages that are held lose no bytes either. -/
structure Calm (kept : Prop) (was : Int → Option (IxNode κ)) (base : Int → Nat) (failed : Bool) (held : List Int)
    (s : CachedIndex κ) (t : IndexFile κ) : Prop
    extends Held kept was base failed (fun _ => False) held s t where
  same : t.pages = was
  clean : kept → ∀ q, base q = 0 → s.cache.Synced q

theorem Calm.room (calm : Calm kept was base failed held s t) : Calm kept was base failed held s.makeRoom t :=
  { calm.toHeld.room with same := calm.same, clean := fun sync q free => evictAll_synced _ _ (calm.clean sync q free) }

theorem release_synced {c : PageCache Int (Option (IxNode κ))} {p q : Int} {mark : Bool} (synced : c.Synced q) :
    (c.release p mark).Synced q := by
  refine synced.imp_left fun dirty => ?_
  by_cases here : q = p
  · subst q; simp [release,dirty]
  · simpa [release,here] using dirty

theorem Calm.release {p : Int} (calm : Calm kept was base failed (p :: held) s t) (mark : Bool) :
    Calm kept was base failed held { s with cache := s.cache.release p mark } t :=
  { calm with
    pins := calm.toHeld.released mark
    synced := fun sync q _ free => release_synced (calm.clean sync q free)
    changes := fun q _ _ => .inr (congrFun calm.same q)
    marks := nofun
    clean := fun sync q free => release_synced (calm.clean sync q free) }

theorem browses (kept : Prop) (was : Int → Option (IxNode κ)) (base : Int → Nat) (failed : Bool) :
    Browses (store : PageStore (CachedIndex κ) κ) IndexFile.store (Calm kept was base failed) (some (Lost kept was base)) where
  perm same calm := { (tracks kept was base failed fun _ => False).perm same calm.toHeld with same := calm.same, clean := calm.clean }
  lost calm := calm.toHeld.loses
  read held p s t calm := (read_cases calm.view p).imp (fun ⟨node,left,right⟩ => ⟨node,s,t,left,right,calm⟩)
    fun ⟨e,left,right⟩ => ⟨e,t,right,fun lost isLost => ⟨s,left,calm.toHeld.loses lost isLost⟩⟩
  fetch held p := by
    intro s t calm
    have room := calm.room
    have run := fetch_run p s
    cases there : t.pages p with
    | none =>
      rw [room.view,there] at run
      exact .inr ⟨_,t,by simp [IndexFile.store,bind_run,check,there],fun lost isLost => ⟨_,run,room.toHeld.loses lost isLost⟩⟩
    | some node =>
      rw [room.view,there] at run
      exact .inl ⟨_,_,t,run,IndexFile.fetch_run there,{ room.toHeld.fetch p with same := room.same, clean := room.clean }⟩
  unpin held p := steps fun s t calm => ⟨true,_,t,unpin_held p false calm.toHeld.pinned,rfl,calm.release false⟩
  hdr held := steps fun s t calm => ⟨t.hdr,s,t,by rw [← calm.hdr]; rfl,rfl,calm⟩
  pageCount held := steps fun s t calm => ⟨t.nextPage,s,t,by rw [← calm.nextPage]; rfl,rfl,calm⟩

end CachedIndex

end Rucbase
