import Rucbase.IndexEviction
import Rucbase.IndexScan

/-! The pages that the operations of an index bring into the buffer pool. The header of the file is
on page 0, which is read without the pool and is no node: an operation that returns on a file
without a page 0 takes the same steps on the file that has one, and never asks for it. -/
namespace Rucbase

open Lib IxIndexHandle Prog IndexFile
open Simulates (ret of_returns)

/-- An index and the pages that `fetch_page` was asked for or `new_page` returned. -/
structure IndexVisits (κ : Type) where
  file : IndexFile κ
  seen : List Int

namespace IndexVisits

variable {κ : Type}

def onFile {α : Type} (call : Prog (IndexFile κ) RMDBError α) : Prog (IndexVisits κ) RMDBError α := fun s =>
  ((call s.file).1,{ s with file := call.after s.file })

def visit (p : Int) : Prog (IndexVisits κ) RMDBError Unit := update fun s => { s with seen := p :: s.seen }

def store : PageStore (IndexVisits κ) κ where
  fetch p := do
    visit p
    onFile (IndexFile.store.fetch p)
  newPage := do
    let p ← onFile IndexFile.store.newPage
    visit p
    pure p
  unpin p isDirty := onFile (IndexFile.store.unpin p isDirty)
  read p := onFile (IndexFile.store.read p)
  write p node := onFile (IndexFile.store.write p node)
  hdr := onFile IndexFile.store.hdr
  setHdr f := onFile (IndexFile.store.setHdr f)
  pageCount := onFile IndexFile.store.pageCount

/-- The second file has no page 0, and otherwise the pages of the first. -/
structure Near (s t : IndexFile κ) : Prop where
  hdr : s.hdr = t.hdr
  nextPage : s.nextPage = t.nextPage
  pages : ∀ p, p ≠ ixFileHdrPage → s.pages p = t.pages p
  low : ∀ p, p ≤ ixFileHdrPage → t.pages p = none
  behind : 1 ≤ t.nextPage

variable {s t : IndexFile κ}

theorem Near.found (near : Near s t) {p : Int} {node : IxNode κ} (there : t.pages p = some node) :
    s.pages p = some node ∧ ixFileHdrPage < p := by
  have above : ixFileHdrPage < p := by
    by_contra low
    rw [near.low p (by omega)] at there
    cases there
  exact ⟨(near.pages p (by omega)).trans there,above⟩

theorem Near.put (near : Near s t) {p : Int} (above : ixFileHdrPage < p) (node : IxNode κ) :
    Near (s.put p node) (t.put p node) := by
  refine ⟨near.hdr,near.nextPage,fun q other => ?_,fun q low => ?_,near.behind⟩
  · by_cases same : q = p
    · subst q
      exact put_same.trans put_same.symm
    · rw [put_other same,put_other same]
      exact near.pages q other
  · rw [put_other (by omega)]
    exact near.low q low

theorem fetch_found {p : Int} {next : IndexFile κ} (run : IndexFile.store.fetch p t = (.ok (),next)) :
    (∃ node, t.pages p = some node) ∧ next = t := by
  match found : t.pages p with
  | some node =>
    rw [fetch_run found] at run
    exact ⟨⟨node,rfl⟩,(Prod.mk.inj run).2.symm⟩
  | none => simp [IndexFile.store,bind_run,check,found] at run

theorem Near.rewrite (p : Int) (passes : IxNode κ → Bool) (f : IxNode κ → IxNode κ) :
    Simulates Near (rewrite IndexFile.store p passes f) (rewrite IndexFile.store p passes f) (fun _ => Near) none := by
  refine of_returns fun s t near a t' run => ?_
  obtain ⟨node,_,read,write⟩ := bind_ok_split run
  obtain ⟨there,rfl⟩ := IndexFile.read_found read
  obtain ⟨here,above⟩ := near.found there
  rw [IxIndexHandle.rewrite,bind_ok (IndexFile.read_run here)]
  cases fine : passes node with
  | false =>
    rw [fine] at write
    cases write
  | true =>
    rw [fine,bind_ok (check_run rfl _ _)] at write
    rw [bind_ok (check_run rfl _ _)]
    obtain ⟨-,rfl⟩ := Prod.mk.inj write
    exact ⟨_,rfl,near.put above _⟩

theorem near_alike : Alike (IndexFile.store : PageStore (IndexFile κ) κ) IndexFile.store Near none where
  lost := nofun
  fetch p := of_returns fun s t near a t' run => by
    obtain ⟨⟨node,there⟩,rfl⟩ := fetch_found run
    exact ⟨s,fetch_run (near.found there).1,near⟩
  newPage s t near := by
    have behind := near.behind
    have grown := near.put (p := t.nextPage) (by simp only [ixFileHdrPage]; omega) .zero
    refine .inl ⟨t.nextPage,{ s.put t.nextPage .zero with nextPage := t.nextPage + 1 },_,?_,newPage_run,?_⟩
    · rw [newPage_run,near.nextPage]
    · exact ⟨grown.hdr,rfl,grown.pages,grown.low,Nat.le_add_left 1 _⟩
  unpin p dirty s t near := .inl ⟨true,s,t,rfl,rfl,near⟩
  read p := of_returns fun s t near a t' run => by
    obtain ⟨there,rfl⟩ := read_found run
    exact ⟨s,read_run (near.found there).1,near⟩
  rewrite := Near.rewrite
  hdr s t near := .inl ⟨t.hdr,s,t,by rw [hdr_run,near.hdr],rfl,near⟩
  setHdr change _ s t near := .inl ⟨(),_,_,rfl,rfl,{ near with hdr := by simp [near.hdr] }⟩
  pageCount s t near := .inl ⟨t.nextPage,s,t,by rw [pageCount_run,near.nextPage],rfl,near⟩

/-- No page was asked for but nodes of the file, and the page that an empty index has as its root. -/
structure Apart (s : IndexVisits κ) (t : IndexFile κ) : Prop where
  near : Near s.file t
  seen : ∀ p ∈ s.seen, ixFileHdrPage < p ∨ p = invalidPageId

theorem follows_onFile {α : Type} {x y : Prog (IndexFile κ) RMDBError α}
    (follows : Simulates Near x y (fun _ => Near) none) : Simulates Apart (onFile x) y (fun _ => Apart) none := by
  refine of_returns fun s t apart a t' run => ?_
  obtain ⟨s',same,near⟩ := follows.back apart.near run
  refine ⟨{ s with file := s' },?_,near,apart.seen⟩
  simp [onFile,after,same]

theorem onFile_bind {α β : Type} (x : Prog (IndexFile κ) RMDBError α) (f : α → Prog (IndexFile κ) RMDBError β) :
    onFile (x >>= f) = onFile x >>= fun a => onFile (f a) := by
  funext s
  rw [bind_run,onFile,onFile,after,after,bind_run]
  rcases x s.file with ⟨e | a,next⟩ <;> rfl

theorem onFile_check (holds : Bool) (e : RMDBError) :
    onFile (check holds e) = (check holds e : Prog (IndexVisits κ) RMDBError Unit) := by
  cases holds <;> rfl

theorem Apart.visit {s : IndexVisits κ} (apart : Apart s t) {p : Int} (node : ixFileHdrPage < p ∨ p = invalidPageId) :
    Apart { s with seen := p :: s.seen } t :=
  ⟨apart.near,List.forall_mem_cons.mpr ⟨node,apart.seen⟩⟩

theorem apart_alike : Alike (store : PageStore (IndexVisits κ) κ) IndexFile.store Apart none where
  lost := nofun
  fetch p := of_returns fun s t apart a t' run => by
    obtain ⟨⟨node,there⟩,rfl⟩ := fetch_found run
    have visited := apart.visit (.inl (apart.near.found there).2)
    exact (follows_onFile (near_alike.fetch p)).back visited run
  newPage := of_returns fun s t apart a t' run => by
    obtain ⟨s',made,again⟩ := (follows_onFile near_alike.newPage).back apart run
    refine ⟨_,bind_ok made,again.visit (.inl ?_)⟩
    obtain ⟨same,-⟩ := Prod.mk.inj run
    obtain rfl := Except.ok.inj same
    have behind := apart.near.behind
    simp only [ixFileHdrPage]
    omega
  unpin p dirty := follows_onFile (near_alike.unpin p dirty)
  read p := follows_onFile (near_alike.read p)
  rewrite p passes f := by
    have follows := follows_onFile (near_alike.rewrite p passes f)
    simp only [rewrite,onFile_bind,onFile_check] at follows
    exact follows
  hdr := follows_onFile near_alike.hdr
  setHdr change repoints := follows_onFile (near_alike.setHdr change repoints)
  pageCount := follows_onFile near_alike.pageCount

section Runs

open CachedIndex IndexTree

variable [DecidableEq κ] (cmp : κ → κ → Int)

def step (s : IndexVisits κ) (call : IxCall κ) : IndexVisits κ := (call.run store cmp).after s

/-- A `delete_entry` leaves no inner node below the root with too few children. -/
def Fed (s : IndexVisits κ) : IxCall κ → Prop
  | .deleteEntry key => starves cmp key s.file = false
  | _ => True

theorem alike_call {σ τ : Type} {st : PageStore σ κ} {ref : PageStore τ κ} {Rel : σ → τ → Prop}
    {Lost : Option (σ → τ → Prop)} (alike : Alike st ref Rel Lost) (call : IxCall κ) :
    Simulates Rel (call.run st cmp) (call.run ref cmp) (fun _ => Rel) Lost := by
  cases call with
  | insertEntry key value => exact (alike.insertEntry cmp key value).bind fun _ => ret _
  | deleteEntry key => exact (alike.deleteEntry cmp key).bind fun _ => ret _
  | getValue key => exact (alike.browses.getValue [] cmp key).bind fun _ => ret _
  | scan rounds =>
    exact (alike.browses.scanAll [] rounds).bind fun rids => Simulates.pure fun _ _ ⟨_,rel⟩ => rel

omit [DecidableEq κ] in
/-- Only nodes are looked at, so the file without page 0 is starved no earlier. -/
theorem Near.fed {cmp : κ → κ → Int} (near : Near s t) {key : κ} (fed : starves cmp key s = false) :
    starves cmp key t = false := by
  rw [← Bool.not_eq_true] at fed ⊢
  refine fun starved => fed ?_
  unfold starves at starved ⊢
  match search : findLeafPage IndexFile.store cmp key t with
  | (.error _,_) =>
    rw [search] at starved
    cases starved
  | (.ok p,_) =>
    obtain ⟨_,found,_⟩ := (near_alike.browses.findLeafPage [] cmp key).back near search
    rw [search] at starved
    rw [found]
    simp only [Option.bind_eq_bind,Option.getD_eq_iff,Option.bind_eq_some_iff,Bool.false_eq_true,and_false,or_false] at starved ⊢
    obtain ⟨node,there,pos,removed,parent,above,at_,child,pair,beside,sibling,brother,rest⟩ := starved
    refine ⟨node,(near.found there).1,pos,removed,parent,(near.found above).1,at_,child,pair,beside,sibling,
      (near.found brother).1,?_⟩
    rw [near.hdr]
    exact rest

/-- The tree lost its last pair: no root, and one leaf, which is empty. -/
structure Spent (t : IndexFile κ) : Prop where
  root : t.hdr.rootPage = invalidPageId
  ends : t.hdr.firstLeaf = t.hdr.lastLeaf
  leaf : ∃ node, t.pages t.hdr.lastLeaf = some node ∧ node.pairs = []

/-- The file holds a tree, or one that lost its last pair. -/
def Steady (order : Nat) (t : IndexFile κ) : Prop := (∃ r, Shaped (fun _ => True) order t r) ∨ Spent t

variable {cmp} {order : Nat}

theorem delete_steady (three : 3 ≤ order) {r : IxRoot κ} (shaped : Shaped (fun _ => True) order t r) {key : κ}
    (fed : starves cmp key t = false) : ∃ a t', IxIndexHandle.deleteEntry IndexFile.store cmp key t = (.ok a,t') ∧ Steady order t' := by
  rcases shaped.delete_found cmp key three with ⟨none,_⟩ | ⟨path,leaf,node,low,e,high,rfl,found,there,items,position,_⟩
  · exact ⟨false,t,none,.inl ⟨r,shaped⟩⟩
  by_cases last : path = .top ∧ low ++ high = []
  · obtain ⟨rfl,none⟩ := last
    have first : leaf.page = t.hdr.firstLeaf := Option.some.inj shaped.firstLeaf
    have final : leaf.page = t.hdr.lastLeaf := Option.some.inj shaped.lastLeaf
    refine ⟨true,_,shaped.delete_last found there items position rfl none,.inr ⟨rfl,first.symm.trans final,?_⟩⟩
    exact ⟨{ node with pairs := [] },by rw [← final]; exact IndexFile.put_same,rfl⟩
  · obtain ⟨t',r',run,again,_⟩ := shaped.deleteEntry three found there items position
      (shaped.spared found there position fed) fun top none => last ⟨top,none⟩
    exact ⟨true,t',run,.inl ⟨r',again⟩⟩

omit [DecidableEq κ] in
theorem Spent.scan (spent : Spent t) (count : Nat) : IxIndexHandle.scanAll IndexFile.store count t = (.ok [],t) := by
  obtain ⟨node,there,none⟩ := spent.leaf
  have finish : leafEnd IndexFile.store t = (.ok ⟨t.hdr.lastLeaf,0⟩,t) := by
    rw [leafEnd,bind_ok hdr_run,bind_ok (fetch_run there),bind_ok (read_run there),IxNode.size,none]
    rfl
  have start : leafBegin IndexFile.store t = (.ok ⟨t.hdr.lastLeaf,0⟩,t) := by
    rw [← spent.ends]
    rfl
  rw [scanAll,bind_ok start,bind_ok finish]
  cases count with
  | zero => rfl
  | succ count =>
    rw [scanRids,if_pos rfl]
    rfl

/-- A call returns and leaves such a file, or it looks for a root that is not there. -/
theorem Steady.call (three : 3 ≤ order) (steady : Steady order t) (call : IxCall κ)
    (fed : ∀ key, call = .deleteEntry key → starves cmp key t = false) :
    (∃ a t', call.run IndexFile.store cmp t = (.ok a,t') ∧ Steady order t') ∨
      t.hdr.rootPage = invalidPageId ∧ ∀ rounds, call ≠ .scan rounds := by
  rcases steady with ⟨r,shaped⟩ | spent
  · left
    cases call with
    | insertEntry key value =>
      obtain ⟨a,t',r',run,again,_⟩ : ∃ a t' r', IxIndexHandle.insertEntry IndexFile.store cmp key value t = (.ok a,t') ∧
        Shaped (fun _ => True) order t' r' ∧ r'.entries ≠ [] := shaped.insert_any three trivial value
      exact ⟨_,t',bind_ok run,.inl ⟨r',again⟩⟩
    | deleteEntry key =>
      obtain ⟨a,t',run,again⟩ := delete_steady three shaped (fed key rfl)
      exact ⟨_,t',bind_ok run,again⟩
    | getValue key =>
      obtain ⟨path,leaf,found,rfl⟩ := shaped.search cmp key three
      obtain ⟨node,there,_⟩ := shaped.toHoused.node_found
      have run : IxIndexHandle.getValue IndexFile.store cmp key t = (.ok (node.leafLookup cmp key),t) := by
        rw [IxIndexHandle.getValue,bind_ok found,bind_ok (IndexFile.read_run there)]
        rfl
      exact ⟨_,t,bind_ok run,.inl ⟨_,shaped⟩⟩
    | scan rounds => exact ⟨_,t,bind_ok (scanAll_run (by omega) shaped rounds),.inl ⟨r,shaped⟩⟩
  · cases call with
    | scan rounds => exact .inl ⟨_,t,bind_ok (spent.scan rounds),.inr spent⟩
    | _ => exact .inr ⟨spent.root,by simp⟩

variable (cmp) in
omit [DecidableEq κ] in
theorem search_rootless {s : IndexVisits κ} (apart : Apart s t) (rootless : t.hdr.rootPage = invalidPageId) (key : κ) :
    findLeafPage store cmp key s =
      (.error (.internal "DiskManager::read_page Error"),{ s with seen := invalidPageId :: s.seen }) := by
  have root : s.file.hdr.rootPage = invalidPageId := by rw [apart.near.hdr,rootless]
  have missing : s.file.pages invalidPageId = none :=
    (apart.near.pages _ (by decide)).trans (apart.near.low _ (by decide))
  have hdr : store.hdr s = (.ok s.file.hdr,s) := rfl
  have count : store.pageCount s = (.ok s.file.nextPage,s) := rfl
  have fetch : store.fetch invalidPageId s =
      (.error (.internal "DiskManager::read_page Error"),{ s with seen := invalidPageId :: s.seen }) := by
    simp [store,visit,onFile,IndexFile.store,bind_run,after,check,missing]
  rw [findLeafPage,bind_ok hdr,bind_ok count,root,bind_error fetch]

/-- Some file without a page 0 stands behind the index, and holds a tree. -/
def Shielded (order : Nat) (s : IndexVisits κ) : Prop := ∃ t, Apart s t ∧ Steady order t

theorem Shielded.step (three : 3 ≤ order) {s : IndexVisits κ} (shielded : Shielded order s) (call : IxCall κ)
    (fed : Fed cmp s call) : Shielded order (step cmp s call) := by
  obtain ⟨t,apart,steady⟩ := shielded
  have spares : ∀ key, call = .deleteEntry key → starves cmp key t = false := by
    rintro key rfl
    exact apart.near.fed fed
  rcases steady.call three call spares with ⟨a,t',run,again⟩ | ⟨rootless,search⟩
  · obtain ⟨s',ran,apart'⟩ := (alike_call cmp apart_alike call).back apart run
    refine ⟨t',?_,again⟩
    rwa [IndexVisits.step,after,ran]
  · refine ⟨t,?_,steady⟩
    have visited : Apart { s with seen := invalidPageId :: s.seen } t := apart.visit (.inr rfl)
    have stop := search_rootless cmp apart rootless
    have after : IndexVisits.step cmp s call = { s with seen := invalidPageId :: s.seen } := by
      cases call with
      | insertEntry key value =>
        rw [IndexVisits.step,after,IxCall.run,bind_error]
        exact bind_error (stop key)
      | deleteEntry key =>
        rw [IndexVisits.step,after,IxCall.run,bind_error]
        exact bind_error (stop key)
      | getValue key =>
        rw [IndexVisits.step,after,IxCall.run,bind_error]
        exact bind_error (stop key)
      | scan rounds => exact absurd rfl (search rounds)
    rwa [after]

end Runs

end IndexVisits

end Rucbase
