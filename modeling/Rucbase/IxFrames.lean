import Rucbase.IndexFile
import Rucbase.IxTracks

/-! A relation of states that the calls of two page stores keep is kept by the operations of the
index. -/
namespace Rucbase.IxIndexHandle

open Lib Lib.Prog
open Simulates (ret given of_within)

/-- The change leaves all of the header but the number of pages, the root and the last leaf. -/
def Repoints (change : IxFileHdr → IxFileHdr) : Prop :=
  ∀ hdr, ∃ numPages rootPage lastLeaf,
    change hdr = { hdr with numPages := numPages, rootPage := rootPage, lastLeaf := lastLeaf }

/-- The calls of two stores keep `Rel`; a page is written when it was just read. -/
structure Alike {σ τ κ : Type} (st : PageStore σ κ) (ref : PageStore τ κ) (Rel : σ → τ → Prop)
    (Lost : Option (σ → τ → Prop)) : Prop where
  lost : ∀ {s t}, Rel s t → ∀ lost ∈ Lost, lost s t
  fetch : ∀ p, Simulates Rel (st.fetch p) (ref.fetch p) (fun _ => Rel) Lost
  newPage : Simulates Rel st.newPage ref.newPage (fun _ => Rel) Lost
  unpin : ∀ p dirty, Simulates Rel (st.unpin p dirty) (ref.unpin p dirty) (fun _ => Rel) Lost
  read : ∀ p, Simulates Rel (st.read p) (ref.read p) (fun _ => Rel) Lost
  rewrite : ∀ p passes f, Simulates Rel (rewrite st p passes f) (rewrite ref p passes f) (fun _ => Rel) Lost
  hdr : Simulates Rel st.hdr ref.hdr (fun _ => Rel) Lost
  setHdr : ∀ change, Repoints change → Simulates Rel (st.setHdr change) (ref.setHdr change) (fun _ => Rel) Lost
  pageCount : Simulates Rel st.pageCount ref.pageCount (fun _ => Rel) Lost

namespace Alike

theorem here (p : Int) : p ∈ ([] : List Int) ∨ True := .inr trivial

variable {σ τ κ : Type} {st : PageStore σ κ} {ref : PageStore τ κ} {Rel : σ → τ → Prop} {Lost : Option (σ → τ → Prop)}
  (alike : Alike st ref Rel Lost)

include alike

/-- Pins do not matter here. -/
theorem tracks : Tracks st ref (fun _ => Rel) (fun _ => True) (fun _ => True) Lost where
  perm _ rel := rel
  lost := alike.lost
  read _ := alike.read
  fetch _ := alike.fetch
  newPage _ := alike.newPage.mono (fun _ _ rel => rel) fun _ _ _ rel => ⟨trivial,rel⟩
  rewrite _ p passes f _ := alike.rewrite p passes f
  unpin _ p := alike.unpin p true
  hdr _ := alike.hdr
  setHdr _ change leaves := alike.setHdr change fun hdr => (leaves hdr).elim fun _ ⟨_,same⟩ => ⟨_,_,_,same⟩
  pageCount _ := alike.pageCount

theorem browses : Browses st ref (fun _ => Rel) Lost where
  perm _ rel := rel
  lost := alike.lost
  read _ := alike.read
  fetch _ := alike.fetch
  unpin _ p := alike.unpin p false
  hdr _ := alike.hdr
  pageCount _ := alike.pageCount

theorem setRoot (root : Int) : Simulates Rel (st.setHdr fun hdr => { hdr with rootPage := root })
    (ref.setHdr fun hdr => { hdr with rootPage := root }) (fun _ => Rel) Lost :=
  alike.setHdr _ fun _ => ⟨_,_,_,rfl⟩

theorem insertEntry (cmp : κ → κ → Int) (key : κ) (value : Rid) :
    Simulates Rel (insertEntry st cmp key value) (insertEntry ref cmp key value) (fun _ => Rel) Lost := by
  have along := alike.tracks
  refine (alike.browses.findLeafPage [] cmp key).bind fun leaf => (alike.read leaf).bind fun node => ?_
  refine (along.insert cmp key value (here leaf)).bind fun size => ?_
  have last (answer : Bool) := (alike.unpin leaf false).bind fun _ => ret answer
  split
  · exact last false
  · refine alike.hdr.bind fun hdr => ?_
    split
    · refine (along.splitLeaf along (fun _ root _ => alike.setRoot root) (here leaf)).bind fun _ => ?_
      exact (last true).mono (fun _ _ rel => rel.elim id fun ⟨_,rel⟩ => rel) fun _ _ _ rel => rel
    · exact last true

variable [DecidableEq κ]

theorem coalesceOrRedistribute (rounds : Nat) (p : Int) :
    Simulates Rel (coalesceOrRedistribute st rounds p) (coalesceOrRedistribute ref rounds p) (fun _ => Rel) Lost := by
  induction rounds generalizing p with
  | zero => exact Simulates.raise fun _ _ => alike.lost
  | succ rounds ih =>
    rw [coalesce_climb,coalesce_climb,climb_at,climb_at,bind_assoc,bind_assoc]
    refine (alike.read p).bind fun node => ?_
    refine (alike.tracks.climbAt (fun _ => alike.setRoot) node (here p)).bind fun result => ?_
    match result with
    | .inl answer => exact ret answer
    | .inr (parent,left) =>
      refine Simulates.some fun pos => given fun _ => given fun _ => (ih parent).bind fun _ => ?_
      exact (alike.unpin _ _).bind fun _ => (alike.unpin _ _).bind fun _ => ret true

theorem deleteEntry (cmp : κ → κ → Int) (key : κ) :
    Simulates Rel (deleteEntry st cmp key) (deleteEntry ref cmp key) (fun _ => Rel) Lost := by
  refine (alike.browses.findLeafPage [] cmp key).bind fun leaf => (alike.read leaf).bind fun node => ?_
  refine (alike.tracks.remove cmp key (here leaf)).bind fun size => ?_
  split
  · exact (alike.unpin _ _).bind fun _ => ret false
  · refine alike.pageCount.bind fun rounds => (alike.coalesceOrRedistribute rounds leaf).bind fun _ => ?_
    exact (alike.unpin _ _).bind fun _ => ret true

end Alike

/-- Every call of the store keeps the relation, `write` on a page that was just read. -/
structure Keeps {σ κ : Type} (st : PageStore σ κ) (R : σ → σ → Prop) : Prop where
  frame : Frame R
  fetch : ∀ p, Within R (st.fetch p)
  newPage : Within R st.newPage
  unpin : ∀ p dirty, Within R (st.unpin p dirty)
  read : ∀ p, Within R (st.read p)
  write : ∀ p old s next, st.read p s = (.ok old,next) → ∀ node, R next ((st.write p node).after next)
  hdr : Within R st.hdr
  setHdr : ∀ change, Repoints change → Within R (st.setHdr change)
  pageCount : Within R st.pageCount

namespace Keeps

variable {σ κ : Type} {st : PageStore σ κ} {R : σ → σ → Prop} (kept : Keeps st R)

include kept

theorem rewrite (p : Int) (holds : IxNode κ → Bool) (f : IxNode κ → IxNode κ) : Within R (rewrite st p holds f) := by
  refine (kept.read p).seq_call fun s node next run => ?_
  have start := (kept.read p).ran run
  by_cases fine : holds node = true
  · have go := Prog.bind_ok (f := fun _ => st.write p (f node)) (Prog.check_run fine RMDBError.assertion next)
    rw [after,go]
    exact kept.frame.trans _ _ _ start (kept.write p node s next run _)
  · have stop : (Prog.check (holds node) RMDBError.assertion : Prog σ RMDBError Unit) next = (.error .assertion,next) := by
      rw [Prog.check,if_neg fine]
      rfl
    rw [after,Prog.bind_error stop]
    exact start

theorem alike (start : σ) : Alike st st (fun s t => s = t ∧ R start s) (some fun s _ => R start s) where
  lost := by
    rintro s _ ⟨rfl,since⟩ lost isLost
    obtain rfl := Option.some.inj isLost
    exact since
  fetch p := of_within kept.frame start (kept.fetch p)
  newPage := of_within kept.frame start kept.newPage
  unpin p dirty := of_within kept.frame start (kept.unpin p dirty)
  read p := of_within kept.frame start (kept.read p)
  rewrite p passes f := of_within kept.frame start (kept.rewrite p passes f)
  hdr := of_within kept.frame start kept.hdr
  setHdr change repoints := of_within kept.frame start (kept.setHdr change repoints)
  pageCount := of_within kept.frame start kept.pageCount

theorem insertEntry (cmp : κ → κ → Int) (key : κ) (value : Rid) : Within R (insertEntry st cmp key value) :=
  fun s => ((kept.alike s).insertEntry cmp key value).within (kept.frame.refl s)

theorem deleteEntry [DecidableEq κ] (cmp : κ → κ → Int) (key : κ) : Within R (deleteEntry st cmp key) :=
  fun s => ((kept.alike s).deleteEntry cmp key).within (kept.frame.refl s)

end Keeps

/-- The transparent store changes its state in three calls only. -/
theorem store_keeps {κ : Type} {R : IndexFile κ → IndexFile κ → Prop} (frame : Frame R)
    (grows : ∀ s, R s { s.put s.nextPage .zero with nextPage := s.nextPage + 1 })
    (put : ∀ s p old node, s.pages p = some old → R s (s.put p node))
    (setHdr : ∀ s change, Repoints change → R s { s with hdr := change s.hdr }) : Keeps IndexFile.store R where
  frame := frame
  fetch p := frame.bind frame.state fun s => frame.check _ _
  newPage := fun s => grows s
  unpin _ _ := frame.pure _
  read p := by
    refine frame.bind frame.state fun s => ?_
    split
    · exact frame.pure _
    · exact frame.raise _
  write p old s next run node := by
    obtain ⟨found,rfl⟩ := IndexFile.read_found run
    exact put _ p old node found
  hdr := frame.bind frame.state fun s => frame.pure _
  setHdr change leaves := fun s => setHdr s change leaves
  pageCount := frame.bind frame.state fun s => frame.pure _

end Rucbase.IxIndexHandle
