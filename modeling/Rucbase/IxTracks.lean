import Rucbase.IxIndexHandle
import Rucbase.Lib.Simulate

/-! The operations of the index over two stores that run side by side. The relation of the two
states names the pages the operation holds a pin on: `fetch` and `new_page` add one, `unpin`
drops one, and a page is written only while it is held or pinned by someone else. -/
namespace Rucbase.IxIndexHandle

open Lib Simulates

/-- The change leaves all of the header but the number of pages and the last leaf. -/
def LeavesRoot (change : IxFileHdr → IxFileHdr) : Prop :=
  ∀ hdr, ∃ numPages lastLeaf, change hdr = { hdr with numPages := numPages, lastLeaf := lastLeaf }

theorem leavesRoot_if (holds : IxFileHdr → Prop) [DecidablePred holds] (lastLeaf : Int) :
    LeavesRoot fun hdr => if holds hdr then { hdr with lastLeaf := lastLeaf } else hdr := by
  intro hdr
  dsimp only
  split <;> exact ⟨_,_,rfl⟩

/-- The page is read and, if it passes, written back. -/
abbrev rewrite {σ κ : Type} (st : PageStore σ κ) (p : Int) (passes : IxNode κ → Bool) (f : IxNode κ → IxNode κ) :
    Prog σ RMDBError Unit := do
  let node ← st.read p
  Prog.check (passes node) .assertion
  st.write p (f node)

/-- `Rel held` relates the states of two stores at every call of a disciplined client. A page
number that `new_page` returns is `fresh`, and after a throw `Lost` holds. -/
structure Tracks {σ τ κ : Type} (st : PageStore σ κ) (ref : PageStore τ κ) (Rel : List Int → σ → τ → Prop)
    (pinned fresh : Int → Prop) (Lost : Option (σ → τ → Prop)) : Prop where
  perm : ∀ {held other s t}, held.Perm other → Rel held s t → Rel other s t
  lost : ∀ {held s t}, Rel held s t → ∀ lost ∈ Lost, lost s t
  read : ∀ held p, Simulates (Rel held) (st.read p) (ref.read p) (fun _ => Rel held) Lost
  fetch : ∀ held p, Simulates (Rel held) (st.fetch p) (ref.fetch p) (fun _ => Rel (p :: held)) Lost
  newPage : ∀ held, Simulates (Rel held) st.newPage ref.newPage (fun p s t => fresh p ∧ Rel (p :: held) s t) Lost
  rewrite : ∀ held p passes f, p ∈ held ∨ pinned p →
    Simulates (Rel held) (rewrite st p passes f) (rewrite ref p passes f) (fun _ => Rel held) Lost
  unpin : ∀ held p, Simulates (Rel (p :: held)) (st.unpin p true) (ref.unpin p true) (fun _ => Rel held) Lost
  hdr : ∀ held, Simulates (Rel held) st.hdr ref.hdr (fun _ => Rel held) Lost
  setHdr : ∀ held change, LeavesRoot change →
    Simulates (Rel held) (st.setHdr change) (ref.setHdr change) (fun _ => Rel held) Lost
  pageCount : ∀ held, Simulates (Rel held) st.pageCount ref.pageCount (fun _ => Rel held) Lost

variable {p : Int} {α : Type}

namespace Tracks

variable {σ τ κ : Type} {st : PageStore σ κ} {ref : PageStore τ κ} {Rel : List Int → σ → τ → Prop}
  {pinned fresh : Int → Prop} {Lost : Option (σ → τ → Prop)} (tracks : Tracks st ref Rel pinned fresh Lost) {held : List Int}

include tracks

variable {Q : α → σ → τ → Prop} {q old new : Int}

theorem raise (e : RMDBError) : Simulates (Rel held) (Prog.raise e) (Prog.raise e) Q Lost :=
  Simulates.raise fun _ _ => tracks.lost

theorem check (holds : Bool) (e : RMDBError) :
    Simulates (Rel held) (Prog.check holds e) (Prog.check holds e) (fun _ => Rel held) Lost :=
  Simulates.check fun _ _ => tracks.lost

theorem unpin_last (held : List Int) (p : Int) : Simulates (Rel (p :: held)) (do let _ ← st.unpin p true) (do let _ ← ref.unpin p true)
    (fun _ => Rel held) Lost :=
  (tracks.unpin held p).bind fun _ => ret ()

theorem edit (f : IxNode κ → IxNode κ) (writable : p ∈ held ∨ pinned p) :
    Simulates (Rel held) (edit st p f) (edit ref p f) (fun _ => Rel held) Lost :=
  tracks.rewrite held p (fun _ => true) f writable

theorem insertPairs (pos : Nat) (new : List (κ × Rid)) (writable : p ∈ held ∨ pinned p) :
    Simulates (Rel held) (insertPairs st p pos new) (insertPairs ref p pos new) (fun _ => Rel held) Lost :=
  tracks.rewrite held p (fun node => pos ≤ node.size) (IxNode.insertPairs pos new) writable

theorem erasePair (pos : Nat) (writable : p ∈ held ∨ pinned p) :
    Simulates (Rel held) (erasePair st p pos) (erasePair ref p pos) (fun _ => Rel held) Lost :=
  tracks.rewrite held p (fun node => pos < node.size) (IxNode.erasePair pos) writable

theorem findChild (p child : Int) :
    Simulates (Rel held) (findChild st p child) (findChild ref p child) (fun _ => Rel held) Lost := by
  refine (tracks.read held p).bind fun node => ?_
  split
  · exact ret _
  · exact tracks.raise _

theorem pairAt (p : Int) (i : Nat) :
    Simulates (Rel held) (pairAt st p i) (pairAt ref p i) (fun _ => Rel held) Lost := by
  refine (tracks.read held p).bind fun node => ?_
  split
  · exact ret _
  · exact tracks.raise _

theorem createNode : Simulates (Rel held) (createNode st) (createNode ref)
    (fun p s t => fresh p ∧ Rel (p :: held) s t) Lost :=
  (tracks.setHdr held _ fun _ => ⟨_,_,rfl⟩).bind fun _ => tracks.newPage held

theorem releaseNodeHandle :
    Simulates (Rel held) (releaseNodeHandle st) (releaseNodeHandle ref) (fun _ => Rel held) Lost :=
  tracks.setHdr held _ fun _ => ⟨_,_,rfl⟩

theorem touch (p : Int) (f : IxNode κ → IxNode κ) {rest : Prog σ RMDBError α} {restRef : Prog τ RMDBError α}
    (onward : Simulates (Rel held) rest restRef Q Lost) :
    Simulates (Rel held)
      (do st.fetch p
          IxIndexHandle.edit st p f
          let _ ← st.unpin p true
          rest)
      (do ref.fetch p
          IxIndexHandle.edit ref p f
          let _ ← ref.unpin p true
          restRef) Q Lost :=
  (tracks.fetch held p).bind fun _ => (tracks.edit f (.inl (List.mem_cons_self ..))).bind fun _ =>
    (tracks.unpin held p).bind fun _ => onward

theorem maintainChild (p : Int) (i : Nat) :
    Simulates (Rel held) (maintainChild st p i) (maintainChild ref p i) (fun _ => Rel held) Lost := by
  refine (tracks.read held p).bind fun node => ?_
  split
  · exact ret ()
  · exact (tracks.pairAt p i).bind fun pair => tracks.touch _ _ (ret ())

theorem maintainChildren (p : Int) (first count : Nat) :
    Simulates (Rel held) (maintainChildren st p first count) (maintainChildren ref p first count) (fun _ => Rel held) Lost := by
  induction count generalizing first with
  | zero => exact ret ()
  | succ count ih => exact (tracks.maintainChild p first).bind fun _ => ih (first + 1)

theorem linkLeaf (old : p ∈ held ∨ pinned p) (new : q ∈ held ∨ pinned q) :
    Simulates (Rel held) (linkLeaf st p q) (linkLeaf ref p q) (fun _ => Rel held) Lost :=
  (tracks.read held p).bind fun _ => (tracks.edit _ new).bind fun _ => (tracks.edit _ old).bind fun _ =>
    tracks.touch _ _ (ret ())

theorem moveUpper (old : p ∈ held ∨ pinned p) (new : q ∈ held ∨ pinned q) :
    Simulates (Rel held) (moveUpper st p q) (moveUpper ref p q) (fun _ => Rel held) Lost :=
  (tracks.read held p).bind fun _ => (tracks.insertPairs _ _ new).bind fun _ => (tracks.edit _ old).bind fun _ =>
    ret _

theorem split (old : p ∈ held ∨ pinned p) :
    Simulates (Rel held) (split st p) (split ref p) (fun q => Rel (q :: held)) Lost := by
  refine tracks.createNode.bind fun q => given fun _ => ?_
  have both : p ∈ q :: held ∨ pinned p := old.imp_left (List.mem_cons_of_mem q)
  have new : q ∈ q :: held ∨ pinned q := .inl (List.mem_cons_self ..)
  refine (tracks.read _ p).bind fun node => (tracks.edit _ new).bind fun _ => ?_
  have rest : Simulates (Rel (q :: held))
      (do let num ← IxIndexHandle.moveUpper st p q
          IxIndexHandle.maintainChildren st q 0 num
          Pure.pure q)
      (do let num ← IxIndexHandle.moveUpper ref p q
          IxIndexHandle.maintainChildren ref q 0 num
          Pure.pure q) (fun q => Rel (q :: held)) Lost :=
    (tracks.moveUpper both new).bind fun num => (tracks.maintainChildren q 0 num).bind fun _ =>
      pure fun _ _ rel => rel
  split
  · exact (tracks.linkLeaf both new).bind fun _ => rest
  · exact rest

theorem insert (cmp : κ → κ → Int) (key : κ) (value : Rid) (writable : p ∈ held ∨ pinned p) :
    Simulates (Rel held) (insert st cmp p key value) (insert ref cmp p key value) (fun _ => Rel held) Lost := by
  refine (tracks.read held p).bind fun node => ?_
  have rest := (tracks.read held p).bind fun node => ret node.size
  split
  · exact (tracks.insertPairs _ _ writable).bind fun _ => rest
  · exact rest

theorem remove (cmp : κ → κ → Int) (key : κ) (writable : p ∈ held ∨ pinned p) :
    Simulates (Rel held) (remove st cmp p key) (remove ref cmp p key) (fun _ => Rel held) Lost := by
  refine (tracks.read held p).bind fun node => ?_
  have rest := (tracks.read held p).bind fun node => ret node.size
  split
  · exact (tracks.erasePair _ writable).bind fun _ => rest
  · exact rest

section Root

variable {Rel' : List Int → σ → τ → Prop} {fresh' : Int → Prop} (later : Tracks st ref Rel' pinned fresh' Lost)
  (setRoot : ∀ held root, fresh root → Simulates (Rel held) (st.setHdr fun hdr => { hdr with rootPage := root })
    (ref.setHdr fun hdr => { hdr with rootPage := root }) (fun _ => Rel' held) Lost)

include later setRoot

theorem growRoot (key : κ) (left : old ∈ held ∨ pinned old) (right : new ∈ held ∨ pinned new) :
    Simulates (Rel held) (growRoot st old key new) (growRoot ref old key new)
      (fun _ s t => ∃ root, Rel' (root :: held) s t) Lost := by
  refine tracks.createNode.bind fun root => given fun isFresh => ?_
  have here : root ∈ root :: held ∨ pinned root := .inl (List.mem_cons_self ..)
  refine (tracks.edit _ here).bind fun _ => (tracks.pairAt old 0).bind fun first => ?_
  refine (tracks.insertPairs _ _ here).bind fun _ => (tracks.insertPairs _ _ here).bind fun _ => ?_
  refine (setRoot _ root isFresh).bind fun _ => ?_
  refine (later.edit _ (right.imp_left (List.mem_cons_of_mem root))).bind fun _ => ?_
  exact (later.edit _ (left.imp_left (List.mem_cons_of_mem root))).mono (fun _ _ rel => rel) fun _ _ _ rel => ⟨root,rel⟩

theorem insertIntoParent (rounds : Nat) (key : κ) (left : old ∈ held ∨ pinned old) (right : new ∈ held ∨ pinned new) :
    Simulates (Rel held) (insertIntoParent st rounds old key new) (insertIntoParent ref rounds old key new)
      (fun _ s t => Rel held s t ∨ ∃ root, Rel' (root :: held) s t) Lost := by
  induction rounds generalizing old new key held with
  | zero => exact tracks.raise _
  | succ rounds ih =>
    refine (tracks.read held old).bind fun node => ?_
    split
    · exact (tracks.growRoot later setRoot key left right).mono (fun _ _ rel => rel) fun _ _ _ rel => .inr rel
    · have parent : node.parent ∈ node.parent :: held ∨ pinned node.parent := .inl (List.mem_cons_self ..)
      refine (tracks.fetch held _).bind fun _ => (tracks.findChild _ old).bind fun i => ?_
      refine (tracks.insertPairs _ _ parent).bind fun _ => (tracks.read _ _).bind fun above => (tracks.hdr _).bind fun hdr => ?_
      split
      · refine (tracks.split parent).bind fun q => (tracks.pairAt q 0).bind fun first => ?_
        refine (ih first.1 (parent.imp_left (List.mem_cons_of_mem q)) (.inl (List.mem_cons_self ..))).bind fun _ => ?_
        -- the two pins are dropped whether or not the root is new
        refine either ?_ (some fun root => ?_)
        · refine (tracks.unpin _ q).bind fun _ => ?_
          exact (tracks.unpin_last held node.parent).mono (fun _ _ rel => rel) fun _ _ _ rel => .inl rel
        · refine ((later.unpin (root :: node.parent :: held) q).mono (fun _ _ rel => ?_) fun _ _ _ rel => rel).bind fun _ => ?_
          · exact later.perm (List.Perm.swap q root _) rel
          · refine (later.unpin_last (root :: held) node.parent).mono (fun _ _ rel => ?_) fun _ _ _ rel => .inr ⟨root,rel⟩
            exact later.perm (List.Perm.swap node.parent root held) rel
      · exact (tracks.unpin_last held node.parent).mono (fun _ _ rel => rel) fun _ _ _ rel => .inl rel

theorem splitLeaf {leaf : Int} (old : leaf ∈ held ∨ pinned leaf) :
    Simulates (Rel held) (splitLeaf st leaf) (splitLeaf ref leaf)
      (fun _ s t => Rel held s t ∨ ∃ root, Rel' (root :: held) s t) Lost := by
  refine (tracks.split old).bind fun new => ?_
  refine (tracks.setHdr _ _ (leavesRoot_if _ new)).bind fun _ => (tracks.pairAt new 0).bind fun first => ?_
  refine (tracks.pageCount _).bind fun rounds => ?_
  refine (tracks.insertIntoParent later setRoot rounds first.1 (old.imp_left (List.mem_cons_of_mem new))
    (.inl (List.mem_cons_self ..))).bind fun _ => ?_
  refine either ?_ (some fun root => ?_)
  · exact (tracks.unpin_last held new).mono (fun _ _ rel => rel) fun _ _ _ rel => .inl rel
  · refine (later.unpin_last (root :: held) new).mono (fun _ _ rel => ?_) fun _ _ _ rel => .inr ⟨root,rel⟩
    exact later.perm (List.Perm.swap new root held) rel

end Root

theorem eraseLeaf (leaf : Int) : Simulates (Rel held) (eraseLeaf st leaf) (eraseLeaf ref leaf) (fun _ => Rel held) Lost :=
  (tracks.read held leaf).bind fun _ => (tracks.check _ _).bind fun _ => tracks.touch _ _ <|
    (tracks.read held leaf).bind fun _ => tracks.touch _ _ (ret ())

/-- The two nodes and their parent are held; all three stay so. -/
theorem merge {left right parent : Int} (index : Nat) (target : left ∈ held ∨ pinned left)
    (above : parent ∈ held ∨ pinned parent) :
    Simulates (Rel held) (merge st left right parent index) (merge ref left right parent index) (fun _ => Rel held) Lost := by
  refine (tracks.read held left).bind fun _ => (tracks.read held right).bind fun source => ?_
  refine (tracks.insertPairs _ _ target).bind fun _ => (tracks.maintainChildren left _ _).bind fun _ => ?_
  refine (tracks.setHdr _ _ (leavesRoot_if _ left)).bind fun _ => (tracks.eraseLeaf right).bind fun _ => ?_
  exact tracks.releaseNodeHandle.bind fun _ => tracks.erasePair index above

section Keys

variable [DecidableEq κ]

theorem maintainParentFrom (rounds : Nat) (curr : Int) :
    Simulates (Rel held) (maintainParentFrom st rounds curr) (maintainParentFrom ref rounds curr) (fun _ => Rel held) Lost := by
  induction rounds generalizing curr with
  | zero => exact tracks.raise _
  | succ rounds ih =>
    refine (tracks.read held curr).bind fun node => ?_
    split
    · exact ret ()
    · refine (tracks.fetch held _).bind fun _ => (tracks.findChild _ curr).bind fun rank => ?_
      refine (tracks.pairAt _ rank).bind fun parentPair => (tracks.pairAt curr 0).bind fun first => ?_
      split
      · exact (tracks.unpin held _).bind fun _ => tracks.check _ _
      · refine (tracks.edit _ (.inl (List.mem_cons_self ..))).bind fun _ => ?_
        exact (tracks.unpin held _).bind fun _ => (tracks.check _ _).bind fun _ => ih _

theorem maintainParent (p : Int) :
    Simulates (Rel held) (maintainParent st p) (maintainParent ref p) (fun _ => Rel held) Lost :=
  (tracks.pageCount held).bind fun rounds => tracks.maintainParentFrom rounds p

theorem redistribute {neighbor node : Int} (index : Nat) (source : neighbor ∈ held ∨ pinned neighbor)
    (target : node ∈ held ∨ pinned node) :
    Simulates (Rel held) (redistribute st neighbor node index) (redistribute ref neighbor node index) (fun _ => Rel held)
      Lost := by
  refine (tracks.read held neighbor).bind fun sibling => ?_
  split
  · refine (tracks.pairAt neighbor _).bind fun pair => (tracks.insertPairs _ _ target).bind fun _ => ?_
    refine (tracks.erasePair _ source).bind fun _ => (tracks.maintainChild node 0).bind fun _ => ?_
    exact tracks.maintainParent node
  · refine (tracks.pairAt neighbor 0).bind fun pair => (tracks.read held node).bind fun _ => ?_
    refine (tracks.insertPairs _ _ target).bind fun _ => (tracks.erasePair _ source).bind fun _ => ?_
    exact (tracks.read held node).bind fun _ => (tracks.maintainChild node _).bind fun _ => tracks.maintainParent neighbor

end Keys

end Tracks

/-- `climb` once its node is read. -/
def climbAt {σ κ : Type} [DecidableEq κ] (st : PageStore σ κ) (p : Int) (node : IxNode κ) :
    Prog σ RMDBError (Bool ⊕ Int × Int) := do
  let hdr ← st.hdr
  if node.parent = invalidPageId then do
    let answer ← adjustRoot st p
    pure (.inl answer)
  else if hdr.minSize ≤ node.size then do
    maintainParent st p
    pure (.inl false)
  else do
    st.fetch node.parent
    let pos ← findChild st node.parent p
    let brother := if pos ≠ 0 then node.prevLeaf else node.nextLeaf
    st.fetch brother
    let sibling ← st.read brother
    if hdr.minSize * 2 ≤ node.size + sibling.size then do
      redistribute st brother p pos
      let _ ← st.unpin node.parent true
      let _ ← st.unpin brother true
      pure (.inl false)
    else do
      let left := if pos = 0 then p else brother
      let right := if pos = 0 then brother else p
      merge st left right node.parent (if pos = 0 then 1 else pos)
      pure (.inr (node.parent,left))

theorem climb_at {σ κ : Type} [DecidableEq κ] (st : PageStore σ κ) (p : Int) : climb st p = st.read p >>= climbAt st p := rfl

namespace Tracks

variable {σ τ κ : Type} {st : PageStore σ κ} {ref : PageStore τ κ} {Rel : List Int → σ → τ → Prop}
  {pinned fresh : Int → Prop} {Lost : Option (σ → τ → Prop)} (tracks : Tracks st ref Rel pinned fresh Lost) {held : List Int}
  (setRoot : ∀ held root, Simulates (Rel held) (st.setHdr fun hdr => { hdr with rootPage := root })
    (ref.setHdr fun hdr => { hdr with rootPage := root }) (fun _ => Rel held) Lost)

include tracks setRoot

theorem adjustRoot (old : Int) :
    Simulates (Rel held) (adjustRoot st old) (adjustRoot ref old) (fun _ => Rel held) Lost := by
  refine (tracks.read held old).bind fun node => ?_
  split
  · refine (tracks.pairAt old 0).bind fun pair => (tracks.fetch held _).bind fun _ => ?_
    refine (tracks.edit _ (.inl (List.mem_cons_self ..))).bind fun _ => (setRoot _ _).bind fun _ => ?_
    exact tracks.releaseNodeHandle.bind fun _ => (tracks.unpin held _).bind fun _ => ret true
  · split
    · exact tracks.releaseNodeHandle.bind fun _ => (setRoot _ _).bind fun _ => ret true
    · exact ret false

theorem climbAt [DecidableEq κ] (node : IxNode κ) (here : p ∈ held ∨ pinned p) :
    Simulates (Rel held) (climbAt st p node) (climbAt ref p node) (fun result s t => match result with
      | .inl _ => Rel held s t
      | .inr (parent,left) => ∃ pos : Nat, parent = node.parent ∧ left = (if pos = 0 then p else node.prevLeaf) ∧
        Rel ((if pos ≠ 0 then node.prevLeaf else node.nextLeaf) :: node.parent :: held) s t) Lost := by
  refine (tracks.hdr held).bind fun hdr => ?_
  split
  · exact (tracks.adjustRoot setRoot p).bind fun _ => pure fun _ _ rel => rel
  · split
    · exact (tracks.maintainParent p).bind fun _ => pure fun _ _ rel => rel
    · refine (tracks.fetch held _).bind fun _ => (tracks.findChild _ p).bind fun pos => ?_
      dsimp only
      generalize brotherIs : (if pos ≠ 0 then node.prevLeaf else node.nextLeaf) = brother
      refine (tracks.fetch _ brother).bind fun _ => (tracks.read _ brother).bind fun sibling => ?_
      have beside : brother ∈ brother :: node.parent :: held ∨ pinned brother := .inl (by simp)
      have above : node.parent ∈ brother :: node.parent :: held ∨ pinned node.parent := .inl (by simp)
      have own : p ∈ brother :: node.parent :: held ∨ pinned p := here.imp_left fun member => by simp [member]
      split
      · refine (tracks.redistribute pos beside own).bind fun _ => ?_
        refine ((tracks.unpin (brother :: held) node.parent).mono (fun _ _ rel => ?_) fun _ _ _ rel => rel).bind fun _ => ?_
        · exact tracks.perm (List.Perm.swap node.parent brother held) rel
        · exact (tracks.unpin held brother).bind fun _ => pure fun _ _ rel => rel
      · have target : (if pos = 0 then p else brother) ∈ brother :: node.parent :: held ∨
            pinned (if pos = 0 then p else brother) := by
          split
          · exact own
          · exact beside
        refine (tracks.merge _ target above).bind fun _ => pure fun _ _ rel => ⟨pos,rfl,?_,?_⟩
        · split
          · rfl
          · rename_i inner
            rw [← brotherIs,if_pos inner]
        · rw [brotherIs]
          exact rel

end Tracks

/-- `Rel held` relates the states of two stores while a client only reads, and releases its pages
unmarked. -/
structure Browses {σ τ κ : Type} (st : PageStore σ κ) (ref : PageStore τ κ) (Rel : List Int → σ → τ → Prop)
    (Lost : Option (σ → τ → Prop)) : Prop where
  perm : ∀ {held other s t}, held.Perm other → Rel held s t → Rel other s t
  lost : ∀ {held s t}, Rel held s t → ∀ lost ∈ Lost, lost s t
  read : ∀ held p, Simulates (Rel held) (st.read p) (ref.read p) (fun _ => Rel held) Lost
  fetch : ∀ held p, Simulates (Rel held) (st.fetch p) (ref.fetch p) (fun _ => Rel (p :: held)) Lost
  unpin : ∀ held p, Simulates (Rel (p :: held)) (st.unpin p false) (ref.unpin p false) (fun _ => Rel held) Lost
  hdr : ∀ held, Simulates (Rel held) st.hdr ref.hdr (fun _ => Rel held) Lost
  pageCount : ∀ held, Simulates (Rel held) st.pageCount ref.pageCount (fun _ => Rel held) Lost

namespace Browses

variable {σ τ κ : Type} {st : PageStore σ κ} {ref : PageStore τ κ} {Rel : List Int → σ → τ → Prop}
  {Lost : Option (σ → τ → Prop)} (browses : Browses st ref Rel Lost) {held : List Int}

include browses

theorem raise (e : RMDBError) : Simulates (Rel held) (Prog.raise e) (Prog.raise e) Q Lost :=
  Simulates.raise fun _ _ => browses.lost

section Search

variable (held : List Int) (cmp : κ → κ → Int) (key : κ)

theorem findLeafFrom (rounds : Nat) (p : Int) :
    Simulates (Rel (p :: held)) (findLeafFrom st cmp key rounds p) (findLeafFrom ref cmp key rounds p)
      (fun leaf => Rel (leaf :: held)) Lost := by
  induction rounds generalizing p with
  | zero => exact browses.raise _
  | succ rounds ih =>
    refine (browses.read _ p).bind fun node => ?_
    split
    · exact pure fun _ _ rel => rel
    · split
      · exact browses.raise _
      · rename_i child _
        refine (browses.fetch _ child).bind fun _ => ?_
        refine ((browses.unpin (child :: held) p).mono (fun _ _ rel => ?_) fun _ _ _ rel => rel).bind fun _ => ih child
        exact browses.perm (List.Perm.swap p child held) rel

theorem findLeafPage : Simulates (Rel held) (findLeafPage st cmp key) (findLeafPage ref cmp key)
    (fun leaf => Rel (leaf :: held)) Lost :=
  (browses.hdr held).bind fun _ => (browses.pageCount held).bind fun rounds => (browses.fetch held _).bind fun _ =>
    browses.findLeafFrom held cmp key rounds _

theorem getValue : Simulates (Rel held) (getValue st cmp key) (getValue ref cmp key) (fun _ => Rel held) Lost :=
  (browses.findLeafPage held cmp key).bind fun leaf => (browses.read _ leaf).bind fun _ => (browses.unpin held leaf).bind fun _ =>
    ret _

end Search

theorem leafEnd : Simulates (Rel held) (leafEnd st) (leafEnd ref) (fun _ => Rel held) Lost :=
  (browses.hdr held).bind fun _ => (browses.fetch held _).bind fun _ => (browses.read _ _).bind fun _ =>
    (browses.unpin held _).bind fun _ => ret _

theorem leafBegin : Simulates (Rel held) (leafBegin st) (leafBegin ref) (fun _ => Rel held) Lost :=
  (browses.hdr held).bind fun _ => ret _

theorem getRid (iid : Iid) : Simulates (Rel held) (getRid st iid) (getRid ref iid) (fun _ => Rel held) Lost := by
  refine (browses.fetch held _).bind fun _ => (browses.read _ _).bind fun node => ?_
  split
  · exact browses.raise _
  · exact (browses.unpin held _).bind fun _ => ret _

theorem scanNext (iid upper : Iid) : Simulates (Rel held) (scanNext st iid upper) (scanNext ref iid upper)
    (fun _ => Rel (iid.pageNo :: held)) Lost := by
  have checked (held : List Int) (holds : Bool) : Simulates (Rel held) (Prog.check holds RMDBError.assertion)
      (Prog.check holds .assertion) (fun _ => Rel held) Lost := check fun _ _ => browses.lost
  refine (checked held _).bind fun _ => (browses.fetch held _).bind fun _ => (browses.read _ _).bind fun node => ?_
  refine (checked _ _).bind fun _ => (checked _ _).bind fun _ => (browses.hdr _).bind fun hdr => ?_
  split <;> exact ret _

theorem scanRids (upper : Iid) (rounds : Nat) (iid : Iid) :
    Simulates (Rel held) (scanRids st upper rounds iid) (scanRids ref upper rounds iid)
      (fun _ s t => ∃ held, Rel held s t) Lost := by
  induction rounds generalizing iid held with
  | zero => exact pure fun _ _ rel => ⟨held,rel⟩
  | succ rounds ih =>
    unfold IxIndexHandle.scanRids
    split
    · exact pure fun _ _ rel => ⟨held,rel⟩
    · exact (browses.getRid iid).bind fun _ => (browses.scanNext iid upper).bind fun next => (ih next).bind fun _ =>
        ret _

theorem scanAll (held : List Int) (rounds : Nat) :
    Simulates (Rel held) (scanAll st rounds) (scanAll ref rounds) (fun _ s t => ∃ held, Rel held s t) Lost :=
  browses.leafBegin.bind fun lower => browses.leafEnd.bind fun upper => browses.scanRids upper rounds lower

end Browses

end Rucbase.IxIndexHandle
