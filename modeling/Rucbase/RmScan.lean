import Rucbase.RecordFile

/-! The scan over a table file. `RmScan` looks at the bitmaps only, page by page; it delivers
the live rows of the file in the order of their positions. -/
namespace Rucbase

open Bitmap
namespace RmFile

/-- The loop of `RmScan::next`, with `rounds` pages from `pageNo` on. -/
def nextRecord (f : RmFile) : Nat → Int → Int → Except RMDBError Rid
  | 0, _, slotNo => .ok ⟨rmNoPage,slotNo⟩
  | rounds + 1, pageNo, slotNo => do
    let page ← f.fetchPageHandle pageNo
    let slot := nextBit true page f.fileHdr.numRecordsPerPage slotNo
    if slot < f.fileHdr.numRecordsPerPage then .ok ⟨pageNo,slot⟩
    else nextRecord f rounds (pageNo + 1) (-1)

def scanNext (f : RmFile) (rid : Rid) : Except RMDBError Rid :=
  f.nextRecord (f.fileHdr.numPages - rid.pageNo).toNat rid.pageNo rid.slotNo

/-- The constructor of `RmScan`. -/
def scanBegin (f : RmFile) : Except RMDBError Rid := f.scanNext ⟨1,-1⟩

/-- A scan that is at `rid` delivers the positions of the list and ends. -/
def Scans (f : RmFile) : Rid → List Rid → Prop
  | rid, [] => rid.pageNo = rmNoPage
  | rid, r :: rest => rid = r ∧ rid.pageNo ≠ rmNoPage ∧ ∃ next, f.scanNext rid = .ok next ∧ Scans f next rest

/-- The set bits of a page from a slot on. -/
def slotsFrom (page : RmPage) (n slot : Nat) : List Nat := (List.range' slot n).filter (isSet page)

/-- The live positions of `rounds` pages from `pageNo` on, those of the first page from `slot` on. -/
def ridsFrom (f : RmFile) : Nat → Int → Nat → List Rid
  | 0, _, _ => []
  | rounds + 1, pageNo, slot =>
    let here : List Nat := match f.pages pageNo with
      | some page => slotsFrom page (f.fileHdr.numRecordsPerPage - slot) slot
      | none => []
    here.map (fun slot : Nat => (⟨pageNo,slot⟩ : Rid)) ++ ridsFrom f rounds (pageNo + 1) 0

/-- The live rows in the order of their positions. -/
def liveRids (f : RmFile) : List Rid := f.ridsFrom (f.fileHdr.numPages - 1) 1 0

end RmFile

namespace RmFile

variable {f : RmFile}

theorem slotsFrom_search (page : RmPage) (n slot : Nat) :
    slotsFrom page n slot =
      if search true page n slot < slot + n then
        search true page n slot ::
          slotsFrom page (slot + n - (search true page n slot + 1)) (search true page n slot + 1)
      else [] := by
  induction n generalizing slot with
  | zero => simp [slotsFrom,search]
  | succ n ih =>
    by_cases here : isSet page slot = true
    · have found : search true page (n + 1) slot = slot := by simp [search,here]
      have size : slot + (n + 1) - (slot + 1) = n := by omega
      rw [found,if_pos (by omega),size]
      simp [slotsFrom,List.range'_succ,here]
    · have missed : search true page (n + 1) slot = search true page n (slot + 1) := by
        simp [search,here]
      have size : slot + (n + 1) = slot + 1 + n := by omega
      rw [missed,size,← ih (slot + 1)]
      simp [slotsFrom,List.range'_succ,here]

theorem slotsFrom_nextBit (page : RmPage) {maxN slot : Nat} (bound : slot ≤ maxN) :
    slotsFrom page (maxN - slot) slot =
      if nextBit true page maxN ((slot : Int) - 1) < maxN then
        nextBit true page maxN ((slot : Int) - 1) ::
          slotsFrom page (maxN - (nextBit true page maxN ((slot : Int) - 1) + 1))
            (nextBit true page maxN ((slot : Int) - 1) + 1)
      else [] := by
  have start : ((slot : Int) - 1 + 1).toNat = slot := by omega
  have size : slot + (maxN - slot) = maxN := by omega
  have found : nextBit true page maxN ((slot : Int) - 1) = search true page (maxN - slot) slot := by
    simp only [nextBit,start,if_pos bound]
  rw [found]
  simpa only [size] using slotsFrom_search page (maxN - slot) slot

theorem nextRecord_run {rounds slot : Nat} {pageNo : Int} (positive : 1 ≤ pageNo)
    (bound : slot ≤ f.fileHdr.numRecordsPerPage)
    (present : ∀ p, pageNo ≤ p → p < pageNo + rounds → (f.pages p).isSome) :
    ∃ rid, f.nextRecord rounds pageNo ((slot : Int) - 1) = .ok rid ∧
      ((rid.pageNo = rmNoPage ∧ f.ridsFrom rounds pageNo slot = []) ∨
        ∃ k slot' : Nat, k < rounds ∧ rid = ⟨pageNo + k,slot'⟩ ∧ slot' < f.fileHdr.numRecordsPerPage ∧
          f.ridsFrom rounds pageNo slot = rid :: f.ridsFrom (rounds - k) (pageNo + k) (slot' + 1)) := by
  induction rounds generalizing pageNo slot with
  | zero => exact ⟨_,rfl,.inl ⟨rfl,rfl⟩⟩
  | succ rounds ih =>
    obtain ⟨page,here⟩ := Option.isSome_iff_exists.mp (present pageNo (by omega) (by omega))
    have fetched : f.fetchPageHandle pageNo = .ok page := by
      have valid : pageNo ≠ invalidPageId := by unfold invalidPageId; omega
      simp [fetchPageHandle,valid,here]
    have slots := slotsFrom_nextBit page bound
    simp only [nextRecord,fetched,ridsFrom,here]
    by_cases found : nextBit true page f.fileHdr.numRecordsPerPage ((slot : Int) - 1) <
        f.fileHdr.numRecordsPerPage
    · rw [if_pos found] at slots
      refine ⟨_,if_pos found,.inr ⟨0,_,by omega,by simp,found,?_⟩⟩
      simp [slots,ridsFrom,here]
    · rw [if_neg found] at slots
      obtain ⟨rid,run,rest⟩ := @ih 0 (pageNo + 1) (by omega) (Nat.zero_le _) fun p low high =>
        present p (by omega) (by push_cast; omega)
      refine ⟨rid,(if_neg found).trans run,?_⟩
      rw [slots,List.map_nil,List.nil_append]
      rcases rest with isOver | ⟨k,slot',inside,at',less,tail⟩
      · exact .inl isOver
      · refine .inr ⟨k + 1,slot',by omega,?_,less,?_⟩
        · rw [at']
          congr 1
          push_cast
          omega
        · rw [tail,show rounds + 1 - (k + 1) = rounds - k by omega,
            show pageNo + ((k + 1 : Nat) : Int) = pageNo + 1 + k by push_cast; omega]

/-- A scan that looks for its next row behind a position delivers the rows behind it. -/
theorem Ok.scans (ok : f.Ok) {pageNo : Int} {slot : Nat} (positive : 1 ≤ pageNo)
    (bound : slot ≤ f.fileHdr.numRecordsPerPage) {rid : Rid}
    (run : f.nextRecord (f.fileHdr.numPages - pageNo).toNat pageNo ((slot : Int) - 1) = .ok rid) :
    f.Scans rid (f.ridsFrom (f.fileHdr.numPages - pageNo).toNat pageNo slot) := by
  generalize rows : f.ridsFrom (f.fileHdr.numPages - pageNo).toNat pageNo slot = l
  have present (pageNo p : Int) (low : pageNo ≤ p) (positive : 1 ≤ pageNo)
      (high : p < pageNo + (f.fileHdr.numPages - pageNo).toNat) : (f.pages p).isSome :=
    (ok.present p (by omega)).mpr ⟨by omega,by omega⟩
  -- the list gets shorter by the row the scan is at
  induction l generalizing pageNo slot rid with
  | nil =>
    obtain ⟨found,again,isOver | ⟨_,_,_,_,_,more⟩⟩ :=
      nextRecord_run positive bound fun p low high => present pageNo p low positive high
    · obtain rfl := Except.ok.inj (again.symm.trans run)
      exact isOver.1
    · rw [rows] at more
      contradiction
  | cons r rest ih =>
    obtain ⟨found,again,isOver | ⟨k,slot',inside,at',less,more⟩⟩ :=
      nextRecord_run positive bound fun p low high => present pageNo p low positive high
    · rw [rows] at isOver
      exact nomatch isOver.2
    · obtain rfl := Except.ok.inj (again.symm.trans run)
      rw [rows] at more
      obtain ⟨same,tail⟩ := List.cons.inj more
      have size : (f.fileHdr.numPages - pageNo).toNat - k = (f.fileHdr.numPages - (pageNo + k)).toNat := by omega
      have behind : ((slot' + 1 : Nat) : Int) - 1 = slot' := by push_cast; omega
      obtain ⟨next,step,_⟩ := @nextRecord_run f (f.fileHdr.numPages - (pageNo + k)).toNat (slot' + 1) (pageNo + k)
        (by omega) less fun p low high => present _ p low (by omega) high
      refine ⟨same.symm,?_,next,?_,ih (by omega) less step (by rw [tail,size])⟩
      · rw [at']
        simp only [rmNoPage]
        omega
      · rw [behind] at step
        rw [scanNext,at']
        exact step

theorem Ok.scan_live (ok : f.Ok) : ∃ first, f.scanBegin = .ok first ∧ f.Scans first f.liveRids := by
  have positive : (1 : Int) ≤ 1 := Int.le_refl 1
  obtain ⟨first,run,_⟩ := @nextRecord_run f (f.fileHdr.numPages - (1 : Int)).toNat 0 1 positive (Nat.zero_le _)
    fun p low high => (ok.present p (by omega)).mpr ⟨low,by omega⟩
  have size : ((f.fileHdr.numPages : Int) - 1).toNat = f.fileHdr.numPages - 1 := by omega
  refine ⟨first,run,?_⟩
  have scans := ok.scans positive (Nat.zero_le _) run
  rwa [size] at scans

theorem mem_ridsFrom {rounds : Nat} {pageNo : Int} {rid : Rid} :
    rid ∈ f.ridsFrom rounds pageNo 0 ↔
      pageNo ≤ rid.pageNo ∧ rid.pageNo < pageNo + rounds ∧ ∃ page, f.pages rid.pageNo = some page ∧
        0 ≤ rid.slotNo ∧ rid.slotNo < f.fileHdr.numRecordsPerPage ∧ isSet page rid.slotNo.toNat = true := by
  induction rounds generalizing pageNo with
  | zero =>
    simp only [ridsFrom,List.not_mem_nil,false_iff]
    rintro ⟨low,high,_⟩
    omega
  | succ rounds ih =>
    rw [ridsFrom,List.mem_append,ih]
    constructor
    · rintro (here | ⟨low,high,rest⟩)
      · obtain ⟨slot,member,rfl⟩ := List.mem_map.mp here
        cases there : f.pages pageNo with
        | none => simp [there] at member
        | some page =>
          simp only [there,slotsFrom,List.mem_filter,List.mem_range'_1] at member
          exact ⟨Int.le_refl _,by push_cast; omega,page,rfl,by simp,by simp; omega,by simpa using member.2⟩
      · exact ⟨by omega,by push_cast; omega,rest⟩
    · rintro ⟨low,high,page,there,least,bound,set⟩
      by_cases first : rid.pageNo = pageNo
      · refine .inl (List.mem_map.mpr ⟨rid.slotNo.toNat,?_,?_⟩)
        · rw [first] at there
          simp only [there,slotsFrom,List.mem_filter,List.mem_range'_1]
          exact ⟨⟨Nat.zero_le _,by omega⟩,set⟩
        · rw [← first,Int.toNat_of_nonneg least]
      · exact .inr ⟨by omega,by push_cast at high; omega,page,there,least,bound,set⟩

/-- The order of positions: by page, then by slot. -/
def Before (a b : Rid) : Prop := a.pageNo < b.pageNo ∨ a.pageNo = b.pageNo ∧ a.slotNo < b.slotNo

theorem ridsFrom_sorted (rounds : Nat) (pageNo : Int) (slot : Nat) : (f.ridsFrom rounds pageNo slot).Pairwise Before := by
  induction rounds generalizing pageNo slot with
  | zero => exact .nil
  | succ rounds ih =>
    refine List.pairwise_append.mpr ⟨?_,ih _ _,?_⟩
    · rw [List.pairwise_map]
      cases f.pages pageNo with
      | none => exact .nil
      | some page =>
        have ordered : (slotsFrom page (f.fileHdr.numRecordsPerPage - slot) slot).Pairwise (· < ·) :=
          List.Pairwise.filter _ (List.pairwise_lt_range' ..)
        exact ordered.imp fun less => .inr ⟨rfl,Int.ofNat_lt.mpr less⟩
    · rintro a first b later
      obtain ⟨_,_,rfl⟩ := List.mem_map.mp first
      exact .inl (by have := (mem_ridsFrom.mp later).1; dsimp only; omega)

theorem Before.ne {a b : Rid} (before : Before a b) : a ≠ b := by
  rintro rfl
  rcases before with less | ⟨_,less⟩ <;> omega

theorem liveRids_sorted (f : RmFile) : f.liveRids.Pairwise Before := ridsFrom_sorted _ _ _

theorem liveRids_nodup (f : RmFile) : f.liveRids.Nodup := f.liveRids_sorted.imp Before.ne

theorem Ok.mem_liveRids (ok : f.Ok) {rid : Rid} : rid ∈ f.liveRids ↔ (f.contents rid).isSome = true := by
  rw [liveRids,mem_ridsFrom]
  constructor
  · rintro ⟨low,_,page,there,least,bound,set⟩
    have numbered : rid.pageNo ≠ 0 := by omega
    simp [contents,numbered,there,RmPage.row,least,bound,set]
  · intro live
    obtain ⟨data,row⟩ := Option.isSome_iff_exists.mp live
    obtain ⟨page,numbered,there,_,least,bound,set,_⟩ := contents_live ok row
    have inside := ok.numbered_page there numbered
    have header := ok.header
    exact ⟨inside.1,by omega,page,there,least,by omega,set⟩

end RmFile

end Rucbase
