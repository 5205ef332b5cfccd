import Rucbase.RmFileHandle
import Mathlib.Data.List.Nodup

/-! The invariant of a table file and what the record operations do to its contents, the
finite map from row positions to bytes. Liveness is one bit of a page; where the next row
goes is decided by a chain of pages linked through page headers and the file header. -/
namespace Rucbase

open RmPage Bitmap
/-- The row at a slot of a page, if its bit is set. -/
def RmPage.row (hdr : RmFileHdr) (page : RmPage) (slotNo : Int) : Option (List Byte) :=
  if 0 ≤ slotNo ∧ slotNo < hdr.numRecordsPerPage ∧ isSet page slotNo.toNat then
    some (getSlot hdr page slotNo.toNat)
  else none

namespace RmFile

/-- The rows of the file. Page 0 is the header page. -/
def contents (f : RmFile) (rid : Rid) : Option (List Byte) :=
  if rid.pageNo = 0 then none
  else match f.pages rid.pageNo with
    | some page => page.row f.fileHdr rid.slotNo
    | none => none

/-- `l` is the chain of free pages that starts with `first`. -/
def FreeChain (pages : Int → Option RmPage) : Int → List Int → Prop
  | first, [] => first = rmNoPage
  | first, p :: rest => first = p ∧ ∃ page, pages p = some page ∧
      FreeChain pages page.nextFreePageNo rest

/-- A page with a clear bit below `num_records_per_page`. -/
def HasRoom (f : RmFile) (pageNo : Int) : Prop :=
  ∃ page, f.pages pageNo = some page ∧
    count page f.fileHdr.numRecordsPerPage < f.fileHdr.numRecordsPerPage

structure Ok (f : RmFile) : Prop where
  geometry : Geometry f.fileHdr
  numbered : f.fd2pageno = f.fileHdr.numPages
  header : 1 ≤ f.fileHdr.numPages
  present : ∀ p : Int, p ≠ 0 → ((f.pages p).isSome ↔ 1 ≤ p ∧ p < f.fileHdr.numPages)
  counted : ∀ p page, p ≠ 0 → f.pages p = some page →
    page.numRecords = count page f.fileHdr.numRecordsPerPage
  chain : ∃ l, FreeChain f.pages f.fileHdr.firstFreePageNo l ∧ l.Nodup ∧
    ∀ p, p ∈ l ↔ p ≠ 0 ∧ f.HasRoom p

variable {pages : Int → Option RmPage} {l : List Int} {rid : Rid} {data : List Byte} {next : RmFile}

theorem FreeChain.of_outside {first p : Int} (chain : FreeChain pages first l) (outside : p ∉ l)
    (page : Option RmPage) :
    FreeChain (Function.update pages p page) first l := by
  induction l generalizing first with
  | nil => exact chain
  | cons q rest ih =>
    obtain ⟨same,found,here,tail⟩ := chain
    have apart : q ≠ p := fun equal => outside (by simp [equal])
    exact ⟨same,found,by rw [Function.update_of_ne apart]; exact here,
      ih tail (fun member => outside (by simp [member]))⟩

theorem FreeChain.relink {first p : Int} {old page : RmPage} (chain : FreeChain pages first l)
    (here : pages p = some old) (link : page.nextFreePageNo = old.nextFreePageNo) :
    FreeChain (Function.update pages p (some page)) first l := by
  induction l generalizing first with
  | nil => exact chain
  | cons q rest ih =>
    obtain ⟨same,found,there,tail⟩ := chain
    by_cases equal : q = p
    · have found' : found = old := Option.some.inj ((equal ▸ there).symm.trans here)
      exact ⟨same,page,by simp [equal],by rw [link,← found']; exact ih tail⟩
    · exact ⟨same,found,by rw [Function.update_of_ne equal]; exact there,ih tail⟩

section Pages

variable {hdr : RmFileHdr} {page : RmPage} {slot : Nat} {buf : List Byte}

theorem row_zero (hdr : RmFileHdr) (next records slotNo : Int) :
    ({ zero with nextFreePageNo := next, numRecords := records } : RmPage).row hdr slotNo =
      none := by
  simp [row,isSet,byte,zero]

section Rows

variable (geometry : Geometry hdr) (bound : slot < hdr.numRecordsPerPage)

include geometry bound

theorem row_store (size : buf.length = hdr.recordSize) (records slotNo : Int) :
    ({ putSlot hdr (set page slot) slot buf with numRecords := records } : RmPage).row
      hdr slotNo = if slotNo = slot then some buf else page.row hdr slotNo := by
  change (putSlot hdr (set page slot) slot buf).row hdr slotNo = _
  have bucket := bucket_bound geometry bound
  by_cases same : slotNo = slot
  · subst slotNo
    have live : isSet (putSlot hdr (set page slot) slot buf) slot = true := by
      rw [isSet_putSlot _ geometry bound,isSet_set _ _ _ bucket]
      simp
    have bytes := getSlot_putSlot_self (set page slot) geometry bound size
    simp [row,live,bytes,bound]
  · rw [if_neg same]
    unfold row
    by_cases inside : 0 ≤ slotNo ∧ slotNo < hdr.numRecordsPerPage
    · have apart : slot ≠ slotNo.toNat := by omega
      have below : slotNo.toNat < hdr.numRecordsPerPage := by omega
      rw [isSet_putSlot _ geometry below,isSet_set _ _ _ bucket,getSlot_putSlot_other _ apart,
        getSlot_set _ geometry bound]
      simp [Ne.symm apart]
    · rw [if_neg (fun all => inside ⟨all.1,all.2.1⟩),if_neg (fun all => inside ⟨all.1,all.2.1⟩)]

theorem row_erase (records next slotNo : Int) :
    ({ reset page slot with numRecords := records, nextFreePageNo := next } : RmPage).row
      hdr slotNo = if slotNo = slot then none else page.row hdr slotNo := by
  change (reset page slot).row hdr slotNo = _
  have bucket := bucket_bound geometry bound
  unfold row
  rw [isSet_reset _ _ _ bucket,getSlot_reset _ geometry bound]
  by_cases same : slotNo = slot
  · simp [same]
  · by_cases inside : 0 ≤ slotNo
    · have apart : slotNo.toNat ≠ slot := by omega
      simp [same,apart]
    · simp [same,inside]

theorem row_overwrite (size : buf.length = hdr.recordSize) (slotNo : Int) :
    (putSlot hdr page slot buf).row hdr slotNo =
      if slotNo = slot ∧ isSet page slot then some buf else page.row hdr slotNo := by
  unfold row
  by_cases same : slotNo = slot
  · subst slotNo
    have bytes := getSlot_putSlot_self page geometry bound size
    simp only [Int.toNat_natCast,isSet_putSlot _ geometry bound,bytes,true_and]
    cases isSet page slot <;> simp [bound]
  · by_cases inside : 0 ≤ slotNo ∧ slotNo < hdr.numRecordsPerPage
    · have apart : slot ≠ slotNo.toNat := by omega
      have below : slotNo.toNat < hdr.numRecordsPerPage := by omega
      rw [isSet_putSlot _ geometry below,getSlot_putSlot_other _ apart]
      simp [same]
    · simp only [same,false_and,↓reduceIte]
      rw [if_neg (fun all => inside ⟨all.1,all.2.1⟩),if_neg (fun all => inside ⟨all.1,all.2.1⟩)]

end Rows

end Pages

section Files

variable {f : RmFile} {p : Int} {page : RmPage} {slot : Nat} {buf : List Byte}

theorem contents_putPage (f : RmFile) {p : Int} (numbered : p ≠ 0) (page : RmPage) (rid : Rid) :
    (f.putPage p page).contents rid =
      if rid.pageNo = p then page.row f.fileHdr rid.slotNo else f.contents rid := by
  unfold contents putPage
  by_cases same : rid.pageNo = p
  · simp [same,numbered]
  · simp [same]

@[simp] theorem contents_setFirstFree (f : RmFile) (pageNo : Int) (rid : Rid) :
    (f.setFirstFree pageNo).contents rid = f.contents rid := rfl

theorem contents_page (here : f.pages p = some page) (numbered : p ≠ 0) (slotNo : Int) :
    f.contents ⟨p,slotNo⟩ = page.row f.fileHdr slotNo := by
  simp [contents,here,numbered]

theorem contents_change (here : f.pages p = some page) (numbered : p ≠ 0) (next : RmPage) (row : Option (List Byte))
    (rows : ∀ slotNo, next.row f.fileHdr slotNo = if slotNo = slot then row else page.row f.fileHdr slotNo) :
    (f.putPage p next).contents = Function.update f.contents ⟨p,slot⟩ row := by
  funext rid
  rw [contents_putPage f numbered]
  by_cases same : rid = ⟨p,slot⟩
  · subst rid; simp [rows]
  · rw [Function.update_of_ne same]
    by_cases onPage : rid.pageNo = p
    · have apart : rid.slotNo ≠ slot := fun equal => same (by rw [← onPage,← equal])
      rw [if_pos onPage,rows,if_neg apart,← contents_page here numbered,← onPage]
    · rw [if_neg onPage]

/-- A file whose page `p` is replaced keeps everything the invariant says of other pages. -/
theorem ok_putPage (ok : f.Ok) (here : f.pages p = some page) (next : RmPage) (first : Int)
    (count : p ≠ 0 → next.numRecords = count next f.fileHdr.numRecordsPerPage) (l : List Int)
    (chain : FreeChain (Function.update f.pages p (some next)) first l) (distinct : l.Nodup)
    (members : ∀ q, q ∈ l ↔ q ≠ 0 ∧ (f.putPage p next).HasRoom q) :
    ((f.putPage p next).setFirstFree first).Ok := by
  refine ⟨⟨ok.geometry.some,ok.geometry.bits,ok.geometry.fits⟩,ok.numbered,ok.header,?_,?_,l,chain,distinct,members⟩
  · intro q nonzero
    by_cases same : q = p
    · have old := ok.present p (same ▸ nonzero)
      simpa [setFirstFree,putPage,same,here] using old
    · simpa [setFirstFree,putPage,same] using ok.present q nonzero
  · intro q other nonzero found
    by_cases same : q = p
    · obtain rfl : next = other := by simpa [setFirstFree,putPage,same] using found
      exact count (same ▸ nonzero)
    · exact ok.counted q other nonzero (by simpa [setFirstFree,putPage,same] using found)

theorem hasRoom_putPage (f : RmFile) (p q : Int) (next : RmPage) : (f.putPage p next).HasRoom q ↔
    if q = p then count next f.fileHdr.numRecordsPerPage < f.fileHdr.numRecordsPerPage
    else f.HasRoom q := by
  by_cases same : q = p
  · simp [HasRoom,putPage,same]
  · simp [HasRoom,putPage,same]

theorem Ok.numbered_page (ok : f.Ok) (here : f.pages p = some page) (nonzero : p ≠ 0) :
    1 ≤ p ∧ p < f.fileHdr.numPages := (ok.present p nonzero).mp (by simp [here])

theorem Ok.no_room (ok : f.Ok) (none : f.fileHdr.firstFreePageNo = rmNoPage) (q : Int) (nonzero : q ≠ 0) :
    ¬ f.HasRoom q := by
  obtain ⟨l,chain,_,members⟩ := ok.chain
  cases l with
  | nil => exact fun room => by simpa using (members q).mpr ⟨nonzero,room⟩
  | cons head rest =>
    obtain ⟨same,_⟩ := chain
    obtain ⟨apart,page,here,_⟩ := (members head).mp (by simp)
    have := ok.numbered_page here apart
    rw [none] at same
    unfold rmNoPage at same
    omega

theorem contents_live (ok : f.Ok) (live : f.contents rid = some data) :
    ∃ page, rid.pageNo ≠ 0 ∧ f.pages rid.pageNo = some page ∧
      f.fetchPageHandle rid.pageNo = .ok page ∧ 0 ≤ rid.slotNo ∧
      rid.slotNo.toNat < f.fileHdr.numRecordsPerPage ∧ isSet page rid.slotNo.toNat = true ∧
      getSlot f.fileHdr page rid.slotNo.toNat = data := by
  unfold contents at live
  by_cases zero : rid.pageNo = 0
  · simp [zero] at live
  · cases here : f.pages rid.pageNo with
    | none => simp [zero,here] at live
    | some page =>
      simp only [zero,↓reduceIte,here,row] at live
      split at live
      · rename_i inside
        have bounds := ok.numbered_page here zero
        have valid : rid.pageNo ≠ invalidPageId := by unfold invalidPageId; omega
        refine ⟨page,zero,rfl,?_,inside.1,by omega,inside.2.2,Option.some.inj live⟩
        simp [fetchPageHandle,valid,here]
      · simp at live

theorem createNewPageHandle_ok (ok : f.Ok) (none : f.fileHdr.firstFreePageNo = rmNoPage) :
    f.createNewPageHandle.2.2.Ok ∧ f.createNewPageHandle.2.2.contents = f.contents ∧
    count f.createNewPageHandle.2.1 f.fileHdr.numRecordsPerPage = 0 := by
  have fresh : f.pages f.fd2pageno = Option.none := by
    have absent := ok.present f.fd2pageno (by have := ok.numbered; have := ok.header; omega)
    rw [ok.numbered] at absent ⊢
    cases here : f.pages f.fileHdr.numPages with
    | none => rfl
    | some page => simp [here] at absent
  have empty : count f.createNewPageHandle.2.1 f.fileHdr.numRecordsPerPage = 0 :=
    count_zero _
  have nonzero : (f.fd2pageno : Int) ≠ 0 := by have := ok.numbered; have := ok.header; omega
  refine ⟨⟨⟨ok.geometry.some,ok.geometry.bits,ok.geometry.fits⟩,?_,?_,?_,?_,[↑f.fd2pageno],?_,by simp,?_⟩,
    ?_,empty⟩
  · simp [createNewPageHandle,ok.numbered]
  · simp [createNewPageHandle]
  · intro q apart
    have old := ok.present q apart
    by_cases same : q = f.fd2pageno
    · have := ok.numbered
      have := ok.header
      simp [createNewPageHandle,putPage,same]
      omega
    · have := ok.numbered
      simp only [createNewPageHandle,putPage,Function.update_of_ne same,old]
      omega
  · intro q page apart here
    by_cases same : q = f.fd2pageno
    · subst q
      obtain rfl : f.createNewPageHandle.2.1 = page := by
        simpa [createNewPageHandle,putPage] using here
      exact congrArg Int.ofNat empty.symm
    · exact ok.counted q page apart (by simpa [createNewPageHandle,putPage,same] using here)
  · exact ⟨rfl,f.createNewPageHandle.2.1,by simp [createNewPageHandle,putPage],none⟩
  · intro q
    by_cases same : q = f.fd2pageno
    · subst q
      refine ⟨fun _ => ⟨nonzero,f.createNewPageHandle.2.1,?_,?_⟩,fun _ => by simp⟩
      · simp [createNewPageHandle,putPage]
      · exact empty.symm ▸ ok.geometry.some
    · simp only [List.mem_singleton,same,false_iff,not_and]
      rintro apart ⟨page,here,room⟩
      exact ok.no_room none q apart ⟨page,by simpa [createNewPageHandle,putPage,same] using here,room⟩
  · funext rid
    change (f.putPage f.fd2pageno _).contents rid = _
    rw [contents_putPage f nonzero]
    split
    · rename_i same
      rw [row_zero]
      simp [contents,same,fresh]
    · rfl

/-- The page an insertion goes to: it heads the chain and has room. -/
theorem createPageHandle_ok (ok : f.Ok) : ∃ p page next, f.createPageHandle = .ok (p,page,next) ∧
    next.Ok ∧ next.contents = f.contents ∧ next.fileHdr.firstFreePageNo = p ∧ p ≠ 0 ∧
    next.pages p = some page ∧ next.fd = f.fd ∧ next.diskHdr = f.diskHdr ∧
    next.fileHdr.numRecordsPerPage = f.fileHdr.numRecordsPerPage ∧
    next.fileHdr.recordSize = f.fileHdr.recordSize ∧
    count page f.fileHdr.numRecordsPerPage < f.fileHdr.numRecordsPerPage := by
  unfold createPageHandle
  by_cases none : f.fileHdr.firstFreePageNo = rmNoPage
  · obtain ⟨fine,same,empty⟩ := createNewPageHandle_ok ok none
    rw [if_pos none]
    refine ⟨f.createNewPageHandle.1,f.createNewPageHandle.2.1,f.createNewPageHandle.2.2,rfl,fine,same,
      rfl,?_,by simp [createNewPageHandle,putPage],rfl,rfl,rfl,rfl,?_⟩
    · have := ok.numbered
      have := ok.header
      simp only [createNewPageHandle]
      omega
    · rw [empty]
      exact ok.geometry.some
  · rw [if_neg none]
    obtain ⟨l,chain,_,members⟩ := ok.chain
    cases l with
    | nil => exact absurd chain none
    | cons head rest =>
      obtain ⟨same,_⟩ := chain
      obtain ⟨apart,page,here,room⟩ := (members head).mp (by simp)
      have fetched : f.fetchPageHandle f.fileHdr.firstFreePageNo = .ok page := by
        have valid : head ≠ invalidPageId := same ▸ none
        simp [fetchPageHandle,same,valid,here]
      rw [fetched]
      exact ⟨_,_,_,rfl,ok,rfl,rfl,same ▸ apart,same ▸ here,rfl,rfl,rfl,rfl,room⟩

theorem ok_rewrite (ok : f.Ok) (here : f.pages p = some page) (next : RmPage)
    (link : next.nextFreePageNo = page.nextFreePageNo)
    (records : next.numRecords = count next f.fileHdr.numRecordsPerPage)
    (room : count next f.fileHdr.numRecordsPerPage < f.fileHdr.numRecordsPerPage ↔
      count page f.fileHdr.numRecordsPerPage < f.fileHdr.numRecordsPerPage) :
    ((f.putPage p next).setFirstFree f.fileHdr.firstFreePageNo).Ok := by
  obtain ⟨l,chain,distinct,members⟩ := ok.chain
  refine ok_putPage ok here next _ (fun _ => records) l (chain.relink here link) distinct fun q => ?_
  rw [hasRoom_putPage,members q]
  by_cases equal : q = p
  · subst q
    rw [if_pos rfl,room]
    refine and_congr_right fun _ => ⟨?_,fun free => ⟨page,here,free⟩⟩
    rintro ⟨other,there,free⟩
    obtain rfl : other = page := Option.mem_unique there here
    exact free
  · rw [if_neg equal]

theorem storeRecord_ok (ok : f.Ok) (nonzero : p ≠ 0) (here : f.pages p = some page)
    (first : f.fileHdr.firstFreePageNo = p) (bound : slot < f.fileHdr.numRecordsPerPage)
    (free : isSet page slot = false) (size : buf.length = f.fileHdr.recordSize) :
    (f.storeRecord p page slot buf).Ok ∧
    (f.storeRecord p page slot buf).contents = Function.update f.contents ⟨p,slot⟩ (some buf) := by
  obtain ⟨l,chain,distinct,members⟩ := ok.chain
  have bucket := bucket_bound ok.geometry bound
  let next : RmPage := { putSlot f.fileHdr (set page slot) slot buf with
    numRecords := page.numRecords + 1 }
  have count : count next f.fileHdr.numRecordsPerPage =
      count page f.fileHdr.numRecordsPerPage + 1 := by
    rw [← count_set page slot _ bucket bound free]
    exact count_putSlot (set page slot) ok.geometry slot buf
  have old := ok.counted p page nonzero here
  have records : next.numRecords = Bitmap.count next f.fileHdr.numRecordsPerPage := by
    rw [count]
    simp only [next,old]
    omega
  have rows := contents_change here nonzero next (some buf)
    (fun slotNo => row_store ok.geometry bound size _ slotNo)
  by_cases full : next.numRecords = f.fileHdr.numRecordsPerPage
  · -- the page was the head of the chain and leaves it
    have shape : f.storeRecord p page slot buf = (f.putPage p next).setFirstFree page.nextFreePageNo := by
      unfold storeRecord
      exact if_pos full
    rw [shape]
    refine ⟨?_,rows⟩
    cases l with
    | nil =>
      have none : f.fileHdr.firstFreePageNo = rmNoPage := chain
      have := ok.numbered_page here nonzero
      rw [first] at none
      unfold rmNoPage at none
      omega
    | cons head rest =>
      obtain ⟨same,found,there,tail⟩ := chain
      obtain rfl : p = head := first.symm.trans same
      obtain rfl : found = page := Option.mem_unique there here
      obtain ⟨outside,nodup⟩ := List.nodup_cons.mp distinct
      refine ok_putPage ok here next _ (fun _ => records) rest (tail.of_outside outside _) nodup ?_
      intro q
      rw [hasRoom_putPage]
      by_cases equal : q = p
      · subst q
        rw [if_pos rfl]
        constructor
        · exact fun member => absurd member outside
        · rintro ⟨_,room⟩
          omega
      · rw [if_neg equal,← members q]
        simp [equal]
  · have shape : f.storeRecord p page slot buf =
        (f.putPage p next).setFirstFree f.fileHdr.firstFreePageNo := by
      unfold storeRecord
      exact if_neg full
    have upper := count_le next f.fileHdr.numRecordsPerPage
    rw [shape]
    exact ⟨ok_rewrite ok here next rfl records (by omega),rows⟩

theorem eraseRecord_ok (ok : f.Ok) (nonzero : p ≠ 0) (here : f.pages p = some page)
    (bound : slot < f.fileHdr.numRecordsPerPage) (live : isSet page slot = true) :
    (f.eraseRecord p page slot).Ok ∧
    (f.eraseRecord p page slot).contents = Function.update f.contents ⟨p,slot⟩ none := by
  obtain ⟨l,chain,distinct,members⟩ := ok.chain
  have bucket := bucket_bound ok.geometry bound
  have count := count_reset page slot _ bucket bound live
  have old := ok.counted p page nonzero here
  have upper := count_le page f.fileHdr.numRecordsPerPage
  let next (link : Int) : RmPage := { reset page slot with numRecords := page.numRecords - 1, nextFreePageNo := link }
  have same (link : Int) : Bitmap.count (next link) f.fileHdr.numRecordsPerPage =
    Bitmap.count (Bitmap.reset page slot) f.fileHdr.numRecordsPerPage := rfl
  have records (link : Int) : (next link).numRecords = Bitmap.count (next link) f.fileHdr.numRecordsPerPage := by
    rw [same]
    change page.numRecords - 1 = _
    omega
  have rows (link : Int) := contents_change here nonzero (next link) none fun slotNo => row_erase ok.geometry bound _ _ slotNo
  by_cases was : page.numRecords - 1 = (f.fileHdr.numRecordsPerPage : Int) - 1
  · -- the page was full, so it was not in the chain
    have shape : f.eraseRecord p page slot = (f.putPage p (next f.fileHdr.firstFreePageNo)).setFirstFree p := by
      unfold eraseRecord
      exact if_pos was
    have outside : p ∉ l := by
      intro member
      obtain ⟨_,other,there,room⟩ := (members p).mp member
      obtain rfl : other = page := Option.mem_unique there here
      omega
    rw [shape]
    refine ⟨?_,rows _⟩
    refine ok_putPage ok here _ p (fun _ => records _) (p :: l)
      ⟨rfl,next f.fileHdr.firstFreePageNo,by simp,chain.of_outside outside _⟩ (List.nodup_cons.mpr ⟨outside,distinct⟩) ?_
    intro q
    rw [hasRoom_putPage]
    by_cases equal : q = p
    · subst q
      rw [if_pos rfl,same]
      exact ⟨fun _ => ⟨nonzero,by omega⟩,fun _ => by simp⟩
    · rw [if_neg equal,← members q]
      simp [equal]
  · have shape : f.eraseRecord p page slot =
        (f.putPage p (next page.nextFreePageNo)).setFirstFree f.fileHdr.firstFreePageNo := by
      unfold eraseRecord
      exact if_neg was
    rw [shape]
    exact ⟨ok_rewrite ok here _ rfl (records _) (by rw [same]; omega),rows _⟩

theorem storeRecord_layout :
    (f.storeRecord p page slot buf).fileHdr.recordSize = f.fileHdr.recordSize ∧
    (f.storeRecord p page slot buf).fileHdr.numRecordsPerPage = f.fileHdr.numRecordsPerPage ∧
    (f.storeRecord p page slot buf).fd = f.fd := by
  simp only [storeRecord]
  split <;> exact ⟨rfl,rfl,rfl⟩

theorem eraseRecord_layout :
    (f.eraseRecord p page slot).fileHdr.recordSize = f.fileHdr.recordSize ∧
    (f.eraseRecord p page slot).fileHdr.numRecordsPerPage = f.fileHdr.numRecordsPerPage ∧
    (f.eraseRecord p page slot).fd = f.fd := by
  simp only [eraseRecord]
  split <;> exact ⟨rfl,rfl,rfl⟩

theorem createPageHandle_fd (created : f.createPageHandle = .ok (p,page,next)) :
    next.fd = f.fd := by
  unfold createPageHandle at created
  split at created
  · rw [← (Prod.mk.inj (Prod.mk.inj (Except.ok.inj created)).2).2]
    rfl
  · split at created
    · rw [← (Prod.mk.inj (Prod.mk.inj (Except.ok.inj created)).2).2]
    · simp at created

theorem overwriteRecord_ok (ok : f.Ok) (nonzero : p ≠ 0) (here : f.pages p = some page)
    (bound : slot < f.fileHdr.numRecordsPerPage) (size : buf.length = f.fileHdr.recordSize) :
    (f.overwriteRecord p page slot buf).Ok ∧ (f.overwriteRecord p page slot buf).contents =
      Function.update f.contents ⟨p,slot⟩ (if isSet page slot then some buf else none) := by
  have count := count_putSlot page ok.geometry slot buf
  have old := ok.counted p page nonzero here
  have rows : ∀ slotNo : Int, (putSlot f.fileHdr page slot buf).row f.fileHdr slotNo =
      if slotNo = slot then (if isSet page slot then some buf else none)
      else page.row f.fileHdr slotNo := by
    intro slotNo
    rw [row_overwrite ok.geometry bound size]
    by_cases same : slotNo = slot
    · cases live : isSet page slot <;> simp [same,live,row]
    · simp [same]
  refine ⟨?_,contents_change here nonzero _ _ rows⟩
  exact ok_rewrite ok here _ rfl (by rw [count]; exact old) (by rw [count])

theorem reopen_ok (ok : f.Ok) (fd : Int) :
    (f.close.reopen fd).Ok ∧ (f.close.reopen fd).contents = f.contents :=
  ⟨⟨ok.geometry,rfl,ok.header,ok.present,ok.counted,ok.chain⟩,rfl⟩

theorem openNew_ok {hdr : RmFileHdr} (geometry : Geometry hdr) (numPages : hdr.numPages = 1)
    (first : hdr.firstFreePageNo = rmNoPage) (fd : Int) (header : Option RmPage) :
    (openNew hdr fd header).Ok ∧ (openNew hdr fd header).contents = fun _ => none := by
  refine ⟨⟨geometry,rfl,by simp [openNew,numPages],?_,?_,[],first,by simp,?_⟩,?_⟩
  · intro q nonzero
    simp only [openNew,nonzero,↓reduceIte,numPages,Option.isSome_none,Bool.false_eq_true,false_iff]
    omega
  · intro q page nonzero here
    simp [openNew,nonzero] at here
  · intro q
    constructor
    · simp
    · rintro ⟨nonzero,page,here,_⟩
      simp [openNew,nonzero] at here
  · funext rid
    by_cases zero : rid.pageNo = 0
    · simp [contents,zero]
    · simp [contents,openNew,zero]

theorem created_ok {recordSize : Int} {hdr : RmFileHdr} (accepted : createFile recordSize = .ok hdr) (fd : Int)
    (header : Option RmPage) : (openNew hdr fd header).Ok ∧ (openNew hdr fd header).contents = fun _ => none := by
  unfold createFile rmMaxRecordSize at accepted
  split at accepted
  · contradiction
  · obtain rfl := Except.ok.inj accepted
    exact openNew_ok (initialHdr_geometry recordSize.toNat (by omega) (by omega)) rfl rfl fd header

/-- A slot of a data page. -/
def InSlots (f : RmFile) (rid : Rid) : Prop :=
  rid.pageNo ≠ 0 ∧ 0 ≤ rid.slotNo ∧ rid.slotNo < f.fileHdr.numRecordsPerPage

instance (f : RmFile) (rid : Rid) : Decidable (f.InSlots rid) := inferInstanceAs (Decidable (_ ∧ _))

def bytes (f : RmFile) (rid : Rid) : Option (List Byte) :=
  (f.pages rid.pageNo).map fun page => getSlot f.fileHdr page rid.slotNo.toNat

theorem bytes_putPage (f : RmFile) (p : Int) (next : RmPage) (rid : Rid) :
    (f.putPage p next).bytes rid =
      if rid.pageNo = p then some (getSlot f.fileHdr next rid.slotNo.toNat)
      else f.bytes rid := by
  unfold bytes putPage
  by_cases same : rid.pageNo = p
  · simp [same]
  · simp [same]

theorem bytes_same (here : f.pages p = some page) (next : RmPage) (rid : Rid)
    (slots : rid.pageNo = p → getSlot f.fileHdr next rid.slotNo.toNat =
      getSlot f.fileHdr page rid.slotNo.toNat) :
    (f.putPage p next).bytes rid = f.bytes rid := by
  rw [bytes_putPage]
  split
  · rename_i same
    rw [slots same,bytes,same,here]
    rfl
  · rfl

theorem InSlots.apart (inside : f.InSlots rid) (other : rid ≠ ⟨p,slot⟩) (same : rid.pageNo = p) :
    slot ≠ rid.slotNo.toNat := by
  intro equal
  apply other
  have := inside.2.1
  have number : rid.slotNo = slot := by omega
  rw [← same,← number]

theorem storeRecord_bytes (ok : f.Ok) (here : f.pages p = some page) (bound : slot < f.fileHdr.numRecordsPerPage)
    (buf : List Byte) (inside : f.InSlots rid) (other : rid ≠ ⟨p,slot⟩) :
    (f.storeRecord p page slot buf).bytes rid = f.bytes rid := by
  have slots : rid.pageNo = p →
      getSlot f.fileHdr (putSlot f.fileHdr (set page slot) slot buf)
        rid.slotNo.toNat = getSlot f.fileHdr page rid.slotNo.toNat := by
    intro same
    rw [getSlot_putSlot_other _ (inside.apart other same),getSlot_set _ ok.geometry bound]
  simp only [storeRecord]
  split <;> exact bytes_same here _ rid slots

theorem eraseRecord_bytes (ok : f.Ok) (here : f.pages p = some page) (bound : slot < f.fileHdr.numRecordsPerPage)
    (rid : Rid) :
    (f.eraseRecord p page slot).bytes rid = f.bytes rid := by
  have slots : rid.pageNo = p → getSlot f.fileHdr (reset page slot) rid.slotNo.toNat =
      getSlot f.fileHdr page rid.slotNo.toNat :=
    fun _ => getSlot_reset _ ok.geometry bound _
  simp only [eraseRecord]
  split <;> exact bytes_same here _ rid slots

theorem overwriteRecord_bytes (here : f.pages p = some page) (buf : List Byte) (inside : f.InSlots rid)
    (other : rid ≠ ⟨p,slot⟩) :
    (f.overwriteRecord p page slot buf).bytes rid = f.bytes rid := by
  apply bytes_same here
  intro same
  exact getSlot_putSlot_other _ (inside.apart other same) buf

theorem createPageHandle_bytes (ok : f.Ok) (created : f.createPageHandle = .ok (p,page,next)) (inside : f.InSlots rid)
    (shown : f.bytes rid = some data) : next.bytes rid = some data := by
  unfold createPageHandle at created
  split at created
  · obtain rfl : f.createNewPageHandle.2.2 = next := by
      rw [Except.ok.inj created]
    have old : rid.pageNo ≠ f.fd2pageno := by
      intro same
      unfold bytes at shown
      cases here : f.pages rid.pageNo with
      | none => simp [here] at shown
      | some found =>
        have := ok.numbered_page here inside.1
        have := ok.numbered
        omega
    rw [← shown]
    simp [createNewPageHandle,bytes,putPage,old]
    rfl
  · split at created
    · simp only [Except.ok.injEq,Prod.mk.injEq] at created
      rw [← created.2.2]
      exact shown
    · simp at created

end Files

end RmFile

end Rucbase
