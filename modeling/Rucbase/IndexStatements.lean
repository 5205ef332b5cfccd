import Rucbase.IndexCoverage
import Rucbase.IndexUpdates
import Rucbase.Lib.Reindex

/-! DELETE and UPDATE on a table whose indexes hold exactly the pairs of its live rows. DELETE
makes the key to be removed from a buffer that holds nothing of the rows, UPDATE from the new
record, so neither takes the old pairs out. -/
namespace Rucbase.IndexStatements

open Lib Lib.Prog Lib.BTree IndexTree RmFile SmManager IndexCoverage
open LockManager hiding step start

/-! ### An index that entries leave and enter -/

section Outside

variable {κ : Type}

theorem outside_kept : IxIndexHandle.Keeps IndexFile.store fun s next : IndexFile κ =>
    s.pages invalidPageId = none → next.pages invalidPageId = none := by
  refine IxIndexHandle.store_keeps ⟨fun _ none => none,fun _ _ _ first second none => second (first none)⟩ ?_ ?_ ?_
  · intro s none
    have apart : invalidPageId ≠ (s.nextPage : Int) := by simp only [invalidPageId]; omega
    exact (Function.update_of_ne apart (some .zero) s.pages).trans none
  · intro s p old node found none
    exact (IndexFile.put_other (by rintro rfl; simp [none] at found)).trans none
  · exact fun _ _ _ none => none

end Outside

/-- The handle compares by these columns, and its leaves have exactly these pairs. A tree that was
emptied has no root. -/
structure Stores (ih : IxHandle) (cols : List ColMeta) (pairs : List (List Byte × Rid)) : Prop where
  columns : ih.file.hdr.cols = ixCols cols
  outside : ih.file.pages invalidPageId = none
  chain : (leafChain ih.file).Perm pairs
  tree : (∃ order r, 3 ≤ order ∧ Balanced (keyRank (ixCols cols)) (IsKey (ixCols cols)) order ih.file r) ∨
    ih.file.hdr.rootPage = invalidPageId ∧ leafChain ih.file = []

/-- For `ix_compare` the keys are the same. -/
def sameKey (cols : List ColMeta) (a b : List Byte) : Bool := ixCompare (ixCols cols) a b = 0

theorem sameKey_self (cols : List ColMeta) (key : List Byte) : sameKey cols key key = true :=
  decide_eq_true (ixCompare_self _ key)

variable {e : List Byte × Rid} {file : IndexFile (List Byte)} {page : RmPage} {f' : RmFile}

section Handle

variable {ih : IxHandle} {cols : List ColMeta} {pairs : List (List Byte × Rid)} {key : List Byte}

theorem stores_of_carries (carries : Carries ih cols pairs) (outside : ih.file.pages invalidPageId = none) : Stores ih cols pairs := by
  obtain ⟨order,three,r,indexed,same⟩ := carries.contains
  exact ⟨carries.columns,outside,indexed.housed.leafChain_eq ▸ same,.inl ⟨order,r,three,indexed.balanced⟩⟩

section Stored

variable (stores : Stores ih cols pairs)

include stores

theorem Stores.cmp : ih.cmp = ixCompare (ixCols cols) := by
  rw [IxHandle.cmp,stores.columns]

theorem Stores.mem_leafChain : e ∈ leafChain ih.file ↔ e ∈ pairs :=
  stores.chain.mem_iff

theorem Stores.isKey : ∀ e ∈ pairs, IsKey (ixCols cols) e.1 := by
  intro e member
  have listed := stores.mem_leafChain.mpr member
  rcases stores.tree with ⟨_,r,_,balanced⟩ | ⟨_,none⟩
  · rw [balanced.toHoused.leafChain_eq] at listed
    exact entries_proper balanced.keys e listed
  · rw [none] at listed
    cases listed

theorem Stores.same_rank (isKey : IsKey (ixCols cols) key) (member : e ∈ pairs) :
    sameKey cols e.1 key = true ↔ keyRank (ixCols cols) e.1 = keyRank (ixCols cols) key := by
  rw [sameKey,decide_eq_true_eq]
  exact ranked_bytes.eq (stores.isKey e member) isKey

theorem Stores.distinct {a b : List Byte × Rid} (first : a ∈ pairs) (second : b ∈ pairs)
    (equal : sameKey cols a.1 b.1 = true) : a = b := by
  have ranks := (stores.same_rank (stores.isKey b second) first).mp equal
  have firstLeaf := stores.mem_leafChain.mpr first
  have secondLeaf := stores.mem_leafChain.mpr second
  rcases stores.tree with ⟨_,r,_,balanced⟩ | ⟨_,none⟩
  · rw [balanced.toHoused.leafChain_eq] at firstLeaf secondLeaf
    have apart : r.entries.Pairwise fun a b => keyRank (ixCols cols) a.1 ≠ keyRank (ixCols cols) b.1 :=
      balanced.sorted.imp ne_of_lt
    have : Std.Symm fun a b : List Byte × Rid => keyRank (ixCols cols) a.1 ≠ keyRank (ixCols cols) b.1 := ⟨fun _ _ => Ne.symm⟩
    by_contra differ
    exact apart.forall firstLeaf secondLeaf differ ranks
  · rw [none] at firstLeaf
    cases firstLeaf

/-- The columns stay, so a handle whose file was changed by a call compares as before. -/
theorem Stores.changed {α : Type} {call : Prog (IndexFile (List Byte)) RMDBError α}
    (kept : Within SameCols call) {a : α} (run : call ih.file = (.ok a,file)) :
    file.hdr.cols = ixCols cols := by
  have same := kept.ran run
  rw [← stores.columns,IxFileHdr.cols,IxFileHdr.cols,same.1,same.2]

theorem Stores.balanced (rooted : ih.file.hdr.rootPage ≠ invalidPageId) :
    ∃ order r, 3 ≤ order ∧ Balanced (keyRank (ixCols cols)) (IsKey (ixCols cols)) order ih.file r ∧ r.entries.Perm pairs := by
  obtain ⟨order,r,three,balanced⟩ := stores.tree.resolve_right fun empty => rooted empty.1
  exact ⟨order,r,three,balanced,balanced.toHoused.leafChain_eq ▸ stores.chain⟩

theorem Stores.rooted {answer : Bool}
    (run : IxIndexHandle.deleteEntry IndexFile.store ih.cmp key ih.file = (.ok answer,file)) :
    ih.file.hdr.rootPage ≠ invalidPageId := by
  intro rootless
  have missing : IndexFile.store.fetch ih.file.hdr.rootPage ih.file =
      (.error (.internal "DiskManager::read_page Error"),ih.file) := by
    simp [IndexFile.store,bind_run,rootless,stores.outside,check]
  rw [IxIndexHandle.deleteEntry,IxIndexHandle.findLeafPage,
    bind_error (by rw [bind_ok IndexFile.hdr_run,bind_ok IndexFile.pageCount_run,bind_error missing])] at run
  cases run

theorem Stores.deleteEntry (isKey : IsKey (ixCols cols) key)
    (feeds : IxOp.Feeds (ixCompare (ixCols cols)) ih.file (.delete key)) :
    ∃ answer file, IxIndexHandle.deleteEntry IndexFile.store ih.cmp key ih.file = (.ok answer,file) ∧
      Stores { ih with file := file } cols (pairs.filter fun e => !sameKey cols e.1 key) := by
  obtain ⟨order,r,three,balanced,same⟩ := stores.balanced feeds.1
  obtain ⟨file,run,chain,tree⟩ := balanced.delete_fed ranked_bytes three isKey feeds.2
  rw [← stores.cmp] at run
  refine ⟨_,file,run,stores.changed (store_sameCols.deleteEntry _ key) run,
    (outside_kept.deleteEntry _ key).ran run stores.outside,?_,tree.imp_left fun ⟨r',again⟩ => ⟨order,r',three,again⟩⟩
  refine (List.Perm.of_eq (chain.trans (List.filter_congr fun e member => ?_))).trans (same.filter _)
  have ranks := stores.same_rank isKey (same.mem_iff.mp member)
  rw [Bool.eq_iff_iff]
  simp [← ranks]

theorem Stores.insertEntry (isKey : IsKey (ixCols cols) key)
    (rooted : ih.file.hdr.rootPage ≠ invalidPageId) (new : ∀ e ∈ pairs, sameKey cols e.1 key = false) (rid : Rid) :
    ∃ answer file, IxIndexHandle.insertEntry IndexFile.store ih.cmp key rid ih.file = (.ok answer,file) ∧
      Stores { ih with file := file } cols ((key,rid) :: pairs) := by
  obtain ⟨order,r,three,balanced,same⟩ := stores.balanced rooted
  have absent : lookup (keyRank (ixCols cols)) r.entries key = none := lookup_eq_none fun e member ranks =>
    Bool.false_ne_true ((new e (same.mem_iff.mp member)).symm.trans ((stores.same_rank isKey (same.mem_iff.mp member)).mpr ranks))
  obtain ⟨file,r',left,right,run,again,before,after,_⟩ := balanced.insertEntry_absent ranked_bytes three isKey rid absent
  rw [← stores.cmp] at run
  refine ⟨_,file,run,stores.changed (store_sameCols.insertEntry _ key rid) run,
    (outside_kept.insertEntry _ key rid).ran run stores.outside,?_,.inl ⟨order,r',three,again⟩⟩
  rw [again.toHoused.leafChain_eq,after]
  exact List.perm_middle.trans ((before ▸ same).cons _)

end Stored

end Handle

/-! ### Rows -/

/-- The table and its indexes are open, the table is well formed, and each index holds exactly the
pairs of the live rows. -/
structure Consistent (s : SmManager) (tabName : String) (tab : TabMeta) (f : RmFile) : Prop where
  catalog : s.db.tabs.find tabName = some tab
  file : s.rows.files tabName = some f
  ok : f.Ok
  cols : ∀ col ∈ tab.cols, InRecord f.fileHdr.recordSize col
  names : (tab.indexes.map (indexName tabName)).Nodup
  keyed : ∀ index ∈ tab.indexes, ∀ col ∈ index.cols, InRecord f.fileHdr.recordSize col
  stores : ∀ index ∈ tab.indexes, ∃ ih, s.ihs (indexName tabName index) = some ih ∧
    Stores ih index.cols (livePairs index.cols f)

/-- The leaves of each index have exactly the pairs of the live rows. -/
def Exact (s : SmManager) (tabName : String) (tab : TabMeta) : Prop :=
  ∃ f, s.rows.files tabName = some f ∧ ∀ index ∈ tab.indexes, ∃ ih, s.ihs (indexName tabName index) = some ih ∧
    ∀ key rid, (key,rid) ∈ leafChain ih.file ↔ ∃ data, f.contents rid = some data ∧ keyOf index.cols data = key

section Rows

variable {s next : SmManager} {tabName : String} {tab : TabMeta} {f : RmFile}

theorem consistent_of_maintained (maintained : Maintained s tabName tab f)
    (outside : ∀ index ∈ tab.indexes, ∀ ih ∈ s.ihs (indexName tabName index), ih.file.pages invalidPageId = none) :
    Consistent s tabName tab f where
  catalog := maintained.catalog
  file := maintained.file
  ok := maintained.ok
  cols := maintained.cols
  names := maintained.names
  keyed := maintained.keyed
  stores index member :=
    have ⟨ih,opened,carries⟩ := maintained.carries index member
    ⟨ih,opened,stores_of_carries carries (outside index member ih opened)⟩

theorem mem_livePairs (ok : f.Ok) {cols : List ColMeta} {key : List Byte} {rid : Rid} :
    (key,rid) ∈ livePairs cols f ↔ ∃ data, f.contents rid = some data ∧ keyOf cols data = key := by
  rw [livePairs,rowsBy,List.mem_map]
  constructor
  · rintro ⟨other,live,pair⟩
    obtain ⟨rfl,rfl⟩ := Prod.mk.inj pair
    exact ⟨_,contents_rowAt (ok.mem_liveRids.mp live),rfl⟩
  · rintro ⟨data,live,rfl⟩
    exact ⟨rid,ok.mem_liveRids.mpr (by rw [live]; rfl),by rw [rowAt_eq live]⟩

theorem exact_iff (here : next.rows.files tabName = some f) {pairs : IndexMeta → List (List Byte × Rid)}
    (all : ∀ index ∈ tab.indexes, ∃ ih, next.ihs (indexName tabName index) = some ih ∧ Stores ih index.cols (pairs index)) :
    Exact next tabName tab ↔ ∀ index ∈ tab.indexes, ∀ key rid,
      (key,rid) ∈ pairs index ↔ ∃ data, f.contents rid = some data ∧ keyOf index.cols data = key := by
  constructor
  · rintro ⟨f',here',exact⟩ index member key rid
    obtain rfl : f = f' := Option.mem_unique here here'
    obtain ⟨ih,opened,held⟩ := exact index member
    obtain ⟨ih',opened',stores⟩ := all index member
    obtain rfl : ih = ih' := Option.mem_unique opened opened'
    exact stores.mem_leafChain.symm.trans (held key rid)
  · intro held
    refine ⟨f,here,fun index member => ?_⟩
    obtain ⟨ih,opened,stores⟩ := all index member
    exact ⟨ih,opened,fun key rid => stores.mem_leafChain.trans (held index member key rid)⟩

end Rows

/-! ### DELETE -/

/-- A slot of a page of the file, live or not. -/
structure IsSlot (f : RmFile) (rid : Rid) : Prop where
  inside : f.InSlots rid
  valid : rid.pageNo ≠ invalidPageId
  page : (f.pages rid.pageNo).isSome = true

/-- The file without some rows. A row may be deleted twice, which spoils the counters of its page. -/
structure Without (f : RmFile) (rids : List Rid) (next : RmFile) : Prop where
  geometry : Geometry next.fileHdr
  slots : ∀ rid, IsSlot f rid → IsSlot next rid
  contents : ∀ rid, next.contents rid = if rid ∈ rids then none else f.contents rid

section Delete

variable {s next : SmManager} {tabName : String} {tab : TabMeta} {f : RmFile} {txn : TxnId}

theorem isSlot_of_live (ok : f.Ok) {rid : Rid} {data : List Byte} (live : f.contents rid = some data) : IsSlot f rid := by
  obtain ⟨page,nonzero,here,fetched,positive,bound,_⟩ := contents_live ok live
  refine ⟨⟨nonzero,positive,by omega⟩,fun invalid => ?_,by rw [here]; rfl⟩
  simp [fetchPageHandle,invalid] at fetched

theorem IsSlot.fetched {rid : Rid} (slot : IsSlot f rid) :
    ∃ page, f.pages rid.pageNo = some page ∧ f.fetchPageHandle rid.pageNo = .ok page := by
  obtain ⟨page,here⟩ := Option.isSome_iff_exists.mp slot.page
  exact ⟨page,here,by simp [fetchPageHandle,slot.valid,here]⟩

theorem cleared_without (geometry : Geometry f.fileHdr) {rid : Rid} (inside : f.InSlots rid)
    (here : f.pages rid.pageNo = some page) (records nextFree first : Int) :
    Without f [rid] ((f.putPage rid.pageNo { Bitmap.reset page rid.slotNo.toNat with
      numRecords := records, nextFreePageNo := nextFree }).setFirstFree first) := by
  obtain ⟨nonzero,positive,bound⟩ := inside
  refine ⟨⟨geometry.some,geometry.bits,geometry.fits⟩,fun other slot => ⟨slot.inside,slot.valid,?_⟩,fun other => ?_⟩
  · by_cases same : other.pageNo = rid.pageNo
    · simp [setFirstFree,putPage,same]
    · simpa [setFirstFree,putPage,same] using slot.page
  · have fits : rid.slotNo.toNat < f.fileHdr.numRecordsPerPage := by omega
    have rows := contents_change here nonzero _ none (row_erase geometry fits records nextFree)
    rw [contents_setFirstFree,rows,Int.toNat_of_nonneg positive]
    by_cases same : other = rid <;> simp [same]

theorem eraseRecord_without (geometry : Geometry f.fileHdr) {rid : Rid} (inside : f.InSlots rid)
    (here : f.pages rid.pageNo = some page) : Without f [rid] (f.eraseRecord rid.pageNo page rid.slotNo.toNat) := by
  unfold eraseRecord
  dsimp only
  split
  · exact cleared_without geometry inside here _ _ _
  · exact cleared_without geometry inside here _ _ f.fileHdr.firstFreePageNo

theorem deleteRecord_without (here : s.rows.files tabName = some f) (geometry : Geometry f.fileHdr) {rid : Rid} (slot : IsSlot f rid)
    (run : onRows (Db.deleteRecord tabName rid (some txn)) s = (.ok (),next)) :
    ∃ rows f', next = { s with rows := rows } ∧ rows.files tabName = some f' ∧ Without f [rid] f' := by
  obtain ⟨page,there,fetched⟩ := slot.fetched
  rw [onRows,Db.deleteRecord_run here,Db.underLock] at run
  rcases locked : Db.rowLock lockExclusiveOnRecord (some txn) rid f.fd s.rows.locks with ⟨e | _,locks⟩
  · rw [locked] at run
    cases run
  · rw [locked,fetched] at run
    obtain ⟨-,rfl⟩ := Prod.mk.inj run
    exact ⟨_,_,rfl,Function.update_self _ _ _,eraseRecord_without geometry slot.inside there⟩

theorem deleteRecords_without {rids : List Rid} (here : s.rows.files tabName = some f) (geometry : Geometry f.fileHdr)
    (slots : ∀ rid ∈ rids, IsSlot f rid) (run : deleteRecords tabName txn rids s = (.ok (),next)) :
    ∃ rows f', next = { s with rows := rows } ∧ rows.files tabName = some f' ∧ Without f rids f' := by
  induction rids generalizing s f with
  | nil =>
    obtain ⟨-,rfl⟩ := Prod.mk.inj run
    exact ⟨s.rows,f,rfl,here,geometry,fun _ slot => slot,fun _ => rfl⟩
  | cons rid rest ih =>
    obtain ⟨slot,others⟩ := List.forall_mem_cons.mp slots
    obtain ⟨_,s1,first,run⟩ := bind_ok_split run
    obtain ⟨rows,f1,rfl,here1,gone⟩ := deleteRecord_without here geometry slot first
    obtain ⟨rows',f',rfl,here',rest'⟩ := ih here1 gone.geometry (fun r member => gone.slots r (others r member)) run
    refine ⟨rows',f',rfl,here',rest'.geometry,fun r known => rest'.slots r (gone.slots r known),fun r => ?_⟩
    rw [rest'.contents,gone.contents]
    by_cases listed : r ∈ rest <;> by_cases same : r = rid <;> simp [listed,same]

/-- What DELETE takes for the record. -/
def buffer (junk : Nat → Byte) (f : RmFile) : List Byte := allocated junk f.fileHdr.recordSize

/-- The key holds no NaN, and deleting it leaves the inner nodes below the root their children. -/
def Removable (s : SmManager) (tabName : String) (index : IndexMeta) (key : List Byte) : Prop :=
  noNaN (ixCols index.cols) key = true ∧
    ∀ ih ∈ s.ihs (indexName tabName index), starves (ixCompare (ixCols index.cols)) key ih.file = false

instance (s : SmManager) (tabName : String) (index : IndexMeta) (key : List Byte) : Decidable (Removable s tabName index key) :=
  inferInstanceAs (Decidable (_ ∧ ∀ _ ∈ _, _))

theorem filtered_exact_iff (ok : f.Ok) {rids : List Rid} (gone : Without f rids f') (cols : List ColMeta)
    (key : List Byte) : (∀ other rid, (other,rid) ∈ (livePairs cols f).filter (fun e => !sameKey cols e.1 key) ↔
        ∃ data, f'.contents rid = some data ∧ keyOf cols data = other) ↔
      ∀ rid ∈ f.liveRids, (rid ∈ rids ↔ sameKey cols (keyOf cols (f.rowAt rid)) key = true) := by
  have left (rid : Rid) (alive : rid ∈ f.liveRids) :
      (keyOf cols (f.rowAt rid),rid) ∈ (livePairs cols f).filter (fun e => !sameKey cols e.1 key) ↔
        sameKey cols (keyOf cols (f.rowAt rid)) key = false := by
    have there : (keyOf cols (f.rowAt rid),rid) ∈ livePairs cols f := List.mem_map_of_mem alive
    rw [List.mem_filter]
    simp [there]
  constructor
  · intro exact rid alive
    have shown := contents_rowAt (ok.mem_liveRids.mp alive)
    rw [← not_iff_not,Bool.not_eq_true,← left rid alive,exact,gone.contents]
    by_cases listed : rid ∈ rids <;> simp [listed,shown]
  · intro condition other rid
    rw [gone.contents]
    constructor
    · intro member
      obtain ⟨data,shown,rfl⟩ := (mem_livePairs ok).mp (List.mem_filter.mp member).1
      have alive : rid ∈ f.liveRids := ok.mem_liveRids.mpr (by rw [shown]; rfl)
      rw [← rowAt_eq shown,left rid alive] at member
      have outside : rid ∉ rids := fun listed => Bool.false_ne_true (member.symm.trans ((condition rid alive).mp listed))
      exact ⟨data,by rw [if_neg outside,shown],rfl⟩
    · rintro ⟨data,shown,rfl⟩
      by_cases listed : rid ∈ rids
      · simp [listed] at shown
      rw [if_neg listed] at shown
      have alive : rid ∈ f.liveRids := ok.mem_liveRids.mpr (by rw [shown]; rfl)
      rw [← rowAt_eq shown,left rid alive]
      exact Bool.eq_false_iff.mpr fun same => listed ((condition rid alive).mpr same)

/-- DELETE leaves the indexes exact if and only if in each of them the key in the uninitialised buffer
is the key of the rows to be deleted and of no other. -/
theorem delete_exact_iff (consistent : Consistent s tabName tab f) {rids : List Rid}
    (live : ∀ rid ∈ rids, (f.contents rid).isSome = true) {junk : Nat → Byte}
    (removable : ∀ index ∈ tab.indexes, Removable s tabName index (keyOf index.cols (buffer junk f)))
    (run : deleteExecutor junk tabName rids txn s = (.ok (),next)) :
    Exact next tabName tab ↔ ∀ index ∈ tab.indexes, ∀ rid ∈ f.liveRids,
      (rid ∈ rids ↔ sameKey index.cols (keyOf index.cols (f.rowAt rid)) (keyOf index.cols (buffer junk f)) = true) := by
  have known := getTable_known consistent.catalog
  have looked := fileOf_open consistent.file
  rw [deleteExecutor,bind_ok (state_run s),bind_ok known,bind_ok looked] at run
  obtain ⟨_,s1,deleting,removing⟩ := bind_ok_split run
  have slots : ∀ rid ∈ rids, IsSlot f rid := fun rid member => isSlot_of_live consistent.ok (contents_rowAt (live rid member))
  obtain ⟨rows,f',rfl,here,gone⟩ := deleteRecords_without consistent.file consistent.ok.geometry slots deleting
  have size : (buffer junk f).length = f.fileHdr.recordSize := by simp [buffer,allocated]
  have isKey : ∀ index ∈ tab.indexes, IsKey (ixCols index.cols) (keyOf index.cols (buffer junk f)) := fun index member =>
    ⟨keyOf_length (by rw [size]; exact consistent.keyed index member),(removable index member).1⟩
  rw [deleteEntries_each] at removing
  obtain ⟨_,rows',_,calls⟩ := eachIndex_ok consistent.names removing
  have all : ∀ index ∈ tab.indexes, ∃ ih, next.ihs (indexName tabName index) = some ih ∧ Stores ih index.cols
      ((livePairs index.cols f).filter fun e => !sameKey index.cols e.1 (keyOf index.cols (buffer junk f))) := by
    intro index member
    obtain ⟨ih,opened,stores⟩ := consistent.stores index member
    obtain ⟨ih',_,file,opened',called,after⟩ := calls index member
    obtain rfl : ih = ih' := Option.mem_unique opened opened'
    obtain ⟨_,_,again,left⟩ := stores.deleteEntry (isKey index member) ⟨stores.rooted called,(removable index member).2 ih opened⟩
    obtain ⟨-,rfl⟩ := Prod.mk.inj (again.symm.trans called)
    exact ⟨_,after,left⟩
  have stays : next.rows.files tabName = some f' := by rw [rows']; exact here
  rw [exact_iff stays all]
  exact forall₂_congr fun index _ => filtered_exact_iff consistent.ok gone index.cols _

end Delete

/-! ### UPDATE -/

/-- The raw values have the lengths of their columns, as the analysis makes them. -/
def RawClauses (tab : TabMeta) (clauses : List SetClause) : Prop :=
  ∀ clause ∈ clauses, ∀ col ∈ (tab.getCol clause.lhs.colName).toOption, clause.rhs.length = col.len.toNat

instance (tab : TabMeta) (clauses : List SetClause) : Decidable (RawClauses tab clauses) :=
  inferInstanceAs (Decidable (∀ _ ∈ _, ∀ _ ∈ _, _))

section Columns

variable {tab : TabMeta} {clauses : List SetClause} {data new : List Byte}

theorem memcpy_at {col : ColMeta} {bytes : List Byte} (inside : InRecord data.length col) (length : bytes.length = col.len.toNat)
    (i : Nat) : (memcpy data col.offset col.len bytes)[i]? =
      if col.offset.toNat ≤ i ∧ i < col.offset.toNat + col.len.toNat then bytes[i - col.offset.toNat]? else data[i]? := by
  have := inside.len
  have := inside.offset
  have := inside.fits
  rw [memcpy,List.take_of_length_le (Nat.le_of_eq length)]
  have front : (data.take col.offset.toNat).length = col.offset.toNat := by rw [List.length_take]; omega
  rcases Nat.lt_or_ge i col.offset.toNat with before | within
  · rw [List.append_assoc,List.getElem?_append_left (by omega),List.getElem?_take_of_lt before,if_neg (by omega)]
  rcases Nat.lt_or_ge i (col.offset.toNat + col.len.toNat) with here | behind
  · rw [List.append_assoc,List.getElem?_append_right (by omega),List.getElem?_append_left (by omega),front,if_pos ⟨within,here⟩]
  · rw [List.getElem?_append_right (by rw [List.length_append]; omega),List.length_append,List.getElem?_drop,if_neg (by omega)]
    congr 1
    omega

/-- The value that the clauses give to a byte of the record. -/
def written (tab : TabMeta) : List SetClause → Nat → Option Byte
  | [], _ => none
  | clause :: rest, i => (written tab rest i).or <| match tab.getCol clause.lhs.colName with
    | .ok col => if col.offset.toNat ≤ i ∧ i < col.offset.toNat + col.len.toNat then clause.rhs[i - col.offset.toNat]? else none
    | .error _ => none

theorem setColumns_at (raw : RawClauses tab clauses) (inside : ∀ col ∈ tab.cols, InRecord data.length col)
    (run : setColumns tab clauses data = .ok new) :
    new.length = data.length ∧ ∀ i, new[i]? = (written tab clauses i).or data[i]? := by
  induction clauses generalizing data with
  | nil =>
    obtain rfl := Except.ok.inj run
    exact ⟨rfl,fun i => rfl⟩
  | cons clause rest ih =>
    obtain ⟨first,others⟩ := List.forall_mem_cons.mp raw
    rw [setColumns] at run
    cases found : tab.getCol clause.lhs.colName with
    | error e =>
      rw [found] at run
      cases run
    | ok col =>
      rw [found] at run
      have here := inside col (getCol_mem found)
      have length := first col (by rw [found]; rfl)
      have size := memcpy_length here length
      obtain ⟨whole,bytes⟩ := ih others (by rw [size]; exact inside) run
      refine ⟨whole.trans size,fun i => ?_⟩
      rw [bytes,memcpy_at here length,written,found,Option.or_assoc]
      congr 1
      dsimp only
      by_cases within : col.offset.toNat ≤ i ∧ i < col.offset.toNat + col.len.toNat
      · have shown : i - col.offset.toNat < clause.rhs.length := by omega
        rw [if_pos within,if_pos within]
        simp [shown]
      · rw [if_neg within,if_neg within]
        rfl

theorem setColumns_isOk (tab : TabMeta) (clauses : List SetClause) (data : List Byte) :
    (setColumns tab clauses data).isOk = clauses.all fun clause => (tab.getCol clause.lhs.colName).isOk := by
  induction clauses generalizing data with
  | nil => rfl
  | cons clause rest ih =>
    rw [setColumns,List.all_cons]
    cases found : tab.getCol clause.lhs.colName with
    | error e => rfl
    | ok col => exact ih _

theorem setColumns_known (known : ∀ clause ∈ clauses, (tab.getCol clause.lhs.colName).isOk = true) (data : List Byte) :
    ∃ result, setColumns tab clauses data = .ok result := by
  have fine := setColumns_isOk tab clauses data
  rw [List.all_eq_true.mpr known] at fine
  cases run : setColumns tab clauses data with
  | ok result => exact ⟨result,rfl⟩
  | error e =>
    rw [run] at fine
    cases fine

theorem setColumns_defined (run : setColumns tab clauses data = .ok new) (other : List Byte) :
    ∃ result, setColumns tab clauses other = .ok result := by
  refine setColumns_known (List.all_eq_true.mp ?_) other
  rw [← setColumns_isOk tab clauses data,run]
  rfl

theorem setColumns_again (raw : RawClauses tab clauses) (inside : ∀ col ∈ tab.cols, InRecord data.length col)
    (run : setColumns tab clauses data = .ok new) : setColumns tab clauses new = .ok new := by
  obtain ⟨size,bytes⟩ := setColumns_at raw inside run
  obtain ⟨again,rerun⟩ := setColumns_defined run new
  obtain ⟨_,same⟩ := setColumns_at raw (by rw [size]; exact inside) rerun
  rw [rerun]
  refine congrArg _ (List.ext_getElem? fun i => ?_)
  rw [same,bytes,← Option.or_assoc,Option.or_self]

end Columns

/-- What the rounds of an UPDATE do to an index: the new key of each row goes and comes again. -/
def rowOps (cols : List ColMeta) (new : Rid → List Byte) (rids : List Rid) : List (IxOp (List Byte)) :=
  rids.flatMap fun rid => [.delete (keyOf cols (new rid)),.insert (keyOf cols (new rid)) rid]

/-- None of these calls of `delete_entry` empties the tree, and all leave the inner nodes below the root
their children. -/
def Replaceable (cols : List ColMeta) (new : Rid → List Byte) (rids : List Rid) (file : IndexFile (List Byte)) : Prop :=
  Guarded (IndexTree.step (ixCompare (ixCols cols))) (fun s op => op.Feeds (ixCompare (ixCols cols)) s) file (rowOps cols new rids)

instance (cols : List ColMeta) (new : Rid → List Byte) (rids : List Rid) (file : IndexFile (List Byte)) :
    Decidable (Replaceable cols new rids file) :=
  inferInstanceAs (Decidable (Guarded _ _ _ _))

section Update

variable {s next : SmManager} {tabName : String} {tab : TabMeta} {f : RmFile} {txn : TxnId} {clauses : List SetClause}
  {new : Rid → List Byte} {rid : Rid} {rids : List Rid}

/-- The index holds these pairs, and the operations still to be done on it neither empty the tree nor
starve an inner node. -/
structure Ready (cols : List ColMeta) (pairs : List (List Byte × Rid)) (ops : List (IxOp (List Byte))) (ih : IxHandle) : Prop where
  stores : Stores ih cols pairs
  feeds : Guarded (IndexTree.step (ixCompare (ixCols cols))) (fun s op => op.Feeds (ixCompare (ixCols cols)) s) ih.file ops

section Index

variable {ih : IxHandle} {cols : List ColMeta} {pairs : List (List Byte × Rid)} {more : List (IxOp (List Byte))} {key : List Byte}

theorem Ready.without (isKey : IsKey (ixCols cols) key) (ready : Ready cols pairs (.delete key :: more) ih) :
    ∃ answer file, IxIndexHandle.deleteEntry IndexFile.store ih.cmp key ih.file = (.ok answer,file) ∧
      Ready cols (pairs.filter fun e => !sameKey cols e.1 key) more { ih with file := file } := by
  obtain ⟨answer,file,run,left⟩ := ready.stores.deleteEntry isKey ready.feeds.1
  refine ⟨answer,file,run,left,?_⟩
  rw [ready.stores.cmp] at run
  exact after_eq run ▸ ready.feeds.2

theorem Ready.entered (isKey : IsKey (ixCols cols) key)
    (ready : Ready cols (pairs.filter fun e => !sameKey cols e.1 key) (.insert key rid :: more) ih) :
    ∃ answer file, IxIndexHandle.insertEntry IndexFile.store ih.cmp key rid ih.file = (.ok answer,file) ∧
      Ready cols (Reindex.enter (sameKey cols) pairs (key,rid)) more { ih with file := file } := by
  obtain ⟨answer,file,run,grown⟩ := ready.stores.insertEntry isKey ready.feeds.1.1
    (fun e member => by simpa using (List.mem_filter.mp member).2) rid
  refine ⟨answer,file,run,grown,?_⟩
  rw [ready.stores.cmp] at run
  exact after_eq run ▸ ready.feeds.2

end Index

/-- One round: the row is written, and in each index its new key has its rid. The old key is not touched. -/
theorem updateRow_ends (names : (tab.indexes.map (indexName tabName)).Nodup) (here : s.rows.files tabName = some f)
    (ok : f.Ok) {data : List Byte} (live : f.contents rid = some data)
    (set : setColumns tab clauses data = .ok (new rid)) (size : (new rid).length = f.fileHdr.recordSize)
    (isKey : ∀ index ∈ tab.indexes, IsKey (ixCols index.cols) (keyOf index.cols (new rid)))
    {pairs : IndexMeta → List (List Byte × Rid)}
    (opened : ∀ index ∈ tab.indexes, ∃ ih, s.ihs (indexName tabName index) = some ih ∧
      Ready index.cols (pairs index) (rowOps index.cols new (rid :: rids)) ih) :
    Ends Refused (fun _ next => ∃ f', next.rows.files tabName = some f' ∧ f'.Ok ∧ f.SameLayout f' ∧
      f'.contents = Function.update f.contents rid (some (new rid)) ∧
      ∀ index ∈ tab.indexes, ∃ ih, next.ihs (indexName tabName index) = some ih ∧
        Ready index.cols (Reindex.enter (sameKey index.cols) (pairs index) (keyOf index.cols (new rid),rid))
          (rowOps index.cols new rids) ih) (updateRow tab tabName clauses txn rid) s := by
  refine (getRecord_ends here ok live).bind ?_
  rintro _ _ ⟨rfl,rows1,rfl,files⟩
  refine .step (lift_run set) ?_
  rw [deleteEntries_each,insertEntries_each]
  have here1 : rows1.files tabName = some f := by rw [files,here]
  obtain ⟨ihs,removing,_,removed⟩ := @eachIndex_run _ _ { s with rows := rows1 } _ _ _
    (fun index => Ready index.cols ((pairs index).filter fun e => !sameKey index.cols e.1 (keyOf index.cols (new rid)))
      (.insert (keyOf index.cols (new rid)) rid :: rowOps index.cols new rids))
    names (fun index member ih ready => ready.without (isKey index member)) opened
  refine .step removing ((updateRecord_ends here1 ok live size).bind ?_)
  rintro _ _ ⟨f',ok',layout,row,rows,rfl,files'⟩
  obtain ⟨ihs',entering,_,entered⟩ := @eachIndex_run _ _ { s with rows := rows, ihs := ihs } _ _ _
    (fun index => Ready index.cols (Reindex.enter (sameKey index.cols) (pairs index) (keyOf index.cols (new rid),rid))
      (rowOps index.cols new rids))
    names (fun index member ih ready => ready.entered (isKey index member)) removed
  exact .of_ok entering ⟨f',by rw [files',Function.update_self],ok',layout,row,entered⟩

theorem updateRows_ends (names : (tab.indexes.map (indexName tabName)).Nodup) (raw : RawClauses tab clauses)
    (inside : ∀ col ∈ tab.cols, InRecord f.fileHdr.recordSize col) (here : s.rows.files tabName = some f) (ok : f.Ok)
    (set : ∀ rid ∈ rids, ∃ data, f.contents rid = some data ∧ setColumns tab clauses data = .ok (new rid))
    (isKey : ∀ rid ∈ rids, ∀ index ∈ tab.indexes, IsKey (ixCols index.cols) (keyOf index.cols (new rid)))
    {pairs : IndexMeta → List (List Byte × Rid)}
    (opened : ∀ index ∈ tab.indexes, ∃ ih, s.ihs (indexName tabName index) = some ih ∧
      Ready index.cols (pairs index) (rowOps index.cols new rids) ih) :
    Ends Refused (fun _ next => ∃ f', next.rows.files tabName = some f' ∧
      (∀ rid, f'.contents rid = if rid ∈ rids then some (new rid) else f.contents rid) ∧
      ∀ index ∈ tab.indexes, ∃ ih, next.ihs (indexName tabName index) = some ih ∧
        Stores ih index.cols (Reindex.enterAll (sameKey index.cols) (fun rid => keyOf index.cols (new rid)) (pairs index) rids))
      (updateRows tab tabName clauses txn rids) s := by
  induction rids generalizing s f pairs with
  | nil =>
    refine .of_ok rfl ⟨f,here,fun _ => rfl,fun index member => ?_⟩
    obtain ⟨ih,here,ready⟩ := opened index member
    exact ⟨ih,here,ready.stores⟩
  | cons rid rest again =>
    obtain ⟨⟨data,live,made⟩,others⟩ := List.forall_mem_cons.mp set
    obtain ⟨key,keys⟩ := List.forall_mem_cons.mp isKey
    have width := RmFile.contents_length ok live
    have fits : ∀ col ∈ tab.cols, InRecord data.length col := by rw [width]; exact inside
    have size := (setColumns_at raw fits made).1.trans width
    refine (updateRow_ends names here ok live made size key opened).bind ?_
    rintro _ s1 ⟨f1,here1,ok1,layout,row,all⟩
    -- a row that comes again has its new bytes, which the clauses leave
    have later : ∀ r ∈ rest, ∃ data, f1.contents r = some data ∧ setColumns tab clauses data = .ok (new r) := by
      intro r member
      rw [row]
      by_cases same : r = rid
      · subst same
        exact ⟨new r,by simp,setColumns_again raw fits made⟩
      · rw [Function.update_of_ne same]
        exact others r member
    refine (again (by rw [layout.recordSize]; exact inside) here1 ok1 later keys all).mono ?_
    rintro _ next ⟨f',here',rows,final⟩
    refine ⟨f',here',fun r => ?_,final⟩
    rw [rows,row]
    by_cases listed : r ∈ rest
    · simp [listed]
    · by_cases same : r = rid <;> simp [listed,same]

/-- The bytes of a row once an UPDATE of these rids is done. -/
def updated (tab : TabMeta) (clauses : List SetClause) (f : RmFile) (rids : List Rid) (rid : Rid) : List Byte :=
  if rid ∈ rids then (setColumns tab clauses (f.rowAt rid)).toOption.getD [] else f.rowAt rid

def updatedPairs (tab : TabMeta) (clauses : List SetClause) (f : RmFile) (rids : List Rid) (cols : List ColMeta) :
    List (List Byte × Rid) :=
  f.liveRids.map fun rid => (keyOf cols (updated tab clauses f rids rid),rid)

theorem entered_exact_iff (ok : f.Ok) (live : ∀ rid ∈ rids, (f.contents rid).isSome = true)
    (rows : ∀ rid, f'.contents rid = if rid ∈ rids then some (updated tab clauses f rids rid) else f.contents rid)
    {cols : List ColMeta} {ih : IxHandle} (before : Stores ih cols (livePairs cols f))
    (distinct : DistinctKeys cols (updatedPairs tab clauses f rids cols)) :
    (∀ key rid, (key,rid) ∈ Reindex.enterAll (sameKey cols) (fun rid => keyOf cols (updated tab clauses f rids rid))
        (livePairs cols f) rids ↔ ∃ data, f'.contents rid = some data ∧ keyOf cols data = key) ↔
      ∀ rid ∈ f.liveRids, ∃ other ∈ f.liveRids,
        sameKey cols (keyOf cols (f.rowAt rid)) (keyOf cols (updated tab clauses f rids other)) = true := by
  have alive {rid : Rid} (listed : rid ∈ rids) : rid ∈ f.liveRids := ok.mem_liveRids.mpr (live rid listed)
  have shown (key : List Byte) (rid : Rid) : (∃ data, f'.contents rid = some data ∧ keyOf cols data = key) ↔
      ∃ other, other ∈ f.liveRids ∧ (key,rid) = (keyOf cols (updated tab clauses f rids other),other) := by
    rw [rows]
    constructor
    · rintro ⟨data,here,rfl⟩
      by_cases listed : rid ∈ rids
      · rw [if_pos listed] at here
        exact ⟨rid,alive listed,by rw [Option.some.inj here]⟩
      · rw [if_neg listed] at here
        exact ⟨rid,ok.mem_liveRids.mpr (by rw [here]; rfl),by rw [updated,if_neg listed,rowAt_eq here]⟩
    · rintro ⟨other,among,pair⟩
      obtain ⟨rfl,rfl⟩ := Prod.mk.inj pair
      by_cases listed : rid ∈ rids
      · exact ⟨_,if_pos listed,rfl⟩
      · rw [if_neg listed,updated,if_neg listed]
        exact ⟨_,contents_rowAt (ok.mem_liveRids.mp among),rfl⟩
  have old (e : List Byte × Rid) : e ∈ livePairs cols f ↔ ∃ rid, rid ∈ f.liveRids ∧ e = (keyOf cols (f.rowAt rid),rid) := by
    rw [livePairs,rowsBy,List.mem_map]
    simp only [eq_comm]
  have oldApart (i j : Rid) (first : i ∈ f.liveRids) (second : j ∈ f.liveRids)
      (same : sameKey cols (keyOf cols (f.rowAt i)) (keyOf cols (f.rowAt j)) = true) : i = j :=
    congrArg Prod.snd (before.distinct ((old _).mpr ⟨i,first,rfl⟩) ((old _).mpr ⟨j,second,rfl⟩) same)
  have newApart (i j : Rid) (first : i ∈ f.liveRids) (second : j ∈ f.liveRids)
      (same : sameKey cols (keyOf cols (updated tab clauses f rids i)) (keyOf cols (updated tab clauses f rids j)) = true) : i = j := by
    have apart := List.pairwise_map.mp distinct.2
    have : Std.Symm fun a b : Rid => ixCompare (ixCols cols) (keyOf cols (updated tab clauses f rids a))
      (keyOf cols (updated tab clauses f rids b)) ≠ 0 := ⟨fun _ _ => (compare_comm _ _ _).mp⟩
    by_contra differ
    exact apart.forall first second differ (of_decide_eq_true same)
  have whole := Reindex.enterAll_exact_iff (sameKey_self cols) old (fun _ => alive)
    (fun rid outside => by rw [updated,if_neg outside]) oldApart newApart
  rw [← whole]
  constructor
  · exact fun exact e => (exact e.1 e.2).trans (shown e.1 e.2)
  · exact fun exact key rid => (exact (key,rid)).trans (shown key rid).symm

theorem updateExecutor_ends (consistent : Consistent s tabName tab f)
    (known : ∀ clause ∈ clauses, (tab.getCol clause.lhs.colName).isOk = true) (raw : RawClauses tab clauses)
    (live : ∀ rid ∈ rids, (f.contents rid).isSome = true)
    (distinct : ∀ index ∈ tab.indexes, DistinctKeys index.cols (updatedPairs tab clauses f rids index.cols))
    (replaceable : ∀ index ∈ tab.indexes, ∀ ih ∈ s.ihs (indexName tabName index),
      Replaceable index.cols (updated tab clauses f rids) rids ih.file) :
    Ends Refused (fun _ next => Exact next tabName tab ↔ ∀ index ∈ tab.indexes, ∀ rid ∈ f.liveRids, ∃ other ∈ f.liveRids,
      sameKey index.cols (keyOf index.cols (f.rowAt rid)) (keyOf index.cols (updated tab clauses f rids other)) = true)
      (updateExecutor tabName clauses rids txn) s := by
  refine .step (state_run s) (.step (getTable_known consistent.catalog) (.step (fileOf_open consistent.file) ?_))
  have columns : ∀ rid ∈ rids, setColumns tab clauses (f.rowAt rid) = .ok (updated tab clauses f rids rid) := by
    intro rid member
    obtain ⟨new,found⟩ := setColumns_known known (f.rowAt rid)
    rw [updated,if_pos member,found]
    rfl
  have set : ∀ rid ∈ rids, ∃ data, f.contents rid = some data ∧ setColumns tab clauses data = .ok (updated tab clauses f rids rid) :=
    fun rid member => ⟨f.rowAt rid,contents_rowAt (live rid member),columns rid member⟩
  have isKey : ∀ rid ∈ rids, ∀ index ∈ tab.indexes, IsKey (ixCols index.cols) (keyOf index.cols (updated tab clauses f rids rid)) := by
    intro rid member index indexed
    have width := RmFile.contents_length consistent.ok (contents_rowAt (live rid member))
    have size := (setColumns_at raw (by rw [width]; exact consistent.cols) (columns rid member)).1.trans width
    have pair : (keyOf index.cols (updated tab clauses f rids rid),rid) ∈ updatedPairs tab clauses f rids index.cols :=
      List.mem_map_of_mem (consistent.ok.mem_liveRids.mpr (live rid member))
    exact ⟨keyOf_length (by rw [size]; exact consistent.keyed index indexed),(distinct index indexed).1 _ pair⟩
  have opened : ∀ index ∈ tab.indexes, ∃ ih, s.ihs (indexName tabName index) = some ih ∧
      Ready index.cols (livePairs index.cols f) (rowOps index.cols (updated tab clauses f rids) rids) ih := by
    intro index member
    obtain ⟨ih,opened,stores⟩ := consistent.stores index member
    exact ⟨ih,opened,stores,replaceable index member ih opened⟩
  refine (updateRows_ends consistent.names raw consistent.cols consistent.file consistent.ok set isKey opened).mono ?_
  rintro _ next ⟨f',here,rows,all⟩
  rw [exact_iff here all]
  refine forall₂_congr fun index member => ?_
  obtain ⟨_,_,before⟩ := consistent.stores index member
  exact entered_exact_iff consistent.ok live rows before (distinct index member)

/-- UPDATE returns unless a lock is refused, and then leaves the indexes exact if and only if in each of
them every old key is also the new key of a row. -/
theorem update_exact_iff (consistent : Consistent s tabName tab f)
    (known : ∀ clause ∈ clauses, (tab.getCol clause.lhs.colName).isOk = true) (raw : RawClauses tab clauses)
    (live : ∀ rid ∈ rids, (f.contents rid).isSome = true)
    (distinct : ∀ index ∈ tab.indexes, DistinctKeys index.cols (updatedPairs tab clauses f rids index.cols))
    (replaceable : ∀ index ∈ tab.indexes, ∀ ih ∈ s.ihs (indexName tabName index),
      Replaceable index.cols (updated tab clauses f rids) rids ih.file) :
    (∀ e, (updateExecutor tabName clauses rids txn s).1 = .error e → Refused e) ∧
    ∀ next, updateExecutor tabName clauses rids txn s = (.ok (),next) →
      (Exact next tabName tab ↔ ∀ index ∈ tab.indexes, ∀ rid ∈ f.liveRids, ∃ other ∈ f.liveRids,
        sameKey index.cols (keyOf index.cols (f.rowAt rid)) (keyOf index.cols (updated tab clauses f rids other)) = true) := by
  have ends := @updateExecutor_ends _ _ _ _ txn _ _ consistent known raw live distinct replaceable
  exact ⟨fun e thrown => ends.threw (Prod.ext thrown rfl),fun next run => ends.ran run⟩

end Update

/-! ### A table with two rows -/

/-- Rows with the numbers 7 and 8, and an index on the number. -/
def sevenEight : SmManager := (numbers.take 3).foldl (IndexCoverage.step "t") wideTable

theorem sevenEight_indexes : ∀ tab ∈ sevenEight.db.tabs.find "t", tab.indexes = [onNumber] := by decide +kernel

theorem sevenEight_consistent : ∃ tab f, Consistent sevenEight "t" tab f ∧ tab.indexes = [onNumber] := by
  have differ : Guarded (IndexCoverage.step "t") (KeysDiffer "t") wideTable (numbers.take 3) := by decide +kernel
  obtain ⟨_,maintained⟩ := wideTable_maintained
  have run := run_maintained maintained (numbers.take 3) differ
  rw [← sevenEight] at run
  obtain ⟨tab,f,final⟩ := run
  have single := sevenEight_indexes tab final.catalog
  have outside : ∀ ih ∈ sevenEight.ihs (indexName "t" onNumber), (ih.file.pages invalidPageId).isNone = true := by decide +kernel
  refine ⟨tab,f,consistent_of_maintained final ?_,single⟩
  rw [single,List.forall_mem_singleton]
  exact fun ih opened => Option.isNone_iff_eq_none.mp (outside ih opened)

theorem sevenEight_live : ∀ f ∈ sevenEight.rows.files "t", ∀ rid ∈ ([⟨1,0⟩] : List Rid), (f.contents rid).isSome = true := by
  decide +kernel

def sevenBytes (i : Nat) : Byte := if i = 0 then 7 else 0

/-- The buffer happens to hold the row that is deleted. -/
theorem lucky_delete_exact : ∃ tab f, Consistent sevenEight "t" tab f ∧
    Exact ((deleteExecutor sevenBytes "t" [⟨1,0⟩] 1).after sevenEight) "t" tab := by
  obtain ⟨tab,f,consistent,indexes⟩ := sevenEight_consistent
  have returned : (deleteExecutor sevenBytes "t" [⟨1,0⟩] 1 sevenEight).1 = .ok () := by decide +kernel
  have run : deleteExecutor sevenBytes "t" [⟨1,0⟩] 1 sevenEight = (.ok (),(deleteExecutor sevenBytes "t" [⟨1,0⟩] 1).after sevenEight) := by
    rw [← returned,after]
  have removable : ∀ f ∈ sevenEight.rows.files "t", Removable sevenEight "t" onNumber (keyOf onNumber.cols (buffer sevenBytes f)) := by
    decide +kernel
  have agree : ∀ f ∈ sevenEight.rows.files "t", ∀ rid ∈ f.liveRids, (rid ∈ ([⟨1,0⟩] : List Rid) ↔
      sameKey onNumber.cols (keyOf onNumber.cols (f.rowAt rid)) (keyOf onNumber.cols (buffer sevenBytes f)) = true) := by decide +kernel
  refine ⟨tab,f,consistent,(delete_exact_iff consistent (sevenEight_live f consistent.file) ?_ run).mpr ?_⟩
  · rw [indexes,List.forall_mem_singleton]
    exact removable f consistent.file
  · rw [indexes,List.forall_mem_singleton]
    exact agree f consistent.file

/-- With zeros in the buffer the pair of the deleted row stays in the index. -/
theorem deleted_row_stays : ∃ tab f, Consistent sevenEight "t" tab f ∧ (f.contents ⟨1,0⟩).isSome = true ∧
    (deleteExecutor (fun _ => 0) "t" [⟨1,0⟩] 1 sevenEight).1 = .ok () ∧
    ¬Exact ((deleteExecutor (fun _ => 0) "t" [⟨1,0⟩] 1).after sevenEight) "t" tab := by
  obtain ⟨tab,f,consistent,indexes⟩ := sevenEight_consistent
  refine ⟨tab,f,consistent,sevenEight_live f consistent.file _ (List.mem_singleton_self _),by decide +kernel,fun exact => ?_⟩
  have gone : ∀ f ∈ ((deleteExecutor (fun _ => 0) "t" [⟨1,0⟩] 1).after sevenEight).rows.files "t", f.contents ⟨1,0⟩ = none := by
    decide +kernel
  have chain : ∀ ih ∈ ((deleteExecutor (fun _ => 0) "t" [⟨1,0⟩] 1).after sevenEight).ihs (indexName "t" onNumber),
      (intBytes 7,⟨1,0⟩) ∈ leafChain ih.file := by decide +kernel
  obtain ⟨f',here,all⟩ := exact
  obtain ⟨ih,opened,pairs⟩ := all onNumber (by rw [indexes]; exact List.mem_singleton_self _)
  obtain ⟨data,shown,_⟩ := (pairs (intBytes 7) ⟨1,0⟩).mp (chain ih opened)
  cases (gone f' here).symm.trans shown

/-- `set a = n`. -/
def setNumber (n : Int) : List SetClause := [⟨⟨"","a"⟩,intBytes n⟩]

/-- Setting a number to what it is. -/
theorem same_number_exact : ∃ tab f, Consistent sevenEight "t" tab f ∧
    Exact ((updateExecutor "t" (setNumber 7) [⟨1,0⟩] 1).after sevenEight) "t" tab := by
  obtain ⟨tab,f,consistent,indexes⟩ := sevenEight_consistent
  have returned : (updateExecutor "t" (setNumber 7) [⟨1,0⟩] 1 sevenEight).1 = .ok () := by decide +kernel
  have run : updateExecutor "t" (setNumber 7) [⟨1,0⟩] 1 sevenEight =
      (.ok (),(updateExecutor "t" (setNumber 7) [⟨1,0⟩] 1).after sevenEight) := by
    rw [← returned,after]
  have clauses : ∀ tab ∈ sevenEight.db.tabs.find "t", RawClauses tab (setNumber 7) ∧
      ∀ clause ∈ setNumber 7, (tab.getCol clause.lhs.colName).isOk = true := by decide +kernel
  have keys : ∀ tab ∈ sevenEight.db.tabs.find "t", ∀ f ∈ sevenEight.rows.files "t",
      DistinctKeys onNumber.cols (updatedPairs tab (setNumber 7) f [⟨1,0⟩] onNumber.cols) ∧
      (∀ ih ∈ sevenEight.ihs (indexName "t" onNumber), Replaceable onNumber.cols (updated tab (setNumber 7) f [⟨1,0⟩]) [⟨1,0⟩] ih.file) ∧
      ∀ rid ∈ f.liveRids, ∃ other ∈ f.liveRids, sameKey onNumber.cols (keyOf onNumber.cols (f.rowAt rid))
        (keyOf onNumber.cols (updated tab (setNumber 7) f [⟨1,0⟩] other)) = true := by decide +kernel
  obtain ⟨distinct,replaceable,again⟩ := keys tab consistent.catalog f consistent.file
  obtain ⟨raw,known⟩ := clauses tab consistent.catalog
  refine ⟨tab,f,consistent,((update_exact_iff consistent known raw (sevenEight_live f consistent.file) ?_ ?_).2
    _ run).mpr ?_⟩
  all_goals rw [indexes,List.forall_mem_singleton]
  · exact distinct
  · exact replaceable
  · exact again

/-- `set a = 9` on the row with the number 7: the index has the row under both numbers. -/
theorem old_number_stays : ∃ tab f, Consistent sevenEight "t" tab f ∧
    DistinctKeys onNumber.cols (updatedPairs tab (setNumber 9) f [⟨1,0⟩] onNumber.cols) ∧
    (updateExecutor "t" (setNumber 9) [⟨1,0⟩] 1 sevenEight).1 = .ok () ∧
    ¬Exact ((updateExecutor "t" (setNumber 9) [⟨1,0⟩] 1).after sevenEight) "t" tab := by
  obtain ⟨tab,f,consistent,indexes⟩ := sevenEight_consistent
  have distinct : ∀ tab ∈ sevenEight.db.tabs.find "t", ∀ f ∈ sevenEight.rows.files "t",
      DistinctKeys onNumber.cols (updatedPairs tab (setNumber 9) f [⟨1,0⟩] onNumber.cols) := by decide +kernel
  refine ⟨tab,f,consistent,distinct tab consistent.catalog f consistent.file,by decide +kernel,fun exact => ?_⟩
  have row : ∀ f ∈ ((updateExecutor "t" (setNumber 9) [⟨1,0⟩] 1).after sevenEight).rows.files "t", ∀ data ∈ f.contents ⟨1,0⟩,
      keyOf onNumber.cols data ≠ intBytes 7 := by decide +kernel
  have chain : ∀ ih ∈ ((updateExecutor "t" (setNumber 9) [⟨1,0⟩] 1).after sevenEight).ihs (indexName "t" onNumber),
      (intBytes 7,⟨1,0⟩) ∈ leafChain ih.file := by decide +kernel
  obtain ⟨f',here,all⟩ := exact
  obtain ⟨ih,opened,pairs⟩ := all onNumber (by rw [indexes]; exact List.mem_singleton_self _)
  obtain ⟨data,shown,key⟩ := (pairs (intBytes 7) ⟨1,0⟩).mp (chain ih opened)
  exact row f' here data shown key

end Rucbase.IndexStatements
