import Rucbase.IndexContents
import Rucbase.IndexShape
import Rucbase.Isolation
import Rucbase.IxFrames
import Rucbase.RowCalls
import Rucbase.SchemaLayout

/-! CREATE INDEX and INSERT, and the rows that an index covers. The result of `insert_entry` is
not looked at, so a row whose key is already there stays out of the index. -/
namespace Rucbase

open Lib Lib.Prog IndexTree RmFile IxFileHdr
open LockManager hiding step start

/-! ### The columns of a handle -/

def SameCols {κ : Type} (s next : IndexFile κ) : Prop :=
  next.hdr.colTypes = s.hdr.colTypes ∧ next.hdr.colLens = s.hdr.colLens

theorem store_sameCols {κ : Type} : IxIndexHandle.Keeps (IndexFile.store : PageStore (IndexFile κ) κ) SameCols := by
  refine IxIndexHandle.store_keeps ⟨fun _ => ⟨rfl,rfl⟩,fun _ _ _ first second => ?_⟩ ?_ ?_ ?_
  · exact ⟨second.1.trans first.1,second.2.trans first.2⟩
  · exact fun _ => ⟨rfl,rfl⟩
  · exact fun _ _ _ _ _ => ⟨rfl,rfl⟩
  · intro s change repoints
    obtain ⟨_,_,_,same⟩ := repoints s.hdr
    dsimp only [SameCols]
    rw [same]
    exact ⟨rfl,rfl⟩

/-! ### Keys of records -/

variable {col : ColMeta} {data : List Byte}

theorem keyOf_length {cols : List ColMeta} (inside : ∀ col ∈ cols, InRecord data.length col) :
    (keyOf cols data).length = (ixCols cols).totLen := by
  induction cols with
  | nil => rfl
  | cons col cols ih =>
    obtain ⟨here,rest⟩ := List.forall_mem_cons.mp inside
    have := here.len
    have := here.offset
    have := here.fits
    have size : ((data.drop col.offset.toNat).take col.len.toNat).length = col.len.toNat := by
      rw [List.length_take,List.length_drop]
      omega
    have later := ih rest
    simp only [keyOf,ixCols,IxCols.totLen,List.flatMap_cons,List.length_append,List.map_cons,List.sum_cons] at later ⊢
    rw [size,later]

theorem memcpy_length {bytes : List Byte} (inside : InRecord data.length col) (enough : bytes.length = col.len.toNat) :
    (memcpy data col.offset col.len bytes).length = data.length := by
  have := inside.len
  have := inside.offset
  have := inside.fits
  simp only [memcpy,List.length_append,List.length_take,List.length_drop]
  omega

theorem initRaw_length {val : Value} {len : Int} {raw : List Byte} (positive : 0 ≤ len)
    (made : val.initRaw len = .ok raw) : raw.length = len.toNat := by
  cases val with
  | int n =>
    simp only [Value.initRaw] at made
    split_ifs at made with four
    rw [← Except.ok.inj made,four]
    simp [intBytes]
  | float bits =>
    simp only [Value.initRaw] at made
    split_ifs at made with four
    rw [← Except.ok.inj made,four]
    simp [intBytes]
  | str bytes =>
    simp only [Value.initRaw] at made
    split_ifs at made with short
    rw [← Except.ok.inj made,List.length_append,List.length_replicate]
    omega

variable {values : List Value} {others : List (List Byte × Rid)} {e : List Byte × Rid} {rid : Rid} {name : String}
  {colNames : List String} {path : Path} {page0 : IxNode (List Byte)} {handle : Handle} {index : IndexMeta}

theorem makeRecord_length {cols : List ColMeta} {buffer : List Byte}
    (inside : ∀ col ∈ cols, InRecord buffer.length col) (made : makeRecord cols values buffer = .ok data) :
    data.length = buffer.length := by
  induction cols generalizing values buffer with
  | nil =>
    rw [makeRecord] at made
    · rw [← Except.ok.inj made]
    · simp
  | cons col cols ih =>
    obtain ⟨here,rest⟩ := List.forall_mem_cons.mp inside
    cases values with
    | nil => rw [← Except.ok.inj made]
    | cons val values =>
      rw [makeRecord] at made
      split_ifs at made with types
      cases raw : val.initRaw col.len with
      | error e => simp [raw,bind,Except.bind] at made
      | ok bytes =>
        have size := memcpy_length here (initRaw_length here.len raw)
        rw [raw] at made
        have whole := ih (by rw [size]; exact rest) made
        rw [whole,size]

namespace IndexCoverage

open SmManager

/-! ### An index and the pairs it holds -/

/-- The handle compares by these columns and holds exactly these pairs. -/
structure Carries (ih : IxHandle) (cols : List ColMeta) (pairs : List (List Byte × Rid)) : Prop where
  columns : ih.file.hdr.cols = ixCols cols
  contains : ∃ order, 3 ≤ order ∧ Contains (keyRank (ixCols cols)) (IsKey (ixCols cols)) order ih.file pairs

def livePairs (cols : List ColMeta) (f : RmFile) : List (List Byte × Rid) :=
  f.rowsBy fun rid data => (keyOf cols data,rid)

/-- The key is in none of the pairs, as `ix_compare` sees it, and holds no NaN. -/
def NewKey (cols : List ColMeta) (key : List Byte) (pairs : List (List Byte × Rid)) : Prop :=
  noNaN (ixCols cols) key = true ∧ ∀ e ∈ pairs, ixCompare (ixCols cols) e.1 key ≠ 0

instance (cols : List ColMeta) (key : List Byte) (pairs : List (List Byte × Rid)) : Decidable (NewKey cols key pairs) :=
  inferInstanceAs (Decidable (_ ∧ _))

variable {ih : IxHandle} {cols : List ColMeta} {pairs : List (List Byte × Rid)}

section Carried

variable (carries : Carries ih cols pairs)

include carries

theorem Carries.perm (same : pairs.Perm others) :
    Carries ih cols others :=
  have ⟨order,three,contains⟩ := carries.contains
  ⟨carries.columns,order,three,contains.perm same⟩

theorem Carries.mem_leafChain :
    e ∈ leafChain ih.file ↔ e ∈ pairs :=
  have ⟨_,_,contains⟩ := carries.contains
  contains.mem_leafChain

theorem Carries.isKey : ∀ e ∈ pairs, IsKey (ixCols cols) e.1 := by
  obtain ⟨_,_,r,indexed,same⟩ := carries.contains
  exact fun e member => entries_proper indexed.keys e (same.mem_iff.mpr member)

theorem Carries.insertEntry {key : List Byte} (length : key.length = (ixCols cols).totLen)
    (new : NewKey cols key pairs) (rid : Rid) :
    ∃ file, IxIndexHandle.insertEntry IndexFile.store ih.cmp key rid ih.file = (.ok true,file) ∧
      Carries { ih with file := file } cols ((key,rid) :: pairs) := by
  obtain ⟨order,three,contains⟩ := carries.contains
  have isKey : IsKey (ixCols cols) key := ⟨length,new.1⟩
  have apart : ∀ e ∈ pairs, keyRank (ixCols cols) e.1 ≠ keyRank (ixCols cols) key := fun e member same =>
    new.2 e member ((ranked_bytes.eq (carries.isKey e member) isKey).mpr same)
  have compares : ih.cmp = ixCompare (ixCols cols) := by rw [IxHandle.cmp,carries.columns]
  rw [compares]
  obtain ⟨file,run,again⟩ := contains.insertEntry ranked_bytes three isKey rid apart
  have kept := store_sameCols.insertEntry (ixCompare (ixCols cols)) key rid ih.file
  rw [after,run] at kept
  refine ⟨file,run,?_,order,three,again⟩
  rw [← carries.columns,IxFileHdr.cols,IxFileHdr.cols,kept.1,kept.2]

end Carried

/-! ### Calls that leave the table alone -/

/-- The catalog, the tables and the handles stay, and no file is removed. -/
structure Spared (s next : SmManager) : Prop where
  db : next.db = s.db
  files : next.rows.files = s.rows.files
  ihs : next.ihs = s.ihs
  tracked : s.pool.disk.Tracked → next.pool.disk.Tracked
  grows : DirGrows s.pool.disk next.pool.disk

theorem spared_frame : Frame Spared where
  refl _ := ⟨rfl,rfl,rfl,fun tracked => tracked,dirGrows_frame.refl _⟩
  trans _ _ _ first second := ⟨second.db.trans first.db,second.files.trans first.files,second.ihs.trans first.ihs,
    fun tracked => second.tracked (first.tracked tracked),dirGrows_frame.trans _ _ _ first.grows second.grows⟩

variable {built : IxHandle} {indexes : List IndexMeta} {txn : TxnId} {α : Type}

theorem onRows_spared {call : DbCall α} (same : ∀ s, (call.after s).files = s.files) :
    Within Spared (onRows call) := fun s =>
  ⟨rfl,same s.rows,rfl,fun tracked => tracked,dirGrows_frame.refl _⟩

theorem onPool_spared {call : BufferPool.PoolCall α} (tracked : ∀ s, s.disk.Tracked → (call.after s).disk.Tracked)
    (grows : Within Grows call) : Within Spared (onPool call) := fun s =>
  ⟨rfl,rfl,rfl,tracked s.pool,grows s.pool⟩

theorem lift_spared (x : Except RMDBError α) : Within Spared (SmManager.lift x) := by
  cases x with
  | ok a => exact spared_frame.pure a
  | error e => exact spared_frame.raise _

theorem lockTable_spared (request : TxnId → Int → Call) (txn : TxnId) (tabName : String) :
    Within Spared (lockTable request txn tabName) := by
  refine spared_frame.bind spared_frame.state fun s => ?_
  split
  · exact spared_frame.raise _
  · exact spared_frame.bind (onRows_spared fun _ => rfl) fun _ => spared_frame.pure _

theorem fileOf_spared (tabName : String) : Within Spared (onRows (Db.fileOf tabName)) :=
  onRows_spared fun s => by cases here : s.files tabName <;> simp [Db.fileOf,after,bind_run,here]

theorem getRecord_spared (tabName : String) (rid : Rid) (txn : TxnId) :
    Within Spared (onRows (Db.getRecord tabName rid (some txn))) := by
  refine onRows_spared fun s => ?_
  unfold after
  cases here : s.files tabName with
  | none =>
    unfold Db.getRecord
    rw [Db.fileOf_bind_none here]
  | some f =>
    rw [Db.getRecord_run here,Db.underLock]
    cases Db.rowLock lockSharedOnRecord (some txn) rid f.fd s.locks with
    | mk result locks =>
      cases result with
      | error e => rfl
      | ok _ => cases f.fetchPageHandle rid.pageNo <;> rfl

theorem insertEntry_spared (ih : IxHandle) (key : List Byte) (rid : Rid) :
    Within Spared (SmManager.insertEntry ih key rid) := by
  unfold SmManager.insertEntry
  split
  · exact spared_frame.pure _
  · exact spared_frame.raise _

theorem buildIndex_spared (tabName : String) (cols : List ColMeta) (txn : TxnId) (rounds : Nat) (rid : Rid)
    (ih : IxHandle) : Within Spared (buildIndex tabName cols txn rounds rid ih) := by
  induction rounds generalizing rid ih with
  | zero => exact spared_frame.pure ih
  | succ rounds again =>
    unfold buildIndex
    split
    · exact spared_frame.pure ih
    refine spared_frame.bind (getRecord_spared tabName rid txn) fun record => ?_
    refine spared_frame.bind (insertEntry_spared _ _ _) fun ih => ?_
    refine spared_frame.bind (fileOf_spared tabName) fun f => ?_
    exact spared_frame.bind (lift_spared _) fun next => again next ih

theorem fillIndex_spared (page0 : IxNode (List Byte)) (tabName : String) (cols : List ColMeta) (txn : TxnId)
    (handle : Handle) : Within Spared (fillIndex page0 tabName cols txn handle) := by
  refine spared_frame.bind spared_frame.state fun s => ?_
  refine spared_frame.bind (fileOf_spared tabName) fun f => ?_
  exact spared_frame.bind (lift_spared _) fun first => buildIndex_spared _ _ _ _ _ _

theorem createIndex_thrown (page0 : IxNode (List Byte)) (tabName : String) (colNames : List String) (txn : TxnId) :
    OnThrow Spared (createIndex page0 tabName colNames (some txn)) := by
  refine OnThrow.bind spared_frame (lockTable_spared _ _ _) fun _ => ?_
  refine OnThrow.bind spared_frame spared_frame.state fun s => ?_
  refine OnThrow.bind spared_frame (lift_spared _) fun tab => ?_
  dsimp only
  split
  · exact (lift_spared _).onThrow
  refine OnThrow.bind spared_frame (lift_spared _) fun cols => ?_
  refine OnThrow.bind spared_frame (onPool_spared (fun s tracked =>
    ((BufferPool.ixCreateIndex_leaves _ _ s).2 tracked).1) (createIndex_grows _ _)) fun _ => ?_
  refine OnThrow.bind spared_frame (onPool_spared (fun s tracked => openIndex_tracked _ s tracked)
    (openIndex_grows _)) fun handle => ?_
  refine OnThrow.bind spared_frame (fillIndex_spared _ _ _ _ _) fun ih => ?_
  intro s e next run
  cases run

/-! ### Building an index -/

/-- The keys of the pairs hold no NaN and differ for `ix_compare`. -/
def DistinctKeys (cols : List ColMeta) (pairs : List (List Byte × Rid)) : Prop :=
  (∀ e ∈ pairs, noNaN (ixCols cols) e.1 = true) ∧ pairs.Pairwise fun a b => ixCompare (ixCols cols) a.1 b.1 ≠ 0

instance (cols : List ColMeta) (pairs : List (List Byte × Rid)) : Decidable (DistinctKeys cols pairs) :=
  inferInstanceAs (Decidable (_ ∧ _))

theorem compare_comm (cols : IxCols) (a b : List Byte) : ixCompare cols a b ≠ 0 ↔ ixCompare cols b a ≠ 0 := by
  rw [ixCompare_swap cols a b]
  omega

theorem DistinctKeys.perm (distinct : DistinctKeys cols pairs) (same : pairs.Perm others) :
    DistinctKeys cols others :=
  ⟨fun e member => distinct.1 e (same.mem_iff.mpr member),
    (same.pairwise_iff fun differ => (compare_comm _ _ _).mp differ).mp distinct.2⟩

theorem DistinctKeys.first (distinct : DistinctKeys cols (e :: pairs)) : NewKey cols e.1 pairs :=
  ⟨distinct.1 e (by simp),fun other member =>
    (compare_comm _ _ _).mp ((List.pairwise_cons.mp distinct.2).1 other member)⟩

theorem buildIndex_carries {tabName : String} {f : RmFile} (ok : f.Ok) (inside : ∀ col ∈ cols, InRecord f.fileHdr.recordSize col)
    (txn : TxnId) {rids : List Rid} (scans : f.Scans rid rids) (live : ∀ r ∈ rids, (f.contents r).isSome = true)
    {rounds : Nat} (enough : rids.length < rounds) (carries : Carries ih cols pairs)
    (distinct : DistinctKeys cols (rids.map (fun r => (keyOf cols (f.rowAt r),r)) ++ pairs)) {s next : SmManager}
    (here : s.rows.files tabName = some f) (run : buildIndex tabName cols txn rounds rid ih s = (.ok built,next)) :
    Carries built cols (rids.map (fun r => (keyOf cols (f.rowAt r),r)) ++ pairs) := by
  induction rids generalizing rid rounds ih pairs s with
  | nil =>
    obtain ⟨rounds,rfl⟩ := Nat.exists_eq_succ_of_ne_zero (Nat.ne_of_gt (Nat.zero_lt_of_lt enough))
    have isOver : rid.pageNo = rmNoPage := scans
    rw [buildIndex,if_pos isOver] at run
    obtain rfl := Except.ok.inj (Prod.mk.inj run).1
    exact carries
  | cons r rids again =>
    obtain ⟨rounds,rfl⟩ := Nat.exists_eq_succ_of_ne_zero (Nat.ne_of_gt (Nat.zero_lt_of_lt enough))
    obtain ⟨rfl,more,onward,moved,rest⟩ := scans
    rw [buildIndex,if_neg more] at run
    obtain ⟨record,s1,reading,run⟩ := bind_ok_split run
    obtain ⟨grown,s2,entering,run⟩ := bind_ok_split run
    obtain ⟨f',s3,looking,run⟩ := bind_ok_split run
    obtain ⟨position,s4,moving,run⟩ := bind_ok_split run
    have files (x y : SmManager) (spared : Spared x y) (known : x.rows.files tabName = some f) :
        y.rows.files tabName = some f := by rw [spared.files,known]
    have data := RmFile.contents_rowAt (live rid (by simp))
    obtain ⟨rfl,read⟩ := (getRecord_ends here ok data).ran reading
    have here1 : s1.rows.files tabName = some f := by rw [read.files,here]
    have here2 := files s1 s2 (by have kept := insertEntry_spared ih (keyOf cols (f.rowAt rid)) rid s1; rwa [after,entering] at kept) here1
    have size := contents_length ok data
    have length : (keyOf cols (f.rowAt rid)).length = (ixCols cols).totLen := keyOf_length (by rw [size]; exact inside)
    have new : NewKey cols (keyOf cols (f.rowAt rid)) pairs :=
      ⟨distinct.first.1,fun e member => distinct.first.2 e (List.mem_append_right _ member)⟩
    obtain ⟨file,added,carries⟩ := carries.insertEntry length new rid
    rw [SmManager.insertEntry,added] at entering
    obtain ⟨result,rfl⟩ := Prod.mk.inj entering
    obtain rfl := Except.ok.inj result
    rw [fileOf_open here2] at looking
    obtain ⟨found,rfl⟩ := Prod.mk.inj looking
    obtain rfl := Except.ok.inj found
    rw [moved] at moving
    obtain ⟨next',rfl⟩ := Prod.mk.inj moving
    obtain rfl := Except.ok.inj next'
    have done := again rest (fun r member => live r (by simp [member])) (by simpa using enough) carries
      (distinct.perm List.perm_middle.symm) here2 run
    exact done.perm List.perm_middle

/-! ### A table and its indexes -/

/-- The table is open and well formed, and each of its indexes is an open handle that holds exactly
the pairs of the live rows. -/
structure Maintained (s : SmManager) (tabName : String) (tab : TabMeta) (f : RmFile) : Prop where
  catalog : s.db.tabs.find tabName = some tab
  file : s.rows.files tabName = some f
  ok : f.Ok
  cols : ∀ col ∈ tab.cols, InRecord f.fileHdr.recordSize col
  disk : s.pool.disk.Tracked
  names : (tab.indexes.map (indexName tabName)).Nodup
  onDisk : ∀ index ∈ tab.indexes, s.pool.disk.isFile (indexName tabName index) = true
  handles : ∀ name, (s.ihs name).isSome = true → s.pool.disk.isFile name = true
  keyed : ∀ index ∈ tab.indexes, ∀ col ∈ index.cols, InRecord f.fileHdr.recordSize col
  carries : ∀ index ∈ tab.indexes, ∃ ih, s.ihs (indexName tabName index) = some ih ∧
    Carries ih index.cols (livePairs index.cols f)

variable {s next : SmManager} {tabName : String} {tab : TabMeta} {f : RmFile}

theorem Maintained.getTable (maintained : Maintained s tabName tab f) : s.db.getTable tabName = .ok tab := by
  simp [DbMeta.getTable,maintained.catalog]

theorem Maintained.spared (maintained : Maintained s tabName tab f) (spared : Spared s next) :
    Maintained next tabName tab f where
  catalog := by rw [spared.db]; exact maintained.catalog
  file := by rw [spared.files]; exact maintained.file
  ok := maintained.ok
  cols := maintained.cols
  disk := spared.tracked maintained.disk
  names := maintained.names
  onDisk index member := spared.grows _ (maintained.onDisk index member)
  handles name opened := spared.grows _ (maintained.handles name (by rwa [spared.ihs] at opened))
  keyed := maintained.keyed
  carries := by rw [spared.ihs]; exact maintained.carries

theorem getCol_mem (found : tab.getCol name = .ok col) : col ∈ tab.cols := by
  unfold TabMeta.getCol at found
  split at found
  · rename_i hit
    obtain rfl := Except.ok.inj found
    exact List.mem_of_find?_eq_some hit
  · cases found

theorem getCol_name (found : tab.getCol name = .ok col) : col.name = name := by
  unfold TabMeta.getCol at found
  split at found
  · rename_i hit
    obtain rfl := Except.ok.inj found
    simpa using List.find?_some hit
  · cases found

theorem mapM_getCol (found : colNames.mapM tab.getCol = .ok cols) :
    (∀ col ∈ cols, col ∈ tab.cols) ∧ cols.map ColMeta.name = colNames := by
  induction colNames generalizing cols with
  | nil =>
    obtain rfl := Except.ok.inj found
    exact ⟨nofun,rfl⟩
  | cons name rest ih =>
    rw [List.mapM_cons] at found
    cases first : tab.getCol name with
    | error e => simp [first,bind,Except.bind] at found
    | ok col =>
      cases others : rest.mapM tab.getCol with
      | error e => simp [first,others,bind,Except.bind] at found
      | ok more =>
        simp only [first,others,bind,Except.bind,pure,Except.pure,Except.ok.injEq] at found
        subst found
        obtain ⟨inside,names⟩ := ih others
        exact ⟨List.forall_mem_cons.mpr ⟨getCol_mem first,inside⟩,by rw [List.map_cons,names,getCol_name first]⟩

theorem created_carries (fits : IxFileHdr.FitsHeader cols) (page0 : IxNode (List Byte)) (fd : Int) :
    Carries (openedIndex page0 ⟨fd,.index (IxFileHdr.initial cols)⟩ ixInitNumPages) cols [] := by
  have order := (orderFor_bounds (total_nonneg fits.lens) fits.short).1
  have indexed : Indexed (keyRank (ixCols cols)) (IsKey (ixCols cols)) (orderFor (cols.map ColMeta.len).sum).toNat
      (IndexTree.created page0 (initial cols)) ⟨0,⟨ixInitRootPage,[]⟩⟩ :=
    created_indexed page0 rfl (by simp only [initial,fits.total]; omega) rfl rfl
  refine ⟨?_,_,by omega,_,indexed,.nil⟩
  simp [openedIndex,IndexTree.created,IxFileHdr.cols,IxFileHdr.initial,ixCols,List.zip_map']

theorem onPool_ok {call : BufferPool.PoolCall α} {a : α} (run : onPool call s = (.ok a,next)) :
    call s.pool = (.ok a,next.pool) ∧ next = { s with pool := next.pool } := by
  obtain ⟨result,rfl⟩ := Prod.mk.inj run
  refine ⟨Prod.ext ?_ rfl,rfl⟩
  cases fine : (call s.pool).1 with
  | ok b =>
    rw [fine] at result
    exact congrArg Except.ok (Except.ok.inj result)
  | error e =>
    rw [fine] at result
    cases result

theorem createIndex_short {pool after : BufferPool} (run : IxManager.createIndex path cols pool = (.ok (),after)) :
    ColMeta.totLen cols ≤ ixMaxColLen := by
  obtain ⟨_,_,_,run⟩ := bind_ok_split run
  obtain ⟨_,_,_,run⟩ := bind_ok_split run
  obtain ⟨_,_,checked,_⟩ := bind_ok_split run
  by_contra long
  simp [check,long] at checked

/-- The columns of an index lie in a record, so that their lengths are added without an overflow. -/
theorem fitsHeader_of_record {size : Nat} (small : size ≤ pageSize) (inside : ∀ col ∈ cols, InRecord size col)
    (short : ColMeta.totLen cols ≤ ixMaxColLen) (page : 40 + 8 * cols.length ≤ pageSize) : IxFileHdr.FitsHeader cols := by
  have lens : ∀ col ∈ cols, 0 ≤ col.len := fun col member => (inside col member).len
  have bound : (cols.map ColMeta.len).sum ≤ (cols.map ColMeta.len).length • (pageSize : Int) := by
    refine List.sum_le_card_nsmul _ _ fun n member => ?_
    obtain ⟨col,among,rfl⟩ := List.mem_map.mp member
    have := (inside col among).offset
    have := (inside col among).fits
    omega
  have exact_sum : ColMeta.totLen cols = (cols.map ColMeta.len).sum := by
    refine totLen_exact lens ?_
    simp only [List.length_map,nsmul_eq_mul,pageSize] at bound page
    omega
  exact ⟨lens,exact_sum ▸ short,page⟩

theorem fillIndex_carries (maintained : Maintained s tabName tab f) (inside : ∀ col ∈ cols, InRecord f.fileHdr.recordSize col)
    (fits : IxFileHdr.FitsHeader cols) (distinct : DistinctKeys cols (livePairs cols f))
    (header : handle.hdr = .index (initial cols)) (counter : s.pool.disk.fd2pageno handle.fd = ixInitNumPages)
    (run : fillIndex page0 tabName cols txn handle s = (.ok built,next)) : Carries built cols (livePairs cols f) := by
  obtain ⟨first,start,scans⟩ := maintained.ok.scan_live
  have looked := fileOf_open maintained.file
  have filled : buildIndex tabName cols txn (scanRounds f) first
      (openedIndex page0 ⟨handle.fd,.index (initial cols)⟩ ixInitNumPages) s = (.ok built,next) := by
    rw [← run,fillIndex,bind_ok (state_run s)]
    rw [bind_ok looked,start,counter,← header]
    rfl
  have rounds : f.liveRids.length < scanRounds f := Nat.lt_succ_of_le f.liveRids_length
  have live : ∀ rid ∈ f.liveRids, (f.contents rid).isSome = true := fun rid => maintained.ok.mem_liveRids.mp
  have whole : DistinctKeys cols (livePairs cols f ++ []) := by rwa [List.append_nil]
  have carries := buildIndex_carries maintained.ok inside txn scans live rounds (created_carries fits page0 handle.fd) whole
    maintained.file filled
  rwa [List.append_nil] at carries

theorem Maintained.entered (maintained : Maintained s tabName tab f) (inside : ∀ col ∈ cols, col ∈ tab.cols)
    (carries : Carries built cols (livePairs cols f)) (columns : index.cols = cols)
    (absent : s.ihs (indexName tabName index) = none) (fresh : indexName tabName index ∉ tab.indexes.map (indexName tabName))
    (onDisk : s.pool.disk.isFile (indexName tabName index) = true) (metaFile : List Char) :
    Maintained { s with
      db := { s.db with tabs := s.db.tabs.assign tabName { tab with indexes := tab.indexes ++ [index] } }
      ihs := emplace s.ihs (indexName tabName index) built
      metaFile := metaFile } tabName { tab with indexes := tab.indexes ++ [index] } f := by
  rw [emplace_absent built absent]
  have added {P : IndexMeta → Prop} (old : ∀ i ∈ tab.indexes, P i) (new : P index) : ∀ i ∈ tab.indexes ++ [index], P i :=
    List.forall_mem_append.mpr ⟨old,List.forall_mem_singleton.mpr new⟩
  refine ⟨OrderedMap.find_assign_self _ _ _,maintained.file,maintained.ok,maintained.cols,maintained.disk,?_,
    added maintained.onDisk onDisk,fun name opened => ?_,added maintained.keyed ?_,added (fun i member => ?_) ?_⟩
  · rw [List.map_append,List.map_singleton]
    exact List.nodup_append_comm.mp (List.nodup_cons.mpr ⟨fresh,maintained.names⟩)
  · by_cases same : name = indexName tabName index
    · rw [same]; exact onDisk
    · simp only [Function.update_of_ne same] at opened
      exact maintained.handles name opened
  · exact fun col member => maintained.cols col (inside col (columns ▸ member))
  · obtain ⟨ih,opened,holds⟩ := maintained.carries i member
    have other : indexName tabName i ≠ indexName tabName index := fun same => fresh (same ▸ List.mem_map_of_mem member)
    exact ⟨ih,(Function.update_of_ne other _ _).trans opened,holds⟩
  · exact ⟨built,Function.update_self _ _ _,columns ▸ carries⟩

/-- What a CREATE INDEX asks of the rows: one page is enough for the header, and the keys differ. -/
def Indexable (s : SmManager) (tabName : String) (colNames : List String) : Prop :=
  ∀ tab ∈ s.db.tabs.find tabName, ∀ f ∈ s.rows.files tabName, ∀ cols ∈ (colNames.mapM tab.getCol).toOption,
    40 + 8 * cols.length ≤ pageSize ∧ DistinctKeys cols (livePairs cols f)

/-- The header and the page counter of a file that was just created are the ones written there. -/
theorem createOpen_ok (tracked : s.pool.disk.Tracked) (missing : s.pool.disk.isFile path = false)
    (fits : IxFileHdr.FitsHeader cols) {made : SmManager}
    (creating : onPool (IxManager.createIndex path cols) s = (.ok (),made))
    (opening : onPool (IxManager.openIndex path) made = (.ok handle,next)) :
    handle.hdr = .index (initial cols) ∧ next.pool.disk.fd2pageno handle.fd = ixInitNumPages ∧
      next.pool.disk.isFile path = true := by
  obtain ⟨disk,h,opened,created,reopened,header,counter,onDisk⟩ := ixCreateOpen_run tracked missing fits.accepted fits.page
  obtain ⟨creating,_⟩ := onPool_ok creating
  obtain ⟨opening,_⟩ := onPool_ok opening
  have grown := (openIndex_grows path).ran opening
  obtain ⟨-,pool⟩ := Prod.mk.inj (creating.symm.trans created)
  rw [pool] at opening grown
  obtain ⟨same,after⟩ := Prod.mk.inj (opening.symm.trans reopened)
  obtain rfl := Except.ok.inj same
  exact ⟨header,by rw [after]; exact counter,grown path onDisk⟩

theorem createIndex_maintained (maintained : Maintained s tabName tab f) (indexable : Indexable s tabName colNames)
    (run : createIndex page0 tabName colNames (some txn) s = (.ok (),next)) :
    ∃ tab', Maintained next tabName tab' f := by
  simp only [createIndex] at run
  obtain ⟨_,s1,locking,run⟩ := bind_ok_split run
  have locked := (lockTable_spared lockSharedOnTable txn tabName).ran locking
  have there := maintained.spared locked
  rw [bind_ok (state_run s1)] at run
  obtain ⟨tab',s2,known,run⟩ := bind_ok_split run
  obtain ⟨found,rfl⟩ := lift_ok known
  obtain rfl : tab = tab' := Except.ok.inj (there.getTable.symm.trans found)
  by_cases existing : s1.pool.disk.isFile (getIndexName tabName colNames) = true
  · rw [if_pos existing] at run
    cases run
  rw [if_neg existing] at run
  obtain ⟨cols,s3,resolved,run⟩ := bind_ok_split run
  obtain ⟨columns,rfl⟩ := lift_ok resolved
  obtain ⟨inside,names⟩ := mapM_getCol columns
  obtain ⟨short,distinct⟩ := indexable tab maintained.catalog f maintained.file cols (by rw [columns]; rfl)
  obtain ⟨_,s4,creating,run⟩ := bind_ok_split run
  obtain ⟨handle,s5,opening,run⟩ := bind_ok_split run
  obtain ⟨built,s6,filling,run⟩ := bind_ok_split run
  have fits : IxFileHdr.FitsHeader cols := fitsHeader_of_record maintained.ok.geometry.recordSize_le
    (fun col member => maintained.cols col (inside col member)) (createIndex_short (onPool_ok creating).1) short
  obtain ⟨header,counter,onDisk⟩ := createOpen_ok there.disk (Bool.eq_false_iff.mpr existing) fits creating opening
  have opened : Spared s1 s5 := spared_frame.trans _ _ _
    ((onPool_spared (fun s tracked => ((BufferPool.ixCreateIndex_leaves _ _ s).2 tracked).1) (createIndex_grows _ _)).ran creating)
    ((onPool_spared (openIndex_tracked _) (openIndex_grows _)).ran opening)
  have filled := (fillIndex_spared page0 tabName cols txn handle).ran filling
  have carries := fillIndex_carries (there.spared opened)
    (fun col member => maintained.cols col (inside col member)) fits distinct header counter filling
  let index : IndexMeta := ⟨tabName,ColMeta.totLen cols,cols.length,cols⟩
  have name : indexName tabName index = getIndexName tabName colNames := congrArg _ names
  -- The handles and the old indexes have files, and the file of this one was missing.
  have absent : s6.ihs (indexName tabName index) = none := by
    rw [filled.ihs,opened.ihs,name]
    by_contra taken
    exact existing (there.handles _ (Option.isSome_iff_ne_none.mpr taken))
  have fresh : indexName tabName index ∉ tab.indexes.map (indexName tabName) := fun old => by
    obtain ⟨other,member,same⟩ := List.mem_map.mp old
    exact existing (by rw [← name,← same]; exact there.onDisk other member)
  have entered := ((there.spared opened).spared filled).entered inside carries rfl absent fresh
    (by rw [name]; exact filled.grows _ onDisk)
    { s6.db with tabs := s6.db.tabs.assign tabName { tab with indexes := tab.indexes ++ [index] } }.write
  rw [name] at entered
  obtain ⟨-,rfl⟩ := Prod.mk.inj run
  exact ⟨_,entered⟩

/-! ### Loops over the indexes -/

/-- The loop of an executor that makes one call for each index of the table. -/
def eachIndex {α : Type} (tabName : String) (call : IndexMeta → IxHandle → Prog (IndexFile (List Byte)) RMDBError α) :
    List IndexMeta → SmCall Unit
  | [] => pure ()
  | index :: rest => do
    let _ ← onIndex (indexName tabName index) (call index)
    eachIndex tabName call rest

theorem insertEntries_each (tabName : String) (data : List Byte) (rid : Rid) (indexes : List IndexMeta) :
    insertEntries tabName data rid indexes = eachIndex tabName (fun index ih =>
      IxIndexHandle.insertEntry IndexFile.store ih.cmp (keyOf index.cols data) rid) indexes := by
  induction indexes with
  | nil => rfl
  | cons index rest again => rw [insertEntries,eachIndex,again]

theorem deleteEntries_each (tabName : String) (data : List Byte) (indexes : List IndexMeta) :
    deleteEntries tabName data indexes = eachIndex tabName (fun index ih =>
      IxIndexHandle.deleteEntry IndexFile.store ih.cmp (keyOf index.cols data)) indexes := by
  induction indexes with
  | nil => rfl
  | cons index rest again => rw [deleteEntries,eachIndex,again]

/-- If each call returns, the loop does, and each handle is as its own call left it. -/
theorem eachIndex_run {call : IndexMeta → IxHandle → Prog (IndexFile (List Byte)) RMDBError α}
    {old new : IndexMeta → IxHandle → Prop} (names : (indexes.map (indexName tabName)).Nodup)
    (each : ∀ index ∈ indexes, ∀ ih, old index ih →
      ∃ a file, call index ih ih.file = (.ok a,file) ∧ new index { ih with file := file })
    (opened : ∀ index ∈ indexes, ∃ ih, s.ihs (indexName tabName index) = some ih ∧ old index ih) :
    ∃ ihs, eachIndex tabName call indexes s = (.ok (),{ s with ihs := ihs }) ∧
      (∀ name, name ∉ indexes.map (indexName tabName) → ihs name = s.ihs name) ∧
      ∀ index ∈ indexes, ∃ ih, ihs (indexName tabName index) = some ih ∧ new index ih := by
  induction indexes generalizing s with
  | nil => exact ⟨s.ihs,rfl,fun _ _ => rfl,nofun⟩
  | cons index rest again =>
    obtain ⟨fresh,names⟩ := List.nodup_cons.mp names
    obtain ⟨eachHere,eachRest⟩ := List.forall_mem_cons.mp each
    obtain ⟨⟨ih,here,holds⟩,others⟩ := List.forall_mem_cons.mp opened
    obtain ⟨a,file,called,changed⟩ := eachHere ih holds
    let entered : SmManager := { s with ihs := Function.update s.ihs (indexName tabName index) (some { ih with file := file }) }
    have entering : onIndex (indexName tabName index) (call index) s = (.ok a,entered) := by
      simp [onIndex,here,called,Except.mapError,entered]
    have apart (i : IndexMeta) (member : i ∈ rest) : indexName tabName i ≠ indexName tabName index := fun same =>
      fresh (same ▸ List.mem_map_of_mem member)
    obtain ⟨ihs,run,kept,all⟩ := @again entered names eachRest fun i member => by
      obtain ⟨ih,here,holds⟩ := others i member
      exact ⟨ih,(Function.update_of_ne (apart i member) _ _).trans here,holds⟩
    refine ⟨ihs,?_,fun name outside => ?_,List.forall_mem_cons.mpr ⟨⟨_,?_,changed⟩,all⟩⟩
    · rw [eachIndex,bind_ok entering,run]
    · obtain ⟨differ,later⟩ := not_or.mp (mt List.mem_cons.mpr outside)
      exact (kept name later).trans (Function.update_of_ne differ _ _)
    · exact (kept _ fresh).trans (Function.update_self _ _ _)

theorem eachIndex_ok {call : IndexMeta → IxHandle → Prog (IndexFile (List Byte)) RMDBError α}
    (names : (indexes.map (indexName tabName)).Nodup) (run : eachIndex tabName call indexes s = (.ok (),next)) :
    next.db = s.db ∧ next.rows = s.rows ∧ (∀ name, name ∉ indexes.map (indexName tabName) → next.ihs name = s.ihs name) ∧
      ∀ index ∈ indexes, ∃ ih a file, s.ihs (indexName tabName index) = some ih ∧ call index ih ih.file = (.ok a,file) ∧
        next.ihs (indexName tabName index) = some { ih with file := file } := by
  induction indexes generalizing s with
  | nil =>
    obtain ⟨-,rfl⟩ := Prod.mk.inj run
    exact ⟨rfl,rfl,fun _ _ => rfl,nofun⟩
  | cons index rest again =>
    obtain ⟨fresh,names⟩ := List.nodup_cons.mp names
    obtain ⟨a,s1,first,run⟩ := bind_ok_split run
    obtain ⟨db,rows,kept,all⟩ := again names run
    rw [onIndex] at first
    cases here : s.ihs (indexName tabName index) with
    | none => simp [here] at first
    | some ih =>
      simp only [here,Prod.mk.injEq] at first
      obtain ⟨result,rfl⟩ := first
      have called : call index ih ih.file = (.ok a,(call index ih ih.file).2) := by
        refine Prod.ext ?_ rfl
        cases returned : (call index ih ih.file).1 with
        | error e => simp [returned,Except.mapError] at result
        | ok b => simpa [returned,Except.mapError] using result
      have apart (i : IndexMeta) (member : i ∈ rest) : indexName tabName i ≠ indexName tabName index := fun same =>
        fresh (same ▸ List.mem_map_of_mem member)
      refine ⟨db,rows,fun name outside => ?_,List.forall_mem_cons.mpr ⟨⟨ih,a,_,here,called,?_⟩,fun i member => ?_⟩⟩
      · obtain ⟨differ,later⟩ := not_or.mp (mt List.mem_cons.mpr outside)
        exact (kept name later).trans (Function.update_of_ne differ _ _)
      · exact (kept _ fresh).trans (Function.update_self _ _ _)
      · obtain ⟨ih',a',file,opened,returned,after⟩ := all i member
        exact ⟨ih',a',file,(Function.update_of_ne (apart i member) _ _).symm.trans opened,returned,after⟩

/-! ### INSERT -/

theorem insertEntries_run (rid : Rid) (old : IndexMeta → List (List Byte × Rid))
    (names : (indexes.map (indexName tabName)).Nodup)
    (inside : ∀ index ∈ indexes, ∀ col ∈ index.cols, InRecord data.length col)
    (new : ∀ index ∈ indexes, NewKey index.cols (keyOf index.cols data) (old index))
    (carries : ∀ index ∈ indexes, ∃ ih, s.ihs (indexName tabName index) = some ih ∧ Carries ih index.cols (old index)) :
    ∃ ihs, insertEntries tabName data rid indexes s = (.ok (),{ s with ihs := ihs }) ∧
      (∀ name, name ∉ indexes.map (indexName tabName) → ihs name = s.ihs name) ∧
      ∀ index ∈ indexes, ∃ ih, ihs (indexName tabName index) = some ih ∧
        Carries ih index.cols ((keyOf index.cols data,rid) :: old index) := by
  rw [insertEntries_each]
  refine eachIndex_run names (fun index member ih holds => ?_) carries
  obtain ⟨file,added,grown⟩ := holds.insertEntry (keyOf_length (inside index member)) (new index member) rid
  exact ⟨true,file,added,grown⟩

/-- What an INSERT asks of its values: the keys of the record are new to the indexes. -/
def Insertable (s : SmManager) (tabName : String) (junk : Nat → Byte) (values : List Value) : Prop :=
  ∀ tab ∈ s.db.tabs.find tabName, ∀ f ∈ s.rows.files tabName,
    ∀ data ∈ (makeRecord tab.cols values (allocated junk f.fileHdr.recordSize)).toOption,
      ∀ index ∈ tab.indexes, NewKey index.cols (keyOf index.cols data) (livePairs index.cols f)

/-- The table's file is another one with the same rows or one row more, and the indexes follow. -/
theorem Maintained.stored (maintained : Maintained s tabName tab f) {f' : RmFile} (ok : f'.Ok) (layout : f.SameLayout f')
    (here : next.rows.files tabName = some f') (db : next.db = s.db) (pool : next.pool = s.pool)
    (known : ∀ name, name ∉ tab.indexes.map (indexName tabName) → next.ihs name = s.ihs name)
    (carries : ∀ index ∈ tab.indexes, ∃ ih, next.ihs (indexName tabName index) = some ih ∧
      Carries ih index.cols (livePairs index.cols f')) : Maintained next tabName tab f' := by
  have size : f'.fileHdr.recordSize = f.fileHdr.recordSize := layout.recordSize
  refine ⟨by rw [db]; exact maintained.catalog,here,ok,by rw [size]; exact maintained.cols,by rw [pool]; exact maintained.disk,
    maintained.names,by rw [pool]; exact maintained.onDisk,fun name opened => ?_,by rw [size]; exact maintained.keyed,carries⟩
  rw [pool]
  by_cases member : name ∈ tab.indexes.map (indexName tabName)
  · obtain ⟨index,old,rfl⟩ := List.mem_map.mp member
    exact maintained.onDisk index old
  · exact maintained.handles name (by rwa [← known name member])

theorem insertExecutor_maintained (maintained : Maintained s tabName tab f) {junk : Nat → Byte}
    (insertable : Insertable s tabName junk values) (txn : TxnId) :
    ∃ f', Maintained ((insertExecutor junk tabName values txn).after s) tabName tab f' := by
  have looked := fileOf_open maintained.file
  have known : SmManager.lift (s.db.getTable tabName) s = (.ok tab,s) := by rw [maintained.getTable]; rfl
  by_cases count : values.length ≠ tab.cols.length
  · have run : insertExecutor junk tabName values txn s = (.error (DbError.rmdb .invalidValueCount).raised,s) := by
      rw [insertExecutor,bind_ok (state_run s),bind_ok known,if_pos count]
      rfl
    exact ⟨f,by rw [after,run]; exact maintained⟩
  cases made : makeRecord tab.cols values (allocated junk f.fileHdr.recordSize) with
  | error e =>
    have run : insertExecutor junk tabName values txn s = (.error (DbError.rmdb e).raised,s) := by
      rw [insertExecutor,bind_ok (state_run s),bind_ok known,if_neg count,bind_ok looked,made]
      rfl
    exact ⟨f,by rw [after,run]; exact maintained⟩
  | ok data =>
    have size : (allocated junk f.fileHdr.recordSize).length = f.fileHdr.recordSize := by simp [allocated]
    have length : data.length = f.fileHdr.recordSize :=
      (makeRecord_length (by rw [size]; exact maintained.cols) made).trans size
    have new := insertable tab maintained.catalog f maintained.file data (by rw [made]; rfl)
    have shape : insertExecutor junk tabName values txn s = (onRows (Db.insertRecord tabName data (some txn)) >>= fun rid =>
        insertEntries tabName data rid tab.indexes) s := by
      rw [insertExecutor,bind_ok (state_run s),bind_ok known,if_neg count,bind_ok looked,made]
      rfl
    obtain ⟨rid,grown,f',_,free,okGrown,layoutGrown,sameRows,ok',layout,added,insertion⟩ :=
      Db.insertRecord_free maintained.file maintained.ok txn length
    rcases locked : lockExclusiveOnRecord txn rid f.fd s.rows.locks with ⟨e | _,locks⟩
    · rw [locked] at insertion
      refine ⟨grown,?_⟩
      rw [after,shape,bind_error (by rw [onRows,insertion]; rfl)]
      refine maintained.stored okGrown layoutGrown (by simp) rfl rfl (fun _ _ => rfl) fun index member => ?_
      obtain ⟨ih,opened,holds⟩ := maintained.carries index member
      exact ⟨ih,opened,holds.perm (RmFile.rowsBy_same maintained.ok okGrown sameRows _).symm⟩
    · rw [locked] at insertion
      refine ⟨f',?_⟩
      let stored : SmManager := { s with
        rows := ⟨locks,Function.update s.rows.files tabName (some f'),s.rows.log ++ [.write txn tabName rid]⟩ }
      have storing : onRows (Db.insertRecord tabName data (some txn)) s = (.ok rid,stored) := by
        rw [onRows,insertion]
        rfl
      have opened : ∀ index ∈ tab.indexes, ∃ ih, stored.ihs (indexName tabName index) = some ih ∧
        Carries ih index.cols (livePairs index.cols f) := maintained.carries
      obtain ⟨ihs,run,kept,all⟩ := insertEntries_run rid (fun index => livePairs index.cols f) maintained.names
        (by rw [length]; exact maintained.keyed) new opened
      rw [after,shape,bind_ok storing,run]
      refine maintained.stored ok' layout (Function.update_self _ _ _) rfl rfl kept fun index member => ?_
      obtain ⟨ih,opened,holds⟩ := all index member
      exact ⟨ih,opened,holds.perm (RmFile.rowsBy_added maintained.ok ok' free added fun rid data => (keyOf index.cols data,rid)).symm⟩

/-! ### Runs -/

inductive Act where
  | createIndex (page0 : IxNode (List Byte)) (colNames : List String)
  | insert (junk : Nat → Byte) (values : List Value)
  | commit

/-- One statement; one that throws is a step as well. -/
def step (tabName : String) (s : SmManager) : TxnId × Act → SmManager
  | (txn,.createIndex page0 colNames) => (createIndex page0 tabName colNames (some txn)).after s
  | (txn,.insert junk values) => (insertExecutor junk tabName values txn).after s
  | (txn,.commit) => (onRows (Db.commit txn)).after s

/-- No index gets two rows with one key. -/
def KeysDiffer (tabName : String) (s : SmManager) : TxnId × Act → Prop
  | (_,.createIndex _ colNames) => Indexable s tabName colNames
  | (_,.insert junk values) => Insertable s tabName junk values
  | (_,.commit) => True

instance (tabName : String) (s : SmManager) (act : TxnId × Act) : Decidable (KeysDiffer tabName s act) :=
  match act with
  | (_,.createIndex _ _) => inferInstanceAs (Decidable (∀ _ ∈ _, ∀ _ ∈ _, ∀ _ ∈ _, _))
  | (_,.insert _ _) => inferInstanceAs (Decidable (∀ _ ∈ _, ∀ _ ∈ _, ∀ _ ∈ _, ∀ _ ∈ _, _))
  | (_,.commit) => isTrue trivial

/-- Each index of the table is open, and its leaves have every live row. -/
def Covered (s : SmManager) (tabName : String) : Prop :=
  ∀ tab ∈ s.db.tabs.find tabName, ∀ f ∈ s.rows.files tabName, ∀ index ∈ tab.indexes,
    ∃ ih, s.ihs (indexName tabName index) = some ih ∧
      ∀ rid data, f.contents rid = some data → (keyOf index.cols data,rid) ∈ leafChain ih.file

theorem Maintained.covered (maintained : Maintained s tabName tab f) : Covered s tabName := by
  intro tab' known f' here index member
  obtain rfl : tab = tab' := Option.mem_unique maintained.catalog known
  obtain rfl : f = f' := Option.mem_unique maintained.file here
  obtain ⟨ih,opened,carries⟩ := maintained.carries index member
  refine ⟨ih,opened,fun rid data live => carries.mem_leafChain.mpr ?_⟩
  have scanned : rid ∈ f.liveRids := maintained.ok.mem_liveRids.mpr (by rw [live]; rfl)
  exact List.mem_map.mpr ⟨rid,scanned,by rw [rowAt_eq live]⟩

theorem commit_spared (txn : TxnId) : Within Spared (onRows (Db.commit txn)) :=
  onRows_spared (Isolation.commit_files txn)

theorem step_maintained (txn : TxnId) (act : Act) (maintained : Maintained s tabName tab f)
    (differ : KeysDiffer tabName s (txn,act)) : ∃ tab' f', Maintained (step tabName s (txn,act)) tabName tab' f' := by
  cases act with
  | createIndex page0 colNames =>
    match run : createIndex page0 tabName colNames (some txn) s with
    | (.ok _,next) =>
      obtain ⟨tab',again⟩ := createIndex_maintained maintained differ run
      exact ⟨tab',f,by rw [step,after,run]; exact again⟩
    | (.error e,next) =>
      have spared := createIndex_thrown page0 tabName colNames txn s e next run
      exact ⟨tab,f,by rw [step,after,run]; exact maintained.spared spared⟩
  | insert junk values =>
    obtain ⟨f',again⟩ := insertExecutor_maintained maintained differ txn
    exact ⟨tab,f',again⟩
  | commit => exact ⟨tab,f,maintained.spared (commit_spared txn s)⟩

theorem run_maintained (maintained : Maintained s tabName tab f) (run : List (TxnId × Act))
    (differ : Guarded (step tabName) (KeysDiffer tabName) s run) :
    ∃ tab' f', Maintained (run.foldl (step tabName) s) tabName tab' f' :=
  guarded_invariant (fun s => ∃ tab f, Maintained s tabName tab f)
    (fun _ act ⟨_,_,now⟩ holds => step_maintained act.1 act.2 now holds) s ⟨tab,f,maintained⟩ run differ

/-- Whatever the statements do, each index has all rows as long as no two have the same key. -/
theorem statements_cover_rows {s : SmManager} {tabName : String} {tab : TabMeta} {f : RmFile}
    (maintained : Maintained s tabName tab f) (run : List (TxnId × Act))
    (differ : Guarded (step tabName) (KeysDiffer tabName) s run) : Covered (run.foldl (step tabName) s) tabName := by
  obtain ⟨_,_,final⟩ := run_maintained maintained run differ
  exact final.covered

/-! ### A new table -/

theorem createTable_maintained {colDefs : List ColDef} (disk : s.pool.disk.Tracked) (unknown : s.db.isTable tabName = false)
    (missing : s.pool.disk.isFile tabName = false) (absent : s.rows.files tabName = none)
    (lower : 1 ≤ (colDefs.map ColDef.len).sum) (upper : (colDefs.map ColDef.len).sum ≤ rmMaxRecordSize)
    (lens : ∀ col ∈ colDefs, 0 ≤ col.len) (handles : ∀ name, (s.ihs name).isSome = true → s.pool.disk.isFile name = true)
    (run : createTable tabName colDefs (some txn) s = (.ok (),next)) :
    ∃ f, Maintained next tabName ⟨tabName,layout tabName 0 colDefs,[]⟩ f := by
  have adds := adds_of_lens lens (Int.le_refl 0) (by simp only [rmMaxRecordSize] at upper; omega)
  have sum : recordSize colDefs = (colDefs.map ColDef.len).sum := adds.sum.trans (Int.zero_add _)
  obtain ⟨opened,f,locks,tracked,grows,ok,size,rfl⟩ := createTable_returns disk unknown missing absent (by omega) (by omega) run
  have inside : ∀ col ∈ layout tabName 0 colDefs, InRecord f.fileHdr.recordSize col := layout_inside adds lens (by omega)
  exact ⟨f,OrderedMap.find_assign_self _ _ _,Function.update_self _ _ _,ok,inside,tracked,List.nodup_nil,by simp,
    fun name opened => grows name (handles name opened),by simp,by simp⟩

/-- Two rows with the same number, and an index on it. -/
def twins : List (TxnId × Act) :=
  [(1,.insert (fun _ => 0) [.int 7,.str []]),(1,.insert (fun _ => 0) [.int 7,.str []]),(1,.createIndex .zero ["a"])]

def onNumber : IndexMeta := ⟨"t",4,1,[⟨"t","a",.int,4,0,false⟩]⟩

/-- CREATE INDEX returns, and the second row is not in the index. -/
theorem twins_uncovered :
    (createIndex .zero "t" ["a"] (some 1) ((twins.take 2).foldl (step "t") wideTable)).1 = .ok () ∧
    ¬Covered (twins.foldl (step "t") wideTable) "t" := by
  refine ⟨by decide +kernel,fun covered => ?_⟩
  have indexed : ∃ tab ∈ (twins.foldl (step "t") wideTable).db.tabs.find "t", onNumber ∈ tab.indexes := by decide +kernel
  have second : ∃ f ∈ (twins.foldl (step "t") wideTable).rows.files "t", ∃ data ∈ f.contents ⟨1,1⟩,
      keyOf onNumber.cols data = [7,0,0,0] := by decide +kernel
  have chain : ∀ ih ∈ (twins.foldl (step "t") wideTable).ihs (indexName "t" onNumber), ([7,0,0,0],⟨1,1⟩) ∉ leafChain ih.file := by
    decide +kernel
  obtain ⟨tab,known,member⟩ := indexed
  obtain ⟨f,here,data,live,key⟩ := second
  obtain ⟨ih,opened,all⟩ := covered tab known f here onNumber member
  exact chain ih opened (key ▸ all ⟨1,1⟩ data live)

/-- Different numbers, before and after the index is made. -/
def numbers : List (TxnId × Act) :=
  [(1,.insert (fun _ => 0) [.int 7,.str []]),(1,.insert (fun _ => 0) [.int 8,.str []]),(1,.createIndex .zero ["a"]),
    (1,.insert (fun _ => 0) [.int 9,.str []]),(1,.commit)]

theorem wideTable_maintained : ∃ f, Maintained wideTable "t" ⟨"t",layout "t" 0 [⟨"a",.int,4⟩,⟨"b",.string,500⟩],[]⟩ f :=
  createTable_maintained noTables_tracked rfl rfl rfl (by decide) (by decide) (by decide) nofun wideTable_run

theorem numbers_covered : Guarded (step "t") (KeysDiffer "t") wideTable numbers ∧
    Covered (numbers.foldl (step "t") wideTable) "t" := by
  have differ : Guarded (step "t") (KeysDiffer "t") wideTable numbers := by decide +kernel
  obtain ⟨f,maintained⟩ := wideTable_maintained
  exact ⟨differ,statements_cover_rows maintained numbers differ⟩

end IndexCoverage

end Rucbase
