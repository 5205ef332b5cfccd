import Rucbase.NestedLoopJoin
import Rucbase.Projection

/-! Values on their way from INSERT into a record, through the executors of a SELECT and out again.
A string that is shorter than its column is padded with NULs, which are cut off when it is read. -/
namespace Rucbase

open Lib Lib.Prog SmManager ProjectionExecutor Value NestedLoopJoinExecutor ColMeta

/-! ### Reading a tuple -/

/-- What `select_from` makes of a column of a tuple. -/
def readColumn (data : List Byte) (col : ColMeta) : Value :=
  let recBuf := data.drop col.offset.toNat
  match col.type with
  | .int => .int (bytesInt (recBuf.take 4))
  | .float => .float (floatBits recBuf)
  | .string => .str ((recBuf.take col.len.toNat).takeWhile (· != 0))

def readTuple (cols : List ColMeta) (data : List Byte) : List Value := cols.map (readColumn data)

theorem readTuple_cons (col : ColMeta) (cols : List ColMeta) (data : List Byte) :
    readTuple (col :: cols) data = readColumn data col :: readTuple cols data := rfl

/-- A string up to its first NUL. -/
def Value.cut : Value → Value
  | .str bytes => .str (bytes.takeWhile (· != 0))
  | value => value

/-- The value is a C++ `int`, the bits of a `float`, or a string without NULs. -/
def Value.Plain : Value → Prop
  | .int n => -2 ^ 31 ≤ n ∧ n < 2 ^ 31
  | .float bits => bits < 2 ^ 32
  | .str bytes => 0 ∉ bytes

instance (value : Value) : Decidable value.Plain :=
  match value with
  | .int _ => inferInstanceAs (Decidable (_ ∧ _))
  | .float _ => inferInstanceAs (Decidable (_ < _))
  | .str _ => inferInstanceAs (Decidable (¬_))

variable {col : ColMeta} {value : Value}

section Read

variable {cols : List ColMeta} {col : ColMeta} {data : List Byte}

theorem readColumn_cut (sized : col.Sized) (data : List Byte) : readColumn data col = (col.value data).cut := by
  have width := sized.toNat
  unfold readColumn value bytes
  cases type : col.type with
  | int => rw [width (by rw [type]; decide)]; rfl
  | float =>
    rw [width (by rw [type]; decide)]
    simp only [ColType.decode,cut,floatBits,List.take_take,Nat.min_self]
  | string => rfl

theorem readColumn_same {other : ColMeta} {copy : List Byte} (sized : col.Sized) (type : other.type = col.type)
    (len : other.len = col.len) (same : other.bytes copy = col.bytes data) : readColumn copy other = readColumn data col := by
  have sized' : other.Sized := by
    unfold ColMeta.Sized
    rw [type,len]
    exact sized
  rw [readColumn_cut sized',readColumn_cut sized,value,value,type,same]

theorem Value.cut_padded (plain : value.Plain) (len : Int) : (value.padded len).cut = value := by
  cases value with
  | int n => rfl
  | float bits => rfl
  | str bytes =>
    have kept : ∀ b ∈ bytes, (b != 0) = true := fun b member => by
      simp only [bne_iff_ne]
      exact fun zero => plain (zero ▸ member)
    have ends : (List.replicate (len.toNat - bytes.length) (0 : Byte)).takeWhile (· != 0) = [] := by
      cases len.toNat - bytes.length <;> rfl
    show str _ = _
    rw [List.takeWhile_append_of_pos kept,ends,List.append_nil]

theorem Value.storable_of_raw {len : Int} {raw : List Byte} (plain : value.Plain) (made : value.initRaw len = .ok raw) :
    value.Storable len := by
  cases value with
  | int n =>
    rw [initRaw] at made
    split at made
    next four => exact ⟨four,plain⟩
    next => cases made
  | float bits =>
    rw [initRaw] at made
    split at made
    next four => exact ⟨four,plain⟩
    next => cases made
  | str bytes =>
    rw [initRaw] at made
    split at made
    next => cases made
    next fits => exact Int.not_lt.mp fits

theorem readColumn_raw (sized : col.Sized) (plain : value.Plain) (type : col.type = value.type)
    (made : value.initRaw col.len = .ok (col.bytes data)) : readColumn data col = value := by
  obtain ⟨raw,made',_,stands⟩ := initRaw_decodes (storable_of_raw plain made)
  obtain rfl := Except.ok.inj (made.symm.trans made')
  rw [readColumn_cut sized,ColMeta.value,type,stands,cut_padded plain]

end Read

/-! ### Filling a record -/

section Fill

variable {cols : List ColMeta} {values : List Value} {buffer data : List Byte}

theorem makeRecord_cons (inside : InRecord buffer.length col)
    (made : makeRecord (col :: cols) (value :: values) buffer = .ok data) :
    col.type = value.type ∧ ∃ raw, value.initRaw col.len = .ok raw ∧ raw.length = col.len.toNat ∧
      makeRecord cols values (memcpy buffer col.offset col.len raw) = .ok data := by
  rw [makeRecord] at made
  split at made
  next => cases made
  next types =>
    cases raw : value.initRaw col.len with
    | error e =>
      rw [raw] at made
      cases made
    | ok bytes =>
      rw [raw] at made
      exact ⟨not_not.mp types,bytes,rfl,initRaw_length inside.len raw,made⟩

theorem makeRecord_outside (inside : ∀ col ∈ cols, InRecord buffer.length col) (made : makeRecord cols values buffer = .ok data)
    {i : Nat} (free : ∀ col ∈ cols, ¬col.Covers i) : data[i]? = buffer[i]? := by
  induction cols generalizing values buffer with
  | nil =>
    rw [makeRecord] at made
    · rw [← Except.ok.inj made]
    · simp
  | cons col cols ih =>
    cases values with
    | nil => rw [← Except.ok.inj made]
    | cons value values =>
      obtain ⟨here,others⟩ := List.forall_mem_cons.mp inside
      obtain ⟨apart,later⟩ := List.forall_mem_cons.mp free
      obtain ⟨_,raw,_,length,rest⟩ := makeRecord_cons here made
      have size := memcpy_length here length
      rw [ih (by rw [size]; exact others) rest later,IndexStatements.memcpy_at here length,if_neg]
      intro within
      have := here.offset
      have := here.len
      exact apart ⟨by omega,by omega⟩

theorem makeRecord_values (ordered : cols.Pairwise fun a b => a.offset + a.len ≤ b.offset)
    (inside : ∀ col ∈ cols, InRecord buffer.length col) (count : values.length = cols.length)
    (made : makeRecord cols values buffer = .ok data) :
    List.Forall₂ (fun col value => col.type = value.type ∧ value.initRaw col.len = .ok (col.bytes data)) cols values := by
  induction cols generalizing values buffer with
  | nil =>
    obtain rfl := List.eq_nil_of_length_eq_zero count
    exact .nil
  | cons col cols ih =>
    obtain ⟨value,values,rfl⟩ := List.exists_cons_of_length_eq_add_one count
    obtain ⟨here,others⟩ := List.forall_mem_cons.mp inside
    obtain ⟨behind,ordered⟩ := List.pairwise_cons.mp ordered
    obtain ⟨types,raw,made',length,rest⟩ := makeRecord_cons here made
    have size := memcpy_length here length
    have inside' : ∀ other ∈ cols, InRecord (memcpy buffer col.offset col.len raw).length other := by rw [size]; exact others
    have bytes : col.bytes data = raw := by
      refine List.ext_getElem? fun i => ?_
      have := here.offset
      have := here.len
      rw [bytes,List.getElem?_take]
      split
      next within =>
        have free : ∀ other ∈ cols, ¬other.Covers (col.offset.toNat + i : Nat) := fun other member covers => by
          have := behind other member
          have := covers.1
          omega
        rw [List.getElem?_drop,makeRecord_outside inside' rest free,IndexStatements.memcpy_at here length,
          if_pos ⟨by omega,by omega⟩,Nat.add_sub_cancel_left]
      next beyond => rw [List.getElem?_eq_none (by omega)]
    exact .cons ⟨types,by rw [bytes,made']⟩ (ih ordered inside' (by simpa using count) rest)

theorem readTuple_filled (sized : ∀ col ∈ cols, col.Sized) (plain : ∀ value ∈ values, value.Plain)
    (filled : List.Forall₂ (fun col value => col.type = value.type ∧ value.initRaw col.len = .ok (col.bytes data)) cols values) :
    readTuple cols data = values := by
  induction filled with
  | nil => rfl
  | cons here _ ih =>
    obtain ⟨width,widths⟩ := List.forall_mem_cons.mp sized
    obtain ⟨proper,others⟩ := List.forall_mem_cons.mp plain
    rw [readTuple_cons,ih widths others,readColumn_raw width proper here.1 here.2]

end Fill

/-! ### Copies -/

section Copies

variable {cols sel : List ColMeta} {data : List Byte}

theorem readColumn_copied (sized : col.Sized) (inside : InRecord data.length col) (front rest : List Byte) :
    readColumn (front ++ (col.bytes data ++ rest)) { col with offset := (front.length : Int) } = readColumn data col := by
  have length := bytes_length inside
  refine readColumn_same sized rfl rfl ?_
  rw [bytes,Int.toNat_natCast,List.drop_left,List.take_left' length]

theorem readTuple_packed (sized : ∀ col ∈ sel, col.Sized) (inside : ∀ col ∈ sel, InRecord data.length col) (front : List Byte) :
    readTuple (packed front.length sel) (front ++ keyOf sel data) = readTuple sel data := by
  induction sel generalizing front with
  | nil => simp [packed,readTuple]
  | cons col rest ih =>
    obtain ⟨here,others⟩ := List.forall_mem_cons.mp inside
    obtain ⟨width,widths⟩ := List.forall_mem_cons.mp sized
    have first : keyOf (col :: rest) data = col.bytes data ++ keyOf rest data := rfl
    have later := ih widths others (front ++ col.bytes data)
    have start : ((front ++ col.bytes data).length : Int) = front.length + col.len := by
      rw [List.length_append,bytes_length here,Nat.cast_add,Int.toNat_of_nonneg here.len]
    rw [start,List.append_assoc] at later
    rw [packed,first,readTuple_cons,readTuple_cons,readColumn_copied width here,later]

theorem readTuple_projected (sized : ∀ col ∈ sel, col.Sized) (inside : ∀ col ∈ sel, InRecord data.length col) (junk : Nat → Byte) :
    readTuple (packed 0 sel) (project sel junk data) = readTuple sel data := by
  rw [project_eq inside]
  exact readTuple_packed sized inside []

theorem readTuple_left (sized : ∀ col ∈ cols, col.Sized) (inside : ∀ col ∈ cols, InRecord data.length col) (b : List Byte) :
    readTuple cols (data ++ b) = readTuple cols data := by
  refine List.map_congr_left fun col member => readColumn_same (sized col member) rfl rfl ?_
  have fits := (inside col member).inside
  have := (inside col member).fits
  have := (inside col member).offset
  have := (inside col member).len
  rw [bytes,bytes,List.drop_append_of_le_length (by omega),List.take_append_of_le_length fits]

theorem readTuple_right (sized : ∀ col ∈ cols, col.Sized) (inside : ∀ col ∈ cols, InRecord data.length col) (a : List Byte) :
    readTuple (cols.map fun col => { col with offset := col.offset + a.length }) (a ++ data) = readTuple cols data := by
  rw [readTuple,List.map_map]
  refine List.map_congr_left fun col member => readColumn_same (sized col member) rfl rfl ?_
  have := (inside col member).offset
  have place : (col.offset + a.length).toNat = a.length + col.offset.toNat := by omega
  simp only [bytes,place,List.drop_append]
  rw [List.drop_eq_nil_of_le (Nat.le_add_right _ _),Nat.add_sub_cancel_left,List.nil_append]

end Copies

/-! ### From INSERT to SELECT -/

namespace StoredValues

/-- The table as `create_table` made it from columns with distinct names and positive lengths. The
grammar gives numbers four bytes. -/
structure Created (s : SmManager) (tabName : String) (colDefs : List ColDef) (tab : TabMeta) (f : RmFile) : Prop where
  catalog : s.db.tabs.find tabName = some tab
  cols : tab.cols = layout tabName 0 colDefs
  file : s.rows.files tabName = some f
  ok : f.Ok
  size : f.fileHdr.recordSize = recordSize colDefs
  accepted : recordSize colDefs ≤ rmMaxRecordSize
  names : (colDefs.map ColDef.name).Nodup
  positive : ∀ col ∈ colDefs, 0 < col.len
  numbers : ∀ col ∈ colDefs, col.type ≠ .string → col.len = 4

/-- The values come back from the record, by itself, through a projection to any columns, and from
either side of a join. -/
structure ReadsBack (tabName : String) (colDefs : List ColDef) (cols : List ColMeta) (values : List Value) (data : List Byte) : Prop where
  direct : readTuple cols data = values
  /-- Scans of the table deliver records of the length that joins count on. -/
  width : ∀ (f : RmFile) (conds : List Condition) (fuel : Nat), (SeqScanExecutor.executor f cols conds fuel).tupleLen = data.length
  projected : ∀ {σ : Type} (prev : AbstractExecutor σ) (s next : σ) (junk : Nat → Byte) (picks : List (Fin colDefs.length)),
    prev.cols = cols → prev.isEnd s = false → prev.next s = (.ok data,next) →
    ∃ sel row, selected prev.cols (picks.map fun i => ⟨tabName,(colDefs.get i).name⟩) = .ok sel ∧
      (executor prev sel junk).next s = (.ok row,next) ∧
      (readTuple (executor prev sel junk).cols row).map some = picks.map fun i => values[i.val]?
  left : ∀ {σ τ : Type} (l : AbstractExecutor σ) (r : AbstractExecutor τ) (conds : List Condition) (junk : Nat → Byte) (fuel : Nat)
      (s next : σ × τ) (other : List Byte), l.cols = cols → l.tupleLen = data.length → other.length = r.tupleLen →
    l.isEnd s.1 = false → l.next s.1 = (.ok data,next.1) → r.next s.2 = (.ok other,next.2) →
    ∃ row, (executor l r conds junk fuel).next s = (.ok row,next) ∧
      (readTuple (executor l r conds junk fuel).cols row).take cols.length = values
  right : ∀ {σ τ : Type} (l : AbstractExecutor σ) (r : AbstractExecutor τ) (conds : List Condition) (junk : Nat → Byte) (fuel : Nat)
      (s next : σ × τ) (other : List Byte), r.cols = cols → r.tupleLen = data.length → other.length = l.tupleLen →
    l.isEnd s.1 = false → l.next s.1 = (.ok other,next.1) → r.next s.2 = (.ok data,next.2) →
    ∃ row, (executor l r conds junk fuel).next s = (.ok row,next) ∧
      (readTuple (executor l r conds junk fuel).cols row).drop l.cols.length = values

/-- A value is not of the type of its column, or is a string that is too long for it. -/
def Mismatched (cols : List ColMeta) (values : List Value) : Prop :=
  ∃ pair ∈ cols.zip values, pair.2.type ≠ pair.1.type ∨ ∃ bytes, pair.2 = .str bytes ∧ pair.1.len < bytes.length

section Reading

variable {tabName : String} {colDefs : List ColDef} {cols : List ColMeta} {values : List Value} {data : List Byte}

theorem findCol_layout (tabName : String) (names : (colDefs.map ColDef.name).Nodup) (i : Fin colDefs.length) (offset : Int) :
    ∃ col, findCol (layout tabName offset colDefs) ⟨tabName,(colDefs.get i).name⟩ = .ok col ∧
      (layout tabName offset colDefs)[i.val]? = some col := by
  induction colDefs generalizing offset with
  | nil => exact i.elim0
  | cons first rest ih =>
    obtain ⟨fresh,names⟩ := List.nodup_cons.mp names
    cases i using Fin.cases with
    | zero => exact ⟨_,by simp [findCol,layout],rfl⟩
    | succ j =>
      obtain ⟨col,found,placed⟩ := ih names j (addInt offset first.len)
      refine ⟨col,?_,by simpa [layout] using placed⟩
      have other : first.name ≠ (rest.get j).name := fun same => fresh (same ▸ List.mem_map_of_mem (List.get_mem _ _))
      rw [findCol] at found
      rw [findCol,layout,List.find?_cons_of_neg (by simpa using other)]
      exact found

theorem selected_layout (tabName : String) (names : (colDefs.map ColDef.name).Nodup) (picks : List (Fin colDefs.length)) :
    ∃ sel, selected (layout tabName 0 colDefs) (picks.map fun i => ⟨tabName,(colDefs.get i).name⟩) = .ok sel ∧
      sel.map some = picks.map fun i => (layout tabName 0 colDefs)[i.val]? := by
  induction picks with
  | nil => exact ⟨[],rfl,rfl⟩
  | cons i rest ih =>
    obtain ⟨col,found,placed⟩ := findCol_layout tabName names i 0
    obtain ⟨sel,others,columns⟩ := ih
    refine ⟨col :: sel,?_,by rw [List.map_cons,List.map_cons,columns,placed]⟩
    rw [selected,List.map_cons,List.mapM_cons,found]
    rw [selected] at others
    rw [others]
    rfl

theorem layout_end (tabName : String) {offset : Int} (adds : Adds offset colDefs) :
    (((layout tabName offset colDefs).getLast?.map fun col => col.offset + col.len).getD offset) = offset + (colDefs.map ColDef.len).sum := by
  induction colDefs generalizing offset with
  | nil => exact (Int.add_zero offset).symm
  | cons first rest ih =>
    obtain ⟨⟨low,high⟩,later⟩ := adds
    have tail := ih later
    rw [layout,addInt_exact low high,List.map_cons,List.sum_cons,← Int.add_assoc,← tail,List.getLast?_cons]
    cases (layout tabName (offset + first.len) rest).getLast? <;> rfl

theorem join_next {σ τ : Type} {l : AbstractExecutor σ} {r : AbstractExecutor τ} (conds : List Condition) (junk : Nat → Byte)
    (fuel : Nat) {s next : σ × τ} {a b : List Byte} (wideA : a.length = l.tupleLen) (wideB : b.length = r.tupleLen)
    (more : l.isEnd s.1 = false) (first : l.next s.1 = (.ok a,next.1)) (second : r.next s.2 = (.ok b,next.2)) :
    (NestedLoopJoinExecutor.executor l r conds junk fuel).next s = (.ok (a ++ b),next) := by
  have both : (NestedLoopJoinExecutor.next l r junk) s = (.ok (memcpy (memcpy (allocated junk (l.tupleLen + r.tupleLen)) 0 a.length a)
      a.length b.length b),next) := by
    rw [NestedLoopJoinExecutor.next,bind_ok (state_run s),bind_ok (check_run (by rw [more]; rfl) _ _)]
    rw [bind_ok (onLeft_run first s.2),bind_ok (onRight_run second next.1)]
    rfl
  exact both.trans (by rw [copied wideA wideB])

theorem reads_back (names : (colDefs.map ColDef.name).Nodup) (place : cols = layout tabName 0 colDefs)
    (sized : ∀ col ∈ cols, col.Sized) (inside : ∀ col ∈ cols, InRecord data.length col) (direct : readTuple cols data = values)
    (width : (data.length : Int) = (colDefs.map ColDef.len).sum) (adds : Adds 0 colDefs) : ReadsBack tabName colDefs cols values data where
  direct := direct
  width f conds fuel := by
    have ends := layout_end tabName adds
    rw [Int.zero_add,← width,← place] at ends
    unfold SeqScanExecutor.executor
    dsimp only
    cases last : cols.getLast? with
    | none =>
      rw [last] at ends
      exact Int.ofNat.inj ends
    | some col =>
      rw [last] at ends
      exact (congrArg Int.toNat ends).trans (Int.toNat_natCast _)
  projected prev s next junk picks columns more read := by
    obtain ⟨sel,found,among⟩ := selected_layout tabName names picks
    rw [← place] at found among
    have member : ∀ col ∈ sel, col ∈ cols := by
      intro col listed
      have picked : some col ∈ sel.map some := List.mem_map_of_mem listed
      rw [among] at picked
      obtain ⟨i,_,here⟩ := List.mem_map.mp picked
      exact List.mem_of_getElem? here
    refine ⟨sel,_,by rw [columns,found],next_run sel junk more read,?_⟩
    have shown := readTuple_projected (fun col listed => sized col (member col listed)) (fun col listed => inside col (member col listed)) junk
    calc (readTuple (packed 0 sel) (project sel junk data)).map some
        = (sel.map some).map (Option.map (readColumn data)) := by rw [shown,readTuple,List.map_map,List.map_map]; rfl
      _ = picks.map fun i => (cols[i.val]?).map (readColumn data) := by rw [among,List.map_map]; rfl
      _ = picks.map fun i => values[i.val]? := by simp only [← direct,readTuple,List.getElem?_map]
  left l r conds junk fuel s next other columns wide wide' more first second := by
    refine ⟨_,join_next conds junk fuel wide.symm wide' more first second,?_⟩
    show ((joined l.cols r.cols l.tupleLen).map (readColumn (data ++ other))).take cols.length = values
    rw [joined,List.map_append,columns,List.take_left' (List.length_map _)]
    exact (readTuple_left sized inside other).trans direct
  right l r conds junk fuel s next other columns wide wide' more first second := by
    refine ⟨_,join_next conds junk fuel wide' wide.symm more first second,?_⟩
    show ((joined l.cols r.cols l.tupleLen).map (readColumn (other ++ data))).drop l.cols.length = values
    rw [joined,List.map_append,columns,List.drop_left' (List.length_map _),← wide']
    exact (readTuple_right sized inside other).trans direct

end Reading

section Inserting

variable {s next : SmManager} {tabName : String} {colDefs : List ColDef} {tab : TabMeta} {f : RmFile} {junk : Nat → Byte}
  {values : List Value} {txn : TxnId}

theorem layout_mem {offset : Int} (member : col ∈ layout tabName offset colDefs) :
    ∃ colDef ∈ colDefs, col.type = colDef.type ∧ col.len = colDef.len := by
  induction colDefs generalizing offset with
  | nil => cases member
  | cons first rest ih =>
    rcases List.mem_cons.mp member with rfl | later
    · exact ⟨first,List.mem_cons_self ..,rfl,rfl⟩
    · obtain ⟨colDef,among,same⟩ := ih later
      exact ⟨colDef,List.mem_cons_of_mem _ among,same⟩

theorem Created.sized (created : Created s tabName colDefs tab f) : ∀ col ∈ tab.cols, col.Sized := by
  intro col member number
  rw [created.cols] at member
  obtain ⟨colDef,among,type,len⟩ := layout_mem member
  rw [len]
  exact created.numbers colDef among (type ▸ number)

theorem insertEntries_rows (tabName : String) (data : List Byte) (rid : Rid) (indexes : List IndexMeta) :
    Within (fun s next => next.rows = s.rows) (insertEntries tabName data rid indexes) := by
  have frame : Frame fun s next : SmManager => next.rows = s.rows := ⟨fun _ => rfl,fun _ _ _ first second => second.trans first⟩
  induction indexes with
  | nil => exact frame.pure ()
  | cons index rest ih =>
    refine frame.bind (fun s => ?_) fun _ => ih
    unfold after onIndex
    split <;> rfl

theorem insertExecutor_stores (created : Created s tabName colDefs tab f)
    (inside : ∀ col ∈ tab.cols, InRecord f.fileHdr.recordSize col)
    (run : insertExecutor junk tabName values txn s = (.ok (),next)) :
    values.length = tab.cols.length ∧ ∃ rid data f', makeRecord tab.cols values (allocated junk f.fileHdr.recordSize) = .ok data ∧
      f.contents rid = none ∧ next.rows.files tabName = some f' ∧ f'.contents = Function.update f.contents rid (some data) := by
  rw [insertExecutor,bind_ok (state_run s),bind_ok (getTable_known created.catalog)] at run
  split at run
  next => cases run
  next count =>
    rw [bind_ok (fileOf_open created.file)] at run
    obtain ⟨data,s1,lifted,run⟩ := bind_ok_split run
    obtain ⟨made,rfl⟩ := lift_ok lifted
    obtain ⟨rid,s2,inserting,entering⟩ := bind_ok_split run
    have room : (allocated junk f.fileHdr.recordSize).length = f.fileHdr.recordSize := by simp [allocated]
    have size := (makeRecord_length (by rw [room]; exact inside) made).trans room
    obtain ⟨free,grown,f',_,absent,_,_,_,_,_,added,shape⟩ := Db.insertRecord_free created.file created.ok txn size
    rw [onRows,shape] at inserting
    rcases granted : LockManager.lockExclusiveOnRecord txn free f.fd s.rows.locks with ⟨e | _,locks⟩
    · rw [granted] at inserting
      cases inserting
    · rw [granted] at inserting
      obtain ⟨-,rfl⟩ := Prod.mk.inj inserting
      have rows := (insertEntries_rows tabName data rid tab.indexes).ran entering
      exact ⟨not_not.mp count,free,data,f',made,absent,by rw [rows]; exact Function.update_self _ _ _,added⟩

theorem raised_thrown {e : RMDBError} (proper : e ≠ .assertion) : (DbError.rmdb e).raised = .thrown (.rmdb e) := by
  unfold DbError.raised
  split
  next same => exact absurd (DbError.rmdb.inj same) proper
  next => rfl

theorem initRaw_error {e : RMDBError} (sized : col.Sized) (type : col.type = value.type)
    (failed : value.initRaw col.len = .error e) : e ≠ .assertion := by
  cases value with
  | int n =>
    rw [initRaw,sized (by simp [type,Value.type]),if_pos rfl] at failed
    cases failed
  | float bits =>
    rw [initRaw,sized (by simp [type,Value.type]),if_pos rfl] at failed
    cases failed
  | str bytes =>
    rw [initRaw] at failed
    split at failed
    · cases failed
      simp
    · cases failed

theorem makeRecord_rejects {cols : List ColMeta} (sized : ∀ col ∈ cols, col.Sized) (mismatched : Mismatched cols values)
    (buffer : List Byte) : ∃ e, makeRecord cols values buffer = .error e ∧ e ≠ .assertion := by
  induction cols generalizing values buffer with
  | nil =>
    obtain ⟨_,member,_⟩ := mismatched
    cases member
  | cons col cols ih =>
    obtain ⟨width,widths⟩ := List.forall_mem_cons.mp sized
    obtain ⟨pair,member,wrong⟩ := mismatched
    cases values with
    | nil => cases member
    | cons value values =>
      rw [makeRecord]
      split
      next => exact ⟨_,rfl,by simp⟩
      next types =>
        have types := not_not.mp types
        cases raw : value.initRaw col.len with
        | error e => exact ⟨e,rfl,initRaw_error width types raw⟩
        | ok bytes =>
          -- this value fits, so it is one of the others that does not
          have later : Mismatched cols values := by
            rcases List.mem_cons.mp member with rfl | later
            · rcases wrong with other | ⟨string,rfl,long⟩
              · exact absurd types.symm other
              · simp [initRaw,long] at raw
            · exact ⟨pair,later,wrong⟩
          exact ih widths later _

/-- What INSERT accepted is what SELECT shows, and values that do not fit are refused. An INSERT is
accepted when it returns and copies nothing to outside of its record. -/
theorem inserted_values_read_back (created : Created s tabName colDefs tab f) (junk : Nat → Byte) (values : List Value) (txn : TxnId) :
    ((∀ value ∈ values, value.Plain) → (∀ col ∈ tab.cols, InRecord f.fileHdr.recordSize col) →
      ∀ next, insertExecutor junk tabName values txn s = (.ok (),next) →
      ∃ rid data f', f.contents rid = none ∧ next.rows.files tabName = some f' ∧
        f'.contents = Function.update f.contents rid (some data) ∧ ReadsBack tabName colDefs tab.cols values data) ∧
    (values.length = tab.cols.length → Mismatched tab.cols values →
      ∃ e, insertExecutor junk tabName values txn s = (.error (.thrown (.rmdb e)),s)) := by
  refine ⟨fun plain inside next run => ?_,fun count mismatched => ?_⟩
  · obtain ⟨count,rid,data,f',made,absent,there,added⟩ := insertExecutor_stores created inside run
    have room : (allocated junk f.fileHdr.recordSize).length = f.fileHdr.recordSize := by simp [allocated]
    have inside' : ∀ col ∈ tab.cols, InRecord (allocated junk f.fileHdr.recordSize).length col := by rw [room]; exact inside
    have size := (makeRecord_length inside' made).trans room
    have small : f.fileHdr.recordSize < 2 ^ 31 := by
      have := created.size
      have := created.accepted
      simp only [rmMaxRecordSize] at this
      omega
    have adds := adds_of_inside small (created.cols ▸ inside)
    have ordered := (layout_ordered tabName adds fun col member => Int.le_of_lt (created.positive col member)).2
    rw [← created.cols] at ordered
    have direct := readTuple_filled created.sized plain (makeRecord_values ordered inside' count made)
    have width : (data.length : Int) = (colDefs.map ColDef.len).sum := by
      rw [size,created.size,recordSize,adds.sum,Int.zero_add]
    exact ⟨rid,data,f',absent,there,added,
      reads_back created.names created.cols created.sized (by rw [size]; exact inside) direct width adds⟩
  · obtain ⟨e,failed,proper⟩ := makeRecord_rejects created.sized mismatched (allocated junk f.fileHdr.recordSize)
    refine ⟨e,?_⟩
    rw [insertExecutor,bind_ok (state_run s),bind_ok (getTable_known created.catalog),if_neg (not_not.mpr count),
      bind_ok (fileOf_open created.file),failed,SmManager.lift,raised_thrown proper]
    rfl

end Inserting

def wideDefs : List ColDef := [⟨"a",.int,4⟩,⟨"b",.string,500⟩]

theorem wideTable_created : ∃ tab f, Created wideTable "t" wideDefs tab f ∧ ∀ col ∈ tab.cols, InRecord f.fileHdr.recordSize col := by
  obtain ⟨disk,f,locks,_,_,ok,size,shape⟩ :=
    createTable_returns noTables_tracked rfl rfl rfl (by decide) (by decide) wideTable_run
  replace size : f.fileHdr.recordSize = 504 := size
  have file : wideTable.rows.files "t" = some f := by
    rw [shape]
    exact Function.update_self "t" (some f) noTables.rows.files
  have catalog : wideTable.db.tabs.find "t" = some ⟨"t",layout "t" 0 wideDefs,[]⟩ := (createTable_accepted wideTable_run).2.2
  refine ⟨_,f,⟨catalog,rfl,file,ok,by rw [size]; decide,by decide,by decide,by decide,by decide⟩,?_⟩
  rw [size]
  have adds : Adds 0 wideDefs := adds_of_lens (by decide) (by decide) (by decide)
  exact layout_inside adds (by decide) (by decide)

/-- A number and a short string come back; two strings are refused. -/
theorem wideTable_reads_back : ∃ tab f, Created wideTable "t" wideDefs tab f ∧
    (∃ next rid data f', insertExecutor (fun _ => 255) "t" [.int (-7),.str [104,105]] 1 wideTable = (.ok (),next) ∧
      f.contents rid = none ∧ next.rows.files "t" = some f' ∧ f'.contents = Function.update f.contents rid (some data) ∧
      ReadsBack "t" wideDefs tab.cols [.int (-7),.str [104,105]] data) ∧
    ∃ e, insertExecutor (fun _ => 255) "t" [.str [],.str []] 1 wideTable = (.error (.thrown (.rmdb e)),wideTable) := by
  obtain ⟨tab,f,created,inside⟩ := wideTable_created
  have returns : (insertExecutor (fun _ => 255) "t" [.int (-7),.str [104,105]] 1 wideTable).1 = .ok () := by decide +kernel
  have run := Prod.ext returns (rfl : (insertExecutor (fun _ => 255) "t" [.int (-7),.str [104,105]] 1 wideTable).2 = _)
  obtain ⟨rid,data,f',stored⟩ := (inserted_values_read_back created (fun _ => 255) [.int (-7),.str [104,105]] 1).1
    (by decide) inside _ run
  have cols : tab.cols = layout "t" 0 wideDefs := created.cols
  refine ⟨tab,f,created,⟨_,rid,data,f',run,stored⟩,?_⟩
  refine (inserted_values_read_back created (fun _ => 255) [.str [],.str []] 1).2 (by rw [cols]; rfl) ?_
  rw [cols]
  exact ⟨_,List.mem_cons_self ..,.inl (by decide)⟩

end StoredValues

end Rucbase
