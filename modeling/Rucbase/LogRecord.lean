import Rucbase.Defs
import Rucbase.Lib.Memory

/-! Insert records of the log: how they are laid out by `serialize` and read again by `deserialize`. Both
count their offset in an `int`, the total length is a `uint32_t`. -/
namespace Rucbase.LogRecord

open Lib

/-- `LogType`, an enumeration over `int`. -/
inductive LogType where
  | update
  | insert
  | delete
  | begin
  | commit
  | abort
  deriving DecidableEq, Repr

def LogType.code : LogType → Int
  | .update => 0
  | .insert => 1
  | .delete => 2
  | .begin => 3
  | .commit => 4
  | .abort => 5

def invalidLsn : Int := -1

/-- `OFFSET_LOG_DATA`, behind five fields of four bytes. -/
def logHeaderSize : Nat := 20

/-- An unsigned number of `w` bytes, least significant first. -/
def natBytes (w n : Nat) : List Byte := (List.range w).map fun k => UInt8.ofNat (n / 256 ^ k)

def bytesNat (bytes : List Byte) : Nat := bytes.foldr (fun b rest => b.toNat + 256 * rest) 0

/-- An `InsertLogRecord` with the fields of its base; record and name stand for pointer and size. -/
structure InsertLogRecord where
  logType : Int
  lsn : Int
  logTotLen : Nat
  logTid : Int
  prevLsn : Int
  insertValue : List Byte
  rid : Rid
  tableName : List Byte
  deriving DecidableEq

/-- The constructor. The length is added up in a `uint32_t`. -/
def create (txnId : Int) (insertValue : List Byte) (rid : Rid) (tableName : List Byte) : InsertLogRecord where
  logType := LogType.insert.code
  lsn := invalidLsn
  logTotLen := (logHeaderSize + 4 + insertValue.length + 8 + (8 + tableName.length)) % 2 ^ 32
  logTid := txnId
  prevLsn := invalidLsn
  insertValue := insertValue
  rid := rid
  tableName := tableName

def ridBytes (rid : Rid) : List Byte := intBytes rid.pageNo ++ intBytes rid.slotNo

/-- `LogRecord::serialize`. -/
def serializeHeader (log : InsertLogRecord) (dest : Int) (m : Mem Byte) : Mem Byte :=
  let m := m.store dest (intBytes log.logType)
  let m := m.store (dest + 4) (intBytes log.lsn)
  let m := m.store (dest + 8) (natBytes 4 log.logTotLen)
  let m := m.store (dest + 12) (intBytes log.logTid)
  m.store (dest + 16) (intBytes log.prevLsn)

def serialize (log : InsertLogRecord) (dest : Int) (m : Mem Byte) : Mem Byte :=
  let m := serializeHeader log dest m
  let offset : Int := logHeaderSize
  let m := m.store (dest + offset) (intBytes log.insertValue.length)
  let offset := addInt offset 4
  let m := m.store (dest + offset) log.insertValue
  let offset := addInt offset log.insertValue.length
  let m := m.store (dest + offset) (ridBytes log.rid)
  let offset := addInt offset 8
  let m := m.store (dest + offset) (natBytes 8 log.tableName.length)
  let offset := addInt offset 8
  m.store (dest + offset) log.tableName

/-- A negative size lets `new` fail. -/
def deserialize (src : Int) (m : Mem Byte) : Option InsertLogRecord :=
  let size := bytesInt (m.load (src + logHeaderSize) 4)
  let offset := addInt (addInt logHeaderSize size) 4
  let name := addInt offset 8
  let nameSize := bytesNat (m.load (src + name) 8)
  if size < 0 then none else some
    { logType := bytesInt (m.load src 4)
      lsn := bytesInt (m.load (src + 4) 4)
      logTotLen := bytesNat (m.load (src + 8) 4)
      logTid := bytesInt (m.load (src + 12) 4)
      prevLsn := bytesInt (m.load (src + 16) 4)
      insertValue := m.load (src + logHeaderSize + 4) size.toNat
      rid := ⟨bytesInt (m.load (src + offset) 4),bytesInt (m.load (src + offset + 4) 4)⟩
      tableName := m.load (src + addInt name 8) nameSize }

/-- Exactly `log_tot_len_` bytes are written, the same whatever was there, and whatever starts with them is read
as the record. -/
def RoundTrips (log : InsertLogRecord) : Prop :=
  ∃ bytes : List Byte, bytes.length = log.logTotLen ∧ (∀ dest m, serialize log dest m = m.store dest bytes) ∧
    ∀ src m, m.load src bytes.length = bytes → deserialize src m = some log

/-- The values that the members can have. -/
structure Typed (log : InsertLogRecord) : Prop where
  logType : -2 ^ 31 ≤ log.logType ∧ log.logType < 2 ^ 31
  lsn : -2 ^ 31 ≤ log.lsn ∧ log.lsn < 2 ^ 31
  logTid : -2 ^ 31 ≤ log.logTid ∧ log.logTid < 2 ^ 31
  prevLsn : -2 ^ 31 ≤ log.prevLsn ∧ log.prevLsn < 2 ^ 31
  pageNo : -2 ^ 31 ≤ log.rid.pageNo ∧ log.rid.pageNo < 2 ^ 31
  slotNo : -2 ^ 31 ≤ log.rid.slotNo ∧ log.rid.slotNo < 2 ^ 31
  size : log.insertValue.length < 2 ^ 31
  nameSize : log.tableName.length < 2 ^ 64
  logTotLen : log.logTotLen = (40 + log.insertValue.length + log.tableName.length) % 2 ^ 32

theorem bytesNat_natBytes {w n : Nat} (fits : n < 256 ^ w) : bytesNat (natBytes w n) = n := by
  induction w generalizing n with
  | zero =>
    obtain rfl : n = 0 := by omega
    rfl
  | succ w ih =>
    have shift : natBytes (w + 1) n = UInt8.ofNat n :: natBytes w (n / 256) := by
      simp [natBytes,List.range_succ_eq_map,Function.comp_def,Nat.div_div_eq_div_mul,Nat.pow_succ']
    have less : n / 256 < 256 ^ w := by
      rw [Nat.div_lt_iff_lt_mul (by decide)]
      rwa [Nat.pow_succ] at fits
    rw [shift]
    show (UInt8.ofNat n).toNat + 256 * bytesNat (natBytes w (n / 256)) = n
    rw [ih less,UInt8.toNat_ofNat']
    omega

theorem natBytes_length (w n : Nat) : (natBytes w n).length = w := by simp [natBytes]

theorem intBytes_length (n : Int) : (intBytes n).length = 4 := by simp [intBytes]

section Fits

variable {log : InsertLogRecord}

/-- The fields in the order in which they are written. -/
def pieces (log : InsertLogRecord) : List (List Byte) :=
  [intBytes log.logType,intBytes log.lsn,natBytes 4 log.logTotLen,intBytes log.logTid,intBytes log.prevLsn,
    intBytes log.insertValue.length,log.insertValue,intBytes log.rid.pageNo,intBytes log.rid.slotNo,
    natBytes 8 log.tableName.length,log.tableName]

theorem pieces_length (log : InsertLogRecord) :
    (pieces log).flatten.length = 40 + log.insertValue.length + log.tableName.length := by
  simp [pieces,intBytes_length,natBytes_length]
  omega

/-- The offset of the name is exact or not used. -/
def Exact (log : InsertLogRecord) : Prop :=
  log.insertValue.length + 32 < 2 ^ 31 ∧ (log.tableName = [] ∨ log.insertValue.length + 40 < 2 ^ 31)

theorem store_name {log : InsertLogRecord} (exact : Exact log) (m : Mem Byte) (dest : Int) :
    m.store (dest + addInt (32 + log.insertValue.length) 8) log.tableName =
      m.store (dest + (40 + log.insertValue.length)) log.tableName := by
  rcases exact.2 with none | small
  · funext x
    simp [none,Mem.store]
  · rw [addInt_exact (by omega) (by omega)]
    congr 2
    omega

theorem serialize_eq (exact : Exact log) (dest : Int) (m : Mem Byte) :
    serialize log dest m = m.store dest (pieces log).flatten := by
  have small := exact.1
  have first : addInt (20 : Int) 4 = 24 := by decide
  have second : addInt (24 : Int) log.insertValue.length = 24 + log.insertValue.length :=
    addInt_exact (by omega) (by omega)
  have third : addInt (24 + log.insertValue.length) 8 = 32 + log.insertValue.length := by
    rw [addInt_exact (by omega) (by omega)]
    omega
  simp only [serialize,serializeHeader,logHeaderSize,Nat.cast_ofNat,first,second,third,store_name exact,pieces,ridBytes,
    List.flatten_cons,List.flatten_nil,List.append_nil,Mem.store_append,intBytes_length,natBytes_length]
  ring_nf

theorem load_name (exact : Exact log) (src : Int) (m : Mem Byte) :
    m.load (src + addInt (32 + log.insertValue.length) 8) log.tableName.length =
      m.load (src + (40 + log.insertValue.length)) log.tableName.length := by
  rcases exact.2 with none | small
  · simp [none,Mem.load]
  · rw [addInt_exact (by omega) (by omega)]
    congr 2
    omega

theorem deserialize_eq (typed : Typed log) (exact : Exact log) {src : Int} {m : Mem Byte}
    (read : m.load src (pieces log).flatten.length = (pieces log).flatten) : deserialize src m = some log := by
  have small := exact.1
  have whole := typed.size
  have field (n : Int) (before : List (List Byte)) (piece : List Byte) (after : List (List Byte))
      (split : pieces log = before ++ piece :: after) (place : before.flatten.length = n) :
      m.load (src + n) piece.length = piece := place ▸ Mem.load_piece (split ▸ read)
  have type := field 0 [] _ _ rfl rfl
  have lsn := field 4 [_] _ _ rfl (by simp [intBytes_length])
  have total := field 8 [_,_] _ _ rfl (by simp [intBytes_length])
  have tid := field 12 [_,_,_] _ _ rfl (by simp [intBytes_length,natBytes_length])
  have prev := field 16 [_,_,_,_] _ _ rfl (by simp [intBytes_length,natBytes_length])
  have size := field 20 [_,_,_,_,_] _ _ rfl (by simp [intBytes_length,natBytes_length])
  have value := field 24 [_,_,_,_,_,_] _ _ rfl (by simp [intBytes_length,natBytes_length])
  have pageNo := field (24 + log.insertValue.length) [_,_,_,_,_,_,_] _ _ rfl (by simp [intBytes_length,natBytes_length]; ring)
  have slotNo := field (24 + log.insertValue.length + 4) [_,_,_,_,_,_,_,_] _ _ rfl
    (by simp [intBytes_length,natBytes_length]; ring)
  have nameSize := field (32 + log.insertValue.length) [_,_,_,_,_,_,_,_,_] _ _ rfl
    (by simp [intBytes_length,natBytes_length]; ring)
  have name := field (40 + log.insertValue.length) [_,_,_,_,_,_,_,_,_,_] _ _ rfl
    (by simp [intBytes_length,natBytes_length]; ring)
  simp only [intBytes_length,natBytes_length,Int.add_zero] at type lsn total tid prev size pageNo slotNo nameSize
  have second : addInt (addInt 20 log.insertValue.length) 4 = 24 + log.insertValue.length := by
    have inner : addInt 20 log.insertValue.length = 20 + log.insertValue.length := addInt_exact (by omega) (by omega)
    rw [inner,addInt_exact (by omega) (by omega)]
    omega
  have third : addInt (24 + log.insertValue.length) 8 = 32 + log.insertValue.length := by
    rw [addInt_exact (by omega) (by omega)]
    omega
  have int {n : Int} (range : -2 ^ 31 ≤ n ∧ n < 2 ^ 31) : bytesInt (intBytes n) = n := bytesInt_intBytes range.1 range.2
  have count : bytesNat (natBytes 4 log.logTotLen) = log.logTotLen :=
    bytesNat_natBytes (by rw [typed.logTotLen]; exact Nat.mod_lt _ (by decide))
  have word : bytesNat (natBytes 8 log.tableName.length) = log.tableName.length := bytesNat_natBytes typed.nameSize
  have length : bytesInt (intBytes log.insertValue.length) = log.insertValue.length := int (by omega)
  rw [Int.add_assoc] at slotNo
  rw [← load_name exact] at name
  simp only [deserialize,logHeaderSize,Nat.cast_ofNat,size,length,second,third,type,lsn,total,count,tid,prev,pageNo,
    Int.add_assoc,Int.reduceAdd,value,slotNo,nameSize,word,name,Int.toNat_natCast,int typed.logType,int typed.lsn,
    int typed.logTid,int typed.prevLsn,int typed.pageNo,int typed.slotNo]
  exact if_neg (by omega)

theorem written_inside {bytes : List Byte} (stores : ∀ dest m, serialize log dest m = m.store dest bytes) {x : Int} {b : Byte}
    (writes : ∀ m, serialize log 0 m x = b) : 0 ≤ x ∧ x < bytes.length := by
  by_contra outside
  have kept := writes fun _ => b + 1
  rw [stores,Mem.store_outside (by omega)] at kept
  simp at kept

theorem serialize_end (log : InsertLogRecord) (m : Mem Byte) : ∃ mem : Mem Byte, serialize log 0 m =
    (mem.store (addInt (addInt 24 log.insertValue.length) 8) (natBytes 8 log.tableName.length)).store
      (addInt (addInt (addInt 24 log.insertValue.length) 8) 8) log.tableName := by
  have first : addInt (20 : Int) 4 = 24 := by decide
  simp only [serialize,logHeaderSize,Nat.cast_ofNat,first,Int.zero_add]
  exact ⟨_,rfl⟩

theorem nameSize_place (size : log.insertValue.length < 2 ^ 31) : addInt (addInt 24 log.insertValue.length) 8 =
    if log.insertValue.length + 32 < 2 ^ 31 then (32 + log.insertValue.length : Int)
    else 32 + log.insertValue.length - 2 ^ 32 := by
  simp only [addInt,Int.bmod_def]
  split <;> omega

theorem name_place (size : log.insertValue.length < 2 ^ 31) :
    addInt (addInt (addInt 24 log.insertValue.length) 8) 8 =
      if log.insertValue.length + 40 < 2 ^ 31 then (40 + log.insertValue.length : Int)
      else 40 + log.insertValue.length - 2 ^ 32 := by
  rw [nameSize_place size]
  simp only [addInt,Int.bmod_def]
  split <;> split <;> omega

/-- A byte of the name is written to its place, whatever was there. -/
theorem name_written {i : Nat} (inside : i < log.tableName.length) (m : Mem Byte) :
    serialize log 0 m (addInt (addInt (addInt 24 log.insertValue.length) 8) 8 + i) = log.tableName[i] := by
  obtain ⟨mem,same⟩ := serialize_end log m
  rw [same,Mem.store_inside inside]

theorem RoundTrips.small (size : log.insertValue.length < 2 ^ 31) (trips : RoundTrips log) :
    log.insertValue.length + 32 < 2 ^ 31 := by
  obtain ⟨bytes,_,stores,_⟩ := trips
  by_contra large
  have place := nameSize_place size
  have next := name_place size
  rw [if_neg (by omega)] at place next
  have some : 0 < (natBytes 8 log.tableName.length).length := by rw [natBytes_length]; decide
  have inside := written_inside stores fun m => by
    obtain ⟨mem,same⟩ := serialize_end log m
    rw [same,Mem.store_outside (x := addInt (addInt 24 log.insertValue.length) 8 + (0 : Nat)) (.inl (by omega)),
      Mem.store_inside some]
  omega

theorem RoundTrips.bounds (size : log.insertValue.length < 2 ^ 31) (trips : RoundTrips log) :
    Exact log ∧ (log.tableName = [] ∨ log.insertValue.length + 40 < 2 ^ 31 ∧
      40 + log.insertValue.length + log.tableName.length ≤ log.logTotLen) := by
  have small := trips.small size
  obtain ⟨bytes,total,stores,_⟩ := trips
  by_cases none : log.tableName = []
  · exact ⟨⟨small,.inl none⟩,.inl none⟩
  · have some := List.length_pos_of_ne_nil none
    have first := written_inside stores (name_written some)
    have last := written_inside stores (name_written (Nat.sub_lt some Nat.one_pos))
    have place := name_place size
    have low : log.insertValue.length + 40 < 2 ^ 31 := by
      by_contra large
      rw [if_neg large] at place
      omega
    rw [if_pos low] at place
    exact ⟨⟨small,.inr low⟩,.inr ⟨low,by omega⟩⟩

theorem roundTrips_iff (typed : Typed log) :
    RoundTrips log ↔ Exact log ∧ 40 + log.insertValue.length + log.tableName.length < 2 ^ 32 := by
  have total := typed.logTotLen
  have size := typed.size
  constructor
  · intro trips
    obtain ⟨exact,none | ⟨_,upTo⟩⟩ := trips.bounds size
    · exact ⟨exact,by rw [none]; simp only [List.length_nil]; omega⟩
    · exact ⟨exact,by omega⟩
  · rintro ⟨exact,fits⟩
    exact ⟨(pieces log).flatten,by rw [pieces_length]; omega,serialize_eq exact,fun src m read => deserialize_eq typed exact read⟩

end Fits

section Insert

/-- The record the constructor makes, with the sequence numbers it gets later. -/
def insertLog (txnId lsn prevLsn : Int) (rid : Rid) (value name : List Byte) : InsertLogRecord :=
  { create txnId value rid name with lsn := lsn, prevLsn := prevLsn }

variable {txnId lsn prevLsn : Int} {rid : Rid} {value name : List Byte}

/-- An insert record is read back if and only if no offset passes the largest `int` and the length fits its
four bytes. -/
theorem insert_round_trips_iff (ints : ∀ n ∈ [txnId,lsn,prevLsn,rid.pageNo,rid.slotNo], -2 ^ 31 ≤ n ∧ n < 2 ^ 31)
    (size : value.length < 2 ^ 31) (nameSize : name.length < 2 ^ 64) :
    RoundTrips (insertLog txnId lsn prevLsn rid value name) ↔
      (value.length + 32 < 2 ^ 31 ∧ (name = [] ∨ value.length + 40 < 2 ^ 31)) ∧ 40 + value.length + name.length < 2 ^ 32 := by
  simp only [List.forall_mem_cons] at ints
  obtain ⟨tid,first,second,pageNo,slotNo,_⟩ := ints
  exact roundTrips_iff
    { logType := show -2 ^ 31 ≤ (1 : Int) ∧ (1 : Int) < 2 ^ 31 by decide
      lsn := first, logTid := tid, prevLsn := second, pageNo := pageNo, slotNo := slotNo, size := size
      nameSize := nameSize
      logTotLen := by
        show (20 + 4 + value.length + 8 + (8 + name.length)) % 2 ^ 32 = (40 + value.length + name.length) % 2 ^ 32
        congr 1
        omega }

theorem shortRow_round_trips : RoundTrips (insertLog 7 12 11 ⟨1,3⟩ [1,2,3,4] [116]) :=
  (insert_round_trips_iff (by decide) (by decide) (by decide)).mpr (by decide)

theorem largestRow_lost : ¬ RoundTrips (insertLog 7 12 11 ⟨1,3⟩ (List.replicate 2147483647 0) [116]) := by
  have length : (List.replicate 2147483647 (0 : Byte)).length = 2147483647 := List.length_replicate
  intro trips
  have small := trips.small (length.trans_lt (by decide))
  have value : (insertLog 7 12 11 ⟨1,3⟩ (List.replicate 2147483647 0) [116]).insertValue.length = 2147483647 := length
  omega

end Insert

end Rucbase.LogRecord
