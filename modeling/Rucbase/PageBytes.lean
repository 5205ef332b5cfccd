import Rucbase.RecordPage
import Rucbase.Lib.Memory
import Mathlib.Order.Interval.Set.Disjoint
import Mathlib.Data.Int.ConditionallyCompleteOrder
import Mathlib.Order.CompletePartialOrder

/-! Record pages as the bytes they are: where header, bitmap and slots lie, and the bitmap's operations
with the conversions between char and int that they pass through. Chars are signed, so the first bit of
a byte is its sign. -/
namespace Rucbase.PageBytes

open Lib
open Bitmap (getBucket)

/-- A char promoted to int. -/
def widen (c : Byte) : BitVec 32 := c.toBitVec.signExtend 32

/-- An int converted to char. -/
def narrow (v : BitVec 32) : Byte := ⟨v.setWidth 8⟩

/-- `BITMAP_HIGHEST_BIT` is unsigned, the result a char. -/
def getBit (pos : Nat) : Byte := narrow (0x80#32 >>> (pos % bitmapWidth))

section Bitmap

variable (bm : Int) (m : Mem Byte)

def isSet (pos : Nat) : Bool := widen (m (bm + getBucket pos)) &&& widen (getBit pos) ≠ 0

def set (pos : Nat) : Mem Byte :=
  m.store (bm + getBucket pos) [narrow (widen (m (bm + getBucket pos)) ||| widen (getBit pos))]

def reset (pos : Nat) : Mem Byte :=
  m.store (bm + getBucket pos) [narrow (widen (m (bm + getBucket pos)) &&& widen (narrow (~~~ widen (getBit pos))))]

def nextBit (bit : Bool) (maxN : Nat) (curr : Int) : Nat :=
  let start := (curr + 1).toNat
  if start ≤ maxN then scan (fun i => isSet bm m i == bit) (maxN - start) start else maxN

def firstBit (bit : Bool) (maxN : Nat) : Nat := nextBit bm m bit maxN (-1)

/-- The least position after `curr` whose bit is `bit`, or `maxN` if there is none. -/
def Next (bit : Bool) (maxN : Nat) (curr : Int) (found : Nat) : Prop :=
  IsLeast {k : Nat | curr < k ∧ k < maxN ∧ isSet bm m k = bit} found ∨
    found = maxN ∧ ∀ k : Nat, curr < k → k < maxN → isSet bm m k ≠ bit

end Bitmap

section Handle

variable (hdr : RmFileHdr) (page : Int)

/-- The log sequence number has four bytes, `RmPageHdr` eight. -/
def bitmap : Int := page + 8 + 4

def slots : Int := bitmap page + hdr.bitmapSize

def getSlot (slotNo : Nat) : Int := slots hdr page + slotNo * hdr.recordSize

/-- `memcpy(slot, buf, record_size)`. -/
def putSlot (m : Mem Byte) (slotNo : Nat) (buf : List Byte) : Mem Byte :=
  m.store (getSlot hdr page slotNo) (buf.take hdr.recordSize)

def pageBytes : Set Int := Set.Ico page (page + pageSize)

def headerBytes : Set Int := Set.Ico page (bitmap page)

def bitmapBytes : Set Int := Set.Ico (bitmap page) (slots hdr page)

def slotBytes (slotNo : Nat) : Set Int := Set.Ico (getSlot hdr page slotNo) (getSlot hdr page slotNo + hdr.recordSize)

/-- What does not interfere on a record page under this header. -/
structure Separate : Prop where
  headerArea : headerBytes page ⊆ pageBytes page ∧ Disjoint (headerBytes page) (bitmapBytes hdr page)
  bitmapArea : bitmapBytes hdr page ⊆ pageBytes page
  slotArea : ∀ i < hdr.numRecordsPerPage, slotBytes hdr page i ⊆ pageBytes page ∧
    Disjoint (headerBytes page) (slotBytes hdr page i) ∧ Disjoint (bitmapBytes hdr page) (slotBytes hdr page i)
  slotsApart : ∀ i < hdr.numRecordsPerPage, ∀ j < hdr.numRecordsPerPage, i ≠ j →
    Disjoint (slotBytes hdr page i) (slotBytes hdr page j)
  setOnly : ∀ (m : Mem Byte), ∀ i < hdr.numRecordsPerPage,
    (∀ j, isSet (bitmap page) (set (bitmap page) m i) j = (decide (j = i) || isSet (bitmap page) m j)) ∧
      ∀ x ∉ bitmapBytes hdr page, set (bitmap page) m i x = m x
  resetOnly : ∀ (m : Mem Byte), ∀ i < hdr.numRecordsPerPage,
    (∀ j, isSet (bitmap page) (reset (bitmap page) m i) j = (!decide (j = i) && isSet (bitmap page) m j)) ∧
      ∀ x ∉ bitmapBytes hdr page, reset (bitmap page) m i x = m x
  nextFound : ∀ (m : Mem Byte) (bit : Bool) (maxN : Nat) (curr : Int), -1 ≤ curr →
    Next (bitmap page) m bit maxN curr (nextBit (bitmap page) m bit maxN curr)
  firstFound : ∀ (m : Mem Byte) (bit : Bool) (maxN : Nat),
    Next (bitmap page) m bit maxN (-1) (firstBit (bitmap page) m bit maxN)
  putOnly : ∀ (m : Mem Byte), ∀ i < hdr.numRecordsPerPage, ∀ buf : List Byte, hdr.recordSize ≤ buf.length →
    (putSlot hdr page m i buf).load (getSlot hdr page i) hdr.recordSize = buf.take hdr.recordSize ∧
      (∀ x ∈ headerBytes page ∪ bitmapBytes hdr page, putSlot hdr page m i buf x = m x) ∧
      ∀ j < hdr.numRecordsPerPage, i ≠ j → ∀ x ∈ slotBytes hdr page j, putSlot hdr page m i buf x = m x

end Handle

section Chars

theorem narrow_widen (c : Byte) : narrow (widen c) = c := by
  apply UInt8.toBitVec_inj.mp
  apply BitVec.eq_of_getLsbD_eq
  intro i inside
  rw [narrow,widen,BitVec.getLsbD_setWidth,BitVec.getLsbD_signExtend]
  simp [inside,show i < 32 by omega]

theorem narrow_or (a b : Byte) : narrow (widen a ||| widen b) = a ||| b := by
  rw [← narrow_widen (a ||| b)]
  simp only [narrow,widen,UInt8.toBitVec_or,BitVec.signExtend_or]

theorem narrow_and (a b : Byte) : narrow (widen a &&& widen b) = a &&& b := by
  rw [← narrow_widen (a &&& b)]
  simp only [narrow,widen,UInt8.toBitVec_and,BitVec.signExtend_and]

theorem narrow_not (a : Byte) : narrow (~~~ widen a) = ~~~ a := by
  rw [← narrow_widen (~~~ a)]
  simp only [narrow,widen,UInt8.toBitVec_not,BitVec.signExtend_not (show 0 < 8 by decide)]

theorem widen_and_eq_zero (a b : Byte) : widen a &&& widen b = 0 ↔ a &&& b = 0 := by
  constructor
  · intro none
    rw [← narrow_and,none]
    rfl
  · intro none
    have wide : widen (a &&& b) = widen a &&& widen b := by
      simp only [widen,UInt8.toBitVec_and,BitVec.signExtend_and]
    rw [← wide,none]
    rfl

/-- The shift is of an unsigned, so the mask is the byte with that one bit. -/
theorem getBit_eq (pos : Nat) : getBit pos = Bitmap.getBit pos := by
  have table : ∀ i : Fin 8, getBit i = Bitmap.getBit i := by decide
  have entry := table ⟨pos % 8,Nat.mod_lt _ (by decide)⟩
  rw [Bitmap.getBit_mod] at entry
  rw [← entry]
  simp only [getBit,bitmapWidth,Nat.mod_mod]

end Chars

section Bits

variable {bm : Int} {m : Mem Byte}

theorem isSet_eq (pos : Nat) : isSet bm m pos = decide (m (bm + getBucket pos) &&& Bitmap.getBit pos ≠ 0) := by
  rw [isSet,getBit_eq]
  exact decide_eq_decide.mpr (not_congr (widen_and_eq_zero _ _))

theorem set_eq (pos : Nat) :
    set bm m pos = m.store (bm + getBucket pos) [m (bm + getBucket pos) ||| Bitmap.getBit pos] := by
  rw [set,narrow_or,getBit_eq]

theorem reset_eq (pos : Nat) :
    reset bm m pos = m.store (bm + getBucket pos) [m (bm + getBucket pos) &&& ~~~ Bitmap.getBit pos] := by
  rw [reset,narrow_and,narrow_not,getBit_eq]

theorem store_bucket (i j : Nat) (b : Byte) : m.store (bm + getBucket i) [b] (bm + getBucket j) =
    if getBucket j = getBucket i then b else m (bm + getBucket j) := by
  by_cases same : getBucket j = getBucket i
  · rw [if_pos same,same]
    simp [Mem.store]
  · rw [if_neg same,Mem.store_outside (by simp only [List.length_singleton]; omega)]

theorem isSet_set (i j : Nat) : isSet bm (set bm m i) j = (decide (j = i) || isSet bm m j) := by
  simp only [isSet_eq,set_eq,store_bucket]
  by_cases bucket : getBucket j = getBucket i
  · rw [if_pos bucket,← bucket,← Bool.decide_or]
    exact decide_eq_decide.mpr (Bitmap.set_lit bucket _)
  · have differ : j ≠ i := fun same => bucket (by rw [same])
    simp [bucket,differ]

theorem isSet_reset (i j : Nat) : isSet bm (reset bm m i) j = (!decide (j = i) && isSet bm m j) := by
  simp only [isSet_eq,reset_eq,store_bucket]
  by_cases bucket : getBucket j = getBucket i
  · rw [if_pos bucket,← bucket,← decide_not,← Bool.decide_and]
    exact decide_eq_decide.mpr (Bitmap.reset_lit bucket _)
  · have differ : j ≠ i := fun same => bucket (by rw [same])
    simp [bucket,differ]

theorem nextBit_next (bit : Bool) (maxN : Nat) {curr : Int} (low : -1 ≤ curr) :
    Next bm m bit maxN curr (nextBit bm m bit maxN curr) := by
  obtain ⟨start,after⟩ : ∃ start : Nat, curr + 1 = start := ⟨(curr + 1).toNat,by omega⟩
  unfold nextBit
  simp only [after,Int.toNat_natCast]
  split
  · rename_i within
    obtain ⟨first,last,before,found⟩ := scan_spec (fun i => isSet bm m i == bit) (maxN - start) start
    simp only [beq_eq_false_iff_ne,beq_iff_eq] at before found
    rcases Nat.lt_or_ge (scan (fun i => isSet bm m i == bit) (maxN - start) start) maxN with hit | miss
    · refine .inl ⟨⟨by omega,hit,found (by omega)⟩,fun k ⟨above,_,here⟩ => ?_⟩
      by_contra less
      exact before k (by omega) (by omega) here
    · exact .inr ⟨by omega,fun k above below => before k (by omega) (by omega)⟩
  · exact .inr ⟨rfl,fun k above below => by omega⟩

end Bits

section Areas

variable {hdr : RmFileHdr} {page : Int} {m : Mem Byte}

theorem getSlot_eq (slotNo : Nat) : getSlot hdr page slotNo = bitmap page + RmPage.slotOffset hdr slotNo := by
  simp only [getSlot,slots,RmPage.slotOffset,Nat.cast_add,Nat.cast_mul,Int.add_assoc]

theorem slot_inside (page : Int) (geometry : Geometry hdr) {i : Nat} (bound : i < hdr.numRecordsPerPage) :
    slots hdr page ≤ getSlot hdr page i ∧ getSlot hdr page i + hdr.recordSize ≤ page + pageSize := by
  have fits := RmPage.slot_fits geometry bound
  have behind : hdr.bitmapSize ≤ RmPage.slotOffset hdr i := Nat.le_add_right _ _
  rw [getSlot_eq]
  simp only [slots,bitmap,bodySize,pageSize] at fits ⊢
  omega

theorem slots_disjoint {i j : Nat} (differ : i ≠ j) : Disjoint (slotBytes hdr page i) (slotBytes hdr page j) := by
  have apart := RmPage.slots_apart hdr differ
  refine Set.Ico_disjoint_Ico.mpr ?_
  rw [getSlot_eq,getSlot_eq]
  omega

theorem store_bit (geometry : Geometry hdr) {i : Nat} (bound : i < hdr.numRecordsPerPage) (b : Byte) {x : Int}
    (outside : x ∉ bitmapBytes hdr page) : m.store (bitmap page + getBucket i) [b] x = m x := by
  have inside := RmPage.bucket_inside geometry bound
  apply Mem.store_outside
  simp only [bitmapBytes,slots,Set.mem_Ico,List.length_singleton] at outside ⊢
  omega

theorem putSlot_outside (m : Mem Byte) {i : Nat} (buf : List Byte) {x : Int} (outside : x ∉ slotBytes hdr page i) :
    putSlot hdr page m i buf x = m x := by
  have size : (buf.take hdr.recordSize).length ≤ hdr.recordSize := by simp
  apply Mem.store_outside
  simp only [slotBytes,Set.mem_Ico] at outside
  omega

theorem separate (page : Int) (geometry : Geometry hdr) : Separate hdr page where
  headerArea := by
    refine ⟨Set.Ico_subset_Ico (Int.le_refl _) ?_,Set.Ico_disjoint_Ico.mpr (by omega)⟩
    simp only [bitmap,pageSize]
    omega
  bitmapArea := by
    have fits := geometry.fits
    refine Set.Ico_subset_Ico ?_ ?_ <;> simp only [slots,bitmap,bodySize,pageSize] at fits ⊢ <;> omega
  slotArea i bound := by
    have inside := slot_inside page geometry bound
    refine ⟨Set.Ico_subset_Ico ?_ inside.2,Set.Ico_disjoint_Ico.mpr ?_,Set.Ico_disjoint_Ico.mpr ?_⟩ <;>
      simp only [slots,bitmap] at inside ⊢ <;> omega
  slotsApart i _ j _ differ := slots_disjoint differ
  setOnly m i bound := ⟨isSet_set i,fun x outside => store_bit geometry bound _ outside⟩
  resetOnly m i bound := ⟨isSet_reset i,fun x outside => store_bit geometry bound _ outside⟩
  nextFound m bit maxN curr low := nextBit_next bit maxN low
  firstFound m bit maxN := nextBit_next bit maxN (Int.le_refl _)
  putOnly m i bound buf long := by
    have inside := slot_inside page geometry bound
    refine ⟨Mem.load_store_self (by simpa using long),fun x before => putSlot_outside m buf ?_,
      fun j _ differ x there => putSlot_outside m buf ?_⟩
    · simp only [headerBytes,bitmapBytes,slotBytes,slots,bitmap,Set.mem_union,Set.mem_Ico] at before inside ⊢
      omega
    · exact Set.disjoint_right.mp (slots_disjoint differ) there

/-- For every record size that `create_file` accepts, the page it lays out keeps its parts apart. -/
theorem record_pages_separate (recordSize : Int) (accepted : ¬(recordSize < 1 ∨ recordSize > rmMaxRecordSize))
    (page : Int) : Separate (initialHdr recordSize.toNat) page := by
  simp only [rmMaxRecordSize] at accepted
  exact separate page (initialHdr_geometry _ (by omega) (by omega))

theorem largest_separate : Separate (initialHdr 512) 0 := record_pages_separate 512 (by decide) 0

end Areas

section Page

variable {hdr : RmFileHdr} {page : Int} {m : Mem Byte}

def rmPage (page : Int) (m : Mem Byte) : RmPage where
  nextFreePageNo := bytesInt (m.load (page + 4) 4)
  numRecords := bytesInt (m.load (page + 8) 4)
  body i := m (bitmap page + (i : Nat))

theorem rmPage_store (offset : Nat) (bytes : List Byte) :
    rmPage page (m.store (bitmap page + offset) bytes) = (rmPage page m).write offset bytes := by
  have word {a : Int} (low : a + 4 ≤ bitmap page) : (m.store (bitmap page + offset) bytes).load a 4 = m.load a 4 :=
    Mem.load_store_apart (.inl (by push_cast; omega))
  simp only [rmPage,RmPage.write,word (a := page + 4) (by simp only [bitmap]; omega),
    word (a := page + 8) (by simp only [bitmap]; omega),RmPage.mk.injEq,true_and]
  funext i
  split
  · rename_i inside
    have place : bitmap page + ((i : Nat) : Int) = bitmap page + offset + (i - offset : Nat) := by omega
    rw [place,Mem.store_inside (by omega),List.getD_eq_getElem?_getD,List.getElem?_eq_getElem (by omega)]
    rfl
  · exact Mem.store_outside (by omega)

theorem rmPage_byte (page : Int) (m : Mem Byte) {i : Nat} (inside : i < bodySize) :
    (rmPage page m).byte i = m (bitmap page + i) := dif_pos inside

theorem rmPage_calls (geometry : Geometry hdr) {pos : Nat} (bound : pos < hdr.numRecordsPerPage) (buf : List Byte) :
    isSet (bitmap page) m pos = Bitmap.isSet (rmPage page m) pos ∧
      rmPage page (set (bitmap page) m pos) = Bitmap.set (rmPage page m) pos ∧
      rmPage page (reset (bitmap page) m pos) = Bitmap.reset (rmPage page m) pos ∧
      rmPage page (putSlot hdr page m pos buf) = RmPage.putSlot hdr (rmPage page m) pos buf := by
  have byte := rmPage_byte page m (RmPage.bucket_bound geometry bound)
  refine ⟨?_,?_,?_,?_⟩
  · rw [isSet_eq,Bitmap.isSet,byte]
  · rw [set_eq,rmPage_store,Bitmap.set,byte]
  · rw [reset_eq,rmPage_store,Bitmap.reset,byte]
  · rw [putSlot,getSlot_eq,rmPage_store,RmPage.putSlot]

inductive PageCall where
  | set
  | reset
  | putSlot (buf : List Byte)

def onBytes (hdr : RmFileHdr) (page : Int) (m : Mem Byte) : Nat × PageCall → Mem Byte
  | (pos,.set) => set (bitmap page) m pos
  | (pos,.reset) => reset (bitmap page) m pos
  | (pos,.putSlot buf) => putSlot hdr page m pos buf

def onPage (hdr : RmFileHdr) (p : RmPage) : Nat × PageCall → RmPage
  | (pos,.set) => Bitmap.set p pos
  | (pos,.reset) => Bitmap.reset p pos
  | (pos,.putSlot buf) => RmPage.putSlot hdr p pos buf

/-- The calls leave the bytes of the page they leave in the model. -/
theorem page_bytes_refine (geometry : Geometry hdr) (page : Int) (m : Mem Byte) (calls : List (Nat × PageCall))
    (inside : ∀ call ∈ calls, call.1 < hdr.numRecordsPerPage) :
    rmPage page (calls.foldl (onBytes hdr page) m) = calls.foldl (onPage hdr) (rmPage page m) := by
  induction calls generalizing m with
  | nil => rfl
  | cons call rest ih =>
    obtain ⟨here,others⟩ := List.forall_mem_cons.mp inside
    obtain ⟨pos,call⟩ := call
    rw [List.foldl_cons,List.foldl_cons,ih _ others]
    cases call with
    | set => rw [onBytes,onPage,(rmPage_calls geometry here []).2.1]
    | reset => rw [onBytes,onPage,(rmPage_calls geometry here []).2.2.1]
    | putSlot buf => rw [onBytes,onPage,(rmPage_calls geometry here buf).2.2.2]

/-- A row is stored in the last slot, another before it is stored and erased. -/
def storeErase : List (Nat × PageCall) :=
  [(6,.set),(6,.putSlot (List.replicate 512 0xff)),(5,.set),(5,.putSlot (List.replicate 512 7)),(5,.reset)]

theorem storeErase_refines : rmPage 8192 (storeErase.foldl (onBytes (initialHdr 512) 8192) fun _ => 0x2a) =
    storeErase.foldl (onPage (initialHdr 512)) (rmPage 8192 fun _ => 0x2a) :=
  page_bytes_refine (initialHdr_geometry 512 (by decide) (by decide)) 8192 _ storeErase (by decide)

end Page

end Rucbase.PageBytes
