import Rucbase.Defs
import Rucbase.Lib.Bisect
import Mathlib.Data.List.Basic
import Mathlib.Algebra.Order.Group.Nat
import Mathlib.Tactic.Ring

/-! Record pages. A page has a 4-byte log sequence number, the two integers of `RmPageHdr`,
then the bitmap and the slots, whose sizes come from the file header. Bitmap and slots are
one array of bytes here, so that their layout is part of what is proved. -/
namespace Rucbase

/-- `RmFileHdr`: the header of a table's data file. -/
structure RmFileHdr where
  recordSize : Nat
  numPages : Nat
  numRecordsPerPage : Nat
  firstFreePageNo : Int
  bitmapSize : Nat
  deriving DecidableEq, Repr

def rmNoPage : Int := -1
def rmMaxRecordSize : Int := 512
def bitmapWidth : Nat := 8

/-- `sizeof(RmFileHdr)`. -/
def rmFileHdrSize : Nat := 20

/-- What is left of a page after the sequence number and the page header. -/
abbrev bodySize : Nat := pageSize - 12

/-- The header `RmManager::create_file` writes. -/
def initialHdr (recordSize : Nat) : RmFileHdr :=
  let perPage := (bitmapWidth * (pageSize - 1 - rmFileHdrSize) + 1) / (1 + recordSize * bitmapWidth)
  { recordSize := recordSize
    numPages := 1
    numRecordsPerPage := perPage
    firstFreePageNo := rmNoPage
    bitmapSize := (perPage + bitmapWidth - 1) / bitmapWidth }

/-- Bitmap and slots fit the page, and the bitmap has a bit for every slot. -/
structure Geometry (hdr : RmFileHdr) : Prop where
  some : 0 < hdr.numRecordsPerPage
  bits : hdr.numRecordsPerPage ≤ bitmapWidth * hdr.bitmapSize
  fits : hdr.bitmapSize + hdr.numRecordsPerPage * hdr.recordSize ≤ bodySize

theorem initialHdr_geometry (recordSize : Nat) (lower : 1 ≤ recordSize) (upper : recordSize ≤ 512) :
    Geometry (initialHdr recordSize) := by
  have fit : (initialHdr recordSize).numRecordsPerPage * (1 + recordSize * 8) ≤ 32601 :=
    Nat.div_mul_le_self 32601 (1 + recordSize * 8)
  have nonzero : 1 ≤ (initialHdr recordSize).numRecordsPerPage := by
    change 1 ≤ 32601 / (1 + recordSize * 8)
    rw [Nat.le_div_iff_mul_le (by omega)]
    omega
  have size : (initialHdr recordSize).bitmapSize = ((initialHdr recordSize).numRecordsPerPage + 7) / 8 := rfl
  have width : (initialHdr recordSize).recordSize = recordSize := rfl
  have spread : (initialHdr recordSize).numRecordsPerPage * (1 + recordSize * 8) =
      (initialHdr recordSize).numRecordsPerPage +
        8 * ((initialHdr recordSize).numRecordsPerPage * recordSize) := by ring
  refine ⟨nonzero,?_,?_⟩
  · rw [size]
    simp only [bitmapWidth]
    omega
  · rw [size,width]
    simp only [bodySize,pageSize]
    omega

theorem Geometry.recordSize_le {hdr : RmFileHdr} (geometry : Geometry hdr) : hdr.recordSize ≤ pageSize := by
  have one := Nat.le_mul_of_pos_left hdr.recordSize geometry.some
  have fits := geometry.fits
  simp only [bodySize] at fits
  omega

structure RmPage where
  nextFreePageNo : Int
  numRecords : Int
  body : Fin bodySize → Byte

namespace RmPage

/-- The page `new_page` hands out: all bytes zero. -/
def zero : RmPage := ⟨0,0,fun _ => 0⟩

def byte (p : RmPage) (i : Nat) : Byte := if inside : i < bodySize then p.body ⟨i,inside⟩ else 0

/-- `memcpy` into the page; bytes past its end are lost. -/
def write (p : RmPage) (offset : Nat) (bytes : List Byte) : RmPage :=
  { p with body := fun i =>
      if offset ≤ i ∧ i < offset + bytes.length then bytes.getD (i - offset) 0 else p.body i }

def read (p : RmPage) (offset n : Nat) : List Byte := (List.range n).map fun k => p.byte (offset + k)

theorem byte_write_inside (p : RmPage) (offset i : Nat) (bytes : List Byte)
    (inside : offset ≤ i ∧ i < offset + bytes.length) (bound : i < bodySize) :
    (p.write offset bytes).byte i = bytes.getD (i - offset) 0 := by
  simp [byte,write,bound,inside]

theorem byte_write_outside (p : RmPage) (offset i : Nat) (bytes : List Byte)
    (outside : i < offset ∨ offset + bytes.length ≤ i) : (p.write offset bytes).byte i = p.byte i := by
  have apart : ¬ (offset ≤ i ∧ i < offset + bytes.length) := by omega
  simp [byte,write,apart]

theorem read_write_self (p : RmPage) (offset n : Nat) (bytes : List Byte) (size : bytes.length = n)
    (fits : offset + n ≤ bodySize) : (p.write offset bytes).read offset n = bytes := by
  apply List.ext_getElem
  · simp [read,size]
  · intro i left right
    have here := byte_write_inside p offset (offset + i) bytes (by omega) (by omega)
    simp [read,here,right]

theorem read_write_apart (p : RmPage) (a b n : Nat) (bytes : List Byte) (apart : a + bytes.length ≤ b ∨ b + n ≤ a) :
    (p.write a bytes).read b n = p.read b n := by
  apply List.map_congr_left
  intro k member
  have bound := List.mem_range.mp member
  exact byte_write_outside p a (b + k) bytes (by omega)

end RmPage

namespace Bitmap

/-- `BITMAP_HIGHEST_BIT >> pos % BITMAP_WIDTH`. -/
def getBit (pos : Nat) : Byte := 0x80 >>> UInt8.ofNat (pos % bitmapWidth)

def getBucket (pos : Nat) : Nat := pos / bitmapWidth

def isSet (p : RmPage) (pos : Nat) : Bool := p.byte (getBucket pos) &&& getBit pos ≠ 0

def set (p : RmPage) (pos : Nat) : RmPage :=
  p.write (getBucket pos) [p.byte (getBucket pos) ||| getBit pos]

def reset (p : RmPage) (pos : Nat) : RmPage :=
  p.write (getBucket pos) [p.byte (getBucket pos) &&& ~~~ getBit pos]

/-- The loop of `next_bit`, with `n` positions left from `i` on. -/
def search (bit : Bool) (p : RmPage) : Nat → Nat → Nat
  | 0, i => i
  | n + 1, i => if isSet p i = bit then i else search bit p n (i + 1)

def nextBit (bit : Bool) (p : RmPage) (maxN : Nat) (curr : Int) : Nat :=
  let start := (curr + 1).toNat
  if start ≤ maxN then search bit p (maxN - start) start else maxN

def firstBit (bit : Bool) (p : RmPage) (maxN : Nat) : Nat := nextBit bit p maxN (-1)

theorem getBit_table : ∀ i j : Fin 8, getBit i ≠ 0 ∧
    getBit i &&& getBit j = (if i = j then getBit j else 0) ∧
    ~~~ getBit i &&& getBit j = if i = j then 0 else getBit j := by decide

theorem getBit_mod (pos : Nat) : getBit (pos % 8) = getBit pos := by simp [getBit,bitmapWidth]

theorem getBit_ne_zero (pos : Nat) : getBit pos ≠ 0 := by
  rw [← getBit_mod]
  exact (getBit_table ⟨pos % 8,by omega⟩ 0).1

theorem getBit_and (i j : Nat) :
    getBit i &&& getBit j = if i % 8 = j % 8 then getBit j else 0 := by
  have entry := (getBit_table ⟨i % 8,by omega⟩ ⟨j % 8,by omega⟩).2.1
  simpa only [getBit_mod,Fin.mk.injEq] using entry

theorem getBit_and_not (i j : Nat) :
    ~~~ getBit i &&& getBit j = if i % 8 = j % 8 then 0 else getBit j := by
  have entry := (getBit_table ⟨i % 8,by omega⟩ ⟨j % 8,by omega⟩).2.2
  simpa only [getBit_mod,Fin.mk.injEq] using entry

theorem or_and (a b c : Byte) : (a ||| b) &&& c = a &&& c ||| b &&& c := by
  apply UInt8.toNat_inj.mp
  simp [Nat.and_or_distrib_right]

variable (p : RmPage) (i j : Nat)

/-- The byte of a bit inside the page is changed by a write to that bit's bucket only. -/
theorem byte_bucket (bound : getBucket i < bodySize) (b : Byte) :
    (p.write (getBucket i) [b]).byte (getBucket j) =
      if getBucket j = getBucket i then b else p.byte (getBucket j) := by
  by_cases same : getBucket j = getBucket i
  · rw [if_pos same,same,RmPage.byte_write_inside _ _ _ _ (by simp) bound]
    simp
  · rw [if_neg same,RmPage.byte_write_outside _ _ _ _ (by simp; omega)]

theorem same_bucket {i j : Nat} (bucket : getBucket j = getBucket i) : i % 8 = j % 8 ↔ j = i := by
  simp only [getBucket,bitmapWidth] at bucket
  omega

theorem set_lit {i j : Nat} (bucket : getBucket j = getBucket i) (b : Byte) :
    (b ||| getBit i) &&& getBit j ≠ 0 ↔ j = i ∨ b &&& getBit j ≠ 0 := by
  rw [or_and,getBit_and]
  by_cases same : j = i
  · have lit := getBit_ne_zero j
    simp [(same_bucket bucket).mpr same,same] at lit ⊢
    simp [lit]
  · simp [mt (same_bucket bucket).mp same,same]

theorem reset_lit {i j : Nat} (bucket : getBucket j = getBucket i) (b : Byte) :
    b &&& ~~~ getBit i &&& getBit j ≠ 0 ↔ j ≠ i ∧ b &&& getBit j ≠ 0 := by
  rw [UInt8.and_assoc,getBit_and_not]
  by_cases same : j = i
  · simp [same]
  · simp [mt (same_bucket bucket).mp same,same]

theorem isSet_set (bound : getBucket i < bodySize) :
    isSet (set p i) j = (decide (j = i) || isSet p j) := by
  simp only [isSet,set,byte_bucket p i j bound]
  by_cases bucket : getBucket j = getBucket i
  · rw [if_pos bucket,← bucket,← Bool.decide_or]
    exact decide_eq_decide.mpr (set_lit bucket _)
  · have differ : j ≠ i := fun same => bucket (by rw [same])
    simp [bucket,differ]

theorem isSet_reset (bound : getBucket i < bodySize) :
    isSet (reset p i) j = (!decide (j = i) && isSet p j) := by
  simp only [isSet,reset,byte_bucket p i j bound]
  by_cases bucket : getBucket j = getBucket i
  · rw [if_pos bucket,← bucket,← decide_not,← Bool.decide_and]
    exact decide_eq_decide.mpr (reset_lit bucket _)
  · have differ : j ≠ i := fun same => bucket (by rw [same])
    simp [bucket,differ]

theorem isSet_set_of (bound : getBucket j < bodySize) (lit : isSet p j = true) : isSet (set p i) j = true := by
  rcases Nat.lt_or_ge (getBucket i) bodySize with inside | outside
  · rw [isSet_set p i j inside,lit,Bool.or_true]
  · rw [isSet,set,RmPage.byte_write_outside _ _ _ _ (.inl (by omega))]
    exact lit

theorem isSet_reset_of (bound : getBucket j < bodySize) (apart : j ≠ i) (lit : isSet p j = true) : isSet (reset p i) j = true := by
  rcases Nat.lt_or_ge (getBucket i) bodySize with inside | outside
  · simp [isSet_reset p i j inside,lit,apart]
  · rw [isSet,reset,RmPage.byte_write_outside _ _ _ _ (.inl (by omega))]
    exact lit

theorem search_eq (bit : Bool) (n start : Nat) : search bit p n start = Lib.scan (fun k => isSet p k == bit) n start := by
  induction n generalizing start with
  | zero => rfl
  | succ n ih => simp only [search,Lib.scan,ih,beq_iff_eq]

theorem search_spec (bit : Bool) (n start : Nat) :
    start ≤ search bit p n start ∧ search bit p n start ≤ start + n ∧
    (∀ k, start ≤ k → k < search bit p n start → isSet p k ≠ bit) ∧
    (search bit p n start < start + n → isSet p (search bit p n start) = bit) := by
  rw [search_eq]
  simpa only [beq_eq_false_iff_ne,beq_iff_eq] using Lib.scan_spec (fun k => isSet p k == bit) n start

theorem firstBit_spec (bit : Bool) (maxN : Nat) : firstBit bit p maxN ≤ maxN ∧
    (∀ k, k < firstBit bit p maxN → isSet p k ≠ bit) ∧
    (firstBit bit p maxN < maxN → isSet p (firstBit bit p maxN) = bit) := by
  have spec := search_spec p bit maxN 0
  have same : firstBit bit p maxN = search bit p maxN 0 := by simp [firstBit,nextBit]
  rw [same]
  simp only [Nat.zero_add] at spec
  exact ⟨spec.2.1,fun k => spec.2.2.1 k (Nat.zero_le k),spec.2.2.2⟩

/-- The number of set bits among the first `n`. -/
def count (p : RmPage) (n : Nat) : Nat := (List.range n).countP (isSet p)

theorem count_flip (f g : Nat → Bool) (n k : Nat) (bound : k < n) (off : f k = false) (on : g k = true)
    (same : ∀ m, m ≠ k → g m = f m) : (List.range n).countP g = (List.range n).countP f + 1 := by
  induction n with
  | zero => omega
  | succ n ih =>
    rw [List.range_succ,List.countP_append,List.countP_append]
    by_cases last : k = n
    · subst k
      have before : (List.range n).countP g = (List.range n).countP f := by
        apply List.countP_congr
        intro m member
        rw [same m (by have := List.mem_range.mp member; omega)]
      simp [before,off,on]
    · have tail : [n].countP g = [n].countP f := by simp [same n (Ne.symm last)]
      rw [ih (by omega),tail]
      omega

theorem count_set (n : Nat) (bound : getBucket i < bodySize) (inside : i < n) (free : isSet p i = false) :
    count (set p i) n = count p n + 1 := by
  apply count_flip (isSet p) (isSet (set p i)) n i inside free
  · simp [isSet_set p i i bound]
  · intro m differ
    simp [isSet_set p i m bound,differ]

theorem count_reset (n : Nat) (bound : getBucket i < bodySize) (inside : i < n) (taken : isSet p i = true) :
    count p n = count (reset p i) n + 1 := by
  apply count_flip (isSet (reset p i)) (isSet p) n i inside
  · simp [isSet_reset p i i bound]
  · exact taken
  · intro m differ
    simp [isSet_reset p i m bound,differ]

theorem count_le (n : Nat) : count p n ≤ n := by
  have bounded : count p n ≤ (List.range n).length := List.countP_le_length
  simpa using bounded

theorem firstBit_free (n : Nat) (room : count p n < n) : firstBit false p n < n := by
  obtain ⟨upper,before,_⟩ := firstBit_spec p false n
  by_contra full
  have last : firstBit false p n = n := by omega
  have all : count p n = (List.range n).length := by
    rw [count,List.countP_eq_length]
    intro k member
    have := before k (by rw [last]; exact List.mem_range.mp member)
    simpa using this
  simp at all
  omega

theorem count_zero (n : Nat) : count RmPage.zero n = 0 := by
  rw [count,List.countP_eq_zero]
  intro k _
  simp [isSet,RmPage.byte,RmPage.zero]

end Bitmap

namespace RmPage

variable (hdr : RmFileHdr) (p : RmPage)

def slotOffset (slotNo : Nat) : Nat := hdr.bitmapSize + slotNo * hdr.recordSize

def getSlot (slotNo : Nat) : List Byte := p.read (slotOffset hdr slotNo) hdr.recordSize

/-- `memcpy(slot, buf, record_size)`. -/
def putSlot (slotNo : Nat) (buf : List Byte) : RmPage :=
  p.write (slotOffset hdr slotNo) (buf.take hdr.recordSize)

@[simp] theorem putSlot_nextFreePageNo (slotNo : Nat) (buf : List Byte) :
    (putSlot hdr p slotNo buf).nextFreePageNo = p.nextFreePageNo := rfl
@[simp] theorem set_nextFreePageNo (pos : Nat) :
    (Bitmap.set p pos).nextFreePageNo = p.nextFreePageNo := rfl
@[simp] theorem reset_nextFreePageNo (pos : Nat) :
    (Bitmap.reset p pos).nextFreePageNo = p.nextFreePageNo := rfl

variable {hdr}

variable {slotNo pos : Nat}

theorem slot_fits (geometry : Geometry hdr) (bound : slotNo < hdr.numRecordsPerPage) :
    slotOffset hdr slotNo + hdr.recordSize ≤ bodySize := by
  have within : (slotNo + 1) * hdr.recordSize ≤ hdr.numRecordsPerPage * hdr.recordSize :=
    Nat.mul_le_mul_right _ bound
  have fits := geometry.fits
  unfold slotOffset
  rw [Nat.succ_mul] at within
  omega

theorem bucket_inside (geometry : Geometry hdr) (bound : pos < hdr.numRecordsPerPage) :
    Bitmap.getBucket pos < hdr.bitmapSize := by
  have bits := geometry.bits
  simp only [Bitmap.getBucket,bitmapWidth] at bits ⊢
  omega

theorem bucket_bound (geometry : Geometry hdr) (bound : pos < hdr.numRecordsPerPage) :
    Bitmap.getBucket pos < bodySize := by
  have inside := bucket_inside geometry bound
  have fits := geometry.fits
  omega

theorem getSlot_putSlot_self (geometry : Geometry hdr) (bound : slotNo < hdr.numRecordsPerPage) {buf : List Byte}
    (size : buf.length = hdr.recordSize) :
    getSlot hdr (putSlot hdr p slotNo buf) slotNo = buf := by
  have whole : buf.take hdr.recordSize = buf := by rw [← size,List.take_length]
  unfold getSlot putSlot
  rw [whole]
  exact read_write_self p _ _ buf size (slot_fits geometry bound)

theorem slots_apart (hdr : RmFileHdr) {i j : Nat} (differ : i ≠ j) :
    slotOffset hdr i + hdr.recordSize ≤ slotOffset hdr j ∨ slotOffset hdr j + hdr.recordSize ≤ slotOffset hdr i := by
  have step {k l : Nat} (less : k < l) : slotOffset hdr k + hdr.recordSize ≤ slotOffset hdr l := by
    have rows : (k + 1) * hdr.recordSize ≤ l * hdr.recordSize := Nat.mul_le_mul_right _ less
    rw [Nat.succ_mul] at rows
    unfold slotOffset
    omega
  exact (Nat.lt_or_gt_of_ne differ).imp step step

theorem getSlot_putSlot_other {i j : Nat} (differ : i ≠ j) (buf : List Byte) :
    getSlot hdr (putSlot hdr p i buf) j = getSlot hdr p j := by
  apply read_write_apart
  have size : (buf.take hdr.recordSize).length ≤ hdr.recordSize := by simp
  have apart := slots_apart hdr differ
  omega

theorem isSet_putSlot (geometry : Geometry hdr) (bound : pos < hdr.numRecordsPerPage) (slotNo : Nat) (buf : List Byte) :
    Bitmap.isSet (putSlot hdr p slotNo buf) pos = Bitmap.isSet p pos := by
  have inside := bucket_inside geometry bound
  unfold Bitmap.isSet putSlot
  rw [byte_write_outside]
  unfold slotOffset
  omega

theorem count_putSlot (geometry : Geometry hdr) (slotNo : Nat) (buf : List Byte) :
    Bitmap.count (putSlot hdr p slotNo buf) hdr.numRecordsPerPage =
      Bitmap.count p hdr.numRecordsPerPage := by
  apply List.countP_congr
  intro k member
  rw [isSet_putSlot p geometry (List.mem_range.mp member)]

section Slots

variable (geometry : Geometry hdr) (bound : pos < hdr.numRecordsPerPage)

include geometry bound

theorem getSlot_bucket (b : Byte) (slotNo : Nat) :
    getSlot hdr (p.write (Bitmap.getBucket pos) [b]) slotNo = getSlot hdr p slotNo := by
  have inside := bucket_inside geometry bound
  apply read_write_apart
  left
  unfold slotOffset
  simp only [List.length_cons,List.length_nil]
  omega

theorem getSlot_set (slotNo : Nat) :
    getSlot hdr (Bitmap.set p pos) slotNo = getSlot hdr p slotNo :=
  getSlot_bucket p geometry bound _ slotNo

theorem getSlot_reset (slotNo : Nat) :
    getSlot hdr (Bitmap.reset p pos) slotNo = getSlot hdr p slotNo :=
  getSlot_bucket p geometry bound _ slotNo

end Slots

end RmPage

end Rucbase
