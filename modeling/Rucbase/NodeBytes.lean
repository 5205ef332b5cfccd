import Rucbase.IndexCreate
import Rucbase.IxNode
import Rucbase.Lib.Memory

/-! A node of the index tree as it lies in its page: the page header, `num_key` of it at offset 8,
then the keys, each of `col_tot_len_` bytes, then the rids. `insert_pairs` and `erase_pair` shift the
two arrays inside the page. -/
namespace Rucbase.NodeBytes

open Lib IxFileHdr Mem

/-- The `Rid` in eight bytes. -/
def ridOf (bytes : List Byte) : Rid := ⟨bytesInt (bytes.take 4),bytesInt (bytes.drop 4)⟩

/-- The pairs in an array of keys and an array of rids. -/
def pairsAt (m : Mem Byte) (keys rids : Int) (len n : Nat) : List (List Byte × Rid) :=
  (m.cells keys len n).zip ((m.cells rids ridSize n).map ridOf)

section Pairs

variable {m : Mem Byte} {keys rids : Int} {len n k : Nat}

@[simp] theorem pairsAt_length : (pairsAt m keys rids len n).length = n := by simp [pairsAt]

theorem pairsAt_add : pairsAt m keys rids len (n + k) =
    pairsAt m keys rids len n ++ pairsAt m (keys + n * len) (rids + n * ridSize) len k := by
  simp only [pairsAt,cells_add,List.map_append]
  rw [List.zip_append (by simp)]

end Pairs

section Handle

variable (hdr : IxFileHdr) (page : Int) (m : Mem Byte)

def keys : Int := page + ixPageHdrSize
def rids : Int := keys page + hdr.keysSize

def getKey (keyIdx : Int) : Int := keys page + keyIdx * hdr.colTotLen
def getRid (ridIdx : Int) : Int := rids hdr page + ridIdx * ridSize

def getSize : Int := bytesInt (m.load (page + 8) 4)
def setSize (size : Int) : Mem Byte := m.store (page + 8) (intBytes size)

def insertPairs (pos key rid n : Int) : Except RMDBError (Mem Byte) :=
  if pos ≤ getSize page m ∧ pos ≥ 0 then
    let beginKey := getKey hdr page pos
    let beginRid := getRid hdr page pos
    let m := m.move (beginKey + n * hdr.colTotLen) beginKey ((getSize page m - pos) * hdr.colTotLen).toNat
    let m := m.move beginKey key (n * hdr.colTotLen).toNat
    let m := m.move (beginRid + n * ridSize) beginRid ((getSize page m - pos) * ridSize).toNat
    let m := m.move beginRid rid (n * ridSize).toNat
    .ok (setSize page m (getSize page m + n))
  else .error .assertion

def erasePair (pos : Int) : Except RMDBError (Mem Byte) :=
  if pos < getSize page m ∧ pos ≥ 0 then
    let m := m.move (getKey hdr page pos) (getKey hdr page (pos + 1)) ((getSize page m - pos - 1) * hdr.colTotLen).toNat
    let m := m.move (getRid hdr page pos) (getRid hdr page (pos + 1)) ((getSize page m - pos - 1) * ridSize).toNat
    .ok (setSize page m (getSize page m - 1))
  else .error .assertion

def node : IxNode (List Byte) where
  nextFreePageNo := bytesInt (m.load page 4)
  parent := bytesInt (m.load (page + 4) 4)
  isLeaf := m (page + 12) != 0
  prevLeaf := bytesInt (m.load (page + 16) 4)
  nextLeaf := bytesInt (m.load (page + 20) 4)
  pairs := pairsAt m (keys page) (rids hdr page) hdr.colTotLen.toNat (getSize page m).toNat

/-- The bytes outside the page, and those of the page header but `num_key`. -/
def Spared (x : Int) : Prop :=
  x < page ∨ page + pageSize ≤ x ∨ (page ≤ x ∧ x < page + 8) ∨ (page + 12 ≤ x ∧ x < page + ixPageHdrSize)

/-- An array of `size` bytes that is no part of the page. -/
def Outside (array size : Int) : Prop := array + size ≤ page ∨ page + pageSize ≤ array

end Handle

/-- What a node has to do under this header: header, keys and rids are apart inside the page, and the two
operations do to the list of pairs what their names say and leave everything else alone. -/
structure Implements (hdr : IxFileHdr) : Prop where
  keyArea : 0 ≤ hdr.keysSize ∧ ∀ i, 0 ≤ i → i ≤ hdr.btreeOrder → 0 ≤ i * hdr.colTotLen ∧ (i + 1) * hdr.colTotLen ≤ hdr.keysSize
  ridArea : ixPageHdrSize + hdr.keysSize + (hdr.btreeOrder + 1) * ridSize ≤ pageSize
  insert : ∀ (m : Mem Byte) (page key rid : Int) (pos n : Nat), pos ≤ getSize page m →
    getSize page m + n ≤ hdr.btreeOrder + 1 → Outside page key (n * hdr.colTotLen) → Outside page rid (n * ridSize) →
    ∃ next, insertPairs hdr page m pos key rid n = .ok next ∧
      node hdr page next = (node hdr page m).insertPairs pos (pairsAt m key rid hdr.colTotLen.toNat n) ∧
      ∀ x, Spared page x → next x = m x
  erase : ∀ (m : Mem Byte) (page : Int) (pos : Nat), pos < getSize page m → getSize page m ≤ hdr.btreeOrder + 1 →
    ∃ next, erasePair hdr page m pos = .ok next ∧ node hdr page next = (node hdr page m).erasePair pos ∧
      ∀ x, Spared page x → next x = m x

/-- The areas in bytes: `cap` pairs with keys of `width` bytes have room in the page. -/
structure Fits (hdr : IxFileHdr) (width cap : Nat) : Prop where
  keyWidth : hdr.colTotLen = width
  pairs : hdr.btreeOrder + 1 = cap
  keysSize : hdr.keysSize = cap * width
  room : ixPageHdrSize + cap * width + cap * ridSize ≤ pageSize

section Shift

variable {hdr : IxFileHdr} {page : Int} {m keysDone done : Mem Byte} {width cap pos n rest : Nat} {key rid : Int}

theorem area_le {used w : Nat} (most : used ≤ cap) : (used : Int) * w ≤ cap * w := by
  exact_mod_cast Nat.mul_le_mul_right w most

theorem Fits.places (fits : Fits hdr width cap) (page : Int) : keys page = page + 24 ∧ rids hdr page = page + 24 + cap * width ∧
    page + 24 + cap * width + cap * ridSize ≤ page + pageSize := by
  have room := fits.room
  refine ⟨rfl,?_,?_⟩
  · rw [rids,fits.keysSize]
    rfl
  · simp only [ixPageHdrSize,ridSize,pageSize] at room ⊢
    have area : ((cap * width : Nat) : Int) = cap * width := Nat.cast_mul cap width
    omega

theorem Fits.small (fits : Fits hdr width cap) : cap < 2 ^ 31 := by
  have room := fits.room
  simp only [ridSize,pageSize] at room
  omega

/-- The keys were shifted inside their array, and then the rids inside theirs. -/
structure Shifts (hdr : IxFileHdr) (page : Int) (width cap : Nat) (m keysDone done : Mem Byte) : Prop where
  keyPart : ∀ x, x < keys page ∨ keys page + cap * width ≤ x → keysDone x = m x
  ridPart : ∀ x, x < rids hdr page ∨ rids hdr page + cap * ridSize ≤ x → done x = keysDone x

section Shifted

variable (fits : Fits hdr width cap) (shifts : Shifts hdr page width cap m keysDone done)

include fits shifts

theorem Shifts.spared {x : Int} (other : x < page + 24 ∨ page + pageSize ≤ x) : keysDone x = m x ∧ done x = m x := by
  obtain ⟨keysAt,ridsAt,inside⟩ := fits.places page
  have area : (0 : Int) ≤ cap * width ∧ (0 : Int) ≤ cap * ridSize := ⟨by positivity,by positivity⟩
  have first := shifts.keyPart x (by omega)
  exact ⟨first,(shifts.ridPart x (by omega)).trans first⟩

theorem Shifts.sizes : getSize page keysDone = getSize page m ∧ getSize page done = getSize page m :=
  ⟨congrArg bytesInt (load_congr fun i short => (shifts.spared fits (.inl (by omega))).1),
    congrArg bytesInt (load_congr fun i short => (shifts.spared fits (.inl (by omega))).2)⟩

/-- The rids are copied after the keys were shifted, and are those of before. -/
theorem Shifts.source {a : Int} {k : Nat} (apart : rids hdr page ≤ a ∨ a + k * ridSize ≤ page) :
    keysDone.cells a ridSize k = m.cells a ridSize k := by
  obtain ⟨keysAt,ridsAt,_⟩ := fits.places page
  refine cells_same fun x low high => shifts.keyPart x ?_
  omega

theorem Shifts.resized {size : Nat} (most : size ≤ cap) :
    node hdr page (setSize page done size) = { node hdr page m with
      pairs := (keysDone.cells (keys page) width size).zip ((done.cells (rids hdr page) ridSize size).map ridOf) } ∧
      ∀ x, Spared page x → setSize page done size x = m x := by
  obtain ⟨keysAt,ridsAt,inside⟩ := fits.places page
  have small := fits.small
  have keyArea := area_le (w := width) most
  have area : (0 : Int) ≤ cap * width ∧ (0 : Int) ≤ cap * ridSize := ⟨by positivity,by positivity⟩
  have bytes : (intBytes size).length = 4 := by simp [intBytes]
  have sized {x : Int} (beside : x < page + 8 ∨ page + 12 ≤ x) : setSize page done size x = done x :=
    store_outside (by omega)
  have kept : ∀ x, Spared page x → setSize page done size x = m x := fun x other => by
    simp only [Spared,ixPageHdrSize,pageSize] at other
    rw [sized (by omega),(shifts.spared fits (by simp only [pageSize]; omega)).2]
  have count : getSize page (setSize page done size) = size := by
    rw [getSize,setSize,load_store_self bytes]
    exact bytesInt_intBytes (by omega) (by omega)
  have field (offset : Int) (inHeader : 0 ≤ offset ∧ offset + 4 ≤ 8 ∨ 12 ≤ offset ∧ offset + 4 ≤ 24) :
      (setSize page done size).load (page + offset) 4 = m.load (page + offset) 4 := by
    apply load_congr
    intro i short
    refine kept _ (.inr (.inr ?_))
    simp only [ixPageHdrSize]
    omega
  refine ⟨?_,kept⟩
  have first := field 0 (by omega)
  rw [Int.add_zero] at first
  have leaf := kept (page + 12) (.inr (.inr (.inr (by simp only [ixPageHdrSize]; omega))))
  -- keys and rids are apart, so each array is what its own shift made of it
  have keysKept : (setSize page done size).cells (keys page) width size = keysDone.cells (keys page) width size :=
    cells_same fun x low high => (sized (by omega)).trans (shifts.ridPart x (by omega))
  have ridsKept : (setSize page done size).cells (rids hdr page) ridSize size = done.cells (rids hdr page) ridSize size :=
    cells_same fun x low high => sized (by omega)
  simp only [node,count,first,leaf,field 4 (by omega),field 16 (by omega),field 20 (by omega),fits.keyWidth,
    Int.toNat_natCast,pairsAt,keysKept,ridsKept]

end Shifted

theorem Fits.pairs_cut (fits : Fits hdr width cap) (size : getSize page m = (pos + rest : Nat)) :
    (node hdr page m).pairs = pairsAt m (keys page) (rids hdr page) width pos ++
      pairsAt m (keys page + pos * width) (rids hdr page + pos * ridSize) width rest := by
  rw [node,size,fits.keyWidth,Int.toNat_natCast,Int.toNat_natCast]
  exact pairsAt_add

theorem Fits.insert (fits : Fits hdr width cap) (low : pos ≤ getSize page m) (high : getSize page m + n ≤ cap)
    (keyApart : Outside page key (n * width)) (ridApart : Outside page rid (n * ridSize)) :
    ∃ next, insertPairs hdr page m pos key rid n = .ok next ∧
      node hdr page next = (node hdr page m).insertPairs pos (pairsAt m key rid width n) ∧
      ∀ x, Spared page x → next x = m x := by
  obtain ⟨rest,size⟩ : ∃ rest : Nat, getSize page m = (pos + rest : Nat) := ⟨(getSize page m - pos).toNat,by omega⟩
  have most : pos + n + rest ≤ cap := by omega
  obtain ⟨keysAt,ridsAt,inside⟩ := fits.places page
  have keyArea := area_le (w := width) most
  have ridArea := area_le (w := ridSize) most
  push_cast [Int.add_mul] at keyArea ridArea
  have parts (w : Nat) : (0 : Int) ≤ pos * w ∧ (0 : Int) ≤ n * w ∧ (0 : Int) ≤ rest * w :=
    ⟨by positivity,by positivity,by positivity⟩
  have keyParts := parts width
  have ridParts := parts ridSize
  simp only [Outside] at keyApart ridApart
  have shifts : Shifts hdr page width cap m (m.insertCells (keys page) key width pos n rest)
      ((m.insertCells (keys page) key width pos n rest).insertCells (rids hdr page) rid ridSize pos n rest) :=
    ⟨fun x other => insertCells_outside (by omega),fun x other => insertCells_outside (by omega)⟩
  obtain ⟨resized,kept⟩ := shifts.resized fits most
  refine ⟨_,?_,resized.trans ?_,kept⟩
  · obtain ⟨sizeKeys,sizeRids⟩ := shifts.sizes fits
    have later : ((pos + rest : Nat) : Int) - pos = rest := by omega
    have moved (w : Nat) : ((rest : Int) * w).toNat = rest * w := by norm_cast
    have new (w : Nat) : ((n : Int) * w).toNat = n * w := by norm_cast
    have total : ((pos + rest : Nat) : Int) + n = (pos + n + rest : Nat) := by omega
    unfold insertCells at sizeKeys sizeRids
    unfold insertPairs
    rw [if_pos (by omega)]
    simp only [getKey,getRid,fits.keyWidth,size,later,moved,new] at sizeKeys sizeRids ⊢
    rw [sizeKeys,later,moved,sizeRids,total]
    rfl
  · have own : rids hdr page ≤ rids hdr page + pos * ridSize := by omega
    rw [cells_insertCells,cells_insertCells,shifts.source fits (.inl (Int.le_refl _)),shifts.source fits,
      shifts.source fits (.inl own),List.map_append,List.map_append,List.zip_append (by simp),List.zip_append (by simp),
      IxNode.insertPairs,fits.pairs_cut size,List.take_left' pairsAt_length,List.drop_left' pairsAt_length]
    · rfl
    all_goals omega

theorem Fits.erase (fits : Fits hdr width cap) (low : pos < getSize page m) (high : getSize page m ≤ cap) :
    ∃ next, erasePair hdr page m pos = .ok next ∧ node hdr page next = (node hdr page m).erasePair pos ∧
      ∀ x, Spared page x → next x = m x := by
  obtain ⟨rest,size⟩ : ∃ rest : Nat, getSize page m = (pos + 1 + rest : Nat) := ⟨(getSize page m - pos - 1).toNat,by omega⟩
  have most : pos + rest ≤ cap := by omega
  obtain ⟨keysAt,ridsAt,inside⟩ := fits.places page
  have keyArea := area_le (w := width) most
  have ridArea := area_le (w := ridSize) most
  push_cast [Int.add_mul] at keyArea ridArea
  have shifts : Shifts hdr page width cap m (m.eraseCells (keys page) width pos rest)
      ((m.eraseCells (keys page) width pos rest).eraseCells (rids hdr page) ridSize pos rest) :=
    ⟨fun x other => eraseCells_outside (by omega),fun x other => eraseCells_outside (by omega)⟩
  obtain ⟨resized,kept⟩ := shifts.resized fits most
  refine ⟨_,?_,resized.trans ?_,kept⟩
  · obtain ⟨sizeKeys,sizeRids⟩ := shifts.sizes fits
    have later : ((pos + 1 + rest : Nat) : Int) - pos - 1 = rest := by omega
    have moved (w : Nat) : ((rest : Int) * w).toNat = rest * w := by norm_cast
    have total : ((pos + 1 + rest : Nat) : Int) - 1 = (pos + rest : Nat) := by omega
    unfold eraseCells at sizeKeys sizeRids
    unfold erasePair
    rw [if_pos (by omega)]
    simp only [getKey,getRid,fits.keyWidth,size,later,moved] at sizeKeys sizeRids ⊢
    rw [sizeKeys,later,moved,sizeRids,total]
    rfl
  · have whole := fits.pairs_cut size
    rw [cells_eraseCells,cells_eraseCells,shifts.source fits (.inl (Int.le_refl _)),
      shifts.source fits (.inl (by simp only [ridSize]; omega)),List.map_append,List.zip_append (by simp),IxNode.erasePair,
      List.eraseIdx_eq_take_drop_succ,whole,List.drop_left' pairsAt_length,pairsAt_add,List.append_assoc,
      List.take_left' pairsAt_length]
    norm_cast

end Shift

/-- `btree_order` leaves room for one pair more than the order, and for nothing outside the page. -/
theorem initial_fits {cols : List ColMeta} (accepted : Accepted cols) (total : 0 ≤ ColMeta.totLen cols) :
    ∃ width cap, Fits (initial cols) width cap := by
  obtain ⟨width,same⟩ := Int.eq_ofNat_of_zero_le total
  have positive := accepted.order
  obtain ⟨cap,order⟩ : ∃ cap : Nat, orderFor (ColMeta.totLen cols) + 1 = cap :=
    ⟨(orderFor (ColMeta.totLen cols) + 1).toNat,by omega⟩
  refine ⟨width,cap,same,order,by rw [← same,← order]; rfl,?_⟩
  simp only [orderFor,same,pageSize,ixPageHdrSize,ridSize] at order ⊢
  have most : (cap : Int) * (width + 8) ≤ 4072 := by
    rw [← order]
    simpa using Int.ediv_mul_le (4072 : Int) (by omega : (width : Int) + 8 ≠ 0)
  have whole : ((cap * width + cap * 8 : Nat) : Int) = cap * (width + 8) := by push_cast; ring
  omega

/-- Byte-level nodes are lists of pairs exactly if the lengths of the columns add up to no negative `int`. -/
theorem nodes_implement_pairs_iff (cols : List ColMeta) (accepted : Accepted cols) :
    Implements (initial cols) ↔ 0 ≤ ColMeta.totLen cols := by
  have order : 0 < (initial cols).btreeOrder + 1 := by
    have := accepted.order
    simp only [initial]
    omega
  constructor
  · intro implements
    by_contra negative
    have area : (initial cols).keysSize < 0 := Int.mul_neg_of_pos_of_neg order (by omega)
    exact absurd implements.keyArea.1 (by omega)
  · intro total
    obtain ⟨width,cap,fits⟩ := initial_fits accepted total
    refine ⟨⟨?_,fun i low high => ?_⟩,?_,?_,?_⟩
    · rw [fits.keysSize]
      positivity
    · rw [fits.keyWidth,fits.keysSize,← fits.pairs]
      exact ⟨by positivity,Int.mul_le_mul_of_nonneg_right (by omega) (by positivity)⟩
    · rw [fits.keysSize,fits.pairs]
      exact_mod_cast fits.room
    · intro m page key rid pos n low high keyApart ridApart
      rw [fits.keyWidth] at keyApart ⊢
      rw [fits.pairs] at high
      exact fits.insert low high keyApart ridApart
    · intro m page pos low high
      exact fits.erase low (fits.pairs ▸ high)

/-- Two columns of 2^31 - 1 bytes: their lengths add up to -2. -/
def wrapped : List ColMeta := [⟨"t","a",.string,2147483647,0,false⟩,⟨"t","b",.string,2147483647,2147483647,false⟩]

/-- `create_index` takes them, and the rids of a node start in front of its page. -/
theorem wrapped_corrupts : (∀ col ∈ wrapped, 0 < col.len) ∧ Accepted wrapped ∧ ColMeta.totLen wrapped = -2 ∧
    ¬Implements (initial wrapped) := by
  refine ⟨by decide,⟨?_,by decide,by decide⟩,by decide,fun implements => absurd implements.keyArea.1 (by decide)⟩
  exact List.forall_mem_cons.mpr ⟨⟨by decide,by decide⟩,List.forall_mem_singleton.mpr ⟨by decide,by decide⟩⟩

/-- An INT and a CHAR(8). -/
def idAndName : List ColMeta := [⟨"t","id",.int,4,0,false⟩,⟨"t","name",.string,8,4,false⟩]

theorem idAndName_implemented : Implements (initial idAndName) :=
  (nodes_implement_pairs_iff idAndName ⟨List.forall_mem_cons.mpr ⟨⟨by decide,by decide⟩,
    List.forall_mem_singleton.mpr ⟨by decide,by decide⟩⟩,by decide,by decide⟩).mpr (by decide)

end Rucbase.NodeBytes
