import Rucbase.IndexReopen
import Rucbase.DescriptorReuse
import Mathlib.Algebra.Order.BigOperators.Group.List
import Mathlib.Data.List.GetD

/-! An index file that one process creates and opens: the handle has the header that was
written, and the page counter stands behind the pages that were written. -/
namespace Rucbase

open Lib Lib.Prog DiskManager BufferPool IxManager IxFileHdr Os

theorem getD_flatMap_words (words : List Int) {k i : Nat} (small : i < 4) (inside : k < words.length) :
    (words.flatMap intBytes).getD (4 * k + i) 0 = (intBytes (words.getD k 0)).getD i 0 := by
  induction words generalizing k with
  | nil => simp at inside
  | cons w rest ih =>
    have size : (intBytes w).length = 4 := by simp [intBytes]
    rw [List.flatMap_cons]
    cases k with
    | zero =>
      rw [List.getD_append _ _ _ _ (by omega)]
      simp
    | succ k =>
      rw [List.getD_append_right _ _ _ _ (by omega),size]
      have shift : 4 * (k + 1) + i - 4 = 4 * k + i := by omega
      rw [shift,ih (by simpa using inside)]
      simp

theorem bytesInt_words {words : List Int} {n : Nat} {src : Fin n → Byte} (fits : 4 * words.length ≤ n)
    (written : ∀ i : Fin n, (i : Nat) < 4 * words.length → src i = (words.flatMap intBytes).getD i 0) {k : Nat}
    (inside : k < words.length) (low : -2 ^ 31 ≤ words.getD k 0) (high : words.getD k 0 < 2 ^ 31) :
    bytesInt ((List.range 4).map fun i => if inside : 4 * k + i < n then src ⟨4 * k + i,inside⟩ else 0) =
      words.getD k 0 := by
  have bytes : (List.range 4).map (fun i =>
      if inside : 4 * k + i < n then src ⟨4 * k + i,inside⟩ else 0) = intBytes (words.getD k 0) := by
    apply List.ext_getElem
    · simp [intBytes]
    · intro i short _
      have small : i < 4 := by simpa using short
      have there : 4 * k + i < n := by omega
      have byte := getD_flatMap_words words small inside
      rw [List.getD_eq_getElem (intBytes _) 0 (by simpa [intBytes] using small)] at byte
      simp only [List.getElem_map,List.getElem_range,there,↓reduceDIte]
      rw [written _ (by simp; omega)]
      exact byte
  rw [bytes,bytesInt_intBytes low high]

variable {d : DiskManager} {inode : Nat} {path : Path} {α : Type}

namespace IxFileHdr

theorem getD_append_at (a b : List α) (i : Nat) (d : α) : (a ++ b).getD (a.length + i) d = b.getD i d := by
  rw [List.getD_append_right _ _ _ _ (Nat.le_add_right _ _),Nat.add_sub_cancel_left]

theorem ofCode_code (type : ColType) : ColType.ofCode type.code = type := by
  cases type <;> rfl

/-- Columns an index may have: lengths that are not negative, 512 bytes in all, and a header of
one page. -/
structure FitsHeader (cols : List ColMeta) : Prop where
  lens : ∀ col ∈ cols, 0 ≤ col.len
  short : (cols.map ColMeta.len).sum ≤ ixMaxColLen
  page : 40 + 8 * cols.length ≤ pageSize

instance (cols : List ColMeta) : Decidable (FitsHeader cols) :=
  decidable_of_iff ((∀ col ∈ cols, 0 ≤ col.len) ∧ (cols.map ColMeta.len).sum ≤ ixMaxColLen ∧
    40 + 8 * cols.length ≤ pageSize) ⟨fun ⟨a,b,c⟩ => ⟨a,b,c⟩,fun ⟨a,b,c⟩ => ⟨a,b,c⟩⟩

variable {cols : List ColMeta}

theorem total_nonneg (lens : ∀ col ∈ cols, 0 ≤ col.len) : 0 ≤ (cols.map ColMeta.len).sum :=
  List.sum_nonneg (by simpa using lens)

theorem len_le_total (lens : ∀ col ∈ cols, 0 ≤ col.len) {col : ColMeta} (member : col ∈ cols) :
    col.len ≤ (cols.map ColMeta.len).sum :=
  List.single_le_sum (by simpa using lens) _ (List.mem_map_of_mem member)

theorem totLen_exact (lens : ∀ col ∈ cols, 0 ≤ col.len) (small : (cols.map ColMeta.len).sum < 2 ^ 31) :
    ColMeta.totLen cols = (cols.map ColMeta.len).sum := by
  suffices from_any : ∀ start : Int, 0 ≤ start → start + (cols.map ColMeta.len).sum < 2 ^ 31 →
      cols.foldl (fun total col => addInt total col.len) start = start + (cols.map ColMeta.len).sum by
    rw [ColMeta.totLen,from_any 0 (by decide) (by omega),Int.zero_add]
  clear small
  induction cols with
  | nil => exact fun start _ _ => (Int.add_zero start).symm
  | cons col cols ih =>
    obtain ⟨here,later⟩ := List.forall_mem_cons.mp lens
    have total := total_nonneg later
    intro start positive small
    rw [List.map_cons,List.sum_cons] at small ⊢
    rw [List.foldl_cons,addInt_exact (by omega) (by omega),ih later _ (by omega) (by omega),Int.add_assoc]

theorem orderFor_bounds {total : Int} (low : 0 ≤ total) (high : total ≤ ixMaxColLen) :
    6 ≤ orderFor total ∧ orderFor total ≤ 508 := by
  simp only [ixMaxColLen,orderFor,pageSize,ixPageHdrSize,ridSize] at *
  have least : 7 ≤ ((4096 : Nat) - (24 : Nat) : Int) / (total + (8 : Nat)) :=
    (Int.le_ediv_iff_mul_le (by omega)).mpr (by omega)
  have most : ((4096 : Nat) - (24 : Nat) : Int) / (total + (8 : Nat)) < 510 :=
    (Int.ediv_lt_iff_lt_mul (by omega)).mpr (by omega)
  omega

def IsInt (n : Int) : Prop := -2 ^ 31 ≤ n ∧ n < 2 ^ 31

structure Accepted (cols : List ColMeta) : Prop where
  ints : ∀ col ∈ cols, IsInt col.len
  short : ColMeta.totLen cols ≤ ixMaxColLen
  order : orderFor (ColMeta.totLen cols) > 2

theorem FitsHeader.total (fits : FitsHeader cols) : ColMeta.totLen cols = (cols.map ColMeta.len).sum := by
  have short := fits.short
  simp only [ixMaxColLen] at short
  exact totLen_exact fits.lens (by omega)

theorem FitsHeader.accepted (fits : FitsHeader cols) : Accepted cols := by
  have total := total_nonneg fits.lens
  have short := fits.short
  refine ⟨fun col member => ?_,fits.total ▸ short,?_⟩
  · have := fits.lens col member
    have := len_le_total fits.lens member
    simp only [ixMaxColLen] at short
    exact ⟨by omega,by omega⟩
  · have := (orderFor_bounds total short).1
    rw [fits.total]
    omega

/-- A key of no negative size leaves room for three pairs. -/
theorem Accepted.total (accepted : Accepted cols) : -8 < ColMeta.totLen cols := by
  have order := accepted.order
  by_contra low
  simp only [orderFor,pageSize,ixPageHdrSize,ridSize] at order
  have none : ((4096 : Nat) - (24 : Nat) : Int) / (ColMeta.totLen cols + (8 : Nat)) ≤ 0 :=
    Int.ediv_nonpos_of_nonneg_of_nonpos (by omega) (by omega)
  omega

/-- The header as it is between two calls: one type and one length for each column, the size of
its bytes, and nothing that is not an `int`. -/
structure Typed (hdr : IxFileHdr) : Prop where
  types : hdr.colTypes.length = hdr.colNum
  lens : hdr.colLens.length = hdr.colNum
  size : hdr.totLen = 40 + 8 * hdr.colNum
  ints : ∀ w ∈ hdr.words, IsInt w

section Typed

variable {hdr : IxFileHdr} (typed : Typed hdr)

include typed

theorem Typed.words_length : hdr.words.length = 10 + 2 * hdr.colNum := by
  have types := typed.types
  have lens := typed.lens
  simp [words,types,lens]
  omega

/-- The bytes written are as many as `tot_len_` says. -/
theorem Typed.serialize : hdr.serialize = .ok (hdr.words.flatMap intBytes) := by
  rw [IxFileHdr.serialize,if_pos]
  rw [typed.words_length,typed.size]
  push_cast
  omega

theorem Typed.bytes_length : ((hdr.words.flatMap intBytes).length : Int) = hdr.totLen := by
  have count := typed.words_length
  have size : (hdr.words.flatMap intBytes).length = 4 * hdr.words.length := by
    simp [List.length_flatMap,intBytes,Nat.mul_comm]
  rw [size,typed.size]
  omega

theorem Typed.word_bounded (k : Nat) : IsInt (hdr.words.getD k 0) := by
  by_cases inside : k < hdr.words.length
  · rw [List.getD_eq_getElem _ 0 inside]
    exact typed.ints _ (List.getElem_mem inside)
  · rw [List.getD_eq_default _ 0 (by omega)]
    exact ⟨by decide,by decide⟩

theorem Typed.deserialize (page : 40 + 8 * hdr.colNum ≤ pageSize) {src : PageData}
    (written : ∀ i : Fin pageSize, (i : Nat) < 4 * hdr.words.length → src i = (hdr.words.flatMap intBytes).getD i 0) :
    deserialize src = .ok hdr := by
  have count := typed.words_length
  have room : 4 * hdr.words.length ≤ pageSize := by omega
  have word {k : Nat} (inside : k < 10 + 2 * hdr.colNum) : wordAt src k = hdr.words.getD k 0 :=
    bytesInt_words room written (by omega) (typed.word_bounded k).1 (typed.word_bounded k).2
  have colNum : (wordAt src 4).toNat = hdr.colNum := by
    rw [word (by omega)]
    simp [words]
  let front : List Int := [hdr.totLen,hdr.firstFreePageNo,hdr.numPages,hdr.rootPage,(hdr.colNum : Int)]
  let codes := hdr.colTypes.map ColType.code
  let back : List Int := [hdr.colTotLen,hdr.btreeOrder,hdr.keysSize,hdr.firstLeaf,hdr.lastLeaf]
  have shape : hdr.words = front ++ codes ++ hdr.colLens ++ back := rfl
  have codesLength : codes.length = hdr.colNum := by simpa [codes] using typed.types
  have lensLength := typed.lens
  have first (i : Nat) (small : i < 5) : wordAt src i = front.getD i 0 := by
    rw [word (by omega),shape,List.append_assoc,List.append_assoc]
    exact List.getD_append _ _ _ _ small
  have types (i : Nat) (small : i < hdr.colTypes.length) :
      ColType.ofCode (wordAt src (5 + i)) = hdr.colTypes.get ⟨i,small⟩ := by
    have inside : i < codes.length := by simpa [codes] using small
    have at_code := getD_append_at front (codes ++ (hdr.colLens ++ back)) i 0
    rw [word (by omega),shape,List.append_assoc,List.append_assoc,show 5 + i = front.length + i from rfl,at_code,
      List.getD_append _ _ _ _ inside,List.getD_eq_getElem _ _ inside]
    simp [codes,ofCode_code]
  have lens (i : Nat) (small : i < hdr.colLens.length) : wordAt src (5 + hdr.colNum + i) = hdr.colLens.get ⟨i,small⟩ := by
    have at_len := getD_append_at (front ++ codes) (hdr.colLens ++ back) i 0
    rw [word (by omega),shape,List.append_assoc (front ++ codes),
      show 5 + hdr.colNum + i = (front ++ codes).length + i by simp [front,codesLength]; omega,at_len,
      List.getD_append _ _ _ _ small,List.getD_eq_getElem _ _ small]
    rfl
  have tail (i : Nat) (small : i < 5) : wordAt src (5 + 2 * hdr.colNum + i) = back.getD i 0 := by
    rw [word (by omega),shape,← getD_append_at (front ++ codes ++ hdr.colLens) back i 0]
    congr 1
    simp [front,codesLength,lensLength]
    omega
  have typeList : (List.range hdr.colNum).map (fun i => ColType.ofCode (wordAt src (5 + i))) = hdr.colTypes := by
    apply List.ext_getElem
    · simp [typed.types]
    · intro i _ small
      simpa using types i small
  have lenList : (List.range hdr.colNum).map (fun i => wordAt src (5 + hdr.colNum + i)) = hdr.colLens := by
    apply List.ext_getElem
    · simp [lensLength]
    · intro i _ small
      simpa using lens i small
  have last : 4 * ((5 + 2 * hdr.colNum : Nat) + 5 : Int) = hdr.totLen := by
    rw [typed.size]
    push_cast
    omega
  simp only [IxFileHdr.deserialize,colNum,typeList,lenList]
  rw [first 0 (by omega),first 1 (by omega),first 2 (by omega),first 3 (by omega)]
  rw [← Nat.add_zero (5 + 2 * hdr.colNum),tail 0 (by omega),Nat.add_zero,tail 1 (by omega),tail 2 (by omega),
    tail 3 (by omega),tail 4 (by omega)]
  exact if_pos last

end Typed

theorem initial_typed (accepted : Accepted cols) (page : 40 + 8 * cols.length ≤ pageSize) : Typed (initial cols) := by
  have short := accepted.short
  have low := accepted.total
  have least := accepted.order
  simp only [pageSize,ixMaxColLen] at page short
  have most : orderFor (ColMeta.totLen cols) ≤ 4071 := by
    simp only [orderFor,pageSize,ixPageHdrSize,ridSize]
    have : ((4096 : Nat) - (24 : Nat) : Int) / (ColMeta.totLen cols + (8 : Nat)) < 4073 :=
      (Int.ediv_lt_iff_lt_mul (by omega)).mpr (by omega)
    omega
  have product : -2 ^ 31 ≤ (orderFor (ColMeta.totLen cols) + 1) * ColMeta.totLen cols ∧
      (orderFor (ColMeta.totLen cols) + 1) * ColMeta.totLen cols < 2 ^ 31 := by
    have high := Int.mul_le_mul_of_nonneg_left short (by omega : 0 ≤ orderFor (ColMeta.totLen cols) + 1)
    have deep := Int.mul_le_mul_of_nonneg_left (by omega : -7 ≤ ColMeta.totLen cols)
      (by omega : 0 ≤ orderFor (ColMeta.totLen cols) + 1)
    constructor <;> omega
  refine ⟨by simp [initial],by simp [initial],by simp only [initial]; omega,fun w member => ?_⟩
  simp only [words,initial,List.mem_append,List.mem_cons,List.mem_map,List.not_mem_nil,or_false] at member
  rcases member with ((h | ⟨type,⟨col,_,rfl⟩,rfl⟩) | ⟨col,among,rfl⟩) | h
  · simp only [ixNoPage,ixInitNumPages,ixInitRootPage] at h
    exact ⟨by omega,by omega⟩
  · cases col.type <;> simp [ColType.code,IsInt]
  · exact accepted.ints col among
  · simp only [ixInitRootPage] at h
    exact ⟨by omega,by omega⟩

end IxFileHdr

theorem Os.lowestFree_again (o : OpenFile) (fds : List (Option OpenFile)) :
    lowestFree ((placeLowest o fds).set (lowestFree fds) none) = lowestFree fds := by
  induction fds with
  | nil => rfl
  | cons head rest ih =>
    cases head with
    | none => rfl
    | some other => simp [placeLowest,lowestFree,ih]

/-- A file open for writing on what was the lowest free descriptor of `fds`. -/
structure Building (d : DiskManager) (fds : List (Option OpenFile)) (path : Path) (inode : Nat) (f : File) : Prop where
  placed : d.os.fds = placeLowest ⟨inode,true⟩ fds
  dir : d.os.dir path = some inode
  path2fd : d.path2fd path = some (lowestFree fds : Int)
  fd2path : d.fd2path (lowestFree fds) = some path
  content : d.os.inodes inode = f

namespace Building

variable {d : DiskManager} {fds : List (Option OpenFile)} {path : Path} {inode : Nat} {f : File}

theorem file (building : Building d fds path inode f) : d.os.file (lowestFree fds) = some ⟨inode,true⟩ := by
  unfold Os.file
  rw [building.placed]
  simp [getElem?_placeLowest]

theorem write (building : Building d fds path inode f) (pageNo : Nat) {n : Nat} (data : Fin n → Byte) :
    ∃ next, writePage (lowestFree fds) pageNo data d = (.ok (),next) ∧ next.fd2pageno = d.fd2pageno ∧
      Building next fds path inode (f.write (pageNo * pageSize) data) := by
  refine ⟨{ d with os := d.os.setInode inode (f.write (pageNo * pageSize) data) },?_,rfl,
    building.placed,building.dir,building.path2fd,building.fd2path,by simp⟩
  simp [writePage,bind_run,building.file,check,building.content]

theorem close (building : Building d fds path inode f) :
    ∃ next, closeFile (lowestFree fds) d = (.ok (),next) ∧ lowestFree next.os.fds = lowestFree fds ∧
      next.os.dir path = some inode ∧ next.path2fd path = none ∧ next.fd2path (lowestFree fds) = none ∧
      next.os.inodes inode = f ∧ next.fd2pageno = d.fd2pageno := by
  refine ⟨⟨d.os.close (lowestFree fds),Function.update d.path2fd path none,
    Function.update d.fd2path (lowestFree fds) none,d.fd2pageno⟩,?_,?_,building.dir,by simp,by simp,
    building.content,rfl⟩
  · simp [closeFile,bind_run,building.fd2path]
  · simp [Os.close,building.placed,Os.lowestFree_again]

end Building

theorem openFile_building (there : d.os.dir path = some inode) (closed : d.path2fd path = none)
    (free : d.fd2path (lowestFree d.os.fds) = none) :
    ∃ next, openFile path d = (.ok (lowestFree d.os.fds : Int),next) ∧ next.fd2pageno = d.fd2pageno ∧
      Building next d.os.fds path inode (d.os.inodes inode) := by
  refine ⟨⟨(d.os.openInode inode true).2,Function.update d.path2fd path (some (lowestFree d.os.fds : Int)),
    Function.update d.fd2path (lowestFree d.os.fds) (some path),d.fd2pageno⟩,?_,rfl,rfl,there,by simp,by simp,rfl⟩
  simp [openFile,bind_run,closed,there,openInode,emplace_absent,free]

theorem readPage_building {fds : List (Option OpenFile)} {f : File} (building : Building d fds path inode f)
    (pageNo n : Nat) (long : pageNo * pageSize + n ≤ f.size) :
    readPage (lowestFree fds) pageNo n d = (.ok (f.slice (pageNo * pageSize) n),d) := by
  have readable : d.readable (lowestFree fds) pageNo n = true := by
    simp [readable,building.file,building.content,long]
  simp [readPage,bind_run,check,readable,building.file,building.content]

theorem DiskManager.Tracked.lowestFree_unnamed (tracked : d.Tracked) : d.fd2path (lowestFree d.os.fds) = none := by
  cases taken : d.fd2path (lowestFree d.os.fds) with
  | none => rfl
  | some other =>
    have opened := tracked.opened _ _ ((tracked.inverse other _).mpr taken)
    have free := file_lowest d.os 0 true
    simp only [openInode] at free
    rw [free] at opened
    contradiction

theorem createOpen_building (tracked : d.Tracked) (missing : d.isFile path = false) :
    ∃ made opened, createFile path d = (.ok (),made) ∧ openFile path made = (.ok (lowestFree made.os.fds : Int),opened) ∧
      Building opened made.os.fds path d.os.nextInode File.empty := by
  have shape : createFile path d = (.ok (),{ d with os := (d.os.creat path).2 }) := by
    simp [createFile,bind_run,missing]
  rcases createFile_run path d with ⟨e,failed⟩ | ⟨made,created,absent,leaves,maps⟩
  · rw [shape] at failed
    cases failed
  have same : made = { d with os := (d.os.creat path).2 } := congrArg Prod.snd (created.symm.trans shape)
  have there : made.os.dir path = some d.os.nextInode := by simp [same,creat,openInode]
  have empty : made.os.inodes d.os.nextInode = File.empty := by simp [same,creat,openInode]
  have closed : made.path2fd path = none := by rw [maps]; exact tracked.named path absent
  obtain ⟨opened,opening,_,building⟩ := openFile_building there closed (leaves tracked).1.lowestFree_unnamed
  rw [empty] at building
  exact ⟨made,opened,created,opening,building⟩

/-- The file `create_index` writes. -/
def indexImage (cols : List ColMeta) : File :=
  ((File.empty.write 0 (buffer ((initial cols).words.flatMap intBytes))).write (1 * pageSize)
    (initialLeaf ixInitRootPage)).write (2 * pageSize) (initialLeaf ixLeafHeaderPage)

theorem indexImage_size (cols : List ColMeta) : 3 * pageSize ≤ (indexImage cols).size := by
  simp only [indexImage,File.write]
  omega

theorem indexImage_header (cols : List ColMeta) (i : Fin pageSize)
    (inside : (i : Nat) < 4 * (initial cols).words.length) :
    (indexImage cols).slice (0 * pageSize) pageSize i =
      ((initial cols).words.flatMap intBytes).getD i 0 := by
  have size : ((initial cols).words.flatMap intBytes).length =
      4 * (initial cols).words.length := by
    simp [List.length_flatMap,intBytes,Nat.mul_comm]
  have small : (i : Nat) < ((initial cols).words.flatMap intBytes).length := by rw [size]; exact inside
  have bound := i.isLt
  rw [List.getD_eq_getElem _ _ small]
  rw [indexImage,File.slice_write_apart _ _ _ _ (.inr (by omega)),File.slice_write_apart _ _ _ _ (.inr (by omega))]
  have within : 0 ≤ 0 * pageSize + (i : Nat) ∧
      0 * pageSize + (i : Nat) < 0 + ((initial cols).words.flatMap intBytes).length := by omega
  refine (dif_pos within).trans ?_
  simp [buffer]

theorem serialize_initial (cols : List ColMeta) :
    (initial cols).serialize = .ok ((initial cols).words.flatMap intBytes) := by
  have count : (initial cols).words.length = 10 + 2 * cols.length := by
    simp [words,initial]
    omega
  rw [serialize,if_pos]
  rw [count]
  simp only [initial]
  push_cast
  omega

theorem onDisk_run {call : DiskCall α} {s : BufferPool} {result : Except RMDBError α} {disk : DiskManager}
    (run : call s.disk = (result,disk)) : onDisk call s = (result,{ s with disk := disk }) := by
  simp [onDisk,run]

theorem liftError_run {result : Except RMDBError α} {a : α} {s : BufferPool} (fine : result = .ok a) :
    liftError result s = (.ok a,s) := by
  rw [fine]
  rfl

theorem openIndex_header (pool : BufferPool) (there : pool.disk.os.dir path = some inode)
    (closed : pool.disk.path2fd path = none) (unnamed : pool.disk.fd2path (lowestFree pool.disk.os.fds) = none)
    (long : pageSize ≤ (pool.disk.os.inodes inode).size) {hdr : IxFileHdr} (typed : hdr.Typed)
    (page : 40 + 8 * hdr.colNum ≤ pageSize)
    (written : ∀ i : Fin pageSize, (i : Nat) < 4 * hdr.words.length →
      (pool.disk.os.inodes inode).slice (0 * pageSize) pageSize i = (hdr.words.flatMap intBytes).getD i 0) :
    ∃ h opened, openIndex path pool = (.ok h,{ pool with disk := opened }) ∧ h.hdr = .index hdr ∧
      opened.fd2pageno h.fd = pool.disk.fd2pageno (lowestFree pool.disk.os.fds) + 1 := by
  obtain ⟨middle,opening,counters,building⟩ := openFile_building there closed unnamed
  have start := readPage_building building 0 8 (by simp only [pageSize] at long; omega)
  have whole := readPage_building building 0 pageSize (by omega)
  have parsed := typed.deserialize page written
  let fd : Int := lowestFree pool.disk.os.fds
  let counted := { middle with fd2pageno := Function.update middle.fd2pageno fd (middle.fd2pageno fd + 1) }
  refine ⟨⟨fd,.index hdr⟩,counted,?_,rfl,?_⟩
  · refine (bind_ok (onDisk_run opening)).trans ?_
    refine (bind_ok (onDisk_run start)).trans ?_
    refine (bind_ok (onDisk_run whole)).trans ?_
    refine (bind_ok (liftError_run parsed)).trans ?_
    rfl
  · simp [counted,fd,counters]

section CreateOpen

variable {pool : BufferPool} {path : Path} {cols : List ColMeta} (tracked : pool.disk.Tracked)
  (missing : pool.disk.isFile path = false) (accepted : IxFileHdr.Accepted cols)

include tracked missing accepted

theorem ixCreateIndex_run : ∃ disk, createIndex path cols pool = (.ok (),{ pool with disk := disk }) ∧
    disk.os.dir path = some pool.disk.os.nextInode ∧ disk.path2fd path = none ∧
    disk.fd2path (lowestFree disk.os.fds) = none ∧
    disk.os.inodes pool.disk.os.nextInode = indexImage cols ∧
    disk.fd2pageno (lowestFree disk.os.fds) = ixInitNumPages - 1 := by
  obtain ⟨made,opened,created,opening,building⟩ := createOpen_building tracked missing
  obtain ⟨one,writing,_,building⟩ := building.write 0 (buffer ((initial cols).words.flatMap intBytes))
  obtain ⟨two,writingOne,_,building⟩ := building.write 1 (initialLeaf ixInitRootPage)
  obtain ⟨three,writingTwo,_,building⟩ := building.write 2 (initialLeaf ixLeafHeaderPage)
  let counted := { three with fd2pageno := Function.update three.fd2pageno (lowestFree made.os.fds) (ixInitNumPages - 1) }
  have building : Building counted made.os.fds path pool.disk.os.nextInode (indexImage cols) := by
    refine ⟨building.placed,building.dir,building.path2fd,building.fd2path,?_⟩
    simpa [indexImage] using building.content
  obtain ⟨final,closing,again,entry,gone,unnamed,bytes,counters⟩ := building.close
  refine ⟨final,?_,entry,gone,by rw [again]; exact unnamed,bytes,by rw [again,counters]; simp [counted]⟩
  refine (bind_ok (onDisk_run created)).trans ?_
  refine (bind_ok (onDisk_run opening)).trans ?_
  refine (bind_ok (check_run (decide_eq_true accepted.short) _ _)).trans ?_
  refine (bind_ok (check_run (decide_eq_true accepted.order) _ _)).trans ?_
  refine (bind_ok (liftError_run (serialize_initial cols))).trans ?_
  refine (bind_ok (onDisk_run writing)).trans ?_
  refine (bind_ok (onDisk_run writingOne)).trans ?_
  refine (bind_ok (onDisk_run writingTwo)).trans ?_
  exact onDisk_run closing

theorem ixCreateOpen_run (page : 40 + 8 * cols.length ≤ pageSize) : ∃ disk h opened,
    createIndex path cols pool = (.ok (),{ pool with disk := disk }) ∧
    openIndex path { pool with disk := disk } = (.ok h,{ pool with disk := opened }) ∧
    h.hdr = .index (initial cols) ∧ opened.fd2pageno h.fd = ixInitNumPages ∧ disk.isFile path = true := by
  obtain ⟨disk,creating,entry,closed,unnamed,bytes,counter⟩ := ixCreateIndex_run tracked missing accepted
  have long := indexImage_size cols
  obtain ⟨h,opened,opening,header,counted⟩ := openIndex_header { pool with disk := disk } entry closed unnamed
    (by rw [bytes]; omega) (initial_typed accepted page) page fun i inside => by
      rw [bytes]
      exact indexImage_header cols i inside
  refine ⟨disk,h,opened,creating,opening,header,?_,by simp [isFile,entry]⟩
  rw [counted,counter]
  rfl

end CreateOpen

def DirGrows (d next : DiskManager) : Prop := ∀ path, d.isFile path = true → next.isFile path = true

theorem dirGrows_frame : Frame DirGrows :=
  ⟨fun _ _ here => here,fun _ _ _ first second path here => second path (first path here)⟩

theorem dirGrows_same {next : DiskManager} (same : next.os.dir = d.os.dir) : DirGrows d next := fun path here => by
  rwa [isFile,same]

theorem createFile_grows (path : Path) : Within DirGrows (createFile path) := by
  refine dirGrows_frame.bind dirGrows_frame.state fun s => ?_
  split
  · exact dirGrows_frame.raise _
  · refine Within.update fun d other here => ?_
    by_cases same : other = path <;> simp_all [isFile,creat,openInode]

theorem openFile_grows (path : Path) : Within DirGrows (openFile path) := by
  intro d
  apply dirGrows_same
  cases opened : d.path2fd path with
  | some fd => simp [openFile,after,bind_run,opened]
  | none =>
    cases found : d.os.dir path with
    | none => simp [openFile,after,bind_run,opened,found]
    | some inode => simp [openFile,after,bind_run,opened,found,openInode]

theorem closeFile_grows (fd : Int) : Within DirGrows (closeFile fd) := by
  intro d
  apply dirGrows_same
  cases named : d.fd2path fd <;> simp [closeFile,after,bind_run,named,close]

/-- A call of the pool that keeps the maps of open files right and removes no file. -/
def Grows (s next : BufferPool) : Prop := DirGrows s.disk next.disk

theorem grows_frame : Frame Grows :=
  ⟨fun s => dirGrows_frame.refl s.disk,fun _ _ _ first second => dirGrows_frame.trans _ _ _ first second⟩

theorem onDisk_grows {call : DiskManager.DiskCall α} (grows : Within DirGrows call) :
    Within Grows (BufferPool.onDisk call) := fun s => grows s.disk

theorem sameFiles_grows {call : DiskManager.DiskCall α} (same : Within DiskManager.SameFiles call) :
    Within Grows (BufferPool.onDisk call) := onDisk_grows fun d => dirGrows_same (same d).dir

theorem liftError_grows (result : Except RMDBError α) : Within Grows (BufferPool.liftError result) := by
  cases result with
  | ok a => exact grows_frame.pure a
  | error e => exact grows_frame.raise e

theorem createIndex_parts (path : Path) (cols : List ColMeta) : ∃ rest : Unit → BufferPool.PoolCall Unit,
    createIndex path cols = BufferPool.onDisk (createFile path) >>= rest ∧ ∀ a, Within Grows (rest a) := by
  refine ⟨_,rfl,fun _ => ?_⟩
  refine grows_frame.bind (onDisk_grows (openFile_grows path)) fun fd => ?_
  refine grows_frame.bind (grows_frame.check _ _) fun _ => ?_
  refine grows_frame.bind (grows_frame.check _ _) fun _ => ?_
  refine grows_frame.bind (liftError_grows _) fun data => ?_
  refine grows_frame.bind (sameFiles_grows (writePage_same _ _ _)) fun _ => ?_
  refine grows_frame.bind (sameFiles_grows (writePage_same _ _ _)) fun _ => ?_
  refine grows_frame.bind (sameFiles_grows (writePage_same _ _ _)) fun _ => ?_
  refine grows_frame.bind (onDisk_grows fun d => dirGrows_same rfl) fun _ => ?_
  exact onDisk_grows (closeFile_grows fd)

theorem createIndex_grows (path : Path) (cols : List ColMeta) : Within Grows (createIndex path cols) := by
  obtain ⟨rest,shape,grows⟩ := createIndex_parts path cols
  rw [shape]
  exact grows_frame.bind (onDisk_grows (createFile_grows path)) grows

theorem openIndex_grows (path : Path) : Within Grows (openIndex path) := by
  refine grows_frame.bind (onDisk_grows (openFile_grows path)) fun fd => ?_
  refine grows_frame.bind (sameFiles_grows (readPage_same _ _ _)) fun _ => ?_
  refine grows_frame.bind (sameFiles_grows (readPage_same _ _ _)) fun buf => ?_
  refine grows_frame.bind (liftError_grows _) fun hdr => ?_
  refine grows_frame.bind (onDisk_grows fun d => dirGrows_same rfl) fun nowPageNo => ?_
  exact grows_frame.bind (onDisk_grows fun d => dirGrows_same rfl) fun _ => grows_frame.pure _

theorem openIndex_tracked (path : Path) (s : BufferPool) (tracked : s.disk.Tracked) :
    ((openIndex path).after s).disk.Tracked := by
  rcases BufferPool.ixOpenIndex_run path tracked with ⟨e,next,run,failed⟩ | ⟨h,inode,next,run,opened⟩
  · rw [after,run]
    exact failed.tracked
  · rw [after,run]
    exact opened.tracked

end Rucbase
