import Rucbase.IndexBalance
import Rucbase.IxCompare
import Mathlib.Data.List.Find

/-! Runs of `insert_entry` on a fresh index: the index is a map from keys to the record
positions first given for them, and its pages form a B+ tree. -/
namespace Rucbase.IndexTree

open Lib Lib.BTree IxIndexHandle
open IndexFile (store)

variable {κ L : Type} [LinearOrder L]

/-- The leaf list's header page and the first root, as `create_index` writes them. -/
def leafHeaderNode : IxNode κ := ⟨ixNoPage,ixNoPage,true,ixInitRootPage,ixInitRootPage,[]⟩

def initRootNode : IxNode κ := ⟨ixNoPage,ixNoPage,true,ixLeafHeaderPage,ixLeafHeaderPage,[]⟩

/-- An index just created and opened. `page0` is what the bytes of the file header page give
when they are read as a node. -/
def created (page0 : IxNode κ) (hdr : IxFileHdr) : IndexFile κ where
  hdr := hdr
  pages p :=
    if p = ixFileHdrPage then some page0
    else if p = ixLeafHeaderPage then some leafHeaderNode
    else if p = ixInitRootPage then some initRootNode
    else none
  nextPage := ixInitNumPages

/-- The header of a fresh index, for any order. `create_index` computes the order from the
length of the columns. -/
def createdHdr (cols : List ColMeta) (order : Nat) : IxFileHdr :=
  { IxFileHdr.initial cols with
    btreeOrder := order, keysSize := (order + 1 : Int) * (IxFileHdr.initial cols).colTotLen }

def insertAll (cmp : κ → κ → Int) : List (κ × Rid) → Prog (IndexFile κ) RMDBError (List Bool)
  | [] => pure []
  | (key,value) :: rest => do
    let added ← insertEntry store cmp key value
    let others ← insertAll cmp rest
    pure (added :: others)

section Map

variable {cmp : κ → κ → Int} {rank : κ → L} {proper : κ → Prop} {order : Nat}

theorem fresh_indexed {s : IndexFile κ} (listed : s.pages ixLeafHeaderPage = some leafHeaderNode)
    (rooted : s.pages ixInitRootPage = some initRootNode) (counter : s.nextPage = ixInitNumPages)
    (root : s.hdr.rootPage = ixInitRootPage) (ordered : s.hdr.btreeOrder = order)
    (first : s.hdr.firstLeaf = ixInitRootPage) (last : s.hdr.lastLeaf = ixInitRootPage) :
    Indexed rank proper order s ⟨0,⟨ixInitRootPage,[]⟩⟩ := by
  constructor
  · exact congrArg (Option.map _) rooted
  · exact root
  · exact ordered
  · exact ⟨nofun,Nat.zero_le _,Nat.zero_le _,trivial⟩
  · exact .nil
  · exact nofun
  · exact List.nodup_singleton _
  · rw [counter]
    exact List.forall_mem_singleton.mpr ⟨Int.le_refl 2,Int.lt_succ 2⟩
  · have listLinks : s.links ixLeafHeaderPage = some (ixInitRootPage,ixInitRootPage) := congrArg (Option.map _) listed
    have rootLinks : s.links ixInitRootPage = some (ixLeafHeaderPage,ixLeafHeaderPage) := congrArg (Option.map _) rooted
    exact ⟨congrArg (Option.map _) listLinks,congrArg (Option.map _) rootLinks,congrArg (Option.map _) rootLinks,
      congrArg (Option.map _) listLinks,trivial⟩
  · exact congrArg some first.symm
  · exact congrArg some last.symm

theorem created_indexed (page0 : IxNode κ) {hdr : IxFileHdr} (root : hdr.rootPage = ixInitRootPage)
    (ordered : hdr.btreeOrder = order) (first : hdr.firstLeaf = ixInitRootPage) (last : hdr.lastLeaf = ixInitRootPage) :
    Indexed rank proper order (created page0 hdr) ⟨0,⟨ixInitRootPage,[]⟩⟩ :=
  fresh_indexed rfl rfl rfl root ordered first last

/-- The file indexes the pairs `done`, the first one for each key. -/
def Stores (rank : κ → L) (proper : κ → Prop) (order : Nat) (s : IndexFile κ) (done : List (κ × Rid)) : Prop :=
  ∃ r, Indexed rank proper order s r ∧ ∀ key, lookup rank r.entries key = lookup rank done key

theorem lookup_append (l r : List (κ × Rid)) (key : κ) :
    lookup rank (l ++ r) key = (lookup rank l key).or (lookup rank r key) := by
  rw [lookup,List.find?_append,Option.map_or]
  rfl

theorem lookup_single (k key : κ) (value : Rid) :
    lookup rank [(k,value)] key = if rank k = rank key then some value else none := by
  by_cases same : rank k = rank key <;> simp [lookup,same]

theorem lookup_congr {l : List (κ × Rid)} {k key : κ} (same : rank k = rank key) :
    lookup rank l k = lookup rank l key := by rw [lookup,lookup,same]

variable (ranked : Ranked cmp rank proper) (three : 3 ≤ order) {s : IndexFile κ} {done : List (κ × Rid)}

include ranked three

section Stored

variable (stores : Stores rank proper order s done)

include stores

theorem Stores.getValue {key : κ} (searched : proper key) :
    getValue store cmp key s = (.ok (lookup rank done key),s) := by
  obtain ⟨r,indexed,same⟩ := stores
  rw [indexed.balanced.getValue ranked three searched,same]

theorem Stores.duplicate {key : κ} (searched : proper key) (value : Rid)
    (present : (lookup rank done key).isSome) :
    insertEntry store cmp key value s = (.ok false,s) := by
  obtain ⟨r,indexed,same⟩ := stores
  exact indexed.balanced.insertEntry_present ranked three searched value (by rw [same]; exact present)

theorem Stores.insertEntry {key : κ} (searched : proper key) (value : Rid) :
    ∃ s', insertEntry store cmp key value s = (.ok (lookup rank done key).isNone,s') ∧
      Stores rank proper order s' (done ++ [(key,value)]) := by
  by_cases present : (lookup rank done key).isSome
  · refine ⟨s,?_,?_⟩
    · rw [stores.duplicate ranked three searched value present,Option.isNone_eq_false_iff.mpr present]
    · obtain ⟨r,indexed,same⟩ := stores
      refine ⟨r,indexed,fun k => ?_⟩
      rw [same,lookup_append,lookup_single]
      by_cases equal : rank key = rank k
      · rw [← lookup_congr equal,Option.or_of_isSome present]
      · rw [if_neg equal,Option.or_none]
  · obtain ⟨r,indexed,same⟩ := stores
    have absent : lookup rank done key = none := Option.not_isSome_iff_eq_none.mp present
    obtain ⟨s',r',left,right,run,again,before,after,below⟩ :=
      indexed.insertEntry_absent ranked three searched value ((same key).trans absent)
    refine ⟨s',by rw [run,absent]; rfl,r',again,fun k => ?_⟩
    rw [after,lookup_insert value below,← before,same,lookup_append,lookup_single]
    by_cases equal : rank k = rank key
    · rw [if_pos equal,if_pos equal.symm,lookup_congr equal,absent]; rfl
    · rw [if_neg equal,if_neg (Ne.symm equal),Option.or_none]

theorem Stores.insertAll {inserts : List (κ × Rid)}
    (keys : ∀ e ∈ inserts, proper e.1) :
    ∃ answers s', insertAll cmp inserts s = (.ok answers,s') ∧
      Stores rank proper order s' (done ++ inserts) ∧ answers.length = inserts.length ∧
      ∀ i e, inserts[i]? = some e → answers[i]? = some (lookup rank (done ++ inserts.take i) e.1).isNone := by
  induction inserts generalizing s done with
  | nil => exact ⟨[],s,rfl,by simpa using stores,rfl,nofun⟩
  | cons e inserts ih =>
    obtain ⟨key,value⟩ := e
    obtain ⟨first,rest⟩ := List.forall_mem_cons.mp keys
    obtain ⟨s1,run,onward⟩ := stores.insertEntry ranked three first value
    obtain ⟨answers,s2,others,final,size,each⟩ := ih onward rest
    refine ⟨(lookup rank done key).isNone :: answers,s2,?_,by simpa using final,by simp [size],fun i e found => ?_⟩
    · rw [IndexTree.insertAll,Prog.bind_ok run,Prog.bind_ok others]
      rfl
    · cases i with
      | zero =>
        obtain rfl : (key,value) = e := by simpa using found
        simp
      | succ i => simpa using each i e (by simpa using found)

end Stored

end Map

section Bytes

/-- The columns as `ix_compare` sees them. -/
def ixCols (cols : List ColMeta) : IxCols := cols.map fun col => (col.type,col.len.toNat)

/-- The rid of the first insert with an equal key. -/
def firstInsert (cols : IxCols) (inserts : List (List Byte × Rid)) (key : List Byte) : Option Rid :=
  (inserts.find? fun e => ixCompare cols e.1 key = 0).map Prod.snd

variable {cols : IxCols}

theorem ranked_bytes : Ranked (ixCompare cols) (keyRank cols) (IsKey cols) := ⟨ixCompare_lt,ixCompare_gt⟩

theorem firstInsert_eq {inserts : List (List Byte × Rid)} {key : List Byte} (keys : ∀ e ∈ inserts, IsKey cols e.1)
    (isKey : IsKey cols key) :
    lookup (keyRank cols) inserts key = firstInsert cols inserts key := by
  rw [lookup,firstInsert]
  refine congrArg _ (List.find?_congr fun e member => decide_eq_decide.mpr ?_)
  exact (ranked_bytes.eq (keys e member) isKey).symm

theorem created_stores (metas : List ColMeta) (order : Nat) (page0 : IxNode (List Byte)) :
    Stores (keyRank cols) (IsKey cols) order (created page0 (createdHdr metas order)) [] :=
  ⟨_,created_indexed page0 rfl rfl rfl rfl,fun _ => rfl⟩

/-- As long as no key holds a NaN, the index is a map that keeps the first value of a key. -/
theorem index_refines_map (metas : List ColMeta) (order : Nat) (three : 3 ≤ order) (page0 : IxNode (List Byte))
    (inserts : List (List Byte × Rid)) (keys : ∀ e ∈ inserts, IsKey (ixCols metas) e.1) :
    ∃ answers s, insertAll (ixCompare (ixCols metas)) inserts (created page0 (createdHdr metas order)) =
        (.ok answers,s) ∧
      answers.length = inserts.length ∧
      (∀ i e, inserts[i]? = some e →
        answers[i]? = some (firstInsert (ixCols metas) (inserts.take i) e.1).isNone) ∧
      ∀ key, IsKey (ixCols metas) key →
        getValue store (ixCompare (ixCols metas)) key s = (.ok (firstInsert (ixCols metas) inserts key),s) ∧
        ∀ value, (firstInsert (ixCols metas) inserts key).isSome →
          insertEntry store (ixCompare (ixCols metas)) key value s = (.ok false,s) := by
  obtain ⟨answers,s,run,stores,size,each⟩ :=
    (created_stores metas order page0).insertAll ranked_bytes three keys
  refine ⟨answers,s,run,size,fun i e found => ?_,fun key isKey => ?_⟩
  · have earlier : ∀ e ∈ inserts.take i, IsKey (ixCols metas) e.1 :=
      fun e member => keys e (List.mem_of_mem_take member)
    rw [each i e found,List.nil_append,firstInsert_eq earlier (keys e (List.mem_of_getElem? found))]
  · rw [List.nil_append] at stores
    rw [← firstInsert_eq keys isKey]
    exact ⟨stores.getValue ranked_bytes three isKey,fun value => stores.duplicate ranked_bytes three isKey value⟩

def idCols : List ColMeta := [⟨"t","id",.int,4,0,false⟩]

def priceCol : List ColMeta := [⟨"t","price",.float,4,0,false⟩]

/-- 5.0, 3.0 and a quiet NaN. -/
def fiveBytes : List Byte := [0,0,0xa0,0x40]
def threeBytes : List Byte := [0,0,0x40,0x40]
def nanBytes : List Byte := [0,0,0xc0,0x7f]

/-- A search for a NaN, which was never inserted, finds the smallest key: not the first one
inserted among those that compare equal to it, and not a key with its bytes. -/
theorem nan_found :
    let cols := ixCols priceCol
    let inserts : List (List Byte × Rid) := [(fiveBytes,⟨1,0⟩),(threeBytes,⟨1,1⟩)]
    let run := insertAll (ixCompare cols) inserts (created .zero (createdHdr priceCol 3))
    run.1 = .ok [true,true] ∧
      (getValue store (ixCompare cols) nanBytes run.2).1 = .ok (some ⟨1,1⟩) ∧
      nanBytes ∉ inserts.map Prod.fst ∧ firstInsert cols inserts nanBytes = some ⟨1,0⟩ := by
  decide +kernel

/-- Five inserts, one of them a duplicate, with a split. -/
theorem fiveInserts_refine :
    let metas : List ColMeta := [⟨"t","id",.int,4,0,false⟩]
    let inserts : List (List Byte × Rid) :=
      [(intBytes 7,⟨1,0⟩),(intBytes (-3),⟨1,1⟩),(intBytes 7,⟨1,2⟩),(intBytes 12,⟨1,3⟩),(intBytes 9,⟨1,4⟩)]
    (∀ e ∈ inserts, IsKey (ixCols metas) e.1) ∧
    ∃ answers s, insertAll (ixCompare (ixCols metas)) inserts (created .zero (createdHdr metas 3)) =
        (.ok answers,s) ∧ answers.length = inserts.length ∧
      (∀ i e, inserts[i]? = some e →
        answers[i]? = some (firstInsert (ixCols metas) (inserts.take i) e.1).isNone) ∧
      ∀ key, IsKey (ixCols metas) key →
        getValue store (ixCompare (ixCols metas)) key s = (.ok (firstInsert (ixCols metas) inserts key),s) ∧
        ∀ value, (firstInsert (ixCols metas) inserts key).isSome →
          insertEntry store (ixCompare (ixCols metas)) key value s = (.ok false,s) :=
  ⟨by decide +kernel,index_refines_map _ 3 (by decide) .zero _ (by decide +kernel)⟩

end Bytes

end Rucbase.IndexTree
