import Rucbase.SmMeta

/-! The catalog's text round-trips: what `operator<<` wrote, `operator>>` reads back. -/
namespace Rucbase

open Lib Lib.TextStream

/-- A name that is one word. -/
def IsName (name : String) : Prop := name.toList ≠ [] ∧ ∀ c ∈ name.toList, isSpace c = false

instance (name : String) : Decidable (IsName name) := @instDecidableAnd _ _ inferInstance (List.decidableBAll _ _)

def ColMeta.Named (col : ColMeta) : Prop := IsName col.tabName ∧ IsName col.name

instance (col : ColMeta) : Decidable col.Named := inferInstanceAs (Decidable (_ ∧ _))

structure IndexMeta.Named (index : IndexMeta) : Prop where
  tabName : IsName index.tabName
  colNum : index.colNum = index.cols.length
  cols : ∀ col ∈ index.cols, col.Named

structure TabMeta.Named (tab : TabMeta) : Prop where
  name : IsName tab.name
  cols : ∀ col ∈ tab.cols, col.Named
  indexes : ∀ index ∈ tab.indexes, index.Named

structure DbMeta.Named (db : DbMeta) : Prop where
  name : IsName db.name
  keys : ∀ entry ∈ db.tabs.entries, entry.1 = entry.2.name
  tabs : ∀ entry ∈ db.tabs.entries, entry.2.Named

section RoundTrip

variable {rest : List Char} {c : Char} (space : isSpace c)

include space

theorem eats_name {name : String} (isName : IsName name) : Eats readName (name.toList ++ c :: rest) name rest := by
  refine (eats_word isName.1 isName.2 space).bind ?_
  rw [String.ofList_toList]
  exact .pure _ _

theorem eats_col {col : ColMeta} (named : col.Named) : Eats ColMeta.read (col.write ++ c :: rest) col rest := by
  have code : ColType.ofCode col.type.code = col.type := by cases col.type <;> rfl
  have blank : isSpace ' ' := rfl
  simp only [ColMeta.write,List.append_assoc,List.cons_append]
  refine (eats_name blank named.1).bind ((eats_name blank named.2).bind ((eats_int _ blank).bind
    ((eats_int _ blank).bind ((eats_int _ blank).bind ((eats_bool _ space).bind ?_)))))
  rw [code]
  exact .pure _ _

theorem eats_index {index : IndexMeta} (named : index.Named) :
    Eats IndexMeta.read (index.write ++ c :: rest) index rest := by
  obtain ⟨tabName,colTotLen,colNum,cols⟩ := index
  obtain ⟨isName,number,colsNamed⟩ := named
  replace number : colNum = cols.length := number
  subst number
  have blank : isSpace ' ' := rfl
  have newline : isSpace '\n' := rfl
  obtain ⟨d,text,same,spaceD,many⟩ := eats_many_after ColMeta.write newline cols rest
    (fun col member d spaceD rest => eats_col spaceD (colsNamed col member)) space
  simp only [IndexMeta.write,List.append_assoc,List.cons_append,same]
  exact (eats_name blank isName).bind ((eats_int _ blank).bind ((eats_int _ spaceD).bind (many.bind (.pure _ _))))

theorem eats_tab {tab : TabMeta} (named : tab.Named) : Eats TabMeta.read (tab.write ++ c :: rest) tab rest := by
  have newline : isSpace '\n' := rfl
  have cols := fun text => eats_many ColMeta.write '\n' tab.cols text
    fun col member _ => eats_col newline (named.cols col member)
  have indexes := eats_many IndexMeta.write '\n' tab.indexes (c :: rest)
    fun index member _ => eats_index newline (named.indexes index member)
  simp only [TabMeta.write,List.append_assoc,List.cons_append]
  exact (eats_name newline named.name).bind ((eats_nat _ newline).bind ((cols _).bind ((eats_nat _ newline).bind
    ((indexes.space space).bind (.pure _ _)))))

end RoundTrip

theorem readTabs_eq (n : Nat) (db : DbMeta) : DbMeta.readTabs n db =
    (readMany TabMeta.read n >>= fun tabs =>
      pure { db with tabs := tabs.foldl (fun m tab => m.assign tab.name tab) db.tabs }) := by
  induction n generalizing db with
  | zero => rfl
  | succ n ih => simp only [DbMeta.readTabs,readMany,ih,bind_assoc,pure_bind,List.foldl_cons]

/-- What was written into `db.meta` is read back as it was. -/
theorem catalog_round_trip (db : DbMeta) (named : db.Named) :
    ∃ rest, DbMeta.read .empty db.write = some (db,rest) := by
  have newline : isSpace '\n' := rfl
  have values : (db.tabs.entries.map Prod.snd).foldl (fun m tab => m.assign tab.name tab) .empty = db.tabs := by
    rw [List.foldl_map]
    have same : db.tabs.entries.foldl (fun m e => m.assign e.2.name e.2) OrderedMap.empty =
        db.tabs.entries.foldl (fun m e => m.assign e.1 e.2) OrderedMap.empty :=
      List.foldl_ext _ _ _ fun m e member => by rw [named.keys e member]
    rw [same,OrderedMap.foldl_assign .empty db.tabs.increasing]
    rfl
  have tabs := eats_many TabMeta.write '\n' (db.tabs.entries.map Prod.snd) [] fun tab member _ => by
    obtain ⟨e,inside,rfl⟩ := List.mem_map.mp member
    exact eats_tab newline (named.tabs e inside)
  have whole : Eats (DbMeta.read .empty) db.write db [] := by
    simp only [DbMeta.write,List.append_assoc,List.cons_append]
    refine (eats_name newline named.name).bind ((eats_nat _ newline).bind ?_)
    rw [readTabs_eq]
    rw [List.length_map,List.flatMap_map,List.append_nil] at tabs
    refine tabs.bind ?_
    simp only [DbMeta.empty,values]
    exact .pure _ _
  obtain ⟨after,_,run⟩ := whole [] nofun
  exact ⟨_,run⟩

def sampleTab : TabMeta :=
  let id : ColMeta := ⟨"orders","id",.int,4,0,false⟩
  let note : ColMeta := ⟨"orders","note",.string,20,4,true⟩
  ⟨"orders",[id,note],[⟨"orders",20,1,[note]⟩]⟩

def sampleDb : DbMeta := ⟨"shop",⟨[("orders",sampleTab)],List.pairwise_singleton _ _⟩⟩

theorem sampleDb_round_trip :
    sampleDb.Named ∧ ∃ rest, DbMeta.read .empty sampleDb.write = some (sampleDb,rest) := by
  have tab : sampleTab.Named := ⟨by decide +kernel,by decide +kernel,
    List.forall_mem_singleton.mpr ⟨by decide +kernel,rfl,by decide +kernel⟩⟩
  have named : sampleDb.Named := ⟨by decide +kernel,List.forall_mem_singleton.mpr rfl,
    List.forall_mem_singleton.mpr tab⟩
  exact ⟨named,catalog_round_trip sampleDb named⟩

end Rucbase
