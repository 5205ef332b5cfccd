import Rucbase.IxDefs
import Rucbase.Lib.OrderedMap
import Rucbase.Lib.TextStream
import Mathlib.Data.String.Basic

/-! The catalog: metadata of columns, indexes, tables and the database, and the text it is kept
as in `db.meta`. -/
namespace Rucbase

open Lib Lib.TextStream

structure IndexMeta where
  tabName : String
  colTotLen : Int
  colNum : Int
  cols : List ColMeta
  deriving DecidableEq, Repr

structure TabMeta where
  name : String
  cols : List ColMeta
  indexes : List IndexMeta
  deriving DecidableEq, Repr

structure DbMeta where
  name : String
  tabs : OrderedMap String TabMeta

def DbMeta.empty : DbMeta := ⟨"",.empty⟩

def TabMeta.isCol (tab : TabMeta) (colName : String) : Bool := tab.cols.any fun col => col.name == colName

def TabMeta.getCol (tab : TabMeta) (colName : String) : Except RMDBError ColMeta :=
  match tab.cols.find? fun col => col.name == colName with
  | some col => .ok col
  | none => .error (.columnNotFound colName)

/-- The index is on exactly these columns, in this order. -/
def IndexMeta.isOn (index : IndexMeta) (colNames : List String) : Bool :=
  index.colNum == colNames.length && (index.cols.take colNames.length).map ColMeta.name == colNames

def TabMeta.isIndex (tab : TabMeta) (colNames : List String) : Bool :=
  tab.indexes.any fun index => index.isOn colNames

def DbMeta.isTable (db : DbMeta) (tabName : String) : Bool := db.tabs.contains tabName

def DbMeta.getTable (db : DbMeta) (tabName : String) : Except RMDBError TabMeta :=
  match db.tabs.find tabName with
  | some tab => .ok tab
  | none => .error (.tableNotFound tabName)

/-! The operators `<<` and `>>`. Once an extraction has failed the stream stays as it is; the
model stops there. -/
section Streams

def readName : Reader String := do
  let word ← readWord
  pure (String.ofList word)

def ColMeta.write (col : ColMeta) : List Char :=
  col.tabName.toList ++ ' ' :: col.name.toList ++ ' ' :: intText col.type.code ++ ' ' :: intText col.len ++
    ' ' :: intText col.offset ++ ' ' :: boolText col.index

def ColMeta.read : Reader ColMeta := do
  let tabName ← readName
  let name ← readName
  let type ← readInt
  let len ← readInt
  let offset ← readInt
  let index ← readBool
  pure ⟨tabName,name,.ofCode type,len,offset,index⟩

def IndexMeta.write (index : IndexMeta) : List Char :=
  index.tabName.toList ++ ' ' :: intText index.colTotLen ++ ' ' :: intText index.colNum ++
    index.cols.flatMap fun col => '\n' :: col.write

def IndexMeta.read : Reader IndexMeta := do
  let tabName ← readName
  let colTotLen ← readInt
  let colNum ← readInt
  let cols ← readMany ColMeta.read colNum.toNat
  pure ⟨tabName,colTotLen,colNum,cols⟩

def TabMeta.write (tab : TabMeta) : List Char :=
  tab.name.toList ++ '\n' :: natText tab.cols.length ++ '\n' :: tab.cols.flatMap (fun col => col.write ++ ['\n']) ++
    natText tab.indexes.length ++ '\n' :: tab.indexes.flatMap fun index => index.write ++ ['\n']

def TabMeta.read : Reader TabMeta := do
  let name ← readName
  let n ← readNat
  let cols ← readMany ColMeta.read n
  let n ← readNat
  let indexes ← readMany IndexMeta.read n
  pure ⟨name,cols,indexes⟩

def DbMeta.write (db : DbMeta) : List Char :=
  db.name.toList ++ '\n' :: natText db.tabs.entries.length ++
    '\n' :: db.tabs.entries.flatMap fun entry => entry.2.write ++ ['\n']

def DbMeta.readTabs : Nat → DbMeta → Reader DbMeta
  | 0, db => pure db
  | n + 1, db => do
    let tab ← TabMeta.read
    readTabs n { db with tabs := db.tabs.assign tab.name tab }

/-- Reading into a `DbMeta` keeps the tables it already has. -/
def DbMeta.read (db : DbMeta) : Reader DbMeta := do
  let name ← readName
  let n ← readNat
  DbMeta.readTabs n { db with name := name }

end Streams

end Rucbase
