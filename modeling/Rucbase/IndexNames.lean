import Rucbase.SmManager

/-! The name of an index file is the name of the table and of the columns, joined by underscores. An
identifier may hold underscores itself, so the joined name does not say where one name ends. -/
namespace Rucbase.IndexNames

open SmManager

/-- `identifier` of the lexer: a letter, then underscores, letters and digits. The keywords, which earlier rules of the
lexer take, have this form too. -/
def identifier : List Char → Bool
  | [] => false
  | c :: rest => c.isAlpha && rest.all fun d => d == '_' || d.isAlpha || d.isDigit

/-- What CREATE INDEX and DROP INDEX can name: a table and at least one column, all identifiers. -/
@[ext] structure IndexRef where
  tabName : String
  colNames : List String
  table : identifier tabName.toList
  columns : ∀ name ∈ colNames, identifier name.toList
  columned : colNames ≠ []
  deriving DecidableEq

namespace IndexRef

def fileName (index : IndexRef) : Path := getIndexName index.tabName index.colNames

end IndexRef

/-- The names after the first one, each with the underscore in front. -/
def columnText (colNames : List String) : List Char := colNames.flatMap fun name => '_' :: name.toList

section Words

variable {index other : IndexRef}

theorem getIndexName_toList (tabName : String) (colNames : List String) :
    (getIndexName tabName colNames).toList = tabName.toList ++ columnText colNames ++ ".idx".toList := by
  simp [getIndexName,columnText,List.flatMap_map]

theorem fileName_eq_iff_text : index.fileName = other.fileName ↔
    index.tabName.toList ++ columnText index.colNames = other.tabName.toList ++ columnText other.colNames := by
  rw [IndexRef.fileName,IndexRef.fileName,← String.toList_inj,getIndexName_toList,getIndexName_toList,
    List.append_left_inj]

end Words

section Alone

/-- The underscores that a letter follows. The text may be cut there into two identifiers. -/
def breaks : List Char → Nat
  | c :: d :: rest => (if c = '_' ∧ d.isAlpha then 1 else 0) + breaks (d :: rest)
  | _ => 0

theorem breaks_joined (first : List Char) {d : Char} (letter : d.isAlpha) (rest : List Char) :
    breaks (first ++ '_' :: d :: rest) = breaks first + 1 + breaks (d :: rest) := by
  induction first using breaks.induct with
  | case1 c c' first later =>
    rw [List.cons_append,List.cons_append,breaks,← List.cons_append,later,breaks]
    omega
  | case2 first short =>
    match first with
    | [] => simp [breaks,letter]
    | [c] => simp [breaks,letter,show '_'.isAlpha = false from rfl]
    | c :: c' :: first => exact absurd rfl (short c c' first)

theorem exists_break {text : List Char} (broken : breaks text ≠ 0) :
    ∃ first d rest, text = first ++ '_' :: d :: rest ∧ d.isAlpha := by
  induction text using breaks.induct with
  | case1 c d rest later =>
    by_cases here : c = '_' ∧ d.isAlpha
    · exact ⟨[],d,rest,by rw [here.1,List.nil_append],here.2⟩
    · rw [breaks,if_neg here,Nat.zero_add] at broken
      obtain ⟨first,d',rest',cut,letter⟩ := later broken
      exact ⟨c :: first,d',rest',by rw [cut,List.cons_append],letter⟩
  | case2 text short =>
    match text with
    | [] => exact absurd rfl broken
    | [c] => exact absurd rfl broken
    | c :: d :: rest => exact absurd rfl (short c d rest)

theorem identifier_joined {first rest : List Char} (left : identifier first) (right : identifier rest) :
    identifier (first ++ '_' :: rest) := by
  match first,rest,left,right with
  | c :: first,d :: rest,left,right =>
    simp only [identifier,Bool.and_eq_true,List.all_eq_true,List.cons_append,List.mem_append,List.mem_cons] at left right ⊢
    refine ⟨left.1,fun e here => ?_⟩
    obtain here | rfl | rfl | here := here
    · exact left.2 e here
    · rfl
    · simp [right.1]
    · exact right.2 e here

theorem identifier_cut {first rest : List Char} {d : Char} (letter : d.isAlpha)
    (whole : identifier (first ++ '_' :: d :: rest)) : identifier first ∧ identifier (d :: rest) := by
  cases first with
  | nil => exact absurd whole (by simp [identifier,show '_'.isAlpha = false from rfl])
  | cons c first =>
    simp only [identifier,Bool.and_eq_true,List.all_eq_true,List.cons_append,List.mem_append,List.mem_cons] at whole ⊢
    exact ⟨⟨whole.1,fun e here => whole.2 e (.inl here)⟩,letter,fun e here => whole.2 e (.inr (.inr (.inr here)))⟩

theorem breaks_text (first : List Char) {colNames : List String} (columns : ∀ name ∈ colNames, identifier name.toList) :
    breaks (first ++ columnText colNames) = breaks first + (colNames.map fun name => breaks name.toList + 1).sum := by
  induction colNames generalizing first with
  | nil => simp [columnText]
  | cons name rest later =>
    have known := columns name List.mem_cons_self
    have tail := later name.toList fun other here => columns other (List.mem_cons_of_mem _ here)
    match text : name.toList,known with
    | d :: body,known =>
      have letter : d.isAlpha := (Bool.and_eq_true _ _ ▸ known : _ ∧ _).1
      rw [columnText,List.flatMap_cons,text,← columnText]
      rw [text,List.cons_append] at tail
      rw [List.cons_append,List.cons_append,breaks_joined first letter,tail,List.map_cons,List.sum_cons,text]
      omega

/-- Without an underscore before a letter in the columns, one column is cut off at one place only. -/
theorem joined_inj {first first' rest rest' : List Char} (known : identifier rest) (known' : identifier rest')
    (whole : breaks rest = 0) (whole' : breaks rest' = 0) (same : first ++ '_' :: rest = first' ++ '_' :: rest') :
    first = first' ∧ rest = rest' := by
  have cut {between rest rest' : List Char} (known : identifier rest') (whole : breaks rest = 0)
      (longer : '_' :: rest = between ++ '_' :: rest') : between = [] := by
    match between,rest',known with
    | [],_,_ => rfl
    | c :: between,d :: rest',known =>
      have letter : d.isAlpha := (Bool.and_eq_true _ _ ▸ known : _ ∧ _).1
      rw [List.cons_append] at longer
      rw [(List.cons.inj longer).2,breaks_joined between letter] at whole
      omega
  obtain ⟨between,here,longer⟩ | ⟨between,here,longer⟩ := List.append_eq_append_iff.mp same
  · rw [cut known' whole longer] at here longer
    exact ⟨by rw [here,List.append_nil],(List.cons.inj longer).2⟩
  · rw [cut known whole' longer] at here longer
    exact ⟨by rw [here,List.append_nil],(List.cons.inj longer).2.symm⟩

end Alone

theorem cut_again {index : IndexRef} (cuttable : 1 < index.colNames.length ∨ breaks index.tabName.toList ≠ 0 ∨
    ∃ name ∈ index.colNames, breaks name.toList ≠ 0) : ∃ other, other ≠ index ∧ other.fileName = index.fileName := by
  suffices ∃ other : IndexRef, other.colNames.length ≠ index.colNames.length ∧
      other.tabName.toList ++ columnText other.colNames = index.tabName.toList ++ columnText index.colNames by
    obtain ⟨other,counts,text⟩ := this
    exact ⟨other,fun same => counts (by rw [same]),fileName_eq_iff_text.mpr text⟩
  obtain ⟨tabName,colNames,table,columns,columned⟩ := index
  obtain many | broken | ⟨name,here,broken⟩ := cuttable
  · -- the first column joins the name of the table
    obtain _ | ⟨name,_ | ⟨next,rest⟩⟩ := colNames
    · exact absurd many (by simp)
    · exact absurd many (by simp)
    have joined := identifier_joined table (columns name List.mem_cons_self)
    exact ⟨⟨tabName ++ "_" ++ name,next :: rest,by simpa using joined,
      fun other here => columns other (List.mem_cons_of_mem _ here),nofun⟩,by simp,by simp [columnText]⟩
  · -- the end of the name of the table becomes a column
    obtain ⟨first,d,rest,cut,letter⟩ := exists_break broken
    have parts := identifier_cut letter (cut ▸ table)
    exact ⟨⟨.ofList first,.ofList (d :: rest) :: colNames,by simpa using parts.1,by simpa using ⟨parts.2,columns⟩,
      nofun⟩,by simp,by simp [columnText,cut]⟩
  · -- a column becomes two
    obtain ⟨first,d,rest,cut,letter⟩ := exists_break broken
    have parts := identifier_cut letter (cut ▸ columns name here)
    obtain ⟨before,after,rfl⟩ := List.append_of_mem here
    refine ⟨⟨tabName,before ++ .ofList first :: .ofList (d :: rest) :: after,table,?_,by simp⟩,by simp,
      by simp [columnText,cut]⟩
    intro other there
    simp only [List.mem_append,List.mem_cons] at there columns
    obtain there | rfl | rfl | there := there
    · exact columns other (.inl there)
    · simpa using parts.1
    · simpa using parts.2
    · exact columns other (.inr (.inr there))

/-- No other index has the file name of this one if and only if it has one column, and no underscore
in its names is followed by a letter. -/
theorem index_name_identifies_iff (index : IndexRef) :
    (∀ other : IndexRef, other ≠ index → other.fileName ≠ index.fileName) ↔
      ∃ name, index.colNames = [name] ∧ breaks index.tabName.toList = 0 ∧ breaks name.toList = 0 := by
  constructor
  · intro alone
    have uncut : ¬(1 < index.colNames.length ∨ breaks index.tabName.toList ≠ 0 ∨
        ∃ name ∈ index.colNames, breaks name.toList ≠ 0) := by
      intro cuttable
      obtain ⟨other,different,same⟩ := cut_again cuttable
      exact alone other different same
    simp only [not_or,not_exists,not_and,ne_eq,not_not,not_lt] at uncut
    obtain ⟨few,table,columns⟩ := uncut
    have some := List.length_pos_iff.mpr index.columned
    obtain ⟨name,one⟩ := List.length_eq_one_iff.mp (Nat.le_antisymm few some)
    exact ⟨name,one,table,columns name (by simp [one])⟩
  · rintro ⟨name,one,table,column⟩ other different same
    rw [fileName_eq_iff_text] at same
    have count := congrArg breaks same
    rw [breaks_text _ other.columns,breaks_text _ index.columns,one] at count
    match columns : other.colNames,other.columned with
    | [only],_ =>
      simp only [columns,List.map_cons,List.map_nil,List.sum_cons,List.sum_nil] at count
      simp only [one,columns,columnText,List.flatMap_cons,List.flatMap_nil,List.append_nil] at same
      have known := other.columns only (by simp [columns])
      obtain ⟨tables,names⟩ := joined_inj known (index.columns name (by simp [one])) (by omega) column same
      refine different (IndexRef.ext (String.toList_inj.mp tables) ?_)
      rw [columns,one,String.toList_inj.mp names]
    | first :: second :: rest,_ =>
      simp only [columns,List.map_cons,List.map_nil,List.sum_cons,List.sum_nil] at count
      omega

section Examples

/-- Tables `t (a INT, b INT)` and `t_a (b INT)`, and the index of `t` on both its columns. -/
def joinedTables : SmManager :=
  (createIndex .zero "t" ["a","b"] (some 1)).after
    ((createTable "t_a" [⟨"b",.int,4⟩] (some 1)).after
      ((createTable "t" [⟨"a",.int,4⟩,⟨"b",.int,4⟩] (some 1)).after .noTables))

/-- The index of `t_a` on `b` has the name of the index of `t` on `a` and `b`. It cannot be created,
and DROP INDEX on it deletes the file of the other before it throws. -/
theorem index_of_other_table :
    (⟨"t",["a","b"],by decide,by decide,by decide⟩ : IndexRef) ≠ ⟨"t_a",["b"],by decide,by decide,by decide⟩ ∧
      (⟨"t",["a","b"],by decide,by decide,by decide⟩ : IndexRef).fileName =
        (⟨"t_a",["b"],by decide,by decide,by decide⟩ : IndexRef).fileName ∧
      (createIndex .zero "t_a" ["b"] (some 1) joinedTables).1 = .error (.thrown (.rmdb (.indexExists "t_a" ["b"]))) ∧
      joinedTables.pool.disk.isFile (getIndexName "t" ["a","b"]) = true ∧
      ((dropIndex "t_a" ["b"] (some 1)).after joinedTables).pool.disk.isFile (getIndexName "t" ["a","b"]) = false := by
  refine ⟨by decide,by decide,?_,?_,?_⟩ <;> decide +kernel

end Examples

end Rucbase.IndexNames
