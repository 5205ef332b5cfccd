import Rucbase.FailedDdl

/-! DROP TABLE and the indexes of the table. The loop over `tab.indexes` was given its end before
the first round, and each round erases an element of the vector. -/
namespace Rucbase.DropTable

open Lib Lib.Prog SmManager IndexCoverage DiskManager Ends
open LockManager hiding step start

/-- Any end but a read outside of a vector. -/
def Orderly (e : SmError) : Prop := e ≠ .outside

section Calls

variable {s : SmManager} {tabName : String} {colNames : List String} {context : Option TxnId}

theorem raised_orderly (e : DbError) : Orderly e.raised := by
  unfold DbError.raised
  split <;> nofun

theorem lift_ends {α : Type} (x : Except RMDBError α) :
    Ends Orderly (fun a next => x = .ok a ∧ next = s) (SmManager.lift x) s := by
  cases x with
  | ok a => exact of_ok rfl ⟨rfl,rfl⟩
  | error e => exact of_error rfl (raised_orderly _)

theorem onPool_ends {α : Type} (call : BufferPool.PoolCall α) :
    Ends Orderly (fun a next => call s.pool = (.ok a,next.pool) ∧ next = { s with pool := next.pool }) (onPool call) s := by
  match run : onPool call s with
  | (.ok a,next) => exact of_ok run (onPool_ok run)
  | (.error e,next) =>
    refine of_error run ?_
    have thrown : (call s.pool).1.mapError (fun e => (DbError.rmdb e).raised) = .error e := congrArg Prod.fst run
    match inside : (call s.pool).1 with
    | .ok a => simp [inside,Except.mapError] at thrown
    | .error e' =>
      rw [inside] at thrown
      rw [← Except.error.inj thrown]
      exact raised_orderly _

theorem lockTable_ends (request : TxnId → Int → Call) (txn : TxnId) :
    Ends Orderly (fun _ next => ∃ locks, next = { s with rows := { s.rows with locks := locks } })
      (lockTable request txn tabName) s := by
  cases here : s.rows.files tabName with
  | none => exact of_error (lockTable_none request txn tabName s here) nofun
  | some f =>
    have run := lockTable_locks request txn tabName s here
    cases answer : (request txn f.fd s.rows.locks).1 with
    | ok a =>
      rw [answer] at run
      exact of_ok run ⟨_,rfl⟩
    | error e =>
      rw [answer] at run
      exact of_error run nofun

theorem destroyFile_ok {path : Path} {d next : DiskManager} (run : destroyFile path d = (.ok (),next)) :
    next.isFile path = false ∧ ∀ other, next.isFile other = true → d.isFile other = true := by
  have dir : next.os.dir = Function.update d.os.dir path none := by
    rw [destroyFile,bind_ok (state_run d)] at run
    obtain ⟨_,mid,checked,unlinks⟩ := bind_ok_split run
    obtain rfl : d = mid := by
      by_cases there : d.isFile path = true
      · rw [check_run there] at checked
        exact (Prod.mk.inj checked).2
      · simp [check,there] at checked
    cases known : d.path2fd path with
    | some fd =>
      rw [known] at unlinks
      obtain ⟨-,rfl⟩ := Prod.mk.inj unlinks
      rfl
    | none =>
      rw [known] at unlinks
      obtain ⟨-,rfl⟩ := Prod.mk.inj unlinks
      rfl
  refine ⟨by simp [isFile,dir],fun other there => ?_⟩
  by_cases same : other = path
  · simp [isFile,dir,same] at there
  · simpa [isFile,dir,same] using there

/-- A `drop_index` that returned: the index has left the catalog, the handles and the disk. -/
structure Dropped (s : SmManager) (tabName : String) (colNames : List String) (next : SmManager) : Prop where
  catalog : ∃ tab, s.db.tabs.find tabName = some tab ∧ tab.isIndex colNames = true ∧
    next.db.tabs = s.db.tabs.assign tabName { tab with indexes := tab.indexes.eraseP fun index => index.isOn colNames }
  handles : next.ihs = Function.update s.ihs (getIndexName tabName colNames) none
  gone : next.pool.disk.isFile (getIndexName tabName colNames) = false
  shrinks : ∀ path, next.pool.disk.isFile path = true → s.pool.disk.isFile path = true
  files : next.rows.files = s.rows.files

variable {next : SmManager} {tab : TabMeta}

theorem getTable_found {db : DbMeta} (found : db.getTable tabName = .ok tab) : db.tabs.find tabName = some tab := by
  unfold DbMeta.getTable at found
  split at found
  · rename_i there
    rw [there,Except.ok.inj found]
  · cases found

theorem dropIndex_ends : Ends Orderly (fun _ next => Dropped s tabName colNames next) (dropIndex tabName colNames context) s := by
  cases context with
  | none => exact of_error rfl (by simp [Orderly])
  | some txn =>
    refine (lockTable_ends lockSharedOnTable txn).bind fun _ locked left => ?_
    obtain ⟨locks,rfl⟩ := left
    refine step (state_run _) ?_
    dsimp only
    split
    · split
      · exact of_error rfl (by simp [Orderly])
      · rename_i ih opened
        refine (onPool_ends _).bind fun _ closed ran => ?_
        obtain ⟨closing,left⟩ := ran
        have kept := (FailedDdl.closeIndex_dir ih.fd ih.file.hdr).ran closing
        refine (onPool_ends _).bind fun _ final ran => ?_
        obtain ⟨destroying,rest⟩ := ran
        have unlinked : destroyFile (getIndexName tabName colNames) closed.pool.disk = (.ok (),final.pool.disk) := by
          obtain ⟨answer,same⟩ := Prod.mk.inj destroying
          exact Prod.ext answer (congrArg BufferPool.disk same)
        obtain ⟨gone,shrinks⟩ := destroyFile_ok unlinked
        have catalog : final.db = s.db := by rw [rest,left]
        have handles : final.ihs = s.ihs := by rw [rest,left]
        have files : final.rows.files = s.rows.files := by rw [rest,left]
        refine step (state_run _) ((lift_ends _).bind fun tab _ read => ?_)
        obtain ⟨found,rfl⟩ := read
        split
        · rename_i indexed
          refine of_ok rfl ⟨⟨tab,getTable_found (catalog ▸ found),indexed,by rw [← catalog]⟩,by rw [← handles],gone,
            fun path there => ?_,files⟩
          have before := shrinks path there
          rwa [isFile,kept] at before
        · exact (lift_ends _).mono fun _ _ thrown => by cases thrown.1
    · exact (lift_ends _).mono fun _ _ thrown => by cases thrown.1

theorem Dropped.shorter (dropped : Dropped s tabName colNames next) (known : s.db.tabs.find tabName = some tab) :
    ∃ tab', next.db.tabs.find tabName = some tab' ∧ tab'.indexes.length + 1 = tab.indexes.length := by
  obtain ⟨tab',found,indexed,assigned⟩ := dropped.catalog
  obtain rfl : tab = tab' := Option.mem_unique known found
  obtain ⟨index,member,isOn⟩ := List.any_eq_true.mp indexed
  refine ⟨_,by rw [assigned,OrderedMap.find_assign_self],?_⟩
  have some : 0 < tab.indexes.length := List.length_pos_of_mem member
  rw [List.length_eraseP_of_mem member isOn]
  omega

/-- The loop returns only if it had no round, or one, at the first position. -/
theorem dropIndexes_returns {position rounds : Nat} (known : s.db.tabs.find tabName = some tab) (size : tab.indexes.length = rounds)
    (run : dropIndexes tabName context position rounds s = (.ok (),next)) : rounds = 0 ∨ position = 0 ∧ rounds = 1 := by
  induction rounds generalizing s position tab with
  | zero => exact .inl rfl
  | succ rounds ih =>
    rw [dropIndexes,bind_ok (state_run s)] at run
    obtain ⟨tab',_,found,run⟩ := bind_ok_split run
    obtain ⟨known',rfl⟩ := lift_ok found
    obtain rfl : tab = tab' := Option.mem_unique known (getTable_found known')
    cases there : tab.indexes[position]? with
    | none =>
      rw [there] at run
      cases run
    | some index =>
      rw [there] at run
      obtain ⟨_,mid,dropping,later⟩ := bind_ok_split run
      obtain ⟨tab',found',shorter⟩ := (dropIndex_ends.ran dropping).shorter known
      have inside : position < tab.indexes.length := (List.getElem?_eq_some_iff.mp there).1
      rcases ih found' (by omega) later with none | ⟨first,_⟩
      · exact .inr ⟨by omega,by omega⟩
      · omega

/-- After `drop_table` nothing of the table is left, and the other tables are as they were. -/
structure Removed (s : SmManager) (tabName : String) (tab : TabMeta) (next : SmManager) : Prop where
  table : next.db.tabs.find tabName = none
  handle : next.rows.files tabName = none
  file : next.pool.disk.isFile tabName = false
  indexes : ∀ index ∈ tab.indexes, next.ihs (getIndexName tabName (index.cols.map ColMeta.name)) = none ∧
    next.pool.disk.isFile (getIndexName tabName (index.cols.map ColMeta.name)) = false
  others : ∀ other ≠ tabName, next.db.tabs.find other = s.db.tabs.find other

structure Emptied (s : SmManager) (tabName : String) (tab : TabMeta) (next : SmManager) : Prop where
  indexes : ∀ index ∈ tab.indexes, next.ihs (getIndexName tabName (index.cols.map ColMeta.name)) = none ∧
    next.pool.disk.isFile (getIndexName tabName (index.cols.map ColMeta.name)) = false
  shrinks : ∀ path, next.pool.disk.isFile path = true → s.pool.disk.isFile path = true
  others : ∀ other ≠ tabName, next.db.tabs.find other = s.db.tabs.find other

theorem dropIndexes_ends (known : s.db.tabs.find tabName = some tab) (few : tab.indexes.length ≤ 1) :
    Ends Orderly (fun _ next => Emptied s tabName tab next) (dropIndexes tabName context 0 tab.indexes.length) s := by
  have found : s.db.getTable tabName = .ok tab := by rw [DbMeta.getTable,known]
  rcases list : tab.indexes with _ | ⟨index,_ | ⟨second,more⟩⟩
  · exact of_ok rfl ⟨by simp [list],fun _ there => there,fun _ _ => rfl⟩
  · refine step (state_run s) (step (by rw [found]; rfl : SmManager.lift (s.db.getTable tabName) s = (.ok tab,s)) ?_)
    rw [list]
    refine dropIndex_ends.bind fun _ next dropped => of_ok rfl ⟨?_,dropped.shrinks,fun other apart => ?_⟩
    · rw [list]
      exact List.forall_mem_singleton.mpr ⟨by rw [dropped.handles,Function.update_self],dropped.gone⟩
    · obtain ⟨_,_,_,assigned⟩ := dropped.catalog
      rw [assigned,OrderedMap.find_assign_of_ne _ _ apart]
  · simp [list] at few

/-- The table lock, if there is a context. -/
def lockWhole (tabName : String) (context : Option TxnId) : SmCall Unit :=
  match context with
  | some txn => lockTable lockExclusiveOnTable txn tabName
  | none => pure ()

/-- What `drop_table` does with the lock and the file of the table. -/
def dropParts (tabName : String) (context : Option TxnId) (tab : TabMeta) (f : RmFile) : SmCall Unit := do
  onPool (RmManager.closeFile f.fd f.fileHdr)
  onPool (BufferPool.onDisk (destroyFile tabName))
  dropIndexes tabName context 0 tab.indexes.length
  update fun s => { s with
    db := { s.db with tabs := s.db.tabs.erase tabName }
    rows := { s.rows with files := Function.update s.rows.files tabName none } }
  flushMeta

theorem dropTable_known (known : s.db.tabs.find tabName = some tab) : dropTable tabName context s =
    (lockWhole tabName context >>= fun _ => match s.rows.files tabName with
      | none => raise .crash
      | some f => dropParts tabName context tab f) s := by
  have found : s.db.getTable tabName = .ok tab := by rw [DbMeta.getTable,known]
  have isTable : s.db.isTable tabName = true := by rw [DbMeta.isTable,OrderedMap.contains,known]; rfl
  rw [dropTable,bind_ok (state_run s),if_pos isTable,found]
  cases context <;> rfl

theorem lockWhole_ends : Ends Orderly (fun _ next => ∃ locks, next = { s with rows := { s.rows with locks := locks } })
    (lockWhole tabName context) s := by
  cases context with
  | none => exact of_ok rfl ⟨s.rows.locks,rfl⟩
  | some txn => exact lockTable_ends _ txn

theorem closed_ends (f : RmFile) {rest : SmCall Unit} {post : SmManager → Prop}
    (later : ∀ next, next.db = s.db → next.pool.disk.isFile tabName = false → Ends Orderly (fun _ => post) rest next) :
    Ends Orderly (fun _ => post) (do
      onPool (RmManager.closeFile f.fd f.fileHdr)
      onPool (BufferPool.onDisk (destroyFile tabName))
      rest) s := by
  refine (onPool_ends _).bind fun _ closed ⟨_,left⟩ => ?_
  refine (onPool_ends _).bind fun _ next ⟨destroying,same⟩ => ?_
  have unlinked : destroyFile tabName closed.pool.disk = (.ok (),next.pool.disk) := by
    obtain ⟨answer,disk⟩ := Prod.mk.inj destroying
    exact Prod.ext answer (congrArg BufferPool.disk disk)
  exact later next (by rw [same,left]) (destroyFile_ok unlinked).1

theorem dropTable_ends (known : s.db.tabs.find tabName = some tab) (few : tab.indexes.length ≤ 1) :
    Ends Orderly (fun _ next => Removed s tabName tab next) (dropTable tabName context) s := by
  rw [Ends,dropTable_known known]
  refine lockWhole_ends.bind fun _ locked left => ?_
  obtain ⟨locks,granted⟩ := left
  cases s.rows.files tabName with
  | none => exact of_error rfl (by simp [Orderly])
  | some f =>
    refine closed_ends f fun next catalog gone => ?_
    have same : next.db = s.db := by rw [catalog,granted]
    refine (dropIndexes_ends (by rw [same,known]) few).bind fun _ last emptied => ?_
    refine of_ok rfl ⟨OrderedMap.find_erase_self _ _,Function.update_self ..,?_,emptied.indexes,fun other apart => ?_⟩
    · by_contra left
      have there := emptied.shrinks tabName (Bool.not_eq_false _ ▸ left)
      rw [gone] at there
      cases there
    · exact (OrderedMap.find_erase_of_ne _ apart).trans ((emptied.others other apart).trans (by rw [same]))

theorem dropTable_returns (known : s.db.tabs.find tabName = some tab)
    (run : dropTable tabName context s = (.ok (),next)) : tab.indexes.length ≤ 1 := by
  rw [dropTable_known known] at run
  obtain ⟨_,locked,locking,run⟩ := bind_ok_split run
  obtain ⟨locks,granted⟩ := lockWhole_ends.ran locking
  cases file : s.rows.files tabName with
  | none =>
    rw [file] at run
    cases run
  | some f =>
    rw [file] at run
    obtain ⟨_,closed,closing,run⟩ := bind_ok_split run
    obtain ⟨_,unlinked,destroying,run⟩ := bind_ok_split run
    obtain ⟨_,_,looping,_⟩ := bind_ok_split run
    have same : unlinked.db = s.db := by
      rw [(onPool_ok destroying).2,(onPool_ok closing).2,granted]
    rcases dropIndexes_returns (by rw [same,known]) rfl looping with none | ⟨_,one⟩
    · omega
    · omega

end Calls

/-- Unless an exception or a failed assertion ends it, `drop_table` removes what belongs to the
table and reads no element outside of `tab.indexes` if and only if the table has at most one index. -/
theorem drop_table_removes_iff (s : SmManager) (tabName : String) (context : Option TxnId) (tab : TabMeta)
    (known : s.db.tabs.find tabName = some tab)
    (through : (dropTable tabName context s).1 = .ok () ∨ (dropTable tabName context s).1 = .error .outside) :
    ((∀ next, dropTable tabName context s = (.ok (),next) → Removed s tabName tab next) ∧
      (dropTable tabName context s).1 ≠ .error .outside) ↔ tab.indexes.length ≤ 1 := by
  constructor
  · rintro ⟨_,inside⟩
    match run : dropTable tabName context s with
    | (.ok (),next) => exact dropTable_returns known run
    | (.error e,next) =>
      rw [run] at through inside
      exact absurd (through.resolve_left nofun) inside
  · intro few
    have ends : Ends Orderly (fun _ next => Removed s tabName tab next) (dropTable tabName context) s := dropTable_ends known few
    refine ⟨fun next run => ends.ran run,fun outside => ?_⟩
    match run : dropTable tabName context s with
    | (.ok (),next) =>
      rw [run] at outside
      cases outside
    | (.error e,next) =>
      rw [Ends,run] at ends
      rw [run] at outside
      exact ends (Except.error.inj outside)

section Examples

/-- A table of two INT columns, each with an index if it is asked for. -/
def indexed (colNames : List String) : SmManager :=
  colNames.foldl (fun s name => (createIndex .zero "t" [name] (some 1)).after s)
    ((createTable "t" [⟨"a",.int,4⟩,⟨"b",.int,4⟩] (some 1)).after .noTables)

/-- With two indexes the second round of the loop reads behind the end of the vector. The file of the
table is gone by then; the table stays in the catalog. -/
theorem second_index_outside :
    ((indexed ["a","b"]).db.tabs.find "t").map (fun tab => tab.indexes.length) = some 2 ∧
      (dropTable "t" (some 1) (indexed ["a","b"])).1 = .error .outside ∧
      ((dropTable "t" (some 1)).after (indexed ["a","b"])).db.isTable "t" = true ∧
      ((dropTable "t" (some 1)).after (indexed ["a","b"])).pool.disk.isFile "t" = false := by
  refine ⟨?_,?_,?_,?_⟩ <;> decide +kernel

/-- A table with one index. -/
theorem one_index_removed : ∃ tab next, (indexed ["a"]).db.tabs.find "t" = some tab ∧ tab.indexes.length = 1 ∧
    dropTable "t" (some 1) (indexed ["a"]) = (.ok (),next) ∧ Removed (indexed ["a"]) "t" tab next := by
  have count : ((indexed ["a"]).db.tabs.find "t").map (fun tab => tab.indexes.length) = some 1 := by decide +kernel
  have returned : (dropTable "t" (some 1) (indexed ["a"])).1 = .ok () := by decide +kernel
  obtain ⟨tab,known,one⟩ := Option.map_eq_some_iff.mp count
  have run : dropTable "t" (some 1) (indexed ["a"]) = (.ok (),(dropTable "t" (some 1)).after (indexed ["a"])) := by
    rw [← returned,after]
  have removes := (drop_table_removes_iff (indexed ["a"]) "t" (some 1) tab known (.inl returned)).mpr (by omega)
  exact ⟨tab,_,known,one,run,removes.1 _ run⟩

end Examples

end Rucbase.DropTable
