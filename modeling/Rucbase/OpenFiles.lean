import Rucbase.DiskManager

/-! The open-file maps of the disk manager: they are inverse to each other and name descriptors that
are open. A created file keeps a descriptor that they do not name. -/
namespace Rucbase

open Lib Lib.Prog

namespace DiskManager

/-- The two maps are inverse, every descriptor in them is open, and a missing file is not
in them. -/
structure Tracked (d : DiskManager) : Prop where
  inverse : ∀ path fd, d.path2fd path = some fd ↔ d.fd2path fd = some path
  opened : ∀ path fd, d.path2fd path = some fd → (d.os.file fd).isSome = true
  named : ∀ path, d.os.dir path = none → d.path2fd path = none

variable {d next : DiskManager} {fd : Int} {path : Path}

theorem Tracked.same_path (tracked : d.Tracked) {other : Path} (first : d.path2fd path = some fd)
    (second : d.path2fd other = some fd) : path = other := by
  have left := (tracked.inverse path fd).mp first
  have right := (tracked.inverse other fd).mp second
  exact Option.mem_unique left right

/-- Only file contents differ. -/
structure SameFiles (d next : DiskManager) : Prop where
  fds : next.os.fds = d.os.fds
  dir : next.os.dir = d.os.dir
  path2fd : next.path2fd = d.path2fd
  fd2path : next.fd2path = d.fd2path
  fd2pageno : next.fd2pageno = d.fd2pageno

theorem SameFiles.frame : Frame SameFiles where
  refl _ := ⟨rfl,rfl,rfl,rfl,rfl⟩
  trans _ _ _ first second := ⟨second.fds.trans first.fds,second.dir.trans first.dir,
    second.path2fd.trans first.path2fd,second.fd2path.trans first.fd2path,
    second.fd2pageno.trans first.fd2pageno⟩

theorem SameFiles.file (same : SameFiles d next) (fd : Int) : next.os.file fd = d.os.file fd := by
  unfold Os.file
  rw [same.fds]

theorem SameFiles.tracked (same : SameFiles d next) (tracked : d.Tracked) : next.Tracked := by
  constructor
  · intro path fd
    rw [same.path2fd,same.fd2path]
    exact tracked.inverse path fd
  · intro path fd opened
    rw [same.file]
    rw [same.path2fd] at opened
    exact tracked.opened path fd opened
  · intro path missing
    rw [same.path2fd]
    rw [same.dir] at missing
    exact tracked.named path missing

theorem writePage_same {n : Nat} (fd pageNo : Int) (data : Fin n → Byte) :
    Within SameFiles (writePage fd pageNo data) := by
  apply SameFiles.frame.bind SameFiles.frame.state
  intro s
  cases s.os.file fd with
  | none => exact SameFiles.frame.raise _
  | some o =>
    apply SameFiles.frame.bind (SameFiles.frame.check _ _)
    intro _
    exact Within.update fun d => ⟨rfl,rfl,rfl,rfl,rfl⟩

theorem readPage_same (fd pageNo : Int) (n : Nat) : Within SameFiles (readPage fd pageNo n) := by
  apply SameFiles.frame.bind SameFiles.frame.state
  intro s
  apply SameFiles.frame.bind (SameFiles.frame.check _ _)
  intro _
  cases s.os.file fd with
  | none => exact SameFiles.frame.raise _
  | some o => exact SameFiles.frame.pure _

/-- The files open in `d` other than `path` stay as they are: descriptor, file, counter. -/
def Spares (path : Path) (d next : DiskManager) : Prop :=
  ∀ other fd, other ≠ path → d.path2fd other = some fd →
    next.path2fd other = some fd ∧ next.os.file fd = d.os.file fd ∧
    next.fd2pageno fd = d.fd2pageno fd

theorem Spares.frame (path : Path) : Frame (Spares path) where
  refl _ _ _ _ opened := ⟨opened,rfl,rfl⟩
  trans _ _ _ first second other fd apart opened := by
    obtain ⟨kept,file,counter⟩ := first other fd apart opened
    obtain ⟨kept',file',counter'⟩ := second other fd apart kept
    exact ⟨kept',file'.trans file,counter'.trans counter⟩

theorem SameFiles.spares (same : SameFiles d next) (path : Path) : Spares path d next := by
  intro other fd _ opened
  rw [same.path2fd,same.file,same.fd2pageno]
  exact ⟨opened,rfl,rfl⟩

/-- While `path` is open on `fd`, a call keeps it open and leaves the other files alone. -/
def Works (path : Path) (fd : Int) (d next : DiskManager) : Prop :=
  d.Tracked → d.path2fd path = some fd →
    next.Tracked ∧ next.path2fd path = some fd ∧ next.os.file fd = d.os.file fd ∧ Spares path d next

theorem Works.frame (path : Path) (fd : Int) : Frame (Works path fd) where
  refl s tracked opened := ⟨tracked,opened,rfl,(Spares.frame path).refl s⟩
  trans _ _ _ first second tracked opened := by
    obtain ⟨tracked',opened',file,spared⟩ := first tracked opened
    obtain ⟨tracked'',opened'',file',spared'⟩ := second tracked' opened'
    exact ⟨tracked'',opened'',file'.trans file,(Spares.frame path).trans _ _ _ spared spared'⟩

theorem SameFiles.works (same : SameFiles d next) (path : Path) (fd : Int) : Works path fd d next := by
  intro tracked opened
  refine ⟨same.tracked tracked,?_,same.file fd,same.spares path⟩
  rw [same.path2fd]
  exact opened

theorem setFd2pageno_works (path : Path) (fd : Int) (startPageNo : Nat) :
    Within (Works path fd) (setFd2pageno fd startPageNo) := by
  apply Within.update
  intro d tracked opened
  refine ⟨⟨tracked.inverse,tracked.opened,tracked.named⟩,opened,rfl,?_⟩
  intro other fd' apart opened'
  have differ : fd' ≠ fd := fun same => apart (tracked.same_path opened' (same ▸ opened))
  exact ⟨opened',rfl,Function.update_of_ne differ _ _⟩

/-- A new descriptor was not open before, so no tracked file had it. -/
theorem Tracked.fresh (tracked : d.Tracked) (opened : d.path2fd path = some fd) (inode : Nat) (writable : Bool) :
    (d.os.openInode inode writable).2.file fd = d.os.file fd := by
  rw [Os.file_openInode]
  split
  · rename_i same
    have some := tracked.opened path fd opened
    rw [same,Os.file_lowest] at some
    contradiction
  · rfl

theorem Tracked.fresh_fd (tracked : d.Tracked) (inode : Nat) (writable : Bool) :
    d.fd2path (d.os.openInode inode writable).1 = none := by
  cases taken : d.fd2path (d.os.openInode inode writable).1 with
  | none => rfl
  | some other =>
    have opened := tracked.opened _ _ ((tracked.inverse other _).mpr taken)
    rw [Os.file_lowest] at opened
    contradiction

/-- The file at `path` is opened and entered into the maps. -/
def opened (d : DiskManager) (path : Path) (inode : Nat) : DiskManager :=
  ⟨(d.os.openInode inode true).2,Function.update d.path2fd path (some (d.os.openInode inode true).1),
    Function.update d.fd2path (d.os.openInode inode true).1 (some path),d.fd2pageno⟩

theorem openFile_new {inode : Nat} (tracked : d.Tracked) (known : d.path2fd path = none)
    (entry : d.os.dir path = some inode) : openFile path d = (.ok (d.os.openInode inode true).1,d.opened path inode) := by
  simp [openFile,bind_run,known,entry,emplace_absent,tracked.fresh_fd inode true,opened]

/-- Every file that was open stays as it is. -/
def Leaves (d next : DiskManager) : Prop :=
  d.Tracked → next.Tracked ∧ ∀ other fd, d.path2fd other = some fd →
    next.path2fd other = some fd ∧ next.os.file fd = d.os.file fd ∧
    next.fd2pageno fd = d.fd2pageno fd

theorem Leaves.frame : Frame Leaves where
  refl _ tracked := ⟨tracked,fun _ _ opened => ⟨opened,rfl,rfl⟩⟩
  trans _ _ _ first second tracked := by
    obtain ⟨tracked',kept⟩ := first tracked
    obtain ⟨tracked'',kept'⟩ := second tracked'
    refine ⟨tracked'',fun other fd opened => ?_⟩
    obtain ⟨opened',file,counter⟩ := kept other fd opened
    obtain ⟨opened'',file',counter'⟩ := kept' other fd opened'
    exact ⟨opened'',file'.trans file,counter'.trans counter⟩

theorem createFile_run (path : Path) (d : DiskManager) :
    (∃ e, createFile path d = (.error e,d)) ∨
    ∃ next, createFile path d = (.ok (),next) ∧ d.os.dir path = none ∧ Leaves d next ∧
      next.path2fd = d.path2fd := by
  by_cases present : d.isFile path = true
  · left
    exact ⟨_,by simp [createFile,bind_run,present]; rfl⟩
  · have missing : d.os.dir path = none := by simpa [isFile] using present
    have made : createFile path d = (.ok (),{ d with os := (d.os.creat path).2 }) := by
      simp [createFile,bind_run,present]
    refine .inr ⟨_,made,missing,?_,rfl⟩
    intro tracked
    have files : ∀ other fd, d.path2fd other = some fd → (d.os.creat path).2.file fd = d.os.file fd :=
      fun other fd opened => tracked.fresh opened _ _
    refine ⟨⟨tracked.inverse,?_,?_⟩,fun other fd opened => ⟨opened,files other fd opened,rfl⟩⟩
    · intro other fd opened
      exact (files other fd opened).symm ▸ tracked.opened other fd opened
    · intro other absent
      apply tracked.named other
      by_cases same : other = path
      · rw [same]
        exact missing
      · simpa [Os.creat,Os.openInode,same] using absent

theorem opened_leaves {inode : Nat} (tracked : d.Tracked) (known : d.path2fd path = none)
    (entry : d.os.dir path = some inode) : Leaves d (d.opened path inode) := by
  intro _
  obtain ⟨fd,chosen⟩ : ∃ fd, fd = (d.os.openInode inode true).1 := ⟨_,rfl⟩
  have paths : (d.opened path inode).path2fd = Function.update d.path2fd path (some fd) := by rw [chosen]; rfl
  have names : (d.opened path inode).fd2path = Function.update d.fd2path fd (some path) := by rw [chosen]; rfl
  have fresh : d.fd2path fd = none := chosen ▸ tracked.fresh_fd inode true
  have here : (d.opened path inode).os.file fd = some ⟨inode,true⟩ := by
    rw [chosen]
    exact (Os.file_openInode ..).trans (if_pos rfl)
  have kept : ∀ other fd', d.path2fd other = some fd' → other ≠ path := by
    rintro other fd' opened rfl
    rw [known] at opened
    contradiction
  refine ⟨⟨?_,?_,?_⟩,?_⟩
  · intro other fd'
    rw [paths,names]
    by_cases same : other = path
    · subst other
      by_cases equal : fd' = fd
      · simp [equal]
      · have apart := mt (tracked.inverse path fd').mpr (by simp [known])
        simp [equal,Ne.symm equal,apart]
    · by_cases equal : fd' = fd
      · have free := mt (tracked.inverse other fd).mp (by rw [fresh]; simp)
        simp [equal,same,Ne.symm same,free]
      · simpa [equal,same] using tracked.inverse other fd'
  · intro other fd' opened
    rw [paths] at opened
    by_cases same : other = path
    · obtain rfl : fd = fd' := by simpa [same] using opened
      rw [here]
      rfl
    · have old : d.path2fd other = some fd' := by simpa [same] using opened
      exact (tracked.fresh old inode true).symm ▸ tracked.opened other fd' old
  · intro other absent
    have apart : other ≠ path := by
      rintro rfl
      exact absurd (entry.symm.trans absent) nofun
    rw [paths]
    simpa [apart] using tracked.named other absent
  · intro other fd' opened
    rw [paths]
    exact ⟨by simpa [kept other fd' opened] using opened,tracked.fresh opened inode true,rfl⟩

/-- The descriptor and the file `open_file` will return. -/
def opens (d : DiskManager) (path : Path) : Option (Int × Nat) :=
  match d.path2fd path with
  | some fd => (d.os.file fd).map fun o => (fd,o.inode)
  | none => (d.os.dir path).map fun inode => ((Os.lowestFree d.os.fds : Int),inode)

theorem openFile_run (path : Path) (d : DiskManager) (tracked : d.Tracked) :
    (∃ e, openFile path d = (.error e,d)) ∨
    ∃ fd inode next, openFile path d = (.ok fd,next) ∧ Leaves d next ∧
      next.path2fd path = some fd ∧ d.opens path = some (fd,inode) ∧
      (next.os.file fd).map OpenFile.inode = some inode ∧ next.os.inodes = d.os.inodes ∧
      next.fd2pageno = d.fd2pageno := by
  cases known : d.path2fd path with
  | some fd =>
    obtain ⟨o,here⟩ := Option.isSome_iff_exists.mp (tracked.opened path fd known)
    refine .inr ⟨fd,o.inode,d,?_,Leaves.frame.refl d,known,?_,?_,rfl,rfl⟩
    · simp [openFile,bind_run,known]
    · simp [opens,known,here]
    · simp [here]
  | none =>
    cases entry : d.os.dir path with
    | none => exact .inl ⟨_,by simp [openFile,bind_run,known,entry]; rfl⟩
    | some inode =>
      refine .inr ⟨_,inode,_,openFile_new tracked known entry,opened_leaves tracked known entry,?_,?_,?_,rfl,rfl⟩
      · exact Function.update_self ..
      · simp [opens,known,entry,Os.openInode]
      · simp [DiskManager.opened,Os.file_openInode]

/-- The descriptor is closed and leaves the maps. -/
def closed (d : DiskManager) (path : Path) (fd : Int) : DiskManager :=
  ⟨d.os.close fd,Function.update d.path2fd path none,Function.update d.fd2path fd none,d.fd2pageno⟩

theorem closeFile_known (named : d.fd2path fd = some path) : closeFile fd d = (.ok (),d.closed path fd) := by
  simp [closeFile,bind_run,named,closed]

section Opened

variable (tracked : d.Tracked) (opened : d.path2fd path = some fd)

include tracked opened

theorem Tracked.valid : 0 ≤ fd := by
  by_contra negative
  have some := tracked.opened path fd opened
  simp [Os.file,negative] at some

theorem closed_tracked : (d.closed path fd).Tracked := by
  have valid := tracked.valid opened
  refine ⟨fun other fd' => ?_,fun other fd' taken => ?_,fun other absent => ?_⟩
  · rw [closed]
    by_cases same : other = path
    · subst other
      by_cases equal : fd' = fd
      · simp [equal]
      · have apart : d.fd2path fd' ≠ some path := by
          intro taken
          have twice := (tracked.inverse path fd').mpr taken
          rw [opened] at twice
          exact equal (Option.some.inj twice).symm
        simp [equal,apart]
    · by_cases equal : fd' = fd
      · have apart : d.path2fd other ≠ some fd :=
          fun taken => same (tracked.same_path taken opened)
        simp [same,equal,apart]
      · simpa [same,equal] using tracked.inverse other fd'
  · rw [closed] at taken ⊢
    by_cases same : other = path
    · simp [same] at taken
    · have old : d.path2fd other = some fd' := by simpa [same] using taken
      have differ : fd' ≠ fd := fun equal => same (tracked.same_path old (equal ▸ opened))
      rw [Os.file_close _ _ _ valid,if_neg differ]
      exact tracked.opened other fd' old
  · rw [closed]
    by_cases same : other = path
    · simp [same]
    · simpa [same] using tracked.named other absent

theorem closeFile_run : ∃ next, closeFile fd d = (.ok (),next) ∧ next.Tracked ∧
      Spares path d next ∧ next.path2fd path = none := by
  refine ⟨_,closeFile_known ((tracked.inverse path fd).mp opened),closed_tracked tracked opened,?_,by simp [closed]⟩
  intro other fd' apart taken
  have differ : fd' ≠ fd := fun equal => apart (tracked.same_path taken (equal ▸ opened))
  rw [closed]
  exact ⟨by simpa [apart] using taken,by rw [Os.file_close _ _ _ (tracked.valid opened),if_neg differ],rfl⟩

end Opened

theorem unlinked_tracked (tracked : d.Tracked) (closed : d.path2fd path = none) :
    Tracked { d with os := d.os.unlink path } := by
  refine ⟨tracked.inverse,tracked.opened,fun other absent => ?_⟩
  by_cases same : other = path
  · rw [same]
    exact closed
  · exact tracked.named other (by simpa [Os.unlink,same] using absent)

theorem destroyFile_spares (tracked : d.Tracked) (closed : d.path2fd path = none) : ((destroyFile path).after d).Tracked ∧
      Spares path d ((destroyFile path).after d) := by
  unfold after
  by_cases present : d.isFile path = true
  · have ran : destroyFile path d = (.ok (),{ d with os := d.os.unlink path }) := by
      simp [destroyFile,bind_run,check,present,closed]
    rw [ran]
    exact ⟨unlinked_tracked tracked closed,fun other fd _ opened => ⟨opened,rfl,rfl⟩⟩
  · have ran : destroyFile path d = (.error (.fileNotFound path),d) := by
      simp [destroyFile,bind_run,check,present]
    rw [ran]
    exact ⟨tracked,(Spares.frame path).refl d⟩

inductive DiskOp where
  | createFile (path : Path)
  | openFile (path : Path)
  | closeFile (fd : Int)
  | destroyFile (path : Path)
  | getFileFd (path : Path)

/-- One call, returning or throwing. -/
def step (d : DiskManager) : DiskOp → DiskManager
  | .createFile path => (createFile path).after d
  | .openFile path => (openFile path).after d
  | .closeFile fd => (closeFile fd).after d
  | .destroyFile path => (destroyFile path).after d
  | .getFileFd path => (getFileFd path).after d

/-- A new disk manager in a process that has the files of `os` open. -/
def new (os : Os) : DiskManager := ⟨os,fun _ => none,fun _ => none,fun _ => 0⟩

/-- The maps are finite and inverse to each other, and name exactly the descriptors that are open
beside those of `os`. -/
structure TracksOpen (os : Os) (d : DiskManager) : Prop where
  inverse : ∀ path fd, d.path2fd path = some fd ↔ d.fd2path fd = some path
  finite : ∃ paths : List Path, ∀ path fd, d.path2fd path = some fd → path ∈ paths
  held : ∀ fd, (d.fd2path fd).isSome = true ↔ (d.os.file fd).isSome = true ∧ os.file fd = none

def CreatesNothing (d : DiskManager) : DiskOp → Prop
  | .createFile path => d.isFile path = true
  | _ => True

/-- The maps say nothing wrong, and the descriptors of `os` are still open. -/
structure Base (os : Os) (d : DiskManager) : Prop where
  tracked : d.Tracked
  kept : ∀ fd, (os.file fd).isSome = true → (d.os.file fd).isSome = true ∧ d.fd2path fd = none

def Held (os : Os) (d : DiskManager) : Prop :=
  ∀ fd, (d.fd2path fd).isSome = true ↔ (d.os.file fd).isSome = true ∧ os.file fd = none

/-- The states a call can lead to. -/
inductive Moves (d : DiskManager) : DiskManager → Prop where
  | stays : Moves d d
  | opens {path : Path} {inode : Nat} : d.path2fd path = none → d.os.dir path = some inode → Moves d (d.opened path inode)
  | closes {path : Path} {fd : Int} : d.path2fd path = some fd → Moves d (d.closed path fd)
  | unlinks {path : Path} : d.path2fd path = none → Moves d { d with os := d.os.unlink path }
  | drops {path : Path} {fd : Int} : d.path2fd path = some fd →
      Moves d { d.closed path fd with os := (d.closed path fd).os.unlink path }

section Step

variable {os : Os} {d : DiskManager} {path : Path} {fd : Int} {inode : Nat}

/-- Only descriptors within the table are open, so only finitely many paths are. -/
theorem Tracked.finite (tracked : d.Tracked) : ∃ paths : List Path, ∀ path fd, d.path2fd path = some fd → path ∈ paths := by
  refine ⟨(List.range d.os.fds.length).filterMap fun i : Nat => d.fd2path (i : Int),fun path fd opened => ?_⟩
  have file := tracked.opened path fd opened
  have named := (tracked.inverse path fd).mp opened
  rw [Os.file] at file
  split at file
  · rename_i valid
    have inside : fd.toNat < d.os.fds.length := by
      by_contra outside
      simp [List.getElem?_eq_none (by omega : d.os.fds.length ≤ fd.toNat)] at file
    exact List.mem_filterMap.mpr ⟨fd.toNat,List.mem_range.mpr inside,by rwa [Int.toNat_of_nonneg valid]⟩
  · cases file

section Based

variable (base : Base os d)

include base

theorem Base.tracksOpen_iff : TracksOpen os d ↔ Held os d :=
  ⟨TracksOpen.held,fun held => ⟨base.tracked.inverse,base.tracked.finite,held⟩⟩

theorem Base.new_fd (inode : Nat) (writable : Bool) : os.file (d.os.openInode inode writable).1 = none := by
  cases before : os.file (d.os.openInode inode writable).1 with
  | none => rfl
  | some o =>
    have still := (base.kept _ (by rw [before]; rfl)).1
    rw [Os.file_lowest] at still
    cases still

theorem opened_base (known : d.path2fd path = none) (entry : d.os.dir path = some inode) :
    Base os (d.opened path inode) where
  tracked := (opened_leaves base.tracked known entry base.tracked).1
  kept fd before := by
    have apart : fd ≠ (d.os.openInode inode true).1 := by
      rintro rfl
      rw [base.new_fd] at before
      cases before
    rw [DiskManager.opened]
    dsimp only
    rw [Os.file_openInode,if_neg apart,Function.update_of_ne apart]
    exact base.kept fd before

theorem opened_held (held : Held os d) : Held os (d.opened path inode) := by
  intro fd
  rw [DiskManager.opened]
  dsimp only
  rw [Os.file_openInode]
  by_cases same : fd = (d.os.openInode inode true).1
  · subst fd
    simp [base.new_fd]
  · rw [if_neg same,Function.update_of_ne same]
    exact held fd

theorem closed_base (opened : d.path2fd path = some fd) : Base os (d.closed path fd) where
  tracked := closed_tracked base.tracked opened
  kept other before := by
    have named := (base.tracked.inverse path fd).mp opened
    have apart : other ≠ fd := by
      rintro rfl
      rw [(base.kept other before).2] at named
      cases named
    rw [closed]
    dsimp only
    rw [Os.file_close _ _ _ (base.tracked.valid opened),if_neg apart,Function.update_of_ne apart]
    exact base.kept other before

theorem closed_held (held : Held os d) (opened : d.path2fd path = some fd) : Held os (d.closed path fd) := by
  intro other
  rw [closed]
  dsimp only
  rw [Os.file_close _ _ _ (base.tracked.valid opened)]
  by_cases same : other = fd
  · subst other
    simp
  · rw [if_neg same,Function.update_of_ne same]
    exact held other

end Based

theorem Moves.base (moves : Moves d next) (base : Base os d) : Base os next := by
  cases moves with
  | stays => exact base
  | opens known entry => exact opened_base base known entry
  | closes opened => exact closed_base base opened
  | unlinks known => exact ⟨unlinked_tracked base.tracked known,base.kept⟩
  | drops opened =>
    have middle := closed_base base opened
    exact ⟨unlinked_tracked middle.tracked (by simp [closed]),middle.kept⟩

theorem Moves.held (moves : Moves d next) (base : Base os d) (held : Held os d) : Held os next := by
  cases moves with
  | stays => exact held
  | opens _ _ => exact opened_held base held
  | closes opened => exact closed_held base held opened
  | unlinks _ => exact held
  | drops opened => exact closed_held base held opened

theorem openFile_moves (tracked : d.Tracked) (path : Path) : Moves d ((openFile path).after d) := by
  cases known : d.path2fd path with
  | some fd =>
    have run : openFile path d = (.ok fd,d) := by simp [openFile,bind_run,known]
    rw [after,run]
    exact .stays
  | none =>
    cases entry : d.os.dir path with
    | none =>
      have run : openFile path d = (.error (.fileNotFound path),d) := by simp [openFile,bind_run,known,entry]
      rw [after,run]
      exact .stays
    | some inode =>
      rw [after,openFile_new tracked known entry]
      exact .opens known entry

theorem getFileFd_eq (d : DiskManager) (path : Path) : getFileFd path d = openFile path d := by
  cases known : d.path2fd path with
  | some fd => simp [getFileFd,openFile,bind_run,known]
  | none => simp [getFileFd,bind_run,known]

theorem closeFile_moves (tracked : d.Tracked) (fd : Int) : Moves d ((closeFile fd).after d) := by
  cases named : d.fd2path fd with
  | none =>
    have run : closeFile fd d = (.ok (),d) := by simp [closeFile,bind_run,named]
    rw [after,run]
    exact .stays
  | some path =>
    rw [after,closeFile_known named]
    exact .closes ((tracked.inverse path fd).mpr named)

theorem destroyFile_moves (d : DiskManager) (path : Path) : Moves d ((destroyFile path).after d) := by
  by_cases present : d.isFile path = true
  · cases known : d.path2fd path with
    | none =>
      have run : destroyFile path d = (.ok (),{ d with os := d.os.unlink path }) := by
        simp [destroyFile,bind_run,check,present,known]
      rw [after,run]
      exact .unlinks known
    | some fd =>
      have run : destroyFile path d = (.ok (),{ d.closed path fd with os := (d.closed path fd).os.unlink path }) := by
        simp [destroyFile,bind_run,check,present,known,closed]
      rw [after,run]
      exact .drops known
  · have run : destroyFile path d = (.error (.fileNotFound path),d) := by
      simp [destroyFile,bind_run,check,present]
    rw [after,run]
    exact .stays

theorem created_base (path : Path) (base : Base os d) (missing : d.os.dir path = none) :
    Base os { d with os := (d.os.creat path).2 } ∧ ¬ Held os { d with os := (d.os.creat path).2 } := by
  have made : createFile path d = (.ok (),{ d with os := (d.os.creat path).2 }) := by
    simp [createFile,bind_run,isFile,missing]
  obtain ⟨e,failed⟩ | ⟨next,run,_,leaves,_⟩ := createFile_run path d
  · exact absurd (congrArg Prod.fst (made.symm.trans failed)) nofun
  obtain rfl : { d with os := (d.os.creat path).2 } = next := congrArg Prod.snd (made.symm.trans run)
  have files (fd : Int) : (d.os.creat path).2.file fd =
      if fd = (d.os.openInode d.os.nextInode false).1 then some ⟨d.os.nextInode,false⟩ else d.os.file fd :=
    Os.file_openInode { d.os with inodes := _, nextInode := _, dir := _ } d.os.nextInode false fd
  refine ⟨⟨(leaves base.tracked).1,fun fd before => ?_⟩,fun held => ?_⟩
  · have kept := base.kept fd before
    refine ⟨?_,kept.2⟩
    dsimp only
    rw [files]
    split
    · rfl
    · exact kept.1
  · have listed := (held (d.os.openInode d.os.nextInode false).1).mpr ⟨?_,base.new_fd _ _⟩
    · rw [base.tracked.fresh_fd] at listed
      cases listed
    · dsimp only
      rw [files,if_pos rfl]
      rfl

end Step

theorem step_base {os : Os} (d : DiskManager) (op : DiskOp) (base : Base os d) : Base os (step d op) := by
  cases op with
  | createFile path =>
    by_cases present : d.isFile path = true
    · rw [step,after,show createFile path d = (.error (.fileExists path),d) by simp [createFile,bind_run,present]]
      exact base
    · rw [step,after,show createFile path d = (.ok (),{ d with os := (d.os.creat path).2 }) by
        simp [createFile,bind_run,present]]
      exact (created_base path base (by simpa [isFile] using present)).1
  | openFile path => exact (openFile_moves base.tracked path).base base
  | closeFile fd => exact (closeFile_moves base.tracked fd).base base
  | destroyFile path => exact (destroyFile_moves d path).base base
  | getFileFd path =>
    rw [step,after,getFileFd_eq]
    exact (openFile_moves base.tracked path).base base

theorem step_held_iff {os : Os} (d : DiskManager) (op : DiskOp) (base : Base os d) (held : Held os d) :
    CreatesNothing d op ↔ Held os (step d op) := by
  cases op with
  | createFile path =>
    by_cases present : d.isFile path = true
    · rw [step,after,show createFile path d = (.error (.fileExists path),d) by simp [createFile,bind_run,present]]
      exact ⟨fun _ => held,fun _ => present⟩
    · rw [step,after,show createFile path d = (.ok (),{ d with os := (d.os.creat path).2 }) by
        simp [createFile,bind_run,present]]
      have leaked := (created_base path base (by simpa [isFile] using present)).2
      exact ⟨fun exists_ => absurd exists_ present,fun tracked => absurd tracked leaked⟩
  | openFile path => exact ⟨fun _ => (openFile_moves base.tracked path).held base held,fun _ => trivial⟩
  | closeFile fd => exact ⟨fun _ => (closeFile_moves base.tracked fd).held base held,fun _ => trivial⟩
  | destroyFile path => exact ⟨fun _ => (destroyFile_moves d path).held base held,fun _ => trivial⟩
  | getFileFd path =>
    rw [step,after,getFileFd_eq]
    exact ⟨fun _ => (openFile_moves base.tracked path).held base held,fun _ => trivial⟩

/-- The maps track the open files in every state of a run if and only if no call creates a file. -/
theorem tracks_open_iff (os : Os) (ops : List DiskOp) :
    (∀ before after, ops = before ++ after → TracksOpen os (before.foldl step (new os))) ↔
      Guarded step CreatesNothing (new os) ops := by
  have base : Base os (new os) :=
    ⟨⟨fun _ _ => ⟨nofun,nofun⟩,nofun,fun _ _ => rfl⟩,fun fd before => ⟨before,rfl⟩⟩
  refine (guarded_iff (Base os) (TracksOpen os) step_base (fun d op base tracks => ?_) _ base ?_ ops).symm
  · rw [(step_base d op base).tracksOpen_iff]
    exact step_held_iff d op base tracks.held
  · refine base.tracksOpen_iff.mpr fun fd => ⟨nofun,fun ⟨opened,closed⟩ => ?_⟩
    rw [new,closed] at opened
    cases opened

def shell : Os := ⟨fun _ => File.empty,1,fun _ => none,[some ⟨0,true⟩,some ⟨0,true⟩,some ⟨0,true⟩]⟩

/-- The descriptor of a file that was created stays open when the file is gone. -/
theorem created_file_leaks : ¬ TracksOpen shell ([.createFile "t",.destroyFile "t"].foldl step (new shell)) := by
  intro tracks
  have listed := (tracks.held 3).mpr ⟨by decide,by decide⟩
  exact absurd listed (by decide)

end DiskManager

end Rucbase
