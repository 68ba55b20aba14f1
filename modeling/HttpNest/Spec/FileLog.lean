import HttpNest.Lib.EventRun
import HttpNest.Lib.FileSystem
import HttpNest.Spec.FileMgr

/-!
# `FileLog` and the file system

An `OpenLog` is a `FileLog` whose `Open` has succeeded: `GetFileLog` returns no other. `write`,
`rename`, `open` and `dup2` are one step each, and other threads write between the steps of a
`Rotate`. `rename` and `open` can fail, `dup2` is taken to succeed, as both descriptors are open;
`write` may take less than it is given, down to nothing, and `WriteLog`'s caller does not look at
what it returns.

In a `CheckedLog` the calls of `Rotate` are those that `FileMgr::OnCheck` makes for this log.
-/

namespace HttpNest

/-- What `Rotate` has done: nothing, the renaming, or the `open` as well. -/
inductive RotateStage
  | idle
  | renamed
  | reopened (file : ℕ)
  deriving DecidableEq, Repr

/-- `fd_` stands for `file`. `written` are the bytes that the file held at first and those that
`write` has taken, and `archives` the names that it has been renamed to. -/
structure OpenLog (ν : Type*) where
  fs : FileSystem ν UInt8
  file : ℕ
  stage : RotateStage := .idle
  written : Bytes
  archives : List ν := []

inductive LogEvent (ν : Type*)
  | write (msg : Bytes) (taken : ℕ)
  | rotate (file : ν) (ok : Bool)
  | reopen (ok : Bool)
  | dup2

namespace OpenLog

variable {ν : Type*} [DecidableEq ν]

/-- `FileLog::Open` -/
def start (fs : FileSystem ν UInt8) (filePath : ν) : OpenLog ν where
  fs := (fs.openFile filePath).1
  file := (fs.openFile filePath).2
  written := (fs.openFile filePath).1.content (fs.openFile filePath).2

def fileSize (s : OpenLog ν) : ℤ := (s.fs.content s.file).length

/-- `Rotate` is called by `RotateDays` and its siblings, if `FileSize()` is positive. `ok` tells
whether a `rename` or `open` that can succeed does. -/
def step (filePath : ν) (s : OpenLog ν) : LogEvent ν → Option (OpenLog ν)
  | .write msg taken => some { s with
      fs := s.fs.append s.file (msg.take taken), written := s.written ++ msg.take taken }
  | .rotate file ok =>
    if s.stage = .idle ∧ 0 < s.fileSize then
      match s.fs.rename filePath file with
      | some fs => some (if ok then
          { s with fs := fs, stage := .renamed, archives := s.archives ++ [file] } else s)
      | none => some s
    else none
  | .reopen ok =>
    if s.stage = .renamed then
      some (if ok then { s with
        fs := (s.fs.openFile filePath).1, stage := .reopened (s.fs.openFile filePath).2 }
      else { s with stage := .idle })
    else none
  | .dup2 =>
    match s.stage with
    | .reopened file => some { s with file := file, stage := .idle }
    | .idle | .renamed => none

/-- What is found of the log: the archives, in the order of their last use, and the file that is
written to if it is none of them. -/
def held (s : OpenLog ν) : Bytes :=
  (s.archives.dedup.flatMap fun n => (s.fs.read n).getD []) ++
    if s.archives.any fun n => s.fs.entry n = some s.file then [] else s.fs.content s.file

end OpenLog

/-! ## With `FileMgr` -/

/-- The file that a path names: its directory, and the name there. -/
def filePlace {D : Type*} (T : PathNames.DirTree D) (path : Bytes) : Option D × Bytes :=
  (T.directory path, PathNames.base path)

/-- A `FileMgr` and one log in `logs_`. -/
structure CheckedLog (D : Type*) where
  mgr : FileMgr := {}
  log : OpenLog (Option D × Bytes)

inductive CheckEvent
  | write (msg : Bytes) (taken : ℕ)
  | check (now : LocalTime) (ok : Bool)
  | reopen (ok : Bool)
  | dup2

namespace CheckedLog

variable {D : Type*} [DecidableEq D]

/-- `logs_`, with what a check reads of the log. -/
def logs (path : Bytes) (type : RotateType) (s : CheckedLog D) : LogTable :=
  (∅ : LogTable).insert path ⟨type, s.log.fileSize⟩

/-- `OnCheck` returns when the `Rotate` that it has called does. -/
def step (T : PathNames.DirTree D) (path : Bytes) (type : RotateType) (s : CheckedLog D) :
    CheckEvent → Option (CheckedLog D)
  | .write msg taken =>
    (s.log.step (filePlace T path) (.write msg taken)).map fun log => { s with log := log }
  | .check now ok =>
    if s.log.stage = .idle then
      let r := s.mgr.onCheck now.fields (s.logs path type)
      match r.2 with
      | [] => some { s with mgr := r.1 }
      | (_, file) :: _ =>
        (s.log.step (filePlace T path) (.rotate (filePlace T file) ok)).map fun log => ⟨r.1, log⟩
    else none
  | .reopen ok =>
    (s.log.step (filePlace T path) (.reopen ok)).map fun log => { s with log := log }
  | .dup2 => (s.log.step (filePlace T path) .dup2).map fun log => { s with log := log }

/-- What the clock says at the checks of a run. -/
def readings (es : List CheckEvent) : List LocalTime :=
  es.filterMap fun
    | .check now _ => some now
    | _ => none

end CheckedLog

end HttpNest
