import HttpNest.Lib.CNumeral
import HttpNest.Lib.PathNames
import HttpNest.Spec.HttpRequest

/-!
# `FileMgr` and the names of rotated logs

The path functions of `StringUtils`, and `FileMgr` with the fields of the last check's local
time. The name of an archive is put together from the path, the file name and the extension of
the log, and the time of the check before. `logs_` is a map without duplicate keys; of a
`FileLog` it is its type and size that a check reads.
-/

namespace HttpNest

open CNumeral PathNames

/-! ## `StringUtils` -/

namespace StringUtils

/-- One of the two characters of `"/\\"`. -/
def isSeparator (c : UInt8) : Bool := c == 47 || c == 92

def isDot (c : UInt8) : Bool := c == 46

def filePath (path : Bytes) : Bytes :=
  match findLastOf isSeparator path with
  | some pos => path.take pos
  | none => ascii "./"

/-- A path that ends with a separator is its own file name. -/
def fileNameExt (path : Bytes) : Bytes :=
  match findLastOf isSeparator path with
  | some pos => if pos + 1 < path.length then path.drop (pos + 1) else path
  | none => path

def fileName (path : Bytes) : Bytes :=
  let fileName := fileNameExt path
  match findLastOf isDot fileName with
  | some pos => if pos ≠ 0 then fileName.take pos else fileName
  | none => fileName

def extension (path : Bytes) : Bytes :=
  let fileName := fileNameExt path
  match findLastOf isDot fileName with
  | some pos => if pos ≠ 0 ∧ pos + 1 < fileName.length then fileName.drop (pos + 1) else []
  | none => []

end StringUtils

/-! ## `FileLog` -/

inductive RotateType
  | kRotateNone
  | kRotateMinute
  | kRotateHour
  | kRotateDay
  deriving DecidableEq, Repr

structure FileLog where
  rotateType : RotateType := .kRotateNone
  fileSize : ℤ := 0
  deriving DecidableEq

/-! ## `FileMgr` -/

/-- The fields that `Time::Now` sets and a check compares or prints. -/
structure TimeFields where
  year : ℤ := -1
  month : ℤ := -1
  day : ℤ := -1
  hour : ℤ := -1
  minute : ℤ := -1
  deriving DecidableEq

/-- What `Time::Now` reads from the clock. The first day of a month is the first. -/
structure LocalTime where
  fields : TimeFields
  day_pos : 1 ≤ fields.day
  deriving DecidableEq

/-- `last` are the five fields `lastYear_` to `lastMinute_`. -/
structure FileMgr where
  last : TimeFields := {}
  deriving DecidableEq

abbrev LogTable := AList fun _ : Bytes => FileLog

namespace FileMgr

/-- The day, as all three functions print it. -/
def dayText (t : TimeFields) : Bytes :=
  95 :: (printBlanks 4 t.year ++ 45 :: (printZeros 2 t.month ++ 45 :: printZeros 2 t.day))

/-- The name that is put together from the log's path and the text of a time. -/
def archiveName (filePath buf : Bytes) : Bytes :=
  StringUtils.filePath filePath ++ StringUtils.fileName filePath ++ buf ++ [46] ++
    StringUtils.extension filePath

def daysName (last : TimeFields) (filePath : Bytes) : Bytes :=
  archiveName filePath (dayText last)

def hoursName (last : TimeFields) (filePath : Bytes) : Bytes :=
  archiveName filePath (dayText last ++ 84 :: printZeros 2 last.hour)

def minutesName (last : TimeFields) (filePath : Bytes) : Bytes :=
  archiveName filePath
    (dayText last ++ 84 :: (printZeros 2 last.hour ++ printZeros 2 last.minute))

/-- What is passed to `FileLog::Rotate`, with the path of the log. -/
def rotateDays (m : FileMgr) (filePath : Bytes) (file : FileLog) : List (Bytes × Bytes) :=
  if 0 < file.fileSize then [(filePath, daysName m.last filePath)] else []

def rotateHours (m : FileMgr) (filePath : Bytes) (file : FileLog) : List (Bytes × Bytes) :=
  if 0 < file.fileSize then [(filePath, hoursName m.last filePath)] else []

def rotateMinutes (m : FileMgr) (filePath : Bytes) (file : FileLog) : List (Bytes × Bytes) :=
  if 0 < file.fileSize then [(filePath, minutesName m.last filePath)] else []

/-- The loop of `OnCheck`, with the changes that have been seen. -/
def rotateLogs (m : FileMgr) (minuteChange hourChange dayChange : Bool) (logs : LogTable) :
    List (Bytes × Bytes) :=
  logs.entries.flatMap fun log =>
    (if minuteChange ∧ log.2.rotateType = .kRotateMinute then m.rotateMinutes log.1 log.2
      else []) ++
    (if hourChange ∧ log.2.rotateType = .kRotateHour then m.rotateHours log.1 log.2 else []) ++
    (if dayChange ∧ log.2.rotateType = .kRotateDay then m.rotateDays log.1 log.2 else [])

/-- A check at the time `now`, and the calls of `FileLog::Rotate` in it. -/
def onCheck (m : FileMgr) (now : TimeFields) (logs : LogTable) : FileMgr × List (Bytes × Bytes) :=
  let m := if m.last.day = -1 then { m with last := now } else m
  let dayChange := decide (m.last.day ≠ now.day)
  let hourChange := decide (m.last.hour ≠ now.hour)
  let minuteChange := decide (m.last.minute ≠ now.minute)
  if !dayChange && !hourChange && !minuteChange then (m, [])
  else ({ m with last := now }, m.rotateLogs minuteChange hourChange dayChange logs)

end FileMgr

end HttpNest
