import HttpNest.Lib.JsonValue
import HttpNest.Spec.EventLoopThreadPool
import HttpNest.Spec.FileMgr
import HttpNest.Spec.SocketAddress

/-!
# `Config`, and what `main` does with it

`LoadConfig` reads a JSON text that is parsed already. Nothing catches the exceptions of
`Json::Value`. The servers that `HttpService` starts are one for each loop and each of the
services whose protocol is HTTP.
-/

namespace HttpNest

open CNumeral JsonValue

inductive LogLevel
  | kTrace
  | kDebug
  | kInfo
  | kWarn
  | kError
  deriving DecidableEq, Repr

/-- `make_shared` sets `level` to zero. -/
structure LogInfo where
  level : LogLevel := .kTrace
  path : Bytes := []
  name : Bytes := []
  rotateType : RotateType := .kRotateNone
  deriving DecidableEq

structure ServiceInfo where
  addr : Bytes
  port : BitVec 16
  protocol : Bytes
  transport : Bytes
  deriving DecidableEq

structure Config where
  name : Bytes := []
  cpuStart : ℤ := 0
  threadNums : ℤ := 1
  cpus : ℤ := 1
  logInfo : Option LogInfo := none
  services : List ServiceInfo := []
  deriving DecidableEq

variable {ρ α : Type}

/-- `if (!v.isNull()) { … }`, with the value that is there before. -/
def unlessNull (v : JsonValue ρ) (before : α) (f : JsonValue ρ → Except String α) :
    Except String α :=
  if v.isNull then .ok before else f v

namespace Config

def levelOf (level : Bytes) (before : LogLevel) : LogLevel :=
  if level = ascii "TRACE" then .kTrace
  else if level = ascii "DEBUG" then .kDebug
  else if level = ascii "INFO" then .kInfo
  else if level = ascii "WARN" then .kWarn
  else if level = ascii "ERROR" then .kError
  else before

def rotateOf (rt : Bytes) (before : RotateType) : RotateType :=
  if rt = ascii "DAY" then .kRotateDay
  else if rt = ascii "HOUR" then .kRotateHour
  else before

def parseLogInfo (reals : JsonReals ρ) (root : JsonValue ρ) : Except String LogInfo := do
  let level ← unlessNull (← root.index (ascii "level")) .kTrace fun v =>
    return levelOf (← v.asString reals) .kTrace
  let path ← unlessNull (← root.index (ascii "path")) [] fun v => v.asString reals
  let name ← unlessNull (← root.index (ascii "name")) [] fun v => v.asString reals
  let rotateType ← unlessNull (← root.index (ascii "rotate")) .kRotateNone fun v =>
    return rotateOf (← v.asString reals) .kRotateNone
  return { level, path, name, rotateType }

/-- One service. The default of the port is a text. -/
def parseService (reals : JsonReals ρ) (s : JsonValue ρ) : Except String ServiceInfo := do
  let addr ← (← s.get (ascii "addr") (.string (ascii "0.0.0.0"))).asString reals
  let port ← (← s.get (ascii "port") (.string (ascii "0"))).asInt reals
  let protocol ← (← s.get (ascii "protocol") (.string (ascii "rtmp"))).asString reals
  let transport ← (← s.get (ascii "transport") (.string (ascii "tcp"))).asString reals
  return { addr, port := BitVec.ofInt 16 port, protocol, transport }

/-- `none` where `false` is returned. -/
def parseServiceInfo (reals : JsonReals ρ) : JsonValue ρ → Except String (Option (List ServiceInfo))
  | .array xs => return some (← xs.mapM (parseService reals))
  | _ => return none

/-- `LoadConfig` of a new `Config`; `parsed` is `none` if the text cannot be parsed. -/
def loadConfig (reals : JsonReals ρ) (parsed : Option (JsonValue ρ)) :
    Except String (Option Config) :=
  match parsed with
  | none => return none
  | some root => do
    let name ← unlessNull (← root.resolve (ascii "name")) [] fun v => v.asString reals
    let cpuStart ← unlessNull (← root.resolve (ascii "cpu_start")) 0 fun v => v.asInt reals
    let cpus ← unlessNull (← root.resolve (ascii "cpus")) 1 fun v => v.asInt reals
    let threadNums ← unlessNull (← root.resolve (ascii "threads")) 1 fun v => v.asInt reals
    let logInfo ← unlessNull (← root.resolve (ascii "log")) none fun v =>
      return some (← parseLogInfo reals v)
    match ← parseServiceInfo reals (← root.resolve (ascii "services")) with
    | none => return none
    | some services => return some { name, cpuStart, threadNums, cpus, logInfo, services }

/-- What `HttpService::Start` starts: the position of the loop and the address of each server. -/
def servers (config : Config) : List (ℕ × InetAddress) :=
  (List.range (EventLoopThreadPool.new config.threadNums : EventLoopThreadPool Unit).size).flatMap
    fun i => (config.services.filter fun s =>
      s.protocol = ascii "HTTP" ∨ s.protocol = ascii "http").map fun s =>
        (i, InetAddress.ofIpPort s.addr s.port false)

end Config

/-- How `main` goes: it returns -1, an exception is thrown, the null pointer of `GetLogInfo` is
dereferenced, or the servers are started. -/
inductive Startup
  | failed
  | thrown (what : String)
  | noLogInfo
  | started (servers : List (ℕ × InetAddress))

/-- `main`, up to its loop. `opens` says whether the log file can be opened. -/
def main (reals : JsonReals ρ) (opens : Bytes → Bool) (parsed : Option (JsonValue ρ)) : Startup :=
  match Config.loadConfig reals parsed with
  | .error what => .thrown what
  | .ok none => .failed
  | .ok (some config) =>
    match config.logInfo with
    | none => .noLogInfo
    | some logInfo =>
      if opens (logInfo.path ++ logInfo.name) then .started config.servers else .failed

end HttpNest
