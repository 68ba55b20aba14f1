import HttpNest.Lib.Assignments
import HttpNest.Spec.InetAddress

/-!
# `DnsService`

The thread of `OnWork` goes through a copy of the table, round by round, and looks every host up
until it has an answer or `retry_` attempts have failed. Hosts are added by other threads at any
time. `res` of `GetHostInfo` is not initialized, and `getaddrinfo` sets it where it returns 0.
A read of it where it is not set is `none`, and the run does not go on.
-/

namespace HttpNest

open Assignments

/-- `inet_ntop` for the two families. -/
structure Ntop where
  inet : BitVec 32 → Bytes
  inet6 : BitVec 128 → Bytes

/-- An element of the list that `getaddrinfo` returns; the port as `ntohs` reads it. -/
inductive AddrInfo
  | inet (addr : BitVec 32) (port : BitVec 16)
  | inet6 (addr : BitVec 128) (port : BitVec 16)
  | other
  deriving DecidableEq, Repr

/-- What a call of `getaddrinfo` returns, and what `res` then is: the list, or unassigned. -/
structure Lookup where
  ret : ℤ
  res : Option (List AddrInfo)
  answered : ret = 0 → ∃ a as, res = some (a :: as)
  failed : ret ≠ 0 → res = none

namespace DnsService

def peerAddress (ntop : Ntop) : AddrInfo → InetAddress
  | .inet addr port => (({} : InetAddress).setAddr (ntop.inet addr)).setPort port
  | .inet6 addr port =>
    ((({} : InetAddress).setAddr (ntop.inet6 addr)).setPort port).setIsIPV6 true
  | .other => {}

/-- The addresses that are added to the empty list; `none` where an unassigned `res` is read. -/
def getHostInfo (ntop : Ntop) (l : Lookup) : Option (List InetAddress) :=
  if l.ret = -1 then some []
  else
    match l.res with
    | none => none
    | some rp => some (rp.map (peerAddress ntop))

end DnsService

/-- The table, the thread of `OnWork` and what has happened. `position` is `none` between two
rounds, and else the hosts of the copy that are left, with the attempts at the first of them. -/
structure DnsService where
  hostsInfo : AList fun _ : Bytes => List InetAddress
  retry : ℤ
  running : Bool
  position : Option (List Bytes × ℤ)
  added : List Bytes
  lookups : List (Bytes × Lookup)
  fault : Bool

inductive DnsEvent
  | addHost (host : Bytes)
  | setDnsServiceParam (retry : ℤ)
  | stop
  | getHosts (order : List Bytes)
  | lookup (l : Lookup)
  | nextHost
  | endRound

namespace DnsService

def start : DnsService where
  hostsInfo := ∅
  retry := 3
  running := true
  position := none
  added := []
  lookups := []
  fault := false

def addHost (s : DnsService) (host : Bytes) : DnsService :=
  { s with
    hostsInfo :=
      if (s.hostsInfo.lookup host).isSome then s.hostsInfo else s.hostsInfo.insert host []
    added := host :: s.added }

def updateHost (s : DnsService) (host : Bytes) (list : List InetAddress) : DnsService :=
  { s with hostsInfo := s.hostsInfo.insert host list }

/-- One turn of the inner loop of `OnWork` with the answer `l`. -/
def lookupHost (ntop : Ntop) (s : DnsService) (host : Bytes) (todo : List Bytes) (i : ℤ)
    (l : Lookup) : DnsService :=
  let s := { s with lookups := s.lookups ++ [(host, l)] }
  match getHostInfo ntop l with
  | none => { s with fault := true }
  | some list =>
    if 0 < list.length then { s.updateHost host list with position := some (todo, 0) }
    else { s with position := some (host :: todo, i + 1) }

/-- `OnWork` between two looks at the clock, and the calls of other threads. -/
def step (ntop : Ntop) (s : DnsService) (e : DnsEvent) : Option DnsService :=
  if s.fault then none
  else
    match e, s.position with
    | .addHost host, _ => some (s.addHost host)
    | .setDnsServiceParam retry, _ => some { s with retry := retry }
    | .stop, _ => some { s with running := false }
    | .getHosts order, none =>
      if s.running ∧ order.Perm s.hostsInfo.keys then some { s with position := some (order, 0) }
      else none
    | .lookup l, some (host :: todo, i) =>
      if i < s.retry then some (s.lookupHost ntop host todo i l) else none
    | .nextHost, some (_ :: todo, i) =>
      if i < s.retry then none else some { s with position := some (todo, 0) }
    | .endRound, some ([], _) => some { s with position := none }
    | _, _ => none

/-- The addresses that the last lookup of the host with an answer has returned. -/
def latest (ntop : Ntop) (s : DnsService) (host : Bytes) : Option (List InetAddress) :=
  lastValue (s.lookups.filterMap fun x => x.2.res.map fun rp =>
    (x.1, rp.map (peerAddress ntop))) host

end DnsService

end HttpNest
