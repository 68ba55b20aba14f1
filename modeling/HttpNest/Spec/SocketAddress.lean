import HttpNest.Lib.InetText
import HttpNest.Spec.DnsService
import HttpNest.Spec.HttpClient

/-!
# Socket addresses

`InetAddress` keeps an address as two texts. `Accept` and `GetHostInfo` print them, a constructor
cuts them out of one text, and `GetSockAddr` reads them. Where `inet_pton` gives up nothing is
reported, and the address is what `memset` has left.

`ParseUrl` of `HttpClient` takes the address of the URL's host from the table of `DnsService`, or
else from a lookup of its own.
-/

namespace HttpNest

open CNumeral InetText ListSearch

/-- The text that `c_str()` shows to a function of C. -/
def cStr (s : Bytes) : Bytes := s.takeWhile (· ≠ 0)

/-- The conversions of the C library. -/
def ntopOf (inet6 : Inet6) : Ntop := ⟨inetNtop, inet6.ntop⟩

namespace InetAddress

/-- `GetIpAndPort`: the address and the port; the latter is left as it is if there is no colon. -/
def getIpAndPort (host port : Bytes) : Bytes × Bytes :=
  match find [58] host with
  | some pos => (host.take pos, host.drop (pos + 1))
  | none => (host, port)

/-- `InetAddress(ip, port, isIpv6)` -/
def ofIpPort (ip : Bytes) (port : BitVec 16) (isIpv6 : Bool) : InetAddress :=
  { addr := ip, portText := decText port.toNat, isIpv6 := isIpv6 }

/-- `InetAddress(host, isIpv6)` -/
def ofHost (host : Bytes) (isIpv6 : Bool) : InetAddress :=
  { addr := (getIpAndPort host []).1, portText := (getIpAndPort host []).2, isIpv6 := isIpv6 }

def toIpPort (a : InetAddress) : Bytes := a.addr ++ 58 :: a.portText

/-- `IPv4(ip)` -/
def iPv4Of (ip : Bytes) : BitVec 32 := (inetPton (cStr ip)).getD 0

def iPv4 (a : InetAddress) : BitVec 32 := iPv4Of a.addr

def getSockAddr (inet6 : Inet6) (a : InetAddress) : AddrInfo :=
  if a.isIpv6 then .inet6 ((inet6.pton (cStr a.addr)).getD 0) a.port
  else .inet ((inetPton (cStr a.addr)).getD 0) a.port

/-- `is_a || is_b || is_c` in `IsWanIp` and `IsLanIp`. -/
def inBlocks (ip : BitVec 32) : Bool :=
  (iPv4Of (ascii "10.0.0.0") ≤ ip && ip ≤ iPv4Of (ascii "10.255.255.255")) ||
  (iPv4Of (ascii "172.16.0.0") ≤ ip && ip ≤ iPv4Of (ascii "172.31.255.255")) ||
  (iPv4Of (ascii "192.168.0.0") ≤ ip && ip ≤ iPv4Of (ascii "192.168.255.255"))

def INADDR_LOOPBACK : BitVec 32 := 0x7f000001

def isWanIp (a : InetAddress) : Bool := !inBlocks a.iPv4 && a.iPv4 != INADDR_LOOPBACK

def isLanIp (a : InetAddress) : Bool := inBlocks a.iPv4

def isLoopbackIp (a : InetAddress) : Bool := a.addr == ascii "127.0.0.1"

end InetAddress

/-- What `Accept` makes of the peer's address; `GetLocalAddr` and `GetPeerAddr` do the same. -/
def Socket.accept (ntop : Ntop) (peeraddr : InetAddress) : AddrInfo → InetAddress
  | .inet addr port => (peeraddr.setAddr (ntop.inet addr)).setPort port
  | .inet6 addr port => ((peeraddr.setAddr (ntop.inet6 addr)).setPort port).setIsIPV6 true
  | .other => peeraddr

/-- `GetHostAddress(host)` -/
def DnsService.getHostAddress (s : DnsService) (host : Bytes) : List InetAddress :=
  (s.hostsInfo.lookup host).getD []

namespace HttpClient

/-- The address behind the first element of the list that is not one of IPv6. -/
def takeIPv4 (addr : InetAddress) (list : List InetAddress) : InetAddress :=
  match list.find? fun l => !l.isIpv6 with
  | some l => addr.setAddr l.ip
  | none => addr

/-- The rest of `ParseUrl`: the table and `addr_` behind the lookup. `l` is what `getaddrinfo`
answers if it is asked; `none` where its unassigned result is read. -/
def lookUp (ntop : Ntop) (s : DnsService) (l : Lookup) (addr : InetAddress) :
    Option (DnsService × InetAddress) :=
  let list := s.getHostAddress addr.ip
  if 0 < list.length then some (s, takeIPv4 addr list)
  else
    match DnsService.getHostInfo ntop l with
    | none => none
    | some list2 => some (s.addHost addr.ip, if 0 < list2.length then takeIPv4 addr list2 else addr)

end HttpClient

end HttpNest
