import HttpNest.Spec.MsgBuffer

/-!
# `InetAddress`

The port is kept as a text.
-/

namespace HttpNest

open CNumeral

structure InetAddress where
  addr : Bytes := []
  portText : Bytes := []
  isIpv6 : Bool := false
  deriving DecidableEq, Repr

namespace InetAddress

def setAddr (a : InetAddress) (addr : Bytes) : InetAddress := { a with addr := addr }

def setPort (a : InetAddress) (port : BitVec 16) : InetAddress :=
  { a with portText := decText port.toNat }

def setIsIPV6 (a : InetAddress) (isIpv6 : Bool) : InetAddress := { a with isIpv6 := isIpv6 }

def ip (a : InetAddress) : Bytes := a.addr

/-- The `int` of `atoi`, as a `uint16_t`. -/
def port (a : InetAddress) : BitVec 16 := BitVec.ofInt 16 (atoi a.portText)

variable {a : InetAddress} {addr : Bytes} {p : BitVec 16}

@[simp] theorem ip_setAddr : (a.setAddr addr).ip = addr := rfl

@[simp] theorem ip_setPort : (a.setPort p).ip = a.ip := rfl

@[simp] theorem port_setAddr : (a.setAddr addr).port = a.port := rfl

/-- The text is read back as the port. -/
@[simp] theorem port_setPort : (a.setPort p).port = p := by
  obtain ⟨hdec, hval⟩ := decText_spec p.toNat
  have hlt : p.toNat < 2 ^ 16 := p.isLt
  rw [port, setPort]
  simp only [atoi_dec hdec (by omega), hval]
  simp

end InetAddress

end HttpNest
