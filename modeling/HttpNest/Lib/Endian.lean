import Mathlib

/-!
# Byte order

An unsigned integer of `k` bytes in memory, on a machine of either byte order, and
its conversion to and from network order, which is the identity on a big-endian
machine and reverses the bytes on a little-endian one. Whatever the machine, a
converted value is stored with its most significant byte first (`store_hton`), and
bytes so stored are read back as the value (`hton_load`).
-/

namespace ByteOrder

/-- The low `k` bytes of a value, least significant first. -/
def leBytes : ℕ → ℕ → List UInt8
  | 0, _ => []
  | k + 1, v => UInt8.ofNat (v % 256) :: leBytes k (v / 256)

/-- The low `k` bytes of a value, most significant first: network order. -/
def beBytes (k v : ℕ) : List UInt8 := (leBytes k v).reverse

/-- The value of bytes, least significant first. -/
def ofLE : List UInt8 → ℕ
  | [] => 0
  | b :: bs => b.toNat + 256 * ofLE bs

/-- The value of bytes in network order. -/
def ofBE (bs : List UInt8) : ℕ := ofLE bs.reverse

/-- The byte order of a machine. -/
inductive Endian
  | little
  | big
  deriving DecidableEq, Repr

/-- The memory image of a `k`-byte value. -/
def Endian.store : Endian → ℕ → ℕ → List UInt8
  | little, k, v => leBytes k v
  | big, k, v => beBytes k v

/-- The value of a memory image. -/
def Endian.load : Endian → List UInt8 → ℕ
  | little, bs => ofLE bs
  | big, bs => ofBE bs

/-- Host to network order, and back. -/
def Endian.hton : Endian → ℕ → ℕ → ℕ
  | little, k, v => ofLE (leBytes k v).reverse
  | big, _, v => v

@[simp] theorem length_leBytes : ∀ k v, (leBytes k v).length = k
  | 0, _ => rfl
  | k + 1, v => by rw [leBytes, List.length_cons, length_leBytes]

@[simp] theorem length_beBytes (k v : ℕ) : (beBytes k v).length = k := by simp [beBytes]

theorem leBytes_ofLE : ∀ bs : List UInt8, leBytes bs.length (ofLE bs) = bs
  | [] => rfl
  | b :: bs => by
    have hb := b.toNat_lt
    have hm : (b.toNat + 256 * ofLE bs) % 256 = b.toNat := by omega
    have hd : (b.toNat + 256 * ofLE bs) / 256 = ofLE bs := by omega
    rw [List.length_cons, ofLE, leBytes, hm, hd, leBytes_ofLE bs, UInt8.ofNat_toNat]

theorem ofLE_leBytes : ∀ k v, ofLE (leBytes k v) = v % 256 ^ k
  | 0, v => by rw [leBytes, ofLE, pow_zero, Nat.mod_one]
  | k + 1, v => by
    have hb : (UInt8.ofNat (v % 256)).toNat = v % 256 := by
      rw [UInt8.toNat_ofNat']
      exact Nat.mod_mod _ _
    rw [leBytes, ofLE, hb, ofLE_leBytes k, pow_succ', Nat.mod_mul]

/-- A value of at most `k` bytes is read back from its network order. -/
theorem ofBE_beBytes {k v : ℕ} (h : v < 256 ^ k) : ofBE (beBytes k v) = v := by
  rw [ofBE, beBytes, List.reverse_reverse, ofLE_leBytes, Nat.mod_eq_of_lt h]

/-- **A converted value is stored in network order.** -/
theorem store_hton (e : Endian) (k v : ℕ) : e.store k (e.hton k v) = beBytes k v := by
  cases e with
  | big => rfl
  | little =>
    have h := leBytes_ofLE (leBytes k v).reverse
    rw [List.length_reverse, length_leBytes] at h
    exact h

/-- **Bytes in network order are read back as their value.** -/
theorem hton_load (e : Endian) (bs : List UInt8) : e.hton bs.length (e.load bs) = ofBE bs := by
  cases e with
  | big => rfl
  | little => simp only [Endian.hton, Endian.load, leBytes_ofLE, ofBE]

end ByteOrder
