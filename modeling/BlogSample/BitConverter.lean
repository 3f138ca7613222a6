import BlogSample.Int32
import Mathlib.Data.Nat.Digits.Defs

/-!
# Bytes of an `int`

`BitConverter` gives the bytes of an `int` in the order of the host, and
`IPAddress` turns them around on a host that has the low byte first, which is
the one modelled here. The two together put the high byte first.

## Main definitions

* `getBytes`, `toInt32`: An `int` and its bytes, the low one first.
* `hostToNetworkOrder`, `networkToHostOrder`: Turning the bytes around.

## Theorems

* `getBytes_hostToNetworkOrder`: The bytes of a length, the high one first.
* `networkToHostOrder_toInt32`: The number that four such bytes stand for.
* `networkToHostOrder_header`: Reading undoes writing.
* `toInt32_eq_wrap`, `ofDigits_getBytes`: The bytes as digits.
-/

namespace BlogSample

namespace DotNet

/-- `BitConverter.GetBytes(z)`. -/
def getBytes (z : Int) : List UInt8 :=
  let n := (z % 4294967296).toNat
  [UInt8.ofNat n, UInt8.ofNat (n / 256), UInt8.ofNat (n / 65536), UInt8.ofNat (n / 16777216)]

/-- `BitConverter.ToInt32(bytes, 0)`. -/
def toInt32 : List UInt8 → Int
  | a :: b :: c :: d :: _ =>
      wrap (a.toNat + 256 * b.toNat + 65536 * c.toNat + 16777216 * d.toNat : Nat)
  | _ => 0

/-- `IPAddress.HostToNetworkOrder(host)`. -/
def hostToNetworkOrder (host : Int) : Int :=
  toInt32 (getBytes host).reverse

/-- `IPAddress.NetworkToHostOrder(network)`. -/
def networkToHostOrder (network : Int) : Int :=
  toInt32 (getBytes network).reverse

/-- The bytes of four bytes are these bytes. -/
theorem getBytes_toInt32 (a b c d : UInt8) : getBytes (toInt32 [a, b, c, d]) = [a, b, c, d] := by
  have ha := a.toNat_lt
  have hb := b.toNat_lt
  have hc := c.toNat_lt
  have hd := d.toNat_lt
  have hn : (toInt32 [a, b, c, d] % 4294967296).toNat
      = a.toNat + 256 * b.toNat + 65536 * c.toNat + 16777216 * d.toNat := by
    change (wrap (a.toNat + 256 * b.toNat + 65536 * c.toNat + 16777216 * d.toNat : Nat)
      % 4294967296).toNat = _
    unfold wrap
    omega
  have hbyte : ∀ (x : UInt8) (n : Nat), n % 256 = x.toNat → UInt8.ofNat n = x := by
    intro x n hx
    rw [← UInt8.toNat_inj, UInt8.toNat_ofNat']
    exact hx
  simp only [getBytes, hn]
  rw [hbyte a _ (by omega), hbyte b _ (by omega), hbyte c _ (by omega), hbyte d _ (by omega)]

/-- The number that four bytes stand for, the high one first. -/
theorem networkToHostOrder_toInt32 (a b c d : UInt8) :
    networkToHostOrder (toInt32 [a, b, c, d])
      = wrap (16777216 * a.toNat + 65536 * b.toNat + 256 * c.toNat + d.toNat : Nat) := by
  unfold networkToHostOrder
  rw [getBytes_toInt32]
  change wrap _ = wrap _
  refine congrArg wrap ?_
  omega

/-- The bytes of a number on the wire, the high one first. -/
theorem getBytes_hostToNetworkOrder {n : Nat} (hn : n < 4294967296) :
    getBytes (hostToNetworkOrder n) = [UInt8.ofNat (n / 16777216), UInt8.ofNat (n / 65536),
      UInt8.ofNat (n / 256), UInt8.ofNat n] := by
  have hmod : ((n : Int) % 4294967296).toNat = n := by
    omega
  unfold hostToNetworkOrder
  have hrev : (getBytes (n : Int)).reverse = [UInt8.ofNat (n / 16777216), UInt8.ofNat (n / 65536),
      UInt8.ofNat (n / 256), UInt8.ofNat n] := by
    unfold getBytes
    rw [hmod]
    rfl
  rw [hrev, getBytes_toInt32]

/-- Reading a length undoes writing it. -/
theorem networkToHostOrder_header {n : Nat} (hn : n < 2147483648) :
    networkToHostOrder (toInt32 (getBytes (hostToNetworkOrder n))) = n := by
  rw [getBytes_hostToNetworkOrder (by omega), networkToHostOrder_toInt32]
  simp only [UInt8.toNat_ofNat']
  rw [wrap_of_inRange]
  · omega
  · unfold InRange
    omega

/-- Four bytes are the digits of a number, the low one first. -/
theorem toInt32_eq_wrap {bytes : List UInt8} (h : bytes.length = 4) :
    toInt32 bytes = wrap (Nat.ofDigits 256 (bytes.map UInt8.toNat) : Nat) := by
  match bytes, h with
  | [a, b, c, d], _ =>
      change wrap _ = wrap _
      simp only [List.map_cons, List.map_nil, Nat.ofDigits_cons, Nat.ofDigits_nil]
      refine congrArg wrap ?_
      push_cast
      omega

/-- The bytes of a number are its digits. -/
theorem ofDigits_getBytes {n : Nat} (hn : n < 4294967296) :
    Nat.ofDigits 256 ((getBytes n).map UInt8.toNat) = n := by
  have hmod : ((n : Int) % 4294967296).toNat = n := by
    omega
  unfold getBytes
  rw [hmod]
  simp only [List.map_cons, List.map_nil, Nat.ofDigits_cons, Nat.ofDigits_nil,
    UInt8.toNat_ofNat']
  omega

end DotNet

end BlogSample
