import Tezos.Stdlib.HashPtree

/-! Sets of IPv6 addresses, as Patricia trees (the module `PatriciaTree` of `lib_p2p/p2p_acl.ml`, of which `IpSet`
    is the instance at times). -/

namespace Tezos.P2p.IpSet
open HashPtree

abbrev Ipv6 := BitVec 128

/-- `Ipaddr.V6.to_int64`: the two halves of an address, as signed integers. -/
def toInt64 (ip : Ipv6) : Int × Int := ((ip.extractLsb' 64 64).toInt, (ip.extractLsb' 0 64).toInt)

structure Ipv6Prefix where
  network : Ipv6
  bits : Nat
  bits_le : bits ≤ 128

abbrev Key := Bits 128

/-- `M.t`, the trees of a set, with values `ν`. -/
abbrev M (ν : Type) := T Key Key Key ν

variable {ν : Type}

def empty : M ν := none

/-- Takes into consideration the fact that the integers of `toInt64` are signed. -/
def zOfBytes (i : Int) : Int := if i < 0 then i + 2 ^ 64 else i

def zOfIpv6 (ip : Ipv6) : Int :=
  let hi := zOfBytes (toInt64 ip).1
  let lo := zOfBytes (toInt64 ip).2
  hi * 2 ^ 64 + lo

def keyOfIpv6 (ip : Ipv6) : Key := Bits.ofZ (zOfIpv6 ip)

def zMaskOfIpv6Prefix (p : Ipv6Prefix) : Int × Int := (zOfIpv6 p.network, 2 ^ (128 - p.bits))

def keyMaskOfIpv6Prefix (p : Ipv6Prefix) : Key × Key :=
  let (z, m) := zMaskOfIpv6Prefix p
  (Bits.ofZ z, Bits.ofZ m)

def remove (ip : Ipv6) (t : M ν) : M ν := HashPtree.remove (beGenPrefix 128) (keyOfIpv6 ip) t

/-- `add_prefix prefix value`; `same` is the physical equality of values. -/
def addPrefix (same : ν → ν → Bool) (p : Ipv6Prefix) (value : ν) (t : M ν) : M ν :=
  let (key, mask) := keyMaskOfIpv6Prefix p
  HashPtree.add (beGenPrefix 128) (fun _ v => v) same key value mask t

def add (same : ν → ν → Bool) (ip : Ipv6) (value : ν) (t : M ν) : M ν :=
  HashPtree.add (beGenPrefix 128) (fun _ v => v) same (keyOfIpv6 ip) value (beGenPrefix 128).fullLengthMask t

def mem (ip : Ipv6) (t : M ν) : Bool := HashPtree.mem (beGenPrefix 128) (keyOfIpv6 ip) t

/-- `IpSet.remove_old`, at times `τ`. -/
def removeOld {τ : Type} [LinearOrder τ] (olderThan : τ) (t : M τ) : M τ :=
  filter (fun _ _ value => value) (fun _ left right => min left right) (fun addtime => decide (olderThan ≤ addtime)) t

end Tezos.P2p.IpSet
