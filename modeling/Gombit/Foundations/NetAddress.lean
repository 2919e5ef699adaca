import Gombit.Foundations.ByteText
import Mathlib.Data.List.Infix
import Mathlib.Data.BitVec

/-!
# Internet addresses and ranges of them

The addresses and networks that the Go packages `net` and `net/netip` read from text.

* `bits`: an address as the list of its bits, the highest first.
* `Prefix`: the addresses that agree on their first bits (`Prefix.contains_iff_prefix`).
* `parseAddr`, `parseCIDR`: the texts of addresses and of networks.
* `IPNet.range`: the range a network denotes, an IPv6 network under `::ffff:0:0/96` being a range of
  IPv4 addresses.
-/

namespace Gombit

/-! ## Bits of an address -/

section Bits

variable {w : ℕ}

/-- The bits of an address, the highest first. -/
def bits (a : BitVec w) : List Bool := (List.range w).map a.getMsbD

@[simp] theorem length_bits (a : BitVec w) : (bits a).length = w := by simp [bits]

theorem getElem_bits (a : BitVec w) {i : ℕ} (h : i < (bits a).length) :
    (bits a)[i] = a.getMsbD i := by
  simp [bits]

/-- Every list of the right length is the bits of an address. -/
theorem exists_bits_eq {s : List Bool} (h : s.length = w) : ∃ a : BitVec w, bits a = s := by
  refine ⟨(BitVec.ofBoolListBE s).cast h, ?_⟩
  refine List.ext_getElem (by simp [h]) fun i h₁ h₂ => ?_
  rw [getElem_bits, BitVec.getMsbD_cast, BitVec.getMsbD_ofBoolListBE]
  simp [h₂]

/-- The mask of the first `n` bits. -/
def cidrMask (w n : ℕ) : BitVec w := BitVec.allOnes w <<< (w - n)

theorem getMsbD_cidrMask {n i : ℕ} (hn : n ≤ w) :
    (cidrMask w n).getMsbD i = decide (i < n) := by
  rw [cidrMask, BitVec.getMsbD_shiftLeft, BitVec.getMsbD_allOnes]
  exact decide_eq_decide.2 (by omega)

/-- Two addresses agree under a mask exactly when their first bits do. -/
theorem and_cidrMask_eq_iff {a b : BitVec w} {n : ℕ} (hn : n ≤ w) :
    a &&& cidrMask w n = b &&& cidrMask w n ↔ ∀ i < n, a.getMsbD i = b.getMsbD i := by
  constructor
  · intro h i hi
    have hbit := congrArg (BitVec.getMsbD · i) h
    simpa [BitVec.getMsbD_and, getMsbD_cidrMask hn, hi] using hbit
  · intro h
    refine BitVec.eq_of_getMsbD_eq fun i _ => ?_
    rw [BitVec.getMsbD_and, BitVec.getMsbD_and, getMsbD_cidrMask hn]
    by_cases hi : i < n
    · rw [h i hi]
    · simp [hi]

end Bits

/-- A range of addresses: those that agree with `base` on their first `ones` bits, the other bits of
`base` being zero. -/
structure Prefix (w : ℕ) where
  base : BitVec w
  ones : ℕ
  ones_le : ones ≤ w
  masked : base &&& cidrMask w ones = base

namespace Prefix

variable {w : ℕ}

/-- The range around an address. -/
def of (a : BitVec w) (n : ℕ) (h : n ≤ w) : Prefix w where
  base := a &&& cidrMask w n
  ones := n
  ones_le := h
  masked := by rw [BitVec.and_assoc, BitVec.and_self]

/-- `IPNet.Contains`: the address agrees with the base under the mask. -/
def Contains (p : Prefix w) (a : BitVec w) : Prop :=
  p.base &&& cidrMask w p.ones = a &&& cidrMask w p.ones

instance (p : Prefix w) (a : BitVec w) : Decidable (p.Contains a) :=
  inferInstanceAs (Decidable (_ = _))

/-- The bits that every address of the range starts with. -/
def bits (p : Prefix w) : List Bool := (Gombit.bits p.base).take p.ones

@[simp] theorem length_bits (p : Prefix w) : p.bits.length = p.ones := by
  simp [bits, p.ones_le]

variable {p : Prefix w} {a : BitVec w}

theorem contains_iff :
    p.Contains a ↔ ∀ i < p.ones, p.base.getMsbD i = a.getMsbD i :=
  and_cidrMask_eq_iff p.ones_le

/-- A range contains the addresses whose bits continue its own. -/
theorem contains_iff_prefix :
    p.Contains a ↔ p.bits <+: Gombit.bits a := by
  rw [contains_iff, List.prefix_iff_getElem?]
  simp only [length_bits]
  refine forall₂_congr fun i hi => ?_
  have hw : i < w := lt_of_lt_of_le hi p.ones_le
  simp [bits, Gombit.bits, hw, eq_comm]

end Prefix

/-! ## The texts of addresses -/

/-- `netip.Addr`. -/
inductive Addr where
  | v4 (a : BitVec 32)
  | v6 (a : BitVec 128) (zone : Bytes)
  deriving DecidableEq

/-- The number that digits of a base stand for, the highest first. -/
def positional (base : ℕ) (ds : List ℕ) : ℕ := ds.foldl (fun n d => n * base + d) 0

/-- The octets of `1.2.3.4`, read one after another: a dot needs a digit before it and a byte after
it, an octet has no leading zero and is at most 255. -/
def parseIPv4Fields : Bytes → (val digLen : ℕ) → (fields : List ℕ) → Option (List ℕ)
  | [], val, _, fields => if fields.length < 3 then none else some (fields ++ [val])
  | c :: s, val, digLen, fields =>
    if 48 ≤ c ∧ c ≤ 57 then
      if digLen = 1 ∧ val = 0 then none
      else if 255 < val * 10 + (c.toNat - 48) then none
      else parseIPv4Fields s (val * 10 + (c.toNat - 48)) (digLen + 1) fields
    else if c = 46 then
      if digLen = 0 ∨ s = [] then none
      else if fields.length = 3 then none
      else parseIPv4Fields s 0 0 (fields ++ [val])
    else none

def parseIPv4 (s : Bytes) : Option (BitVec 32) :=
  (parseIPv4Fields s 0 0 []).map fun fields => BitVec.ofNat 32 (positional 256 fields)

/-- The groups of an IPv6 address: what was read, where `::` stood, and what is left of the text.
`room` is the number of groups that still fit. -/
def parseIPv6Groups : (room : ℕ) → Bytes → (groups : List ℕ) → (ellipsis : Option ℕ) →
    Option (List ℕ × Option ℕ × Bytes)
  | 0, s, groups, ellipsis => some (groups, ellipsis, s)
  | room + 1, s, groups, ellipsis =>
    let digits := s.takeWhile fun c => (unhex c).isSome
    let rest := s.dropWhile fun c => (unhex c).isSome
    if digits.length = 0 ∨ 4 < digits.length then none
    else match rest with
    | [] => some (groups ++ [positional 16 (digits.filterMap unhex)], ellipsis, [])
    | c :: rest =>
      if c = 46 then
        -- an IPv4 address at the end takes the room of two groups
        if ellipsis = none ∧ groups.length ≠ 6 then none
        else if 6 < groups.length then none
        else match parseIPv4Fields s 0 0 [] with
        | some [a, b, c, d] => some (groups ++ [a * 256 + b, c * 256 + d], ellipsis, [])
        | _ => none
      else if c ≠ 58 then none
      else match rest with
      | [] => none
      | d :: rest =>
        let groups := groups ++ [positional 16 (digits.filterMap unhex)]
        if d ≠ 58 then parseIPv6Groups room (d :: rest) groups ellipsis
        else if ellipsis.isSome then none
        else if rest = [] then some (groups, some groups.length, [])
        else parseIPv6Groups room rest groups (some groups.length)

/-- The eight groups, `::` filled with at least one group of zeros. -/
def expandGroups (groups : List ℕ) : Option ℕ → Option (List ℕ)
  | none => if groups.length < 8 then none else some groups
  | some e =>
    if groups.length < 8 then
      some (groups.take e ++ List.replicate (8 - groups.length) 0 ++ groups.drop e)
    else none

/-- An IPv6 address without its zone. -/
def parseIPv6Text (s : Bytes) : Option (BitVec 128) :=
  let (s, ellipsis) := if [58, 58] <+: s then (s.drop 2, some 0) else (s, none)
  if ellipsis.isSome ∧ s = [] then some 0
  else do
    let (groups, ellipsis, rest) ← parseIPv6Groups 8 s [] ellipsis
    if rest ≠ [] then none
    else (expandGroups groups ellipsis).map fun gs => BitVec.ofNat 128 (positional 65536 gs)

def parseIPv6 (s : Bytes) : Option Addr :=
  match cut 37 s with
  | none => (parseIPv6Text s).map fun a => .v6 a []
  | some (s, zone) => if zone = [] then none else (parseIPv6Text s).map fun a => .v6 a zone

/-- `netip.ParseAddr`: the first dot, colon or percent sign says which kind of address it is. -/
def parseAddr (s : Bytes) : Option Addr :=
  match s.find? fun c => c = 46 || c = 58 || c = 37 with
  | some 46 => (parseIPv4 s).map .v4
  | some 58 => parseIPv6 s
  | _ => none

/-! ## Networks -/

/-- `net.IPNet` as `net.ParseCIDR` makes it: an address and a mask, both of 4 or of 16 bytes. -/
inductive IPNet where
  | v4 (p : Prefix 32)
  | v6 (p : Prefix 128)

/-- The number a mask is written as, digits only. A number this large fails at once. -/
def dtoi : Bytes → ℕ → Option ℕ
  | [], n => some n
  | c :: s, n =>
    if 48 ≤ c ∧ c ≤ 57 ∧ n * 10 + (c.toNat - 48) < 0xFFFFFF then dtoi s (n * 10 + (c.toNat - 48))
    else none

/-- `net.ParseCIDR`: an address without a zone, a slash and the number of fixed bits. -/
def parseCIDR (s : Bytes) : Option IPNet :=
  match cut 47 s with
  | none => none
  | some (addr, mask) =>
    if mask = [] then none
    else match parseAddr addr, dtoi mask 0 with
    | some (.v4 a), some n => if h : n ≤ 32 then some (.v4 (Prefix.of a n h)) else none
    | some (.v6 a zone), some n =>
      if zone ≠ [] then none
      else if h : n ≤ 128 then some (.v6 (Prefix.of a n h)) else none
    | _, _ => none

namespace IPNet

/-- `Mask.Size`: the number of fixed bits. -/
def ones : IPNet → ℕ
  | v4 p => p.ones
  | v6 p => p.ones

/-- The length of the mask in bytes. -/
def maskLen : IPNet → ℕ
  | v4 _ => 4
  | v6 _ => 16

end IPNet

/-- An address of 16 bytes that stands for an IPv4 address. -/
def Mapped (a : BitVec 128) : Prop := a.extractLsb' 32 96 = 0xffff

instance (a : BitVec 128) : Decidable (Mapped a) := inferInstanceAs (Decidable (_ = _))

theorem Mapped.getMsbD {a : BitVec 128} (h : Mapped a) : a.getMsbD 95 = true := by
  have hbit : (a.extractLsb' 32 96).getLsbD 0 = true := by
    rw [h]
    decide
  simpa [BitVec.getMsbD, BitVec.getLsbD_extractLsb'] using hbit

/-- The four low bytes of an address. -/
def low32 (a : BitVec 128) : BitVec 32 := a.extractLsb' 0 32

theorem getMsbD_low32 (a : BitVec 128) {i : ℕ} (h : i < 32) :
    (low32 a).getMsbD i = a.getMsbD (i + 96) := by
  have h₁ : 31 - i < 32 := by omega
  have h₂ : 127 - (i + 96) = 31 - i := by omega
  simp [low32, BitVec.getMsbD, h, h₁, h₂, show i + 96 < 128 by omega]

namespace IPNet

/-- `IP.To4` of the network's address. -/
def to4 : IPNet → Option (BitVec 32)
  | v4 p => some p.base
  | v6 p => if Mapped p.base then some (low32 p.base) else none

/-- `IP.To16` of the network's address. -/
def to16 : IPNet → BitVec 128
  | v4 p => (0xffff : BitVec 96) ++ p.base
  | v6 p => p.base

end IPNet

namespace Prefix

theorem getMsbD_base {w : ℕ} (p : Prefix w) {i : ℕ} (h : p.ones ≤ i) : p.base.getMsbD i = false := by
  rw [← p.masked, BitVec.getMsbD_and, getMsbD_cidrMask p.ones_le]
  simp [Nat.not_lt.2 h]

/-- A network under `::ffff:0:0/96` fixes more than its first 95 bits. -/
theorem le_ones_of_mapped {p : Prefix 128} (h : Mapped p.base) : 96 ≤ p.ones := by
  by_contra hlt
  have hbit := p.getMsbD_base (show p.ones ≤ 95 by omega)
  rw [h.getMsbD] at hbit
  cases hbit

/-- The IPv4 addresses of a network under `::ffff:0:0/96`. -/
def low (p : Prefix 128) : Prefix 32 where
  base := low32 p.base
  ones := p.ones - 96
  ones_le := by have := p.ones_le; omega
  masked := by
    have hle : p.ones - 96 ≤ 32 := by have := p.ones_le; omega
    refine BitVec.eq_of_getMsbD_eq fun i hi => ?_
    rw [BitVec.getMsbD_and, getMsbD_cidrMask hle, getMsbD_low32 _ hi]
    by_cases h : i < p.ones - 96
    · simp [h]
    · rw [p.getMsbD_base (by omega)]
      rfl

end Prefix

/-- The range of addresses of one family or the other. -/
inductive IPRange where
  | v4 (p : Prefix 32)
  | v6 (p : Prefix 128)

/-- The range a network denotes. -/
def IPNet.range : IPNet → IPRange
  | v4 p => .v4 p
  | v6 p => if Mapped p.base then .v4 p.low else .v6 p

/-- The range of a single address. -/
def Addr.range : Addr → IPRange
  | v4 a => .v4 (Prefix.of a 32 le_rfl)
  | v6 a _ => if Mapped a then .v4 (Prefix.of (low32 a) 32 le_rfl) else .v6 (Prefix.of a 128 le_rfl)

/-- `net.ParseIP`: an address without a zone. -/
def parseIP (s : Bytes) : Option Addr :=
  match parseAddr s with
  | some (.v6 a zone) => if zone = [] then some (.v6 a zone) else none
  | addr => addr

end Gombit
