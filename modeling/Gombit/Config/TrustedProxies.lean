import Gombit.Foundations.NetAddress
import Gombit.Foundations.PrefixTree

/-!
# Trusted proxies

`Config.Validate` refuses, in production, a list of trusted proxies that trusts every peer: an entry
`*`, an entry that alone is a whole address family, or entries that together are one. The last case
collects the networks in a prefix tree for each family.

* `reports_iff`: the error stands exactly when the entries other than plain addresses trust every
  peer of a family.
* `reports_iff_trustsAll_iff`: so the error stands exactly when the entries trust every peer, unless a
  plain address is needed for that.
* `every_peer_trusted`: a list with one plain address that trusts every IPv4 peer and is accepted.
-/

namespace Gombit.Config

open List

/-! ## The check -/

/-- `isUnsafeTrustedProxy`. -/
def isUnsafeTrustedProxy (proxy : Bytes) : Bool :=
  if trimSpace proxy = ascii "*" then true
  else match parseCIDR (trimSpace proxy) with
  | none => false
  | some network =>
    if network.to4 ≠ none ∧ network.maskLen = 16 then (network.ones : ℤ) - 96 == 0
    else network.ones == 0

/-- `insertTrustedProxyRange`, with `left` for `bits - depth`. -/
def insertTrustedProxyRange {w : ℕ} (address : BitVec w) :
    (left depth : ℕ) → PrefixTree → PrefixTree
  | 0, _, node => if node.covered then node else .full
  | left + 1, depth, node =>
    if node.covered then node
    else
      let bit := address.getMsbD depth
      let child := if node.child bit = .absent then .empty else node.child bit
      node.setChild bit (insertTrustedProxyRange address left (depth + 1) child)

/-- The trees of both families after one more network. A network that `to4` takes for IPv4 fixes at
least 96 bits when its mask has 16 bytes (`Prefix.le_ones_of_mapped`). -/
def insertNetwork (network : IPNet) (ipv4 ipv6 : PrefixTree) : PrefixTree × PrefixTree :=
  match network.to4 with
  | some address =>
    let bits := if network.maskLen = 16 then network.ones - 96 else network.ones
    (insertTrustedProxyRange address bits 0 ipv4, ipv6)
  | none => (ipv4, insertTrustedProxyRange network.to16 network.ones 0 ipv6)

/-- The loop of `trustedProxyRangesCoverAll`. -/
def coverAllFrom : (ipv4 ipv6 : PrefixTree) → List Bytes → Bool
  | _, _, [] => false
  | ipv4, ipv6, proxy :: proxies =>
    match parseCIDR (trimSpace proxy) with
    | none => coverAllFrom ipv4 ipv6 proxies
    | some network =>
      let trees := insertNetwork network ipv4 ipv6
      if trees.1.covered || trees.2.covered then true else coverAllFrom trees.1 trees.2 proxies

/-- `trustedProxyRangesCoverAll`. -/
def trustedProxyRangesCoverAll (proxies : List Bytes) : Bool := coverAllFrom .empty .empty proxies

/-- `FieldError`. -/
structure FieldError where
  field : Bytes
  env : Bytes
  value : Bytes
  message : Bytes
  deriving DecidableEq

def environmentProduction : Bytes := ascii "production"

/-- An error about the trusted proxies. -/
def proxyError (value message : Bytes) : FieldError where
  field := ascii "HTTP.TrustedProxies"
  env := ascii "GOMBIT_HTTP_TRUSTED_PROXIES"
  value
  message

def emptyEntryMessage : Bytes := ascii "must not contain empty entries"

def trustAllMessage : Bytes := ascii "must not trust all proxies in production"

/-- The errors of a single entry. -/
def entryErrors (environment proxy : Bytes) : List FieldError :=
  (if trimSpace proxy = [] then [proxyError proxy emptyEntryMessage] else []) ++
  (if environment = environmentProduction ∧ isUnsafeTrustedProxy proxy = true then
    [proxyError proxy trustAllMessage] else [])

/-- The errors that `Config.Validate` reports about the trusted proxies. -/
def validateTrustedProxies (environment : Bytes) (proxies : List Bytes) : List FieldError :=
  proxies.flatMap (entryErrors environment) ++
  (if environment = environmentProduction ∧ ¬ proxies.any isUnsafeTrustedProxy ∧
      trustedProxyRangesCoverAll proxies = true then
    [proxyError ((ascii ",").intercalate proxies) trustAllMessage] else [])

/-- In production the list is refused for trusting all proxies. -/
def Reports (proxies : List Bytes) : Prop :=
  ∃ e ∈ validateTrustedProxies environmentProduction proxies, e.message = trustAllMessage

instance (proxies : List Bytes) : Decidable (Reports proxies) :=
  inferInstanceAs (Decidable (∃ e ∈ _, _))

/-! ## The peers that are trusted -/

/-- The peers that the router trusts for an entry: a network, or a plain address as itself. -/
def trustedRange (proxy : Bytes) : Option IPRange :=
  if 47 ∈ trimSpace proxy then (parseCIDR (trimSpace proxy)).map IPNet.range
  else (parseIP (trimSpace proxy)).map Addr.range

/-- Some entry trusts the IPv4 address. -/
def TrustsIPv4 (proxies : List Bytes) (a : BitVec 32) : Prop :=
  ∃ proxy ∈ proxies, ∃ p, trustedRange proxy = some (.v4 p) ∧ p.Contains a

/-- Some entry trusts the IPv6 address. -/
def TrustsIPv6 (proxies : List Bytes) (a : BitVec 128) : Prop :=
  ∃ proxy ∈ proxies, ∃ p, trustedRange proxy = some (.v6 p) ∧ p.Contains a

/-- The entries trust every peer, or every peer of one family. -/
def TrustsAll (proxies : List Bytes) : Prop :=
  (∃ proxy ∈ proxies, trimSpace proxy = ascii "*") ∨ (∀ a, TrustsIPv4 proxies a) ∨
    ∀ a, TrustsIPv6 proxies a

/-- The entry is `*` or is written as a network. -/
def isRange (proxy : Bytes) : Bool := trimSpace proxy = ascii "*" ∨ 47 ∈ trimSpace proxy

/-! ## The trees hold the networks -/

theorem parseCIDR_eq_none {s : Bytes} (h : 47 ∉ s) : parseCIDR s = none := by
  have hcut : cut 47 s = none := by
    cases hc : cut 47 s with
    | none => rfl
    | some p =>
      rw [eq_of_cut (a := p.1) (b := p.2) hc] at h
      simp at h
  rw [parseCIDR, hcut]

theorem insert_absent (p : List Bool) :
    PrefixTree.absent.insert p = PrefixTree.empty.insert p := by
  cases p with
  | nil => rfl
  | cons b p => cases b <;> rfl

variable {w : ℕ}

theorem insertTrustedProxyRange_eq (address : BitVec w) {left depth : ℕ} (h : depth + left ≤ w)
    (node : PrefixTree) :
    insertTrustedProxyRange address left depth node =
      node.insert (((bits address).drop depth).take left) := by
  induction left generalizing depth node with
  | zero => rw [insertTrustedProxyRange, take_zero, PrefixTree.insert]
  | succ left ih =>
    have hdepth : depth < (bits address).length := by rw [length_bits]; omega
    rw [drop_eq_getElem_cons hdepth, take_succ_cons, getElem_bits, PrefixTree.insert,
      insertTrustedProxyRange]
    simp only
    rw [ih (by omega)]
    congr 2
    split
    next habsent => rw [habsent, insert_absent]
    next => rfl

theorem insertTrustedProxyRange_bits (p : Prefix w) (node : PrefixTree) :
    insertTrustedProxyRange p.base p.ones 0 node = node.insert p.bits := by
  rw [insertTrustedProxyRange_eq p.base (by rw [Nat.zero_add]; exact p.ones_le), drop_zero]
  rfl

/-- A network goes into the tree of the family of its range. -/
theorem insertNetwork_eq (network : IPNet) (ipv4 ipv6 : PrefixTree) :
    insertNetwork network ipv4 ipv6 = match network.range with
      | .v4 p => (ipv4.insert p.bits, ipv6)
      | .v6 p => (ipv4, ipv6.insert p.bits) := by
  cases network with
  | v4 p =>
    simp only [IPNet.range]
    rw [← insertTrustedProxyRange_bits]
    rfl
  | v6 p =>
    by_cases hm : Mapped p.base
    · simp only [IPNet.range, hm, if_true]
      rw [← insertTrustedProxyRange_bits]
      simp only [insertNetwork, IPNet.to4, hm, if_true]
      rfl
    · simp only [IPNet.range, hm, if_false]
      rw [← insertTrustedProxyRange_bits]
      simp only [insertNetwork, IPNet.to4, hm, if_false]
      rfl

/-- The tree of a family holds the addresses of a range once it is in. -/
theorem holds_insert_bits (t : PrefixTree) (p : Prefix w) (a : BitVec w) :
    (t.insert p.bits).Holds (bits a) ↔ t.Holds (bits a) ∨ p.Contains a := by
  rw [PrefixTree.holds_insert t (by simp [p.ones_le]), Prefix.contains_iff_prefix]

variable {t : PrefixTree} {family : Prefix w → IPRange} {proxy : Bytes} {proxies : List Bytes}

theorem covered_iff_forall (h : t.Merged) :
    t.covered = true ↔ ∀ a : BitVec w, t.Holds (bits a) := by
  rw [PrefixTree.covered_iff h w]
  refine ⟨fun hall a => hall _ (length_bits a), fun hall s hs => ?_⟩
  obtain ⟨a, rfl⟩ := exists_bits_eq hs
  exact hall a

/-- The ranges of the entries that are networks. -/
def networkRange (proxy : Bytes) : Option IPRange := (parseCIDR (trimSpace proxy)).map IPNet.range

/-- The addresses of a family that a tree holds already or a network of the list brings. -/
def Reached {w : ℕ} (family : Prefix w → IPRange) (t : PrefixTree) (proxies : List Bytes)
    (a : BitVec w) : Prop :=
  t.Holds (bits a) ∨ ∃ proxy ∈ proxies, ∃ p, networkRange proxy = some (family p) ∧ p.Contains a

variable {a : BitVec w} {p : Prefix w}

theorem reached_cons :
    Reached family t (proxy :: proxies) a ↔
      Reached family t proxies a ∨ ∃ p, networkRange proxy = some (family p) ∧ p.Contains a := by
  simp only [Reached, mem_cons, exists_eq_or_imp]
  rw [or_assoc]
  exact or_congr_right or_comm

theorem reached_cons_of_forall_ne (h : ∀ p, networkRange proxy ≠ some (family p)) :
    Reached family t (proxy :: proxies) a ↔ Reached family t proxies a := by
  simp [reached_cons, h]

theorem reached_cons_of_eq (hinj : Function.Injective family)
    (h : networkRange proxy = some (family p)) :
    Reached family t (proxy :: proxies) a ↔ Reached family (t.insert p.bits) proxies a := by
  rw [reached_cons, Reached, Reached, holds_insert_bits, h]
  simp only [Option.some.injEq, hinj.eq_iff, exists_eq_left']
  exact or_right_comm

theorem forall_reached_of_covered (h : t.covered = true) (proxies : List Bytes) (a : BitVec w) :
    Reached family t proxies a :=
  Or.inl (PrefixTree.holds_of_covered h _)

/-- The loop returns true exactly when the networks left bring every other address of a family. -/
theorem coverAllFrom_iff {ipv4 ipv6 : PrefixTree} (h4 : ipv4.Merged) (h6 : ipv6.Merged)
    (hc4 : ipv4.covered = false) (hc6 : ipv6.covered = false) (proxies : List Bytes) :
    coverAllFrom ipv4 ipv6 proxies = true ↔
      (∀ a, Reached .v4 ipv4 proxies a) ∨ ∀ a, Reached .v6 ipv6 proxies a := by
  induction proxies generalizing ipv4 ipv6 with
  | nil =>
    refine iff_of_false (by simp [coverAllFrom]) ?_
    simp only [Reached, not_mem_nil, false_and, exists_false, or_false]
    rw [← covered_iff_forall h4, ← covered_iff_forall h6, hc4, hc6]
    simp
  | cons proxy proxies ih =>
    -- what is left to do once the trees have the next network
    have hrest : ∀ {t4 t6 : PrefixTree}, t4.Merged → t6.Merged →
        ((if t4.covered || t6.covered then true else coverAllFrom t4 t6 proxies) = true ↔
          (∀ a, Reached .v4 t4 proxies a) ∨ ∀ a, Reached .v6 t6 proxies a) := by
      intro t4 t6 ht4 ht6
      split
      next hc =>
        refine iff_of_true rfl ?_
        rcases Bool.or_eq_true_iff.1 hc with hc | hc
        · exact Or.inl fun a => forall_reached_of_covered hc proxies a
        · exact Or.inr fun a => forall_reached_of_covered hc proxies a
      next hc =>
        rw [Bool.not_eq_true, Bool.or_eq_false_iff] at hc
        exact ih ht4 ht6 hc.1 hc.2
    rw [coverAllFrom]
    cases hp : parseCIDR (trimSpace proxy) with
    | none =>
      have hnone : networkRange proxy = none := by rw [networkRange, hp, Option.map_none]
      simp only
      rw [ih h4 h6 hc4 hc6]
      simp [reached_cons_of_forall_ne, hnone]
    | some network =>
      have hsome : networkRange proxy = some network.range := by
        rw [networkRange, hp, Option.map_some]
      simp only
      rw [insertNetwork_eq]
      cases hr : network.range with
      | v4 p =>
        rw [hr] at hsome
        simp only [reached_cons_of_eq (fun _ _ h => IPRange.v4.inj h) hsome]
        rw [hrest (PrefixTree.merged_insert h4 _) h6]
        simp [reached_cons_of_forall_ne, hsome]
      | v6 p =>
        rw [hr] at hsome
        simp only [reached_cons_of_eq (fun _ _ h => IPRange.v6.inj h) hsome]
        rw [hrest h4 (PrefixTree.merged_insert h6 _)]
        simp [reached_cons_of_forall_ne, hsome]

/-- Some network of the list has the address. -/
def InNetworks {w : ℕ} (family : Prefix w → IPRange) (proxies : List Bytes) (a : BitVec w) : Prop :=
  ∃ proxy ∈ proxies, ∃ p, networkRange proxy = some (family p) ∧ p.Contains a

/-- **The trees find out whether the networks make up a family.** -/
theorem trustedProxyRangesCoverAll_iff (proxies : List Bytes) :
    trustedProxyRangesCoverAll proxies = true ↔
      (∀ a, InNetworks .v4 proxies a) ∨ ∀ a, InNetworks .v6 proxies a := by
  rw [trustedProxyRangesCoverAll, coverAllFrom_iff PrefixTree.merged_empty PrefixTree.merged_empty
    rfl rfl]
  simp only [Reached, PrefixTree.not_holds_empty, false_or, InNetworks]

/-! ## What is reported -/

/-- A range that fixes no bit has every address. -/
theorem contains_of_ones_eq_zero (h : p.ones = 0) (a : BitVec w) : p.Contains a := by
  rw [Prefix.contains_iff]
  intro i hi
  omega

/-- A single entry is unsafe when it is `*` or a network that fixes no bit of its family. -/
theorem isUnsafeTrustedProxy_iff (proxy : Bytes) :
    isUnsafeTrustedProxy proxy = true ↔ trimSpace proxy = ascii "*" ∨
      (∃ p, networkRange proxy = some (.v4 p) ∧ p.ones = 0) ∨
      ∃ p, networkRange proxy = some (.v6 p) ∧ p.ones = 0 := by
  rw [isUnsafeTrustedProxy]
  by_cases hstar : trimSpace proxy = ascii "*"
  · simp [hstar]
  · simp only [hstar, if_false, false_or, networkRange]
    cases hp : parseCIDR (trimSpace proxy) with
    | none => simp
    | some network =>
      cases network with
      | v4 p => simp [IPNet.to4, IPNet.maskLen, IPNet.ones, IPNet.range]
      | v6 p =>
        by_cases hm : Mapped p.base
        · have hle := Prefix.le_ones_of_mapped hm
          have hones : (p.ones : ℤ) - 96 = 0 ↔ p.low.ones = 0 := by
            change _ ↔ p.ones - 96 = 0
            omega
          simp [IPNet.to4, IPNet.maskLen, IPNet.ones, IPNet.range, hm, hones]
        · simp [IPNet.to4, IPNet.ones, IPNet.range, hm]

theorem mem_entryErrors {environment : Bytes} :
    (∃ e ∈ entryErrors environment proxy, e.message = trustAllMessage) ↔
      environment = environmentProduction ∧ isUnsafeTrustedProxy proxy = true := by
  have hne : emptyEntryMessage ≠ trustAllMessage := by decide
  unfold entryErrors
  split <;> split <;> simp_all [proxyError]

theorem reports_iff_or (proxies : List Bytes) :
    Reports proxies ↔ (∃ proxy ∈ proxies, isUnsafeTrustedProxy proxy = true) ∨
      trustedProxyRangesCoverAll proxies = true := by
  have hentry : (∃ e ∈ proxies.flatMap (entryErrors environmentProduction),
      e.message = trustAllMessage) ↔ ∃ proxy ∈ proxies, isUnsafeTrustedProxy proxy = true := by
    simp only [mem_flatMap]
    constructor
    · rintro ⟨e, ⟨proxy, hmem, he⟩, hmsg⟩
      exact ⟨proxy, hmem, (mem_entryErrors.1 ⟨e, he, hmsg⟩).2⟩
    · rintro ⟨proxy, hmem, h⟩
      obtain ⟨e, he, hmsg⟩ := mem_entryErrors.2 ⟨rfl, h⟩
      exact ⟨e, ⟨proxy, hmem, he⟩, hmsg⟩
  simp only [Reports, validateTrustedProxies, mem_append, or_and_right, exists_or]
  rw [hentry, ← any_eq_true]
  by_cases hany : proxies.any isUnsafeTrustedProxy = true
  · simp [hany]
  · by_cases hcover : trustedProxyRangesCoverAll proxies = true
    · simp [hany, hcover, proxyError]
    · simp [hany, hcover]

/-- An entry that alone is a family makes the networks of the list a family. -/
theorem reports_iff_networks (proxies : List Bytes) :
    Reports proxies ↔ (∃ proxy ∈ proxies, trimSpace proxy = ascii "*") ∨
      (∀ a, InNetworks .v4 proxies a) ∨ ∀ a, InNetworks .v6 proxies a := by
  rw [reports_iff_or, trustedProxyRangesCoverAll_iff]
  constructor
  · rintro (⟨proxy, hmem, h⟩ | h)
    · rcases (isUnsafeTrustedProxy_iff proxy).1 h with hstar | ⟨p, hp, hones⟩ | ⟨p, hp, hones⟩
      · exact Or.inl ⟨proxy, hmem, hstar⟩
      · exact Or.inr (Or.inl fun a => ⟨proxy, hmem, p, hp, contains_of_ones_eq_zero hones a⟩)
      · exact Or.inr (Or.inr fun a => ⟨proxy, hmem, p, hp, contains_of_ones_eq_zero hones a⟩)
    · exact Or.inr h
  · rintro (⟨proxy, hmem, hstar⟩ | h)
    · exact Or.inl ⟨proxy, hmem, (isUnsafeTrustedProxy_iff proxy).2 (Or.inl hstar)⟩
    · exact Or.inr h

theorem networkRange_eq (proxy : Bytes) :
    networkRange proxy = if isRange proxy = true then trustedRange proxy else none := by
  by_cases hslash : 47 ∈ trimSpace proxy
  · simp [networkRange, trustedRange, isRange, hslash]
  · have hnone : networkRange proxy = none := by
      rw [networkRange, parseCIDR_eq_none hslash, Option.map_none]
    by_cases hstar : trimSpace proxy = ascii "*"
    · have hparse : parseIP (ascii "*") = none := by decide +kernel
      rw [hstar] at hslash
      simp [hnone, isRange, trustedRange, hstar, hslash, hparse]
    · simp [hnone, isRange, hslash, hstar]

theorem inNetworks_iff (family : Prefix w → IPRange) (proxies : List Bytes) (a : BitVec w) :
    InNetworks family proxies a ↔ ∃ proxy ∈ proxies.filter isRange,
      ∃ p, trustedRange proxy = some (family p) ∧ p.Contains a := by
  simp only [InNetworks, mem_filter, networkRange_eq, and_assoc]
  refine exists_congr fun proxy => and_congr_right fun _ => ?_
  by_cases h : isRange proxy = true <;> simp [h]

/-- **The error stands exactly when the entries other than plain addresses trust every peer.** -/
theorem reports_iff (proxies : List Bytes) :
    Reports proxies ↔ TrustsAll (proxies.filter isRange) := by
  rw [reports_iff_networks, TrustsAll]
  simp only [inNetworks_iff, TrustsIPv4, TrustsIPv6]
  refine or_congr_left ⟨?_, ?_⟩
  · rintro ⟨proxy, hmem, hstar⟩
    exact ⟨proxy, mem_filter.2 ⟨hmem, by simp [isRange, hstar]⟩, hstar⟩
  · rintro ⟨proxy, hmem, hstar⟩
    exact ⟨proxy, mem_of_mem_filter hmem, hstar⟩

theorem TrustsAll.mono {proxies' : List Bytes} (hsub : proxies ⊆ proxies') (h : TrustsAll proxies) :
    TrustsAll proxies' := by
  rcases h with ⟨proxy, hmem, hstar⟩ | h | h
  · exact Or.inl ⟨proxy, hsub hmem, hstar⟩
  · refine Or.inr (Or.inl fun a => ?_)
    obtain ⟨proxy, hmem, hp⟩ := h a
    exact ⟨proxy, hsub hmem, hp⟩
  · refine Or.inr (Or.inr fun a => ?_)
    obtain ⟨proxy, hmem, hp⟩ := h a
    exact ⟨proxy, hsub hmem, hp⟩

/-- **The error stands exactly when the entries trust every peer**, if and only if no plain address is
needed for that: what the list trusts without its plain addresses decides. -/
theorem reports_iff_trustsAll_iff (proxies : List Bytes) :
    (Reports proxies ↔ TrustsAll proxies) ↔
      (TrustsAll proxies → TrustsAll (proxies.filter isRange)) := by
  rw [reports_iff]
  exact ⟨fun h => h.2, fun h => ⟨TrustsAll.mono (filter_subset_self _), h⟩⟩

/-- The IPv4 range of an entry. -/
def trustedIPv4 (proxy : Bytes) : Option (Prefix 32) :=
  match trustedRange proxy with
  | some (.v4 p) => some p
  | _ => none

theorem trustedRange_of_trustedIPv4 {p : Prefix 32} (h : trustedIPv4 proxy = some p) :
    trustedRange proxy = some (.v4 p) := by
  unfold trustedIPv4 at h
  split at h
  next q hq => rw [hq, Option.some.inj h]
  next => cases h

theorem holds_foldl_insert (ps : List (Prefix w)) (t : PrefixTree) (a : BitVec w) :
    (ps.foldl (fun t p => t.insert p.bits) t).Holds (bits a) ↔
      t.Holds (bits a) ∨ ∃ p ∈ ps, p.Contains a := by
  induction ps generalizing t with
  | nil => simp
  | cons p ps ih =>
    rw [foldl_cons, ih, holds_insert_bits]
    simp [or_assoc]

/-- A tree of the ranges of all entries, plain addresses included, decides which lists trust every
IPv4 peer. -/
theorem trustsIPv4_of_covered
    (h : ((proxies.filterMap trustedIPv4).foldl (fun t p => t.insert p.bits)
      PrefixTree.empty).covered = true) (a : BitVec 32) : TrustsIPv4 proxies a := by
  rcases (holds_foldl_insert _ _ a).1 (PrefixTree.holds_of_covered h (bits a)) with hempty | hp
  · exact absurd hempty (PrefixTree.not_holds_empty _)
  · obtain ⟨p, hp, ha⟩ := hp
    obtain ⟨proxy, hmem, hproxy⟩ := mem_filterMap.1 hp
    exact ⟨proxy, hmem, p, trustedRange_of_trustedIPv4 hproxy, ha⟩

/-- One plain address, and the networks of all others. -/
def lonelyZero : List Bytes :=
  [ascii "0.0.0.0", ascii "0.0.0.1/32", ascii "0.0.0.2/31", ascii "0.0.0.4/30", ascii "0.0.0.8/29",
    ascii "0.0.0.16/28", ascii "0.0.0.32/27", ascii "0.0.0.64/26", ascii "0.0.0.128/25",
    ascii "0.0.1.0/24", ascii "0.0.2.0/23", ascii "0.0.4.0/22", ascii "0.0.8.0/21",
    ascii "0.0.16.0/20", ascii "0.0.32.0/19", ascii "0.0.64.0/18", ascii "0.0.128.0/17",
    ascii "0.1.0.0/16", ascii "0.2.0.0/15", ascii "0.4.0.0/14", ascii "0.8.0.0/13",
    ascii "0.16.0.0/12", ascii "0.32.0.0/11", ascii "0.64.0.0/10", ascii "0.128.0.0/9",
    ascii "1.0.0.0/8", ascii "2.0.0.0/7", ascii "4.0.0.0/6", ascii "8.0.0.0/5", ascii "16.0.0.0/4",
    ascii "32.0.0.0/3", ascii "64.0.0.0/2", ascii "128.0.0.0/1"]

/-- Every IPv4 peer is trusted and no error is reported: the check leaves out the plain address. -/
theorem every_peer_trusted :
    (∀ a, TrustsIPv4 lonelyZero a) ∧
      validateTrustedProxies environmentProduction lonelyZero = [] ∧ ¬ Reports lonelyZero := by
  refine ⟨fun a => trustsIPv4_of_covered (by decide +kernel) a, by decide +kernel, ?_⟩
  decide +kernel

end Gombit.Config
