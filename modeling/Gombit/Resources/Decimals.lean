import Gombit.Resources.Fields
import Gombit.Types.Notation

/-!
# Decimal bounds and defaults

The generator decides by its text whether a `min`, `max` or `default` fits a `decimal(p,s)` column
(`checkNumber`); the database guard decides it by the value (`DecimalStorageProblem`).

* `splitSpelling_of_decimalSpelling`: the generator and the size rule cut a token at the same places.
* `guard_of_fits`, `checkNumber_canonical`: what one of them takes the other takes too, but for a
  token with 1000 digits after the point. A value below 1 is written with a zero before the point, and
  the size rule counts it.
* `agrees_iff`: such a token, and one that is too long for the parser, are the only exceptions.
-/

namespace Gombit.Resources

open Gombit.Types List

/-! ## The parts of a token -/

/-- What stands after the digits before the point. -/
def fracTail (raw : Bytes) : Bytes :=
  if (cut 46 (unsignedBody raw)).isNone then [] else 46 :: (decimalParts raw).2

theorem unsignedBody_eq (raw : Bytes) :
    unsignedBody raw = (decimalParts raw).1 ++ fracTail raw := by
  unfold fracTail decimalParts
  rcases cut_cases 46 (unsignedBody raw) with ⟨hnone, -⟩ | ⟨a, b, hsome, hs, -⟩
  · simp [hnone]
  · simpa [hsome] using hs

theorem frac_eq_nil_of_none {raw : Bytes} (h : (cut 46 (unsignedBody raw)).isNone = true) :
    (decimalParts raw).2 = [] := by
  rw [Option.isNone_iff_eq_none] at h
  rw [decimalParts, h]
  rfl

/-- The digits of a token that matches the decimal schema. -/
theorem digits_of_decimalSpelling {raw : Bytes} (h : decimalSpelling raw = true) :
    (decimalParts raw).1 ≠ [] ∧ (∀ b ∈ (decimalParts raw).1, isDigitByte b = true) ∧
      ∀ b ∈ (decimalParts raw).2, isDigitByte b = true := by
  simp only [decimalSpelling, Bool.and_eq_true, decide_eq_true_eq, all_eq_true] at h
  exact ⟨h.1.1.1, h.1.1.2, h.1.2⟩

theorem splitSign_of_decimalSpelling {raw : Bytes} (h : decimalSpelling raw = true) :
    splitSign raw = (decide (raw.head? = some 45), unsignedBody raw) := by
  obtain ⟨hne, hdigits, -⟩ := digits_of_decimalSpelling h
  cases raw with
  | nil => simp [decimalParts, unsignedBody, cut] at hne
  | cons c s =>
    by_cases hminus : c = 45
    · subst hminus
      rfl
    · have hbody : unsignedBody (c :: s) = c :: s := by simp [unsignedBody, hminus]
      obtain ⟨d, r, hdr⟩ := exists_cons_of_ne_nil hne
      have hcd : c = d := by
        have hsplit := unsignedBody_eq (c :: s)
        rw [hbody, hdr, cons_append] at hsplit
        exact (List.cons.inj hsplit).1
      have hplus : c ≠ 43 := by
        rintro rfl
        exact absurd (hdigits 43 (by rw [hdr, ← hcd]; exact mem_cons_self)) (by decide)
      simp [splitSign, hplus, hminus, hbody]

/-- The generator cuts a token where the size rule does. -/
theorem splitSpelling_of_decimalSpelling {raw : Bytes} (h : decimalSpelling raw = true) :
    splitSpelling raw =
      { negative := decide (raw.head? = some 45), int := (decimalParts raw).1,
        frac := (decimalParts raw).2, rest := [] } := by
  obtain ⟨-, hint, hfrac⟩ := digits_of_decimalSpelling h
  have hhead : ∀ b ∈ (fracTail raw).head?, isDigitByte b = false := by
    unfold fracTail
    split
    · simp
    · simp only [List.head?_cons, Option.mem_def, Option.some.injEq, forall_eq']
      decide
  obtain ⟨htake, hdrop⟩ := takeWhile_append_of_all hint hhead
  have htail : splitFrac (fracTail raw) = ((decimalParts raw).2, []) := by
    unfold fracTail
    split
    · rename_i hnone
      rw [frac_eq_nil_of_none hnone]
      rfl
    · obtain ⟨htake', hdrop'⟩ := takeWhile_append_of_all (t := []) hfrac (by simp)
      rw [append_nil] at htake' hdrop'
      simp [splitFrac, htake', hdrop']
  unfold splitSpelling
  simp only [splitSign_of_decimalSpelling h, unsignedBody_eq raw, htake, hdrop, htail]

/-! ## A token that fits the column -/

section Token

variable {raw : Bytes} {p s : ℕ}

/-- The digits before the point, but for leading zeros, and after it, decide where the significant
digits of the value stand. -/
theorem measured_of_decimalSpelling (h : decimalSpelling raw = true) {n t : ℕ}
    (hmeas : Measured (spelledValue raw).coefficient.natAbs n t) :
    n + t ≤ ((decimalParts raw).1.dropWhile (· = 48)).length + (decimalParts raw).2.length := by
  obtain ⟨-, hint, hfrac⟩ := digits_of_decimalSpelling h
  rw [natAbs_spelledValue, splitSpelling_of_decimalSpelling h] at hmeas
  refine pow_le_of_lt hmeas.le ?_
  have hmem : ∀ b ∈ (decimalParts raw).1.dropWhile (· = 48), isDigitByte b = true :=
    fun b hb => hint b ((List.dropWhile_suffix _).subset hb)
  have hlt := numeral_lt (s := (decimalParts raw).1.dropWhile (· = 48) ++ (decimalParts raw).2) (by
    intro b hb
    rcases mem_append.1 hb with hb | hb
    · exact hmem b hb
    · exact hfrac b hb)
  rw [numeral_append, numeral_dropWhile, ← numeral_append, length_append] at hlt
  exact hlt

theorem exponent_of_decimalSpelling (h : decimalSpelling raw = true) :
    (spelledValue raw).exponent = -((decimalParts raw).2.length : ℤ) := by
  simp [spelledValue, splitSpelling_of_decimalSpelling h, spelledExponent]

theorem plain_of_decimalSpelling (h : decimalSpelling raw = true)
    (hlen : raw.length ≤ maxDecimalSpelling) : Plain raw := by
  refine ⟨hlen, ?_, ?_⟩ <;> rw [splitSpelling_of_decimalSpelling h]
  exact (digits_of_decimalSpelling h).1

/-- The digits after the point, without zeros at the end, are at most 999. -/
def FewPlaces (raw : Bytes) : Prop :=
  (decimalParts raw).2.length < 1000 ∨ (decimalParts raw).2.getLast? = some 48

instance (raw : Bytes) : Decidable (FewPlaces raw) := inferInstanceAs (Decidable (_ ∨ _))

/-- A digit after the point is the last of the value's digits, unless it is zero. -/
theorem ten_dvd_iff (h : decimalSpelling raw = true) (hne : (decimalParts raw).2 ≠ []) :
    10 ∣ (spelledValue raw).coefficient.natAbs ↔ (decimalParts raw).2.getLast? = some 48 := by
  obtain ⟨-, -, hfrac⟩ := digits_of_decimalSpelling h
  rw [natAbs_spelledValue, splitSpelling_of_decimalSpelling h]
  obtain ⟨frac, c, hlast⟩ : ∃ frac c, (decimalParts raw).2 = frac ++ [c] :=
    ⟨_, _, (dropLast_append_getLast hne).symm⟩
  have hc := isDigitByte_iff.1 (hfrac c (by simp [hlast]))
  simp only [hlast, ← append_assoc, numeral_concat, getLast?_concat, Option.some.injEq]
  rw [Nat.dvd_add_right (Dvd.intro_left _ rfl), ← UInt8.toNat_inj,
    show (48 : UInt8).toNat = 48 from rfl]
  omega

/-- **The guard takes what fits the column by its text**, if it has not too many places. -/
theorem guard_of_fits (h : decimalSpelling raw = true) (hp : 0 < p) (hp' : p ≤ 1000) (hs : s ≤ p)
    (hplaces : FewPlaces raw)
    (hwhole : ((decimalParts raw).1.dropWhile (· = 48)).length ≤ p - s)
    (hfrac : (decimalParts raw).2.length ≤ s) :
    decimalStorageProblem digitEstimate (spelledValue raw) p s false = [] := by
  have hexp := exponent_of_decimalSpelling h
  have hb : ¬ Unbounded (spelledValue raw).exponent := by
    rw [hexp, Unbounded, maxDecimalDigits]
    omega
  rw [storageProblem_eq_nil_iff false hp]
  by_cases hzero : (spelledValue raw).coefficient = 0
  · exact ⟨{}, decimalShapeOf_zero hb hzero, Or.inl rfl⟩
  · obtain ⟨n, t, hmeas⟩ : ∃ n t, Measured (spelledValue raw).coefficient.natAbs n t :=
      ⟨_, _, measured_trimmedLen (Int.natAbs_ne_zero.2 hzero)⟩
    have hlen := measured_of_decimalSpelling h hmeas
    have hlast : (decimalParts raw).2.length < 1000 + t := by
      rcases hplaces with hshort | hlast
      · omega
      · have hne : (decimalParts raw).2 ≠ [] := by
          rintro hnil
          simp [hnil] at hlast
        have hdvd := (ten_dvd_iff h hne).2 hlast
        obtain ⟨q, hq, hnot, -⟩ := hmeas
        rcases Nat.eq_zero_or_pos t with rfl | hpos
        · exact absurd (by simpa [hq] using hdvd) hnot
        · omega
    refine ⟨shapeOf n ((spelledValue raw).exponent + t), ?_, Or.inr ⟨?_, by simp⟩⟩
    · rw [decimalShapeOf_eq hb hmeas, checkedShape, if_neg]
      simp only [DecimalShape.digits, shapeOf, maxDecimalDigits]
      omega
    · simp only [shapeOf]
      omega

/-- The size rule refuses a token with too many places. -/
theorem fewPlaces_of_shape (h : decimalSpelling raw = true)
    (hfrac : (decimalParts raw).2.length ≤ 1000) {shape : DecimalShape}
    (hshape : decimalShapeOf digitEstimate (spelledValue raw) = .ok shape) : FewPlaces raw := by
  by_contra hmany
  rw [FewPlaces, not_or] at hmany
  have hlen : (decimalParts raw).2.length = 1000 := by omega
  have hne : (decimalParts raw).2 ≠ [] := by
    rintro hnil
    simp [hnil] at hlen
  have hdvd := mt (ten_dvd_iff h hne).1 hmany.2
  obtain ⟨-, ⟨hzero, -⟩ | ⟨n, t, hmeas, -, hdigits⟩⟩ := decimalShapeOf_measured hshape
  · exact hdvd (by simp [hzero])
  · have ht : t = 0 := by
      obtain ⟨q, hq, -⟩ := hmeas
      by_contra ht
      exact hdvd (hq ▸ Dvd.dvd.mul_left (dvd_pow_self 10 ht) q)
    rw [exponent_of_decimalSpelling h, hlen, ht] at hdigits
    simp only [DecimalShape.digits, shapeOf, maxDecimalDigits] at hdigits
    omega

end Token

/-! ## A canonical spelling -/

/-- The generator reads the canonical spelling as the size rule does. -/
theorem decimalSpelling_decText (k : ℕ) (m : ℤ) :
    decimalSpelling (toBytes (decText k m)) = true ∧
      decimalParts (toBytes (decText k m)) =
        (toBytes (natText (m.natAbs / 10 ^ k)), toBytes (padDigits k (m.natAbs % 10 ^ k))) := by
  set int := toBytes (natText (m.natAbs / 10 ^ k)) with hint
  set frac := toBytes (padDigits k (m.natAbs % 10 ^ k)) with hfrac
  have hdigit : ∀ b ∈ int, isDigitByte b = true := fun b hb => isDigitByte_of_mem_natText hb
  have hdigit' : ∀ b ∈ frac, isDigitByte b = true :=
    fun b hb => isDigitByte_of_mem_padDigits hb
  have hne : int ≠ [] := by simpa [hint, toBytes] using natText_ne_nil _
  have hpoint : (46 : UInt8) ∉ int := fun hb => absurd (hdigit 46 hb) (by decide)
  have htext : toBytes (decText k m) =
      (if m < 0 then [45] else []) ++ (int ++ if k = 0 then [] else 46 :: frac) := by
    rw [decText, signText, hint, hfrac]
    by_cases hm : m < 0 <;> by_cases hk : k = 0 <;> simp [toBytes, hm, hk]
  have hbody : unsignedBody (toBytes (decText k m)) = int ++ if k = 0 then [] else 46 :: frac := by
    rw [htext]
    by_cases hm : m < 0
    · simp [hm, unsignedBody]
    · obtain ⟨c, r, hcr⟩ := exists_cons_of_ne_nil hne
      have hminus : c ≠ 45 := by
        rintro rfl
        exact absurd (hdigit 45 (by rw [hcr]; exact mem_cons_self)) (by decide)
      simp [hm, hcr, unsignedBody, hminus]
  have hlen : frac.length = k := by simp [hfrac, toBytes]
  have hall : int.all isDigitByte = true := all_eq_true.2 hdigit
  have hall' : frac.all isDigitByte = true := all_eq_true.2 hdigit'
  by_cases hk : k = 0
  · have hnil : frac = [] := length_eq_zero_iff.1 (hlen.trans hk)
    have hcut : cut 46 (unsignedBody (toBytes (decText k m))) = none := by
      rw [hbody, if_pos hk, append_nil]
      rcases cut_cases 46 int with ⟨hnone, -⟩ | ⟨a, b, -, hs, -⟩
      · exact hnone
      · exact absurd (hs ▸ mem_append_right a mem_cons_self) hpoint
    have hparts : decimalParts (toBytes (decText k m)) = (int, frac) := by
      rw [decimalParts, hcut, hbody, hnil, if_pos hk, append_nil]
      rfl
    exact ⟨by simp [decimalSpelling, hparts, hcut, hne, hall, hall'], hparts⟩
  · have hcut : cut 46 (unsignedBody (toBytes (decText k m))) = some (int, frac) := by
      rw [hbody, if_neg hk, cut_append_cons hpoint]
    have hparts : decimalParts (toBytes (decText k m)) = (int, frac) := by
      rw [decimalParts, hcut]
      rfl
    have hfracne : frac ≠ [] := by
      intro h
      rw [h] at hlen
      exact hk hlen.symm
    exact ⟨by simp [decimalSpelling, hparts, hne, hall, hall', hfracne], hparts⟩

/-! ## Agreement -/

section Field

variable {f : Field}

/-- What the generator asks of a token for a decimal column. -/
theorem checkNumber_decimal_iff (hkind : f.kind = .decimal) (bound : Bound) (raw : Bytes) :
    checkNumber f bound raw = .ok () ↔ decimalSpelling raw = true ∧
      (((decimalParts raw).1.dropWhile (· = 48)).length : ℤ) ≤ f.precision.toInt - f.scale.toInt ∧
      ((decimalParts raw).2.length : ℤ) ≤ f.scale.toInt := by
  have hunsigned : f.kind ≠ .unsigned := by rw [hkind]; decide
  rw [checkNumber, if_neg hunsigned, if_pos hkind]
  constructor
  · intro h
    obtain ⟨u, hspelling, hfits⟩ := ok_of_bind h
    exact ⟨of_require hspelling, of_require hfits⟩
  · rintro ⟨hspelling, hfits⟩
    rw [require, if_pos hspelling]
    exact if_pos hfits

/-- The generator accepts the canonical spelling of what the guard takes. -/
theorem checkNumber_canonical (hkind : f.kind = .decimal) (hp : 0 < f.precision.toInt)
    (hs : 0 ≤ f.scale.toInt) (hsp : f.scale.toInt ≤ f.precision.toInt) {d : Decimal}
    (h : decimalStorageProblem digitEstimate d f.precision.toInt f.scale.toInt false = [])
    (bound : Bound) : checkNumber f bound (canonicalSpelling d) = .ok () := by
  obtain ⟨p, hp'⟩ := Int.eq_ofNat_of_zero_le hp.le
  obtain ⟨s, hs'⟩ := Int.eq_ofNat_of_zero_le hs
  rw [hp', hs'] at h
  obtain ⟨shape, hshape, hfits⟩ := (storageProblem_eq_nil_iff false (by omega)).1 h
  obtain ⟨hspelling, hparts⟩ := decimalSpelling_decText (shortest d).1 (shortest d).2
  have hcounts : shape = shapeOfText (canonicalSpelling d) := by
    rw [decimalShapeOf_eq_trueShape, trueShape] at hshape
    split at hshape
    · cases hshape
    · exact (Except.ok.inj hshape).symm
  have hsplit := splitSpelling_decText (shortest d).1 (shortest d).2
  rw [checkNumber_decimal_iff hkind]
  refine ⟨hspelling, ?_⟩
  have hwhole : ((decimalParts (canonicalSpelling d)).1.dropWhile (· = 48)).length = shape.whole := by
    rw [hcounts, shapeOfText, canonicalSpelling, hparts, hsplit]
  have hfrac : (decimalParts (canonicalSpelling d)).2.length = shape.frac := by
    rw [hcounts, shapeOfText, canonicalSpelling, hparts, hsplit]
  rw [hwhole, hfrac, hp', hs']
  rcases hfits with hsig | ⟨hfits, -⟩
  · have hzero : shape.whole = 0 ∧ shape.frac = 0 := by
      obtain ⟨-, ⟨-, rfl⟩ | ⟨n, t, hmeas, rfl, -⟩⟩ := decimalShapeOf_measured hshape
      · exact ⟨rfl, rfl⟩
      · exact absurd hsig (significant_shapeOf_ne_zero hmeas.pos _)
    omega
  · exact hfits

/-- The running program can use a token of the field: it parses, and the database guard takes the
value. -/
def Usable (lib : Shopspring) (f : Field) (raw : Bytes) : Prop :=
  ∃ d, newDecimalFromString lib digitEstimate raw = .ok d ∧
    decimalStorageProblem digitEstimate d f.precision.toInt f.scale.toInt false = []

theorem usable_iff (lib : Shopspring) (hkind : f.kind = .decimal) (hp : 0 < f.precision.toInt)
    (hp' : f.precision.toInt ≤ 1000) (hs : 0 ≤ f.scale.toInt)
    (hsp : f.scale.toInt ≤ f.precision.toInt) {bound : Bound} {raw : Bytes}
    (h : checkNumber f bound raw = .ok ()) :
    Usable lib f raw ↔ raw.length ≤ maxDecimalSpelling ∧ FewPlaces raw := by
  obtain ⟨hspelling, hwhole, hfrac⟩ := (checkNumber_decimal_iff hkind bound raw).1 h
  constructor
  · rintro ⟨d, hparse, -⟩
    have hlen : raw.length ≤ maxDecimalSpelling := by
      by_contra hlong
      rw [newDecimalFromString, readSpelling.eq_def, if_pos (not_le.1 hlong)] at hparse
      cases hparse
    have hplain := plain_of_decimalSpelling hspelling hlen
    obtain ⟨rfl, shape, hshape⟩ := (newDecimalFromString_iff lib hplain).1 hparse
    exact ⟨hlen, fewPlaces_of_shape hspelling (by omega) hshape⟩
  · rintro ⟨hlen, hplaces⟩
    obtain ⟨p, hpn⟩ := Int.eq_ofNat_of_zero_le hp.le
    obtain ⟨s, hsn⟩ := Int.eq_ofNat_of_zero_le hs
    have hguard : decimalStorageProblem digitEstimate (spelledValue raw) f.precision.toInt
        f.scale.toInt false = [] := by
      rw [hpn, hsn]
      exact guard_of_fits hspelling (by omega) (by omega) (by omega) hplaces (by omega) (by omega)
    obtain ⟨shape, hshape, -⟩ := shape_of_no_problem hguard
    have hplain := plain_of_decimalSpelling hspelling hlen
    exact ⟨_, (newDecimalFromString_iff lib hplain).2 ⟨rfl, shape, hshape⟩, hguard⟩

end Field

def priceField : Field := { jsonName := ascii "price", kind := .decimal, precision := 19, scale := 4 }

def thousandField : Field :=
  { jsonName := ascii "share", kind := .decimal, precision := 1000, scale := 1000 }

/-- `0.00…01` with 1000 digits after the point. -/
def smallestThousand : Bytes := ascii "0." ++ List.replicate 999 48 ++ [49]

/-- `00…01` with 3032 zeros. -/
def longOne : Bytes := List.replicate 3032 48 ++ [49]

end Gombit.Resources
