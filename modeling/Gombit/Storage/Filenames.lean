import Gombit.Foundations.Characters
import Gombit.Storage.Keys

/-!
# The names of uploaded files

A file keeps the name that the client gives it as metadata: `CleanFilename` makes a name of any string
(`storage/upload/upload.go`), and `fitMetadata` cuts it until the metadata is valid.

* `cleanFilename_clean`: what the result is, whatever the string (`CleanName`).
* `cleanFilename_of_clean`: a clean name stays as it is.
* `fitMetadata_spec`: the metadata is valid, and has as much of the name as it takes (`Fitted`).
* `filename_stored`: all of it, for every string.
-/

namespace Gombit.Storage

open List

/-! ## Cleaning -/

/-- The characters, with one U+FFFD for the bytes between them; `after` tells that there is one already. -/
def replaceStrays (after : Bool) : List Bytes → Bytes
  | [] => []
  | c :: cs =>
    if validUTF8 c = true then c ++ replaceStrays false cs
    else if after = true then replaceStrays true cs
    else replacementChar ++ replaceStrays true cs

/-- `strings.ToValidUTF8`, with U+FFFD. -/
def toValidUTF8 (s : Bytes) : Bytes := replaceStrays false (characters s)

/-- A slash or a backslash. -/
def isSeparator (b : UInt8) : Bool := b = 47 || b = 92

/-- What follows the last slash or backslash. -/
def lastElement (s : Bytes) : Bytes := (s.reverse.takeWhile fun b => !isSeparator b).reverse

/-- The string without its unsafe characters. -/
def dropUnsafe (s : Bytes) : Bytes := ((characters s).filter fun c => findUnsafe c = none).flatten

/-- `strings.ReplaceAll`, of `=?` by `=_`. -/
def replaceEncodedWords : Bytes → Bytes
  | [] => []
  | [b] => [b]
  | b :: c :: s =>
    if b = 61 ∧ c = 63 then 61 :: 95 :: replaceEncodedWords s else b :: replaceEncodedWords (c :: s)

def maxFilenameBytes : ℕ := 255

/-- The last place up to `n` where a character may start. -/
def boundary (s : Bytes) : ℕ → ℕ
  | 0 => 0
  | n + 1 => if (s[n + 1]?).any isContinuation = true then boundary s n else n + 1

def cutFilename (s : Bytes) : Bytes :=
  if maxFilenameBytes < s.length then s.take (boundary s maxFilenameBytes) else s

/-- `CleanFilename`. -/
def cleanFilename (name : Bytes) : Bytes :=
  let name := toValidUTF8 name
  let name := lastElement name
  let name := dropUnsafe name
  let name := replaceEncodedWords name
  let name := cutFilename name
  let name := trimSpace name
  if name = ascii "." ∨ name = ascii ".." then [] else name

/-- What a clean name is. -/
structure CleanName (s : Bytes) : Prop where
  valid : validUTF8 s = true
  length_le : s.length ≤ maxFilenameBytes
  slash : 47 ∉ s
  backslash : 92 ∉ s
  /-- No control character, line separator or bidirectional control. -/
  safe : findUnsafe s = none
  encodedWord : ¬ascii "=?" <:+: s
  trimmed : Trimmed s
  dot : s ≠ ascii "."
  dotdot : s ≠ ascii ".."

/-! ### The steps -/

variable {s : Bytes}

theorem findUnsafe_eq_none_iff :
    findUnsafe s = none ↔ ∀ r, some r ∈ runes s → unsafeRune r = false := by
  rw [findUnsafe, List.findSome?_eq_none_iff]
  constructor
  · intro h r hr
    simpa using h (some r) hr
  · rintro h (_ | r) hr
    · rfl
    · simp [h r hr]

theorem validUTF8_replaceStrays {cs : List Bytes}
    (hcs : ∀ c ∈ cs, validUTF8 c = true → ∃ r, Spells c r) (after : Bool) :
    validUTF8 (replaceStrays after cs) = true := by
  induction cs generalizing after with
  | nil => rfl
  | cons c cs ih =>
    obtain ⟨hc, hcs⟩ := forall_mem_cons.1 hcs
    rw [replaceStrays]
    split
    · rename_i hvalid
      obtain ⟨r, hr⟩ := hc hvalid
      rw [validUTF8_append_of_spells hr]
      exact ih hcs false
    · split
      · exact ih hcs true
      · rw [validUTF8_append_of_spells spells_replacementChar]
        exact ih hcs true

/-- **Any string is made valid.** -/
theorem validUTF8_toValidUTF8 (s : Bytes) : validUTF8 (toValidUTF8 s) = true :=
  validUTF8_replaceStrays (fun _ hc => spells_of_mem hc) false

theorem toValidUTF8_of_valid (h : validUTF8 s = true) : toValidUTF8 s = s := by
  have hall : ∀ cs : List Bytes, (∀ c ∈ cs, ∃ r, Spells c r) → replaceStrays false cs = cs.flatten := by
    intro cs hcs
    induction cs with
    | nil => rfl
    | cons c cs ih =>
      obtain ⟨⟨r, hr⟩, hcs⟩ := forall_mem_cons.1 hcs
      have hvalid : validUTF8 c = true := by rw [validUTF8, hr.runes_eq]; rfl
      rw [replaceStrays, if_pos hvalid, ih hcs, flatten_cons]
  rw [toValidUTF8, hall _ (spells_of_valid h), flatten_characters]

/-- The last element of a path is what follows a separator, or all of it. -/
theorem lastElement_cases (s : Bytes) :
    lastElement s = s ∨ ∃ p b, s = p ++ b :: lastElement s ∧ isSeparator b = true := by
  have hsplit := takeWhile_append_dropWhile (p := fun b => !isSeparator b) (l := s.reverse)
  have hhead := List.head?_dropWhile_not (fun b => !isSeparator b) s.reverse
  cases hdrop : s.reverse.dropWhile fun b => !isSeparator b with
  | nil =>
    left
    rw [hdrop, append_nil] at hsplit
    rw [lastElement, hsplit, reverse_reverse]
  | cons b q =>
    right
    rw [hdrop] at hhead hsplit
    refine ⟨q.reverse, b, ?_, by simpa using hhead⟩
    have hrev := congrArg List.reverse hsplit
    rw [reverse_append, reverse_reverse, reverse_cons] at hrev
    rw [append_assoc, singleton_append] at hrev
    exact hrev.symm

theorem notMem_lastElement {b : UInt8} (hb : isSeparator b = true) : b ∉ lastElement s := by
  intro hmem
  rw [lastElement, mem_reverse] at hmem
  have hnot := all_eq_true.1 all_takeWhile b hmem
  rw [hb] at hnot
  cases hnot

theorem lastElement_of_notMem (h : ∀ b ∈ s, isSeparator b = false) : lastElement s = s := by
  rcases lastElement_cases s with heq | ⟨p, b, heq, hb⟩
  · exact heq
  · have hmem : b ∈ s := heq ▸ mem_append_right p mem_cons_self
    cases hb.symm.trans (h b hmem)

theorem validUTF8_lastElement (h : validUTF8 s = true) : validUTF8 (lastElement s) = true := by
  rcases lastElement_cases s with heq | ⟨p, b, heq, hb⟩
  · rwa [heq]
  · rw [isSeparator, Bool.or_eq_true, decide_eq_true_eq, decide_eq_true_eq] at hb
    have hascii : b < 0x80 := by rcases hb with rfl | rfl <;> decide
    have hcont : isContinuation b = false := by rcases hb with rfl | rfl <;> decide
    rw [heq, validUTF8, runes_append p (by rintro x ⟨⟩; exact hcont), runes_cons_ascii hascii,
      all_append, all_cons, Bool.and_eq_true, Bool.and_eq_true] at h
    exact h.2.2

theorem spells_dropUnsafe (h : validUTF8 s = true) :
    ∀ c ∈ (characters s).filter (fun c => findUnsafe c = none), ∃ r, Spells c r :=
  fun c hc => spells_of_valid h c (mem_of_mem_filter hc)

theorem runes_dropUnsafe (h : validUTF8 s = true) {r : Option ℕ} (hr : r ∈ runes (dropUnsafe s)) :
    r ∈ runes s ∧ ∀ n ∈ r, unsafeRune n = false := by
  rw [dropUnsafe, runes_flatten (spells_dropUnsafe h), mem_flatMap] at hr
  obtain ⟨c, hc, hr⟩ := hr
  obtain ⟨hc, hsafe⟩ := mem_filter.1 hc
  refine ⟨?_, fun n hn => ?_⟩
  · rw [runes_eq_flatMap, mem_flatMap]
    exact ⟨c, hc, hr⟩
  · exact findUnsafe_eq_none_iff.1 (of_decide_eq_true hsafe) n (hn ▸ hr)

theorem mem_of_mem_dropUnsafe {b : UInt8} (h : b ∈ dropUnsafe s) : b ∈ s := by
  obtain ⟨c, hc, hb⟩ := mem_flatten.1 h
  rw [← flatten_characters s]
  exact mem_flatten.2 ⟨c, mem_of_mem_filter hc, hb⟩

theorem dropUnsafe_of_safe (h : findUnsafe s = none) : dropUnsafe s = s := by
  have hall : ∀ c ∈ characters s, decide (findUnsafe c = none) = true := by
    intro c hc
    refine decide_eq_true (findUnsafe_eq_none_iff.2 fun r hr => findUnsafe_eq_none_iff.1 h r ?_)
    rw [runes_eq_flatMap, mem_flatMap]
    exact ⟨c, hc, hr⟩
  rw [dropUnsafe, filter_eq_self.2 hall, flatten_characters]

theorem encodedWord_eq : ascii "=?" = [61, 63] := by decide

theorem head_replaceEncodedWords (b : UInt8) (s : Bytes) :
    (replaceEncodedWords (b :: s)).head? = some b := by
  cases s with
  | nil => rfl
  | cons c s =>
    rw [replaceEncodedWords]
    split
    · rename_i h
      rw [h.1]
      rfl
    · rfl

/-- A string has no `=?`, or the first one is replaced. -/
theorem replaceEncodedWords_cases (s : Bytes) :
    (¬ascii "=?" <:+: s ∧ replaceEncodedWords s = s) ∨
      ∃ t r, s = t ++ 61 :: 63 :: r ∧ replaceEncodedWords s = t ++ 61 :: 95 :: replaceEncodedWords r := by
  rw [encodedWord_eq]
  induction s using replaceEncodedWords.induct with
  | case1 => exact .inl ⟨by decide, rfl⟩
  | case2 b => exact .inl ⟨fun h => absurd h.length_le (by simp), rfl⟩
  | case3 b c s h ih =>
    rw [replaceEncodedWords, if_pos h, h.1, h.2]
    exact .inr ⟨[], s, rfl, rfl⟩
  | case4 b c s h ih =>
    rw [replaceEncodedWords, if_neg h]
    rcases ih with ⟨hnot, heq⟩ | ⟨t, r, heq, heq'⟩
    · refine .inl ⟨fun hsub => ?_, by rw [heq]⟩
      rcases infix_cons_iff.1 hsub with hpre | hsub
      · obtain ⟨hb, hpre⟩ := cons_prefix_cons.1 hpre
        exact h ⟨hb.symm, (cons_prefix_cons.1 hpre).1.symm⟩
      · exact hnot hsub
    · exact .inr ⟨b :: t, r, by rw [heq, cons_append], by rw [heq', cons_append]⟩

theorem not_infix_replaceEncodedWords (s : Bytes) : ¬ascii "=?" <:+: replaceEncodedWords s := by
  rw [encodedWord_eq]
  induction s using replaceEncodedWords.induct with
  | case1 => decide
  | case2 b => exact fun h => absurd h.length_le (by simp [replaceEncodedWords])
  | case3 b c s h ih =>
    rw [replaceEncodedWords, if_pos h]
    intro hsub
    rcases infix_cons_iff.1 hsub with hpre | hsub
    · exact absurd (cons_prefix_cons.1 (cons_prefix_cons.1 hpre).2).1 (by decide)
    rcases infix_cons_iff.1 hsub with hpre | hsub
    · exact absurd (cons_prefix_cons.1 hpre).1 (by decide)
    · exact ih hsub
  | case4 b c s h ih =>
    rw [replaceEncodedWords, if_neg h]
    intro hsub
    rcases infix_cons_iff.1 hsub with hpre | hsub
    · obtain ⟨hb, hpre⟩ := cons_prefix_cons.1 hpre
      -- what follows `b` starts with `c` still
      obtain ⟨q, hq⟩ := hpre
      have hhead := head_replaceEncodedWords c s
      rw [← hq] at hhead
      exact h ⟨hb.symm, (Option.some.inj hhead).symm⟩
    · exact ih hsub

theorem replaceEncodedWords_of_not_infix (h : ¬ascii "=?" <:+: s) : replaceEncodedWords s = s := by
  rcases replaceEncodedWords_cases s with ⟨-, heq⟩ | ⟨t, r, rfl, -⟩
  · exact heq
  · exact absurd ⟨t, r, by rw [encodedWord_eq]; simp⟩ h

/-- Replacing leaves the bytes and the characters, and adds underscores. -/
theorem mem_replaceEncodedWords (s : Bytes) :
    (∀ b ∈ replaceEncodedWords s, b ∈ s ∨ b = 95) ∧
      ∀ r ∈ runes (replaceEncodedWords s), r ∈ runes s ∨ r = some 95 := by
  induction hlen : s.length using Nat.strong_induction_on generalizing s with
  | _ n ih =>
    rcases replaceEncodedWords_cases s with ⟨-, heq⟩ | ⟨t, r, rfl, heq⟩
    · rw [heq]
      exact ⟨fun b hb => .inl hb, fun r hr => .inl hr⟩
    · obtain ⟨hbytes, hrunes⟩ := ih r.length (by simp [← hlen]; omega) r rfl
      have hhead : ∀ {u : Bytes}, ∀ x ∈ (61 :: u).head?, isContinuation x = false := by
        rintro u x ⟨⟩
        decide
      have hascii : ∀ {b : UInt8} {u : Bytes}, b < 0x80 → runes (b :: u) = some b.toNat :: runes u :=
        fun hb => runes_cons_ascii hb _
      rw [heq, runes_append t hhead, runes_append t hhead, hascii (by decide), hascii (by decide),
        hascii (by decide), hascii (by decide)]
      constructor
      · intro b hb
        simp only [mem_append, mem_cons] at hb ⊢
        rcases hb with hb | hb | hb | hb
        · exact .inl (.inl hb)
        · exact .inl (.inr (.inl hb))
        · exact .inr hb
        · exact (hbytes b hb).imp_left fun h => .inr (.inr (.inr h))
      · intro x hx
        simp only [mem_append, mem_cons] at hx ⊢
        rcases hx with hx | hx | hx | hx
        · exact .inl (.inl hx)
        · exact .inl (.inr (.inl hx))
        · exact .inr hx
        · exact (hrunes x hx).imp_left fun h => .inr (.inr (.inr h))

theorem boundary_spec (s : Bytes) (n : ℕ) :
    boundary s n ≤ n ∧ (boundary s n = 0 ∨ ∀ b ∈ s[boundary s n]?, isContinuation b = false) := by
  induction n with
  | zero => exact ⟨le_rfl, .inl rfl⟩
  | succ n ih =>
    rw [boundary]
    split
    · exact ⟨ih.1.trans (Nat.le_succ n), ih.2⟩
    · rename_i hnot
      refine ⟨le_rfl, .inr fun b hb => ?_⟩
      rw [Option.mem_def.1 hb] at hnot
      simpa using hnot

theorem cutFilename_isPrefix (s : Bytes) : cutFilename s <+: s := by
  unfold cutFilename
  split
  · exact List.take_prefix _ _
  · exact prefix_rfl

theorem length_cutFilename_le (s : Bytes) : (cutFilename s).length ≤ maxFilenameBytes := by
  unfold cutFilename
  split
  · rw [length_take]
    exact (min_le_left _ _).trans (boundary_spec s _).1
  · exact not_lt.1 ‹_›

/-- **The name is cut between characters.** -/
theorem runes_cutFilename (s : Bytes) : runes (cutFilename s) <+: runes s := by
  unfold cutFilename
  split
  swap
  · exact prefix_rfl
  obtain ⟨-, hzero | hstart⟩ := boundary_spec s maxFilenameBytes
  · rw [hzero, take_zero]
    exact List.nil_prefix
  · have hhead : ∀ x ∈ (s.drop (boundary s maxFilenameBytes)).head?, isContinuation x = false := by
      rw [List.head?_drop]
      exact hstart
    conv_rhs => rw [← take_append_drop (boundary s maxFilenameBytes) s, runes_append _ hhead]
    exact prefix_append _ _

/-! ### The result -/

theorem cleanName_nil : CleanName [] where
  valid := rfl
  length_le := Nat.zero_le _
  slash := not_mem_nil
  backslash := not_mem_nil
  safe := rfl
  encodedWord := by decide
  trimmed := trimmed_nil
  dot := by decide
  dotdot := by decide

/-- **Any string makes a clean name.** -/
theorem cleanFilename_clean (name : Bytes) : CleanName (cleanFilename name) := by
  unfold cleanFilename
  dsimp only
  set path := toValidUTF8 name
  set safe := dropUnsafe (lastElement path)
  set text := replaceEncodedWords safe with htext
  split
  · exact cleanName_nil
  rename_i hdots
  have hvalid : validUTF8 (lastElement path) = true :=
    validUTF8_lastElement (validUTF8_toValidUTF8 name)
  -- the characters of the result are safe, those that replace others included
  have hrunes : ∀ r ∈ runes (trimSpace (cutFilename text)),
      r.isSome = true ∧ ∀ n ∈ r, unsafeRune n = false := by
    intro r hr
    have hr : r ∈ runes text := (runes_cutFilename text).subset ((runes_trimSpace _).subset hr)
    rcases (mem_replaceEncodedWords safe).2 r hr with hr | rfl
    · obtain ⟨hmem, hsafe⟩ := runes_dropUnsafe hvalid hr
      exact ⟨all_eq_true.1 hvalid r hmem, hsafe⟩
    · exact ⟨rfl, by rintro n ⟨⟩; decide⟩
  have hsub : trimSpace (cutFilename text) <:+: text :=
    (trimSpace_isInfix _).trans (cutFilename_isPrefix text).isInfix
  have hsep : ∀ b, isSeparator b = true → b ∉ trimSpace (cutFilename text) := by
    intro b hb hmem
    rcases (mem_replaceEncodedWords safe).1 b (hsub.subset hmem) with hmem | rfl
    · exact notMem_lastElement hb (mem_of_mem_dropUnsafe hmem)
    · cases hb
  exact
    { valid := all_eq_true.2 fun r hr => (hrunes r hr).1
      length_le := (length_trimSpace_le _).trans (length_cutFilename_le text)
      slash := hsep 47 rfl
      backslash := hsep 92 rfl
      safe := findUnsafe_eq_none_iff.2 fun r hr => (hrunes _ hr).2 r rfl
      encodedWord := fun h => not_infix_replaceEncodedWords safe (h.trans hsub)
      trimmed := trimmed_trimSpace _
      dot := fun h => hdots (.inl h)
      dotdot := fun h => hdots (.inr h) }

/-- **A clean name stays as it is.** -/
theorem cleanFilename_of_clean (h : CleanName s) : cleanFilename s = s := by
  have hsep : ∀ b ∈ s, isSeparator b = false := by
    intro b hb
    have h₁ : b ≠ 47 := fun heq => h.slash (heq ▸ hb)
    have h₂ : b ≠ 92 := fun heq => h.backslash (heq ▸ hb)
    simp [isSeparator, h₁, h₂]
  have hcut : cutFilename s = s := if_neg (not_lt.2 h.length_le)
  unfold cleanFilename
  dsimp only
  rw [toValidUTF8_of_valid h.valid, lastElement_of_notMem hsep, dropUnsafe_of_safe h.safe,
    replaceEncodedWords_of_not_infix h.encodedWord, hcut, h.trimmed.trimSpace_eq,
    if_neg (not_or.2 ⟨h.dot, h.dotdot⟩)]

/-! ## Fitting the metadata -/

def filenameMetadata : Bytes := ascii "filename"

/-- The length of the last character: that of `utf8.DecodeLastRuneInString`. -/
def lastRuneLen (s : Bytes) : ℕ := ((characters s).getLast?.map List.length).getD 0

/-- The loop of `fitMetadata`; a name gets shorter each time. -/
def fitLoop (mime : Mime) : ℕ → StringMap → Bytes → Bytes × StringMap
  | 0, md, _ => ([], md.erase filenameMetadata)
  | n + 1, md, filename =>
    if filename = [] then ([], md.erase filenameMetadata)
    else
      let md := md.insert filenameMetadata filename
      if validateMetadata mime md = none then (filename, md)
      else fitLoop mime n md (trimRight (filename.take (filename.length - lastRuneLen filename)))

/-- `fitMetadata`: the name that is stored, and the metadata. -/
def fitMetadata (mime : Mime) (md : StringMap) (filename : Bytes) : Bytes × StringMap :=
  fitLoop mime filename.length md filename

/-- The metadata with the name is valid. -/
def Accepts (mime : Mime) (md : StringMap) (filename : Bytes) : Prop :=
  validateMetadata mime (md.insert filenameMetadata filename) = none

/-- What is stored, of a name. -/
structure Fitted (mime : Mime) (md : StringMap) (filename : Bytes) (stored : Bytes × StringMap) :
    Prop where
  valid : validateMetadata mime stored.2 = none
  others : ∀ name, name ≠ filenameMetadata → stored.2.get name = md.get name
  entry : stored.2.get filenameMetadata = if stored.1 = [] then none else some stored.1
  isPrefix : stored.1 <+: filename
  whole : Accepts mime md filename → stored.1 = filename
  nothing : stored.1 = [] → ∀ p, p ≠ [] → p <+: filename → trailLen p.reverse = 0 → ¬Accepts mime md p

section Fitting

variable {mime : Mime} {md : StringMap}

theorem validateMetadata_eq_none_iff : validateMetadata mime md = none ↔
    (∀ e ∈ md.entries, metadataProblem e = none) ∧ (md.entries.map fun e =>
      (ascii "x-amz-meta-").length + e.1.length + metadataValueWireLen mime e.2).sum ≤
        maxMetadataBytes := by
  rw [validateMetadata, Option.or_eq_none_iff, List.findSome?_eq_none_iff]
  simp only [ite_eq_right_iff, reduceCtorEq, imp_false, not_lt]

theorem sum_le_of_sublist {l l' : List ℕ} (h : l.Sublist l') : l.sum ≤ l'.sum := by
  induction h with
  | slnil => exact le_rfl
  | cons a _ ih => rw [sum_cons]; omega
  | cons_cons a _ ih => rw [sum_cons, sum_cons]; omega

theorem validateMetadata_erase (h : validateMetadata mime md = none) (name : Bytes) :
    validateMetadata mime (md.erase name) = none := by
  obtain ⟨hentries, hsum⟩ := validateMetadata_eq_none_iff.1 h
  refine validateMetadata_eq_none_iff.2 ⟨fun e he => hentries e (mem_of_mem_filter he), ?_⟩
  exact (sum_le_of_sublist (filter_sublist.map _)).trans hsum

theorem valid_of_accepts {p : Bytes} (h : Accepts mime md p) : validUTF8 p = true := by
  have hentry := (validateMetadata_eq_none_iff.1 h).1 _
    (StringMap.mem_insertEntry_self filenameMetadata p md.entries)
  by_contra hinvalid
  have hinvalid : validUTF8 p = false := by simpa using hinvalid
  have hname : ¬filenameMetadata = [] ∧ ¬(filenameMetadata.any fun c =>
      (c < 97 || 122 < c) && (c < 48 || 57 < c) && c ≠ 45) = true := by decide
  rw [metadataProblem, if_neg hname.1, if_neg hname.2, if_pos hinvalid] at hentry
  cases hentry

/-- A valid name before its last character. -/
theorem exists_lastRune (hs : validUTF8 s = true) (hne : s ≠ []) :
    ∃ g c r, s = g ++ c ∧ Spells c r ∧ validUTF8 g = true ∧ s.take (s.length - lastRuneLen s) = g := by
  rcases eq_nil_or_concat (characters s) with hnil | ⟨cs, c, hconcat⟩
  · exact absurd (by rw [← flatten_characters s, hnil]; rfl) hne
  · rw [concat_eq_append] at hconcat
    have heq : s = cs.flatten ++ c := by
      rw [← flatten_characters s, hconcat, flatten_append, flatten_singleton]
    have hspells := spells_of_valid hs
    rw [hconcat, forall_mem_append] at hspells
    obtain ⟨r, hr⟩ := hspells.2 c (mem_singleton_self c)
    refine ⟨cs.flatten, c, r, heq, hr, ?_, ?_⟩
    · rw [validUTF8, runes_flatten hspells.1]
      refine all_eq_true.2 fun x hx => ?_
      obtain ⟨d, hd, hx⟩ := mem_flatMap.1 hx
      obtain ⟨r', hr'⟩ := hspells.1 d hd
      rw [hr'.runes_eq, mem_singleton] at hx
      rw [hx]
      rfl
    · have hlast : lastRuneLen s = c.length := by simp [lastRuneLen, hconcat]
      rw [hlast]
      conv_lhs => rw [heq]
      rw [length_append, Nat.add_sub_cancel, take_left]

/-- What an iteration put into the metadata does not matter to the next one. -/
theorem fitLoop_insert (n : ℕ) (md : StringMap) (value filename : Bytes) :
    fitLoop mime n (md.insert filenameMetadata value) filename = fitLoop mime n md filename := by
  cases n with
  | zero => rw [fitLoop, fitLoop, StringMap.erase_insert]
  | succ n => simp only [fitLoop, StringMap.erase_insert, StringMap.insert_insert]

/-- **The loop.** It stores the longest name that is accepted, of those without white space at their
end, and none when there is no such name. -/
theorem fitLoop_spec {n : ℕ} {filename : Bytes} (hn : filename.length ≤ n)
    (hvalid : validUTF8 filename = true) :
    (fitLoop mime n md filename).1 <+: filename ∧
    ((fitLoop mime n md filename).1 = [] → (fitLoop mime n md filename).2 = md.erase filenameMetadata) ∧
    ((fitLoop mime n md filename).1 ≠ [] → Accepts mime md (fitLoop mime n md filename).1 ∧
      (fitLoop mime n md filename).2 = md.insert filenameMetadata (fitLoop mime n md filename).1) ∧
    ∀ p, p ≠ [] → p <+: filename → trailLen p.reverse = 0 → Accepts mime md p →
      p <+: (fitLoop mime n md filename).1 := by
  have hnil : ∀ p : Bytes, p ≠ [] → ¬p <+: [] := fun p hp h => hp (prefix_nil.1 h)
  induction n generalizing filename with
  | zero =>
    obtain rfl : filename = [] := length_eq_zero_iff.1 (Nat.le_zero.1 hn)
    exact ⟨List.nil_prefix, fun _ => rfl, fun h => absurd rfl h, fun p hp h => absurd h (hnil p hp)⟩
  | succ n ih =>
    by_cases hempty : filename = []
    · subst hempty
      exact ⟨List.nil_prefix, fun _ => rfl, fun h => absurd rfl h, fun p hp h => absurd h (hnil p hp)⟩
    by_cases haccepts : Accepts mime md filename
    · have hloop : fitLoop mime (n + 1) md filename =
          (filename, md.insert filenameMetadata filename) := by
        simp only [fitLoop, if_neg hempty]
        exact if_pos haccepts
      rw [hloop]
      exact ⟨prefix_rfl, fun h => absurd h hempty, fun _ => ⟨haccepts, rfl⟩, fun p _ h _ _ => h⟩
    · obtain ⟨g, c, r, heq, hc, hg, htake⟩ := exists_lastRune hvalid hempty
      have hloop : fitLoop mime (n + 1) md filename = fitLoop mime n md (trimRight g) := by
        simp only [fitLoop, if_neg hempty, htake]
        exact (if_neg haccepts).trans (fitLoop_insert n md filename _)
      have htrim : trimRight g <+: g := by
        rw [← List.reverse_suffix, trimRight, reverse_reverse]
        exact trimBy_suffix _ _
      have hlen : (trimRight g).length ≤ n := by
        have hpos := length_pos_iff.2 hc.ne_nil
        have hle := htrim.length_le
        rw [heq, length_append] at hn
        omega
      have hvalid' : validUTF8 (trimRight g) = true :=
        validUTF8_of_runes (fun r hr => (runes_trimRight g).subset hr) hg
      obtain ⟨hpre, hnone, hsome, hlongest⟩ := ih hlen hvalid'
      rw [hloop]
      refine ⟨hpre.trans (htrim.trans (heq ▸ prefix_append g c)), hnone, hsome, ?_⟩
      intro p hp hpre hend hacc
      have hpvalid := valid_of_accepts hacc
      refine hlongest p hp (prefix_trimRight hpvalid hg hend ?_) hend hacc
      rw [heq] at hpre
      refine (prefix_append_char hpvalid hg hc hpre).resolve_left fun hall => haccepts ?_
      rwa [heq, ← hall]

/-- **Fitting the metadata.** -/
theorem fitMetadata_spec (hmd : validateMetadata mime md = none) {filename : Bytes}
    (hname : CleanName filename) : Fitted mime md filename (fitMetadata mime md filename) := by
  obtain ⟨hpre, hnone, hsome, hlongest⟩ :=
    @fitLoop_spec mime md _ filename le_rfl hname.valid
  rw [fitMetadata]
  set stored := fitLoop mime filename.length md filename
  by_cases hempty : stored.1 = []
  · have hmap := hnone hempty
    have hnothing : ∀ p, p ≠ [] → p <+: filename → trailLen p.reverse = 0 → ¬Accepts mime md p := by
      intro p hp hpre hend hacc
      have := hlongest p hp hpre hend hacc
      rw [hempty] at this
      exact hp (prefix_nil.1 this)
    refine ⟨?_, ?_, ?_, hpre, ?_, fun _ => hnothing⟩
    · rw [hmap]
      exact validateMetadata_erase hmd _
    · intro name hne
      rw [hmap, StringMap.get_erase_of_ne md hne]
    · rw [hmap, StringMap.get_erase_self, if_pos hempty]
    · intro hacc
      by_contra hne
      have hfull : filename ≠ [] := fun h => hne (hempty.trans h.symm)
      exact hnothing filename hfull prefix_rfl hname.trimmed.2 hacc
  · obtain ⟨hacc, hmap⟩ := hsome hempty
    refine ⟨?_, ?_, ?_, hpre, ?_, fun h => absurd h hempty⟩
    · rw [hmap]
      exact hacc
    · intro name hne
      rw [hmap, StringMap.get_insert_of_ne md hne]
    · rw [hmap, StringMap.get_insert_self, if_neg hempty]
    · intro hwhole
      by_cases hfull : filename = []
      · exact absurd (prefix_nil.1 (hfull ▸ hpre)) hempty
      · have hle := hlongest filename hfull prefix_rfl hname.trimmed.2 hwhole
        exact hpre.eq_of_length_le hle.length_le

end Fitting

/-- **The name of a file.** Whatever string is given for it, the name is clean, cleaning it again
changes nothing, and valid metadata takes as much of it as fits. -/
theorem filename_stored (name : Bytes) :
    CleanName (cleanFilename name) ∧ cleanFilename (cleanFilename name) = cleanFilename name ∧
      ∀ mime md, validateMetadata mime md = none →
        Fitted mime md (cleanFilename name) (fitMetadata mime md (cleanFilename name)) :=
  ⟨cleanFilename_clean name, cleanFilename_of_clean (cleanFilename_clean name),
    fun _ _ hmd => fitMetadata_spec hmd (cleanFilename_clean name)⟩

/-- The name `../re=?port.txt`, with white space after it, in metadata that has no other entry. -/
theorem filename_stored_report :
    (fitMetadata ⟨some, List.length⟩ StringMap.empty (cleanFilename (ascii "../re=?port.txt "))).1 =
      ascii "re=_port.txt" := by
  have hfitted := (filename_stored (ascii "../re=?port.txt ")).2.2 ⟨some, List.length⟩ .empty rfl
  have hclean : cleanFilename (ascii "../re=?port.txt ") = ascii "re=_port.txt" := by decide +kernel
  rw [hclean] at hfitted ⊢
  refine hfitted.whole ?_
  unfold Accepts
  decide +kernel

end Gombit.Storage
