import Gombit.Foundations.DigitStrings
import Mathlib.Data.List.Sort

/-!
# Versions of migrations

The files of a migration directory (`listMigrationFiles`) and the version that a new one gets
(`nextMigrationVersion`). Migrations are applied in the order of their versions as strings, so a new
version has to come after all of them. It does unless the clock is not past the last version and the
number after it does not fit its width (`nextMigrationVersion_last_iff`): the version after `9` is
`10`, which sorts before it (`nextMigrationVersion_before_nine`).
-/

namespace Gombit.Migrations

open List

/-! ## The directory -/

/-- An entry of a directory, `os.DirEntry`. -/
structure DirEntry where
  name : Bytes
  isDir : Bool

/-- What `os.ReadDir` says. -/
inductive Listing
  | missing
  | failed
  | entries (es : List DirEntry)

/-- What `os.Stat` says about a file. -/
inductive Stat
  | present
  | absent
  | failed
  deriving DecidableEq

/-- A migration directory: its listing, and the down file for a version and a name. -/
structure Directory where
  listing : Listing
  down : Bytes → Bytes → Stat

/-- `MigrationFile`: its version and name, and whether there is a down file. -/
structure MigrationFile where
  version : Bytes
  name : Bytes
  hasDown : Bool

/-- `[A-Za-z0-9]`. -/
def isAlnumByte (b : UInt8) : Bool :=
  isDigitByte b || (65 ≤ b && b ≤ 90) || (97 ≤ b && b ≤ 122)

/-- `[A-Za-z0-9][A-Za-z0-9_-]*`. -/
def isMigrationName : Bytes → Bool
  | [] => false
  | b :: bs => isAlnumByte b && bs.all fun c => isAlnumByte c || c = 95 || c = 45

/-- `ParseMigrationFilename`: the groups of `^(\d+)_([A-Za-z0-9][A-Za-z0-9_-]*)\.sql$`. -/
def parseMigrationFilename (base : Bytes) : Option (Bytes × Bytes) :=
  match base.dropWhile isDigitByte with
  | 95 :: rest =>
    let version := base.takeWhile isDigitByte
    let name := rest.take (rest.length - 4)
    if version ≠ [] ∧ rest.drop (rest.length - 4) = ascii ".sql" ∧ isMigrationName name = true then
      some (version, name)
    else none
  | _ => none

/-- The files and the skipped names among the entries, as the loop of `listMigrationFiles` collects
them; `none` if a down file cannot be examined. -/
def collect (down : Bytes → Bytes → Stat) : List DirEntry → Option (List MigrationFile × List Bytes)
  | [] => some ([], [])
  | e :: es =>
    let skip := (collect down es).map fun r => (r.1, e.name :: r.2)
    if e.isDir then collect down es
    else if e.name = ascii "atlas.sum" then collect down es
    else if (ascii ".down.sql").isSuffixOf e.name then skip
    else
      match parseMigrationFilename e.name with
      | none => if (ascii ".sql").isSuffixOf e.name then skip else collect down es
      | some (version, name) =>
        if down version name = .failed then none
        else
          (collect down es).map fun r =>
            (⟨version, name, decide (down version name = .present)⟩ :: r.1, r.2)

/-- The order of the files: by version, then by name. -/
def fileLE (a b : MigrationFile) : Prop :=
  rank a.version < rank b.version ∨ a.version = b.version ∧ rank a.name ≤ rank b.name

instance : DecidableRel fileLE := fun a b =>
  inferInstanceAs (Decidable (rank a.version < rank b.version ∨
    a.version = b.version ∧ rank a.name ≤ rank b.name))

/-- `listMigrationFiles`: the files in order and the skipped names; `none` stands for an error. -/
def listMigrationFiles (dir : Directory) : Option (List MigrationFile × List Bytes) :=
  match dir.listing with
  | .missing => some ([], [])
  | .failed => none
  | .entries es => (collect dir.down es).map fun r => (r.1.insertionSort fileLE, r.2)

/-! ## The next version -/

/-- A time in UTC, as its date and clock read. -/
structure Clock where
  year : ℤ
  month : ℕ
  day : ℕ
  hour : ℕ
  minute : ℕ
  second : ℕ

/-- `appendInt` of the package `time`. -/
def appendInt (n : ℤ) (width : ℕ) : Bytes := toBytes (signText n) ++ zeroPad width n.natAbs

/-- `t.Format("20060102150405")`. -/
def stamp (t : Clock) : Bytes :=
  appendInt t.year 4 ++ appendInt t.month 2 ++ appendInt t.day 2 ++ appendInt t.hour 2 ++
    appendInt t.minute 2 ++ appendInt t.second 2

/-- `fmt.Sprintf("%0*d", width, n)`: the sign counts for the width, and a width over a million is
refused. -/
def formatPadded (width : ℕ) (n : Int64) : Bytes :=
  if 1000000 < width then ascii "%!(BADWIDTH)" ++ formatInt n
  else
    toBytes (signText n.toInt) ++ zeroPad (width - (signText n.toInt).length) n.toInt.natAbs

/-- The greatest version of the files, empty if there are none. -/
def latestVersion (files : List MigrationFile) : Bytes :=
  files.foldl (fun latest f => if rank latest < rank f.version then f.version else latest) []

/-- `nextMigrationVersion`; `none` stands for an error. -/
def nextMigrationVersion (dir : Directory) (now : Clock) : Option Bytes :=
  (listMigrationFiles dir).bind fun r =>
    let latest := latestVersion r.1
    if rank latest < rank (stamp now) then some (stamp now)
    else (readInt latest).map fun n => formatPadded latest.length (n + 1)

/-! ## The versions of the files -/

/-- A version: digits, at least one. -/
def IsVersion (v : Bytes) : Prop := v ≠ [] ∧ Digits v

theorem isVersion_of_parse {base version name : Bytes}
    (h : parseMigrationFilename base = some (version, name)) : IsVersion version := by
  unfold parseMigrationFilename at h
  split at h
  · obtain ⟨hvalid, heq⟩ := Option.ite_none_right_eq_some.1 h
    cases heq
    exact ⟨hvalid.1, fun b hb => all_eq_true.1 all_takeWhile b hb⟩
  · cases h

variable {r : List MigrationFile × List Bytes} {files : List MigrationFile} {v : Bytes}

theorem isVersion_of_collect {down : Bytes → Bytes → Stat} {es : List DirEntry}
    (h : collect down es = some r) : ∀ f ∈ r.1, IsVersion f.version := by
  induction es generalizing r with
  | nil =>
    cases h
    exact fun f hf => by cases hf
  | cons e es ih =>
    -- An entry is left out, skipped, or a file whose version was matched.
    have hskip : (collect down es).map (fun r => (r.1, e.name :: r.2)) = some r →
        ∀ f ∈ r.1, IsVersion f.version := by
      intro h
      obtain ⟨r', hr', rfl⟩ := Option.map_eq_some_iff.1 h
      exact fun f hf => ih hr' f hf
    rw [collect] at h
    split at h
    · exact ih h
    split at h
    · exact ih h
    split at h
    · exact hskip h
    split at h
    · split at h
      · exact hskip h
      · exact ih h
    · rename_i hparse
      split_ifs at h
      obtain ⟨r', hr', rfl⟩ := Option.map_eq_some_iff.1 h
      exact forall_mem_cons.2 ⟨isVersion_of_parse hparse, ih hr'⟩

theorem isVersion_of_list {dir : Directory} (h : listMigrationFiles dir = some r) :
    ∀ f ∈ r.1, IsVersion f.version := by
  unfold listMigrationFiles at h
  split at h
  · cases h
    exact fun f hf => by cases hf
  · cases h
  · obtain ⟨r', hr', rfl⟩ := Option.map_eq_some_iff.1 h
    exact fun f hf => isVersion_of_collect hr' f ((mem_insertionSort fileLE).1 hf)

/-! ## The latest version -/

/-- The loop keeps the version it starts with or one of the files', and none of these is past it. -/
theorem foldl_latest (latest : Bytes) (files : List MigrationFile) :
    let last := files.foldl
      (fun latest f => if rank latest < rank f.version then f.version else latest) latest
    rank latest ≤ rank last ∧ (∀ f ∈ files, rank f.version ≤ rank last) ∧
      (last = latest ∨ ∃ f ∈ files, f.version = last) := by
  induction files generalizing latest with
  | nil => exact ⟨le_refl _, forall_mem_nil _, .inl rfl⟩
  | cons f files ih =>
    rw [foldl_cons]
    split
    · rename_i hlt
      obtain ⟨hlast, hrest, hmem⟩ := ih f.version
      refine ⟨hlt.le.trans hlast, forall_mem_cons.2 ⟨hlast, hrest⟩, .inr ?_⟩
      rcases hmem with heq | ⟨g, hg, heq⟩
      · exact ⟨f, mem_cons_self, heq.symm⟩
      · exact ⟨g, mem_cons_of_mem f hg, heq⟩
    · rename_i hle
      obtain ⟨hlast, hrest, hmem⟩ := ih latest
      refine ⟨hlast, forall_mem_cons.2 ⟨(not_lt.1 hle).trans hlast, hrest⟩, hmem.imp_right ?_⟩
      exact fun ⟨g, hg, heq⟩ => ⟨g, mem_cons_of_mem f hg, heq⟩

theorem rank_le_latestVersion {f : MigrationFile} (h : f ∈ files) :
    rank f.version ≤ rank (latestVersion files) :=
  (foldl_latest [] files).2.1 f h

theorem latestVersion_mem (h : latestVersion files ≠ []) :
    ∃ f ∈ files, f.version = latestVersion files :=
  (foldl_latest [] files).2.2.resolve_left h

/-! ## The number after a version -/

theorem stamp_ne_nil (t : Clock) : stamp t ≠ [] := by
  simp [stamp, appendInt, zeroPad_ne_nil]

/-- A version that can be followed: it is not the last number of its width or of 64 bits, and its
width is one that the format accepts. -/
def HasNext (v : Bytes) : Prop :=
  (∃ b ∈ v, b ≠ 57) ∧ numeral v ≠ 2 ^ 63 - 1 ∧ v.length ≤ 1000000

/-- Counting up within 64 bits writes the next number. -/
theorem formatPadded_succ {w m : ℕ} (hw : w ≤ 1000000) (hm : m + 1 < 2 ^ 63) :
    formatPadded w (Int64.ofInt m + 1) = zeroPad w (m + 1) := by
  have hsum : (Int64.ofInt m + 1).toInt = ((m + 1 : ℕ) : ℤ) := by
    rw [Int64.toInt_add, Int64.toInt_ofInt_of_le (by omega) (by omega)]
    change ((m : ℤ) + 1).bmod (2 ^ 64) = _
    exact Int.bmod_eq_of_le (by omega) (by omega)
  have hsign : signText ((m + 1 : ℕ) : ℤ) = [] := if_neg (by omega)
  rw [formatPadded, if_neg (not_lt.2 hw), hsum, hsign, Int.natAbs_natCast]
  rfl

/-- The next number has the width of the version and comes after it. -/
theorem rank_lt_formatPadded {n : Int64} (hv : IsVersion v) (hn : readInt v = some n)
    (hnext : HasNext v) : rank v < rank (formatPadded v.length (n + 1)) := by
  obtain ⟨hne, hdigits⟩ := hv
  obtain ⟨⟨b, hb, hb9⟩, hmax, hwidth⟩ := hnext
  rw [readInt_digits hdigits hne] at hn
  split_ifs at hn
  rename_i hfits
  cases hn
  have hfit : numeral v + 1 < 10 ^ v.length := by
    have hlt := numeral_lt hdigits
    have hnines := mt (numeral_add_one_eq_iff hdigits).1 fun h => hb9 (h b hb)
    omega
  have hlen : v.length = (zeroPad v.length (numeral v + 1)).length := by
    have := (length_natText_le_iff (length_pos_iff.2 hne).ne').2 hfit
    rw [length_zeroPad]
    omega
  rw [formatPadded_succ hwidth (by omega), rank_lt_rank_iff hdigits (digits_zeroPad _ _) hlen,
    numeral_zeroPad]
  exact Nat.lt_succ_self _

/-- A text that starts before every digit is before every version. -/
theorem not_rank_lt_of_head (hv : IsVersion v) {b : UInt8} (hb : b.toNat < 48) (s : Bytes) :
    ¬ rank v < rank (b :: s) := by
  obtain ⟨hne, hdigits⟩ := hv
  obtain ⟨d, v, rfl⟩ := exists_cons_of_ne_nil hne
  have hd := (isDigitByte_iff.1 (digits_cons.1 hdigits).1).1
  rw [rank, rank, map_cons, map_cons, cons_lt_cons_iff]
  omega

/-- The number after nines has one digit more, and a first digit that is less. -/
theorem not_rank_lt_of_nines (hne : v ≠ []) (hnines : ∀ b ∈ v, b = 57) (w : ℕ) :
    ¬ rank v < rank (zeroPad w (numeral v + 1)) := by
  have hdigits : Digits v := fun b hb => by rw [hnines b hb]; rfl
  rw [(numeral_add_one_eq_iff hdigits).2 hnines]
  have hlong : v.length < (natText (10 ^ v.length)).length :=
    not_le.1 (mt (length_natText_le_iff (length_pos_iff.2 hne).ne').1 (lt_irrefl _))
  have hpadded := digits_zeroPad w (10 ^ v.length)
  have hnumber := numeral_zeroPad w (10 ^ v.length)
  have hlen := length_zeroPad w (10 ^ v.length)
  obtain ⟨c, t, hc⟩ := exists_cons_of_ne_nil (zeroPad_ne_nil w (10 ^ v.length))
  rw [hc] at hpadded hnumber hlen ⊢
  obtain ⟨d, v, rfl⟩ := exists_cons_of_ne_nil hne
  have hchi := (isDigitByte_iff.1 (digits_cons.1 hpadded).1).2
  have hd : d.toNat = 57 := by rw [hnines d mem_cons_self]; rfl
  -- A first digit 9 would already give a greater number.
  have hcne : c.toNat ≠ 57 := by
    intro hc9
    rw [numeral_cons, hc9] at hnumber
    have hpow : 10 ^ (d :: v).length ≤ 10 ^ t.length :=
      Nat.pow_le_pow_right (by norm_num) (by simp only [length_cons] at hlen hlong ⊢; omega)
    have hpos : 0 < 10 ^ t.length := by positivity
    omega
  rw [rank, rank, map_cons, map_cons, cons_lt_cons_iff]
  omega

/-- Without a next number the text that is written does not come after the version. -/
theorem not_rank_lt_formatPadded {n : Int64} (hv : IsVersion v) (hn : readInt v = some n)
    (hnext : ¬ HasNext v) : ¬ rank v < rank (formatPadded v.length (n + 1)) := by
  by_cases hwidth : v.length ≤ 1000000
  · rw [readInt_digits hv.2 hv.1] at hn
    split_ifs at hn
    rename_i hfits
    cases hn
    by_cases hmax : numeral v = 2 ^ 63 - 1
    · -- The sum wraps around to the least integer.
      rw [formatPadded, if_neg (not_lt.2 hwidth), hmax]
      exact not_rank_lt_of_head hv (by decide) _
    · have hnines : ∀ b ∈ v, b = 57 := by
        by_contra hex
        push Not at hex
        exact hnext ⟨hex, hmax, hwidth⟩
      rw [formatPadded_succ hwidth (by omega)]
      exact not_rank_lt_of_nines hv.1 hnines _
  · rw [formatPadded, if_pos (not_le.1 hwidth)]
    exact not_rank_lt_of_head hv (by decide) _

/-! ## The new version sorts last -/

/-- The clock is not past the last version, whose number has to be counted up. -/
def CountsUp (files : List MigrationFile) (now : Clock) : Prop :=
  ¬ rank (latestVersion files) < rank (stamp now) ∧ readInt (latestVersion files) ≠ none

/-- **A new migration sorts last, unless the last version is counted up and has no next number**: the
version returned comes after every version of the directory exactly if, whenever the clock is not
past the last version and its number can be read, that version has a digit that is not nine, is not
the greatest integer of 64 bits and has at most a million digits. -/
theorem nextMigrationVersion_last_iff (dir : Directory) (now : Clock) :
    (∀ v, nextMigrationVersion dir now = some v → ∀ r, listMigrationFiles dir = some r →
      ∀ f ∈ r.1, rank f.version < rank v) ↔
    ∀ r, listMigrationFiles dir = some r → CountsUp r.1 now → HasNext (latestVersion r.1) := by
  cases hlist : listMigrationFiles dir with
  | none => simp
  | some r =>
    simp only [nextMigrationVersion, hlist, Option.bind_some, Option.some.injEq, forall_eq']
    set latest := latestVersion r.1 with hlatest
    -- The last version is one of the files, since an empty one is behind every clock.
    have hfile : ¬ rank latest < rank (stamp now) → ∃ f ∈ r.1, f.version = latest := by
      intro hbehind
      refine latestVersion_mem fun hnil => hbehind ?_
      obtain ⟨b, s, hs⟩ := exists_cons_of_ne_nil (stamp_ne_nil now)
      rw [hlatest, hnil, hs]
      exact nil_lt_cons _ _
    by_cases hbehind : rank latest < rank (stamp now)
    · simp only [CountsUp, ← hlatest, hbehind, not_true_eq_false, false_and, false_implies, iff_true,
        if_true, Option.some.injEq]
      rintro v rfl f hf
      exact lt_of_le_of_lt (rank_le_latestVersion hf) hbehind
    · obtain ⟨f, hf, hversion⟩ := hfile hbehind
      have hv : IsVersion latest := hversion ▸ isVersion_of_list hlist f hf
      cases hn : readInt latest with
      | none => simp [hbehind, CountsUp, ← hlatest, hn]
      | some n =>
        simp only [CountsUp, ← hlatest, hbehind, if_false, hn, Option.map_some, Option.some.injEq,
          forall_eq', not_false_eq_true, ne_eq, reduceCtorEq, and_self, true_implies]
        constructor
        · intro hlast
          by_contra hnext
          exact not_rank_lt_formatPadded hv hn hnext (hversion ▸ hlast f hf)
        · intro hnext g hg
          exact lt_of_le_of_lt (rank_le_latestVersion hg) (rank_lt_formatPadded hv hn hnext)

/-- A directory with the one migration `9_init.sql`. -/
def nineDirectory : Directory := ⟨.entries [⟨ascii "9_init.sql", false⟩], fun _ _ => .absent⟩

/-- **The version after `9` is `10`, which sorts before it.** -/
theorem nextMigrationVersion_before_nine :
    nextMigrationVersion nineDirectory ⟨2026, 11, 16, 12, 0, 0⟩ = some (ascii "10") ∧
      (listMigrationFiles nineDirectory).map (fun r => r.1.map (·.version)) = some [ascii "9"] ∧
      ¬ rank (ascii "9") < rank (ascii "10") := by
  decide +kernel

end Gombit.Migrations
