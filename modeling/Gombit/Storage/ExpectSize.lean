import Gombit.Foundations.Errors
import Gombit.Foundations.Readers
import Mathlib.Data.List.TakeWhile

/-!
# Reading exactly a declared size

`ExpectSize` (`storage/stream.go`) limits a source to the declared number of bytes and looks one byte
further: a source that ends early or goes on is refused.

* `verdict`: how reading a script ends, from the script and the size alone.
* `readsTo_of_verdict`, `verdict_of_readsTo`: reading ends that way whatever buffers the caller
  brings, and delivers the bytes of the script up to the size.
* `verdict_eof_iff`, `verdict_mismatch_iff`: the scripts that end as they should, and those of
  another size.
* `expectSize_enforces`: the contract, for sources whose errors are not `ErrSizeMismatch` themselves.
-/

namespace Gombit.Storage.ExpectSize

open List

/-! ## The reader -/

/-- The errors the code compares with or returns, and all others. -/
inductive Sentinel
  | eof
  | sizeMismatch
  | invalidOptions
  | noProgress
  | other (text : String)
  deriving DecidableEq

abbrev Err := GoError Sentinel

/-- `io.EOF`. -/
def eof : Err := .sentinel .eof

/-- `io.ErrNoProgress`. -/
def noProgress : Err := .sentinel .noProgress

def negativeSize (size : ℤ) : Err :=
  .wrapped ("storage: invalid options: negative size " ++ toString size) (.sentinel .invalidOptions)

/-- The source ended after `n` bytes. -/
def endsEarly (n size : ℤ) : Err :=
  .wrapped ("storage: object length differs from its declared size: " ++ toString n ++
    " bytes, declared " ++ toString size) (.sentinel .sizeMismatch)

/-- The source has a byte past the declared size. -/
def moreThan (size : ℤ) : Err :=
  .wrapped ("storage: object length differs from its declared size: more than " ++ toString size ++
    " bytes") (.sentinel .sizeMismatch)

/-- `errors.Is(err, io.EOF)`. -/
def isEOF (err : Option Err) : Bool := err.any (·.is .eof)

variable {σ : Type}

/-- `exactReader`. -/
structure Exact (σ : Type) where
  r : σ
  left : ℤ
  size : ℤ
  done : Option Err := none

/-- `exactReader.probe`, with the tries that are left. -/
def probe (r : Reader σ Err) (size : ℤ) : ℕ → σ → Option (Err × σ)
  | 0, s => some (noProgress, s)
  | tries + 1, s =>
    match r 1 s with
    | none => none
    | some (c, s') =>
      if c.bytes ≠ [] then some (moreThan size, s')
      else if isEOF c.err then some (eof, s')
      else match c.err with
        | some e => some (e, s')
        | none => probe r size tries s'

/-- The end of `exactReader.Read`: `size` bytes have been read, `bytes` of them now. -/
def lookFurther (r : Reader σ Err) (e : Exact σ) (bytes : List UInt8) :
    Option (Chunk Err × Exact σ) :=
  (probe r e.size 100 e.r).map fun x => (⟨bytes, some x.1⟩, { e with r := x.2, done := some x.1 })

/-- What `exactReader.Read` makes of a read of its source. -/
def afterRead (r : Reader σ Err) (e : Exact σ) (c : Chunk Err) (s : σ) :
    Option (Chunk Err × Exact σ) :=
  let left := e.left - c.bytes.length
  if 0 < left ∧ isEOF c.err then
    let err := endsEarly (e.size - left) e.size
    some (⟨c.bytes, some err⟩, { e with r := s, left, done := some err })
  else if 0 < left ∨ (c.err ≠ none ∧ ¬ isEOF c.err) then some (c, { e with r := s, left })
  else if isEOF c.err then some (⟨c.bytes, some eof⟩, { e with r := s, left, done := some eof })
  else lookFurther r { e with r := s, left } c.bytes

/-- `exactReader.Read`. -/
def read (r : Reader σ Err) : Reader (Exact σ) Err := fun len e =>
  match e.done with
  | some err => some (⟨[], some err⟩, e)
  | none =>
    if e.size < 0 then
      some (⟨[], some (negativeSize e.size)⟩, { e with done := some (negativeSize e.size) })
    else if 0 < e.left then
      (r (min len e.left.toNat) e.r).bind fun x => afterRead r e x.1 x.2
    else lookFurther r e []

/-- `ExpectSize`. -/
def expectSize (r : σ) (size : ℤ) : Exact σ := { r, left := size, size }

/-! ## How a script ends -/

/-- How the look past the size ends, with the tries that are left. -/
def probeVerdict (size : ℕ) : ℕ → List (Chunk Err) → Option Err
  | 0, _ => some noProgress
  | _ + 1, [] => none
  | tries + 1, c :: script =>
    if c.bytes ≠ [] then some (moreThan size)
    else if isEOF c.err then some eof
    else match c.err with
      | some e => some e
      | none => probeVerdict size tries script

/-- How reading a script ends when `left` of the `size` bytes are still to come. -/
def verdict (size : ℕ) : ℕ → List (Chunk Err) → Option Err
  | 0, script => probeVerdict size 100 script
  | _ + 1, [] => none
  | left + 1, c :: script =>
    if left + 1 < c.bytes.length then some (moreThan size)
    else match c.err with
      | none => verdict size (left + 1 - c.bytes.length) script
      | some e =>
        if e.is .eof then
          if left + 1 = c.bytes.length then some eof
          else some (endsEarly (size - (left + 1 - c.bytes.length : ℕ)) size)
        else some e

theorem probe_offers (size tries : ℕ) (script : List (Chunk Err)) :
    (probe offers size tries script).map Prod.fst = probeVerdict size tries script := by
  induction tries generalizing script with
  | zero => rfl
  | succ tries ih =>
    cases script with
    | nil => rfl
    | cons c script =>
      rw [probe, offers, probeVerdict]
      by_cases hlen : c.bytes.length ≤ 1
      · simp only [hlen, if_true]
        split
        · rfl
        · split
          · rfl
          · split
            · rfl
            · exact ih script
      · have hne : c.bytes ≠ [] := by
          rintro h
          simp [h] at hlen
        have htake : c.bytes.take 1 ≠ [] := by simpa using hne
        simp only [hlen, if_false, if_pos hne, if_pos htake]
        rfl

variable {left : ℕ} {e : Err} {c : Chunk Err}

section Reading

variable {size : ℕ} {sizes : ℕ → ℕ}

/-- The state of the reader of a script, `left` bytes before the size. -/
def reading (size left : ℕ) (script : List (Chunk Err)) : Exact (List (Chunk Err)) :=
  { r := script, left, size }

/-- What a look past the size returns. -/
theorem lookFurther_cases (size : ℕ) (script : List (Chunk Err)) (bytes : List UInt8) :
    (lookFurther offers (reading size 0 script) bytes = none ∧
      probeVerdict size 100 script = none) ∨
    ∃ e rest, lookFurther offers (reading size 0 script) bytes =
        some (⟨bytes, some e⟩, { reading size 0 rest with done := some e }) ∧
      probeVerdict size 100 script = some e := by
  have hprobe := probe_offers size 100 script
  cases hrun : probe offers size 100 script with
  | none =>
    rw [hrun] at hprobe
    exact Or.inl ⟨by simp [lookFurther, reading, hrun], hprobe.symm⟩
  | some x =>
    obtain ⟨e, rest⟩ := x
    rw [hrun] at hprobe
    exact Or.inr ⟨e, rest, by simp [lookFurther, reading, hrun], hprobe.symm⟩

/-- A reading ended by this read: with the verdict's error, which is kept for later reads unless it
is one of the source's own. -/
def Ended (size left : ℕ) (script : List (Chunk Err)) (x : Option (Chunk Err × Exact (List (Chunk Err)))) :
    Prop :=
  ∃ bytes e st, x = some (⟨bytes, some e⟩, st) ∧ verdict size left script = some e ∧
    bytes = (content script).take left ∧
    (st.done = some e ∨ e.is .eof = false ∧ ∃ c ∈ script, c.err = some e)

/-- A reading that goes on after this read, towards the same verdict. -/
def GoesOn (size left : ℕ) (script : List (Chunk Err))
    (x : Option (Chunk Err × Exact (List (Chunk Err)))) : Prop :=
  ∃ bytes left' script', x = some (⟨bytes, none⟩, reading size left' script') ∧
    verdict size left script = verdict size left' script' ∧
    (content script).take left = bytes ++ (content script').take left' ∧
    scriptWeight script' < scriptWeight script ∧
    ∀ e, (∃ c ∈ script', c.err = some e) → ∃ c ∈ script, c.err = some e

theorem read_reading (len left : ℕ) (script : List (Chunk Err)) :
    read offers len (reading size (left + 1) script) =
      (offers (min len (left + 1)) script).bind fun x =>
        afterRead offers (reading size (left + 1) script) x.1 x.2 := by
  have hsize : ¬ (size : ℤ) < 0 := by omega
  have hleft : (0 : ℤ) < (left + 1 : ℕ) := by omega
  simp only [read, reading, hsize, hleft, if_true, if_false, Int.toNat_natCast]

variable {bytes : List UInt8} {script : List (Chunk Err)}

/-- A part of the bytes that are missing, without an error. -/
theorem afterRead_more (h : bytes.length < left) (size : ℕ) (script rest : List (Chunk Err)) :
    afterRead offers (reading size left script) ⟨bytes, none⟩ rest =
      some (⟨bytes, none⟩, reading size (left - bytes.length) rest) := by
  have hleft : (left : ℤ) - bytes.length = (left - bytes.length : ℕ) := by omega
  have hpos : 0 < left - bytes.length := by omega
  simp [afterRead, reading, isEOF, hleft, hpos]

/-- The last of the bytes, without an error. -/
theorem afterRead_last {rest : List (Chunk Err)} (h : bytes.length = left) :
    afterRead offers (reading size left script) ⟨bytes, none⟩ rest =
      lookFurther offers (reading size 0 rest) bytes := by
  simp [afterRead, reading, isEOF, h]

/-- The end of the source. -/
theorem afterRead_eof (h : bytes.length ≤ left) (he : e.is .eof = true) (size : ℕ)
    (script rest : List (Chunk Err)) :
    ∃ err st, afterRead offers (reading size left script) ⟨bytes, some e⟩ rest =
        some (⟨bytes, some err⟩, st) ∧ st.done = some err ∧
      err = if left = bytes.length then eof
        else endsEarly (size - (left - bytes.length : ℕ)) size := by
  have hleft : (left : ℤ) - bytes.length = (left - bytes.length : ℕ) := by omega
  by_cases heq : left = bytes.length
  · exact ⟨eof, _, by simp [afterRead, reading, isEOF, he, heq]; rfl, rfl, (if_pos heq).symm⟩
  · have hpos : 0 < left - bytes.length := by omega
    exact ⟨_, _, by simp [afterRead, reading, isEOF, he, hleft, hpos]; rfl, rfl, (if_neg heq).symm⟩

/-- Another error of the source. -/
theorem afterRead_error (he : e.is .eof = false) (size left : ℕ) (bytes : List UInt8)
    (script rest : List (Chunk Err)) :
    ∃ st, afterRead offers (reading size left script) ⟨bytes, some e⟩ rest =
      some (⟨bytes, some e⟩, st) :=
  ⟨_, by simp [afterRead, isEOF, he]; rfl⟩

theorem verdict_cons (size : ℕ) (h : c.bytes.length ≤ left + 1) (script : List (Chunk Err)) :
    (c.err = none → verdict size (left + 1) (c :: script) =
      verdict size (left + 1 - c.bytes.length) script) ∧
    (∀ e, c.err = some e → e.is .eof = true → verdict size (left + 1) (c :: script) =
      some (if left + 1 = c.bytes.length then eof
        else endsEarly (size - (left + 1 - c.bytes.length : ℕ)) size)) ∧
    (∀ e, c.err = some e → e.is .eof = false → verdict size (left + 1) (c :: script) = some e) := by
  rw [verdict, if_neg (not_lt.2 h)]
  refine ⟨fun he => by rw [he], fun e he heof => ?_, fun e he heof => ?_⟩
  · rw [he]
    simp only [heof, if_true]
    split <;> rfl
  · rw [he]
    simp [heof]

/-- A read that takes a whole offer. -/
theorem read_whole {len : ℕ} (hfits : c.bytes.length ≤ min len (left + 1)) :
    (read offers len (reading size (left + 1) (c :: script)) = none ∧
      verdict size (left + 1) (c :: script) = none) ∨
    Ended size (left + 1) (c :: script) (read offers len (reading size (left + 1) (c :: script))) ∨
    GoesOn size (left + 1) (c :: script) (read offers len (reading size (left + 1) (c :: script))) := by
  obtain ⟨bytes, err⟩ := c
  have hle : bytes.length ≤ left + 1 := hfits.trans (min_le_right _ _)
  have hoffer : offers (min len (left + 1)) (⟨bytes, err⟩ :: script) = some (⟨bytes, err⟩, script) :=
    if_pos hfits
  obtain ⟨hnone, heof, herror⟩ := verdict_cons size (c := ⟨bytes, err⟩) hle script
  have htake : bytes.take (left + 1) = bytes := take_of_length_le hle
  rw [read_reading, hoffer, Option.bind_some]
  cases err with
  | none =>
    have hcontent : (content (⟨bytes, none⟩ :: script)).take (left + 1) =
        bytes ++ (content script).take (left + 1 - bytes.length) := by
      simp [content, take_append, htake]
    rcases hle.lt_or_eq with hlt | heq
    · refine Or.inr (Or.inr ⟨bytes, _, script, afterRead_more hlt _ _ _, hnone rfl, hcontent, ?_, ?_⟩)
      · simp only [scriptWeight]
        omega
      · rintro e ⟨c, hc, he⟩
        exact ⟨c, mem_cons_of_mem _ hc, he⟩
    · have hzero : left + 1 - bytes.length = 0 := by omega
      have hverdict := hnone rfl
      dsimp only at hverdict
      rw [hzero] at hverdict hcontent
      rw [verdict] at hverdict
      rw [afterRead_last heq]
      rcases lookFurther_cases size script bytes with ⟨hrun, hp⟩ | ⟨e, rest, hrun, hp⟩
      · exact Or.inl ⟨hrun, hverdict.trans hp⟩
      · refine Or.inr (Or.inl ⟨bytes, e, _, hrun, hverdict.trans hp, ?_, Or.inl rfl⟩)
        simpa using hcontent.symm
  | some e =>
    have hcontent : bytes = (content (⟨bytes, some e⟩ :: script)).take (left + 1) := by
      simp [content, htake]
    refine Or.inr (Or.inl ?_)
    by_cases he : e.is .eof = true
    · obtain ⟨err, st, hrun, hdone, herr⟩ :=
        afterRead_eof hle he size (⟨bytes, some e⟩ :: script) script
      exact ⟨bytes, err, st, hrun, herr ▸ heof e rfl he, hcontent, Or.inl hdone⟩
    · rw [Bool.not_eq_true] at he
      obtain ⟨st, hrun⟩ :=
        afterRead_error he size (left + 1) bytes (⟨bytes, some e⟩ :: script) script
      exact ⟨bytes, e, st, hrun, herror e rfl he, hcontent, Or.inr ⟨he, _, mem_cons_self, rfl⟩⟩

/-- A read that takes a part of an offer. -/
theorem read_part {len : ℕ} (hlen : 0 < len) (hmore : min len (left + 1) < c.bytes.length) :
    Ended size (left + 1) (c :: script) (read offers len (reading size (left + 1) (c :: script))) ∨
    GoesOn size (left + 1) (c :: script) (read offers len (reading size (left + 1) (c :: script))) := by
  obtain ⟨bytes, err⟩ := c
  dsimp only at hmore
  set m := min len (left + 1) with hm
  have htake : (bytes.take m).length = m := length_take_of_le hmore.le
  have hoffer : offers m (⟨bytes, err⟩ :: script) =
      some (⟨bytes.take m, none⟩, ⟨bytes.drop m, err⟩ :: script) :=
    if_neg (not_le.2 hmore)
  rw [read_reading, ← hm, hoffer, Option.bind_some]
  have hcontent : (content (⟨bytes, err⟩ :: script)).take (left + 1) = bytes.take m ++
      (content (⟨bytes.drop m, err⟩ :: script)).take (left + 1 - m) := by
    have hbytes : content (⟨bytes, err⟩ :: script) =
        bytes.take m ++ content (⟨bytes.drop m, err⟩ :: script) := by
      simp [content, ← append_assoc]
    rw [hbytes, take_append, htake, take_of_length_le (by omega)]
  rcases Nat.lt_or_ge m (left + 1) with hlt | hge
  · have hrun := afterRead_more (htake.trans_lt hlt) size (⟨bytes, err⟩ :: script)
      (⟨bytes.drop m, err⟩ :: script)
    rw [htake] at hrun
    refine Or.inr ⟨bytes.take m, left + 1 - m, _, hrun, ?_, hcontent, ?_, ?_⟩
    · -- the same comparisons, `m` bytes later
      obtain ⟨left', hleft'⟩ : ∃ left', left + 1 - m = left' + 1 := ⟨left - m, by omega⟩
      have h₁ : left' + 1 < bytes.length - m ↔ left + 1 < bytes.length := by omega
      have h₂ : left' + 1 - (bytes.length - m) = left + 1 - bytes.length := by omega
      have h₃ : left' + 1 = bytes.length - m ↔ left + 1 = bytes.length := by omega
      rw [hleft']
      simp only [verdict, length_drop, h₁, h₂, h₃]
    · simp only [scriptWeight, length_drop]
      omega
    · rintro e ⟨c, hc, he⟩
      rcases mem_cons.1 hc with rfl | hc
      · exact ⟨_, mem_cons_self, he⟩
      · exact ⟨c, mem_cons_of_mem _ hc, he⟩
  · have heq : m = left + 1 := le_antisymm (min_le_right _ _) hge
    have hdrop : bytes.drop m ≠ [] := by
      rw [← length_pos_iff, length_drop]
      omega
    have hprobe : probeVerdict size 100 (⟨bytes.drop m, err⟩ :: script) = some (moreThan size) :=
      if_pos hdrop
    have hzero : left + 1 - m = 0 := by omega
    rw [hzero] at hcontent
    rw [afterRead_last (htake.trans heq)]
    rcases lookFurther_cases size (⟨bytes.drop m, err⟩ :: script) (bytes.take m) with
      ⟨-, hp⟩ | ⟨e, rest, hrun, hp⟩
    · rw [hprobe] at hp
      cases hp
    · refine Or.inl ⟨_, e, _, hrun, ?_, ?_, Or.inl rfl⟩
      · rw [verdict, if_pos (by dsimp only; omega), ← hprobe, hp]
      · simpa using hcontent.symm

/-- **What one read does**: it does not return, as the script ends here; or it ends the reading; or
the reading goes on. -/
theorem read_cases (size : ℕ) {len : ℕ} (hlen : 0 < len) (left : ℕ) (script : List (Chunk Err)) :
    (read offers len (reading size left script) = none ∧ verdict size left script = none) ∨
    Ended size left script (read offers len (reading size left script)) ∨
    GoesOn size left script (read offers len (reading size left script)) := by
  cases left with
  | zero =>
    have hread : read offers len (reading size 0 script) = lookFurther offers (reading size 0 script) [] := by
      have hsize : ¬ (size : ℤ) < 0 := by omega
      simp [read, reading, hsize]
    rw [hread]
    rcases lookFurther_cases size script [] with ⟨hrun, hp⟩ | ⟨e, rest, hrun, hp⟩
    · exact Or.inl ⟨hrun, by rw [verdict, hp]⟩
    · exact Or.inr (Or.inl ⟨[], e, _, hrun, by rw [verdict, hp], by simp, Or.inl rfl⟩)
  | succ left =>
    cases script with
    | nil => exact Or.inl ⟨by rw [read_reading]; rfl, rfl⟩
    | cons c script =>
      rcases Nat.lt_or_ge (min len (left + 1)) c.bytes.length with hmore | hfits
      · exact Or.inr (read_part hlen hmore)
      · exact read_whole hfits

/-- **Reading ends as the verdict says**, whatever the buffers, and delivers the bytes up to the
size; the error is kept for later reads, unless it is one of the source's own. -/
theorem readsTo_of_verdict (hpos : ∀ k, 0 < sizes k) (k : ℕ)
    (h : verdict size left script = some e) :
    ∃ st, ReadsTo (read offers) sizes k (reading size left script) ((content script).take left) e st ∧
      (st.done = some e ∨ e.is .eof = false ∧ ∃ c ∈ script, c.err = some e) := by
  generalize hw : scriptWeight script = w
  induction w using Nat.strongRecOn generalizing left script k with
  | ind w ih =>
    rcases read_cases size (hpos k) left script with
      ⟨-, hnone⟩ | ⟨bytes, e', st, hread, hv, hbytes, hdone⟩ |
        ⟨bytes, left', script', hread, hv, hbytes, hweight, herrs⟩
    · rw [hnone] at h
      cases h
    · obtain rfl : e' = e := Option.some.inj (hv.symm.trans h)
      subst hbytes
      exact ⟨st, ReadsTo.last hread, hdone⟩
    · obtain ⟨st, htail, hdone⟩ := ih _ (hw ▸ hweight) (k + 1) (hv ▸ h) rfl
      rw [hbytes]
      exact ⟨st, ReadsTo.more hread htail, hdone.imp_right fun ⟨he, hc⟩ => ⟨he, herrs e hc⟩⟩

/-- Reading does not end otherwise. -/
theorem verdict_of_readsTo (hpos : ∀ k, 0 < sizes k) {k : ℕ} {st : Exact (List (Chunk Err))}
    (h : ReadsTo (read offers) sizes k (reading size left script) bytes e st) :
    verdict size left script = some e := by
  generalize hs : reading size left script = s at h
  induction h generalizing left script with
  | @last k s s' bytes e hread =>
    subst hs
    rcases read_cases size (hpos k) left script with
      ⟨hnone, -⟩ | ⟨_, e', st, hrun, hv, -⟩ | ⟨_, left', script', hrun, -⟩
    · rw [hnone] at hread
      cases hread
    · rw [hrun] at hread
      cases hread
      exact hv
    · rw [hrun] at hread
      cases hread
  | @more k s s' s'' bytes rest e hread htail ih =>
    subst hs
    rcases read_cases size (hpos k) left script with
      ⟨hnone, -⟩ | ⟨_, e', st, hrun, -⟩ | ⟨_, left', script', hrun, hv, -⟩
    · rw [hnone] at hread
      cases hread
    · rw [hrun] at hread
      cases hread
    · rw [hrun] at hread
      cases hread
      exact hv.trans (ih rfl)

end Reading

/-! ## What the verdict says about the source -/

/-- The reads at the end that brought nothing. -/
def emptyReads (cs : List (Chunk Err)) : ℕ := (cs.reverse.takeWhile (·.bytes.isEmpty)).length

/-- After reads without an error comes one that stands to them as `P` says. -/
def Comes (script : List (Chunk Err)) (P : List (Chunk Err) → Chunk Err → Prop) : Prop :=
  ∃ pre last rest, script = pre ++ last :: rest ∧ (∀ c ∈ pre, c.err = none) ∧ P pre last

/-- After the reads `pre`, the read `last` brings EOF and completes `size` bytes, with fewer than 100
empty reads after them. -/
def Completes (size : ℕ) (pre : List (Chunk Err)) (last : Chunk Err) : Prop :=
  isEOF last.err = true ∧ (delivered pre).length + last.bytes.length = size ∧
    (last.bytes = [] → emptyReads pre < 100)

/-- After the reads `pre`, the read `last` brings EOF before `size` bytes, or a byte past them within
100 reads. -/
def Differs (size : ℕ) (pre : List (Chunk Err)) (last : Chunk Err) : Prop :=
  isEOF last.err = true ∧ (delivered pre).length + last.bytes.length < size ∨
    (delivered pre).length ≤ size ∧ size < (delivered pre).length + last.bytes.length ∧
      ((delivered pre).length = size → emptyReads pre < 100)

/-- The source delivers exactly `size` bytes and then EOF, with no other error, and with fewer than
100 empty reads in between. -/
def EndsExactly (script : List (Chunk Err)) (size : ℕ) : Prop := Comes script (Completes size)

/-- With no other error first, the source ends with EOF before `size` bytes, or delivers a byte past
them within 100 reads. -/
def Mismatches (script : List (Chunk Err)) (size : ℕ) : Prop := Comes script (Differs size)

variable {P : List (Chunk Err) → Chunk Err → Prop}

theorem not_comes_nil : ¬ Comes [] P := by
  rintro ⟨pre, last, rest, h, -⟩
  simp at h

theorem comes_cons {script : List (Chunk Err)} :
    Comes (c :: script) P ↔ P [] c ∨ c.err = none ∧ Comes script fun pre last => P (c :: pre) last := by
  constructor
  · rintro ⟨pre, last, rest, h, herr, hP⟩
    cases pre with
    | nil =>
      cases h
      exact Or.inl hP
    | cons d pre =>
      cases h
      exact Or.inr ⟨herr c mem_cons_self, pre, last, rest, rfl,
        fun e he => herr e (mem_cons_of_mem c he), hP⟩
  · rintro (hP | ⟨hc, pre, last, rest, rfl, herr, hP⟩)
    · exact ⟨[], c, script, rfl, by simp, hP⟩
    · refine ⟨c :: pre, last, rest, rfl, ?_, hP⟩
      intro d hd
      rcases mem_cons.1 hd with rfl | hd
      · exact hc
      · exact herr d hd

theorem comes_congr {script : List (Chunk Err)} {Q : List (Chunk Err) → Chunk Err → Prop}
    (h : ∀ pre last, P pre last ↔ Q pre last) : Comes script P ↔ Comes script Q := by
  simp only [Comes, h]

variable {cs : List (Chunk Err)}

theorem delivered_eq_nil_iff : delivered cs = [] ↔ ∀ c ∈ cs, c.bytes = [] := flatMap_eq_nil_iff

theorem takeWhile_empty_iff :
    cs.reverse.takeWhile (·.bytes.isEmpty) = cs.reverse ↔ delivered cs = [] := by
  rw [takeWhile_eq_self_iff, delivered_eq_nil_iff]
  simp

theorem emptyReads_of_nil (h : delivered cs = []) : emptyReads cs = cs.length := by
  rw [emptyReads, takeWhile_empty_iff.2 h, length_reverse]

/-- A read at the front that brought bytes, or after which bytes came, does not count. -/
theorem emptyReads_cons (h : c.bytes ≠ [] ∨ delivered cs ≠ []) :
    emptyReads (c :: cs) = emptyReads cs := by
  rw [emptyReads, emptyReads, reverse_cons, takeWhile_append]
  split
  · rename_i hall
    have hnil : delivered cs = [] :=
      takeWhile_empty_iff.1 ((List.takeWhile_prefix _).eq_of_length hall)
    have hc : c.bytes ≠ [] := h.resolve_right (not_not.2 hnil)
    rw [takeWhile_cons_of_neg (by simpa using hc), append_nil, hall]
  · rfl

theorem emptyReads_cons_of_pos (h : 0 < c.bytes.length + (delivered cs).length) :
    emptyReads (c :: cs) = emptyReads cs := by
  refine emptyReads_cons ?_
  rcases Nat.eq_zero_or_pos c.bytes.length with hzero | hpos
  · exact Or.inr (length_pos_iff.1 (by omega))
  · exact Or.inl (length_pos_iff.1 hpos)

variable {pre : List (Chunk Err)}

theorem completes_cons {last : Chunk Err} (hle : c.bytes.length ≤ left + 1) :
    Completes (left + 1) (c :: pre) last ↔ Completes (left + 1 - c.bytes.length) pre last := by
  refine and_congr_right fun _ => ?_
  rw [delivered_cons, length_append]
  constructor
  · rintro ⟨hlen, hgap⟩
    refine ⟨by omega, fun hlast => ?_⟩
    have hgap' := hgap hlast
    rw [hlast, length_nil] at hlen
    rwa [emptyReads_cons_of_pos (by omega)] at hgap'
  · rintro ⟨hlen, hgap⟩
    refine ⟨by omega, fun hlast => ?_⟩
    rw [hlast, length_nil] at hlen
    rw [emptyReads_cons_of_pos (by omega)]
    exact hgap hlast

theorem differs_cons {last : Chunk Err} (hle : c.bytes.length ≤ left + 1) :
    Differs (left + 1) (c :: pre) last ↔ Differs (left + 1 - c.bytes.length) pre last := by
  have hgap : (c.bytes.length + (delivered pre).length = left + 1 → emptyReads (c :: pre) < 100) ↔
      ((delivered pre).length = left + 1 - c.bytes.length → emptyReads pre < 100) := by
    constructor
    · intro h hlen
      have h' := h (by omega)
      rwa [emptyReads_cons_of_pos (by omega)] at h'
    · intro h hlen
      rw [emptyReads_cons_of_pos (by omega)]
      exact h (by omega)
  rw [Differs, Differs, delivered_cons, length_append, hgap]
  refine or_congr (and_congr_right fun _ => ?_) (and_congr ?_ (and_congr_left fun _ => ?_)) <;> omega

section Verdict

variable {size : ℕ} {script : List (Chunk Err)} {tries : ℕ}

/-- **A property of how the look past the size ends.** It is decided by the first offer that is not
empty, found after fewer empty ones than tries. -/
theorem probeVerdict_iff {R : Option Err → Prop} {Q : Chunk Err → Prop} (hnil : ¬ R none)
    (hno : ¬ R (some noProgress)) (hone : ∀ c ∈ script, R (probeVerdict size 1 [c]) ↔ Q c) :
    R (probeVerdict size tries script) ↔ Comes script fun pre last =>
      delivered pre = [] ∧ Q last ∧ pre.length < tries := by
  induction tries generalizing script with
  | zero =>
    refine iff_of_false hno ?_
    rintro ⟨pre, last, rest, -, -, -, -, h⟩
    exact Nat.not_lt_zero _ h
  | succ tries ih =>
    cases script with
    | nil => exact iff_of_false hnil not_comes_nil
    | cons c script =>
      obtain ⟨hc, hscript⟩ := forall_mem_cons.1 hone
      rw [comes_cons]
      by_cases hempty : c.bytes = [] ∧ c.err = none
      · have hnot : ¬ Q c := fun hQ => hno (by simpa [probeVerdict, isEOF, hempty] using hc.2 hQ)
        have hgo : probeVerdict size (tries + 1) (c :: script) = probeVerdict size tries script := by
          simp [probeVerdict, isEOF, hempty]
        rw [hgo, ih hscript, or_iff_right fun h => hnot h.2.1, and_iff_right hempty.2]
        exact comes_congr fun pre last => by simp [hempty.1]
      · have hstop : probeVerdict size (tries + 1) (c :: script) = probeVerdict size 1 [c] := by
          rw [probeVerdict, probeVerdict]
          cases herr : c.err <;> simp_all [isEOF]
        rw [hstop, hc, or_iff_left]
        · simp
        · rintro ⟨herr, pre, last, rest, -, -, hpre, -⟩
          rw [delivered_cons, append_eq_nil_iff] at hpre
          exact hempty ⟨hpre.1, herr⟩

theorem moreThan_ne_eof : moreThan size ≠ eof := by
  unfold moreThan eof
  exact fun h => by cases h

theorem ne_eof (he : ¬ e.is .eof = true) : e ≠ eof := by
  rintro rfl
  exact he rfl

/-- The look past the size finds the end of the source. -/
theorem probeVerdict_eof_iff :
    probeVerdict size tries script = some eof ↔ Comes script fun pre last => delivered pre = [] ∧
      (isEOF last.err = true ∧ last.bytes = []) ∧ pre.length < tries := by
  refine probeVerdict_iff (R := (· = some eof)) (by simp) (by decide) fun c _ => ?_
  by_cases hc : c.bytes = []
  · cases herr : c.err with
    | none => simp [probeVerdict, hc, herr, isEOF, noProgress, eof]
    | some e =>
      by_cases he : e.is .eof = true
      · simp [probeVerdict, hc, herr, isEOF, he]
      · simp [probeVerdict, hc, herr, isEOF, he, ne_eof he]
  · simp [probeVerdict, hc, moreThan_ne_eof]

/-- No error of the source is `ErrSizeMismatch` itself. -/
def Plain (script : List (Chunk Err)) : Prop :=
  ∀ c ∈ script, ∀ e, c.err = some e → e.is .sizeMismatch = false

/-- `errors.Is(err, ErrSizeMismatch)`. -/
def isMismatch (err : Option Err) : Bool := err.any (·.is .sizeMismatch)

theorem Plain.tail (h : Plain (c :: script)) :
    Plain script := fun d hd => h d (mem_cons_of_mem c hd)

/-- The look past the size finds a byte. -/
theorem probeVerdict_mismatch_iff (hplain : Plain script) :
    isMismatch (probeVerdict size tries script) = true ↔ Comes script fun pre last =>
      delivered pre = [] ∧ last.bytes ≠ [] ∧ pre.length < tries := by
  refine probeVerdict_iff (R := (isMismatch · = true)) (by decide) (by decide) fun c hmem => ?_
  by_cases hc : c.bytes = []
  · cases herr : c.err with
    | none => simp [probeVerdict, hc, herr, isEOF, isMismatch, noProgress]
    | some e =>
      have he' := hplain c hmem e herr
      by_cases he : e.is .eof = true
      · simp [probeVerdict, hc, herr, isEOF, he, isMismatch, eof]
      · simp [probeVerdict, hc, herr, isEOF, he, isMismatch, he']
  · simp [probeVerdict, hc, isMismatch, moreThan]

/-- **The scripts that end as they should.** -/
theorem verdict_eof_iff : verdict size left script = some eof ↔ EndsExactly script left := by
  induction script generalizing left with
  | nil =>
    refine iff_of_false ?_ not_comes_nil
    cases left <;> simp [verdict, probeVerdict]
  | cons c script ih =>
    cases left with
    | zero =>
      rw [verdict, probeVerdict_eof_iff, EndsExactly]
      refine comes_congr fun pre last => ?_
      rw [Completes, Nat.add_eq_zero_iff, length_eq_zero_iff, length_eq_zero_iff]
      constructor
      · rintro ⟨hnil, ⟨heof, hlast⟩, hlen⟩
        exact ⟨heof, ⟨hnil, hlast⟩, fun _ => by rwa [emptyReads_of_nil hnil]⟩
      · rintro ⟨heof, ⟨hnil, hlast⟩, hlen⟩
        exact ⟨hnil, ⟨heof, hlast⟩, by simpa [emptyReads_of_nil hnil] using hlen hlast⟩
    | succ left =>
      rw [EndsExactly, comes_cons]
      rcases Nat.lt_or_ge (left + 1) c.bytes.length with hlong | hle
      · -- the source goes on past the size
        rw [verdict, if_pos hlong]
        refine iff_of_false (by simp [moreThan_ne_eof]) ?_
        rintro (⟨-, hlen, -⟩ | ⟨-, pre, last, rest, -, -, -, hlen, -⟩)
        · rw [delivered_nil, length_nil] at hlen
          omega
        · rw [delivered_cons, length_append] at hlen
          omega
      · obtain ⟨hnone, heof, herror⟩ := verdict_cons size hle script
        cases herr : c.err with
        | none =>
          have hfirst : ¬ Completes (left + 1) [] c := by simp [Completes, isEOF, herr]
          rw [hnone herr, ih, or_iff_right hfirst, and_iff_right rfl]
          exact comes_congr fun pre last => (completes_cons hle).symm
        | some e =>
          simp only [Completes, reduceCtorEq, false_and, or_false, delivered_nil, length_nil,
            Nat.zero_add, herr]
          by_cases he : e.is .eof = true
          · rw [heof e herr he]
            have hne : endsEarly (size - (left + 1 - c.bytes.length : ℕ)) size ≠ eof := by
              unfold endsEarly eof
              exact fun h => by cases h
            by_cases heq : left + 1 = c.bytes.length
            · have hbytes : c.bytes ≠ [] := length_pos_iff.1 (by omega)
              simp [heq, isEOF, he, hbytes]
            · simp [heq, Ne.symm heq, hne]
          · rw [herror e herr (by simpa using he)]
            simp [ne_eof he, isEOF, he]

/-- **The scripts of another size.** -/
theorem verdict_mismatch_iff (size : ℕ) (hplain : Plain script) :
    isMismatch (verdict size left script) = true ↔ Mismatches script left := by
  induction script generalizing left with
  | nil =>
    refine iff_of_false ?_ not_comes_nil
    cases left <;> simp [verdict, probeVerdict, isMismatch]
  | cons c script ih =>
    cases left with
    | zero =>
      rw [verdict, probeVerdict_mismatch_iff hplain, Mismatches]
      refine comes_congr fun pre last => ?_
      rw [← length_pos_iff, Differs]
      constructor
      · rintro ⟨hnil, hlast, hlen⟩
        rw [emptyReads_of_nil hnil, hnil, length_nil]
        omega
      · rintro (⟨-, hlen⟩ | ⟨hle, hlt, hgap⟩)
        · omega
        · have hnil : delivered pre = [] := length_eq_zero_iff.1 (by omega)
          rw [emptyReads_of_nil hnil] at hgap
          exact ⟨hnil, by omega, hgap (by omega)⟩
    | succ left =>
      rw [Mismatches, comes_cons]
      rcases Nat.lt_or_ge (left + 1) c.bytes.length with hlong | hle
      · rw [verdict, if_pos hlong]
        refine iff_of_true (by simp [isMismatch, moreThan]) (Or.inl (Or.inr ?_))
        rw [delivered_nil, length_nil]
        omega
      · obtain ⟨hnone, heof, herror⟩ := verdict_cons size hle script
        cases herr : c.err with
        | none =>
          have hfirst : ¬ Differs (left + 1) [] c := by
            simp only [Differs, isEOF, herr, Option.any_none, Bool.false_eq_true, false_and, false_or,
              delivered_nil, length_nil]
            omega
          rw [hnone herr, ih hplain.tail, or_iff_right hfirst, and_iff_right rfl]
          exact comes_congr fun pre last => (differs_cons hle).symm
        | some e =>
          have hplain' := hplain c mem_cons_self e herr
          simp only [Differs, reduceCtorEq, false_and, or_false, delivered_nil, length_nil,
            Nat.zero_add, herr, not_lt.2 hle, and_false]
          by_cases he : e.is .eof = true
          · rw [heof e herr he]
            by_cases heq : left + 1 = c.bytes.length
            · simp [heq, isMismatch, eof]
            · have hlt : c.bytes.length < left + 1 := by omega
              simp [heq, isMismatch, endsEarly, isEOF, he, hlt]
          · rw [herror e herr (by simpa using he)]
            simp [isMismatch, hplain', isEOF, he]

theorem probeVerdict_noProgress {es rest : List (Chunk Err)} (hes : ∀ c ∈ es, c = ⟨[], none⟩)
    (hlen : tries ≤ es.length) : probeVerdict size tries (es ++ rest) = some noProgress := by
  induction tries generalizing es with
  | zero => rw [probeVerdict]
  | succ tries ih =>
    cases es with
    | nil => simp at hlen
    | cons c es =>
      obtain rfl := hes c mem_cons_self
      rw [cons_append, probeVerdict]
      simpa [isEOF] using ih (fun d hd => hes d (mem_cons_of_mem _ hd)) (by simpa using hlen)

/-- A source that answers nothing, without an error, after the size. -/
theorem verdict_noProgress {rest : List (Chunk Err)} (herr : ∀ c ∈ pre, c.err = none) :
    verdict size (delivered pre).length (pre ++ (List.replicate 100 ⟨[], none⟩ ++ rest)) =
      some noProgress := by
  generalize hlen : (delivered pre).length = left
  induction pre generalizing left with
  | nil =>
    obtain rfl : 0 = left := hlen
    rw [nil_append, verdict]
    exact probeVerdict_noProgress (fun c hc => eq_of_mem_replicate hc) (by simp)
  | cons c pre ih =>
    cases left with
    | zero =>
      -- nothing has come yet, and nothing was to come
      rw [length_eq_zero_iff, delivered_eq_nil_iff] at hlen
      rw [verdict, ← append_assoc]
      refine probeVerdict_noProgress (fun d hd => ?_) (by simp)
      rcases mem_append.1 hd with hd | hd
      · obtain ⟨bytes, err⟩ := d
        have hbytes : bytes = [] := hlen _ hd
        have hnone : err = none := herr _ hd
        rw [hbytes, hnone]
      · exact eq_of_mem_replicate hd
    | succ left =>
      rw [delivered_cons, length_append] at hlen
      rw [cons_append, (verdict_cons size (by omega) _).1 (herr c mem_cons_self)]
      exact ih (fun d hd => herr d (mem_cons_of_mem c hd)) _ (by omega)

end Verdict

/-! ## The contract -/

/-- **`ExpectSize` enforces the declared size**, for a source whose errors are not `ErrSizeMismatch`
themselves, whatever buffers the caller reads with. What is delivered is a prefix of the source's
bytes, at most `size`; the reading ends with `io.EOF` exactly if the source has that size, and with
`ErrSizeMismatch` exactly if it has another; both are final; and a source that makes no progress ends
it with `io.ErrNoProgress`. -/
theorem expectSize_enforces (size : ℕ) (script : List (Chunk Err)) (hplain : Plain script)
    (sizes : ℕ → ℕ) (hpos : ∀ k, 0 < sizes k) :
    (∀ bytes e st, ReadsTo (read offers) sizes 0 (expectSize script size) bytes e st →
      bytes <+: content script ∧ bytes.length ≤ size) ∧
    ((∃ bytes st, ReadsTo (read offers) sizes 0 (expectSize script size) bytes eof st) ↔
      EndsExactly script size) ∧
    ((∃ bytes e st, ReadsTo (read offers) sizes 0 (expectSize script size) bytes e st ∧
      e.is .sizeMismatch = true) ↔ Mismatches script size) ∧
    (∀ bytes e st, ReadsTo (read offers) sizes 0 (expectSize script size) bytes e st →
      e = eof ∨ e.is .sizeMismatch = true → ∀ len, read offers len st = some (⟨[], some e⟩, st)) ∧
    (∀ pre rest, script = pre ++ (List.replicate 100 ⟨[], none⟩ ++ rest) →
      (∀ c ∈ pre, c.err = none) → (delivered pre).length = size →
      ∃ bytes st, ReadsTo (read offers) sizes 0 (expectSize script size) bytes noProgress st) := by
  have hstart : expectSize script (size : ℤ) = reading size size script := rfl
  have hends : ∀ e, (∃ bytes st, ReadsTo (read offers) sizes 0 (expectSize script size) bytes e st) ↔
      verdict size size script = some e := by
    intro e
    rw [hstart]
    constructor
    · rintro ⟨bytes, st, h⟩
      exact verdict_of_readsTo hpos h
    · intro h
      obtain ⟨st, hst, -⟩ := readsTo_of_verdict hpos 0 h
      exact ⟨_, st, hst⟩
  refine ⟨?_, (hends eof).trans verdict_eof_iff, ?_, ?_, ?_⟩
  · intro bytes e st h
    obtain ⟨st', h', -⟩ := readsTo_of_verdict hpos 0 (verdict_of_readsTo hpos h)
    obtain ⟨rfl, -, -⟩ := h.unique h'
    exact ⟨List.take_prefix _ _, length_take_le _ _⟩
  · rw [← verdict_mismatch_iff size hplain, isMismatch, Option.any_eq_true]
    constructor
    · rintro ⟨bytes, e, st, h, he⟩
      exact ⟨e, (hends e).1 ⟨bytes, st, h⟩, he⟩
    · rintro ⟨e, h, he⟩
      obtain ⟨bytes, st, hst⟩ := (hends e).2 h
      exact ⟨bytes, e, st, hst, he⟩
  · intro bytes e st h he len
    obtain ⟨st', h', hdone⟩ := readsTo_of_verdict hpos 0 (verdict_of_readsTo hpos h)
    obtain ⟨-, -, rfl⟩ := h.unique h'
    have hkept : st.done = some e := by
      refine hdone.resolve_right ?_
      rintro ⟨hnot, c, hc, hce⟩
      rcases he with rfl | he
      · exact absurd hnot (by decide)
      · rw [hplain c hc e hce] at he
        cases he
    simp [read, hkept]
  · rintro pre rest rfl herr rfl
    exact (hends noProgress).2 (verdict_noProgress herr)

/-- Three bytes in two reads, with EOF in a read of its own. -/
theorem expectSize_enforces_exact :
    ∃ bytes st, ReadsTo (read offers) (fun _ => 2) 0
      (expectSize [⟨[1, 2, 3], none⟩, ⟨[], none⟩, ⟨[], some eof⟩] 3) bytes eof st :=
  (expectSize_enforces 3 [⟨[1, 2, 3], none⟩, ⟨[], none⟩, ⟨[], some eof⟩]
    (by simp [Plain, eof]) (fun _ => 2) (by simp)).2.1.2
    ⟨[⟨[1, 2, 3], none⟩, ⟨[], none⟩], ⟨[], some eof⟩, [], rfl, by simp,
      rfl, rfl, fun _ => by decide⟩

/-- A source that fails once with an `ErrSizeMismatch` of its own, then delivers a byte and ends. -/
def nestedSource : List (Chunk Err) :=
  [⟨[], some (.sentinel .sizeMismatch)⟩, ⟨[97], none⟩, ⟨[], some eof⟩]

/-- An `ErrSizeMismatch` of the source itself is passed on, although the source does not end early and
has no byte too many, and the next read reads on. -/
theorem source_mismatch_passed_on :
    ReadsTo (read offers) (fun _ => 1) 0 (expectSize nestedSource 1) [] (.sentinel .sizeMismatch)
        (expectSize nestedSource.tail 1) ∧
      ¬ Mismatches nestedSource 1 ∧
      read offers 1 (expectSize nestedSource.tail 1) =
        some (⟨[97], some eof⟩, { r := [], left := 0, size := 1, done := some eof }) := by
  refine ⟨ReadsTo.last (by rfl), ?_, by rfl⟩
  simp [Mismatches, nestedSource, comes_cons, Differs, isEOF]

end Gombit.Storage.ExpectSize
