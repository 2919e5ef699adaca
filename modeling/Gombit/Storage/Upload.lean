import Gombit.Foundations.Errors
import Gombit.Foundations.Readers

/-!
# Saving an upload

`save` (`storage/upload/upload.go`), without claims: the first bytes of the source are read with
`io.ReadFull` through a reader that remembers the source's error and one that stops past
`Policy.MaxBytes`; their type is detected and checked; then they are put back in front of the rest
and the store reads both.

* `SourceOrNothing`: what an upload promises: it stores the source or nothing.
* `source_or_nothing_of_headKept`: for which sources it keeps the promise.
* `head_error_lost`: when it does not. An error that comes with the byte that fills the head, or that
  is `io.ErrUnexpectedEOF`, is not reported if the source then ends.
-/

namespace Gombit.Storage.Upload

open List

/-! ## Errors -/

/-- The errors the code compares with, and all others. -/
inductive Sentinel
  | eof
  | unexpectedEOF
  | tooLarge
  | type
  | malformed
  | unknownOutcome
  | unavailable
  | canceled
  | deadlineExceeded
  | other (text : String)
  deriving DecidableEq

abbrev Err := GoError Sentinel

def Sentinel.text : Sentinel → String
  | .eof => "EOF"
  | .unexpectedEOF => "unexpected EOF"
  | .tooLarge => "upload: too large"
  | .type => "upload: media type not allowed"
  | .malformed => "upload: malformed request"
  | .unknownOutcome => "storage: outcome unknown: the object may or may not have been stored"
  | .unavailable => "storage: backend unavailable"
  | .canceled => "context canceled"
  | .deadlineExceeded => "context deadline exceeded"
  | .other text => text

/-- `Error()`. -/
def text (e : Err) : String := e.message Sentinel.text

/-- `io.EOF`. -/
def eof : Err := .sentinel .eof

/-- `io.ErrUnexpectedEOF`. -/
def unexpectedEOF : Err := .sentinel .unexpectedEOF

/-- `clientGone`, for the error of the context if it has ended. -/
def clientGone (gone : Option Sentinel) (err : Err) : Option Err :=
  gone.map fun c =>
    if err.is c then err else .joined (c.text ++ ": " ++ text err) (.sentinel c) err

/-- `sourceReader.classify`. -/
def classify (gone : Option Sentinel) (failed : Option Err) (err : Err) : Err :=
  match clientGone gone err with
  | some e => e
  | none =>
    match failed with
    | none => err
    | some e =>
      if e.is .tooLarge then err
      else .joined (Sentinel.malformed.text ++ ": reading the file: " ++ text e)
        (.sentinel .malformed) e

/-! ## The readers -/

variable {σ : Type}

/-- The first error other than `io.EOF`. -/
def remember (first err : Option Err) : Option Err :=
  first.or (err.filter fun e => !e.is .eof)

/-- The state of a `sourceReader`. -/
structure Source (σ : Type) where
  r : σ
  err : Option Err

/-- `sourceReader.Read`. -/
def sourceReader (r : Reader σ Err) : Reader (Source σ) Err := fun len s =>
  (r len s.r).map fun x => (x.1, ⟨x.2, remember s.err x.1.err⟩)

/-- The state of a `limitReader`, but for its `max`. -/
structure Limit (σ : Type) where
  r : σ
  read : ℕ
  err : Option Err

/-- `limitReader.tooLarge`. -/
def tooLarge (max : ℕ) : Err :=
  .wrapped (Sentinel.tooLarge.text ++ ": more than " ++ toString max ++ " bytes")
    (.sentinel .tooLarge)

/-- `limitReader.Read`. -/
def limitReader (max : ℕ) (r : Reader σ Err) : Reader (Limit σ) Err := fun len l =>
  if max < l.read then some (⟨[], some (tooLarge max)⟩, l)
  else
    -- one byte past max is enough to know
    (r (min len (max - l.read + 1)) l.r).map fun x =>
      (if max < l.read + x.1.bytes.length then ⟨[], some (tooLarge max)⟩ else x.1,
        ⟨x.2, l.read + x.1.bytes.length, remember l.err x.1.err⟩)

/-! ## Saving -/

/-- `SniffBytes`. -/
def sniffBytes : ℕ := 512

/-- What `save` takes from other packages. -/
structure Library where
  /-- `http.DetectContentType`. -/
  detectContentType : List UInt8 → String
  /-- The media type of `mime.ParseMediaType`. -/
  parseMediaType : String → Option String
  /-- The complaint of `storage.ValidatePutOptions` about a content type. -/
  validateContentType : String → Option String
  /-- The metadata and the filename stored for a client's filename: `CleanFilename`, `fitMetadata`. -/
  describe : List (String × String) → String → List (String × String) × String
  /-- The verb `%q`. -/
  quote : String → String

/-- The fields of a `Policy` without `Claims`. -/
structure Policy where
  maxBytes : ℕ
  types : List String
  keyPrefix : String
  detect : Option (List UInt8 → String)
  metadata : List (String × String)

/-- `Policy.accepts`. -/
def Policy.accepts (p : Policy) (mediaType : String) : Bool :=
  p.types.any fun t =>
    t == "*/*" || t == mediaType ||
      t == String.ofList (mediaType.toList.takeWhile (· ≠ '/')) ++ "/*"

/-- What a call is made with: the id drawn for the key, the client's filename, and the context's
error once it has ended. -/
structure Request where
  id : String
  filename : String
  gone : Option Sentinel

/-- A stored object. -/
structure Object where
  key : String
  bytes : List UInt8
  contentType : String
  metadata : List (String × String)
  deriving DecidableEq

/-- `File`. -/
structure File where
  key : String
  size : ℕ
  contentType : String
  metadata : List (String × String)
  filename : String
  deriving DecidableEq

/-- A store during a call of `Put`, which reads to the end with buffers of any sizes, stores what it
read, and stores nothing when a read fails or it fails itself (on a declared size that is not the
file's, say); and what a `Delete` then answers. -/
structure Store where
  sizes : ℕ → ℕ
  own : ℕ → Option Err
  deleteErr : Option Err

/-- The detected content type of a head, when the policy accepts it and a store can record it. -/
def checkType (lib : Library) (p : Policy) (head : List UInt8) : Except Err String :=
  let contentType := (p.detect.getD lib.detectContentType) head
  match (lib.parseMediaType contentType).filter p.accepts with
  | none => .error (.wrapped (Sentinel.type.text ++ ": detected " ++ lib.quote contentType)
      (.sentinel .type))
  | some _ =>
    match lib.validateContentType contentType with
    | some problem => .error (.sentinel (.other
        ("upload: Policy.Detect returned " ++ lib.quote contentType ++ ": " ++ problem)))
    | none => .ok contentType

/-- `storage.Wrap` of a `Put`. -/
def putError (lib : Library) (key : String) (err : Err) : Err :=
  .wrapped ("storage: put " ++ lib.quote key ++ ": " ++ text err) err

/-- The cause that `settled` reports. -/
def settledCause (err : Err) : Sentinel :=
  if err.is .canceled then .canceled
  else if err.is .deadlineExceeded then .deadlineExceeded
  else .unavailable

/-- `settled`. -/
def settled (lib : Library) (key : String) (err : Err) : Err :=
  putError lib key (.wrapped ((settledCause err).text ++ " (" ++ text err ++
    "; the key was then deleted, so nothing is stored)") (.sentinel (settledCause err)))

/-- The error `save` returns when `Put` failed. -/
def putFailed (lib : Library) (req : Request) (store : Store) (key : String) (failed : Option Err)
    (err : Err) : Err :=
  if err.is .unknownOutcome then
    match store.deleteErr with
    | some derr =>
      let cleanup : Err := .wrapped ("upload: " ++ lib.quote key ++
        " may still hold a file: deleting it failed: " ++ text derr) derr
      .joined (text (classify req.gone failed err) ++ "\n" ++ text cleanup)
        (classify req.gone failed err) cleanup
    | none => classify req.gone failed (settled lib key err)
  else classify req.gone failed err

/-- What a call leaves: its result, the object stored under its key, and the readers. -/
structure Saved (σ : Type) where
  file : Except Err File
  object : Option Object
  source : Limit (Source σ)

/-- An error of `io.ReadFull` that ends the call: neither the end nor a short file. -/
def headFailed (err : Option Err) : Option Err :=
  err.filter fun e => !e.is .eof && !e.is .unexpectedEOF

/-- `save`, for a policy without claims. -/
def save (lib : Library) (p : Policy) (req : Request) (store : Store) (r : Reader σ Err) (fuel : ℕ)
    (s : σ) : Option (Saved σ) :=
  let src := limitReader p.maxBytes (sourceReader r)
  match readFull eof unexpectedEOF src fuel sniffBytes [] ⟨⟨s, none⟩, 0, none⟩ with
  | none => none
  | some (head, st) =>
    match headFailed head.err with
    | some e => some ⟨.error (classify req.gone st.r.err e), none, st⟩
    | none =>
      match checkType lib p head.bytes with
      | .error e => some ⟨.error e, none, st⟩
      | .ok contentType =>
        let key := p.keyPrefix ++ req.id
        let described := lib.describe p.metadata req.filename
        match readAll eof (multiReader eof src) store.sizes store.own fuel 0 []
            (some head.bytes, st) with
        | none => none
        | some (.error e, (_, st)) =>
          some ⟨.error (putFailed lib req store key st.r.err (putError lib key e)), none, st⟩
        | some (.ok bytes, (_, st)) =>
          some ⟨.ok ⟨key, bytes.length, contentType, described.1, described.2⟩,
            some ⟨key, bytes, contentType, described.1⟩, st⟩

/-! ## What was read -/

/-- A reader with the results it returned. -/
structure Logged (σ : Type) where
  r : σ
  log : List (Chunk Err)

def logged (r : Reader σ Err) : Reader (Logged σ) Err := fun len s =>
  (r len s.r).map fun x => (x.1, ⟨x.2, s.log ++ [x.1]⟩)

/-- The readers of a call on a script. -/
abbrev Readers := Limit (Source (Logged (List (Chunk Err))))

namespace Readers

/-- What is left of the script. -/
def script (st : Readers) : List (Chunk Err) := st.r.r.r

/-- The results of the source's reads. -/
def log (st : Readers) : List (Chunk Err) := st.r.r.log

/-- The readers before the first read. -/
def init (script : List (Chunk Err)) : Readers := ⟨⟨⟨script, []⟩, none⟩, 0, none⟩

end Readers

/-- The reader `save` reads from. -/
def src (max : ℕ) : Reader Readers Err := limitReader max (sourceReader (logged offers))

variable {fuel : ℕ}

section Reading

variable {max len : ℕ} {st st' : Readers} {c : Chunk Err} {cs : List (Chunk Err)}

/-- **One read.** Past the limit the source is not read. Otherwise it is, and its result is passed on
unless it goes past the limit. -/
theorem src_cases (h : src max len st = some (c, st')) :
    (max < st.read ∧ c = ⟨[], some (tooLarge max)⟩ ∧ st' = st) ∨
      st.read ≤ max ∧ ∃ d, offers (min len (max - st.read + 1)) st.script = some (d, st'.script) ∧
        st'.log = st.log ++ [d] ∧ st'.read = st.read + d.bytes.length ∧
        st'.r.err = remember st.r.err d.err ∧
        c = if max < st'.read then ⟨[], some (tooLarge max)⟩ else d := by
  unfold src limitReader sourceReader logged at h
  split_ifs at h with hpast
  · cases h
    exact .inl ⟨hpast, rfl, rfl⟩
  · simp only [Option.map_map, Option.map_eq_some_iff] at h
    obtain ⟨⟨d, rest⟩, hread, hx⟩ := h
    cases hx
    exact .inr ⟨not_lt.1 hpast, d, hread, rfl, rfl, rfl, rfl⟩

theorem src_of_offers {d : Chunk Err} {rest : List (Chunk Err)} (hle : st.read ≤ max)
    (h : offers (min len (max - st.read + 1)) st.script = some (d, rest)) :
    src max len st = some
      (if max < st.read + d.bytes.length then ⟨[], some (tooLarge max)⟩ else d,
        ⟨⟨⟨rest, st.log ++ [d]⟩, remember st.r.err d.err⟩, st.read + d.bytes.length,
          remember st.err d.err⟩) := by
  rw [src, limitReader, if_neg (not_lt.2 hle), sourceReader, logged]
  simp only [Readers.script] at h
  rw [h]
  rfl

theorem read_le_of_reads (h : Reads (src max) st c st') : st.read ≤ st'.read := by
  obtain ⟨len, h⟩ := h
  obtain ⟨-, -, rfl⟩ | ⟨-, d, -, -, hread, -⟩ := src_cases h
  · exact le_rfl
  · omega

theorem read_le_of_run (h : Run (Reads (src max)) st cs st') : st.read ≤ st'.read :=
  h.preserves (I := fun s => st.read ≤ s.read) (fun _ _ _ hstep hle => hle.trans (read_le_of_reads hstep))
    le_rfl

/-- Below the limit the readers are transparent. -/
theorem log_of_run (h : Run (Reads (src max)) st cs st') (hle : st'.read ≤ max) :
    st'.log = st.log ++ cs := by
  induction h with
  | nil s => simp
  | cons hstep hrun ih =>
    have hmid := (read_le_of_run hrun).trans hle
    obtain ⟨len, hread⟩ := hstep
    obtain ⟨hpast, -, rfl⟩ | ⟨-, d, -, hlog, -, -, hc⟩ := src_cases hread
    · omega
    · rw [if_neg (not_lt.2 hmid)] at hc
      rw [ih hle, hlog, hc, append_assoc]
      rfl

/-- Past the limit, a result said so. -/
theorem tooLarge_of_run (h : Run (Reads (src max)) st cs st') (hle : st.read ≤ max)
    (hpast : max < st'.read) : ⟨[], some (tooLarge max)⟩ ∈ cs := by
  induction h with
  | nil s => omega
  | @cons s s₁ s₂ c cs hstep hrun ih =>
    by_cases hmid : max < s₁.read
    · obtain ⟨len, hread⟩ := hstep
      obtain ⟨hlt, -, -⟩ | ⟨-, d, -, -, -, -, hc⟩ := src_cases hread
      · omega
      · rw [hc, if_pos hmid]
        exact mem_cons_self
    · exact mem_cons_of_mem _ (ih (not_lt.1 hmid) hpast)

/-- What the readers know of a script. -/
structure Follows (script : List (Chunk Err)) (st : Readers) : Prop where
  read : st.read = (delivered st.log).length
  bytes : delivered script = delivered st.log ++ delivered st.script
  errs : ∀ e, (∃ c ∈ st.log ++ st.script, c.err = some e) → ∃ c ∈ script, c.err = some e
  failed : ∀ e, st.r.err = some e → ∃ c ∈ st.log, c.err = some e

theorem follows_init (script : List (Chunk Err)) : Follows script (.init script) :=
  ⟨rfl, rfl, fun _ h => h, fun _ h => by cases h⟩

theorem follows_reads {script : List (Chunk Err)} (hf : Follows script st)
    (h : Reads (src max) st c st') : Follows script st' := by
  obtain ⟨len, h⟩ := h
  obtain ⟨-, -, rfl⟩ | ⟨-, d, hread, hlog, hcount, herr, -⟩ := src_cases h
  · exact hf
  · refine ⟨?_, ?_, ?_, ?_⟩
    · rw [hcount, hlog, hf.read]
      simp
    · rw [hf.bytes, hlog, delivered_offers hread]
      simp
    · rintro e ⟨c, hc, he⟩
      rw [hlog, append_assoc, mem_append] at hc
      refine hf.errs e ?_
      rcases hc with hc | hc
      · exact ⟨c, mem_append_left _ hc, he⟩
      · obtain ⟨c', hc', he'⟩ := mem_err_offers hread ⟨c, hc, he⟩
        exact ⟨c', mem_append_right _ hc', he'⟩
    · intro e he
      rw [herr, remember, Option.or_eq_some_iff] at he
      rw [hlog]
      rcases he with he | ⟨-, he⟩
      · obtain ⟨c, hc, hce⟩ := hf.failed e he
        exact ⟨c, mem_append_left _ hc, hce⟩
      · exact ⟨d, by simp, (Option.filter_eq_some_iff.1 he).1⟩

theorem follows_run {script : List (Chunk Err)} (hf : Follows script st)
    (h : Run (Reads (src max)) st cs st') : Follows script st' :=
  h.preserves (fun _ _ _ hstep hf => follows_reads hf hstep) hf

/-- The last read of the head returns the script's error, below the limit. -/
theorem fillError_readFull {need : ℕ} {got : List UInt8} (hneed : 0 < need)
    (h : readFull eof unexpectedEOF (src max) fuel need got st = some (c, st'))
    (hle : st'.read ≤ max) :
    ∃ ds d, st'.log = st.log ++ (ds ++ [d]) ∧ d.err = fillError need st.script ∧
      (delivered (ds ++ [d])).length ≤ need := by
  induction fuel generalizing need got st with
  | zero => cases h
  | succ fuel ih =>
    rw [readFull] at h
    cases hr : src max need st with
    | none => simp [hr] at h
    | some x =>
      obtain ⟨x, st₁⟩ := x
      simp only [hr] at h
      have hmid : st₁.read ≤ max := by
        split_ifs at h
        · cases h
          exact hle
        · cases hx : x.err with
          | none =>
            simp only [hx] at h
            obtain ⟨_, _, hrun, -⟩ := readFull_reads h (by omega)
            exact (read_le_of_run hrun).trans hle
          | some e =>
            simp only [hx] at h
            cases h
            exact hle
      obtain ⟨hpast, -, rfl⟩ | ⟨hst, d, hread, hlog, hcount, -, hc⟩ := src_cases hr
      · omega
      rw [if_neg (not_lt.2 hmid)] at hc
      subst hc
      -- below the limit the buffer was not cut
      have hread' : offers need st.script = some (x, st₁.script) := by
        rcases le_or_gt need (max - st.read + 1) with hcut | hcut
        · rwa [min_eq_left hcut] at hread
        · rw [min_eq_right hcut.le] at hread
          exact offers_of_lt hread (by omega) hcut.le
      have hshort := offers_length_le hread'
      split_ifs at h with hfull
      · cases h
        refine ⟨[], x, hlog, ?_, by simpa using hshort⟩
        cases hx : x.err with
        | none => rw [(offers_none hread' hx).2.2 need le_rfl, if_pos (le_antisymm hfull hshort)]
        | some e => rw [(offers_some hread' hx).2.2 need le_rfl]
      · cases hx : x.err with
        | none =>
          simp only [hx] at h
          obtain ⟨ds, d, hlog', hd, hlen⟩ := ih (by omega) h
          refine ⟨x :: ds, d, by rw [hlog', hlog]; simp, ?_, ?_⟩
          · rw [hd, (offers_none hread' hx).2.2 need le_rfl, if_neg (by omega)]
          · rw [cons_append, delivered_cons, length_append]
            omega
        | some e =>
          simp only [hx] at h
          cases h
          refine ⟨[], x, hlog, ?_, by simpa using hshort⟩
          rw [hx, (offers_some hread' hx).2.2 need le_rfl]

/-- Reads without an error, and a last one, below the limit: they deliver the script's content from its
front, and an error of the last one ends it. -/
theorem content_of_run {d : Chunk Err} (h : Run (Reads (src max)) st (cs ++ [d]) st')
    (hle : st'.read ≤ max) (hcs : ∀ x ∈ cs, x.err = none) :
    delivered (cs ++ [d]) <+: content st.script ∧
      (d.err ≠ none → content st.script = delivered (cs ++ [d]) ∧
        st'.script = afterError st.script) := by
  induction cs generalizing st with
  | nil =>
    obtain ⟨st₁, ⟨len, hread⟩, hnil⟩ := h.cons_inv
    cases hnil
    obtain ⟨hpast, -, rfl⟩ | ⟨-, d', hread', -, -, -, hd⟩ := src_cases hread
    · omega
    rw [if_neg (not_lt.2 hle)] at hd
    subst hd
    cases hd : d.err with
    | none =>
      rw [(offers_none hread' hd).1]
      simp
    | some e =>
      obtain ⟨hcontent, hafter, -⟩ := offers_some hread' hd
      simp [hcontent, hafter]
  | cons c cs ih =>
    obtain ⟨st₁, ⟨len, hread⟩, hrest⟩ := h.cons_inv
    have hmid := (read_le_of_run hrest).trans hle
    obtain ⟨hpast, -, rfl⟩ | ⟨-, d', hread', -, -, -, hc⟩ := src_cases hread
    · omega
    rw [if_neg (not_lt.2 hmid)] at hc
    subst hc
    obtain ⟨hcontent, hafter, -⟩ := offers_none hread' (hcs c mem_cons_self)
    obtain ⟨hfront, hend⟩ := ih hrest fun x hx => hcs x (mem_cons_of_mem _ hx)
    rw [hcontent, hafter, cons_append, delivered_cons, prefix_append_right_inj]
    refine ⟨hfront, fun hd => ?_⟩
    obtain ⟨heq, hscript⟩ := hend hd
    exact ⟨by rw [heq], hscript⟩

end Reading

/-! ## A source over the limit -/

section Over

variable {max : ℕ} {script : List (Chunk Err)} {st : Readers}

/-- The readers below the limit of a script that goes past it. -/
structure Ahead (max : ℕ) (script : List (Chunk Err)) (st : Readers) : Prop where
  read : st.read = (delivered st.log).length
  le : st.read ≤ max
  split : content script = delivered st.log ++ content st.script
  failed : st.r.err = none
  fill : fillError (max + 1 - st.read) st.script = fillError (max + 1) script

theorem ahead_init (max : ℕ) (script : List (Chunk Err)) : Ahead max script (.init script) :=
  ⟨rfl, Nat.zero_le _, rfl, rfl, rfl⟩

/-- The readers once the limit is passed: the source's error, if any, came with the byte past it. -/
def Stopped (max : ℕ) (script : List (Chunk Err)) (st : Readers) : Prop :=
  max < st.read ∧ st.r.err = remember none (fillError (max + 1) script)

variable (hover : max < (content script).length)

include hover

/-- **One read** of such a script passes the limit, or returns bytes without an error. -/
theorem ahead_read (h : Ahead max script st) {len : ℕ} (hlen : 0 < len) :
    ∃ c st', src max len st = some (c, st') ∧ st'.read ≤ st.read + len ∧
      ((c = ⟨[], some (tooLarge max)⟩ ∧ Stopped max script st') ∨
        c.err = none ∧ c.bytes.length ≤ len ∧ Ahead max script st' ∧ st'.log = st.log ++ [c] ∧
          scriptWeight st'.script < scriptWeight st.script) := by
  have hle := h.le
  have hleft : max - st.read < (content st.script).length := by
    have hsplit := congrArg List.length h.split
    rw [length_append, ← h.read] at hsplit
    omega
  have hsome : (offers (min len (max - st.read + 1)) st.script).isSome :=
    offers_isSome (ne_nil_of_length_pos (by omega))
  obtain ⟨⟨d, rest⟩, hread⟩ := Option.isSome_iff_exists.1 hsome
  have hshort := offers_length_le hread
  have hfill := h.fill
  refine ⟨_, _, src_of_offers hle hread, by simp only; omega, ?_⟩
  cases hd : d.err with
  | some e =>
    -- the content ends with this result, so it passes the limit
    obtain ⟨hcontent, -, hfe⟩ := offers_some hread hd
    rw [hcontent] at hleft
    have hpast : max < st.read + d.bytes.length := by omega
    refine .inl ⟨by simp [hpast], hpast, ?_⟩
    rw [← hfill, hfe _ (by omega)]
    simp [h.failed]
  | none =>
    obtain ⟨hcontent, -, hfe⟩ := offers_none hread hd
    have hfe := hfe (max + 1 - st.read) (by omega)
    by_cases hpast : max < st.read + d.bytes.length
    · refine .inl ⟨by simp [hpast], hpast, ?_⟩
      rw [← hfill, hfe, if_pos (by omega)]
      simp [h.failed]
    · simp only [hpast, if_false]
      refine .inr ⟨hd, by omega, ⟨?_, not_lt.1 hpast, ?_, ?_, ?_⟩, rfl, ?_⟩
      · simp [Readers.log, h.read]
      · rw [h.split, hcontent]
        simp [Readers.log, Readers.script]
      · simp [h.failed, remember]
      · rw [← hfill, hfe, if_neg (by omega)]
        simp only [Readers.script]
        congr 1
        omega
      · exact scriptWeight_offers hread (by omega)

/-- **The head** of such a script passes the limit, or is filled without an error. -/
theorem ahead_readFull {need : ℕ} {got : List UInt8} (h : Ahead max script st)
    (hgot : got = delivered st.log) (hneed : 0 < need) (hfuel : scriptWeight st.script < fuel) :
    ∃ c st', readFull eof unexpectedEOF (src max) fuel need got st = some (c, st') ∧
      st'.read ≤ st.read + need ∧
      ((c.err = some (tooLarge max) ∧ Stopped max script st') ∨
        c.err = none ∧ Ahead max script st' ∧ c.bytes = delivered st'.log ∧
          st'.read = st.read + need ∧ scriptWeight st'.script < scriptWeight st.script) := by
  induction fuel generalizing need got st with
  | zero => omega
  | succ fuel ih =>
    obtain ⟨c, st₁, hsrc, hread, ⟨rfl, hstop⟩ | ⟨hc, hshort, hahead, hlog, hw⟩⟩ := ahead_read hover h hneed
    · refine ⟨⟨got, some (tooLarge max)⟩, st₁, ?_, hread, .inl ⟨rfl, hstop⟩⟩
      rw [readFull, hsrc]
      simp [not_le.2 hneed, tooLarge, eof]
    · have hgot₁ : got ++ c.bytes = delivered st₁.log := by simp [hgot, hlog]
      have hcount : st₁.read = st.read + c.bytes.length := by
        rw [hahead.read, ← hgot₁, length_append, hgot, ← h.read]
      rw [readFull, hsrc]
      dsimp only
      by_cases hfull : need ≤ c.bytes.length
      · rw [if_pos hfull]
        exact ⟨_, st₁, rfl, hread, .inr ⟨rfl, hahead, hgot₁, by omega, hw⟩⟩
      · rw [if_neg hfull, hc]
        have hneed' : 0 < need - c.bytes.length := by omega
        obtain ⟨c', st', hrun, hle, hcases⟩ := ih hahead hgot₁ hneed' (by omega)
        refine ⟨c', st', hrun, by omega, hcases.imp_right ?_⟩
        rintro ⟨herr, hahead', hbytes, hcount', hw'⟩
        exact ⟨herr, hahead', hbytes, by omega, hw'.trans hw⟩

/-- **The store** reads past the limit. -/
theorem ahead_readAll (sizes : ℕ → ℕ) {own : ℕ → Option Err} (k : ℕ) {left : List UInt8}
    (got : List UInt8) (hown : ∀ k, own k = none) (h : Ahead max script st)
    (hfuel : left.length + scriptWeight st.script < fuel) :
    ∃ left' st', readAll eof (multiReader eof (src max)) sizes own fuel k got (some left, st) =
      some (.error (tooLarge max), (left', st')) ∧ Stopped max script st' := by
  induction fuel generalizing k got left st with
  | zero => omega
  | succ fuel ih =>
    rw [readAll, hown]
    dsimp only
    cases left with
    | cons b left =>
      simp only [multiReader]
      exact ih _ _ h (by simp only [length_drop, length_cons] at hfuel ⊢; omega)
    | nil =>
      obtain ⟨c, st₁, hsrc, -, ⟨rfl, hstop⟩ | ⟨hc, -, hahead, -, hw⟩⟩ :=
        ahead_read hover h (Nat.succ_pos (sizes k))
      · refine ⟨some [], st₁, ?_, hstop⟩
        simp [multiReader, hsrc, tooLarge, eof]
      · simp only [multiReader, hsrc, Option.map_some, hc, reduceCtorEq, if_false]
        exact ih _ _ hahead (by simp only [length_nil] at hfuel ⊢; omega)

end Over

/-! ## The promise -/

variable {out : Saved (Logged (List (Chunk Err)))} {e err : Err} {failed : Option Err}

section Promise

variable {lib : Library} {p : Policy} {req : Request} {store : Store} {script : List (Chunk Err)}

/-- A call on a script returns. -/
def Returns (lib : Library) (p : Policy) (req : Request) (store : Store) (script : List (Chunk Err))
    (out : Saved (Logged (List (Chunk Err)))) : Prop :=
  ∃ fuel, save lib p req store (logged offers) fuel ⟨script, []⟩ = some out

/-- The results of the source's reads during a call. -/
def Saved.log (out : Saved (Logged (List (Chunk Err)))) : List (Chunk Err) := Readers.log out.source

/-- **Inversion.** A call reads the head and fails on it, refuses its type, or lets the store read. -/
theorem save_cases (h : save lib p req store (logged offers) fuel ⟨script, []⟩ = some out) :
    ∃ head st, readFull eof unexpectedEOF (src p.maxBytes) fuel sniffBytes [] (.init script) =
        some (head, st) ∧
      ((∃ e, headFailed head.err = some e ∧
          out = ⟨.error (classify req.gone st.r.err e), none, st⟩) ∨
        headFailed head.err = none ∧
          ((∃ e, checkType lib p head.bytes = .error e ∧ out = ⟨.error e, none, st⟩) ∨
            ∃ contentType res left st', checkType lib p head.bytes = .ok contentType ∧
              readAll eof (multiReader eof (src p.maxBytes)) store.sizes store.own fuel 0 []
                (some head.bytes, st) = some (res, (left, st')) ∧
              ((∃ e, res = .error e ∧ out.object = none ∧ out.source = st' ∧ out.file =
                  .error (putFailed lib req store (p.keyPrefix ++ req.id) st'.r.err
                    (putError lib (p.keyPrefix ++ req.id) e))) ∨
                ∃ bytes file object, res = .ok bytes ∧ out = ⟨.ok file, some object, st'⟩ ∧
                  object.bytes = bytes))) := by
  have hsrc : limitReader p.maxBytes (sourceReader (logged offers)) = src p.maxBytes := rfl
  have hinit : (⟨⟨⟨script, []⟩, none⟩, 0, none⟩ : Readers) = Readers.init script := rfl
  simp only [save, hsrc, hinit] at h
  cases hhead : readFull eof unexpectedEOF (src p.maxBytes) fuel sniffBytes [] (.init script) with
  | none => simp [hhead] at h
  | some x =>
    obtain ⟨head, st⟩ := x
    refine ⟨head, st, rfl, ?_⟩
    simp only [hhead] at h
    cases hfail : headFailed head.err with
    | some e =>
      simp only [hfail] at h
      cases h
      exact .inl ⟨e, rfl, rfl⟩
    | none =>
      simp only [hfail] at h
      refine .inr ⟨rfl, ?_⟩
      cases htype : checkType lib p head.bytes with
      | error e =>
        simp only [htype] at h
        cases h
        exact .inl ⟨e, rfl, rfl⟩
      | ok contentType =>
        simp only [htype] at h
        cases hput : readAll eof (multiReader eof (src p.maxBytes)) store.sizes store.own fuel 0 []
            (some head.bytes, st) with
        | none => simp [hput] at h
        | some y =>
          obtain ⟨res, left, st'⟩ := y
          refine .inr ⟨contentType, res, left, st', rfl, rfl, ?_⟩
          simp only [hput] at h
          cases res with
          | error e =>
            cases h
            exact .inl ⟨e, rfl, rfl, rfl, rfl⟩
          | ok bytes =>
            cases h
            exact .inr ⟨bytes, _, _, rfl, rfl, rfl⟩

variable {head : Chunk Err} {gone : Option Sentinel}

/-- The limit's error ends the call: a head that does not end it is below the limit. -/
theorem head_below {st : Readers} {max : ℕ}
    (h : readFull eof unexpectedEOF (src max) fuel sniffBytes [] (.init script) = some (head, st))
    (hfail : headFailed head.err = none) : st.read ≤ max := by
  obtain ⟨cs, d, hrun, hcs, -, -, -, hempty⟩ := readFull_reads h (by decide)
  by_contra hpast
  rcases mem_append.1 (tooLarge_of_run hrun (Nat.zero_le _) (not_le.1 hpast)) with hmem | hmem
  · cases hcs _ hmem
  · obtain rfl := mem_singleton.1 hmem
    rw [hempty _ rfl (.inl rfl) (by simp [tooLarge, eof])] at hfail
    simp [headFailed, tooLarge] at hfail

/-- The media type detected from the first bytes is one the policy accepts. -/
def Accepted (lib : Library) (p : Policy) (bytes : List UInt8) : Prop :=
  ∃ mediaType, lib.parseMediaType ((p.detect.getD lib.detectContentType) (bytes.take sniffBytes)) =
    some mediaType ∧ p.accepts mediaType = true

/-- Nothing is lost with the head of a script. A read that ends it with an error returns `io.EOF`, and
after one inside the head the source offers no more bytes; or the error is one that ends the call, and
comes before the head is full. -/
def HeadKept (script : List (Chunk Err)) : Prop :=
  ∀ e, fillError sniffBytes script = some e →
    e = eof ∧ ((content script).length < sniffBytes → content (afterError script) = []) ∨
      headFailed (some e) = some e ∧ (content script).length < sniffBytes

theorem accepted_of_checkType {head bytes : List UInt8} {contentType : String}
    (h : checkType lib p head = .ok contentType) (hhead : bytes.take sniffBytes = head) :
    Accepted lib p bytes := by
  rw [Accepted, hhead]
  simp only [checkType] at h
  split at h
  · cases h
  · rename_i mediaType hmedia
    exact ⟨mediaType, Option.filter_eq_some_iff.1 hmedia⟩

/-- **A head that does not end the call**, of a script that loses nothing with it: the last read of it
returned no error or `io.EOF`, and what is read after it does not change its first bytes. -/
theorem head_of_headKept {st : Readers} {max : ℕ} (hkept : HeadKept script)
    (h : readFull eof unexpectedEOF (src max) fuel sniffBytes [] (.init script) = some (head, st))
    (hfail : headFailed head.err = none) :
    head.bytes = delivered st.log ∧ (∀ c ∈ st.log, c.err = none ∨ c.err = some eof) ∧
      ∀ more, more <+: content st.script → (head.bytes ++ more).take sniffBytes = head.bytes := by
  have hle := head_below h hfail
  obtain ⟨cs, d, hrun, hcs, hbytes, hfull, hsome, hroom⟩ := readFull_reads h (by decide)
  obtain ⟨ds, d', hlog, hd, hlen⟩ := fillError_readFull (by decide) h hle
  have hlog' : st.log = cs ++ [d] := log_of_run hrun hle
  have hlog : st.log = ds ++ [d'] := hlog
  obtain ⟨rfl, heq⟩ := append_inj' (hlog'.symm.trans hlog) rfl
  obtain rfl : d = d' := by simpa using heq
  have hd : d.err = fillError sniffBytes script := hd
  obtain ⟨-, hend⟩ := content_of_run hrun hle hcs
  have hend : d.err ≠ none → content script = delivered (cs ++ [d]) ∧ st.script = afterError script :=
    hend
  rw [nil_append] at hbytes
  refine ⟨by rw [hbytes, hlog'], fun c hc => ?_, fun more hmore => ?_⟩
  · rw [hlog', mem_append, mem_singleton] at hc
    rcases hc with hc | rfl
    · exact .inl (hcs c hc)
    · cases he : c.err with
      | none => exact .inl rfl
      | some e =>
        obtain ⟨rfl, -⟩ | ⟨hends, hshort⟩ := hkept e (hd ▸ he)
        · exact .inr rfl
        · -- the call would have ended
          rw [(hend (by simp [he])).1] at hshort
          have hne : e ≠ eof := by
            rintro rfl
            cases hends
          rw [hroom e he (.inr hshort) hne, hends] at hfail
          cases hfail
  · rw [hbytes]
    rcases hlen.eq_or_lt with hlen | hlen
    · exact take_left' hlen
    · -- the source has ended inside the head
      obtain ⟨e', he'⟩ := Option.ne_none_iff_exists'.1 fun hnone => by
        have hneed := hfull hnone
        omega
      have he : ∃ e, d.err = some e := by
        rcases hsome e' he' with he | ⟨he, -⟩ <;> exact ⟨_, he⟩
      obtain ⟨e, he⟩ := he
      obtain ⟨hcontent, hscript⟩ := hend (by simp [he])
      rw [← hcontent] at hlen
      obtain ⟨-, hafter⟩ | ⟨hends, -⟩ := hkept e (hd ▸ he)
      · rw [hscript, hafter hlen, prefix_nil] at hmore
        rw [hmore, append_nil, take_of_length_le (hcontent ▸ hlen.le)]
      · have hne : e ≠ eof := by
          rintro rfl
          cases hends
        rw [hroom e he (.inr (hcontent ▸ hlen)) hne, hends] at hfail
        cases hfail

/-- **A call that succeeds** has stored what the source delivered, to its end and of an accepted type. -/
theorem stored_of_ok {f : File} (hkept : HeadKept script) (h : Returns lib p req store script out)
    (hok : out.file = .ok f) :
    ∃ object, out.object = some object ∧ object.bytes = delivered out.log ∧
      (delivered out.log).length ≤ p.maxBytes ∧ Accepted lib p (delivered out.log) ∧
      (∃ cs c, out.log = cs ++ [c] ∧ c.err = some eof) ∧
      ∀ c ∈ out.log, c.err = none ∨ c.err = some eof := by
  obtain ⟨fuel, h⟩ := h
  obtain ⟨head, st, hhead, ⟨e, -, rfl⟩ | ⟨hfail, ⟨e, -, rfl⟩ | ⟨_, res, left, st', htype, hput,
    ⟨e, -, -, -, herr⟩ | ⟨bytes, file, object, rfl, rfl, hbytes⟩⟩⟩⟩ := save_cases h
  · cases hok
  · cases hok
  · rw [herr] at hok
    cases hok
  · have hle := head_below hhead hfail
    obtain ⟨hheadBytes, hheadErrs, htake⟩ := head_of_headKept hkept hhead hfail
    obtain ⟨cs, hrun, hstored, -⟩ := readAll_multi hput
    obtain ⟨rest, last, rfl, hrest, hlast, hall⟩ := hstored bytes rfl
    have hle' : st'.read ≤ p.maxBytes := by
      by_contra hpast
      rcases mem_append.1 (tooLarge_of_run hrun hle (not_le.1 hpast)) with hmem | hmem
      · cases hrest _ hmem
      · obtain rfl := mem_singleton.1 hmem
        simp [tooLarge, eof] at hlast
    have hlog : Readers.log st' = st.log ++ (rest ++ [last]) := log_of_run hrun hle'
    have hdelivered : delivered (Readers.log st') = head.bytes ++ delivered (rest ++ [last]) := by
      rw [hlog, delivered_append, hheadBytes]
    obtain ⟨_, _, hrun₀, -⟩ := readFull_reads hhead (by decide)
    have hcount := (follows_run (follows_run (follows_init script) hrun₀) hrun).read
    refine ⟨object, rfl, ?_, hcount ▸ hle', ?_, ⟨st.log ++ rest, last, ?_, hlast⟩, fun c hc => ?_⟩
    · rw [hbytes, hall, nil_append]
      exact hdelivered.symm
    · refine accepted_of_checkType htype (Eq.trans ?_ (htake _ (content_of_run hrun hle' hrest).1))
      exact congrArg (take sniffBytes) hdelivered
    · rw [append_assoc]
      exact hlog
    · have hc : c ∈ st.log ++ (rest ++ [last]) := hlog ▸ hc
      simp only [mem_append, mem_singleton] at hc
      rcases hc with hc | hc | rfl
      exacts [hheadErrs c hc, .inl (hrest c hc), .inr hlast]

/-! ### Over the limit -/

theorem checkType_error {head : List UInt8} (h : checkType lib p head = .error e) :
    e.is .tooLarge = false := by
  simp only [checkType] at h
  split at h
  · cases h
    rfl
  · split at h
    · cases h
      simp
    · cases h

/-- The limit's error is still the limit's after `classify`. -/
theorem classify_tooLarge (herr : err.is .tooLarge = true)
    (hfailed : gone.isSome = true ∨ ∀ e, failed = some e → e.is .tooLarge = true) :
    (classify gone failed err).is .tooLarge = true := by
  cases gone with
  | some c =>
    simp only [classify, clientGone, Option.map_some]
    split <;> simp [herr]
  | none =>
    cases failed with
    | none => simpa [classify, clientGone] using herr
    | some e => simpa [classify, clientGone, hfailed.resolve_left (by simp) e rfl] using herr

/-- A source over the limit is refused for it: its type is accepted, unless the head is not even
filled, and it does not fail with the byte past the limit. -/
def LimitReported (lib : Library) (p : Policy) (req : Request) (script : List (Chunk Err)) : Prop :=
  (p.maxBytes < sniffBytes ∨
    ∃ contentType, checkType lib p ((content script).take sniffBytes) = .ok contentType) ∧
  (req.gone.isSome = true ∨ ∀ e, fillError (p.maxBytes + 1) script = some e →
    e.is .eof = true ∨ e.is .tooLarge = true)

theorem stopped_failed {st : Readers} (h : Stopped p.maxBytes script st)
    (hlimit : LimitReported lib p req script) :
    req.gone.isSome = true ∨ ∀ e, st.r.err = some e → e.is .tooLarge = true := by
  refine hlimit.2.imp_right fun hfill e he => ?_
  rw [h.2, remember, Option.none_or, Option.filter_eq_some_iff] at he
  exact (hfill e he.1).resolve_left (by simpa using he.2)

/-- **A source over the limit** fails with `ErrTooLarge` and stores nothing. -/
theorem returns_of_over (hown : ∀ k, store.own k = none)
    (hover : p.maxBytes < (content script).length) (hlimit : LimitReported lib p req script) :
    ∃ out e, Returns lib p req store script out ∧ out.object = none ∧ out.file = .error e ∧
      e.is .tooLarge = true := by
  have hsrc : limitReader p.maxBytes (sourceReader (logged offers)) = src p.maxBytes := rfl
  have hinit : (⟨⟨⟨script, []⟩, none⟩, 0, none⟩ : Readers) = Readers.init script := rfl
  have hfuel : scriptWeight (Readers.init script).script < sniffBytes + scriptWeight script + 1 := by
    simp only [Readers.init, Readers.script]
    omega
  obtain ⟨head, st, hhead, hle, ⟨herr, hstop⟩ | ⟨herr, hahead, hbytes, hcount, hw⟩⟩ :=
    ahead_readFull hover (ahead_init p.maxBytes script)
      (show [] = delivered (Readers.init script).log from rfl) (show 0 < sniffBytes by decide) hfuel
  · -- the head passes the limit
    have hfail : headFailed head.err = some (tooLarge p.maxBytes) := by
      rw [herr]
      rfl
    refine ⟨⟨.error (classify req.gone st.r.err (tooLarge p.maxBytes)), none, st⟩, _,
      ⟨sniffBytes + scriptWeight script + 1, ?_⟩, rfl, rfl,
      classify_tooLarge rfl (stopped_failed hstop hlimit)⟩
    simp only [save, hsrc, hinit, hhead, hfail]
  · -- the head is filled below it
    have hread : st.read = sniffBytes := by simpa [Readers.init] using hcount
    have hlarge : ¬p.maxBytes < sniffBytes := not_lt.2 (hread ▸ hahead.le)
    have htake : (content script).take sniffBytes = head.bytes := by
      rw [hahead.split, hbytes, take_left' (hahead.read.symm.trans hread)]
    have hfail : headFailed head.err = none := by
      rw [herr]
      rfl
    obtain ⟨contentType, htype⟩ := hlimit.1.resolve_left hlarge
    rw [htake] at htype
    have hfuel' : head.bytes.length + scriptWeight st.script <
        sniffBytes + scriptWeight script + 1 := by
      rw [hbytes, ← hahead.read, hread]
      simp only [Readers.init, Readers.script] at hw ⊢
      omega
    obtain ⟨left, st', hput, hstop⟩ := ahead_readAll hover store.sizes 0 [] hown hahead hfuel'
    refine ⟨⟨.error (putFailed lib req store (p.keyPrefix ++ req.id) st'.r.err
      (putError lib (p.keyPrefix ++ req.id) (tooLarge p.maxBytes))), none, st'⟩, _,
      ⟨sniffBytes + scriptWeight script + 1, ?_⟩, rfl, rfl, ?_⟩
    · simp only [save, hsrc, hinit, hhead, hfail, htype, hput]
    · have hknown : (putError lib (p.keyPrefix ++ req.id) (tooLarge p.maxBytes)).is
          .unknownOutcome = false := rfl
      rw [putFailed, hknown, if_neg (by simp)]
      exact classify_tooLarge rfl (stopped_failed hstop hlimit)

/-! ### Within the limit -/

/-- Nobody but the limit speaks of `ErrTooLarge`. -/
structure Quiet (req : Request) (store : Store) (script : List (Chunk Err)) : Prop where
  source : ∀ e, (∃ c ∈ script, c.err = some e) → e.is .tooLarge = false
  own : ∀ e, (∃ k, store.own k = some e) → e.is .tooLarge = false
  delete : ∀ e, store.deleteErr = some e → e.is .tooLarge = false
  gone : req.gone ≠ some .tooLarge

theorem classify_quiet (hgone : gone ≠ some .tooLarge)
    (hfailed : ∀ e, failed = some e → e.is .tooLarge = false) (herr : err.is .tooLarge = false) :
    (classify gone failed err).is .tooLarge = false := by
  cases gone with
  | some c =>
    have hc : c ≠ .tooLarge := fun h => hgone (by rw [h])
    simp only [classify, clientGone, Option.map_some]
    split <;> simp [herr, hc]
  | none =>
    cases failed with
    | none => simpa [classify, clientGone] using herr
    | some e => simp [classify, clientGone, hfailed e rfl]

theorem putFailed_quiet {key : String} (hquiet : Quiet req store script)
    (hfailed : ∀ e, failed = some e → e.is .tooLarge = false) (herr : err.is .tooLarge = false) :
    (putFailed lib req store key failed (putError lib key err)).is .tooLarge = false := by
  have hput : (putError lib key err).is .tooLarge = false := herr
  have hsettled : (settled lib key (putError lib key err)).is .tooLarge = false := by
    simp only [settled, putError, GoError.is_wrapped, GoError.is_sentinel, decide_eq_false_iff_not]
    unfold settledCause
    split_ifs <;> simp
  unfold putFailed
  split_ifs
  · cases hdelete : store.deleteErr with
    | none => exact classify_quiet hquiet.gone hfailed hsettled
    | some derr =>
      simp [classify_quiet hquiet.gone hfailed hput, hquiet.delete derr hdelete]
  · exact classify_quiet hquiet.gone hfailed hput

/-- **A source within the limit** is not refused for its size. -/
theorem not_tooLarge (hle : (delivered script).length ≤ p.maxBytes)
    (hquiet : Quiet req store script) (h : Returns lib p req store script out)
    (hout : out.file = .error e) : e.is .tooLarge = false := by
  have hbelow : ∀ st, Follows script st → st.read ≤ p.maxBytes := by
    intro st hf
    have hlen := congrArg List.length hf.bytes
    rw [length_append, ← hf.read] at hlen
    omega
  have hfailed : ∀ st, Follows script st → ∀ e, st.r.err = some e → e.is .tooLarge = false := by
    intro st hf e he
    obtain ⟨c, hc, hce⟩ := hf.failed e he
    exact hquiet.source e (hf.errs e ⟨c, mem_append_left _ hc, hce⟩)
  -- an error a run of reads returns is the script's
  have hsource : ∀ st st' cs e, Follows script st → Run (Reads (src p.maxBytes)) st cs st' →
      (∃ c ∈ cs, c.err = some e) → e.is .tooLarge = false := by
    rintro st st' cs e hf hrun ⟨c, hc, hce⟩
    have hf' := follows_run hf hrun
    refine hquiet.source e (hf'.errs e ⟨c, mem_append_left _ ?_, hce⟩)
    rw [log_of_run hrun (hbelow st' hf')]
    exact mem_append_right _ hc
  obtain ⟨fuel, h⟩ := h
  obtain ⟨head, st, hhead, hcases⟩ := save_cases h
  obtain ⟨cs, d, hrun, -, -, -, herr, -⟩ := readFull_reads hhead (by decide)
  have hf := follows_run (follows_init script) hrun
  obtain ⟨e', he', rfl⟩ | ⟨-, ⟨e', htype, rfl⟩ | ⟨_, res, left, st', -, hput,
    ⟨e', rfl, -, -, hfile⟩ | ⟨bytes, file, object, -, rfl, -⟩⟩⟩ := hcases
  · obtain rfl := Except.error.inj hout
    refine classify_quiet hquiet.gone (hfailed st hf) ?_
    rcases herr e' (Option.filter_eq_some_iff.1 he').1 with hd | ⟨-, rfl⟩
    · exact hsource _ _ _ e' (follows_init script) hrun ⟨d, by simp, hd⟩
    · rfl
  · obtain rfl := Except.error.inj hout
    exact checkType_error htype
  · obtain ⟨cs', hrun', -, herr'⟩ := readAll_multi hput
    have hf' := follows_run hf hrun'
    have he' : e'.is .tooLarge = false := by
      rcases herr' e' rfl with hown | hmem
      · exact hquiet.own e' hown
      · exact hsource _ _ _ e' hf hrun' hmem
    obtain rfl := Except.error.inj (hfile.symm.trans hout)
    exact putFailed_quiet hquiet (hfailed st' hf') he'
  · cases hout

/-! ### The promise -/

/-- **An upload stores the source or nothing.** A call that succeeds has stored what the source
delivered, within the limit and of an accepted type, and the source came to its end without an error;
one that fails has stored nothing; a source over the limit fails with `ErrTooLarge`, and one within it
is not refused for its size. -/
structure SourceOrNothing (lib : Library) (p : Policy) (req : Request) (store : Store)
    (script : List (Chunk Err)) : Prop where
  stored : ∀ out f, Returns lib p req store script out → out.file = .ok f →
    ∃ object, out.object = some object ∧ object.bytes = delivered out.log ∧
      (delivered out.log).length ≤ p.maxBytes ∧ Accepted lib p (delivered out.log) ∧
      (∃ cs c, out.log = cs ++ [c] ∧ c.err = some eof) ∧
      ∀ c ∈ out.log, c.err = none ∨ c.err = some eof
  nothing : ∀ out e, Returns lib p req store script out → out.file = .error e → out.object = none
  exceeds : (∀ k, store.own k = none) → p.maxBytes < (content script).length →
    ∃ out e, Returns lib p req store script out ∧ out.object = none ∧ out.file = .error e ∧
      e.is .tooLarge = true
  within : (delivered script).length ≤ p.maxBytes → Quiet req store script →
    ∀ out e, Returns lib p req store script out → out.file = .error e → e.is .tooLarge = false

theorem object_of_error (h : Returns lib p req store script out) (hout : out.file = .error e) :
    out.object = none := by
  obtain ⟨fuel, h⟩ := h
  obtain ⟨head, st, -, ⟨_, -, rfl⟩ | ⟨-, ⟨_, -, rfl⟩ | ⟨_, _, _, _, -, -,
    ⟨_, -, hobject, -, -⟩ | ⟨_, _, _, -, rfl, -⟩⟩⟩⟩ := save_cases h
  · rfl
  · rfl
  · exact hobject
  · cases hout

end Promise

/-- A policy that accepts every type, up to 1000 bytes. -/
def samplePolicy : Policy := ⟨1000, ["*/*"], "files/", none, []⟩

def sampleLibrary : Library where
  detectContentType _ := "application/octet-stream"
  parseMediaType := some
  validateContentType _ := none
  describe metadata filename := (metadata, filename)
  quote s := s

def sampleRequest : Request := ⟨"id", "", none⟩

def sampleStore : Store := ⟨fun _ => 511, fun _ => none, none⟩

/-- Two bytes, the second together with `io.EOF`. -/
def plainSource : List (Chunk Err) := [⟨[97], none⟩, ⟨[98], some eof⟩, ⟨[], some eof⟩]

theorem headKept_plainSource : HeadKept plainSource := by
  intro e he
  rw [show fillError sniffBytes plainSource = some eof by decide +kernel] at he
  cases he
  exact .inl ⟨rfl, fun _ => rfl⟩

/-- 512 bytes together with an error, and the end. -/
def brokenSource : List (Chunk Err) :=
  [⟨List.replicate 512 0, some (.sentinel (.other "connection reset"))⟩, ⟨[], some eof⟩]

/-- One byte of a truncated body, and the end. -/
def truncatedSource : List (Chunk Err) := [⟨[97], some unexpectedEOF⟩, ⟨[], some eof⟩]

/-- A call that succeeds after a read with an error other than `io.EOF` breaks the promise. -/
theorem not_sourceOrNothing {script : List (Chunk Err)} (fuel : ℕ)
    (hrun : ((save lib p req store (logged offers) fuel ⟨script, []⟩).map fun out =>
      (out.file.toOption.isSome, out.log.all fun c => c.err = none ∨ c.err = some eof)) =
        some (true, false)) :
    ¬SourceOrNothing lib p req store script := by
  intro h
  obtain ⟨out, hsave, hout⟩ := Option.map_eq_some_iff.1 hrun
  obtain ⟨hok, hlog⟩ := Prod.mk.inj hout
  cases hfile : out.file with
  | error e => simp [hfile, Except.toOption] at hok
  | ok f =>
    obtain ⟨-, -, -, -, -, -, herrs⟩ := h.stored out f ⟨fuel, hsave⟩ hfile
    have hall : (out.log.all fun c => decide (c.err = none ∨ c.err = some eof)) = true := by
      simpa [all_eq_true] using herrs
    rw [hall] at hlog
    cases hlog

end Gombit.Storage.Upload
