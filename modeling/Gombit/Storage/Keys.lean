import Gombit.Foundations.Json
import Gombit.Foundations.Utf8

/-!
# Object keys and the options of an object

The rules for the key of an object (`Problem`), and for the options of the URLs made for it
(`validateURLOptions`, `validateUploadURLOptions`), with what each refusal names.
-/

namespace Gombit.Storage

/-! ## Characters -/

/-- `UnsafeRune`: control characters, line and paragraph separators, bidirectional controls. -/
def unsafeRune (r : ℕ) : Bool :=
  r < 0x20 || (0x7f ≤ r && r ≤ 0x9f) || r = 0x2028 || r = 0x2029 || r = 0x61c || r = 0x200e ||
    r = 0x200f || (0x202a ≤ r && r ≤ 0x202e) || (0x2066 ≤ r && r ≤ 0x2069)

/-- The first character of the string that is unsafe. -/
def findUnsafe (s : Bytes) : Option ℕ := (runes s).findSome? fun r => r.filter unsafeRune

/-! ## Keys -/

def maxKeyBytes : ℕ := 1024

def maxSegmentBytes : ℕ := 255

/-- Why a string is no key. -/
inductive KeyProblem
  | empty
  | longerThan (bytes : ℕ)
  | notUTF8
  | startsWithSlash
  | endsWithSlash
  | backslash
  | controlCharacter (r : ℕ)
  | emptySegment
  | dotSegment (segment : Bytes)
  | segmentEndsWith (last : UInt8) (segment : Bytes)
  | segmentLongerThan (length bytes : ℕ)
deriving DecidableEq

def runeProblem : Option ℕ → Option KeyProblem
  | some r =>
    if r = 92 then some .backslash else if unsafeRune r then some (.controlCharacter r) else none
  | none => none

def segmentProblem (segment : Bytes) : Option KeyProblem :=
  match segment.getLast? with
  | none => some .emptySegment
  | some last =>
    if segment = ascii "." ∨ segment = ascii ".." then some (.dotSegment segment)
    else if last = 46 ∨ last = 32 then some (.segmentEndsWith last segment)
    else if maxSegmentBytes < segment.length then
      some (.segmentLongerThan segment.length maxSegmentBytes)
    else none

/-- `storagekey.Problem`: why the string is no key, if it is not. -/
def problem (key : Bytes) : Option KeyProblem :=
  if key = [] then some .empty
  else if maxKeyBytes < key.length then some (.longerThan maxKeyBytes)
  else if validUTF8 key = false then some .notUTF8
  else if key.head? = some 47 then some .startsWithSlash
  else if key.getLast? = some 47 then some .endsWithSlash
  else ((runes key).findSome? runeProblem).or ((key.splitOn 47).findSome? segmentProblem)

/-- `IsPublic`: the key is under the public prefix, and there is one. -/
def isPublic (publicPrefix key : Bytes) : Bool :=
  !publicPrefix.isEmpty && publicPrefix.isPrefixOf key

/-- The bytes that `EscapeKey` keeps: letters, digits, `-`, `.`, `_`, `~` and `/`. -/
def isUnreserved (c : UInt8) : Bool :=
  (97 ≤ c && c ≤ 122) || (65 ≤ c && c ≤ 90) || (48 ≤ c && c ≤ 57) || c = 45 || c = 46 || c = 95 ||
    c = 126 || c = 47

/-- `EscapeKey`: the key as the path of a URL. -/
def escapeKey (key : Bytes) : Bytes := percentEscape isUnreserved key

/-! ## Options -/

/-- A second, in nanoseconds. -/
def second : ℤ := 1000000000

/-- `MaxURLExpiry`: seven days. -/
def maxURLExpiry : ℤ := 7 * 24 * 60 * 60 * second

def maxContentTypeBytes : ℕ := 256

def maxMetadataBytes : ℕ := 2048

/-- Why options are refused. -/
inductive OptionsProblem
  | lifetimeNotPositive (expires : ℤ)
  | lifetimeNotWholeSeconds (expires : ℤ)
  | publicLifetime
  | lifetimeTooLong (expires : ℤ)
  | negativeSize (size : Int64)
  | contentTypeLength (bytes : ℕ)
  | contentTypeControl (contentType : Bytes) (r : ℕ)
  | contentTypeSyntax (contentType : Bytes)
  | contentTypeShape (contentType : Bytes)
  | emptyMetadataName
  | metadataName (name : Bytes)
  | metadataNotUTF8 (name : Bytes)
  | metadataSpaces (name : Bytes)
  | metadataControl (name : Bytes) (r : ℕ)
  | metadataEncodedWord (name : Bytes)
  | metadataLength (bytes : ℕ)
deriving DecidableEq

/-- `URLOptions`: a signed URL with its lifetime in nanoseconds, or a public one. -/
structure URLOptions where
  signed : Bool
  expires : ℤ

/-- `ValidateURLOptions`. -/
def validateURLOptions (opts : URLOptions) : Option OptionsProblem :=
  if opts.signed ∧ opts.expires ≤ 0 then some (.lifetimeNotPositive opts.expires)
  else if opts.signed ∧ opts.expires % second ≠ 0 then some (.lifetimeNotWholeSeconds opts.expires)
  else if !opts.signed ∧ opts.expires ≠ 0 then some .publicLifetime
  else if maxURLExpiry < opts.expires then some (.lifetimeTooLong opts.expires)
  else none

/-- What the standard library does with media types and header words. -/
structure Mime where
  /-- The type and subtype that `ParseMediaType` reads, if it reads the text. -/
  parseMediaType : Bytes → Option Bytes
  /-- The length of the text in words of RFC 2047. -/
  encodedLength : Bytes → ℕ

/-- `MetadataValueWireLen`. -/
def metadataValueWireLen (mime : Mime) (value : Bytes) : ℕ :=
  if value.any fun c => c < 0x20 || 0x7e < c then mime.encodedLength value else value.length

/-- The checks on one entry of the metadata. -/
def metadataProblem (e : Bytes × Bytes) : Option OptionsProblem :=
  if e.1 = [] then some .emptyMetadataName
  else if e.1.any fun c => (c < 97 || 122 < c) && (c < 48 || 57 < c) && c ≠ 45 then
    some (.metadataName e.1)
  else if validUTF8 e.2 = false then some (.metadataNotUTF8 e.1)
  else if e.2.head? = some 32 ∨ e.2.getLast? = some 32 then some (.metadataSpaces e.1)
  else
    match findUnsafe e.2 with
    | some r => some (.metadataControl e.1 r)
    | none => if ascii "=?" <:+: e.2 then some (.metadataEncodedWord e.1) else none

/-- `ValidateMetadata`, its entries taken in order. -/
def validateMetadata (mime : Mime) (md : StringMap) : Option OptionsProblem :=
  let total := (md.entries.map fun e =>
    (ascii "x-amz-meta-").length + e.1.length + metadataValueWireLen mime e.2).sum
  (md.entries.findSome? metadataProblem).or
    (if maxMetadataBytes < total then some (.metadataLength total) else none)

/-- The type and the subtype of a media type are there, and there is one of each. -/
def isTypeSubtype (mediaType : Bytes) : Bool :=
  match mediaType.splitOn 47 with
  | [t, sub] => !t.isEmpty && !sub.isEmpty
  | _ => false

/-- The checks on a content type; none is fine. -/
def contentTypeProblem (mime : Mime) (contentType : Bytes) : Option OptionsProblem :=
  if maxContentTypeBytes < contentType.length then some (.contentTypeLength contentType.length)
  else
    match findUnsafe contentType with
    | some r => some (.contentTypeControl contentType r)
    | none =>
      if contentType = [] then none
      else
        match mime.parseMediaType contentType with
        | none => some (.contentTypeSyntax contentType)
        | some mediaType =>
          if isTypeSubtype mediaType then none else some (.contentTypeShape contentType)

/-- `UploadURLOptions`: the object that an upload will store. -/
structure UploadURLOptions where
  expires : ℤ
  size : Int64
  contentType : Bytes
  metadata : StringMap

/-- `ValidateUploadURLOptions`. -/
def validateUploadURLOptions (mime : Mime) (opts : UploadURLOptions) : Option OptionsProblem :=
  (validateURLOptions ⟨true, opts.expires⟩).or
    (if opts.size < 0 then some (.negativeSize opts.size)
    else (contentTypeProblem mime opts.contentType).or (validateMetadata mime opts.metadata))

/-! ## The key in a URL -/

/-- **The path of a URL gives back the key.** -/
theorem percentUnescape_escapeKey (key : Bytes) : percentUnescape (escapeKey key) = some key :=
  percentUnescape_percentEscape (by decide) key

/-- A key in a URL neither starts the query nor the fragment. -/
theorem mem_escapeKey {key : Bytes} {b : UInt8} (h : b ∈ escapeKey key) : b ≠ 63 ∧ b ≠ 35 := by
  rcases mem_percentEscape h with hkeep | rfl | ⟨n, hn, rfl⟩
  · constructor <;>
    · rintro rfl
      exact absurd hkeep (by decide)
  · decide
  · interval_cases n <;> decide

end Gombit.Storage
