import Gombit.Storage.Keys

/-!
# Signed URLs

A signer makes the URLs under which the application serves its objects (`Signer.url`,
`Signer.uploadURL`), and checks the requests that come back (`Signer.verify`,
`Signer.verifyUpload`). A signature is the HMAC of a message that names its kind, the scope, the
path, the key and what is granted, each part after its length.

`Grant` is what a signature is about, and `Grant.message` its message: different grants have
different messages (`Grant.message_injective`).
-/

namespace Gombit.Storage

/-! ## Signing -/

inductive Error
  | invalidKey (p : KeyProblem)
  | invalidOptions (p : OptionsProblem)
  | notPublic
  | expired
  | signature
deriving DecidableEq

/-- A signer: the base of its URLs, the path of the base, the public prefix and the scope. Its secret
is the key of the HMAC. -/
structure Signer where
  base : Bytes
  path : Bytes
  publicPrefix : Bytes
  scope : Bytes

/-- The message about a key. -/
def Signer.message (s : Signer) (kind key : Bytes) (parts : List Bytes) : Bytes :=
  frames ([kind, s.scope, s.path, key] ++ parts)

/-- `mac`: the signature of a message about a key. -/
def Signer.mac (hmac : Bytes → Bytes) (s : Signer) (kind key : Bytes) (parts : List Bytes) : Bytes :=
  base64 (hmac (s.message kind key parts))

def urlKind : Bytes := ascii "gombit-storage-url-v2"

def uploadKind : Bytes := ascii "gombit-storage-upload-v1"

/-- `sign`: the signature of a URL that reads the key. -/
def Signer.sign (hmac : Bytes → Bytes) (s : Signer) (key expires : Bytes) : Bytes :=
  s.mac hmac urlKind key [expires]

/-- `expiry`: the second at which a URL made now expires. -/
def expiry (now ttl : ℤ) : Int64 := Int64.ofInt (now / second) + Int64.ofInt (ttl.tdiv second)

/-- `URL`: the URL of a key. -/
def Signer.url (hmac : Bytes → Bytes) (s : Signer) (now : ℤ) (key : Bytes) (opts : URLOptions) :
    Except Error Bytes :=
  match problem key with
  | some p => .error (.invalidKey p)
  | none =>
    match validateURLOptions opts with
    | some p => .error (.invalidOptions p)
    | none =>
      let u := s.base ++ 47 :: escapeKey key
      if opts.signed then
        let e := formatInt (expiry now opts.expires)
        .ok (u ++ ascii "?expires=" ++ e ++ ascii "&signature=" ++ s.sign hmac key e)
      else if isPublic s.publicPrefix key then .ok u
      else .error .notPublic

/-! ## Uploads -/

def defaultContentType : Bytes := ascii "application/octet-stream"

/-- The content type of an upload: what the options say, or the default. -/
def contentTypeOf (opts : UploadURLOptions) : Bytes :=
  if opts.contentType = [] then defaultContentType else opts.contentType

/-- `encodeMetadata`: base64 of JSON, and nothing for none. -/
def encodeMetadata (md : StringMap) : Bytes := if md.entries = [] then [] else base64 (marshal md)

/-- `url.QueryEscape`: a space is a plus sign, and letters, digits, `-`, `.`, `_` and `~` are kept. -/
def queryEscape (s : Bytes) : Bytes :=
  (percentEscape (fun c => c = 32 || (isUnreserved c && c ≠ 47)) s).map fun c => if c = 32 then 43 else c

/-- `url.Values.Encode` of single values whose names are in order. -/
def encodeQuery (q : List (Bytes × Bytes)) : Bytes :=
  [38].intercalate (q.map fun e => queryEscape e.1 ++ 61 :: queryEscape e.2)

/-- `UploadRequest`: the method, the URL, the content type header and the expiry of an upload. -/
structure UploadRequest where
  method : Bytes
  url : Bytes
  contentType : Bytes
  expires : Int64

/-- The parameters of an upload URL. -/
@[ext] structure UploadQuery where
  expires : Bytes
  size : Bytes
  type : Bytes
  metadata : Bytes
  signature : Bytes

/-- The parameters in the order of their names; no `meta` for no metadata. -/
def UploadQuery.values (q : UploadQuery) : List (Bytes × Bytes) :=
  [(ascii "expires", q.expires)] ++
    (if q.metadata = [] then [] else [(ascii "meta", q.metadata)]) ++
    [(ascii "signature", q.signature), (ascii "size", q.size), (ascii "type", q.type)]

/-- The parameters of an upload of the key made now. -/
def Signer.uploadQuery (hmac : Bytes → Bytes) (s : Signer) (now : ℤ) (key : Bytes)
    (opts : UploadURLOptions) : UploadQuery :=
  let e := formatInt (expiry now opts.expires)
  let size := formatInt opts.size
  let contentType := contentTypeOf opts
  let metadata := encodeMetadata opts.metadata
  { expires := e
    size := size
    type := contentType
    metadata := metadata
    signature := s.mac hmac uploadKind key [e, size, contentType, metadata] }

/-- `UploadURL`: a request that stores one object under the key. -/
def Signer.uploadURL (hmac : Bytes → Bytes) (mime : Mime) (s : Signer) (now : ℤ) (key : Bytes)
    (opts : UploadURLOptions) : Except Error UploadRequest :=
  match problem key with
  | some p => .error (.invalidKey p)
  | none =>
    match validateUploadURLOptions mime opts with
    | some p => .error (.invalidOptions p)
    | none =>
      .ok
        { method := ascii "PUT"
          url := s.base ++ 47 :: escapeKey key ++ 63 ::
            encodeQuery (s.uploadQuery hmac now key opts).values
          contentType := contentTypeOf opts
          expires := expiry now opts.expires }

/-! ## Checking -/

/-- `url.Values`: the values given for each name. -/
abbrev Values := Bytes → Option (List Bytes)

/-- The values given for a name, none if the name is not there. -/
def Values.all (q : Values) (name : Bytes) : List Bytes := (q name).getD []

/-- `Values.Get`: the first value, or the empty one. -/
def Values.get (q : Values) (name : Bytes) : Bytes := (q.all name).headD []

/-- `Verify`: whether a request for the key may read it. -/
def Signer.verify (hmac : Bytes → Bytes) (s : Signer) (now : ℤ) (key : Bytes) (q : Values) :
    Except Error Unit :=
  if q (ascii "signature") = none ∧ q (ascii "expires") = none ∧ isPublic s.publicPrefix key then
    .ok ()
  else
    let e := q.get (ascii "expires")
    let sig := q.get (ascii "signature")
    if (q.all (ascii "expires")).length ≠ 1 ∨ (q.all (ascii "signature")).length ≠ 1 then
      .error .signature
    else
      match readInt e with
      | none => .error .signature
      | some expires =>
        if expires ≤ 0 then .error .signature
        else if sig ≠ s.sign hmac key e then .error .signature
        else if now < expires.toInt * second then .ok ()
        else .error .expired

/-- `grant`: what an upload may store, and until when it may start. -/
structure Upload where
  size : Int64
  contentType : Bytes
  metadata : StringMap
  expires : Int64
deriving DecidableEq

/-- The metadata that an upload URL carries. -/
def decodeMetadata (md : Bytes) : Option StringMap :=
  if md = [] then some StringMap.empty else (unbase64 md).bind unmarshal

/-- `verifyUpload`: what a request may store under the key. -/
def Signer.verifyUpload (hmac : Bytes → Bytes) (s : Signer) (now : ℤ) (key : Bytes) (q : Values) :
    Except Error Upload :=
  if [ascii "expires", ascii "size", ascii "type", ascii "signature"].any fun name =>
      (q.all name).length ≠ 1 then
    .error .signature
  else if 1 < (q.all (ascii "meta")).length then .error .signature
  else
    let e := q.get (ascii "expires")
    let size := q.get (ascii "size")
    let contentType := q.get (ascii "type")
    let metadata := q.get (ascii "meta")
    if q.get (ascii "signature") ≠ s.mac hmac uploadKind key [e, size, contentType, metadata] then
      .error .signature
    else
      match readInt e with
      | none => .error .signature
      | some expires =>
        if now < expires.toInt * second then
          match readInt size with
          | none => .error .signature
          | some n =>
            if n < 0 then .error .signature
            else
              match decodeMetadata metadata with
              | none => .error .signature
              | some md => .ok ⟨n, contentType, md, expires⟩
        else .error .expired

/-! ## What a signature is about -/

/-- What a signature grants: reading the key until the expiry, or storing one object there. -/
inductive Grant
  | read (scope path key : Bytes) (expires : Int64)
  | upload (scope path key : Bytes) (expires size : Int64) (contentType : Bytes)
      (metadata : StringMap)
deriving DecidableEq

/-- The message that is signed for the grant. -/
def Grant.message : Grant → Bytes
  | .read scope path key expires => frames [urlKind, scope, path, key, formatInt expires]
  | .upload scope path key expires size contentType metadata =>
    frames [uploadKind, scope, path, key, formatInt expires, formatInt size, contentType,
      encodeMetadata metadata]

/-- The signature of the grant. -/
def Grant.signature (hmac : Bytes → Bytes) (g : Grant) : Bytes := base64 (hmac g.message)

@[simp] theorem decodeMetadata_encodeMetadata (md : StringMap) :
    decodeMetadata (encodeMetadata md) = some md := by
  unfold encodeMetadata
  split
  · rename_i h
    rw [decodeMetadata, if_pos rfl]
    exact congrArg some (StringMap.ext h.symm)
  · have hne : base64 (marshal md) ≠ [] := by
      intro h
      have hread := unbase64_base64 (marshal md)
      rw [h] at hread
      cases hread
    rw [decodeMetadata, if_neg hne, unbase64_base64, Option.bind_some, unmarshal_marshal]

theorem encodeMetadata_injective : Function.Injective encodeMetadata := by
  intro md md' h
  have hread := decodeMetadata_encodeMetadata md
  rw [h, decodeMetadata_encodeMetadata] at hread
  exact (Option.some.inj hread).symm

theorem urlKind_ne_uploadKind : urlKind ≠ uploadKind := by
  decide

section Messages

variable {scope path key e size contentType metadata : Bytes} {g : Grant}

/-- The only message that reads the key. -/
theorem eq_read_of_message (h : g.message = frames [urlKind, scope, path, key, e]) :
    ∃ expires, g = .read scope path key expires ∧ e = formatInt expires := by
  cases g with
  | read scope' path' key' expires' =>
    have hparts := frames_injective h
    simp only [List.cons.injEq, true_and, and_true] at hparts
    obtain ⟨rfl, rfl, rfl, rfl⟩ := hparts
    exact ⟨expires', rfl, rfl⟩
  | upload scope' path' key' expires' size' contentType' metadata' =>
    exact absurd (List.cons.inj (frames_injective h)).1.symm urlKind_ne_uploadKind

theorem eq_upload_of_message
    (h : g.message = frames [uploadKind, scope, path, key, e, size, contentType, metadata]) :
    ∃ expires n md, g = .upload scope path key expires n contentType md ∧ e = formatInt expires ∧
      size = formatInt n ∧ metadata = encodeMetadata md := by
  cases g with
  | read scope' path' key' expires' =>
    exact absurd (List.cons.inj (frames_injective h)).1 urlKind_ne_uploadKind
  | upload scope' path' key' expires' size' contentType' metadata' =>
    have hparts := frames_injective h
    simp only [List.cons.injEq, true_and, and_true] at hparts
    obtain ⟨rfl, rfl, rfl, rfl, rfl, rfl, rfl⟩ := hparts
    exact ⟨expires', size', metadata', rfl, rfl, rfl, rfl⟩

end Messages

/-- **Different grants have different messages.** -/
theorem Grant.message_injective : Function.Injective Grant.message := by
  intro g g' h
  cases g' with
  | read scope path key expires =>
    obtain ⟨expires', rfl, hexpires⟩ := eq_read_of_message h
    rw [formatInt_injective hexpires]
  | upload scope path key expires size contentType metadata =>
    obtain ⟨expires', size', metadata', rfl, hexpires, hsize, hmetadata⟩ := eq_upload_of_message h
    rw [formatInt_injective hexpires, formatInt_injective hsize, encodeMetadata_injective hmetadata]

end Gombit.Storage
