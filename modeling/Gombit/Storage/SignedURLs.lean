import Gombit.Storage.Presign

/-!
# Signed URLs authorise what was signed

`Call` is a URL made by one of the signers that share a secret, and `Call.grant` what it signs.

* `verify_of_readURL`, `verifyUpload_of_uploadURL`: a URL that was made for the key is accepted until it
  expires, and an upload may store what the URL was made for.
* `made_of_verify`, `made_of_verifyUpload`: nothing else is accepted, if the request's tag verifies only
  for a message that was signed (`Unforgeable`).
* `signed_urls` puts them together: signatures of different grants differ, and the path of a URL
  gives back its key.

A signer refuses an expiry that is not after the Unix epoch, and takes an upload without a content
type for one with the default: `before_the_epoch`.
-/

namespace Gombit.Storage

open List

variable {hmac : Bytes → Bytes} {mime : Mime} {s : Signer} {now : ℤ} {key : Bytes} {q : Values}

/-! ## The URLs made -/

/-- A URL that a signer made, and when. -/
inductive Call
  | read (s : Signer) (now : ℤ) (key : Bytes) (opts : URLOptions)
  | upload (s : Signer) (now : ℤ) (key : Bytes) (opts : UploadURLOptions)

/-- What the call signs, if it is not refused. -/
def Call.grant (mime : Mime) : Call → Option Grant
  | .read s now key opts =>
    if problem key = none ∧ validateURLOptions opts = none ∧ opts.signed then
      some (.read s.scope s.path key (expiry now opts.expires))
    else none
  | .upload s now key opts =>
    if problem key = none ∧ validateUploadURLOptions mime opts = none then
      some (.upload s.scope s.path key (expiry now opts.expires) opts.size (contentTypeOf opts)
        opts.metadata)
    else none

/-- The grant was signed by one of the calls. -/
def Made (mime : Mime) (calls : List Call) (g : Grant) : Prop := ∃ c ∈ calls, c.grant mime = some g

/-- The messages that a signer computes for a request: as one that reads the key, and as one that
stores an object there. -/
def Signer.messages (s : Signer) (key : Bytes) (q : Values) : List Bytes :=
  [s.message urlKind key [q.get (ascii "expires")],
    s.message uploadKind key [q.get (ascii "expires"), q.get (ascii "size"), q.get (ascii "type"),
      q.get (ascii "meta")]]

/-- The tag of a request verifies only if its message was signed, and no two messages that were signed
share a tag. -/
structure Unforgeable (hmac : Bytes → Bytes) (mime : Mime) (calls : List Call) (s : Signer)
    (key : Bytes) (q : Values) : Prop where
  made : ∀ m ∈ s.messages key q, base64 (hmac m) ∈ q.all (ascii "signature") →
    ∃ g, Made mime calls g ∧ g.message = m
  distinct : ∀ g g', Made mime calls g → Made mime calls g' → hmac g.message = hmac g'.message →
    g.message = g'.message

variable {now' : ℤ}

theorem url_of_grant (hmac : Bytes → Bytes) {opts : URLOptions} {g : Grant}
    (h : (Call.read s now' key opts).grant mime = some g) :
    g = .read s.scope s.path key (expiry now' opts.expires) ∧ opts.signed = true ∧
      s.url hmac now' key opts = .ok (s.base ++ 47 :: escapeKey key ++ ascii "?expires=" ++
        formatInt (expiry now' opts.expires) ++ ascii "&signature=" ++ g.signature hmac) := by
  rw [Call.grant] at h
  split_ifs at h
  rename_i hvalid
  obtain ⟨hkey, hopts, hsigned⟩ := hvalid
  obtain rfl := (Option.some.inj h).symm
  refine ⟨rfl, hsigned, ?_⟩
  simp only [Signer.url, hkey, hopts, hsigned, if_true]
  rfl

variable {opts : UploadURLOptions}

variable {req : UploadRequest} {expires : Int64} {g : Upload}

/-- An upload that is not refused has a size. -/
theorem size_nonneg (h : s.uploadURL hmac mime now' key opts = .ok req) :
    0 ≤ opts.size.toInt := by
  rw [Signer.uploadURL] at h
  split at h
  · cases h
  split at h
  · cases h
  rename_i hopts
  rw [validateUploadURLOptions, Option.or_eq_none_iff] at hopts
  have hsize := hopts.2
  split at hsize
  · cases hsize
  · rename_i hneg
    rw [Int64.lt_iff_toInt_lt, not_lt] at hneg
    exact hneg

theorem uploadURL_of_grant (hmac : Bytes → Bytes) {g : Grant}
    (h : (Call.upload s now' key opts).grant mime = some g) :
    g = .upload s.scope s.path key (expiry now' opts.expires) opts.size (contentTypeOf opts)
        opts.metadata ∧
      (s.uploadQuery hmac now' key opts).signature = g.signature hmac ∧
      ∃ req, s.uploadURL hmac mime now' key opts = .ok req := by
  rw [Call.grant] at h
  split_ifs at h
  rename_i hvalid
  obtain ⟨hkey, hopts⟩ := hvalid
  obtain rfl := (Option.some.inj h).symm
  refine ⟨rfl, rfl, ?_⟩
  simp only [Signer.uploadURL, hkey, hopts]
  exact ⟨_, rfl⟩

/-! ## Reading -/

/-- The request is for a private key, or carries a signature or an expiry. -/
def Signed (s : Signer) (key : Bytes) (q : Values) : Prop :=
  isPublic s.publicPrefix key = false ∨ (q (ascii "signature")).isSome ∨ (q (ascii "expires")).isSome

theorem Values.get_eq {name v : Bytes} (h : q.all name = [v]) : q.get name = v := by
  rw [Values.get, h]
  rfl

/-- A signed request may read the key exactly if its signature is that of its expiry. -/
theorem verify_eq_ok (h : Signed s key q) :
    s.verify hmac now key q = .ok () ↔
      ∃ e sig expires, q.all (ascii "expires") = [e] ∧ q.all (ascii "signature") = [sig] ∧
        readInt e = some expires ∧ 0 < expires.toInt ∧ sig = s.sign hmac key e ∧
        now < expires.toInt * second := by
  have hsigned : ¬ (q (ascii "signature") = none ∧ q (ascii "expires") = none ∧
      isPublic s.publicPrefix key = true) := by
    rintro ⟨hsig, hexp, hpublic⟩
    rcases h with h | h | h
    · rw [hpublic] at h
      cases h
    · rw [hsig] at h
      cases h
    · rw [hexp] at h
      cases h
  rw [Signer.verify, if_neg hsigned]
  dsimp only
  constructor
  · intro hok
    split at hok
    · cases hok
    rename_i hone
    rw [not_or, not_not, not_not, length_eq_one_iff, length_eq_one_iff] at hone
    obtain ⟨⟨e, he⟩, sig, hsig⟩ := hone
    rw [Values.get_eq he, Values.get_eq hsig] at hok
    split at hok
    · cases hok
    rename_i expires hread
    split at hok
    · cases hok
    rename_i hpos
    split at hok
    · cases hok
    rename_i htag
    split at hok
    · rename_i hnow
      rw [Int64.le_iff_toInt_le, not_le] at hpos
      exact ⟨e, sig, expires, he, hsig, hread, hpos, not_not.1 htag, hnow⟩
    · cases hok
  · rintro ⟨e, sig, expires, he, hsig, hread, hpos, htag, hnow⟩
    have hle : ¬ expires ≤ 0 := by
      rw [Int64.le_iff_toInt_le, not_le]
      exact hpos
    simp [he, hsig, Values.get_eq he, Values.get_eq hsig, hread, hle, htag, hnow]

variable {calls : List Call}

/-- The query carries the one expiry and the one signature of a URL that a signer of the same scope and
path made to read the key. -/
def ReadURL (hmac : Bytes → Bytes) (calls : List Call) (s : Signer) (key : Bytes) (q : Values)
    (expires : Int64) : Prop :=
  ∃ s' now' opts sig, Call.read s' now' key opts ∈ calls ∧ s'.scope = s.scope ∧ s'.path = s.path ∧
    opts.signed = true ∧ expires = expiry now' opts.expires ∧
    sig = s'.sign hmac key (formatInt expires) ∧
    s'.url hmac now' key opts = .ok (s'.base ++ 47 :: escapeKey key ++ ascii "?expires=" ++
      formatInt expires ++ ascii "&signature=" ++ sig) ∧
    q.all (ascii "expires") = [formatInt expires] ∧ q.all (ascii "signature") = [sig]

theorem mac_congr {s' : Signer} (hscope : s'.scope = s.scope) (hpath : s'.path = s.path)
    (kind : Bytes) (parts : List Bytes) : s'.mac hmac kind key parts = s.mac hmac kind key parts := by
  simp only [Signer.mac, Signer.message, hscope, hpath]

theorem signed_of_signature {sig : Bytes} (h : q.all (ascii "signature") = [sig]) :
    Signed s key q := by
  refine .inr (.inl ?_)
  rw [Values.all] at h
  cases hq : q (ascii "signature") with
  | none => simp [hq] at h
  | some l => rfl

/-- **A URL that reads the key is accepted** until it expires, if it does so after the epoch. -/
theorem verify_of_readURL (h : ReadURL hmac calls s key q expires)
    (hpos : 0 < expires.toInt) (hnow : now < expires.toInt * second) :
    s.verify hmac now key q = .ok () := by
  obtain ⟨s', now', opts, sig, -, hscope, hpath, -, -, rfl, -, he, hsig⟩ := h
  exact (verify_eq_ok (signed_of_signature hsig)).2
    ⟨_, _, _, he, hsig, readInt_formatInt _, hpos, mac_congr hscope hpath _ _, hnow⟩

/-- **Reading.** What may read the key was signed for it, the scope and the path. -/
theorem made_of_verify (hforge : Unforgeable hmac mime calls s key q) (hsigned : Signed s key q)
    (h : s.verify hmac now key q = .ok ()) :
    ∃ expires, Made mime calls (.read s.scope s.path key expires) ∧
      q.all (ascii "expires") = [formatInt expires] ∧
      q.all (ascii "signature") = [(Grant.read s.scope s.path key expires).signature hmac] ∧
      0 < expires.toInt ∧ now < expires.toInt * second := by
  obtain ⟨e, sig, expires, he, hsig, hread, hpos, rfl, hnow⟩ := (verify_eq_ok hsigned).1 h
  have hmem : s.message urlKind key [e] ∈ s.messages key q := by
    rw [Signer.messages, Values.get_eq he]
    exact mem_cons_self
  obtain ⟨g, hmade, hmessage⟩ := hforge.made _ hmem (hsig ▸ mem_singleton_self _)
  obtain ⟨expires', rfl, rfl⟩ := eq_read_of_message hmessage
  rw [readInt_formatInt, Option.some.injEq] at hread
  subst hread
  exact ⟨expires', hmade, he, hsig, hpos, hnow⟩

theorem readURL_of_made (hmade : Made mime calls (.read s.scope s.path key expires))
    (he : q.all (ascii "expires") = [formatInt expires])
    (hsig : q.all (ascii "signature") = [(Grant.read s.scope s.path key expires).signature hmac]) :
    ReadURL hmac calls s key q expires := by
  obtain ⟨c, hc, hgrant⟩ := hmade
  cases c with
  | upload s' now' key' opts =>
    obtain ⟨hgrant, -⟩ := uploadURL_of_grant hmac hgrant
    cases hgrant
  | read s' now' key' opts =>
    obtain ⟨hread, hopts, hurl⟩ := url_of_grant hmac hgrant
    simp only [Grant.read.injEq] at hread
    obtain ⟨hscope, hpath, rfl, rfl⟩ := hread
    exact ⟨s', now', opts, _, hc, hscope.symm, hpath.symm, hopts, rfl,
      (mac_congr hscope.symm hpath.symm _ _).symm, hurl, he, hsig⟩

/-! ## Uploading -/

/-- The query carries the parameters of an upload URL, each once; the metadata at most once. -/
structure Carries (q : Values) (u : UploadQuery) : Prop where
  expires : q.all (ascii "expires") = [u.expires]
  size : q.all (ascii "size") = [u.size]
  type : q.all (ascii "type") = [u.type]
  signature : q.all (ascii "signature") = [u.signature]
  metadata_once : (q.all (ascii "meta")).length ≤ 1
  metadata : q.get (ascii "meta") = u.metadata

/-- A request may store an object exactly if its signature is that of its parameters. -/
theorem verifyUpload_eq_ok :
    s.verifyUpload hmac now key q = .ok g ↔
      ∃ u : UploadQuery, Carries q u ∧
        u.signature = s.mac hmac uploadKind key [u.expires, u.size, u.type, u.metadata] ∧
        readInt u.expires = some g.expires ∧ now < g.expires.toInt * second ∧
        readInt u.size = some g.size ∧ 0 ≤ g.size.toInt ∧ u.type = g.contentType ∧
        decodeMetadata u.metadata = some g.metadata := by
  constructor
  · intro hok
    rw [Signer.verifyUpload] at hok
    dsimp only at hok
    split at hok
    · cases hok
    rename_i hone
    simp only [any_cons, any_nil, Bool.or_false, Bool.not_eq_true, Bool.or_eq_false_iff,
      decide_eq_false_iff_not, not_not, length_eq_one_iff] at hone
    obtain ⟨⟨e, he⟩, ⟨size, hsize⟩, ⟨contentType, htype⟩, sig, hsig⟩ := hone
    split at hok
    · cases hok
    rename_i hmeta
    rw [Values.get_eq he, Values.get_eq hsize, Values.get_eq htype, Values.get_eq hsig] at hok
    split at hok
    · cases hok
    rename_i htag
    split at hok
    · cases hok
    rename_i expires hexpires
    split at hok
    swap
    · cases hok
    rename_i hnow
    split at hok
    · cases hok
    rename_i n hn
    split at hok
    · cases hok
    rename_i hneg
    split at hok
    · cases hok
    rename_i md hmd
    obtain rfl := Except.ok.inj hok
    rw [Int64.lt_iff_toInt_lt, not_lt] at hneg
    exact ⟨⟨e, size, contentType, q.get (ascii "meta"), sig⟩,
      ⟨he, hsize, htype, hsig, not_lt.1 hmeta, rfl⟩, not_not.1 htag, hexpires, hnow, hn, hneg, rfl, hmd⟩
  · rintro ⟨u, hu, htag, hexpires, hnow, hn, hneg, htype, hmd⟩
    have hsize : ¬ g.size < 0 := by
      rw [Int64.lt_iff_toInt_lt, not_lt]
      exact hneg
    simp [Signer.verifyUpload, hu.expires, hu.size, hu.type, hu.signature, Values.get_eq hu.expires,
      Values.get_eq hu.size, Values.get_eq hu.type, Values.get_eq hu.signature, hu.metadata,
      not_lt.2 hu.metadata_once, htag, hexpires, hnow, hn, hsize, hmd, htype]

/-- The query carries the parameters of an upload URL that a signer of the same scope and path made for
the key, and `g` is what the URL was made for. -/
def UploadURL (hmac : Bytes → Bytes) (mime : Mime) (calls : List Call) (s : Signer) (key : Bytes)
    (q : Values) (g : Upload) : Prop :=
  ∃ s' now' opts req, Call.upload s' now' key opts ∈ calls ∧ s'.scope = s.scope ∧ s'.path = s.path ∧
    s'.uploadURL hmac mime now' key opts = .ok req ∧ Carries q (s'.uploadQuery hmac now' key opts) ∧
    g = ⟨opts.size, contentTypeOf opts, opts.metadata, expiry now' opts.expires⟩

/-- **An upload URL is accepted** until it expires, for what it was made for. -/
theorem verifyUpload_of_uploadURL (h : UploadURL hmac mime calls s key q g)
    (hnow : now < g.expires.toInt * second) : s.verifyUpload hmac now key q = .ok g := by
  obtain ⟨s', now', opts, req, -, hscope, hpath, hreq, hu, rfl⟩ := h
  exact verifyUpload_eq_ok.2 ⟨_, hu, mac_congr hscope hpath _ _, readInt_formatInt _, hnow,
    readInt_formatInt _, size_nonneg hreq, rfl, decodeMetadata_encodeMetadata _⟩

/-- The grant of an upload. -/
def Signer.uploadGrant (s : Signer) (key : Bytes) (g : Upload) : Grant :=
  .upload s.scope s.path key g.expires g.size g.contentType g.metadata

/-- **Uploading.** What may be stored under the key was signed for it, the scope and the path. -/
theorem made_of_verifyUpload (hforge : Unforgeable hmac mime calls s key q)
    (h : s.verifyUpload hmac now key q = .ok g) :
    Made mime calls (s.uploadGrant key g) ∧
      Carries q ⟨formatInt g.expires, formatInt g.size, g.contentType, encodeMetadata g.metadata,
        (s.uploadGrant key g).signature hmac⟩ ∧ now < g.expires.toInt * second := by
  obtain ⟨u, hu, htag, hexpires, hnow, hn, -, htype, hmd⟩ := verifyUpload_eq_ok.1 h
  have hmem : s.message uploadKind key [u.expires, u.size, u.type, u.metadata] ∈
      s.messages key q := by
    rw [Signer.messages, Values.get_eq hu.expires, Values.get_eq hu.size, Values.get_eq hu.type,
      hu.metadata]
    exact mem_cons_of_mem _ mem_cons_self
  obtain ⟨g', hmade, hmessage⟩ :=
    hforge.made _ hmem (hu.signature ▸ mem_singleton.2 htag.symm)
  obtain ⟨expires, n, md, rfl, he, hsize, hmeta⟩ := eq_upload_of_message hmessage
  rw [he, readInt_formatInt, Option.some.injEq] at hexpires
  rw [hsize, readInt_formatInt, Option.some.injEq] at hn
  rw [hmeta, decodeMetadata_encodeMetadata, Option.some.injEq] at hmd
  rw [htype, hexpires, hn, hmd] at hmade
  have hu' : u = ⟨formatInt g.expires, formatInt g.size, g.contentType, encodeMetadata g.metadata,
      (s.uploadGrant key g).signature hmac⟩ := by
    rw [hexpires] at he
    rw [hn] at hsize
    rw [hmd] at hmeta
    refine UploadQuery.ext he hsize htype hmeta ?_
    rw [htag, he, hsize, htype, hmeta]
    rfl
  exact ⟨hmade, hu' ▸ hu, hnow⟩

theorem uploadURL_of_made (hmade : Made mime calls (s.uploadGrant key g))
    (hu : Carries q ⟨formatInt g.expires, formatInt g.size, g.contentType, encodeMetadata g.metadata,
      (s.uploadGrant key g).signature hmac⟩) : UploadURL hmac mime calls s key q g := by
  obtain ⟨c, hc, hgrant⟩ := hmade
  cases c with
  | read s' now' key' opts =>
    obtain ⟨hgrant, -⟩ := url_of_grant hmac hgrant
    cases hgrant
  | upload s' now' key' opts =>
    obtain ⟨hg, hsig, req, hreq⟩ := uploadURL_of_grant hmac hgrant
    obtain ⟨size, contentType, metadata, expires⟩ := g
    simp only [Signer.uploadGrant, Grant.upload.injEq] at hg
    obtain ⟨hscope, hpath, rfl, rfl, rfl, rfl, rfl⟩ := hg
    exact ⟨s', now', opts, req, hc, hscope.symm, hpath.symm, hreq, by rwa [← hsig] at hu, rfl⟩

/-! ## What was signed -/

/-- Signatures of different grants differ. -/
theorem eq_of_signature_eq (hforge : Unforgeable hmac mime calls s key q) {g g' : Grant}
    (hg : Made mime calls g) (hg' : Made mime calls g') (h : g.signature hmac = g'.signature hmac) :
    g = g' :=
  Grant.message_injective (hforge.distinct g g' hg hg' (base64_injective h))

/-- What follows the key in the URL of an object is a query, if anything. -/
theorem url_path {opts : URLOptions} {u : Bytes} (h : s.url hmac now key opts = .ok u) :
    ∃ query, u = s.base ++ 47 :: escapeKey key ++ query ∧ (query = [] ∨ query.head? = some 63) := by
  rw [Signer.url] at h
  split at h
  · cases h
  split at h
  · cases h
  dsimp only at h
  split at h
  · obtain rfl := Except.ok.inj h
    refine ⟨ascii "?expires=" ++ (formatInt (expiry now opts.expires) ++ (ascii "&signature=" ++
      s.sign hmac key (formatInt (expiry now opts.expires)))), ?_, .inr rfl⟩
    simp only [append_assoc]
  · split at h
    · obtain rfl := Except.ok.inj h
      exact ⟨[], by simp, .inl rfl⟩
    · cases h

theorem uploadURL_path (h : s.uploadURL hmac mime now key opts = .ok req) :
    ∃ query, req.url = s.base ++ 47 :: escapeKey key ++ query ∧ query.head? = some 63 := by
  rw [Signer.uploadURL] at h
  split at h
  · cases h
  split at h
  · cases h
  obtain rfl := Except.ok.inj h
  exact ⟨_, rfl, rfl⟩

/-- **Signed URLs authorise exactly what was signed.** The calls are URLs made by signers that share
the secret. -/
theorem signed_urls (hmac : Bytes → Bytes) (mime : Mime) (calls : List Call) (s : Signer) (now : ℤ)
    (key : Bytes) (q : Values) :
    -- a URL that was made for the key, the scope and the path is accepted until it expires
    (∀ expires, ReadURL hmac calls s key q expires → 0 < expires.toInt →
      now < expires.toInt * second → s.verify hmac now key q = .ok ()) ∧
    (∀ g, UploadURL hmac mime calls s key q g → now < g.expires.toInt * second →
      s.verifyUpload hmac now key q = .ok g) ∧
    -- nothing else is, if the tag of the request cannot be forged
    (Unforgeable hmac mime calls s key q →
      (Signed s key q → s.verify hmac now key q = .ok () → ∃ expires,
        ReadURL hmac calls s key q expires ∧ 0 < expires.toInt ∧ now < expires.toInt * second) ∧
      (∀ g, s.verifyUpload hmac now key q = .ok g →
        UploadURL hmac mime calls s key q g ∧ now < g.expires.toInt * second) ∧
      -- the signature of a URL that reads stores nothing, and the other way round
      (∀ scope path key' expires, Made mime calls (.read scope path key' expires) →
        q.all (ascii "signature") = [(Grant.read scope path key' expires).signature hmac] →
        ∀ g, s.verifyUpload hmac now key q ≠ .ok g) ∧
      (∀ scope path key' expires n contentType md,
        Made mime calls (.upload scope path key' expires n contentType md) →
        q.all (ascii "signature") =
          [(Grant.upload scope path key' expires n contentType md).signature hmac] →
        s.verify hmac now key q ≠ .ok ()) ∧
      -- no two grants share a signature
      ∀ g g', Made mime calls g → Made mime calls g' → g.signature hmac = g'.signature hmac →
        g = g') ∧
    -- the path of a URL gives back the key
    percentUnescape (escapeKey key) = some key ∧ (∀ b ∈ escapeKey key, b ≠ 63 ∧ b ≠ 35) ∧
    (∀ opts u, s.url hmac now key opts = .ok u →
      ∃ query, u = s.base ++ 47 :: escapeKey key ++ query ∧ (query = [] ∨ query.head? = some 63)) ∧
    ∀ opts req, s.uploadURL hmac mime now key opts = .ok req →
      ∃ query, req.url = s.base ++ 47 :: escapeKey key ++ query ∧ query.head? = some 63 := by
  refine ⟨fun expires h => verify_of_readURL h, fun g h => verifyUpload_of_uploadURL h,
    fun hforge => ⟨fun hsigned h => ?_, fun g h => ?_, ?_, ?_,
      fun g g' hg hg' => eq_of_signature_eq hforge hg hg'⟩, percentUnescape_escapeKey key,
    fun b hb => mem_escapeKey hb, fun opts u hu => url_path hu, fun opts req hreq => uploadURL_path hreq⟩
  · obtain ⟨expires, hmade, he, hsig, hpos, hnow⟩ := made_of_verify hforge hsigned h
    exact ⟨expires, readURL_of_made hmade he hsig, hpos, hnow⟩
  · obtain ⟨hmade, hu, hnow⟩ := made_of_verifyUpload hforge h
    exact ⟨uploadURL_of_made hmade hu, hnow⟩
  · intro scope path key' expires hmade hsig g hok
    obtain ⟨hmade', hu, -⟩ := made_of_verifyUpload hforge hok
    rw [hu.signature, List.cons.injEq] at hsig
    cases eq_of_signature_eq hforge hmade hmade' hsig.1.symm
  · intro scope path key' expires n contentType md hmade hsig hok
    obtain ⟨expires', hmade', -, hsig', -⟩ :=
      made_of_verify hforge (signed_of_signature hsig) hok
    rw [hsig, List.cons.injEq] at hsig'
    cases eq_of_signature_eq hforge hmade hmade' hsig'.1

/-! ## A signer and its URLs -/

/-- A signer with private objects only. -/
def sampleSigner : Signer := ⟨ascii "/_storage", ascii "/_storage", [], ascii "app"⟩

def sampleMime : Mime := ⟨some, List.length⟩

/-- The query of a URL that reads. -/
def readQuery (e sig : Bytes) : Values := fun name =>
  if name = ascii "expires" then some [e] else if name = ascii "signature" then some [sig] else none

/-- The query of a URL that stores an object without metadata. -/
def storeQuery (u : UploadQuery) : Values := fun name =>
  if name = ascii "expires" then some [u.expires] else if name = ascii "size" then some [u.size]
  else if name = ascii "type" then some [u.type]
  else if name = ascii "signature" then some [u.signature] else none

/-- A tag of 32 bytes: the sum of the message, and zeros. -/
def sampleTag (m : Bytes) : Bytes := m.foldl (· + ·) 0 :: List.replicate 31 0

/-- The expiry and the signature of a URL of the signer. -/
def sampleExpires (now : ℤ) : Bytes := formatInt (expiry now (5 * second))

def sampleSignature (now : ℤ) : Bytes := sampleSigner.sign sampleTag (ascii "a") (sampleExpires now)

def sampleRead (now : ℤ) : Call := .read sampleSigner now (ascii "a") ⟨true, 5 * second⟩

def sampleQuery (now : ℤ) : Values := readQuery (sampleExpires now) (sampleSignature now)

theorem sample_grant (now : ℤ) : (sampleRead now).grant sampleMime =
    some (.read (ascii "app") (ascii "/_storage") (ascii "a") (expiry now (5 * second))) := rfl

/-- The tag of the one URL made does not verify for an upload. -/
theorem sample_unforgeable (h : sampleTag (sampleSigner.message uploadKind (ascii "a")
      [sampleExpires now, [], [], []]) ≠
    sampleTag (sampleSigner.message urlKind (ascii "a") [sampleExpires now])) :
    Unforgeable sampleTag sampleMime [sampleRead now] sampleSigner (ascii "a") (sampleQuery now) where
  made := by
    intro m hm hsig
    have htag := base64_injective (mem_singleton.1 hsig)
    rcases mem_cons.1 hm with rfl | hm
    · exact ⟨_, ⟨_, mem_singleton_self _, sample_grant now⟩, rfl⟩
    · rw [mem_singleton.1 hm] at htag
      exact absurd htag h
  distinct := by
    rintro g g' ⟨c, hc, hg⟩ ⟨c', hc', hg'⟩ -
    rw [mem_singleton.1 hc] at hg
    rw [mem_singleton.1 hc', hg] at hg'
    rw [Option.some.inj hg']

theorem sample_url (now : ℤ) :
    sampleSigner.url sampleTag now (ascii "a") ⟨true, 5 * second⟩ = .ok (sampleSigner.base ++ 47 ::
      escapeKey (ascii "a") ++ ascii "?expires=" ++ sampleExpires now ++ ascii "&signature=" ++
      sampleSignature now) :=
  (url_of_grant sampleTag (sample_grant now)).2.2

/-- A URL made at the epoch reads its object at once, and stores nothing. -/
theorem signed_urls_sample :
    sampleSigner.verify sampleTag 0 (ascii "a") (sampleQuery 0) = .ok () ∧
      ∀ g, sampleSigner.verifyUpload sampleTag 0 (ascii "a") (sampleQuery 0) ≠ .ok g := by
  obtain ⟨hread, -, hforge, -⟩ :=
    signed_urls sampleTag sampleMime [sampleRead 0] sampleSigner 0 (ascii "a") (sampleQuery 0)
  refine ⟨hread (expiry 0 (5 * second)) ⟨sampleSigner, 0, ⟨true, 5 * second⟩, sampleSignature 0,
    mem_singleton_self _, rfl, rfl, rfl, rfl, rfl, sample_url 0, rfl, rfl⟩ (by decide) (by decide),
    (hforge (sample_unforgeable (by decide +kernel))).2.2.1 _ _ _ _
      ⟨_, mem_singleton_self _, sample_grant 0⟩ rfl⟩

/-- The options of an upload of no bytes, without a content type. -/
def sampleUpload : UploadURLOptions := ⟨5 * second, 0, [], StringMap.empty⟩

/-- Ten seconds before the epoch a signer makes a URL that lives five seconds, and refuses it although
it has not expired. And an upload URL made without a content type grants the default one. -/
theorem before_the_epoch :
    (problem (ascii "a") = none ∧
      sampleSigner.url sampleTag (-10 * second) (ascii "a") ⟨true, 5 * second⟩ =
        .ok (sampleSigner.base ++ 47 :: escapeKey (ascii "a") ++ ascii "?expires=" ++
          sampleExpires (-10 * second) ++ ascii "&signature=" ++ sampleSignature (-10 * second)) ∧
      -10 * second < (expiry (-10 * second) (5 * second)).toInt * second ∧
      Unforgeable sampleTag sampleMime [sampleRead (-10 * second)] sampleSigner (ascii "a")
        (sampleQuery (-10 * second)) ∧
      sampleSigner.verify sampleTag (-10 * second) (ascii "a") (sampleQuery (-10 * second)) =
        .error .signature) ∧
    ∃ req g, sampleSigner.uploadURL sampleTag sampleMime 0 (ascii "a") sampleUpload = .ok req ∧
      sampleSigner.verifyUpload sampleTag 0 (ascii "a")
        (storeQuery (sampleSigner.uploadQuery sampleTag 0 (ascii "a") sampleUpload)) = .ok g ∧
      g.contentType ≠ sampleUpload.contentType := by
  refine ⟨⟨by decide, sample_url _, by decide, sample_unforgeable (by decide +kernel), ?_⟩, ?_⟩
  · have hread : readInt (sampleExpires (-10 * second)) = some (-5) := readInt_formatInt (-5)
    have hget : (sampleQuery (-10 * second)).get (ascii "expires") = sampleExpires (-10 * second) := rfl
    rw [Signer.verify, if_neg (by decide)]
    dsimp only
    rw [if_neg (by decide), hget, hread]
    exact if_pos (by decide)
  · obtain ⟨req, hreq⟩ : ∃ req, sampleSigner.uploadURL sampleTag sampleMime 0 (ascii "a")
        sampleUpload = .ok req := ⟨_, rfl⟩
    refine ⟨req, ⟨0, defaultContentType, StringMap.empty, expiry 0 (5 * second)⟩, hreq, ?_, by decide⟩
    exact verifyUpload_of_uploadURL ⟨sampleSigner, 0, sampleUpload, req, mem_singleton_self _, rfl,
      rfl, hreq, ⟨rfl, rfl, rfl, rfl, by decide, rfl⟩, rfl⟩ (by decide)

end Gombit.Storage
