import Gombit.Auth.Chains

/-!
# One-time tokens over time

A token is pending until its message was delivered, then usable until it is consumed, superseded or
voided; a pending one may be withdrawn.

* `LinksStep`, `Service.Step.links`: what a request can do to the tokens.
* `links_run`: at most one token of a user and purpose is delivered and unused, and every token a
  plain read can see has evolved into the present one, or is gone.
* `one_time_tokens`: the results about whole histories put together.
-/

namespace Gombit.Auth

open Rows List

variable {svc : Service} {plain db : DB} {w w' w₀ : World} {e : Event} {es : List Event}
  {tokens tokens' : List OneTimeToken} {now : ℤ}

/-! ## Tokens over time -/

/-- `t'` is a later version of the token `t`: it may have been delivered and used since. -/
structure OneTimeToken.Later (t t' : OneTimeToken) : Prop where
  id : t'.id = t.id
  userID : t'.userID = t.userID
  purpose : t'.purpose = t.purpose
  tokenHash : t'.tokenHash = t.tokenHash
  sentAt : t.sentAt ≠ none → t'.sentAt = t.sentAt
  usedAt : t.usedAt ≠ none → t'.usedAt = t.usedAt

theorem OneTimeToken.Later.refl (t : OneTimeToken) : t.Later t :=
  ⟨rfl, rfl, rfl, rfl, fun _ => rfl, fun _ => rfl⟩

theorem OneTimeToken.Later.trans {a b c : OneTimeToken} (h : a.Later b) (h' : b.Later c) :
    a.Later c where
  id := h'.id.trans h.id
  userID := h'.userID.trans h.userID
  purpose := h'.purpose.trans h.purpose
  tokenHash := h'.tokenHash.trans h.tokenHash
  sentAt hne := by
    have heq := h.sentAt hne
    rw [← heq] at hne ⊢
    exact h'.sentAt hne
  usedAt hne := by
    have heq := h.usedAt hne
    rw [← heq] at hne ⊢
    exact h'.usedAt hne

/-- Delivered and not used. -/
def OneTimeToken.Open (t : OneTimeToken) : Prop := t.sentAt ≠ none ∧ t.usedAt = none

instance (t : OneTimeToken) : Decidable t.Open :=
  inferInstanceAs (Decidable (t.sentAt ≠ none ∧ t.usedAt = none))

/-- Delivered, unused, unexpired. -/
def OneTimeToken.Usable (t : OneTimeToken) (now : ℤ) : Prop := t.Open ∧ now < t.expiresAt

/-- The tokens after an activation: the pending one is delivered, the delivered ones of the same
user and purpose are superseded. -/
def activated (token : OneTimeToken) (now : ℤ) (tokens : List OneTimeToken) : List OneTimeToken :=
  updateWhere (fun t => decide (t.userID = token.userID) && decide (t.purpose = token.purpose) &&
      t.sentAt.isSome && decide (t.id ≠ token.id) && t.usedAt.isNone)
    (fun t => { t with usedAt := some now })
    (updateWhere (fun t => decide (t.id = token.id) && t.sentAt.isNone && t.usedAt.isNone)
      (fun t => { t with sentAt := some now }) tokens)

/-- What a request can do to the one-time tokens. -/
inductive LinksStep (svc : Service) (w : World) : Event → List OneTimeToken → Prop
  /-- It uses tokens up, or changes nothing. -/
  | used {e : Event} {tokens : List OneTimeToken} (h : UsesUp w.db.oneTimeTokens tokens) :
      LinksStep svc w e tokens
  /-- A pending token is written. -/
  | issued {userID : ℕ} {f : Flow} {draw : Draw} (locked : User) (now : ℤ)
      (hid : w.FreshID draw.id) (hhash : draw.tokenHash ∉ w.db.oneTimeTokens.map (·.tokenHash)) :
      LinksStep svc w ⟨.issueOneTimeToken userID f draw, none⟩
        (w.db.oneTimeTokens ++ [svc.newToken locked f now draw])
  /-- A pending token is delivered. -/
  | activated {token : OneTimeToken} {old : DB} (now : ℤ) (hold : w.Saw old)
      (htoken : token ∈ old.oneTimeTokens) :
      LinksStep svc w ⟨.activateToken token, none⟩ (activated token now w.db.oneTimeTokens)
  /-- A pending token is withdrawn. -/
  | withdrawn {token : OneTimeToken} :
      LinksStep svc w ⟨.withdrawToken token, none⟩
        (w.db.oneTimeTokens.filter fun t => !(decide (t.id = token.id) && t.sentAt.isNone))

theorem LinksStep.kept : LinksStep svc w e w.db.oneTimeTokens := .used (.refl _)

/-! ## Request by request -/

variable {draw : Draw} {hash : String} {userID : ℕ} {db' : DB} {purpose : TokenPurpose}
  {locked : User} {screen : DB} {newHash : String} {screened : ℤ}

theorem issueOneTimeToken_links {f : Flow} (hid : w.FreshID draw.id) :
    LinksStep svc w ⟨.issueOneTimeToken userID f draw,
        Outcome.err (svc.issueOneTimeToken plain w.db userID f now draw)⟩
      (svc.issueOneTimeToken plain w.db userID f now draw).2.oneTimeTokens := by
  unfold Service.issueOneTimeToken
  split
  · exact .kept
  split
  · exact .kept
  split
  · exact .kept
  split
  · exact .kept
  split
  · exact .kept
  · rename_i locked _ _ _ _ _ hany
    refine .issued locked now hid fun hmem => hany ?_
    obtain ⟨t, ht, heq⟩ := mem_map.1 hmem
    exact any_eq_true.2 ⟨t, ht, by simp [heq]⟩

variable {token t : OneTimeToken}

theorem activateToken_links {old : DB} (hold : w.Saw old) (htoken : token ∈ old.oneTimeTokens) :
    LinksStep svc w ⟨.activateToken token, Outcome.err (Service.activateToken w.db token now)⟩
      (Service.activateToken w.db token now).2.oneTimeTokens := by
  unfold Service.activateToken
  split
  · exact .kept
  dsimp only
  split
  · exact .kept
  · exact .activated now hold htoken

/-- **What a request can do to the one-time tokens.** -/
theorem Service.Step.links (h : svc.Step w e w') : LinksStep svc w e w'.db.oneTimeTokens := by
  by_cases he : e.Quiet
  · exact .used (h.ends he).tokens
  cases h with
  | startSession now hold huser =>
    rw [World.commit_db, startSession_frame.2]
    exact .kept
  | rotateRefreshOnce now hold =>
    rw [World.commit_db, rotateRefreshOnce_frame.2]
    exact .kept
  | issueOneTimeToken now hold hfresh => exact issueOneTimeToken_links hfresh
  | activateToken now hold htoken => exact activateToken_links hold htoken
  | withdrawToken hold htoken => exact .withdrawn
  | failed => exact .kept
  | _ => exact absurd trivial he

/-! ## Runs -/

/-- What an activation does to one token. -/
def activateRow (token : OneTimeToken) (now : ℤ) (t : OneTimeToken) : OneTimeToken :=
  if t.id = token.id then
    if t.sentAt = none ∧ t.usedAt = none then { t with sentAt := some now } else t
  else if t.userID = token.userID ∧ t.purpose = token.purpose ∧ t.Open then
    { t with usedAt := some now }
  else t

theorem activated_eq_map (token : OneTimeToken) (now : ℤ) (tokens : List OneTimeToken) :
    activated token now tokens = tokens.map (activateRow token now) := by
  rw [activated, updateWhere, updateWhere, map_map]
  refine map_congr_left fun t _ => ?_
  by_cases hid : t.id = token.id
  · by_cases hpending : t.sentAt = none ∧ t.usedAt = none
    · simp [activateRow, hid, hpending]
    · rw [not_and_or] at hpending
      rcases hpending with hsent | hused
      · simp [activateRow, hid, hsent]
      · simp [activateRow, hid, hused]
  · have hsel : (decide (t.userID = token.userID) && decide (t.purpose = token.purpose) &&
        t.sentAt.isSome && decide (t.id ≠ token.id) && t.usedAt.isNone) = true ↔
        t.userID = token.userID ∧ t.purpose = token.purpose ∧ t.Open := by
      simp [hid, OneTimeToken.Open, Option.isSome_iff_ne_none, and_assoc]
    have hkept : (decide (t.id = token.id) && t.sentAt.isNone && t.usedAt.isNone) = false := by
      simp [hid]
    simp only [Function.comp_apply, hkept, Bool.false_eq_true, if_false]
    rw [activateRow, if_neg hid]
    exact if_congr hsel rfl rfl

theorem later_activateRow (token : OneTimeToken) (now : ℤ) (t : OneTimeToken) :
    t.Later (activateRow token now t) := by
  unfold activateRow
  split_ifs with hid hpending hopen
  · exact ⟨rfl, rfl, rfl, rfl, fun hne => absurd hpending.1 hne, fun _ => rfl⟩
  · exact .refl t
  · exact ⟨rfl, rfl, rfl, rfl, fun _ => rfl, fun hne => absurd hopen.2.2.2 hne⟩
  · exact .refl t

/-- A column that later versions of a token keep. -/
theorem map_later {α : Type} {f : OneTimeToken → OneTimeToken} (hf : ∀ t ∈ tokens, t.Later (f t))
    {g : OneTimeToken → α} (hg : ∀ t t' : OneTimeToken, t.Later t' → g t' = g t) :
    (tokens.map f).map g = tokens.map g := by
  rw [map_map]
  exact map_congr_left fun t ht => hg t (f t) (hf t ht)

theorem UsesUp.later (h : UsesUp tokens tokens') :
    ∃ f : OneTimeToken → OneTimeToken, tokens' = tokens.map f ∧ ∀ t ∈ tokens, t.Later (f t) := by
  obtain ⟨f, rfl, hf⟩ := h
  refine ⟨f, rfl, fun t ht => ?_⟩
  rcases hf t ht with hsame | ⟨hunused, now, hused⟩
  · rw [hsame]
    exact .refl t
  · rw [hused]
    exact ⟨rfl, rfl, rfl, rfl, fun _ => rfl, fun hne => absurd hunused hne⟩

/-- A token after a request is a later version of one there was, or new and pending. -/
theorem LinksStep.origin (h : LinksStep svc w e tokens) {t' : OneTimeToken} (ht' : t' ∈ tokens) :
    (∃ t ∈ w.db.oneTimeTokens, t.Later t') ∨ (t'.sentAt = none ∧ w.FreshID t'.id) := by
  cases h with
  | used h =>
    obtain ⟨f, rfl, hf⟩ := h.later
    obtain ⟨t, ht, rfl⟩ := mem_map.1 ht'
    exact .inl ⟨t, ht, hf t ht⟩
  | issued locked now hid hhash =>
    rcases mem_append.1 ht' with ht' | ht'
    · exact .inl ⟨t', ht', .refl t'⟩
    · rw [mem_singleton.1 ht']
      exact .inr ⟨rfl, hid⟩
  | activated now hold htoken =>
    rw [activated_eq_map] at ht'
    obtain ⟨t, ht, rfl⟩ := mem_map.1 ht'
    exact .inl ⟨t, ht, later_activateRow _ _ t⟩
  | withdrawn => exact .inl ⟨t', (mem_filter.1 ht').1, .refl t'⟩

/-- A delivered token is still there after a request. -/
theorem LinksStep.delivered (h : LinksStep svc w e tokens) (ht : t ∈ w.db.oneTimeTokens)
    (hsent : t.sentAt ≠ none) : ∃ t' ∈ tokens, t.Later t' := by
  cases h with
  | used h =>
    obtain ⟨f, rfl, hf⟩ := h.later
    exact ⟨f t, mem_map_of_mem ht, hf t ht⟩
  | issued locked now hid hhash => exact ⟨t, mem_append_left _ ht, .refl t⟩
  | activated now hold htoken =>
    rw [activated_eq_map]
    exact ⟨_, mem_map_of_mem ht, later_activateRow _ _ t⟩
  | withdrawn =>
    refine ⟨t, mem_filter.2 ⟨ht, ?_⟩, .refl t⟩
    simp [Option.isSome_iff_ne_none, hsent]

/-- A column that later versions of a token keep has no value twice, when the request adds none
that is there. -/
theorem LinksStep.nodup_map {α : Type} (h : LinksStep svc w e tokens) (g : OneTimeToken → α)
    (hg : ∀ t t' : OneTimeToken, t.Later t' → g t' = g t)
    (hnew : ∀ locked f now draw, w.FreshID draw.id →
      draw.tokenHash ∉ w.db.oneTimeTokens.map (·.tokenHash) →
      g (svc.newToken locked f now draw) ∉ w.db.oneTimeTokens.map g)
    (hw : (w.db.oneTimeTokens.map g).Nodup) : (tokens.map g).Nodup := by
  cases h with
  | used h =>
    obtain ⟨f, rfl, hf⟩ := h.later
    rwa [map_later hf hg]
  | issued locked now hid hhash =>
    rw [map_append, map_singleton, ← concat_eq_append]
    exact hw.concat (hnew _ _ _ _ hid hhash)
  | activated now hold htoken =>
    rwa [activated_eq_map, map_later (fun t _ => later_activateRow _ _ t) hg]
  | withdrawn => exact hw.sublist (filter_sublist.map g)

/-- What holds of the one-time tokens in every state. -/
structure World.Links (w : World) : Prop where
  keyed : Keyed OneTimeToken.id w.db.oneTimeTokens
  hashes : (w.db.oneTimeTokens.map (·.tokenHash)).Nodup
  ne_zero : ∀ t ∈ w.db.oneTimeTokens, t.id ≠ 0
  /-- What a plain read sees has evolved into the present token with the same id, if there is
  one. -/
  later : ∀ old, w.Saw old → ∀ t ∈ old.oneTimeTokens, ∀ t' ∈ w.db.oneTimeTokens, t'.id = t.id →
    t.Later t'
  /-- A delivered token does not go away. -/
  delivered : ∀ old, w.Saw old → ∀ t ∈ old.oneTimeTokens, t.sentAt ≠ none →
    ∃ t' ∈ w.db.oneTimeTokens, t.Later t'
  /-- At most one token of a user and purpose is delivered and unused. -/
  one : ∀ t ∈ w.db.oneTimeTokens, ∀ t' ∈ w.db.oneTimeTokens, t.userID = t'.userID →
    t.purpose = t'.purpose → t.Open → t'.Open → t = t'

theorem World.Init.links (h : w.Init) : w.Links := by
  have hold : ∀ old, w.Saw old → old = w.db := by
    intro old hold
    simpa [World.Saw, h.past] using hold
  refine ⟨by simp [h.oneTimeTokens, Keyed], by simp [h.oneTimeTokens], by simp [h.oneTimeTokens],
    fun old hsaw t ht => ?_, fun old hsaw t ht => ?_, by simp [h.oneTimeTokens]⟩
  · rw [hold old hsaw, h.oneTimeTokens] at ht
    cases ht
  · rw [hold old hsaw, h.oneTimeTokens] at ht
    cases ht

/-- An activation supersedes the delivered tokens of the user and purpose. -/
theorem one_activated (hw : w.Links) {old : DB} (hold : w.Saw old)
    (htoken : token ∈ old.oneTimeTokens) {t₁ t₂ : OneTimeToken} (ht₁ : t₁ ∈ w.db.oneTimeTokens)
    (ht₂ : t₂ ∈ w.db.oneTimeTokens) (huser : t₁.userID = t₂.userID)
    (hpurpose : t₁.purpose = t₂.purpose) (hopen₁ : (activateRow token now t₁).Open)
    (hopen₂ : (activateRow token now t₂).Open) : t₁ = t₂ := by
  -- a token other than the one activated that is open afterwards was open before, and is of
  -- another user or purpose
  have hother : ∀ t : OneTimeToken, t.id ≠ token.id → (activateRow token now t).Open →
      t.Open ∧ ¬ (t.userID = token.userID ∧ t.purpose = token.purpose) := by
    intro t hid hopen
    by_cases hsel : t.userID = token.userID ∧ t.purpose = token.purpose ∧ t.Open
    · rw [activateRow, if_neg hid, if_pos hsel] at hopen
      cases hopen.2
    · rw [activateRow, if_neg hid, if_neg hsel] at hopen
      exact ⟨hopen, fun hsame => hsel ⟨hsame.1, hsame.2, hopen⟩⟩
  have hsame : ∀ t ∈ w.db.oneTimeTokens, t.id = token.id →
      t.userID = token.userID ∧ t.purpose = token.purpose := fun t ht hid =>
    have hlater := hw.later old hold token htoken t ht hid
    ⟨hlater.userID, hlater.purpose⟩
  by_cases hid₁ : t₁.id = token.id
  · by_cases hid₂ : t₂.id = token.id
    · exact hw.keyed.eq ht₁ ht₂ (hid₁.trans hid₂.symm)
    · obtain ⟨hu, hp⟩ := hsame t₁ ht₁ hid₁
      exact absurd ⟨huser.symm.trans hu, hpurpose.symm.trans hp⟩ (hother t₂ hid₂ hopen₂).2
  · by_cases hid₂ : t₂.id = token.id
    · obtain ⟨hu, hp⟩ := hsame t₂ ht₂ hid₂
      exact absurd ⟨huser.trans hu, hpurpose.trans hp⟩ (hother t₁ hid₁ hopen₁).2
    · exact hw.one t₁ ht₁ t₂ ht₂ huser hpurpose (hother t₁ hid₁ hopen₁).1 (hother t₂ hid₂ hopen₂).1

theorem LinksStep.one (h : LinksStep svc w e tokens) (hw : w.Links) :
    ∀ t ∈ tokens, ∀ t' ∈ tokens, t.userID = t'.userID → t.purpose = t'.purpose → t.Open →
      t'.Open → t = t' := by
  cases h with
  | used h =>
    obtain ⟨f, rfl, hf⟩ := h
    have hopen : ∀ t ∈ w.db.oneTimeTokens, (f t).Open → f t = t := by
      intro t ht hopen
      rcases hf t ht with hsame | ⟨-, now, hused⟩
      · exact hsame
      · simp [hused, OneTimeToken.Open] at hopen
    intro t' ht' u' hu' huser hpurpose ht'open hu'open
    obtain ⟨t, ht, rfl⟩ := mem_map.1 ht'
    obtain ⟨u, hu, rfl⟩ := mem_map.1 hu'
    have hft := hopen t ht ht'open
    have hfu := hopen u hu hu'open
    rw [hft, hfu] at huser hpurpose ⊢
    rw [hft] at ht'open
    rw [hfu] at hu'open
    exact hw.one t ht u hu huser hpurpose ht'open hu'open
  | issued locked now hid hhash =>
    intro t ht t' ht' huser hpurpose hopen hopen'
    rcases mem_append.1 ht with ht | ht
    · rcases mem_append.1 ht' with ht' | ht'
      · exact hw.one t ht t' ht' huser hpurpose hopen hopen'
      · rw [mem_singleton.1 ht'] at hopen'
        exact absurd rfl hopen'.1
    · rw [mem_singleton.1 ht] at hopen
      exact absurd rfl hopen.1
  | @activated token old now hold htoken =>
    rw [activated_eq_map]
    intro t' ht' u' hu' huser hpurpose ht'open hu'open
    obtain ⟨t, ht, rfl⟩ := mem_map.1 ht'
    obtain ⟨u, hu, rfl⟩ := mem_map.1 hu'
    have hlater := later_activateRow token now t
    have hlater' := later_activateRow token now u
    rw [hlater.userID, hlater'.userID] at huser
    rw [hlater.purpose, hlater'.purpose] at hpurpose
    rw [one_activated hw hold htoken ht hu huser hpurpose ht'open hu'open]
  | withdrawn =>
    intro t ht t' ht'
    exact hw.one t (mem_filter.1 ht).1 t' (mem_filter.1 ht').1

theorem World.Links.step (hw : w.Links) (h : svc.Step w e w') : w'.Links := by
  have hlinks := h.links
  have hkeyed : Keyed OneTimeToken.id w'.db.oneTimeTokens := by
    refine hlinks.nodup_map _ (fun t t' hlater => hlater.id) (fun _ _ _ draw hid _ hmem => ?_) hw.keyed
    obtain ⟨t, ht, heq⟩ := mem_map.1 hmem
    exact hid.ne w.db w.saw_db t ht heq
  refine ⟨hkeyed, ?_, fun t' ht' => ?_, fun old hold t ht t' ht' hid => ?_,
    fun old hold t ht hsent => ?_, hlinks.one hw⟩
  · exact hlinks.nodup_map _ (fun t t' hlater => hlater.tokenHash) (fun _ _ _ _ _ hhash => hhash)
      hw.hashes
  · rcases hlinks.origin ht' with ⟨t, ht, hlater⟩ | ⟨-, hfresh⟩
    · rw [hlater.id]
      exact hw.ne_zero t ht
    · exact hfresh.ne_zero
  · rw [h.commit, World.saw_commit] at hold
    rcases hold with rfl | hold
    · rw [hkeyed.eq ht' ht hid]
      exact .refl t
    · rcases hlinks.origin ht' with ⟨u, hu, hlater⟩ | ⟨-, hfresh⟩
      · exact (hw.later old hold t ht u hu (hlater.id.symm.trans hid)).trans hlater
      · exact absurd hid.symm (hfresh.ne old hold t ht)
  · rw [h.commit, World.saw_commit] at hold
    rcases hold with rfl | hold
    · exact ⟨t, ht, .refl t⟩
    · obtain ⟨u, hu, hlater⟩ := hw.delivered old hold t ht hsent
      obtain ⟨t', ht', hlater'⟩ := hlinks.delivered hu ((hlater.sentAt hsent).symm ▸ hsent)
      exact ⟨t', ht', hlater.trans hlater'⟩

theorem links_run (h₀ : w₀.Init) (h : Run svc.Step w₀ es w) : w.Links :=
  h.preserves (fun _ _ _ hstep hw => hw.step hstep) h₀.links

/-! ## Acceptance -/

/-- A delivered token was activated. -/
theorem LinksStep.sent (h : LinksStep svc w e tokens) {t' : OneTimeToken} (ht' : t' ∈ tokens)
    (hsent : t'.sentAt ≠ none) :
    (∃ t ∈ w.db.oneTimeTokens, t.id = t'.id ∧ t.sentAt ≠ none) ∨
      ∃ token, e = ⟨.activateToken token, none⟩ ∧ token.id = t'.id := by
  cases h with
  | used h =>
    obtain ⟨f, rfl, hf⟩ := h
    obtain ⟨t, ht, rfl⟩ := mem_map.1 ht'
    refine .inl ⟨t, ht, ?_⟩
    rcases hf t ht with hsame | ⟨-, now, hused⟩
    · rw [hsame] at hsent ⊢
      exact ⟨rfl, hsent⟩
    · rw [hused] at hsent ⊢
      exact ⟨rfl, hsent⟩
  | issued locked now hid hhash =>
    rcases mem_append.1 ht' with ht' | ht'
    · exact .inl ⟨t', ht', rfl, hsent⟩
    · rw [mem_singleton.1 ht'] at hsent
      exact absurd rfl hsent
  | @activated token old now hold htoken =>
    rw [activated_eq_map] at ht'
    obtain ⟨t, ht, rfl⟩ := mem_map.1 ht'
    by_cases hid : t.id = token.id
    · exact .inr ⟨token, rfl, hid.symm.trans (later_activateRow token now t).id.symm⟩
    · refine .inl ⟨t, ht, (later_activateRow token now t).id.symm, ?_⟩
      rw [activateRow, if_neg hid] at hsent
      split at hsent <;> exact hsent
  | withdrawn => exact .inl ⟨t', (mem_filter.1 ht').1, rfl, hsent⟩

theorem activations_run (h₀ : w₀.Init) (h : Run svc.Step w₀ es w) :
    ∀ t ∈ w.db.oneTimeTokens, t.sentAt ≠ none →
      ∃ token, ⟨.activateToken token, none⟩ ∈ es ∧ token.id = t.id := by
  refine h.history_induction (I := fun es w => ∀ t ∈ w.db.oneTimeTokens, t.sentAt ≠ none →
    ∃ token, ⟨.activateToken token, none⟩ ∈ es ∧ token.id = t.id) (by simp [h₀.oneTimeTokens]) ?_
  intro es w e w' _ hstep ih t' ht' hsent
  rcases hstep.links.sent ht' hsent with ⟨t, ht, hid, hsent⟩ | ⟨token, rfl, hid⟩
  · obtain ⟨token, hmem, htoken⟩ := ih t ht hsent
    exact ⟨token, mem_append_left _ hmem, htoken.trans hid⟩
  · exact ⟨token, mem_append_right _ (mem_singleton_self _), hid⟩

/-- A request that consumed the token and committed. -/
def Event.accepts (hash : String) : Event → Bool
  | ⟨.consumeReset h _, none⟩ => decide (h = hash)
  | ⟨.consumeVerification h, none⟩ => decide (h = hash)
  | ⟨.consumeEmailChange h, none⟩ => decide (h = hash)
  | _ => false

/-- The token was consumed. -/
def Accepted (tokens : List OneTimeToken) (hash : String) : Prop :=
  ∃ t ∈ tokens, t.tokenHash = hash ∧ t.sentAt ≠ none ∧ t.usedAt ≠ none

theorem Accepted.of_later (h : Accepted tokens hash)
    (hlater : ∀ t ∈ tokens, t.sentAt ≠ none → ∃ t' ∈ tokens', t.Later t') :
    Accepted tokens' hash := by
  obtain ⟨t, ht, hhash, hsent, hused⟩ := h
  obtain ⟨t', ht', hl⟩ := hlater t ht hsent
  exact ⟨t', ht', hl.tokenHash.trans hhash, (hl.sentAt hsent).symm ▸ hsent,
    (hl.usedAt hused).symm ▸ hused⟩

theorem Accepted.usesUp (h : Accepted tokens hash) (hused : UsesUp tokens tokens') :
    Accepted tokens' hash := by
  obtain ⟨f, rfl, hf⟩ := hused.later
  exact h.of_later fun t ht _ => ⟨f t, mem_map_of_mem ht, hf t ht⟩

/-- A token that is consumed was not used before, and is used up. -/
theorem Consumes.accepted (h : Consumes plain w.db hash purpose now token locked db') (hw : w.Links)
    (hplain : w.Saw plain) :
    ¬ Accepted w.db.oneTimeTokens hash ∧ Accepted db'.oneTimeTokens hash := by
  obtain ⟨cur, hcur, hid, hsent, hunused⟩ := h.current
  have hhash : cur.tokenHash = hash :=
    (hw.later plain hplain token h.read cur hcur hid).tokenHash.trans h.tokenHash
  constructor
  · rintro ⟨t, ht, hthash, -, hused⟩
    rw [inj_on_of_nodup_map hw.hashes ht hcur (hthash.trans hhash.symm)] at hused
    exact hused hunused
  · rw [h.db']
    refine ⟨{ cur with usedAt := some now }, ?_, hhash, Option.isSome_iff_ne_none.1 hsent, by simp⟩
    exact mem_updateWhere.2 ⟨cur, hcur, by simp [hid, hsent, hunused]⟩

theorem consumeReset_accepted (hw : w.Links) (hplain : w.Saw plain)
    (hok : Outcome.err (svc.consumeReset screen plain w.db hash newHash screened now) = none) :
    ¬ Accepted w.db.oneTimeTokens hash ∧
      Accepted (svc.consumeReset screen plain w.db hash newHash screened now).2.oneTimeTokens
        hash := by
  unfold Service.consumeReset at hok ⊢
  split at hok
  · simp [Outcome.err] at hok
  rename_i hscreen
  rw [if_neg hscreen]
  split at hok
  · simp [Outcome.err] at hok
  rename_i token locked db₁ hconsumed
  obtain ⟨hfresh, haccepted⟩ := (consumeOneTimeToken_eq_ok hconsumed).accepted hw hplain
  refine ⟨hfresh, ?_⟩
  dsimp only
  split <;> exact haccepted.usesUp (usesUp_useWhere _ _ _)

theorem consumeVerification_accepted (hw : w.Links) (hplain : w.Saw plain)
    (hok : Outcome.err (svc.consumeVerification plain w.db hash now) = none) :
    ¬ Accepted w.db.oneTimeTokens hash ∧
      Accepted (svc.consumeVerification plain w.db hash now).2.oneTimeTokens hash := by
  unfold Service.consumeVerification at hok ⊢
  split at hok
  · simp [Outcome.err] at hok
  rename_i token locked db₁ hconsumed
  obtain ⟨hfresh, haccepted⟩ := (consumeOneTimeToken_eq_ok hconsumed).accepted hw hplain
  refine ⟨hfresh, ?_⟩
  split <;> exact haccepted

theorem consumeEmailChange_accepted (hw : w.Links) (hplain : w.Saw plain)
    (hok : Outcome.err (svc.consumeEmailChange plain w.db hash now) = none) :
    ¬ Accepted w.db.oneTimeTokens hash ∧
      Accepted (svc.consumeEmailChange plain w.db hash now).2.oneTimeTokens hash := by
  unfold Service.consumeEmailChange at hok ⊢
  split at hok
  · simp [Outcome.err] at hok
  rename_i token locked db₁ hconsumed
  split at hok
  · simp [Outcome.err] at hok
  rename_i htaken
  obtain ⟨hfresh, haccepted⟩ := (consumeOneTimeToken_eq_ok hconsumed).accepted hw hplain
  refine ⟨hfresh, ?_⟩
  rw [if_neg htaken]
  exact haccepted.usesUp (usesUp_useWhere _ _ _)

theorem Service.Step.accepted (h : svc.Step w e w') (hw : w.Links) (he : e.accepts hash = true) :
    ¬ Accepted w.db.oneTimeTokens hash ∧ Accepted w'.db.oneTimeTokens hash := by
  cases h with
  | consumeReset screened now hscreen hold hfresh =>
    unfold Event.accepts at he
    split at he <;> simp_all
    exact consumeReset_accepted hw hold (by assumption)
  | consumeVerification now hold =>
    unfold Event.accepts at he
    split at he <;> simp_all
    exact consumeVerification_accepted hw hold (by assumption)
  | consumeEmailChange now hold =>
    unfold Event.accepts at he
    split at he <;> simp_all
    exact consumeEmailChange_accepted hw hold (by assumption)
  | _ => simp [Event.accepts] at he

/-- A token is accepted at most once. -/
theorem accepted_run (h₀ : w₀.Init) (h : Run svc.Step w₀ es w) (hash : String) :
    es.countP (Event.accepts hash) ≤ 1 := by
  refine h.at_most_once (I := World.Links) (fun w => Accepted w.db.oneTimeTokens hash)
    (fun w e w' hstep hw => hw.step hstep) ?_ ?_ h₀.links
  · intro w e w' hstep hw haccepted
    exact haccepted.of_later fun t ht hsent => hstep.links.delivered ht hsent
  · intro w e w' hstep hw he
    exact hstep.accepted hw he

/-! ## Sends that come to nothing -/

/-- A step of a send that does not deliver: the pending token is written, its activation fails, it
is withdrawn. -/
def Event.FailedSend : Event → Prop
  | ⟨.issueOneTimeToken _ _ _, _⟩ => True
  | ⟨.activateToken _, err⟩ => err ≠ none
  | ⟨.withdrawToken _, _⟩ => True
  | _ => False

theorem Service.Step.failedSend (h : svc.Step w e w') (he : e.FailedSend) :
    ∀ t ∈ w.db.oneTimeTokens, t.Open → t ∈ w'.db.oneTimeTokens := by
  intro t ht hopen
  cases h with
  | issueOneTimeToken now hold hfresh =>
    rw [World.commit_db, Service.issueOneTimeToken]
    repeat' split
    all_goals first
      | exact ht
      | exact mem_append_left _ ht
  | activateToken now hold htoken =>
    rw [World.commit_db]
    unfold Service.activateToken at he ⊢
    split
    · exact ht
    · dsimp only
      split
      · exact ht
      · rename_i hlocked hone
        simp [Event.FailedSend, hlocked, hone, Outcome.err] at he
  | withdrawToken hold htoken =>
    refine mem_filter.2 ⟨ht, ?_⟩
    simp [Option.isSome_iff_ne_none, hopen.1]
  | failed => exact ht
  | _ => exact he.elim

theorem Service.Step.failedSend_users (h : svc.Step w e w') (he : e.FailedSend) :
    w'.db.users = w.db.users := by
  cases h with
  | issueOneTimeToken now hold hfresh => exact issueOneTimeToken_frame.1
  | activateToken now hold htoken => exact activateToken_frame.1
  | withdrawToken | failed => rfl
  | _ => exact he.elim

/-! ## Password changes -/

/-- What `useWhere` leaves of the tokens it selects. -/
theorem usedAt_of_mem_useWhere {p : OneTimeToken → Bool} (h : t ∈ (db.useWhere p now).oneTimeTokens)
    (hp : ∀ t' ∈ db.oneTimeTokens, t'.id = t.id → t'.userID = t.userID → t'.purpose = t.purpose →
      t'.usedAt = none → p t' = true) : t.usedAt ≠ none := by
  obtain ⟨t', ht', rfl⟩ := mem_updateWhere.1 h
  by_cases hsel : (p t' && t'.usedAt.isNone) = true
  · rw [if_pos hsel]
    simp
  · simp only [if_neg hsel] at hp ⊢
    intro hunused
    have hpt' := hp t' ht' rfl rfl rfl hunused
    simp [hpt', hunused] at hsel

/-- No reset or email change token of the user is unused. -/
def Voided (db : DB) (userID : ℕ) : Prop :=
  ∀ t ∈ db.oneTimeTokens, t.userID = userID → DB.passwordBound t.purpose = true → t.usedAt ≠ none

/-- A reset that commits voids the user's tokens. -/
theorem consumeReset_voids (hw : w.Links) {user : User}
    (hok : svc.consumeReset screen plain w.db hash newHash screened now = (.ok user, db')) :
    Voided db' user.id := by
  unfold Service.consumeReset at hok
  split at hok
  · simp at hok
  split at hok
  · simp at hok
  rename_i token locked db₁ hconsumed
  have hconsumes := consumeOneTimeToken_eq_ok hconsumed
  simp only [Prod.mk.injEq, Except.ok.injEq] at hok
  obtain ⟨rfl, rfl⟩ := hok
  intro t ht huser hbound
  have ht : t ∈ (db₁.useWhere (fun t => decide (t.userID = locked.id) && decide (t.id ≠ token.id) &&
      DB.passwordBound t.purpose) now).oneTimeTokens := by
    split at ht <;> exact ht
  refine usedAt_of_mem_useWhere ht fun t' ht' hid hsame hpurpose hunused => ?_
  -- the token consumed is the only one the voiding leaves out, and it was used up before
  have hother : t'.id ≠ token.id := by
    intro heq
    rw [hconsumes.db'] at ht'
    obtain ⟨cur, hcur, hcurid, hsent, -⟩ := hconsumes.current
    refine usedAt_of_mem_useWhere ht' (fun u hu huid _ _ _ => ?_) hunused
    have heq' : u = cur := hw.keyed.eq hu hcur (huid.trans (heq.trans hcurid.symm))
    simp [heq', hcurid, hsent]
  simp [hsame, huser, hpurpose, hbound, hother]

/-- A change that commits voids the user's tokens. -/
theorem changePassword_voids (hw : w.Links) {before : DB} {requester : ℕ} {current : String}
    {keepOtherSessions revoked : Bool}
    (hok : svc.changePassword before plain w.db userID current hash keepOtherSessions requester now =
      (.ok revoked, db')) : Voided db' userID := by
  unfold Service.changePassword at hok
  split at hok
  · simp at hok
  rename_i user huserID
  rw [(mem_of_byKey huserID).2] at hok
  split at hok
  · simp at hok
  split at hok
  · simp at hok
  split at hok
  · simp at hok
  split at hok
  · simp at hok
  split at hok
  · simp at hok
  simp only [Prod.mk.injEq, Except.ok.injEq] at hok
  obtain ⟨-, rfl⟩ := hok
  intro t ht huser hbound
  have ht : t ∈ (w.db.useWhere (fun t => decide (t.userID = userID) && decide (t.id ≠ 0) &&
      DB.passwordBound t.purpose) now).oneTimeTokens := by
    split at ht
    · exact ht
    · split at ht <;> exact ht
  refine usedAt_of_mem_useWhere ht fun t' ht' hid hsame hpurpose _ => ?_
  simp [hsame, huser, hpurpose, hbound, hw.ne_zero t' ht']

/-- A token that is used in a state is not consumed later. -/
theorem not_consumed_of_used {w₁ w₂ : World} (hw₂ : w₂.Links) (hsaw : w₂.Saw w₁.db)
    (ht : t ∈ w₁.db.oneTimeTokens) (hused : t.usedAt ≠ none)
    (hok : Service.consumeOneTimeToken plain w₂.db hash purpose now = .ok (token, locked, db')) :
    token.id ≠ t.id := by
  intro hid
  obtain ⟨cur, hcur, hcurid, -, hunused⟩ := (consumeOneTimeToken_eq_ok hok).current
  have hlater := hw₂.later w₁.db hsaw t ht cur hcur (hcurid.trans hid)
  rw [← hlater.usedAt hused] at hused
  exact hused hunused

/-- After a request that voids the user's password-bound tokens, none that was there before is
consumed. -/
theorem not_consumed_after {w₁ w₂ : World} (h₀ : w₀.Init) (h : Run svc.Step w₀ es w)
    (hstep : svc.Step w e w₁) (hused : UsesUp w.db.oneTimeTokens w₁.db.oneTimeTokens)
    (hvoids : Voided w₁.db userID) {es' : List Event} (h' : Run svc.Step w₁ es' w₂)
    (ht : t ∈ w.db.oneTimeTokens) (huser : t.userID = userID)
    (hbound : DB.passwordBound t.purpose = true)
    (hok : Service.consumeOneTimeToken plain w₂.db hash purpose now = .ok (token, locked, db')) :
    token.id ≠ t.id := by
  obtain ⟨f, htokens, hf⟩ := hused.later
  have hlater := hf t ht
  have hmem : f t ∈ w₁.db.oneTimeTokens := htokens ▸ mem_map_of_mem ht
  have hvoid := hvoids (f t) hmem (hlater.userID.trans huser) (hlater.purpose ▸ hbound)
  have hsaw : w₂.Saw w₁.db := h'.preserves (I := fun w => w.Saw w₁.db)
    (fun s e s' hstep hs => by rw [hstep.commit, World.saw_commit]; exact .inr hs) w₁.saw_db
  rw [← hlater.id]
  exact not_consumed_of_used (links_run h₀ ((h.append (.single hstep)).append h')) hsaw hmem hvoid hok

/-! ## Whole histories -/

/-- **One-time tokens.** In every state that requests of any number of processes lead to, at most
one token of a user and purpose is usable; a token is consumed only when its activation committed
before, and no token is accepted twice; a token that is used is never usable again; the steps of a
send that does not deliver leave every usable token as it is; and after a committed password reset
or change no reset or email change token of the user that was there before is consumed. -/
theorem one_time_tokens (h₀ : w₀.Init) (h : Run svc.Step w₀ es w) :
    (∀ now, ∀ t ∈ w.db.oneTimeTokens, ∀ t' ∈ w.db.oneTimeTokens, t.userID = t'.userID →
      t.purpose = t'.purpose → t.Usable now → t'.Usable now → t = t') ∧
    (∀ plain hash purpose now token locked db', w.Saw plain →
      Service.consumeOneTimeToken plain w.db hash purpose now = .ok (token, locked, db') →
      ∃ sent, ⟨.activateToken sent, none⟩ ∈ es ∧ sent.id = token.id) ∧
    (∀ hash, es.countP (Event.accepts hash) ≤ 1) ∧
    (∀ t ∈ w.db.oneTimeTokens, t.usedAt ≠ none → ∀ es' w', Run svc.Step w es' w' →
      ∀ t' ∈ w'.db.oneTimeTokens, t'.id = t.id → ∀ now, ¬ t'.Usable now) ∧
    (∀ e w', svc.Step w e w' → e.FailedSend → w'.db.users = w.db.users ∧
      ∀ now, ∀ t ∈ w.db.oneTimeTokens, t.Usable now → t ∈ w'.db.oneTimeTokens) ∧
    (∀ screen plain hash newHash screened now user db', w.Saw screen → w.Saw plain →
      w.FreshHash newHash →
      svc.consumeReset screen plain w.db hash newHash screened now = (.ok user, db') →
      ∀ es' w', Run svc.Step (w.commit db') es' w' → ∀ t ∈ w.db.oneTimeTokens,
        t.userID = user.id → t.purpose = .resetPassword ∨ t.purpose = .changeEmail →
        ∀ plain hash purpose now token locked db'', w'.Saw plain →
          Service.consumeOneTimeToken plain w'.db hash purpose now = .ok (token, locked, db'') →
          token.id ≠ t.id) ∧
    ∀ before plain userID current hash keepOtherSessions requester now revoked db',
      w.Saw before → w.Saw plain → w.FreshHash hash →
      svc.changePassword before plain w.db userID current hash keepOtherSessions requester now =
        (.ok revoked, db') →
      ∀ es' w', Run svc.Step (w.commit db') es' w' → ∀ t ∈ w.db.oneTimeTokens,
        t.userID = userID → t.purpose = .resetPassword ∨ t.purpose = .changeEmail →
        ∀ plain hash purpose now token locked db'', w'.Saw plain →
          Service.consumeOneTimeToken plain w'.db hash purpose now = .ok (token, locked, db'') →
          token.id ≠ t.id := by
  have hw := links_run h₀ h
  have hbound : ∀ {purpose : TokenPurpose}, purpose = .resetPassword ∨ purpose = .changeEmail →
      DB.passwordBound purpose = true := by
    rintro purpose (rfl | rfl) <;> rfl
  refine ⟨?_, ?_, accepted_run h₀ h, ?_, ?_, ?_, ?_⟩
  · intro now t ht t' ht' huser hpurpose husable husable'
    exact hw.one t ht t' ht' huser hpurpose husable.1 husable'.1
  · intro plain hash purpose now token locked db' _ hok
    obtain ⟨cur, hcur, hid, hsent, -⟩ := (consumeOneTimeToken_eq_ok hok).current
    obtain ⟨sent, hmem, hsentid⟩ :=
      activations_run h₀ h cur hcur (Option.isSome_iff_ne_none.1 hsent)
    exact ⟨sent, hmem, hsentid.trans hid⟩
  · intro t ht hused es' w' h' t' ht' hid now husable
    have hw' := links_run h₀ (h.append h')
    have hsaw : w'.Saw w.db := h'.preserves (I := fun w' => w'.Saw w.db)
      (fun s e s' hstep hs => by rw [hstep.commit, World.saw_commit]; exact .inr hs) w.saw_db
    have hlater := hw'.later w.db hsaw t ht t' ht' hid
    rw [← hlater.usedAt hused] at hused
    exact hused husable.1.2
  · intro e w' hstep he
    exact ⟨hstep.failedSend_users he, fun now t ht husable => hstep.failedSend he t ht husable.1⟩
  · intro screen plain hash newHash screened now user db' hscreen hplain hfresh hok es' w' h' t ht
      huser hpurpose plain' hash' purpose now' token locked db'' _ hconsumed
    have hstep := consumeReset_step hscreen hplain hfresh hok
    exact not_consumed_after h₀ h hstep (hstep.ends trivial).tokens (consumeReset_voids hw hok) h' ht
      huser (hbound hpurpose) hconsumed
  · intro before plain userID current hash keepOtherSessions requester now revoked db' hbefore hplain
      hfresh hok es' w' h' t ht huser hpurpose plain' hash' purpose now' token locked db'' _ hconsumed
    have hstep := changePassword_step hbefore hplain hfresh hok
    exact not_consumed_after h₀ h hstep (hstep.ends trivial).tokens (changePassword_voids hw hok) h' ht
      huser (hbound hpurpose) hconsumed

/-- The token that was mailed can be consumed, and was activated. -/
theorem one_time_tokens_sample : sampleWorld.Init ∧ ∃ es w, Run sampleService.Step sampleWorld es w ∧
    (∃ token locked db', Service.consumeOneTimeToken w.db w.db "reset" .resetPassword 2 =
      .ok (token, locked, db') ∧ token.id = 1) ∧
    ∃ sent, ⟨.activateToken sent, none⟩ ∈ es ∧ sent.id = 1 := by
  obtain ⟨w, hrun, hdb, -⟩ := mailed_run
  obtain ⟨token, locked, db', hok, hid⟩ : ∃ token locked db',
      Service.consumeOneTimeToken w.db w.db "reset" .resetPassword 2 = .ok (token, locked, db') ∧
        token.id = 1 := by
    rw [hdb]
    exact ⟨_, _, _, rfl, rfl⟩
  refine ⟨sampleWorld_init, _, w, hrun, ⟨token, locked, db', hok, hid⟩, ?_⟩
  obtain ⟨sent, hmem, hsent⟩ :=
    (one_time_tokens sampleWorld_init hrun).2.1 _ _ _ _ _ _ _ w.saw_db hok
  exact ⟨sent, hmem, hsent.trans hid⟩

end Gombit.Auth
