import Gombit.Cache.Counters

/-!
# The memory cache and the Redis cache

Each operation of the memory cache should return, and leave behind, what its Redis command does at one
moment between its call and its return. It does, for every run of any number of callers and of the
janitor, except in three cases.

* `counters_refine`: exactly when; and what then holds of the counters (`Counts`). A Redis server that
  runs alongside holds the same at every moment (`exists_mirror`), no increment is lost and no deadline
  moves (`live_of_run`).
* `expired_count_carried_on`: when not. The two readings of the clock in `increment` may lie on either
  side of an expiry; `Get` judges the item it has copied by a later time, when the key may have a new one.

A command depends on the live items only, so one step at a time is enough: `sameKeys_of_step`.
-/

namespace Gombit.Cache

open Machine

variable {ι : Type} [DecidableEq ι] {s s' : Machine ι} {c : ι} {e : Event ι} {t : ℤ}
  {es : List (Event ι)}

/-! ## A Redis server alongside -/

/-- The operation that adds, by its arguments. -/
def addOp (key : String) (delta ttl : ℤ) : Op :=
  if ttl = 0 then .increment key delta else .incrementTTL key delta ttl

theorem adds_addOp {key : String} {delta ttl : ℤ} (h : 0 ≤ ttl) :
    Redis.Adds (addOp key delta ttl) key delta ttl := by
  unfold addOp
  split
  · rename_i hzero
    exact .inl ⟨rfl, hzero⟩
  · exact .inr ⟨rfl, by omega⟩

/-- The writing operation that takes effect at the next step from a stage. -/
def Stage.command : Stage → Option Op
  | .called (.set key value) => some (.set key value)
  | .called (.delete keys) => some (.delete keys)
  | .called (.decrementExisting key delta) => some (.decrementExisting key delta)
  | .adding key delta ttl _ => some (addOp key delta ttl)
  | _ => none

/-- The writing operation that takes effect at a step. -/
def Machine.command (s : Machine ι) : Event ι → Option Op
  | .act c => (s.stage c).command
  | _ => none

/-- What a Redis server has that runs the command of the step, if there is one, at that moment. -/
def alongside (s : Machine ι) (e : Event ι) (keys : Items) : Items :=
  match s.command e with
  | some op => (Redis.perform s.clock op keys).2
  | none => keys

variable {keys : Items}

omit [DecidableEq ι] in
theorem alongside_none (h : (s.stage c).command = none) : alongside s (.act c) keys = keys := by
  simp only [alongside, command, h]

variable {op : Op}

omit [DecidableEq ι] in
theorem alongside_some (h : (s.stage c).command = some op) :
    alongside s (.act c) keys = (Redis.perform s.clock op keys).2 := by
  simp only [alongside, command, h]

/-- **A step of a caller** is the command it stands for, or changes nothing. -/
theorem sameKeys_of_acts (h : Acts c s s') (hinv : Inv s) (hwhole : ¬s.Straddles c) (hold : s.Small)
    (hnew : s'.Small) : SameKeys s.clock (alongside s (.act c) s.items) s'.items := by
  cases h with
  | refused op hstage href =>
    rw [alongside_none]
    · exact .refl _ _
    · rw [hstage]
      cases op <;> first | rfl | cases href
  | missing key hstage =>
    rw [alongside_none (by rw [hstage]; rfl)]
    exact .refl _ _
  | copies key item hstage =>
    rw [alongside_none (by rw [hstage]; rfl)]
    exact .refl _ _
  | hits key item hstage =>
    rw [alongside_none (by rw [hstage]; rfl)]
    exact .refl _ _
  | judges key item hstage =>
    rw [alongside_none (by rw [hstage]; rfl)]
    exact .refl _ _
  | drops key hstage =>
    rw [alongside_none (by rw [hstage]; rfl)]
    exact Memory.sameKeys_dropExpired s.items le_rfl key
  | sets key value hstage =>
    rw [alongside_some (by rw [hstage]; rfl)]
    exact .refl _ _
  | deletes keys hstage =>
    rw [alongside_some (by rw [hstage]; rfl)]
    exact .refl _ _
  | overflows op key delta ttl hstage hop =>
    rw [alongside_none]
    · exact .refl _ _
    · rw [hstage]
      obtain ⟨rfl, -⟩ | ⟨rfl, -⟩ := hop <;> rfl
  | reads op key delta ttl hstage hop =>
    rw [alongside_none]
    · exact .refl _ _
    · rw [hstage]
      obtain ⟨rfl, -⟩ | ⟨rfl, -⟩ := hop <;> rfl
  | adds key delta ttl current hstage =>
    obtain ⟨hover, httl⟩ := hinv.safe c _ _ _ _ hstage
    have hcurrent := hinv.current_eq hstage hwhole
    rw [alongside_some (by rw [hstage]; rfl)]
    rw [hcurrent] at hover ⊢
    exact (Redis.perform_adds (adds_addOp httl) hover).2
  | decrements key delta hstage =>
    rw [alongside_some (by rw [hstage]; rfl), leave_items]
    unfold Memory.decrementExisting at hnew ⊢
    cases hitem : live s.items s.clock key with
    | none =>
      rw [Redis.perform_decrementExisting_of_none hitem]
      exact .refl _ _
    | some item =>
      simp only [hitem] at hnew ⊢
      cases hover : subOverflows item.value delta with
      | true =>
        rw [Redis.perform_decrementExisting_of_overflows hitem (.inr hover)]
        exact .refl _ _
      | false =>
        rw [hover] at hnew
        have hsum : |item.value - delta| ≤ 2 ^ 53 - 1 := hnew key _ (AList.lookup_insert s.items)
        have hitem' := hold key item (live_eq_some_iff.1 hitem).1
        have hdelta : delta ≠ minInt64 := by
          rintro rfl
          simp only [minInt64, abs_le] at hsum hitem'
          omega
        rw [Redis.perform_decrementExisting hitem hdelta hover]
        exact .refl _ _

/-- **A step of the machine**, with a Redis server alongside that holds the same. -/
theorem sameKeys_of_step (h : Step s e s') (hinv : Inv s)
    (hwhole : ∀ c, e = .act c → ¬s.Straddles c) (hold : s.Small) (hnew : s'.Small)
    (hkeys : SameKeys s.clock s.items keys) : SameKeys s'.clock s'.items (alongside s e keys) := by
  have hle := clock_le_of_step h
  cases e with
  | tick d =>
    rw [step_tick h] at hle ⊢
    exact hkeys.mono hle
  | call c op =>
    rw [(step_call h).2]
    exact hkeys
  | ret c reply =>
    rw [(step_ret h).2]
    exact hkeys
  | sweep order =>
    have hsweeps := sweeps_of_step h
    rw [clock_of_sweeps hsweeps]
    refine .trans (.symm ?_) hkeys
    cases hsweeps with
    | batch now keys' hjanitor hlock =>
      exact Memory.sameKeys_sweepBatch _ _ (hinv.sweeping now keys' hjanitor)
    | _ => exact .refl _ _
  | act c =>
    have hacts := acts_of_step h
    rw [clock_of_acts hacts]
    refine .trans (sameKeys_of_acts hacts hinv (hwhole c rfl) hold hnew).symm ?_
    cases hcommand : (s.stage c).command with
    | none => rwa [alongside_none hcommand, alongside_none hcommand]
    | some op =>
      rw [alongside_some hcommand, alongside_some hcommand]
      exact (Redis.perform_congr op hkeys).2

/-- No increment of the run straddles an expiry. -/
def Whole (t : ℤ) (es : List (Event ι)) : Prop :=
  ∀ a c b x, es = a ++ .act c :: b → Run Step (new t) a x → ¬x.Straddles c

/-- A step of the machine and of the Redis server alongside. -/
def MirrorStep (p : Machine ι × Items) (e : Event ι) (p' : Machine ι × Items) : Prop :=
  Step p.1 e p'.1 ∧ p'.2 = alongside p.1 e p.2

variable {a b : List (Event ι)}

/-- A step of the run, with all that is known of it. -/
theorem sameKeys_of_reached (hsmall : Within t es) (hwhole : Whole t es)
    (hsplit : es = a ++ e :: b) (hrun : Run Step (new t) a s) (h : Step s e s')
    (hkeys : SameKeys s.clock s.items keys) : SameKeys s'.clock s'.items (alongside s e keys) := by
  have hnew : s'.Small := hsmall (a ++ [e]) b s' (by simp [hsplit]) (hrun.append (.single h))
  refine sameKeys_of_step h (inv_of_run hrun) ?_ (hsmall a (e :: b) s hsplit hrun) hnew hkeys
  rintro c rfl
  exact hwhole a c b s hsplit hrun

/-- **The whole run.** A Redis server that runs each writing command at the moment its operation
writes holds what the memory cache holds, at every moment. -/
theorem exists_mirror (hsmall : Within t es) (hwhole : Whole t es) (hsplit : es = a ++ b)
    (hrun : Run Step (new t) a s) :
    ∃ keys, Run MirrorStep (new t, ∅) a (s, keys) ∧ SameKeys s.clock s.items keys := by
  induction a using List.reverseRecOn generalizing b s with
  | nil =>
    cases hrun
    exact ⟨∅, .nil _, .refl _ _⟩
  | append_singleton a e ih =>
    obtain ⟨s₁, hrun₁, hstep⟩ := hrun.snoc_inv
    have hsplit₁ : es = a ++ e :: b := by simp [hsplit]
    obtain ⟨keys, hmirror, hkeys⟩ := ih hsplit₁ hrun₁
    exact ⟨alongside s₁ e keys, hmirror.append (.single ⟨hstep, rfl⟩),
      sameKeys_of_reached hsmall hwhole hsplit₁ hrun₁ hstep hkeys⟩

/-! ## What that means for a counter -/

/-- The operation puts an end to what is stored under the key. -/
def Op.clears (key : String) : Op → Bool
  | .set k _ => decide (k = key)
  | .delete keys => decide (key ∈ keys)
  | _ => false

/-- What the operation adds to the count of a key, unless it would overflow. -/
def Op.gain (key : String) (current : ℤ) : Op → ℤ
  | .increment k delta => if k = key ∧ addOverflows current delta = false then delta else 0
  | .incrementTTL k delta _ => if k = key ∧ addOverflows current delta = false then delta else 0
  | .decrementExisting k delta =>
    if k = key ∧ delta ≠ minInt64 ∧ subOverflows current delta = false then -delta else 0
  | _ => 0

namespace Redis

variable {items : Items} {now later v d : ℤ} {key : String}

theorem live_mono {i : Item} (hle : now ≤ later) (h : live items now key = some i)
    (hi : i.expired later = false) : live items later key = some i := by
  rw [live_later items hle, h]
  simp [hi]

theorem live_perform_adds {k : String} {delta ttl : ℤ} (hop : Adds op k delta ttl)
    (hlive : live items now key = some ⟨v, some d⟩) (hle : now ≤ later) (hlt : later < d) :
    live (perform now op items).2 later key =
      some ⟨v + (if k = key ∧ addOverflows v delta = false then delta else 0), some d⟩ := by
  have halive : ∀ n, Item.expired ⟨n, some d⟩ later = false := by
    intro n
    simpa [Item.expired] using hlt
  by_cases hk : k = key
  · subst hk
    cases hover : addOverflows v delta with
    | true =>
      rw [perform_adds_of_overflows hop (by simpa [hlive, countOf] using hover)]
      simpa using live_mono hle hlive (halive v)
    | false =>
      have hcount : countOf (live items now k) = v := by simp [hlive, countOf]
      have hsame := (perform_adds hop (hcount.symm ▸ hover)).2
      rw [hsame.mono hle k, live_insert]
      simp [Memory.increased, hlive, countOf, halive]
  · simp only [hk, false_and, if_false, add_zero]
    cases hover : addOverflows (countOf (live items now k)) delta with
    | true =>
      rw [perform_adds_of_overflows hop hover]
      exact live_mono hle hlive (halive v)
    | false =>
      rw [(perform_adds hop hover).2.mono hle key, live_insert_ne (Ne.symm hk)]
      exact live_mono hle hlive (halive v)

/-- **A counter with a deadline** keeps it, and has what is added to it added. -/
theorem live_perform_kept (href : op.refused = false) (hclears : op.clears key = false)
    (hlive : live items now key = some ⟨v, some d⟩) (hle : now ≤ later) (hlt : later < d) :
    live (perform now op items).2 later key = some ⟨v + op.gain key v, some d⟩ := by
  have halive : ∀ n, Item.expired ⟨n, some d⟩ later = false := by
    intro n
    simpa [Item.expired] using hlt
  have hkept : live items later key = some ⟨v + 0, some d⟩ := by
    simpa using live_mono hle hlive (halive v)
  cases op with
  | get k => exact hkept
  | set k value =>
    have hk : k ≠ key := by simpa [Op.clears] using hclears
    exact (live_insert_ne hk.symm).trans hkept
  | delete keys =>
    have hmem : key ∉ keys := by simpa [Op.clears] using hclears
    exact (Memory.live_delete items keys later key).trans (by rw [if_neg hmem]; exact hkept)
  | increment k delta => exact live_perform_adds (.inl ⟨rfl, rfl⟩) hlive hle hlt
  | incrementTTL k delta ttl =>
    exact live_perform_adds (.inr ⟨rfl, by simpa [Op.refused] using href⟩) hlive hle hlt
  | decrementExisting k delta =>
    simp only [Op.gain]
    cases hitem : live items now k with
    | none =>
      have hk : k ≠ key := by
        rintro rfl
        rw [hlive] at hitem
        cases hitem
      rw [perform_decrementExisting_of_none hitem, if_neg (by simp [hk])]
      exact hkept
    | some item =>
      by_cases hover : delta = minInt64 ∨ subOverflows item.value delta = true
      · rw [perform_decrementExisting_of_overflows hitem hover, if_neg]
        · exact hkept
        · rintro ⟨rfl, hdelta, hsub⟩
          rw [hlive] at hitem
          cases hitem
          rcases hover with hover | hover
          · exact hdelta hover
          · rw [hsub] at hover
            cases hover
      · obtain ⟨hdelta, hsub⟩ := not_or.1 hover
        rw [Bool.not_eq_true] at hsub
        rw [perform_decrementExisting hitem hdelta hsub]
        by_cases hk : k = key
        · subst hk
          rw [hlive] at hitem
          cases hitem
          have hgain : k = k ∧ delta ≠ minInt64 ∧ subOverflows v delta = false := ⟨rfl, hdelta, hsub⟩
          rw [live_insert, halive, if_pos hgain, sub_eq_add_neg]
          rfl
        · rw [live_insert_ne (Ne.symm hk), if_neg (by simp [hk])]
          exact hkept

end Redis

/-- What a step adds to the count of a key. -/
def Machine.gain (s : Machine ι) (key : String) (e : Event ι) : ℤ :=
  match s.command e with
  | some op => op.gain key (countOf (live s.items s.clock key))
  | none => 0

/-- What the steps of a run add to the count of a key. -/
def Machine.gained (s : Machine ι) (key : String) : List (Event ι) → ℤ
  | [] => 0
  | e :: es =>
    match s.next e with
    | some s' => s.gain key e + s'.gained key es
    | none => 0

theorem gained_snoc {mid : List (Event ι)} (key : String) (h : Run Step s mid s') {s'' : Machine ι}
    (hstep : Step s' e s'') : s.gained key (mid ++ [e]) = s.gained key mid + s'.gain key e := by
  induction h with
  | nil s =>
    have hnext : s.next e = some s'' := hstep
    simp [gained, hnext]
  | @cons s s₁ s₂ e' mid hfirst _ ih =>
    have hnext : s.next e' = some s₁ := hfirst
    simp [gained, hnext, ih hstep, add_assoc]

/-- A step that does not set or delete the key. -/
def Leaves (key : String) (s : Machine ι) (e : Event ι) (s' : Machine ι) : Prop :=
  Step s e s' ∧ ∀ op, s.command e = some op → op.clears key = false

omit [DecidableEq ι] in
theorem not_refused_of_command (hinv : Inv s) (h : s.command e = some op) : op.refused = false := by
  cases e with
  | act c =>
    change (s.stage c).command = some op at h
    unfold Stage.command at h
    split at h
    · cases h
      rfl
    · cases h
      rfl
    · cases h
      rfl
    · rename_i key delta ttl current hstage
      cases h
      have httl := (hinv.safe c key delta ttl current hstage).2
      unfold addOp
      split
      · rfl
      · simp only [Op.refused, decide_eq_false_iff_not]
        omega
    · cases h
  | _ => cases h

/-- One step of a counter with a deadline, before the deadline. -/
theorem live_of_leaves {key : String} {v d : ℤ} (hsmall : Within t es) (hwhole : Whole t es)
    (hsplit : es = a ++ e :: b) (hrun : Run Step (new t) a s) (h : Leaves key s e s')
    (hlive : live s.items s.clock key = some ⟨v, some d⟩) (hlt : s'.clock < d) :
    live s'.items s'.clock key = some ⟨v + s.gain key e, some d⟩ := by
  have hle := clock_le_of_step h.1
  rw [sameKeys_of_reached hsmall hwhole hsplit hrun h.1 (.refl _ _) key]
  unfold alongside gain
  cases hcommand : s.command e with
  | none =>
    have halive : Item.expired ⟨v, some d⟩ s'.clock = false := by simpa [Item.expired] using hlt
    simpa using Redis.live_mono hle hlive halive
  | some op =>
    have href := not_refused_of_command (inv_of_run hrun) hcommand
    have hcount : countOf (live s.items s.clock key) = v := by simp [hlive, countOf]
    dsimp only
    rw [Redis.live_perform_kept href (h.2 op hcommand) hlive hle hlt, hcount]

/-- **No increment is lost, and the deadline stays.** As long as nobody sets or deletes the key and the
deadline has not come, a counter has its deadline and what was added to it. -/
theorem live_of_run {key : String} {v d : ℤ} (hsmall : Within t es) (hwhole : Whole t es)
    {mid : List (Event ι)} (hsplit : es = a ++ (mid ++ b)) (hrun : Run Step (new t) a s)
    (h : Run (Leaves key) s mid s') (hlive : live s.items s.clock key = some ⟨v, some d⟩)
    (hlt : s'.clock < d) :
    Run Step s mid s' ∧
      live s'.items s'.clock key = some ⟨v + s.gained key mid, some d⟩ := by
  induction mid using List.reverseRecOn generalizing b s' with
  | nil =>
    cases h
    exact ⟨.nil s, by simpa [gained] using hlive⟩
  | append_singleton mid e ih =>
    obtain ⟨s₁, hmid, hstep⟩ := h.snoc_inv
    have hle := clock_le_of_step hstep.1
    obtain ⟨hrun₁, hlive₁⟩ := ih (by simpa using hsplit) hmid (by omega)
    refine ⟨hrun₁.append (.single hstep.1), ?_⟩
    rw [gained_snoc key hrun₁ hstep.1, ← add_assoc]
    exact live_of_leaves hsmall hwhole (by simpa using hsplit) (hrun.append hrun₁) hstep hlive₁ hlt

/-- **What holds of the counters of a run.** -/
structure Counts (t : ℤ) (es : List (Event ι)) : Prop where
  /-- A Redis server alongside holds the same at every moment. -/
  mirrored : ∀ a b s, es = a ++ b → Run Step (new t) a s →
    ∃ keys, Run MirrorStep (new t, ∅) a (s, keys) ∧ SameKeys s.clock s.items keys
  /-- No increment is lost, and a deadline is kept. -/
  kept : ∀ a mid b s s' key v d, es = a ++ (mid ++ b) → Run Step (new t) a s →
    Run (Leaves key) s mid s' → live s.items s.clock key = some ⟨v, some d⟩ → s'.clock < d →
      live s'.items s'.clock key = some ⟨v + s.gained key mid, some d⟩
  /-- A counter with a deadline is gone when the deadline comes. -/
  expires : ∀ a mid n b s s' s'' key v d, es = a ++ (mid ++ .tick n :: b) → Run Step (new t) a s →
    Run (Leaves key) s mid s' → live s.items s.clock key = some ⟨v, some d⟩ → s'.clock < d →
      Step s' (.tick n) s'' → d ≤ s''.clock → live s''.items s''.clock key = none
  /-- A count that has expired is not carried on. -/
  fresh : ∀ a c b s s' key delta ttl current, es = a ++ .act c :: b → Run Step (new t) a s →
    Step s (.act c) s' → s.stage c = .adding key delta ttl current →
      live s.items s.clock key = none → ∃ i, live s'.items s'.clock key = some i ∧ i.value = delta
  /-- A decrement creates no key. -/
  creates : ∀ a c b s s' key key' delta, es = a ++ .act c :: b → Run Step (new t) a s →
    Step s (.act c) s' → s.stage c = .called (.decrementExisting key delta) →
      live s.items s.clock key' = none → live s'.items s'.clock key' = none

theorem counts (hsmall : Within t es) (hwhole : Whole t es) : Counts t es where
  mirrored _ _ _ hsplit hrun := exists_mirror hsmall hwhole hsplit hrun
  kept _ _ _ _ _ _ _ _ hsplit hrun h hlive hlt := (live_of_run hsmall hwhole hsplit hrun h hlive hlt).2
  expires := by
    intro a mid n b s s' s'' key v d hsplit hrun h hlive hlt hstep hge
    have hlive' := (live_of_run hsmall hwhole hsplit hrun h hlive hlt).2
    rw [step_tick hstep] at hge ⊢
    exact live_eq_none_of_expired (live_eq_some_iff.1 hlive').1 (by simpa [Item.expired] using hge)
  fresh := by
    intro a c b s s' key delta ttl current hsplit hrun hstep hstage hnone
    have hinv := inv_of_run hrun
    have hcurrent := hinv.current_eq hstage (hwhole a c b s hsplit hrun)
    obtain rfl := (acts_of_step hstep).of_adding hstage
    refine ⟨_, live_eq_some_iff.2 ⟨AList.lookup_insert _, Redis.not_expired_increased _ _⟩, ?_⟩
    rw [hcurrent, hnone]
    exact zero_add delta
  creates := by
    intro a c b s s' key key' delta hsplit hrun hstep hstage hnone
    obtain rfl := (acts_of_step hstep).of_decrementExisting hstage
    rw [leave_clock, leave_items]
    unfold Memory.decrementExisting
    cases hitem : live s.items s.clock key with
    | none => exact hnone
    | some item =>
      dsimp only
      split
      · exact hnone
      · have hne : key' ≠ key := by
          rintro rfl
          rw [hnone] at hitem
          cases hitem
        rw [live_insert_ne hne, hnone]

/-! ## The refinement -/

/-- **The memory cache against Redis.** Every operation of a run is the Redis command at one moment
between its call and its return exactly when no increment straddles the expiry of a count it adds to, no
`Get` is overtaken, and no decrement would overflow. Where no increment straddles an expiry, the counters
are those of a Redis server. -/
theorem counters_refine (hsmall : Within t es) :
    ((∀ o : Operation t es, ∃ x, o.AtMoment x) ↔
        ∀ o : Operation t es, ¬o.Straddles ∧ ¬o.Overtaken ∧ ¬o.Refused) ∧
      (Whole t es → Counts t es) :=
  ⟨forall_congr' fun o => o.atMoment_iff hsmall, counts hsmall⟩

/-! ### Runs -/

/-- `Machine.Small`, evaluated. -/
def Machine.small (s : Machine ι) : Bool :=
  s.items.entries.all fun e => decide (|e.2.value| ≤ 2 ^ 53 - 1)

omit [DecidableEq ι] in
theorem small_of_entries (h : s.small = true) : s.Small := by
  intro key item hitem
  have hmem := List.all_eq_true.1 h _ (Table.mem_entries_iff.2 hitem)
  simpa using hmem

/-- No item has expired. -/
def Machine.unexpired (s : Machine ι) : Bool := s.items.entries.all fun e => !e.2.expired s.clock

/-- A test passes at every moment of the run. -/
def passes (t : ℤ) (es : List (Event ι)) (p : Machine ι → Bool) : Bool :=
  (List.range (es.length + 1)).all fun k => ((new t).runs (es.take k)).all p

theorem of_passes {p : Machine ι → Bool} (h : passes t (a ++ b) p = true)
    (hrun : Run Step (new t) a s) : p s = true := by
  have hmem : a.length ∈ List.range ((a ++ b).length + 1) := by
    rw [List.mem_range, List.length_append]
    omega
  have hk := List.all_eq_true.1 h a.length hmem
  rwa [List.take_left, run_iff.1 hrun] at hk

theorem within_of_passes (h : passes t es Machine.small = true) : Within t es := by
  rintro a b x rfl hrun
  exact small_of_entries (of_passes h hrun)

theorem whole_of_passes (h : passes t es Machine.unexpired = true) : Whole t es := by
  rintro a c b x rfl hrun ⟨key, delta, ttl, item, -, hitem, -, hexpired⟩
  have hall := List.all_eq_true.1 (of_passes h hrun) _ (AList.mem_lookup_iff.1 hitem)
  rw [hexpired] at hall
  cases hall

theorem Operation.Moment.take {o : Operation t es} (h : o.Moment s) :
    ∃ k ∈ List.range (o.during.length + 1), o.start.runs (o.during.take k) = some s := by
  obtain ⟨a, b, hsplit, hrun, -⟩ := h
  refine ⟨a.length, ?_, ?_⟩
  · rw [List.mem_range, hsplit, List.length_append]
    omega
  rw [hsplit, List.take_left]
  exact run_iff.1 hrun

/-- A caller starts a window of 10 ms with a count of 5. -/
def window : List (Event Bool) :=
  [.call false (.incrementTTL "k" 5 10), .act false, .act false, .ret false (.count 5)]

/-- In the last millisecond of the window the caller adds 1; the window ends between its two readings
of the clock. -/
def straddlingRun : List (Event Bool) :=
  window ++ .tick 9 :: .call false (.increment "k" 1) ::
    ([.act false, .tick 1, .act false] ++ .ret false (.count 6) :: [.tick 1000000])

/-- In the last millisecond of the window one caller gets the count while another sets it. -/
def overtakingRun : List (Event Bool) :=
  window ++ .tick 9 :: .call false (.get "k") ::
    ([.act false, .call true (.set "k" 7), .act true, .ret true .done, .tick 1, .act false, .act false]
      ++ .ret false .done :: [])

/-- While the window lasts, one caller gets the count and the other adds to it. -/
def sharedRun : List (Event Bool) :=
  window ++ [.tick 3, .call false (.increment "k" 1), .call true (.get "k"), .act true, .act false,
    .tick 2, .act false, .act true, .ret false (.count 6), .ret true (.hit 5)]

theorem counters_refine_window :
    ((new 0).runs sharedRun).isSome = true ∧
      ((∀ o : Operation 0 sharedRun, ∃ x, o.AtMoment x) ↔
        ∀ o : Operation 0 sharedRun, ¬o.Straddles ∧ ¬o.Overtaken ∧ ¬o.Refused) ∧
      Counts 0 sharedRun := by
  have hwithin : Within 0 sharedRun := within_of_passes (by decide +kernel)
  obtain ⟨hiff, hcounts⟩ := counters_refine hwithin
  exact ⟨by decide +kernel, hiff, hcounts (whole_of_passes (by decide +kernel))⟩

theorem exists_straddles : ∃ o : Operation 0 straddlingRun, o.op = .increment "k" 1 ∧ o.Straddles := by
  have heval : ((new 0 : Machine Bool).runs (window ++ [.tick 9] ++ [.call false (.increment "k" 1)])).any
      (fun start => (start.runs [.act false, .tick 1]).any fun y =>
        (decide (y.stage false = .adding "k" 1 0 5) &&
          decide (y.items.lookup "k" = some ⟨5, some 10⟩) && decide (y.clock = 10)) &&
        (y.next (.act false)).any fun y' =>
          decide (y'.stage false = .returning (.count 6))) = true := by
    decide +kernel
  simp only [Option.any_eq_true, Bool.and_eq_true, decide_eq_true_eq] at heval
  obtain ⟨start, hstart, y, hy, ⟨⟨hstage, hitem⟩, hclock⟩, y', hstep, hreply⟩ := heval
  refine ⟨⟨false, .increment "k" 1, .count 6, window ++ [.tick 9], [.act false, .tick 1, .act false],
    [.tick 1000000], start, y', rfl, run_iff.2 hstart,
    ⟨(run_iff.2 hy).append (.single hstep), by simp, hreply⟩⟩, rfl, ?_⟩
  refine ⟨y, y', ⟨[.act false, .tick 1], [], rfl, run_iff.2 hy, hstep, .nil y'⟩, ?_⟩
  exact ⟨"k", 1, 0, ⟨5, some 10⟩, hstage, hitem, by decide, by simp [Item.expired, hclock]⟩

theorem exists_overtaken : ∃ o : Operation 0 overtakingRun, o.op = .get "k" ∧ o.Overtaken := by
  have heval : ((new 0 : Machine Bool).runs (window ++ [.tick 9] ++ [.call false (.get "k")])).any
      (fun start =>
        ((List.range 8).all fun k =>
          (start.runs (([.act false, .call true (.set "k" 7), .act true, .ret true .done, .tick 1,
            .act false, .act false] : List (Event Bool)).take k)).all fun x =>
              (live x.items x.clock "k").isSome) &&
        (start.runs [.act false, .call true (.set "k" 7), .act true, .ret true .done, .tick 1]).any
          fun y =>
            (decide (y.stage false = .copied "k" ⟨5, some 10⟩) && decide (y.clock = 10)) &&
            (y.next (.act false)).any fun y' => (y'.next (.act false)).any fun y'' =>
              decide (y''.stage false = .returning .done)) = true := by
    decide +kernel
  simp only [Option.any_eq_true, Bool.and_eq_true, decide_eq_true_eq] at heval
  obtain ⟨start, hstart, hlive, y, hy, ⟨hstage, hclock⟩, y', hstep, y'', hstep', hreply⟩ := heval
  refine ⟨⟨false, .get "k", .done, window ++ [.tick 9],
    [.act false, .call true (.set "k" 7), .act true, .ret true .done, .tick 1, .act false, .act false],
    [], start, y'', rfl, run_iff.2 hstart,
    ⟨(run_iff.2 hy).append (.cons hstep (.single hstep')), by simp, hreply⟩⟩, rfl, ?_⟩
  refine ⟨y, y', "k", ⟨5, some 10⟩, ⟨_, [.act false], rfl, run_iff.2 hy, hstep, .single hstep'⟩, hstage,
    by simp [Item.expired, hclock], fun x hx => ?_⟩
  obtain ⟨k, hk, hruns⟩ := hx.take
  have hsome := List.all_eq_true.1 hlive k hk
  rw [hruns] at hsome
  exact Option.isSome_iff_ne_none.1 hsome

/-- **The memory cache does not refine Redis.** An increment that straddles the end of a window returns
and leaves the old count with 1 added and without an expiry, for good; a `Get` finds a key missing that
has been there all the time. Redis does neither at any moment. -/
theorem expired_count_carried_on :
    Within 0 straddlingRun ∧ (¬∀ o : Operation 0 straddlingRun, ∃ x, o.AtMoment x) ∧
      (((new 0 : Machine Bool).runs straddlingRun).map fun s => live s.items s.clock "k") =
        some (some ⟨6, none⟩) ∧
      Within 0 overtakingRun ∧ ¬∀ o : Operation 0 overtakingRun, ∃ x, o.AtMoment x := by
  have hstraddling : Within 0 straddlingRun := within_of_passes (by decide +kernel)
  have hovertaking : Within 0 overtakingRun := within_of_passes (by decide +kernel)
  obtain ⟨o, hop, ho⟩ := exists_straddles
  obtain ⟨o', hop', ho'⟩ := exists_overtaken
  refine ⟨hstraddling, fun h => ?_, by decide +kernel, hovertaking, fun h => ?_⟩
  · exact (o.atMoment_iff_of_adds hstraddling (.inl ⟨hop, rfl⟩)).1 (h o) ho
  · exact (o'.atMoment_iff_of_get hop').1 (h o') ho'

end Gombit.Cache
