import Gombit.Cache.Callers

/-!
# Operations of the memory cache as Redis commands

An `Operation` of a run has a call, steps of its own between those of others, and a return. It is the
Redis command at the moment `x` (`AtMoment`) when the command, run on what the store holds at `x`, gives
the reply the operation returns and leaves what the operation leaves.

The caller's own steps are found one after another: `Works.next` is the next one and `Works.done` says
that there is none after the reply. With them each kind of operation is followed from its call to its
return (`atMoment_iff_of_get`, `atMoment_iff_of_adds`, `atMoment_iff_of_decrementExisting`), and
`atMoment_iff` puts them together.
-/

namespace Gombit.Cache

open Machine Redis

variable {ι : Type} [DecidableEq ι] {s s' y y' z z' x : Machine ι} {c : ι} {e : Event ι}

/-- The stored counts are small. -/
def Machine.Small (s : Machine ι) : Prop :=
  ∀ key item, s.items.lookup key = some item → |item.value| ≤ 2 ^ 53 - 1

/-- The counters stay within what a double can count. -/
def Within (t : ℤ) (es : List (Event ι)) : Prop :=
  ∀ a b x, es = a ++ b → Run Step (new t) a x → x.Small

/-! ## An operation of a run -/

/-- A caller works, from `s` on, until it has the reply `r`. -/
structure Works (c : ι) (r : Reply) (s : Machine ι) (mid : List (Event ι)) (s' : Machine ι) :
    Prop where
  run : Run Step s mid s'
  one : ∀ r', .ret c r' ∉ mid
  ends : s'.stage c = .returning r

/-- A moment of a run. -/
def Moment (s : Machine ι) (mid : List (Event ι)) (s' x : Machine ι) : Prop :=
  ∃ a b, mid = a ++ b ∧ Run Step s a x ∧ Run Step x b s'

/-- A step the caller takes itself. -/
def Own (c : ι) (s : Machine ι) (mid : List (Event ι)) (s' y y' : Machine ι) : Prop :=
  ∃ a b, mid = a ++ .act c :: b ∧ Run Step s a y ∧ Step y (.act c) y' ∧ Run Step y' b s'

variable {mid : List (Event ι)}

theorem Own.moment (h : Own c s mid s' y y') : Moment s mid s' y := by
  obtain ⟨a, b, rfl, hrun, hstep, hrest⟩ := h
  exact ⟨a, .act c :: b, rfl, hrun, .cons hstep hrest⟩

/-- Two ways to split a list at a value: at the same place, or the second one later. -/
theorem split_eq {α : Type*} {a a' b b' : List α} {v : α} (h : a ++ v :: b = a' ++ v :: b')
    (hv : v ∉ a) : a' = a ∧ b' = b ∨ ∃ m, a' = a ++ v :: m ∧ b = m ++ v :: b' := by
  rcases List.append_eq_append_iff.1 h with ⟨m, rfl, hm⟩ | ⟨m, rfl, hm⟩
  · cases m with
    | nil =>
      simp only [List.nil_append, List.cons.injEq, true_and] at hm
      exact .inl ⟨by simp, hm.symm⟩
    | cons w m =>
      simp only [List.cons_append, List.cons.injEq] at hm
      obtain ⟨rfl, rfl⟩ := hm
      exact .inr ⟨m, rfl, rfl⟩
  · cases m with
    | nil =>
      simp only [List.nil_append, List.cons.injEq, true_and] at hm
      exact .inl ⟨by simp, hm⟩
    | cons w m =>
      simp only [List.cons_append, List.cons.injEq] at hm
      obtain ⟨rfl, -⟩ := hm
      exact absurd (by simp) hv

/-- The caller's own steps are its first one and the own steps of the rest. -/
theorem own_iff {a b : List (Event ι)} (hrun : Run Step s a y) (hstep : Step y (.act c) y')
    (hfirst : .act c ∉ a) :
    Own c s (a ++ .act c :: b) s' z z' ↔
      z = y ∧ z' = y' ∧ Run Step y' b s' ∨ Own c y' b s' z z' := by
  constructor
  · rintro ⟨a', b', heq, hrun', hstep', hrest⟩
    obtain ⟨rfl, rfl⟩ | ⟨m, rfl, rfl⟩ := split_eq heq hfirst
    · obtain rfl := hrun.det step_det hrun'
      obtain rfl := step_det _ _ _ _ hstep hstep'
      exact .inl ⟨rfl, rfl, hrest⟩
    · obtain ⟨y₁, hrun₁, hrun₂⟩ := hrun'.append_inv
      obtain ⟨y₂, hstep₂, hrun₃⟩ := hrun₂.cons_inv
      obtain rfl := hrun.det step_det hrun₁
      obtain rfl := step_det _ _ _ _ hstep hstep₂
      exact .inr ⟨m, b', rfl, hrun₃, hstep', hrest⟩
  · rintro (⟨rfl, rfl, hrest⟩ | ⟨a', b', rfl, hrun', hstep', hrest⟩)
    · exact ⟨a, b, rfl, hrun, hstep, hrest⟩
    · exact ⟨a ++ .act c :: a', b', by simp, hrun.append (.cons hstep hrun'), hstep', hrest⟩

variable {r : Reply}

/-- A step of a caller: it calls, it acts, or it returns. -/
theorem step_of_actor (h : Step s e s') (hactor : e.actor = some c) :
    s.stage c = .idle ∨ e = .act c ∨ ∃ r, e = .ret c r ∧ s.stage c = .returning r := by
  cases e with
  | tick | sweep => cases hactor
  | call c' op =>
    cases hactor
    exact .inl (step_call h).1
  | act c' =>
    cases hactor
    exact .inr (.inl rfl)
  | ret c' reply =>
    cases hactor
    exact .inr (.inr ⟨reply, rfl, (step_ret h).1⟩)

theorem Acts.stage_ne (h : Acts c s s') : s.stage c ≠ .returning r := by
  cases h <;> simp [*]

/-- What holds of a caller's stage and is kept by its own steps holds until it returns. -/
theorem stage_preserves {P : Stage → Prop} (hrun : Run Step s mid x) (hone : ∀ r, .ret c r ∉ mid)
    (hidle : ¬P .idle) (hacts : ∀ {y y'}, Acts c y y' → P (y.stage c) → P (y'.stage c))
    (hs : P (s.stage c)) : P (x.stage c) := by
  refine hrun.preserves_while (I := fun x => P (x.stage c)) (P := fun e => ∀ r, e ≠ .ret c r)
    ?_ ?_ hs
  · intro s₁ e s₂ hstep hne hs₁
    by_cases hactor : e.actor = some c
    · obtain hstage | rfl | ⟨r, rfl, -⟩ := step_of_actor hstep hactor
      · exact absurd (hstage ▸ hs₁) hidle
      · exact hacts (acts_of_step hstep) hs₁
      · exact absurd rfl (hne r)
    · rwa [stage_of_step hstep hactor]
  · rintro e he r rfl
    exact hone r he

/-- A caller that has its reply takes no further step of its own. -/
theorem Works.done {r' : Reply} (h : Works c r s mid s') (hstage : s.stage c = .returning r') :
    r' = r ∧ ∀ z z', ¬Own c s mid s' z z' := by
  have hkeeps : ∀ {a b x}, mid = a ++ b → Run Step s a x → x.stage c = .returning r' := by
    rintro a b x rfl hrun
    exact stage_preserves (P := (· = .returning r')) hrun
      (fun r hmem => h.one r (List.mem_append_left b hmem)) (by simp)
      (fun hacts hs => absurd hs hacts.stage_ne) hstage
  constructor
  · have hend := hkeeps (b := []) (by simp) h.run
    rw [h.ends] at hend
    cases hend
    rfl
  · rintro z z' ⟨a, b, heq, hrun, hstep, -⟩
    exact (acts_of_step hstep).stage_ne (hkeeps heq hrun)

/-- **The next own step** of a caller that has no reply yet. -/
theorem Works.next {stage : Stage} (h : Works c r s mid s') (hstage : s.stage c = stage)
    (hidle : stage ≠ .idle) (hret : ∀ r', stage ≠ .returning r') :
    ∃ a y y' b, Run Step s a y ∧ y.stage c = stage ∧ Acts c y y' ∧ Works c r y' b s' ∧
      ∀ z z', Own c s mid s' z z' ↔ z = y ∧ z' = y' ∨ Own c y' b s' z z' := by
  obtain ⟨a, e, b, y, y', rfl, hothers, hactor, hy, hrun, hstep, hrest⟩ :=
    h.run.exists_first (I := fun x => x.stage c = stage) (P := fun e => e.actor ≠ some c)
      (fun s₁ e s₂ hstep hne hs₁ => (stage_of_step hstep hne).trans hs₁) hstage
      (by rw [h.ends]; exact fun heq => hret r heq.symm)
  obtain rfl : e = .act c := by
    obtain hcall | hact | ⟨r', -, hr'⟩ := step_of_actor hstep (not_not.1 hactor)
    · exact absurd (hy.symm.trans hcall) hidle
    · exact hact
    · exact absurd (hy.symm.trans hr') (hret r')
  have hfirst : Event.act c ∉ a := fun hmem => hothers _ hmem rfl
  refine ⟨a, y, y', b, hrun, hy, acts_of_step hstep, ⟨hrest, fun r' hmem => ?_, h.ends⟩,
    fun z z' => ?_⟩
  · exact h.one r' (List.mem_append_right a (List.mem_cons_of_mem _ hmem))
  · rw [own_iff hrun hstep hfirst]
    simp only [hrest, and_true]

/-- An operation of the run `es` of a cache made at the time `t`: it is called, it works, it returns. -/
structure Operation (t : ℤ) (es : List (Event ι)) where
  caller : ι
  op : Op
  reply : Reply
  before : List (Event ι)
  during : List (Event ι)
  later : List (Event ι)
  start : Machine ι
  finish : Machine ι
  split : es = before ++ .call caller op :: (during ++ .ret caller reply :: later)
  called : Run Step (new t) (before ++ [.call caller op]) start
  works : Works caller reply start during finish

variable {x y y' : Machine ι} {key : String} {item : Item} {delta : ℤ}

namespace Operation

variable {t : ℤ} {es : List (Event ι)} (o : Operation t es)

/-- The operation has started and has not ended. -/
def Moment (x : Machine ι) : Prop := Cache.Moment o.start o.during o.finish x

/-- The operation itself takes the step. -/
def Own (y y' : Machine ι) : Prop := Cache.Own o.caller o.start o.during o.finish y y'

/-- **The operation is the command at the moment `x`.** It returns what the command returns, and the
store is left as the command leaves it: either neither changes anything, or one step of the operation
finds the store as it is at `x` and leaves what the command leaves, and its other steps change
nothing. -/
structure AtMoment (x : Machine ι) : Prop where
  moment : o.Moment x
  reply : (perform x.clock o.op x.items).1 = o.reply
  left : SameKeys x.clock x.items (perform x.clock o.op x.items).2 ∧
      (∀ y y', o.Own y y' → SameKeys y'.clock y.items y'.items) ∨
    ∃ y y', o.Own y y' ∧ y.items = x.items ∧
      SameKeys y'.clock (perform x.clock o.op x.items).2 y'.items ∧
      ∀ z z', o.Own z z' → z ≠ y → SameKeys z'.clock z.items z'.items

/-- The count an increment has found, not zero, has expired at its second reading of the clock. -/
def Straddles : Prop := ∃ y y', o.Own y y' ∧ y.Straddles o.caller

/-- The item a `Get` has copied has expired when it reads the clock, but the key has never been
missing: someone has replaced the item in time. -/
def Overtaken : Prop :=
  ∃ y y' key item, o.Own y y' ∧ y.stage o.caller = .copied key item ∧
    item.expired y.clock = true ∧ ∀ x, o.Moment x → live x.items x.clock key ≠ none

/-- A decrement that would overflow. -/
def Refused : Prop :=
  ∃ y y' key delta item, o.Own y y' ∧ y.stage o.caller = .called (.decrementExisting key delta) ∧
    live y.items y.clock key = some item ∧ subOverflows item.value delta = true

theorem stage_start : o.start.stage o.caller = .called o.op := by
  obtain ⟨s', -, hstep⟩ := o.called.snoc_inv
  rw [(step_call hstep).2, goto_stage]

/-- The machine at a moment of the operation is one the run reaches. -/
theorem Moment.reached {o : Operation t es} (h : o.Moment x) :
    ∃ a b, es = a ++ b ∧ Run Step (new t) a x := by
  obtain ⟨a, b, hsplit, hrun, -⟩ := h
  refine ⟨o.before ++ [.call o.caller o.op] ++ a, b ++ .ret o.caller o.reply :: o.later, ?_,
    o.called.append hrun⟩
  refine o.split.trans ?_
  rw [hsplit]
  simp

theorem Moment.inv {o : Operation t es} (h : o.Moment x) : Inv x := by
  obtain ⟨a, b, -, hrun⟩ := h.reached
  exact inv_of_run hrun

theorem moment_of_own (h : o.Own y y') : o.Moment y := Cache.Own.moment h

theorem moment_of_own' (h : o.Own y y') : o.Moment y' := by
  obtain ⟨a, b, hsplit, hrun, hstep, hrest⟩ := h
  exact ⟨a ++ [.act o.caller], b, by simp [hsplit], hrun.append (.single hstep), hrest⟩

theorem own_det {y₁ y₂ : Machine ι} (h₁ : o.Own y y₁) (h₂ : o.Own y y₂) : y₁ = y₂ := by
  obtain ⟨-, -, -, -, hstep₁, -⟩ := h₁
  obtain ⟨-, -, -, -, hstep₂, -⟩ := h₂
  exact step_det _ _ _ _ hstep₁ hstep₂

/-- The command changes nothing, and neither does any step of the operation. -/
theorem atMoment_of_quiet (hx : o.Moment x)
    (hperform : perform x.clock o.op x.items = (o.reply, x.items))
    (hquiet : ∀ y y', o.Own y y' → SameKeys y'.clock y.items y'.items) : o.AtMoment x := by
  refine ⟨hx, by rw [hperform], .inl ⟨?_, hquiet⟩⟩
  rw [hperform]
  exact .refl _ _

/-! ### The stages of an operation -/

/-- The stages of an operation before its reply. -/
def Follows (op : Op) (stage : Stage) : Prop :=
  stage = .called op ∨
    (∃ key item, op = .get key ∧ (stage = .copied key item ∨ stage = .judged key)) ∨
    ∃ key delta ttl current, Redis.Adds op key delta ttl ∧ stage = .adding key delta ttl current

theorem follows_of_acts {op : Op} (h : Acts c s s') (hs : Follows op (s.stage c)) :
    Follows op (s'.stage c) ∨ ∃ r, s'.stage c = .returning r := by
  cases h with
  | copies key item hstage =>
    rw [hstage] at hs
    obtain hs | ⟨_, _, rfl, hs | hs⟩ | ⟨_, _, _, _, -, hs⟩ := hs <;> cases hs
    exact .inl (.inr (.inl ⟨key, item, rfl, .inl (goto_stage _)⟩))
  | judges key item hstage =>
    rw [hstage] at hs
    obtain hs | ⟨_, _, rfl, hs | hs⟩ | ⟨_, _, _, _, -, hs⟩ := hs <;> cases hs
    exact .inl (.inr (.inl ⟨key, item, rfl, .inr (goto_stage _)⟩))
  | reads op' key delta ttl hstage hop =>
    rw [hstage] at hs
    obtain hs | ⟨_, _, rfl, hs | hs⟩ | ⟨_, _, _, _, -, hs⟩ := hs <;> cases hs
    exact .inl (.inr (.inr ⟨key, delta, ttl, _, hop, goto_stage _⟩))
  | _ => exact .inr ⟨_, goto_stage _⟩

/-- A step of the operation is one of a stage of it. -/
theorem follows_of_own (h : o.Own y y') : Follows o.op (y.stage o.caller) := by
  obtain ⟨a, b, hsplit, hrun, hstep, -⟩ := h
  have hstage : Follows o.op (y.stage o.caller) ∨ ∃ r, y.stage o.caller = .returning r := by
    refine stage_preserves (P := fun stage => Follows o.op stage ∨ ∃ r, stage = .returning r) hrun
      (fun r hmem => o.works.one r (by rw [hsplit]; exact List.mem_append_left _ hmem))
      (by simp [Follows]) ?_ (.inl (.inl o.stage_start))
    rintro s s' hacts (hs | ⟨r, hs⟩)
    · exact follows_of_acts hacts hs
    · exact absurd hs hacts.stage_ne
  refine hstage.resolve_right ?_
  rintro ⟨r, hr⟩
  exact (acts_of_step hstep).stage_ne hr

/-- A `Get` copies the item of its own key. -/
theorem key_of_copied {key' : String} (hop : o.op = .get key) (hown : o.Own y y')
    (hstage : y.stage o.caller = .copied key' item) : key' = key := by
  have hfollows := o.follows_of_own hown
  simp only [hstage, hop, Follows] at hfollows
  simpa using hfollows.symm

/-! ### Reading -/

theorem perform_get (hop : o.op = .get key) :
    perform x.clock o.op x.items =
      (((live x.items x.clock key).map fun i => Reply.hit i.value).getD .done, x.items) := by
  rw [hop]
  rfl

/-- A step of a `Get` at most drops an item that has expired. -/
theorem sameKeys_of_get (hop : o.op = .get key) (hown : o.Own y y') :
    SameKeys y'.clock y.items y'.items := by
  have hfollows := o.follows_of_own hown
  obtain ⟨a, b, -, -, hstep, -⟩ := hown
  have hacts := acts_of_step hstep
  rw [hop] at hfollows
  obtain hs | ⟨_, _, -, hs | hs⟩ | ⟨_, _, _, _, ⟨hs, -⟩ | ⟨hs, -⟩, -⟩ := hfollows
  · obtain ⟨-, rfl⟩ | ⟨_, -, rfl⟩ := hacts.of_get hs <;> exact .refl _ _
  · obtain ⟨-, rfl⟩ | ⟨-, rfl⟩ := hacts.of_copied hs <;> exact .refl _ _
  · rw [hacts.of_judged hs]
    exact Memory.sameKeys_dropExpired _ le_rfl _
  · cases hs
  · cases hs

theorem atMoment_of_get (hop : o.op = .get key) (hx : o.Moment x)
    (hreply : ((live x.items x.clock key).map fun i => Reply.hit i.value).getD .done = o.reply) :
    o.AtMoment x :=
  o.atMoment_of_quiet hx (by rw [o.perform_get hop, hreply]) fun _ _ => o.sameKeys_of_get hop

/-- **When a `Get` is the command at one moment**: unless it has been overtaken. -/
theorem atMoment_iff_of_get (hop : o.op = .get key) : (∃ x, o.AtMoment x) ↔ ¬o.Overtaken := by
  obtain ⟨a, y, y', b, -, hy, hacts, hworks, hown⟩ := o.works.next o.stage_start (by simp) (by simp)
  rw [hop] at hy
  have howny : o.Own y y' := (hown y y').2 (.inl ⟨rfl, rfl⟩)
  obtain ⟨hnone, rfl⟩ | ⟨item, hitem, rfl⟩ := hacts.of_get hy
  · -- There is no item, and there has been a moment without one.
    obtain ⟨hreply, hlast⟩ := hworks.done (goto_stage _)
    refine iff_of_true ⟨y, o.atMoment_of_get hop (o.moment_of_own howny) ?_⟩ ?_
    · rw [← hreply]
      simp [live, hnone]
    · rintro ⟨z, z', key', item, hz, hzstage, -⟩
      obtain ⟨rfl, -⟩ := ((hown _ _).1 hz).resolve_right (hlast _ _)
      rw [hy] at hzstage
      cases hzstage
  · obtain ⟨a₂, z, z', b₂, hrun₂, hz, hacts₂, hworks₂, hown₂⟩ :=
      hworks.next (goto_stage _) (by simp) (by simp)
    have hle := clock_le_of_run hrun₂
    rw [goto_clock] at hle
    have hownz : o.Own z z' := (hown _ _).2 (.inr ((hown₂ _ _).2 (.inl ⟨rfl, rfl⟩)))
    obtain ⟨halive, rfl⟩ | ⟨hexpired, rfl⟩ := hacts₂.of_copied hz
    · -- The item has not expired at the reading, so it had not when it was copied.
      obtain ⟨hreply, hlast⟩ := hworks₂.done (goto_stage _)
      have hthen : item.expired y.clock = false := by
        rw [← Bool.not_eq_true] at halive ⊢
        exact fun h => halive (Item.expired_mono hle h)
      refine iff_of_true ⟨y, o.atMoment_of_get hop (o.moment_of_own howny) ?_⟩ ?_
      · rw [← hreply, live_eq_some_iff.2 ⟨hitem, hthen⟩]
        rfl
      · rintro ⟨w, w', key', item', hw, hwstage, hwexpired, -⟩
        obtain ⟨rfl, -⟩ | hw := (hown _ _).1 hw
        · rw [hy] at hwstage
          cases hwstage
        obtain ⟨rfl, -⟩ := ((hown₂ _ _).1 hw).resolve_right (hlast _ _)
        rw [hz] at hwstage
        cases hwstage
        rw [halive] at hwexpired
        cases hwexpired
    · obtain ⟨a₃, w, w', b₃, -, hw, hacts₃, hworks₃, -⟩ :=
        hworks₂.next (goto_stage _) (by simp) (by simp)
      obtain rfl := hacts₃.of_judged hw
      obtain ⟨hreply, -⟩ := hworks₃.done (leave_stage _ _)
      constructor
      · rintro ⟨x, hx⟩ ⟨v, v', key', item', hv, hvstage, -, hlive⟩
        obtain rfl := o.key_of_copied hop hv hvstage
        obtain ⟨i, hi⟩ := Option.ne_none_iff_exists'.1 (hlive x hx.moment)
        have hx' := hx.reply
        rw [o.perform_get hop, hi, ← hreply] at hx'
        exact absurd hx' (by simp [Reply.hit, Reply.done])
      · intro hover
        obtain ⟨x, hx, hnone⟩ : ∃ x, o.Moment x ∧ live x.items x.clock key = none := by
          by_contra hall
          push Not at hall
          exact hover ⟨z, _, key, item, hownz, hz, hexpired, hall⟩
        refine ⟨x, o.atMoment_of_get hop hx ?_⟩
        rw [hnone, ← hreply]
        rfl

/-! ### Writing -/

/-- One step of the operation is the command, and its other steps change nothing. -/
theorem atMoment_of_own (hown : o.Own y y')
    (hreply : (perform y.clock o.op y.items).1 = o.reply)
    (hsame : SameKeys y'.clock (perform y.clock o.op y.items).2 y'.items)
    (hothers : ∀ z z', o.Own z z' → z ≠ y → SameKeys z'.clock z.items z'.items) : o.AtMoment y :=
  ⟨o.moment_of_own hown, hreply, .inr ⟨y, y', hown, rfl, hsame, hothers⟩⟩

theorem small_of_moment (hsmall : Within t es) (hx : o.Moment x)
    (hitem : x.items.lookup key = some item) : |item.value| ≤ 2 ^ 53 - 1 := by
  obtain ⟨a, b, hsplit, hrun⟩ := hx.reached
  exact hsmall a b x hsplit hrun key item hitem

/-- An operation of one step. -/
theorem exists_single {b : List (Event ι)}
    (hown : ∀ z z', o.Own z z' ↔ z = y ∧ z' = y' ∨ Cache.Own o.caller y' b o.finish z z')
    (hworks : Works o.caller o.reply y' b o.finish) (hstage : y'.stage o.caller = .returning r) :
    r = o.reply ∧ o.Own y y' ∧ ∀ z z', o.Own z z' → z = y ∧ z' = y' := by
  obtain ⟨hreply, hlast⟩ := hworks.done hstage
  exact ⟨hreply, (hown _ _).2 (.inl ⟨rfl, rfl⟩),
    fun z z' hz => ((hown z z').1 hz).resolve_right (hlast z z')⟩

/-- An operation whose one step is the command. -/
theorem atMoment_of_single (hown : o.Own y y') (honly : ∀ z z', o.Own z z' → z = y ∧ z' = y')
    (hperform : perform y.clock o.op y.items = (o.reply, y'.items)) : o.AtMoment y := by
  refine o.atMoment_of_own hown ?_ ?_ fun z z' hz hne => absurd (honly z z' hz).1 hne
  · rw [hperform]
  · rw [hperform]
    exact .refl _ _

/-- An operation whose one step changes nothing, as the command does. -/
theorem atMoment_of_still (hown : o.Own y y') (honly : ∀ z z', o.Own z z' → z = y ∧ z' = y')
    (hitems : y'.items = y.items)
    (hperform : perform y.clock o.op y.items = (o.reply, y.items)) : o.AtMoment y := by
  refine o.atMoment_of_quiet (o.moment_of_own hown) hperform fun z z' hz => ?_
  obtain ⟨rfl, rfl⟩ := honly z z' hz
  rw [hitems]
  exact .refl _ _

theorem atMoment_of_set {value : ℤ} (hop : o.op = .set key value) : ∃ x, o.AtMoment x := by
  obtain ⟨a, y, y', b, -, hy, hacts, hworks, hown⟩ := o.works.next o.stage_start (by simp) (by simp)
  rw [hop] at hy
  obtain rfl := hacts.of_set hy
  obtain ⟨hreply, howny, honly⟩ := o.exists_single hown hworks (leave_stage _ _)
  refine ⟨y, o.atMoment_of_single howny honly ?_⟩
  rw [hop, ← hreply]
  rfl

theorem atMoment_of_delete {keys : List String} (hop : o.op = .delete keys) :
    ∃ x, o.AtMoment x := by
  obtain ⟨a, y, y', b, -, hy, hacts, hworks, hown⟩ := o.works.next o.stage_start (by simp) (by simp)
  rw [hop] at hy
  obtain rfl := hacts.of_delete hy
  obtain ⟨hreply, howny, honly⟩ := o.exists_single hown hworks (leave_stage _ _)
  refine ⟨y, o.atMoment_of_single howny honly ?_⟩
  rw [hop, ← hreply]
  rfl

theorem atMoment_of_refused (hop : o.op.refused = true) : ∃ x, o.AtMoment x := by
  obtain ⟨a, y, y', b, -, hy, hacts, hworks, hown⟩ := o.works.next o.stage_start (by simp) (by simp)
  obtain rfl := hacts.of_refused hy hop
  obtain ⟨hreply, howny, honly⟩ := o.exists_single hown hworks (goto_stage _)
  refine ⟨y, o.atMoment_of_still howny honly rfl ?_⟩
  cases hcall : o.op with
  | incrementTTL key delta ttl =>
    rw [hcall] at hop
    rw [perform_incrementTTL_refused (by simpa [Op.refused] using hop), hreply]
  | _ =>
    rw [hcall] at hop
    cases hop

/-- **When a `DecrementExisting` is the command at one moment**: unless it would overflow. -/
theorem atMoment_iff_of_decrementExisting (hsmall : Within t es)
    (hop : o.op = .decrementExisting key delta) : (∃ x, o.AtMoment x) ↔ ¬o.Refused := by
  obtain ⟨a, y, y', b, -, hy, hacts, hworks, hown⟩ := o.works.next o.stage_start (by simp) (by simp)
  rw [hop] at hy
  have hrefused : ∀ {item}, live y.items y.clock key = some item →
      (∀ z z', o.Own z z' → z = y) → o.Refused → subOverflows item.value delta = true := by
    rintro item hitem honly ⟨z, z', key', delta', item', hz, hzstage, hzitem, hover⟩
    obtain rfl := honly z z' hz
    rw [hy] at hzstage
    cases hzstage
    rw [hitem] at hzitem
    cases hzitem
    exact hover
  have hy' := hacts.of_decrementExisting hy
  unfold Memory.decrementExisting at hy'
  cases hitem : live y.items y.clock key with
  | none =>
    simp only [hitem] at hy'
    subst hy'
    obtain ⟨hreply, howny, honly⟩ := o.exists_single hown hworks (leave_stage _ _)
    refine iff_of_true ⟨y, o.atMoment_of_still howny honly rfl ?_⟩ ?_
    · rw [hop, perform_decrementExisting_of_none hitem, ← hreply]
      rfl
    · rintro ⟨z, z', key', delta', item', hz, hzstage, hzitem, -⟩
      obtain ⟨rfl, -⟩ := honly z z' hz
      rw [hy] at hzstage
      cases hzstage
      rw [hitem] at hzitem
      cases hzitem
  | some item =>
    simp only [hitem] at hy'
    cases hover : subOverflows item.value delta with
    | true =>
      simp only [hover, if_true] at hy'
      subst hy'
      obtain ⟨hreply, howny, -⟩ := o.exists_single hown hworks (leave_stage _ _)
      refine iff_of_false ?_ (not_not.2 ⟨y, _, key, delta, item, howny, hy, hitem, hover⟩)
      rintro ⟨x, hx⟩
      have hne := hx.reply
      rw [hop, ← hreply] at hne
      exact perform_decrementExisting_ne hne
    | false =>
      simp only [hover, Bool.false_eq_true, if_false] at hy'
      subst hy'
      obtain ⟨hreply, howny, honly⟩ := o.exists_single hown hworks (leave_stage _ _)
      have hold := o.small_of_moment hsmall (o.moment_of_own howny) (live_eq_some_iff.1 hitem).1
      have hnew : |item.value - delta| ≤ 2 ^ 53 - 1 :=
        o.small_of_moment hsmall (o.moment_of_own' howny) (AList.lookup_insert y.items)
      have hdelta : delta ≠ minInt64 := by
        rintro rfl
        simp only [minInt64, abs_le] at hold hnew
        omega
      refine iff_of_true ⟨y, o.atMoment_of_single howny honly ?_⟩ ?_
      · rw [hop, perform_decrementExisting hitem hdelta hover, ← hreply,
          (onAbs_toDouble_eq_iff (by omega)).2 rfl]
        rfl
      · intro h
        have htrue := hrefused hitem (fun z z' hz => (honly z z' hz).1) h
        rw [hover] at htrue
        cases htrue

/-- At a moment when the key has a count that is about to expire, the command gives a count that
expires with it; at a later one it starts from nothing. An increment that straddles the expiry does
neither. -/
theorem not_atMoment_of_straddle {op : Op} {ttl now later : ℤ} {items : Items}
    (hop : Redis.Adds op key delta ttl) (hitem : items.lookup key = some item)
    (hzero : item.value ≠ 0) (hexpired : item.expired later = true)
    (hsmall : |item.value + delta| ≤ 2 ^ 53 - 1)
    (hreply : (perform now op items).1 = .count (item.value + delta)) :
    live (perform now op items).2 later key = none := by
  have hover : addOverflows (countOf (live items now key)) delta = false := by
    by_contra hover
    rw [perform_adds_of_overflows hop (by simpa using hover)] at hreply
    exact absurd hreply (by simp [Reply.error, Reply.count])
  obtain ⟨hcount, hsame⟩ := perform_adds hop hover
  rw [hreply] at hcount
  have hvalue : countOf (live items now key) + delta = item.value + delta :=
    (replied_eq_iff hsmall).1 (congrArg Reply.value hcount).symm
  cases hnow : item.expired now with
  | true =>
    rw [live_eq_none_of_expired hitem hnow] at hvalue
    exact absurd (add_right_cancel hvalue).symm hzero
  | false =>
    have hlive := live_eq_some_iff.2 ⟨hitem, hnow⟩
    have hle : now ≤ later := by
      by_contra hlt
      rw [Item.expired_mono (not_le.1 hlt).le hexpired] at hnow
      cases hnow
    obtain ⟨e, he, -⟩ := (Option.any_eq_true _ _).1 hexpired
    rw [hsame.mono hle key, live_insert, if_pos]
    simpa [Memory.increased, hlive, he, Item.expired] using hexpired

/-- **When an increment is the command at one moment**: unless a count that it adds to expires
between its two readings of the clock. -/
theorem atMoment_iff_of_adds {ttl : ℤ} (hsmall : Within t es) (hop : Redis.Adds o.op key delta ttl) :
    (∃ x, o.AtMoment x) ↔ ¬o.Straddles := by
  obtain ⟨a, y, y', b, -, hy, hacts, hworks, hown⟩ := o.works.next o.stage_start (by simp) (by simp)
  obtain ⟨hover, rfl⟩ | ⟨-, rfl⟩ := hacts.of_adds hy hop
  · obtain ⟨hreply, howny, honly⟩ := o.exists_single hown hworks (goto_stage _)
    refine iff_of_true ⟨y, o.atMoment_of_still howny honly rfl ?_⟩ ?_
    · rw [perform_adds_of_overflows hop hover, hreply]
    · rintro ⟨z, z', hz, key', delta', ttl', item, hzstage, -⟩
      obtain ⟨rfl, -⟩ := honly z z' hz
      rw [hy] at hzstage
      cases hzstage
  · obtain ⟨a₂, z, z', b₂, -, hz, hacts₂, hworks₂, hown₂⟩ :=
      hworks.next (goto_stage _) (by simp) (by simp)
    obtain rfl := hacts₂.of_adding hz
    obtain ⟨hreply, hlast⟩ := hworks₂.done (leave_stage _ _)
    have hownz : o.Own z _ := (hown _ _).2 (.inr ((hown₂ _ _).2 (.inl ⟨rfl, rfl⟩)))
    have hothers : ∀ w w', o.Own w w' → w ≠ z → SameKeys w'.clock w.items w'.items := by
      intro w w' hw hne
      obtain ⟨rfl, rfl⟩ | hw := (hown _ _).1 hw
      · exact .refl _ _
      · exact absurd (((hown₂ _ _).1 hw).resolve_right (hlast _ _)).1 hne
    have hlookup := AList.lookup_insert (b := Memory.increased z.items key
      (countOf (live y.items y.clock key) + delta) ttl z.clock) (a := key) z.items
    have hnew : |countOf (live y.items y.clock key) + delta| ≤ 2 ^ 53 - 1 :=
      o.small_of_moment hsmall (o.moment_of_own' hownz) hlookup
    have hlive' := live_eq_some_iff.2 ⟨hlookup, not_expired_increased _ _⟩
    constructor
    · rintro ⟨x, hx⟩ ⟨w, w', hw, key', delta', ttl', item, hwstage, hitem, hzero, hexpired⟩
      have hwz : w = z := by
        obtain ⟨rfl, -⟩ | hw := (hown _ _).1 hw
        · rw [hy] at hwstage
          cases hwstage
        · exact (((hown₂ _ _).1 hw).resolve_right (hlast _ _)).1
      subst hwz
      rw [hz] at hwstage
      obtain ⟨rfl, rfl, rfl, hvalue⟩ := Stage.adding.inj hwstage
      rw [hvalue] at hnew hreply hlive' hownz
      have hreplyx := hx.reply
      rw [← hreply] at hreplyx
      have hgone := live_eq_none_of_expired hitem hexpired
      -- The step changes the store, so it is the one that is the command.
      obtain ⟨-, hquiet⟩ | ⟨v, v', hv, hitems, hsame, hquiet⟩ := hx.left
      · have hkey := hquiet w _ hownz key
        rw [leave_clock, leave_items, hgone, hlive'] at hkey
        cases hkey
      · have hvw : v = w := by
          by_contra hne
          have hkey := hquiet w _ hownz (Ne.symm hne) key
          rw [leave_clock, leave_items, hgone, hlive'] at hkey
          cases hkey
        subst hvw
        have hv' := o.own_det hv hownz
        have hnone := not_atMoment_of_straddle hop (by rw [← hitems, hitem]) hzero hexpired hnew hreplyx
        have hkey := hsame key
        rw [hv', leave_clock, leave_items, hnone, hlive'] at hkey
        cases hkey
    · intro hstraddles
      have hcurrent := (o.moment_of_own hownz).inv.current_eq hz fun h => hstraddles ⟨z, _, hownz, h⟩
      have hsafe := ((o.moment_of_own hownz).inv.safe _ _ _ _ _ hz).1
      rw [hcurrent] at hsafe hnew hreply
      obtain ⟨hcount, hsame⟩ := perform_adds hop hsafe
      refine ⟨z, o.atMoment_of_own hownz ?_ ?_ hothers⟩
      · rw [hcount, (replied_eq_iff hnew).2 rfl, hreply]
      · rw [leave_clock, leave_items, hcurrent]
        exact hsame

/-! ### Every operation -/

theorem not_straddles (h : ∀ key delta ttl, ¬Redis.Adds o.op key delta ttl) : ¬o.Straddles := by
  rintro ⟨y, y', hown, key, delta, ttl, item, hstage, -⟩
  have hfollows := o.follows_of_own hown
  simp only [hstage, Follows] at hfollows
  simp [h] at hfollows

theorem not_overtaken (h : ∀ key, o.op ≠ .get key) : ¬o.Overtaken := by
  rintro ⟨y, y', key, item, hown, hstage, -⟩
  have hfollows := o.follows_of_own hown
  simp only [hstage, Follows] at hfollows
  simp [h] at hfollows

theorem not_refused (h : ∀ key delta, o.op ≠ .decrementExisting key delta) : ¬o.Refused := by
  rintro ⟨y, y', key, delta, item, hown, hstage, -⟩
  have hfollows := o.follows_of_own hown
  simp only [hstage, Follows] at hfollows
  simp [(h key delta).symm] at hfollows

/-- **When an operation is the command at one moment.** -/
theorem atMoment_iff (hsmall : Within t es) :
    (∃ x, o.AtMoment x) ↔ ¬o.Straddles ∧ ¬o.Overtaken ∧ ¬o.Refused := by
  cases hop : o.op with
  | get key =>
    have h₁ := o.not_straddles (by simp [hop, Redis.Adds])
    have h₂ := o.not_refused (by simp [hop])
    simp only [o.atMoment_iff_of_get hop, h₁, h₂, not_false_iff, true_and, and_true]
  | set key value =>
    have h₁ := o.not_straddles (by simp [hop, Redis.Adds])
    have h₂ := o.not_overtaken (by simp [hop])
    have h₃ := o.not_refused (by simp [hop])
    exact iff_of_true (o.atMoment_of_set hop) ⟨h₁, h₂, h₃⟩
  | delete keys =>
    have h₁ := o.not_straddles (by simp [hop, Redis.Adds])
    have h₂ := o.not_overtaken (by simp [hop])
    have h₃ := o.not_refused (by simp [hop])
    exact iff_of_true (o.atMoment_of_delete hop) ⟨h₁, h₂, h₃⟩
  | increment key delta =>
    have h₂ := o.not_overtaken (by simp [hop])
    have h₃ := o.not_refused (by simp [hop])
    have hadds : Redis.Adds o.op key delta 0 := .inl ⟨hop, rfl⟩
    simp only [o.atMoment_iff_of_adds hsmall hadds, h₂, h₃, not_false_iff, and_true]
  | incrementTTL key delta ttl =>
    have h₂ := o.not_overtaken (by simp [hop])
    have h₃ := o.not_refused (by simp [hop])
    by_cases httl : 0 < ttl
    · have hadds : Redis.Adds o.op key delta ttl := .inr ⟨hop, httl⟩
      simp only [o.atMoment_iff_of_adds hsmall hadds, h₂, h₃, not_false_iff, and_true]
    · have h₁ := o.not_straddles (by simp [hop, Redis.Adds]; omega)
      exact iff_of_true (o.atMoment_of_refused (by simpa [hop, Op.refused] using httl)) ⟨h₁, h₂, h₃⟩
  | decrementExisting key delta =>
    have h₁ := o.not_straddles (by simp [hop, Redis.Adds])
    have h₂ := o.not_overtaken (by simp [hop])
    simp only [o.atMoment_iff_of_decrementExisting hsmall hop, h₁, h₂, not_false_iff, true_and]

end Operation

end Gombit.Cache
