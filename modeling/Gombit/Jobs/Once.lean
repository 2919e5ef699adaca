import Gombit.Jobs.Transitions

/-!
# Effects that run once

`Once` (`jobs/unique.go`) runs an effect between `BeginOnce` and `FinishOnce` or `AbandonOnce`, and
may die after any of them. The queue keeps one record for a key: the token of the run that holds it,
until the lock expires, or the marker of a completed effect, until it is forgotten.
-/

namespace Gombit.Jobs

open MemoryQueue

/-- `BeginOnce` gives the key to the token `a`. -/
@[simp] def Event.Acquires (e : Event) (key a : String) (lock : ℤ) : Prop :=
  e.op = .beginOnce key a lock ∧ e.ans = .once .acquired

/-- `FinishOnce` records the effect of the token `a`. -/
@[simp] def Event.Finishes (e : Event) (key a : String) (keep : ℤ) : Prop :=
  e.op = .finishOnce key a keep ∧ e.ans = .ok

/-- The event writes a record of the key. -/
@[simp] def Event.Writes (e : Event) (key : String) : Prop :=
  ∃ a d, e.Acquires key a d ∨ e.Finishes key a d

/-- The token `a` ends its run. -/
def Event.EndsOnce (e : Event) (key a : String) : Prop :=
  (∃ keep, e.op = .finishOnce key a keep) ∨ e.op = .abandonOnce key a

/-- What one operation does to the record of a key. -/
structure OnceStep (e : Event) (key : String) (o o' : Option MemoryClaim) : Prop where
  acquires : ∀ a lock, e.Acquires key a lock →
    (∀ c, o = some c → c.expires ≤ e.clk.fst) ∧ o' = some ⟨a, e.clk.fst + lock⟩
  finishes : ∀ a keep, e.Finishes key a keep →
    (∃ c, o = some c ∧ c.holder = a ∧ e.clk.fst < c.expires) ∧
      o' = some ⟨onceDoneMarker, e.clk.snd + keep⟩
  passes : ¬ e.Writes key →
    o' = o ∨ o' = none ∧ ∀ c, o = some c → c.expires ≤ e.clk.fst ∨ e.op = .abandonOnce key c.holder

section Operations

variable {q : MemoryQueue} {clk : Clock} {key : String} {e : Event} {o : Option MemoryClaim}

/-- A sweep removes expired records only. -/
theorem sweepClaims_once (q : MemoryQueue) (now : ℤ) (key : String) :
    (q.sweepClaims now).once.lookup key = q.once.lookup key ∨
      (q.sweepClaims now).once.lookup key = none ∧
        ∀ c, q.once.lookup key = some c → c.expires ≤ now := by
  unfold sweepClaims
  split
  · exact .inl rfl
  · rw [Table.lookup_eraseIf]
    cases q.once.lookup key with
    | none => exact .inl rfl
    | some c => by_cases hexp : c.expires ≤ now <;> simp [Option.filter, hexp]

theorem OnceStep.same (hn : ¬ e.Writes key) : OnceStep e key o o :=
  ⟨fun a d h => (hn ⟨a, d, .inl h⟩).elim, fun a d h => (hn ⟨a, d, .inr h⟩).elim, fun _ => .inl rfl⟩

theorem OnceStep.swept (hn : ¬ e.Writes key) :
    OnceStep e key (q.once.lookup key) ((q.sweepClaims e.clk.fst).once.lookup key) :=
  ⟨fun a d h => (hn ⟨a, d, .inl h⟩).elim, fun a d h => (hn ⟨a, d, .inr h⟩).elim, fun _ =>
    (sweepClaims_once q _ key).imp_right fun h => ⟨h.1, fun c hc => .inl (h.2 c hc)⟩⟩

theorem beginOnce_onceStep (key' a : String) (lock : ℤ) :
    OnceStep ⟨.beginOnce key' a lock, clk, (q.beginOnce clk key' a lock).1⟩ key (q.once.lookup key)
      ((q.beginOnce clk key' a lock).2.once.lookup key) := by
  simp only [beginOnce]
  split
  · -- another run holds the key, or the effect has completed
    refine .swept ?_
    rintro ⟨_, _, ⟨-, hans⟩ | ⟨⟨⟩, -⟩⟩
    split at hans <;> cases hans
  · rename_i hnone
    by_cases hkey : key = key'
    · subst hkey
      rw [AList.lookup_insert]
      refine ⟨?_, by simp, by simp⟩
      rintro _ _ ⟨⟨⟩, -⟩
      refine ⟨fun c hc => ?_, rfl⟩
      rcases sweepClaims_once q clk.fst key with h | ⟨-, hexp⟩
      · rw [h, hc, Option.filter_eq_none_iff] at hnone
        simpa using hnone c rfl
      · exact hexp c hc
    · rw [AList.lookup_insert_ne hkey]
      exact .swept (by simp [Ne.symm hkey])

theorem finishOnce_onceStep (key' a : String) (keep : ℤ) :
    OnceStep ⟨.finishOnce key' a keep, clk, (q.finishOnce clk key' a keep).1⟩ key
      (q.once.lookup key) ((q.finishOnce clk key' a keep).2.once.lookup key) := by
  unfold finishOnce
  split
  · rename_i c hc
    rw [Option.filter_eq_some_iff, decide_eq_true_eq] at hc
    obtain ⟨hc, rfl, hlive⟩ := hc
    by_cases hkey : key = key'
    · subst hkey
      rw [AList.lookup_insert]
      refine ⟨by simp, ?_, by simp⟩
      rintro _ _ ⟨⟨⟩, -⟩
      exact ⟨⟨c, hc, rfl, hlive⟩, rfl⟩
    · rw [AList.lookup_insert_ne hkey]
      exact .same (by simp [Ne.symm hkey])
  · exact .same (by simp)

theorem abandonOnce_onceStep (key' a : String) :
    OnceStep ⟨.abandonOnce key' a, clk, (q.abandonOnce key' a).1⟩ key (q.once.lookup key)
      ((q.abandonOnce key' a).2.once.lookup key) := by
  unfold abandonOnce
  split
  · rename_i c hc
    rw [Option.filter_eq_some_iff, decide_eq_true_eq] at hc
    obtain ⟨hc, rfl⟩ := hc
    by_cases hkey : key = key'
    · subst hkey
      rw [AList.lookup_erase, hc]
      exact ⟨by simp, by simp, by simp⟩
    · rw [AList.lookup_erase_ne hkey]
      exact .same (by simp)
  · exact .same (by simp)

/-- **One step.** -/
theorem Step.onceStep {s s' : Clocked} (h : Step s e s') (key : String) :
    OnceStep e key (s.queue.once.lookup key) (s'.queue.once.lookup key) := by
  obtain ⟨op, clk, ans⟩ := e
  obtain ⟨-, -, hans, hqueue, -, -⟩ := h
  dsimp only at hans hqueue
  rw [hans, hqueue]
  generalize s.queue = q
  have henq : ∀ (q : MemoryQueue) (now : ℤ) (queue : String) (env : Envelope) (at_ : ℤ)
      (u : Option UniqueKey), (q.enqueue now queue env at_ u).2.once = q.once := by
    intro q now queue env at_ u
    unfold enqueue
    split <;> rfl
  cases op with
  | beginOnce => exact beginOnce_onceStep ..
  | finishOnce => exact finishOnce_onceStep ..
  | abandonOnce => exact abandonOnce_onceStep ..
  | pushUnique queue env at_ unique =>
    simp only [step, pushUnique, push]
    repeat' split
    all_goals try rw [henq]
    any_goals exact .same (by simp)
    all_goals exact .swept (by simp)
  | reserve queues lease receipt =>
    simp only [step, reserve]
    repeat' split
    any_goals exact .same (by simp)
    rcases reserveFrom_queue q clk.fst lease receipt queues with h | ⟨j, h⟩
    all_goals
      rw [h]
      exact .same (by simp)
  | _ =>
    -- the other operations do not look at the records
    simp only [step, push, MemoryQueue.ack, release, extend, bury, failed, failedJob, retryFailed,
      forgetFailed, purgeFailed, stats, close]
    repeat' split
    all_goals try simp only [henq, releaseUnique_once, setJob_once, dropJob_once]
    all_goals exact .same (by simp)

end Operations

variable {s s' : Clocked} {e : Event} {es : List Event} {key : String} {c : MemoryClaim}
  {t : ℤ}

/-- A record that has not expired stays unless its token ends it, and no other is written. -/
theorem Step.record (h : Step s e s') (hc : s.queue.once.lookup key = some c)
    (hlive : e.clk.fst < c.expires) (hends : ¬ e.EndsOnce key c.holder) :
    s'.queue.once.lookup key = some c ∧ ¬ e.Writes key := by
  have hstep := h.onceStep key
  have hpass : ¬ e.Writes key := by
    rintro ⟨a, d, hacq | hfin⟩
    · exact absurd ((hstep.acquires a d hacq).1 c hc) (not_le.2 hlive)
    · obtain ⟨⟨c', hc', rfl, -⟩, -⟩ := hstep.finishes a d hfin
      cases hc.symm.trans hc'
      exact hends (.inl ⟨d, hfin.1⟩)
  refine ⟨?_, hpass⟩
  rcases hstep.passes hpass with heq | ⟨-, hgone⟩
  · rw [heq, hc]
  · rcases hgone c hc with hexp | hab
    · omega
    · exact absurd (.inr hab) hends

/-- **A run.** A record stays until it expires or its token ends it. -/
theorem record_run (h : Run Step s es s') (hc : s.queue.once.lookup key = some c)
    (hends : ∀ e ∈ es, ¬ e.EndsOnce key c.holder) :
    c.expires ≤ s'.now ∨ s'.queue.once.lookup key = some c := by
  refine h.preserves_while
    (I := fun s => c.expires ≤ s.now ∨ s.queue.once.lookup key = some c) ?_ hends (.inr hc)
  rintro s e s' hstep hends (hexp | hc)
  · exact .inl (hexp.trans hstep.now_le)
  · by_cases hlive : e.clk.fst < c.expires
    · exact .inr (hstep.record hc hlive hends).1
    · have := hstep.clock
      have := hstep.now
      exact .inl (by omega)

/-- A record is that of a completed effect, or of the last run to have been given the key. -/
theorem record_origin (h : History t es s) : ∀ c, s.queue.once.lookup key = some c →
    c.holder ≠ onceDoneMarker → ∃ es₁ e es₂ lock, es = es₁ ++ e :: es₂ ∧
      e.Acquires key c.holder lock ∧ c.expires = e.clk.fst + lock ∧ ∀ e ∈ es₂, ¬ e.Writes key := by
  induction es using List.reverseRecOn generalizing s with
  | nil =>
    cases h
    simp [Clocked.init, MemoryQueue.empty]
  | append_singleton es e ih =>
    intro c hc ha
    obtain ⟨s₁, hrun, hlast⟩ := h.snoc_inv
    have hstep := hlast.onceStep key
    by_cases hw : e.Writes key
    · obtain ⟨a, d, hacq | hfin⟩ := hw
      · cases hc.symm.trans (hstep.acquires a d hacq).2
        exact ⟨es, e, [], d, rfl, hacq, rfl, by simp⟩
      · cases hc.symm.trans (hstep.finishes a d hfin).2
        exact absurd rfl ha
    · rcases hstep.passes hw with heq | ⟨hnone, -⟩
      · obtain ⟨es₁, e', es₂, lock, rfl, hacq, hexp, hrest⟩ := ih hrun c (heq.symm.trans hc) ha
        refine ⟨es₁, e', es₂ ++ [e], lock, by simp, hacq, hexp, ?_⟩
        exact List.forall_mem_append.2 ⟨hrest, List.forall_mem_singleton.2 hw⟩
      · cases hc.symm.trans hnone

/-- After a record, an event that writes another comes when it has expired or been ended. -/
theorem expired_or_ended (h : Run Step s (es ++ [e]) s') (hc : s.queue.once.lookup key = some c)
    (he : e.Writes key) : c.expires ≤ e.clk.fst ∨ ∃ e' ∈ es ++ [e], e'.EndsOnce key c.holder := by
  obtain ⟨s₁, hrun, hstep⟩ := h.snoc_inv
  by_contra! hlive
  simp only [List.forall_mem_append, List.forall_mem_singleton] at hlive
  rcases record_run hrun hc hlive.2.1 with hexp | hkept
  · exact absurd (hexp.trans hstep.clock.1) (not_le.2 hlive.1)
  · exact (hstep.record hkept hlive.1 hlive.2.2).2 he

/-- **Effects of a key are kept apart.** In every history of a queue, with any interleaving of runs
whose tokens are not the marker:
* after a run is given the key, another is given it, or records its effect, only when the lock is
  over or the run has ended it;
* after an effect is recorded, none is given the key or recorded for as long as the record is kept;
* an effect is recorded only by the last run given the key, while its lock is not over. -/
theorem once_apart {e₁ e₂ : Event} {es₁ es₂ : List Event}
    (h : History t (es₁ ++ e₁ :: (es₂ ++ [e₂])) s)
    (hmark : ∀ e ∈ es₂ ++ [e₂], ¬ e.EndsOnce key onceDoneMarker) :
    (∀ a lock, e₁.Acquires key a lock → e₂.Writes key → e₁.clk.fst + lock ≤ e₂.clk.fst ∨
      ∃ e ∈ es₂ ++ [e₂], e.EndsOnce key a) ∧
    (∀ a keep, e₁.Finishes key a keep → e₂.Writes key → e₁.clk.snd + keep ≤ e₂.clk.fst) ∧
    (∀ a keep, e₂.Finishes key a keep → ∃ pre e post lock, es₁ ++ e₁ :: es₂ = pre ++ e :: post ∧
      e.Acquires key a lock ∧ e₂.clk.fst < e.clk.fst + lock ∧ ∀ e ∈ post, ¬ e.Writes key) := by
  obtain ⟨s₁, -, hrest⟩ := h.append_inv
  obtain ⟨s₂, hfirst, hrun⟩ := hrest.cons_inv
  have hstep := hfirst.onceStep key
  refine ⟨fun a lock hacq => expired_or_ended hrun (hstep.acquires a lock hacq).2, ?_, ?_⟩
  · intro a keep hfin hw
    rcases expired_or_ended hrun (hstep.finishes a keep hfin).2 hw with hle | ⟨e, he, hends⟩
    · exact hle
    · exact absurd hends (hmark e he)
  · intro a keep hfin
    rw [← List.cons_append, ← List.append_assoc] at h
    obtain ⟨s₃, hhist, hlast⟩ := h.snoc_inv
    obtain ⟨⟨c, hc, rfl, hlive⟩, -⟩ := (hlast.onceStep key).finishes a keep hfin
    have hholder : c.holder ≠ onceDoneMarker := fun heq =>
      hmark e₂ (by simp) (.inl ⟨keep, heq ▸ hfin.1⟩)
    obtain ⟨pre, e, post, lock, heq, hacq, hexp, hpass⟩ := record_origin hhist c hc hholder
    exact ⟨pre, e, post, lock, heq, hacq, hexp ▸ hlive, hpass⟩

/-- A run begins at 1 for 10 and is lost; the next one begins at 20 and records its effect at 22 for
20; the key is given out again at 50. -/
theorem once_apart_fifty :
    let lost : Event := ⟨.beginOnce "k" "a" 10, .const 1, .once .acquired⟩
    let begun : Event := ⟨.beginOnce "k" "b" 10, .const 20, .once .acquired⟩
    let done : Event := ⟨.finishOnce "k" "b" 20, .const 22, .ok⟩
    let again : Event := ⟨.beginOnce "k" "c" 10, .const 50, .once .acquired⟩
    History 0 [lost, begun, done, again] (afterCalls [lost, begun, done, again]) ∧
      ((1 : ℤ) + 10 ≤ 22 ∨ ∃ e ∈ [begun, done], e.EndsOnce "k" "a") ∧ (22 : ℤ) + 20 ≤ 50 ∧
      ∃ pre e post lock, [lost, begun] = pre ++ e :: post ∧ e.Acquires "k" "b" lock ∧
        22 < e.clk.fst + lock ∧ ∀ e ∈ post, ¬ e.Writes "k" := by
  intro lost begun done again
  have hdone : History 0 ([] ++ lost :: ([begun] ++ [done])) (afterCalls [lost, begun, done]) :=
    Clocked.run_play (by decide) (by decide)
  have hrun : History 0 ([lost, begun] ++ done :: ([] ++ [again]))
      (afterCalls [lost, begun, done, again]) := Clocked.run_play (by decide) (by decide)
  have hmark : ∀ e ∈ [begun] ++ [done], ¬ e.EndsOnce "k" onceDoneMarker := by
    simp [Event.EndsOnce, begun, done, onceDoneMarker]
  obtain ⟨hlock, -, horigin⟩ := once_apart hdone hmark
  obtain ⟨-, hkept, -⟩ := once_apart hrun (by simp [Event.EndsOnce, again])
  exact ⟨hrun, hlock "a" 10 ⟨rfl, rfl⟩ ⟨"b", 20, .inr ⟨rfl, rfl⟩⟩,
    hkept "b" 20 ⟨rfl, rfl⟩ ⟨"c", 10, .inl ⟨rfl, rfl⟩⟩, horigin "b" 20 ⟨rfl, rfl⟩⟩

end Gombit.Jobs
