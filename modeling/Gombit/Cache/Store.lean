import Gombit.Foundations.Decimal
import Gombit.Foundations.Table

/-!
# The counters of the cache drivers

The cache keeps integers under keys, some with an expiry. `Memory` (`cache/memory.go`) is a map
whose expired items stay until someone meets them; `Redis` (`cache/redis.go`) sends a command or a
script to a server that runs it at one instant. This module has both, over the same kind of table,
with the readings of the clock as arguments. Times and times to live are in milliseconds.

* `live`: the item a reader finds at a given time. Two tables that agree on it agree for good
  (`SameKeys.mono`), and a command depends on the table through it only (`perform_congr`).
* `perform_adds`, `perform_decrementExisting`: what the commands that count return and leave.
* `sameKeys_dropExpired`, `sameKeys_sweepBatch`: removing expired items changes nothing.
-/

namespace Gombit.Cache

/-! ## Items -/

/-- `memoryItem`: a stored integer and when it expires. A zero `expiresAt` is `none`. -/
structure Item where
  value : ℤ
  expiresAt : Option ℤ
  deriving DecidableEq

/-- `memoryItem.expired`. -/
def Item.expired (i : Item) (now : ℤ) : Bool := i.expiresAt.any fun e => decide (e ≤ now)

variable {now : ℤ} {key : String} {i : Item}

variable {later : ℤ} {key' : String}

theorem Item.expired_mono (hle : now ≤ later) (h : i.expired now = true) :
    i.expired later = true := by
  rw [expired, Option.any_eq_true] at h ⊢
  obtain ⟨e, he, hnow⟩ := h
  refine ⟨e, he, ?_⟩
  simp only [decide_eq_true_eq] at hnow ⊢
  omega

abbrev Items := Table String Item

/-- The item of a key, when there is one and it has not expired: `ok && !item.expired(now)` in
`memory.go`, and what a Redis server has under the key at `now`. -/
def live (items : Items) (now : ℤ) (key : String) : Option Item :=
  (items.lookup key).filter fun i => !i.expired now

variable {items : Items}

theorem live_eq_some_iff :
    live items now key = some i ↔ items.lookup key = some i ∧ i.expired now = false := by
  rw [live, Option.filter_eq_some_iff]
  simp

theorem live_eq_none_of_expired (hi : items.lookup key = some i) (h : i.expired now = true) :
    live items now key = none := by
  simp [live, hi, h]

@[simp] theorem live_insert (items : Items) (now : ℤ) (key : String) (i : Item) :
    live (items.insert key i) now key = if i.expired now then none else some i := by
  rw [live, AList.lookup_insert, Option.filter_some]
  cases i.expired now <;> rfl

@[simp] theorem live_insert_ne (h : key' ≠ key) :
    live (items.insert key i) now key' = live items now key' := by
  rw [live, AList.lookup_insert_ne h, live]

@[simp] theorem live_erase (items : Items) (now : ℤ) (key : String) :
    live (items.erase key) now key = none := by
  simp [live]

@[simp] theorem live_erase_ne (h : key' ≠ key) :
    live (items.erase key) now key' = live items now key' := by
  rw [live, AList.lookup_erase_ne h, live]

/-- What is alive later was alive before and is the same. -/
theorem live_later (items : Items) (hle : now ≤ later) (key : String) :
    live items later key = (live items now key).filter fun i => !i.expired later := by
  rw [live, live, Option.filter_filter]
  congr 1
  funext i
  cases hnow : i.expired now with
  | false => simp
  | true => simp [Item.expired_mono hle hnow]

/-- The two tables hold the same at `now`. -/
def SameKeys (now : ℤ) (p q : Items) : Prop := ∀ key, live p now key = live q now key

theorem SameKeys.refl (now : ℤ) (p : Items) : SameKeys now p p := fun _ => rfl

variable {p q : Items}

theorem SameKeys.symm (h : SameKeys now p q) : SameKeys now q p :=
  fun key => (h key).symm

theorem SameKeys.trans {r : Items} (h : SameKeys now p q) (h' : SameKeys now q r) :
    SameKeys now p r :=
  fun key => (h key).trans (h' key)

/-- Tables that hold the same now hold the same from now on. -/
theorem SameKeys.mono (h : SameKeys now p q) (hle : now ≤ later) :
    SameKeys later p q := by
  intro key
  rw [live_later p hle, live_later q hle, h key]

theorem SameKeys.insert (h : SameKeys now p q) (key : String) (i : Item) :
    SameKeys now (p.insert key i) (q.insert key i) := by
  intro key'
  by_cases hkey : key' = key
  · subst hkey
    rw [live_insert, live_insert]
  · rw [live_insert_ne hkey, live_insert_ne hkey, h key']

/-! ## Operations -/

/-- The operations, with a `Set` that has no expiry. -/
inductive Op
  | get (key : String)
  | set (key : String) (value : ℤ)
  | delete (keys : List String)
  | increment (key : String) (delta : ℤ)
  | incrementTTL (key : String) (delta ttl : ℤ)
  | decrementExisting (key : String) (delta : ℤ)
  deriving DecidableEq

/-- What an operation returns: the value read or counted, whether the key was found, and whether
there is an error. What an operation does not return is 0 or false. -/
structure Reply where
  value : ℤ
  found : Bool
  failed : Bool
  deriving DecidableEq

namespace Reply

/-- A `nil` error and nothing else; also `Get` of a missing key. -/
def done : Reply := ⟨0, false, false⟩

/-- A key that was found, with its value. -/
def hit (value : ℤ) : Reply := ⟨value, true, false⟩

/-- The value a counter has now. -/
def count (value : ℤ) : Reply := ⟨value, false, false⟩

/-- An error. -/
def error : Reply := ⟨0, false, true⟩

end Reply

/-- `math.MaxInt64`. -/
def maxInt64 : ℤ := 2 ^ 63 - 1

/-- `math.MinInt64`. -/
def minInt64 : ℤ := -2 ^ 63

/-- The check of `increment`, and the one of `INCRBY`. -/
def addOverflows (current delta : ℤ) : Bool :=
  (decide (0 < delta) && decide (maxInt64 - delta < current)) ||
    (decide (delta < 0) && decide (current < minInt64 - delta))

/-- The check of `DecrementExisting`. -/
def subOverflows (stored delta : ℤ) : Bool :=
  (decide (delta < 0) && decide (maxInt64 + delta < stored)) ||
    (decide (0 < delta) && decide (stored < minInt64 + delta))

theorem subOverflows_eq (stored delta : ℤ) :
    subOverflows stored delta = addOverflows stored (-delta) := by
  rw [Bool.eq_iff_iff]
  simp only [subOverflows, addOverflows, Bool.or_eq_true, Bool.and_eq_true, decide_eq_true_eq]
  omega

/-- The count of a key that may be missing. -/
def countOf (item : Option Item) : ℤ := (item.map Item.value).getD 0

/-! ## The memory driver

Each function is what one operation does while it holds the lock, with its readings of the clock. -/

namespace Memory

/-- The loop of `Delete`. -/
def delete (items : Items) (keys : List String) : Items := keys.foldl (fun m key => m.erase key) items

/-- The key's item is deleted if it has expired: one round of `sweepBatch`, and the end of a `Get` that
found an expired item. -/
def dropExpired (now : ℤ) (items : Items) (key : String) : Items :=
  match items.lookup key with
  | some item => if item.expired now then items.erase key else items
  | none => items

/-- `Memory.sweepBatch`. -/
def sweepBatch (now : ℤ) (keys : List String) (items : Items) : Items :=
  keys.foldl (dropExpired now) items

/-- The first half of `Memory.increment`: the count to add to, or no count where the sum overflows. -/
def current (items : Items) (key : String) (delta now : ℤ) : Option ℤ :=
  let current := countOf (live items now key)
  if addOverflows current delta then none else some current

/-- The second half of `Memory.increment`: the item that is stored. -/
def increased (items : Items) (key : String) (value ttl now : ℤ) : Item :=
  let expiresAt := (live items now key).bind Item.expiresAt
  ⟨value, if expiresAt.isNone ∧ 0 < ttl then some (now + ttl) else expiresAt⟩

/-- `Memory.DecrementExisting`. -/
def decrementExisting (items : Items) (key : String) (delta now : ℤ) : Reply × Items :=
  match live items now key with
  | none => (⟨0, false, false⟩, items)
  | some item =>
    if subOverflows item.value delta then (⟨0, true, true⟩, items)
    else (⟨item.value - delta, true, false⟩,
      items.insert key ⟨item.value - delta, item.expiresAt⟩)

theorem live_delete (items : Items) (keys : List String) (now : ℤ) (key : String) :
    live (delete items keys) now key = if key ∈ keys then none else live items now key := by
  induction keys generalizing items with
  | nil => rfl
  | cons k keys ih =>
    change live (delete (items.erase k) keys) now key = _
    rw [ih]
    by_cases hmem : key ∈ keys
    · simp [hmem]
    · by_cases hk : key = k
      · simp [hk]
      · simp [hmem, hk]

/-- Deleting an expired item changes nothing a reader can find, now or later. -/
theorem sameKeys_dropExpired (items : Items) (hle : now ≤ later) (key : String) :
    SameKeys later items (dropExpired now items key) := by
  unfold dropExpired
  split
  · rename_i item hitem
    split
    · rename_i hexpired
      intro key'
      by_cases hkey : key' = key
      · subst hkey
        rw [live_erase, live_eq_none_of_expired hitem (Item.expired_mono hle hexpired)]
      · rw [live_erase_ne hkey]
    · exact .refl later items
  · exact .refl later items

theorem sameKeys_sweepBatch (keys : List String) (items : Items) (hle : now ≤ later) :
    SameKeys later items (sweepBatch now keys items) := by
  induction keys generalizing items with
  | nil => exact .refl later items
  | cons key keys ih => exact (sameKeys_dropExpired items hle key).trans (ih _)

end Memory

/-! ## The Redis driver -/

namespace Redis

/-- A script on the server's keys. An error stops it. -/
abbrev Script := EStateM Unit Items

/-- `INCRBY`: the key keeps its expiry. -/
def incrBy (now : ℤ) (key : String) (delta : ℤ) : Script ℤ := do
  let item := live (← get) now key
  if addOverflows (countOf item) delta then throw ()
  modify fun items => items.insert key ⟨countOf item + delta, item.bind Item.expiresAt⟩
  return countOf item + delta

/-- `DECRBY`: the negated decrement has to be an integer of 64 bits. -/
def decrBy (now : ℤ) (key : String) (delta : ℤ) : Script ℤ :=
  if delta = minInt64 then throw () else incrBy now key (-delta)

/-- `PTTL`: -2 for a missing key, -1 for one without expiry. -/
def pttl (now : ℤ) (key : String) : Script ℤ := do
  match live (← get) now key with
  | none => return -2
  | some item => return (item.expiresAt.map (· - now)).getD (-1)

/-- `PEXPIRE`: a time to live that is not positive deletes the key. -/
def pexpire (now : ℤ) (key : String) (ms : ℤ) : Script Unit :=
  modify fun items =>
    match live items now key with
    | none => items
    | some item => if ms ≤ 0 then items.erase key else items.insert key ⟨item.value, some (now + ms)⟩

/-- `incrementTTLScript`. A number of Lua is a double. -/
def incrementTTLScript (now : ℤ) (key : String) (delta ms : ℤ) : Script ℤ := do
  let value := onAbs toDouble (← incrBy now key delta)
  if (← pttl now key) = -1 then pexpire now key ms
  return value

/-- `decrementExistingScript`. -/
def decrementExistingScript (now : ℤ) (key : String) (delta : ℤ) : Script (ℤ × ℤ) := do
  if (live (← get) now key).isNone then return (0, 0)
  return (onAbs toDouble (← decrBy now key delta), 1)

/-- What the client makes of a reply, and the keys after it. -/
def answer {α : Type} (reply : α → Reply) : EStateM.Result Unit Items α → Reply × Items
  | .ok a items => (reply a, items)
  | .error _ items => (.error, items)

/-- The methods of `Redis`: the reply, and what the server has afterwards, for a command that runs at
`now`. -/
def perform (now : ℤ) (op : Op) (items : Items) : Reply × Items :=
  match op with
  | .get key => (((live items now key).map fun i => Reply.hit i.value).getD .done, items)
  | .set key value => (.done, items.insert key ⟨value, none⟩)
  | .delete keys => (.done, keys.foldl (fun m key => m.erase key) items)
  | .increment key delta => answer .count ((incrBy now key delta).run items)
  | .incrementTTL key delta ttl =>
    if ttl ≤ 0 then (.error, items)
    else answer .count ((incrementTTLScript now key delta (max ttl 1)).run items)
  | .decrementExisting key delta =>
    answer (fun r => ⟨r.1, decide (r.2 = 1), false⟩) ((decrementExistingScript now key delta).run items)

/-! ### What the commands do -/

section Commands

variable {now : ℤ} {key : String} {delta : ℤ} {items : Items}

theorem run_incrBy_of_overflows (h : addOverflows (countOf (live items now key)) delta = true) :
    (incrBy now key delta).run items = .error () items := by
  simp [incrBy, h]

theorem run_incrBy (h : addOverflows (countOf (live items now key)) delta = false) :
    (incrBy now key delta).run items = .ok (countOf (live items now key) + delta)
      (items.insert key ⟨countOf (live items now key) + delta,
        (live items now key).bind Item.expiresAt⟩) := by
  simp only [incrBy, EStateM.run_bind, EStateM.run_get, h]
  rfl

variable {item : Item} {op : Op} {ttl : ℤ}

/-- The expiry of an item that is still there has not come. -/
theorem not_expired_of_live (h : live items now key = some item) {e : ℤ}
    (he : item.expiresAt = some e) : now < e := by
  have hexpired := (live_eq_some_iff.1 h).2
  simpa [Item.expired, he] using hexpired

theorem not_expired_kept (value : ℤ) :
    Item.expired ⟨value, (live items now key).bind Item.expiresAt⟩ now = false := by
  cases hlive : live items now key with
  | none => rfl
  | some item => exact (live_eq_some_iff.1 hlive).2

theorem not_expired_increased (value ttl : ℤ) :
    (Memory.increased items key value ttl now).expired now = false := by
  unfold Memory.increased
  dsimp only
  split
  · rename_i h
    simp [Item.expired, h.2]
  · exact not_expired_kept value

/-- The operations that add to a counter; `ttl` is 0 for one that gives no expiry. -/
def Adds (op : Op) (key : String) (delta ttl : ℤ) : Prop :=
  op = .increment key delta ∧ ttl = 0 ∨ op = .incrementTTL key delta ttl ∧ 0 < ttl

theorem perform_adds_of_overflows (hop : Adds op key delta ttl)
    (h : addOverflows (countOf (live items now key)) delta = true) :
    perform now op items = (.error, items) := by
  obtain ⟨rfl, rfl⟩ | ⟨rfl, httl⟩ := hop
  · simp only [perform, run_incrBy_of_overflows h, answer]
  · simp only [perform, incrementTTLScript, EStateM.run_bind, run_incrBy_of_overflows h, answer,
      if_neg (not_le.2 httl)]

theorem live_insert_kept (value : ℤ) :
    live (items.insert key ⟨value, (live items now key).bind Item.expiresAt⟩) now key =
      some ⟨value, (live items now key).bind Item.expiresAt⟩ := by
  rw [live_insert, not_expired_kept]
  rfl

theorem run_pttl (value : ℤ) :
    (pttl now key).run
        (items.insert key ⟨value, (live items now key).bind Item.expiresAt⟩) =
      .ok ((((live items now key).bind Item.expiresAt).map (· - now)).getD (-1))
        (items.insert key ⟨value, (live items now key).bind Item.expiresAt⟩) := by
  simp only [pttl, EStateM.run_bind, EStateM.run_get, live_insert_kept]
  rfl

theorem run_pexpire (item : Item) {ms : ℤ} (hlive : live items now key = some item) (hms : 0 < ms) :
    (pexpire now key ms).run items = .ok () (items.insert key ⟨item.value, some (now + ms)⟩) := by
  have hrun : (pexpire now key ms).run items =
      .ok () (match live items now key with
        | none => items
        | some item =>
          if ms ≤ 0 then items.erase key else items.insert key ⟨item.value, some (now + ms)⟩) := rfl
  rw [hrun, hlive]
  simp only [if_neg (not_le.2 hms)]

theorem sameKeys_insert_insert (i j : Item) :
    SameKeys now ((items.insert key i).insert key j) (items.insert key j) := by
  intro key'
  by_cases hkey : key' = key
  · subst hkey
    rw [live_insert, live_insert]
  · rw [live_insert_ne hkey, live_insert_ne hkey, live_insert_ne hkey]

/-- The script adds as `INCRBY` does and then gives an expiry to a key that has none. -/
theorem run_incrementTTLScript (httl : 0 < ttl)
    (h : addOverflows (countOf (live items now key)) delta = false) :
    ∃ items', (incrementTTLScript now key delta ttl).run items =
        .ok (onAbs toDouble (countOf (live items now key) + delta)) items' ∧
      SameKeys now items' (items.insert key
        (Memory.increased items key (countOf (live items now key) + delta) ttl now)) := by
  simp only [incrementTTLScript, EStateM.run_bind, run_incrBy h, run_pttl, Memory.increased]
  have hkept := @live_insert_kept now key items (countOf (live items now key) + delta)
  cases hexp : (live items now key).bind Item.expiresAt with
  | none =>
    rw [hexp] at hkept
    simp only [Option.map_none, Option.getD_none, if_true, EStateM.run_bind, run_pexpire _ hkept httl]
    refine ⟨_, rfl, ?_⟩
    simp only [Option.isNone_none, httl, and_self, if_true]
    exact sameKeys_insert_insert _ _
  | some e =>
    have hlt : now < e := by
      obtain ⟨item, hitem, he⟩ := Option.bind_eq_some_iff.1 hexp
      exact not_expired_of_live hitem he
    have hne : e - now ≠ -1 := by omega
    simp only [Option.map_some, Option.getD_some, if_neg hne]
    refine ⟨_, rfl, ?_⟩
    simpa using SameKeys.refl _ _

/-- The number in the reply of an operation that adds: the one of a script has been a number of
Lua. -/
def replied : Op → ℤ → ℤ
  | .incrementTTL _ _ _, value => onAbs toDouble value
  | _, value => value

theorem replied_eq_iff {value n : ℤ} (h : |n| ≤ 2 ^ 53 - 1) :
    replied op value = n ↔ value = n := by
  cases op with
  | incrementTTL key delta ttl => exact onAbs_toDouble_eq_iff (by omega)
  | _ => rfl

/-- **Adding to a counter**, as the server does it at `now`. -/
theorem perform_adds (hop : Adds op key delta ttl)
    (h : addOverflows (countOf (live items now key)) delta = false) :
    (perform now op items).1 = .count (replied op (countOf (live items now key) + delta)) ∧
      SameKeys now (perform now op items).2
        (items.insert key
          (Memory.increased items key (countOf (live items now key) + delta) ttl now)) := by
  obtain ⟨rfl, rfl⟩ | ⟨rfl, httl⟩ := hop
  · simp only [perform, run_incrBy h, answer]
    refine ⟨rfl, ?_⟩
    simpa only [Memory.increased, lt_irrefl, and_false, if_false] using SameKeys.refl _ _
  · have hms : max ttl 1 = ttl := by omega
    obtain ⟨items', hrun, hsame⟩ := run_incrementTTLScript httl h
    simp only [perform, if_neg (not_le.2 httl), hms, hrun, answer]
    exact ⟨rfl, hsame⟩

theorem perform_incrementTTL_refused (httl : ttl ≤ 0) :
    perform now (.incrementTTL key delta ttl) items = (.error, items) := by
  simp only [perform, if_pos httl]

theorem perform_decrementExisting_of_none (h : live items now key = none) :
    perform now (.decrementExisting key delta) items = (.done, items) := by
  simp [perform, decrementExistingScript, h, answer, Reply.done]

/-- A decrement the server refuses. -/
theorem perform_decrementExisting_of_overflows (hitem : live items now key = some item)
    (h : delta = minInt64 ∨ subOverflows item.value delta = true) :
    perform now (.decrementExisting key delta) items = (.error, items) := by
  have hcount : countOf (live items now key) = item.value := by simp [countOf, hitem]
  have hrun : (decrBy now key delta).run items = .error () items := by
    unfold decrBy
    split
    · rfl
    · rename_i hne
      refine run_incrBy_of_overflows ?_
      rw [hcount, ← subOverflows_eq]
      exact h.resolve_left hne
  simp only [perform, decrementExistingScript, EStateM.run_bind, EStateM.run_get, hitem, hrun, answer,
    Option.isNone_some, Bool.false_eq_true, if_false]

/-- **Taking from a counter**, as the server does it at `now`. -/
theorem perform_decrementExisting (hitem : live items now key = some item)
    (hdelta : delta ≠ minInt64) (h : subOverflows item.value delta = false) :
    perform now (.decrementExisting key delta) items =
      (.hit (onAbs toDouble (item.value - delta)),
        items.insert key ⟨item.value - delta, item.expiresAt⟩) := by
  have hcount : countOf (live items now key) = item.value := by simp [countOf, hitem]
  have hrun : (decrBy now key delta).run items =
      .ok (item.value - delta) (items.insert key ⟨item.value - delta, item.expiresAt⟩) := by
    rw [decrBy, if_neg hdelta, run_incrBy (by rw [hcount, ← subOverflows_eq, h]), hcount, hitem,
      ← sub_eq_add_neg]
    rfl
  simp only [perform, decrementExistingScript, EStateM.run_bind, EStateM.run_get, hitem, hrun, answer,
    Option.isNone_some, Bool.false_eq_true, if_false]
  rfl

/-- The server never reports a key as found together with an error. -/
theorem perform_decrementExisting_ne :
    (perform now (.decrementExisting key delta) items).1 ≠ ⟨0, true, true⟩ := by
  cases hitem : live items now key with
  | none =>
    rw [perform_decrementExisting_of_none hitem]
    simp [Reply.done]
  | some item =>
    by_cases hover : delta = minInt64 ∨ subOverflows item.value delta = true
    · rw [perform_decrementExisting_of_overflows hitem hover]
      simp [Reply.error]
    · obtain ⟨hdelta, hsub⟩ := not_or.1 hover
      rw [perform_decrementExisting hitem hdelta (by simpa using hsub)]
      simp [Reply.hit]

end Commands

/-- **A command sees the live items only.** -/
theorem perform_congr (op : Op) (h : SameKeys now p q) :
    (perform now op p).1 = (perform now op q).1 ∧
      SameKeys now (perform now op p).2 (perform now op q).2 := by
  have hadds : ∀ {key delta ttl}, Adds op key delta ttl →
      (perform now op p).1 = (perform now op q).1 ∧
        SameKeys now (perform now op p).2 (perform now op q).2 := by
    intro key delta ttl hop
    have hkey := h key
    cases hover : addOverflows (countOf (live q now key)) delta with
    | true =>
      rw [perform_adds_of_overflows hop hover, perform_adds_of_overflows hop (by rw [hkey, hover])]
      exact ⟨rfl, h⟩
    | false =>
      obtain ⟨hreply, hsame⟩ := perform_adds hop hover
      obtain ⟨hreply', hsame'⟩ := @perform_adds now key delta p op ttl hop (by rw [hkey, hover])
      rw [hreply, hreply', hkey]
      refine ⟨rfl, hsame'.trans (.trans ?_ hsame.symm)⟩
      simp only [Memory.increased, hkey]
      exact h.insert key _
  cases op with
  | get key => exact ⟨by simp only [perform, h key], h⟩
  | set key value => exact ⟨rfl, h.insert key _⟩
  | delete keys =>
    refine ⟨rfl, fun key => ?_⟩
    change live (Memory.delete p keys) now key = live (Memory.delete q keys) now key
    rw [Memory.live_delete, Memory.live_delete, h key]
  | increment key delta => exact hadds (.inl ⟨rfl, rfl⟩)
  | incrementTTL key delta ttl =>
    by_cases httl : 0 < ttl
    · exact hadds (.inr ⟨rfl, httl⟩)
    · rw [perform_incrementTTL_refused (not_lt.1 httl), perform_incrementTTL_refused (not_lt.1 httl)]
      exact ⟨rfl, h⟩
  | decrementExisting key delta =>
    cases hitem : live q now key with
    | none =>
      rw [perform_decrementExisting_of_none hitem,
        perform_decrementExisting_of_none ((h key).trans hitem)]
      exact ⟨rfl, h⟩
    | some item =>
      have hitem' := (h key).trans hitem
      by_cases hover : delta = minInt64 ∨ subOverflows item.value delta = true
      · rw [perform_decrementExisting_of_overflows hitem hover,
          perform_decrementExisting_of_overflows hitem' hover]
        exact ⟨rfl, h⟩
      · obtain ⟨hdelta, hsub⟩ := not_or.1 hover
        rw [Bool.not_eq_true] at hsub
        rw [perform_decrementExisting hitem hdelta hsub, perform_decrementExisting hitem' hdelta hsub]
        exact ⟨rfl, h.insert key _⟩

end Redis

end Gombit.Cache
