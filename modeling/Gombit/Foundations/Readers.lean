import Gombit.Foundations.Run
import Mathlib.Data.List.Basic
import Mathlib.Order.Interval.Finset.Nat

/-!
# Readers

`io.Reader` and what the standard library builds from readers. A read into a buffer of `len` bytes
returns at most that many, together with an error or none; what a reader does after an error is its
own affair.

* `offers`: the readers that follow a script. Every sequence of results that fit their buffers is
  the behaviour of one of them.
* `readFull`, `multiReader`, `readAll`: `io.ReadFull`, `io.MultiReader` with bytes in front of a reader,
  and a consumer that reads up to the first error, with buffers of any sizes.
* `readFull_reads`, `readAll_multi`: the results they read.
* `ReadsTo`: reads with given buffers up to the first error.
-/

namespace Gombit

open List

/-- What a read returns. -/
structure Chunk (ε : Type*) where
  bytes : List UInt8
  err : Option ε
  deriving DecidableEq

/-- A reader over its state: a read into a buffer of the given length. `none` is a read that does
not return. -/
abbrev Reader (σ ε : Type*) := ℕ → σ → Option (Chunk ε × σ)

/-- The bytes of a sequence of results. -/
def delivered {ε : Type*} (cs : List (Chunk ε)) : List UInt8 := cs.flatMap Chunk.bytes

variable {σ ε : Type*}

@[simp] theorem delivered_nil : delivered ([] : List (Chunk ε)) = [] := rfl

@[simp] theorem delivered_cons (c : Chunk ε) (cs : List (Chunk ε)) :
    delivered (c :: cs) = c.bytes ++ delivered cs := rfl

@[simp] theorem delivered_append (cs ds : List (Chunk ε)) :
    delivered (cs ++ ds) = delivered cs ++ delivered ds := flatMap_append

/-- One read, with a buffer of some length. -/
def Reads (r : Reader σ ε) (s : σ) (c : Chunk ε) (s' : σ) : Prop := ∃ len, r len s = some (c, s')

/-! ## Scripts -/

/-- The reader of a script: a buffer with room for a whole offer gets it, with its error; a smaller
one gets a part of it. After the script, reads do not return. -/
def offers : Reader (List (Chunk ε)) ε
  | _, [] => none
  | len, c :: rest =>
    if c.bytes.length ≤ len then some (c, rest)
    else some (⟨c.bytes.take len, none⟩, ⟨c.bytes.drop len, c.err⟩ :: rest)

/-- The bytes of a script up to its first error, those that come with it included. -/
def content : List (Chunk ε) → List UInt8
  | [] => []
  | c :: rest => c.bytes ++ if c.err.isNone then content rest else []

/-- What a script offers after its first error. -/
def afterError : List (Chunk ε) → List (Chunk ε)
  | [] => []
  | c :: rest => if c.err.isNone then afterError rest else rest

/-- The error of the read that ends the filling of a buffer of `n` bytes: the one that brings the
last byte, or the first error. -/
def fillError : ℕ → List (Chunk ε) → Option ε
  | _, [] => none
  | n, c :: rest =>
    if n < c.bytes.length then none
    else if c.err.isSome then c.err
    else if n = c.bytes.length then none
    else fillError (n - c.bytes.length) rest

/-- How many reads a script can take. -/
def scriptWeight : List (Chunk ε) → ℕ
  | [] => 0
  | c :: script => c.bytes.length + 1 + scriptWeight script

section Offers

variable {script rest : List (Chunk ε)} {d : Chunk ε} {len : ℕ}
  (h : offers len script = some (d, rest))

include h

/-- **Inversion.** A read takes the first offer, or a part of it. -/
theorem offers_cases :
    (∃ c, script = c :: rest ∧ d = c ∧ c.bytes.length ≤ len) ∨
      ∃ c tail, script = c :: tail ∧ len < c.bytes.length ∧ d = ⟨c.bytes.take len, none⟩ ∧
        rest = ⟨c.bytes.drop len, c.err⟩ :: tail := by
  cases script with
  | nil => cases h
  | cons c tail =>
    by_cases hle : c.bytes.length ≤ len
    · simp only [offers, hle, if_true, Option.some.injEq, Prod.mk.injEq] at h
      obtain ⟨rfl, rfl⟩ := h
      exact .inl ⟨c, rfl, rfl, hle⟩
    · simp only [offers, hle, if_false, Option.some.injEq, Prod.mk.injEq] at h
      obtain ⟨rfl, rfl⟩ := h
      exact .inr ⟨c, tail, rfl, not_le.1 hle, rfl, rfl⟩

theorem delivered_offers : delivered script = d.bytes ++ delivered rest := by
  obtain ⟨c, rfl, rfl, -⟩ | ⟨c, tail, rfl, -, rfl, rfl⟩ := offers_cases h
  · rfl
  · simp [← append_assoc]

/-- The errors of the results are the script's. -/
theorem mem_err_offers {e : ε} (he : ∃ c ∈ d :: rest, c.err = some e) :
    ∃ c ∈ script, c.err = some e := by
  obtain ⟨c, rfl, rfl, -⟩ | ⟨c, tail, rfl, -, rfl, rfl⟩ := offers_cases h
  · exact he
  · simpa using he

theorem offers_length_le : d.bytes.length ≤ len := by
  obtain ⟨c, -, rfl, hle⟩ | ⟨c, tail, -, -, rfl, -⟩ := offers_cases h
  · exact hle
  · exact length_take_le _ _

theorem scriptWeight_offers (hlen : 0 < len) : scriptWeight rest < scriptWeight script := by
  obtain ⟨c, rfl, -, -⟩ | ⟨c, tail, rfl, hlt, -, rfl⟩ := offers_cases h
  · simp only [scriptWeight]
    omega
  · simp only [scriptWeight, length_drop]
    omega

/-- A read without an error takes bytes off the front of the script. -/
theorem offers_none (hd : d.err = none) :
    content script = d.bytes ++ content rest ∧ afterError script = afterError rest ∧
      ∀ n, len ≤ n → fillError n script =
        if n = d.bytes.length then none else fillError (n - d.bytes.length) rest := by
  obtain ⟨c, rfl, rfl, hle⟩ | ⟨c, tail, rfl, hlt, rfl, rfl⟩ := offers_cases h
  · refine ⟨by simp [content, hd], by simp [afterError, hd], fun n hn => ?_⟩
    simp [fillError, hd, not_lt.2 (hle.trans hn)]
  · have htake : (c.bytes.take len).length = len := length_take_of_le hlt.le
    refine ⟨by simp [content, ← append_assoc], by simp [afterError], fun n hn => ?_⟩
    -- the same comparisons, `len` bytes later
    have h₁ : n - len < c.bytes.length - len ↔ n < c.bytes.length := by omega
    have h₂ : n - len = c.bytes.length - len ↔ n = c.bytes.length := by omega
    have h₃ : n - len - (c.bytes.length - len) = n - c.bytes.length := by omega
    simp only [fillError, htake, length_drop, h₁, h₂, h₃]
    by_cases hlen : n = len
    · simp [hlen, hlt]
    · simp [hlen]

/-- A read with an error takes the content to its end. -/
theorem offers_some {e : ε} (hd : d.err = some e) :
    content script = d.bytes ∧ afterError script = rest ∧
      ∀ n, len ≤ n → fillError n script = some e := by
  obtain ⟨c, rfl, rfl, hle⟩ | ⟨c, tail, rfl, hlt, rfl, rfl⟩ := offers_cases h
  · refine ⟨by simp [content, hd], by simp [afterError, hd], fun n hn => ?_⟩
    simp [fillError, hd, not_lt.2 (hle.trans hn)]
  · cases hd

/-- A result shorter than its buffer does not depend on the buffer. -/
theorem offers_of_lt {len' : ℕ} (hlt : d.bytes.length < len) (hle : len ≤ len') :
    offers len' script = some (d, rest) := by
  obtain ⟨c, rfl, rfl, hfits⟩ | ⟨c, tail, rfl, hmore, rfl, rfl⟩ := offers_cases h
  · exact if_pos (hfits.trans hle)
  · rw [length_take_of_le hmore.le] at hlt
    omega

end Offers

theorem offers_isSome {script : List (Chunk ε)} {len : ℕ} (hcontent : content script ≠ []) :
    (offers len script).isSome := by
  cases script with
  | nil => exact absurd rfl hcontent
  | cons c tail =>
    rw [offers]
    split <;> rfl

/-! ## Reading up to an error -/

/-- Reads with the buffers `sizes k`, `sizes (k + 1)`, … up to the first error: the bytes they
deliver, the error, and the reader's state after it. -/
inductive ReadsTo (r : Reader σ ε) (sizes : ℕ → ℕ) : ℕ → σ → List UInt8 → ε → σ → Prop
  | last {k : ℕ} {s s' : σ} {bytes : List UInt8} {e : ε}
      (read : r (sizes k) s = some (⟨bytes, some e⟩, s')) : ReadsTo r sizes k s bytes e s'
  | more {k : ℕ} {s s' s'' : σ} {bytes rest : List UInt8} {e : ε}
      (read : r (sizes k) s = some (⟨bytes, none⟩, s'))
      (tail : ReadsTo r sizes (k + 1) s' rest e s'') : ReadsTo r sizes k s (bytes ++ rest) e s''

/-- What the reads deliver and how they end is determined. -/
theorem ReadsTo.unique {r : Reader σ ε} {sizes : ℕ → ℕ} {k : ℕ} {s s₁ s₂ : σ}
    {bytes₁ bytes₂ : List UInt8} {e₁ e₂ : ε} (h₁ : ReadsTo r sizes k s bytes₁ e₁ s₁)
    (h₂ : ReadsTo r sizes k s bytes₂ e₂ s₂) : bytes₁ = bytes₂ ∧ e₁ = e₂ ∧ s₁ = s₂ := by
  induction h₁ generalizing bytes₂ e₂ s₂ with
  | last read =>
    cases h₂ with
    | last read' =>
      rw [read] at read'
      cases read'
      exact ⟨rfl, rfl, rfl⟩
    | more read' =>
      rw [read] at read'
      cases read'
  | more read tail ih =>
    cases h₂ with
    | last read' =>
      rw [read] at read'
      cases read'
    | more read' tail' =>
      rw [read] at read'
      cases read'
      obtain ⟨rfl, rfl, rfl⟩ := ih tail'
      exact ⟨rfl, rfl, rfl⟩

/-! ## Filling a buffer -/

/-- `io.ReadFull`, for a buffer with room for `need` more bytes: an error that comes with the byte
that fills it is dropped. -/
def readFull [DecidableEq ε] (eof unexpectedEOF : ε) (r : Reader σ ε) :
    ℕ → ℕ → List UInt8 → σ → Option (Chunk ε × σ)
  | 0, _, _, _ => none
  | fuel + 1, need, got, s =>
    match r need s with
    | none => none
    | some (c, s') =>
      if need ≤ c.bytes.length then some (⟨got ++ c.bytes, none⟩, s')
      else
        match c.err with
        | none => readFull eof unexpectedEOF r fuel (need - c.bytes.length) (got ++ c.bytes) s'
        | some e =>
          some (⟨got ++ c.bytes,
            some (if got ++ c.bytes ≠ [] ∧ e = eof then unexpectedEOF else e)⟩, s')

section Filling

variable [DecidableEq ε] {eof unexpectedEOF : ε} {r : Reader σ ε} {fuel need : ℕ} {got : List UInt8}
  {s s' : σ} {c : Chunk ε}

/-- **What `io.ReadFull` reads**: results without an error and a last one. Without an error the buffer
is full; its own error is the last one's, and a last one that leaves room in the buffer is returned. -/
theorem readFull_reads (h : readFull eof unexpectedEOF r fuel need got s = some (c, s'))
    (hneed : 0 < need) :
    ∃ cs d, Run (Reads r) s (cs ++ [d]) s' ∧ (∀ x ∈ cs, x.err = none) ∧
      c.bytes = got ++ delivered (cs ++ [d]) ∧
      (c.err = none → need ≤ (delivered (cs ++ [d])).length) ∧
      (∀ e, c.err = some e → d.err = some e ∨ d.err = some eof ∧ e = unexpectedEOF) ∧
      ∀ e, d.err = some e → d.bytes = [] ∨ (delivered (cs ++ [d])).length < need → e ≠ eof →
        c.err = some e := by
  induction fuel generalizing need got s with
  | zero => cases h
  | succ fuel ih =>
    rw [readFull] at h
    cases hr : r need s with
    | none => simp [hr] at h
    | some x =>
      obtain ⟨d, s₁⟩ := x
      have hread : Reads r s d s₁ := ⟨need, hr⟩
      simp only [hr] at h
      split_ifs at h with hfull
      · cases h
        refine ⟨[], d, .single hread, by simp, by simp, by simpa, by simp, fun e _ hroom => ?_⟩
        rcases hroom with hempty | hroom
        · rw [hempty, length_nil] at hfull
          omega
        · simp only [nil_append, delivered_cons, delivered_nil, append_nil] at hroom
          omega
      · cases hd : d.err with
        | none =>
          simp only [hd] at h
          obtain ⟨cs, last, hrun, herr, hbytes, hnone, hsome, hlast⟩ := ih h (by omega)
          have hlen : (delivered (d :: cs ++ [last])).length =
              d.bytes.length + (delivered (cs ++ [last])).length := length_append
          refine ⟨d :: cs, last, .cons hread hrun, by simpa [hd] using herr, by simpa using hbytes,
            fun hc => ?_, hsome, fun e he hroom => hlast e he (hroom.imp_right fun hlt => ?_)⟩
          · have hfilled := hnone hc
            omega
          · omega
        | some e =>
          simp only [hd] at h
          cases h
          refine ⟨[], d, .single hread, by simp, by simp, by simp, fun e' he' => ?_,
            fun e' he' _ hne => ?_⟩
          · simp only [Option.some.injEq] at he'
            split_ifs at he' with heof
            · exact .inr ⟨by rw [hd, heof.2], he'.symm⟩
            · exact .inl (by rw [hd, he'])
          · obtain rfl : e = e' := Option.some.inj (hd.symm.trans he')
            simp [hne]

end Filling

/-! ## Reading to the end -/

/-- `io.MultiReader` of some bytes and a reader: the bytes left in front, or `none` when both are at
their end. -/
def multiReader [DecidableEq ε] (eof : ε) (r : Reader σ ε) : Reader (Option (List UInt8) × σ) ε
  | _, (none, s) => some (⟨[], some eof⟩, (none, s))
  | len, (some [], s) =>
    (r len s).map fun x => (x.1, (if x.1.err = some eof then none else some [], x.2))
  | len, (some (b :: left), s) =>
    some (⟨(b :: left).take len, none⟩, (some ((b :: left).drop len), s))

/-- A consumer that reads up to the first error, with a buffer of `sizes k + 1` bytes in its read
`k`. It can also fail by itself: after `k` reads, with the error `own k`. -/
def readAll [DecidableEq ε] (eof : ε) (r : Reader σ ε) (sizes : ℕ → ℕ) (own : ℕ → Option ε) :
    ℕ → ℕ → List UInt8 → σ → Option (Except ε (List UInt8) × σ)
  | 0, _, _, _ => none
  | fuel + 1, k, got, s =>
    match own k with
    | some e => some (.error e, s)
    | none =>
      match r (sizes k + 1) s with
      | none => none
      | some (c, s') =>
        match c.err with
        | none => readAll eof r sizes own fuel (k + 1) (got ++ c.bytes) s'
        | some e =>
          if e = eof then
            match own (k + 1) with
            | some e => some (.error e, s')
            | none => some (.ok (got ++ c.bytes), s')
          else some (.error e, s')

section Reading

variable [DecidableEq ε] {eof : ε} {sizes : ℕ → ℕ} {own : ℕ → Option ε}

variable {r : Reader σ ε} {s s' : σ} {left' : Option (List UInt8)} {fuel k : ℕ}
  {left got : List UInt8}

/-- **What a consumer of some bytes and a reader reads.** When it gets to the end, the reader's
results are without an error up to a last one with `eof`, and it has all their bytes; when it fails,
the error is its own or a result's. -/
theorem readAll_multi {res : Except ε (List UInt8)}
    (h : readAll eof (multiReader eof r) sizes own fuel k got (some left, s) = some (res, (left', s'))) :
    ∃ cs, Run (Reads r) s cs s' ∧
      (∀ bytes, res = .ok bytes → ∃ ds d, cs = ds ++ [d] ∧ (∀ x ∈ ds, x.err = none) ∧
        d.err = some eof ∧ bytes = got ++ left ++ delivered cs) ∧
      ∀ e, res = .error e → (∃ i, own i = some e) ∨ ∃ d ∈ cs, d.err = some e := by
  induction fuel generalizing k got left s with
  | zero => cases h
  | succ fuel ih =>
    rw [readAll] at h
    cases hown : own k with
    | some e =>
      simp only [hown] at h
      cases h
      exact ⟨[], .nil _, by simp, fun e' he' => .inl ⟨k, by rw [hown, Except.error.inj he']⟩⟩
    | none =>
      simp only [hown] at h
      cases left with
      | cons b left =>
        -- the bytes in front
        simp only [multiReader] at h
        obtain ⟨cs, hrun, hok, herr⟩ := ih h
        refine ⟨cs, hrun, fun bytes hb => ?_, herr⟩
        obtain ⟨ds, d, hcs, hds, hd, hbytes⟩ := hok bytes hb
        refine ⟨ds, d, hcs, hds, hd, ?_⟩
        rw [hbytes, append_assoc got, take_append_drop]
      | nil =>
        simp only [multiReader] at h
        cases hr : r (sizes k + 1) s with
        | none => simp [hr] at h
        | some x =>
          obtain ⟨c, s₁⟩ := x
          have hread : Reads r s c s₁ := ⟨_, hr⟩
          simp only [hr, Option.map_some] at h
          cases hc : c.err with
          | none =>
            simp only [hc, reduceCtorEq, if_false] at h
            obtain ⟨cs, hrun, hok, herr⟩ := ih h
            refine ⟨c :: cs, .cons hread hrun, fun bytes hb => ?_, fun e he => ?_⟩
            · obtain ⟨ds, d, rfl, hds, hd, hbytes⟩ := hok bytes hb
              refine ⟨c :: ds, d, rfl, by simpa [hc] using hds, hd, ?_⟩
              simpa using hbytes
            · rcases herr e he with hown | ⟨d, hd, hde⟩
              · exact .inl hown
              · exact .inr ⟨d, mem_cons_of_mem _ hd, hde⟩
          | some e =>
            refine ⟨[c], ?_⟩
            by_cases heof : e = eof
            · subst heof
              simp only [hc, if_true] at h
              cases hown' : own (k + 1) with
              | some e' =>
                simp only [hown', Option.some.injEq, Prod.mk.injEq] at h
                obtain ⟨rfl, -, rfl⟩ := h
                exact ⟨.single hread, by simp, fun e he => .inl ⟨k + 1, by rw [hown', Except.error.inj he]⟩⟩
              | none =>
                simp only [hown', Option.some.injEq, Prod.mk.injEq] at h
                obtain ⟨rfl, -, rfl⟩ := h
                refine ⟨.single hread, fun bytes hb => ⟨[], c, rfl, by simp, hc, ?_⟩, by simp⟩
                simpa using (Except.ok.inj hb).symm
            · simp only [hc, heof, if_false, Option.some.injEq, Prod.mk.injEq] at h
              obtain ⟨rfl, -, rfl⟩ := h
              refine ⟨.single hread, by simp, fun e' he' => .inr ⟨c, by simp, ?_⟩⟩
              rw [hc, Except.error.inj he']

end Reading

end Gombit
