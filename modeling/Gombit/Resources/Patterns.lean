import Gombit.Resources.Names

/-!
# Patterns that Go and the form share

`jsUnicodePattern` accepts the regular expressions that RE2 and JavaScript's unicode mode read alike:
escapes, classes, quantifiers and groups are taken from the pattern one after another. Each is given
what follows its first character and says what is left of it.
-/

namespace Gombit.Resources

open List

/-- The characters of an ASCII literal. -/
def chars (s : String) : List ℕ := s.toList.map Char.toNat

def isDigitRune (r : ℕ) : Bool := 48 ≤ r && r ≤ 57

/-- `isHex`. -/
def isHex (r : ℕ) : Bool := isDigitRune r || (97 ≤ r && r ≤ 102) || (65 ≤ r && r ≤ 70)

/-- `acceptEscape`: what follows an escape, given what follows its backslash. -/
def acceptEscape (inClass : Bool) : List ℕ → Option (List ℕ)
  | [] => none
  | c :: rest =>
    if c ∈ chars "dDwWnrtfv" then some rest
    else if c = 48 then if rest.head?.any isDigitRune then none else some rest
    else if c = 120 then
      if (rest.take 2).length = 2 ∧ (rest.take 2).all isHex then some (rest.drop 2) else none
    else if c ∈ chars "^$\\.*+?()[]\x7b\x7d|" then some rest
    else if c = 45 then if inClass then some rest else none
    else none

/-- `classMember`: whether the member of a class is one character, and what follows it. -/
def classMember : List ℕ → Option (Bool × List ℕ)
  | [] => none
  | c :: rest =>
    if c ≠ 92 then some (true, rest)
    else (acceptEscape true rest).map fun after => (!rest.head?.any (· ∈ chars "dDwW"), after)

/-- The members of a class up to the bracket that closes it, after `skip` characters that were read.
`prev` is whether the member before is one character. -/
def classLoop : ℕ → Bool → Option Bool → List ℕ → Option (List ℕ)
  | _, _, _, [] => none
  | skip + 1, atFirst, prev, _ :: rest => classLoop skip atFirst prev rest
  | 0, atFirst, prev, c :: rest =>
    if c = 93 then if atFirst then none else some rest
    else if c = 45 ∧ prev.isSome ∧ rest.head?.any (· ≠ 93) then
      if prev = some true then
        (classMember rest).bind fun m =>
          if m.1 then classLoop (rest.length - m.2.length) false (some true) rest else none
      else none
    else if c = 91 ∧ rest.head? = some 58 then none
    else
      (classMember (c :: rest)).bind fun m =>
        classLoop (rest.length - m.2.length) false (some m.1) rest

/-- `acceptClass`: what follows a class, given what follows its opening bracket. -/
def acceptClass (r : List ℕ) : Option (List ℕ) :=
  if r.head? = some 58 then none
  else
    classLoop 0 true none (if r.head? = some 94 then r.tail else r)

/-- `readCount`: what follows the bound of a quantifier. -/
def readCount (r : List ℕ) : Option (List ℕ) :=
  if r.head? = some 48 ∧ r.tail.head?.any isDigitRune then none else some (r.dropWhile isDigitRune)

/-- `acceptQuantifier`: what follows a quantifier, given what follows its opening brace. -/
def acceptQuantifier (r : List ℕ) : Option (List ℕ) :=
  if ¬ r.head?.any isDigitRune then none
  else
    (readCount r).bind fun j =>
      (if j.head? = some 44 then readCount j.tail else some j).bind fun j =>
        if j.head? ≠ some 125 then none
        else if j.tail.head? = some 43 then none
        else if j.tail.head? = some 63 then some j.tail.tail
        else some j.tail

/-- `acceptGroup`: what follows the opening of a group, given what follows its parenthesis. -/
def acceptGroup (r : List ℕ) : Option (List ℕ) :=
  if r.head? = some 63 then if r.tail.head? = some 58 then some r.tail.tail else none else some r

/-- One step of `jsUnicodePattern` at the character `c`: the stack and what follows. The stack says of
each open group whether what comes last in it can have a quantifier. -/
def patternStep (top : Bool) (outer : List Bool) (c : ℕ) (rest : List ℕ) :
    Option (List Bool × List ℕ) :=
  if c = 92 then (acceptEscape false rest).map fun r => (true :: outer, r)
  else if c = 91 then (acceptClass rest).map fun r => (true :: outer, r)
  else if c = 123 then
    if top then (acceptQuantifier rest).map fun r => (false :: outer, r) else none
  else if c ∈ chars "*+?" then
    if top then some (false :: outer, if rest.head? = some 63 then rest.tail else rest) else none
  else if c = 125 ∨ c = 93 then none
  else if c = 40 then (acceptGroup rest).map fun r => (false :: top :: outer, r)
  else if c = 41 then
    match outer with
    | [] => none
    | _ :: outer => some (true :: outer, rest)
  else if c ∈ chars "^$|" then some (false :: outer, rest)
  else some (true :: outer, rest)

/-- The loop of `jsUnicodePattern`, after `skip` characters that were read. -/
def patternLoop : ℕ → List Bool → List ℕ → Bool
  | _, stack, [] => stack.length = 1
  | skip + 1, stack, _ :: rest => patternLoop skip stack rest
  | 0, [], _ :: _ => false
  | 0, top :: outer, c :: rest =>
    match patternStep top outer c rest with
    | none => false
    | some (stack, after) => patternLoop (rest.length - after.length) stack rest

/-- `jsUnicodePattern`. -/
def jsUnicodePattern (pattern : Bytes) : Bool := patternLoop 0 [false] (codes pattern)

end Gombit.Resources
