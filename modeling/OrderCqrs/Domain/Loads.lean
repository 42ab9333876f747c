import Mathlib.Algebra.Ring.Nat
import OrderCqrs.Domain.Json

/-!
The reading of JSON texts, as `json.loads` does it.

* `scanString`, `scanEscape`: a string, from behind its opening quote.
* `scanNumber`: a number; `float` is what Python makes of one with a fraction or an exponent.
* `scanOnce`, `scanItems`, `scanMembers`: a value, and what follows a bracket and a brace.  Their
  fuel bounds the depth of the recursion.
* `Json.loads`: the value of a whole text.
-/

namespace OrderCqrs

/-! ### Strings -/

/-- `WHITESPACE`. -/
def isSpace (c : CodePoint) : Bool := c.val ∈ [0x20, 0x09, 0x0a, 0x0d]

/-- Whitespace is skipped. -/
def skipSpace (s : Str) : Str := s.dropWhile isSpace

/-- The value of a hexadecimal digit. -/
def hexDigit? (c : CodePoint) : Option ℕ :=
  if 0x30 ≤ c.val ∧ c.val ≤ 0x39 then some (c.val - 0x30)
  else if 0x61 ≤ c.val ∧ c.val ≤ 0x66 then some (c.val - 0x57)
  else if 0x41 ≤ c.val ∧ c.val ≤ 0x46 then some (c.val - 0x37)
  else none

/-- `_decode_uXXXX`: four hexadecimal digits. -/
def scanHex : Str → Option (ℕ × Str)
  | a :: b :: c :: d :: s => do
      let a ← hexDigit? a
      let b ← hexDigit? b
      let c ← hexDigit? c
      let d ← hexDigit? d
      return (((a * 16 + b) * 16 + c) * 16 + d, s)
  | _ => none

/-- Numerals stand for code points. -/
local instance instNeZeroCodePoints : NeZero 0x110000 := ⟨by decide⟩

/-- `BACKSLASH`: what a short escape stands for. -/
def backslash? (c : CodePoint) : Option CodePoint :=
  if c.val = 0x22 ∨ c.val = 0x5c ∨ c.val = 0x2f then some c
  else if c.val = 0x62 then some 0x08
  else if c.val = 0x66 then some 0x0c
  else if c.val = 0x6e then some 0x0a
  else if c.val = 0x72 then some 0x0d
  else if c.val = 0x74 then some 0x09
  else none

/-- The first half of a surrogate pair. -/
def IsHigh (n : ℕ) : Prop := 0xd800 ≤ n ∧ n ≤ 0xdbff

/-- The second half of a surrogate pair. -/
def IsLow (n : ℕ) : Prop := 0xdc00 ≤ n ∧ n ≤ 0xdfff

instance : DecidablePred IsHigh := fun _ => inferInstanceAs (Decidable (_ ∧ _))

instance : DecidablePred IsLow := fun _ => inferInstanceAs (Decidable (_ ∧ _))

/-- The code point of a surrogate pair. -/
def joined (high low : ℕ) : CodePoint :=
  Fin.ofNat 0x110000 (0x10000 + (high - 0xd800) * 0x400 + (low - 0xdc00))

/-- The second half of a pair, as an escape of its own. -/
def scanLow : Str → Option (ℕ × Str)
  | b :: u :: s => if b.val = 0x5c ∧ u.val = 0x75 then scanHex s else none
  | _ => none

/-- An escape, from behind its backslash. -/
def scanEscape : Str → Option (CodePoint × Str)
  | [] => none
  | c :: s =>
      if c.val = 0x75 then do
        let (n, s) ← scanHex s
        match scanLow s with
        | some (low, s') =>
            if IsHigh n ∧ IsLow low then return (joined n low, s')
            else return (Fin.ofNat 0x110000 n, s)
        | none => return (Fin.ofNat 0x110000 n, s)
      else do
        let e ← backslash? c
        return (e, s)

/-- `scanstring`: a string, from behind its opening quote.  Control characters are refused. -/
def scanString : ℕ → Str → Option (Str × Str)
  | 0, _ => none
  | _ + 1, [] => none
  | n + 1, c :: s =>
      if c.val = 0x22 then some ([], s)
      else if c.val = 0x5c then do
        let (e, s) ← scanEscape s
        let (text, s) ← scanString n s
        return (e :: text, s)
      else if c.val < 0x20 then none
      else do
        let (text, s) ← scanString n s
        return (c :: text, s)

/-! ### Numbers -/

/-- An ASCII digit. -/
def isDigit (c : CodePoint) : Bool := 0x30 ≤ c.val && c.val ≤ 0x39

/-- The sign of a number. -/
def scanSign : Str → Str × Str
  | [] => ([], [])
  | c :: s => if c.val = 0x2d then ([c], s) else ([], c :: s)

/-- The digits before the point: a zero, or digits that do not begin with one. -/
def scanDigits : Str → Option (Str × Str)
  | [] => none
  | c :: s =>
      if c.val = 0x30 then some ([c], s)
      else if isDigit c then some (c :: s.takeWhile isDigit, s.dropWhile isDigit)
      else none

/-- The fraction, if there is one. -/
def scanFraction : Str → Str × Str
  | [] => ([], [])
  | c :: s =>
      if c.val = 0x2e ∧ s.takeWhile isDigit ≠ [] then
        (c :: s.takeWhile isDigit, s.dropWhile isDigit)
      else ([], c :: s)

/-- The sign of an exponent. -/
def scanExponentSign : Str → Str × Str
  | [] => ([], [])
  | c :: s => if c.val = 0x2b ∨ c.val = 0x2d then ([c], s) else ([], c :: s)

/-- The exponent, if there is one. -/
def scanExponent : Str → Str × Str
  | [] => ([], [])
  | c :: s =>
      let (sign, t) := scanExponentSign s
      if (c.val = 0x65 ∨ c.val = 0x45) ∧ t.takeWhile isDigit ≠ [] then
        (c :: sign ++ t.takeWhile isDigit, t.dropWhile isDigit)
      else ([], c :: s)

/-- The value of digits. -/
def digitsValue (ds : Str) : ℕ := ds.foldl (fun n c => 10 * n + (c.val - 0x30)) 0

/-- `int`. -/
def intValue (sign ds : Str) : ℤ := if sign = [] then digitsValue ds else -digitsValue ds

/-- `NUMBER_RE`, with `parse_int` and `parse_float`. -/
def scanNumber (float : Str → JsonNumber) (s : Str) : Option (JsonNumber × Str) := do
  let (sign, s) := scanSign s
  let (ds, s) ← scanDigits s
  let (fraction, s) := scanFraction s
  let (exponent, s) := scanExponent s
  if fraction = [] ∧ exponent = [] then return (.ofInt (intValue sign ds), s)
  else return (float (sign ++ ds ++ fraction ++ exponent), s)

/-- A literal at the beginning of a text. -/
def afterPrefix? (literal : String) (s : Str) : Option Str :=
  if Str.ofString literal <+: s then some (s.drop (Str.ofString literal).length) else none

/-- `parse_constant`: the numbers that JSON does not have. -/
def JsonNumber.nan : JsonNumber := ⟨"NaN", by decide⟩

@[inherit_doc JsonNumber.nan]
def JsonNumber.infinity : JsonNumber := ⟨"Infinity", by decide⟩

@[inherit_doc JsonNumber.nan]
def JsonNumber.negInfinity : JsonNumber := ⟨"-Infinity", by decide⟩

/-- What begins with no quote, bracket or brace. -/
def scanScalar (float : Str → JsonNumber) (s : Str) : Option (Json × Str) :=
  ((afterPrefix? "null" s).map fun s => (.null, s)) <|>
  ((afterPrefix? "true" s).map fun s => (.bool true, s)) <|>
  ((afterPrefix? "false" s).map fun s => (.bool false, s)) <|>
  ((scanNumber float s).map fun (n, s) => (.number n, s)) <|>
  ((afterPrefix? "NaN" s).map fun s => (.number .nan, s)) <|>
  ((afterPrefix? "Infinity" s).map fun s => (.number .infinity, s)) <|>
  ((afterPrefix? "-Infinity" s).map fun s => (.number .negInfinity, s))

/-! ### Values -/

/-- `dict(pairs)`: a key has its last value, at its first place. -/
def JsonMembers.ofPairs (pairs : List (Str × Json)) : JsonMembers :=
  pairs.foldl (fun members (k, v) => members.set k v) .nil

mutual

/-- `scan_once`. -/
def scanOnce (float : Str → JsonNumber) : ℕ → Str → Option (Json × Str)
  | 0, _ => none
  | _ + 1, [] => none
  | n + 1, c :: s =>
      if c.val = 0x22 then (scanString (s.length + 1) s).map fun (text, s) => (.string text, s)
      else if c.val = 0x7b then
        match skipSpace s with
        | [] => none
        | d :: s' =>
            if d.val = 0x7d then some (.object .nil, s')
            else (scanMembers float n (d :: s')).map fun (pairs, s) => (.object (.ofPairs pairs), s)
      else if c.val = 0x5b then
        match skipSpace s with
        | [] => none
        | d :: s' =>
            if d.val = 0x5d then some (.array .nil, s')
            else (scanItems float n (d :: s')).map fun (items, s) => (.array items, s)
      else scanScalar float (c :: s)

/-- `JSONArray`, from the first item on. -/
def scanItems (float : Str → JsonNumber) : ℕ → Str → Option (JsonItems × Str)
  | 0, _ => none
  | n + 1, s => do
      let (value, s) ← scanOnce float n s
      match skipSpace s with
      | [] => none
      | c :: s =>
          if c.val = 0x5d then return (.cons value .nil, s)
          else if c.val = 0x2c then do
            let (items, s) ← scanItems float n (skipSpace s)
            return (.cons value items, s)
          else none

/-- `JSONObject`, from the first key on. -/
def scanMembers (float : Str → JsonNumber) : ℕ → Str → Option (List (Str × Json) × Str)
  | 0, _ => none
  | _ + 1, [] => none
  | n + 1, q :: s =>
      if q.val ≠ 0x22 then none
      else do
        let (key, s) ← scanString (s.length + 1) s
        match skipSpace s with
        | [] => none
        | colon :: s =>
            if colon.val ≠ 0x3a then none
            else do
              let (value, s) ← scanOnce float n (skipSpace s)
              match skipSpace s with
              | [] => none
              | c :: s =>
                  if c.val = 0x7d then return ([(key, value)], s)
                  else if c.val = 0x2c then do
                    let (pairs, s) ← scanMembers float n (skipSpace s)
                    return ((key, value) :: pairs, s)
                  else none

end

/-- `json.loads`.  Nothing but whitespace may surround the value. -/
def Json.loads (float : Str → JsonNumber) (s : Str) : Option Json := do
  let (j, rest) ← scanOnce float (2 * (skipSpace s).length + 1) (skipSpace s)
  if skipSpace rest = [] then some j else none

end OrderCqrs
