import Mathlib.Data.Int.Notation
import Mathlib.Data.List.Basic
import Mathlib.Tactic.SplitIfs

/-!
JSON values as `json.loads` reads them, and what `json.dumps` writes for them.

* `Str`: the strings of Python, which may have surrogates in them; `Str.text?` is the text of one
  that has none (`Str.text?_eq_some`).
* `Json`: the values; an object has its members in the order of their insertion.
* `Json.dumps`: the text, with the default separators and `ensure_ascii`.
* `JsonNumber.ofInt`: the numbers that are an `int`.
* `JsonMembers.get?`, `JsonMembers.set`: `dict.get` and the assignment to a key.
* `Json.dumps_oneLine`: **the text has no newline**, so that it can be a line of a file.
-/

namespace OrderCqrs

/-! ### Values -/

/-- A code point, as a string of Python has them. -/
abbrev CodePoint := Fin 0x110000

/-- Python's `str`. -/
abbrev Str := List CodePoint

/-- A text without surrogates. -/
def Str.ofString (s : String) : Str := s.toList.map fun c => Fin.ofNat 0x110000 c.toNat

/-- UTF-8 encodes the string: it has no surrogates. -/
def Str.Encodable (s : Str) : Prop := ∀ c ∈ s, ¬ (0xd800 ≤ c.val ∧ c.val ≤ 0xdfff)

instance (s : Str) : Decidable s.Encodable := List.decidableBAll _ s

/-- The text of a string that has no surrogates. -/
def Str.text? (s : Str) : Option String :=
  if s.Encodable then some (.ofList (s.map fun c => Char.ofNat c.val)) else none

/-- The characters of the numbers that `json.dumps` writes, `NaN` and `Infinity` among them. -/
def numberChars : List Char := "0123456789+-.eNaInfity".toList

/-- A number, as `json.dumps` writes it. -/
structure JsonNumber where
  text : String
  chars : text.toList.all numberChars.contains
  deriving DecidableEq

mutual

/-- A JSON value. -/
inductive Json where
  | null
  | bool (b : Bool)
  | number (n : JsonNumber)
  | string (s : Str)
  | array (items : JsonItems)
  | object (members : JsonMembers)
  deriving DecidableEq

/-- The items of an array. -/
inductive JsonItems where
  | nil
  | cons (head : Json) (tail : JsonItems)
  deriving DecidableEq

/-- The members of an object. -/
inductive JsonMembers where
  | nil
  | cons (key : Str) (value : Json) (tail : JsonMembers)
  deriving DecidableEq

end

/-- `dict.get`. -/
def JsonMembers.get? (key : Str) : JsonMembers → Option Json
  | .nil => none
  | .cons k value tail => if k = key then some value else tail.get? key

/-- The assignment to a key, which keeps its place if it is there already. -/
def JsonMembers.set (key : Str) (value : Json) : JsonMembers → JsonMembers
  | .nil => .cons key value .nil
  | .cons k v tail => if k = key then .cons k value tail else .cons k v (tail.set key value)

/-- After an assignment the key has the new value, and every other key the old one. -/
lemma JsonMembers.get?_set (key k : Str) (value : Json) : (members : JsonMembers) →
    (members.set key value).get? k = if k = key then some value else members.get? k
  | .nil => by simp only [set, get?, eq_comm]
  | .cons k' v tail => by
      rw [set]
      split_ifs with hkey hk hk
      · rw [get?, if_pos (hkey.trans hk.symm)]
      · rw [get?, get?, if_neg fun h => hk (h.symm.trans hkey),
          if_neg fun h => hk (h.symm.trans hkey)]
      · rw [get?, if_neg fun h => hkey (h.trans hk), get?_set, if_pos hk]
      · rw [get?, get?, get?_set, if_neg hk]

/-! ### Strings -/

/-- The code point of a character. -/
lemma codePoint_val (c : Char) : (Fin.ofNat 0x110000 c.toNat).val = c.toNat := by
  have hvalid : c.toNat.isValidChar := c.valid
  exact Nat.mod_eq_of_lt (by omega)

/-- The character of a code point that is no surrogate. -/
lemma toNat_ofNat_val {c : CodePoint} (hc : ¬ (0xd800 ≤ c.val ∧ c.val ≤ 0xdfff)) :
    (Char.ofNat c.val).toNat = c.val := by
  have hvalid : c.val.isValidChar := by
    have hlt := c.isLt
    omega
  rw [Char.ofNat, dif_pos hvalid]
  rfl

/-- **The strings with a text** are the texts. -/
lemma Str.text?_eq_some {s : Str} {text : String} : s.text? = some text ↔ s = .ofString text := by
  constructor
  · intro h
    rw [Str.text?] at h
    split_ifs at h with hs
    rw [← Option.some.inj h, Str.ofString, String.toList_ofList, List.map_map]
    refine (List.map_id s).symm.trans (List.map_congr_left fun c hc => ?_)
    refine Fin.ext ?_
    rw [Function.comp_apply, codePoint_val, toNat_ofNat_val (hs c hc), id_eq]
  · rintro rfl
    have hencodable : (Str.ofString text).Encodable := by
      intro cp hcp
      obtain ⟨c, _, rfl⟩ := List.mem_map.mp hcp
      have hvalid : c.toNat.isValidChar := c.valid
      rw [codePoint_val]
      omega
    rw [Str.text?, if_pos hencodable, Str.ofString, List.map_map]
    refine congrArg some (String.toList_inj.mp ?_)
    rw [String.toList_ofList]
    refine (List.map_congr_left fun c _ => ?_).trans (List.map_id text.toList)
    rw [Function.comp_apply, codePoint_val, Char.ofNat_toNat, id_eq]

/-! ### Numbers -/

lemma repr_chars (n : ℕ) : n.repr.toList.all numberChars.contains = true := by
  refine List.all_eq_true.mpr fun c hc => ?_
  rw [Nat.repr, String.toList_ofList] at hc
  have hdigit := Nat.isDigit_of_mem_toDigits (by decide) (by decide) hc
  have hall : ∀ k < 58, 48 ≤ k → numberChars.contains (Char.ofNat k) = true := by decide
  simp only [Char.isDigit, Bool.and_eq_true, decide_eq_true_eq] at hdigit
  rw [← Char.ofNat_toNat c]
  exact hall c.toNat (Nat.lt_succ_of_le hdigit.2) hdigit.1

/-- An `int`. -/
def JsonNumber.ofInt (i : ℤ) : JsonNumber where
  text := i.repr
  chars := by
    cases i with
    | ofNat n => exact repr_chars n
    | negSucc n =>
        have hminus : '-' ∈ numberChars := by decide
        simpa [Int.repr, hminus] using repr_chars (n + 1)

/-! ### Texts -/

/-- Four hexadecimal digits. -/
def hex4 (n : ℕ) : String :=
  .ofList [(n / 4096 % 16).digitChar, (n / 256 % 16).digitChar, (n / 16 % 16).digitChar,
    (n % 16).digitChar]

/-- A code point within quotes: printable ASCII as it is, the rest escaped, what does not fit into
four digits as two surrogates. -/
def escape (c : CodePoint) : String :=
  if c.val = 0x22 then "\\\"" else if c.val = 0x5c then "\\\\"
  else if c.val = 0x0a then "\\n" else if c.val = 0x0d then "\\r"
  else if c.val = 0x09 then "\\t" else if c.val = 0x0c then "\\f"
  else if c.val = 0x08 then "\\b"
  else if 0x20 ≤ c.val ∧ c.val ≤ 0x7e then .ofList [Char.ofNat c.val]
  else if c.val < 0x10000 then "\\u" ++ hex4 c.val
  else "\\u" ++ hex4 (0xd800 + (c.val - 0x10000) / 1024 % 1024) ++
    "\\u" ++ hex4 (0xdc00 + (c.val - 0x10000) % 1024)

/-- A quoted string. -/
def quote (s : Str) : String := "\"" ++ "".intercalate (s.map escape) ++ "\""

mutual

/-- `json.dumps`. -/
def Json.dumps : Json → String
  | .null => "null"
  | .bool b => if b then "true" else "false"
  | .number n => n.text
  | .string s => quote s
  | .array items => "[" ++ ", ".intercalate items.dumps ++ "]"
  | .object members => "\x7b" ++ ", ".intercalate members.dumps ++ "\x7d"

/-- The texts of the items. -/
def JsonItems.dumps : JsonItems → List String
  | .nil => []
  | .cons head tail => head.dumps :: tail.dumps

/-- The texts of the members. -/
def JsonMembers.dumps : JsonMembers → List String
  | .nil => []
  | .cons key value tail => (quote key ++ ": " ++ value.dumps) :: tail.dumps

end

example : (Json.object (.cons (.ofString "order") (.array (.cons (.string [0xe9, 0x1f600]) (.cons
    (.bool true) .nil))) .nil)).dumps = "\x7b\"order\": [\"\\u00e9\\ud83d\\ude00\", true]\x7d" := by
  decide +kernel

/-! ### One line -/

/-- The text has no newline. -/
def OneLine (s : String) : Prop := '\n' ∉ s.toList

instance (s : String) : Decidable (OneLine s) := inferInstanceAs (Decidable (_ ∉ _))

lemma OneLine.append {s t : String} (hs : OneLine s) (ht : OneLine t) : OneLine (s ++ t) := by
  rw [OneLine, String.toList_append, List.mem_append]
  exact not_or.mpr ⟨hs, ht⟩

lemma OneLine.intercalate {sep : String} {parts : List String} (hsep : OneLine sep)
    (hparts : ∀ s ∈ parts, OneLine s) : OneLine (sep.intercalate parts) := by
  induction parts with
  | nil => rw [OneLine, String.toList_intercalate]; simp
  | cons s parts ih =>
      have hs := hparts s List.mem_cons_self
      have htail := ih fun t ht => hparts t (List.mem_cons_of_mem _ ht)
      cases parts with
      | nil => simpa [OneLine, String.toList_intercalate] using hs
      | cons t parts =>
          have heq : sep.intercalate (s :: t :: parts) =
              s ++ sep ++ sep.intercalate (t :: parts) := by
            apply String.toList_inj.mp
            simp [String.toList_intercalate]
          rw [heq]
          exact (hs.append hsep).append htail

lemma hex4_oneLine (n : ℕ) : OneLine (hex4 n) := by
  have hdigit : ∀ d < 16, d.digitChar ≠ '\n' := by decide
  have hne : ∀ k : ℕ, (k % 16).digitChar ≠ '\n' := fun k => hdigit _ (Nat.mod_lt _ (by decide))
  simp only [OneLine, hex4, String.toList_ofList, List.mem_cons, List.not_mem_nil, or_false]
  push Not
  exact ⟨(hne _).symm, (hne _).symm, (hne _).symm, (hne _).symm⟩

lemma escape_oneLine (c : CodePoint) : OneLine (escape c) := by
  have hu : OneLine "\\u" := by decide
  unfold escape
  split_ifs with _ _ _ _ _ _ _ hascii
  · decide
  · decide
  · decide
  · decide
  · decide
  · decide
  · decide
  · intro hin
    rw [String.toList_ofList, List.mem_singleton] at hin
    have hall : ∀ n < 0x7f, 0x20 ≤ n → Char.ofNat n ≠ '\n' := by decide
    exact hall c.val (by omega) hascii.1 hin.symm
  · exact hu.append (hex4_oneLine _)
  · exact ((hu.append (hex4_oneLine _)).append hu).append (hex4_oneLine _)

lemma quote_oneLine (s : Str) : OneLine (quote s) := by
  have hquote : OneLine "\"" := by decide
  refine (hquote.append (OneLine.intercalate (by decide) fun t ht => ?_)).append hquote
  obtain ⟨c, _, rfl⟩ := List.mem_map.mp ht
  exact escape_oneLine c

mutual

/-- **What `json.dumps` writes has no newline.** -/
theorem Json.dumps_oneLine : (j : Json) → OneLine j.dumps
  | .null => by
      rw [Json.dumps]
      decide
  | .bool b => by
      rw [Json.dumps]
      cases b <;> decide
  | .number n => by
      rw [Json.dumps]
      intro hin
      have hnot : ¬ numberChars.contains '\n' := by decide
      exact hnot (List.all_eq_true.mp n.chars _ hin)
  | .string s => by
      rw [Json.dumps]
      exact quote_oneLine s
  | .array items => by
      rw [Json.dumps]
      have hopen : OneLine "[" := by decide
      exact (hopen.append (.intercalate (by decide) items.dumps_oneLine)).append (by decide)
  | .object members => by
      rw [Json.dumps]
      have hopen : OneLine "\x7b" := by decide
      exact (hopen.append (.intercalate (by decide) members.dumps_oneLine)).append (by decide)

lemma JsonItems.dumps_oneLine : (items : JsonItems) → ∀ s ∈ items.dumps, OneLine s
  | .nil => by simp [JsonItems.dumps]
  | .cons head tail => by
      intro s hs
      rw [JsonItems.dumps] at hs
      rcases List.mem_cons.mp hs with rfl | hs
      · exact head.dumps_oneLine
      · exact tail.dumps_oneLine s hs

lemma JsonMembers.dumps_oneLine : (members : JsonMembers) → ∀ s ∈ members.dumps, OneLine s
  | .nil => by simp [JsonMembers.dumps]
  | .cons key value tail => by
      intro s hs
      rw [JsonMembers.dumps] at hs
      rcases List.mem_cons.mp hs with rfl | hs
      · exact ((quote_oneLine key).append (by decide)).append value.dumps_oneLine
      · exact tail.dumps_oneLine s hs

end

end OrderCqrs
