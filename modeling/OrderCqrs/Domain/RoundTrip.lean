import Mathlib.Data.List.TakeWhile
import OrderCqrs.Domain.Loads
import OrderCqrs.Logic.Decimal

/-!
What `json.loads` makes of the texts that `json.dumps` writes.

* `Written`, `joinPairs`: how a code point is written, and what becomes of a string on its way
  through a text: a high surrogate and a low one after it become one code point
  (`scanString_escaped`).
* `JsonNumber.Readable`: the numbers that are read back; `JsonNumber.readable_ofInt`: the integers
  are among them.
* `Json.Regular`: the values that come back.  `loads_dumps`: **what is written is read back**.
* `ScansRegular`, `regular_of_loads`: **what is read is regular**, so that it comes back when it is
  written and read again.
-/

namespace OrderCqrs

/-! ### Texts as code points -/

namespace Str

lemma ofString_append (s t : String) : ofString (s ++ t) = ofString s ++ ofString t := by
  rw [ofString, String.toList_append, List.map_append]
  rfl

lemma ofString_ofList (cs : List Char) :
    ofString (.ofList cs) = cs.map fun c => Fin.ofNat 0x110000 c.toNat := by
  rw [ofString, String.toList_ofList]

lemma ofString_intercalate_singleton (sep a : String) :
    ofString (sep.intercalate [a]) = ofString a := by
  rw [ofString, String.toList_intercalate, List.map_singleton, List.intercalate_singleton]
  rfl

lemma ofString_intercalate_cons (sep a b : String) (parts : List String) :
    ofString (sep.intercalate (a :: b :: parts)) =
      ofString a ++ (ofString sep ++ ofString (sep.intercalate (b :: parts))) := by
  rw [ofString, String.toList_intercalate, List.map_cons, List.map_cons,
    List.intercalate_cons_cons, ← List.map_cons, ← String.toList_intercalate, List.map_append,
    List.map_append, List.append_assoc]
  rfl

end Str

/-- The body of a quoted string. -/
def escaped (s : Str) : Str := s.flatMap fun c => Str.ofString (escape c)

lemma escaped_cons (c : CodePoint) (s : Str) :
    escaped (c :: s) = Str.ofString (escape c) ++ escaped s :=
  List.flatMap_cons

/-- A quoted string is its body between quotes. -/
lemma ofString_quote (s : Str) : Str.ofString (quote s) = 0x22 :: (escaped s ++ [0x22]) := by
  have hbody : Str.ofString ("".intercalate (s.map escape)) = escaped s := by
    induction s with
    | nil => rfl
    | cons c s ih =>
        cases s with
        | nil => rw [List.map_singleton, Str.ofString_intercalate_singleton, escaped_cons, escaped,
            List.flatMap_nil, List.append_nil]
        | cons d s =>
            rw [List.map_cons, List.map_cons, Str.ofString_intercalate_cons, ← List.map_cons, ih,
              escaped_cons]
            rfl
  rw [quote, Str.ofString_append, Str.ofString_append, hbody]
  rfl

/-! ### Strings come back, but for their surrogate pairs -/

/-- A high surrogate and a low one after it are read as the code point they stand for. -/
def joinPairs : Str → Str
  | [] => []
  | [c] => [c]
  | c :: d :: s =>
      if IsHigh c.val ∧ IsLow d.val then joined c.val d.val :: joinPairs s
      else c :: joinPairs (d :: s)

lemma hexDigit?_digitChar {d : ℕ} (hd : d < 16) :
    hexDigit? (Fin.ofNat 0x110000 d.digitChar.toNat) = some d := by
  have hall : ∀ d < 16, hexDigit? (Fin.ofNat 0x110000 (Nat.digitChar d).toNat) = some d := by
    decide
  exact hall d hd

/-- Four digits are read back. -/
lemma scanHex_hex4 {n : ℕ} (hn : n < 0x10000) (t : Str) :
    scanHex (Str.ofString (hex4 n) ++ t) = some (n, t) := by
  have hmod : ∀ k : ℕ, k % 16 < 16 := fun k => Nat.mod_lt k (by decide)
  rw [hex4, Str.ofString_ofList]
  simp only [List.map_cons, List.map_nil, List.cons_append, List.nil_append, scanHex,
    hexDigit?_digitChar (hmod _), Option.bind_eq_bind, Option.bind_some, Option.pure_def,
    Option.some.injEq, Prod.mk.injEq, and_true]
  omega

/-- An escape of four digits, and what may be joined to it. -/
lemma scanEscape_hex4 {n : ℕ} (hn : n < 0x10000) (t : Str) :
    scanEscape (0x75 :: (Str.ofString (hex4 n) ++ t)) =
      match scanLow t with
      | some (low, t') =>
          if IsHigh n ∧ IsLow low then some (joined n low, t') else some (Fin.ofNat 0x110000 n, t)
      | none => some (Fin.ofNat 0x110000 n, t) := by
  rw [scanEscape, if_pos (by decide), scanHex_hex4 hn]
  rfl

/-- **The ways a code point is written.** -/
inductive Written (c : CodePoint) : Str → Prop where
  | plain : 0x20 ≤ c.val → c.val ≠ 0x22 → c.val ≠ 0x5c → Written c [c]
  | short {b : CodePoint} : backslash? b = some c → b.val ≠ 0x75 → Written c [0x5c, b]
  | hex : c.val < 0x10000 → Written c (0x5c :: 0x75 :: Str.ofString (hex4 c.val))
  | pair {high low : ℕ} : IsHigh high → IsLow low → joined high low = c →
      Written c (0x5c :: 0x75 :: (Str.ofString (hex4 high) ++
        0x5c :: 0x75 :: Str.ofString (hex4 low)))

lemma written_escape (c : CodePoint) : Written c (Str.ofString (escape c)) := by
  have hu : Str.ofString "\\u" = [0x5c, 0x75] := by decide
  have hshort : ∀ {n : ℕ} (b : CodePoint) (text : String), c.val = n →
      (backslash? b).map Fin.val = some n → b.val ≠ 0x75 → Str.ofString text = [0x5c, b] →
      Written c (Str.ofString text) := by
    intro n b text hc hb hu htext
    obtain ⟨c', hc', rfl⟩ := Option.map_eq_some_iff.mp hb
    rw [htext]
    exact .short (hc'.trans (congrArg some (Fin.ext hc.symm))) hu
  unfold escape
  split_ifs with h1 h2 h3 h4 h5 h6 h7 hascii hbmp
  · exact hshort 0x22 _ h1 (by decide) (by decide) (by decide)
  · exact hshort 0x5c _ h2 (by decide) (by decide) (by decide)
  · exact hshort 0x6e _ h3 (by decide) (by decide) (by decide)
  · exact hshort 0x72 _ h4 (by decide) (by decide) (by decide)
  · exact hshort 0x74 _ h5 (by decide) (by decide) (by decide)
  · exact hshort 0x66 _ h6 (by decide) (by decide) (by decide)
  · exact hshort 0x62 _ h7 (by decide) (by decide) (by decide)
  · have htext : Str.ofString (.ofList [Char.ofNat c.val]) = [c] := by
      rw [Str.ofString_ofList, List.map_singleton, toNat_ofNat_val (by omega)]
      exact congrArg (fun k => [k]) (Fin.ext (Nat.mod_eq_of_lt c.isLt))
    rw [htext]
    exact .plain hascii.1 h1 h2
  · rw [Str.ofString_append, hu, List.cons_append, List.singleton_append]
    exact .hex hbmp
  · have hlt := c.isLt
    generalize hhigh : 0xd800 + (c.val - 0x10000) / 1024 % 1024 = high
    generalize hlow : 0xdc00 + (c.val - 0x10000) % 1024 = low
    rw [Str.ofString_append, Str.ofString_append, Str.ofString_append, hu, List.append_assoc,
      List.append_assoc, List.cons_append, List.singleton_append, List.cons_append,
      List.singleton_append]
    refine .pair ⟨?_, ?_⟩ ⟨?_, ?_⟩ (Fin.ext ?_)
    · omega
    · omega
    · omega
    · omega
    · rw [joined, Fin.val_ofNat]
      omega

/-- Where a low surrogate is read, one was written. -/
lemma scanLow_written {d : CodePoint} {text t t' : Str} {low : ℕ} (hd : Written d text)
    (h : scanLow (text ++ t) = some (low, t')) (hlow : IsLow low) : low = d.val ∧ t' = t := by
  cases hd with
  | plain _ _ hne =>
      rw [List.singleton_append] at h
      cases t with
      | nil => simp [scanLow] at h
      | cons u t => simp [scanLow, hne] at h
  | short _ hu =>
      rw [List.cons_append, List.singleton_append, scanLow, if_neg fun h => hu h.2] at h
      simp at h
  | hex hbmp =>
      rw [List.cons_append, List.cons_append, scanLow, if_pos (by decide), scanHex_hex4 hbmp,
        Option.some.injEq, Prod.mk.injEq] at h
      exact ⟨h.1.symm, h.2.symm⟩
  | @pair high low' hhigh _ _ =>
      have hlt : high < 0x10000 := by
        rw [IsHigh] at hhigh
        omega
      rw [List.cons_append, List.cons_append, List.append_assoc, scanLow, if_pos (by decide),
        scanHex_hex4 hlt, Option.some.injEq, Prod.mk.injEq] at h
      rw [IsHigh] at hhigh
      rw [← h.1, IsLow] at hlow
      omega

/-- A string goes on behind a code point that was written, unless it is joined to what follows. -/
lemma scanString_written {c : CodePoint} {text : Str} (hc : Written c text) {t : Str} (n : ℕ)
    (hpair : ∀ low t', scanLow t = some (low, t') → ¬ (IsHigh c.val ∧ IsLow low)) :
    scanString (n + 1) (text ++ t) = (scanString n t).map fun (s, rest) => (c :: s, rest) := by
  have hmap : ∀ e : CodePoint, (do let (s, rest) ← scanString n t; return (e :: s, rest)) =
      (scanString n t).map fun (s, rest) => (e :: s, rest) := fun _ => Option.map_eq_bind.symm
  have hofNat : Fin.ofNat 0x110000 c.val = c := Fin.ext (Nat.mod_eq_of_lt c.isLt)
  cases hc with
  | plain hlow hquote hback =>
      rw [List.singleton_append, scanString, if_neg hquote, if_neg hback, if_neg (by omega)]
      exact hmap c
  | @short b hb hu =>
      have hescape : scanEscape (b :: t) = some (c, t) := by
        rw [scanEscape, if_neg hu, hb]
        rfl
      rw [List.cons_append, List.singleton_append, scanString, if_neg (by decide),
        if_pos (by decide), hescape]
      exact hmap c
  | hex hbmp =>
      have hescape : scanEscape (0x75 :: (Str.ofString (hex4 c.val) ++ t)) = some (c, t) := by
        rw [scanEscape_hex4 hbmp, hofNat]
        cases hl : scanLow t with
        | none => rfl
        | some p => exact if_neg (hpair p.1 p.2 hl)
      rw [List.cons_append, List.cons_append, scanString, if_neg (by decide), if_pos (by decide),
        hescape]
      exact hmap c
  | @pair high low hhigh hlow hjoin =>
      have hlt : high < 0x10000 ∧ low < 0x10000 := by
        rw [IsHigh] at hhigh
        rw [IsLow] at hlow
        omega
      have hescape : scanEscape (0x75 :: (Str.ofString (hex4 high) ++
          0x5c :: 0x75 :: (Str.ofString (hex4 low) ++ t))) = some (c, t) := by
        rw [scanEscape_hex4 hlt.1, scanLow, if_pos (by decide), scanHex_hex4 hlt.2]
        exact (if_pos ⟨hhigh, hlow⟩).trans (by rw [hjoin])
      rw [List.cons_append, List.cons_append, List.append_assoc, List.cons_append,
        List.cons_append, scanString, if_neg (by decide), if_pos (by decide), hescape]
      exact hmap c

lemma scanLow_quote (t : Str) : scanLow (0x22 :: t) = none := by
  cases t with
  | nil => rfl
  | cons u t =>
      rw [scanLow, if_neg]
      rintro ⟨h, _⟩
      revert h
      decide

/-- Two surrogates that were written apart are read as one code point. -/
lemma scanString_pair {c d : CodePoint} (hc : IsHigh c.val) (hd : IsLow d.val) (n : ℕ) (t : Str) :
    scanString (n + 1) (Str.ofString (escape c) ++ (Str.ofString (escape d) ++ t)) =
      (scanString n t).map fun (s, rest) => (joined c.val d.val :: s, rest) := by
  have hu : Str.ofString "\\u" = [0x5c, 0x75] := by decide
  have hhex : ∀ {k : CodePoint}, 0xd800 ≤ k.val → k.val ≤ 0xdfff →
      Str.ofString (escape k) = 0x5c :: 0x75 :: Str.ofString (hex4 k.val) := by
    intro k hlow hhigh
    unfold escape
    split_ifs <;> first | omega | rw [Str.ofString_append, hu, List.cons_append,
      List.singleton_append]
  rw [IsHigh] at hc
  rw [IsLow] at hd
  have hescape : scanEscape (0x75 :: (Str.ofString (hex4 c.val) ++
      0x5c :: 0x75 :: (Str.ofString (hex4 d.val) ++ t))) = some (joined c.val d.val, t) := by
    rw [scanEscape_hex4 (by omega), scanLow, if_pos (by decide), scanHex_hex4 (by omega)]
    exact if_pos ⟨hc, hd⟩
  rw [hhex (by omega) (by omega), hhex (by omega) (by omega), List.cons_append, List.cons_append,
    List.cons_append, List.cons_append, scanString, if_neg (by decide), if_pos (by decide), hescape]
  exact Option.map_eq_bind.symm

/-- **What a written string is read as.** -/
theorem scanString_escaped (s t : Str) {n : ℕ} (hn : s.length < n) :
    scanString n (escaped s ++ 0x22 :: t) = some (joinPairs s, t) := by
  obtain ⟨n, rfl⟩ := Nat.exists_eq_succ_of_ne_zero (Nat.ne_zero_of_lt hn)
  have hend : ∀ m, scanString (m + 1) (0x22 :: t) = some ([], t) := fun m => if_pos (by decide)
  induction s using joinPairs.induct generalizing n with
  | case1 => exact hend n
  | case2 c =>
      obtain ⟨n, rfl⟩ := Nat.exists_eq_succ_of_ne_zero (n := n) (by simp at hn; omega)
      rw [escaped_cons, escaped, List.flatMap_nil, List.append_nil,
        scanString_written (written_escape c) _ fun low t' h => by
          rw [scanLow_quote] at h
          simp at h,
        hend]
      rfl
  | case3 c d s hpair ih =>
      obtain ⟨n, rfl⟩ := Nat.exists_eq_succ_of_ne_zero (n := n) (by simp at hn; omega)
      rw [escaped_cons, escaped_cons, List.append_assoc, List.append_assoc,
        scanString_pair hpair.1 hpair.2, ih n (by simp at hn; omega), joinPairs, if_pos hpair]
      rfl
  | case4 c d s hpair ih =>
      obtain ⟨n, rfl⟩ := Nat.exists_eq_succ_of_ne_zero (n := n) (by simp at hn; omega)
      rw [escaped_cons, List.append_assoc, scanString_written (written_escape c) _ ?_,
        ih n (by simp at hn ⊢; omega), joinPairs, if_neg hpair]
      · rfl
      · intro low t' h hboth
        rw [escaped_cons, List.append_assoc] at h
        obtain ⟨rfl, _⟩ := scanLow_written (written_escape d) h hboth.2
        exact hpair hboth

lemma length_le_escaped (s : Str) : s.length ≤ (escaped s).length := by
  induction s with
  | nil => exact Nat.le_refl _
  | cons c s ih =>
      have hpos : 0 < (Str.ofString (escape c)).length := by
        have hne : Str.ofString (escape c) ≠ [] := by
          intro hnil
          have hw := written_escape c
          rw [hnil] at hw
          cases hw
        exact List.length_pos_iff.mpr hne
      rw [escaped_cons, List.length_append, List.length_cons]
      omega

/-! ### Numbers in a text -/

/-- What may follow a value: its end, whitespace, a comma, or a bracket or brace that closes. -/
def Stops (t : Str) : Prop :=
  ∀ c ∈ t.head?, c.val ∈ [0x20, 0x09, 0x0a, 0x0d, 0x2c, 0x5d, 0x7d]

lemma Stops.not_number {t : Str} (h : Stops t) {c : CodePoint} (hc : c ∈ t.head?) :
    isDigit c = false ∧ c.val ≠ 0x2e ∧ c.val ≠ 0x65 ∧ c.val ≠ 0x45 ∧ c.val ≠ 0x2b ∧
      c.val ≠ 0x2d := by
  have hmem := h c hc
  simp only [List.mem_cons, List.not_mem_nil, or_false] at hmem
  simp only [isDigit, Bool.and_eq_false_iff, decide_eq_false_iff_not]
  omega

/-- Digits end where a value may end. -/
lemma Stops.digits {t : Str} (h : Stops t) (s : Str) :
    (s ++ t).takeWhile isDigit = s.takeWhile isDigit ∧
      (s ++ t).dropWhile isDigit = s.dropWhile isDigit ++ t := by
  induction s with
  | nil =>
      cases t with
      | nil => exact ⟨rfl, rfl⟩
      | cons c t =>
          have hc := (h.not_number (c := c) rfl).1
          simp [hc]
  | cons c s ih =>
      cases hc : isDigit c <;> simp [hc, ih]

lemma scanSign_append {s : Str} (hs : s ≠ []) (t : Str) :
    scanSign (s ++ t) = ((scanSign s).1, (scanSign s).2 ++ t) := by
  cases s with
  | nil => exact absurd rfl hs
  | cons c s =>
      rw [List.cons_append, scanSign, scanSign]
      split_ifs <;> rfl

lemma scanDigits_append {s t : Str} (ht : Stops t) {ds r : Str}
    (h : scanDigits s = some (ds, r)) : scanDigits (s ++ t) = some (ds, r ++ t) := by
  cases s with
  | nil => simp [scanDigits] at h
  | cons c s =>
      rw [scanDigits] at h
      rw [List.cons_append, scanDigits, (ht.digits s).1, (ht.digits s).2]
      split_ifs at h ⊢ with hzero hdigit
      · obtain ⟨rfl, rfl⟩ := Prod.mk.inj (Option.some.inj h)
        rfl
      · obtain ⟨rfl, rfl⟩ := Prod.mk.inj (Option.some.inj h)
        rfl

lemma scanFraction_append {t : Str} (ht : Stops t) (s : Str) :
    scanFraction (s ++ t) = ((scanFraction s).1, (scanFraction s).2 ++ t) := by
  cases s with
  | nil =>
      cases t with
      | nil => rfl
      | cons c t => exact if_neg fun h => (ht.not_number (c := c) rfl).2.1 h.1
  | cons c s =>
      rw [List.cons_append, scanFraction, scanFraction, (ht.digits s).1, (ht.digits s).2]
      split_ifs <;> rfl

lemma scanExponentSign_append {t : Str} (ht : Stops t) (s : Str) :
    scanExponentSign (s ++ t) = ((scanExponentSign s).1, (scanExponentSign s).2 ++ t) := by
  cases s with
  | nil =>
      cases t with
      | nil => rfl
      | cons c t =>
          have hc := ht.not_number (c := c) rfl
          exact if_neg fun h => h.elim hc.2.2.2.2.1 hc.2.2.2.2.2
  | cons c s =>
      rw [List.cons_append, scanExponentSign, scanExponentSign]
      split_ifs <;> rfl

lemma scanExponent_append {t : Str} (ht : Stops t) (s : Str) :
    scanExponent (s ++ t) = ((scanExponent s).1, (scanExponent s).2 ++ t) := by
  cases s with
  | nil =>
      cases t with
      | nil => rfl
      | cons c t =>
          have hc := ht.not_number (c := c) rfl
          exact if_neg fun h => h.1.elim hc.2.2.1 hc.2.2.2.1
  | cons c s =>
      rw [List.cons_append, scanExponent, scanExponent, scanExponentSign_append ht]
      dsimp only
      rw [(ht.digits _).1, (ht.digits _).2]
      split_ifs <;> rfl

/-- **A number ends where a value may end.** -/
lemma scanNumber_append {float : Str → JsonNumber} {s t : Str} (ht : Stops t) {n : JsonNumber}
    {r : Str} (h : scanNumber float s = some (n, r)) :
    scanNumber float (s ++ t) = some (n, r ++ t) := by
  have hs : s ≠ [] := by
    rintro rfl
    simp [scanNumber, scanSign, scanDigits] at h
  rw [scanNumber] at h
  rw [scanNumber, scanSign_append hs]
  obtain ⟨⟨ds, r₁⟩, hds, h⟩ := Option.bind_eq_some_iff.mp h
  refine Option.bind_eq_some_iff.mpr ⟨(ds, r₁ ++ t), scanDigits_append ht hds, ?_⟩
  dsimp only at h ⊢
  rw [scanFraction_append ht]
  dsimp only
  rw [scanExponent_append ht]
  dsimp only
  split_ifs at h ⊢
  · obtain ⟨rfl, rfl⟩ := Prod.mk.inj (Option.some.inj h)
    rfl
  · obtain ⟨rfl, rfl⟩ := Prod.mk.inj (Option.some.inj h)
    rfl

/-- A number begins with a digit or a minus sign. -/
lemma scanNumber_head {float : Str → JsonNumber} {c : CodePoint} {s : Str}
    (hdigit : isDigit c = false) (hminus : c.val ≠ 0x2d) : scanNumber float (c :: s) = none := by
  have hzero : c.val ≠ 0x30 := by
    intro h
    simp [isDigit, h] at hdigit
  simp [scanNumber, scanSign, scanDigits, hminus, hzero, hdigit]

/-- **The numbers that are read back from their texts.** -/
def JsonNumber.Readable (float : Str → JsonNumber) (n : JsonNumber) : Prop :=
  n = .nan ∨ n = .infinity ∨ n = .negInfinity ∨
    scanNumber float (Str.ofString n.text) = some (n, [])

lemma afterPrefix?_append (literal : String) (t : Str) :
    afterPrefix? literal (Str.ofString literal ++ t) = some t := by
  rw [afterPrefix?, if_pos (List.prefix_append _ _), List.drop_left]

/-- A literal is not where another character begins. -/
lemma afterPrefix?_eq_none {literal : String} {c : CodePoint} {s : Str}
    (h : (Str.ofString literal).head? ≠ some c) (hne : Str.ofString literal ≠ []) :
    afterPrefix? literal (c :: s) = none := by
  rw [afterPrefix?, if_neg]
  rintro ⟨t, ht⟩
  cases hl : Str.ofString literal with
  | nil => exact hne hl
  | cons d ds =>
      rw [hl, List.cons_append] at ht
      rw [hl, List.head?_cons, (List.cons.inj ht).1] at h
      exact h rfl

/-- Where no literal begins, a number is read, if one is there. -/
lemma scanScalar_of_scanNumber {float : Str → JsonNumber} {c : CodePoint} {s : Str}
    {n : JsonNumber} {r : Str} (h : scanNumber float (c :: s) = some (n, r)) :
    scanScalar float (c :: s) = some (.number n, r) := by
  have hc : isDigit c = true ∨ c.val = 0x2d := by
    by_contra hnot
    push Not at hnot
    rw [scanNumber_head (Bool.eq_false_iff.mpr hnot.1) hnot.2] at h
    simp at h
  have hlit : ∀ literal ∈ ["null", "true", "false"], afterPrefix? literal (c :: s) = none := by
    intro literal hmem
    have hheads : ∀ l ∈ ["null", "true", "false"], Str.ofString l ≠ [] ∧
        (Str.ofString l).head?.all (fun d => !isDigit d && d.val != 0x2d) = true := by
      decide
    refine afterPrefix?_eq_none (fun hhead => ?_) (hheads literal hmem).1
    have hd := (hheads literal hmem).2
    rw [hhead] at hd
    rcases hc with hc | hc <;> simp [hc] at hd
  rw [scanScalar, hlit "null" (by simp), hlit "true" (by simp), hlit "false" (by simp), h]
  rfl

/-- A number is read where a value may end behind it. -/
lemma scanScalar_number {float : Str → JsonNumber} {n : JsonNumber} (hn : n.Readable float)
    {t : Str} (ht : Stops t) :
    scanScalar float (Str.ofString n.text ++ t) = some (.number n, t) := by
  rcases hn with rfl | rfl | rfl | hn
  · have hpre := afterPrefix?_append "NaN" t
    have htext : Str.ofString "NaN" = [0x4e, 0x61, 0x4e] := by decide
    show scanScalar float (Str.ofString "NaN" ++ t) = _
    rw [htext, List.cons_append] at hpre ⊢
    rw [scanScalar, scanNumber_head (by decide) (by decide), hpre,
      afterPrefix?_eq_none (by decide) (by decide), afterPrefix?_eq_none (by decide) (by decide),
      afterPrefix?_eq_none (by decide) (by decide)]
    rfl
  · have hpre := afterPrefix?_append "Infinity" t
    have htext : Str.ofString "Infinity" = [0x49, 0x6e, 0x66, 0x69, 0x6e, 0x69, 0x74, 0x79] := by
      decide
    show scanScalar float (Str.ofString "Infinity" ++ t) = _
    rw [htext, List.cons_append] at hpre ⊢
    rw [scanScalar, scanNumber_head (by decide) (by decide), hpre,
      afterPrefix?_eq_none (by decide) (by decide), afterPrefix?_eq_none (by decide) (by decide),
      afterPrefix?_eq_none (by decide) (by decide), afterPrefix?_eq_none (by decide) (by decide)]
    rfl
  · have hpre := afterPrefix?_append "-Infinity" t
    have htext : Str.ofString "-Infinity" =
        [0x2d, 0x49, 0x6e, 0x66, 0x69, 0x6e, 0x69, 0x74, 0x79] := by
      decide
    have hnum : ∀ s, scanNumber float (0x2d :: 0x49 :: s) = none := fun s => rfl
    show scanScalar float (Str.ofString "-Infinity" ++ t) = _
    rw [htext, List.cons_append] at hpre ⊢
    rw [scanScalar, List.cons_append, hnum, ← List.cons_append, hpre,
      afterPrefix?_eq_none (by decide) (by decide), afterPrefix?_eq_none (by decide) (by decide),
      afterPrefix?_eq_none (by decide) (by decide), afterPrefix?_eq_none (by decide) (by decide),
      afterPrefix?_eq_none (by decide) (by decide)]
    rfl
  · have happ := scanNumber_append ht hn
    rw [List.nil_append] at happ
    cases hs : Str.ofString n.text with
    | nil =>
        rw [hs] at hn
        simp [scanNumber, scanSign, scanDigits] at hn
    | cons c s =>
        rw [hs, List.cons_append] at happ
        exact scanScalar_of_scanNumber happ

/-! ### Values come back -/

mutual

/-- **The values that come back from their texts**: numbers that are read back, strings without
surrogates that would be joined, objects whose keys are distinct. -/
def Json.Regular (float : Str → JsonNumber) : Json → Prop
  | .null | .bool _ => True
  | .number n => n.Readable float
  | .string s => joinPairs s = s
  | .array items => items.Regular float
  | .object members => members.Regular float

@[inherit_doc Json.Regular]
def JsonItems.Regular (float : Str → JsonNumber) : JsonItems → Prop
  | .nil => True
  | .cons head tail => head.Regular float ∧ tail.Regular float

@[inherit_doc Json.Regular]
def JsonMembers.Regular (float : Str → JsonNumber) : JsonMembers → Prop
  | .nil => True
  | .cons key value tail =>
      joinPairs key = key ∧ tail.get? key = none ∧ value.Regular float ∧ tail.Regular float

end

namespace JsonMembers

/-- The members one after the other. -/
def pairs : JsonMembers → List (Str × Json)
  | .nil => []
  | .cons key value tail => (key, value) :: tail.pairs

/-- The members of two objects. -/
def append : JsonMembers → JsonMembers → JsonMembers
  | .nil, ms => ms
  | .cons key value tail, ms => .cons key value (tail.append ms)

lemma append_nil (ms : JsonMembers) : ms.append .nil = ms := by
  induction ms using pairs.induct with
  | case1 => rfl
  | case2 key value tail ih => rw [append, ih]

lemma append_assoc : (ms ms' ms'' : JsonMembers) →
    (ms.append ms').append ms'' = ms.append (ms'.append ms'')
  | .nil, _, _ => rfl
  | .cons key value tail, ms', ms'' => by rw [append, append, append, append_assoc tail]

/-- A new key is added at the end. -/
lemma set_of_get?_eq_none {key : Str} {value : Json} : {ms : JsonMembers} →
    ms.get? key = none → ms.set key value = ms.append (.cons key value .nil)
  | .nil, _ => rfl
  | .cons k v tail, h => by
      rw [get?] at h
      split_ifs at h with hk
      rw [set, if_neg hk, append, set_of_get?_eq_none h]

/-- Distinct keys keep their members. -/
lemma foldl_set {float : Str → JsonNumber} : {ms acc : JsonMembers} → ms.Regular float →
    (∀ k v, (k, v) ∈ ms.pairs → acc.get? k = none) →
    ms.pairs.foldl (fun members (k, v) => members.set k v) acc = acc.append ms
  | .nil, acc, _, _ => (append_nil acc).symm
  | .cons key value tail, acc, hms, hacc => by
      obtain ⟨_, hkey, _, htail⟩ := hms
      have hnew : acc.get? key = none := hacc key value List.mem_cons_self
      have hne : ∀ k v, (k, v) ∈ tail.pairs → key ≠ k := by
        rintro k v hkv rfl
        have hfound : ∀ {ms : JsonMembers}, (key, v) ∈ ms.pairs → ms.get? key ≠ none := by
          intro ms
          induction ms using pairs.induct with
          | case1 => simp [pairs]
          | case2 k' v' tail' ih =>
              intro hmem
              rw [get?]
              split_ifs with hk
              · simp
              · refine ih ?_
                rcases List.mem_cons.mp hmem with heq | hmem
                · exact absurd (Prod.mk.inj heq).1.symm hk
                · exact hmem
        exact hfound hkv hkey
      have hacc' : ∀ k v, (k, v) ∈ tail.pairs → (acc.set key value).get? k = none := by
        intro k v hkv
        rw [get?_set, if_neg fun h => hne k v hkv h.symm]
        exact hacc k v (List.mem_cons_of_mem _ hkv)
      calc (pairs (.cons key value tail)).foldl (fun members (k, v) => members.set k v) acc
          = (acc.set key value).append tail := foldl_set htail hacc'
        _ = acc.append (.cons key value tail) := by
          rw [set_of_get?_eq_none hnew, append_assoc]
          rfl

/-- **The pairs of an object make it up again.** -/
lemma ofPairs_pairs {float : Str → JsonNumber} {ms : JsonMembers} (h : ms.Regular float) :
    ofPairs ms.pairs = ms :=
  foldl_set h fun _ _ _ => rfl

end JsonMembers

/-- The text of a number begins with no space, quote, bracket or brace. -/
lemma JsonNumber.text_head {float : Str → JsonNumber} {n : JsonNumber} (h : n.Readable float) :
    ∃ c s, Str.ofString n.text = c :: s ∧ isSpace c = false ∧
      c.val ∉ [0x22, 0x5b, 0x5d, 0x7b] := by
  cases hs : n.text.toList with
  | nil =>
      rcases h with rfl | rfl | rfl | h
      · exact absurd hs (by decide)
      · exact absurd hs (by decide)
      · exact absurd hs (by decide)
      · rw [Str.ofString, hs] at h
        simp [scanNumber, scanSign, scanDigits] at h
  | cons c cs =>
      have hall : numberChars.all (fun c => !isSpace (Fin.ofNat 0x110000 c.toNat) &&
          !decide ((Fin.ofNat 0x110000 c.toNat).val ∈ [0x22, 0x5b, 0x5d, 0x7b])) = true := by
        decide
      have hc : c ∈ numberChars := by
        have hchars := n.chars
        rw [hs, List.all_cons, Bool.and_eq_true] at hchars
        exact List.contains_iff_mem.mp hchars.1
      have hok := List.all_eq_true.mp hall c hc
      rw [Bool.and_eq_true, Bool.not_eq_true', Bool.not_eq_true', decide_eq_false_iff_not] at hok
      exact ⟨_, _, by rw [Str.ofString, hs, List.map_cons], hok.1, hok.2⟩

/-- The text of a value begins with no space and no closing bracket. -/
lemma Json.dumps_head {float : Str → JsonNumber} : {j : Json} → j.Regular float →
    ∃ c s, Str.ofString j.dumps = c :: s ∧ isSpace c = false ∧ c.val ≠ 0x5d
  | .null, _ => ⟨0x6e, [0x75, 0x6c, 0x6c], by rw [dumps]; decide, by decide, by decide⟩
  | .bool true, _ => ⟨0x74, [0x72, 0x75, 0x65], by rw [dumps]; decide, by decide, by decide⟩
  | .bool false, _ =>
      ⟨0x66, [0x61, 0x6c, 0x73, 0x65], by rw [dumps]; decide, by decide, by decide⟩
  | .number n, h => by
      obtain ⟨c, s, hs, hspace, hne⟩ := JsonNumber.text_head h
      rw [dumps]
      exact ⟨c, s, hs, hspace, fun hc => hne (by simp [hc])⟩
  | .string s, _ => ⟨0x22, escaped s ++ [0x22], by rw [dumps, ofString_quote], by decide, by decide⟩
  | .array items, _ => by
      have hopen : Str.ofString "[" = [0x5b] := by decide
      rw [dumps, Str.ofString_append, Str.ofString_append, hopen, List.append_assoc,
        List.singleton_append]
      exact ⟨_, _, rfl, by decide, by decide⟩
  | .object members, _ => by
      have hopen : Str.ofString "\x7b" = [0x7b] := by decide
      rw [dumps, Str.ofString_append, Str.ofString_append, hopen, List.append_assoc,
        List.singleton_append]
      exact ⟨_, _, rfl, by decide, by decide⟩

lemma skipSpace_of_head {c : CodePoint} {s : Str} (hc : isSpace c = false) :
    skipSpace (c :: s) = c :: s :=
  List.dropWhile_cons_of_neg (by simp [hc])

/-- What begins with no quote, brace or bracket is a scalar. -/
lemma scanOnce_scalar {float : Str → JsonNumber} {n : ℕ} {c : CodePoint} {s : Str}
    (h : c.val ≠ 0x22 ∧ c.val ≠ 0x7b ∧ c.val ≠ 0x5b) :
    scanOnce float (n + 1) (c :: s) = scanScalar float (c :: s) := by
  rw [scanOnce, if_neg h.1, if_neg h.2.1, if_neg h.2.2]

/-- A quoted string is scanned with the fuel it gets. -/
lemma scanString_quoted (s t : Str) :
    scanString ((escaped s ++ 0x22 :: t).length + 1) (escaped s ++ 0x22 :: t) =
      some (joinPairs s, t) := by
  have hle := length_le_escaped s
  refine scanString_escaped s t ?_
  rw [List.length_append]
  omega

lemma ofString_quote_append (s t : Str) :
    Str.ofString (quote s) ++ t = 0x22 :: (escaped s ++ 0x22 :: t) := by
  rw [ofString_quote, List.cons_append, List.append_assoc, List.singleton_append]

/-- An array with items: behind the bracket they are read. -/
lemma scanOnce_array {float : Str → JsonNumber} {n : ℕ} {c : CodePoint} {s : Str}
    (hspace : isSpace c = false) (hclose : c.val ≠ 0x5d) :
    scanOnce float (n + 1) (0x5b :: c :: s) =
      (scanItems float n (c :: s)).map fun (items, s) => (.array items, s) := by
  rw [scanOnce, if_neg (by decide), if_neg (by decide), if_pos (by decide),
    skipSpace_of_head hspace]
  exact if_neg hclose

/-- An object with members: behind the brace they are read. -/
lemma scanOnce_object {float : Str → JsonNumber} {n : ℕ} {s : Str} :
    scanOnce float (n + 1) (0x7b :: 0x22 :: s) =
      (scanMembers float n (0x22 :: s)).map fun (pairs, s) => (.object (.ofPairs pairs), s) := by
  rw [scanOnce, if_neg (by decide), if_pos (by decide), skipSpace_of_head (by decide)]
  exact if_neg (by decide)

/-- An item and what comes after it. -/
lemma scanItems_step {float : Str → JsonNumber} {n : ℕ} {s : Str} {value : Json} {c : CodePoint}
    {t : Str} (hvalue : scanOnce float n s = some (value, c :: t)) (hspace : isSpace c = false) :
    scanItems float (n + 1) s =
      if c.val = 0x5d then some (.cons value .nil, t)
      else if c.val = 0x2c then
        (scanItems float n (skipSpace t)).map fun (items, s) => (.cons value items, s)
      else none := by
  rw [scanItems, hvalue, Option.bind_eq_bind, Option.bind_some]
  dsimp only
  rw [skipSpace_of_head hspace]
  dsimp only
  rw [Option.map_eq_bind]
  rfl

/-- A member and what comes after it. -/
lemma scanMembers_step {float : Str → JsonNumber} {n : ℕ} {key s : Str}
    (hkey : joinPairs key = key) (hs : skipSpace (0x20 :: s) = s) {value : Json} {c : CodePoint}
    {t : Str} (hvalue : scanOnce float n s = some (value, c :: t)) (hspace : isSpace c = false) :
    scanMembers float (n + 1) (Str.ofString (quote key) ++ 0x3a :: 0x20 :: s) =
      if c.val = 0x7d then some ([(key, value)], t)
      else if c.val = 0x2c then
        (scanMembers float n (skipSpace t)).map fun (pairs, s) => ((key, value) :: pairs, s)
      else none := by
  rw [ofString_quote_append, scanMembers, if_neg (by decide), scanString_quoted, hkey,
    Option.bind_eq_bind, Option.bind_some]
  dsimp only
  rw [skipSpace_of_head (by decide)]
  dsimp only
  rw [if_neg (by decide), hs, hvalue, Option.bind_eq_bind, Option.bind_some]
  dsimp only
  rw [skipSpace_of_head hspace]
  dsimp only
  rw [Option.map_eq_bind]
  rfl

lemma skipSpace_space {c : CodePoint} {s : Str} (hc : isSpace c = false) :
    skipSpace (0x20 :: c :: s) = c :: s :=
  skipSpace_of_head hc

/-- The texts of items begin with that of the first. -/
lemma JsonItems.dumps_head {float : Str → JsonNumber} {head : Json} (h : head.Regular float)
    (tail : JsonItems) : ∃ c s, Str.ofString (", ".intercalate (JsonItems.cons head tail).dumps) =
      c :: s ∧ isSpace c = false ∧ c.val ≠ 0x5d := by
  obtain ⟨c, s, hs, hspace, hclose⟩ := Json.dumps_head h
  cases tail with
  | nil =>
      rw [JsonItems.dumps, JsonItems.dumps, Str.ofString_intercalate_singleton]
      exact ⟨c, s, hs, hspace, hclose⟩
  | cons next tail =>
      rw [JsonItems.dumps, JsonItems.dumps, Str.ofString_intercalate_cons, hs, List.cons_append]
      exact ⟨c, _, rfl, hspace, hclose⟩

/-- The texts of members begin with a quote. -/
lemma JsonMembers.dumps_head (key : Str) (value : Json) (tail : JsonMembers) :
    ∃ s, Str.ofString (", ".intercalate (JsonMembers.cons key value tail).dumps) = 0x22 :: s := by
  cases tail with
  | nil =>
      rw [JsonMembers.dumps, JsonMembers.dumps, Str.ofString_intercalate_singleton,
        Str.ofString_append, Str.ofString_append, List.append_assoc, ofString_quote,
        List.cons_append]
      exact ⟨_, rfl⟩
  | cons k v tail =>
      rw [JsonMembers.dumps, JsonMembers.dumps, Str.ofString_intercalate_cons,
        Str.ofString_append, Str.ofString_append, List.append_assoc, List.append_assoc,
        ofString_quote, List.cons_append]
      exact ⟨_, rfl⟩

lemma ofString_comma : Str.ofString ", " = [0x2c, 0x20] := by decide

lemma ofString_colon : Str.ofString ": " = [0x3a, 0x20] := by decide

lemma Stops.of_mem {c : CodePoint} (hc : c.val ∈ [0x20, 0x09, 0x0a, 0x0d, 0x2c, 0x5d, 0x7d])
    (t : Str) : Stops (c :: t) := by
  intro d hd
  rw [List.head?_cons, Option.mem_some_iff] at hd
  exact hd ▸ hc

mutual

/-- A regular value is read back from its text, with enough fuel and where a value may end. -/
lemma scanOnce_dumps {float : Str → JsonNumber} : (j : Json) → j.Regular float → ∀ n t,
    2 * (Str.ofString j.dumps ++ t).length < n → Stops t →
    scanOnce float n (Str.ofString j.dumps ++ t) = some (j, t)
  | .null, _, n + 1, t, _, _ => by
      have htext : Str.ofString "null" = [0x6e, 0x75, 0x6c, 0x6c] := by decide
      have hpre := afterPrefix?_append "null" t
      rw [Json.dumps]
      rw [htext, List.cons_append] at hpre ⊢
      rw [scanOnce_scalar (by decide), scanScalar, hpre]
      rfl
  | .bool true, _, n + 1, t, _, _ => by
      have htext : Str.ofString "true" = [0x74, 0x72, 0x75, 0x65] := by decide
      have hpre := afterPrefix?_append "true" t
      rw [Json.dumps, if_pos rfl]
      rw [htext, List.cons_append] at hpre ⊢
      rw [scanOnce_scalar (by decide), scanScalar, hpre,
        afterPrefix?_eq_none (by decide) (by decide)]
      rfl
  | .bool false, _, n + 1, t, _, _ => by
      have htext : Str.ofString "false" = [0x66, 0x61, 0x6c, 0x73, 0x65] := by decide
      have hpre := afterPrefix?_append "false" t
      rw [Json.dumps, if_neg (by decide)]
      rw [htext, List.cons_append] at hpre ⊢
      rw [scanOnce_scalar (by decide), scanScalar, hpre,
        afterPrefix?_eq_none (by decide) (by decide), afterPrefix?_eq_none (by decide) (by decide)]
      rfl
  | .number num, h, n + 1, t, _, ht => by
      have hscalar := scanScalar_number h ht
      obtain ⟨c, s, hs, _, hne⟩ := JsonNumber.text_head h
      have hkind : c.val ≠ 0x22 ∧ c.val ≠ 0x7b ∧ c.val ≠ 0x5b :=
        ⟨fun hc => hne (by simp [hc]), fun hc => hne (by simp [hc]), fun hc => hne (by simp [hc])⟩
      rw [Json.dumps]
      rw [hs, List.cons_append] at hscalar ⊢
      rw [scanOnce_scalar hkind, hscalar]
  | .string s, h, n + 1, t, _, _ => by
      rw [Json.dumps, ofString_quote_append, scanOnce, if_pos (by decide), scanString_quoted]
      exact congrArg (fun s => some (Json.string s, t)) h
  | .array .nil, _, n + 1, t, _, _ => by
      have htext : Str.ofString (Json.array .nil).dumps = [0x5b, 0x5d] := by
        rw [Json.dumps, JsonItems.dumps]
        decide
      rw [htext]
      rfl
  | .array (.cons head tail), h, n + 1, t, hn, _ => by
      have hopen : Str.ofString "[" = [0x5b] := by decide
      have hclose : Str.ofString "]" = [0x5d] := by decide
      have hitems := scanItems_dumps head tail h.1 h.2 n t
      obtain ⟨c, s, hs, hspace, hne⟩ := JsonItems.dumps_head h.1 tail
      rw [Json.dumps, Str.ofString_append, Str.ofString_append, hopen, hclose, List.append_assoc,
        List.append_assoc, List.singleton_append, List.singleton_append] at hn ⊢
      rw [hs, List.cons_append] at hitems hn ⊢
      rw [scanOnce_array hspace hne, hitems (by simp only [List.length_cons] at hn ⊢; omega)]
      rfl
  | .object .nil, _, n + 1, t, _, _ => by
      have htext : Str.ofString (Json.object .nil).dumps = [0x7b, 0x7d] := by
        rw [Json.dumps, JsonMembers.dumps]
        decide
      rw [htext]
      rfl
  | .object (.cons key value tail), h, n + 1, t, hn, _ => by
      have hopen : Str.ofString "\x7b" = [0x7b] := by decide
      have hclose : Str.ofString "\x7d" = [0x7d] := by decide
      have hmembers := scanMembers_dumps key value tail h n t
      obtain ⟨s, hs⟩ := JsonMembers.dumps_head key value tail
      rw [Json.dumps, Str.ofString_append, Str.ofString_append, hopen, hclose, List.append_assoc,
        List.append_assoc, List.singleton_append, List.singleton_append] at hn ⊢
      rw [hs, List.cons_append] at hmembers hn ⊢
      rw [scanOnce_object, hmembers (by simp only [List.length_cons] at hn ⊢; omega)]
      exact congrArg (fun ms => some (Json.object ms, t)) (JsonMembers.ofPairs_pairs h)

/-- The items of an array are read back. -/
lemma scanItems_dumps {float : Str → JsonNumber} : (head : Json) → (tail : JsonItems) →
    head.Regular float → tail.Regular float → ∀ n t,
    2 * (Str.ofString (", ".intercalate (JsonItems.cons head tail).dumps) ++ 0x5d :: t).length + 1 <
      n →
    scanItems float n (Str.ofString (", ".intercalate (JsonItems.cons head tail).dumps) ++
      0x5d :: t) = some (.cons head tail, t)
  | head, .nil, hhead, _, n + 1, t, hn => by
      rw [JsonItems.dumps, JsonItems.dumps, Str.ofString_intercalate_singleton] at hn ⊢
      rw [scanItems_step (scanOnce_dumps head hhead n _ (by omega) (.of_mem (by decide) t))
        (by decide)]
      exact if_pos (by decide)
  | head, .cons next tail, hhead, htail, n + 1, t, hn => by
      have hrest := scanItems_dumps next tail htail.1 htail.2 n t
      obtain ⟨c, s, hs, hspace, _⟩ := JsonItems.dumps_head htail.1 tail
      rw [JsonItems.dumps, JsonItems.dumps, Str.ofString_intercalate_cons, ofString_comma,
        ← JsonItems.dumps, List.append_assoc, List.append_assoc, List.cons_append,
        List.singleton_append] at hn ⊢
      rw [hs, List.cons_append] at hrest hn ⊢
      rw [scanItems_step (scanOnce_dumps head hhead n _ (by omega) (.of_mem (by decide) _))
        (by decide), if_neg (by decide), if_pos (by decide), skipSpace_space hspace,
        hrest (by simp only [List.length_append, List.length_cons] at hn ⊢; omega)]
      rfl

/-- The members of an object are read back. -/
lemma scanMembers_dumps {float : Str → JsonNumber} : (key : Str) → (value : Json) →
    (tail : JsonMembers) → (JsonMembers.cons key value tail).Regular float → ∀ n t,
    2 * (Str.ofString (", ".intercalate (JsonMembers.cons key value tail).dumps) ++
      0x7d :: t).length + 1 < n →
    scanMembers float n (Str.ofString (", ".intercalate (JsonMembers.cons key value tail).dumps) ++
      0x7d :: t) = some ((JsonMembers.cons key value tail).pairs, t)
  | key, value, .nil, h, n + 1, t, hn => by
      obtain ⟨hkey, _, hvalue, _⟩ := h
      obtain ⟨c, s, hs, hspace, _⟩ := Json.dumps_head hvalue
      have hskip : skipSpace (0x20 :: (Str.ofString value.dumps ++ 0x7d :: t)) =
          Str.ofString value.dumps ++ 0x7d :: t := by
        rw [hs]
        exact skipSpace_space hspace
      rw [JsonMembers.dumps, JsonMembers.dumps, Str.ofString_intercalate_singleton,
        Str.ofString_append, Str.ofString_append, ofString_colon, List.append_assoc,
        List.append_assoc, List.cons_append, List.singleton_append] at hn ⊢
      rw [scanMembers_step hkey hskip (scanOnce_dumps value hvalue n _
        (by simp only [List.length_append, List.length_cons] at hn ⊢; omega)
        (.of_mem (by decide) t)) (by decide)]
      exact if_pos (by decide)
  | key, value, .cons k v tail, h, n + 1, t, hn => by
      obtain ⟨hkey, _, hvalue, htail⟩ := h
      have hrest := scanMembers_dumps k v tail htail n t
      obtain ⟨s', hs'⟩ := JsonMembers.dumps_head k v tail
      obtain ⟨c, s, hs, hspace, _⟩ := Json.dumps_head hvalue
      have hskip : ∀ u, skipSpace (0x20 :: (Str.ofString value.dumps ++ u)) =
          Str.ofString value.dumps ++ u := by
        intro u
        rw [hs]
        exact skipSpace_space hspace
      rw [JsonMembers.dumps, JsonMembers.dumps, Str.ofString_intercalate_cons, ofString_comma,
        ← JsonMembers.dumps, Str.ofString_append, Str.ofString_append, ofString_colon,
        List.append_assoc, List.append_assoc, List.append_assoc, List.append_assoc,
        List.cons_append, List.singleton_append, List.cons_append, List.singleton_append] at hn ⊢
      rw [hs', List.cons_append] at hrest hn ⊢
      rw [scanMembers_step hkey (hskip _) (scanOnce_dumps value hvalue n _
        (by simp only [List.length_append, List.length_cons] at hn ⊢; omega)
        (.of_mem (by decide) _)) (by decide), if_neg (by decide), if_pos (by decide),
        skipSpace_space (by decide),
        hrest (by simp only [List.length_append, List.length_cons] at hn ⊢; omega)]
      rfl

end

/-- **What `json.dumps` writes of a regular value is read back by `json.loads`.** -/
theorem loads_dumps {float : Str → JsonNumber} {j : Json} (h : j.Regular float) :
    Json.loads float (.ofString j.dumps) = some j := by
  obtain ⟨c, s, hs, hspace, _⟩ := Json.dumps_head h
  have hskip : skipSpace (Str.ofString j.dumps) = Str.ofString j.dumps := by
    rw [hs]
    exact skipSpace_of_head hspace
  have hscan := scanOnce_dumps j h (2 * (Str.ofString j.dumps).length + 1) []
    (by rw [List.append_nil]; omega) (by simp [Stops])
  rw [List.append_nil] at hscan
  rw [Json.loads, hskip, hscan]
  rfl

/-! ### What is read comes back -/

/-- The code points of decimal digits. -/
lemma all_isDigit_repr (k : ℕ) : ∀ c ∈ Str.ofString k.repr, isDigit c = true := by
  intro c hc
  obtain ⟨d, hd, rfl⟩ := List.mem_map.mp hc
  rw [Nat.toList_repr] at hd
  have hdigit := Decimal.digits_toDigits k d hd
  simp only [Char.isDigit, Bool.and_eq_true, decide_eq_true_eq] at hdigit
  simp only [isDigit, codePoint_val, Bool.and_eq_true, decide_eq_true_eq]
  exact ⟨hdigit.1, hdigit.2⟩

lemma scanDigits_repr (k : ℕ) :
    scanDigits (Str.ofString k.repr) = some (Str.ofString k.repr, []) := by
  have hall := all_isDigit_repr k
  have hlist : Str.ofString k.repr =
      (Nat.toDigits 10 k).map fun c => Fin.ofNat 0x110000 c.toNat := by
    rw [Str.ofString, Nat.toList_repr]
  cases hs : Nat.toDigits 10 k with
  | nil => exact absurd hs Nat.toDigits_ne_nil
  | cons c cs =>
      rw [hs, List.map_cons] at hlist
      rw [hlist] at hall ⊢
      have htail : ∀ d ∈ cs.map fun c => Fin.ofNat 0x110000 c.toNat, isDigit d = true := fun d hd =>
        hall d (List.mem_cons_of_mem _ hd)
      rw [scanDigits, if_pos (hall _ List.mem_cons_self),
        List.takeWhile_eq_self_iff.mpr htail, List.dropWhile_eq_nil_iff.mpr htail]
      split_ifs with hzero
      · rcases eq_or_ne k 0 with rfl | hk
        · rw [Nat.toDigits_zero] at hs
          rw [← (List.cons.inj hs).2, List.map_nil]
        · refine absurd ?_ (Decimal.head?_toDigits hk)
          rw [codePoint_val] at hzero
          rw [hs, List.head?_cons, ← Char.ofNat_toNat c, hzero]
      · rfl

lemma digitsValue_repr (k : ℕ) : digitsValue (Str.ofString k.repr) = k := by
  have hval := Nat.ofDigitChars_ten_toDigits (n := k)
  rw [Nat.ofDigitChars_eq_foldl] at hval
  rw [digitsValue, Str.ofString, Nat.toList_repr, List.foldl_map]
  simp only [codePoint_val]
  exact hval

/-- **An integer is read back.** -/
lemma JsonNumber.readable_ofInt (float : Str → JsonNumber) (i : ℤ) :
    (JsonNumber.ofInt i).Readable float := by
  refine Or.inr (Or.inr (Or.inr ?_))
  have hread : ∀ (k : ℕ) (sign s : Str), scanSign s = (sign, Str.ofString k.repr) →
      scanNumber float s = some (.ofInt (intValue sign (Str.ofString k.repr)), []) := by
    intro k sign s hs
    rw [scanNumber, hs]
    dsimp only
    rw [scanDigits_repr]
    rfl
  cases i with
  | ofNat k =>
      have hsign : scanSign (Str.ofString k.repr) = ([], Str.ofString k.repr) := by
        cases hs : Str.ofString k.repr with
        | nil => rfl
        | cons c s =>
            have hc := all_isDigit_repr k c (by rw [hs]; exact List.mem_cons_self)
            rw [scanSign, if_neg]
            intro hminus
            simp [isDigit, hminus] at hc
      refine (hread k [] _ hsign).trans ?_
      rw [intValue, if_pos rfl, digitsValue_repr]
      rfl
  | negSucc k =>
      have htext : Str.ofString (JsonNumber.ofInt (.negSucc k)).text =
          0x2d :: Str.ofString (k + 1).repr := by
        have hminus : Str.ofString "-" = [0x2d] := by decide
        show Str.ofString ("-" ++ (k + 1).repr) = _
        rw [Str.ofString_append, hminus, List.singleton_append]
      have hsign : scanSign (0x2d :: Str.ofString (k + 1).repr) =
          ([0x2d], Str.ofString (k + 1).repr) := by
        rw [scanSign, if_pos (by decide)]
      rw [htext]
      refine (hread (k + 1) [0x2d] _ hsign).trans ?_
      rw [intValue, if_neg (by simp), digitsValue_repr]
      rfl

/-! Nothing is read but from the rest of the text. -/

lemma skipSpace_suffix (s : Str) : skipSpace s <:+ s := List.dropWhile_suffix _

lemma hexDigit?_lt {c : CodePoint} {n : ℕ} (h : hexDigit? c = some n) : n < 16 := by
  unfold hexDigit? at h
  split_ifs at h <;> have hn := Option.some.inj h <;> omega

lemma scanHex_lt {s t : Str} {n : ℕ} (h : scanHex s = some (n, t)) : n < 0x10000 ∧ t <:+ s := by
  match s, h with
  | a :: b :: c :: d :: s, h =>
      rw [scanHex, Option.bind_eq_bind] at h
      obtain ⟨na, ha, h⟩ := Option.bind_eq_some_iff.mp h
      obtain ⟨nb, hb, h⟩ := Option.bind_eq_some_iff.mp h
      obtain ⟨nc, hc, h⟩ := Option.bind_eq_some_iff.mp h
      obtain ⟨nd, hd, h⟩ := Option.bind_eq_some_iff.mp h
      obtain ⟨rfl, rfl⟩ := Prod.mk.inj (Option.some.inj h)
      have hla := hexDigit?_lt ha
      have hlb := hexDigit?_lt hb
      have hlc := hexDigit?_lt hc
      have hld := hexDigit?_lt hd
      exact ⟨by omega, [a, b, c, d], rfl⟩

lemma scanLow_suffix {s t : Str} {n : ℕ} (h : scanLow s = some (n, t)) : t <:+ s := by
  match s, h with
  | b :: u :: s, h =>
      rw [scanLow] at h
      split_ifs at h
      exact ((scanHex_lt h).2.trans (List.suffix_cons _ _)).trans (List.suffix_cons _ _)

/-- Short escapes stand for no half of a pair. -/
lemma backslash?_lt {c e : CodePoint} (h : backslash? c = some e) : e.val < 0xd800 := by
  unfold backslash? at h
  split_ifs at h with hc
  · obtain rfl := Option.some.inj h
    omega
  all_goals
    obtain rfl := Option.some.inj h
    decide

lemma val_ofNat_of_lt {n : ℕ} (h : n < 0x10000) : (Fin.ofNat 0x110000 n).val = n := by
  rw [Fin.val_ofNat]
  omega

/-- Below the surrogates, and above them, there are no halves of pairs. -/
lemma not_surrogate {n : ℕ} (h : n < 0xd800 ∨ 0xdfff < n) : ¬ IsHigh n ∧ ¬ IsLow n := by
  rw [IsHigh, IsLow]
  omega

lemma joined_gt {high low : ℕ} (h : IsHigh high ∧ IsLow low) : 0xdfff < (joined high low).val := by
  rw [IsHigh, IsLow] at h
  rw [joined, Fin.val_ofNat]
  omega

/-- **What an escape is read as**: no half of a pair that the text goes on to complete. -/
lemma scanEscape_cases {s t : Str} {e : CodePoint} (h : scanEscape s = some (e, t)) :
    t <:+ s ∧ (IsHigh e.val → ∀ low t', scanLow t = some (low, t') → ¬ IsLow low) ∧
      (IsLow e.val → ∃ b, scanLow (0x5c :: s) = some (e.val, b)) := by
  match s, h with
  | c :: s, h =>
    rw [scanEscape] at h
    split_ifs at h with hu
    · obtain ⟨⟨n, s'⟩, hn, h⟩ := Option.bind_eq_some_iff.mp h
      obtain ⟨hlt, hsuffix⟩ := scanHex_lt hn
      have hlone : (e, t) = (Fin.ofNat 0x110000 n, s') →
          (∀ low t', scanLow s' = some (low, t') → IsHigh n → ¬ IsLow low) →
          t <:+ c :: s ∧ (IsHigh e.val → ∀ low t', scanLow t = some (low, t') → ¬ IsLow low) ∧
            (IsLow e.val → ∃ b, scanLow (0x5c :: c :: s) = some (e.val, b)) := by
        intro heq hnext
        obtain ⟨rfl, rfl⟩ := Prod.mk.inj heq
        refine ⟨hsuffix.trans (List.suffix_cons _ _), fun hhigh low t' hl => ?_, fun _ => ⟨t, ?_⟩⟩
        · rw [val_ofNat_of_lt hlt] at hhigh
          exact hnext low t' hl hhigh
        · rw [val_ofNat_of_lt hlt, scanLow, if_pos ⟨by decide, hu⟩, hn]
      dsimp only at h
      split at h
      · next low s'' hl =>
          split_ifs at h with hpair
          · obtain ⟨rfl, rfl⟩ := Prod.mk.inj (Option.some.inj h)
            have hbig := not_surrogate (Or.inr (joined_gt hpair))
            exact ⟨((scanLow_suffix hl).trans hsuffix).trans (List.suffix_cons _ _),
              fun hhigh => absurd hhigh hbig.1,
              fun hlow => absurd hlow hbig.2⟩
          · refine hlone (Option.some.inj h).symm fun low' t' hl' hhigh hlow => ?_
            rw [hl, Option.some.injEq, Prod.mk.injEq] at hl'
            exact hpair ⟨hhigh, hl'.1 ▸ hlow⟩
      · next hl =>
          refine hlone (Option.some.inj h).symm fun low' t' hl' _ => ?_
          rw [hl] at hl'
          simp at hl'
    · obtain ⟨e', he, h⟩ := Option.bind_eq_some_iff.mp h
      obtain ⟨rfl, rfl⟩ := Prod.mk.inj (Option.some.inj h)
      have hsmall := not_surrogate (Or.inl (backslash?_lt he))
      exact ⟨List.suffix_cons _ _, fun hhigh => absurd hhigh hsmall.1,
        fun hlow => absurd hlow hsmall.2⟩

/-- A code point stays as it is before a string it is not joined to. -/
lemma joinPairs_cons {c : CodePoint} {s : Str}
    (h : ∀ d ∈ s.head?, ¬ (IsHigh c.val ∧ IsLow d.val)) :
    joinPairs (c :: s) = c :: joinPairs s := by
  cases s with
  | nil => rfl
  | cons d s => rw [joinPairs, if_neg (h d rfl)]

lemma Str.Encodable.of_suffix {s t : Str} (h : s.Encodable) (hsuffix : t <:+ s) : t.Encodable :=
  fun c hc => h c (hsuffix.subset hc)

/-- **What a string is read as** in a text without surrogates: nothing in it would be joined, and a
low surrogate at its beginning was written as an escape. -/
lemma scanString_cases {n : ℕ} {s t text : Str} (hs : s.Encodable)
    (h : scanString n s = some (text, t)) :
    joinPairs text = text ∧ t <:+ s ∧
      ∀ c ∈ text.head?, IsLow c.val → ∃ b, scanLow s = some (c.val, b) := by
  induction n generalizing s text with
  | zero => simp [scanString] at h
  | succ n ih =>
      cases s with
      | nil => simp [scanString] at h
      | cons c s =>
          have htail : Str.Encodable s := hs.of_suffix (List.suffix_cons c s)
          rw [scanString] at h
          split_ifs at h with hquote hback hcontrol
          · obtain ⟨rfl, rfl⟩ := Prod.mk.inj (Option.some.inj h)
            exact ⟨rfl, List.suffix_cons _ _, by simp⟩
          · obtain ⟨⟨e, s'⟩, he, h⟩ := Option.bind_eq_some_iff.mp h
            obtain ⟨⟨text', t'⟩, htext, h⟩ := Option.bind_eq_some_iff.mp h
            obtain ⟨rfl, rfl⟩ := Prod.mk.inj (Option.some.inj h)
            obtain ⟨hsuffix, hhigh, hlow⟩ := scanEscape_cases he
            obtain ⟨hjoin, hsuffix', hhead⟩ := ih (htail.of_suffix hsuffix) htext
            have hc : c = 0x5c := Fin.ext hback
            refine ⟨?_, (hsuffix'.trans hsuffix).trans (List.suffix_cons _ _), ?_⟩
            · rw [joinPairs_cons, hjoin]
              intro d hd hboth
              obtain ⟨b, hb⟩ := hhead d hd hboth.2
              exact hhigh hboth.1 _ _ hb hboth.2
            · intro d hd hd'
              rw [List.head?_cons, Option.mem_some_iff] at hd
              rw [hc]
              exact hd ▸ hlow (hd ▸ hd')
          · obtain ⟨⟨text', t'⟩, htext, h⟩ := Option.bind_eq_some_iff.mp h
            obtain ⟨rfl, rfl⟩ := Prod.mk.inj (Option.some.inj h)
            obtain ⟨hjoin, hsuffix', _⟩ := ih htail htext
            have hc : ¬ IsHigh c.val ∧ ¬ IsLow c.val := by
              have hplain := hs c List.mem_cons_self
              exact not_surrogate (by omega)
            refine ⟨?_, hsuffix'.trans (List.suffix_cons _ _), ?_⟩
            · rw [joinPairs_cons fun d _ hboth => hc.1 hboth.1, hjoin]
            · intro d hd hd'
              rw [List.head?_cons, Option.mem_some_iff] at hd
              exact absurd (hd ▸ hd') hc.2

lemma scanSign_suffix (s : Str) : (scanSign s).2 <:+ s := by
  cases s with
  | nil => exact List.suffix_refl _
  | cons c s =>
      rw [scanSign]
      split_ifs
      · exact List.suffix_cons _ _
      · exact List.suffix_refl _

lemma scanDigits_suffix {s t ds : Str} (h : scanDigits s = some (ds, t)) : t <:+ s := by
  cases s with
  | nil => simp [scanDigits] at h
  | cons c s =>
      rw [scanDigits] at h
      split_ifs at h
      · obtain ⟨_, rfl⟩ := Prod.mk.inj (Option.some.inj h)
        exact List.suffix_cons _ _
      · obtain ⟨_, rfl⟩ := Prod.mk.inj (Option.some.inj h)
        exact (List.dropWhile_suffix _).trans (List.suffix_cons _ _)

lemma scanFraction_suffix (s : Str) : (scanFraction s).2 <:+ s := by
  cases s with
  | nil => exact List.suffix_refl _
  | cons c s =>
      rw [scanFraction]
      split_ifs
      · exact (List.dropWhile_suffix _).trans (List.suffix_cons _ _)
      · exact List.suffix_refl _

lemma scanExponent_suffix (s : Str) : (scanExponent s).2 <:+ s := by
  have hsign : ∀ s, (scanExponentSign s).2 <:+ s := by
    intro s
    cases s with
    | nil => exact List.suffix_refl _
    | cons c s =>
        rw [scanExponentSign]
        split_ifs
        · exact List.suffix_cons _ _
        · exact List.suffix_refl _
  cases s with
  | nil => exact List.suffix_refl _
  | cons c s =>
      rw [scanExponent]
      dsimp only
      split_ifs
      · exact ((List.dropWhile_suffix _).trans (hsign s)).trans (List.suffix_cons _ _)
      · exact List.suffix_refl _

/-- **What a number is read as** is read back, if that is so of the floats. -/
lemma scanNumber_cases {float : Str → JsonNumber} (hfloat : ∀ x, (float x).Readable float)
    {s t : Str} {n : JsonNumber} (h : scanNumber float s = some (n, t)) :
    n.Readable float ∧ t <:+ s := by
  rw [scanNumber] at h
  obtain ⟨⟨ds, s'⟩, hds, h⟩ := Option.bind_eq_some_iff.mp h
  have hsuffix : (scanExponent (scanFraction s').2).2 <:+ s :=
    (((scanExponent_suffix _).trans (scanFraction_suffix _)).trans (scanDigits_suffix hds)).trans
      (scanSign_suffix s)
  dsimp only at h
  split_ifs at h
  · obtain ⟨rfl, rfl⟩ := Prod.mk.inj (Option.some.inj h)
    exact ⟨JsonNumber.readable_ofInt float _, hsuffix⟩
  · obtain ⟨rfl, rfl⟩ := Prod.mk.inj (Option.some.inj h)
    exact ⟨hfloat _, hsuffix⟩

lemma afterPrefix?_suffix {literal : String} {s t : Str} (h : afterPrefix? literal s = some t) :
    t <:+ s := by
  rw [afterPrefix?] at h
  split_ifs at h
  obtain rfl := Option.some.inj h
  exact List.drop_suffix _ _

lemma scanScalar_cases {float : Str → JsonNumber} (hfloat : ∀ x, (float x).Readable float)
    {s t : Str} {j : Json} (h : scanScalar float s = some (j, t)) :
    j.Regular float ∧ t <:+ s := by
  have hlit : ∀ {literal : String} {v : Json},
      (afterPrefix? literal s).map (fun s => (v, s)) = some (j, t) → v.Regular float →
      j.Regular float ∧ t <:+ s := by
    intro literal v h hv
    obtain ⟨t', ht', h⟩ := Option.map_eq_some_iff.mp h
    obtain ⟨rfl, rfl⟩ := Prod.mk.inj h
    exact ⟨hv, afterPrefix?_suffix ht'⟩
  have horElse : ∀ {a b : Option (Json × Str)}, (a <|> b) = some (j, t) →
      a = some (j, t) ∨ b = some (j, t) := by
    intro a b hab
    cases a with
    | none => exact Or.inr hab
    | some x => exact Or.inl hab
  rw [scanScalar] at h
  rcases horElse h with h | h
  · exact hlit h trivial
  rcases horElse h with h | h
  · exact hlit h trivial
  rcases horElse h with h | h
  · exact hlit h trivial
  rcases horElse h with h | h
  · obtain ⟨⟨n, t'⟩, hn, h⟩ := Option.map_eq_some_iff.mp h
    obtain ⟨rfl, rfl⟩ := Prod.mk.inj h
    exact scanNumber_cases hfloat hn
  rcases horElse h with h | h
  · exact hlit h (Or.inl rfl)
  rcases horElse h with h | h
  · exact hlit h (Or.inr (Or.inl rfl))
  · exact hlit h (Or.inr (Or.inr (Or.inl rfl)))

/-- A member of a regular object is regular. -/
lemma JsonMembers.Regular.get {float : Str → JsonNumber} {key : Str} {value : Json} :
    {ms : JsonMembers} → ms.Regular float → ms.get? key = some value → value.Regular float
  | .nil, _, hget => by simp [JsonMembers.get?] at hget
  | .cons k v tail, h, hget => by
      obtain ⟨_, _, hv, htail⟩ := h
      rw [JsonMembers.get?] at hget
      split_ifs at hget with heq
      · exact Option.some.inj hget ▸ hv
      · exact htail.get hget

/-- An assignment keeps an object regular. -/
lemma JsonMembers.Regular.set {float : Str → JsonNumber} {key : Str} {value : Json}
    (hkey : joinPairs key = key) (hvalue : value.Regular float) : {ms : JsonMembers} →
    ms.Regular float → (ms.set key value).Regular float
  | .nil, _ => ⟨hkey, rfl, hvalue, trivial⟩
  | .cons k v tail, h => by
      obtain ⟨hk, hnew, hv, htail⟩ := h
      rw [JsonMembers.set]
      split_ifs with heq
      · exact ⟨hk, hnew, hvalue, htail⟩
      · refine ⟨hk, ?_, hv, htail.set hkey hvalue⟩
        rw [JsonMembers.get?_set, if_neg heq]
        exact hnew

/-- An object made of regular values is regular. -/
lemma JsonMembers.regular_ofPairs {float : Str → JsonNumber} {pairs : List (Str × Json)}
    (h : ∀ p ∈ pairs, joinPairs p.1 = p.1 ∧ p.2.Regular float) : (ofPairs pairs).Regular float := by
  have hfold : ∀ {ps : List (Str × Json)} {acc : JsonMembers},
      (∀ p ∈ ps, joinPairs p.1 = p.1 ∧ p.2.Regular float) → acc.Regular float →
      (ps.foldl (fun members (k, v) => members.set k v) acc).Regular float := by
    intro ps
    induction ps with
    | nil => exact fun _ hacc => hacc
    | cons p ps ih =>
        intro acc hps hacc
        have hp := hps p List.mem_cons_self
        exact ih (fun q hq => hps q (List.mem_cons_of_mem _ hq)) (hacc.set hp.1 hp.2)
  exact hfold h trivial

/-- **What is read is regular**, in a text without surrogates; the rest is the end of the text. -/
structure ScansRegular (float : Str → JsonNumber) (n : ℕ) : Prop where
  once : ∀ {s t : Str} {j : Json}, s.Encodable → scanOnce float n s = some (j, t) →
    j.Regular float ∧ t <:+ s
  items : ∀ {s t : Str} {items : JsonItems}, s.Encodable → scanItems float n s = some (items, t) →
    items.Regular float ∧ t <:+ s
  members : ∀ {s t : Str} {pairs : List (Str × Json)}, s.Encodable →
    scanMembers float n s = some (pairs, t) →
    (∀ p ∈ pairs, joinPairs p.1 = p.1 ∧ p.2.Regular float) ∧ t <:+ s

namespace ScansRegular

variable {float : Str → JsonNumber} {n : ℕ}

lemma once_succ (hfloat : ∀ x, (float x).Readable float) (ih : ScansRegular float n) {s t : Str}
    {j : Json} (hs : s.Encodable) (h : scanOnce float (n + 1) s = some (j, t)) :
    j.Regular float ∧ t <:+ s := by
  cases s with
  | nil => simp [scanOnce] at h
  | cons c s =>
      have htail : Str.Encodable s := hs.of_suffix (List.suffix_cons c s)
      have hskip : ∀ {d : CodePoint} {s' : Str}, skipSpace s = d :: s' → d :: s' <:+ s :=
        fun heq => heq ▸ skipSpace_suffix s
      rw [scanOnce] at h
      split_ifs at h
      · obtain ⟨⟨text, t'⟩, htext, h⟩ := Option.map_eq_some_iff.mp h
        obtain ⟨rfl, rfl⟩ := Prod.mk.inj h
        obtain ⟨hjoin, hsuffix, _⟩ := scanString_cases htail htext
        exact ⟨hjoin, hsuffix.trans (List.suffix_cons _ _)⟩
      · cases hsp : skipSpace s with
        | nil => simp [hsp] at h
        | cons d s' =>
            rw [hsp] at h
            dsimp only at h
            split_ifs at h
            · obtain ⟨rfl, rfl⟩ := Prod.mk.inj (Option.some.inj h)
              exact ⟨trivial, ((List.suffix_cons _ _).trans (hskip hsp)).trans
                (List.suffix_cons _ _)⟩
            · obtain ⟨⟨pairs, t'⟩, hpairs, h⟩ := Option.map_eq_some_iff.mp h
              obtain ⟨rfl, rfl⟩ := Prod.mk.inj h
              obtain ⟨hreg, hsuffix⟩ := ih.members (htail.of_suffix (hskip hsp)) hpairs
              exact ⟨JsonMembers.regular_ofPairs hreg,
                (hsuffix.trans (hskip hsp)).trans (List.suffix_cons _ _)⟩
      · cases hsp : skipSpace s with
        | nil => simp [hsp] at h
        | cons d s' =>
            rw [hsp] at h
            dsimp only at h
            split_ifs at h
            · obtain ⟨rfl, rfl⟩ := Prod.mk.inj (Option.some.inj h)
              exact ⟨trivial, ((List.suffix_cons _ _).trans (hskip hsp)).trans
                (List.suffix_cons _ _)⟩
            · obtain ⟨⟨items, t'⟩, hitems, h⟩ := Option.map_eq_some_iff.mp h
              obtain ⟨rfl, rfl⟩ := Prod.mk.inj h
              obtain ⟨hreg, hsuffix⟩ := ih.items (htail.of_suffix (hskip hsp)) hitems
              exact ⟨hreg, (hsuffix.trans (hskip hsp)).trans (List.suffix_cons _ _)⟩
      · exact scanScalar_cases hfloat h

lemma items_succ (ih : ScansRegular float n) {s t : Str} {items : JsonItems} (hs : s.Encodable)
    (h : scanItems float (n + 1) s = some (items, t)) : items.Regular float ∧ t <:+ s := by
  rw [scanItems] at h
  obtain ⟨⟨value, s₁⟩, hvalue, h⟩ := Option.bind_eq_some_iff.mp h
  obtain ⟨hreg, hsuffix⟩ := ih.once hs hvalue
  dsimp only at h
  cases hsp : skipSpace s₁ with
  | nil => simp [hsp] at h
  | cons c s₂ =>
      have hrest : s₂ <:+ s := ((List.suffix_cons c s₂).trans
        (hsp ▸ skipSpace_suffix s₁)).trans hsuffix
      rw [hsp] at h
      dsimp only at h
      split_ifs at h
      · obtain ⟨rfl, rfl⟩ := Prod.mk.inj (Option.some.inj h)
        exact ⟨⟨hreg, trivial⟩, hrest⟩
      · obtain ⟨⟨items', t'⟩, hitems, h⟩ := Option.bind_eq_some_iff.mp h
        obtain ⟨rfl, rfl⟩ := Prod.mk.inj (Option.some.inj h)
        have hskip := (skipSpace_suffix s₂).trans hrest
        obtain ⟨hregs, hsuffix'⟩ := ih.items (hs.of_suffix hskip) hitems
        exact ⟨⟨hreg, hregs⟩, hsuffix'.trans hskip⟩

lemma members_succ (ih : ScansRegular float n) {s t : Str} {pairs : List (Str × Json)}
    (hs : s.Encodable) (h : scanMembers float (n + 1) s = some (pairs, t)) :
    (∀ p ∈ pairs, joinPairs p.1 = p.1 ∧ p.2.Regular float) ∧ t <:+ s := by
  cases s with
  | nil => simp [scanMembers] at h
  | cons q s =>
      have htail : Str.Encodable s := hs.of_suffix (List.suffix_cons q s)
      rw [scanMembers] at h
      split_ifs at h
      obtain ⟨⟨key, s₁⟩, hkey, h⟩ := Option.bind_eq_some_iff.mp h
      obtain ⟨hjoin, hsuffix, _⟩ := scanString_cases htail hkey
      dsimp only at h
      cases hsp : skipSpace s₁ with
      | nil => simp [hsp] at h
      | cons colon s₂ =>
          have hrest₂ : s₂ <:+ s := ((List.suffix_cons colon s₂).trans
            (hsp ▸ skipSpace_suffix s₁)).trans hsuffix
          rw [hsp] at h
          dsimp only at h
          split_ifs at h
          obtain ⟨⟨value, s₃⟩, hvalue, h⟩ := Option.bind_eq_some_iff.mp h
          have hskip := (skipSpace_suffix s₂).trans hrest₂
          obtain ⟨hreg, hsuffix₃⟩ := ih.once (htail.of_suffix hskip) hvalue
          dsimp only at h
          cases hsp' : skipSpace s₃ with
          | nil => simp [hsp'] at h
          | cons c s₄ =>
              have hrest₄ : s₄ <:+ s := (((List.suffix_cons c s₄).trans
                (hsp' ▸ skipSpace_suffix s₃)).trans hsuffix₃).trans hskip
              rw [hsp'] at h
              dsimp only at h
              split_ifs at h
              · obtain ⟨rfl, rfl⟩ := Prod.mk.inj (Option.some.inj h)
                refine ⟨fun p hp => ?_, hrest₄.trans (List.suffix_cons _ _)⟩
                rw [List.mem_singleton.mp hp]
                exact ⟨hjoin, hreg⟩
              · obtain ⟨⟨pairs', t'⟩, hpairs, h⟩ := Option.bind_eq_some_iff.mp h
                obtain ⟨rfl, rfl⟩ := Prod.mk.inj (Option.some.inj h)
                have hskip₄ := (skipSpace_suffix s₄).trans hrest₄
                obtain ⟨hregs, hsuffix'⟩ := ih.members (htail.of_suffix hskip₄) hpairs
                refine ⟨fun p hp => ?_,
                  (hsuffix'.trans hskip₄).trans (List.suffix_cons _ _)⟩
                rcases List.mem_cons.mp hp with rfl | hp
                · exact ⟨hjoin, hreg⟩
                · exact hregs p hp

end ScansRegular

lemma scansRegular {float : Str → JsonNumber} (hfloat : ∀ x, (float x).Readable float) (n : ℕ) :
    ScansRegular float n := by
  induction n with
  | zero => exact ⟨by simp [scanOnce], by simp [scanItems], by simp [scanMembers]⟩
  | succ n ih =>
      exact ⟨fun hs h => ih.once_succ hfloat hs h, fun hs h => ih.items_succ hs h,
        fun hs h => ih.members_succ hs h⟩

/-- **What `json.loads` reads of a text without surrogates is regular.** -/
theorem regular_of_loads {float : Str → JsonNumber} (hfloat : ∀ x, (float x).Readable float)
    {s : Str} (hs : s.Encodable) {j : Json} (h : Json.loads float s = some j) :
    j.Regular float := by
  rw [Json.loads] at h
  obtain ⟨⟨j', rest⟩, hscan, h⟩ := Option.bind_eq_some_iff.mp h
  dsimp only at h
  split_ifs at h
  obtain rfl := Option.some.inj h
  exact ((scansRegular hfloat _).once (hs.of_suffix (skipSpace_suffix s)) hscan).1

end OrderCqrs
