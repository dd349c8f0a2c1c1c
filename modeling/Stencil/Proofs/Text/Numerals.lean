/-
  Stencil/Proofs/Text/Numerals.lean
  =================================
  **Numbers that are written are read back.**

  The decimal digits of a number are read as the number, and a number of 64 bits
  is in the range of the reader of such numbers.  What is read as a number is a
  numeral that denotes it (`readNat?_eq_some_iff`).
-/
import Mathlib.Data.List.Induction
import Stencil.Proofs.Text.Characters
import Stencil.Text.Numeral

namespace Stencil.Text

theorem readDigits?_append (base n : Nat) (cs cs' : List Char) :
    readDigits? base n (cs ++ cs') = (readDigits? base n cs).bind (readDigits? base · cs') := by
  induction cs generalizing n with
  | nil => rfl
  | cons c cs ih =>
    rw [List.cons_append, readDigits?, readDigits?, Option.bind_assoc]
    exact congrArg _ (funext fun d => ih _)

theorem digitValue?_digitChar : ∀ d < 10, digitValue? 10 (Nat.digitChar d) = some d := by decide

theorem readDigits?_toDigits (n : Nat) : readDigits? 10 0 (Nat.toDigits 10 n) = some n := by
  induction n using Nat.strongRecOn with
  | _ n ih =>
    rcases Nat.lt_or_ge n 10 with hn | hn
    · rw [Nat.toDigits_of_lt_base hn, readDigits?, digitValue?_digitChar n hn, Option.bind_some,
        readDigits?, Nat.zero_mul, Nat.zero_add]
    · have hdigit : n % 10 < 10 := Nat.mod_lt n (by decide)
      rw [Nat.toDigits_of_base_le (by decide) hn, readDigits?_append, ih (n / 10) (by omega),
        Option.bind_some, readDigits?, digitValue?_digitChar _ hdigit, Option.bind_some, readDigits?]
      exact congrArg some (Nat.div_add_mod' n 10)

theorem readNat?_toDigits (n : Nat) : readNat? 10 (Nat.toDigits 10 n) = some n := by
  have hne : (Nat.toDigits 10 n).isEmpty = false := by
    rw [List.isEmpty_eq_false_iff]
    exact Nat.toDigits_ne_nil
  rw [readNat?, hne]
  exact readDigits?_toDigits n

/-- The digits of a number of 64 bits are read as the number. -/
theorem readNat64?_toString (n : UInt64) : readNat64? (toString n.toNat).toList = some n.toNat := by
  have htext : (toString n.toNat).toList = Nat.toDigits 10 n.toNat := String.toList_ofList
  have hsign : ∀ rest, Nat.toDigits 10 n.toNat ≠ '+' :: rest := by
    intro rest heq
    have hdigit := Nat.isDigit_of_mem_toDigits (b := 10) (n := n.toNat) (c := '+')
      (by decide) (by decide) (by rw [heq]; exact List.mem_cons_self)
    exact absurd hdigit (by decide)
  rw [htext, readNat64?.eq_2 _ hsign, readNat?_toDigits, Option.filter_some]
  exact if_pos (decide_eq_true n.toNat_lt)

/-! ### Numerals -/

/-- `c` is the digit of value `d`; letters count from ten, in either case. -/
def IsDigit (base : Nat) (c : Char) (d : Nat) : Prop :=
  d < base ∧ (c = Nat.digitChar d ∨ c = (Nat.digitChar d).toUpper)

instance (base : Nat) (c : Char) (d : Nat) : Decidable (IsDigit base c d) :=
  inferInstanceAs (Decidable (_ ∧ _))

/-- A non-empty run of digits and the number that it denotes. -/
inductive IsNumeral (base : Nat) : List Char → Nat → Prop
  | digit {c : Char} {d : Nat} (h : IsDigit base c d) : IsNumeral base [c] d
  | snoc {cs : List Char} {c : Char} {n d : Nat} (hcs : IsNumeral base cs n)
      (h : IsDigit base c d) : IsNumeral base (cs ++ [c]) (n * base + d)

variable {base n : Nat} {cs : List Char} {c : Char}

theorem isAlphanum_of_digitValue? {d : Nat} (h : digitValue? base c = some d) : c.isAlphanum := by
  by_cases hc : c.isDigit ∨ c.isLower ∨ c.isUpper
  · have heq : c.isAlphanum = (c.isUpper || c.isLower || c.isDigit) := rfl
    rw [heq, Bool.or_eq_true, Bool.or_eq_true]
    tauto
  · simp only [not_or] at hc
    simp [digitValue?, hc] at h

/-- The digits that the readers of decimal and hexadecimal numerals know. -/
theorem digitValue?_eq_some_iff (hbase : base = 10 ∨ base = 16) {d : Nat} :
    digitValue? base c = some d ↔ IsDigit base c d := by
  constructor
  · intro h
    refine of_isAlphanum (P := fun c => ∀ d ∈ digitValue? base c, IsDigit base c d) ?_
      (isAlphanum_of_digitValue? h) d h
    rcases hbase with rfl | rfl <;> decide
  · rintro ⟨hd, hc⟩
    have hvalues : ∀ d < base, digitValue? base (Nat.digitChar d) = some d ∧
        digitValue? base (Nat.digitChar d).toUpper = some d := by
      rcases hbase with rfl | rfl <;> decide
    rcases hc with rfl | rfl
    · exact (hvalues d hd).1
    · exact (hvalues d hd).2

/-- What is read as a number is a numeral, and the number the one that it denotes. -/
theorem readNat?_eq_some_iff (hbase : base = 10 ∨ base = 16) :
    readNat? base cs = some n ↔ IsNumeral base cs n := by
  have hread : ∀ {c : Char} {m n : Nat},
      readDigits? base m [c] = some n ↔ ∃ d, IsDigit base c d ∧ m * base + d = n := by
    intro c m n
    simp [readDigits?, Option.bind_eq_some_iff, digitValue?_eq_some_iff hbase]
  constructor
  · intro h
    induction cs using List.reverseRecOn generalizing n with
    | nil => simp [readNat?] at h
    | append_singleton cs c ih =>
      have hdigits : readDigits? base 0 (cs ++ [c]) = some n := by simpa [readNat?] using h
      rw [readDigits?_append, Option.bind_eq_some_iff] at hdigits
      obtain ⟨m, hm, hlast⟩ := hdigits
      obtain ⟨d, hd, rfl⟩ := hread.1 hlast
      cases cs with
      | nil =>
        cases hm
        rw [Nat.zero_mul, Nat.zero_add]
        exact .digit hd
      | cons first rest => exact .snoc (ih hm) hd
  · intro h
    induction h with
    | digit hd => exact hread.2 ⟨_, hd, by simp⟩
    | @snoc cs c n d hcs hd ih =>
      have hdigits : readDigits? base 0 cs = some n := by
        cases cs with
        | nil => simp [readNat?] at ih
        | cons first rest => exact ih
      have hall : readDigits? base 0 (cs ++ [c]) = some (n * base + d) := by
        rw [readDigits?_append, hdigits]
        exact hread.2 ⟨d, hd, rfl⟩
      simpa [readNat?] using hall

/-- The characters of a numeral are digits of its base. -/
theorem isDigit_of_mem (h : IsNumeral base cs n) : ∀ c ∈ cs, ∃ d, IsDigit base c d := by
  induction h with
  | digit hd =>
    intro c hc
    rw [List.mem_singleton.1 hc]
    exact ⟨_, hd⟩
  | snoc _ hd ih =>
    intro c hc
    rcases List.mem_append.1 hc with hc | hc
    · exact ih c hc
    · rw [List.mem_singleton.1 hc]
      exact ⟨_, hd⟩

theorem ne_nil_of_isNumeral (h : IsNumeral base cs n) : cs ≠ [] := by
  cases h with
  | digit => exact List.cons_ne_nil _ _
  | snoc => exact List.append_ne_nil_of_right_ne_nil _ (List.cons_ne_nil _ _)

/-- A numeral after at most one sign, and the number that it denotes. -/
inductive IsSigned (base : Nat) : List Char → Int → Prop
  | natural {cs : List Char} {n : Nat} (h : IsNumeral base cs n) : IsSigned base cs n
  | plus {cs : List Char} {n : Nat} (h : IsNumeral base cs n) : IsSigned base ('+' :: cs) n
  | minus {cs : List Char} {n : Nat} (h : IsNumeral base cs n) : IsSigned base ('-' :: cs) (-n)

/-- No character that is neither a sign nor a digit is in a signed numeral. -/
theorem notMem_of_isSigned {m : Int} (h : IsSigned base cs m) (hc : c ∉ ['+', '-'])
    (hdigit : ∀ d, ¬IsDigit base c d) : c ∉ cs := by
  have hnumeral : ∀ {cs n}, IsNumeral base cs n → c ∉ cs := by
    intro cs n hcs hmem
    obtain ⟨d, hd⟩ := isDigit_of_mem hcs c hmem
    exact hdigit d hd
  simp only [List.mem_cons, List.not_mem_nil, or_false, not_or] at hc
  cases h with
  | natural h => exact hnumeral h
  | plus h => exact List.not_mem_cons_of_ne_of_not_mem hc.1 (hnumeral h)
  | minus h => exact List.not_mem_cons_of_ne_of_not_mem hc.2 (hnumeral h)

/-- A sign is no digit, so a numeral that starts with it is not read. -/
theorem readNat?_sign (hbase : base = 10 ∨ base = 16) (hc : c ∈ ['+', '-']) :
    readNat? base (c :: cs) = none := by
  have hvalue : digitValue? base c = none := by
    simp only [List.mem_cons, List.not_mem_nil, or_false] at hc
    rcases hbase with rfl | rfl <;> rcases hc with rfl | rfl <;> rfl
  rw [readNat?, if_neg (by simp), readDigits?, hvalue]
  rfl

theorem map_lift (n? : Option Nat) (f : Int → Int) :
    Option.map f (do let n ← n?; pure (n : Int)) = n?.map fun n : Nat => f n := by
  cases n? <;> rfl

theorem readInt?_minus :
    readInt? base ('-' :: cs) = (readNat? base cs).map fun n : Nat => -(n : Int) :=
  map_lift _ _

theorem readInt?_plus :
    readInt? base ('+' :: cs) = (readNat? base cs).map fun n : Nat => (n : Int) :=
  map_lift _ _

theorem readInt?_natural (hsign : ∀ c ∈ ['+', '-'], ∀ rest, cs ≠ c :: rest) :
    readInt? base cs = (readNat? base cs).map fun n : Nat => (n : Int) := by
  rw [readInt?.eq_3 _ _ (hsign '-' (by decide)) (hsign '+' (by decide))]
  exact map_lift _ _

theorem readInt?_eq_some_iff (hbase : base = 10 ∨ base = 16) {m : Int} :
    readInt? base cs = some m ↔ IsSigned base cs m := by
  constructor
  · intro h
    by_cases hsign : ∀ c ∈ ['+', '-'], ∀ rest, cs ≠ c :: rest
    · rw [readInt?_natural hsign] at h
      obtain ⟨n, hn, rfl⟩ := Option.map_eq_some_iff.1 h
      exact .natural ((readNat?_eq_some_iff hbase).1 hn)
    · simp only [List.mem_cons, List.not_mem_nil, or_false, not_forall, not_not] at hsign
      obtain ⟨_, rfl | rfl, rest, rfl⟩ := hsign
      · rw [readInt?_plus] at h
        obtain ⟨n, hn, rfl⟩ := Option.map_eq_some_iff.1 h
        exact .plus ((readNat?_eq_some_iff hbase).1 hn)
      · rw [readInt?_minus] at h
        obtain ⟨n, hn, rfl⟩ := Option.map_eq_some_iff.1 h
        exact .minus ((readNat?_eq_some_iff hbase).1 hn)
  · intro h
    cases h with
    | natural hn =>
      have hread := (readNat?_eq_some_iff hbase).2 hn
      have hsign : ∀ c ∈ ['+', '-'], ∀ rest, cs ≠ c :: rest := by
        rintro c hc rest rfl
        rw [readNat?_sign hbase hc] at hread
        cases hread
      rw [readInt?_natural hsign, hread, Option.map_some]
    | plus hn => rw [readInt?_plus, (readNat?_eq_some_iff hbase).2 hn, Option.map_some]
    | minus hn => rw [readInt?_minus, (readNat?_eq_some_iff hbase).2 hn, Option.map_some]

/-- The whole numbers of 64 bits with a sign. -/
def InRange (m : Int) : Prop := Int64.minValue.toInt ≤ m ∧ m ≤ Int64.maxValue.toInt

instance (m : Int) : Decidable (InRange m) := inferInstanceAs (Decidable (_ ∧ _))

theorem readInt64?_eq_some_iff (hbase : base = 10 ∨ base = 16) {m : Int} :
    readInt64? base cs = some m ↔ IsSigned base cs m ∧ InRange m := by
  rw [readInt64?, Option.filter_eq_some_iff, readInt?_eq_some_iff hbase]
  simp [InRange]

end Stencil.Text
