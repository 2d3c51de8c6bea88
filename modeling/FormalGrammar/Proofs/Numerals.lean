import FormalGrammar.Numeral.Real
import FormalGrammar.Proofs.Texts
import Mathlib.Algebra.Group.Nat.Defs

/-!
# Numerals that are written and read

An integer is read back from the numeral that it is written as if it has at most `digitLimit`
digits (`Integer.read?_write`), and an integer with more digits is not read from any text
(`Integer.isShort_of_read?`), nor is it the integer part of a number (`Real.isShort_of_truncate?`).
-/

namespace FormalGrammar.Numeral

open Text

/-! ## Digits -/

theorem isBlank_of_isDigit {c : Char} (h : c.isDigit = true) : isBlank c = false := by
  have hc : 48 ≤ c.toNat ∧ c.toNat ≤ 57 := by
    simpa [Char.isDigit, UInt32.le_iff_toNat_le] using h
  simp only [isBlank, Bool.or_eq_false_iff, Bool.and_eq_false_iff, decide_eq_false_iff_not,
    beq_eq_false_iff_ne, ne_eq]
  omega

theorem ofDigitChars_lt {ds : List Char} (h : ∀ c ∈ ds, c.isDigit = true) (init : Nat) :
    Nat.ofDigitChars 10 ds init < (init + 1) * 10 ^ ds.length := by
  induction ds generalizing init with
  | nil => simp [Nat.ofDigitChars_nil]
  | cons c ds ih =>
    have hc : c.toNat - '0'.toNat ≤ 9 := by
      have hd := h c List.mem_cons_self
      have : c.toNat ≤ 57 := by
        simp only [Char.isDigit, Bool.and_eq_true, decide_eq_true_eq] at hd
        exact hd.2
      simp only [Char.reduceToNat]
      omega
    rw [Nat.ofDigitChars_cons]
    have hr := ih (fun d hd => h d (List.mem_cons_of_mem _ hd)) (10 * init + (c.toNat - '0'.toNat))
    calc Nat.ofDigitChars 10 ds (10 * init + (c.toNat - '0'.toNat))
        < (10 * init + (c.toNat - '0'.toNat) + 1) * 10 ^ ds.length := hr
      _ ≤ (init + 1) * 10 * 10 ^ ds.length := Nat.mul_le_mul_right _ (by omega)
      _ = (init + 1) * 10 ^ (c :: ds).length := by
        rw [List.length_cons, Nat.pow_succ', Nat.mul_assoc]

/-! ## The plain form -/

theorem mapM_asciiForm? {t : Text} (h : ∀ c ∈ t, c.toNat < 0x80) : t.mapM asciiForm? = some t := by
  induction t with
  | nil => rfl
  | cons c t ih =>
    have hc : asciiForm? c = some c := by simp [asciiForm?, h c List.mem_cons_self]
    simp [List.mapM_cons, hc, ih fun d hd => h d (List.mem_cons_of_mem _ hd)]

theorem dropSeparators_eq_self {t : Text} (h : '_' ∉ t) (afterDigit : Bool) :
    dropSeparators afterDigit t = some t := by
  induction t generalizing afterDigit with
  | nil => rfl
  | cons c t ih =>
    simp only [List.mem_cons, not_or] at h
    have hc : c ≠ '_' := fun e => h.1 e.symm
    rw [dropSeparators, if_neg hc, ih h.2]
    · rfl
    · intro _ _ e
      exact absurd e hc

/-- A numeral as it is written: digits behind at most one minus sign. -/
theorem plainForm?_eq_self {t : Text} (h : ∀ c ∈ t, c.isDigit = true ∨ c = '-') :
    plainForm? t = some t := by
  have hblank : ∀ c ∈ t, isMargin c = false := by
    intro c hc
    rcases h c hc with hd | rfl
    · simp [isMargin, isBlank_of_isDigit hd]
    · decide
  have hascii : ∀ c ∈ t, c.toNat < 0x80 := by
    intro c hc
    rcases h c hc with hd | rfl
    · simp only [Char.isDigit, Bool.and_eq_true, decide_eq_true_eq] at hd
      have : c.toNat ≤ 57 := hd.2
      omega
    · decide
  have hsep : '_' ∉ t := by
    intro hm
    rcases h _ hm with hd | hd
    · exact absurd hd (by decide)
    · exact absurd hd (by decide)
  have htrim : trimMargin t = t := by
    rw [trimMargin, dropWhile_eq_self hblank, dropEndWhile_eq_self hblank]
  simp [plainForm?, htrim, mapM_asciiForm? hascii, dropSeparators_eq_self hsep]

/-! ## Integers -/

namespace Integer

theorem isShort_iff {n : Int} : IsShort n ↔ n.natAbs < 10 ^ digitLimit :=
  Nat.length_toDigits_le_iff (by decide) (by decide)

theorem isShort_of_lt {n k : Nat} (h : n < 10 ^ k) (hk : k ≤ digitLimit) : IsShort n :=
  isShort_iff.mpr (Nat.lt_of_lt_of_le h (Nat.pow_le_pow_right (by decide) hk))

theorem not_isShort_of_le {n : Nat} (h : 10 ^ digitLimit ≤ n) : ¬ IsShort (.ofNat n) :=
  fun hn => Nat.not_lt.mpr h (isShort_iff.mp hn)

/-- The least integer that is too long for a numeral. -/
def leastLong : Int := .ofNat (Nat.pow 10 digitLimit)

theorem not_isShort_leastLong : ¬ IsShort leastLong := by
  have hpow (d : Nat) : 10 ^ d = Nat.pow 10 d := rfl
  exact not_isShort_of_le (Nat.le_of_eq (hpow digitLimit))

theorem natOfDigits?_toDigits {n : Nat} (h : (Nat.toDigits 10 n).length ≤ digitLimit) :
    natOfDigits? (Nat.toDigits 10 n) = some n := by
  have hd : (Nat.toDigits 10 n).all Char.isDigit = true :=
    List.all_eq_true.mpr fun c hc => Nat.isDigit_of_mem_toDigits (by decide) (by decide) hc
  rw [natOfDigits?, if_pos ⟨Nat.toDigits_ne_nil, h, hd⟩, Nat.ofDigitChars_ten_toDigits]

theorem mem_write {n : Int} {c : Char} (h : c ∈ write n) : c.isDigit = true ∨ c = '-' := by
  cases n with
  | ofNat n => exact .inl (Nat.isDigit_of_mem_toDigits (by decide) (by decide) h)
  | negSucc n =>
    rcases List.mem_cons.mp h with rfl | h
    · exact .inr rfl
    · exact .inl (Nat.isDigit_of_mem_toDigits (by decide) (by decide) h)

theorem isBlank_of_mem_write {n : Int} {c : Char} (h : c ∈ write n) : isBlank c = false := by
  rcases mem_write h with hd | rfl
  · exact isBlank_of_isDigit hd
  · decide

theorem notMem_write {n : Int} {c : Char} (hd : c.isDigit = false) (hm : c ≠ '-') :
    c ∉ write n := by
  intro h
  rcases mem_write h with h | h
  · rw [hd] at h
    cases h
  · exact hm h

/-- A numeral without a sign is read as a natural number. -/
private theorem splitSign_toDigits (n : Nat) :
    splitSign (Nat.toDigits 10 n) = (false, Nat.toDigits 10 n) := by
  obtain ⟨c, r, he⟩ := List.exists_cons_of_ne_nil (Nat.toDigits_ne_nil (n := n) (b := 10))
  have hc : c.isDigit = true :=
    Nat.isDigit_of_mem_toDigits (b := 10) (n := n) (by decide) (by decide) (by simp [he])
  rw [he]
  unfold splitSign
  split
  · next h => cases h; exact absurd hc (by decide)
  · next h => cases h; exact absurd hc (by decide)
  · rfl

theorem write_ne_nil (n : Int) : write n ≠ [] := by
  cases n with
  | ofNat n => exact Nat.toDigits_ne_nil
  | negSucc n => exact List.cons_ne_nil _ _

/-- **A short integer is read back from its numeral.** -/
theorem read?_write {n : Int} (h : IsShort n) : read? (write n) = some n := by
  have hp : plainForm? (write n) = some (write n) := plainForm?_eq_self fun c => mem_write
  simp only [read?, hp, bind, Option.bind]
  cases n with
  | ofNat n =>
    have hn : natOfDigits? (Nat.toDigits 10 n) = some n := natOfDigits?_toDigits h
    simp [write, splitSign_toDigits, hn]
  | negSucc n =>
    have hn : natOfDigits? (Nat.toDigits 10 (n + 1)) = some (n + 1) := natOfDigits?_toDigits h
    simp [write, splitSign, hn, Int.negSucc_eq]

/-- What is read is short, whatever the text it is read from. -/
theorem isShort_of_read? {t : Text} {n : Int} (h : read? t = some n) : IsShort n := by
  simp only [read?, bind, Option.bind_eq_some_iff, pure] at h
  obtain ⟨plain, -, m, hm, hn⟩ := h
  have hlt : m < 10 ^ digitLimit := by
    unfold natOfDigits? at hm
    split at hm
    · next hd =>
      obtain ⟨-, hlen, hall⟩ := hd
      rw [← Option.some.inj hm]
      have hlt := ofDigitChars_lt (List.all_eq_true.mp hall) 0
      rw [Nat.zero_add, Nat.one_mul] at hlt
      exact lt_of_lt_of_le hlt (Nat.pow_le_pow_right (by decide) hlen)
    · cases hm
  rw [isShort_iff]
  rw [← Option.some.inj hn]
  split <;> simpa using hlt

end Integer

/-! ## Integer parts -/

namespace Real

/-- The parts of a finite number are those of a double. -/
theorem bounds_of_classify {x : Float} {b : Binary} (h : classify x = .finite b) :
    b.m < 2 ^ 53 ∧ b.q ≤ 971 := by
  have hlead : leadingBit = 2 ^ 52 := by decide
  simp only [classify] at h
  split at h
  · split at h <;> cases h
  · next hmost =>
    have hfraction : x.toBits.toNat % leadingBit < leadingBit := Nat.mod_lt _ (by decide)
    have hexponent : x.toBits.toNat / leadingBit % 2048 < 2048 := Nat.mod_lt _ (by decide)
    split at h
    · cases h
      simp only
      omega
    · cases h
      simp only
      omega

/-- A shift by at most `d` places to the left adds at most `d` bits, and no more digits. -/
theorem shift_lt {m k d : Nat} {q : Int} (hm : m < 2 ^ k) (hq : q ≤ d) :
    (if 0 ≤ q then m <<< q.toNat else m >>> (-q).toNat) < 10 ^ (k + d) := by
  refine lt_of_lt_of_le ?_ (Nat.pow_le_pow_left (by decide : 2 ≤ 10) (k + d))
  rw [Nat.pow_add]
  split
  · rw [Nat.shiftLeft_eq]
    exact Nat.mul_lt_mul_of_lt_of_le hm (Nat.pow_le_pow_right (by decide) (by omega))
      (Nat.two_pow_pos d)
  · calc m >>> (-q).toNat
        ≤ m := Nat.shiftRight_le _ _
      _ < 2 ^ k := hm
      _ ≤ 2 ^ k * 2 ^ d := Nat.le_mul_of_pos_right _ (Nat.two_pow_pos d)

/-- The integer part of a number has a numeral, whatever the number. -/
theorem isShort_of_truncate? {x : Float} {n : Int} (h : truncate? x = some n) :
    Integer.IsShort n := by
  unfold truncate? at h
  split at h
  · next negative m q hx =>
    obtain ⟨hm, hq⟩ := bounds_of_classify hx
    have hshort := Integer.isShort_of_lt (shift_lt hm hq) (by decide)
    cases h
    split
    · rw [Integer.IsShort, Int.natAbs_neg]
      exact hshort
    · exact hshort
  · cases h

end Real

end FormalGrammar.Numeral
