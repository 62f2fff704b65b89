import Lox.Numeral.Layout
import Lox.Proofs.Numerals.Rounding

/-!
# Texts of numbers are unambiguous

Digits, with a point or without, stand for a rational. What the text of a finite number stands for rounds to its
magnitude, so different finite numbers have different texts.
-/

namespace Lox.Numeral

/-! ## Digits and a point -/

/-- The text stands for the rational. -/
inductive Spells : List Char → ℚ → Prop
  | whole {digits : List Char} (ne : digits ≠ []) (all : ∀ c ∈ digits, c.isDigit = true) :
      Spells digits (Nat.ofDigitChars 10 digits 0 : ℕ)
  | point {digits fraction : List Char} (ne : digits ≠ []) (all : ∀ c ∈ digits, c.isDigit = true)
      (more : ∀ c ∈ fraction, c.isDigit = true) :
      Spells (digits ++ '.' :: fraction) ((Nat.ofDigitChars 10 (digits ++ fraction) 0 : ℕ) / 10 ^ fraction.length)

/-- The rational that is read from a text of digits and a point. -/
def reading (text : List Char) : ℚ :=
  let fraction := (text.dropWhile Char.isDigit).drop 1
  (Nat.ofDigitChars 10 (text.takeWhile Char.isDigit ++ fraction) 0 : ℕ) / 10 ^ fraction.length

namespace Spells

variable {text : List Char} {v w : ℚ}

theorem reading_eq (h : Spells text v) : reading text = v := by
  cases h with
  | whole ne all => simp [reading, List.takeWhile_eq_self_iff.2 all, List.dropWhile_eq_nil_iff.2 all]
  | point ne all more => simp [reading, List.takeWhile_append_of_pos all, List.dropWhile_append_of_pos all]

theorem unique (h : Spells text v) (h' : Spells text w) : v = w := h.reading_eq.symm.trans h'.reading_eq

theorem first (h : Spells text v) : ∃ c rest, text = c :: rest ∧ c.isDigit = true := by
  cases h with
  | whole ne all =>
    obtain ⟨c, rest, rfl⟩ := List.exists_cons_of_ne_nil ne
    exact ⟨c, rest, rfl, all c List.mem_cons_self⟩
  | point ne all more =>
    obtain ⟨c, rest, rfl⟩ := List.exists_cons_of_ne_nil ne
    exact ⟨c, _, rfl, all c List.mem_cons_self⟩

theorem figure (h : Spells text v) : ∀ c ∈ text, c.isDigit = true ∨ c = '.' := by
  cases h with
  | whole ne all => exact fun c hc => .inl (all c hc)
  | point ne all more =>
    intro c hc
    rcases List.mem_append.1 hc with hc | hc
    · exact .inl (all c hc)
    · rcases List.mem_cons.1 hc with rfl | hc
      · exact .inr rfl
      · exact .inl (more c hc)

end Spells

/-! ## Texts of decimals -/

theorem isDigit_toDigits {n : ℕ} : ∀ c ∈ Nat.toDigits 10 n, c.isDigit = true :=
  fun _ hc => Nat.isDigit_of_mem_toDigits (by norm_num) (by norm_num) hc

theorem isDigit_zeros {k : ℕ} : ∀ c ∈ List.replicate k '0', c.isDigit = true := by
  intro c hc
  rw [List.eq_of_mem_replicate hc]
  rfl

theorem spells_whole (n : ℕ) : Spells (n.repr ++ ".0").toList n := by
  have h := Spells.point Nat.toDigits_ne_nil (isDigit_toDigits (n := n)) (isDigit_zeros (k := 1))
  rw [Nat.ofDigitChars_append, Nat.ofDigitChars_ten_toDigits, Nat.ofDigitChars_replicate_zero] at h
  simpa using h

namespace Decimal

variable {d : Decimal}

theorem value_of_nonneg (h : 0 ≤ d.scale) : d.value = (d.coefficient * 10 ^ d.scale.toNat : ℕ) := by
  rw [value, ← Int.toNat_of_nonneg h, zpow_natCast, Int.toNat_natCast]
  push_cast
  rfl

theorem value_of_neg (h : ¬ 0 ≤ d.scale) : d.value = d.coefficient / 10 ^ (-d.scale).toNat := by
  have hzero : d.scale.toNat = 0 := by omega
  rw [value, zpow_eq_div (by norm_num), hzero, pow_zero, mul_one_div]

/-- The text of a decimal stands for its value. -/
theorem spells_positional (d : Decimal) : Spells d.positional.toList d.value := by
  have hvalue := Nat.ofDigitChars_ten_toDigits (n := d.coefficient)
  have hdigits := isDigit_toDigits (n := d.coefficient)
  have hne : Nat.toDigits 10 d.coefficient ≠ [] := Nat.toDigits_ne_nil
  unfold positional
  generalize Nat.toDigits 10 d.coefficient = digits at *
  dsimp only
  split
  case isTrue hscale =>
    rw [value_of_nonneg hscale]
    split
    case isTrue hzero =>
      have h := Spells.whole hne hdigits
      rw [hvalue] at h
      simpa [hzero] using h
    case isFalse hpos =>
      have h := Spells.whole (List.append_ne_nil_of_left_ne_nil hne _)
        (List.forall_mem_append.2 ⟨hdigits, isDigit_zeros (k := d.scale.toNat)⟩)
      rw [Nat.ofDigitChars_append, Nat.ofDigitChars_replicate_zero, hvalue, mul_comm] at h
      simpa [zeros] using h
  case isFalse hscale =>
    rw [value_of_neg hscale]
    split
    case isTrue hless =>
      have htake : digits.take (digits.length - (-d.scale).toNat) ≠ [] := by
        rw [Ne, List.take_eq_nil_iff, not_or]
        exact ⟨by omega, hne⟩
      have h := Spells.point htake (fun c hc => hdigits c (List.mem_of_mem_take hc))
        (fun c hc => hdigits c (List.mem_of_mem_drop (i := digits.length - (-d.scale).toNat) hc))
      rw [List.take_append_drop, hvalue, List.length_drop, Nat.sub_sub_self hless.le] at h
      simpa using h
    case isFalse hmore =>
      have h := Spells.point (by simp) (isDigit_zeros (k := 1))
        (List.forall_mem_append.2 ⟨isDigit_zeros (k := (-d.scale).toNat - digits.length), hdigits⟩)
      rw [List.length_append, List.length_replicate, Nat.sub_add_cancel (not_lt.1 hmore), Nat.ofDigitChars_append,
        Nat.ofDigitChars_append, Nat.ofDigitChars_replicate_zero, Nat.ofDigitChars_replicate_zero] at h
      simpa [zeros, hvalue] using h

end Decimal

/-! ## Finite numbers -/

/-- The bits of a finite number are its sign, its exponent and its fraction. -/
theorem toBits_of_finite {x : Float} {negative : Bool} {m : Magnitude} (h : formOf x = .finite negative m) :
    ∃ biased fraction : ℕ, biased < 2047 ∧ fraction < 2 ^ 52 ∧
      x.toBits.toNat = (if negative then 2 ^ 63 else 0) + biased * 2 ^ 52 + fraction ∧
      m = if biased = 0 then ⟨fraction, -1074, false⟩
        else ⟨2 ^ 52 + fraction, (biased : ℤ) - 1075, decide (fraction = 0) && decide (1 < biased)⟩ := by
  have hbits := x.toBits.toNat_lt
  unfold formOf at h
  simp only [Nat.pow_eq] at h
  generalize x.toBits.toNat = bits at *
  refine ⟨bits / 2 ^ 52 % 2 ^ 11, bits % 2 ^ 52, ?_⟩
  have hsign : bits = (if 2 ^ 63 ≤ bits then 2 ^ 63 else 0) + bits / 2 ^ 52 % 2 ^ 11 * 2 ^ 52 + bits % 2 ^ 52 := by
    split <;> omega
  split at h
  case isTrue => split at h <;> cases h
  case isFalse hfinite =>
    split at h
    case isTrue hzero =>
      cases h
      refine ⟨by omega, by omega, by simpa using hsign, ?_⟩
      rw [if_pos hzero]
    case isFalse hpos =>
      cases h
      refine ⟨by omega, by omega, by simpa using hsign, ?_⟩
      rw [if_neg hpos]

theorem canonical_of_finite {x : Float} {negative : Bool} {m : Magnitude} (h : formOf x = .finite negative m) :
    m.Canonical := by
  obtain ⟨biased, fraction, hbiased, hfraction, -, rfl⟩ := toBits_of_finite h
  split
  case isTrue => exact ⟨by dsimp only; omega, le_rfl, fun h => absurd h (lt_irrefl _), by simp⟩
  case isFalse hpos =>
    refine ⟨by dsimp only; omega, by dsimp only; omega, fun _ => Nat.le_add_right _ _, ?_⟩
    simp only [Bool.and_eq_true, decide_eq_true_eq]
    omega

theorem eq_of_toBits_eq {x y : Float} (h : x.toBits = y.toBits) : x = y := by
  obtain ⟨bits, hvalid⟩ := x
  obtain ⟨bits', hvalid'⟩ := y
  cases (show bits = bits' from h)
  rfl

theorem eq_of_formOf_eq {x y : Float} {negative : Bool} {m : Magnitude} (hx : formOf x = .finite negative m)
    (hy : formOf y = .finite negative m) : x = y := by
  obtain ⟨b, f, hb, hf, hxbits, hm⟩ := toBits_of_finite hx
  obtain ⟨b', f', hb', hf', hybits, rfl⟩ := toBits_of_finite hy
  have hsame : b = b' ∧ f = f' := by
    split at hm <;> split at hm <;> simp only [Magnitude.mk.injEq] at hm <;> omega
  apply eq_of_toBits_eq
  apply UInt64.toNat_inj.1
  rw [hxbits, hybits, hsame.1, hsame.2]

/-- The bits of the exponent of a finite number are not all set. -/
theorem exists_finite {x : Float} (h : x.isFinite = true) : ∃ negative m, formOf x = .finite negative m := by
  have hexponent : x.toBits.toNat / 2 ^ 52 % 2 ^ 11 ≠ 2047 := by
    intro hall
    have hset : x.toModel.toBits.toBitVec.extractLsb 62 52 = -1#11 := by
      apply BitVec.eq_of_toNat_eq
      rw [BitVec.extractLsb_toNat, Nat.shiftRight_eq_div_pow]
      exact hall
    change (Float.Model.UnpackedFloat.unpack Float.Model.Format.binary64 x.toModel.toBits.toBitVec).isFinite = true at h
    unfold Float.Model.UnpackedFloat.unpack at h
    dsimp only at h
    split at h
    case isTrue => split at h <;> cases h
    case isFalse hunset => exact hunset hset
  unfold formOf
  simp only [Nat.pow_eq]
  rw [if_neg hexponent]
  split
  · exact ⟨_, _, rfl⟩
  · exact ⟨_, _, rfl⟩

/-! ## Listings -/

theorem Magnitude.value_of_whole? {m : Magnitude} {n : ℕ} (h : m.whole? = some n) : m.value = n := by
  unfold whole? at h
  simp only [Nat.pow_eq] at h
  rw [value, zpow_eq_div (by norm_num)]
  split at h
  case isTrue hexponent =>
    have hzero : (-m.exponent).toNat = 0 := by omega
    rw [hzero, ← Option.some.inj h]
    push_cast
    ring
  case isFalse hexponent =>
    have hzero : m.exponent.toNat = 0 := by omega
    split at h
    case isTrue hdvd =>
      rw [hzero, ← Option.some.inj h, Nat.cast_div (Nat.dvd_of_mod_eq_zero hdvd) (by positivity)]
      push_cast
      ring
    case isFalse => cases h

/-- The text of a finite number is its sign and digits for a rational that rounds to its magnitude. -/
theorem listing_of_finite {x : Float} {negative : Bool} {m : Magnitude} (h : formOf x = .finite negative m) :
    ∃ text v, (listing x).toList = (if negative then '-' :: text else text) ∧ Spells text v ∧ m.Rounds v := by
  have hcanonical := canonical_of_finite h
  unfold listing
  rw [h]
  dsimp only
  split
  case h_1 n hwhole =>
    refine ⟨_, _, ?_, spells_whole n, Magnitude.value_of_whole? hwhole ▸ m.rounds_value⟩
    cases negative <;> simp [signed]
  case h_2 =>
    refine ⟨_, _, ?_, (m.shortest .up).spells_positional, Magnitude.shortest_rounds hcanonical .up⟩
    rw [plain, h]
    cases negative <;> simp [signed]

/-- Different finite numbers have different texts. -/
theorem eq_of_listing_eq {x y : Float} (hx : x.isFinite = true) (hy : y.isFinite = true)
    (h : listing x = listing y) : x = y := by
  obtain ⟨negative, m, hformx⟩ := exists_finite hx
  obtain ⟨negative', m', hformy⟩ := exists_finite hy
  obtain ⟨text, v, htext, hspells, hrounds⟩ := listing_of_finite hformx
  obtain ⟨text', v', htext', hspells', hrounds'⟩ := listing_of_finite hformy
  have hsame : negative = negative' ∧ text = text' := by
    obtain ⟨c, rest, rfl, hc⟩ := hspells.first
    obtain ⟨c', rest', rfl, hc'⟩ := hspells'.first
    have hminus : ∀ c : Char, c.isDigit = true → '-' ≠ c := fun c hc heq => by rw [← heq] at hc; cases hc
    rw [h, htext'] at htext
    cases negative <;> cases negative' <;> simp_all
  obtain ⟨rfl, rfl⟩ := hsame
  obtain rfl := hspells.unique hspells'
  obtain rfl := hrounds.unique (canonical_of_finite hformx) (canonical_of_finite hformy) hrounds'
  exact eq_of_formOf_eq hformx hformy

end Lox.Numeral
