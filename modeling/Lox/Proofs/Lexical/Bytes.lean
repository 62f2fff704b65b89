import Mathlib
import Lox.Proofs.Lexical.Lexemes
import Lox.Token.Cursor

/-!
# The bytes of a text

A character below 128 is one byte, its own number. Of every other character all bytes are 128 or more. So a test
that does not tell characters from 128 on apart says the same of the bytes of a character as of the character itself,
and bytes read up to a mark end between two characters.
-/

namespace Lox.Cursor

/-- The bytes of one character, each as the character of its number. -/
def charBytes (x : Char) : List Char := (String.utf8EncodeChar x).map Char.ofUInt8

def octets (cs : List Char) : List Char := cs.flatMap charBytes

@[simp] theorem octets_nil : octets [] = [] := rfl

@[simp] theorem octets_cons (x : Char) (cs : List Char) : octets (x :: cs) = charBytes x ++ octets cs := rfl

@[simp] theorem octets_append (cs ds : List Char) : octets (cs ++ ds) = octets cs ++ octets ds :=
  List.flatMap_append

@[simp] theorem length_charBytes (x : Char) : (charBytes x).length = x.utf8Size := by
  simp [charBytes]

theorem charBytes_ne_nil (x : Char) : charBytes x ≠ [] := by
  rw [← List.length_pos_iff, length_charBytes]
  exact x.utf8Size_pos

theorem bytes_ofList (cs : List Char) : bytes (String.ofList cs) = octets cs := by
  simp only [bytes, String.toByteArray_ofList, List.utf8Encode, List.data_toByteArray,
    List.toList_toArray, List.map_flatMap]
  rfl

theorem bytes_eq_octets (source : String) : bytes source = octets source.toList := by
  rw [← bytes_ofList, String.ofList_toList]

theorem length_octets (cs : List Char) : (octets cs).length = (String.ofList cs).utf8ByteSize := by
  rw [← bytes_ofList, length_bytes]

/-- A character has at least one byte. -/
theorem length_le_octets (cs : List Char) : cs.length ≤ (octets cs).length := by
  induction cs with
  | nil => simp
  | cons x cs ih =>
    have := x.utf8Size_pos
    simp only [octets_cons, List.length_cons, List.length_append, length_charBytes]
    omega

/-! ## One byte, or several from 128 on -/

def IsWide (x : Char) : Prop := 128 ≤ x.toNat

instance : DecidablePred IsWide := fun x => inferInstanceAs (Decidable (128 ≤ x.toNat))

theorem charBytes_of_not_isWide {x : Char} (h : ¬ IsWide x) : charBytes x = [x] := by
  have hx : x.val.toNat ≤ 127 := Nat.le_of_lt_succ (Nat.not_le.1 h)
  have hsize : x.utf8Size = 1 := Char.utf8Size_eq_one_iff.2 (UInt32.le_iff_toNat_le.2 hx)
  have hback : Char.ofUInt8 x.val.toUInt8 = x := by
    apply Char.ext
    apply UInt32.toNat_inj.1
    show x.val.toUInt8.toNat = x.val.toNat
    rw [UInt32.toNat_toUInt8]
    omega
  rw [charBytes, String.utf8EncodeChar_eq_singleton hsize, List.map_singleton, hback]

theorem isWide_ofUInt8 {n : Nat} (hlow : 128 ≤ n) (hhigh : n < 256) :
    IsWide (Char.ofUInt8 (UInt8.ofNat n)) := by
  show 128 ≤ (UInt8.ofNat n).toNat
  rw [UInt8.toNat_ofNat']
  omega

theorem isWide_of_mem_charBytes {x y : Char} (h : IsWide x) (hy : y ∈ charBytes x) : IsWide y := by
  have hx : ¬ x.val.toNat ≤ 127 := fun hle => absurd h (Nat.not_le.2 (Nat.lt_succ_of_le hle))
  unfold charBytes String.utf8EncodeChar at hy
  simp only [if_neg hx] at hy
  -- two, three or four bytes
  split at hy
  · simp only [List.map_cons, List.map_nil, List.mem_cons, List.not_mem_nil, or_false] at hy
    rcases hy with rfl | rfl <;> apply isWide_ofUInt8 <;> omega
  split at hy
  · simp only [List.map_cons, List.map_nil, List.mem_cons, List.not_mem_nil, or_false] at hy
    rcases hy with rfl | rfl | rfl <;> apply isWide_ofUInt8 <;> omega
  · simp only [List.map_cons, List.map_nil, List.mem_cons, List.not_mem_nil, or_false] at hy
    rcases hy with rfl | rfl | rfl | rfl <;> apply isWide_ofUInt8 <;> omega

/-- The test does not tell characters from 128 on apart. -/
def Narrow (p : Char → Bool) : Prop := ∀ x y, IsWide x → IsWide y → p x = p y

namespace Narrow

variable {p : Char → Bool} (hp : Narrow p)
include hp

theorem charBytes {x y : Char} (hy : y ∈ charBytes x) : p y = p x := by
  by_cases hx : IsWide x
  · exact hp y x (isWide_of_mem_charBytes hx hy) hx
  · rw [charBytes_of_not_isWide hx] at hy
    rw [List.mem_singleton.1 hy]

theorem takeWhile_octets (cs : List Char) : (octets cs).takeWhile p = octets (cs.takeWhile p) := by
  induction cs with
  | nil => rfl
  | cons x cs ih =>
    rw [octets_cons, List.takeWhile_cons]
    split
    case isTrue hx =>
      rw [List.takeWhile_append_of_pos fun y hy => (hp.charBytes hy).trans hx, ih, octets_cons]
    case isFalse hx =>
      cases hb : Cursor.charBytes x with
      | nil => exact absurd hb (charBytes_ne_nil x)
      | cons y ys =>
        have hy : p y = p x := hp.charBytes (hb ▸ List.mem_cons_self)
        rw [List.cons_append, List.takeWhile_cons, if_neg (hy ▸ hx)]
        rfl

/-- The first byte, or zero if there is none, against the first character. -/
theorem headD_octets (hzero : p '\x00' = false) (cs : List Char) :
    p ((octets cs).headD '\x00') = cs.head?.any p := by
  cases cs with
  | nil => exact hzero
  | cons x cs =>
    cases hb : Cursor.charBytes x with
    | nil => exact absurd hb (charBytes_ne_nil x)
    | cons y ys =>
      rw [octets_cons, hb, List.cons_append, List.headD_cons, List.head?_cons, Option.any_some]
      exact hp.charBytes (hb ▸ List.mem_cons_self)

end Narrow

section

variable {x : Char} (h : IsWide x)
include h

theorem IsWide.ne {y : Char} (hy : ¬ IsWide y) : x ≠ y := fun heq => hy (heq ▸ h)

theorem IsWide.not_isDigit : x.isDigit = false := by
  unfold IsWide at h
  simp only [Char.isDigit, Bool.and_eq_false_iff, decide_eq_false_iff_not, UInt32.le_iff_toNat_le]
  right
  show ¬ x.toNat ≤ 57
  omega

theorem IsWide.not_isLetter : Scan.isLetter x = false := by
  rw [Bool.eq_false_iff]
  intro hx
  simp only [Scan.isLetter, Char.isAlpha, Char.isUpper, Char.isLower, Bool.or_eq_true, Bool.and_eq_true,
    decide_eq_true_eq, UInt32.le_iff_toNat_le, beq_iff_eq] at hx
  change ((65 ≤ x.toNat ∧ x.toNat ≤ 90) ∨ (97 ≤ x.toNat ∧ x.toNat ≤ 122)) ∨ x = '_' at hx
  unfold IsWide at h
  rcases hx with hx | rfl
  · omega
  · exact absurd h (by decide)

theorem IsWide.not_isWordRest : Scan.isWordRest x = false := by
  rw [Scan.isWordRest, h.not_isLetter, h.not_isDigit, Bool.or_false]

theorem IsWide.mark?_eq_none : Scan.mark? x = none := by
  unfold Scan.mark?
  split
  case h_16 => rfl
  all_goals exact absurd h (by decide)

end

theorem narrow_isDigit : Narrow Char.isDigit := fun _ _ hx hy => by rw [hx.not_isDigit, hy.not_isDigit]

theorem narrow_isWordRest : Narrow Scan.isWordRest := fun _ _ hx hy => by
  rw [hx.not_isWordRest, hy.not_isWordRest]

theorem narrow_beq {c : Char} (hc : ¬ IsWide c) : Narrow (· == c) := fun _ _ hx hy => by
  simp [hx.ne hc, hy.ne hc]

theorem narrow_ne {c : Char} (hc : ¬ IsWide c) : Narrow (· ≠ c) := fun _ _ hx hy => by
  simp [hx.ne hc, hy.ne hc]

/-- A narrow character comes first among the bytes exactly where it comes first in the text. -/
theorem head?_octets {c : Char} (hc : ¬ IsWide c) (cs : List Char) :
    (octets cs).head? = some c ↔ cs.head? = some c := by
  cases cs with
  | nil => rfl
  | cons x cs =>
    by_cases hx : IsWide x
    · have hne : ∀ y ∈ charBytes x, y ≠ c := fun y hy => (isWide_of_mem_charBytes hx hy).ne hc
      cases hb : charBytes x with
      | nil => exact absurd hb (charBytes_ne_nil x)
      | cons y ys =>
        rw [hb] at hne
        simp [hb, hne y List.mem_cons_self, hx.ne hc]
    · simp [charBytes_of_not_isWide hx]

theorem newlines_octets (cs : List Char) : Scan.newlines (octets cs) = Scan.newlines cs := by
  induction cs with
  | nil => rfl
  | cons x cs ih =>
    rw [octets_cons, Scan.newlines_append, ih]
    by_cases hx : IsWide x
    · have hnone : Scan.newlines (charBytes x) = 0 :=
        List.count_eq_zero.2 fun hy => (isWide_of_mem_charBytes hx hy).ne (by decide) rfl
      rw [hnone, Nat.zero_add, Scan.newlines_cons_of_ne (hx.ne (by decide))]
    · rw [charBytes_of_not_isWide hx, ← Scan.newlines_append]
      rfl

end Lox.Cursor
