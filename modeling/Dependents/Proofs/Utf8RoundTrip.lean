import Dependents.Text.Utf8
import Mathlib.Data.List.Basic

/-! The bytes of a text are read back as that text. -/
namespace Dependents.Text

variable {n : Nat} {b b1 b2 b3 : UInt8}

theorem toNat_toUInt8 (n : Nat) (h : n < 256) : n.toUInt8.toNat = n := by
  simp [Nat.mod_eq_of_lt h]

theorem within_iff {low high : Nat} : within low high b = true ↔ low ≤ b.toNat ∧ b.toNat ≤ high := by
  simp [within]

theorem secondRange_eq (b : UInt8) : secondRange b =
    if b.toNat = 0xe0 then (0xa0, 0xbf) else if b.toNat = 0xed then (0x80, 0x9f)
    else if b.toNat = 0xf0 then (0x90, 0xbf) else if b.toNat = 0xf4 then (0x80, 0x8f)
    else (0x80, 0xbf) := by
  unfold secondRange
  split <;> simp_all

theorem lead_one (h : b.toNat < 0x80) (rest : List UInt8) :
    lead b rest = .char (Char.ofNat b.toNat) 1 := by
  unfold lead
  rw [if_pos h]

theorem lead_two (h : 0xc2 ≤ b.toNat ∧ b.toNat ≤ 0xdf) (h1 : 0x80 ≤ b1.toNat ∧ b1.toNat ≤ 0xbf)
    (rest : List UInt8) :
    lead b (b1 :: rest) = .char (Char.ofNat ((b.toNat - 0xc0) * 0x40 + payload b1)) 2 := by
  have hone : ¬ b.toNat < 0x80 := by omega
  simp only [lead, if_neg hone, within_iff.2 h, within_iff.2 h1, if_true]

theorem lead_three (h : 0xe0 ≤ b.toNat ∧ b.toNat ≤ 0xef)
    (h1 : (secondRange b).1 ≤ b1.toNat ∧ b1.toNat ≤ (secondRange b).2)
    (h2 : 0x80 ≤ b2.toNat ∧ b2.toNat ≤ 0xbf) (rest : List UInt8) : lead b (b1 :: b2 :: rest) =
      .char (Char.ofNat ((b.toNat - 0xe0) * 0x1000 + payload b1 * 0x40 + payload b2)) 3 := by
  have hone : ¬ b.toNat < 0x80 := by omega
  have htwo : ¬ within 0xc2 0xdf b = true := by rw [within_iff]; omega
  simp only [lead, if_neg hone, if_neg htwo, within_iff.2 h, within_iff.2 h1, within_iff.2 h2, if_true]

theorem lead_four (h : 0xf0 ≤ b.toNat ∧ b.toNat ≤ 0xf4)
    (h1 : (secondRange b).1 ≤ b1.toNat ∧ b1.toNat ≤ (secondRange b).2)
    (h2 : 0x80 ≤ b2.toNat ∧ b2.toNat ≤ 0xbf) (h3 : 0x80 ≤ b3.toNat ∧ b3.toNat ≤ 0xbf)
    (rest : List UInt8) : lead b (b1 :: b2 :: b3 :: rest) =
      .char (Char.ofNat ((b.toNat - 0xf0) * 0x40000 + payload b1 * 0x1000 + payload b2 * 0x40
        + payload b3)) 4 := by
  have hone : ¬ b.toNat < 0x80 := by omega
  have htwo : ¬ within 0xc2 0xdf b = true := by rw [within_iff]; omega
  have hthree : ¬ within 0xe0 0xef b = true := by rw [within_iff]; omega
  simp only [lead, if_neg hone, if_neg htwo, if_neg hthree, within_iff.2 h, within_iff.2 h1,
    within_iff.2 h2, within_iff.2 h3, if_true]

/-- Characters are the numbers below `0x110000` without the surrogates. -/
theorem char_range (c : Char) : c.toNat < 0xd800 ∨ 0xdfff < c.toNat ∧ c.toNat < 0x110000 :=
  c.valid

/-- The bytes of a character are read as that character, whatever follows. -/
theorem lead_charBytes (c : Char) : ∃ b more, charBytes c = b :: more ∧
    ∀ rest, lead b (more ++ rest) = .char c (more.length + 1) := by
  have hrange := char_range c
  have hback : Char.ofNat c.toNat = c := Char.ofNat_toNat c
  unfold charBytes
  generalize c.toNat = n at hrange hback
  simp only
  split_ifs with hone htwo hthree
  · have hb := toNat_toUInt8 n (by omega)
    refine ⟨_, _, rfl, fun rest => ?_⟩
    rw [List.nil_append, lead_one (by omega), hb, hback]
    rfl
  · have hb := toNat_toUInt8 (0xc0 + n / 0x40) (by omega)
    have hb1 := toNat_toUInt8 (0x80 + n % 0x40) (by omega)
    generalize (0xc0 + n / 0x40).toUInt8 = b at hb
    generalize (0x80 + n % 0x40).toUInt8 = b1 at hb1
    have hsum : (b.toNat - 0xc0) * 0x40 + payload b1 = n := by
      unfold payload
      omega
    refine ⟨_, _, rfl, fun rest => ?_⟩
    rw [List.cons_append, lead_two (by omega) (by omega), hsum, hback]
    rfl
  · have hb := toNat_toUInt8 (0xe0 + n / 0x1000) (by omega)
    have hb1 := toNat_toUInt8 (0x80 + n / 0x40 % 0x40) (by omega)
    have hb2 := toNat_toUInt8 (0x80 + n % 0x40) (by omega)
    generalize (0xe0 + n / 0x1000).toUInt8 = b at hb
    generalize (0x80 + n / 0x40 % 0x40).toUInt8 = b1 at hb1
    generalize (0x80 + n % 0x40).toUInt8 = b2 at hb2
    have hsecond : (secondRange b).1 ≤ b1.toNat ∧ b1.toNat ≤ (secondRange b).2 := by
      rw [secondRange_eq, hb, hb1]
      split_ifs <;> simp only <;> omega
    have hsum : (b.toNat - 0xe0) * 0x1000 + payload b1 * 0x40 + payload b2 = n := by
      unfold payload
      omega
    refine ⟨_, _, rfl, fun rest => ?_⟩
    rw [List.cons_append, List.cons_append, lead_three (by omega) hsecond (by omega), hsum, hback]
    rfl
  · have hb := toNat_toUInt8 (0xf0 + n / 0x40000) (by omega)
    have hb1 := toNat_toUInt8 (0x80 + n / 0x1000 % 0x40) (by omega)
    have hb2 := toNat_toUInt8 (0x80 + n / 0x40 % 0x40) (by omega)
    have hb3 := toNat_toUInt8 (0x80 + n % 0x40) (by omega)
    generalize (0xf0 + n / 0x40000).toUInt8 = b at hb
    generalize (0x80 + n / 0x1000 % 0x40).toUInt8 = b1 at hb1
    generalize (0x80 + n / 0x40 % 0x40).toUInt8 = b2 at hb2
    generalize (0x80 + n % 0x40).toUInt8 = b3 at hb3
    have hsecond : (secondRange b).1 ≤ b1.toNat ∧ b1.toNat ≤ (secondRange b).2 := by
      rw [secondRange_eq, hb, hb1]
      split_ifs <;> simp only <;> omega
    have hsum : (b.toNat - 0xf0) * 0x40000 + payload b1 * 0x1000 + payload b2 * 0x40 + payload b3 = n := by
      unfold payload
      omega
    refine ⟨_, _, rfl, fun rest => ?_⟩
    rw [List.cons_append, List.cons_append, List.cons_append,
      lead_four (by omega) hsecond (by omega) (by omega), hsum, hback]
    rfl

theorem decodeChars?_bytesOf (cs : List Char) : decodeChars? (bytesOf cs) = some cs := by
  induction cs with
  | nil => simp [bytesOf, decodeChars?]
  | cons c cs ih =>
    obtain ⟨b, more, hbytes, hlead⟩ := lead_charBytes c
    have hsplit : bytesOf (c :: cs) = b :: (more ++ bytesOf cs) := by
      simp [bytesOf, hbytes]
    rw [hsplit, decodeChars?, hlead]
    simp [ih]

theorem decode?_utf8 (s : String) : decode? (utf8 s) = some s := by
  simp [decode?, utf8, decodeChars?_bytesOf]

end Dependents.Text
