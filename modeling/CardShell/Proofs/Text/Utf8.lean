import CardShell.Proofs.Text.Case
import CardShell.Text.Utf8
import Mathlib.Tactic.SplitIfs

/-!
The bytes of a text. A character below 128 is one byte, itself; any other is a lead byte and tails,
all from 128 on. So what a text is read back from its bytes as is the text, and a byte below 128 at
any offset is a character.
-/

set_option autoImplicit false

namespace CardShell

namespace Text

variable {c : Char} {t : Text} {b : UInt8} {r : List UInt8}

theorem bytes_cons (c : Char) (t : Text) : bytes (c :: t) = String.utf8EncodeChar c ++ bytes t :=
  List.flatMap_cons

theorem bytes_append (s t : Text) : bytes (s ++ t) = bytes s ++ bytes t := List.flatMap_append

theorem utf8Size_of_lt (h : c.toNat < 0x80) : c.utf8Size = 1 :=
  Char.utf8Size_eq_one_iff.mpr (UInt32.le_iff_toNat_le.mpr (Nat.le_of_lt_succ h))

/-- Characters are no surrogates. -/
theorem toNat_valid (c : Char) : c.toNat < 0xD800 ∨ 0xDFFF < c.toNat ∧ c.toNat < 0x110000 := c.valid

/-- The bytes of a character, by the length of the sequence. -/
theorem utf8EncodeChar_cases (c : Char) :
    (c.toNat < 0x80 ∧ String.utf8EncodeChar c = [UInt8.ofNat c.toNat]) ∨
    (0x80 ≤ c.toNat ∧ c.toNat < 0x800 ∧ String.utf8EncodeChar c =
      [UInt8.ofNat (c.toNat / 64 % 32 + 0xC0), UInt8.ofNat (c.toNat % 64 + 0x80)]) ∨
    (0x800 ≤ c.toNat ∧ c.toNat < 0x10000 ∧ String.utf8EncodeChar c =
      [UInt8.ofNat (c.toNat / 4096 % 16 + 0xE0), UInt8.ofNat (c.toNat / 64 % 64 + 0x80),
        UInt8.ofNat (c.toNat % 64 + 0x80)]) ∨
    (0x10000 ≤ c.toNat ∧ c.toNat < 0x110000 ∧ String.utf8EncodeChar c =
      [UInt8.ofNat (c.toNat / 262144 % 8 + 0xF0), UInt8.ofNat (c.toNat / 4096 % 64 + 0x80),
        UInt8.ofNat (c.toNat / 64 % 64 + 0x80), UInt8.ofNat (c.toNat % 64 + 0x80)]) := by
  have hvalid := toNat_valid c
  have hval : c.val.toNat = c.toNat := rfl
  unfold String.utf8EncodeChar
  rw [hval]
  dsimp only
  split_ifs with h1 h2 h3
  · exact Or.inl ⟨Nat.lt_succ_of_le h1, rfl⟩
  · exact Or.inr (Or.inl ⟨Nat.lt_of_not_le h1, Nat.lt_succ_of_le h2, rfl⟩)
  · exact Or.inr (Or.inr (Or.inl ⟨Nat.lt_of_not_le h2, Nat.lt_succ_of_le h3, rfl⟩))
  · exact Or.inr (Or.inr (Or.inr ⟨Nat.lt_of_not_le h3, by omega, rfl⟩))

theorem utf8EncodeChar_of_lt (h : c.toNat < 0x80) :
    String.utf8EncodeChar c = [UInt8.ofNat c.toNat] := by
  rcases utf8EncodeChar_cases c with ⟨_, he⟩ | ⟨hle, _⟩ | ⟨hle, _⟩ | ⟨hle, _⟩
  · exact he
  all_goals omega

theorem toNat_ofNat_of_lt {n : Nat} (h : n < 256) : (UInt8.ofNat n).toNat = n :=
  UInt8.toNat_ofNat_of_lt' h

/-- A character from 128 on begins with two bytes that are. -/
theorem utf8EncodeChar_of_le (h : 0x80 ≤ c.toNat) : ∃ b b' r, String.utf8EncodeChar c = b :: b' :: r ∧
    ∀ d ∈ b :: b' :: r, 0x80 ≤ d.toNat := by
  rcases utf8EncodeChar_cases c with ⟨hlt, _⟩ | ⟨_, _, he⟩ | ⟨_, _, he⟩ | ⟨_, _, he⟩
  · omega
  all_goals
    refine ⟨_, _, _, he, ?_⟩
    simp only [List.forall_mem_cons, List.not_mem_nil, false_imp_iff, implies_true, and_true]
    repeat rw [toNat_ofNat_of_lt (by omega)]
    omega

/-- A byte below 128 is that of a character. -/
theorem mem_bytes_iff {d : Char} (hd : d.toNat = b.toNat) (hb : b.toNat < 0x80) :
    b ∈ bytes t ↔ d ∈ t := by
  have hchar : ∀ c, b ∈ String.utf8EncodeChar c ↔ c = d := by
    intro c
    rcases Nat.lt_or_ge c.toNat 0x80 with hc | hc
    · rw [utf8EncodeChar_of_lt hc, List.mem_singleton, ← UInt8.toNat_inj,
        toNat_ofNat_of_lt (Nat.lt_trans hc (by decide)), ← hd, eq_comm]
      exact ⟨char_eq_of_toNat, congrArg Char.toNat⟩
    · obtain ⟨a, a', v, he, hall⟩ := utf8EncodeChar_of_le hc
      refine iff_of_false (fun hmem => ?_) fun he => ?_
      · exact absurd (hall b (he ▸ hmem)) (Nat.not_le.mpr hb)
      · rw [he] at hc
        omega
  unfold bytes
  rw [List.mem_flatMap]
  constructor
  · rintro ⟨c, hc, hmem⟩
    exact (hchar c).mp hmem ▸ hc
  · exact fun h => ⟨d, h, (hchar d).mpr rfl⟩

/-- A byte below 128 in front is a character. -/
theorem eq_cons_of_bytes (h : bytes t = b :: r) (hb : b.toNat < 0x80) :
    ∃ c u, t = c :: u ∧ c.toNat = b.toNat ∧ bytes u = r := by
  cases t with
  | nil => cases h
  | cons c u =>
    rw [bytes_cons] at h
    rcases Nat.lt_or_ge c.toNat 0x80 with hc | hc
    · rw [utf8EncodeChar_of_lt hc] at h
      obtain ⟨rfl, hr⟩ := List.cons.inj h
      exact ⟨c, u, rfl, (toNat_ofNat_of_lt (by omega)).symm, hr⟩
    · obtain ⟨a, a', v, he, hall⟩ := utf8EncodeChar_of_le hc
      rw [he] at h
      obtain ⟨rfl, _⟩ := List.cons.inj h
      exact absurd (hall a List.mem_cons_self) (Nat.not_le.mpr hb)

/-- A byte with one below 128 right behind it is a character. -/
theorem eq_cons_of_second_byte {b' : UInt8} (h : bytes t = b :: b' :: r) (hb : b'.toNat < 0x80) :
    ∃ c u, t = c :: u ∧ c.toNat < 0x80 ∧ bytes u = b' :: r := by
  cases t with
  | nil => cases h
  | cons c u =>
    rw [bytes_cons] at h
    rcases Nat.lt_or_ge c.toNat 0x80 with hc | hc
    · rw [utf8EncodeChar_of_lt hc] at h
      exact ⟨c, u, rfl, hc, (List.cons.inj h).2⟩
    · obtain ⟨a, a', v, he, hall⟩ := utf8EncodeChar_of_le hc
      rw [he] at h
      obtain ⟨_, hrest⟩ := List.cons.inj h
      obtain ⟨rfl, _⟩ := List.cons.inj hrest
      exact absurd (hall a' (List.mem_cons_of_mem _ List.mem_cons_self)) (Nat.not_le.mpr hb)

end Text

namespace Utf8

variable {a b c d : UInt8} {r : List UInt8}

theorem isTail_iff : isTail b = true ↔ 0x80 ≤ b.toNat ∧ b.toNat ≤ 0xBF := by
  simp [isTail, UInt8.le_iff_toNat_le]

/-- What may follow a lead byte, by the number of the byte. -/
theorem isSecond_iff : isSecond a b = true ↔
    0xC2 ≤ a.toNat ∧ a.toNat ≤ 0xF4 ∧ 0x80 ≤ b.toNat ∧ b.toNat ≤ 0xBF ∧
      (a.toNat = 0xE0 → 0xA0 ≤ b.toNat) ∧ (a.toNat = 0xED → b.toNat ≤ 0x9F) ∧
      (a.toNat = 0xF0 → 0x90 ≤ b.toNat) ∧ (a.toNat = 0xF4 → b.toNat ≤ 0x8F) := by
  unfold isSecond secondRange
  simp only [Bool.and_eq_true, decide_eq_true_eq, beq_iff_eq, UInt8.le_iff_toNat_le,
    ← UInt8.toNat_inj, UInt8.reduceToNat]
  split_ifs <;>
    simp only [Bool.and_eq_true, decide_eq_true_eq, UInt8.reduceToNat, false_iff] <;>
    omega

theorem not_lt_of_le {n : Nat} (h : n ≤ a.toNat) (hb : b.toNat = n) : ¬ a < b :=
  UInt8.not_lt.mpr (UInt8.le_iff_toNat_le.mpr (Nat.le_trans (Nat.le_of_eq hb) h))

theorem decode_one (h : a.toNat < 0x80) :
    decode (a :: r) = some (Char.ofNat a.toNat) :: decode r := by
  have hlt : a < 0x80 := UInt8.lt_iff_toNat_lt.mpr h
  rw [decode.eq_def]
  exact if_pos hlt

theorem decode_two (h : isSecond a b = true) (ha : a.toNat < 0xE0) :
    decode (a :: b :: r) = some (Char.ofNat (a.toNat % 32 * 64 + low6 b)) :: decode r := by
  have hlead : ¬ a < 0x80 := not_lt_of_le (Nat.le_trans (by decide) (isSecond_iff.mp h).1) rfl
  have hlt : a < 0xE0 := UInt8.lt_iff_toNat_lt.mpr ha
  rw [decode.eq_def]
  dsimp only
  rw [if_neg hlead, if_pos h, if_pos hlt]

theorem decode_three (h : isSecond a b = true) (hc : isTail c = true) (ha : 0xE0 ≤ a.toNat)
    (ha' : a.toNat < 0xF0) : decode (a :: b :: c :: r) =
      some (Char.ofNat ((a.toNat % 16 * 64 + low6 b) * 64 + low6 c)) :: decode r := by
  have hlead : ¬ a < 0x80 := not_lt_of_le (Nat.le_trans (by decide) ha) rfl
  have hge : ¬ a < 0xE0 := not_lt_of_le ha rfl
  have hlt : a < 0xF0 := UInt8.lt_iff_toNat_lt.mpr ha'
  rw [decode.eq_def]
  dsimp only
  rw [if_neg hlead, if_pos h, if_neg hge, if_pos hc, if_pos hlt]

theorem decode_four (h : isSecond a b = true) (hc : isTail c = true) (hd : isTail d = true)
    (ha : 0xF0 ≤ a.toNat) : decode (a :: b :: c :: d :: r) =
      some (Char.ofNat (((a.toNat % 8 * 64 + low6 b) * 64 + low6 c) * 64 + low6 d)) :: decode r := by
  have hlead : ¬ a < 0x80 := not_lt_of_le (Nat.le_trans (by decide) ha) rfl
  have hge : ¬ a < 0xE0 := not_lt_of_le (Nat.le_trans (by decide) ha) rfl
  have hge' : ¬ a < 0xF0 := not_lt_of_le ha rfl
  rw [decode.eq_def]
  dsimp only
  rw [if_neg hlead, if_pos h, if_neg hge, if_pos hc, if_neg hge', if_pos hd]

/-- Reading takes the bytes of a character off at once, whatever is behind them. -/
theorem decode_utf8EncodeChar (c : Char) (r : List UInt8) :
    decode (String.utf8EncodeChar c ++ r) = some c :: decode r := by
  have hvalid := Text.toNat_valid c
  have hchar : ∀ {n : Nat}, n = c.toNat → Char.ofNat n = c := by
    rintro n rfl
    exact Char.ofNat_toNat c
  rcases Text.utf8EncodeChar_cases c with ⟨hlt, he⟩ | ⟨hle, hlt, he⟩ | ⟨hle, hlt, he⟩ |
    ⟨hle, hlt, he⟩
  · have ha := Text.toNat_ofNat_of_lt (n := c.toNat) (by omega)
    rw [he, List.singleton_append, decode_one (by omega), hchar ha]
  · have ha := Text.toNat_ofNat_of_lt (n := c.toNat / 64 % 32 + 0xC0) (by omega)
    have hb := Text.toNat_ofNat_of_lt (n := c.toNat % 64 + 0x80) (by omega)
    have hsecond := isSecond_iff (a := UInt8.ofNat (c.toNat / 64 % 32 + 0xC0))
      (b := UInt8.ofNat (c.toNat % 64 + 0x80))
    rw [ha, hb] at hsecond
    rw [he, List.cons_append, List.singleton_append,
      decode_two (hsecond.mpr (by omega)) (by omega), low6, ha, hb, hchar (by omega)]
  · have ha := Text.toNat_ofNat_of_lt (n := c.toNat / 4096 % 16 + 0xE0) (by omega)
    have hb := Text.toNat_ofNat_of_lt (n := c.toNat / 64 % 64 + 0x80) (by omega)
    have hc := Text.toNat_ofNat_of_lt (n := c.toNat % 64 + 0x80) (by omega)
    have hsecond := isSecond_iff (a := UInt8.ofNat (c.toNat / 4096 % 16 + 0xE0))
      (b := UInt8.ofNat (c.toNat / 64 % 64 + 0x80))
    rw [ha, hb] at hsecond
    rw [he, List.cons_append, List.cons_append, List.singleton_append,
      decode_three (hsecond.mpr (by omega)) (isTail_iff.mpr (by omega)) (by omega) (by omega),
      low6, low6, ha, hb, hc, hchar (by omega)]
  · have ha := Text.toNat_ofNat_of_lt (n := c.toNat / 262144 % 8 + 0xF0) (by omega)
    have hb := Text.toNat_ofNat_of_lt (n := c.toNat / 4096 % 64 + 0x80) (by omega)
    have hc := Text.toNat_ofNat_of_lt (n := c.toNat / 64 % 64 + 0x80) (by omega)
    have hd := Text.toNat_ofNat_of_lt (n := c.toNat % 64 + 0x80) (by omega)
    have hsecond := isSecond_iff (a := UInt8.ofNat (c.toNat / 262144 % 8 + 0xF0))
      (b := UInt8.ofNat (c.toNat / 4096 % 64 + 0x80))
    rw [ha, hb] at hsecond
    rw [he, List.cons_append, List.cons_append, List.cons_append, List.singleton_append,
      decode_four (hsecond.mpr (by omega)) (isTail_iff.mpr (by omega)) (isTail_iff.mpr (by omega))
        (by omega), low6, low6, low6, ha, hb, hc, hd, hchar (by omega)]

theorem decode_bytes (t : Text) : decode t.bytes = t.map some := by
  induction t with
  | nil => rfl
  | cons c t ih => rw [Text.bytes_cons, decode_utf8EncodeChar, ih, List.map_cons]

theorem text?_bytes (t : Text) : text? t.bytes = some t := by
  rw [text?, decode_bytes]
  induction t with
  | nil => rfl
  | cons c t ih =>
    rw [List.map_cons, List.mapM_cons, ih]
    rfl

end Utf8

end CardShell
