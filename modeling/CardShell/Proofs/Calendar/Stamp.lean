import Mathlib
import CardShell.Calendar.Stamp
import CardShell.Proofs.Calendar.Seconds

/-!
Stamps and times. The fields of a time lie side by side in two words, so that words and fields tell
the same, but for odd seconds; and the more a field counts, the higher it lies, so that the words
are in the order of the times.
-/

set_option autoImplicit false

namespace CardShell

theorem daysInMonth_le (year month : Nat) : daysInMonth year month ≤ 31 := by
  unfold daysInMonth
  split
  · split <;> decide
  · split <;> decide

namespace DateTime

variable {t u : DateTime}

/-- Valid times in the years that stamps tell apart. -/
structure Stampable (t : DateTime) : Prop where
  valid : t.isValid = true
  from1980 : 1980 ≤ t.year
  to2107 : t.year ≤ 2107

theorem Stampable.day_le (h : t.Stampable) : t.day ≤ 31 :=
  Nat.le_trans (isValid_iff.mp h.valid).2.1.2 (daysInMonth_le t.year t.month)

/-- The last even second that is not after `t`. -/
def evened (t : DateTime) : DateTime := { t with second := t.second / 2 * 2 }

end DateTime

namespace Stamp

open DateTime

variable {t u : DateTime}

section Bits

/-- A field of `n` bits from bit `k` on, cut out where it lies and moved down. -/
theorem masked_shiftRight (a n k : Nat) : (a &&& (2 ^ n - 1) <<< k) >>> k = a / 2 ^ k % 2 ^ n := by
  rw [Nat.shiftRight_and_distrib, Nat.shiftLeft_shiftRight, Nat.and_two_pow_sub_one_eq_mod,
    Nat.shiftRight_eq_div_pow]

/-- Bits from bit `k` on and bits below it do not meet. -/
theorem shiftLeft_or {a b k : Nat} (h : b < 2 ^ k) : a <<< k ||| b = a * 2 ^ k + b := by
  rw [← Nat.shiftLeft_add_eq_or_of_lt h, Nat.shiftLeft_eq]

theorem toDateTime_eq_bits (s : Stamp) : s.toDateTime =
    ⟨((s.date &&& 0xFE00) >>> 9).toNat + 1980, ((s.date &&& 0x01E0) >>> 5).toNat,
      (s.date &&& 0x001F).toNat, ((s.time &&& 0xF800) >>> 11).toNat,
      ((s.time &&& 0x07E0) >>> 5).toNat, (s.time &&& 0x001F).toNat * 2⟩ := by
  have hdate := s.date.toNat_lt
  have htime := s.time.toNat_lt
  -- The highest fields are cut by the width of the word.
  have hyear : ((s.date &&& 0xFE00) >>> 9).toNat = s.date.toNat / 512 :=
    (masked_shiftRight s.date.toNat 7 9).trans (Nat.mod_eq_of_lt (by omega))
  have hhour : ((s.time &&& 0xF800) >>> 11).toNat = s.time.toNat / 2048 :=
    (masked_shiftRight s.time.toNat 5 11).trans (Nat.mod_eq_of_lt (by omega))
  have hmonth : ((s.date &&& 0x01E0) >>> 5).toNat = s.date.toNat / 32 % 16 :=
    masked_shiftRight s.date.toNat 4 5
  have hminute : ((s.time &&& 0x07E0) >>> 5).toNat = s.time.toNat / 32 % 64 :=
    masked_shiftRight s.time.toNat 6 5
  have hday : (s.date &&& 0x001F).toNat = s.date.toNat % 32 :=
    Nat.and_two_pow_sub_one_eq_mod s.date.toNat 5
  have hsecond : (s.time &&& 0x001F).toNat = s.time.toNat % 32 :=
    Nat.and_two_pow_sub_one_eq_mod s.time.toNat 5
  rw [hyear, hmonth, hday, hhour, hminute, hsecond]
  rfl

theorem toNat_date_ofDateTime (t : DateTime) : (ofDateTime t).date.toNat =
    min (t.year - 1980) 127 * 512 + t.month % 16 * 32 + t.day % 32 :=
  UInt16.toNat_ofNat_of_lt' (by unfold UInt16.size; omega)

theorem toNat_time_ofDateTime (t : DateTime) : (ofDateTime t).time.toNat =
    t.hour % 32 * 2048 + t.minute % 64 * 32 + t.second / 2 % 32 :=
  UInt16.toNat_ofNat_of_lt' (by unfold UInt16.size; omega)

theorem date_ofDateTime_eq_bits (t : DateTime) : (ofDateTime t).date.toNat =
    min (t.year - 1980) 127 <<< 9 ||| (t.month &&& 0x0F) <<< 5 ||| (t.day &&& 0x1F) := by
  have hmonth : t.month &&& 0x0F = t.month % 16 := Nat.and_two_pow_sub_one_eq_mod t.month 4
  have hday : t.day &&& 0x1F = t.day % 32 := Nat.and_two_pow_sub_one_eq_mod t.day 5
  rw [hmonth, hday, Nat.or_assoc, shiftLeft_or (k := 5) (by omega),
    shiftLeft_or (k := 9) (by omega), toNat_date_ofDateTime]
  omega

theorem time_ofDateTime_eq_bits (t : DateTime) : (ofDateTime t).time.toNat =
    (t.hour &&& 0x1F) <<< 11 ||| (t.minute &&& 0x3F) <<< 5 ||| (t.second / 2 &&& 0x1F) := by
  have hhour : t.hour &&& 0x1F = t.hour % 32 := Nat.and_two_pow_sub_one_eq_mod t.hour 5
  have hminute : t.minute &&& 0x3F = t.minute % 64 := Nat.and_two_pow_sub_one_eq_mod t.minute 6
  have hsecond : t.second / 2 &&& 0x1F = t.second / 2 % 32 :=
    Nat.and_two_pow_sub_one_eq_mod (t.second / 2) 5
  rw [hhour, hminute, hsecond, Nat.or_assoc, shiftLeft_or (k := 5) (by omega),
    shiftLeft_or (k := 11) (by omega), toNat_time_ofDateTime]
  omega

end Bits

section RoundTrip

theorem toNat_date_of_stampable (h : t.Stampable) :
    (ofDateTime t).date.toNat = (t.year - 1980) * 512 + t.month * 32 + t.day := by
  have hmonth := (isValid_iff.mp h.valid).1
  have hday := h.day_le
  have hyear := h.to2107
  rw [toNat_date_ofDateTime]
  omega

theorem toNat_time_of_stampable (h : t.Stampable) :
    (ofDateTime t).time.toNat = t.hour * 2048 + t.minute * 32 + t.second / 2 := by
  have hclock := (isValid_iff.mp h.valid).2.2
  rw [toNat_time_ofDateTime]
  omega

theorem toDateTime_ofDateTime (h : t.Stampable) : (ofDateTime t).toDateTime = t.evened := by
  obtain ⟨hmonth, -, hclock⟩ := isValid_iff.mp h.valid
  have hday := h.day_le
  have hyear := h.from1980
  simp only [toDateTime, year, month, day, hour, minute, second, toNat_date_of_stampable h,
    toNat_time_of_stampable h, evened, DateTime.mk.injEq]
  omega

theorem ofDateTime_toDateTime (s : Stamp) : ofDateTime s.toDateTime = s := by
  have hdate : (ofDateTime s.toDateTime).date = s.date := by
    rw [← UInt16.toNat_inj, toNat_date_ofDateTime]
    have hlt := s.date.toNat_lt
    simp only [toDateTime, year, month, day]
    omega
  have htime : (ofDateTime s.toDateTime).time = s.time := by
    rw [← UInt16.toNat_inj, toNat_time_ofDateTime]
    have hlt := s.time.toNat_lt
    simp only [toDateTime, hour, minute, second]
    omega
  calc ofDateTime s.toDateTime
      = ⟨(ofDateTime s.toDateTime).date, (ofDateTime s.toDateTime).time⟩ := rfl
    _ = s := by rw [hdate, htime]

end RoundTrip

section Order

/-- The date word is less, or it is the same and the time word is less. -/
def Before (s r : Stamp) : Prop := s.date < r.date ∨ s.date = r.date ∧ s.time < r.time

theorem date_lt_iff (ht : t.Stampable) (hu : u.Stampable) :
    (ofDateTime t).date < (ofDateTime u).date ↔ t.DateBefore u := by
  have htmonth := (isValid_iff.mp ht.valid).1
  have humonth := (isValid_iff.mp hu.valid).1
  have htday := ht.day_le
  have huday := hu.day_le
  have htyear := ht.from1980
  have huyear := hu.from1980
  rw [UInt16.lt_iff_toNat_lt, toNat_date_of_stampable ht, toNat_date_of_stampable hu]
  unfold DateBefore
  omega

theorem not_time_lt (ht : t.Stampable) (hu : u.Stampable) (hclock : t.ClockBefore u) :
    ¬ (ofDateTime u).time < (ofDateTime t).time := by
  have htclock := (isValid_iff.mp ht.valid).2.2
  have huclock := (isValid_iff.mp hu.valid).2.2
  rw [UInt16.lt_iff_toNat_lt, toNat_time_of_stampable ht, toNat_time_of_stampable hu]
  unfold ClockBefore at hclock
  omega

theorem not_before_of_before (ht : t.Stampable) (hu : u.Stampable) (h : t.Before u) :
    ¬ (ofDateTime u).Before (ofDateTime t) := by
  rintro (hdate | ⟨hsame, htime⟩)
  · have hback := (date_lt_iff hu ht).mp hdate
    obtain hfore | ⟨⟨hyear, hmonth, hday⟩, -⟩ := h
    · unfold DateBefore at hfore hback
      omega
    · unfold DateBefore at hback
      omega
  · obtain hfore | ⟨-, hclock⟩ := h
    · have hlt := (date_lt_iff ht hu).mpr hfore
      rw [hsame] at hlt
      exact UInt16.lt_irrefl _ hlt
    · exact not_time_lt ht hu hclock htime

/-- The times that stamps tell apart come back as their last even second, all stamps come back,
and a later time has no earlier stamp. -/
theorem stamps_and_times :
    (∀ t : DateTime, t.Stampable → (ofDateTime t).toDateTime = t.evened) ∧
    (∀ s : Stamp, ofDateTime s.toDateTime = s) ∧
    ∀ t u : DateTime, t.Stampable → u.Stampable → t.Before u →
      ¬ (ofDateTime u).Before (ofDateTime t) :=
  ⟨fun _ ht => toDateTime_ofDateTime ht, ofDateTime_toDateTime,
    fun _ _ ht hu hbefore => not_before_of_before ht hu hbefore⟩

/-- The last odd second of a leap day in the last leap year, and the first second after it. -/
theorem stamps_of_leap_day :
    Stampable ⟨2104, 2, 29, 23, 59, 59⟩ ∧
    ofDateTime ⟨2104, 2, 29, 23, 59, 59⟩ = ⟨0xF85D, 0xBF7D⟩ ∧
    toDateTime ⟨0xF85D, 0xBF7D⟩ = ⟨2104, 2, 29, 23, 59, 58⟩ ∧
    ofDateTime ⟨2104, 3, 1, 0, 0, 0⟩ = ⟨0xF861, 0⟩ ∧
    ¬ Before ⟨0xF861, 0⟩ ⟨0xF85D, 0xBF7D⟩ ∧
    -- No time has these words: month 15, day 31, hour 31, minute 63 and second 62.
    ofDateTime (toDateTime ⟨0xFFFF, 0xFFFF⟩) = ⟨0xFFFF, 0xFFFF⟩ := by
  have ht : Stampable ⟨2104, 2, 29, 23, 59, 59⟩ := ⟨by decide, by decide, by decide⟩
  have hu : Stampable ⟨2104, 3, 1, 0, 0, 0⟩ := ⟨by decide, by decide, by decide⟩
  have hts : ofDateTime ⟨2104, 2, 29, 23, 59, 59⟩ = ⟨0xF85D, 0xBF7D⟩ := by decide
  have hus : ofDateTime ⟨2104, 3, 1, 0, 0, 0⟩ = ⟨0xF861, 0⟩ := by decide
  have hbefore : DateTime.Before ⟨2104, 2, 29, 23, 59, 59⟩ ⟨2104, 3, 1, 0, 0, 0⟩ :=
    .inl (.inr ⟨rfl, .inl (by decide)⟩)
  obtain ⟨hthere, hback, horder⟩ := stamps_and_times
  exact ⟨ht, hts, hts ▸ hthere _ ht, hus, hts ▸ hus ▸ horder _ _ ht hu hbefore, hback _⟩

end Order

end Stamp

end CardShell
