import CardShell.Proofs.Calendar.Seconds
import Mathlib.Tactic.IntervalCases

/-!
Weekdays. The formula that lets years begin in March comes to counting the days from 1 January 1970,
a Thursday, so that the weekdays follow each other as the days do.
-/

set_option autoImplicit false

namespace CardShell.DateTime

variable {t u : DateTime}

theorem weekday_lt (t : DateTime) : t.weekday < dayNames.length :=
  Nat.mod_lt _ (by decide)

/-- A month that is none stands for the first or the last one. -/
theorem clampedMonth_lt (t : DateTime) : t.clampedMonth - 1 < monthNames.length := by
  have hnames : monthNames.length = 12 := rfl
  unfold clampedMonth
  omega

/-- What the table of months has to do with the days before a month. From March on the year as it is
written is counted, one more than before, and its leap day. -/
theorem monthOffsets_eq (year : Nat) {month : Nat} (h : 1 ≤ month) (h' : month ≤ 12) :
    sumFrom (daysInMonth year) 1 (month - 1) 0 % 7 =
      (monthOffsets.getD (month - 1) 0 +
        if month < 3 then 0 else 1 + if isLeap year then 1 else 0) % 7 := by
  cases hleap : isLeap year
  · interval_cases month <;> simp [sumFrom, daysInMonth, monthOffsets, hleap]
  · interval_cases month <;> simp [sumFrom, daysInMonth, monthOffsets, hleap]

theorem weekday_eq (h : t.isValid = true) (hyear : 1970 ≤ t.year) :
    t.weekday = (4 + t.dayCount) % 7 := by
  obtain ⟨hmonth, hday, _⟩ := isValid_iff.mp h
  have hcount := dayCount_add hyear
  have hinYear := (dayOfYear_falls h).total
  have hoffset := monthOffsets_eq t.year hmonth.1 hmonth.2
  have hleaps := leapsTo_succ (t.year - 1)
  have hfirst : leapsTo 1969 = 477 := by decide
  rw [Nat.sub_add_cancel (show 1 ≤ t.year by omega)] at hleaps
  unfold weekday
  rw [clampedMonth_of_isValid h]
  dsimp only
  generalize monthOffsets.getD (t.month - 1) 0 = offset at hoffset ⊢
  generalize sumFrom (daysInMonth t.year) 1 (t.month - 1) 0 = before at hoffset hinYear
  by_cases hearly : t.month < 3
  · rw [if_pos hearly] at hoffset ⊢
    have hformula : leapsTo (t.year - 1) = (t.year - 1) / 4 - (t.year - 1) / 100 + (t.year - 1) / 400 :=
      rfl
    omega
  · rw [if_neg hearly] at hoffset ⊢
    have hformula : leapsTo t.year = t.year / 4 - t.year / 100 + t.year / 400 := rfl
    omega

theorem toSeconds_div (h : t.isValid = true) : t.toSeconds / 86400 = t.dayCount := by
  have hlt := secondOfDay_lt h
  rw [toSeconds_eq]
  omega

/-- `u` is on the day after `t`: the next day of the month, or the first one of the next month, or
New Year's Day. -/
def NextDay (t u : DateTime) : Prop :=
  u.year = t.year ∧ u.month = t.month ∧ u.day = t.day + 1 ∨
  u.year = t.year ∧ u.month = t.month + 1 ∧ t.day = daysInMonth t.year t.month ∧ u.day = 1 ∨
  u.year = t.year + 1 ∧ t.month = 12 ∧ t.day = 31 ∧ u.month = 1 ∧ u.day = 1

instance (t u : DateTime) : Decidable (t.NextDay u) :=
  inferInstanceAs (Decidable (_ ∧ _ ∧ _ ∨ _ ∧ _ ∧ _ ∧ _ ∨ _ ∧ _ ∧ _ ∧ _ ∧ _))

theorem dayCount_of_nextDay (ht : t.isValid = true) (hu : u.isValid = true) (hyear : 1970 ≤ t.year)
    (h : t.NextDay u) : u.dayCount = t.dayCount + 1 := by
  obtain ⟨hmonth, hday, _⟩ := isValid_iff.mp ht
  have htotal := (dayOfYear_falls ht).total
  have htotal' := (dayOfYear_falls hu).total
  have hdays := dayCount_eq t
  have hdays' := dayCount_eq u
  rcases h with ⟨hy, hm, hd⟩ | ⟨hy, hm, hlast, hd⟩ | ⟨hy, htm, hlast, hm, hd⟩
  · rw [hy, hm] at htotal'
    rw [hy] at hdays'
    omega
  · have hmonths := sumFrom_concat (daysInMonth t.year) 1 (t.month - 1)
    rw [Nat.add_sub_cancel' hmonth.1, Nat.sub_add_cancel hmonth.1] at hmonths
    rw [hy, hm, Nat.add_sub_cancel] at htotal'
    rw [hy] at hdays'
    omega
  · -- December ends with the year.
    have hyears := sumFrom_concat daysInYear 1970 (t.year - 1970)
    have hmonths := sumFrom_concat (daysInMonth t.year) 1 11
    have hdecember : daysInMonth t.year 12 = 31 := by simp [daysInMonth]
    rw [Nat.add_sub_cancel' hyear, ← Nat.sub_add_comm hyear, ← hy] at hyears
    rw [show 1 + 11 = 12 from rfl, sumFrom_daysInMonth, hdecember] at hmonths
    rw [htm, show 12 - 1 = 11 from rfl] at htotal
    rw [hm, Nat.sub_self, sumFrom] at htotal'
    omega

/-- The weekday is the one that counting days from 1 January 1970 comes to, and the next day has the
next weekday, wherever a month, a year or a century ends. -/
theorem weekday_counted :
    (∀ t : DateTime, t.isValid = true → 1970 ≤ t.year →
      t.weekday = (4 + t.toSeconds / 86400) % 7) ∧
    ∀ t u : DateTime, t.isValid = true → u.isValid = true → 1970 ≤ t.year → t.NextDay u →
      u.weekday = (t.weekday + 1) % 7 := by
  refine ⟨fun t ht hyear => ?_, fun t u ht hu hyear hnext => ?_⟩
  · rw [weekday_eq ht hyear, toSeconds_div ht]
  · have hcount := dayCount_of_nextDay ht hu hyear hnext
    have hyear' : 1970 ≤ u.year := by
      unfold NextDay at hnext
      omega
    rw [weekday_eq ht hyear, weekday_eq hu hyear', hcount]
    omega

/-- The end of February in a century year that is no leap year, and the day after it. -/
theorem weekday_of_february_2100 :
    let t : DateTime := ⟨2100, 2, 28, 12, 0, 0⟩
    let u : DateTime := ⟨2100, 3, 1, 0, 0, 0⟩
    t.isValid = true ∧ u.isValid = true ∧ t.NextDay u ∧
      t.weekday = (4 + t.toSeconds / 86400) % 7 ∧ u.weekday = (t.weekday + 1) % 7 := by
  intro t u
  have ht : t.isValid = true := by decide
  have hu : u.isValid = true := by decide
  have hnext : t.NextDay u := by decide
  exact ⟨ht, hu, hnext, weekday_counted.1 t ht (by decide),
    weekday_counted.2 t u ht hu (by decide) hnext⟩

end CardShell.DateTime
