import CardShell.Calendar.DateTime

/-!
Times and seconds. A count of days falls into one year, and what is left of it into one month, so
that a count and a date say the same. Both are in the same order, and therefore each time has one
count of seconds and each count one time.
-/

set_option autoImplicit false

namespace CardShell

section TakingOff

section Sums

variable (f : Nat → Nat)

theorem sumFrom_acc (first count acc : Nat) :
    sumFrom f first count acc = acc + sumFrom f first count 0 := by
  induction count generalizing first acc with
  | zero => rfl
  | succ count ih =>
    rw [sumFrom, sumFrom, ih (first + 1) (acc + f first), ih (first + 1) (0 + f first)]
    omega

theorem sumFrom_succ (first count : Nat) :
    sumFrom f first (count + 1) 0 = f first + sumFrom f (first + 1) count 0 := by
  rw [sumFrom, sumFrom_acc, Nat.zero_add]

theorem sumFrom_concat (first count : Nat) :
    sumFrom f first (count + 1) 0 = sumFrom f first count 0 + f (first + count) := by
  induction count generalizing first with
  | zero => simp [sumFrom]
  | succ count ih =>
    have hindex : first + 1 + count = first + (count + 1) := by omega
    rw [sumFrom_succ, ih, sumFrom_succ f first count, hindex]
    omega

theorem sumFrom_le (first : Nat) {n m : Nat} (h : n ≤ m) : sumFrom f first n 0 ≤ sumFrom f first m 0 := by
  induction h with
  | refl => exact Nat.le_refl _
  | step _ ih =>
    rw [sumFrom_concat]
    omega

end Sums

/-- Periods follow each other from number `first` on, and period `k` has `f k` days: day `days`,
counted from the first one, is day `rest` of period `first + n`. -/
structure Falls (f : Nat → Nat) (first days n rest : Nat) : Prop where
  total : days = sumFrom f first n 0 + rest
  within : rest < f (first + n)

namespace Falls

variable {f : Nat → Nat} {first days days' n n' rest rest' : Nat}

theorem here (h : days < f first) : Falls f first days 0 days :=
  ⟨(Nat.zero_add days).symm, h⟩

/-- A period that is over is taken off. -/
theorem later (hd : ¬ days < f first) (h : Falls f (first + 1) (days - f first) n rest) :
    Falls f first days (n + 1) rest := by
  refine ⟨?_, ?_⟩
  · have htotal := h.total
    rw [sumFrom_succ]
    omega
  · have hwithin := h.within
    rwa [Nat.add_assoc, Nat.add_comm 1 n] at hwithin

/-- The day comes before the next period. -/
theorem lt_sum (h : Falls f first days n rest) : days < sumFrom f first (n + 1) 0 := by
  rw [sumFrom_concat, h.total]
  exact Nat.add_lt_add_left h.within _

theorem lt_of_lt (h : Falls f first days n rest) (h' : Falls f first days' n' rest') (hn : n < n') :
    days < days' := by
  have hle := sumFrom_le f first (show n + 1 ≤ n' from hn)
  have hlt := h.lt_sum
  have htotal := h'.total
  omega

/-- Days are in the order of their periods, and within a period of their places in it. -/
theorem lt_iff (h : Falls f first days n rest) (h' : Falls f first days' n' rest') :
    days < days' ↔ n < n' ∨ n = n' ∧ rest < rest' := by
  rcases Nat.lt_trichotomy n n' with hlt | rfl | hgt
  · have hdays := h.lt_of_lt h' hlt
    omega
  · have htotal := h.total
    have htotal' := h'.total
    omega
  · have hdays := h'.lt_of_lt h hgt
    omega

end Falls

end TakingOff

theorem takeYears_falls (year days : Nat) :
    ∃ n rest, takeYears year days = (year + n, rest) ∧ Falls daysInYear year days n rest := by
  induction year, days using takeYears.induct with
  | case1 year days h =>
    rw [takeYears, if_pos h]
    exact ⟨0, days, rfl, .here h⟩
  | case2 year days h ih =>
    obtain ⟨n, rest, hx, hfalls⟩ := ih
    rw [takeYears, if_neg h, hx]
    refine ⟨n + 1, rest, ?_, hfalls.later h⟩
    rw [Nat.add_assoc, Nat.add_comm 1 n]

theorem takeMonths_falls (year left month days : Nat)
    (h : days < sumFrom (daysInMonth year) month (left + 1) 0) :
    ∃ n rest, n ≤ left ∧ takeMonths year left month days = (month + n, rest + 1) ∧
      Falls (daysInMonth year) month days n rest := by
  induction left generalizing month days with
  | zero =>
    rw [sumFrom_succ, sumFrom, Nat.add_zero] at h
    exact ⟨0, days, Nat.le_refl 0, rfl, .here h⟩
  | succ left ih =>
    rw [takeMonths]
    by_cases hd : days < daysInMonth year month
    · rw [if_pos hd]
      exact ⟨0, days, Nat.zero_le _, rfl, .here hd⟩
    · rw [sumFrom_succ] at h
      obtain ⟨n, rest, hn, hx, hfalls⟩ := ih (month + 1) (days - daysInMonth year month) (by omega)
      rw [if_neg hd, hx]
      refine ⟨n + 1, rest, Nat.succ_le_succ hn, ?_, hfalls.later hd⟩
      rw [Nat.add_assoc, Nat.add_comm 1 n]

/-- The months make up the year. -/
theorem sumFrom_daysInMonth (year : Nat) :
    sumFrom (daysInMonth year) 1 12 0 = daysInYear year := by
  unfold daysInYear
  cases hleap : isLeap year <;> simp [sumFrom, daysInMonth, hleap]

/-- A day count comes to a date: the year it falls into, and the month within that year. -/
theorem dateOfDays_falls (days : Nat) :
    ∃ n k inYear rest, dateOfDays days = (1970 + n, 1 + k, rest + 1) ∧ k ≤ 11 ∧
      Falls daysInYear 1970 days n inYear ∧ Falls (daysInMonth (1970 + n)) 1 inYear k rest := by
  obtain ⟨n, inYear, hyears, hfalls⟩ := takeYears_falls 1970 days
  have hwithin := hfalls.within
  rw [← sumFrom_daysInMonth] at hwithin
  obtain ⟨k, rest, hk, hmonths, hfalls'⟩ := takeMonths_falls (1970 + n) 11 1 inYear hwithin
  refine ⟨n, k, inYear, rest, ?_, hk, hfalls, hfalls'⟩
  unfold dateOfDays
  rw [hyears]
  dsimp only
  rw [hmonths]

namespace DateTime

variable {t u : DateTime}

section Times

theorem isValid_iff : t.isValid = true ↔ (1 ≤ t.month ∧ t.month ≤ 12) ∧
    (1 ≤ t.day ∧ t.day ≤ daysInMonth t.year t.month) ∧
    t.hour < 24 ∧ t.minute < 60 ∧ t.second < 60 := by
  simp [isValid, and_assoc]

/-- The day within the year, counted from 0. -/
def dayOfYear (t : DateTime) : Nat :=
  sumFrom (daysInMonth t.year) 1 (t.clampedMonth - 1) 0 + (t.day - 1)

theorem clampedMonth_of_isValid (h : t.isValid = true) : t.clampedMonth = t.month := by
  have hmonth := (isValid_iff.mp h).1
  unfold clampedMonth
  omega

theorem dayOfYear_falls (h : t.isValid = true) :
    Falls (daysInMonth t.year) 1 t.dayOfYear (t.month - 1) (t.day - 1) := by
  obtain ⟨hmonth, hday, _⟩ := isValid_iff.mp h
  refine ⟨?_, ?_⟩
  · rw [dayOfYear, clampedMonth_of_isValid h]
  · rw [Nat.add_sub_cancel' hmonth.1]
    omega

theorem dayOfYear_lt (h : t.isValid = true) : t.dayOfYear < daysInYear t.year := by
  have hlt := (dayOfYear_falls h).lt_sum
  have hmonth := (isValid_iff.mp h).1
  have hle := sumFrom_le (daysInMonth t.year) 1 (show t.month - 1 + 1 ≤ 12 by omega)
  rw [sumFrom_daysInMonth] at hle
  omega

theorem dayCount_eq (t : DateTime) :
    t.dayCount = sumFrom daysInYear 1970 (t.year - 1970) 0 + t.dayOfYear := Nat.add_assoc _ _ _

theorem dayCount_falls (h : t.isValid = true) (hyear : 1970 ≤ t.year) :
    Falls daysInYear 1970 t.dayCount (t.year - 1970) t.dayOfYear := by
  refine ⟨dayCount_eq t, ?_⟩
  rw [Nat.add_sub_cancel' hyear]
  exact dayOfYear_lt h

/-- The date of `t` is earlier than that of `u`: the first of year, month and day that differs is less. -/
def DateBefore (t u : DateTime) : Prop :=
  t.year < u.year ∨ t.year = u.year ∧ (t.month < u.month ∨ t.month = u.month ∧ t.day < u.day)

def SameDate (t u : DateTime) : Prop := t.year = u.year ∧ t.month = u.month ∧ t.day = u.day

/-- As `DateBefore`, for hour, minute and second. -/
def ClockBefore (t u : DateTime) : Prop :=
  t.hour < u.hour ∨ t.hour = u.hour ∧
    (t.minute < u.minute ∨ t.minute = u.minute ∧ t.second < u.second)

/-- `t` is earlier than `u`. -/
def Before (t u : DateTime) : Prop := t.DateBefore u ∨ t.SameDate u ∧ t.ClockBefore u

theorem sameDate_of_not_before (h : ¬ t.DateBefore u) (h' : ¬ u.DateBefore t) : t.SameDate u := by
  unfold DateBefore at h h'
  unfold SameDate
  omega

theorem eq_of_not_before (h : ¬ t.Before u) (h' : ¬ u.Before t) : t = u := by
  obtain ⟨hdate, hclock⟩ := not_or.mp h
  obtain ⟨hdate', hclock'⟩ := not_or.mp h'
  have hsame := sameDate_of_not_before hdate hdate'
  have hsame' := sameDate_of_not_before hdate' hdate
  have hearly : ¬ t.ClockBefore u := fun hbefore => hclock ⟨hsame, hbefore⟩
  have hlate : ¬ u.ClockBefore t := fun hbefore => hclock' ⟨hsame', hbefore⟩
  unfold ClockBefore at hearly hlate
  obtain ⟨hyear, hmonth, hday⟩ := hsame
  cases t
  cases u
  simp only [mk.injEq]
  refine ⟨hyear, hmonth, hday, ?_⟩
  dsimp only at hearly hlate
  omega

/-- Dates are in the order of their day counts. -/
theorem dayCount_lt_iff (ht : t.isValid = true) (hu : u.isValid = true) (hty : 1970 ≤ t.year)
    (huy : 1970 ≤ u.year) : t.dayCount < u.dayCount ↔ t.DateBefore u := by
  have hyears := (dayCount_falls ht hty).lt_iff (dayCount_falls hu huy)
  obtain ⟨htm, htd, _⟩ := isValid_iff.mp ht
  obtain ⟨hum, hud, _⟩ := isValid_iff.mp hu
  rw [hyears, DateBefore]
  by_cases hsame : t.year = u.year
  · have hmonths := (dayOfYear_falls ht).lt_iff (hsame ▸ dayOfYear_falls hu)
    omega
  · omega

theorem dayCount_eq_iff (ht : t.isValid = true) (hu : u.isValid = true) (hty : 1970 ≤ t.year)
    (huy : 1970 ≤ u.year) : t.dayCount = u.dayCount ↔ t.SameDate u := by
  have hlt := dayCount_lt_iff ht hu hty huy
  have hgt := dayCount_lt_iff hu ht huy hty
  constructor
  · intro h
    apply sameDate_of_not_before
    · rw [← hlt, h]
      exact Nat.lt_irrefl _
    · rw [← hgt, h]
      exact Nat.lt_irrefl _
  · rintro ⟨hyear, hmonth, hday⟩
    unfold DateBefore at hlt hgt
    omega

/-- The second within the day, counted from 0. -/
def secondOfDay (t : DateTime) : Nat := t.hour * 3600 + t.minute * 60 + t.second

theorem toSeconds_eq (t : DateTime) : t.toSeconds = t.dayCount * 86400 + t.secondOfDay := by
  rw [toSeconds, secondOfDay, Nat.add_assoc, Nat.add_assoc, Nat.add_assoc]

theorem secondOfDay_lt (h : t.isValid = true) : t.secondOfDay < 86400 := by
  obtain ⟨_, _, hhour, hminute, hsecond⟩ := isValid_iff.mp h
  unfold secondOfDay
  omega

theorem secondOfDay_lt_iff (ht : t.isValid = true) (hu : u.isValid = true) :
    t.secondOfDay < u.secondOfDay ↔ t.ClockBefore u := by
  obtain ⟨_, _, _, htm, hts⟩ := isValid_iff.mp ht
  obtain ⟨_, _, _, hum, hus⟩ := isValid_iff.mp hu
  unfold secondOfDay ClockBefore
  omega

/-- Times are in the order of their seconds. -/
theorem before_iff (ht : t.isValid = true) (hu : u.isValid = true) (hty : 1970 ≤ t.year)
    (huy : 1970 ≤ u.year) : t.Before u ↔ t.toSeconds < u.toSeconds := by
  have hts := secondOfDay_lt ht
  have hus := secondOfDay_lt hu
  rw [Before, ← dayCount_lt_iff ht hu hty huy, ← dayCount_eq_iff ht hu hty huy,
    ← secondOfDay_lt_iff ht hu, toSeconds_eq, toSeconds_eq]
  omega

/-- What a count of seconds is broken down to. -/
theorem ofSeconds_spec (s : Nat) :
    (ofSeconds s).isValid = true ∧ 1970 ≤ (ofSeconds s).year ∧ (ofSeconds s).toSeconds = s := by
  obtain ⟨n, k, inYear, rest, hdate, hk, hyears, hmonths⟩ := dateOfDays_falls (s / 86400)
  have hx : ofSeconds s =
      ⟨1970 + n, 1 + k, rest + 1, s % 86400 / 3600, s % 86400 % 3600 / 60, s % 86400 % 60⟩ := by
    unfold ofSeconds
    rw [hdate]
  have hvalid : (ofSeconds s).isValid = true := by
    have hwithin := hmonths.within
    rw [isValid_iff, hx]
    dsimp only
    omega
  refine ⟨hvalid, ?_, ?_⟩
  · rw [hx]
    exact Nat.le_add_right 1970 n
  · have hdays : (ofSeconds s).dayCount = s / 86400 := by
      have hmonth : min 12 (1 + k) = 1 + k := by omega
      rw [hx, dayCount, clampedMonth, hyears.total, hmonths.total]
      simp only [hmonth, Nat.add_sub_cancel_left, Nat.add_sub_cancel]
      rw [Nat.max_eq_right (Nat.le_add_right 1 k), Nat.add_sub_cancel_left, Nat.add_assoc]
    rw [toSeconds_eq, hdays, hx, secondOfDay]
    dsimp only
    omega

theorem ofSeconds_toSeconds (h : t.isValid = true) (hyear : 1970 ≤ t.year) :
    ofSeconds t.toSeconds = t := by
  obtain ⟨hvalid, hyear', hback⟩ := ofSeconds_spec t.toSeconds
  apply eq_of_not_before
  · rw [before_iff hvalid h hyear' hyear, hback]
    exact Nat.lt_irrefl _
  · rw [before_iff h hvalid hyear hyear', hback]
    exact Nat.lt_irrefl _

end Times

def startOf (year : Nat) : DateTime := ⟨year, 1, 1, 0, 0, 0⟩

theorem isValid_startOf (year : Nat) : (startOf year).isValid = true := by
  rw [isValid_iff]
  simp [startOf, daysInMonth]

theorem year_lt_iff (h : t.isValid = true) (hyear : 1970 ≤ t.year) {year : Nat} (hy : 1970 ≤ year) :
    t.year < year ↔ t.toSeconds < (startOf year).toSeconds := by
  rw [← before_iff h (isValid_startOf year) hyear hy]
  obtain ⟨hmonth, hday, _⟩ := isValid_iff.mp h
  unfold Before DateBefore SameDate ClockBefore startOf
  dsimp only
  omega

end DateTime

/-- How many of the years from 1 to `year` are leap years. -/
def leapsTo (year : Nat) : Nat := year / 4 - year / 100 + year / 400

theorem leapsTo_succ (year : Nat) :
    leapsTo (year + 1) = leapsTo year + if isLeap (year + 1) then 1 else 0 := by
  have hle : year / 100 ≤ year / 4 := Nat.div_le_div_left (by decide) (by decide)
  have hcentury : (year + 1) % 100 = 0 → (year + 1) % 4 = 0 := by omega
  have hfourth : (year + 1) % 400 = 0 → (year + 1) % 100 = 0 := by omega
  unfold leapsTo
  rw [Nat.succ_div, Nat.succ_div, Nat.succ_div]
  simp only [isLeap, Nat.dvd_iff_mod_eq_zero]
  by_cases h4 : (year + 1) % 4 = 0
  · by_cases h100 : (year + 1) % 100 = 0
    · by_cases h400 : (year + 1) % 400 = 0
      · simp [h4, h100, h400]
        omega
      · simp [h4, h100, h400]
    · simp [h4, h100, mt hfourth h100]
      omega
  · simp [h4, mt hcentury h4, mt hfourth (mt hcentury h4)]

/-- The days of years in a row, without adding them up one by one. -/
theorem sumFrom_daysInYear (first count : Nat) :
    sumFrom daysInYear (first + 1) count 0 + leapsTo first =
      365 * count + leapsTo (first + count) := by
  induction count with
  | zero => simp [sumFrom]
  | succ count ih =>
    have hleaps := leapsTo_succ (first + count)
    have hyear : daysInYear (first + 1 + count) =
        365 + if isLeap (first + count + 1) then 1 else 0 := by
      rw [Nat.add_right_comm first 1 count]
      unfold daysInYear
      split <;> rfl
    rw [sumFrom_concat, hyear, ← Nat.add_assoc first count 1]
    omega

namespace DateTime

variable {t u : DateTime}

/-- The day count without a sum over the years. -/
theorem dayCount_add (h : 1970 ≤ t.year) :
    t.dayCount + leapsTo 1969 = 365 * (t.year - 1970) + leapsTo (t.year - 1) + t.dayOfYear := by
  have hyears : sumFrom daysInYear 1970 (t.year - 1970) 0 + leapsTo 1969 =
      365 * (t.year - 1970) + leapsTo (1969 + (t.year - 1970)) := sumFrom_daysInYear 1969 _
  rw [show 1969 + (t.year - 1970) = t.year - 1 by omega] at hyears
  rw [dayCount_eq]
  omega

theorem toSeconds_startOf {year : Nat} (h : 1970 ≤ year) :
    (startOf year).toSeconds = (365 * (year - 1970) + leapsTo (year - 1) - leapsTo 1969) * 86400 := by
  have hyear : (startOf year).year = year := rfl
  have hday : (startOf year).dayOfYear = 0 := rfl
  have hsecond : (startOf year).secondOfDay = 0 := by simp [secondOfDay, startOf]
  have hdays := dayCount_add (t := startOf year) h
  rw [hyear, hday] at hdays
  rw [toSeconds_eq, hsecond]
  omega

/-- The first second behind the last year that 16 bits can hold. -/
theorem toSeconds_startOf_last : (startOf 65536).toSeconds = 2005949145600 :=
  (toSeconds_startOf (by decide)).trans (by decide)

/-- Valid times from 1970 on whose year 16 bits can hold. -/
structure InEra (t : DateTime) : Prop where
  valid : t.isValid = true
  from1970 : 1970 ≤ t.year
  to65535 : t.year < 65536

/-- The seconds up to the end of year 65535 and the times from 1970 on correspond, in order. -/
theorem seconds_and_times :
    (startOf 65536).toSeconds = 2005949145600 ∧
    (∀ s < (startOf 65536).toSeconds, (ofSeconds s).InEra ∧ (ofSeconds s).toSeconds = s) ∧
    (∀ t : DateTime, t.InEra →
      t.toSeconds < (startOf 65536).toSeconds ∧ ofSeconds t.toSeconds = t) ∧
    (∀ t u : DateTime, t.InEra → u.InEra → (t.Before u ↔ t.toSeconds < u.toSeconds)) ∧
    ∀ s < (startOf 65536).toSeconds, ∀ s' < (startOf 65536).toSeconds,
      (s < s' ↔ (ofSeconds s).Before (ofSeconds s')) := by
  refine ⟨toSeconds_startOf_last, fun s hs => ?_, fun t ht => ⟨?_, ?_⟩, fun t u ht hu => ?_,
    fun s _ s' _ => ?_⟩
  · obtain ⟨hvalid, hyear, hback⟩ := ofSeconds_spec s
    refine ⟨⟨hvalid, hyear, ?_⟩, hback⟩
    rwa [year_lt_iff hvalid hyear (by omega), hback]
  · exact (year_lt_iff ht.valid ht.from1970 (by omega)).mp ht.to65535
  · exact ofSeconds_toSeconds ht.valid ht.from1970
  · exact before_iff ht.valid hu.valid ht.from1970 hu.from1970
  · obtain ⟨hvalid, hyear, hback⟩ := ofSeconds_spec s
    obtain ⟨hvalid', hyear', hback'⟩ := ofSeconds_spec s'
    rw [before_iff hvalid hvalid' hyear hyear', hback, hback']

/-- The last second of a leap day in a century year, and the first one after it. -/
theorem seconds_of_leap_day :
    InEra ⟨2000, 2, 29, 23, 59, 59⟩ ∧ toSeconds ⟨2000, 2, 29, 23, 59, 59⟩ = 951868799 ∧
    ofSeconds 951868799 = ⟨2000, 2, 29, 23, 59, 59⟩ ∧
    InEra ⟨2000, 3, 1, 0, 0, 0⟩ ∧ ofSeconds 951868800 = ⟨2000, 3, 1, 0, 0, 0⟩ := by
  have ht : InEra ⟨2000, 2, 29, 23, 59, 59⟩ := ⟨by decide, by decide, by decide⟩
  have hu : InEra ⟨2000, 3, 1, 0, 0, 0⟩ := ⟨by decide, by decide, by decide⟩
  have hts : toSeconds ⟨2000, 2, 29, 23, 59, 59⟩ = 951868799 := by decide
  have hus : toSeconds ⟨2000, 3, 1, 0, 0, 0⟩ = 951868800 := by decide
  have hback := seconds_and_times.2.2.1
  exact ⟨ht, hts, hts ▸ (hback _ ht).2, hu, hus ▸ (hback _ hu).2⟩

end DateTime

end CardShell
