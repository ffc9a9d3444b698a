import CardShell.Command.Builtin
import CardShell.Proofs.Action
import CardShell.Proofs.Calendar.Seconds
import CardShell.Proofs.Text.Utf8
import CardShell.Proofs.Variable.Numeral

/-!
Setting the time by a text. Hour, minute and second are read at fixed places of its bytes; what
stands between them and behind is not looked at.
-/

set_option autoImplicit false

namespace CardShell

namespace DateTime

variable {t : DateTime} {hour minute second : Nat}

/-- Another time of the same day. -/
def withTime (t : DateTime) (hour minute second : Nat) : DateTime :=
  { t with hour := hour, minute := minute, second := second }

def IsTime (hour minute second : Nat) : Prop := hour < 24 ∧ minute < 60 ∧ second < 60

instance : Decidable (IsTime hour minute second) := inferInstanceAs (Decidable (_ ∧ _))

theorem isValid_withTime : (t.withTime hour minute second).isValid = true ↔
    (t.withTime 0 0 0).isValid = true ∧ IsTime hour minute second := by
  rw [isValid_iff, isValid_iff]
  unfold withTime IsTime
  dsimp only
  omega

end DateTime

namespace Clock

/-- The clock is on a day of the years that the display can be told, and takes whatever it is set
to. -/
structure Settable (c : Clock) : Prop where
  day : (c.now.withTime 0 0 0).isValid = true
  year : 1980 ≤ c.now.year ∧ c.now.year ≤ 2235
  willing : ∀ t, ∃ c', set t c = .ok () c'

theorem now_of_set {c c' : Clock} {t : DateTime} (h : set t c = .ok () c') (ht : t.isValid = true)
    (hyear : 1970 ≤ t.year) : c'.now = t := by
  cases c with
  | still time refusal =>
    unfold set at h
    dsimp only at h
    split at h
    · cases h
    · cases h
      rfl
  | hosted seconds offset =>
    cases h
    have hsum : ((seconds : Int) + (t.toSeconds - seconds)).toNat = t.toSeconds := by omega
    rw [now, hsum, DateTime.ofSeconds_toSeconds ht hyear]

end Clock

namespace Dial

open Numeral DateTime

inductive TwoDigits : Text → Nat → Prop
  | mk {a b : Char} {d e : Nat} (ha : IsDigit 10 a d) (hb : IsDigit 10 b e) :
    TwoDigits [a, b] (d * 10 + e)

/-- Hour, minute and second in two digits each, with `x` and `y` between them and `rest` behind. -/
inductive Shows (x y : Char) (rest : Text) (hour minute second : Nat) : Text → Prop
  | mk {h m s : Text} (hh : TwoDigits h hour) (hm : TwoDigits m minute) (hs : TwoDigits s second) :
    Shows x y rest hour minute second (h ++ x :: (m ++ y :: (s ++ rest)))

variable {c : Char} {d n hour minute second : Nat} {t u v w : Text} {x y : Char} {rest : Text}

theorem isDigit_ten_iff : IsDigit 10 c d ↔ d < 10 ∧ c.toNat = d + 48 := by
  rw [isDigit_iff (by decide)]
  omega

theorem TwoDigits.unique (h : TwoDigits w n) (h' : TwoDigits v n) : w = v := by
  generalize hk : n = k at h'
  obtain @⟨a, b, d, e, ha, hb⟩ := h
  obtain @⟨a', b', d', e', ha', hb'⟩ := h'
  rw [isDigit_ten_iff] at ha hb ha' hb'
  have hfirst : a = a' := Text.char_eq_of_toNat (by omega)
  have hsecond : b = b' := Text.char_eq_of_toNat (by omega)
  rw [hfirst, hsecond]

theorem Shows.eq_iff {x' y' : Char} {rest' : Text} (h : Shows x y rest hour minute second t)
    (h' : Shows x' y' rest' hour minute second u) : t = u ↔ x = x' ∧ y = y' ∧ rest = rest' := by
  obtain ⟨hh, hm, hs⟩ := h
  obtain ⟨hh', hm', hs'⟩ := h'
  rw [hh.unique hh', hm.unique hm', hs.unique hs']
  simp

theorem Shows.between (h : Shows x y rest hour minute second t) :
    t[2]? = some x ∧ t[5]? = some y ∧ t.drop 8 = rest := by
  obtain ⟨⟨_, _⟩, ⟨_, _⟩, ⟨_, _⟩⟩ := h
  exact ⟨rfl, rfl, rfl⟩

theorem twoDigits_two : ∀ n < 100, TwoDigits (two n) n := by
  have htext : ∀ n < 100, two n = [(n / 10).digitChar, (n % 10).digitChar] := by decide +kernel
  intro n hn
  have hdigits : TwoDigits [(n / 10).digitChar, (n % 10).digitChar] (n / 10 * 10 + n % 10) :=
    ⟨⟨by omega, Or.inl rfl⟩, ⟨by omega, Or.inl rfl⟩⟩
  rw [htext n hn]
  rwa [Nat.div_add_mod' n 10] at hdigits

theorem shows_timeText {z : DateTime} (h : IsTime z.hour z.minute z.second) :
    Shows ':' ':' [] z.hour z.minute z.second z.timeText := by
  obtain ⟨hhour, hminute, hsecond⟩ := h
  have htext : z.timeText = two z.hour ++ ':' :: (two z.minute ++ ':' :: (two z.second ++ [])) := by
    simp [timeText]
  rw [htext]
  exact ⟨twoDigits_two _ (by omega), twoDigits_two _ (by omega), twoDigits_two _ (by omega)⟩

/-- The bytes of two digits. -/
def IsPair (a b : UInt8) (n : Nat) : Prop :=
  (48 ≤ a.toNat ∧ a.toNat ≤ 57) ∧ (48 ≤ b.toNat ∧ b.toNat ≤ 57) ∧
    (a.toNat - 48) * 10 + (b.toNat - 48) = n

theorem twoDigits_of_bytes {a b : UInt8} {r : List UInt8} (h : u.bytes = a :: b :: r)
    (hn : IsPair a b n) : ∃ w v, u = w ++ v ∧ TwoDigits w n ∧ v.bytes = r := by
  obtain ⟨ha, hb, hsum⟩ := hn
  obtain ⟨c, u', rfl, hc, hu'⟩ := Text.eq_cons_of_bytes h (by omega)
  obtain ⟨c', v, rfl, hc', hv⟩ := Text.eq_cons_of_bytes hu' (by omega)
  refine ⟨[c, c'], v, rfl, ?_, hv⟩
  rw [← hsum]
  exact ⟨isDigit_ten_iff.mpr (by omega), isDigit_ten_iff.mpr (by omega)⟩

theorem TwoDigits.bytes_append (h : TwoDigits w n) (v : Text) :
    ∃ a b, (w ++ v).bytes = a :: b :: v.bytes ∧ IsPair a b n := by
  obtain @⟨a, b, d, e, ha, hb⟩ := h
  rw [isDigit_ten_iff] at ha hb
  refine ⟨UInt8.ofNat a.toNat, UInt8.ofNat b.toNat, ?_, ?_⟩
  · rw [List.cons_append, List.singleton_append, Text.bytes_cons, Text.bytes_cons,
      Text.utf8EncodeChar_of_lt (by omega), Text.utf8EncodeChar_of_lt (by omega)]
    rfl
  · unfold IsPair
    rw [Text.toNat_ofNat_of_lt (by omega), Text.toNat_ofNat_of_lt (by omega)]
    omega

theorem bytes_cons_of_size (h : x.utf8Size = 1) (t : Text) :
    ∃ b, Text.bytes (x :: t) = b :: t.bytes := by
  rw [Text.bytes_cons, String.utf8EncodeChar_eq_singleton h]
  exact ⟨_, rfl⟩

def PairAt (t : Text) (i n : Nat) : Prop := ∃ a b r, t.bytes.drop i = a :: b :: r ∧ IsPair a b n

theorem PairAt.unique {i k : Nat} (h : PairAt t i n) (h' : PairAt t i k) : n = k := by
  obtain ⟨a, b, r, hd, _, _, rfl⟩ := h
  obtain ⟨a', b', r', hd', _, _, rfl⟩ := h'
  rw [hd] at hd'
  obtain ⟨rfl, hrest⟩ := List.cons.inj hd'
  obtain ⟨rfl, _⟩ := List.cons.inj hrest
  rfl

/-- There are digits at the three places exactly if the text shows a time, with characters of one
byte between. -/
theorem pairs_iff_shows : (PairAt t 0 hour ∧ PairAt t 3 minute ∧ PairAt t 6 second) ↔
    ∃ x y rest, x.utf8Size = 1 ∧ y.utf8Size = 1 ∧ Shows x y rest hour minute second t := by
  constructor
  · rintro ⟨⟨a, b, r, h0, hhour⟩, ⟨a', b', r', h3, hminute⟩, ⟨a'', b'', r'', h6, hsecond⟩⟩
    rw [List.drop_zero] at h0
    rw [h0] at h3 h6
    obtain ⟨h, v, rfl, hh, hv⟩ := twoDigits_of_bytes h0 hhour
    -- The byte in front of the next digit is a character, for no digit is inside one.
    obtain ⟨z, rfl⟩ : ∃ z, r = z :: a' :: b' :: r' := by
      cases r with
      | nil => cases h3
      | cons z r => exact ⟨z, congrArg (z :: ·) h3⟩
    obtain ⟨x, v, rfl, hx, hv⟩ := Text.eq_cons_of_second_byte hv
      (Nat.lt_of_le_of_lt hminute.1.2 (by decide))
    obtain ⟨mi, v, rfl, hm, hv⟩ := twoDigits_of_bytes hv hminute
    obtain ⟨z', rfl⟩ : ∃ z', r' = z' :: a'' :: b'' :: r'' := by
      cases r' with
      | nil => cases h6
      | cons z' r' => exact ⟨z', congrArg (z' :: ·) h6⟩
    obtain ⟨y, v, rfl, hy, hv⟩ := Text.eq_cons_of_second_byte hv
      (Nat.lt_of_le_of_lt hsecond.1.2 (by decide))
    obtain ⟨s, rest, rfl, hs, _⟩ := twoDigits_of_bytes hv hsecond
    exact ⟨x, y, rest, Text.utf8Size_of_lt hx, Text.utf8Size_of_lt hy, ⟨hh, hm, hs⟩⟩
  · rintro ⟨x, y, rest, hx, hy, ⟨hh, hm, hs⟩⟩
    rename_i h mi s
    obtain ⟨a, b, h0, hhour⟩ := hh.bytes_append (x :: (mi ++ y :: (s ++ rest)))
    obtain ⟨z, hz⟩ := bytes_cons_of_size hx (mi ++ y :: (s ++ rest))
    obtain ⟨a', b', h3, hminute⟩ := hm.bytes_append (y :: (s ++ rest))
    obtain ⟨z', hz'⟩ := bytes_cons_of_size hy (s ++ rest)
    obtain ⟨a'', b'', h6, hsecond⟩ := hs.bytes_append rest
    unfold PairAt
    rw [h0, hz, h3, hz', h6]
    exact ⟨⟨a, b, _, rfl, hhour⟩, ⟨a', b', _, rfl, hminute⟩, ⟨a'', b'', _, rfl, hsecond⟩⟩

/-- The text shows a time of day, with any characters of one byte between and anything behind. -/
def IsLoose (t : Text) : Prop := ∃ x y rest hour minute second, x.utf8Size = 1 ∧ y.utf8Size = 1 ∧
  IsTime hour minute second ∧ Shows x y rest hour minute second t

/-- The text is a time of day. -/
def IsProper (t : Text) : Prop :=
  ∃ hour minute second, IsTime hour minute second ∧ Shows ':' ':' [] hour minute second t

theorem IsProper.isLoose (h : IsProper t) : IsLoose t := by
  obtain ⟨hour, minute, second, htime, hshows⟩ := h
  exact ⟨':', ':', [], hour, minute, second, rfl, rfl, htime, hshows⟩

end Dial

namespace Shell

open Dial DateTime Action

variable {m : Machine} {t : Text} {z : DateTime}

/-- What the display is told. -/
def tidings (z : DateTime) : List UInt8 :=
  [23, 0, 0x87, 1, UInt8.ofNat (z.year - 1980), UInt8.ofNat z.month, UInt8.ofNat z.day,
    UInt8.ofNat z.hour, UInt8.ofNat z.minute, UInt8.ofNat z.second]

theorem twoDigitsAt_cases (t : Text) (i : Nat) (m : Machine) :
    (∃ n, PairAt t i n ∧ twoDigitsAt t i m = .ok n m) ∨
      (∀ n, ¬ PairAt t i n) ∧ twoDigitsAt t i m = .error (.failed .invalidParameter) m := by
  unfold PairAt twoDigitsAt
  rcases ht : t.bytes.drop i with _ | ⟨a, _ | ⟨b, r⟩⟩
  · exact Or.inr ⟨nofun, rfl⟩
  · exact Or.inr ⟨nofun, rfl⟩
  · simp only [List.take_succ_cons, List.take_zero]
    by_cases h : 48 ≤ a ∧ a ≤ 57 ∧ 48 ≤ b ∧ b ≤ 57
    · rw [if_pos h]
      obtain ⟨ha, ha', hb, hb'⟩ := h
      exact Or.inl ⟨_, ⟨a, b, r, rfl, ⟨ha, ha'⟩, ⟨hb, hb'⟩, rfl⟩, rfl⟩
    · rw [if_neg h]
      refine Or.inr ⟨?_, rfl⟩
      rintro n ⟨a', b', r', hd, ⟨ha, ha'⟩, ⟨hb, hb'⟩, _⟩
      obtain ⟨rfl, hrest⟩ := List.cons.inj hd
      obtain ⟨rfl, _⟩ := List.cons.inj hrest
      exact h ⟨ha, ha', hb, hb'⟩

theorem writeCode_time (t : Text) (m : Machine) :
    (∃ hour minute second, (PairAt t 0 hour ∧ PairAt t 3 minute ∧ PairAt t 6 second) ∧
      writeCode .time t m = setClock (m.clock.now.withTime hour minute second) m) ∨
    (∀ hour minute second, ¬ (PairAt t 0 hour ∧ PairAt t 3 minute ∧ PairAt t 6 second)) ∧
      writeCode .time t m = .error (.failed .invalidParameter) m := by
  have hwrite : writeCode .time t = (do
      let now := (← get).clock.now
      let hour ← twoDigitsAt t 0
      let minute ← twoDigitsAt t 3
      let second ← twoDigitsAt t 6
      setClock (now.withTime hour minute second)) := rfl
  rw [hwrite, bind_apply, get_apply]
  dsimp only
  rcases twoDigitsAt_cases t 0 m with ⟨hour, hhour, heq⟩ | ⟨hnone, heq⟩
  · rw [bind_apply, heq]
    dsimp only
    rcases twoDigitsAt_cases t 3 m with ⟨minute, hminute, heq⟩ | ⟨hnone, heq⟩
    · rw [bind_apply, heq]
      dsimp only
      rcases twoDigitsAt_cases t 6 m with ⟨second, hsecond, heq⟩ | ⟨hnone, heq⟩
      · rw [bind_apply, heq]
        exact Or.inl ⟨hour, minute, second, ⟨hhour, hminute, hsecond⟩, rfl⟩
      · rw [bind_apply, heq]
        exact Or.inr ⟨fun _ _ second h => hnone second h.2.2, rfl⟩
    · rw [bind_apply, heq]
      exact Or.inr ⟨fun _ minute _ h => hnone minute h.2.1, rfl⟩
  · rw [bind_apply, heq]
    exact Or.inr ⟨fun hour _ _ h => hnone hour h.1, rfl⟩

theorem setClock_of_not (h : ¬ (z.isValid = true ∧ 1980 ≤ z.year ∧ z.year ≤ 2235)) (m : Machine) :
    setClock z m = .error (.failed .invalidParameter) m := by
  have hbad : (!z.isValid) = true ∨ z.year < 1980 ∨ 2235 < z.year := by
    rw [Bool.not_eq_true']
    cases hz : z.isValid
    · exact Or.inl rfl
    · have := mt (And.intro hz) h
      omega
  unfold setClock
  rw [if_pos hbad]
  rfl

theorem setClock_of_valid (hclock : m.clock.Settable) (hz : z.isValid = true)
    (hyear : 1980 ≤ z.year ∧ z.year ≤ 2235) : ∃ c, c.now = z ∧
      setClock z m = .ok () { m with clock := c, console := m.console.put (tidings z) } := by
  obtain ⟨c, hc⟩ := hclock.willing z
  have hgood : ¬ ((!z.isValid) = true ∨ z.year < 1980 ∨ 2235 < z.year) := by
    rw [hz]
    simp only [Bool.not_true, Bool.false_eq_true, false_or]
    omega
  refine ⟨c, Clock.now_of_set hc hz (Nat.le_trans (by decide) hyear.1), ?_⟩
  unfold setClock
  rw [if_neg hgood]
  change on Machine.clock (fun c m => { m with clock := c }) (Clock.set z)
    { m with console := m.console.put (tidings z) } = _
  unfold on zoom
  dsimp only
  rw [hc]

/-- A text is taken as the time exactly if it shows a time of day at the places that are read. The
clock then shows that time of the same day, and the display is told; otherwise the machine stays as
it is. What is read back is the text only if the text is a time of day and no more. -/
theorem time_of_text (label l : Text) (m : Machine) (hclock : m.clock.Settable)
    (hlabel : m.store.get? label = some ⟨l, .code .time⟩) (t : Text) :
    (∀ x y rest hour minute second, x.utf8Size = 1 → y.utf8Size = 1 → IsTime hour minute second →
      Shows x y rest hour minute second t →
        ∃ m', assign label (.text t) m = .ok () m' ∧
          m' = { m with clock := m'.clock, console := m.console.put (tidings m'.clock.now) } ∧
          m'.clock.now = m.clock.now.withTime hour minute second ∧
          ∃ shown, Expand.value m'.store m'.readings (.code .time) = .ok shown ∧
            Shows ':' ':' [] hour minute second shown ∧
            (shown = t ↔ x = ':' ∧ y = ':' ∧ rest = [])) ∧
    (¬ IsLoose t → assign label (.text t) m = .error (.failed .invalidParameter) m) ∧
    (((∃ m', assign label (.text t) m = .ok () m') ↔ IsProper t) ↔ (IsLoose t → IsProper t)) := by
  have hassign : assign label (.text t) m = writeCode .time t m := by
    unfold assign
    rw [bind_apply, get_apply]
    dsimp only
    rw [hlabel]
  have htaken : ∀ x y rest hour minute second, x.utf8Size = 1 → y.utf8Size = 1 →
      IsTime hour minute second → Shows x y rest hour minute second t →
      ∃ c : Clock, c.now = m.clock.now.withTime hour minute second ∧ assign label (.text t) m =
        .ok () { m with clock := c, console := m.console.put (tidings c.now) } := by
    intro x y rest hour minute second hx hy htime hshows
    have hpairs := pairs_iff_shows.mpr ⟨x, y, rest, hx, hy, hshows⟩
    rcases writeCode_time t m with ⟨hour', minute', second', hread, hwrite⟩ | ⟨hnone, _⟩
    · rw [hread.1.unique hpairs.1, hread.2.1.unique hpairs.2.1,
        hread.2.2.unique hpairs.2.2] at hwrite
      obtain ⟨c, hc, hset⟩ := setClock_of_valid hclock (isValid_withTime.mpr ⟨hclock.day, htime⟩)
        hclock.year
      exact ⟨c, hc, hassign.trans (hwrite.trans (hc ▸ hset))⟩
    · exact absurd hpairs (hnone hour minute second)
  have hrefused : ¬ IsLoose t → assign label (.text t) m = .error (.failed .invalidParameter) m := by
    intro hloose
    rcases writeCode_time t m with ⟨hour, minute, second, hread, hwrite⟩ | ⟨_, hwrite⟩
    · obtain ⟨x, y, rest, hx, hy, hshows⟩ := pairs_iff_shows.mp hread
      refine hassign.trans (hwrite.trans (setClock_of_not (fun h => hloose ?_) m))
      exact ⟨x, y, rest, hour, minute, second, hx, hy, (isValid_withTime.mp h.1).2, hshows⟩
    · exact hassign.trans hwrite
  refine ⟨?_, hrefused, ?_⟩
  · intro x y rest hour minute second hx hy htime hshows
    obtain ⟨c, hc, heq⟩ := htaken x y rest hour minute second hx hy htime hshows
    refine ⟨_, heq, rfl, hc, c.now.timeText, rfl, ?_, ?_⟩
    · rw [hc]
      exact shows_timeText (z := m.clock.now.withTime hour minute second) htime
    · rw [hc]
      rw [(shows_timeText (z := m.clock.now.withTime hour minute second) htime).eq_iff hshows]
      simp only [eq_comm]
  · have hiff : (∃ m', assign label (.text t) m = .ok () m') ↔ IsLoose t := by
      constructor
      · rintro ⟨m', hm'⟩
        by_contra hloose
        rw [hrefused hloose] at hm'
        cases hm'
      · rintro ⟨x, y, rest, hour, minute, second, hx, hy, htime, hshows⟩
        obtain ⟨c, _, heq⟩ := htaken x y rest hour minute second hx hy htime hshows
        exact ⟨_, heq⟩
    rw [hiff]
    exact ⟨Iff.mp, fun h => ⟨h, IsProper.isLoose⟩⟩

theorem time_of_ten_past_three : ∃ m' : Machine,
    assign "Sys$Time" (.text "15:10:00")
      (.boot {} (.labelled []) [] {} (.still ⟨2024, 2, 29, 9, 30, 5⟩ 0) .absent) = .ok () m' ∧
    m'.clock.now = ⟨2024, 2, 29, 15, 10, 0⟩ := by
  have hclock : Clock.Settable (.still ⟨2024, 2, 29, 9, 30, 5⟩ 0) :=
    ⟨by decide, by decide, fun t => ⟨.still t 0, rfl⟩⟩
  have hshows : Shows ':' ':' [] 15 10 0 "15:10:00" :=
    shows_timeText (z := ⟨2024, 2, 29, 15, 10, 0⟩) (by decide)
  obtain ⟨m', heq, _, hnow, _⟩ := (time_of_text "Sys$Time" "Sys$Time"
    (.boot {} (.labelled []) [] {} (.still ⟨2024, 2, 29, 9, 30, 5⟩ 0) .absent) hclock rfl
    "15:10:00").1 ':' ':' [] 15 10 0 rfl rfl (by decide) hshows
  exact ⟨m', heq, hnow⟩

/-- What stands between the digits is not looked at. -/
theorem time_between_dashes :
    Clock.Settable (.still ⟨2024, 2, 29, 9, 30, 5⟩ 0) ∧ ¬ IsProper "12-34-56" ∧
    ∃ m' : Machine, assign "Sys$Time" (.text "12-34-56")
      (.boot {} (.labelled []) [] {} (.still ⟨2024, 2, 29, 9, 30, 5⟩ 0) .absent) = .ok () m' ∧
      m'.clock.now = ⟨2024, 2, 29, 12, 34, 56⟩ := by
  refine ⟨⟨by decide, by decide, fun t => ⟨.still t 0, rfl⟩⟩, ?_, _, rfl, rfl⟩
  rintro ⟨hour, minute, second, _, hshows⟩
  exact absurd hshows.between.1 (by decide)

end Shell

end CardShell
