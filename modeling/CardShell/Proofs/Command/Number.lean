import CardShell.Command.Arguments
import CardShell.Proofs.Variable.Numeral

/-!
Numbers on a command line. A sign is taken off before the numeral is read, and the numeral may have
a sign as well. So what is written with at most one sign is read as it should be, and a number with
two signs, which is no number, is read too.
-/

set_option autoImplicit false

namespace CardShell.Arguments

open Numeral

variable {radix n : Nat} {word t u : Text} {c : Char} {i : Int}

def IsSign (c : Char) : Prop := c = '+' ∨ c = '-'

/-- A number as it is written on a command line: decimal digits, or hexadecimal ones behind `&`,
with at most one sign in front of them; behind `&` there need be no digit. -/
inductive Written : Text → Int → Prop
  | decimal {t : Text} {i : Int} (h : Signed 10 t i) (hi : i.natAbs < 0x8000000000000000) :
    Written t i
  | hexadecimal {t : Text} {i : Int} (h : Signed 16 t i) (hi : i.natAbs < 0x8000000000000000) :
    Written ('&' :: t) i
  | nothing : Written ['&'] 0
  | signAlone {c : Char} (hc : IsSign c) : Written ['&', c] 0

/-- A signed numeral with another sign in front of it. -/
inductive SignedAgain (radix : Nat) : Text → Int → Prop
  | plus {c : Char} {t : Text} {i : Int} (hc : IsSign c) (h : Signed radix (c :: t) i) :
    SignedAgain radix ('+' :: c :: t) i
  | minus {c : Char} {t : Text} {i : Int} (hc : IsSign c) (h : Signed radix (c :: t) i) :
    SignedAgain radix ('-' :: c :: t) (-i)

/-- A number with two signs in front of its digits. -/
def TwiceSigned (word : Text) (i : Int) : Prop :=
  SignedAgain 10 word i ∨ ∃ t, word = '&' :: t ∧ SignedAgain 16 t i

/-- What stands behind the sign that was taken off. -/
def behindSign? (radix : Nat) (t : Text) : Option Int :=
  if t = [] ∧ radix = 16 then some 0 else signed? radix t

def behindMark? (radix : Nat) (t : Text) : Option Int :=
  match t with
  | '-' :: t => (behindSign? radix t).map (-·)
  | '+' :: t => behindSign? radix t
  | t => behindSign? radix t

def wrap (i : Int) : Nat := (i % 0x1000000).toNat

theorem wrap_eq_iff : wrap i = n ↔ (n : Int) = i % 0x1000000 := by
  unfold wrap
  omega

theorem map_wrap_behindMark? (radix : Nat) (t : Text) : (behindMark? radix t).map wrap =
    (let (negative, t) := match t with
      | '-' :: t => (true, t)
      | '+' :: t => (false, t)
      | t => (false, t)
    let value := if t = [] ∧ radix = 16 then some 0 else signed? radix t
    value.map fun n => ((if negative then -n else n) % 0x1000000).toNat) := by
  unfold behindMark?
  split
  · rw [Option.map_map]
    rfl
  · rfl
  · rfl

theorem number?_marked (t : Text) : number? ('&' :: t) = (behindMark? 16 t).map wrap :=
  (map_wrap_behindMark? 16 t).symm

theorem number?_unmarked (h : word.head? ≠ some '&') :
    number? word = (behindMark? 10 word).map wrap := by
  rw [map_wrap_behindMark?]
  unfold number?
  split
  rename_i radix t heq
  split at heq
  · exact absurd rfl h
  · cases heq
    rfl

theorem not_isSign_of_spells (hr : radix ≤ 16) (h : Spells radix (c :: t) n) : ¬ IsSign c := by
  have hall : ∀ d ∈ c :: t, d ≠ '+' ∧ d ≠ '-' :=
    h.forall (P := fun d => d ≠ '+' ∧ d ≠ '-') (by decide) hr
  rintro (rfl | rfl)
  · exact (hall '+' List.mem_cons_self).1 rfl
  · exact (hall '-' List.mem_cons_self).2 rfl

/-- A row of digits within 63 bits. -/
def Reads (radix : Nat) (t : Text) (i : Int) : Prop :=
  ∃ n : Nat, Spells radix t n ∧ n < 0x8000000000000000 ∧ i = n

theorem signed_plus_iff (hr : radix ≤ 16) : Signed radix ('+' :: t) i ↔ Reads radix t i := by
  constructor
  · intro h
    cases h with
    | bare h => exact absurd (Or.inl rfl) (not_isSign_of_spells hr h)
    | plus h hn => exact ⟨_, h, hn, rfl⟩
  · rintro ⟨n, h, hn, rfl⟩
    exact .plus h hn

theorem signed_minus_iff (hr : radix ≤ 16) :
    Signed radix ('-' :: t) i ∧ i.natAbs < 0x8000000000000000 ↔ Reads radix t (-i) := by
  constructor
  · rintro ⟨h, hi⟩
    cases h with
    | bare h => exact absurd (Or.inr rfl) (not_isSign_of_spells hr h)
    | @minus _ n h => exact ⟨n, h, by omega, by omega⟩
  · rintro ⟨n, h, hn, hi⟩
    obtain rfl : i = -n := by omega
    exact ⟨.minus h hn.le, by omega⟩

theorem signed_iff_of_not_isSign (ht : ∀ c ∈ t.head?, ¬ IsSign c) :
    Signed radix t i ↔ Reads radix t i := by
  constructor
  · intro h
    cases h with
    | bare h hn => exact ⟨_, h, hn, rfl⟩
    | plus h => exact absurd (Or.inl rfl) (ht '+' rfl)
    | minus h => exact absurd (Or.inr rfl) (ht '-' rfl)
  · rintro ⟨n, h, hn, rfl⟩
    exact .bare h hn

theorem Reads.natAbs_lt (h : Reads radix t i) : i.natAbs < 0x8000000000000000 := by
  obtain ⟨n, _, hn, rfl⟩ := h
  exact hn

/-- Behind a sign stand digits, another sign, or nothing. -/
theorem behindSign?_eq_some_iff (hpos : 0 < radix) (hr : radix ≤ 16) : behindSign? radix t = some i ↔
    Reads radix t i ∨ (∃ c u, IsSign c ∧ t = c :: u ∧ Signed radix t i) ∨
      (radix = 16 ∧ t = [] ∧ i = 0) := by
  unfold behindSign?
  split
  · rename_i h
    obtain ⟨rfl, rfl⟩ := h
    have hnone : ¬ Reads 16 [] i := fun ⟨_, h, _⟩ => h.1 rfl
    simp [hnone, eq_comm]
  · rename_i h
    rw [signed?_eq_some_iff hpos hr]
    have hend : ¬ (radix = 16 ∧ t = [] ∧ i = 0) := fun ⟨h16, hnil, _⟩ => h ⟨hnil, h16⟩
    by_cases ht : ∃ c u, IsSign c ∧ t = c :: u
    · obtain ⟨c, u, hc, rfl⟩ := ht
      have hnone : ¬ Reads radix (c :: u) i := fun ⟨_, h, _⟩ => not_isSign_of_spells hr h hc
      simp only [hnone, hend, false_or, or_false]
      exact ⟨fun h => ⟨c, u, hc, rfl, h⟩, fun ⟨_, _, _, _, h⟩ => h⟩
    · have hhead : ∀ c ∈ t.head?, ¬ IsSign c := by
        intro c hc hsign
        obtain ⟨u, rfl⟩ := List.head?_eq_some_iff.mp hc
        exact ht ⟨c, u, hsign, rfl⟩
      have hnone : ¬ ∃ c u, IsSign c ∧ t = c :: u ∧ Signed radix t i :=
        fun ⟨c, u, hc, h, _⟩ => ht ⟨c, u, hc, h⟩
      simp only [hnone, hend, or_false]
      exact signed_iff_of_not_isSign hhead

theorem signedAgain_plus_iff : SignedAgain radix ('+' :: t) i ↔
    ∃ c u, IsSign c ∧ t = c :: u ∧ Signed radix t i := by
  constructor
  · intro h
    cases h with
    | plus hc h => exact ⟨_, _, hc, rfl, h⟩
  · rintro ⟨c, u, hc, rfl, h⟩
    exact .plus hc h

theorem signedAgain_minus_iff : SignedAgain radix ('-' :: t) i ↔
    ∃ c u, IsSign c ∧ t = c :: u ∧ Signed radix t (-i) := by
  constructor
  · intro h
    cases h with
    | minus hc h => exact ⟨_, _, hc, rfl, by rwa [Int.neg_neg]⟩
  · rintro ⟨c, u, hc, rfl, h⟩
    exact Int.neg_neg i ▸ .minus hc h

theorem behindMark?_eq_some_iff (hpos : 0 < radix) (hr : radix ≤ 16) :
    behindMark? radix t = some i ↔
      (Signed radix t i ∧ i.natAbs < 0x8000000000000000) ∨ SignedAgain radix t i ∨
      (radix = 16 ∧ (t = [] ∨ ∃ c, IsSign c ∧ t = [c]) ∧ i = 0) := by
  unfold behindMark?
  split
  · rename_i u
    have hmap : (behindSign? radix u).map (-·) = some i ↔ behindSign? radix u = some (-i) := by
      simp only [Option.map_eq_some_iff]
      exact ⟨fun ⟨j, hj, hi⟩ => by rwa [← hi, Int.neg_neg], fun h => ⟨-i, h, Int.neg_neg i⟩⟩
    rw [hmap, behindSign?_eq_some_iff hpos hr, signed_minus_iff hr, signedAgain_minus_iff]
    simp [IsSign]
  · rename_i u
    have hlt : Signed radix ('+' :: u) i ∧ i.natAbs < 0x8000000000000000 ↔ Reads radix u i := by
      rw [signed_plus_iff hr]
      exact and_iff_left_of_imp Reads.natAbs_lt
    rw [hlt, behindSign?_eq_some_iff hpos hr, signedAgain_plus_iff]
    simp [IsSign]
  · rename_i hminus hplus
    have hsign : ∀ c u, IsSign c → t ≠ c :: u := by
      rintro c u (rfl | rfl) rfl
      · exact hplus u rfl
      · exact hminus u rfl
    have hhead : ∀ c ∈ t.head?, ¬ IsSign c := by
      intro c hc hs
      obtain ⟨u, rfl⟩ := List.head?_eq_some_iff.mp hc
      exact hsign c u hs rfl
    have hagain : ¬ SignedAgain radix t i := by
      intro h
      cases h with
      | plus => exact hplus _ rfl
      | minus => exact hminus _ rfl
    have hlt : Signed radix t i ∧ i.natAbs < 0x8000000000000000 ↔ Reads radix t i := by
      rw [signed_iff_of_not_isSign hhead]
      exact and_iff_left_of_imp Reads.natAbs_lt
    have htwo : ¬ ∃ c u, IsSign c ∧ t = c :: u ∧ Signed radix t i :=
      fun ⟨c, u, hs, h, _⟩ => hsign c u hs h
    have hone : ¬ ∃ c, IsSign c ∧ t = [c] := fun ⟨c, hs, h⟩ => hsign c [] hs h
    rw [behindSign?_eq_some_iff hpos hr, hlt]
    simp only [hagain, htwo, hone, false_or, or_false]

theorem head_of_spells (hr : radix ≤ 16) (h : Spells radix t n) :
    ∀ c ∈ t.head?, ¬ IsSign c := by
  intro c hc
  obtain ⟨u, rfl⟩ := List.head?_eq_some_iff.mp hc
  exact not_isSign_of_spells hr h

theorem behindMark?_of_spells (hpos : 0 < radix) (hr : radix ≤ 16) (h : Spells radix t n) :
    behindMark? radix t = if n < 0x8000000000000000 then some (n : Int) else none := by
  have hnil : t ≠ [] := h.1
  have hagain : ∀ i, ¬ SignedAgain radix t i := by
    intro i hi
    cases hi with
    | plus => exact head_of_spells hr h _ rfl (Or.inl rfl)
    | minus => exact head_of_spells hr h _ rfl (Or.inr rfl)
  have hsingle : ¬ ∃ c, IsSign c ∧ t = [c] := by
    rintro ⟨c, hc, rfl⟩
    exact head_of_spells hr h c rfl hc
  have hiff : ∀ i, behindMark? radix t = some i ↔ Reads radix t i := by
    intro i
    rw [behindMark?_eq_some_iff hpos hr, signed_iff_of_not_isSign (head_of_spells hr h)]
    simp only [hagain, hnil, hsingle, or_self, false_and, and_false, or_false]
    exact and_iff_left_of_imp Reads.natAbs_lt
  split
  · rename_i hn
    exact (hiff n).mpr ⟨n, h, hn, rfl⟩
  · rename_i hn
    refine Option.eq_none_iff_forall_ne_some.mpr fun i hi => hn ?_
    obtain ⟨k, h', hlt, _⟩ := (hiff i).mp hi
    exact h.unique hpos hr h' ▸ hlt

theorem not_signed_marked (hr : radix ≤ 16) : ¬ Signed radix ('&' :: t) i := by
  intro h
  have hall := h.forall (P := (· ≠ '&')) (by decide) (by decide) (by decide) hr
  exact hall '&' List.mem_cons_self rfl

theorem written_marked_iff : Written ('&' :: t) i ↔
    (Signed 16 t i ∧ i.natAbs < 0x8000000000000000) ∨ ((t = [] ∨ ∃ c, IsSign c ∧ t = [c]) ∧ i = 0) := by
  constructor
  · intro h
    cases h with
    | decimal h => exact absurd h (not_signed_marked (by decide))
    | hexadecimal h hi => exact Or.inl ⟨h, hi⟩
    | nothing => exact Or.inr ⟨Or.inl rfl, rfl⟩
    | signAlone hc => exact Or.inr ⟨Or.inr ⟨_, hc, rfl⟩, rfl⟩
  · rintro (⟨h, hi⟩ | ⟨rfl | ⟨c, hc, rfl⟩, rfl⟩)
    · exact .hexadecimal h hi
    · exact .nothing
    · exact .signAlone hc

theorem written_unmarked_iff (hmark : word.head? ≠ some '&') :
    Written word i ↔ Signed 10 word i ∧ i.natAbs < 0x8000000000000000 := by
  constructor
  · intro h
    cases h with
    | decimal h hi => exact ⟨h, hi⟩
    | hexadecimal => exact absurd rfl hmark
    | nothing => exact absurd rfl hmark
    | signAlone => exact absurd rfl hmark
  · exact fun h => .decimal h.1 h.2

theorem twiceSigned_marked_iff : TwiceSigned ('&' :: t) i ↔ SignedAgain 16 t i := by
  constructor
  · rintro (h | ⟨u, hu, h⟩)
    · cases h
    · cases hu
      exact h
  · exact fun h => Or.inr ⟨t, rfl, h⟩

theorem twiceSigned_unmarked_iff (hmark : word.head? ≠ some '&') :
    TwiceSigned word i ↔ SignedAgain 10 word i := by
  refine or_iff_left ?_
  rintro ⟨t, rfl, _⟩
  exact hmark rfl

theorem number?_eq_some_iff : number? word = some n ↔
    ∃ i, (Written word i ∨ TwiceSigned word i) ∧ (n : Int) = i % 0x1000000 := by
  have hmap : ∀ x : Option Int, x.map wrap = some n ↔ ∃ i, x = some i ∧ (n : Int) = i % 0x1000000 := by
    intro x
    simp only [Option.map_eq_some_iff, wrap_eq_iff]
  by_cases hmark : word.head? = some '&'
  · obtain ⟨t, rfl⟩ := List.head?_eq_some_iff.mp hmark
    rw [number?_marked, hmap]
    refine exists_congr fun i => and_congr_left fun _ => ?_
    rw [behindMark?_eq_some_iff (by decide) (by decide), written_marked_iff, twiceSigned_marked_iff]
    simp only [true_and, or_comm, or_left_comm]
  · rw [number?_unmarked hmark, hmap]
    refine exists_congr fun i => and_congr_left fun _ => ?_
    rw [behindMark?_eq_some_iff (by decide) (by decide), written_unmarked_iff hmark,
      twiceSigned_unmarked_iff hmark]
    simp

/-- Two signs leave no digit where a signed numeral has its first one. -/
theorem SignedAgain.not_signed (hr : radix ≤ 16) {j : Int} (h : SignedAgain radix t i) :
    ¬ Signed radix t j := by
  have hsigns : ∃ c d u, IsSign c ∧ IsSign d ∧ t = c :: d :: u := by
    cases h with
    | plus hc => exact ⟨_, _, _, Or.inl rfl, hc, rfl⟩
    | minus hc => exact ⟨_, _, _, Or.inr rfl, hc, rfl⟩
  obtain ⟨c, d, u, hc, hd, rfl⟩ := hsigns
  intro hsigned
  cases hsigned with
  | bare h => exact not_isSign_of_spells hr h hc
  | plus h => exact not_isSign_of_spells hr h hd
  | minus h => exact not_isSign_of_spells hr h hd

theorem TwiceSigned.not_written {j : Int} (h : TwiceSigned word i) : ¬ Written word j := by
  by_cases hmark : word.head? = some '&'
  · obtain ⟨t, rfl⟩ := List.head?_eq_some_iff.mp hmark
    rw [twiceSigned_marked_iff] at h
    rw [written_marked_iff]
    rintro (⟨hsigned, _⟩ | ⟨rfl | ⟨c, _, rfl⟩, _⟩)
    · exact h.not_signed (by decide) hsigned
    · cases h
    · cases h
  · rw [twiceSigned_unmarked_iff hmark] at h
    rw [written_unmarked_iff hmark]
    exact fun hsigned => h.not_signed (by decide) hsigned.1

/-- A word with at most one sign in front of its digits is read exactly if it is a number, and comes
to it modulo 2^24. A word is read besides exactly if it has two signs, of which both count; no such
word is a number. -/
theorem numbers_read (word : Text) :
    ((∀ i, ¬ TwiceSigned word i) →
      ∀ n, number? word = some n ↔ ∃ i, Written word i ∧ (n : Int) = i % 0x1000000) ∧
    ∀ i, TwiceSigned word i → (∀ j, ¬ Written word j) ∧
      ∀ n, number? word = some n ↔ ∃ j, TwiceSigned word j ∧ (n : Int) = j % 0x1000000 := by
  constructor
  · intro hone n
    rw [number?_eq_some_iff]
    simp only [hone, or_false]
  · intro i htwice
    have hnot : ∀ j, ¬ Written word j := fun j => htwice.not_written
    refine ⟨hnot, fun n => ?_⟩
    rw [number?_eq_some_iff]
    simp only [hnot, false_or]

theorem two_signs_read : number? "--5" = some 5 ∧ ∀ i, ¬ Written "--5" i := by
  have hdigit : Spells 10 ['5'] 5 := ⟨by decide, [5], .cons ⟨by decide, Or.inl rfl⟩ .nil, rfl⟩
  have htwice : TwiceSigned ['-', '-', '5'] (- -(5 : Nat)) :=
    Or.inl (.minus (Or.inr rfl) (.minus hdigit (by decide)))
  exact ⟨rfl, fun i => htwice.not_written⟩

end CardShell.Arguments
