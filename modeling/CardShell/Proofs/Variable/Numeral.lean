import CardShell.Proofs.Text.Case
import CardShell.Variable.Expand
import Mathlib.Data.List.DropRight
import Mathlib.Data.List.Forall2
import Mathlib.Data.Nat.Digits.Defs
import Mathlib.Tactic.Ring

/-!
What a text says as a number. A numeral is a row of digits with at most one sign in front of it,
within the 64-bit signed range; an integer is a decimal numeral, or a hexadecimal one behind `&`,
perhaps between blanks. The readers find just these.
-/

set_option autoImplicit false

namespace CardShell

namespace Text

/-- Blanks around a text whose ends are none are trimmed, and nothing else. -/
theorem trim_between {before word behind : Text} (hbefore : ∀ c ∈ before, isBlank c = true)
    (hbehind : ∀ c ∈ behind, isBlank c = true) (hhead : ∀ c ∈ word.head?, isBlank c = false)
    (hlast : ∀ c ∈ word.getLast?, isBlank c = false) :
    trim (before ++ (word ++ behind)) = word := by
  have hstart : trimStart (before ++ (word ++ behind)) = trimStart (word ++ behind) :=
    List.dropWhile_append_of_pos hbefore
  cases word with
  | nil =>
    have hall : trimStart behind = [] := List.dropWhile_eq_nil_iff.mpr hbehind
    rw [trim, hstart, List.nil_append, hall]
    rfl
  | cons c word =>
    have hkeep : trimStart (c :: word ++ behind) = c :: word ++ behind :=
      List.dropWhile_cons_of_neg (ne_true_of_eq_false (hhead c rfl))
    have hend : dropWhileEnd isBlank (c :: word) = c :: word :=
      List.rdropWhile_eq_self_iff.mpr fun hne =>
        ne_true_of_eq_false (hlast _ (List.getLast?_eq_some_getLast hne))
    rw [trim, hstart, hkeep, trimEnd, dropWhileEnd, List.reverse_append,
      List.dropWhile_append_of_pos]
    · exact hend
    · exact fun d hd => hbehind d (List.mem_reverse.mp hd)

theorem exists_trim (t : Text) : ∃ before behind, t = before ++ (t.trim ++ behind) ∧
    (∀ c ∈ before, isBlank c = true) ∧ ∀ c ∈ behind, isBlank c = true := by
  have hstart := List.takeWhile_append_dropWhile (p := isBlank) (l := t)
  have hend := List.takeWhile_append_dropWhile (p := isBlank) (l := t.trimStart.reverse)
  refine ⟨t.takeWhile isBlank, (t.trimStart.reverse.takeWhile isBlank).reverse, ?_, ?_, ?_⟩
  · have hrest : t.trim ++ (t.trimStart.reverse.takeWhile isBlank).reverse = t.trimStart := by
      rw [trim, trimEnd, dropWhileEnd, ← List.reverse_append, hend, List.reverse_reverse]
    rw [hrest]
    exact hstart.symm
  · exact fun c hc => List.mem_takeWhile_imp hc
  · exact fun c hc => List.mem_takeWhile_imp (List.mem_reverse.mp hc)

end Text

namespace Numeral

variable {radix bound n d : Nat} {c : Char} {t : Text} {i : Int}

/-- `c` is the digit for `d`, in either case. -/
def IsDigit (radix : Nat) (c : Char) (d : Nat) : Prop :=
  d < radix ∧ (c = d.digitChar ∨ c = d.digitChar.toUpper)

/-- The digits of `t`, the highest first, come to `n`. -/
def Spells (radix : Nat) (t : Text) (n : Nat) : Prop :=
  t ≠ [] ∧ ∃ ds, List.Forall₂ (IsDigit radix) t ds ∧ Nat.ofDigits radix ds.reverse = n

/-- A numeral with at most one sign, within the 64-bit signed range. -/
inductive Signed (radix : Nat) : Text → Int → Prop
  | bare {t : Text} {n : Nat} (h : Spells radix t n) (hn : n < 0x8000000000000000) :
    Signed radix t n
  | plus {t : Text} {n : Nat} (h : Spells radix t n) (hn : n < 0x8000000000000000) :
    Signed radix ('+' :: t) n
  | minus {t : Text} {n : Nat} (h : Spells radix t n) (hn : n ≤ 0x8000000000000000) :
    Signed radix ('-' :: t) (-n)

theorem IsDigit.elim {P : Char → Prop} (hP : ∀ d < 16, P d.digitChar ∧ P d.digitChar.toUpper)
    (hr : radix ≤ 16) (h : IsDigit radix c d) : P c := by
  obtain ⟨hd, rfl | rfl⟩ := h
  · exact (hP d (Nat.lt_of_lt_of_le hd hr)).1
  · exact (hP d (Nat.lt_of_lt_of_le hd hr)).2

theorem toNat_digitChar : ∀ d < 16, (d < 10 → d.digitChar.toNat = d + 48 ∧
    d.digitChar.toUpper.toNat = d + 48) ∧ (10 ≤ d → d.digitChar.toNat = d + 87 ∧
    d.digitChar.toUpper.toNat = d + 55) := by decide

theorem isDigit_iff (hr : radix ≤ 16) : IsDigit radix c d ↔ d < radix ∧
    (d < 10 ∧ c.toNat = d + 48 ∨ 10 ≤ d ∧ (c.toNat = d + 87 ∨ c.toNat = d + 55)) := by
  refine and_congr_right fun hd => ?_
  obtain ⟨hfigure, hletter⟩ := toNat_digitChar d (Nat.lt_of_lt_of_le hd hr)
  have heq : ∀ e : Char, c = e ↔ c.toNat = e.toNat := fun e =>
    ⟨congrArg Char.toNat, Text.char_eq_of_toNat⟩
  rw [heq, heq]
  rcases Nat.lt_or_ge d 10 with hlt | hge
  · obtain ⟨h, h'⟩ := hfigure hlt
    rw [h, h']
    omega
  · obtain ⟨h, h'⟩ := hletter hge
    rw [h, h']
    omega

theorem digit?_eq_some_iff (hr : radix ≤ 16) : digit? radix c = some d ↔ IsDigit radix c d := by
  have hle : ∀ e e' : Char, e ≤ e' ↔ e.toNat ≤ e'.toNat := fun e e' => UInt32.le_iff_toNat_le
  rw [isDigit_iff hr]
  unfold digit?
  simp only [hle]
  have h0 : '0'.toNat = 48 := rfl
  have h9 : '9'.toNat = 57 := rfl
  have ha : 'a'.toNat = 97 := rfl
  have hf : 'f'.toNat = 102 := rfl
  have hA : 'A'.toNat = 65 := rfl
  have hF : 'F'.toNat = 70 := rfl
  rw [h0, h9, ha, hf, hA, hF]
  split_ifs with h <;> simp only [Option.some.injEq, false_iff] <;> omega

/-- The bound is looked at digit by digit, but the last sum is the greatest. -/
theorem digits?_eq_some_iff (hpos : 0 < radix) (hr : radix ≤ 16) {acc : Nat} (hacc : acc < bound) :
    digits? radix bound acc t = some n ↔ ∃ ds, List.Forall₂ (IsDigit radix) t ds ∧
      acc * radix ^ ds.length + Nat.ofDigits radix ds.reverse = n ∧ n < bound := by
  induction t generalizing acc with
  | nil =>
    constructor
    · intro h
      cases h
      exact ⟨[], .nil, by simp, hacc⟩
    · rintro ⟨ds, hds, hn, _⟩
      cases hds
      simpa [digits?] using hn
  | cons c t ih =>
    have hsum : ∀ (d : Nat) (ds : List Nat), acc * radix ^ (d :: ds).length +
        Nat.ofDigits radix (d :: ds).reverse =
        (acc * radix + d) * radix ^ ds.length + Nat.ofDigits radix ds.reverse := by
      intro d ds
      rw [Nat.ofDigits_reverse_cons, List.length_cons]
      ring
    have hgrow : ∀ (m k : Nat), m ≤ m * radix ^ k := fun m k =>
      Nat.le_mul_of_pos_right m (Nat.pow_pos hpos)
    rw [digits?]
    constructor
    · intro h
      cases hc : digit? radix c with
      | none =>
        rw [hc] at h
        cases h
      | some d =>
        simp only [hc] at h
        split at h
        · rename_i hlt
          obtain ⟨ds, hds, hn, hb⟩ := (ih hlt).mp h
          exact ⟨d :: ds, .cons ((digit?_eq_some_iff hr).mp hc) hds, (hsum d ds).trans hn, hb⟩
        · cases h
    · rintro ⟨ds, hds, hn, hb⟩
      cases hds with
      | @cons _ d _ ds hc hds =>
        have hle := hgrow (acc * radix + d) ds.length
        rw [hsum] at hn
        have hlt : acc * radix + d < bound := by omega
        rw [(digit?_eq_some_iff hr).mpr hc]
        simp only [if_pos hlt]
        exact (ih hlt).mpr ⟨ds, hds, hn, hb⟩

theorem natural?_eq_some_iff (hpos : 0 < radix) (hr : radix ≤ 16) (hb : 0 < bound) :
    natural? radix bound t = some n ↔ Spells radix t n ∧ n < bound := by
  unfold natural? Spells
  by_cases ht : t = []
  · rw [if_pos ht]
    exact iff_of_false nofun fun h => h.1.1 ht
  · rw [if_neg ht, digits?_eq_some_iff hpos hr hb]
    simp only [Nat.zero_mul, Nat.zero_add]
    constructor
    · rintro ⟨ds, hds, hn, hlt⟩
      exact ⟨⟨ht, ds, hds, hn⟩, hlt⟩
    · rintro ⟨⟨_, ds, hds, hn⟩, hlt⟩
      exact ⟨ds, hds, hn, hlt⟩

theorem Spells.unique (hpos : 0 < radix) (hr : radix ≤ 16) (h : Spells radix t n)
    {k : Nat} (h' : Spells radix t k) : n = k := by
  have hn : natural? radix (n + k + 1) t = some n :=
    (natural?_eq_some_iff hpos hr (by omega)).mpr ⟨h, by omega⟩
  have hk : natural? radix (n + k + 1) t = some k :=
    (natural?_eq_some_iff hpos hr (by omega)).mpr ⟨h', by omega⟩
  exact Option.some.inj (hn.symm.trans hk)

theorem natural?_of_spells (hpos : 0 < radix) (hr : radix ≤ 16) (hb : 0 < bound)
    (h : Spells radix t n) : natural? radix bound t = if n < bound then some n else none := by
  split
  · rename_i hn
    exact (natural?_eq_some_iff hpos hr hb).mpr ⟨h, hn⟩
  · rename_i hn
    refine Option.eq_none_iff_forall_ne_some.mpr fun k hk => hn ?_
    obtain ⟨h', hlt⟩ := (natural?_eq_some_iff hpos hr hb).mp hk
    exact h.unique hpos hr h' ▸ hlt

theorem Spells.forall {P : Char → Prop} (hP : ∀ d < 16, P d.digitChar ∧ P d.digitChar.toUpper)
    (hr : radix ≤ 16) (h : Spells radix t n) : ∀ c ∈ t, P c := by
  obtain ⟨hne, ds, hds, hn⟩ := h
  clear hne hn
  induction hds with
  | nil => simp
  | cons hc _ ih => exact List.forall_mem_cons.mpr ⟨hc.elim hP hr, ih⟩

theorem signed?_eq_some_iff (hpos : 0 < radix) (hr : radix ≤ 16) :
    signed? radix t = some i ↔ Signed radix t i := by
  have hnat : ∀ (u : Text) (b : Nat) (f : Int → Int), 0 < b →
      ((natural? radix b u >>= fun n => pure (n : Int)).map f = some i ↔
        ∃ n : Nat, Spells radix u n ∧ n < b ∧ f n = i) := by
    intro u b f hb
    simp only [Option.pure_def, Option.bind_eq_bind, Option.map_bind, Option.bind_eq_some_iff,
      natural?_eq_some_iff hpos hr hb, and_assoc, Function.comp, Option.map_some, Option.some.injEq]
  have hsign : ∀ {u : Text} {n : Nat}, Spells radix u n → ∀ c ∈ u, c ≠ '-' ∧ c ≠ '+' :=
    fun h => h.forall (by decide) hr
  unfold signed?
  split
  · rename_i u
    rw [hnat _ _ _ (by decide)]
    constructor
    · rintro ⟨n, h, hn, rfl⟩
      exact .minus h (Nat.le_of_lt_succ hn)
    · intro h
      generalize ht : '-' :: u = t at h
      cases h with
      | bare h => exact absurd rfl (hsign h '-' (ht ▸ List.mem_cons_self)).1
      | plus h => cases ht
      | @minus _ n h hn =>
        cases ht
        exact ⟨n, h, Nat.lt_succ_of_le hn, rfl⟩
  · rename_i u
    rw [hnat _ _ _ (by decide)]
    constructor
    · rintro ⟨n, h, hn, rfl⟩
      exact .plus h hn
    · intro h
      generalize ht : '+' :: u = t at h
      cases h with
      | bare h => exact absurd rfl (hsign h '+' (ht ▸ List.mem_cons_self)).2
      | minus h => cases ht
      | @plus _ n h hn =>
        cases ht
        exact ⟨n, h, hn, rfl⟩
  · rename_i hminus hplus
    rw [hnat _ _ _ (by decide)]
    constructor
    · rintro ⟨n, h, hn, rfl⟩
      exact .bare h hn
    · intro h
      cases h with
      | @bare _ n h hn => exact ⟨n, h, hn, rfl⟩
      | @plus u => exact absurd rfl (hplus u)
      | @minus u => exact absurd rfl (hminus u)

theorem Signed.forall {P : Char → Prop} (hP : ∀ d < 16, P d.digitChar ∧ P d.digitChar.toUpper)
    (hplus : P '+') (hminus : P '-') (hr : radix ≤ 16) (h : Signed radix t i) : ∀ c ∈ t, P c := by
  cases h with
  | bare h => exact h.forall hP hr
  | plus h => exact List.forall_mem_cons.mpr ⟨hplus, h.forall hP hr⟩
  | minus h => exact List.forall_mem_cons.mpr ⟨hminus, h.forall hP hr⟩

end Numeral

namespace Expand

/-- An integer as expansions and expressions write it: decimal, or hexadecimal behind `&`, perhaps
between blanks. -/
def Denotes (t : Text) (i : Int) : Prop :=
  ∃ before word behind, t = before ++ (word ++ behind) ∧
    (∀ c ∈ before, Text.isBlank c = true) ∧ (∀ c ∈ behind, Text.isBlank c = true) ∧
    (Numeral.Signed 10 word i ∨ ∃ u, word = '&' :: u ∧ Numeral.Signed 16 u i)

theorem integer?_eq_some_iff {t : Text} {i : Int} : integer? t = some i ↔ Denotes t i := by
  have hamp : ∀ {u : Text} {i : Int}, Numeral.Signed 10 u i → ∀ c ∈ u, c ≠ '&' :=
    fun h => h.forall (by decide) (by decide) (by decide) (by decide)
  have hword : integer? t = some i ↔
      Numeral.Signed 10 t.trim i ∨ ∃ u, t.trim = '&' :: u ∧ Numeral.Signed 16 u i := by
    unfold integer?
    split
    · rename_i u hu
      rw [Numeral.signed?_eq_some_iff (by decide) (by decide), hu]
      constructor
      · exact fun h => Or.inr ⟨u, rfl, h⟩
      · rintro (h | ⟨_, ⟨⟩, h⟩)
        · exact absurd rfl (hamp h '&' List.mem_cons_self)
        · exact h
    · rename_i hu
      rw [Numeral.signed?_eq_some_iff (by decide) (by decide)]
      constructor
      · exact Or.inl
      · rintro (h | ⟨u, h, _⟩)
        · exact h
        · exact absurd h (hu u)
  rw [hword]
  constructor
  · intro h
    obtain ⟨before, behind, ht, hbefore, hbehind⟩ := Text.exists_trim t
    exact ⟨before, t.trim, behind, ht, hbefore, hbehind, h⟩
  · rintro ⟨before, word, behind, rfl, hbefore, hbehind, h⟩
    have hall : ∀ c ∈ word, Text.isBlank c = false := by
      rcases h with h | ⟨u, rfl, h⟩
      · exact h.forall (by decide) (by decide) (by decide) (by decide)
      · exact List.forall_mem_cons.mpr
          ⟨by decide, h.forall (by decide) (by decide) (by decide) (by decide)⟩
    rw [Text.trim_between hbefore hbehind]
    · exact h
    · exact fun c hc => hall c (List.mem_of_mem_head? hc)
    · exact fun c hc => hall c (List.mem_of_mem_getLast? hc)

theorem integer?_eq_none_iff {t : Text} : integer? t = none ↔ ∀ i, ¬ Denotes t i := by
  rw [Option.eq_none_iff_forall_ne_some]
  exact forall_congr' fun i => not_congr integer?_eq_some_iff

end Expand

end CardShell
