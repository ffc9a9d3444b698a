import CardShell.Proofs.Variable.Substitution
import CardShell.Variable.Expression

/-!
Formulas: trees of constants, labels, signs, operators and brackets. `tokens` writes one with no
more brackets than the order of the operators asks for, and `Evaluates` says what number it comes
to. If it comes to none, one of its parts is at fault.
-/

set_option autoImplicit false

namespace CardShell.Expression

variable {vs : Variables} {r : Readings} {a b i n : Int} {w t u : Text}

def Fits32 (n : Int) : Prop := -0x80000000 ≤ n ∧ n < 0x80000000

/-- The one number of 32 bits that differs by a multiple of 2³². -/
theorem wrap_eq_iff : wrap i = n ↔ Fits32 n ∧ (0x100000000 : Int) ∣ i - n := by
  unfold wrap Fits32
  rw [Int.bmod_def]
  split <;> omega

theorem fits32_wrap (i : Int) : Fits32 (wrap i) := (wrap_eq_iff.mp rfl).1

section Words

/-- A decimal numeral, or a hexadecimal one, below 2⁶³. -/
structure Constant where
  isHex : Bool
  digits : Text
  value : Nat
  spells : Numeral.Spells (if isHex then 16 else 10) digits value
  value_lt : value < 0x8000000000000000

def Constant.text (c : Constant) : Text := if c.isHex then '&' :: c.digits else c.digits

/-- A label that can stand in a formula: one word, not empty, of characters of one byte, and not a
number. A quotation mark at the start would make a quoted text of what follows. -/
structure Label where
  text : Text
  text_ne : text ≠ []
  ascii : ∀ c ∈ text, c.toNat < 128
  no_blank : ∀ c ∈ text, Text.isBlank c = false
  no_symbol : ∀ c ∈ text, c ∉ ['+', '-', '*', '/', '(', ')']
  no_quote : text.head? ≠ some '"'
  no_number : ∀ i, ¬ Expand.Denotes text i

theorem Constant.denotes (c : Constant) : Expand.Denotes c.text c.value := by
  obtain ⟨isHex, digits, value, spells, hlt⟩ := c
  cases isHex with
  | false => exact ⟨[], digits, [], by simp [text], by simp, by simp, Or.inl (.bare spells hlt)⟩
  | true =>
    exact ⟨[], '&' :: digits, [], by simp [text], by simp, by simp,
      Or.inr ⟨digits, rfl, .bare spells hlt⟩⟩

end Words

section Operators

inductive Operator
  | add | sub | mul | div | mod
  deriving DecidableEq, Repr

namespace Operator

def text : Operator → Text
  | add => ['+']
  | sub => ['-']
  | mul => ['*']
  | div => ['/']
  | mod => ['M', 'O', 'D']

/-- How tight the operator binds. -/
def level : Operator → Nat
  | add | sub => 0
  | mul | div | mod => 1

def divides : Operator → Bool
  | div | mod => true
  | _ => false

/-- In 32 bits; quotients round towards zero. There is none by 0, nor of −2³¹ by −1. -/
def apply : Operator → Int → Int → Option Int
  | add, a, b => some (wrap (a + b))
  | sub, a, b => some (wrap (a - b))
  | mul, a, b => some (wrap (a * b))
  | div, a, b => if b = 0 ∨ a = -0x80000000 ∧ b = -1 then none else some (a.tdiv b)
  | mod, a, b => if b = 0 ∨ a = -0x80000000 ∧ b = -1 then none else some (a.tmod b)

/-- Where there is no result, it is the operator that fails. -/
def outcome (op : Operator) (a b : Int) : Except Error Int :=
  (op.apply a b).elim (.error .invalidParameter) .ok

theorem apply_eq_none_iff {op : Operator} :
    op.apply a b = none ↔ op.divides = true ∧ (b = 0 ∨ a = -0x80000000 ∧ b = -1) := by
  cases op with
  | add | sub | mul => exact iff_of_false nofun nofun
  | div | mod =>
    rw [apply]
    split
    · rename_i h
      exact iff_of_true rfl ⟨rfl, h⟩
    · rename_i h
      exact iff_of_false nofun fun h' => h h'.2

/-- Only the lowest number divided by −1 would grow. -/
theorem fits32_tdiv (ha : Fits32 a) (hb : ¬ (a = -0x80000000 ∧ b = -1)) : Fits32 (a.tdiv b) := by
  unfold Fits32 at ha ⊢
  have habs : (a.tdiv b).natAbs = a.natAbs / b.natAbs := Int.natAbs_tdiv a b
  rcases Nat.lt_or_ge b.natAbs 2 with hlt | hge
  · obtain rfl | rfl | rfl : b = 0 ∨ b = 1 ∨ b = -1 := by omega
    · simp
    · rwa [Int.tdiv_one]
    · rw [Int.tdiv_neg, Int.tdiv_one]
      omega
  · have hle : a.natAbs / b.natAbs ≤ a.natAbs / 2 := Nat.div_le_div_left hge (by decide)
    omega

theorem fits32_tmod (ha : Fits32 a) : Fits32 (a.tmod b) := by
  unfold Fits32 at ha ⊢
  have habs : (a.tmod b).natAbs = a.natAbs % b.natAbs := Int.natAbs_tmod a b
  have hle := Nat.mod_le a.natAbs b.natAbs
  rcases le_total 0 a with h | h
  · have hsign := Int.tmod_nonneg b h
    omega
  · have hsign := Int.tmod_nonneg b (Int.neg_nonneg_of_nonpos h)
    rw [Int.neg_tmod] at hsign
    omega

theorem fits32_apply {op : Operator} (ha : Fits32 a) (h : op.apply a b = some n) : Fits32 n := by
  cases op with
  | add | sub | mul =>
    cases h
    exact fits32_wrap _
  | div =>
    obtain ⟨hb, ⟨⟩⟩ := Option.ite_none_left_eq_some.mp h
    exact fits32_tdiv ha (not_or.mp hb).2
  | mod =>
    obtain ⟨_, ⟨⟩⟩ := Option.ite_none_left_eq_some.mp h
    exact fits32_tmod ha

end Operator

end Operators

section Formulas

inductive Formula
  | constant (c : Constant)
  | named (l : Label)
  | negate (e : Formula)
  /-- With the sign that changes nothing. -/
  | keep (e : Formula)
  | binary (op : Operator) (a b : Formula)
  | brackets (e : Formula)

def bracketed (needed : Bool) (ts : List Text) : List Text :=
  if needed then ['('] :: (ts ++ [[')']]) else ts

namespace Formula

/-- How tight a formula holds together: 0 for sums, 1 for products, 2 for all else. -/
def level : Formula → Nat
  | binary op _ _ => op.level
  | _ => 2

/-- Operators of one level associate to the left, so on their right a formula of the same level
stands in brackets. -/
def tokens : Formula → List Text
  | constant c => [c.text]
  | named l => [l.text]
  | negate e => ['-'] :: bracketed (e.level < 2) e.tokens
  | keep e => ['+'] :: bracketed (e.level < 2) e.tokens
  | binary op a b => bracketed (a.level < op.level) a.tokens ++
      op.text :: bracketed (b.level < op.level + 1) b.tokens
  | brackets e => bracketed true e.tokens

/-- The formula itself and all formulas in it. -/
def parts : Formula → List Formula
  | constant c => [constant c]
  | named l => [named l]
  | negate e => negate e :: e.parts
  | keep e => keep e :: e.parts
  | binary op a b => binary op a b :: (a.parts ++ b.parts)
  | brackets e => brackets e :: e.parts

end Formula

end Formulas

section Values

/-- The number that a variable of this value stands for. A value that is no number is read as a
text, for which templates may nest 16 deep. -/
inductive StandsFor (vs : Variables) (r : Readings) : Value → Int → Prop
  | number (n : Int) : StandsFor vs r (.number n) n
  | text {v : Value} {t : Text} {n : Nat} {i : Int} (hv : ∀ k, v ≠ .number k) (hn : n ≤ 16)
    (ht : Expand.Means vs r n v t) (hi : Expand.Denotes t i) : StandsFor vs r v (wrap i)

inductive Evaluates (vs : Variables) (r : Readings) : Formula → Int → Prop
  | constant (c : Constant) : Evaluates vs r (.constant c) (wrap c.value)
  | named {l : Label} {v : Variable} {n : Int} (hv : vs.get? l.text = some v)
    (h : StandsFor vs r v.value n) : Evaluates vs r (.named l) n
  | negate {e : Formula} {n : Int} (h : Evaluates vs r e n) :
    Evaluates vs r (.negate e) (wrap (-n))
  | keep {e : Formula} {n : Int} (h : Evaluates vs r e n) : Evaluates vs r (.keep e) n
  | binary {op : Operator} {e f : Formula} {a b n : Int} (ha : Evaluates vs r e a)
    (hb : Evaluates vs r f b) (h : op.apply a b = some n) : Evaluates vs r (.binary op e f) n
  | brackets {e : Formula} {n : Int} (h : Evaluates vs r e n) : Evaluates vs r (.brackets e) n

/-- The formula is a cause of failure by itself. -/
inductive Faulty (vs : Variables) (r : Readings) : Formula → Prop
  | missing {l : Label} (h : vs.get? l.text = none) : Faulty vs r (.named l)
  | unreadable {l : Label} {v : Variable} (hv : vs.get? l.text = some v)
    (h : ∀ n ≤ 16, ∀ t, ¬ Expand.Means vs r n v.value t) : Faulty vs r (.named l)
  | noNumber {l : Label} {v : Variable} {t : Text} {n : Nat} (hv : vs.get? l.text = some v)
    (hk : ∀ k, v.value ≠ .number k) (hn : n ≤ 16) (ht : Expand.Means vs r n v.value t)
    (hi : ∀ i, ¬ Expand.Denotes t i) : Faulty vs r (.named l)
  | zero {op : Operator} {e f : Formula} (hop : op.divides = true) (h : Evaluates vs r f 0) :
    Faulty vs r (.binary op e f)
  | overflow {op : Operator} {e f : Formula} (hop : op.divides = true)
    (ha : Evaluates vs r e (-0x80000000)) (hb : Evaluates vs r f (-1)) :
    Faulty vs r (.binary op e f)

end Values

section Computing

/-- The value of a formula by the values of its words, from left to right. -/
def Formula.run (word : Text → Except Error Int) : Formula → Except Error Int
  | constant c => word c.text
  | named l => word l.text
  | negate e => do .ok (wrap (-(← e.run word)))
  | keep e => e.run word
  | binary op e f => do
    let a ← e.run word
    let b ← f.run word
    op.outcome a b
  | brackets e => e.run word

theorem wordValue_constant (c : Constant) : wordValue vs r c.text = .ok (wrap c.value) := by
  unfold wordValue
  rw [Expand.integer?_eq_some_iff.mpr c.denotes]

theorem wordValue_missing {l : Label} (hv : vs.get? l.text = none) :
    wordValue vs r l.text = .error .invalidParameter := by
  unfold wordValue
  rw [Expand.integer?_eq_none_iff.mpr l.no_number, hv]

theorem wordValue_number {l : Label} {v : Variable} (hv : vs.get? l.text = some v)
    (hn : v.value = .number n) : wordValue vs r l.text = .ok n := by
  unfold wordValue
  rw [Expand.integer?_eq_none_iff.mpr l.no_number, hv]
  dsimp only
  rw [hn]

theorem wordValue_read {l : Label} {v : Variable} (hv : vs.get? l.text = some v)
    (hk : ∀ k, v.value ≠ .number k) :
    wordValue vs r l.text = (do
      match Expand.integer? (← Expand.value vs r v.value) with
      | some i => .ok (wrap i)
      | none => .error .invalidParameter) := by
  unfold wordValue
  rw [Expand.integer?_eq_none_iff.mpr l.no_number, hv]
  dsimp only
  split
  · rename_i k hnum
    exact absurd hnum (hk k)
  · rfl

/-- A label stands for a number, or it is at fault. -/
theorem wordValue_cases (vs : Variables) (r : Readings) (l : Label) :
    (∃ n, wordValue vs r l.text = .ok n ∧ Evaluates vs r (.named l) n) ∨
      (∃ err, wordValue vs r l.text = .error err) ∧ Faulty vs r (.named l) := by
  cases hv : vs.get? l.text with
  | none => exact Or.inr ⟨⟨_, wordValue_missing hv⟩, .missing hv⟩
  | some v =>
    by_cases hk : ∃ k, v.value = .number k
    · obtain ⟨k, hk⟩ := hk
      exact Or.inl ⟨k, wordValue_number hv hk, .named hv (hk ▸ .number k)⟩
    · have hk := not_exists.mp hk
      have hread := wordValue_read (r := r) hv hk
      cases ht : Expand.value vs r v.value with
      | error err =>
        rw [ht] at hread
        refine Or.inr ⟨⟨err, hread⟩, .unreadable hv fun n hn t h => ?_⟩
        cases ht.symm.trans (Expand.value_eq_ok_iff.mpr ⟨n, hn, h⟩)
      | ok t =>
        obtain ⟨m, hm, hmeans⟩ := Expand.value_eq_ok_iff.mp ht
        simp only [ht, bind, Except.bind] at hread
        cases hi : Expand.integer? t with
        | none =>
          rw [hi] at hread
          exact Or.inr ⟨⟨_, hread⟩, .noNumber hv hk hm hmeans (Expand.integer?_eq_none_iff.mp hi)⟩
        | some i =>
          rw [hi] at hread
          exact Or.inl ⟨_, hread, .named hv (.text hk hm hmeans (Expand.integer?_eq_some_iff.mp hi))⟩

theorem run_binary {word : Text → Except Error Int} {op : Operator} {e f : Formula}
    (ha : e.run word = .ok a) (hb : f.run word = .ok b) :
    (Formula.binary op e f).run word = op.outcome a b := by
  rw [Formula.run, ha, hb]
  rfl

theorem run_cases (vs : Variables) (r : Readings) (e : Formula) :
    (∃ n, e.run (wordValue vs r) = .ok n ∧ Evaluates vs r e n) ∨
      (∃ err, e.run (wordValue vs r) = .error err) ∧ ∃ f ∈ e.parts, Faulty vs r f := by
  induction e with
  | constant c => exact Or.inl ⟨_, wordValue_constant c, .constant c⟩
  | named l =>
    rcases wordValue_cases vs r l with h | ⟨herr, h⟩
    · exact Or.inl h
    · exact Or.inr ⟨herr, _, List.mem_singleton_self _, h⟩
  | negate e ih =>
    rcases ih with ⟨n, hn, h⟩ | ⟨⟨err, herr⟩, f, hf, h⟩
    · exact Or.inl ⟨wrap (-n), by rw [Formula.run, hn]; rfl, .negate h⟩
    · exact Or.inr ⟨⟨err, by rw [Formula.run, herr]; rfl⟩, f, List.mem_cons_of_mem _ hf, h⟩
  | keep e ih =>
    rcases ih with ⟨n, hn, h⟩ | ⟨herr, f, hf, h⟩
    · exact Or.inl ⟨n, hn, .keep h⟩
    · exact Or.inr ⟨herr, f, List.mem_cons_of_mem _ hf, h⟩
  | brackets e ih =>
    rcases ih with ⟨n, hn, h⟩ | ⟨herr, f, hf, h⟩
    · exact Or.inl ⟨n, hn, .brackets h⟩
    · exact Or.inr ⟨herr, f, List.mem_cons_of_mem _ hf, h⟩
  | binary op e f ihe ihf =>
    rcases ihe with ⟨a, ha, hea⟩ | ⟨⟨err, herr⟩, g, hg, h⟩
    · rcases ihf with ⟨b, hb, hfb⟩ | ⟨⟨err, herr⟩, g, hg, h⟩
      · rw [run_binary ha hb, Operator.outcome]
        cases hop : op.apply a b with
        | some n => exact Or.inl ⟨n, rfl, .binary hea hfb hop⟩
        | none =>
          refine Or.inr ⟨⟨_, rfl⟩, _, List.mem_cons_self, ?_⟩
          obtain ⟨hdiv, rfl | ⟨rfl, rfl⟩⟩ := Operator.apply_eq_none_iff.mp hop
          · exact .zero hdiv hfb
          · exact .overflow hdiv hea hfb
      · refine Or.inr ⟨⟨err, ?_⟩, g, List.mem_cons_of_mem _ (List.mem_append_right _ hg), h⟩
        rw [Formula.run, ha, herr]
        rfl
    · refine Or.inr ⟨⟨err, ?_⟩, g, List.mem_cons_of_mem _ (List.mem_append_left _ hg), h⟩
      rw [Formula.run, herr]
      rfl

theorem Evaluates.run {e : Formula} (h : Evaluates vs r e n) : e.run (wordValue vs r) = .ok n := by
  induction h with
  | constant c => exact wordValue_constant c
  | @named l v n hv h =>
    obtain ⟨label, value⟩ := v
    cases h with
    | number => exact wordValue_number hv rfl
    | text hk hn ht hi =>
      have hvalue := Expand.value_eq_ok_iff.mpr ⟨_, hn, ht⟩
      show wordValue vs r l.text = _
      rw [wordValue_read hv hk, hvalue]
      simp only [bind, Except.bind, Expand.integer?_eq_some_iff.mpr hi]
  | negate _ ih => rw [Formula.run, ih]; rfl
  | keep _ ih => exact ih
  | brackets _ ih => exact ih
  | binary _ _ hop iha ihb => rw [run_binary iha ihb, Operator.outcome, hop]; rfl

theorem run_eq_ok_iff {e : Formula} : e.run (wordValue vs r) = .ok n ↔ Evaluates vs r e n := by
  refine ⟨fun h => ?_, Evaluates.run⟩
  rcases run_cases vs r e with ⟨m, hm, he⟩ | ⟨⟨err, herr⟩, _⟩
  · cases hm.symm.trans h
    exact he
  · cases herr.symm.trans h

theorem Evaluates.unique {e : Formula} (ha : Evaluates vs r e a) (hb : Evaluates vs r e b) :
    a = b := by
  cases ha.run.symm.trans hb.run
  rfl

theorem StandsFor.not_faulty {l : Label} {v : Variable} (hv : vs.get? l.text = some v)
    (h : StandsFor vs r v.value n) : ¬ Faulty vs r (.named l) := by
  intro hf
  cases hf with
  | missing hnone => cases hv.symm.trans hnone
  | @unreadable _ w hw hnone =>
    cases hv.symm.trans hw
    obtain ⟨label, value⟩ := v
    cases h with
    | number => exact hnone 0 (Nat.zero_le _) _ (.plain (.number _))
    | text _ hn ht _ => exact hnone _ hn _ ht
  | @noNumber _ w t m hw hk hm ht hi =>
    cases hv.symm.trans hw
    obtain ⟨label, value⟩ := v
    cases h with
    | number => exact hk _ rfl
    | text _ hn ht' hi' =>
      have hvalue := Expand.value_eq_ok_iff.mpr ⟨_, hm, ht⟩
      have hvalue' := Expand.value_eq_ok_iff.mpr ⟨_, hn, ht'⟩
      cases hvalue.symm.trans hvalue'
      exact hi _ hi'

theorem Evaluates.not_faulty {e f : Formula} (h : Evaluates vs r e n) (hf : f ∈ e.parts) :
    ¬ Faulty vs r f := by
  induction h with
  | constant c =>
    cases List.mem_singleton.mp hf
    nofun
  | named hv h =>
    cases List.mem_singleton.mp hf
    exact h.not_faulty hv
  | negate _ ih | keep _ ih | brackets _ ih =>
    rcases List.mem_cons.mp hf with rfl | hf
    · nofun
    · exact ih hf
  | binary ha hb hop iha ihb =>
    rcases List.mem_cons.mp hf with rfl | hf
    · intro hfault
      have hnone := mt Operator.apply_eq_none_iff.mpr (by rw [hop]; nofun)
      cases hfault with
      | zero hdiv h => exact hnone ⟨hdiv, Or.inl (hb.unique h)⟩
      | overflow hdiv h h' => exact hnone ⟨hdiv, Or.inr ⟨ha.unique h, hb.unique h'⟩⟩
    · rcases List.mem_append.mp hf with hf | hf
      · exact iha hf
      · exact ihb hf

theorem run_fails_iff {e : Formula} :
    (∃ err, e.run (wordValue vs r) = .error err) ↔ ∃ f ∈ e.parts, Faulty vs r f := by
  rcases run_cases vs r e with ⟨n, hn, he⟩ | ⟨herr, hf⟩
  · refine iff_of_false ?_ fun ⟨f, hf, hfault⟩ => he.not_faulty hf hfault
    rintro ⟨err, herr⟩
    cases hn.symm.trans herr
  · exact iff_of_true herr hf

theorem mem_of_get? {v : Variable} {label : Text} (h : vs.get? label = some v) : v ∈ vs := by
  induction vs with
  | nil => cases h
  | cons w vs ih =>
    rw [Variables.get?] at h
    split at h
    · cases h
      exact List.mem_cons_self
    · exact List.mem_cons_of_mem w (ih h)

/-- In a store of numbers of 32 bits a formula comes to such a number. -/
theorem Evaluates.fits32 {e : Formula} (hvs : ∀ v ∈ vs, ∀ n, v.value = .number n → Fits32 n)
    (h : Evaluates vs r e n) : Fits32 n := by
  induction h with
  | constant c => exact fits32_wrap _
  | @named l v n hv h =>
    obtain ⟨label, value⟩ := v
    cases h with
    | number => exact hvs _ (mem_of_get? hv) n rfl
    | text => exact fits32_wrap _
  | negate _ ih => exact fits32_wrap _
  | keep _ ih => exact ih
  | brackets _ ih => exact ih
  | binary _ _ hop iha _ => exact Operator.fits32_apply iha hop

end Computing

end CardShell.Expression
