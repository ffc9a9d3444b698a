import CardShell.Command.Dispatch
import CardShell.Proofs.Text.Utf8
import CardShell.Proofs.Variable.Numeral

/-!
Bytes written with backslash escapes. Whatever way is chosen for each byte, the text is expanded to
the bytes it was written for: an escape takes the digits that are its own and no others.
-/

set_option autoImplicit false

namespace CardShell.Display

open Numeral

variable {c e : Char} {d hi lo : Nat} {t : Text} {b : UInt8} {bs : List UInt8}

/-- The letters that stand for a byte behind a backslash. -/
def letters : List (Char × UInt8) := [('\\', 92), ('r', 13), ('n', 10), ('f', 12), ('t', 9)]

/-- The ways to write bytes as a text: a character below 128 for itself, unless it is the backslash;
a letter behind a backslash; and `\x` with two hexadecimal digits, or with one where no digit is
written next. -/
inductive Escaped : Text → List UInt8 → Prop
  | nil : Escaped [] []
  | plain {c : Char} {t : Text} {bs : List UInt8} (hlow : c.toNat < 0x80) (hc : c ≠ '\\') :
      Escaped t bs → Escaped (c :: t) (UInt8.ofNat c.toNat :: bs)
  | letter {c : Char} {b : UInt8} {t : Text} {bs : List UInt8} (hc : (c, b) ∈ letters) :
      Escaped t bs → Escaped ('\\' :: c :: t) (b :: bs)
  | oneDigit {c : Char} {d : Nat} {t : Text} {bs : List UInt8} (hc : IsDigit 16 c d)
      (hnext : ∀ e ∈ t.head?, ∀ k, ¬ IsDigit 16 e k) :
      Escaped t bs → Escaped ('\\' :: 'x' :: c :: t) (UInt8.ofNat d :: bs)
  | twoDigits {c e : Char} {hi lo : Nat} {t : Text} {bs : List UInt8} (hc : IsDigit 16 c hi)
      (he : IsDigit 16 e lo) :
      Escaped t bs → Escaped ('\\' :: 'x' :: c :: e :: t) (UInt8.ofNat (hi * 16 + lo) :: bs)

/-- Every byte can be written, with two digits if not otherwise. -/
theorem exists_escaped (bs : List UInt8) : ∃ t, Escaped t bs := by
  induction bs with
  | nil => exact ⟨[], .nil⟩
  | cons b bs ih =>
    obtain ⟨t, ht⟩ := ih
    have hb := b.toNat_lt
    have hhi : IsDigit 16 (b.toNat / 16).digitChar (b.toNat / 16) := ⟨by omega, Or.inl rfl⟩
    have hlo : IsDigit 16 (b.toNat % 16).digitChar (b.toNat % 16) := ⟨by omega, Or.inl rfl⟩
    have hwritten := Escaped.twoDigits hhi hlo ht
    rw [Nat.div_add_mod', UInt8.ofNat_toNat] at hwritten
    exact ⟨_, hwritten⟩

section Digits

theorem bytes_cons_of_lt (h : c.toNat < 0x80) (t : Text) :
    Text.bytes (c :: t) = UInt8.ofNat c.toNat :: t.bytes := by
  rw [Text.bytes_cons, Text.utf8EncodeChar_of_lt h]
  rfl

theorem lt_of_isDigit (h : IsDigit 16 c d) : c.toNat < 0x80 :=
  h.elim (P := fun c => c.toNat < 0x80) (by decide) (Nat.le_refl 16)

theorem hexDigit?_ofNat (h : c.toNat < 0x80) : hexDigit? (UInt8.ofNat c.toNat) = digit? 16 c := by
  rw [hexDigit?, Text.toNat_ofNat_of_lt (Nat.lt_trans h (by decide)), Char.ofNat_toNat]

theorem hexDigit?_of_isDigit (h : IsDigit 16 c d) : hexDigit? (UInt8.ofNat c.toNat) = some d := by
  rw [hexDigit?_ofNat (lt_of_isDigit h), (digit?_eq_some_iff (Nat.le_refl 16)).mpr h]

/-- No byte from 128 on is a digit. -/
theorem hexDigit?_of_le (h : 0x80 ≤ b.toNat) : hexDigit? b = none := by
  cases hd : hexDigit? b with
  | none => rfl
  | some d =>
    have hb := b.toNat_lt
    have hvalid : b.toNat.isValidChar := Or.inl (by omega)
    have hchar : (Char.ofNat b.toNat).toNat = b.toNat := by
      rw [Char.ofNat, dif_pos hvalid]
      rfl
    have hlow := lt_of_isDigit ((digit?_eq_some_iff (Nat.le_refl 16)).mp hd)
    omega

/-- Where the next character is no digit, the next byte is none. -/
theorem hexDigit?_head_bytes (hnext : ∀ e ∈ t.head?, ∀ k, ¬ IsDigit 16 e k) :
    ∀ b ∈ t.bytes.head?, hexDigit? b = none := by
  cases t with
  | nil => simp [Text.bytes]
  | cons e t =>
    intro b hb
    rcases Nat.lt_or_ge e.toNat 0x80 with hlow | hhigh
    · rw [bytes_cons_of_lt hlow] at hb
      cases hb
      rw [hexDigit?_ofNat hlow]
      cases hd : digit? 16 e with
      | none => rfl
      | some k => exact absurd ((digit?_eq_some_iff (Nat.le_refl 16)).mp hd) (hnext e rfl k)
    · obtain ⟨first, second, rest, hbytes, hall⟩ := Text.utf8EncodeChar_of_le hhigh
      rw [Text.bytes_cons, hbytes] at hb
      cases hb
      exact hexDigit?_of_le (hall _ List.mem_cons_self)

end Digits

section OneItem

theorem unescapeBytes_plain (h : b ≠ 92) (bs : List UInt8) :
    unescapeBytes (b :: bs) = b :: unescapeBytes bs := by
  rw [unescapeBytes.eq_def]
  exact if_pos h

theorem unescapeBytes_letter {code : UInt8} (h : code ≠ 120) (bs : List UInt8) :
    unescapeBytes (92 :: code :: bs) = letterEscape code ++ unescapeBytes bs := by
  rw [unescapeBytes.eq_def]
  exact if_pos h

theorem unescapeBytes_oneDigit (hb : hexDigit? b = some d) (hnext : ∀ e ∈ bs.head?, hexDigit? e = none) :
    unescapeBytes (92 :: 120 :: b :: bs) = UInt8.ofNat d :: unescapeBytes bs := by
  rw [unescapeBytes.eq_def]
  simp only [ne_eq, not_true_eq_false, if_false, hb]
  cases bs with
  | nil => rfl
  | cons e bs =>
    dsimp only
    rw [hnext e rfl]

theorem unescapeBytes_twoDigits {b' : UInt8} (hb : hexDigit? b = some hi) (hb' : hexDigit? b' = some lo)
    (bs : List UInt8) :
    unescapeBytes (92 :: 120 :: b :: b' :: bs) = UInt8.ofNat (hi * 16 + lo) :: unescapeBytes bs := by
  rw [unescapeBytes.eq_def]
  simp only [ne_eq, not_true_eq_false, if_false, hb, hb']

theorem letter_plain : ∀ p ∈ letters, p.1.toNat < 0x80 ∧ UInt8.ofNat p.1.toNat ≠ 120 ∧
    letterEscape (UInt8.ofNat p.1.toNat) = [p.2] := by decide

end OneItem

section Whole

/-- Each item is expanded for itself, so that what is behind it does not matter. -/
theorem Escaped.unescape_eq (h : Escaped t bs) : unescape t = bs := by
  unfold unescape
  induction h with
  | nil => rfl
  | @plain c t bs hlow hc _ ih =>
    have hb : UInt8.ofNat c.toNat ≠ 92 := by
      intro he
      have hn := congrArg UInt8.toNat he
      rw [Text.toNat_ofNat_of_lt (Nat.lt_trans hlow (by decide))] at hn
      exact hc (Text.char_eq_of_toNat hn)
    rw [bytes_cons_of_lt hlow, unescapeBytes_plain hb, ih]
  | @letter c b t bs hc _ ih =>
    obtain ⟨hlow, hx, hletter⟩ := letter_plain _ hc
    have hbackslash : UInt8.ofNat '\\'.toNat = 92 := rfl
    rw [bytes_cons_of_lt (by decide), bytes_cons_of_lt hlow, hbackslash, unescapeBytes_letter hx,
      hletter, ih]
    rfl
  | @oneDigit c d t bs hc hnext _ ih =>
    have hstep := unescapeBytes_oneDigit (hexDigit?_of_isDigit hc) (hexDigit?_head_bytes hnext)
    rw [bytes_cons_of_lt (by decide), bytes_cons_of_lt (by decide),
      bytes_cons_of_lt (lt_of_isDigit hc)]
    exact hstep.trans (congrArg _ ih)
  | @twoDigits c e hi lo t bs hc he _ ih =>
    have hstep := unescapeBytes_twoDigits (hexDigit?_of_isDigit hc) (hexDigit?_of_isDigit he) t.bytes
    rw [bytes_cons_of_lt (by decide), bytes_cons_of_lt (by decide),
      bytes_cons_of_lt (lt_of_isDigit hc), bytes_cons_of_lt (lt_of_isDigit he)]
    exact hstep.trans (congrArg _ ih)

/-- Any bytes can be written with escapes, and a text that was written for them, each byte in any of
its ways, is expanded to just these bytes; the command prints them and does nothing else. -/
theorem escaped_bytes_expanded (bs : List UInt8) :
    (∃ t, Escaped t bs) ∧ ∀ t, Escaped t bs → unescape t = bs ∧
      ∀ (run : Text → Shell Unit) (m : Machine),
        Builtin.format.perform run t m = .ok () { m with console := m.console.put bs } := by
  refine ⟨exists_escaped bs, fun t h => ⟨h.unescape_eq, fun run m => ?_⟩⟩
  rw [← h.unescape_eq]
  rfl

/-- One digit with a letter behind it that is none, then two digits with one for itself behind them. -/
theorem escaped_bytes_of_line : ∃ t : Text, t = "\\x7g\\x4A2\\\\".toList ∧
    Escaped t [7, 103, 74, 50, 92] ∧ unescape t = [7, 103, 74, 50, 92] := by
  have hdigit : ∀ {c : Char} (d : Nat), digit? 16 c = some d → IsDigit 16 c d :=
    fun _ h => (digit?_eq_some_iff (Nat.le_refl 16)).mp h
  have hnext : ∀ t : Text, ∀ e ∈ ('g' :: t).head?, ∀ k, ¬ IsDigit 16 e k := by
    rintro t e he k hk
    cases he
    cases (digit?_eq_some_iff (Nat.le_refl 16)).mpr hk
  have hbackslash : Escaped ['\\', '\\'] [92] := .letter (by decide) .nil
  have htwo : Escaped ['2', '\\', '\\'] [50, 92] := .plain (by decide) (by decide) hbackslash
  have hhex : Escaped ['\\', 'x', '4', 'A', '2', '\\', '\\'] [74, 50, 92] :=
    .twoDigits (hdigit 4 rfl) (hdigit 10 rfl) htwo
  have hletter : Escaped ['g', '\\', 'x', '4', 'A', '2', '\\', '\\'] [103, 74, 50, 92] :=
    .plain (by decide) (by decide) hhex
  have hwritten : Escaped ['\\', 'x', '7', 'g', '\\', 'x', '4', 'A', '2', '\\', '\\']
      [7, 103, 74, 50, 92] := .oneDigit (hdigit 7 rfl) (hnext _) hletter
  exact ⟨_, rfl, hwritten, ((escaped_bytes_expanded _).2 _ hwritten).1⟩

end Whole

end CardShell.Display
